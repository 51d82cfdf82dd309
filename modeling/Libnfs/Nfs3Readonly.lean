import Libnfs.Nfs3Async
import Libnfs.Sessions

/-! The operations of `lib/nfs_v3.c` that only read: none of their requests modifies the file system of the server, and the
handles that they open are read-only. -/
namespace Libnfs
namespace Nfs3

open Paths Normalize NestedMounts Lookup3 Async

/-- The procedures that change the file system of the server -/
def Rpc.modifies : Rpc → Bool
  | .setattr | .write | .create | .mkdir | .symlink | .mknod | .remove | .rmdir | .rename | .link => true
  | _ => false

/-- A handle that is told can only be read. -/
def Result.Readonly (r : Result) : Prop := ∀ fh, r.nfsfh = some fh → fh.isReadonly = true

structure OpenFlags.Readonly (flags : OpenFlags) : Prop where
  wronly : flags.wronly = false
  rdwr : flags.rdwr = false
  creat : flags.creat = false
  trunc : flags.trunc = false

def Final.Readonly : Final → Prop
  | .access2 | .access _ | .readlink | .statvfs | .opendir | .stat64 | .stat | .chdir => True
  | .open flags => flags.Readonly
  | _ => False

def Cont.Readonly : Cont → Prop
  | .final c => c.Readonly
  | _ => False

def Cb.Readonly : Cb → Prop
  | .base _ => True
  | .initialOpen o => o.flags.Readonly

def Stage.Readonly : Stage → Prop
  | .lookupPath1 l _ | .lookupPath2 l _ | .lookupPathGetattr l _ => l.cb.Readonly ∧ l.cont.Readonly
  | .simple _ cb | .getacl cb | .opendir cb _ _ | .opendir2 cb _ | .opendir3 cb => cb.Readonly
  | .open flags _ cb => flags.Readonly ∧ cb.Readonly
  | _ => False

/-- The program modifies nothing. -/
abbrev Reads {α : Type} (m : M α) : Prop := Keeps (fun r : Rpc => r.modifies = false) Result.Readonly Stage.Readonly m

section Programs

variable {ctx : Ctx} {call : Result → M Unit} {cb : Cb} {l : Look}

theorem readonly_ofErr (err : ℤ) : (Result.ofErr err).Readonly := fun _ h => by cases h

/-- What is done when the request is sent, and what when it is not -/
theorem submitElse_reads {α : Type} {r : Rpc} {stage : Stage} {m m' : M α} (hr : r.modifies = false) (hs : stage.Readonly)
    (h : Reads m) (h' : Reads m') : Reads (Act.submit (.task r) r stage >>= fun b => if b = true then m else m') :=
  Keeps.bind (Keeps.submit hr hs) fun _ => Keeps.ite (fun _ => h) fun _ => h'

theorem task_reads {r : Rpc} {stage : Stage} (hr : r.modifies = false) (hs : stage.Readonly)
    (hcall : ∀ r : Result, r.Readonly → Reads (call r)) : Reads (task call r stage) :=
  submitElse_reads hr hs (.pure _) ((hcall _ (readonly_ofErr _)).bind fun _ => .pure _)

theorem checked_reads {reply : Reply} {k : Resok → M Unit} (hcall : ∀ r : Result, r.Readonly → Reads (call r))
    (hk : ∀ res, Reads (k res)) : Reads (checked call reply k) := by
  rcases reply with _ | _ | _ | (status | res)
  · exact hcall _ (readonly_ofErr _)
  · exact hcall _ (readonly_ofErr _)
  · exact hcall _ (readonly_ofErr _)
  · exact hcall _ (readonly_ofErr _)
  · exact hk res

theorem perform_reads {continue_ : Path → Fh → Option Attr → M ℤ} (hcall : ∀ r : Result, r.Readonly → Reads (call r))
    (hl : l.cb.Readonly ∧ l.cont.Readonly) (hc : ∀ p fh attr, Reads (continue_ p fh attr)) (next : Next Attr) :
    Reads (perform call continue_ l next) := by
  rcases next with (_ | err | ⟨fh,attr,savedPath⟩) | ⟨d,fh,name⟩ | ⟨d,fh⟩
  · exact .pure _
  · exact hcall _ (readonly_ofErr _)
  · exact Keeps.mayElse (hc _ _ _).discard (hcall _ (readonly_ofErr _))
  · exact Keeps.discard (task_reads rfl hl hcall)
  · exact Keeps.discard (task_reads rfl hl hcall)

theorem nfs3LookuppathAsync_reads {continue_ : Path → Fh → Option Attr → M ℤ} {freeable : Bool} {path : Path}
    (hcall : ∀ r : Result, r.Readonly → Reads (call r)) (hl : l.cb.Readonly ∧ l.cont.Readonly)
    (hc : ∀ p fh attr, Reads (continue_ p fh attr)) :
    Reads (Nfs3.nfs3LookuppathAsync ctx call continue_ l freeable path) := by
  have hstart : Reads (startLookup ctx call continue_ l path) := by
    refine Keeps.mayElse ?_ (.pure _)
    cases NestedMounts.nfs3LookuppathAsync ctx.cwd ctx.mounted.nestedMounts path with
    | error e => exact .pure _
    | ok s =>
      dsimp only
      cases s.fh with
      | some mnt =>
        exact Keeps.mayElse ((perform_reads hcall hl hc _).bind fun _ => .pure _) (Keeps.crash.bind fun _ => .pure _)
      | none =>
        refine Keeps.ite (fun _ => (perform_reads hcall hl hc _).bind fun _ => .pure _) fun _ => ?_
        exact submitElse_reads rfl hl (.pure _) (.pure _)
  refine Keeps.mayElse hstart ?_
  cases freeable with
  | true => exact .pure _
  | false => exact Keeps.crash.bind fun _ => .pure _

theorem BaseCb.call_reads (base : BaseCb) {r : Result} (hr : r.Readonly) : Reads (base.call r) := by
  cases base with
  | user | close => exact Keeps.tell hr
  | openCreate =>
    refine Keeps.tell ?_
    by_cases h : r.err ≠ 0
    · rw [if_pos h]
      exact readonly_ofErr _
    · rwa [if_neg h]

/-- Without `O_CREAT` nothing is created where the path is not found. -/
theorem nfs3InitialOpenCb_reads {o : OpenCbData} (ho : o.flags.Readonly) {r : Result} (hr : r.Readonly) :
    Reads (nfs3InitialOpenCb ctx o r) := by
  refine Keeps.ite (fun _ => Keeps.tell (readonly_ofErr _)) fun _ => Keeps.ite (fun h => ?_) fun _ => ?_
  · rw [ho.creat] at h
    exact absurd h.2 (by simp)
  · exact Keeps.ite (fun _ => Keeps.tell (readonly_ofErr _)) fun _ => Keeps.tell hr

theorem Cb.call_reads (hcb : cb.Readonly) (r : Result) (hr : r.Readonly) : Reads (cb.call ctx r) := by
  cases cb with
  | base base => exact base.call_reads hr
  | initialOpen o => exact nfs3InitialOpenCb_reads hcb hr

theorem Final.continue_reads {c : Final} (hc : c.Readonly) (hcb : cb.Readonly)
    (hcall : ∀ r : Result, r.Readonly → Reads (call r)) (savedPath : Path) (fh : Fh) (attr : Option Attr) :
    Reads (c.continue ctx call cb savedPath fh attr) := by
  cases c with
  | access2 | access mode | readlink | statvfs | stat64 | stat => exact task_reads rfl hcb hcall
  | opendir =>
    refine Keeps.ite (fun _ => (hcall _ (readonly_ofErr _)).bind fun _ => .pure _) fun _ => ?_
    exact Keeps.mayElse (task_reads rfl hcb hcall) ((hcall _ (readonly_ofErr _)).bind fun _ => .pure _)
  | chdir => exact (Keeps.store _).bind fun _ => (hcall _ (readonly_ofErr _)).bind fun _ => .pure _
  | «open» flags =>
    refine Keeps.ite (fun _ => (hcall _ (readonly_ofErr _)).bind fun _ => .pure _) fun _ => ?_
    exact task_reads rfl ⟨hc,hcb⟩ hcall
  | _ => exact hc.elim

theorem Cont.continue_reads {c : Cont} (hc : c.Readonly) (hcb : cb.Readonly) (savedPath : Path) (fh : Fh)
    (attr : Option Attr) : Reads (c.continue ctx cb savedPath fh attr) := by
  cases c with
  | final c => exact Final.continue_reads hc hcb (Cb.call_reads hcb) savedPath fh attr
  | link1 newparent | rename1 newparent => exact hc.elim

theorem Look.perform_reads (hl : l.cb.Readonly ∧ l.cont.Readonly) (next : Next Attr) : Reads (l.perform ctx next) :=
  Nfs3.perform_reads (Cb.call_reads hl.1) hl (Cont.continue_reads hl.2 hl.1) next

theorem addEntries_reads (type : Entry → ℕ) (es : List Entry) (entries : List Dirent) : Reads (addEntries type es entries) := by
  induction es generalizing entries with
  | nil => exact .pure _
  | cons e es ih => exact Keeps.timesElse (ih _) (.pure _)

theorem lookupMissingAttributes_reads (hcb : cb.Readonly) (entries : List Dirent) (started : Bool) :
    Reads (lookupMissingAttributes cb entries started) := by
  induction entries generalizing started with
  | nil => exact Keeps.load.bind fun _ => .pure _
  | cons nfsdirent entries ih =>
    refine Keeps.ite (fun _ => ih started) fun _ => Keeps.timesElse ?_ (Keeps.crash.bind fun _ => .pure _)
    exact (Keeps.store _).bind fun _ => submitElse_reads rfl hcb ((Keeps.store _).bind fun _ => ih true) (ih true)

theorem dirDone_reads (hcb : cb.Readonly) (hcall : ∀ r : Result, r.Readonly → Reads (call r)) (entries : List Dirent) :
    Reads (dirDone call cb entries) :=
  (lookupMissingAttributes_reads hcb entries false).bind fun _ =>
    Keeps.ite (fun _ => hcall _ (readonly_ofErr _)) fun _ => .pure _

/-- A READDIR or a READDIRPLUS, with the request for the rest of the directory -/
theorem entries_reads {type : Entry → ℕ} {res : Resok} {entries : List Dirent} {r : Rpc} {stage : List Dirent → Stage}
    (hr : r.modifies = false) (hs : ∀ entries, (stage entries).Readonly) (hcb : cb.Readonly)
    (hcall : ∀ r : Result, r.Readonly → Reads (call r)) :
    Reads (addEntries type res.entries entries >>= fun b => match b with
      | none => call (.ofErr (-12))
      | some entries =>
        if ¬ res.eof then discard (task call r (stage entries)) else dirDone call cb entries) := by
  refine (addEntries_reads _ _ _).bind fun b => ?_
  cases b with
  | none => exact hcall _ (readonly_ofErr _)
  | some entries => exact Keeps.ite (fun _ => Keeps.discard (task_reads hr (hs _) hcall)) fun _ => dirDone_reads hcb hcall _

theorem nfs3OpendirCb_reads (hcb : cb.Readonly) (hcall : ∀ r : Result, r.Readonly → Reads (call r)) (savedPath : Path)
    (entries : List Dirent) (reply : Reply) : Reads (nfs3OpendirCb ctx call cb savedPath entries reply) := by
  unfold nfs3OpendirCb
  split
  · exact Keeps.discard (task_reads rfl hcb hcall)
  · exact checked_reads hcall fun _ => entries_reads rfl (fun _ => hcb) hcb hcall

theorem nfs3Opendir3Cb_reads (hcall : ∀ r : Result, r.Readonly → Reads (call r)) (reply : Reply) :
    Reads (nfs3Opendir3Cb call reply) := by
  refine (Keeps.store _).bind fun _ => Keeps.load.bind fun s => Keeps.ite (fun _ => ?_) fun _ => .pure _
  exact Keeps.ite (fun _ => hcall _ (readonly_ofErr _)) fun _ => hcall _ (readonly_ofErr _)

/-- Neither `O_TRUNC` nor a mode that writes: no SETATTR, and the handle is read-only. -/
theorem nfs3OpenCb_reads {flags : OpenFlags} (hf : flags.Readonly) (hcall : ∀ r : Result, r.Readonly → Reads (call r))
    (fh : Fh) (reply : Reply) : Reads (nfs3OpenCb call flags fh cb reply) := by
  refine checked_reads hcall fun res => Keeps.ite (fun _ => hcall _ (readonly_ofErr _)) fun _ => Keeps.ite (fun h => ?_) fun _ => ?_
  · rw [hf.trunc] at h
    exact absurd h.1 (by simp)
  · refine Keeps.mayElse (hcall _ fun fh' h => ?_) (hcall _ (readonly_ofErr _))
    cases h
    simp [hf.wronly,hf.rdwr]

/-- A stage that only reads goes on with such stages. -/
theorem Stage.handle_reads {stage : Stage} (hs : stage.Readonly) (input : Ctx × Reply) : Reads (stage.handle input) := by
  obtain ⟨ctx,reply⟩ := input
  cases stage with
  | lookupPath1 l d => exact checked_reads (Cb.call_reads hs.1) fun _ => Look.perform_reads hs _
  | lookupPath2 l d =>
    refine checked_reads (Cb.call_reads hs.1) fun _ => Keeps.ite (fun _ => Look.perform_reads hs _) fun _ => ?_
    exact Keeps.mayElse (Look.perform_reads hs _) (Cb.call_reads hs.1 _ (readonly_ofErr _))
  | lookupPathGetattr l d => exact checked_reads (Cb.call_reads hs.1) fun _ => Look.perform_reads hs _
  | simple h cb => exact checked_reads (Cb.call_reads hs) fun _ => Cb.call_reads hs _ (readonly_ofErr _)
  | getacl cb =>
    exact checked_reads (Cb.call_reads hs) fun _ =>
      Keeps.timesElse (Cb.call_reads hs _ (readonly_ofErr _)) (Cb.call_reads hs _ (readonly_ofErr _))
  | opendir cb savedPath entries => exact nfs3OpendirCb_reads hs (Cb.call_reads hs) savedPath entries reply
  | opendir2 cb entries =>
    exact checked_reads (Cb.call_reads hs) fun _ => entries_reads rfl (fun _ => hs) hs (Cb.call_reads hs)
  | opendir3 cb => exact nfs3Opendir3Cb_reads (Cb.call_reads hs) reply
  | «open» flags fh cb => exact nfs3OpenCb_reads hs.1 (Cb.call_reads hs.2) fh reply
  | _ => exact hs.elim

end Programs

section Calls

variable {ctx : Ctx}

theorem user_call_reads (r : Result) (hr : r.Readonly) : Reads (user.call ctx r) := BaseCb.user.call_reads hr

theorem lookupFor_reads {n : ℕ} {noFollow : Bool} {cont : Cont} {path : Path} (hc : cont.Readonly) :
    Reads (lookupFor ctx n noFollow cont path) :=
  Keeps.timesElse (nfs3LookuppathAsync_reads user_call_reads ⟨trivial,hc⟩ (Cont.continue_reads hc trivial)) (.pure _)

theorem handleTask_reads {n : ℕ} {r : Rpc} {stage : Stage} (hr : r.modifies = false) (hs : stage.Readonly) :
    Reads (handleTask ctx n r stage) := Keeps.timesElse (task_reads hr hs user_call_reads) (.pure _)

theorem handleSend_reads {r : Rpc} {stage : Stage} (hr : r.modifies = false) (hs : stage.Readonly) :
    Reads (handleSend r stage) :=
  Keeps.mayElse (submitElse_reads hr hs (.pure _) (.pure _)) (.pure _)

/-- The operations that do not modify anything -/
def Op.Readonly : Op → Prop
  | .open _ flags _ => flags.Readonly
  | .access .. | .access2 _ | .chdir _ | .close _ | .fstat | .fstat64 | .fsync | .getacl | .lseek .. | .opendir _
  | .pread .. | .preadv .. | .readlink _ | .stat _ | .stat64 .. | .statvfs _ | .statvfs64 _ => True
  | _ => False

theorem nfs3OpenAsync_reads {path : Path} {flags : OpenFlags} {mode : ℕ} (hf : flags.Readonly) :
    Reads (nfs3OpenAsync ctx path flags mode) := by
  have hlook : Reads (nfs3LookuppathAsync ctx ((Cb.initialOpen ⟨path,flags,mode⟩).call ctx)
      (fun p fh attr => (Cont.final (.open flags)).continue ctx (.initialOpen ⟨path,flags,mode⟩) p fh attr)
      ⟨false,.initialOpen ⟨path,flags,mode⟩,.final (.open flags)⟩ true path) :=
    nfs3LookuppathAsync_reads (@Cb.call_reads ctx (.initialOpen ⟨path,flags,mode⟩) hf) ⟨hf,hf⟩ (Cont.continue_reads hf hf)
  exact Keeps.timesElse (hlook.bind fun _ => Keeps.ite (fun _ => .pure _) fun _ => .pure _) (.pure _)

theorem Op.call_reads {op : Op} (h : op.Readonly) : Reads (op.call ctx) := by
  cases op with
  | access path mode | access2 path | chdir path | opendir path | readlink path | stat path | stat64 path noFollow
  | statvfs path | statvfs64 path => exact lookupFor_reads trivial
  | close nfsfh =>
    refine Keeps.ite (fun _ => (user_call_reads _ (readonly_ofErr _)).bind fun _ => .pure _) fun _ => Keeps.mayElse ?_ (.pure _)
    exact Keeps.mayElse (task_reads rfl trivial (@Cb.call_reads ctx (.base .close) trivial)) (.pure _)
  | fstat | fstat64 | getacl => exact handleTask_reads rfl trivial
  | fsync => exact Keeps.mayElse (task_reads rfl trivial user_call_reads) (.pure _)
  | lseek nfsfh offset whence =>
    have told : ∀ err, Reads (do user.call ctx (.ofErr err); return (0 : ℤ)) :=
      fun err => (user_call_reads _ (readonly_ofErr err)).bind fun _ => .pure _
    exact Keeps.ite (fun _ => told _) fun _ => Keeps.ite (fun _ => told _) fun _ => handleSend_reads rfl trivial
  | pread count readmax | preadv lens readmax => exact handleSend_reads rfl trivial
  | «open» path flags mode => exact nfs3OpenAsync_reads h
  | _ => exact h.elim

end Calls

end Nfs3
end Libnfs
