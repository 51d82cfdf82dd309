import Libnfs.Nfs3Readonly
import Libnfs.Nfs4Async

/-! The operations of `lib/nfs_v4.c` that only read: no operation of their COMPOUNDs modifies the file system of the server, and
the handles that they open are read-only. -/
namespace Libnfs
namespace Nfs4

open Paths Normalize Lookup3 Async Attributes
open Nfs3 (OpenFlags Nfsfh Result readonly_ofErr)
open Lookup4 (pathNames slashAt nfs4ResolvePath dataSplitPath)

/-- The operations that change the file system of the server; what `garbage` does is not known. -/
def Argop.modifies : Argop → Bool
  | .setattr _ | .create .. | .remove _ | .link _ | .rename .. | .write .. | .garbage => true
  | .open _ how _ => how ≠ .nocreate
  | _ => false

def Request.modifies : Request → Bool
  | .connect => false
  | .compound ops => ops.any Argop.modifies

def Filler.Readonly : Filler → Prop
  | .getfh | .getattr | .access _ | .open | .lookupReadlink | .readlink | .readdir _ => True
  | _ => False

/-- Nothing is created, and what has a name is not opened for writing. -/
structure CbData.Readonly (data : CbData) : Prop where
  func : data.func.Readonly
  openCb : data.openCb = none
  creat : data.flags.creat = false
  mode : data.name.isSome → data.flags.wronly = false ∧ data.flags.rdwr = false

def Cont.Readonly (data : CbData) : Cont → Prop
  | .open | .openReadlink => data.flags.wronly = false ∧ data.flags.rdwr = false
  | .link1 _ | .rename1 _ => False
  | _ => True

def Handler.Readonly (data : CbData) : Handler → Prop
  | .lookupPath1 cont | .lookupPath2 cont _ => cont.Readonly data
  | .mount1 | .mount2 | .mount3 => data.flags.wronly = false ∧ data.flags.rdwr = false
  | .openConfirm fh => fh.isReadonly = true
  | .openSetattr _ | .truncateClose | .pwrite | .writeAppend .. => False
  | _ => True

def Stage.Readonly (stage : Stage) : Prop := stage.data.Readonly ∧ stage.handler.Readonly stage.data

/-- The program modifies nothing. -/
abbrev Reads {α : Type} (m : M α) : Prop := Keeps (fun r : Request => r.modifies = false) Result.Readonly Stage.Readonly m

section Programs

variable {α : Type} {ctx : Ctx} {data : CbData} {reply : Reply}

theorem use_reads : Reads data.use := Keeps.store _

theorem free_reads : Reads data.free := use_reads.bind fun _ => Keeps.store _

theorem call_reads {r : Result} (hr : r.Readonly) : Reads (data.call r) := use_reads.bind fun _ => Keeps.tell hr

theorem finish_reads {r : Result} (hr : r.Readonly) : Reads (data.finish r) := (call_reads hr).bind fun _ => free_reads

theorem fail_reads (err : ℤ) : Reads (data.fail err) := finish_reads (readonly_ofErr err)

theorem done_reads (err : ℤ) : Reads (data.finish (.ofErr err)) := finish_reads (readonly_ofErr err)

/-- What is done when the COMPOUND is sent, and what when it is not -/
theorem submitElse_reads {ops : List Argop} {handler : Handler} {m m' : M α} (hops : ops.any Argop.modifies = false)
    (hd : data.Readonly) (hh : handler.Readonly data) (h : Reads m) (h' : Reads m') :
    Reads (data.submit ops handler >>= fun b => if b = true then m else m') :=
  Keeps.bind (use_reads.bind fun _ => Keeps.submit hops ⟨hd,hh⟩) fun _ => Keeps.ite (fun _ => h) fun _ => h'

theorem task_reads {ops : List Argop} {handler : Handler} (hops : ops.any Argop.modifies = false) (hd : data.Readonly)
    (hh : handler.Readonly data) : Reads (data.task ops handler) := submitElse_reads hops hd hh (.pure _) (fail_reads _)

theorem checked_reads {k : Res → M Unit} (hk : ∀ res, Reads (k res)) : Reads (checked data reply k) := by
  cases reply with
  | error | cancel | timeout => exact fail_reads _
  | success res => exact Keeps.ite (fun _ => fail_reads _) fun _ => hk res

theorem findOp_reads {res : Res} {op : Resop → Option α} {k : α → M Unit} (hk : ∀ a, Reads (k a)) :
    Reads (findOp data res op k) := by
  unfold findOp
  cases res.resarray.findSome? op with
  | none => exact fail_reads _
  | some a => exact hk a

theorem searched_reads {op : Resop → Option α} {k : Res → α → M Unit} (hk : ∀ res a, Reads (k res a)) :
    Reads (checked data reply fun res => findOp data res op (k res)) :=
  checked_reads fun res => findOp_reads fun a => hk res a

theorem allocateOp_modifies (names : List Path) : (allocateOp ctx names).any Argop.modifies = false := by
  have hlookups : (names.map Argop.lookup).any Argop.modifies = false := by
    rw [List.any_map]
    exact List.any_eq_false.mpr fun _ _ h => by cases h
  unfold allocateOp
  rw [List.any_cons,List.any_append,hlookups]
  split <;> rfl

/-- The operations of a filler that only reads; without a name it has none that opens a file. -/
theorem populate_reads {ops : List Argop} {func : Filler} (hd : data.Readonly) (h : data.populate = some (ops,func)) :
    ops.any Argop.modifies = false ∧ func = data.func ∧ (data.func = .open ∨ data.func = .lookupReadlink → data.name.isSome) := by
  obtain ⟨id,path,noFollow,f,flags,name,openCb⟩ := data
  have hf := hd.func
  have hcreat := hd.creat
  cases f with
  | getfh | getattr | access mask | readlink | readdir cookie =>
    cases h
    exact ⟨rfl,rfl,by simp⟩
  | lookupReadlink =>
    obtain ⟨name,hname,hops⟩ := Option.map_eq_some_iff.mp h
    cases hops
    exact ⟨rfl,rfl,fun _ => Option.isSome_iff_exists.mpr ⟨name,hname⟩⟩
  | «open» =>
    obtain ⟨name,hname,hops⟩ := Option.map_eq_some_iff.mp h
    cases hops
    refine ⟨?_,rfl,fun _ => Option.isSome_iff_exists.mpr ⟨name,hname⟩⟩
    simp only at hcreat
    simp [nfs4PopulateOpen,Argop.modifies,hcreat]
  | _ => exact hf.elim

theorem nfs4LookupPathAsync_reads {cont : Cont} (hd : data.Readonly)
    (hc : (data.func = .open ∨ data.func = .lookupReadlink → data.name.isSome) → cont.Readonly data) :
    Reads (nfs4LookupPathAsync ctx data cont) := by
  refine use_reads.bind fun _ => Keeps.mayElse ?_ (.pure _)
  cases nfs4ResolvePath ctx.cwd data.path with
  | error => exact .pure _
  | ok path =>
    refine Keeps.timesElse ?_ (.pure _)
    have hpath : { data with path := path }.populate = data.populate := rfl
    rw [hpath]
    cases hops : data.populate with
    | none => exact Keeps.crash.bind fun _ => .pure _
    | some r =>
      obtain ⟨ops,func⟩ := r
      obtain ⟨hmodifies,rfl,hname⟩ := populate_reads hd hops
      refine submitElse_reads ?_ ⟨hd.func,hd.openCb,hd.creat,hd.mode⟩ ?_ (.pure _) (.pure _)
      · rw [List.any_append,allocateOp_modifies,hmodifies]
        rfl
      · have hcont := hc hname
        cases cont with
        | «open» | openReadlink => exact hcont
        | link1 oldpath | rename1 oldpath => exact hcont.elim
        | _ => exact trivial

theorem lookupOr_reads {err : ℤ} {cont : Cont} (hd : data.Readonly)
    (hc : (data.func = .open ∨ data.func = .lookupReadlink → data.name.isSome) → cont.Readonly data) :
    Reads (lookupOr ctx err data cont) :=
  (nfs4LookupPathAsync_reads hd hc).bind fun _ => Keeps.ite (fun _ => fail_reads _) fun _ => .pure _

/-- The data that there is, if there is any, meets `Q`. -/
def Gets (Q : CbData → Prop) (m : M (Option CbData)) : Prop :=
  Triple (fun _ => True) (World.Within (fun r : Request => r.modifies = false) Result.Readonly Stage.Readonly) m fun r w =>
    World.Within (fun r : Request => r.modifies = false) Result.Readonly Stage.Readonly w ∧ ∀ data, r = some data → Q data

theorem Gets.bind {Q : CbData → Prop} {m : M (Option CbData)} {a : α} {k : CbData → M α} (hm : Gets Q m)
    (hk : ∀ data, Q data → Reads (k data)) :
    Reads (m >>= fun r => match r with | none => return a | some data => k data) := by
  refine Triple.bind hm fun r => ?_
  cases r with
  | none => exact Triple.pure fun _ h => h.1
  | some data => exact fun env he n w hw => hk data (hw.2 data rfl) env he n w hw.1

theorem split_gets : Gets (fun data' => ∃ path name, data' = { data with path := path, name := some name }) data.split := by
  have crashed : Gets (fun data' => ∃ path name, data' = { data with path := path, name := some name })
      (do Act.crash; return none) := fun _ _ _ _ h => ⟨⟨h.sent,h.calls,h.pending⟩,fun _ h => by cases h⟩
  refine Triple.bind (Triple.may _) fun _ => Triple.ite (fun _ => ?_) fun _ => crashed
  cases dataSplitPath data.path with
  | none => exact crashed
  | some r => exact Triple.pure fun _ h => ⟨h,fun data' hdata => ⟨r.1,r.2,(Option.some.inj hdata).symm⟩⟩

end Programs

section Handlers

variable {ctx : Ctx} {data : CbData} {reply : Reply}

theorem opened_reads {fh : Nfsfh} (hd : data.Readonly) (hfh : fh.isReadonly = true) : Reads (opened data fh reply) := by
  unfold opened
  rw [hd.openCb]
  exact finish_reads fun fh' h => by cases h; exact hfh

theorem nfs4OpenCb_reads (hd : data.Readonly) (hf : data.flags.wronly = false ∧ data.flags.rdwr = false) :
    Reads (nfs4OpenCb data reply) := by
  refine searched_reads fun res access => Keeps.ite (fun _ => fail_reads _) fun _ => findOp_reads fun fh => ?_
  have hfh : (decide ¬ (data.flags.wronly = true ∨ data.flags.rdwr = true)) = true := by simp [hf.1,hf.2]
  refine Keeps.timesElse (findOp_reads fun ores => Keeps.ite (fun _ => ?_) fun _ => opened_reads hd hfh) (fail_reads _)
  exact task_reads rfl hd hfh

theorem nfs4OpenReadlinkCb_reads (hd : data.Readonly) (hf : data.flags.wronly = false ∧ data.flags.rdwr = false) :
    Reads (nfs4OpenReadlinkCb ctx data reply) := by
  refine searched_reads fun res target => Keeps.mayElse (Keeps.mayElse ?_ (fail_reads _)) (fail_reads _)
  cases nfs4ResolvePath ctx.cwd (data.path ++ '/' :: target) with
  | error => exact fail_reads _
  | ok path =>
    refine split_gets.bind fun data' hdata => ?_
    obtain ⟨path,name,rfl⟩ := hdata
    exact lookupOr_reads ⟨trivial,hd.openCb,hd.creat,fun _ => hf⟩ fun _ => hf

theorem nfs4OpenReadlink_reads (hd : data.Readonly) : Reads (nfs4OpenReadlink ctx data) :=
  Keeps.ite (fun _ => call_reads (readonly_ofErr _)) fun _ =>
    lookupOr_reads ⟨trivial,hd.openCb,hd.creat,hd.mode⟩ fun hname => hd.mode (hname (.inr rfl))

theorem parseEntries_reads (entries : List Entry) (cookie : ℕ) : Reads (parseEntries ctx entries cookie) := by
  induction entries generalizing cookie with
  | nil => exact .pure _
  | cons e entries ih => exact Keeps.timesElse (Keeps.ite (fun _ => .pure _) fun _ => ih _) (.pure _)

theorem nfs4ParseReaddir_reads (hd : data.Readonly) (fh : Fh) (cookie : ℕ) (rdres : List Entry × Bool) :
    Reads (nfs4ParseReaddir ctx data fh cookie rdres) := by
  refine (parseEntries_reads rdres.1 cookie).bind fun r => ?_
  cases r with
  | error err => exact fail_reads _
  | ok cookie => exact Keeps.ite (fun _ => task_reads rfl hd trivial) fun _ => done_reads _

/-- `continue_cb` -/
theorem Cont.handle_reads {cont : Cont} (hd : data.Readonly) (hc : cont.Readonly data) :
    Reads (cont.handle ctx data reply) := by
  cases cont with
  | mount4 =>
    exact searched_reads fun _ fh =>
      Keeps.mayElse ((Keeps.store _).bind fun _ => task_reads rfl hd trivial) (fail_reads _)
  | chdir1 => exact checked_reads fun _ => (Keeps.store _).bind fun _ => done_reads _
  | xstat64 =>
    refine searched_reads fun _ attrs => Keeps.ite (fun _ => ?_) fun _ => done_reads _
    exact (fail_reads _).bind fun _ => done_reads _
  | simple h => exact checked_reads fun _ => done_reads _
  | «open» => exact nfs4OpenCb_reads hd hc
  | openReadlink => exact nfs4OpenReadlinkCb_reads hd hc
  | readlink => exact searched_reads fun _ _ => Keeps.mayElse (done_reads _) (fail_reads _)
  | link1 oldpath | rename1 oldpath => exact hc.elim
  | opendir =>
    exact searched_reads fun _ fh => Keeps.timesElse (findOp_reads fun _ => nfs4ParseReaddir_reads hd fh 0 _) (fail_reads _)
  | access => exact searched_reads fun _ _ => Keeps.ite (fun _ => done_reads _) fun _ => done_reads _

theorem readlinkTask_reads {cont : Cont} (hd : data.Readonly) (hc : cont.Readonly data) (idx : ℕ) (names : List Path) :
    Reads (readlinkTask ctx data cont idx names) := by
  refine Keeps.mayElse (task_reads ?_ hd hc) (fail_reads _)
  rw [List.any_append,allocateOp_modifies]
  rfl

theorem nfs4LookupPath1Cb_reads {cont : Cont} (hd : data.Readonly) (hc : cont.Readonly data) :
    Reads (nfs4LookupPath1Cb ctx data cont reply) := by
  cases reply with
  | error | cancel | timeout => exact fail_reads _
  | success res =>
    refine Keeps.ite (fun _ => fail_reads _) fun _ => Keeps.ite (fun _ => fail_reads _) fun _ => ?_
    refine Keeps.ite (fun _ => nfs4OpenReadlink_reads hd) fun _ => Keeps.ite (fun _ => Cont.handle_reads hd hc) fun _ => ?_
    refine Keeps.ite (fun _ => fail_reads _) fun _ => Keeps.mayElse ?_ (fail_reads _)
    refine Keeps.ite (fun _ => readlinkTask_reads hd hc _ _) fun _ => ?_
    cases linkNames (linkIdx res.resarray) data.path with
    | none => exact Keeps.crash
    | some names => exact readlinkTask_reads hd hc _ _

theorem nfs4LookupPath2Cb_reads {cont : Cont} (hd : data.Readonly) (hc : cont.Readonly data) (idx : ℕ) :
    Reads (nfs4LookupPath2Cb ctx data cont idx reply) := by
  refine checked_reads fun res => Keeps.mayElse ?_ (fail_reads _)
  cases slashAt (idx-1) data.path with
  | none => exact Keeps.crash
  | some tmp =>
    refine findOp_reads fun target => Keeps.mayElse (lookupOr_reads ⟨hd.func,hd.openCb,hd.creat,hd.mode⟩ fun _ => ?_) (fail_reads _)
    cases cont with
    | «open» | openReadlink => exact hc
    | link1 oldpath | rename1 oldpath => exact hc.elim
    | _ => exact trivial

theorem nfs4FcntlAsyncInternal_reads {fh : Nfsfh} {cmd : FcntlOp} {fl : Flock} (hd : data.Readonly) :
    Reads (nfs4FcntlAsyncInternal data fh cmd fl) := by
  refine submitElse_reads ?_ hd trivial (.pure _) (free_reads.bind fun _ => .pure _)
  obtain ⟨type,whence,start,len⟩ := fl
  cases type with
  | rdlck | wrlck | unlck | other => rfl

/-- A stage that only reads goes on with such stages. -/
theorem Stage.handle_reads {stage : Stage} (hs : stage.Readonly) (input : Ctx × Reply) : Reads (stage.handle input) := by
  obtain ⟨ctx,reply⟩ := input
  obtain ⟨data,handler⟩ := stage
  obtain ⟨hd,hh⟩ := hs
  cases handler with
  | lookupPath1 cont => exact nfs4LookupPath1Cb_reads hd hh
  | lookupPath2 cont idx => exact nfs4LookupPath2Cb_reads hd hh idx
  | mount1 =>
    cases reply with
    | success res => exact Keeps.crash
    | error | cancel | timeout => exact fail_reads _
  | mount2 => exact checked_reads fun _ => Keeps.ite (fun _ => Keeps.crash) fun _ => task_reads rfl hd hh
  | mount3 =>
    exact checked_reads fun _ =>
      Keeps.mayElse (lookupOr_reads ⟨trivial,hd.openCb,hd.creat,fun _ => hh⟩ fun _ => trivial) (fail_reads _)
  | mount5 =>
    refine searched_reads fun _ attrs => Keeps.ite (fun _ => ?_) fun _ => done_reads _
    exact (fail_reads _).bind fun _ => done_reads _
  | xstat64 =>
    refine searched_reads fun _ attrs => Keeps.ite (fun _ => ?_) fun _ => done_reads _
    exact (fail_reads _).bind fun _ => done_reads _
  | getacl => exact searched_reads fun _ _ => done_reads _
  | statvfs => exact searched_reads fun _ _ => Keeps.ite (fun _ => fail_reads _) fun _ => done_reads _
  | simple h => exact checked_reads fun _ => done_reads _
  | openConfirm fh => exact searched_reads fun _ _ => opened_reads hd hh
  | pread requested => exact searched_reads fun _ _ => done_reads _
  | opendir2 fh cookie => exact searched_reads fun _ _ => nfs4ParseReaddir_reads hd fh cookie _
  | lseek offset => exact searched_reads fun _ _ => done_reads _
  | lockf cmd =>
    refine checked_reads fun _ => ?_
    cases cmd with
    | lock | tlock | ulock => exact findOp_reads fun _ => done_reads _
    | test => exact done_reads _
  | fcntl fl =>
    refine checked_reads fun _ => ?_
    cases fl.type with
    | rdlck | wrlck | unlck => exact findOp_reads fun _ => done_reads _
    | other => exact done_reads _
  | fcntlStat fh cmd fl =>
    have hlock : ∀ fl, Reads (do if (← nfs4FcntlAsyncInternal data fh cmd fl) ≠ 0 then data.fail (-12) else return ()) :=
      fun fl => (nfs4FcntlAsyncInternal_reads hd).bind fun _ => Keeps.ite (fun _ => fail_reads _) fun _ => .pure _
    exact searched_reads fun _ attrs => Keeps.ite (fun _ => (fail_reads _).bind fun _ => hlock _) fun _ => hlock _
  | openSetattr fh | truncateClose | pwrite | writeAppend fh count => exact hh.elim

end Handlers

section Calls

variable {α : Type} {ctx : Ctx} {data : CbData}

theorem freed_reads (a : α) : Reads (do data.free; return a) := free_reads.bind fun _ => .pure _

theorem freed_gets {Q : CbData → Prop} : Gets Q (do data.free; return none) :=
  Triple.bind free_reads fun _ => Triple.pure fun _ h => ⟨h,fun _ h => by cases h⟩

/-- The data that a call has allocated -/
def Blank (data : CbData) : Prop := ∃ id path, data = { CbData.new id with path := path }

theorem Blank.readonly (h : Blank data) : data.Readonly := by
  obtain ⟨id,path,rfl⟩ := h
  exact ⟨trivial,rfl,rfl,fun _ => ⟨rfl,rfl⟩⟩

theorem callocData_gets : Gets Blank callocData := by
  refine Triple.bind (Triple.may _) fun b => Triple.ite (fun _ => ?_) fun _ => Triple.pure fun _ h => ⟨h,fun _ h => by cases h⟩
  refine fun env _ n w h => ⟨⟨h.sent,h.calls,h.pending⟩,fun data hdata => ?_⟩
  exact ⟨w.shared.allocated,[],(Option.some.inj hdata).symm⟩

theorem initCbDataFullPath_gets (path : Path) : Gets Blank (initCbDataFullPath ctx path) := by
  refine Triple.bind callocData_gets fun r => ?_
  cases r with
  | none => exact Triple.pure fun _ h => ⟨h.1,fun _ h => by cases h⟩
  | some data =>
    intro env he n w hw
    obtain ⟨id,path',rfl⟩ := hw.2 data rfl
    refine Triple.bind (Triple.may _) (fun b => Triple.ite (fun _ => ?_) fun _ => freed_gets) env he n w hw.1
    cases nfs4ResolvePath ctx.cwd path with
    | error => exact freed_gets
    | ok path => exact Triple.pure fun _ h => ⟨h,fun data hdata => ⟨id,path,(Option.some.inj hdata).symm⟩⟩

/-- The data of a name in a directory: no flags are set yet. -/
theorem initCbDataSplitPath_gets (path : Path) :
    Gets (fun data => data.func.Readonly ∧ data.openCb = none ∧ data.flags = noFlags) (initCbDataSplitPath ctx path) := by
  refine Triple.bind (initCbDataFullPath_gets path) fun r => ?_
  cases r with
  | none => exact Triple.pure fun _ h => ⟨h.1,fun _ h => by cases h⟩
  | some data =>
    intro env he n w hw
    obtain ⟨id,path',rfl⟩ := hw.2 data rfl
    obtain ⟨hwithin,hsplit⟩ := split_gets env he n w hw.1
    refine ⟨hwithin,fun data hdata => ?_⟩
    obtain ⟨path,name,rfl⟩ := hsplit data hdata
    exact ⟨trivial,rfl,rfl⟩

theorem lookupFor_reads {n : ℕ} {cont : Cont} (hd : data.Readonly)
    (hc : (data.func = .open ∨ data.func = .lookupReadlink → data.name.isSome) → cont.Readonly data) :
    Reads (lookupFor ctx n data cont) :=
  Keeps.timesElse ((nfs4LookupPathAsync_reads hd hc).bind fun _ => Keeps.ite (fun _ => freed_reads _) fun _ => .pure _)
    (freed_reads _)

theorem handleOp_reads {n : ℕ} {err : ℤ} {ops : List Argop} {handler : Handler} (hops : ops.any Argop.modifies = false)
    (hh : ∀ data, handler.Readonly data) : Reads (handleOp n err ops handler) :=
  callocData_gets.bind fun data hd =>
    Keeps.timesElse (submitElse_reads hops hd.readonly (hh data) (.pure _) (freed_reads _)) (freed_reads _)

theorem fillerDataOp_reads {path : Path} {noFollow : Bool} {cont : Cont}
    (hc : ∀ data : CbData, cont.Readonly data) : Reads (fillerDataOp ctx path noFollow cont) := by
  refine (initCbDataFullPath_gets path).bind fun data hd => Keeps.mayElse ?_ ((fail_reads _).bind fun _ => .pure _)
  obtain ⟨id,path',rfl⟩ := hd
  exact lookupFor_reads ⟨trivial,rfl,rfl,fun _ => ⟨rfl,rfl⟩⟩ fun _ => hc _

/-- `nfs4_access2_async` sets `O_WRONLY`, but there is no name that could be opened. -/
theorem nfs4AccessInternal_reads {path : Path} {mode : ℕ} {isAccess2 : Bool} :
    Reads (nfs4AccessInternal ctx path mode isAccess2) := by
  refine (initCbDataFullPath_gets path).bind fun data hd => Keeps.mayElse ?_ (.pure _)
  obtain ⟨id,path',rfl⟩ := hd
  exact lookupFor_reads ⟨trivial,rfl,rfl,fun h => by cases h⟩ fun _ => trivial

theorem nfs4MountAsync_reads {export_ : Path} : Reads (nfs4MountAsync export_) := by
  refine Keeps.timesElse ?_ (.pure _)
  cases nfsNormalizePath export_ with
  | error => exact .pure _
  | ok path =>
    refine callocData_gets.bind fun data hd => ?_
    obtain ⟨id,path',rfl⟩ := hd
    have hstage : Stage.Readonly ⟨{ CbData.new id with path := path },.mount1⟩ :=
      ⟨⟨trivial,rfl,rfl,fun _ => ⟨rfl,rfl⟩⟩,rfl,rfl⟩
    exact Keeps.bind (Keeps.submit rfl hstage) fun _ => Keeps.ite (fun _ => .pure _) fun _ => freed_reads _

/-- The flags that a readonly context lets through, without `O_EXCL`: no SETATTR follows the OPEN. -/
theorem nfs4OpenAsync_reads {path : Path} {flags : OpenFlags} {mode : ℕ} (hf : flags.Readonly) (he : flags.excl = false) :
    Reads (nfs4OpenAsync ctx path flags mode) := by
  refine (initCbDataSplitPath_gets path).bind fun data hd => ?_
  have hopen : openFlags flags = flags := by simp [openFlags,hf.trunc,he]
  simp only [hopen,hf.trunc,he]
  refine Keeps.timesElse ?_ (freed_reads _)
  have happend : ∀ f : OpenFlags, f.Readonly → (if f.append ∧ ¬ (f.rdwr ∨ f.wronly) then { f with append := false } else f).Readonly := by
    intro f hf
    split
    · exact ⟨hf.wronly,hf.rdwr,hf.creat,hf.trunc⟩
    · exact hf
  have hflags := happend flags hf
  exact lookupFor_reads ⟨trivial,rfl,hflags.creat,fun _ => ⟨hflags.wronly,hflags.rdwr⟩⟩ fun _ => ⟨hflags.wronly,hflags.rdwr⟩

theorem nfs4LseekAsync_reads {fh : Nfsfh} {offset : ℤ} {whence : ℕ} : Reads (nfs4LseekAsync fh offset whence) := by
  have told : ∀ err, Reads (do Act.tell (Result.ofErr err); return (0 : ℤ) : M ℤ) :=
    fun err => (Keeps.tell (readonly_ofErr err)).bind fun _ => .pure _
  exact Keeps.ite (fun _ => told _) fun _ => Keeps.ite (fun _ => told _) fun _ => handleOp_reads rfl fun _ => trivial

theorem nfs4FcntlAsync_reads {fh : Nfsfh} {cmd : Option FcntlOp} {fl : Flock} : Reads (nfs4FcntlAsync fh cmd fl) := by
  refine callocData_gets.bind fun data hd => ?_
  cases cmd with
  | none => exact freed_reads _
  | some cmd =>
    refine Keeps.ite (fun _ => nfs4FcntlAsyncInternal_reads hd.readonly) fun _ =>
      Keeps.ite (fun _ => nfs4FcntlAsyncInternal_reads hd.readonly) fun _ => Keeps.ite (fun _ => ?_) fun _ => freed_reads _
    exact submitElse_reads rfl hd.readonly trivial (.pure _) (freed_reads _)

/-- The operations that do not modify anything. A file that is opened with `O_EXCL` gets the mode of the call. -/
def Op.Readonly : Op → Prop
  | .open _ flags _ => flags.Readonly ∧ flags.excl = false
  | .access .. | .access2 _ | .chdir _ | .close _ | .fcntl .. | .fstat64 _ | .fsync _ | .getacl _ | .lockf .. | .lseek ..
  | .mount _ | .opendir _ | .pread .. | .preadv .. | .readlink _ | .stat64 .. | .statvfs _ | .statvfs64 _ => True
  | _ => False

theorem Op.call_reads {op : Op} (h : op.Readonly) : Reads (op.call ctx) := by
  cases op with
  | access path mode | access2 path => exact nfs4AccessInternal_reads
  | chdir path | stat64 path noFollow => exact fillerDataOp_reads fun _ => trivial
  | close fh =>
    refine handleOp_reads ?_ fun _ => trivial
    split <;> rfl
  | fcntl fh cmd fl => exact nfs4FcntlAsync_reads
  | fstat64 fh | fsync fh | getacl fh | pread fh count offset | preadv fh lens offset | statvfs path | statvfs64 path =>
    exact handleOp_reads rfl fun _ => trivial
  | lockf fh cmd count =>
    refine handleOp_reads ?_ fun _ => trivial
    cases cmd with
    | lock | tlock | ulock | test => rfl
  | lseek fh offset whence => exact nfs4LseekAsync_reads
  | mount export_ => exact nfs4MountAsync_reads
  | opendir path | readlink path =>
    refine (initCbDataFullPath_gets path).bind fun data hd => ?_
    obtain ⟨id,path',rfl⟩ := hd
    exact lookupFor_reads ⟨trivial,rfl,rfl,fun _ => ⟨rfl,rfl⟩⟩ fun _ => trivial
  | «open» path flags mode => exact nfs4OpenAsync_reads h.1 h.2
  | _ => exact h.elim

end Calls

end Nfs4
end Libnfs
