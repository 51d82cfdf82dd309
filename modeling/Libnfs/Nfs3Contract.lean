import Libnfs.Nfs3Async

/-! The contract of the operations of `lib/nfs_v3.c`: a call that returns 0 tells its callback once, and a call that
returns a negative value does not tell it. -/
namespace Libnfs
namespace Nfs3

open Paths Normalize NestedMounts Lookup3 Async

/-- The stages that do not wait with others -/
def Stage.Single : Stage → Prop
  | .opendir3 _ | .pwriteMcb _ _ _ => False
  | _ => True

def Stage.isOpendir3 : Stage → Prop
  | .opendir3 _ => True
  | _ => False

def Stage.isPwriteMcb : Stage → Prop
  | .pwriteMcb _ _ _ => True
  | _ => False

/-- What waits for answers: one stage, the LOOKUPs of the missing attributes, or the WRITEs of one operation -/
inductive Waits (s : Shared) : List Stage → Prop
  | single (stage : Stage) (h : stage.Single) : Waits s [stage]
  | missing (l : List Stage) (h : ∀ stage ∈ l, stage.isOpendir3) (hne : l ≠ []) (hs : s.getattrcount = l.length) : Waits s l
  | writes (l : List Stage) (h : ∀ stage ∈ l, stage.isPwriteMcb) (hne : l ≠ []) (hs : s.numCalls = l.length) : Waits s l

theorem Waits.ne_nil {s : Shared} {l : List Stage} (h : Waits s l) : l ≠ [] := by
  cases h with
  | single => simp
  | missing _ _ hne => exact hne
  | writes _ _ hne => exact hne

/-- The allocations whose result is not looked at do not fail, and no lookup without a `free_continue_data` is refused. -/
def Careful (env : Env Site) : Prop := ∀ n, env n .unchecked = true ∧ env n .cbData = true

def Sends (r : Rpc) (env : Env Site) : Prop := ∀ n, env n (.task r) = true

theorem internal_ne_refused (flags : Flags) (attr : Option Attr) (d : Data) (fh : Fh) :
    nfs3LookupPathAsyncInternal server flags attr d fh ≠ .done .refused := by
  unfold nfs3LookupPathAsyncInternal
  grind

theorem lookupPath1Cb_ne_refused (flags : Flags) (d : Data) (res : Except ℤ (Fh × Attr)) :
    Lookup3.nfs3LookupPath1Cb server flags d res ≠ .done .refused := by
  cases res with
  | error => simp [Lookup3.nfs3LookupPath1Cb]
  | ok res => exact internal_ne_refused _ _ _ _

theorem lookupPath2Cb_ne_refused (mounted : Mounted) (flags : Flags) (d : Data) (res : Except ℤ Path) :
    Lookup3.nfs3LookupPath2Cb server mounted flags d res ≠ .done .refused := by
  cases res with
  | error => simp [Lookup3.nfs3LookupPath2Cb]
  | ok target =>
    simp only [Lookup3.nfs3LookupPath2Cb]
    cases newPath mounted.export_ d target with
    | none => simp
    | some p =>
      dsimp only
      cases nfsNormalizePath p with
      | error => simp
      | ok path => exact internal_ne_refused _ _ _ _

theorem lookupPathGetattrCb_ne_refused (mounted : Mounted) (flags : Flags) (d : Data) (res : Except ℤ Attr) :
    Lookup3.nfs3LookupPathGetattrCb server mounted flags d res ≠ .done .refused := by
  cases res with
  | error => simp [Lookup3.nfs3LookupPathGetattrCb]
  | ok attr => exact internal_ne_refused _ _ _ _

variable {α : Type} {E : Env Site → Prop} {ctx : Ctx} {call : Result → M Unit}

section Requests

variable (hcall : ∀ r, Pays Waits E (call r))
include hcall

theorem task_pays {r : Rpc} {stage : Stage} (hs : stage.Single) : Pays Waits E (task call r stage) :=
  Pays.submit (fun _ => .single stage hs) (hcall _).bind_pure

omit hcall in
theorem task_contract {r : Rpc} {stage : Stage} (he : ∀ env, E env → Sends r env) (hs : stage.Single) :
    Contract Waits E (task call r stage) := Contract.submit_sure he fun _ => .single stage hs

theorem checked_pays {reply : Reply} {k : Resok → M Unit} (hk : ∀ res, Pays Waits E (k res)) :
    Pays Waits E (checked call reply k) := by
  cases reply with
  | error | cancel | timeout => exact hcall _
  | success res =>
    cases res with
    | error status => exact hcall _
    | ok res => exact hk res

/-- What a lookup does next, if it does not refuse -/
theorem perform_pays {continue_ : Path → Fh → Option Attr → M ℤ} {l : Look} {next : Next Attr}
    (hcont : ∀ p fh attr, Pays Waits E (continue_ p fh attr)) (hn : next ≠ .done .refused) :
    Pays Waits E (perform call continue_ l next) := by
  cases next with
  | done r =>
    cases r with
    | refused => exact absurd rfl hn
    | called err => exact hcall _
    | continued fh attr savedPath => exact Pays.may (hcont savedPath fh attr).discard (hcall _)
  | lookup d fh name => exact (task_pays hcall (by trivial)).discard
  | readlink d fh => exact (task_pays hcall (by trivial)).discard

variable {continue_ : Path → Fh → Option Attr → M ℤ} {l : Look}

theorem startLookup_contract {path : Path} (he : ∀ env, E env → Careful env)
    (hcont : ∀ p fh attr, Pays Waits E (continue_ p fh attr)) : Contract Waits E (startLookup ctx call continue_ l path) := by
  have hperform : ∀ d fh, Pays Waits E (perform call continue_ l (nfs3LookupPathAsyncInternal server l.flags none d fh)) :=
    fun d fh => perform_pays hcall hcont (internal_ne_refused _ _ _ _)
  unfold startLookup
  refine Contract.may ?_ (Contract.refuse (by decide))
  cases NestedMounts.nfs3LookuppathAsync ctx.cwd ctx.mounted.nestedMounts path with
  | error => exact Contract.refuse (by decide)
  | ok s =>
    dsimp only
    cases s.fh with
    | some mnt => exact Contract.sure (fun env h n => (he env h n).1) (Contract.paid (hperform _ _))
    | none =>
      refine Contract.ite (fun _ => Contract.paid (hperform _ _)) fun _ => ?_
      exact Contract.submit (fun _ => .single _ trivial) (Contract.refuse (by decide))

/-- Where the environment is careful a path lookup keeps the contract. -/
theorem nfs3LookuppathAsync_contract {freeable : Bool} {path : Path} (he : ∀ env, E env → Careful env)
    (hcont : ∀ p fh attr, Pays Waits E (continue_ p fh attr)) :
    Contract Waits E (Nfs3.nfs3LookuppathAsync ctx call continue_ l freeable path) := by
  have hstart := @startLookup_contract E ctx call hcall continue_ l path he hcont
  cases freeable with
  | true => exact Contract.may hstart (Contract.refuse (by decide))
  | false => exact Contract.sure (fun env h n => (he env h n).2) hstart

end Requests

theorem BaseCb.call_pays (cb : BaseCb) (r : Result) : Pays Waits E (cb.call r) := by
  cases cb with
  | user | close | openCreate => exact Pays.tell _

/-- The continuations that wait for a request and those that are done at once. The SETATTR of a truncate has to be sent. -/
def Final.told : Final → Option Rpc
  | .truncate _ => some .setattr
  | _ => none

def Cont.told : Cont → Option Rpc
  | .final c => c.told
  | _ => none

section Continuations

variable {cb : Cb}

theorem nfs3OpendirContinueInternal_pays (hcall : ∀ r, Pays Waits E (call r)) (savedPath : Path) (fh : Fh) (attr : Option Attr) :
    Pays Waits E (nfs3OpendirContinueInternal ctx call cb savedPath fh attr) := by
  refine Pays.ite (fun _ => (hcall _).bind_pure) fun _ => ?_
  exact Pays.may (task_pays hcall trivial) (hcall _).bind_pure

theorem nfs3MknodContinueInternal_pays (hcall : ∀ r, Pays Waits E (call r)) (mode : ℕ) :
    Pays Waits E (nfs3MknodContinueInternal call cb mode) :=
  Pays.ite (fun _ => task_pays hcall trivial) fun _ => (hcall _).bind_pure

theorem nfs3ChdirContinueInternal_pays (hcall : ∀ r, Pays Waits E (call r)) (savedPath : Path) :
    Pays Waits E (nfs3ChdirContinueInternal call savedPath) :=
  Pays.bind_quiet (Triple.store fun _ h => h) fun _ => (hcall _).bind_pure

theorem nfs3OpenContinueInternal_pays (hcall : ∀ r, Pays Waits E (call r)) (fh : Fh) (flags : OpenFlags) :
    Pays Waits E (nfs3OpenContinueInternal call cb fh flags) :=
  Pays.ite (fun _ => (hcall _).bind_pure) fun _ => task_pays hcall trivial

theorem nfs3FtruncateAsync_contract (he : ∀ env, E env → Sends .setattr env) :
    Contract Waits E (nfs3FtruncateAsync call cb) :=
  Contract.may (task_contract he trivial) (Contract.refuse (by decide))

theorem nfs3FsyncAsync_contract (he : ∀ env, E env → Sends .commit env) : Contract Waits E (nfs3FsyncAsync call cb) :=
  Contract.may (task_contract he trivial) (Contract.refuse (by decide))

/-- The continuation of a truncate takes every error for one that is not told yet. -/
theorem nfs3TruncateContinueInternal_pays (hcall : ∀ r, Pays Waits E (call r)) (he : ∀ env, E env → Sends .setattr env) :
    Pays Waits E (nfs3TruncateContinueInternal call cb) :=
  (nfs3FtruncateAsync_contract he).orElse (hcall _).bind_pure

theorem Final.continue_pays {c : Final} (hcall : ∀ r, Pays Waits E (call r))
    (he : ∀ env, E env → ∀ r, c.told = some r → Sends r env) (savedPath : Path) (fh : Fh) (attr : Option Attr) :
    Pays Waits E (c.continue ctx call cb savedPath fh attr) := by
  cases c with
  | opendir => exact nfs3OpendirContinueInternal_pays hcall savedPath fh attr
  | mknod mode => exact nfs3MknodContinueInternal_pays hcall mode
  | truncate length => exact nfs3TruncateContinueInternal_pays hcall fun env h => he env h .setattr rfl
  | chdir => exact nfs3ChdirContinueInternal_pays hcall savedPath
  | «open» flags => exact nfs3OpenContinueInternal_pays hcall fh flags
  | _ => exact task_pays hcall trivial

/-- A create looks up the directory, with a `continue_data` that nothing frees. -/
theorem nfs3InitialOpenCb_pays (he : ∀ env, E env → Careful env) (o : OpenCbData) (r : Result) :
    Pays Waits E (nfs3InitialOpenCb ctx o r) := by
  have hlook := fun dir => @nfs3LookuppathAsync_contract E ctx BaseCb.openCreate.call (BaseCb.openCreate.call_pays)
    (fun p fh attr => (Final.create o).continue ctx BaseCb.openCreate.call (.base .openCreate) p fh attr)
    ⟨false,.base .openCreate,.final (.create o)⟩ false dir he
    (Final.continue_pays (BaseCb.openCreate.call_pays) fun _ _ _ h => by simp [Final.told] at h)
  unfold nfs3InitialOpenCb
  refine Pays.ite (fun _ => Pays.tell _) fun _ => Pays.ite (fun _ => ?_) fun _ => ?_
  · exact Pays.times ((hlook _).orElse (Pays.tell _)) (Pays.tell _)
  · exact Pays.ite (fun _ => Pays.tell _) fun _ => Pays.tell _

theorem Cb.call_pays (he : ∀ env, E env → Careful env) (cb : Cb) (r : Result) : Pays Waits E (cb.call ctx r) := by
  cases cb with
  | base cb => exact cb.call_pays r
  | initialOpen o => exact nfs3InitialOpenCb_pays he o r

theorem secondLookup_pays (he : ∀ env, E env → Careful env) {c : Final} (hc : c.told = none) (newparent : Path) :
    Pays Waits E (secondLookup ctx cb c newparent) :=
  Contract.orElse (nfs3LookuppathAsync_contract (cb.call_pays he) he
    (Final.continue_pays (cb.call_pays he) fun _ _ _ h => by simp [hc] at h)) ((cb.call_pays he _).bind_pure)

theorem Cont.continue_pays {c : Cont} (he : ∀ env, E env → Careful env)
    (ht : ∀ env, E env → ∀ r, c.told = some r → Sends r env) (savedPath : Path) (fh : Fh) (attr : Option Attr) :
    Pays Waits E (c.continue ctx cb savedPath fh attr) := by
  cases c with
  | final c => exact Final.continue_pays (cb.call_pays he) ht savedPath fh attr
  | link1 newparent => exact secondLookup_pays he rfl newparent
  | rename1 newparent => exact secondLookup_pays he rfl newparent

end Continuations

/-- The stage goes on with a submission that a continuation tells and returns. -/
def Stage.told : Stage → Option Rpc
  | .lookupPath1 l _ | .lookupPath2 l _ | .lookupPathGetattr l _ => l.cont.told
  | _ => none

section Handlers

section Lookup

variable {l : Look} (he : ∀ env, E env → Careful env) (ht : ∀ env, E env → ∀ r, l.cont.told = some r → Sends r env)
include he ht

theorem Look.perform_pays {next : Next Attr} (hn : next ≠ .done .refused) : Pays Waits E (l.perform ctx next) :=
  Nfs3.perform_pays (l.cb.call_pays he) (Cont.continue_pays he ht) hn

theorem lookupPath1Cb_pays (d : Data) (reply : Reply) : Pays Waits E (nfs3LookupPath1Cb ctx l d reply) :=
  checked_pays (l.cb.call_pays he) fun _ => Look.perform_pays he ht (lookupPath1Cb_ne_refused _ _ _)

theorem lookupPath2Cb_pays (d : Data) (reply : Reply) : Pays Waits E (nfs3LookupPath2Cb ctx l d reply) := by
  refine checked_pays (l.cb.call_pays he) fun res => ?_
  have hp : Pays Waits E (l.perform ctx (Lookup3.nfs3LookupPath2Cb server ctx.mounted l.flags d (.ok res.target))) :=
    Look.perform_pays he ht (lookupPath2Cb_ne_refused _ _ _ _)
  exact Pays.ite (fun _ => hp) fun _ => Pays.may hp (l.cb.call_pays he _)

theorem lookupPathGetattrCb_pays (d : Data) (reply : Reply) : Pays Waits E (nfs3LookupPathGetattrCb ctx l d reply) :=
  checked_pays (l.cb.call_pays he) fun _ => Look.perform_pays he ht (lookupPathGetattrCb_ne_refused _ _ _ _)

end Lookup

variable (hcall : ∀ r, Pays Waits E (call r))
include hcall

theorem Simple.handle_pays (h : Simple) (reply : Reply) : Pays Waits E (h.handle call reply) :=
  checked_pays hcall fun _ => hcall _

theorem nfs3GetaclCb_pays (reply : Reply) : Pays Waits E (nfs3GetaclCb call reply) :=
  checked_pays hcall fun _ => Pays.times (hcall _) (hcall _)

theorem nfs3OpenTruncCb_pays (flags : OpenFlags) (fh : Fh) (reply : Reply) :
    Pays Waits E (nfs3OpenTruncCb call flags fh reply) :=
  checked_pays hcall fun _ => Pays.may (hcall _) (hcall _)

theorem nfs3OpenCb_pays (flags : OpenFlags) (fh : Fh) (cb : Cb) (reply : Reply) :
    Pays Waits E (nfs3OpenCb call flags fh cb reply) := by
  refine checked_pays hcall fun res => Pays.ite (fun _ => hcall _) fun _ => Pays.ite (fun _ => ?_) fun _ => ?_
  · exact (task_pays hcall (by trivial)).discard
  · exact Pays.may (hcall _) (hcall _)

theorem nfs3Create1Cb_pays (o : OpenCbData) (reply : Reply) : Pays Waits E (nfs3Create1Cb call o reply) :=
  checked_pays hcall fun _ => Pays.times (hcall _) (hcall _)

end Handlers

section Directories

/-- The LOOKUPs of the missing attributes wait, and `k` are answered that are not counted yet. -/
structure Missing (k : ℕ) (w : World Rpc Result Stage Shared) : Prop where
  crashed : w.crashed = false
  calls : w.calls = []
  stages : ∀ stage ∈ w.pending, stage.isOpendir3
  count : w.shared.getattrcount = w.pending.length+k

theorem Missing.settled {w : World Rpc Result Stage Shared} (h : Missing 0 w) (hne : w.pending ≠ []) : w.Settled Waits :=
  ⟨h.crashed,.inr ⟨h.calls,.missing _ h.stages hne h.count⟩⟩

theorem Missing.fresh {w : World Rpc Result Stage Shared} (h : Missing 0 w) (h0 : w.shared.getattrcount = 0) : w.Fresh :=
  ⟨h.crashed,h.calls,List.eq_nil_of_length_eq_zero (by rw [← Nat.add_zero w.pending.length,← h.count,h0])⟩

theorem addEntries_quiet (type : Entry → ℕ) (es : List Entry) (entries : List Dirent) :
    Triple E World.Fresh (addEntries type es entries) fun _ => World.Fresh := by
  induction es generalizing entries with
  | nil => exact Triple.pure fun _ h => h
  | cons e es ih =>
    exact (Triple.times _ _).bind fun _ => Triple.ite (fun _ => ih _) fun _ => Triple.pure fun _ h => h

/-- Every LOOKUP that is sent is counted. -/
theorem lookupMissingAttributes_spec (he : ∀ env, E env → Careful env) (cb : Cb) (entries : List Dirent) (started : Bool) :
    Triple E (fun w => if started then Missing 0 w else w.Fresh) (lookupMissingAttributes cb entries started)
      fun n w => if n = 0 then w.Fresh else w.Settled Waits := by
  induction entries generalizing started with
  | nil =>
    refine Triple.load.bind fun s => Triple.pure fun w h => ?_
    obtain ⟨hs,hw⟩ := h
    cases started with
    | false => exact hw
    | true =>
      have hm : Missing 0 w := hw
      by_cases h0 : s.getattrcount = 0
      · simpa [h0] using hm.fresh (by rw [hs,h0])
      · have hne : w.pending ≠ [] := fun hp => h0 (by rw [← hs,hm.count,hp]; rfl)
        simpa [h0] using hm.settled hne
  | cons nfsdirent entries ih =>
    refine Triple.ite (fun _ => ih started) fun _ => ?_
    refine (Triple.times_sure (fun env h n => (he env h n).1) _).bind fun b => ?_
    cases b with
    | false => exact fun _ _ _ _ hw => absurd hw.1 (by simp)
    | true =>
      refine (Triple.store (Q := Missing 0) fun w hw => ?_).bind fun _ => ?_
      · cases started with
        | true => exact hw.2
        | false =>
          have hf : w.Fresh := hw.2
          exact ⟨hf.1,hf.2.1,by simp [hf.2.2],by simp [hf.2.2]⟩
      · refine (Triple.submit (Q := fun w =>
            Missing 0 { w with shared := { w.shared with getattrcount := w.shared.getattrcount+1 } }) fun w hw => ?_).bind
          fun sent => Triple.branch ?_ (ih true)
        · exact ⟨hw.crashed,hw.calls,by simpa [Stage.isOpendir3] using hw.stages,by simp [hw.count]⟩
        · refine (Triple.store (Q := Missing 0) fun w hw => ?_).bind fun _ => ih true
          exact hw

variable (hcall : ∀ r, Pays Waits E (call r))
include hcall

theorem dirDone_pays (he : ∀ env, E env → Careful env) (cb : Cb) (entries : List Dirent) :
    Pays Waits E (dirDone call cb entries) := by
  refine Triple.bind (Triple.pre (fun w hw => by simpa using hw) (lookupMissingAttributes_spec he cb entries false)) fun n => ?_
  exact Triple.ite (fun h0 => Triple.pre (fun w hw => by simpa [h0] using hw) (hcall _))
    fun h0 => Triple.pure fun w hw => by simpa [h0] using hw

theorem nfs3Opendir2Cb_pays (he : ∀ env, E env → Careful env) (cb : Cb) (entries : List Dirent) (reply : Reply) :
    Pays Waits E (nfs3Opendir2Cb call cb entries reply) := by
  refine checked_pays hcall fun res => Pays.bind_quiet (addEntries_quiet _ _ _) fun added => ?_
  cases added with
  | none => exact hcall _
  | some entries => exact Pays.ite (fun _ => (task_pays hcall (by trivial)).discard) fun _ => dirDone_pays hcall he cb entries

theorem nfs3OpendirCb_pays (he : ∀ env, E env → Careful env) (cb : Cb) (savedPath : Path) (entries : List Dirent)
    (reply : Reply) : Pays Waits E (nfs3OpendirCb ctx call cb savedPath entries reply) := by
  unfold nfs3OpendirCb
  split
  · exact (task_pays hcall (by trivial)).discard
  · refine checked_pays hcall fun res => Pays.bind_quiet (addEntries_quiet _ _ _) fun added => ?_
    cases added with
    | none => exact hcall _
    | some entries =>
      exact Pays.ite (fun _ => (task_pays hcall (by trivial)).discard) fun _ => dirDone_pays hcall he cb entries

/-- The last LOOKUP that is answered tells the callback. -/
theorem nfs3Opendir3Cb_pays (reply : Reply) :
    Triple E (Missing 1) (nfs3Opendir3Cb call reply) fun _ => World.Settled Waits := by
  refine (Triple.store (Q := Missing 0) fun w hw => ⟨hw.crashed,hw.calls,hw.stages,by simp [hw.count]⟩).bind fun _ => ?_
  refine Triple.load.bind fun s => Triple.ite (fun h0 => ?_) fun h0 => ?_
  · exact Triple.ite (fun _ => Triple.pre (fun w hw => hw.2.fresh (by rw [hw.1,h0])) (hcall _))
      fun _ => Triple.pre (fun w hw => hw.2.fresh (by rw [hw.1,h0])) (hcall _)
  · refine Triple.pure fun w hw => hw.2.settled fun hp => h0 ?_
    rw [← hw.1,hw.2.count,hp]
    rfl

end Directories

section Writes

/-- The WRITEs of one operation wait, and `k` are answered that are not counted yet. -/
structure Writes (k : ℕ) (w : World Rpc Result Stage Shared) : Prop where
  crashed : w.crashed = false
  calls : w.calls = []
  stages : ∀ stage ∈ w.pending, stage.isPwriteMcb
  count : w.shared.numCalls = w.pending.length+k

theorem Writes.settled {w : World Rpc Result Stage Shared} (h : Writes 0 w) (hne : w.shared.numCalls ≠ 0) :
    w.Settled Waits :=
  ⟨h.crashed,.inr ⟨h.calls,.writes _ h.stages (fun hp => hne (by rw [h.count,hp]; rfl)) h.count⟩⟩

theorem Writes.fresh {w : World Rpc Result Stage Shared} (h : Writes 0 w) (h0 : w.shared.numCalls = 0) : w.Fresh :=
  ⟨h.crashed,h.calls,List.eq_nil_of_length_eq_zero (by rw [← Nat.add_zero w.pending.length,← h.count,h0])⟩

theorem writeLoop_stop_contract : Triple E (Writes 0) writeLoop.stop
    fun r w => r = 0 ∧ w.Settled Waits ∨ r < 0 ∧ w.Fresh := by
  refine Triple.load.bind fun s => Triple.ite (fun h0 => ?_) fun h0 => ?_
  · exact Triple.pure fun w hw => .inr ⟨by decide,hw.2.fresh (by rw [hw.1,h0])⟩
  · refine (Triple.store (Q := World.Settled Waits) fun w hw => ?_).bind fun _ => Triple.pure fun _ hw => .inl ⟨rfl,hw⟩
    exact Writes.settled ⟨hw.2.crashed,hw.2.calls,hw.2.stages,hw.2.count⟩ (by rw [← hw.1] at h0; exact h0)

/-- A WRITE is sent and counted. -/
theorem Writes.sent {w : World Rpc Result Stage Shared} {offset count : ℕ} {cb : Cb} (h : Writes 0 w) :
    Writes 0 { w with sent := .write :: w.sent, pending := .pwriteMcb offset count cb :: w.pending,
                      shared := { w.shared with numCalls := w.shared.numCalls+1 } } :=
  ⟨h.crashed,h.calls,by simpa [Stage.isPwriteMcb] using h.stages,by simp [h.count]⟩

/-- The loop sends one WRITE at least, or it refuses. -/
theorem writeLoop_contract (cb : Cb) (fuel count offset : ℕ) :
    Triple E (fun w => Writes 0 w ∧ (fuel = 0 → w.shared.numCalls ≠ 0)) (writeLoop ctx cb fuel count offset)
      fun r w => r = 0 ∧ w.Settled Waits ∨ r < 0 ∧ w.Fresh := by
  induction fuel generalizing count offset with
  | zero => exact Triple.pure fun w hw => .inl ⟨rfl,hw.1.settled (hw.2 rfl)⟩
  | succ fuel ih =>
    refine Triple.pre (fun w hw => hw.1) ((Triple.may _).bind fun b => Triple.ite (fun _ => ?_) fun _ => writeLoop_stop_contract)
    refine (Triple.submit (Q := fun w => Writes 0 { w with shared := { w.shared with numCalls := w.shared.numCalls+1 } })
      fun w hw => hw.sent).bind fun b => Triple.branch ?_ writeLoop_stop_contract
    refine (Triple.store (Q := fun w => Writes 0 w ∧ w.shared.numCalls ≠ 0) fun w hw => ?_).bind fun _ => ?_
    · exact ⟨hw,Nat.succ_ne_zero _⟩
    · refine Triple.ite (fun _ => ?_) fun _ => Triple.pure fun w hw => .inl ⟨rfl,hw.1.settled hw.2⟩
      exact Triple.pre (fun w hw => ⟨hw.1,fun _ => hw.2⟩) (ih _ _)

theorem nfs3PwriteAsyncInternal_contract (cb : Cb) (count offset : ℕ) :
    Contract Waits E (nfs3PwriteAsyncInternal ctx cb count offset) := by
  refine Contract.may ?_ (Contract.refuse (by decide))
  refine (Triple.store (Q := Writes 0) fun w hw => ?_).bind fun _ => ?_
  · exact ⟨hw.1,hw.2.1,by simp [hw.2.2],by simp [hw.2.2]⟩
  · exact Triple.pre (fun w hw => ⟨hw,fun h => absurd h (Nat.succ_ne_zero _)⟩) (writeLoop_contract cb _ _ _)

variable (hcall : ∀ r, Pays Waits E (call r))
include hcall

theorem nfs3WriteAppendCb_pays (count : ℕ) (cb : Cb) (reply : Reply) :
    Pays Waits E (nfs3WriteAppendCb ctx call count cb reply) :=
  checked_pays hcall fun _ => (nfs3PwriteAsyncInternal_contract cb _ _).orElse (hcall _)

/-- The last WRITE tells the callback. -/
theorem pwriteDone_settled : Triple E (Writes 0) (pwriteDone call) fun _ => World.Settled Waits := by
  refine Triple.load.bind fun s => Triple.ite (fun hpos => ?_) fun hpos => ?_
  · exact Triple.pure fun w hw => hw.2.settled (by rw [hw.1]; omega)
  · have hlast : ∀ r, Triple E (fun w => w.shared = s ∧ Writes 0 w) (call r) fun _ => World.Settled Waits :=
      fun r => Triple.pre (fun w hw => hw.2.fresh (by rw [hw.1]; omega)) (hcall r)
    exact Triple.ite (fun _ => hlast _) fun _ => Triple.ite (fun _ => hlast _) fun _ =>
      Triple.ite (fun _ => hlast _) fun _ => hlast _

theorem Writes.record_done {f : Shared → Shared} (hf : ∀ s, (f s).numCalls = s.numCalls) :
    Triple E (Writes 0) (do
      Act.store f
      pwriteDone call) fun _ => World.Settled Waits := by
  refine (Triple.store (Q := Writes 0) fun w hw => ?_).bind fun _ => pwriteDone_settled hcall
  exact ⟨hw.crashed,hw.calls,hw.stages,by rw [hf]; exact hw.count⟩

theorem nfs3PwriteMcb_pays (offset count : ℕ) (cb : Cb) (reply : Reply) :
    Triple E (Writes 1) (nfs3PwriteMcb call offset count cb reply) fun _ => World.Settled Waits := by
  refine (Triple.store (Q := Writes 0) fun w hw => ⟨hw.crashed,hw.calls,hw.stages,by simp [hw.count]⟩).bind fun _ => ?_
  cases reply with
  | error | cancel | timeout => exact Writes.record_done hcall fun _ => rfl
  | success res =>
    cases res with
    | error status => exact Writes.record_done hcall fun _ => rfl
    | ok res =>
      refine Triple.ite (fun _ => Triple.ite (fun _ => ?_) fun _ => ?_) fun _ => ?_
      · exact Writes.record_done hcall fun _ => rfl
      · refine (Triple.submit (Q := fun w => Writes 0 { w with shared := { w.shared with numCalls := w.shared.numCalls+1 } })
          fun w hw => hw.sent).bind fun b => Triple.branch ?_ (Writes.record_done hcall fun _ => rfl)
        exact Triple.store fun w hw => Writes.settled hw (Nat.succ_ne_zero _)
      · exact Writes.record_done hcall fun _ => rfl

end Writes

section Runs

/-- The environment of an answer: careful, and it sends the SETATTR of a truncate -/
def Stage.Safe (stage : Stage) (e : Event (Ctx × Reply) Site) : Prop :=
  Careful e.env ∧ ∀ r, stage.told = some r → Sends r e.env

/-- What a stage starts from: nothing else waits, or the other requests of the same operation do. -/
def Stage.Resumed (stage : Stage) (w : World Rpc Result Stage Shared) : Prop :=
  match stage with
  | .opendir3 _ => Missing 1 w
  | .pwriteMcb _ _ _ => Writes 1 w
  | _ => w.Fresh

theorem Stage.resumed_single {stage : Stage} {w : World Rpc Result Stage Shared} (hs : stage.Single) (hw : w.Fresh) :
    stage.Resumed w := by
  cases stage with
  | opendir3 | pwriteMcb => exact hs.elim
  | _ => exact hw

theorem Stage.resumed_of_waits {w : World Rpc Result Stage Shared} {i : ℕ} {stage : Stage} (hc : w.crashed = false)
    (h0 : w.calls = []) (hw : Waits w.shared w.pending) (hi : w.pending[i]? = some stage) :
    stage.Resumed { w with pending := w.pending.eraseIdx i } := by
  have hlt : i < w.pending.length := (List.getElem?_eq_some_iff.mp hi).1
  have hmem : stage ∈ w.pending := List.mem_of_getElem? hi
  have hlen : w.pending.length = (w.pending.eraseIdx i).length+1 := by rw [List.length_eraseIdx_of_lt hlt]; omega
  generalize hp : w.pending = l at *
  cases hw with
  | single s hs =>
    obtain rfl : stage = s := by simpa using hmem
    obtain rfl : i = 0 := by simpa using hlt
    exact Stage.resumed_single hs ⟨hc,h0,rfl⟩
  | missing _ h _ hcount =>
    have hstage := h stage hmem
    cases stage with
    | opendir3 => exact ⟨hc,h0,fun s hs => h s (List.mem_of_mem_eraseIdx hs),hcount.trans hlen⟩
    | _ => exact hstage.elim
  | writes _ h _ hcount =>
    have hstage := h stage hmem
    cases stage with
    | pwriteMcb => exact ⟨hc,h0,fun s hs => h s (List.mem_of_mem_eraseIdx hs),hcount.trans hlen⟩
    | _ => exact hstage.elim

/-- Every handler pays. -/
theorem Stage.handle_settled (stage : Stage) (input : Ctx × Reply) (he : ∀ env, E env → Careful env)
    (ht : ∀ env, E env → ∀ r, stage.told = some r → Sends r env) :
    Triple E stage.Resumed (stage.handle input) fun _ => World.Settled Waits := by
  obtain ⟨ctx,reply⟩ := input
  cases stage with
  | lookupPath1 l d => exact lookupPath1Cb_pays he ht d reply
  | lookupPath2 l d => exact lookupPath2Cb_pays he ht d reply
  | lookupPathGetattr l d => exact lookupPathGetattrCb_pays he ht d reply
  | simple h cb => exact Simple.handle_pays (cb.call_pays he) h reply
  | getacl cb => exact nfs3GetaclCb_pays (cb.call_pays he) reply
  | opendir cb savedPath entries => exact nfs3OpendirCb_pays (cb.call_pays he) he cb savedPath entries reply
  | opendir2 cb entries => exact nfs3Opendir2Cb_pays (cb.call_pays he) he cb entries reply
  | opendir3 cb => exact nfs3Opendir3Cb_pays (cb.call_pays he) reply
  | writeAppend count cb => exact nfs3WriteAppendCb_pays (cb.call_pays he) count cb reply
  | pwriteMcb offset count cb => exact nfs3PwriteMcb_pays (cb.call_pays he) offset count cb reply
  | «open» flags fh cb => exact nfs3OpenCb_pays (cb.call_pays he) flags fh cb reply
  | openTrunc flags fh cb => exact nfs3OpenTruncCb_pays (cb.call_pays he) flags fh reply
  | create o cb => exact nfs3Create1Cb_pays (cb.call_pays he) o reply

/-- Every answer keeps what holds at the end of the call. -/
theorem answer_settled {w : World Rpc Result Stage Shared} {stage : Stage} {e : Event (Ctx × Reply) Site}
    (hw : w.Settled Waits) (hi : w.pending[e.index]? = some stage) (hsafe : stage.Safe e) :
    (stage.handle e.reply e.env 0 { w with pending := w.pending.eraseIdx e.index }).2.2.Settled Waits := by
  obtain ⟨hc,⟨-,hp⟩ | ⟨h0,hwaits⟩⟩ := hw
  · simp [hp] at hi
  · exact Stage.handle_settled (E := fun env => env = e.env) stage e.reply (fun env h => h ▸ hsafe.1)
      (fun env h => h ▸ hsafe.2) e.env rfl 0 _ (Stage.resumed_of_waits hc h0 hwaits hi)

/-- The answers to the requests of a world are safe. -/
def Answered (w : World Rpc Result Stage Shared) (es : List (Event (Ctx × Reply) Site)) : Prop :=
  Transition.Guarded (answer Stage.handle) (fun w e => ∀ stage, w.pending[e.index]? = some stage → stage.Safe e) w es

theorem after_settled {w : World Rpc Result Stage Shared} {es : List (Event (Ctx × Reply) Site)} (hw : w.Settled Waits)
    (hg : Answered w es) : (after w es).Settled Waits :=
  answered_induction hg hw fun _ _ _ hw _ hi hsafe => answer_settled hw hi hsafe

theorem after_fresh {w : World Rpc Result Stage Shared} {es : List (Event (Ctx × Reply) Site)} (hw : w.Fresh)
    (hg : Answered w es) : (after w es).Fresh := by
  refine answered_induction hg hw fun w stage e hw _ hi _ => ?_
  simp [hw.2.2] at hi

end Runs

section Calls

/-- The submission that an operation tells as failed and that it returns as failed too -/
def Op.told : Op → Option Rpc
  | .fchmod | .fchown | .ftruncate => some .setattr
  | .truncate _ _ => some .setattr
  | .fstat | .fstat64 => some .getattr
  | .fsync => some .commit
  | .close nfsfh => if nfsfh.isDirty then some .commit else none
  | .getacl => some .getacl
  | _ => none

/-- The environment of a call: careful, and that submission does not fail. -/
def Op.Safe (op : Op) (env : Env Site) : Prop := Careful env ∧ ∀ r, op.told = some r → Sends r env

theorem lookupFor_contract {n : ℕ} {noFollow : Bool} {cont : Cont} {path : Path} (he : ∀ env, E env → Careful env)
    (ht : ∀ env, E env → ∀ r, cont.told = some r → Sends r env) :
    Contract Waits E (lookupFor ctx n noFollow cont path) :=
  Contract.times (nfs3LookuppathAsync_contract (user.call_pays he) he (Cont.continue_pays he ht)) (Contract.refuse (by decide))

theorem handleTask_contract {n : ℕ} {r : Rpc} {stage : Stage} (hs : stage.Single) (ht : ∀ env, E env → Sends r env) :
    Contract Waits E (handleTask ctx n r stage) :=
  Contract.times (task_contract ht hs) (Contract.refuse (by decide))

theorem handleSend_contract {r : Rpc} {stage : Stage} (hs : stage.Single) : Contract Waits E (handleSend r stage) :=
  Contract.may (Contract.submit (fun _ => .single _ hs) (Contract.refuse (by decide))) (Contract.refuse (by decide))

theorem nfs3CloseAsync_contract {nfsfh : Nfsfh} (ht : ∀ env, E env → ∀ r, (Op.close nfsfh).told = some r → Sends r env) :
    Contract Waits E (nfs3CloseAsync ctx nfsfh) := by
  refine Contract.ite (fun _ => Contract.paid (BaseCb.call_pays .user _)) fun hd => ?_
  refine Contract.may (nfs3FsyncAsync_contract fun env h => ht env h .commit ?_) (Contract.refuse (by decide))
  simp only [Op.told]
  rw [if_pos (by simpa using hd)]

theorem nfs3LseekAsync_contract (nfsfh : Nfsfh) (offset : ℤ) (whence : ℕ) :
    Contract Waits E (nfs3LseekAsync ctx nfsfh offset whence) :=
  Contract.ite (fun _ => Contract.paid (BaseCb.call_pays .user _)) fun _ =>
    Contract.ite (fun _ => Contract.paid (BaseCb.call_pays .user _)) fun _ => handleSend_contract trivial

theorem nfs3OpenAsync_contract (path : Path) (flags : OpenFlags) (mode : ℕ) (he : ∀ env, E env → Careful env) :
    Contract Waits E (nfs3OpenAsync ctx path flags mode) := by
  have hlook : Contract Waits E (nfs3LookuppathAsync ctx ((Cb.initialOpen ⟨path,flags,mode⟩).call ctx)
      (fun p fh attr => (Cont.final (.open flags)).continue ctx (.initialOpen ⟨path,flags,mode⟩) p fh attr)
      ⟨false,.initialOpen ⟨path,flags,mode⟩,.final (.open flags)⟩ true path) :=
    nfs3LookuppathAsync_contract (Cb.call_pays he _) he
      (Cont.continue_pays he fun _ _ _ h => by simp [Cont.told,Final.told] at h)
  refine Contract.times (Triple.bind hlook fun r => Triple.ite (fun hr => ?_) fun hr => ?_) (Contract.refuse (by decide))
  · refine Triple.pure fun w hw => .inr ⟨by decide,?_⟩
    exact hw.elim (fun h => absurd h.1 hr) fun h => h.2
  · refine Triple.pure fun w hw => .inl ⟨rfl,?_⟩
    exact hw.elim (fun h => h.2) fun h => by omega

theorem nfs3WriteAsync_contract (nfsfh : Nfsfh) (count : ℕ) : Contract Waits E (nfs3WriteAsync ctx nfsfh count) :=
  Contract.ite (fun _ => handleSend_contract trivial) fun _ => nfs3PwriteAsyncInternal_contract user _ _

/-- Every call keeps the contract where the submission that it reports twice does not fail. -/
theorem Op.call_contract (op : Op) (he : ∀ env, E env → op.Safe env) : Contract Waits E (op.call ctx) := by
  have hc : ∀ env, E env → Careful env := fun env h => (he env h).1
  have ht : ∀ env, E env → ∀ r, op.told = some r → Sends r env := fun env h => (he env h).2
  have hnone : ∀ {c : Option Rpc}, c = none → ∀ env, E env → ∀ r, c = some r → Sends r env := by
    rintro c rfl env - r h
    exact absurd h (by simp)
  cases op with
  | fchmod | fchown => exact handleTask_contract trivial fun env h => ht env h _ rfl
  | fstat | fstat64 | getacl => exact handleTask_contract trivial fun env h => ht env h _ rfl
  | fsync => exact nfs3FsyncAsync_contract fun env h => ht env h _ rfl
  | ftruncate => exact nfs3FtruncateAsync_contract fun env h => ht env h _ rfl
  | close nfsfh => exact nfs3CloseAsync_contract ht
  | truncate path length => exact lookupFor_contract hc ht
  | lseek nfsfh offset whence => exact nfs3LseekAsync_contract nfsfh offset whence
  | pread | preadv => exact handleSend_contract trivial
  | pwrite count offset => exact nfs3PwriteAsyncInternal_contract user count offset
  | write nfsfh count => exact nfs3WriteAsync_contract nfsfh count
  | «open» path flags mode => exact nfs3OpenAsync_contract path flags mode hc
  | creat path mode => exact nfs3OpenAsync_contract path creatFlags mode hc
  | _ => exact lookupFor_contract hc (hnone rfl)

/-- Nothing is waited for any more and the callback is told once, or it is not told yet; a call that returned a negative
value does not tell it. -/
def Kept (op : Op) (ctx : Ctx) (env : Env Site) (es : List (Event (Ctx × Reply) Site)) : Prop :=
  (after (outcome op ctx env).2 es).crashed = false ∧
    ((outcome op ctx env).1 = 0 ∧
        ((after (outcome op ctx env).2 es).calls.length = 1 ∧ (after (outcome op ctx env).2 es).pending = [] ∨
          (after (outcome op ctx env).2 es).calls = [] ∧ (after (outcome op ctx env).2 es).pending ≠ []) ∨
      (outcome op ctx env).1 < 0 ∧ (after (outcome op ctx env).2 es).calls = [])

/-- A context with an empty `cwd` and without nested mounts -/
def plain : Ctx := ⟨[],⟨[],[],[]⟩,4096,fun _ => none,fun _ _ => none⟩

def willing : Env Site := fun _ _ => true

/-- The submission of `r` fails. -/
def without (r : Rpc) : Env Site := fun _ s => s ≠ .task r

/-- The attributes of a regular file -/
def regular : Reply := .success (.ok ⟨[1],⟨1,0,(0,0)⟩,[],0,0,true,[],0,0⟩)

end Calls

end Nfs3
end Libnfs
