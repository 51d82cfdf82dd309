import Libnfs.Transition

/-! Open and lock state of NFSv4 handles (`lib/nfs_v4.c`): the seqids and stateids that a context sends, with
any number of handles and of requests under way, and a server that answers as it likes. -/
namespace Libnfs
namespace OpenState

open Transition Function

/-- `struct stateid`, with the 12 bytes of `other` as a number -/
structure Stateid where
  seqid : ℕ
  other : ℕ
  deriving DecidableEq, Repr

/-- What `struct nfsfh` has for opens and locks -/
structure Nfsfh where
  stateid : Stateid
  openSeqid : ℕ
  lockSeqid : ℕ
  lockStateid : Stateid
  deriving DecidableEq, Repr

/-- The context, and the handles that the application has, each under its open owner -/
structure Nfs where
  clientid : ℕ
  clientName : String
  hasLockOwner : Bool
  openCounter : ℕ
  fhs : ℕ → Option Nfsfh

inductive LockType
  | readLt
  | writeLt
  | readwLt
  | writewLt
  deriving DecidableEq, Repr

/-- `locker4` -/
inductive Locker
  | openOwner (openSeqid : ℕ) (openStateid : Stateid) (lockSeqid clientid : ℕ) (owner : String)
  | lockOwner (lockStateid : Stateid) (lockSeqid : ℕ)
  deriving DecidableEq, Repr

/-- The operation of a request behind its PUTFH -/
inductive Argop
  | openConfirm (openStateid : Stateid) (seqid : ℕ)
  | lock (locktype : LockType) (reclaim : Bool) (offset length : ℕ) (locker : Locker)
  | locku (locktype : LockType) (seqid : ℕ) (lockStateid : Stateid) (offset length : ℕ)
  | lockt (locktype : LockType) (offset length clientid : ℕ) (owner : String)
  | close (seqid : ℕ) (openStateid : Stateid)
  | nothing
  deriving DecidableEq, Repr

/-- `enum nfs4_lock_op` -/
inductive LockOp
  | lock
  | tlock
  | ulock
  | test
  deriving DecidableEq, Repr

/-- `fl->l_type` -/
inductive FlockType
  | rdlck
  | wrlck
  | unlck
  | other
  deriving DecidableEq, Repr

/-- The reply handler of a request, with what it needs. A handle is with the request while it is not the
application's. -/
inductive Handler
  | openConfirm (fh : Nfsfh)
  | lockf (cmd : LockOp)
  | fcntl (ltype : FlockType)
  | close (fh : Nfsfh)
  deriving DecidableEq, Repr

structure Request where
  fh : ℕ
  handler : Handler
  op : Argop
  deriving DecidableEq, Repr

namespace Nfs

def setFh (h : ℕ) (fh : Option Nfsfh) (nfs : Nfs) : Nfs := { nfs with fhs := update nfs.fhs h fh }

/-- `nfs4_op_open_confirm` -/
def nfs4OpOpenConfirm (fh : Nfsfh) : Argop := .openConfirm fh.stateid fh.openSeqid

/-- `nfs4_op_close` -/
def nfs4OpClose (fh : Nfsfh) : Argop := .close fh.openSeqid fh.stateid

def nextLockSeqid (fh : Nfsfh) : Nfsfh := { fh with lockSeqid := (fh.lockSeqid+1)%2^32 }

/-- `nfs4_op_lock` -/
def nfs4OpLock (nfs : Nfs) (fh : Nfsfh) (locktype : LockType) (reclaim : Bool) (offset length : ℕ) :
    Argop × Nfsfh :=
  (.lock locktype reclaim offset length
    (if nfs.hasLockOwner then .lockOwner fh.lockStateid fh.lockSeqid
    else .openOwner fh.openSeqid fh.stateid fh.lockSeqid nfs.clientid nfs.clientName),nextLockSeqid fh)

/-- `nfs4_op_locku` -/
def nfs4OpLocku (fh : Nfsfh) (locktype : LockType) (offset length : ℕ) : Argop × Nfsfh :=
  (.locku locktype fh.lockSeqid fh.lockStateid offset length,nextLockSeqid fh)

/-- `nfs4_op_lockt` -/
def nfs4OpLockt (nfs : Nfs) (locktype : LockType) (offset length : ℕ) : Argop :=
  .lockt locktype offset length nfs.clientid nfs.clientName

/-- The operation of `nfs4_lockf_async`; `offset` is that of the handle. -/
def lockfOp (nfs : Nfs) (fh : Nfsfh) (offset count : ℕ) : LockOp → Argop × Nfsfh
  | .lock => nfs.nfs4OpLock fh .writewLt false offset count
  | .tlock => nfs.nfs4OpLock fh .writeLt false offset count
  | .ulock => nfs4OpLocku fh .writeLt offset count
  | .test => (nfs.nfs4OpLockt .writewLt offset count,fh)

/-- The operation of `nfs4_fcntl_async_internal`; `wait` is `NFS4_F_SETLKW`. -/
def fcntlOp (nfs : Nfs) (fh : Nfsfh) (wait : Bool) (start len : ℕ) : FlockType → Argop × Nfsfh
  | .rdlck => nfs.nfs4OpLock fh (if wait then .readwLt else .readLt) false start len
  | .wrlck => nfs.nfs4OpLock fh (if wait then .writewLt else .writeLt) false start len
  | .unlck => nfs4OpLocku fh .writeLt start len
  | .other => (.nothing,fh)

/-- `nfs_increment_seqid` -/
def nfsIncrementSeqid (status : ℕ) (fh : Nfsfh) : Nfsfh :=
  if status ∈ [10022,10023,10025,10026,10036,10018,10020] then fh else { fh with openSeqid := fh.openSeqid+1 }

end Nfs

/-- What the server answers, and whether it has consumed the seqid in spite of an error -/
inductive Outcome
  | ok (st : Stateid)
  | error (status : ℕ) (consumed : Bool)
  deriving DecidableEq, Repr

def Outcome.consumed : Outcome → Bool
  | .ok _ => true
  | .error _ c => c

namespace Nfs

/-- `nfs4_open_confirm_cb` -/
def nfs4OpenConfirmCb (h : ℕ) (fh : Nfsfh) : Option Outcome → Nfs → Nfs
  | some (.ok st), nfs => nfs.setFh h (some { nfsIncrementSeqid 0 fh with stateid := st })
  | _, nfs => nfs

/-- What a LOCK reply does in `nfs4_lockf_cb` and `nfs4_fcntl_cb` -/
def locked (h : ℕ) (st : Stateid) (nfs : Nfs) : Nfs :=
  ({ nfs with hasLockOwner := true } : Nfs).setFh h ((nfs.fhs h).map fun fh => { fh with lockStateid := st })

/-- `nfs4_lockf_cb` -/
def nfs4LockfCb (h : ℕ) (cmd : LockOp) : Option Outcome → Nfs → Nfs
  | some (.ok st), nfs =>
    match cmd with
    | .lock | .tlock => nfs.locked h st
    | .ulock => nfs.setFh h ((nfs.fhs h).map fun fh => { fh with lockStateid := st })
    | .test => nfs
  | _, nfs => nfs

/-- `nfs4_fcntl_cb` -/
def nfs4FcntlCb (h : ℕ) (ltype : FlockType) : Option Outcome → Nfs → Nfs
  | some (.ok st), nfs =>
    match ltype with
    | .rdlck | .wrlck => nfs.locked h st
    | .unlck => nfs
    | .other => nfs
  | _, nfs => nfs

/-- The reply to a request, or `none` when its RPC has failed. The handle of a CLOSE is freed in any case. -/
def reply (r : Request) (o : Option Outcome) (nfs : Nfs) : Nfs :=
  match r.handler with
  | .openConfirm fh => nfs.nfs4OpenConfirmCb r.fh fh o
  | .lockf cmd => nfs.nfs4LockfCb r.fh cmd o
  | .fcntl ltype => nfs.nfs4FcntlCb r.fh ltype o
  | .close _ => nfs

end Nfs

/-- `openReply` is the reply to an OPEN, which has a fresh open owner and the seqid 0. `serve` and `reply` are
of the request with this number, and `fail` is the end of its RPC without a reply. -/
inductive Event
  | openReply (st : Stateid) (confirm : Bool)
  | lockf (h : ℕ) (cmd : LockOp) (offset count : ℕ)
  | fcntl (h : ℕ) (wait : Bool) (ltype : FlockType) (start len : ℕ)
  | close (h : ℕ)
  | serve (x : ℕ) (o : Outcome)
  | reply (x : ℕ)
  | fail (x : ℕ)
  deriving DecidableEq, Repr

/-- A LOCK or LOCKU that succeeded: whether it was an unlock by `nfs_fcntl`, and the stateid it returned -/
structure Success where
  fcntlUnlock : Bool
  stateid : Stateid
  deriving DecidableEq, Repr

/-- The context, the requests under way, and the past: the last seqid the server consumed for each open owner,
the handles a LOCK was sent on, those the server consumed a LOCK with a new lock owner on, and the most recent
success of each. -/
structure World where
  nfs : Nfs
  flight : ℕ → Option (Request × Option Outcome)
  calls : ℕ
  consumed : ℕ → ℕ
  lockSent : ℕ → Bool
  lockConsumed : ℕ → Bool
  last : ℕ → Option Success

/-- The request that a step sends, and the context after it. A call on a handle that the application does not
have does nothing. -/
def send (nfs : Nfs) : Event → Option Request × Nfs
  | .openReply st confirm =>
    let h := nfs.openCounter
    let fh : Nfsfh := ⟨st,1,0,⟨0,0⟩⟩
    let nfs := { nfs with openCounter := h+1 }
    if confirm then (some ⟨h,.openConfirm fh,Nfs.nfs4OpOpenConfirm fh⟩,nfs) else (none,nfs.setFh h (some fh))
  | .lockf h cmd offset count =>
    match nfs.fhs h with
    | none => (none,nfs)
    | some fh =>
      let o := nfs.lockfOp fh offset count cmd
      (some ⟨h,.lockf cmd,o.1⟩,nfs.setFh h (some o.2))
  | .fcntl h wait ltype start len =>
    match nfs.fhs h with
    | none => (none,nfs)
    | some fh =>
      let o := nfs.fcntlOp fh wait start len ltype
      (some ⟨h,.fcntl ltype,o.1⟩,nfs.setFh h (some o.2))
  | .close h =>
    match nfs.fhs h with
    | none => (none,nfs)
    | some fh => (some ⟨h,.close fh,Nfs.nfs4OpClose fh⟩,nfs.setFh h none)
  | _ => (none,nfs)

/-- The open seqid in a request -/
def Argop.openSeqid : Argop → Option ℕ
  | .openConfirm _ seqid => some seqid
  | .lock _ _ _ _ (.openOwner seqid _ _ _ _) => some seqid
  | .close seqid _ => some seqid
  | _ => none

def Argop.isLock : Argop → Bool
  | .lock .. => true
  | _ => false

/-- What a request is for -/
inductive Kind
  | confirm (fh : Nfsfh)
  | lock
  | unlock (byFcntl : Bool)
  | other

def Handler.kind : Handler → Kind
  | .openConfirm fh => .confirm fh
  | .lockf .lock | .lockf .tlock | .fcntl .rdlck | .fcntl .wrlck => .lock
  | .lockf .ulock => .unlock false
  | .fcntl .unlck => .unlock true
  | .lockf .test | .fcntl .other | .close _ => .other

/-- The success that a reply reports -/
def Request.success (r : Request) : Option Outcome → Option Success
  | some (.ok st) =>
    match r.handler.kind with
    | .lock => some ⟨false,st⟩
    | .unlock byFcntl => some ⟨byFcntl,st⟩
    | _ => none
  | _ => none

namespace World

/-- The server deals with a request. -/
def serve (x : ℕ) (r : Request) (o : Outcome) (w : World) : World :=
  let w := { w with flight := update w.flight x (some (r,some o)) }
  match r.op.openSeqid with
  | none => w
  | some seqid =>
    if o.consumed then
      { w with
        consumed := update w.consumed r.fh seqid
        lockConsumed := if r.op.isLock then update w.lockConsumed r.fh true else w.lockConsumed }
    else w

/-- A request is over, with a reply or without. -/
def finish (x : ℕ) (r : Request) (o : Option Outcome) (w : World) : World :=
  { w with
    nfs := w.nfs.reply r o
    flight := update w.flight x none
    last := if (r.success o).isSome then update w.last r.fh (r.success o) else w.last }

/-- A request is sent. -/
def issue (r : Request) (w : World) : World :=
  { w with
    flight := update w.flight w.calls (some (r,none))
    calls := w.calls+1
    lockSent := if r.op.isLock then update w.lockSent r.fh true else w.lockSent }

/-- A step of the context, with the request it sends -/
def advance (o : Option Request × Nfs) (w : World) : World :=
  match o.1 with
  | none => { w with nfs := o.2 }
  | some r => ({ w with nfs := o.2 } : World).issue r

end World

def step (w : World) : Event → World
  | .serve x o =>
    match w.flight x with
    | some (r,none) => w.serve x r o
    | _ => w
  | .reply x =>
    match w.flight x with
    | some (r,some o) => w.finish x r (some o)
    | _ => w
  | .fail x =>
    match w.flight x with
    | some (r,_) => w.finish x r none
    | none => w
  | e => w.advance (send w.nfs e)

/-- A new context that is mounted -/
def init (clientid : ℕ) (clientName : String) : World where
  nfs := ⟨clientid,clientName,false,0,fun _ => none⟩
  flight := fun _ => none
  calls := 0
  consumed := fun _ => 0
  lockSent := fun _ => false
  lockConsumed := fun _ => false
  last := fun _ => none

/-- A request with the seqid and the stateid it has to have, when the past is that of `w` -/
def Right (w : World) (r : Request) : Prop :=
  match r.op with
  | .openConfirm _ seqid => seqid = w.consumed r.fh+1
  | .lock _ _ _ _ (.openOwner seqid _ _ _ _) => w.lockSent r.fh = false ∧ seqid = w.consumed r.fh+1
  | .lock _ _ _ _ (.lockOwner st _) => w.lockSent r.fh = true ∧ (w.last r.fh).map Success.stateid = some st
  | .locku _ _ st _ _ => (w.last r.fh).map Success.stateid = some st
  | .close seqid _ => seqid = w.consumed r.fh+1
  | .lockt .. => True
  | .nothing => True

/-- Every request of the run is right when it is sent. -/
def AllRight : World → List Event → Prop
  | _, [] => True
  | w, e::es => (∀ r, (send w.nfs e).1 = some r → Right w r) ∧ AllRight (step w e) es

/-- A LOCK or LOCKU has succeeded on the handle, and the most recent one was not an unlock by `nfs_fcntl`. -/
def Holding (w : World) (h : ℕ) : Prop := ∃ s, w.last h = some s ∧ s.fcntlUnlock = false

/-- The first LOCK on a handle is the first on any that succeeds, or one on this handle has succeeded. -/
def MayLock (w : World) (h : ℕ) : Prop := (w.lockSent h = false ∧ ∀ k, w.last k = none) ∨ Holding w h

/-- The steps that do not reach a defect -/
def Safe (w : World) : Event → Prop
  | .lockf h .lock _ _ => MayLock w h
  | .lockf h .tlock _ _ => MayLock w h
  | .lockf h .ulock _ _ => Holding w h
  | .fcntl h _ .rdlck _ _ => MayLock w h
  | .fcntl h _ .wrlck _ _ => MayLock w h
  | .fcntl h _ .unlck _ _ => Holding w h
  | .close h => w.lockConsumed h = false
  | _ => True

/-- What a safe step of the context can do: the request it sends, and the context after it -/
inductive Sends (w : World) : Option Request → Nfs → Prop
  | idle : Sends w none w.nfs
  | opened (st : Stateid) : Sends w none
      (({ w.nfs with openCounter := w.nfs.openCounter+1 } : Nfs).setFh w.nfs.openCounter (some ⟨st,1,0,⟨0,0⟩⟩))
  | confirm (st : Stateid) : Sends w
      (some ⟨w.nfs.openCounter,.openConfirm ⟨st,1,0,⟨0,0⟩⟩,.openConfirm st 1⟩)
      { w.nfs with openCounter := w.nfs.openCounter+1 }
  | lock {h : ℕ} {fh : Nfsfh} {r : Request} (lt : LockType) (offset length : ℕ) (hfh : w.nfs.fhs h = some fh)
      (hr : r.fh = h) (hk : r.handler.kind = .lock) (hop : r.op = (w.nfs.nfs4OpLock fh lt false offset length).1)
      (hm : MayLock w h) : Sends w (some r) (w.nfs.setFh h (some (Nfs.nextLockSeqid fh)))
  | unlock {h : ℕ} {fh : Nfsfh} {r : Request} (byFcntl : Bool) (offset length : ℕ) (hfh : w.nfs.fhs h = some fh)
      (hr : r.fh = h) (hk : r.handler.kind = .unlock byFcntl)
      (hop : r.op = (Nfs.nfs4OpLocku fh .writeLt offset length).1) (hh : Holding w h) :
      Sends w (some r) (w.nfs.setFh h (some (Nfs.nextLockSeqid fh)))
  | other {h : ℕ} {fh : Nfsfh} {r : Request} (hfh : w.nfs.fhs h = some fh) (hr : r.fh = h)
      (hk : r.handler.kind = .other) (hop : r.op.openSeqid = none ∧ r.op.isLock = false) (hright : Right w r) :
      Sends w (some r) (w.nfs.setFh h (some fh))
  | close {h : ℕ} {fh : Nfsfh} (hfh : w.nfs.fhs h = some fh) (hc : w.lockConsumed h = false) :
      Sends w (some ⟨h,.close fh,Nfs.nfs4OpClose fh⟩) (w.nfs.setFh h none)

theorem sends_of_safe {w : World} {e : Event} (hs : Safe w e) : Sends w (send w.nfs e).1 (send w.nfs e).2 := by
  cases e with
  | openReply st confirm =>
    cases confirm with
    | false => exact .opened st
    | true => exact .confirm st
  | lockf h cmd offset count =>
    rw [send]
    cases hfh : w.nfs.fhs h with
    | none => exact .idle
    | some fh =>
      cases cmd with
      | lock => exact .lock .writewLt offset count hfh rfl rfl rfl hs
      | tlock => exact .lock .writeLt offset count hfh rfl rfl rfl hs
      | ulock => exact .unlock false offset count hfh rfl rfl rfl hs
      | test => exact .other hfh rfl rfl ⟨rfl,rfl⟩ trivial
  | fcntl h wait ltype start len =>
    rw [send]
    cases hfh : w.nfs.fhs h with
    | none => exact .idle
    | some fh =>
      cases ltype with
      | rdlck => exact .lock _ start len hfh rfl rfl rfl hs
      | wrlck => exact .lock _ start len hfh rfl rfl rfl hs
      | unlck => exact .unlock true start len hfh rfl rfl rfl hs
      | other => exact .other hfh rfl rfl ⟨rfl,rfl⟩ trivial
  | close h =>
    rw [send]
    cases hfh : w.nfs.fhs h with
    | none => exact .idle
    | some fh => exact .close hfh hs
  | serve x o => exact .idle
  | reply x => exact .idle
  | fail x => exact .idle

/-- A request under way -/
structure Flying (w : World) (r : Request) (o : Option Outcome) : Prop where
  known : r.fh < w.nfs.openCounter
  confirm : ∀ fh, r.handler.kind = .confirm fh → r.op.openSeqid = some fh.openSeqid ∧ r.op.isLock = false ∧
    w.nfs.fhs r.fh = none ∧ w.lockSent r.fh = false ∧ ∀ st, o = some (.ok st) → w.consumed r.fh = fh.openSeqid
  lock : r.op.isLock = true ∨ r.handler.kind = .lock → w.lockSent r.fh = true
  unlock : ∀ b, r.handler.kind = .unlock b → w.nfs.hasLockOwner = true ∧ w.lockSent r.fh = true
  seqid : r.op.openSeqid ≠ none → r.op.isLock = true ∨ w.nfs.fhs r.fh = none

/-- The state of a run that reaches no defect -/
structure Inv (w : World) : Prop where
  fresh : ∀ h, w.nfs.openCounter ≤ h → w.nfs.fhs h = none ∧ w.consumed h = 0 ∧ w.lockSent h = false
  ready : ∀ h fh, w.nfs.fhs h = some fh → w.lockConsumed h = false → fh.openSeqid = w.consumed h+1
  held : ∀ h fh s, w.nfs.fhs h = some fh → w.last h = some s → s.fcntlUnlock = false → fh.lockStateid = s.stateid
  unsent : ∀ h, w.lockSent h = false → w.lockConsumed h = false ∧ w.last h = none
  owner : w.nfs.hasLockOwner = true ↔ ∃ k, w.last k ≠ none
  flying : ∀ x r o, w.flight x = some (r,o) → Flying w r o
  sole : ∀ x y f g fh, w.flight x = some f → w.flight y = some g → f.1.handler.kind = .confirm fh →
    g.1.fh = f.1.fh → x = y

theorem inv_init (clientid : ℕ) (clientName : String) : Inv (init clientid clientName) where
  fresh _ _ := ⟨rfl,rfl,rfl⟩
  ready _ _ h := by simp [init] at h
  held _ _ _ h := by simp [init] at h
  unsent _ _ := ⟨rfl,rfl⟩
  owner := by simp [init]
  flying _ _ _ h := by simp [init] at h
  sole _ _ _ _ _ h := by simp [init] at h

variable {w : World} {r : Request} {nfs : Nfs}

/-- The requests of a safe step are right. -/
theorem Inv.right (hi : Inv w) (hs : Sends w (some r) nfs) : Right w r := by
  generalize hr : some r = q at hs
  cases hs with
  | idle => simp at hr
  | opened => simp at hr
  | confirm st =>
    obtain rfl := Option.some.inj hr
    have hz := (hi.fresh _ le_rfl).2.1
    show 1 = w.consumed w.nfs.openCounter+1
    rw [hz]
  | lock lt offset length hfh hrf hk hop hm =>
    obtain rfl := Option.some.inj hr
    subst hrf
    unfold Right
    rw [hop]
    simp only [Nfs.nfs4OpLock]
    rcases hm with ⟨hsent,hnone⟩ | ⟨s,hlast,hst⟩
    · have hown : w.nfs.hasLockOwner = false := by
        by_contra hown
        obtain ⟨k,hk⟩ := hi.owner.mp (by simpa using hown)
        exact hk (hnone k)
      rw [hown]
      exact ⟨hsent,hi.ready _ _ hfh (hi.unsent _ hsent).1⟩
    · have hown : w.nfs.hasLockOwner = true := hi.owner.mpr ⟨_,by rw [hlast]; simp⟩
      have hsent : w.lockSent r.fh = true := by
        by_contra hsent
        have hnone := (hi.unsent _ (by simpa using hsent)).2
        rw [hlast] at hnone
        simp at hnone
      rw [hown]
      refine ⟨hsent,?_⟩
      rw [hlast,hi.held _ _ _ hfh hlast hst]
      rfl
  | unlock byFcntl offset length hfh hrf hk hop hh =>
    obtain rfl := Option.some.inj hr
    subst hrf
    obtain ⟨s,hlast,hst⟩ := hh
    unfold Right
    rw [hop]
    show (w.last r.fh).map Success.stateid = some _
    rw [hlast,hi.held _ _ _ hfh hlast hst]
    rfl
  | other hfh hrf hk hop hright =>
    obtain rfl := Option.some.inj hr
    exact hright
  | close hfh hc =>
    obtain rfl := Option.some.inj hr
    exact hi.ready _ _ hfh hc

@[simp] theorem setFh_self (nfs : Nfs) (h : ℕ) (fh : Option Nfsfh) : (nfs.setFh h fh).fhs h = fh := update_self ..

theorem setFh_of_ne (nfs : Nfs) {h k : ℕ} (fh : Option Nfsfh) (hk : k ≠ h) : (nfs.setFh h fh).fhs k = nfs.fhs k :=
  update_of_ne hk _ _

/-- A request under way when another one is sent -/
theorem issue_flight {x : ℕ} {f : Request × Option Outcome} (hf : (w.issue r).flight x = some f) :
    (x = w.calls ∧ f = (r,none)) ∨ w.flight x = some f := by
  have hf : update w.flight w.calls (some (r,none)) x = some f := hf
  by_cases hx : x = w.calls
  · rw [hx,update_self] at hf
    exact .inl ⟨hx,(Option.some.inj hf).symm⟩
  · rw [update_of_ne hx] at hf
    exact .inr hf

/-- A request under way stays one when another is sent: the handles that the application does not have are still
not its own, and no LOCK is sent for one of them. -/
theorem Flying.mono {w' : World} {o : Option Outcome} (h : Flying w r o) (hn : w.nfs.openCounter ≤ w'.nfs.openCounter)
    (hown : w'.nfs.hasLockOwner = w.nfs.hasLockOwner) (hc : w'.consumed = w.consumed)
    (hfhs : w.nfs.fhs r.fh = none → w'.nfs.fhs r.fh = none)
    (hsent : w.lockSent r.fh = true → w'.lockSent r.fh = true)
    (hnot : w.nfs.fhs r.fh = none → w'.lockSent r.fh = w.lockSent r.fh) : Flying w' r o := by
  refine ⟨h.known.trans_le hn,fun fh hk => ?_,fun hl => hsent (h.lock hl),fun b hk => ?_,
    fun hq => (h.seqid hq).imp_right hfhs⟩
  · obtain ⟨hq,hl,hnone,hs,ho⟩ := h.confirm fh hk
    exact ⟨hq,hl,hfhs hnone,(hnot hnone).trans hs,by rwa [hc]⟩
  · rw [hown]
    exact ⟨(h.unlock b hk).1,hsent (h.unlock b hk).2⟩

/-- The context with one more open, without a request -/
theorem Inv.opened (hi : Inv w) (st : Stateid) : Inv { w with
    nfs := ({ w.nfs with openCounter := w.nfs.openCounter+1 } : Nfs).setFh w.nfs.openCounter
      (some ⟨st,1,0,⟨0,0⟩⟩) } := by
  obtain ⟨-,hzero,hsent⟩ := hi.fresh _ le_rfl
  refine ⟨fun h hh => ?_,fun h fh hfh hc => ?_,fun h fh s hfh hlast hs => ?_,hi.unsent,hi.owner,fun x r o hx => ?_,hi.sole⟩
  · have hh' : w.nfs.openCounter < h := hh
    obtain ⟨hn,hrest⟩ := hi.fresh h hh'.le
    exact ⟨(setFh_of_ne _ _ hh'.ne').trans hn,hrest⟩
  · by_cases hh : h = w.nfs.openCounter
    · subst hh
      rw [setFh_self] at hfh
      rw [← Option.some.inj hfh]
      exact (congrArg (· + 1) hzero).symm
    · rw [setFh_of_ne _ _ hh] at hfh
      exact hi.ready h fh hfh hc
  · by_cases hh : h = w.nfs.openCounter
    · subst hh
      have he : w.last w.nfs.openCounter = some s := hlast
      rw [(hi.unsent _ hsent).2] at he
      simp at he
    · rw [setFh_of_ne _ _ hh] at hfh
      exact hi.held h fh s hfh hlast hs
  · have hf := hi.flying x r o hx
    refine hf.mono (Nat.le_succ _) rfl rfl (fun hn => ?_) id fun _ => rfl
    exact (setFh_of_ne _ _ (Nat.ne_of_lt hf.known)).trans hn

/-- A request that is no OPEN_CONFIRM is sent on a handle `h` of the application, which keeps its open seqid and
lock stateid, or gives the handle up. -/
theorem Inv.call (hi : Inv w) {h : ℕ} {fh : Nfsfh} (hfh : w.nfs.fhs h = some fh) {fh' : Option Nfsfh}
    (hsame : ∀ y, fh' = some y → y.openSeqid = fh.openSeqid ∧ y.lockStateid = fh.lockStateid)
    (hr : r.fh = h) (hk : ∀ y, r.handler.kind ≠ .confirm y)
    (hlock : r.handler.kind = .lock → r.op.isLock = true)
    (hunlock : ∀ b, r.handler.kind = .unlock b → Holding w h)
    (hq : r.op.openSeqid ≠ none → r.op.isLock = true ∨ fh' = none) :
    Inv (({ w with nfs := w.nfs.setFh h fh' } : World).issue r) := by
  subst hr
  have hlt : r.fh < w.nfs.openCounter := by
    by_contra hge
    rw [(hi.fresh r.fh (Nat.le_of_not_lt hge)).1] at hfh
    simp at hfh
  have hsent : ∀ k, w.lockSent k = true →
      (if r.op.isLock then update w.lockSent r.fh true else w.lockSent) k = true := by
    intro k hkt
    split
    · by_cases hkr : k = r.fh
      · rw [hkr,update_self]
      · rw [update_of_ne hkr]
        exact hkt
    · exact hkt
  have hnot : ∀ k, k ≠ r.fh → (if r.op.isLock then update w.lockSent r.fh true else w.lockSent) k = w.lockSent k := by
    intro k hkr
    split
    · rw [update_of_ne hkr]
    · rfl
  refine ⟨fun k hkc => ?_,fun k y hy hc => ?_,fun k y s hy hlast hs => ?_,fun k hkf => ?_,hi.owner,fun x q o hx => ?_,
    fun x y f g y' hx hy hkf hgf => ?_⟩
  · have hkr : k ≠ r.fh := fun he => by
      have hkc : w.nfs.openCounter ≤ k := hkc
      omega
    obtain ⟨hn,hz,hs⟩ := hi.fresh k hkc
    exact ⟨(setFh_of_ne _ _ hkr).trans hn,hz,(hnot k hkr).trans hs⟩
  · by_cases hkr : k = r.fh
    · subst hkr
      have hy' : fh' = some y := (setFh_self ..).symm.trans hy
      show y.openSeqid = w.consumed r.fh+1
      rw [(hsame y hy').1]
      exact hi.ready _ _ hfh hc
    · exact hi.ready k y ((setFh_of_ne _ _ hkr).symm.trans hy) hc
  · by_cases hkr : k = r.fh
    · subst hkr
      have hy' : fh' = some y := (setFh_self ..).symm.trans hy
      rw [(hsame y hy').2]
      exact hi.held _ _ s hfh hlast hs
    · exact hi.held k y s ((setFh_of_ne _ _ hkr).symm.trans hy) hlast hs
  · apply hi.unsent k
    by_contra ht
    have htrue := hsent k (by simpa using ht)
    have hfalse : (if r.op.isLock then update w.lockSent r.fh true else w.lockSent) k = false := hkf
    rw [hfalse] at htrue
    simp at htrue
  · rcases issue_flight hx with ⟨-,he⟩ | hx'
    · obtain ⟨rfl,rfl⟩ := Prod.mk.inj he
      refine ⟨hlt,fun y hy => absurd hy (hk y),fun hl => ?_,fun b hb => ?_,fun hne => ?_⟩
      · have hl' : q.op.isLock = true := hl.elim id hlock
        show (if q.op.isLock then update w.lockSent q.fh true else w.lockSent) q.fh = true
        rw [if_pos hl',update_self]
      · obtain ⟨s,hs,-⟩ := hunlock b hb
        have hne : w.last q.fh ≠ none := by
          rw [hs]
          simp
        refine ⟨hi.owner.mpr ⟨q.fh,hne⟩,hsent q.fh ?_⟩
        by_contra hf
        exact hne (hi.unsent _ (by simpa using hf)).2
      · exact (hq hne).imp_right fun he => (setFh_self ..).trans he
    · have hf := hi.flying x q o hx'
      have hne : w.nfs.fhs q.fh = none → q.fh ≠ r.fh := by
        intro hn he
        rw [he,hfh] at hn
        simp at hn
      exact hf.mono le_rfl rfl rfl (fun hn => (setFh_of_ne _ _ (hne hn)).trans hn) (hsent _) fun hn => hnot _ (hne hn)
  · rcases issue_flight hx with ⟨-,he⟩ | hx'
    · rw [he] at hkf
      exact absurd hkf (hk y')
    · obtain ⟨-,-,hnone,-⟩ := (hi.flying x f.1 f.2 hx').confirm y' hkf
      rcases issue_flight hy with ⟨-,he⟩ | hy'
      · rw [← hgf,he,hfh] at hnone
        simp at hnone
      · exact hi.sole x y f g y' hx' hy' hkf hgf

/-- An OPEN_CONFIRM is sent. -/
theorem Inv.confirm (hi : Inv w) (st : Stateid) :
    Inv (({ w with nfs := { w.nfs with openCounter := w.nfs.openCounter+1 } } : World).issue
      ⟨w.nfs.openCounter,.openConfirm ⟨st,1,0,⟨0,0⟩⟩,.openConfirm st 1⟩) := by
  obtain ⟨hnone,hzero,hsent⟩ := hi.fresh _ le_rfl
  refine ⟨fun h hh => hi.fresh h (Nat.le_of_succ_le hh),hi.ready,hi.held,hi.unsent,hi.owner,fun x r o hx => ?_,
    fun x y f g fh hx hy hk hg => ?_⟩
  · rcases issue_flight hx with ⟨-,he⟩ | hx'
    · obtain ⟨rfl,rfl⟩ := Prod.mk.inj he
      refine ⟨Nat.lt_succ_self _,fun fh hk => ?_,fun hl => ?_,fun b hb => ?_,fun _ => .inr hnone⟩
      · obtain rfl := Kind.confirm.inj hk
        exact ⟨rfl,rfl,hnone,hsent,fun st' ho => by simp at ho⟩
      · simp [Argop.isLock,Handler.kind] at hl
      · simp [Handler.kind] at hb
    · exact (hi.flying x r o hx').mono (Nat.le_succ _) rfl rfl id id fun _ => rfl
  · rcases issue_flight hx with ⟨hxc,he⟩ | hx'
    · rcases issue_flight hy with ⟨hyc,-⟩ | hy'
      · rw [hxc,hyc]
      · have hlt := (hi.flying y g.1 g.2 hy').known
        rw [hg,he] at hlt
        exact absurd hlt (lt_irrefl _)
    · rcases issue_flight hy with ⟨-,he⟩ | hy'
      · have hlt := (hi.flying x f.1 f.2 hx').known
        rw [← hg,he] at hlt
        exact absurd hlt (lt_irrefl _)
      · exact hi.sole x y f g fh hx' hy' hk hg

theorem Inv.advance (hi : Inv w) {o : Option Request} (hs : Sends w o nfs) : Inv (w.advance (o,nfs)) := by
  cases hs with
  | idle => exact hi
  | opened st => exact hi.opened st
  | confirm st => exact hi.confirm st
  | lock lt offset length hfh hr hk hop hm =>
    refine hi.call hfh (fun y hy => ?_) hr (by simp [hk]) (fun _ => by rw [hop]; rfl) (by simp [hk])
      fun _ => .inl (by rw [hop]; rfl)
    obtain rfl := Option.some.inj hy
    exact ⟨rfl,rfl⟩
  | unlock byFcntl offset length hfh hr hk hop hh =>
    refine hi.call hfh (fun y hy => ?_) hr (by simp [hk]) (by simp [hk]) (fun _ _ => hh)
      fun hq => absurd (by rw [hop]; rfl) hq
    obtain rfl := Option.some.inj hy
    exact ⟨rfl,rfl⟩
  | other hfh hr hk hop hright =>
    refine hi.call hfh (fun y hy => ?_) hr (by simp [hk]) (by simp [hk]) (by simp [hk]) fun hq => absurd hop.1 hq
    obtain rfl := Option.some.inj hy
    exact ⟨rfl,rfl⟩
  | close hfh hc =>
    exact hi.call hfh (by simp) rfl (by simp [Handler.kind]) (by simp [Handler.kind]) (by simp [Handler.kind])
      fun _ => .inr rfl

/-- The server has dealt with a request, and consumed its open seqid or not. -/
theorem Inv.serve (hi : Inv w) {x : ℕ} {o : Outcome} (hx : w.flight x = some (r,none)) : Inv (w.serve x r o) := by
  have hf := hi.flying x r none hx
  have hflight : ∀ y f, update w.flight x (some (r,some o)) y = some f →
      (y = x ∧ f = (r,some o)) ∨ (y ≠ x ∧ w.flight y = some f) := by
    intro y f hy
    by_cases hyx : y = x
    · rw [hyx,update_self] at hy
      exact .inl ⟨hyx,(Option.some.inj hy).symm⟩
    · rw [update_of_ne hyx] at hy
      exact .inr ⟨hyx,hy⟩
  have hsole : ∀ y z f g fh, update w.flight x (some (r,some o)) y = some f →
      update w.flight x (some (r,some o)) z = some g → f.1.handler.kind = .confirm fh → g.1.fh = f.1.fh → y = z := by
    have hback : ∀ y f, update w.flight x (some (r,some o)) y = some f → ∃ f', w.flight y = some f' ∧ f'.1 = f.1 := by
      intro y f hy
      rcases hflight y f hy with ⟨rfl,rfl⟩ | ⟨-,hy'⟩
      · exact ⟨_,hx,rfl⟩
      · exact ⟨f,hy',rfl⟩
    intro y z f g fh hy hz hk hg
    obtain ⟨f',hy',hf'⟩ := hback y f hy
    obtain ⟨g',hz',hg'⟩ := hback z g hz
    exact hi.sole y z f' g' fh hy' hz' (by rw [hf']; exact hk) (by rw [hf',hg']; exact hg)
  have hstay : Flying w r (some o) → Inv { w with flight := update w.flight x (some (r,some o)) } := by
    intro hr
    refine ⟨hi.fresh,hi.ready,hi.held,hi.unsent,hi.owner,fun y q p hy => ?_,hsole⟩
    rcases hflight y (q,p) hy with ⟨-,he⟩ | ⟨-,hy'⟩
    · obtain ⟨rfl,rfl⟩ := Prod.mk.inj he
      exact ⟨hr.known,hr.confirm,hr.lock,hr.unlock,hr.seqid⟩
    · have hq := hi.flying y q p hy'
      exact ⟨hq.known,hq.confirm,hq.lock,hq.unlock,hq.seqid⟩
  unfold World.serve
  cases hq : r.op.openSeqid with
  | none =>
    refine hstay ⟨hf.known,fun fh hk => ?_,hf.lock,hf.unlock,hf.seqid⟩
    have hs := (hf.confirm fh hk).1
    rw [hq] at hs
    simp at hs
  | some seqid =>
    by_cases hc : o.consumed = true
    · simp only [if_pos hc]
      have hne : r.op.openSeqid ≠ none := by
        rw [hq]
        simp
      refine ⟨fun h hh => ?_,fun h fh hfh hl => ?_,hi.held,fun h hs => ?_,hi.owner,fun y q p hy => ?_,hsole⟩
      · have hhr : h ≠ r.fh := fun he => by
          have hh : w.nfs.openCounter ≤ h := hh
          have hk := hf.known
          omega
        obtain ⟨hn,hz,hs⟩ := hi.fresh h hh
        exact ⟨hn,(update_of_ne hhr _ _).trans hz,hs⟩
      · have hl : (if r.op.isLock = true then update w.lockConsumed r.fh true else w.lockConsumed) h = false := hl
        by_cases hhr : h = r.fh
        · subst hhr
          rcases hf.seqid hne with hlock | hnone
          · rw [if_pos hlock,update_self] at hl
            simp at hl
          · have hfh' : w.nfs.fhs r.fh = some fh := hfh
            rw [hnone] at hfh'
            simp at hfh'
        · have hl' : w.lockConsumed h = false := by
            split at hl
            · rwa [update_of_ne hhr] at hl
            · exact hl
          show fh.openSeqid = update w.consumed r.fh seqid h+1
          rw [update_of_ne hhr]
          exact hi.ready h fh hfh hl'
      · obtain ⟨hl,hlast⟩ := hi.unsent h hs
        refine ⟨?_,hlast⟩
        show (if r.op.isLock = true then update w.lockConsumed r.fh true else w.lockConsumed) h = false
        split
        · next hlock =>
          have hhr : h ≠ r.fh := fun he => by
            have hs : w.lockSent h = false := hs
            rw [he,hf.lock (.inl hlock)] at hs
            simp at hs
          rw [update_of_ne hhr]
          exact hl
        · exact hl
      · rcases hflight y (q,p) hy with ⟨-,he⟩ | ⟨hyx,hy'⟩
        · obtain ⟨rfl,rfl⟩ := Prod.mk.inj he
          refine ⟨hf.known,fun fh hk => ?_,hf.lock,hf.unlock,hf.seqid⟩
          obtain ⟨hs,hl,hn,hls,-⟩ := hf.confirm fh hk
          refine ⟨hs,hl,hn,hls,fun st _ => ?_⟩
          rw [hq] at hs
          exact (update_self ..).trans (Option.some.inj hs)
        · have hqf := hi.flying y q p hy'
          refine ⟨hqf.known,fun fh hk => ?_,hqf.lock,hqf.unlock,hqf.seqid⟩
          obtain ⟨hs,hl,hn,hls,ho⟩ := hqf.confirm fh hk
          have hqr : q.fh ≠ r.fh := fun he => hyx (hi.sole y x (q,p) (r,none) fh hy' hx hk he.symm)
          exact ⟨hs,hl,hn,hls,fun st hst => (update_of_ne hqr _ _).trans (ho st hst)⟩
    · simp only [if_neg hc]
      refine hstay ⟨hf.known,fun fh hk => ?_,hf.lock,hf.unlock,hf.seqid⟩
      obtain ⟨hs,hl,hn,hls,-⟩ := hf.confirm fh hk
      refine ⟨hs,hl,hn,hls,fun st ho => ?_⟩
      rw [Option.some.inj ho] at hc
      exact absurd rfl hc

/-- A request is over, and no handle comes or changes but in its lock stateid. -/
theorem Inv.settle (hi : Inv w) {x : ℕ} {last : ℕ → Option Success} (hn : nfs.openCounter = w.nfs.openCounter)
    (hfhs : ∀ h fh, nfs.fhs h = some fh → ∃ fh', w.nfs.fhs h = some fh' ∧ fh.openSeqid = fh'.openSeqid)
    (hheld : ∀ h fh s, nfs.fhs h = some fh → last h = some s → s.fcntlUnlock = false → fh.lockStateid = s.stateid)
    (hlast : ∀ h, w.lockSent h = false → last h = none) (hown : nfs.hasLockOwner = true ↔ ∃ k, last k ≠ none)
    (hmono : w.nfs.hasLockOwner = true → nfs.hasLockOwner = true) :
    Inv { w with nfs := nfs, flight := update w.flight x none, last := last } := by
  have hnone : ∀ h, w.nfs.fhs h = none → nfs.fhs h = none := by
    intro h hh
    cases hfh : nfs.fhs h with
    | none => rfl
    | some fh =>
      obtain ⟨fh',hfh',-⟩ := hfhs h fh hfh
      rw [hh] at hfh'
      simp at hfh'
  have hflight : ∀ y f, update w.flight x none y = some f → w.flight y = some f := by
    intro y f hy
    by_cases hyx : y = x
    · rw [hyx,update_self] at hy
      simp at hy
    · rwa [update_of_ne hyx] at hy
  refine ⟨fun h hh => ?_,fun h fh hfh hl => ?_,hheld,fun h hs => ⟨(hi.unsent h hs).1,hlast h hs⟩,hown,fun y q p hy => ?_,
    fun y z f g fh hy hz hk hg => hi.sole y z f g fh (hflight y f hy) (hflight z g hz) hk hg⟩
  · rw [show (_ : ℕ) = w.nfs.openCounter from hn] at hh
    obtain ⟨hz,hrest⟩ := hi.fresh h hh
    exact ⟨hnone h hz,hrest⟩
  · obtain ⟨fh',hfh',hs⟩ := hfhs h fh hfh
    exact hs.trans (hi.ready h fh' hfh' hl)
  · have hq := hi.flying y q p (hflight y _ hy)
    refine ⟨hq.known.trans_eq hn.symm,fun fh hk => ?_,hq.lock,fun b hb => ?_,fun hs => (hq.seqid hs).imp_right (hnone _)⟩
    · obtain ⟨hs,hl,hz,hrest⟩ := hq.confirm fh hk
      exact ⟨hs,hl,hnone _ hz,hrest⟩
    · exact ⟨hmono (hq.unlock b hb).1,(hq.unlock b hb).2⟩

/-- A request is over that has changed nothing. -/
theorem Inv.drop (hi : Inv w) (x : ℕ) : Inv { w with flight := update w.flight x none } :=
  hi.settle rfl (fun _ fh hfh => ⟨fh,hfh,rfl⟩) hi.held (fun h hs => (hi.unsent h hs).2) hi.owner id

/-- A LOCK or an unlock has succeeded: the handle has the stateid that was returned, but after an unlock by
`nfs_fcntl`. -/
theorem Inv.succeed (hi : Inv w) {x : ℕ} (st : Stateid) {byFcntl : Bool} (hsent : w.lockSent r.fh = true)
    (hown : nfs.hasLockOwner = true) (hn : nfs.openCounter = w.nfs.openCounter)
    (hfhs : nfs.fhs = if byFcntl then w.nfs.fhs else
      update w.nfs.fhs r.fh ((w.nfs.fhs r.fh).map fun fh => { fh with lockStateid := st })) :
    Inv { w with
      nfs := nfs
      flight := update w.flight x none
      last := update w.last r.fh (some ⟨byFcntl,st⟩) } := by
  have hother : ∀ h, h ≠ r.fh → nfs.fhs h = w.nfs.fhs h := by
    intro h hh
    rw [hfhs]
    split
    · rfl
    · exact update_of_ne hh _ _
  refine hi.settle hn (fun h fh hfh => ?_) (fun h fh s hfh hlast hs => ?_) (fun h hs => ?_)
    ⟨fun _ => ⟨r.fh,by simp⟩,fun _ => hown⟩ fun _ => hown
  · by_cases hh : h = r.fh
    · subst hh
      rw [hfhs] at hfh
      split at hfh
      · exact ⟨fh,hfh,rfl⟩
      · rw [update_self] at hfh
        obtain ⟨fh',hfh',rfl⟩ := Option.map_eq_some_iff.mp hfh
        exact ⟨fh',hfh',rfl⟩
    · rw [hother h hh] at hfh
      exact ⟨fh,hfh,rfl⟩
  · by_cases hh : h = r.fh
    · subst hh
      rw [update_self] at hlast
      obtain rfl := Option.some.inj hlast
      rw [hfhs,if_neg (by simpa using hs),update_self] at hfh
      obtain ⟨fh',-,rfl⟩ := Option.map_eq_some_iff.mp hfh
      rfl
    · rw [update_of_ne hh] at hlast
      rw [hother h hh] at hfh
      exact hi.held h fh s hfh hlast hs
  · have hh : h ≠ r.fh := fun he => by
      rw [he,hsent] at hs
      simp at hs
    rw [update_of_ne hh]
    exact (hi.unsent h hs).2

/-- An OPEN_CONFIRM has succeeded: the application gets the handle. -/
theorem Inv.confirmed (hi : Inv w) {x : ℕ} {st : Stateid} {fh : Nfsfh} (hx : w.flight x = some (r,some (.ok st)))
    (hk : r.handler.kind = .confirm fh) :
    Inv { w with
      nfs := w.nfs.setFh r.fh (some { fh with openSeqid := fh.openSeqid+1, stateid := st })
      flight := update w.flight x none } := by
  have hf := hi.flying x r _ hx
  obtain ⟨-,-,-,hsent,hserved⟩ := hf.confirm fh hk
  have hserved := hserved st rfl
  have hflight : ∀ y f, update w.flight x none y = some f → y ≠ x ∧ w.flight y = some f := by
    intro y f hy
    by_cases hyx : y = x
    · rw [hyx,update_self] at hy
      simp at hy
    · rw [update_of_ne hyx] at hy
      exact ⟨hyx,hy⟩
  refine ⟨fun h hh => ?_,fun h y hy hl => ?_,fun h y s hy hlast hs => ?_,hi.unsent,hi.owner,fun y q p hy => ?_,
    fun y z f g y' hy hz hk hg => hi.sole y z f g y' (hflight y f hy).2 (hflight z g hz).2 hk hg⟩
  · have hh : w.nfs.openCounter ≤ h := hh
    have hhr : h ≠ r.fh := fun he => by
      have hlt := hf.known
      omega
    obtain ⟨hn,hrest⟩ := hi.fresh h hh
    exact ⟨(setFh_of_ne _ _ hhr).trans hn,hrest⟩
  · by_cases hh : h = r.fh
    · subst hh
      rw [setFh_self] at hy
      obtain rfl := Option.some.inj hy
      exact congrArg (· + 1) hserved.symm
    · rw [setFh_of_ne _ _ hh] at hy
      exact hi.ready h y hy hl
  · by_cases hh : h = r.fh
    · subst hh
      have hlast : w.last r.fh = some s := hlast
      rw [(hi.unsent _ hsent).2] at hlast
      simp at hlast
    · rw [setFh_of_ne _ _ hh] at hy
      exact hi.held h y s hy hlast hs
  · obtain ⟨hyx,hy'⟩ := hflight y (q,p) hy
    have hqr : q.fh ≠ r.fh := fun he => hyx (hi.sole x y (r,_) (q,p) fh hx hy' hk he).symm
    have hq := hi.flying y q p hy'
    exact hq.mono le_rfl rfl rfl (fun hn => (setFh_of_ne _ _ hqr).trans hn) id fun _ => rfl

theorem Inv.finish (hi : Inv w) {x : ℕ} {o o' : Option Outcome} (hx : w.flight x = some (r,o))
    (ho : o' = o ∨ o' = none) : Inv (w.finish x r o') := by
  have hf := hi.flying x r o hx
  have hdrop := hi.drop x
  obtain ⟨h,handler,op⟩ := r
  rcases ho with rfl | rfl
  · cases o' with
    | none => cases handler <;> exact hdrop
    | some o =>
      cases o with
      | error status c => cases handler <;> exact hdrop
      | ok st =>
        have hlock : handler.kind = .lock → Inv ({ w with
            nfs := w.nfs.locked h st
            flight := update w.flight x none
            last := update w.last h (some ⟨false,st⟩) } : World) :=
          fun hk => hi.succeed st (r := ⟨h,handler,op⟩) (hf.lock (.inr hk)) rfl rfl rfl
        cases handler with
        | openConfirm fh => exact hi.confirmed hx rfl
        | lockf cmd =>
          cases cmd with
          | lock => exact hlock rfl
          | tlock => exact hlock rfl
          | ulock =>
            obtain ⟨hown,hsent⟩ := hf.unlock false rfl
            exact hi.succeed st (r := ⟨h,.lockf .ulock,op⟩) hsent hown rfl rfl
          | test => exact hdrop
        | fcntl ltype =>
          cases ltype with
          | rdlck => exact hlock rfl
          | wrlck => exact hlock rfl
          | unlck =>
            obtain ⟨hown,hsent⟩ := hf.unlock true rfl
            exact hi.succeed st (r := ⟨h,.fcntl .unlck,op⟩) hsent hown rfl rfl
          | other => exact hdrop
        | close fh => exact hdrop
  · cases handler <;> exact hdrop

/-- A safe step keeps the invariant. -/
theorem inv_step (hi : Inv w) {e : Event} (hs : Safe w e) : Inv (step w e) := by
  have hadvance := hi.advance (sends_of_safe hs)
  cases e with
  | openReply st confirm => exact hadvance
  | lockf h cmd offset count => exact hadvance
  | fcntl h wait ltype start len => exact hadvance
  | close h => exact hadvance
  | serve x o =>
    rw [step]
    split
    · next hx => exact hi.serve hx
    · exact hi
  | reply x =>
    rw [step]
    split
    · next hx => exact hi.finish hx (.inl rfl)
    · exact hi
  | fail x =>
    rw [step]
    split
    · next hx => exact hi.finish hx (.inr rfl)
    · exact hi

theorem allRight_of_inv (hi : Inv w) {es : List Event} (hg : Guarded step Safe w es) : AllRight w es := by
  induction es generalizing w with
  | nil => trivial
  | cons e es ih =>
    refine ⟨fun r hr => ?_,ih (inv_step hi hg.1) hg.2⟩
    have hs := sends_of_safe hg.1
    rw [hr] at hs
    exact hi.right hs

/-- In a run whose steps are all safe every request has the seqid and the stateid it has to have. -/
theorem open_lock_state (clientid : ℕ) (clientName : String) {es : List Event}
    (hg : Guarded step Safe (init clientid clientName) es) : AllRight (init clientid clientName) es :=
  allRight_of_inv (inv_init clientid clientName) hg

/-- A handle is locked, unlocked and locked again, and another one is opened and closed. -/
def lockTwice : List Event :=
  [.openReply ⟨1,5⟩ true,.serve 0 (.ok ⟨2,5⟩),.reply 0,.lockf 0 .lock 0 10,.serve 1 (.ok ⟨1,7⟩),.reply 1,
    .lockf 0 .ulock 0 10,.serve 2 (.ok ⟨2,7⟩),.reply 2,.fcntl 0 true .wrlck 0 10,.openReply ⟨1,6⟩ false,.close 1]

theorem open_lock_state_lockTwice : AllRight (init 9 "client") lockTwice := by
  refine open_lock_state 9 "client" ?_
  exact ⟨trivial,trivial,trivial,.inl ⟨rfl,fun _ => rfl⟩,trivial,trivial,⟨_,rfl,rfl⟩,trivial,trivial,
    .inr ⟨_,rfl,rfl⟩,trivial,rfl,trivial⟩

/-- A handle is locked and then closed: the CLOSE has the seqid that the LOCK had. -/
def lockClose : List Event :=
  [.openReply ⟨1,5⟩ false,.lockf 0 .lock 0 10,.serve 0 (.ok ⟨1,7⟩),.reply 0,.close 0]

/-- Two handles are locked: the first LOCK on the second has the form for an old lock owner. -/
def lockBoth : List Event :=
  [.openReply ⟨1,5⟩ false,.openReply ⟨1,6⟩ false,.lockf 0 .lock 0 10,.serve 0 (.ok ⟨1,7⟩),.reply 0,.lockf 1 .lock 0 10]

/-- A handle is locked, unlocked by `nfs_fcntl` and locked again: that LOCK has the stateid of the first one. -/
def fcntlUnlock : List Event :=
  [.openReply ⟨1,5⟩ false,.lockf 0 .lock 0 10,.serve 0 (.ok ⟨1,7⟩),.reply 0,.fcntl 0 false .unlck 0 10,
    .serve 1 (.ok ⟨2,7⟩),.reply 1,.lockf 0 .lock 0 10]

theorem open_lock_state_fails : ¬ AllRight (init 9 "client") lockClose ∧ ¬ AllRight (init 9 "client") lockBoth ∧
    ¬ AllRight (init 9 "client") fcntlUnlock := by
  refine ⟨fun h => ?_,fun h => ?_,fun h => ?_⟩
  · have hr : (1 : ℕ) = 1+1 := h.2.2.2.2.1 _ rfl
    simp at hr
  · have hr : false = true ∧ _ := h.2.2.2.2.2.1 _ rfl
    simp at hr
  · have hr : true = true ∧ some (⟨2,7⟩ : Stateid) = some ⟨1,7⟩ := h.2.2.2.2.2.2.2.1 _ rfl
    simp at hr

end OpenState
end Libnfs
