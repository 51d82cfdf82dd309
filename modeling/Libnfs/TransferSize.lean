import Mathlib.Data.Nat.Notation
import Mathlib.Tactic

/-! How many bytes a READ or WRITE asks for: `nfs_set_readmax` and `nfs_set_writemax`, the end of
mounting (`nfs3_mount_6_cb`, `nfs_parse_rwmax`), and every place that sends a READ or a WRITE.
A context mounts once; sends and allocations do not fail. -/
namespace Libnfs
namespace TransferSize

inductive Version
  | v3 | v4
  deriving DecidableEq, Repr

/-- `NFS_MIN_XFER_SIZE`, that is `NFSMAXDATA2` -/
def nfsMinXferSize : ℕ := 8192
/-- `NFS_MAX_XFER_SIZE` -/
def nfsMaxXferSize : ℕ := 4*1024*1024
/-- `NFS_DEF_XFER_SIZE` -/
def nfsDefXferSize : ℕ := 1024*1024

/-- What `readmax_adjusted` and `writemax_adjusted` end with -/
def adjusted (n : ℕ) : ℕ := max (min n nfsMaxXferSize) nfsMinXferSize/4096*4096

/-- Who set a limit last -/
inductive Origin
  | setter | fsinfo | rwmax
  deriving DecidableEq, Repr

/-- `readmax` or `writemax` of a context. The rest are ghosts: the last setting of the user, where
one below the minimum counts as the minimum, the maximum of the server, and who set `max` last. -/
structure Limit where
  max : ℕ
  user : ℕ
  server : ℕ
  origin : Origin
  deriving DecidableEq, Repr

namespace Limit

/-- `nfs_set_readmax` and `nfs_set_writemax` -/
def set (l : Limit) (n : ℕ) : Limit := { l with max := adjusted n }

/-- Called by the user -/
def bySetter (l : Limit) (n : ℕ) : Limit :=
  { l.set n with user := Max.max n nfsMinXferSize, origin := .setter }

/-- `MIN(nfs->nfsi->readmax, rtmax)` is set when FSINFO was answered. -/
def byFsinfo (l : Limit) (n : ℕ) : Limit :=
  { l.set (min l.max n) with server := n, origin := .fsinfo }

/-- What the server says is set when its attributes were read. -/
def byRwmax (l : Limit) (n : ℕ) : Limit := { l.set n with server := n, origin := .rwmax }

/-- A context that nothing was set in -/
def default : Limit := ⟨nfsDefXferSize,nfsDefXferSize,0,.setter⟩

/-- The most a request may ask for: the minimum of the setting and of the maximum of the server -/
def least (l : Limit) : ℕ := min l.user l.server

end Limit

/-- What waits for a reply: `rw_data`, `nfs_mcb_data`, and the data of an append. -/
inductive Pending
  | rCb (remaining : ℕ)
  | pwriteMcb (count : ℕ)
  | append (count : ℕ)
  deriving DecidableEq, Repr

structure Nfs where
  version : Option Version
  readmax : Limit
  writemax : Limit
  pending : List Pending
  deriving DecidableEq, Repr

/-- A READ or WRITE on the wire, with its count -/
inductive Request
  | read (count : ℕ)
  | write (count : ℕ)
  deriving DecidableEq, Repr

/-- `(count3)count`, also the conversion to a `count4` -/
def count3 (n : ℕ) : ℕ := n%2^32

/-- A sum of `iov_len` in a `size_t` -/
def iovLength (iov : List ℕ) : ℕ := iov.sum%2^64

/-- `if (count > max) count = max` -/
def cut (count max : ℕ) : ℕ := if count > max then max else count

/-- The check of `_nfs_pread_async` and `r_cb`, which spares a limit of 0 -/
def chunk (count max : ℕ) : ℕ := if max ≠ 0 ∧ count > max then max else count

namespace Nfs

/-- `__nfs_pread_async`: `nfs3_pread_async_internal` or `nfs4_pread_async_internal` -/
def preadInternal (nfs : Nfs) (v : Version) (count : ℕ) : List Request :=
  match v with
  | .v3 => [.read (count3 (cut count nfs.readmax.max))]
  | .v4 => [.read (count3 count)]

/-- `_nfs_pread_async` -/
def pread (nfs : Nfs) (v : Version) (count : ℕ) : Nfs × List Request :=
  if count < nfs.readmax.max then (nfs,nfs.preadInternal v count)
  else ({ nfs with pending := nfs.pending ++ [.rCb count] },
    nfs.preadInternal v (chunk count nfs.readmax.max))

/-- What `r_cb` has left to read after a reply, when it goes on -/
def rest (nfs : Nfs) (remaining : ℕ) (status : ℤ) : Option ℕ :=
  if status < 0 then none
  else
    let n := cut status.toNat remaining
    if remaining-n = 0 ∨ n < nfs.readmax.max then none else some (remaining-n)

/-- `nfs3_preadv_async_internal` or `nfs4_preadv_async_internal` -/
def preadv (nfs : Nfs) (v : Version) (iov : List ℕ) : List Request :=
  match v with
  | .v3 => [.read (count3 (cut (iovLength iov) nfs.readmax.max))]
  | .v4 => [.read (count3 (iovLength iov))]

/-- The loop of `nfs3_pwrite_async_internal`: the counts of the WRITEs it sends -/
def pwriteLoop (max : ℕ) : ℕ → ℕ → List ℕ
  | 0, _ => []
  | fuel+1, count =>
    let writecount := cut count max
    writecount :: if 0 < count-writecount then pwriteLoop max fuel (count-writecount) else []

/-- `nfs3_pwrite_async_internal` or `nfs4_pwrite_async_internal` -/
def pwrite (nfs : Nfs) (v : Version) (count : ℕ) : Nfs × List Request :=
  match v with
  | .v3 =>
    let count := cut count nfs.writemax.max
    let counts := pwriteLoop nfs.writemax.max (count+1) count
    ({ nfs with pending := nfs.pending ++ counts.map .pwriteMcb },counts.map fun c => .write (count3 c))
  | .v4 => (nfs,[.write (count3 count)])

/-- `nfs3_mount_6_cb` as far as the sizes go; a limit below the minimum fails the mount. -/
def nfs3Mount6Cb (nfs : Nfs) (rtmax wtmax : ℕ) : Nfs :=
  if nfs.readmax.max < nfsMinXferSize then nfs
  else
    let nfs := { nfs with readmax := nfs.readmax.byFsinfo rtmax }
    if nfs.writemax.max < nfsMinXferSize then nfs
    else { nfs with writemax := nfs.writemax.byFsinfo wtmax, version := some .v3 }

/-- `nfs_parse_rwmax` with `nfs4_mount_5_cb`, for attributes that are there -/
def nfsParseRwmax (nfs : Nfs) (maxread maxwrite : ℕ) : Nfs :=
  { nfs with
    readmax := nfs.readmax.byRwmax maxread
    writemax := nfs.writemax.byRwmax maxwrite
    version := some .v4 }

/-- What `nfs3_write_async` and `nfs4_write_async` keep of an append while they ask for the size of
the file; version 4 keeps the length in an `int`. -/
def append (nfs : Nfs) (v : Version) (count : ℕ) : Nfs :=
  { nfs with pending := nfs.pending ++ [.append (match v with
    | .v3 => count
    | .v4 => count3 count)] }

end Nfs

/-- What happens to a context: a setting, the end of mounting, a call of the application, or the
reply for a pending request. A `read` and a `write` move the file offset. -/
inductive Event
  | setReadmax (readmax : ℕ)
  | setWritemax (writemax : ℕ)
  | mount3 (rtmax wtmax : ℕ)
  | mount4 (maxread maxwrite : ℕ)
  | pread (count : ℕ)
  | read (count : ℕ)
  | preadv (iov : List ℕ)
  | pwrite (count : ℕ)
  | write (isAppend : Bool) (count : ℕ)
  | readReply (i : ℕ) (status : ℤ)
  | writeReply (i : ℕ) (written : Option ℕ)
  | appendReply (i : ℕ) (ok : Bool)

namespace Nfs

def done (nfs : Nfs) (i : ℕ) : Nfs := { nfs with pending := nfs.pending.eraseIdx i }

def wait (nfs : Nfs) (p : Pending) : Nfs := { nfs with pending := nfs.pending ++ [p] }

/-- `r_cb` of the request `i` -/
def rCb (nfs : Nfs) (v : Version) (i remaining : ℕ) (status : ℤ) : Nfs × List Request :=
  match nfs.rest remaining status with
  | none => (nfs.done i,[])
  | some rest => ((nfs.done i).wait (.rCb rest),nfs.preadInternal v (chunk rest nfs.readmax.max))

/-- `nfs3_pwrite_mcb` of the request `i`: a short write is sent again for the rest. -/
def pwriteMcb (nfs : Nfs) (i count n : ℕ) : Nfs × List Request :=
  if 0 < n ∧ n < count then
    ((nfs.done i).wait (.pwriteMcb (count-n)),[.write (count3 (count-n))])
  else (nfs.done i,[])

/-- A call or a reply in a mounted context; no reply is an error, and an error ends the request. -/
def act (nfs : Nfs) (v : Version) : Event → Nfs × List Request
  | .pread count => nfs.pread v count
  | .read count => nfs.pread v count
  | .preadv iov => (nfs,nfs.preadv v iov)
  | .pwrite count => nfs.pwrite v count
  | .write false count => nfs.pwrite v count
  | .write true count => (nfs.append v count,[])
  | .readReply i status => match nfs.pending[i]? with
    | some (.rCb remaining) => nfs.rCb v i remaining status
    | _ => (nfs,[])
  | .writeReply i written => match nfs.pending[i]? with
    | some (.pwriteMcb count) => nfs.pwriteMcb i count (written.getD 0)
    | _ => (nfs,[])
  | .appendReply i ok => match nfs.pending[i]? with
    | some (.append count) => if ok then (nfs.done i).pwrite v count else (nfs.done i,[])
    | _ => (nfs,[])
  | _ => (nfs,[])

/-- One event: the context after it and the READs and WRITEs that are sent. -/
def step (nfs : Nfs) (e : Event) : Nfs × List Request :=
  match e with
  | .setReadmax n => ({ nfs with readmax := nfs.readmax.bySetter n },[])
  | .setWritemax n => ({ nfs with writemax := nfs.writemax.bySetter n },[])
  | .mount3 rtmax wtmax => (if nfs.version = none then nfs.nfs3Mount6Cb rtmax wtmax else nfs,[])
  | .mount4 maxread maxwrite =>
    (if nfs.version = none then nfs.nfsParseRwmax maxread maxwrite else nfs,[])
  | e => match nfs.version with
    | none => (nfs,[])
    | some v => nfs.act v e

/-- `nfs_init_context` -/
def init : Nfs := ⟨none,.default,.default,[]⟩

/-- A context after some events -/
def after (es : List Event) : Nfs := es.foldl (fun nfs e => (nfs.step e).1) init

end Nfs

/-- A request asks for no more than the user and the server allow. -/
def Request.Within (nfs : Nfs) : Request → Prop
  | .read count => count ≤ nfs.readmax.least
  | .write count => count ≤ nfs.writemax.least

/-- So do all requests that an event sends. -/
def Conforms (nfs : Nfs) (e : Event) : Prop := ∀ r ∈ (nfs.step e).2, r.Within nfs

/-- Who set a limit last did not take it above the setting or the maximum of the server: a setting
after mounting is no larger than that maximum, an NFSv3 server does not say less than 8192, nor an
NFSv4 server, which also says no more than the setting. -/
def Limit.Sound (l : Limit) : Prop :=
  match l.origin with
  | .setter => adjusted l.user ≤ l.server
  | .fsinfo => nfsMinXferSize ≤ l.server
  | .rwmax => nfsMinXferSize ≤ l.server ∧ adjusted l.server ≤ l.user

instance (l : Limit) : Decidable l.Sound := by
  unfold Limit.Sound
  split <;> infer_instance

/-- A request that is cut to the limit -/
def Limit.Allows (l : Limit) (count : ℕ) : Prop := l.Sound ∨ count ≤ l.least

/-- A request that only version 3 cuts to the limit -/
def Limit.Fits (l : Limit) (v : Version) (count : ℕ) : Prop :=
  match v with
  | .v3 => l.Allows count
  | .v4 => count3 count ≤ l.least

/-- When the requests of an event are within the bounds -/
def Meets (nfs : Nfs) (v : Version) : Event → Prop
  | .pread count => nfs.readmax.Allows count
  | .read count => nfs.readmax.Allows count
  | .preadv iov => nfs.readmax.Fits v (iovLength iov)
  | .pwrite count => nfs.writemax.Fits v count
  | .write false count => nfs.writemax.Fits v count
  | .readReply i status => ∀ remaining rest, nfs.pending[i]? = some (.rCb remaining) →
      nfs.rest remaining status = some rest → nfs.readmax.Allows rest
  | .writeReply i (some n) => ∀ count, nfs.pending[i]? = some (.pwriteMcb count) →
      0 < n → n < count → count3 (count-n) ≤ nfs.writemax.least
  | .appendReply i true => ∀ count, nfs.pending[i]? = some (.append count) →
      nfs.writemax.Fits v count
  | _ => True

/-! The limits. -/

theorem adjusted_bounds (n : ℕ) : nfsMinXferSize ≤ adjusted n ∧ adjusted n ≤ nfsMaxXferSize := by
  unfold adjusted nfsMinXferSize nfsMaxXferSize
  omega

theorem adjusted_le (n : ℕ) : adjusted n ≤ max n nfsMinXferSize := by
  unfold adjusted nfsMinXferSize nfsMaxXferSize
  omega

/-- A setting below the minimum is raised to it. -/
theorem adjusted_raised (n : ℕ) : adjusted (max n nfsMinXferSize) = adjusted n := by
  unfold adjusted nfsMinXferSize nfsMaxXferSize
  omega

/-- A limit in terms of its ghosts -/
structure Limit.Ok (l : Limit) : Prop where
  user : nfsMinXferSize ≤ l.user
  max_eq : l.max = match l.origin with
    | .setter => adjusted l.user
    | .fsinfo => adjusted (min (adjusted l.user) l.server)
    | .rwmax => adjusted l.server

variable {l : Limit} {nfs : Nfs}

theorem Limit.Ok.bounds (h : l.Ok) : nfsMinXferSize ≤ l.max ∧ l.max ≤ nfsMaxXferSize := by
  rw [h.max_eq]
  split
  · exact adjusted_bounds _
  · exact adjusted_bounds _
  · exact adjusted_bounds _

theorem Limit.default_ok : Limit.default.Ok := ⟨by decide,by decide⟩

theorem Limit.bySetter_ok (l : Limit) (n : ℕ) : (l.bySetter n).Ok :=
  ⟨le_max_right _ _,(adjusted_raised n).symm⟩

theorem Limit.Ok.byFsinfo (h : l.Ok) (ho : l.origin = .setter) (n : ℕ) : (l.byFsinfo n).Ok := by
  have hmax := h.max_eq
  rw [ho] at hmax
  exact ⟨h.user,by simp [Limit.byFsinfo,Limit.set,hmax]⟩

theorem Limit.Ok.byRwmax (h : l.Ok) (n : ℕ) : (l.byRwmax n).Ok := ⟨h.user,rfl⟩

/-- A limit is within the bounds if and only if it was set soundly. -/
theorem Limit.Ok.le_least (h : l.Ok) : l.max ≤ l.least ↔ l.Sound := by
  have hu := h.user
  unfold Limit.least Limit.Sound
  rw [h.max_eq,le_min_iff]
  split
  · have h1 := adjusted_le l.user
    constructor
    · exact fun h => h.2
    · exact fun h => ⟨by omega,h⟩
  · have h1 := adjusted_le l.user
    have h2 := adjusted_le (min (adjusted l.user) l.server)
    have h3 := adjusted_bounds (min (adjusted l.user) l.server)
    constructor
    · exact fun h => h3.1.trans h.2
    · exact fun h => ⟨by omega,by omega⟩
  · have h1 := adjusted_le l.server
    have h2 := adjusted_bounds l.server
    constructor
    · exact fun h => ⟨h2.1.trans h.2,h.1⟩
    · exact fun h => ⟨h.2,by omega⟩

/-- What is kept over every run: the limits, and that mounting is the first thing that does not
leave them to the user. -/
structure Nfs.Ok (nfs : Nfs) : Prop where
  readmax : nfs.readmax.Ok
  writemax : nfs.writemax.Ok
  fresh : nfs.version = none → nfs.readmax.origin = .setter ∧ nfs.writemax.origin = .setter

theorem Nfs.init_ok : Nfs.init.Ok := ⟨Limit.default_ok,Limit.default_ok,fun _ => ⟨rfl,rfl⟩⟩

/-- The context but for what is pending -/
def Nfs.Same (a b : Nfs) : Prop :=
  a.version = b.version ∧ a.readmax = b.readmax ∧ a.writemax = b.writemax

/-- A call or a reply changes only what is pending. -/
theorem Nfs.act_same (nfs : Nfs) (v : Version) (e : Event) : (nfs.act v e).1.Same nfs := by
  have hsame : ∀ p, ({ nfs with pending := p } : Nfs).Same nfs := fun p => ⟨rfl,rfl,rfl⟩
  have hpwrite : ∀ (p : List Pending) (count : ℕ),
      (({ nfs with pending := p } : Nfs).pwrite v count).1.Same nfs := by
    intro p count
    cases v
    · exact hsame _
    · exact hsame p
  cases e with
  | pread count =>
    simp only [act,pread]
    split
    · exact hsame _
    · exact hsame _
  | read count =>
    simp only [act,pread]
    split
    · exact hsame _
    · exact hsame _
  | pwrite count => exact hpwrite nfs.pending count
  | write isAppend count =>
    cases isAppend
    · exact hpwrite nfs.pending count
    · exact hsame _
  | readReply i status =>
    simp only [act]
    split
    · simp only [rCb]
      split
      · exact hsame _
      · exact hsame _
    · exact hsame _
  | writeReply i written =>
    simp only [act]
    split
    · simp only [pwriteMcb]
      split
      · exact hsame _
      · exact hsame _
    · exact hsame _
  | appendReply i ok =>
    simp only [act]
    split
    · split
      · exact hpwrite _ _
      · exact hsame _
    · exact hsame _
  | setReadmax n => exact hsame _
  | setWritemax n => exact hsame _
  | mount3 rtmax wtmax => exact hsame _
  | mount4 maxread maxwrite => exact hsame _
  | preadv iov => exact hsame _

/-- Every event keeps the limits in terms of their ghosts. -/
theorem Nfs.Ok.step (h : nfs.Ok) (e : Event) : (nfs.step e).1.Ok := by
  have hcall : ∀ (v : Version) (e : Event), nfs.version = some v → (nfs.act v e).1.Ok := by
    intro v e hv
    obtain ⟨h1,h2,h3⟩ := nfs.act_same v e
    refine ⟨h2 ▸ h.readmax,h3 ▸ h.writemax,?_⟩
    intro hn
    rw [h1,hv] at hn
    simp at hn
  have hact : ∀ e : Event, (match nfs.version with
      | none => (nfs,[])
      | some v => nfs.act v e : Nfs × List Request).1.Ok := by
    intro e
    split
    · exact h
    · rename_i v hv
      exact hcall v e hv
  cases e with
  | setReadmax n => exact ⟨nfs.readmax.bySetter_ok n,h.writemax,fun hn => ⟨rfl,(h.fresh hn).2⟩⟩
  | setWritemax n => exact ⟨h.readmax,nfs.writemax.bySetter_ok n,fun hn => ⟨(h.fresh hn).1,rfl⟩⟩
  | mount3 rtmax wtmax =>
    simp only [Nfs.step]
    split
    · rename_i hn
      obtain ⟨hr,hw⟩ := h.fresh hn
      have hb := h.readmax.bounds
      have hb' := h.writemax.bounds
      rw [nfs3Mount6Cb,if_neg (by omega)]
      dsimp only
      rw [if_neg (by omega)]
      exact ⟨h.readmax.byFsinfo hr rtmax,h.writemax.byFsinfo hw wtmax,by simp⟩
    · exact h
  | mount4 maxread maxwrite =>
    simp only [Nfs.step]
    split
    · exact ⟨h.readmax.byRwmax maxread,h.writemax.byRwmax maxwrite,by simp [nfsParseRwmax]⟩
    · exact h
  | pread count => exact hact _
  | read count => exact hact _
  | preadv iov => exact hact _
  | pwrite count => exact hact _
  | write isAppend count => exact hact _
  | readReply i status => exact hact _
  | writeReply i written => exact hact _
  | appendReply i ok => exact hact _

theorem Nfs.after_ok (es : List Event) : (Nfs.after es).Ok := by
  induction es using List.reverseRecOn with
  | nil => exact init_ok
  | append_singleton es e ih =>
    rw [after,List.foldl_append]
    exact ih.step e

/-! The requests. -/

theorem cut_eq (count max : ℕ) : cut count max = min count max := by
  unfold cut
  split <;> omega

theorem chunk_eq {count max : ℕ} (h : max ≠ 0) : chunk count max = min count max := by
  unfold chunk
  split <;> omega

theorem Limit.Ok.count3_min (h : l.Ok) (count : ℕ) : count3 (min count l.max) = min count l.max := by
  have hb := h.bounds
  unfold nfsMinXferSize nfsMaxXferSize at hb
  unfold count3
  omega

/-- A request that is cut to the limit -/
theorem Limit.Ok.allows (h : l.Ok) (count : ℕ) : min count l.max ≤ l.least ↔ l.Allows count := by
  rw [Limit.Allows,← h.le_least,min_le_iff,or_comm]

theorem Nfs.Ok.preadInternal_within (h : nfs.Ok) (v : Version) {c count : ℕ}
    (hc : c = min count nfs.readmax.max) :
    (∀ r ∈ nfs.preadInternal v c, r.Within nfs) ↔ nfs.readmax.Allows count := by
  rw [← h.readmax.allows,hc]
  cases v
  · simp [preadInternal,Request.Within,cut_eq,h.readmax.count3_min]
  · simp [preadInternal,Request.Within,h.readmax.count3_min]

theorem Nfs.Ok.pread_within (h : nfs.Ok) (v : Version) (count : ℕ) :
    (∀ r ∈ (nfs.pread v count).2, r.Within nfs) ↔ nfs.readmax.Allows count := by
  have hb := h.readmax.bounds
  unfold nfsMinXferSize at hb
  unfold pread
  split
  · exact h.preadInternal_within v (by omega)
  · exact h.preadInternal_within v (chunk_eq (by omega))

theorem Nfs.Ok.preadv_within (h : nfs.Ok) (v : Version) (iov : List ℕ) :
    (∀ r ∈ nfs.preadv v iov, r.Within nfs) ↔ nfs.readmax.Fits v (iovLength iov) := by
  cases v
  · simp [preadv,Request.Within,cut_eq,h.readmax.count3_min,Limit.Fits,h.readmax.allows]
  · simp [preadv,Request.Within,Limit.Fits]

/-- One WRITE is enough for a count that was cut. -/
theorem Nfs.pwriteLoop_cut (count max : ℕ) :
    pwriteLoop max (cut count max+1) (cut count max) = [min count max] := by
  simp [pwriteLoop,cut_eq]

theorem Nfs.Ok.pwrite_within (h : nfs.Ok) (v : Version) (count : ℕ) (p : List Pending) :
    (∀ r ∈ (({ nfs with pending := p } : Nfs).pwrite v count).2, r.Within nfs) ↔
      nfs.writemax.Fits v count := by
  cases v
  · simp [pwrite,pwriteLoop_cut,Request.Within,h.writemax.count3_min,Limit.Fits,h.writemax.allows]
  · simp [pwrite,Request.Within,Limit.Fits]

/-- The requests of a call or a reply are within the bounds if and only if it meets them. -/
theorem Nfs.Ok.act_within (h : nfs.Ok) (v : Version) (e : Event) :
    (∀ r ∈ (nfs.act v e).2, r.Within nfs) ↔ Meets nfs v e := by
  cases e with
  | pread count => exact h.pread_within v count
  | read count => exact h.pread_within v count
  | preadv iov => exact h.preadv_within v iov
  | pwrite count => exact h.pwrite_within v count nfs.pending
  | write isAppend count =>
    cases isAppend
    · exact h.pwrite_within v count nfs.pending
    · simp [act,Meets]
  | readReply i status =>
    simp only [act,Meets]
    rcases hp : nfs.pending[i]? with _ | (remaining | count | count)
    · simp
    · have hb := h.readmax.bounds
      unfold nfsMinXferSize at hb
      simp only [rCb]
      rcases hr : nfs.rest remaining status with _ | rest
      · simp only [List.not_mem_nil,false_implies,implies_true,true_iff]
        rintro _ rest he hr'
        cases he
        rw [hr] at hr'
        simp at hr'
      · simp only [h.preadInternal_within v (chunk_eq (show nfs.readmax.max ≠ 0 by omega))]
        constructor
        · rintro ha _ _ he hr'
          cases he
          rw [hr] at hr'
          cases hr'
          exact ha
        · exact fun ha => ha remaining rest rfl hr
    · simp
    · simp
  | writeReply i written =>
    simp only [act]
    rcases hp : nfs.pending[i]? with _ | (remaining | count | count)
    · cases written <;> simp [Meets,hp]
    · cases written <;> simp [Meets,hp]
    · rcases written with _ | n
      · simp [pwriteMcb,Meets]
      · simp only [pwriteMcb,Option.getD_some,Meets,hp,Option.some.injEq,Pending.pwriteMcb.injEq]
        split
        · rename_i hn
          simp only [List.mem_singleton,forall_eq,Request.Within]
          constructor
          · rintro hle _ rfl - -
            exact hle
          · exact fun hle => hle count rfl hn.1 hn.2
        · rename_i hn
          simp only [List.not_mem_nil,false_implies,implies_true,true_iff]
          rintro _ rfl h0 hlt
          exact absurd ⟨h0,hlt⟩ hn
    · cases written <;> simp [Meets,hp]
  | appendReply i ok =>
    simp only [act]
    rcases hp : nfs.pending[i]? with _ | (remaining | count | count)
    · cases ok <;> simp [Meets,hp]
    · cases ok <;> simp [Meets,hp]
    · cases ok <;> simp [Meets,hp]
    · cases ok
      · simp [Meets]
      · simp only [Meets,hp,Option.some.injEq,Pending.append.injEq,forall_eq',if_true]
        exact h.pwrite_within v count (nfs.done i).pending
  | setReadmax n => simp [act,Meets]
  | setWritemax n => simp [act,Meets]
  | mount3 rtmax wtmax => simp [act,Meets]
  | mount4 maxread maxwrite => simp [act,Meets]

/-- After every run, what the next event sends is within the setting and the maximum of the server
if and only if the context is not mounted yet or the event meets the bounds. -/
theorem transfer_size (es : List Event) (e : Event) :
    Conforms (Nfs.after es) e ↔ ∀ v, (Nfs.after es).version = some v → Meets (Nfs.after es) v e := by
  have h := Nfs.after_ok es
  generalize Nfs.after es = nfs at h ⊢
  have hcall : ∀ e : Event, (∀ r ∈ (match nfs.version with
      | none => (nfs,[])
      | some v => nfs.act v e : Nfs × List Request).2, r.Within nfs) ↔
      ∀ v, nfs.version = some v → Meets nfs v e := by
    intro e
    rcases hv : nfs.version with _ | v
    · simp
    · simp only [h.act_within,Option.some.injEq,forall_eq']
  unfold Conforms
  cases e with
  | setReadmax n => simp [Nfs.step,Meets]
  | setWritemax n => simp [Nfs.step,Meets]
  | mount3 rtmax wtmax => simp [Nfs.step,Meets]
  | mount4 maxread maxwrite => simp [Nfs.step,Meets]
  | pread count => exact hcall _
  | read count => exact hcall _
  | preadv iov => exact hcall _
  | pwrite count => exact hcall _
  | write isAppend count => exact hcall _
  | readReply i status => exact hcall _
  | writeReply i written => exact hcall _
  | appendReply i ok => exact hcall _

/-- A server that reads at most 4096 bytes at a time is asked for 8192. -/
theorem transfer_size_exceeded : ¬ ∀ (es : List Event) (e : Event), Conforms (Nfs.after es) e := by
  intro h
  have hread := h [.mount3 4096 4096] (.pread 8192) (.read 8192) (by decide)
  exact absurd hread (show ¬ 8192 ≤ (Nfs.after [.mount3 4096 4096]).readmax.least by decide)

end TransferSize
end Libnfs
