import Libnfs.NestedMounts

/-! The nested mounts of an NFSv3 mount, from the reply to EXPORT on: `nfs3_mount_3_cb` to `nfs3_mount_8_cb`
of `lib/nfs_v3.c`. Every request in flight is answered once, in any order. -/
namespace Libnfs
namespace MountDiscovery

open Normalize NestedMounts

/-- `RPC_STATUS_*` -/
inductive Status
  | success | error | cancel | timeout
  deriving DecidableEq, Repr

/-- `check_nfs3_error`: what the callback of the mount is told -/
def checkNfs3Error : Status → Option ℤ
  | .success => none
  | .error => some (-14)
  | .cancel => some (-4)
  | .timeout => some (-4)

def mountstat3ToErrno (st : ℤ) : ℤ :=
  if st = 0 then 0
  else if st = 1 then -1
  else if st = 2 then -1
  else if st = 5 then -5
  else if st = 13 then -13
  else if st = 20 then -20
  else if st = 22 then -22
  else if st = 63 then -7
  else if st = 10004 then -22
  else if st = 10006 then -5
  else -34

theorem mountstat3ToErrno_ne {st : ℤ} (h : st ≠ 0) : mountstat3ToErrno st ≠ 0 := by
  unfold mountstat3ToErrno
  rw [if_neg h]
  repeat' split
  all_goals decide

/-- A path that a nested mount can have -/
abbrev MountPath := { path : Path // path.head? = some '/' }

/-- A reply to MNT, and whether `nfs3_mount_4_cb` gets its memory -/
structure MntReply where
  status : Status
  fhsStatus : ℤ
  fhandle : List UInt8
  mntAlloc : Bool
  fhAlloc : Bool
  deriving DecidableEq

/-- What is in flight; the tag tells requests of one kind apart. -/
inductive Request
  | mnt (tag : ℕ) (path : MountPath)
  | connect
  | fsinfo
  | getattr
  | nestedGetattr (tag : ℕ)
  deriving DecidableEq

/-- `struct mount_discovery_cb` -/
structure MdCb where
  waitCount : ℤ
  error : ℤ
  status : Status
  deriving DecidableEq

/-- `nested_mounts` with the attributes that are known, `wait_count` of `struct mount_attr_cb`, and the results
that the callback of the mount was given -/
structure St (α : Type) where
  outstanding : List Request
  md : Option MdCb
  ma : Option ℤ
  nestedMounts : List (NestedMount × Option α)
  calls : List ℤ

variable {α : Type}

def St.call (s : St α) (err : ℤ) : St α := { s with calls := s.calls ++ [err] }

/-- Which of the allocations work, and the submission, in a round of the loop -/
structure Attempt where
  item : Bool
  path : Bool
  md : Bool
  submit : Bool

/-- The loop of `nfs3_mount_3_cb`. A `continue` after a failure comes back to the same export; `k` counts
the rounds for it. -/
def mount3Loop (export_ : Path) (he : export_ ≠ []) (attempts : ℕ → ℕ → Attempt) :
    ℕ → ℕ → ℕ → List Path → Option MdCb → List Request → Option (Option MdCb × List Request)
  | _, _, _, [], md, reqs => some (md,reqs)
  | 0, _, _, _ :: _, _, _ => none
  | fuel+1, i, k, exDir :: res, md, reqs =>
    match h : nestedPath export_ exDir with
    | none => mount3Loop export_ he attempts fuel (i+1) 0 res md reqs
    | some path =>
      let a := attempts i k
      if ¬ a.item then mount3Loop export_ he attempts fuel i (k+1) (exDir :: res) md reqs
      else if ¬ a.path then mount3Loop export_ he attempts fuel i (k+1) (exDir :: res) md reqs
      else if md = none ∧ ¬ a.md then mount3Loop export_ he attempts fuel i (k+1) (exDir :: res) md reqs
      else
        let mdCb := md.getD ⟨0,0,.success⟩
        if ¬ a.submit then
          mount3Loop export_ he attempts fuel i (k+1) (exDir :: res) (if mdCb.waitCount = 0 then none else some mdCb) reqs
        else
          mount3Loop export_ he attempts fuel (i+1) 0 res (some { mdCb with waitCount := mdCb.waitCount+1 })
            (reqs ++ [.mnt i ⟨path,nestedPath_absolute he h⟩])

/-- `rpc_connect_port_async` or `rpc_connect_program_async`, which may fail -/
def St.reconnect (connects : Bool) (s : St α) : St α :=
  if connects then { s with outstanding := s.outstanding ++ [.connect] } else s.call (-12)

/-- `nfs3_mount_3_cb`; `none` while the loop goes on. -/
def nfs3Mount3Cb (export_ : Path) (attempts : ℕ → ℕ → Attempt) (connects : Bool) (fuel : ℕ) (status : Status)
    (exports : List Path) : Option (St α) :=
  let s : St α := ⟨[],none,none,[],[]⟩
  match checkNfs3Error status with
  | some err => some (s.call err)
  | none =>
    if he : export_ = [] then some (s.call (-14))
    else
      match mount3Loop export_ he attempts fuel 0 0 exports none [] with
      | none => none
      | some (some md,reqs) => some { s with outstanding := reqs, md := some md }
      | some (none,_) => some (s.reconnect connects)

/-- What the replies to MNT leave behind -/
structure Tally where
  error : ℤ
  status : Status
  mounts : List NestedMount

/-- `nfs3_mount_4_cb` up to `finished` -/
def Tally.record (d : Tally) (r : MountPath × MntReply) : Tally :=
  match r.2.status with
  | .error => { d with error := -14 }
  | .cancel => { d with status := .cancel }
  | .timeout => { d with status := .timeout }
  | .success =>
    if r.2.fhsStatus ≠ 0 then { d with error := mountstat3ToErrno r.2.fhsStatus }
    else if ¬ r.2.mntAlloc then { d with error := -12 }
    else if ¬ r.2.fhAlloc then d
    else { d with mounts := ⟨r.1,r.2.fhandle,r.1.2⟩ :: d.mounts }

/-- `nfs3_mount_4_cb` -/
def nfs3Mount4Cb (connects : Bool) (path : MountPath) (reply : MntReply) (s : St α) : St α :=
  match s.md with
  | none => s
  | some md =>
    let d := Tally.record ⟨md.error,md.status,[]⟩ (path,reply)
    let md : MdCb := ⟨md.waitCount-1,d.error,d.status⟩
    let s := { s with nestedMounts := d.mounts.map (·,none) ++ s.nestedMounts }
    if md.waitCount > 0 then { s with md := some md }
    else
      let s := { s with md := none }
      if md.status = .cancel then s.call (-4)
      else if md.error ≠ 0 then s.call md.error
      else s.reconnect connects

/-- `nfs3_mount_5_cb` -/
def nfs3Mount5Cb (status : Status) (submits : Bool) (s : St α) : St α :=
  match checkNfs3Error status with
  | some err => s.call err
  | none => if submits then { s with outstanding := s.outstanding ++ [.fsinfo] } else s.call (-12)

/-- `nfs3_mount_6_cb`; `failure` is what it reports for the reply to FSINFO. -/
def nfs3Mount6Cb (failure : Option ℤ) (submits : Bool) (s : St α) : St α :=
  match failure with
  | some err => s.call err
  | none => if submits then { s with outstanding := s.outstanding ++ [.getattr] } else s.call (-12)

/-- What happens to the GETATTR of a nested mount in `nfs3_mount_7_cb` -/
inductive Item
  | noItem | noSubmit | sent
  deriving DecidableEq

/-- The loop of `nfs3_mount_7_cb`, over as many nested mounts, the first with the number `i` -/
def mount7Loop (items : ℕ → Item) : ℕ → ℕ → List Request
  | _, 0 => []
  | i, n+1 =>
    match items i with
    | .noItem => []
    | .noSubmit => mount7Loop items (i+1) n
    | .sent => .nestedGetattr i :: mount7Loop items (i+1) n

/-- `nfs3_mount_7_cb` -/
def nfs3Mount7Cb (status : Status) (maAlloc : Bool) (items : ℕ → Item) (s : St α) : St α :=
  match checkNfs3Error status with
  | some err => s.call err
  | none =>
    if s.nestedMounts = [] ∨ ¬ maAlloc then s.call 0
    else
      let reqs := mount7Loop items 0 s.nestedMounts.length
      if reqs = [] then s.call 0
      else { s with outstanding := s.outstanding ++ reqs, ma := some reqs.length }

/-- `nfs3_mount_8_cb`; the attributes come with a reply that is not an error. -/
def nfs3Mount8Cb (tag : ℕ) (attr : Option α) (s : St α) : St α :=
  match s.ma with
  | none => s
  | some w =>
    let s := match attr with
      | none => s
      | some a => { s with nestedMounts := s.nestedMounts.modify tag fun m => (m.1,some a) }
    if w-1 > 0 then { s with ma := some (w-1) }
    else { s with ma := none }.call 0

/-- A request is answered. -/
inductive Event (α : Type)
  | mnt (tag : ℕ) (path : MountPath) (reply : MntReply)
  | connect (status : Status) (submits : Bool)
  | fsinfo (failure : Option ℤ) (submits : Bool)
  | getattr (status : Status) (maAlloc : Bool) (items : ℕ → Item)
  | nestedGetattr (tag : ℕ) (attr : Option α)

def Event.request : Event α → Request
  | .mnt tag path _ => .mnt tag path
  | .connect _ _ => .connect
  | .fsinfo _ _ => .fsinfo
  | .getattr _ _ _ => .getattr
  | .nestedGetattr tag _ => .nestedGetattr tag

def Event.handle (connects : Bool) : Event α → St α → St α
  | .mnt _ path reply => nfs3Mount4Cb connects path reply
  | .connect status submits => nfs3Mount5Cb status submits
  | .fsinfo failure submits => nfs3Mount6Cb failure submits
  | .getattr status maAlloc items => nfs3Mount7Cb status maAlloc items
  | .nestedGetattr tag attr => nfs3Mount8Cb tag attr

/-- The answer to a request in flight -/
def step (connects : Bool) (s : St α) (e : Event α) : Option (St α) :=
  if e.request ∈ s.outstanding then some (e.handle connects { s with outstanding := s.outstanding.erase e.request })
  else none

def Request.isMnt : Request → Bool
  | .mnt _ _ => true
  | _ => false

def Request.isNestedGetattr : Request → Bool
  | .nestedGetattr _ => true
  | _ => false

section Loop

variable {export_ : Path} {he : export_ ≠ []} {attempts : ℕ → ℕ → Attempt}

/-- One MNT for every export below the mounted one -/
def nestedRequests (export_ : Path) (he : export_ ≠ []) : ℕ → List Path → List Request
  | _, [] => []
  | i, exDir :: res =>
    match h : nestedPath export_ exDir with
    | none => nestedRequests export_ he (i+1) res
    | some path => .mnt i ⟨path,nestedPath_absolute he h⟩ :: nestedRequests export_ he (i+1) res

/-- The MNT is sent; the first one needs memory for what they share. -/
def Attempt.Works (a : Attempt) (first : Bool) : Prop := a.item ∧ a.path ∧ (first → a.md) ∧ a.submit

/-- No nested export is tried in vain forever. -/
def AllSubmitted (export_ : Path) (attempts : ℕ → ℕ → Attempt) : Bool → ℕ → List Path → Prop
  | _, _, [] => True
  | first, i, exDir :: res =>
    if (nestedPath export_ exDir).isSome then
      (∃ k, (attempts i k).Works first) ∧ AllSubmitted export_ attempts false (i+1) res
    else AllSubmitted export_ attempts first (i+1) res

def mdOf (reqs : List Request) : Option MdCb :=
  if reqs = [] then none else some ⟨reqs.length,0,.success⟩

theorem mdOf_append (reqs : List Request) (r : Request) :
    mdOf (reqs ++ [r]) = some { (mdOf reqs).getD ⟨0,0,.success⟩ with
      waitCount := ((mdOf reqs).getD ⟨0,0,.success⟩).waitCount+1 } := by
  unfold mdOf
  cases reqs <;> simp

/-- A round of the loop for a nested export -/
theorem mount3Loop_round {fuel i k : ℕ} {exDir path : Path} {res : List Path} {reqs : List Request}
    (h : nestedPath export_ exDir = some path) :
    mount3Loop export_ he attempts (fuel+1) i k (exDir :: res) (mdOf reqs) reqs =
        mount3Loop export_ he attempts fuel (i+1) 0 res (mdOf (reqs ++ [.mnt i ⟨path,nestedPath_absolute he h⟩]))
          (reqs ++ [.mnt i ⟨path,nestedPath_absolute he h⟩]) ∧ (attempts i k).Works (reqs = []) ∨
    mount3Loop export_ he attempts (fuel+1) i k (exDir :: res) (mdOf reqs) reqs =
        mount3Loop export_ he attempts fuel i (k+1) (exDir :: res) (mdOf reqs) reqs ∧
      ¬ (attempts i k).Works (reqs = []) := by
  have hnone : mdOf reqs = none ↔ reqs = [] := by
    unfold mdOf
    split <;> simp_all
  rw [mount3Loop]
  split
  · rename_i h'
    simp [h] at h'
  · rename_i path' h'
    obtain rfl : path = path' := Option.some.inj (h.symm.trans h')
    by_cases h1 : (attempts i k).item
    · by_cases h2 : (attempts i k).path
      · by_cases h3 : mdOf reqs = none ∧ ¬ (attempts i k).md
        · right
          refine ⟨by simp [h1,h2,h3],fun hw => h3.2 (hw.2.2.1 (by simpa using hnone.mp h3.1))⟩
        · have h3' : reqs = [] → (attempts i k).md := by
            intro hr
            by_contra hm
            exact h3 ⟨hnone.mpr hr,hm⟩
          by_cases h4 : (attempts i k).submit
          · left
            refine ⟨?_,h1,h2,fun hr => h3' (by simpa using hr),h4⟩
            simp only [h1,h2,h3,h4,not_true_eq_false,if_false,mdOf_append]
          · right
            refine ⟨?_,fun hw => h4 hw.2.2.2⟩
            have hmd : (if ((mdOf reqs).getD ⟨0,0,.success⟩).waitCount = 0 then none
                else some ((mdOf reqs).getD ⟨0,0,.success⟩)) = mdOf reqs := by
              unfold mdOf
              cases reqs <;> simp
              omega
            simp only [h1,h2,h3,hmd,not_true_eq_false,if_false]
            rw [if_pos h4]
      · exact .inr ⟨by simp [h1,h2],fun hw => h2 hw.2.1⟩
    · exact .inr ⟨by simp [h1],fun hw => h1 hw.1⟩

theorem mount3Loop_skip {fuel i k : ℕ} {exDir : Path} {res : List Path} {md : Option MdCb} {reqs : List Request}
    (h : nestedPath export_ exDir = none) :
    mount3Loop export_ he attempts (fuel+1) i k (exDir :: res) md reqs =
      mount3Loop export_ he attempts fuel (i+1) 0 res md reqs := by
  rw [mount3Loop]
  split
  · rfl
  · rename_i h'
    simp [h] at h'

theorem mount3Loop_nil (fuel i k : ℕ) (md : Option MdCb) (reqs : List Request) :
    mount3Loop export_ he attempts fuel i k [] md reqs = some (md,reqs) := by
  cases fuel <;> rfl

/-- The loop comes to its end if every nested export is sent at some time. -/
theorem mount3Loop_ends {i : ℕ} {exports : List Path} {reqs : List Request}
    (h : AllSubmitted export_ attempts (reqs = []) i exports) :
    ∃ fuel r, mount3Loop export_ he attempts fuel i 0 exports (mdOf reqs) reqs = some r := by
  induction exports generalizing i reqs with
  | nil => exact ⟨0,_,mount3Loop_nil ..⟩
  | cons exDir res ih =>
    cases hn : nestedPath export_ exDir with
    | none =>
      rw [AllSubmitted,if_neg (by simp [hn])] at h
      obtain ⟨fuel,r,hr⟩ := ih h
      exact ⟨fuel+1,r,by rw [mount3Loop_skip hn,hr]⟩
    | some path =>
      rw [AllSubmitted,if_pos (by simp [hn])] at h
      obtain ⟨⟨k,hk⟩,hall⟩ := h
      have hback : ∀ j ≤ k, ∃ fuel r, mount3Loop export_ he attempts fuel i (k-j) (exDir :: res) (mdOf reqs) reqs = some r := by
        intro j hj
        induction j with
        | zero =>
          obtain ⟨fuel,r,hr⟩ := @ih (i+1) (reqs ++ [.mnt i ⟨path,nestedPath_absolute he hn⟩]) (by simpa using hall)
          rcases @mount3Loop_round _ he attempts fuel i k _ _ res reqs hn with ⟨hl,-⟩ | ⟨-,hno⟩
          · exact ⟨fuel+1,r,by rw [Nat.sub_zero,hl,hr]⟩
          · exact absurd hk hno
        | succ j ihj =>
          obtain ⟨fuel,r,hr⟩ := ihj (by omega)
          obtain ⟨fuel',r',hr'⟩ := @ih (i+1) (reqs ++ [.mnt i ⟨path,nestedPath_absolute he hn⟩]) (by simpa using hall)
          by_cases hw : (attempts i (k-(j+1))).Works (reqs = [])
          · rcases @mount3Loop_round _ he attempts fuel' i (k-(j+1)) _ _ res reqs hn with ⟨hl,-⟩ | ⟨-,hno⟩
            · exact ⟨fuel'+1,r',by rw [hl,hr']⟩
            · exact absurd hw hno
          · rcases @mount3Loop_round _ he attempts fuel i (k-(j+1)) _ _ res reqs hn with ⟨-,hyes⟩ | ⟨hl,-⟩
            · exact absurd hyes hw
            · refine ⟨fuel+1,r,?_⟩
              rw [hl,show k-(j+1)+1 = k-j by omega,hr]
      obtain ⟨fuel,r,hr⟩ := hback k le_rfl
      rw [Nat.sub_self] at hr
      exact ⟨fuel,r,hr⟩

/-- What the loop ends with: every nested export was sent, and asked for once. -/
theorem mount3Loop_result {fuel i k : ℕ} {exports : List Path} {reqs : List Request} {r : Option MdCb × List Request}
    (h : mount3Loop export_ he attempts fuel i k exports (mdOf reqs) reqs = some r) :
    AllSubmitted export_ attempts (reqs = []) i exports ∧
      r = (mdOf (reqs ++ nestedRequests export_ he i exports),reqs ++ nestedRequests export_ he i exports) := by
  induction fuel generalizing i k exports reqs with
  | zero =>
    cases exports with
    | nil =>
      rw [mount3Loop_nil,Option.some.injEq] at h
      exact ⟨trivial,by simp [nestedRequests,← h]⟩
    | cons exDir res => simp [mount3Loop] at h
  | succ fuel ih =>
    cases exports with
    | nil =>
      rw [mount3Loop_nil,Option.some.injEq] at h
      exact ⟨trivial,by simp [nestedRequests,← h]⟩
    | cons exDir res =>
      cases hn : nestedPath export_ exDir with
      | none =>
        rw [mount3Loop_skip hn] at h
        have hreq : nestedRequests export_ he i (exDir :: res) = nestedRequests export_ he (i+1) res := by
          rw [nestedRequests]
          split
          · rfl
          · rename_i h'
            simp [hn] at h'
        rw [AllSubmitted,if_neg (by simp [hn]),hreq]
        exact ih h
      | some path =>
        rcases @mount3Loop_round _ he attempts fuel i k _ _ res reqs hn with ⟨hl,hw⟩ | ⟨hl,-⟩
        · rw [hl] at h
          obtain ⟨hall,hr⟩ := ih h
          have hreq : nestedRequests export_ he i (exDir :: res) =
              .mnt i ⟨path,nestedPath_absolute he hn⟩ :: nestedRequests export_ he (i+1) res := by
            rw [nestedRequests]
            split
            · rename_i h'
              simp [hn] at h'
            · rename_i path' h'
              obtain rfl : path = path' := Option.some.inj (hn.symm.trans h')
              rfl
          rw [AllSubmitted,if_pos (by simp [hn]),hreq]
          exact ⟨⟨⟨k,hw⟩,by simpa using hall⟩,by simpa using hr⟩
        · rw [hl] at h
          exact ih h

theorem nestedRequests_isMnt (i : ℕ) (exports : List Path) : ∀ r ∈ nestedRequests export_ he i exports, r.isMnt := by
  induction exports generalizing i with
  | nil => simp [nestedRequests]
  | cons exDir res ih =>
    rw [nestedRequests]
    split
    · exact ih (i+1)
    · intro r hr
      rcases List.mem_cons.mp hr with rfl | hr
      · rfl
      · exact ih (i+1) r hr

end Loop

/-- The reply makes the mount fail: an error of the call or of the server, or no memory for the mount. -/
def MntReply.Fails (r : MntReply) : Prop :=
  r.status = .error ∨ r.status = .success ∧ (r.fhsStatus ≠ 0 ∨ ¬ r.mntAlloc)

def isInterrupt (status : Status) : Bool := status = .cancel ∨ status = .timeout

/-- The last interrupted MNT was cancelled. -/
def Cancelled (rs : List (MountPath × MntReply)) : Prop :=
  ((rs.map (·.2.status)).filter isInterrupt).getLast? = some .cancel

/-- In the order of their arrival, the replies let the mount go on. -/
def Tolerated (rs : List (MountPath × MntReply)) : Prop := (∀ r ∈ rs, ¬ r.2.Fails) ∧ ¬ Cancelled rs

/-- The nested mount that a reply gives -/
def mounted (r : MountPath × MntReply) : Option NestedMount :=
  if r.2.status = .success ∧ r.2.fhsStatus = 0 ∧ r.2.mntAlloc ∧ r.2.fhAlloc then some ⟨r.1,r.2.fhandle,r.1.2⟩ else none

section Tally

variable {d : Tally} {r : MountPath × MntReply} {rs : List (MountPath × MntReply)}

theorem record_error : (d.record r).error = 0 ↔ ¬ r.2.Fails ∧ d.error = 0 := by
  unfold Tally.record MntReply.Fails
  cases hs : r.2.status with
  | error => simp
  | cancel => simp
  | timeout => simp
  | success =>
    by_cases h1 : r.2.fhsStatus ≠ 0
    · simp [h1,mountstat3ToErrno_ne h1]
    · by_cases h2 : r.2.mntAlloc
      · by_cases h3 : r.2.fhAlloc <;> simp_all
      · simp_all

theorem record_status : (d.record r).status = if isInterrupt r.2.status then r.2.status else d.status := by
  unfold Tally.record isInterrupt
  cases hs : r.2.status with
  | error => simp
  | cancel => simp
  | timeout => simp
  | success =>
    repeat' split
    all_goals simp_all

theorem record_mounts : (d.record r).mounts = (mounted r).toList ++ d.mounts := by
  unfold Tally.record mounted
  cases hs : r.2.status with
  | error => simp
  | cancel => simp
  | timeout => simp
  | success =>
    repeat' split
    all_goals simp_all

/-- All replies to MNT, in the order of their arrival -/
def tally (rs : List (MountPath × MntReply)) : Tally := rs.foldl Tally.record ⟨0,.success,[]⟩

theorem tally_append : tally (rs ++ [r]) = (tally rs).record r := by
  simp [tally]

theorem tally_error : (tally rs).error = 0 ↔ ∀ r ∈ rs, ¬ r.2.Fails := by
  induction rs using List.reverseRecOn with
  | nil => simp [tally]
  | append_singleton rs r ih =>
    rw [tally_append,record_error,ih]
    simp only [List.mem_append,List.mem_singleton]
    exact ⟨fun h s hs => hs.elim (h.2 s) (fun e => e ▸ h.1),fun h => ⟨h r (.inr rfl),fun s hs => h s (.inl hs)⟩⟩

theorem tally_status : (tally rs).status = (((rs.map (·.2.status)).filter isInterrupt).getLast?).getD .success := by
  induction rs using List.reverseRecOn with
  | nil => rfl
  | append_singleton rs r ih =>
    rw [tally_append,record_status,ih,List.map_append,List.filter_append]
    by_cases h : isInterrupt r.2.status <;> simp [h]

theorem tally_cancel : (tally rs).status = .cancel ↔ Cancelled rs := by
  rw [tally_status,Cancelled]
  cases ((rs.map (·.2.status)).filter isInterrupt).getLast? <;> simp

theorem tally_mounts : (tally rs).mounts = (rs.filterMap mounted).reverse := by
  induction rs using List.reverseRecOn with
  | nil => rfl
  | append_singleton rs r ih =>
    rw [tally_append,record_mounts,ih]
    cases h : mounted r <;> simp [h]

end Tally

/-- The replies to MNT in a run -/
def replies (evs : List (Event α)) : List (MountPath × MntReply) :=
  evs.filterMap fun
    | .mnt _ path reply => some (path,reply)
    | _ => none

/-- The answered MNTs of a run -/
def answered (evs : List (Event α)) : List Request := (evs.map Event.request).filter Request.isMnt

/-- The steps of the mount that are not about nested mounts work. -/
def Event.BaseOk : Event α → Prop
  | .connect status submits => status = .success ∧ submits
  | .fsinfo failure submits => failure = none ∧ submits
  | .getattr status _ _ => status = .success
  | _ => True

/-- How far the mount is, `asked` being the MNTs that were sent -/
inductive Phase (connects : Bool) (asked : List Request) (evs : List (Event α)) : St α → Prop
  | discovering {reqs : List Request} : reqs ≠ [] → (∀ r ∈ reqs, r.isMnt) → (answered evs ++ reqs).Perm asked →
      Phase connects asked evs ⟨reqs,some ⟨reqs.length,(tally (replies evs)).error,(tally (replies evs)).status⟩,none,
        (tally (replies evs)).mounts.map (·,none),[]⟩
  | base {r : Request} : r ∈ [Request.connect,.fsinfo,.getattr] → (answered evs).Perm asked → Tolerated (replies evs) →
      connects →
      Phase connects asked evs ⟨[r],none,none,(tally (replies evs)).mounts.map (·,none),[]⟩
  | attributes {reqs : List Request} {mounts : List (NestedMount × Option α)} : reqs ≠ [] →
      (∀ r ∈ reqs, r.isNestedGetattr) → (answered evs).Perm asked → Tolerated (replies evs) →
      mounts.map (·.1) = (tally (replies evs)).mounts → Phase connects asked evs ⟨reqs,none,some reqs.length,mounts,[]⟩
  | done {mounts : List (NestedMount × Option α)} {err : ℤ} : (answered evs).Perm asked →
      mounts.map (·.1) = (tally (replies evs)).mounts → (err = 0 → Tolerated (replies evs)) →
      (connects → (∀ e ∈ evs, e.BaseOk) → Tolerated (replies evs) → err = 0) →
      Phase connects asked evs ⟨[],none,none,mounts,[err]⟩

theorem map_unknown (mounts : List NestedMount) : (mounts.map fun m => (m,(none : Option α))).map (·.1) = mounts := by
  simp [Function.comp_def]

section Run

variable {connects : Bool} {asked : List Request} {evs : List (Event α)} {s t : St α} {e : Event α}

theorem replies_append_mnt (evs : List (Event α)) (tag : ℕ) (path : MountPath) (reply : MntReply) :
    replies (evs ++ [.mnt tag path reply]) = replies evs ++ [(path,reply)] ∧
      answered (evs ++ [.mnt tag path reply]) = answered evs ++ [.mnt tag path] := by
  simp [replies,answered,Event.request,Request.isMnt]

theorem replies_append_other (evs : List (Event α)) (h : e.request.isMnt = false) :
    replies (evs ++ [e]) = replies evs ∧ answered (evs ++ [e]) = answered evs := by
  cases e <;> simp_all [replies,answered,Event.request,Request.isMnt]

/-- What `nfs3_mount_4_cb` takes off the request adds to the tally. -/
theorem record_tally (rs : List (MountPath × MntReply)) (r : MountPath × MntReply) :
    (Tally.record ⟨(tally rs).error,(tally rs).status,[]⟩ r).error = (tally (rs ++ [r])).error ∧
    (Tally.record ⟨(tally rs).error,(tally rs).status,[]⟩ r).status = (tally (rs ++ [r])).status ∧
    (Tally.record ⟨(tally rs).error,(tally rs).status,[]⟩ r).mounts ++ (tally rs).mounts = (tally (rs ++ [r])).mounts := by
  rw [tally_append,record_mounts,record_mounts,record_status,record_status]
  refine ⟨?_,rfl,by simp⟩
  unfold Tally.record
  repeat' split
  all_goals rfl

theorem reconnect_phase {mounts : List (NestedMount × Option α)} (hmounts : mounts = (tally (replies evs)).mounts.map (·,none))
    (ha : (answered evs).Perm asked) (ht : Tolerated (replies evs)) :
    Phase connects asked evs (St.reconnect connects ⟨[],none,none,mounts,[]⟩) := by
  subst hmounts
  unfold St.reconnect
  split
  · rename_i hc
    exact .base (by simp) ha ht hc
  · rename_i hc
    exact .done ha (map_unknown _) (fun h => by simp at h) fun h => absurd h hc

/-- A reply to MNT -/
theorem mnt_phase {reqs : List Request} {tag : ℕ} {path : MountPath} {reply : MntReply} (hmem : .mnt tag path ∈ reqs)
    (hall : ∀ r ∈ reqs, r.isMnt) (ha : (answered evs ++ reqs).Perm asked) :
    Phase connects asked (evs ++ [.mnt tag path reply]) (nfs3Mount4Cb connects path reply
      ⟨reqs.erase (.mnt tag path),some ⟨reqs.length,(tally (replies evs)).error,(tally (replies evs)).status⟩,none,
        (tally (replies evs)).mounts.map (·,none),[]⟩) := by
  obtain ⟨hr,hans⟩ := replies_append_mnt evs tag path reply
  obtain ⟨he,hst,hm⟩ := record_tally (replies evs) (path,reply)
  have hperm : (answered (evs ++ [.mnt tag path reply]) ++ reqs.erase (.mnt tag path)).Perm asked := by
    rw [hans,List.append_assoc]
    exact ((List.perm_cons_erase hmem).symm.append_left _).trans ha
  have hlen := List.length_erase_of_mem hmem
  have hpos : 0 < reqs.length := List.length_pos_of_mem hmem
  have hmounts : (Tally.record ⟨(tally (replies evs)).error,(tally (replies evs)).status,[]⟩ (path,reply)).mounts.map
      (fun m => (m,(none : Option α))) ++ (tally (replies evs)).mounts.map (·,none) =
      (tally (replies (evs ++ [.mnt tag path reply]))).mounts.map (·,none) := by
    rw [hr,← hm,List.map_append]
  unfold nfs3Mount4Cb
  simp only [he,hst,hmounts]
  rw [← hr]
  generalize hev : evs ++ [Event.mnt tag path reply] = evs' at hperm hmounts ⊢
  by_cases hw : (reqs.length : ℤ)-1 > 0
  · rw [if_pos hw]
    have hcount : (reqs.length : ℤ)-1 = ((reqs.erase (.mnt tag path)).length : ℤ) := by omega
    rw [hcount]
    exact .discovering (fun h => by simp [h] at hlen; omega) (fun r hr' => hall r (List.mem_of_mem_erase hr')) hperm
  · rw [if_neg hw]
    have hnil : reqs.erase (.mnt tag path) = [] := List.length_eq_zero_iff.mp (by omega)
    rw [hnil,List.append_nil] at hperm
    rw [hnil]
    by_cases hcancel : (tally (replies evs')).status = .cancel
    · rw [if_pos hcancel]
      exact .done hperm (map_unknown _) (fun h => by simp at h) fun _ _ ht => absurd (tally_cancel.mp hcancel) ht.2
    · rw [if_neg hcancel]
      by_cases herr : (tally (replies evs')).error ≠ 0
      · rw [if_pos herr]
        exact .done hperm (map_unknown _) (fun h => absurd h herr) fun _ _ ht => absurd (tally_error.mpr ht.1) herr
      · rw [if_neg herr]
        exact reconnect_phase rfl hperm ⟨tally_error.mp (not_not.mp herr),tally_cancel.not.mp hcancel⟩

theorem mount7Loop_nested (items : ℕ → Item) (i n : ℕ) : ∀ r ∈ mount7Loop items i n, r.isNestedGetattr := by
  induction n generalizing i with
  | zero => simp [mount7Loop]
  | succ n ih =>
    rw [mount7Loop]
    cases items i with
    | noItem => simp
    | noSubmit => exact ih (i+1)
    | sent =>
      intro r hr
      rcases List.mem_cons.mp hr with rfl | hr
      · rfl
      · exact ih (i+1) r hr

/-- The reply to the GETATTR of the root -/
theorem getattr_phase {maAlloc : Bool} {items : ℕ → Item} (ha : (answered evs).Perm asked) (ht : Tolerated (replies evs)) :
    Phase connects asked evs (nfs3Mount7Cb .success maAlloc items
      ⟨[],none,none,(tally (replies evs)).mounts.map (·,none),[]⟩) := by
  have hdone : Phase connects asked evs ⟨[],none,none,(tally (replies evs)).mounts.map (·,none),[(0 : ℤ)]⟩ :=
    .done ha (map_unknown _) (fun _ => ht) fun _ _ _ => rfl
  unfold nfs3Mount7Cb
  simp only [checkNfs3Error]
  split
  · exact hdone
  · split
    · exact hdone
    · rename_i hreqs
      exact .attributes hreqs (mount7Loop_nested items 0 _) ha ht (map_unknown _)

/-- The reply to the GETATTR of a nested mount -/
theorem nestedGetattr_phase {reqs : List Request} {mounts : List (NestedMount × Option α)} {tag : ℕ} {attr : Option α}
    (hmem : .nestedGetattr tag ∈ reqs) (hall : ∀ r ∈ reqs, r.isNestedGetattr) (ha : (answered evs).Perm asked)
    (ht : Tolerated (replies evs)) (hm : mounts.map (·.1) = (tally (replies evs)).mounts) :
    Phase connects asked (evs ++ [.nestedGetattr tag attr]) (nfs3Mount8Cb tag attr
      ⟨reqs.erase (.nestedGetattr tag),none,some reqs.length,mounts,[]⟩) := by
  obtain ⟨hrep,hans⟩ := @replies_append_other _ (.nestedGetattr tag attr) evs rfl
  rw [← hans] at ha
  rw [← hrep] at ht hm
  have hlen := List.length_erase_of_mem hmem
  have hpos : 0 < reqs.length := List.length_pos_of_mem hmem
  obtain ⟨mounts',hm',he⟩ : ∃ mounts' : List (NestedMount × Option α),
      mounts'.map (·.1) = (tally (replies (evs ++ [.nestedGetattr tag attr]))).mounts ∧
      (match attr with
        | none => (⟨reqs.erase (.nestedGetattr tag),none,some reqs.length,mounts,[]⟩ : St α)
        | some a => ⟨reqs.erase (.nestedGetattr tag),none,some reqs.length,mounts.modify tag fun m => (m.1,some a),[]⟩) =
        ⟨reqs.erase (.nestedGetattr tag),none,some reqs.length,mounts',[]⟩ := by
    cases attr with
    | none => exact ⟨mounts,hm,rfl⟩
    | some a =>
      refine ⟨_,?_,rfl⟩
      rw [← hm]
      apply List.ext_getElem (by simp)
      intro i h1 h2
      simp only [List.getElem_map,List.getElem_modify]
      split <;> rfl
  unfold nfs3Mount8Cb
  simp only [he]
  by_cases hw : (reqs.length : ℤ)-1 > 0
  · rw [if_pos hw]
    have hcount : (reqs.length : ℤ)-1 = ((reqs.erase (.nestedGetattr tag)).length : ℤ) := by omega
    rw [hcount]
    exact .attributes (fun h => by simp [h] at hlen; omega) (fun r hr => hall r (List.mem_of_mem_erase hr)) ha ht hm'
  · rw [if_neg hw,List.length_eq_zero_iff.mp (show (reqs.erase (.nestedGetattr tag)).length = 0 by omega)]
    exact .done ha hm' (fun _ => ht) fun _ _ _ => rfl

/-- Every answer takes the mount from one phase to the next. -/
theorem Phase.step (h : Phase connects asked evs s) (hs : step connects s e = some t) :
    Phase connects asked (evs ++ [e]) t := by
  unfold MountDiscovery.step at hs
  split at hs
  · rename_i hmem
    obtain rfl := Option.some.inj hs
    cases h with
    | discovering hne hall ha =>
      have hmnt := hall _ hmem
      cases e with
      | mnt tag path reply => exact mnt_phase hmem hall ha
      | connect | fsinfo | getattr | nestedGetattr => simp [Event.request,Request.isMnt] at hmnt
    | @base r hr ha ht hc =>
      have her : e.request = r := by simpa using hmem
      have hother : e.request.isMnt = false := by
        rw [her]
        simp only [List.mem_cons,List.not_mem_nil,or_false] at hr
        rcases hr with rfl | rfl | rfl <;> rfl
      obtain ⟨hrep,hans⟩ := replies_append_other evs hother
      rw [← hans] at ha
      rw [← hrep] at ht ⊢
      have hfail : ∀ {err : ℤ}, ¬ e.BaseOk → Phase connects asked (evs ++ [e])
          ⟨[],none,none,(tally (replies (evs ++ [e]))).mounts.map (·,none),[err]⟩ := fun hno =>
        .done ha (map_unknown _) (fun _ => ht) fun _ hall _ => absurd (hall e (by simp)) hno
      have hnil : [r].erase e.request = [] := by simp [her]
      simp only [hnil]
      cases e with
      | mnt => simp [Event.request,Request.isMnt] at hother
      | nestedGetattr =>
        subst her
        simp [Event.request] at hr
      | connect status submits =>
        cases status <;> cases submits
        case success.true => exact .base (by simp) ha ht hc
        all_goals exact hfail (by simp [Event.BaseOk])
      | fsinfo failure submits =>
        cases failure with
        | some err => exact hfail (by simp [Event.BaseOk])
        | none =>
          cases submits with
          | true => exact .base (by simp) ha ht hc
          | false => exact hfail (by simp [Event.BaseOk])
      | getattr status maAlloc items =>
        cases status
        case success => exact getattr_phase ha ht
        all_goals exact hfail (by simp [Event.BaseOk])
    | attributes hne hall ha ht hm =>
      have hnested := hall _ hmem
      cases e with
      | nestedGetattr tag attr => exact nestedGetattr_phase hmem hall ha ht hm
      | mnt | connect | fsinfo | getattr => simp [Event.request,Request.isNestedGetattr] at hnested
    | done =>
      simp at hmem
  · simp at hs

theorem Phase.run {evs' : List (Event α)} (h : Phase connects asked evs s)
    (hr : evs'.foldlM (MountDiscovery.step connects) s = some t) : Phase connects asked (evs ++ evs') t := by
  induction evs' generalizing evs s with
  | nil =>
    obtain rfl := Option.some.inj hr
    rwa [List.append_nil]
  | cons e evs' ih =>
    rw [List.foldlM_cons] at hr
    cases hs : MountDiscovery.step connects s e with
    | none => simp [hs] at hr
    | some s' =>
      rw [hs] at hr
      have := ih (h.step hs) hr
      rwa [List.append_assoc] at this

/-- The phase that the reply to EXPORT leads to -/
theorem start_phase {export_ : Path} (he : export_ ≠ []) {attempts : ℕ → ℕ → Attempt} {fuel : ℕ} {exports : List Path}
    (h : nfs3Mount3Cb export_ attempts connects fuel .success exports = some s) :
    Phase connects (nestedRequests export_ he 0 exports) [] s := by
  have hnone : mdOf [] = none := rfl
  unfold nfs3Mount3Cb at h
  simp only [checkNfs3Error,dif_neg he] at h
  cases hl : mount3Loop export_ he attempts fuel 0 0 exports none [] with
  | none => simp [hl] at h
  | some r =>
    rw [← hnone] at hl
    obtain ⟨-,hr⟩ := mount3Loop_result hl
    rw [List.nil_append] at hr
    rw [← hnone,hl,hr] at h
    by_cases hreqs : nestedRequests export_ he 0 exports = []
    · simp only [mdOf,hreqs,if_true] at h
      obtain rfl := Option.some.inj h
      rw [hreqs]
      refine reconnect_phase rfl (by simp [answered]) ?_
      simp [Tolerated,Cancelled,replies]
    · simp only [mdOf,hreqs,if_false] at h
      obtain rfl := Option.some.inj h
      refine .discovering hreqs ?_ (by simp [answered])
      exact nestedRequests_isMnt 0 exports

end Run

/-- The reply to EXPORT gets the MNTs on their way exactly if no nested export is tried in vain forever. Then, in
whatever order they are answered, the mount reports once, when nothing is in flight, and not before. If
the rest of the mount works, it reports success, with every nested export that was mounted and no other,
exactly if no reply to a MNT is an error and the last that was interrupted was not cancelled. -/
theorem mount_called_once {export_ : Path} (he : export_ ≠ []) (exports : List Path) (attempts : ℕ → ℕ → Attempt)
    (connects : Bool) :
    ((∃ fuel, ∃ s : St α, nfs3Mount3Cb export_ attempts connects fuel .success exports = some s) ↔
      AllSubmitted export_ attempts true 0 exports) ∧
    ∀ (fuel : ℕ) (s : St α), nfs3Mount3Cb export_ attempts connects fuel .success exports = some s →
      ∀ (evs : List (Event α)) (t : St α), evs.foldlM (step connects) s = some t →
        (t.outstanding ≠ [] → t.calls = []) ∧
        (t.outstanding = [] → (∃ err, t.calls = [err]) ∧ (answered evs).Perm (nestedRequests export_ he 0 exports)) ∧
        (connects → (∀ e ∈ evs, e.BaseOk) → t.outstanding = [] →
          (t.calls = [0] ∧ t.nestedMounts.map (·.1) = ((replies evs).filterMap mounted).reverse ↔
            Tolerated (replies evs))) := by
  refine ⟨⟨?_,?_⟩,?_⟩
  · rintro ⟨fuel,s,hs⟩
    unfold nfs3Mount3Cb at hs
    simp only [checkNfs3Error,dif_neg he] at hs
    cases hl : mount3Loop export_ he attempts fuel 0 0 exports none [] with
    | none => simp [hl] at hs
    | some r =>
      have hl' : mount3Loop export_ he attempts fuel 0 0 exports (mdOf []) [] = some r := hl
      simpa using (mount3Loop_result hl').1
  · intro hall
    obtain ⟨fuel,r,hr⟩ := @mount3Loop_ends export_ he attempts 0 exports [] (by simpa using hall)
    have hr' : mount3Loop export_ he attempts fuel 0 0 exports none [] = some r := hr
    refine ⟨fuel,?_⟩
    unfold nfs3Mount3Cb
    simp only [checkNfs3Error,dif_neg he,hr']
    rcases r with ⟨_ | md,reqs⟩
    · exact ⟨_,rfl⟩
    · exact ⟨_,rfl⟩
  · intro fuel s hs evs t hrun
    have hphase := (start_phase he hs).run hrun
    rw [List.nil_append] at hphase
    cases hphase with
    | discovering hne _ _ => exact ⟨fun _ => rfl,fun h => absurd h hne,fun _ _ h => absurd h hne⟩
    | base => exact ⟨fun _ => rfl,fun h => by simp at h,fun _ _ h => by simp at h⟩
    | attributes hne => exact ⟨fun _ => rfl,fun h => absurd h hne,fun _ _ h => absurd h hne⟩
    | done ha hm hok hbad =>
      refine ⟨fun h => absurd rfl h,fun _ => ⟨⟨_,rfl⟩,ha⟩,fun hc hbase _ => ?_⟩
      rw [hm,tally_mounts]
      simp only [List.cons.injEq,and_true]
      exact ⟨hok,hbad hc hbase⟩

/-- Everything that the loop needs is there. -/
def plenty : ℕ → ℕ → Attempt := fun _ _ => ⟨true,true,true,true⟩

/-- One nested export, whose MNT the server refuses with `MNT3ERR_ACCES` -/
def refused : Event Unit := .mnt 0 ⟨['/','b'],rfl⟩ ⟨.success,13,[],true,true⟩

theorem mount_called_once_refused :
    ((∃ fuel, ∃ s : St Unit, nfs3Mount3Cb ['/','e'] plenty true fuel .success [['/','e','/','b']] = some s) ↔
      AllSubmitted ['/','e'] plenty true 0 [['/','e','/','b']]) ∧
    ∀ (fuel : ℕ) (s : St Unit), nfs3Mount3Cb ['/','e'] plenty true fuel .success [['/','e','/','b']] = some s →
      ∀ (evs : List (Event Unit)) (t : St Unit), evs.foldlM (step true) s = some t →
        (t.outstanding ≠ [] → t.calls = []) ∧
        (t.outstanding = [] → (∃ err, t.calls = [err]) ∧
          (answered evs).Perm (nestedRequests ['/','e'] (by simp) 0 [['/','e','/','b']])) ∧
        (true → (∀ e ∈ evs, e.BaseOk) → t.outstanding = [] →
          (t.calls = [0] ∧ t.nestedMounts.map (·.1) = ((replies evs).filterMap mounted).reverse ↔
            Tolerated (replies evs))) :=
  mount_called_once (by simp) [['/','e','/','b']] plenty true

/-- The mount fails with the error of the nested export. -/
theorem mount_fails_with_nested : ∃ s t : St Unit,
    nfs3Mount3Cb ['/','e'] plenty true 1 .success [['/','e','/','b']] = some s ∧
      [refused].foldlM (step true) s = some t ∧ t.outstanding = [] ∧ t.calls = [-13] := by
  exact ⟨⟨[.mnt 0 ⟨['/','b'],rfl⟩],some ⟨1,0,.success⟩,none,[],[]⟩,⟨[],none,none,[],[-13]⟩,rfl,rfl,rfl,rfl⟩

end MountDiscovery
end Libnfs
