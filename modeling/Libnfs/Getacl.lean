import Libnfs.Context
import Libnfs.Lookup3
import Libnfs.ZdrBounds

/-! GETACL of NFSv3: the decoder of its reply, and `nfs3_getacl_cb` of `lib/nfs_v3.c`. -/
namespace Libnfs
namespace Getacl

open Zdr Zdrmem

/-- `struct nfsacl_ace` -/
structure Ace where
  type : ℕ
  id : ℕ
  perm : ℕ
  deriving DecidableEq, Repr

/-- `sizeof(struct nfsacl_ace)` -/
def aceSize : ℕ := 12

/-- `struct GETACL3resok` but for the attributes, which the callback does not look at; a list is an array with its `_len`. -/
structure GETACL3resok where
  mask : ℕ
  aceCount : ℕ
  ace : List Ace
  defaultAceCount : ℕ
  defaultAce : List Ace
  deriving DecidableEq, Repr

/-- `struct GETACL3res` -/
inductive GETACL3res
  | ok (resok : GETACL3resok)
  | error (status : ℤ)
  deriving DecidableEq, Repr

/-- `zdr_nfsacl_ace` -/
def zdrNfsaclAce : Zop Ace := do
  let type ← zdrUIntDecode
  let id ← zdrUIntDecode
  let perm ← zdrUIntDecode
  return ⟨type,id,perm⟩

/-- `zdr_fattr3` -/
def zdrFattr3 : Zop Unit := do
  let _ ← zdrVectorDecode zdrUIntDecode 5
  let _ ← zdrVectorDecode zdrUInt64Decode 2
  let _ ← zdrVectorDecode zdrUIntDecode 2
  let _ ← zdrVectorDecode zdrUInt64Decode 2
  let _ ← zdrVectorDecode zdrUIntDecode 6

/-- `zdr_post_op_attr` -/
def zdrPostOpAttr : Zop Unit := do
  let follow ← zdrUIntDecode
  if follow = 1 then zdrFattr3 else if follow = 0 then pure () else Zop.fail

/-- `zdr_GETACL3resok` -/
def zdrGETACL3resok : Zop GETACL3resok := do
  zdrPostOpAttr
  let mask ← zdrUIntDecode
  let aceCount ← zdrUIntDecode
  let ace ← zdrArrayDecode aceSize zdrNfsaclAce
  let defaultAceCount ← zdrUIntDecode
  let defaultAce ← zdrArrayDecode aceSize zdrNfsaclAce
  return ⟨mask,aceCount,ace,defaultAceCount,defaultAce⟩

/-- `zdr_GETACL3res` -/
def zdrGETACL3res : Zop GETACL3res := do
  let status ← zdrUIntDecode
  if status = 0 then do
    let resok ← zdrGETACL3resok
    return .ok resok
  else return .error (sint32 status)

/-- What must not happen: an element that is not in its array is read, or an `int` overflows. -/
inductive Fault
  | outOfBounds
  | overflow
  deriving DecidableEq, Repr

/-- `fattr3_acl` -/
structure Fattr3Acl where
  aceCount : ℕ
  ace : List Ace
  defaultAceCount : ℕ
  defaultAce : List Ace
  deriving DecidableEq, Repr

/-- What the callback is told -/
inductive Told
  | acl (acl : Fattr3Acl)
  | error (err : ℤ)
  deriving DecidableEq, Repr

/-- The loop that copies `n` elements from the index `i` on, an `int` -/
def copyFrom (val : List Ace) : ℕ → ℕ → Except Fault (List Ace)
  | 0, _ => pure []
  | n+1, i =>
    if 2^31 ≤ i then .error .overflow
    else
      match val[i]? with
      | none => .error .outOfBounds
      | some ace => do
        let rest ← copyFrom val n (i+1)
        pure (ace::rest)

/-- `check_nfs3_error` -/
def checkNfs3Error : Status → Option ℤ
  | .success => none
  | .error => some (-14)
  | .cancel => some (-4)
  | .timeout => some (-4)

/-- `nfs3_getacl_cb` and the calls of the callback; `calloc` and `calloc'` are whether the allocations of the entries and of the
default entries succeed. -/
def nfs3GetaclCb (status : Status) (res : GETACL3res) (calloc calloc' : Bool) : Except Fault (List Told) :=
  match checkNfs3Error status,res with
  | some err,_ => pure [.error err]
  | none,.error status => pure [.error (Lookup3.nfsstat3ToErrno status)]
  | none,.ok resok =>
    if resok.aceCount ≠ 0 ∧ calloc = false then pure [.error (-12)]
    else do
      let ace ← copyFrom resok.ace resok.aceCount 0
      if resok.defaultAceCount ≠ 0 ∧ calloc' = false then pure [.error (-12)]
      else do
        let defaultAce ← copyFrom resok.defaultAce resok.defaultAceCount 0
        pure [.acl ⟨resok.aceCount,ace,resok.defaultAceCount,defaultAce⟩]

theorem copyFrom_of_le {val : List Ace} {n i : ℕ} (h : i + n ≤ val.length) (hint : val.length < 2^31) :
    copyFrom val n i = .ok ((val.drop i).take n) := by
  induction n generalizing i with
  | zero => simp [copyFrom,pure,Except.pure]
  | succ n ih =>
    have hi : i < val.length := by omega
    have hrec := ih (show i + 1 + n ≤ val.length by omega)
    rw [copyFrom,if_neg (by omega),List.getElem?_eq_getElem hi,List.drop_eq_getElem_cons hi]
    simp only [hrec,bind,Except.bind,pure,Except.pure,List.take_succ_cons]

/-- The element behind the array is read. -/
theorem copyFrom_of_gt {val : List Ace} {n i : ℕ} (h : val.length < i + n) (hi : i ≤ val.length) (hint : val.length < 2^31) :
    copyFrom val n i = .error .outOfBounds := by
  induction n generalizing i with
  | zero => omega
  | succ n ih =>
    rw [copyFrom,if_neg (by omega)]
    by_cases hlt : i < val.length
    · have hrec := ih (show val.length < i + 1 + n by omega) hlt
      rw [List.getElem?_eq_getElem hlt]
      simp [hrec,bind,Except.bind]
    · rw [List.getElem?_eq_none (by omega)]

/-- An array that is decoded has no more elements than fit into 32 bits. -/
theorem zdrArrayDecode_le {α : Type} {m : Zop α} {elsize : ℕ} {z y : Zdrs} {as : List α}
    (h : zdrArrayDecode elsize m z = (.ok as,y)) : as.length ≤ (2^32-1)/elsize := by
  obtain ⟨x,hx⟩ := zdrArrayDecode_count h
  obtain ⟨k,x',hk,h⟩ := Zop.of_bind_ok h
  rw [hx] at hk
  obtain ⟨rfl,rfl⟩ : as.length = k ∧ x = x' := by simpa using hk
  by_contra hgt
  rw [if_pos (by omega)] at h
  simp [Zop.fail] at h

theorem zdrGETACL3resok_le {z y : Zdrs} {resok : GETACL3resok} (h : zdrGETACL3resok z = (.ok resok,y)) :
    resok.ace.length < 2^31 ∧ resok.defaultAce.length < 2^31 := by
  obtain ⟨_,_,-,h⟩ := Zop.of_bind_ok h
  obtain ⟨mask,_,-,h⟩ := Zop.of_bind_ok h
  obtain ⟨aceCount,_,-,h⟩ := Zop.of_bind_ok h
  obtain ⟨ace,_,hace,h⟩ := Zop.of_bind_ok h
  obtain ⟨defaultAceCount,_,-,h⟩ := Zop.of_bind_ok h
  obtain ⟨defaultAce,x,hdefault,h⟩ := Zop.of_bind_ok h
  have he : ((.ok ⟨mask,aceCount,ace,defaultAceCount,defaultAce⟩,x) : Res GETACL3resok × Zdrs) = (.ok resok,y) := h
  simp only [Prod.mk.injEq,Res.ok.injEq] at he
  have hace := zdrArrayDecode_le hace
  have hdefault := zdrArrayDecode_le hdefault
  norm_num [aceSize] at hace hdefault
  rw [← he.1]
  constructor <;> dsimp only <;> omega

theorem zdrGETACL3res_le {z y : Zdrs} {resok : GETACL3resok} (h : zdrGETACL3res z = (.ok (.ok resok),y)) :
    resok.ace.length < 2^31 ∧ resok.defaultAce.length < 2^31 := by
  obtain ⟨status,_,-,h⟩ := Zop.of_bind_ok h
  by_cases hs : status = 0
  · rw [if_pos hs] at h
    obtain ⟨resok',x,hok,h⟩ := Zop.of_bind_ok h
    have he : ((.ok (.ok resok'),x) : Res GETACL3res × Zdrs) = (.ok (.ok resok),y) := h
    simp only [Prod.mk.injEq,Res.ok.injEq,GETACL3res.ok.injEq] at he
    rw [← he.1]
    exact zdrGETACL3resok_le hok
  · rw [if_neg hs] at h
    have he : ((.ok (.error (sint32 status)),_) : Res GETACL3res × Zdrs) = (.ok (.ok resok),y) := h
    simp at he

/-- Whatever the allocations do, no element outside of the arrays is read and the callback is called once; where it is told an
ACL, that has the first entries, as many as it says. -/
def Safe (status : Status) (res : GETACL3res) : Prop :=
  ∀ calloc calloc', ∃ told, nfs3GetaclCb status res calloc calloc' = .ok [told] ∧
    ∀ acl, told = .acl acl → acl.ace.length = acl.aceCount ∧ acl.defaultAce.length = acl.defaultAceCount

/-- For what the decoder returns that is so exactly if neither count is larger than the array it is for. -/
theorem getacl_safe {z y : Zdrs} {res : GETACL3res} (h : zdrGETACL3res z = (.ok res,y)) (status : Status) :
    Safe status res ↔ ∀ resok, status = .success → res = .ok resok →
      resok.aceCount ≤ resok.ace.length ∧ resok.defaultAceCount ≤ resok.defaultAce.length := by
  cases hc : checkNfs3Error status with
  | some err =>
    have hs : status ≠ .success := by
      rintro rfl
      cases hc
    refine iff_of_true (fun _ _ => ⟨.error err,by simp [nfs3GetaclCb,hc,pure,Except.pure],by simp⟩) fun _ he => absurd he hs
  | none =>
    have hs : status = .success := by cases status <;> simp_all [checkNfs3Error]
    cases res with
    | error e =>
      exact iff_of_true (fun _ _ => ⟨_,by simp [nfs3GetaclCb,hc,pure,Except.pure]; rfl,by simp⟩) fun _ _ he => by cases he
    | ok resok =>
      obtain ⟨hace,hdefault⟩ := zdrGETACL3res_le h
      constructor
      · rintro hsafe _ - ⟨⟩
        obtain ⟨told,htold,-⟩ := hsafe true true
        by_contra hnot
        by_cases hcount : resok.aceCount ≤ resok.ace.length
        · have hcopy := copyFrom_of_le (i := 0) (by omega) hace (n := resok.aceCount)
          have hover := copyFrom_of_gt (i := 0) (n := resok.defaultAceCount) (by omega) (Nat.zero_le _) hdefault
          simp [nfs3GetaclCb,hc,hcopy,hover,bind,Except.bind] at htold
        · have hover := copyFrom_of_gt (i := 0) (n := resok.aceCount) (by omega) (Nat.zero_le _) hace
          simp [nfs3GetaclCb,hc,hover,bind,Except.bind] at htold
      · intro hcond calloc calloc'
        obtain ⟨hcount,hcount'⟩ := hcond resok hs rfl
        have hcopy := copyFrom_of_le (i := 0) (n := resok.aceCount) (by omega) hace
        have hcopy' := copyFrom_of_le (i := 0) (n := resok.defaultAceCount) (by omega) hdefault
        simp only [nfs3GetaclCb,hc,hcopy,hcopy',bind,Except.bind,pure,Except.pure]
        by_cases ha : resok.aceCount ≠ 0 ∧ calloc = false
        · exact ⟨.error (-12),by rw [if_pos ha],by simp⟩
        · by_cases hb : resok.defaultAceCount ≠ 0 ∧ calloc' = false
          · exact ⟨.error (-12),by rw [if_neg ha,if_pos hb],by simp⟩
          · refine ⟨_,by rw [if_neg ha,if_neg hb],?_⟩
            rintro acl ⟨⟩
            simpa using ⟨hcount,hcount'⟩

/-- A reply without attributes that tells one entry, and an array of none -/
def oneAdvertised : List UInt8 := [0,0,0,0, 0,0,0,0, 0,0,0,1, 0,0,0,1, 0,0,0,0, 0,0,0,0, 0,0,0,0]

/-- The callback reads the first element of an empty array. -/
theorem getacl_unsafe :
    (zdrGETACL3res (zdrmemCreate oneAdvertised 28)).1 = .ok (.ok ⟨1,1,[],0,[]⟩) ∧
      nfs3GetaclCb .success (.ok ⟨1,1,[],0,[]⟩) true true = .error .outOfBounds ∧
      ¬ Safe .success (.ok ⟨1,1,[],0,[]⟩) := by
  have hcb : nfs3GetaclCb .success (.ok ⟨1,1,[],0,[]⟩) true true = .error .outOfBounds := by rfl
  refine ⟨by decide +kernel,hcb,fun h => ?_⟩
  obtain ⟨told,htold,-⟩ := h true true
  rw [hcb] at htold
  cases htold

theorem getacl_safe_oneAdvertised :
    Safe .success (.ok ⟨1,1,[],0,[]⟩) ↔ ∀ resok, Status.success = .success → GETACL3res.ok ⟨1,1,[],0,[]⟩ = .ok resok →
      resok.aceCount ≤ resok.ace.length ∧ resok.defaultAceCount ≤ resok.defaultAce.length :=
  @getacl_safe (zdrmemCreate oneAdvertised 28) (zdrGETACL3res (zdrmemCreate oneAdvertised 28)).2 _ (by decide +kernel) .success

end Getacl
end Libnfs
