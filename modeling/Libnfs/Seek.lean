import Libnfs.Attributes
import Libnfs.Transition

/-! `nfs3_lseek_async` and `nfs4_lseek_async` on one file handle: calls and answers to GETATTRs, in any order.
Every GETATTR is sent. -/
namespace Libnfs
namespace Seek

open Attributes

inductive Whence
  | set | cur | end_
  deriving DecidableEq, Repr

/-- `nfsfh->offset`, the `data->offset` of the GETATTRs in flight, and what the callbacks were told: the status and the
position -/
structure St where
  offset : BitVec 64
  pending : List (BitVec 64)
  reports : List (ℤ × BitVec 64)
  deriving DecidableEq, Repr

/-- `cb(err, nfs, &nfsfh->offset, private_data)` -/
def St.report (s : St) (err : ℤ) : St := { s with reports := s.reports ++ [(err,s.offset)] }

def St.moved (s : St) (offset : BitVec 64) : St := St.report { s with offset := offset } 0

/-- `nfs3_lseek_async`. `-offset` wraps around for the least offset. -/
def nfs3LseekAsync (s : St) (offset : BitVec 64) : Whence → St
  | .set => if offset.slt 0 then s.report (-22) else s.moved offset
  | .cur => if offset.slt 0 ∧ s.offset.ult (-offset) then s.report (-22) else s.moved (s.offset+offset)
  | .end_ => { s with pending := s.pending ++ [offset] }

/-- `nfs3_lseek_1_cb`, with the size in the reply or the error that the callback is told -/
def nfs3Lseek1Cb (s : St) (offset : BitVec 64) : Except ℤ (BitVec 64) → St
  | .error err => s.report err
  | .ok size => if offset.slt 0 ∧ size.slt (-offset) then s.report (-22) else s.moved (offset+size)

/-- `nfs4_lseek_async` -/
def nfs4LseekAsync (s : St) (offset : BitVec 64) : Whence → St
  | .set => if offset.slt 0 then s.report (-22) else s.moved offset
  | .cur => if offset.slt 0 ∧ s.offset.ult (-offset) then s.report (-22) else s.moved (s.offset+offset)
  | .end_ => { s with pending := s.pending ++ [offset] }

/-- `st.nfs_size` behind `nfs_parse_attributes`, whose return value is not looked at -/
def nfsSize (getpwnam : Getpwnam) (attrs : Attrlist) : BitVec 64 :=
  BitVec.ofNat 64 (nfsParseAttributes getpwnam attrs).2.size

/-- `nfs4_lseek_cb` -/
def nfs4LseekCb (getpwnam : Getpwnam) (s : St) (offset : BitVec 64) : Except ℤ Attrlist → St
  | .error err => s.report err
  | .ok attrs =>
    let size := nfsSize getpwnam attrs
    if offset.slt 0 ∧ size.slt (-offset) then s.report (-22) else s.moved (offset+size)

/-- A call, or the answer to the GETATTR `index` -/
inductive Event (β : Type)
  | call (offset : BitVec 64) (whence : Whence)
  | reply (index : ℕ) (res : Except ℤ β)

def Event.map {β γ : Type} (f : β → γ) : Event β → Event γ
  | .call offset whence => .call offset whence
  | .reply index res => .reply index (res.map f)

/-- The handler takes over for the answered request. -/
def answered {β : Type} (handler : St → BitVec 64 → Except ℤ β → St) (s : St) (index : ℕ) (res : Except ℤ β) : St :=
  match s.pending[index]? with
  | none => s
  | some offset => handler { s with pending := s.pending.eraseIdx index } offset res

def step3 (s : St) : Event (BitVec 64) → St
  | .call offset whence => nfs3LseekAsync s offset whence
  | .reply index res => answered nfs3Lseek1Cb s index res

def step4 (getpwnam : Getpwnam) (s : St) : Event Attrlist → St
  | .call offset whence => nfs4LseekAsync s offset whence
  | .reply index res => answered (nfs4LseekCb getpwnam) s index res

/-- The seek from `base` by `delta` is told, with the exact sum where it is a position, and refused where it is not. -/
def Right (base delta : ℤ) (s t : St) : Prop :=
  if 0 ≤ base+delta ∧ base+delta < 2^63 then
    (t.offset.toNat : ℤ) = base+delta ∧ t.reports = s.reports ++ [(0,t.offset)]
  else t.offset = s.offset ∧ t.reports = s.reports ++ [(-22,s.offset)]

/-- What a seek owes. Without a size nothing is moved. -/
def RightStep (s : St) (e : Event (BitVec 64)) : Prop :=
  match e with
  | .call offset .set => Right 0 offset.toInt s (step3 s e)
  | .call offset .cur => Right s.offset.toNat offset.toInt s (step3 s e)
  | .call _ .end_ => (step3 s e).offset = s.offset ∧ (step3 s e).reports = s.reports
  | .reply index (.ok size) => ∀ offset, s.pending[index]? = some offset → Right size.toNat offset.toInt s (step3 s e)
  | .reply _ (.error _) => (step3 s e).offset = s.offset

/-- The sum is below the end of the positions. For a size beyond it, only a sum beyond it is refused, and the least offset
is added as it is. -/
def Exact (s : St) : Event (BitVec 64) → Prop
  | .call offset .cur => s.offset.toNat+offset.toInt < 2^63
  | .reply index (.ok size) => ∀ offset, s.pending[index]? = some offset →
    if size.toNat < 2^63 then offset.toInt ≠ -2^63 ∧ size.toNat+offset.toInt < 2^63
    else offset.toInt = -2^63 ∨ offset.toInt < 0 ∧ 2^63 ≤ size.toNat+offset.toInt
  | _ => True

section Steps

variable {s t : St} {base delta : ℤ} {offset size : BitVec 64}

theorem right_refused (hr : t.reports = s.reports) (ho : t.offset = s.offset) :
    Right base delta s (t.report (-22)) ↔ ¬ (0 ≤ base+delta ∧ base+delta < 2^63) := by
  unfold Right
  by_cases h : 0 ≤ base+delta ∧ base+delta < 2^63
  · rw [if_pos h]
    simp only [St.report,hr,List.append_cancel_left_eq,List.cons.injEq,Prod.mk.injEq]
    exact iff_of_false (fun hf => absurd hf.2.1.1 (by decide)) (not_not.mpr h)
  · rw [if_neg h,St.report,hr,ho]
    exact iff_of_true ⟨rfl,rfl⟩ h

theorem right_moved (hr : t.reports = s.reports) :
    Right base delta s (t.moved offset) ↔ (offset.toNat : ℤ) = base+delta ∧ base+delta < 2^63 := by
  unfold Right
  by_cases h : 0 ≤ base+delta ∧ base+delta < 2^63
  · rw [if_pos h]
    simp only [St.moved,St.report,hr]
    exact ⟨fun hf => ⟨hf.1,h.2⟩,fun hf => ⟨hf.1,trivial⟩⟩
  · rw [if_neg h]
    simp only [St.moved,St.report,hr,List.append_cancel_left_eq,List.cons.injEq,Prod.mk.injEq]
    refine iff_of_false (fun hf => absurd hf.2.1.1 (by decide)) fun hf => h ⟨?_,hf.2⟩
    rw [← hf.1]
    exact Int.natCast_nonneg _

theorem toInt_cases (x : BitVec 64) : x.toNat < 2^63 ∧ x.toInt = x.toNat ∨
    2^63 ≤ x.toNat ∧ x.toNat < 2^64 ∧ x.toInt = (x.toNat : ℤ)-2^64 := by
  have hlt := x.isLt
  rw [BitVec.toInt_eq_toNat_cond]
  split <;> omega

theorem slt_zero (x : BitVec 64) : x.slt 0 = true ↔ 2^63 ≤ x.toNat := by
  rw [BitVec.slt_iff_toInt_lt]
  rcases toInt_cases x with ⟨hx,he⟩ | ⟨hx,hlt,he⟩ <;> rw [he] <;> simp <;> omega

theorem seek_set (s : St) (offset : BitVec 64) : Right 0 offset.toInt s (nfs3LseekAsync s offset .set) := by
  unfold nfs3LseekAsync
  dsimp only
  by_cases h : offset.slt 0
  · rw [if_pos h,right_refused rfl rfl]
    rw [slt_zero] at h
    rcases toInt_cases offset with ⟨hx,he⟩ | ⟨hx,hlt,he⟩ <;> omega
  · rw [if_neg h,right_moved rfl]
    rw [slt_zero] at h
    rcases toInt_cases offset with ⟨hx,he⟩ | ⟨hx,hlt,he⟩ <;> omega

theorem seek_cur (s : St) (offset : BitVec 64) :
    Right s.offset.toNat offset.toInt s (nfs3LseekAsync s offset .cur) ↔ s.offset.toNat+offset.toInt < 2^63 := by
  have hpos := s.offset.isLt
  have hneg : (-offset).toNat = (2^64-offset.toNat) % 2^64 := BitVec.toNat_neg offset
  have hadd := BitVec.toNat_add s.offset offset
  unfold nfs3LseekAsync
  dsimp only
  by_cases h : offset.slt 0 ∧ s.offset.ult (-offset)
  · rw [if_pos h,right_refused rfl rfl]
    rw [slt_zero,BitVec.ult_iff_toNat_lt,hneg] at h
    rcases toInt_cases offset with ⟨hx,he⟩ | ⟨hx,hlt,he⟩ <;> omega
  · rw [if_neg h,right_moved rfl,hadd]
    rw [slt_zero,BitVec.ult_iff_toNat_lt,hneg] at h
    rcases toInt_cases offset with ⟨hx,he⟩ | ⟨hx,hlt,he⟩ <;> omega

/-- The comparison in the handler, of two signed numbers -/
theorem size_slt (offset size : BitVec 64) : size.slt (-offset) = true ↔ size.toInt < (-offset).toInt :=
  BitVec.slt_iff_toInt_lt

theorem seek_end (hr : t.reports = s.reports) (ho : t.offset = s.offset) :
    Right size.toNat offset.toInt s (nfs3Lseek1Cb t offset (.ok size)) ↔
      if size.toNat < 2^63 then offset.toInt ≠ -2^63 ∧ size.toNat+offset.toInt < 2^63
      else offset.toInt = -2^63 ∨ offset.toInt < 0 ∧ 2^63 ≤ size.toNat+offset.toInt := by
  have hneg : (-offset).toNat = (2^64-offset.toNat) % 2^64 := BitVec.toNat_neg offset
  have hadd := BitVec.toNat_add offset size
  unfold nfs3Lseek1Cb
  dsimp only
  by_cases h : offset.slt 0 ∧ size.slt (-offset)
  · rw [if_pos h,right_refused hr ho]
    rw [slt_zero,size_slt] at h
    rcases toInt_cases offset with ⟨hx,he⟩ | ⟨hx,hlt,he⟩ <;> rcases toInt_cases size with ⟨hy,hs⟩ | ⟨hy,hlt',hs⟩ <;>
      rcases toInt_cases (-offset) with ⟨hz,hn⟩ | ⟨hz,hlt'',hn⟩ <;> split <;> omega
  · rw [if_neg h,right_moved hr,hadd]
    rw [slt_zero,size_slt] at h
    rcases toInt_cases offset with ⟨hx,he⟩ | ⟨hx,hlt,he⟩ <;> rcases toInt_cases size with ⟨hy,hs⟩ | ⟨hy,hlt',hs⟩ <;>
      rcases toInt_cases (-offset) with ⟨hz,hn⟩ | ⟨hz,hlt'',hn⟩ <;> split <;> omega

/-- A step is right exactly if it is exact. -/
theorem rightStep_iff (s : St) (e : Event (BitVec 64)) : RightStep s e ↔ Exact s e := by
  rcases e with ⟨offset,whence⟩ | ⟨index,res⟩
  · cases whence with
    | set => exact iff_of_true (seek_set s offset) trivial
    | cur => exact seek_cur s offset
    | end_ => exact iff_of_true ⟨rfl,rfl⟩ trivial
  · rcases res with err | size
    · refine iff_of_true ?_ trivial
      unfold RightStep step3 answered
      dsimp only
      split <;> rfl
    · unfold RightStep Exact
      refine forall_congr' fun offset => forall_congr' fun hp => ?_
      unfold step3 answered
      dsimp only
      rw [hp]
      exact seek_end rfl rfl

theorem step4_eq (getpwnam : Getpwnam) (s : St) (e : Event Attrlist) :
    step4 getpwnam s e = step3 s (e.map (nfsSize getpwnam)) := by
  rcases e with ⟨offset,whence⟩ | ⟨index,res⟩
  · cases whence <;> rfl
  · unfold step4 step3 Event.map answered
    dsimp only
    cases hp : s.pending[index]? with
    | none => rfl
    | some offset => cases res <;> rfl

end Steps

theorem guarded_iff {s : St} (es : List (Event (BitVec 64))) :
    Transition.Guarded step3 RightStep s es ↔ Transition.Guarded step3 Exact s es := by
  induction es generalizing s with
  | nil => exact Iff.rfl
  | cons e es ih => exact and_congr (rightStep_iff s e) ih

theorem run4_eq (getpwnam : Getpwnam) (s : St) (es : List (Event Attrlist)) :
    Transition.run (step4 getpwnam) s es = Transition.run step3 s (es.map (Event.map (nfsSize getpwnam))) := by
  induction es generalizing s with
  | nil => rfl
  | cons e es ih => rw [List.map_cons,Transition.run_cons,Transition.run_cons,step4_eq,ih]

/-- Both versions agree in every run, and the seeks of a run are all right exactly if they are all exact. -/
theorem seeks_right_iff_exact (getpwnam : Getpwnam) (s : St) :
    (∀ es : List (Event Attrlist),
      Transition.run (step4 getpwnam) s es = Transition.run step3 s (es.map (Event.map (nfsSize getpwnam)))) ∧
    ∀ es : List (Event (BitVec 64)), Transition.Guarded step3 RightStep s es ↔ Transition.Guarded step3 Exact s es :=
  ⟨run4_eq getpwnam s,guarded_iff⟩

/-- One byte behind the last position -/
theorem seek_behind_the_end : ¬ ∀ (s : St) (es : List (Event (BitVec 64))), Transition.Guarded step3 RightStep s es := by
  intro h
  have hexact := (guarded_iff _).mp (h ⟨0,[],[]⟩ [.call 0x7fffffffffffffff .set,.call 1 .cur])
  have hsum : ((step3 ⟨0,[],[]⟩ (.call 0x7fffffffffffffff .set)).offset.toNat : ℤ)+(1 : BitVec 64).toInt < 2^63 := hexact.2.1
  exact absurd hsum (by decide)

end Seek
end Libnfs
