import Libnfs.ZdrMem

/-! What each primitive of `Libnfs.ZdrMem` computes, as one equation, with the arithmetic on
`int`s. -/
namespace Libnfs
namespace Zdrmem

open ByteWords Zdr

theorem toInt_eq {n : ℤ} (h1 : -2^31 ≤ n) (h2 : n < 2^31) : toInt n = n := by
  unfold toInt
  apply Int.bmod_eq_of_le <;> omega

theorem toInt_range (n : ℤ) : -2^31 ≤ toInt n ∧ toInt n < 2^31 := by
  have h1 := @Int.le_bmod n (2^32) (by norm_num)
  have h2 := @Int.bmod_lt n (2^32) (by norm_num)
  norm_num at h1 h2 ⊢
  exact ⟨h1,h2⟩

theorem toInt_sub (n : ℤ) : ∃ k : ℤ, toInt n = n-2^32*k := by
  unfold toInt
  rw [Int.bmod_eq_emod]
  split
  · exact ⟨n/2^32+1,by omega⟩
  · exact ⟨n/2^32,by omega⟩

theorem toInt_le {n : ℤ} (h : -2^31 ≤ n) : toInt n ≤ n := by
  have hr := toInt_range n
  obtain ⟨k,hk⟩ := toInt_sub n
  omega

theorem roundUp_eq {n : ℤ} (h1 : -2^31 ≤ n) (h2 : n+3 < 2^31) : roundUp n = (n+3)/4*4 := by
  rw [roundUp,toInt_eq (by omega) h2]

namespace Zop

variable {α β : Type} {m : Zop α} {f : α → Zop β} {z z' : Zdrs} {a : α}

theorem bind_ok (h : m z = (.ok a,z')) : (m >>= f) z = f a z' := by
  show Zop.bind m f z = f a z'
  simp only [Zop.bind,h]

theorem bind_fail (h : m z = (.fail,z')) : (m >>= f) z = (.fail,z') := by
  show Zop.bind m f z = _
  simp only [Zop.bind,h]

theorem bind_fault (h : m z = (.fault,z')) : (m >>= f) z = (.fault,z') := by
  show Zop.bind m f z = _
  simp only [Zop.bind,h]

@[simp] theorem pure_apply (a : α) (z : Zdrs) : (Pure.pure a : Zop α) z = (.ok a,z) := rfl

/-- A call goes one of three ways. -/
theorem cases (m : Zop α) (z : Zdrs) :
    (∃ a y, m z = (.ok a,y)) ∨ (∃ y, m z = (.fail,y)) ∨ ∃ y, m z = (.fault,y) := by
  cases hm : m z with
  | mk r y =>
    cases r with
    | ok a => exact .inl ⟨a,y,rfl⟩
    | fail => exact .inr (.inl ⟨y,rfl⟩)
    | fault => exact .inr (.inr ⟨y,rfl⟩)

/-- A successful sequence: both halves succeeded. -/
theorem of_bind_ok {b : β} (h : (m >>= f) z = (.ok b,z')) :
    ∃ a y, m z = (.ok a,y) ∧ f a y = (.ok b,z') := by
  rcases cases m z with ⟨a,y,hm⟩ | ⟨y,hm⟩ | ⟨y,hm⟩
  · exact ⟨a,y,hm,by rwa [bind_ok hm] at h⟩
  · rw [bind_fail hm] at h
    simp at h
  · rw [bind_fault hm] at h
    simp at h

end Zop

/-- The call was noted. -/
def Zdrs.noted (z : Zdrs) (s : Step) : Zdrs := { z with steps := z.steps ++ [s] }

/-- The cursor was moved. -/
def Zdrs.at (z : Zdrs) (pos : ℤ) : Zdrs := { z with pos := pos }

/-- Bytes were written. -/
def Zdrs.written (z : Zdrs) (pos : ℤ) (bs : List UInt8) : Zdrs :=
  { z with buf := overwrite z.buf pos.toNat bs }

/-- A pointer was handed out. -/
def Zdrs.handed (z : Zdrs) (r : Slice) : Zdrs := { z with refs := z.refs ++ [r] }

@[simp] theorem noted_buf (z : Zdrs) (s : Step) : (z.noted s).buf = z.buf := rfl
@[simp] theorem noted_pos (z : Zdrs) (s : Step) : (z.noted s).pos = z.pos := rfl
@[simp] theorem noted_size (z : Zdrs) (s : Step) : (z.noted s).size = z.size := rfl
@[simp] theorem noted_steps (z : Zdrs) (s : Step) : (z.noted s).steps = z.steps ++ [s] := rfl
@[simp] theorem noted_refs (z : Zdrs) (s : Step) : (z.noted s).refs = z.refs := rfl
@[simp] theorem at_buf (z : Zdrs) (n : ℤ) : (z.at n).buf = z.buf := rfl
@[simp] theorem at_pos (z : Zdrs) (n : ℤ) : (z.at n).pos = n := rfl
@[simp] theorem at_size (z : Zdrs) (n : ℤ) : (z.at n).size = z.size := rfl
@[simp] theorem at_steps (z : Zdrs) (n : ℤ) : (z.at n).steps = z.steps := rfl
@[simp] theorem at_refs (z : Zdrs) (n : ℤ) : (z.at n).refs = z.refs := rfl
@[simp] theorem written_pos (z : Zdrs) (n : ℤ) (bs : List UInt8) : (z.written n bs).pos = z.pos := rfl
@[simp] theorem written_size (z : Zdrs) (n : ℤ) (bs : List UInt8) : (z.written n bs).size = z.size := rfl
@[simp] theorem written_steps (z : Zdrs) (n : ℤ) (bs : List UInt8) : (z.written n bs).steps = z.steps := rfl

variable {z : Zdrs}

theorem loadHere_inside {n : ℕ} (h : Inside z z.pos n) :
    loadHere n z = (.ok ((z.buf.drop z.pos.toNat).take n),z) := by
  rw [loadHere,load,if_pos h]

theorem loadHere_outside {n : ℕ} (h : ¬ Inside z z.pos n) : loadHere n z = (.fault,z) := by
  rw [loadHere,load,if_neg h]

theorem storeHere_inside (bs : List UInt8) (h : Inside z z.pos bs.length) :
    storeHere bs z = (.ok (),z.written z.pos bs) := by
  rw [storeHere,store,if_pos h]
  rfl

theorem storeHere_outside (bs : List UInt8) (h : ¬ Inside z z.pos bs.length) :
    storeHere bs z = (.fault,z) := by
  rw [storeHere,store,if_neg h]

theorem room_pass {n : ℕ} (h : ¬ toInt (z.pos+n) > z.size) :
    room n z = (.ok (),z.noted (.word z.pos n)) := by
  rw [room,if_neg h]
  rfl

theorem room_full {n : ℕ} (h : toInt (z.pos+n) > z.size) : room n z = (.fail,z) := by
  rw [room,if_pos h]

theorem advance_eq (n : ℕ) (z : Zdrs) : advance n z = (.ok (),z.at (toInt (z.pos+n))) := rfl

theorem skip_eq (n : ℕ) (z : Zdrs) : skip n z = (.ok (),z.at (roundUp (toInt (z.pos+n)))) := rfl

theorem handOut_eq (n : ℕ) (z : Zdrs) :
    handOut n z = (.ok ⟨z.pos,n⟩,z.handed ⟨z.pos,n⟩) := rfl

theorem checkLen_pass {n : ℕ} (h : ¬ toInt (z.pos+sint32 n) > z.size) :
    checkLen n z = (.ok (),z.noted (.sized z.pos n)) := by
  simp only [checkLen,if_neg h,Zdrs.noted]

theorem checkLen_full {n : ℕ} (h : toInt (z.pos+sint32 n) > z.size) :
    checkLen n z = (.fail,z.noted (.sized z.pos n)) := by
  simp only [checkLen,if_pos h,Zdrs.noted]

theorem zdrMalloc_ok {n : ℕ} (h : n+12 < 2^31) : zdrMalloc n z = (.ok (),z.noted (.block n)) := by
  have hn : ¬ toInt (12+n) < 12 := by rw [toInt_eq] <;> omega
  rw [zdrMalloc,Zop.bind_ok (m := note (.block n)) rfl,if_neg hn]
  rfl

/-- Blocks of 2^31 - 12 bytes and more crash. -/
theorem zdrMalloc_fault {n : ℕ} (hn : n < 2^32) (h : 2^31 ≤ n+12) :
    zdrMalloc n z = (.fault,z.noted (.block n)) := by
  have hlt : toInt (12+n) < 12 := by
    have hr := toInt_range (12+n)
    obtain ⟨k,hk⟩ := toInt_sub (12+n)
    omega
  rw [zdrMalloc,Zop.bind_ok (m := note (.block n)) rfl,if_pos hlt]
  rfl

theorem zdrUIntDecode_full (h : toInt (z.pos+4) > z.size) : zdrUIntDecode z = (.fail,z) := by
  rw [zdrUIntDecode,Zop.bind_fail (room_full h)]

theorem zdrUIntDecode_pass (h : ¬ toInt (z.pos+4) > z.size) (hi : Inside z z.pos 4) :
    zdrUIntDecode z = (.ok (be32 ((z.buf.drop z.pos.toNat).take 4)),
      (z.noted (.word z.pos 4)).at (toInt (z.pos+4))) := by
  rw [zdrUIntDecode,Zop.bind_ok (room_pass h),
    Zop.bind_ok (loadHere_inside (z := z.noted (.word z.pos 4)) hi)]
  rfl

theorem zdrUIntDecode_outside (h : ¬ toInt (z.pos+4) > z.size) (hi : ¬ Inside z z.pos 4) :
    zdrUIntDecode z = (.fault,z.noted (.word z.pos 4)) := by
  rw [zdrUIntDecode,Zop.bind_ok (room_pass h),
    Zop.bind_fault (loadHere_outside (z := z.noted (.word z.pos 4)) hi)]

theorem zdrUIntEncode_full (u : ℕ) (h : toInt (z.pos+4) > z.size) :
    zdrUIntEncode u z = (.fail,z) := by
  rw [zdrUIntEncode,Zop.bind_fail (room_full h)]

theorem zdrUIntEncode_pass (u : ℕ) (h : ¬ toInt (z.pos+4) > z.size) (hi : Inside z z.pos 4) :
    zdrUIntEncode u z = (.ok (),
      ((z.noted (.word z.pos 4)).written z.pos (beBytes u)).at (toInt (z.pos+4))) := by
  rw [zdrUIntEncode,Zop.bind_ok (room_pass h),
    Zop.bind_ok (storeHere_inside (z := z.noted (.word z.pos 4)) (beBytes u) hi)]
  rfl

theorem zdrUIntEncode_outside (u : ℕ) (h : ¬ toInt (z.pos+4) > z.size) (hi : ¬ Inside z z.pos 4) :
    zdrUIntEncode u z = (.fault,z.noted (.word z.pos 4)) := by
  rw [zdrUIntEncode,Zop.bind_ok (room_pass h),
    Zop.bind_fault (storeHere_outside (z := z.noted (.word z.pos 4)) (beBytes u) hi)]

end Zdrmem
end Libnfs
