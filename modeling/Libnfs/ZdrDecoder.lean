import Libnfs.ZdrSpec

/-! The decoders that are sequences of ZDR calls, and a rule for proving that all of them keep a
contract. -/
namespace Libnfs
namespace Zdrmem

open ByteWords Zdr

variable {α β : Type}

/-- The calls that a decoder is made of. -/
inductive Primitive : {α : Type} → Zop α → Prop
  | uInt : Primitive zdrUIntDecode
  | uInt64 : Primitive zdrUInt64Decode
  | bytes : Primitive zdrBytesDecode
  | bytesInto : Primitive zdrBytesInto
  | fixed (size : ℕ) : Primitive (zdrOpaqueDecode size)
  | string : Primitive zdrStringDecode
  | malloc (size : ℕ) : Primitive (zdrMalloc size)

/-- A sequence of ZDR decode calls in which each call may depend on what the calls before it
returned. -/
inductive IsDecoder : {α : Type} → Zop α → Prop
  | pure {α : Type} (a : α) : IsDecoder (Pure.pure a)
  | fail {α : Type} : IsDecoder (Zop.fail : Zop α)
  | call {α : Type} {m : Zop α} (hm : Primitive m) : IsDecoder m
  | bind {α β : Type} {m : Zop α} {f : α → Zop β} (hm : IsDecoder m) (hf : ∀ a, IsDecoder (f a)) :
      IsDecoder (m >>= f)

namespace IsDecoder

theorem pointer {m : Zop α} (size : ℕ) (hm : IsDecoder m) : IsDecoder (zdrPointerDecode size m) := by
  apply IsDecoder.bind (.call .uInt)
  intro more
  by_cases h : more = 0
  · rw [if_pos h]
    exact .pure none
  · rw [if_neg h]
    exact .bind (.call (.malloc size)) (fun _ => .bind hm (fun a => .pure (some a)))

theorem vector {m : Zop α} (hm : IsDecoder m) (n : ℕ) : IsDecoder (zdrVectorDecode m n) := by
  induction n with
  | zero => exact .pure []
  | succ n ih => exact .bind hm (fun a => .bind ih (fun as => .pure (a::as)))

theorem array {m : Zop α} (elsize : ℕ) (hm : IsDecoder m) : IsDecoder (zdrArrayDecode elsize m) := by
  apply IsDecoder.bind (.call .uInt)
  intro size
  by_cases h : (2^32-1)/elsize < size
  · rw [if_pos h]
    exact .fail
  · rw [if_neg h]
    exact .bind (.call (.malloc (size*elsize))) (fun _ => vector hm _)

end IsDecoder

/-- What a call does to the state when it returns TRUE, when it returns FALSE, and when it runs
into undefined behaviour. -/
structure Contract where
  Ok : Zdrs → Zdrs → Prop
  Fail : Zdrs → Zdrs → Prop
  Fault : Zdrs → Zdrs → Prop
  refl : ∀ z, Ok z z
  fail_refl : ∀ z, Fail z z
  trans : ∀ {x y z}, Ok x y → Ok y z → Ok x z
  fail_trans : ∀ {x y z}, Ok x y → Fail y z → Fail x z
  fault_trans : ∀ {x y z}, Ok x y → Fault y z → Fault x z

namespace Contract

/-- The outcome `r` from the state `z` is one the contract allows. -/
structure Holds (c : Contract) (z : Zdrs) (r : Res α × Zdrs) : Prop where
  ok : ∀ a, r.1 = .ok a → c.Ok z r.2
  fail : r.1 = .fail → c.Fail z r.2
  fault : r.1 = .fault → c.Fault z r.2

def Keeps (c : Contract) (m : Zop α) : Prop := ∀ z, c.Holds z (m z)

variable {c : Contract}

theorem holds_pure (a : α) (z : Zdrs) : c.Holds z ((Pure.pure a : Zop α) z) :=
  ⟨fun _ _ => c.refl z,fun h => by simp at h,fun h => by simp at h⟩

theorem holds_fail (z : Zdrs) : c.Holds z ((Zop.fail : Zop α) z) :=
  ⟨fun a h => by simp [Zop.fail] at h,fun _ => c.fail_refl z,fun h => by simp [Zop.fail] at h⟩

theorem holds_bind {m : Zop α} {f : α → Zop β} {z : Zdrs} (hm : c.Holds z (m z))
    (hf : ∀ a y, m z = (.ok a,y) → c.Holds y (f a y)) : c.Holds z ((m >>= f) z) := by
  rcases Zop.cases m z with ⟨a,y,h⟩ | ⟨y,h⟩ | ⟨y,h⟩
  · rw [Zop.bind_ok h]
    have hfa := hf a y h
    rw [h] at hm
    have hy := hm.ok a rfl
    exact ⟨fun b hb => c.trans hy (hfa.ok b hb),fun hb => c.fail_trans hy (hfa.fail hb),
      fun hb => c.fault_trans hy (hfa.fault hb)⟩
  · rw [Zop.bind_fail h]
    rw [h] at hm
    exact ⟨fun b hb => by simp at hb,fun _ => hm.fail rfl,fun hb => by simp at hb⟩
  · rw [Zop.bind_fault h]
    rw [h] at hm
    exact ⟨fun b hb => by simp at hb,fun hb => by simp at hb,fun _ => hm.fault rfl⟩

/-- What the primitives keep, every decoder keeps. -/
theorem keeps_of_isDecoder (h : ∀ {α : Type} {m : Zop α}, Primitive m → c.Keeps m) {m : Zop α}
    (hm : IsDecoder m) : c.Keeps m := by
  induction hm with
  | pure a => exact holds_pure a
  | fail => exact holds_fail
  | call hm => exact h hm
  | bind _ _ ihm ihf => exact fun z => holds_bind (ihm z) (fun a y _ => ihf a y)

end Contract

end Zdrmem
end Libnfs
