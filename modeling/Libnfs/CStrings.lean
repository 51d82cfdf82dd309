import Libnfs.ByteWords

/-! Strings of C in a buffer of bytes. What an access outside of the buffer leads to is `none`. -/
namespace CString

open ByteWords

/-- A string without its end -/
def CStr := { s : List UInt8 // 0 ∉ s }

/-- The string that starts where the bytes do -/
def text (buf : List UInt8) : List UInt8 := buf.takeWhile (· ≠ 0)

def strlen : List UInt8 → Option ℕ
  | [] => none
  | b::bs => if b = 0 then some 0 else (strlen bs).map (·+1)

/-- How far it is to the first `c` of the string, if there is one -/
def strchr (c : UInt8) : List UInt8 → Option (Option ℕ)
  | [] => none
  | b::bs => if b = c then some (some 0) else if b = 0 then some none else (strchr c bs).map (·.map (·+1))

/-- `memcpy` from other memory -/
def memcpy (buf : List UInt8) (dst : ℕ) (bs : List UInt8) : Option (List UInt8) :=
  if dst+bs.length ≤ buf.length then some (overwrite buf dst bs) else none

/-- `calloc(1,n)`, if there are `n` bytes; no object has 2^63. -/
def calloc (free : Bool) (n : ℕ) : Option (List UInt8) :=
  if free = true ∧ n < 2^63 then some (List.replicate n 0) else none

def memmove (buf : List UInt8) (dst src n : ℕ) : Option (List UInt8) :=
  if src+n ≤ buf.length then memcpy buf dst ((buf.drop src).take n) else none

variable {a b d s junk buf buf' bs : List UInt8} {c : UInt8} {n dst : ℕ}

/-- A string ends at its first zero. -/
theorem text_append (s junk : List UInt8) : text (s ++ 0::junk) = text s := by
  induction s with
  | nil => rfl
  | cons x s ih =>
    rw [List.cons_append,text,text,List.takeWhile_cons,List.takeWhile_cons,← text,ih]
    rfl

@[simp] theorem strlen_append (h : 0 ∉ s) : strlen (s ++ 0::junk) = some s.length := by
  induction s with
  | nil => rfl
  | cons x s ih =>
    have hx : x ≠ 0 := fun hx => h (by simp [hx])
    rw [List.cons_append,strlen,if_neg hx,ih fun hs => h (List.mem_cons_of_mem x hs)]
    rfl

theorem strchr_found (h : 0 ∉ a) (hc : c ∉ a) : strchr c (a ++ c::junk) = some (some a.length) := by
  induction a with
  | nil => simp [strchr]
  | cons x a ih =>
    have hx : x ≠ 0 := fun hx => h (by simp [hx])
    have hxc : x ≠ c := fun hx => hc (by simp [hx])
    rw [List.cons_append,strchr,if_neg hxc,if_neg hx,
      ih (fun hs => h (List.mem_cons_of_mem x hs)) fun hs => hc (List.mem_cons_of_mem x hs)]
    rfl

theorem strchr_none (hc0 : c ≠ 0) (h : 0 ∉ s) (hc : c ∉ s) : strchr c (s ++ 0::junk) = some none := by
  induction s with
  | nil => simp [strchr,Ne.symm hc0]
  | cons x s ih =>
    have hx : x ≠ 0 := fun hx => h (by simp [hx])
    have hxc : x ≠ c := fun hx => hc (by simp [hx])
    rw [List.cons_append,strchr,if_neg hxc,if_neg hx,
      ih (fun hs => h (List.mem_cons_of_mem x hs)) fun hs => hc (List.mem_cons_of_mem x hs)]
    rfl

theorem memcpy_length (h : memcpy buf dst bs = some buf') : buf'.length = buf.length := by
  unfold memcpy at h
  split at h
  · rw [← Option.some.inj h,length_overwrite _ _ _ (by omega)]
    omega
  · simp at h

/-- The bytes go where bytes as many were. -/
theorem memcpy_append (h : b.length = bs.length) : memcpy (a ++ b ++ d) a.length bs = some (a ++ bs ++ d) := by
  have hle : a.length+bs.length ≤ (a ++ b ++ d).length := by
    rw [List.length_append,List.length_append,h]
    omega
  have htake : (a ++ b ++ d).take a.length = a := by rw [List.append_assoc,List.take_left]
  have hdrop : (a ++ b ++ d).drop (a.length+bs.length) = d := by rw [← h,← List.length_append,List.drop_left]
  rw [memcpy,if_pos hle,overwrite,htake,hdrop]

/-- The bytes `b` move up, over the bytes `s` in front of them. -/
theorem memmove_up : ∃ junk,
    memmove (a ++ s ++ b ++ d) a.length (a.length+s.length) b.length = some (a ++ b ++ junk ++ d) ∧
    junk.length = s.length := by
  have hle : a.length+s.length+b.length ≤ (a ++ s ++ b ++ d).length := by
    simp only [List.length_append]
    omega
  have hsrc : ((a ++ s ++ b ++ d).drop (a.length+s.length)).take b.length = b := by
    rw [← List.length_append,List.append_assoc _ b,List.drop_left,List.take_left]
  have hsplit : a ++ s ++ b ++ d = a ++ (s ++ b).take b.length ++ ((s ++ b).drop b.length ++ d) := by
    simp only [List.append_assoc]
    rw [← List.append_assoc (List.take _ _),List.take_append_drop,List.append_assoc]
  have hfront : ((s ++ b).take b.length).length = b.length := by
    rw [List.length_take,List.length_append]
    omega
  refine ⟨(s ++ b).drop b.length,?_,by rw [List.length_drop,List.length_append]; omega⟩
  rw [memmove,if_pos hle,hsrc,hsplit,memcpy_append hfront]
  simp only [List.append_assoc]

end CString
