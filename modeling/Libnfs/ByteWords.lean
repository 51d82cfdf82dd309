import Mathlib.Tactic

/-! Words of 32 bits in byte lists, in network and in host order, and overwriting
a stretch of a list in place. -/
namespace ByteWords

/-- The word in network order at the front of a byte list. -/
def be32 : List UInt8 → ℕ
  | a::b::c::d::_ => ((a.toNat*256+b.toNat)*256+c.toNat)*256+d.toNat
  | _ => 0

def beBytes (n : ℕ) : List UInt8 :=
  [UInt8.ofNat (n/16777216),UInt8.ofNat (n/65536),UInt8.ofNat (n/256),UInt8.ofNat n]

/-- The word in little-endian order at the front of a byte list. -/
def le32 : List UInt8 → ℕ
  | a::b::c::d::_ => ((d.toNat*256+c.toNat)*256+b.toNat)*256+a.toNat
  | _ => 0

def leBytes (n : ℕ) : List UInt8 :=
  [UInt8.ofNat n,UInt8.ofNat (n/256),UInt8.ofNat (n/65536),UInt8.ofNat (n/16777216)]

@[simp] theorem beBytes_length (n : ℕ) : (beBytes n).length = 4 := rfl
@[simp] theorem leBytes_length (n : ℕ) : (leBytes n).length = 4 := rfl

theorem be32_lt (l : List UInt8) : be32 l < 2^32 := by
  unfold be32
  split
  · rename_i a b c d _
    have ha := a.toNat_lt
    have hb := b.toNat_lt
    have hc := c.toNat_lt
    have hd := d.toNat_lt
    omega
  · norm_num

theorem le32_lt (l : List UInt8) : le32 l < 2^32 := by
  unfold le32
  split
  · rename_i a b c d _
    have ha := a.toNat_lt
    have hb := b.toNat_lt
    have hc := c.toNat_lt
    have hd := d.toNat_lt
    omega
  · norm_num

theorem be32_beBytes (n : ℕ) (h : n < 2^32) (rest : List UInt8) :
    be32 (beBytes n ++ rest) = n := by
  simp only [beBytes,List.cons_append,List.nil_append,be32,UInt8.toNat_ofNat']
  omega

theorem be32_beBytes_self (n : ℕ) (h : n < 2^32) : be32 (beBytes n) = n := by
  have hb := be32_beBytes n h []
  rwa [List.append_nil] at hb

/-- Four bytes hold a word of 32 bits. -/
theorem beBytes_mod (n : ℕ) : beBytes (n%2^32) = beBytes n := by
  simp only [beBytes,List.cons.injEq,and_true]
  refine ⟨?_,?_,?_,?_⟩ <;> apply UInt8.toNat_inj.mp <;> simp only [UInt8.toNat_ofNat'] <;> omega

theorem le32_leBytes (n : ℕ) (h : n < 2^32) (rest : List UInt8) :
    le32 (leBytes n ++ rest) = n := by
  simp only [leBytes,List.cons_append,List.nil_append,le32,UInt8.toNat_ofNat']
  omega

theorem beBytes_be32 (l : List UInt8) (h : l.length = 4) : beBytes (be32 l) = l := by
  match l,h with
  | [a,b,c,d],_ =>
    have ha := a.toNat_lt
    have hb := b.toNat_lt
    have hc := c.toNat_lt
    have hd := d.toNat_lt
    simp only [be32,beBytes,List.cons.injEq,and_true]
    refine ⟨?_,?_,?_,?_⟩ <;> apply UInt8.toNat_inj.mp <;>
      simp only [UInt8.toNat_ofNat'] <;> omega

/-- Only the first four bytes count. -/
theorem be32_append (l rest : List UInt8) (h : l.length = 4) : be32 (l ++ rest) = be32 l := by
  match l,h with
  | [a,b,c,d],_ => rfl

variable {α : Type*}

/-- Replace the stretch that starts at `o` by `bs`. -/
def overwrite (l : List α) (o : ℕ) (bs : List α) : List α :=
  l.take o ++ bs ++ l.drop (o+bs.length)

theorem length_overwrite (l : List α) (o : ℕ) (bs : List α) (h : o ≤ l.length) :
    (overwrite l o bs).length = max l.length (o+bs.length) := by
  simp only [overwrite,List.length_append,List.length_take,List.length_drop]
  omega

theorem overwrite_overwrite (l : List α) (o : ℕ) (a b : List α) (h : o ≤ l.length) :
    overwrite (overwrite l o a) (o+a.length) b = overwrite l o (a++b) := by
  have hlen : (l.take o ++ a).length = o+a.length := by simp [h]
  have htake : (l.take o ++ a ++ l.drop (o+a.length)).take (o+a.length) = l.take o ++ a := by
    rw [List.take_append_of_le_length (by omega),List.take_of_length_le (by omega)]
  have hdrop : (l.take o ++ a ++ l.drop (o+a.length)).drop (o+a.length+b.length) =
      l.drop (o+(a++b).length) := by
    rw [List.drop_append,List.drop_of_length_le (by omega),List.nil_append,List.drop_drop,hlen]
    congr 1
    simp only [List.length_append]
    omega
  simp only [overwrite] at htake hdrop ⊢
  rw [htake,hdrop]
  simp only [List.append_assoc]

theorem take_overwrite (l : List α) (o : ℕ) (bs : List α) (h : o ≤ l.length) :
    (overwrite l o bs).take (o+bs.length) = l.take o ++ bs := by
  have hlen : (l.take o ++ bs).length = o+bs.length := by simp [h]
  rw [overwrite,List.take_append_of_le_length (by omega),List.take_of_length_le (by omega)]

theorem take_overwrite_of_le (l : List α) (o n : ℕ) (bs : List α) (h : o ≤ l.length)
    (hn : n ≤ o) : (overwrite l o bs).take n = l.take n := by
  have hlen : n ≤ (l.take o).length := by simp only [List.length_take]; omega
  rw [overwrite,List.append_assoc,List.take_append_of_le_length hlen,List.take_take]
  congr 1
  omega

theorem getElem?_overwrite_zero (l bs : List α) (i : ℕ) :
    (overwrite l 0 bs)[i]? = if i < bs.length then bs[i]? else l[i]? := by
  simp only [overwrite,List.take_zero,List.nil_append,List.getElem?_append,List.getElem?_drop]
  split
  · rfl
  · congr 1
    omega

/-- `bs` lies in `l` from `o` on. -/
def Holds (l : List α) (o : ℕ) (bs : List α) : Prop := bs <+: l.drop o

theorem holds_append {l : List α} {o : ℕ} {a b : List α} :
    Holds l o (a++b) ↔ Holds l o a ∧ Holds l (o+a.length) b := by
  constructor
  · rintro ⟨rest,hrest⟩
    refine ⟨⟨b++rest,by rw [← hrest,List.append_assoc]⟩,⟨rest,?_⟩⟩
    rw [← List.drop_drop,← hrest,List.append_assoc,List.drop_left]
  · rintro ⟨⟨r,hr⟩,⟨rest,hrest⟩⟩
    rw [← List.drop_drop,← hr,List.drop_left] at hrest
    exact ⟨rest,by rw [← hr,← hrest,List.append_assoc]⟩

theorem Holds.take {l : List α} {o : ℕ} {bs : List α} (h : Holds l o bs) :
    (l.drop o).take bs.length = bs := by
  obtain ⟨rest,hrest⟩ := h
  rw [← hrest,List.take_left]

theorem Holds.getElem? {l : List α} {o : ℕ} {bs : List α} (h : Holds l o bs) {i : ℕ}
    (hi : i < bs.length) : l[o+i]? = bs[i]? := by
  obtain ⟨rest,hrest⟩ := h
  rw [← List.getElem?_drop,← hrest,List.getElem?_append_left hi]

theorem holds_overwrite {l : List α} {o : ℕ} (h : o ≤ l.length) (bs : List α) :
    Holds (overwrite l o bs) o bs := by
  have hlen : (l.take o).length = o := List.length_take_of_le h
  refine ⟨l.drop (o+bs.length),?_⟩
  rw [overwrite,List.append_assoc,List.drop_left' hlen]

/-- Writing what is there changes nothing. -/
theorem Holds.overwrite {l : List α} {o : ℕ} {bs : List α} (h : Holds l o bs) :
    overwrite l o bs = l := by
  obtain ⟨rest,hrest⟩ := h
  have hdrop : l.drop (o+bs.length) = rest := by
    rw [← List.drop_drop,← hrest,List.drop_left]
  rw [ByteWords.overwrite,hdrop,List.append_assoc,hrest,List.take_append_drop]

theorem be32_of_holds {l : List UInt8} {o n : ℕ} (h : Holds l o (beBytes n)) (hn : n < 2^32) :
    be32 ((l.drop o).take 4) = n := by
  have ht := h.take
  rw [beBytes_length] at ht
  rw [ht,be32_beBytes_self n hn]

end ByteWords
