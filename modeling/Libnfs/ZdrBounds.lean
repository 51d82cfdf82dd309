import Libnfs.ZdrDecoder
import Libnfs.Transition

/-! Decoding inside the buffer: where the cursor, the bytes that are read and the pointers that are
handed out lie after a sequence of decode calls over bytes of any contents. -/
namespace Libnfs
namespace Zdrmem

open ByteWords Zdr

variable {α β : Type}

/-- The ghost list of steps only grows. -/
def Grows (m : Zop α) : Prop := ∀ z, z.steps <+: (m z).2.steps

namespace Grows

theorem pure (a : α) : Grows (Pure.pure a : Zop α) := fun z => List.prefix_refl z.steps

theorem bind {m : Zop α} {f : α → Zop β} (hm : Grows m) (hf : ∀ a, Grows (f a)) : Grows (m >>= f) := by
  intro z
  have h := hm z
  rcases Zop.cases m z with ⟨a,y,hy⟩ | ⟨y,hy⟩ | ⟨y,hy⟩
  · rw [hy] at h
    rw [Zop.bind_ok hy]
    exact h.trans (hf a y)
  · rw [Zop.bind_fail hy]
    rwa [hy] at h
  · rw [Zop.bind_fault hy]
    rwa [hy] at h

theorem of_eq {m : Zop α} (h : ∀ z, (m z).2.steps = z.steps) : Grows m := by
  intro z
  rw [h z]

theorem note (s : Step) : Grows (note s) := fun z => List.prefix_append z.steps [s]

theorem room (n : ℕ) : Grows (room n) := by
  intro z
  by_cases h : toInt (z.pos+n) > z.size
  · rw [room_full h]
  · rw [room_pass h]
    exact List.prefix_append _ _

theorem checkLen (n : ℕ) : Grows (checkLen n) := by
  intro z
  by_cases h : toInt (z.pos+sint32 n) > z.size
  · rw [checkLen_full h]
    exact List.prefix_append _ _
  · rw [checkLen_pass h]
    exact List.prefix_append _ _

theorem load (pos : ℤ) (n : ℕ) : Grows (load pos n) := by
  apply of_eq
  intro z
  rw [Zdrmem.load]
  split <;> rfl

theorem loadHere (n : ℕ) : Grows (loadHere n) := fun z => load z.pos n z

theorem store (pos : ℤ) (bs : List UInt8) : Grows (store pos bs) := by
  apply of_eq
  intro z
  rw [Zdrmem.store]
  split <;> rfl

theorem storeHere (bs : List UInt8) : Grows (storeHere bs) := fun z => store z.pos bs z

theorem advance (n : ℕ) : Grows (advance n) := of_eq fun _ => rfl
theorem skip (n : ℕ) : Grows (skip n) := of_eq fun _ => rfl
theorem handOut (n : ℕ) : Grows (handOut n) := of_eq fun _ => rfl
theorem view (r : Slice) : Grows (view r) := of_eq fun _ => rfl
theorem noteFixed (n : ℕ) : Grows (noteFixed n) := fun z => note (.fixed z.pos n) z
theorem terminate (n : ℕ) : Grows (terminate n) := fun z => store (z.pos+n) [0] z

theorem terminated (n : ℕ) : Grows (terminated n) := by
  intro z
  rw [Zdrmem.terminated]
  split
  · exact bind (load _ 1) (fun b => pure _) z
  · exact List.prefix_refl _

theorem malloc (n : ℕ) : Grows (zdrMalloc n) := by
  apply bind (note (.block n))
  intro _
  split
  · exact of_eq fun _ => rfl
  · exact pure ()

theorem uInt : Grows zdrUIntDecode :=
  bind (room 4) fun _ => bind (loadHere 4) fun _ => bind (advance 4) fun _ => pure _

theorem fixed (n : ℕ) : Grows (zdrOpaqueDecode n) :=
  bind (noteFixed n) fun _ => bind (loadHere n) fun _ => bind (skip n) fun _ => pure _

theorem stringInPlace (n : ℕ) : Grows (stringInPlace n) :=
  bind (handOut n) fun r => bind (terminate n) fun _ => bind (skip n) fun _ => view r

theorem stringCopy (n : ℕ) : Grows (stringCopy n) := by
  apply bind (malloc _)
  intro _
  split
  · exact of_eq fun _ => rfl
  · exact fixed n

theorem primitive {m : Zop α} (h : Primitive m) : Grows m := by
  cases h with
  | uInt => exact uInt
  | uInt64 =>
    exact bind (room 8) fun _ => bind (loadHere 4) fun _ => bind (advance 4) fun _ =>
      bind (loadHere 4) fun _ => bind (advance 4) fun _ => pure _
  | bytes =>
    exact bind uInt fun n => bind (checkLen n) fun _ => bind (handOut n) fun _ =>
      bind (skip n) fun _ => pure _
  | bytesInto =>
    exact bind uInt fun n => bind (checkLen n) fun _ => bind (loadHere n) fun _ =>
      bind (skip n) fun _ => pure _
  | fixed n => exact fixed n
  | string =>
    apply bind uInt
    intro n
    apply bind (checkLen n)
    intro _
    apply bind (terminated n)
    intro t
    split
    · exact stringInPlace n
    · exact stringCopy n
  | malloc n => exact malloc n

end Grows

/-- The cursor and the pointers handed out are inside the buffer of `n` bytes. -/
structure Within (n : ℕ) (z : Zdrs) : Prop where
  length : z.buf.length = n
  size : z.size = n
  nonneg : 0 ≤ z.pos
  le : z.pos ≤ n
  aligned : 4 ∣ z.pos
  refs : ∀ r ∈ z.refs, 0 ≤ r.off ∧ r.off+r.len ≤ n

/-- The bytes asked for lie inside the buffer. -/
def Step.Fits (n : ℕ) : Step → Prop
  | .word p k => 0 ≤ p ∧ p+k ≤ n
  | .sized p k => 0 ≤ p ∧ p+k ≤ n
  | .fixed p k => 0 ≤ p ∧ p+k ≤ n
  | .block _ => True

/-- No sum overflows, and rounding up stays inside the buffer. A fixed length is not checked at
all, so that it has to fit. -/
def Step.Plain (n : ℕ) : Step → Prop
  | .word p k => p+k < 2^31
  | .sized p k => p+k < 2^31 ∧ (p+k ≤ n → (p+k+3)/4*4 ≤ n)
  | .fixed p k => (p+k+3)/4*4 ≤ n
  | .block k => k+12 < 2^31

instance (n : ℕ) : (s : Step) → Decidable (s.Plain n)
  | .word p k => inferInstanceAs (Decidable (p+k < 2^31))
  | .sized p k => inferInstanceAs (Decidable (p+k < 2^31 ∧ (p+k ≤ n → (p+k+3)/4*4 ≤ n)))
  | .fixed p k => inferInstanceAs (Decidable ((p+k+3)/4*4 ≤ n))
  | .block k => inferInstanceAs (Decidable (k+12 < 2^31))

def Zdrs.Plain (n : ℕ) (z : Zdrs) : Prop := ∀ s ∈ z.steps, s.Plain n
def Zdrs.Fits (n : ℕ) (z : Zdrs) : Prop := ∀ s ∈ z.steps, s.Fits n

instance (n : ℕ) (z : Zdrs) : Decidable (z.Plain n) :=
  inferInstanceAs (Decidable (∀ s ∈ z.steps, s.Plain n))

theorem Zdrs.Plain.of_prefix {n : ℕ} {y z : Zdrs} (h : z.Plain n) (hp : y.steps <+: z.steps) :
    y.Plain n := fun s hs => h s (hp.subset hs)

/-- Along plain steps a call stays inside the buffer and does not crash, and when it returns TRUE
it had the bytes it asked for. -/
def bounds (n : ℕ) : Contract where
  Ok x y := x.steps <+: y.steps ∧
    (Within n x → y.Plain n → Within n y ∧ (x.Fits n → y.Fits n))
  Fail x y := x.steps <+: y.steps ∧ (Within n x → y.Plain n → Within n y)
  Fault x y := x.steps <+: y.steps ∧ (Within n x → ¬ y.Plain n)
  refl x := ⟨List.prefix_refl _,fun h _ => ⟨h,id⟩⟩
  fail_refl x := ⟨List.prefix_refl _,fun h _ => h⟩
  trans hxy hyz := by
    refine ⟨hxy.1.trans hyz.1,fun hx hz => ?_⟩
    have hy := hxy.2 hx (hz.of_prefix hyz.1)
    have hz' := hyz.2 hy.1 hz
    exact ⟨hz'.1,fun hf => hz'.2 (hy.2 hf)⟩
  fail_trans hxy hyz :=
    ⟨hxy.1.trans hyz.1,fun hx hz => hyz.2 (hxy.2 hx (hz.of_prefix hyz.1)).1 hz⟩
  fault_trans hxy hyz :=
    ⟨hxy.1.trans hyz.1,fun hx hz => hyz.2 (hxy.2 hx (hz.of_prefix hyz.1)).1 hz⟩

variable {n : ℕ} {z : Zdrs}

theorem bounds_intro {m : Zop α} (hm : Grows m) (h : Within n z → (m z).2.Plain n →
    (∃ a y, m z = (.ok a,y) ∧ Within n y ∧ (z.Fits n → y.Fits n)) ∨
      ∃ y, m z = (.fail,y) ∧ Within n y) : (bounds n).Holds z (m z) := by
  have hg := hm z
  refine ⟨fun a ha => ⟨hg,fun hw hp => ?_⟩,fun ha => ⟨hg,fun hw hp => ?_⟩,fun ha => ⟨hg,fun hw hp => ?_⟩⟩
  all_goals rcases h hw hp with ⟨b,y,hy,hb,hf⟩ | ⟨y,hy,hb⟩
  all_goals rw [hy] at ha
  · rw [hy]
    exact ⟨hb,hf⟩
  · simp at ha
  · simp at ha
  · rw [hy]
    exact hb
  · simp at ha
  · simp at ha

theorem Zdrs.Plain.of_bind {m : Zop α} {f : α → Zop β} {a : α} {y : Zdrs} (hy : m z = (.ok a,y))
    (hf : Grows (f a)) (hp : ((m >>= f) z).2.Plain n) : y.Plain n := by
  rw [Zop.bind_ok hy] at hp
  exact hp.of_prefix (hf y)

theorem Within.noted (h : Within n z) (s : Step) : Within n (z.noted s) :=
  ⟨h.length,h.size,h.nonneg,h.le,h.aligned,h.refs⟩

theorem Within.at (h : Within n z) {p : ℤ} (h0 : 0 ≤ p) (hp : p ≤ n) (ha : 4 ∣ p) : Within n (z.at p) :=
  ⟨h.length,h.size,h0,hp,ha,h.refs⟩

theorem Within.handed (h : Within n z) {r : Slice} (h0 : 0 ≤ r.off) (hr : r.off+r.len ≤ n) :
    Within n (z.handed r) := by
  refine ⟨h.length,h.size,h.nonneg,h.le,h.aligned,fun s hs => ?_⟩
  rcases List.mem_append.mp hs with hs | hs
  · exact h.refs s hs
  · rw [List.mem_singleton.mp hs]
    exact ⟨h0,hr⟩

theorem written_length {p : ℤ} {bs : List UInt8} (hi : Inside z p bs.length) :
    (z.written p bs).buf.length = z.buf.length := by
  show (overwrite z.buf p.toNat bs).length = z.buf.length
  rcases hi with hi | hi
  · rw [List.length_eq_zero_iff.mp hi]
    simp [overwrite]
  · rw [length_overwrite _ _ _ (by omega)]
    omega

theorem Within.written (h : Within n z) {p : ℤ} {bs : List UInt8} (hi : Inside z p bs.length) :
    Within n (z.written p bs) :=
  ⟨by rw [written_length hi,h.length],h.size,h.nonneg,h.le,h.aligned,h.refs⟩

theorem Zdrs.Plain.last {s : Step} (h : (z.noted s).Plain n) : s.Plain n :=
  h s (List.mem_append_right _ List.mem_cons_self)

theorem Zdrs.Fits.noted {s : Step} (h : z.Fits n) (hs : s.Fits n) : (z.noted s).Fits n := by
  intro t ht
  rcases List.mem_append.mp ht with ht | ht
  · exact h t ht
  · rwa [List.mem_singleton.mp ht]

/-- A word that passes the check is inside the buffer, unless the sum overflows. -/
theorem Within.word {k : ℕ} (h : Within n z) (hp : z.pos+k < 2^31) (hc : ¬ toInt (z.pos+k) > z.size) :
    toInt (z.pos+k) = z.pos+k ∧ z.pos+k ≤ n := by
  have h0 := h.nonneg
  have ht : toInt (z.pos+k) = z.pos+k := toInt_eq (by omega) hp
  rw [ht,h.size] at hc
  exact ⟨ht,by omega⟩

theorem bounds_uInt : (bounds n).Keeps zdrUIntDecode := by
  intro z
  apply bounds_intro .uInt
  intro h hp
  by_cases hc : toInt (z.pos+4) > z.size
  · exact .inr ⟨z,zdrUIntDecode_full hc,h⟩
  have hs : (z.noted (.word z.pos 4)).Plain n := by
    apply hp.of_bind (room_pass hc)
    exact .bind (.loadHere 4) fun _ => .bind (.advance 4) fun _ => .pure _
  have hw := h.word hs.last hc
  have hl := h.length
  have h0 := h.nonneg
  have ha := h.aligned
  have hi : Inside z z.pos 4 := .inr ⟨h.nonneg,by rw [hl]; exact hw.2⟩
  refine .inl ⟨_,_,zdrUIntDecode_pass hc hi,?_,fun hf => ?_⟩
  · have hr : toInt (z.pos+4) = z.pos+4 ∧ z.pos+4 ≤ n := hw
    rw [hr.1]
    exact (h.noted _).at (by omega) hr.2 (by omega)
  · exact Zdrs.Fits.noted (s := .word z.pos 4) hf ⟨h.nonneg,hw.2⟩

theorem bounds_uInt64 : (bounds n).Keeps zdrUInt64Decode := by
  intro z
  apply bounds_intro (.primitive .uInt64)
  intro h hp
  by_cases hc : toInt (z.pos+(8:ℕ)) > z.size
  · refine .inr ⟨z,?_,h⟩
    rw [zdrUInt64Decode,Zop.bind_fail (room_full hc)]
  have hs : (z.noted (.word z.pos 8)).Plain n := by
    apply hp.of_bind (room_pass hc)
    exact .bind (.loadHere 4) fun _ => .bind (.advance 4) fun _ => .bind (.loadHere 4) fun _ =>
      .bind (.advance 4) fun _ => .pure _
  have hb : z.pos+8 < 2^31 := hs.last
  have hw : z.pos+8 ≤ n := (h.word hs.last hc).2
  have hl := h.length
  have h0 := h.nonneg
  have ha := h.aligned
  have ht4 : toInt (z.pos+(4:ℕ)) = z.pos+4 := toInt_eq (by omega) (by push_cast; omega)
  have ht8 : toInt (z.pos+4+(4:ℕ)) = z.pos+8 := by
    rw [toInt_eq (by omega) (by push_cast; omega)]
    push_cast
    omega
  have hi : Inside (z.noted (.word z.pos 8)) z.pos 4 := .inr ⟨h0,by rw [noted_buf,hl]; push_cast; omega⟩
  have hj : Inside ((z.noted (.word z.pos 8)).at (z.pos+4)) (z.pos+4) 4 :=
    .inr ⟨by omega,by rw [at_buf,noted_buf,hl]; push_cast; omega⟩
  have he : zdrUInt64Decode z = (.ok (be32 ((z.buf.drop z.pos.toNat).take 4)*2^32+
      be32 ((z.buf.drop (z.pos+4).toNat).take 4)),(z.noted (.word z.pos 8)).at (z.pos+8)) := by
    rw [zdrUInt64Decode,Zop.bind_ok (room_pass hc),
      Zop.bind_ok (loadHere_inside (z := z.noted (.word z.pos 8)) hi),Zop.bind_ok (advance_eq 4 _),
      noted_pos,ht4,Zop.bind_ok (loadHere_inside (z := (z.noted (.word z.pos 8)).at (z.pos+4)) hj),
      Zop.bind_ok (advance_eq 4 _),at_pos,ht8]
    rfl
  refine .inl ⟨_,_,he,?_,fun hf => ?_⟩
  · exact (h.noted _).at (by omega) hw (by omega)
  · exact Zdrs.Fits.noted (s := .word z.pos 8) hf ⟨h.nonneg,hw⟩

/-- Data behind a length word that passes the check is inside the buffer with its padding. -/
theorem Within.sized {k : ℕ} (h : Within n z) (hp : Step.Plain n (.sized z.pos k))
    (hc : ¬ toInt (z.pos+sint32 k) > z.size) : z.pos+k ≤ n ∧ (z.pos+k+3)/4*4 ≤ n := by
  have h0 := h.nonneg
  have hb : z.pos+k < 2^31 := hp.1
  rw [sint32,if_pos (by omega),toInt_eq (by omega) hb,h.size] at hc
  have hk : z.pos+k ≤ n := by omega
  exact ⟨hk,hp.2 hk⟩

theorem Within.inside {k : ℕ} (h : Within n z) (hk : z.pos+k ≤ n) : Inside z z.pos k :=
  .inr ⟨h.nonneg,by rw [h.length]; exact hk⟩

/-- What follows a length word: the check, and what is done with so many bytes. -/
theorem bounds_checked {f : Zop α} {k : ℕ} (hf : Grows f)
    (h : ∀ y, Within n y → y.pos+k < 2^31 → (y.pos+k+3)/4*4 ≤ n → y.pos+k ≤ n →
      (bounds n).Holds y (f y)) : (bounds n).Keeps (checkLen k >>= fun _ => f) := by
  intro z
  apply bounds_intro (.bind (.checkLen k) (fun _ => hf))
  intro hw hp
  by_cases hc : toInt (z.pos+sint32 k) > z.size
  · exact .inr ⟨_,Zop.bind_fail (checkLen_full hc),hw.noted _⟩
  have hs := (hp.of_bind (checkLen_pass hc) hf).last
  obtain ⟨hk,hr⟩ := hw.sized hs hc
  have hy := h (z.noted (.sized z.pos k)) (hw.noted _) hs.1 hr hk
  rw [Zop.bind_ok (checkLen_pass hc)] at hp ⊢
  rcases Zop.cases f (z.noted (.sized z.pos k)) with ⟨a,y,e⟩ | ⟨y,e⟩ | ⟨y,e⟩
  · rw [e] at hy hp
    obtain ⟨hy,hf'⟩ := (hy.ok a rfl).2 (hw.noted _) hp
    exact .inl ⟨a,y,e,hy,fun hz => hf' (hz.noted ⟨hw.nonneg,hk⟩)⟩
  · rw [e] at hy hp
    exact .inr ⟨y,e,(hy.fail rfl).2 (hw.noted _) hp⟩
  · rw [e] at hy hp
    exact absurd hp ((hy.fault rfl).2 (hw.noted _))

section

variable (hn : n < 2^31)

include hn

/-- Skipping data that ends inside the buffer with its padding -/
theorem Within.skip {k : ℕ} (h : Within n z) (hr : (z.pos+k+3)/4*4 ≤ n) :
    Within n (z.at (roundUp (toInt (z.pos+k)))) := by
  have h0 := h.nonneg
  have ht : toInt (z.pos+k) = z.pos+k := toInt_eq (by omega) (by omega)
  rw [ht,roundUp_eq (by omega) (by omega)]
  exact h.at (by omega) hr (by omega)

theorem bounds_bytes : (bounds n).Keeps zdrBytesDecode := by
  intro z
  apply Contract.holds_bind (bounds_uInt z)
  intro k y _
  apply bounds_checked (.bind (.handOut k) fun _ => .bind (.skip k) fun _ => .pure _)
  intro y hy _ hr hk
  apply bounds_intro (.bind (.handOut k) fun _ => .bind (.skip k) fun _ => .pure _)
  intro _ _
  refine .inl ⟨⟨y.pos,k⟩,(y.handed ⟨y.pos,k⟩).at (roundUp (toInt (y.pos+k))),rfl,?_,fun hf => hf⟩
  exact Within.skip hn (hy.handed hy.nonneg hk) hr

theorem bounds_bytesInto : (bounds n).Keeps zdrBytesInto := by
  intro z
  apply Contract.holds_bind (bounds_uInt z)
  intro k y _
  apply bounds_checked (.bind (.loadHere k) fun _ => .bind (.skip k) fun _ => .pure _)
  intro y hy _ hr hk
  apply bounds_intro (.bind (.loadHere k) fun _ => .bind (.skip k) fun _ => .pure _)
  intro _ _
  have he : (loadHere k >>= fun bs => skip k >>= fun _ => (pure bs : Zop (List UInt8))) y =
      (.ok ((y.buf.drop y.pos.toNat).take k),y.at (roundUp (toInt (y.pos+k)))) := by
    rw [Zop.bind_ok (loadHere_inside (hy.inside hk))]
    rfl
  exact .inl ⟨_,_,he,hy.skip hn hr,fun hf => hf⟩

theorem bounds_fixed (k : ℕ) : (bounds n).Keeps (zdrOpaqueDecode k) := by
  intro z
  apply bounds_intro (.fixed k)
  intro h hp
  have hs : (z.noted (.fixed z.pos k)).Plain n := by
    apply hp.of_bind (m := noteFixed k) (a := ()) rfl
    exact .bind (.loadHere k) fun _ => .bind (.skip k) fun _ => .pure _
  have hr : (z.pos+k+3)/4*4 ≤ n := hs.last
  have hk : z.pos+k ≤ n := by omega
  have he : zdrOpaqueDecode k z = (.ok ((z.buf.drop z.pos.toNat).take k),
      (z.noted (.fixed z.pos k)).at (roundUp (toInt (z.pos+k)))) := by
    rw [zdrOpaqueDecode,Zop.bind_ok (m := noteFixed k) (a := ()) rfl]
    exact Zop.bind_ok (loadHere_inside (z := z.noted (.fixed z.pos k)) (h.inside hk))
  exact .inl ⟨_,_,he,Within.skip hn (h.noted _) hr,fun hf => hf.noted (s := .fixed z.pos k) ⟨h.nonneg,hk⟩⟩

omit hn in
theorem bounds_malloc (k : ℕ) : (bounds n).Keeps (zdrMalloc k) := by
  intro z
  apply bounds_intro (.malloc k)
  intro h hp
  have hg : Grows (if toInt (12+k) < 12 then Zop.fault else pure ()) := by
    split
    · exact .of_eq fun _ => rfl
    · exact .pure ()
  have he : zdrMalloc k z = (if toInt (12+k) < 12 then Zop.fault else pure ()) (z.noted (.block k)) :=
    Zop.bind_ok (m := note (.block k)) rfl
  have hs : (z.noted (.block k)).Plain n := by
    rw [he] at hp
    exact hp.of_prefix (hg _)
  have hk : k+12 < 2^31 := hs.last
  exact .inl ⟨(),_,zdrMalloc_ok hk,h.noted _,fun hf => hf.noted (s := .block k) trivial⟩

omit hn in
theorem terminated_within {k : ℕ} (h : Within n z) (hb : z.pos+k < 2^31) :
    ∃ t, terminated k z = (.ok t,z) ∧ (t = true → z.pos+(k+1 : ℕ) ≤ n) := by
  have h0 := h.nonneg
  have hk : sint32 k = k := by rw [sint32,if_pos (by omega)]
  rw [terminated,hk,toInt_eq (by omega) hb,h.size]
  split
  · next hlt =>
    have hi : Inside z ((z.pos+k)%2^32) 1 := by
      rw [Int.emod_eq_of_lt (by omega) (by omega)]
      exact .inr ⟨by omega,by rw [h.length]; push_cast; omega⟩
    have hl : load ((z.pos+k)%2^32) 1 z = (.ok ((z.buf.drop ((z.pos+k)%2^32).toNat).take 1),z) := by
      rw [load,if_pos hi]
    exact ⟨_,Zop.bind_ok hl,fun _ => by push_cast; omega⟩
  · exact ⟨false,rfl,fun ht => by simp at ht⟩

theorem bounds_stringInPlace {k : ℕ} (h : Within n z) (hr : (z.pos+k+3)/4*4 ≤ n)
    (hk : z.pos+(k+1 : ℕ) ≤ n) : (bounds n).Holds z (stringInPlace k z) := by
  apply bounds_intro (.stringInPlace k)
  intro _ _
  have h0 := h.nonneg
  push_cast at hk
  have hi : Inside (z.handed ⟨z.pos,k⟩) (z.pos+k) [(0 : UInt8)].length := by
    refine .inr ⟨by omega,?_⟩
    show z.pos+k+1 ≤ z.buf.length
    rw [h.length]
    omega
  have hw := h.handed (r := ⟨z.pos,k⟩) h0 (by show z.pos+k ≤ n; omega)
  have hy : Within n ((z.handed ⟨z.pos,k⟩).written (z.pos+k) [0]) := hw.written hi
  have ht : terminate k (z.handed ⟨z.pos,k⟩) = (.ok (),(z.handed ⟨z.pos,k⟩).written (z.pos+k) [0]) := by
    show store (z.pos+k) [0] _ = _
    rw [store,if_pos hi]
    rfl
  have he : stringInPlace k z =
      (.ok ((((z.handed ⟨z.pos,k⟩).written (z.pos+k) [0]).buf.drop z.pos.toNat).take k),
        ((z.handed ⟨z.pos,k⟩).written (z.pos+k) [0]).at (roundUp (toInt (z.pos+k)))) := by
    rw [stringInPlace,Zop.bind_ok (handOut_eq k z),Zop.bind_ok ht]
    rfl
  exact .inl ⟨_,_,he,hy.skip hn hr,fun hf => hf⟩

theorem bounds_stringCopy {k : ℕ} (h : Within n z) (hb : z.pos+k < 2^31) :
    (bounds n).Holds z (stringCopy k z) := by
  have h0 := h.nonneg
  have hk : ¬ (k+1)%2^32 ≤ k := by omega
  apply Contract.holds_bind (bounds_malloc _ z)
  intro _ y _
  rw [if_neg hk]
  exact bounds_fixed hn k y

theorem bounds_string : (bounds n).Keeps zdrStringDecode := by
  intro z
  apply Contract.holds_bind (bounds_uInt z)
  intro k y _
  have hg : Grows (terminated k >>= fun t => if t then stringInPlace k else stringCopy k) := by
    apply Grows.bind (.terminated k)
    intro t
    cases t
    · exact .stringCopy k
    · exact .stringInPlace k
  apply bounds_checked hg
  intro y hy hb hr hk
  obtain ⟨t,ht,hl⟩ := terminated_within hy hb
  rw [Zop.bind_ok ht]
  cases t with
  | false => exact bounds_stringCopy hn hy hb
  | true => exact bounds_stringInPlace hn hy hr (hl rfl)

theorem bounds_keeps {m : Zop α} (hm : IsDecoder m) : (bounds n).Keeps m := by
  apply Contract.keeps_of_isDecoder _ hm
  intro _ _ hp
  cases hp with
  | uInt => exact bounds_uInt
  | uInt64 => exact bounds_uInt64
  | bytes => exact bounds_bytes hn
  | bytesInto => exact bounds_bytesInto hn
  | fixed k => exact bounds_fixed hn k
  | string => exact bounds_string hn
  | malloc k => exact bounds_malloc k

end

/-- A loop of decode calls that succeeds returns as many values as it was asked for. -/
theorem zdrVectorDecode_length {m : Zop α} {k : ℕ} {as : List α} {y z : Zdrs}
    (h : zdrVectorDecode m k z = (.ok as,y)) : as.length = k := by
  induction k generalizing as y z with
  | zero =>
    have he : (.ok [],z) = ((.ok as,y) : Res (List α) × Zdrs) := h
    simp only [Prod.mk.injEq,Res.ok.injEq] at he
    rw [← he.1]
    rfl
  | succ k ih =>
    obtain ⟨a,x,_,h⟩ := Zop.of_bind_ok h
    obtain ⟨bs,x',hb,h⟩ := Zop.of_bind_ok h
    have he : (.ok (a::bs),x') = ((.ok as,y) : Res (List α) × Zdrs) := h
    simp only [Prod.mk.injEq,Res.ok.injEq] at he
    rw [← he.1,List.length_cons,ih hb]

/-- The count of an array that is returned is the word in front of it: for a count of 2^31 and
more `zdr_malloc` crashes. -/
theorem zdrArrayDecode_count {m : Zop α} {elsize : ℕ} {as : List α} {y : Zdrs}
    (h : zdrArrayDecode elsize m z = (.ok as,y)) : ∃ x, zdrUIntDecode z = (.ok as.length,x) := by
  obtain ⟨k,x,hk,h⟩ := Zop.of_bind_ok h
  refine ⟨x,?_⟩
  by_cases hc : (2^32-1)/elsize < k
  · rw [if_pos hc] at h
    simp [Zop.fail] at h
  rw [if_neg hc] at h
  obtain ⟨_,x',hm,h⟩ := Zop.of_bind_ok h
  have hl := zdrVectorDecode_length h
  have hs : k < 2^31 := by
    by_contra hge
    have he : 0 < elsize := by
      rcases Nat.eq_zero_or_pos elsize with he | he
      · rw [he,Nat.div_zero] at hc
        omega
      · exact he
    have hu : k*elsize ≤ 2^32-1 := (Nat.le_div_iff_mul_le he).mp (Nat.le_of_not_lt hc)
    have hd : k ≤ k*elsize := Nat.le_mul_of_pos_right k he
    rw [zdrMalloc_fault (by omega) (by omega)] at hm
    simp at hm
  rw [hl,hk,sint32,if_pos hs,Int.toNat_natCast]

/-- A decode call of the application -/
structure Decoder where
  proc : Zop Unit
  isDecoder : IsDecoder proc

/-- What the call returns, with the steps it took. -/
def Decoder.call (c : Decoder) (z : Zdrs) : Res Unit × Zdrs := c.proc { z with steps := [] }

/-- The call `m` for its effect on the state -/
def Decoder.of (m : Zop α) (h : IsDecoder m) : Decoder := ⟨m >>= fun _ => pure (),.bind h fun _ => .pure ()⟩

def Decoder.bytes : Decoder := .of zdrBytesDecode (.call .bytes)
def Decoder.words : Decoder := .of (zdrArrayDecode 4 zdrUIntDecode) (.array 4 (.call .uInt))

def decode (z : Zdrs) (c : Decoder) : Zdrs := (c.call z).2

/-- The outcome of a call over a buffer of `n` bytes that stayed inside of it -/
structure InBounds (n : ℕ) (r : Res Unit × Zdrs) : Prop where
  returns : r.1 ≠ .fault
  cursor : 0 ≤ r.2.pos ∧ r.2.pos ≤ r.2.size
  slices : ∀ s ∈ r.2.refs, 0 ≤ s.off ∧ s.off+s.len ≤ n
  reads : r.1 = .ok () → r.2.Fits n
  rejects : ∀ p k, .sized p k ∈ r.2.steps → n < p+k → r.1 = .fail

theorem Within.start {buf : List UInt8} (hn : buf.length < 2^31) :
    Within buf.length (zdrmemCreate buf buf.length) := by
  have hs : (zdrmemCreate buf buf.length).size = buf.length := by
    rw [zdrmemCreate,toInt_eq] <;> omega
  exact ⟨rfl,hs,le_refl (0 : ℤ),Int.natCast_nonneg buf.length,Int.dvd_zero 4,by simp [zdrmemCreate]⟩

theorem Within.call (hn : n < 2^31) (h : Within n z) {c : Decoder} (hp : (c.call z).2.Plain n) :
    Within n (c.call z).2 ∧ InBounds n (c.call z) := by
  have hz : Within n { z with steps := [] } := ⟨h.length,h.size,h.nonneg,h.le,h.aligned,h.refs⟩
  have hk := bounds_keeps hn c.isDecoder { z with steps := [] }
  rcases Zop.cases c.proc { z with steps := [] } with ⟨a,y,hy⟩ | ⟨y,hy⟩ | ⟨y,hy⟩
  · have he : c.call z = (.ok a,y) := hy
    rw [he] at hp ⊢
    rw [hy] at hk
    obtain ⟨hw,hf⟩ := (hk.ok a rfl).2 hz hp
    have hfits : y.Fits n := hf (by simp [Zdrs.Fits])
    refine ⟨hw,by simp,⟨hw.nonneg,by rw [hw.size]; exact hw.le⟩,hw.refs,fun _ => hfits,?_⟩
    intro p k hs hlt
    have h2 := (hfits _ hs).2
    omega
  · have he : c.call z = (.fail,y) := hy
    rw [he] at hp ⊢
    rw [hy] at hk
    have hw := (hk.fail rfl).2 hz hp
    exact ⟨hw,by simp,⟨hw.nonneg,by rw [hw.size]; exact hw.le⟩,hw.refs,by simp,fun _ _ _ _ => rfl⟩
  · have he : c.call z = (.fault,y) := hy
    rw [he] at hp
    rw [hy] at hk
    exact absurd hp ((hk.fault rfl).2 hz)

/-- As long as no call takes a step on which the arithmetic of the cursor goes wrong, every call
of a sequence stays inside the buffer, and it fails when a length does not fit; an array that is
returned has as many elements as its count says. -/
theorem zdr_decode_in_bounds {buf : List UInt8} (hn : buf.length < 2^31) {cs : List Decoder}
    {c : Decoder} (hg : Transition.Guarded decode (fun z c => (c.call z).2.Plain buf.length)
      (zdrmemCreate buf buf.length) (cs++[c])) :
    InBounds buf.length (c.call (Transition.run decode (zdrmemCreate buf buf.length) cs)) ∧
      ∀ (α : Type) (elsize : ℕ) (proc : Zop α) (y z : Zdrs) (as : List α),
        zdrArrayDecode elsize proc y = (.ok as,z) → ∃ x, zdrUIntDecode y = (.ok as.length,x) := by
  refine ⟨?_,fun _ _ _ _ _ _ h => zdrArrayDecode_count h⟩
  rw [Transition.guarded_append] at hg
  have hw : Within buf.length (Transition.run decode (zdrmemCreate buf buf.length) cs) := by
    apply Transition.guarded_induction decode hg.1 (Within.start hn)
    intro u e hu hp
    exact (hu.call hn hp).1
  exact (hw.call hn hg.2.1).2

/-- Three bytes, and an array of one word behind them -/
theorem zdr_decode_in_bounds_words :
    InBounds 16 (Decoder.words.call (Transition.run decode
      (zdrmemCreate [0,0,0,3,97,98,99,0,0,0,0,1,0,0,0,9] 16) [Decoder.bytes])) :=
  (@zdr_decode_in_bounds [0,0,0,3,97,98,99,0,0,0,0,1,0,0,0,9] (by decide) [Decoder.bytes] Decoder.words
    ⟨by decide,by decide,trivial⟩).1

/-- A length of 2^31 passes the check: the slice that is returned is outside of the buffer and the
cursor is negative. -/
theorem zdr_decode_escapes : ¬ ∀ (buf : List UInt8) (cs : List Decoder) (c : Decoder),
    buf.length < 2^31 →
      InBounds buf.length (c.call (Transition.run decode (zdrmemCreate buf buf.length) cs)) := by
  intro h
  have hb := h [128,0,0,0] [] Decoder.bytes (by decide)
  have hp : (Decoder.bytes.call (zdrmemCreate [128,0,0,0] 4)).2.pos = -2147483644 := by decide
  have h0 := hb.cursor.1
  have he : (0 : ℤ) ≤ (Decoder.bytes.call (zdrmemCreate [128,0,0,0] 4)).2.pos := h0
  rw [hp] at he
  omega

end Zdrmem
end Libnfs
