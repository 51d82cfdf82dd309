import Libnfs.ZdrBounds

/-! Encoding inside the allocation: the buffers of `rpc_allocate_pdu2` and `rpc_allocate_reply_pdu`
(`lib/pdu.c`), and where the encoders write. -/
namespace Libnfs
namespace Zdrmem

open ByteWords Zdr

/-- A sequence of ZDR encode calls. The length of a run of bytes is a `uint32_t`. -/
inductive IsEncoder : Zop Unit → Prop
  | pure : IsEncoder (Pure.pure ())
  | fail : IsEncoder Zop.fail
  | bind {m n : Zop Unit} (hm : IsEncoder m) (hn : IsEncoder n) : IsEncoder (m >>= fun _ => n)
  | uInt (u : ℕ) : IsEncoder (zdrUIntEncode u)
  | uInt64 (u : ℕ) : IsEncoder (zdrUInt64Encode u)
  | bytes (bs : List UInt8) (h : bs.length < 2^32) : IsEncoder (zdrBytesEncode bs)
  | fixed (bs : List UInt8) (h : bs.length < 2^32) : IsEncoder (zdrOpaqueEncode bs)
  | string (s : List UInt8) : IsEncoder (zdrStringEncode s)

namespace IsEncoder

variable {α : Type} {proc : α → Zop Unit}

theorem vector (h : ∀ a, IsEncoder (proc a)) (as : List α) : IsEncoder (zdrVectorEncode proc as) := by
  induction as with
  | nil => exact .pure
  | cons a as ih => exact .bind (h a) ih

theorem array (elsize : ℕ) (h : ∀ a, IsEncoder (proc a)) (as : List α) :
    IsEncoder (zdrArrayEncode elsize proc as) := by
  apply IsEncoder.bind (.uInt as.length)
  split
  · exact .fail
  · exact vector h _

theorem pointer (h : ∀ a, IsEncoder (proc a)) (o : Option α) : IsEncoder (zdrPointerEncode proc o) := by
  cases o with
  | none => exact .uInt 0
  | some a => exact .bind (.uInt 1) (h a)

theorem chain (h : ∀ a, IsEncoder (proc a)) (as : List α) : IsEncoder (zdrChainEncode proc as) := by
  induction as with
  | nil => exact .uInt 0
  | cons a as ih => exact .bind (.uInt 1) (.bind (h a) ih)

end IsEncoder

/-- `k` bytes from `p` on are among the `area` bytes. -/
def Covers (area : ℕ) (p : ℤ) (k : ℕ) : Prop := k = 0 ∨ 0 ≤ p ∧ p+k ≤ area

instance (area : ℕ) (p : ℤ) (k : ℕ) : Decidable (Covers area p k) :=
  inferInstanceAs (Decidable (_ ∨ _))

/-- The data of `k` bytes and the zeroes behind them are among the `area` bytes. -/
def CoversPadded (area : ℕ) (p : ℤ) (k : ℕ) : Prop :=
  Covers area p k ∧ Covers area (toInt (p+k)) (padding (toInt (p+k)))

instance (area : ℕ) (p : ℤ) (k : ℕ) : Decidable (CoversPadded area p k) :=
  inferInstanceAs (Decidable (_ ∧ _))

/-- What a call that starts at the cursor `p` writes has room in the area, unless the check against
`size` turns it away. -/
def Step.Roomy (area : ℕ) (size : ℤ) : Step → Prop
  | .word p k => Covers area p 4 ∧ Covers area (toInt (p+4)) (k-4)
  | .sized p k => toInt (p+sint32 k) ≤ size → CoversPadded area p k
  | .fixed p k => CoversPadded area p k
  | .block _ => True

instance (area : ℕ) (size : ℤ) : (s : Step) → Decidable (s.Roomy area size)
  | .word p k => inferInstanceAs (Decidable (Covers area p 4 ∧ Covers area (toInt (p+4)) (k-4)))
  | .sized p k => inferInstanceAs (Decidable (toInt (p+sint32 k) ≤ size → CoversPadded area p k))
  | .fixed p k => inferInstanceAs (Decidable (CoversPadded area p k))
  | .block _ => inferInstanceAs (Decidable True)

def Zdrs.Roomy (area : ℕ) (size : ℤ) (z : Zdrs) : Prop := ∀ s ∈ z.steps, s.Roomy area size

instance (area : ℕ) (size : ℤ) (z : Zdrs) : Decidable (z.Roomy area size) :=
  inferInstanceAs (Decidable (∀ s ∈ z.steps, s.Roomy area size))

/-- Everything up to the cursor was written inside the area. -/
structure Placed (area : ℕ) (size : ℤ) (z : Zdrs) : Prop where
  length : z.buf.length = area
  sized : z.size = size
  low : -2^31 ≤ z.pos
  high : z.pos < 2^31
  le : z.pos ≤ area

/-- A call faults exactly when it takes a step that has no room. -/
def allocated (area : ℕ) (size : ℤ) : Contract where
  Ok x y := Placed area size x ∧ x.Roomy area size → Placed area size y ∧ y.Roomy area size
  Fail x y := Placed area size x ∧ x.Roomy area size → y.Roomy area size
  Fault x y := Placed area size x ∧ x.Roomy area size → ¬ y.Roomy area size
  refl _ := id
  fail_refl _ h := h.2
  trans hxy hyz hx := hyz (hxy hx)
  fail_trans hxy hyz hx := hyz (hxy hx)
  fault_trans hxy hyz hx := hyz (hxy hx)

section

variable {area : ℕ} {size : ℤ} {y z : Zdrs}

theorem roomy_noted {s : Step} : (z.noted s).Roomy area size ↔ z.Roomy area size ∧ s.Roomy area size := by
  simp [Zdrs.Roomy,Zdrs.noted,or_imp,forall_and]

theorem Zdrs.Roomy.congr (h : z.Roomy area size) (hs : y.steps = z.steps) : y.Roomy area size := by
  rw [Zdrs.Roomy,hs]
  exact h

/-- A call from `z` that writes everything when there is `room`, and faults when there is not -/
def Outcome (area : ℕ) (size : ℤ) (room : Prop) (r : Res Unit × Zdrs) (z : Zdrs) : Prop :=
  (room → ∃ x, r = (.ok (),x) ∧ Placed area size x ∧ x.steps = z.steps) ∧
    (¬ room → ∃ x, r = (.fault,x) ∧ x.steps = z.steps)

namespace Placed

theorem noted (h : Placed area size z) (s : Step) : Placed area size (z.noted s) :=
  ⟨h.length,h.sized,h.low,h.high,h.le⟩

theorem written (h : Placed area size z) {p : ℤ} {bs : List UInt8} (hi : Inside z p bs.length) :
    Placed area size (z.written p bs) :=
  ⟨by rw [written_length hi,h.length],h.sized,h.low,h.high,h.le⟩

theorem moved (h : Placed area size z) {p : ℤ} (hl : -2^31 ≤ p) (hh : p < 2^31) (hp : p ≤ area) :
    Placed area size (z.at p) := ⟨h.length,h.sized,hl,hh,hp⟩

theorem inside (h : Placed area size z) {p : ℤ} {k : ℕ} : Inside z p k ↔ Covers area p k := by
  rw [Inside,Covers,h.length]

/-- Bytes are stored at the cursor, and it moves behind them. -/
theorem put (h : Placed area size z) (bs : List UInt8) (hc : Covers area z.pos bs.length) :
    storeHere bs z = (.ok (),z.written z.pos bs) ∧
      Placed area size ((z.written z.pos bs).at (toInt (z.pos+bs.length))) := by
  have hi := h.inside.mpr hc
  refine ⟨storeHere_inside bs hi,?_⟩
  have hr := toInt_range (z.pos+bs.length)
  apply (h.written hi).moved hr.1 hr.2
  have hl := h.low
  have hh := h.high
  have hp := h.le
  rcases hc with hc | hc
  · rw [hc,toInt_eq (by omega) (by omega)]
    omega
  · have ht := toInt_le (n := z.pos+bs.length) (by omega)
    omega

theorem put_fault (h : Placed area size z) (bs : List UInt8) (hc : ¬ Covers area z.pos bs.length) :
    storeHere bs z = (.fault,z) := storeHere_outside bs fun hi => hc (h.inside.mp hi)

/-- The zeroes behind the data in `libnfs_zdr_bytes` -/
theorem pad (h : Placed area size z) (hc : Covers area z.pos (padding z.pos)) :
    ∃ y, padHere z = (.ok (),y) ∧ Placed area size y ∧ y.steps = z.steps := by
  rw [padHere]
  split
  · exact ⟨z,rfl,h,rfl⟩
  · have hl : Covers area z.pos (List.replicate (padding z.pos) (0 : UInt8)).length := by
      rwa [List.length_replicate]
    obtain ⟨h1,hr⟩ := h.put _ hl
    rw [List.length_replicate] at hr
    exact ⟨_,Zop.bind_ok h1,hr,rfl⟩

theorem pad_fault (h : Placed area size z) (hc : ¬ Covers area z.pos (padding z.pos)) :
    padHere z = (.fault,z) := by
  have hp : padding z.pos ≠ 0 := fun hp => hc (.inl hp)
  rw [padHere,if_neg hp]
  apply Zop.bind_fault
  apply h.put_fault
  rwa [List.length_replicate]

/-- The zeroes behind the data in `libnfs_zdr_opaque` -/
theorem zero (h : Placed area size z) (hc : Covers area z.pos (padding z.pos)) :
    ∃ y, (zeroHere >>= fun _ => skip 0) z = (.ok (),y) ∧ Placed area size y ∧ y.steps = z.steps := by
  have hl := h.low
  have hh := h.high
  have hp := h.le
  have ht : toInt (z.pos+(0 : ℕ)) = z.pos := by rw [toInt_eq] <;> omega
  have hr := toInt_range (z.pos+3)
  have hu : roundUp z.pos ≤ area := by
    rw [roundUp]
    have h3 := toInt_le (n := z.pos+3) (by omega)
    rw [Covers,padding] at hc
    omega
  have hb : -2^31 ≤ roundUp z.pos ∧ roundUp z.pos < 2^31 := by
    rw [roundUp]
    omega
  by_cases h4 : z.pos%4 = 0
  · have he : zeroHere z = (.ok (),z) := by rw [zeroHere,if_pos h4]
    refine ⟨z.at (roundUp z.pos),?_,h.moved hb.1 hb.2 hu,rfl⟩
    rw [Zop.bind_ok he,skip_eq,ht]
  · have hn : (4-z.pos%4).toNat = padding z.pos := by
      rw [padding]
      omega
    have hcl : Covers area z.pos (List.replicate (padding z.pos) (0 : UInt8)).length := by
      rwa [List.length_replicate]
    have hi := h.inside.mpr hcl
    have he : zeroHere z = (.ok (),z.written z.pos (List.replicate (padding z.pos) 0)) := by
      rw [zeroHere,if_neg h4,hn]
      exact storeHere_inside _ hi
    refine ⟨_,?_,(h.written hi).moved hb.1 hb.2 hu,rfl⟩
    rw [Zop.bind_ok he,skip_eq,written_pos,ht]

theorem zero_fault (h : Placed area size z) (hc : ¬ Covers area z.pos (padding z.pos)) :
    (zeroHere >>= fun _ => skip 0) z = (.fault,z) := by
  have hp : padding z.pos ≠ 0 := fun hp => hc (.inl hp)
  have h4 : ¬ z.pos%4 = 0 := by
    rw [padding] at hp
    omega
  have hn : (4-z.pos%4).toNat = padding z.pos := by
    rw [padding]
    omega
  apply Zop.bind_fault
  rw [zeroHere,if_neg h4,hn]
  apply h.put_fault
  rwa [List.length_replicate]

/-- Two stores after each other: both have room, or one of them faults. -/
theorem put_then (h : Placed area size z) (bs : List UInt8) {k : ℤ → ℕ} {tail : Zop Unit}
    (hok : ∀ {y}, Placed area size y → Covers area y.pos (k y.pos) →
      ∃ x, tail y = (.ok (),x) ∧ Placed area size x ∧ x.steps = y.steps)
    (hfault : ∀ {y}, Placed area size y → ¬ Covers area y.pos (k y.pos) → tail y = (.fault,y)) :
    Outcome area size (Covers area z.pos bs.length ∧
      Covers area (toInt (z.pos+bs.length)) (k (toInt (z.pos+bs.length))))
      ((storeHere bs >>= fun _ => advance bs.length >>= fun _ => tail) z) z := by
  by_cases hc : Covers area z.pos bs.length
  · obtain ⟨h1,hp⟩ := h.put _ hc
    rw [Zop.bind_ok h1,Zop.bind_ok (advance_eq _ _),written_pos]
    refine ⟨fun hm => ?_,fun hm => ?_⟩
    · obtain ⟨x,hx,hpx,hs⟩ := hok hp hm.2
      exact ⟨x,hx,hpx,hs⟩
    · refine ⟨_,hfault hp fun hm' => hm ⟨hc,hm'⟩,rfl⟩
  · refine ⟨fun hm => absurd hm.1 hc,fun _ => ⟨z,?_,rfl⟩⟩
    exact Zop.bind_fault (h.put_fault _ hc)

end Placed

theorem allocated_intro {m : Zop Unit} (h : Placed area size z → z.Roomy area size →
    (∃ y, m z = (.ok (),y) ∧ Placed area size y ∧ y.Roomy area size) ∨
      (∃ y, m z = (.fail,y) ∧ y.Roomy area size) ∨
      ∃ y, m z = (.fault,y) ∧ ¬ y.Roomy area size) : (allocated area size).Holds z (m z) := by
  refine ⟨fun a ha hz => ?_,fun ha hz => ?_,fun ha hz => ?_⟩
  all_goals
    rcases h hz.1 hz.2 with ⟨y,hy,hr⟩ | ⟨y,hy,hr⟩ | ⟨y,hy,hr⟩
    all_goals
      rw [hy] at ha ⊢
      first
        | exact hr
        | simp at ha

/-- A step is noted and what follows has room exactly when the step is roomy. -/
theorem Outcome.noted {s : Step} {m : Zop Unit} (hz : z.Roomy area size)
    (h : Outcome area size (s.Roomy area size) (m (z.noted s)) (z.noted s)) :
    (∃ y, m (z.noted s) = (.ok (),y) ∧ Placed area size y ∧ y.Roomy area size) ∨
      (∃ y, m (z.noted s) = (.fail,y) ∧ y.Roomy area size) ∨
      ∃ y, m (z.noted s) = (.fault,y) ∧ ¬ y.Roomy area size := by
  by_cases hs : s.Roomy area size
  · obtain ⟨x,hx,hp,he⟩ := h.1 hs
    exact .inl ⟨x,hx,hp,Zdrs.Roomy.congr (roomy_noted.mpr ⟨hz,hs⟩) he⟩
  · obtain ⟨x,hx,he⟩ := h.2 hs
    exact .inr (.inr ⟨x,hx,fun hr => hs (roomy_noted.mp (hr.congr he.symm)).2⟩)

theorem allocated_uInt (u : ℕ) : (allocated area size).Keeps (zdrUIntEncode u) := by
  intro z
  apply allocated_intro
  intro h hz
  by_cases hc : toInt (z.pos+4) > z.size
  · exact .inr (.inl ⟨z,zdrUIntEncode_full u hc,hz⟩)
  by_cases hi : Inside z z.pos 4
  · have hs : (Step.word z.pos 4).Roomy area size := ⟨h.inside.mp hi,.inl rfl⟩
    have hp := ((h.noted (.word z.pos 4)).put (beBytes u) hs.1).2
    exact .inl ⟨_,zdrUIntEncode_pass u hc hi,hp,Zdrs.Roomy.congr (roomy_noted.mpr ⟨hz,hs⟩) rfl⟩
  · refine .inr (.inr ⟨_,zdrUIntEncode_outside u hc hi,fun hs => ?_⟩)
    exact hi (h.inside.mpr (roomy_noted.mp hs).2.1)

theorem allocated_uInt64 (u : ℕ) : (allocated area size).Keeps (zdrUInt64Encode u) := by
  intro z
  apply allocated_intro
  intro h hz
  by_cases hc : toInt (z.pos+(8 : ℕ)) > z.size
  · exact .inr (.inl ⟨z,Zop.bind_fail (room_full hc),hz⟩)
  have he : zdrUInt64Encode u z = (storeHere (beBytes (u/2^32)) >>= fun _ => advance 4 >>= fun _ =>
      storeHere (beBytes u) >>= fun _ => advance 4) (z.noted (.word z.pos 8)) :=
    Zop.bind_ok (room_pass hc)
  rw [he]
  apply Outcome.noted hz
  apply (h.noted _).put_then (beBytes (u/2^32)) (k := fun _ => 4)
  · intro y hy hm
    obtain ⟨h1,hp⟩ := hy.put (beBytes u) hm
    exact ⟨_,Zop.bind_ok h1,hp,rfl⟩
  · intro y hy hm
    exact Zop.bind_fault (hy.put_fault (beBytes u) hm)

theorem allocated_bytes (bs : List UInt8) : (allocated area size).Keeps (zdrBytesEncode bs) := by
  intro z
  apply Contract.holds_bind (allocated_uInt bs.length z)
  intro _ y _
  apply allocated_intro
  intro h hy
  by_cases hc : toInt (y.pos+sint32 bs.length) > y.size
  · refine .inr (.inl ⟨_,Zop.bind_fail (checkLen_full hc),roomy_noted.mpr ⟨hy,fun hle => ?_⟩⟩)
    rw [h.sized] at hc
    omega
  rw [Zop.bind_ok (checkLen_pass hc)]
  apply Outcome.noted hy
  have ho := (h.noted (.sized y.pos bs.length)).put_then bs (fun hp hm => hp.pad hm) (fun hp hm => hp.pad_fault hm)
  have hle : toInt (y.pos+sint32 bs.length) ≤ size := by
    rw [← h.sized]
    omega
  exact ⟨fun hs => ho.1 (hs hle),fun hs => ho.2 fun hm => hs fun _ => hm⟩

theorem Placed.fixed (h : Placed area size z) (bs : List UInt8) :
    Outcome area size (CoversPadded area z.pos bs.length) (zdrOpaqueEncode bs z)
      (z.noted (.fixed z.pos bs.length)) := by
  have he : zdrOpaqueEncode bs z = (storeHere bs >>= fun _ => advance bs.length >>= fun _ =>
      zeroHere >>= fun _ => skip 0) (z.noted (.fixed z.pos bs.length)) :=
    Zop.bind_ok (m := noteFixed bs.length) rfl
  rw [he]
  exact (h.noted (.fixed z.pos bs.length)).put_then bs (fun hp hm => hp.zero hm)
    (fun hp hm => hp.zero_fault hm)

theorem allocated_fixed (bs : List UInt8) : (allocated area size).Keeps (zdrOpaqueEncode bs) := by
  intro z
  apply allocated_intro
  intro h hz
  have ho := h.fixed bs
  by_cases hs : CoversPadded area z.pos bs.length
  · obtain ⟨x,hx,hp,he⟩ := ho.1 hs
    refine .inl ⟨x,hx,hp,Zdrs.Roomy.congr (roomy_noted.mpr ⟨hz,?_⟩) he⟩
    exact hs
  · obtain ⟨x,hx,he⟩ := ho.2 hs
    exact .inr (.inr ⟨x,hx,fun hr => hs (roomy_noted.mp (hr.congr he.symm)).2⟩)

theorem allocated_string (s : List UInt8) : (allocated area size).Keeps (zdrStringEncode s) := by
  intro z
  apply Contract.holds_bind (allocated_uInt _ z)
  intro _ y _
  apply allocated_intro
  intro h hy
  generalize hk : (cString s).length%2^32 = k
  have hlen : ((cString s).take k).length = k := by
    rw [List.length_take]
    omega
  by_cases hc : toInt (y.pos+sint32 k) > y.size
  · refine .inr (.inl ⟨_,Zop.bind_fail (checkLen_full hc),roomy_noted.mpr ⟨hy,fun hle => ?_⟩⟩)
    rw [h.sized] at hc
    omega
  rw [Zop.bind_ok (checkLen_pass hc)]
  have ho := (h.noted (.sized y.pos k)).fixed ((cString s).take k)
  rw [hlen] at ho
  by_cases hs : CoversPadded area y.pos k
  · obtain ⟨x,hx,hp,he⟩ := ho.1 hs
    have hr : (y.noted (.sized y.pos k)).Roomy area size := roomy_noted.mpr ⟨hy,fun _ => hs⟩
    have hf : (Step.fixed y.pos k).Roomy area size := hs
    exact .inl ⟨x,hx,hp,Zdrs.Roomy.congr (roomy_noted.mpr ⟨hr,hf⟩) he⟩
  · obtain ⟨x,hx,he⟩ := ho.2 hs
    exact .inr (.inr ⟨x,hx,fun hr => hs (roomy_noted.mp (hr.congr he.symm)).2⟩)

theorem allocated_keeps {m : Zop Unit} (hm : IsEncoder m) : (allocated area size).Keeps m := by
  induction hm with
  | pure => exact Contract.holds_pure ()
  | fail => exact Contract.holds_fail
  | bind _ _ ihm ihn => exact fun z => Contract.holds_bind (ihm z) (fun _ y _ => ihn y)
  | uInt u => exact allocated_uInt u
  | uInt64 u => exact allocated_uInt64 u
  | bytes bs _ => exact allocated_bytes bs
  | fixed bs _ => exact allocated_fixed bs
  | string s => exact allocated_string s

end

/-- `ZDR_ENCODEBUF_MINSIZE` -/
def zdrEncodebufMinsize : ℕ := 4096

/-- The bytes of the `out` data area, behind `pduSize` bytes for the structures, in the block of
`malloc(pdu_size + ZDR_ENCODEBUF_MINSIZE + alloc_hint)`; the sum is a `size_t`. -/
def outdataSize (pduSize allocHint : ℕ) : ℕ := (pduSize+zdrEncodebufMinsize+allocHint)%2^64-pduSize

/-- The two functions that allocate a PDU: `rpc_allocate_pdu2` and `rpc_allocate_reply_pdu` -/
inductive PduKind
  | call
  | reply
  deriving DecidableEq, Repr

/-- The `size` of the ZDR structure, which starts behind the four bytes of the record marker. -/
def PduKind.zdrSize (allocHint : ℕ) : PduKind → ℕ
  | .call => zdrEncodebufMinsize+allocHint-4
  | .reply => zdrEncodebufMinsize+allocHint

/-- The ZDR structure of a new PDU -/
def allocatePdu (kind : PduKind) (outdata : List UInt8) (allocHint : ℕ) : Zdrs :=
  zdrmemCreate (outdata.drop 4) (kind.zdrSize allocHint)

/-- The outcome of encoding into the data area: nothing was written outside of it, and when the
message was encoded it ends in it. -/
def EncodedInside (outdata : List UInt8) (r : Res Unit × Zdrs) : Prop :=
  r.1 ≠ .fault ∧ (r.1 = .ok () → r.2.pos ≤ (outdata.drop 4).length)

end Zdrmem
end Libnfs
