import Libnfs.ZdrFormat

/-! Encoders that return TRUE exactly where their bytes fit. -/
namespace Libnfs
namespace Zdrmem

open ByteWords Zdr

/-- The buffer ends with its memory. -/
structure Whole (z : Zdrs) : Prop where
  pos : 0 ≤ z.pos
  inside : z.pos ≤ z.size
  alloc : z.size = z.buf.length
  int : z.size+8 < 2^31

theorem Whole.fit {z : Zdrs} {n : ℕ} (h : Whole z) (hn : z.pos+n ≤ z.size) : Fit z n :=
  ⟨h.pos,hn,h.alloc.le,by have := h.int; omega⟩

theorem Whole.wrote {z z' : Zdrs} {bs : List UInt8} (h : Whole z) (hw : Wrote z bs z') (hf : Fit z bs.length) : Whole z' := by
  have h1 := h.pos
  have h2 := hf.room
  have h3 := h.alloc
  have hp := hw.pos
  have hs := hw.size
  have hlen : z'.buf.length = z.buf.length := by
    rw [hw.buf,length_overwrite _ _ _ (by omega)]
    omega
  exact ⟨by omega,by omega,by rw [hs,hlen,h3],by rw [hs]; exact h.int⟩

/-- `m` writes `bs` where they fit, and fails where they do not. -/
structure Marshals (m : Zop Unit) (bs : List UInt8) : Prop where
  aligned : 4 ∣ bs.length
  writes : Writes m bs
  fits : ∀ z z', Whole z → 4 ∣ z.pos → m z = (.ok (),z') → Fit z bs.length

namespace Marshals

variable {m n : Zop Unit} {a b : List UInt8}

theorem nil : Marshals (pure ()) [] where
  aligned := ⟨0,rfl⟩
  writes := writes_pure
  fits z _ hz _ _ := hz.fit (by simpa using hz.inside)

theorem bind (hm : Marshals m a) (hn : Marshals n b) : Marshals (m >>= fun _ => n) (a ++ b) where
  aligned := by
    rw [List.length_append]
    exact hm.aligned.add hn.aligned
  writes := hm.writes.bind hm.aligned hn.writes
  fits z z' hz ha h := by
    obtain ⟨_,y,hy,hn'⟩ := Zop.of_bind_ok h
    have hfit := hm.fits z y hz ha hy
    obtain ⟨y',hy',hw⟩ := hm.writes z ha hfit
    obtain rfl : y = y' := (Prod.mk.inj (hy.symm.trans hy')).2
    have hfit' := hn.fits y z' (hz.wrote hw hfit) (hw.aligned ha hm.aligned) hn'
    have hroom := hfit'.room
    rw [hw.pos,hw.size] at hroom
    exact hz.fit (by rw [List.length_append]; omega)

/-- Whole and successful, the call is the one of the specification. -/
theorem wrote {z z' : Zdrs} (hm : Marshals m a) (hz : Whole z) (ha : 4 ∣ z.pos) (h : m z = (.ok (),z')) :
    Fit z a.length ∧ Wrote z a z' := by
  have hfit := hm.fits z z' hz ha h
  obtain ⟨y,hy,hw⟩ := hm.writes z ha hfit
  obtain rfl : z' = y := (Prod.mk.inj (h.symm.trans hy)).2
  exact ⟨hfit,hw⟩

theorem room {z z' : Zdrs} {k : ℕ} (hz : Whole z) (hk : k ≤ 8) (h : Zdrmem.room k z = (.ok (),z')) :
    z.pos+k ≤ z.size := by
  have h1 := hz.pos
  have h2 := hz.inside
  have h3 := hz.int
  by_cases hr : toInt (z.pos+k) > z.size
  · rw [room_full hr] at h
    simp at h
  · rw [toInt_eq (by omega) (by omega)] at hr
    omega

theorem word (u : ℕ) : Marshals (zdrUIntEncode u) (beBytes u) where
  aligned := ⟨1,rfl⟩
  writes := writes_word u
  fits z z' hz _ h := by
    unfold zdrUIntEncode at h
    obtain ⟨_,y,hy,-⟩ := Zop.of_bind_ok h
    have := room hz (by decide) hy
    exact hz.fit this

theorem uInt (u : UInt32) : Marshals (zdrUInt.enc u) (beBytes u.toNat) := word u.toNat

theorem enum (u : UInt32) : Marshals (zdrEnum.enc u) (beBytes u.toNat) := by
  have h := word (u.toInt32.toUInt32).toNat
  exact h

theorem uInt64 (u : UInt64) : Marshals (zdrUInt64.enc u) (Format.uInt64.bytes u) where
  aligned := ⟨2,rfl⟩
  writes := meets_uInt64.writes u trivial
  fits z z' hz _ h := by
    have h' : zdrUInt64Encode u.toNat z = (.ok (),z') := h
    unfold zdrUInt64Encode at h'
    obtain ⟨_,y,hy,-⟩ := Zop.of_bind_ok h'
    have := room hz le_rfl hy
    exact hz.fit this

/-- A store within a buffer that is whole -/
theorem store {z z' : Zdrs} {bs : List UInt8} (hz : Whole z) (h : storeHere bs z = (.ok (),z')) :
    z.pos+bs.length ≤ z.size ∧ z' = z.written z.pos bs := by
  have h2 := hz.inside
  have h3 := hz.alloc
  by_cases hi : Inside z z.pos bs.length
  · rw [storeHere_inside bs hi] at h
    refine ⟨?_,(Prod.mk.inj h).2.symm⟩
    rcases hi with h0 | hi
    · omega
    · omega
  · rw [storeHere_outside bs hi] at h
    simp at h

theorem written {z : Zdrs} {bs : List UInt8} (hz : Whole z) (hb : z.pos+bs.length ≤ z.size) :
    Whole ((z.written z.pos bs).at (toInt (z.pos+bs.length))) ∧ toInt (z.pos+bs.length) = z.pos+bs.length := by
  have h1 := hz.pos
  have h3 := hz.alloc
  have h4 := hz.int
  have hpos : toInt (z.pos+bs.length) = z.pos+bs.length := toInt_eq (by omega) (by omega)
  have hlen : (overwrite z.buf z.pos.toNat bs).length = z.buf.length := by
    rw [length_overwrite _ _ _ (by omega)]
    omega
  refine ⟨⟨?_,?_,?_,h4⟩,hpos⟩
  · rw [hpos]
    simp only [at_pos]
    omega
  · rw [hpos]
    exact hb
  · exact h3.trans (by rw [← hlen]; rfl)

theorem bytes (bs : List UInt8) : Marshals (zdrBytes.enc bs) (Format.sized bs) where
  aligned := sized_aligned bs
  writes := writes_bytes bs
  fits z z' hz ha h := by
    have h' : zdrBytesEncode bs z = (.ok (),z') := h
    unfold zdrBytesEncode at h'
    obtain ⟨_,y,hy,h'⟩ := Zop.of_bind_ok h'
    obtain ⟨hfit,hw⟩ := (word bs.length).wrote hz ha hy
    have hy' := hz.wrote hw hfit
    obtain ⟨_,x,hx,h'⟩ := Zop.of_bind_ok h'
    obtain rfl : x = y.noted (.sized y.pos bs.length) := by
      by_cases hc : toInt (y.pos+sint32 bs.length) > y.size
      · rw [checkLen_full hc] at hx
        simp at hx
      · rw [checkLen_pass hc] at hx
        exact (Prod.mk.inj hx).2.symm
    have hx' : Whole (y.noted (.sized y.pos bs.length)) := ⟨hy'.pos,hy'.inside,hy'.alloc,hy'.int⟩
    obtain ⟨_,w,hs,h'⟩ := Zop.of_bind_ok h'
    obtain ⟨hroom,rfl⟩ := store hx' hs
    obtain ⟨_,v,hv,h'⟩ := Zop.of_bind_ok h'
    rw [advance_eq] at hv
    obtain rfl := (Prod.mk.inj hv).2
    obtain ⟨hwhole,hpos⟩ := written hx' hroom
    simp only [noted_pos,noted_size] at hroom hpos
    have hyp := hw.pos
    have hys := hw.size
    rw [beBytes_length] at hyp
    have hpad : padding (y.pos+bs.length) = padLen bs.length := by
      unfold padding padLen
      omega
    refine hz.fit ?_
    rw [sized_length]
    by_cases h0 : padLen bs.length = 0
    · omega
    · unfold padHere at h'
      simp only [at_pos,noted_pos,written_pos,hpos,hpad,h0,if_false] at h'
      obtain ⟨_,u,hu,-⟩ := Zop.of_bind_ok h'
      have hwhole' := hwhole
      simp only [noted_pos,hpos] at hwhole'
      have hlast := (store hwhole' hu).1
      simp only [at_pos,List.length_replicate,at_size,written_size,noted_size] at hlast
      omega

theorem fixed (bs : List UInt8) (h4 : 4 ∣ bs.length) : Marshals (zdrOpaqueEncode bs) bs where
  aligned := h4
  writes z ha hz := by
    have hpad : padLen bs.length = 0 := by
      unfold padLen
      omega
    have := zdrOpaqueEncode_encodes bs ha (z := z) (by rw [hpad]; exact hz)
    rwa [pad,hpad,List.replicate_zero,List.append_nil] at this
  fits z z' hz ha h := by
    unfold zdrOpaqueEncode at h
    obtain ⟨_,y,hy,h⟩ := Zop.of_bind_ok h
    obtain rfl : y = z.noted (.fixed z.pos bs.length) := (Prod.mk.inj hy).2.symm
    obtain ⟨_,x,hx,-⟩ := Zop.of_bind_ok h
    have hz' : Whole (z.noted (.fixed z.pos bs.length)) := ⟨hz.pos,hz.inside,hz.alloc,hz.int⟩
    exact hz.fit (store hz' hx).1

theorem vector {α : Type} {proc : α → Zop Unit} {g : α → List UInt8} {as : List α}
    (h : ∀ x ∈ as, Marshals (proc x) (g x)) : Marshals (zdrVectorEncode proc as) (as.flatMap g) := by
  induction as with
  | nil => exact nil
  | cons x as ih =>
    rw [List.flatMap_cons]
    exact (h x List.mem_cons_self).bind (ih fun y hy => h y (List.mem_cons_of_mem x hy))

theorem array {α : Type} {proc : α → Zop Unit} {g : α → List UInt8} {as : List α} {elsize : ℕ}
    (h : ∀ x ∈ as, Marshals (proc x) (g x)) (hsize : as.length ≤ (2^32-1)/elsize) (hlen : as.length < 2^31) :
    Marshals (zdrArrayEncode elsize proc as) (beBytes as.length ++ as.flatMap g) := by
  have hall : as.take (sint32 as.length).toNat = as := by
    unfold sint32
    rw [if_pos hlen,Int.toNat_natCast,List.take_length]
  unfold zdrArrayEncode
  rw [if_neg (by omega),hall]
  exact (word as.length).bind (vector h)

end Marshals

end Zdrmem
end Libnfs
