import Mathlib.Data.List.TakeWhile
import Libnfs.ZdrSpec

/-! Wire formats and the codecs that meet them. A format says which bytes stand for a value and
which blocks of memory it takes to decode them; a codec meets it if it writes these bytes and
reads the value back. Every combinator of `lib/libnfs-zdr.c` takes codecs that meet their formats to
one that meets its own. -/
namespace Libnfs
namespace Zdrmem

open ByteWords Zdr

variable {α β : Type}

/-- There are `n` bytes left in the buffer. -/
structure Fit (z : Zdrs) (n : ℕ) : Prop where
  pos : 0 ≤ z.pos
  room : z.pos+n ≤ z.size
  alloc : z.size ≤ z.buf.length
  int : z.size < 2^31

theorem Fit.le {z : Zdrs} {n k : ℕ} (h : Fit z n) (hk : k ≤ n) : Fit z k :=
  ⟨h.pos,by have := h.room; omega,h.alloc,h.int⟩

theorem Fit.congr {y z : Zdrs} {n : ℕ} (h : Fit z n) (hb : y.buf = z.buf) (hp : y.pos = z.pos)
    (hs : y.size = z.size) : Fit y n :=
  ⟨hp ▸ h.pos,by rw [hp,hs]; exact h.room,by rw [hb,hs]; exact h.alloc,hs ▸ h.int⟩

theorem Fit.inside {z : Zdrs} {n : ℕ} (h : Fit z n) : Inside z z.pos n :=
  .inr ⟨h.pos,h.room.trans h.alloc⟩

theorem Fit.pass {z : Zdrs} {n : ℕ} (h : Fit z n) : ¬ toInt (z.pos+n) > z.size := by
  have h1 := h.pos
  have h2 := h.room
  have h3 := h.int
  rw [toInt_eq (by omega) (by omega)]
  omega

theorem Fit.check {z : Zdrs} {n : ℕ} (h : Fit z n) : ¬ toInt (z.pos+sint32 n) > z.size := by
  have h1 := h.pos
  have h2 := h.room
  have h3 := h.int
  rw [sint32,if_pos (by omega)]
  exact h.pass

/-- `bs` was written at the cursor. -/
structure Wrote (z : Zdrs) (bs : List UInt8) (z' : Zdrs) : Prop where
  buf : z'.buf = overwrite z.buf z.pos.toNat bs
  pos : z'.pos = z.pos+bs.length
  size : z'.size = z.size

theorem Wrote.nil {z z' : Zdrs} (hb : z'.buf = z.buf) (hp : z'.pos = z.pos) (hs : z'.size = z.size) :
    Wrote z [] z' :=
  ⟨by simp [hb,overwrite],by simp [hp],hs⟩

theorem Wrote.trans {x y z : Zdrs} {a b : List UInt8} (hx : Fit x a.length) (h : Wrote x a y)
    (h' : Wrote y b z) : Wrote x (a++b) z := by
  have h1 := hx.pos
  have h2 := hx.room
  have h3 := hx.alloc
  have hp := h.pos
  have ho : y.pos.toNat = x.pos.toNat+a.length := by omega
  refine ⟨?_,?_,h'.size.trans h.size⟩
  · rw [h'.buf,h.buf,ho,overwrite_overwrite _ _ _ _ (by omega)]
  · rw [h'.pos,hp,List.length_append]
    omega

theorem Wrote.fit {x y : Zdrs} {a : List UInt8} {n : ℕ} (hx : Fit x (a.length+n)) (h : Wrote x a y) :
    Fit y n := by
  have h1 := hx.pos
  have h2 := hx.room
  have h3 := hx.alloc
  have hp := h.pos
  have hlen : y.buf.length = x.buf.length := by
    rw [h.buf,length_overwrite _ _ _ (by omega)]
    omega
  exact ⟨by omega,by rw [h.size]; omega,by rw [h.size,hlen]; exact h3,by rw [h.size]; exact hx.int⟩

theorem Wrote.aligned {x y : Zdrs} {a : List UInt8} (h : Wrote x a y) (hx : 4 ∣ x.pos)
    (ha : 4 ∣ a.length) : 4 ∣ y.pos := by
  rw [h.pos]
  omega

/-- `m` writes `bs`. -/
def Encodes (m : Zop Unit) (z : Zdrs) (bs : List UInt8) : Prop :=
  ∃ z', m z = (.ok (),z') ∧ Wrote z bs z'

theorem encodes_pure (z : Zdrs) : Encodes (pure ()) z [] := ⟨z,rfl,.nil rfl rfl rfl⟩

theorem Encodes.bind {m n : Zop Unit} {z : Zdrs} {a b : List UInt8} (hz : Fit z a.length)
    (h : Encodes m z a) (h' : ∀ z', Wrote z a z' → Encodes n z' b) :
    Encodes (m >>= fun _ => n) z (a++b) := by
  obtain ⟨y,hm,hw⟩ := h
  obtain ⟨x,hn,hw'⟩ := h' y hw
  exact ⟨x,by rw [Zop.bind_ok hm,hn],hw.trans hz hw'⟩

/-- A call that leaves the buffer and the cursor alone. -/
theorem Encodes.after {m n : Zop Unit} {z y : Zdrs} {b : List UInt8} (hm : m z = (.ok (),y))
    (hb : y.buf = z.buf) (hp : y.pos = z.pos) (hs : y.size = z.size) (h : Encodes n y b) :
    Encodes (m >>= fun _ => n) z b := by
  obtain ⟨x,hn,hw⟩ := h
  exact ⟨x,by rw [Zop.bind_ok hm,hn],by rw [hw.buf,hb,hp],by rw [hw.pos,hp],by rw [hw.size,hs]⟩

theorem advance_pos {z : Zdrs} {n : ℕ} (h : Fit z n) : toInt (z.pos+n) = z.pos+n := by
  have h1 := h.pos
  have h2 := h.room
  have h3 := h.int
  exact toInt_eq (by omega) (by omega)

/-- Bytes are stored and the cursor moves behind them. -/
theorem encodes_put {z : Zdrs} {bs b : List UInt8} {n : Zop Unit} (hz : Fit z bs.length)
    (h : ∀ z', Wrote z bs z' → Encodes n z' b) :
    Encodes (storeHere bs >>= fun _ => advance bs.length >>= fun _ => n) z (bs++b) := by
  have hw : Wrote z bs ((z.written z.pos bs).at (toInt (z.pos+bs.length))) :=
    ⟨rfl,advance_pos hz,rfl⟩
  obtain ⟨x,hn,hw'⟩ := h _ hw
  refine ⟨x,?_,hw.trans hz hw'⟩
  rw [Zop.bind_ok (storeHere_inside bs hz.inside),Zop.bind_ok (advance_eq _ _)]
  exact hn

theorem encodes_put_last {z : Zdrs} {bs : List UInt8} (hz : Fit z bs.length) :
    Encodes (storeHere bs >>= fun _ => advance bs.length) z bs := by
  refine ⟨(z.written z.pos bs).at (toInt (z.pos+bs.length)),?_,rfl,advance_pos hz,rfl⟩
  rw [Zop.bind_ok (storeHere_inside bs hz.inside)]
  rfl

theorem zdrUIntEncode_encodes {z : Zdrs} (u : ℕ) (hz : Fit z 4) :
    Encodes (zdrUIntEncode u) z (beBytes u) :=
  ⟨_,zdrUIntEncode_pass u hz.pass hz.inside,rfl,advance_pos hz,rfl⟩

/-- The zero bytes behind `n` bytes. -/
def padLen (n : ℕ) : ℕ := (4-n%4)%4
def pad (n : ℕ) : List UInt8 := List.replicate (padLen n) 0

@[simp] theorem pad_length (n : ℕ) : (pad n).length = padLen n := by simp [pad]

theorem padLen_dvd (n : ℕ) : 4 ∣ n+padLen n := by
  unfold padLen
  omega

theorem padHere_encodes {z : Zdrs} (n : ℕ) (hz : Fit z (padLen n)) (hp : z.pos%4 = (n%4 : ℕ)) :
    Encodes padHere z (pad n) := by
  have hpad : padding z.pos = padLen n := by
    unfold padding padLen
    omega
  by_cases h0 : padLen n = 0
  · refine ⟨z,by simp only [padHere,hpad,h0,if_true],?_⟩
    simp only [pad,h0,List.replicate_zero]
    exact .nil rfl rfl rfl
  · have hput : padHere z = (storeHere (pad n) >>= fun _ => advance (pad n).length) z := by
      simp only [padHere,hpad,h0,if_false,pad,List.length_replicate]
    rw [Encodes,hput]
    exact encodes_put_last (by simpa using hz)

theorem zdrBytesEncode_encodes {z : Zdrs} (bs : List UInt8) (ha : 4 ∣ z.pos)
    (hz : Fit z (4+(bs.length+padLen bs.length))) :
    Encodes (zdrBytesEncode bs) z (beBytes bs.length ++ (bs ++ pad bs.length)) := by
  refine Encodes.bind (hz.le (by simp)) (zdrUIntEncode_encodes _ (hz.le (by omega))) ?_
  intro y hy
  have hfit : Fit y (bs.length+padLen bs.length) := hy.fit (by simpa using hz)
  have hal : 4 ∣ y.pos := hy.aligned ha (by simp)
  refine Encodes.after (checkLen_pass (hfit.le (by omega)).check) rfl rfl rfl ?_
  have hfit' : Fit (y.noted (.sized y.pos bs.length)) (bs.length+padLen bs.length) :=
    ⟨hfit.pos,hfit.room,hfit.alloc,hfit.int⟩
  refine encodes_put (hfit'.le (by omega)) ?_
  intro x hx
  refine padHere_encodes bs.length (hx.fit hfit') ?_
  rw [hx.pos,noted_pos]
  omega

theorem zdrOpaqueEncode_encodes {z : Zdrs} (bs : List UInt8) (ha : 4 ∣ z.pos)
    (hz : Fit z (bs.length+padLen bs.length)) :
    Encodes (zdrOpaqueEncode bs) z (bs ++ pad bs.length) := by
  refine Encodes.after (y := z.noted (.fixed z.pos bs.length)) rfl rfl rfl rfl ?_
  have hfit' : Fit (z.noted (.fixed z.pos bs.length)) (bs.length+padLen bs.length) :=
    ⟨hz.pos,hz.room,hz.alloc,hz.int⟩
  refine encodes_put (hfit'.le (by omega)) ?_
  intro y hy
  have hfit := hy.fit hfit'
  have hpos : y.pos%4 = (bs.length%4 : ℕ) := by
    rw [hy.pos,noted_pos]
    omega
  have hup : roundUp (toInt (y.pos+(0 : ℕ))) = y.pos+padLen bs.length := by
    have h1 := hfit.pos
    have h2 := hfit.room
    have h3 := hfit.int
    unfold padLen at h2 ⊢
    rw [toInt_eq (by omega) (by omega),roundUp_eq (by omega) (by omega)]
    omega
  by_cases h0 : y.pos%4 = 0
  · have hpad : padLen bs.length = 0 := by unfold padLen; omega
    have hzero : zeroHere y = (.ok (),y) := by simp only [zeroHere,h0,if_true]
    refine ⟨y.at (roundUp (toInt (y.pos+(0 : ℕ)))),by rw [Zop.bind_ok hzero,skip_eq],?_⟩
    simp only [pad,hpad,List.replicate_zero]
    exact .nil rfl (by rw [at_pos,hup,hpad]; simp) rfl
  · have hpad : (4-y.pos%4).toNat = padLen bs.length := by unfold padLen; omega
    have hzero : zeroHere y = (.ok (),y.written y.pos (pad bs.length)) := by
      simp only [zeroHere,h0,if_false,hpad]
      exact storeHere_inside _ (by simpa using hfit.inside)
    refine ⟨(y.written y.pos (pad bs.length)).at (roundUp (toInt (y.pos+(0 : ℕ)))),
      by rw [Zop.bind_ok hzero,skip_eq]; rfl,rfl,?_,rfl⟩
    rw [at_pos,hup,pad_length]

theorem cString_eq {s : List UInt8} (h : 0 ∉ s) : cString s = s := by
  refine List.takeWhile_eq_self_iff.mpr fun b hb => ?_
  have hne : b ≠ 0 := fun h0 => h (h0 ▸ hb)
  simpa using hne

theorem zdrStringEncode_encodes {z : Zdrs} {s : List UInt8} (hs : 0 ∉ s) (ha : 4 ∣ z.pos)
    (hz : Fit z (4+(s.length+padLen s.length))) :
    Encodes (zdrStringEncode s) z (beBytes s.length ++ (s ++ pad s.length)) := by
  have hlt : s.length < 2^32 := by
    have h1 := hz.pos
    have h2 := hz.room
    have h3 := hz.int
    omega
  have heq : zdrStringEncode s = (do
      zdrUIntEncode s.length
      checkLen s.length
      zdrOpaqueEncode s) := by
    simp only [zdrStringEncode,cString_eq hs,Nat.mod_eq_of_lt hlt,List.take_length]
  rw [heq]
  refine Encodes.bind (hz.le (by simp)) (zdrUIntEncode_encodes _ (hz.le (by omega))) ?_
  intro y hy
  have hfit : Fit y (s.length+padLen s.length) := hy.fit (by simpa using hz)
  have hal : 4 ∣ y.pos := hy.aligned ha (by simp)
  refine Encodes.after (checkLen_pass (hfit.le (by omega)).check) rfl rfl rfl ?_
  exact zdrOpaqueEncode_encodes s hal ⟨hfit.pos,hfit.room,hfit.alloc,hfit.int⟩

theorem zdrUInt64Encode_encodes {z : Zdrs} (u : ℕ) (hz : Fit z 8) :
    Encodes (zdrUInt64Encode u) z (beBytes (u/2^32) ++ beBytes u) := by
  refine Encodes.after (room_pass hz.pass) rfl rfl rfl ?_
  have hz' : Fit (z.noted (.word z.pos 8)) (4+4) := ⟨hz.pos,hz.room,hz.alloc,hz.int⟩
  refine encodes_put (n := storeHere (beBytes u) >>= fun _ => advance 4) (hz'.le (by simp)) ?_
  intro y hy
  exact encodes_put_last (hy.fit hz')

/-- `n` bytes were read at the cursor. -/
structure Read (z : Zdrs) (n : ℕ) (z' : Zdrs) : Prop where
  buf : z'.buf = z.buf
  pos : z'.pos = z.pos+n
  size : z'.size = z.size

theorem Read.trans {x y z : Zdrs} {m n : ℕ} (h : Read x m y) (h' : Read y n z) : Read x (m+n) z :=
  ⟨h'.buf.trans h.buf,by rw [h'.pos,h.pos]; omega,h'.size.trans h.size⟩

theorem Read.fit {x y : Zdrs} {m n : ℕ} (hx : Fit x (m+n)) (h : Read x m y) : Fit y n := by
  have h1 := hx.pos
  have h2 := hx.room
  have hp := h.pos
  exact ⟨by omega,by rw [h.size]; omega,by rw [h.size,h.buf]; exact hx.alloc,by rw [h.size]; exact hx.int⟩

theorem Read.aligned {x y : Zdrs} {n : ℕ} (h : Read x n y) (hx : 4 ∣ x.pos) (hn : 4 ∣ n) :
    4 ∣ y.pos := by
  rw [h.pos]
  omega

/-- The buffer holds `bs` at the cursor. -/
def Ahead (z : Zdrs) (bs : List UInt8) : Prop := Holds z.buf z.pos.toNat bs

theorem Ahead.left {z : Zdrs} {a b : List UInt8} (h : Ahead z (a++b)) : Ahead z a :=
  (holds_append.mp h).1

theorem Ahead.right {z y : Zdrs} {a b : List UInt8} (hz : 0 ≤ z.pos) (h : Ahead z (a++b))
    (hr : Read z a.length y) : Ahead y b := by
  have ho : y.pos.toNat = z.pos.toNat+a.length := by
    rw [hr.pos]
    omega
  rw [Ahead,hr.buf,ho]
  exact (holds_append.mp h).2

/-- Blocks that `zdr_malloc` can make. -/
def Allocated (blocks : List ℕ) : Prop := ∀ n ∈ blocks, n+12 < 2^31

instance (blocks : List ℕ) : Decidable (Allocated blocks) :=
  inferInstanceAs (Decidable (∀ n ∈ blocks, _))

@[simp] theorem allocated_nil : Allocated [] := by simp [Allocated]
@[simp] theorem allocated_append (a b : List ℕ) : Allocated (a++b) ↔ Allocated a ∧ Allocated b := by
  simp [Allocated,or_imp,forall_and]
@[simp] theorem allocated_cons (n : ℕ) (b : List ℕ) :
    Allocated (n::b) ↔ n+12 < 2^31 ∧ Allocated b := by
  simp [Allocated]

/-- `m` reads `n` bytes as the value `a`, if it gets the memory for it, and crashes otherwise. -/
structure Decodes (m : Zop α) (z : Zdrs) (a : α) (n : ℕ) (blocks : List ℕ) : Prop where
  ok : Allocated blocks → ∃ z', m z = (.ok a,z') ∧ Read z n z'
  fault : ¬ Allocated blocks → ∃ z', m z = (.fault,z')

theorem decodes_pure (a : α) (z : Zdrs) : Decodes (pure a) z a 0 [] :=
  ⟨fun _ => ⟨z,rfl,rfl,by simp,rfl⟩,fun h => absurd allocated_nil h⟩

theorem Decodes.bind {m : Zop α} {f : α → Zop β} {z : Zdrs} {a : α} {b : β} {k n : ℕ}
    {p q : List ℕ} (h : Decodes m z a k p) (h' : ∀ z', Read z k z' → Decodes (f a) z' b n q) :
    Decodes (m >>= f) z b (k+n) (p++q) := by
  constructor
  · intro hall
    obtain ⟨hp,hq⟩ := (allocated_append p q).mp hall
    obtain ⟨y,hm,hr⟩ := h.ok hp
    obtain ⟨x,hf,hr'⟩ := (h' y hr).ok hq
    exact ⟨x,by rw [Zop.bind_ok hm,hf],hr.trans hr'⟩
  · intro hall
    by_cases hp : Allocated p
    · obtain ⟨y,hm,hr⟩ := h.ok hp
      obtain ⟨x,hf⟩ := (h' y hr).fault fun hq => hall ((allocated_append p q).mpr ⟨hp,hq⟩)
      exact ⟨x,by rw [Zop.bind_ok hm,hf]⟩
    · obtain ⟨y,hm⟩ := h.fault hp
      exact ⟨y,by rw [Zop.bind_fault hm]⟩

theorem Decodes.map {m : Zop α} {z : Zdrs} {a : α} {k : ℕ} {p : List ℕ} (h : Decodes m z a k p)
    (f : α → β) : Decodes (m >>= fun a => pure (f a)) z (f a) k p := by
  have hb := h.bind (f := fun a => pure (f a)) fun z' _ => decodes_pure (f a) z'
  simpa using hb

/-- A call that leaves the buffer and the cursor alone. -/
theorem Decodes.after {m : Zop β} {f : β → Zop α} {z y : Zdrs} {a : α} {b : β} {n : ℕ} {p : List ℕ}
    (hm : m z = (.ok b,y)) (hb : y.buf = z.buf) (hp : y.pos = z.pos) (hs : y.size = z.size)
    (h : Decodes (f b) y a n p) : Decodes (m >>= f) z a n p := by
  constructor
  · intro hall
    obtain ⟨x,hx,hr⟩ := h.ok hall
    exact ⟨x,by rw [Zop.bind_ok hm,hx],hr.buf.trans hb,by rw [hr.pos,hp],hr.size.trans hs⟩
  · intro hall
    obtain ⟨x,hx⟩ := h.fault hall
    exact ⟨x,by rw [Zop.bind_ok hm,hx]⟩

theorem zdrUIntDecode_decodes {z : Zdrs} {u : ℕ} (hu : u < 2^32) (hz : Fit z 4)
    (h : Ahead z (beBytes u)) : Decodes zdrUIntDecode z u 4 [] := by
  refine ⟨fun _ => ⟨(z.noted (.word z.pos 4)).at (toInt (z.pos+4)),?_,rfl,advance_pos hz,rfl⟩,
    fun hn => absurd allocated_nil hn⟩
  rw [zdrUIntDecode_pass hz.pass hz.inside,be32_of_holds h hu]

/-- Four bytes are loaded and the cursor moves behind them. -/
theorem decodes_get {z : Zdrs} {u : ℕ} {f : List UInt8 → Zop α} {a : α} {n : ℕ} (hz : Fit z 4)
    (h : Ahead z (beBytes u)) (hf : ∀ z', Read z 4 z' → Decodes (f (beBytes u)) z' a n []) :
    Decodes (loadHere 4 >>= fun bs => advance 4 >>= fun _ => f bs) z a (4+n) [] := by
  have hload : loadHere 4 z = (.ok (beBytes u),z) := by
    rw [loadHere_inside hz.inside]
    exact congrArg (fun l => (Res.ok l,_)) h.take
  refine Decodes.after hload rfl rfl rfl ?_
  have hadv : Decodes (advance 4) z () 4 [] :=
    ⟨fun _ => ⟨_,advance_eq 4 z,rfl,advance_pos hz,rfl⟩,fun hn => absurd allocated_nil hn⟩
  exact hadv.bind hf

theorem zdrUInt64Decode_decodes {z : Zdrs} {u : ℕ} (hu : u < 2^64) (hz : Fit z 8)
    (h : Ahead z (beBytes (u/2^32) ++ beBytes u)) : Decodes zdrUInt64Decode z u 8 [] := by
  refine Decodes.after (room_pass hz.pass) rfl rfl rfl ?_
  have hz' : Fit (z.noted (.word z.pos 8)) (4+4) := hz.congr rfl rfl rfl
  refine decodes_get (n := 4+0) (hz'.le (by omega)) (show Ahead (z.noted _) _ from h.left) ?_
  intro y hy
  have hlo : Ahead y (beBytes u) := (show Ahead (z.noted _) _ from h).right hz'.pos hy
  refine decodes_get (hy.fit hz') hlo ?_
  intro x _
  have hhi : be32 (beBytes (u/2^32)) = u/2^32 := be32_beBytes_self _ (by omega)
  have hlow : be32 (beBytes u) = u%2^32 := by
    rw [← beBytes_mod,be32_beBytes_self _ (by omega)]
  rw [hhi,hlow,Nat.div_add_mod']
  exact decodes_pure u x

/-- Memory is asked for. -/
theorem zdrMalloc_decodes {z : Zdrs} {n : ℕ} (hn : n < 2^32) : Decodes (zdrMalloc n) z () 0 [n] := by
  constructor
  · intro h
    have hlt := h n List.mem_cons_self
    exact ⟨_,zdrMalloc_ok hlt,rfl,by simp,rfl⟩
  · intro h
    have hge : 2^31 ≤ n+12 := by
      by_contra hlt
      apply h
      simp only [allocated_cons,allocated_nil,and_true]
      omega
    exact ⟨_,zdrMalloc_fault hn hge⟩

/-- What is decoded into a new block. -/
theorem Decodes.malloc {z : Zdrs} {m : Zop α} {a : α} {n k : ℕ} {q : List ℕ} (hn : n < 2^32)
    (h : ∀ z', Read z 0 z' → Decodes m z' a k q) :
    Decodes (zdrMalloc n >>= fun _ => m) z a k (n::q) := by
  have hb := (zdrMalloc_decodes (z := z) hn).bind (f := fun _ => m) h
  rwa [Nat.zero_add] at hb

theorem Read.fit_zero {x y : Zdrs} {n : ℕ} (hx : Fit x n) (h : Read x 0 y) : Fit y n :=
  h.fit (by rw [Nat.zero_add]; exact hx)

theorem Ahead.read_zero {x y : Zdrs} {bs : List UInt8} (hx : 0 ≤ x.pos) (h : Ahead x bs)
    (hr : Read x 0 y) : Ahead y bs := h.right (a := []) hx hr

/-- The cursor moves behind `n` bytes and their padding. -/
theorem skip_read {z : Zdrs} {n : ℕ} (ha : 4 ∣ z.pos) (hz : Fit z (n+padLen n)) :
    Read z (n+padLen n) (z.at (roundUp (toInt (z.pos+n)))) := by
  have h1 := hz.pos
  have h2 := hz.room
  have h3 := hz.int
  refine ⟨rfl,?_,rfl⟩
  unfold padLen at h2 ⊢
  rw [at_pos,toInt_eq (by omega) (by omega),roundUp_eq (by omega) (by omega)]
  omega

theorem skip_decodes {z : Zdrs} {n : ℕ} (ha : 4 ∣ z.pos) (hz : Fit z (n+padLen n)) (a : α) :
    Decodes (skip n >>= fun _ => pure a) z a (n+padLen n) [] :=
  ⟨fun _ => ⟨_,Zop.bind_ok (skip_eq n z),skip_read ha hz⟩,fun h => absurd allocated_nil h⟩

theorem zdrOpaqueDecode_decodes {z : Zdrs} {bs : List UInt8} (ha : 4 ∣ z.pos)
    (hz : Fit z (bs.length+padLen bs.length)) (h : Ahead z bs) :
    Decodes (zdrOpaqueDecode bs.length) z bs (bs.length+padLen bs.length) [] := by
  refine Decodes.after (y := z.noted (.fixed z.pos bs.length)) rfl rfl rfl rfl ?_
  have hin : Inside z z.pos bs.length := (hz.le (by omega)).inside
  have hload : loadHere bs.length (z.noted (.fixed z.pos bs.length)) =
      (.ok bs,z.noted (.fixed z.pos bs.length)) := by
    rw [loadHere_inside (z := z.noted (.fixed z.pos bs.length)) hin]
    exact congrArg (fun l => (Res.ok l,_)) h.take
  refine Decodes.after hload rfl rfl rfl ?_
  exact skip_decodes (z := z.noted (.fixed z.pos bs.length)) ha (hz.congr rfl rfl rfl) bs

theorem zdrBytesDecode_decodes {z : Zdrs} {bs : List UInt8} (ha : 4 ∣ z.pos)
    (hz : Fit z (4+(bs.length+padLen bs.length))) (h : Ahead z (beBytes bs.length)) :
    Decodes zdrBytesDecode z ⟨z.pos+4,bs.length⟩ (4+(bs.length+padLen bs.length)) [] := by
  have hlt : bs.length < 2^32 := by
    have h1 := hz.pos
    have h2 := hz.room
    have h3 := hz.int
    omega
  refine Decodes.bind (p := []) (zdrUIntDecode_decodes hlt (hz.le (by omega)) h) ?_
  intro y hy
  have hfit : Fit y (bs.length+padLen bs.length) := hy.fit hz
  refine Decodes.after (checkLen_pass (hfit.le (by omega)).check) rfl rfl rfl ?_
  refine Decodes.after (handOut_eq _ _) rfl rfl rfl ?_
  have hr : (⟨y.pos,bs.length⟩ : Slice) = ⟨z.pos+4,bs.length⟩ := by rw [hy.pos]; rfl
  rw [← hr]
  exact skip_decodes (z := (y.noted (.sized y.pos bs.length)).handed ⟨y.pos,bs.length⟩)
    (hy.aligned ha (by decide)) (hfit.congr rfl rfl rfl) _

theorem zdrBytes_decodes {z : Zdrs} {bs : List UInt8} (ha : 4 ∣ z.pos)
    (hz : Fit z (4+(bs.length+padLen bs.length)))
    (h : Ahead z (beBytes bs.length ++ (bs ++ pad bs.length))) (fuel : ℕ) :
    Decodes (zdrBytes.dec fuel) z bs (4+(bs.length+padLen bs.length)) [] := by
  have hd := zdrBytesDecode_decodes ha hz h.left
  refine Decodes.bind (n := 0) (p := []) (q := []) hd ?_
  intro y hy
  have hbs : Holds z.buf (z.pos.toNat+4) bs :=
    (holds_append.mp (holds_append.mp h).2).1
  have hoff : (z.pos+4).toNat = z.pos.toNat+4 := by
    have := hz.pos
    omega
  refine ⟨fun _ => ⟨y,?_,rfl,by simp,rfl⟩,fun hn => absurd allocated_nil hn⟩
  simp only [view,hy.buf,hoff,hbs.take]

/-- The byte behind the next `n`, if there is one. -/
def nextByte (z : Zdrs) (n : ℕ) : Option UInt8 :=
  if z.pos+n < z.size then z.buf[(z.pos+n).toNat]? else none

/-- The copy that a string needs if no null byte follows it. -/
def stringBlocks (s : List UInt8) (next : Option UInt8) : List ℕ :=
  if s.length%4 ≠ 0 ∨ next = some 0 then [] else [s.length+1]

/-- Whether the byte behind the string is zero. -/
theorem terminated_eq {z : Zdrs} {s : List UInt8} (hz : Fit z (s.length+padLen s.length))
    (h : Ahead z (s ++ pad s.length)) :
    terminated s.length z =
      (.ok (decide (s.length%4 ≠ 0 ∨ nextByte z (s.length+padLen s.length) = some 0)),z) := by
  have h1 := hz.pos
  have h2 := hz.room
  have h3 := hz.int
  have h4 := hz.alloc
  have hs : sint32 s.length = s.length := by rw [sint32,if_pos (by omega)]
  have hint : toInt (z.pos+s.length) = z.pos+s.length := toInt_eq (by omega) (by omega)
  have hidx : (z.pos+s.length)%2^32 = z.pos+s.length := by omega
  by_cases hlast : z.size > z.pos+s.length
  · have hin : Inside z (z.pos+s.length) 1 := .inr ⟨by omega,by omega⟩
    obtain ⟨b,hb⟩ : ∃ b, z.buf[(z.pos+s.length).toNat]? = some b :=
      ⟨_,List.getElem?_eq_getElem (by omega)⟩
    have hload : load (z.pos+s.length) 1 z = (.ok [b],z) := by
      rw [load,if_pos hin,List.take_one,List.head?_drop,hb]
      rfl
    have hread : terminated s.length z = (.ok (decide ([b] = [0])),z) := by
      simp only [terminated,hs,hint,if_pos hlast,hidx]
      rw [Zop.bind_ok hload]
      rfl
    rw [hread]
    congr 2
    apply decide_eq_decide.mpr
    have hbyte : 0 < padLen s.length → b = 0 := by
      intro hi
      have hget := (holds_append.mp h).2.getElem? (i := 0) (by simpa using hi)
      have hoff : z.pos.toNat+s.length+0 = (z.pos+s.length).toNat := by omega
      rw [hoff,hb,pad,List.getElem?_replicate,if_pos hi] at hget
      exact Option.some.inj hget
    by_cases hmod : s.length%4 = 0
    · have hpad : padLen s.length = 0 := by unfold padLen; omega
      have hnext : nextByte z (s.length+padLen s.length) = some b := by
        rw [nextByte,hpad,Nat.add_zero,if_pos hlast,hb]
      simp [hmod,hnext]
    · have hpad : 0 < padLen s.length := by unfold padLen; omega
      simp [hmod,hbyte hpad]
  · have hpad : padLen s.length = 0 := by omega
    have hmod : s.length%4 = 0 := by unfold padLen at hpad; omega
    have hnext : nextByte z (s.length+padLen s.length) = none := by
      rw [nextByte,if_neg]
      rw [hpad]
      simpa using hlast
    simp only [terminated,hs,hint,hlast,if_false,hnext,hmod]
    simp

theorem stringInPlace_decodes {z : Zdrs} {s : List UInt8} (ha : 4 ∣ z.pos)
    (hz : Fit z (s.length+padLen s.length)) (h : Ahead z (s ++ pad s.length))
    (hend : s.length%4 ≠ 0 ∨ nextByte z (s.length+padLen s.length) = some 0) :
    Decodes (stringInPlace s.length) z s (s.length+padLen s.length) [] := by
  have h1 := hz.pos
  have h2 := hz.room
  have h4 := hz.alloc
  have hoff : (z.pos+s.length).toNat = z.pos.toNat+s.length := by omega
  -- the null byte is there already
  have hzero : z.buf[(z.pos+s.length).toNat]? = some 0 ∧ z.pos+s.length < z.size := by
    by_cases hmod : s.length%4 = 0
    · have hpad : padLen s.length = 0 := by unfold padLen; omega
      have hnext := hend.resolve_left (by simpa using hmod)
      rw [nextByte,hpad,Nat.add_zero] at hnext
      split at hnext
      · rename_i hlt
        exact ⟨hnext,hlt⟩
      · simp at hnext
    · have hpad : 0 < padLen s.length := by unfold padLen; omega
      have hget := (holds_append.mp h).2.getElem? (i := 0) (by simpa using hpad)
      rw [Nat.add_zero,← hoff,pad,List.getElem?_replicate,if_pos hpad] at hget
      exact ⟨hget,by omega⟩
  have hholds : Holds z.buf (z.pos+s.length).toNat [0] := by
    have hlt := (List.getElem?_eq_some_iff.mp hzero.1).1
    rw [Holds,List.drop_eq_getElem_cons hlt,(List.getElem?_eq_some_iff.mp hzero.1).2]
    exact ⟨_,rfl⟩
  have hterm : terminate s.length (z.handed ⟨z.pos,s.length⟩) = (.ok (),z.handed ⟨z.pos,s.length⟩) := by
    have hin : Inside (z.handed ⟨z.pos,s.length⟩) (z.pos+s.length) ([0] : List UInt8).length :=
      .inr ⟨by omega,show z.pos+s.length+((1 : ℕ) : ℤ) ≤ z.buf.length by have := hzero.2; omega⟩
    show store (z.pos+s.length) [0] (z.handed ⟨z.pos,s.length⟩) = _
    rw [store,if_pos hin]
    show (Res.ok (),{ z.handed ⟨z.pos,s.length⟩ with
      buf := overwrite z.buf (z.pos+s.length).toNat [0] }) = _
    rw [hholds.overwrite]
    rfl
  refine Decodes.after (handOut_eq _ _) rfl rfl rfl ?_
  refine Decodes.after hterm rfl rfl rfl ?_
  have hr := skip_read (z := z.handed ⟨z.pos,s.length⟩) ha (hz.congr rfl rfl rfl)
  refine ⟨fun _ => ⟨_,?_,hr⟩,fun hn => absurd allocated_nil hn⟩
  rw [Zop.bind_ok (skip_eq _ _)]
  exact congrArg (fun l => (Res.ok l,_)) h.left.take

theorem stringCopy_decodes {z : Zdrs} {s : List UInt8} (ha : 4 ∣ z.pos)
    (hz : Fit z (s.length+padLen s.length)) (h : Ahead z (s ++ pad s.length)) :
    Decodes (stringCopy s.length) z s (s.length+padLen s.length) [s.length+1] := by
  have hlt : s.length+1 < 2^32 := by
    have h1 := hz.pos
    have h2 := hz.room
    have h3 := hz.int
    omega
  have hmod : (s.length+1)%2^32 = s.length+1 := Nat.mod_eq_of_lt hlt
  have heq : stringCopy s.length = (zdrMalloc (s.length+1) >>= fun _ => zdrOpaqueDecode s.length) := by
    simp only [stringCopy,hmod,Nat.not_succ_le_self,if_false]
  rw [heq]
  refine Decodes.malloc hlt fun y hy => ?_
  exact zdrOpaqueDecode_decodes (hy.aligned ha (by decide)) (hy.fit_zero hz)
    (h.read_zero hz.pos hy).left

theorem zdrStringDecode_decodes {z : Zdrs} {s : List UInt8} (ha : 4 ∣ z.pos)
    (hz : Fit z (4+(s.length+padLen s.length)))
    (h : Ahead z (beBytes s.length ++ (s ++ pad s.length))) :
    Decodes zdrStringDecode z s (4+(s.length+padLen s.length))
      (stringBlocks s (nextByte z (4+(s.length+padLen s.length)))) := by
  have hlt : s.length < 2^32 := by
    have h1 := hz.pos
    have h2 := hz.room
    have h3 := hz.int
    omega
  refine Decodes.bind (p := []) (q := stringBlocks s (nextByte z (4+(s.length+padLen s.length))))
    (zdrUIntDecode_decodes hlt (hz.le (by omega)) h.left) ?_
  intro y hy
  have hfit : Fit y (s.length+padLen s.length) := hy.fit hz
  have hal : 4 ∣ y.pos := hy.aligned ha (by decide)
  have hrest : Ahead y (s ++ pad s.length) := h.right hz.pos hy
  refine Decodes.after (checkLen_pass (hfit.le (by omega)).check) rfl rfl rfl ?_
  have hfit' : Fit (y.noted (.sized y.pos s.length)) (s.length+padLen s.length) :=
    hfit.congr rfl rfl rfl
  have hal' : 4 ∣ (y.noted (.sized y.pos s.length)).pos := hal
  have hnext : nextByte (y.noted (.sized y.pos s.length)) (s.length+padLen s.length) =
      nextByte z (4+(s.length+padLen s.length)) := by
    simp only [nextByte,noted_buf,noted_pos,noted_size,hy.buf,hy.size,hy.pos]
    congr 2 <;> push_cast <;> ring_nf
  refine Decodes.after (terminated_eq hfit' hrest) rfl rfl rfl ?_
  rw [← hnext]
  by_cases hend : s.length%4 ≠ 0 ∨
      nextByte (y.noted (.sized y.pos s.length)) (s.length+padLen s.length) = some 0
  · simp only [stringBlocks,if_pos hend,decide_eq_true hend,if_true]
    exact stringInPlace_decodes hal' hfit' hrest hend
  · simp only [stringBlocks,if_neg hend,decide_eq_false hend]
    exact stringCopy_decodes hal' hfit' hrest

end Zdrmem
end Libnfs
