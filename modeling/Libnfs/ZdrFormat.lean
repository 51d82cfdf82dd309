import Libnfs.ZdrCodec

/-! The round trip of every value built with the combinators of `lib/libnfs-zdr.c`: formats, the
codecs that meet them, and the closure of these under the combinators. -/
namespace Libnfs
namespace Zdrmem

open ByteWords Zdr

variable {α β : Type}

/-- The bytes of a value, and the blocks of memory and the nested calls it takes to decode them
when `next` is the byte that follows. -/
structure Format (α : Type) where
  Valid : α → Prop
  bytes : α → List UInt8
  blocks : α → Option UInt8 → List ℕ := fun _ _ => []
  depth : α → ℕ := fun _ => 0

/-- `m` writes `bs` wherever there is room. -/
def Writes (m : Zop Unit) (bs : List UInt8) : Prop :=
  ∀ z, 4 ∣ z.pos → Fit z bs.length → Encodes m z bs

/-- `m` reads `bs` as the value `a` wherever they lie. -/
def Reads (m : Zop α) (a : α) (bs : List UInt8) (blocks : Option UInt8 → List ℕ) : Prop :=
  ∀ z, 4 ∣ z.pos → Fit z bs.length → Ahead z bs →
    Decodes m z a bs.length (blocks (nextByte z bs.length))

structure Meets (c : Codec α) (f : Format α) : Prop where
  aligned : ∀ v, f.Valid v → 4 ∣ (f.bytes v).length
  writes : ∀ v, f.Valid v → Writes (c.enc v) (f.bytes v)
  reads : ∀ v fuel, f.Valid v → f.depth v ≤ fuel → Reads (c.dec fuel) v (f.bytes v) (f.blocks v)

namespace Format

def uInt : Format UInt32 where
  Valid _ := True
  bytes u := beBytes u.toNat

def int : Format Int32 where
  Valid _ := True
  bytes i := beBytes i.toUInt32.toNat

def uInt64 : Format UInt64 where
  Valid _ := True
  bytes u := beBytes (u.toNat/2^32) ++ beBytes u.toNat

def int64 : Format Int64 where
  Valid _ := True
  bytes i := uInt64.bytes i.toUInt64

/-- A length, so many bytes and zeroes up to a multiple of four. -/
def sized (bs : List UInt8) : List UInt8 := beBytes bs.length ++ (bs ++ pad bs.length)

def bytesOf : Format (List UInt8) where
  Valid bs := bs.length < 2^31
  bytes := sized

def string : Format (List UInt8) where
  Valid s := 0 ∉ s ∧ s.length < 2^31
  bytes := sized
  blocks := stringBlocks

def opaqueOf (size : ℕ) : Format (List UInt8) where
  Valid bs := bs.length = size
  bytes bs := bs ++ pad bs.length

def void : Format Unit where
  Valid _ := True
  bytes _ := []

/-- The byte behind a value that `rest` follows. -/
def follow (rest : List UInt8) (next : Option UInt8) : Option UInt8 := rest.head?.or next

def seq (f : Format α) (g : Format β) : Format (α × β) where
  Valid v := f.Valid v.1 ∧ g.Valid v.2
  bytes v := f.bytes v.1 ++ g.bytes v.2
  blocks v next := f.blocks v.1 (follow (g.bytes v.2) next) ++ g.blocks v.2 next
  depth v := max (f.depth v.1) (g.depth v.2)

/-- The blocks of values that follow each other. -/
def listBlocks (f : Format α) : List α → Option UInt8 → List ℕ
  | [], _ => []
  | a::as, next => f.blocks a (follow (as.flatMap f.bytes) next) ++ listBlocks f as next

def listDepth (f : Format α) : List α → ℕ
  | [] => 0
  | a::as => max (f.depth a) (listDepth f as)

def vector (size : ℕ) (f : Format α) : Format (List α) where
  Valid as := as.length = size ∧ ∀ a ∈ as, f.Valid a
  bytes as := as.flatMap f.bytes
  blocks := listBlocks f
  depth := listDepth f

def array (elsize : ℕ) (f : Format α) : Format (List α) where
  Valid as := as.length*elsize < 2^31 ∧ ∀ a ∈ as, f.Valid a
  bytes as := beBytes as.length ++ as.flatMap f.bytes
  blocks as next := as.length*elsize::listBlocks f as next
  depth := listDepth f

def pointer (size : ℕ) (f : Format α) : Format (Option α) where
  Valid o := ∀ v ∈ o, f.Valid v
  bytes
    | none => beBytes 0
    | some v => beBytes 1 ++ f.bytes v
  blocks
    | none, _ => []
    | some v, next => size::f.blocks v next
  depth
    | none => 0
    | some v => f.depth v

def chainBytes (f : Format α) : List α → List UInt8
  | [] => beBytes 0
  | a::as => beBytes 1 ++ (f.bytes a ++ chainBytes f as)

def chainBlocks (size : ℕ) (f : Format α) : List α → Option UInt8 → List ℕ
  | [], _ => []
  | a::as, next =>
    size::(f.blocks a (follow (chainBytes f as) next) ++ chainBlocks size f as next)

def chain (size : ℕ) (f : Format α) : Format (List α) where
  Valid as := ∀ a ∈ as, f.Valid a
  bytes := chainBytes f
  blocks := chainBlocks size f
  depth as := max (as.length+1) (listDepth f as)

end Format

/-- The byte behind the first of two parts. -/
theorem nextByte_left {z : Zdrs} {a b : List UInt8} (hz : Fit z (a++b).length) (h : Ahead z (a++b)) :
    nextByte z a.length = Format.follow b (nextByte z (a++b).length) := by
  have h1 := hz.pos
  have h2 := hz.room
  cases b with
  | nil => simp [Format.follow]
  | cons x b =>
    simp only [List.length_append,List.length_cons] at h2
    have hget := (holds_append.mp h).2.getElem? (i := 0) (by simp)
    have hoff : (z.pos+a.length).toNat = z.pos.toNat+a.length+0 := by omega
    rw [nextByte,if_pos (by omega),hoff,hget]
    rfl

theorem Read.nextByte {y z : Zdrs} {m : ℕ} (h : Read z m y) (n : ℕ) :
    nextByte y n = nextByte z (m+n) := by
  simp only [Zdrmem.nextByte,h.buf,h.size,h.pos]
  congr 2 <;> push_cast <;> ring_nf

theorem writes_pure : Writes (pure ()) [] := fun z _ _ => encodes_pure z

theorem Writes.bind {m n : Zop Unit} {a b : List UInt8} (hm : Writes m a) (ha : 4 ∣ a.length)
    (hn : Writes n b) : Writes (m >>= fun _ => n) (a++b) := by
  intro z hal hz
  rw [List.length_append] at hz
  refine Encodes.bind (hz.le (by omega)) (hm z hal (hz.le (by omega))) ?_
  intro y hy
  exact hn y (hy.aligned hal ha) (hy.fit hz)

theorem writes_word (u : ℕ) : Writes (zdrUIntEncode u) (beBytes u) :=
  fun _ _ hz => zdrUIntEncode_encodes u hz

theorem reads_pure (a : α) : Reads (pure a) a [] fun _ => [] := fun z _ _ _ => decodes_pure a z

theorem Reads.bind {m : Zop α} {k : α → Zop β} {x : α} {y : β} {a b : List UInt8}
    {p q : Option UInt8 → List ℕ} (hm : Reads m x a p) (ha : 4 ∣ a.length) (hk : Reads (k x) y b q) :
    Reads (m >>= k) y (a++b) fun next => p (Format.follow b next) ++ q next := by
  intro z hal hz h
  have hnext := nextByte_left hz h
  rw [List.length_append] at hz hnext ⊢
  dsimp only
  rw [← hnext]
  refine (hm z hal (hz.le (by omega)) h.left).bind ?_
  intro z' hr
  rw [← hr.nextByte]
  exact hk z' (hr.aligned hal ha) (hr.fit hz) (h.right hz.pos hr)

theorem Reads.map {m : Zop α} {a : α} {bs : List UInt8} {p : Option UInt8 → List ℕ}
    (hm : Reads m a bs p) (f : α → β) : Reads (m >>= fun a => pure (f a)) (f a) bs p :=
  fun z hal hz h => (hm z hal hz h).map f

/-- A word that says what follows. -/
theorem Reads.word {k : ℕ → Zop α} {u : ℕ} {a : α} {bs : List UInt8} {p : Option UInt8 → List ℕ}
    (hu : u < 2^32) (hk : Reads (k u) a bs p) : Reads (zdrUIntDecode >>= k) a (beBytes u ++ bs) p :=
  Reads.bind (p := fun _ => []) (fun _ _ hz h => zdrUIntDecode_decodes hu hz h) ⟨1,rfl⟩ hk

/-- What is decoded into a new block. -/
theorem Reads.malloc {m : Zop α} {a : α} {n : ℕ} {bs : List UInt8} {p : Option UInt8 → List ℕ}
    (hn : n < 2^32) (hm : Reads m a bs p) :
    Reads (zdrMalloc n >>= fun _ => m) a bs fun next => n::p next := by
  intro z hal hz h
  refine Decodes.malloc hn fun y hy => ?_
  have hnext : nextByte y bs.length = nextByte z bs.length := by rw [hy.nextByte,Nat.zero_add]
  rw [← hnext]
  exact hm y (hy.aligned hal (by decide)) (hy.fit_zero hz) (h.read_zero hz.pos hy)

theorem meets_uInt : Meets zdrUInt .uInt where
  aligned _ _ := ⟨1,rfl⟩
  writes u _ := writes_word u.toNat
  reads u fuel _ _ := by
    intro z _ hz h
    have hd := (zdrUIntDecode_decodes u.toNat_lt hz h).map UInt32.ofNat
    rwa [UInt32.ofNat_toNat] at hd

theorem meets_int : Meets zdrInt .int where
  aligned _ _ := ⟨1,rfl⟩
  writes i _ := meets_uInt.writes i.toUInt32 trivial
  reads i fuel _ _ := (meets_uInt.reads i.toUInt32 fuel trivial (Nat.zero_le _)).map UInt32.toInt32

theorem meets_enum : Meets zdrEnum .uInt where
  aligned _ _ := ⟨1,rfl⟩
  writes e _ := meets_int.writes e.toInt32 trivial
  reads e fuel _ _ := (meets_int.reads e.toInt32 fuel trivial (Nat.zero_le _)).map Int32.toUInt32

theorem meets_uInt64 : Meets zdrUInt64 .uInt64 where
  aligned _ _ := ⟨2,rfl⟩
  writes u _ := fun _ _ hz => zdrUInt64Encode_encodes u.toNat hz
  reads u fuel _ _ := by
    intro z _ hz h
    have hd := (zdrUInt64Decode_decodes u.toNat_lt hz h).map UInt64.ofNat
    rwa [UInt64.ofNat_toNat] at hd

theorem meets_int64 : Meets zdrInt64 .int64 where
  aligned _ _ := ⟨2,rfl⟩
  writes i _ := meets_uInt64.writes i.toUInt64 trivial
  reads i fuel _ _ := (meets_uInt64.reads i.toUInt64 fuel trivial (Nat.zero_le _)).map UInt64.toInt64

theorem sized_length (bs : List UInt8) :
    (Format.sized bs).length = 4+(bs.length+padLen bs.length) := by
  simp [Format.sized]

theorem sized_aligned (bs : List UInt8) : 4 ∣ (Format.sized bs).length := by
  have h := padLen_dvd bs.length
  rw [sized_length]
  omega

theorem writes_bytes (bs : List UInt8) : Writes (zdrBytes.enc bs) (Format.sized bs) :=
  fun _ ha hz => zdrBytesEncode_encodes bs ha (sized_length bs ▸ hz)

theorem reads_bytes (bs : List UInt8) (fuel : ℕ) :
    Reads (zdrBytes.dec fuel) bs (Format.sized bs) fun _ => [] := by
  intro z ha hz h
  have hd := zdrBytes_decodes ha (sized_length bs ▸ hz) h fuel
  rwa [← sized_length] at hd

theorem meets_bytes : Meets zdrBytes .bytesOf where
  aligned bs _ := sized_aligned bs
  writes bs _ := writes_bytes bs
  reads bs fuel _ _ := reads_bytes bs fuel

theorem meets_string : Meets zdrString .string where
  aligned s _ := sized_aligned s
  writes s hs := fun _ ha hz => zdrStringEncode_encodes hs.1 ha (sized_length s ▸ hz)
  reads s fuel _ _ := by
    intro z ha hz h
    have hd := zdrStringDecode_decodes ha (sized_length s ▸ hz) h
    rwa [← sized_length] at hd

theorem opaqueOf_length (bs : List UInt8) :
    ((Format.opaqueOf bs.length).bytes bs).length = bs.length+padLen bs.length := by
  simp [Format.opaqueOf]

theorem meets_opaque (size : ℕ) : Meets (zdrOpaque size) (.opaqueOf size) where
  aligned bs hv := by
    obtain rfl : bs.length = size := hv
    rw [opaqueOf_length]
    exact padLen_dvd bs.length
  writes bs hv := by
    obtain rfl : bs.length = size := hv
    intro z ha hz
    exact zdrOpaqueEncode_encodes bs ha (opaqueOf_length bs ▸ hz)
  reads bs fuel hv _ := by
    obtain rfl : bs.length = size := hv
    intro z ha hz h
    have hd := zdrOpaqueDecode_decodes ha (opaqueOf_length bs ▸ hz) h.left
    rwa [← opaqueOf_length] at hd

theorem meets_void : Meets zdrVoid .void where
  aligned _ _ := ⟨0,rfl⟩
  writes _ _ := writes_pure
  reads _ _ _ _ := reads_pure ()

theorem meets_seq {c : Codec α} {d : Codec β} {f : Format α} {g : Format β} (hc : Meets c f)
    (hd : Meets d g) : Meets (zdrSeq c d) (.seq f g) where
  aligned v hv := by
    have h1 := hc.aligned v.1 hv.1
    have h2 := hd.aligned v.2 hv.2
    simp only [Format.seq,List.length_append]
    omega
  writes v hv := (hc.writes v.1 hv.1).bind (hc.aligned v.1 hv.1) (hd.writes v.2 hv.2)
  reads v fuel hv hf := by
    have h1 := hc.reads v.1 fuel hv.1 ((le_max_left _ _).trans hf)
    have h2 := hd.reads v.2 fuel hv.2 ((le_max_right _ _).trans hf)
    exact h1.bind (hc.aligned v.1 hv.1) (h2.map fun b => (v.1,b))

theorem flatMap_aligned {c : Codec α} {f : Format α} (hc : Meets c f) {as : List α}
    (hv : ∀ a ∈ as, f.Valid a) : 4 ∣ (as.flatMap f.bytes).length := by
  induction as with
  | nil => simp
  | cons a as ih =>
    have h1 := hc.aligned a (hv a List.mem_cons_self)
    have h2 := ih fun b hb => hv b (List.mem_cons_of_mem a hb)
    rw [List.flatMap_cons,List.length_append]
    omega

/-- The encoding loop writes the elements one after the other. -/
theorem writes_vector {c : Codec α} {f : Format α} (hc : Meets c f) {as : List α}
    (hv : ∀ a ∈ as, f.Valid a) : Writes (zdrVectorEncode c.enc as) (as.flatMap f.bytes) := by
  induction as with
  | nil => exact writes_pure
  | cons a as ih =>
    have hva := hv a List.mem_cons_self
    exact (hc.writes a hva).bind (hc.aligned a hva) (ih fun b hb => hv b (List.mem_cons_of_mem a hb))

/-- The decoding loop reads them back. -/
theorem reads_vector {c : Codec α} {f : Format α} (hc : Meets c f) {as : List α} {fuel : ℕ}
    (hv : ∀ a ∈ as, f.Valid a) (hf : Format.listDepth f as ≤ fuel) :
    Reads (zdrVectorDecode (c.dec fuel) as.length) as (as.flatMap f.bytes) (Format.listBlocks f as) := by
  induction as with
  | nil => exact reads_pure []
  | cons a as ih =>
    have hva := hv a List.mem_cons_self
    have h1 := hc.reads a fuel hva ((le_max_left _ _).trans hf)
    have h2 := ih (fun b hb => hv b (List.mem_cons_of_mem a hb)) ((le_max_right _ _).trans hf)
    exact h1.bind (hc.aligned a hva) (h2.map (a::·))

theorem meets_vector {c : Codec α} {f : Format α} (hc : Meets c f) (size : ℕ) :
    Meets (zdrVector size c) (.vector size f) where
  aligned as hv := flatMap_aligned hc hv.2
  writes as hv := writes_vector hc hv.2
  reads as fuel hv hf := by
    obtain ⟨rfl,hall⟩ := hv
    exact reads_vector hc hall hf

/-- The `int` bound of the loop of `libnfs_zdr_array` and its check of the count. -/
theorem array_count {elsize n : ℕ} (he : 0 < elsize) (h : n*elsize < 2^31) :
    n < 2^31 ∧ (sint32 n).toNat = n ∧ ¬ (2^32-1)/elsize < n := by
  have hn : n < 2^31 := lt_of_le_of_lt (Nat.le_mul_of_pos_right n he) h
  refine ⟨hn,?_,?_⟩
  · rw [sint32,if_pos hn,Int.toNat_natCast]
  · rw [not_lt,Nat.le_div_iff_mul_le he]
    omega

theorem meets_array {c : Codec α} {f : Format α} (hc : Meets c f) {elsize : ℕ} (he : 0 < elsize) :
    Meets (zdrArray elsize c) (.array elsize f) where
  aligned as hv := by
    have h := flatMap_aligned hc hv.2
    simp only [Format.array,List.length_append,beBytes_length]
    omega
  writes as hv := by
    obtain ⟨-,hint,hcheck⟩ := array_count he hv.1
    refine (writes_word as.length).bind ⟨1,rfl⟩ ?_
    rw [if_neg hcheck,hint,List.take_length]
    exact writes_vector hc hv.2
  reads as fuel hv hf := by
    obtain ⟨hn,hint,hcheck⟩ := array_count he hv.1
    have hsize : as.length*elsize < 2^31 := hv.1
    refine Reads.word (by omega) ?_
    rw [if_neg hcheck,hint]
    exact Reads.malloc (by omega) (reads_vector hc hv.2 hf)

theorem meets_pointer {c : Codec α} {f : Format α} (hc : Meets c f) {size : ℕ} (hs : size < 2^32) :
    Meets (zdrPointer size c) (.pointer size f) where
  aligned o hv := by
    cases o with
    | none => exact ⟨1,rfl⟩
    | some v =>
      have h := hc.aligned v (hv v rfl)
      simp only [Format.pointer,List.length_append,beBytes_length]
      omega
  writes o hv := by
    cases o with
    | none => exact writes_word 0
    | some v => exact (writes_word 1).bind ⟨1,rfl⟩ (hc.writes v (hv v rfl))
  reads o fuel hv hf := by
    cases o with
    | none => exact Reads.word (u := 0) (by decide) (reads_pure none)
    | some v =>
      refine Reads.word (u := 1) (by decide) ?_
      rw [if_neg one_ne_zero]
      exact Reads.malloc hs ((hc.reads v fuel (hv v rfl) hf).map some)

theorem chainBytes_aligned {c : Codec α} {f : Format α} (hc : Meets c f) {as : List α}
    (hv : ∀ a ∈ as, f.Valid a) : 4 ∣ (Format.chainBytes f as).length := by
  induction as with
  | nil => exact ⟨1,rfl⟩
  | cons a as ih =>
    have h1 := hc.aligned a (hv a List.mem_cons_self)
    have h2 := ih fun b hb => hv b (List.mem_cons_of_mem a hb)
    simp only [Format.chainBytes,List.length_append,beBytes_length]
    omega

theorem writes_chain {c : Codec α} {f : Format α} (hc : Meets c f) {as : List α}
    (hv : ∀ a ∈ as, f.Valid a) : Writes (zdrChainEncode c.enc as) (Format.chainBytes f as) := by
  induction as with
  | nil => exact writes_word 0
  | cons a as ih =>
    have hva := hv a List.mem_cons_self
    refine (writes_word 1).bind ⟨1,rfl⟩ ?_
    exact (hc.writes a hva).bind (hc.aligned a hva) (ih fun b hb => hv b (List.mem_cons_of_mem a hb))

/-- The decoder of a chain decodes a pointer, and behind it the rest of the chain. -/
theorem zdrChainDecode_call (size : ℕ) (proc : Zop α) (fuel : ℕ) :
    (zdrChainDecode size proc (fuel+1)).call = zdrPointerDecode size proc >>= fun o =>
      match o with
      | none => pure []
      | some a => (zdrChainDecode size proc fuel).call >>= fun as => pure (a::as) := by
  funext z
  rcases Zop.cases (zdrPointerDecode size proc) z with ⟨o,y,hp⟩ | ⟨y,hp⟩ | ⟨y,hp⟩
  · rw [Zop.bind_ok hp]
    cases o with
    | none => simp only [Bounded.call,zdrChainDecode,chainLink,hp,Zop.pure_apply]
    | some a =>
      show Bounded.call _ z = Zop.bind _ _ y
      rcases hr : zdrChainDecode size proc fuel y with ⟨_ | r,x⟩
      · simp only [Bounded.call,zdrChainDecode,chainLink,hp,hr,Zop.bind]
      · cases r <;> simp only [Bounded.call,zdrChainDecode,chainLink,hp,hr,Zop.bind,Zop.pure_apply]
  · rw [Zop.bind_fail hp]
    simp only [Bounded.call,zdrChainDecode,chainLink,hp]
  · rw [Zop.bind_fault hp]
    simp only [Bounded.call,zdrChainDecode,chainLink,hp]

theorem reads_chain {c : Codec α} {f : Format α} (hc : Meets c f) {size : ℕ} (hs : size < 2^32)
    {as : List α} {k fuel : ℕ} (hv : ∀ a ∈ as, f.Valid a) (hk : as.length < k)
    (hf : Format.listDepth f as ≤ fuel) :
    Reads (zdrChainDecode size (c.dec fuel) k).call as (Format.chainBytes f as)
      (Format.chainBlocks size f as) := by
  induction as generalizing k with
  | nil =>
    obtain ⟨k,rfl⟩ : ∃ j, k = j+1 := ⟨k-1,by omega⟩
    have hp := (meets_pointer hc hs).reads none fuel (by intro v hv; simp at hv) (Nat.zero_le _)
    rw [zdrChainDecode_call]
    exact hp.bind ⟨1,rfl⟩ (reads_pure [])
  | cons a as ih =>
    obtain ⟨k,rfl⟩ : ∃ j, k = j+1 := ⟨k-1,by omega⟩
    have hptr : ∀ b ∈ some a, f.Valid b := by
      intro b hb
      exact Option.some.inj hb ▸ hv a List.mem_cons_self
    have hp := (meets_pointer hc hs).reads (some a) fuel hptr ((le_max_left _ _).trans hf)
    have hrest := ih (fun b hb => hv b (List.mem_cons_of_mem a hb))
      (show as.length < k by rw [List.length_cons] at hk; omega) ((le_max_right _ _).trans hf)
    have hsplit : Format.chainBytes f (a::as) =
        (Format.pointer size f).bytes (some a) ++ Format.chainBytes f as := by
      simp only [Format.chainBytes,Format.pointer,List.append_assoc]
    rw [zdrChainDecode_call,hsplit]
    exact hp.bind ((meets_pointer hc hs).aligned (some a) hptr) (hrest.map (a::·))

theorem meets_chain {c : Codec α} {f : Format α} (hc : Meets c f) {size : ℕ} (hs : size < 2^32) :
    Meets (zdrChain size c) (.chain size f) where
  aligned _ hv := chainBytes_aligned hc hv
  writes _ hv := writes_chain hc hv
  reads _ _ hv hf := reads_chain hc hs hv ((le_max_left _ _).trans hf) ((le_max_right _ _).trans hf)

/-- What is built with the combinators, over any codecs that meet their formats. -/
inductive Built : {α : Type} → Codec α → Format α → Prop
  | other {α : Type} {c : Codec α} {f : Format α} (h : Meets c f) : Built c f
  | uInt : Built zdrUInt .uInt
  | int : Built zdrInt .int
  | enum : Built zdrEnum .uInt
  | bool : Built zdrBool .uInt
  | uInt64 : Built zdrUInt64 .uInt64
  | int64 : Built zdrInt64 .int64
  | bytes : Built zdrBytes .bytesOf
  | string : Built zdrString .string
  | opaqueOf (size : ℕ) : Built (zdrOpaque size) (.opaqueOf size)
  | void : Built zdrVoid .void
  | seq {α β : Type} {c : Codec α} {d : Codec β} {f : Format α} {g : Format β} (hc : Built c f)
      (hd : Built d g) : Built (zdrSeq c d) (.seq f g)
  | pointer {α : Type} {c : Codec α} {f : Format α} (hc : Built c f) {size : ℕ} (hs : size < 2^32) :
      Built (zdrPointer size c) (.pointer size f)
  | array {α : Type} {c : Codec α} {f : Format α} (hc : Built c f) {elsize : ℕ} (he : 0 < elsize) :
      Built (zdrArray elsize c) (.array elsize f)
  | vector {α : Type} {c : Codec α} {f : Format α} (hc : Built c f) (size : ℕ) :
      Built (zdrVector size c) (.vector size f)
  | chain {α : Type} {c : Codec α} {f : Format α} (hc : Built c f) {size : ℕ} (hs : size < 2^32) :
      Built (zdrChain size c) (.chain size f)

theorem Built.meets {c : Codec α} {f : Format α} (h : Built c f) : Meets c f := by
  induction h with
  | other h => exact h
  | uInt => exact meets_uInt
  | int => exact meets_int
  | enum => exact meets_enum
  | bool => exact meets_uInt
  | uInt64 => exact meets_uInt64
  | int64 => exact meets_int64
  | bytes => exact meets_bytes
  | string => exact meets_string
  | opaqueOf size => exact meets_opaque size
  | void => exact meets_void
  | seq _ _ hc hd => exact meets_seq hc hd
  | pointer _ hs hc => exact meets_pointer hc hs
  | array _ he hc => exact meets_array hc he
  | vector _ size hc => exact meets_vector hc size
  | chain _ hs hc => exact meets_chain hc hs

/-- A new `struct ZDR` on the buffer of `z`, at `pos`. -/
def Zdrs.reopen (z : Zdrs) (pos size : ℤ) : Zdrs := { buf := z.buf, size := size, pos := pos }

/-- `v` is encoded at the cursor, what is before it stays, and decoding from there, with a stack
that is deep enough, gives `v` back and ends at the same aligned position. -/
def RoundTrips (c : Codec α) (v : α) (z : Zdrs) (size : ℤ) : Prop :=
  ∃ e, c.enc v z = (.ok (),e) ∧ e.buf.take z.pos.toNat = z.buf.take z.pos.toNat ∧ 4 ∣ e.pos ∧
    ∃ depth, ∀ fuel ≥ depth, ∃ d, c.dec fuel (e.reopen z.pos size) = (.ok v,d) ∧ d.pos = e.pos

theorem nextByte_overwrite {z : Zdrs} {bs : List UInt8} {buf : List UInt8} {size : ℤ}
    (hz : Fit z bs.length) (hb : buf = overwrite z.buf z.pos.toNat bs) :
    nextByte { buf := buf, size := size, pos := z.pos } bs.length =
      nextByte (z.reopen z.pos size) bs.length := by
  have h1 := hz.pos
  have h2 := hz.room
  have h3 := hz.alloc
  have hoff : (z.pos+bs.length).toNat = z.pos.toNat+bs.length := by omega
  have hlen : (z.buf.take z.pos.toNat ++ bs).length = z.pos.toNat+bs.length := by
    rw [List.length_append,List.length_take_of_le (by omega)]
  simp only [nextByte,Zdrs.reopen,hb,hoff,overwrite]
  congr 1
  rw [List.getElem?_append_right (by omega),hlen,Nat.sub_self,List.getElem?_drop,Nat.add_zero]

theorem Meets.roundTrips_iff {c : Codec α} {f : Format α} (hm : Meets c f) {v : α} (hv : f.Valid v)
    {z : Zdrs} (ha : 4 ∣ z.pos) (hz : Fit z (f.bytes v).length) {size : ℤ}
    (hroom : z.pos+(f.bytes v).length ≤ size) (halloc : size ≤ z.buf.length) (hint : size < 2^31) :
    RoundTrips c v z size ↔
      Allocated (f.blocks v (nextByte (z.reopen z.pos size) (f.bytes v).length)) := by
  obtain ⟨e,henc,hw⟩ := hm.writes v hv z ha hz
  have h1 := hz.pos
  have h2 := hz.room
  have h3 := hz.alloc
  have hlen : e.buf.length = z.buf.length := by
    rw [hw.buf,length_overwrite _ _ _ (by omega)]
    omega
  have hahead : Ahead (e.reopen z.pos size) (f.bytes v) := by
    rw [Ahead]
    show Holds e.buf z.pos.toNat _
    rw [hw.buf]
    exact holds_overwrite (by omega) _
  have hfit : Fit (e.reopen z.pos size) (f.bytes v).length :=
    ⟨h1,hroom,show size ≤ e.buf.length by omega,hint⟩
  have hdec := fun fuel hf => hm.reads v fuel hv hf (e.reopen z.pos size) ha hfit hahead
  have hnext : nextByte (e.reopen z.pos size) (f.bytes v).length =
      nextByte (z.reopen z.pos size) (f.bytes v).length := nextByte_overwrite hz hw.buf
  rw [hnext] at hdec
  constructor
  · rintro ⟨e',henc',-,-,depth,hall⟩
    obtain rfl : e = e' := by
      rw [henc] at henc'
      exact (Prod.mk.inj henc').2
    by_contra hno
    obtain ⟨d,hd,-⟩ := hall (max depth (f.depth v)) (le_max_left _ _)
    obtain ⟨d',hd'⟩ := (hdec _ (le_max_right depth _)).fault hno
    rw [hd] at hd'
    simp at hd'
  · intro hall
    refine ⟨e,henc,?_,hw.aligned ha (hm.aligned v hv),f.depth v,?_⟩
    · rw [hw.buf,take_overwrite_of_le _ _ _ _ (by omega) (le_refl _)]
    · intro fuel hfuel
      obtain ⟨d,hd,hr⟩ := (hdec fuel hfuel).ok hall
      exact ⟨d,hd,by rw [hr.pos,hw.pos]; rfl⟩

/-- The round trip of everything that is built with the combinators: it works exactly if the blocks
that decoding asks `zdr_malloc` for are smaller than 2^31 - 12 bytes. -/
theorem zdr_round_trip_iff {c : Codec α} {f : Format α} (hb : Built c f) {v : α} (hv : f.Valid v)
    {z : Zdrs} (ha : 4 ∣ z.pos) (hz : Fit z (f.bytes v).length) {size : ℤ}
    (hroom : z.pos+(f.bytes v).length ≤ size) (halloc : size ≤ z.buf.length) (hint : size < 2^31) :
    RoundTrips c v z size ↔
      Allocated (f.blocks v (nextByte (z.reopen z.pos size) (f.bytes v).length)) :=
  hb.meets.roundTrips_iff hv ha hz hroom halloc hint

/-- A linked list of two strings, behind another word. -/
theorem zdr_round_trip_strings :
    RoundTrips (zdrChain 16 zdrString) [[97,98,99,100],[97]]
      { buf := List.replicate 40 1, size := 40, pos := 4 } 36 := by
  have hvalid : (Format.chain 16 .string).Valid [[97,98,99,100],[97]] :=
    show ∀ s ∈ [[97,98,99,100],[97]], (0 : UInt8) ∉ s ∧ s.length < 2^31 by decide
  exact (zdr_round_trip_iff (.chain .string (by decide)) hvalid (by decide)
    ⟨by decide,by decide,by decide,by decide⟩ (by decide) (by decide) (by decide)).mpr (by decide)

theorem uInts_length (n : ℕ) (u : UInt32) :
    ((List.replicate n u).flatMap Format.uInt.bytes).length = 4*n := by
  induction n with
  | zero => rfl
  | succ n ih =>
    rw [List.replicate_succ,List.flatMap_cons,List.length_append,ih]
    show 4+4*n = 4*(n+1)
    omega

/-- An array of 2^29 - 3 words fills a buffer of 2^31 - 8 bytes. Its elements take 2^31 - 12 bytes,
for which there is no block. -/
theorem zdr_round_trip_broken :
    (Format.array 4 .uInt).Valid (List.replicate (2^29-3) 0) ∧
    Fit { buf := List.replicate (2^31-8) 0, size := 2^31-8, pos := 0 }
      ((Format.array 4 .uInt).bytes (List.replicate (2^29-3) 0)).length ∧
    ¬ RoundTrips (zdrArray 4 zdrUInt) (List.replicate (2^29-3) 0)
      { buf := List.replicate (2^31-8) 0, size := 2^31-8, pos := 0 } (2^31-8) := by
  have hbytes : ((Format.array 4 .uInt).bytes (List.replicate (2^29-3) 0)).length = 2^31-8 := by
    show (beBytes _ ++ _).length = _
    rw [List.length_append,beBytes_length,uInts_length]
    norm_num
  have hbuf : ((List.replicate (2^31-8) (0 : UInt8)).length : ℤ) = 2^31-8 := by
    rw [List.length_replicate]
    norm_num
  have hvalid : (Format.array 4 .uInt).Valid (List.replicate (2^29-3) 0) := by
    refine ⟨?_,fun _ _ => trivial⟩
    rw [List.length_replicate]
    norm_num
  have hfit : Fit { buf := List.replicate (2^31-8) 0, size := 2^31-8, pos := 0 }
      ((Format.array 4 .uInt).bytes (List.replicate (2^29-3) 0)).length := by
    refine ⟨le_refl _,?_,hbuf.ge,by norm_num⟩
    rw [hbytes]
    norm_num
  refine ⟨hvalid,hfit,?_⟩
  rw [(meets_array meets_uInt (by norm_num)).roundTrips_iff hvalid (dvd_zero _) hfit
    hfit.room hbuf.ge (by norm_num)]
  intro hall
  have hblock := hall _ List.mem_cons_self
  rw [List.length_replicate] at hblock
  norm_num at hblock

end Zdrmem
end Libnfs
