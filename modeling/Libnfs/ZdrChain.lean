import Libnfs.ZdrBounds

/-! Decoding a chain of optional elements: each element moves the cursor forward, so that the
recursion through `libnfs_zdr_pointer` ends. -/
namespace Libnfs
namespace Zdrmem

open ByteWords Zdr

variable {α β : Type}

/-- A cursor on a multiple of four over a buffer of `n` bytes -/
structure Cursor (n : ℕ) (z : Zdrs) : Prop where
  length : z.buf.length = n
  size : z.size = n
  nonneg : 0 ≤ z.pos
  bound : z.pos < 2^31
  aligned : 4 ∣ z.pos

/-- The cursor does not move back over the data: a length that passes the check, or data of a
fixed length that is inside the buffer, ends behind its start. -/
def Step.Forward (n : ℕ) : Step → Prop
  | .sized p k => ¬ toInt (p+sint32 k) > n → p ≤ roundUp (toInt (p+k))
  | .fixed p k => p+k ≤ n → p ≤ roundUp (toInt (p+k))
  | _ => True

instance (n : ℕ) : (s : Step) → Decidable (s.Forward n)
  | .sized p k => inferInstanceAs (Decidable (¬ toInt (p+sint32 k) > n → p ≤ roundUp (toInt (p+k))))
  | .fixed p k => inferInstanceAs (Decidable (p+k ≤ n → p ≤ roundUp (toInt (p+k))))
  | .word _ _ => inferInstanceAs (Decidable True)
  | .block _ => inferInstanceAs (Decidable True)

def Zdrs.Forward (n : ℕ) (z : Zdrs) : Prop := ∀ s ∈ z.steps, s.Forward n

instance (n : ℕ) (z : Zdrs) : Decidable (z.Forward n) :=
  inferInstanceAs (Decidable (∀ s ∈ z.steps, s.Forward n))

theorem Zdrs.Forward.of_prefix {n : ℕ} {y z : Zdrs} (h : z.Forward n) (hp : y.steps <+: z.steps) :
    y.Forward n := fun s hs => h s (hp.subset hs)

/-- A call that returns TRUE leaves the cursor where it was or behind that. -/
def forward (n : ℕ) : Contract where
  Ok x y := x.steps <+: y.steps ∧ (Cursor n x → y.Forward n → Cursor n y ∧ x.pos ≤ y.pos)
  Fail x y := x.steps <+: y.steps
  Fault x y := x.steps <+: y.steps
  refl x := ⟨List.prefix_refl _,fun h _ => ⟨h,le_refl _⟩⟩
  fail_refl x := List.prefix_refl _
  trans hxy hyz := by
    refine ⟨hxy.1.trans hyz.1,fun hx hz => ?_⟩
    have hy := hxy.2 hx (hz.of_prefix hyz.1)
    have hz' := hyz.2 hy.1 hz
    exact ⟨hz'.1,hy.2.trans hz'.2⟩
  fail_trans hxy hyz := hxy.1.trans hyz
  fault_trans hxy hyz := hxy.1.trans hyz

section

variable {n k : ℕ} {y z : Zdrs}

theorem forward_intro {m : Zop α} (hm : Grows m) (h : ∀ a y, Cursor n z → y.Forward n →
    m z = (.ok a,y) → Cursor n y ∧ z.pos ≤ y.pos) : (forward n).Holds z (m z) := by
  have hg := hm z
  refine ⟨fun a ha => ⟨hg,fun hc hf => ?_⟩,fun _ => hg,fun _ => hg⟩
  exact h a (m z).2 hc hf (Prod.ext ha rfl)

theorem loadHere_ok {bs : List UInt8} (h : loadHere k z = (.ok bs,y)) : Inside z z.pos k ∧ y = z := by
  by_cases hi : Inside z z.pos k
  · rw [loadHere_inside hi] at h
    simp only [Prod.mk.injEq] at h
    exact ⟨hi,h.2.symm⟩
  · rw [loadHere_outside hi] at h
    simp at h

theorem zdrUIntDecode_ok {u : ℕ} (h : zdrUIntDecode z = (.ok u,y)) :
    Inside z z.pos 4 ∧ y = (z.noted (.word z.pos 4)).at (toInt (z.pos+4)) := by
  by_cases hc : toInt (z.pos+4) > z.size
  · rw [zdrUIntDecode_full hc] at h
    simp at h
  by_cases hi : Inside z z.pos 4
  · rw [zdrUIntDecode_pass hc hi] at h
    simp only [Prod.mk.injEq] at h
    exact ⟨hi,h.2.symm⟩
  · rw [zdrUIntDecode_outside hc hi] at h
    simp at h

theorem checkLen_ok (h : checkLen k z = (.ok (),y)) :
    ¬ toInt (z.pos+sint32 k) > z.size ∧ y = z.noted (.sized z.pos k) := by
  by_cases hc : toInt (z.pos+sint32 k) > z.size
  · rw [checkLen_full hc] at h
    simp at h
  · rw [checkLen_pass hc] at h
    simp only [Prod.mk.injEq] at h
    exact ⟨hc,h.2.symm⟩

theorem zdrMalloc_noted (h : zdrMalloc k z = (.ok (),y)) : y = z.noted (.block k) := by
  obtain ⟨_,x,hx,h⟩ := Zop.of_bind_ok (m := note (.block k)) h
  have he : x = z.noted (.block k) := by
    have := congrArg Prod.snd hx
    exact this.symm
  split at h
  · simp [Zop.fault] at h
  · have := congrArg Prod.snd h
    rw [← he]
    exact this.symm

theorem zdrOpaqueDecode_ok {bs : List UInt8} (h : zdrOpaqueDecode k z = (.ok bs,y)) :
    Inside z z.pos k ∧ y = (z.noted (.fixed z.pos k)).at (roundUp (toInt (z.pos+k))) := by
  obtain ⟨_,x,hx,h1⟩ := Zop.of_bind_ok (m := noteFixed k) h
  have he : z.noted (.fixed z.pos k) = x := congrArg Prod.snd hx
  obtain ⟨_,x',hx',h2⟩ := Zop.of_bind_ok h1
  obtain ⟨hi,he'⟩ := loadHere_ok hx'
  rw [he',← he] at h2
  rw [← he] at hi
  exact ⟨hi,(congrArg Prod.snd h2).symm⟩

theorem Cursor.noted (h : Cursor n z) (s : Step) : Cursor n (z.noted s) :=
  ⟨h.length,h.size,h.nonneg,h.bound,h.aligned⟩

theorem Cursor.at (h : Cursor n z) {p : ℤ} (h0 : 0 ≤ p) (hb : p < 2^31) (ha : 4 ∣ p) : Cursor n (z.at p) :=
  ⟨h.length,h.size,h0,hb,ha⟩

/-- The position behind the padding is a position again. -/
theorem Cursor.skip (h : Cursor n z) (hp : z.pos ≤ roundUp (toInt (z.pos+k))) :
    Cursor n (z.at (roundUp (toInt (z.pos+k)))) := by
  have h0 := h.nonneg
  have hr := toInt_range (toInt (z.pos+k)+3)
  refine h.at (by omega) ?_ ?_
  · rw [roundUp] at hp ⊢
    omega
  · rw [roundUp]
    omega

/-- Four bytes in the buffer, and the cursor behind them -/
theorem Cursor.advance (h : Cursor n z) (hn : n < 2^31) (hi : Inside z z.pos 4) :
    toInt (z.pos+4) = z.pos+4 ∧ z.pos+4 ≤ n ∧ Cursor n (z.at (z.pos+4)) := by
  have h0 := h.nonneg
  have ha := h.aligned
  have hl : z.pos+4 ≤ n := by
    rcases hi with hi | hi
    · omega
    · rw [h.length] at hi
      exact hi.2
  exact ⟨toInt_eq (by omega) (by omega),hl,h.at (by omega) (by omega) (by omega)⟩

/-- A word that was read lies in the buffer, and the cursor is behind it. -/
theorem Cursor.word (h : Cursor n z) (hn : n < 2^31) {u : ℕ} (hu : zdrUIntDecode z = (.ok u,y)) :
    Cursor n y ∧ y.pos = z.pos+4 ∧ z.pos+4 ≤ n := by
  obtain ⟨hi,rfl⟩ := zdrUIntDecode_ok hu
  obtain ⟨ht,hl,hc⟩ := (h.noted (.word z.pos 4)).advance hn hi
  rw [noted_pos] at ht hl hc
  rw [ht]
  exact ⟨hc,rfl,hl⟩

theorem Cursor.written (h : Cursor n z) {p : ℤ} {bs : List UInt8} (hi : Inside z p bs.length) :
    Cursor n (z.written p bs) :=
  ⟨by rw [written_length hi,h.length],h.size,h.nonneg,h.bound,h.aligned⟩

theorem Zdrs.Forward.noted {s : Step} (h : (z.noted s).Forward n) : s.Forward n :=
  h s (List.mem_append_right _ List.mem_cons_self)

end

section

variable {n : ℕ} (hn : n < 2^31)

include hn

theorem forward_uInt : (forward n).Keeps zdrUIntDecode := by
  intro z
  apply forward_intro .uInt
  intro u y hc _ hu
  obtain ⟨hy,hp,_⟩ := hc.word hn hu
  exact ⟨hy,by omega⟩

theorem forward_uInt64 : (forward n).Keeps zdrUInt64Decode := by
  intro z
  apply forward_intro (.primitive .uInt64)
  intro u y hc _ hu
  obtain ⟨_,z1,h1,hu⟩ := Zop.of_bind_ok hu
  have hc1 : Cursor n z1 ∧ z1.pos = z.pos := by
    by_cases hf : toInt (z.pos+(8:ℕ)) > z.size
    · rw [room_full hf] at h1
      simp at h1
    · rw [room_pass hf] at h1
      simp only [Prod.mk.injEq] at h1
      rw [← h1.2]
      exact ⟨hc.noted _,rfl⟩
  obtain ⟨_,z2,h2,hu⟩ := Zop.of_bind_ok hu
  obtain ⟨hi,he⟩ := loadHere_ok h2
  rw [he] at hu
  obtain ⟨_,z3,h3,hu⟩ := Zop.of_bind_ok hu
  obtain ⟨ht,_,hc3⟩ := hc1.1.advance hn hi
  have he3 : z3 = z1.at (z1.pos+4) := by
    rw [← ht]
    exact (congrArg Prod.snd h3).symm
  rw [← he3] at hc3
  obtain ⟨_,z4,h4,hu⟩ := Zop.of_bind_ok hu
  obtain ⟨hi,he⟩ := loadHere_ok h4
  rw [he] at hu
  obtain ⟨ht,_,hc5⟩ := hc3.advance hn hi
  have he5 : y = z3.at (z3.pos+4) := by
    rw [← ht]
    exact (congrArg Prod.snd hu).symm
  rw [he5]
  refine ⟨hc5,?_⟩
  rw [at_pos,he3,at_pos,hc1.2]
  omega

omit hn in
/-- Data behind a length word -/
theorem forward_checked {f : Zop α} {k : ℕ} (hf : Grows f)
    (h : ∀ a x y, Cursor n x → y.Forward n → x.pos ≤ roundUp (toInt (x.pos+k)) → f x = (.ok a,y) →
      Cursor n y ∧ x.pos ≤ y.pos) : (forward n).Keeps (checkLen k >>= fun _ => f) := by
  intro z
  apply forward_intro (.bind (.checkLen k) (fun _ => hf))
  intro a y hc hy he
  obtain ⟨_,x,hx,he⟩ := Zop.of_bind_ok he
  obtain ⟨hp,rfl⟩ := checkLen_ok hx
  have hs : (z.noted (.sized z.pos k)).Forward n := by
    apply hy.of_prefix
    have hg := hf (z.noted (.sized z.pos k))
    rwa [he] at hg
  rw [hc.size] at hp
  exact h a (z.noted (.sized z.pos k)) y (hc.noted _) hy (hs.noted hp) he

theorem forward_bytes : (forward n).Keeps zdrBytesDecode := by
  intro z
  apply Contract.holds_bind (forward_uInt hn z)
  intro k y _
  apply forward_checked (.bind (.handOut k) fun _ => .bind (.skip k) fun _ => .pure _)
  intro a x y hx _ hp he
  have hy : (x.handed ⟨x.pos,k⟩).at (roundUp (toInt (x.pos+k))) = y := congrArg Prod.snd he
  rw [← hy]
  have hh : Cursor n (x.handed ⟨x.pos,k⟩) := ⟨hx.length,hx.size,hx.nonneg,hx.bound,hx.aligned⟩
  exact ⟨hh.skip hp,hp⟩

theorem forward_bytesInto : (forward n).Keeps zdrBytesInto := by
  intro z
  apply Contract.holds_bind (forward_uInt hn z)
  intro k y _
  apply forward_checked (.bind (.loadHere k) fun _ => .bind (.skip k) fun _ => .pure _)
  intro a x y hx _ hp he
  obtain ⟨_,x',hl,he⟩ := Zop.of_bind_ok he
  rw [(loadHere_ok hl).2] at he
  have hy : x.at (roundUp (toInt (x.pos+k))) = y := congrArg Prod.snd he
  rw [← hy]
  exact ⟨hx.skip hp,hp⟩

omit hn in
theorem forward_fixed (k : ℕ) : (forward n).Keeps (zdrOpaqueDecode k) := by
  intro z
  apply forward_intro (.fixed k)
  intro a y hc hy he
  obtain ⟨hi,rfl⟩ := zdrOpaqueDecode_ok he
  have hs : (z.noted (.fixed z.pos k)).Forward n := hy
  have hp : z.pos ≤ roundUp (toInt (z.pos+k)) := by
    rcases hi with hi | hi
    · have h0 := hc.nonneg
      have hb := hc.bound
      have ha := hc.aligned
      rw [hi,toInt_eq (by omega) (by omega),roundUp_eq (by omega) (by omega)]
      omega
    · rw [hc.length] at hi
      exact hs.noted hi.2
  exact ⟨(hc.noted _).skip hp,hp⟩

omit hn in
theorem forward_malloc (k : ℕ) : (forward n).Keeps (zdrMalloc k) := by
  intro z
  apply forward_intro (.malloc k)
  intro a y hc _ he
  rw [zdrMalloc_noted he]
  exact ⟨hc.noted _,le_refl _⟩

omit hn in
theorem terminated_ok {k : ℕ} {t : Bool} {y z : Zdrs} (h : terminated k z = (.ok t,y)) : y = z := by
  rw [terminated] at h
  split at h
  · obtain ⟨_,x,hx,h⟩ := Zop.of_bind_ok h
    have he : x = y := congrArg Prod.snd h
    rw [load] at hx
    split at hx
    · rw [← he]
      exact (congrArg Prod.snd hx).symm
    · simp at hx
  · exact (congrArg Prod.snd h).symm

omit hn in
theorem stringInPlace_forward {k : ℕ} {s : List UInt8} {y z : Zdrs} (hc : Cursor n z)
    (hp : z.pos ≤ roundUp (toInt (z.pos+k))) (h : stringInPlace k z = (.ok s,y)) :
    Cursor n y ∧ z.pos ≤ y.pos := by
  obtain ⟨r,x,hx,h⟩ := Zop.of_bind_ok h
  have he : z.handed ⟨z.pos,k⟩ = x := congrArg Prod.snd hx
  have hcx : Cursor n x := by
    rw [← he]
    exact ⟨hc.length,hc.size,hc.nonneg,hc.bound,hc.aligned⟩
  have hpx : x.pos = z.pos := by
    rw [← he]
    rfl
  obtain ⟨_,x',hx',h⟩ := Zop.of_bind_ok h
  have hw : Inside x (x.pos+k) [(0 : UInt8)].length ∧ x' = x.written (x.pos+k) [0] := by
    rw [terminate,store] at hx'
    split at hx'
    · next hi => exact ⟨hi,(congrArg Prod.snd hx').symm⟩
    · simp at hx'
  have hcx' := hcx.written hw.1
  rw [← hw.2] at hcx'
  have hpx' : x'.pos = z.pos := by rw [hw.2,written_pos,hpx]
  have hy : x'.at (roundUp (toInt (x'.pos+k))) = y := congrArg Prod.snd h
  rw [← hy]
  rw [← hpx'] at hp ⊢
  exact ⟨hcx'.skip hp,hp⟩

omit hn in
theorem forward_stringCopy (k : ℕ) : (forward n).Keeps (stringCopy k) := by
  intro z
  apply Contract.holds_bind (forward_malloc _ z)
  intro _ y _
  split
  · exact ⟨fun a ha => by simp [Zop.fault] at ha,fun ha => by simp [Zop.fault] at ha,
      fun _ => List.prefix_refl _⟩
  · exact forward_fixed k y

theorem forward_string : (forward n).Keeps zdrStringDecode := by
  intro z
  apply Contract.holds_bind (forward_uInt hn z)
  intro k y _
  have hg : ∀ t : Bool, Grows (if t then stringInPlace k else stringCopy k) := by
    intro t
    cases t
    · exact .stringCopy k
    · exact .stringInPlace k
  apply forward_checked (.bind (.terminated k) hg)
  intro a x y hx hy hp he
  obtain ⟨t,x',ht,he⟩ := Zop.of_bind_ok he
  rw [terminated_ok ht] at he
  cases t with
  | false =>
    rw [if_neg Bool.false_ne_true] at he
    have hk := forward_stringCopy (n := n) k x
    rw [he] at hk
    exact (hk.ok a rfl).2 hx hy
  | true =>
    rw [if_pos rfl] at he
    exact stringInPlace_forward hx hp he

theorem forward_keeps {m : Zop α} (hm : IsDecoder m) : (forward n).Keeps m := by
  apply Contract.keeps_of_isDecoder _ hm
  intro _ _ hp
  cases hp with
  | uInt => exact forward_uInt hn
  | uInt64 => exact forward_uInt64 hn
  | bytes => exact forward_bytes hn
  | bytesInto => exact forward_bytesInto hn
  | fixed k => exact forward_fixed k
  | string => exact forward_string hn
  | malloc k => exact forward_malloc k

end

/-- An element is decoded from `x` to `y`. -/
def Next (size : ℕ) (m : Zop α) (x y : Zdrs) : Prop := ∃ a, zdrPointerDecode size m x = (.ok (some a),y)

/-- Decoding the chain returns with room for a nested call for every four bytes of the buffer, and
each element of it moves the cursor forward. -/
structure Ends (n size : ℕ) (m : Zop α) (z : Zdrs) : Prop where
  returns : ∀ fuel, n/4 < fuel → (zdrChainDecode size m fuel z).1 ≠ none
  elements : ∀ l, (z::l).IsChain (Next size m) → (z::l).IsChain (·.pos < ·.pos) ∧ l.length ≤ n/4
  length : ∀ fuel as y, zdrChainDecode size m fuel z = (some (.ok as),y) → as.length ≤ n/4

section

variable {n size : ℕ} {m : Zop α} {x y z : Zdrs}

theorem zdrChainDecode_next (h : Next size m x y) (fuel : ℕ) :
    (zdrChainDecode size m (fuel+1) x).2 = (zdrChainDecode size m fuel y).2 ∧
      ((zdrChainDecode size m (fuel+1) x).1 = none ↔ (zdrChainDecode size m fuel y).1 = none) := by
  obtain ⟨a,ha⟩ := h
  simp only [zdrChainDecode,chainLink,ha]
  generalize zdrChainDecode size m fuel y = r
  rcases r with ⟨_ | r,y⟩
  · exact ⟨rfl,Iff.rfl⟩
  · cases r with
    | ok as => exact ⟨rfl,by simp⟩
    | fail => exact ⟨rfl,by simp⟩
    | fault => exact ⟨rfl,by simp⟩

/-- The chain goes on only behind an element. -/
theorem zdrChainDecode_none {fuel : ℕ} (h : (zdrChainDecode size m (fuel+1) x).1 = none) :
    ∃ y, Next size m x y := by
  simp only [zdrChainDecode,chainLink] at h
  rcases Zop.cases (zdrPointerDecode size m) x with ⟨o,y,he⟩ | ⟨y,he⟩ | ⟨y,he⟩
  · cases o with
    | none =>
      rw [he] at h
      simp at h
    | some a => exact ⟨y,a,he⟩
  · rw [he] at h
    simp at h
  · rw [he] at h
    simp at h

/-- The elements of a list that was decoded, one after the other -/
theorem zdrChainDecode_path {fuel : ℕ} {as : List α}
    (h : zdrChainDecode size m fuel x = (some (.ok as),y)) :
    ∃ l : List Zdrs, (x::l).IsChain (Next size m) ∧ l.length = as.length := by
  induction fuel generalizing x y as with
  | zero => simp [zdrChainDecode] at h
  | succ fuel ih =>
    simp only [zdrChainDecode,chainLink] at h
    rcases Zop.cases (zdrPointerDecode size m) x with ⟨o,w,he⟩ | ⟨w,he⟩ | ⟨w,he⟩
    · cases o with
      | none =>
        rw [he] at h
        simp only [Prod.mk.injEq,Option.some.injEq,Res.ok.injEq] at h
        exact ⟨[],.singleton x,by rw [← h.1]; rfl⟩
      | some a =>
        rw [he] at h
        rcases hr : zdrChainDecode size m fuel w with ⟨_ | r,v⟩
        · simp [hr] at h
        cases r with
        | ok bs =>
          simp only [hr,Prod.mk.injEq,Option.some.injEq,Res.ok.injEq] at h
          obtain ⟨l,hl,hb⟩ := ih hr
          refine ⟨w::l,List.isChain_cons_cons.mpr ⟨⟨a,he⟩,hl⟩,?_⟩
          rw [← h.1,List.length_cons,List.length_cons,hb]
        | fail => simp [hr] at h
        | fault => simp [hr] at h
    · rw [he] at h
      simp at h
    · rw [he] at h
      simp at h

/-- A stack that was large enough: with more room the call does the same. -/
theorem zdrChainDecode_more {fuel k : ℕ} (h : (zdrChainDecode size m fuel x).1 ≠ none) :
    zdrChainDecode size m (fuel+k) x = zdrChainDecode size m fuel x := by
  induction fuel generalizing x with
  | zero => exact absurd rfl h
  | succ fuel ih =>
    rw [Nat.add_right_comm]
    rcases Zop.cases (zdrPointerDecode size m) x with ⟨o,w,he⟩ | ⟨w,he⟩ | ⟨w,he⟩
    · cases o with
      | none => simp only [zdrChainDecode,chainLink,he]
      | some a =>
        have hw : (zdrChainDecode size m fuel w).1 ≠ none := by
          rwa [Ne,← (zdrChainDecode_next ⟨a,he⟩ fuel).2]
        simp only [zdrChainDecode,chainLink,he,ih hw]
    · simp only [zdrChainDecode,chainLink,he]
    · simp only [zdrChainDecode,chainLink,he]

theorem Next.advances (hn : n < 2^31) (hm : IsDecoder m) (hx : Cursor n x) (hy : y.Forward n)
    (h : Next size m x y) : Cursor n y ∧ x.pos+4 ≤ y.pos ∧ x.pos+4 ≤ n := by
  obtain ⟨a,ha⟩ := h
  obtain ⟨more,x1,h1,ha⟩ := Zop.of_bind_ok ha
  obtain ⟨hc,hp,hl⟩ := hx.word hn h1
  by_cases hz : more = 0
  · rw [if_pos hz] at ha
    simp at ha
  rw [if_neg hz] at ha
  have hd : IsDecoder (zdrMalloc size >>= fun _ => m >>= fun a => (pure (some a) : Zop (Option α))) :=
    .bind (.call (.malloc size)) fun _ => .bind hm fun a => .pure (some a)
  have hk := forward_keeps hn hd x1
  rw [ha] at hk
  obtain ⟨hcy,hle⟩ := (hk.ok _ rfl).2 hc hy
  have hxy : x1.pos ≤ y.pos := hle
  exact ⟨hcy,by omega,hl⟩

/-- What decoding takes no step back from. -/
structure Onward (n size : ℕ) (m : Zop α) (z : Zdrs) : Prop where
  cursor : Cursor n z
  steps : ∀ fuel, (zdrChainDecode size m fuel z).2.Forward n

theorem Onward.next (hn : n < 2^31) (hm : IsDecoder m) (hx : Onward n size m x) (h : Next size m x y) :
    Onward n size m y ∧ x.pos+4 ≤ y.pos ∧ x.pos+4 ≤ n := by
  have hs : ∀ fuel, (zdrChainDecode size m fuel y).2.Forward n := by
    intro fuel
    have hf := hx.steps (fuel+1)
    rwa [(zdrChainDecode_next h fuel).1] at hf
  have hy : y.Forward n := hs 0
  obtain ⟨hc,hp⟩ := h.advances hn hm hx.cursor hy
  exact ⟨⟨hc,hs⟩,hp⟩

theorem Onward.returns (hn : n < 2^31) (hm : IsDecoder m) {fuel : ℕ} (hz : Onward n size m z)
    (hf : (n : ℤ)-z.pos < 4*(fuel+1)) : (zdrChainDecode size m (fuel+1) z).1 ≠ none := by
  induction fuel generalizing z with
  | zero =>
    intro h
    obtain ⟨y,hy⟩ := zdrChainDecode_none h
    obtain ⟨_,_,hl⟩ := hz.next hn hm hy
    omega
  | succ fuel ih =>
    intro h
    obtain ⟨y,hy⟩ := zdrChainDecode_none h
    obtain ⟨ho,hp,_⟩ := hz.next hn hm hy
    push_cast at hf
    exact ih ho (by omega) ((zdrChainDecode_next hy _).2.mp h)

theorem Onward.elements (hn : n < 2^31) (hm : IsDecoder m) {l : List Zdrs} (hz : Onward n size m z)
    (hl : (z::l).IsChain (Next size m)) :
    (z::l).IsChain (·.pos < ·.pos) ∧ (l = [] ∨ z.pos+4*l.length ≤ n) := by
  induction l generalizing z with
  | nil => exact ⟨.singleton z,.inl rfl⟩
  | cons y l ih =>
    rw [List.isChain_cons_cons] at hl ⊢
    obtain ⟨ho,hp,hb⟩ := hz.next hn hm hl.1
    obtain ⟨hc,hle⟩ := ih ho hl.2
    refine ⟨⟨by omega,hc⟩,.inr ?_⟩
    rcases hle with hle | hle
    · rw [hle]
      exact hb
    · rw [List.length_cons]
      push_cast
      omega

/-- A chain ends when no step of decoding it moves the cursor back. -/
theorem zdr_chain_ends (hn : n < 2^31) (hm : IsDecoder m) (hz : Cursor n z)
    (hs : ∀ fuel, (zdrChainDecode size m fuel z).2.Forward n) : Ends n size m z := by
  have ho : Onward n size m z := ⟨hz,hs⟩
  have h0 := hz.nonneg
  have hl : ∀ l, (z::l).IsChain (Next size m) → l.length ≤ n/4 := by
    intro l hl
    rcases (ho.elements hn hm hl).2 with hle | hle
    · rw [hle]
      exact Nat.zero_le _
    · omega
  refine ⟨fun fuel hf => ?_,fun l h => ⟨(ho.elements hn hm h).1,hl l h⟩,fun fuel as y h => ?_⟩
  · cases fuel with
    | zero => omega
    | succ fuel => exact ho.returns hn hm (by omega)
  · obtain ⟨l,hc,he⟩ := zdrChainDecode_path h
    rw [← he]
    exact hl l hc

end

/-- Two elements of two bytes each -/
theorem zdr_chain_ends_bytes : Ends 28 16 zdrBytesDecode (zdrmemCreate
    [0,0,0,1,0,0,0,2,97,98,0,0,0,0,0,1,0,0,0,2,99,100,0,0,0,0,0,0] 28) := by
  apply zdr_chain_ends (by decide) (.call .bytes) ⟨by decide,by decide,by decide,by decide,by decide⟩
  intro fuel
  match fuel with
  | 0 => decide
  | 1 => decide +kernel
  | 2 => decide +kernel
  | fuel+3 =>
    rw [Nat.add_comm,zdrChainDecode_more (by decide +kernel)]
    decide +kernel

/-- A pointer to an element and the length 2^32 - 8: behind the element the cursor is at the start
of the buffer again. -/
def loopBytes : List UInt8 := [0,0,0,1,255,255,255,248]

theorem loopBytes_bytes (steps : List Step) (refs : List Slice) :
    zdrBytesDecode ⟨loopBytes,8,4,steps,refs⟩ = (.ok ⟨8,4294967288⟩,
      ⟨loopBytes,8,0,steps++[.word 4 4]++[.sized 8 4294967288],refs++[⟨8,4294967288⟩]⟩) := by
  have h1 : zdrUIntDecode ⟨loopBytes,8,4,steps,refs⟩ =
      (.ok 4294967288,⟨loopBytes,8,8,steps++[.word 4 4],refs⟩) := by
    have hi : (0 : ℤ) ≤ 4 ∧ (4 : ℤ)+(4 : ℕ) ≤ loopBytes.length := by decide
    rw [zdrUIntDecode_pass (show ¬ toInt (4+4) > 8 by decide) (.inr hi)]
    rfl
  have h2 : checkLen 4294967288 ⟨loopBytes,8,8,steps++[.word 4 4],refs⟩ =
      (.ok (),⟨loopBytes,8,8,steps++[.word 4 4]++[.sized 8 4294967288],refs⟩) :=
    checkLen_pass (show ¬ toInt (8+sint32 4294967288) > 8 by decide)
  have h3 : roundUp (toInt (8+(4294967288 : ℕ))) = 0 := by decide
  rw [zdrBytesDecode,Zop.bind_ok h1,Zop.bind_ok h2,Zop.bind_ok (handOut_eq _ _),
    Zop.bind_ok (skip_eq _ _)]
  simp only [Zdrs.handed,Zdrs.at,Zop.pure_apply,h3]

theorem loopBytes_next (steps : List Step) (refs : List Slice) : Next 16 zdrBytesDecode
    ⟨loopBytes,8,0,steps,refs⟩
    ⟨loopBytes,8,0,steps++[.word 0 4]++[.block 16]++[.word 4 4]++[.sized 8 4294967288],
      refs++[⟨8,4294967288⟩]⟩ := by
  have h1 : zdrUIntDecode ⟨loopBytes,8,0,steps,refs⟩ =
      (.ok 1,⟨loopBytes,8,4,steps++[.word 0 4],refs⟩) := by
    have hi : (0 : ℤ) ≤ 0 ∧ (0 : ℤ)+(4 : ℕ) ≤ loopBytes.length := by decide
    rw [zdrUIntDecode_pass (show ¬ toInt (0+4) > 8 by decide) (.inr hi)]
    rfl
  have h2 : zdrMalloc 16 ⟨loopBytes,8,4,steps++[.word 0 4],refs⟩ =
      (.ok (),⟨loopBytes,8,4,steps++[.word 0 4]++[.block 16],refs⟩) := zdrMalloc_ok (by decide)
  refine ⟨⟨8,4294967288⟩,?_⟩
  rw [zdrPointerDecode,Zop.bind_ok h1,if_neg one_ne_zero,Zop.bind_ok h2,
    Zop.bind_ok (loopBytes_bytes _ _)]
  rfl

/-- On these bytes the recursion never returns. -/
theorem zdr_chain_loops :
    Cursor 8 (zdrmemCreate loopBytes 8) ∧ ¬ Ends 8 16 zdrBytesDecode (zdrmemCreate loopBytes 8) ∧
      ∀ fuel, (zdrChainDecode 16 zdrBytesDecode fuel (zdrmemCreate loopBytes 8)).1 = none := by
  have hloop : ∀ fuel steps refs,
      (zdrChainDecode 16 zdrBytesDecode fuel ⟨loopBytes,8,0,steps,refs⟩).1 = none := by
    intro fuel
    induction fuel with
    | zero => exact fun _ _ => rfl
    | succ fuel ih =>
      intro steps refs
      exact (zdrChainDecode_next (loopBytes_next steps refs) fuel).2.mpr (ih _ _)
  refine ⟨⟨by decide,by decide,by decide,by decide,by decide⟩,fun h => ?_,fun fuel => hloop fuel [] []⟩
  exact h.returns 3 (by decide) (hloop 3 [] [])

end Zdrmem
end Libnfs
