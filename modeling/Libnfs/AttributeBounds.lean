import Libnfs.Attributes
import Libnfs.Zdr

/-! Where `nfs_parse_attributes` reads. The same function with a fault in front of each field that does not lie inside the first
`len` bytes, and of a name that `getpwnam` would read on behind them. -/
namespace Libnfs
namespace Attributes

open Zdr

variable {σ α β : Type}

/-- A part of the function: it goes on, returns -1 or reads outside. -/
def Op (σ α : Type) := Cur × σ → Res α × (Cur × σ)

namespace Op

def pure (a : α) : Op σ α := fun s => (.ok a,s)

def bind (m : Op σ α) (f : α → Op σ β) : Op σ β := fun s =>
  match m s with
  | (.ok a,s') => f a s'
  | (.fail,s') => (.fail,s')
  | (.fault,s') => (.fault,s')

instance : Monad (Op σ) where
  pure := pure
  bind := bind

/-- A part that reads nothing -/
def ofParse (m : Parse σ α) : Op σ α := fun s =>
  match m.run s with
  | (some a,s') => (.ok a,s')
  | (none,s') => (.fail,s')

end Op

/-- The field of `n` bytes is read. -/
def inside (len : ℤ) (n : ℕ) : Op σ Unit := fun s =>
  if 0 ≤ s.1.buf ∧ s.1.buf+n ≤ len then (.ok (),s) else (.fault,s)

/-- All of the string are digits, or the name that starts there ends inside the buffer. -/
def NameFine (attrs : Attrlist) (buf : ℤ) (slen : ℕ) : Prop :=
  (∀ i < slen, 48 ≤ attrs.mem (buf+i) ∧ attrs.mem (buf+i) ≤ 57) ∨
    ∃ k < (attrs.len-buf).toNat, attrs.mem (buf+k) = 0

instance (attrs : Attrlist) (buf : ℤ) (slen : ℕ) : Decidable (NameFine attrs buf slen) :=
  inferInstanceAs (Decidable (_ ∨ _))

/-- The name is handed to `getpwnam` unless it is a number. -/
def nameInside (attrs : Attrlist) (slen : ℕ) : Op σ Unit := fun s =>
  if NameFine attrs s.1.buf slen then (.ok (),s) else (.fault,s)

def numberIn (attrs : Attrlist) (n : ℕ) : Op σ ℕ := do
  Op.ofParse (checkGetattrBufSpace n)
  inside attrs.len n
  let s ← Op.ofParse get
  Op.ofParse (advance n n)
  return ntoh attrs.mem s.1.buf n

/-- The loop of `nfs_get_ugid` runs over the whole of the string, so many bytes as the length word says. -/
def ugidIn (getpwnam : Getpwnam) (attrs : Attrlist) (isUser : Bool) : Op σ ℤ := do
  let word ← numberIn attrs 4
  let slen := int32 word
  let pad := -slen % 4
  Op.ofParse (checkGetattrBufSpace slen)
  inside attrs.len word
  nameInside attrs word
  let s ← Op.ofParse get
  let id := nfsGetUgid getpwnam attrs.mem s.1.buf slen isUser
  Op.ofParse (advance slen 0)
  Op.ofParse (checkGetattrBufSpace pad)
  Op.ofParse (advance pad pad)
  return id

def timeIn (attrs : Attrlist) : Op σ (ℕ × ℕ) := do
  Op.ofParse (checkGetattrBufSpace 12)
  let sec ← numberIn attrs 8
  let nsec ← numberIn attrs 4
  return (sec,nsec)

/-- The body of `nfs_parse_attributes` -/
def parseAttributesIn (getpwnam : Getpwnam) (attrs : Attrlist) : Op Stat64 Unit := do
  let type ← numberIn attrs 4
  let size ← numberIn attrs 8
  Op.ofParse (fill fun st => { st with size := size })
  Op.ofParse (checkGetattrBufSpace 16)
  inside attrs.len 16
  let s ← Op.ofParse get
  Op.ofParse (fill fun st => { st with dev := host attrs.mem s.1.buf 8 ^^^ host attrs.mem (s.1.buf+8) 8 })
  Op.ofParse (advance 16 16)
  let ino ← numberIn attrs 8
  Op.ofParse (fill fun st => { st with ino := ino })
  let mode ← numberIn attrs 4
  Op.ofParse (fill fun st => { st with mode := mode ||| typeBits type })
  let nlink ← numberIn attrs 4
  Op.ofParse (fill fun st => { st with nlink := nlink })
  let uid ← ugidIn getpwnam attrs true
  Op.ofParse (fill fun st => { st with uid := uint64 uid })
  let gid ← ugidIn getpwnam attrs false
  Op.ofParse (fill fun st => { st with gid := uint64 gid })
  let rdev ← numberIn attrs 8
  Op.ofParse (fill fun st => { st with rdev := rdev })
  let used ← numberIn attrs 8
  Op.ofParse (fill fun st => { st with used := used })
  let atime ← timeIn attrs
  Op.ofParse (fill fun st => { st with atime := atime.1, atimeNsec := atime.2 })
  let ctime ← timeIn attrs
  Op.ofParse (fill fun st => { st with ctime := ctime.1, ctimeNsec := ctime.2 })
  let mtime ← timeIn attrs
  Op.ofParse (fill fun st => { st with mtime := mtime.1, mtimeNsec := mtime.2 })
  Op.ofParse (fill fun st => { st with blksize := 4096, blocks := (st.used+4095) % 2^64/4096 })

/-- `nfs_parse_attributes` reads inside the first `len` bytes only, and returns -1 at the first field that does not fit. -/
def ReadsInside (getpwnam : Getpwnam) (attrs : Attrlist) : Prop :=
  (parseAttributesIn getpwnam attrs (⟨0,attrs.len⟩,Stat64.zero)).1 ≠ .fault

theorem inside_bind (len : ℤ) (n : ℕ) (f : Unit → Op σ β) (s : Cur × σ) :
    (inside len n >>= f) s = if 0 ≤ s.1.buf ∧ s.1.buf+n ≤ len then f () s else (.fault,s) := by
  show Op.bind (inside len n) f s = _
  unfold Op.bind inside
  split_ifs <;> rfl

theorem nameInside_bind (attrs : Attrlist) (slen : ℕ) (f : Unit → Op σ β) (s : Cur × σ) :
    (nameInside attrs slen >>= f) s = if NameFine attrs s.1.buf slen then f () s else (.fault,s) := by
  show Op.bind (nameInside attrs slen) f s = _
  unfold Op.bind nameInside
  split_ifs <;> rfl

theorem run_bind (m : Parse σ α) (g : α → Parse σ β) (s : Cur × σ) :
    (m >>= g).run s = match m.run s with
      | (some a,s') => (g a).run s'
      | (none,s') => (none,s') := by
  rw [OptionT.run_bind]
  show StateT.bind m.run (fun o => Option.elim o (Pure.pure none) fun a => (g a).run) s = _
  unfold StateT.bind
  rcases m.run s with ⟨o,s'⟩
  cases o <;> rfl

/-- Unless it reads outside, `c` does what `m` does. -/
def Erases (c : Op σ α) (m : Parse σ α) : Prop := ∀ s, (c s).1 ≠ .fault → c s = Op.ofParse m s

namespace Erases

theorem ofParse (m : Parse σ α) : Erases (Op.ofParse m) m := fun _ _ => rfl

theorem pure (a : α) : Erases (Pure.pure a : Op σ α) (Pure.pure a) := fun _ _ => rfl

theorem bind {c : Op σ α} {m : Parse σ α} {f : α → Op σ β} {g : α → Parse σ β} (h : Erases c m)
    (h' : ∀ a, Erases (f a) (g a)) : Erases (c >>= f) (m >>= g) := by
  intro s hs
  have hb : (c >>= f) s = match c s with
      | (.ok a,s') => f a s'
      | (.fail,s') => (.fail,s')
      | (.fault,s') => (.fault,s') := rfl
  have hc : (c s).1 ≠ .fault := by
    intro he
    rcases hcs : c s with ⟨r,s'⟩
    rw [hcs] at he
    rw [hb,hcs] at hs
    cases r <;> simp_all
  rw [hb,h s hc] at hs ⊢
  unfold Op.ofParse at hs ⊢
  rw [run_bind]
  rcases hr : m.run s with ⟨o,s'⟩
  rw [hr] at hs
  cases o with
  | none => rfl
  | some a => exact h' a s' hs

theorem inside {len : ℤ} {n : ℕ} {f : Unit → Op σ β} {m : Parse σ β} (h : Erases (f ()) m) :
    Erases (Attributes.inside len n >>= f) m := by
  intro s hs
  rw [inside_bind] at hs ⊢
  split_ifs at hs ⊢ with hc
  · exact h s hs
  · simp at hs

theorem nameInside {attrs : Attrlist} {slen : ℕ} {f : Unit → Op σ β} {m : Parse σ β} (h : Erases (f ()) m) :
    Erases (Attributes.nameInside attrs slen >>= f) m := by
  intro s hs
  rw [nameInside_bind] at hs ⊢
  split_ifs at hs ⊢ with hc
  · exact h s hs
  · simp at hs

theorem number (attrs : Attrlist) (n : ℕ) : Erases (numberIn attrs n : Op σ ℕ) (number attrs.mem n) :=
  (ofParse _).bind fun _ => inside ((ofParse _).bind fun _ => (ofParse _).bind fun _ => pure _)

theorem ugid (getpwnam : Getpwnam) (attrs : Attrlist) (isUser : Bool) :
    Erases (ugidIn getpwnam attrs isUser : Op σ ℤ) (ugid getpwnam attrs.mem isUser) :=
  (number attrs 4).bind fun _ => (ofParse _).bind fun _ => inside (nameInside ((ofParse _).bind fun _ =>
    (ofParse _).bind fun _ => (ofParse _).bind fun _ => (ofParse _).bind fun _ => pure _))

theorem time (attrs : Attrlist) : Erases (timeIn attrs : Op σ (ℕ × ℕ)) (time attrs.mem) :=
  (ofParse _).bind fun _ => (number attrs 8).bind fun _ => (number attrs 4).bind fun _ => pure _

theorem parseAttributes (getpwnam : Getpwnam) (attrs : Attrlist) :
    Erases (parseAttributesIn getpwnam attrs) (parseAttributes getpwnam attrs.mem) :=
  (number attrs 4).bind fun _ => (number attrs 8).bind fun _ => (ofParse _).bind fun _ => (ofParse _).bind fun _ =>
    inside <| (ofParse _).bind fun _ => (ofParse _).bind fun _ => (ofParse _).bind fun _ =>
    (number attrs 8).bind fun _ => (ofParse _).bind fun _ => (number attrs 4).bind fun _ => (ofParse _).bind fun _ =>
    (number attrs 4).bind fun _ => (ofParse _).bind fun _ => (ugid getpwnam attrs true).bind fun _ => (ofParse _).bind fun _ =>
    (ugid getpwnam attrs false).bind fun _ => (ofParse _).bind fun _ => (number attrs 8).bind fun _ => (ofParse _).bind fun _ =>
    (number attrs 8).bind fun _ => (ofParse _).bind fun _ => (time attrs).bind fun _ => (ofParse _).bind fun _ =>
    (time attrs).bind fun _ => (ofParse _).bind fun _ => (time attrs).bind fun _ => (ofParse _).bind fun _ => ofParse _

end Erases

/-- Where it reads inside the buffer, `nfs_parse_attributes` does what the function with the faults does. -/
theorem nfsParseAttributes_of_readsInside {getpwnam : Getpwnam} {attrs : Attrlist} (h : ReadsInside getpwnam attrs) :
    nfsParseAttributes getpwnam attrs =
      (decide ((parseAttributesIn getpwnam attrs (⟨0,attrs.len⟩,Stat64.zero)).1 = .ok ()),
        (parseAttributesIn getpwnam attrs (⟨0,attrs.len⟩,Stat64.zero)).2.2) := by
  rw [Erases.parseAttributes getpwnam attrs _ h]
  show ((((parseAttributes getpwnam attrs.mem).run (⟨0,attrs.len⟩,Stat64.zero)).1.isSome,_) : Bool × Stat64) = _
  unfold Op.ofParse
  generalize (parseAttributes getpwnam attrs.mem).run (⟨0,attrs.len⟩,Stat64.zero) = r
  rcases r with ⟨o,s⟩
  cases o with
  | none => simp
  | some a => simp

/-- The bytes of a string, its length word at `b` and `rest` behind it, where `d` more bytes are counted than there are -/
def UgidFine (attrs : Attrlist) (b d : ℤ) (rest : ℤ → ℤ → Prop) : Prop :=
  attrs.len + d < b + 4 ∨ b + 4 ≤ attrs.len ∧
    (ntoh attrs.mem b 4 < 2^31 ∧ attrs.len + d < b + 4 + ntoh attrs.mem b 4 ∨
      b + 4 + ntoh attrs.mem b 4 ≤ attrs.len ∧ NameFine attrs (b+4) (ntoh attrs.mem b 4) ∧
        rest (b + 4 + ntoh attrs.mem b 4 + -(ntoh attrs.mem b 4 : ℤ) % 4) (d + ntoh attrs.mem b 4))

/-- The ends of the device, the space that is used and the times: none of them is one of the `d` bytes behind the buffer. -/
def TailFine (attrs : Attrlist) (b d : ℤ) : Prop :=
  ∀ e ∈ [8,16,28,40,52], b + e ≤ attrs.len ∨ attrs.len + d < b + e

/-- The first field that does not fit, if there is one, ends more than so many bytes behind the buffer as the strings in front of it
have, and each string is a number or a name that ends inside the buffer. -/
def Fine (attrs : Attrlist) : Prop :=
  attrs.len < 44 ∨ UgidFine attrs 44 0 fun b d => UgidFine attrs b d fun b d => TailFine attrs b d

section Safe

theorem ntoh_lt (mem : ℤ → UInt8) (buf : ℤ) (n : ℕ) : ntoh mem buf n < 256^n := by
  induction n with
  | zero => simp [ntoh]
  | succ n ih =>
    have h := (mem (buf+n)).toNat_lt
    rw [ntoh,pow_succ]
    omega

theorem int32_of_lt {n : ℕ} (h : n < 2^31) : int32 n = n := by
  unfold int32
  apply Int.bmod_eq_of_le <;> omega

theorem int32_neg {n : ℕ} (h : 2^31 ≤ n) (h' : n < 2^32) : int32 n < 0 := by
  have h1 : int32 n = n-2^32 := by
    unfold int32
    rw [Int.bmod_def]
    omega
  omega

variable {attrs : Attrlist} {b c : ℤ} {st : σ}

theorem checkGetattrBufSpace_run (n : ℤ) (s : Cur × σ) :
    (checkGetattrBufSpace n).run s = if s.1.len < n then (none,s) else (some (),s) := by
  show ((if s.1.len < n then failure else pure ()) : Parse σ Unit).run s = _
  by_cases h : s.1.len < n
  · rw [if_pos h,if_pos h]
    rfl
  · rw [if_neg h,if_neg h]
    rfl

theorem check_bind (n : ℤ) (f : Unit → Op σ β) (s : Cur × σ) :
    (Op.ofParse (checkGetattrBufSpace n) >>= f) s = if s.1.len < n then (.fail,s) else f () s := by
  show Op.bind (Op.ofParse (checkGetattrBufSpace n)) f s = _
  unfold Op.bind Op.ofParse
  rw [checkGetattrBufSpace_run]
  by_cases h : s.1.len < n
  · rw [if_pos h,if_pos h]
  · rw [if_neg h,if_neg h]

theorem pure_bind' (a : α) (f : α → Op σ β) : ((Pure.pure a : Op σ α) >>= f) = f a := rfl

theorem bind_bind (m : Op σ α) (f : α → Op σ β) {γ : Type} (g : β → Op σ γ) :
    m >>= f >>= g = m >>= fun a => f a >>= g := by
  funext s
  show Op.bind (Op.bind m f) g s = Op.bind m (fun a => Op.bind (f a) g) s
  unfold Op.bind
  rcases m s with ⟨r,s'⟩
  cases r <;> rfl

/-- Nothing outside is read. -/
def Safe (m : Op σ α) (s : Cur × σ) : Prop := (m s).1 ≠ .fault

theorem safe_fail (s : Cur × σ) : ((.fail,s) : Res α × (Cur × σ)).1 ≠ .fault := by simp

theorem safe_ok (g g' : σ → σ) (s : Cur × σ) :
    Safe (Op.ofParse (fill g) >>= fun _ => Op.ofParse (fill g')) s := by
  show (Res.ok ()) ≠ .fault
  simp

theorem safe_check (n : ℤ) (f : Unit → Op σ β) (s : Cur × σ) :
    Safe (Op.ofParse (checkGetattrBufSpace n) >>= f) s ↔ s.1.len < n ∨ Safe (f ()) s := by
  unfold Safe
  rw [check_bind]
  by_cases h : s.1.len < n
  · rw [if_pos h]
    exact iff_of_true (safe_fail s) (.inl h)
  · rw [if_neg h]
    simp [h]

theorem safe_inside (len : ℤ) (n : ℕ) (f : Unit → Op σ β) (s : Cur × σ) (hb : 0 ≤ s.1.buf) :
    Safe (inside len n >>= f) s ↔ s.1.buf+n ≤ len ∧ Safe (f ()) s := by
  unfold Safe
  rw [inside_bind]
  by_cases h : s.1.buf+n ≤ len
  · rw [if_pos ⟨hb,h⟩]
    simp [h]
  · rw [if_neg (by simp [h])]
    simp [h]

theorem safe_nameInside (slen : ℕ) (f : Unit → Op σ β) (s : Cur × σ) :
    Safe (nameInside attrs slen >>= f) s ↔ NameFine attrs s.1.buf slen ∧ Safe (f ()) s := by
  unfold Safe
  rw [nameInside_bind]
  by_cases h : NameFine attrs s.1.buf slen
  · rw [if_pos h]
    simp [h]
  · rw [if_neg h]
    simp [h]

theorem safe_number (n : ℕ) (f : ℕ → Op σ β) (hb : 0 ≤ b) :
    Safe (numberIn attrs n >>= f) (⟨b,c⟩,st) ↔
      c < n ∨ b+n ≤ attrs.len ∧ Safe (f (ntoh attrs.mem b n)) (⟨b+n,c-n⟩,st) := by
  unfold numberIn
  simp only [bind_bind]
  rw [safe_check,safe_inside _ _ _ _ hb]
  rfl

theorem safe_fill (g : σ → σ) (f : Unit → Op σ β) (s : Cur × σ) :
    Safe (Op.ofParse (fill g) >>= f) s ↔ Safe (f ()) (s.1,g s.2) := Iff.rfl

theorem safe_get (f : Cur × σ → Op σ β) (s : Cur × σ) : Safe (Op.ofParse get >>= f) s ↔ Safe (f s) s := Iff.rfl

theorem safe_advance (n m : ℤ) (f : Unit → Op σ β) (s : Cur × σ) :
    Safe (Op.ofParse (advance n m) >>= f) s ↔ Safe (f ()) (⟨s.1.buf+n,s.1.len-m⟩,s.2) := Iff.rfl

/-- A string: `d` bytes more are counted than there are, and behind it so many more as it is long. -/
theorem safe_ugid {getpwnam : Getpwnam} {isUser : Bool} {f : ℤ → Op σ β} {rest : ℤ → ℤ → Prop} {d : ℤ}
    (hlen : attrs.len < 2^31) (hb : 0 ≤ b) (hover : ∀ b d, attrs.len+d < b → rest b d)
    (h : ∀ b d id st, 0 ≤ b → (Safe (f id) (⟨b,attrs.len-b+d⟩,st) ↔ rest b d)) :
    Safe (ugidIn getpwnam attrs isUser >>= f) (⟨b,attrs.len-b+d⟩,st) ↔ UgidFine attrs b d rest := by
  unfold ugidIn UgidFine
  simp only [bind_bind]
  rw [safe_number _ _ hb,show attrs.len+d < b+4 ↔ attrs.len-b+d < (4:ℕ) by omega]
  refine or_congr_right' fun hword => and_congr (by simp) ?_
  have hlt := ntoh_lt attrs.mem b 4
  generalize ntoh attrs.mem b 4 = word at hlt ⊢
  rw [safe_check,safe_inside _ _ _ _ (show 0 ≤ b+(4:ℕ) by omega),safe_nameInside,safe_get,safe_advance,safe_check,safe_advance]
  have hin : (((⟨b+(4:ℕ),attrs.len-b+d-(4:ℕ)⟩,st) : Cur × σ)).1.buf = b+4 := rfl
  rcases Nat.lt_or_ge word (2^31) with hword | hword
  · rw [int32_of_lt hword]
    refine or_congr ?_ (and_congr (by simp) (and_congr (by simp) ?_))
    · have hc : (((⟨b+(4:ℕ),attrs.len-b+d-(4:ℕ)⟩,st) : Cur × σ)).1.len = attrs.len-b+d-4 := rfl
      rw [hc]
      omega
    · simp only []
      have hpad := Int.emod_nonneg (-(word:ℤ)) (by norm_num : (4:ℤ) ≠ 0)
      have hc : attrs.len-b+d-(4:ℕ)-0-(-(word:ℤ)) % 4 =
          attrs.len-(b+4+word+-(word:ℤ) % 4)+(d+word) := by
        push_cast
        omega
      rw [hc]
      have hcur : 0 ≤ b+4+word+-(word:ℤ) % 4 := by omega
      refine Iff.trans (or_congr Iff.rfl (h _ (d+word) _ _ hcur)) (or_iff_right_of_imp fun hc' => ?_)
      exact hover _ _ (by omega)
  · have hneg := int32_neg hword (by omega)
    refine or_congr (iff_of_false ?_ ?_) (iff_of_false ?_ ?_)
    · have hc : (((⟨b+(4:ℕ),attrs.len-b+d-(4:ℕ)⟩,st) : Cur × σ)).1.len = attrs.len-b+d-(4:ℕ) := rfl
      rw [hc]
      omega
    · rintro ⟨h1,-⟩
      omega
    · rintro ⟨h1,-⟩
      rw [hin] at h1
      omega
    · rintro ⟨h1,-⟩
      omega
/-- A time is inside if it ends inside. -/
theorem safe_time (f : ℕ × ℕ → Op σ β) (hb : 0 ≤ b) {P : Prop}
    (h : ∀ t, Safe (f t) (⟨b+12,c-12⟩,st) ↔ P) :
    Safe (timeIn attrs >>= f) (⟨b,c⟩,st) ↔ c < 12 ∨ b+12 ≤ attrs.len ∧ P := by
  unfold timeIn
  simp only [bind_bind]
  rw [safe_check,safe_number _ _ hb,safe_number _ _ (show 0 ≤ b+(8:ℕ) by omega)]
  have he : (⟨b+(8:ℕ)+(4:ℕ),c-(8:ℕ)-(4:ℕ)⟩ : Cur) = ⟨b+12,c-12⟩ := by
    rw [Cur.mk.injEq]
    omega
  rw [he,pure_bind',h]
  push_cast
  refine or_congr_right' fun hc => ?_
  have hc' : ¬c < 12 := hc
  constructor
  · rintro (h1 | ⟨h1,h2 | ⟨h2,hP⟩⟩)
    · omega
    · omega
    · exact ⟨by omega,hP⟩
  · rintro ⟨h1,hP⟩
    exact .inr ⟨by omega,.inr ⟨by omega,hP⟩⟩

end Safe

theorem TailFine.of_over {attrs : Attrlist} {b d : ℤ} (h : attrs.len+d < b) : TailFine attrs b d := by
  intro e he
  right
  have h0 : 0 ≤ e := by
    simp only [List.mem_cons,List.not_mem_nil,or_false] at he
    omega
  omega

theorem UgidFine.of_over {attrs : Attrlist} {b d : ℤ} {rest : ℤ → ℤ → Prop} (h : attrs.len+d < b) :
    UgidFine attrs b d rest := .inl (by omega)

/-- `nfs_parse_attributes` reads inside the buffer, and fails where a field does not fit, in exactly these cases. -/
theorem readsInside_iff (getpwnam : Getpwnam) {attrs : Attrlist} (hlen : attrs.len < 2^31) :
    ReadsInside getpwnam attrs ↔ Fine attrs := by
  have htail : ∀ (b d : ℤ) (gid : ℤ) (st : Stat64), 0 ≤ b → (Safe (do
      Op.ofParse (fill fun st => { st with gid := uint64 gid })
      let rdev ← numberIn attrs 8
      Op.ofParse (fill fun st => { st with rdev := rdev })
      let used ← numberIn attrs 8
      Op.ofParse (fill fun st => { st with used := used })
      let atime ← timeIn attrs
      Op.ofParse (fill fun st => { st with atime := atime.1, atimeNsec := atime.2 })
      let ctime ← timeIn attrs
      Op.ofParse (fill fun st => { st with ctime := ctime.1, ctimeNsec := ctime.2 })
      let mtime ← timeIn attrs
      Op.ofParse (fill fun st => { st with mtime := mtime.1, mtimeNsec := mtime.2 })
      Op.ofParse (fill fun st => { st with blksize := 4096, blocks := (st.used+4095) % 2^64/4096 }))
      (⟨b,attrs.len-b+d⟩,st) ↔ TailFine attrs b d) := by
    intro b d gid st hb
    rw [safe_fill,safe_number _ _ hb,safe_fill,safe_number _ _ (by omega),safe_fill,
      safe_time _ (by omega) fun _ => (safe_fill _ _ _).trans <| safe_time _ (by omega) fun _ =>
        (safe_fill _ _ _).trans <| safe_time _ (by omega) fun _ => (iff_true_intro (safe_ok _ _ _))]
    unfold TailFine
    simp only [List.forall_mem_cons,List.not_mem_nil,and_true]
    push_cast
    constructor
    · intro h
      refine ⟨?_,?_,?_,?_,?_,by simp⟩ <;> omega
    · rintro ⟨h1,h2,h3,h4,h5,-⟩
      omega
  unfold ReadsInside parseAttributesIn Fine
  have hsafe : ∀ {m : Op Stat64 Unit} {s}, (m s).1 ≠ .fault ↔ Safe m s := Iff.rfl
  rw [hsafe,safe_number _ _ (by omega),safe_number _ _ (by omega),safe_fill,safe_check,safe_inside _ _ _ _ (by simp),
    safe_get,safe_fill,safe_advance,safe_number _ _ (by simp),safe_fill,safe_number _ _ (by simp),safe_fill,
    safe_number _ _ (by simp),safe_fill]
  simp only []
  push_cast
  have hcur : (⟨44,attrs.len-4-8-16-8-4-4⟩ : Cur) = ⟨44,attrs.len-44+0⟩ := by
    rw [Cur.mk.injEq]
    omega
  rw [hcur,safe_ugid hlen (by omega) (fun _ _ h => UgidFine.of_over h) fun b d uid st hb =>
    (safe_fill _ _ _).trans (safe_ugid hlen hb (fun _ _ h => TailFine.of_over h) htail)]
  generalize (UgidFine attrs 44 0 fun b d => UgidFine attrs b d fun b d => TailFine attrs b d) = P
  constructor
  · intro h
    by_cases hlt : attrs.len < 44
    · exact .inl hlt
    · rcases h with h | ⟨-,h | ⟨-,h | ⟨-,h | ⟨-,h | ⟨-,h | ⟨-,h⟩⟩⟩⟩⟩⟩
      all_goals try omega
      exact .inr h
  · rintro (h | h)
    · omega
    · by_cases hlt : attrs.len < 44
      · omega
      · exact .inr ⟨by omega,.inr ⟨by omega,.inr ⟨by omega,.inr ⟨by omega,.inr ⟨by omega,.inr ⟨by omega,h⟩⟩⟩⟩⟩⟩

end Attributes
end Libnfs
