import Mathlib.Tactic

/-! Streams of records with a header of fixed size in front that says how long the body is.
`scan` follows a stream and tells where in a record it stands. -/
namespace RecordMark

variable {α : Type*}

/-- How records look: the size of a header, and the length of the body behind one. -/
structure Format (α : Type*) where
  size : ℕ
  len : List α → Option ℕ

/-- A place in a stream: behind a part of a header, before the last bytes of a body, or behind
a header that no record has. -/
inductive Pos (α : Type*)
  | header (got : List α) | body (left : ℕ) | broken
  deriving DecidableEq, Repr

def start : Pos α := .header []

/-- Before the last `n` bytes of a body. -/
def inBody (n : ℕ) : Pos α := if n = 0 then start else .body n

variable (f : Format α)

/-- Behind a whole header. -/
def opened (h : List α) : Pos α :=
  match f.len h with
  | none => .broken
  | some n => inBody n

def next : Pos α → α → Pos α
  | .header got, x => if got.length+1 < f.size then .header (got++[x]) else opened f (got++[x])
  | .body n, _ => inBody (n-1)
  | .broken, _ => .broken

def scan (p : Pos α) (bs : List α) : Pos α := bs.foldl (next f) p

@[simp] theorem scan_nil (p : Pos α) : scan f p [] = p := rfl

theorem scan_append (p : Pos α) (a b : List α) : scan f p (a++b) = scan f (scan f p a) b :=
  List.foldl_append

theorem scan_concat (p : Pos α) (a : List α) (x : α) : scan f p (a++[x]) = next f (scan f p a) x := by
  simp [scan]

theorem scan_broken (bs : List α) : scan f .broken bs = .broken := by
  induction bs with
  | nil => rfl
  | cons x bs ih => exact ih

theorem scan_body {n : ℕ} {bs : List α} (hn : 0 < n) (h : bs.length ≤ n) :
    scan f (.body n) bs = inBody (n-bs.length) := by
  induction bs generalizing n with
  | nil => simp [inBody,Nat.ne_of_gt hn]
  | cons x bs ih =>
    simp only [List.length_cons] at h ⊢
    rcases Nat.eq_zero_or_pos (n-1) with h0 | hpos
    · have hb : bs = [] := List.length_eq_zero_iff.mp (by omega)
      subst hb
      rfl
    · have hx : next f (.body n) x = .body (n-1) := if_neg (by omega)
      calc scan f (.body n) (x::bs) = scan f (next f (.body n) x) bs := rfl
        _ = inBody (n-1-bs.length) := by rw [hx,ih hpos (by omega)]
        _ = inBody (n-(bs.length+1)) := by rw [Nat.sub_sub,Nat.add_comm]

theorem scan_header {got bs : List α} (h : got.length+bs.length < f.size) :
    scan f (.header got) bs = .header (got++bs) := by
  induction bs generalizing got with
  | nil => simp
  | cons x bs ih =>
    simp only [List.length_cons] at h
    have hx : next f (.header got) x = .header (got++[x]) := if_pos (by omega)
    calc scan f (.header got) (x::bs) = scan f (next f (.header got) x) bs := rfl
      _ = .header (got++[x]++bs) := by
        rw [hx,ih (by simp only [List.length_append,List.length_singleton]; omega)]
      _ = .header (got++x::bs) := by simp

theorem scan_opened {h : List α} (hs : h.length = f.size) (hpos : 0 < f.size) :
    scan f start h = opened f h := by
  rcases List.eq_nil_or_concat h with rfl | ⟨l,x,rfl⟩
  · simp at hs
    omega
  · simp only [List.concat_eq_append,List.length_append,List.length_singleton] at hs ⊢
    rw [scan_concat,start,scan_header f (by simp; omega),List.nil_append]
    exact if_neg (by omega)

/-- One record. -/
def IsRecord (r : List α) : Prop :=
  ∃ h b, r = h ++ b ∧ h.length = f.size ∧ f.len h = some b.length

/-- Whole records, and nothing else. -/
def Whole (bs : List α) : Prop := ∃ rs : List (List α), (∀ r ∈ rs, IsRecord f r) ∧ bs = rs.flatten

theorem whole_nil : Whole f ([] : List α) := ⟨[],by simp,rfl⟩

theorem Whole.append {a r : List α} (h : Whole f a) (hr : IsRecord f r) : Whole f (a++r) := by
  obtain ⟨rs,hrs,rfl⟩ := h
  refine ⟨rs++[r],?_,by simp⟩
  intro q hq
  rcases List.mem_append.mp hq with hq | hq
  · exact hrs q hq
  · rw [List.mem_singleton.mp hq]
    exact hr

theorem scan_record {r : List α} (hpos : 0 < f.size) (h : IsRecord f r) : scan f start r = start := by
  obtain ⟨h,b,rfl,hs,hl⟩ := h
  rw [scan_append,scan_opened f hs hpos,opened,hl]
  dsimp only
  rcases Nat.eq_zero_or_pos b.length with h0 | hb
  · rw [List.length_eq_zero_iff.mp h0]
    rfl
  · rw [inBody,if_neg (by omega),scan_body f hb (le_refl _),Nat.sub_self]
    rfl

/-- What of the stream is not yet a whole record. -/
inductive Rest : Pos α → List α → Prop
  | header (got : List α) (h : got.length < f.size) : Rest (.header got) got
  | body (h b : List α) (n : ℕ) (hs : h.length = f.size) (hl : f.len h = some (b.length+n))
      (hn : 0 < n) : Rest (.body n) (h++b)
  | broken (tail : List α) : Rest .broken tail

/-- A place and the bytes that lead to it determine each other. -/
theorem scan_rest (hpos : 0 < f.size) (bs : List α) :
    ∃ a tail, bs = a ++ tail ∧ Whole f a ∧ Rest f (scan f start bs) tail := by
  induction bs using List.reverseRecOn with
  | nil => exact ⟨[],[],rfl,whole_nil f,.header [] hpos⟩
  | append_singleton bs x ih =>
    obtain ⟨a,tail,rfl,ha,hr⟩ := ih
    rw [scan_concat]
    generalize hp : scan f start (a++tail) = p at hr
    cases hr with
    | header got hgot =>
      simp only [next]
      split
      · exact ⟨a,tail++[x],by simp,ha,.header _ (by simpa using ‹_›)⟩
      · have hs : (tail++[x]).length = f.size := by simp; omega
        unfold opened
        cases hl : f.len (tail++[x]) with
        | none => exact ⟨a,tail++[x],by simp,ha,.broken _⟩
        | some n =>
          dsimp only [inBody]
          split
          · rename_i h0
            subst h0
            refine ⟨a++(tail++[x]),[],by simp,ha.append f ⟨tail++[x],[],by simp,hs,hl⟩,?_⟩
            exact .header [] hpos
          · refine ⟨a,tail++[x],by simp,ha,?_⟩
            have hb := Rest.body (f := f) (tail++[x]) [] n hs (by simpa using hl) (by omega)
            rwa [List.append_nil] at hb
    | body h b n hs hl hn =>
      simp only [next,inBody]
      split
      · refine ⟨a++(h++(b++[x])),[],by simp,ha.append f ⟨h,b++[x],rfl,hs,?_⟩,.header [] hpos⟩
        rw [hl,List.length_append,List.length_singleton]
        congr 1
        omega
      · refine ⟨a,h++(b++[x]),by simp,ha,.body h (b++[x]) (n-1) hs ?_ (by omega)⟩
        rw [hl,List.length_append,List.length_singleton]
        congr 1
        omega
    | broken => exact ⟨a,tail++[x],by simp,ha,.broken _⟩

/-- The scan is back at its start exactly between two records. -/
theorem scan_eq_start (hpos : 0 < f.size) (bs : List α) : scan f start bs = start ↔ Whole f bs := by
  constructor
  · intro h
    obtain ⟨a,tail,rfl,ha,hr⟩ := scan_rest f hpos bs
    rw [h] at hr
    cases hr with
    | header => rwa [List.append_nil]
  · rintro ⟨rs,hrs,rfl⟩
    induction rs with
    | nil => rfl
    | cons r rs ih =>
      rw [List.flatten_cons,scan_append,scan_record f hpos (hrs r (by simp))]
      exact ih fun q hq => hrs q (List.mem_cons_of_mem r hq)

end RecordMark
