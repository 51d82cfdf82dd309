import Mathlib.Data.List.Infix
import Mathlib.Data.Nat.Notation
import Mathlib.Tactic.Common

/-! Strings made of components, each behind a separator: searching, prefixes and suffixes of such a string
in terms of its components. -/
namespace Libnfs
namespace Paths

variable {α : Type*}

/-- The components, each behind a separator -/
def glue (sep : α) (cs : List (List α)) : List α := cs.flatMap (sep :: ·)

/-- Nothing, or something that starts with a separator -/
def Stops (sep : α) (s : List α) : Prop := s = [] ∨ ∃ t, s = sep :: t

/-- None of the components has a separator. -/
def Cut (sep : α) (cs : List (List α)) : Prop := ∀ c ∈ cs, sep ∉ c

variable {sep : α} {c d : List α} {cs ds : List (List α)}

@[simp] theorem glue_nil : glue sep [] = [] := rfl

@[simp] theorem glue_cons : glue sep (c :: cs) = sep :: (c ++ glue sep cs) := rfl

@[simp] theorem glue_append : glue sep (cs ++ ds) = glue sep cs ++ glue sep ds := List.flatMap_append

theorem glue_stops : Stops sep (glue sep cs) := by
  cases cs with
  | nil => exact .inl rfl
  | cons c cs => exact .inr ⟨_,rfl⟩

theorem glue_eq_nil : glue sep cs = [] ↔ cs = [] := by
  cases cs <;> simp

theorem Cut.head (h : Cut sep (c :: cs)) : sep ∉ c := h c (by simp)

theorem Cut.tail (h : Cut sep (c :: cs)) : Cut sep cs := fun d hd => h d (by simp [hd])

theorem Cut.left (h : Cut sep (cs ++ ds)) : Cut sep cs := fun d hd => h d (by simp [hd])

theorem Cut.right (h : Cut sep (cs ++ ds)) : Cut sep ds := fun d hd => h d (by simp [hd])

theorem Cut.append (h : Cut sep cs) (h' : Cut sep ds) : Cut sep (cs ++ ds) := by
  intro d hd
  rcases List.mem_append.mp hd with hd | hd
  · exact h d hd
  · exact h' d hd

theorem Cut.filter (h : Cut sep cs) (p : List α → Bool) : Cut sep (cs.filter p) :=
  fun d hd => h d (List.mem_of_mem_filter hd)

/-- A component ends where the next separator stands. -/
theorem append_stops_inj {s t : List α} (hc : sep ∉ c) (hd : sep ∉ d) (hs : Stops sep s) (ht : Stops sep t)
    (he : c ++ s = d ++ t) : c = d ∧ s = t := by
  induction c generalizing d with
  | nil =>
    cases d with
    | nil => exact ⟨rfl,he⟩
    | cons y d =>
      rcases hs with rfl | ⟨s,rfl⟩
      · simp at he
      · simp only [List.nil_append,List.cons_append,List.cons.injEq] at he
        simp [he.1] at hd
  | cons x c ih =>
    cases d with
    | nil =>
      rcases ht with rfl | ⟨t,rfl⟩
      · simp at he
      · simp only [List.nil_append,List.cons_append,List.cons.injEq] at he
        simp [he.1] at hc
    | cons y d =>
      simp only [List.cons_append,List.cons.injEq] at he
      simp only [List.mem_cons,not_or] at hc hd
      obtain ⟨rfl,rfl⟩ := ih hc.2 hd.2 he.2
      exact ⟨by rw [he.1],rfl⟩

theorem glue_inj (hc : Cut sep cs) (hd : Cut sep ds) (he : glue sep cs = glue sep ds) : cs = ds := by
  induction cs generalizing ds with
  | nil => exact (glue_eq_nil.mp he.symm).symm
  | cons c cs ih =>
    cases ds with
    | nil => simp at he
    | cons d ds =>
      rw [glue_cons,glue_cons,List.cons.injEq] at he
      replace he := he.2
      obtain ⟨rfl,ht⟩ := append_stops_inj hc.head hd.head glue_stops glue_stops he
      rw [ih hc.tail hd.tail ht]

/-- A string prefix that ends at a separator is a prefix of the components. -/
theorem glue_initial (hc : Cut sep cs) (hd : Cut sep ds) :
    (∃ t, Stops sep t ∧ glue sep cs ++ t = glue sep ds) ↔ cs <+: ds := by
  constructor
  · rintro ⟨t,ht,he⟩
    induction cs generalizing ds with
    | nil => exact List.nil_prefix
    | cons c cs ih =>
      cases ds with
      | nil => simp at he
      | cons d ds =>
        rw [glue_cons,glue_cons,List.cons_append,List.append_assoc,List.cons.injEq] at he
        replace he := he.2
        have hs : Stops sep (glue sep cs ++ t) := by
          cases cs with
          | nil => exact ht
          | cons c cs => exact .inr ⟨_,rfl⟩
        obtain ⟨rfl,hrest⟩ := append_stops_inj hc.head hd.head hs glue_stops he
        exact List.cons_prefix_cons.mpr ⟨rfl,ih hc.tail hd.tail hrest⟩
  · rintro ⟨rest,rfl⟩
    exact ⟨glue sep rest,glue_stops,glue_append.symm⟩

/-- The last component of a string -/
theorem suffix_glue (hc : sep ∉ c) (hd : sep ∉ d) : sep :: d <:+ glue sep cs ++ sep :: c ↔ c = d := by
  constructor
  · rintro ⟨t,ht⟩
    have hr := congrArg List.reverse ht
    simp only [List.reverse_append,List.reverse_cons,List.append_assoc,List.singleton_append] at hr
    have hi := append_stops_inj (by simpa using hd) (by simpa using hc) (.inr ⟨_,rfl⟩) (.inr ⟨_,rfl⟩) hr
    exact (List.reverse_injective hi.1).symm
  · rintro rfl
    exact List.suffix_append _ _

/-- Every string that starts with a separator is made of components. -/
theorem exists_glue (s : List α) : ∃ cs, Cut sep cs ∧ glue sep cs = sep :: s ∧ cs ≠ [] := by
  induction s with
  | nil => exact ⟨[[]],by simp [Cut],rfl,by simp⟩
  | cons x s ih =>
    obtain ⟨cs,hcut,he,hne⟩ := ih
    cases cs with
    | nil => exact absurd rfl hne
    | cons c cs =>
      simp only [glue_cons,List.cons.injEq,true_and] at he
      by_cases hx : x = sep
      · refine ⟨[] :: c :: cs,?_,by simp [hx,he],by simp⟩
        intro d hd
        rcases List.mem_cons.mp hd with rfl | hd
        · simp
        · exact hcut d hd
      · refine ⟨(x :: c) :: cs,?_,by simp [he],by simp⟩
        intro d hd
        rcases List.mem_cons.mp hd with rfl | hd
        · simpa [Ne.symm hx] using hcut.head
        · exact hcut.tail d hd

/-- A component between two separators stands in front. -/
theorem prefix_glue (hc : sep ∉ c) (hd : sep ∉ d) : sep :: (d ++ [sep]) <+: glue sep (c :: cs) ↔ c = d ∧ cs ≠ [] := by
  rw [glue_cons,List.cons_prefix_cons]
  constructor
  · rintro ⟨-,t,ht⟩
    rw [List.append_assoc] at ht
    obtain ⟨rfl,he⟩ := append_stops_inj hd hc (.inr ⟨t,rfl⟩) glue_stops ht
    exact ⟨rfl,by rintro rfl; simp at he⟩
  · rintro ⟨rfl,hne⟩
    refine ⟨rfl,?_⟩
    cases cs with
    | nil => exact absurd rfl hne
    | cons x cs => exact ⟨x ++ glue sep cs,by simp⟩

section Search

variable [DecidableEq α]

/-- Position of the first occurrence of `pat` -/
def strstr (pat : List α) : List α → Option ℕ
  | [] => if pat = [] then some 0 else none
  | c :: s => if pat <+: c :: s then some 0 else (strstr pat s).map (·+1)

/-- The first component of a string, and what is behind it -/
theorem span_stops {s : List α} (hc : sep ∉ c) (hs : Stops sep s) :
    (c ++ s).takeWhile (· ≠ sep) = c ∧ (c ++ s).dropWhile (· ≠ sep) = s := by
  have hall : ∀ x ∈ c, decide (x ≠ sep) = true := fun x hx => by
    simp only [decide_eq_true_eq]
    rintro rfl
    exact hc hx
  rw [List.takeWhile_append_of_pos hall,List.dropWhile_append_of_pos hall]
  rcases hs with rfl | ⟨t,rfl⟩ <;> simp

theorem idxOf?_append (hc : sep ∉ c) (t : List α) : (c ++ sep :: t).idxOf? sep = some c.length := by
  induction c with
  | nil => simp [List.idxOf?_cons]
  | cons x c ih =>
    simp only [List.mem_cons,not_or] at hc
    rw [List.cons_append,List.idxOf?_cons,if_neg (by simpa using Ne.symm hc.1),ih hc.2]
    rfl

instance (s : List α) : Decidable (Stops sep s) :=
  match s with
  | [] => isTrue (.inl rfl)
  | c :: t => decidable_of_iff (c = sep) (by simp [Stops])

/-- The components of a string that are not empty -/
def components (sep : α) (s : List α) : List (List α) := (s.splitOn sep).filter (· ≠ [])

theorem splitOn_glue (hc : sep ∉ c) (hcs : Cut sep cs) : (c ++ glue sep cs).splitOn sep = c :: cs := by
  have hone : ∀ {c : List α}, sep ∉ c → c.splitOn sep = [c] := by
    intro c hc
    simpa using @List.splitOn_intercalate α [c] _ _ sep (by simpa using hc) (by simp)
  induction cs generalizing c with
  | nil => simpa using hone hc
  | cons d cs ih =>
    rw [glue_cons,List.splitOn_append_cons_self,hone hc,ih hcs.head hcs.tail]
    rfl

theorem components_glue (hcs : Cut sep cs) : components sep (glue sep cs) = cs.filter (· ≠ []) := by
  have h := splitOn_glue (List.not_mem_nil : sep ∉ []) hcs
  rw [List.nil_append] at h
  rw [components,h]
  simp

theorem components_cons_self (s : List α) : components sep (sep :: s) = components sep s := by
  rw [components,components,← List.nil_append (sep :: s),List.splitOn_append_cons_self]
  simp

theorem components_of_notMem (hc : sep ∉ c) (hne : c ≠ []) : components sep c = [c] := by
  have h := @splitOn_glue α sep c [] _ hc (by simp [Cut])
  rw [glue_nil,List.append_nil] at h
  simp [components,h,hne]

/-- What starts at a separator has components of its own. -/
theorem components_append {s t : List α} (ht : Stops sep t) :
    components sep (s ++ t) = components sep s ++ components sep t := by
  rcases ht with rfl | ⟨t,rfl⟩
  · simp [components]
  · have h : (sep :: t).splitOn sep = [] ++ [] :: t.splitOn sep := by
      rw [← List.nil_append (sep :: t),List.splitOn_append_cons_self]
      simp
    rw [components,components,components,List.splitOn_append_cons_self,h]
    simp

/-- No separator, nothing found -/
theorem strstr_append {pat : List α} {s : List α} (hc : sep ∉ c) :
    strstr (sep :: pat) (c ++ s) = (strstr (sep :: pat) s).map (·+c.length) := by
  induction c with
  | nil => simp
  | cons x c ih =>
    simp only [List.mem_cons,not_or] at hc
    have hno : ¬ sep :: pat <+: x :: (c ++ s) := by
      rw [List.cons_prefix_cons]
      exact fun h => hc.1 h.1
    rw [List.cons_append,strstr,if_neg hno,ih hc.2,Option.map_map]
    rfl

/-- A component between two separators is found where it stands. -/
theorem strstr_glue_cons (hc : sep ∉ c) (hd : sep ∉ d) :
    strstr (sep :: (d ++ [sep])) (glue sep (c :: cs)) =
      if c = d ∧ cs ≠ [] then some 0
      else (strstr (sep :: (d ++ [sep])) (glue sep cs)).map (·+(c.length+1)) := by
  have hp : sep :: (d ++ [sep]) <+: glue sep (c :: cs) ↔ c = d ∧ cs ≠ [] := prefix_glue hc hd
  rw [glue_cons] at hp ⊢
  rw [strstr]
  by_cases h : c = d ∧ cs ≠ []
  · rw [if_pos (hp.mpr h),if_pos h]
  · rw [if_neg (hp.not.mpr h),if_neg h,strstr_append hc,Option.map_map]
    rfl

theorem strstr_glue_nil : strstr (sep :: (d ++ [sep])) (glue sep []) = none := by
  simp [strstr]

/-- The first component `d` that another one follows -/
theorem strstr_glue_some (hc : Cut sep cs) (hd : sep ∉ d) {i : ℕ}
    (h : strstr (sep :: (d ++ [sep])) (glue sep cs) = some i) :
    ∃ pre rest, cs = pre ++ d :: rest ∧ rest ≠ [] ∧ d ∉ pre ∧ i = (glue sep pre).length := by
  induction cs generalizing i with
  | nil =>
    rw [strstr_glue_nil] at h
    simp at h
  | cons c cs ih =>
    rw [strstr_glue_cons hc.head hd] at h
    by_cases hcd : c = d ∧ cs ≠ []
    · rw [if_pos hcd,Option.some.injEq] at h
      exact ⟨[],cs,by simp [hcd.1],hcd.2,by simp,by simp [← h]⟩
    · rw [if_neg hcd,Option.map_eq_some_iff] at h
      obtain ⟨j,hj,rfl⟩ := h
      obtain ⟨pre,rest,rfl,hne,hpre,rfl⟩ := ih hc.tail hj
      have hne' : c ≠ d := fun h => hcd ⟨h,by simp⟩
      refine ⟨c :: pre,rest,rfl,hne,?_,?_⟩
      · simp [hne'.symm,hpre]
      · simp
        omega

theorem strstr_glue_none (hc : Cut sep cs) (hd : sep ∉ d)
    (h : strstr (sep :: (d ++ [sep])) (glue sep cs) = none) : d ∉ cs.dropLast := by
  induction cs with
  | nil => simp
  | cons c cs ih =>
    rw [strstr_glue_cons hc.head hd] at h
    by_cases hcd : c = d ∧ cs ≠ []
    · rw [if_pos hcd] at h
      simp at h
    · rw [if_neg hcd,Option.map_eq_none_iff] at h
      cases cs with
      | nil => simp
      | cons e cs =>
        rw [List.dropLast_cons_cons,List.mem_cons,not_or]
        exact ⟨fun h => hcd ⟨h.symm,by simp⟩,ih hc.tail h⟩

end Search

end Paths
end Libnfs
