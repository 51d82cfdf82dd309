import Mathlib.Data.List.Nodup
import Mathlib.Tactic.Common

/-! A list of records with distinct keys, read as a finite map: looking a key up, adding a record in
front, and dropping the records of some keys. -/
namespace Registry

variable {K R : Type*} (key : R → K)

/-- No two records have one key. -/
def Distinct (l : List R) : Prop := (l.map key).Nodup

/-- The first record with this key -/
def lookup [DecidableEq K] (l : List R) (k : K) : Option R := l.find? fun r => key r = k

section

variable {key} {l : List R} {r : R}

theorem Distinct.nil : Distinct key ([] : List R) := by simp [Distinct]

theorem Distinct.tail (h : Distinct key (r :: l)) : Distinct key l := (List.nodup_cons.mp h).2

theorem Distinct.filter (h : Distinct key l) (p : R → Bool) : Distinct key (l.filter p) :=
  h.sublist (List.filter_sublist.map key)

theorem Distinct.reverse (h : Distinct key l) : Distinct key l.reverse := by
  rw [Distinct,List.map_reverse]
  exact List.nodup_reverse.mpr h

theorem Distinct.nodup (h : Distinct key l) : l.Nodup := List.Nodup.of_map key h

end

variable {key} [DecidableEq K] {l : List R} {k : K} {r s : R}

theorem Distinct.cons (h : Distinct key l) (hr : lookup key l (key r) = none) :
    Distinct key (r :: l) := by
  simp only [lookup,List.find?_eq_none,decide_eq_true_eq] at hr
  simp only [Distinct,List.map_cons,List.nodup_cons,List.mem_map,not_exists,not_and]
  exact ⟨hr,h⟩

theorem lookup_mem (h : lookup key l k = some r) : r ∈ l ∧ key r = k :=
  ⟨List.mem_of_find?_eq_some h,by simpa using List.find?_some h⟩

/-- With distinct keys every record is found. -/
theorem lookup_eq_some (h : Distinct key l) : lookup key l k = some r ↔ r ∈ l ∧ key r = k := by
  refine ⟨lookup_mem,?_⟩
  rintro ⟨hr,rfl⟩
  induction l with
  | nil => simp at hr
  | cons s l ih =>
    rcases List.mem_cons.mp hr with rfl | hr
    · simp [lookup]
    · have hne : key s ≠ key r := by
        intro he
        exact (List.nodup_cons.mp h).1 (he ▸ List.mem_map_of_mem hr)
      simpa [lookup,hne] using ih h.tail hr

/-- A record in front is found under its key and hides nothing else. -/
theorem lookup_cons : lookup key (r :: l) k = if key r = k then some r else lookup key l k := by
  unfold lookup
  rw [List.find?_cons]
  split <;> simp_all

theorem lookup_reverse (h : Distinct key l) : lookup key l.reverse k = lookup key l k := by
  ext r
  rw [lookup_eq_some h,lookup_eq_some h.reverse,List.mem_reverse]

/-- Dropping records leaves the others to be found. -/
theorem lookup_filter (h : Distinct key l) (p : R → Bool) :
    lookup key (l.filter p) k = (lookup key l k).filter p := by
  ext r
  rw [lookup_eq_some (h.filter p),Option.filter_eq_some_iff,lookup_eq_some h,List.mem_filter]
  tauto

end Registry
