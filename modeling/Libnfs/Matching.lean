import Mathlib.Tactic

/-! Requests that wait under keys, and letters that answer them: a letter takes the request of its key, if there is one. The first
letter of each key decides everything, so the order of letters with different keys does not matter. -/
namespace Matching

variable {κ π ρ : Type*} [DecidableEq κ] (key : ρ → κ)

/-- What each letter finds -/
def found : (κ → Option π) → List ρ → List (Option π)
  | _, [] => []
  | d, r::rs => d (key r)::found (Function.update d (key r) none) rs

/-- The requests, with the letters that take them -/
def answers : (κ → Option π) → List ρ → List (π × ρ)
  | _, [] => []
  | d, r::rs => (d (key r)).toList.map (·,r) ++ answers (Function.update d (key r) none) rs

variable {key} {d : κ → Option π} {p : π} {r : ρ} {rs rs' : List ρ}

theorem answers_eq : answers key d rs = ((found key d rs).zip rs).flatMap fun x => x.1.toList.map (·,x.2) := by
  induction rs generalizing d with
  | nil => rfl
  | cons r rs ih => rw [answers,found,ih,List.zip_cons_cons,List.flatMap_cons]

/-- A request is taken by the first letter of its key, and by no other. -/
theorem mem_answers : (p,r) ∈ answers key d rs ↔ d (key r) = some p ∧ rs.find? (key · = key r) = some r := by
  induction rs generalizing d with
  | nil => simp [answers]
  | cons a rs ih =>
    rw [answers,List.mem_append,ih]
    by_cases h : key a = key r
    · have hnone : Function.update d (key a) none (key r) = none := by rw [h,Function.update_self]
      rw [List.find?_cons_of_pos (by simpa using h),hnone]
      simp only [List.mem_map,Option.mem_toList,Prod.mk.injEq,reduceCtorEq,false_and,or_false,Option.some.injEq]
      constructor
      · rintro ⟨q,hq,rfl,rfl⟩
        exact ⟨hq,rfl⟩
      · rintro ⟨hq,rfl⟩
        exact ⟨p,hq,rfl,rfl⟩
    · rw [List.find?_cons_of_neg (by simpa using h),Function.update_of_ne (Ne.symm h)]
      refine ⟨fun hor => hor.resolve_left ?_,.inr⟩
      intro hmem
      obtain ⟨q,-,hq⟩ := List.mem_map.1 hmem
      exact h (congrArg (fun x => key x.2) hq)

/-- No key is answered twice. -/
theorem nodup_answers (d : κ → Option π) (rs : List ρ) : ((answers key d rs).map fun x => key x.2).Nodup := by
  induction rs generalizing d with
  | nil => exact List.nodup_nil
  | cons a rs ih =>
    rw [answers,List.map_append,List.nodup_append]
    refine ⟨?_,ih _,?_⟩
    · cases d (key a) <;> simp
    · intro k hk l hl he
      obtain ⟨x,hx,rfl⟩ := List.mem_map.1 hk
      obtain ⟨q,-,rfl⟩ := List.mem_map.1 hx
      obtain ⟨⟨p,r⟩,hy,rfl⟩ := List.mem_map.1 hl
      have hd := (mem_answers.1 hy).1
      have hkey : key a = key r := he
      rw [← hkey,Function.update_self] at hd
      simp at hd

/-- Letters in another order, where the first of each key is the same, take the same requests. -/
theorem answers_perm (d : κ → Option π) (h : ∀ k, rs.find? (key · = k) = rs'.find? (key · = k)) :
    (answers key d rs).Perm (answers key d rs') := by
  refine (List.perm_ext_iff_of_nodup (nodup_answers d rs).of_map (nodup_answers d rs').of_map).2 ?_
  rintro ⟨p,r⟩
  rw [mem_answers,mem_answers,h]

end Matching
