import Mathlib.Tactic

/-! Runs of a deterministic step function over a list of events, with and without
a condition that every step has to meet, and the induction rules for them. -/
namespace Transition

variable {σ ε : Type*} (step : σ → ε → σ)

def run : σ → List ε → σ
  | s, [] => s
  | s, e::es => run (step s e) es

@[simp] theorem run_nil (s : σ) : run step s [] = s := rfl
@[simp] theorem run_cons (s : σ) (e : ε) (es : List ε) :
    run step s (e::es) = run step (step s e) es := rfl

theorem run_append (s : σ) (es fs : List ε) :
    run step s (es++fs) = run step (run step s es) fs := by
  induction es generalizing s with
  | nil => rfl
  | cons e es ih => simpa using ih (step s e)

/-- A state some run from `s` arrives in. -/
def Reachable (s t : σ) : Prop := ∃ es, run step s es = t

/-- What holds at the start and is kept by every step holds in every reachable state. -/
theorem reachable_induction {P : σ → Prop} {s t : σ} (ht : Reachable step s t) (h0 : P s)
    (hstep : ∀ u e, P u → P (step u e)) : P t := by
  obtain ⟨es,rfl⟩ := ht
  induction es generalizing s with
  | nil => exact h0
  | cons e es ih => exact ih (hstep s e h0)

/-- Every step of the run meets `G` in the state before it. -/
def Guarded (G : σ → ε → Prop) : σ → List ε → Prop
  | _, [] => True
  | s, e::es => G s e ∧ Guarded G (step s e) es

theorem guarded_append (G : σ → ε → Prop) (s : σ) (es fs : List ε) :
    Guarded step G s (es++fs) ↔ Guarded step G s es ∧ Guarded step G (run step s es) fs := by
  induction es generalizing s with
  | nil => simp [Guarded]
  | cons e es ih => simp [Guarded,ih,and_assoc]

theorem guarded_of_forall {G : σ → ε → Prop} {es : List ε} (h : ∀ e ∈ es, ∀ u, G u e) (s : σ) :
    Guarded step G s es := by
  induction es generalizing s with
  | nil => trivial
  | cons e es ih =>
    exact ⟨h e List.mem_cons_self s,ih (fun f hf => h f (List.mem_cons_of_mem e hf)) _⟩

theorem guarded_and {G H : σ → ε → Prop} {s : σ} {es : List ε} (hg : Guarded step G s es)
    (hh : Guarded step H s es) : Guarded step (fun u e => G u e ∧ H u e) s es := by
  induction es generalizing s with
  | nil => trivial
  | cons e es ih => exact ⟨⟨hg.1,hh.1⟩,ih hg.2 hh.2⟩

theorem guarded_induction {G : σ → ε → Prop} {P : σ → Prop} {s : σ} {es : List ε}
    (hg : Guarded step G s es) (h0 : P s) (hstep : ∀ u e, P u → G u e → P (step u e)) :
    P (run step s es) := by
  induction es generalizing s with
  | nil => exact h0
  | cons e es ih => exact ih hg.2 (hstep s e h0 hg.1)

end Transition
