import Libnfs.Async

/-! Operations that run beside each other: each call starts one of them, and the answers to their requests come in any order.
What every program keeps is kept by the whole session. -/
namespace Async

open Transition

variable {ε κ ρ σ γ α β ω : Type}

/-- The requests that were sent meet `K`, the results that were told meet `R`, and the stages that wait meet `S`. -/
structure World.Within (K : κ → Prop) (R : ρ → Prop) (S : σ → Prop) (w : World κ ρ σ γ) : Prop where
  sent : ∀ k ∈ w.sent, K k
  calls : ∀ r ∈ w.calls, R r
  pending : ∀ stage ∈ w.pending, S stage

/-- The program sends, tells and leaves behind only what is allowed. -/
def Keeps (K : κ → Prop) (R : ρ → Prop) (S : σ → Prop) (m : Act ε κ ρ σ γ α) : Prop :=
  Triple (fun _ => True) (World.Within K R S) m fun _ => World.Within K R S

section Keeps

variable {K : κ → Prop} {R : ρ → Prop} {S : σ → Prop} {m m' : Act ε κ ρ σ γ α}

theorem Keeps.pure (a : α) : Keeps K R S (Pure.pure a : Act ε κ ρ σ γ α) := Triple.pure fun _ h => h

theorem Keeps.bind {f : α → Act ε κ ρ σ γ β} (h : Keeps K R S m) (h' : ∀ a, Keeps K R S (f a)) : Keeps K R S (m >>= f) :=
  Triple.bind h h'

theorem Keeps.ite {c : Prop} [Decidable c] (h : c → Keeps K R S m) (h' : ¬ c → Keeps K R S m') :
    Keeps K R S (if c then m else m') := Triple.ite h h'

theorem Keeps.may (s : ε) : Keeps K R S (Act.may s : Act ε κ ρ σ γ Bool) := Triple.may s

theorem Keeps.times (s : ε) (n : ℕ) : Keeps K R S (Act.times s n : Act ε κ ρ σ γ Bool) := Triple.times s n

/-- What is done when it succeeds at `s`, and what when it fails -/
theorem Keeps.mayElse {s : ε} (h : Keeps K R S m) (h' : Keeps K R S m') :
    Keeps K R S (Act.may s >>= fun b => if b = true then m else m') :=
  (Keeps.may s).bind fun _ => Keeps.ite (fun _ => h) fun _ => h'

theorem Keeps.timesElse {s : ε} {n : ℕ} (h : Keeps K R S m) (h' : Keeps K R S m') :
    Keeps K R S (Act.times s n >>= fun b => if b = true then m else m') :=
  (Keeps.times s n).bind fun _ => Keeps.ite (fun _ => h) fun _ => h'

theorem Keeps.tell {r : ρ} (hr : R r) : Keeps K R S (Act.tell r : Act ε κ ρ σ γ Unit) :=
  Triple.tell fun _ h => ⟨h.sent,List.forall_mem_cons.mpr ⟨hr,h.calls⟩,h.pending⟩

theorem Keeps.crash : Keeps K R S (Act.crash : Act ε κ ρ σ γ Unit) := fun _ _ _ _ h => ⟨h.sent,h.calls,h.pending⟩

theorem Keeps.load : Keeps K R S (Act.load : Act ε κ ρ σ γ γ) := fun _ _ _ _ h => h

theorem Keeps.store (f : γ → γ) : Keeps K R S (Act.store f : Act ε κ ρ σ γ Unit) :=
  Triple.store fun _ h => ⟨h.sent,h.calls,h.pending⟩

theorem Keeps.submit {s : ε} {k : κ} {stage : σ} (hk : K k) (hs : S stage) :
    Keeps K R S (Act.submit s k stage : Act ε κ ρ σ γ Bool) := by
  refine Keeps.mayElse ((Triple.send (Q := World.Within K R S) fun w h => ?_).bind fun _ => Keeps.pure _) (Keeps.pure _)
  exact ⟨List.forall_mem_cons.mpr ⟨hk,h.sent⟩,h.calls,List.forall_mem_cons.mpr ⟨hs,h.pending⟩⟩

theorem Keeps.discard (h : Keeps K R S m) : Keeps K R S (discard m) := fun env he n w hw => h env he n w hw

/-- An answer keeps what its handler keeps. -/
theorem answer_within {handle : σ → β → Act ε κ ρ σ γ Unit} (hh : ∀ stage b, S stage → Keeps K R S (handle stage b))
    {w : World κ ρ σ γ} (hw : w.Within K R S) (e : Event β ε) : (answer handle w e).Within K R S := by
  unfold answer
  by_cases hc : w.crashed
  · rwa [if_pos hc]
  · rw [if_neg hc]
    cases hs : w.pending[e.index]? with
    | none => exact hw
    | some stage =>
      refine hh stage e.reply (hw.pending stage (List.mem_of_getElem? hs)) e.env trivial 0 _ ⟨hw.sent,hw.calls,?_⟩
      exact fun st hst => hw.pending st (List.mem_of_mem_eraseIdx hst)

end Keeps

/-- A call of an operation, or the answer to a request of one that is there -/
inductive Turn (ω β ε : Type)
  | call (op : ω) (env : Env ε)
  | answer (index : ℕ) (e : Event β ε)

/-- A call starts in the world `init`, and the others wait meanwhile. -/
def turn (start : ω → Act ε κ ρ σ γ ℤ) (init : World κ ρ σ γ) (handle : σ → β → Act ε κ ρ σ γ Unit)
    (ws : List (World κ ρ σ γ)) : Turn ω β ε → List (World κ ρ σ γ)
  | .call op env => ws ++ [(start op env 0 init).2.2]
  | .answer index e => ws.modify index fun w => Async.answer handle w e

/-- What the calls and the handlers keep holds of all operations of a session. -/
theorem turns_within {K : κ → Prop} {R : ρ → Prop} {S : σ → Prop} {start : ω → Act ε κ ρ σ γ ℤ} {init : World κ ρ σ γ}
    {handle : σ → β → Act ε κ ρ σ γ Unit} {G : List (World κ ρ σ γ) → Turn ω β ε → Prop} {es : List (Turn ω β ε)}
    (hg : Guarded (turn start init handle) G [] es) (hinit : init.Within K R S)
    (hcall : ∀ ws op env, (∀ w ∈ ws, w.Within K R S) → G ws (.call op env) → Keeps K R S (start op))
    (hh : ∀ stage b, S stage → Keeps K R S (handle stage b)) :
    ∀ w ∈ run (turn start init handle) [] es, w.Within K R S := by
  have hnil : ∀ w ∈ ([] : List (World κ ρ σ γ)), w.Within K R S := fun _ h => absurd h List.not_mem_nil
  refine guarded_induction (P := fun ws => ∀ w ∈ ws, w.Within K R S) (turn start init handle) hg hnil fun ws e hws hguard => ?_
  cases e with
  | call op env =>
    refine List.forall_mem_append.mpr ⟨hws,List.forall_mem_singleton.mpr ?_⟩
    exact hcall ws op env hws hguard env trivial 0 _ hinit
  | answer index e =>
    intro w hw
    obtain ⟨i,hi,rfl⟩ := List.mem_iff_getElem.mp hw
    have hi' : i < ws.length := by simpa [turn] using hi
    simp only [turn,List.getElem_modify]
    by_cases h : index = i
    · rw [if_pos h]
      exact answer_within hh (hws _ (List.getElem_mem hi')) e
    · rw [if_neg h]
      exact hws _ (List.getElem_mem hi')

end Async
