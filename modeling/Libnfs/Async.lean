import Libnfs.Transition

/-! Operations that answer through a callback: programs that ask the environment whether an allocation or a submission
succeeds, send requests, and tell their caller the result; each request waits with the stage that its answer resumes. -/
namespace Async

/-- What the environment decides, by the number of the decision and the place that asks for it -/
abbrev Env (ε : Type) := ℕ → ε → Bool

/-- What an operation has done: the requests it has `sent`, the `calls` to its caller, the stages that wait for an answer. -/
structure World (κ ρ σ γ : Type) where
  sent : List κ
  calls : List ρ
  pending : List σ
  crashed : Bool
  shared : γ

/-- A program, with the number of the next decision -/
def Act (ε κ ρ σ γ α : Type) : Type := Env ε → ℕ → World κ ρ σ γ → α × ℕ × World κ ρ σ γ

variable {ε κ ρ σ γ α β : Type}

namespace Act

instance : Monad (Act ε κ ρ σ γ) where
  pure a := fun _ n w => (a,n,w)
  bind m f := fun env n w => f (m env n w).1 env (m env n w).2.1 (m env n w).2.2

/-- Whether it succeeds at `s` -/
def may (s : ε) : Act ε κ ρ σ γ Bool := fun env n w => (env n s,n+1,w)

def tell (r : ρ) : Act ε κ ρ σ γ Unit := fun _ n w => ((),n,{ w with calls := r :: w.calls })

def send (k : κ) (stage : σ) : Act ε κ ρ σ γ Unit := fun _ n w =>
  ((),n,{ w with sent := k :: w.sent, pending := stage :: w.pending })

/-- The program ends here, with a fault. -/
def crash : Act ε κ ρ σ γ Unit := fun _ n w => ((),n,{ w with crashed := true })

def load : Act ε κ ρ σ γ γ := fun _ n w => (w.shared,n,w)

def store (f : γ → γ) : Act ε κ ρ σ γ Unit := fun _ n w => ((),n,{ w with shared := f w.shared })

/-- A request is sent where the environment lets it. -/
def submit (s : ε) (k : κ) (stage : σ) : Act ε κ ρ σ γ Bool := do
  if ← may s then
    send k stage
    return true
  else return false

/-- `n` times the same decision; the first failure ends it. -/
def times (s : ε) : ℕ → Act ε κ ρ σ γ Bool
  | 0 => return true
  | n+1 => do if ← may s then times s n else return false

end Act

/-- From `P` the program comes to `Q`, in every environment of `E`. -/
def Triple (E : Env ε → Prop) (P : World κ ρ σ γ → Prop) (m : Act ε κ ρ σ γ α)
    (Q : α → World κ ρ σ γ → Prop) : Prop :=
  ∀ env, E env → ∀ n w, P w → Q (m env n w).1 (m env n w).2.2

namespace Triple

variable {E : Env ε → Prop} {P P' : World κ ρ σ γ → Prop} {Q Q' : α → World κ ρ σ γ → Prop}
  {R : β → World κ ρ σ γ → Prop} {m : Act ε κ ρ σ γ α} {f : α → Act ε κ ρ σ γ β}

theorem pure {a : α} (h : ∀ w, P w → Q a w) : Triple E P (Pure.pure a) Q := fun _ _ _ w hw => h w hw

theorem bind (hm : Triple E P m Q) (hf : ∀ a, Triple E (Q a) (f a) R) : Triple E P (m >>= f) R :=
  fun env he n w hw => hf _ env he _ _ (hm env he n w hw)

theorem pre (h : ∀ w, P w → P' w) (hm : Triple E P' m Q) : Triple E P m Q :=
  fun env he n w hw => hm env he n w (h w hw)

theorem post (hm : Triple E P m Q) (h : ∀ a w, Q a w → Q' a w) : Triple E P m Q' :=
  fun env he n w hw => h _ _ (hm env he n w hw)

theorem ite {c : Prop} [Decidable c] {m' : Act ε κ ρ σ γ α} (h : c → Triple E P m Q) (h' : ¬ c → Triple E P m' Q) :
    Triple E P (if c then m else m') Q := by
  by_cases hc : c
  · rw [if_pos hc]
    exact h hc
  · rw [if_neg hc]
    exact h' hc

theorem may (s : ε) : Triple E P (Act.may s) fun _ => P := fun _ _ _ _ hw => hw

/-- A decision that never fails in these environments -/
theorem sure {s : ε} (h : ∀ env, E env → ∀ n, env n s = true) : Triple E P (Act.may s) fun b w => b = true ∧ P w :=
  fun env he n _ hw => ⟨h env he n,hw⟩

theorem times (s : ε) (n : ℕ) : Triple E P (Act.times s n) fun _ => P := by
  induction n with
  | zero => exact Triple.pure fun _ h => h
  | succ n ih => exact (Triple.may s).bind fun b => Triple.ite (fun _ => ih) fun _ => Triple.pure fun _ h => h

theorem times_sure {s : ε} (h : ∀ env, E env → ∀ n, env n s = true) (n : ℕ) :
    Triple E P (Act.times s n) fun b w => b = true ∧ P w := by
  induction n with
  | zero => exact Triple.pure fun _ h => ⟨rfl,h⟩
  | succ n ih =>
    refine (Triple.sure h).bind fun b => ?_
    cases b with
    | false => exact fun _ _ _ _ hw => absurd hw.1 (by simp)
    | true => exact Triple.pre (fun _ hw => hw.2) ih

theorem tell {Q : World κ ρ σ γ → Prop} {r : ρ} (h : ∀ w, P w → Q { w with calls := r :: w.calls }) :
    Triple E P (Act.tell r : Act ε κ ρ σ γ Unit) fun _ => Q := fun _ _ _ w hw => h w hw

theorem send {Q : World κ ρ σ γ → Prop} {k : κ} {stage : σ}
    (h : ∀ w, P w → Q { w with sent := k :: w.sent, pending := stage :: w.pending }) :
    Triple E P (Act.send k stage : Act ε κ ρ σ γ Unit) fun _ => Q := fun _ _ _ w hw => h w hw

theorem store {Q : World κ ρ σ γ → Prop} {f : γ → γ} (h : ∀ w, P w → Q { w with shared := f w.shared }) :
    Triple E P (Act.store f : Act ε κ ρ σ γ Unit) fun _ => Q := fun _ _ _ w hw => h w hw

theorem load : Triple E P (Act.load : Act ε κ ρ σ γ γ) fun g w => w.shared = g ∧ P w := fun _ _ _ _ hw => ⟨rfl,hw⟩

/-- A request that is sent, or one that is not -/
theorem submit {s : ε} {k : κ} {stage : σ} {Q : World κ ρ σ γ → Prop}
    (h : ∀ w, P w → Q { w with sent := k :: w.sent, pending := stage :: w.pending }) :
    Triple E P (Act.submit s k stage) fun b w => b = true ∧ Q w ∨ b = false ∧ P w := by
  refine (Triple.may s).bind fun b => Triple.ite (fun _ => ?_) fun _ => Triple.pure fun _ h => .inr ⟨rfl,h⟩
  exact (Triple.send h).bind fun _ => Triple.pure fun _ h => .inl ⟨rfl,h⟩

/-- Where a submission never fails it is sent. -/
theorem submit_sure {s : ε} {k : κ} {stage : σ} {Q : World κ ρ σ γ → Prop}
    (hs : ∀ env, E env → ∀ n, env n s = true)
    (h : ∀ w, P w → Q { w with sent := k :: w.sent, pending := stage :: w.pending }) :
    Triple E P (Act.submit s k stage) fun b w => b = true ∧ Q w := by
  refine (Triple.sure hs).bind fun b => ?_
  cases b with
  | false => exact Triple.pre (fun w h => absurd h.1 (by simp)) (Triple.pure (a := false) (P := fun _ => False) fun _ h => h.elim)
  | true => exact (Triple.send fun w hw => h w hw.2).bind fun _ => Triple.pure fun _ h => ⟨rfl,h⟩

/-- The branch that is taken when it is sent, and the one when it is not -/
theorem branch {b : Bool} {P Q : World κ ρ σ γ → Prop} {m m' : Act ε κ ρ σ γ α} {R : α → World κ ρ σ γ → Prop}
    (h : Triple E Q m R) (h' : Triple E P m' R) :
    Triple E (fun w => b = true ∧ Q w ∨ b = false ∧ P w) (if b = true then m else m') R := by
  cases b with
  | false => exact Triple.pre (fun w h => by simpa using h) h'
  | true => exact Triple.pre (fun w h => by simpa using h) h

end Triple

/-- Nothing is told and nothing waits. -/
def World.Fresh (w : World κ ρ σ γ) : Prop := w.crashed = false ∧ w.calls = [] ∧ w.pending = []

/-- The caller is told once and nothing waits, or the caller is not told and what waits meets `I`. -/
def World.Settled (I : γ → List σ → Prop) (w : World κ ρ σ γ) : Prop :=
  w.crashed = false ∧ (w.calls.length = 1 ∧ w.pending = [] ∨ w.calls = [] ∧ I w.shared w.pending)

/-- The program ends with the caller told, or with a stage that will. -/
def Pays (I : γ → List σ → Prop) (E : Env ε → Prop) (m : Act ε κ ρ σ γ α) : Prop :=
  Triple E World.Fresh m fun _ => World.Settled I

/-- The contract of a call: it returns 0 and pays, or it returns a negative value and nothing has happened. -/
def Contract (I : γ → List σ → Prop) (E : Env ε → Prop) (m : Act ε κ ρ σ γ ℤ) : Prop :=
  Triple E World.Fresh m fun r w => r = 0 ∧ w.Settled I ∨ r < 0 ∧ w.Fresh

variable {I : γ → List σ → Prop} {E : Env ε → Prop}

theorem Pays.tell (r : ρ) : Pays I E (Act.tell r : Act ε κ ρ σ γ Unit) :=
  Triple.tell fun w h => ⟨h.1,.inl ⟨by rw [h.2.1]; rfl,h.2.2⟩⟩

theorem Pays.sent {k : κ} {stage : σ} (h : ∀ g, I g [stage]) {w : World κ ρ σ γ} (hw : w.Fresh) :
    World.Settled I { w with sent := k :: w.sent, pending := stage :: w.pending } :=
  ⟨hw.1,.inr ⟨hw.2.1,by rw [hw.2.2]; exact h _⟩⟩

theorem Pays.send {k : κ} {stage : σ} (h : ∀ g, I g [stage]) : Pays I E (Act.send k stage : Act ε κ ρ σ γ Unit) :=
  Triple.send fun _ hw => Pays.sent h hw

theorem Pays.bind_quiet {m : Act ε κ ρ σ γ α} {f : α → Act ε κ ρ σ γ β} (hm : Triple E World.Fresh m fun _ => World.Fresh)
    (hf : ∀ a, Pays I E (f a)) : Pays I E (m >>= f) := Triple.bind hm hf

theorem Pays.bind_pure {m : Act ε κ ρ σ γ α} {f : α → β} (hm : Pays I E m) : Pays I E (m >>= fun a => Pure.pure (f a)) :=
  Triple.bind hm fun _ => Triple.pure fun _ h => h

theorem Pays.ite {c : Prop} [Decidable c] {m m' : Act ε κ ρ σ γ α} (h : c → Pays I E m) (h' : ¬ c → Pays I E m') :
    Pays I E (if c then m else m') := Triple.ite h h'

/-- Asking whether it succeeds costs nothing. -/
theorem Pays.may {s : ε} {m m' : Act ε κ ρ σ γ α} (h : Pays I E m) (h' : Pays I E m') :
    Pays I E (Act.may s >>= fun b => if b = true then m else m') :=
  Triple.bind (Triple.may s) fun _ => Triple.ite (fun _ => h) fun _ => h'

/-- A request is sent, or something else pays. -/
theorem Pays.submit {s : ε} {k : κ} {stage : σ} {m' : Act ε κ ρ σ γ α} {a : α} (hs : ∀ g, I g [stage]) (h' : Pays I E m') :
    Pays I E (Act.submit s k stage >>= fun b => if b = true then Pure.pure a else m') :=
  Triple.bind (Triple.submit fun _ hw => Pays.sent hs hw) fun _ => Triple.branch (Triple.pure fun _ h => h) h'

theorem Pays.discard {m : Act ε κ ρ σ γ α} (h : Pays I E m) : Pays I E (discard m) := fun env he n w hw => h env he n w hw

theorem Pays.times {s : ε} {n : ℕ} {m m' : Act ε κ ρ σ γ α} (h : Pays I E m) (h' : Pays I E m') :
    Pays I E (Act.times s n >>= fun b => if b = true then m else m') :=
  Triple.bind (Triple.times s n) fun _ => Triple.ite (fun _ => h) fun _ => h'

/-- A call that is refused is paid by something else. -/
theorem Contract.orElse {m : Act ε κ ρ σ γ ℤ} {m' : Act ε κ ρ σ γ α} {a : α} (h : Contract I E m) (h' : Pays I E m') :
    Pays I E (m >>= fun r => if r ≠ 0 then m' else Pure.pure a) := by
  refine Triple.bind h fun r => Triple.ite (fun hr => ?_) fun hr => ?_
  · refine Triple.pre (fun w hw => ?_) h'
    rcases hw with ⟨h0,-⟩ | ⟨-,hw⟩
    · exact absurd h0 hr
    · exact hw
  · refine Triple.pure fun w hw => ?_
    rcases hw with ⟨-,hw⟩ | ⟨hneg,-⟩
    · exact hw
    · omega

theorem Contract.refuse {r : ℤ} (h : r < 0) : Contract I E (Pure.pure r : Act ε κ ρ σ γ ℤ) :=
  Triple.pure fun _ hw => .inr ⟨h,hw⟩

theorem Contract.paid {m : Act ε κ ρ σ γ α} (h : Pays I E m) : Contract I E (m >>= fun _ => Pure.pure 0) :=
  Triple.bind h fun _ => Triple.pure fun _ hw => .inl ⟨rfl,hw⟩

theorem Contract.ite {c : Prop} [Decidable c] {m m' : Act ε κ ρ σ γ ℤ} (h : c → Contract I E m) (h' : ¬ c → Contract I E m') :
    Contract I E (if c then m else m') := Triple.ite h h'

theorem Contract.may {s : ε} {m m' : Act ε κ ρ σ γ ℤ} (h : Contract I E m) (h' : Contract I E m') :
    Contract I E (Act.may s >>= fun b => if b = true then m else m') :=
  Triple.bind (Triple.may s) fun _ => Triple.ite (fun _ => h) fun _ => h'

/-- A decision that is always the same -/
theorem Contract.sure {s : ε} {m m' : Act ε κ ρ σ γ ℤ} (hs : ∀ env, E env → ∀ n, env n s = true) (h : Contract I E m) :
    Contract I E (Act.may s >>= fun b => if b = true then m else m') := by
  refine Triple.bind (Triple.sure hs) fun b => ?_
  cases b with
  | false => exact fun _ _ _ _ hw => absurd hw.1 (by simp)
  | true => exact Triple.pre (fun _ hw => hw.2) h

theorem Contract.times {s : ε} {n : ℕ} {m m' : Act ε κ ρ σ γ ℤ} (h : Contract I E m) (h' : Contract I E m') :
    Contract I E (Act.times s n >>= fun b => if b = true then m else m') :=
  Triple.bind (Triple.times s n) fun _ => Triple.ite (fun _ => h) fun _ => h'

theorem Contract.submit {s : ε} {k : κ} {stage : σ} {m' : Act ε κ ρ σ γ ℤ} (hs : ∀ g, I g [stage]) (h' : Contract I E m') :
    Contract I E (Act.submit s k stage >>= fun b => if b = true then Pure.pure 0 else m') :=
  Triple.bind (Triple.submit fun _ hw => Pays.sent hs hw) fun _ =>
    Triple.branch (Triple.pure fun _ hw => .inl ⟨rfl,hw⟩) h'

theorem Contract.submit_sure {s : ε} {k : κ} {stage : σ} {m' : Act ε κ ρ σ γ ℤ}
    (he : ∀ env, E env → ∀ n, env n s = true) (hs : ∀ g, I g [stage]) :
    Contract I E (Act.submit s k stage >>= fun b => if b = true then Pure.pure 0 else m') := by
  refine Triple.bind (Triple.submit_sure he fun _ hw => Pays.sent hs hw) fun b => ?_
  cases b with
  | false => exact fun _ _ _ _ hw => absurd hw.1 (by simp)
  | true => exact Triple.pure fun _ hw => .inl ⟨rfl,hw.2⟩

/-- Every stage that waits meets `S`. -/
def World.All (S : σ → Prop) (w : World κ ρ σ γ) : Prop := ∀ stage ∈ w.pending, S stage

/-- The requests that the program sends wait with stages that meet `S`. -/
def Sends (S : σ → Prop) (m : Act ε κ ρ σ γ α) : Prop := Triple (fun _ => True) (World.All S) m fun _ => World.All S

section Sends

variable {S : σ → Prop} {m m' : Act ε κ ρ σ γ α}

theorem Sends.pure (a : α) : Sends S (Pure.pure a : Act ε κ ρ σ γ α) := Triple.pure fun _ h => h

theorem Sends.bind {f : α → Act ε κ ρ σ γ β} (h : Sends S m) (h' : ∀ a, Sends S (f a)) : Sends S (m >>= f) :=
  Triple.bind h h'

theorem Sends.ite {c : Prop} [Decidable c] (h : Sends S m) (h' : Sends S m') : Sends S (if c then m else m') :=
  Triple.ite (fun _ => h) fun _ => h'

theorem Sends.may (s : ε) : Sends S (Act.may s : Act ε κ ρ σ γ Bool) := Triple.may s

theorem Sends.times (s : ε) (n : ℕ) : Sends S (Act.times s n : Act ε κ ρ σ γ Bool) := Triple.times s n

theorem Sends.tell (r : ρ) : Sends S (Act.tell r : Act ε κ ρ σ γ Unit) := Triple.tell fun _ h => h

theorem Sends.crash : Sends S (Act.crash : Act ε κ ρ σ γ Unit) := fun _ _ _ _ h => h

theorem Sends.store (f : γ → γ) : Sends S (Act.store f : Act ε κ ρ σ γ Unit) := Triple.store fun _ h => h

theorem Sends.submit {s : ε} {k : κ} {stage : σ} (hs : S stage) :
    Sends S (Act.submit s k stage : Act ε κ ρ σ γ Bool) := by
  refine (Triple.may s).bind fun b => Triple.ite (fun _ => ?_) fun _ => Triple.pure fun _ h => h
  refine (Triple.send (Q := World.All S) fun w h => ?_).bind fun _ => Triple.pure fun _ h => h
  intro st hst
  rcases List.mem_cons.mp hst with rfl | hst
  · exact hs
  · exact h st hst

theorem Sends.discard (h : Sends S m) : Sends S (discard m) := fun env he n w hw => h env he n w hw

end Sends

/-- The answer to the request `index` -/
structure Event (β ε : Type) where
  index : ℕ
  reply : β
  env : Env ε

/-- The stage of the request goes on. Nothing goes on after a crash. -/
def answer (handle : σ → β → Act ε κ ρ σ γ Unit) (w : World κ ρ σ γ) (e : Event β ε) : World κ ρ σ γ :=
  if w.crashed then w
  else
    match w.pending[e.index]? with
    | none => w
    | some stage => (handle stage e.reply e.env 0 { w with pending := w.pending.eraseIdx e.index }).2.2

/-- What holds at the end of the call is kept by every answer that is `Safe`. -/
theorem answered_induction {handle : σ → β → Act ε κ ρ σ γ Unit} {Safe : σ → Event β ε → Prop}
    {P : World κ ρ σ γ → Prop} {w : World κ ρ σ γ} {es : List (Event β ε)}
    (hg : Transition.Guarded (answer handle) (fun w e => ∀ stage, w.pending[e.index]? = some stage → Safe stage e) w es)
    (h0 : P w) (hstep : ∀ w stage e, P w → w.crashed = false → w.pending[e.index]? = some stage → Safe stage e →
      P (handle stage e.reply e.env 0 { w with pending := w.pending.eraseIdx e.index }).2.2) :
    P (Transition.run (answer handle) w es) := by
  refine Transition.guarded_induction (answer handle) hg h0 fun w e hw hsafe => ?_
  unfold answer
  by_cases hc : w.crashed
  · rwa [if_pos hc]
  · rw [if_neg hc]
    cases hs : w.pending[e.index]? with
    | none => exact hw
    | some stage => exact hstep w stage e hw (by simpa using hc) hs (hsafe stage hs)

end Async
