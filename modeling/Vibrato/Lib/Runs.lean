import Mathlib.Data.List.Basic

/-! Runs of a machine whose steps are guarded: a condition is asked of each step in the state in
which it is taken, and an invariant that such steps keep holds at the end of the run. -/

namespace Vibrato.Lib

variable {σ ε : Type} (step : σ → ε → σ) (guard : σ → ε → Prop)

def Guarded : σ → List ε → Prop
  | _, [] => True
  | s, e :: rest => guard s e ∧ Guarded (step s e) rest

instance Guarded.decidable [∀ s e, Decidable (guard s e)] :
    (s : σ) → (steps : List ε) → Decidable (Guarded step guard s steps)
  | _, [] => inferInstanceAs (Decidable True)
  | s, e :: rest =>
    have := Guarded.decidable (step s e) rest
    inferInstanceAs (Decidable (guard s e ∧ Guarded step guard (step s e) rest))

variable {step guard} {steps : List ε}

theorem Guarded.append {s : σ} {before after : List ε} :
    Guarded step guard s (before ++ after) ↔
      Guarded step guard s before ∧ Guarded step guard (before.foldl step s) after := by
  induction before generalizing s with
  | nil => simp [Guarded]
  | cons e rest ih => exact (and_congr_right' ih).trans and_assoc.symm

/-- The invariant may speak of the steps that led to a state. -/
theorem Guarded.invariant {I : List ε → σ → Prop} {s : σ}
    (keeps : ∀ before e, I before (before.foldl step s) → guard (before.foldl step s) e →
      I (before ++ [e]) (step (before.foldl step s) e))
    (init : I [] s) (h : Guarded step guard s steps) :
    I steps (steps.foldl step s) := by
  suffices hrun : ∀ (rest before : List ε), I before (before.foldl step s) →
      Guarded step guard (before.foldl step s) rest →
        I (before ++ rest) ((before ++ rest).foldl step s) by
    exact hrun steps [] init h
  intro rest
  induction rest with
  | nil =>
    intro before hbefore _
    rw [List.append_nil]
    exact hbefore
  | cons e rest ih =>
    intro before hbefore hguarded
    have hnext : (before ++ [e]).foldl step s = step (before.foldl step s) e := by
      rw [List.foldl_append, List.foldl_cons, List.foldl_nil]
    have hassoc : before ++ e :: rest = (before ++ [e]) ++ rest := by simp
    rw [hassoc]
    apply ih (before ++ [e])
    · rw [hnext]
      exact keeps before e hbefore hguarded.1
    · rw [hnext]
      exact hguarded.2

theorem Guarded.imp {I : σ → Prop} {guard' : σ → ε → Prop}
    (keeps : ∀ {s e}, I s → guard s e → I (step s e) ∧ guard' s e) {s : σ} (init : I s)
    (h : Guarded step guard s steps) : Guarded step guard' s steps := by
  induction steps generalizing s with
  | nil => trivial
  | cons e rest ih =>
    obtain ⟨hkept, hmet⟩ := keeps init h.1
    exact ⟨hmet, ih hkept h.2⟩

theorem foldl_of_mem {P : σ → Prop} (keeps : ∀ s e, P s → P (step s e)) {e : ε}
    (hmem : e ∈ steps) (establishes : ∀ s, P (step s e)) (s : σ) : P (steps.foldl step s) := by
  obtain ⟨before, after, rfl⟩ := List.append_of_mem hmem
  rw [List.foldl_append]
  generalize before.foldl step s = reached
  have hend : ∀ (rest : List ε) (s : σ), P s → P (rest.foldl step s) := by
    intro rest
    induction rest with
    | nil => exact fun _ h => h
    | cons e rest ih => exact fun s h => ih _ (keeps s e h)
  exact hend after _ (establishes reached)

end Vibrato.Lib
