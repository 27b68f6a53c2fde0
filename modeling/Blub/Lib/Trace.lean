import Mathlib.Tactic

/-! Machines that answer a list of inputs, one after the other. Two machines related by a
simulation give the same answers along every run whose steps meet the simulation's condition. -/
namespace Blub.Trace

variable {σ τ ι ο : Type*}

/-- The answers to a list of inputs. -/
def answers (step : σ → ι → ο × σ) (s : σ) : List ι → List ο
  | [] => []
  | i :: l => (step s i).1 :: answers step (step s i).2 l

/-- Each input meets `ok` in the state it is given to. -/
def Along (step : σ → ι → ο × σ) (ok : σ → ι → Prop) (s : σ) : List ι → Prop
  | [] => True
  | i :: l => ok s i ∧ Along step ok (step s i).2 l

attribute [local grind =] answers Along

instance Along.decidable (step : σ → ι → ο × σ) (ok : σ → ι → Prop) [∀ s i, Decidable (ok s i)] :
    (s : σ) → (l : List ι) → Decidable (Along step ok s l)
  | _, [] => inferInstanceAs (Decidable True)
  | s, i :: l => @instDecidableAnd _ _ _ (Along.decidable step ok (step s i).2 l)

theorem answers_append (step : σ → ι → ο × σ) (s : σ) (l l' : List ι) :
    answers step s (l ++ l') = answers step s l ++ answers step (l.foldl (fun s i => (step s i).2) s) l' := by
  induction l generalizing s with
  | nil => rfl
  | cons i l ih => simp [answers,ih]

/-- What one step does from a state with the invariant, every step of a run does. -/
theorem Along.of_invariant {step : σ → ι → ο × σ} {ok good : σ → ι → Prop} (I : σ → Prop)
    (h : ∀ s i, I s → ok s i → good s i ∧ I (step s i).2) (l : List ι) (s : σ) (hI : I s)
    (hl : Along step ok s l) : Along step good s l := by
  induction l generalizing s with
  | nil => trivial
  | cons i l ih =>
    obtain ⟨hgood,hI'⟩ := h s i hI hl.1
    exact ⟨hgood,ih _ hI' hl.2⟩

theorem answers_eq {step : σ → ι → ο × σ} {step' : τ → ι → ο × τ} {ok : σ → ι → Prop}
    (R : σ → τ → Prop)
    (h : ∀ s t i, R s t → ok s i → (step s i).1 = (step' t i).1 ∧ R (step s i).2 (step' t i).2)
    (l : List ι) (s : σ) (t : τ) (hR : R s t) (hl : Along step ok s l) :
    answers step s l = answers step' t l := by
  induction l generalizing s t with
  | nil => rfl
  | cons i l ih =>
    obtain ⟨ho,hR'⟩ := h s t i hR hl.1
    simp only [answers]
    rw [ho,ih _ _ hR' hl.2]

end Blub.Trace
