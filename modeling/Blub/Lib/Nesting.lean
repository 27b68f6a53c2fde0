import Mathlib.Tactic

/-! Sequences that open, alter and close levels, read as parts of a longer one. -/
namespace Blub.Nesting

inductive Bracket
  | opens
  | alters
  | closes
  deriving DecidableEq

def opened (l : List Bracket) : ℕ := l.count .opens
def closed (l : List Bracket) : ℕ := l.count .closes

@[simp] theorem opened_nil : opened [] = 0 := rfl
@[simp] theorem closed_nil : closed [] = 0 := rfl
@[simp] theorem opened_append (l l' : List Bracket) : opened (l ++ l') = opened l+opened l' := List.count_append
@[simp] theorem closed_append (l l' : List Bracket) : closed (l ++ l') = closed l+closed l' := List.count_append

/-- How many levels of its own `l` has left open, if it had `d` before. There is no answer where it
closes or alters a level that it did not open. -/
def nest : ℕ → List Bracket → Option ℕ
  | d, [] => some d
  | d, .opens :: l => nest (d+1) l
  | d+1, .alters :: l => nest (d+1) l
  | d+1, .closes :: l => nest d l
  | 0, .alters :: _ => none
  | 0, .closes :: _ => none

attribute [local grind =] nest

theorem nest_append (d : ℕ) (l l' : List Bracket) : nest d (l ++ l') = (nest d l).bind (nest · l') := by
  induction l generalizing d with
  | nil => rfl
  | cons b l ih =>
    cases b with
    | opens => exact ih (d+1)
    | alters =>
      cases d with
      | zero => rfl
      | succ d => exact ih (d+1)
    | closes =>
      cases d with
      | zero => rfl
      | succ d => exact ih d

theorem nest_count {d d' : ℕ} {l : List Bracket} (h : nest d l = some d') : d'+closed l = d+opened l := by
  induction l generalizing d with
  | nil =>
    cases h
    rfl
  | cons b l ih =>
    cases b with
    | opens =>
      have := ih (d := d+1) h
      simp only [opened,closed,List.count_cons_self,ne_eq,reduceCtorEq,not_false_eq_true,
        List.count_cons_of_ne] at this ⊢
      omega
    | alters =>
      cases d with
      | zero => cases h
      | succ d =>
        have := ih (d := d+1) h
        simpa [opened,closed] using this
    | closes =>
      cases d with
      | zero => cases h
      | succ d =>
        have := ih (d := d) h
        simp only [opened,closed,List.count_cons_self,ne_eq,reduceCtorEq,not_false_eq_true,
          List.count_cons_of_ne] at this ⊢
        omega

end Blub.Nesting
