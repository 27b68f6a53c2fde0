import Mathlib.Data.Option.Basic
import Mathlib.Data.Set.Finite.Basic
import Mathlib.Order.Nat

/-! Runs of a step that may stop. One that stays among finitely many states stops unless it comes back to a state. -/
namespace Blub.Orbit

variable {α : Type*} (step : α → Option α)

/-- Where a run is after `n` steps; nothing once it has stopped. -/
def orbit (a : α) : ℕ → Option α
  | 0 => some a
  | n+1 => (orbit a n).bind step

/-- No state is met twice. -/
def NoReturn (a : α) : Prop := ∀ m n b, m < n → orbit step a m = some b → orbit step a n ≠ some b

attribute [local grind =] orbit

variable {step} {a : α}

@[simp] theorem orbit_zero : orbit step a 0 = some a := rfl

theorem orbit_succ {n : ℕ} {b : α} (h : orbit step a n = some b) : orbit step a (n+1) = step b := by
  rw [orbit,h,Option.bind_some]

theorem orbit_none {m n : ℕ} (h : orbit step a m = none) (hmn : m ≤ n) : orbit step a n = none := by
  induction n, hmn using Nat.le_induction with
  | base => exact h
  | succ n _ ih => rw [orbit,ih,Option.bind_none]

/-- The run from a state that is met is the rest of the run. -/
theorem orbit_add {m : ℕ} {b : α} (h : orbit step a m = some b) (n : ℕ) : orbit step a (m+n) = orbit step b n := by
  induction n with
  | zero => exact h
  | succ n ih => rw [Nat.add_succ,orbit,ih,orbit]

/-- The first step and the rest. -/
theorem orbit_step {b : α} (h : step a = some b) (n : ℕ) : orbit step a (n+1) = orbit step b n := by
  rw [Nat.add_comm]
  exact orbit_add (by rw [orbit_succ orbit_zero,h]) n

theorem orbit_step_none (h : step a = none) (n : ℕ) : orbit step a (n+1) = none :=
  orbit_none (by rw [orbit_succ orbit_zero,h]) (Nat.le_add_left 1 n)

theorem noReturn_of_none (h : step a = none) : NoReturn step a := by
  intro m n x hmn _ hn
  obtain ⟨k,rfl⟩ := Nat.exists_eq_add_of_le' (Nat.zero_lt_of_lt hmn)
  rw [orbit_step_none h] at hn
  cases hn

/-- A run of one step. -/
theorem orbit_two {b x : α} {n : ℕ} (h : step a = some b) (hb : step b = none) (hx : orbit step a n = some x) :
    n = 0 ∧ x = a ∨ n = 1 ∧ x = b := by
  cases n with
  | zero => exact .inl ⟨rfl,(Option.some.inj hx).symm⟩
  | succ n =>
    rw [orbit_step h] at hx
    cases n with
    | zero => exact .inr ⟨rfl,(Option.some.inj hx).symm⟩
    | succ n =>
      rw [orbit_step_none hb] at hx
      cases hx

theorem noReturn_two {b : α} (h : step a = some b) (hb : step b = none) (hne : a ≠ b) : NoReturn step a := by
  intro m n x hmn hm hn
  obtain ⟨rfl,rfl⟩ | ⟨rfl,rfl⟩ := orbit_two h hb hm
  · obtain ⟨rfl,-⟩ | ⟨-,heq⟩ := orbit_two h hb hn
    · exact lt_irrefl _ hmn
    · exact hne heq
  · obtain ⟨rfl,-⟩ | ⟨rfl,-⟩ := orbit_two h hb hn
    · exact absurd hmn (Nat.not_lt_zero _)
    · exact lt_irrefl _ hmn

/-- Two runs go side by side while their steps do. -/
theorem orbit_rel {β : Type*} {step' : β → Option β} {b : β} {R : α → β → Prop} (hR : R a b)
    (hstep : ∀ n x y, orbit step a n = some x → orbit step' b n = some y → R x y → Option.Rel R (step x) (step' y))
    (n : ℕ) : Option.Rel R (orbit step a n) (orbit step' b n) := by
  induction n with
  | zero => exact .some hR
  | succ n ih =>
    rw [orbit,orbit]
    cases hx : orbit step a n with
    | none =>
      rw [hx] at ih
      cases hy : orbit step' b n with
      | none => exact .none
      | some y => rw [hy] at ih; cases ih
    | some x =>
      rw [hx] at ih
      cases hy : orbit step' b n with
      | none => rw [hy] at ih; cases ih
      | some y =>
        rw [hy] at ih
        cases ih with
        | some hxy => exact hstep n x y hx hy hxy

/-- A run that comes back to a state goes on for ever. -/
theorem orbit_returns {m n : ℕ} {b : α} (hmn : m < n) (hm : orbit step a m = some b) (hn : orbit step a n = some b)
    (k : ℕ) : orbit step a k ≠ none := by
  obtain ⟨d,hd,rfl⟩ : ∃ d, 0 < d ∧ n = m+d := ⟨n-m,by omega,by omega⟩
  have hback : ∀ i, orbit step a (m+d*i) = some b := by
    intro i
    induction i with
    | zero => exact hm
    | succ i ih => rw [Nat.mul_succ,← Nat.add_assoc,orbit_add ih,← orbit_add hm,hn]
  intro hk
  have hle : k ≤ m+d*k := (Nat.le_mul_of_pos_left k hd).trans (Nat.le_add_left _ _)
  have hend := hback k
  rw [orbit_none hk hle] at hend
  cases hend

/-- In a finite set a run stops exactly when no state is met twice. -/
theorem orbit_ends_iff {S : Set α} (hS : S.Finite) (hin : ∀ n b, orbit step a n = some b → b ∈ S) :
    (∃ n, orbit step a n = none) ↔ NoReturn step a := by
  constructor
  · rintro ⟨k,hk⟩ m n b hmn hm hn
    exact orbit_returns hmn hm hn k hk
  · intro h
    by_contra hnever
    push Not at hnever
    choose f hf using fun n => Option.ne_none_iff_exists'.mp (hnever n)
    obtain ⟨m,-,n,-,hne,heq⟩ := Set.infinite_univ.exists_ne_map_eq_of_mapsTo (fun n _ => hin n (f n) (hf n)) hS
    rcases Nat.lt_or_gt_of_ne hne with hlt | hgt
    · exact h m n (f m) hlt (hf m) (heq ▸ hf n)
    · exact h n m (f n) hgt (hf n) (heq ▸ hf m)

end Blub.Orbit
