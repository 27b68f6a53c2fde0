import Mathlib.Order.Lattice
import Mathlib.Order.Nat

/-! Recursions on fuel that keep a result once they have it. -/
namespace Blub.Fuel

variable {α : Type*} {f : ℕ → Option α} (hmono : ∀ n a, f n = some a → f (n+1) = some a)
include hmono

theorem le {n m : ℕ} {a : α} (h : f n = some a) (hm : n ≤ m) : f m = some a := by
  induction m, hm using Nat.le_induction with
  | base => exact h
  | succ m _ ih => exact hmono m a ih

/-- There is one result. -/
theorem unique {n m : ℕ} {a b : α} (ha : f n = some a) (hb : f m = some b) : a = b := by
  have h₁ := le hmono ha (le_max_left n m)
  rw [le hmono hb (le_max_right n m)] at h₁
  exact (Option.some.inj h₁).symm

end Blub.Fuel
