import Mathlib.Tactic

/-! The text in a row of bytes: all up to the first zero. -/
namespace Blub.Text

/-- The text in the first `n` bytes. -/
def textOf (f : ℕ → UInt8) (n : ℕ) : List UInt8 := ((List.range n).map f).takeWhile (· ≠ 0)

/-- Where the text in the first `n` bytes ends. -/
theorem exists_end (f : ℕ → UInt8) (n : ℕ) : ∃ m ≤ n, (∀ j < m, f j ≠ 0) ∧ (m = n ∨ f m = 0) := by
  induction n with
  | zero => exact ⟨0,le_rfl,fun j hj => absurd hj (Nat.not_lt_zero j),.inl rfl⟩
  | succ n ih =>
    obtain ⟨m,hm,hnz,rfl | hz⟩ := ih
    · by_cases hz : f m = 0
      · exact ⟨m,Nat.le_succ m,hnz,.inr hz⟩
      · refine ⟨m+1,le_rfl,fun j hj => ?_,.inl rfl⟩
        obtain hlt | rfl := Nat.lt_succ_iff_lt_or_eq.mp hj
        · exact hnz j hlt
        · exact hz
    · exact ⟨m,by omega,hnz,.inr hz⟩

theorem textOf_eq {f : ℕ → UInt8} {m n : ℕ} (hm : m ≤ n) (hnz : ∀ j < m, f j ≠ 0) (hend : m = n ∨ f m = 0) :
    textOf f n = (List.range m).map f := by
  have hall : ∀ x ∈ (List.range m).map f, decide (x ≠ 0) = true := by
    intro x hx
    obtain ⟨j,hj,rfl⟩ := List.mem_map.mp hx
    simpa using hnz j (List.mem_range.mp hj)
  obtain ⟨d,rfl⟩ := Nat.exists_eq_add_of_le hm
  rw [textOf,List.range_add,List.map_append,List.takeWhile_append_of_pos hall]
  cases d with
  | zero => simp
  | succ d =>
    have hz : f m = 0 := hend.resolve_left (by omega)
    rw [List.range_succ_eq_map,List.map_cons,List.map_cons,List.takeWhile_cons_of_neg (by simp [hz]),List.append_nil]

end Blub.Text
