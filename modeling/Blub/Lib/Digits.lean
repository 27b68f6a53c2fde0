import Mathlib.Tactic

/-! Numbers as digits in an array, the most significant one first, and the estimate of a digit of a quotient from the top
three digits of the dividend and two of the divisor. -/
namespace Blub.Digits

/-- The number of the `n` digits from `o` on, in base `b`. -/
def value (b : ℕ) (p : ℕ → ℕ) : ℕ → ℕ → ℕ
  | _, 0 => 0
  | o, n+1 => p o*b^n+value b p (o+1) n

attribute [local grind =] value

section Value
variable {b : ℕ} {p p' : ℕ → ℕ} {o o' n : ℕ}

@[simp] theorem value_zero (b : ℕ) (p : ℕ → ℕ) (o : ℕ) : value b p o 0 = 0 := rfl

theorem value_succ (b : ℕ) (p : ℕ → ℕ) (o n : ℕ) : value b p o (n+1) = p o*b^n+value b p (o+1) n := rfl

theorem value_append (b : ℕ) (p : ℕ → ℕ) (o m n : ℕ) : value b p o (m+n) = value b p o m*b^n+value b p (o+m) n := by
  induction m generalizing o with
  | zero => simp
  | succ m ih =>
    rw [Nat.succ_add,value_succ,value_succ,ih,Nat.pow_add,Nat.succ_add_eq_add_succ]
    ring

theorem value_concat (b : ℕ) (p : ℕ → ℕ) (o n : ℕ) : value b p o (n+1) = value b p o n*b+p (o+n) := by
  rw [value_append,value_succ]
  simp

theorem value_congr (h : ∀ i < n, p (o+i) = p' (o'+i)) : value b p o n = value b p' o' n := by
  induction n with
  | zero => rfl
  | succ n ih => rw [value_concat,value_concat,ih fun i hi => h i (by omega),h n (by omega)]

theorem value_lt (h : ∀ i < n, p (o+i) < b) : value b p o n < b^n := by
  induction n with
  | zero => simp
  | succ n ih =>
    have hn := h n (by omega)
    have hlow := ih fun i hi => h i (by omega)
    rw [value_concat,Nat.pow_succ]
    calc value b p o n*b+p (o+n) < value b p o n*b+b := by omega
      _ = (value b p o n+1)*b := by ring
      _ ≤ b^n*b := Nat.mul_le_mul_right b hlow

theorem value_eq_zero (h : ∀ i < n, p (o+i) = 0) : value b p o n = 0 := by
  induction n with
  | zero => rfl
  | succ n ih => rw [value_concat,ih fun i hi => h i (by omega),h n (by omega),Nat.zero_mul]

/-- A digit behind the window does not count. -/
theorem value_update_of_le {i a : ℕ} (h : i < o ∨ o+n ≤ i) : value b (Function.update p i a) o n = value b p o n :=
  value_congr fun j hj => Function.update_of_ne (by omega) _ _

/-- A number below `b^n` has nothing in front of its last `n` digits. -/
theorem eq_zero_of_value_lt (h : value b p o (n+1) < b^n) : p o = 0 := by
  by_contra hne
  rw [value_succ] at h
  have := Nat.le_mul_of_pos_left (b^n) (Nat.pos_of_ne_zero hne)
  omega

end Value

section Estimate
variable {b u v k top v₁ v₂ uj₂ qhat : ℕ}

/-- The two numbers that a digit of a quotient is estimated from: two digits and one of the dividend, two digits of the
divisor, and `k` digits behind each. -/
structure Split (b k u v top uj₂ v₁ v₂ : ℕ) : Prop where
  dividend : ∃ rest < b^k, u = (top*b+uj₂)*b^k+rest
  divisor : ∃ rest < b^k, v = (v₁*b+v₂)*b^k+rest

/-- No digit whose product with the two digits is too large for the three belongs to the quotient. -/
theorem Split.div_lt (h : Split b k u v top uj₂ v₁ v₂) (hlt : top*b+uj₂ < qhat*(v₁*b+v₂)) : u/v < qhat := by
  obtain ⟨r,hr,rfl⟩ := h.dividend
  obtain ⟨r',-,rfl⟩ := h.divisor
  apply Nat.div_lt_of_lt_mul
  calc (top*b+uj₂)*b^k+r < (top*b+uj₂+1)*b^k := by rw [Nat.succ_mul]; omega
    _ ≤ qhat*(v₁*b+v₂)*b^k := Nat.mul_le_mul_right _ hlt
    _ ≤ ((v₁*b+v₂)*b^k+r')*qhat := by
      rw [Nat.add_mul]
      calc qhat*(v₁*b+v₂)*b^k = (v₁*b+v₂)*b^k*qhat := by ring
        _ ≤ (v₁*b+v₂)*b^k*qhat+r'*qhat := Nat.le_add_right _ _

/-- A digit that the three digits have room for is at most one too large. -/
theorem Split.lt_add (h : Split b k u v top uj₂ v₁ v₂) (hb : 0 < b) (hv : 0 < v₁) (hq : qhat ≤ b)
    (hle : qhat*(v₁*b+v₂) ≤ top*b+uj₂) : qhat*v < u+v := by
  obtain ⟨r,hr,rfl⟩ := h.dividend
  obtain ⟨r',hr',rfl⟩ := h.divisor
  have hhead := Nat.mul_le_mul_right (b^k) hle
  have htail : qhat*r' < v₁*b*b^k :=
    calc qhat*r' ≤ b*r' := Nat.mul_le_mul_right _ hq
      _ < b*b^k := Nat.mul_lt_mul_of_pos_left hr' hb
      _ ≤ v₁*(b*b^k) := Nat.le_mul_of_pos_left _ hv
      _ = v₁*b*b^k := by ring
  have hsplit : (v₁*b+v₂)*b^k = v₁*b*b^k+v₂*b^k := by ring
  rw [Nat.mul_add,← Nat.mul_assoc]
  omega

end Estimate

end Blub.Digits
