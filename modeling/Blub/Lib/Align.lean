import Mathlib.Tactic

/-! Rounding integers up and down to a multiple of an alignment. An alignment of 0 asks for nothing. -/
namespace Blub.Align

def Aligned (a x : ℤ) : Prop := a = 0 ∨ a ∣ x

instance (a x : ℤ) : Decidable (Aligned a x) := inferInstanceAs (Decidable (_ ∨ _))

def roundUp (x a : ℤ) : ℤ := if a = 0 then x else -(-x/a)*a

def roundDown (x a : ℤ) : ℤ := if a = 0 then x else x/a*a

variable {x y a : ℤ}

theorem roundDown_isGreatest (x : ℤ) (ha : 0 ≤ a) : IsGreatest {y | Aligned a y ∧ y ≤ x} (roundDown x a) := by
  unfold roundDown
  split_ifs with h
  · exact ⟨⟨.inl h,le_rfl⟩,fun y hy => hy.2⟩
  · refine ⟨⟨.inr (Int.dvd_mul_left _ _),Int.ediv_mul_le x h⟩,?_⟩
    rintro y ⟨hd,hy⟩
    obtain ⟨k,rfl⟩ := hd.resolve_left h
    have hpos : 0 < a := by omega
    have hk : k ≤ x/a := (Int.le_ediv_iff_mul_le hpos).mpr (by rwa [Int.mul_comm])
    rw [Int.mul_comm a k]
    exact Int.mul_le_mul_of_nonneg_right hk ha

/-- Rounding up is rounding the negative down. -/
theorem roundUp_eq (x a : ℤ) : roundUp x a = -roundDown (-x) a := by
  unfold roundUp roundDown
  split_ifs with h
  · rw [neg_neg]
  · rw [neg_mul]

theorem aligned_neg : Aligned a (-x) ↔ Aligned a x := or_congr_right Int.dvd_neg

theorem roundUp_isLeast (x : ℤ) (ha : 0 ≤ a) : IsLeast {y | Aligned a y ∧ x ≤ y} (roundUp x a) := by
  obtain ⟨⟨hal,hle⟩,hg⟩ := roundDown_isGreatest (-x) ha
  rw [roundUp_eq]
  refine ⟨⟨aligned_neg.mpr hal,by omega⟩,?_⟩
  rintro y ⟨hy,hxy⟩
  have := hg ⟨aligned_neg.mpr hy,neg_le_neg hxy⟩
  omega

theorem roundUp_aligned (x : ℤ) (ha : 0 ≤ a) : Aligned a (roundUp x a) := (roundUp_isLeast x ha).1.1

theorem le_roundUp (x : ℤ) (ha : 0 ≤ a) : x ≤ roundUp x a := (roundUp_isLeast x ha).1.2

theorem roundUp_le (ha : 0 ≤ a) (hy : Aligned a y) (h : x ≤ y) : roundUp x a ≤ y := (roundUp_isLeast x ha).2 ⟨hy,h⟩

theorem roundDown_aligned (x : ℤ) (ha : 0 ≤ a) : Aligned a (roundDown x a) := (roundDown_isGreatest x ha).1.1

theorem roundDown_le (x : ℤ) (ha : 0 ≤ a) : roundDown x a ≤ x := (roundDown_isGreatest x ha).1.2

theorem le_roundDown (ha : 0 ≤ a) (hy : Aligned a y) (h : y ≤ x) : y ≤ roundDown x a :=
  (roundDown_isGreatest x ha).2 ⟨hy,h⟩

theorem roundUp_of_aligned (ha : 0 ≤ a) (h : Aligned a x) : roundUp x a = x :=
  le_antisymm (roundUp_le ha h le_rfl) (le_roundUp x ha)

theorem roundDown_of_aligned (ha : 0 ≤ a) (h : Aligned a x) : roundDown x a = x :=
  le_antisymm (roundDown_le x ha) (le_roundDown ha h le_rfl)

/-- Adding the alignment and cutting rounds up what is not yet a multiple. -/
theorem roundUp_of_not_dvd (ha : 0 < a) (h : ¬ a ∣ x) : roundUp x a = (x+a)/a*a := by
  have hlt := Int.lt_ediv_add_one_mul_self x ha
  have hle := Int.ediv_mul_le x ha.ne'
  have hdiv : (x+a)/a = x/a+1 := Int.add_ediv_of_dvd_right (Int.dvd_refl a) |>.trans (by rw [Int.ediv_self ha.ne'])
  rw [hdiv]
  refine le_antisymm (roundUp_le ha.le (.inr (Int.dvd_mul_left _ _)) hlt.le) ?_
  obtain ⟨k,hk⟩ := (roundUp_aligned x ha.le).resolve_left ha.ne'
  have hx := le_roundUp x ha.le
  have hne : roundUp x a ≠ x := fun he => h (he ▸ hk ▸ Int.dvd_mul_right a k)
  rw [hk,Int.mul_comm a k] at hx hne ⊢
  -- a multiple behind `x` is behind the multiple before `x`
  have hk' : x/a < k := Int.lt_of_mul_lt_mul_right (by omega) ha.le
  exact Int.mul_le_mul_of_nonneg_right hk' ha.le

theorem roundUp_lt (ha : 0 < a) : roundUp x a < x+a := by
  by_cases h : a ∣ x
  · rw [roundUp_of_aligned ha.le (.inr h)]
    omega
  · rw [roundUp_of_not_dvd ha h]
    refine lt_of_le_of_ne (Int.ediv_mul_le _ ha.ne') fun he => h ?_
    have hd : a ∣ x+a := he ▸ Int.dvd_mul_left _ _
    exact (Int.dvd_add_left (Int.dvd_refl a)).mp hd

end Blub.Align
