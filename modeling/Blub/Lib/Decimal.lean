import Mathlib.Data.Nat.Digits.Lemmas
import Mathlib.Tactic

/-! Decimal text of a number, as `%d` prints one that is not negative, and its value. -/
namespace Blub.Decimal

def isDigit (c : UInt8) : Bool := decide (48 ≤ c.toNat ∧ c.toNat ≤ 57)

/-- The text of a number. -/
def decimal (n : ℕ) : List UInt8 := if n = 0 then [48] else (Nat.digits 10 n).reverse.map fun d => UInt8.ofNat (48+d)

/-- A number after one more digit. -/
def more (acc : ℕ) (c : UInt8) : ℕ := acc*10+(c.toNat-48)

theorem decimal_ne (n : ℕ) : decimal n ≠ [] := by
  unfold decimal
  split_ifs with h
  · exact List.cons_ne_nil _ _
  · simpa [Nat.digits_ne_nil_iff_ne_zero] using h

theorem digit_toNat {d : ℕ} (h : d < 10) : (UInt8.ofNat (48+d)).toNat = 48+d := UInt8.toNat_ofNat_of_lt' (by
  have hsize : UInt8.size = 256 := rfl
  omega)

theorem isDigit_decimal {n : ℕ} {c : UInt8} (h : c ∈ decimal n) : isDigit c = true := by
  unfold decimal at h
  split_ifs at h
  · rw [List.mem_singleton.mp h]
    rfl
  · obtain ⟨d,hd,rfl⟩ := List.mem_map.mp h
    have hlt := Nat.digits_lt_base (by decide) (List.mem_reverse.mp hd)
    simp only [isDigit,digit_toNat hlt,decide_eq_true_eq]
    omega

theorem value_decimal (n : ℕ) : (decimal n).foldl more 0 = n := by
  unfold decimal
  split_ifs with h
  · rw [h]
    rfl
  · have hfold (l : List ℕ) (hl : ∀ d ∈ l, d < 10) :
        (l.reverse.map fun d => UInt8.ofNat (48+d)).foldl more 0 = l.foldr (fun d a => d+10*a) 0 := by
      rw [List.foldl_map,List.foldl_reverse]
      induction l with
      | nil => rfl
      | cons d l ih =>
        rw [List.foldr_cons,List.foldr_cons,ih fun x hx => hl x (List.mem_cons_of_mem _ hx),more,
          digit_toNat (hl d List.mem_cons_self)]
        omega
    rw [hfold _ fun d hd => Nat.digits_lt_base (by decide) hd]
    have hdigits := Nat.ofDigits_digits 10 n
    rwa [Nat.ofDigits_eq_foldr] at hdigits

/-- A number does not get smaller with more digits. -/
theorem le_value (l : List UInt8) (acc : ℕ) : acc ≤ l.foldl more acc := by
  induction l generalizing acc with
  | nil => exact le_rfl
  | cons c l ih => exact (show acc ≤ more acc c by unfold more; omega).trans (ih _)

end Blub.Decimal
