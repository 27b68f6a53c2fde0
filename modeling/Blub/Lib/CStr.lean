import Mathlib.Tactic

/-! C strings: bytes without the 0 that ends them, and the order in which `strcmp` compares them. -/
namespace Blub

structure CStr where
  bytes : List UInt8
  nonzero : 0 ∉ bytes
  deriving DecidableEq

namespace CStr

def strcmpBytes : List UInt8 → List UInt8 → ℤ
  | [], [] => 0
  | [], b :: _ => 0-b.toNat
  | a :: _, [] => a.toNat
  | a :: s, b :: t => if a = b then strcmpBytes s t else a.toNat-b.toNat

def strcmp (s t : CStr) : ℤ := strcmpBytes s.bytes t.bytes

attribute [local grind =] strcmpBytes

theorem ext {s t : CStr} (h : s.bytes = t.bytes) : s = t := by
  cases s
  cases t
  cases h
  rfl

theorem strcmpBytes_neg {s t : List UInt8} (ht : 0 ∉ t) : strcmpBytes s t < 0 ↔ s < t := by
  induction s generalizing t with
  | nil =>
    cases t with
    | nil => simp [strcmpBytes]
    | cons b t =>
      have hb : b ≠ 0 := fun h => ht (by simp [h])
      have hpos : 0 < b.toNat := by
        rw [Nat.pos_iff_ne_zero]
        exact fun h => hb (UInt8.toNat_inj.mp h)
      simp only [strcmpBytes,List.nil_lt_cons,iff_true]
      omega
  | cons a s ih =>
    cases t with
    | nil =>
      simp only [strcmpBytes,List.not_lt_nil,iff_false]
      omega
    | cons b t =>
      simp only [strcmpBytes,List.cons_lt_cons_iff]
      have hi := ih (t := t) fun h => ht (List.mem_cons_of_mem b h)
      by_cases hab : a = b
      · simp [hab,hi]
      · rw [if_neg hab]
        have hlt : a < b ↔ a.toNat < b.toNat := UInt8.lt_iff_toNat_lt
        simp only [hab,false_and,or_false,hlt]
        omega

theorem strcmpBytes_eq_zero {s t : List UInt8} (hs : 0 ∉ s) (ht : 0 ∉ t) : strcmpBytes s t = 0 ↔ s = t := by
  induction s generalizing t with
  | nil =>
    cases t with
    | nil => simp [strcmpBytes]
    | cons b t =>
      have hb : b ≠ 0 := fun h => ht (by simp [h])
      have hpos : b.toNat ≠ 0 := fun h => hb (UInt8.toNat_inj.mp h)
      simp only [strcmpBytes,reduceCtorEq,iff_false]
      omega
  | cons a s ih =>
    cases t with
    | nil =>
      have ha : a ≠ 0 := fun h => hs (by simp [h])
      have hpos : a.toNat ≠ 0 := fun h => ha (UInt8.toNat_inj.mp h)
      simp only [strcmpBytes,reduceCtorEq,iff_false]
      omega
    | cons b t =>
      have hi := ih (t := t) (fun h => hs (List.mem_cons_of_mem a h)) fun h => ht (List.mem_cons_of_mem b h)
      simp only [strcmpBytes,List.cons.injEq]
      by_cases hab : a = b
      · simp [hab,hi]
      · have hne : a.toNat ≠ b.toNat := fun h => hab (UInt8.toNat_inj.mp h)
        rw [if_neg hab]
        simp only [hab,false_and,iff_false]
        omega

variable {s t u : CStr}

theorem strcmp_neg : strcmp s t < 0 ↔ s.bytes < t.bytes := strcmpBytes_neg t.nonzero

theorem strcmp_eq_zero : strcmp s t = 0 ↔ s = t :=
  (strcmpBytes_eq_zero s.nonzero t.nonzero).trans ⟨ext,congrArg bytes⟩

theorem strcmp_trans (h₁ : strcmp s t < 0) (h₂ : strcmp t u < 0) : strcmp s u < 0 :=
  strcmp_neg.mpr (List.lt_trans (strcmp_neg.mp h₁) (strcmp_neg.mp h₂))

theorem strcmp_irrefl (s : CStr) : ¬ strcmp s s < 0 := fun h => List.lt_irrefl _ (strcmp_neg.mp h)

/-- Of two different strings one comes first. -/
theorem strcmp_swap (hne : s ≠ t) (h : ¬ strcmp s t < 0) : strcmp t s < 0 := by
  rw [strcmp_neg,List.not_lt] at h
  refine strcmp_neg.mpr (List.not_le.mp fun hle => hne (ext ?_))
  exact List.le_antisymm hle h

end CStr

end Blub
