import Mathlib.Tactic

/-! One's complement sums of 16-bit words: what is carried out at the top is added in at the bottom. A sum is 0 only where
every word is 0. -/
namespace Blub.OnesSum

/-- Addition of two words with end-around carry. -/
def add (a b : ℕ) : ℕ := if a+b < 2^16 then a+b else a+b+1-2^16

/-- The one's complement sum of words. -/
def sum (ws : List ℕ) : ℕ := ws.foldl add 0

/-- The word that a number comes to. -/
def word (n : ℕ) : ℕ := if n = 0 then 0 else (n-1)%65535+1

@[simp] theorem word_zero : word 0 = 0 := rfl

theorem word_lt (n : ℕ) : word n < 2^16 := by
  unfold word
  split_ifs
  · omega
  · omega

theorem word_of_lt {n : ℕ} (h : n < 2^16) : word n = n := by
  unfold word
  split_ifs
  · omega
  · omega

theorem add_word {b : ℕ} (n : ℕ) (hb : b < 2^16) : add (word n) b = word (n+b) := by
  unfold add word
  split_ifs <;> omega

theorem foldl_add {ws : List ℕ} (hws : ∀ w ∈ ws, w < 2^16) (n : ℕ) : ws.foldl add (word n) = word (n+ws.sum) := by
  induction ws generalizing n with
  | nil => simp
  | cons w ws ih =>
    have hw : w < 2^16 := hws w (by simp)
    simp only [List.foldl_cons,List.sum_cons]
    rw [add_word n hw,ih fun w h => hws w (by simp [h]),Nat.add_assoc]

/-- The carries may as well be brought back all at the end. -/
theorem sum_eq {ws : List ℕ} (hws : ∀ w ∈ ws, w < 2^16) : sum ws = word ws.sum := by
  have h := foldl_add hws 0
  rwa [word_zero,Nat.zero_add] at h

/-- A sum with its own complement added comes to all ones. -/
theorem word_complement (n : ℕ) : word (n+(65535-word n)) = 65535 := by
  unfold word
  split_ifs <;> omega

end Blub.OnesSum
