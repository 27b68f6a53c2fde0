import Blub.Lib.Slice

/-! Strings in memory, each ended by a zero, one behind the other up to an empty one. -/
namespace Blub.Strings
open Bytes

/-- The string at `a`. -/
def readString (b : ℕ → UInt8) : ℕ → ℕ → Option (List UInt8)
  | 0, _ => none
  | fuel+1, a => if b a = 0 then some [] else (readString b fuel (a+1)).map (b a :: ·)

/-- The strings from `a` on. -/
def readStrings (b : ℕ → UInt8) : ℕ → ℕ → Option (List (List UInt8))
  | 0, _ => none
  | fuel+1, a =>
    match readString b (fuel+1) a with
    | none => none
    | some [] => some []
    | some (x :: s) => (readStrings b fuel (a+(x :: s).length+1)).map ((x :: s) :: ·)

def block (l : List (List UInt8)) : List UInt8 := l.flatMap (· ++ [0]) ++ [0]

attribute [local grind =] readString readStrings

variable {b : ℕ → UInt8} {a : ℕ}

theorem holds_cons {x : UInt8} {l : List UInt8} : Holds b a (x :: l) ↔ b a = x ∧ Holds b (a+1) l := by
  unfold Holds
  rw [List.length_cons,slice,List.cons.injEq]

theorem readString_holds {s : List UInt8} (hs : 0 ∉ s) (h : Holds b a (s ++ [0])) {fuel : ℕ} (hfuel : s.length < fuel) :
    readString b fuel a = some s := by
  induction s generalizing a fuel with
  | nil =>
    obtain ⟨fuel,rfl⟩ := Nat.exists_eq_add_of_lt hfuel
    exact if_pos (holds_cons.mp h).1
  | cons x s ih =>
    obtain ⟨fuel,rfl⟩ := Nat.exists_eq_add_of_lt hfuel
    obtain ⟨hx,hrest⟩ := holds_cons.mp h
    rw [List.mem_cons,not_or] at hs
    rw [List.length_cons] at hfuel ⊢
    rw [readString,hx,if_neg (Ne.symm hs.1),ih hs.2 hrest (by omega)]
    rfl

/-- Strings that are not empty are read back. -/
theorem readStrings_block {l : List (List UInt8)} (hl : ∀ s ∈ l, s ≠ [] ∧ 0 ∉ s) (h : Holds b a (block l)) {fuel : ℕ}
    (hfuel : (block l).length ≤ fuel) : readStrings b fuel a = some l := by
  induction l generalizing a fuel with
  | nil =>
    obtain ⟨fuel,rfl⟩ := Nat.exists_eq_add_of_le' hfuel
    have hread : readString b (fuel+1) a = some [] := readString_holds List.not_mem_nil h (Nat.succ_pos fuel)
    rw [show (block []).length = 1 from rfl,readStrings,hread]
  | cons s l ih =>
    obtain ⟨⟨hne,hnz⟩,htail⟩ := List.forall_mem_cons.mp hl
    have hblock : block (s :: l) = s ++ [0] ++ block l := by
      rw [block,block,List.flatMap_cons,List.append_assoc]
    rw [hblock] at h
    obtain ⟨hhead,hrest⟩ := holds_append.mp h
    have hlen : (block (s :: l)).length = s.length+1+(block l).length := by
      rw [hblock,List.length_append,List.length_append]
      rfl
    rw [List.length_append,List.length_singleton,← Nat.add_assoc] at hrest
    cases fuel with
    | zero => omega
    | succ fuel =>
      have hread := readString_holds hnz hhead (show s.length < fuel+1 by omega)
      have hnext := ih htail hrest (show (block l).length ≤ fuel by omega)
      cases s with
      | nil => exact absurd rfl hne
      | cons x s =>
        rw [readStrings,hread]
        dsimp only
        rw [hnext]
        rfl

end Blub.Strings
