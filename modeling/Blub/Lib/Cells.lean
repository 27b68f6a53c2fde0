import Mathlib.Data.List.GetD
import Mathlib.Tactic

/-! Memories of a fixed number of cells: no access outside of them has a result. A memory that is written cell by cell
from its start holds what was written, and behind it what it held before. -/
namespace Blub.Cells

variable {α : Type*}

section Access

def put (m : List α) (i : ℕ) (v : α) : Option (List α) := if i < m.length then some (m.set i v) else none

/-- Store in the cells from `i` on. -/
def putAll : List α → ℕ → List α → Option (List α)
  | m, _, [] => some m
  | m, i, v :: l => (put m i v).bind fun m => putAll m (i+1) l

/-- `while (m[i++] != z);`, for at most `fuel` cells: the final index. -/
def pastMark [DecidableEq α] (z : α) (m : List α) : ℕ → ℕ → Option ℕ
  | 0, _ => none
  | fuel+1, i => m[i]?.bind fun v => if v ≠ z then pastMark z m fuel (i+1) else some (i+1)

attribute [local grind =] putAll pastMark

end Access

section Marks
variable [DecidableEq α] {z : α}

theorem pastMark_found {pre : List α} (hz : z ∉ pre) (r : List α) {fuel : ℕ} (hfuel : pre.length < fuel) (p : List α) :
    pastMark z (p ++ (pre ++ z :: r)) fuel p.length = some (p.length+pre.length+1) := by
  induction pre generalizing fuel p with
  | nil =>
    obtain ⟨fuel,rfl⟩ := Nat.exists_eq_add_of_lt hfuel
    simp [pastMark]
  | cons v pre ih =>
    obtain ⟨fuel,rfl⟩ := Nat.exists_eq_add_of_lt hfuel
    obtain ⟨hne,hz⟩ := List.ne_and_not_mem_of_not_mem_cons hz
    have h := @ih hz ((v :: pre).length+fuel) (by simp; omega) (p ++ [v])
    rw [List.append_assoc,List.singleton_append,List.length_append,List.length_singleton] at h
    have hread : (p ++ (v :: pre ++ z :: r))[p.length]? = some v := by simp
    rw [pastMark,hread,Option.bind_some,if_pos (Ne.symm hne),List.cons_append]
    refine h.trans (congrArg some ?_)
    rw [List.length_cons]
    omega

theorem pastMark_none {m : List α} (hz : z ∉ m) (fuel i : ℕ) : pastMark z m fuel i = none := by
  induction fuel generalizing i with
  | zero => rfl
  | succ fuel ih =>
    rw [pastMark]
    cases h : m[i]? with
    | none => rfl
    | some v =>
      have hne : v ≠ z := fun hv => hz (hv ▸ List.mem_of_getElem? h)
      rw [Option.bind_some,if_pos hne,ih]

end Marks

section Overlay

/-- A memory with `w` written over its first cells. -/
def overlay (m w : List α) : List α := w ++ m.drop w.length

variable {m w : List α}

theorem overlay_nil (m : List α) : overlay m [] = m := rfl

theorem length_overlay (h : w.length ≤ m.length) : (overlay m w).length = m.length := by
  rw [overlay,List.length_append,List.length_drop,Nat.add_sub_cancel' h]

/-- The next cell. -/
theorem put_overlay (h : w.length < m.length) (v : α) :
    put (overlay m w) w.length v = some (overlay m (w ++ [v])) := by
  rw [put,length_overlay h.le,if_pos h,overlay,overlay,List.set_append_right _ _ le_rfl,Nat.sub_self,
    List.drop_eq_getElem_cons h,List.set_cons_zero,List.length_append,List.append_assoc]
  rfl

/-- The last cell once more. -/
theorem put_overlay_last {a : α} (h : w.length < m.length) (v : α) :
    put (overlay m (w ++ [a])) w.length v = some (overlay m (w ++ [v])) := by
  have hle : (w ++ [a]).length ≤ m.length := by rwa [List.length_append,List.length_singleton]
  rw [put,length_overlay hle,if_pos h,overlay,overlay,List.append_assoc,List.set_append_right _ _ le_rfl,Nat.sub_self,
    List.length_append,List.append_assoc,List.length_append,List.length_singleton,List.length_singleton]
  rfl

theorem putAll_overlay {l : List α} (h : w.length+l.length ≤ m.length) :
    putAll (overlay m w) w.length l = some (overlay m (w ++ l)) := by
  induction l generalizing w with
  | nil => rw [putAll,List.append_nil]
  | cons v l ih =>
    rw [List.length_cons] at h
    have hrest := @ih (w ++ [v]) (by rw [List.length_append,List.length_singleton]; omega)
    rw [List.length_append,List.length_singleton,List.append_assoc] at hrest
    rw [putAll,put_overlay (by omega),Option.bind_some,hrest]
    rfl

end Overlay

end Blub.Cells
