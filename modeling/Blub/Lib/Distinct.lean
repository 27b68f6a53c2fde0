import Mathlib.Data.List.Infix
import Mathlib.Data.List.Nodup
import Mathlib.Tactic

/-! Lists without what they repeat, and a list that is brought up to date: what is no longer wanted goes, what is new comes
to the end. -/
namespace Blub.Distinct

variable {α : Type*} [BEq α] [LawfulBEq α]

theorem nodup_eraseDups (l : List α) : l.eraseDups.Nodup := by
  obtain ⟨n,hn⟩ : ∃ n, l.length ≤ n := ⟨_,le_rfl⟩
  induction n generalizing l with
  | zero =>
    rw [List.length_eq_zero_iff.mp (Nat.le_zero.mp hn)]
    exact List.nodup_nil
  | succ n ih =>
    cases l with
    | nil => exact List.nodup_nil
    | cons a l =>
      rw [List.eraseDups_cons,List.nodup_cons]
      refine ⟨by simp [List.mem_eraseDups],ih _ ?_⟩
      exact (List.length_filter_le _ l).trans (Nat.le_of_succ_le_succ hn)

theorem eraseDups_filter (p : α → Bool) (l : List α) : (l.filter p).eraseDups = l.eraseDups.filter p := by
  obtain ⟨n,hn⟩ : ∃ n, l.length ≤ n := ⟨_,le_rfl⟩
  induction n generalizing l with
  | zero =>
    rw [List.length_eq_zero_iff.mp (Nat.le_zero.mp hn)]
    rfl
  | succ n ih =>
    cases l with
    | nil => rfl
    | cons a l =>
      have hle := (List.length_filter_le (fun b => !b == a) l).trans (Nat.le_of_succ_le_succ hn)
      by_cases hp : p a = true
      · rw [List.filter_cons_of_pos hp,List.eraseDups_cons,List.eraseDups_cons,List.filter_cons_of_pos hp,← ih _ hle,
          List.filter_comm]
      · rw [List.filter_cons_of_neg hp,List.eraseDups_cons,List.filter_cons_of_neg hp,← ih _ hle,List.filter_filter]
        congr 1
        apply List.filter_congr
        intro b _
        by_cases hb : b = a
        · simp [hb,hp]
        · simp [hb]

/-- What stays of the old list, and then what is new. -/
def update (old new : List α) : List α := old.filter (· ∈ new) ++ new.filter (· ∉ old)

/-- The order of the new list comes out exactly when what stays of the old one is its beginning. -/
theorem update_eq_iff {old new : List α} (hn : new.Nodup) : update old new = new ↔ old.filter (· ∈ new) <+: new := by
  constructor
  · intro h
    exact ⟨_,h⟩
  · rintro ⟨rest,hrest⟩
    have hstay : (old.filter (· ∈ new)).filter (· ∉ old) = [] := by
      apply List.filter_eq_nil_iff.mpr
      intro a ha
      simpa using (List.mem_filter.mp ha).1
    have hnew : rest.filter (· ∉ old) = rest := by
      apply List.filter_eq_self.mpr
      intro a ha
      have hdisj := (List.nodup_append.mp (hrest ▸ hn)).2.2
      have hmem : a ∈ new := hrest ▸ List.mem_append_right _ ha
      simp only [decide_eq_true_eq]
      intro hold
      exact hdisj a (List.mem_filter.mpr ⟨hold,by simpa using hmem⟩) a ha rfl
    have hfilter : new.filter (· ∉ old) = rest := by
      conv_lhs => rw [← hrest]
      rw [List.filter_append,hstay,hnew,List.nil_append]
    rw [update,hfilter,hrest]

end Blub.Distinct
