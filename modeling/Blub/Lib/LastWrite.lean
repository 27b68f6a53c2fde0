import Mathlib.Tactic

/-! Stores that are made one after the other under keys: under every key the last one stays. -/
namespace Blub.LastWrite
variable {α κ β σ : Type*} [DecidableEq κ]

/-- The last item with this key. -/
def last (key : α → κ) (l : List α) (k : κ) : Option α := (l.filter fun x => key x = k).getLast?

variable {key : α → κ} {k : κ}

theorem last_concat_self (l : List α) {x : α} (h : key x = k) : last key (l ++ [x]) k = some x := by
  rw [last,List.filter_append,List.filter_cons_of_pos (by simpa using h),List.filter_nil,List.getLast?_concat]

theorem last_concat_other (l : List α) {x : α} (h : key x ≠ k) : last key (l ++ [x]) k = last key l k := by
  rw [last,List.filter_append,List.filter_cons_of_neg (by simpa using h),List.filter_nil,List.append_nil,last]

/-- Items of other keys do not matter. -/
theorem last_filter (l : List α) (p : α → Bool) (h : ∀ x ∈ l, key x = k → p x = true) :
    last key (l.filter p) k = last key l k := by
  rw [last,last,List.filter_filter]
  congr 1
  refine List.filter_congr fun x hx => ?_
  by_cases hk : key x = k
  · simp [hk,h x hx hk]
  · simp [hk]

/-- What is found under a key after a run of stores. -/
theorem foldl_last {view : σ → κ → β} {store : σ → α → σ} {val : α → β} (l : List α) (s : σ)
    (h : ∀ s, ∀ x ∈ l, view (store s x) k = if key x = k then val x else view s k) :
    view (l.foldl store s) k = (last key l k).elim (view s k) val := by
  induction l using List.reverseRecOn with
  | nil => rfl
  | append_singleton l x ih =>
    have hl := ih fun s y hy => h s y (List.mem_append_left _ hy)
    rw [List.foldl_concat,h _ x (by simp)]
    by_cases hk : key x = k
    · rw [if_pos hk,last_concat_self l hk]
      rfl
    · rw [if_neg hk,last_concat_other l hk,hl]

end Blub.LastWrite
