import Mathlib.Tactic
import Mathlib.Data.List.DropRight

/-! Paths: components between separators, of which one, `up`, takes itself and the component before it away. -/
namespace Blub.Paths
variable {α : Type*}

section Defs
variable (sep : α) (up : List α)

/-- Each component behind a separator. -/
def render (l : List (List α)) : List α := l.flatMap fun c => sep :: c

variable [DecidableEq α]

def push (l : List (List α)) (c : List α) : List (List α) := if c = up then l.dropLast else l ++ [c]

/-- Without `up`, as far as there are components to go up from; at the root it is dropped. -/
def reduce (l : List (List α)) : List (List α) := l.foldl (push up) []

def segments (path : List α) : List (List α) := (path.splitOn sep).filter fun c => c ≠ []

/-- The path without `up`, with single separators, and one at its end. -/
def lexical (path : List α) : List α := render sep (reduce up (segments sep path)) ++ [sep]

end Defs

section Render
variable {sep : α} {a b c c' : List α} {l l' : List (List α)}

@[simp] theorem render_nil : render sep [] = [] := rfl

@[simp] theorem render_cons : render sep (c :: l) = sep :: (c ++ render sep l) := rfl

@[simp] theorem render_append : render sep (l ++ l') = render sep l ++ render sep l' := List.flatMap_append

theorem render_concat (l : List (List α)) (c : List α) : render sep (l ++ [c]) = render sep l ++ sep :: c := by simp

theorem length_render_concat : (render sep (l ++ [c])).length = (render sep l).length+c.length+1 := by
  simp
  omega

/-- What follows the last separator can be told from what precedes it. -/
theorem append_sep_inj (hc : sep ∉ c) (hc' : sep ∉ c') (h : a ++ sep :: c = b ++ sep :: c') : a = b ∧ c = c' := by
  obtain ⟨d,rfl,hd⟩ | ⟨d,rfl,hd⟩ := List.append_eq_append_iff.mp h
  · cases d with
    | nil => exact ⟨(List.append_nil a).symm,(List.cons.inj hd).2⟩
    | cons x d =>
      refine absurd ?_ hc
      rw [(List.cons.inj hd).2]
      exact List.mem_append_right _ List.mem_cons_self
  · cases d with
    | nil => exact ⟨List.append_nil b,(List.cons.inj hd).2.symm⟩
    | cons x d =>
      refine absurd ?_ hc'
      rw [(List.cons.inj hd).2]
      exact List.mem_append_right _ List.mem_cons_self

/-- A render that ends with a component ends with that component. -/
theorem render_eq_concat (hl : ∀ d ∈ l, sep ∉ d) (hc : sep ∉ c) (h : a ++ sep :: c = render sep l) :
    ∃ l', l = l' ++ [c] ∧ a = render sep l' := by
  induction l using List.reverseRecOn with
  | nil => simp at h
  | append_singleton l d _ =>
    rw [render_concat] at h
    obtain ⟨rfl,rfl⟩ := append_sep_inj hc (hl d (by simp)) h
    exact ⟨l,rfl,rfl⟩

theorem render_inj (hl : ∀ d ∈ l, sep ∉ d) (hl' : ∀ d ∈ l', sep ∉ d) (h : render sep l = render sep l') : l = l' := by
  induction l using List.reverseRecOn generalizing l' with
  | nil =>
    cases l' with
    | nil => rfl
    | cons c l' => simp at h
  | append_singleton l d ih =>
    rw [render_concat] at h
    obtain ⟨k,rfl,hk⟩ := render_eq_concat hl' (hl d (by simp)) h
    rw [ih (fun c hc => hl c (List.mem_append_left _ hc)) (fun c hc => hl' c (List.mem_append_left _ hc)) hk]

/-- A render does not end with a separator. -/
theorem render_ne_concat_sep (hl : ∀ d ∈ l, d ≠ [] ∧ sep ∉ d) : a ++ [sep] ≠ render sep l := by
  intro h
  obtain ⟨l',rfl,-⟩ := render_eq_concat (c := []) (fun d hd => (hl d hd).2) (by simp) h
  exact (hl [] (by simp)).1 rfl

/-- Separators at the end of a rendered path are told from it. -/
theorem rdropWhile_render [DecidableEq α] (hl : ∀ d ∈ l, d ≠ [] ∧ sep ∉ d) (n : ℕ) :
    (render sep l ++ List.replicate n sep).rdropWhile (· = sep) = render sep l := by
  induction n with
  | zero =>
    rw [List.replicate_zero,List.append_nil,List.rdropWhile_eq_self_iff]
    intro hne hlast
    have hsplit := List.dropLast_append_getLast hne
    rw [of_decide_eq_true hlast] at hsplit
    exact render_ne_concat_sep hl hsplit
  | succ n ih =>
    rw [List.replicate_succ',← List.append_assoc,List.rdropWhile_concat_pos _ _ _ (by simp)]
    exact ih

end Render

section Norm
variable [DecidableEq α] {sep : α} {up c : List α} {l l' : List (List α)}

theorem reduce_concat (l : List (List α)) (c : List α) : reduce up (l ++ [c]) = push up (reduce up l) c := by
  simp [reduce]

theorem reduce_concat_up (l : List (List α)) : reduce up (l ++ [up]) = (reduce up l).dropLast := by
  rw [reduce_concat,push,if_pos rfl]

theorem reduce_concat_of_ne (h : c ≠ up) (l : List (List α)) : reduce up (l ++ [c]) = reduce up l ++ [c] := by
  rw [reduce_concat,push,if_neg h]

theorem reduce_append_of_not_mem (h : up ∉ l') : reduce up (l ++ l') = reduce up l ++ l' := by
  induction l' using List.reverseRecOn with
  | nil => simp
  | append_singleton l' c ih =>
    have hc : c ≠ up := by rintro rfl; simp at h
    rw [← List.append_assoc,reduce_concat_of_ne hc,ih (fun hmem => h (List.mem_append_left _ hmem)),List.append_assoc]

theorem reduce_of_not_mem (h : up ∉ l) : reduce up l = l := reduce_append_of_not_mem (l := []) h

/-- When two more components leave a path as it is. -/
theorem eq_push_push_iff {d : List α} : l = push up (push up l c) d ↔
    d = up ∧ (c ≠ up ∨ l = []) ∨ d ≠ up ∧ c = up ∧ ∃ k, l = k ++ [d] := by
  by_cases hc : c = up
  · by_cases hd : d = up
    · simp only [push,hc,hd,if_true,ne_eq,not_true_eq_false,false_or,true_and,false_and,or_false]
      refine ⟨fun h => List.length_eq_zero_iff.mp ?_,fun h => by simp [h]⟩
      have hlen := congrArg List.length h
      simp only [List.length_dropLast] at hlen
      omega
    · simp only [push,hc,hd,if_true,if_false,false_and,false_or,ne_eq,not_false_eq_true,true_and]
      refine ⟨fun h => ⟨_,h⟩,?_⟩
      rintro ⟨k,rfl⟩
      rw [List.dropLast_concat]
  · by_cases hd : d = up
    · simp [push,hc,hd]
    · simp [push,hc,hd]

theorem mem_of_mem_reduce (h : c ∈ reduce up l) : c ∈ l ∧ c ≠ up := by
  induction l using List.reverseRecOn with
  | nil => cases h
  | append_singleton l d ih =>
    by_cases hd : d = up
    · subst hd
      rw [reduce_concat_up] at h
      obtain ⟨hmem,hne⟩ := ih (List.mem_of_mem_dropLast h)
      exact ⟨List.mem_append_left _ hmem,hne⟩
    · rw [reduce_concat_of_ne hd] at h
      obtain hmem | hmem := List.mem_append.mp h
      · obtain ⟨hmem,hne⟩ := ih hmem
        exact ⟨List.mem_append_left _ hmem,hne⟩
      · obtain rfl := List.mem_singleton.mp hmem
        exact ⟨by simp,hd⟩

end Norm

section Length
variable (sep : α) {up c : List α} {l : List (List α)}

theorem length_render_dropLast_le (l : List (List α)) : (render sep l.dropLast).length ≤ (render sep l).length := by
  induction l using List.reverseRecOn with
  | nil => exact le_rfl
  | append_singleton l c _ =>
    rw [List.dropLast_concat,length_render_concat]
    omega

variable [DecidableEq α]

theorem length_reduce_le (up : List α) (l : List (List α)) : (render sep (reduce up l)).length ≤ (render sep l).length := by
  induction l using List.reverseRecOn with
  | nil => exact le_rfl
  | append_singleton l c ih =>
    rw [length_render_concat]
    by_cases hc : c = up
    · subst hc
      rw [reduce_concat_up]
      have := length_render_dropLast_le sep (reduce c l)
      omega
    · rw [reduce_concat_of_ne hc,length_render_concat]
      omega

/-- Each `up` is missing at least itself. -/
theorem length_reduce_of_mem (h : up ∈ l) : (render sep (reduce up l)).length+up.length+1 ≤ (render sep l).length := by
  induction l using List.reverseRecOn with
  | nil => cases h
  | append_singleton l c ih =>
    rw [length_render_concat]
    by_cases hc : c = up
    · subst hc
      rw [reduce_concat_up]
      have hdrop := length_render_dropLast_le sep (reduce c l)
      have hle := length_reduce_le sep c l
      omega
    · have hl : up ∈ l := (List.mem_append.mp h).resolve_right fun hmem => hc (List.mem_singleton.mp hmem).symm
      rw [reduce_concat_of_ne hc,length_render_concat]
      have := ih hl
      omega

/-- Going up from somewhere takes a component away. -/
theorem length_reduce_up (up : List α) (hl : l ≠ []) (hne : ∀ d ∈ l, d ≠ []) :
    (render sep (reduce up (l ++ [up]))).length+2 ≤ (render sep l).length := by
  rw [reduce_concat_up]
  have hle := length_reduce_le sep up l
  obtain hnil | ⟨k,d,hk⟩ := List.eq_nil_or_concat' (reduce up l)
  · obtain ⟨k,c,rfl⟩ := (List.eq_nil_or_concat' l).resolve_left hl
    have hpos := List.length_pos_of_ne_nil (hne c (by simp))
    rw [hnil,length_render_concat]
    simp
    omega
  · have hpos := List.length_pos_of_ne_nil (hne d (mem_of_mem_reduce (hk ▸ List.mem_append_right _ List.mem_cons_self)).1)
    rw [hk,length_render_concat] at hle
    rw [hk,List.dropLast_concat]
    omega

/-- A component and going up from it do not make the path longer. -/
theorem length_reduce_push_up (up : List α) (l : List (List α)) (c : List α) :
    (render sep (reduce up (l ++ [c,up]))).length ≤ (render sep (reduce up l)).length := by
  rw [show l ++ [c,up] = l ++ [c] ++ [up] by simp,reduce_concat_up]
  by_cases hc : c = up
  · subst hc
    rw [reduce_concat_up]
    exact (length_render_dropLast_le sep _).trans (length_render_dropLast_le sep _)
  · rw [reduce_concat_of_ne hc,List.dropLast_concat]

end Length

section Components
variable [DecidableEq α] {sep : α} {c : List α}

theorem segments_sep (path : List α) : segments sep (sep :: path) = segments sep path := by
  simp [segments,List.splitOn,List.splitOnP_cons_eq_if_modifyHead]

theorem segments_replicate (n : ℕ) (path : List α) :
    segments sep (List.replicate n sep ++ path) = segments sep path := by
  induction n with
  | zero => rfl
  | succ n ih => rw [List.replicate_succ,List.cons_append,segments_sep,ih]

theorem segments_self (hc : c ≠ []) (hsep : sep ∉ c) : segments sep c = [c] := by
  rw [segments,List.splitOn,List.splitOnP_eq_singleton fun x hx => by simp; rintro rfl; exact hsep hx]
  simp [hc]

theorem segments_append (hc : c ≠ []) (hsep : sep ∉ c) (path : List α) :
    segments sep (c ++ sep :: path) = c :: segments sep (sep :: path) := by
  rw [segments_sep,segments,List.splitOn,
    List.splitOnP_append_cons_of_forall_mem (fun x hx => by simp; rintro rfl; exact hsep hx) sep (by simp)]
  simp [hc,segments,List.splitOn]

end Components

end Blub.Paths
