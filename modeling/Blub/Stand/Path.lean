import Blub.Boot.Lookup

/-! The first component of a path, as `h2resolve` and `ufs_open` cut it off. -/
namespace Blub.Stand
open Blub.Boot (slash components path_head components_slash components_name)

/-- The first component of a path, and what follows it. -/
def firstName (path : List UInt8) : List UInt8 := (path.dropWhile (· = slash)).takeWhile (· ≠ slash)
def behindName (path : List UInt8) : List UInt8 := (path.dropWhile (· = slash)).dropWhile (· ≠ slash)

variable {path : List UInt8}

theorem firstName_append (path : List UInt8) : firstName path ++ behindName path = path.dropWhile (· = slash) :=
  List.takeWhile_append_dropWhile

theorem firstName_sublist (path : List UInt8) : List.Sublist (firstName path) path :=
  (List.takeWhile_sublist _).trans (List.dropWhile_sublist _)

theorem behindName_sublist (path : List UInt8) : List.Sublist (behindName path) path :=
  (List.dropWhile_sublist _).trans (List.dropWhile_sublist _)

theorem firstName_ne (h : path.dropWhile (· = slash) ≠ []) : firstName path ≠ [] := by
  have hc := List.head_dropWhile_not (· = slash) h
  rw [firstName,← List.cons_head_tail h,List.takeWhile_cons_of_pos (by simpa using hc)]
  exact List.cons_ne_nil _ _

theorem components_dropWhile (path : List UInt8) : components (path.dropWhile (· = slash)) = components path := by
  induction path with
  | nil => rfl
  | cons c path ih =>
    by_cases hc : c = slash
    · rw [List.dropWhile_cons_of_pos (by simpa using hc),ih,hc,components_slash]
    · rw [List.dropWhile_cons_of_neg (by simpa using hc)]

/-- A path of slashes has no components. -/
theorem components_nil (h : path.dropWhile (· = slash) = []) : components path = [] := by
  rw [← components_dropWhile,h]
  rfl

theorem components_cons (h : path.dropWhile (· = slash) ≠ []) : components path = firstName path :: components (behindName path) := by
  obtain ⟨hname,hrest⟩ := path_head (path.dropWhile (· = slash))
  have hcons := components_name hname (firstName_ne h) hrest
  rw [List.takeWhile_append_dropWhile,components_dropWhile] at hcons
  exact hcons

theorem behindName_length (h : path.dropWhile (· = slash) ≠ []) : (behindName path).length < path.length := by
  have h₁ := congrArg List.length (firstName_append path)
  have h₂ := (List.dropWhile_sublist (p := (· = slash)) (l := path)).length_le
  have h₃ := List.length_pos_of_ne_nil (firstName_ne h)
  rw [List.length_append] at h₁
  omega

/-- The last character of a path is that of what follows its first component. -/
theorem behindName_last (h : behindName path ≠ []) : path.getLast? = (behindName path).getLast? := by
  conv_lhs => rw [← List.takeWhile_append_dropWhile (p := (· = slash)) (l := path),← firstName_append,← List.append_assoc]
  exact List.getLast?_append_of_ne_nil _ h

/-- Nothing but slashes. -/
theorem slashes_last (hne : path ≠ []) (h : components path = []) : path.getLast? = some slash := by
  have hnil : path.dropWhile (· = slash) = [] := by
    by_contra hno
    rw [components_cons hno] at h
    cases h
  rw [List.dropWhile_eq_nil_iff] at hnil
  rw [List.getLast?_eq_some_getLast hne]
  simpa using hnil _ (List.getLast_mem hne)

/-- A path of one component without a slash behind it. -/
theorem name_last (h : path.dropWhile (· = slash) ≠ []) (hrest : behindName path = []) : path.getLast? ≠ some slash := by
  conv_lhs => rw [← List.takeWhile_append_dropWhile (p := (· = slash)) (l := path)]
  rw [List.getLast?_append_of_ne_nil _ h,List.getLast?_eq_some_getLast h]
  rw [behindName,List.dropWhile_eq_nil_iff] at hrest
  have hc := hrest _ (List.getLast_mem h)
  intro he
  rw [Option.some.inj he] at hc
  simp at hc

end Blub.Stand
