import Blub.Lib.Paths
import Blub.Lib.Scan
import Blub.Lib.Slice

/-! `chdir` of `rel_open.c`: the path is compacted in place, with two pointers into what is read (`s`, and `b` to the start
of a component) and two into what is written (`w`, and `p` to where `..` goes back to). -/
namespace Blub.Boot.Dir
open Blub.Bytes Blub.Paths Blub.Scan

def slash : UInt8 := 47
def dot : UInt8 := 46

/-- The component `..`. -/
def dotdot : List UInt8 := [dot,dot]

structure ChdirState where
  base : ℕ → UInt8
  p : ℕ
  b : ℕ
  w : ℕ
  s : ℕ

section Code

/-- The test for `..` before `s`. -/
def ChdirState.AtDots (st : ChdirState) : Prop := st.s = st.b+2 ∧ st.base st.b = dot ∧ st.base (st.b+1) = dot

instance (st : ChdirState) : Decidable st.AtDots := inferInstanceAs (Decidable (_ ∧ _))

/-- `while (s[1] == '/') ++s;` -/
def skipTurn (base : ℕ → UInt8) (s : ℕ) : Option (ℕ ⊕ ℕ) :=
  some (if base (s+1) = slash then .inr (s+1) else .inl s)

/-- `*w = *s; ++w; ++s;` -/
def ChdirState.copy (st : ChdirState) : ChdirState :=
  {st with base := Function.update st.base st.w (st.base st.s), w := st.w+1, s := st.s+1}

def compactTurn (fuel : ℕ) (st : ChdirState) : Option (ChdirState ⊕ ChdirState) :=
  if st.base st.s = 0 then some (.inl st)
  else if st.base st.s = slash then
    let st := if st.AtDots then {st with w := st.p} else {st with p := st.b, b := st.s+1}
    match loop (skipTurn st.base) fuel st.s with
    | none => none
    | some s => some (.inr {st with s := s}.copy)
  else some (.inr st.copy)

/-- `while (w > base && w[-1] == '/') --w;` -/
def stripSlashes (base : ℕ → UInt8) : ℕ → ℕ
  | 0 => 0
  | w+1 => if base w = slash then stripSlashes base w else w+1

/-- The path as it is left in its buffer, up to the first 0. -/
def compact (fuel : ℕ) (path : List UInt8) : Option (List UInt8) :=
  match loop (compactTurn fuel) fuel ⟨ofList path,0,0,0,0⟩ with
  | none => none
  | some st =>
    let w := stripSlashes st.base (if st.AtDots then st.p else st.w)
    let base := Function.update (Function.update st.base w slash) (w+1) 0
    some ((slice base 0 (w+1)).takeWhile (· ≠ 0))

/-- The directory that is asked for, with trailing slashes only if it is absolute. -/
def joined (dirBase path : List UInt8) : List UInt8 :=
  if path.head? = some slash then path else dirBase ++ path.rdropWhile (· = slash)

/-- `chdir`, with what `stat` says of directories: `DirBase`, and the message in `command_errbuf` of a failure. -/
def chdir (fuel : ℕ) (isDir : List UInt8 → Bool) (dirBase : Option (List UInt8)) (path : List UInt8) :
    Option (List UInt8 × Option String) :=
  let dirBase := dirBase.getD [slash]
  let base := joined dirBase path
  if isDir base then (compact fuel base).map fun dirBase => (dirBase,none)
  else some (dirBase,some "Unable to find directory")

attribute [local grind =] stripSlashes

end Code

section Spec

/-- With as much fuel as the path needs, `DirBase` is the normal form of the path if it is a directory, else as it was. -/
structure ChdirRight (isDir : List UInt8 → Bool) (dirBase path : List UInt8) : Prop where
  found : isDir (joined dirBase path) = true → ∀ fuel, (joined dirBase path).length < fuel →
    chdir fuel isDir (some dirBase) path = some (lexical slash dotdot (joined dirBase path),none)
  missing : isDir (joined dirBase path) = false → ∀ fuel,
    ∃ message, chdir fuel isDir (some dirBase) path = some (dirBase,some message)

/-- A component and the slashes before it, of which there are `surplus+1`. -/
structure Piece where
  surplus : ℕ
  comp : List UInt8
  nonempty : comp ≠ []
  clean : ∀ a ∈ comp, a ≠ slash ∧ a ≠ 0

def comps (l : List Piece) : List (List UInt8) := l.map Piece.comp

def Piece.text (x : Piece) : List UInt8 := List.replicate (x.surplus+1) slash ++ x.comp

def source (l : List Piece) : List UInt8 := l.flatMap Piece.text

/-- How many slashes there are too many. -/
def extra (l : List Piece) : ℕ := (l.map Piece.surplus).sum

end Spec

section Pieces

theorem Piece.ext {x y : Piece} (h : x.surplus = y.surplus) (hc : x.comp = y.comp) : x = y := by
  cases x
  cases y
  cases h
  cases hc
  rfl

theorem mem_comps {l : List Piece} {c : List UInt8} (h : c ∈ comps l) : c ≠ [] ∧ slash ∉ c := by
  obtain ⟨x,-,rfl⟩ := List.mem_map.mp h
  exact ⟨x.nonempty,fun hmem => (x.clean slash hmem).1 rfl⟩

theorem length_source (l : List Piece) : (source l).length = (render slash (comps l)).length+extra l := by
  induction l with
  | nil => rfl
  | cons x l ih =>
    simp only [source,List.flatMap_cons,List.length_append,Piece.text,List.length_replicate,comps,List.map_cons,render_cons,
      List.length_cons,extra,List.sum_cons] at ih ⊢
    omega

theorem source_append (l l' : List Piece) : source (l ++ l') = source l ++ source l' := List.flatMap_append

theorem source_concat (l : List Piece) (x : Piece) : source (l ++ [x]) = source l ++ x.text := by simp [source]

theorem segments_source (l : List Piece) (n : ℕ) :
    segments slash (source l ++ List.replicate n slash) = comps l := by
  induction l with
  | nil =>
    rw [source,List.flatMap_nil,List.nil_append,← List.append_nil (List.replicate n slash),segments_replicate]
    rfl
  | cons x l ih =>
    have hx : slash ∉ x.comp := (mem_comps (l := [x]) (by simp [comps])).2
    have hcons : source (x :: l) ++ List.replicate n slash =
        List.replicate (x.surplus+1) slash ++ (x.comp ++ (source l ++ List.replicate n slash)) := by
      simp [source,Piece.text]
    rw [hcons,segments_replicate,comps,List.map_cons,← comps,← ih]
    -- what follows the component starts with a slash, if anything does
    cases hrest : source l ++ List.replicate n slash with
    | nil => simpa [segments,List.splitOn] using segments_self x.nonempty hx
    | cons a rest =>
      obtain rfl : a = slash := by
        cases l with
        | nil =>
          cases n with
          | zero => cases hrest
          | succ n => exact (List.cons.inj hrest).1.symm
        | cons y l => exact (List.cons.inj hrest).1.symm
      exact segments_append x.nonempty hx rest

/-- A path comes in pieces, up to a component at its start and slashes at its end. -/
theorem exists_source {path : List UInt8} (hzero : 0 ∉ path) :
    ∃ c l n, path = c ++ (source l ++ List.replicate n slash) ∧ ∀ a ∈ c, a ≠ slash ∧ a ≠ 0 := by
  induction path with
  | nil => exact ⟨[],[],0,rfl,by simp⟩
  | cons a path ih =>
    obtain ⟨c,l,n,rfl,hc⟩ := ih fun h => hzero (List.mem_cons_of_mem _ h)
    by_cases ha : a = slash
    · subst ha
      by_cases hne : c = []
      · subst hne
        cases l with
        | nil => exact ⟨[],[],n+1,rfl,hc⟩
        | cons x l => exact ⟨[],⟨x.surplus+1,x.comp,x.nonempty,x.clean⟩ :: l,n,rfl,hc⟩
      · exact ⟨[],⟨0,c,hne,hc⟩ :: l,n,by simp [source,Piece.text],by simp⟩
    · refine ⟨a :: c,l,n,rfl,fun d hd => ?_⟩
      obtain rfl | hd := List.mem_cons.mp hd
      · exact ⟨ha,fun h => hzero (h ▸ List.mem_cons_self)⟩
      · exact hc d hd

theorem exists_pieces {path : List UInt8} (hzero : 0 ∉ path) (hhead : path.head? = some slash) :
    ∃ l n, path = source l ++ List.replicate n slash ∧ (l = [] → 0 < n) := by
  obtain ⟨c,l,n,rfl,hc⟩ := exists_source hzero
  cases c with
  | nil =>
    refine ⟨l,n,rfl,?_⟩
    rintro rfl
    cases n with
    | zero => cases hhead
    | succ n => exact Nat.succ_pos n
  | cons a c => exact absurd (Option.some.inj hhead) (hc a List.mem_cons_self).1

end Pieces

end Blub.Boot.Dir
