import Blub.Lib.Fuel
import Blub.Stand.Cd9660Susp

/-! Which names `dirmatch` takes for a component of a path. -/
namespace Blub.Stand
open Blub.Bytes

/-- What a name may have behind the component: a version, a dot, or a dot with a version. -/
def Trailing (rest : List UInt8) : Prop :=
  rest = [] ∨ (∃ l, rest = isoSemi :: l) ∨ rest = [isoDot] ∨ ∃ l, rest = isoDot :: isoSemi :: l

/-- A component is a name up to what may be left out of it. -/
def NamedBy (same : UInt8 → UInt8 → Prop) (comp name : List UInt8) : Prop :=
  ∃ pre rest, name = pre ++ rest ∧ List.Forall₂ same comp pre ∧ Trailing rest

/-- A lower-case letter of the path stands for the upper-case letter, too. -/
def SameLetter (c d : UInt8) : Prop := c = d ∨ toupper c = d

/-- The component of a path that is looked for. -/
def firstComponent (path : List UInt8) : List UInt8 := path.takeWhile (· ≠ isoSlash)

/-- The component is the name when case is ignored, and only then. -/
def ByCaseOnly (comp name : List UInt8) : Prop := NamedBy SameLetter comp name ∧ ¬NamedBy (· = ·) comp name

section Names
variable {same : UInt8 → UInt8 → Prop} {comp name : List UInt8} {c d : UInt8}

theorem namedBy_nil : NamedBy same [] name ↔ Trailing name := by
  constructor
  · rintro ⟨pre,rest,rfl,hpre,hrest⟩
    cases hpre
    exact hrest
  · intro h
    exact ⟨[],name,rfl,.nil,h⟩

theorem namedBy_cons_nil : ¬NamedBy same (c :: comp) [] := by
  rintro ⟨pre,rest,heq,hpre,-⟩
  cases hpre
  cases heq

theorem namedBy_cons : NamedBy same (c :: comp) (d :: name) ↔ same c d ∧ NamedBy same comp name := by
  constructor
  · rintro ⟨pre,rest,heq,hpre,hrest⟩
    cases hpre with
    | cons hcd hl =>
      rw [List.cons_append,List.cons.injEq] at heq
      obtain ⟨rfl,rfl⟩ := heq
      exact ⟨hcd,_,_,rfl,hl,hrest⟩
  · rintro ⟨hcd,pre,rest,rfl,hpre,hrest⟩
    exact ⟨d :: pre,rest,rfl,.cons hcd hpre,hrest⟩

theorem remainder_iff (rest : List UInt8) : remainder rest = true ↔ Trailing rest := by
  rcases rest with - | ⟨c,- | ⟨d,l⟩⟩
  · simp [remainder,Trailing]
  · simp [remainder,Trailing]
  · simp [remainder,Trailing]

/-- The loop of `dirmatch`: byte by byte, or with the case ignored. -/
theorem dirmatchLoop_iff (fold : Bool) (path name : List UInt8) : dirmatchLoop fold path name = true ↔
    NamedBy (fun c d => c = d ∨ fold = true ∧ toupper c = d) (firstComponent path) name := by
  induction path generalizing name with
  | nil =>
    rw [show firstComponent [] = [] from rfl,namedBy_nil,← remainder_iff]
    cases name with
    | nil => simp [dirmatchLoop,remainder]
    | cons d name => rw [dirmatchLoop]
  | cons c path ih =>
    by_cases hslash : c = isoSlash
    · have hcomp : firstComponent (c :: path) = [] := by simp [firstComponent,hslash]
      rw [hcomp,namedBy_nil,← remainder_iff]
      cases name with
      | nil => simp [dirmatchLoop,remainder,hslash]
      | cons d name => rw [dirmatchLoop,if_pos hslash]
    · have hcomp : firstComponent (c :: path) = c :: firstComponent path := by simp [firstComponent,hslash]
      rw [hcomp]
      cases name with
      | nil => simpa [dirmatchLoop,hslash] using namedBy_cons_nil
      | cons d name =>
        rw [dirmatchLoop,if_neg hslash,namedBy_cons,← ih]
        by_cases hsame : c = d ∨ fold = true ∧ toupper c = d
        · rw [if_pos hsame]
          exact (and_iff_right hsame).symm
        · rw [if_neg hsame]
          simp only [hsame,false_and,Bool.false_eq_true]

/-- With the case ignored more names match. -/
theorem NamedBy.mono {same' : UInt8 → UInt8 → Prop} (h : NamedBy same comp name) (hsame : ∀ c d, same c d → same' c d) :
    NamedBy same' comp name := by
  obtain ⟨pre,rest,heq,hpre,hrest⟩ := h
  exact ⟨pre,rest,heq,hpre.imp hsame,hrest⟩

end Names

section Lookup
variable {v : IsoVolume} {ident : List UInt8}

def SuspTurn.mem : SuspTurn → IsoMem
  | .found m => m
  | .null m => m
  | .next _ m => m

attribute [local grind =] SuspTurn.mem

/-- The search stores into the buffer for continuations only. -/
theorem suspTurn_buf (s : SuspAt) (m : IsoMem) : (suspTurn v ident s m).mem.buf = m.buf := by
  unfold suspTurn
  dsimp only
  split_ifs <;> rfl

theorem suspLoop_buf {fuel : ℕ} {s : SuspAt} {m : IsoMem} {out : Option SuspAt × IsoMem}
    (h : suspLoop v ident fuel s m = some out) : out.2.buf = m.buf := by
  induction fuel generalizing s m with
  | zero => cases h
  | succ fuel ih =>
    have hbuf := @suspTurn_buf v ident s m
    rw [suspLoop] at h
    cases ht : suspTurn v ident s m with
    | next s' m' =>
      rw [ht] at h hbuf
      exact (ih h).trans hbuf
    | found m' => rw [ht] at h hbuf; cases h; exact hbuf
    | null m' => rw [ht] at h hbuf; cases h; exact hbuf

theorem suspLoop_mono (fuel : ℕ) (s : SuspAt) (m : IsoMem) (out : Option SuspAt × IsoMem)
    (h : suspLoop v ident fuel s m = some out) : suspLoop v ident (fuel+1) s m = some out := by
  induction fuel generalizing s m with
  | zero => cases h
  | succ fuel ih =>
    rw [suspLoop] at h ⊢
    cases ht : suspTurn v ident s m with
    | next s' m' =>
      rw [ht] at h
      exact ih s' m' h
    | found m' => rw [ht] at h; exact h
    | null m' => rw [ht] at h; exact h

theorem rripLookupName_buf {dp : ℤ} {lenskip fuel : ℕ} {m : IsoMem} {out : Option (List UInt8) × IsoMem}
    (h : rripLookupName v dp lenskip fuel m = some out) : out.2.buf = m.buf := by
  rw [rripLookupName,suspLookupRecord] at h
  cases hs : suspLoop v rripName fuel (suspStart v dp lenskip m) m with
  | none => rw [hs] at h; cases h
  | some r =>
    have hbuf := suspLoop_buf hs
    rw [hs] at h
    obtain ⟨r,m'⟩ := r
    cases r <;> (cases h; exact hbuf)

theorem rripLookupName_mono (dp : ℤ) (lenskip : ℕ) (m : IsoMem) (fuel : ℕ) (out : Option (List UInt8) × IsoMem)
    (h : rripLookupName v dp lenskip fuel m = some out) : rripLookupName v dp lenskip (fuel+1) m = some out := by
  rw [rripLookupName,suspLookupRecord] at h ⊢
  cases hs : suspLoop v rripName fuel (suspStart v dp lenskip m) m with
  | none => rw [hs] at h; cases h
  | some r => rwa [suspLoop_mono _ _ _ _ hs,← hs]

end Lookup

section Match
variable (v : IsoVolume) (path : List UInt8) (dp : ℤ) (useRrip : Bool) (lenskip : ℕ) (m : IsoMem)

/-- The Rock Ridge name that `rrip_lookup_name` finds for a record, on a volume that has such names. -/
def RockRidge (name : Option (List UInt8)) : Prop :=
  if useRrip then ∃ fuel m', rripLookupName v dp lenskip fuel m = some (name,m') else name = none

/-- The first component of the path is the Rock Ridge name, or else the name of the directory in upper or lower case. -/
def RightName (rock : Option (List UInt8)) : Prop :=
  match rock with
  | some name => NamedBy (· = ·) (firstComponent path) name
  | none => NamedBy SameLetter (firstComponent path) (isoName v dp m)

/-- `dirmatch` comes back, and is true for the right name. -/
def DirmatchRight : Prop := ∃ rock, RockRidge v dp useRrip lenskip m rock ∧
  ∃ fuel b m', dirmatch v path dp useRrip lenskip fuel m = some (b,m') ∧ (b = true ↔ RightName v path dp m rock)

/-- What `dirmatch` takes: case is ignored for Rock Ridge names. -/
def TakenName (rock : Option (List UInt8)) : Prop :=
  match rock with
  | some name => NamedBy SameLetter (firstComponent path) name
  | none => NamedBy (· = ·) (firstComponent path) (isoName v dp m)

variable {v path dp useRrip lenskip m} {rock : Option (List UInt8)}

theorem dirmatchLoop_taken {m' : IsoMem} (hbuf : m'.buf = m.buf) (rock : Option (List UInt8)) :
    dirmatchLoop rock.isSome path (rock.getD (isoName v dp m')) = true ↔ TakenName v path dp m rock := by
  rw [dirmatchLoop_iff]
  cases rock with
  | some name =>
    simp only [Option.isSome_some,true_and]
    rfl
  | none =>
    simp only [Option.isSome_none,Bool.false_eq_true,false_and,or_false,TakenName,Option.getD_none]
    simp only [isoName,IsoMem.recNameLen,IsoMem.num711,IsoMem.byteAt,hbuf]

/-- Where the lookup of the name comes back, so does `dirmatch`. -/
theorem dirmatch_some (h : RockRidge v dp useRrip lenskip m rock) : ∃ fuel b m',
    dirmatch v path dp useRrip lenskip fuel m = some (b,m') := by
  cases useRrip with
  | false => exact ⟨0,_,m,rfl⟩
  | true =>
    obtain ⟨fuel,m',hrun⟩ := h
    cases rock with
    | some name => exact ⟨fuel,_,m',by rw [dirmatch,if_pos rfl,hrun]⟩
    | none => exact ⟨fuel,_,m',by rw [dirmatch,if_pos rfl,hrun]⟩

theorem dirmatch_value (h : RockRidge v dp useRrip lenskip m rock) {fuel : ℕ} {b : Bool} {m' : IsoMem}
    (hrun : dirmatch v path dp useRrip lenskip fuel m = some (b,m')) : b = true ↔ TakenName v path dp m rock := by
  cases useRrip with
  | false =>
    cases h
    cases hrun
    exact dirmatchLoop_taken rfl none
  | true =>
    obtain ⟨fuel₀,m₀,hrun₀⟩ := h
    rw [dirmatch,if_pos rfl] at hrun
    cases hlook : rripLookupName v dp lenskip fuel m with
    | none => rw [hlook] at hrun; cases hrun
    | some out =>
      have hsame := Fuel.unique (rripLookupName_mono dp lenskip m) hlook hrun₀
      have hbuf := rripLookupName_buf hrun₀
      subst hsame
      rw [hlook] at hrun
      cases rock with
      | some name => cases hrun; exact dirmatchLoop_taken hbuf (some name)
      | none => cases hrun; exact dirmatchLoop_taken hbuf none

/-- The right name and the one that is taken agree unless they differ by case only. -/
theorem right_iff_taken (rock : Option (List UInt8)) : (TakenName v path dp m rock ↔ RightName v path dp m rock) ↔
    ¬ByCaseOnly (firstComponent path) (rock.getD (isoName v dp m)) := by
  have hmono : ∀ name, NamedBy (· = ·) (firstComponent path) name → NamedBy SameLetter (firstComponent path) name :=
    fun name h => h.mono fun c d => Or.inl
  cases rock with
  | some name =>
    have := hmono name
    simp only [TakenName,RightName,ByCaseOnly,Option.getD_some]
    tauto
  | none =>
    have := hmono (isoName v dp m)
    simp only [TakenName,RightName,ByCaseOnly,Option.getD_none]
    tauto

variable (v path dp useRrip lenskip m)

/-- `dirmatch` is right exactly where the name is found and the component is not the same but for its case. -/
theorem dirmatch_right_iff : DirmatchRight v path dp useRrip lenskip m ↔
    ∃ rock, RockRidge v dp useRrip lenskip m rock ∧ ¬ByCaseOnly (firstComponent path) (rock.getD (isoName v dp m)) := by
  constructor
  · rintro ⟨rock,hrock,fuel,b,m',hrun,hright⟩
    exact ⟨rock,hrock,(right_iff_taken rock).mp ((dirmatch_value hrock hrun).symm.trans hright)⟩
  · rintro ⟨rock,hrock,hcase⟩
    obtain ⟨fuel,b,m',hrun⟩ := @dirmatch_some v path dp useRrip lenskip m rock hrock
    exact ⟨rock,hrock,fuel,b,m',hrun,(dirmatch_value hrock hrun).trans ((right_iff_taken rock).mpr hcase)⟩

end Match

/-- A record with the name A and without fields. -/
def bareRecord : List UInt8 := 34 :: List.replicate 31 0 ++ [1,65]

/-- The name A of a directory is not found as a. -/
theorem dirmatch_misses_case : ¬DirmatchRight blankVolume [97] 0 false 0 (recordMem bareRecord) := by
  rintro ⟨rock,hrock,fuel,b,m',hrun,hright⟩
  cases hrock
  have hname : isoName blankVolume 0 (recordMem bareRecord) = [65] := by decide
  have hb : b = false := by
    cases hrun
    rw [hname]
    decide
  have hmatch : RightName blankVolume [97] 0 (recordMem bareRecord) none := by
    rw [RightName,hname]
    exact ⟨[65],[],rfl,.cons (.inr (by decide)) .nil,.inl rfl⟩
  rw [hb] at hright
  exact absurd (hright.mpr hmatch) Bool.false_ne_true

end Blub.Stand
