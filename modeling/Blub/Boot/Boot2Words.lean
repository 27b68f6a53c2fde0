import Blub.Boot.Boot2Parse
import Mathlib.Data.List.GetD

/-! The words of the command lines of `boot2.c`: how they should be written, and what `parse` makes of one, from the disk,
the slice and the partition in front of a path to the word as a whole. -/
namespace Blub.Boot.Boot2Parse

section Grammar

/-- The characters of a selection `[d:]xx(u,[s,]p)`. -/
structure Selection where
  drive : Option UInt8
  type : ℕ
  unit : UInt8
  slice : Option UInt8
  part : UInt8

def devName (i : ℕ) : List UInt8 := [(devNm.getD i (0,0)).1,(devNm.getD i (0,0)).2]

def head (drive : Option UInt8) (type : ℕ) : List UInt8 :=
  drive.toList.flatMap (fun c => [c,chColon]) ++ devName type ++ [chParen]

def Selection.tail (x : Selection) : List UInt8 :=
  [x.unit,chComma] ++ x.slice.toList.flatMap (fun c => [c,chComma]) ++ [x.part,chClose]

def Selection.text (x : Selection) : List UInt8 := head x.drive x.type ++ x.tail

/-- A drive as it should be written, and one that `parse` takes. A word with a minus in front is one of options. -/
def DriveDigit (c : UInt8) : Prop := 48 ≤ c.toNat ∧ c.toNat ≤ 57
def DriveChar (c : UInt8) : Prop := (c.toNat ≤ 57 ∨ 128 ≤ c.toNat) ∧ c ≠ chMinus

instance (c : UInt8) : Decidable (DriveChar c) := inferInstanceAs (Decidable (_ ∧ _))

def UnitDigit (c : UInt8) : Prop := 48 ≤ c.toNat ∧ c.toNat ≤ 57
def SliceDigit (c : UInt8) : Prop := 48 ≤ c.toNat ∧ c.toNat ≤ 52
def SliceChar (c : UInt8) : Prop := 47 ≤ c.toNat ∧ c.toNat ≤ 52
def PartLetter (c : UInt8) : Prop := 97 ≤ c.toNat ∧ c.toNat ≤ 104

instance (c : UInt8) : Decidable (UnitDigit c) := inferInstanceAs (Decidable (_ ∧ _))
instance (c : UInt8) : Decidable (SliceChar c) := inferInstanceAs (Decidable (_ ∧ _))
instance (c : UInt8) : Decidable (PartLetter c) := inferInstanceAs (Decidable (_ ∧ _))

structure Selection.Written (x : Selection) : Prop where
  drive : ∀ c ∈ x.drive, DriveDigit c
  type : x.type < 3
  unit : UnitDigit x.unit
  slice : ∀ c ∈ x.slice, SliceDigit c
  part : PartLetter x.part

structure Selection.Loose (x : Selection) : Prop where
  drive : ∀ c ∈ x.drive, DriveChar c
  type : x.type < 3
  unit : UnitDigit x.unit
  slice : ∀ c ∈ x.slice, SliceChar c
  part : PartLetter x.part

/-- The disk that is written. -/
def Selection.dsk (x : Selection) (wholeDiskSlice : ℕ) : Dsk where
  drive := (if x.type ≤ typeMaxhard then drvHard else 0)+((x.drive.getD x.unit).toNat-48)
  type := x.type
  unit := x.unit.toNat-48
  slice := (x.slice.map fun c => c.toNat-48+1).getD wholeDiskSlice
  part := x.part.toNat-97

def drvOf (drive : Option UInt8) : ℤ := (drive.map fun c => char c-48).getD (-1)

/-- The disk that `parse` sets. -/
def Selection.sets (x : Selection) (wholeDiskSlice : ℕ) : Dsk where
  drive := (((if x.type ≤ typeMaxhard then drvHard else 0)+
    (if drvOf x.drive = -1 then (unitOf x.unit : ℤ) else drvOf x.drive))%2^32).toNat
  type := x.type
  unit := unitOf x.unit
  slice := (x.slice.map sliceOf).getD wholeDiskSlice
  part := partOf x.part

def Options (w : List UInt8) : Prop := ∃ l, w = chMinus :: l ∧ ∀ c ∈ l, (optstr.lookup c).isSome = true

/-- A word that is a path as a whole. -/
def Plain (w : List UInt8) : Prop := ∃ c l, w = c :: l ∧ c ≠ chMinus ∧ chParen ∉ l

def WellFormed (w : List UInt8) : Prop :=
  Options w ∨ Plain w ∨ ∃ x : Selection, ∃ path, x.Written ∧ w = x.text ++ path

def Accepted (w : List UInt8) : Prop := Options w ∨ Plain w ∨ ∃ x : Selection, ∃ path, x.Loose ∧ w = x.text ++ path

theorem written_loose {x : Selection} (h : x.Written) : x.Loose := by
  refine ⟨fun c hc => ?_,h.type,h.unit,fun c hc => ?_,h.part⟩
  · obtain ⟨hlow,hhigh⟩ := h.drive c hc
    refine ⟨Or.inl hhigh,?_⟩
    rintro rfl
    exact absurd hlow (by decide)
  · obtain ⟨hlow,hhigh⟩ := h.slice c hc
    exact ⟨by omega,hhigh⟩

theorem wellFormed_accepted {w : List UInt8} (h : WellFormed w) : Accepted w := by
  obtain h | h | ⟨x,path,hx,h⟩ := h
  · exact Or.inl h
  · exact Or.inr (Or.inl h)
  · exact Or.inr (Or.inr ⟨x,path,written_loose hx,h⟩)

theorem unitOf_le (c : UInt8) : unitOf c ≤ 9 ↔ UnitDigit c := by
  have hlt := c.toNat_lt
  rw [unitOf,char,UnitDigit]
  split_ifs <;> omega

theorem sliceOf_le (c : UInt8) : sliceOf c ≤ ndospart+1 ↔ SliceChar c := by
  have hlt := c.toNat_lt
  rw [sliceOf,char,SliceChar,ndospart]
  split_ifs <;> omega

theorem partOf_le (c : UInt8) : partOf c ≤ 7 ↔ PartLetter c := by
  have hlt := c.toNat_lt
  rw [partOf,char,PartLetter]
  split_ifs <;> omega

theorem drive_le (c : UInt8) : char c-48 ≤ 9 ↔ c.toNat ≤ 57 ∨ 128 ≤ c.toNat := by
  have hlt := c.toNat_lt
  rw [char]
  split_ifs <;> omega

theorem sets_written {x : Selection} (h : x.Written) (wholeDiskSlice : ℕ) :
    x.sets wholeDiskSlice = x.dsk wholeDiskSlice := by
  obtain ⟨drive,type,unit,slice,part⟩ := x
  obtain ⟨hdrive,-,⟨hunit,hunit'⟩,hslice,hpart,hpart'⟩ := h
  dsimp only at hdrive hunit hunit' hslice hpart hpart'
  have hu : unitOf unit = unit.toNat-48 := by
    rw [unitOf,char,if_pos (by omega)]
    omega
  have hp : partOf part = part.toNat-97 := by
    rw [partOf,char,if_pos (by omega)]
    omega
  have hs : (slice.map sliceOf).getD wholeDiskSlice = (slice.map fun c => c.toNat-48+1).getD wholeDiskSlice := by
    cases slice with
    | none => rfl
    | some c =>
      obtain ⟨hlow,hhigh⟩ := hslice c rfl
      rw [Option.map_some,Option.map_some,Option.getD_some,Option.getD_some,sliceOf,char,if_pos (by omega)]
      omega
  have hd : (if drvOf drive = -1 then (unitOf unit : ℤ) else drvOf drive) = ((drive.getD unit).toNat-48 : ℕ) := by
    cases drive with
    | none =>
      have hnone : drvOf none = -1 := rfl
      rw [if_pos hnone,hu,Option.getD_none]
    | some c =>
      obtain ⟨hlow,hhigh⟩ := hdrive c rfl
      have hdrv : drvOf (some c) = (c.toNat-48 : ℕ) := by
        rw [drvOf,Option.map_some,Option.getD_some,char,if_pos (by omega)]
        omega
      rw [hdrv,if_neg (by omega),Option.getD_some]
  have hlt : (drive.getD unit).toNat-48 < 10 := by
    cases drive with
    | none =>
      rw [Option.getD_none]
      omega
    | some c =>
      obtain ⟨hlow,hhigh⟩ := hdrive c rfl
      rw [Option.getD_some]
      omega
  rw [Selection.sets,Selection.dsk]
  dsimp only
  rw [hd,hu,hp,hs,Dsk.mk.injEq]
  refine ⟨?_,rfl,rfl,rfl,rfl⟩
  rw [typeMaxhard,drvHard]
  split_ifs <;> omega

end Grammar

section Fields
variable {wholeDiskSlice : ℕ} {d : Dsk} {drv : ℤ} {l rest : List UInt8}

/-- What is rejected behind a device leaves the selection as it is, if it sets it to what it is. -/
def KeepsPart (d : Dsk) (a : List UInt8) : Prop := a[1]? = some chClose → d.part = partOf (a.headD 0)

def KeepsSlice (wholeDiskSlice : ℕ) (d : Dsk) (a : List UInt8) : Prop :=
  if a[1]? = some chComma then d.slice = sliceOf (a.headD 0) ∧ (SliceChar (a.headD 0) → KeepsPart d (a.drop 2))
  else d.slice = wholeDiskSlice ∧ KeepsPart d a

def KeepsFields (wholeDiskSlice : ℕ) (d : Dsk) (a : List UInt8) : Prop :=
  d.unit = unitOf (a.headD 0) ∧
    (a[1]? = some chComma → UnitDigit (a.headD 0) → KeepsSlice wholeDiskSlice d (a.drop 2))

/-- A word that breaks off where the next character is looked at together with the one behind it. -/
def BreaksOff (l : List UInt8) : Prop :=
  l = [] ∨ ∃ u, UnitDigit u ∧ (l = [u,chComma] ∨ ∃ s, SliceChar s ∧ l = [u,chComma,s,chComma])

/-- The disk, when the partition is taken. -/
def Dsk.finish (d : Dsk) (drv : ℤ) (p : UInt8) : Dsk :=
  {d with
    part := partOf p
    drive := (((if d.type ≤ typeMaxhard then drvHard else 0)+(if drv = -1 then (d.unit : ℤ) else drv))%2^32).toNat}

theorem partition_cons (c x : UInt8) (a : List UInt8) : partition d drv (c :: x :: a) =
    if x ≠ chClose then some (false,d,c :: x :: a)
    else if partOf c > 7 then some (false,{d with part := partOf c},c :: x :: a)
    else some (true,d.finish drv c,a) := rfl

theorem sliced_cons (c x : UInt8) (a : List UInt8) : sliced wholeDiskSlice d drv (c :: x :: a) =
    if x = chComma then
      if sliceOf c > ndospart+1 then some (false,{d with slice := sliceOf c},c :: x :: a)
      else partition {d with slice := sliceOf c} drv a
    else partition {d with slice := wholeDiskSlice} drv (c :: x :: a) := rfl

theorem fields_cons (c x : UInt8) (a : List UInt8) : fields wholeDiskSlice d drv (c :: x :: a) =
    if x ≠ chComma ∨ unitOf c > 9 then some (false,{d with unit := unitOf c},c :: x :: a)
    else sliced wholeDiskSlice {d with unit := unitOf c} drv a := rfl

/-- What a rejected partition leaves. -/
def leave (d : Dsk) (a : List UInt8) : Dsk :=
  if a[1]? = some chClose then {d with part := partOf (a.headD 0)} else d

/-- The partition is accepted, or the word breaks off at the end of the buffer, or it is rejected. -/
theorem partition_cases (hl : 0 ∉ l) :
    (∃ p path, l = p :: chClose :: path ∧ PartLetter p) ∨ (l = [] ∧ rest = []) ∨
      ∃ a, partition d drv (l ++ 0 :: rest) = some (false,leave d (l ++ 0 :: rest),a) := by
  have hcons : ∀ (c x : UInt8) (a : List UInt8), (x = chClose → ¬ PartLetter c) →
      ∃ a', partition d drv (c :: x :: a) = some (false,leave d (c :: x :: a),a') := by
    intro c x a hbad
    rw [partition_cons]
    by_cases hx : x = chClose
    · subst hx
      have hp : partOf c > 7 := Nat.lt_of_not_le fun h => hbad rfl ((partOf_le c).mp h)
      rw [if_neg (not_not.mpr rfl),if_pos hp]
      exact ⟨_,rfl⟩
    · have hleave : leave d (c :: x :: a) = d := if_neg fun h => hx (Option.some_inj.mp h)
      rw [if_pos hx,hleave]
      exact ⟨_,rfl⟩
  match l with
  | [] =>
    cases rest with
    | nil => exact Or.inr (Or.inl ⟨rfl,rfl⟩)
    | cons r rest => exact Or.inr (Or.inr (hcons 0 r rest fun _ => by decide))
  | [p] => exact Or.inr (Or.inr (hcons p 0 rest fun h => by cases h))
  | p :: x :: path =>
    by_cases h : x = chClose ∧ PartLetter p
    · exact Or.inl ⟨p,path,by rw [h.1],h.2⟩
    · exact Or.inr (Or.inr (hcons p x (path ++ 0 :: rest) fun hx hp => h ⟨hx,hp⟩))

theorem partition_accepts {p : UInt8} (hp : PartLetter p) (path : List UInt8) :
    partition d drv (p :: chClose :: path) = some (true,d.finish drv p,path) := by
  rw [partition_cons,if_neg (not_not.mpr rfl),if_neg (Nat.not_lt.mpr ((partOf_le p).mpr hp))]

theorem set_eq_iff {t u v : ℕ} : ({d with type := t, unit := u, slice := v} : Dsk) = d ↔
    d.type = t ∧ d.unit = u ∧ d.slice = v := by
  obtain ⟨drive,type,unit,slice,part⟩ := d
  simp [eq_comm]

theorem leave_eq_iff {t u v : ℕ} {a : List UInt8} : leave {d with type := t, unit := u, slice := v} a = d ↔
    d.type = t ∧ d.unit = u ∧ d.slice = v ∧ KeepsPart d a := by
  obtain ⟨drive,type,unit,slice,part⟩ := d
  rw [leave,KeepsPart]
  split_ifs with h
  · simp [h,eq_comm]
  · simp [h,eq_comm]

theorem keepsSlice_comma (c : UInt8) (a : List UInt8) : KeepsSlice wholeDiskSlice d (c :: chComma :: a) ↔
    d.slice = sliceOf c ∧ (SliceChar c → KeepsPart d a) := by
  have hcomma : (c :: chComma :: a)[1]? = some chComma := rfl
  rw [KeepsSlice,if_pos hcomma]
  rfl

theorem sliced_cases {t u : ℕ} (hl : 0 ∉ l) :
    (∃ slice : Option UInt8, ∃ p path, (∀ c ∈ slice, SliceChar c) ∧ PartLetter p ∧
        l = slice.toList.flatMap (fun c => [c,chComma]) ++ [p,chClose] ++ path) ∨
      (rest = [] ∧ (l = [] ∨ ∃ s, SliceChar s ∧ l = [s,chComma])) ∨
      ∃ d' a, sliced wholeDiskSlice {d with type := t, unit := u} drv (l ++ 0 :: rest) = some (false,d',a) ∧
        (d' = d ↔ d.type = t ∧ d.unit = u ∧ KeepsSlice wholeDiskSlice d (l ++ 0 :: rest)) := by
  have hbad : ∀ (c : UInt8) (a : List UInt8), ¬ SliceChar c →
      ∃ d' a', sliced wholeDiskSlice {d with type := t, unit := u} drv (c :: chComma :: a) = some (false,d',a') ∧
        (d' = d ↔ d.type = t ∧ d.unit = u ∧ KeepsSlice wholeDiskSlice d (c :: chComma :: a)) := by
    intro c a hc
    rw [sliced_cons,if_pos rfl,if_pos (Nat.lt_of_not_le fun h => hc ((sliceOf_le c).mp h))]
    refine ⟨_,_,rfl,?_⟩
    have hpart : SliceChar c → KeepsPart d a := fun h => absurd h hc
    rw [keepsSlice_comma,and_iff_left hpart]
    exact @set_eq_iff d t u (sliceOf c)
  by_cases hcomma : (l ++ 0 :: rest)[1]? = some chComma
  · match l with
    | [] =>
      cases rest with
      | nil => cases hcomma
      | cons r rest =>
        obtain rfl := Option.some_inj.mp hcomma
        exact Or.inr (Or.inr (hbad 0 rest (by decide)))
    | [s] => exact absurd (Option.some_inj.mp hcomma) (by decide)
    | s :: x :: n =>
      obtain rfl := Option.some_inj.mp hcomma
      by_cases hs : SliceChar s
      · have hn : 0 ∉ n := fun h => hl (List.mem_cons_of_mem _ (List.mem_cons_of_mem _ h))
        have hsliced : sliced wholeDiskSlice {d with type := t, unit := u} drv ((s :: chComma :: n) ++ 0 :: rest) =
            partition {d with type := t, unit := u, slice := sliceOf s} drv (n ++ 0 :: rest) := by
          rw [List.cons_append,List.cons_append,sliced_cons,if_pos rfl,
            if_neg (Nat.not_lt.mpr ((sliceOf_le s).mpr hs))]
        obtain ⟨p,path,rfl,hp⟩ | ⟨rfl,hrest⟩ | ⟨a,hpart⟩ :=
          @partition_cases {d with type := t, unit := u, slice := sliceOf s} drv n rest hn
        · exact Or.inl ⟨some s,p,path,by simpa using hs,hp,rfl⟩
        · exact Or.inr (Or.inl ⟨hrest,Or.inr ⟨s,hs,rfl⟩⟩)
        · refine Or.inr (Or.inr ⟨_,a,hsliced.trans hpart,?_⟩)
          rw [List.cons_append,List.cons_append,keepsSlice_comma,forall_prop_of_true hs]
          exact leave_eq_iff
      · exact Or.inr (Or.inr (hbad s (n ++ 0 :: rest) hs))
  · have hsliced : ∀ c x a, l ++ 0 :: rest = c :: x :: a →
        sliced wholeDiskSlice {d with type := t, unit := u} drv (l ++ 0 :: rest) =
          partition {d with type := t, unit := u, slice := wholeDiskSlice} drv (l ++ 0 :: rest) := by
      intro c x a ha
      rw [ha] at hcomma ⊢
      exact if_neg fun h => hcomma (congrArg some h)
    have htwo : (l = [] ∧ rest = []) ∨ ∃ c x a, l ++ 0 :: rest = c :: x :: a := by
      match l, rest with
      | [], [] => exact Or.inl ⟨rfl,rfl⟩
      | [], r :: rest => exact Or.inr ⟨_,_,_,rfl⟩
      | [c], rest => exact Or.inr ⟨_,_,_,rfl⟩
      | c :: x :: a, rest => exact Or.inr ⟨_,_,_,rfl⟩
    obtain ⟨hnil,hrest⟩ | ⟨c,x,a,ha⟩ := htwo
    · exact Or.inr (Or.inl ⟨hrest,Or.inl hnil⟩)
    · obtain ⟨p,path,hp,hletter⟩ | ⟨hnil,hrest⟩ | ⟨a',hpart⟩ :=
        @partition_cases {d with type := t, unit := u, slice := wholeDiskSlice} drv l rest hl
      · exact Or.inl ⟨none,p,path,by simp,hletter,hp⟩
      · exact Or.inr (Or.inl ⟨hrest,Or.inl hnil⟩)
      · refine Or.inr (Or.inr ⟨_,a',(hsliced c x a ha).trans hpart,?_⟩)
        rw [KeepsSlice,if_neg hcomma]
        exact leave_eq_iff

theorem fields_cases {t : ℕ} (hl : 0 ∉ l) :
    (∃ (u : UInt8) (slice : Option UInt8) (p : UInt8) (path : List UInt8), UnitDigit u ∧ (∀ c ∈ slice, SliceChar c) ∧
        PartLetter p ∧ l = u :: chComma :: (slice.toList.flatMap (fun c => [c,chComma]) ++ [p,chClose] ++ path)) ∨
      (rest = [] ∧ BreaksOff l) ∨
      ∃ d' a, fields wholeDiskSlice {d with type := t} drv (l ++ 0 :: rest) = some (false,d',a) ∧
        (d' = d ↔ d.type = t ∧ KeepsFields wholeDiskSlice d (l ++ 0 :: rest)) := by
  have hbad : ∀ (c x : UInt8) (a : List UInt8), ¬ (x = chComma ∧ UnitDigit c) →
      ∃ d' a', fields wholeDiskSlice {d with type := t} drv (c :: x :: a) = some (false,d',a') ∧
        (d' = d ↔ d.type = t ∧ KeepsFields wholeDiskSlice d (c :: x :: a)) := by
    intro c x a hc
    have hno : x ≠ chComma ∨ unitOf c > 9 := by
      by_contra h
      rw [not_or,not_not,Nat.not_lt,unitOf_le] at h
      exact hc h
    rw [fields_cons,if_pos hno]
    refine ⟨_,_,rfl,?_⟩
    have hrest : (c :: x :: a)[1]? = some chComma → UnitDigit c → KeepsSlice wholeDiskSlice d ((c :: x :: a).drop 2) :=
      fun hx hu => absurd ⟨Option.some_inj.mp hx,hu⟩ hc
    rw [KeepsFields,List.headD_cons,and_iff_left hrest]
    exact (@set_eq_iff d t (unitOf c) d.slice).trans (by simp)
  match l with
  | [] =>
    cases rest with
    | nil => exact Or.inr (Or.inl ⟨rfl,Or.inl rfl⟩)
    | cons r rest => exact Or.inr (Or.inr (hbad 0 r rest fun h => absurd h.2 (by decide)))
  | [c] => exact Or.inr (Or.inr (hbad c 0 rest fun h => absurd h.1 (by decide)))
  | c :: x :: m =>
    by_cases hok : x = chComma ∧ UnitDigit c
    · obtain ⟨rfl,hu⟩ := hok
      have hm : 0 ∉ m := fun h => hl (List.mem_cons_of_mem _ (List.mem_cons_of_mem _ h))
      have hfields : fields wholeDiskSlice {d with type := t} drv ((c :: chComma :: m) ++ 0 :: rest) =
          sliced wholeDiskSlice {d with type := t, unit := unitOf c} drv (m ++ 0 :: rest) := by
        rw [List.cons_append,List.cons_append,fields_cons,if_neg]
        rw [not_or,not_not,Nat.not_lt,unitOf_le]
        exact ⟨rfl,hu⟩
      obtain ⟨slice,p,path,hslice,hp,hm⟩ | ⟨hrest,hm⟩ | ⟨d',a,hsliced,hd'⟩ :=
        @sliced_cases wholeDiskSlice d drv m rest t (unitOf c) hm
      · exact Or.inl ⟨c,slice,p,path,hu,hslice,hp,by rw [hm]⟩
      · refine Or.inr (Or.inl ⟨hrest,Or.inr ⟨c,hu,?_⟩⟩)
        obtain rfl | ⟨s,hs,rfl⟩ := hm
        · exact Or.inl rfl
        · exact Or.inr ⟨s,hs,rfl⟩
      · refine Or.inr (Or.inr ⟨d',a,hfields.trans hsliced,?_⟩)
        rw [hd',KeepsFields]
        simp [hu]
    · exact Or.inr (Or.inr (hbad c x (m ++ 0 :: rest) hok))

end Fields

section Words
variable {wholeDiskSlice : ℕ} {d : Dsk} {drv : ℤ}

/-- A word, and the bytes of the buffer behind the 0 that ends it. -/
structure Word where
  bytes : List UInt8
  rest : List UInt8

/-- What `parse` makes of a word. -/
def wordStep (wholeDiskSlice : ℕ) (d : Dsk) (w : Word) : Option (Bool × Dsk) :=
  match w.bytes with
  | [] => some (true,d)
  | c :: l =>
    if c = chMinus then some (l.all fun c => (optstr.lookup c).isSome,d)
    else
      match l.findIdx? (· = chParen) with
      | none => some (true,d)
      | some q => (device wholeDiskSlice d (c :: l ++ 0 :: w.rest) (q+1)).map fun x => (x.1,x.2.1)

/-- A device word that breaks off at the very end of the buffer. -/
def Overruns (w : Word) : Prop := w.rest = [] ∧ ∃ (drive : Option UInt8) (t : ℕ) (l : List UInt8),
  (∀ c ∈ drive, DriveChar c) ∧ t < 3 ∧ BreaksOff l ∧ w.bytes = head drive t ++ l

/-- A rejected word leaves the selection as it is: it does not begin with a device, or sets everything that it does to what
it is. -/
def Keeps (wholeDiskSlice : ℕ) (d : Dsk) (w : Word) : Prop := ∀ (drive : Option UInt8) (t : ℕ) (l : List UInt8),
  (∀ c ∈ drive, DriveChar c) → t < 3 → w.bytes = head drive t ++ l →
    d.type = t ∧ KeepsFields wholeDiskSlice d (l ++ 0 :: w.rest)

attribute [local grind =] wordStep

theorem fields_accepts {x : Selection} (hx : x.Loose) (b : List UInt8) :
    fields wholeDiskSlice d drv (x.tail ++ b) = some (true,({d with
      unit := unitOf x.unit
      slice := (x.slice.map sliceOf).getD wholeDiskSlice} : Dsk).finish drv x.part,b) := by
  obtain ⟨drive,type,unit,slice,part⟩ := x
  obtain ⟨-,-,hunit,hslice,hpart⟩ := hx
  have hu : ¬ (chComma ≠ chComma ∨ unitOf unit > 9) := by
    rw [not_or,not_not,Nat.not_lt,unitOf_le]
    exact ⟨rfl,hunit⟩
  cases slice with
  | none =>
    have htail : (⟨drive,type,unit,none,part⟩ : Selection).tail ++ b = unit :: chComma :: part :: chClose :: b := rfl
    rw [htail,fields_cons,if_neg hu,sliced_cons,if_neg (by decide),partition_accepts hpart]
    rfl
  | some s =>
    have htail : (⟨drive,type,unit,some s,part⟩ : Selection).tail ++ b =
      unit :: chComma :: s :: chComma :: part :: chClose :: b := rfl
    rw [htail,fields_cons,if_neg hu,sliced_cons,if_pos rfl,if_neg (Nat.not_lt.mpr ((sliceOf_le s).mpr (hslice s rfl))),
      partition_accepts hpart]
    rfl

theorem fields_breaksOff {l : List UInt8} (h : BreaksOff l) : fields wholeDiskSlice d drv (l ++ [0]) = none := by
  have hu : ∀ u, UnitDigit u → ¬ (chComma ≠ chComma ∨ unitOf u > 9) := by
    intro u hunit
    rw [not_or,not_not,Nat.not_lt,unitOf_le]
    exact ⟨rfl,hunit⟩
  obtain rfl | ⟨u,hunit,rfl | ⟨s,hs,rfl⟩⟩ := h
  · rfl
  · rw [List.cons_append,List.cons_append,fields_cons,if_neg (hu u hunit)]
    rfl
  · rw [List.cons_append,List.cons_append,List.cons_append,List.cons_append,fields_cons,if_neg (hu u hunit),sliced_cons,
      if_pos rfl,if_neg (Nat.not_lt.mpr ((sliceOf_le s).mpr hs))]
    rfl

theorem named_type {t : ℕ} (ht : t < 3) (l : List UInt8) (pre : List UInt8) :
    named wholeDiskSlice d drv (pre ++ devName t ++ chParen :: l) pre.length (pre.length+2) =
      fields wholeDiskSlice {d with type := t} drv l := by
  have hget : ∀ j, (pre ++ devName t ++ chParen :: l)[pre.length+j]? = (devName t ++ chParen :: l)[j]? := by
    intro j
    rw [List.append_assoc,List.getElem?_append_right (Nat.le_add_right _ _),Nat.add_sub_cancel_left]
  have hdrop : (pre ++ devName t ++ chParen :: l).drop (pre.length+3) = l := by
    rw [List.append_assoc,List.drop_append,List.drop_of_length_le (by omega),Nat.add_sub_cancel_left]
    rfl
  have h₀ := hget 0
  rw [Nat.add_zero] at h₀
  rw [named,if_neg (not_not.mpr rfl),h₀,hget 1,hdrop]
  obtain rfl | rfl | rfl : t = 0 ∨ t = 1 ∨ t = 2 := by omega
  all_goals rfl

theorem device_cons (c x : UInt8) (t : List UInt8) (q : ℕ) : device wholeDiskSlice d (c :: x :: t) q =
    if x = chColon then
      if char c-48 > 9 then some (false,d,c :: x :: t) else named wholeDiskSlice d (char c-48) (c :: x :: t) 2 q
    else named wholeDiskSlice d (-1) (c :: x :: t) 0 q := rfl

theorem device_head {drive : Option UInt8} {t : ℕ} (hdrive : ∀ c ∈ drive, DriveChar c) (ht : t < 3) (l : List UInt8) :
    device wholeDiskSlice d (head drive t ++ l) ((head drive t).length-1) =
      fields wholeDiskSlice {d with type := t} (drvOf drive) l := by
  cases drive with
  | none =>
    rw [← named_type ht l []]
    obtain rfl | rfl | rfl : t = 0 ∨ t = 1 ∨ t = 2 := by omega
    all_goals rfl
  | some c =>
    have hc : ¬ char c-48 > 9 := not_lt.mpr ((drive_le c).mpr (hdrive c rfl).1)
    have hnamed := @named_type wholeDiskSlice d (char c-48) t ht l [c,chColon]
    have hdrv : drvOf (some c) = char c-48 := rfl
    rw [hdrv,← hnamed]
    have hword : head (some c) t ++ l = [c,chColon] ++ devName t ++ chParen :: l := by
      rw [head,List.append_assoc]
      rfl
    rw [hword,List.append_assoc,List.cons_append,List.cons_append,device_cons,if_pos rfl,if_neg hc]
    cases t <;> rfl

theorem head_find {drive : Option UInt8} {t : ℕ} (hdrive : ∀ c ∈ drive, DriveChar c) (ht : t < 3) (l : List UInt8) :
    ∃ c m, head drive t ++ l = c :: m ∧ c ≠ chMinus ∧ m.findIdx? (· = chParen) = some ((head drive t).length-2) := by
  obtain rfl | rfl | rfl : t = 0 ∨ t = 1 ∨ t = 2 := by omega
  all_goals cases drive with
    | none => exact ⟨_,_,rfl,by decide,rfl⟩
    | some c => exact ⟨c,_,rfl,(hdrive c rfl).2,rfl⟩

/-- A word that begins with a device is judged by what is behind it. -/
theorem step_head {drive : Option UInt8} {t : ℕ} (hdrive : ∀ c ∈ drive, DriveChar c) (ht : t < 3) {l rest : List UInt8} :
    wordStep wholeDiskSlice d ⟨head drive t ++ l,rest⟩ =
      (fields wholeDiskSlice {d with type := t} (drvOf drive) (l ++ 0 :: rest)).map fun x => (x.1,x.2.1) := by
  obtain ⟨c,m,hword,hminus,hfind⟩ := head_find hdrive ht l
  have hlen : (head drive t).length-2+1 = (head drive t).length-1 := by
    cases drive <;> simp [head,devName]
  rw [wordStep]
  dsimp only
  rw [hword]
  dsimp only
  rw [if_neg hminus,hfind]
  dsimp only
  rw [hlen,← hword,List.append_assoc,device_head hdrive ht]

theorem head_injective {drive drive' : Option UInt8} {t t' : ℕ} (ht : t < 3) (ht' : t' < 3) {l l' : List UInt8}
    (h : head drive t ++ l = head drive' t' ++ l') : drive = drive' ∧ t = t' ∧ l = l' := by
  obtain rfl | rfl | rfl : t = 0 ∨ t = 1 ∨ t = 2 := by omega
  all_goals obtain rfl | rfl | rfl : t' = 0 ∨ t' = 1 ∨ t' = 2 := by omega
  all_goals cases drive <;> cases drive' <;> simp_all [head,devName,devNm,chColon,chParen]

theorem text_step {x : Selection} (hx : x.Loose) (path rest : List UInt8) :
    wordStep wholeDiskSlice d ⟨x.text ++ path,rest⟩ = some (true,x.sets wholeDiskSlice) := by
  rw [Selection.text,List.append_assoc,step_head hx.drive hx.type,List.append_assoc,fields_accepts hx]
  rfl

theorem options_step {w : List UInt8} (h : Options w) (rest : List UInt8) :
    wordStep wholeDiskSlice d ⟨w,rest⟩ = some (true,d) := by
  obtain ⟨l,rfl,hl⟩ := h
  rw [wordStep]
  dsimp only
  rw [if_pos rfl,List.all_eq_true.mpr hl]

theorem plain_step {w : List UInt8} (h : Plain w) (rest : List UInt8) :
    wordStep wholeDiskSlice d ⟨w,rest⟩ = some (true,d) := by
  obtain ⟨c,l,rfl,hc,hl⟩ := h
  have hfind : l.findIdx? (· = chParen) = none := by
    rw [List.findIdx?_eq_none_iff]
    intro x hx
    exact decide_eq_false fun h => hl (h ▸ hx)
  rw [wordStep]
  dsimp only
  rw [if_neg hc,hfind]

theorem accepted_step {w : List UInt8} (h : Accepted w) (rest : List UInt8) :
    ∃ d', wordStep wholeDiskSlice d ⟨w,rest⟩ = some (true,d') := by
  obtain h | h | ⟨x,path,hx,rfl⟩ := h
  · exact ⟨d,options_step h rest⟩
  · exact ⟨d,plain_step h rest⟩
  · exact ⟨_,text_step hx path rest⟩

theorem overruns_step {w : Word} (h : Overruns w) : wordStep wholeDiskSlice d w = none := by
  obtain ⟨bytes,rest⟩ := w
  obtain ⟨rfl,drive,t,l,hdrive,ht,hl,hw⟩ := h
  obtain rfl : bytes = head drive t ++ l := hw
  rw [step_head hdrive ht,fields_breaksOff hl]
  rfl

theorem devNm_find {x y : UInt8} : devNm.findIdx? (· = (x,y)) = none ∨ ∃ t < 3, devName t = [x,y] := by
  cases h : devNm.findIdx? (· = (x,y)) with
  | none => exact Or.inl rfl
  | some t =>
    obtain ⟨ht,heq,-⟩ := List.findIdx?_eq_some_iff_getElem.mp h
    refine Or.inr ⟨t,ht,?_⟩
    rw [devName,List.getD_eq_getElem _ _ ht,of_decide_eq_true heq]

/-- A word with a parenthesis that does not begin with a device is rejected at once. -/
theorem device_none {c : UInt8} {pre m : List UInt8} (hc : c ≠ chMinus)
    (hno : ∀ (drive : Option UInt8) (t : ℕ) (l : List UInt8), (∀ c ∈ drive, DriveChar c) → t < 3 →
      c :: (pre ++ chParen :: m) ≠ head drive t ++ l) (rest : List UInt8) :
    ∃ a, device wholeDiskSlice d (c :: (pre ++ chParen :: m) ++ rest) (pre.length+1) = some (false,d,a) := by
  have hnamed : ∀ (drv : ℤ) (o : ℕ) (t : List UInt8), (pre.length+1 = o+2 → ∃ x y, t[o]? = some x ∧ t[o+1]? = some y ∧
      devNm.findIdx? (· = (x,y)) = none) → named wholeDiskSlice d drv t o (pre.length+1) = some (false,d,t) := by
    intro drv o t h
    rw [named]
    by_cases hq : pre.length+1 = o+2
    · obtain ⟨x,y,hx,hy,hfind⟩ := h hq
      rw [if_neg (not_not.mpr hq),hx,hy]
      dsimp only
      rw [hfind]
    · rw [if_pos hq]
  cases pre with
  | nil =>
    refine ⟨_,(device_cons c chParen (m ++ rest) 1).trans ((if_neg (by decide)).trans (hnamed (-1) 0 _ fun h => ?_))⟩
    cases h
  | cons x pre =>
    rw [List.cons_append,List.cons_append,List.cons_append,device_cons]
    by_cases hx : x = chColon
    · rw [if_pos hx]
      by_cases hdrive : char c-48 > 9
      · exact ⟨_,if_pos hdrive⟩
      · rw [if_neg hdrive]
        refine ⟨_,hnamed _ 2 _ fun hlen => ?_⟩
        obtain ⟨a,b,rfl⟩ := List.length_eq_two.mp (show pre.length = 2 by simpa using hlen)
        refine ⟨a,b,rfl,rfl,devNm_find.resolve_right ?_⟩
        rintro ⟨t,ht,hname⟩
        refine hno (some c) t m ?_ ht ?_
        · rintro c' hc'
          obtain rfl := Option.some_inj.mp hc'
          exact ⟨(drive_le c).mp (not_lt.mp hdrive),hc⟩
        · rw [hx,head,hname]
          rfl
    · rw [if_neg hx]
      refine ⟨_,hnamed _ 0 _ fun hlen => ?_⟩
      obtain rfl := List.length_eq_zero_iff.mp (show pre.length = 0 by simpa using hlen)
      refine ⟨c,x,rfl,rfl,devNm_find.resolve_right ?_⟩
      rintro ⟨t,ht,hname⟩
      refine hno none t m (by simp) ht ?_
      rw [head,hname]
      rfl

/-- What `parse` makes of a word: it is accepted, or read beyond the end of the buffer, or rejected. -/
theorem wordStep_cases {w : Word} (h₀ : 0 ∉ w.bytes) (hne : w.bytes ≠ []) :
    Accepted w.bytes ∨ (Overruns w ∧ wordStep wholeDiskSlice d w = none) ∨
      ∃ d', wordStep wholeDiskSlice d w = some (false,d') ∧ (d' = d ↔ Keeps wholeDiskSlice d w) := by
  obtain ⟨bytes,rest⟩ := w
  dsimp only at h₀ hne ⊢
  by_cases hhead : ∃ (drive : Option UInt8) (t : ℕ) (l : List UInt8), (∀ c ∈ drive, DriveChar c) ∧ t < 3 ∧
      bytes = head drive t ++ l
  · obtain ⟨drive,t,l,hdrive,ht,rfl⟩ := hhead
    have hl : 0 ∉ l := fun h => h₀ (List.mem_append_right _ h)
    have hstep := @step_head wholeDiskSlice d drive t hdrive ht l rest
    obtain ⟨u,slice,p,path,hu,hslice,hp,rfl⟩ | ⟨hrest,hbreak⟩ | ⟨d',a,hfields,hd'⟩ :=
      @fields_cases wholeDiskSlice d (drvOf drive) l rest t hl
    · exact Or.inl (Or.inr (Or.inr ⟨⟨drive,t,u,slice,p⟩,path,⟨hdrive,ht,hu,hslice,hp⟩,by simp [Selection.text,
        Selection.tail]⟩))
    · have hover : Overruns ⟨head drive t ++ l,rest⟩ := ⟨hrest,drive,t,l,hdrive,ht,hbreak,rfl⟩
      exact Or.inr (Or.inl ⟨hover,overruns_step hover⟩)
    · refine Or.inr (Or.inr ⟨d',by rw [hstep,hfields]; rfl,hd'.trans ?_⟩)
      constructor
      · intro hkeeps drive' t' l' _ ht' heq
        obtain ⟨-,rfl,rfl⟩ := head_injective ht ht' heq
        exact hkeeps
      · intro hkeeps
        exact hkeeps drive t l hdrive ht rfl
  · have hkeeps : Keeps wholeDiskSlice d ⟨bytes,rest⟩ := fun drive t l hdrive ht heq =>
      absurd ⟨drive,t,l,hdrive,ht,heq⟩ hhead
    obtain ⟨c,l,rfl⟩ := List.exists_cons_of_ne_nil hne
    by_cases hc : c = chMinus
    · by_cases hall : l.all (fun c => (optstr.lookup c).isSome) = true
      · exact Or.inl (Or.inl ⟨l,by rw [hc],List.all_eq_true.mp hall⟩)
      · refine Or.inr (Or.inr ⟨d,?_,iff_of_true rfl hkeeps⟩)
        rw [wordStep]
        dsimp only
        rw [if_pos hc,Bool.eq_false_iff.mpr hall]
    · by_cases hparen : chParen ∈ l
      · obtain ⟨pre,m,rfl,hpre⟩ := List.eq_append_cons_of_mem hparen
        obtain ⟨a,hdevice⟩ := @device_none wholeDiskSlice d c pre m hc (fun drive t l hdrive ht heq =>
          hhead ⟨drive,t,l,hdrive,ht,heq⟩) (0 :: rest)
        have hfind : (pre ++ chParen :: m).findIdx? (· = chParen) = some pre.length := by
          have hnone : pre.findIdx? (· = chParen) = none :=
            List.findIdx?_eq_none_iff.mpr fun x hx => decide_eq_false fun h => hpre (h ▸ hx)
          rw [List.findIdx?_append,hnone,List.findIdx?_cons]
          simp
        refine Or.inr (Or.inr ⟨d,?_,iff_of_true rfl hkeeps⟩)
        rw [wordStep]
        dsimp only
        rw [if_neg hc,hfind]
        dsimp only
        rw [hdevice]
        rfl
      · exact Or.inl (Or.inr (Or.inl ⟨c,l,rfl,hc,hparen⟩))

end Words

end Blub.Boot.Boot2Parse
