import Blub.Boot.Module
import Blub.Boot.ModuleDirs
import Blub.Lib.Orbit
import Blub.Lib.Scan

/-! The search for a module in a `linker.hints` file, from `module.c`. Records are walked by the lengths they have. -/
namespace Blub.Boot.Mod
open Blub.Bytes Blub.Orbit Blub.Scan

/-- The version of a record, and where its file name is. -/
structure Match where
  ver : ℤ
  file : ℕ
  len : ℕ

section Code
variable (mdtVersion : ℤ) (hints : List UInt8) (modname : List UInt8) (verinfo : Option ModDepend)

/-- The `int` at an offset. -/
def intAt (o : ℕ) : ℤ :=
  let v := leGet (ofList hints) o 4
  if v < 2^31 then v else v-2^32

/-- An `int` is read, inside the buffer. -/
def readInt (o : ℕ) : Option ℤ := if o+4 ≤ hints.length then some (intAt hints o) else none

/-- `bcmp` stops at the first difference. -/
def bcmpAt : ℕ → List UInt8 → Option Bool
  | _, [] => some true
  | o, c :: name =>
    match hints[o]? with
    | none => none
    | some x => if x = c then bcmpAt (o+1) name else some false

/-- `INT_ALIGN`. -/
def intAlign (o : ℕ) : ℕ := (o+3)/4*4

/-- The record at an offset: its length, and what it has for the module. -/
def readRecord (r : ℕ) : Option (ℤ × Option Match) := do
  let reclen ← readInt hints r
  let ival ← readInt hints (r+4)
  if ival ≠ mdtVersion then return (reclen,none)
  let clen ← hints[r+8]?
  if clen.toNat ≠ modname.length then return (reclen,none)
  let same ← bcmpAt hints (r+9) modname
  if same = false then return (reclen,none)
  let cp := intAlign (r+9+clen.toNat)
  let ival ← readInt hints cp
  let clen ← hints[cp+4]?
  return (reclen,some ⟨ival,cp+5,clen.toNat⟩)

/-- Any version will do, or this is the one that is preferred. -/
def preferred (m : Match) : Bool :=
  match verinfo with
  | none => true
  | some v => m.ver = v.verPreferred

def inRange (m : Match) : Bool :=
  match verinfo with
  | none => false
  | some v => v.verMinimum ≤ m.ver ∧ m.ver ≤ v.verMaximum

/-- The state of the loop of `mod_search_hints`; `bestver` is 0 while there is no best record. -/
structure HintState where
  recptr : ℤ
  bestver : ℤ
  best : Option Match

/-- One turn of the loop; none where something outside the buffer is read. -/
def hintTurn (s : HintState) : Option (Option Match ⊕ HintState) :=
  if s.recptr < hints.length then
    if s.recptr < 0 then none
    else
      match readRecord mdtVersion hints modname s.recptr.toNat with
      | none => none
      | some (reclen,none) => some (.inr {s with recptr := s.recptr+reclen+4})
      | some (reclen,some m) =>
        if preferred verinfo m then some (.inl (some m))
        else if inRange verinfo m ∧ s.bestver < m.ver then some (.inr ⟨s.recptr+reclen+4,m.ver,some m⟩)
        else some (.inr {s with recptr := s.recptr+reclen+4})
  else some (.inl s.best)

/-- The name of the file that is looked up. -/
def readName (m : Match) : Option (List UInt8) :=
  if m.file+m.len ≤ hints.length then some ((hints.drop m.file).take m.len) else none

/-- What `mod_search_hints` takes from the hints: the name of the file, or that there is none. -/
def searchHints (fuel : ℕ) : Option (Option (List UInt8)) :=
  match loop (hintTurn mdtVersion hints modname verinfo) fuel ⟨0,0,none⟩ with
  | none => none
  | some none => some none
  | some (some m) => (readName hints m).map some

/-- `mod_search_hints`: `lookup` finds a file of a name in the directory, `lookupModule` the module's own name with the
extensions of modules. -/
def modSearchHints {φ : Type*} (lookup : List UInt8 → Option φ) (lookupModule : Option φ) (d_hints : Option (List UInt8))
    (fuel : ℕ) : Option (Option φ) :=
  match d_hints with
  | none => some lookupModule
  | some hints =>
    match searchHints mdtVersion hints modname verinfo fuel with
    | none => none
    | some none => some lookupModule
    | some (some name) => some (lookup name)

attribute [local grind =] bcmpAt hintTurn searchHints modSearchHints

end Code

section Spec
variable (mdtVersion : ℤ) (hints : List UInt8) (modname : List UInt8) (verinfo : Option ModDepend)

def byteAt (o : ℕ) : ℕ := (hints.getD o 0).toNat

/-- The record names the module. -/
def Names (r : ℕ) : Prop :=
  intAt hints (r+4) = mdtVersion ∧ byteAt hints (r+8) = modname.length ∧
    (hints.drop (r+9)).take modname.length = modname

instance (r : ℕ) : Decidable (Names mdtVersion hints modname r) := inferInstanceAs (Decidable (_ ∧ _))

def matchAt (r : ℕ) : Option Match :=
  let cp := intAlign (r+9+modname.length)
  if Names mdtVersion hints modname r then some ⟨intAt hints cp,cp+5,byteAt hints (cp+4)⟩ else none

/-- What is looked at of the record is in the buffer. -/
structure Inside (r : ℤ) : Prop where
  start : 0 ≤ r
  head : r+8 ≤ hints.length
  clen : intAt hints (r.toNat+4) = mdtVersion → r+9 ≤ hints.length
  name : intAt hints (r.toNat+4) = mdtVersion → byteAt hints (r.toNat+8) = modname.length →
    hints.drop (r.toNat+9) <+: modname → r+9+modname.length ≤ hints.length
  version : Names mdtVersion hints modname r.toNat → intAlign (r.toNat+9+modname.length)+5 ≤ hints.length

/-- From a record to the next, up to the preferred one or the end. -/
def nextRecord (r : ℤ) : Option ℤ :=
  if (matchAt mdtVersion hints modname r.toNat).any (preferred verinfo) then none
  else
    let r' := r+intAt hints r.toNat+4
    if r' < hints.length then some r' else none

/-- The records that are come to from `r` on, all inside the buffer, and what they have for the module. -/
inductive Met : ℤ → List Match → Prop
  | past {r : ℤ} (h : hints.length ≤ r) : Met r []
  | found {r : ℤ} {m : Match} (h : r < hints.length) (hin : Inside mdtVersion hints modname r)
    (hm : matchAt mdtVersion hints modname r.toNat = some m) (hp : preferred verinfo m = true) : Met r [m]
  | next {r : ℤ} {l : List Match} (h : r < hints.length) (hin : Inside mdtVersion hints modname r)
    (hm : (matchAt mdtVersion hints modname r.toNat).any (preferred verinfo) = false)
    (hl : Met (r+intAt hints r.toNat+4) l) : Met r ((matchAt mdtVersion hints modname r.toNat).toList ++ l)

/-- The last one is preferred, or it is the first of the highest version in the range, which is positive. -/
def Picked (l : List Match) (m : Match) : Prop :=
  ∃ p q, l = p ++ m :: q ∧ (preferred verinfo m = true ∨
    (∀ x ∈ l, preferred verinfo x = false) ∧ inRange verinfo m = true ∧ 0 < m.ver ∧
      (∀ x ∈ p, inRange verinfo x = true → x.ver < m.ver) ∧ ∀ x ∈ q, inRange verinfo x = true → x.ver ≤ m.ver)

/-- The records that are come to lie in the buffer, none is come to twice, and so does the name of the file that is picked. -/
structure SafeHints : Prop where
  inside : 0 < hints.length → ∀ n r, orbit (nextRecord mdtVersion hints modname verinfo) 0 n = some r → Inside mdtVersion hints modname r
  noReturn : 0 < hints.length → NoReturn (nextRecord mdtVersion hints modname verinfo) 0
  name : ∀ l m, Met mdtVersion hints modname verinfo 0 l → Picked verinfo l m → m.file+m.len ≤ hints.length

/-- The length of a record fits its fields and the buffer. -/
structure Fits (r len : ℕ) : Prop where
  type : 4 ≤ len
  inside : r+4+len ≤ hints.length
  fields : intAt hints (r+4) = mdtVersion → intAlign (r+9+byteAt hints (r+8))+5+
    byteAt hints (intAlign (r+9+byteAt hints (r+8))+4) ≤ r+4+len

/-- Records one after the other up to the end, and what they have for the module. -/
inductive WellFormed : ℕ → List Match → Prop
  | done : WellFormed hints.length []
  | record {r len : ℕ} {l : List Match} (hlen : intAt hints r = len) (hfits : Fits mdtVersion hints r len)
    (hl : WellFormed (r+4+len) l) : WellFormed r ((matchAt mdtVersion hints modname r).toList ++ l)

/-- A preferred record if there is one, else one with the highest version in the range. -/
def RightChoice (l : List Match) : Option Match → Prop
  | some m => m ∈ l ∧ (preferred verinfo m = true ∨ (∀ x ∈ l, preferred verinfo x = false) ∧ inRange verinfo m = true ∧
      ∀ x ∈ l, inRange verinfo x = true → x.ver ≤ m.ver)
  | none => ∀ x ∈ l, preferred verinfo x = false ∧ inRange verinfo x = false

/-- The choice of the loop among what the records have. -/
def choose : List Match → ℤ → Option Match → Option Match
  | [], _, best => best
  | m :: l, bestver, best =>
    if preferred verinfo m then some m
    else if inRange verinfo m ∧ bestver < m.ver then choose l m.ver (some m)
    else choose l bestver best

attribute [local grind =] choose

end Spec

section Read
variable {mdtVersion : ℤ} {hints : List UInt8} {modname : List UInt8}

theorem bcmpAt_eq {o : ℕ} (hle : o ≤ hints.length) : bcmpAt hints o modname =
    if hints.drop o <+: modname ∧ hints.length < o+modname.length then none
    else some (decide ((hints.drop o).take modname.length = modname)) := by
  induction modname generalizing o with
  | nil =>
    rw [bcmpAt,if_neg]
    · simp
    · rintro ⟨-,hlt⟩
      rw [List.length_nil] at hlt
      omega
  | cons c name ih =>
    rw [bcmpAt]
    by_cases ho : o < hints.length
    · rw [List.getElem?_eq_getElem ho,List.drop_eq_getElem_cons ho]
      simp only
      by_cases hc : hints[o] = c
      · simp only [hc,if_true,ih ho,List.length_cons,List.cons_prefix_cons,true_and,List.take_succ_cons,List.cons.injEq]
        congr 2
        rw [Nat.succ_add_eq_add_succ]
      · simp only [hc,if_false,List.length_cons,List.cons_prefix_cons,false_and,List.take_succ_cons,List.cons.injEq,
          decide_false]
    · rw [List.getElem?_eq_none (by omega),List.drop_of_length_le (by omega)]
      simp
      omega

theorem getElem?_byteAt {o : ℕ} (h : o < hints.length) : ∃ c, hints[o]? = some c ∧ c.toNat = byteAt hints o :=
  ⟨hints[o],List.getElem?_eq_getElem h,by rw [byteAt,List.getD_eq_getElem _ _ h]⟩

/-- What a record has, and what has to be in the buffer for it to be read. -/
theorem readRecord_eq (r : ℕ) : readRecord mdtVersion hints modname r =
    if hints.length < r+8 then none
    else if intAt hints (r+4) ≠ mdtVersion then some (intAt hints r,none)
    else if hints.length < r+9 then none
    else if byteAt hints (r+8) ≠ modname.length then some (intAt hints r,none)
    else if hints.drop (r+9) <+: modname ∧ hints.length < r+9+modname.length then none
    else if (hints.drop (r+9)).take modname.length ≠ modname then some (intAt hints r,none)
    else if hints.length < intAlign (r+9+modname.length)+5 then none
    else some (intAt hints r,some ⟨intAt hints (intAlign (r+9+modname.length)),intAlign (r+9+modname.length)+5,
      byteAt hints (intAlign (r+9+modname.length)+4)⟩) := by
  by_cases hhead : hints.length < r+8
  · rw [if_pos hhead]
    by_cases hlen : r+4 ≤ hints.length
    · simp [readRecord,readInt,hlen,show ¬r+4+4 ≤ hints.length by omega]
    · simp [readRecord,readInt,hlen]
  have hlen : r+4 ≤ hints.length ∧ r+4+4 ≤ hints.length := by omega
  rw [if_neg hhead]
  by_cases htype : intAt hints (r+4) ≠ mdtVersion
  · simp [readRecord,readInt,hlen,htype]
  rw [if_neg htype]
  by_cases hclen : hints.length < r+9
  · simp [readRecord,readInt,hlen,htype,hclen,show hints.length ≤ r+8 by omega]
  obtain ⟨c,hc,hcnat⟩ := @getElem?_byteAt hints (r+8) (by omega)
  rw [if_neg hclen]
  by_cases hname : byteAt hints (r+8) ≠ modname.length
  · simp [readRecord,readInt,hlen,hc,hcnat,hname]
  rw [if_neg hname]
  rw [not_not] at hname
  have hcmp := @bcmpAt_eq hints modname _ (show r+9 ≤ hints.length by omega)
  by_cases hout : hints.drop (r+9) <+: modname ∧ hints.length < r+9+modname.length
  · rw [if_pos hout] at hcmp
    simp [readRecord,readInt,hlen,htype,hc,hcnat,hname,hcmp,hout]
  rw [if_neg hout] at hcmp ⊢
  by_cases hsame : (hints.drop (r+9)).take modname.length ≠ modname
  · simp [readRecord,readInt,hlen,hc,hcmp,hsame]
  rw [if_neg hsame]
  rw [not_not] at hsame
  by_cases hver : hints.length < intAlign (r+9+modname.length)+5
  · rw [if_pos hver]
    by_cases hint : intAlign (r+9+modname.length)+4 ≤ hints.length
    · have hbyte : hints.length ≤ intAlign (r+9+modname.length)+4 := by omega
      simp [readRecord,readInt,hlen,htype,hc,hcnat,hname,hcmp,hsame,hint,List.getElem?_eq_none hbyte]
    · simp [readRecord,readInt,hlen,htype,hc,hcnat,hname,hcmp,hsame,hint]
  · have hint : intAlign (r+9+modname.length)+4 ≤ hints.length := by omega
    obtain ⟨c',hc',hcnat'⟩ := @getElem?_byteAt hints (intAlign (r+9+modname.length)+4) (by omega)
    simp [readRecord,readInt,hlen,htype,hc,hcnat,hname,hcmp,hsame,hint,hver,hc',hcnat']

/-- A record inside the buffer is read as it is. -/
theorem readRecord_inside {r : ℕ} (h : Inside mdtVersion hints modname r) :
    readRecord mdtVersion hints modname r = some (intAt hints r,matchAt mdtVersion hints modname r) := by
  obtain ⟨-,hhead,hclen,hname,hver⟩ := h
  simp only [Int.toNat_natCast] at hclen hname hver
  have hhead' : ¬hints.length < r+8 := by omega
  rw [readRecord_eq,if_neg hhead',matchAt]
  by_cases htype : intAt hints (r+4) = mdtVersion
  · have hclen' := hclen htype
    rw [if_neg (not_not.mpr htype),if_neg (by omega)]
    by_cases hlen : byteAt hints (r+8) = modname.length
    · have hout : ¬(hints.drop (r+9) <+: modname ∧ hints.length < r+9+modname.length) := by
        rintro ⟨hpre,hlt⟩
        have hin := hname htype hlen hpre
        omega
      rw [if_neg (not_not.mpr hlen),if_neg hout]
      by_cases hsame : (hints.drop (r+9)).take modname.length = modname
      · have hin := hver ⟨htype,hlen,hsame⟩
        rw [if_neg (not_not.mpr hsame),if_neg (by omega),if_pos ⟨htype,hlen,hsame⟩]
      · rw [if_pos hsame,if_neg fun hn => hsame hn.2.2]
    · rw [if_pos hlen,if_neg fun hn => hlen hn.2.1]
  · rw [if_pos htype,if_neg fun hn => htype hn.1]

theorem inside_of_readRecord {r : ℕ} (h : readRecord mdtVersion hints modname r ≠ none) :
    Inside mdtVersion hints modname r := by
  rw [readRecord_eq] at h
  have hhead : ¬hints.length < r+8 := fun hlt => h (if_pos hlt)
  rw [if_neg hhead] at h
  refine ⟨Int.natCast_nonneg r,by omega,?_,?_,?_⟩
  · intro htype
    rw [Int.toNat_natCast] at htype
    rw [if_neg (not_not.mpr htype)] at h
    by_contra hlt
    exact h (if_pos (by omega))
  · intro htype hlen hpre
    rw [Int.toNat_natCast] at htype hlen hpre
    rw [if_neg (not_not.mpr htype)] at h
    by_contra hlt
    split_ifs at h with h₃ h₄ h₅
    · exact h rfl
    · exact h₄ hlen
    · exact h rfl
    all_goals exact h₅ ⟨hpre,by omega⟩
  · rintro ⟨htype,hlen,hsame⟩
    rw [Int.toNat_natCast] at htype hlen hsame ⊢
    rw [if_neg (not_not.mpr htype)] at h
    split_ifs at h with h₃ h₄ h₅ h₆ h₇
    · exact absurd rfl h
    · exact absurd hlen h₄
    · exact absurd rfl h
    · exact absurd hsame h₆
    · exact absurd rfl h
    · omega

end Read

section Loop
variable {mdtVersion : ℤ} {hints : List UInt8} {modname : List UInt8} {verinfo : Option ModDepend}

theorem hintTurn_past {s : HintState} (h : hints.length ≤ s.recptr) :
    hintTurn mdtVersion hints modname verinfo s = some (.inl s.best) := if_neg (by omega)

theorem inside_of_turn {s : HintState} (h : s.recptr < hints.length)
    (hturn : hintTurn mdtVersion hints modname verinfo s ≠ none) : Inside mdtVersion hints modname s.recptr := by
  have hstart : ¬s.recptr < 0 := by
    intro hneg
    rw [hintTurn,if_pos h,if_pos hneg] at hturn
    exact hturn rfl
  have hread : readRecord mdtVersion hints modname s.recptr.toNat ≠ none := by
    intro hnone
    rw [hintTurn,if_pos h,if_neg hstart,hnone] at hturn
    exact hturn rfl
  have hin := inside_of_readRecord hread
  rwa [Int.toNat_of_nonneg (by omega)] at hin

theorem readRecord_of_inside {r : ℤ} (hin : Inside mdtVersion hints modname r) :
    readRecord mdtVersion hints modname r.toNat =
      some (intAt hints r.toNat,matchAt mdtVersion hints modname r.toNat) := by
  refine readRecord_inside ?_
  rwa [Int.toNat_of_nonneg hin.start]

theorem hintTurn_none {s : HintState} (h : s.recptr < hints.length) (hin : Inside mdtVersion hints modname s.recptr)
    (hm : matchAt mdtVersion hints modname s.recptr.toNat = none) : hintTurn mdtVersion hints modname verinfo s =
      some (.inr {s with recptr := s.recptr+intAt hints s.recptr.toNat+4}) := by
  rw [hintTurn,if_pos h,if_neg (not_lt.mpr hin.start),readRecord_of_inside hin,hm]

theorem hintTurn_match {s : HintState} (h : s.recptr < hints.length) (hin : Inside mdtVersion hints modname s.recptr)
    {m : Match} (hm : matchAt mdtVersion hints modname s.recptr.toNat = some m) :
    hintTurn mdtVersion hints modname verinfo s =
      if preferred verinfo m then some (.inl (some m))
      else if inRange verinfo m ∧ s.bestver < m.ver then some (.inr ⟨s.recptr+intAt hints s.recptr.toNat+4,m.ver,some m⟩)
      else some (.inr {s with recptr := s.recptr+intAt hints s.recptr.toNat+4}) := by
  rw [hintTurn,if_pos h,if_neg (not_lt.mpr hin.start),readRecord_of_inside hin,hm]

theorem Met.loop {r : ℤ} {l : List Match} (h : Met mdtVersion hints modname verinfo r l) (bestver : ℤ)
    (best : Option Match) : ∃ fuel, Scan.loop (hintTurn mdtVersion hints modname verinfo) fuel ⟨r,bestver,best⟩ =
      some (choose verinfo l bestver best) := by
  induction h generalizing bestver best with
  | past h => exact ⟨1,loop_end (hintTurn_past h) 0⟩
  | @found r m h hin hm hp =>
    have hturn := @hintTurn_match _ _ _ verinfo ⟨r,bestver,best⟩ h hin _ hm
    rw [if_pos hp] at hturn
    have hchoose : choose verinfo [m] bestver best = some m := by rw [choose,if_pos hp]
    rw [hchoose]
    exact ⟨1,loop_end hturn 0⟩
  | @next r l h hin hm hl ih =>
    cases hmatch : matchAt mdtVersion hints modname r.toNat with
    | none =>
      obtain ⟨fuel,hfuel⟩ := ih bestver best
      have hturn := @hintTurn_none _ _ _ verinfo ⟨r,bestver,best⟩ h hin hmatch
      exact ⟨fuel+1,(loop_next hturn fuel).trans hfuel⟩
    | some m =>
      rw [hmatch,Option.any_some] at hm
      have hturn := @hintTurn_match _ _ _ verinfo ⟨r,bestver,best⟩ h hin _ hmatch
      rw [if_neg (by simp [hm])] at hturn
      simp only [Option.toList_some,List.singleton_append,choose,hm,Bool.false_eq_true,if_false]
      split_ifs at hturn ⊢ with hbetter
      · obtain ⟨fuel,hfuel⟩ := ih m.ver (some m)
        exact ⟨fuel+1,(loop_next hturn fuel).trans hfuel⟩
      · obtain ⟨fuel,hfuel⟩ := ih bestver best
        exact ⟨fuel+1,(loop_next hturn fuel).trans hfuel⟩

/-- The loop ends only along records inside the buffer. -/
theorem met_of_loop {fuel : ℕ} {s : HintState}
    (h : Scan.loop (hintTurn mdtVersion hints modname verinfo) fuel s ≠ none) :
    ∃ l, Met mdtVersion hints modname verinfo s.recptr l := by
  induction fuel generalizing s with
  | zero => exact absurd rfl h
  | succ fuel ih =>
    by_cases hlt : s.recptr < hints.length
    swap
    · exact ⟨[],.past (by omega)⟩
    have hsome : hintTurn mdtVersion hints modname verinfo s ≠ none := by
      intro hnone
      rw [loop_none hnone] at h
      exact h rfl
    have hin := inside_of_turn hlt hsome
    cases hmatch : matchAt mdtVersion hints modname s.recptr.toNat with
    | none =>
      rw [loop_next (hintTurn_none hlt hin hmatch)] at h
      obtain ⟨l,hl⟩ := ih h
      exact ⟨_,.next hlt hin (by rw [hmatch]; rfl) hl⟩
    | some m =>
      have hturn := @hintTurn_match _ _ _ verinfo _ hlt hin _ hmatch
      by_cases hp : preferred verinfo m = true
      · exact ⟨[m],.found hlt hin hmatch hp⟩
      · rw [if_neg hp] at hturn
        split_ifs at hturn with hbetter
        all_goals
          rw [loop_next hturn] at h
          obtain ⟨l,hl⟩ := ih h
          exact ⟨_,.next hlt hin (by rw [hmatch]; simpa using hp) hl⟩

/-- From a record inside the buffer, the walk ends inside it exactly when it stays inside and stops. -/
theorem met_iff {r : ℤ} (hr : r < hints.length) : (∃ l, Met mdtVersion hints modname verinfo r l) ↔
    (∀ n b, orbit (nextRecord mdtVersion hints modname verinfo) r n = some b → Inside mdtVersion hints modname b) ∧
      ∃ k, orbit (nextRecord mdtVersion hints modname verinfo) r k = none := by
  constructor
  · rintro ⟨l,hl⟩
    induction hl with
    | past h => omega
    | @found r m h hin hm hp =>
      have hnext : nextRecord mdtVersion hints modname verinfo r = none := by
        rw [nextRecord,hm,Option.any_some,if_pos hp]
      refine ⟨fun n b hb => ?_,1,by rw [orbit_succ orbit_zero,hnext]⟩
      cases n with
      | zero =>
        obtain rfl := Option.some.inj hb
        exact hin
      | succ n =>
        rw [orbit_none (m := 1) (by rw [orbit_succ orbit_zero,hnext]) (Nat.le_add_left 1 n)] at hb
        cases hb
    | @next r l h hin hm hl ih =>
      by_cases hlt : r+intAt hints r.toNat+4 < hints.length
      · have hnext : nextRecord mdtVersion hints modname verinfo r = some (r+intAt hints r.toNat+4) := by
          rw [nextRecord,if_neg (by rw [hm]; simp)]
          exact if_pos hlt
        obtain ⟨hin',k,hk⟩ := ih hlt
        refine ⟨fun n b hb => ?_,k+1,by rw [orbit_step hnext,hk]⟩
        cases n with
        | zero =>
          obtain rfl := Option.some.inj hb
          exact hin
        | succ n => exact hin' n b (orbit_step hnext n ▸ hb)
      · have hnext : nextRecord mdtVersion hints modname verinfo r = none := by
          rw [nextRecord,if_neg (by rw [hm]; simp)]
          exact if_neg hlt
        refine ⟨fun n b hb => ?_,1,by rw [orbit_succ orbit_zero,hnext]⟩
        cases n with
        | zero =>
          obtain rfl := Option.some.inj hb
          exact hin
        | succ n =>
          rw [orbit_none (m := 1) (by rw [orbit_succ orbit_zero,hnext]) (Nat.le_add_left 1 n)] at hb
          cases hb
  · rintro ⟨hin,k,hk⟩
    induction k generalizing r with
    | zero => cases hk
    | succ k ih =>
      have hstart := hin 0 r orbit_zero
      cases hp : (matchAt mdtVersion hints modname r.toNat).any (preferred verinfo) with
      | true =>
        obtain ⟨m,hm,hpm⟩ := (Option.any_eq_true _ _).mp hp
        exact ⟨_,.found hr hstart hm hpm⟩
      | false =>
        by_cases hlt : r+intAt hints r.toNat+4 < hints.length
        · have hnext : nextRecord mdtVersion hints modname verinfo r = some (r+intAt hints r.toNat+4) := by
            rw [nextRecord,if_neg (by rw [hp]; simp)]
            exact if_pos hlt
          obtain ⟨l,hl⟩ := ih hlt (fun n b hb => hin (n+1) b (orbit_step hnext n ▸ hb)) (orbit_step hnext k ▸ hk)
          exact ⟨_,.next hr hstart hp hl⟩
        · exact ⟨_,.next hr hstart hp (.past (not_lt.mp hlt))⟩

end Loop

section Choice
variable {verinfo : Option ModDepend}

theorem choose_preferred {l : List Match} (h : ∃ x ∈ l, preferred verinfo x = true) (bestver : ℤ) (best : Option Match) :
    ∃ m ∈ l, preferred verinfo m = true ∧ choose verinfo l bestver best = some m := by
  induction l generalizing bestver best with
  | nil =>
    obtain ⟨x,hx,-⟩ := h
    cases hx
  | cons a l ih =>
    rw [choose]
    by_cases ha : preferred verinfo a = true
    · exact ⟨a,List.mem_cons_self,ha,if_pos ha⟩
    · have hrest : ∃ x ∈ l, preferred verinfo x = true := by
        obtain ⟨x,hx,hp⟩ := h
        obtain rfl | hx := List.mem_cons.mp hx
        · exact absurd hp ha
        · exact ⟨x,hx,hp⟩
      rw [if_neg ha]
      split_ifs
      · obtain ⟨m,hm,hp,heq⟩ := ih hrest a.ver (some a)
        exact ⟨m,List.mem_cons_of_mem _ hm,hp,heq⟩
      · obtain ⟨m,hm,hp,heq⟩ := ih hrest bestver best
        exact ⟨m,List.mem_cons_of_mem _ hm,hp,heq⟩

theorem choose_mem (l : List Match) (bestver : ℤ) (best : Option Match) {m : Match}
    (h : choose verinfo l bestver best = some m) : best = some m ∨ m ∈ l := by
  induction l generalizing bestver best with
  | nil => exact .inl h
  | cons a l ih =>
    rw [choose] at h
    split_ifs at h
    · exact .inr (Option.some.inj h ▸ List.mem_cons_self)
    · obtain ha | hm := ih _ _ h
      · exact .inr (Option.some.inj ha ▸ List.mem_cons_self)
      · exact .inr (List.mem_cons_of_mem _ hm)
    · exact (ih _ _ h).imp_right (List.mem_cons_of_mem _)

/-- Where none is preferred: the best so far, or the first of the highest version beyond it. -/
theorem choose_spec {l : List Match} (hl : ∀ x ∈ l, preferred verinfo x = false) (bestver : ℤ) (best : Option Match) :
    (choose verinfo l bestver best = best ∧ ∀ x ∈ l, inRange verinfo x = true → x.ver ≤ bestver) ∨
    ∃ p m q, choose verinfo l bestver best = some m ∧ l = p ++ m :: q ∧ inRange verinfo m = true ∧ bestver < m.ver ∧
      (∀ x ∈ p, inRange verinfo x = true → x.ver < m.ver) ∧ ∀ x ∈ q, inRange verinfo x = true → x.ver ≤ m.ver := by
  induction l generalizing bestver best with
  | nil => exact .inl ⟨rfl,by simp⟩
  | cons a l ih =>
    have ha := hl a List.mem_cons_self
    have hl' : ∀ x ∈ l, preferred verinfo x = false := fun x hx => hl x (List.mem_cons_of_mem _ hx)
    rw [choose,if_neg (by simp [ha])]
    by_cases hbetter : inRange verinfo a = true ∧ bestver < a.ver
    · rw [if_pos hbetter]
      right
      obtain ⟨heq,hle⟩ | ⟨p,m,q,heq,rfl,hin,hlt,hp,hq⟩ := ih hl' a.ver (some a)
      · exact ⟨[],a,l,heq,rfl,hbetter.1,hbetter.2,by simp,hle⟩
      · refine ⟨a :: p,m,q,heq,rfl,hin,hbetter.2.trans hlt,?_,hq⟩
        intro x hx hxin
        obtain rfl | hx := List.mem_cons.mp hx
        · exact hlt
        · exact hp x hx hxin
    · rw [if_neg hbetter]
      have hale : inRange verinfo a = true → a.ver ≤ bestver := fun hin => not_lt.mp fun hlt => hbetter ⟨hin,hlt⟩
      obtain ⟨heq,hle⟩ | ⟨p,m,q,heq,rfl,hin,hlt,hp,hq⟩ := ih hl' bestver best
      · refine .inl ⟨heq,?_⟩
        intro x hx hxin
        obtain rfl | hx := List.mem_cons.mp hx
        · exact hale hxin
        · exact hle x hx hxin
      · refine .inr ⟨a :: p,m,q,heq,rfl,hin,hlt,?_,hq⟩
        intro x hx hxin
        obtain rfl | hx := List.mem_cons.mp hx
        · exact (hale hxin).trans_lt hlt
        · exact hp x hx hxin

/-- What is chosen is right exactly when the highest version in the range is positive. -/
theorem rightChoice_iff (l : List Match) {ν : Type*} (name : Match → ν) :
    (∃ choice, RightChoice verinfo l choice ∧ choice.map name = (choose verinfo l 0 none).map name) ↔
      (∃ x ∈ l, preferred verinfo x = true) ∨ (∀ x ∈ l, inRange verinfo x = false) ∨
        ∃ x ∈ l, inRange verinfo x = true ∧ 0 < x.ver := by
  by_cases hpref : ∃ x ∈ l, preferred verinfo x = true
  · simp only [hpref,true_or,iff_true]
    obtain ⟨m,hm,hp,heq⟩ := choose_preferred hpref 0 none
    exact ⟨some m,⟨hm,.inl hp⟩,by rw [heq]⟩
  have hl : ∀ x ∈ l, preferred verinfo x = false := by
    intro x hx
    rw [← Bool.not_eq_true]
    exact fun hp => hpref ⟨x,hx,hp⟩
  simp only [hpref,false_or]
  obtain ⟨heq,hle⟩ | ⟨p,m,q,heq,hsplit,hin,hlt,hp,hq⟩ := choose_spec hl 0 none
  · rw [heq,Option.map_none]
    constructor
    · rintro ⟨choice,hright,hnone⟩
      obtain rfl := Option.map_eq_none_iff.mp hnone
      exact .inl fun x hx => (hright x hx).2
    · rintro (hno | ⟨x,hx,hxin,hpos⟩)
      · exact ⟨none,fun x hx => ⟨hl x hx,hno x hx⟩,rfl⟩
      · exact absurd (hle x hx hxin) (not_le.mpr hpos)
  · have hm : m ∈ l := hsplit ▸ List.mem_append_right _ List.mem_cons_self
    refine iff_of_true ⟨some m,⟨hm,.inr ⟨hl,hin,?_⟩⟩,by rw [heq]⟩ (.inr ⟨m,hm,hin,hlt⟩)
    intro x hx hxin
    rw [hsplit,List.mem_append,List.mem_cons] at hx
    obtain hx | rfl | hx := hx
    · exact (hp x hx hxin).le
    · exact le_rfl
    · exact hq x hx hxin

theorem choose_append {p q : List Match} (hp : ∀ x ∈ p, preferred verinfo x = false) {m : Match}
    (hm : preferred verinfo m = true) (bestver : ℤ) (best : Option Match) :
    choose verinfo (p ++ m :: q) bestver best = some m := by
  induction p generalizing bestver best with
  | nil => rw [List.nil_append,choose,if_pos hm]
  | cons a p ih =>
    have hrest := ih fun x hx => hp x (List.mem_cons_of_mem _ hx)
    rw [List.cons_append,choose,if_neg (by simp [hp a List.mem_cons_self]),hrest,hrest,ite_self]

/-- Of two records in the range one comes first, or they are one. -/
theorem eq_or_lt_of_first {p q p' q' : List Match} {m m' : Match} (hsplit : p ++ m :: q = p' ++ m' :: q')
    (hafter : ∀ x ∈ q, inRange verinfo x = true → x.ver ≤ m.ver) (hbefore' : ∀ x ∈ p', inRange verinfo x = true → x.ver < m'.ver)
    (hin : inRange verinfo m = true) (hin' : inRange verinfo m' = true) (hle : p.length ≤ p'.length) : m = m' := by
  obtain ⟨s,rfl,hs⟩ | ⟨s,rfl,hs⟩ := List.append_eq_append_iff.mp hsplit
  · cases s with
    | nil => exact List.head_eq_of_cons_eq hs
    | cons a s =>
      obtain ⟨rfl,rfl⟩ := List.cons.inj hs
      have hlt := hbefore' m (List.mem_append_right _ List.mem_cons_self) hin
      have hge := hafter m' (List.mem_append_right _ List.mem_cons_self) hin'
      exact absurd hlt (not_lt.mpr hge)
  · rw [List.length_append] at hle
    obtain rfl := List.length_eq_zero_iff.mp (show s.length = 0 by omega)
    exact (List.head_eq_of_cons_eq hs).symm

theorem Picked.unique {l : List Match} {m m' : Match} (hl : ∀ x ∈ l, preferred verinfo x = false)
    (h : Picked verinfo l m) (h' : Picked verinfo l m') : m = m' := by
  obtain ⟨p,q,hsplit,hp | ⟨-,hin,-,hbefore,hafter⟩⟩ := h
  · rw [hl m (hsplit ▸ List.mem_append_right _ List.mem_cons_self)] at hp
    cases hp
  obtain ⟨p',q',hsplit',hp' | ⟨-,hin',-,hbefore',hafter'⟩⟩ := h'
  · rw [hl m' (hsplit' ▸ List.mem_append_right _ List.mem_cons_self)] at hp'
    cases hp'
  obtain hle | hle := le_total p.length p'.length
  · exact eq_or_lt_of_first (hsplit.symm.trans hsplit') hafter hbefore' hin hin' hle
  · exact (eq_or_lt_of_first (hsplit'.symm.trans hsplit) hafter' hbefore hin' hin hle).symm

/-- What is chosen where only the last record may be preferred. -/
theorem choose_eq_iff {l : List Match} (hl : (∀ x ∈ l, preferred verinfo x = false) ∨
    ∃ p m, l = p ++ [m] ∧ (∀ x ∈ p, preferred verinfo x = false) ∧ preferred verinfo m = true) (m : Match) :
    choose verinfo l 0 none = some m ↔ Picked verinfo l m := by
  obtain hl | ⟨p,m₀,rfl,hp,hm₀⟩ := hl
  · constructor
    · intro heq
      obtain ⟨hnone,-⟩ | ⟨p,m',q,heq',hsplit,hin,hlt,hp,hq⟩ := choose_spec hl 0 none
      · rw [hnone] at heq
        cases heq
      · obtain rfl := Option.some.inj (heq.symm.trans heq')
        exact ⟨p,q,hsplit,.inr ⟨hl,hin,hlt,hp,hq⟩⟩
    · intro hpick
      obtain ⟨-,hle⟩ | ⟨p,m',q,heq',hsplit,hin,hlt,hp,hq⟩ := choose_spec hl 0 none
      · obtain ⟨p,q,hsplit,hp | ⟨-,hin,hpos,-,-⟩⟩ := hpick
        · rw [hl m (hsplit ▸ List.mem_append_right _ List.mem_cons_self)] at hp
          cases hp
        · exact absurd (hle m (hsplit ▸ List.mem_append_right _ List.mem_cons_self) hin) (not_le.mpr hpos)
      · rw [heq',Picked.unique hl hpick ⟨p,q,hsplit,.inr ⟨hl,hin,hlt,hp,hq⟩⟩]
  · rw [choose_append hp hm₀,Option.some.injEq]
    constructor
    · rintro rfl
      exact ⟨p,[],rfl,.inl hm₀⟩
    · rintro ⟨p',q',hsplit,hm | ⟨hno,-⟩⟩
      · have hmem : m ∈ p ++ [m₀] := hsplit ▸ List.mem_append_right _ List.mem_cons_self
        obtain hmem | hmem := List.mem_append.mp hmem
        · rw [hp m hmem] at hm
          cases hm
        · exact (List.mem_singleton.mp hmem).symm
      · rw [hno m₀ (List.mem_append_right _ (List.mem_singleton_self _))] at hm₀
        cases hm₀

end Choice

section Result
variable {mdtVersion : ℤ} {hints : List UInt8} {modname : List UInt8} {verinfo : Option ModDepend}

theorem Met.last {r : ℤ} {l : List Match} (h : Met mdtVersion hints modname verinfo r l) :
    (∀ x ∈ l, preferred verinfo x = false) ∨
      ∃ p m, l = p ++ [m] ∧ (∀ x ∈ p, preferred verinfo x = false) ∧ preferred verinfo m = true := by
  induction h with
  | past => exact .inl (by simp)
  | @found r m _ _ _ hp => exact .inr ⟨[],m,rfl,by simp,hp⟩
  | @next r l _ _ hm _ ih =>
    have hhead : ∀ x ∈ (matchAt mdtVersion hints modname r.toNat).toList, preferred verinfo x = false := by
      intro x hx
      rw [Option.mem_toList] at hx
      rwa [Option.mem_def.mp hx,Option.any_some] at hm
    obtain hl | ⟨p,m,rfl,hp,hpm⟩ := ih
    · refine .inl fun x hx => ?_
      obtain hx | hx := List.mem_append.mp hx
      · exact hhead x hx
      · exact hl x hx
    · refine .inr ⟨_ ++ p,m,(List.append_assoc ..).symm,fun x hx => ?_,hpm⟩
      obtain hx | hx := List.mem_append.mp hx
      · exact hhead x hx
      · exact hp x hx

theorem searchHints_met {l : List Match} (h : Met mdtVersion hints modname verinfo 0 l) :
    ∃ fuel, searchHints mdtVersion hints modname verinfo fuel =
      match choose verinfo l 0 none with
      | none => some none
      | some m => (readName hints m).map some := by
  obtain ⟨fuel,hfuel⟩ := h.loop 0 none
  refine ⟨fuel,?_⟩
  rw [searchHints,hfuel]
  cases choose verinfo l 0 none <;> rfl

theorem readName_ne_none {m : Match} : readName hints m ≠ none ↔ m.file+m.len ≤ hints.length := by
  simp [readName]

/-- The walk never comes back, and so ends, where all that it comes to is in the buffer. -/
theorem met_zero_iff : (∃ l, Met mdtVersion hints modname verinfo 0 l) ↔
    (0 < hints.length → ∀ n r, orbit (nextRecord mdtVersion hints modname verinfo) 0 n = some r →
      Inside mdtVersion hints modname r) ∧
    (0 < hints.length → NoReturn (nextRecord mdtVersion hints modname verinfo) 0) := by
  by_cases hpos : 0 < hints.length
  swap
  · exact iff_of_true ⟨[],.past (by omega)⟩ ⟨fun h => absurd h hpos,fun h => absurd h hpos⟩
  have hzero : (0 : ℤ) < hints.length := by omega
  have hbelow : ∀ n r, orbit (nextRecord mdtVersion hints modname verinfo) 0 n = some r → r < hints.length := by
    intro n r hr
    cases n with
    | zero =>
      obtain rfl := Option.some.inj hr
      exact hzero
    | succ n =>
      rw [orbit] at hr
      obtain ⟨s,-,hs⟩ := Option.bind_eq_some_iff.mp hr
      rw [nextRecord] at hs
      split_ifs at hs with hp
      simp only at hs
      split_ifs at hs with hlt
      obtain rfl := Option.some.inj hs
      exact hlt
  rw [met_iff hzero]
  simp only [hpos,forall_const]
  refine and_congr_right fun hin => ?_
  refine orbit_ends_iff (Set.finite_Ico 0 (hints.length : ℤ)) fun n r hr => ?_
  exact ⟨(hin n r hr).start,hbelow n r hr⟩

theorem safe_iff : (∃ fuel, searchHints mdtVersion hints modname verinfo fuel ≠ none) ↔
    SafeHints mdtVersion hints modname verinfo := by
  have hname : ∀ l, Met mdtVersion hints modname verinfo 0 l → ∀ m, choose verinfo l 0 none = some m ↔ Picked verinfo l m :=
    fun l hl => choose_eq_iff hl.last
  constructor
  · rintro ⟨fuel,hfuel⟩
    have hloop : Scan.loop (hintTurn mdtVersion hints modname verinfo) fuel ⟨0,0,none⟩ ≠ none := by
      intro hnone
      rw [searchHints,hnone] at hfuel
      exact hfuel rfl
    obtain ⟨hin,hno⟩ := met_zero_iff.mp (met_of_loop hloop)
    refine ⟨hin,hno,fun l m hl hpick => ?_⟩
    obtain ⟨out,hout⟩ := Option.ne_none_iff_exists'.mp hloop
    obtain ⟨fuel',hfuel'⟩ := hl.loop 0 none
    have hmono : ∀ n a, Scan.loop (hintTurn mdtVersion hints modname verinfo) n ⟨0,0,none⟩ = some a →
        Scan.loop (hintTurn mdtVersion hints modname verinfo) (n+1) ⟨0,0,none⟩ = some a := fun n a h => loop_mono h
    rw [Fuel.unique hmono hout hfuel',(hname l hl m).mpr hpick] at hout
    rw [searchHints,hout] at hfuel
    refine readName_ne_none.mp fun hnone => hfuel ?_
    simp only [hnone,Option.map_none]
  · rintro ⟨hin,hno,hread⟩
    obtain ⟨l,hl⟩ := met_zero_iff.mpr ⟨hin,hno⟩
    obtain ⟨fuel,hfuel⟩ := searchHints_met hl
    refine ⟨fuel,?_⟩
    rw [hfuel]
    cases hc : choose verinfo l 0 none with
    | none => exact Option.some_ne_none _
    | some m =>
      have hle := readName_ne_none.mpr (hread l m hl ((hname l hl m).mp hc))
      simpa using hle

theorem le_intAlign (o : ℕ) : o ≤ intAlign o := by
  rw [intAlign]
  omega

theorem Fits.inside_record {r len : ℕ} (h : Fits mdtVersion hints r len) : Inside mdtVersion hints modname r := by
  obtain ⟨htype,hin,hfields⟩ := h
  have halign := le_intAlign (r+9+byteAt hints (r+8))
  refine ⟨Int.natCast_nonneg r,by omega,?_,?_,?_⟩
  · intro htype
    rw [Int.toNat_natCast] at htype
    have hle := hfields htype
    omega
  · intro htype hlen _
    rw [Int.toNat_natCast] at htype hlen
    have hle := hfields htype
    rw [hlen] at hle halign
    omega
  · rintro ⟨htype,hlen,-⟩
    rw [Int.toNat_natCast] at htype hlen ⊢
    have hle := hfields htype
    rw [hlen] at hle halign
    omega

theorem Fits.name_inside {r len : ℕ} (h : Fits mdtVersion hints r len) {m : Match}
    (hm : matchAt mdtVersion hints modname r = some m) : m.file+m.len ≤ hints.length := by
  rw [matchAt] at hm
  split_ifs at hm with hn
  obtain rfl := Option.some.inj hm
  have hle := h.fields hn.1
  rw [hn.2.1] at hle
  exact hle.trans h.inside

/-- A well-formed file is walked to its end or to the first preferred record. -/
theorem WellFormed.met {r : ℕ} {l : List Match} (h : WellFormed mdtVersion hints modname r l) :
    (∀ m ∈ l, m.file+m.len ≤ hints.length) ∧ ∃ l', Met mdtVersion hints modname verinfo r l' ∧
      ∀ bestver best, choose verinfo l bestver best = choose verinfo l' bestver best := by
  induction h with
  | done => exact ⟨by simp,[],.past le_rfl,fun _ _ => rfl⟩
  | @record r len l hlen hfits _ ih =>
    obtain ⟨hnames,l',hl',heq⟩ := ih
    have hin : Inside mdtVersion hints modname r := hfits.inside_record
    have hlt : (r : ℤ) < hints.length := by
      have := hfits.inside
      omega
    have hrest : ((r+4+len : ℕ) : ℤ) = r+intAt hints (r : ℤ).toNat+4 := by
      rw [Int.toNat_natCast,hlen]
      push_cast
      ring
    refine ⟨?_,?_⟩
    · intro m hm
      obtain hm | hm := List.mem_append.mp hm
      · exact hfits.name_inside (Option.mem_toList.mp hm)
      · exact hnames m hm
    · rw [hrest] at hl'
      cases hm : matchAt mdtVersion hints modname r with
      | none => exact ⟨_,.next hlt hin (by rw [Int.toNat_natCast,hm]; rfl) hl',by rw [Int.toNat_natCast,hm]; exact heq⟩
      | some m =>
        by_cases hp : preferred verinfo m = true
        · refine ⟨[m],.found hlt hin (by rw [Int.toNat_natCast,hm]) hp,fun bestver best => ?_⟩
          rw [Option.toList_some,List.singleton_append,choose,choose,if_pos hp,if_pos hp]
        · refine ⟨_,.next hlt hin (by rw [Int.toNat_natCast,hm]; simpa using hp) hl',fun bestver best => ?_⟩
          rw [Int.toNat_natCast,hm,Option.toList_some,List.singleton_append,List.singleton_append,choose,choose,heq,heq]

def fileName (hints : List UInt8) (m : Match) : List UInt8 := (hints.drop m.file).take m.len

/-- The search of a well-formed file ends with what is chosen among its records. -/
theorem WellFormed.search {l : List Match} (h : WellFormed mdtVersion hints modname 0 l) :
    ∃ fuel, searchHints mdtVersion hints modname verinfo fuel = some ((choose verinfo l 0 none).map (fileName hints)) := by
  obtain ⟨hnames,l',hl',heq⟩ := @h.met _ _ _ verinfo
  obtain ⟨fuel,hfuel⟩ := searchHints_met hl'
  refine ⟨fuel,?_⟩
  rw [hfuel,← heq]
  cases hc : choose verinfo l 0 none with
  | none => rfl
  | some m =>
    have hm := (choose_mem l 0 none hc).resolve_left (Option.some_ne_none m ∘ Eq.symm)
    simp only [readName,if_pos (hnames m hm),Option.map_some]
    rfl

theorem searchHints_mono {fuel : ℕ} {out : Option (List UInt8)}
    (h : searchHints mdtVersion hints modname verinfo fuel = some out) :
    searchHints mdtVersion hints modname verinfo (fuel+1) = some out := by
  rw [searchHints] at h ⊢
  cases hloop : Scan.loop (hintTurn mdtVersion hints modname verinfo) fuel ⟨0,0,none⟩ with
  | none => rw [hloop] at h; cases h
  | some res => rwa [loop_mono hloop,← hloop]

theorem modSearchHints_ne_none {φ : Type*} (lookup : List UInt8 → Option φ) (lookupModule : Option φ) (fuel : ℕ) :
    modSearchHints mdtVersion modname verinfo lookup lookupModule (some hints) fuel ≠ none ↔
      searchHints mdtVersion hints modname verinfo fuel ≠ none := by
  rw [modSearchHints]
  cases searchHints mdtVersion hints modname verinfo fuel with
  | none => simp
  | some out => cases out <;> simp

/-- What `moduledir_readhints` takes of a file of the right size and version. -/
theorem readhints_file {hintsVersion : ℕ} {file : List UInt8} (hsize : 8 ≤ file.length) (hmax : file.length ≤ 102400)
    (hver : leGet (ofList file) 0 4 = hintsVersion) (path : Path) :
    (moduledirReadhints hintsVersion (some (file.length,file)) ⟨path,none,false,false⟩).hints = some (file.drop 4) := by
  have htake : (file.drop 4).take (file.length-4) = file.drop 4 :=
    List.take_of_length_le (by rw [List.length_drop])
  have hbad : ¬(file.length < 8 ∨ 100*1024 < file.length) := by omega
  have hbad' : ¬(file.length < 4 ∨ leGet (ofList file) 0 4 ≠ hintsVersion) := by
    rw [hver]
    simp
    omega
  simp only [moduledirReadhints,Option.isSome_none,Bool.false_eq_true,or_self,if_false,if_neg hbad,if_neg hbad',htake,
    List.length_drop,if_true]

/-- The walk through the hints ends and stays in the buffer exactly for safe files, and takes the right record of a
well-formed one exactly when a preferred record, none in the range or a positive version in it is there. -/
theorem hints_robust_iff (mdtVersion : ℤ) (hints modname : List UInt8) (verinfo : Option ModDepend) {φ : Type*}
    (lookup : List UInt8 → Option φ) (lookupModule : Option φ) :
    ((∃ fuel, modSearchHints mdtVersion modname verinfo lookup lookupModule (some hints) fuel ≠ none) ↔
      SafeHints mdtVersion hints modname verinfo) ∧
    ∀ l, WellFormed mdtVersion hints modname 0 l →
      ((∃ fuel choice, RightChoice verinfo l choice ∧
        searchHints mdtVersion hints modname verinfo fuel = some (choice.map (fileName hints))) ↔
        (∃ x ∈ l, preferred verinfo x = true) ∨ (∀ x ∈ l, inRange verinfo x = false) ∨
          ∃ x ∈ l, inRange verinfo x = true ∧ 0 < x.ver) := by
  refine ⟨?_,fun l hl => ?_⟩
  · rw [← safe_iff]
    exact exists_congr fun fuel => modSearchHints_ne_none ..
  obtain ⟨fuel,hfuel⟩ := @hl.search _ _ _ verinfo
  rw [← rightChoice_iff l (fileName hints)]
  constructor
  · rintro ⟨fuel',choice,hright,hrun⟩
    exact ⟨choice,hright,Fuel.unique (fun n a h => searchHints_mono h) hrun hfuel⟩
  · rintro ⟨choice,hright,heq⟩
    exact ⟨fuel,choice,hright,hfuel.trans (congrArg some heq.symm)⟩

end Result

/-- A record that has its own offset as the next one, in 8 bytes. -/
def loopingHints : List UInt8 := [252,255,255,255,0,0,0,0]

/-- A record of 4 bytes in a buffer of 4. -/
def shortHints : List UInt8 := [4,0,0,0]

/-- Version 0 of the module `m`, in the file `f`. -/
def zeroHints : List UInt8 := [16,0,0,0,3,0,0,0,1,109,0,0,0,0,0,0,1,102,0,0]

theorem zeroHints_wellFormed : WellFormed 3 zeroHints [109] 0 [⟨0,17,1⟩] := by
  have hfits : Fits 3 zeroHints 0 16 := ⟨by decide,by decide,fun _ => by decide⟩
  have hmatch : (matchAt 3 zeroHints [109] 0).toList ++ [] = [⟨0,17,1⟩] := by rfl
  rw [← hmatch]
  exact .record rfl hfits .done

/-- Hints that are read for ever, hints that are read past their end, and a version that is in the range and is not taken. -/
theorem hints_not_robust : (¬∃ fuel, searchHints 3 loopingHints [109] none fuel ≠ none) ∧
    (¬∃ fuel, searchHints 3 shortHints [109] none fuel ≠ none) ∧
    WellFormed 3 zeroHints [109] 0 [⟨0,17,1⟩] ∧ inRange (some ⟨0,1,2⟩) ⟨0,17,1⟩ = true ∧
    searchHints 3 zeroHints [109] (some ⟨0,1,2⟩) 2 = some none := by
  have hstay : hintTurn 3 loopingHints [109] none ⟨0,0,none⟩ = some (.inr ⟨0,0,none⟩) := by rfl
  have hout : hintTurn 3 shortHints [109] none ⟨0,0,none⟩ = none := by rfl
  refine ⟨?_,?_,zeroHints_wellFormed,by rfl,by rfl⟩
  · rintro ⟨fuel,hfuel⟩
    rw [searchHints,loop_stuck hstay] at hfuel
    exact hfuel rfl
  · rintro ⟨fuel,hfuel⟩
    rw [searchHints,loop_none hout] at hfuel
    exact hfuel rfl

end Blub.Boot.Mod
