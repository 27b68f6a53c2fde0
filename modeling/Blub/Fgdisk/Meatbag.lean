import Mathlib.Data.List.TakeWhile
import Blub.Fgdisk.Map

/-! Sizes on the command line, from `meatbag.c`: a number with a unit. `strtoll` is the one of the C standard in the
C locale. A string is given without its final 0. -/
namespace Blub.Fgdisk

section Ctype

def isSpace (c : UInt8) : Bool := c = 32 ∨ (9 ≤ c ∧ c ≤ 13)
def isDigit (c : UInt8) : Bool := 48 ≤ c ∧ c ≤ 57
def isAlpha (c : UInt8) : Bool := (65 ≤ c ∧ c ≤ 90) ∨ (97 ≤ c ∧ c ≤ 122)
def toLower (c : UInt8) : UInt8 := if 65 ≤ c ∧ c ≤ 90 then c+32 else c

theorem not_isDigit_of_isAlpha {c : UInt8} (h : isAlpha c = true) : isDigit c = false := by
  simp only [isAlpha,decide_eq_true_eq,UInt8.le_iff_toNat_le] at h
  simp only [isDigit,decide_eq_false_iff_not,UInt8.le_iff_toNat_le]
  have h₁ : (57 : UInt8).toNat = 57 := rfl
  have h₂ : (65 : UInt8).toNat = 65 := rfl
  have h₃ : (97 : UInt8).toNat = 97 := rfl
  omega

theorem not_isSpace_of_isDigit {c : UInt8} (h : isDigit c = true) : isSpace c = false := by
  simp only [isDigit,decide_eq_true_eq,UInt8.le_iff_toNat_le] at h
  simp only [isSpace,decide_eq_false_iff_not,UInt8.le_iff_toNat_le,← UInt8.toNat_inj]
  have h₁ : (32 : UInt8).toNat = 32 := rfl
  have h₂ : (13 : UInt8).toNat = 13 := rfl
  have h₃ : (48 : UInt8).toNat = 48 := rfl
  omega

end Ctype

section Code

inductive Errno
  | none
  | einval
  | erange
  deriving DecidableEq, Repr

def llongMax : ℤ := 2^63-1
def llongMin : ℤ := -2^63

/-- The value of a digit string. -/
def digitsVal (l : List UInt8) : ℕ := l.foldl (fun v c => 10*v+(c.toNat-48)) 0

/-- The sign in front of a number, and what follows it. -/
def splitSign : List UInt8 → List UInt8 × List UInt8
  | 43 :: s => ([43],s)
  | 45 :: s => ([45],s)
  | s => ([],s)

/-- A number cut to the range of a `long long`, with the `errno` it sets. -/
def clampOff (v : ℤ) : ℤ × Errno :=
  if llongMax < v then (llongMax,.erange) else if v < llongMin then (llongMin,.erange) else (v,.none)

/-- `strtoll` in base 10: the number, `errno`, and the place of the end pointer. -/
def strtoll (str : List UInt8) : ℤ × Errno × ℕ :=
  let ws := str.takeWhile isSpace
  let (sign,s) := splitSign (str.dropWhile isSpace)
  let digits := s.takeWhile isDigit
  if digits = [] then (0,.none,0)
  else
    let r := clampOff (if sign = [45] then -(digitsVal digits : ℤ) else digitsVal digits)
    (r.1,r.2,ws.length+sign.length+digits.length)

/-- The suffixes, `b`, `k`, `m` and `g`. -/
def multiplierOf (unit : UInt8) : Option ℤ :=
  if toLower unit = 98 then some 1
  else if toLower unit = 107 then some 1024
  else if toLower unit = 109 then some (1024*1024)
  else if toLower unit = 103 then some (1024*1024*1024)
  else none

/-- What `meat_in` returns, and what it leaves in `*size` and `errno`. -/
structure Meat where
  rc : ℤ
  size : ℤ
  errno : Errno
  deriving DecidableEq, Repr

/-- A `long long`. An overflow is undefined, and a compiler may take it not to happen. -/
def longLong (v : ℤ) : Option ℤ := if llongMin ≤ v ∧ v ≤ llongMax then some v else none

/-- `meat_in` behind the suffix. -/
def meatNumber (str : List UInt8) (multiplier : ℤ) (delimit : Option ℕ) (size : ℤ) : Option Meat :=
  let (tmp,errno,ep) := strtoll str
  if some ep ≠ delimit ∧ ep < str.length then some ⟨-1,size,errno⟩
  else if errno = .erange ∧ (tmp = llongMax ∨ tmp = llongMin) then some ⟨-1,size,errno⟩
  else (longLong (tmp*multiplier)).map fun product =>
    if tmp ≠ product.tdiv multiplier then ⟨-1,size,.erange⟩ else ⟨0,product,errno⟩

def meatIn (str : List UInt8) (size : ℤ) : Option Meat :=
  match str.getLast? with
  | none => some ⟨-1,size,.einval⟩
  | some unit =>
    if isAlpha unit then
      match multiplierOf unit with
      | none => some ⟨-1,size,.einval⟩
      | some multiplier => meatNumber str multiplier (some (str.length-1)) size
    else meatNumber str 1 none size

attribute [local grind =] splitSign meatIn

end Code

section Spec

/-- White space, a sign, digits and a rest: the shape of a number. -/
structure Numeral where
  ws : List UInt8
  sign : List UInt8
  digits : List UInt8
  ws_space : ∀ c ∈ ws, isSpace c = true
  sign_eq : sign = [] ∨ sign = [43] ∨ sign = [45]
  digits_digit : ∀ c ∈ digits, isDigit c = true
  digits_ne : digits ≠ []

def Numeral.text (n : Numeral) : List UInt8 := n.ws ++ n.sign ++ n.digits

def Numeral.value (n : Numeral) : ℤ := if n.sign = [45] then -(digitsVal n.digits : ℤ) else digitsVal n.digits

/-- A unit, or none. -/
inductive Suffix : List UInt8 → ℤ → Prop
  | none : Suffix [] 1
  | unit {c : UInt8} {multiplier : ℤ} : multiplierOf c = some multiplier → Suffix [c] multiplier

/-- The text of a size, in the range of an `int64_t`. -/
def IsSize (str : List UInt8) (v : ℤ) : Prop :=
  ∃ n : Numeral, ∃ rest multiplier, str = n.text ++ rest ∧ Suffix rest multiplier ∧ v = n.value*multiplier ∧
    -2^63 ≤ v ∧ v < 2^63

/-- `meat_in` takes the text of a size, and leaves `*size` alone otherwise. -/
def MeatMeets (str : List UInt8) : Prop :=
  ∀ size, ∃ m, meatIn str size = some m ∧ (∀ v, IsSize str v → m.rc = 0 ∧ m.size = v) ∧
    ((∀ v, ¬ IsSize str v) → m.rc = -1 ∧ m.size = size)

/-- A number that fits into a `long long` with a unit that takes it out of it. -/
def Overflows (str : List UInt8) : Prop :=
  ∃ n : Numeral, ∃ rest multiplier, str = n.text ++ rest ∧ Suffix rest multiplier ∧
    (llongMin ≤ n.value ∧ n.value ≤ llongMax) ∧ ¬ (-2^63 ≤ n.value*multiplier ∧ n.value*multiplier < 2^63)

end Spec

section Strtoll
variable {str rest s : List UInt8} {multiplier v : ℤ} {c : UInt8}

theorem splitSign_spec (s : List UInt8) : (splitSign s).1 ++ (splitSign s).2 = s ∧
    ((splitSign s).1 = [] ∨ (splitSign s).1 = [43] ∨ (splitSign s).1 = [45]) := by
  unfold splitSign
  split <;> simp

/-- A digit is no sign. -/
theorem splitSign_digit (h : isDigit c = true) : splitSign (c :: s) = ([],c :: s) := by
  unfold splitSign
  split
  · rename_i heq
    rw [(List.cons.inj heq).1] at h
    cases h
  · rename_i heq
    rw [(List.cons.inj heq).1] at h
    cases h
  · rfl

theorem Numeral.splitSign_eq (n : Numeral) (rest : List UInt8) :
    splitSign (n.sign ++ (n.digits ++ rest)) = (n.sign,n.digits ++ rest) := by
  obtain h | h | h := n.sign_eq
  · obtain ⟨c,l,hd⟩ := List.exists_cons_of_ne_nil n.digits_ne
    rw [h,hd,List.nil_append,List.cons_append]
    exact splitSign_digit (n.digits_digit c (by simp [hd]))
  · rw [h]
    rfl
  · rw [h]
    rfl

/-- The white space ends where the number begins. -/
theorem Numeral.first_not_space (n : Numeral) (rest : List UInt8) :
    ∃ c l, n.sign ++ (n.digits ++ rest) = c :: l ∧ isSpace c = false := by
  obtain h | h | h := n.sign_eq
  · obtain ⟨c,l,hd⟩ := List.exists_cons_of_ne_nil n.digits_ne
    exact ⟨c,l ++ rest,by rw [h,hd]; rfl,not_isSpace_of_isDigit (n.digits_digit c (by simp [hd]))⟩
  · exact ⟨43,n.digits ++ rest,by rw [h]; rfl,rfl⟩
  · exact ⟨45,n.digits ++ rest,by rw [h]; rfl,rfl⟩

/-- A number is read up to what is no digit. -/
theorem strtoll_numeral (n : Numeral) (hrest : ∀ c ∈ rest.head?, isDigit c = false) :
    strtoll (n.text ++ rest) = ((clampOff n.value).1,(clampOff n.value).2,n.text.length) := by
  have htext : n.text ++ rest = n.ws ++ (n.sign ++ (n.digits ++ rest)) := by
    simp only [Numeral.text,List.append_assoc]
  obtain ⟨c,l,hfirst,hc⟩ := n.first_not_space rest
  have htake : (n.text ++ rest).takeWhile isSpace = n.ws := by
    rw [htext,List.takeWhile_append_of_pos n.ws_space,hfirst,List.takeWhile_cons_of_neg (by simp [hc]),List.append_nil]
  have hdrop : (n.text ++ rest).dropWhile isSpace = n.sign ++ (n.digits ++ rest) := by
    rw [htext,List.dropWhile_append_of_pos n.ws_space,hfirst,List.dropWhile_cons_of_neg (by simp [hc])]
  have hdigits : (n.digits ++ rest).takeWhile isDigit = n.digits := by
    rw [List.takeWhile_append_of_pos n.digits_digit]
    cases rest with
    | nil => simp
    | cons d l => rw [List.takeWhile_cons_of_neg (by simp [hrest d rfl]),List.append_nil]
  unfold strtoll
  rw [htake,hdrop,n.splitSign_eq rest]
  dsimp only
  rw [hdigits,if_neg n.digits_ne]
  simp only [Numeral.text,List.length_append,Numeral.value]

/-- Either there is a number, or nothing is read at all. -/
theorem strtoll_cases (str : List UInt8) :
    (∃ n : Numeral, ∃ rest, str = n.text ++ rest ∧ ∀ c ∈ rest.head?, isDigit c = false) ∨ strtoll str = (0,.none,0) := by
  by_cases hd : (splitSign (str.dropWhile isSpace)).2.takeWhile isDigit = []
  · right
    unfold strtoll
    dsimp only
    rw [if_pos hd]
  · left
    obtain ⟨hs,hsign⟩ := splitSign_spec (str.dropWhile isSpace)
    refine ⟨⟨str.takeWhile isSpace,(splitSign (str.dropWhile isSpace)).1,
      (splitSign (str.dropWhile isSpace)).2.takeWhile isDigit,fun c hc => List.mem_takeWhile_imp hc,hsign,
      fun c hc => List.mem_takeWhile_imp hc,hd⟩,(splitSign (str.dropWhile isSpace)).2.dropWhile isDigit,?_,?_⟩
    · simp only [Numeral.text,List.append_assoc,List.takeWhile_append_dropWhile]
      rw [hs,List.takeWhile_append_dropWhile]
    · intro c hc
      have := List.head?_dropWhile_not isDigit (splitSign (str.dropWhile isSpace)).2
      rw [Option.mem_def.mp hc] at this
      simpa using this

end Strtoll

section Meets
variable {str rest : List UInt8} {multiplier v size : ℤ} {c : UInt8} {n : Numeral}

theorem multiplierOf_alpha (h : multiplierOf c = some multiplier) : isAlpha c = true := by
  have hall : ∀ i < 256, (multiplierOf (UInt8.ofNat i)).isSome = true → isAlpha (UInt8.ofNat i) = true := by
    decide +kernel
  have hc := hall c.toNat c.toNat_lt
  rw [UInt8.ofNat_toNat,h] at hc
  exact hc rfl

/-- The units are small powers of two. -/
theorem multiplierOf_eq (h : multiplierOf c = some multiplier) :
    multiplier = 1 ∨ multiplier = 1024 ∨ multiplier = 1048576 ∨ multiplier = 1073741824 := by
  unfold multiplierOf at h
  split_ifs at h <;> simp at h <;> omega

theorem longLong_eq (v : ℤ) : longLong v = if -2^63 ≤ v ∧ v < 2^63 then some v else none := by
  have hiff : (llongMin ≤ v ∧ v ≤ llongMax) ↔ (-2^63 ≤ v ∧ v < 2^63) := by
    unfold llongMin llongMax
    omega
  unfold longLong
  simp only [hiff]

theorem Suffix.bounds {rest : List UInt8} (h : Suffix rest multiplier) : 1 ≤ multiplier ∧ multiplier < 2^64 := by
  cases h with
  | none => omega
  | unit h =>
    have := multiplierOf_eq h
    omega

/-- What is no number leaves the size alone. -/
theorem meatIn_rc {m : Meat} (h : meatIn str size = some m) : m.rc = 0 ∨ m.rc = -1 ∧ m.size = size := by
  have hnumber : ∀ multiplier delimit, meatNumber str multiplier delimit size = some m →
      m.rc = 0 ∨ m.rc = -1 ∧ m.size = size := by
    intro multiplier delimit hm
    unfold meatNumber at hm
    dsimp only at hm
    split_ifs at hm
    · cases hm
      exact .inr ⟨rfl,rfl⟩
    · cases hm
      exact .inr ⟨rfl,rfl⟩
    · obtain ⟨product,-,rfl⟩ := Option.map_eq_some_iff.mp hm
      split_ifs <;> simp
  unfold meatIn at h
  split at h
  · cases h
    exact .inr ⟨rfl,rfl⟩
  · split_ifs at h
    · split at h
      · cases h
        exact .inr ⟨rfl,rfl⟩
      · exact hnumber _ _ h
    · exact hnumber _ _ h

theorem clampOff_out (h : ¬ (llongMin ≤ v ∧ v ≤ llongMax)) :
    clampOff v = (llongMax,.erange) ∨ clampOff v = (llongMin,.erange) := by
  unfold clampOff
  by_cases h₁ : llongMax < v
  · exact .inl (if_pos h₁)
  · rw [if_neg h₁]
    exact .inr (if_pos (not_le.mp fun h₂ => h ⟨h₂,not_lt.mp h₁⟩))

/-- What becomes of a number with a unit. -/
def meatOf (value multiplier size : ℤ) : Option Meat :=
  if llongMin ≤ value ∧ value ≤ llongMax then
    if -2^63 ≤ value*multiplier ∧ value*multiplier < 2^63 then some ⟨0,value*multiplier,.none⟩ else none
  else some ⟨-1,size,.erange⟩

/-- The number in front of the suffix is taken if the product fits. -/
theorem meatNumber_numeral (rest : List UInt8) (delimit : Option ℕ) (hrest : ∀ c ∈ rest.head?, isDigit c = false)
    (hm : 1 ≤ multiplier ∧ multiplier < 2^64) (hd : some n.text.length = delimit ∨ rest = []) :
    meatNumber (n.text ++ rest) multiplier delimit size = meatOf n.value multiplier size := by
  unfold meatNumber meatOf
  rw [strtoll_numeral n hrest]
  dsimp only
  have hend : ¬ (some n.text.length ≠ delimit ∧ n.text.length < (n.text ++ rest).length) := by
    rintro ⟨h₁,h₂⟩
    rcases hd with hd | rfl
    · exact h₁ hd
    · simp at h₂
  rw [if_neg hend]
  by_cases hv : llongMin ≤ n.value ∧ n.value ≤ llongMax
  · have hclamp : clampOff n.value = (n.value,.none) := by
      unfold clampOff
      rw [if_neg (not_lt.mpr hv.2),if_neg (not_lt.mpr hv.1)]
    rw [hclamp,if_neg (by rintro ⟨h,-⟩; cases h),if_pos hv,longLong_eq]
    by_cases hfit : -2^63 ≤ n.value*multiplier ∧ n.value*multiplier < 2^63
    · rw [if_pos hfit,if_pos hfit,Option.map_some,if_neg (not_not.mpr (Int.mul_tdiv_cancel _ (by omega)).symm)]
    · rw [if_neg hfit,if_neg hfit]
      rfl
  · rw [if_neg hv]
    obtain hclamp | hclamp := clampOff_out hv
    · rw [hclamp,if_pos ⟨rfl,.inl rfl⟩]
    · rw [hclamp,if_pos ⟨rfl,.inr rfl⟩]

theorem Numeral.getLast (n : Numeral) : ∃ c, n.text.getLast? = some c ∧ isDigit c = true := by
  refine ⟨n.digits.getLast n.digits_ne,?_,n.digits_digit _ (List.getLast_mem _)⟩
  rw [Numeral.text,List.getLast?_append_of_ne_nil _ n.digits_ne,List.getLast?_eq_getLast_of_ne_nil n.digits_ne]

/-- The text of a size is taken. -/
theorem meatIn_numeral (hs : Suffix rest multiplier) :
    meatIn (n.text ++ rest) size = meatOf n.value multiplier size := by
  cases hs with
  | none =>
    obtain ⟨c,hlast,hc⟩ := n.getLast
    have halpha : ¬ isAlpha c = true := fun h => by
      rw [not_isDigit_of_isAlpha h] at hc
      cases hc
    rw [← meatNumber_numeral [] none nofun (by omega) (.inr rfl)]
    unfold meatIn
    rw [List.append_nil,hlast]
    dsimp only
    rw [if_neg halpha]
  | @unit c _ hc =>
    have halpha := multiplierOf_alpha hc
    have hdigit : ∀ d ∈ [c].head?, isDigit d = false := by
      rintro d ⟨⟩
      exact not_isDigit_of_isAlpha halpha
    rw [← meatNumber_numeral [c] (some n.text.length) hdigit (Suffix.unit hc).bounds (.inl rfl)]
    unfold meatIn
    rw [List.getLast?_concat]
    dsimp only
    rw [if_pos halpha,hc]
    simp only [List.length_append,List.length_singleton,Nat.add_sub_cancel]

/-- What is taken ends where the number does, or behind it. -/
theorem meatNumber_rc {delimit : Option ℕ} (h : ∀ m, meatNumber str multiplier delimit size = some m → m.rc = 0) :
    some (strtoll str).2.2 = delimit ∨ str.length ≤ (strtoll str).2.2 := by
  by_contra hc
  rw [not_or,not_le] at hc
  have hrc := h ⟨-1,size,(strtoll str).2.1⟩ (by unfold meatNumber; exact if_pos hc)
  cases hrc

/-- A lone unit is not the text of a size. -/
theorem not_isSize_unit (h : isAlpha c = true) : ¬ IsSize [c] v := by
  rintro ⟨n,rest,multiplier,htext,-⟩
  have hlen : 1 ≤ n.digits.length := List.length_pos_of_ne_nil n.digits_ne
  have hsum := congrArg List.length htext
  simp only [Numeral.text,List.length_append,List.length_singleton] at hsum
  have hmem : ∃ d ∈ n.digits, d ∈ [c] := by
    obtain ⟨d,l,hd⟩ := List.exists_cons_of_ne_nil n.digits_ne
    exact ⟨d,by simp [hd],by rw [htext]; simp [Numeral.text,hd]⟩
  obtain ⟨d,hd,hdc⟩ := hmem
  have := n.digits_digit d hd
  rw [List.mem_singleton.mp hdc,not_isDigit_of_isAlpha h] at this
  cases this

/-- A lone unit is read as 0 times that unit. -/
theorem meatIn_unit (h : multiplierOf c = some multiplier) : meatIn [c] size = some ⟨0,0,.none⟩ := by
  have halpha := multiplierOf_alpha h
  have hnum : strtoll [c] = (0,.none,0) := by
    rcases strtoll_cases [c] with ⟨n,rest,htext,-⟩ | hz
    · obtain ⟨d,l,hd⟩ := List.exists_cons_of_ne_nil n.digits_ne
      have hmem : d ∈ [c] := by
        rw [htext]
        simp [Numeral.text,hd]
      have hdigit := n.digits_digit d (by simp [hd])
      rw [List.mem_singleton.mp hmem,not_isDigit_of_isAlpha halpha] at hdigit
      cases hdigit
    · exact hz
  unfold meatIn meatNumber
  rw [List.getLast?_singleton]
  dsimp only
  rw [if_pos halpha,h]
  dsimp only
  rw [hnum]
  simp [longLong,llongMin,llongMax]

/-- What is taken is a number with a unit, or a unit alone. -/
theorem meatIn_taken (h : ∀ m, meatIn str size = some m → m.rc = 0) :
    (∃ n : Numeral, ∃ rest multiplier, str = n.text ++ rest ∧ Suffix rest multiplier) ∨
      ∃ c multiplier, str = [c] ∧ multiplierOf c = some multiplier := by
  unfold meatIn at h
  split at h
  · cases h _ rfl
  · rename_i unit hunit
    have hne : str ≠ [] := by
      rintro rfl
      cases hunit
    have hpos := List.length_pos_of_ne_nil hne
    split_ifs at h with halpha
    · split at h
      · cases h _ rfl
      · rename_i multiplier hm
        have hend := meatNumber_rc h
        rcases strtoll_cases str with ⟨n,rest,htext,hrest⟩ | hz
        · rw [htext,strtoll_numeral n hrest,← htext] at hend
          dsimp only at hend
          have hlen := congrArg List.length htext
          rw [List.length_append] at hlen
          rcases rest with _ | ⟨d,_ | ⟨e,l⟩⟩
          · exact .inl ⟨n,[],1,htext,.none⟩
          · rw [htext,List.getLast?_concat,Option.some.injEq] at hunit
            exact .inl ⟨n,[d],multiplier,htext,.unit (hunit ▸ hm)⟩
          · simp only [List.length_cons,Option.some.injEq] at hlen hend
            omega
        · rw [hz] at hend
          simp only [Option.some.injEq] at hend
          have hone : str.length = 1 := by omega
          obtain ⟨d,rfl⟩ := List.length_eq_one_iff.mp hone
          rw [List.getLast?_singleton,Option.some.injEq] at hunit
          exact .inr ⟨d,multiplier,rfl,hunit ▸ hm⟩
    · have hend := meatNumber_rc h
      rcases strtoll_cases str with ⟨n,rest,htext,hrest⟩ | hz
      · rw [htext,strtoll_numeral n hrest,← htext] at hend
        have hlen := congrArg List.length htext
        rw [List.length_append] at hlen
        rcases rest with _ | ⟨d,l⟩
        · exact .inl ⟨n,[],1,htext,.none⟩
        · simp only [List.length_cons,reduceCtorEq,false_or] at hlen hend
          omega
      · rw [hz] at hend
        simp only [reduceCtorEq,false_or] at hend
        omega

/-- A number out of range gives a product out of range. -/
theorem Suffix.range_of_fits (hs : Suffix rest multiplier) (h : -2^63 ≤ v*multiplier ∧ v*multiplier < 2^63) :
    llongMin ≤ v ∧ v ≤ llongMax := by
  have hm := hs.bounds
  unfold llongMin llongMax
  rcases lt_or_ge v 0 with hneg | hpos
  · have := Int.mul_le_mul_of_nonpos_left hneg.le hm.1
    omega
  · have := Int.mul_le_mul_of_nonneg_left hm.1 hpos
    omega

/-- `meat_in` takes the sizes and nothing else, but for a unit without a number, and where the product overflows. -/
theorem meatIn_meets_iff (str : List UInt8) :
    MeatMeets str ↔ (¬ ∃ c multiplier, str = [c] ∧ multiplierOf c = some multiplier) ∧ ¬ Overflows str := by
  constructor
  · intro h
    constructor
    · rintro ⟨c,multiplier,rfl,hc⟩
      obtain ⟨m,hm,-,hrc⟩ := h 1
      rw [meatIn_unit hc] at hm
      cases hm
      cases (hrc fun v => not_isSize_unit (multiplierOf_alpha hc)).1
    · rintro ⟨n,rest,multiplier,rfl,hs,hv,hfit⟩
      obtain ⟨m,hm,-⟩ := h 1
      rw [meatIn_numeral hs,meatOf,if_pos hv,if_neg hfit] at hm
      cases hm
  · rintro ⟨hno,hover⟩ size
    by_cases hnum : ∃ n : Numeral, ∃ rest multiplier, str = n.text ++ rest ∧ Suffix rest multiplier
    · obtain ⟨n,rest,multiplier,rfl,hs⟩ := hnum
      by_cases hfit : -2^63 ≤ n.value*multiplier ∧ n.value*multiplier < 2^63
      · refine ⟨⟨0,n.value*multiplier,.none⟩,?_,?_,fun hsize => absurd ⟨n,rest,multiplier,rfl,hs,rfl,hfit⟩ (hsize _)⟩
        · rw [meatIn_numeral hs,meatOf,if_pos (hs.range_of_fits hfit),if_pos hfit]
        · rintro v ⟨n',rest',multiplier',htext,hs',rfl,hfit'⟩
          have hsame : meatOf n.value multiplier size = meatOf n'.value multiplier' size := by
            rw [← meatIn_numeral hs,htext,meatIn_numeral hs']
          rw [meatOf,meatOf,if_pos (hs.range_of_fits hfit),if_pos hfit,if_pos (hs'.range_of_fits hfit'),if_pos hfit'] at hsame
          exact ⟨rfl,congrArg Meat.size (Option.some.inj hsame)⟩
      · have hv : ¬ (llongMin ≤ n.value ∧ n.value ≤ llongMax) := fun hv => hover ⟨n,rest,multiplier,rfl,hs,hv,hfit⟩
        refine ⟨⟨-1,size,.erange⟩,?_,?_,fun _ => ⟨rfl,rfl⟩⟩
        · rw [meatIn_numeral hs,meatOf,if_neg hv]
        · rintro v ⟨n',rest',multiplier',htext,hs',rfl,hfit'⟩
          have hsame : meatOf n.value multiplier size = meatOf n'.value multiplier' size := by
            rw [← meatIn_numeral hs,htext,meatIn_numeral hs']
          rw [meatOf,meatOf,if_neg hv,if_pos (hs'.range_of_fits hfit'),if_pos hfit'] at hsame
          cases hsame
    · -- what is no number with a unit is refused
      have hrefused : ∃ m, meatIn str size = some m ∧ m.rc ≠ 0 := by
        by_contra! hall
        obtain h | h := meatIn_taken hall
        · exact hnum h
        · exact hno h
      obtain ⟨m,hm,hrc⟩ := hrefused
      refine ⟨m,hm,?_,fun _ => (meatIn_rc hm).resolve_left hrc⟩
      rintro v ⟨n,rest,multiplier,htext,hs,-⟩
      exact absurd ⟨n,rest,multiplier,htext,hs⟩ hnum

/-- The size of `k` is 0. -/
theorem meatIn_lone_k : ¬ MeatMeets [107] := fun h => by
  obtain ⟨m,hm,-,hrc⟩ := h 5
  rw [show meatIn [107] 5 = some ⟨0,0,.none⟩ by decide] at hm
  cases hm
  cases (hrc fun v => not_isSize_unit rfl).1

end Meets

end Blub.Fgdisk
