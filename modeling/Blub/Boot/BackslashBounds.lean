import Blub.Boot.Parse
import Blub.Lib.CStr
import Blub.Lib.Cells

/-! `backslash` of `interp_backslash.c` with each access to the string and to its copy. A call yields `none` where the
source would read or write outside of them. -/
namespace Blub.Boot.Backslash
open Cells

section Code
variable (str : List UInt8)

/-- A condition on the byte at an index. -/
def look (p : ℕ) (f : UInt8 → Bool) : Option Bool := str[p]?.map f

/-- `&&`: the second condition is looked at behind a first one that holds. -/
def also (a b : Option Bool) : Option Bool := a.bind fun x => if x then b else some false

def octalAt (p : ℕ) : Option Bool :=
  also (look str p fun c => 48 ≤ c && c ≤ 51) (also (look str (p+1) isoctal) (look str (p+2) isoctal))

def hexAt (p : ℕ) : Option Bool :=
  also (look str p (· = 48)) (also (look str (p+1) fun d => d = 120 || d = 88) (look str (p+2) isxdigit))

/-- The three digits of an octal constant. -/
def octalValue (p : ℕ) : Option UInt8 :=
  str[p]?.bind fun c => str[p+1]?.bind fun d => str[p+2]?.map fun e => (digit c <<< 6)+(digit d <<< 3)+digit e

/-- A hex constant of one or two digits: its value, and where it ends. -/
def hexValue (p : ℕ) : Option (UInt8 × ℕ) :=
  str[p+2]?.bind fun e => str[p+3]?.map fun g =>
    if isxdigit g then ((digit e <<< 4)+digit g,p+4) else (digit e,p+3)

/-- The `switch` for the byte `c` behind a backslash: what is written, and where the string goes on. A digit without a
constant is left where it is. -/
def escape (p : ℕ) (c : UInt8) : Option (List UInt8 × ℕ) :=
  if c = chBackslash then some ([chBackslash],p+1)
  else if c = chSquote ∨ c = chDquote ∨ c = chDollar then some ([chBackslash,c],p+1)
  else
    match escapes.lookup c with
    | some out => some (out,p+1)
    | none =>
      if isdigit c then
        (octalAt str p).bind fun octal =>
          if octal then (octalValue str p).map fun val => ([val],p+3)
          else (hexAt str p).bind fun hex =>
            if hex then (hexValue str p).map fun (val,p) => ([val],p) else some ([],p)
      else some ([c],p+1)

/-- The loop of `backslash`, for at most `fuel` turns: the final `i`, `seenbs` and the copy. -/
def turns : ℕ → ℕ → Bool → ℕ → List UInt8 → Option (ℕ × Bool × List UInt8)
  | 0, _, _, _, _ => none
  | fuel+1, p, seenbs, i, new =>
    str[p]?.bind fun c =>
      if c = 0 then some (i,seenbs,new)
      else if seenbs then
        (escape str p c).bind fun (out,p) => (putAll new i out).bind fun new => turns fuel p false (i+out.length) new
      else if c = chBackslash then turns fuel (p+1) true i new
      else (put new i c).bind fun new => turns fuel (p+1) false (i+1) new

/-- `backslash`, with the copy that `strdup` has made. -/
def backslashCells (new : List UInt8) : Option (List UInt8) :=
  (turns str (2*str.length) 0 false 0 new).bind fun (i,seenbs,new) =>
    let last := if seenbs then [chBackslash] else []
    (putAll new i last).bind fun new => put new (i+last.length) 0

attribute [local grind =] turns

end Code

section Escape
variable {pre r suf : List UInt8} {c d e g : UInt8}

theorem octalAt_short : octalAt (pre ++ [c,0]) pre.length = some false := by
  have hoctal : isoctal 0 = false := rfl
  simp [octalAt,look,also,hoctal]

theorem hexAt_short : hexAt (pre ++ [c,0]) pre.length = some false := by
  simp [hexAt,look,also]

theorem octalAt_long : octalAt (pre ++ c :: d :: e :: r) pre.length =
    some (decide (48 ≤ c ∧ c ≤ 51 ∧ isoctal d ∧ isoctal e)) := by
  simp only [octalAt,look,also]
  cases hd : isoctal d <;> by_cases h₁ : 48 ≤ c <;> by_cases h₂ : c ≤ 51 <;> simp [hd,h₁,h₂]

theorem hexAt_long : hexAt (pre ++ c :: d :: e :: r) pre.length =
    some (decide (c = 48 ∧ (d = 120 ∨ d = 88) ∧ isxdigit e)) := by
  simp only [hexAt,look,also]
  by_cases hc : c = 48 <;> by_cases hd : d = 120 ∨ d = 88 <;> simp [hc,hd]

theorem octalValue_at : octalValue (pre ++ c :: d :: e :: r) pre.length =
    some ((digit c <<< 6)+(digit d <<< 3)+digit e) := by
  simp [octalValue]

theorem hexValue_at : hexValue (pre ++ c :: d :: e :: g :: r) pre.length =
    some (if isxdigit g then ((digit e <<< 4)+digit g,pre.length+4) else (digit e,pre.length+3)) := by
  simp [hexValue]

/-- No digit has another meaning behind a backslash. -/
theorem digit_plain (hd : isdigit c) :
    c ≠ chBackslash ∧ ¬(c = chSquote ∨ c = chDquote ∨ c = chDollar) ∧ escapes.lookup c = none := by
  refine ⟨?_,?_,?_⟩
  · rintro rfl
    cases hd
  · rintro (rfl | rfl | rfl) <;> cases hd
  rw [List.lookup_eq_none_iff]
  intro x hx
  have hnot : ∀ x ∈ escapes, isdigit x.1 = false := by decide
  rw [bne_iff_ne]
  rintro rfl
  rw [hnot x hx] at hd
  cases hd

theorem escapes_short {out : List UInt8} (h : escapes.lookup c = some out) : out.length ≤ 1 := by
  obtain ⟨l,l',heq,-⟩ := List.lookup_eq_some_iff.mp h
  have hall : ∀ x ∈ escapes, x.2.length ≤ 1 := by decide
  exact hall (c,out) (by rw [heq]; simp)

theorem escape_digit (pre : List UInt8) (hd : isdigit c) : ∃ out k, k ≤ suf.length+1 ∧
    out.length ≤ k+1 ∧ escape (pre ++ c :: (suf ++ [0])) pre.length c = some (out,pre.length+k) ∧
    backslashGo true (c :: suf) = out ++ backslashGo false ((c :: suf).drop k) := by
  obtain ⟨h₁,h₂,h₃⟩ := digit_plain hd
  have hlow : 48 ≤ c := by
    rw [isdigit,Bool.and_eq_true,decide_eq_true_iff] at hd
    exact hd.1
  have hagain : backslashGo false (c :: suf) = c :: backslashGo false suf := by rw [backslashGo,if_neg h₁]
  rw [escape,if_neg h₁,if_neg h₂,h₃,backslashGo.eq_def]
  dsimp only
  rw [if_neg h₁,if_neg h₂,h₃]
  dsimp only
  rw [if_pos hd,if_pos hd]
  rcases suf with _ | ⟨d,_ | ⟨e,s⟩⟩
  · refine ⟨[],0,Nat.zero_le _,Nat.zero_le _,?_,hagain.symm⟩
    rw [List.nil_append,octalAt_short,Option.bind_some,hexAt_short]
    rfl
  · refine ⟨[],0,Nat.zero_le _,Nat.zero_le _,?_,hagain.symm⟩
    have hoctal : ¬(48 ≤ c ∧ c ≤ 51 ∧ isoctal d ∧ isoctal 0) := fun h => by cases h.2.2.2
    have hhex : ¬(c = 48 ∧ (d = 120 ∨ d = 88) ∧ isxdigit 0) := fun h => by cases h.2.2
    rw [List.cons_append,List.nil_append,octalAt_long,Option.bind_some,hexAt_long,decide_eq_false hoctal,
      decide_eq_false hhex]
    rfl
  · rw [List.cons_append,List.cons_append,octalAt_long,Option.bind_some,hexAt_long]
    dsimp only
    by_cases hoctal : c ≤ 51 ∧ isoctal d ∧ isoctal e
    · rw [decide_eq_true ⟨hlow,hoctal⟩,if_pos rfl,if_pos hoctal,octalValue_at]
      exact ⟨_,3,by simp,by simp,rfl,rfl⟩
    rw [decide_eq_false fun h => hoctal h.2,if_neg Bool.false_ne_true,if_neg hoctal,Option.bind_some]
    by_cases hhex : c = 48 ∧ (d = 120 ∨ d = 88) ∧ isxdigit e
    · rw [decide_eq_true hhex,if_pos rfl,if_pos hhex]
      cases s with
      | nil =>
        rw [List.nil_append,hexValue_at,if_neg (by decide)]
        exact ⟨_,3,by simp,by simp,rfl,rfl⟩
      | cons g s =>
        rw [List.cons_append,hexValue_at]
        dsimp only
        by_cases hg : isxdigit g
        · rw [if_pos hg,if_pos hg]
          exact ⟨_,4,by simp,by simp,rfl,rfl⟩
        · rw [if_neg hg,if_neg hg]
          exact ⟨_,3,by simp,by simp,rfl,rfl⟩
    · rw [decide_eq_false hhex,if_neg Bool.false_ne_true,if_neg hhex]
      exact ⟨[],0,Nat.zero_le _,Nat.zero_le _,rfl,hagain.symm⟩

/-- What the `switch` does with the string behind a backslash is what the list of bytes tells. -/
theorem escape_spec (pre : List UInt8) : ∃ out k, k ≤ suf.length+1 ∧ out.length ≤ k+1 ∧
    escape (pre ++ c :: (suf ++ [0])) pre.length c = some (out,pre.length+k) ∧
    backslashGo true (c :: suf) = out ++ backslashGo false ((c :: suf).drop k) := by
  by_cases hd : isdigit c
  · exact escape_digit pre hd
  rw [escape,backslashGo.eq_def]
  dsimp only
  by_cases h₁ : c = chBackslash
  · rw [if_pos h₁,if_pos h₁]
    exact ⟨_,1,by simp,by simp,rfl,rfl⟩
  rw [if_neg h₁,if_neg h₁]
  by_cases h₂ : c = chSquote ∨ c = chDquote ∨ c = chDollar
  · rw [if_pos h₂,if_pos h₂]
    exact ⟨_,1,by simp,by simp,rfl,rfl⟩
  rw [if_neg h₂,if_neg h₂]
  cases h₃ : escapes.lookup c with
  | some out => exact ⟨out,1,by simp,(escapes_short h₃).trans (by simp),rfl,rfl⟩
  | none =>
    dsimp only
    rw [if_neg hd,if_neg hd]
    exact ⟨_,1,by simp,by simp,rfl,rfl⟩

end Escape

section Turns
variable {m w suf : List UInt8}

/-- The bytes that are still to be written for the rest of a string are no more than its bytes, with a backslash that is
held back counted as one. -/
theorem turns_eq (fuel : ℕ) (hs : 0 ∉ suf) (pre : List UInt8) (seenbs : Bool)
    (hroom : w.length+(suf.length+seenbs.toNat) < m.length) (hfuel : 2*suf.length+seenbs.toNat < fuel) :
    ∃ out last, turns (pre ++ (suf ++ [0])) fuel pre.length seenbs w.length (overlay m w) =
        some (out.length,last,overlay m out) ∧
      w ++ backslashGo seenbs suf = out ++ (if last then [chBackslash] else []) ∧
      (w ++ backslashGo seenbs suf).length ≤ w.length+(suf.length+seenbs.toNat) := by
  induction fuel generalizing suf pre w seenbs with
  | zero => omega
  | succ fuel ih =>
    cases suf with
    | nil =>
      refine ⟨w,seenbs,by simp [turns],?_,?_⟩
      · rw [backslashGo]
      · cases seenbs <;> simp [backslashGo]
    | cons c suf =>
      have hread : (pre ++ (c :: suf ++ [0]))[pre.length]? = some c := by simp
      have hc : c ≠ 0 := fun h => hs (h ▸ List.mem_cons_self)
      have hs' : 0 ∉ suf := fun h => hs (List.mem_cons_of_mem c h)
      rw [List.length_cons] at hroom hfuel
      rw [turns,hread,Option.bind_some,if_neg hc,List.length_cons]
      cases seenbs with
      | true =>
        rw [if_pos rfl]
        obtain ⟨out,k,hk,hout,hrun,hgo⟩ := @escape_spec suf c pre
        have hk' : k ≤ (c :: suf).length := hk
        have hdrop : 0 ∉ (c :: suf).drop k := fun h => hs (List.mem_of_mem_drop h)
        have hlen : ((c :: suf).drop k).length = suf.length+1-k := List.length_drop
        have hpre : (pre ++ (c :: suf).take k).length = pre.length+k := by
          rw [List.length_append,List.length_take_of_le hk']
        have hmem : pre ++ (c :: suf).take k ++ ((c :: suf).drop k ++ [0]) = pre ++ c :: (suf ++ [0]) := by
          rw [List.append_assoc,← List.append_assoc ((c :: suf).take k),List.take_append_drop,List.cons_append]
        obtain ⟨all,last,hturns,hall,hbound⟩ := @ih (w ++ out) _ hdrop (pre ++ (c :: suf).take k) false
          (by rw [List.length_append,hlen]; simp at hroom ⊢; omega) (by rw [hlen]; simp at hfuel ⊢; omega)
        rw [hpre,hmem,List.length_append] at hturns
        rw [List.append_assoc,← hgo] at hall hbound
        rw [List.cons_append,hrun,Option.bind_some]
        dsimp only
        rw [putAll_overlay (by simp at hroom; omega),Option.bind_some]
        refine ⟨all,last,hturns,hall,hbound.trans ?_⟩
        rw [List.length_append,hlen]
        simp only [Bool.toNat_false,Bool.toNat_true]
        omega
      | false =>
        rw [if_neg Bool.false_ne_true,backslashGo]
        have hmem : pre ++ [c] ++ (suf ++ [0]) = pre ++ (c :: suf ++ [0]) := by simp
        have hpre : (pre ++ [c]).length = pre.length+1 := by simp
        simp only [Bool.toNat_false] at hroom hfuel
        by_cases hb : c = chBackslash
        · rw [if_pos hb,if_pos hb]
          obtain ⟨all,last,hturns,hall,hbound⟩ := @ih w suf hs' (pre ++ [c]) true hroom (by simp; omega)
          rw [hpre,hmem] at hturns
          exact ⟨all,last,hturns,hall,hbound⟩
        · rw [if_neg hb,if_neg hb,put_overlay (by omega),Option.bind_some]
          obtain ⟨all,last,hturns,hall,hbound⟩ := @ih (w ++ [c]) suf hs' (pre ++ [c]) false (by simp; omega)
            (by simp; omega)
          rw [hpre,hmem,List.length_append,List.length_singleton] at hturns
          rw [List.append_assoc,List.singleton_append] at hall hbound
          refine ⟨all,last,hturns,hall,hbound.trans ?_⟩
          rw [List.length_append,List.length_singleton]
          simp only [Bool.toNat_false]
          omega

end Turns

/-- `strdup`, of a string in its memory. -/
def strdup (str : CStr) : List UInt8 := str.bytes ++ [0]

/-- `backslash` returns, without an access outside of the string with its 0 or of the copy of that size. What it writes
are the first bytes of the copy, one after the other, and the last one is 0. -/
theorem backslash_inside (str : CStr) : (backslash str.bytes).length ≤ str.bytes.length ∧
    backslashCells (str.bytes ++ [0]) (strdup str) = some (overlay (strdup str) (backslash str.bytes ++ [0])) := by
  have hlen : (strdup str).length = str.bytes.length+1 := by simp [strdup]
  obtain ⟨out,last,hturns,hall,hbound⟩ := turns_eq (m := strdup str) (w := []) (2*(str.bytes ++ [0]).length) str.nonzero []
    false (by simp [strdup]) (by simp)
  simp only [List.nil_append,List.length_nil,overlay_nil,Bool.toNat_false,Nat.zero_add,Nat.add_zero] at hturns hall hbound
  have hend : (out ++ if last then [chBackslash] else []).length < (strdup str).length := by
    rw [← hall,hlen]
    exact Nat.lt_succ_of_le hbound
  refine ⟨hbound,?_⟩
  rw [backslashCells,hturns,Option.bind_some]
  dsimp only
  rw [putAll_overlay (List.length_append ▸ hend.le),Option.bind_some,← List.length_append,put_overlay hend,backslash,hall]

-- `a\n\`: a backslash at the end stays
example : backslashCells [97,92,110,92,0] [97,92,110,92,0] = some [97,10,92,0,0] := by decide

end Blub.Boot.Backslash
