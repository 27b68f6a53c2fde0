import Blub.Lib.Decimal

/-! The names of disk devices, `disk_fmtdev` and `disk_parsedev` of `disk.c`, with GPT and MBR support. A string is its bytes
before the terminating zero. -/
namespace Blub.Boot
open Blub.Decimal

section Code

def strtolSpace (c : UInt8) : Bool := decide (c.toNat = 32 ∨ 9 ≤ c.toNat ∧ c.toNat ≤ 13)

/-- The digits of `strtol` in base 10, where a letter ends them: the number, `any` and what follows. -/
def strtolLoop (cutoff cutlim : ℕ) : List UInt8 → ℕ → ℤ → ℕ × ℤ × List UInt8
  | [], acc, any => (acc,any,[])
  | c::s, acc, any =>
    if isDigit c then
      if any < 0 ∨ cutoff < acc ∨ (acc = cutoff ∧ cutlim < c.toNat-48) then strtolLoop cutoff cutlim s acc (-1)
      else strtolLoop cutoff cutlim s (more acc c) 1
    else (acc,any,c::s)

/-- `strtol` in base 10, for a `long` of so many bits: the number and what is at `*endptr`. -/
def strtol (bits : ℕ) (nptr : List UInt8) : ℤ × List UInt8 :=
  let s := nptr.dropWhile strtolSpace
  let neg := s.head? = some 45
  let s := if s.head? = some 45 ∨ s.head? = some 43 then s.tail else s
  let cutoff := if neg then 2^(bits-1) else 2^(bits-1)-1
  let r := strtolLoop (cutoff/10) (cutoff%10) s 0 0
  let acc : ℤ := if r.2.1 < 0 then (if neg then -2^(bits-1) else 2^(bits-1)-1) else if neg then -(r.1 : ℤ) else r.1
  (acc,if r.2.1 = 0 then nptr else r.2.2)

/-- A conversion to `int`. -/
def toInt (n : ℤ) : ℤ := (n+2^31)%2^32-2^31

/-- `%d`. -/
def printInt (n : ℤ) : List UInt8 := if n < 0 then 45::decimal n.natAbs else decimal n.toNat

def diskFmtdev (dvName : List UInt8) (unit slice partition : ℤ) : List UInt8 :=
  let buf := dvName ++ printInt unit
  if 0 ≤ slice ∧ partition = 255 then buf ++ [112] ++ printInt slice ++ [58]
  else
    let buf := if 0 ≤ slice then buf ++ [115] ++ printInt slice else buf
    let buf := if 0 ≤ partition then buf ++ [UInt8.ofNat (partition+97).toNat] else buf
    buf ++ [58]

inductive DevError
  | eunit | eslice | epart | einval
  deriving DecidableEq

/-- A device, and the rest of the name. -/
structure ParsedDev where
  unit : ℤ
  slice : ℤ
  partition : ℤ
  path : List UInt8
  deriving DecidableEq

/-- The end of a name or of a device. -/
def AtEnd (cp : List UInt8) : Prop := cp = [] ∨ cp.head? = some 58

attribute [local grind =] strtolLoop

instance (cp : List UInt8) : Decidable (AtEnd cp) := inferInstanceAs (Decidable (_ ∨ _))

/-- `disk_parsedev` after the slice. -/
def parsePartition (unit slice partition : ℤ) (cp : List UInt8) : Except DevError ParsedDev :=
  match cp with
  | [] => .ok ⟨unit,slice,partition,[]⟩
  | c::cp =>
    if c = 58 then .ok ⟨unit,slice,partition,cp⟩
    else if c.toNat < 97 ∨ 128 ≤ c.toNat then .error .epart
    else if AtEnd cp then .ok ⟨unit,slice,(c.toNat : ℤ)-97,cp.tail⟩
    else .error .einval

/-- `disk_parsedev`. A partition letter is a `char`, which is signed. -/
def diskParsedev (bits : ℕ) (devspec : List UInt8) : Except DevError ParsedDev :=
  if AtEnd devspec then .error .einval
  else
    let u := strtol bits devspec
    if u.2 = devspec then .error .eunit
    else
      match u.2 with
      | 112::np =>
        let s := strtol bits np
        if s.2 = np then .error .eslice
        else if ¬AtEnd s.2 then .error .einval
        else parsePartition (toInt u.1) (toInt s.1) 255 s.2
      | 115::np =>
        let s := strtol bits np
        if s.2 = np then .error .eslice
        else parsePartition (toInt u.1) (toInt s.1) (-1) s.2
      | cp => parsePartition (toInt u.1) (-1) (-1) cp

attribute [local grind =] diskParsedev

end Code

/-- The name of a device is read back, to its end. -/
def NameRoundTrips (bits : ℕ) (dvName : List UInt8) (unit slice partition : ℤ) : Prop :=
  diskParsedev bits ((diskFmtdev dvName unit slice partition).drop dvName.length) = .ok ⟨unit,slice,partition,[]⟩

section Spec
variable {bits : ℕ}

/-- The digits of a number that is small enough are read, up to what is no digit. -/
theorem strtolLoop_digits (max : ℕ) {l : List UInt8} (rest : List UInt8) (hl : ∀ c ∈ l, isDigit c = true) {e : UInt8}
    (he : isDigit e = false) {acc : ℕ} {any : ℤ} (hany : 0 ≤ any) (hmax : l.foldl more acc ≤ max) :
    strtolLoop (max/10) (max%10) (l++e::rest) acc any = (l.foldl more acc,if l = [] then any else 1,e::rest) := by
  induction l generalizing acc any with
  | nil =>
    rw [List.nil_append,strtolLoop,he]
    rfl
  | cons c l ih =>
    have hc := hl c List.mem_cons_self
    have hnext := (le_value l (more acc c)).trans hmax
    have hdigit : ¬(any < 0 ∨ max/10 < acc ∨ (acc = max/10 ∧ max%10 < c.toNat-48)) := by
      unfold more at hnext
      omega
    rw [List.cons_append,strtolLoop,if_pos hc,if_neg hdigit,ih (fun x hx => hl x (List.mem_cons_of_mem _ hx)) (by decide) hmax]
    simp

theorem strtol_decimal (hbits : bits = 32 ∨ bits = 64) {n : ℕ} (hn : n < 2^31) {e : UInt8} (he : isDigit e = false)
    (rest : List UInt8) : strtol bits (decimal n++e::rest) = ((n : ℤ),e::rest) := by
  obtain ⟨c,l,hcl⟩ := List.exists_cons_of_ne_nil (decimal_ne n)
  have hc : isDigit c = true := isDigit_decimal (hcl ▸ List.mem_cons_self)
  simp only [isDigit,decide_eq_true_eq] at hc
  have hspace : (decimal n++e::rest).dropWhile strtolSpace = decimal n++e::rest := by
    rw [hcl,List.cons_append,List.dropWhile_cons_of_neg]
    simp only [strtolSpace,decide_eq_true_eq]
    omega
  have hsign : (decimal n++e::rest).head? ≠ some 45 ∧ (decimal n++e::rest).head? ≠ some 43 := by
    rw [hcl,List.cons_append,List.head?_cons]
    constructor <;> (rintro ⟨⟩; exact absurd hc (by decide))
  have hmax : (decimal n).foldl more 0 ≤ 2^(bits-1)-1 := by
    rw [value_decimal]
    rcases hbits with rfl | rfl
    · exact Nat.le_sub_one_of_lt hn
    · exact Nat.le_sub_one_of_lt (hn.trans (by decide))
  have hloop := strtolLoop_digits (2^(bits-1)-1) rest (fun c hc => isDigit_decimal hc) he le_rfl hmax
  rw [value_decimal,if_neg (decimal_ne n)] at hloop
  unfold strtol
  rw [hspace]
  simp only [hsign.1,hsign.2,or_self,if_false,hloop]
  rfl

theorem toInt_eq {n : ℕ} (hn : n < 2^31) : toInt n = n := by
  unfold toInt
  omega

/-- A number that is read ends where it does, and not at its start. -/
theorem decimal_append_ne (n : ℕ) (rest : List UInt8) : rest ≠ decimal n++rest := by
  intro h
  have hlen := congrArg List.length h
  have hpos := List.length_pos_iff.mpr (decimal_ne n)
  rw [List.length_append] at hlen
  omega

theorem not_atEnd_decimal (n : ℕ) (rest : List UInt8) : ¬AtEnd (decimal n++rest) := by
  obtain ⟨c,l,hcl⟩ := List.exists_cons_of_ne_nil (decimal_ne n)
  have hc : isDigit c = true := isDigit_decimal (hcl ▸ List.mem_cons_self)
  rw [hcl]
  rintro (h | h)
  · cases h
  · rw [List.cons_append,List.head?_cons,Option.some.injEq] at h
    rw [h] at hc
    exact absurd hc (by decide)

variable {u s : ℕ} (hbits : bits = 32 ∨ bits = 64) (hu : u < 2^31)
include hbits hu

/-- A name without a slice. -/
theorem parsedev_unit {c : UInt8} {cp : List UInt8} (hdigit : isDigit c = false) (hgpt : c ≠ 112) (hmbr : c ≠ 115) :
    diskParsedev bits (decimal u++c::cp) = parsePartition u (-1) (-1) (c::cp) := by
  have hread := strtol_decimal hbits hu hdigit cp
  unfold diskParsedev
  simp only [if_neg (not_atEnd_decimal u _),hread,if_neg (decimal_append_ne u _),toInt_eq hu]
  split
  · rename_i heq
    cases heq
    exact absurd rfl hgpt
  · rename_i heq
    cases heq
    exact absurd rfl hmbr
  · rfl

/-- The letters `p` and `s` announce a slice. -/
theorem parsedev_letter {c : UInt8} (hc : c = 112 ∨ c = 115) :
    diskParsedev bits (decimal u++[c,58]) = .error .eslice := by
  have hread := strtol_decimal hbits hu (e := c) (by rcases hc with rfl | rfl <;> decide) [58]
  have hnone : (strtol bits [58]).2 = [58] := by
    rcases hbits with rfl | rfl <;> decide
  unfold diskParsedev
  simp only [if_neg (not_atEnd_decimal u _),hread,if_neg (decimal_append_ne u _)]
  rcases hc with rfl | rfl
  · exact if_pos hnone
  · exact if_pos hnone

variable (hs : s < 2^31)
include hs

theorem parsedev_gpt : diskParsedev bits (decimal u++112::(decimal s++[58])) = .ok ⟨u,s,255,[]⟩ := by
  have hread := strtol_decimal hbits hu (e := 112) (by decide) (decimal s++[58])
  have hslice := strtol_decimal hbits hs (e := 58) (by decide) []
  unfold diskParsedev
  simp only [if_neg (not_atEnd_decimal u _),hread,if_neg (decimal_append_ne u _),hslice,if_neg (decimal_append_ne s _),
    toInt_eq hu,toInt_eq hs]
  rfl

theorem parsedev_slice {c : UInt8} {cp : List UInt8} (hdigit : isDigit c = false) :
    diskParsedev bits (decimal u++115::(decimal s++c::cp)) = parsePartition u s (-1) (c::cp) := by
  have hread := strtol_decimal hbits hu (e := 115) (by decide) (decimal s++c::cp)
  have hslice := strtol_decimal hbits hs hdigit cp
  unfold diskParsedev
  simp only [if_neg (not_atEnd_decimal u _),hread,if_neg (decimal_append_ne u _),hslice,if_neg (decimal_append_ne s _),
    toInt_eq hu,toInt_eq hs]

end Spec

/-- What `disk_open` leaves in a descriptor: no slice or one, and no partition, one of a label, or 255 for one of a GPT. -/
structure Nameable (unit slice partition : ℤ) : Prop where
  unitRange : 0 ≤ unit ∧ unit < 2^31
  sliceRange : -1 ≤ slice ∧ slice < 2^31
  kind : partition = -1 ∨ 0 ≤ partition ∧ partition ≤ 19 ∨ partition = 255 ∧ 0 ≤ slice

/-- The letter of a partition. -/
def letter (p : ℕ) : UInt8 := UInt8.ofNat ((p : ℤ)+97).toNat

theorem letter_toNat {p : ℕ} (hp : p ≤ 19) : (letter p).toNat = p+97 := by
  have htoNat : ((p : ℤ)+97).toNat = p+97 := by omega
  rw [letter,htoNat]
  exact UInt8.toNat_ofNat_of_lt' (show p+97 < 256 by omega)

theorem not_isDigit_letter {p : ℕ} (hp : p ≤ 19) : isDigit (letter p) = false := by
  simp only [isDigit,letter_toNat hp,decide_eq_false_iff_not]
  omega

theorem parsePartition_letter {p : ℕ} (hp : p ≤ 19) (unit slice partition : ℤ) :
    parsePartition unit slice partition [letter p,58] = .ok ⟨unit,slice,p,[]⟩ := by
  have hnat := letter_toNat hp
  have hne : letter p ≠ 58 := by
    intro h
    rw [h,show (58 : UInt8).toNat = 58 from rfl] at hnat
    omega
  have hp' : ((letter p).toNat : ℤ)-97 = p := by omega
  rw [parsePartition,if_neg hne,if_neg (by omega),if_pos (.inr rfl),hp']
  rfl

/-- The name of a device is read back unless it has no slice and the partition is one of those whose letters are the separators
`p` and `s`. -/
theorem disk_name_round_trips_iff (bits : ℕ) (hbits : bits = 32 ∨ bits = 64) (dvName : List UInt8) {unit slice partition : ℤ}
    (h : Nameable unit slice partition) :
    NameRoundTrips bits dvName unit slice partition ↔ ¬(slice = -1 ∧ (partition = 15 ∨ partition = 18)) := by
  obtain ⟨⟨hu₀,hu⟩,⟨hs₀,hs⟩,hp⟩ := h
  obtain ⟨u,rfl⟩ := Int.eq_ofNat_of_zero_le hu₀
  have hu' : u < 2^31 := by exact_mod_cast hu
  have hunit : printInt (u : ℤ) = decimal u := by simp [printInt]
  unfold NameRoundTrips
  rcases eq_or_ne slice (-1) with rfl | hslice
  · rcases hp with rfl | ⟨hp₀,hp₁⟩ | ⟨_,hneg⟩
    · -- the whole disk
      have htext : (diskFmtdev dvName u (-1) (-1)).drop dvName.length = decimal u++[58] := by
        simp [diskFmtdev,hunit,List.append_assoc]
      rw [htext,parsedev_unit hbits hu' (by decide) (by decide) (by decide)]
      simp [parsePartition]
    · -- a partition of the disk
      obtain ⟨p,rfl⟩ := Int.eq_ofNat_of_zero_le hp₀
      have hp' : p ≤ 19 := by omega
      have htext : (diskFmtdev dvName u (-1) p).drop dvName.length = decimal u++[letter p,58] := by
        simp [diskFmtdev,hunit,List.append_assoc,letter]
      rw [htext]
      have hnat := letter_toNat hp'
      by_cases hsep : letter p = 112 ∨ letter p = 115
      · rw [parsedev_letter hbits hu' hsep]
        have hkind : p = 15 ∨ p = 18 := by
          rcases hsep with h | h
          · rw [h,show (112 : UInt8).toNat = 112 from rfl] at hnat
            omega
          · rw [h,show (115 : UInt8).toNat = 115 from rfl] at hnat
            omega
        refine iff_of_false nofun (not_not_intro ⟨rfl,?_⟩)
        omega
      · rw [not_or] at hsep
        rw [parsedev_unit hbits hu' (not_isDigit_letter hp') hsep.1 hsep.2,parsePartition_letter hp']
        refine iff_of_true rfl ?_
        rintro ⟨_,h | h⟩
        · have h₁₅ : p = 15 := by omega
          exact hsep.1 (by rw [h₁₅]; rfl)
        · have h₁₈ : p = 18 := by omega
          exact hsep.2 (by rw [h₁₈]; rfl)
    · omega
  · obtain ⟨s,rfl⟩ := Int.eq_ofNat_of_zero_le (show 0 ≤ slice by omega)
    have hs' : s < 2^31 := by exact_mod_cast hs
    have hprint : printInt (s : ℤ) = decimal s := by simp [printInt]
    refine iff_of_true ?_ fun h => hslice h.1
    rcases hp with rfl | ⟨hp₀,hp₁⟩ | ⟨rfl,_⟩
    · -- a slice
      have htext : (diskFmtdev dvName u s (-1)).drop dvName.length = decimal u++115::(decimal s++[58]) := by
        simp [diskFmtdev,hunit,hprint,List.append_assoc]
      rw [htext,parsedev_slice hbits hu' hs' (by decide)]
      simp [parsePartition]
    · -- a partition of a slice
      obtain ⟨p,rfl⟩ := Int.eq_ofNat_of_zero_le hp₀
      have hp' : p ≤ 19 := by omega
      have hgpt : ¬((p : ℤ) = 255) := by omega
      have htext : (diskFmtdev dvName u s p).drop dvName.length = decimal u++115::(decimal s++[letter p,58]) := by
        simp [diskFmtdev,hunit,hprint,hgpt,List.append_assoc,letter]
      rw [htext,parsedev_slice hbits hu' hs' (not_isDigit_letter hp'),parsePartition_letter hp']
    · -- a partition of a GPT
      have htext : (diskFmtdev dvName u s 255).drop dvName.length = decimal u++112::(decimal s++[58]) := by
        simp [diskFmtdev,hunit,hprint,List.append_assoc]
      rw [htext,parsedev_gpt hbits hu' hs']

/-- The second partition of a slice. -/
theorem disk_name_round_trips_slice : NameRoundTrips 64 [100,105,115,107] 0 1 1 :=
  (disk_name_round_trips_iff 64 (.inr rfl) _ ⟨by decide,by decide,.inr (.inl (by decide))⟩).mpr (by decide)

/-- Partition `p` of a disk without slices: `disk0p:` is taken for one of a GPT. -/
theorem disk_name_p_lost : Nameable 0 (-1) 15 ∧ ¬NameRoundTrips 64 [100,105,115,107] 0 (-1) 15 :=
  ⟨⟨by decide,by decide,.inr (.inl (by decide))⟩,by
    intro h
    have herror : diskParsedev 64 (decimal 0++[112,58]) = .error .eslice := parsedev_letter (.inr rfl) (by decide) (.inl rfl)
    exact absurd (h.symm.trans herror) nofun⟩

end Blub.Boot
