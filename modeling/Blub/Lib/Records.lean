import Blub.Lib.Copies

/-! Records in memory: a 32-bit type, a 32-bit length and data, padded to whole words, up to a record of the type that
ends them. -/
namespace Blub.Records
open Bytes Copies

/-- The bytes of a number, least significant first. -/
def le (w v : ℕ) : List UInt8 := (List.range w).map fun i => UInt8.ofNat (v/256^i)

structure Record where
  type : ℕ
  data : List UInt8

/-- `n` bytes, up to the end of a word. -/
def padded (pad n : ℕ) : ℕ := (n+(pad-1))/pad*pad

/-- The pieces of a record whose data takes `step n` bytes for `n`. -/
def pieces (step : ℕ → ℕ) (r : Record) : List Piece :=
  [⟨le 4 r.type,4⟩,⟨le 4 r.data.length,4⟩,⟨r.data,step r.data.length⟩]

/-- The records from `a` on, up to one of the type `fin`. -/
def read (b : ℕ → UInt8) (pad fin : ℕ) : ℕ → ℕ → Option (List Record)
  | 0, _ => none
  | fuel+1, a =>
    let n := leGet b (a+4) 4
    if leGet b a 4 = fin then some []
    else (read b pad fin fuel (a+8+padded pad n)).map (⟨leGet b a 4,slice b (a+8) n⟩ :: ·)

attribute [local grind =] read

section Numbers
variable {b : ℕ → UInt8} {a w v : ℕ}

@[simp] theorem length_le (w v : ℕ) : (le w v).length = w := by rw [le,List.length_map,List.length_range]

theorem leGet_le (h : Holds b a (le w v)) : leGet b a w = v%256^w := by
  rw [← leGet_lePut b a w v]
  refine leGet_congr fun j h₁ h₂ => ?_
  have hj : j-a < (le w v).length := by
    rw [length_le]
    omega
  have hget := h.get hj
  rw [Nat.add_sub_cancel' h₁] at hget
  rw [hget,lePut,blit_inside h₁ h₂]
  simp only [le,List.getElem_map,List.getElem_range]

theorem leGet_le_of_lt (h : Holds b a (le w v)) (hv : v < 256^w) : leGet b a w = v := by
  rw [leGet_le h,Nat.mod_eq_of_lt hv]

/-- A number that was stored in a list by itself. -/
theorem leGet_ofList_le (hv : v < 256^w) : leGet (ofList (le w v)) 0 (le w v).length = v := by
  rw [length_le]
  refine leGet_le_of_lt (holds_of_ofList fun j _ => ?_) hv
  rw [Nat.zero_add]

end Numbers

section Padding
variable {pad n : ℕ}

theorem le_padded (hpad : 0 < pad) (n : ℕ) : n ≤ padded pad n := by
  unfold padded
  have hdiv := Nat.lt_div_mul_add (a := n+(pad-1)) hpad
  omega

theorem dvd_padded (pad n : ℕ) : pad ∣ padded pad n := Nat.dvd_mul_left _ _

end Padding

section Reading
variable {b : ℕ → UInt8} {pad fin a : ℕ} {step : ℕ → ℕ} {r : Record} {l : List Record}

theorem extent_pieces (step : ℕ → ℕ) (r : Record) : extent (pieces step r) = 8+step r.data.length := by
  simp only [pieces,extent_cons,extent_nil]
  omega

/-- The pieces of the record that ends the others. -/
def endPieces (fin : ℕ) : List Piece := [⟨le 4 fin,4⟩,⟨le 4 0,4⟩]

/-- Records that stand in memory are read back. -/
theorem read_laid (hl : ∀ r ∈ l, r.type ≠ fin ∧ r.type < 2^32 ∧ r.data.length < 2^32) (hfin : fin < 2^32)
    (h : Laid b a (l.flatMap (pieces (padded pad)) ++ endPieces fin)) {fuel : ℕ} (hfuel : l.length < fuel) :
    read b pad fin fuel a = some l := by
  induction l generalizing a fuel with
  | nil =>
    obtain ⟨fuel,rfl⟩ := Nat.exists_eq_add_of_lt hfuel
    have htype : leGet b a 4 = fin := leGet_le_of_lt h.1 hfin
    rw [List.length_nil,Nat.zero_add,read,if_pos htype]
  | cons r l ih =>
    obtain ⟨fuel,rfl⟩ := Nat.exists_eq_add_of_lt hfuel
    obtain ⟨⟨hne,ht,hn⟩,hl⟩ := List.forall_mem_cons.mp hl
    rw [List.flatMap_cons,List.append_assoc,laid_append,extent_pieces,← Nat.add_assoc] at h
    obtain ⟨⟨htype,hlen,hdata,-⟩,hrest⟩ := h
    have htype : leGet b a 4 = r.type := leGet_le_of_lt htype ht
    have hlen : leGet b (a+4) 4 = r.data.length := leGet_le_of_lt hlen hn
    have hdata : slice b (a+8) r.data.length = r.data := hdata
    rw [List.length_cons] at hfuel ⊢
    rw [read,hlen,htype,if_neg hne,hdata,ih hl hrest (by omega)]
    rfl

end Reading

end Blub.Records
