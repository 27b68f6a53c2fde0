import Blub.Boot.Part

/-! Where the partitions of a table end. The users of a table take `end-start+1` for the size of a partition, and each
reader has its own arithmetic for it. -/
namespace Blub.Boot
open Blub.Bytes Blub.Gpt Blub.Fgdisk

/-- The last sector is part of the partition. -/
def Pentry.Inclusive (e : Pentry) : Prop := e.recorded ≠ 0 → (e.part.stop : ℤ)-e.part.start+1 = e.recorded

def Inclusive (l : List Pentry) : Prop := ∀ e ∈ l, e.Inclusive

theorem inclusive_append {l l' : List Pentry} : Inclusive (l ++ l') ↔ Inclusive l ∧ Inclusive l' := by
  constructor
  · intro h
    exact ⟨fun e he => h e (List.mem_append_left _ he),fun e he => h e (List.mem_append_right _ he)⟩
  · rintro ⟨h,h'⟩ e he
    exact (List.mem_append.mp he).elim (h e) (h' e)

/-- The entries a reader makes of the slots it does not skip. -/
theorem inclusive_slots {n : ℕ} {skip : ℕ → Prop} [DecidablePred skip] {f : ℕ → Pentry} :
    Inclusive ((List.range n).filterMap fun i => if skip i then none else some (f i)) ↔
      ∀ i < n, ¬ skip i → (f i).Inclusive := by
  constructor
  · intro h i hi hs
    exact h (f i) (List.mem_filterMap.mpr ⟨i,List.mem_range.mpr hi,if_neg hs⟩)
  · intro h e he
    obtain ⟨i,hi,he⟩ := List.mem_filterMap.mp he
    by_cases hs : skip i
    · rw [if_pos hs] at he
      cases he
    · rw [if_neg hs,Option.some.injEq] at he
      rw [← he]
      exact h i (List.mem_range.mp hi) hs

section Kinds
variable {abi : PartAbi} {w : PartDisk}

theorem gptPentry_inclusive (tbl : ℕ → UInt8) (sz i : ℕ) : (gptPentry abi tbl sz i).Inclusive := fun _ => rfl

theorem gptUsed_inclusive (tbl : ℕ → UInt8) (sz n : ℕ) : Inclusive (gptUsed abi tbl sz n) :=
  inclusive_slots.mpr fun i _ _ => gptPentry_inclusive tbl sz i

/-- The end of a slice is computed in 32 bits. -/
theorem mbrPentry_inclusive {buf : ℕ → UInt8} {i : ℕ} :
    (mbrPentry abi buf i).Inclusive ↔ dpStart buf i+dpSize buf i ≤ 2^32 := by
  have hstart : dpStart buf i < 256^4 := leGet_lt _ _ _
  have hsize : dpSize buf i < 256^4 := leGet_lt _ _ _
  simp only [Pentry.Inclusive,mbrPentry]
  omega

/-- The end of a logical partition is computed in 64 bits. -/
theorem ebrPentry_inclusive (buf : ℕ → UInt8) (offset index : ℕ) : (ebrPentry abi buf offset index).Inclusive := by
  have hsize : dpSize buf 0 < 256^4 := leGet_lt _ _ _
  simp only [Pentry.Inclusive,ebrPentry]
  omega

theorem ebrChain_inclusive (start n k offset index : ℕ) : Inclusive (ebrChain abi w start n k offset index) := by
  induction n generalizing k offset index with
  | zero => exact fun e he => nomatch he
  | succ n ih =>
    have hnil : Inclusive [] := fun e he => nomatch he
    unfold ebrChain
    cases w.dread1 k offset with
    | none => exact hnil
    | some buf =>
      dsimp only
      split_ifs with h₀ hext hlast
      · exact hnil
      · exact ih _ _ _
      · exact List.forall_mem_cons.mpr ⟨ebrPentry_inclusive buf offset index,hnil⟩
      · exact List.forall_mem_cons.mpr ⟨ebrPentry_inclusive buf offset index,ih _ _ _⟩

theorem ptableEbrread_inclusive {k : ℕ} {l : List Pentry} : Inclusive (ptableEbrread abi w k l) ↔ Inclusive l := by
  unfold ptableEbrread
  cases l.find? fun e => isExt abi e.type with
  | none => rfl
  | some e1 => exact inclusive_append.trans (and_iff_left (ebrChain_inclusive _ _ _ _ _))

/-- The end is two sectors late. -/
theorem bsd32Pentry_inclusive {dl : Disklabel32} {i : ℕ} : (bsd32Pentry abi dl i).Inclusive ↔ (dl.parts i).size = 0 := by
  have hstart := ((dl.parts i).offset-(dl.parts abi.rawPart).offset).toNat_lt
  have hsize := (dl.parts i).size.toNat_lt
  rw [← UInt32.toNat_inj,UInt32.toNat_zero]
  simp only [Pentry.Inclusive,bsd32Pentry]
  omega

/-- The end is one sector late. -/
theorem bsd64Pentry_inclusive {dl : Disklabel64} {i : ℕ} :
    (bsd64Pentry abi w dl i).Inclusive ↔ (dl.parts i).bsize.toNat/w.sectorsize = 0 := by
  have hstart : (dl.parts i).boffset.toNat/w.sectorsize < 2^64 :=
    (Nat.div_le_self _ _).trans_lt (dl.parts i).boffset.toNat_lt
  have hsize : (dl.parts i).bsize.toNat/w.sectorsize < 2^64 := (Nat.div_le_self _ _).trans_lt (dl.parts i).bsize.toNat_lt
  simp only [Pentry.Inclusive,bsd64Pentry]
  generalize (dl.parts i).boffset.toNat/w.sectorsize = a at *
  generalize (dl.parts i).bsize.toNat/w.sectorsize = b at *
  omega

theorem mbrEntries_inclusive {buf : ℕ → UInt8} : Inclusive (mbrEntries abi buf) ↔
    ∀ i < ndospart, dpTyp buf i ≠ 0 → dpStart buf i ≠ 0 → dpSize buf i ≠ 0 →
      dpStart buf i+dpSize buf i ≤ 2^32 := by
  refine inclusive_slots.trans (forall₂_congr fun i _ => ?_)
  constructor
  · intro h h₀ h₁ h₂
    exact mbrPentry_inclusive.mp (h (by simp only [h₀,h₁,h₂,or_self,not_false_eq_true]))
  · intro h hs
    obtain ⟨h₀,h₁,h₂⟩ : dpTyp buf i ≠ 0 ∧ dpStart buf i ≠ 0 ∧ dpSize buf i ≠ 0 := by
      simpa only [not_or] using hs
    exact mbrPentry_inclusive.mpr (h h₀ h₁ h₂)

theorem bsd32Entries_inclusive {dl : Disklabel32} : Inclusive (bsd32Entries abi dl) ↔
    ∀ i < dl.npartitions.toNat, i ≠ abi.rawPart → (dl.parts i).size = 0 := by
  refine inclusive_slots.trans (forall₂_congr fun i _ => ?_)
  constructor
  · intro h hr
    by_contra hs
    exact hs (bsd32Pentry_inclusive.mp (h (by simp only [hr,hs,or_self,not_false_eq_true])))
  · intro h hs
    obtain ⟨hr,hs⟩ := not_or.mp hs
    exact absurd (h hr) hs

theorem bsd64Entries_inclusive {dl : Disklabel64} : Inclusive (bsd64Entries abi w dl) ↔
    ∀ i < dl.parts16, i ≠ abi.rawPart → (dl.parts i).bsize.toNat/w.sectorsize = 0 := by
  refine inclusive_slots.trans (forall₂_congr fun i _ => ?_)
  constructor
  · intro h hr
    by_cases hs : (dl.parts i).bsize = 0
    · rw [hs]
      exact Nat.zero_div _
    · exact bsd64Pentry_inclusive.mp (h (by simp only [hr,hs,or_self,not_false_eq_true]))
  · intro h hs
    exact bsd64Pentry_inclusive.mpr (h (not_or.mp hs).1)

end Kinds

section Open
variable {abi : PartAbi} {w : PartDisk} {t : PartTable}

/-- What a disk has to look like for its partitions to end where its labels say: a BSD label has none, or in 64 bits
none of a whole sector, and a slice of a boot sector does not reach past the 32 bits. -/
def ExtentsFit (abi : PartAbi) (w : PartDisk) : Prop :=
  (FindsLabel64 abi w → ∀ i < (abi.label64 (label64Buf abi w)).parts16, i ≠ abi.rawPart →
    ((abi.label64 (label64Buf abi w)).parts i).bsize.toNat/w.sectorsize = 0) ∧
  (¬ FindsLabel64 abi w → FindsLabel32 abi w → ∀ i < (abi.label32 (w.from 1)).npartitions.toNat, i ≠ abi.rawPart →
    ((abi.label32 (w.from 1)).parts i).size = 0) ∧
  (¬ FindsLabel64 abi w → ¬ FindsLabel32 abi w → IsMbr abi (w.from 0) → ∀ i < ndospart, dpTyp (w.from 0) i ≠ 0 →
    dpStart (w.from 0) i ≠ 0 → dpSize (w.from 0) i ≠ 0 → dpStart (w.from 0) i+dpSize (w.from 0) i ≤ 2^32)

/-- Whatever `ptable_gptread` returns. -/
theorem ptableGptread_inclusive {k : ℕ} (h : ptableGptread abi w k = some t) : Inclusive t.entries := by
  unfold ptableGptread at h
  split at h
  · cases h
  · dsimp only at h
    split at h
    · rw [Option.some.injEq] at h
      rw [← h]
      exact fun e he => absurd he List.not_mem_nil
    · rw [Option.some.injEq] at h
      rw [← h]
      exact gptUsed_inclusive _ _ _

/-- A table that was opened ends its partitions where the label says exactly on the disks that fit. -/
theorem extents_inclusive_iff (h : ptableOpen abi w = some t) : Inclusive t.entries ↔ ExtentsFit abi w := by
  obtain ⟨h64,rfl⟩ | ⟨h64,h32,rfl⟩ | ⟨h64,h32,hmbr⟩ := ptableOpen_cases h
  · refine bsd64Entries_inclusive.trans ⟨fun hfit => ⟨fun _ => hfit,?_,?_⟩,fun hfit => hfit.1 h64⟩
    · exact fun hn => absurd h64 hn
    · exact fun hn => absurd h64 hn
  · refine bsd32Entries_inclusive.trans ⟨fun hfit => ⟨fun hy => absurd hy h64,fun _ _ => hfit,?_⟩,
      fun hfit => hfit.2.1 h64 h32⟩
    exact fun _ hn => absurd h32 hn
  · by_cases hm : IsMbr abi (w.from 0)
    · rw [ptableMbr_of_isMbr hm,Option.some.injEq] at hmbr
      rw [← hmbr]
      refine (ptableEbrread_inclusive.trans mbrEntries_inclusive).trans
        ⟨fun hfit => ⟨fun hy => absurd hy h64,fun _ hy => absurd hy h32,fun _ _ _ => hfit⟩,fun hfit => hfit.2.2 h64 h32 hm⟩
    · have hall : Inclusive t.entries := by
        obtain hnone | hgpt := ptableMbr_of_not_isMbr hm hmbr
        · rw [hnone]
          exact fun e he => nomatch he
        · exact ptableGptread_inclusive hgpt
      exact ⟨fun _ => ⟨fun hy => absurd hy h64,fun _ hy => absurd hy h32,fun _ _ hy => absurd hy hm⟩,fun _ => hall⟩

end Open

/-- One slice of 30 sectors at sector 63. -/
def sliceDisk : PartDisk :=
  soundDisk (lePut (lePut (lePut (lePut (fun _ => 0) 450 1 0x83) 454 4 63) 458 4 30) 510 2 0xaa55)

example : leGet (sliceDisk.from 0) 458 4 = 30 := by decide

theorem extents_inclusive_slice : ∃ t, ptableOpen dragonflyAbi sliceDisk = some t ∧
    (t.entries.map fun e => (e.part.start,e.part.stop,e.recorded)) = [(63,92,30)] ∧ Inclusive t.entries := by
  have h : (ptableOpen dragonflyAbi sliceDisk).map
      (fun t => t.entries.map fun e => (e.part.start,e.part.stop,e.recorded)) = some [(63,92,30)] := by decide
  obtain ⟨t,ht,he⟩ := Option.map_eq_some_iff.mp h
  have h64 : ¬ FindsLabel64 dragonflyAbi sliceDisk := by
    rintro ⟨-,hm,-⟩
    revert hm
    decide
  have h32 : ¬ FindsLabel32 dragonflyAbi sliceDisk := by
    rintro ⟨-,hm,-⟩
    revert hm
    decide
  refine ⟨t,ht,he,(extents_inclusive_iff ht).mpr ⟨fun hy => absurd hy h64,fun _ hy => absurd hy h32,fun _ _ _ => ?_⟩⟩
  decide

/-- A 32-bit label with one partition of 100 sectors. -/
def labelDisk : PartDisk :=
  soundDisk fun j =>
    if j < 512 then 0
    else lePut (lePut (lePut (lePut (lePut (fun _ => 0) 0 4 0x82564557) 40 4 512) 132 4 0x82564557) 138 2 8)
      148 4 100 (j-512)

/-- The partition of 100 sectors has 102. -/
theorem extents_label_late : (ptableOpen dragonflyAbi labelDisk).map
      (fun t => t.entries.map fun e => (e.part.start,e.part.stop,e.recorded)) = some [(0,101,100)] ∧
    ∃ t, ptableOpen dragonflyAbi labelDisk = some t ∧ ¬ Inclusive t.entries := by
  have h : (ptableOpen dragonflyAbi labelDisk).map
      (fun t => t.entries.map fun e => (e.part.start,e.part.stop,e.recorded)) = some [(0,101,100)] := by decide
  obtain ⟨t,ht,he⟩ := Option.map_eq_some_iff.mp h
  refine ⟨h,t,ht,?_⟩
  intro hall
  obtain ⟨e,he,hplace⟩ := List.mem_map.mp (he ▸ List.mem_singleton_self _)
  simp only [Prod.mk.injEq] at hplace
  have hlast := hall e he
  rw [Pentry.Inclusive,hplace.1,hplace.2.1,hplace.2.2] at hlast
  exact absurd (hlast (by decide)) (by decide)

end Blub.Boot
