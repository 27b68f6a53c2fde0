import Blub.Fgdisk.Label

/-! The entries that `migrate_disklabel32` makes of the partitions of a slice, and the products of 32 bits their
places come from. -/
namespace Blub.Fgdisk
open Blub.Bytes

section Code

structure Part32 where
  size : UInt32
  offset : UInt32
  fstype : UInt8

/-- A disklabel; `parts i` is what stands at index `i` of its table. -/
structure Disklabel32 where
  magic : UInt32
  magic2 : UInt32
  secsize : UInt32
  npartitions : UInt16
  parts : ℕ → Part32

/-- What the headers of the system say: the sector of the label in its slice, how it is laid out there, its magic
number, the raw partition, the types of file systems, and the uuids of the entries made of them. -/
structure Disklabel32Abi where
  labelsector : ℤ
  label : Buf → Disklabel32
  diskmagic : UInt32
  rawPart : ℕ
  fsUnused : UInt8
  fsSwap : UInt8
  fsBsdffs : UInt8
  fsVinum : UInt8
  typeSwap : ℕ
  typeUfs : ℕ
  typeVinum : ℕ

/-- What is filled in of an entry. -/
structure MigratedEnt where
  type : ℕ
  name : List ℕ
  lbaStart : ℕ
  lbaEnd : ℕ

def entName (s : String) : List ℕ := utf8ToUtf16 (labelBytes s.toList) nameUnits

/-- The type and the name of the entry for a partition. The other ones get none. -/
def entKind32 (abi : Disklabel32Abi) (fstype : UInt8) : Option (ℕ × List ℕ) :=
  if fstype = abi.fsUnused then none
  else if fstype = abi.fsSwap then some (abi.typeSwap,entName "DragonFly swap partition")
  else if fstype = abi.fsBsdffs then some (abi.typeUfs,entName "DragonFly UFS1 partition")
  else if fstype = abi.fsVinum then some (abi.typeVinum,entName "DragonFly vinum partition")
  else none

/-- Where a partition starts, in bytes. -/
def partBytes (dl : Disklabel32) (i : ℕ) : ℕ := ((dl.parts i).offset*dl.secsize).toNat

/-- The raw partition's start, or 0 once a partition in use starts before it. -/
def rawBytes (abi : Disklabel32Abi) (dl : Disklabel32) : ℕ :=
  (List.range dl.npartitions.toNat).foldl (fun rawofs i =>
    if (dl.parts i).fstype = abi.fsUnused then rawofs
    else if partBytes dl i < rawofs then 0 else rawofs) (partBytes dl abi.rawPart)

def migratedEnt (dl : Disklabel32) (secsz : ℕ) (start : ℤ) (rawofs i : ℕ) (kind : ℕ × List ℕ) : MigratedEnt where
  type := kind.1
  name := kind.2
  lbaStart :=
    let ofs : ℤ := (partBytes dl i/secsz : ℕ)
    let ofs := if ofs > 0 then ofs-rawofs else 0
    u64 (start+ofs)
  lbaEnd :=
    let ofs : ℤ := (partBytes dl i/secsz : ℕ)
    let ofs := if ofs > 0 then ofs-rawofs else 0
    u64 (start+ofs+(dl.parts i).size.toNat-1)

/-- `migrate_disklabel32`: the status, and the entries in the order of the table. Without a sector to read there is
no label to look into. -/
def migrateDisklabel32 (abi : Disklabel32Abi) (im : Image) (start : ℤ) : Option (ℤ × List MigratedEnt) :=
  match gptRead im (start+abi.labelsector) 1 with
  | none => none
  | some buf =>
    let dl := abi.label buf
    if dl.magic ≠ abi.diskmagic ∨ dl.magic2 ≠ abi.diskmagic then some (-1,[])
    else
      let rawofs := rawBytes abi dl/im.secsz
      some (32,(List.range dl.npartitions.toNat).filterMap fun i =>
        (entKind32 abi (dl.parts i).fstype).map (migratedEnt dl im.secsz start rawofs i))

attribute [local grind =] migrateDisklabel32

end Code

section Purpose

/-- The swap, UFS and vinum partitions, in the order of the table. -/
def Disklabel32.migrated (abi : Disklabel32Abi) (dl : Disklabel32) : List ℕ :=
  (List.range dl.npartitions.toNat).filter fun i => (entKind32 abi (dl.parts i).fstype).isSome

/-- No partition in use starts before the raw one. -/
def RawFirst (abi : Disklabel32Abi) (dl : Disklabel32) : Prop :=
  ∀ j < dl.npartitions.toNat, (dl.parts j).fstype ≠ abi.fsUnused →
    (dl.parts abi.rawPart).offset.toNat ≤ (dl.parts j).offset.toNat

instance (abi : Disklabel32Abi) (dl : Disklabel32) : Decidable (RawFirst abi dl) :=
  inferInstanceAs (Decidable (∀ j < dl.npartitions.toNat, _))

/-- What the offsets are counted from. -/
def rawOffset (abi : Disklabel32Abi) (dl : Disklabel32) : ℤ :=
  if RawFirst abi dl then (dl.parts abi.rawPart).offset.toNat else 0

/-- Each of the partitions keeps its place on the device. -/
def KeepsPlaces32 (abi : Disklabel32Abi) (im : Image) (start : ℤ) (dl : Disklabel32) : Prop :=
  ∃ ents, migrateDisklabel32 abi im start = some (32,ents) ∧
    ents.map (fun e => ((e.lbaStart : ℤ),(e.lbaEnd : ℤ))) = (dl.migrated abi).map fun i =>
      let first := start+(dl.parts i).offset.toNat-rawOffset abi dl
      (first,first+(dl.parts i).size.toNat-1)

/-- The sectors that a product of 32 bits drops from an offset. -/
def sectorsLost (secsz offset : ℕ) : ℕ := offset-offset*secsz%2^32/secsz

/-- The same of the products of 32 bits. -/
def RawFirst32 (abi : Disklabel32Abi) (secsz : ℕ) (dl : Disklabel32) : Prop :=
  ∀ j < dl.npartitions.toNat, (dl.parts j).fstype ≠ abi.fsUnused →
    (dl.parts abi.rawPart).offset.toNat*secsz%2^32 ≤ (dl.parts j).offset.toNat*secsz%2^32

instance (abi : Disklabel32Abi) (secsz : ℕ) (dl : Disklabel32) : Decidable (RawFirst32 abi secsz dl) :=
  inferInstanceAs (Decidable (∀ j < dl.npartitions.toNat, _))

/-- What is dropped from the offset of a partition is dropped from that of the raw one as well. -/
def OffsetFits (abi : Disklabel32Abi) (secsz : ℕ) (dl : Disklabel32) (i : ℕ) : Prop :=
  let raw := (dl.parts abi.rawPart).offset.toNat
  let lost := sectorsLost secsz (dl.parts i).offset.toNat
  (RawFirst abi dl → RawFirst32 abi secsz dl → lost = sectorsLost secsz raw) ∧
  (RawFirst abi dl → ¬ RawFirst32 abi secsz dl → lost = raw) ∧
  (¬ RawFirst abi dl → lost = 0 ∧ (RawFirst32 abi secsz dl → raw*secsz%2^32 < secsz))

end Purpose

section Raw
variable {abi : Disklabel32Abi} {dl : Disklabel32} {im : Image} {start : ℤ} {i secsz : ℕ}

theorem partBytes_eq (hsec : dl.secsize.toNat = secsz) : partBytes dl i = (dl.parts i).offset.toNat*secsz%2^32 := by
  rw [partBytes,UInt32.toNat_mul,hsec]

/-- The scan keeps the raw partition's start exactly where no partition in use starts before it. -/
theorem rawBytes_scan (l : List ℕ) (raw : ℕ) :
    l.foldl (fun rawofs i => if (dl.parts i).fstype = abi.fsUnused then rawofs
      else if partBytes dl i < rawofs then 0 else rawofs) raw =
    if ∀ j ∈ l, (dl.parts j).fstype ≠ abi.fsUnused → raw ≤ partBytes dl j then raw else 0 := by
  induction l generalizing raw with
  | nil => simp
  | cons j l ih =>
    rw [List.foldl_cons,ih]
    simp only [List.forall_mem_cons]
    by_cases hu : (dl.parts j).fstype = abi.fsUnused
    · simp [hu]
    · rw [if_neg hu]
      by_cases hlt : partBytes dl j < raw
      · rw [if_pos hlt,if_pos fun _ _ _ => Nat.zero_le _,if_neg fun h => absurd (h.1 hu) (by omega)]
      · rw [if_neg hlt]
        simp [hu,not_lt.mp hlt]

theorem rawBytes_eq (hsec : dl.secsize.toNat = secsz) : rawBytes abi dl =
    if RawFirst32 abi secsz dl then (dl.parts abi.rawPart).offset.toNat*secsz%2^32 else 0 := by
  unfold rawBytes RawFirst32
  rw [rawBytes_scan,partBytes_eq hsec]
  simp only [List.mem_range,partBytes_eq hsec]
  exact if_congr Iff.rfl rfl rfl

/-- A product of 32 bits holds no more sectors than the offset. -/
theorem sectorsLost_add (hs : 0 < secsz) (p : ℕ) : sectorsLost secsz p+p*secsz%2^32/secsz = p := by
  have hle : p*secsz%2^32/secsz ≤ p := by
    have := Nat.div_le_div_right (c := secsz) (Nat.mod_le (p*secsz) (2^32))
    rwa [Nat.mul_div_cancel _ hs] at this
  unfold sectorsLost
  omega

/-- The raw partition's start never exceeds that of a partition in use. -/
theorem rawBytes_le (hi : i < dl.npartitions.toNat) (hu : (dl.parts i).fstype ≠ abi.fsUnused)
    (hsec : dl.secsize.toNat = secsz) : rawBytes abi dl ≤ (dl.parts i).offset.toNat*secsz%2^32 := by
  rw [rawBytes_eq hsec]
  split_ifs with h
  · exact h i hi hu
  · exact Nat.zero_le _

theorem rawOffset_le (hi : i < dl.npartitions.toNat) (hu : (dl.parts i).fstype ≠ abi.fsUnused) :
    0 ≤ rawOffset abi dl ∧ rawOffset abi dl ≤ (dl.parts i).offset.toNat := by
  unfold rawOffset
  split_ifs with h
  · have := h i hi hu
    omega
  · omega

/-- The code comes to the right number of sectors exactly where as many are dropped on both sides. -/
theorem offsetFits_iff (hs : 0 < secsz) (hi : i < dl.npartitions.toNat) (hu : (dl.parts i).fstype ≠ abi.fsUnused)
    (hsec : dl.secsize.toNat = secsz) : OffsetFits abi secsz dl i ↔
      (((dl.parts i).offset.toNat*secsz%2^32/secsz : ℕ) : ℤ)-(rawBytes abi dl/secsz : ℕ) =
        (dl.parts i).offset.toNat-rawOffset abi dl := by
  have hpart := sectorsLost_add hs (dl.parts i).offset.toNat
  have hraw := sectorsLost_add hs (dl.parts abi.rawPart).offset.toNat
  have hzero := Nat.div_eq_zero_iff_lt (x := (dl.parts abi.rawPart).offset.toNat*secsz%2^32) hs
  have hle := rawOffset_le hi hu
  have hbytes : rawBytes abi dl = _ := rawBytes_eq hsec
  unfold OffsetFits
  unfold rawOffset at hle ⊢
  dsimp only
  rw [← hzero]
  -- the four cases: whether the raw partition comes first, in truth and of the products
  by_cases hf : RawFirst abi dl <;> by_cases hf32 : RawFirst32 abi secsz dl
  · rw [if_pos hf32] at hbytes
    simp only [hbytes,hf,hf32,if_true,not_true,true_implies,false_implies,and_true]
    omega
  · rw [if_neg hf32] at hbytes
    simp only [hbytes,hf,hf32,if_true,not_true,not_false_iff,true_implies,false_implies,and_true,true_and,
      Nat.zero_div] at hle ⊢
    omega
  · rw [if_pos hf32] at hbytes
    simp only [hbytes,hf,hf32,if_false,not_false_iff,true_implies,false_implies,true_and] at hle ⊢
    generalize (dl.parts abi.rawPart).offset.toNat*secsz%2^32/secsz = m at *
    omega
  · rw [if_neg hf32] at hbytes
    simp only [hbytes,hf,hf32,if_false,not_false_iff,true_implies,false_implies,and_true,true_and,Nat.zero_div] at hle ⊢
    omega

end Raw

section Result
variable {abi : Disklabel32Abi} {dl : Disklabel32} {im : Image} {i : ℕ}

theorem mem_migrated : i ∈ dl.migrated abi ↔ i < dl.npartitions.toNat ∧ (entKind32 abi (dl.parts i).fstype).isSome := by
  unfold Disklabel32.migrated
  rw [List.mem_filter,List.mem_range]

theorem used_of_entKind32 {fstype : UInt8} (h : (entKind32 abi fstype).isSome) : fstype ≠ abi.fsUnused := by
  intro hu
  rw [entKind32,if_pos hu] at h
  cases h

/-- The entries are those of the migrated partitions, in their order. -/
theorem migrated_entries {α : Type} (f : ℕ → ℕ × List ℕ → MigratedEnt) (g : MigratedEnt → α)
    (hg : ∀ i kind, g (f i kind) = g (f i (0,[]))) :
    ((List.range dl.npartitions.toNat).filterMap fun i => (entKind32 abi (dl.parts i).fstype).map (f i)).map g =
      (dl.migrated abi).map fun i => g (f i (0,[])) := by
  unfold Disklabel32.migrated
  induction List.range dl.npartitions.toNat with
  | nil => rfl
  | cons i l ih =>
    rw [List.filterMap_cons,List.filter_cons]
    cases hk : entKind32 abi (dl.parts i).fstype with
    | none => simpa using ih
    | some kind => simpa [hg i kind] using ih

/-- Where the code puts a partition, as unbounded integers. -/
theorem migratedEnt_places (im : Image) {start : ℕ} (kind : ℕ × List ℕ) (hstart : start < 2^32)
    (hle : rawBytes abi dl ≤ partBytes dl i) :
    let e := migratedEnt dl im.secsz start (rawBytes abi dl/im.secsz) i kind
    let first : ℤ := start+((partBytes dl i/im.secsz : ℕ)-(rawBytes abi dl/im.secsz : ℕ))
    (e.lbaStart : ℤ) = first ∧
      (e.lbaEnd : ℤ) = if first+(dl.parts i).size.toNat = 0 then 2^64-1 else first+(dl.parts i).size.toNat-1 := by
  have hdiv : rawBytes abi dl/im.secsz ≤ partBytes dl i/im.secsz := Nat.div_le_div_right hle
  have hpart : partBytes dl i/im.secsz < 2^32 := (Nat.div_le_self _ _).trans_lt (UInt32.toNat_lt _)
  have hsize := UInt32.toNat_lt (dl.parts i).size
  unfold migratedEnt u64
  dsimp only
  generalize partBytes dl i/im.secsz = o at *
  generalize rawBytes abi dl/im.secsz = r at *
  generalize (dl.parts i).size.toNat = n at *
  split_ifs <;> omega

/-- The partitions keep their places exactly where the products of 32 bits drop nothing from their offsets that they
do not drop from the raw one, and where no partition is empty at the first sector of the device. -/
theorem keepsPlaces32_iff (abi : Disklabel32Abi) (im : Image) (start : ℕ) {buf : Buf} (hstart : start < 2^32)
    (hread : gptRead im (start+abi.labelsector) 1 = some buf) (hmagic : (abi.label buf).magic = abi.diskmagic)
    (hmagic2 : (abi.label buf).magic2 = abi.diskmagic) (hsec : (abi.label buf).secsize.toNat = im.secsz) :
    KeepsPlaces32 abi im start (abi.label buf) ↔
      ∀ i ∈ (abi.label buf).migrated abi, OffsetFits abi im.secsz (abi.label buf) i ∧
        ¬ (start = 0 ∧ ((abi.label buf).parts i).size.toNat = 0 ∧
          (((abi.label buf).parts i).offset.toNat : ℤ) = rawOffset abi (abi.label buf)) := by
  have hs : 0 < im.secsz := by
    have := im.secsz_ge
    omega
  generalize hdl : abi.label buf = dl at *
  have hrun : migrateDisklabel32 abi im start = some (32,(List.range dl.npartitions.toNat).filterMap fun i =>
      (entKind32 abi (dl.parts i).fstype).map (migratedEnt dl im.secsz start (rawBytes abi dl/im.secsz) i)) := by
    unfold migrateDisklabel32
    rw [hread]
    dsimp only
    rw [hdl,if_neg (by rw [hmagic,hmagic2]; simp)]
  unfold KeepsPlaces32
  simp only [hrun,Option.some.injEq,Prod.mk.injEq,true_and,exists_eq_left']
  rw [migrated_entries (migratedEnt dl im.secsz start (rawBytes abi dl/im.secsz))
    (fun e => ((e.lbaStart : ℤ),(e.lbaEnd : ℤ))) (fun i kind => rfl),List.map_inj_left]
  refine forall₂_congr fun i hi => ?_
  obtain ⟨hlt,hkind⟩ := mem_migrated.mp hi
  have hu := used_of_entKind32 hkind
  have hraw := rawBytes_le hlt hu hsec
  have hoff := rawOffset_le hlt hu
  rw [← partBytes_eq hsec] at hraw
  obtain ⟨h₁,h₂⟩ := migratedEnt_places im (0,[]) hstart hraw
  rw [offsetFits_iff hs hlt hu hsec,← partBytes_eq hsec,h₁,h₂,Prod.mk.injEq]
  generalize ((partBytes dl i/im.secsz : ℕ) : ℤ)-(rawBytes abi dl/im.secsz : ℕ) = o
  generalize (dl.parts i).size.toNat = n
  split_ifs <;> omega

/-- The label as `sys/disklabel32.h` lays it out. -/
def dragonflyAbi : Disklabel32Abi where
  labelsector := 1
  label b :=
    { magic := UInt32.ofNat (leGet b.byte 0 4)
      magic2 := UInt32.ofNat (leGet b.byte 132 4)
      secsize := UInt32.ofNat (leGet b.byte 40 4)
      npartitions := UInt16.ofNat (leGet b.byte 138 2)
      parts := fun i => ⟨UInt32.ofNat (leGet b.byte (148+16*i) 4),UInt32.ofNat (leGet b.byte (152+16*i) 4),b.byte (160+16*i)⟩ }
  diskmagic := 0x82564557
  rawPart := 2
  fsUnused := 0
  fsSwap := 1
  fsBsdffs := 7
  fsVinum := 14
  typeSwap := 0xf5a9b81b3001178811dc1ca59d58fdbd
  typeUfs := 0xf5a9b81b3001178811dc1ca59d94ce7c
  typeVinum := 0xf5a9b81b3001178811dc1ca59dd4478f

/-- A device of eight sectors with a slice at sector 1 and its label in sector 2: one UFS partition of 16 sectors at
`offset`. -/
def ufsImage (offset : ℕ) : Image :=
  .ofSectors 8 <|
    let dl := lePut (fun _ => 0) 1024 4 0x82564557
    let dl := lePut dl 1064 4 512
    let dl := lePut dl 1156 4 0x82564557
    let dl := lePut dl 1162 2 1
    let dl := lePut dl 1172 4 16
    let dl := lePut dl 1176 4 offset
    lePut dl 1184 1 7

example : leGet (ufsImage 16).byte 1176 4 = 16 := by decide

/-- A partition at sector 16 of its slice keeps its place. -/
theorem keepsPlaces32_near : ∃ buf, gptRead (ufsImage 16) 2 1 = some buf ∧
    KeepsPlaces32 dragonflyAbi (ufsImage 16) (1 : ℕ) (dragonflyAbi.label buf) := by
  obtain ⟨buf,hbuf⟩ : ∃ b, gptRead (ufsImage 16) 2 1 = some b := Option.isSome_iff_exists.mp (by decide)
  have hofs : (offT (2*(ufsImage 16).secsz)).toNat = 1024 := by decide
  have hval := gptRead_eq hbuf
  rw [hofs] at hval
  refine ⟨buf,hbuf,(keepsPlaces32_iff dragonflyAbi (ufsImage 16) 1 (by norm_num) hbuf ?_ ?_ ?_).mpr ?_⟩ <;> subst hval
  · decide
  · decide
  · decide
  · unfold OffsetFits
    dsimp only
    decide

/-- A partition 4 GiB into its slice is put at the slice's start. -/
theorem disklabel32_far : ∃ buf, gptRead (ufsImage (2^23)) 2 1 = some buf ∧
    (dragonflyAbi.label buf).magic = dragonflyAbi.diskmagic ∧ (dragonflyAbi.label buf).magic2 = dragonflyAbi.diskmagic ∧
    (dragonflyAbi.label buf).secsize.toNat = 512 ∧
    ¬ KeepsPlaces32 dragonflyAbi (ufsImage (2^23)) 1 (dragonflyAbi.label buf) := by
  obtain ⟨buf,hbuf⟩ : ∃ b, gptRead (ufsImage (2^23)) 2 1 = some b := Option.isSome_iff_exists.mp (by decide)
  have hofs : (offT (2*(ufsImage (2^23)).secsz)).toNat = 1024 := by decide
  have hval := gptRead_eq hbuf
  rw [hofs] at hval
  refine ⟨buf,hbuf,?_,?_,?_,?_⟩
  · subst hval
    decide
  · subst hval
    decide
  · subst hval
    decide
  · rintro ⟨ents,hrun,hmap⟩
    have hstart : (migrateDisklabel32 dragonflyAbi (ufsImage (2^23)) 1).map (fun r => r.2.map MigratedEnt.lbaStart) =
        some [1] := by decide
    rw [hrun,Option.map_some,Option.some.injEq] at hstart
    have hfirst := congrArg (List.map Prod.fst) hmap
    rw [List.map_map,List.map_map] at hfirst
    have hplace : (Prod.fst ∘ fun e : MigratedEnt => ((e.lbaStart : ℤ),(e.lbaEnd : ℤ))) =
        (Nat.cast : ℕ → ℤ) ∘ MigratedEnt.lbaStart := rfl
    rw [hplace,← List.map_map,hstart] at hfirst
    subst hval
    revert hfirst
    decide

end Result

end Blub.Fgdisk
