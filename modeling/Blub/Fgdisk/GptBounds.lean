import Blub.Fgdisk.Open

/-! What `gpt_gpt` reads of the buffers it has filled from the disk, and when that stays inside of them. -/
namespace Blub.Fgdisk
open Blub.Bytes Blub.Gpt

/-- A read of `len` bytes at `ofs` of a buffer. -/
structure Access where
  buf : Buf
  ofs : ℕ
  len : ℕ

def Access.Inside (a : Access) : Prop := a.ofs+a.len ≤ a.buf.size

/-- A computation together with what it reads of its buffers, up to where it has left one of them. -/
inductive Tracked (α : Type)
  | done (value : α) (reads : List Access)
  | left (reads : List Access)

namespace Tracked
variable {α : Type}

def value : Tracked α → Option α
  | done v _ => some v
  | left _ => none

def reads : Tracked α → List Access
  | done _ l => l
  | left l => l

/-- Reads before the others. -/
def after (l : List Access) : Tracked α → Tracked α
  | done v l' => done v (l ++ l')
  | left l' => left (l ++ l')

def Inside (t : Tracked α) : Prop := ∀ a ∈ t.reads, a.Inside

@[simp] theorem value_done (v : α) (l : List Access) : (done v l).value = some v := rfl

@[simp] theorem value_left (l : List Access) : (left l : Tracked α).value = none := rfl

@[simp] theorem value_after (l : List Access) (t : Tracked α) : (t.after l).value = t.value := by cases t <;> rfl

@[simp] theorem reads_after (l : List Access) (t : Tracked α) : (t.after l).reads = l ++ t.reads := by cases t <;> rfl

@[simp] theorem inside_nil {v : α} : (done v []).Inside := fun _ h => absurd h List.not_mem_nil

@[simp] theorem inside_done {v : α} {a : Access} : (done v [a]).Inside ↔ a.Inside := by
  simp [Inside,reads]

@[simp] theorem inside_left {a : Access} : (left [a] : Tracked α).Inside ↔ a.Inside := by
  simp [Inside,reads]

theorem inside_after {l : List Access} {t : Tracked α} : (t.after l).Inside ↔ (∀ a ∈ l, a.Inside) ∧ t.Inside := by
  simp only [Inside,reads_after,List.mem_append,or_imp,forall_and]

end Tracked

section Reads

/-- The loop over the entries, with the entries that it comes to. -/
def gptEntriesReads (hdr : ℕ → UInt8) (p : Buf) : ℕ → ℕ → Media → Tracked (ℤ × Media)
  | 0, _, g => .done (1,g) []
  | k+1, i, g =>
    let o := entOfs hdr i
    let ent : Access := ⟨p,o,entStructSize⟩
    if p.size < o+16 then .left [ent]
    else if entType p.byte o = 0 then (gptEntriesReads hdr p k (i+1) g).after [ent]
    else if p.size < o+48 then .left [ent]
    else
      match mapAdd g (entStart p.byte o) (entSize p.byte o) .gptPart (.ent o) false with
      | (.error _,g) => .done (-1,g) [ent]
      | (.ok m,g) => (gptEntriesReads hdr p k (i+1) (g.modify m fun s => { s with mapIndex := i+1 })).after [ent]

/-- What is read for the table of a header that has passed its checksum, with the bytes that the table's is taken
over. -/
def gptTableReads (found : ℤ) (hdr : Buf) : Option Buf → Tracked (Except ℤ Found)
  | none => .done (.error (if found ≠ 0 then -1 else 0)) []
  | some p =>
    if crc32 p.byte (tblsz hdr.byte) ≠ hdrCrcTable hdr.byte then .done (.error 0) [⟨p,0,tblsz hdr.byte⟩]
    else .done (.ok ⟨hdr,p⟩) [⟨p,0,tblsz hdr.byte⟩]

/-- A header with its own checksum `crc` cleared, with the bytes that the checksums are taken over. -/
def gptHdrReads (im : Image) (found : ℤ) (hdr : Buf) (crc : ℕ) : Tracked (Except ℤ Found) :=
  if hdr.size < hdrSize hdr.byte then .left [⟨hdr,0,hdrSize hdr.byte⟩]
  else if crc32 hdr.byte (hdrSize hdr.byte) ≠ crc then .done (.error 0) [⟨hdr,0,hdrSize hdr.byte⟩]
  else
    (gptTableReads found hdr (gptRead im (offT (hdrLbaTable hdr.byte)) (tblBlocks im.secsz hdr.byte))).after
      [⟨hdr,0,hdrSize hdr.byte⟩]

/-- The first half of `gpt_gpt`, with the bytes that its two checksums are taken over. -/
def gptCheckReads (im : Image) (lba : ℤ) (found : ℤ) : Tracked (Except ℤ Found) :=
  match gptRead im lba 1 with
  | none => .done (.error (-1)) []
  | some b =>
    if hdrSig b.byte ≠ gptHdrSig then .done (.error 0) []
    else gptHdrReads im found ⟨b.size,setCrcSelf b.byte 0⟩ (hdrCrcSelf b.byte)

/-- The second half of `gpt_gpt`, with the entries that are read. -/
def gptMapReads (im : Image) (g : Media) (lba : ℤ) (f : Found) : Tracked (ℤ × Media) :=
  match mapAdd g lba 1 (if lba = 1 then .priGptHdr else .secGptHdr) (.buf f.hdr) true with
  | (.error _,g) => .done (-1,g) []
  | (.ok _,g) =>
    match mapAdd g (offT (hdrLbaTable f.hdr.byte)) (tblBlocks im.secsz f.hdr.byte)
      (if lba = 1 then .priGptTbl else .secGptTbl) (.buf f.tbl) true with
    | (.error _,g) => .done (-1,g) []
    | (.ok _,g) =>
      if lba ≠ 1 then .done (1,g) [] else gptEntriesReads f.hdr.byte f.tbl (hdrEntries f.hdr.byte) 0 g

/-- `gpt_gpt` with every byte that it feeds to `crc32` or takes for an entry. -/
def gptGptReads (im : Image) (g : Media) (lba : ℤ) (found : ℤ) : Tracked (ℤ × Media) :=
  match gptCheckReads im lba found with
  | .left l => .left l
  | .done (.error r) l => .done (r,g) l
  | .done (.ok f) l => (gptMapReads im g lba f).after l

attribute [local grind =] gptEntriesReads gptTableReads gptHdrReads gptCheckReads gptMapReads gptGptReads

/-- The same loop, and what it reads is no part of its result. -/
theorem gptEntriesReads_value (hdr : ℕ → UInt8) (p : Buf) (k i : ℕ) (g : Media) :
    (gptEntriesReads hdr p k i g).value = gptEntries hdr p k i g := by
  induction k generalizing i g with
  | zero => rfl
  | succ k ih =>
    unfold gptEntriesReads gptEntries
    dsimp only
    by_cases h₁ : p.size < entOfs hdr i+16
    · rw [if_pos h₁,if_pos h₁,Tracked.value_left]
    rw [if_neg h₁,if_neg h₁]
    by_cases h₂ : entType p.byte (entOfs hdr i) = 0
    · rw [if_pos h₂,if_pos h₂,Tracked.value_after,ih]
    rw [if_neg h₂,if_neg h₂]
    by_cases h₃ : p.size < entOfs hdr i+48
    · rw [if_pos h₃,if_pos h₃,Tracked.value_left]
    rw [if_neg h₃,if_neg h₃]
    rcases mapAdd g (entStart p.byte (entOfs hdr i)) (entSize p.byte (entOfs hdr i)) .gptPart (.ent (entOfs hdr i)) false
      with ⟨e | m,g'⟩
    · rfl
    · exact (Tracked.value_after _ _).trans (ih (i+1) _)

theorem gptCheckReads_value (im : Image) (lba found : ℤ) :
    (gptCheckReads im lba found).value = gptCheck im lba found := by
  unfold gptCheckReads gptCheck
  cases gptRead im lba 1 with
  | none => rfl
  | some b =>
    dsimp only
    by_cases hsig : hdrSig b.byte ≠ gptHdrSig
    · rw [if_pos hsig,if_pos hsig,Tracked.value_done]
    rw [if_neg hsig,if_neg hsig,gptHdrReads]
    by_cases hsize : b.size < hdrSize (setCrcSelf b.byte 0)
    · rw [if_pos hsize,if_pos hsize,Tracked.value_left]
    rw [if_neg hsize,if_neg hsize]
    by_cases hcrc : crc32 (setCrcSelf b.byte 0) (hdrSize (setCrcSelf b.byte 0)) ≠ hdrCrcSelf b.byte
    · rw [if_pos hcrc,if_pos hcrc,Tracked.value_done]
    rw [if_neg hcrc,if_neg hcrc,Tracked.value_after]
    rcases gptRead im (offT (hdrLbaTable (setCrcSelf b.byte 0))) (tblBlocks im.secsz (setCrcSelf b.byte 0)) with _ | p
    · rfl
    dsimp only [gptTableReads]
    by_cases htbl : crc32 p.byte (tblsz (setCrcSelf b.byte 0)) ≠ hdrCrcTable (setCrcSelf b.byte 0)
    · rw [if_pos htbl,if_pos htbl,Tracked.value_done]
    · rw [if_neg htbl,if_neg htbl,Tracked.value_done]

theorem gptMapReads_value (im : Image) (g : Media) (lba : ℤ) (f : Found) :
    (gptMapReads im g lba f).value = gptMap im g lba f := by
  unfold gptMapReads gptMap
  rcases mapAdd g lba 1 (if lba = 1 then .priGptHdr else .secGptHdr) (.buf f.hdr) true with ⟨e | m,g₁⟩
  · rfl
  dsimp only
  rcases mapAdd g₁ (offT (hdrLbaTable f.hdr.byte)) (tblBlocks im.secsz f.hdr.byte)
    (if lba = 1 then .priGptTbl else .secGptTbl) (.buf f.tbl) true with ⟨e | m,g₂⟩
  · rfl
  dsimp only
  by_cases hlba : lba ≠ 1
  · rw [if_pos hlba,if_pos hlba,Tracked.value_done]
  · rw [if_neg hlba,if_neg hlba,gptEntriesReads_value]

theorem gptGptReads_value (im : Image) (g : Media) (lba found : ℤ) :
    (gptGptReads im g lba found).value = gptGpt im g lba found := by
  unfold gptGptReads gptGpt
  rw [← gptCheckReads_value]
  rcases gptCheckReads im lba found with ⟨r | f,l⟩ | l
  · rfl
  · exact (Tracked.value_after l _).trans (gptMapReads_value im g lba f)
  · rfl

end Reads

section Access
variable {im : Image} {lba found : ℤ} {g : Media}

/-- No byte outside of a buffer is read. -/
def GptInside (im : Image) (g : Media) (lba found : ℤ) : Prop := (gptGptReads im g lba found).Inside

/-- A sector with the signature of a header gives a header no more than a sector. -/
def HdrFits (im : Image) (lba : ℤ) : Prop :=
  ∀ b, gptRead im lba 1 = some b → hdrSig b.byte = gptHdrSig → hdrSize b.byte ≤ im.secsz

/-- The sectors at `lba` are a copy that passes the checks: signature, checksum of the header and of the table. -/
structure CopyValid (im : Image) (lba : ℤ) (b p : Buf) : Prop where
  hdr : gptRead im lba 1 = some b
  sig : hdrSig b.byte = gptHdrSig
  size : hdrSize b.byte ≤ b.size
  crc : hdrCrc b.byte = hdrCrcSelf b.byte
  tbl : gptRead im (offT (hdrLbaTable b.byte)) (tblBlocks im.secsz b.byte) = some p
  crcTable : crc32 p.byte (tblsz b.byte) = hdrCrcTable b.byte

/-- The last entry ends in the last block of the table. Where the size of the table does not fit into 32 bits, the
offsets start over, and each of them counts. -/
def EntriesFit (secsz : ℕ) (hdr : ℕ → UInt8) : Prop :=
  hdrEntries hdr = 0 ∨
  (hdrEntries hdr*hdrEntsz hdr < 2^32 ∧
    (hdrEntries hdr-1)*hdrEntsz hdr+entStructSize ≤ tblBlocks secsz hdr*secsz) ∨
  (2^32 ≤ hdrEntries hdr*hdrEntsz hdr ∧
    ∀ i < hdrEntries hdr, i*hdrEntsz hdr%2^32+entStructSize ≤ tblBlocks secsz hdr*secsz)

/-- The blocks of a table hold all of it. -/
theorem tblsz_le_blocks {secsz : ℕ} (hdr : ℕ → UInt8) (hs : 0 < secsz) : tblsz hdr ≤ tblBlocks secsz hdr*secsz := by
  have hdiv := Nat.div_add_mod (tblsz hdr) secsz
  have hmod := Nat.mod_lt (tblsz hdr) hs
  rw [Nat.mul_comm] at hdiv
  unfold tblBlocks
  rw [Nat.add_mul]
  split_ifs <;> omega

theorem entriesFit_iff {secsz : ℕ} {hdr : ℕ → UInt8} : EntriesFit secsz hdr ↔
    ∀ i < hdrEntries hdr, entOfs hdr i+entStructSize ≤ tblBlocks secsz hdr*secsz := by
  unfold EntriesFit entOfs
  by_cases hn : hdrEntries hdr = 0
  · simp [hn]
  by_cases hwrap : hdrEntries hdr*hdrEntsz hdr < 2^32
  · -- nothing starts over, so the last entry is the one that counts
    have hmod : ∀ i < hdrEntries hdr, i*hdrEntsz hdr%2^32 = i*hdrEntsz hdr := fun i hi =>
      Nat.mod_eq_of_lt ((Nat.mul_le_mul_right _ hi.le).trans_lt hwrap)
    constructor
    · rintro (h | ⟨-,h⟩ | ⟨h,-⟩) i hi
      · exact absurd h hn
      · rw [hmod i hi]
        have := Nat.mul_le_mul_right (hdrEntsz hdr) (show i ≤ hdrEntries hdr-1 by omega)
        omega
      · omega
    · intro h
      have hlast := h (hdrEntries hdr-1) (by omega)
      rw [hmod _ (by omega)] at hlast
      exact .inr (.inl ⟨hwrap,hlast⟩)
  · constructor
    · rintro (h | ⟨h,-⟩ | ⟨-,h⟩)
      · exact absurd h hn
      · exact absurd h hwrap
      · exact h
    · exact fun h => .inr (.inr ⟨not_lt.mp hwrap,h⟩)

/-- The copy that `gpt_gpt` takes: the header, with its own checksum cleared, and the table. -/
def foundOf (b p : Buf) : Found := ⟨⟨b.size,setCrcSelf b.byte 0⟩,p⟩

/-- The copy that `gpt_gpt` takes is a valid one. -/
theorem gptCheck_valid {f : Found} : gptCheck im lba found = some (.ok f) ↔
    ∃ b p, CopyValid im lba b p ∧ f = foundOf b p := by
  rw [gptCheck_ok_iff]
  constructor
  · rintro ⟨b,p,h₁,h₂,h₃,h₄,h₅,h₆,hf⟩
    exact ⟨b,p,⟨h₁,h₂,h₃,h₄,h₅,h₆⟩,hf⟩
  · rintro ⟨b,p,h,hf⟩
    exact ⟨b,p,h.hdr,h.sig,h.size,h.crc,h.tbl,h.crcTable,hf⟩

/-- The map after entry `i` was added to it, unless it has no room for it. -/
def addEntry (hdr : ℕ → UInt8) (p : Buf) (i : ℕ) (g : Media) : Option Media :=
  let o := entOfs hdr i
  if entType p.byte o = 0 then some g
  else
    match mapAdd g (entStart p.byte o) (entSize p.byte o) .gptPart (.ent o) false with
    | (.error _,_) => none
    | (.ok m,g) => some (g.modify m fun s => { s with mapIndex := i+1 })

/-- The map after `k` entries from entry `i` on. -/
def addEntries (hdr : ℕ → UInt8) (p : Buf) : ℕ → ℕ → Media → Option Media
  | 0, _, g => some g
  | k+1, i, g => (addEntry hdr p i g).bind (addEntries hdr p k (i+1))

/-- The map after the header and the table of a copy were added to it. -/
def addCopy (im : Image) (lba : ℤ) (f : Found) (g : Media) : Option Media :=
  match mapAdd g lba 1 (if lba = 1 then .priGptHdr else .secGptHdr) (.buf f.hdr) true with
  | (.error _,_) => none
  | (.ok _,g) =>
    match mapAdd g (offT (hdrLbaTable f.hdr.byte)) (tblBlocks im.secsz f.hdr.byte)
      (if lba = 1 then .priGptTbl else .secGptTbl) (.buf f.tbl) true with
    | (.error _,_) => none
    | (.ok _,g) => some g

attribute [local grind =] addEntry addEntries addCopy

/-- Every entry that is come to, as the map has room for those before it, ends in the last block of the table. -/
def ReachedFit (im : Image) (g : Media) (f : Found) : Prop :=
  ∀ g₁, addCopy im 1 f g = some g₁ → ∀ i < hdrEntries f.hdr.byte, (addEntries f.hdr.byte f.tbl i 0 g₁).isSome →
    entOfs f.hdr.byte i+entStructSize ≤ tblBlocks im.secsz f.hdr.byte*im.secsz

/-- Where the last entry ends in the last block, no map is needed to say that all of them fit. -/
theorem EntriesFit.reached {f : Found} (h : EntriesFit im.secsz f.hdr.byte) : ReachedFit im g f :=
  fun _ _ i hi _ => entriesFit_iff.mp h i hi

/-- Entries of the usual size fit into their table. -/
theorem reachedFit_of_entsz {f : Found} (he : entStructSize ≤ hdrEntsz f.hdr.byte)
    (hn : hdrEntries f.hdr.byte*hdrEntsz f.hdr.byte < 2^32) : ReachedFit im g f := by
  apply EntriesFit.reached
  rcases Nat.eq_zero_or_pos (hdrEntries f.hdr.byte) with h | h
  · exact .inl h
  · refine .inr (.inl ⟨hn,?_⟩)
    have hle := tblsz_le_blocks f.hdr.byte (show 0 < im.secsz by have := im.secsz_ge; omega)
    rw [tblsz,Nat.mod_eq_of_lt hn] at hle
    have hsplit : (hdrEntries f.hdr.byte-1)*hdrEntsz f.hdr.byte+hdrEntsz f.hdr.byte =
        hdrEntries f.hdr.byte*hdrEntsz f.hdr.byte := by
      rw [← Nat.succ_mul,Nat.succ_eq_add_one,Nat.sub_add_cancel h]
    omega

/-- The loop goes on behind an entry that fits exactly if it could be added. -/
theorem gptEntriesReads_succ {hdr : ℕ → UInt8} {p : Buf} {k i : ℕ} (h : entOfs hdr i+entStructSize ≤ p.size) :
    (gptEntriesReads hdr p (k+1) i g).Inside ↔
    ∀ g', addEntry hdr p i g = some g' → (gptEntriesReads hdr p k (i+1) g').Inside := by
  have hent : (⟨p,entOfs hdr i,entStructSize⟩ : Access).Inside := h
  unfold entStructSize at h
  rw [gptEntriesReads]
  unfold addEntry
  dsimp only
  rw [if_neg (show ¬ p.size < entOfs hdr i+16 by omega),if_neg (show ¬ p.size < entOfs hdr i+48 by omega)]
  by_cases htype : entType p.byte (entOfs hdr i) = 0
  · rw [if_pos htype,if_pos htype,Tracked.inside_after]
    simp [hent]
  rw [if_neg htype,if_neg htype]
  rcases mapAdd g (entStart p.byte (entOfs hdr i)) (entSize p.byte (entOfs hdr i)) .gptPart (.ent (entOfs hdr i)) false
    with ⟨e | m,g'⟩
  · simp [hent]
  · dsimp only
    rw [Tracked.inside_after]
    simp [hent]

theorem gptEntriesReads_outside {hdr : ℕ → UInt8} {p : Buf} {k i : ℕ} (h : ¬ entOfs hdr i+entStructSize ≤ p.size) :
    ¬ (gptEntriesReads hdr p (k+1) i g).Inside := by
  have hent : ¬ (⟨p,entOfs hdr i,entStructSize⟩ : Access).Inside := h
  unfold gptEntriesReads
  dsimp only
  by_cases h₁ : p.size < entOfs hdr i+16
  · rwa [if_pos h₁,Tracked.inside_left]
  rw [if_neg h₁]
  by_cases h₂ : entType p.byte (entOfs hdr i) = 0
  · rw [if_pos h₂,Tracked.inside_after]
    simp [hent]
  rw [if_neg h₂]
  by_cases h₃ : p.size < entOfs hdr i+48
  · rwa [if_pos h₃,Tracked.inside_left]
  rw [if_neg h₃]
  rcases mapAdd g (entStart p.byte (entOfs hdr i)) (entSize p.byte (entOfs hdr i)) .gptPart (.ent (entOfs hdr i)) false
    with ⟨e | m,g'⟩
  · simpa using hent
  · dsimp only
    rw [Tracked.inside_after]
    simp [hent]

/-- The loop stays inside of the table if the entries it comes to lie in it. -/
theorem gptEntriesReads_inside_iff {hdr : ℕ → UInt8} {p : Buf} {k i : ℕ} :
    (gptEntriesReads hdr p k i g).Inside ↔
    ∀ j < k, (addEntries hdr p j i g).isSome → entOfs hdr (i+j)+entStructSize ≤ p.size := by
  induction k generalizing i g with
  | zero => exact iff_of_true Tracked.inside_nil fun j hj => absurd hj j.not_lt_zero
  | succ k ih =>
    by_cases hfit : entOfs hdr i+entStructSize ≤ p.size
    · rw [gptEntriesReads_succ hfit]
      constructor
      · intro h j hj hsome
        cases j with
        | zero => exact hfit
        | succ j =>
          obtain ⟨g₂,hg₂⟩ := Option.isSome_iff_exists.mp hsome
          obtain ⟨g₁,hadd,hrest⟩ := Option.bind_eq_some_iff.mp hg₂
          have := ih.mp (h g₁ hadd) j (by omega) (Option.isSome_iff_exists.mpr ⟨g₂,hrest⟩)
          rwa [show i+(j+1) = i+1+j by omega]
      · intro h g₁ hadd
        refine ih.mpr fun j hj hsome => ?_
        have := h (j+1) (by omega) (by rw [addEntries,hadd]; exact hsome)
        rwa [show i+(j+1) = i+1+j by omega] at this
    · exact iff_of_false (gptEntriesReads_outside hfit) fun h => hfit (h 0 k.succ_pos rfl)

theorem gptMapReads_inside_iff {f : Found} : (gptMapReads im g lba f).Inside ↔
    (lba = 1 → ∀ g₁, addCopy im lba f g = some g₁ → ∀ i < hdrEntries f.hdr.byte,
      (addEntries f.hdr.byte f.tbl i 0 g₁).isSome → entOfs f.hdr.byte i+entStructSize ≤ f.tbl.size) := by
  unfold gptMapReads addCopy
  rcases mapAdd g lba 1 (if lba = 1 then .priGptHdr else .secGptHdr) (.buf f.hdr) true with ⟨e | m,g₁⟩
  · simp
  dsimp only
  rcases mapAdd g₁ (offT (hdrLbaTable f.hdr.byte)) (tblBlocks im.secsz f.hdr.byte)
    (if lba = 1 then .priGptTbl else .secGptTbl) (.buf f.tbl) true with ⟨e | m,g₂⟩
  · simp
  dsimp only
  by_cases hlba : lba = 1
  · rw [if_neg (not_not.mpr hlba),gptEntriesReads_inside_iff]
    simp [hlba]
  · rw [if_pos hlba]
    simp [hlba]

/-- The table always fits its blocks. -/
theorem gptTableReads_inside {hdr : Buf} {n : ℕ} (hn : tblBlocks im.secsz hdr.byte = n) :
    (gptTableReads found hdr (gptRead im lba n)).Inside := by
  cases hp : gptRead im lba n with
  | none => exact Tracked.inside_nil
  | some p =>
    have htbl : (⟨p,0,tblsz hdr.byte⟩ : Access).Inside := by
      rw [Access.Inside,gptRead_size hp,Nat.zero_add,← hn]
      exact tblsz_le_blocks _ (by have := im.secsz_ge; omega)
    unfold gptTableReads
    dsimp only
    split_ifs
    · exact Tracked.inside_done.mpr htbl
    · exact Tracked.inside_done.mpr htbl

theorem gptHdrReads_inside_iff {hdr : Buf} {crc : ℕ} :
    (gptHdrReads im found hdr crc).Inside ↔ hdrSize hdr.byte ≤ hdr.size := by
  have hself : (⟨hdr,0,hdrSize hdr.byte⟩ : Access).Inside ↔ hdrSize hdr.byte ≤ hdr.size := by
    rw [Access.Inside,Nat.zero_add]
  rw [← hself]
  unfold gptHdrReads
  by_cases hsize : hdr.size < hdrSize hdr.byte
  · rw [if_pos hsize,Tracked.inside_left]
  rw [if_neg hsize]
  by_cases hcrc : crc32 hdr.byte (hdrSize hdr.byte) ≠ crc
  · rw [if_pos hcrc,Tracked.inside_done]
  rw [if_neg hcrc,Tracked.inside_after]
  simp [gptTableReads_inside rfl]

/-- The checksums are taken inside of the buffers if the header fits its sector. -/
theorem gptCheckReads_inside_iff : (gptCheckReads im lba found).Inside ↔ HdrFits im lba := by
  unfold gptCheckReads HdrFits
  cases hb : gptRead im lba 1 with
  | none => simp
  | some b =>
    dsimp only
    by_cases hsig : hdrSig b.byte = gptHdrSig
    · rw [if_neg (not_not.mpr hsig),gptHdrReads_inside_iff,(sameFields_setCrcSelf b.byte 0).size,gptRead_size hb]
      simp [hsig]
    · rw [if_pos hsig]
      simp [hsig]

/-- `gpt_gpt` stays inside of its buffers exactly where the header fits its sector and the entries that it comes to
fit their table. -/
theorem gptGpt_inside_iff (im : Image) (g : Media) (lba found : ℤ) : GptInside im g lba found ↔
    HdrFits im lba ∧ (lba = 1 → ∀ b p, CopyValid im lba b p → ReachedFit im g (foundOf b p)) := by
  have hcheck := gptCheckReads_value im lba found
  have hin : (gptCheckReads im lba found).Inside ↔ HdrFits im lba := gptCheckReads_inside_iff
  -- no valid copy where the checks give a value to return
  have hnone : (∀ f, gptCheck im lba found ≠ some (.ok f)) → ∀ b p, ¬ CopyValid im lba b p :=
    fun h b p hv => h _ ((@gptCheck_valid im lba found _).mpr ⟨b,p,hv,rfl⟩)
  unfold GptInside gptGptReads
  generalize gptCheckReads im lba found = t at hcheck hin ⊢
  rcases t with ⟨r | f,l⟩ | l
  · refine (and_iff_left fun _ b p hv => ?_).symm.trans (and_congr_left fun _ => hin)
    exact absurd hv (hnone (by simp [← hcheck]) b p)
  · obtain ⟨b,p,hv,rfl⟩ := gptCheck_valid.mp hcheck.symm
    have hs := sameFields_setCrcSelf b.byte 0
    have hsize : (foundOf b p).tbl.size = tblBlocks im.secsz (foundOf b p).hdr.byte*im.secsz := by
      rw [foundOf,gptRead_size hv.tbl,tblBlocks,tblBlocks,tblsz,tblsz,hs.entries,hs.entsz]
    have huniq : ∀ b' p', CopyValid im lba b' p' → foundOf b' p' = foundOf b p := fun b' p' hv' => by
      have := (@gptCheck_valid im lba found _).mpr ⟨b',p',hv',rfl⟩
      rw [← hcheck] at this
      exact (Except.ok.inj (Option.some.inj this)).symm
    dsimp only
    rw [Tracked.inside_after,gptMapReads_inside_iff,hsize]
    refine and_congr hin ⟨fun h hlba b' p' hv' => ?_,fun h hlba => ?_⟩
    · have hfit := h hlba
      rw [hlba] at hfit
      rwa [huniq b' p' hv']
    · rw [hlba]
      exact h hlba b p hv
  · refine (and_iff_left fun _ b p hv => ?_).symm.trans (and_congr_left fun _ => hin)
    exact absurd hv (hnone (by simp [← hcheck]) b p)

/-- Only an entry that leaves the table keeps the loop from its end. -/
theorem gptEntriesReads_isSome {hdr : ℕ → UInt8} {p : Buf} {k i : ℕ} (h : (gptEntriesReads hdr p k i g).Inside) :
    (gptEntriesReads hdr p k i g).value.isSome := by
  rw [gptEntriesReads_value]
  induction k generalizing i g with
  | zero => rfl
  | succ k ih =>
    have hfit : entOfs hdr i+entStructSize ≤ p.size := by
      by_contra hout
      exact gptEntriesReads_outside hout h
    have hrest := (gptEntriesReads_succ hfit).mp h
    unfold entStructSize at hfit
    unfold addEntry at hrest
    unfold gptEntries
    dsimp only at hrest ⊢
    rw [if_neg (show ¬ p.size < entOfs hdr i+16 by omega),if_neg (show ¬ p.size < entOfs hdr i+48 by omega)]
    by_cases htype : entType p.byte (entOfs hdr i) = 0
    · rw [if_pos htype] at hrest ⊢
      exact ih (hrest g rfl)
    rw [if_neg htype] at hrest ⊢
    revert hrest
    rcases mapAdd g (entStart p.byte (entOfs hdr i)) (entSize p.byte (entOfs hdr i)) .gptPart (.ent (entOfs hdr i)) false
      with ⟨e | m,g'⟩
    · intro
      rfl
    · exact fun hrest => ih (hrest _ rfl)

theorem gptMapReads_isSome {f : Found} (h : (gptMapReads im g lba f).Inside) : (gptMapReads im g lba f).value.isSome := by
  revert h
  unfold gptMapReads
  rcases mapAdd g lba 1 (if lba = 1 then .priGptHdr else .secGptHdr) (.buf f.hdr) true with ⟨e | m,g₁⟩
  · exact fun _ => rfl
  dsimp only
  rcases mapAdd g₁ (offT (hdrLbaTable f.hdr.byte)) (tblBlocks im.secsz f.hdr.byte)
    (if lba = 1 then .priGptTbl else .secGptTbl) (.buf f.tbl) true with ⟨e | m,g₂⟩
  · exact fun _ => rfl
  dsimp only
  by_cases hlba : lba ≠ 1
  · rw [if_pos hlba]
    exact fun _ => rfl
  · rw [if_neg hlba]
    exact gptEntriesReads_isSome

theorem gptTableReads_isSome (hdr : Buf) (t : Option Buf) : (gptTableReads found hdr t).value.isSome := by
  cases t with
  | none => rfl
  | some p =>
    unfold gptTableReads
    dsimp only
    split_ifs <;> rfl

theorem gptCheckReads_isSome (h : HdrFits im lba) : (gptCheckReads im lba found).value.isSome := by
  unfold gptCheckReads
  cases hb : gptRead im lba 1 with
  | none => rfl
  | some b =>
    dsimp only
    by_cases hsig : hdrSig b.byte ≠ gptHdrSig
    · rw [if_pos hsig]
      rfl
    have hsize : ¬ b.size < hdrSize (setCrcSelf b.byte 0) := by
      have := h b hb (not_not.mp hsig)
      rw [(sameFields_setCrcSelf b.byte 0).size,gptRead_size hb]
      omega
    rw [if_neg hsig,gptHdrReads,if_neg hsize]
    split_ifs
    · rfl
    · rw [Tracked.value_after]
      exact gptTableReads_isSome _ _

/-- Where it stays inside, `gpt_gpt` comes to an end with a result. -/
theorem GptInside.isSome (h : GptInside im g lba found) : (gptGpt im g lba found).isSome := by
  rw [← gptGptReads_value]
  have hcheck : (gptCheckReads im lba found).value.isSome :=
    gptCheckReads_isSome ((gptGpt_inside_iff im g lba found).mp h).1
  unfold GptInside gptGptReads at h
  unfold gptGptReads
  generalize gptCheckReads im lba found = t at h hcheck ⊢
  rcases t with ⟨r | f,l⟩ | l
  · rfl
  · dsimp only at h ⊢
    rw [Tracked.value_after]
    exact gptMapReads_isSome (Tracked.inside_after.mp h).2
  · cases hcheck

/-- A device of eight sectors with a header of 513 bytes. -/
def longHdrImage : Image := .ofSectors 8 (lePut (lePut (fun _ => 0) 512 8 gptHdrSig) 524 4 513)

/-- The checksum of a long header is taken over more than the sector, whatever the map. -/
theorem not_hdrFits_longHdrImage : ¬ HdrFits longHdrImage 1 := by
  intro h
  obtain ⟨b,hb⟩ : ∃ b, gptRead longHdrImage 1 1 = some b := Option.isSome_iff_exists.mp (by decide)
  have hofs : (offT (1*longHdrImage.secsz)).toNat = 512 := by decide
  have hbyte : b.byte = fun j => longHdrImage.byte (512+j) := by rw [gptRead_eq hb,hofs]
  have hfit := h b hb (by rw [hbyte]; decide)
  have hsize : hdrSize b.byte = 513 := by rw [hbyte]; decide
  have h512 : longHdrImage.secsz = 512 := rfl
  omega

/-- So it is for `gpt_open`, which begins with an unused map. -/
theorem gptGpt_long_hdr : ∃ g, mapInit (emptyMedia fun _ => true) longHdrImage.devsz = some g ∧
    ¬ GptInside longHdrImage g 1 1 := by
  obtain ⟨g,hg⟩ := Option.isSome_iff_exists.mp
    (show (mapInit (emptyMedia fun _ => true) longHdrImage.devsz).isSome by simp [mapInit,mapCreate,emptyMedia])
  exact ⟨g,hg,fun h => not_hdrFits_longHdrImage ((gptGpt_inside_iff longHdrImage g 1 1).mp h).1⟩

end Access

end Blub.Fgdisk
