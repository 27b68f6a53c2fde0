import Blub.Boot.Part

/-! Which GPT the loader lists. The primary and the backup go through one buffer for their tables. -/
namespace Blub.Boot
open Blub.Bytes Blub.Gpt

section Copies
variable (w : PartDisk)

/-- The table of a header, on the disk. -/
def PartDisk.tableOf (hdr : ℕ → UInt8) : ℕ → UInt8 := w.from (hdrLbaTable hdr)

/-- The whole table can be read. -/
def TblFits (hdr : ℕ → UInt8) : Prop := hdrEntries hdr*hdrEntsz hdr ≤ maxtblsz*w.sectorsize

def CrcMatches (hdr : ℕ → UInt8) : Prop :=
  TblFits w hdr → crc32 (w.tableOf hdr) (hdrEntries hdr*hdrEntsz hdr) = hdrCrcTable hdr

/-- A copy on the disk, at the first sector, where that header has its alternate, or in the last sector. -/
structure GptCopy (lba : ℕ) : Prop where
  place : lba = 1 ∨ lba = hdrLbaAlt (w.from 1) ∨ lba = gptOffset w none
  hdr : GptCheckhdr (w.from lba) lba w.sectorsize
  crc : CrcMatches w (w.from lba)

/-- Both copies are valid and agree, and the table of the primary can be read, which is reading `k`. -/
structure BothAgree (k : ℕ) : Prop where
  primary : GptCopy w 1
  read : w.fails k = false
  backup : GptCopy w (hdrLbaAlt (w.from 1))
  agree : HdrsAgree (w.from 1) (w.from (hdrLbaAlt (w.from 1)))

variable (abi : PartAbi)

/-- The used entries of a header's table. -/
def usedOf (hdr : ℕ → UInt8) : List Pentry := gptUsed abi (w.tableOf hdr) (hdrEntsz hdr) (hdrEntries hdr)

/-- The entries of one copy, which is the primary if both copies would do. -/
structure ListsGpt (k : ℕ) (l : List Pentry) : Prop where
  copy : ∃ lba, GptCopy w lba ∧ l = usedOf w abi (w.from lba)
  primary : BothAgree w k → l = usedOf w abi (w.from 1)

end Copies

section Slots
variable {abi : PartAbi}

/-- Entry `i` of a table of `n`, if it is used. -/
def gptSlot (abi : PartAbi) (tbl : ℕ → UInt8) (sz n i : ℕ) : Option Pentry :=
  if i < n ∧ entType tbl (i*sz) ≠ abi.gptUnused then some (gptPentry abi tbl sz i) else none

theorem gptUsed_eq (tbl : ℕ → UInt8) {sz n m : ℕ} (h : n ≤ m) :
    gptUsed abi tbl sz n = (List.range m).filterMap (gptSlot abi tbl sz n) := by
  obtain ⟨r,rfl⟩ := Nat.exists_eq_add_of_le h
  rw [List.range_add,List.filterMap_append,gptUsed]
  have hrest : (List.map (fun i => n+i) (List.range r)).filterMap (gptSlot abi tbl sz n) = [] := by
    rw [List.filterMap_eq_nil_iff]
    intro i hi
    obtain ⟨j,-,rfl⟩ := List.mem_map.mp hi
    exact if_neg fun hlt => absurd hlt.1 (by omega)
  rw [hrest,List.append_nil]
  apply List.filterMap_congr
  intro i hi
  have hlt := List.mem_range.mp hi
  by_cases hu : entType tbl (i*sz) = abi.gptUnused
  · rw [if_pos hu,gptSlot,if_neg fun hn => hn.2 hu]
  · rw [if_neg hu,gptSlot,if_pos ⟨hlt,hu⟩]

theorem mem_gptUsed {tbl : ℕ → UInt8} {sz n : ℕ} {e : Pentry} :
    e ∈ gptUsed abi tbl sz n ↔ ∃ i, gptSlot abi tbl sz n i = some e := by
  rw [gptUsed_eq tbl le_rfl,List.mem_filterMap]
  constructor
  · rintro ⟨i,-,h⟩
    exact ⟨i,h⟩
  · rintro ⟨i,h⟩
    refine ⟨i,?_,h⟩
    unfold gptSlot at h
    split_ifs at h with hi
    exact List.mem_range.mpr hi.1

/-- An entry knows its place. -/
theorem index_of_gptSlot {tbl : ℕ → UInt8} {sz n i : ℕ} {e : Pentry} (h : gptSlot abi tbl sz n i = some e) :
    e.part.index = (i : ℤ)+1 := by
  unfold gptSlot at h
  split_ifs at h
  rw [← Option.some.inj h]
  rfl

/-- Tables have the same used entries exactly when they hold the same in each place. -/
theorem gptUsed_eq_iff {tbl tbl' : ℕ → UInt8} {sz sz' n n' : ℕ} :
    gptUsed abi tbl sz n = gptUsed abi tbl' sz' n' ↔ ∀ i, gptSlot abi tbl sz n i = gptSlot abi tbl' sz' n' i := by
  constructor
  · intro h
    have hmem : ∀ i e, gptSlot abi tbl sz n i = some e ↔ gptSlot abi tbl' sz' n' i = some e := by
      intro i e
      constructor
      · intro he
        obtain ⟨j,hj⟩ := mem_gptUsed.mp (h ▸ mem_gptUsed.mpr ⟨i,he⟩)
        have hij : j = i := by
          have := (index_of_gptSlot hj).symm.trans (index_of_gptSlot he)
          omega
        rwa [← hij]
      · intro he
        obtain ⟨j,hj⟩ := mem_gptUsed.mp (h.symm ▸ mem_gptUsed.mpr ⟨i,he⟩)
        have hij : j = i := by
          have := (index_of_gptSlot hj).symm.trans (index_of_gptSlot he)
          omega
        rwa [← hij]
    exact fun i => Option.ext fun e => hmem i e
  · intro h
    rw [gptUsed_eq tbl (Nat.le_max_left n n'),gptUsed_eq tbl' (Nat.le_max_right n n')]
    exact List.filterMap_congr fun i _ => h i

/-- Entries that hold the same bytes. -/
theorem gptUsed_congr {tbl tbl' : ℕ → UInt8} {sz n : ℕ} (hsz : entStructSize ≤ sz)
    (h : ∀ j < n*sz, tbl j = tbl' j) : gptUsed abi tbl sz n = gptUsed abi tbl' sz n := by
  apply List.filterMap_congr
  intro i hi
  have hend : (i+1)*sz ≤ n*sz := Nat.mul_le_mul_right sz (List.mem_range.mp hi)
  rw [Nat.add_mul,Nat.one_mul] at hend
  have hfield : ∀ o k, o+k ≤ 128 → leGet tbl (i*sz+o) k = leGet tbl' (i*sz+o) k := by
    intro o k hok
    apply leGet_congr
    intro j _ hj
    apply h
    rw [entStructSize] at hsz
    omega
  have htype : entType tbl (i*sz) = entType tbl' (i*sz) := hfield 0 16 (by omega)
  have hentry : gptPentry abi tbl sz i = gptPentry abi tbl' sz i := by
    simp only [gptPentry,htype,entLbaStart,entLbaEnd,entAttr,hfield 32 8 (by omega),hfield 40 8 (by omega),
      hfield 48 8 (by omega)]
  rw [htype,hentry]

end Slots

section Tables
variable {w : PartDisk} {abi : PartAbi} {hdr : ℕ → UInt8} {lba : ℕ}

/-- The table of a header can be read, in reading `k`, and has the right checksum. -/
def TableUsable (w : PartDisk) (k : ℕ) (hdr : ℕ → UInt8) : Prop := w.fails k = false ∧ CrcMatches w hdr

theorem GptCheckhdr.sectorsize_pos (h : GptCheckhdr hdr lba w.sectorsize) : 0 < w.sectorsize := by
  have := h.size
  omega

theorem gptTblLength_of_fits (h : TblFits w hdr) : gptTblLength hdr = hdrEntries hdr*hdrEntsz hdr := by
  have hss := w.sectorsize_lt
  rw [TblFits,maxtblsz] at h
  exact Nat.mod_eq_of_lt (by omega)

/-- A table that fits is read whole. -/
theorem gptTblSectors_of_fits (h : TblFits w hdr) (hss : 0 < w.sectorsize) :
    hdrEntries hdr*hdrEntsz hdr ≤ gptTblSectors w hdr*w.sectorsize := by
  have hlt := w.sectorsize_lt
  rw [gptTblSectors,gptTblLength_of_fits h]
  rw [TblFits,maxtblsz] at h
  rw [show (hdrEntries hdr*hdrEntsz hdr+(2^32+w.sectorsize-1))%2^32 = hdrEntries hdr*hdrEntsz hdr+(w.sectorsize-1) by
    omega]
  generalize hdrEntries hdr*hdrEntsz hdr = p at *
  have hdiv := Nat.div_add_mod (p+(w.sectorsize-1)) w.sectorsize
  have hmod := Nat.mod_lt (p+(w.sectorsize-1)) hss
  have hle : (p+(w.sectorsize-1))/w.sectorsize ≤ maxtblsz := by
    apply Nat.le_of_lt_succ
    apply Nat.div_lt_of_lt_mul
    rw [maxtblsz,Nat.mul_succ,Nat.mul_comm w.sectorsize 64]
    omega
  rw [Nat.min_eq_right hle,Nat.mul_comm]
  omega

theorem gptListed_of_fits (h : TblFits w hdr) (hsz : 0 < hdrEntsz hdr) : gptListed w hdr = hdrEntries hdr := by
  rw [gptListed,gptTblLength_of_fits h,Nat.min_eq_left h,Nat.mul_div_cancel _ hsz]

theorem gptReadtbl_tbl (k : ℕ) (tbl : ℕ → UInt8) : (gptReadtbl w k hdr tbl).2 =
    blit tbl 0 (gptTblSectors w hdr*w.sectorsize) (if w.fails k then w.left k else w.tableOf hdr) := by
  unfold gptReadtbl PartDisk.dread
  split_ifs <;> rfl

/-- The buffer starts with the table if that was read and fits. -/
theorem gptReadtbl_prefix {k : ℕ} {tbl : ℕ → UInt8} (hk : w.fails k = false) (hf : TblFits w hdr)
    (hss : 0 < w.sectorsize) {j : ℕ} (hj : j < hdrEntries hdr*hdrEntsz hdr) :
    (gptReadtbl w k hdr tbl).2 j = w.tableOf hdr j := by
  have hlen := gptTblSectors_of_fits hf hss
  rw [gptReadtbl_tbl,hk,blit_inside (Nat.zero_le j) (by omega)]
  rfl

theorem gptReadtbl_ok {k : ℕ} (tbl : ℕ → UInt8) (h : GptCheckhdr hdr lba w.sectorsize) :
    (gptReadtbl w k hdr tbl).1 = true ↔ TableUsable w k hdr := by
  have hss := h.sectorsize_pos
  have hsz : 0 < hdrEntsz hdr := lt_of_lt_of_le (by decide) h.entries.2.1
  have hread : (gptReadtbl w k hdr tbl).1 =
      (!w.fails k && gptChecktbl hdr (gptReadtbl w k hdr tbl).2 (gptTblSectors w hdr*w.sectorsize)) := by
    unfold gptReadtbl PartDisk.dread
    cases w.fails k <;> rfl
  rw [hread,Bool.and_eq_true,Bool.not_eq_true',TableUsable]
  refine and_congr_right fun hk => ?_
  have hroom : hdrEntries hdr ≤ gptTblSectors w hdr*w.sectorsize/hdrEntsz hdr ↔ TblFits w hdr := by
    rw [Nat.le_div_iff_mul_le hsz]
    refine ⟨fun hle => hle.trans ?_,fun hf => gptTblSectors_of_fits hf hss⟩
    exact Nat.mul_le_mul_right _ (Nat.min_le_left _ _)
  unfold gptChecktbl CrcMatches
  by_cases hf : TblFits w hdr
  · have hlen : hdrEntries hdr*hdrEntsz hdr%2^32 = hdrEntries hdr*hdrEntsz hdr := gptTblLength_of_fits hf
    rw [if_pos (hroom.mpr hf),decide_eq_true_eq,hlen,crc32_congr fun j hj => gptReadtbl_prefix hk hf hss hj]
    exact ⟨fun he _ => he.symm,fun he => (he hf).symm⟩
  · rw [if_neg fun hle => hf (hroom.mp hle)]
    exact ⟨fun _ hy => absurd hy hf,fun _ => rfl⟩

/-- A table that was read and fits is listed as it stands. -/
theorem gptUsed_of_fits {k : ℕ} {tbl : ℕ → UInt8} (h : GptCheckhdr hdr lba w.sectorsize) (hk : w.fails k = false)
    (hf : TblFits w hdr) :
    gptUsed abi (gptReadtbl w k hdr tbl).2 (hdrEntsz hdr) (gptListed w hdr) = usedOf w abi hdr := by
  rw [gptListed_of_fits hf (lt_of_lt_of_le (by decide) h.entries.2.1)]
  exact gptUsed_congr h.entries.2.1 fun j hj => gptReadtbl_prefix hk hf h.sectorsize_pos hj

end Tables

section Choice
variable (w : PartDisk) (abi : PartAbi)

/-- The header in the first sector is sound and its table can be used. -/
def PrimaryUsable (k : ℕ) : Prop := GptCheckhdr (w.from 1) 1 w.sectorsize ∧ TableUsable w k (w.from 1)

/-- There is a sound header at `lba`. -/
def BackupFound (k lba : ℕ) : Prop := w.fails k = false ∧ GptCheckhdr (w.from lba) lba w.sectorsize

/-- The buffer happens to hold, at the places where `hdr` has its entries, those of one of the copies. -/
structure HoldsCopy (k : ℕ) (hdr tbl : ℕ → UInt8) : Prop where
  copy : ∃ lba, GptCopy w lba ∧ ∀ i, gptSlot abi tbl (hdrEntsz hdr) (gptListed w hdr) i =
    gptSlot abi (w.tableOf (w.from lba)) (hdrEntsz (w.from lba)) (hdrEntries (w.from lba)) i
  primary : BothAgree w k → ∀ i, gptSlot abi tbl (hdrEntsz hdr) (gptListed w hdr) i =
    gptSlot abi (w.tableOf (w.from 1)) (hdrEntsz (w.from 1)) (hdrEntries (w.from 1)) i

/-- What is in the buffer is the table of `hdr`, which is read whole unless it is longer than 64 sectors. -/
def Whole (k : ℕ) (hdr tbl : ℕ → UInt8) : Prop := TblFits w hdr ∨ HoldsCopy w abi k hdr tbl

/-- The buffer after the attempt to read the primary table, if there was one. -/
def primaryTbl (k : ℕ) : ℕ → UInt8 :=
  if GptCheckhdr (w.from 1) 1 w.sectorsize then (gptReadtbl w k (w.from 1) w.freshTbl).2 else w.freshTbl

/-- By chance the buffer still lists the entries of the primary after the unusable table of the backup has gone
through it. -/
def StillListed (k : ℕ) : Prop :=
  HoldsCopy w abi (k+1) (w.from 1)
    (gptReadtbl w (k+3) (w.from (hdrLbaAlt (w.from 1))) (gptReadtbl w (k+1) (w.from 1) w.freshTbl).2).2

/-- When the right entries are listed: the primary can be used and no backup with a different header and a table that
cannot be used has gone through the buffer after it, or there is only the backup. The readings are counted from that
of the primary header, the `k`-th. -/
def GptSettles (k : ℕ) : Prop :=
  open Classical in
  if PrimaryUsable w (k+1) then
    let alt := hdrLbaAlt (w.from 1)
    let tbl := (gptReadtbl w (k+1) (w.from 1) w.freshTbl).2
    if BackupFound w (k+2) alt ∧ ¬ HdrsAgree (w.from 1) (w.from alt) then
      if TableUsable w (k+3) (w.from alt) then Whole w abi (k+1) (w.from alt) (gptReadtbl w (k+3) (w.from alt) tbl).2
      else StillListed w abi k
    else Whole w abi (k+1) (w.from 1) tbl
  else
    let last := gptOffset w none
    let k' := if GptCheckhdr (w.from 1) 1 w.sectorsize then k+2 else k+1
    Whole w abi (k+1) (w.from last) (gptReadtbl w (k'+1) (w.from last) (primaryTbl w (k+1))).2

end Choice

section Listing
variable {w : PartDisk} {abi : PartAbi} {k : ℕ} {hdr tbl : ℕ → UInt8}

theorem listsGpt_iff_holdsCopy :
    ListsGpt w abi k (gptUsed abi tbl (hdrEntsz hdr) (gptListed w hdr)) ↔ HoldsCopy w abi k hdr tbl := by
  constructor
  · rintro ⟨⟨lba,hc,he⟩,hp⟩
    exact ⟨⟨lba,hc,gptUsed_eq_iff.mp he⟩,fun hb => gptUsed_eq_iff.mp (hp hb)⟩
  · rintro ⟨⟨lba,hc,he⟩,hp⟩
    exact ⟨⟨lba,hc,gptUsed_eq_iff.mpr he⟩,fun hb => gptUsed_eq_iff.mpr (hp hb)⟩

/-- The table of one copy is in the buffer. -/
theorem listsGpt_iff_whole {k' lba : ℕ} (hc : GptCopy w lba) (hk : w.fails k' = false)
    (hp : BothAgree w k → lba = 1) :
    ListsGpt w abi k (gptUsed abi (gptReadtbl w k' (w.from lba) tbl).2 (hdrEntsz (w.from lba)) (gptListed w (w.from lba))) ↔
      Whole w abi k (w.from lba) (gptReadtbl w k' (w.from lba) tbl).2 := by
  rw [Whole,← listsGpt_iff_holdsCopy]
  refine ⟨Or.inr,fun h => h.elim (fun hf => ?_) id⟩
  rw [gptUsed_of_fits hc.hdr hk hf]
  refine ⟨⟨lba,hc,rfl⟩,fun hb => ?_⟩
  rw [hp hb]

end Listing

section Gptread
variable {w : PartDisk} {abi : PartAbi} {k : ℕ} {t : PartTable}

theorem gptPrimary_usable (h : PrimaryUsable w k) :
    gptPrimary w k (w.from 1) = ⟨some (w.from 1),(gptReadtbl w k (w.from 1) w.freshTbl).2,k+1⟩ := by
  unfold gptPrimary
  rw [if_pos h.1]
  dsimp only
  rw [if_pos ((gptReadtbl_ok w.freshTbl h.1).mpr h.2)]

theorem gptPrimary_unusable (h : ¬ PrimaryUsable w k) : gptPrimary w k (w.from 1) =
    ⟨none,primaryTbl w k,if GptCheckhdr (w.from 1) 1 w.sectorsize then k+1 else k⟩ := by
  unfold gptPrimary primaryTbl
  by_cases hc : GptCheckhdr (w.from 1) 1 w.sectorsize
  · rw [if_pos hc,if_pos hc,if_pos hc]
    dsimp only
    rw [if_neg fun hok => h ⟨hc,(gptReadtbl_ok w.freshTbl hc).mp hok⟩]
  · rw [if_neg hc,if_neg hc,if_neg hc]

open Classical in
theorem gptBackupHdr_eq (s : GptState) : gptBackupHdr w s =
    if BackupFound w s.reads (gptOffset w s.hdr) then some (w.from (gptOffset w s.hdr)) else none := by
  unfold gptBackupHdr PartDisk.dread1 BackupFound
  cases w.fails s.reads with
  | true => simp
  | false => simp

section Backup
variable {s : GptState} {lba : ℕ}

theorem gptBackup_absent (hl : gptOffset w s.hdr = lba) (h : ¬ BackupFound w s.reads lba) :
    gptBackup w s = { s with reads := s.reads+1 } := by
  unfold gptBackup
  rw [gptBackupHdr_eq,hl,if_neg h]

theorem gptBackup_agrees {hdr : ℕ → UInt8} (hs : s.hdr = some hdr) (hl : gptOffset w s.hdr = lba)
    (h : BackupFound w s.reads lba) (ha : HdrsAgree hdr (w.from lba)) :
    gptBackup w s = { s with reads := s.reads+1 } := by
  unfold gptBackup
  rw [gptBackupHdr_eq,hl,if_pos h,hs]
  exact if_pos ha

/-- The table of the backup goes into the buffer, whether it can be used or not. -/
theorem gptBackup_tries (hl : gptOffset w s.hdr = lba) (h : BackupFound w s.reads lba)
    (ha : ∀ hdr, s.hdr = some hdr → ¬ HdrsAgree hdr (w.from lba)) :
    (TableUsable w (s.reads+1) (w.from lba) →
      gptBackup w s = ⟨some (w.from lba),(gptReadtbl w (s.reads+1) (w.from lba) s.tbl).2,s.reads+2⟩) ∧
    (¬ TableUsable w (s.reads+1) (w.from lba) →
      gptBackup w s = ⟨s.hdr,(gptReadtbl w (s.reads+1) (w.from lba) s.tbl).2,s.reads+2⟩) := by
  have hok := gptReadtbl_ok (k := s.reads+1) s.tbl h.2
  unfold gptBackup
  rw [gptBackupHdr_eq,hl,if_pos h]
  dsimp only
  cases hs : s.hdr with
  | none => exact ⟨fun hu => by rw [if_pos (hok.mpr hu)],fun hu => by rw [if_neg (mt hok.mp hu)]⟩
  | some hdr =>
    dsimp only
    rw [if_neg (ha hdr hs)]
    exact ⟨fun hu => by rw [if_pos (hok.mpr hu)],fun hu => by rw [if_neg (mt hok.mp hu)]⟩

end Backup

/-- The primary is a copy on the disk. -/
theorem PrimaryUsable.copy (h : PrimaryUsable w k) : GptCopy w 1 := ⟨.inl rfl,h.1,h.2.2⟩

/-- The table that is made of the state at the end. -/
def GptState.table (abi : PartAbi) (w : PartDisk) (s : GptState) : PartTable :=
  match s.hdr with
  | none => ⟨.none,[]⟩
  | some hdr => ⟨.gpt,gptUsed abi s.tbl (hdrEntsz hdr) (gptListed w hdr)⟩

theorem GptState.table_some (hdr tbl : ℕ → UInt8) (r : ℕ) : (GptState.mk (some hdr) tbl r).table abi w =
    ⟨.gpt,gptUsed abi tbl (hdrEntsz hdr) (gptListed w hdr)⟩ := rfl

theorem ptableGptread_some (h : ptableGptread abi w k = some t) :
    t = (gptBackup w (gptPrimary w (k+1) (w.from 1))).table abi w := by
  unfold ptableGptread at h
  cases hread : w.dread1 k 1 with
  | none =>
    rw [hread] at h
    cases h
  | some buf =>
    obtain ⟨-,rfl⟩ := PartDisk.dread1_some hread
    rw [hread] at h
    dsimp only at h
    generalize gptBackup w (gptPrimary w (k+1) (w.from 1)) = s at h ⊢
    obtain ⟨hdr,tbl,r⟩ := s
    cases hdr with
    | none => exact (Option.some.inj h).symm
    | some hdr => exact (Option.some.inj h).symm

theorem settles_usable (hp : PrimaryUsable w (k+1)) (h : ptableGptread abi w k = some t) :
    ListsGpt w abi (k+1) t.entries ↔ GptSettles w abi k := by
  rw [ptableGptread_some h,gptPrimary_usable hp,GptSettles,if_pos hp]
  dsimp only
  by_cases hb : BackupFound w (k+2) (hdrLbaAlt (w.from 1)) ∧ ¬ HdrsAgree (w.from 1) (w.from (hdrLbaAlt (w.from 1)))
  · have htry := gptBackup_tries
      (s := ⟨some (w.from 1),(gptReadtbl w (k+1) (w.from 1) w.freshTbl).2,k+1+1⟩) rfl hb.1
      (by rintro hdr ⟨⟩; exact hb.2)
    rw [if_pos hb]
    by_cases hu : TableUsable w (k+3) (w.from (hdrLbaAlt (w.from 1)))
    · rw [if_pos hu,htry.1 hu]
      exact listsGpt_iff_whole ⟨.inr (.inl rfl),hb.1.2,hu.2⟩ hu.1 fun hba => absurd hba.agree hb.2
    · rw [if_neg hu,htry.2 hu,StillListed]
      exact listsGpt_iff_holdsCopy
  · have hkeep : gptBackup w ⟨some (w.from 1),(gptReadtbl w (k+1) (w.from 1) w.freshTbl).2,k+1+1⟩ =
        ⟨some (w.from 1),(gptReadtbl w (k+1) (w.from 1) w.freshTbl).2,k+3⟩ := by
      by_cases hf : BackupFound w (k+2) (hdrLbaAlt (w.from 1))
      · exact gptBackup_agrees rfl rfl hf (not_not.mp fun hn => hb ⟨hf,hn⟩)
      · exact gptBackup_absent rfl hf
    rw [if_neg hb,hkeep]
    exact listsGpt_iff_whole hp.copy hp.2.1 fun _ => rfl

theorem settles_unusable (hp : ¬ PrimaryUsable w (k+1)) (h : ptableGptread abi w k = some t) (ht : t.type = .gpt) :
    ListsGpt w abi (k+1) t.entries ↔ GptSettles w abi k := by
  have he := ptableGptread_some h
  rw [GptSettles,if_neg hp]
  dsimp only
  rw [gptPrimary_unusable hp] at he
  have hreads : (if GptCheckhdr (w.from 1) 1 w.sectorsize then k+1+1 else k+1) =
      if GptCheckhdr (w.from 1) 1 w.sectorsize then k+2 else k+1 := rfl
  rw [hreads] at he
  generalize (if GptCheckhdr (w.from 1) 1 w.sectorsize then k+2 else k+1) = k' at he ⊢
  generalize hlast : gptOffset w none = last
  by_cases hf : BackupFound w k' last
  · have htry := gptBackup_tries (s := ⟨none,primaryTbl w (k+1),k'⟩) hlast hf (by nofun)
    by_cases hu : TableUsable w (k'+1) (w.from last)
    · have hcopy : GptCopy w last := ⟨.inr (.inr hlast.symm),hf.2,hu.2⟩
      have hno : ¬ BothAgree w (k+1) := fun hba => hp ⟨hba.primary.hdr,hba.read,hba.primary.crc⟩
      rw [he,htry.1 hu,GptState.table_some]
      dsimp only
      exact listsGpt_iff_whole hcopy hu.1 fun hba => absurd hba hno
    · rw [htry.2 hu] at he
      rw [he] at ht
      cases ht
  · rw [gptBackup_absent (s := ⟨none,primaryTbl w (k+1),k'⟩) hlast hf] at he
    rw [he] at ht
    cases ht

/-- A GPT that was opened is listed right exactly when the buffer settles. -/
theorem gpt_listed_right_iff (h : ptableOpen abi w = some t) (ht : t.type = .gpt) :
    ListsGpt w abi (openReads abi w+1) t.entries ↔ GptSettles w abi (openReads abi w) := by
  obtain ⟨-,rfl⟩ | ⟨-,-,rfl⟩ | ⟨-,-,hmbr⟩ := ptableOpen_cases h
  · cases ht
  · cases ht
  · by_cases hm : IsMbr abi (w.from 0)
    · rw [ptableMbr_of_isMbr hm,Option.some.injEq] at hmbr
      rw [← hmbr] at ht
      cases ht
    · obtain hnone | hgpt := ptableMbr_of_not_isMbr hm hmbr
      · rw [hnone] at ht
        cases ht
      · by_cases hp : PrimaryUsable w (openReads abi w+1)
        · exact settles_usable hp hgpt
        · exact settles_unusable hp hgpt ht

end Gptread

/-- A header for a table of four entries of 128 bytes. -/
def fourHdr (lba alt tbl start crcTable crcSelf : ℕ) : ℕ → UInt8 :=
  lePut (lePut (lePut (lePut (lePut (lePut (lePut (lePut (lePut (lePut (lePut (fun _ => 0) 0 8 gptHdrSig) 8 4 0x10000)
    12 4 92) 16 4 crcSelf) 24 8 lba) 32 8 alt) 40 8 start) 72 8 tbl) 80 4 4) 84 4 128) 88 4 crcTable

/-- A primary GPT with one partition, and `backup` in the last sector. -/
def copiesDisk (backup : ℕ → UInt8) : PartDisk :=
  soundDisk fun j =>
    if j < 512 then 0
    else if j < 1024 then fourHdr 1 99 2 3 189584045 1460047401 (j-512)
    else if j < 1536 then lePut (lePut (lePut (fun _ => 0) 0 1 0x77) 32 8 10) 40 8 20 (j-1024)
    else if j < 99*512 then 0
    else backup (j-99*512)

/-- The first and the last sector of each partition. -/
def PartTable.places (t : PartTable) : List (ℕ × ℕ) := t.entries.map fun e => (e.part.start,e.part.stop)

def loneDisk : PartDisk := copiesDisk fun _ => 0

example : crc32 (loneDisk.tableOf (loneDisk.from 1)) (4*128) = hdrCrcTable (loneDisk.from 1) := by decide +kernel

theorem gpt_listed_right_lone : ∃ t, ptableOpen dragonflyAbi loneDisk = some t ∧ t.type = .gpt ∧ t.places = [(10,20)] ∧
    ListsGpt loneDisk dragonflyAbi 4 t.entries := by
  have h : (ptableOpen dragonflyAbi loneDisk).map (fun t => (t.type,t.places)) = some (.gpt,[(10,20)]) := by
    decide +kernel
  obtain ⟨t,ht,he⟩ := Option.map_eq_some_iff.mp h
  rw [Prod.mk.injEq] at he
  have hfits : TblFits loneDisk (loneDisk.from 1) := by
    unfold TblFits
    decide
  have hp : PrimaryUsable loneDisk 4 := by
    refine ⟨by decide +kernel,rfl,fun _ => ?_⟩
    decide +kernel
  have hb : ¬ (BackupFound loneDisk 5 (hdrLbaAlt (loneDisk.from 1)) ∧
      ¬ HdrsAgree (loneDisk.from 1) (loneDisk.from (hdrLbaAlt (loneDisk.from 1)))) := by
    rintro ⟨⟨-,hc⟩,-⟩
    revert hc
    decide
  have hreads : openReads dragonflyAbi loneDisk = 3 := by decide
  have hsettles : GptSettles loneDisk dragonflyAbi 3 := by
    rw [GptSettles,if_pos hp]
    dsimp only
    rw [if_neg hb]
    exact .inl hfits
  have hlists := gpt_listed_right_iff ht he.1
  rw [hreads] at hlists
  exact ⟨t,ht,he.1,he.2,hlists.mpr hsettles⟩

/-- A backup with another header and without a table. -/
def spoiledDisk : PartDisk := copiesDisk (fourHdr 99 1 98 4 189584045 1384645194)

/-- The primary is taken, with the table of the backup: its partition is lost. -/
theorem gpt_listing_spoiled : GptCopy spoiledDisk 1 ∧ (usedOf spoiledDisk dragonflyAbi (spoiledDisk.from 1)).length = 1 ∧
    ∃ t, ptableOpen dragonflyAbi spoiledDisk = some t ∧ t.type = .gpt ∧ t.entries = [] ∧
      ¬ ListsGpt spoiledDisk dragonflyAbi 4 t.entries := by
  have hlen : (usedOf spoiledDisk dragonflyAbi (spoiledDisk.from 1)).length = 1 := by decide
  have h : (ptableOpen dragonflyAbi spoiledDisk).map (fun t => (t.type,t.places)) = some (.gpt,[]) := by decide +kernel
  obtain ⟨t,ht,he⟩ := Option.map_eq_some_iff.mp h
  rw [Prod.mk.injEq] at he
  have hnil : t.entries = [] := List.map_eq_nil_iff.mp he.2
  have hcopy : GptCopy spoiledDisk 1 := ⟨.inl rfl,by decide +kernel,fun _ => by decide +kernel⟩
  refine ⟨hcopy,hlen,t,ht,he.1,hnil,?_⟩
  rintro ⟨⟨lba,hc,hl⟩,-⟩
  have halt : hdrLbaAlt (spoiledDisk.from 1) = 99 := by decide
  have hlast : gptOffset spoiledDisk none = 99 := by decide
  have hplace : lba = 1 ∨ lba = 99 := by
    have hpl := hc.place
    rw [halt,hlast,or_self] at hpl
    exact hpl
  obtain rfl | rfl := hplace
  · rw [← hl,hnil] at hlen
    cases hlen
  · have hfits : TblFits spoiledDisk (spoiledDisk.from 99) := by
      unfold TblFits
      decide
    have hbad : crc32 (spoiledDisk.tableOf (spoiledDisk.from 99))
        (hdrEntries (spoiledDisk.from 99)*hdrEntsz (spoiledDisk.from 99)) ≠ hdrCrcTable (spoiledDisk.from 99) := by
      decide +kernel
    exact hbad (hc.crc hfits)

end Blub.Boot
