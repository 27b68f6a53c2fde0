import Blub.Stand.BufDir

/-! The scans of a directory in `ufs.c`, `search_directory` and `ufs_readdir`, over any bytes. -/
namespace Blub.Stand
open Blub.Bytes Blub.Scan
open Blub.Boot (diSize)

section Progress
variable (d : UfsDisk)

theorem loadIndirect_seekp (level : ℕ) (p : ℤ) (fp : UfsFile) (io : List Outcome) :
    (loadIndirect d level p fp io).2.1.seekp = fp.seekp := by
  unfold loadIndirect
  dsimp only
  split_ifs <;> rfl

theorem blockMapLoop_seekp (level : ℕ) (p : ℤ) (n : ℕ) (fp : UfsFile) (io : List Outcome) :
    (blockMapLoop d level p n fp io).2.1.seekp = fp.seekp := by
  induction level generalizing p n fp io with
  | zero => rfl
  | succ level ih =>
    rw [blockMapLoop]
    by_cases hp : p = 0
    · rw [if_pos hp]
    · rw [if_neg hp]
      dsimp only
      split_ifs
      · exact loadIndirect_seekp d level p fp io
      all_goals exact (ih _ _ _ _).trans (loadIndirect_seekp d level p fp io)

theorem blockMap_seekp (fileBlock : ℤ) (fp : UfsFile) (io : List Outcome) :
    (blockMap d fileBlock fp io).2.1.seekp = fp.seekp := by
  unfold blockMap
  split_ifs
  · rfl
  · split
    · rfl
    · exact blockMapLoop_seekp d _ _ _ fp io

theorem blockMapLoop_error {level : ℕ} {p e : ℤ} {n : ℕ} {fp : UfsFile} {io : List Outcome}
    (h : (blockMapLoop d level p n fp io).1 = .error e) : e ≠ 0 := by
  induction level generalizing p n fp io with
  | zero => cases h
  | succ level ih =>
    rw [blockMapLoop] at h
    by_cases hp : p = 0
    · rw [if_pos hp] at h
      cases h
    · rw [if_neg hp] at h
      dsimp only at h
      by_cases hrc : (loadIndirect d level p fp io).1 ≠ 0
      · rw [if_pos hrc] at h
        cases h
        exact hrc
      · rw [if_neg hrc] at h
        exact ih h

theorem blockMap_error {fileBlock e : ℤ} {fp : UfsFile} {io : List Outcome}
    (h : (blockMap d fileBlock fp io).1 = .error e) : e ≠ 0 := by
  unfold blockMap at h
  split_ifs at h
  split at h
  · cases h
    exact (by decide : efbig ≠ 0)
  · exact blockMapLoop_error d h

theorem loadData_seekp (fileBlock b : ℤ) (fp : UfsFile) (io : List Outcome) :
    (loadData d fileBlock b fp io).2.1.seekp = fp.seekp := by
  unfold loadData
  dsimp only
  split_ifs <;> rfl

theorem loadData_tag {fileBlock b : ℤ} {fp : UfsFile} {io : List Outcome} (h : (loadData d fileBlock b fp io).1 = 0) :
    (loadData d fileBlock b fp io).2.1.bufBlkno = fileBlock := by
  unfold loadData at h ⊢
  dsimp only at h ⊢
  split_ifs at h ⊢ <;> first | rfl | contradiction

/-- A fill of the buffer does not move the seek pointer, and if it succeeds the block of it is there. -/
theorem bufFill_keeps {fp fp' : UfsFile} {io io' : List Outcome} {rc : ℤ} (h : bufFill d fp io = (rc,fp',io')) :
    fp'.seekp = fp.seekp ∧ (rc = 0 → fp'.bufBlkno = lblkno d fp.seekp) := by
  unfold bufFill at h
  dsimp only at h
  by_cases hblk : lblkno d fp.seekp ≠ fp.bufBlkno
  · rw [if_pos hblk] at h
    have hseek := blockMap_seekp d (lblkno d fp.seekp) fp io
    cases hmap : blockMap d (lblkno d fp.seekp) fp io with
    | mk res rest =>
      obtain ⟨fp₁,io₁⟩ := rest
      rw [hmap] at h hseek
      cases res with
      | error e =>
        cases h
        exact ⟨hseek,fun hrc => absurd hrc (blockMap_error d (congrArg Prod.fst hmap))⟩
      | ok b =>
        have hload := loadData_seekp d (lblkno d fp.seekp) b fp₁ io₁
        have htag := @loadData_tag d (lblkno d fp.seekp) b fp₁ io₁
        dsimp only at h
        rw [h] at hload htag
        exact ⟨hload.trans hseek,htag⟩
  · rw [if_neg hblk] at h
    cases h
    exact ⟨rfl,fun _ => (not_not.mp hblk).symm⟩

/-- A second fill changes nothing. -/
theorem bufFill_again {fp fp' : UfsFile} {io io' : List Outcome} (h : bufFill d fp io = (0,fp',io')) :
    bufFill d fp' io' = (0,fp',io') := by
  obtain ⟨hseek,htag⟩ := bufFill_keeps d h
  unfold bufFill
  dsimp only
  rw [hseek,htag rfl,if_neg (not_not.mpr rfl)]

variable {d}

theorem bufAvail_pos {o : ℕ} (hsize : d.diSize ≤ 2^31*d.bsize) (ho : o < d.diSize) :
    0 < bufAvail d o ∧ o+bufAvail d o ≤ d.diSize := by
  have hlt : o/d.bsize < 2^31 := Nat.div_lt_of_lt_mul (by rw [Nat.mul_comm]; omega)
  have hoff := blkoff_lt ho
  rw [bufAvail_eq hlt ho]
  omega

end Progress

/-- A directory of at most `2^31` blocks, which are no larger than `ufs_open` admits. -/
structure UfsDirFile extends UfsDisk where
  bshift_le : bshift ≤ 16
  size_le : diSize ≤ 2^31*2^bshift

theorem UfsDirFile.small (d : UfsDirFile) : d.diSize ≤ 2^47 := by
  have hpow : 2^d.bshift ≤ 2^16 := Nat.pow_le_pow_right (by norm_num) d.bshift_le
  have hle := d.size_le
  omega

def UfsDirFile.bufDir (d : UfsDirFile) : BufDir where
  size := d.diSize
  -- the comparison is unsigned
  past seekp := (d.diSize : ℤ) ≤ seekp%2^64
  fill fp io := some (bufFill d.toUfsDisk fp io)
  off := blkoff d.toUfsDisk
  avail := bufAvail d.toUfsDisk
  size_le := d.small
  inside := by
    intro fp io r hlow hhigh hpast _
    have hsmall := d.small
    rw [decide_eq_false_iff_not] at hpast
    omega
  avail_pos := fun o ho => bufAvail_pos d.size_le ho
  fill_again := by
    intro fp io fp' io' h
    rw [Option.some.injEq] at h ⊢
    exact ⟨(bufFill_keeps d.toUfsDisk h).1,bufFill_again d.toUfsDisk h⟩

/-- A live record: its name is copied up to the 0. -/
def ufsReader (bsize : ℕ) : Reader where
  entry buf dp :=
    if dIno buf dp = 0 then some none
    else (strWithin buf (bsize-(dp+8)) (dp+8)).map fun name => some ⟨dType buf dp,name⟩
  reach buf dp avail := 8 ≤ avail ∧ (dIno buf dp ≠ 0 → (strWithin buf (avail-8) (dp+8)).isSome)

/-- `ufs_readdir`. -/
def ufsReaddir (d : UfsDirFile) (fuel : ℕ) (t : BufDir.At) : Option (Except ℤ Listed × BufDir.At) :=
  loop (d.bufDir.readdirTurn (ufsReader d.bsize)) fuel t

section Records
variable (fs : UfsVolume)

/-- The names are compared. -/
def UfsVolume.Compares (name : List UInt8) (buf : ℕ → UInt8) (dp : ℕ) : Prop :=
  dIno buf dp ≠ 0 ∧ dType buf dp ≠ dtWht ∧ (if fs.maxsymlinklen ≤ 0 then dType buf dp else dNamlen buf dp) = name.length

instance (name : List UInt8) (buf : ℕ → UInt8) (dp : ℕ) : Decidable (fs.Compares name buf dp) :=
  inferInstanceAs (Decidable (_ ∧ _))

/-- The records that `search_directory` walks in the buffer. Of each it looks at the first 8 bytes and, if the names are
compared, at the name. -/
def UfsVolume.records (name : List UInt8) (buf : ℕ → UInt8) (edp : ℕ) : Walk ℕ where
  hi := edp
  len := dReclen buf
  find dp := if fs.Compares name buf dp ∧ dNamed buf dp name then some (dIno buf dp) else none
  Inside dp := dp+8+(if fs.Compares name buf dp then strcmpLen buf (dp+8) name else 0) ≤ edp

variable {fs} {name : List UInt8}

/-- The loop over the records in the buffer is a walk. -/
theorem searchBlock_eq (buf : ℕ → UInt8) (edp fuel dp : ℕ) :
    searchBlock fs name buf edp fuel dp = loop (fs.records name buf edp).turn fuel dp := by
  induction fuel generalizing dp with
  | zero => rfl
  | succ fuel ih =>
    rw [searchBlock]
    by_cases hlt : dp < edp
    · rw [if_pos hlt]
      cases hfind : (fs.records name buf edp).find dp with
      | some ino =>
        rw [loop_end (Walk.turn_found hlt hfind)]
        obtain ⟨⟨⟨hino,htype,hlen⟩,hnamed⟩,hval⟩ := Option.ite_none_right_eq_some.mp hfind
        rw [if_neg hino,if_neg htype,if_pos ⟨hlen,hnamed⟩,hval]
      | none =>
        rw [loop_next (Walk.turn_next hlt hfind),← ih]
        have hno : ¬(fs.Compares name buf dp ∧ dNamed buf dp name = true) := by
          intro h
          rw [show (fs.records name buf edp).find dp = _ from if_pos h] at hfind
          cases hfind
        by_cases hino : dIno buf dp = 0
        · rw [if_pos hino]
          rfl
        by_cases htype : dType buf dp = dtWht
        · rw [if_neg hino,if_pos htype]
          rfl
        · rw [if_neg hino,if_neg htype,if_neg fun h => hno ⟨⟨hino,htype,h.1⟩,h.2⟩]
          rfl
    · rw [if_neg hlt,loop_end (Walk.turn_past (w := fs.records name buf edp) (Nat.not_lt.mp hlt))]

/-- `search_directory` is a scan of the blocks. -/
theorem searchLoop_eq {d : UfsDirFile} {h : UfsHandle} (hd : fs.opened h.di = d.toUfsDisk) (fuel : ℕ) (fp : UfsFile)
    (io : List Outcome) :
    searchLoop fs name fuel ⟨h.di,fp⟩ io = (loop (d.bufDir.search (fs.records name)).turn fuel (fp,io)).map
      fun r => (r.1,⟨h.di,r.2.1⟩,r.2.2) := by
  induction fuel generalizing fp io with
  | zero => rfl
  | succ fuel ih =>
    rw [searchLoop]
    dsimp only
    have hsize : d.diSize = diSize h.di := (congrArg UfsDisk.diSize hd).symm
    have hpast : d.bufDir.past fp.seekp = true ↔ (diSize h.di : ℤ) ≤ fp.seekp%2^64 := by
      rw [← hsize]
      exact decide_eq_true_iff
    rw [hd]
    by_cases hend : (diSize h.di : ℤ) ≤ fp.seekp%2^64
    · rw [if_pos hend,Blocks.loop_done (BufDir.load_end (d.bufDir.block (fs.records name)) (hpast.mpr hend))]
      rfl
    rw [if_neg hend]
    obtain ⟨⟨rc,fp',io'⟩,hfill⟩ : ∃ r, bufFill d.toUfsDisk fp io = r := ⟨_,rfl⟩
    rw [hfill]
    have hfill' : d.bufDir.fill fp io = some (rc,fp',io') := congrArg some hfill
    dsimp only
    by_cases hrc : rc = 0
    · subst hrc
      rw [if_neg (not_not.mpr rfl),Blocks.loop_block (BufDir.search_load d.bufDir (fs.records name) (fun h => hend (hpast.mp h)) hfill')]
      have hlen : (fs.records name fp'.buf (d.bufDir.off fp.seekp+d.bufDir.avail fp.seekp)).hi-d.bufDir.off fp.seekp+1 =
          bufAvail d.toUfsDisk fp.seekp+1 := congrArg (·+1) (Nat.add_sub_cancel_left _ _)
      rw [hlen,searchBlock_eq]
      have hblk : loop (fs.records name fp'.buf (d.bufDir.off fp.seekp+d.bufDir.avail fp.seekp)).turn
          (bufAvail d.toUfsDisk fp.seekp+1) (d.bufDir.off fp.seekp) =
          loop (fs.records name fp'.buf (blkoff d.toUfsDisk fp.seekp+bufAvail d.toUfsDisk fp.seekp)).turn
            (bufAvail d.toUfsDisk fp.seekp+1) (blkoff d.toUfsDisk fp.seekp) := rfl
      rw [hblk]
      split <;> rename_i hwalk <;> rw [hwalk]
      · rfl
      · dsimp only [BufDir.search]
        rw [hfill']
        rfl
      · exact ih _ _
    · rw [if_pos hrc,Blocks.loop_done (BufDir.load_error (d.bufDir.block (fs.records name)) (fun h => hend (hpast.mp h)) hfill' hrc)]
      rfl

end Records
end Blub.Stand
