import Blub.Boot.FsfindScan
import Blub.Stand.Ext2fsDir
import Blub.Stand.UfsResolve
import Blub.Stand.UfsScan

/-! The five scans of a directory, over any bytes: `search_directory` and `readdir` of `ufs.c` and of `ext2fs.c`, and
`fsfind` of boot2. -/
namespace Blub.Stand
open Blub.Bytes Blub.Scan
open Blub.Boot (diSize fsfind Lookup Ufs1Super)

/-- An open directory of a UFS file system: of at most `2^31` blocks, which are no larger than `ufs_open` admits. -/
structure UfsOpenDir where
  fs : UfsVolume
  handle : UfsHandle
  bshift_le : fs.bshift ≤ 16
  size_le : diSize handle.di ≤ 2^31*2^fs.bshift

namespace UfsOpenDir
variable (o : UfsOpenDir)

def dir : UfsDirFile := ⟨o.fs.opened o.handle.di,o.bshift_le,o.size_le⟩

def search (name : List UInt8) : Blocks BufDir.At (Except ℤ ℕ × BufDir.At) ℕ := o.dir.bufDir.search (o.fs.records name)

def readdir : Blocks BufDir.At (Except ℤ Listed × BufDir.At) Listed := o.dir.bufDir.readdir (ufsReader o.dir.bsize)

theorem searchDirectory_eq (name : List UInt8) (fuel : ℕ) (io : List Outcome) :
    searchDirectory o.fs name fuel o.handle io =
      (loop (o.search name).turn fuel ({o.handle.fp with seekp := 0},io)).map fun r => (r.1,⟨o.handle.di,r.2.1⟩,r.2.2) :=
  searchLoop_eq (d := o.dir) rfl fuel _ io

end UfsOpenDir

/-- A scan ends, and looks only at records inside the blocks that it reads, exactly when every read of the directory has a
result and the blocks, up to the one with the name, are records inside them and of a positive length. -/
theorem directory_scans_end_iff (name : List UInt8) (io : List Outcome) (t : BufDir.At) (past ino : ℕ) (ls : Bool) :
    (∀ o : UfsOpenDir,
      (∃ fuel, searchDirectory o.fs name fuel o.handle io ≠ none) ∧
          (o.search name).StaysInside ({o.handle.fp with seekp := 0},io) ↔
        (o.search name).Sound ({o.handle.fp with seekp := 0},io)) ∧
    (∀ o : UfsOpenDir, BufDir.AtOffset t →
      ((∃ fuel, ufsReaddir o.dir fuel t ≠ none) ∧ o.readdir.StaysInside t ↔ o.readdir.Sound t)) ∧
    (∀ d : ExtDir,
      (∃ fuel, d.searchDirectory name fuel t ≠ none) ∧
          (d.bufDir.search (ExtDir.records name)).StaysInside ({t.1 with seekp := 0},t.2) ↔
        (d.bufDir.search (ExtDir.records name)).Sound ({t.1 with seekp := 0},t.2)) ∧
    (∀ d : ExtDir, BufDir.AtOffset t →
      ((∃ fuel, d.readdir past fuel t ≠ none) ∧ (d.bufDir.readdir (ExtDir.reader past)).StaysInside t ↔
        (d.bufDir.readdir (ExtDir.reader past)).Sound t)) ∧
    ∀ (fs : Ufs1Super) (s : Lookup),
      (∃ fuel, fsfind fs ls name ino fuel s ≠ none) ∧
          (fs.scan ls name ino).StaysInside ⟨{s.ufs with fsOff := 0},s.buf⟩ ↔
        (fs.scan ls name ino).Sound ⟨{s.ufs with fsOff := 0},s.buf⟩ := by
  refine ⟨fun o => ?_,fun o ht => ?_,fun d => ?_,fun d ht => ?_,fun fs s => ?_⟩
  · simp only [o.searchDirectory_eq,ne_eq,Option.map_eq_none_iff]
    exact BufDir.search_sound_iff _ _ _ ⟨by norm_num,by norm_num⟩
  · exact BufDir.readdir_sound_iff _ t ht
  · exact BufDir.search_sound_iff _ _ _ ⟨by norm_num,by norm_num⟩
  · exact BufDir.readdir_sound_iff _ t ht
  · exact Boot.fsfind_sound_iff

section Written
variable {buf : ℕ → UInt8} {hi s : ℕ} {l : List Dirent} {name : List UInt8}

/-- The records of a directory as it is written are a chain, for `search_directory` of `ufs.c` and for `fsfind`. -/
theorem UfsVolume.RecordsAt.chain {fs : UfsVolume} (h : fs.RecordsAt buf hi s l) (hname : 0 ∉ name) :
    (fs.records name buf hi).Chain s := by
  induction h with
  | nil => exact .past le_rfl
  | @cons s next e l he hl ih =>
    have hle := hl.le
    have hroom := he.room
    have hnext := he.reclen
    have hcmp := strcmpLen_le (dNamed_end he.name) hname
    rw [hnext] at ih
    refine .next ?_ ?_ ?_ ih
    · dsimp only [UfsVolume.records]
      omega
    · dsimp only [UfsVolume.records]
      split_ifs <;> omega
    · dsimp only [UfsVolume.records]
      omega

theorem Records.chain (h : Records buf Boot.devBsize s l) (hname : 0 ∉ name) :
    (Boot.bufRecords false name buf Boot.devBsize).Chain s := by
  induction h with
  | nil => exact .past le_rfl
  | @cons s next e l he hl ih =>
    have hle := hl.le
    have hroom := he.room
    have hnext := he.reclen
    have hcmp := strcmpLen_le (dNamed_end he.name) hname
    rw [hnext] at ih
    refine .next (show s < Boot.devBsize by omega) ⟨by omega,?_⟩ (show 0 < dReclen buf s by omega) ih
    rw [if_neg Bool.false_ne_true]
    omega

end Written

section Runs

/-- The directory of a volume. -/
def oldRoot : UfsOpenDir where
  fs := oldVolume
  handle := ⟨oldVolume.dinode 2,⟨0,fun _ _ => 0,fun _ => -1,fun _ => 0,-1⟩⟩
  bshift_le := by decide
  size_le := by decide +kernel

/-- The first call gives the first record. -/
theorem directory_scans_end_first :
    BufDir.AtOffset (oldRoot.handle.fp,[]) ∧
      (∃ fuel, ufsReaddir oldRoot.dir fuel (oldRoot.handle.fp,[]) ≠ none) ∧
        oldRoot.readdir.StaysInside (oldRoot.handle.fp,[]) := by
  have hoff : BufDir.AtOffset (oldRoot.handle.fp,[]) := ⟨by decide,by decide⟩
  refine ⟨hoff,((directory_scans_end_iff [] [] (oldRoot.handle.fp,[]) 0 0 false).2.1 oldRoot hoff).mpr ?_⟩
  exact BufDir.readdir_sound_live (d := ⟨1,[108]⟩) (by decide +kernel)
    (congrArg some (Prod.ext (by decide +kernel) rfl)) (by decide +kernel) (by decide +kernel)

/-- A directory of 64 bytes without a block on the disk: all its bytes are 0. -/
def hollowDir : UfsOpenDir where
  fs := oldVolume
  handle := ⟨fun j => if j = 8 then 64 else 0,⟨0,fun _ _ => 0,fun _ => -1,fun _ => 0,-1⟩⟩
  bshift_le := by decide
  size_le := by decide +kernel

/-- The first record has length 0, and the search of it does not end. -/
theorem search_never_ends : ¬∃ fuel, searchDirectory hollowDir.fs [97] fuel hollowDir.handle [] ≠ none := by
  rintro ⟨fuel,h⟩
  apply h
  rw [hollowDir.searchDirectory_eq,Option.map_eq_none_iff]
  obtain ⟨fp,hfp⟩ : ∃ fp, fp = (bufFill hollowDir.dir.toUfsDisk hollowDir.handle.fp []).2.1 := ⟨_,rfl⟩
  have hrc : (bufFill hollowDir.dir.toUfsDisk hollowDir.handle.fp []).1 = 0 := by decide +kernel
  have hio : (bufFill hollowDir.dir.toUfsDisk hollowDir.handle.fp []).2.2 = [] := by decide +kernel
  have hfill : hollowDir.dir.bufDir.fill hollowDir.handle.fp [] = some (0,fp,[]) :=
    congrArg some (Prod.ext hrc (Prod.ext hfp.symm hio))
  have hmore : hollowDir.dir.bufDir.past hollowDir.handle.fp.seekp ≠ true := by decide +kernel
  have hload := BufDir.search_load hollowDir.dir.bufDir (hollowDir.fs.records [97]) hmore hfill
  have hturn : (hollowDir.fs.records [97] fp.buf (0+64)).turn 0 = some (.inr 0) := by
    rw [hfp]
    decide +kernel
  have hoff : hollowDir.dir.bufDir.off hollowDir.handle.fp.seekp = 0 := by decide
  have havail : hollowDir.dir.bufDir.avail hollowDir.handle.fp.seekp = 64 := by decide +kernel
  rw [hoff,havail] at hload
  cases fuel with
  | zero => rfl
  | succ fuel =>
    refine (Blocks.loop_block hload fuel).trans ?_
    rw [loop_stuck hturn]

end Runs

end Blub.Stand
