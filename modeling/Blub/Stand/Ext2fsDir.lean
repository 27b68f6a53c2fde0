import Blub.Stand.BufDir
import Blub.Stand.Ext2fs

/-! Reading a directory of an ext2 file system, from `ext2fs.c`: `block_map`, `buf_read_file`, `search_directory` and
`ext2fs_readdir`. -/
namespace Blub.Stand
open Blub.Bytes Blub.Scan

/-- A directory on its device, of a file system with blocks of 1 KB to 64 KB. -/
structure ExtDir where
  dev : ℤ → UInt8
  core : ExtCore
  bshift : ℕ
  fshift : ℕ
  di : ℕ → UInt8
  bsize_eq : core.bsize = 2^bshift
  bshift_mem : 10 ≤ bshift ∧ bshift ≤ 16
  fshift_le : fshift ≤ bshift

namespace ExtDir
variable (d : ExtDir)

def diSize : ℕ := leGet d.di 4 4

/-- The pointers of an inode: `di_db` from byte 40 on, and `di_ib` from byte 88 on. -/
def diDb (k : ℕ) : ℤ := ptrAt d.di (10+k)
def diIb (k : ℕ) : ℤ := ptrAt d.di (22+k)

def fsize : ℕ := 2^d.fshift

/-- `f_nindir[level]`, as an `int`. -/
def nindir (level : ℕ) : ℤ := Int.bmod ((d.core.bsize/4)^(level+1) : ℕ) (2^32)

def blkoff (seekp : ℤ) : ℕ := (seekp%d.core.bsize).toNat

/-- `lblkno`, as a `daddr_t`. -/
def lblkno (seekp : ℤ) : ℤ := Int.bmod (seekp/d.core.bsize) (2^32)

def fragroundup (size : ℕ) : ℕ := (size+d.fsize-1)/d.fsize*d.fsize

def dblksize (fileBlock : ℤ) : ℕ :=
  if (ndaddr : ℤ) ≤ fileBlock ∨ (fileBlock+1)*d.core.bsize ≤ d.diSize then d.core.bsize
  else d.fragroundup (d.diSize%d.core.bsize)

/-- The first loop of `block_map`. -/
def findLevel : ℕ → ℕ → ℤ → Option (ℕ × ℤ)
  | 0, _, _ => none
  | k+1, level, n => if n < d.nindir level then some (level,n) else findLevel k (level+1) (n-d.nindir level)

/-- An indirect block is read unless the buffer of its level has it: 0 or the error number. No result without a place on
the disk, or without a buffer. -/
def loadIndirect (level : ℕ) (p : ℤ) (fp : UfsFile) (io : List Outcome) : Option (ℤ × UfsFile × List Outcome) :=
  if fp.blkno level ≠ p then
    (d.core.fsbToDb p).map fun db =>
      let r := strategy (sectors d.dev db) d.core.bsize (io.headD .done) (fp.blk level)
      let fp := {fp with blk := Function.update fp.blk level r.2.2}
      if r.1 ≠ 0 then (r.1,fp,io.tail)
      else if r.2.1 ≠ d.core.bsize then (eio,fp,io.tail)
      else (0,{fp with blkno := Function.update fp.blkno level p},io.tail)
  -- the tag of a level that has no buffer
  else if p = -1 then none
  else some (0,fp,io)

/-- The second loop of `block_map`, from `level-1` down. -/
def blockMapLoop : ℕ → ℤ → ℤ → UfsFile → List Outcome → Option (Except ℤ ℤ × UfsFile × List Outcome)
  | 0, p, _, fp, io => some (.ok p,fp,io)
  | level+1, p, n, fp, io =>
    if p = 0 then some (.ok 0,fp,io)
    else
      match d.loadIndirect level p fp io with
      | none => none
      | some (rc,fp,io) =>
        if rc ≠ 0 then some (.error rc,fp,io)
        else
          let idx := if 0 < level then n/d.nindir (level-1) else n
          let rest := if 0 < level then n%d.nindir (level-1) else n
          blockMapLoop level (ptrAt (fp.blk level) idx.toNat) rest fp io

def blockMap (fileBlock : ℤ) (fp : UfsFile) (io : List Outcome) : Option (Except ℤ ℤ × UfsFile × List Outcome) :=
  if fileBlock < ndaddr then some (.ok (d.diDb fileBlock.toNat),fp,io)
  else
    match d.findLevel niaddr 0 (fileBlock-ndaddr) with
    | none => some (.error efbig,fp,io)
    | some (level,n) => d.blockMapLoop (level+1) (d.diIb level) n fp io

/-- A data block is read into the buffer: 0 or the error number. The size read is not looked at. -/
def loadData (fileBlock b : ℤ) (fp : UfsFile) (io : List Outcome) : Option (ℤ × UfsFile × List Outcome) :=
  if b = 0 then some (0,{fp with buf := blit fp.buf 0 (d.dblksize fileBlock) fun _ => 0, bufBlkno := fileBlock},io)
  else
    (d.core.fsbToDb b).map fun db =>
      let r := strategy (sectors d.dev db) (d.dblksize fileBlock) (io.headD .done) fp.buf
      let fp := {fp with buf := r.2.2}
      if r.1 ≠ 0 then (r.1,fp,io.tail) else (0,{fp with bufBlkno := fileBlock},io.tail)

/-- The first part of `buf_read_file`: the block of the seek pointer is in the buffer, or an error. No result for a place
before the file. -/
def bufFill (fp : UfsFile) (io : List Outcome) : Option (ℤ × UfsFile × List Outcome) :=
  if fp.seekp < 0 then none
  else
    let fileBlock := d.lblkno fp.seekp
    if fileBlock ≠ fp.bufBlkno then
      match d.blockMap fileBlock fp io with
      | none => none
      | some (.error e,fp,io) => some (e,fp,io)
      | some (.ok b,fp,io) => d.loadData fileBlock b fp io
    else some (0,fp,io)

/-- The number of bytes `buf_read_file` offers. -/
def bufAvail (seekp : ℤ) : ℕ :=
  min (d.dblksize (d.lblkno seekp)-d.blkoff seekp) ((d.diSize : ℤ)-seekp).toNat

attribute [local grind =] findLevel blockMapLoop bufFill

end ExtDir

/-- The fields of `struct ext2dirent` that differ from those of `struct direct`. -/
def extNamlen (buf : ℕ → UInt8) (s : ℕ) : ℕ := (buf (s+6)).toNat
def extType (buf : ℕ → UInt8) (s : ℕ) : ℕ := (buf (s+7)).toNat

/-- `strncmp(name, d_name, length) == 0`, for a string of this length. -/
def extNamed (buf : ℕ → UInt8) (s : ℕ) (name : List UInt8) : Bool :=
  (List.range name.length).map (fun j => buf (s+8+j)) = name

/-- How many bytes of a name in a buffer `strncmp` looks at. -/
def strncmpLen (buf : ℕ → UInt8) : ℕ → List UInt8 → ℕ
  | _, [] => 0
  | s, c :: name => if buf s = c then strncmpLen buf (s+1) name+1 else 1

/-- How many bytes `strncpy` looks at, of at most `n`. -/
def strncpyLen (buf : ℕ → UInt8) : ℕ → ℕ → ℕ
  | 0, _ => 0
  | n+1, s => if buf s = 0 then 1 else strncpyLen buf n (s+1)+1

/-- `dtmap`, and `EXTFTODT`: 8 is not after the table for it. `past` is what is stored there. -/
def dtmap : List ℕ := [0,8,4,2,6,1,12,10]
def extftodt (past : ℕ) (x : ℕ) : ℕ := if 8 < x then 0 else dtmap.getD x past

attribute [local grind =] strncmpLen strncpyLen

namespace ExtDir

/-- The records that `search_directory` walks in the buffer. Of each it looks at the first 8 bytes and, if the names are
compared, at the name. -/
def records (name : List UInt8) (buf : ℕ → UInt8) (edp : ℕ) : Walk ℕ where
  hi := edp
  len := dReclen buf
  find dp := if dIno buf dp ≠ 0 ∧ extNamlen buf dp = name.length ∧ extNamed buf dp name then some (dIno buf dp) else none
  Inside dp := dp+8+(if dIno buf dp ≠ 0 ∧ extNamlen buf dp = name.length then strncmpLen buf (dp+8) name else 0) ≤ edp

/-- A live record: at most `d_namlen` bytes of its name are copied. -/
def reader (past : ℕ) : Reader where
  entry buf dp :=
    if dIno buf dp = 0 then some none
    else some (some ⟨extftodt past (extType buf dp),
      ((List.range (extNamlen buf dp)).map fun j => buf (dp+8+j)).takeWhile (· ≠ 0)⟩)
  reach buf dp avail := 8+(if dIno buf dp = 0 then 0 else strncpyLen buf (extNamlen buf dp) (dp+8)) ≤ avail

variable (d : ExtDir)

theorem diSize_lt : d.diSize < 2^32 := leGet_lt d.di 4 4

section Progress
variable {d} {level : ℕ} {p e b fileBlock n rc : ℤ} {fp fp' : UfsFile} {io io' : List Outcome} {res : Except ℤ ℤ}

theorem loadIndirect_seekp (h : d.loadIndirect level p fp io = some (rc,fp',io')) : fp'.seekp = fp.seekp := by
  unfold loadIndirect at h
  split_ifs at h
  · rw [Option.map_eq_some_iff] at h
    obtain ⟨db,-,heq⟩ := h
    dsimp only at heq
    split_ifs at heq <;> (cases heq; rfl)
  · cases h
    rfl

/-- The search for a block does not move the seek pointer, and its errors are not 0. -/
theorem blockMapLoop_seekp (h : d.blockMapLoop level p n fp io = some (res,fp',io')) :
    fp'.seekp = fp.seekp ∧ ∀ e, res = .error e → e ≠ 0 := by
  induction level generalizing p n fp io with
  | zero =>
    cases h
    exact ⟨rfl,fun e he => nomatch he⟩
  | succ level ih =>
    rw [blockMapLoop] at h
    by_cases hp : p = 0
    · rw [if_pos hp] at h
      cases h
      exact ⟨rfl,fun e he => nomatch he⟩
    rw [if_neg hp] at h
    rcases hload : d.loadIndirect level p fp io with _ | ⟨rc,fp₁,io₁⟩
    · rw [hload] at h
      cases h
    rw [hload] at h
    have hseek := loadIndirect_seekp hload
    dsimp only at h
    by_cases hrc : rc ≠ 0
    · rw [if_pos hrc] at h
      cases h
      refine ⟨hseek,fun e he => ?_⟩
      cases he
      exact hrc
    · rw [if_neg hrc] at h
      obtain ⟨hseek',herr⟩ := ih h
      exact ⟨hseek'.trans hseek,herr⟩

theorem blockMap_seekp (h : d.blockMap fileBlock fp io = some (res,fp',io')) :
    fp'.seekp = fp.seekp ∧ ∀ e, res = .error e → e ≠ 0 := by
  unfold blockMap at h
  split_ifs at h
  · cases h
    exact ⟨rfl,fun e he => nomatch he⟩
  · split at h
    · cases h
      refine ⟨rfl,fun e he => ?_⟩
      cases he
      exact (by decide : efbig ≠ 0)
    · exact blockMapLoop_seekp h

theorem loadData_seekp (h : d.loadData fileBlock b fp io = some (rc,fp',io')) :
    fp'.seekp = fp.seekp ∧ (rc = 0 → fp'.bufBlkno = fileBlock) := by
  unfold loadData at h
  split_ifs at h
  · cases h
    exact ⟨rfl,fun _ => rfl⟩
  · rw [Option.map_eq_some_iff] at h
    obtain ⟨db,-,heq⟩ := h
    dsimp only at heq
    split_ifs at heq with hrc <;> cases heq
    · exact ⟨rfl,fun h₀ => absurd h₀ hrc⟩
    · exact ⟨rfl,fun _ => rfl⟩

theorem bufFill_keeps (h : d.bufFill fp io = some (rc,fp',io')) :
    0 ≤ fp.seekp ∧ fp'.seekp = fp.seekp ∧ (rc = 0 → fp'.bufBlkno = d.lblkno fp.seekp) := by
  unfold bufFill at h
  by_cases hneg : fp.seekp < 0
  · rw [if_pos hneg] at h
    cases h
  rw [if_neg hneg] at h
  refine ⟨not_lt.mp hneg,?_⟩
  dsimp only at h
  by_cases hblk : d.lblkno fp.seekp ≠ fp.bufBlkno
  · rw [if_pos hblk] at h
    rcases hmap : d.blockMap (d.lblkno fp.seekp) fp io with _ | ⟨e | b,fp₁,io₁⟩
    · rw [hmap] at h
      cases h
    · rw [hmap] at h
      obtain ⟨hseek,herr⟩ := blockMap_seekp hmap
      cases h
      exact ⟨hseek,fun hrc => absurd hrc (herr _ rfl)⟩
    · rw [hmap] at h
      obtain ⟨hseek,htag⟩ := loadData_seekp h
      exact ⟨hseek.trans (blockMap_seekp hmap).1,htag⟩
  · rw [if_neg hblk] at h
    cases h
    exact ⟨rfl,fun _ => (not_not.mp hblk).symm⟩

/-- A second fill changes nothing. -/
theorem bufFill_again (h : d.bufFill fp io = some (0,fp',io')) : d.bufFill fp' io' = some (0,fp',io') := by
  obtain ⟨hpos,hseek,htag⟩ := bufFill_keeps h
  unfold bufFill
  dsimp only
  rw [hseek,htag rfl,if_neg (not_lt.mpr hpos),if_neg (not_not.mpr rfl)]

/-- The sizes are those of a file in `ufs.c`. -/
def sizes (d : ExtDir) : UfsDisk := ⟨fun _ _ => 0,d.bshift,d.fshift,0,d.diSize,fun _ => 0,fun _ => 0⟩

theorem dblksize_sizes (n : ℤ) : d.dblksize n = Stand.dblksize d.sizes n := by
  unfold dblksize
  rw [d.bsize_eq]
  rfl

theorem bufAvail_pos {o : ℕ} (ho : o < d.diSize) : 0 < d.bufAvail o ∧ o+d.bufAvail o ≤ d.diSize := by
  have hsize := d.diSize_lt
  have hb : 2^10 ≤ 2^d.bshift := Nat.pow_le_pow_right (by norm_num) d.bshift_mem.1
  have hlt : o/d.sizes.bsize < 2^31 := (Nat.div_le_div_left hb (by norm_num)).trans_lt (by omega)
  have havail : d.bufAvail o = Stand.bufAvail d.sizes o := by
    unfold bufAvail lblkno blkoff
    rw [dblksize_sizes,d.bsize_eq]
    rfl
  have hoff := blkoff_lt (d := d.sizes) (o := o) ho
  rw [havail,Stand.bufAvail_eq hlt ho]
  have hsz : d.sizes.diSize = d.diSize := rfl
  omega

end Progress

def bufDir : BufDir where
  size := d.diSize
  past seekp := (d.diSize : ℤ) ≤ seekp
  fill := d.bufFill
  off := d.blkoff
  avail := d.bufAvail
  size_le := by
    have := d.diSize_lt
    omega
  inside := by
    intro fp io r _ _ hpast hfill
    rw [decide_eq_false_iff_not] at hpast
    obtain ⟨rc,fp',io'⟩ := r
    exact ⟨(bufFill_keeps hfill).1,by omega⟩
  avail_pos := fun o ho => bufAvail_pos ho
  fill_again := fun h => ⟨(bufFill_keeps h).2.1,bufFill_again h⟩

/-- `search_directory`, and `ext2fs_readdir`. -/
def searchDirectory (name : List UInt8) (fuel : ℕ) (t : BufDir.At) : Option (Except ℤ ℕ × BufDir.At) :=
  loop (d.bufDir.search (records name)).turn fuel ({t.1 with seekp := 0},t.2)

def readdir (past fuel : ℕ) (t : BufDir.At) : Option (Except ℤ Listed × BufDir.At) :=
  loop (d.bufDir.readdirTurn (reader past)) fuel t

end ExtDir
end Blub.Stand
