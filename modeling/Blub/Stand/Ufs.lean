import Blub.Lib.Trace
import Blub.Stand.Device
import Blub.Stand.ReadAhead
import Blub.Stand.Tftp

/-! Reading an open file of a UFS file system, from `ufs.c`. The super block, the inode and the device
do not change while the file is open. -/
namespace Blub.Stand
open Blub.Trace Blub.Bytes

def ndaddr : ℕ := 12
def niaddr : ℕ := 3
def efbig : ℤ := 27

/-- Block pointers are of type `daddr_t`. -/
def ptrAt (blk : ℕ → UInt8) (idx : ℕ) : ℤ := Int.bmod (leGet blk (4*idx) 4) (2^32)

/-- The open file on its device. `dev a` has the bytes of the device from sector `a` on. -/
structure UfsDisk where
  dev : ℤ → ℕ → UInt8
  bshift : ℕ
  fshift : ℕ
  fsbtodb : ℕ
  diSize : ℕ
  diDb : ℕ → ℤ
  diIb : ℕ → ℤ

namespace UfsDisk
variable (d : UfsDisk)

def bsize : ℕ := 2^d.bshift
def fsize : ℕ := 2^d.fshift

/-- `NINDIR(fs)`, the number of pointers in a block. -/
def nptr : ℕ := d.bsize/4

/-- The block of the device a pointer names: `fsbtodb`, where the shifted number fits a `daddr_t`. -/
def diskBlock (b : ℤ) : ℕ → UInt8 := d.dev (b*2^d.fsbtodb)

/-- The data block a path of pointers leads to, through `level` indirect blocks. -/
def indirect : ℕ → ℤ → ℕ → ℤ
  | 0, p, _ => p
  | level+1, p, n =>
    if p = 0 then 0
    else indirect level (ptrAt (d.diskBlock p) (n/d.nptr^level)) (n%d.nptr^level)

/-- The level of indirection of a block after the direct ones, and its number there. -/
def levelOf : ℕ → ℕ → ℕ → Option (ℕ × ℕ)
  | 0, _, _ => none
  | k+1, level, n => if n < d.nptr^(level+1) then some (level,n) else levelOf k (level+1) (n-d.nptr^(level+1))

/-- The disk block of a block of the file, 0 for a hole. -/
def blockAddr (n : ℕ) : Option ℤ :=
  if n < ndaddr then some (d.diDb n)
  else (d.levelOf niaddr 0 (n-ndaddr)).map fun p => d.indirect (p.1+1) (d.diIb p.1) p.2

/-- The bytes of a block of the file. -/
def blockByte (n j : ℕ) : UInt8 :=
  match d.blockAddr n with
  | some b => if b = 0 then 0 else d.diskBlock b j
  | none => 0

/-- The byte of the file at an offset. -/
def byte (o : ℕ) : UInt8 := d.blockByte (o/d.bsize) (o%d.bsize)

/-- The bytes from an offset on, up to the end of the file. -/
def bytes (off : ℤ) (size : ℕ) : List UInt8 :=
  if off < 0 then [] else (List.range (min size (d.diSize-off.toNat))).map fun j => d.byte (off.toNat+j)

/-- No pointer on the way to a block is -1. -/
def PathOk : ℕ → ℤ → ℕ → Prop
  | 0, _, _ => True
  | level+1, p, n =>
    p = 0 ∨ p ≠ -1 ∧ PathOk level (ptrAt (d.diskBlock p) (n/d.nptr^level)) (n%d.nptr^level)

attribute [local grind =] indirect levelOf PathOk

end UfsDisk

/-- A file as the file system keeps it: the sizes `ufs_open` admits, block numbers that are of type `daddr_t` in
sectors as well, and no negative pointer where an indirect block is named. -/
structure Ufs extends UfsDisk where
  bshift_mem : 11 ≤ bshift ∧ bshift ≤ 16
  fshift_le : fshift ≤ bshift
  size_le : diSize ≤ 2^31*2^bshift
  path : ∀ n p, toUfsDisk.levelOf niaddr 0 n = some p → toUfsDisk.PathOk (p.1+1) (diIb p.1) p.2

/-- A file that the program can read: `Ufs` without a bound of its size. Its blocks, too, have sector numbers that fit. -/
structure UfsShape (d : UfsDisk) : Prop where
  bshift_mem : 11 ≤ d.bshift ∧ d.bshift ≤ 16
  fshift_le : d.fshift ≤ d.bshift
  path : ∀ n p, d.levelOf niaddr 0 n = some p → d.PathOk (p.1+1) (d.diIb p.1) p.2

theorem Ufs.shape (u : Ufs) : UfsShape u.toUfsDisk := ⟨u.bshift_mem,u.fshift_le,u.path⟩

/-- What changes of `struct file`. The tag of an empty buffer is -1. -/
structure UfsFile where
  seekp : ℤ
  blk : ℕ → ℕ → UInt8
  blkno : ℕ → ℤ
  buf : ℕ → UInt8
  bufBlkno : ℤ

section Code
variable (d : UfsDisk)

/-- The loop of `ufs_open` over the levels, in `int` arithmetic. -/
def nindirLoop (nptr : ℕ) : ℕ → ℤ → ℤ → ℤ
  | 0, mult, _ => mult
  | k+1, mult, omult =>
    let next := Int.bmod (mult*nptr) (2^32)
    let mult := if next < omult then 0x7FFFFFFF else next
    nindirLoop nptr k mult mult

/-- `f_nindir[level]`. -/
def nindir (level : ℕ) : ℕ := (nindirLoop d.nptr (level+1) 1 0).toNat

def blkoff (seekp : ℤ) : ℕ := (seekp%d.bsize).toNat

/-- `lblkno`, as a `daddr_t`. -/
def lblkno (seekp : ℤ) : ℤ := Int.bmod (seekp/d.bsize) (2^32)

def fragroundup (size : ℕ) : ℕ := (size+d.fsize-1)/d.fsize*d.fsize

def dblksize (fileBlock : ℤ) : ℕ :=
  if (ndaddr : ℤ) ≤ fileBlock ∨ (fileBlock+1)*d.bsize ≤ d.diSize then d.bsize else fragroundup d (d.diSize%d.bsize)

/-- The first loop of `block_map`. -/
def findLevel : ℕ → ℕ → ℕ → Option (ℕ × ℕ)
  | 0, _, _ => none
  | k+1, level, n => if n < nindir d level then some (level,n) else findLevel k (level+1) (n-nindir d level)

/-- An indirect block is read unless the buffer of its level has it: 0 or the error number. -/
def loadIndirect (level : ℕ) (p : ℤ) (fp : UfsFile) (io : List Outcome) : ℤ × UfsFile × List Outcome :=
  if fp.blkno level ≠ p then
    let r := strategy (d.diskBlock p) d.bsize (io.headD .done) (fp.blk level)
    let fp := {fp with blk := Function.update fp.blk level r.2.2}
    if r.1 ≠ 0 then (r.1,fp,io.tail)
    else if r.2.1 ≠ d.bsize then (eio,fp,io.tail)
    else (0,{fp with blkno := Function.update fp.blkno level p},io.tail)
  else (0,fp,io)

/-- The second loop of `block_map`, from `level-1` down. -/
def blockMapLoop : ℕ → ℤ → ℕ → UfsFile → List Outcome → Except ℤ ℤ × UfsFile × List Outcome
  | 0, p, _, fp, io => (.ok p,fp,io)
  | level+1, p, n, fp, io =>
    if p = 0 then (.ok 0,fp,io)
    else
      let r := loadIndirect d level p fp io
      if r.1 ≠ 0 then (.error r.1,r.2.1,r.2.2)
      else
        let idx := if 0 < level then n/nindir d (level-1) else n
        let rest := if 0 < level then n%nindir d (level-1) else n
        blockMapLoop level (ptrAt (r.2.1.blk level) idx) rest r.2.1 r.2.2

def blockMap (fileBlock : ℤ) (fp : UfsFile) (io : List Outcome) : Except ℤ ℤ × UfsFile × List Outcome :=
  if fileBlock < ndaddr then (.ok (d.diDb fileBlock.toNat),fp,io)
  else
    match findLevel d niaddr 0 (fileBlock.toNat-ndaddr) with
    | none => (.error efbig,fp,io)
    | some (level,n) => blockMapLoop d (level+1) (d.diIb level) n fp io

/-- A data block is read into the buffer: 0 or the error number. The size read is not looked at. -/
def loadData (fileBlock b : ℤ) (fp : UfsFile) (io : List Outcome) : ℤ × UfsFile × List Outcome :=
  if b = 0 then
    (0,{fp with buf := blit fp.buf 0 (dblksize d fileBlock) fun _ => 0, bufBlkno := fileBlock},io)
  else
    let r := strategy (d.diskBlock b) (dblksize d fileBlock) (io.headD .done) fp.buf
    let fp := {fp with buf := r.2.2}
    if r.1 ≠ 0 then (r.1,fp,io.tail) else (0,{fp with bufBlkno := fileBlock},io.tail)

/-- The first part of `buf_read_file`: the block of the seek pointer is in the buffer, or an error. -/
def bufFill (fp : UfsFile) (io : List Outcome) : ℤ × UfsFile × List Outcome :=
  let fileBlock := lblkno d fp.seekp
  if fileBlock ≠ fp.bufBlkno then
    match blockMap d fileBlock fp io with
    | (.error e,fp,io) => (e,fp,io)
    | (.ok b,fp,io) => loadData d fileBlock b fp io
  else (0,fp,io)

/-- The number of bytes `buf_read_file` offers. -/
def bufAvail (seekp : ℤ) : ℕ :=
  min (dblksize d (lblkno d seekp)-blkoff d seekp) ((d.diSize : ℤ)-seekp).toNat

/-- The loop of `ufs_read`: the error number, what remains of the size, and what was stored. -/
def ufsReadLoop : ℕ → ℕ → List UInt8 → UfsFile → List Outcome →
    Option (ℤ × ℕ × List UInt8 × UfsFile × List Outcome)
  | 0, _, _, _, _ => none
  | fuel+1, size, acc, fp, io =>
    if size = 0 then some (0,size,acc,fp,io)
    -- the comparison is unsigned
    else if (d.diSize : ℤ) ≤ fp.seekp%2^64 then some (0,size,acc,fp,io)
    else
      let r := bufFill d fp io
      if r.1 ≠ 0 then some (r.1,size,acc,r.2.1,r.2.2)
      else
        let csize := min size (bufAvail d fp.seekp)
        let data := (List.range csize).map fun j => r.2.1.buf (blkoff d fp.seekp+j)
        ufsReadLoop fuel (size-csize) (acc ++ data) {r.2.1 with seekp := fp.seekp+csize} r.2.2

/-- `ufs_read`. -/
def ufsRead (size : ℕ) (fp : UfsFile) (io : List Outcome) : Option (ℤ × ℕ × List UInt8 × UfsFile × List Outcome) :=
  ufsReadLoop d (size+1) size [] fp io

/-- `ufs_seek`: the offset, in `off_t` arithmetic. -/
def ufsSeek (fp : UfsFile) (offset : ℤ) : Whence → ℤ
  | .set => Int.bmod offset (2^64)
  | .cur => Int.bmod (fp.seekp+offset) (2^64)
  | .end => Int.bmod (d.diSize-offset) (2^64)

inductive UfsCall
  | read (size : ℕ)
  | seek (offset : ℤ) (whence : Whence)

/-- The open file, and what becomes of the reads of the device. -/
structure UfsState where
  file : UfsFile
  io : List Outcome

def ufsReturn (s : UfsState) :
    Option (ℤ × ℕ × List UInt8 × UfsFile × List Outcome) → Option (ℤ × List UInt8) × UfsState
  | none => (none,s)
  | some (rc,_,data,fp,io) => (some (rc,data),⟨fp,io⟩)

/-- One call: for a read, the error number and what was stored. -/
def ufsStep (s : UfsState) : UfsCall → Option (ℤ × List UInt8) × UfsState
  | .read size => ufsReturn s (ufsRead d size s.file s.io)
  | .seek offset whence => (none,{s with file := {s.file with seekp := ufsSeek d s.file offset whence}})

/-- A read of an indirect block that is not complete leaves a buffer with a tag alone. -/
def IndirectSpared (level : ℕ) (p : ℤ) (fp : UfsFile) (io : List Outcome) : Prop :=
  fp.blkno level = p ∨ io.headD .done = .done ∨ fp.blkno level = -1 ∨
    (strategy (d.diskBlock p) d.bsize (io.headD .done) (fp.blk level)).2.2 = fp.blk level

def BlockMapMeets : ℕ → ℤ → ℕ → UfsFile → List Outcome → Prop
  | 0, _, _, _, _ => True
  | level+1, p, n, fp, io =>
    p = 0 ∨ IndirectSpared d level p fp io ∧
      ((loadIndirect d level p fp io).1 = 0 →
        let r := loadIndirect d level p fp io
        let idx := if 0 < level then n/nindir d (level-1) else n
        let rest := if 0 < level then n%nindir d (level-1) else n
        BlockMapMeets level (ptrAt (r.2.1.blk level) idx) rest r.2.1 r.2.2)

/-- A read of a data block that fails leaves a buffer with a tag alone, and one that does not fail
is complete. -/
def DataSpared (fileBlock b : ℤ) (fp : UfsFile) (io : List Outcome) : Prop :=
  b = 0 ∨ io.headD .done = .done ∨
    (strategy (d.diskBlock b) (dblksize d fileBlock) (io.headD .done) fp.buf).1 ≠ 0 ∧ (fp.bufBlkno = -1 ∨
      (strategy (d.diskBlock b) (dblksize d fileBlock) (io.headD .done) fp.buf).2.2 = fp.buf)

def BufMeets (fp : UfsFile) (io : List Outcome) : Prop :=
  lblkno d fp.seekp = fp.bufBlkno ∨
    ((ndaddr : ℤ) ≤ lblkno d fp.seekp → ∀ p, findLevel d niaddr 0 ((lblkno d fp.seekp).toNat-ndaddr) = some p →
      BlockMapMeets d (p.1+1) (d.diIb p.1) p.2 fp io) ∧
    ∀ b, (blockMap d (lblkno d fp.seekp) fp io).1 = .ok b →
      DataSpared d (lblkno d fp.seekp) b (blockMap d (lblkno d fp.seekp) fp io).2.1
        (blockMap d (lblkno d fp.seekp) fp io).2.2

def ReadMeets : ℕ → ℕ → UfsFile → List Outcome → Prop
  | 0, _, _, _ => True
  | fuel+1, size, fp, io =>
    size ≠ 0 → ¬(d.diSize : ℤ) ≤ fp.seekp%2^64 → BufMeets d fp io ∧
      ((bufFill d fp io).1 = 0 →
        let r := bufFill d fp io
        let csize := min size (bufAvail d fp.seekp)
        ReadMeets fuel (size-csize) {r.2.1 with seekp := fp.seekp+csize} r.2.2)

/-- Along a call, every device read that fails leaves a buffer with a tag alone, and no data block is
read in part without an error. -/
def UfsOk (s : UfsState) : UfsCall → Prop
  | .read size => ReadMeets d (size+1) size s.file s.io
  | .seek _ _ => True

/-- A read returns, and if it returns 0 it has stored the bytes of the file at the seek pointer. -/
def UfsReads (s : UfsState) : UfsCall → Prop
  | .read size =>
    ∃ rc resid data fp io, ufsRead d size s.file s.io = some (rc,resid,data,fp,io) ∧
      (rc = 0 → data = d.bytes s.file.seekp size ∧ fp.seekp = s.file.seekp+data.length ∧ resid = size-data.length)
  | .seek _ _ => True

attribute [local grind =] nindirLoop findLevel blockMapLoop ufsReadLoop ufsSeek BlockMapMeets ReadMeets

end Code

section Sizes

theorem nindirLoop_values {b : ℕ} (h : 11 ≤ b ∧ b ≤ 16) :
    (nindirLoop (2^b/4) 1 1 0).toNat = 2^b/4 ∧ (nindirLoop (2^b/4) 2 1 0).toNat = (2^b/4)^2 ∧
      ((nindirLoop (2^b/4) 3 1 0).toNat = (2^b/4)^3 ∨
        (nindirLoop (2^b/4) 3 1 0).toNat = 2^31-1 ∧ 2^31 ≤ (2^b/4)^3) := by
  obtain ⟨h₁,h₂⟩ := h
  interval_cases b <;> decide

variable {d : UfsDisk}

theorem nindir_zero (hd : UfsShape d) : nindir d 0 = d.nptr^1 := by
  rw [pow_one]
  exact (nindirLoop_values hd.bshift_mem).1

theorem nindir_one (hd : UfsShape d) : nindir d 1 = d.nptr^2 := (nindirLoop_values hd.bshift_mem).2.1

theorem nindir_two (hd : UfsShape d) : nindir d 2 = d.nptr^3 ∨ nindir d 2 = 2^31-1 ∧ 2^31 ≤ d.nptr^3 :=
  (nindirLoop_values hd.bshift_mem).2.2

/-- The levels of the program are those of the file system. -/
theorem findLevel_eq (hd : UfsShape d) {n : ℕ} (hn : n < 2^31-1) :
    findLevel d niaddr 0 n = d.levelOf niaddr 0 n := by
  have h₀ := nindir_zero hd
  have h₁ := nindir_one hd
  have h₂ := nindir_two hd
  simp only [niaddr,findLevel,UfsDisk.levelOf,Nat.zero_add,Nat.reduceAdd]
  rw [h₀,h₁]
  split_ifs <;> first | rfl | omega

theorem levelOf_lt {k level n : ℕ} {p : ℕ × ℕ} (h : d.levelOf k level n = some p) :
    p.1 < level+k ∧ p.2 < d.nptr^(p.1+1) := by
  induction k generalizing level n with
  | zero => cases h
  | succ k ih =>
    rw [UfsDisk.levelOf] at h
    split_ifs at h with hn
    · cases h
      exact ⟨by dsimp only; omega,hn⟩
    · obtain ⟨h₁,h₂⟩ := ih h
      exact ⟨by omega,h₂⟩

theorem nindir_pred (hd : UfsShape d) {level : ℕ} (h₀ : 0 < level) (h : level < niaddr) :
    nindir d (level-1) = d.nptr^level := by
  rw [niaddr] at h
  obtain rfl | rfl : level = 1 ∨ level = 2 := by omega
  · exact nindir_zero hd
  · exact nindir_one hd

end Sizes

section Buffers

/-- Every buffer with a tag holds the block the tag names. -/
structure Tagged (d : UfsDisk) (fp : UfsFile) : Prop where
  blk : ∀ level, fp.blkno level ≠ -1 → ∀ j < d.bsize, fp.blk level j = d.diskBlock (fp.blkno level) j
  buf : fp.bufBlkno ≠ -1 → ∀ j < dblksize d fp.bufBlkno, fp.buf j = d.blockByte fp.bufBlkno.toNat j

/-- What the search for a block leaves of the rest of the file. -/
structure SameData (fp fp' : UfsFile) : Prop where
  seekp : fp'.seekp = fp.seekp
  buf : fp'.buf = fp.buf
  bufBlkno : fp'.bufBlkno = fp.bufBlkno

theorem SameData.trans {fp fp' fp'' : UfsFile} (h : SameData fp fp') (h' : SameData fp' fp'') : SameData fp fp'' :=
  ⟨h'.seekp.trans h.seekp,h'.buf.trans h.buf,h'.bufBlkno.trans h.bufBlkno⟩

theorem ptrAt_shift {blk blk' : ℕ → UInt8} {i i' : ℕ} (h : ∀ j < 4, blk (4*i+j) = blk' (4*i'+j)) :
    ptrAt blk i = ptrAt blk' i' := by
  unfold ptrAt
  rw [leGet_shift h]

theorem ptrAt_congr {blk blk' : ℕ → UInt8} {idx : ℕ} (h : ∀ j, 4*idx ≤ j → j < 4*idx+4 → blk j = blk' j) :
    ptrAt blk idx = ptrAt blk' idx := by
  unfold ptrAt
  rw [leGet_congr h]

variable {d : UfsDisk}

/-- The buffer of a level gets another content, or keeps its own. -/
theorem Tagged.setBlk {fp : UfsFile} (hT : Tagged d fp) (level : ℕ) (blk : ℕ → UInt8) (tag : ℤ)
    (h : tag ≠ -1 → ∀ j < d.bsize, blk j = d.diskBlock tag j) :
    Tagged d {fp with blk := Function.update fp.blk level blk, blkno := Function.update fp.blkno level tag} where
  buf := hT.buf
  blk := by
    intro l hl j hj
    dsimp only at hl ⊢
    by_cases hlevel : l = level
    · subst hlevel
      rw [Function.update_self] at hl
      rw [Function.update_self,Function.update_self]
      exact h hl j hj
    · rw [Function.update_of_ne hlevel] at hl
      rw [Function.update_of_ne hlevel,Function.update_of_ne hlevel]
      exact hT.blk l hl j hj

theorem Tagged.keepBlk {fp : UfsFile} (hT : Tagged d fp) (level : ℕ) (blk : ℕ → UInt8)
    (h : fp.blkno level = -1 ∨ blk = fp.blk level) :
    Tagged d {fp with blk := Function.update fp.blk level blk} := by
  have hset := hT.setBlk level blk (fp.blkno level) fun htag => ?_
  · rwa [Function.update_eq_self] at hset
  · rw [h.resolve_left htag]
    exact hT.blk level htag

/-- An indirect block that was loaded is in the buffer of its level. -/
theorem loadIndirect_spec {level : ℕ} {p : ℤ} (hp : p ≠ -1) {fp : UfsFile} {io : List Outcome}
    (hT : Tagged d fp) (hok : IndirectSpared d level p fp io) {r : ℤ × UfsFile × List Outcome}
    (hr : loadIndirect d level p fp io = r) :
    Tagged d r.2.1 ∧ SameData fp r.2.1 ∧ (r.1 = 0 → ∀ j < d.bsize, r.2.1.blk level j = d.diskBlock p j) := by
  have hpos : 0 < d.bsize := Nat.two_pow_pos _
  subst hr
  unfold loadIndirect
  dsimp only
  have hspared : fp.blkno level ≠ p → io.headD .done ≠ .done → fp.blkno level = -1 ∨
      (strategy (d.diskBlock p) d.bsize (io.headD .done) (fp.blk level)).2.2 = fp.blk level :=
    fun h₁ h₂ => (hok.resolve_left h₁).resolve_left h₂
  split_ifs with hne hrc hsize
  · refine ⟨hT.keepBlk level _ (hspared hne fun hd => ?_),⟨rfl,rfl,rfl⟩,fun h₀ => absurd h₀ hrc⟩
    rw [hd] at hrc
    exact hrc rfl
  · refine ⟨hT.keepBlk level _ (hspared hne fun hd => ?_),⟨rfl,rfl,rfl⟩,fun h₀ => ?_⟩
    · rw [hd] at hsize
      exact hsize rfl
    · have heio : eio ≠ 0 := by decide
      exact absurd h₀ heio
  · rw [not_not] at hrc hsize
    have hdone := strategy_complete hpos hrc hsize
    rw [hdone]
    have hblk : ∀ j < d.bsize, (strategy (d.diskBlock p) d.bsize .done (fp.blk level)).2.2 j = d.diskBlock p j :=
      fun j hj => strategy_done hj
    refine ⟨hT.setBlk level _ p fun _ => hblk,⟨rfl,rfl,rfl⟩,fun _ j hj => ?_⟩
    dsimp only
    rw [Function.update_self]
    exact hblk j hj
  · rw [not_not] at hne
    exact ⟨hT,⟨rfl,rfl,rfl⟩,fun _ => hne ▸ hT.blk level (hne.symm ▸ hp)⟩

/-- The search for a block ends at the block the file system means. -/
theorem blockMapLoop_spec (hd : UfsShape d) (level : ℕ) {p : ℤ} {n : ℕ} {fp : UfsFile} {io : List Outcome} (hlevel : level ≤ niaddr)
    (hpath : d.PathOk level p n) (hn : n < d.nptr^level) (hT : Tagged d fp)
    (hok : BlockMapMeets d level p n fp io) {r : Except ℤ ℤ × UfsFile × List Outcome}
    (hr : blockMapLoop d level p n fp io = r) :
    Tagged d r.2.1 ∧ SameData fp r.2.1 ∧ r.1 ≠ .error 0 ∧ ∀ b, r.1 = .ok b → b = d.indirect level p n := by
  induction level generalizing p n fp io with
  | zero =>
    subst hr
    refine ⟨hT,⟨rfl,rfl,rfl⟩,nofun,fun b hb => ?_⟩
    cases hb
    rfl
  | succ level ih =>
    rw [blockMapLoop] at hr
    rw [UfsDisk.indirect]
    by_cases hp : p = 0
    · rw [if_pos hp] at hr
      subst hr
      refine ⟨hT,⟨rfl,rfl,rfl⟩,nofun,fun b hb => ?_⟩
      cases hb
      rw [if_pos hp]
    · rw [if_neg hp] at hr
      obtain ⟨hload,hok⟩ := hok.resolve_left hp
      obtain ⟨hp₁,hpath⟩ := hpath.resolve_left hp
      obtain ⟨l,hl⟩ : ∃ l, l = loadIndirect d level p fp io := ⟨_,rfl⟩
      rw [← hl] at hr hok
      obtain ⟨hT₁,hsame,hblk⟩ := loadIndirect_spec hp₁ hT hload hl.symm
      dsimp only at hr hok
      by_cases hrc : l.1 = 0
      · rw [if_neg (not_not.mpr hrc)] at hr
        have hok := hok hrc
        have hpow : 0 < d.nptr^level := Nat.pos_of_ne_zero fun h₀ => by
          rw [pow_succ,h₀] at hn
          omega
        -- the quotient and the remainder of the program, at the lowest level and above it
        have hidx : (if 0 < level then n/nindir d (level-1) else n) = n/d.nptr^level := by
          split_ifs with h₀
          · rw [nindir_pred hd h₀ (by omega)]
          · rw [Nat.eq_zero_of_not_pos h₀,pow_zero,Nat.div_one]
        have hidx_lt : n/d.nptr^level < d.nptr := Nat.div_lt_of_lt_mul (by rwa [pow_succ] at hn)
        have hptr : ptrAt (l.2.1.blk level) (n/d.nptr^level) = ptrAt (d.diskBlock p) (n/d.nptr^level) := by
          refine ptrAt_congr fun j _ hj => hblk hrc j ?_
          have hroom : d.nptr*4 ≤ d.bsize := Nat.div_mul_le_self _ _
          omega
        rw [hidx,hptr] at hr hok
        rw [if_neg hp]
        obtain rfl | hlow := Nat.eq_zero_or_pos level
        · rw [blockMapLoop] at hr
          subst hr
          exact ⟨hT₁,hsame,nofun,fun b hb => (Except.ok.inj hb).symm⟩
        · rw [if_pos hlow,nindir_pred hd hlow (by omega)] at hr hok
          obtain ⟨hT₂,hsame₂,hb⟩ := ih (by omega) hpath (Nat.mod_lt n hpow) hT₁ hok hr
          exact ⟨hT₂,hsame.trans hsame₂,hb⟩
      · rw [if_pos hrc] at hr
        subst hr
        exact ⟨hT₁,hsame,fun h => hrc (Except.error.inj h),nofun⟩

theorem blockMap_spec (hd : UfsShape d) {fileBlock : ℕ} (hlt : fileBlock < 2^31) {fp : UfsFile} {io : List Outcome}
    (hT : Tagged d fp)
    (hok : (ndaddr : ℤ) ≤ fileBlock → ∀ p, findLevel d niaddr 0 (fileBlock-ndaddr) = some p →
      BlockMapMeets d (p.1+1) (d.diIb p.1) p.2 fp io) {r : Except ℤ ℤ × UfsFile × List Outcome}
    (hr : blockMap d fileBlock fp io = r) :
    Tagged d r.2.1 ∧ SameData fp r.2.1 ∧ r.1 ≠ .error 0 ∧ ∀ b, r.1 = .ok b → d.blockAddr fileBlock = some b := by
  unfold blockMap at hr
  rw [UfsDisk.blockAddr]
  rw [Int.toNat_natCast] at hr
  by_cases hdirect : fileBlock < ndaddr
  · rw [if_pos (by exact_mod_cast hdirect)] at hr
    subst hr
    refine ⟨hT,⟨rfl,rfl,rfl⟩,nofun,fun b hb => ?_⟩
    rw [if_pos hdirect,Except.ok.inj hb]
  · rw [if_neg (by exact_mod_cast hdirect)] at hr
    rw [if_neg hdirect]
    have hfind := findLevel_eq hd (show fileBlock-ndaddr < 2^31-1 by rw [ndaddr] at hdirect ⊢; omega)
    cases hl : d.levelOf niaddr 0 (fileBlock-ndaddr) with
    | none =>
      rw [hfind,hl] at hr
      subst hr
      exact ⟨hT,⟨rfl,rfl,rfl⟩,nofun,nofun⟩
    | some p =>
      rw [hfind,hl] at hr
      have hp := levelOf_lt hl
      obtain ⟨hT',hsame,herr,hb⟩ := blockMapLoop_spec hd (p.1+1) (by omega) (hd.path _ _ hl) hp.2 hT
        (hok (by exact_mod_cast not_lt.mp hdirect) p (hfind.trans hl)) hr
      refine ⟨hT',hsame,herr,fun b h => ?_⟩
      rw [Option.map_some,hb b h]

/-- A data block that was loaded is in the buffer. -/
theorem loadData_spec {fileBlock : ℕ} {b : ℤ} (hb : d.blockAddr fileBlock = some b) {fp : UfsFile} {io : List Outcome}
    (hT : Tagged d fp) (hok : DataSpared d fileBlock b fp io) {r : ℤ × UfsFile × List Outcome}
    (hr : loadData d fileBlock b fp io = r) :
    Tagged d r.2.1 ∧ r.2.1.seekp = fp.seekp ∧ (r.1 = 0 → r.2.1.bufBlkno = fileBlock) := by
  have hbyte : ∀ j, d.blockByte fileBlock j = if b = 0 then 0 else d.diskBlock b j := by
    intro j
    rw [UfsDisk.blockByte,hb]
  subst hr
  unfold loadData
  by_cases h₀ : b = 0
  · rw [if_pos h₀]
    refine ⟨⟨hT.blk,fun _ j hj => ?_⟩,rfl,fun _ => rfl⟩
    dsimp only at hj ⊢
    rw [blit_inside (Nat.zero_le j) (by omega),Int.toNat_natCast,hbyte,if_pos h₀]
  · rw [if_neg h₀]
    dsimp only
    have hok := hok.resolve_left h₀
    split_ifs with hrc
    · have hne : io.headD .done ≠ .done := fun hd => hrc (by rw [hd]; rfl)
      obtain ⟨-,hkept⟩ := hok.resolve_left hne
      refine ⟨⟨hT.blk,fun htag => ?_⟩,rfl,fun hz => absurd hz hrc⟩
      dsimp only at htag ⊢
      rw [hkept.resolve_left htag]
      exact hT.buf htag
    · have hdone : io.headD .done = .done := hok.resolve_right fun h => hrc h.1
      rw [hdone]
      refine ⟨⟨hT.blk,fun _ j hj => ?_⟩,rfl,fun _ => rfl⟩
      dsimp only at hj ⊢
      rw [strategy_done hj,Int.toNat_natCast,hbyte,if_neg h₀]

end Buffers

section Blocks
variable {d : UfsDisk}

theorem le_fragroundup (d : UfsDisk) (x : ℕ) : x ≤ fragroundup d x := by
  have hf : 0 < d.fsize := Nat.two_pow_pos _
  have hdiv := Nat.div_add_mod (x+d.fsize-1) d.fsize
  have hmod := Nat.mod_lt (x+d.fsize-1) hf
  rw [fragroundup,Nat.mul_comm]
  omega

theorem fragroundup_le (hs : d.fshift ≤ d.bshift) {x : ℕ} (hx : x ≤ d.bsize) : fragroundup d x ≤ d.bsize := by
  have hf : 0 < d.fsize := Nat.two_pow_pos _
  obtain ⟨q,hq⟩ : d.fsize ∣ d.bsize := Nat.pow_dvd_pow 2 hs
  have hdiv := Nat.div_add_mod (x+d.fsize-1) d.fsize
  rw [fragroundup,Nat.mul_comm,hq]
  refine Nat.mul_le_mul_left _ (Nat.lt_succ_iff.mp (Nat.div_lt_of_lt_mul ?_))
  rw [Nat.mul_succ,← hq]
  omega

theorem dblksize_le (hs : d.fshift ≤ d.bshift) (n : ℕ) : dblksize d n ≤ d.bsize := by
  have hb : 0 < d.bsize := Nat.two_pow_pos _
  rw [dblksize]
  split_ifs
  · exact le_rfl
  · exact fragroundup_le hs (Nat.mod_lt _ hb).le

/-- The block of an offset inside the file reaches up to it. -/
theorem blkoff_lt {o : ℕ} (ho : o < d.diSize) : o%d.bsize < dblksize d (o/d.bsize : ℕ) := by
  have hb : 0 < d.bsize := Nat.two_pow_pos _
  have hdiv := Nat.div_add_mod o d.bsize
  have hmod := Nat.mod_lt o hb
  rw [dblksize]
  split_ifs with h
  · exact hmod
  · have hsize : d.diSize < (o/d.bsize+1)*d.bsize := by
      rw [not_or,not_le,not_le] at h
      exact_mod_cast h.2
    have hlast : d.diSize/d.bsize = o/d.bsize := by
      refine Nat.le_antisymm (Nat.lt_succ_iff.mp (Nat.div_lt_of_lt_mul ?_)) (Nat.div_le_div_right ho.le)
      rwa [Nat.mul_comm]
    have hdiv' := Nat.div_add_mod d.diSize d.bsize
    rw [hlast] at hdiv'
    have hround := le_fragroundup d (d.diSize%d.bsize)
    omega

theorem blkoff_eq (d : UfsDisk) (o : ℕ) : blkoff d o = o%d.bsize := by
  rw [blkoff]
  exact_mod_cast Int.toNat_natCast _

/-- Bytes of one block of the file. -/
theorem byte_block (d : UfsDisk) {o j : ℕ} (hj : o%d.bsize+j < d.bsize) : d.byte (o+j) = d.blockByte (o/d.bsize) (o%d.bsize+j) := by
  have hb : 0 < d.bsize := Nat.two_pow_pos _
  have hdiv := Nat.div_add_mod o d.bsize
  have heq : o+j = d.bsize*(o/d.bsize)+(o%d.bsize+j) := by omega
  rw [UfsDisk.byte]
  rw [heq,Nat.mul_add_div hb,Nat.div_eq_of_lt hj,Nat.add_zero,Nat.mul_add_mod,Nat.mod_eq_of_lt hj]

theorem bytes_append (d : UfsDisk) {o size c : ℕ} (hc : c ≤ size) (hend : c ≤ d.diSize-o) :
    (List.range c).map (fun j => d.byte (o+j)) ++ d.bytes (o+c : ℕ) (size-c) = d.bytes o size := by
  have hpos : ∀ n : ℕ, ¬((n : ℤ) < 0) := fun n => by omega
  have hmin : min size (d.diSize-o) = c+min (size-c) (d.diSize-(o+c)) := by omega
  rw [UfsDisk.bytes,UfsDisk.bytes,if_neg (hpos _),if_neg (hpos _),Int.toNat_natCast,Int.toNat_natCast,hmin,List.range_add,
    List.map_append,List.map_map]
  congr 1
  refine List.map_congr_left fun j _ => ?_
  rw [Function.comp_apply,Nat.add_assoc]

theorem bytes_zero (d : UfsDisk) (off : ℤ) : d.bytes off 0 = [] := by
  rw [UfsDisk.bytes]
  split_ifs
  · rfl
  · rw [Nat.zero_min,List.range_zero,List.map_nil]

/-- There are no bytes before the file and none after it. -/
theorem bytes_end (d : UfsDisk) {off : ℤ} (size : ℕ) (h : off < 0 ∨ d.diSize ≤ off) : d.bytes off size = [] := by
  rw [UfsDisk.bytes]
  split_ifs with hneg
  · rfl
  · have hz : min size (d.diSize-off.toNat) = 0 := by omega
    rw [hz,List.range_zero,List.map_nil]

theorem lblkno_eq {o : ℕ} (hlt : o/d.bsize < 2^31) : lblkno d o = (o/d.bsize : ℕ) := by
  rw [← bmod_of_lt hlt]
  rfl

variable (u : Ufs)

theorem Ufs.block_lt {o : ℕ} (ho : o < u.diSize) : o/u.bsize < 2^31 := by
  refine Nat.div_lt_of_lt_mul (ho.trans_le ?_)
  rw [Nat.mul_comm]
  exact u.size_le

theorem diSize_lt : u.diSize < 2^63 := by
  have hpow : 2^u.bshift ≤ 2^16 := Nat.pow_le_pow_right (by omega) u.bshift_mem.2
  have hle := u.size_le
  omega

end Blocks

section Read

/-- The block of the seek pointer is in the buffer, unless there is an error. -/
theorem bufFill_spec {d : UfsDisk} (hd : UfsShape d) {o : ℕ} (hlt : o/d.bsize < 2^31) {fp : UfsFile} (hfp : fp.seekp = o) {io : List Outcome}
    (hT : Tagged d fp) (hok : BufMeets d fp io) {r : ℤ × UfsFile × List Outcome}
    (hr : bufFill d fp io = r) :
    Tagged d r.2.1 ∧ r.2.1.seekp = o ∧ (r.1 = 0 → r.2.1.bufBlkno = (o/d.bsize : ℕ)) := by
  have hblk := lblkno_eq hlt
  unfold bufFill at hr
  unfold BufMeets at hok
  rw [hfp,hblk] at hr hok
  dsimp only at hr
  by_cases heq : ((o/d.bsize : ℕ) : ℤ) = fp.bufBlkno
  · rw [if_neg (not_not.mpr heq)] at hr
    subst hr
    exact ⟨hT,hfp,fun _ => heq.symm⟩
  · rw [if_pos heq] at hr
    obtain ⟨hmap,hdata⟩ := hok.resolve_left heq
    rw [Int.toNat_natCast] at hmap
    cases hm : blockMap d (o/d.bsize : ℕ) fp io with
    | mk res rest =>
      obtain ⟨hT₁,hsame,herr,hb⟩ := blockMap_spec hd hlt hT hmap hm
      rw [hm] at hr hdata
      cases res with
      | error e =>
        subst hr
        refine ⟨hT₁,hsame.seekp.trans hfp,fun h₀ => absurd ?_ herr⟩
        rw [show e = 0 from h₀]
      | ok b =>
        obtain ⟨hT₂,hseek,hbuf⟩ := loadData_spec (hb b rfl) hT₁ (hdata b rfl) hr
        exact ⟨hT₂,hseek.trans (hsame.seekp.trans hfp),hbuf⟩

variable (u : Ufs)

/-- The loop of a read, from what it has stored on. -/
theorem ufsReadLoop_spec (fuel size : ℕ) (acc : List UInt8) {fp : UfsFile} {io : List Outcome} (hfuel : size < fuel)
    (hseek : -2^63 ≤ fp.seekp ∧ fp.seekp < 2^63) (hT : Tagged u.toUfsDisk fp)
    (hok : ReadMeets u.toUfsDisk fuel size fp io) :
    ∃ rc resid data fp' io', ufsReadLoop u.toUfsDisk fuel size acc fp io = some (rc,resid,acc ++ data,fp',io') ∧
      Tagged u.toUfsDisk fp' ∧ (-2^63 ≤ fp'.seekp ∧ fp'.seekp < 2^63) ∧
      (rc = 0 → data = u.bytes fp.seekp size ∧ fp'.seekp = fp.seekp+data.length ∧ resid = size-data.length) := by
  induction fuel generalizing size acc fp io with
  | zero => omega
  | succ fuel ih =>
    rw [ufsReadLoop]
    rw [ReadMeets] at hok
    have hsize := diSize_lt u
    by_cases hz : size = 0
    · rw [if_pos hz]
      refine ⟨0,size,[],fp,io,by rw [List.append_nil],hT,hseek,fun _ => ⟨?_,by simp,by simp⟩⟩
      rw [hz,bytes_zero]
    rw [if_neg hz]
    by_cases hend : (u.diSize : ℤ) ≤ fp.seekp%2^64
    · rw [if_pos hend]
      refine ⟨0,size,[],fp,io,by rw [List.append_nil],hT,hseek,fun _ => ⟨?_,by simp,by simp⟩⟩
      exact (bytes_end u.toUfsDisk size (by omega)).symm
    rw [if_neg hend]
    obtain ⟨o,hfp,ho⟩ : ∃ o : ℕ, fp.seekp = o ∧ o < u.diSize := ⟨fp.seekp.toNat,by omega,by omega⟩
    obtain ⟨hbuf,hrest⟩ := hok hz hend
    obtain ⟨r,hr⟩ : ∃ r, r = bufFill u.toUfsDisk fp io := ⟨_,rfl⟩
    rw [← hr] at hrest ⊢
    dsimp only at hrest ⊢
    have hlt := u.block_lt ho
    obtain ⟨hT₁,hseek₁,htag⟩ := bufFill_spec u.shape hlt hfp hT hbuf hr.symm
    by_cases hrc : r.1 = 0
    · rw [if_neg (not_not.mpr hrc)]
      have hrest := hrest hrc
      have htag := htag hrc
      rw [hfp] at hrest ⊢
      have hblk := lblkno_eq hlt
      have hoff := blkoff_lt ho
      have hle := dblksize_le u.fshift_le (o/u.bsize)
      have havail : bufAvail u.toUfsDisk o = min (dblksize u.toUfsDisk (o/u.bsize : ℕ)-o%u.bsize) (u.diSize-o) := by
        rw [bufAvail,hblk,blkoff_eq]
        omega
      obtain ⟨c,hc⟩ : ∃ c, c = min size (bufAvail u.toUfsDisk o) := ⟨_,rfl⟩
      rw [← hc] at hrest ⊢
      rw [havail] at hc
      have hvalid : r.2.1.bufBlkno ≠ -1 := by
        intro hnone
        have hnonneg := Int.natCast_nonneg (o/u.bsize)
        rw [← htag,hnone] at hnonneg
        exact absurd hnonneg (by decide)
      -- what the buffer holds from the offset on
      have hdata : (List.range c).map (fun j => r.2.1.buf (blkoff u.toUfsDisk o+j)) = (List.range c).map fun j => u.byte (o+j) := by
        refine List.map_congr_left fun j hj => ?_
        rw [List.mem_range] at hj
        rw [blkoff_eq,byte_block u.toUfsDisk (by omega),hT₁.buf hvalid _ (by rw [htag]; omega),htag,Int.toNat_natCast]
      have hnext : -2^63 ≤ (o : ℤ)+c ∧ (o : ℤ)+c < 2^63 := by omega
      have hT₂ : Tagged u.toUfsDisk {r.2.1 with seekp := (o : ℤ)+c} := ⟨hT₁.blk,hT₁.buf⟩
      obtain ⟨rc,resid,data,fp',io',hrun,hT',hseek',hres⟩ := ih (size-c) (acc ++ (List.range c).map fun j => u.byte (o+j))
        (by omega) hnext hT₂ hrest
      rw [hdata,hrun]
      refine ⟨rc,resid,(List.range c).map (fun j => u.byte (o+j)) ++ data,fp',io',by rw [List.append_assoc],hT',hseek',fun h₀ => ?_⟩
      obtain ⟨hd,hs',hresid⟩ := hres h₀
      rw [List.length_append,List.length_map,List.length_range]
      refine ⟨?_,?_,by omega⟩
      · rw [hd]
        exact_mod_cast bytes_append u.toUfsDisk (by omega) (by omega)
      · rw [hs']
        push_cast
        omega
    · rw [if_pos hrc]
      exact ⟨r.1,size,[],r.2.1,r.2.2,by rw [List.append_nil],hT₁,hseek₁ ▸ hfp ▸ hseek,fun h₀ => absurd h₀ hrc⟩

/-- An open file whose buffers hold what their tags name. -/
structure UfsInv (s : UfsState) : Prop where
  tagged : Tagged u.toUfsDisk s.file
  seekp : -2^63 ≤ s.file.seekp ∧ s.file.seekp < 2^63

theorem ufsSeek_range (d : UfsDisk) (fp : UfsFile) (offset : ℤ) (whence : Whence) :
    -2^63 ≤ ufsSeek d fp offset whence ∧ ufsSeek d fp offset whence < 2^63 := by
  have hrange : ∀ x : ℤ, -2^63 ≤ Int.bmod x (2^64) ∧ Int.bmod x (2^64) < 2^63 := by
    intro x
    have hlow := Int.le_bmod (x := x) (m := 2^64) (by norm_num)
    have hhigh := Int.bmod_lt (x := x) (m := 2^64) (by norm_num)
    norm_num at hlow hhigh ⊢
    exact ⟨hlow,hhigh⟩
  cases whence <;> exact hrange _

theorem ufsStep_spec (s : UfsState) (c : UfsCall) (hs : UfsInv u s) (hok : UfsOk u.toUfsDisk s c) :
    UfsReads u.toUfsDisk s c ∧ UfsInv u (ufsStep u.toUfsDisk s c).2 := by
  cases c with
  | read size =>
    obtain ⟨rc,resid,data,fp,io,hrun,hT,hseek,hres⟩ := ufsReadLoop_spec u (size+1) size [] (Nat.lt_succ_self size) hs.seekp
      hs.tagged hok
    rw [List.nil_append] at hrun
    have hread : ufsRead u.toUfsDisk size s.file s.io = some (rc,resid,data,fp,io) := hrun
    refine ⟨⟨rc,resid,data,fp,io,hread,hres⟩,?_⟩
    rw [ufsStep,hread,ufsReturn]
    exact ⟨hT,hseek⟩
  | seek offset whence =>
    exact ⟨trivial,⟨hs.tagged.blk,hs.tagged.buf⟩,ufsSeek_range u.toUfsDisk s.file offset whence⟩

/-- While no failed read of the device spoils a buffer with a tag, every read that succeeds has the
bytes of the file. -/
theorem ufs_reads_file (s : UfsState) (hs : UfsInv u s) (calls : List UfsCall)
    (hok : Along (ufsStep u.toUfsDisk) (UfsOk u.toUfsDisk) s calls) :
    Along (ufsStep u.toUfsDisk) (UfsReads u.toUfsDisk) s calls :=
  Along.of_invariant (UfsInv u) (ufsStep_spec u) calls s hs hok

end Read

section Runs

/-- A file of two blocks, the first all ones and the second all twos. -/
def twoBlocks : Ufs where
  dev := fun a _ => if a = 160 then 1 else 2
  bshift := 13
  fshift := 10
  fsbtodb := 1
  diSize := 16384
  diDb := fun n => if n = 0 then 80 else 88
  diIb := fun _ => 0
  bshift_mem := by decide
  fshift_le := by decide
  size_le := by decide
  path := fun _ _ _ => .inl rfl

/-- The file as `ufs_open` leaves it. -/
def justOpened (io : List Outcome) : UfsState where
  file := ⟨0,fun _ _ => 0,fun _ => -1,fun _ => 0,-1⟩
  io := io

theorem justOpened_inv (u : Ufs) (io : List Outcome) : UfsInv u (justOpened io) where
  tagged := ⟨fun _ h => absurd rfl h,fun h => absurd rfl h⟩
  seekp := by
    rw [justOpened]
    norm_num

/-- A first read fails, with a byte stored, and is made again. -/
theorem ufs_reads_file_again :
    answers (ufsStep twoBlocks.toUfsDisk) (justOpened [.failed 4 [(0,9)]]) [.read 1,.read 1] = [some (5,[]),some (0,[1])] ∧
    Along (ufsStep twoBlocks.toUfsDisk) (UfsReads twoBlocks.toUfsDisk) (justOpened [.failed 4 [(0,9)]]) [.read 1,.read 1] := by
  refine ⟨by decide,ufs_reads_file twoBlocks _ (justOpened_inv _ _) _ ⟨fun _ _ => ⟨.inr ⟨?_,?_⟩,?_⟩,
    fun _ _ => ⟨.inr ⟨?_,?_⟩,fun _ h => absurd h (by decide)⟩,trivial⟩⟩
  · exact fun h => absurd h (by decide)
  · intro b hb
    refine .inr (.inr ⟨?_,.inl (by decide)⟩)
    have hhead : (blockMap twoBlocks.toUfsDisk (lblkno twoBlocks.toUfsDisk (justOpened [.failed 4 [(0,9)]]).file.seekp)
        (justOpened [.failed 4 [(0,9)]]).file (justOpened [.failed 4 [(0,9)]]).io).2.2.headD .done = .failed 4 [(0,9)] := by
      decide
    rw [hhead]
    exact strategy_failed 4 _
  · exact fun h => absurd h (by decide)
  · exact fun h => absurd h (by decide)
  · intro b hb
    exact .inr (.inl (by decide))

/-- The second block cannot be read, and spoils the buffer with the first one. -/
theorem ufs_read_spoiled : ¬Along (ufsStep twoBlocks.toUfsDisk) (UfsReads twoBlocks.toUfsDisk) (justOpened [.done,.failed 4 [(0,9)]])
    [.read 1,.seek 8192 .set,.read 1,.seek 0 .set,.read 1] := by
  intro h
  obtain ⟨-,-,-,-,⟨rc,resid,data,fp,io,hrun,hres⟩,-⟩ := h
  have hval : some ((0 : ℤ),[(9 : UInt8)]) = some (rc,data) :=
    Eq.trans (by decide) (congrArg (Option.map fun r => (r.1,r.2.2.1)) hrun)
  rw [Option.some.injEq,Prod.mk.injEq] at hval
  have hbytes := (hres hval.1.symm).1
  rw [← hval.2] at hbytes
  exact absurd hbytes (by decide)

end Runs

end Blub.Stand
