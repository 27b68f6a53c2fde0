import Blub.Lib.Bytes

/-! The geometry of an ext2 file system: what `ext2fs_open` of `ext2fs.c` computes from the super block, and where
`read_inode` finds an inode. All reads of the device succeed. -/
namespace Blub.Stand
open Blub.Bytes

/-- The fields of `struct ext2fs_disk` that the geometry is computed from. -/
structure ExtDisk where
  inodes : ℕ
  blocks : ℕ
  firstblk : ℕ
  bsize : ℕ
  bpg : ℕ
  ipg : ℕ
  magic : ℕ
  revision : ℕ
  isize : ℕ
  deriving DecidableEq

/-- The fields of `struct ext2fs_core`, but those for fragments and masks. -/
structure ExtCore where
  bsize : ℕ
  isize : ℕ
  ipb : ℕ
  fsbtodb : ℤ
  deriving DecidableEq

def extMagic : ℕ := 0xef53
def extSblock : ℤ := 2
def extSbsize : ℕ := 1024

/-- The bytes of the device from a sector on. -/
def sectors (dev : ℤ → UInt8) (a : ℤ) : ℕ → UInt8 := fun j => dev (512*a+j)

namespace ExtDisk
variable (fd : ExtDisk)

def ofBytes (b : ℕ → UInt8) : ExtDisk where
  inodes := leGet b 0 4
  blocks := leGet b 4 4
  firstblk := leGet b 20 4
  bsize := leGet b 24 4
  bpg := leGet b 32 4
  ipg := leGet b 40 4
  magic := leGet b 56 2
  revision := leGet b 76 4
  isize := leGet b 88 2

/-- `fs_isize`: the first revision has a fixed size. -/
def inodeSize : ℕ := if fd.revision = 0 then 128 else fd.isize

/-- The in-core values; none where a shift or a division has no value. -/
def core : Option ExtCore :=
  let bshift := (10+fd.bsize)%2^32
  if 31 ≤ bshift ∨ fd.inodeSize = 0 then none
  else some ⟨2^bshift,fd.inodeSize,2^bshift/fd.inodeSize,((2^bshift/512 : ℕ) : ℤ)-1⟩

/-- The number of group descriptors: `howmany` of type `u_int32_t`, as an `int`. -/
def numGroups : ℤ :=
  let rest := (fd.blocks+2^32-fd.firstblk)%2^32
  Int.bmod ((rest+(fd.bpg+2^32-1))%2^32/fd.bpg : ℕ) (2^32)

/-- The length of the group descriptors, rounded up to blocks. -/
def bgLen (bsize : ℕ) : ℤ :=
  let bgPerBlk : ℤ := (bsize/32 : ℕ)
  let blkgrps := Int.tdiv (Int.bmod (fd.numGroups+(bgPerBlk-1)) (2^32)) bgPerBlk
  Int.bmod (blkgrps*bsize) (2^32)

end ExtDisk

namespace ExtCore
variable (c : ExtCore)

/-- `fsb_to_db`; none where the shift has no value. A sector number is a `daddr_t`. -/
def fsbToDb (blk : ℤ) : Option ℤ :=
  if 0 ≤ c.fsbtodb ∧ c.fsbtodb < 32 then some (Int.bmod (blk*2^c.fsbtodb.toNat) (2^32)) else none

end ExtCore

/-- An open file system: only the first `len` bytes of `bg` have been read. -/
structure Ext2fs where
  fd : ExtDisk
  core : ExtCore
  len : ℤ
  bg : ℕ → UInt8

/-- The first part of `ext2fs_open`: the super block and the group descriptors. -/
def ext2fsOpen (dev : ℤ → UInt8) : Option Ext2fs :=
  let fd := ExtDisk.ofBytes (sectors dev extSblock)
  if fd.magic ≠ extMagic then none
  else fd.core.map fun c => ⟨fd,c,fd.bgLen c.bsize,sectors dev (extSblock+extSbsize/512)⟩

namespace Ext2fs
variable (fs : Ext2fs)

/-- `bg[g].bg_inotbl`; none after the descriptors that have been read. -/
def inotbl (g : ℕ) : Option ℕ := if 32*((g : ℤ)+1) ≤ fs.len then some (leGet fs.bg (32*g+8) 4) else none

/-- `ino_to_bgo` and `ino_to_bg`. There is no inode 0. -/
def inoToBgo (ino : ℕ) : ℕ := (ino-1)%fs.fd.ipg
def inoToBg (ino : ℕ) : ℕ := (ino-1)/fs.fd.ipg

def inoToDb (ino : ℕ) : Option ℤ :=
  (fs.inotbl (fs.inoToBg ino)).bind fun t => fs.core.fsbToDb ((t : ℤ)+(fs.inoToBgo ino/fs.core.ipb : ℕ))

def inoToBo (ino : ℕ) : ℕ := fs.inoToBgo ino%fs.core.ipb

/-- What `read_inode` copies to `f_di`: an element of an array of `struct ext2dinode` in the block that is read. -/
def readInode (dev : ℤ → UInt8) (ino : ℕ) : Option (List UInt8) :=
  (fs.inoToDb ino).bind fun db =>
    let buf := sectors dev db
    let bo := fs.inoToBo ino
    if 128*bo+128 ≤ fs.core.bsize then some ((List.range 128).map fun j => buf (128*bo+j)) else none

end Ext2fs
end Blub.Stand
