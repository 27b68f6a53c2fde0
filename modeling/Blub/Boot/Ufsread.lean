import Blub.Stand.Ufs

/-! Reading the files of a UFS1 file system in boot2, from `ufsread.c`: one buffer for data and for inodes, one for
indirect blocks and one inode serve all files. -/
namespace Blub.Boot
open Blub.Bytes Blub.Trace Blub.Stand

def vblksize : ℕ := 4096
def dbpervblk : ℕ := 8

/-- The super block, and the bytes of the partition. -/
structure Ufs1Super where
  dev : ℤ → UInt8
  bshift : ℕ
  fragshift : ℕ
  fsbtodb : ℕ
  ipg : ℕ
  fpg : ℕ
  iblkno : ℕ
  cgoffset : ℕ
  cgmask : ℕ

namespace Ufs1Super
variable (fs : Ufs1Super)

def fshift : ℕ := fs.fsbtodb+9
def bsize : ℕ := 2^fs.bshift
def nindir : ℕ := fs.bsize/4

/-- A `struct ufs1_dinode` has 128 bytes. -/
def inopb : ℕ := fs.bsize/128

def toDb (b : ℤ) : ℤ := b*2^fs.fsbtodb

/-- The bytes from a sector on. -/
def sector (a : ℤ) : ℕ → UInt8 := fun j => fs.dev (512*a+j)

def cgstart (c : ℕ) : ℕ := fs.fpg*c+fs.cgoffset*(c &&& (2^32-1-fs.cgmask))
def cgimin (c : ℕ) : ℕ := fs.cgstart c+fs.iblkno

/-- `ino_to_fsba` and `ino_to_fsbo` of `fs.h`: where the inodes are. -/
def inoToFsba (x : ℕ) : ℕ := fs.cgimin (x/fs.ipg)+x%fs.ipg/fs.inopb*2^fs.fragshift
def inoToFsbo (x : ℕ) : ℕ := x%fs.inopb

def inode (x : ℕ) : ℕ → UInt8 := fun j => fs.sector (fs.toDb (fs.inoToFsba x)) (128*fs.inoToFsbo x+j)

def indirpervblk : ℕ := fs.nindir/(fs.bsize/vblksize)
def ipervblk : ℕ := fs.inopb/(fs.bsize/vblksize)
def inoToVba (x : ℕ) : ℤ := fs.toDb (fs.cgimin (x/fs.ipg))+(x%fs.ipg/fs.ipervblk*dbpervblk : ℕ)
def inoToVbo (x : ℕ) : ℕ := x%fs.ipervblk

end Ufs1Super

@[irreducible] def diSize (dp1 : ℕ → UInt8) : ℕ := leGet dp1 8 8

/-- The pointers of an inode: `di_db` from byte 40 on, and `di_ib` from byte 88 on. -/
@[irreducible] def diDb (dp1 : ℕ → UInt8) (k : ℕ) : ℤ := ptrAt dp1 (10+k)
@[irreducible] def diIb (dp1 : ℕ → UInt8) (k : ℕ) : ℤ := ptrAt dp1 (22+k)

/-- The file of an inode. -/
def Ufs1Super.file (fs : Ufs1Super) (ino : ℕ) : UfsDisk where
  dev := fs.sector
  bshift := fs.bshift
  fshift := fs.fshift
  fsbtodb := fs.fsbtodb
  diSize := diSize (fs.inode ino)
  diDb := diDb (fs.inode ino)
  diIb := diIb (fs.inode ino)

/-- The static variables and buffers, `fs_off`, and what becomes of the reads: the bytes that a read which fails has
stored. Whether such a read has spoilt a buffer since it got its tag is not of the program. -/
structure Boot2Ufs where
  inomap : ℕ
  blkmap : ℤ
  indmap : ℤ
  blkbuf : ℕ → UInt8
  indbuf : ℕ → UInt8
  dp1 : ℕ → UInt8
  fsOff : ℕ
  io : List (Option (List (ℕ × UInt8)))
  blkSpoilt : Bool
  indSpoilt : Bool

/-- Subtraction of numbers of type `size_t`, which have 32 bits in boot2. -/
def sub32 (a b : ℕ) : ℕ := (a+2^32-b)%2^32

section Code
variable (fs : Ufs1Super)

def dskread (lba : ℤ) (nblk : ℕ) (o : Option (List (ℕ × UInt8))) (buf : ℕ → UInt8) : Bool × (ℕ → UInt8) :=
  match o with
  | none => (true,blit buf 0 (512*nblk) (fs.sector lba))
  | some junk => (false,scribble (512*nblk) junk buf)

/-- A failed read spoils a buffer that it has stored bytes in. -/
def spoils : Option (List (ℕ × UInt8)) → Bool
  | none => false
  | some junk => junk ≠ []

def readBlkbuf (lba : ℤ) (nblk : ℕ) (s : Boot2Ufs) : Bool × Boot2Ufs :=
  let o := s.io.headD none
  let r := dskread fs lba nblk o s.blkbuf
  (r.1,{s with blkbuf := r.2, io := s.io.tail, blkSpoilt := !r.1 && (s.blkSpoilt || spoils o)})

def readIndbuf (lba : ℤ) (s : Boot2Ufs) : Bool × Boot2Ufs :=
  let o := s.io.headD none
  let r := dskread fs lba dbpervblk o s.indbuf
  (r.1,{s with indbuf := r.2, io := s.io.tail, indSpoilt := !r.1 && (s.indSpoilt || spoils o)})

/-- The place on the disk of a block of the file. No result: -1 is returned. -/
def loadAddr (lbn : ℕ) (s : Boot2Ufs) : Option ℤ × Boot2Ufs :=
  if lbn < ndaddr then (some (diDb s.dp1 lbn),s)
  else if lbn < ndaddr+fs.nindir then
    let n := fs.indirpervblk
    let u := (lbn-ndaddr)/n*dbpervblk
    let vbaddr := fs.toDb (diIb s.dp1 0)+u
    let r := if s.indmap ≠ vbaddr then
        let r := readIndbuf fs vbaddr s
        if r.1 then (true,{r.2 with indmap := vbaddr}) else (false,r.2)
      else (true,s)
    if r.1 then (some (ptrAt r.2.indbuf ((lbn-ndaddr) &&& (n-1))),r.2) else (none,r.2)
  else (none,s)

/-- `sblksize`, with the size as an `ssize_t`. -/
def sblksize (size lbn : ℕ) : ℕ :=
  if ndaddr ≤ lbn ∨ ((lbn+1)*fs.bsize : ℕ) ≤ Int.bmod size (2^32) then fs.bsize
  else (size%fs.bsize+2^fs.fshift-1)/2^fs.fshift*2^fs.fshift

/-- Where a piece of 4 KB of a block is, and its size in the file. -/
def vbaddrOf (addr : ℤ) (off : ℕ) : ℤ := fs.toDb addr+(off/vblksize*dbpervblk : ℕ)
def vsize (size lbn off : ℕ) : ℕ := min (sub32 (sblksize fs size lbn) (off-off%vblksize)) vblksize

def loadBlk (vbaddr : ℤ) (n : ℕ) (s : Boot2Ufs) : Bool × Boot2Ufs :=
  if s.blkmap ≠ vbaddr then
    let r := readBlkbuf fs vbaddr (n/512) s
    if r.1 then (true,{r.2 with blkmap := vbaddr}) else (false,r.2)
  else (true,s)

/-- The loop of `boot2_ufs_read_size`: what was read, or nothing for -1. No result if it does not end in `fuel`
turns. -/
def boot2ReadLoop (size : ℕ) : ℕ → ℕ → List UInt8 → Boot2Ufs → Option (Option (List UInt8) × Boot2Ufs)
  | 0, _, _, _ => none
  | fuel+1, nb, acc, s =>
    if nb = 0 then some (some acc,s)
    else
      let lbn := s.fsOff/fs.bsize
      let off := s.fsOff%fs.bsize
      match loadAddr fs lbn s with
      | (none,s) => some (none,s)
      | (some addr,s) =>
        let vboff := off%vblksize
        let n := vsize fs size lbn off
        match loadBlk fs (vbaddrOf fs addr off) n s with
        | (false,s) => some (none,s)
        | (true,s) =>
          let n := min (sub32 n vboff) nb
          boot2ReadLoop size fuel (nb-n) (acc ++ (List.range n).map fun j => s.blkbuf (vboff+j))
            {s with fsOff := s.fsOff+n}

/-- The inode becomes the current one. -/
def loadInode (ino : ℕ) (s : Boot2Ufs) : Bool × Boot2Ufs :=
  if s.inomap ≠ ino then
    let r := readBlkbuf fs (fs.inoToVba ino) dbpervblk s
    if r.1 then
      (true,{r.2 with dp1 := fun j => r.2.blkbuf (128*fs.inoToVbo ino+j), inomap := ino, fsOff := 0, blkmap := 0,
                      indmap := 0})
    else (false,r.2)
  else (true,s)

def boot2UfsRead (ino nbyte : ℕ) (s : Boot2Ufs) : Option (Option (List UInt8) × Boot2Ufs) :=
  if ino = 0 then some (some [],s)
  else
    match loadInode fs ino s with
    | (false,s) => some (none,s)
    | (true,s) =>
      let size := diSize s.dp1%2^32
      let nb := min nbyte (sub32 size s.fsOff)
      boot2ReadLoop fs size (nb+1) nb [] s

attribute [local grind =] boot2ReadLoop

end Code

end Blub.Boot
