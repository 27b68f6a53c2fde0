import Blub.Lib.Bytes

/-! The layout of a FAT file system: the boot sector as `parsebs` of `dosfs.c` takes it, and the macros that convert
clusters to sectors and to offsets, in arithmetic of type `u_int`. -/
namespace Blub.Stand
open Blub.Bytes

def secsiz : ℕ := 512
def depsec : ℕ := 16
def loclus : ℕ := 2

/-- The fields of the boot sector. -/
def bpbSecsiz (bs : ℕ → UInt8) : ℕ := leGet bs 11 2
def bpbSpc (bs : ℕ → UInt8) : ℕ := (bs 13).toNat
def bpbRessec (bs : ℕ → UInt8) : ℕ := leGet bs 14 2
def bpbFats (bs : ℕ → UInt8) : ℕ := (bs 16).toNat
def bpbDirents (bs : ℕ → UInt8) : ℕ := leGet bs 17 2
def bpbSecs (bs : ℕ → UInt8) : ℕ := leGet bs 19 2
def bpbMedia (bs : ℕ → UInt8) : ℕ := (bs 21).toNat
def bpbSpf (bs : ℕ → UInt8) : ℕ := leGet bs 22 2
def bpbLsecs (bs : ℕ → UInt8) : ℕ := leGet bs 32 4
def bpbLspf (bs : ℕ → UInt8) : ℕ := leGet bs 36 4
def bpbRdcl (bs : ℕ → UInt8) : ℕ := leGet bs 44 4

/-- What `parsebs` sets of `DOS_FS`. -/
structure DosFs where
  spc : ℕ
  bsize : ℕ
  bshift : ℕ
  dirents : ℕ
  spf : ℕ
  rdcl : ℕ
  lsnfat : ℕ
  lsndir : ℕ
  lsndta : ℕ
  fatsz : ℕ
  xclus : ℕ
  deriving DecidableEq

def bytsec (n : ℕ) : ℕ := n/secsiz
def secbyt (s : ℕ) : ℕ := s*secsiz%2^32
def entsec (e : ℕ) : ℕ := e/depsec

/-- `ffs`: the number of the lowest bit that is set, counted from 1. -/
def ffs (n : ℕ) : ℕ := (((List.range 32).find? fun i => n.testBit i).map (·+1)).getD 0

namespace DosFs
variable (fs : DosFs)

def bytblk (n : ℕ) : ℕ := n/2^fs.bshift
def blkbyt (b : ℕ) : ℕ := b*2^fs.bshift%2^32
def blksec (b : ℕ) : ℕ := b*2^(fs.bshift-9)%2^32

/-- A cluster as an offset within the file system, and as a sector. -/
def blkoff (b : ℕ) : ℕ := (secbyt fs.lsndta+fs.blkbyt (b-loclus))%2^32
def blklsn (b : ℕ) : ℕ := (fs.lsndta+fs.blksec (b-loclus))%2^32

/-- The offset of a cluster's entry within the FAT. -/
def fatoff (c : ℕ) : ℕ :=
  if fs.fatsz = 12 then (c+c/2)%2^32 else if fs.fatsz = 16 then c*2%2^32 else c*4%2^32

/-- The offset of a cluster's entry within the filesystem. -/
def fatAt (c : ℕ) : ℕ := (secbyt fs.lsnfat+fs.fatoff c)%2^32

/-- The bytes that are read for an entry. -/
def entrySize : ℕ := if fs.fatsz ≠ 32 then 2 else 4

def okclus (c : ℕ) : Prop := loclus ≤ c ∧ c ≤ fs.xclus

instance (c : ℕ) : Decidable (fs.okclus c) := inferInstanceAs (Decidable (_ ∧ _))

end DosFs

/-- The sectors per FAT, the root directory entries, and the first cluster of the root directory; none where a field is
not accepted. -/
def parseFat (bs : ℕ → UInt8) : Option (ℕ × ℕ × ℕ) :=
  if bpbSpf bs ≠ 0 then
    if bpbFats bs ≠ 2 ∨ bpbDirents bs = 0 then none else some (bpbSpf bs,bpbDirents bs,0)
  else if bpbLspf bs = 0 ∨ bpbFats bs = 0 ∨ 16 < bpbFats bs ∨ bpbRdcl bs < loclus then none
  else some (bpbLspf bs,0,bpbRdcl bs)

/-- The number of sectors of the volume. -/
def bpbTotal (bs : ℕ → UInt8) : ℕ := if bpbSecs bs ≠ 0 then bpbSecs bs else bpbLsecs bs

/-- `parsebs`; none is `EINVAL`. -/
def parsebs (bs : ℕ → UInt8) : Option DosFs :=
  if (bs 0 ≠ 0x69 ∧ bs 0 ≠ 0xe9 ∧ (bs 0 ≠ 0xeb ∨ bs 2 ≠ 0x90)) ∨ bpbMedia bs < 0xf0 then none
  else if bpbSecsiz bs ≠ secsiz then none
  else if bpbSpc bs = 0 ∨ bpbSpc bs &&& (bpbSpc bs-1) ≠ 0 then none
  else
    match parseFat bs with
    | none => none
    | some (spf,dirents,rdcl) =>
      if bpbRessec bs = 0 then none
      else
        let bsize := secbyt (bpbSpc bs)
        let bshift := ffs bsize-1
        let lsnfat := bpbRessec bs
        let lsndir := (lsnfat+spf*bpbFats bs)%2^32
        let lsndta := (lsndir+entsec dirents)%2^32
        let sc := bpbTotal bs
        if sc = 0 ∨ sc < lsndta then none
        else
          let xclus := ((sc-lsndta)/2^(bshift-9)+1)%2^32
          if xclus < loclus then none
          else
            let fatsz := if dirents ≠ 0 then (if xclus < 0xff6 then 12 else 16) else 32
            let sc := (secbyt spf*2%2^32/(fatsz/4)+2^32-1)%2^32
            some ⟨bpbSpc bs,bsize,bshift,dirents,spf,rdcl,lsnfat,lsndir,lsndta,fatsz,min xclus sc⟩

end Blub.Stand
