import Blub.Stand.Dosfs
import Blub.Stand.ReadAhead
import Blub.Stand.Tftp

/-! Reading a file of a FAT file system, from `dosfs.c`: sectors and bytes, the links of a cluster chain, `dos_read` and
`dos_seek`. All reads of the device succeed. -/
namespace Blub.Stand
open Blub.Bytes

/-- A mounted volume: what `parsebs` has set, and the bytes of the device. -/
structure DosVol where
  fs : DosFs
  dev : ℕ → UInt8

/-- The buffered sector of the volume, `buf` and `bufsec`. -/
structure DosBuf where
  buf : ℕ → UInt8
  bufsec : ℕ

/-- The fields of a directory entry. -/
def deAttr (de : ℕ → UInt8) : UInt8 := de 11
def deHclus (de : ℕ → UInt8) : ℕ := leGet de 20 2
def deClus (de : ℕ → UInt8) : ℕ := leGet de 26 2
def deSize (de : ℕ → UInt8) : ℕ := leGet de 28 4

def faLabel : UInt8 := 0x08
def faDir : UInt8 := 0x10
def faXde : UInt8 := 0x0f
def faMask : UInt8 := 0x3f

/-- `struct DOS_FILE`, with the directory entry beside it. -/
structure DosFile where
  offset : ℕ
  c : ℕ
  deriving DecidableEq

/-- `fatend`. -/
def fatend (sz c : ℕ) : Prop := (if sz = 12 then 0xff7 else if sz = 16 then 0xfff7 else 0xffffff7) < c

instance (sz c : ℕ) : Decidable (fatend sz c) := inferInstanceAs (Decidable (_ < _))

/-- `stclus`. -/
def stclus (sz : ℕ) (de : ℕ → UInt8) : ℕ := if sz ≠ 32 then deClus de else deHclus de*2^16+deClus de

namespace DosVol
variable (v : DosVol)

/-- The bytes from a sector on: `ioget`. -/
def ioget (lsec : ℕ) : ℕ → UInt8 := fun j => v.dev (secsiz*lsec+j)

def iobuf (lsec : ℕ) (b : DosBuf) : DosBuf := if b.bufsec ≠ lsec then ⟨v.ioget lsec,lsec⟩ else b

/-- The first part of `ioread`, up to the end of a sector: the bytes, and the offset and the size that are left. -/
def ioreadHead (offset nbyte : ℕ) (b : DosBuf) : List UInt8 × ℕ × ℕ × DosBuf :=
  let off := offset%secsiz
  if off ≠ 0 then
    let b := v.iobuf (bytsec (offset-off)) b
    let n := min (secsiz-off) nbyte
    ((List.range n).map fun j => b.buf (off+j),(offset-off+secsiz)%2^32,nbyte-n,b)
  else ([],offset,nbyte,b)

/-- The last part of `ioread`. -/
def ioreadTail (offset n : ℕ) (b : DosBuf) : List UInt8 × DosBuf :=
  if n ≠ 0 then
    let b := v.iobuf (bytsec offset) b
    ((List.range n).map b.buf,b)
  else ([],b)

/-- `ioread`. -/
def ioread (offset nbyte : ℕ) (b : DosBuf) : List UInt8 × DosBuf :=
  let (head,offset,nbyte,b) := v.ioreadHead offset nbyte b
  let n := nbyte%secsiz
  let nbyte := nbyte-n
  let body := (List.range nbyte).map (v.ioget (bytsec offset))
  let r := v.ioreadTail ((offset+nbyte)%2^32) n b
  (head ++ body ++ r.1,r.2)

/-- `fatget`. -/
def fatget (c : ℕ) (b : DosBuf) : ℕ × DosBuf :=
  let r := v.ioread (v.fs.fatAt c) v.fs.entrySize b
  let x := leGet (ofList r.1) 0 v.fs.entrySize
  (if v.fs.fatsz = 12 then (if c%2 = 1 then x/16 else x%0x1000) else x,r.2)

/-- The loop of `fatcnt`: -1 where the chain does not end with a mark. -/
def fatcntLoop : ℕ → ℕ → ℕ → DosBuf → Option (ℤ × DosBuf)
  | 0, _, _, _ => none
  | fuel+1, c, n, b =>
    if v.fs.okclus c then
      let r := v.fatget c b
      fatcntLoop fuel r.1 (n+1) r.2
    else some (if fatend v.fs.fatsz c then n else -1,b)

def fatcnt (fuel c : ℕ) (b : DosBuf) : Option (ℤ × DosBuf) := v.fatcntLoop fuel c 0 b

/-- `fsize`. The count of clusters is an `int`. -/
def fsize (fuel : ℕ) (de : ℕ → UInt8) (b : DosBuf) : Option (ℤ × DosBuf) :=
  if deSize de = 0 ∧ deAttr de &&& faDir ≠ 0 then
    if deClus de = 0 then some (v.fs.dirents*32,b)
    else
      match v.fatcnt fuel (deClus de) b with
      | none => none
      | some (n,b) => some (if n = -1 then -1 else Int.bmod (n*2^v.fs.bshift) (2^32),b)
  else some (deSize de,b)

/-- The loop of `dos_read` along the chain. No cluster is an `EINVAL`. -/
def chase : ℕ → ℕ → DosBuf → Option ℕ × DosBuf
  | 0, c, b => (some c,b)
  | n+1, c, b =>
    let r := v.fatget c b
    if v.fs.okclus r.1 then chase n r.1 r.2 else (none,r.2)

/-- The cluster to go on from, and the links to follow. -/
def links (clus off : ℕ) (f : DosFile) (c : ℕ) : ℕ × ℕ :=
  if c = 0 then (clus,if clus ≠ 0 then v.fs.bytblk f.offset else 0) else (c,if off = 0 then 1 else 0)

/-- What `dos_read` leaves: `errno`, what was stored, and the count that remains, where it is set. -/
structure ReadResult where
  errno : ℤ
  data : List UInt8
  resid : Option ℕ
  deriving DecidableEq

/-- The loop of `dos_read` over the clusters; the last number is `cnt`. -/
def readLoop (clus : ℕ) : ℕ → ℕ → ℕ → ℕ → DosFile → List UInt8 → DosBuf →
    Option (ℤ × ℕ × List UInt8 × DosFile × DosBuf)
  | 0, _, _, _, _, _, _ => none
  | fuel+1, c, off, cnt, f, data, b =>
    if cnt = 0 then some (0,cnt,data,f,b)
    else
      let p := v.links clus off f c
      match v.chase p.2 p.1 b with
      | (none,b) => some (einval,cnt,data,f,b)
      | (some c,b) =>
        let n := if clus = 0 ∨ cnt < v.fs.bsize-off then cnt else v.fs.bsize-off
        let start := (if c ≠ 0 then v.fs.blkoff c else secbyt v.fs.lsndir)
        let r := v.ioread ((start+off)%2^32) n b
        readLoop clus fuel c 0 (cnt-n) ⟨(f.offset+n)%2^32,c⟩ (data ++ r.1) r.2

/-- `dos_read`. No result: a loop that does not end in `fuel` turns. -/
def dosRead (fuel : ℕ) (de : ℕ → UInt8) (nbyte : ℕ) (f : DosFile) (b : DosBuf) :
    Option (ReadResult × DosFile × DosBuf) :=
  match v.fsize fuel de b with
  | none => none
  | some (size,b) =>
    if size = -1 then some (⟨einval,[],none⟩,f,b)
    else
      let nb := min (nbyte%2^32) ((size-f.offset)%2^32).toNat
      let clus := stclus v.fs.fatsz de
      let off := if clus ≠ 0 then f.offset%v.fs.bsize else f.offset
      match v.readLoop clus fuel f.c off nb f [] b with
      | none => none
      | some (errno,cnt,data,f,b) => some (⟨errno,data,some (nbyte-nb+cnt)⟩,f,b)

/-- `dos_seek`; -1 is `EINVAL`. -/
def dosSeek (de : ℕ → UInt8) (offset : ℤ) (whence : Whence) (f : DosFile) : ℤ × DosFile :=
  let start : ℤ := match whence with
    | .set => 0
    | .cur => f.offset
    | .end => deSize de
  let off := start+offset
  if off < 0 ∨ (deSize de : ℤ) < off then (-1,f) else (off,⟨off.toNat,0⟩)

attribute [local grind =] fatcntLoop chase readLoop dosRead dosSeek

end DosVol
end Blub.Stand
