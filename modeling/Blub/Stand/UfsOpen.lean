import Blub.Boot.Fsfind
import Blub.Stand.Environment
import Blub.Stand.UfsRead

/-! Opening a file of a UFS1 file system by its path, from `ufs.c`: `read_inode`, `search_directory` and `ufs_open`. -/
namespace Blub.Stand
open Blub.Bytes
open Blub.Boot (Ufs1Super diSize diDb diIb slash rootino components)

def enotdir : ℤ := 20

def ifmt : ℕ := 0xF000
def ifdir : ℕ := 0x4000
def iflnk : ℕ := 0xA000

def maxpathlen : ℕ := 1024
def maxsymlinks : ℕ := 32

def sbsize : ℕ := 8192
def maxbsize : ℕ := 65536

/-- `sizeof(struct fs)`. -/
def fsBytes : ℕ := 1376
def fsMagic : ℕ := 0x011954

/-- The super block, and the bytes of the device. Without links in inodes the directories are of the old format. -/
structure UfsVolume extends Ufs1Super where
  magic : ℕ
  maxsymlinklen : ℤ

def diMode (di : ℕ → UInt8) : ℕ := leGet di 0 2

/-- An inode of a block of inodes. -/
def dinodeOf (buf : ℕ → UInt8) (i : ℕ) : ℕ → UInt8 := fun j => if j < 128 then buf (128*i+j) else 0

/-- What changes of `struct file`: the inode, and the rest. -/
structure UfsHandle where
  di : ℕ → UInt8
  fp : UfsFile

/-- The variables of `ufs_open`: the path that is left is in `path` or in `namebuf`. -/
structure UfsOpening where
  handle : UfsHandle
  inumber : ℕ
  nlinks : ℕ
  namebuf : ℕ → UInt8
  buf : ℕ → UInt8
  io : List Outcome

/-- The error number, or memory that is not `namebuf` was stored to. -/
inductive UfsOpened
  | done (rc : ℤ) (s : UfsOpening)
  | wild

/-- What a turn of the loop comes to: the end, or the path that is left. -/
inductive UfsTurn
  | stop (out : UfsOpened)
  | next (cp : List UInt8) (s : UfsOpening)

section Code
variable (fs : UfsVolume)

/-- The file of an inode. -/
def UfsVolume.opened (di : ℕ → UInt8) : UfsDisk where
  dev := fs.sector
  bshift := fs.bshift
  fshift := fs.fshift
  fsbtodb := fs.fsbtodb
  diSize := diSize di
  diDb := diDb di
  diIb := diIb di

/-- `read_inode`, by way of a buffer of its own. -/
def readInode (inumber : ℕ) (h : UfsHandle) (io : List Outcome) : ℤ × UfsHandle × List Outcome :=
  let r := strategy (fs.sector (fs.toDb (fs.inoToFsba inumber))) fs.bsize (io.headD .done) fun _ => 0
  if r.1 ≠ 0 then (r.1,h,io.tail)
  else if r.2.1 ≠ fs.bsize then (eio,h,io.tail)
  else (0,⟨dinodeOf r.2.2 (fs.inoToFsbo inumber),{h.fp with seekp := 0, blkno := fun _ => -1, bufBlkno := -1}⟩,io.tail)

/-- The loop over the records in the buffer: the inode number of the first one with the name. No result if it does not
end. -/
def searchBlock (name : List UInt8) (buf : ℕ → UInt8) (edp : ℕ) : ℕ → ℕ → Option (Option ℕ)
  | 0, _ => none
  | fuel+1, dp =>
    if dp < edp then
      if dIno buf dp = 0 then searchBlock name buf edp fuel (dp+dReclen buf dp)
      else if dType buf dp = dtWht then searchBlock name buf edp fuel (dp+dReclen buf dp)
      else
        let namlen := if fs.maxsymlinklen ≤ 0 then dType buf dp else dNamlen buf dp
        if namlen = name.length ∧ dNamed buf dp name then some (some (dIno buf dp))
        else searchBlock name buf edp fuel (dp+dReclen buf dp)
    else some none

/-- The loop of `search_directory`: the inode number or an error number. -/
def searchLoop (name : List UInt8) : ℕ → UfsHandle → List Outcome → Option (Except ℤ ℕ × UfsHandle × List Outcome)
  | 0, _, _ => none
  | fuel+1, h, io =>
    -- the comparison is unsigned
    if (diSize h.di : ℤ) ≤ h.fp.seekp%2^64 then some (.error enoent,h,io)
    else
      let r := bufFill (fs.opened h.di) h.fp io
      if r.1 ≠ 0 then some (.error r.1,⟨h.di,r.2.1⟩,r.2.2)
      else
        let buf := blkoff (fs.opened h.di) h.fp.seekp
        let bufSize := bufAvail (fs.opened h.di) h.fp.seekp
        match searchBlock fs name r.2.1.buf (buf+bufSize) (bufSize+1) buf with
        | none => none
        | some (some ino) => some (.ok ino,⟨h.di,r.2.1⟩,r.2.2)
        | some none => searchLoop name fuel ⟨h.di,{r.2.1 with seekp := h.fp.seekp+bufSize}⟩ r.2.2

def searchDirectory (name : List UInt8) (fuel : ℕ) (h : UfsHandle) (io : List Outcome) :
    Option (Except ℤ ℕ × UfsHandle × List Outcome) :=
  searchLoop fs name fuel ⟨h.di,{h.fp with seekp := 0}⟩ io

/-- The bytes of a symbolic link: in the inode, or in its first block. The size read is not looked at. -/
def readLink (linkLen : ℤ) (s : UfsOpening) : Except ℤ (ℕ → UInt8) × UfsOpening :=
  if linkLen < fs.maxsymlinklen then (.ok fun j => s.handle.di (40+j),s)
  else
    match blockMap (fs.opened s.handle.di) 0 s.handle.fp s.io with
    | (.error e,fp,io) => (.error e,{s with handle := ⟨s.handle.di,fp⟩, io := io})
    | (.ok b,fp,io) =>
      let r := strategy ((fs.opened s.handle.di).diskBlock b) fs.bsize (io.headD .done) s.buf
      let s := {s with handle := ⟨s.handle.di,fp⟩, io := io.tail, buf := r.2.2}
      if r.1 ≠ 0 then (.error r.1,s) else (.ok s.buf,s)

/-- The path that is left is moved behind the place of the link, and then the link is stored there. -/
def linkPath (namebuf : ℕ → UInt8) (link : ℕ → UInt8) (linkLen : ℕ) (cp : List UInt8) : ℕ → UInt8 :=
  blit (blit namebuf linkLen (cp.length+1) (ofList (cp ++ [0]))) 0 linkLen link

/-- The string at the start of `namebuf`. -/
def namebufStr (namebuf : ℕ → UInt8) : List UInt8 := ((List.range (maxpathlen+1)).map namebuf).takeWhile (· ≠ 0)

/-- A symbolic link is put in the place of its name in the path, and the walk goes on at its directory or at the root. -/
def followLink (parent : ℕ) (cp : List UInt8) (s : UfsOpening) : UfsTurn :=
  let linkLen := Int.bmod (diSize s.handle.di) (2^32)
  if maxpathlen < Int.bmod (linkLen+cp.length) (2^32) ∨ maxsymlinks < s.nlinks+1 then .stop (.done enoent s)
  else if linkLen < 0 ∨ maxpathlen < linkLen+cp.length then .stop .wild
  else
    match readLink fs linkLen {s with nlinks := s.nlinks+1} with
    | (.error e,s) => .stop (.done e s)
    | (.ok link,s) =>
      let namebuf := linkPath s.namebuf link linkLen.toNat cp
      let inumber := if namebuf 0 ≠ slash then parent else rootino
      let r := readInode fs inumber s.handle s.io
      let s := {s with handle := r.2.1, io := r.2.2, inumber := inumber, namebuf := namebuf}
      if r.1 ≠ 0 then .stop (.done r.1 s) else .next (namebufStr namebuf) s

/-- One turn of the loop of `ufs_open`: one component of the path that is left. No result if the search of the directory
has none. -/
def openComponent (find : ℕ) (cp : List UInt8) (s : UfsOpening) : Option UfsTurn :=
  let cp := cp.dropWhile (· = slash)
  if cp = [] then some (.stop (.done 0 {s with handle := ⟨s.handle.di,{s.handle.fp with seekp := 0}⟩}))
  else if diMode s.handle.di &&& ifmt ≠ ifdir then some (.stop (.done enotdir s))
  else
    let ncp := cp.takeWhile (· ≠ slash)
    let cp := cp.dropWhile (· ≠ slash)
    if maxnamlen < ncp.length then some (.stop (.done enoent s))
    else
      match searchDirectory fs ncp find s.handle s.io with
      | none => none
      | some (.error e,h,io) => some (.stop (.done e {s with handle := h, io := io}))
      | some (.ok inumber,h,io) =>
        let parent := s.inumber
        let r := readInode fs inumber h io
        let s := {s with handle := r.2.1, io := r.2.2, inumber := inumber}
        if r.1 ≠ 0 then some (.stop (.done r.1 s))
        else if diMode s.handle.di &&& ifmt = iflnk then some (followLink fs parent cp s)
        else some (.next cp s)

def ufsOpenLoop (find : ℕ) : ℕ → List UInt8 → UfsOpening → Option UfsOpened
  | 0, _, _ => none
  | fuel+1, cp, s =>
    match openComponent fs find cp s with
    | none => none
    | some (.stop out) => some out
    | some (.next cp s) => ufsOpenLoop find fuel cp s

/-- The file structure as it is allocated: all bytes are 0. -/
def ufsHandle₀ : UfsHandle := ⟨fun _ => 0,⟨0,fun _ _ => 0,fun _ => 0,fun _ => 0,0⟩⟩

/-- `ufs_open`, with what `namebuf` and the buffer for links hold before they are set. -/
def ufsOpen (find fuel : ℕ) (upath : List UInt8) (namebuf buf : ℕ → UInt8) (io : List Outcome) : Option UfsOpened :=
  let s : UfsOpening := ⟨ufsHandle₀,rootino,0,namebuf,buf,io.tail⟩
  let r := strategy (fun _ => 0) sbsize (io.headD .done) fun _ => 0
  if r.1 ≠ 0 then some (.done r.1 s)
  else if r.2.1 ≠ sbsize ∨ fs.magic ≠ fsMagic ∨ maxbsize < fs.bsize ∨ fs.bsize < fsBytes then some (.done einval s)
  else
    let r := readInode fs rootino s.handle s.io
    let s := {s with handle := r.2.1, io := r.2.2}
    if r.1 ≠ 0 then some (.done r.1 s) else ufsOpenLoop fs find fuel upath s

attribute [local grind =] searchBlock searchLoop openComponent ufsOpenLoop

end Code

end Blub.Stand
