import Blub.Boot.Gpt
import Blub.Boot.UfsreadSpec
import Blub.Stand.Direct

/-! Finding a file by its path in boot2: `fsfind` and `boot2_ufs_lookup` of `ufsread.c`. -/
namespace Blub.Boot
open Blub.Bytes Blub.Stand

def rootino : ℕ := 2

/-- The character `'/'`, and `'?'`. -/
def slash : UInt8 := 47
def quest : UInt8 := 63

/-- The variables of `ufsread.c`, and the static buffer of `fsfind`. -/
structure Lookup where
  ufs : Boot2Ufs
  buf : ℕ → UInt8

section Code
variable (fs : Ufs1Super)

/-- The loop over the records in the buffer: the first one with the name. No result if it does not end. -/
def scanBuf (ls : Bool) (name : List UInt8) (buf : ℕ → UInt8) : ℕ → ℕ → Option (Option (ℕ × ℕ))
  | 0, _ => none
  | fuel+1, s =>
    if s < devBsize then
      if !ls && dNamed buf s name then some (some (dType buf s,dIno buf s))
      else scanBuf ls name buf fuel (s+dReclen buf s)
    else some none

/-- The loop of `fsfind`: the value returned and the inode number. -/
def fsfindLoop (ls : Bool) (name : List UInt8) (ino : ℕ) : ℕ → Lookup → Option ((ℕ × ℕ) × Lookup)
  | 0, _ => none
  | fuel+1, s =>
    match boot2UfsRead fs ino devBsize s.ufs with
    | none => none
    | some (none,ufs) => some ((0,ino),⟨ufs,s.buf⟩)
    | some (some data,ufs) =>
      let buf := blit s.buf 0 data.length (ofList data)
      if data.length = 0 then some ((0,ino),⟨ufs,buf⟩)
      else
        match scanBuf ls name buf (devBsize+1) 0 with
        | none => none
        | some (some (type,found)) => some ((type,found),⟨ufs,buf⟩)
        | some none => fsfindLoop ls name ino fuel ⟨ufs,buf⟩

def fsfind (ls : Bool) (name : List UInt8) (ino fuel : ℕ) (s : Lookup) : Option ((ℕ × ℕ) × Lookup) :=
  fsfindLoop fs ls name ino fuel ⟨{s.ufs with fsOff := 0},s.buf⟩

/-- The loop of `boot2_ufs_lookup`: the path that is left, the inode number and its type. -/
def lookupLoop (find : ℕ) : ℕ → List UInt8 → ℕ → ℕ → Lookup → Option (ℕ × Lookup)
  | 0, _, _, _, _ => none
  | fuel+1, path, ino, dt, s =>
    let path := if path.head? = some slash then path.tail else path
    if path = [] then some (if dt = dtReg then ino else 0,s)
    else
      let name := path.takeWhile (· ≠ slash)
      let rest := path.dropWhile (· ≠ slash)
      if name.length > maxnamlen then some (0,s)
      else
        let ls := decide (path.head? = some quest ∧ name.length = 1 ∧ rest = [])
        if dt ≠ dtDir then some (0,s)
        else
          match fsfind fs ls name ino find s with
          | none => none
          | some ((dt,ino),s) =>
            if dt = 0 then some (if dt = dtReg then ino else 0,s)
            else lookupLoop find fuel rest ino dt s

/-- `boot2_ufs_lookup`, with at most `find` reads of a directory. -/
def boot2UfsLookup (find : ℕ) (path : List UInt8) (s : Lookup) : Option (ℕ × Lookup) :=
  lookupLoop fs find (path.length+1) path rootino dtDir s

attribute [local grind =] scanBuf fsfindLoop lookupLoop

end Code

section Meaning

/-- The blocks of a file that the program can name: those before the second indirect block. -/
def Ufs1Super.reach (fs : Ufs1Super) : ℕ := (ndaddr+fs.nindir)*fs.bsize

/-- The chunks of a directory: records that fill 512 bytes each, without a hole. -/
structure DirAt (fs : Ufs1Super) (ino : ℕ) (chunks : List (List Dirent)) : Prop where
  ino_pos : ino ≠ 0
  size : diSize (fs.inode ino) = devBsize*chunks.length
  small : diSize (fs.inode ino) < 2^31
  solid : ∀ o < diSize (fs.inode ino), ∀ a, (fs.file ino).blockAddr (o/fs.bsize) = some a → 0 < a
  single : ndaddr*fs.bsize < diSize (fs.inode ino) → 0 < diIb (fs.inode ino) 0
  records : ∀ k, (hk : k < chunks.length) → Records (fun j => (fs.file ino).byte (devBsize*k+j)) devBsize 0 chunks[k]

/-- A file system with its directories. -/
structure Ufs1Tree extends Ufs1 where
  dir : ℕ → Option (List (List Dirent))
  dirAt : ∀ ino chunks, dir ino = some chunks → DirAt toUfs1Super ino chunks
  root : (dir rootino).isSome
  sub : ∀ ino chunks, dir ino = some chunks → ∀ e ∈ chunks.flatten, e.Live → e.type = dtDir → (dir e.ino).isSome

/-- The live entry of a directory with a name. -/
def liveEntry (l : List Dirent) (name : List UInt8) : Option Dirent := l.find? fun e => e.Live ∧ e.name = name

/-- The chunks that the program can read. -/
def Ufs1Super.readable (fs : Ufs1Super) (chunks : List (List Dirent)) : List (List Dirent) :=
  chunks.take (fs.reach/devBsize)

/-- The components of a path, empty ones ignored. -/
def components (path : List UInt8) : List (List UInt8) := (path.splitOn slash).filter (· ≠ [])

variable (t : Ufs1Tree)

/-- The ordinary walk over the components of a path: the inode number and its type. -/
def Ufs1Tree.walk : ℕ → ℕ → List (List UInt8) → Option (ℕ × ℕ)
  | ino, dt, [] => some (ino,dt)
  | ino, dt, name :: l =>
    if dt = dtDir then
      match t.dir ino with
      | none => none
      | some chunks =>
        match liveEntry chunks.flatten name with
        | none => none
        | some e => Ufs1Tree.walk e.ino e.type l
    else none

/-- A path names a regular file, reached through directories. -/
def Ufs1Tree.Names (path : List UInt8) (ino : ℕ) : Prop := t.walk rootino dtDir (components path) = some (ino,dtReg)

/-- No deleted entry hides what is there by a name: the first readable record with it is the live one. Or there is no
live one, and the first record with the name has no type. -/
def Ufs1Super.Unhidden (fs : Ufs1Super) (chunks : List (List Dirent)) (name : List UInt8) : Prop :=
  match liveEntry chunks.flatten name with
  | some e => ∃ l l', (fs.readable chunks).flatten = l ++ e :: l' ∧ ∀ d ∈ l, d.name ≠ name
  | none => ∀ l d l', (fs.readable chunks).flatten = l ++ d :: l' → (∀ d' ∈ l, d'.name ≠ name) → d.name = name →
    d.type = 0

/-- The components are found in their directories. -/
def Ufs1Tree.Clear : ℕ → List (List UInt8) → Prop
  | _, [] => True
  | ino, name :: l => ∀ chunks, t.dir ino = some chunks →
    t.Unhidden chunks name ∧ ∀ e, liveEntry chunks.flatten name = some e → Ufs1Tree.Clear e.ino l

/-- A path without two slashes in a row that does not end with the component `?`. -/
structure Ufs1Tree.Plain (ino : ℕ) (path : List UInt8) : Prop where
  slashes : ¬ [slash,slash] <:+: path
  last : (path.splitOn slash).getLast? ≠ some [quest]
  clear : t.Clear ino (components path)

attribute [local grind =] Ufs1Tree.walk Ufs1Tree.Clear

end Meaning

end Blub.Boot
