import Blub.Stand.DosFile
import Blub.Stand.Environment

/-! The directories of a FAT file system, from `dosfs.c`: names of entries, and `lookup` of a path component. -/
namespace Blub.Stand
open Blub.Bytes

def tolower (c : UInt8) : UInt8 := if 65 ≤ c ∧ c ≤ 90 then c+32 else c

/-- Whether `strcasecmp` gives 0. -/
def sameName (s t : List UInt8) : Prop := s.map tolower = t.map tolower

instance (s t : List UInt8) : Decidable (sameName s t) := inferInstanceAs (Decidable (_ = _))

/-- The C string at the start of an array of `n` bytes. -/
def cstrOf (n : ℕ) (b : ℕ → UInt8) : List UInt8 := ((List.range n).map b).takeWhile (· ≠ 0)

/-- The fields of an entry that holds a part of a long name. -/
def xdeSeq (e : ℕ → UInt8) : UInt8 := e 0
def xdeChk (e : ℕ → UInt8) : UInt8 := e 13

/-- Where the characters of a long name are in an entry: `name1`, `name2`, `name3`. -/
def xdeChars : List ℕ := [1,3,5,7,9,14,16,18,20,22,24,28,30]

/-- `x & ~0x40`, the number of an entry of a long name. -/
def xdeNum (e : ℕ → UInt8) : ℕ := (xdeSeq e &&& 0xbf).toNat

/-- The loop of `cp_xdnm`: the characters to position `k` on, up to a 0. -/
def cpXdnmLoop (e : ℕ → UInt8) : List ℕ → ℕ → (ℕ → UInt8) → ℕ → UInt8
  | [], k, lfn => if xdeSeq e &&& 0x40 ≠ 0 then Function.update lfn k 0 else lfn
  | o :: os, k, lfn =>
    let c := leGet e o 2
    let c := if c ≠ 0 ∧ (c < 32 ∨ 127 < c) then 0x3f else UInt8.ofNat c
    let lfn := Function.update lfn k c
    if c = 0 then lfn else cpXdnmLoop e os (k+1) lfn

/-- `cp_xdnm`. -/
def cpXdnm (lfn : ℕ → UInt8) (e : ℕ → UInt8) : ℕ → UInt8 := cpXdnmLoop e xdeChars (13*(xdeNum e-1)) lfn

/-- The bytes without blanks at the end. -/
def trimBlanks (s : List UInt8) : List UInt8 := (s.reverse.dropWhile (· = 0x20)).reverse

/-- `cp_sfn`. -/
def cpSfn (e : ℕ → UInt8) : List UInt8 :=
  let ext := if e 8 ≠ 0x20 then 0x2e :: trimBlanks ((List.range 3).map fun i => e (8+i)) else []
  let s := if e 0 ≠ 0x20 then trimBlanks ((List.range 8).map e) ++ ext else []
  match s with
  | [] => []
  | c :: s => (if c = 5 then 0xe5 else c) :: s

/-- The sum over the short name that the entries of a long name hold. -/
def sfnSum (e : ℕ → UInt8) : ℕ :=
  (List.range 11).foldl (fun x i => ((x%2)*128+x/2+(e i).toNat)%256) 0

/-- What is kept from one entry to the next: the number awaited before a short entry, the sum, and the long name. -/
structure LongName where
  xdn : ℕ
  chk : UInt8
  lfn : ℕ → UInt8

/-- An entry is the one looked for, or ends the directory, or the search goes on. -/
inductive EntryResult
  | found (e : ℕ → UInt8)
  | stop
  | more (st : LongName)

/-- Whether a short entry has the name. -/
def entryNamed (name : List UInt8) (e : ℕ → UInt8) (st : LongName) : Prop :=
  (st.xdn = 1 ∧ st.chk.toNat = sfnSum e ∧ sameName name (cstrOf 261 st.lfn)) ∨
    sameName name ((cpSfn e).takeWhile (· ≠ 0))

attribute [local grind =] cpXdnmLoop

instance (name : List UInt8) (e : ℕ → UInt8) (st : LongName) : Decidable (entryNamed name e st) :=
  inferInstanceAs (Decidable (_ ∨ _))

/-- One turn of the loop of `lookup` over the entries of a sector. -/
def lookupEntry (name : List UInt8) (e : ℕ → UInt8) (st : LongName) : EntryResult :=
  if e 0 = 0 then .stop
  else if e 0 = 0xe5 then .more {st with xdn := 0}
  else if deAttr e &&& faMask = faXde then
    let first := xdeSeq e &&& 0x40 ≠ 0
    if first ∨ ((xdeSeq e).toNat+1 = st.xdn ∧ xdeChk e = st.chk) then
      let chk := if first then xdeChk e else st.chk
      if 1 ≤ xdeNum e ∧ xdeNum e ≤ 20 then .more ⟨xdeNum e,chk,cpXdnm st.lfn e⟩
      else .more {st with xdn := 0, chk := chk}
    else .more {st with xdn := 0}
  else if deAttr e &&& faLabel = 0 ∧ entryNamed name e st then .found e
  else .more {st with xdn := 0}

/-- The entries of a run of sectors. -/
def lookupEntries (name : List UInt8) : List (ℕ → UInt8) → LongName → EntryResult
  | [], st => .more st
  | e :: es, st =>
    match lookupEntry name e st with
    | .more st => lookupEntries name es st
    | r => r

/-- The entries of `.` and `..` of the root directory. -/
def dotDe (two : Bool) : ℕ → UInt8 :=
  ofList ([0x2e,if two then 0x2e else 0x20,0x20,0x20,0x20,0x20,0x20,0x20,0x20,0x20,0x20,faDir] ++
    List.replicate 12 0 ++ [0x21,0,0,0,0,0,0,0])

attribute [local grind =] lookupEntries

namespace DosVol
variable (v : DosVol)

/-- The entries in `nsec` sectors from `lsec` on. -/
def dirEntries (lsec nsec : ℕ) : List (ℕ → UInt8) :=
  (List.range (depsec*nsec)).map fun k j => v.ioget ((lsec+k/depsec)%2^32) (32*(k%depsec)+j)

/-- The loop of `lookup` over the clusters. -/
def lookupLoop (name : List UInt8) (nsec : ℕ) : ℕ → ℕ → ℕ → LongName → DosBuf →
    Option (Except ℤ (ℕ → UInt8) × DosBuf)
  | 0, _, _, _, _ => none
  | fuel+1, clus, lsec, st, b =>
    if ¬(clus = 0 ∧ lsec = 0) ∧ ¬v.fs.okclus clus then some (.error einval,b)
    else
      let lsec := if clus = 0 ∧ lsec = 0 then v.fs.lsndir else v.fs.blklsn clus
      match lookupEntries name (v.dirEntries lsec nsec) st with
      | .found e => some (.ok e,b)
      | .stop => some (.error enoent,b)
      | .more st =>
        if clus = 0 then some (.error enoent,b)
        else
          let r := v.fatget clus b
          if fatend v.fs.fatsz r.1 then some (.error enoent,r.2)
          else lookupLoop name nsec fuel r.1 lsec st r.2

/-- The cluster that `lookup` starts at: the root directory of FAT32 has a chain of its own. -/
def lookupStart (clus : ℕ) : ℕ := if clus = 0 ∧ v.fs.fatsz = 32 then v.fs.rdcl else clus

/-- `lookup`. -/
def lookup (fuel clus : ℕ) (name : List UInt8) (b : DosBuf) : Option (Except ℤ (ℕ → UInt8) × DosBuf) :=
  if clus = 0 ∧ sameName name [0x2e] then some (.ok (dotDe false),b)
  else if clus = 0 ∧ sameName name [0x2e,0x2e] then some (.ok (dotDe true),b)
  else
    let clus := v.lookupStart clus
    let nsec := if clus = 0 then entsec v.fs.dirents else v.fs.spc
    v.lookupLoop name nsec fuel clus 0 ⟨0,0,fun _ => 0⟩ b

attribute [local grind =] lookupLoop

end DosVol
end Blub.Stand
