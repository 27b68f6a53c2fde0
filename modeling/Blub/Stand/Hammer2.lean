import Blub.Lib.Trace
import Blub.Stand.Device

/-! Lookups on HAMMER2 volumes, from `hammer2.c` as built for libstand: one static buffer `media` and
one key `saved_base` are shared by all volumes. The layout of the disk structures is a parameter. -/
namespace Blub.Stand
open Blub.Trace Blub.Bytes

/-- `n` bytes from offset `o` on. -/
def window (b : ℕ → UInt8) (o n : ℕ) : ℕ → UInt8 := fun j => if j < n then b (o+j) else 0

theorem window_congr {b b' : ℕ → UInt8} {o o' n : ℕ} (h : ∀ j < n, b (o+j) = b' (o'+j)) : window b o n = window b' o' n := by
  funext j
  rw [window,window]
  split_ifs with hj
  · exact h j hj
  · rfl

inductive BrefType
  | empty
  | inode
  | indirect
  | data
  | volume
  | other (n : ℕ)
  deriving DecidableEq, Repr

/-- `hammer2_blockref_t`, as far as it is used. -/
structure Bref where
  type : BrefType
  key : ℕ
  keybits : ℕ
  dataOff : ℕ
  deriving DecidableEq, Repr

/-- `(hammer2_off_t)-1`. -/
def noBase : ℕ := 2^64-1

def blockoff (b : Bref) : ℕ := b.dataOff/64*64

/-- `1 << (int)(data_off & 0x3f)`, an `int`: the shift takes its count modulo 32. -/
def blockInt (b : Bref) : ℤ := if b.dataOff%32 = 31 then -2^31 else 2^(b.dataOff%32)

/-- The same as a `size_t`. -/
def blocksize (b : Bref) : ℕ := (blockInt b%2^64).toNat

/-- The sizes and fields of `hammer2_disk.h`. An inode has its name and attributes in front, and then a
union of the block set and the data of a small file. The buffer `media` has `mediaBytes`. -/
structure H2Layout where
  mediaBytes : ℕ
  setCount : ℕ
  brefBytes : ℕ
  embeddedBytes : ℕ
  inodeBytes : ℕ
  lbufRadix : ℕ
  filenameOff : ℕ
  brefOf : (ℕ → UInt8) → Bref
  directData : (ℕ → UInt8) → Bool
  nameLen : (ℕ → UInt8) → ℕ
  isDirectory : (ℕ → UInt8) → Bool
  brefBytes_pos : 0 < brefBytes
  embedded_pos : 0 < embeddedBytes
  set_le : embeddedBytes+brefBytes*setCount ≤ inodeBytes
  data_le : embeddedBytes+embeddedBytes ≤ inodeBytes
  inode_ge : 2^9 ≤ inodeBytes
  lbuf_ge : 9 ≤ lbufRadix
  lbuf_le : 2^lbufRadix ≤ mediaBytes
  media_lt : mediaBytes < 2^31

/-- `struct hammer2_fs` and the device it is on. -/
structure H2Volume where
  dev : ℕ → UInt8
  sroot : Bref
  srootBlockset : ℕ → Bref

/-- A device read: its size, whether it worked, the key it found, and the buffer before and after. -/
structure H2Read where
  nbytes : ℕ
  ok : Bool
  savedBase : ℕ
  before : ℕ → UInt8
  after : ℕ → UInt8

/-- The static variables, what becomes of the device reads to come, and the reads of the call. -/
structure H2 where
  media : ℕ → UInt8
  savedBase : ℕ
  io : List Outcome
  log : List H2Read

/-- What `h2lookup` returns: the count, `*bref_ret`, and where in `media` `*pptr` points. -/
structure H2Found where
  rc : ℤ
  bref : Bref
  ptr : Option ℕ

inductive H2Scan
  | failed
  | embedded
  | best (b : Bref)

section Code
variable (L : H2Layout) (v : H2Volume)

def h2read (nbytes off : ℕ) (s : H2) : Bool × H2 :=
  let r := strategy (fun j => v.dev (off/512*512+j)) nbytes (s.io.headD .done) s.media
  let ok : Bool := r.1 = 0 ∧ r.2.1 = nbytes
  (ok,{s with media := r.2.2, io := s.io.tail, log := s.log ++ [⟨nbytes,ok,s.savedBase,s.media,r.2.2⟩]})

/-- The block of `base` is loaded unless the key says that it is there. -/
def h2reload (base : Bref) (s : H2) : Bool × H2 :=
  if base.type ≠ .volume ∧ base.dataOff ≠ s.savedBase then
    let r := h2read v (blocksize base) (blockoff base) s
    if r.1 then (true,{r.2 with savedBase := base.dataOff}) else (false,r.2)
  else (true,s)

/-- The count is an `int`. -/
def scanCount (base : Bref) : ℕ :=
  match base.type with
  | .volume => L.setCount
  | .inode => L.setCount
  | .indirect => (Int.bmod (blocksize base/L.brefBytes : ℕ) (2^32)).toNat
  | _ => 0

/-- The blockref at a place of the scan. -/
def refAt (base : Bref) (media : ℕ → UInt8) (i : ℕ) : Bref :=
  match base.type with
  | .volume => v.srootBlockset i
  | .inode => L.brefOf (window media (L.embeddedBytes+L.brefBytes*i) L.brefBytes)
  | _ => L.brefOf (window media (L.brefBytes*i) L.brefBytes)

def noBest : Bref := ⟨.empty,2^64-1,0,0⟩

/-- `(hammer2_key_t)1 << keybits`. -/
def keySpan (b : Bref) : ℕ := 2^(b.keybits%64)

/-- The start of the range after a block that had nothing. -/
def nextKey (b : Bref) : ℕ := (b.key+keySpan b)%2^64

/-- The lowest blockref within the range so far. -/
def bestStep (keyBeg keyEnd : ℕ) (best bref : Bref) : Bref :=
  if bref.type = .empty then best
  else if best.key < bref.key then best
  else if keyBeg ≤ (bref.key+keySpan bref-1)%2^64 ∧ bref.key ≤ keyEnd then bref
  else best

/-- An inode whose data is in the inode. -/
def isDirect (base : Bref) (media : ℕ → UInt8) : Bool :=
  base.type = .inode ∧ L.directData (window media 0 L.embeddedBytes)

def h2scan (base : Bref) (keyBeg keyEnd : ℕ) : ℕ → ℕ → Bref → H2 → H2Scan × H2
  | 0, _, best, s => (.best best,s)
  | k+1, i, best, s =>
    let r := h2reload v base s
    if r.1 then
      if isDirect L base r.2.media then (.embedded,r.2)
      else h2scan base keyBeg keyEnd k (i+1) (bestStep keyBeg keyEnd best (refAt L v base r.2.media i)) r.2
    else (.failed,r.2)

/-- `dev_bsize`. -/
def devBsize (best : Bref) : ℕ := (max (blockInt best) (2^L.lbufRadix)).toNat

/-- The block of a leaf is read from the start of the buffer it lies in. -/
def h2leaf (best : Bref) (s : H2) : Bool × H2 :=
  let devBoff := blockoff best%2^L.lbufRadix
  let r := h2read v (devBsize L best) (blockoff best-devBoff) s
  if r.1 then (true,{r.2 with savedBase := noBase}) else (false,r.2)

/-- `h2lookup` from a block. A count that is not set on some path is a parameter. -/
def h2lookup (unset : ℤ) : ℕ → Bref → ℕ → ℕ → Bref → H2 → Option (H2Found × H2)
  | 0, _, _, _, _, _ => none
  | fuel+1, base, keyBeg, keyEnd, ret, s =>
    if base.dataOff = noBase then some (⟨-1,ret,none⟩,s)
    else
      match h2scan L v base keyBeg keyEnd (scanCount L base) 0 noBest s with
      | (.failed,s) => some (⟨-1,ret,none⟩,s)
      | (.embedded,s) => some (⟨L.embeddedBytes,{ret with type := .data, key := 0},some L.embeddedBytes⟩,s)
      | (.best best,s) =>
        match best.type with
        | .empty => some (⟨0,ret,none⟩,s)
        | .indirect =>
          match h2lookup unset fuel best keyBeg keyEnd ret s with
          | none => none
          | some (f,s) =>
            if f.rc = 0 then
              if best.key < nextKey best ∧ nextKey best ≤ keyEnd then
                h2lookup unset fuel base (nextKey best) keyEnd f.bref s
              else some (f,s)
            else some (f,s)
        | .inode | .data =>
          let r := h2leaf L v best s
          if r.1 then some (⟨blockInt best,best,some (blockoff best%2^L.lbufRadix)⟩,r.2)
          else some (⟨-1,ret,none⟩,r.2)
        | _ => some (⟨unset,ret,none⟩,s)

/-- `hammer2_dirhash`, over the checksum `iscsi_crc32`. -/
def dirhashSum (icrc32 : List UInt8 → ℕ) : List UInt8 → List UInt8 → ℕ
  | [], part => if part = [] then 0 else icrc32 part
  | c :: name, part =>
    if c = 46 ∨ c = 45 ∨ c = 95 ∨ c = 126 then
      (if part = [] then 0 else icrc32 part)+dirhashSum icrc32 name []
    else dirhashSum icrc32 name (part ++ [c])

def hammer2Dirhash (icrc32 : List UInt8 → ℕ) (name : List UInt8) : ℕ :=
  let crcx := dirhashSum icrc32 name []%2^32 ||| 0x80000000
  let whole := icrc32 name%2^32
  let low := (whole ^^^ whole*2^16%2^32) &&& 0xFFFF0000
  crcx*2^32 ||| low ||| 0x8000

/-- `len == ino->meta.name_len && memcmp(path, ino->filename, len) == 0`. -/
def nameMatch (ino : ℕ → UInt8) (name : List UInt8) : Bool :=
  L.nameLen ino = name.length ∧ ∀ j < name.length, name.getD j 0 = ino (L.filenameOff+j)

/-- What the pointer `ino` shows, `wild` while it is not set. -/
def inodeAt (wild media : ℕ → UInt8) : Option ℕ → ℕ → UInt8
  | some p => window media p L.embeddedBytes
  | none => wild

attribute [local grind =] scanCount refAt h2scan h2lookup dirhashSum

section Resolve
variable (unset : ℤ) (wild : ℕ → UInt8)

/-- The inner loop of `h2resolve`. A count of -1 is not told from a match. -/
def resolveName : ℕ → Bref → List UInt8 → ℕ → Bref → Option ℕ → H2 → Option (ℤ × Bref × Option ℕ × H2)
  | 0, _, _, _, _, _, _ => none
  | fuel+1, dir, name, key, bres, ino, s =>
    match h2lookup L v unset fuel dir key (key ||| 0xFFFF) bres s with
    | none => none
    | some (f,s) =>
      let ino := f.ptr <|> ino
      if f.rc = 0 then some (0,f.bref,ino,s)
      else if nameMatch L (inodeAt L wild s.media ino) name then some (f.rc,f.bref,ino,s)
      else resolveName fuel dir name ((f.bref.key+1)%2^64) f.bref ino s

/-- The outer loop, over the elements of the path: `*bref` and `*inop`. -/
def resolveLoop (hash : List UInt8 → ℕ) : ℕ → List UInt8 → Bref → Bref → Option ℕ → Option ℕ → H2 →
    Option (Bref × Option ℕ × H2)
  | 0, _, _, _, _, _, _ => none
  | fuel+1, path, bref, bres, ino, inop, s =>
    let path := path.dropWhile (· = 47)
    if path = [] then some (bref,inop,s)
    else
      let name := path.takeWhile (· ≠ 47)
      let rest := path.dropWhile (· ≠ 47)
      match resolveName L v unset wild fuel bref name (hash name) bres ino s with
      | none => none
      | some (bytes,bres,ino,s) =>
        if bytes = 0 then some ({bref with dataOff := noBase},inop,s)
        else if rest ≠ [] ∧ ¬L.isDirectory (inodeAt L wild s.media ino) then
          some ({bref with dataOff := noBase},ino,s)
        else resolveLoop hash fuel rest bres bres ino ino s

/-- `h2resolve`, with what `bres` holds before it is set. -/
def h2resolve (icrc32 : List UInt8 → ℕ) (fuel : ℕ) (path : List UInt8) (bres : Bref) (s : H2) : Option (Bref × Option ℕ × H2) :=
  resolveLoop L v unset wild (hammer2Dirhash icrc32) fuel path v.sroot bres none none s

attribute [local grind =] resolveName resolveLoop

end Resolve

/-- How far a record begins before the offset, or after it. -/
def recordBack (off : ℕ) (b : Bref) : ℕ := ((off : ℤ)-Int.bmod b.key (2^64)).toNat
def recordZfill (off : ℕ) (b : Bref) : ℕ := (Int.bmod b.key (2^64)-off).toNat

/-- The size is trimmed in an unsigned comparison. -/
def trim (bytes : ℤ) (len : ℕ) : ℕ := if bytes < 0 ∨ (len : ℤ) < bytes then len else bytes.toNat

/-- An error is reported if nothing was stored before it. -/
def errorTotal (acc : List UInt8) : ℤ := if acc = [] then -1 else acc.length

/-- The loop of `h2readfile`: the total, and what was stored. -/
def readfileLoop (unset : ℤ) : ℕ → Bref → ℕ → ℕ → List UInt8 → Bref → H2 → Option (ℤ × List UInt8 × H2)
  | 0, _, _, _, _, _, _ => none
  | fuel+1, bref, off, len, acc, bres, s =>
    if len = 0 then some (acc.length,acc,s)
    else
      match h2lookup L v unset fuel bref off (off+len-1) bres s with
      | none => none
      | some (f,s) =>
        if f.rc < 0 then some (errorTotal acc,acc,s)
        else if f.rc = 0 then some (acc.length+len,acc ++ List.replicate len 0,s)
        else
          let back := recordBack off f.bref
          let zfill := recordZfill off f.bref
          let count := trim (f.rc-back) (len-zfill)
          let data := (List.range count).map fun j => s.media (f.ptr.getD 0+back+j)
          readfileLoop unset fuel bref (off+zfill+count) (len-zfill-count) (acc ++ List.replicate zfill 0 ++ data) f.bref s

def h2readfile (unset : ℤ) (fuel : ℕ) (bref : Bref) (off filesize len : ℕ) (bres : Bref) (s : H2) :
    Option (ℤ × List UInt8 × H2) :=
  if filesize ≤ off then some (0,[],s)
  else readfileLoop L v unset fuel bref off (min len (filesize-off)) [] bres s

attribute [local grind =] readfileLoop

end Code

section Meaning
variable (L : H2Layout) (v : H2Volume)

/-- The bytes of a block as the device has them. -/
def H2Volume.block (b : Bref) : ℕ → UInt8 := fun j => v.dev (blockoff b+j)

/-- What a volume holds for a range of keys. A leaf of a negative size is an error. Nothing is meant by a
blockref that does not name a block or is of another type. -/
inductive H2Hit
  | nothing
  | found (n : ℕ) (bref : Bref) (data : ℕ → UInt8)
  | error
  | bad

def H2Volume.best (base : Bref) (keyBeg keyEnd : ℕ) : ℕ → ℕ → Bref → Bref
  | 0, _, best => best
  | k+1, i, best =>
    H2Volume.best base keyBeg keyEnd k (i+1) (bestStep keyBeg keyEnd best (refAt L v base (v.block base) i))

/-- The lookup without a buffer. -/
def H2Volume.lookup : ℕ → Bref → ℕ → ℕ → Bref → Option H2Hit
  | 0, _, _, _, _ => none
  | fuel+1, base, keyBeg, keyEnd, ret =>
    if base.dataOff = noBase then some .bad
    else if 0 < scanCount L base ∧ isDirect L base (v.block base) then
      some (.found L.embeddedBytes {ret with type := .data, key := 0} fun j => v.block base (L.embeddedBytes+j))
    else
      let best := v.best L base keyBeg keyEnd (scanCount L base) 0 noBest
      match best.type with
      | .empty => some .nothing
      | .indirect =>
        match H2Volume.lookup fuel best keyBeg keyEnd ret with
        | some .nothing =>
          if best.key < nextKey best ∧ nextKey best ≤ keyEnd then
            H2Volume.lookup fuel base (nextKey best) keyEnd ret
          else some .nothing
        | r => r
      | .inode | .data => if blockInt best < 0 then some .error else some (.found (blocksize best) best (v.block best))
      | _ => some .bad

/-- The entry of a directory, if there is one. -/
def H2Volume.findName : ℕ → Bref → List UInt8 → ℕ → Bref → Option (Option (Bref × (ℕ → UInt8)))
  | 0, _, _, _, _ => none
  | fuel+1, dir, name, key, bres =>
    match v.lookup L fuel dir key (key ||| 0xFFFF) bres with
    | some .nothing => some none
    | some (.found _ b data) =>
      let ino := window data 0 L.embeddedBytes
      if nameMatch L ino name then some (some (b,ino))
      else H2Volume.findName fuel dir name ((b.key+1)%2^64) b
    | _ => none

/-- The blockref a path leads to, and the inode there. -/
def H2Volume.resolve (hash : List UInt8 → ℕ) : ℕ → List UInt8 → Bref → Bref → Option (ℕ → UInt8) →
    Option (Bref × Option (ℕ → UInt8))
  | 0, _, _, _, _ => none
  | fuel+1, path, bref, bres, inop =>
    let path := path.dropWhile (· = 47)
    if path = [] then some (bref,inop)
    else
      let name := path.takeWhile (· ≠ 47)
      let rest := path.dropWhile (· ≠ 47)
      match v.findName L fuel bref name (hash name) bres with
      | none => none
      | some none => some ({bref with dataOff := noBase},inop)
      | some (some (b,ino)) =>
        if rest ≠ [] ∧ ¬L.isDirectory ino then some ({bref with dataOff := noBase},some ino)
        else H2Volume.resolve hash fuel rest b b (some ino)

/-- The bytes of a file, zeros where it has no data. A record that ends before the offset means
nothing. -/
def H2Volume.readfile : ℕ → Bref → ℕ → ℕ → Bref → Option (List UInt8)
  | 0, _, _, _, _ => none
  | fuel+1, bref, off, len, bres =>
    if len = 0 then some []
    else
      match v.lookup L fuel bref off (off+len-1) bres with
      | some .nothing => some (List.replicate len 0)
      | some (.found n b data) =>
        let back := recordBack off b
        let zfill := recordZfill off b
        if n ≤ back then none
        else
          let count := min (n-back) (len-zfill)
          (H2Volume.readfile fuel bref (off+zfill+count) (len-zfill-count) b).map fun rest =>
            List.replicate zfill 0 ++ (List.range count).map (fun j => data (back+j)) ++ rest
      | _ => none

/-- The blockrefs of a volume. -/
inductive H2Volume.Ref : Bref → Prop
  | root : H2Volume.Ref v.sroot
  | set (i : ℕ) : i < L.setCount → H2Volume.Ref (v.srootBlockset i)
  | sub {b : Bref} {i : ℕ} : H2Volume.Ref b → b.type = .inode ∨ b.type = .indirect → i < scanCount L b →
    H2Volume.Ref (refAt L v b (v.block b) i)

/-- Inodes and indirect blocks have at least the size of an inode, and are aligned to their size. -/
structure H2Media extends H2Volume where
  wf : ∀ b, toH2Volume.Ref L b → b.type = .inode ∨ b.type = .indirect → L.inodeBytes ≤ blocksize b ∧ blocksize b ∣ blockoff b

/-- So do the leaves, and their size is a number of an `int`. -/
def H2Volume.LeavesOk : Prop := ∀ b, v.Ref L b → b.type = .inode ∨ b.type = .data →
  L.inodeBytes ≤ blocksize b ∧ blocksize b ∣ blockoff b ∧ blocksize b < 2^31

structure H2Disk extends H2Media L where
  leaves : toH2Volume.LeavesOk L

/-- The buffer has the block the key names, as the device of the volume has it. -/
def H2Holds (s : H2) : Prop :=
  s.savedBase ≠ noBase → ∀ b, b.dataOff = s.savedBase → ∀ j < blocksize b, s.media j = v.block b j

attribute [local grind =] H2Volume.best H2Volume.lookup H2Volume.findName H2Volume.resolve H2Volume.readfile

end Meaning

section Run
variable (L : H2Layout) (vols : ℕ → H2Volume) (unset : ℤ) (wild : ℕ → UInt8) (icrc32 : List UInt8 → ℕ) (fuel : ℕ)

/-- A call on one of the open volumes, with what `bres` holds before it is set. -/
inductive H2Call
  | lookup (vol : ℕ) (base : Option Bref) (keyBeg keyEnd : ℕ) (bres : Bref)
  | resolve (vol : ℕ) (path : List UInt8) (bres : Bref)
  | readfile (vol : ℕ) (bref : Bref) (off filesize len : ℕ) (bres : Bref)

def H2Call.vol : H2Call → ℕ
  | .lookup vol _ _ _ _ => vol
  | .resolve vol _ _ => vol
  | .readfile vol _ _ _ _ _ => vol

def H2Call.isResolve : H2Call → Bool
  | .resolve _ _ _ => true
  | _ => false

/-- The static variables, and the volume of the last call. -/
structure H2State where
  h2 : H2
  last : ℕ

/-- What a call leaves, with the count or the block it returns. -/
def h2call (s : H2) : H2Call → Option (ℤ × List UInt8) × H2
  | .lookup _ none _ _ _ => (some (0,[]),{s with savedBase := noBase})
  | .lookup vol (some base) keyBeg keyEnd bres =>
    match h2lookup L (vols vol) unset fuel base keyBeg keyEnd bres s with
    | none => (none,s)
    | some (f,s) => (some (f.rc,(List.range f.rc.toNat).map fun j => s.media (f.ptr.getD 0+j)),s)
  | .resolve vol path bres =>
    match h2resolve L (vols vol) unset wild icrc32 fuel path bres s with
    | none => (none,s)
    | some (bref,_,s) => (some (bref.dataOff,[]),s)
  | .readfile vol bref off filesize len bres =>
    match h2readfile L (vols vol) unset fuel bref off filesize len bres s with
    | none => (none,s)
    | some (total,data,s) => (some (total,data),s)

def h2step (s : H2State) (c : H2Call) : Option (ℤ × List UInt8) × H2State :=
  let r := h2call L vols unset wild icrc32 fuel {s.h2 with log := []} c
  (r.1,⟨r.2,c.vol⟩)

/-- A lookup that returns what the volume holds. -/
def H2Agrees (f : H2Found) (media : ℕ → UInt8) : H2Hit → Prop
  | .nothing => f.rc = 0
  | .found n b data => f.rc = n ∧ f.bref = b ∧ ∃ p, f.ptr = some p ∧ ∀ j < n, media (p+j) = data j
  | .error => f.rc < 0
  | .bad => True

/-- A call that does not report an error returns what its own device holds. -/
def H2Returns (s : H2) : H2Call → Prop
  | .lookup _ none _ _ _ => True
  | .lookup vol (some base) keyBeg keyEnd bres =>
    ∀ f s', h2lookup L (vols vol) unset fuel base keyBeg keyEnd bres s = some (f,s') → f.rc ≠ -1 →
      ∃ hit, (vols vol).lookup L fuel base keyBeg keyEnd bres = some hit ∧ H2Agrees f s'.media hit
  | .resolve vol path bres =>
    ∀ bref ino s', h2resolve L (vols vol) unset wild icrc32 fuel path bres s = some (bref,ino,s') →
      ∀ b inop, (vols vol).resolve L (hammer2Dirhash icrc32) fuel path (vols vol).sroot bres none = some (b,inop) →
        bref = b ∧ (b.dataOff ≠ noBase → inop = ino.map fun p => window s'.media p L.embeddedBytes)
  | .readfile vol bref off filesize len bres =>
    ∀ total data s', h2readfile L (vols vol) unset fuel bref off filesize len bres s = some (total,data,s') → 0 ≤ total →
      total = data.length ∧ (off < filesize → ∀ bytes,
        (vols vol).readfile L fuel bref off (min len (filesize-off)) bres = some bytes → data <+: bytes)

/-- The same, and the buffer holds the block the key names, on the device of the call. -/
def H2Coherent (s : H2State) (c : H2Call) : Prop :=
  H2Returns L vols unset wild icrc32 fuel {s.h2 with log := []} c ∧
    H2Holds (vols c.vol) (h2step L vols unset wild icrc32 fuel s c).2.h2

/-- A device read that fails leaves the buffer alone, or finds no key. -/
def H2Read.Spares (e : H2Read) : Prop := e.ok = true ∨ e.savedBase = noBase ∨ e.after = e.before

/-- The blockref a call starts from is one of the volume. -/
def H2Base (v : H2Volume) (b : Bref) : Prop := b.type = .inode ∨ b.type = .indirect → v.Ref L b

/-- A path meets no blockref that `h2lookup` has no case for. -/
def H2CallOk : H2Call → Prop
  | .lookup _ none _ _ _ => True
  | .lookup vol (some base) _ _ _ => H2Base L (vols vol) base
  | .resolve vol path bres =>
    (vols vol).resolve L (hammer2Dirhash icrc32) fuel path (vols vol).sroot bres none ≠ none
  | .readfile vol bref _ _ _ _ => H2Base L (vols vol) bref

/-- A key that was left by a call on another device names a block that is the same on both. Device reads
that fail spare the buffer, and in `h2resolve` none fails. -/
def H2Ok (s : H2State) (c : H2Call) : Prop :=
  H2CallOk L vols icrc32 fuel c ∧
    (c.vol = s.last ∨ s.h2.savedBase = noBase ∨ ∀ b, b.dataOff = s.h2.savedBase →
      ∀ j < blocksize b, (vols c.vol).block b j = (vols s.last).block b j) ∧
    ∀ e ∈ (h2step L vols unset wild icrc32 fuel s c).2.h2.log, e.Spares ∧ (c.isResolve = true → e.ok = true)

attribute [local grind =] H2Call.vol h2call H2Agrees H2Returns H2CallOk

end Run

end Blub.Stand
