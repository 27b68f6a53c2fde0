import Blub.Stand.Device
import Blub.Stand.Environment
import Blub.Stand.Tftp

/-! Looking up a file on an ISO 9660 volume, from `cd9660.c`: the fields of the System Use area with their
continuations, the comparison of names, and the search of directories. -/
namespace Blub.Stand
open Blub.Bytes

def isoBlock : ℕ := 2048

/-- The memories that records are read from: the block with the directory record, and the buffer for continuations. -/
inductive IsoArea
  | block
  | cont
  deriving DecidableEq

/-- The volume: the bytes of the device from a sector on, what `isonum_733` makes of its first four bytes, and what
there is in memory outside of the two buffers. -/
structure IsoVolume where
  sector : ℕ → ℕ → UInt8
  num733 : ℕ → ℤ
  around : IsoArea → ℤ → UInt8

/-- The two buffers, and what becomes of the reads to come. -/
structure IsoMem where
  buf : ℕ → UInt8
  susp : ℕ → UInt8
  io : List Outcome

/-- The pointers `p` and `end` of `susp_lookup_record`. -/
structure SuspAt where
  area : IsoArea
  p : ℤ
  fin : ℤ
  deriving DecidableEq

inductive SuspTurn
  | found (m : IsoMem)
  | null (m : IsoMem)
  | next (s : SuspAt) (m : IsoMem)

def suspContinuation : List UInt8 := [67,69]
def suspPresent : List UInt8 := [83,80]
def suspStop : List UInt8 := [83,84]
def suspExtref : List UInt8 := [69,82]
def rripName : List UInt8 := [78,77]

/-- `cdb2devb`, as a `daddr_t`. -/
def cdb2devb (bno : ℤ) : ℕ := (bno*4%2^32).toNat

section Susp
variable (v : IsoVolume)

def IsoMem.byteAt (m : IsoMem) (a : IsoArea) (j : ℤ) : UInt8 :=
  if 0 ≤ j ∧ j < isoBlock then (match a with | .block => m.buf j.toNat | .cont => m.susp j.toNat) else v.around a j

def IsoMem.typeAt (m : IsoMem) (a : IsoArea) (j : ℤ) : List UInt8 := [m.byteAt v a j,m.byteAt v a (j+1)]
def IsoMem.num711 (m : IsoMem) (a : IsoArea) (j : ℤ) : ℕ := (m.byteAt v a j).toNat
def IsoMem.num733 (m : IsoMem) (a : IsoArea) (j : ℤ) : ℤ := v.num733 (leGet (fun i => m.byteAt v a (j+i)) 0 4)

/-- The fields of a directory record. -/
def IsoMem.recLength (m : IsoMem) (dp : ℤ) : ℕ := m.num711 v .block dp
def IsoMem.recNameLen (m : IsoMem) (dp : ℤ) : ℕ := m.num711 v .block (dp+32)

/-- One turn of the loop of `susp_lookup_record`. -/
def suspTurn (ident : List UInt8) (s : SuspAt) (m : IsoMem) : SuspTurn :=
  if s.p+3 < s.fin then
    if m.typeAt v s.area s.p = ident then .found m
    else if m.typeAt v s.area s.p = suspStop then .null m
    else if m.typeAt v s.area s.p = suspContinuation then
      let r := strategy (v.sector (cdb2devb (m.num733 v s.area (s.p+4)))) isoBlock (m.io.headD .done) m.susp
      let m := {m with susp := r.2.2, io := m.io.tail}
      if r.1 ≠ 0 ∨ r.2.1 ≠ isoBlock then .null m
      -- the field may be in the buffer that was read into
      else .next ⟨.cont,m.num733 v s.area (s.p+12),m.num733 v s.area (s.p+12)+m.num733 v s.area (s.p+20)⟩ m
    else .next {s with p := s.p+m.num711 v s.area (s.p+2)} m
  else .null m

/-- The place of the field; no result if the loop does not end. -/
def suspLoop (ident : List UInt8) : ℕ → SuspAt → IsoMem → Option (Option SuspAt × IsoMem)
  | 0, _, _ => none
  | fuel+1, s, m =>
    match suspTurn v ident s m with
    | .found m => some (some s,m)
    | .null m => some (none,m)
    | .next s m => suspLoop ident fuel s m

/-- The System Use area of a record. Names of even length have a padding byte after the name. -/
def suspStart (dp : ℤ) (lenskip : ℕ) (m : IsoMem) : SuspAt :=
  let nameLen := m.recNameLen v dp
  ⟨.block,dp+33+nameLen+lenskip+(if nameLen%2 = 0 then 1 else 0),dp+m.recLength v dp⟩

def suspLookupRecord (ident : List UInt8) (dp : ℤ) (lenskip fuel : ℕ) (m : IsoMem) : Option (Option SuspAt × IsoMem) :=
  suspLoop v ident fuel (suspStart v dp lenskip m) m

def dotName : List UInt8 := [46]

/-- The name of the field at a place: `.` and `..` by flag, none for a name that goes on in another field. A field too
short for a name has a negative length, which counts as none at all. -/
def rripNameAt (m : IsoMem) (s : SuspAt) : Option (List UInt8) :=
  let flags := m.num711 v s.area (s.p+4)
  if flags = 2 then some dotName
  else if flags = 4 then some (dotName ++ dotName)
  else if flags = 0 then
    some ((List.range (m.num711 v s.area (s.p+2)-5)).map fun (j : ℕ) => m.byteAt v s.area (s.p+5+j))
  else none

def rripLookupName (dp : ℤ) (lenskip fuel : ℕ) (m : IsoMem) : Option (Option (List UInt8) × IsoMem) :=
  match suspLookupRecord v rripName dp lenskip fuel m with
  | none => none
  | some (none,m) => some (none,m)
  | some (some s,m) => some (rripNameAt v m s,m)

/-- The value of `rrip_check`, and `lenskip` after it. -/
def rripCheck (dp : ℤ) (lenskip fuel : ℕ) (m : IsoMem) : Option (Bool × ℕ × IsoMem) :=
  let p := dp+33+m.recNameLen v dp
  if dp+m.recLength v dp < p then some (false,lenskip,m)
  else if m.typeAt v .block p ≠ suspPresent ∨ m.num711 v .block (p+2) ≠ 7 ∨
      m.byteAt v .block (p+4) ≠ 0xbe ∨ m.byteAt v .block (p+5) ≠ 0xef then some (false,lenskip,m)
  else
    match suspLookupRecord v suspExtref dp 0 fuel m with
    | none => none
    | some (er,m') => some (er.isSome,m.num711 v .block (p+6),m')

def isoSlash : UInt8 := 47
def isoDot : UInt8 := 46
def isoSemi : UInt8 := 59

def toupper (c : UInt8) : UInt8 := if 97 ≤ c ∧ c ≤ 122 then c-32 else c

/-- What may be left of a name behind the component. -/
def remainder : List UInt8 → Bool
  | [] => true
  | c :: name => c = isoSemi ∨ c = isoDot ∧ (name = [] ∨ name.head? = some isoSemi)

/-- The loop of `dirmatch` and what follows it, on the bytes of the path and of the name. -/
def dirmatchLoop (fold : Bool) : List UInt8 → List UInt8 → Bool
  | path, [] => path = [] ∨ path.head? = some isoSlash
  | [], name => remainder name
  | c :: path, d :: name =>
    if c = isoSlash then remainder (d :: name)
    else if c = d ∨ fold ∧ toupper c = d then dirmatchLoop fold path name
    else false

/-- The name of a record as the directory has it. -/
def isoName (dp : ℤ) (m : IsoMem) : List UInt8 :=
  (List.range (m.recNameLen v dp)).map fun (j : ℕ) => m.byteAt v .block (dp+33+j)

/-- `dirmatch`. Its variable `icase` is 1 for a name of the directory, and case is ignored where it is 0. -/
def dirmatch (path : List UInt8) (dp : ℤ) (useRrip : Bool) (lenskip fuel : ℕ) (m : IsoMem) : Option (Bool × IsoMem) :=
  let r := if useRrip then rripLookupName v dp lenskip fuel m else some (none,m)
  match r with
  | none => none
  | some (some name,m) => some (dirmatchLoop true path name,m)
  | some (none,m) => some (dirmatchLoop false path (isoName v dp m),m)

attribute [local grind =] suspLoop rripLookupName dirmatchLoop dirmatch

end Susp

/-- The variables of the loops of `cd9660_open`. -/
structure IsoScan where
  off : ℕ
  boff : ℕ
  dp : ℕ
  first : Bool
  useRrip : Bool
  lenskip : ℕ
  mem : IsoMem

inductive IsoTurn
  | found (s : IsoScan)
  | failed (e : ℤ) (s : IsoScan)
  | next (s : IsoScan)

section Scan
variable (v : IsoVolume)

/-- A block of the device into the buffer: 0 or the error number. -/
def isoRead (bno : ℕ) (m : IsoMem) : ℤ × IsoMem :=
  let r := strategy (v.sector (cdb2devb bno)) isoBlock (m.io.headD .done) m.buf
  (if r.1 ≠ 0 then r.1 else if r.2.1 ≠ isoBlock then eio else 0,{m with buf := r.2.2, io := m.io.tail})

/-- The record at `dp` is compared; the next one is behind it. -/
def isoRecord (path : List UInt8) (susp : ℕ) (s : IsoScan) : Option IsoTurn :=
  let r := if s.first then rripCheck v s.dp s.lenskip susp s.mem else some (s.useRrip,s.lenskip,s.mem)
  match r with
  | none => none
  | some (useRrip,lenskip,m) =>
    match dirmatch v path s.dp useRrip (if s.first then 0 else lenskip) susp m with
    | none => none
    | some (hit,m) =>
      let s := {s with first := false, useRrip := useRrip, lenskip := lenskip, mem := m}
      if hit then some (.found s)
      else
        let dp := s.dp+m.recLength v s.dp
        -- the length added is that of the next record
        some (.next {s with dp := dp, off := s.off+m.recLength v dp})

/-- At the start of a block it is read. -/
def isoLoad (bno : ℕ) (s : IsoScan) : ℤ × IsoScan :=
  if s.off%isoBlock = 0 then
    let r := isoRead v ((bno+s.boff)%2^32) s.mem
    if r.1 ≠ 0 then (r.1,{s with mem := r.2}) else (0,{s with mem := r.2, boff := s.boff+1, dp := 0})
  else (0,s)

/-- One turn of the loop over the records of a directory. -/
def isoTurn (bno dsize : ℕ) (path : List UInt8) (susp : ℕ) (s : IsoScan) : Option IsoTurn :=
  if s.off < dsize then
    let r := isoLoad v bno s
    let s := r.2
    if r.1 ≠ 0 then some (.failed r.1 s)
    else if s.mem.recLength v s.dp = 0 then some (.next {s with off := s.boff*isoBlock%2^32})
    else isoRecord v path susp s
  else some (.failed enoent s)

/-- The loop: the state in which a record is found, or an error number. -/
def isoScanLoop (bno dsize : ℕ) (path : List UInt8) (susp : ℕ) : ℕ → IsoScan → Option (Except ℤ Unit × IsoScan)
  | 0, _ => none
  | fuel+1, s =>
    match isoTurn v bno dsize path susp s with
    | none => none
    | some (.found s) => some (.ok (),s)
    | some (.failed e s) => some (.error e,s)
    | some (.next s) => isoScanLoop bno dsize path susp fuel s

attribute [local grind =] isoRecord isoScanLoop

end Scan

end Blub.Stand
