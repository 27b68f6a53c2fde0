import Blub.Gpt.Layout

/-! The GPT code of `gptboot`, from `boot/common/gpt.c`. A call yields `none` where the source would
read or write outside of one of its objects. -/
namespace Blub.Boot
open Blub.Bytes Blub.Gpt

def devBsize : ℕ := 512

def maxTblents : ℕ := 128

/-- The bytes of `table_primary` and of `table_backup`. -/
def tableBytes : ℕ := maxTblents*entStructSize

/-- A drive of 512-byte sectors, as the BIOS shows it. Byte counts fit in 64 bits. -/
structure Drive where
  sectors : ℕ
  byte : ℕ → UInt8
  readOk : ℕ → Bool
  writeOk : ℕ → Bool
  drvsize : ℕ
  fits : sectors ≤ 2^55

theorem Drive.three_fits : 3 ≤ 2^55 := by norm_num

def Drive.drvread (d : Drive) (lba : ℕ) : Option (ℕ → UInt8) :=
  if lba < d.sectors ∧ d.readOk lba then some (fun j => d.byte (lba*devBsize+j)) else none

def Drive.drvwrite (d : Drive) (lba : ℕ) (sec : ℕ → UInt8) : Option Drive :=
  if lba < d.sectors ∧ d.writeOk lba then
    some {d with byte := blit d.byte (lba*devBsize) devBsize sec}
  else none

/-- A header, its table, and its place on the drive or `0` while it is not known to be valid. -/
structure Copy where
  hdr : ℕ → UInt8
  table : ℕ → UInt8
  lba : ℕ

inductive Which
  | primary
  | backup
  deriving DecidableEq, Repr

/-- The static variables, `gpthdr` and `gpttable` as the copy both point into, the drive, and
the fields of `struct dsk` that are assigned. -/
structure GptBoot where
  copy : Which → Copy
  gpt : Option Which
  curent : ℤ
  bootonce : Bool
  drive : Drive
  part : ℤ
  start : ℕ

/-- The static variables as the program starts. -/
def freshBoot (d : Drive) : GptBoot := ⟨fun _ => ⟨fun _ => 0,fun _ => 0,0⟩,none,0,false,d,-1,0⟩

def GptBoot.setCopy (s : GptBoot) (c : Which) (k : Copy) : GptBoot :=
  {s with copy := Function.update s.copy c k}

def daddrT (n : ℕ) : ℤ := Int.bmod n (2^64)

/-- Recompute both checksums and write the header, padded with zeros. -/
def rewriteHdr (k : Copy) (d : Drive) : Option (Copy × Drive) :=
  let n := hdrEntries k.hdr*hdrEntsz k.hdr%2^32
  if tableBytes < n ∨ hdrStructSize < hdrSize k.hdr then none
  else
    let hdr := sealHdr k.hdr (crc32 k.table n)
    let secbuf := blit (fun _ => 0) 0 (hdrSize hdr) hdr
    some ({k with hdr := hdr},(d.drvwrite (hdrLbaSelf hdr) secbuf).getD d)

/-- `gptupdate`, for the entry with index `curent`. -/
def gptupdate (k : Copy) (d : Drive) (curent : ℕ) : Option (Copy × Drive) :=
  let entriesPerSec := devBsize/hdrEntsz k.hdr
  let slba := curent/entriesPerSec
  let firstent := slba*entriesPerSec
  if tableBytes < firstent*entStructSize+devBsize then none
  else
    match d.drvwrite ((slba+hdrLbaTable k.hdr)%2^64) (fun j => k.table (firstent*entStructSize+j)) with
    | none => some (k,d)
    | some d' => rewriteHdr k d'

/-- Change the attributes of entry `curent` in one copy, if that copy is valid. -/
def changeAttr (f : BitVec 64 → BitVec 64) (s : GptBoot) (c : Which) : Option GptBoot :=
  let k := s.copy c
  let i := s.curent.toNat
  if 0 < k.lba then do
    let table := setEntAttr k.table (i*entStructSize) (f (entAttr k.table (i*entStructSize)))
    let (k',d') ← gptupdate {k with table := table} s.drive i
    return {s.setCopy c k' with drive := d'}
  else some s

def changeBoth (f : BitVec 64 → BitVec 64) (s : GptBoot) : Option GptBoot := do
  changeAttr f (← changeAttr f s .primary) .backup

def clearBootme (a : BitVec 64) : BitVec 64 := a &&& ~~~attrBootme

def failBootonce (a : BitVec 64) : BitVec 64 := (a &&& ~~~attrBootonce) ||| attrBootfailed

section Find
variable (t : ℕ → UInt8) (uuid : ℕ)

def isType (i : ℕ) : Bool := entType t (i*entStructSize) = uuid

def isBootme (i : ℕ) : Bool := entAttr t (i*entStructSize) &&& attrBootme ≠ 0

def isBootonce (i : ℕ) : Bool := entAttr t (i*entStructSize) &&& attrBootonce ≠ 0

end Find

/-- The first of `k` indices from `i` on that meets `p`. -/
def scan (p : ℕ → Bool) : ℕ → ℕ → Option ℕ
  | 0, _ => none
  | k+1, i => if p i then some i else scan p k (i+1)

def GptBoot.select (s : GptBoot) (g : Which) (i : ℕ) : GptBoot :=
  {s with curent := i, part := i+1, start := entLbaStart (s.copy g).table (i*entStructSize)}

/-- The label `found` of `gptfind`. -/
def gptfound (s : GptBoot) (g : Which) (i : ℕ) : Option (ℤ × GptBoot) :=
  let s₁ := s.select g i
  if isBootonce (s.copy g).table i then do return (0,← changeBoth clearBootme s₁) else some (0,s₁)

/-- The search of `gptfind` for any partition; `n` is the number of entries. -/
def gptsearch (uuid : ℕ) (s : GptBoot) (g : Which) (n : ℕ) : Option (ℤ × GptBoot) :=
  let t := (s.copy g).table
  let firsttry := s.curent = -1
  let cur := (s.curent+1).toNat
  if n ≤ cur then some (-1,{s with curent := n})
  else
    let once := if s.bootonce then
      scan (fun i => isType t uuid i && isBootme t i && isBootonce t i) (n-cur) cur else none
    match once with
    | some i => gptfound s g i
    | none =>
      let cur := if s.bootonce then 0 else cur
      let s := {s with bootonce := false}
      match scan (fun i => isType t uuid i && isBootme t i && !isBootonce t i) (n-cur) cur with
      | some i => gptfound s g i
      | none =>
        match if firsttry then scan (isType t uuid) n 0 else none with
        | some i => gptfound s g i
        | none => some (-1,{s with curent := n})

/-- A count above `MAXTBLENTS` can only stand in a header that a later `gptread` has rejected. -/
def gptfind (uuid : ℕ) (s : GptBoot) (part : ℤ) : Option (ℤ × GptBoot) := do
  let g ← s.gpt
  let n := hdrEntries (s.copy g).hdr
  if maxTblents < n then none
  else if 0 ≤ part then
    if part = 0 ∨ (n : ℤ) < part then some (-1,s)
    else if isType (s.copy g).table uuid (part-1).toNat then gptfound s g (part-1).toNat
    else some (-1,s)
  else gptsearch uuid s g n

def gptbootfailed (s : GptBoot) : Option GptBoot := do
  let g ← s.gpt
  if s.curent < 0 ∨ (maxTblents : ℤ) ≤ s.curent then none
  else if isBootonce (s.copy g).table s.curent.toNat then changeBoth failBootonce s
  else some s

/-- The header checks that come before its checksum. -/
def hdrAccepted (hdr : ℕ → UInt8) (hdrlba : ℕ) : Prop :=
  hdrSig hdr = gptHdrSig ∧ hdrLbaSelf hdr = hdrlba ∧ 0x00010000 ≤ hdrRevision hdr ∧
    entStructSize ≤ hdrEntsz hdr ∧ hdrEntries hdr ≤ maxTblents ∧ devBsize%hdrEntsz hdr = 0

attribute [local grind =] scan gptsearch

instance (hdr : ℕ → UInt8) (hdrlba : ℕ) : Decidable (hdrAccepted hdr hdrlba) :=
  inferInstanceAs (Decidable (_ ∧ _))

/-- Whether the header at `hdrlba` is valid, and what is left in `hdr`. -/
def gptreadHdr (d : Drive) (hdr : ℕ → UInt8) (hdrlba : ℕ) : Option (Bool × (ℕ → UInt8)) :=
  match d.drvread hdrlba with
  | none => some (false,hdr)
  | some secbuf =>
    let hdr := blit hdr 0 hdrStructSize secbuf
    if ¬ hdrAccepted hdr hdrlba then some (false,hdr)
    else if hdrStructSize < hdrSize hdr then none
    else if hdrCrc hdr ≠ hdrCrcSelf hdr then some (false,setCrcSelf hdr 0)
    else some (true,setCrcSelf (setCrcSelf hdr 0) (hdrCrcSelf hdr))

/-- Copy up to `k` entries of a sector, from entry `part` of it, to the table from `nent` on. -/
def copyEntries (secbuf : ℕ → UInt8) (entries : ℕ) : ℕ → ℕ → ℕ → (ℕ → UInt8) → ℕ × (ℕ → UInt8)
  | 0, _, nent, table => (nent,table)
  | k+1, part, nent, table =>
    let table := blit table (nent*entStructSize) entStructSize
      (fun j => secbuf (part*entStructSize+j))
    if entries ≤ nent+1 then (nent+1,table) else copyEntries secbuf entries k (part+1) (nent+1) table

/-- The sector loop of `gptread_table`: `none` inside when a sector cannot be read. Every sector
brings at least one entry, which bounds the loop. -/
def tableLoop (d : Drive) (entries entriesPerSec : ℕ) :
    ℕ → ℕ → ℕ → (ℕ → UInt8) → Option ℕ × (ℕ → UInt8)
  | 0, _, _, table => (none,table)
  | fuel+1, slba, nent, table =>
    match d.drvread slba with
    | none => (none,table)
    | some secbuf =>
      let (nent,table) := copyEntries secbuf entries entriesPerSec 0 nent table
      if entries ≤ nent then (some nent,table)
      else tableLoop d entries entriesPerSec fuel ((slba+1)%2^64) nent table

def gptreadTable (d : Drive) (hdr table : ℕ → UInt8) : Option (Bool × (ℕ → UInt8)) :=
  if hdrEntries hdr = 0 then some (true,table)
  else
    match tableLoop d (hdrEntries hdr) (devBsize/hdrEntsz hdr) (hdrEntries hdr) (hdrLbaTable hdr) 0
      table with
    | (none,table) => some (false,table)
    | (some nent,table) =>
      if tableBytes < nent*hdrEntsz hdr then none
      else some (crc32 table (nent*hdrEntsz hdr) = hdrCrcTable hdr,table)

def onlyBootonce (a : BitVec 64) : Bool :=
  a &&& (attrBootme ||| attrBootonce ||| attrBootfailed) = attrBootonce

def convEntry (r : (ℕ → UInt8) × Bool) (i : ℕ) : (ℕ → UInt8) × Bool :=
  let a := entAttr r.1 (i*entStructSize)
  if onlyBootonce a then (setEntAttr r.1 (i*entStructSize) (failBootonce a),true) else r

/-- The sector loop of `gptbootconv` over `k` sectors. -/
def convLoop (entriesPerSec : ℕ) : ℕ → ℕ → ℕ → (ℕ → UInt8) → Bool → Drive →
    Option ((ℕ → UInt8) × Bool × Drive)
  | 0, _, _, table, updated, d => some (table,updated,d)
  | k+1, slba, nent, table, updated, d =>
    let (table,sectorUpdated) := (List.range entriesPerSec).foldl
      (fun r part => convEntry r (nent+part)) (table,false)
    if sectorUpdated then
      if tableBytes < nent*entStructSize+devBsize then none
      else
        convLoop entriesPerSec k ((slba+1)%2^64) (nent+entriesPerSec) table true
          ((d.drvwrite slba (fun j => table (nent*entStructSize+j))).getD d)
    else convLoop entriesPerSec k ((slba+1)%2^64) (nent+entriesPerSec) table updated d

/-- The sectors `slba` runs through are counted as `daddr_t`, which is signed. -/
def gptbootconv (k : Copy) (d : Drive) : Option (Copy × Drive) := do
  let entriesPerSec := devBsize/hdrEntsz k.hdr
  let lba := hdrLbaTable k.hdr
  let sectors := (daddrT (lba+hdrEntries k.hdr/entriesPerSec)-daddrT lba).toNat
  let (table,updated,d) ← convLoop entriesPerSec sectors lba 0 k.table false d
  if updated then rewriteHdr {k with table := table} d else some ({k with table := table},d)

/-- Read one copy: whether header and table are valid, and the memory it leaves. -/
def readCopy (d : Drive) (k : Copy) (lba : ℕ) : Option (Bool × Copy) := do
  let (ok,hdr) ← gptreadHdr d k.hdr lba
  if ok then do
    let (ok,table) ← gptreadTable d hdr k.table
    return (ok,⟨hdr,table,if ok then hdrLbaSelf hdr else 0⟩)
  else return (false,{k with hdr := hdr, lba := 0})

def convCopy (s : GptBoot) (c : Which) : Option GptBoot :=
  if (s.copy c).lba ≠ 0 then do
    let (k,d) ← gptbootconv (s.copy c) s.drive
    return {s.setCopy c k with drive := d}
  else some s

/-- Find the copies that are valid. -/
def readCopies (s : GptBoot) : Option GptBoot := do
  let (ok,k) ← readCopy s.drive (s.copy .primary) 1
  let s := {s.setCopy .primary k with gpt := if ok then some .primary else s.gpt}
  let altlba := if 0 < k.lba then hdrLbaAlt k.hdr else s.drive.drvsize-1
  if altlba = 0 then return s.setCopy .backup {s.copy .backup with lba := 0}
  else do
    let (ok,b) ← readCopy s.drive (s.copy .backup) altlba
    return {s.setCopy .backup b with gpt := if ok ∧ k.lba = 0 then some .backup else s.gpt}

def gptread (s : GptBoot) : Option (ℤ × GptBoot) := do
  let s ← readCopies {s with curent := -1, bootonce := true, start := 0}
  let s ← convCopy s .primary
  let s ← convCopy s .backup
  return (if (s.copy .primary).lba = 0 ∧ (s.copy .backup).lba = 0 then -1 else 0,s)

attribute [local grind =] copyEntries tableLoop convLoop

end Blub.Boot
