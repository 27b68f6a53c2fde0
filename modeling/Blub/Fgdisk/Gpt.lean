import Blub.Fgdisk.Map
import Blub.Gpt.Layout

/-! Opening a device: the MBR, the two GPT copies and the map built from them, from `gpt.c`. A call
yields `none` where the source would read or write outside of an object, or would not return. -/
namespace Blub.Fgdisk
open Blub.Bytes Blub.Gpt

/-- The contents of a device or of an image file, with the size of a sector. -/
structure Image where
  secsz : ℕ
  mediasz : ℕ
  byte : ℕ → UInt8
  secsz_ge : 512 ≤ secsz
  secsz_lt : secsz < 2^32
  mediasz_lt : mediasz < 2^63

/-- A device of `n` sectors of 512 bytes. -/
def Image.ofSectors (n : UInt16) (byte : ℕ → UInt8) : Image where
  secsz := 512
  mediasz := n.toNat*512
  byte := byte
  secsz_ge := le_rfl
  secsz_lt := by norm_num
  mediasz_lt := by have := n.toNat_lt; omega

/-- The number of sectors. -/
def Image.devsz (im : Image) : ℕ := im.mediasz/im.secsz

/-- `gpt_read`. Reading nothing succeeds behind the end of the device, too. -/
def gptRead (im : Image) (lba : ℤ) (count : ℕ) : Option Buf :=
  let size := count*im.secsz
  let ofs := offT (lba*im.secsz)
  if 0 ≤ ofs ∧ (size = 0 ∨ ofs+size ≤ im.mediasz) then some ⟨size,fun j => im.byte (ofs.toNat+j)⟩
  else none

theorem gptRead_eq {im : Image} {lba : ℤ} {n : ℕ} {b : Buf} (h : gptRead im lba n = some b) :
    b = ⟨n*im.secsz,fun j => im.byte ((offT (lba*im.secsz)).toNat+j)⟩ := by
  unfold gptRead at h
  dsimp only at h
  split_ifs at h
  exact (Option.some.inj h).symm

theorem gptRead_size {im : Image} {lba : ℤ} {n : ℕ} {b : Buf} (h : gptRead im lba n = some b) : b.size = n*im.secsz := by
  rw [gptRead_eq h]

section Mbr

def mbrSig : ℕ := 0xAA55

def dosptypUnused : ℕ := 0x00
def dosptypExtlba : ℕ := 0x0f
def dosptypPmbr : ℕ := 0xee

def partTyp (mbr : ℕ → UInt8) (i : ℕ) : ℕ := leGet mbr (446+16*i+4) 1
def partStart (mbr : ℕ → UInt8) (i : ℕ) : ℕ := leGet mbr (446+16*i+8) 4
def partSize (mbr : ℕ → UInt8) (i : ℕ) : ℕ := leGet mbr (446+16*i+12) 4

/-- The loop that counts the PMBR partitions: where it stops, and their number. -/
def pmbrScan (mbr : ℕ → UInt8) : ℕ → ℕ → ℕ → ℕ × ℕ
  | 0, i, pmbr => (i,pmbr)
  | k+1, i, pmbr =>
    if partTyp mbr i = dosptypUnused then pmbrScan mbr k (i+1) pmbr
    else if partTyp mbr i = dosptypPmbr then pmbrScan mbr k (i+1) (pmbr+1)
    else (i,pmbr)

/-- A PMBR has partitions of type `0xee` and no others. -/
def isPmbr (mbr : ℕ → UInt8) (lba : ℤ) : Prop :=
  (pmbrScan mbr 4 0 0).2 ≠ 0 ∧ (pmbrScan mbr 4 0 0).1 = 4 ∧ lba = 0

attribute [local grind =] pmbrScan

instance (mbr : ℕ → UInt8) (lba : ℤ) : Decidable (isPmbr mbr lba) := inferInstanceAs (Decidable (_ ∧ _))

/-- A partition of an MBR that is left out of the map. -/
def mbrSkips (nombr : Bool) (mbr : ℕ → UInt8) (i : ℕ) : Prop :=
  partTyp mbr i = dosptypUnused ∨ partTyp mbr i = dosptypPmbr ∨ nombr = true ∨
    (partStart mbr i = 0 ∧ partSize mbr i = 0)

instance (nombr : Bool) (mbr : ℕ → UInt8) (i : ℕ) : Decidable (mbrSkips nombr mbr i) :=
  inferInstanceAs (Decidable (_ ∨ _))

/-- Where a partition of the MBR at `lba` starts. -/
def mbrStart (mbr : ℕ → UInt8) (lba : ℤ) (i : ℕ) : ℤ := offT (partStart mbr i+lba)

/-- The partitions of the MBR at `lba`, held by segment `p`. An extended one is read by `sub`. -/
def mbrParts (sub : Media → ℤ → Option (ℤ × Media)) (nombr : Bool) (mbr : ℕ → UInt8) (lba : ℤ) (p : ℕ) :
    ℕ → ℕ → Media → Option (ℤ × Media)
  | 0, _, g => some (0,g)
  | k+1, i, g =>
    if mbrSkips nombr mbr i then mbrParts sub nombr mbr lba p k (i+1) g
    else if partTyp mbr i ≠ dosptypExtlba then
      match mapAdd g (mbrStart mbr lba i) (partSize mbr i) .mbrPart (.map p) false with
      | (.error _,g) => some (-1,g)
      | (.ok m,g) => mbrParts sub nombr mbr lba p k (i+1) (g.modify m fun s => { s with mapIndex := i+1 })
    else
      match sub g (mbrStart mbr lba i) with
      | none => none
      | some (r,g) => if r = -1 then some (-1,g) else mbrParts sub nombr mbr lba p k (i+1) g

/-- `gpt_mbr`. An extended partition can lead back to its own MBR, so the depth is bounded by
`fuel`. -/
def gptMbr (im : Image) (nombr : Bool) : ℕ → Media → ℤ → Option (ℤ × Media)
  | 0, _, _ => none
  | fuel+1, g, lba =>
    match gptRead im lba 1 with
    | none => some (-1,g)
    | some b =>
      if leGet b.byte 510 2 ≠ mbrSig then some (0,g)
      else if isPmbr b.byte lba then
        match mapAdd g lba 1 .pmbr (.buf b) true with
        | (.error _,g) => some (-1,g)
        | (.ok _,g) => some (0,g)
      else
        match mapAdd g lba 1 .mbr (.buf b) true with
        | (.error _,g) => some (-1,g)
        | (.ok p,g) => mbrParts (gptMbr im nombr fuel) nombr b.byte lba p 4 0 g

attribute [local grind =] mbrParts gptMbr

end Mbr

section Gpt

/-- The size of a table, as the product of two 32-bit fields. -/
def tblsz (hdr : ℕ → UInt8) : ℕ := hdrEntries hdr*hdrEntsz hdr%2^32

/-- The sectors of a table. -/
def tblBlocks (secsz : ℕ) (hdr : ℕ → UInt8) : ℕ :=
  tblsz hdr/secsz+if tblsz hdr%secsz ≠ 0 then 1 else 0

/-- Where entry `i` starts in a table, as the product of two 32-bit numbers. -/
def entOfs (hdr : ℕ → UInt8) (i : ℕ) : ℕ := i*hdrEntsz hdr%2^32

/-- The extent of an entry as the map takes it. -/
def entStart (t : ℕ → UInt8) (o : ℕ) : ℤ := offT (entLbaStart t o)
def entSize (t : ℕ → UInt8) (o : ℕ) : ℤ := offT ((entLbaEnd t o : ℤ)-entLbaStart t o+1)

/-- The loop over the entries of the primary table, from entry `i` on. -/
def gptEntries (hdr : ℕ → UInt8) (p : Buf) : ℕ → ℕ → Media → Option (ℤ × Media)
  | 0, _, g => some (1,g)
  | k+1, i, g =>
    let o := entOfs hdr i
    if p.size < o+16 then none
    else if entType p.byte o = 0 then gptEntries hdr p k (i+1) g
    else if p.size < o+48 then none
    else
      match mapAdd g (entStart p.byte o) (entSize p.byte o) .gptPart (.ent o) false with
      | (.error _,g) => some (-1,g)
      | (.ok m,g) => gptEntries hdr p k (i+1) (g.modify m fun s => { s with mapIndex := i+1 })

/-- A valid copy as `gpt_gpt` reads it: the header, with its own checksum cleared, and the table. -/
structure Found where
  hdr : Buf
  tbl : Buf

/-- The first half of `gpt_gpt`. What is not a valid copy gives the value to return. -/
def gptCheck (im : Image) (lba : ℤ) (found : ℤ) : Option (Except ℤ Found) :=
  match gptRead im lba 1 with
  | none => some (.error (-1))
  | some b =>
    if hdrSig b.byte ≠ gptHdrSig then some (.error 0)
    else
      let crc := hdrCrcSelf b.byte
      let hdr := setCrcSelf b.byte 0
      if b.size < hdrSize hdr then none
      else if crc32 hdr (hdrSize hdr) ≠ crc then some (.error 0)
      else
        match gptRead im (offT (hdrLbaTable hdr)) (tblBlocks im.secsz hdr) with
        | none => some (.error (if found ≠ 0 then -1 else 0))
        | some p =>
          if crc32 p.byte (tblsz hdr) ≠ hdrCrcTable hdr then some (.error 0)
          else some (.ok ⟨⟨b.size,hdr⟩,p⟩)

/-- The second half of `gpt_gpt`: a valid copy goes to the map. -/
def gptMap (im : Image) (g : Media) (lba : ℤ) (f : Found) : Option (ℤ × Media) :=
  match mapAdd g lba 1 (if lba = 1 then .priGptHdr else .secGptHdr) (.buf f.hdr) true with
  | (.error _,g) => some (-1,g)
  | (.ok _,g) =>
    match mapAdd g (offT (hdrLbaTable f.hdr.byte)) (tblBlocks im.secsz f.hdr.byte)
      (if lba = 1 then .priGptTbl else .secGptTbl) (.buf f.tbl) true with
    | (.error _,g) => some (-1,g)
    | (.ok _,g) =>
      if lba ≠ 1 then some (1,g) else gptEntries f.hdr.byte f.tbl (hdrEntries f.hdr.byte) 0 g

def gptGpt (im : Image) (g : Media) (lba : ℤ) (found : ℤ) : Option (ℤ × Media) :=
  match gptCheck im lba found with
  | none => none
  | some (.error r) => some (r,g)
  | some (.ok f) => gptMap im g lba f

/-- `gpt_open`, from the minimum size on; `none` inside when the device is refused. -/
def gptOpen (fuel : ℕ) (nombr : Bool) (calloc : ℕ → Bool) (im : Image) : Option (Option Media) :=
  if im.devsz < 6 then some none
  else
    match mapInit (emptyMedia calloc) im.devsz with
    | none => some none
    | some g =>
      match gptMbr im nombr fuel g 0 with
      | none => none
      | some (r,g) =>
        if r = -1 then some none
        else
          match gptGpt im g 1 1 with
          | none => none
          | some (found,g) =>
            if found = -1 then some none
            else
              match gptGpt im g ((im.devsz : ℤ)-1) found with
              | none => none
              | some (r,g) => if r = -1 then some none else some (some g)

attribute [local grind =] gptEntries gptCheck gptMap gptGpt gptOpen

end Gpt

section Headers

/-- Why `gpt_gethdr` returns no header. -/
inductive HdrError
  | noPrimary
  | noSecondary
  | runRecover
  deriving DecidableEq, Repr

def HdrError.text : HdrError → String
  | .noPrimary => "error: no primary GPT header; run create or recover"
  | .noSecondary => "error: no secondary GPT header; run recover"
  | .runRecover => "error: run recover -- trust me"

/-- The segments of the two copies, as `gpt_gethdr` leaves them in `gd`. -/
structure Copies where
  gpt : ℕ
  tpg : ℕ
  tbl : ℕ
  lbt : ℕ
  deriving DecidableEq, Repr

def gptGethdr (g : Media) : Except HdrError Copies :=
  match mapFind g .priGptHdr with
  | none => .error .noPrimary
  | some gpt =>
    match mapFind g .secGptHdr with
    | none => .error .noSecondary
    | some tpg =>
      match mapFind g .priGptTbl, mapFind g .secGptTbl with
      | some tbl, some lbt => .ok ⟨gpt,tpg,tbl,lbt⟩
      | _, _ => .error .runRecover

/-- A device a command works on: the map, and the segments passed to `gpt_write` so far. -/
structure Gd where
  secsz : ℕ
  media : Media
  out : List Seg

/-- `gpt_write`: the buffer of a segment goes to its sectors. -/
def gptWrite (gd : Gd) (m : ℕ) : Gd := { gd with out := gd.out ++ [(gd.media.cell m).toSeg] }

/-- One copy with entry `i` changed by `f`, which touches `len` bytes of it, and with the checksums
brought up to date. -/
def putEntry (g : Media) (hdr tbl i len : ℕ) (f : (ℕ → UInt8) → ℕ → ℕ → UInt8) : Option Media :=
  match (g.cell hdr).mapData, (g.cell tbl).mapData with
  | .buf h, .buf t =>
    let o := entOfs h.byte i
    if t.size < o+len ∨ t.size < tblsz h.byte ∨ h.size < hdrSize h.byte then none
    else
      let t' := f t.byte o
      let h' := sealHdr h.byte (crc32 t' (tblsz h.byte))
      some ((g.modify tbl fun s => { s with mapData := .buf { t with byte := t' } }).modify hdr
        fun s => { s with mapData := .buf { h with byte := h' } })
  | _, _ => none

attribute [local grind =] gptGethdr

end Headers

section Utf

/-- The first byte of a character: what it adds to the character, and how many bytes follow. -/
def utf8Lead (c : ℕ) : ℕ × ℕ :=
  if c &&& 0xf8 = 0xf0 then (c &&& 0x07,3)
  else if c &&& 0xf0 = 0xe0 then (c &&& 0x0f,2)
  else if c &&& 0xe0 = 0xc0 then (c &&& 0x1f,1)
  else (c &&& 0x7f,0)

/-- The code units of a complete character. One that needs two units but finds room for one only
is replaced. -/
def utf16Units (s16len s16idx utfchar : ℕ) : List ℕ :=
  let utfchar := if utfchar ≥ 0x10000 ∧ s16idx+2 ≥ s16len then 0xfffd else utfchar
  if utfchar ≥ 0x10000 then
    [(0xd800 ||| (utfchar >>> 10-0x40))%2^16,(0xdc00 ||| (utfchar &&& 0x3ff))%2^16]
  else [utfchar%2^16]

/-- `utf8_to_utf16` from one byte of the string on: the units written from index 0, `s16` being those
already there. The string is given with its final 0. -/
def utf8Loop (s16len : ℕ) : List UInt8 → List ℕ → ℕ → ℕ → List ℕ
  | [], s16, _, _ => s16
  | b :: s8, s16, utfchar, utfbytes =>
    let c := b.toNat
    let lead : Bool := c &&& 0xc0 ≠ 0x80
    let s16 := if lead ∧ utfbytes ≠ 0 then s16 ++ [0xfffd] else s16
    if lead ∧ utfbytes ≠ 0 ∧ s16.length = s16len then s16.dropLast ++ [0]
    else
      let (utfchar,utfbytes) :=
        if lead then utf8Lead c
        else if utfbytes > 0 then ((utfchar <<< 6+(c &&& 0x3f))%2^32,utfbytes-1)
        else (utfchar,2^32-1)
      if utfbytes = 0 then
        let s16 := s16 ++ utf16Units s16len s16.length utfchar
        if s16.length = s16len then s16.dropLast ++ [0]
        else if c = 0 then s16 else utf8Loop s16len s8 s16 utfchar utfbytes
      else utf8Loop s16len s8 s16 utfchar utfbytes

def utf8ToUtf16 (s8 : List UInt8) (s16len : ℕ) : List ℕ := utf8Loop s16len (s8 ++ [0]) [] 0 0

attribute [local grind =] utf8Loop

end Utf

end Blub.Fgdisk
