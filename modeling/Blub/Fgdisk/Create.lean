import Blub.Fgdisk.Add

/-! Making a new label, from `create.c`. The PMBR is written as soon as there is room for it, everything else when
all of it has found its place in the map. -/
namespace Blub.Fgdisk
open Blub.Bytes Blub.Gpt

section Code

/-- The options of `create`. -/
structure CreateArgs where
  force : Bool
  parts : ℕ
  primaryOnly : Bool
  parts_pos : 1 ≤ parts
  parts_lt : parts < 2^32

/-- What the system does: whether sectors for the header, the table and the backup header can be allocated, and
the uuids that it makes up. -/
structure CreateWorld where
  calloc : ℕ → Bool
  uuid : ℕ → ℕ → UInt8

inductive CreateError
  | hasGpt
  | hasMbr
  | noPmbrRoom
  | noHdrRoom
  | noBackupRoom
  | noTblRoom
  | noHdrMem
  | cantAddHdr
  | noTblMem
  | cantAddTbl
  deriving DecidableEq, Repr

def CreateError.text : CreateError → String
  | .hasGpt => "error: device already contains a GPT"
  | .hasMbr => "error: device contains a MBR"
  | .noPmbrRoom => "error: no room for the PMBR"
  | .noHdrRoom => "error: no room for the GPT header"
  | .noBackupRoom => "error: no room for the backup header"
  | .noTblRoom => "error: no room for the GPT table"
  | .noHdrMem => "error: can't allocate the GPT"
  | .cantAddHdr => "error: can't add the GPT"
  | .noTblMem => "error: can't allocate the GPT table"
  | .cantAddTbl => "error: can't add the GPT table"

/-- Sector 0 as a PMBR. Only the bytes of a `struct mbr` are cleared. -/
def pmbrBuf (b : Buf) (last : ℤ) : Buf where
  size := b.size
  byte :=
    let mbr := blit b.byte 0 512 fun _ => 0
    let mbr := lePut mbr 510 2 mbrSig
    let mbr := lePut mbr 447 1 0x00
    let mbr := lePut mbr 448 1 0x02
    let mbr := lePut mbr 449 1 0x00
    let mbr := lePut mbr 450 1 dosptypPmbr
    let mbr := lePut mbr 451 1 0xfe
    let mbr := lePut mbr 452 1 0xff
    let mbr := lePut mbr 453 1 0xff
    let mbr := lePut mbr 454 2 1
    let size := if last > 0xffffffff then 0xffffffff else u64 last
    let mbr := lePut mbr 458 2 size
    lePut mbr 460 2 (size/2^16)

/-- The MBR is unused from now on, but in the map only. -/
def nukeMbr (g : Media) : Media :=
  match mapFind g .mbr with
  | none => g
  | some m => g.modify m fun s => { s with mapType := .unused }

/-- A PMBR that is not there yet is made and written. -/
def createPmbr (im : Image) (gd : Gd) : Option (Option CreateError × Gd) :=
  if (mapFind gd.media .pmbr).isSome then some (none,gd)
  else if mapFree gd.media 0 1 = 0 then some (some .noPmbrRoom,gd)
  else
    match gptRead im 0 1 with
    | none => none
    | some mbr =>
      match mapAdd gd.media 0 1 .pmbr (.buf (pmbrBuf mbr ((im.devsz : ℤ)-1))) true with
      | (.error _,_) => none
      | (.ok m,g) => some (none,gptWrite { gd with media := g } m)

/-- The blocks of the header and the table: no more than there is room for behind the MBR, than `parts` entries
take, than half of the device, and than are free at its end. -/
def clipBlocks (im : Image) (parts : ℕ) (blocks lastSize : ℤ) : ℤ :=
  let size := parts*entStructSize
  let blocks : ℤ :=
    if u64 (blocks-1)*im.secsz%2^64 > size then
      (size/im.secsz : ℕ)+(if size%im.secsz ≠ 0 then 1 else 0)+1
    else blocks
  let half := ((im.devsz : ℤ)-1+1)/2
  let blocks := if blocks+1 > half then half-1 else blocks
  if lastSize < blocks then lastSize else blocks

def createBlocks (im : Image) (g : Media) (parts : ℕ) : Option (Except CreateError ℤ) :=
  let free := mapFree g 1 0
  if free = 0 then some (.error .noHdrRoom)
  else
    match mapLast g with
    | none => none
    | some m =>
      if (g.cell m).mapType ≠ .unused then some (.error .noBackupRoom)
      else
        let blocks := clipBlocks im parts free (g.cell m).mapSize
        if blocks = 1 then some (.error .noTblRoom) else some (.ok blocks)

/-- A header as `create` fills it in, but for the checksums. -/
def newHdr (uuid : ℕ → UInt8) (self alt start stop table : ℤ) (entries : ℕ) : ℕ → UInt8 :=
  let hdr := fun _ => 0
  let hdr := lePut hdr 0 8 gptHdrSig
  let hdr := lePut hdr 8 4 0x00010000
  let hdr := lePut hdr 12 4 92
  let hdr := lePut hdr 24 8 (u64 self)
  let hdr := lePut hdr 32 8 (u64 alt)
  let hdr := lePut hdr 40 8 (u64 start)
  let hdr := lePut hdr 48 8 (u64 stop)
  let hdr := blit hdr 56 16 uuid
  let hdr := lePut hdr 72 8 (u64 table)
  let hdr := lePut hdr 80 4 entries
  lePut hdr 84 4 entStructSize

/-- The uuids of the entries, with the first byte of the node moved on. -/
def putUuids (uuid : ℕ → ℕ → UInt8) : ℕ → ℕ → UInt8
  | 0 => fun _ => 0
  | i+1 => blit (putUuids uuid i) (i*entStructSize+16) 16
      fun j => if j = 10 then uuid i j+UInt8.ofNat i else uuid i j

def sectors (secsz : ℕ) (blocks : ℤ) (byte : ℕ → UInt8) : Buf := ⟨blocks.toNat*secsz,byte⟩

/-- The primary header and the table, with where they are in the map. -/
structure NewGpt where
  gpt : ℕ
  tbl : ℕ
  blocks : ℤ
  hdr : ℕ → UInt8
  ent : ℕ → UInt8

/-- The number of entries in a header: those that fit in the table, as 32 bits of them, but no more than `parts`. -/
def newEntries (secsz parts : ℕ) (blocks : ℤ) : ℕ :=
  let entries := u64 (blocks*secsz)/entStructSize%2^32
  if entries > parts then parts else entries

def createPrimary (im : Image) (w : CreateWorld) (parts : ℕ) (gd : Gd) (blocks : ℤ) :
    Except CreateError NewGpt × Gd :=
  if ¬ w.calloc 0 then (.error .noHdrMem,gd)
  else
    match mapAdd gd.media 1 1 .priGptHdr (.buf (sectors im.secsz 1 fun _ => 0)) true with
    | (.error _,g) => (.error .cantAddHdr,{ gd with media := g })
    | (.ok gpt,g) =>
      let blocks := blocks-1
      -- a negative count is a size that no allocation can have
      if blocks < 0 ∨ ¬ w.calloc 1 then (.error .noTblMem,{ gd with media := g })
      else
        match mapAdd g 2 blocks .priGptTbl (.buf (sectors im.secsz blocks fun _ => 0)) true with
        | (.error _,g) => (.error .cantAddTbl,{ gd with media := g })
        | (.ok tbl,g) =>
          let last := (im.devsz : ℤ)-1
          let start := (g.cell tbl).mapStart
          let entries := newEntries im.secsz parts blocks
          let ent := putUuids (fun i => w.uuid (i+1)) entries
          let hdr := sealHdr (newHdr (w.uuid 0) (g.cell gpt).mapStart last (start+blocks) (last-blocks-1) start entries)
            (crc32 ent (entries*entStructSize%2^32))
          let g := g.modify gpt fun s => { s with mapData := .buf (sectors im.secsz 1 hdr) }
          let g := g.modify tbl fun s => { s with mapData := .buf (sectors im.secsz blocks ent) }
          (.ok ⟨gpt,tbl,blocks,hdr,ent⟩,gptWrite (gptWrite { gd with media := g } gpt) tbl)

/-- Nothing of the backup is checked. -/
def createBackup (im : Image) (w : CreateWorld) (gd : Gd) (n : NewGpt) : Option Gd :=
  let last := (im.devsz : ℤ)-1
  if ¬ w.calloc 2 then none
  else
    match mapAdd gd.media last 1 .secGptHdr (.buf (sectors im.secsz 1 fun _ => 0)) true with
    | (.error _,_) => none
    | (.ok tpg,g) =>
      match mapAdd g (last-n.blocks) n.blocks .secGptTbl (g.cell n.tbl).mapData false with
      | (.error _,_) => none
      | (.ok lbt,g) =>
        let hdr := lePut n.hdr 24 8 (u64 (g.cell tpg).mapStart)
        let hdr := lePut hdr 32 8 (u64 (g.cell n.gpt).mapStart)
        let hdr := lePut hdr 72 8 (u64 (g.cell lbt).mapStart)
        let hdr := setCrcSelf hdr (hdrCrc hdr)
        let g := g.modify tpg fun s => { s with mapData := .buf (sectors im.secsz 1 hdr) }
        some (gptWrite (gptWrite { gd with media := g } lbt) tpg)

/-- `create` from the PMBR on. -/
def createLabel (im : Image) (w : CreateWorld) (a : CreateArgs) (gd : Gd) : Option (Option CreateError × Gd) :=
  match createPmbr im gd with
  | none => none
  | some (some e,gd) => some (some e,gd)
  | some (none,gd) =>
    match createBlocks im gd.media a.parts with
    | none => none
    | some (.error e) => some (some e,gd)
    | some (.ok blocks) =>
      match createPrimary im w a.parts gd blocks with
      | (.error e,gd) => some (some e,gd)
      | (.ok n,gd) => if a.primaryOnly then some (none,gd) else (createBackup im w gd n).map fun gd => (none,gd)

/-- `create`: the error if there is one, and what has been written. -/
def create (im : Image) (w : CreateWorld) (a : CreateArgs) (gd : Gd) : Option (Option CreateError × Gd) :=
  if (mapFind gd.media .priGptHdr).isSome ∨ (mapFind gd.media .secGptHdr).isSome then some (some .hasGpt,gd)
  else if (mapFind gd.media .mbr).isSome ∧ ¬ a.force then some (some .hasMbr,gd)
  else createLabel im w a { gd with media := nukeMbr gd.media }

attribute [local grind =] createPmbr putUuids createPrimary createBackup createLabel

end Code

end Blub.Fgdisk
