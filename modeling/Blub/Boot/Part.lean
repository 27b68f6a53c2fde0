import Blub.Boot.Disk
import Blub.Fgdisk.Disklabel32
import Blub.Gpt.Layout

/-! The readers of partition tables of the loader, from `part.c`. Memory never runs out. -/
namespace Blub.Boot
open Blub.Bytes Blub.Gpt Blub.Fgdisk

section Labels

structure Part64 where
  boffset : UInt64
  bsize : UInt64
  fstype : UInt8

/-- A 64-bit disklabel; `parts i` is what stands at index `i` of its table. -/
structure Disklabel64 where
  magic : UInt32
  npartitions : UInt32
  parts : ℕ → Part64

/-- What the headers of the system say: how the labels are laid out and how long they are, the types of the slices
and of the file systems, and the uuids of the partitions. -/
structure PartAbi where
  label32 : (ℕ → UInt8) → Disklabel32
  label64 : (ℕ → UInt8) → Disklabel64
  label32Size : ℕ
  label64Size : ℕ
  diskmagic32 : UInt32
  diskmagic64 : UInt32
  rawPart : ℕ
  dosptypExt : ℕ
  dosptypExtlba : ℕ
  dosptypPmbr : ℕ
  dosptyp386bsd : ℕ
  dosptypLinswp : ℕ
  dosptypLinux : ℕ
  fsHammer : UInt8
  fsHammer2 : UInt8
  fsSwap : UInt8
  fsBsdffs : UInt8
  fsVinum : UInt8
  gptUnused : ℕ
  gptEfi : ℕ
  gptMsBasicData : ℕ
  gptDragonflyHammer : ℕ
  gptDragonflyHammer2 : ℕ
  gptDragonflyLabel32 : ℕ
  gptDragonflyLabel64 : ℕ
  gptDragonflyLegacy : ℕ
  gptDragonflySwap : ℕ
  gptDragonflyUfs1 : ℕ
  gptDragonflyVinum : ℕ
  gptFreebsdBoot : ℕ
  gptFreebsdUfs : ℕ
  gptFreebsdSwap : ℕ
  gptFreebsdVinum : ℕ
  gptFreebsd : ℕ

variable (abi : PartAbi)

def gptParttype (type : ℕ) : PartitionType :=
  if type = abi.gptEfi then .efi
  else if type = abi.gptMsBasicData then .dos
  else if type = abi.gptDragonflyHammer then .dflyHammer
  else if type = abi.gptDragonflyHammer2 then .dflyHammer2
  else if type = abi.gptDragonflyLabel32 then .dflyLabel32
  else if type = abi.gptDragonflyLabel64 then .dflyLabel64
  else if type = abi.gptDragonflyLegacy then .dflyLegacy
  else if type = abi.gptDragonflySwap then .dflySwap
  else if type = abi.gptDragonflyUfs1 then .dflyUfs1
  else if type = abi.gptDragonflyVinum then .dflyVinum
  else if type = abi.gptFreebsdBoot then .freebsdBoot
  else if type = abi.gptFreebsdUfs then .freebsdUfs
  else if type = abi.gptFreebsdSwap then .freebsdSwap
  else if type = abi.gptFreebsdVinum then .freebsdVinum
  else if type = abi.gptFreebsd then .freebsd
  else .unknown

def mbrParttype (type : ℕ) : PartitionType :=
  if type = abi.dosptyp386bsd then .dflyLegacy
  else if type = abi.dosptypLinswp then .linuxSwap
  else if type = abi.dosptypLinux then .linux
  else if type ∈ [0x01,0x04,0x06,0x07,0x0b,0x0c,0x0e] then .dos
  else .unknown

def bsdParttype (type : UInt8) : PartitionType :=
  if type = abi.fsHammer then .dflyHammer
  else if type = abi.fsHammer2 then .dflyHammer2
  else if type = abi.fsSwap then .dflySwap
  else if type = abi.fsBsdffs then .dflyUfs1
  else if type = abi.fsVinum then .dflyVinum
  else .unknown

end Labels

section Reads

/-- A disk and its readings: which of them fail and what those leave in their buffers, and what two of the buffers hold
when they are new. -/
structure PartDisk where
  byte : ℕ → UInt8
  sectors : ℕ
  sectorsize : ℕ
  fails : ℕ → Bool
  left : ℕ → ℕ → UInt8
  freshLabel : ℕ → UInt8
  freshTbl : ℕ → UInt8
  sectors_lt : sectors < 2^64
  sectorsize_lt : sectorsize < 2^16

variable (w : PartDisk)

/-- The bytes from a sector on. -/
def PartDisk.from (lba : ℕ) : ℕ → UInt8 := fun j => w.byte (lba*w.sectorsize+j)

/-- The `k`-th reading, of `blocks` sectors: whether it delivers, and the buffer. -/
def PartDisk.dread (k : ℕ) (buf : ℕ → UInt8) (blocks lba : ℕ) : Bool × (ℕ → UInt8) :=
  if w.fails k then (false,blit buf 0 (blocks*w.sectorsize) (w.left k))
  else (true,blit buf 0 (blocks*w.sectorsize) (w.from lba))

/-- A reading of one sector, into a buffer that nobody looks at if it fails. -/
def PartDisk.dread1 (k lba : ℕ) : Option (ℕ → UInt8) := if w.fails k then none else some (w.from lba)

end Reads

/-- An entry of a table. The source does not keep the size in sectors that the label records. -/
structure Pentry where
  part : PtableEntry
  flags : Option ℕ
  type : ℕ
  recorded : ℤ

structure PartTable where
  type : PtableType
  entries : List Pentry

section GptCode
variable (abi : PartAbi) (w : PartDisk)

def maxtblsz : ℕ := 64

def gptHdrRevision : ℕ := 0x00010000

def hdrUuid (h : ℕ → UInt8) : ℕ := leGet h 56 16

/-- `gpt_checkhdr` -/
structure GptCheckhdr (hdr : ℕ → UInt8) (lbaSelf sectorsize : ℕ) : Prop where
  sig : hdrSig hdr = gptHdrSig
  size : 92 ≤ hdrSize hdr ∧ hdrSize hdr ≤ sectorsize
  crc : hdrCrc hdr = hdrCrcSelf hdr
  revision : gptHdrRevision ≤ hdrRevision hdr
  self : hdrLbaSelf hdr = lbaSelf
  alt : hdrLbaAlt hdr ≠ hdrLbaSelf hdr
  entries : hdrEntries hdr ≠ 0 ∧ entStructSize ≤ hdrEntsz hdr ∧ sectorsize%hdrEntsz hdr = 0

instance (hdr : ℕ → UInt8) (lba ss : ℕ) : Decidable (GptCheckhdr hdr lba ss) :=
  decidable_of_iff (hdrSig hdr = gptHdrSig ∧ (92 ≤ hdrSize hdr ∧ hdrSize hdr ≤ ss) ∧ hdrCrc hdr = hdrCrcSelf hdr ∧
    gptHdrRevision ≤ hdrRevision hdr ∧ hdrLbaSelf hdr = lba ∧ hdrLbaAlt hdr ≠ hdrLbaSelf hdr ∧
    hdrEntries hdr ≠ 0 ∧ entStructSize ≤ hdrEntsz hdr ∧ ss%hdrEntsz hdr = 0)
    ⟨fun ⟨a,b,c,d,e,f,g⟩ => ⟨a,b,c,d,e,f,g⟩,fun ⟨a,b,c,d,e,f,g⟩ => ⟨a,b,c,d,e,f,g⟩⟩

/-- `gpt_checktbl`: the checksum is only looked at if the buffer can hold the whole table. -/
def gptChecktbl (hdr tbl : ℕ → UInt8) (size : ℕ) : Bool :=
  if hdrEntries hdr ≤ size/hdrEntsz hdr then
    hdrCrcTable hdr = crc32 tbl (hdrEntries hdr*hdrEntsz hdr%2^32)
  else true

/-- The length of a table, in 32 bits. -/
def gptTblLength (hdr : ℕ → UInt8) : ℕ := hdrEntries hdr*hdrEntsz hdr%2^32

/-- The sectors that are read of a table. -/
def gptTblSectors (hdr : ℕ → UInt8) : ℕ :=
  min maxtblsz ((gptTblLength hdr+(2^32+w.sectorsize-1))%2^32/w.sectorsize)

/-- Read the table of a header into the buffer, and whether it can be used. -/
def gptReadtbl (k : ℕ) (hdr tbl : ℕ → UInt8) : Bool × (ℕ → UInt8) :=
  let size := gptTblSectors w hdr
  let (ok,tbl) := w.dread k tbl size (hdrLbaTable hdr)
  (ok && gptChecktbl hdr tbl (size*w.sectorsize),tbl)

/-- The headers agree, and there is no need for the table of the backup. -/
def HdrsAgree (h h' : ℕ → UInt8) : Prop :=
  hdrUuid h = hdrUuid h' ∧ hdrRevision h = hdrRevision h' ∧ hdrSize h = hdrSize h' ∧ hdrLbaStart h = hdrLbaStart h' ∧
    hdrLbaEnd h = hdrLbaEnd h' ∧ hdrEntries h = hdrEntries h' ∧ hdrEntsz h = hdrEntsz h' ∧
    hdrCrcTable h = hdrCrcTable h'

instance (h h' : ℕ → UInt8) : Decidable (HdrsAgree h h') := inferInstanceAs (Decidable (_ ∧ _))

def gptPentry (tbl : ℕ → UInt8) (sz i : ℕ) : Pentry where
  part := ⟨entLbaStart tbl (i*sz),entLbaEnd tbl (i*sz),i+1,gptParttype abi (entType tbl (i*sz))⟩
  flags := some (entAttr tbl (i*sz)).toNat
  type := entType tbl (i*sz)
  recorded := (entLbaEnd tbl (i*sz) : ℤ)-entLbaStart tbl (i*sz)+1

/-- The used ones of the first `n` entries of a table. -/
def gptUsed (tbl : ℕ → UInt8) (sz n : ℕ) : List Pentry :=
  (List.range n).filterMap fun i =>
    if entType tbl (i*sz) = abi.gptUnused then none else some (gptPentry abi tbl sz i)

/-- How many entries are looked at. -/
def gptListed (hdr : ℕ → UInt8) : ℕ := min (gptTblLength hdr) (maxtblsz*w.sectorsize)/hdrEntsz hdr

/-- The headers and the table buffer as they go through `ptable_gptread`: the header that is taken, the buffer, and
the number of the next reading. -/
structure GptState where
  hdr : Option (ℕ → UInt8)
  tbl : ℕ → UInt8
  reads : ℕ

/-- The primary header, in `buf`, and its table. -/
def gptPrimary (k : ℕ) (buf : ℕ → UInt8) : GptState :=
  if GptCheckhdr buf 1 w.sectorsize then
    let (ok,tbl) := gptReadtbl w k buf w.freshTbl
    ⟨if ok then some buf else none,tbl,k+1⟩
  else ⟨none,w.freshTbl,k⟩

def gptOffset (hdr : Option (ℕ → UInt8)) : ℕ :=
  match hdr with
  | some hdr => hdrLbaAlt hdr
  | none => (w.sectors+(2^64-1))%2^64

/-- The backup header, if it can be read and is sound. -/
def gptBackupHdr (s : GptState) : Option (ℕ → UInt8) :=
  match w.dread1 s.reads (gptOffset w s.hdr) with
  | none => none
  | some buf => if GptCheckhdr buf (gptOffset w s.hdr) w.sectorsize then some buf else none

/-- Take the backup if there is no primary or the headers differ, and its table can be used. -/
def gptBackup (s : GptState) : GptState :=
  match gptBackupHdr w s with
  | none => { s with reads := s.reads+1 }
  | some phdr =>
    match s.hdr with
    | some hdr =>
      if HdrsAgree hdr phdr then { s with reads := s.reads+1 }
      else
        let (ok,tbl) := gptReadtbl w (s.reads+1) phdr s.tbl
        ⟨if ok then some phdr else some hdr,tbl,s.reads+2⟩
    | none =>
      let (ok,tbl) := gptReadtbl w (s.reads+1) phdr s.tbl
      ⟨if ok then some phdr else none,tbl,s.reads+2⟩

def ptableGptread (k : ℕ) : Option PartTable :=
  match w.dread1 k 1 with
  | none => none
  | some buf =>
    let s := gptBackup w (gptPrimary w (k+1) buf)
    match s.hdr with
    | none => some ⟨.none,[]⟩
    | some hdr => some ⟨.gpt,gptUsed abi s.tbl (hdrEntsz hdr) (gptListed w hdr)⟩

attribute [local grind =] gptBackup ptableGptread

end GptCode

section MbrCode
variable (abi : PartAbi) (w : PartDisk)

def ndospart : ℕ := 4

def maxebrentries : ℕ := 8

/-! Entry `i` of the table in a boot sector. -/

def dpFlag (buf : ℕ → UInt8) (i : ℕ) : ℕ := leGet buf (446+16*i) 1
def dpTyp (buf : ℕ → UInt8) (i : ℕ) : ℕ := leGet buf (450+16*i) 1
def dpStart (buf : ℕ → UInt8) (i : ℕ) : ℕ := leGet buf (454+16*i) 4
def dpSize (buf : ℕ → UInt8) (i : ℕ) : ℕ := leGet buf (458+16*i) 4

def mbrPentry (buf : ℕ → UInt8) (i : ℕ) : Pentry where
  part := ⟨dpStart buf i,(dpStart buf i+dpSize buf i+(2^32-1))%2^32,i+1,mbrParttype abi (dpTyp buf i)⟩
  flags := some (dpFlag buf i)
  type := dpTyp buf i
  recorded := dpSize buf i

def mbrEntries (buf : ℕ → UInt8) : List Pentry :=
  (List.range ndospart).filterMap fun i =>
    if dpTyp buf i = 0 ∨ dpStart buf i = 0 ∨ dpSize buf i = 0 then none else some (mbrPentry abi buf i)

def isExt (type : ℕ) : Bool := type = abi.dosptypExt ∨ type = abi.dosptypExtlba

/-- The entry of a logical partition, at `offset` on the disk. -/
def ebrPentry (buf : ℕ → UInt8) (offset index : ℕ) : Pentry where
  part :=
    let start := (offset+dpStart buf 0)%2^32
    ⟨start,(start+dpSize buf 0+(2^64-1))%2^64,index,mbrParttype abi (dpTyp buf 0)⟩
  flags := some (dpFlag buf 0)
  type := dpTyp buf 0
  recorded := dpSize buf 0

/-- The chain of `ptable_ebrread`, with `start` where the extended partition starts. -/
def ebrChain (start : ℕ) : ℕ → ℕ → ℕ → ℕ → List Pentry
  | 0, _, _, _ => []
  | n+1, k, offset, index =>
    match w.dread1 k offset with
    | none => []
    | some buf =>
      if dpTyp buf 0 = 0 then []
      else if dpTyp buf 0 = abi.dosptypExt ∧ dpTyp buf 1 = 0 then
        ebrChain start n (k+1) ((start+dpStart buf 0)%2^32) index
      else
        ebrPentry abi buf offset index ::
          if dpTyp buf 1 = 0 then [] else ebrChain start n (k+1) ((start+dpStart buf 1)%2^32) (index+1)

def ptableEbrread (k : ℕ) (entries : List Pentry) : List Pentry :=
  match entries.find? fun e => isExt abi e.type with
  | none => entries
  | some e1 => entries ++ ebrChain abi w e1.part.start maxebrentries k (e1.part.start%2^32) 5

attribute [local grind =] ebrChain

end MbrCode

section BsdCode
variable (abi : PartAbi) (w : PartDisk)

/-- The checks of a 32-bit label. -/
def IsLabel32 (buf : ℕ → UInt8) : Prop :=
  ((abi.label32 buf).magic = abi.diskmagic32 ∨ (abi.label32 buf).magic2 = abi.diskmagic32) ∧
    (abi.label32 buf).secsize.toNat = w.sectorsize ∧
    8 ≤ (abi.label32 buf).npartitions.toNat ∧ (abi.label32 buf).npartitions.toNat ≤ 20

instance (buf : ℕ → UInt8) : Decidable (IsLabel32 abi w buf) := inferInstanceAs (Decidable (_ ∧ _))

def bsd32Pentry (dl : Disklabel32) (i : ℕ) : Pentry where
  part :=
    let start := ((dl.parts i).offset-(dl.parts abi.rawPart).offset).toNat
    ⟨start,(start+(dl.parts i).size.toNat+1)%2^64,i,bsdParttype abi (dl.parts i).fstype⟩
  flags := none
  type := (dl.parts i).fstype.toNat
  recorded := (dl.parts i).size.toNat

def bsd32Entries (dl : Disklabel32) : List Pentry :=
  (List.range dl.npartitions.toNat).filterMap fun i =>
    if i = abi.rawPart ∨ (dl.parts i).size = 0 then none else some (bsd32Pentry abi dl i)

/-- The next reading, and the table if this is a label. -/
def ptableBsdread32 (k : ℕ) : ℕ × Option PartTable :=
  if w.sectorsize < abi.label32Size then (k,some ⟨.none,[]⟩)
  else
    match w.dread1 k 1 with
    | none => (k+1,none)
    | some buf =>
      if IsLabel32 abi w buf then (k+1,some ⟨.bsd32,bsd32Entries abi (abi.label32 buf)⟩)
      else (k+1,some ⟨.none,[]⟩)

/-- The number of partitions as `le16toh` takes it. -/
def Disklabel64.parts16 (dl : Disklabel64) : ℕ := dl.npartitions.toNat%2^16

def IsLabel64 (buf : ℕ → UInt8) : Prop :=
  (abi.label64 buf).magic = abi.diskmagic64 ∧ 8 ≤ (abi.label64 buf).parts16 ∧ (abi.label64 buf).parts16 ≤ 20

instance (buf : ℕ → UInt8) : Decidable (IsLabel64 abi buf) := inferInstanceAs (Decidable (_ ∧ _))

def bsd64Pentry (dl : Disklabel64) (i : ℕ) : Pentry where
  part :=
    let start := (dl.parts i).boffset.toNat/w.sectorsize
    ⟨start,(start+(dl.parts i).bsize.toNat/w.sectorsize)%2^64,i,bsdParttype abi (dl.parts i).fstype⟩
  flags := none
  type := (dl.parts i).fstype.toNat
  recorded := ((dl.parts i).bsize.toNat/w.sectorsize : ℕ)

def bsd64Entries (dl : Disklabel64) : List Pentry :=
  (List.range dl.parts16).filterMap fun i =>
    if i = abi.rawPart ∨ (dl.parts i).bsize = 0 then none else some (bsd64Pentry abi w dl i)

/-- The length of the buffer, in 16 bits. -/
def lbuf64 : ℕ := (abi.label64Size+w.sectorsize+(2^16-1))%2^16

/-- What the buffer of a 64-bit label holds. -/
def label64Buf : ℕ → UInt8 :=
  blit w.freshLabel 0 (lbuf64 abi w/w.sectorsize*w.sectorsize) (w.from 0)

def ptableBsdread64 (k : ℕ) : ℕ × Option PartTable :=
  if lbuf64 abi w < abi.label64Size then (k,some ⟨.none,[]⟩)
  else if w.fails k then (k+1,none)
  else if IsLabel64 abi (label64Buf abi w) then
    (k+1,some ⟨.bsd64,bsd64Entries abi w (abi.label64 (label64Buf abi w))⟩)
  else (k+1,some ⟨.none,[]⟩)

end BsdCode

section Open
variable (abi : PartAbi) (w : PartDisk)

def mbrMagic (buf : ℕ → UInt8) : Prop := buf 510 = 0x55 ∧ buf 511 = 0xaa

instance (buf : ℕ → UInt8) : Decidable (mbrMagic buf) := inferInstanceAs (Decidable (_ ∧ _))

/-- `ptable_open` from the check of the MBR's magic on, with the boot sector in `buf`. -/
def ptableMbr (k : ℕ) (buf : ℕ → UInt8) : Option PartTable :=
  if ¬ mbrMagic buf then ptableGptread abi w k
  else
    let pmbr := ∃ i < ndospart, dpTyp buf i = abi.dosptypPmbr
    let count := (List.range ndospart).countP fun i => dpTyp buf i ≠ 0
    if (∃ i < ndospart, dpFlag buf i ≠ 0 ∧ dpFlag buf i ≠ 0x80) ∨ (pmbr ∧ count > 1) then some ⟨.none,[]⟩
    else if pmbr then ptableGptread abi w k
    else some ⟨.mbr,ptableEbrread abi w k (mbrEntries abi buf)⟩

def ptableOpen : Option PartTable :=
  match w.dread1 0 0 with
  | none => none
  | some buf =>
    match ptableBsdread64 abi w 1 with
    | (_,none) => none
    | (k,some table) =>
      if table.type = .bsd64 then some table
      else
        match ptableBsdread32 abi w k with
        | (_,none) => none
        | (k,some table) => if table.type = .bsd32 then some table else ptableMbr abi w k buf

attribute [local grind =] ptableOpen

variable {abi w}

def FindsLabel64 (abi : PartAbi) (w : PartDisk) : Prop :=
  abi.label64Size ≤ lbuf64 abi w ∧ IsLabel64 abi (label64Buf abi w)

def FindsLabel32 (abi : PartAbi) (w : PartDisk) : Prop :=
  abi.label32Size ≤ w.sectorsize ∧ IsLabel32 abi w (w.from 1)

/-- The readings before the boot sector is looked at. -/
def openReads (abi : PartAbi) (w : PartDisk) : ℕ :=
  1+(if abi.label64Size ≤ lbuf64 abi w then 1 else 0)+(if abi.label32Size ≤ w.sectorsize then 1 else 0)

theorem PartDisk.dread1_some {k lba : ℕ} {buf : ℕ → UInt8} (h : w.dread1 k lba = some buf) :
    w.fails k = false ∧ buf = w.from lba := by
  unfold PartDisk.dread1 at h
  split_ifs at h with hk
  exact ⟨Bool.not_eq_true _ ▸ hk,(Option.some.inj h).symm⟩

theorem ptableBsdread64_some {k k' : ℕ} {t : PartTable} (h : ptableBsdread64 abi w k = (k',some t)) :
    k' = k+(if abi.label64Size ≤ lbuf64 abi w then 1 else 0) ∧
      (FindsLabel64 abi w ∧ t = ⟨.bsd64,bsd64Entries abi w (abi.label64 (label64Buf abi w))⟩ ∨
        ¬ FindsLabel64 abi w ∧ t = ⟨.none,[]⟩) := by
  unfold ptableBsdread64 at h
  split_ifs at h with hsize hk hlabel
  · rw [Prod.mk.injEq,Option.some.injEq] at h
    rw [if_neg (by omega)]
    exact ⟨h.1.symm,.inr ⟨fun hy => absurd hy.1 (by omega),h.2.symm⟩⟩
  · cases h
  · rw [Prod.mk.injEq,Option.some.injEq] at h
    rw [if_pos (by omega)]
    exact ⟨h.1.symm,.inl ⟨⟨by omega,hlabel⟩,h.2.symm⟩⟩
  · rw [Prod.mk.injEq,Option.some.injEq] at h
    rw [if_pos (by omega)]
    exact ⟨h.1.symm,.inr ⟨fun hy => hlabel hy.2,h.2.symm⟩⟩

theorem ptableBsdread32_some {k k' : ℕ} {t : PartTable} (h : ptableBsdread32 abi w k = (k',some t)) :
    k' = k+(if abi.label32Size ≤ w.sectorsize then 1 else 0) ∧
      (FindsLabel32 abi w ∧ t = ⟨.bsd32,bsd32Entries abi (abi.label32 (w.from 1))⟩ ∨
        ¬ FindsLabel32 abi w ∧ t = ⟨.none,[]⟩) := by
  unfold ptableBsdread32 at h
  split_ifs at h with hsize
  · rw [Prod.mk.injEq,Option.some.injEq] at h
    rw [if_neg (by omega)]
    exact ⟨h.1.symm,.inr ⟨fun hy => absurd hy.1 (by omega),h.2.symm⟩⟩
  · rw [if_pos (by omega)]
    cases hread : w.dread1 k 1 with
    | none =>
      rw [hread] at h
      cases h
    | some buf =>
      obtain ⟨-,rfl⟩ := PartDisk.dread1_some hread
      rw [hread] at h
      dsimp only at h
      split_ifs at h with hlabel
      · rw [Prod.mk.injEq,Option.some.injEq] at h
        exact ⟨h.1.symm,.inl ⟨⟨by omega,hlabel⟩,h.2.symm⟩⟩
      · rw [Prod.mk.injEq,Option.some.injEq] at h
        exact ⟨h.1.symm,.inr ⟨fun hy => hlabel hy.2,h.2.symm⟩⟩

/-- Where a table that was opened comes from. -/
theorem ptableOpen_cases {t : PartTable} (h : ptableOpen abi w = some t) :
    (FindsLabel64 abi w ∧ t = ⟨.bsd64,bsd64Entries abi w (abi.label64 (label64Buf abi w))⟩) ∨
    (¬ FindsLabel64 abi w ∧ FindsLabel32 abi w ∧ t = ⟨.bsd32,bsd32Entries abi (abi.label32 (w.from 1))⟩) ∨
    (¬ FindsLabel64 abi w ∧ ¬ FindsLabel32 abi w ∧ ptableMbr abi w (openReads abi w) (w.from 0) = some t) := by
  unfold ptableOpen at h
  -- generalized first, or the check of the next steps evaluates the reader
  generalize hr : ptableBsdread64 abi w 1 = r at h
  cases hread : w.dread1 0 0 with
  | none =>
    rw [hread] at h
    cases h
  | some buf =>
    obtain ⟨-,rfl⟩ := PartDisk.dread1_some hread
    rw [hread] at h
    obtain ⟨k₁,o₁⟩ := r
    cases o₁ with
    | none => cases h
    | some t₁ =>
      dsimp only at h
      obtain ⟨hk₁,⟨h64,rfl⟩ | ⟨h64,rfl⟩⟩ := ptableBsdread64_some hr
      · rw [if_pos rfl,Option.some.injEq] at h
        exact .inl ⟨h64,h.symm⟩
      · rw [if_neg (by nofun)] at h
        rcases hr₂ : ptableBsdread32 abi w k₁ with ⟨k₂,o₂⟩
        rw [hr₂] at h
        cases o₂ with
        | none => cases h
        | some t₂ =>
          dsimp only at h
          obtain ⟨hk₂,⟨h32,rfl⟩ | ⟨h32,rfl⟩⟩ := ptableBsdread32_some hr₂
          · rw [if_pos rfl,Option.some.injEq] at h
            exact .inr (.inl ⟨h64,h32,h.symm⟩)
          · rw [if_neg (by nofun)] at h
            rw [openReads,← hk₁,← hk₂]
            exact .inr (.inr ⟨h64,h32,h⟩)

/-- A boot sector with slices, and no protective one. -/
def IsMbr (abi : PartAbi) (buf : ℕ → UInt8) : Prop :=
  mbrMagic buf ∧ ∀ i < ndospart, (dpFlag buf i = 0 ∨ dpFlag buf i = 0x80) ∧ dpTyp buf i ≠ abi.dosptypPmbr

theorem ptableMbr_of_isMbr {k : ℕ} {buf : ℕ → UInt8} (h : IsMbr abi buf) :
    ptableMbr abi w k buf = some ⟨.mbr,ptableEbrread abi w k (mbrEntries abi buf)⟩ := by
  have hpmbr : ¬ ∃ i < ndospart, dpTyp buf i = abi.dosptypPmbr := fun ⟨i,hi,hp⟩ => (h.2 i hi).2 hp
  have hflag : ¬ ∃ i < ndospart, dpFlag buf i ≠ 0 ∧ dpFlag buf i ≠ 0x80 :=
    fun ⟨i,hi,hf⟩ => (h.2 i hi).1.elim hf.1 hf.2
  unfold ptableMbr
  rw [if_neg (not_not.mpr h.1)]
  dsimp only
  rw [if_neg (by rintro (hf | hp); exacts [hflag hf,hpmbr hp.1]),if_neg hpmbr]

theorem ptableMbr_of_not_isMbr {k : ℕ} {buf : ℕ → UInt8} {t : PartTable} (h : ¬ IsMbr abi buf)
    (ht : ptableMbr abi w k buf = some t) : t = ⟨.none,[]⟩ ∨ ptableGptread abi w k = some t := by
  unfold ptableMbr at ht
  by_cases hmagic : mbrMagic buf
  swap
  · rw [if_pos hmagic] at ht
    exact .inr ht
  rw [if_neg (not_not.mpr hmagic)] at ht
  dsimp only at ht
  split_ifs at ht with hbad hpmbr
  · exact .inl (Option.some.inj ht).symm
  · exact .inr ht
  · refine absurd ⟨hmagic,fun i hi => ⟨?_,fun hp => hpmbr ⟨i,hi,hp⟩⟩⟩ h
    by_contra hf
    exact hbad (.inl ⟨i,hi,not_or.mp hf⟩)

end Open

/-- The labels and the types of slices of DragonFly. The uuids are numbered as they come. -/
def dragonflyAbi : PartAbi where
  label32 buf := {
    magic := .ofNat (leGet buf 0 4)
    magic2 := .ofNat (leGet buf 132 4)
    secsize := .ofNat (leGet buf 40 4)
    npartitions := .ofNat (leGet buf 138 2)
    parts i := ⟨.ofNat (leGet buf (148+16*i) 4),.ofNat (leGet buf (152+16*i) 4),buf (160+16*i)⟩ }
  label64 buf := {
    magic := .ofNat (leGet buf 512 4)
    npartitions := .ofNat (leGet buf 524 4)
    parts i := ⟨.ofNat (leGet buf (712+64*i) 8),.ofNat (leGet buf (720+64*i) 8),buf (728+64*i)⟩ }
  label32Size := 404
  label64Size := 1736
  diskmagic32 := 0x82564557
  diskmagic64 := 0xc4464c59
  rawPart := 2
  dosptypExt := 5
  dosptypExtlba := 15
  dosptypPmbr := 0xee
  dosptyp386bsd := 0xa5
  dosptypLinswp := 0x82
  dosptypLinux := 0x83
  fsHammer := 22
  fsHammer2 := 23
  fsSwap := 1
  fsBsdffs := 7
  fsVinum := 14
  gptUnused := 0
  gptEfi := 1
  gptMsBasicData := 2
  gptDragonflyHammer := 3
  gptDragonflyHammer2 := 4
  gptDragonflyLabel32 := 5
  gptDragonflyLabel64 := 6
  gptDragonflyLegacy := 7
  gptDragonflySwap := 8
  gptDragonflyUfs1 := 9
  gptDragonflyVinum := 10
  gptFreebsdBoot := 11
  gptFreebsdUfs := 12
  gptFreebsdSwap := 13
  gptFreebsdVinum := 14
  gptFreebsd := 15

/-- A disk of 100 sectors that are always read. -/
def soundDisk (byte : ℕ → UInt8) : PartDisk where
  byte := byte
  sectors := 100
  sectorsize := 512
  fails _ := false
  left _ _ := 0
  freshLabel _ := 0
  freshTbl _ := 0
  sectors_lt := by norm_num
  sectorsize_lt := by norm_num

end Blub.Boot
