import Blub.Lib.Nodes

/-! The cache of open disks of the loader, from `disk.c`: which partition a device descriptor stands for, and the
partition tables that are kept for the next descriptor of the same disk. -/
namespace Blub.Boot
open Blub.Nodes

section Tables

inductive PtableType
  | none | bsd32 | bsd64 | mbr | gpt
  deriving DecidableEq

inductive PartitionType
  | unknown | efi | dflyHammer | dflyHammer2 | dflySwap | dflyLabel32 | dflyLabel64 | dflyLegacy | dflyUfs1
  | dflyVinum | freebsd | freebsdBoot | freebsdUfs | freebsdSwap | freebsdVinum | linux | linuxSwap | dos
  deriving DecidableEq

structure PtableEntry where
  start : ℕ
  stop : ℕ
  index : ℤ
  type : PartitionType

/-- A partition table that was read, with the partition that `ptable_getbestpart` prefers. -/
structure Ptable where
  type : PtableType
  entries : List PtableEntry
  best : Option PtableEntry

def enoentRc : ℤ := 2
def enxioRc : ℤ := 6
def enomemRc : ℤ := 12
def eagainRc : ℤ := 35

def ptableGetpart (t : Ptable) (index : ℤ) : Except ℤ PtableEntry :=
  match t.entries.find? fun e => e.index = index with
  | some e => .ok e
  | none => .error enoentRc

def ptableGetbestpart (t : Ptable) : Except ℤ PtableEntry :=
  match t.best with
  | some e => .ok e
  | none => .error enoentRc

def PtableType.bsd (t : PtableType) : Prop := t = .bsd32 ∨ t = .bsd64

instance (t : PtableType) : Decidable t.bsd := inferInstanceAs (Decidable (_ ∨ _))

end Tables

section Code

structure OpenDisk where
  table : Option Ptable
  mediasize : ℤ
  sectorsize : ℕ
  flags : ℕ
  rcnt : ℤ

/-- A cached entry. -/
structure Dentry where
  dev : ℕ
  unit : ℤ
  slice : ℤ
  partition : ℤ
  od : ℕ
  offset : ℤ

/-- A device descriptor. Before it is opened, `opendata` can be anything. -/
structure DiskDevdesc where
  dev : ℕ
  unit : ℤ
  opendata : Option ℕ
  slice : ℤ
  partition : ℤ
  offset : ℤ

structure DiskCache where
  heap : Store OpenDisk
  openedDisks : List Dentry
  reads : ℕ
  mallocs : ℕ

/-- What the memory and the disks do: where a new structure goes and whether `malloc` delivers, and what the
`n`-th reading of a partition table finds. -/
structure DiskWorld where
  alloc : Allocator
  malloc : ℕ → Bool
  ptableOpen : ℕ → DiskDevdesc → (sectors : ℤ) → (sectorsize : ℕ) → Option Ptable

/-- `DISK_F_NOCACHE` -/
def nocache (flags : ℕ) : Bool := flags.testBit 0

def diskLookup (dev : DiskDevdesc) (rc : ℤ) : List Dentry → ℤ × DiskDevdesc
  | [] => (rc,dev)
  | entry :: l =>
    if entry.dev ≠ dev.dev ∨ entry.unit ≠ dev.unit then diskLookup dev rc l
    else
      let dev := { dev with opendata := some entry.od }
      if entry.slice = dev.slice ∧ entry.partition = dev.partition then (0,{ dev with offset := entry.offset })
      else diskLookup dev eagainRc l

/-- Without memory for the entry the disk is not cached. -/
def diskInsert (w : DiskWorld) (s : DiskCache) (dev : DiskDevdesc) : Option DiskCache :=
  if ¬ w.malloc s.mallocs then some { s with mallocs := s.mallocs+1 }
  else do
    let od ← dev.opendata
    let heap ← s.heap.modify od fun o => { o with rcnt := o.rcnt+1 }
    return { s with
      mallocs := s.mallocs+1
      heap := heap
      openedDisks := s.openedDisks ++ [⟨dev.dev,dev.unit,dev.slice,dev.partition,od,dev.offset⟩] }

/-- What `disk_open` makes of the partition tables: the error, the descriptor, the slice and the partition. -/
structure PartResult where
  rc : ℤ
  dev : DiskDevdesc
  slice : ℤ
  partition : ℤ
  reads : ℕ

/-- `disk_open` from `opened` to `out`. -/
def diskPart (w : DiskWorld) (reads : ℕ) (dev : DiskDevdesc) (od : OpenDisk) (table : Ptable) : PartResult :=
  if table.type.bsd ∧ dev.partition ≥ 0 then
    match ptableGetpart table dev.partition with
    | .ok part => ⟨0,{ dev with offset := part.start },dev.slice,dev.partition,reads⟩
    | .error rc => ⟨rc,dev,dev.slice,dev.partition,reads⟩
  else if dev.slice ≥ 0 then
    match if dev.slice = 0 then ptableGetbestpart table else ptableGetpart table dev.slice with
    | .error rc => ⟨rc,dev,dev.slice,dev.partition,reads⟩
    | .ok part =>
      let dev := { dev with offset := part.start }
      if table.type = .gpt then ⟨0,dev,part.index,255,reads⟩
      else
        let partition := if dev.partition = 255 then -1 else dev.partition
        if partition = -1 ∧ part.type ≠ .dflyLegacy then ⟨0,dev,part.index,partition,reads⟩
        else
          match w.ptableOpen reads dev ((part.stop : ℤ)-part.start+1) od.sectorsize with
          | none => ⟨enxioRc,dev,part.index,partition,reads+1⟩
          | some label =>
            if partition < 0 ∧ ¬ label.type.bsd then ⟨0,dev,part.index,partition,reads+1⟩
            else
              let partition := if partition < 0 then 0 else partition
              match ptableGetpart label partition with
              | .error rc => ⟨rc,dev,part.index,partition,reads+1⟩
              | .ok p => ⟨0,{ dev with offset := dev.offset+p.start },part.index,partition,reads+1⟩
  else ⟨0,dev,dev.slice,dev.partition,reads⟩

/-- `disk_open` from `out` on: a structure that nobody has cached goes if the disk cannot be opened. -/
def diskOut (w : DiskWorld) (s : DiskCache) (a flags : ℕ) (r : PartResult) :
    Option (ℤ × DiskDevdesc × DiskCache) :=
  if r.rc ≠ 0 then do
    let od ← s.heap.read a
    if od.rcnt < 1 then
      let heap ← s.heap.free a
      return (r.rc,r.dev,{ s with heap := heap })
    else return (r.rc,r.dev,s)
  else do
    let s ← if nocache flags then some s else diskInsert w s r.dev
    return (0,{ r.dev with slice := r.slice, partition := r.partition },s)

/-- `disk_open` from `opened` on. -/
def diskOpened (w : DiskWorld) (s : DiskCache) (dev : DiskDevdesc) (a flags : ℕ) :
    Option (ℤ × DiskDevdesc × DiskCache) := do
  let od ← s.heap.read a
  let table ← od.table
  let r := diskPart w s.reads dev od table
  diskOut w { s with reads := r.reads } a flags r

/-- The size of a disk and of its sectors. -/
structure Geometry where
  mediasize : ℤ
  sectorsize : ℕ
  pos : 0 < sectorsize

/-- `disk_open` of a disk that has no structure yet. -/
def diskFresh (w : DiskWorld) (s : DiskCache) (dev : DiskDevdesc) (geo : Geometry) (flags : ℕ) :
    Option (ℤ × DiskDevdesc × DiskCache) :=
  if ¬ w.malloc s.mallocs then some (enomemRc,dev,{ s with mallocs := s.mallocs+1 })
  else
    let (a,heap) := s.heap.alloc w.alloc ⟨none,geo.mediasize,geo.sectorsize,flags,0⟩
    let dev := { dev with opendata := some a }
    let s := { s with heap := heap, mallocs := s.mallocs+1, reads := s.reads+1 }
    match w.ptableOpen (s.reads-1) dev (geo.mediasize/geo.sectorsize) geo.sectorsize with
    | none => diskOut w s a flags ⟨enxioRc,dev,dev.slice,dev.partition,s.reads⟩
    | some table => do
      let heap ← s.heap.modify a fun od => { od with table := some table }
      diskOpened w { s with heap := heap } dev a flags

def diskOpen (w : DiskWorld) (s : DiskCache) (dev : DiskDevdesc) (geo : Geometry) (flags : ℕ) :
    Option (ℤ × DiskDevdesc × DiskCache) :=
  let (rc,dev) := if nocache flags then (0,dev) else diskLookup dev enoentRc s.openedDisks
  if ¬ nocache flags ∧ rc = 0 then some (0,dev,s)
  else
    let dev := { dev with offset := 0 }
    if rc = eagainRc then do
      let a ← dev.opendata
      diskOpened w s dev a flags
    else diskFresh w s dev geo flags

/-- A disk that is not cached is gone when it is closed. -/
def diskClose (s : DiskCache) (dev : DiskDevdesc) : Option DiskCache := do
  let a ← dev.opendata
  let od ← s.heap.read a
  if nocache od.flags then
    let heap ← s.heap.free a
    return { s with heap := heap }
  else return s

/-- The loop of `disk_cleanup`: the memory, and the entries that stay. -/
def cleanupLoop (d : ℕ) (heap : Store OpenDisk) : List Dentry → Option (Store OpenDisk × List Dentry)
  | [] => some (heap,[])
  | entry :: l =>
    if entry.dev ≠ d then do
      let (heap,l) ← cleanupLoop d heap l
      return (heap,entry :: l)
    else do
      let heap ← heap.modify entry.od fun od => { od with rcnt := od.rcnt-1 }
      let od ← heap.read entry.od
      let heap ← if od.rcnt < 1 then heap.free entry.od else some heap
      cleanupLoop d heap l

def diskCleanup (s : DiskCache) (d : ℕ) : Option DiskCache := do
  let (heap,l) ← cleanupLoop d s.heap s.openedDisks
  return { s with heap := heap, openedDisks := l }

attribute [local grind =] diskLookup diskPart cleanupLoop

end Code

section Sessions

/-- A descriptor whose open succeeded, with the flags of the open. It is stale when its device has been cleaned up
since then. -/
structure DiskDesc where
  dev : DiskDevdesc
  flags : ℕ
  stale : Bool

/-- The cache, and the descriptors that are open. -/
structure DiskSession where
  cache : DiskCache
  descs : List DiskDesc

inductive DiskCall
  | diskOpen (dev : DiskDevdesc) (geo : Geometry) (flags : ℕ)
  | diskClose (i : ℕ)
  | diskCleanup (d : ℕ)

/-- Only descriptors that are open are closed. -/
def DiskSession.exec (w : DiskWorld) (s : DiskSession) : DiskCall → Option DiskSession
  | .diskOpen dev geo flags => do
    let (rc,dev,cache) ← Boot.diskOpen w s.cache dev geo flags
    return ⟨cache,if rc = 0 then s.descs ++ [⟨dev,flags,false⟩] else s.descs⟩
  | .diskClose i =>
    match s.descs[i]? with
    | none => some s
    | some x => do return ⟨← Boot.diskClose s.cache x.dev,s.descs.eraseIdx i⟩
  | .diskCleanup d => do
    return ⟨← Boot.diskCleanup s.cache d,s.descs.map fun x => { x with stale := x.stale || x.dev.dev = d }⟩

def noDisks : DiskSession where
  cache := ⟨⟨fun _ => ⟨none,0,0,0,0⟩,[],0⟩,[],0,0⟩
  descs := []

def diskRun (w : DiskWorld) (s : DiskSession) : List DiskCall → Option DiskSession
  | [] => some s
  | c :: cs => do diskRun w (← s.exec w c) cs

attribute [local grind =] DiskSession.exec diskRun

end Sessions

end Blub.Boot
