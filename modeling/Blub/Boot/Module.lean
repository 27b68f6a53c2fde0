import Blub.Lib.Nodes

/-! The loading of modules, from `module.c`, with the checks of `load_elf.c` and `load_elf_obj.c` that decide what
a file is loaded as. The files that are loaded are a linked list, to which every level of the recursion appends. -/
namespace Blub.Boot
open Blub.Nodes

structure ModDepend where
  verMinimum : ℤ
  verPreferred : ℤ
  verMaximum : ℤ

structure KernelModule where
  name : String
  version : ℤ

/-- A `struct preloaded_file`. Of its metadata, `MODINFOMD_DEPLIST` is kept: the modules that it requires. -/
structure PreloadedFile where
  name : String
  type : String
  addr : ℕ
  size : ℕ
  deplist : List (String × ModDepend)
  modules : List KernelModule
  next : Option ℕ

namespace Mod

def enoent : ℤ := 2
def eperm : ℤ := 1
def eio : ℤ := 5
def eftype : ℤ := 79

section Modules

/-- The loop of `file_findmodule` over the modules of a file. -/
def findLoop (modname : String) (verinfo : Option ModDepend) : List KernelModule → Option KernelModule → ℤ → Option KernelModule
  | [], best, _ => best
  | mp :: l, best, bestver =>
    if mp.name = modname then
      match verinfo with
      | none => some mp
      | some v =>
        if mp.version = v.verPreferred then some mp
        else if v.verMinimum ≤ mp.version ∧ mp.version ≤ v.verMaximum ∧ bestver < mp.version then
          findLoop modname verinfo l (some mp) mp.version
        else findLoop modname verinfo l best bestver
    else findLoop modname verinfo l best bestver

/-- `file_findmodule` in one file. -/
def findIn (fp : PreloadedFile) (modname : String) (verinfo : Option ModDepend) : Option KernelModule :=
  findLoop modname verinfo fp.modules none 0

def fileAddmodule (fp : PreloadedFile) (modname : String) (version : ℤ) : PreloadedFile :=
  if (findIn fp modname (some ⟨0,version,0⟩)).isSome then fp
  else {fp with modules := ⟨modname,version⟩ :: fp.modules}

attribute [local grind =] findLoop

end Modules

section Elf

inductive ElfType
  | dyn | exec | rel | other
  deriving DecidableEq

/-- An entry of a file's set of metadata. -/
inductive Metadata
  | depend (modname : String) (dep : ModDepend)
  | version (modname : String) (version : ℤ)
  | other

/-- What a loader makes of a file: it cannot be opened or its header is refused, or it is of some type, and
`loadimage` gives it a place and a length. `metadata` is what `parse_modmetadata` gets to, and `parsed` says that it
gets to the end. -/
structure ElfFile where
  refused : Option {error : ℤ // error ≠ 0}
  type : ElfType
  entry : ℕ
  alloc : Bool
  image : ℕ → ℕ × ℕ
  metadata : List Metadata
  parsed : Bool

def kerneltype : String := "elf kernel"
def moduletype : String := "elf module"
def objModuletype : String := "elf obj module"

def pageSize : ℕ := 4096

/-- The loop of `parse_modmetadata`: the file, and `modcnt`. The kernel must not depend on anything. -/
def parseModmetadata (kernel : Bool) : List Metadata → PreloadedFile → ℕ → PreloadedFile × ℕ
  | [], fp, modcnt => (fp,modcnt)
  | .depend modname dep :: l, fp, modcnt =>
    if kernel then parseModmetadata kernel l fp modcnt
    else parseModmetadata kernel l {fp with deplist := (modname,dep) :: fp.deplist} modcnt
  | .version modname version :: l, fp, modcnt => parseModmetadata kernel l (fileAddmodule fp modname version) (modcnt+1)
  | .other :: l, fp, modcnt => parseModmetadata kernel l fp modcnt

/-- `dest`, rounded up to a page. -/
def pageAlign (dest : ℕ) : ℕ := if dest%pageSize = 0 then dest else dest+(pageSize-dest%pageSize)

/-- The last part of both loaders: `file_alloc`, `loadimage` and its metadata. -/
def loadAt (ef : ElfFile) (filename type : String) (kernel : Bool) (dest : ℕ) : Except ℤ (PreloadedFile × ℕ) :=
  if ¬ef.alloc then .error eperm
  else
    let (addr,size) := ef.image dest
    if size = 0 ∨ addr = 0 then .error eio
    else .ok (parseModmetadata kernel ef.metadata ⟨filename,type,addr,size,[],[],none⟩ 0)

/-- A kernel or a module, which has a module of its own name where it names none. -/
def elfLoadAt (fakeModname : String → String) (ef : ElfFile) (filename : String) (kernel : Bool) (dest : ℕ) :
    Except ℤ PreloadedFile :=
  match loadAt ef filename (if kernel then kerneltype else moduletype) kernel dest with
  | .error e => .error e
  | .ok (fp,modcnt) => .ok (if ef.parsed ∧ modcnt = 0 then fileAddmodule fp (fakeModname filename) 1 else fp)

/-- `__elfN(loadfile)`, where `kfp` is the first file of the list. -/
def elfLoadfile (fakeModname : String → String) (ef : ElfFile) (kfp : Option PreloadedFile) (filename : String) (dest : ℕ) :
    Except ℤ PreloadedFile :=
  match ef.refused with
  | some e => .error e
  | none =>
    match ef.type with
    | .dyn =>
      match kfp with
      | none => .error eperm
      | some kfp =>
        if kfp.type ≠ kerneltype then .error eperm else elfLoadAt fakeModname ef filename false (pageAlign dest)
    | .exec => if kfp.isSome ∨ ef.entry = 0 then .error eperm else elfLoadAt fakeModname ef filename true ef.entry
    | _ => .error eftype

/-- `__elfN(obj_loadfile)` -/
def objLoadfile (ef : ElfFile) (kfp : Option PreloadedFile) (filename : String) (dest : ℕ) : Except ℤ PreloadedFile :=
  match ef.refused with
  | some e => .error e
  | none =>
    if ef.type ≠ .rel then .error eftype
    else
      match kfp with
      | none => .error eperm
      | some kfp =>
        if kfp.type ≠ kerneltype then .error eperm
        else (loadAt ef filename objModuletype false (pageAlign dest)).map (·.1)

inductive Format
  | elf
  | elfObj

attribute [local grind =] parseModmetadata elfLoadAt elfLoadfile objLoadfile

end Elf

section Code

/-- `preloaded_files`, `loadaddr` and `last_file_format`; `calls` counts what was asked of the disk. -/
structure ModList where
  heap : Store PreloadedFile
  preloadedFiles : Option ℕ
  loadaddr : ℕ
  lastFileFormat : ℕ
  calls : ℕ

/-- The disk and the memory: which file a name is found as, and what a file is for a loader, at the `n`th call. -/
structure ModWorld where
  alloc : Allocator
  havepath : String → Bool
  fileSearch : ℕ → String → Option String
  searchmodule : ℕ → String → Option ModDepend → Option String
  formats : List Format
  file : ℕ → ℕ → String → ElfFile
  fakeModname : String → String

/-- `deep`: the recursion goes deeper than was asked for. `fault`: a pointer to nothing, or to what is freed. -/
inductive Stop
  | deep
  | fault
  deriving DecidableEq

def use {α : Type*} : Option α → Except Stop α
  | some a => .ok a
  | none => .error .fault

namespace ModList

/-- A walk along the list, up to the first file with `p`. -/
def search (s : ModList) (p : PreloadedFile → Bool) : Option (Option ℕ) :=
  s.heap.search PreloadedFile.next p s.heap.live.length s.preloadedFiles

/-- The last file of the list. -/
def last (s : ModList) : Option (Option ℕ) := s.search fun fp => fp.next.isNone

def fileFindfile (s : ModList) (name : String) : Option (Option ℕ) := s.search fun fp => fp.name = name

/-- `file_findmodule` in all files: whether there is one. -/
def fileFindmodule (s : ModList) (modname : String) (verinfo : Option ModDepend) : Option Bool :=
  (s.search fun fp => (findIn fp modname verinfo).isSome).map Option.isSome

def fileInsertTail (s : ModList) (a : ℕ) : Option ModList := do
  let heap ← s.heap.modify a fun fp => {fp with next := none}
  let s := {s with heap := heap}
  match s.preloadedFiles with
  | none => return {s with preloadedFiles := some a}
  | some _ =>
    let cm ← ← s.last
    let heap ← s.heap.modify cm fun fp => {fp with next := some a}
    return {s with heap := heap}

end ModList

variable (w : ModWorld)

def loadFormat (n : ℕ) (kfp : Option PreloadedFile) (filename : String) (dest : ℕ) (i : ℕ) : Format → Except ℤ PreloadedFile
  | .elf => elfLoadfile w.fakeModname (w.file n i filename) kfp filename dest
  | .elfObj => objLoadfile (w.file n i filename) kfp filename dest

/-- The loop of `file_load` from a format on: the next one is tried where a format does not know the file. -/
def loadLoop (load : ℕ → Format → Except ℤ PreloadedFile) : ℕ → List Format → Except ℤ (ℕ × PreloadedFile)
  | _, [] => .error eftype
  | i, f :: fs =>
    match load i f with
    | .ok fp => .ok (i,fp)
    | .error e => if e = eftype then loadLoop load (i+1) fs else .error e

/-- The loop of `file_load`. The format of the last file is tried first; where it fails, all are tried from the beginning. -/
def loadFrom (kfp : Option PreloadedFile) (filename : String) (s : ModList) : Except ℤ (ℕ × PreloadedFile) :=
  if s.lastFileFormat = 0 then loadLoop (loadFormat w s.calls kfp filename s.loadaddr) 0 w.formats
  else
    match w.formats[s.lastFileFormat]? with
    | none => .error eftype
    | some f =>
      match loadFormat w s.calls kfp filename s.loadaddr s.lastFileFormat f with
      | .ok fp => .ok (s.lastFileFormat,fp)
      | .error _ => loadLoop (loadFormat w (s.calls+1) kfp filename s.loadaddr) 0 w.formats

/-- The first file of the list, which the loaders ask for. -/
def ModList.firstFile (s : ModList) : Option (Option PreloadedFile) :=
  match s.preloadedFiles with
  | none => some none
  | some a => (s.heap.read a).map some

def fileLoad (filename : String) (s : ModList) : Except Stop (Except ℤ ℕ × ModList) := do
  let kfp ← use s.firstFile
  match loadFrom w kfp filename s with
  | .error e =>
    let last := if (w.formats[s.lastFileFormat]?).isSome then 0 else s.lastFileFormat
    return (.error e,{s with lastFileFormat := last, calls := s.calls+2})
  | .ok (i,fp) =>
    let (a,heap) := s.heap.alloc w.alloc fp
    return (.ok a,{s with heap := heap, lastFileFormat := i, calls := s.calls+2})

/-- `file_discard` of a file and of those behind it. -/
def discardFrom : ℕ → Option ℕ → Store PreloadedFile → Option (Store PreloadedFile)
  | _, none, heap => some heap
  | 0, some _, _ => none
  | k+1, some a, heap => do
    let fp ← heap.read a
    let heap ← heap.free a
    discardFrom k fp.next heap

/-- How `mod_load` is called. -/
abbrev Loading := String → Option ModDepend → ModList → Except Stop (ℤ × ModList)

attribute [local grind =] loadLoop loadFrom fileLoad discardFrom

variable (load : Loading)

/-- The loop of `file_load_dependencies` over the metadata of `base`. -/
def dependLoop (base : ℕ) : List (String × ModDepend) → ModList → Except Stop (ℤ × ModList)
  | [], s => .ok (0,s)
  | (dmodname,verinfo) :: l, s => do
    let _ ← use (s.heap.read base)
    if ← use (s.fileFindmodule dmodname (some verinfo)) then dependLoop base l s
    else
      let (error,s) ← load dmodname (some verinfo) s
      if error ≠ 0 then return (error,s)
      if ← use (s.fileFindmodule dmodname (some verinfo)) then dependLoop base l s
      else return (enoent,s)

def fileLoadDependencies (base : ℕ) (s : ModList) : Except Stop (ℤ × ModList) := do
  let fp ← use (s.heap.read base)
  let (error,s) ← dependLoop load base fp.deplist s
  if error = 0 then return (0,s)
  let heap ← use (discardFrom s.heap.live.length (some base) s.heap)
  return (error,{s with heap := heap})

/-- `mod_loadkld`, with `load` for the `mod_load` inside of it. -/
def loadkld (kldname : String) (s : ModList) : Except Stop (ℤ × ModList) := do
  let found := w.fileSearch s.calls kldname
  let s := {s with calls := s.calls+1}
  match found with
  | none => return (enoent,s)
  | some filename =>
    match ← use (s.fileFindfile filename) with
    | some _ => return (0,s)
    | none =>
      let lastFile ← use s.last
      let (loaded,s) ← fileLoad w filename s
      match loaded with
      | .error e => return (e,s)
      | .ok a =>
        let fp ← use (s.heap.read a)
        let s ← use ({s with loadaddr := fp.addr+fp.size}.fileInsertTail a)
        let (error,s) ← fileLoadDependencies load a s
        if error = 0 then return (0,s)
        let lastFile ← use lastFile
        let heap ← use (s.heap.modify lastFile fun fp => {fp with next := none})
        let fp ← use (heap.read lastFile)
        return (enoent,{s with heap := heap, loadaddr := fp.addr+fp.size})

/-- `mod_load`, with `depth` levels of dependencies to go. -/
def modLoad : ℕ → Loading
  | 0, _, _, _ => .error .deep
  | depth+1, modname, verinfo, s => do
    if w.havepath modname then loadkld w (modLoad depth) modname s
    else if ← use (s.fileFindmodule modname verinfo) then return (0,s)
    else
      let found := w.searchmodule s.calls modname verinfo
      let s := {s with calls := s.calls+1}
      match found with
      | none => return (enoent,s)
      | some filename => loadkld w (modLoad depth) filename s

def modLoadkld (depth : ℕ) (kldname : String) (s : ModList) : Except Stop (ℤ × ModList) := loadkld w (modLoad w depth) kldname s

attribute [local grind =] dependLoop loadkld modLoad

end Code

end Mod
end Blub.Boot
