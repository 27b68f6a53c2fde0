import Mathlib
import Blub.Lib.CStr
import Blub.Lib.Records
import Blub.Boot.EfiCopy

/-! What the loaders hand over to the kernel, from the `bootinfo.c` of libi386 and of the EFI loader, `bootinfo32.c` and
`bootinfo64.c`: the environment, and a directory of the loaded files with their metadata. -/
namespace Blub.Boot.HandOver
open Copies Records

/-- The numbers of records and of metadata, from headers of the system, and what these say about them. -/
structure Linker where
  modinfoEnd : ℕ
  modinfoName : ℕ
  modinfoType : ℕ
  modinfoAddr : ℕ
  modinfoSize : ℕ
  modinfoArgs : ℕ
  modinfoMetadata : ℕ
  nocopy : ℕ
  howto : ℕ
  envp : ℕ
  kernend : ℕ
  smap : ℕ
  smapXattr : Option ℕ
  fwHandle : ℕ
  efiFb : ℕ
  efiMap : ℕ
  metadata_eq : modinfoMetadata = 2^15
  nocopy_eq : nocopy = 2^15
  records_nodup : [modinfoEnd,modinfoName,modinfoType,modinfoAddr,modinfoSize,modinfoArgs].Nodup
  records_lt : ∀ t ∈ [modinfoEnd,modinfoName,modinfoType,modinfoAddr,modinfoSize,modinfoArgs], t < 2^15
  kinds_nodup : ([howto,envp,kernend,smap,fwHandle,efiFb,efiMap] ++ smapXattr.toList).Nodup
  kinds_lt : ∀ t ∈ [howto,envp,kernend,smap,fwHandle,efiFb,efiMap] ++ smapXattr.toList, t < 2^15

/-- The bits of an address and of a size, what the data of a record is padded to, and the bytes of an address in one. -/
structure Words where
  word : ℕ
  pad : ℕ
  var : ℕ
  page_dvd : 4096 ∣ 2^word
  pad_pos : 0 < pad
  pad_le : pad ≤ 8
  var_le : 2^word ≤ 256^var

structure FileMetadata where
  mdType : UInt16
  mdData : List UInt8

structure PreloadedFile where
  fName : CStr
  fType : CStr
  fArgs : Option CStr
  fAddr : ℕ
  fSize : ℕ
  fMetadata : List FileMetadata

structure EnvVar where
  evName : CStr
  evValue : Option CStr

inductive Stop
  | einval
  | panic
  deriving DecidableEq

/-- What a loader has done: the file of the kernel among the files, what it returns and has on the way, and the memory.
`moduleEnd` is where the second `bi_copymodules` gets to. -/
structure Loaded (σ : Type*) where
  files : List PreloadedFile
  kernel : ℕ
  envp : ℕ
  envEnd : ℕ
  modulep : ℕ
  size : ℕ
  kernendp : ℕ
  moduleEnd : ℕ
  area : σ

def pageSize : ℕ := 4096

def ascii (s : String) : List UInt8 := s.toList.map fun c => UInt8.ofNat c.toNat

def elfKernel : CStr := ⟨ascii "elf kernel",by decide⟩
def elf32Kernel : CStr := ⟨ascii "elf32 kernel",by decide⟩
def elf64Kernel : CStr := ⟨ascii "elf64 kernel",by decide⟩

section Files

def fileAddmetadata (fp : PreloadedFile) (type : ℕ) (p : List UInt8) : PreloadedFile :=
  {fp with fMetadata := ⟨UInt16.ofNat type,p⟩ :: fp.fMetadata}

/-- `bcopy` to the data of what `file_findmetadata` finds. -/
def patchMetadata (type : ℕ) (p : List UInt8) : List FileMetadata → List FileMetadata
  | [] => []
  | md :: l =>
    if md.mdType.toNat = type then {md with mdData := p ++ md.mdData.drop p.length} :: l else md :: patchMetadata type p l

/-- `file_findfile` for a type, and for another one where there is none. -/
def findKernel (second : CStr) (files : List PreloadedFile) : Option ℕ :=
  match files.findIdx? (fun fp => fp.fType = elfKernel) with
  | some k => some k
  | none => files.findIdx? fun fp => fp.fType = second

/-- `bios_addsmapdata`. No entries are an empty table. -/
def biosAddsmapdata (L : Linker) (smapbase smapattr : Option (List UInt8)) (kfp : PreloadedFile) : PreloadedFile :=
  match smapbase with
  | none => kfp
  | some [] => kfp
  | some (x :: l) =>
    let kfp := fileAddmetadata kfp L.smap (x :: l)
    match smapattr,L.smapXattr with
    | some attr,some t => fileAddmetadata kfp t attr
    | _,_ => kfp

/-- What `bi_load_efi_data` adds: the framebuffer, if there is one, and the memory map, if the firmware gives it. -/
def biLoadEfiData (L : Linker) (fb map : Option (List UInt8)) (kfp : PreloadedFile) : PreloadedFile :=
  let kfp := match fb with
    | none => kfp
    | some efifb => fileAddmetadata kfp L.efiFb efifb
  match map with
  | none => kfp
  | some efihdr => fileAddmetadata kfp L.efiMap efihdr

attribute [local grind =] patchMetadata biLoadEfiData

end Files

section Copying
variable {σ : Type*} (m : Words) (L : Linker) (A : Copier σ)

def roundup (w x y : ℕ) : ℕ := (x+(y-1))%2^w/y*y

/-- `addr` behind the last file. -/
def lastAddr (w : ℕ) (files : List PreloadedFile) : ℕ :=
  files.foldl (fun addr xp => if addr < (xp.fAddr+xp.fSize)%2^w then (xp.fAddr+xp.fSize)%2^w else addr) 0

section Macros
variable (c : Bool)

def copy32 (v : ℕ) (o : ℕ × σ) : ℕ × σ := put A m.word c ⟨le 4 v,4⟩ o

/-- What `MOD_STR`, `MOD_VAR` and `MOD_METADATA` have in common. -/
def modData (t : ℕ) (data : List UInt8) (o : ℕ × σ) : ℕ × σ :=
  let o := copy32 m A c t o
  let o := copy32 m A c data.length o
  put A m.word c ⟨data,roundup m.word data.length m.pad⟩ o

def modStr (t : ℕ) (s : CStr) (o : ℕ × σ) : ℕ × σ := modData m A c t (s.bytes ++ [0]) o
def modName (s : CStr) (o : ℕ × σ) : ℕ × σ := modStr m A c L.modinfoName s o
def modType (s : CStr) (o : ℕ × σ) : ℕ × σ := modStr m A c L.modinfoType s o
def modArgs (s : CStr) (o : ℕ × σ) : ℕ × σ := modStr m A c L.modinfoArgs s o

def modVar (t v : ℕ) (o : ℕ × σ) : ℕ × σ := modData m A c t (le m.var v) o
def modAddr (v : ℕ) (o : ℕ × σ) : ℕ × σ := modVar m A c L.modinfoAddr v o
def modSize (v : ℕ) (o : ℕ × σ) : ℕ × σ := modVar m A c L.modinfoSize v o

def modMetadata (mm : FileMetadata) (o : ℕ × σ) : ℕ × σ :=
  modData m A c (L.modinfoMetadata ||| mm.mdType.toNat) mm.mdData o

def modEnd (o : ℕ × σ) : ℕ × σ := copy32 m A c 0 (copy32 m A c L.modinfoEnd o)

/-- The body of the loop over the files. -/
def copyFile (fp : PreloadedFile) (o : ℕ × σ) : ℕ × σ :=
  let o := modName m L A c fp.fName o
  let o := modType m L A c fp.fType o
  let o := match fp.fArgs with
    | some s => modArgs m L A c s o
    | none => o
  let o := modAddr m L A c fp.fAddr o
  let o := modSize m L A c fp.fSize o
  fp.fMetadata.foldl (fun o md => if md.mdType.toNat &&& L.nocopy = 0 then modMetadata m L A c md o else o) o

end Macros

/-- `bi_copymodules32`, `bi_copymodules64` and `bi_copymodules`: with the address 0, the files are only measured. -/
def biCopymodules (files : List PreloadedFile) (o : ℕ × σ) : ℕ × σ :=
  let c := decide (o.1 ≠ 0)
  modEnd m L A c (files.foldl (fun o fp => copyFile m L A c fp o) o)

/-- What the three loaders do alike, with `copyenv` for the environment, the second type that a kernel can have, and what
they add to the metadata of the kernel. -/
def handOver (copyenv : List EnvVar → ℕ × σ → ℕ × σ) (second : CStr) (howto : ℕ)
    (addData : PreloadedFile → PreloadedFile) (files : List PreloadedFile) (environ : List EnvVar) (s : σ) :
    Except Stop (Loaded σ) :=
  let envp := roundup m.word (lastAddr m.word files) pageSize
  let (envEnd,s) := copyenv environ (envp,s)
  let addr := roundup m.word envEnd pageSize
  match findKernel second files with
  | none => .error .panic
  | some k =>
    let files := files.modify k fun kfp =>
      let kfp := fileAddmetadata kfp L.howto (le 4 howto)
      let kfp := fileAddmetadata kfp L.envp (le m.var envp)
      let kfp := fileAddmetadata kfp L.kernend (le m.var 0)
      addData kfp
    -- the first run only measures
    let size := (biCopymodules m L A files (0,s)).1
    let kernend := roundup m.word ((addr+size)%2^m.word) pageSize
    let files := files.modify k fun kfp =>
      {kfp with fMetadata := patchMetadata L.kernend (le m.var kernend) kfp.fMetadata}
    let (moduleEnd,s) := biCopymodules m L A files (addr,s)
    .ok ⟨files,k,envp,envEnd,addr,size,kernend,moduleEnd,s⟩

end Copying

section Pc32

def efbig : ℕ := 27

/-- The memory, and what refused copies leave in `errno`: 0 before the first one. -/
structure Memory where
  byte : ℕ → UInt8
  errno : ℕ

/-- `bcopy` to addresses of 32 bits. -/
def bcopy (b : ℕ → UInt8) (dest : ℕ) (src : List UInt8) : ℕ → UInt8 := fun a =>
  if (a+(2^32-dest))%2^32 < src.length then Bytes.ofList src ((a+(2^32-dest))%2^32) else b a

def i386Copyin (memtop : ℕ) (s : Memory) (src : List UInt8) (dest : ℕ) : Memory × Bool :=
  if memtop ≤ (dest+src.length)%2^32 then ({s with errno := efbig},false)
  else ({s with byte := bcopy s.byte dest src},true)

def pc32 (memtop : ℕ) : Copier Memory := ⟨i386Copyin memtop,Memory.byte,Memory.errno⟩

/-- A copy and the address behind it. -/
def copyNext (memtop : ℕ) (src : List UInt8) (o : ℕ × Memory) : ℕ × Memory :=
  ((o.1+src.length)%2^32,(i386Copyin memtop o.2 src o.1).1)

/-- `bi_copyenv`, where what `i386_copyin` returns is ignored. -/
def biCopyenv (memtop : ℕ) (environ : List EnvVar) (o : ℕ × Memory) : ℕ × Memory :=
  let o := environ.foldl (fun o ep =>
    let o := copyNext memtop ep.evName.bytes o
    let o := copyNext memtop (ascii "=") o
    let o := match ep.evValue with
      | some v => copyNext memtop v.bytes o
      | none => o
    copyNext memtop [0] o) o
  copyNext memtop [0] o

/-- Words of 32 bits, as a kernel of that kind expects them. -/
def words32 : Words := ⟨32,4,4,by norm_num,by norm_num,by norm_num,by norm_num⟩

/-- Words of 64 bits for the kernel, from a loader with 32. -/
def words64 : Words := ⟨32,8,8,by norm_num,by norm_num,by norm_num,by norm_num⟩

/-- What the loader finds: the processor, the device of the root file system and its number, and the map of the memory. -/
structure Pc where
  checkcpu : Bool
  rootdev : Bool
  bootdevnr : ℤ
  howto : ℕ
  smapbase : Option (List UInt8)
  smapattr : Option (List UInt8)

def biLoad32 (L : Linker) (memtop : ℕ) (pc : Pc) (files : List PreloadedFile) (environ : List EnvVar) (s : Memory) :
    Except Stop (Loaded Memory) :=
  if ¬pc.rootdev then .error .einval
  else if pc.bootdevnr = -1 then .error .einval
  else
    handOver words32 L (pc32 memtop) (biCopyenv memtop) elf32Kernel pc.howto (biosAddsmapdata L pc.smapbase pc.smapattr)
      files environ s

def biLoad64 (L : Linker) (memtop : ℕ) (pc : Pc) (files : List PreloadedFile) (environ : List EnvVar) (s : Memory) :
    Except Stop (Loaded Memory) :=
  if ¬pc.checkcpu then .error .einval
  else if ¬pc.rootdev then .error .einval
  else
    handOver words64 L (pc32 memtop) (biCopyenv memtop) elf64Kernel pc.howto (biosAddsmapdata L pc.smapbase pc.smapattr)
      files environ s

end Pc32

section Efi
open EfiCopy

def enomem : ℕ := 12

/-- The staging area, and what refused copies leave in `errno`. -/
structure Staged where
  stage : Stage
  errno : ℕ

/-- What is returned, as a `size_t`. -/
def sizeT (ret : ℤ) : ℕ := (ret%2^64).toNat

def archCopyin (area : Area) (s : Staged) (src : List UInt8) (dest : ℕ) : Staged × Bool :=
  let r := efiCopyin area s.stage (Bytes.ofList src) dest src.length
  let refused := area.stagingEnd < (dest+(setOffset area s.stage dest).stageOffset+src.length)%2^64
  (⟨r.2,if refused then enomem else s.errno⟩,sizeT r.1.ret == src.length)

/-- An address means the byte at its place in the area. -/
def efi (area : Area) : Copier Staged := ⟨archCopyin area,fun s a => s.stage.mem (efiTranslate s.stage a),Staged.errno⟩

/-- A copy and the address behind it; what is left where it is refused. -/
def copyOr (area : Area) (src : List UInt8) (o : ℕ × Staged) : Except Staged (ℕ × Staged) :=
  let r := archCopyin area o.2 src o.1
  if r.2 then .ok ((o.1+src.length)%2^64,r.1) else .error r.1

/-- The body of the loop over the environment. -/
def efiCopyvar (area : Area) (ep : EnvVar) (o : ℕ × Staged) : Except Staged (ℕ × Staged) := do
  let o ← copyOr area ep.evName.bytes o
  let o ← copyOr area (ascii "=") o
  let o ← match ep.evValue with
    | some v => copyOr area v.bytes o
    | none => pure o
  copyOr area [0] o

/-- The loop: `last` is behind the last whole variable. -/
def efiCopyvars (area : Area) : List EnvVar → ℕ × Staged → ℕ × Staged
  | [], o => o
  | ep :: environ, o =>
    match efiCopyvar area ep o with
    | .error s => (o.1,s)
    | .ok o => efiCopyvars area environ o

/-- `bi_copyenv` of the EFI loader. -/
def efiCopyenv (area : Area) (environ : List EnvVar) (o : ℕ × Staged) : ℕ × Staged :=
  let p := efiCopyvars area environ o
  match copyOr area [0] p with
  | .error s => (o.1,s)
  | .ok p => p

def efiWords : Words := ⟨64,8,8,by norm_num,by norm_num,by norm_num,by norm_num⟩

/-- What the loader finds: the device of the root file system, the system table and what the firmware gives. -/
structure Firmware where
  rootdev : Bool
  howto : ℕ
  systemTable : ℕ
  fb : Option (List UInt8)
  map : Option (List UInt8)

/-- `bi_load` -/
def biLoad (L : Linker) (area : Area) (fw : Firmware) (files : List PreloadedFile) (environ : List EnvVar) (s : Staged) :
    Except Stop (Loaded Staged) :=
  if ¬fw.rootdev then .error .einval
  else
    handOver efiWords L (efi area) (efiCopyenv area) elf64Kernel fw.howto
      (fun kfp => biLoadEfiData L fw.fb fw.map (fileAddmetadata kfp L.fwHandle (le 8 fw.systemTable))) files environ s

attribute [local grind =] efiCopyvars efiCopyenv

end Efi

end Blub.Boot.HandOver
