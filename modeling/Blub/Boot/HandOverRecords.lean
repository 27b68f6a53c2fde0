import Blub.Boot.HandOver
import Blub.Lib.Strings
import Mathlib.Data.Nat.Bitwise

/-! What is handed over to the kernel is read back by it: all records, the files with their metadata, and the
environment. -/
namespace Blub.Boot.HandOver
open Copies Records Strings

section Reading

/-- The records of a file that follow its name, those of its metadata last. -/
def otherRecords (m : Words) (L : Linker) (fp : PreloadedFile) : List Record :=
  ⟨L.modinfoType,fp.fType.bytes ++ [0]⟩ :: (fp.fArgs.toList.map fun s => ⟨L.modinfoArgs,s.bytes ++ [0]⟩) ++
    [⟨L.modinfoAddr,le m.var fp.fAddr⟩,⟨L.modinfoSize,le m.var fp.fSize⟩]

def metadataRecords (L : Linker) (l : List FileMetadata) : List Record :=
  (l.filter fun md => md.mdType.toNat &&& L.nocopy = 0).map fun md => ⟨L.modinfoMetadata ||| md.mdType.toNat,md.mdData⟩

def recordsOf (m : Words) (L : Linker) (fp : PreloadedFile) : List Record :=
  ⟨L.modinfoName,fp.fName.bytes ++ [0]⟩ :: (otherRecords m L fp ++ metadataRecords L fp.fMetadata)

/-- What a kernel knows about a file. -/
structure Module where
  name : List UInt8
  type : List UInt8
  args : Option (List UInt8)
  addr : ℕ
  size : ℕ
  metadata : List (ℕ × List UInt8)

def text (data : List UInt8) : List UInt8 := data.takeWhile (· ≠ 0)

def number (data : List UInt8) : ℕ := Bytes.leGet (Bytes.ofList data) 0 data.length

variable (L : Linker)

/-- The records in front of the first name, and those from each name up to the next one. -/
def groups (l : List Record) : List Record × List (List Record) :=
  l.foldr (fun r g => if r.type = L.modinfoName then ([],(r :: g.1) :: g.2) else (r :: g.1,g.2)) ([],[])

def field (t : ℕ) (g : List Record) : Option (List UInt8) := (g.find? fun r => r.type = t).map Record.data

def readModule (g : List Record) : Option Module := do
  let name ← field L.modinfoName g
  let type ← field L.modinfoType g
  let addr ← field L.modinfoAddr g
  let size ← field L.modinfoSize g
  return ⟨text name,text type,(field L.modinfoArgs g).map text,number addr,number size,
    (g.filter fun r => L.modinfoMetadata ≤ r.type).map fun r => (r.type-L.modinfoMetadata,r.data)⟩

/-- The files that records tell of. -/
def readModules (l : List Record) : Option (List Module) :=
  if (groups L l).1 = [] then (groups L l).2.mapM (readModule L) else none

/-- The directory that stands in memory at `a`. -/
def readDirectory (m : Words) (b : ℕ → UInt8) (fuel a : ℕ) : Option (List Module) :=
  (read b m.pad L.modinfoEnd fuel a).bind (readModules L)

/-- The first metadata of a type. -/
def Module.first (f : Module) (t : ℕ) : Option (List UInt8) := (f.metadata.find? fun md => md.1 = t).map Prod.snd

/-- What is to be known about a file. -/
def Module.of (fp : PreloadedFile) : Module where
  name := fp.fName.bytes
  type := fp.fType.bytes
  args := fp.fArgs.map CStr.bytes
  addr := fp.fAddr
  size := fp.fSize
  metadata := (fp.fMetadata.filter fun md => md.mdType.toNat &&& L.nocopy = 0).map fun md => (md.mdType.toNat,md.mdData)

end Reading

section Decoding
variable {m : Words} {L : Linker}

theorem text_append (s : CStr) : text (s.bytes ++ [0]) = s.bytes := by
  have hall : ∀ x ∈ s.bytes, decide (x ≠ 0) = true := by
    intro x hx
    exact decide_eq_true fun h => s.nonzero (h ▸ hx)
  rw [text,List.takeWhile_append_of_pos hall]
  simp

theorem number_le {v : ℕ} (hv : v < 256^m.var) : number (le m.var v) = v := leGet_ofList_le hv

/-- The bit that marks what is not copied is also the one that marks metadata. -/
theorem copied_iff (t : UInt16) : t.toNat &&& L.nocopy = 0 ↔ t.toNat < 2^15 := by
  have ht := t.toNat_lt
  rw [L.nocopy_eq,Nat.and_two_pow,Nat.testBit_eq_decide_div_mod_eq]
  by_cases h : t.toNat < 2^15
  · rw [Nat.div_eq_of_lt h]
    exact iff_of_true rfl h
  · rw [show t.toNat/2^15 = 1 by omega]
    exact iff_of_false (by decide) h

theorem metadata_type {t : UInt16} (h : t.toNat < 2^15) : L.modinfoMetadata ||| t.toNat = L.modinfoMetadata+t.toNat := by
  rw [L.metadata_eq]
  exact (Nat.two_pow_add_eq_or_of_lt h 1).symm

/-- The type of a record for metadata. -/
theorem metadataRecords_type {l : List FileMetadata} {r : Record} (hr : r ∈ metadataRecords L l) :
    L.modinfoMetadata ≤ r.type ∧ r.type < 2^16 := by
  obtain ⟨md,hmd,rfl⟩ := List.mem_map.mp hr
  have hlt := (copied_iff md.mdType).mp (of_decide_eq_true (List.mem_filter.mp hmd).2)
  dsimp only
  rw [metadata_type hlt,L.metadata_eq]
  omega

/-- The type of any other record that follows a name. -/
theorem otherRecords_type {fp : PreloadedFile} {r : Record} (hr : r ∈ otherRecords m L fp) :
    r.type ∈ [L.modinfoType,L.modinfoAddr,L.modinfoSize,L.modinfoArgs] := by
  simp only [otherRecords,List.mem_append,List.mem_cons,List.mem_map,List.not_mem_nil,or_false] at hr
  obtain (rfl | ⟨s,-,rfl⟩) | rfl | rfl := hr <;> simp

/-- The types in front of those of metadata differ. -/
theorem Linker.types_ne (L : Linker) : L.modinfoEnd ≠ L.modinfoName ∧
    (∀ t ∈ [L.modinfoType,L.modinfoAddr,L.modinfoSize,L.modinfoArgs], t ≠ L.modinfoEnd ∧ t ≠ L.modinfoName) ∧
    [L.modinfoType,L.modinfoAddr,L.modinfoSize,L.modinfoArgs].Nodup := by
  have h := L.records_nodup
  rw [List.nodup_cons,List.nodup_cons] at h
  obtain ⟨hend,hname,hrest⟩ := h
  refine ⟨fun he => hend (he ▸ List.mem_cons_self),fun t ht => ⟨fun he => hend ?_,fun he => hname (he ▸ ht)⟩,hrest⟩
  exact he ▸ List.mem_cons_of_mem _ ht

theorem Linker.lt_metadata (L : Linker) {t : ℕ}
    (ht : t ∈ [L.modinfoEnd,L.modinfoName,L.modinfoType,L.modinfoAddr,L.modinfoSize,L.modinfoArgs]) :
    t < L.modinfoMetadata := by
  rw [L.metadata_eq]
  exact L.records_lt t ht

/-- No record that follows the name of a file is a name, or ends the directory. -/
theorem recordsOf_tail {fp : PreloadedFile} {r : Record} (hr : r ∈ otherRecords m L fp ++ metadataRecords L fp.fMetadata) :
    r.type ≠ L.modinfoName ∧ r.type ≠ L.modinfoEnd ∧ r.type < 2^16 := by
  have hname := L.lt_metadata (t := L.modinfoName) (by simp)
  have hend := L.lt_metadata (t := L.modinfoEnd) (by simp)
  obtain hr | hr := List.mem_append.mp hr
  · have ht := otherRecords_type hr
    have hlt := L.records_lt r.type (List.mem_cons_of_mem _ (List.mem_cons_of_mem _ ht))
    obtain ⟨h₁,h₂⟩ := L.types_ne.2.1 r.type ht
    exact ⟨h₂,h₁,by omega⟩
  · obtain ⟨hle,hlt⟩ := metadataRecords_type hr
    omega

theorem groups_skip {l rest : List Record} (hl : ∀ r ∈ l, r.type ≠ L.modinfoName) :
    groups L (l ++ rest) = (l ++ (groups L rest).1,(groups L rest).2) := by
  induction l with
  | nil => rfl
  | cons r l ih =>
    obtain ⟨hr,hl⟩ := List.forall_mem_cons.mp hl
    have hgroups : groups L (r :: l ++ rest) = (r :: (groups L (l ++ rest)).1,(groups L (l ++ rest)).2) := if_neg hr
    rw [hgroups,ih hl]
    rfl

/-- Each file is a group of its own. -/
theorem groups_recordsOf (m : Words) (L : Linker) (files : List PreloadedFile) :
    groups L (files.flatMap (recordsOf m L)) = ([],files.map (recordsOf m L)) := by
  induction files with
  | nil => rfl
  | cons fp files ih =>
    have hskip := fun rest => @groups_skip L (otherRecords m L fp ++ metadataRecords L fp.fMetadata) rest
      fun r hr => (recordsOf_tail hr).1
    have hgroups : groups L (recordsOf m L fp ++ files.flatMap (recordsOf m L)) =
        ([],(⟨L.modinfoName,fp.fName.bytes ++ [0]⟩ ::
          (groups L ((otherRecords m L fp ++ metadataRecords L fp.fMetadata) ++ files.flatMap (recordsOf m L))).1) ::
          (groups L ((otherRecords m L fp ++ metadataRecords L fp.fMetadata) ++ files.flatMap (recordsOf m L))).2) :=
      if_pos rfl
    rw [List.flatMap_cons,hgroups,hskip,ih,List.append_nil]
    rfl

/-- A field is not looked for among the metadata. -/
theorem field_append {t : ℕ} (ht : t < L.modinfoMetadata) (g : List Record) (l : List FileMetadata) :
    field t (g ++ metadataRecords L l) = field t g := by
  have hnone : (metadataRecords L l).find? (fun r => decide (r.type = t)) = none := by
    rw [List.find?_eq_none]
    intro r hr
    have hle := (metadataRecords_type hr).1
    simp only [decide_eq_true_eq]
    omega
  rw [field,field,List.find?_append,hnone,Option.or_none]

/-- The metadata that are copied, told from the other records by their types. -/
theorem filter_metadata (m : Words) (L : Linker) (fp : PreloadedFile) :
    ((recordsOf m L fp).filter fun r => decide (L.modinfoMetadata ≤ r.type)).map
      (fun r => (r.type-L.modinfoMetadata,r.data)) = (Module.of L fp).metadata := by
  have hname := L.lt_metadata (t := L.modinfoName) (by simp)
  have hother : (otherRecords m L fp).filter (fun r => decide (L.modinfoMetadata ≤ r.type)) = [] := by
    rw [List.filter_eq_nil_iff]
    intro r hr
    have hlt := L.lt_metadata (List.mem_cons_of_mem _ (List.mem_cons_of_mem _ (otherRecords_type hr)))
    simpa using hlt
  have hmeta : (metadataRecords L fp.fMetadata).filter (fun r => decide (L.modinfoMetadata ≤ r.type)) =
      metadataRecords L fp.fMetadata :=
    List.filter_eq_self.mpr fun r hr => decide_eq_true (metadataRecords_type hr).1
  rw [recordsOf,List.filter_cons_of_neg (by simpa using hname),List.filter_append,hother,List.nil_append,hmeta,
    metadataRecords,List.map_map]
  refine List.map_congr_left fun md hmd => ?_
  have hlt := (copied_iff md.mdType).mp (of_decide_eq_true (List.mem_filter.mp hmd).2)
  simp only [Function.comp,metadata_type hlt,Nat.add_sub_cancel_left]

/-- The records of a file tell all about it. -/
theorem readModule_recordsOf {fp : PreloadedFile} (haddr : fp.fAddr < 256^m.var) (hsize : fp.fSize < 256^m.var) :
    readModule L (recordsOf m L fp) = some (Module.of L fp) := by
  obtain ⟨-,hname,hrest⟩ := L.types_ne
  simp only [List.nodup_cons,List.mem_cons,List.not_mem_nil,or_false,not_or] at hrest
  obtain ⟨⟨hta,hts,htg⟩,⟨has,hag⟩,hsg,-⟩ := hrest
  simp only [List.forall_mem_cons] at hname
  obtain ⟨⟨-,htn⟩,⟨-,han⟩,⟨-,hsn⟩,⟨-,hgn⟩,-⟩ := hname
  have hfield : ∀ t ∈ [L.modinfoName,L.modinfoType,L.modinfoAddr,L.modinfoSize,L.modinfoArgs],
      field t (recordsOf m L fp) = field t (⟨L.modinfoName,fp.fName.bytes ++ [0]⟩ :: otherRecords m L fp) :=
    fun t ht => field_append (L.lt_metadata (List.mem_cons_of_mem _ ht)) (_ :: otherRecords m L fp) fp.fMetadata
  simp only [List.forall_mem_cons] at hfield
  obtain ⟨hfn,hft,hfa,hfs,hfg,-⟩ := hfield
  have hargs : (field L.modinfoArgs (recordsOf m L fp)).map text = fp.fArgs.map CStr.bytes := by
    rw [hfg]
    cases hopt : fp.fArgs with
    | none => simp [field,otherRecords,hopt,hgn.symm,htg,hag,hsg]
    | some s => simp [field,otherRecords,hopt,hgn.symm,htg,text_append]
  have haddr' : field L.modinfoAddr (recordsOf m L fp) = some (le m.var fp.fAddr) := by
    rw [hfa]
    cases hopt : fp.fArgs <;> simp [field,otherRecords,hopt,han.symm,hta,Ne.symm hag]
  have hsize' : field L.modinfoSize (recordsOf m L fp) = some (le m.var fp.fSize) := by
    rw [hfs]
    cases hopt : fp.fArgs <;> simp [field,otherRecords,hopt,hsn.symm,hts,Ne.symm hsg,has]
  have hname' : field L.modinfoName (recordsOf m L fp) = some (fp.fName.bytes ++ [0]) := by
    rw [hfn]
    simp [field]
  have htype' : field L.modinfoType (recordsOf m L fp) = some (fp.fType.bytes ++ [0]) := by
    rw [hft]
    simp [field,otherRecords,htn.symm]
  simp only [readModule,hname',htype',haddr',hsize',hargs,filter_metadata,Option.bind_eq_bind,Option.bind_some,
    text_append,number_le haddr,number_le hsize]
  rfl

/-- All that a kernel reads is about the files, and all about them is read. -/
theorem readModules_recordsOf {files : List PreloadedFile}
    (hfiles : ∀ fp ∈ files, fp.fAddr < 256^m.var ∧ fp.fSize < 256^m.var) :
    readModules L (files.flatMap (recordsOf m L)) = some (files.map (Module.of L)) := by
  rw [readModules,groups_recordsOf,if_pos rfl]
  induction files with
  | nil => rfl
  | cons fp files ih =>
    obtain ⟨⟨haddr,hsize⟩,hfiles⟩ := List.forall_mem_cons.mp hfiles
    rw [List.map_cons,List.mapM_cons,readModule_recordsOf haddr hsize,ih hfiles]
    rfl

end Decoding

section Writing
variable {σ : Type*} {m : Words} {L : Linker} {A : Copier σ} {c : Bool}

/-- The directory of the files, where the data of a record takes `step n` bytes for `n`. -/
def modulePieces (m : Words) (L : Linker) (step : ℕ → ℕ) (files : List PreloadedFile) : List Copies.Piece :=
  (files.flatMap (recordsOf m L)).flatMap (Records.pieces step) ++ endPieces L.modinfoEnd

theorem metadataRecords_cons (md : FileMetadata) (l : List FileMetadata) : metadataRecords L (md :: l) =
    if md.mdType.toNat &&& L.nocopy = 0 then ⟨L.modinfoMetadata ||| md.mdType.toNat,md.mdData⟩ :: metadataRecords L l
    else metadataRecords L l := by
  by_cases hcopied : md.mdType.toNat &&& L.nocopy = 0 <;> simp [metadataRecords,hcopied]

theorem copyMetadata_eq (l : List FileMetadata) (o : ℕ × σ) :
    l.foldl (fun o md => if md.mdType.toNat &&& L.nocopy = 0 then modMetadata m L A c md o else o) o =
      puts A m.word c ((metadataRecords L l).flatMap (Records.pieces fun n => roundup m.word n m.pad)) o := by
  induction l generalizing o with
  | nil => rfl
  | cons md l ih =>
    rw [List.foldl_cons,ih,metadataRecords_cons]
    by_cases hcopied : md.mdType.toNat &&& L.nocopy = 0
    · rw [if_pos hcopied,if_pos hcopied,List.flatMap_cons,puts_append]
      rfl
    · rw [if_neg hcopied,if_neg hcopied]

theorem copyFile_eq (fp : PreloadedFile) (o : ℕ × σ) : copyFile m L A c fp o =
    puts A m.word c ((recordsOf m L fp).flatMap (Records.pieces fun n => roundup m.word n m.pad)) o := by
  have hmeta := fun o => copyMetadata_eq (m := m) (L := L) (A := A) (c := c) fp.fMetadata o
  rw [recordsOf,List.flatMap_cons,List.flatMap_append,puts_append,puts_append,← hmeta]
  cases hargs : fp.fArgs with
  | none =>
    rw [copyFile,hargs,otherRecords,hargs]
    rfl
  | some s =>
    rw [copyFile,hargs,otherRecords,hargs]
    rfl

/-- A run over the files, whether it copies or measures. -/
theorem biCopymodules_eq (files : List PreloadedFile) (o : ℕ × σ) : biCopymodules m L A files o =
    puts A m.word (decide (o.1 ≠ 0)) (modulePieces m L (fun n => roundup m.word n m.pad) files) o := by
  rw [modulePieces,puts_append,List.flatMap_assoc,puts_flatMap,biCopymodules]
  simp only [copyFile_eq]
  rfl

/-- What is copied for a variable. -/
def varStrings (ep : EnvVar) : List (List UInt8) :=
  [ep.evName.bytes,ascii "="] ++ ep.evValue.toList.map CStr.bytes ++ [[0]]

def envStrings (environ : List EnvVar) : List (List UInt8) := environ.flatMap varStrings ++ [[0]]

theorem biCopyenv_eq (memtop : ℕ) (environ : List EnvVar) (o : ℕ × Memory) :
    biCopyenv memtop environ o = puts (pc32 memtop) 32 true ((envStrings environ).map whole) o := by
  rw [envStrings,List.map_append,puts_append,List.map_flatMap,puts_flatMap]
  refine congrArg (copyNext memtop [0]) (List.foldl_ext _ _ _ fun o ep _ => ?_)
  rw [varStrings]
  cases ep.evValue with
  | none => rfl
  | some v => rfl

/-- A variable as it is handed over. -/
def assignment (ep : EnvVar) : List UInt8 := ep.evName.bytes ++ ascii "=" ++ (ep.evValue.map CStr.bytes).getD []

theorem flatten_envStrings (environ : List EnvVar) : (envStrings environ).flatten = block (environ.map assignment) := by
  rw [envStrings,List.flatten_append,block,List.flatMap_map]
  congr 1
  induction environ with
  | nil => rfl
  | cons ep environ ih =>
    rw [List.flatMap_cons,List.flatMap_cons,List.flatten_append,ih]
    congr 1
    cases hvalue : ep.evValue with
    | none => simp [varStrings,assignment,hvalue]
    | some v => simp [varStrings,assignment,hvalue]

end Writing

end Blub.Boot.HandOver
