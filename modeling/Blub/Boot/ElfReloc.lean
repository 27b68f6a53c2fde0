import Blub.Lib.Patches
import Blub.Boot.ElfObj
import Blub.Boot.ElfSymbol

/-! `reloc_ptr` and `obj_reloc_ptr`: relocations are applied to a copy of a few bytes of the image. Words have `k` bytes and
pointers `ptr` bits. -/
namespace Blub.Boot.Elf
open Blub.Bytes Blub.Patches

structure Rel where
  offset : ℕ
  type : ℕ
  symidx : ℕ

structure Rela extends Rel where
  addend : ℕ

/-- `reldata` and its `reltype`. -/
inductive Reldata
  | rel (r : Rel)
  | rela (a : Rela)

def Reldata.head : Reldata → Rel
  | .rel r => r
  | .rela a => a.toRel

/-- The first is an access beyond the data. -/
inductive RelocError
  | outside
  | esrch
  | eftype
  | eopnotsupp
  deriving DecidableEq

/-- `R_X86_64_64` and `R_386_32`. -/
def rWord : ℕ := 1

/-- `R_X86_64_RELATIVE` and `R_386_RELATIVE`. -/
def rRelative : ℕ := 8

/-- What `elf_loadimage` finds of the relocations. -/
structure ElfFile where
  kernel : Bool
  off : ℕ
  rel : List Rel
  rela : List Rela

/-- A section header with its load address, and a table of relocations with its entries, which in one of type `SHT_REL` have no
addends. -/
structure ObjShdr where
  type : ℕ
  addr : ℕ
  size : ℕ
  info : ℕ
  entries : List Rela

structure ObjFile where
  shdr : List ObjShdr
  symtab : List ElfSym

section Code
variable (k ptr : ℕ)

/-- `where`, from the start of the data. -/
def whereOf (relbase offset dataaddr : ℕ) : ℕ := (relbase+offset+(2^ptr-dataaddr%2^ptr))%2^ptr

/-- The addend that is stored in place, or the one of the entry. -/
def readAddend (place len : ℕ) (data : ℕ → UInt8) : Reldata → Except RelocError ℕ
  | .rel _ => if len < place+k then .error .outside else .ok (leGet data place k)
  | .rela a => .ok a.addend

def storeWord (place len val : ℕ) (data : ℕ → UInt8) : Except RelocError (ℕ → UInt8) :=
  if len < place+k then .error .outside else .ok (lePut data place k val)

/-- `reloc`. -/
def reloc (symaddr : ℕ → ℕ) (r : Reldata) (relbase dataaddr len : ℕ) (data : ℕ → UInt8) : Except RelocError (ℕ → UInt8) :=
  let place := whereOf ptr relbase r.head.offset dataaddr
  if len ≤ place then .ok data
  else
    match readAddend k place len data r with
    | .error e => .error e
    | .ok addend =>
      if r.head.type = rWord then
        let addr := symaddr r.head.symidx
        if addr = 0 then .error .esrch else storeWord k place len ((addr+addend)%256^k) data
      else if r.head.type = rRelative then storeWord k place len ((addend+relbase)%256^k) data
      else .error .eftype

/-- The loop over a table. -/
def relocTable (symaddr : ℕ → ℕ) (relbase dataaddr len : ℕ) (l : List Reldata) (data : ℕ → UInt8) :
    Except RelocError (ℕ → UInt8) := l.foldlM (fun data r => reloc k ptr symaddr r relbase dataaddr len data) data

/-- `reloc_ptr`, with its `symaddr` that knows no symbol. -/
def relocPtr (ef : ElfFile) (p len : ℕ) (data : ℕ → UInt8) : Except RelocError (ℕ → UInt8) :=
  if ef.kernel then .error .eopnotsupp
  else
    match relocTable k ptr (fun _ => 0) ef.off p len (ef.rel.map .rel) data with
    | .error e => .error e
    | .ok data => relocTable k ptr (fun _ => 0) ef.off p len (ef.rela.map .rela) data

/-- `obj_symaddr`. -/
def objSymaddr (ef : ObjFile) (symidx : ℕ) : ℕ :=
  match ef.symtab[symidx]? with
  | none => 0
  | some sym =>
    if sym.shndx = shnUndef then 0
    else
      match ef.shdr[sym.shndx]? with
      | none => 0
      | some sh => if sh.addr = 0 then 0 else (sh.addr+sym.value)%256^k

def ObjShdr.reldata (sh : ObjShdr) : List Reldata :=
  if sh.type = shtRela then sh.entries.map .rela else sh.entries.map fun a => .rel a.toRel

/-- The data are in the section, by the comparisons of `obj_reloc_ptr`. -/
def ObjShdr.Holds (target : ObjShdr) (p len : ℕ) : Prop :=
  ¬(p < target.addr ∨ (target.addr+target.size)%256^k < (p+len)%256^k)

attribute [local grind =] objSymaddr

instance (target : ObjShdr) (p len : ℕ) : Decidable (target.Holds k p len) := inferInstanceAs (Decidable ¬_)

def objRelocSection (ef : ObjFile) (p len : ℕ) (data : ℕ → UInt8) (sh : ObjShdr) : Except RelocError (ℕ → UInt8) :=
  if sh.type ≠ shtRela ∧ sh.type ≠ shtRel then .ok data
  else
    match ef.shdr[sh.info]? with
    | none => .error .outside
    | some target =>
      if target.addr = 0 ∨ sh.addr = 0 then .ok data
      else if target.Holds k p len then relocTable k ptr (objSymaddr k ef) target.addr p len sh.reldata data
      else .ok data

/-- `obj_reloc_ptr`. -/
def objRelocPtr (ef : ObjFile) (p len : ℕ) (data : ℕ → UInt8) : Except RelocError (ℕ → UInt8) :=
  ef.shdr.foldlM (objRelocSection k ptr ef p len) data

/-- `COPYOUT`. -/
def copyout (image : ℕ → UInt8) (p : ℕ) : ℕ → UInt8 := fun j => image (p+j)

end Code

/-- A relocation and the base that it is relative to. -/
structure Relocation where
  base : ℕ
  data : Reldata

section Spec
variable (k ptr : ℕ) (symaddr : ℕ → ℕ) (p len : ℕ)

def ElfFile.relocations (ef : ElfFile) : List Relocation :=
  (ef.rel.map Reldata.rel ++ ef.rela.map Reldata.rela).map (Relocation.mk ef.off)

/-- The relocations of one table, of those whose target section meets a condition. -/
def ObjFile.ofTable (ef : ObjFile) (wanted : ObjShdr → Prop) [DecidablePred wanted] (sh : ObjShdr) : List Relocation :=
  if sh.type ≠ shtRela ∧ sh.type ≠ shtRel then []
  else
    match ef.shdr[sh.info]? with
    | none => []
    | some target =>
      if target.addr = 0 ∨ sh.addr = 0 then []
      else if wanted target then sh.reldata.map (Relocation.mk target.addr) else []

def ObjFile.relocations (ef : ObjFile) : List Relocation := ef.shdr.flatMap (ef.ofTable fun _ => True)

/-- The relocations of the tables that are searched. -/
def ObjFile.searched (ef : ObjFile) : List Relocation := ef.shdr.flatMap (ef.ofTable fun target => target.Holds k p len)

/-- The address of the relocated word. -/
def Relocation.place (r : Relocation) : ℕ := (r.base+r.data.head.offset)%2^ptr

def Reldata.addendOf (old : ℕ) : Reldata → ℕ
  | .rel _ => old
  | .rela a => a.addend

/-- What the relocation does to the image, if it is of a known type and its symbol has an address. -/
def Relocation.patch (r : Relocation) : Option Patch :=
  if r.data.head.type = rWord then
    if symaddr r.data.head.symidx = 0 then none
    else some ⟨r.place ptr,fun old => (symaddr r.data.head.symidx+r.data.addendOf old)%256^k⟩
  else if r.data.head.type = rRelative then some ⟨r.place ptr,fun old => (r.data.addendOf old+r.base)%256^k⟩
  else none

/-- The image with all relocations applied. -/
def relocated (l : List Relocation) (image : ℕ → UInt8) : ℕ → UInt8 :=
  applyAll k (l.filterMap (Relocation.patch k ptr symaddr)) image

/-- The first byte of the word is in the window. -/
def Relocation.Starts (r : Relocation) : Prop := p ≤ r.place ptr ∧ r.place ptr < p+len

/-- A byte of the word is in the window. -/
def Relocation.Touches (r : Relocation) : Prop := r.place ptr < p+len ∧ p < r.place ptr+k

def Relocation.Resolved (r : Relocation) : Prop := r.patch k ptr symaddr ≠ none

def Relocation.InPlace (r : Relocation) : Prop := ∃ r', r.data = .rel r'

/-- No relocation before this one ends the search with an error. -/
def Reached : List Relocation → Relocation → Prop
  | [], _ => False
  | a :: l, r => r = a ∨ (a.Starts ptr p len → a.Resolved k ptr symaddr) ∧ Reached l r

/-- The words of two relocations do not overlap. -/
def Relocation.Clear (r r' : Relocation) : Prop := r.place ptr+k ≤ r'.place ptr ∨ r'.place ptr+k ≤ r.place ptr

attribute [local grind =] Reached

instance : Std.Symm (Relocation.Clear k ptr) := ⟨fun _ _ h => Or.symm h⟩

/-- The copy is relocated as the image is, without an access beyond it. -/
structure WindowRight (l : List Relocation) (image : ℕ → UInt8) (result : Except RelocError (ℕ → UInt8)) : Prop where
  noOutside : result ≠ .error .outside
  agrees : (∀ r ∈ l, r.Touches k ptr p len → r.Resolved k ptr symaddr) →
    ∃ data, result = .ok data ∧ ∀ j < len, data j = copyout (relocated k ptr symaddr l image) p j

/-- No word that is read or stored reaches over the end of the window, and what reaches into it otherwise makes no
difference there. -/
structure WindowFits (l searched : List Relocation) (image : ℕ → UInt8) : Prop where
  ends : ∀ r, Reached k ptr symaddr p len searched r → r.Starts ptr p len → r.InPlace ∨ r.Resolved k ptr symaddr →
    r.place ptr+k ≤ p+len
  missed : (∀ r ∈ l, r.Touches k ptr p len → r.Resolved k ptr symaddr) →
    ∀ r ∈ l, ¬(r ∈ searched ∧ r.Starts ptr p len) → ∀ q, r.patch k ptr symaddr = some q →
      ∀ j < len, q.apply k image (p+j) = image (p+j)

instance (r : Relocation) : Decidable (r.Starts ptr p len) := inferInstanceAs (Decidable (_ ∧ _))

/-- The relocations applied one after the other to a copy of the window. -/
def relocRun (l : List Relocation) (data : ℕ → UInt8) : Except RelocError (ℕ → UInt8) :=
  l.foldlM (fun data r => reloc k ptr symaddr r.data r.base p len data) data

end Spec

section Step
variable {k ptr : ℕ} {symaddr : ℕ → ℕ} {p len : ℕ} {r : Relocation} {data : ℕ → UInt8} {q : Patch}

theorem whereOf_of_starts (hwin : p+len ≤ 2^ptr) (h : r.Starts ptr p len) :
    whereOf ptr r.base r.data.head.offset p = r.place ptr-p := by
  obtain ⟨hlo,hhi⟩ := h
  have hlt : r.place ptr < 2^ptr := Nat.mod_lt _ (Nat.two_pow_pos ptr)
  rw [whereOf,Nat.mod_eq_of_lt (show p < 2^ptr by omega),Nat.add_mod,← Relocation.place]
  by_cases hp : p = 0
  · subst hp
    simp [Nat.mod_eq_of_lt hlt]
  · rw [Nat.mod_eq_of_lt (show 2^ptr-p < 2^ptr by omega),Nat.mod_eq_sub_mod (by omega),Nat.mod_eq_of_lt (by omega)]
    omega

theorem le_whereOf (hwin : p+len ≤ 2^ptr) (h : ¬r.Starts ptr p len) : len ≤ whereOf ptr r.base r.data.head.offset p := by
  obtain rfl | hpos := Nat.eq_zero_or_pos len
  · exact Nat.zero_le _
  have hlt : r.place ptr < 2^ptr := Nat.mod_lt _ (Nat.two_pow_pos ptr)
  rw [whereOf,Nat.mod_eq_of_lt (show p < 2^ptr by omega),Nat.add_mod,← Relocation.place]
  rw [Relocation.Starts] at h
  by_cases hp : p = 0
  · subst hp
    simp only [Nat.sub_zero,Nat.mod_self,Nat.add_zero]
    rw [Nat.mod_eq_of_lt hlt]
    omega
  · rw [Nat.mod_eq_of_lt (show 2^ptr-p < 2^ptr by omega)]
    by_cases hle : p ≤ r.place ptr
    · rw [Nat.mod_eq_sub_mod (by omega),Nat.mod_eq_of_lt (by omega)]
      omega
    · rw [Nat.mod_eq_of_lt (by omega)]
      omega

theorem reloc_skip (hwin : p+len ≤ 2^ptr) (h : ¬r.Starts ptr p len) :
    reloc k ptr symaddr r.data r.base p len data = .ok data := by
  simp only [reloc]
  exact if_pos (le_whereOf hwin h)

theorem patch_place (h : r.patch k ptr symaddr = some q) : q.place = r.place ptr := by
  rw [Relocation.patch] at h
  split_ifs at h <;> obtain rfl := Option.some.inj h <;> rfl

theorem reloc_ok (hwin : p+len ≤ 2^ptr) (h : r.Starts ptr p len) (hpatch : r.patch k ptr symaddr = some q)
    (hend : r.place ptr+k ≤ p+len) :
    reloc k ptr symaddr r.data r.base p len data = .ok ((Patch.mk (q.place-p) q.value).apply k data) := by
  obtain ⟨hlo,hhi⟩ := h
  have hfit : ¬len < r.place ptr-p+k := by omega
  have hadd : readAddend k (r.place ptr-p) len data r.data = .ok (r.data.addendOf (leGet data (r.place ptr-p) k)) := by
    cases r.data with
    | rel r' => exact if_neg hfit
    | rela a => rfl
  simp only [reloc,whereOf_of_starts hwin ⟨hlo,hhi⟩,hadd,patch_place hpatch]
  rw [if_neg (by omega)]
  rw [Relocation.patch] at hpatch
  split_ifs at hpatch ⊢ <;> obtain rfl := Option.some.inj hpatch <;> exact if_neg hfit

theorem reloc_over (hwin : p+len ≤ 2^ptr) (h : r.Starts ptr p len) (hpatch : r.patch k ptr symaddr = some q)
    (hend : p+len < r.place ptr+k) : reloc k ptr symaddr r.data r.base p len data = .error .outside := by
  obtain ⟨hlo,hhi⟩ := h
  have hover : len < r.place ptr-p+k := by omega
  simp only [reloc,whereOf_of_starts hwin ⟨hlo,hhi⟩]
  rw [if_neg (by omega)]
  rw [Relocation.patch] at hpatch
  cases hdata : r.data with
  | rel r' => simp only [readAddend,if_pos hover]
  | rela a =>
    rw [hdata] at hpatch
    simp only [readAddend]
    split_ifs at hpatch ⊢ <;> exact if_pos hover

theorem reloc_unresolved (hwin : p+len ≤ 2^ptr) (h : r.Starts ptr p len) (hpatch : r.patch k ptr symaddr = none) :
    ∃ e, reloc k ptr symaddr r.data r.base p len data = .error e ∧ (e = .outside ↔ r.InPlace ∧ p+len < r.place ptr+k) := by
  obtain ⟨hlo,hhi⟩ := h
  simp only [reloc,whereOf_of_starts hwin ⟨hlo,hhi⟩,Relocation.InPlace]
  rw [if_neg (by omega)]
  rw [Relocation.patch] at hpatch
  -- the addend is there, and the type or the symbol is not known
  have hrest : ∀ addend, ∃ e, (if r.data.head.type = rWord then
      if symaddr r.data.head.symidx = 0 then (.error .esrch : Except RelocError (ℕ → UInt8))
      else storeWord k (r.place ptr-p) len ((symaddr r.data.head.symidx+addend)%256^k) data
      else if r.data.head.type = rRelative then storeWord k (r.place ptr-p) len ((addend+r.base)%256^k) data
      else .error .eftype) = .error e ∧ e ≠ .outside := by
    intro addend
    split_ifs at hpatch ⊢
    · exact ⟨.esrch,rfl,by decide⟩
    · exact ⟨.eftype,rfl,by decide⟩
  cases hdata : r.data with
  | rel r' =>
    rw [hdata] at hrest
    by_cases hover : len < r.place ptr-p+k
    · refine ⟨.outside,?_,fun _ => ⟨⟨r',rfl⟩,by omega⟩,fun _ => rfl⟩
      simp only [readAddend,if_pos hover]
    · obtain ⟨e,he,hne⟩ := hrest (leGet data (r.place ptr-p) k)
      refine ⟨e,?_,fun h => absurd h hne,fun h => by omega⟩
      simp only [readAddend,if_neg hover]
      exact he
  | rela a =>
    rw [hdata] at hrest
    obtain ⟨e,he,hne⟩ := hrest a.addend
    refine ⟨e,he,fun h => absurd h hne,fun ⟨⟨_,h⟩,_⟩ => ?_⟩
    cases h

end Step

section Run
variable {k ptr : ℕ} {symaddr : ℕ → ℕ} {p len : ℕ}

theorem relocRun_cons (a : Relocation) (l : List Relocation) (data : ℕ → UInt8) :
    relocRun k ptr symaddr p len (a :: l) data =
      match reloc k ptr symaddr a.data a.base p len data with
      | .error e => .error e
      | .ok data => relocRun k ptr symaddr p len l data := by
  rw [relocRun,List.foldlM_cons]
  cases reloc k ptr symaddr a.data a.base p len data <;> rfl

/-- The run reaches beyond the window exactly at a relocation over its end that it gets to. -/
theorem relocRun_outside_iff (hwin : p+len ≤ 2^ptr) (l : List Relocation) (data : ℕ → UInt8) :
    relocRun k ptr symaddr p len l data = .error .outside ↔ ∃ r, Reached k ptr symaddr p len l r ∧ r.Starts ptr p len ∧
      (r.InPlace ∨ r.Resolved k ptr symaddr) ∧ p+len < r.place ptr+k := by
  induction l generalizing data with
  | nil =>
    constructor
    · intro h
      cases h
    · rintro ⟨r,h,-⟩
      exact h.elim
  | cons a l ih =>
    rw [relocRun_cons]
    by_cases hstart : a.Starts ptr p len
    · cases hpatch : a.patch k ptr symaddr with
      | none =>
        have hun : ¬a.Resolved k ptr symaddr := fun h => h hpatch
        obtain ⟨e,he,hiff⟩ := @reloc_unresolved k ptr symaddr p len a data hwin hstart hpatch
        rw [he]
        constructor
        · intro h
          obtain ⟨hin,hover⟩ := hiff.mp (Except.error.inj h)
          exact ⟨a,.inl rfl,hstart,.inl hin,hover⟩
        · rintro ⟨r,rfl | ⟨hres,-⟩,-,hin,hover⟩
          · exact congrArg _ (hiff.mpr ⟨hin.resolve_right hun,hover⟩)
          · exact absurd (hres hstart) hun
      | some q =>
        have hres : a.Resolved k ptr symaddr := by rw [Relocation.Resolved,hpatch]; exact Option.some_ne_none q
        by_cases hend : a.place ptr+k ≤ p+len
        · rw [reloc_ok hwin hstart hpatch hend]
          refine (ih _).trans ⟨fun ⟨r,hr,h⟩ => ⟨r,.inr ⟨fun _ => hres,hr⟩,h⟩,?_⟩
          rintro ⟨r,rfl | ⟨-,hr⟩,h⟩
          · exact absurd h.2.2 (by omega)
          · exact ⟨r,hr,h⟩
        · rw [reloc_over hwin hstart hpatch (by omega)]
          exact ⟨fun _ => ⟨a,.inl rfl,hstart,.inr hres,by omega⟩,fun _ => rfl⟩
    · rw [reloc_skip hwin hstart]
      refine (ih _).trans ⟨fun ⟨r,hr,h⟩ => ⟨r,.inr ⟨fun h => absurd h hstart,hr⟩,h⟩,?_⟩
      rintro ⟨r,rfl | ⟨-,hr⟩,h⟩
      · exact absurd h.1 hstart
      · exact ⟨r,hr,h⟩

/-- The patches of the relocations that the window takes. -/
def taken (k ptr : ℕ) (symaddr : ℕ → ℕ) (p len : ℕ) (l : List Relocation) : List Patch :=
  (l.filter fun r => r.Starts ptr p len).filterMap (Relocation.patch k ptr symaddr)

/-- A run of resolved relocations that end in the window. -/
theorem relocRun_ok (hwin : p+len ≤ 2^ptr) {l : List Relocation}
    (hl : ∀ r ∈ l, r.Starts ptr p len → r.Resolved k ptr symaddr ∧ r.place ptr+k ≤ p+len) {data m : ℕ → UInt8}
    (hdata : ∀ j < len, data j = m (p+j)) : ∃ data', relocRun k ptr symaddr p len l data = .ok data' ∧
      ∀ j < len, data' j = applyAll k (taken k ptr symaddr p len l) m (p+j) := by
  induction l generalizing data m with
  | nil => exact ⟨data,rfl,hdata⟩
  | cons a l ih =>
    have hrest := fun r (hr : r ∈ l) => hl r (List.mem_cons_of_mem _ hr)
    rw [relocRun_cons]
    by_cases hstart : a.Starts ptr p len
    · obtain ⟨hres,hend⟩ := hl a List.mem_cons_self hstart
      obtain ⟨q,hq⟩ := Option.ne_none_iff_exists'.mp hres
      have hplace := patch_place hq
      rw [reloc_ok hwin hstart hq hend]
      obtain ⟨data',hrun,hdata'⟩ := ih hrest (Patch.apply_window hdata (hplace ▸ hstart.1) (hplace ▸ hend))
      refine ⟨data',hrun,fun j hj => ?_⟩
      rw [hdata' j hj,taken,taken,List.filter_cons_of_pos (by simpa using hstart),List.filterMap_cons_some hq]
      rfl
    · rw [reloc_skip hwin hstart]
      obtain ⟨data',hrun,hdata'⟩ := ih hrest hdata
      refine ⟨data',hrun,fun j hj => ?_⟩
      rw [hdata' j hj,taken,taken,List.filter_cons_of_neg (by simpa using hstart)]

theorem reached_of_mem {l : List Relocation} (hl : ∀ r ∈ l, r.Starts ptr p len → r.Resolved k ptr symaddr) {r : Relocation}
    (hr : r ∈ l) : Reached k ptr symaddr p len l r := by
  induction l with
  | nil => cases hr
  | cons a l ih =>
    obtain rfl | hr := List.mem_cons.mp hr
    · exact .inl rfl
    · exact .inr ⟨hl a List.mem_cons_self,ih (fun b hb => hl b (List.mem_cons_of_mem _ hb)) hr⟩

end Run

section Window
variable {k ptr : ℕ} {symaddr : ℕ → ℕ} {p len : ℕ} {l searched : List Relocation} {image : ℕ → UInt8}

theorem mem_taken {q : Patch} : q ∈ taken k ptr symaddr p len l ↔
    ∃ r ∈ l, r.Starts ptr p len ∧ r.patch k ptr symaddr = some q := by
  simp [taken,List.mem_filterMap,and_assoc]

theorem patches_apart (hsep : l.Pairwise (Relocation.Clear k ptr)) :
    (l.filterMap (Relocation.patch k ptr symaddr)).Pairwise (Patch.Apart k) := by
  refine List.Pairwise.filterMap _ ?_ hsep
  intro r r' h q hq q' hq'
  rw [Patch.Apart,patch_place hq,patch_place hq']
  exact h

/-- The taken patches do the work of all exactly if what is missed makes no difference. -/
theorem taken_iff (hk : 0 < k) (hsub : searched.Sublist l) (hsep : l.Pairwise (Relocation.Clear k ptr)) :
    (∀ j < len, applyAll k (taken k ptr symaddr p len searched) image (p+j) = relocated k ptr symaddr l image (p+j)) ↔
    ∀ r ∈ l, ¬(r ∈ searched ∧ r.Starts ptr p len) → ∀ q, r.patch k ptr symaddr = some q →
      ∀ j < len, q.apply k image (p+j) = image (p+j) := by
  have hsub' : (taken k ptr symaddr p len searched).Sublist (l.filterMap (Relocation.patch k ptr symaddr)) :=
    (List.filter_sublist.trans hsub).filterMap _
  have hwindow : ∀ {P : ℕ → Prop}, (∀ a ∈ {a | p ≤ a ∧ a < p+len}, P a) ↔ ∀ j < len, P (p+j) := by
    intro P
    constructor
    · exact fun h j hj => h (p+j) ⟨by omega,by omega⟩
    · intro h a ha
      obtain ⟨j,rfl⟩ := Nat.exists_eq_add_of_le ha.1
      exact h j (by have := ha.2; omega)
  have hiff := applyAll_sublist_iff (m := image) (patches_apart hsep) hsub' {a | p ≤ a ∧ a < p+len}
  rw [hwindow] at hiff
  refine hiff.trans ⟨fun h r hr hnot q hq => ?_,fun h q hq hnot => ?_⟩
  · refine hwindow.mp (h q (List.mem_filterMap.mpr ⟨r,hr,hq⟩) fun hmem => ?_)
    obtain ⟨r',hr',hstart,hq'⟩ := mem_taken.mp hmem
    -- two relocations of one word are one
    have hne : r ≠ r' := fun heq => hnot ⟨heq ▸ hr',heq ▸ hstart⟩
    have hplace := (patch_place hq).symm.trans (patch_place hq')
    have hclear : r.Clear k ptr r' := hsep.forall hr (hsub.subset hr') hne
    rw [Relocation.Clear] at hclear
    omega
  · obtain ⟨r,hr,hq⟩ := List.mem_filterMap.mp hq
    exact hwindow.mpr (h r hr (fun ⟨hs,hstart⟩ => hnot (mem_taken.mpr ⟨r,hs,hstart,hq⟩)) q hq)

theorem window_right_iff (hk : 0 < k) (hwin : p+len ≤ 2^ptr) (hsub : searched.Sublist l)
    (hsep : l.Pairwise (Relocation.Clear k ptr)) :
    WindowRight k ptr symaddr p len l image (relocRun k ptr symaddr p len searched (copyout image p)) ↔
      WindowFits k ptr symaddr p len l searched image := by
  have htouch : ∀ r : Relocation, r.Starts ptr p len → r.Touches k ptr p len := fun r hr => ⟨hr.2,by have := hr.1; omega⟩
  have hends : (∀ r, Reached k ptr symaddr p len searched r → r.Starts ptr p len → r.InPlace ∨ r.Resolved k ptr symaddr →
      r.place ptr+k ≤ p+len) ↔ relocRun k ptr symaddr p len searched (copyout image p) ≠ .error .outside := by
    rw [ne_eq,relocRun_outside_iff hwin]
    push Not
    rfl
  -- with all that touches the window resolved, the run ends
  have hrun : (∀ r ∈ l, r.Touches k ptr p len → r.Resolved k ptr symaddr) →
      relocRun k ptr symaddr p len searched (copyout image p) ≠ .error .outside →
      ∃ data, relocRun k ptr symaddr p len searched (copyout image p) = .ok data ∧
        ∀ j < len, data j = applyAll k (taken k ptr symaddr p len searched) image (p+j) := by
    intro hres hout
    have hres' : ∀ r ∈ searched, r.Starts ptr p len → r.Resolved k ptr symaddr :=
      fun r hr hstart => hres r (hsub.subset hr) (htouch r hstart)
    exact relocRun_ok hwin (fun r hr hstart =>
      ⟨hres' r hr hstart,hends.mpr hout r (reached_of_mem hres' hr) hstart (.inr (hres' r hr hstart))⟩) fun j _ => rfl
  constructor
  · rintro ⟨hout,hagree⟩
    refine ⟨hends.mpr hout,fun hres => (taken_iff hk hsub hsep).mp fun j hj => ?_⟩
    obtain ⟨data,hok,hdata⟩ := hrun hres hout
    obtain ⟨data',hok',hdata'⟩ := hagree hres
    obtain rfl : data = data' := Except.ok.inj (hok.symm.trans hok')
    exact (hdata j hj).symm.trans (hdata' j hj)
  · rintro ⟨hend,hmissed⟩
    refine ⟨hends.mp hend,fun hres => ?_⟩
    obtain ⟨data,hok,hdata⟩ := hrun hres (hends.mp hend)
    exact ⟨data,hok,fun j hj => (hdata j hj).trans ((taken_iff hk hsub hsep).mpr (hmissed hres) j hj)⟩

theorem mem_of_reached {r : Relocation} (h : Reached k ptr symaddr p len l r) : r ∈ l := by
  induction l with
  | nil => exact h.elim
  | cons a l ih =>
    obtain rfl | ⟨-,h⟩ := h
    · exact List.mem_cons_self
    · exact List.mem_cons_of_mem _ (ih h)

/-- Relocations that are searched and in the window as a whole, or not at all, fit. -/
theorem windowFits_of_whole (hk : 0 < k) (hsub : searched ⊆ l) (h : ∀ r ∈ l, ¬r.Touches k ptr p len ∨
    r ∈ searched ∧ p ≤ r.place ptr ∧ r.place ptr+k ≤ p+len) : WindowFits k ptr symaddr p len l searched image := by
  constructor
  · intro r hr hstart _
    obtain hno | ⟨-,-,hend⟩ := h r (hsub (mem_of_reached hr))
    · exact absurd ⟨hstart.2,by have := hstart.1; omega⟩ hno
    · exact hend
  · intro _ r hr hnot q hq j hj
    obtain hno | ⟨hs,hlo,hhi⟩ := h r hr
    · refine Patch.apply_outside fun hcov => hno ?_
      rw [Patch.Covers,patch_place hq] at hcov
      exact ⟨by omega,by omega⟩
    · exact absurd ⟨hs,hlo,by omega⟩ hnot

end Window

section Tables
variable {k ptr p len : ℕ}

theorem relocTable_eq (symaddr : ℕ → ℕ) (relbase : ℕ) (l : List Reldata) (data : ℕ → UInt8) :
    relocTable k ptr symaddr relbase p len l data = relocRun k ptr symaddr p len (l.map (Relocation.mk relbase)) data := by
  rw [relocTable,relocRun,List.foldlM_map]

theorem relocRun_append (symaddr : ℕ → ℕ) (l l' : List Relocation) (data : ℕ → UInt8) :
    relocRun k ptr symaddr p len (l ++ l') data =
      match relocRun k ptr symaddr p len l data with
      | .error e => .error e
      | .ok data => relocRun k ptr symaddr p len l' data := by
  rw [relocRun,List.foldlM_append,← relocRun]
  cases relocRun k ptr symaddr p len l data <;> rfl

theorem relocPtr_eq {ef : ElfFile} (h : ef.kernel = false) (data : ℕ → UInt8) :
    relocPtr k ptr ef p len data = relocRun k ptr (fun _ => 0) p len ef.relocations data := by
  rw [relocPtr,if_neg (by simp [h]),relocTable_eq,ElfFile.relocations,List.map_append,relocRun_append]
  simp only [relocTable_eq]

theorem objRelocSection_eq {ef : ObjFile} {sh : ObjShdr}
    (h : sh.type = shtRela ∨ sh.type = shtRel → sh.info < ef.shdr.length) (data : ℕ → UInt8) :
    objRelocSection k ptr ef p len data sh =
      relocRun k ptr (objSymaddr k ef) p len (ef.ofTable (fun target => target.Holds k p len) sh) data := by
  rw [objRelocSection,ObjFile.ofTable]
  by_cases htable : sh.type ≠ shtRela ∧ sh.type ≠ shtRel
  · rw [if_pos htable,if_pos htable]
    rfl
  · rw [if_neg htable,if_neg htable,List.getElem?_eq_getElem (h (by tauto))]
    simp only
    split_ifs
    · rfl
    · exact relocTable_eq _ _ _ _
    · rfl

/-- Relocation tables are for sections of the file. -/
def ObjFile.TargetsExist (ef : ObjFile) : Prop :=
  ∀ sh ∈ ef.shdr, sh.type = shtRela ∨ sh.type = shtRel → sh.info < ef.shdr.length

theorem objRelocSections_eq {ef : ObjFile} {l : List ObjShdr}
    (h : ∀ sh ∈ l, sh.type = shtRela ∨ sh.type = shtRel → sh.info < ef.shdr.length) (data : ℕ → UInt8) :
    l.foldlM (objRelocSection k ptr ef p len) data =
      relocRun k ptr (objSymaddr k ef) p len (l.flatMap (ef.ofTable fun target => target.Holds k p len)) data := by
  induction l generalizing data with
  | nil => rfl
  | cons sh l ih =>
    rw [List.foldlM_cons,List.flatMap_cons,relocRun_append,objRelocSection_eq (h sh List.mem_cons_self)]
    cases relocRun k ptr (objSymaddr k ef) p len (ef.ofTable (fun target => target.Holds k p len) sh) data with
    | error e => rfl
    | ok data => exact ih (fun sh hsh => h sh (List.mem_cons_of_mem _ hsh)) data

theorem objRelocPtr_eq {ef : ObjFile} (h : ef.TargetsExist) (data : ℕ → UInt8) :
    objRelocPtr k ptr ef p len data = relocRun k ptr (objSymaddr k ef) p len (ef.searched k p len) data :=
  objRelocSections_eq h data

theorem ObjFile.searched_sublist (ef : ObjFile) : (ef.searched k p len).Sublist ef.relocations := by
  have hone : ∀ sh, (ef.ofTable (fun target => target.Holds k p len) sh).Sublist (ef.ofTable (fun _ => True) sh) := by
    intro sh
    rw [ObjFile.ofTable,ObjFile.ofTable]
    split
    · rfl
    · split
      · rfl
      · split_ifs
        · rfl
        · rfl
        · exact List.nil_sublist _
  rw [ObjFile.searched,ObjFile.relocations]
  induction ef.shdr with
  | nil => rfl
  | cons sh l ih => exact (hone sh).append ih

end Tables

section Main
variable {k ptr p len : ℕ}

/-- `reloc_ptr` and `obj_reloc_ptr` relocate a copy of a window as the image is relocated exactly if no relocated word reaches
over its ends with an effect. -/
theorem reloc_window_iff (hk : 0 < k) (hwin : p+len ≤ 2^ptr) (image : ℕ → UInt8) :
    (∀ ef : ElfFile, ef.kernel = false → ef.relocations.Pairwise (Relocation.Clear k ptr) →
      (WindowRight k ptr (fun _ => 0) p len ef.relocations image (relocPtr k ptr ef p len (copyout image p)) ↔
        WindowFits k ptr (fun _ => 0) p len ef.relocations ef.relocations image)) ∧
    (∀ ef : ObjFile, ef.TargetsExist → ef.relocations.Pairwise (Relocation.Clear k ptr) →
      (WindowRight k ptr (objSymaddr k ef) p len ef.relocations image (objRelocPtr k ptr ef p len (copyout image p)) ↔
        WindowFits k ptr (objSymaddr k ef) p len ef.relocations (ef.searched k p len) image)) := by
  constructor
  · intro ef hkernel hclear
    rw [relocPtr_eq hkernel]
    exact window_right_iff hk hwin (List.Sublist.refl _) hclear
  · intro ef htargets hclear
    rw [objRelocPtr_eq htargets]
    exact window_right_iff hk hwin ef.searched_sublist hclear

/-- A module at `0x400000` with one pointer, at `0x400010`. -/
def onePointer : ElfFile := ⟨false,0x400000,[],[⟨⟨0x10,rRelative,0⟩,0x20⟩]⟩

/-- The same as an object file. -/
def oneObject : ObjFile :=
  ⟨[⟨shtProgbits,0x400000,0x100,0,[]⟩,⟨shtRela,0x400100,24,0,[⟨⟨0x10,rRelative,0⟩,0x20⟩]⟩],[]⟩

theorem reloc_window_pointer : 0 < 8 ∧ 0x400010+8 ≤ 2^32 ∧
    WindowRight 8 32 (fun _ => 0) 0x400010 8 onePointer.relocations (fun _ => 0)
      (relocPtr 8 32 onePointer 0x400010 8 (copyout (fun _ => 0) 0x400010)) ∧
    WindowRight 8 32 (objSymaddr 8 oneObject) 0x400010 8 oneObject.relocations (fun _ => 0)
      (objRelocPtr 8 32 oneObject 0x400010 8 (copyout (fun _ => 0) 0x400010)) := by
  refine ⟨by decide,by decide,?_,?_⟩
  · have h := (@reloc_window_iff 8 32 0x400010 8 (by decide) (by decide) fun _ => 0).1
    refine (h onePointer rfl (List.pairwise_singleton _ _)).mpr (windowFits_of_whole (by decide) (List.Subset.refl _) ?_)
    intro r hr
    obtain rfl := List.mem_singleton.mp hr
    exact .inr ⟨hr,by decide,by decide⟩
  · have h := (@reloc_window_iff 8 32 0x400010 8 (by decide) (by decide) fun _ => 0).2
    have htargets : oneObject.TargetsExist := by
      rw [ObjFile.TargetsExist]
      decide
    refine (h oneObject htargets (List.pairwise_singleton _ _)).mpr
      (windowFits_of_whole (by decide) (List.Subset.refl _) ?_)
    intro r hr
    obtain rfl := List.mem_singleton.mp hr
    exact .inr ⟨hr,by decide,by decide⟩

/-- A window that the pointer starts before keeps the bytes of the image, and one that the pointer ends behind is written
beyond. -/
theorem reloc_cuts_pointer :
    ¬WindowRight 8 32 (fun _ => 0) 0x400012 8 onePointer.relocations (fun _ => 0)
      (relocPtr 8 32 onePointer 0x400012 8 (copyout (fun _ => 0) 0x400012)) ∧
    ¬WindowRight 8 32 (fun _ => 0) 0x40000c 8 onePointer.relocations (fun _ => 0)
      (relocPtr 8 32 onePointer 0x40000c 8 (copyout (fun _ => 0) 0x40000c)) := by
  constructor
  · intro h
    obtain ⟨data,hok,hdata⟩ := h.agrees fun r hr _ => by
      obtain rfl := List.mem_singleton.mp hr
      exact Option.some_ne_none _
    have hskip : relocPtr 8 32 onePointer 0x400012 8 (copyout (fun _ => 0) 0x400012) =
        .ok (copyout (fun _ => 0) 0x400012) := by
      rw [relocPtr_eq rfl]
      exact (relocRun_cons _ _ _).trans (by rw [reloc_skip (by decide) (by decide)]; rfl)
    obtain rfl := Except.ok.inj (hskip.symm.trans hok)
    exact absurd (hdata 0 (by decide)) (by decide)
  · intro h
    refine h.noOutside ?_
    rw [relocPtr_eq rfl]
    exact (relocRun_outside_iff (by decide) _ _).mpr
      ⟨_,.inl rfl,by decide,.inr (Option.some_ne_none _),by decide⟩

end Main

end Blub.Boot.Elf
