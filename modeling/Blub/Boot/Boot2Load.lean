import Blub.Lib.Slice
import Mathlib.Logic.Function.Basic

/-! `load` of `boot2.c` and of `gptboot.c`, which start a kernel or a loader. The program headers go to a static array of
two entries. Its contents and those of the other variables are kept apart from the memory that is loaded. -/
namespace Blub.Boot.Boot2Load
open Bytes

section Code

def ptLoad : ℕ := 1
def zmagic : ℕ := 0x10b
def elfmag : ℕ := 0x464c457f
def pageSize : ℕ := 4096

/-- What is used of an `Elf32_Phdr`. -/
structure Phdr where
  type : ℕ
  offset : ℕ
  paddr : ℕ
  filesz : ℕ
  memsz : ℕ
  deriving DecidableEq

def phdrAt (b : ℕ → UInt8) (o : ℕ) : Phdr :=
  ⟨leGet b o 4,leGet b (o+4) 4,leGet b (o+12) 4,leGet b (o+16) 4,leGet b (o+20) 4⟩

/-- A call of `load`: whether there is the file, its contents, the reads that fail by their numbers, and what one of them
leaves in the entry that it should fill. -/
structure Attempt where
  found : Bool
  byte : ℕ → UInt8
  fails : ℕ → Bool
  junk : Phdr

variable (f : Attempt)

def Attempt.entry : ℕ := leGet f.byte 24 4
def Attempt.phoff : ℕ := leGet f.byte 28 4
def Attempt.shoff : ℕ := leGet f.byte 32 4
def Attempt.phnum : ℕ := leGet f.byte 44 2
def Attempt.shnum : ℕ := leGet f.byte 48 2
def Attempt.shstrndx : ℕ := leGet f.byte 50 2

/-- The fields of a `struct exec`. -/
def Attempt.aText : ℕ := leGet f.byte 4 4
def Attempt.aData : ℕ := leGet f.byte 8 4
def Attempt.aEntry : ℕ := leGet f.byte 20 4

def Attempt.isZmagic : Prop := leGet f.byte 0 4%2^16 = zmagic
def Attempt.isElf : Prop := leGet f.byte 0 4 = elfmag

instance : Decidable f.isZmagic := inferInstanceAs (Decidable (_ = _))
instance : Decidable f.isElf := inferInstanceAs (Decidable (_ = _))

/-- Bytes of the file that are read to a physical address. -/
structure Store where
  addr : ℕ
  bytes : List UInt8
  deriving DecidableEq

def roundup2 (x y : ℕ) : ℕ := (x+(y-1))%2^32/y*y

/-- What `__exec` starts: where, what was loaded, and what `bootinfo` says of the symbols. -/
structure Exec where
  addr : ℕ
  segments : List Store
  symbols : List Store
  symtab : Option ℕ
  esymtab : Option ℕ

/-- The loop over the program headers: the array, and the number of reads unless one failed. -/
def readPhdrs : ℕ → ℕ → ℕ → ℕ → (ℕ → Phdr) → (ℕ → Phdr) × Option ℕ
  | 0, _, n, _, ep => (ep,some n)
  | left+1, off, n, j, ep =>
    if j < 2 then
      if f.fails n then (Function.update ep j f.junk,none)
      else
        let ep := Function.update ep j (phdrAt f.byte off)
        readPhdrs left (off+32) (n+1) (if (ep j).type = ptLoad then j+1 else j) ep
    else (ep,some n)

def segment (h : Phdr) : Store := ⟨h.paddr &&& 0xffffff,slice f.byte h.offset h.filesz⟩

/-- A section header of the symbols or of their strings: its size and its contents go to `p`. -/
def symbolStores (o p : ℕ) : List Store :=
  [⟨p,(List.range 4).map fun k => f.byte (o+20+k)⟩,⟨(p+4)%2^32,slice f.byte (leGet f.byte (o+16) 4) (leGet f.byte (o+20) 4)⟩]

def symbolEnd (o p : ℕ) : ℕ := (p+4+leGet f.byte (o+20) 4)%2^32

/-- The symbols behind the program: what is stored, and where it ends, unless a read fails. -/
def loadSymbols (n p : ℕ) : Option (List Store × ℕ) :=
  if f.shnum = f.shstrndx+3 then
    let es := (f.shoff+40*(f.shstrndx+1))%2^32
    if f.fails n ∨ f.fails (n+1) ∨ f.fails (n+2) then none
    else
      let p₁ := symbolEnd f es p
      some (symbolStores f es p ++ symbolStores f (es+40) p₁,symbolEnd f (es+40) p₁)
  else some ([],p)

/-- `load`: the array when it returns or starts the program, and what it starts. -/
def load (gptboot : Bool) (ep : ℕ → Phdr) : (ℕ → Phdr) × Option Exec :=
  if f.found = false ∨ f.fails 0 then (ep,none)
  else if f.isZmagic then
    let addr := f.aEntry &&& 0xffffff
    let p := (addr+roundup2 f.aText pageSize)%2^32
    if f.fails 1 ∨ f.fails 2 then (ep,none)
    else
      let text : Store := ⟨addr,slice f.byte pageSize f.aText⟩
      let data : Store := ⟨p,slice f.byte (pageSize+f.aText) f.aData⟩
      (ep,some ⟨addr,[text,data],[],none,if gptboot then some p else none⟩)
  else if f.isElf then
    match readPhdrs f f.phnum f.phoff 1 0 ep with
    | (ep,none) => (ep,none)
    | (ep,some n) =>
      if f.fails n ∨ f.fails (n+1) then (ep,none)
      else
        let p := (((ep 1).paddr &&& 0xffffff)+roundup2 (ep 1).memsz pageSize)%2^32
        match loadSymbols f (n+2) p with
        | none => (ep,none)
        | some (symbols,p') =>
          (ep,some ⟨f.entry &&& 0xffffff,[segment f (ep 0),segment f (ep 1)],symbols,some p,some p'⟩)
  else (ep,none)

attribute [local grind =] readPhdrs load

end Code

section Meaning
variable (f : Attempt)

/-- The program headers of a file, from an offset on. -/
def phdrsFrom (b : ℕ → UInt8) : ℕ → ℕ → List Phdr
  | 0, _ => []
  | left+1, off => phdrAt b off :: phdrsFrom b left (off+32)

def Attempt.phdrs : List Phdr := phdrsFrom f.byte f.phnum f.phoff

def Attempt.loads : List Phdr := f.phdrs.filter fun h => h.type = ptLoad

/-- The last header behind the first one to load. -/
def Attempt.lastBehind : Option Phdr := (f.phdrs.dropWhile fun h => h.type ≠ ptLoad).tail.getLast?

/-- The stores that fill any memory. -/
def filled (l : List Store) : List Store := l.filter fun s => s.bytes ≠ []

/-- The program is started with the memory of its segments filled, and no other. -/
def LoadsExactly (gptboot : Bool) (ep : ℕ → Phdr) : Prop :=
  ∃ e, (load f gptboot ep).2 = some e ∧ filled e.segments = filled (f.loads.map (segment f))

/-- The array after earlier calls. At first it is zero. -/
def after (gptboot : Bool) (history : List Attempt) : ℕ → Phdr :=
  history.foldl (fun ep f => (load f gptboot ep).1) fun _ => ⟨0,0,0,0,0⟩

attribute [local grind =] phdrsFrom

end Meaning

section Fill
variable {f : Attempt} {ep : ℕ → Phdr} {h : Phdr} {pre post : List Phdr} {j : ℕ}

/-- What the headers leave in the array, from entry `j` on. -/
def fill : List Phdr → ℕ → (ℕ → Phdr) → ℕ → Phdr
  | [], _, ep => ep
  | h :: l, j, ep => if j < 2 then fill l (if h.type = ptLoad then j+1 else j) (Function.update ep j h) else ep

attribute [local grind =] fill

theorem readPhdrs_fill (hreads : ∀ n, f.fails n = false) (left off n j : ℕ) (ep : ℕ → Phdr) :
    ∃ m, readPhdrs f left off n j ep = (fill (phdrsFrom f.byte left off) j ep,some m) := by
  induction left generalizing off n j ep with
  | zero => exact ⟨n,rfl⟩
  | succ left ih =>
    rw [readPhdrs,phdrsFrom,fill]
    by_cases hj : j < 2
    · rw [if_pos hj,if_pos hj,hreads,if_neg Bool.false_ne_true]
      dsimp only
      rw [Function.update_self]
      exact ih _ _ _ _
    · rw [if_neg hj,if_neg hj]
      exact ⟨n,rfl⟩

/-- Headers that are not to load are written over by the next one. -/
theorem fill_pre (hpre : ∀ x ∈ pre, x.type ≠ ptLoad) (l : List Phdr) (j : ℕ) (ep : ℕ → Phdr) :
    fill (pre ++ h :: l) j ep = fill (h :: l) j ep := by
  induction pre generalizing ep with
  | nil => rfl
  | cons x pre ih =>
    obtain ⟨hx,hpre⟩ := List.forall_mem_cons.mp hpre
    by_cases hj : j < 2
    · rw [List.cons_append,fill,if_pos hj,if_neg hx,ih hpre,fill,fill,if_pos hj,if_pos hj,Function.update_idem]
    · rw [List.cons_append,fill,if_neg hj,fill,if_neg hj]

/-- Behind the last header to load, the last of all stays. -/
theorem fill_post (hpost : ∀ x ∈ post, x.type ≠ ptLoad) (hj : j < 2) (ep : ℕ → Phdr) :
    fill post j ep = Function.update ep j (post.getLast?.getD (ep j)) := by
  induction post generalizing ep with
  | nil => exact (Function.update_eq_self j ep).symm
  | cons x post ih =>
    obtain ⟨hx,hpost⟩ := List.forall_mem_cons.mp hpost
    rw [fill,if_pos hj,if_neg hx,ih hpost,Function.update_idem,Function.update_self]
    cases post with
    | nil => rfl
    | cons y post =>
      rw [List.getLast?_cons_cons,List.getLast?_eq_some_getLast (List.cons_ne_nil y post)]
      rfl

theorem fill_full (l : List Phdr) (ep : ℕ → Phdr) : fill l 2 ep = ep := by
  cases l <;> rfl

theorem fill_one {a : Phdr} (hpre : ∀ x ∈ pre, x.type ≠ ptLoad) (ha : a.type = ptLoad)
    (hpost : ∀ x ∈ post, x.type ≠ ptLoad) (ep : ℕ → Phdr) :
    fill (pre ++ a :: post) 0 ep = Function.update (Function.update ep 0 a) 1 (post.getLast?.getD (ep 1)) := by
  rw [fill_pre hpre,fill,if_pos Nat.two_pos,if_pos ha,fill_post hpost Nat.one_lt_two]
  rfl

theorem fill_two {a b : Phdr} {mid : List Phdr} (hpre : ∀ x ∈ pre, x.type ≠ ptLoad) (ha : a.type = ptLoad)
    (hmid : ∀ x ∈ mid, x.type ≠ ptLoad) (hb : b.type = ptLoad) (l : List Phdr) (ep : ℕ → Phdr) :
    fill (pre ++ a :: (mid ++ b :: l)) 0 ep = Function.update (Function.update ep 0 a) 1 b := by
  rw [fill_pre hpre,fill,if_pos Nat.two_pos,if_pos ha,fill_pre hmid,fill,if_pos Nat.one_lt_two,if_pos hb,fill_full]

end Fill

section Loads
variable {f : Attempt} {ep : ℕ → Phdr}

/-- An ELF file is started with what its headers leave in the array, if no read fails. -/
theorem load_elf (helf : f.isElf) (hfound : f.found = true) (hreads : ∀ n, f.fails n = false) (gptboot : Bool)
    (ep : ℕ → Phdr) : ∃ e, (load f gptboot ep).2 = some e ∧
      e.segments = [segment f (fill f.phdrs 0 ep 0),segment f (fill f.phdrs 0 ep 1)] := by
  have hmagic : ¬f.isZmagic := by
    unfold Attempt.isZmagic
    rw [helf]
    decide
  obtain ⟨m,hphdrs⟩ := readPhdrs_fill hreads f.phnum f.phoff 1 0 ep
  have hsymbols : ∀ n p, loadSymbols f n p ≠ none := by
    intro n p
    unfold loadSymbols
    simp only [hreads,Bool.false_eq_true,or_self,if_false]
    split_ifs <;> simp
  rw [load,if_neg (by simp [hfound,hreads]),if_neg hmagic,if_pos helf,hphdrs]
  dsimp only
  rw [if_neg (by simp [hreads])]
  split
  · next h => exact absurd h (hsymbols _ _)
  · exact ⟨_,rfl,rfl⟩

/-- What is in the second entry: the second segment, or what the headers behind the only one leave there. -/
theorem fill_loads (hloads : f.loads.length = 1 ∨ f.loads.length = 2) (ep : ℕ → Phdr) :
    (∃ a, f.loads = [a] ∧ fill f.phdrs 0 ep 0 = a ∧ fill f.phdrs 0 ep 1 = f.lastBehind.getD (ep 1)) ∨
      ∃ a b, f.loads = [a,b] ∧ fill f.phdrs 0 ep 0 = a ∧ fill f.phdrs 0 ep 1 = b := by
  obtain ⟨a,l,hl⟩ : ∃ a l, f.loads = a :: l := List.exists_cons_of_length_pos (by omega)
  obtain ⟨pre,post,hsplit,hpre,ha,hpost⟩ := List.filter_eq_cons_iff.mp hl
  have hpre : ∀ x ∈ pre, x.type ≠ ptLoad := fun x hx h => hpre x hx (decide_eq_true h)
  have ha : a.type = ptLoad := of_decide_eq_true ha
  rcases hloads with hlen | hlen
  · obtain rfl : l = [] := by
      rw [hl,List.length_cons] at hlen
      exact List.length_eq_zero_iff.mp (Nat.succ.inj hlen)
    have hpost : ∀ x ∈ post, x.type ≠ ptLoad := fun x hx h =>
      List.filter_eq_nil_iff.mp hpost x hx (decide_eq_true h)
    have hlast : f.lastBehind = post.getLast? := by
      rw [Attempt.lastBehind,hsplit,List.dropWhile_append_of_pos fun x hx => by simpa using hpre x hx,
        List.dropWhile_cons_of_neg (by simpa using ha)]
      rfl
    rw [hsplit,fill_one hpre ha hpost,hlast]
    exact Or.inl ⟨a,hl,rfl,rfl⟩
  · obtain ⟨b,rfl⟩ : ∃ b, l = [b] := by
      rw [hl,List.length_cons] at hlen
      exact List.length_eq_one_iff.mp (Nat.succ.inj hlen)
    obtain ⟨mid,rest,rfl,hmid,hb,-⟩ := List.filter_eq_cons_iff.mp hpost
    have hmid : ∀ x ∈ mid, x.type ≠ ptLoad := fun x hx h => hmid x hx (decide_eq_true h)
    rw [hsplit,fill_two hpre ha hmid (of_decide_eq_true hb)]
    exact Or.inr ⟨a,b,hl,rfl,rfl⟩

theorem filled_append (l l' : List Store) : filled (l ++ l') = filled l ++ filled l' := List.filter_append ..

theorem filled_segment (f : Attempt) (h : Phdr) : filled [segment f h] = [] ↔ h.filesz = 0 := by
  have hlen : (segment f h).bytes.length = h.filesz := length_slice ..
  rw [filled,List.filter_eq_nil_iff]
  simp only [List.mem_singleton,forall_eq,ne_eq,decide_not,Bool.not_eq_true,Bool.not_eq_false',decide_eq_true_eq]
  rw [← hlen,List.length_eq_zero_iff]

end Loads

/-- After any earlier calls, a program with one or two segments is started with just these in memory exactly if there are
two, or the second entry of the array asks for no bytes: the last header behind the only segment or, if there is none,
what the earlier calls have left. -/
theorem loadsExactly_iff (gptboot : Bool) (history : List Attempt) (f : Attempt) (helf : f.isElf)
    (hfound : f.found = true) (hreads : ∀ n, f.fails n = false) (hloads : f.loads.length = 1 ∨ f.loads.length = 2) :
    LoadsExactly f gptboot (after gptboot history) ↔
      f.loads.length = 2 ∨ (f.lastBehind.getD (after gptboot history 1)).filesz = 0 := by
  obtain ⟨e,he,hseg⟩ := load_elf helf hfound hreads gptboot (after gptboot history)
  have hiff : LoadsExactly f gptboot (after gptboot history) ↔ filled e.segments = filled (f.loads.map (segment f)) := by
    rw [LoadsExactly,he]
    simp
  rw [hiff,hseg]
  rcases fill_loads hloads (after gptboot history) with ⟨a,hl,h₀,h₁⟩ | ⟨a,b,hl,h₀,h₁⟩
  · have hpair : filled [segment f a,segment f (f.lastBehind.getD (after gptboot history 1))] =
        filled [segment f a] ++ filled [segment f (f.lastBehind.getD (after gptboot history 1))] := filled_append [_] [_]
    rw [h₀,h₁,hl,hpair,List.map_singleton,List.append_right_eq_self,filled_segment]
    simp
  · rw [h₀,h₁,hl]
    simp

/-- A header of an ELF file with 52 bytes before its program headers. -/
def ehdr (phnum : UInt8) : List UInt8 :=
  [0x7f,0x45,0x4c,0x46] ++ List.replicate 24 0 ++ [52,0,0,0] ++ List.replicate 12 0 ++ [phnum,0] ++ List.replicate 6 0

/-- A program header: its type, and one byte at the offset 0 for the address `0x100000` or above. -/
def phdrBytes (type page : UInt8) : List UInt8 :=
  [type,0,0,0] ++ List.replicate 8 0 ++ [0,0,page,0] ++ [1,0,0,0] ++ [1,0,0,0] ++ List.replicate 8 0

/-- A file of which nothing but the read of number `fail` fails. -/
def fileOf (bytes : List UInt8) (fail : Option ℕ) : Attempt := ⟨true,ofList bytes,fun n => some n = fail,⟨0,0,0,0,0⟩⟩

def twoSegments : List UInt8 := ehdr 2 ++ phdrBytes 1 16 ++ phdrBytes 1 32

theorem loadsExactly_two : LoadsExactly (fileOf twoSegments none) true (after true [fileOf twoSegments (some 4)]) :=
  (loadsExactly_iff true _ (fileOf twoSegments none) (by decide) rfl (fun _ => rfl) (by decide)).mpr (by decide)

/-- A header for notes behind that of the segment is loaded as well, and so is the second segment of a file that could
not be read before, from the file that has only one. -/
theorem second_entry_loaded :
    ¬LoadsExactly (fileOf (ehdr 2 ++ phdrBytes 1 16 ++ phdrBytes 4 32) none) false (after false []) ∧
      ¬LoadsExactly (fileOf (ehdr 1 ++ phdrBytes 1 16) none) true (after true [fileOf twoSegments (some 4)]) := by
  constructor
  · rintro ⟨e,he,hseg⟩
    have hrun : (load (fileOf (ehdr 2 ++ phdrBytes 1 16 ++ phdrBytes 4 32) none) false (after false [])).2.map
        Exec.segments = some [⟨0x100000,[0x7f]⟩,⟨0x200000,[0x7f]⟩] := by decide
    rw [he] at hrun
    rw [Option.some.inj hrun] at hseg
    revert hseg
    decide
  · rintro ⟨e,he,hseg⟩
    have hrun : (load (fileOf (ehdr 1 ++ phdrBytes 1 16) none) true (after true [fileOf twoSegments (some 4)])).2.map
        Exec.segments = some [⟨0x100000,[0x7f]⟩,⟨0x200000,[0x7f]⟩] := by decide
    rw [he] at hrun
    rw [Option.some.inj hrun] at hseg
    revert hseg
    decide

end Blub.Boot.Boot2Load
