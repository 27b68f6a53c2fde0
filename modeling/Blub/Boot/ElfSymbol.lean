import Blub.Boot.ElfHash
import Blub.Lib.CStr

/-! `lookup_symbol` of `load_elf.c`, and what a hash table of System V says. -/
namespace Blub.Boot.Elf
open CStr

def enoent : ℤ := 2
def shnUndef : ℕ := 0
def sttFunc : ℕ := 2

structure ElfSym where
  name : ℕ
  value : ℕ
  size : ℕ
  info : ℕ
  other : ℕ
  shndx : ℕ
  deriving DecidableEq

/-- What `elf_loadimage` finds of the dynamic symbols: the parts of the `DT_HASH` table, the symbols, and the strings by
their offsets. -/
structure SymbolTable where
  nbuckets : ℕ
  nchains : ℕ
  buckets : ℕ → ℕ
  chains : ℕ → ℕ
  symtab : ℕ → ElfSym
  strtab : ℕ → CStr

/-- `ELF_ST_TYPE`. -/
def ElfSym.type (sym : ElfSym) : ℕ := sym.info%16

/-- The symbol is defined, or a function with a value. -/
def ElfSym.Usable (sym : ElfSym) : Prop := sym.shndx ≠ shnUndef ∨ sym.value ≠ 0 ∧ sym.type = sttFunc

instance (sym : ElfSym) : Decidable sym.Usable := inferInstanceAs (Decidable (_ ∨ _))

section Code
variable (ef : SymbolTable) (name : CStr)

/-- The loop of `lookup_symbol`, for at most `fuel` turns. -/
def lookupLoop : ℕ → ℕ → Option (Except ℤ ElfSym)
  | 0, _ => none
  | fuel+1, symnum =>
    if symnum = 0 then some (.error enoent)
    else if ef.nchains ≤ symnum then some (.error enoent)
    else
      let sym := ef.symtab symnum
      -- taken for a corrupt table
      if sym.name = 0 then some (.error enoent)
      else if strcmp name (ef.strtab sym.name) = 0 then
        if sym.Usable then some (.ok sym) else some (.error enoent)
      else lookupLoop fuel (ef.chains symnum)

def lookupSymbol (w fuel : ℕ) : Option (Except ℤ ElfSym) :=
  lookupLoop ef name fuel (ef.buckets ((elfHash w name.bytes).toNat%ef.nbuckets))

attribute [local grind =] lookupLoop

end Code

section Spec
variable (ef : SymbolTable) (name : CStr)

def SymbolTable.nameOf (i : ℕ) : CStr := ef.strtab (ef.symtab i).name

/-- The chain that starts with this symbol number. -/
inductive Chain : ℕ → List ℕ → Prop
  | nil : Chain 0 []
  | cons {i : ℕ} {l : List ℕ} (hi : i ≠ 0) (hlt : i < ef.nchains) (h : Chain (ef.chains i) l) : Chain i (i :: l)

/-- The table is built by the rule of System V: every chain ends, and its symbols have the hash of its bucket. -/
structure Hashed : Prop where
  pos : 1 ≤ ef.nbuckets
  chain : ∀ b < ef.nbuckets, ∃ l, Chain ef (ef.buckets b) l ∧ ∀ i ∈ l, sysvHash (ef.nameOf i).bytes%ef.nbuckets = b

/-- The first symbol of the name on a chain, if it can be used. -/
def chainSymbol (l : List ℕ) : Except ℤ ElfSym :=
  match l.find? fun i => ef.nameOf i = name with
  | some i => if (ef.symtab i).Usable then .ok (ef.symtab i) else .error enoent
  | none => .error enoent

/-- The chain that the name belongs to. -/
def NameChain (l : List ℕ) : Prop := Chain ef (ef.buckets (sysvHash name.bytes%ef.nbuckets)) l

/-- `elf_hash` is the standard hash, and the lookup finds what is on the chain of the name. -/
structure LookupRight (w : ℕ) : Prop where
  hash : (elfHash w name.bytes).toNat = sysvHash name.bytes
  small : (elfHash w name.bytes).toNat < 2^28
  found : ∃ l, NameChain ef name l ∧ ∀ fuel, l.length < fuel → lookupSymbol ef name w fuel = some (chainSymbol ef name l)

/-- The first symbol of the name can be used, and it or one before it on the chain has no name of its own. -/
def BehindUnnamed (l : List ℕ) : Prop :=
  ∃ p i q, l = p ++ i :: q ∧ (∀ j ∈ p, ef.nameOf j ≠ name) ∧ ef.nameOf i = name ∧ (ef.symtab i).Usable ∧
    ∃ j ∈ p ++ [i], (ef.symtab j).name = 0

end Spec

section Lookup
variable {ef : SymbolTable} {name : CStr}

theorem Chain.unique {i : ℕ} {l l' : List ℕ} (h : Chain ef i l) (h' : Chain ef i l') : l = l' := by
  induction h generalizing l' with
  | nil =>
    cases h' with
    | nil => rfl
    | cons hi => exact absurd rfl hi
  | cons hi _ _ ih =>
    cases h' with
    | nil => exact absurd rfl hi
    | cons _ _ h' => rw [ih h']

theorem Hashed.nameChain (ht : Hashed ef) (name : CStr) : ∃ l, NameChain ef name l := by
  obtain ⟨l,hl,-⟩ := ht.chain _ (Nat.mod_lt (sysvHash name.bytes) ht.pos)
  exact ⟨l,hl⟩

theorem chainSymbol_cons_ne {i : ℕ} (h : ef.nameOf i ≠ name) (l : List ℕ) :
    chainSymbol ef name (i :: l) = chainSymbol ef name l := by
  simp [chainSymbol,h]

theorem chainSymbol_cons_eq {i : ℕ} (h : ef.nameOf i = name) (l : List ℕ) :
    chainSymbol ef name (i :: l) = if (ef.symtab i).Usable then .ok (ef.symtab i) else .error enoent := by
  simp [chainSymbol,h]

theorem chainSymbol_cases (ef : SymbolTable) (name : CStr) (l : List ℕ) : chainSymbol ef name l = .error enoent ∨
    ∃ p i q, l = p ++ i :: q ∧ (∀ j ∈ p, ef.nameOf j ≠ name) ∧ ef.nameOf i = name ∧ (ef.symtab i).Usable ∧
      chainSymbol ef name l = .ok (ef.symtab i) := by
  induction l with
  | nil => exact .inl rfl
  | cons i l ih =>
    by_cases hi : ef.nameOf i = name
    · by_cases huse : (ef.symtab i).Usable
      · exact .inr ⟨[],i,l,rfl,by simp,hi,huse,by rw [chainSymbol_cons_eq hi,if_pos huse]⟩
      · exact .inl (by rw [chainSymbol_cons_eq hi,if_neg huse])
    · rw [chainSymbol_cons_ne hi]
      obtain herr | ⟨p,k,q,rfl,hp,hk,huse,hok⟩ := ih
      · exact .inl herr
      · refine .inr ⟨i :: p,k,q,rfl,?_,hk,huse,hok⟩
        intro j hj
        obtain rfl | hj := List.mem_cons.mp hj
        · exact hi
        · exact hp j hj

/-- A symbol without a name ends the search. -/
theorem lookupLoop_unnamed {p q : List ℕ} {j i : ℕ} (hc : Chain ef i (p ++ j :: q)) (hp : ∀ k ∈ p, ef.nameOf k ≠ name)
    (hj : (ef.symtab j).name = 0) {fuel : ℕ} (hfuel : p.length < fuel) :
    lookupLoop ef name fuel i = some (.error enoent) := by
  induction p generalizing i fuel with
  | nil =>
    obtain ⟨fuel,rfl⟩ := Nat.exists_eq_add_of_lt hfuel
    cases hc with
    | cons hi hlt _ => simp [lookupLoop,hi,Nat.not_le.mpr hlt,hj]
  | cons k p ih =>
    obtain ⟨fuel,rfl⟩ := Nat.exists_eq_add_of_lt hfuel
    cases hc with
    | cons hi hlt hc =>
      have hrest := ih hc (fun k hk => hp k (List.mem_cons_of_mem _ hk)) (show p.length < (k :: p).length+fuel by simp; omega)
      have hne : ¬strcmp name (ef.strtab (ef.symtab k).name) = 0 := by
        rw [strcmp_eq_zero]
        exact fun h => hp k List.mem_cons_self h.symm
      rw [lookupLoop]
      simp only [if_neg hi,if_neg (Nat.not_le.mpr hlt),if_neg hne,hrest,ite_self]

/-- On a chain on which the symbol does not stand behind one without a name, the search finds what there is. -/
theorem lookupLoop_chain {l : List ℕ} {i : ℕ} (hc : Chain ef i l) (hb : ¬BehindUnnamed ef name l) {fuel : ℕ}
    (hfuel : l.length < fuel) : lookupLoop ef name fuel i = some (chainSymbol ef name l) := by
  induction hc generalizing fuel with
  | nil =>
    obtain ⟨fuel,rfl⟩ := Nat.exists_eq_add_of_lt hfuel
    rfl
  | @cons i l hi hlt hc ih =>
    obtain ⟨fuel,rfl⟩ := Nat.exists_eq_add_of_lt hfuel
    by_cases hun : (ef.symtab i).name = 0
    · have hnone : chainSymbol ef name (i :: l) = .error enoent := by
        obtain herr | ⟨p,k,q,hl,hp,hk,huse,-⟩ := chainSymbol_cases ef name (i :: l)
        · exact herr
        · refine absurd ⟨p,k,q,hl,hp,hk,huse,i,?_,hun⟩ hb
          cases p with
          | nil =>
            obtain ⟨rfl,-⟩ := List.cons.inj hl
            exact List.mem_cons_self
          | cons j p =>
            obtain ⟨rfl,-⟩ := List.cons.inj hl
            exact List.mem_cons_self
      rw [hnone]
      exact lookupLoop_unnamed (p := []) (.cons hi hlt hc) (by simp) hun (by simp)
    · have hcmp : strcmp name (ef.strtab (ef.symtab i).name) = 0 ↔ ef.nameOf i = name := by
        rw [strcmp_eq_zero,eq_comm]
        rfl
      rw [lookupLoop]
      simp only [if_neg hi,if_neg (Nat.not_le.mpr hlt),if_neg hun,hcmp]
      by_cases hname : ef.nameOf i = name
      · rw [if_pos hname,chainSymbol_cons_eq hname]
        split_ifs <;> rfl
      · rw [if_neg hname,chainSymbol_cons_ne hname]
        refine ih ?_ (by simp; omega)
        rintro ⟨p,k,q,rfl,hp,hk,huse,j,hj,hjn⟩
        refine hb ⟨i :: p,k,q,rfl,?_,hk,huse,j,List.mem_cons_of_mem _ hj,hjn⟩
        intro m hm
        obtain rfl | hm := List.mem_cons.mp hm
        · exact hname
        · exact hp m hm

/-- A symbol that the chain has is not found behind one without a name. -/
theorem BehindUnnamed.missed {l : List ℕ} {i : ℕ} (hb : BehindUnnamed ef name l) (hc : Chain ef i l) {fuel : ℕ}
    (hfuel : l.length < fuel) : lookupLoop ef name fuel i ≠ some (chainSymbol ef name l) := by
  obtain ⟨p,k,q,rfl,hp,hk,huse,j,hj,hun⟩ := hb
  have hfound : chainSymbol ef name (p ++ k :: q) = .ok (ef.symtab k) := by
    clear hc hfuel hj
    induction p with
    | nil => rw [List.nil_append,chainSymbol_cons_eq hk,if_pos huse]
    | cons m p ih =>
      rw [List.cons_append,chainSymbol_cons_ne (hp m List.mem_cons_self)]
      exact ih fun m hm => hp m (List.mem_cons_of_mem _ hm)
  -- the first symbol without a name that is come to
  obtain ⟨p₁,q₁,hsplit⟩ := List.append_of_mem hj
  have hbefore : ∀ m ∈ p₁, ef.nameOf m ≠ name := by
    intro m hm
    refine hp m ?_
    cases q₁ using List.reverseRecOn with
    | nil =>
      obtain ⟨rfl,-⟩ := List.append_inj' hsplit rfl
      exact hm
    | append_singleton q₁ d _ =>
      rw [← List.cons_append,← List.append_assoc] at hsplit
      obtain ⟨rfl,-⟩ := List.append_inj' hsplit rfl
      exact List.mem_append_left _ hm
  have hchain : p ++ k :: q = p₁ ++ j :: (q₁ ++ q) := by
    rw [← List.singleton_append,← List.append_assoc,hsplit]
    simp
  have hlen := congrArg List.length hchain
  simp only [List.length_append,List.length_cons] at hlen hfuel
  rw [hfound,lookupLoop_unnamed (hchain ▸ hc) hbefore hun (by omega)]
  simp

/-- The lookup is right exactly for names whose hash stays in 32 bits, unless a symbol without a name is in the way. -/
theorem lookupRight_iff {w : ℕ} (hw : 32 ≤ w) (ht : Hashed ef) (name : CStr) : LookupRight ef name w ↔
    ¬LateCarry (w-32) name.bytes ∧ ∀ l, NameChain ef name l → ¬BehindUnnamed ef name l := by
  rw [← elfHash_eq_iff hw]
  constructor
  · intro hr
    refine ⟨hr.hash,fun l hl hb => ?_⟩
    obtain ⟨l',hl',hfound⟩ := hr.found
    obtain rfl := hl.unique hl'
    have hrun := hfound (l.length+1) (Nat.lt_succ_self _)
    rw [lookupSymbol,hr.hash] at hrun
    exact hb.missed hl (Nat.lt_succ_self _) hrun
  · rintro ⟨hhash,hb⟩
    obtain ⟨l,hl⟩ := ht.nameChain name
    refine ⟨hhash,by rw [hhash]; exact sysvHash_lt _,l,hl,fun fuel hfuel => ?_⟩
    rw [lookupSymbol,hhash]
    exact lookupLoop_chain hl (hb l hl) hfuel

end Lookup

/-- Three buckets, and one function. -/
def oneSymbol (name : CStr) : SymbolTable where
  nbuckets := 3
  nchains := 2
  buckets b := if b = sysvHash name.bytes%3 then 1 else 0
  chains _ := 0
  symtab _ := ⟨1,4096,16,18,0,1⟩
  strtab _ := name

theorem oneSymbol_hashed (name : CStr) : Hashed (oneSymbol name) := by
  refine ⟨Nat.succ_pos 2,fun b _ => ?_⟩
  by_cases hb : b = sysvHash name.bytes%3
  · refine ⟨[1],?_,?_⟩
    · simp only [oneSymbol,if_pos hb]
      exact .cons Nat.one_ne_zero Nat.one_lt_two .nil
    · intro i _
      exact hb.symm
  · refine ⟨[],?_,by simp⟩
    simp only [oneSymbol,if_neg hb]
    exact .nil

/-- `main`. -/
def shortName : CStr := ⟨[109,97,105,110],by decide⟩

theorem lookupRight_short : LookupRight (oneSymbol shortName) shortName 64 := by
  have hhash : (elfHash 64 shortName.bytes).toNat = sysvHash shortName.bytes := by decide
  refine (lookupRight_iff (by decide) (oneSymbol_hashed _) shortName).mpr
    ⟨(elfHash_eq_iff (show 32 ≤ 64 by decide) _).mp hhash,fun l _ hb => ?_⟩
  obtain ⟨p,i,q,-,-,-,-,j,-,hj⟩ := hb
  exact absurd (show 1 = 0 from hj) (by decide)

/-- `iiiiid_a`. -/
def carryName : CStr := ⟨[105,105,105,105,105,100,95,97],by decide⟩

/-- In 64 bits the hash of this name goes past bit 31, and its symbol is looked for on another chain. -/
theorem lookup_misses_carry : Hashed (oneSymbol carryName) ∧ NameChain (oneSymbol carryName) carryName [1] ∧
    chainSymbol (oneSymbol carryName) carryName [1] = .ok ⟨1,4096,16,18,0,1⟩ ∧
    lookupSymbol (oneSymbol carryName) carryName 32 2 = some (.ok ⟨1,4096,16,18,0,1⟩) ∧
    lookupSymbol (oneSymbol carryName) carryName 64 2 = some (.error enoent) ∧
    (elfHash 64 carryName.bytes).toNat = 2^32+sysvHash carryName.bytes ∧
    ¬LookupRight (oneSymbol carryName) carryName 64 := by
  have hhash : (elfHash 64 carryName.bytes).toNat = 2^32+sysvHash carryName.bytes := by decide
  refine ⟨oneSymbol_hashed _,?_,by rfl,by rfl,by rfl,hhash,?_⟩
  · exact .cons Nat.one_ne_zero Nat.one_lt_two .nil
  · intro h
    have heq := h.hash
    omega

end Blub.Boot.Elf
