import Blub.Lib.Placing

/-! How `obj_loadimage` of `load_elf_obj.c` lays out the sections of an object file, in a `vm_offset_t` of `w` bits.
The words of the section headers may be `extra` bits longer. -/
namespace Blub.Boot.Elf
open Blub.Placing

structure Shdr where
  type : ℕ
  size : ℕ
  addralign : ℕ
  link : ℕ

def shtProgbits : ℕ := 1
def shtSymtab : ℕ := 2
def shtStrtab : ℕ := 3
def shtRela : ℕ := 4
def shtNobits : ℕ := 8
def shtRel : ℕ := 9
def shtX8664Unwind : ℕ := 0x70000001

/-- Why the sections are not laid out: the processor's fault, or one of the checks. -/
inductive LayoutError
  | divideByZero
  | noSymbolTable
  | invalidSymbolStrings
  | noSectionNames
  deriving DecidableEq

section Code
variable (w extra : ℕ)

/-- `roundup`. -/
def roundup (x y : ℕ) : Except LayoutError ℕ :=
  if y = 0 then .error .divideByZero else .ok ((x+(y-1))%2^(w+extra)/y*y)

/-- A section is put at the next address that suits it. -/
def layoutSection (i : ℕ) (sh : Shdr) (s : State) : Except LayoutError State :=
  match roundup w extra s.next sh.addralign with
  | .error e => .error e
  | .ok rounded =>
    let lastaddr := rounded%2^w
    .ok ⟨(lastaddr+sh.size)%2^w,Function.update s.addr i lastaddr⟩

/-- A pass over the section headers, from index `i` on. -/
def layoutPass (wanted : Shdr → Bool) : List Shdr → ℕ → State → Except LayoutError State
  | [], _, s => .ok s
  | sh :: l, i, s =>
    if wanted sh then
      match layoutSection w extra i sh s with
      | .error e => .error e
      | .ok s => layoutPass wanted l (i+1) s
    else layoutPass wanted l (i+1) s

def hasContents (sh : Shdr) : Bool :=
  sh.size ≠ 0 ∧ (sh.type = shtProgbits ∨ sh.type = shtNobits ∨ sh.type = shtX8664Unwind)

def isRelocation (sh : Shdr) : Bool := sh.type = shtRel ∨ sh.type = shtRela

/-- The pass over the symbol tables, with `nsym` and `symtabindex`: they are placed without rounding. -/
def symbolPass : List Shdr → ℕ → ℕ × ℕ × State → ℕ × ℕ × State
  | [], _, r => r
  | sh :: l, i, (nsym,symtabindex,s) =>
    if sh.type = shtSymtab then
      symbolPass l (i+1) (nsym+1,i,⟨(s.next+sh.size)%2^w,Function.update s.addr i s.next⟩)
    else symbolPass l (i+1) (nsym,symtabindex,s)

/-- The layout by `obj_loadimage`: the addresses, and `lastaddr`. -/
def objLayout (shdr : List Shdr) (shstrndx off : ℕ) : Except LayoutError State :=
  match layoutPass w extra hasContents shdr 0 ⟨off%2^w,fun _ => 0⟩ with
  | .error e => .error e
  | .ok s =>
    let (nsym,symtabindex,s) := symbolPass w shdr 0 (0,0,s)
    if nsym ≠ 1 then .error .noSymbolTable
    else
      match shdr[symtabindex]? with
      | none => .error .noSymbolTable
      | some symtab =>
        match layoutSection w extra symtabindex symtab s with
        | .error e => .error e
        | .ok s =>
          match shdr[symtab.link]? with
          | none => .error .invalidSymbolStrings
          | some symstr =>
            if symstr.type ≠ shtStrtab then .error .invalidSymbolStrings
            else
              match layoutSection w extra symtab.link symstr s with
              | .error e => .error e
              | .ok s =>
                match (if shstrndx = 0 then none else shdr[shstrndx]?) with
                | none => .error .noSectionNames
                | some shstr =>
                  if shstr.type ≠ shtStrtab then .error .noSectionNames
                  else
                    match layoutSection w extra shstrndx shstr s with
                    | .error e => .error e
                    | .ok s => layoutPass w extra isRelocation shdr 0 s

attribute [local grind =] layoutPass symbolPass objLayout

end Code

section Spec

/-- A section as an item to be placed. -/
def item (p : Shdr × ℕ) : Item := ⟨p.2,p.1.addralign,p.1.size⟩

/-- As the pass over the symbol tables places it. -/
def unaligned (p : Shdr × ℕ) : Item := ⟨p.2,1,p.1.size⟩

def contents (shdr : List Shdr) : List Item := (shdr.zipIdx.filter fun p => hasContents p.1).map item
def symtabs (shdr : List Shdr) : List (Shdr × ℕ) := shdr.zipIdx.filter fun p => p.1.type = shtSymtab
def relocations (shdr : List Shdr) : List Item := (shdr.zipIdx.filter fun p => isRelocation p.1).map item

/-- The string table with this index. -/
def strtab (shdr : List Shdr) (i : ℕ) : Option (Shdr × ℕ) :=
  match shdr[i]? with
  | none => none
  | some sh => if sh.type = shtStrtab then some (sh,i) else none

/-- What is placed, in the order of the passes, and the check that stops them, if one does. -/
def plan (shdr : List Shdr) (shstrndx : ℕ) : List Item × Option LayoutError :=
  let start := contents shdr ++ (symtabs shdr).map unaligned
  match symtabs shdr with
  | [symtab] =>
    match strtab shdr symtab.1.link with
    | none => (start ++ [item symtab],some .invalidSymbolStrings)
    | some symstr =>
      match (if shstrndx = 0 then none else strtab shdr shstrndx) with
      | none => (start ++ [item symtab,item symstr],some .noSectionNames)
      | some shstr => (start ++ [item symtab,item symstr,item shstr] ++ relocations shdr,none)
  | _ => (start,some .noSymbolTable)

/-- The sections that are loaded. -/
def IsLoaded (shdr : List Shdr) (shstrndx i : ℕ) (sh : Shdr) : Prop :=
  shdr[i]? = some sh ∧ (hasContents sh = true ∨ sh.type = shtSymtab ∨ isRelocation sh = true ∨ i = shstrndx ∨
    ∃ symtab ∈ shdr, symtab.type = shtSymtab ∧ symtab.link = i)

/-- No division by zero, and every section that is loaded in its own aligned place between the two ends. -/
structure LayoutRight (w extra : ℕ) (shdr : List Shdr) (shstrndx off : ℕ) : Prop where
  noFault : objLayout w extra shdr shstrndx off ≠ .error .divideByZero
  aligned : ∀ s, objLayout w extra shdr shstrndx off = .ok s → ∀ i sh, IsLoaded shdr shstrndx i sh →
    sh.addralign ≠ 0 → sh.addralign ∣ s.addr i
  inside : ∀ s, objLayout w extra shdr shstrndx off = .ok s → ∀ i sh, IsLoaded shdr shstrndx i sh →
    off%2^w ≤ s.addr i ∧ s.addr i+sh.size ≤ s.next
  disjoint : ∀ s, objLayout w extra shdr shstrndx off = .ok s → ∀ i sh j sh', IsLoaded shdr shstrndx i sh →
    IsLoaded shdr shstrndx j sh' → i ≠ j → s.addr i+sh.size ≤ s.addr j ∨ s.addr j+sh'.size ≤ s.addr i

/-- No alignment that is rounded to is 0, and sections that pass the checks have room below the top of the address space. -/
structure LayoutFits (w extra : ℕ) (shdr : List Shdr) (shstrndx off : ℕ) : Prop where
  align : ∀ p ∈ (plan shdr shstrndx).1, p.align ≠ 0
  room : (plan shdr shstrndx).2 = none → Fits (2^(w+extra)) (2^w) (off%2^w) (plan shdr shstrndx).1

attribute [local grind =] plan

end Spec

section Plan
variable {w extra : ℕ}

theorem layoutSection_eq (i : ℕ) (sh : Shdr) (s : State) : layoutSection w extra i sh s =
    match place (2^(w+extra)) (2^w) (item (sh,i)) s with
    | none => .error .divideByZero
    | some s => .ok s := by
  rw [layoutSection,roundup,place]
  by_cases hzero : sh.addralign = 0
  · simp [item,hzero]
  · simp [item,hzero,spot]

theorem layoutPass_eq (wanted : Shdr → Bool) (l : List Shdr) (i : ℕ) (s : State) : layoutPass w extra wanted l i s =
    match placeAll (2^(w+extra)) (2^w) (((l.zipIdx i).filter fun p => wanted p.1).map item) s with
    | none => .error .divideByZero
    | some s => .ok s := by
  induction l generalizing i s with
  | nil => rfl
  | cons sh l ih =>
    rw [layoutPass,List.zipIdx_cons]
    by_cases hw : wanted sh = true
    · rw [if_pos hw,List.filter_cons_of_pos (by simpa using hw),List.map_cons,placeAll,layoutSection_eq]
      cases place (2^(w+extra)) (2^w) (item (sh,i)) s with
      | none => rfl
      | some s => exact ih (i+1) s
    · rw [if_neg hw,List.filter_cons_of_neg (by simpa using hw)]
      exact ih (i+1) s

/-- Placing without rounding is placing with an alignment of 1. -/
theorem place_unaligned (sh : Shdr) (i : ℕ) {s : State} (hs : s.next < 2^w) :
    place (2^(w+extra)) (2^w) (unaligned (sh,i)) s = some ⟨(s.next+sh.size)%2^w,Function.update s.addr i s.next⟩ := by
  have hround : s.next < 2^(w+extra) := hs.trans_le (Nat.pow_le_pow_right (by omega) (by omega))
  simp [place,unaligned,spot,Nat.mod_eq_of_lt hs,Nat.mod_eq_of_lt hround]

theorem symbolPass_eq (l : List Shdr) (i n k : ℕ) {s : State} (hs : s.next < 2^w) :
    ∃ s', placeAll (2^(w+extra)) (2^w) (((l.zipIdx i).filter fun p => p.1.type = shtSymtab).map unaligned) s = some s' ∧
      s'.next < 2^w ∧ symbolPass w l i (n,k,s) =
        (n+((l.zipIdx i).filter fun p => p.1.type = shtSymtab).length,
          (((l.zipIdx i).filter fun p => p.1.type = shtSymtab).getLast?.map Prod.snd).getD k,s') := by
  induction l generalizing i n k s with
  | nil => exact ⟨s,rfl,hs,rfl⟩
  | cons sh l ih =>
    rw [List.zipIdx_cons]
    by_cases hsym : sh.type = shtSymtab
    · obtain ⟨s',hplace,hs',hpass⟩ := ih (i+1) (n+1) i
        (s := ⟨(s.next+sh.size)%2^w,Function.update s.addr i s.next⟩) (Nat.mod_lt _ (Nat.two_pow_pos w))
      refine ⟨s',?_,hs',?_⟩
      · rw [List.filter_cons_of_pos (by simpa using hsym),List.map_cons,placeAll,place_unaligned sh i hs]
        exact hplace
      · rw [symbolPass,if_pos hsym,hpass,List.filter_cons_of_pos (by simpa using hsym),List.length_cons,List.getLast?_cons]
        refine Prod.ext (by simp only; omega) (Prod.ext ?_ rfl)
        cases ((l.zipIdx (i+1)).filter fun p => p.1.type = shtSymtab).getLast? <;> rfl
    · rw [List.filter_cons_of_neg (by simpa using hsym),symbolPass,if_neg hsym]
      exact ih (i+1) n k hs

theorem strtab_eq_none {shdr : List Shdr} {i : ℕ} (h : strtab shdr i = none) :
    ∀ sh, shdr[i]? = some sh → sh.type ≠ shtStrtab := by
  intro sh hsh htype
  rw [strtab,hsh] at h
  simp [htype] at h

theorem strtab_eq_some {shdr : List Shdr} {i : ℕ} {p : Shdr × ℕ} (h : strtab shdr i = some p) :
    shdr[i]? = some p.1 ∧ p.2 = i ∧ p.1.type = shtStrtab := by
  rw [strtab] at h
  cases hsh : shdr[i]? with
  | none => rw [hsh] at h; cases h
  | some sh =>
    rw [hsh] at h
    simp only at h
    split_ifs at h with htype
    obtain rfl := Option.some.inj h
    exact ⟨rfl,rfl,htype⟩

theorem names_eq_none {shdr : List Shdr} {i : ℕ} (h : (if i = 0 then none else strtab shdr i) = none) :
    ∀ sh, (if i = 0 then none else shdr[i]?) = some sh → sh.type ≠ shtStrtab := by
  split_ifs at h ⊢ with hi
  · exact fun _ hsh => hsh.elim
  · exact strtab_eq_none h

theorem names_eq_some {shdr : List Shdr} {i : ℕ} {p : Shdr × ℕ} (h : (if i = 0 then none else strtab shdr i) = some p) :
    (if i = 0 then none else shdr[i]?) = some p.1 ∧ p.2 = i ∧ p.1.type = shtStrtab := by
  split_ifs at h ⊢ with hi
  exact strtab_eq_some h

theorem contents_prefix (shdr : List Shdr) (shstrndx : ℕ) : contents shdr <+: (plan shdr shstrndx).1 := by
  rw [plan]
  split
  · split
    · rw [List.append_assoc]
      exact List.prefix_append _ _
    · split
      · rw [List.append_assoc]
        exact List.prefix_append _ _
      · rw [List.append_assoc,List.append_assoc]
        exact List.prefix_append _ _
  · exact List.prefix_append _ _

/-- What comes of the plan. -/
def planned (w extra : ℕ) (shdr : List Shdr) (shstrndx off : ℕ) : Except LayoutError State :=
  match placeAll (2^(w+extra)) (2^w) (plan shdr shstrndx).1 ⟨off%2^w,fun _ => 0⟩ with
  | none => .error .divideByZero
  | some s =>
    match (plan shdr shstrndx).2 with
    | none => .ok s
    | some e => .error e

/-- The first two passes went through, with one symbol table. -/
structure Started (w extra : ℕ) (shdr : List Shdr) (off : ℕ) (symtab : Shdr) (i : ℕ) (s : State) : Prop where
  passes : ∃ s₁, layoutPass w extra hasContents shdr 0 ⟨off%2^w,fun _ => 0⟩ = .ok s₁ ∧
    symbolPass w shdr 0 (0,0,s₁) = (1,i,s)
  single : symtabs shdr = [(symtab,i)]
  placed : placeAll (2^(w+extra)) (2^w) (contents shdr ++ [(symtab,i)].map unaligned) ⟨off%2^w,fun _ => 0⟩ = some s

section Started
variable {shdr : List Shdr} {shstrndx off i : ℕ} {symtab : Shdr} {s : State}

theorem Started.get (h : Started w extra shdr off symtab i s) : shdr[i]? = some symtab := by
  have hmem : (symtab,i) ∈ symtabs shdr := h.single ▸ List.mem_singleton_self _
  exact List.mem_zipIdx_iff_getElem?.mp (List.mem_filter.mp hmem).1

theorem Started.placeAll (h : Started w extra shdr off symtab i s) (rest : List Item) :
    placeAll (2^(w+extra)) (2^w) (contents shdr ++ [(symtab,i)].map unaligned ++ rest) ⟨off%2^w,fun _ => 0⟩ =
      Placing.placeAll (2^(w+extra)) (2^w) rest s := by
  rw [placeAll_append,h.placed,Option.bind_some]

/-- The symbol table without its strings. -/
theorem Started.noStrings (h : Started w extra shdr off symtab i s) (hstr : strtab shdr symtab.link = none) :
    objLayout w extra shdr shstrndx off = planned w extra shdr shstrndx off := by
  obtain ⟨s₁,hcontents,hpass⟩ := h.passes
  have hno := strtab_eq_none hstr
  rw [objLayout,hcontents]
  simp only [hpass,h.get,layoutSection_eq,planned,plan,h.single,hstr,h.placeAll,Placing.placeAll]
  rw [if_neg (by simp)]
  cases place (2^(w+extra)) (2^w) (item (symtab,i)) s with
  | none => rfl
  | some s₃ =>
    cases hlink : shdr[symtab.link]? with
    | none => rfl
    | some sh => simp [hno sh hlink]

/-- The symbol table and its strings, without the names of the sections. -/
theorem Started.noNames (h : Started w extra shdr off symtab i s) {symstr : Shdr × ℕ}
    (hstr : strtab shdr symtab.link = some symstr) (hnames : (if shstrndx = 0 then none else strtab shdr shstrndx) = none) :
    objLayout w extra shdr shstrndx off = planned w extra shdr shstrndx off := by
  obtain ⟨s₁,hcontents,hpass⟩ := h.passes
  obtain ⟨hlink,hindex,htype⟩ := strtab_eq_some hstr
  have hitem : item (symstr.1,symtab.link) = item symstr := by rw [← hindex]
  have hno := names_eq_none hnames
  rw [objLayout,hcontents]
  simp only [hpass,h.get,layoutSection_eq,planned,plan,h.single,hstr,hnames,h.placeAll,Placing.placeAll,hlink]
  rw [if_neg (by simp)]
  cases place (2^(w+extra)) (2^w) (item (symtab,i)) s with
  | none => rfl
  | some s₃ =>
    simp only [htype,ne_eq,not_true_eq_false,if_false,hitem]
    cases place (2^(w+extra)) (2^w) (item symstr) s₃ with
    | none => rfl
    | some s₄ =>
      simp only
      cases hget : (if shstrndx = 0 then none else shdr[shstrndx]?) with
      | none => rfl
      | some sh => simp [hno sh hget]

/-- The three of them, and the relocations behind them. -/
theorem Started.accepted (h : Started w extra shdr off symtab i s) {symstr shstr : Shdr × ℕ}
    (hstr : strtab shdr symtab.link = some symstr)
    (hnames : (if shstrndx = 0 then none else strtab shdr shstrndx) = some shstr) :
    objLayout w extra shdr shstrndx off = planned w extra shdr shstrndx off := by
  obtain ⟨s₁,hcontents,hpass⟩ := h.passes
  obtain ⟨hlink,hindex,htype⟩ := strtab_eq_some hstr
  obtain ⟨hget,hindex',htype'⟩ := names_eq_some hnames
  have hitem : item (symstr.1,symtab.link) = item symstr := by rw [← hindex]
  have hitem' : item (shstr.1,shstrndx) = item shstr := by rw [← hindex']
  have hall := h.placeAll ([item (symtab,i),item symstr,item shstr] ++ relocations shdr)
  rw [← List.append_assoc] at hall
  rw [objLayout,hcontents]
  simp only [hpass,h.get,layoutSection_eq,layoutPass_eq,planned,plan,h.single,hstr,hnames,hall,hlink]
  rw [if_neg (by simp)]
  simp only [List.cons_append,List.nil_append,Placing.placeAll]
  cases place (2^(w+extra)) (2^w) (item (symtab,i)) s with
  | none => rfl
  | some s₃ =>
    simp only [htype,ne_eq,not_true_eq_false,if_false,hitem]
    cases place (2^(w+extra)) (2^w) (item symstr) s₃ with
    | none => rfl
    | some s₄ =>
      simp only [hget,htype',not_true_eq_false,if_false,hitem']
      cases place (2^(w+extra)) (2^w) (item shstr) s₄ with
      | none => rfl
      | some s₅ => rfl

end Started

/-- The passes place what the plan says, as far as no check stops them. -/
theorem objLayout_eq (shdr : List Shdr) (shstrndx off : ℕ) :
    objLayout w extra shdr shstrndx off = planned w extra shdr shstrndx off := by
  have hcontents := @layoutPass_eq w extra hasContents shdr 0 ⟨off%2^w,fun _ => 0⟩
  rw [← contents] at hcontents
  cases hc : placeAll (2^(w+extra)) (2^w) (contents shdr) ⟨off%2^w,fun _ => 0⟩ with
  | none =>
    obtain ⟨rest,hrest⟩ := contents_prefix shdr shstrndx
    rw [objLayout,hcontents,hc,planned,← hrest,placeAll_append,hc]
    rfl
  | some s₁ =>
    rw [hc] at hcontents
    have hpos : off%2^w < 2^w := Nat.mod_lt _ (Nat.two_pow_pos w)
    obtain ⟨s₂,hraw,hs₂,hpass⟩ := symbolPass_eq shdr 0 0 0 (placeAll_next_lt hc hpos)
    rw [← symtabs] at hraw hpass
    have hstart : placeAll (2^(w+extra)) (2^w) (contents shdr ++ (symtabs shdr).map unaligned) ⟨off%2^w,fun _ => 0⟩ =
        some s₂ := by
      rw [placeAll_append,hc,Option.bind_some,hraw]
    rcases hsym : symtabs shdr with _ | ⟨⟨symtab,i⟩,_ | ⟨second,others⟩⟩
    · rw [hsym] at hstart hpass
      rw [objLayout,hcontents]
      simp only [hpass,planned,plan,hsym,hstart]
      rfl
    · rw [hsym] at hstart hpass
      have h : Started w extra shdr off symtab i s₂ := ⟨⟨s₁,hcontents,hpass⟩,hsym,hstart⟩
      cases hstr : strtab shdr symtab.link with
      | none => exact h.noStrings hstr
      | some symstr =>
        cases hnames : (if shstrndx = 0 then none else strtab shdr shstrndx) with
        | none => exact h.noNames hstr hnames
        | some shstr => exact h.accepted hstr hnames
    · rw [hsym] at hstart hpass
      rw [objLayout,hcontents]
      simp only [hpass,planned,plan,hsym,hstart]
      rfl

end Plan

section Sections
variable {shdr : List Shdr} {shstrndx : ℕ}

/-- The plan of sections that pass the checks. -/
theorem plan_accepted (h : (plan shdr shstrndx).2 = none) : ∃ symtab symstr shstr, symtabs shdr = [symtab] ∧
    strtab shdr symtab.1.link = some symstr ∧ strtab shdr shstrndx = some shstr ∧
    (plan shdr shstrndx).1 = contents shdr ++ [unaligned symtab] ++
      item symtab :: item symstr :: item shstr :: relocations shdr := by
  rw [plan] at h ⊢
  rcases hsym : symtabs shdr with _ | ⟨symtab,_ | ⟨second,others⟩⟩
  · rw [hsym] at h
    cases h
  · rw [hsym] at h
    dsimp only at h ⊢
    cases hstr : strtab shdr symtab.1.link with
    | none =>
      rw [hstr] at h
      cases h
    | some symstr =>
      rw [hstr] at h
      dsimp only at h ⊢
      cases hnames : (if shstrndx = 0 then none else strtab shdr shstrndx) with
      | none =>
        rw [hnames] at h
        cases h
      | some shstr =>
        refine ⟨symtab,symstr,shstr,rfl,hstr,?_,?_⟩
        · split_ifs at hnames with hzero
          exact hnames
        · simp
  · rw [hsym] at h
    cases h

/-- A division by zero is not one of the checks. -/
theorem plan_check (shdr : List Shdr) (shstrndx : ℕ) : (plan shdr shstrndx).2 ≠ some .divideByZero := by
  rw [plan]
  split
  · split
    · simp
    · split <;> simp
  · simp

theorem mem_symtabs {p : Shdr × ℕ} : p ∈ symtabs shdr ↔ shdr[p.2]? = some p.1 ∧ p.1.type = shtSymtab := by
  simp [symtabs,List.mem_filter,List.mem_zipIdx_iff_getElem?]

theorem mem_filter_item {wanted : Shdr → Bool} {q : Item} : q ∈ (shdr.zipIdx.filter fun p => wanted p.1).map item ↔
    ∃ sh, shdr[q.index]? = some sh ∧ wanted sh = true ∧ q = item (sh,q.index) := by
  simp only [List.mem_map,List.mem_filter,Prod.exists,List.mem_zipIdx_iff_getElem?]
  constructor
  · rintro ⟨sh,i,⟨hget,hw⟩,rfl⟩
    exact ⟨sh,hget,hw,rfl⟩
  · rintro ⟨sh,hget,hw,hq⟩
    exact ⟨sh,q.index,⟨hget,hw⟩,hq.symm⟩

/-- What is placed is a section that is loaded, with its size. -/
theorem plan_loaded (h : (plan shdr shstrndx).2 = none) {q : Item} (hq : q ∈ (plan shdr shstrndx).1) :
    ∃ sh, IsLoaded shdr shstrndx q.index sh ∧ q.size = sh.size ∧
      (q.align = sh.addralign ∨ sh.type = shtSymtab ∧ q.align = 1) := by
  obtain ⟨symtab,symstr,shstr,hsym,hstr,hnames,hplan⟩ := plan_accepted h
  have hmem : symtab ∈ symtabs shdr := hsym ▸ List.mem_singleton_self _
  obtain ⟨hget,htype⟩ := mem_symtabs.mp hmem
  obtain ⟨hlink,hindex,-⟩ := strtab_eq_some hstr
  obtain ⟨hndx,hindex',-⟩ := strtab_eq_some hnames
  rw [hplan] at hq
  simp only [List.mem_append,List.mem_cons,List.not_mem_nil,or_false] at hq
  obtain (hq | rfl) | rfl | rfl | rfl | hq := hq
  · obtain ⟨sh,hsh,hw,hqi⟩ := mem_filter_item.mp hq
    rw [hqi]
    exact ⟨sh,⟨hsh,.inl hw⟩,rfl,.inl rfl⟩
  · exact ⟨symtab.1,⟨hget,.inr (.inl htype)⟩,rfl,.inr ⟨htype,rfl⟩⟩
  · exact ⟨symtab.1,⟨hget,.inr (.inl htype)⟩,rfl,.inl rfl⟩
  · refine ⟨symstr.1,⟨?_,.inr (.inr (.inr (.inr ⟨symtab.1,List.mem_of_getElem? hget,htype,hindex.symm⟩)))⟩,rfl,.inl rfl⟩
    rw [item,hindex]
    exact hlink
  · refine ⟨shstr.1,⟨?_,.inr (.inr (.inr (.inl hindex')))⟩,rfl,.inl rfl⟩
    rw [item,hindex']
    exact hndx
  · obtain ⟨sh,hsh,hw,hqi⟩ := mem_filter_item.mp hq
    rw [hqi]
    exact ⟨sh,⟨hsh,.inr (.inr (.inl hw))⟩,rfl,.inl rfl⟩

theorem loaded_planned (h : (plan shdr shstrndx).2 = none) {i : ℕ} {sh : Shdr} (hi : IsLoaded shdr shstrndx i sh) :
    ∃ q ∈ (plan shdr shstrndx).1, q.index = i := by
  obtain ⟨symtab,symstr,shstr,hsym,hstr,hnames,hplan⟩ := plan_accepted h
  obtain ⟨-,hindex,-⟩ := strtab_eq_some hstr
  obtain ⟨-,hindex',-⟩ := strtab_eq_some hnames
  obtain ⟨hget,hwhy⟩ := hi
  rw [hplan]
  simp only [List.mem_append,List.mem_cons,List.not_mem_nil,or_false]
  obtain hw | htype | hw | rfl | ⟨st,hst,htype,hlink⟩ := hwhy
  · exact ⟨item (sh,i),.inl (.inl (mem_filter_item.mpr ⟨sh,hget,hw,rfl⟩)),rfl⟩
  · have hmem : (sh,i) ∈ symtabs shdr := mem_symtabs.mpr ⟨hget,htype⟩
    rw [hsym,List.mem_singleton] at hmem
    exact ⟨item symtab,.inr (.inl rfl),by rw [← hmem]; rfl⟩
  · exact ⟨item (sh,i),.inr (.inr (.inr (.inr (mem_filter_item.mpr ⟨sh,hget,hw,rfl⟩)))),rfl⟩
  · exact ⟨item shstr,.inr (.inr (.inr (.inl rfl))),hindex'⟩
  · obtain ⟨k,hk⟩ := List.getElem?_of_mem hst
    have hmem : (st,k) ∈ symtabs shdr := mem_symtabs.mpr ⟨hk,htype⟩
    rw [hsym,List.mem_singleton] at hmem
    refine ⟨item symstr,.inr (.inr (.inl rfl)),?_⟩
    rw [← hlink]
    exact hindex.trans (congrArg (fun p => p.1.link) hmem.symm)

/-- A section that is loaded is placed last with its own size and alignment. -/
theorem loaded_last (h : (plan shdr shstrndx).2 = none) {i : ℕ} {sh : Shdr} (hi : IsLoaded shdr shstrndx i sh) :
    ∃ ps q qs, Last (plan shdr shstrndx).1 ps q qs ∧ q.index = i ∧ q.size = sh.size ∧ q.align = sh.addralign := by
  obtain ⟨ps,q,qs,hlast,rfl⟩ := exists_last (loaded_planned h hi)
  have hq : q ∈ (plan shdr shstrndx).1 := hlast.1 ▸ List.mem_append_right _ List.mem_cons_self
  obtain ⟨sh',hi',hsize,halign⟩ := plan_loaded h hq
  obtain rfl : sh' = sh := Option.some.inj (hi'.1.symm.trans hi.1)
  refine ⟨ps,q,qs,hlast,rfl,hsize,halign.elim id fun ⟨htype,_⟩ => ?_⟩
  -- the symbol table, which is placed twice
  obtain ⟨symtab,symstr,shstr,hsym,hstr,hnames,hplan⟩ := plan_accepted h
  have hmem : (sh',q.index) ∈ symtabs shdr := mem_symtabs.mpr ⟨hi.1,htype⟩
  rw [hsym,List.mem_singleton] at hmem
  obtain ⟨hlink,hindex,hstrtype⟩ := strtab_eq_some hstr
  obtain ⟨hndx,hindex',hstrtype'⟩ := strtab_eq_some hnames
  have hother : ∀ r ∈ item symstr :: item shstr :: relocations shdr, r.index ≠ (item symtab).index := by
    have hne : ∀ j sh, shdr[j]? = some sh → sh.type ≠ shtSymtab → j ≠ q.index := by
      rintro j sh hj hne rfl
      exact hne (Option.some.inj (hj.symm.trans hi.1) ▸ htype)
    have hsymi : (item symtab).index = q.index := by rw [← hmem]; rfl
    intro r hr
    rw [hsymi]
    simp only [List.mem_cons] at hr
    obtain rfl | rfl | hr := hr
    · exact hne _ _ (hindex ▸ hlink) (by rw [hstrtype]; decide)
    · exact hne _ _ (hindex' ▸ hndx) (by rw [hstrtype']; decide)
    · obtain ⟨sh,hsh,hw,-⟩ := mem_filter_item.mp hr
      refine hne _ _ hsh fun htype => ?_
      simp [isRelocation,htype,shtSymtab,shtRel,shtRela] at hw
  have hlast' : Last (plan shdr shstrndx).1 (contents shdr ++ [unaligned symtab]) (item symtab)
      (item symstr :: item shstr :: relocations shdr) := ⟨hplan,hother⟩
  rw [hlast.unique hlast' (by rw [← hmem]; rfl),← hmem]
  rfl

end Sections

section Main
variable {w extra : ℕ}

theorem objLayout_ok {shdr : List Shdr} {shstrndx off : ℕ} {s : State} (h : objLayout w extra shdr shstrndx off = .ok s) :
    (plan shdr shstrndx).2 = none ∧ placeAll (2^(w+extra)) (2^w) (plan shdr shstrndx).1 ⟨off%2^w,fun _ => 0⟩ = some s := by
  rw [objLayout_eq,planned] at h
  cases hplace : placeAll (2^(w+extra)) (2^w) (plan shdr shstrndx).1 ⟨off%2^w,fun _ => 0⟩ with
  | none => rw [hplace] at h; cases h
  | some s' =>
    rw [hplace] at h
    cases hplan : (plan shdr shstrndx).2 with
    | none =>
      rw [hplan] at h
      obtain rfl := Except.ok.inj h
      exact ⟨rfl,rfl⟩
    | some e => rw [hplan] at h; cases h

theorem LayoutFits.right {shdr : List Shdr} {shstrndx off : ℕ} (h : LayoutFits w extra shdr shstrndx off) :
    LayoutRight w extra shdr shstrndx off := by
  refine ⟨?_,?_,?_,?_⟩
  · intro hdiv
    rw [objLayout_eq,planned] at hdiv
    cases hplace : placeAll (2^(w+extra)) (2^w) (plan shdr shstrndx).1 ⟨off%2^w,fun _ => 0⟩ with
    | none =>
      obtain ⟨p,hp,hzero⟩ := placeAll_none_iff.mp hplace
      exact h.align p hp hzero
    | some s =>
      rw [hplace] at hdiv
      cases hplan : (plan shdr shstrndx).2 with
      | none =>
        rw [hplan] at hdiv
        cases hdiv
      | some e =>
        rw [hplan] at hdiv
        exact plan_check shdr shstrndx (hplan.trans (congrArg some (Except.error.inj hdiv)))
  · intro s hs i sh hi _
    obtain ⟨hplan,hplace⟩ := objLayout_ok hs
    obtain ⟨ps,q,qs,hlast,rfl,-,halign⟩ := loaded_last hplan hi
    rw [← halign]
    exact (inside_of_fits hplace (h.room hplan) hlast).2.2
  · intro s hs i sh hi
    obtain ⟨hplan,hplace⟩ := objLayout_ok hs
    obtain ⟨ps,q,qs,hlast,rfl,hsize,-⟩ := loaded_last hplan hi
    obtain ⟨hge,hle,-⟩ := inside_of_fits hplace (h.room hplan) hlast
    exact ⟨hge,hsize ▸ hle⟩
  · intro s hs i sh j sh' hi hj hne
    obtain ⟨hplan,hplace⟩ := objLayout_ok hs
    obtain ⟨ps,q,qs,hlast,rfl,hsize,-⟩ := loaded_last hplan hi
    obtain ⟨ps',q',qs',hlast',rfl,hsize',-⟩ := loaded_last hplan hj
    rw [← hsize,← hsize']
    exact apart_of_fits hplace (h.room hplan) hlast hlast' hne

/-- Nonzero alignments and room for all sections are enough for a right layout, and, from an address other than 0, all that
can take their place is a placement over the top that is given up again. -/
theorem objLayout_right (w extra : ℕ) (shdr : List Shdr) (shstrndx off : ℕ) :
    (LayoutFits w extra shdr shstrndx off → LayoutRight w extra shdr shstrndx off) ∧
    (LayoutRight w extra shdr shstrndx off → off%2^w ≠ 0 →
      LayoutFits w extra shdr shstrndx off ∨ Dead (2^(w+extra)) (2^w) (off%2^w) (plan shdr shstrndx).1) := by
  refine ⟨LayoutFits.right,fun hr hoff => ?_⟩
  have hdiv : placeAll (2^(w+extra)) (2^w) (plan shdr shstrndx).1 ⟨off%2^w,fun _ => 0⟩ ≠ none := by
    intro hnone
    refine hr.noFault ?_
    rw [objLayout_eq,planned,hnone]
  have halign : ∀ p ∈ (plan shdr shstrndx).1, p.align ≠ 0 := fun p hp hzero => hdiv (placeAll_none_iff.mpr ⟨p,hp,hzero⟩)
  by_cases hdead : Dead (2^(w+extra)) (2^w) (off%2^w) (plan shdr shstrndx).1
  · exact .inr hdead
  refine .inl ⟨halign,fun hplan => ?_⟩
  obtain ⟨s,hs⟩ := Option.ne_none_iff_exists'.mp hdiv
  have hok : objLayout w extra shdr shstrndx off = .ok s := by rw [objLayout_eq,planned,hs,hplan]
  refine fits_of_inside hs (Nat.pow_le_pow_right (by omega) (by omega)) (Nat.mod_lt _ (Nat.two_pow_pos w)) hoff
    (fun ps q qs hlast => ?_) hdead
  have hq : q ∈ (plan shdr shstrndx).1 := hlast.1 ▸ List.mem_append_right _ List.mem_cons_self
  obtain ⟨sh,hi,hsize,hqalign⟩ := plan_loaded hplan hq
  refine ⟨?_,hsize ▸ hr.inside s hok q.index sh hi⟩
  obtain heq | ⟨-,hone⟩ := hqalign
  · rw [heq]
    exact hr.aligned s hok q.index sh hi (heq ▸ halign q hq)
  · rw [hone]
    exact one_dvd _

/-- A section of one page, with its symbols and their names, from 2 MB on. -/
theorem objLayout_right_page : LayoutRight 32 32 [⟨shtProgbits,0x1000,16,0⟩,⟨shtSymtab,24,8,2⟩,⟨shtStrtab,1,1,0⟩] 2 0x200000 :=
  (objLayout_right 32 32 [⟨shtProgbits,0x1000,16,0⟩,⟨shtSymtab,24,8,2⟩,⟨shtStrtab,1,1,0⟩] 2 0x200000).1
    ⟨by decide,fun _ => ⟨⟨by decide,by decide⟩,⟨by decide,by decide⟩,⟨by decide,by decide⟩,⟨by decide,by decide⟩,
      ⟨by decide,by decide⟩,trivial⟩⟩

/-- A section without alignment is divided by, and sections that go over the top are placed before the first address. -/
theorem objLayout_not_right :
    ¬LayoutRight 32 32 [⟨shtProgbits,1,0,0⟩] 0 0x200000 ∧
    ¬LayoutRight 32 32 [⟨shtProgbits,0xfff00000,1,0⟩,⟨shtSymtab,24,8,2⟩,⟨shtStrtab,1,1,0⟩] 2 0x200000 := by
  refine ⟨fun h => h.noFault rfl,fun h => ?_⟩
  have hloaded : IsLoaded [⟨shtProgbits,0xfff00000,1,0⟩,⟨shtSymtab,24,8,2⟩,⟨shtStrtab,1,1,0⟩] 2 1 ⟨shtSymtab,24,8,2⟩ :=
    ⟨rfl,.inr (.inl rfl)⟩
  have hlow := (h.inside _ rfl 1 _ hloaded).1
  exact absurd hlow (by decide)

end Main

end Blub.Boot.Elf
