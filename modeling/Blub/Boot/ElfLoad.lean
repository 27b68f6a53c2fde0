import Blub.Lib.Bytes
import Blub.Lib.Scan

/-! The segments of an ELF file and how the segment loop of `loadimage` in `load_elf.c` puts them into memory. -/
namespace Blub.Boot.Elf
open Blub.Bytes Blub.Scan

structure Phdr where
  type : ℕ
  offset : ℕ
  vaddr : ℕ
  filesz : ℕ
  memsz : ℕ

def ptLoad : ℕ := 1
def pageSize : ℕ := 4096

/-- Memory, and what `loadimage` keeps of the ends. -/
structure LoadState where
  mem : ℕ → UInt8
  firstaddr : ℕ
  lastaddr : ℕ

structure BzeroState where
  resid : ℕ
  dest : ℕ
  mem : ℕ → UInt8

section Code
variable (w : ℕ)

/-- A turn of `kern_bzero`: `min` is of `u_int`. -/
def kernBzeroTurn (s : BzeroState) : Option ((ℕ → UInt8) ⊕ BzeroState) :=
  if s.resid = 0 then some (.inl s.mem)
  else
    let chunk := min 256 (s.resid%2^32)
    some (.inr ⟨s.resid-chunk,(s.dest+chunk)%2^w,blit s.mem s.dest chunk fun _ => 0⟩)

/-- `kern_bzero`, for at most `fuel` turns of its loop. -/
def kernBzero (fuel dest len : ℕ) (mem : ℕ → UInt8) : Option (ℕ → UInt8) := loop (kernBzeroTurn w) fuel ⟨len,dest,mem⟩

/-- `kern_pread`, where the file can be read. -/
def kernPread (file : List UInt8) (dest len off : ℕ) (mem : ℕ → UInt8) : Option (ℕ → UInt8) :=
  if off+len ≤ file.length then some (blit mem dest len fun j => file.getD (off+j) 0) else none

/-- `off`, from the address to load at: a kernel is loaded below its addresses. -/
def loadOffset (wordSize : ℕ) (kernel : Bool) (off : ℕ) : ℕ :=
  if kernel then (2^64-(off%2^wordSize)/2^24*2^24)%2^64 else off

/-- Where a segment is loaded. -/
def segmentAddr (off : ℕ) (ph : Phdr) : ℕ := (ph.vaddr+off)%2^64

/-- One segment: no result while `kern_bzero` runs, and no state after a read that failed. -/
def loadSegment (file : List UInt8) (off fuel : ℕ) (ph : Phdr) (s : LoadState) : Option (Option LoadState) :=
  let firstlen := min pageSize file.length
  let addr := segmentAddr off ph
  -- what the first page has behind the offset, however short the segment is
  let fpcopy := firstlen-ph.offset
  let mem := blit s.mem (addr%2^w) fpcopy fun j => file.getD (ph.offset+j) 0
  let read := if fpcopy < ph.filesz then
    kernPread file ((addr+fpcopy)%2^w) ((ph.filesz-fpcopy)%2^w) (ph.offset+fpcopy) mem else some mem
  match read with
  | none => some none
  | some mem =>
    match (if ph.filesz < ph.memsz then kernBzero w fuel ((addr+ph.filesz)%2^w) ((ph.memsz-ph.filesz)%2^w) mem
      else some mem) with
    | none => none
    | some mem => some (some ⟨mem,
        if s.firstaddr = 0 ∨ addr < s.firstaddr then addr%2^w else s.firstaddr,
        if s.lastaddr = 0 ∨ s.lastaddr < (addr+ph.memsz)%2^64 then (addr+ph.memsz)%2^w else s.lastaddr⟩)

/-- The segment loop. -/
def loadSegments (file : List UInt8) (off fuel : ℕ) : List Phdr → LoadState → Option (Option LoadState)
  | [], s => some (some s)
  | ph :: l, s =>
    if ph.type ≠ ptLoad then loadSegments file off fuel l s
    else
      match loadSegment w file off fuel ph s with
      | none => none
      | some none => some none
      | some (some s) => loadSegments file off fuel l s

def loads (phdr : List Phdr) : List Phdr := phdr.filter (·.type = ptLoad)

attribute [local grind =] loadSegment loadSegments

end Code

section Spec
variable (w : ℕ) (file : List UInt8) (off : ℕ)

/-- The bytes of the segment are those of the file, and zero behind them. -/
structure Loaded (ph : Phdr) (mem : ℕ → UInt8) : Prop where
  bytes : ∀ j < ph.filesz, mem (segmentAddr off ph+j) = file.getD (ph.offset+j) 0
  zero : ∀ j, ph.filesz ≤ j → j < ph.memsz → mem (segmentAddr off ph+j) = 0

/-- A segment inside the file and the address space. -/
structure SegmentFits (ph : Phdr) : Prop where
  filesz : ph.filesz ≤ ph.memsz
  file : ph.offset+ph.filesz ≤ file.length
  top : segmentAddr off ph+ph.memsz < 2^w

/-- Segments in ascending order. -/
structure Loadable (phdr : List Phdr) : Prop where
  fits : ∀ ph ∈ loads phdr, SegmentFits w file off ph
  ordered : (loads phdr).Pairwise fun a b => segmentAddr off a+a.memsz ≤ segmentAddr off b

/-- A value of `f` below all others. -/
def IsLowest {α : Type*} (l : List α) (f : α → ℕ) (v : ℕ) : Prop := l ≠ [] → (∃ x ∈ l, f x = v) ∧ ∀ x ∈ l, v ≤ f x

def IsHighest {α : Type*} (l : List α) (f : α → ℕ) (v : ℕ) : Prop := l ≠ [] → (∃ x ∈ l, f x = v) ∧ ∀ x ∈ l, f x ≤ v

structure ImageRight (phdr : List Phdr) (s : LoadState) : Prop where
  loaded : ∀ ph ∈ loads phdr, Loaded file off ph s.mem
  first : IsLowest (loads phdr) (segmentAddr off) s.firstaddr
  last : IsHighest (loads phdr) (fun ph => segmentAddr off ph+ph.memsz) s.lastaddr

end Spec

section Bzero
variable {w : ℕ}

/-- Less than 4 GB are cleared. -/
theorem kernBzero_eq {fuel len : ℕ} (hfuel : len < fuel) (hlen : len < 2^32) {dest : ℕ} (hdest : dest+len < 2^w)
    (mem : ℕ → UInt8) : kernBzero w fuel dest len mem = some (blit mem dest len fun _ => 0) := by
  induction fuel generalizing len dest mem with
  | zero => omega
  | succ fuel ih =>
    rw [kernBzero]
    by_cases hzero : len = 0
    · have hturn : kernBzeroTurn w ⟨len,dest,mem⟩ = some (.inl mem) := if_pos hzero
      rw [loop_end hturn,hzero]
      congr 1
      funext a
      rw [blit_outside (by omega)]
    · have hchunk : min 256 (len%2^32) = min 256 len := by rw [Nat.mod_eq_of_lt hlen]
      have hturn : kernBzeroTurn w ⟨len,dest,mem⟩ =
          some (.inr ⟨len-min 256 len,dest+min 256 len,blit mem dest (min 256 len) fun _ => 0⟩) := by
        rw [kernBzeroTurn,if_neg hzero]
        simp only [hchunk]
        rw [Nat.mod_eq_of_lt (by omega)]
      have hrest := ih (show len-min 256 len < fuel by omega) (by omega) (show dest+min 256 len+(len-min 256 len) < 2^w by omega)
        (blit mem dest (min 256 len) fun _ => 0)
      rw [loop_next hturn,← kernBzero,hrest,blit_append fun _ _ => rfl]
      congr 2
      omega

/-- From 4 GB on a multiple of 4 GB is left, and nothing of it is taken away. -/
theorem kernBzero_never (fuel : ℕ) {len : ℕ} (hlen : 2^32 ≤ len) (dest : ℕ) (mem : ℕ → UInt8) :
    kernBzero w fuel dest len mem = none := by
  induction fuel generalizing len dest mem with
  | zero => rfl
  | succ fuel ih =>
    have hturn : kernBzeroTurn w ⟨len,dest,mem⟩ = some (.inr ⟨len-min 256 (len%2^32),(dest+min 256 (len%2^32))%2^w,
        blit mem dest (min 256 (len%2^32)) fun _ => 0⟩) := by
      rw [kernBzeroTurn,if_neg (by simp only; omega)]
    rw [kernBzero,loop_next hturn]
    exact ih (by omega) _ _

end Bzero

section Segment
variable {w : ℕ} {file : List UInt8} {off : ℕ} {ph : Phdr}

theorem loadSegment_eq (hw : w ≤ 64) (hfits : SegmentFits w file off ph) (fuel : ℕ) (s : LoadState) :
    ∃ mem, (∀ a < segmentAddr off ph, mem a = s.mem a) ∧
      (∀ j < ph.filesz, mem (segmentAddr off ph+j) = file.getD (ph.offset+j) 0) ∧
      loadSegment w file off fuel ph s =
        match (if ph.filesz < ph.memsz then kernBzero w fuel (segmentAddr off ph+ph.filesz) (ph.memsz-ph.filesz) mem
          else some mem) with
        | none => none
        | some mem => some (some ⟨mem,
            if s.firstaddr = 0 ∨ segmentAddr off ph < s.firstaddr then segmentAddr off ph else s.firstaddr,
            max s.lastaddr (segmentAddr off ph+ph.memsz)⟩) := by
  obtain ⟨hsz,hfile,htop⟩ := hfits
  have h64 : 2^w ≤ 2^64 := Nat.pow_le_pow_right (by decide) hw
  have hmod : ∀ x ≤ ph.memsz, (segmentAddr off ph+x)%2^w = segmentAddr off ph+x := fun x hx => Nat.mod_eq_of_lt (by omega)
  have hlast : (if s.lastaddr = 0 ∨ s.lastaddr < (segmentAddr off ph+ph.memsz)%2^64 then (segmentAddr off ph+ph.memsz)%2^w
      else s.lastaddr) = max s.lastaddr (segmentAddr off ph+ph.memsz) := by
    rw [hmod _ le_rfl,Nat.mod_eq_of_lt (lt_of_lt_of_le htop h64)]
    split_ifs <;> omega
  obtain ⟨f,hf⟩ : ∃ f, f = min pageSize file.length-ph.offset := ⟨_,rfl⟩
  obtain ⟨mem₁,hmem₁⟩ : ∃ mem₁, mem₁ = blit s.mem (segmentAddr off ph) f fun j => file.getD (ph.offset+j) 0 := ⟨_,rfl⟩
  have hbelow : ∀ a < segmentAddr off ph, mem₁ a = s.mem a := by
    intro a ha
    rw [hmem₁,blit_outside (.inl ha)]
  have hfirst : ∀ j < f, mem₁ (segmentAddr off ph+j) = file.getD (ph.offset+j) 0 := by
    intro j hj
    rw [hmem₁,blit_inside (Nat.le_add_right _ _) (by omega),Nat.add_sub_cancel_left]
  have hzero := hmod 0 (Nat.zero_le _)
  rw [Nat.add_zero] at hzero
  by_cases hread : f < ph.filesz
  · refine ⟨blit mem₁ (segmentAddr off ph+f) (ph.filesz-f) fun j => file.getD (ph.offset+f+j) 0,?_,?_,?_⟩
    · intro a ha
      rw [blit_outside (by omega),hbelow a ha]
    · intro j hj
      by_cases hjf : j < f
      · rw [blit_outside (by omega),hfirst j hjf]
      · rw [blit_inside (by omega) (by omega)]
        congr 1
        omega
    · have hlen : (ph.filesz-f)%2^w = ph.filesz-f := Nat.mod_eq_of_lt (by omega)
      have hbss : (ph.memsz-ph.filesz)%2^w = ph.memsz-ph.filesz := Nat.mod_eq_of_lt (by omega)
      simp only [loadSegment,← hf,hzero,← hmem₁,if_pos hread,hmod f (by omega),hlen,hmod _ hsz,hbss,hlast]
      rw [kernPread,if_pos (by omega)]
  · refine ⟨mem₁,hbelow,fun j hj => hfirst j (by omega),?_⟩
    have hbss : (ph.memsz-ph.filesz)%2^w = ph.memsz-ph.filesz := Nat.mod_eq_of_lt (by omega)
    simp only [loadSegment,← hf,hzero,← hmem₁,if_neg hread,hmod _ hsz,hbss,hlast]

/-- What a segment whose end can be cleared leaves. -/
theorem loadSegment_loads (hw : w ≤ 64) (hfits : SegmentFits w file off ph) (hbss : ph.memsz-ph.filesz < 2^32) {fuel : ℕ}
    (hfuel : 2^32 ≤ fuel) (s : LoadState) : ∃ mem, (∀ a < segmentAddr off ph, mem a = s.mem a) ∧ Loaded file off ph mem ∧
      loadSegment w file off fuel ph s = some (some ⟨mem,
        if s.firstaddr = 0 ∨ segmentAddr off ph < s.firstaddr then segmentAddr off ph else s.firstaddr,
        max s.lastaddr (segmentAddr off ph+ph.memsz)⟩) := by
  obtain ⟨mem,hbelow,hbytes,heq⟩ := loadSegment_eq hw hfits fuel s
  by_cases hclear : ph.filesz < ph.memsz
  · have htop := hfits.top
    rw [if_pos hclear,kernBzero_eq (by omega) hbss (by omega)] at heq
    refine ⟨_,?_,⟨?_,?_⟩,heq⟩
    · intro a ha
      rw [blit_outside (by omega),hbelow a ha]
    · intro j hj
      rw [blit_outside (by omega),hbytes j hj]
    · intro j hj hjm
      rw [blit_inside (by omega) (by omega)]
  · rw [if_neg hclear] at heq
    exact ⟨mem,hbelow,⟨hbytes,fun j hj hjm => absurd (hj.trans_lt hjm) hclear⟩,heq⟩

theorem loadSegment_some (hw : w ≤ 64) (hfits : SegmentFits w file off ph) {fuel : ℕ} {s s' : LoadState}
    (h : loadSegment w file off fuel ph s = some (some s')) : ph.memsz-ph.filesz < 2^32 ∧
      s'.firstaddr = if s.firstaddr = 0 ∨ segmentAddr off ph < s.firstaddr then segmentAddr off ph else s.firstaddr := by
  obtain ⟨mem,-,-,heq⟩ := loadSegment_eq hw hfits fuel s
  rw [h] at heq
  by_cases hclear : ph.filesz < ph.memsz
  · rw [if_pos hclear] at heq
    constructor
    · by_contra hlong
      rw [kernBzero_never fuel (not_lt.mp hlong)] at heq
      cases heq
    · split at heq
      · cases heq
      · obtain rfl := Option.some.inj (Option.some.inj heq)
        rfl
  · rw [if_neg hclear] at heq
    obtain rfl := Option.some.inj (Option.some.inj heq)
    exact ⟨by omega,rfl⟩

end Segment

section Ends

/-- `firstaddr` after the addresses: 0 stands for none so far. -/
def firstOf : ℕ → List ℕ → ℕ
  | first, [] => first
  | first, a :: l => firstOf (if first = 0 ∨ a < first then a else first) l

attribute [local grind =] firstOf

theorem firstOf_le {first : ℕ} (hne : first ≠ 0) {l : List ℕ} (hl : ∀ a ∈ l, first ≤ a) : firstOf first l = first := by
  induction l with
  | nil => rfl
  | cons a l ih =>
    have ha := hl a List.mem_cons_self
    rw [firstOf,if_neg (by omega)]
    exact ih fun b hb => hl b (List.mem_cons_of_mem _ hb)

/-- The first address that is not 0. -/
theorem firstOf_zero {l : List ℕ} (hl : l.Pairwise (· ≤ ·)) : (firstOf 0 l = 0 ∧ ∀ a ∈ l, a = 0) ∨
    (firstOf 0 l ≠ 0 ∧ firstOf 0 l ∈ l ∧ ∀ a ∈ l, a ≠ 0 → firstOf 0 l ≤ a) := by
  induction l with
  | nil => exact .inl ⟨rfl,by simp⟩
  | cons a l ih =>
    obtain ⟨hle,hl⟩ := List.pairwise_cons.mp hl
    rw [firstOf,if_pos (.inl rfl)]
    by_cases ha : a = 0
    · rw [ha]
      obtain ⟨hzero,hall⟩ | ⟨hne,hmem,hall⟩ := ih hl
      · exact .inl ⟨hzero,by simpa using hall⟩
      · refine .inr ⟨hne,List.mem_cons_of_mem _ hmem,?_⟩
        intro b hb hbne
        obtain rfl | hb := List.mem_cons.mp hb
        · exact absurd rfl hbne
        · exact hall b hb hbne
    · rw [firstOf_le ha hle]
      refine .inr ⟨ha,List.mem_cons_self,?_⟩
      intro b hb _
      obtain rfl | hb := List.mem_cons.mp hb
      · exact le_rfl
      · exact hle b hb

theorem isLowest_firstOf_iff {α : Type*} {l : List α} {f : α → ℕ} (hl : (l.map f).Pairwise (· ≤ ·)) :
    IsLowest l f (firstOf 0 (l.map f)) ↔ (∀ x ∈ l, f x ≠ 0) ∨ ∀ x ∈ l, f x = 0 := by
  obtain ⟨hzero,hall⟩ | ⟨hne,hmem,hall⟩ := firstOf_zero hl
  · rw [List.forall_mem_map] at hall
    refine iff_of_true (fun hnil => ?_) (.inr hall)
    obtain ⟨x,l',rfl⟩ := List.exists_cons_of_ne_nil hnil
    exact ⟨⟨x,List.mem_cons_self,by rw [hzero,hall x List.mem_cons_self]⟩,fun y _ => by rw [hzero]; exact Nat.zero_le _⟩
  · obtain ⟨x,hx,hfx⟩ := List.mem_map.mp hmem
    rw [List.forall_mem_map] at hall
    constructor
    · intro hlow
      refine .inl fun y hy hzero => hne ?_
      have hle := (hlow (List.ne_nil_of_mem hx)).2 y hy
      omega
    · rintro (hnz | hz)
      · exact fun _ => ⟨⟨x,hx,hfx⟩,fun y hy => hall y hy (hnz y hy)⟩
      · exact absurd (hfx ▸ hz x hx) hne

theorem foldl_max_spec {α : Type*} (f : α → ℕ) (l : List α) (m : ℕ) :
    m ≤ l.foldl (fun m x => max m (f x)) m ∧ (∀ x ∈ l, f x ≤ l.foldl (fun m x => max m (f x)) m) ∧
      (l.foldl (fun m x => max m (f x)) m = m ∨ ∃ x ∈ l, f x = l.foldl (fun m x => max m (f x)) m) := by
  induction l generalizing m with
  | nil => simp
  | cons a l ih =>
    obtain ⟨hm,hall,hex⟩ := ih (max m (f a))
    rw [List.foldl_cons]
    refine ⟨(le_max_left _ _).trans hm,?_,?_⟩
    · intro x hx
      obtain rfl | hx := List.mem_cons.mp hx
      · exact (le_max_right _ _).trans hm
      · exact hall x hx
    · obtain heq | ⟨x,hx,heq⟩ := hex
      · rw [heq]
        obtain hle | hle := le_total m (f a)
        · exact .inr ⟨a,List.mem_cons_self,(max_eq_right hle).symm⟩
        · exact .inl (max_eq_left hle)
      · exact .inr ⟨x,List.mem_cons_of_mem _ hx,heq⟩

theorem isHighest_foldl_max {α : Type*} (f : α → ℕ) (l : List α) : IsHighest l f (l.foldl (fun m x => max m (f x)) 0) := by
  intro hnil
  obtain ⟨-,hall,heq | ⟨x,hx,heq⟩⟩ := foldl_max_spec f l 0
  · obtain ⟨x,l',rfl⟩ := List.exists_cons_of_ne_nil hnil
    have hx := hall x List.mem_cons_self
    exact ⟨⟨x,List.mem_cons_self,by omega⟩,hall⟩
  · exact ⟨⟨x,hx,heq⟩,hall⟩

end Ends

section Image
variable {w : ℕ} {file : List UInt8} {off : ℕ}

theorem loads_cons_skip {ph : Phdr} (h : ph.type ≠ ptLoad) (l : List Phdr) : loads (ph :: l) = loads l :=
  List.filter_cons_of_neg (by simpa using h)

theorem loads_cons_load {ph : Phdr} (h : ph.type = ptLoad) (l : List Phdr) : loads (ph :: l) = ph :: loads l :=
  List.filter_cons_of_pos (by simpa using h)

theorem Loadable.tail {ph : Phdr} {l : List Phdr} (h : Loadable w file off (ph :: l)) : Loadable w file off l := by
  by_cases htype : ph.type = ptLoad
  · obtain ⟨hfits,hord⟩ := h
    rw [loads_cons_load htype] at hfits hord
    exact ⟨fun q hq => hfits q (List.mem_cons_of_mem _ hq),(List.pairwise_cons.mp hord).2⟩
  · obtain ⟨hfits,hord⟩ := h
    rw [loads_cons_skip htype] at hfits hord
    exact ⟨hfits,hord⟩

theorem Loadable.head {ph : Phdr} {l : List Phdr} (h : Loadable w file off (ph :: l)) (htype : ph.type = ptLoad) :
    SegmentFits w file off ph ∧ ∀ q ∈ loads l, segmentAddr off ph+ph.memsz ≤ segmentAddr off q := by
  obtain ⟨hfits,hord⟩ := h
  rw [loads_cons_load htype] at hfits hord
  exact ⟨hfits ph List.mem_cons_self,(List.pairwise_cons.mp hord).1⟩

/-- Writing behind a segment leaves it alone. -/
theorem Loaded.keep {ph : Phdr} {mem mem' : ℕ → UInt8} (h : Loaded file off ph mem) (hfilesz : ph.filesz ≤ ph.memsz)
    (hmem : ∀ a < segmentAddr off ph+ph.memsz, mem' a = mem a) : Loaded file off ph mem' :=
  ⟨fun j hj => (hmem _ (by omega)).trans (h.bytes j hj),fun j hj hjm => (hmem _ (by omega)).trans (h.zero j hj hjm)⟩

theorem loadSegments_loads (hw : w ≤ 64) {fuel : ℕ} (hfuel : 2^32 ≤ fuel) {phdr : List Phdr}
    (hl : Loadable w file off phdr) (hbss : ∀ ph ∈ loads phdr, ph.memsz-ph.filesz < 2^32) (s : LoadState) :
    ∃ s', loadSegments w file off fuel phdr s = some (some s') ∧
      (∀ a, (∀ ph ∈ loads phdr, a < segmentAddr off ph) → s'.mem a = s.mem a) ∧
      (∀ ph ∈ loads phdr, Loaded file off ph s'.mem) ∧
      s'.firstaddr = firstOf s.firstaddr ((loads phdr).map (segmentAddr off)) ∧
      s'.lastaddr = (loads phdr).foldl (fun m ph => max m (segmentAddr off ph+ph.memsz)) s.lastaddr := by
  induction phdr generalizing s with
  | nil => exact ⟨s,rfl,fun _ _ => rfl,by simp [loads],rfl,rfl⟩
  | cons ph phdr ih =>
    rw [loadSegments]
    by_cases htype : ph.type = ptLoad
    · obtain ⟨hfits,hbehind⟩ := hl.head htype
      rw [loads_cons_load htype] at hbss ⊢
      obtain ⟨mem,hbelow,hloaded,hseg⟩ := loadSegment_loads hw hfits (hbss ph List.mem_cons_self) hfuel s
      obtain ⟨s',hrun,hbelow',hloaded',hfirst,hlast⟩ := ih hl.tail (fun q hq => hbss q (List.mem_cons_of_mem _ hq)) ⟨mem,
        if s.firstaddr = 0 ∨ segmentAddr off ph < s.firstaddr then segmentAddr off ph else s.firstaddr,
        max s.lastaddr (segmentAddr off ph+ph.memsz)⟩
      refine ⟨s',?_,?_,?_,hfirst,hlast⟩
      · rw [if_neg (not_not.mpr htype),hseg]
        exact hrun
      · intro a ha
        rw [hbelow' a fun q hq => ha q (List.mem_cons_of_mem _ hq)]
        exact hbelow a (ha ph List.mem_cons_self)
      · intro q hq
        obtain rfl | hq := List.mem_cons.mp hq
        · exact hloaded.keep hfits.filesz fun a ha => hbelow' a fun q' hq' => lt_of_lt_of_le ha (hbehind q' hq')
        · exact hloaded' q hq
    · rw [loads_cons_skip htype] at hbss ⊢
      rw [if_pos htype]
      exact ih hl.tail hbss s

theorem loadSegments_some (hw : w ≤ 64) {fuel : ℕ} {phdr : List Phdr} (hl : Loadable w file off phdr) {s s' : LoadState}
    (h : loadSegments w file off fuel phdr s = some (some s')) : (∀ ph ∈ loads phdr, ph.memsz-ph.filesz < 2^32) ∧
      s'.firstaddr = firstOf s.firstaddr ((loads phdr).map (segmentAddr off)) := by
  induction phdr generalizing s with
  | nil =>
    obtain rfl := Option.some.inj (Option.some.inj h)
    exact ⟨by simp [loads],rfl⟩
  | cons ph phdr ih =>
    rw [loadSegments] at h
    by_cases htype : ph.type = ptLoad
    · rw [if_neg (not_not.mpr htype)] at h
      rw [loads_cons_load htype]
      cases hseg : loadSegment w file off fuel ph s with
      | none => rw [hseg] at h; cases h
      | some out =>
        cases out with
        | none => rw [hseg] at h; cases h
        | some s₁ =>
          rw [hseg] at h
          obtain ⟨hbss,hfirst⟩ := loadSegment_some hw (hl.head htype).1 hseg
          obtain ⟨hbss',hfirst'⟩ := ih hl.tail h
          refine ⟨?_,by rw [hfirst',hfirst]; rfl⟩
          intro q hq
          obtain rfl | hq := List.mem_cons.mp hq
          · exact hbss
          · exact hbss' q hq
    · rw [if_pos htype] at h
      rw [loads_cons_skip htype]
      exact ih hl.tail h

theorem Loadable.addrs {phdr : List Phdr} (h : Loadable w file off phdr) :
    ((loads phdr).map (segmentAddr off)).Pairwise (· ≤ ·) := by
  rw [List.pairwise_map]
  exact h.ordered.imp fun {a b} hab => (Nat.le_add_right _ a.memsz).trans hab

/-- The segment loop of `loadimage`, at the address that the file is to be loaded at. -/
def loadimageSegments (w wordSize : ℕ) (kernel : Bool) (dest : ℕ) (file : List UInt8) (phdr : List Phdr) (mem : ℕ → UInt8)
    (fuel : ℕ) : Option (Option LoadState) :=
  loadSegments w file (loadOffset wordSize kernel dest) fuel phdr ⟨mem,0,0⟩

/-- The segments are loaded right exactly when none starts at 0 or all do, and none has 4 GB or more to be cleared. -/
theorem loadimage_right_iff (hw : w ≤ 64) (wordSize : ℕ) (kernel : Bool) (dest : ℕ) {phdr : List Phdr}
    (hl : Loadable w file (loadOffset wordSize kernel dest) phdr) (mem : ℕ → UInt8) :
    (∃ fuel s, loadimageSegments w wordSize kernel dest file phdr mem fuel = some (some s) ∧
      ImageRight file (loadOffset wordSize kernel dest) phdr s) ↔
    ((∀ ph ∈ loads phdr, segmentAddr (loadOffset wordSize kernel dest) ph ≠ 0) ∨
      ∀ ph ∈ loads phdr, segmentAddr (loadOffset wordSize kernel dest) ph = 0) ∧
    ∀ ph ∈ loads phdr, ph.memsz-ph.filesz < 2^32 := by
  rw [← isLowest_firstOf_iff hl.addrs]
  constructor
  · rintro ⟨fuel,s,hrun,hright⟩
    obtain ⟨hbss,hfirst⟩ := loadSegments_some hw hl hrun
    have hlow := hright.first
    rw [hfirst] at hlow
    exact ⟨hlow,hbss⟩
  · rintro ⟨hlow,hbss⟩
    obtain ⟨s',hrun,-,hloaded,hfirst,hlast⟩ := loadSegments_loads hw le_rfl hl hbss ⟨mem,0,0⟩
    refine ⟨2^32,s',hrun,hloaded,?_,?_⟩
    · rw [hfirst]
      exact hlow
    · rw [hlast]
      exact isHighest_foldl_max _ _

end Image

/-- A kernel file: the ELF header, two program headers, and behind them the four bytes of each segment. -/
def kernelFile (first second : ℕ) : List UInt8 :=
  (List.range 184).map <|
    [(0,4,0x464c457f),(4,3,0x010102),(16,2,2),(18,2,62),(20,4,1),(24,8,0xffffffff80200000),(32,8,64),(52,2,64),(54,2,56),(56,2,2),
      (64,4,ptLoad),(72,8,176),(80,8,first),(96,8,4),(104,8,4),
      (120,4,ptLoad),(128,8,180),(136,8,second),(152,8,4),(160,8,4),
      (176,8,0x0807060504030201)].foldl (fun b f => lePut b f.1 f.2.1 f.2.2) fun _ => 0

def kernelPhdr (first second : ℕ) : List Phdr := [⟨ptLoad,176,first,4,4⟩,⟨ptLoad,180,second,4,4⟩]

/-- Where its segments go: the kernel is linked for 0xffffffff80000000 and the addresses from there on. -/
def kernelOffset : ℕ := loadOffset 64 true 0xffffffff80200000

theorem kernel_loadable {first second : ℕ} (hfirst : (first+kernelOffset)%2^64+4 ≤ (second+kernelOffset)%2^64)
    (hsecond : (second+kernelOffset)%2^64+4 < 2^64) :
    Loadable 64 (kernelFile first second) kernelOffset (kernelPhdr first second) := by
  have hlen : (kernelFile first second).length = 184 := by rw [kernelFile,List.length_map,List.length_range]
  have hloads : loads (kernelPhdr first second) = kernelPhdr first second := rfl
  refine ⟨fun ph hph => ?_,?_⟩
  · rw [hloads] at hph
    have hmem : ph = ⟨ptLoad,176,first,4,4⟩ ∨ ph = ⟨ptLoad,180,second,4,4⟩ := by simpa [kernelPhdr] using hph
    obtain rfl | rfl := hmem
    · exact ⟨le_rfl,by rw [hlen]; dsimp only; omega,by unfold segmentAddr; dsimp only; omega⟩
    · exact ⟨le_rfl,by rw [hlen]; dsimp only; omega,by unfold segmentAddr; dsimp only; omega⟩
  · rw [hloads]
    exact List.pairwise_pair.mpr hfirst

/-- A kernel with its segments at 2 MB and at 4 MB. -/
theorem loadimage_right_kernel : ∃ fuel s, loadimageSegments 64 64 true 0xffffffff80200000
      (kernelFile 0xffffffff80200000 0xffffffff80400000) (kernelPhdr 0xffffffff80200000 0xffffffff80400000) (fun _ => 0) fuel =
        some (some s) ∧
    ImageRight (kernelFile 0xffffffff80200000 0xffffffff80400000) kernelOffset
      (kernelPhdr 0xffffffff80200000 0xffffffff80400000) s :=
  (loadimage_right_iff le_rfl 64 true 0xffffffff80200000 (kernel_loadable (by decide) (by decide)) fun _ => 0).mpr
    (by decide)

/-- The first segment is at 0, and `firstaddr` is the address of the second. -/
theorem loadimage_loses_first :
    Loadable 64 (kernelFile 0xffffffff80000000 0xffffffff80200000) kernelOffset
      (kernelPhdr 0xffffffff80000000 0xffffffff80200000) ∧
    (∃ s, loadimageSegments 64 64 true 0xffffffff80200000 (kernelFile 0xffffffff80000000 0xffffffff80200000)
        (kernelPhdr 0xffffffff80000000 0xffffffff80200000) (fun _ => 0) (2^32) = some (some s) ∧
      s.firstaddr = 0x200000 ∧ s.lastaddr = 0x200004) ∧
    ¬∃ fuel s, loadimageSegments 64 64 true 0xffffffff80200000 (kernelFile 0xffffffff80000000 0xffffffff80200000)
        (kernelPhdr 0xffffffff80000000 0xffffffff80200000) (fun _ => 0) fuel = some (some s) ∧
      ImageRight (kernelFile 0xffffffff80000000 0xffffffff80200000) kernelOffset
        (kernelPhdr 0xffffffff80000000 0xffffffff80200000) s := by
  have hload : Loadable 64 (kernelFile 0xffffffff80000000 0xffffffff80200000) kernelOffset
      (kernelPhdr 0xffffffff80000000 0xffffffff80200000) := kernel_loadable (by decide) (by decide)
  have hvalue : firstOf 0 ((loads (kernelPhdr 0xffffffff80000000 0xffffffff80200000)).map (segmentAddr kernelOffset)) =
      0x200000 := by decide
  refine ⟨hload,?_,?_⟩
  · obtain ⟨s,hrun,-,-,hfirst,hlast⟩ := loadSegments_loads le_rfl le_rfl hload (by decide) ⟨fun _ => 0,0,0⟩
    exact ⟨s,hrun,hfirst.trans hvalue,hlast.trans (by decide)⟩
  rintro ⟨fuel,s,hrun,hright⟩
  obtain ⟨-,hfirst⟩ := loadSegments_some le_rfl hload hrun
  have hle := (hright.first (by decide)).2 _ (show (⟨ptLoad,176,0xffffffff80000000,4,4⟩ : Phdr) ∈
    loads (kernelPhdr 0xffffffff80000000 0xffffffff80200000) from List.mem_cons_self)
  have hzero : segmentAddr kernelOffset ⟨ptLoad,176,0xffffffff80000000,4,4⟩ = 0 := by decide
  rw [hfirst,hvalue,hzero] at hle
  omega

end Blub.Boot.Elf
