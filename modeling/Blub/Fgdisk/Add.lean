import Blub.Fgdisk.Open

/-! Adding a partition, from `add.c`. The extent of a new entry comes from the media map alone: it lies
in the usable area of the header as far as the extent of the first unused segment with room does. -/
namespace Blub.Fgdisk
open Blub.Bytes Blub.Gpt

section Code

/-- The arguments of `gpt_add_part`. -/
structure AddArgs where
  type : ℕ
  align : ℤ
  start : ℤ
  name : Option (List UInt8)
  size : ℤ
  entry : ℕ

inductive AddError
  | hdr (e : HdrError)
  | outOfRange (entry entries : ℕ)
  | notFree (entry : ℕ)
  | noEntries
  | noSpace (aligned : Bool)
  deriving DecidableEq, Repr

def AddError.text : AddError → String
  | .hdr e => e.text
  | .outOfRange entry entries =>
    "error: index " ++ toString entry ++ " out of range (" ++ toString entries ++ " max)"
  | .notFree entry => "error: entry at index " ++ toString entry ++ " is not free"
  | .noEntries => "error: no available table entries"
  | .noSpace true => "error: not enough space available on device for an aligned partition"
  | .noSpace false => "error: not enough space available on device"

/-- The search for an empty slot from entry `i` on. -/
def emptySlot (hdr : ℕ → UInt8) (p : Buf) : ℕ → ℕ → Option (Except AddError ℕ)
  | 0, _ => some (.error .noEntries)
  | k+1, i =>
    if p.size < entOfs hdr i+16 then none
    else if entType p.byte (entOfs hdr i) = 0 then some (.ok i)
    else emptySlot hdr p k (i+1)

/-- The entry to fill: the one asked for, or the first empty one. -/
def addSlot (hdr : ℕ → UInt8) (p : Buf) (entry : ℕ) : Option (Except AddError ℕ) :=
  if entry > hdrEntries hdr then some (.error (.outOfRange entry (hdrEntries hdr)))
  else if entry > 0 then
    let o := entOfs hdr (entry-1)
    if p.size < o+16 then none
    else if entType p.byte o ≠ 0 then some (.error (.notFree entry))
    else some (.ok (entry-1))
  else emptySlot hdr p (hdrEntries hdr) 0

/-- The buffer that a segment carries. -/
def MapData.buffer : MapData → Option Buf
  | .buf b => some b
  | _ => none

/-- A value stored in a `uint64_t`. -/
def u64 (x : ℤ) : ℕ := (x%2^64).toNat

/-- The code units of a name go to the field of the entry at `o`. -/
def putName (t : ℕ → UInt8) (o : ℕ) (units : List ℕ) : ℕ → UInt8 :=
  units.zipIdx.foldl (fun t u => lePut t (o+56+2*u.2) 2 u.1) t

def nameUnits : ℕ := 36

def fillEntry (type : ℕ) (seg : Seg) (name : Option (List UInt8)) (t : ℕ → UInt8) (o : ℕ) : ℕ → UInt8 :=
  let t := lePut t o 16 type
  let t := lePut t (o+32) 8 (u64 seg.mapStart)
  let t := lePut t (o+40) 8 (u64 (seg.mapStart+seg.mapSize-1))
  match name with
  | none => t
  | some s => putName t o (utf8ToUtf16 s nameUnits)

/-- The bytes of an entry that `fillEntry` touches. -/
def fillLen (name : Option (List UInt8)) : ℕ := if name.isSome then entStructSize else 48

def alignSecs (align : ℤ) (secsz : ℕ) : ℤ := if align > 0 then align.tdiv secsz else 0

/-- `gpt_add_part`: the new segment and the number of its entry. -/
def gptAddPart (gd : Gd) (a : AddArgs) : Option (Except AddError (ℕ × ℕ) × Gd) :=
  match gptGethdr gd.media with
  | .error e => some (.error (.hdr e),gd)
  | .ok c =>
    match (gd.media.cell c.gpt).mapData, (gd.media.cell c.tbl).mapData with
    | .buf h, .buf t =>
      match addSlot h.byte t a.entry with
      | none => none
      | some (.error e) => some (.error e,gd)
      | some (.ok i) =>
        match mapAlloc gd.media a.start a.size (alignSecs a.align gd.secsz) with
        | (.error _,g) => some (.error (.noSpace (a.align > 0)),{ gd with media := g })
        | (.ok m,g) =>
          let fill := fillEntry a.type (g.cell m).toSeg a.name
          match putEntry g c.gpt c.tbl i (fillLen a.name) fill with
          | none => none
          | some g₁ =>
            let gd := gptWrite (gptWrite { gd with media := g₁ } c.gpt) c.tbl
            match putEntry g₁ c.tpg c.lbt i (fillLen a.name) fill with
            | none => none
            | some g₂ =>
              let gd := gptWrite (gptWrite { gd with media := g₂ } c.lbt) c.tpg
              some (.ok (m,i+1),gd)
    | _, _ => none

attribute [local grind =] emptySlot gptAddPart

end Code

section Entries
variable {g g₁ : Media} {hdr tbl i len : ℕ} {f : (ℕ → UInt8) → ℕ → ℕ → UInt8}

/-- The header and the table of a copy have room for what a command does to entry `i`. -/
def Reaches (h t : Buf) (i len : ℕ) : Prop :=
  entOfs h.byte i+len ≤ t.size ∧ tblsz h.byte ≤ t.size ∧ hdrSize h.byte ≤ h.size

/-- A copy after a change of entry `i`. -/
def putCopy (g : Media) (hdr tbl i : ℕ) (h t : Buf) (f : (ℕ → UInt8) → ℕ → ℕ → UInt8) : Media :=
  let t' := f t.byte (entOfs h.byte i)
  (g.modify tbl fun s => { s with mapData := .buf { t with byte := t' } }).modify hdr
    fun s => { s with mapData := .buf { h with byte := sealHdr h.byte (crc32 t' (tblsz h.byte)) } }

theorem putEntry_eq_some_iff : putEntry g hdr tbl i len f = some g₁ ↔
    ∃ h t, (g.cell hdr).mapData = .buf h ∧ (g.cell tbl).mapData = .buf t ∧ Reaches h t i len ∧
      g₁ = putCopy g hdr tbl i h t f := by
  unfold putEntry
  constructor
  · intro hp
    split at hp
    · rename_i h t hh ht
      dsimp only at hp
      split_ifs at hp with hout
      refine ⟨h,t,hh,ht,?_,(Option.some.inj hp).symm⟩
      simp only [not_or,not_lt] at hout
      exact hout
    · cases hp
  · rintro ⟨h,t,hh,ht,⟨h₁,h₂,h₃⟩,rfl⟩
    rw [hh,ht]
    dsimp only
    rw [if_neg (by omega)]
    rfl

theorem putCopy_cell {h t : Buf} {k : ℕ} (h₁ : k ≠ hdr) (h₂ : k ≠ tbl) :
    (putCopy g hdr tbl i h t f).cell k = g.cell k := by
  simp only [putCopy,Media.modify_cell]
  rw [Function.update_of_ne h₁,Function.update_of_ne h₂]

theorem putCopy_hdr (h t : Buf) : ((putCopy g hdr tbl i h t f).cell hdr).mapData =
    .buf { h with byte := sealHdr h.byte (crc32 (f t.byte (entOfs h.byte i)) (tblsz h.byte)) } := by
  simp only [putCopy,Media.modify_cell,Function.update_self]

theorem putCopy_tbl (h t : Buf) (hne : tbl ≠ hdr) : ((putCopy g hdr tbl i h t f).cell tbl).mapData =
    .buf { t with byte := f t.byte (entOfs h.byte i) } := by
  simp only [putCopy,Media.modify_cell]
  rw [Function.update_of_ne hne,Function.update_self]

theorem putName_below (o : ℕ) (units : List ℕ) (t : ℕ → UInt8) {j : ℕ} (h : j < o+56) :
    putName t o units j = t j := by
  unfold putName
  generalize units.zipIdx = l
  induction l generalizing t with
  | nil => rfl
  | cons u l ih =>
    rw [List.foldl_cons,ih,lePut_outside (by omega)]

theorem u64_of_lt {x : ℤ} (h₀ : 0 ≤ x) (h : x < 2^64) : (u64 x : ℤ) = x := by
  unfold u64
  omega

theorem u64_lt (x : ℤ) : u64 x < 256^8 := by
  unfold u64
  norm_num
  omega

variable (type : ℕ) (seg : Seg) (name : Option (List UInt8)) (t : ℕ → UInt8) (o : ℕ)

theorem fillEntry_below {j : ℕ} (h : j < o+56) : fillEntry type seg name t o j = fillEntry type seg none t o j := by
  cases name with
  | none => rfl
  | some s => exact putName_below o _ _ h

theorem entLbaStart_fillEntry : entLbaStart (fillEntry type seg name t o) o = u64 seg.mapStart := by
  have hb : entLbaStart (fillEntry type seg name t o) o = entLbaStart (fillEntry type seg none t o) o :=
    leGet_congr fun j h₁ h₂ => fillEntry_below type seg name t o (by omega)
  rw [hb]
  simp only [entLbaStart,fillEntry]
  rw [leGet_lePut_apart (by omega),leGet_lePut_of_lt (u64_lt _)]

theorem entLbaEnd_fillEntry :
    entLbaEnd (fillEntry type seg name t o) o = u64 (seg.mapStart+seg.mapSize-1) := by
  have hb : entLbaEnd (fillEntry type seg name t o) o = entLbaEnd (fillEntry type seg none t o) o :=
    leGet_congr fun j h₁ h₂ => fillEntry_below type seg name t o (by omega)
  rw [hb]
  simp only [entLbaEnd,fillEntry]
  rw [leGet_lePut_of_lt (u64_lt _)]

end Entries

section Slots
variable {hdr : ℕ → UInt8} {p : Buf}

/-- An entry that is there and of no type. -/
def FreeEntry (hdr : ℕ → UInt8) (p : Buf) (i : ℕ) : Prop :=
  i < hdrEntries hdr ∧ entOfs hdr i+16 ≤ p.size ∧ entType p.byte (entOfs hdr i) = 0

theorem emptySlot_ok {k i j : ℕ} (h : emptySlot hdr p k i = some (.ok j)) (hk : i+k = hdrEntries hdr) :
    FreeEntry hdr p j := by
  induction k generalizing i with
  | zero => simp [emptySlot] at h
  | succ k ih =>
    unfold emptySlot at h
    split_ifs at h with hout hnil
    · simp only [Option.some.injEq,Except.ok.injEq] at h
      subst h
      exact ⟨by omega,by omega,hnil⟩
    · exact ih h (by omega)

theorem addSlot_ok {entry i : ℕ} (h : addSlot hdr p entry = some (.ok i)) : FreeEntry hdr p i := by
  unfold addSlot at h
  dsimp only at h
  split_ifs at h with hrange hgiven hout hused
  · simp at h
  · simp at h
  · simp only [Option.some.injEq,Except.ok.injEq] at h
    subst h
    exact ⟨by omega,by omega,not_not.mp hused⟩
  · exact emptySlot_ok h (by omega)

end Slots

section Extents
variable {start size alignment a z : ℤ} {s : Seg}

theorem roundUp_bounds {x : ℤ} (hx : 0 ≤ x) (ha : 0 < alignment) (h : x+alignment < 2^63) :
    x ≤ (offT (x+alignment)).tdiv alignment*alignment ∧
      (offT (x+alignment)).tdiv alignment*alignment ≤ x+alignment := by
  rw [offT_of_lt (by omega) h,Int.tdiv_eq_ediv_of_nonneg (by omega)]
  have h₁ := Int.ediv_mul_le (x+alignment) ha.ne'
  have h₂ := Int.lt_ediv_add_one_mul_self (x+alignment) ha
  rw [Int.add_mul,Int.one_mul] at h₂
  omega

theorem alignUp_nonneg (hs : 0 ≤ size) (ha : 0 ≤ alignment) (h : size+alignment < 2^63) :
    0 ≤ alignUp size alignment ∧ alignUp size alignment < 2^63 := by
  unfold alignUp
  split_ifs with hr
  · have hb := roundUp_bounds hs hr.1 h
    rw [offT_of_lt (by omega) (by omega)]
    omega
  · omega

theorem alignUp_lt (h : start < 2^63) : alignUp start alignment < 2^63 := by
  unfold alignUp
  split_ifs
  · exact (offT_range _).2
  · exact h

/-- The start of an extent in a proper segment is not before that of the segment. -/
theorem allocDelta_bounds (hs : start < 2^63) (ha : 0 ≤ alignment) (h₂ : 2 ≤ s.mapStart)
    (hz : s.mapStart+alignment < 2^63) (hle : start ≠ 0 → s.mapStart ≤ start) :
    0 ≤ allocDelta start alignment s ∧ s.mapStart+allocDelta start alignment s < 2^63 := by
  unfold allocDelta
  split_ifs with h₀ hr
  · have := hle h₀
    rw [offT_of_lt (by omega) (by omega)]
    omega
  · have hb := roundUp_bounds (show 0 ≤ s.mapStart by omega) hr.1 hz
    rw [offT_of_lt (by omega) (by omega)]
    omega
  · omega

theorem allocSize_bounds (alignment : ℤ) {room : ℤ} (hs : 0 ≤ size) (h₀ : 0 ≤ room) (hr : size = 0 ∨ size ≤ room) :
    0 ≤ allocSize size alignment room ∧ allocSize size alignment room ≤ room := by
  unfold allocSize
  split_ifs with hz ha
  · rw [Int.tdiv_eq_ediv_of_nonneg h₀]
    exact ⟨Int.mul_nonneg (Int.ediv_nonneg h₀ (by omega)) (by omega),Int.ediv_mul_le room (by omega)⟩
  · omega
  · omega

theorem offer_free (h : offer start size alignment s = .take a z) : s.mapType = .unused ∧ 2 ≤ s.mapStart := by
  unfold offer at h
  dsimp only at h
  split_ifs at h with h₁
  simp only [not_or,not_not,not_lt] at h₁
  exact h₁

/-- An extent taken from a proper segment lies inside it. -/
theorem offer_take (h : offer start size alignment s = .take a z) (hs : start < 2^63)
    (hz : 0 ≤ size) (ha : 0 ≤ alignment) (hin : 1 ≤ s.mapSize) (hmax : s.mapSize < 2^63)
    (hsum : s.mapStart+alignment < 2^63) :
    s.mapType = .unused ∧ 2 ≤ s.mapStart ∧ s.mapStart ≤ a ∧ 0 ≤ z ∧ a+z ≤ s.mapStart+s.mapSize := by
  obtain ⟨hu,h₁⟩ := offer_free h
  unfold offer at h
  dsimp only at h
  split_ifs at h with _ h₂ h₃
  simp only [not_or,not_and,not_lt,not_le] at h₂ h₃
  obtain ⟨hd₀,hd₁⟩ := allocDelta_bounds hs ha h₁ hsum h₂
  rw [offT_of_lt (show -2^63 ≤ s.mapSize-allocDelta start alignment s by omega) (by omega)] at h h₃
  rw [offT_of_lt (show -2^63 ≤ s.mapStart+allocDelta start alignment s by omega) hd₁] at h
  have hb := allocSize_bounds alignment hz (show 0 ≤ s.mapSize-allocDelta start alignment s by omega)
    (or_iff_not_imp_left.mpr h₃.1)
  injection h with h₄ h₅
  subst h₄ h₅
  exact ⟨hu,h₁,by omega,hb.1,by omega⟩

end Extents

section Lists
variable {g : Media} {l xs ys : List (ℕ × Seg)} {n : ℕ} {s : Seg} {a z : ℤ}

theorem IsMap.find (h : IsMap g l) {type : MapType} {n : ℕ} (hf : mapFind g type = some n) :
    ∃ s, (n,s) ∈ l ∧ s.mapType = type ∧ (g.cell n).toSeg = s := by
  obtain ⟨xs,s,ys,rfl,-,hs,hc⟩ := h.walk_some (fun s => decide (s.mapType ≠ type)) hf
  refine ⟨s,by simp,?_,hc⟩
  simpa using hs

/-- `map_add` once it is clear which segment the extent is in. -/
theorem IsMap.mapAdd_at (h : IsMap g (xs ++ (n,s) :: ys)) (hx : ∀ e ∈ xs, e.2.end ≤ a) (hs : a < s.end)
    (hfit : ¬ s.end < offT (a+z)) (type : MapType) (data : MapData) (alloc : Bool) :
    mapAdd g a z type data alloc =
      if s.mapStart = a ∧ s.mapSize = z then
        (.ok n,g.modify n fun s => { s with mapType := type, mapData := data, mapAlloc := alloc })
      else if s.mapType ≠ .unused ∧ (s.mapType ≠ .mbrPart ∨ type ≠ .gptPart) then
        (.error (.bogusType s.mapType type),g)
      else mapSplit (g.modify n fun s => { s with mapType := .unused }) n a z type data alloc := by
  have hc : (g.cell n).toSeg = s := h.segs (n,s) (by simp)
  have hwalk : mapWalk g.cell (fun c => decide (c.toSeg.end ≤ a)) (g.brk+1) g.mediamap = some n := by
    rw [h.walk_eq,List.map_append,List.map_cons,List.find?_append]
    have hnone : (xs.map Prod.fst).find? (fun m => !decide ((g.cell m).toSeg.end ≤ a)) = none := by
      rw [List.find?_eq_none]
      intro m hm
      obtain ⟨e,he,rfl⟩ := List.mem_map.mp hm
      rw [h.segs e (by simp [he])]
      simp [hx e he]
    rw [hnone,Option.none_or,List.find?_cons_of_pos]
    rw [hc]
    simpa using hs
  unfold mapAdd
  rw [hwalk]
  dsimp only
  rw [hc,if_neg hfit]

/-- The extent of a segment is added by taking the segment over. -/
theorem IsMap.mapAdd_self (h : IsMap g (xs ++ (n,s) :: ys))
    (hx : ∀ e ∈ xs, e.2.end ≤ s.mapStart) (hs : s.mapStart < s.end) (type : MapType) (data : MapData)
    (alloc : Bool) : mapAdd g s.mapStart s.mapSize type data alloc =
      (.ok n,g.modify n fun u => { u with mapType := type, mapData := data, mapAlloc := alloc }) := by
  have hfit : ¬ s.end < offT (s.mapStart+s.mapSize) := lt_irrefl _
  rw [h.mapAdd_at hx hs hfit,if_pos ⟨rfl,rfl⟩]

end Lists

section Calls
variable {g : Media} {c : Copies}

/-- The four segments of the copies are different. -/
structure Copies.Apart (c : Copies) : Prop where
  tbl_gpt : c.tbl ≠ c.gpt
  gpt_tpg : c.gpt ≠ c.tpg
  gpt_lbt : c.gpt ≠ c.lbt
  tbl_tpg : c.tbl ≠ c.tpg
  tbl_lbt : c.tbl ≠ c.lbt
  tpg_lbt : c.tpg ≠ c.lbt

/-- What `gpt_gethdr` finds. -/
structure Copies.Found (c : Copies) (g : Media) : Prop where
  gpt : mapFind g .priGptHdr = some c.gpt
  tpg : mapFind g .secGptHdr = some c.tpg
  tbl : mapFind g .priGptTbl = some c.tbl
  lbt : mapFind g .secGptTbl = some c.lbt

theorem gptGethdr_ok (h : gptGethdr g = .ok c) : c.Found g := by
  unfold gptGethdr at h
  split at h
  · cases h
  · rename_i gpt h₁
    split at h
    · cases h
    · rename_i tpg h₂
      split at h
      · rename_i tbl lbt h₃ h₄
        cases h
        exact ⟨h₁,h₂,h₃,h₄⟩
      · cases h

theorem Copies.Found.apart {l : List (ℕ × Seg)} (hf : c.Found g) (hl : IsMap g l) : c.Apart := by
  have htype : ∀ {type n}, mapFind g type = some n → (g.cell n).mapType = type := by
    intro type n h
    obtain ⟨s,-,ht,hc⟩ := hl.find h
    rw [← ht,← hc]
  have hne : ∀ {type type' n n'}, mapFind g type = some n → mapFind g type' = some n' → type ≠ type' → n ≠ n' := by
    rintro type type' n n' h h' ht rfl
    exact ht ((htype h).symm.trans (htype h'))
  exact ⟨hne hf.tbl hf.gpt (by decide),hne hf.gpt hf.tpg (by decide),hne hf.gpt hf.lbt (by decide),
    hne hf.tbl hf.tpg (by decide),hne hf.tbl hf.lbt (by decide),hne hf.tpg hf.lbt (by decide)⟩

/-- The extent of entry `i` of the primary table lies in the usable area of the primary header. -/
def EntryUsable (g : Media) (c : Copies) (i : ℕ) : Prop :=
  ∃ h t, (g.cell c.gpt).mapData = .buf h ∧ (g.cell c.tbl).mapData = .buf t ∧
    hdrLbaStart h.byte ≤ entLbaStart t.byte (entOfs h.byte i) ∧
    entLbaEnd t.byte (entOfs h.byte i) ≤ hdrLbaEnd h.byte

/-- Both copies are changed and the entry gets the extent of the new segment. -/
theorem entryUsable_put {g₁ g₂ : Media} {h t : Buf} {i len type : ℕ} {seg : Seg} {name : Option (List UInt8)}
    (hc : c.Apart) (hh : (g.cell c.gpt).mapData = .buf h) (ht : (g.cell c.tbl).mapData = .buf t)
    (h₁ : putEntry g c.gpt c.tbl i len (fillEntry type seg name) = some g₁)
    (h₂ : putEntry g₁ c.tpg c.lbt i len (fillEntry type seg name) = some g₂) :
    EntryUsable g₂ c i ↔ hdrLbaStart h.byte ≤ u64 seg.mapStart ∧
      u64 (seg.mapStart+seg.mapSize-1) ≤ hdrLbaEnd h.byte := by
  obtain ⟨h',t',hh',ht',-,rfl⟩ := putEntry_eq_some_iff.mp h₁
  obtain ⟨h'',t'',-,-,-,rfl⟩ := putEntry_eq_some_iff.mp h₂
  cases hh.symm.trans hh'
  cases ht.symm.trans ht'
  set f := fillEntry type seg name
  set g₁ := putCopy g c.gpt c.tbl i h t f
  have hgpt : ((putCopy g₁ c.tpg c.lbt i h'' t'' f).cell c.gpt).mapData =
      .buf { h with byte := sealHdr h.byte (crc32 (f t.byte (entOfs h.byte i)) (tblsz h.byte)) } := by
    rw [putCopy_cell hc.gpt_tpg hc.gpt_lbt]
    exact putCopy_hdr h t
  have htbl : ((putCopy g₁ c.tpg c.lbt i h'' t'' f).cell c.tbl).mapData =
      .buf { t with byte := f t.byte (entOfs h.byte i) } := by
    rw [putCopy_cell hc.tbl_tpg hc.tbl_lbt]
    exact putCopy_tbl h t hc.tbl_gpt
  have hs := sameFields_sealHdr h.byte (crc32 (f t.byte (entOfs h.byte i)) (tblsz h.byte))
  have hofs : entOfs (sealHdr h.byte (crc32 (f t.byte (entOfs h.byte i)) (tblsz h.byte))) i = entOfs h.byte i := by
    rw [entOfs,hs.entsz,entOfs]
  have hstart := entLbaStart_fillEntry type seg name t.byte (entOfs h.byte i)
  have hend := entLbaEnd_fillEntry type seg name t.byte (entOfs h.byte i)
  constructor
  · rintro ⟨h₃,t₃,e₁,e₂,hlo,hhi⟩
    cases hgpt.symm.trans e₁
    cases htbl.symm.trans e₂
    rw [hofs,hs.lbaStart,hstart] at hlo
    rw [hofs,hs.lbaEnd,hend] at hhi
    exact ⟨hlo,hhi⟩
  · rintro ⟨hlo,hhi⟩
    refine ⟨_,_,hgpt,htbl,?_,?_⟩
    · rw [hofs,hs.lbaStart,hstart]
      exact hlo
    · rw [hofs,hs.lbaEnd,hend]
      exact hhi

/-- What a successful call has done. -/
structure AddOk (gd : Gd) (a : AddArgs) (c : Copies) (m i : ℕ) (gd' : Gd) : Prop where
  hdr : gptGethdr gd.media = .ok c
  steps : ∃ h t g g₁, (gd.media.cell c.gpt).mapData = .buf h ∧ (gd.media.cell c.tbl).mapData = .buf t ∧
    addSlot h.byte t a.entry = some (.ok i) ∧
    mapAlloc gd.media a.start a.size (alignSecs a.align gd.secsz) = (.ok m,g) ∧
    putEntry g c.gpt c.tbl i (fillLen a.name) (fillEntry a.type (g.cell m).toSeg a.name) = some g₁ ∧
    putEntry g₁ c.tpg c.lbt i (fillLen a.name) (fillEntry a.type (g.cell m).toSeg a.name) = some gd'.media

theorem gptAddPart_ok {gd gd' : Gd} {a : AddArgs} {m entry : ℕ}
    (h : gptAddPart gd a = some (.ok (m,entry),gd')) : ∃ c i, entry = i+1 ∧ AddOk gd a c m i gd' := by
  unfold gptAddPart at h
  split at h
  · cases h
  · rename_i c hhdr
    split at h
    · rename_i hb tb hh ht
      split at h
      · cases h
      · cases h
      · rename_i i hslot
        split at h
        · cases h
        · rename_i m' g halloc
          dsimp only at h
          split at h
          · cases h
          · rename_i g₁ hpri
            split at h
            · cases h
            · rename_i g₂ hsec
              cases h
              exact ⟨c,i,rfl,hhdr,hb,tb,g,g₁,hh,ht,hslot,halloc,hpri,hsec⟩
    · cases h

/-- The other way round, the steps make up a successful call. -/
theorem gptAddPart_of_steps {gd : Gd} {a : AddArgs} {c : Copies} {m i : ℕ} {h t : Buf} {g g₁ g₂ : Media}
    (hhdr : gptGethdr gd.media = .ok c) (hh : (gd.media.cell c.gpt).mapData = .buf h)
    (ht : (gd.media.cell c.tbl).mapData = .buf t) (hslot : addSlot h.byte t a.entry = some (.ok i))
    (halloc : mapAlloc gd.media a.start a.size (alignSecs a.align gd.secsz) = (.ok m,g))
    (hpri : putEntry g c.gpt c.tbl i (fillLen a.name) (fillEntry a.type (g.cell m).toSeg a.name) = some g₁)
    (hsec : putEntry g₁ c.tpg c.lbt i (fillLen a.name) (fillEntry a.type (g.cell m).toSeg a.name) = some g₂) :
    ∃ gd', gptAddPart gd a = some (.ok (m,i+1),gd') := by
  unfold gptAddPart
  simp only [hhdr,hh,ht,hslot,halloc,hpri,hsec]
  exact ⟨_,rfl⟩

end Calls

section Usable
variable {g : Media} {c : Copies} {l : List (ℕ × Seg)}

/-- If a call succeeds, the entry that it adds lies in the usable area. -/
def AddUsable (gd : Gd) (c : Copies) (a : AddArgs) : Prop :=
  ∀ m entry gd', gptAddPart gd a = some (.ok (m,entry),gd') → EntryUsable gd'.media c (entry-1)

/-- The extent that a request takes: that of the first unused segment with room for it. -/
def AddArgs.extent (a : AddArgs) (gd : Gd) : Option (ℤ × ℤ) :=
  let alignment := alignSecs a.align gd.secsz
  allocExtent (alignUp a.start alignment) (alignUp a.size alignment) alignment (mapList gd.media)

/-- There is a free entry for the index asked for, and both tables have room for it. -/
def AddArgs.Fills (a : AddArgs) (g : Media) (c : Copies) : Prop :=
  ∃ h t h' t' i, (g.cell c.gpt).mapData = .buf h ∧ (g.cell c.tbl).mapData = .buf t ∧
    (g.cell c.tpg).mapData = .buf h' ∧ (g.cell c.lbt).mapData = .buf t' ∧ addSlot h.byte t a.entry = some (.ok i) ∧
    Reaches h t i (fillLen a.name) ∧ Reaches h' t' i (fillLen a.name)

/-- The request takes the extent of `z` sectors at `x`, for a segment that is none of the copies'. -/
structure Takes (gd : Gd) (c : Copies) (a : AddArgs) (x z : ℤ) : Prop where
  extent : a.extent gd = some (x,z)
  fills : a.Fills gd.media c
  room : ∃ m g', mapAdd gd.media x z .gptPart .null false = (.ok m,g') ∧
    c.gpt ≠ m ∧ c.tbl ≠ m ∧ c.tpg ≠ m ∧ c.lbt ≠ m

/-- The extent of a partition as an entry stores it. -/
def InUsable (h : ℕ → UInt8) (x z : ℤ) : Prop := hdrLbaStart h ≤ u64 x ∧ u64 (x+z-1) ≤ hdrLbaEnd h

/-- Where a request takes an extent, it is one inside of the usable area. -/
def TakesUsable (gd : Gd) (c : Copies) (a : AddArgs) : Prop :=
  ∀ x z, Takes gd c a x z → ∀ h, (gd.media.cell c.gpt).mapData = .buf h → InUsable h.byte x z

/-- A copy keeps its buffer, unless its own segment is the one that is taken. -/
theorem mapAdd_data (hl : IsMap g l) {type : MapType} {n m : ℕ} {a z : ℤ} {g' : Media}
    (hf : mapFind g type = some n) (hu : type ≠ .unused) (hp : type ≠ .mbrPart)
    (hadd : mapAdd g a z .gptPart .null false = (.ok m,g')) :
    (n ≠ m ∧ (g'.cell n).mapData = (g.cell n).mapData) ∨ n = m ∧ (g'.cell n).mapData = .null := by
  obtain ⟨s,hs,ht,hc⟩ := hl.find hf
  obtain ⟨l',hl',hcarve⟩ := mapAdd_carve hl a z .gptPart .null false
  rw [hadd] at hl' hcarve
  by_cases hne : n = m
  · right
    obtain ⟨e,he,hem,-,-,-,hnull⟩ := hcarve.extent
    have hc' : (g'.cell e.1).toSeg = e.2 := hl'.segs _ he
    rw [hem,← hne] at hc'
    refine ⟨hne,?_⟩
    show (g'.cell n).toSeg.mapData = .null
    rw [hc',hnull]
  · left
    obtain hk | hk := hcarve.kept hs (by rw [ht]; exact hu) (by rw [ht]; exact hp)
    · have hc' : (g'.cell n).toSeg = s := hl'.segs _ hk
      refine ⟨hne,?_⟩
      show (g'.cell n).toSeg.mapData = (g.cell n).toSeg.mapData
      rw [hc,hc']
    · exact absurd hk hne

/-- What has a buffer afterwards is the segment of a copy that was not taken, with the buffer it had. -/
theorem mapAdd_kept (hl : IsMap g l) {type : MapType} {n m : ℕ} {a z : ℤ} {g' : Media} {b : Buf}
    (hf : mapFind g type = some n) (hu : type ≠ .unused) (hp : type ≠ .mbrPart)
    (hadd : mapAdd g a z .gptPart .null false = (.ok m,g')) (hb : (g'.cell n).mapData = .buf b) :
    n ≠ m ∧ (g.cell n).mapData = .buf b := by
  obtain ⟨hne,hd⟩ | ⟨-,hd⟩ := mapAdd_data hl hf hu hp hadd
  · exact ⟨hne,hd.symm.trans hb⟩
  · rw [hd] at hb
    cases hb

theorem mapAdd_keeps (hl : IsMap g l) {type : MapType} {n m : ℕ} {a z : ℤ} {g' : Media} {b : Buf}
    (hf : mapFind g type = some n) (hu : type ≠ .unused) (hp : type ≠ .mbrPart)
    (hadd : mapAdd g a z .gptPart .null false = (.ok m,g')) (hne : n ≠ m) (hb : (g.cell n).mapData = .buf b) :
    (g'.cell n).mapData = .buf b := by
  obtain ⟨-,hd⟩ | ⟨heq,-⟩ := mapAdd_data hl hf hu hp hadd
  · exact hd.trans hb
  · exact absurd heq hne

/-- `map_alloc` adds the extent of the request to the map. -/
theorem mapAlloc_ok_iff {gd : Gd} {a : AddArgs} (hl : IsMap gd.media l) {m : ℕ} {g' : Media} :
    mapAlloc gd.media a.start a.size (alignSecs a.align gd.secsz) = (.ok m,g') ↔
    ∃ x z, a.extent gd = some (x,z) ∧ mapAdd gd.media x z .gptPart .null false = (.ok m,g') := by
  rw [hl.mapAlloc_eq,← hl.mapList_eq,AddArgs.extent]
  cases allocExtent (alignUp a.start (alignSecs a.align gd.secsz)) (alignUp a.size (alignSecs a.align gd.secsz))
    (alignSecs a.align gd.secsz) (mapList gd.media) with
  | none => simp
  | some e =>
    obtain ⟨x,z⟩ := e
    simp [eq_comm]

/-- The new segment has the extent that was asked for. -/
theorem mapAdd_extent (hl : IsMap g l) {x z : ℤ} {m : ℕ} {g' : Media}
    (hadd : mapAdd g x z .gptPart .null false = (.ok m,g')) :
    (g'.cell m).toSeg.mapStart = x ∧ (g'.cell m).toSeg.mapSize = z := by
  obtain ⟨l',hl',hcarve⟩ := mapAdd_carve hl x z .gptPart .null false
  rw [hadd] at hl' hcarve
  obtain ⟨e,he,rfl,hes,hez,-⟩ := hcarve.extent
  have hseg : (g'.cell e.1).toSeg = e.2 := hl'.segs _ he
  rw [hseg]
  exact ⟨hes,hez⟩

/-- A successful call has taken an extent, and the entry has got it. -/
theorem AddOk.takes {gd gd' : Gd} {a : AddArgs} {m i : ℕ} (hok : AddOk gd a c m i gd') (hl : IsMap gd.media l) :
    ∃ x z, Takes gd c a x z ∧ ∀ h, (gd.media.cell c.gpt).mapData = .buf h →
      (EntryUsable gd'.media c i ↔ InUsable h.byte x z) := by
  obtain ⟨hhdr,hb,tb,g₀,g₁,hh,ht,hslot,halloc,hpri,hsec⟩ := hok
  have hf := gptGethdr_ok hhdr
  have hc := hf.apart hl
  obtain ⟨x,z,hext,hadd⟩ := (mapAlloc_ok_iff hl).mp halloc
  obtain ⟨h₁,t₁,hh₁,ht₁,hr₁,hg₁⟩ := putEntry_eq_some_iff.mp hpri
  obtain ⟨h₂,t₂,hh₂,ht₂,hr₂,-⟩ := putEntry_eq_some_iff.mp hsec
  rw [hg₁,putCopy_cell hc.gpt_tpg.symm hc.tbl_tpg.symm] at hh₂
  rw [hg₁,putCopy_cell hc.gpt_lbt.symm hc.tbl_lbt.symm] at ht₂
  obtain ⟨n₁,hh₀⟩ := mapAdd_kept hl hf.gpt (by decide) (by decide) hadd hh₁
  obtain ⟨n₂,ht₀⟩ := mapAdd_kept hl hf.tbl (by decide) (by decide) hadd ht₁
  obtain ⟨n₃,hh₀'⟩ := mapAdd_kept hl hf.tpg (by decide) (by decide) hadd hh₂
  obtain ⟨n₄,ht₀'⟩ := mapAdd_kept hl hf.lbt (by decide) (by decide) hadd ht₂
  cases hh.symm.trans hh₀
  cases ht.symm.trans ht₀
  refine ⟨x,z,⟨hext,⟨hb,tb,h₂,t₂,i,hh,ht,hh₀',ht₀',hslot,hr₁,hr₂⟩,⟨m,g₀,hadd,n₁,n₂,n₃,n₄⟩⟩,fun h hh' => ?_⟩
  cases hh.symm.trans hh'
  obtain ⟨hes,hez⟩ := mapAdd_extent hl hadd
  rw [entryUsable_put hc hh₁ ht₁ hpri hsec,hes,hez,InUsable]

/-- The other way round, a call that takes an extent succeeds. -/
theorem Takes.adds {gd : Gd} {a : AddArgs} {x z : ℤ} (h : Takes gd c a x z) (hl : IsMap gd.media l)
    (hhdr : gptGethdr gd.media = .ok c) : ∃ m i gd', gptAddPart gd a = some (.ok (m,i+1),gd') := by
  obtain ⟨hext,⟨hb,tb,hb',tb',i,hh,ht,hh',ht',hslot,hr,hr'⟩,⟨m,g₀,hadd,n₁,n₂,n₃,n₄⟩⟩ := h
  have hf := gptGethdr_ok hhdr
  have hc := hf.apart hl
  have halloc := (mapAlloc_ok_iff (a := a) hl).mpr ⟨x,z,hext,hadd⟩
  set f := fillEntry a.type (g₀.cell m).toSeg a.name
  have hpri : putEntry g₀ c.gpt c.tbl i (fillLen a.name) f = some (putCopy g₀ c.gpt c.tbl i hb tb f) :=
    putEntry_eq_some_iff.mpr ⟨hb,tb,mapAdd_keeps hl hf.gpt (by decide) (by decide) hadd n₁ hh,
      mapAdd_keeps hl hf.tbl (by decide) (by decide) hadd n₂ ht,hr,rfl⟩
  have hsec : putEntry (putCopy g₀ c.gpt c.tbl i hb tb f) c.tpg c.lbt i (fillLen a.name) f =
      some (putCopy (putCopy g₀ c.gpt c.tbl i hb tb f) c.tpg c.lbt i hb' tb' f) := by
    refine putEntry_eq_some_iff.mpr ⟨hb',tb',?_,?_,hr',rfl⟩
    · rw [putCopy_cell hc.gpt_tpg.symm hc.tbl_tpg.symm]
      exact mapAdd_keeps hl hf.tpg (by decide) (by decide) hadd n₃ hh'
    · rw [putCopy_cell hc.gpt_lbt.symm hc.tbl_lbt.symm]
      exact mapAdd_keeps hl hf.lbt (by decide) (by decide) hadd n₄ ht'
  obtain ⟨gd',h⟩ := gptAddPart_of_steps hhdr hh ht hslot halloc hpri hsec
  exact ⟨m,i,gd',h⟩

/-- A call stays in the usable area exactly where the extent that its request takes does. -/
theorem gptAddPart_usable {fuel : ℕ} {nombr : Bool} {calloc : ℕ → Bool} {im : Image} {g : Media} {c : Copies}
    (hopen : gptOpen fuel nombr calloc im = some (some g)) (hhdr : gptGethdr g = .ok c) (a : AddArgs) :
    AddUsable ⟨im.secsz,g,[]⟩ c a ↔ TakesUsable ⟨im.secsz,g,[]⟩ c a := by
  obtain ⟨⟨l,hl,-⟩,-⟩ := gptOpen_reads hopen
  constructor
  · intro husable x z htakes h hh
    obtain ⟨m,i,gd',hadd⟩ := htakes.adds hl hhdr
    obtain ⟨c',i',hi,hok⟩ := gptAddPart_ok hadd
    cases hhdr.symm.trans hok.hdr
    obtain rfl : i = i' := Nat.succ_injective hi
    obtain ⟨x',z',htakes',hiff⟩ := hok.takes hl
    cases htakes.extent.symm.trans htakes'.extent
    exact (hiff h hh).mp (husable m (i+1) gd' hadd)
  · intro htakes m entry gd' hadd
    obtain ⟨c',i,rfl,hok⟩ := gptAddPart_ok hadd
    cases hhdr.symm.trans hok.hdr
    obtain ⟨x,z,ht,hiff⟩ := hok.takes hl
    obtain ⟨h,-,-,-,-,hh,-⟩ := ht.fills
    exact (hiff h hh).mpr (htakes x z ht h hh)

/-- A segment that is a part of the device and of the usable area. -/
def Seg.Usable (s : Seg) (h : ℕ → UInt8) (devsz : ℕ) : Prop :=
  1 ≤ s.mapSize ∧ s.mapStart+s.mapSize ≤ devsz ∧
    hdrLbaStart h ≤ s.mapStart ∧ s.mapStart+s.mapSize-1 ≤ hdrLbaEnd h

/-- All that a request can find unused is usable. -/
def FreeUsable (g : Media) (c : Copies) (devsz : ℕ) : Prop :=
  ∀ h, (g.cell c.gpt).mapData = .buf h → ∀ s ∈ mapList g, s.mapType = .unused → 2 ≤ s.mapStart → s.Usable h.byte devsz

/-- The arguments are values of an `off_t`, the size is not negative, as the command line demands, and
can be rounded up to the alignment. -/
def AddArgs.Valid (a : AddArgs) (secsz : ℕ) : Prop :=
  a.align < 2^63 ∧ a.start < 2^63 ∧ 0 ≤ a.size ∧ a.size+alignSecs a.align secsz < 2^63

theorem alignSecs_bounds {align : ℤ} {secsz : ℕ} (ha : align < 2^63) (hs : 512 ≤ secsz) :
    0 ≤ alignSecs align secsz ∧ alignSecs align secsz < 2^54 := by
  unfold alignSecs
  split_ifs with hp
  · rw [Int.tdiv_eq_ediv_of_nonneg (by omega)]
    have h₀ : 0 ≤ align/(secsz : ℤ) := Int.ediv_nonneg (by omega) (by omega)
    have h₁ := Int.ediv_mul_le align (show (secsz : ℤ) ≠ 0 by omega)
    have h₂ : align/(secsz : ℤ)*512 ≤ align/(secsz : ℤ)*secsz := Int.mul_le_mul_of_nonneg_left (by omega) h₀
    omega
  · omega

/-- Where all that is unused is usable, any request takes a usable extent. -/
theorem FreeUsable.takesUsable {gd : Gd} {devsz : ℕ} (hl : IsMap gd.media l) (hr : ∀ e ∈ l, e.2.InOff)
    (hsec : 512 ≤ gd.secsz) (hN : (devsz : ℤ) < 2^54) (hfree : FreeUsable gd.media c devsz) {a : AddArgs}
    (ha : a.Valid gd.secsz) : TakesUsable gd c a := by
  obtain ⟨ha,hst,hsz,hsum⟩ := ha
  intro x z htakes h hh
  obtain ⟨s,hs,hof⟩ := allocExtent_some htakes.extent
  obtain ⟨ha₀,ha₁⟩ := alignSecs_bounds ha hsec
  have hinoff : s.InOff := by
    rw [hl.mapList_eq] at hs
    obtain ⟨e,he,rfl⟩ := List.mem_map.mp hs
    exact hr e he
  have hu := offer_free hof
  obtain ⟨h₁,h₂,h₃,h₄⟩ := hfree h hh s hs hu.1 hu.2
  obtain ⟨-,-,hlo,hz₀,hhi⟩ := offer_take hof (alignUp_lt hst) (alignUp_nonneg hsz ha₀ hsum).1 ha₀ h₁ hinoff.2.2 (by omega)
  have e₁ := u64_of_lt (show 0 ≤ x by omega) (by omega)
  have e₂ := u64_of_lt (show 0 ≤ x+z-1 by omega) (by omega)
  unfold InUsable
  omega

/-- The header at `self` of a device of 12 sectors, with a usable area that begins and ends away from
the tables. -/
def reservedHdr (self alt table crc : ℕ) : ℕ → UInt8 :=
  let h := lePut (lePut (lePut (fun _ => 0) 0 8 gptHdrSig) 8 4 0x10000) 12 4 92
  let h := lePut (lePut (lePut h 16 4 crc) 24 8 self) 32 8 alt
  let h := lePut (lePut (lePut h 40 8 6) 48 8 8) 72 8 table
  lePut (lePut (lePut h 80 4 4) 84 4 128) 88 4 0xb2aa7578

/-- A device of 12 sectors with a PMBR, tables of four empty entries in the sectors 2 and 10, and the
usable area 6 to 8. -/
def reservedImage : Image :=
  .ofSectors 12 fun j =>
    if j < 512 then lePut (lePut (lePut (lePut (fun _ => 0) 450 1 dosptypPmbr) 454 4 1) 458 4 11) 510 2 mbrSig j
    else if j < 1024 then reservedHdr 1 11 2 92116907 (j-512)
    else if 5632 ≤ j then reservedHdr 11 1 10 1663880365 (j-5632)
    else 0

/-- What a call on an image comes to: the usable area, the extent of the request, and the index it returns. -/
def addedTo (im : Image) (a : AddArgs) : Option ((ℕ × ℕ) × (ℤ × ℤ) × ℕ) :=
  (gptOpen 1 false (fun _ => true) im).join.bind fun g =>
    (gptGethdr g).toOption.bind fun c =>
      (g.cell c.gpt).mapData.buffer.bind fun h =>
        (a.extent ⟨im.secsz,g,[]⟩).bind fun e =>
          (gptAddPart ⟨im.secsz,g,[]⟩ a).bind fun r =>
            r.1.toOption.map fun x => ((hdrLbaStart h.byte,hdrLbaEnd h.byte),e,x.2)

theorem addedTo_some {im : Image} {a : AddArgs} {lo hi i : ℕ} {x z : ℤ} (h : addedTo im a = some ((lo,hi),(x,z),i+1)) :
    ∃ g c, gptOpen 1 false (fun _ => true) im = some (some g) ∧ gptGethdr g = .ok c ∧
      (∃ m gd', gptAddPart ⟨im.secsz,g,[]⟩ a = some (.ok (m,i+1),gd')) ∧ a.extent ⟨im.secsz,g,[]⟩ = some (x,z) ∧
      ∀ h, (g.cell c.gpt).mapData = .buf h → hdrLbaStart h.byte = lo ∧ hdrLbaEnd h.byte = hi := by
  obtain ⟨g,ho,h⟩ := Option.bind_eq_some_iff.mp h
  obtain ⟨c,hc,h⟩ := Option.bind_eq_some_iff.mp h
  obtain ⟨b,hb,h⟩ := Option.bind_eq_some_iff.mp h
  obtain ⟨e,he,h⟩ := Option.bind_eq_some_iff.mp h
  obtain ⟨⟨r,gd'⟩,hadd,h⟩ := Option.bind_eq_some_iff.mp h
  obtain ⟨⟨m,j⟩,hr,h⟩ := Option.map_eq_some_iff.mp h
  simp only [Prod.mk.injEq] at h
  obtain ⟨⟨rfl,rfl⟩,rfl,rfl⟩ := h
  obtain rfl : r = .ok (m,i+1) := by
    cases r with
    | error e => cases hr
    | ok y => exact congrArg _ (Option.some.inj hr)
  refine ⟨g,c,Option.join_eq_some_iff.mp ho,?_,⟨m,gd',hadd⟩,he,fun h hh => ?_⟩
  · cases hg : gptGethdr g with
    | error e =>
      rw [hg] at hc
      cases hc
    | ok c' =>
      rw [hg] at hc
      exact congrArg _ (Option.some.inj hc)
  · rw [hh] at hb
    cases hb
    exact ⟨rfl,rfl⟩

/-- A partition at sector 6 is added inside of the usable area. -/
theorem gptAddPart_usable_reserved : ∃ g c, gptOpen 1 false (fun _ => true) reservedImage = some (some g) ∧
    gptGethdr g = .ok c ∧ ∃ m gd', gptAddPart ⟨512,g,[]⟩ ⟨1,0,6,none,3,0⟩ = some (.ok (m,1),gd') ∧
      EntryUsable gd'.media c 0 := by
  obtain ⟨g,c,ho,hhdr,⟨m,gd',hadd⟩,hext,hlba⟩ :=
    addedTo_some (show addedTo reservedImage ⟨1,0,6,none,3,0⟩ = some ((6,8),(6,3),0+1) by decide +kernel)
  refine ⟨g,c,ho,hhdr,m,gd',hadd,(gptAddPart_usable ho hhdr ⟨1,0,6,none,3,0⟩).mpr ?_ m 1 gd' hadd⟩
  intro x z htakes h hh
  cases hext.symm.trans htakes.extent
  obtain ⟨hlo,hhi⟩ := hlba h hh
  rw [InUsable,hlo,hhi]
  decide

/-- Without options, a partition is added in front of the usable area. -/
theorem gptAddPart_reserved_area : ∃ g c, gptOpen 1 false (fun _ => true) reservedImage = some (some g) ∧
    gptGethdr g = .ok c ∧ ∃ m gd', gptAddPart ⟨512,g,[]⟩ ⟨1,0,0,none,0,0⟩ = some (.ok (m,1),gd') ∧
      ¬ EntryUsable gd'.media c 0 := by
  obtain ⟨g,c,ho,hhdr,⟨m,gd',hadd⟩,hext,hlba⟩ :=
    addedTo_some (show addedTo reservedImage ⟨1,0,0,none,0,0⟩ = some ((6,8),(3,7),0+1) by decide +kernel)
  refine ⟨g,c,ho,hhdr,m,gd',hadd,?_⟩
  obtain ⟨⟨l,hl,-⟩,-⟩ := gptOpen_reads ho
  obtain ⟨c',i,hi,hok⟩ := gptAddPart_ok hadd
  cases hhdr.symm.trans hok.hdr
  obtain rfl : i = 0 := (Nat.succ_injective hi).symm
  obtain ⟨x,z,htakes,hiff⟩ := hok.takes hl
  cases hext.symm.trans htakes.extent
  obtain ⟨h,-,-,-,-,hh,-⟩ := htakes.fills
  rw [hiff h hh,InUsable,(hlba h hh).1]
  rintro ⟨hlo,-⟩
  exact absurd hlo (by decide)

end Usable

end Blub.Fgdisk
