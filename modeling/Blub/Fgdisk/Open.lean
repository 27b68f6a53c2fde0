import Blub.Fgdisk.Gpt
import Blub.Fgdisk.MapInvariant

/-! When the map that `gpt_open` builds is a partition of the device: exactly when every extent that
the image describes is. -/
namespace Blub.Fgdisk
open Blub.Bytes Blub.Gpt

section Carving

/-- The numbers of a segment fit in an `off_t`. -/
def Seg.InOff (s : Seg) : Prop :=
  (-2^63 ≤ s.mapStart ∧ s.mapStart < 2^63) ∧ (-2^63 ≤ s.mapSize ∧ s.mapSize < 2^63)

theorem eq_add_of_offT_sub {a b c : ℤ} (h : offT (a-b) = c) (ha : -2^63 ≤ a ∧ a < 2^63)
    (hbc : -2^63 ≤ b+c ∧ b+c < 2^63) : a = b+c := by
  unfold offT at h
  omega

variable {l l' : List (ℕ × Seg)} {start size N : ℤ} {type : MapType} {data : MapData} {alloc : Bool} {m : ℕ}

/-- A partition can only come from a partition, by an extent that fits. -/
theorem Carve.untiles (h : Carve l start size type data alloc (.ok m) l') (hr : ∀ e ∈ l, e.2.InOff)
    (hN : N < 2^63) (ht : Tiles 0 (l'.map Prod.snd) N) :
    Tiles 0 (l.map Prod.snd) N ∧ FitsOff start size := by
  cases h with
  | @replace xs n s ys h hs hz =>
    subst hs hz
    rw [h.split]
    simp only [List.map_append,List.map_cons] at ht ⊢
    obtain ⟨c,hx,hc,h₁,hy⟩ := (tiles_append _ _ _ _).mp ht
    have h₀ := hx.le
    have h₂ := hy.le
    dsimp only at hc h₁ h₂
    exact ⟨(tiles_append _ _ _ _).mpr ⟨c,hx,hc,h₁,hy⟩,by omega,h₁,by omega⟩
  | @front xs n s ys m h hs hm =>
    have hin := (hr (n,s) (by rw [h.split]; simp)).2
    rw [h.split]
    simp only [List.map_append,List.map_cons] at ht ⊢
    obtain ⟨c,hx,hc,h₁,hc',h₁',hy⟩ := (tiles_append _ _ _ _).mp ht
    have h₀ := hx.le
    have h₂ := hy.le
    simp only [newSeg] at hc h₁ hc' h₁' hy h₂
    have hsz : s.mapSize = size+offT (s.mapSize-size) := eq_add_of_offT_sub rfl hin (by omega)
    refine ⟨(tiles_append _ _ _ _).mpr ⟨c,hx,by omega,by omega,?_⟩,by omega,h₁,by omega⟩
    rw [hsz,← Int.add_assoc]
    exact hy
  | @tail xs n s ys m h hs he hm =>
    have hin := (hr (n,s) (by rw [h.split]; simp)).2
    rw [h.split]
    simp only [List.map_append,List.map_cons] at ht ⊢
    obtain ⟨c,hx,hc,h₁,hc',h₁',hy⟩ := (tiles_append _ _ _ _).mp ht
    have h₀ := hx.le
    have h₂ := hy.le
    simp only [newSeg] at hc h₁ hc' h₁' hy h₂
    have hsz : s.mapSize = size+offT (s.mapSize-size) := eq_add_of_offT_sub rfl hin (by omega)
    refine ⟨(tiles_append _ _ _ _).mpr ⟨c,hx,hc,by omega,?_⟩,by omega,h₁',by omega⟩
    rw [hsz,Int.add_comm size,← Int.add_assoc]
    exact hy
  | @middle xs n s ys m p h hs he hm hp =>
    have hin := (hr (n,s) (by rw [h.split]; simp)).2
    rw [h.split]
    simp only [List.map_append,List.map_cons] at ht ⊢
    obtain ⟨c,hx,hc,h₁,hc',h₁',hc'',h₁'',hy⟩ := (tiles_append _ _ _ _).mp ht
    have h₀ := hx.le
    have h₂ := hy.le
    simp only [newSeg] at hc h₁ hc' h₁' hc'' h₁'' hy h₂
    have hlen : offT (offT (start-s.mapStart)+size) = offT (start-s.mapStart)+size :=
      offT_of_lt (by omega) (by omega)
    rw [hlen] at hc'' h₁'' hy h₂
    have hsz : s.mapSize = offT (start-s.mapStart)+size+offT (s.mapSize-(offT (start-s.mapStart)+size)) :=
      eq_add_of_offT_sub rfl hin (by omega)
    refine ⟨(tiles_append _ _ _ _).mpr ⟨c,hx,hc,by omega,?_⟩,by omega,h₁',by omega⟩
    rw [hsz,← Int.add_assoc,← Int.add_assoc]
    exact hy

/-- What is in the map after an extent was added: what was there, the new segment, and unused pieces of
the one that was cut. -/
theorem Carve.mem (h : Carve l start size type data alloc (.ok m) l') {e : ℕ × Seg} (he : e ∈ l') :
    e ∈ l ∨ (e.1 = m ∧ e.2.mapStart = start ∧ e.2.mapSize = size ∧ e.2.mapType = type ∧ e.2.mapData = data) ∨
      (e.2.mapType = .unused ∧ (∃ x, e.2.mapSize = offT x) ∧
        ((∃ x, e.2.mapStart = offT x) ∨ ∃ e₀ ∈ l, e.2.mapStart = e₀.2.mapStart)) := by
  cases h with
  | @replace xs n s ys h hs hz =>
    rw [h.split]
    simp only [List.mem_append,List.mem_cons] at he ⊢
    obtain he | rfl | he := he
    · exact Or.inl (Or.inl he)
    · exact Or.inr (Or.inl ⟨rfl,hs,hz,rfl,rfl⟩)
    · exact Or.inl (Or.inr (Or.inr he))
  | @front xs n s ys m h hs hm =>
    rw [h.split]
    simp only [List.mem_append,List.mem_cons] at he ⊢
    obtain he | rfl | rfl | he := he
    · exact Or.inl (Or.inl he)
    · exact Or.inr (Or.inl ⟨rfl,rfl,rfl,rfl,rfl⟩)
    · exact Or.inr (Or.inr ⟨rfl,⟨_,rfl⟩,Or.inl ⟨_,rfl⟩⟩)
    · exact Or.inl (Or.inr (Or.inr he))
  | @tail xs n s ys m h hs hend hm =>
    rw [h.split]
    simp only [List.mem_append,List.mem_cons] at he ⊢
    obtain he | rfl | rfl | he := he
    · exact Or.inl (Or.inl he)
    · exact Or.inr (Or.inr ⟨rfl,⟨_,rfl⟩,Or.inr ⟨(n,s),Or.inr (Or.inl rfl),rfl⟩⟩)
    · exact Or.inr (Or.inl ⟨rfl,rfl,rfl,rfl,rfl⟩)
    · exact Or.inl (Or.inr (Or.inr he))
  | @middle xs n s ys m p h hs hend hm hp =>
    rw [h.split]
    simp only [List.mem_append,List.mem_cons] at he ⊢
    obtain he | rfl | rfl | rfl | he := he
    · exact Or.inl (Or.inl he)
    · exact Or.inr (Or.inr ⟨rfl,⟨_,rfl⟩,Or.inr ⟨(n,s),Or.inr (Or.inl rfl),rfl⟩⟩)
    · exact Or.inr (Or.inl ⟨rfl,rfl,rfl,rfl,rfl⟩)
    · exact Or.inr (Or.inr ⟨rfl,⟨_,rfl⟩,Or.inl ⟨_,rfl⟩⟩)
    · exact Or.inl (Or.inr (Or.inr he))

theorem Carve.inOff (h : Carve l start size type data alloc (.ok m) l') (hr : ∀ e ∈ l, e.2.InOff)
    (hst : -2^63 ≤ start ∧ start < 2^63) (hsz : -2^63 ≤ size ∧ size < 2^63) : ∀ e ∈ l', e.2.InOff := by
  intro e he
  obtain he | ⟨-,h₁,h₂,-⟩ | ⟨-,⟨x,h₂⟩,h₁⟩ := h.mem he
  · exact hr e he
  · rw [Seg.InOff,h₁,h₂]
    exact ⟨hst,hsz⟩
  · rw [Seg.InOff,h₂]
    refine ⟨?_,offT_range x⟩
    obtain ⟨y,h₁⟩ | ⟨e₀,he₀,h₁⟩ := h₁
    · rw [h₁]
      exact offT_range y
    · rw [h₁]
      exact (hr e₀ he₀).1

end Carving

section Heap
variable {g g' : Media} {start size N : ℤ} {type : MapType} {data : MapData} {alloc : Bool} {m : ℕ}

/-- A heap that holds a list of segments, whatever their extents. -/
def Sane (g : Media) : Prop := ∃ l, IsMap g l ∧ ∀ e ∈ l, e.2.InOff

/-- What one segment more does to a map. -/
structure Added (g : Media) (start size : ℤ) (type : MapType) (index : Option ℕ) (g' : Media) : Prop where
  sane : Sane g'
  tiles : ∀ N, N < 2^63 → (Tiles 0 (mapList g') N ↔ Tiles 0 (mapList g) N ∧ FitsOff start size)
  mem : ∀ s ∈ mapList g', s ∈ mapList g ∨ s.mapType = .unused ∨
    (s.mapStart = start ∧ s.mapSize = size ∧ s.mapType = type ∧ ∀ i ∈ index, s.mapIndex = i)

theorem mapAdd_added (h : mapAdd g start size type data alloc = (.ok m,g')) (hs : Sane g)
    (hst : -2^63 ≤ start ∧ start < 2^63) (hsz : -2^63 ≤ size ∧ size < 2^63) :
    Added g start size type none g' := by
  obtain ⟨l,hl,hr⟩ := hs
  obtain ⟨l',hl',hc⟩ := mapAdd_carve hl start size type data alloc
  rw [h] at hl' hc
  refine ⟨⟨l',hl',hc.inOff hr hst hsz⟩,?_,?_⟩
  · intro N hN
    rw [hl.mapList_eq,hl'.mapList_eq]
    exact ⟨hc.untiles hr hN,fun ht => hc.tiles ht.1 hN ht.2⟩
  · intro s hmem
    rw [hl.mapList_eq]
    rw [hl'.mapList_eq] at hmem
    obtain ⟨e,he,rfl⟩ := List.mem_map.mp hmem
    obtain he | ⟨-,h₁,h₂,h₃,-⟩ | ⟨hu,-⟩ := hc.mem he
    · exact Or.inl (List.mem_map_of_mem he)
    · exact Or.inr (Or.inr ⟨h₁,h₂,h₃,by simp⟩)
    · exact Or.inr (Or.inl hu)

/-- The index is written once the segment is there. -/
theorem mapAdd_index_added (h : mapAdd g start size type data alloc = (.ok m,g')) (hs : Sane g)
    (hst : -2^63 ≤ start ∧ start < 2^63) (hsz : -2^63 ≤ size ∧ size < 2^63) (i : ℕ) :
    Added g start size type (some i) (g'.modify m fun s => { s with mapIndex := i }) := by
  obtain ⟨l,hl,hr⟩ := hs
  obtain ⟨l',hl',hc⟩ := mapAdd_carve hl start size type data alloc
  rw [h] at hl' hc
  have hr' := hc.inOff hr hst hsz
  have htile : ∀ N, N < 2^63 → (Tiles 0 (l'.map Prod.snd) N ↔ Tiles 0 (l.map Prod.snd) N ∧ FitsOff start size) :=
    fun N hN => ⟨hc.untiles hr hN,fun ht => hc.tiles ht.1 hN ht.2⟩
  obtain ⟨e,he,hem,h₁,h₂,h₃,-⟩ := hc.extent
  obtain ⟨xs,ys,rfl⟩ := List.append_of_mem he
  obtain ⟨m',s⟩ := e
  dsimp only at hem h₁ h₂ h₃
  subst hem
  have hl'' : IsMap (g'.modify m' fun s => { s with mapIndex := i })
      (xs ++ (m',{ s with mapIndex := i }) :: ys) := by
    apply hl'.modify _ rfl rfl
    have := hl'.segs (m',s) (by simp)
    dsimp only at this ⊢
    rw [← this]
  refine ⟨⟨_,hl'',?_⟩,?_,?_⟩
  · intro e he
    simp only [List.mem_append,List.mem_cons] at he hr'
    obtain he | rfl | he := he
    · exact hr' e (Or.inl he)
    · exact hr' (m',s) (Or.inr (Or.inl rfl))
    · exact hr' e (Or.inr (Or.inr he))
  · intro N hN
    rw [hl.mapList_eq,hl''.mapList_eq,← htile N hN]
    simp only [List.map_append,List.map_cons,tiles_append]
    exact Iff.rfl
  · intro u hmem
    rw [hl.mapList_eq]
    rw [hl''.mapList_eq] at hmem
    simp only [List.map_append,List.map_cons,List.mem_append,List.mem_cons] at hmem
    -- the segments beside the new one have other numbers
    have hother : ∀ e ∈ xs ++ ys, e.2 ∈ l.map Prod.snd ∨ e.2.mapType = .unused := by
      intro e he
      have hne : e.1 ≠ m' := by
        have hnd := hl'.nodup
        simp only [List.map_append,List.map_cons,List.nodup_append,List.nodup_cons] at hnd
        obtain he | he := List.mem_append.mp he
        · exact hnd.2.2 e.1 (List.mem_map_of_mem he) m' (by simp)
        · intro hc
          exact hnd.2.1.1 (hc ▸ List.mem_map_of_mem he)
      have hmem' : e ∈ xs ++ (m',s) :: ys := by
        simp only [List.mem_append,List.mem_cons] at he ⊢
        tauto
      obtain he | ⟨h,-⟩ | ⟨hu,-⟩ := hc.mem hmem'
      · exact Or.inl (List.mem_map_of_mem he)
      · exact absurd h hne
      · exact Or.inr hu
    have hside : ∀ u ∈ (xs ++ ys).map Prod.snd, u ∈ l.map Prod.snd ∨ u.mapType = .unused := by
      intro u hu
      obtain ⟨e,he,rfl⟩ := List.mem_map.mp hu
      exact hother e he
    obtain hu | rfl | hu := hmem
    · exact (hside u (by simp [hu])).imp_right Or.inl
    · exact Or.inr (Or.inr ⟨h₁,h₂,h₃,by simp⟩)
    · exact (hside u (by simp [hu])).imp_right Or.inl

end Heap

section Extents
variable (im : Image) (nombr : Bool)

/-- A sector with the signature of an MBR. -/
def IsMbr (lba : ℤ) (b : Buf) : Prop := gptRead im lba 1 = some b ∧ leGet b.byte 510 2 = mbrSig

/-- The extents described by the MBR at a sector and by those it leads to. -/
inductive MbrExtent : ℤ → ℤ → ℤ → Prop
  | mbr {lba : ℤ} {b : Buf} : IsMbr im lba b → MbrExtent lba lba 1
  | part {lba : ℤ} {b : Buf} {i : ℕ} : IsMbr im lba b → ¬ isPmbr b.byte lba → i < 4 → ¬ mbrSkips nombr b.byte i →
      partTyp b.byte i ≠ dosptypExtlba → MbrExtent lba (mbrStart b.byte lba i) (partSize b.byte i)
  | ext {lba start size : ℤ} {b : Buf} {i : ℕ} : IsMbr im lba b → ¬ isPmbr b.byte lba → i < 4 →
      ¬ mbrSkips nombr b.byte i → partTyp b.byte i = dosptypExtlba →
      MbrExtent (mbrStart b.byte lba i) start size → MbrExtent lba start size

/-- A used entry of a table. -/
def Found.Used (f : Found) (i : ℕ) : Prop :=
  i < hdrEntries f.hdr.byte ∧ entType f.tbl.byte (entOfs f.hdr.byte i) ≠ 0

/-- The extents described by the GPT copy with its header at `lba`. -/
inductive GptExtent (lba : ℤ) : ℤ → ℤ → Prop
  | hdr {f : Found} : gptCheck im lba 0 = some (.ok f) → GptExtent lba lba 1
  | tbl {f : Found} : gptCheck im lba 0 = some (.ok f) →
      GptExtent lba (offT (hdrLbaTable f.hdr.byte)) (tblBlocks im.secsz f.hdr.byte)
  | ent {f : Found} {i : ℕ} : gptCheck im lba 0 = some (.ok f) → lba = 1 → f.Used i →
      GptExtent lba (entStart f.tbl.byte (entOfs f.hdr.byte i)) (entSize f.tbl.byte (entOfs f.hdr.byte i))

/-- The extents described by an image. -/
def Extent (start size : ℤ) : Prop :=
  MbrExtent im nombr 0 start size ∨ GptExtent im 1 start size ∨ GptExtent im ((im.devsz : ℤ)-1) start size

end Extents

/-- What reading a part of the image does to the map: it is a partition afterwards if it was one before
and the extents of that part fit. -/
structure Reads (g : Media) (ext : ℤ → ℤ → Prop) (parts : Seg → Prop) (g' : Media) : Prop where
  sane : Sane g'
  tiles : ∀ N, N < 2^63 → (Tiles 0 (mapList g') N ↔
    Tiles 0 (mapList g) N ∧ ∀ start size, ext start size → FitsOff start size)
  mem : ∀ s ∈ mapList g', s.mapType = .gptPart → s ∈ mapList g ∨ parts s

section Reads
variable {g g₁ g₂ : Media} {ext ext₁ ext₂ : ℤ → ℤ → Prop} {parts : Seg → Prop}

theorem Reads.refl (h : Sane g) : Reads g (fun _ _ => False) parts g :=
  ⟨h,fun _ _ => ⟨fun ht => ⟨ht,fun _ _ hf => hf.elim⟩,And.left⟩,fun _ hs _ => Or.inl hs⟩

theorem Reads.trans (h₁ : Reads g ext₁ parts g₁) (h₂ : Reads g₁ ext₂ parts g₂) :
    Reads g (fun a c => ext₁ a c ∨ ext₂ a c) parts g₂ := by
  refine ⟨h₂.sane,?_,?_⟩
  · intro N hN
    rw [h₂.tiles N hN,h₁.tiles N hN]
    constructor
    · intro h
      refine ⟨h.1.1,fun a c hac => ?_⟩
      obtain hac | hac := hac
      · exact h.1.2 a c hac
      · exact h.2 a c hac
    · intro h
      exact ⟨⟨h.1,fun a c hac => h.2 a c (Or.inl hac)⟩,fun a c hac => h.2 a c (Or.inr hac)⟩
  · intro s hs ht
    obtain hs | hp := h₂.mem s hs ht
    · exact h₁.mem s hs ht
    · exact Or.inr hp

theorem Reads.congr (h : Reads g ext parts g₁) (he : ∀ a c, ext a c ↔ ext₁ a c) : Reads g ext₁ parts g₁ := by
  have heq : ext = ext₁ := by
    funext a c
    exact propext (he a c)
  rwa [← heq]

theorem Added.reads (parts : Seg → Prop) {start size : ℤ} {type : MapType} {index : Option ℕ}
    (h : Added g start size type index g₁)
    (hp : type = .gptPart → ∀ s : Seg, s.mapStart = start → s.mapSize = size →
      (∀ i ∈ index, s.mapIndex = i) → parts s) :
    Reads g (fun a c => a = start ∧ c = size) parts g₁ := by
  refine ⟨h.sane,?_,?_⟩
  · intro N hN
    rw [h.tiles N hN]
    constructor
    · intro ht
      refine ⟨ht.1,fun a c hac => ?_⟩
      rw [hac.1,hac.2]
      exact ht.2
    · intro ht
      exact ⟨ht.1,ht.2 start size ⟨rfl,rfl⟩⟩
  · intro s hs ht
    obtain hs | hu | ⟨h₁,h₂,h₃,h₄⟩ := h.mem s hs
    · exact Or.inl hs
    · rw [hu] at ht
      cases ht
    · exact Or.inr (hp (h₃.symm.trans ht) s h₁ h₂ h₄)

end Reads

theorem off_of_nat {n : ℕ} (h : n < 2^32) : -2^63 ≤ (n : ℤ) ∧ (n : ℤ) < 2^63 := by omega

section Mbr
variable {im : Image} {nombr : Bool}

theorem partSize_lt (mbr : ℕ → UInt8) (i : ℕ) : partSize mbr i < 2^32 := by
  have := leGet_lt mbr (446+16*i+12) 4
  norm_num at this ⊢
  exact this

/-- The extents that slot `j` of the MBR at `lba` describes. -/
def SlotExtent (im : Image) (nombr : Bool) (mbr : ℕ → UInt8) (lba : ℤ) (j : ℕ) (a c : ℤ) : Prop :=
  ¬ mbrSkips nombr mbr j ∧ ((partTyp mbr j ≠ dosptypExtlba ∧ a = mbrStart mbr lba j ∧ c = partSize mbr j) ∨
    (partTyp mbr j = dosptypExtlba ∧ MbrExtent im nombr (mbrStart mbr lba j) a c))

theorem mbrParts_reads {sub : Media → ℤ → Option (ℤ × Media)}
    (hsub : ∀ g lba r g', sub g lba = some (r,g') → r ≠ -1 → Sane g → -2^63 ≤ lba ∧ lba < 2^63 →
      Reads g (MbrExtent im nombr lba) (fun _ => False) g')
    {mbr : ℕ → UInt8} {lba r : ℤ} {p k i : ℕ} {g g' : Media}
    (h : mbrParts sub nombr mbr lba p k i g = some (r,g')) (hr : r ≠ -1) (hs : Sane g) :
    Reads g (fun a c => ∃ j, i ≤ j ∧ j < i+k ∧ SlotExtent im nombr mbr lba j a c) (fun _ => False) g' := by
  induction k generalizing i g with
  | zero =>
    simp only [mbrParts,Option.some.injEq,Prod.mk.injEq] at h
    rw [← h.2]
    apply (Reads.refl hs).congr
    intro a c
    constructor
    · exact False.elim
    · rintro ⟨j,h₁,h₂,-⟩
      omega
  | succ k ih =>
    -- what the slot in hand describes, and the others after it
    have hsplit : ∀ a c, (SlotExtent im nombr mbr lba i a c ∨
        ∃ j, i+1 ≤ j ∧ j < i+1+k ∧ SlotExtent im nombr mbr lba j a c) ↔
        ∃ j, i ≤ j ∧ j < i+(k+1) ∧ SlotExtent im nombr mbr lba j a c := by
      intro a c
      constructor
      · rintro (h | ⟨j,h₁,h₂,h₃⟩)
        · exact ⟨i,le_rfl,by omega,h⟩
        · exact ⟨j,by omega,by omega,h₃⟩
      · rintro ⟨j,h₁,h₂,h₃⟩
        by_cases hj : j = i
        · subst hj
          exact Or.inl h₃
        · exact Or.inr ⟨j,by omega,by omega,h₃⟩
    unfold mbrParts at h
    split_ifs at h with hskip htyp
    · apply (ih h hs).congr
      intro a c
      rw [← hsplit]
      simp [SlotExtent,hskip]
    · split at h
      · simp only [Option.some.injEq,Prod.mk.injEq] at h
        exact absurd h.1.symm hr
      · rename_i m g₁ hadd
        have hadded := (mapAdd_index_added hadd hs (offT_range _) (off_of_nat (partSize_lt mbr i)) (i+1)).reads
          (fun _ => False) (fun hc => by cases hc)
        apply (hadded.trans (ih h hadded.sane)).congr
        intro a c
        rw [← hsplit]
        simp [SlotExtent,hskip,htyp]
    · rw [not_not] at htyp
      split at h
      · cases h
      · rename_i r₁ g₁ hrec
        split_ifs at h with hr₁
        · simp only [Option.some.injEq,Prod.mk.injEq] at h
          exact absurd h.1.symm hr
        · have hin := hsub _ _ _ _ hrec hr₁ hs (offT_range _)
          apply (hin.trans (ih h hin.sane)).congr
          intro a c
          rw [← hsplit]
          simp [SlotExtent,hskip,htyp]

theorem isMbr_unique {lba : ℤ} {b b' : Buf} (h : IsMbr im lba b) (h' : IsMbr im lba b') : b = b' := by
  have := h.1.symm.trans h'.1
  cases this
  rfl

/-- The extents of an MBR are those of its own sector and of its slots. -/
theorem mbrExtent_iff {lba a c : ℤ} {b : Buf} (hb : IsMbr im lba b) : MbrExtent im nombr lba a c ↔
    (a = lba ∧ c = 1) ∨ (¬ isPmbr b.byte lba ∧ ∃ j, 0 ≤ j ∧ j < 0+4 ∧ SlotExtent im nombr b.byte lba j a c) := by
  constructor
  · intro h
    cases h with
    | mbr _ => exact Or.inl ⟨rfl,rfl⟩
    | part hb' hp hi hs ht =>
      cases isMbr_unique hb hb'
      exact Or.inr ⟨hp,_,by omega,by omega,hs,Or.inl ⟨ht,rfl,rfl⟩⟩
    | ext hb' hp hi hs ht hin =>
      cases isMbr_unique hb hb'
      exact Or.inr ⟨hp,_,by omega,by omega,hs,Or.inr ⟨ht,hin⟩⟩
  · rintro (⟨rfl,rfl⟩ | ⟨hp,j,-,hj,hs,⟨ht,rfl,rfl⟩ | ⟨ht,hin⟩⟩)
    · exact .mbr hb
    · exact .part hb hp (by omega) hs ht
    · exact .ext hb hp (by omega) hs ht hin

theorem gptMbr_reads (fuel : ℕ) {g g' : Media} {lba r : ℤ} (h : gptMbr im nombr fuel g lba = some (r,g'))
    (hr : r ≠ -1) (hs : Sane g) (hlba : -2^63 ≤ lba ∧ lba < 2^63) :
    Reads g (MbrExtent im nombr lba) (fun _ => False) g' := by
  induction fuel generalizing g g' lba r with
  | zero => cases h
  | succ fuel ih =>
    unfold gptMbr at h
    split at h
    · simp only [Option.some.injEq,Prod.mk.injEq] at h
      exact absurd h.1.symm hr
    · rename_i b hread
      split_ifs at h with hsig hpmbr
      · simp only [Option.some.injEq,Prod.mk.injEq] at h
        rw [← h.2]
        -- without the signature nothing is described here
        have hno : ∀ b', ¬ IsMbr im lba b' := by
          intro b' hb'
          rw [IsMbr,hread,Option.some.injEq] at hb'
          exact hsig (hb'.1 ▸ hb'.2)
        apply (Reads.refl hs).congr
        intro a c
        constructor
        · exact False.elim
        · intro hext
          cases hext with
          | mbr hb => exact hno _ hb
          | part hb _ _ _ _ => exact hno _ hb
          | ext hb _ _ _ _ _ => exact hno _ hb
      · have hb : IsMbr im lba b := ⟨hread,not_not.mp hsig⟩
        split at h
        · simp only [Option.some.injEq,Prod.mk.injEq] at h
          exact absurd h.1.symm hr
        · rename_i m g₁ hadd
          simp only [Option.some.injEq,Prod.mk.injEq] at h
          rw [← h.2]
          have hadded := (mapAdd_added hadd hs hlba (by omega)).reads (fun _ => False)
            (fun hc => by cases hc)
          apply hadded.congr
          intro a c
          rw [mbrExtent_iff hb]
          simp [hpmbr]
      · have hb : IsMbr im lba b := ⟨hread,not_not.mp hsig⟩
        split at h
        · simp only [Option.some.injEq,Prod.mk.injEq] at h
          exact absurd h.1.symm hr
        · rename_i p g₁ hadd
          have hadded := (mapAdd_added hadd hs hlba (by omega)).reads (fun _ => False)
            (fun hc => by cases hc)
          have hparts := mbrParts_reads (fun g lba r g' h hr hs hl => ih h hr hs hl) h hr hadded.sane
          apply (hadded.trans hparts).congr
          intro a c
          rw [mbrExtent_iff hb]
          simp only [hpmbr,not_false_eq_true,true_and]

end Mbr

section Gpt
variable {im : Image}

/-- The segment of entry `i` of a table. -/
def Found.Part (f : Found) (s : Seg) : Prop := ∃ i, f.Used i ∧ s.mapIndex = i+1 ∧
  s.mapStart = entStart f.tbl.byte (entOfs f.hdr.byte i) ∧ s.mapSize = entSize f.tbl.byte (entOfs f.hdr.byte i)

/-- The extent of entry `j`, if it is used. -/
def Found.EntExtent (f : Found) (j : ℕ) (a c : ℤ) : Prop :=
  entType f.tbl.byte (entOfs f.hdr.byte j) ≠ 0 ∧ a = entStart f.tbl.byte (entOfs f.hdr.byte j) ∧
    c = entSize f.tbl.byte (entOfs f.hdr.byte j)

theorem gptEntries_reads {f : Found} {k i : ℕ} {g g' : Media} {r : ℤ}
    (h : gptEntries f.hdr.byte f.tbl k i g = some (r,g')) (hr : r ≠ -1) (hs : Sane g)
    (hk : i+k = hdrEntries f.hdr.byte) :
    Reads g (fun a c => ∃ j, i ≤ j ∧ j < i+k ∧ f.EntExtent j a c) f.Part g' := by
  induction k generalizing i g with
  | zero =>
    simp only [gptEntries,Option.some.injEq,Prod.mk.injEq] at h
    rw [← h.2]
    apply (Reads.refl hs).congr
    intro a c
    constructor
    · exact False.elim
    · rintro ⟨j,h₁,h₂,-⟩
      omega
  | succ k ih =>
    have hsplit : ∀ a c, (f.EntExtent i a c ∨ ∃ j, i+1 ≤ j ∧ j < i+1+k ∧ f.EntExtent j a c) ↔
        ∃ j, i ≤ j ∧ j < i+(k+1) ∧ f.EntExtent j a c := by
      intro a c
      constructor
      · rintro (h | ⟨j,h₁,h₂,h₃⟩)
        · exact ⟨i,le_rfl,by omega,h⟩
        · exact ⟨j,by omega,by omega,h₃⟩
      · rintro ⟨j,h₁,h₂,h₃⟩
        by_cases hj : j = i
        · subst hj
          exact Or.inl h₃
        · exact Or.inr ⟨j,by omega,by omega,h₃⟩
    unfold gptEntries at h
    dsimp only at h
    split_ifs at h with hout hnil hout'
    · apply (ih h hs (by omega)).congr
      intro a c
      rw [← hsplit]
      simp [Found.EntExtent,hnil]
    · split at h
      · simp only [Option.some.injEq,Prod.mk.injEq] at h
        exact absurd h.1.symm hr
      · rename_i m g₁ hadd
        have hadded := (mapAdd_index_added hadd hs (offT_range _) (offT_range _) (i+1)).reads f.Part
          (fun _ s h₁ h₂ h₃ => ⟨i,⟨by omega,hnil⟩,h₃ (i+1) rfl,h₁,h₂⟩)
        apply (hadded.trans (ih h hadded.sane (by omega))).congr
        intro a c
        rw [← hsplit]
        simp [Found.EntExtent,hnil]

/-- What a copy that passes all checks looks like. -/
theorem gptCheck_ok_iff {lba found : ℤ} {f : Found} : gptCheck im lba found = some (.ok f) ↔
    ∃ b p, gptRead im lba 1 = some b ∧ hdrSig b.byte = gptHdrSig ∧ hdrSize b.byte ≤ b.size ∧
      hdrCrc b.byte = hdrCrcSelf b.byte ∧
      gptRead im (offT (hdrLbaTable b.byte)) (tblBlocks im.secsz b.byte) = some p ∧
      crc32 p.byte (tblsz b.byte) = hdrCrcTable b.byte ∧ f = ⟨⟨b.size,setCrcSelf b.byte 0⟩,p⟩ := by
  unfold gptCheck
  cases hread : gptRead im lba 1 with
  | none =>
    constructor
    · intro h
      cases h
    · rintro ⟨b,p,hb,-⟩
      cases hb
  | some b =>
    have hf := sameFields_setCrcSelf b.byte 0
    have ht : tblsz (setCrcSelf b.byte 0) = tblsz b.byte := by rw [tblsz,tblsz,hf.entries,hf.entsz]
    have hb : tblBlocks im.secsz (setCrcSelf b.byte 0) = tblBlocks im.secsz b.byte := by
      rw [tblBlocks,tblBlocks,ht]
    have hcrc : crc32 (setCrcSelf b.byte 0) (hdrSize b.byte) = hdrCrc b.byte := rfl
    simp only [hf.size,hf.lbaTable,ht,hb,hdrCrcTable_setCrcSelf,hcrc,Option.some.injEq]
    constructor
    · intro h
      by_cases h₁ : hdrSig b.byte = gptHdrSig
      · rw [if_neg (not_not.mpr h₁)] at h
        by_cases h₂ : b.size < hdrSize b.byte
        · rw [if_pos h₂] at h
          cases h
        · rw [if_neg h₂] at h
          by_cases h₃ : hdrCrc b.byte = hdrCrcSelf b.byte
          · rw [if_neg (not_not.mpr h₃)] at h
            cases htbl : gptRead im (offT (hdrLbaTable b.byte)) (tblBlocks im.secsz b.byte) with
            | none =>
              rw [htbl] at h
              cases h
            | some p =>
              rw [htbl] at h
              dsimp only at h
              by_cases h₄ : crc32 p.byte (tblsz b.byte) = hdrCrcTable b.byte
              · rw [if_neg (not_not.mpr h₄)] at h
                cases h
                exact ⟨b,p,rfl,h₁,not_lt.mp h₂,h₃,htbl,h₄,rfl⟩
              · rw [if_pos h₄] at h
                cases h
          · rw [if_pos h₃] at h
            cases h
      · rw [if_pos h₁] at h
        cases h
    · rintro ⟨b',p,rfl,h₁,h₂,h₃,htbl,h₄,rfl⟩
      rw [if_neg (not_not.mpr h₁),if_neg h₂.not_gt,if_neg (not_not.mpr h₃),htbl]
      dsimp only
      rw [if_neg (not_not.mpr h₄)]

theorem gptCheck_ok {lba found : ℤ} {f : Found} (h : gptCheck im lba found = some (.ok f)) (found' : ℤ) :
    gptCheck im lba found' = some (.ok f) := gptCheck_ok_iff.mpr (gptCheck_ok_iff.mp h)

theorem tblsz_lt (hdr : ℕ → UInt8) : tblsz hdr < 2^32 := Nat.mod_lt _ (by norm_num)

theorem tblBlocks_lt (im : Image) (hdr : ℕ → UInt8) : tblBlocks im.secsz hdr < 2^32 := by
  have h₁ := tblsz_lt hdr
  have h₂ : tblsz hdr/im.secsz ≤ tblsz hdr/512 := Nat.div_le_div_left im.secsz_ge (by norm_num)
  unfold tblBlocks
  split_ifs <;> omega

theorem gptMap_reads {lba r : ℤ} {f : Found} {g g' : Media} (h : gptMap im g lba f = some (r,g')) (hr : r ≠ -1)
    (hs : Sane g) (hlba : -2^63 ≤ lba ∧ lba < 2^63) :
    Reads g (fun a c => ((a = lba ∧ c = 1) ∨
        (a = offT (hdrLbaTable f.hdr.byte) ∧ c = tblBlocks im.secsz f.hdr.byte)) ∨
        (lba = 1 ∧ ∃ j, 0 ≤ j ∧ j < 0+hdrEntries f.hdr.byte ∧ f.EntExtent j a c))
      (fun s => lba = 1 ∧ f.Part s) g' := by
  unfold gptMap at h
  split at h
  · simp only [Option.some.injEq,Prod.mk.injEq] at h
    exact absurd h.1.symm hr
  · rename_i m g₁ hadd
    have h₁ := (mapAdd_added hadd hs hlba (by omega)).reads (fun s => lba = 1 ∧ f.Part s)
      (fun hc => by split_ifs at hc)
    split at h
    · simp only [Option.some.injEq,Prod.mk.injEq] at h
      exact absurd h.1.symm hr
    · rename_i m' g₂ hadd'
      have h₂ := (mapAdd_added hadd' h₁.sane (offT_range _) (off_of_nat (tblBlocks_lt im _))).reads
        (fun s => lba = 1 ∧ f.Part s) (fun hc => by split_ifs at hc)
      split_ifs at h with hne
      · simp only [Option.some.injEq,Prod.mk.injEq] at h
        rw [← h.2]
        apply (h₁.trans h₂).congr
        intro a c
        simp only [hne,false_and,or_false]
      · have h₃ := gptEntries_reads h hr h₂.sane (by omega)
        have h₃' : Reads g₂ _ (fun s => lba = 1 ∧ f.Part s) g' :=
          ⟨h₃.sane,h₃.tiles,fun s hm ht => (h₃.mem s hm ht).imp_right fun hp => ⟨not_not.mp hne,hp⟩⟩
        apply ((h₁.trans h₂).trans h₃').congr
        intro a c
        simp only [not_not.mp hne,true_and]

theorem gptGpt_reads {lba found r : ℤ} {g g' : Media} (h : gptGpt im g lba found = some (r,g')) (hr : r ≠ -1)
    (hs : Sane g) (hlba : -2^63 ≤ lba ∧ lba < 2^63) :
    Reads g (GptExtent im lba) (fun s => lba = 1 ∧ ∃ f, gptCheck im 1 1 = some (.ok f) ∧ f.Part s) g' := by
  unfold gptGpt at h
  cases hc : gptCheck im lba found with
  | none => simp [hc] at h
  | some x =>
    rw [hc] at h
    cases x with
    | error v =>
      dsimp only at h
      cases h
      apply (Reads.refl hs).congr
      intro a c
      have hno : ∀ f, gptCheck im lba 0 ≠ some (.ok f) := by
        intro f hf
        rw [gptCheck_ok hf found] at hc
        cases hc
      constructor
      · exact False.elim
      · intro hext
        cases hext with
        | hdr hf => exact hno _ hf
        | tbl hf => exact hno _ hf
        | ent hf _ _ => exact hno _ hf
    | ok f =>
      have h₁ := gptMap_reads h hr hs hlba
      have h₀ := gptCheck_ok hc 0
      have hmem : ∀ s ∈ mapList g', s.mapType = .gptPart → s ∈ mapList g ∨
          (lba = 1 ∧ ∃ f, gptCheck im 1 1 = some (.ok f) ∧ f.Part s) := by
        intro s hm ht
        refine (h₁.mem s hm ht).imp_right fun hp => ⟨hp.1,f,?_,hp.2⟩
        have h₁ := gptCheck_ok hc 1
        rwa [hp.1] at h₁
      have hread : Reads g _ (fun s => lba = 1 ∧ ∃ f, gptCheck im 1 1 = some (.ok f) ∧ f.Part s) g' :=
        ⟨h₁.sane,h₁.tiles,hmem⟩
      apply hread.congr
      intro a c
      constructor
      · rintro ((⟨ha,hc⟩ | ⟨ha,hc⟩) | ⟨hl,j,-,hj,ht,ha,hc⟩)
        · rw [ha,hc]
          exact .hdr h₀
        · rw [ha,hc]
          exact .tbl h₀
        · rw [ha,hc]
          exact .ent h₀ hl ⟨by rwa [Nat.zero_add] at hj,ht⟩
      · intro hext
        have huniq : ∀ f', gptCheck im lba 0 = some (.ok f') → f' = f := by
          intro f' hf'
          rw [h₀] at hf'
          cases hf'
          rfl
        cases hext with
        | hdr hf => exact Or.inl (Or.inl ⟨rfl,rfl⟩)
        | tbl hf =>
          cases huniq _ hf
          exact Or.inl (Or.inr ⟨rfl,rfl⟩)
        | @ent f' i hf hl hu =>
          cases huniq _ hf
          exact Or.inr ⟨hl,i,Nat.zero_le i,by rw [Nat.zero_add]; exact hu.1,hu.2,rfl,rfl⟩

end Gpt

theorem Image.devsz_lt (im : Image) : (im.devsz : ℤ) < 2^54 := by
  have h₁ := im.mediasz_lt
  have h₂ : im.devsz ≤ im.mediasz/512 := Nat.div_le_div_left im.secsz_ge (by norm_num)
  omega

theorem sane_mapInit {g₀ g : Media} {N : ℤ} (h : mapInit g₀ N = some g) (hN : 0 ≤ N ∧ N < 2^63) :
    Sane g ∧ (Tiles 0 (mapList g) N ↔ 1 ≤ N) ∧ ∀ s ∈ mapList g, s.mapType ≠ .gptPart := by
  obtain ⟨⟨m,hm⟩,-⟩ := mapInit_isMap h
  refine ⟨⟨_,hm,?_⟩,?_,?_⟩
  · intro e he
    simp only [List.mem_singleton] at he
    subst he
    simp only [Seg.InOff,newSeg]
    omega
  · rw [hm.mapList_eq]
    simp [Tiles,newSeg]
  · intro s hs
    rw [hm.mapList_eq] at hs
    simp only [List.map_cons,List.map_nil,List.mem_singleton] at hs
    subst hs
    simp [newSeg]

/-- What `gpt_open` has read when it succeeds. -/
theorem gptOpen_reads {fuel : ℕ} {nombr : Bool} {calloc : ℕ → Bool} {im : Image} {g : Media}
    (h : gptOpen fuel nombr calloc im = some (some g)) : Sane g ∧
      (Tiles 0 (mapList g) im.devsz ↔ ∀ start size, Extent im nombr start size → FitsOff start size) ∧
      ∀ s ∈ mapList g, s.mapType = .gptPart → ∃ f, gptCheck im 1 1 = some (.ok f) ∧ f.Part s := by
  have hN := im.devsz_lt
  unfold gptOpen at h
  split_ifs at h with hsmall
  · simp at h
  · split at h
    · simp at h
    · rename_i g₀ hinit
      obtain ⟨hs₀,ht₀,hp₀⟩ := sane_mapInit hinit ⟨by omega,by omega⟩
      split at h
      · simp at h
      · rename_i r₁ g₁ hmbr
        split_ifs at h with hr₁
        · simp at h
        · have hm := gptMbr_reads fuel hmbr hr₁ hs₀ (by omega)
          split at h
          · simp at h
          · rename_i found g₂ hpri
            split_ifs at h with hr₂
            · simp at h
            · have hp := gptGpt_reads hpri hr₂ hm.sane (by omega)
              split at h
              · simp at h
              · rename_i r₃ g₃ hsec
                split_ifs at h with hr₃
                · simp at h
                · simp only [Option.some.injEq] at h
                  subst h
                  have hb := gptGpt_reads hsec hr₃ hp.sane (by omega)
                  refine ⟨hb.sane,?_,?_⟩
                  · rw [hb.tiles _ (by omega),hp.tiles _ (by omega),hm.tiles _ (by omega),ht₀]
                    constructor
                    · rintro ⟨⟨⟨-,hm⟩,hp⟩,hb⟩ start size hext
                      obtain hext | hext | hext := hext
                      · exact hm start size hext
                      · exact hp start size hext
                      · exact hb start size hext
                    · intro hall
                      exact ⟨⟨⟨by omega,fun a c h => hall a c (Or.inl h)⟩,
                        fun a c h => hall a c (Or.inr (Or.inl h))⟩,fun a c h => hall a c (Or.inr (Or.inr h))⟩
                  · intro s hs ht
                    obtain hs | hpart := hb.mem s hs ht
                    · obtain hs | hpart := hp.mem s hs ht
                      · obtain hs | hpart := hm.mem s hs ht
                        · exact absurd ht (hp₀ s hs)
                        · exact hpart.elim
                      · exact hpart.2
                    · exact hpart.2

/-- The map is a partition of the device, and the segment of a GPT partition has the extent of the entry it
is numbered after. -/
structure SoundMap (im : Image) (g : Media) : Prop where
  wellFormed : WellFormed g im.devsz
  parts : ∀ s ∈ mapList g, s.mapType = .gptPart → ∃ f, gptCheck im 1 1 = some (.ok f) ∧
    1 ≤ s.mapIndex ∧ s.mapIndex ≤ hdrEntries f.hdr.byte ∧
    s.mapStart = entLbaStart f.tbl.byte (entOfs f.hdr.byte (s.mapIndex-1)) ∧
    s.mapStart+s.mapSize-1 = entLbaEnd f.tbl.byte (entOfs f.hdr.byte (s.mapIndex-1))

theorem ent_extent {t : ℕ → UInt8} {o : ℕ} (h₀ : 0 ≤ entStart t o) (h₁ : 1 ≤ entSize t o)
    (h₂ : entStart t o+entSize t o < 2^63) :
    entStart t o = entLbaStart t o ∧ entStart t o+entSize t o-1 = entLbaEnd t o := by
  have hs : entLbaStart t o < 2^64 := by
    have := leGet_lt t (o+32) 8
    norm_num at this ⊢
    exact this
  have he : entLbaEnd t o < 2^64 := by
    have := leGet_lt t (o+40) 8
    norm_num at this ⊢
    exact this
  unfold entStart entSize offT at *
  omega

/-- When `gpt_open` succeeds its map is sound exactly if every extent that the image describes is not
empty, not inverted and of a representable end. -/
theorem gptOpen_sound_iff {fuel : ℕ} {nombr : Bool} {calloc : ℕ → Bool} {im : Image} {g : Media}
    (h : gptOpen fuel nombr calloc im = some (some g)) :
    SoundMap im g ↔ ∀ start size, Extent im nombr start size → FitsOff start size := by
  obtain ⟨⟨l,hl,-⟩,htiles,hparts⟩ := gptOpen_reads h
  have hN := im.devsz_lt
  constructor
  · intro hs
    exact htiles.mp hs.wellFormed.tiles
  · intro hall
    have ht := htiles.mpr hall
    refine ⟨hl.wellFormed (hl.mapList_eq ▸ ht),?_⟩
    intro s hs hpart
    obtain ⟨f,hf,i,hu,hi,h₁,h₂⟩ := hparts s hs hpart
    obtain ⟨h₃,h₄,h₅⟩ := ht.mem hs
    rw [h₁,h₂] at h₅
    rw [h₁] at h₃
    rw [h₂] at h₄
    obtain ⟨e₁,e₂⟩ := ent_extent h₃ h₄ (by omega)
    refine ⟨f,hf,by omega,by rw [hi]; exact hu.1,?_,?_⟩
    · rw [hi,Nat.add_sub_cancel,h₁,e₁]
    · rw [hi,Nat.add_sub_cancel,h₁,h₂,e₂]

/-- An image of six sectors with an MBR that has one partition of `size` sectors at sector 3. -/
def mbrImage (size : ℕ) : Image :=
  .ofSectors 6 (lePut (lePut (lePut (lePut (fun _ => 0) 450 1 0x83) 454 4 3) 458 4 size) 510 2 mbrSig)

theorem gptOpen_sound_iff_mbr : ∃ g, gptOpen 1 false (fun _ => true) (mbrImage 2) = some (some g) ∧
    (SoundMap (mbrImage 2) g ↔ ∀ start size, Extent (mbrImage 2) false start size → FitsOff start size) := by
  have h : (gptOpen 1 false (fun _ => true) (mbrImage 2)).map (fun o => o.isSome) = some true := by
    decide
  obtain ⟨o,ho,h⟩ := Option.map_eq_some_iff.mp h
  obtain ⟨g,rfl⟩ := Option.isSome_iff_exists.mp h
  exact ⟨g,ho,gptOpen_sound_iff ho⟩

/-- An empty partition is taken into the map. -/
theorem gptOpen_empty_segment : ∃ g, gptOpen 1 false (fun _ => true) (mbrImage 0) = some (some g) ∧
    6 ≤ (mbrImage 0).devsz ∧ ¬ SoundMap (mbrImage 0) g := by
  have h : (gptOpen 1 false (fun _ => true) (mbrImage 0)).map (fun o => o.map fun g =>
      (mapList g).any fun s => s.mapSize = 0) = some (some true) := by decide
  obtain ⟨o,ho,h⟩ := Option.map_eq_some_iff.mp h
  obtain ⟨g,rfl,hg⟩ := Option.map_eq_some_iff.mp h
  refine ⟨g,ho,by decide,?_⟩
  intro hs
  obtain ⟨s,hmem,hz⟩ := List.any_eq_true.mp hg
  have := (hs.wellFormed.tiles.mem hmem).2.1
  rw [decide_eq_true_eq] at hz
  omega

end Blub.Fgdisk
