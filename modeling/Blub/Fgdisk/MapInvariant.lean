import Blub.Fgdisk.MapSpec

/-! The media map partitions the device. Every list of segments that `map_add` can reach from
`map_init` tiles `[0, N)`, and a call changes the type of no sector outside its extent, apart
from the rest of an MBR partition that a GPT partition cuts up. -/
namespace Blub.Fgdisk
open DList

/-- The segments follow each other from `a` to `b` without gap or overlap. -/
def Tiles : ℤ → List Seg → ℤ → Prop
  | a, [], b => a = b
  | a, s :: l, b => s.mapStart = a ∧ 1 ≤ s.mapSize ∧ Tiles (a+s.mapSize) l b

attribute [local grind =] Tiles

theorem tiles_append (a b : ℤ) (l₁ l₂ : List Seg) :
    Tiles a (l₁ ++ l₂) b ↔ ∃ c, Tiles a l₁ c ∧ Tiles c l₂ b := by
  induction l₁ generalizing a with
  | nil => simp [Tiles]
  | cons s l₁ ih =>
    simp only [List.cons_append, Tiles, ih]
    constructor
    · rintro ⟨hs,hz,c,h₁,h₂⟩
      exact ⟨c,⟨hs,hz,h₁⟩,h₂⟩
    · rintro ⟨c,⟨hs,hz,h₁⟩,h₂⟩
      exact ⟨hs,hz,c,h₁,h₂⟩

theorem Tiles.le {a b : ℤ} {l : List Seg} (h : Tiles a l b) : a ≤ b := by
  induction l generalizing a with
  | nil => exact le_of_eq h
  | cons s l ih =>
    obtain ⟨-,hz,ht⟩ := h
    have := ih ht
    omega

theorem Tiles.mem {a b : ℤ} {l : List Seg} (h : Tiles a l b) {s : Seg} (hs : s ∈ l) :
    a ≤ s.mapStart ∧ 1 ≤ s.mapSize ∧ s.mapStart+s.mapSize ≤ b := by
  obtain ⟨xs,ys,rfl⟩ := List.append_of_mem hs
  obtain ⟨c,h₁,hst,hz,h₂⟩ := (tiles_append _ _ _ _).mp h
  have := h₁.le
  have := h₂.le
  omega

/-- Where a tiling is cut, the segments before it end no later than `start` if each does. -/
theorem Tiles.cut_le {a c start : ℤ} {xs : List Seg} (h : Tiles a xs c) (ha : a ≤ start)
    (hc : -2^63 ≤ a ∧ c < 2^63) (hx : ∀ s ∈ xs, s.end ≤ start) : c ≤ start := by
  rcases xs.eq_nil_or_concat with rfl | ⟨xs,z,rfl⟩
  · exact (show a = c from h) ▸ ha
  · rw [List.concat_eq_append] at h hx
    obtain ⟨d,h₁,hst,hz,h₂⟩ := (tiles_append _ _ _ _).mp h
    have hend := hx z (by simp)
    have := h₁.le
    have hc' : d+z.mapSize = c := h₂
    rw [Seg.end, offT_of_lt (by omega) (by omega)] at hend
    omega

/-- The extent of one `map_add` call lies in the non-negative `off_t` range. -/
def FitsOff (start size : ℤ) : Prop := 0 ≤ start ∧ 1 ≤ size ∧ start+size < 2^63

/-- What a site looks like inside a tiling. -/
theorem Site.tiles {l xs ys : List (ℕ × Seg)} {start size N : ℤ} {n : ℕ} {s : Seg}
    (h : Site l start size xs n s ys) (ht : Tiles 0 (l.map Prod.snd) N) (hN : N < 2^63)
    (hf : FitsOff start size) :
    Tiles 0 (xs.map Prod.snd) s.mapStart ∧ Tiles (s.mapStart+s.mapSize) (ys.map Prod.snd) N ∧
      1 ≤ s.mapSize ∧ 0 ≤ s.mapStart ∧ s.mapStart ≤ start ∧ start+size ≤ s.mapStart+s.mapSize ∧
      s.mapStart+s.mapSize ≤ N ∧ s.end = s.mapStart+s.mapSize ∧ offT (start+size) = start+size := by
  obtain ⟨h0,h1,h2⟩ := hf
  simp only [h.split, List.map_append, List.map_cons] at ht
  obtain ⟨c,h₁,rfl,hz,h₂⟩ := (tiles_append _ _ _ _).mp ht
  have hle₁ := h₁.le
  have hle₂ := h₂.le
  have hend : s.end = s.mapStart+s.mapSize := offT_of_lt (by omega) (by omega)
  have hoff : offT (start+size) = start+size := offT_of_lt (by omega) (by omega)
  have hfit := h.fits
  rw [hend, hoff] at hfit
  refine ⟨h₁,h₂,hz,hle₁,h₁.cut_le h0 (by omega) ?_,hfit,hle₂,hend,hoff⟩
  intro t ht
  obtain ⟨e,he,rfl⟩ := List.mem_map.mp ht
  exact h.before e he

/-- `map_add` keeps the tiling. -/
theorem Carve.tiles {l l' : List (ℕ × Seg)} {start size N : ℤ} {type : MapType} {data : MapData}
    {alloc : Bool} {r : Except MapError ℕ} (h : Carve l start size type data alloc r l')
    (ht : Tiles 0 (l.map Prod.snd) N) (hN : N < 2^63) (hf : FitsOff start size) :
    Tiles 0 (l'.map Prod.snd) N := by
  have hf' := hf
  obtain ⟨h0,h1,h2⟩ := hf'
  cases h with
  | fail e => exact ht
  | oom h =>
    obtain ⟨hx,hy,hz,-⟩ := h.toSite.tiles ht hN hf
    simp only [List.map_append, List.map_cons]
    exact (tiles_append _ _ _ _).mpr ⟨_,hx,rfl,hz,hy⟩
  | replace h hs hz =>
    obtain ⟨hx,hy,hz',-⟩ := h.tiles ht hN hf
    simp only [List.map_append, List.map_cons]
    exact (tiles_append _ _ _ _).mpr ⟨_,hx,rfl,hz',hy⟩
  | @front xs n s ys m h hs hm =>
    obtain ⟨hx,hy,hz,hs0,hle,hfit,hend,-,-⟩ := h.toSite.tiles ht hN hf
    have hne : s.mapSize ≠ size := fun hc => h.differs ⟨hs,hc⟩
    have e₁ : offT (s.mapStart+size) = s.mapStart+size := offT_of_lt (by omega) (by omega)
    have e₂ : offT (s.mapSize-size) = s.mapSize-size := offT_of_lt (by omega) (by omega)
    simp only [List.map_append, List.map_cons, e₁, e₂]
    refine (tiles_append _ _ _ _).mpr ⟨_,hx,hs.symm,h1,?_,?_,?_⟩
    · rfl
    · simp only; omega
    · convert hy using 1
      simp only [newSeg]; omega
  | @tail xs n s ys m h hs he hm =>
    obtain ⟨hx,hy,hz,hs0,hle,hfit,hend,hend',hoff⟩ := h.toSite.tiles ht hN hf
    rw [hoff, hend'] at he
    have e₂ : offT (s.mapSize-size) = s.mapSize-size := offT_of_lt (by omega) (by omega)
    simp only [List.map_append, List.map_cons, e₂]
    refine (tiles_append _ _ _ _).mpr ⟨_,hx,rfl,?_,?_,h1,?_⟩
    · simp only; omega
    · simp only [newSeg]; omega
    · convert hy using 1
      simp only [newSeg]; omega
  | @middle xs n s ys m p h hs he hm hp =>
    obtain ⟨hx,hy,hz,hs0,hle,hfit,hend,hend',hoff⟩ := h.toSite.tiles ht hN hf
    rw [hoff, hend'] at he
    have e₁ : offT (start-s.mapStart) = start-s.mapStart := offT_of_lt (by omega) (by omega)
    have e₂ : offT (start-s.mapStart+size) = start-s.mapStart+size := offT_of_lt (by omega) (by omega)
    have e₃ : offT (s.mapStart+(start-s.mapStart+size)) = s.mapStart+(start-s.mapStart+size) :=
      offT_of_lt (by omega) (by omega)
    have e₄ : offT (s.mapSize-(start-s.mapStart+size)) = s.mapSize-(start-s.mapStart+size) :=
      offT_of_lt (by omega) (by omega)
    simp only [List.map_append, List.map_cons, e₁, e₂, e₃, e₄]
    refine (tiles_append _ _ _ _).mpr ⟨_,hx,rfl,?_,?_,h1,?_,?_,?_⟩
    · simp only [newSeg]; omega
    · simp only [newSeg]; omega
    · simp only [newSeg]; omega
    · simp only; omega
    · convert hy using 1
      simp only [newSeg]; omega

/-- Sector `x` belongs to the segment. -/
def Seg.Holds (s : Seg) (x : ℤ) : Prop := s.mapStart ≤ x ∧ x < s.mapStart+s.mapSize

instance (s : Seg) (x : ℤ) : Decidable (s.Holds x) := inferInstanceAs (Decidable (_ ∧ _))

/-- The type of the segment that sector `x` belongs to. -/
def typeAt (l : List Seg) (x : ℤ) : Option MapType := (l.find? (·.Holds x)).map (·.mapType)

/-- In a tiling a sector belongs to one segment only. -/
theorem Tiles.eq_of_holds {a b : ℤ} {l : List Seg} (h : Tiles a l b) {s u : Seg} (hs : s ∈ l)
    (hu : u ∈ l) {x : ℤ} (hsx : s.Holds x) (hux : u.Holds x) : s = u := by
  induction l generalizing a with
  | nil => simp at hs
  | cons v l ih =>
    obtain ⟨hv,hz,ht⟩ := h
    unfold Seg.Holds at hsx hux
    rcases List.mem_cons.mp hs with hsv | hs <;> rcases List.mem_cons.mp hu with huv | hu
    · rw [hsv, huv]
    · have := (ht.mem hu).1
      subst hsv
      omega
    · have := (ht.mem hs).1
      subst huv
      omega
    · exact ih ht hs hu

/-- In a tiling the type of a sector is the type of any segment it belongs to. -/
theorem Tiles.typeAt_eq_some {a b : ℤ} {l : List Seg} (h : Tiles a l b) (x : ℤ) (t : MapType) :
    typeAt l x = some t ↔ ∃ s ∈ l, s.Holds x ∧ s.mapType = t := by
  induction l generalizing a with
  | nil => simp [typeAt]
  | cons s l ih =>
    obtain ⟨hs,hz,ht⟩ := h
    by_cases hx : s.Holds x
    · have hno : ∀ u ∈ l, ¬u.Holds x := by
        intro u hu hux
        have := (ht.mem hu).1
        unfold Seg.Holds at hx hux
        omega
      have hleft : typeAt (s :: l) x = some s.mapType := by simp [typeAt, hx]
      rw [hleft, Option.some.injEq]
      constructor
      · rintro rfl
        exact ⟨s,by simp,hx,rfl⟩
      · rintro ⟨u,hu,hux,hut⟩
        rcases List.mem_cons.mp hu with rfl | hu
        · exact hut
        · exact absurd hux (hno u hu)
    · have hleft : typeAt (s :: l) x = typeAt l x := by simp [typeAt, hx]
      rw [hleft, ih ht]
      constructor
      · rintro ⟨u,hu,hr⟩
        exact ⟨u,List.mem_cons_of_mem _ hu,hr⟩
      · rintro ⟨u,hu,hux,hut⟩
        rcases List.mem_cons.mp hu with rfl | hu
        · exact absurd hux hx
        · exact ⟨u,hu,hux,hut⟩

/-- Sector `x` lies in the rest of an MBR partition that the call cuts up. -/
def InCutMbr (l : List Seg) (start : ℤ) (type : MapType) (x : ℤ) : Prop :=
  type = .gptPart ∧ ∃ s ∈ l, s.mapType = .mbrPart ∧ s.Holds x ∧ s.Holds start

/-- The pieces of a cut segment hold what it held outside the new extent, and are unused. -/
structure Pieces (s : Seg) (start size : ℤ) (new : Seg) (ps : List Seg) : Prop where
  unused : ∀ p ∈ ps, p.mapType = .unused
  holds : ∀ x, ¬(start ≤ x ∧ x < start+size) → (s.Holds x ↔ ∃ p ∈ ps, p.Holds x)
  start : new.mapStart = start
  size : new.mapSize = size

/-- A list in which one segment has been replaced by its pieces and a new segment. -/
theorem typeAt_pieces {l l' xs ys : List Seg} {s : Seg} {start size N x : ℤ} {type : MapType}
    (new : Seg) (ps : List Seg) (hl : Tiles 0 l N) (hl' : Tiles 0 l' N) (hsplit : l = xs ++ s :: ys)
    (hmem : ∀ u, u ∈ l' ↔ u ∈ xs ∨ u ∈ ps ∨ u = new ∨ u ∈ ys) (hp : Pieces s start size new ps)
    (hfree : s.mapType = .unused ∨ (s.mapType = .mbrPart ∧ type = .gptPart)) (hs : s.Holds start)
    (hx : ¬(start ≤ x ∧ x < start+size)) :
    (InCutMbr l start type x → typeAt l' x = some .unused) ∧
      (¬InCutMbr l start type x → typeAt l' x = typeAt l x) := by
  have hnew : ¬new.Holds x := by
    rw [Seg.Holds, hp.start, hp.size]
    exact hx
  have hsl : s ∈ l := by simp [hsplit]
  constructor
  · rintro ⟨-,u,hu,hut,hux,hus⟩
    obtain rfl := hl.eq_of_holds hu hsl hus hs
    obtain ⟨p,hpp,hpx⟩ := (hp.holds x hx).mp hux
    exact (hl'.typeAt_eq_some x _).mpr ⟨p,(hmem p).mpr (.inr (.inl hpp)),hpx,hp.unused p hpp⟩
  · intro hno
    have hsu : s.Holds x → s.mapType = .unused := by
      intro hsx
      refine hfree.resolve_right fun hm => hno ⟨hm.2,s,hsl,hm.1,hsx,hs⟩
    ext t
    rw [hl'.typeAt_eq_some, hl.typeAt_eq_some]
    constructor
    · rintro ⟨u,hu,hux,rfl⟩
      rcases (hmem u).mp hu with hu | hu | rfl | hu
      · exact ⟨u,by simp [hsplit, hu],hux,rfl⟩
      · have hsx := (hp.holds x hx).mpr ⟨u,hu,hux⟩
        exact ⟨s,hsl,hsx,by rw [hsu hsx, hp.unused u hu]⟩
      · exact absurd hux hnew
      · exact ⟨u,by simp [hsplit, hu],hux,rfl⟩
    · rintro ⟨u,hu,hux,rfl⟩
      rw [hsplit, List.mem_append, List.mem_cons] at hu
      rcases hu with hu | rfl | hu
      · exact ⟨u,(hmem u).mpr (.inl hu),hux,rfl⟩
      · obtain ⟨p,hpp,hpx⟩ := (hp.holds x hx).mp hux
        exact ⟨p,(hmem p).mpr (.inr (.inl hpp)),hpx,by rw [hp.unused p hpp, hsu hux]⟩
      · exact ⟨u,(hmem u).mpr (.inr (.inr (.inr hu))),hux,rfl⟩

/-- A successful `map_add` gives the extent its type and leaves the other sectors alone, up to
the rest of a cut MBR partition. -/
theorem Carve.typeAt {l l' : List (ℕ × Seg)} {start size N : ℤ} {type : MapType} {data : MapData}
    {alloc : Bool} {m : ℕ} (h : Carve l start size type data alloc (.ok m) l')
    (ht : Tiles 0 (l.map Prod.snd) N) (hN : N < 2^63) (hf : FitsOff start size) {x : ℤ}
    (hx : ¬(start ≤ x ∧ x < start+size)) :
    (InCutMbr (l.map Prod.snd) start type x → typeAt (l'.map Prod.snd) x = some .unused) ∧
      (¬InCutMbr (l.map Prod.snd) start type x →
        typeAt (l'.map Prod.snd) x = typeAt (l.map Prod.snd) x) := by
  have ht' := h.tiles ht hN hf
  have hf' := hf
  obtain ⟨h0,h1,h2⟩ := hf'
  cases h with
  | @replace xs n s ys h hs hz =>
    have hsx : ¬s.Holds x := by rwa [Seg.Holds, hs, hz]
    have hne : ∀ u ∈ l.map Prod.snd, u.Holds x → u.Holds start → False := by
      intro u hu hux hus
      have hsl : s ∈ l.map Prod.snd := by simp [h.split]
      obtain rfl := ht.eq_of_holds hu hsl hus ⟨by omega,by omega⟩
      exact hsx hux
    refine ⟨fun hc => ?_,fun _ => ?_⟩
    · obtain ⟨-,u,hu,-,hux,hus⟩ := hc
      exact (hne u hu hux hus).elim
    · ext t
      rw [ht'.typeAt_eq_some, ht.typeAt_eq_some]
      have hsx' : ¬({ s with mapType := type, mapData := data, mapAlloc := alloc } : Seg).Holds x := hsx
      simp only [h.split, List.map_append, List.map_cons, List.mem_append, List.mem_cons]
      constructor <;> rintro ⟨u,hu | rfl | hu,hux,hut⟩
      · exact ⟨u,.inl hu,hux,hut⟩
      · exact absurd hux hsx'
      · exact ⟨u,.inr (.inr hu),hux,hut⟩
      · exact ⟨u,.inl hu,hux,hut⟩
      · exact absurd hux hsx
      · exact ⟨u,.inr (.inr hu),hux,hut⟩
  | @front xs n s ys m h hs hm =>
    obtain ⟨-,-,hz,hs0,hle,hfit,hend,-,-⟩ := h.toSite.tiles ht hN hf
    have e₁ : offT (s.mapStart+size) = s.mapStart+size := offT_of_lt (by omega) (by omega)
    have e₂ : offT (s.mapSize-size) = s.mapSize-size := offT_of_lt (by omega) (by omega)
    have hp : Pieces s start size (newSeg start size type data alloc)
        [{ s with mapType := .unused, mapStart := s.mapStart+size, mapSize := s.mapSize-size }] := by
      refine ⟨by simp,fun y hy => ?_,rfl,rfl⟩
      simp only [Seg.Holds, List.mem_singleton, exists_eq_left]
      omega
    refine typeAt_pieces _ _ ht ht' (by rw [h.split, List.map_append, List.map_cons]) (fun u => ?_) hp
      h.free ⟨by omega,by omega⟩ hx
    simp only [e₁, e₂, List.map_append, List.map_cons, List.mem_append, List.mem_cons,
      List.not_mem_nil, or_false]
    tauto
  | @tail xs n s ys m h hs he hm =>
    obtain ⟨-,-,hz,hs0,hle,hfit,hend,hend',hoff⟩ := h.toSite.tiles ht hN hf
    rw [hoff, hend'] at he
    have e₂ : offT (s.mapSize-size) = s.mapSize-size := offT_of_lt (by omega) (by omega)
    have hp : Pieces s start size (newSeg start size type data alloc)
        [{ s with mapType := .unused, mapSize := s.mapSize-size }] := by
      refine ⟨by simp,fun y hy => ?_,rfl,rfl⟩
      simp only [Seg.Holds, List.mem_singleton, exists_eq_left]
      omega
    refine typeAt_pieces _ _ ht ht' (by rw [h.split, List.map_append, List.map_cons]) (fun u => ?_) hp
      h.free ⟨by omega,by omega⟩ hx
    simp only [e₂, List.map_append, List.map_cons, List.mem_append, List.mem_cons,
      List.not_mem_nil, or_false]
  | @middle xs n s ys m p h hs he hm hp =>
    obtain ⟨-,-,hz,hs0,hle,hfit,hend,hend',hoff⟩ := h.toSite.tiles ht hN hf
    rw [hoff, hend'] at he
    have e₁ : offT (start-s.mapStart) = start-s.mapStart := offT_of_lt (by omega) (by omega)
    have e₂ : offT (start-s.mapStart+size) = start-s.mapStart+size := offT_of_lt (by omega) (by omega)
    have e₃ : offT (s.mapStart+(start-s.mapStart+size)) = s.mapStart+(start-s.mapStart+size) :=
      offT_of_lt (by omega) (by omega)
    have e₄ : offT (s.mapSize-(start-s.mapStart+size)) = s.mapSize-(start-s.mapStart+size) :=
      offT_of_lt (by omega) (by omega)
    have hp : Pieces s start size (newSeg start size type data alloc)
        [newSeg s.mapStart (start-s.mapStart) .unused .null false,
          { s with mapType := .unused, mapStart := s.mapStart+(start-s.mapStart+size),
                   mapSize := s.mapSize-(start-s.mapStart+size) }] := by
      refine ⟨by simp [newSeg],fun y hy => ?_,rfl,rfl⟩
      simp only [Seg.Holds, newSeg, List.mem_cons, List.not_mem_nil, or_false, exists_eq_or_imp,
        exists_eq_left]
      omega
    refine typeAt_pieces _ _ ht ht' (by rw [h.split, List.map_append, List.map_cons]) (fun u => ?_) hp
      h.free ⟨by omega,by omega⟩ hx
    simp only [e₁, e₂, e₃, e₄, List.map_append, List.map_cons, List.mem_append, List.mem_cons,
      List.not_mem_nil, or_false]
    tauto

/-- The extent of a successful call is the extent of the segment it returns. -/
theorem Carve.extent {l l' : List (ℕ × Seg)} {start size : ℤ} {type : MapType} {data : MapData}
    {alloc : Bool} {m : ℕ} (h : Carve l start size type data alloc (.ok m) l') :
    ∃ e ∈ l', e.1 = m ∧ e.2.mapStart = start ∧ e.2.mapSize = size ∧ e.2.mapType = type ∧
      e.2.mapData = data := by
  cases h with
  | replace h hs hz => exact ⟨_,List.mem_append_right _ (.head _),rfl,hs,hz,rfl,rfl⟩
  | front h hs hm => exact ⟨_,List.mem_append_right _ (.head _),rfl,rfl,rfl,rfl,rfl⟩
  | tail h hs he hm => exact ⟨_,List.mem_append_right _ (.tail _ (.head _)),rfl,rfl,rfl,rfl,rfl⟩
  | middle h hs he hm hp => exact ⟨_,List.mem_append_right _ (.tail _ (.head _)),rfl,rfl,rfl,rfl,rfl⟩

/-- A segment in use stays as it is, unless it has exactly the new extent. -/
theorem Carve.kept {l l' : List (ℕ × Seg)} {start size : ℤ} {type : MapType} {data : MapData} {alloc : Bool}
    {m : ℕ} (h : Carve l start size type data alloc (.ok m) l') {e : ℕ × Seg} (he : e ∈ l)
    (hu : e.2.mapType ≠ .unused) (hm : e.2.mapType ≠ .mbrPart) : e ∈ l' ∨ e.1 = m := by
  -- the segment that is cut up is free
  have hcut : ∀ {xs n s ys}, Cut l start size type xs n s ys → e ∈ xs ∨ e ∈ ys := by
    intro xs n s ys hc
    have he' := he
    rw [hc.split,List.mem_append,List.mem_cons] at he'
    obtain he' | rfl | he' := he'
    · exact Or.inl he'
    · exact (hc.free.elim hu fun hf => hm hf.1).elim
    · exact Or.inr he'
  cases h with
  | @replace xs n s ys h hs hz =>
    rw [h.split,List.mem_append,List.mem_cons] at he
    obtain he | rfl | he := he
    · exact Or.inl (List.mem_append_left _ he)
    · exact Or.inr rfl
    · exact Or.inl (List.mem_append_right _ (List.mem_cons_of_mem _ he))
  | front h hs hm =>
    left
    obtain he | he := hcut h
    · exact List.mem_append_left _ he
    · exact List.mem_append_right _ (by simp [he])
  | tail h hs hend hm =>
    left
    obtain he | he := hcut h
    · exact List.mem_append_left _ he
    · exact List.mem_append_right _ (by simp [he])
  | middle h hs hend hm hp =>
    left
    obtain he | he := hcut h
    · exact List.mem_append_left _ he
    · exact List.mem_append_right _ (by simp [he])

/-! ### Runs of `map_add` -/

theorem mapCreate_calloc (g : Media) (start size : ℤ) (type : MapType) :
    (mapCreate g start size type).2.calloc = g.calloc := by
  unfold mapCreate
  split <;> rfl

theorem mapCreate_ok {g : Media} (hc : ∀ k, g.calloc k = true) (start size : ℤ) (type : MapType) :
    (mapCreate g start size type).1 = some g.brk := by simp [mapCreate, hc]

theorem cutFront_calloc (g : Media) (n m : ℕ) (size : ℤ) : (cutFront g n m size).calloc = g.calloc := by
  unfold cutFront
  dsimp only
  split <;> rfl

theorem cutTail_calloc (g : Media) (n m : ℕ) (size : ℤ) : (cutTail g n m size).calloc = g.calloc := by
  unfold cutTail
  dsimp only
  split <;> rfl

theorem cutMiddle_calloc (g : Media) (n m p : ℕ) : (cutMiddle g n m p).calloc = g.calloc := by
  unfold cutMiddle
  dsimp only
  split <;> rfl

theorem mapSplit_calloc (g : Media) (n : ℕ) (start size : ℤ) (type : MapType) (data : MapData)
    (alloc : Bool) : (mapSplit g n start size type data alloc).2.calloc = g.calloc := by
  unfold mapSplit
  dsimp only
  have h₁ := mapCreate_calloc g start size type
  split
  · simp_all
  · rename_i m g₁ heq
    rw [heq] at h₁
    split_ifs
    · exact (cutFront_calloc _ _ _ _).trans h₁
    · exact (cutTail_calloc _ _ _ _).trans h₁
    · have h₂ := mapCreate_calloc (g₁.modify m fun s => { s with mapData := data, mapAlloc := alloc })
        (g.cell n).mapStart (offT (start-(g.cell n).mapStart)) (g.cell n).mapType
      split
      · simp_all
      · rename_i p g₂ heq'
        rw [heq'] at h₂
        exact (cutMiddle_calloc _ _ _ _).trans (h₂.trans h₁)

theorem mapAdd_calloc (g : Media) (start size : ℤ) (type : MapType) (data : MapData) (alloc : Bool) :
    (mapAdd g start size type data alloc).2.calloc = g.calloc := by
  unfold mapAdd
  split
  · rfl
  · dsimp only
    split_ifs
    · rfl
    · rfl
    · rfl
    · exact mapSplit_calloc _ _ _ _ _ _ _

/-- While allocations succeed, a refused call has changed nothing. -/
theorem mapAdd_error_eq {g : Media} (hc : ∀ k, g.calloc k = true) {start size : ℤ} {type : MapType}
    {data : MapData} {alloc : Bool} {e : MapError}
    (he : (mapAdd g start size type data alloc).1 = .error e) :
    (mapAdd g start size type data alloc).2 = g := by
  unfold mapAdd at he ⊢
  split
  · rfl
  · rename_i n hw
    simp only [hw] at he
    dsimp only at he ⊢
    split_ifs at he ⊢
    · rfl
    · rfl
    · -- `mapSplit` fails only when an allocation does
      exfalso
      set g₁ := g.modify n fun s => { s with mapType := .unused }
      have h₁ := mapCreate_ok (g := g₁) hc start size type
      have hc₁ := mapCreate_calloc g₁ start size type
      unfold mapSplit at he
      dsimp only at he
      split at he
      · simp_all
      · rename_i m g₂ heq
        rw [heq] at hc₁
        split_ifs at he
        have h₂ := mapCreate_ok (g := g₂.modify m fun s => { s with mapData := data, mapAlloc := alloc })
          (by simp [show g₂.calloc = g.calloc from hc₁, hc]) (g₁.cell n).mapStart
          (offT (start-(g₁.cell n).mapStart)) (g₁.cell n).mapType
        split at he
        · simp_all
        · simp at he

/-- The segments of the map in list order. -/
def mapList (g : Media) : List Seg :=
  (walk (fun a => (g.cell a).mapNext) (g.brk+1) g.mediamap).map fun a => (g.cell a).toSeg

/-- The segments start at 0, are not empty, follow each other, end at `N`, and `map_next` and
`map_prev` run through them in opposite directions. -/
structure WellFormed (g : Media) (N : ℤ) : Prop where
  links : ∃ ids : List ℕ, g.mediamap = ids.head? ∧ ids.Nodup ∧
    Linked (fun a => (g.cell a).mapNext) (fun a => (g.cell a).mapPrev) none ids none
  tiles : Tiles 0 (mapList g) N

theorem IsMap.mapList_eq {g : Media} {l : List (ℕ × Seg)} (h : IsMap g l) :
    mapList g = l.map Prod.snd := by
  rw [mapList, h.head, walk_linked h.linked (by simpa using Nat.lt_succ_of_le h.length_le), List.map_map]
  exact List.map_congr_left h.segs

theorem IsMap.wellFormed {g : Media} {l : List (ℕ × Seg)} {N : ℤ} (h : IsMap g l)
    (ht : Tiles 0 (l.map Prod.snd) N) : WellFormed g N :=
  ⟨⟨_,h.head,h.nodup,h.linked⟩,h.mapList_eq ▸ ht⟩

/-- The arguments of one `map_add` call. -/
structure AddCall where
  start : ℤ
  size : ℤ
  type : MapType
  data : MapData
  alloc : Bool

def AddCall.exec (c : AddCall) (g : Media) : Except MapError ℕ × Media :=
  mapAdd g c.start c.size c.type c.data c.alloc

/-- The map after a sequence of `map_add` calls. -/
def addAll (g : Media) (cs : List AddCall) : Media := cs.foldl (fun g c => (c.exec g).2) g

/-- One call keeps the list a tiling of the device. -/
theorem AddCall.exec_isMap {g : Media} {l : List (ℕ × Seg)} {N : ℤ} (c : AddCall) (h : IsMap g l)
    (ht : Tiles 0 (l.map Prod.snd) N) (hN : N < 2^63) (hf : FitsOff c.start c.size) :
    ∃ l', IsMap (c.exec g).2 l' ∧ Tiles 0 (l'.map Prod.snd) N ∧
      Carve l c.start c.size c.type c.data c.alloc (c.exec g).1 l' := by
  obtain ⟨l',h',hcarve⟩ := mapAdd_carve h c.start c.size c.type c.data c.alloc
  exact ⟨l',h',hcarve.tiles ht hN hf,hcarve⟩

theorem addAll_isMap {g : Media} {l : List (ℕ × Seg)} {N : ℤ} (h : IsMap g l)
    (ht : Tiles 0 (l.map Prod.snd) N) (hN : N < 2^63) (cs : List AddCall)
    (hf : ∀ c ∈ cs, FitsOff c.start c.size) :
    ∃ l', IsMap (addAll g cs) l' ∧ Tiles 0 (l'.map Prod.snd) N := by
  induction cs generalizing g l with
  | nil => exact ⟨l,h,ht⟩
  | cons c cs ih =>
    obtain ⟨l',h',ht',-⟩ := c.exec_isMap h ht hN (hf c (by simp))
    exact ih h' ht' fun d hd => hf d (by simp [hd])

theorem addAll_calloc (g : Media) (cs : List AddCall) : (addAll g cs).calloc = g.calloc := by
  induction cs generalizing g with
  | nil => rfl
  | cons c cs ih => exact (ih _).trans (mapAdd_calloc _ _ _ _ _ _)

/-- `map_init` leaves one unused segment over the device. -/
theorem mapInit_isMap {g₀ g : Media} {N : ℤ} (h : mapInit g₀ N = some g) :
    (∃ m, IsMap g [(m,newSeg 0 N .unused .null false)]) ∧ g.calloc = g₀.calloc := by
  unfold mapInit mapCreate at h
  split at h
  · simp at h
  · rename_i m g₁ hc
    split at hc
    · simp only [Prod.mk.injEq, Option.some.injEq] at hc h
      obtain ⟨rfl,rfl⟩ := hc
      subst h
      exact ⟨⟨g₀.brk,⟨rfl,by simp [Linked],by simp,by simp,by simp [newSeg]⟩⟩,rfl⟩
    · simp at hc

/-- From `map_init` on, every sequence of `map_add` calls keeps the map a partition of the
device. A refused call leaves the segments as they were; a granted one gives the new segment
its extent and type, and changes no other sector's type but in the rest of an MBR partition
cut up for a GPT partition. -/
theorem mapAdd_run_wellFormed {N : ℤ} (hN : 1 ≤ N) (hN' : N < 2^63) {g₀ : Media}
    (hcalloc : ∀ k, g₀.calloc k = true) (cs : List AddCall) (c : AddCall)
    (hcs : ∀ d ∈ cs, FitsOff d.start d.size) (hc : FitsOff c.start c.size) :
    ∃ g₁, mapInit g₀ N = some g₁ ∧ WellFormed (addAll g₁ cs) N ∧
      WellFormed (c.exec (addAll g₁ cs)).2 N ∧
      (∀ e, (c.exec (addAll g₁ cs)).1 = .error e →
        mapList (c.exec (addAll g₁ cs)).2 = mapList (addAll g₁ cs)) ∧
      ∀ m, (c.exec (addAll g₁ cs)).1 = .ok m →
        ((c.exec (addAll g₁ cs)).2.cell m).toSeg ∈ mapList (c.exec (addAll g₁ cs)).2 ∧
        ((c.exec (addAll g₁ cs)).2.cell m).mapStart = c.start ∧
        ((c.exec (addAll g₁ cs)).2.cell m).mapSize = c.size ∧
        ((c.exec (addAll g₁ cs)).2.cell m).mapType = c.type ∧
        ∀ x, ¬(c.start ≤ x ∧ x < c.start+c.size) →
          (InCutMbr (mapList (addAll g₁ cs)) c.start c.type x →
            typeAt (mapList (c.exec (addAll g₁ cs)).2) x = some .unused) ∧
          (¬InCutMbr (mapList (addAll g₁ cs)) c.start c.type x →
            typeAt (mapList (c.exec (addAll g₁ cs)).2) x = typeAt (mapList (addAll g₁ cs)) x) := by
  obtain ⟨g₁,hinit⟩ : ∃ g₁, mapInit g₀ N = some g₁ := by simp [mapInit, mapCreate, hcalloc]
  obtain ⟨⟨m₀,h₀⟩,hcalloc₁⟩ := mapInit_isMap hinit
  have ht₀ : Tiles 0 ([(m₀,newSeg 0 N .unused .null false)].map Prod.snd) N := by
    simpa [Tiles, newSeg] using hN
  obtain ⟨l,h,ht⟩ := addAll_isMap h₀ ht₀ hN' cs hcs
  obtain ⟨l',h',ht',hcarve⟩ := c.exec_isMap h ht hN' hc
  refine ⟨g₁,hinit,h.wellFormed ht,h'.wellFormed ht',fun e he => ?_,fun m hm => ?_⟩
  · have hall : ∀ k, (addAll g₁ cs).calloc k = true := by rw [addAll_calloc, hcalloc₁]; exact hcalloc
    rw [AddCall.exec, mapAdd_error_eq hall he]
  · rw [hm] at hcarve
    obtain ⟨e,he,rfl,hs,hz,hty,-⟩ := hcarve.extent
    have hseg := h'.segs e he
    rw [h'.mapList_eq, h.mapList_eq, hseg]
    exact ⟨List.mem_map_of_mem he,hs,hz,hty,fun x hx => hcarve.typeAt ht hN' hc hx⟩

theorem mapAdd_run_wellFormed_mbr :
    ∃ g₁, mapInit (emptyMedia fun _ => true) 100 = some g₁ ∧
      WellFormed (addAll g₁ [⟨0,1,.mbr,.null,false⟩,⟨10,20,.mbrPart,.null,false⟩]) 100 ∧
      ∀ m, ((⟨12,4,.gptPart,.null,false⟩ : AddCall).exec
          (addAll g₁ [⟨0,1,.mbr,.null,false⟩,⟨10,20,.mbrPart,.null,false⟩])).1 = .ok m →
        (((⟨12,4,.gptPart,.null,false⟩ : AddCall).exec
          (addAll g₁ [⟨0,1,.mbr,.null,false⟩,⟨10,20,.mbrPart,.null,false⟩])).2.cell m).mapSize = 4 := by
  obtain ⟨g₁,hi,hw,-,-,hm⟩ := mapAdd_run_wellFormed (N := 100) (by decide) (by decide)
    (show ∀ k, (emptyMedia fun _ => true).calloc k = true from fun _ => rfl) [⟨0,1,.mbr,.null,false⟩,⟨10,20,.mbrPart,.null,false⟩] ⟨12,4,.gptPart,.null,false⟩
    (by simp [FitsOff]) (by simp [FitsOff])
  exact ⟨g₁,hi,hw,fun m h => (hm m h).2.2.1⟩

end Blub.Fgdisk
