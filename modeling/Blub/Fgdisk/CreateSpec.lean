import Blub.Fgdisk.Alloc
import Blub.Fgdisk.Create

/-! What `create` finds in the map of a device without a GPT, and when it ends before anything is written. -/
namespace Blub.Fgdisk
open Blub.Bytes Blub.Gpt

section Covers

/-- The segments follow each other from `a` to `b`. An MBR partition may be empty, free space is not. -/
def Covers : ℤ → List Seg → ℤ → Prop
  | a, [], b => a = b
  | a, s :: l, b =>
    s.mapStart = a ∧ 0 ≤ s.mapSize ∧ (s.mapType = .unused → 1 ≤ s.mapSize) ∧ Covers (a+s.mapSize) l b

attribute [local grind =] Covers

theorem covers_append (a b : ℤ) (l₁ l₂ : List Seg) :
    Covers a (l₁ ++ l₂) b ↔ ∃ c, Covers a l₁ c ∧ Covers c l₂ b := by
  induction l₁ generalizing a with
  | nil => simp [Covers]
  | cons s l₁ ih =>
    simp only [List.cons_append,Covers,ih]
    constructor
    · rintro ⟨hs,hz,hu,c,h₁,h₂⟩
      exact ⟨c,⟨hs,hz,hu,h₁⟩,h₂⟩
    · rintro ⟨c,⟨hs,hz,hu,h₁⟩,h₂⟩
      exact ⟨hs,hz,hu,c,h₁,h₂⟩

theorem Covers.le {a b : ℤ} {l : List Seg} (h : Covers a l b) : a ≤ b := by
  induction l generalizing a with
  | nil => exact le_of_eq h
  | cons s l ih =>
    obtain ⟨-,hz,-,ht⟩ := h
    have := ih ht
    omega

theorem Covers.mem {a b : ℤ} {l : List Seg} (h : Covers a l b) {s : Seg} (hs : s ∈ l) :
    a ≤ s.mapStart ∧ 0 ≤ s.mapSize ∧ (s.mapType = .unused → 1 ≤ s.mapSize) ∧ s.mapStart+s.mapSize ≤ b := by
  obtain ⟨xs,ys,rfl⟩ := List.append_of_mem hs
  obtain ⟨c,h₁,hst,hz,hu,h₂⟩ := (covers_append _ _ _ _).mp h
  have := h₁.le
  have := h₂.le
  exact ⟨by omega,hz,hu,by omega⟩

theorem Covers.end_eq {a b : ℤ} {l : List Seg} (h : Covers a l b) (ha : 0 ≤ a) (hb : b < 2^63) {s : Seg} (hs : s ∈ l) :
    s.end = s.mapStart+s.mapSize := by
  obtain ⟨h₁,h₂,-,h₃⟩ := h.mem hs
  exact offT_of_lt (by omega) (by omega)

/-- The segments in front of a place end no later than `x` if each does. -/
theorem Covers.cut_le {a c x : ℤ} {xs : List Seg} (h : Covers a xs c) (ha : 0 ≤ a) (hax : a ≤ x) (hc : c < 2^63)
    (hx : ∀ s ∈ xs, s.end ≤ x) : c ≤ x := by
  rcases xs.eq_nil_or_concat with rfl | ⟨xs,z,rfl⟩
  · exact (show a = c from h) ▸ hax
  · have hend := hx z (by simp)
    rw [h.end_eq ha hc (by simp)] at hend
    rw [List.concat_eq_append] at h
    obtain ⟨d,-,hst,-,-,h₂⟩ := (covers_append _ _ _ _).mp h
    have hc' : d+z.mapSize = c := h₂
    omega

variable {l l' xs ys : List (ℕ × Seg)} {start size N : ℤ} {type : MapType} {data : MapData} {alloc : Bool} {n m : ℕ}
  {s : Seg}

/-- What a site looks like in a map without overlaps. -/
theorem Site.covers (h : Site l start size xs n s ys) (ht : Covers 0 (l.map Prod.snd) N) (hN : N < 2^63)
    (h0 : 0 ≤ start) (hsum : start+size < 2^63) (hz : 0 ≤ size) :
    Covers 0 (xs.map Prod.snd) s.mapStart ∧ Covers (s.mapStart+s.mapSize) (ys.map Prod.snd) N ∧ 1 ≤ s.mapSize ∧
      0 ≤ s.mapStart ∧ s.mapStart ≤ start ∧ start < s.mapStart+s.mapSize ∧ start+size ≤ s.mapStart+s.mapSize ∧
      s.mapStart+s.mapSize ≤ N ∧ s.end = s.mapStart+s.mapSize ∧ offT (start+size) = start+size := by
  have hend := ht.end_eq le_rfl hN (List.mem_map_of_mem (f := Prod.snd) (a := (n,s)) (by simp [h.split]))
  simp only [h.split,List.map_append,List.map_cons] at ht
  obtain ⟨c,h₁,rfl,hsz,-,h₂⟩ := (covers_append _ _ _ _).mp ht
  have hle₁ := h₁.le
  have hle₂ := h₂.le
  have hoff : offT (start+size) = start+size := offT_of_lt (by omega) hsum
  have hfit := h.fits
  have hbehind := h.behind
  dsimp only at hend
  rw [hend] at hfit hbehind
  rw [hoff] at hfit
  have hcut : s.mapStart ≤ start := by
    apply h₁.cut_le le_rfl h0 (by omega)
    intro t ht
    obtain ⟨e,he,rfl⟩ := List.mem_map.mp ht
    exact h.before e he
  exact ⟨h₁,h₂,by omega,hle₁,hcut,hbehind,hfit,hle₂,hend,hoff⟩

/-- Adding an extent, be it empty, keeps a map free of overlaps. -/
theorem Carve.covers {r : Except MapError ℕ} (h : Carve l start size type data alloc r l')
    (ht : Covers 0 (l.map Prod.snd) N) (hN : N < 2^63) (h0 : 0 ≤ start) (hsum : start+size < 2^63) (hz : 0 ≤ size)
    (hu : type ≠ .unused) : Covers 0 (l'.map Prod.snd) N := by
  cases h with
  | fail e => exact ht
  | oom h =>
    obtain ⟨hx,hy,h₁,-⟩ := h.toSite.covers ht hN h0 hsum hz
    simp only [List.map_append,List.map_cons]
    exact (covers_append _ _ _ _).mpr ⟨_,hx,rfl,by dsimp only; omega,fun _ => h₁,hy⟩
  | replace h hs hsz =>
    obtain ⟨hx,hy,h₁,-⟩ := h.covers ht hN h0 hsum hz
    simp only [List.map_append,List.map_cons]
    exact (covers_append _ _ _ _).mpr ⟨_,hx,rfl,by dsimp only; omega,fun hc => absurd hc hu,hy⟩
  | @front xs n s ys m h hs hm =>
    obtain ⟨hx,hy,h₁,hs0,hle,hlt,hfit,hend,-,-⟩ := h.toSite.covers ht hN h0 hsum hz
    have hne : s.mapSize ≠ size := fun hc => h.differs ⟨hs,hc⟩
    have e₁ : offT (s.mapStart+size) = s.mapStart+size := offT_of_lt (by omega) (by omega)
    have e₂ : offT (s.mapSize-size) = s.mapSize-size := offT_of_lt (by omega) (by omega)
    simp only [List.map_append,List.map_cons,e₁,e₂]
    refine (covers_append _ _ _ _).mpr ⟨_,hx,hs.symm,hz,fun hc => absurd hc hu,rfl,?_,fun _ => ?_,?_⟩
    · dsimp only
      omega
    · dsimp only
      omega
    · convert hy using 1
      simp only [newSeg]
      omega
  | @tail xs n s ys m h hs he hm =>
    obtain ⟨hx,hy,h₁,hs0,hle,hlt,hfit,hend,hend',hoff⟩ := h.toSite.covers ht hN h0 hsum hz
    rw [hoff,hend'] at he
    have e₂ : offT (s.mapSize-size) = s.mapSize-size := offT_of_lt (by omega) (by omega)
    simp only [List.map_append,List.map_cons,e₂]
    refine (covers_append _ _ _ _).mpr ⟨_,hx,rfl,?_,fun _ => ?_,?_,hz,fun hc => absurd hc hu,?_⟩
    · dsimp only
      omega
    · dsimp only
      omega
    · simp only [newSeg]
      omega
    · convert hy using 1
      simp only [newSeg]
      omega
  | @middle xs n s ys m p h hs he hm hp =>
    obtain ⟨hx,hy,h₁,hs0,hle,hlt,hfit,hend,hend',hoff⟩ := h.toSite.covers ht hN h0 hsum hz
    rw [hoff,hend'] at he
    have e₁ : offT (start-s.mapStart) = start-s.mapStart := offT_of_lt (by omega) (by omega)
    have e₂ : offT (start-s.mapStart+size) = start-s.mapStart+size := offT_of_lt (by omega) (by omega)
    have e₃ : offT (s.mapStart+(start-s.mapStart+size)) = s.mapStart+(start-s.mapStart+size) :=
      offT_of_lt (by omega) (by omega)
    have e₄ : offT (s.mapSize-(start-s.mapStart+size)) = s.mapSize-(start-s.mapStart+size) :=
      offT_of_lt (by omega) (by omega)
    simp only [List.map_append,List.map_cons,e₁,e₂,e₃,e₄]
    refine (covers_append _ _ _ _).mpr ⟨_,hx,rfl,?_,fun _ => ?_,?_,hz,fun hc => absurd hc hu,?_,?_,fun _ => ?_,?_⟩
    · simp only [newSeg]
      omega
    · simp only [newSeg]
      omega
    · simp only [newSeg]
      omega
    · simp only [newSeg]
      omega
    · dsimp only
      omega
    · dsimp only
      omega
    · convert hy using 1
      simp only [newSeg]
      omega

end Covers

section Barred

/-- A segment that no added extent and no removal of an MBR makes free. -/
def Blocks (s : Seg) : Prop := s.mapType ≠ .unused ∧ s.mapType ≠ .mbr ∧ s.mapType ≠ .mbrPart

/-- The first segment that ends behind sector 1 is in use for good. -/
def BarredList (l : List (ℕ × Seg)) : Prop :=
  ∃ pre k s post, l = pre ++ (k,s) :: post ∧ (∀ e ∈ pre, e.2.end ≤ 1) ∧ 1 < s.end ∧ Blocks s

variable {l l' xs ys z : List (ℕ × Seg)} {start size : ℤ} {type : MapType} {data : MapData} {alloc : Bool} {n m : ℕ}
  {u : Seg} {g g' : Media}

theorem BarredList.exchange (h : BarredList (xs ++ (n,u) :: ys)) (hz : u.end ≤ 1 → ∀ e ∈ z, e.2.end ≤ 1)
    (hb : 1 < u.end → Blocks u → BarredList z) : BarredList (xs ++ (z ++ ys)) := by
  obtain ⟨pre,k,s,post,hl,hpre,hs,hbl⟩ := h
  rcases List.append_eq_append_iff.mp hl with ⟨c,rfl,hc⟩ | ⟨c,rfl,hc⟩
  · rcases c with _ | ⟨e,c⟩
    · -- the segment itself is the one in use
      obtain ⟨⟨rfl,rfl⟩,rfl⟩ : (n = k ∧ u = s) ∧ ys = post := by simpa using hc
      obtain ⟨pre',k',s',post',rfl,hpre',hs',hbl'⟩ := hb hs hbl
      refine ⟨xs ++ pre',k',s',post' ++ ys,by simp,?_,hs',hbl'⟩
      exact List.forall_mem_append.mpr ⟨fun e he => hpre e (by simpa using he),hpre'⟩
    · -- it lies in front of it
      obtain ⟨rfl,rfl⟩ : (n,u) = e ∧ ys = c ++ (k,s) :: post := by simpa using hc
      have hend : u.end ≤ 1 := hpre (n,u) (by simp)
      refine ⟨xs ++ (z ++ c),k,s,post,by simp,?_,hs,hbl⟩
      refine List.forall_mem_append.mpr ⟨fun e he => hpre e (by simp [he]),?_⟩
      exact List.forall_mem_append.mpr ⟨hz hend,fun e he => hpre e (by simp [he])⟩
  · rcases c with _ | ⟨e,c⟩
    · obtain ⟨⟨rfl,rfl⟩,rfl⟩ : (k = n ∧ s = u) ∧ post = ys := by simpa using hc
      obtain ⟨pre',k',s',post',rfl,hpre',hs',hbl'⟩ := hb hs hbl
      refine ⟨pre ++ pre',k',s',post' ++ post,by simp,?_,hs',hbl'⟩
      exact List.forall_mem_append.mpr ⟨hpre,hpre'⟩
    · obtain ⟨rfl,rfl⟩ : (k,s) = e ∧ post = c ++ (n,u) :: ys := by simpa using hc
      exact ⟨pre,k,s,c ++ (z ++ ys),by simp,hpre,hs,hbl⟩

/-- Adding an extent keeps sector 1 from being free, whatever the extent is. -/
theorem BarredList.carve (h : BarredList l) (hc : Carve l start size type data alloc (.ok m) l')
    (hst : -2^63 ≤ start ∧ start < 2^63) (ht : type ≠ .unused ∧ type ≠ .mbr ∧ type ≠ .mbrPart) : BarredList l' := by
  -- what is cut is free, so it is not the segment in use
  have hcut : ∀ {xs n s ys}, Cut l start size type xs n s ys → ¬ Blocks s := fun hc hb =>
    hc.free.elim hb.1 fun hf => hb.2.2 hf.1
  cases hc with
  | @replace xs n s ys hc hs hz =>
    rw [hc.split] at h
    refine h.exchange (z := [(m,{ s with mapType := type, mapData := data, mapAlloc := alloc })]) (fun hend e he => ?_)
      fun hend hb => ⟨[],m,{ s with mapType := type, mapData := data, mapAlloc := alloc },[],rfl,nofun,hend,ht⟩
    rw [List.mem_singleton.mp he]
    exact hend
  | @front xs n s ys m hc hs hm =>
    rw [hc.split] at h
    refine h.exchange (z := [_,_]) (fun hend => ?_) fun _ hb => absurd hb (hcut hc)
    have hfit := hc.fits
    simp only [List.forall_mem_cons,List.not_mem_nil,false_imp_iff,implies_true,and_true]
    constructor
    · exact hfit.trans hend
    · have : ∀ a z y : ℤ, offT (offT (a+z)+offT (y-z)) = offT (a+y) := by
        intro a z y
        unfold offT
        omega
      exact (this _ _ _).trans_le hend
  | @tail xs n s ys m hc hs he hm =>
    rw [hc.split] at h
    refine h.exchange (z := [_,_]) (fun hend => ?_) fun _ hb => absurd hb (hcut hc)
    have hfit := hc.fits
    have hbehind := hc.behind
    simp only [List.forall_mem_cons,List.not_mem_nil,false_imp_iff,implies_true,and_true]
    constructor
    · show offT (s.mapStart+offT (s.mapSize-size)) ≤ 1
      unfold Seg.end offT at *
      omega
    · exact hfit.trans hend
  | @middle xs n s ys m p hc hs he hm hp =>
    rw [hc.split] at h
    refine h.exchange (z := [_,_,_]) (fun hend => ?_) fun _ hb => absurd hb (hcut hc)
    have hfit := hc.fits
    have hbehind := hc.behind
    simp only [List.forall_mem_cons,List.not_mem_nil,false_imp_iff,implies_true,and_true]
    refine ⟨?_,hfit.trans hend,?_⟩
    · show offT (s.mapStart+offT (start-s.mapStart)) ≤ 1
      unfold Seg.end offT at *
      omega
    · have : ∀ a z y : ℤ, offT (offT (a+z)+offT (y-z)) = offT (a+y) := by
        intro a z y
        unfold offT
        omega
      exact (this _ _ _).trans_le hend

end Barred

section Opened
variable {l : List (ℕ × Seg)} {start size N : ℤ} {type : MapType} {data : MapData} {alloc : Bool} {n m : ℕ}
  {g g' : Media} {im : Image} {nombr : Bool}

theorem IsMap.find_none (h : IsMap g l) : mapFind g type = none ↔ ∀ e ∈ l, e.2.mapType ≠ type := by
  rw [mapFind,h.walk_eq,List.find?_eq_none]
  simp only [List.mem_map,forall_exists_index,and_imp,Bool.not_eq_true,Bool.not_eq_false']
  constructor
  · intro hf e he ht
    have := hf _ e he rfl
    rw [decide_eq_true_eq] at this
    exact this ((congrArg Seg.mapType (h.segs e he)).trans ht)
  · rintro hf _ e he rfl
    rw [decide_eq_true_eq]
    exact fun ht => hf e he ((congrArg Seg.mapType (h.segs e he)).symm.trans ht)

/-- Segment `m` gets another index. -/
def reindex (m i : ℕ) (l : List (ℕ × Seg)) : List (ℕ × Seg) :=
  l.map fun e => if e.1 = m then (e.1,{ e.2 with mapIndex := i }) else e

theorem reindex_apart {i : ℕ} (hm : m ∉ l.map Prod.fst) : reindex m i l = l := by
  refine (List.map_congr_left fun e he => ?_).trans (List.map_id l)
  have hne : e.1 ≠ m := fun hc => hm (hc ▸ List.mem_map_of_mem he)
  exact if_neg hne

theorem IsMap.reindex (h : IsMap g l) (m i : ℕ) :
    IsMap (g.modify m fun s => { s with mapIndex := i }) (Fgdisk.reindex m i l) := by
  by_cases hm : m ∈ l.map Prod.fst
  · obtain ⟨⟨k,s⟩,he,rfl⟩ := List.mem_map.mp hm
    obtain ⟨xs,ys,rfl⟩ := List.append_of_mem he
    have hnd := h.nodup
    rw [List.map_append,List.map_cons,List.nodup_append,List.nodup_cons] at hnd
    have hx : k ∉ xs.map Prod.fst := fun hc => hnd.2.2 _ hc _ List.mem_cons_self rfl
    have heq : Fgdisk.reindex k i (xs ++ (k,s) :: ys) = xs ++ (k,{ s with mapIndex := i }) :: ys := by
      have h₁ : Fgdisk.reindex k i xs = xs := reindex_apart hx
      have h₂ : Fgdisk.reindex k i ys = ys := reindex_apart hnd.2.1.1
      unfold Fgdisk.reindex at h₁ h₂ ⊢
      rw [List.map_append,List.map_cons,if_pos rfl,h₁,h₂]
    dsimp only
    rw [heq]
    refine h.modify ?_ rfl rfl
    have hs : (g.cell k).toSeg = s := h.segs _ he
    rw [← hs]
  · rw [reindex_apart hm]
    exact h.modify_apart hm _

theorem covers_reindex (m i : ℕ) (a : ℤ) : Covers a ((reindex m i l).map Prod.snd) N ↔ Covers a (l.map Prod.snd) N := by
  induction l generalizing a with
  | nil => exact Iff.rfl
  | cons e l ih =>
    have hseg : ∀ s : Seg, s.mapStart = e.2.mapStart → s.mapSize = e.2.mapSize → s.mapType = e.2.mapType →
        (Covers a (s :: (reindex m i l).map Prod.snd) N ↔ Covers a (e.2 :: l.map Prod.snd) N) := by
      intro s h₁ h₂ h₃
      rw [Covers,Covers,h₁,h₂,h₃,ih]
    by_cases he : e.1 = m
    · rw [reindex,List.map_cons,if_pos he]
      exact hseg _ rfl rfl rfl
    · rw [reindex,List.map_cons,if_neg he]
      exact hseg _ rfl rfl rfl

theorem barredList_reindex (m i : ℕ) (h : BarredList l) : BarredList (reindex m i l) := by
  obtain ⟨pre,k,s,post,rfl,hpre,hs,hb⟩ := h
  rw [reindex,List.map_append,List.map_cons]
  refine ⟨reindex m i pre,k,if k = m then { s with mapIndex := i } else s,reindex m i post,?_,?_,?_,?_⟩
  · split_ifs <;> rfl
  · intro e he
    obtain ⟨x,hx,rfl⟩ := List.mem_map.mp he
    split_ifs
    · exact hpre x hx
    · exact hpre x hx
  · split_ifs
    · exact hs
    · exact hs
  · split_ifs
    · exact hb
    · exact hb

/-- Sector 0 has an MBR, or what an MBR made of it. -/
def Headed (g : Media) (N : ℤ) : Prop :=
  ∃ n s l, IsMap g ((n,s) :: l) ∧ Covers 0 (s :: l.map Prod.snd) N ∧ s.mapSize = 1 ∧ s.mapType ≠ .unused

/-- The map starts with a segment for sector 0 alone, or with free space. -/
def FrontedList (N : ℤ) (l : List (ℕ × Seg)) : Prop :=
  Covers 0 (l.map Prod.snd) N ∧
    ∃ n s t, l = (n,s) :: t ∧ (s.mapType = .unused → 2 ≤ s.mapSize ∧ ∀ e ∈ l, e.2.mapType ≠ .mbr) ∧
      (s.mapType ≠ .unused → s.mapSize = 1)

def Fronted (g : Media) (N : ℤ) : Prop := ∃ l, IsMap g l ∧ FrontedList N l

def Barred (g : Media) : Prop := ∃ l, IsMap g l ∧ BarredList l

theorem Headed.fronted (h : Headed g N) : Fronted g N := by
  obtain ⟨n,s,l,hl,hc,hz,hu⟩ := h
  exact ⟨_,hl,hc,n,s,l,rfl,fun h => absurd h hu,fun _ => hz⟩

theorem Headed.reindex (h : Headed g N) (m i : ℕ) : Headed (g.modify m fun s => { s with mapIndex := i }) N := by
  obtain ⟨n,s,l,hl,hc,hz,hu⟩ := h
  have hl' := hl.reindex m i
  have hc' : Covers 0 ((Fgdisk.reindex m i ((n,s) :: l)).map Prod.snd) N := (covers_reindex m i 0).mpr hc
  rw [Fgdisk.reindex,List.map_cons] at hl' hc'
  by_cases hn : n = m
  · rw [if_pos hn] at hl' hc'
    exact ⟨n,_,_,hl',hc',hz,hu⟩
  · rw [if_neg hn] at hl' hc'
    exact ⟨n,_,_,hl',hc',hz,hu⟩

theorem Headed.add (h : Headed g N) (hN : N < 2^63) (hadd : mapAdd g start size type data alloc = (.ok m,g'))
    (h0 : 0 ≤ start) (hz : 0 ≤ size) (hsum : start+size < 2^63) (hu : type ≠ .unused) (hp : type ≠ .gptPart) :
    Headed g' N ∧ start < N := by
  obtain ⟨n,s,l,hl,hc,hs,hsu⟩ := h
  obtain ⟨l',hl',hcarve⟩ := mapAdd_carve hl start size type data alloc
  rw [hadd] at hl' hcarve
  have hc' : Covers 0 (l'.map Prod.snd) N := hcarve.covers (l := (n,s) :: l) hc hN h0 hsum hz hu
  have hsite : ∀ {xs n' u ys}, Site ((n,s) :: l) start size xs n' u ys → start < N := by
    intro xs n' u ys hsite
    obtain ⟨-,-,-,-,-,hlt,-,hle,-⟩ := hsite.covers (l := (n,s) :: l) hc hN h0 hsum hz
    omega
  -- the first segment is in use, so it is taken over or left alone
  have hcut : ∀ {xs n' u ys}, Cut ((n,s) :: l) start size type xs n' u ys → ∃ t, xs = (n,s) :: t := by
    intro xs n' u ys hcut
    rcases xs with _ | ⟨e,t⟩
    · obtain ⟨⟨rfl,rfl⟩,-⟩ : (n = n' ∧ s = u) ∧ l = ys := by simpa using hcut.split
      exact (hcut.free.elim hsu fun hf => hp hf.2).elim
    · obtain ⟨rfl,-⟩ : (n,s) = e ∧ l = t ++ (n',u) :: ys := by simpa using hcut.split
      exact ⟨t,rfl⟩
  cases hcarve with
  | @replace xs _ u ys hsite' hst hsz =>
    refine ⟨?_,hsite hsite'⟩
    rcases xs with _ | ⟨e,t⟩
    · obtain ⟨⟨rfl,rfl⟩,-⟩ : (n = m ∧ s = u) ∧ l = ys := by simpa using hsite'.split
      exact ⟨n,_,ys,hl',hc',hs,hu⟩
    · obtain ⟨rfl,-⟩ : (n,s) = e ∧ l = t ++ (m,u) :: ys := by simpa using hsite'.split
      exact ⟨n,s,_,hl',hc',hs,hsu⟩
  | front hc₁ _ _ =>
    obtain ⟨t,rfl⟩ := hcut hc₁
    exact ⟨⟨n,s,_,hl',hc',hs,hsu⟩,hsite hc₁.toSite⟩
  | tail hc₁ _ _ _ =>
    obtain ⟨t,rfl⟩ := hcut hc₁
    exact ⟨⟨n,s,_,hl',hc',hs,hsu⟩,hsite hc₁.toSite⟩
  | middle hc₁ _ _ _ _ =>
    obtain ⟨t,rfl⟩ := hcut hc₁
    exact ⟨⟨n,s,_,hl',hc',hs,hsu⟩,hsite hc₁.toSite⟩

theorem partStart_lt (mbr : ℕ → UInt8) (i : ℕ) : partStart mbr i < 2^32 := by
  have := leGet_lt mbr (446+16*i+8) 4
  norm_num at this ⊢
  exact this

theorem mbrStart_eq (mbr : ℕ → UInt8) {lba : ℤ} (h : 0 ≤ lba ∧ lba < 2^62) (i : ℕ) :
    mbrStart mbr lba i = partStart mbr i+lba := by
  have := partStart_lt mbr i
  exact offT_of_lt (by omega) (by omega)

theorem mbrParts_headed {sub : Media → ℤ → Option (ℤ × Media)} (hN : N < 2^62)
    (hsub : ∀ g lba r g', sub g lba = some (r,g') → r ≠ -1 → 0 ≤ lba ∧ lba < 2^63-1 → Headed g N → Headed g' N)
    {mbr : ℕ → UInt8} {lba r : ℤ} (hlba : 0 ≤ lba ∧ lba < 2^62) {p k i : ℕ}
    (h : mbrParts sub nombr mbr lba p k i g = some (r,g')) (hr : r ≠ -1) (hs : Headed g N) : Headed g' N := by
  have hst := fun i => mbrStart_eq mbr hlba i
  have hlt := fun i => partStart_lt mbr i
  induction k generalizing i g with
  | zero =>
    simp only [mbrParts,Option.some.injEq,Prod.mk.injEq] at h
    exact h.2 ▸ hs
  | succ k ih =>
    have hsti := hst i
    have hlti := hlt i
    unfold mbrParts at h
    split_ifs at h with hskip htyp
    · exact ih h hs
    · split at h
      · simp only [Option.some.injEq,Prod.mk.injEq] at h
        exact absurd h.1.symm hr
      · rename_i m g₁ hadd
        have hsz := partSize_lt mbr i
        have hs₁ := hs.add (by omega) hadd (by omega) (by omega) (by omega) (by decide) (by decide)
        exact ih h (hs₁.1.reindex m (i+1))
    · split at h
      · cases h
      · rename_i r₁ g₁ hrec
        split_ifs at h with hr₁
        · simp only [Option.some.injEq,Prod.mk.injEq] at h
          exact absurd h.1.symm hr
        · exact ih h (hsub _ _ _ _ hrec hr₁ (by omega) hs)

theorem gptMbr_headed (hN : N < 2^62) (fuel : ℕ) {lba r : ℤ} (h : gptMbr im nombr fuel g lba = some (r,g'))
    (hr : r ≠ -1) (hlba : 0 ≤ lba ∧ lba < 2^63-1) (hs : Headed g N) : Headed g' N := by
  induction fuel generalizing g g' lba r with
  | zero => cases h
  | succ fuel ih =>
    unfold gptMbr at h
    split at h
    · simp only [Option.some.injEq,Prod.mk.injEq] at h
      exact absurd h.1.symm hr
    · split_ifs at h with hsig hpmbr
      · simp only [Option.some.injEq,Prod.mk.injEq] at h
        exact h.2 ▸ hs
      · split at h
        · simp only [Option.some.injEq,Prod.mk.injEq] at h
          exact absurd h.1.symm hr
        · rename_i hadd
          simp only [Option.some.injEq,Prod.mk.injEq] at h
          exact h.2 ▸ (hs.add (by omega) hadd hlba.1 (by omega) (by omega) (by decide) (by decide)).1
      · split at h
        · simp only [Option.some.injEq,Prod.mk.injEq] at h
          exact absurd h.1.symm hr
        · rename_i hadd
          obtain ⟨hs₁,hltN⟩ := hs.add (by omega) hadd hlba.1 (by omega) (by omega) (by decide) (by decide)
          exact mbrParts_headed hN (fun g lba r g' h hr hl hs => ih h hr hl hs) (by omega) h hr hs₁

theorem Barred.add (h : Barred g) (hadd : mapAdd g start size type data alloc = (.ok m,g'))
    (hst : -2^63 ≤ start ∧ start < 2^63) (ht : type ≠ .unused ∧ type ≠ .mbr ∧ type ≠ .mbrPart) : Barred g' := by
  obtain ⟨l,hl,hb⟩ := h
  obtain ⟨l',hl',hcarve⟩ := mapAdd_carve hl start size type data alloc
  rw [hadd] at hl' hcarve
  exact ⟨l',hl',hb.carve hcarve hst ht⟩

theorem gptEntries_barred {hdr : ℕ → UInt8} {p : Buf} {k i : ℕ} {r : ℤ}
    (h : gptEntries hdr p k i g = some (r,g')) (hr : r ≠ -1) (hb : Barred g) : Barred g' := by
  induction k generalizing i g with
  | zero =>
    simp only [gptEntries,Option.some.injEq,Prod.mk.injEq] at h
    exact h.2 ▸ hb
  | succ k ih =>
    unfold gptEntries at h
    dsimp only at h
    split_ifs at h
    · exact ih h hb
    · split at h
      · simp only [Option.some.injEq,Prod.mk.injEq] at h
        exact absurd h.1.symm hr
      · rename_i m g₁ hadd
        obtain ⟨l,hl,hbl⟩ := hb.add hadd (offT_range _) (by decide)
        exact ih h ⟨_,hl.reindex m (i+1),barredList_reindex m (i+1) hbl⟩

/-- A primary GPT keeps sector 1 from being free, even when one of its entries hides its header. -/
theorem gptMap_barred {f : Found} {r : ℤ} (h : gptMap im g 1 f = some (r,g')) (hr : r ≠ -1)
    (hl : IsMap g l) (hc : Covers 0 (l.map Prod.snd) N) (hN : N < 2^63) : Barred g' := by
  unfold gptMap at h
  split at h
  · simp only [Option.some.injEq,Prod.mk.injEq] at h
    exact absurd h.1.symm hr
  · rename_i m g₁ hadd
    have hb₁ : Barred g₁ := by
      obtain ⟨l',hl',hcarve⟩ := mapAdd_carve hl 1 1 (if (1 : ℤ) = 1 then .priGptHdr else .secGptHdr) (.buf f.hdr) true
      rw [hadd] at hl' hcarve
      have hc' := hcarve.covers hc hN (by omega) (by omega) (by omega) (by decide)
      obtain ⟨⟨k,s⟩,he,-,hst,hsz,hty,-⟩ := hcarve.extent
      obtain ⟨pre,post,rfl⟩ := List.append_of_mem he
      rw [List.map_append,List.map_cons] at hc'
      have hends : ∀ u ∈ pre.map Prod.snd ++ s :: post.map Prod.snd, u.end = u.mapStart+u.mapSize := fun u hu =>
        hc'.end_eq le_rfl hN hu
      obtain ⟨c,h₁,hsc,-⟩ := (covers_append _ _ _ _).mp hc'
      dsimp only at hst hsz hty hsc
      refine ⟨_,hl',pre,k,s,post,rfl,fun e he => ?_,?_,?_⟩
      · have hmem : e.2 ∈ pre.map Prod.snd := List.mem_map_of_mem he
        rw [hends e.2 (List.mem_append_left _ hmem)]
        have := (h₁.mem hmem).2.2.2
        omega
      · rw [hends s (by simp)]
        omega
      · rw [Blocks,hty]
        decide
    split at h
    · simp only [Option.some.injEq,Prod.mk.injEq] at h
      exact absurd h.1.symm hr
    · rename_i m' g₂ hadd'
      have hb₂ := hb₁.add hadd' (offT_range _) (by decide)
      split_ifs at h with hne
      · exact absurd rfl hne
      · exact gptEntries_barred h hr hb₂

/-- Without a valid copy the map stays as it is. -/
theorem gptGpt_cases {lba found r : ℤ} (h : gptGpt im g lba found = some (r,g')) :
    g = g' ∨ ∃ f, gptMap im g lba f = some (r,g') := by
  unfold gptGpt at h
  split at h
  · cases h
  · simp only [Option.some.injEq,Prod.mk.injEq] at h
    exact .inl h.2
  · exact .inr ⟨_,h⟩

theorem gptGpt_barred {lba found r : ℤ} (h : gptGpt im g lba found = some (r,g')) (hr : r ≠ -1) (hlba : 1 < lba ∧ lba < 2^63)
    (hb : Barred g) : Barred g' := by
  obtain rfl | ⟨f,h⟩ := gptGpt_cases h
  · exact hb
  · unfold gptMap at h
    have hne : lba ≠ 1 := by omega
    simp only [if_neg hne,if_pos hne] at h
    split at h
    · simp only [Option.some.injEq,Prod.mk.injEq] at h
      exact absurd h.1.symm hr
    · rename_i m g₁ hadd
      have hb₁ := hb.add hadd (by omega) (by decide)
      split at h
      · simp only [Option.some.injEq,Prod.mk.injEq] at h
        exact absurd h.1.symm hr
      · rename_i m' g₂ hadd'
        simp only [Option.some.injEq,Prod.mk.injEq] at h
        exact h.2 ▸ hb₁.add hadd' (offT_range _) (by decide)

theorem FrontedList.carve {l' : List (ℕ × Seg)} (h : FrontedList N l) (hN : N < 2^63)
    (hcarve : Carve l start size type data alloc (.ok m) l') (h0 : 2 ≤ start) (hz : 0 ≤ size)
    (hsum : start+size < 2^63) (hu : type ≠ .unused) (hm : type ≠ .mbr) : FrontedList N l' := by
  obtain ⟨hc,n,s,t,rfl,hfree,hused⟩ := h
  refine ⟨hcarve.covers hc hN (by omega) hsum hz hu,?_⟩
  have hno : s.mapType = .unused → ∀ e ∈ l', e.2.mapType ≠ .mbr := by
    intro hs e he ht
    obtain he | ⟨-,-,-,hty,-⟩ | ⟨hty,-⟩ := hcarve.mem he
    · exact (hfree hs).2 e he ht
    · exact hm (hty.symm.trans ht)
    · rw [hty] at ht
      cases ht
  have hst : s.mapStart = 0 := hc.1
  have hend : s.end = s.mapStart+s.mapSize := hc.end_eq le_rfl hN List.mem_cons_self
  -- where the first segment is cut it is free
  have hhead : ∀ {n' u ys}, Site ((n,s) :: t) start size [] n' u ys → (n = n' ∧ s = u) ∧ t = ys ∧ s.mapType = .unused := by
    intro n' u ys hsite
    obtain ⟨⟨rfl,rfl⟩,rfl⟩ : (n = n' ∧ s = u) ∧ t = ys := by simpa using hsite.split
    refine ⟨⟨rfl,rfl⟩,rfl,?_⟩
    by_contra hne
    have := hsite.behind
    have := hused hne
    omega
  have htail : ∀ {xs n' u ys e} (zs : List (ℕ × Seg)), Site ((n,s) :: t) start size (e :: xs) n' u ys →
      ∃ n s t, e :: xs ++ zs = (n,s) :: t ∧ (s.mapType = .unused → 2 ≤ s.mapSize ∧ ∀ e ∈ l', e.2.mapType ≠ .mbr) ∧
        (s.mapType ≠ .unused → s.mapSize = 1) := by
    intro xs n' u ys e zs hsite
    obtain ⟨rfl,-⟩ : (n,s) = e ∧ t = xs ++ (n',u) :: ys := by simpa using hsite.split
    exact ⟨n,s,xs ++ zs,rfl,fun hs => ⟨(hfree hs).1,hno hs⟩,hused⟩
  cases hcarve with
  | @replace xs _ u ys hsite hs _ =>
    rcases xs with _ | ⟨e,xs⟩
    · obtain ⟨⟨-,rfl⟩,-⟩ := hhead hsite
      omega
    · exact htail _ hsite
  | @front xs _ u ys _ hcut hs _ =>
    rcases xs with _ | ⟨e,xs⟩
    · obtain ⟨⟨-,rfl⟩,-⟩ := hhead hcut.toSite
      omega
    · exact htail _ hcut.toSite
  | @tail xs _ u ys _ hcut hs he _ =>
    obtain ⟨-,-,hsz,-,-,-,-,-,hend',hoff⟩ := hcut.toSite.covers hc hN (by omega) hsum hz
    rcases xs with _ | ⟨e,xs⟩
    · obtain ⟨⟨-,rfl⟩,-,hs'⟩ := hhead hcut.toSite
      refine ⟨_,_,_,rfl,fun _ => ⟨?_,hno hs'⟩,fun hne => absurd rfl hne⟩
      rw [hoff,hend'] at he
      dsimp only
      rw [offT_of_lt (by omega) (by omega)]
      omega
    · exact htail _ hcut.toSite
  | @middle xs _ u ys _ p hcut hs he _ _ =>
    rcases xs with _ | ⟨e,xs⟩
    · obtain ⟨⟨-,rfl⟩,-,hs'⟩ := hhead hcut.toSite
      refine ⟨_,_,_,rfl,fun _ => ⟨?_,hno hs'⟩,fun hne => absurd rfl hne⟩
      simp only [newSeg]
      rw [offT_of_lt (by omega) (by omega)]
      omega
    · exact htail _ hcut.toSite

/-- A secondary header can only be hidden by its own table. -/
theorem gptMap_hidden {lba r : ℤ} {f : Found} (h : gptMap im g lba f = some (r,g')) (hr : r ≠ -1) (hf : Fronted g N)
    (hN : N < 2^62) (hlba : 2 ≤ lba ∧ lba < N) (hs : mapFind g' .secGptHdr = none) : Fronted g' N := by
  unfold gptMap at h
  have hne : lba ≠ 1 := by omega
  simp only [if_neg hne,if_pos hne] at h
  split at h
  · simp only [Option.some.injEq,Prod.mk.injEq] at h
    exact absurd h.1.symm hr
  · rename_i m g₁ hadd
    split at h
    · simp only [Option.some.injEq,Prod.mk.injEq] at h
      exact absurd h.1.symm hr
    · rename_i m' g₂ hadd'
      simp only [Option.some.injEq,Prod.mk.injEq] at h
      obtain ⟨-,rfl⟩ := h
      obtain ⟨l,hl,hfl⟩ := hf
      obtain ⟨l₁,hl₁,hc₁⟩ := mapAdd_carve hl lba 1 .secGptHdr (.buf f.hdr) true
      rw [hadd] at hl₁ hc₁
      have hfl₁ := hfl.carve (by omega) hc₁ (by omega) (by omega) (by omega) (by decide) (by decide)
      obtain ⟨⟨k,s⟩,he,hk,hst,hsz,hty,-⟩ := hc₁.extent
      obtain ⟨l₂,hl₂,hc₂⟩ := mapAdd_carve hl₁ (offT (hdrLbaTable f.hdr.byte)) (tblBlocks im.secsz f.hdr.byte)
        .secGptTbl (.buf f.tbl) true
      rw [hadd'] at hl₂ hc₂
      have hgone := hl₂.find_none.mp hs
      obtain hk' | hk' := hc₂.kept he (by rw [hty]; decide) (by rw [hty]; decide)
      · exact absurd hty (hgone _ hk')
      · have hids : m' ∈ l₁.map Prod.fst := hk' ▸ List.mem_map_of_mem he
        dsimp only at hst hsz
        have hgo : FrontedList N l₂ := by
          cases hc₂ with
          | @replace xs _ u ys hsite hs hz =>
            -- the numbers of the segments differ, so this is the header's own segment
            have hu : s = u := by
              have h₁ : (g₁.cell k).toSeg = s := hl₁.segs _ he
              have h₂ : (g₁.cell m').toSeg = u := hl₁.segs (m',u) (by rw [hsite.split]; simp)
              rw [← h₁,← h₂]
              exact congrArg (fun n => (g₁.cell n).toSeg) hk'
            subst hu
            exact hfl₁.carve (by omega) (.replace hsite hs hz) (by omega) (by omega) (by omega) (by decide)
              (by decide)
          | front _ _ hm => exact absurd hids hm
          | tail _ _ _ hm => exact absurd hids hm
          | middle _ _ _ hm _ => exact absurd hids hm
        exact ⟨l₂,hl₂,hgo⟩

theorem gptGpt_hidden {lba found r : ℤ} (h : gptGpt im g lba found = some (r,g')) (hr : r ≠ -1) (hf : Fronted g N)
    (hN : N < 2^62) (hlba : 2 ≤ lba ∧ lba < N) (hs : mapFind g' .secGptHdr = none) : Fronted g' N := by
  obtain rfl | ⟨f,hmap⟩ := gptGpt_cases h
  · exact hf
  · exact gptMap_hidden hmap hr hf hN hlba hs

theorem mapAdd_first (hl : IsMap g [(n,newSeg 0 N .unused .null false)]) (hN : 1 ≤ N ∧ N < 2^63)
    (hadd : mapAdd g 0 1 type data alloc = (.ok m,g')) (hu : type ≠ .unused) : Headed g' N := by
  obtain ⟨l',hl',hcarve⟩ := mapAdd_carve hl 0 1 type data alloc
  rw [hadd] at hl' hcarve
  have hc : Covers 0 ([(n,newSeg 0 N .unused .null false)].map Prod.snd) N :=
    ⟨rfl,by simp only [newSeg]; omega,fun _ => by simp only [newSeg]; omega,by simp [newSeg,Covers]⟩
  have hc' := hcarve.covers hc hN.2 le_rfl (by omega) (by omega) hu
  have hhead : ∀ {xs n' u ys}, [(n,newSeg 0 N .unused .null false)] = xs ++ (n',u) :: ys →
      xs = [] ∧ u.mapStart = 0 := by
    intro xs n' u ys hsplit
    rcases xs with _ | ⟨e,xs⟩
    · obtain ⟨⟨-,rfl⟩,-⟩ : (n = n' ∧ newSeg 0 N .unused .null false = u) ∧ ys = [] := by simpa using hsplit
      exact ⟨rfl,rfl⟩
    · simp at hsplit
  cases hcarve with
  | @replace xs _ u ys hsite hs hz =>
    obtain ⟨rfl,-⟩ := hhead hsite.split
    exact ⟨_,_,_,hl',hc',hz,hu⟩
  | @front xs _ u ys _ hcut hs _ =>
    obtain ⟨rfl,-⟩ := hhead hcut.split
    exact ⟨_,_,_,hl',hc',rfl,hu⟩
  | @tail xs _ u ys _ hcut hs _ _ => exact absurd (hhead hcut.split).2 hs
  | @middle xs _ u ys _ _ hcut hs _ _ _ => exact absurd (hhead hcut.split).2 hs

/-- What the MBR makes of the map. -/
theorem gptMbr_first {fuel : ℕ} {lba r : ℤ} (h : gptMbr im nombr fuel g lba = some (r,g')) (hlba : lba = 0) (hr : r ≠ -1)
    (hl : IsMap g [(n,newSeg 0 N .unused .null false)]) (hN : 1 ≤ N ∧ N < 2^62) : g' = g ∨ Headed g' N := by
  cases fuel with
  | zero => cases h
  | succ fuel =>
    unfold gptMbr at h
    split at h
    · simp only [Option.some.injEq,Prod.mk.injEq] at h
      exact absurd h.1.symm hr
    · split_ifs at h with hsig hpmbr
      · simp only [Option.some.injEq,Prod.mk.injEq] at h
        exact .inl h.2.symm
      · split at h
        · simp only [Option.some.injEq,Prod.mk.injEq] at h
          exact absurd h.1.symm hr
        · rename_i hadd
          simp only [Option.some.injEq,Prod.mk.injEq] at h
          subst hlba
          exact .inr (h.2 ▸ mapAdd_first hl (by omega) hadd (by decide))
      · split at h
        · simp only [Option.some.injEq,Prod.mk.injEq] at h
          exact absurd h.1.symm hr
        · rename_i hadd
          have hs₁ := mapAdd_first hl (by omega) (hlba ▸ hadd) (by decide)
          have hsub : ∀ g lba r g', gptMbr im nombr fuel g lba = some (r,g') → r ≠ -1 → 0 ≤ lba ∧ lba < 2^63-1 →
              Headed g N → Headed g' N := fun _ _ _ _ h hr hl hs => gptMbr_headed hN.2 fuel h hr hl hs
          exact .inr (mbrParts_headed hN.2 hsub ⟨by omega,by omega⟩ h hr hs₁)

/-- Without a secondary header in the map, either there is a primary GPT, or the map is free of overlaps. -/
theorem gptOpen_shape {fuel : ℕ} {calloc : ℕ → Bool} (h : gptOpen fuel nombr calloc im = some (some g))
    (hs : mapFind g .secGptHdr = none) : Fronted g im.devsz ∨ Barred g := by
  have hN := im.devsz_lt
  unfold gptOpen at h
  split_ifs at h with hsmall
  · simp at h
  · split at h
    · simp at h
    · rename_i g₀ hinit
      obtain ⟨⟨m₀,hl₀⟩,-⟩ := mapInit_isMap hinit
      have hf₀ : Fronted g₀ im.devsz := by
        refine ⟨_,hl₀,⟨rfl,by simp [newSeg],fun _ => ?_,by simp [newSeg,Covers]⟩,m₀,_,[],rfl,
          fun _ => ⟨?_,by simp [newSeg]⟩,fun hu => absurd rfl hu⟩
        · simp only [newSeg]
          omega
        · simp only [newSeg]
          omega
      split at h
      · simp at h
      · rename_i r₁ g₁ hmbr
        split_ifs at h with hr₁
        · simp at h
        · have hf₁ : Fronted g₁ im.devsz := by
            obtain rfl | hh := gptMbr_first hmbr rfl hr₁ hl₀ (by omega)
            · exact hf₀
            · exact hh.fronted
          split at h
          · simp at h
          · rename_i found g₂ hpri
            split_ifs at h with hr₂
            · simp at h
            · split at h
              · simp at h
              · rename_i r₃ g₃ hsec
                split_ifs at h with hr₃
                · simp at h
                · simp only [Option.some.injEq] at h
                  subst h
                  obtain ⟨l₁,hl₁,hfl₁⟩ := hf₁
                  obtain rfl | ⟨f,hmap⟩ := gptGpt_cases hpri
                  · exact .inl (gptGpt_hidden hsec hr₃ ⟨l₁,hl₁,hfl₁⟩ (by omega) (by omega) hs)
                  · exact .inr (gptGpt_barred hsec hr₃ (by omega) (gptMap_barred hmap hr₂ hl₁ hfl₁.1 (by omega)))

end Opened

section Lists
variable {g : Media} {l xs ys : List (ℕ × Seg)} {n : ℕ} {s : Seg} {a z : ℤ}

/-- `map_free` on the list of segments. -/
def freeAt (a z : ℤ) : List Seg → ℤ
  | [] => 0
  | s :: l =>
    if s.end ≤ a then freeAt a z l
    else if s.mapType ≠ .unused then 0
    else if z ≠ 0 then (if s.end ≥ offT (a+z) then 1 else 0)
    else offT (s.mapSize-offT (a-s.mapStart))

/-- The free sectors at the end of the device, behind the last segment in use. -/
def lastFree (l : List Seg) : ℤ :=
  match l.getLast? with
  | none => 0
  | some s => if s.mapType = .unused then s.mapSize else 0

attribute [local grind =] freeAt

theorem IsMap.mapFree_eq (h : IsMap g l) (a z : ℤ) : mapFree g a z = freeAt a z (l.map Prod.snd) := by
  unfold mapFree
  rw [h.walk_eq]
  have hsegs := h.segs
  clear h
  induction l with
  | nil => rfl
  | cons e l ih =>
    have he : (g.cell e.1).toSeg = e.2 := hsegs e List.mem_cons_self
    rw [List.map_cons,List.map_cons,List.find?_cons,freeAt]
    by_cases hend : e.2.end ≤ a
    · rw [he,decide_eq_true hend,if_pos hend]
      exact ih fun x hx => hsegs x (List.mem_cons_of_mem _ hx)
    · rw [he,decide_eq_false hend,if_neg hend]
      show (if (g.cell e.1).toSeg.mapType ≠ .unused then (0 : ℤ) else _) = _
      rw [he]

theorem freeAt_skip (a z : ℤ) {l l' : List Seg} (h : ∀ s ∈ l, s.end ≤ a) : freeAt a z (l ++ l') = freeAt a z l' := by
  induction l with
  | nil => rfl
  | cons s l ih =>
    rw [List.cons_append,freeAt,if_pos (h s List.mem_cons_self)]
    exact ih fun u hu => h u (List.mem_cons_of_mem _ hu)

/-- Where there is something free, there is a segment for it. -/
theorem freeAt_ne_zero (h : freeAt a z (l.map Prod.snd) ≠ 0) :
    ∃ (xs : List (ℕ × Seg)) (n : ℕ) (s : Seg) (ys : List (ℕ × Seg)), l = xs ++ (n,s) :: ys ∧
      (∀ e ∈ xs, e.2.end ≤ a) ∧ a < s.end ∧ s.mapType = .unused := by
  induction l with
  | nil => exact absurd rfl h
  | cons e l ih =>
    rw [List.map_cons,freeAt] at h
    split_ifs at h with hend hu
    · obtain ⟨xs,n,u,ys,rfl,hx,hlt,hu⟩ := ih h
      exact ⟨e :: xs,n,u,ys,rfl,List.forall_mem_cons.mpr ⟨hend,hx⟩,hlt,hu⟩
    · exact absurd rfl h
    all_goals exact ⟨[],e.1,e.2,l,rfl,nofun,not_le.mp hend,not_not.mp hu⟩

theorem IsMap.mapLast_eq (h : IsMap g (xs ++ [(n,s)])) : mapLast g = some n := by
  unfold mapLast
  rw [h.walk_eq,List.map_append,List.find?_append]
  have hnone : (xs.map Prod.fst).find? (fun a => !(g.cell a).mapNext.isSome) = none := by
    rw [List.find?_eq_none]
    intro a ha
    obtain ⟨⟨a,u⟩,he,rfl⟩ := List.mem_map.mp ha
    obtain ⟨as,bs,rfl⟩ := List.append_of_mem he
    rw [List.append_assoc,List.cons_append] at h
    rw [h.links.2]
    cases bs <;> simp
  rw [hnone,Option.none_or]
  have hlast : (g.cell n).mapNext = none := h.links.2
  simp [hlast]

theorem lastFree_append (xs : List (ℕ × Seg)) (n : ℕ) (s : Seg) :
    lastFree ((xs ++ [(n,s)]).map Prod.snd) = if s.mapType = .unused then s.mapSize else 0 := by
  simp [lastFree]

/-- An extent at the front of free space takes one allocation. -/
theorem IsMap.mapAdd_front (h : IsMap g (xs ++ (n,s) :: ys)) (hx : ∀ e ∈ xs, e.2.end ≤ a) (ha : s.mapStart = a)
    (hend : s.end = s.mapStart+s.mapSize) (hu : s.mapType = .unused) (hz : 0 < z ∧ z < s.mapSize)
    (h0 : 0 ≤ s.mapStart) (hlt : s.mapStart+s.mapSize < 2^63) (type : MapType) (data : MapData) (alloc : Bool) :
    (g.calloc g.brk = true → ∃ m g', mapAdd g a z type data alloc = (.ok m,g') ∧
      IsMap g' (xs ++ (m,newSeg a z type data alloc) ::
        (n,{ s with mapStart := a+z, mapSize := s.mapSize-z }) :: ys) ∧
      g'.brk = g.brk+1 ∧ g'.calloc = g.calloc) ∧
    (g.calloc g.brk ≠ true → ∃ e g', mapAdd g a z type data alloc = (.error e,g')) := by
  subst ha
  have hcell : (g.cell n).toSeg = s := h.segs (n,s) (by simp)
  have hoff : offT (s.mapStart+z) = s.mapStart+z := offT_of_lt (by omega) (by omega)
  have hoff' : offT (s.mapSize-z) = s.mapSize-z := offT_of_lt (by omega) (by omega)
  rw [h.mapAdd_at hx (by omega) (by omega),if_neg (fun hc => by omega),if_neg (fun hc => hc.1 hu)]
  set g₀ := g.modify n fun s => { s with mapType := .unused } with hg₀
  have hself : { s with mapType := .unused } = s := by rw [← hu]
  have h₀ : IsMap g₀ (xs ++ (n,s) :: ys) := by
    refine h.modify ?_ rfl rfl
    rw [← hself,← hcell]
  have hcell₀ : (g₀.cell n).toSeg = s := h₀.segs (n,s) (by simp)
  constructor
  · intro hc
    obtain ⟨g₁,hcr,hcalloc,hbrk⟩ := mapCreate_some (show g₀.calloc g₀.brk = true from hc) s.mapStart z type
    obtain ⟨h₁,hm,hmb,-,hmc⟩ := h₀.create hcr
    set g₂ := g₁.modify g₀.brk fun s => { s with mapData := data, mapAlloc := alloc } with hg₂
    have h₂ : IsMap g₂ (xs ++ (n,s) :: ys) := h₁.modify_apart hm _
    have hm₂ : (g₂.cell g₀.brk).toSeg = newSeg s.mapStart z type data alloc := by simp [hg₂,hmc,newSeg]
    have hfront := h₂.cutFront hm hmb z
    rw [hm₂,hoff,hoff'] at hfront
    refine ⟨g₀.brk,Fgdisk.cutFront g₂ n g₀.brk z,?_,hfront,?_,?_⟩
    · unfold mapSplit
      rw [hcr]
      dsimp only
      rw [if_pos (congrArg Seg.mapStart hcell₀).symm]
    · rw [cutFront_brk,hg₂,Media.modify_brk,hbrk,hg₀,Media.modify_brk]
    · rw [cutFront_calloc,hg₂,Media.modify_calloc,hcalloc,hg₀,Media.modify_calloc]
  · intro hc
    obtain ⟨g₁,hcr,-⟩ := mapCreate_none (show g₀.calloc g₀.brk ≠ true from hc) s.mapStart z type
    refine ⟨.cantCreate,g₁,?_⟩
    unfold mapSplit
    rw [hcr]

end Lists

section Sector0
variable {g g₁ : Media} {l : List (ℕ × Seg)} {m : ℕ} {N : ℤ} {data : MapData}

theorem nukeMbr_none (h : mapFind g .mbr = none) : nukeMbr g = g := by rw [nukeMbr,h]

/-- The MBR becomes free space. -/
theorem IsMap.nukeMbr (h : IsMap g l) (hm : mapFind g .mbr = some m) :
    ∃ (xs : List (ℕ × Seg)) (s : Seg) (ys : List (ℕ × Seg)), l = xs ++ (m,s) :: ys ∧
      (∀ e ∈ xs, e.2.mapType ≠ .mbr) ∧ s.mapType = .mbr ∧
      IsMap (nukeMbr g) (xs ++ (m,{ s with mapType := .unused }) :: ys) := by
  obtain ⟨xs,s,ys,rfl,hx,hs,hc⟩ := h.walk_some (fun s => decide (s.mapType ≠ .mbr)) hm
  refine ⟨xs,s,ys,rfl,fun e he => of_decide_eq_true (hx e he),not_not.mp (of_decide_eq_false hs),?_⟩
  rw [Fgdisk.nukeMbr,hm]
  refine h.modify ?_ rfl rfl
  rw [← hc]

theorem nukeMbr_calloc (g : Media) : (nukeMbr g).calloc = g.calloc := by
  unfold nukeMbr
  split <;> rfl

theorem nukeMbr_brk (g : Media) : (nukeMbr g).brk = g.brk := by
  unfold nukeMbr
  split <;> rfl

theorem Barred.nukeMbr (h : Barred g) : Barred (nukeMbr g) := by
  cases hm : mapFind g .mbr with
  | none =>
    rw [nukeMbr_none hm]
    exact h
  | some m =>
    obtain ⟨l,hl,hb⟩ := h
    obtain ⟨xs,s,ys,rfl,-,hs,hl'⟩ := hl.nukeMbr hm
    refine ⟨_,hl',hb.exchange (z := [(m,{ s with mapType := .unused })]) (fun hend e he => ?_) fun _ hbl => ?_⟩
    · rw [List.mem_singleton.mp he]
      exact hend
    · exact absurd hs hbl.2.1

/-- Nothing is free behind sector 0 of a device with a primary GPT. -/
theorem Barred.mapFree_eq (h : Barred g) : mapFree g 1 0 = 0 := by
  obtain ⟨l,hl,pre,k,s,post,rfl,hpre,hs,hb⟩ := h
  rw [hl.mapFree_eq,List.map_append,freeAt_skip 1 0 fun u hu => ?_,List.map_cons,freeAt,if_neg (not_le.mpr hs),
    if_pos hb.1]
  obtain ⟨e,he,rfl⟩ := List.mem_map.mp hu
  exact hpre e he

theorem lastFree_cons {s : Seg} {l : List Seg} (h : l ≠ []) : lastFree (s :: l) = lastFree l := by
  rw [lastFree,List.getLast?_cons_of_ne_nil h,lastFree]

/-- The map with the PMBR in sector 0. What is free behind it and at the end was free before. -/
structure Pmbred (g : Media) (N : ℤ) (data : MapData) (m : ℕ) (g₁ : Media) (s : Seg) (t : List (ℕ × Seg)) : Prop where
  isMap : IsMap g₁ ((m,s) :: t)
  covers : Covers 0 (s :: t.map Prod.snd) N
  size : s.mapSize = 1
  type : s.mapType = .pmbr
  data : s.mapData = data
  calloc : g₁.calloc = g.calloc
  brk : g₁.brk = g.brk+(mapFree g 0 2).toNat
  free : freeAt 1 0 (s :: t.map Prod.snd) = mapFree g 1 0
  last : lastFree (s :: t.map Prod.snd) = lastFree (mapList g) ∨
    lastFree (mapList g) = N ∧ lastFree (s :: t.map Prod.snd) = N-1
  used : ∀ u ∈ mapList g, u.mapType ≠ .unused → u.mapStart = 0 ∧ u.mapType = .mbr ∨ u ∈ t.map Prod.snd

section Front
variable {n : ℕ} {s : Seg} {t : List (ℕ × Seg)}

/-- On a device without an MBR, the PMBR is cut from the free space that it starts with. -/
theorem pmbr_cut (hl : IsMap g ((n,s) :: t)) (hc : Covers 0 (s :: t.map Prod.snd) N) (hN : 6 ≤ N ∧ N < 2^62)
    (hu : s.mapType = .unused) (hsz : 2 ≤ s.mapSize) (hadd : mapAdd g 0 1 .pmbr data true = (.ok m,g₁)) :
    ∃ s t, Pmbred g N data m g₁ s t := by
  have hend : s.end = s.mapStart+s.mapSize := hc.end_eq le_rfl (by omega) List.mem_cons_self
  have hst : s.mapStart = 0 := hc.1
  have hmf : ∀ a z, mapFree g a z = freeAt a z (s :: t.map Prod.snd) := hl.mapFree_eq
  have hsz₀ : s.mapSize ≤ N := by
    have := hc.2.2.2.le
    omega
  have hfront := IsMap.mapAdd_front (a := 0) (z := 1) (show IsMap g ([] ++ (n,s) :: t) from hl)
    (fun e he => absurd he List.not_mem_nil) hst hend hu (by omega) (by omega) (by omega) .pmbr data true
  have hcalloc : g.calloc g.brk = true := by
    by_contra hno
    obtain ⟨e,g',he⟩ := hfront.2 hno
    rw [hadd] at he
    cases he
  obtain ⟨m',g',he,hl',hbrk,hcal⟩ := hfront.1 hcalloc
  rw [hadd] at he
  simp only [Prod.mk.injEq,Except.ok.injEq] at he
  obtain ⟨rfl,rfl⟩ := he
  have hoff₁ : (newSeg 0 1 .pmbr data true).end = 1 := by
    show offT (0+1) = 1
    exact offT_of_lt (by omega) (by omega)
  have hoff₂ : ({ s with mapStart := 0+1, mapSize := s.mapSize-1 } : Seg).end = s.mapSize := by
    have : 0+1+(s.mapSize-1) = s.mapSize := by omega
    rw [Seg.end,this]
    exact offT_of_lt (by omega) (by omega)
  have hoff₃ : offT (s.mapSize-offT (1-s.mapStart)) = s.mapSize-1 := by
    rw [hst,offT_of_lt (show -2^63 ≤ (1 : ℤ)-0 by omega) (by omega),offT_of_lt (by omega) (by omega)]
    omega
  have hoff₄ : offT (s.mapSize-1-offT (1-(0+1))) = s.mapSize-1 := by
    rw [offT_of_lt (show -2^63 ≤ (1 : ℤ)-(0+1) by omega) (by omega),offT_of_lt (by omega) (by omega)]
    omega
  have hoff₅ : offT (0+2) = 2 := offT_of_lt (by omega) (by omega)
  refine ⟨_,_,hl',⟨rfl,by simp [newSeg],(fun he => by cases he),?_⟩,rfl,rfl,rfl,hcal,?_,?_,?_,fun u hu' hne => ?_⟩
  · refine ⟨rfl,?_,fun _ => ?_,?_⟩
    · dsimp only
      omega
    · dsimp only
      omega
    · have := hc.2.2.2
      simp only [newSeg]
      rwa [show (0 : ℤ)+1+(s.mapSize-1) = 0+s.mapSize by omega]
  · rw [hbrk,hmf,freeAt,if_neg (by omega),if_neg (not_not.mpr hu),if_pos (by decide),hoff₅,
      if_pos (by omega)]
    rfl
  · rw [hmf,List.map_cons,freeAt,if_pos hoff₁.le,freeAt,hoff₂,if_neg (by omega),
      if_neg (not_not.mpr hu),if_neg (by decide),freeAt,if_neg (by omega),if_neg (not_not.mpr hu),if_neg (by decide)]
    exact hoff₄.trans hoff₃.symm
  · rw [hl.mapList_eq,List.map_cons,List.map_cons,lastFree_cons (by simp)]
    rcases t with _ | ⟨e,t⟩
    · right
      have hN' : 0+s.mapSize = N := hc.2.2.2
      simp only [lastFree,List.map_nil,List.getLast?_singleton,hu,if_true]
      omega
    · left
      rw [lastFree_cons (by simp),lastFree_cons (by simp)]
  · rw [hl.mapList_eq,List.map_cons,List.mem_cons] at hu'
    obtain rfl | hu' := hu'
    · exact absurd hu hne
    · exact .inr (List.mem_cons_of_mem _ hu')

/-- An MBR is taken over with its segment. -/
theorem pmbr_over (hl : IsMap g ((n,s) :: t)) (hl' : IsMap (nukeMbr g) ((n,{ s with mapType := .unused }) :: t))
    (hc : Covers 0 (s :: t.map Prod.snd) N) (hN : 6 ≤ N ∧ N < 2^62) (hty : s.mapType = .mbr) (hsz : s.mapSize = 1)
    (hadd : mapAdd (nukeMbr g) 0 1 .pmbr data true = (.ok m,g₁)) : ∃ s t, Pmbred g N data m g₁ s t := by
  have hend : s.end = s.mapStart+s.mapSize := hc.end_eq le_rfl (by omega) List.mem_cons_self
  have hst : s.mapStart = 0 := hc.1
  have hmf : ∀ a z, mapFree g a z = freeAt a z (s :: t.map Prod.snd) := hl.mapFree_eq
  have hu : s.mapType ≠ .unused := by
    rw [hty]
    decide
  have hself := IsMap.mapAdd_self (show IsMap (nukeMbr g) ([] ++ (n,{ s with mapType := .unused }) :: t) from hl')
    (fun e he => absurd he List.not_mem_nil) (show s.mapStart < s.end by omega) .pmbr data true
  dsimp only at hself
  rw [hst,hsz,hadd] at hself
  simp only [Prod.mk.injEq,Except.ok.injEq] at hself
  obtain ⟨rfl,rfl⟩ := hself
  have hcell : ((nukeMbr g).cell m).toSeg = { s with mapType := .unused } :=
    hl'.segs (m,{ s with mapType := .unused }) (by simp)
  have hl₁ : IsMap ((nukeMbr g).modify m fun u => { u with mapType := .pmbr, mapData := data, mapAlloc := true })
      ([] ++ (m,{ s with mapType := .pmbr, mapData := data, mapAlloc := true }) :: t) := by
    refine hl'.modify ?_ rfl rfl
    have := congrArg (fun s : Seg => { s with mapType := .pmbr, mapData := data, mapAlloc := true }) hcell
    exact this
  have hne : t ≠ [] := by
    rintro rfl
    have hN' : 0+s.mapSize = N := hc.2.2.2
    omega
  have hskip : ∀ {s' : Seg}, s'.mapStart = s.mapStart → s'.mapSize = s.mapSize →
      freeAt 1 0 (s' :: t.map Prod.snd) = freeAt 1 0 (t.map Prod.snd) := by
    intro s' h₁ h₂
    rw [freeAt,if_pos]
    rw [Seg.end,h₁,h₂]
    exact (show s.end ≤ 1 by omega)
  refine ⟨_,t,hl₁,⟨hc.1,hc.2.1,(fun he => by cases he),hc.2.2.2⟩,hsz,rfl,rfl,?_,?_,?_,?_,fun u hu' hne => ?_⟩
  · rw [Media.modify_calloc,nukeMbr_calloc]
  · rw [Media.modify_brk,nukeMbr_brk,hmf,freeAt,if_neg (by omega),if_pos hu]
    rfl
  · rw [hmf,hskip rfl rfl]
    exact hskip rfl rfl
  · left
    rw [hl.mapList_eq,List.map_cons,lastFree_cons (by simpa using hne),lastFree_cons (by simpa using hne)]
  · rw [hl.mapList_eq,List.map_cons,List.mem_cons] at hu'
    obtain rfl | hu' := hu'
    · exact .inl ⟨hst,hty⟩
    · exact .inr hu'

end Front

theorem pmbr_added (hf : Fronted g N) (hN : 6 ≤ N ∧ N < 2^62) (hfree : mapFree (nukeMbr g) 0 1 ≠ 0)
    (hadd : mapAdd (nukeMbr g) 0 1 .pmbr data true = (.ok m,g₁)) : ∃ s t, Pmbred g N data m g₁ s t := by
  obtain ⟨_,hl,hc,n,s,t,rfl,hfr,hus⟩ := hf
  have hc : Covers 0 (s :: t.map Prod.snd) N := hc
  by_cases hu : s.mapType = .unused
  · obtain ⟨hsz,hno⟩ := hfr hu
    rw [nukeMbr_none (hl.find_none.mpr hno)] at hadd
    exact pmbr_cut hl hc hN hu hsz hadd
  · have hsz := hus hu
    have hend : s.end = s.mapStart+s.mapSize := hc.end_eq le_rfl (by omega) List.mem_cons_self
    have hst : s.mapStart = 0 := hc.1
    -- nothing is free in front of a segment in use at 0
    have hfst : ∀ {g : Media} {t : List (ℕ × Seg)}, IsMap g ((n,s) :: t) → mapFree g 0 1 = 0 := by
      intro g t hl
      rw [hl.mapFree_eq,List.map_cons,freeAt,if_neg (show ¬ s.end ≤ 0 by omega),if_pos hu]
    obtain ⟨k,hk⟩ : ∃ k, mapFind g .mbr = some k := by
      by_contra hno
      rw [nukeMbr_none (Option.eq_none_iff_forall_ne_some.mpr fun k hk => hno ⟨k,hk⟩)] at hfree
      exact hfree (hfst hl)
    obtain ⟨xs,u,ys,hsplit,-,hty,hl'⟩ := hl.nukeMbr hk
    rcases xs with _ | ⟨e,xs⟩
    · obtain ⟨⟨rfl,rfl⟩,rfl⟩ : (n = k ∧ s = u) ∧ t = ys := by simpa using hsplit
      exact pmbr_over hl hl' hc hN hty hsz hadd
    · obtain ⟨rfl,-⟩ : (n,s) = e ∧ t = xs ++ (k,u) :: ys := by simpa using hsplit
      exact absurd (hfst hl') hfree

end Sector0

section Clip
variable {im : Image} {parts : ℕ} {free last : ℤ}

/-- The blocks that `parts` entries take. -/
def partsBlocks (im : Image) (parts : ℕ) : ℤ :=
  (parts*entStructSize/im.secsz : ℕ)+(if parts*entStructSize%im.secsz ≠ 0 then 1 else 0)

theorem partsBlocks_pos (im : Image) (hp : 1 ≤ parts) : 1 ≤ partsBlocks im parts := by
  have hs := im.secsz_ge
  unfold partsBlocks entStructSize
  have hq := Int.natCast_nonneg (parts*128/im.secsz)
  split_ifs with h
  · omega
  · have hdvd : im.secsz ∣ parts*128 := Nat.dvd_of_mod_eq_zero (not_not.mp h)
    have hpos : 0 < parts*128/im.secsz := Nat.div_pos (Nat.le_of_dvd (by omega) hdvd) (by omega)
    omega

theorem partsBlocks_le {n : ℕ} (h : parts*entStructSize < n*im.secsz) : partsBlocks im parts ≤ n := by
  have hs := im.secsz_ge
  have hlt : parts*entStructSize/im.secsz < n := (Nat.div_lt_iff_lt_mul (by omega)).mpr h
  unfold partsBlocks
  split_ifs <;> omega

theorem u64_mul_secsz (hf : 1 ≤ free) (hN : free ≤ im.devsz) :
    u64 (free-1)*im.secsz%2^64 = (free-1).toNat*im.secsz := by
  have hm := im.mediasz_lt
  have hle : im.devsz*im.secsz ≤ im.mediasz := Nat.div_mul_le_self _ _
  have hu : u64 (free-1) = (free-1).toNat := by
    have hN' := im.devsz_lt
    unfold u64
    rw [Int.emod_eq_of_lt (by omega) (by omega)]
  have hmul : (free-1).toNat*im.secsz ≤ im.devsz*im.secsz := Nat.mul_le_mul_right _ (by omega)
  rw [hu]
  exact Nat.mod_eq_of_lt (by omega)

/-- The clipped number of blocks fits everywhere, and it leaves the table nothing only where there is only one
sector. -/
theorem clipBlocks_spec (im : Image) (free last : ℤ) (hp : 1 ≤ parts) (hN : 6 ≤ im.devsz) (hf : 1 ≤ free) (hfN : free ≤ im.devsz) (hl : 1 ≤ last) :
    1 ≤ clipBlocks im parts free last ∧ clipBlocks im parts free last ≤ free ∧ clipBlocks im parts free last ≤ last ∧
      2*clipBlocks im parts free last+2 ≤ im.devsz ∧ clipBlocks im parts free last ≤ partsBlocks im parts+1 ∧
      (clipBlocks im parts free last = 1 ↔ free = 1 ∨ last = 1) := by
  have hpos := partsBlocks_pos im hp
  have hle : (free-1).toNat*im.secsz > parts*entStructSize → partsBlocks im parts ≤ (free-1).toNat := partsBlocks_le
  have hge : ¬ (free-1).toNat*im.secsz > parts*entStructSize → free-1 ≤ partsBlocks im parts := by
    intro h
    have hdiv : (free-1).toNat ≤ parts*entStructSize/im.secsz :=
      (Nat.le_div_iff_mul_le (by have := im.secsz_ge; omega)).mpr (by omega)
    unfold partsBlocks
    split_ifs <;> omega
  have hpb : ((parts*entStructSize/im.secsz : ℕ) : ℤ)+(if parts*entStructSize%im.secsz ≠ 0 then 1 else 0) =
      partsBlocks im parts := rfl
  unfold clipBlocks
  dsimp only
  rw [u64_mul_secsz hf hfN,hpb]
  split_ifs <;> omega

/-- Half of the device is a bound that a sector more or less at its end does not change. -/
theorem clipBlocks_whole (hp : 1 ≤ parts) (hN : 6 ≤ im.devsz) (hf : 1 ≤ free) (hfN : free ≤ im.devsz) :
    clipBlocks im parts free (im.devsz-1) = clipBlocks im parts free im.devsz := by
  have hpos := partsBlocks_pos im hp
  have hpb : ((parts*entStructSize/im.secsz : ℕ) : ℤ)+(if parts*entStructSize%im.secsz ≠ 0 then 1 else 0) =
      partsBlocks im parts := rfl
  unfold clipBlocks
  dsimp only
  rw [u64_mul_secsz hf hfN,hpb]
  split_ifs <;> omega

end Clip

section Clean
variable {im : Image} {w : CreateWorld} {a : CreateArgs} {g g₁ : Media} {s : Seg} {t : List (ℕ × Seg)} {m : ℕ}
  {N free last : ℤ} {data : MapData}

theorem lastFree_pos {l : List Seg} {b : ℤ} (hc : Covers b l N) (h : lastFree l ≠ 0) :
    ∃ (xs : List Seg) (s : Seg), l = xs ++ [s] ∧ s.mapType = .unused ∧ lastFree l = s.mapSize ∧ 1 ≤ s.mapSize := by
  rcases l.eq_nil_or_concat with rfl | ⟨xs,s,rfl⟩
  · exact absurd rfl h
  · rw [List.concat_eq_append] at hc h ⊢
    have hlast : lastFree (xs ++ [s]) = if s.mapType = .unused then s.mapSize else 0 := by simp [lastFree]
    rw [hlast] at h
    split_ifs at h with hu
    · exact ⟨xs,s,rfl,hu,by rw [hlast,if_pos hu],(hc.mem (by simp)).2.2.1 hu⟩
    · exact absurd rfl h

/-- `createBlocks` on the list of segments. -/
theorem IsMap.createBlocks_eq {l : List (ℕ × Seg)} (h : IsMap g l) (hne : l ≠ []) (hc : Covers 0 (l.map Prod.snd) N)
    (parts : ℕ) : createBlocks im g parts =
      if mapFree g 1 0 = 0 then some (.error .noHdrRoom)
      else if lastFree (l.map Prod.snd) = 0 then some (.error .noBackupRoom)
      else if clipBlocks im parts (mapFree g 1 0) (lastFree (l.map Prod.snd)) = 1 then some (.error .noTblRoom)
      else some (.ok (clipBlocks im parts (mapFree g 1 0) (lastFree (l.map Prod.snd)))) := by
  rcases l.eq_nil_or_concat with rfl | ⟨xs,⟨n,s⟩,rfl⟩
  · exact absurd rfl hne
  · rw [List.concat_eq_append] at h hc ⊢
    have hcell : (g.cell n).toSeg = s := h.segs (n,s) (by simp)
    unfold createBlocks
    dsimp only
    rw [h.mapLast_eq,lastFree_append]
    by_cases hf : mapFree g 1 0 = 0
    · rw [if_pos hf,if_pos hf]
    · have hty : (g.cell n).mapType = s.mapType := congrArg Seg.mapType hcell
      have hsz : (g.cell n).mapSize = s.mapSize := congrArg Seg.mapSize hcell
      rw [if_neg hf,if_neg hf]
      dsimp only
      rw [hty,hsz]
      by_cases hu : s.mapType = .unused
      · have hz : s.mapSize ≠ 0 := by
          have := (hc.mem (s := s) (by simp)).2.2.1 hu
          omega
        rw [if_neg (not_not.mpr hu),if_pos hu,if_neg hz]
      · rw [if_pos hu,if_neg hu,if_pos rfl]

/-- The free space behind a PMBR. -/
structure Room (l : List (ℕ × Seg)) (free : ℤ) (xs : List (ℕ × Seg)) (n : ℕ) (s : Seg) (ys : List (ℕ × Seg)) : Prop where
  split : l = xs ++ (n,s) :: ys
  before : ∀ e ∈ xs, e.2.end ≤ 1
  start : s.mapStart = 1
  size : s.mapSize = free
  unused : s.mapType = .unused

theorem Covers.room {l : List (ℕ × Seg)} {n₀ : ℕ} {s₀ : Seg} (hc : Covers 0 (((n₀,s₀) :: l).map Prod.snd) N) (hN : N < 2^62)
    (hs₀ : s₀.mapSize = 1) (hfree : freeAt 1 0 (((n₀,s₀) :: l).map Prod.snd) = free) (hf : free ≠ 0) :
    ∃ xs n s ys, Room ((n₀,s₀) :: l) free xs n s ys := by
  have hc : Covers 0 (s₀ :: l.map Prod.snd) N := hc
  have hfree : freeAt 1 0 (s₀ :: l.map Prod.snd) = free := hfree
  obtain ⟨xs,n,s,ys,hl,hx,hlt,hu⟩ := freeAt_ne_zero (l := (n₀,s₀) :: l) (hfree ▸ hf)
  have hends : ∀ u ∈ ((n₀,s₀) :: l).map Prod.snd, u.end = u.mapStart+u.mapSize := fun u hu =>
    hc.end_eq le_rfl (by omega) hu
  have hst₀ : s₀.mapStart = 0 := hc.1
  rcases xs with _ | ⟨e,xs⟩
  · obtain ⟨⟨rfl,rfl⟩,-⟩ : (n₀ = n ∧ s₀ = s) ∧ l = ys := by simpa using hl
    rw [hends s₀ (by simp)] at hlt
    omega
  · obtain ⟨rfl,rfl⟩ : (n₀,s₀) = e ∧ l = xs ++ (n,s) :: ys := by simpa using hl
    rw [List.map_append,List.map_cons] at hc hfree
    dsimp only at hc hfree
    have hmem := hc.mem (s := s) (by simp)
    have hpos := hmem.2.2.1 hu
    have hst : s.mapStart = 1 := by
      obtain ⟨c,h₁,hsc,-⟩ := (covers_append _ _ _ _).mp hc.2.2.2
      have := h₁.le
      have hle : s.mapStart ≤ 1 := by
        rw [hsc]
        refine h₁.cut_le (by omega) (by omega) (by omega) fun u hu => ?_
        obtain ⟨e,he,rfl⟩ := List.mem_map.mp hu
        exact hx e (List.mem_cons_of_mem _ he)
      omega
    refine ⟨(n₀,s₀) :: xs,n,s,ys,rfl,hx,hst,?_,hu⟩
    rw [← hfree,← List.cons_append,freeAt_skip 1 0 fun u hu => ?_,freeAt,if_neg (not_le.mpr hlt),
      if_neg (not_not.mpr hu),if_neg (by decide),hst,offT_of_lt (show -2^63 ≤ (1 : ℤ)-1 by omega) (by omega),
      offT_of_lt (by omega) (by omega)]
    · omega
    · rcases List.mem_cons.mp hu with rfl | hu
      · exact hx _ List.mem_cons_self
      · obtain ⟨e,he,rfl⟩ := List.mem_map.mp hu
        exact hx e (List.mem_cons_of_mem _ he)

/-- The header and the table find their place behind the PMBR, if there is memory for them. -/
theorem createPrimary_error_iff (im : Image) (w : CreateWorld) {l xs ys : List (ℕ × Seg)} {n : ℕ} (hl : IsMap g l) (hr : Room l free xs n s ys)
    (hf : free < 2^62) (parts : ℕ) (blocks : ℤ) (hb : 2 ≤ blocks ∧ blocks ≤ free) (out : List Seg) :
    (∃ e gd', createPrimary im w parts ⟨im.secsz,g,out⟩ blocks = (.error e,gd')) ↔
      ¬ (w.calloc 0 = true ∧ w.calloc 1 = true ∧ g.calloc g.brk = true ∧
        (blocks = free ∨ g.calloc (g.brk+1) = true)) := by
  obtain ⟨rfl,hx,hst,hsz,hu⟩ := hr
  have hend : s.end = s.mapStart+s.mapSize := offT_of_lt (by omega) (by omega)
  unfold createPrimary
  by_cases h₀ : w.calloc 0 = true
  swap
  · rw [if_pos h₀]
    exact iff_of_true ⟨_,_,rfl⟩ fun h => h₀ h.1
  rw [if_neg (not_not.mpr h₀)]
  have hhdr := hl.mapAdd_front (a := 1) (z := 1) hx hst hend hu (by omega) (by omega) (by omega) .priGptHdr
    (.buf (sectors im.secsz 1 fun _ => 0)) true
  by_cases h₁ : g.calloc g.brk = true
  swap
  · obtain ⟨e,g',he⟩ := hhdr.2 h₁
    rw [he]
    exact iff_of_true ⟨_,_,rfl⟩ fun h => h₁ h.2.2.1
  obtain ⟨m,g₁,he,hl₁,hbrk,hcalloc⟩ := hhdr.1 h₁
  rw [he]
  dsimp only
  by_cases h₂ : w.calloc 1 = true
  swap
  · rw [if_pos (.inr h₂)]
    exact iff_of_true ⟨_,_,rfl⟩ fun h => h₂ h.2.1
  rw [if_neg (not_or.mpr ⟨by omega,not_not.mpr h₂⟩)]
  -- the table comes to where the free space now starts
  set u : Seg := { s with mapStart := 1+1, mapSize := s.mapSize-1 } with hu'
  have hend₁ : u.end = u.mapStart+u.mapSize := offT_of_lt (by rw [hu']; dsimp only; omega) (by rw [hu']; dsimp only; omega)
  have hu₁ : u.mapStart = 2 := rfl
  have hu₂ : u.mapSize = s.mapSize-1 := rfl
  rw [List.append_cons] at hl₁
  have hx₁ : ∀ e ∈ xs ++ [(m,newSeg 1 1 .priGptHdr (.buf (sectors im.secsz 1 fun _ => 0)) true)], e.2.end ≤ 2 := by
    refine List.forall_mem_append.mpr ⟨fun e he => (hx e he).trans (by omega),fun e he => ?_⟩
    rw [List.mem_singleton.mp he]
    exact (offT_of_lt (by omega) (by omega) : offT (1+1) = 1+1).le
  by_cases hexact : blocks = free
  · have hself := hl₁.mapAdd_self (by rw [hu₁]; exact hx₁) (by omega) .priGptTbl
      (.buf (sectors im.secsz (blocks-1) fun _ => 0)) true
    rw [hu₁,hu₂,hsz,← hexact] at hself
    rw [hself]
    refine iff_of_false (by rintro ⟨e,gd',h⟩; cases h) (not_not.mpr ⟨h₀,h₂,h₁,.inl hexact⟩)
  · have htbl := hl₁.mapAdd_front (a := 2) (z := blocks-1) hx₁ hu₁ hend₁ hu (by omega) (by omega) (by omega) .priGptTbl
      (.buf (sectors im.secsz (blocks-1) fun _ => 0)) true
    rw [hbrk,hcalloc] at htbl
    by_cases h₃ : g.calloc (g.brk+1) = true
    · obtain ⟨m',g₂,he₂,-⟩ := htbl.1 h₃
      rw [he₂]
      refine iff_of_false (by rintro ⟨e,gd',h⟩; cases h) (not_not.mpr ⟨h₀,h₂,h₁,.inr h₃⟩)
    · obtain ⟨e,g',he₂⟩ := htbl.2 h₃
      rw [he₂]
      exact iff_of_true ⟨_,_,rfl⟩ fun h => h.2.2.2.elim hexact h₃

/-- If `create` ends with an error, nothing has been written. -/
def CreateClean (im : Image) (w : CreateWorld) (a : CreateArgs) (g : Media) : Prop :=
  ∀ e gd', create im w a ⟨im.secsz,g,[]⟩ = some (some e,gd') → gd'.out = []

/-- There are two sectors at least behind sector 0 and at the end of the device, and memory for the header and the
table. The PMBR takes an allocation itself where it is cut from a larger segment. -/
structure CreateRoom (im : Image) (w : CreateWorld) (a : CreateArgs) (g : Media) : Prop where
  hdr : 1 < mapFree g 1 0
  backup : 1 < lastFree (mapList g)
  sectors : w.calloc 0 = true ∧ w.calloc 1 = true
  gpt : g.calloc (g.brk+(mapFree g 0 2).toNat) = true
  tbl : clipBlocks im a.parts (mapFree g 1 0) (lastFree (mapList g)) = mapFree g 1 0 ∨
    g.calloc (g.brk+(mapFree g 0 2).toNat+1) = true

/-- The PMBR gets its segment in the map without the old MBR. -/
def PmbrAdded (im : Image) (g : Media) : Prop :=
  ∃ b m g₁, gptRead im 0 1 = some b ∧
    mapAdd (nukeMbr g) 0 1 .pmbr (.buf (pmbrBuf b ((im.devsz : ℤ)-1))) true = (.ok m,g₁)

/-- Nothing is written, or everything has its place. -/
def CreateSafe (im : Image) (w : CreateWorld) (a : CreateArgs) (g : Media) : Prop :=
  (mapFind g .priGptHdr).isSome ∨ (mapFind g .secGptHdr).isSome ∨ ((mapFind g .mbr).isSome ∧ ¬ a.force) ∨
    (mapFind g .pmbr).isSome ∨ mapFree (nukeMbr g) 0 1 = 0 ∨ ¬ PmbrAdded im g ∨ CreateRoom im w a g

theorem createPrimary_error_out {parts : ℕ} {gd gd' : Gd} {blocks : ℤ} {e : CreateError}
    (h : createPrimary im w parts gd blocks = (.error e,gd')) : gd'.out = gd.out := by
  unfold createPrimary at h
  by_cases h₀ : ¬ w.calloc 0 = true
  · rw [if_pos h₀] at h
    cases h
    rfl
  rw [if_neg h₀] at h
  generalize mapAdd gd.media 1 1 .priGptHdr (.buf (sectors im.secsz 1 fun _ => 0)) true = r at h
  rcases r with ⟨_ | gpt,g⟩
  · cases h
    rfl
  dsimp only at h
  by_cases h₁ : blocks-1 < 0 ∨ ¬ w.calloc 1 = true
  · rw [if_pos h₁] at h
    cases h
    rfl
  rw [if_neg h₁] at h
  generalize mapAdd g 2 (blocks-1) .priGptTbl (.buf (sectors im.secsz (blocks-1) fun _ => 0)) true = r at h
  rcases r with ⟨_ | tbl,g⟩
  · cases h
    rfl
  · cases h

theorem IsMap.find_pmbr {l : List (ℕ × Seg)} (h : IsMap g l) :
    mapFind (Fgdisk.nukeMbr g) .pmbr = none ↔ mapFind g .pmbr = none := by
  cases hm : mapFind g .mbr with
  | none => rw [nukeMbr_none hm]
  | some k =>
    obtain ⟨xs,u,ys,rfl,-,hu,hl'⟩ := h.nukeMbr hm
    rw [h.find_none,hl'.find_none]
    simp only [List.forall_mem_append,List.forall_mem_cons,hu]
    simp

/-- With the PMBR in the map, the rest fails exactly where there is no room. -/
theorem createBlocks_room {data : MapData} (hp : Pmbred g im.devsz data m g₁ s t) (hN : 6 ≤ im.devsz) (parts : ℕ)
    (hparts : 1 ≤ parts) :
    (¬ (1 < mapFree g 1 0 ∧ 1 < lastFree (mapList g)) ∧ ∃ e, createBlocks im g₁ parts = some (.error e)) ∨
    (1 < mapFree g 1 0 ∧ 1 < lastFree (mapList g)) ∧
      createBlocks im g₁ parts = some (.ok (clipBlocks im parts (mapFree g 1 0) (lastFree (mapList g)))) := by
  have hN' := im.devsz_lt
  have hcov : Covers 0 (((m,s) :: t).map Prod.snd) im.devsz := hp.covers
  rw [hp.isMap.createBlocks_eq (by simp) hcov,hp.isMap.mapFree_eq,List.map_cons,hp.free]
  by_cases hf : mapFree g 1 0 = 0
  · rw [if_pos hf]
    exact .inl ⟨fun h => by omega,_,rfl⟩
  rw [if_neg hf]
  obtain ⟨xs,n,u,ys,hroom⟩ := Covers.room hcov (by omega) hp.size hp.free hf
  have hmem := hcov.mem (s := u) (by rw [hroom.split]; simp)
  have hst := hroom.start
  have hsz := hroom.size
  have hpos := hmem.2.2.1 hroom.unused
  by_cases hl : lastFree (s :: t.map Prod.snd) = 0
  · rw [if_pos hl]
    refine .inl ⟨fun h => ?_,_,rfl⟩
    obtain hlast | hlast := hp.last <;> omega
  rw [if_neg hl]
  obtain ⟨-,z,-,-,hz,hzpos⟩ := lastFree_pos hp.covers hl
  have hclip := clipBlocks_spec im (mapFree g 1 0) (lastFree (s :: t.map Prod.snd)) hparts hN
    (by omega) (by omega) (by omega)
  -- a sector more at the end of an empty device makes no difference
  have hsame : clipBlocks im parts (mapFree g 1 0) (lastFree (s :: t.map Prod.snd)) =
      clipBlocks im parts (mapFree g 1 0) (lastFree (mapList g)) := by
    obtain hlast | ⟨hlast,hlast'⟩ := hp.last
    · rw [hlast]
    · rw [hlast,hlast']
      exact clipBlocks_whole hparts hN (by omega) (by omega)
  have hiff := hclip.2.2.2.2.2
  rw [hsame] at hiff ⊢
  by_cases hone : clipBlocks im parts (mapFree g 1 0) (lastFree (mapList g)) = 1
  · rw [if_pos hone]
    refine .inl ⟨fun h => ?_,_,rfl⟩
    obtain hlast | hlast := hp.last <;> omega
  · rw [if_neg hone]
    refine .inr ⟨⟨by omega,?_⟩,rfl⟩
    obtain hlast | hlast := hp.last <;> omega

/-- What comes after the PMBR. -/
theorem createLabel_of_pmbr {gd gd₁ : Gd} (h : createPmbr im gd = some (none,gd₁)) : createLabel im w a gd =
    match createBlocks im gd₁.media a.parts with
    | none => none
    | some (.error e) => some (some e,gd₁)
    | some (.ok blocks) =>
      match createPrimary im w a.parts gd₁ blocks with
      | (.error e,gd) => some (some e,gd)
      | (.ok n,gd) => if a.primaryOnly then some (none,gd) else (createBackup im w gd n).map fun gd => (none,gd) := by
  unfold createLabel
  generalize createPmbr im gd = r at h
  subst h
  rfl

/-- Behind the PMBR, an error writes nothing more. -/
theorem createLabel_error_out {gd gd₁ gd' : Gd} {e : CreateError} (h : createPmbr im gd = some (none,gd₁))
    (he : createLabel im w a gd = some (some e,gd')) : gd'.out = gd₁.out := by
  rw [createLabel_of_pmbr h] at he
  split at he
  · cases he
  · simp only [Option.some.injEq,Prod.mk.injEq] at he
    rw [← he.2]
  · split at he
    · rename_i hprim
      simp only [Option.some.injEq,Prod.mk.injEq] at he
      rw [← he.2]
      exact createPrimary_error_out hprim
    · split_ifs at he
      · simp at he
      · simp at he

theorem createPmbr_added {gd : Gd} {b : Buf} (hp : mapFind gd.media .pmbr = none) (hf : mapFree gd.media 0 1 ≠ 0)
    (hb : gptRead im 0 1 = some b)
    (hadd : mapAdd gd.media 0 1 .pmbr (.buf (pmbrBuf b ((im.devsz : ℤ)-1))) true = (.ok m,g₁)) :
    createPmbr im gd = some (none,gptWrite { gd with media := g₁ } m) := by
  unfold createPmbr
  rw [hp,if_neg (by simp),if_neg hf,hb]
  simp only [hadd]

/-- `create` does not notice that the PMBR has found no place. -/
theorem createPmbr_none {gd : Gd} (hp : mapFind gd.media .pmbr = none) (hf : mapFree gd.media 0 1 ≠ 0)
    (hno : ∀ b m g₁, gptRead im 0 1 = some b →
      mapAdd gd.media 0 1 .pmbr (.buf (pmbrBuf b ((im.devsz : ℤ)-1))) true ≠ (.ok m,g₁)) : createPmbr im gd = none := by
  unfold createPmbr
  rw [hp,if_neg (by simp),if_neg hf]
  cases hb : gptRead im 0 1 with
  | none => rfl
  | some b =>
    rcases hadd : mapAdd gd.media 0 1 .pmbr (.buf (pmbrBuf b ((im.devsz : ℤ)-1))) true with ⟨e | m,g₁⟩
    · simp only [hadd]
    · exact absurd hadd (hno b m g₁ hb)

/-- Without a GPT, and with leave to overwrite an MBR, `create` gets to the label. -/
theorem create_of_clear {gd : Gd} (hhdr : ¬ ((mapFind gd.media .priGptHdr).isSome ∨ (mapFind gd.media .secGptHdr).isSome))
    (hmbr : ¬ ((mapFind gd.media .mbr).isSome ∧ ¬ a.force)) :
    create im w a gd = createLabel im w a { gd with media := nukeMbr gd.media } := by
  unfold create
  rw [if_neg hhdr,if_neg hmbr]

/-- After the PMBR was written, the rest fails unless there is room for it. -/
theorem createLabel_error_iff {b : Buf} (hs : Fronted g im.devsz ∨ Barred g) (hN : 6 ≤ im.devsz)
    (hp : mapFind (nukeMbr g) .pmbr = none) (hf : mapFree (nukeMbr g) 0 1 ≠ 0) (hb : gptRead im 0 1 = some b)
    (hadd : mapAdd (nukeMbr g) 0 1 .pmbr (.buf (pmbrBuf b ((im.devsz : ℤ)-1))) true = (.ok m,g₁)) :
    (∃ e gd', createLabel im w a ⟨im.secsz,nukeMbr g,[]⟩ = some (some e,gd')) ↔ ¬ CreateRoom im w a g := by
  have hN' := im.devsz_lt
  have hpm : createPmbr im ⟨im.secsz,nukeMbr g,[]⟩ = some (none,⟨im.secsz,g₁,[(g₁.cell m).toSeg]⟩) :=
    createPmbr_added hp hf hb hadd
  rw [createLabel_of_pmbr hpm]
  dsimp only
  rcases hs with hs | hs
  · obtain ⟨s,t,hpm⟩ := pmbr_added hs (by omega) hf hadd
    obtain ⟨hno,e,he⟩ | ⟨⟨h₁,h₂⟩,he⟩ := createBlocks_room hpm hN a.parts a.parts_pos
    · rw [he]
      exact iff_of_true ⟨_,_,rfl⟩ fun h => hno ⟨h.hdr,h.backup⟩
    · have hcov : Covers 0 (((m,s) :: t).map Prod.snd) im.devsz := hpm.covers
      obtain ⟨xs,n,u,ys,hroom⟩ := Covers.room hcov (by omega) hpm.size hpm.free (by omega)
      have hmem := hcov.mem (s := u) (by rw [hroom.split]; simp)
      have hst := hroom.start
      have hsz := hroom.size
      have hclip := clipBlocks_spec im (mapFree g 1 0) (lastFree (mapList g)) a.parts_pos hN
        (by omega) (by omega) (by omega)
      have hprim := createPrimary_error_iff im w hpm.isMap hroom (by omega) a.parts
        (clipBlocks im a.parts (mapFree g 1 0) (lastFree (mapList g))) (by omega) [(g₁.cell m).toSeg]
      rw [hpm.brk,hpm.calloc] at hprim
      rw [he]
      dsimp only
      constructor
      · rintro ⟨e,gd',h⟩ hr
        refine hprim.mp ?_ ⟨hr.sectors.1,hr.sectors.2,hr.gpt,hr.tbl⟩
        split at h
        · rename_i e' gd'' hrun
          exact ⟨e',gd'',hrun⟩
        · split_ifs at h
          · simp at h
          · simp at h
      · intro hr
        obtain ⟨e,gd',hrun⟩ := hprim.mpr fun h => hr ⟨h₁,h₂,⟨h.1,h.2.1⟩,h.2.2.1,h.2.2.2⟩
        rw [hrun]
        exact ⟨e,gd',rfl⟩
  · have hb₁ : Barred g₁ := hs.nukeMbr.add hadd (by omega) (by decide)
    have hblocks : createBlocks im g₁ a.parts = some (.error .noHdrRoom) := by
      unfold createBlocks
      rw [hb₁.mapFree_eq]
      rfl
    rw [hblocks]
    refine iff_of_true ⟨_,_,rfl⟩ fun h => ?_
    have := h.hdr
    rw [hs.mapFree_eq] at this
    omega

/-- `create` fails cleanly unless it has written the PMBR before it finds that there is no room for the rest. -/
theorem create_clean_iff {fuel : ℕ} {nombr : Bool} {calloc : ℕ → Bool} (w : CreateWorld) (a : CreateArgs)
    (h : gptOpen fuel nombr calloc im = some (some g)) : CreateClean im w a g ↔ CreateSafe im w a g := by
  have hN : 6 ≤ im.devsz := by
    unfold gptOpen at h
    split_ifs at h with hsmall
    · simp at h
    · omega
  unfold CreateClean
  by_cases hhdr : (mapFind g .priGptHdr).isSome ∨ (mapFind g .secGptHdr).isSome
  · refine iff_of_true (fun e gd' he => ?_) (hhdr.elim .inl fun h => .inr (.inl h))
    have hrun : create im w a ⟨im.secsz,g,[]⟩ = some (some .hasGpt,⟨im.secsz,g,[]⟩) := if_pos hhdr
    rw [hrun,Option.some.injEq,Prod.mk.injEq] at he
    rw [← he.2]
  by_cases hmbr : (mapFind g .mbr).isSome ∧ ¬ a.force
  · refine iff_of_true (fun e gd' he => ?_) (.inr (.inr (.inl hmbr)))
    have hrun : create im w a ⟨im.secsz,g,[]⟩ = some (some .hasMbr,⟨im.secsz,g,[]⟩) :=
      (if_neg hhdr).trans (if_pos hmbr)
    rw [hrun,Option.some.injEq,Prod.mk.injEq] at he
    rw [← he.2]
  have hrun : create im w a ⟨im.secsz,g,[]⟩ = createLabel im w a ⟨im.secsz,nukeMbr g,[]⟩ := create_of_clear hhdr hmbr
  rw [hrun]
  have hsec : mapFind g .secGptHdr = none := Option.not_isSome_iff_eq_none.mp fun hc => hhdr (.inr hc)
  have hshape := gptOpen_shape h hsec
  obtain ⟨l,hl⟩ : ∃ l, IsMap g l := hshape.elim (fun hs => ⟨_,hs.choose_spec.1⟩) fun hs => ⟨_,hs.choose_spec.1⟩
  by_cases hp : mapFind g .pmbr = none
  swap
  · have hsome : (mapFind g .pmbr).isSome := Option.isSome_iff_ne_none.mpr hp
    have hpm : createPmbr im ⟨im.secsz,nukeMbr g,[]⟩ = some (none,⟨im.secsz,nukeMbr g,[]⟩) :=
      if_pos (Option.isSome_iff_ne_none.mpr fun hc => hp (hl.find_pmbr.mp hc))
    exact iff_of_true (fun e gd' he => createLabel_error_out hpm he) (.inr (.inr (.inr (.inl hsome))))
  have hp' := hl.find_pmbr.mpr hp
  by_cases hfree : mapFree (nukeMbr g) 0 1 = 0
  · refine iff_of_true (fun e gd' he => ?_) (.inr (.inr (.inr (.inr (.inl hfree)))))
    have hpm : createPmbr im ⟨im.secsz,nukeMbr g,[]⟩ = some (some .noPmbrRoom,⟨im.secsz,nukeMbr g,[]⟩) :=
      (if_neg (by rw [hp']; simp)).trans (if_pos hfree)
    unfold createLabel at he
    rw [hpm] at he
    simp only [Option.some.injEq,Prod.mk.injEq] at he
    rw [← he.2]
  by_cases hadd : PmbrAdded im g
  · obtain ⟨b,m,g₁,hb,hadd'⟩ := hadd
    have hiff := createLabel_error_iff (w := w) (a := a) hshape hN hp' hfree hb hadd'
    have hout : ∀ e gd', createLabel im w a ⟨im.secsz,nukeMbr g,[]⟩ = some (some e,gd') → gd'.out ≠ [] := by
      intro e gd' he
      rw [createLabel_error_out (createPmbr_added hp' hfree hb hadd') he]
      exact List.cons_ne_nil _ _
    constructor
    · intro hclean
      refine .inr (.inr (.inr (.inr (.inr (.inr ?_)))))
      by_contra hroom
      obtain ⟨e,gd',he⟩ := hiff.mpr hroom
      exact hout e gd' he (hclean e gd' he)
    · rintro (hc | hc | hc | hc | hc | hc | hroom) e gd' he
      · exact absurd (.inl hc) hhdr
      · exact absurd (.inr hc) hhdr
      · exact absurd hc hmbr
      · rw [hp] at hc
        cases hc
      · exact absurd hc hfree
      · exact absurd ⟨b,m,g₁,hb,hadd'⟩ hc
      · exact absurd hroom (hiff.mp ⟨e,gd',he⟩)
  · refine iff_of_true (fun e gd' he => ?_) (.inr (.inr (.inr (.inr (.inr (.inl hadd))))))
    have hpm : createPmbr im ⟨im.secsz,nukeMbr g,[]⟩ = none :=
      createPmbr_none hp' hfree fun b m g₁ hb hadd' => hadd ⟨b,m,g₁,hb,hadd'⟩
    unfold createLabel at he
    rw [hpm] at he
    cases he

/-- Everything is allocated, and the uuids are zero. -/
def zeroWorld : CreateWorld := ⟨fun _ => true,fun _ _ => 0⟩

def forceArgs : CreateArgs := ⟨true,128,false,by decide,by decide⟩

theorem create_clean_iff_mbr : ∃ g, gptOpen 1 false (fun _ => true) (mbrImage 2) = some (some g) ∧
    (CreateClean (mbrImage 2) zeroWorld forceArgs g ↔ CreateSafe (mbrImage 2) zeroWorld forceArgs g) := by
  have h : (gptOpen 1 false (fun _ => true) (mbrImage 2)).map (fun o => o.isSome) = some true := by
    decide
  obtain ⟨o,ho,h⟩ := Option.map_eq_some_iff.mp h
  obtain ⟨g,rfl⟩ := Option.isSome_iff_exists.mp h
  exact ⟨g,ho,create_clean_iff zeroWorld forceArgs ho⟩

/-- With an MBR partition up to the last sector, the PMBR replaces the MBR before the missing room for the backup
header is noticed. -/
theorem create_writes_pmbr : ∃ g gd', gptOpen 1 false (fun _ => true) (mbrImage 3) = some (some g) ∧
    create (mbrImage 3) zeroWorld forceArgs ⟨512,g,[]⟩ = some (some .noBackupRoom,gd') ∧ gd'.out ≠ [] := by
  have h : (gptOpen 1 false (fun _ => true) (mbrImage 3)).map (fun o => o.map fun g =>
      (create (mbrImage 3) zeroWorld forceArgs ⟨512,g,[]⟩).map fun r => (r.1,r.2.out.length)) =
        some (some (some (some .noBackupRoom,1))) := by decide
  obtain ⟨o,ho,h⟩ := Option.map_eq_some_iff.mp h
  obtain ⟨g,rfl,hg⟩ := Option.map_eq_some_iff.mp h
  obtain ⟨⟨e,gd'⟩,hc,hr⟩ := Option.map_eq_some_iff.mp hg
  obtain ⟨rfl,hlen⟩ := Prod.mk.inj hr
  refine ⟨g,gd',ho,hc,fun hout => ?_⟩
  rw [hout] at hlen
  exact absurd hlen (by decide)

end Clean

end Blub.Fgdisk
