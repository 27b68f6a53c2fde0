import Blub.Fgdisk.Add
import Blub.Lib.Align

/-! What `map_resize` does to the media map, and when that is what it promises: the segment takes the least
aligned length of at least the size asked for, in place, at the cost of the unused segment behind it. -/
namespace Blub.Fgdisk
open DList Blub.Align

section Links
variable {g : Media} {xs ys : List (ℕ × Seg)} {m n o : ℕ} {s u : Seg}

theorem unlinkNext_brk (g : Media) (m n : ℕ) : (unlinkNext g m n).brk = g.brk := by
  unfold unlinkNext
  dsimp only
  split <;> rfl

theorem unlinkNext_mediamap (g : Media) (m n : ℕ) : (unlinkNext g m n).mediamap = g.mediamap := by
  unfold unlinkNext
  dsimp only
  split <;> rfl

theorem unlinkNext_cell {g : Media} {m n : ℕ} (hm : (g.cell n).mapNext ≠ some m) (a : ℕ) :
    (unlinkNext g m n).cell a =
      { g.cell a with
        mapNext := if a = m then (g.cell n).mapNext else (g.cell a).mapNext
        mapPrev := if (g.cell n).mapNext = some a then some m else (g.cell a).mapPrev } := by
  unfold unlinkNext
  cases hn : (g.cell n).mapNext with
  | none =>
    by_cases ha : a = m
    · subst ha
      simp
    · simp [ha]
  | some q =>
    have hqm : q ≠ m := fun h => hm (by rw [hn,h])
    by_cases ha : a = m
    · subst ha
      simp [hqm,hqm.symm]
    · by_cases hq : a = q
      · subst hq
        simp [ha]
      · simp [ha,hq,Ne.symm hq]

/-- The segment behind `m` drops out of the list. -/
theorem IsMap.unlinkNext (h : IsMap g (xs ++ (m,s) :: (n,u) :: ys)) :
    IsMap (Fgdisk.unlinkNext g m n) (xs ++ (m,s) :: ys) := by
  have hsub : (xs ++ (m,s) :: ys).Sublist (xs ++ (m,s) :: (n,u) :: ys) :=
    (List.Sublist.refl xs).append ((List.sublist_cons_self (n,u) ys).cons_cons (m,s))
  have hnd := h.nodup.sublist (hsub.map Prod.fst)
  have h' : IsMap g ((xs ++ [(m,s)]) ++ (n,u) :: ys) := by
    rw [List.append_assoc]
    exact h
  have hnext : (g.cell n).mapNext = (ys.map Prod.fst).head? := h'.links.2
  have hlast : ((xs ++ [(m,s)]).map Prod.fst).getLast? = some m := by simp
  have hmy : m ∉ ys.map Prod.fst := fun hm => by
    rw [List.map_append,List.map_cons] at hnd
    exact (List.nodup_cons.mp (List.nodup_append.mp hnd).2.1).1 hm
  have hcell := unlinkNext_cell (g := g) (m := m) (n := n) fun hc => hmy (List.mem_of_mem_head? (hnext ▸ hc))
  have hids : (xs ++ (m,s) :: ys).map Prod.fst = (xs ++ [(m,s)]).map Prod.fst ++ ys.map Prod.fst := by simp
  refine ⟨?_,?_,hnd,fun e he => ?_,fun e he => ?_⟩
  · rw [unlinkNext_mediamap,h.head]
    cases xs <;> rfl
  · have hl := h'.linked
    rw [List.map_append,List.map_cons] at hl
    rw [hids] at hnd ⊢
    obtain ⟨-,-,hdis⟩ := List.nodup_append.mp hnd
    refine hl.remove hnd (fun b hb => ?_) fun b hb => ?_
    · have hby : (ys.map Prod.fst).head? ≠ some b := fun hc => hdis b hb b (List.mem_of_mem_head? hc) rfl
      simp only [hcell b,hnext,if_neg hby,hlast,Option.some.injEq,true_and]
      simp only [eq_comm]
    · have hbm : b ≠ m := by
        rintro rfl
        exact hmy hb
      simp only [hcell b,if_neg hbm,hlast,hnext,true_and]
  · rw [unlinkNext_brk]
    exact h.bound e (hsub.subset he)
  · rw [hcell e.1]
    exact h.segs e (hsub.subset he)

/-- Link the new segment `o` in behind `m`. -/
def linkBehind (g : Media) (m o : ℕ) (next : Option ℕ) : Media :=
  let g := g.modify m fun s => { s with mapNext := some o }
  let g := g.modify o fun s => { s with mapPrev := some m, mapNext := next }
  match next with
  | some n => g.modify n fun s => { s with mapPrev := some o }
  | none => g

theorem linkBehind_cell {next : Option ℕ} (hmo : m ≠ o) (hm : next ≠ some m) (ho : next ≠ some o) (a : ℕ) :
    (linkBehind g m o next).cell a =
      { g.cell a with
        mapNext := if a = m then some o else if a = o then next else (g.cell a).mapNext
        mapPrev := if a = o then some m else if next = some a then some o else (g.cell a).mapPrev } := by
  unfold linkBehind
  cases next with
  | none =>
    by_cases ham : a = m
    · subst ham
      simp [hmo]
    · by_cases hao : a = o
      · subst hao
        simp [hmo.symm]
      · simp [ham,hao]
  | some q =>
    have hqm : q ≠ m := fun h => hm (by rw [h])
    have hqo : q ≠ o := fun h => ho (by rw [h])
    by_cases ham : a = m
    · subst ham
      simp [hmo,hqm,hqm.symm]
    · by_cases hao : a = o
      · subst hao
        simp [hmo.symm,hqo.symm]
      · by_cases haq : a = q
        · subst haq
          simp [ham,hao]
        · simp [ham,hao,haq,Ne.symm haq]

theorem linkBehind_brk (next : Option ℕ) : (linkBehind g m o next).brk = g.brk := by
  unfold linkBehind
  cases next <;> rfl

theorem linkBehind_mediamap (next : Option ℕ) : (linkBehind g m o next).mediamap = g.mediamap := by
  unfold linkBehind
  cases next <;> rfl

theorem IsMap.linkBehind (h : IsMap g (xs ++ (m,s) :: ys)) (ho : o ∉ (xs ++ (m,s) :: ys).map Prod.fst)
    (hb : o < g.brk) : IsMap (Fgdisk.linkBehind g m o (ys.map Prod.fst).head?)
      (xs ++ (m,s) :: (o,(g.cell o).toSeg) :: ys) := by
  obtain ⟨-,hmy,-⟩ := h.numbers
  have hx : (xs ++ (m,s) :: ys) = (xs ++ [(m,s)]) ++ ys := by simp
  have hdis : ∀ a ∈ (xs ++ [(m,s)]).map Prod.fst, a ∉ ys.map Prod.fst := by
    intro a ha hay
    have hnd := h.nodup
    rw [hx,List.map_append] at hnd
    exact (List.nodup_append.mp hnd).2.2 a ha a hay rfl
  rw [hx] at h ho
  have hmem : ∀ a ∈ (xs ++ [(m,s)]).map Prod.fst ++ ys.map Prod.fst, a ≠ o := by
    rintro a ha rfl
    rw [List.map_append] at ho
    exact ho ha
  have hcell := @linkBehind_cell g m o (ys.map Prod.fst).head? (hmem m (by simp))
    (fun hc => hmy (List.mem_of_mem_head? hc)) fun hc => hmem o (List.mem_append_right _ (List.mem_of_mem_head? hc)) rfl
  have hsplit : xs ++ (m,s) :: (o,(g.cell o).toSeg) :: ys = (xs ++ [(m,s)]) ++ ([(o,(g.cell o).toSeg)] ++ ys) := by simp
  rw [hsplit]
  refine h.splice (xs ++ [(m,s)]) [(o,(g.cell o).toSeg)] ys (by simp) rfl rfl
    (by rw [linkBehind_brk]) ?_ (by simp) ?_ ?_ ?_ ?_ ?_
  · intro e he
    obtain rfl := List.mem_singleton.mp he
    rw [linkBehind_brk]
    exact ⟨ho,hb⟩
  · rw [linkBehind_mediamap,if_neg (by simp)]
  · intro a ha
    have hao := hmem a (List.mem_append_left _ ha)
    have hay : (ys.map Prod.fst).head? ≠ some a := fun hc => hdis a ha (List.mem_of_mem_head? hc)
    rw [hcell,if_neg hao,if_neg hao,if_neg hay]
    simp [eq_comm]
  · intro a ha
    have hao := hmem a (List.mem_append_right _ ha)
    have ham : a ≠ m := by
      rintro rfl
      exact hmy ha
    rw [hcell,if_neg hao,if_neg hao,if_neg ham]
    simp
  · have hom := (hmem m (by simp)).symm
    refine ⟨?_,?_,trivial⟩
    · dsimp only
      rw [hcell o,if_pos rfl]
      simp
    · dsimp only
      rw [hcell o,if_neg hom,if_pos rfl]
      simp
  · intro e he
    rw [hcell]
    by_cases heo : e = (o,(g.cell o).toSeg)
    · rw [heo]
    · refine h.segs e ?_
      simp only [List.mem_append,List.mem_singleton,heo,false_or] at he ⊢
      exact he

end Links

section Spec

/-- The unused segment behind, if there is one. -/
def freeBehind : List Seg → List Seg
  | [] => []
  | u :: _ => if u.mapType = .unused then [u] else []

def restBehind : List Seg → List Seg
  | [] => []
  | u :: l => if u.mapType = .unused then l else u :: l

theorem freeBehind_append (l : List Seg) : freeBehind l ++ restBehind l = l := by
  cases l with
  | nil => rfl
  | cons u l =>
    simp only [freeBehind,restBehind]
    split_ifs <;> rfl

/-- The sectors of the unused segment behind. -/
def roomBehind (l : List Seg) : ℤ := ((freeBehind l).map Seg.mapSize).sum

/-- The segment `m`, which was `s` between `pre` and `post`, has the length `z` now, and the unused segment behind it
has what is left. -/
structure Resized (g : Media) (N : ℤ) (m : ℕ) (pre : List Seg) (s : Seg) (post : List Seg) (z : ℤ) : Prop where
  wellFormed : WellFormed g N
  self : (g.cell m).toSeg = { s with mapSize := z }
  segs : ∃ left, left.length ≤ 1 ∧ (∀ u ∈ left, u.mapType = .unused) ∧
    mapList g = pre ++ { s with mapSize := z } :: (left ++ restBehind post) ∧
    ∀ x, (∃ u ∈ { s with mapSize := z } :: left, u.Holds x) ↔ ∃ u ∈ s :: freeBehind post, u.Holds x

/-- The length that a request stands for: the least aligned one for a size, and for size 0 the greatest aligned
one that there is room for. -/
def IsLength (s : Seg) (post : List Seg) (size alignment z : ℤ) : Prop :=
  if size = 0 then IsGreatest {y | Aligned alignment y ∧ y ≤ s.mapSize+roomBehind post} z
  else IsLeast {y | Aligned alignment y ∧ size ≤ y} z

/-- What `map_resize` promises: the segment has the length asked for, or nothing has changed. -/
def ResizeMeets (g : Media) (N : ℤ) (m : ℕ) (pre : List Seg) (s : Seg) (post : List Seg) (size alignment : ℤ)
    (r : Except MapError ℤ × Media) : Prop :=
  match r.1 with
  | .ok z => Resized r.2 N m pre s post z ∧ IsLength s post size alignment z
  | .error _ => r.2.cell = g.cell ∧ r.2.mediamap = g.mediamap

/-- The requests whose rounding comes out right: the test for it divides the alignment by the size. -/
def RoundsRight (size alignment : ℤ) : Prop :=
  alignment = 0 ∨ size = alignment ∨ ¬ size ∣ alignment ∧ ¬ alignment ∣ size

/-- When `map_resize` keeps its promise. -/
def ResizeSound (g : Media) (s : Seg) (post : List Seg) (size alignment : ℤ) : Prop :=
  size = 0 ∨
  RoundsRight size alignment ∧ (roundUp size alignment < s.mapSize →
    if freeBehind post = [] then g.calloc g.brk = true else s.mapSize = 2*roundUp size alignment) ∨
  ¬ RoundsRight size alignment ∧
    s.mapSize+roomBehind post < if size ∣ alignment then size else size+alignment

/-- The length that the code asks for. -/
def resizeAsk (size alignment : ℤ) : ℤ :=
  if alignment.tmod size ≠ 0 then offT ((offT (size+alignment)).tdiv alignment*alignment) else size

variable {size alignment : ℤ}

theorem resizeAsk_eq (hs : 0 < size) (ha : 0 ≤ alignment) (h : size+alignment < 2^63) :
    resizeAsk size alignment = if size ∣ alignment then size else (size+alignment)/alignment*alignment := by
  unfold resizeAsk
  rw [Int.tmod_eq_emod_of_nonneg ha]
  by_cases hd : size ∣ alignment
  · rw [if_neg (not_not.mpr (Int.emod_eq_zero_of_dvd hd)),if_pos hd]
  · have hne : alignment%size ≠ 0 := fun he => hd (Int.dvd_of_emod_eq_zero he)
    have hpos : 0 < alignment := by
      refine lt_of_le_of_ne ha ?_
      rintro rfl
      exact hd (Int.dvd_zero size)
    have hle := Int.ediv_mul_le (size+alignment) hpos.ne'
    have h0 : 0 ≤ (size+alignment)/alignment*alignment :=
      Int.mul_nonneg (Int.ediv_nonneg (by omega) ha) ha
    rw [if_pos hne,if_neg hd,offT_of_lt (show -2^63 ≤ size+alignment by omega) h,
      Int.tdiv_eq_ediv_of_nonneg (by omega)]
    exact offT_of_lt (by omega) (by omega)

/-- Rounding is right in these cases and in no others. -/
theorem resizeAsk_isLeast (hs : 0 < size) (ha : 0 ≤ alignment) (h : size+alignment < 2^63) :
    IsLeast {y | Aligned alignment y ∧ size ≤ y} (resizeAsk size alignment) ↔ RoundsRight size alignment := by
  have hleast := roundUp_isLeast size ha
  rw [resizeAsk_eq hs ha h]
  constructor
  · intro hask
    have he := hask.unique hleast
    by_contra hno
    simp only [RoundsRight,not_or,not_and,not_not] at hno
    obtain ⟨ha₀,hne,hdvd⟩ := hno
    by_cases hd : size ∣ alignment
    · rw [if_pos hd] at hask
      have hle : alignment ≤ size := Int.le_of_dvd hs (hask.1.1.resolve_left ha₀)
      have hge : size ≤ alignment := Int.le_of_dvd (by omega) hd
      omega
    · have hda := hdvd hd
      rw [if_neg hd,roundUp_of_aligned ha (.inr hda)] at he
      obtain ⟨k,rfl⟩ := hda
      rw [show alignment*k+alignment = (k+1)*alignment by ring,Int.mul_ediv_cancel _ ha₀] at he
      have : (k+1)*alignment = alignment*k+alignment := by ring
      omega
  · rintro (rfl | rfl | ⟨hd,hda⟩)
    · rw [if_pos (Int.dvd_zero size)]
      exact ⟨⟨.inl rfl,le_rfl⟩,fun y hy => hy.2⟩
    · rw [if_pos (Int.dvd_refl size)]
      exact ⟨⟨.inr (Int.dvd_refl size),le_rfl⟩,fun y hy => hy.2⟩
    · have hpos : 0 < alignment := by
        refine lt_of_le_of_ne ha ?_
        rintro rfl
        exact hd (Int.dvd_zero size)
      rw [if_neg hd,← roundUp_of_not_dvd hpos hda]
      exact hleast

theorem resizeAsk_bounds (hs : 0 < size) (ha : 0 ≤ alignment) (h : size+alignment < 2^63) :
    0 < resizeAsk size alignment ∧ resizeAsk size alignment < 2^63 := by
  rw [resizeAsk_eq hs ha h]
  split_ifs with hd
  · omega
  · have hpos : 0 < alignment := by
      refine lt_of_le_of_ne ha ?_
      rintro rfl
      exact hd (Int.dvd_zero size)
    have hle := Int.ediv_mul_le (size+alignment) hpos.ne'
    have hone : 1 ≤ (size+alignment)/alignment := (Int.le_ediv_iff_mul_le hpos).mpr (by omega)
    exact ⟨Int.mul_pos (by omega) hpos,by omega⟩

theorem resizeAsk_wrong (hs : 0 < size) (ha : 0 ≤ alignment) (h : size+alignment < 2^63)
    (hno : ¬ RoundsRight size alignment) :
    resizeAsk size alignment = if size ∣ alignment then size else size+alignment := by
  rw [resizeAsk_eq hs ha h]
  simp only [RoundsRight,not_or,not_and,not_not] at hno
  obtain ⟨ha₀,-,hdvd⟩ := hno
  split_ifs with hd
  · rfl
  · exact Int.ediv_mul_cancel (Int.dvd_add (hdvd hd) (Int.dvd_refl alignment))

end Spec

section Branches

/-- Size 0: the unused segment behind is taken in. -/
def resizeFill (g : Media) (m : ℕ) (alignment : ℤ) : Except MapError ℤ × Media :=
  let seg := g.cell m
  match seg.mapNext with
  | none => (.error .deleteNoNext,g)
  | some n =>
    let nseg := g.cell n
    if nseg.mapType ≠ .unused then (.error .deleteNextInUse,g)
    else if alignment = 0 then
      let size := offT (seg.mapSize+nseg.mapSize)
      (.ok size,unlinkNext (g.modify m fun s => { s with mapSize := size }) m n)
    else
      let prevsize := seg.mapSize
      let size := (offT (seg.mapSize+nseg.mapSize)).tdiv alignment*alignment
      if size ≤ prevsize then (.error (.cantCoalesce prevsize size),g)
      else
        let g := g.modify m fun s => { s with mapSize := size }
        let g := g.modify n fun s =>
          { s with mapStart := offT (s.mapStart+(size-prevsize)),
                   mapSize := offT (s.mapSize-(size-prevsize)) }
        (.ok size,if (g.cell n).mapSize = 0 then unlinkNext g m n else g)

/-- The length `a` is smaller than the one that the segment has. -/
def resizeShrink (g : Media) (m : ℕ) (a : ℤ) : Except MapError ℤ × Media :=
  let seg := g.cell m
  let g := g.modify m fun s => { s with mapSize := a }
  let rest := match seg.mapNext with
    | some n => if (g.cell n).mapType = .unused then some n else none
    | none => none
  match rest with
  | none =>
    match mapCreate g (offT (seg.mapStart+a)) (offT (seg.mapSize-a)) .unused with
    | (none,g) => (.error .cantCreateRest,g)
    | (some o,g) => (.ok a,linkBehind g m o seg.mapNext)
  | some n =>
    (.ok a,g.modify n fun s => { s with mapStart := offT (s.mapStart-a), mapSize := offT (s.mapSize+a) })

/-- The length `a` is greater than the one that the segment has. -/
def resizeGrow (g : Media) (m : ℕ) (a : ℤ) : Except MapError ℤ × Media :=
  let seg := g.cell m
  match seg.mapNext with
  | none => (.error .expandNoNext,g)
  | some n =>
    let nseg := g.cell n
    let more := offT (a-seg.mapSize)
    if nseg.mapType ≠ .unused then (.error .expandNextInUse,g)
    else if nseg.mapSize < more then (.error .expandNextTooSmall,g)
    else
      let g := g.modify n fun s =>
        { s with mapSize := offT (s.mapSize-more), mapStart := offT (s.mapStart+more) }
      let g := if (g.cell n).mapSize = 0 then unlinkNext g m n else g
      (.ok a,g.modify m fun s => { s with mapSize := a })

attribute [local grind =] resizeShrink

variable {g : Media} {xs ys : List (ℕ × Seg)} {m n : ℕ} {s u : Seg} {N a size alignment z : ℤ}

theorem mapResize_zero (ha : 0 ≤ alignment) : mapResize g m 0 alignment = resizeFill g m alignment := by
  unfold mapResize
  dsimp only
  rw [if_neg (by omega),if_pos rfl]
  rfl

theorem mapResize_pos (hs : 0 < size) (ha : 0 ≤ alignment) : mapResize g m size alignment =
    if resizeAsk size alignment < (g.cell m).mapSize then resizeShrink g m (resizeAsk size alignment)
    else if resizeAsk size alignment > (g.cell m).mapSize then resizeGrow g m (resizeAsk size alignment)
    else (.ok (resizeAsk size alignment),g) := by
  unfold mapResize
  dsimp only
  rw [if_neg (by omega),if_neg (by omega)]
  rfl

theorem Tiles.holds_iff {a b : ℤ} {l : List Seg} (h : Tiles a l b) (x : ℤ) :
    (∃ u ∈ l, u.Holds x) ↔ a ≤ x ∧ x < b := by
  induction l generalizing a with
  | nil =>
    simp only [List.not_mem_nil,false_and,exists_false,false_iff]
    have hab : a = b := h
    omega
  | cons s l ih =>
    obtain ⟨rfl,hz,ht⟩ := h
    have hle := ht.le
    rw [List.exists_mem_cons_iff,ih ht,Seg.Holds]
    omega

theorem Tiles.behind {c : ℤ} {l : List Seg} (h : Tiles c l N) :
    Tiles c (freeBehind l) (c+roomBehind l) ∧ Tiles (c+roomBehind l) (restBehind l) N := by
  cases l with
  | nil =>
    rw [show c+roomBehind [] = c from Int.add_zero c]
    exact ⟨rfl,h⟩
  | cons u l =>
    simp only [roomBehind,freeBehind,restBehind]
    split_ifs with hu
    · simp only [List.map_cons,List.map_nil,List.sum_cons,List.sum_nil,add_zero]
      exact ⟨⟨h.1,h.2.1,rfl⟩,h.2.2⟩
    · simp only [List.map_nil,List.sum_nil,add_zero]
      exact ⟨rfl,h⟩

/-- A list with the new length in place is a good result if what is left of the room is tiled. -/
theorem IsMap.resized {g' : Media} {l r : List (ℕ × Seg)}
    (h' : IsMap g' (xs ++ (m,{ s with mapSize := z }) :: (l ++ r)))
    (ht : Tiles 0 (xs.map Prod.snd ++ s :: ys.map Prod.snd) N) (hr : r.map Prod.snd = restBehind (ys.map Prod.snd))
    (hl : l.length ≤ 1) (hu : ∀ u ∈ l.map Prod.snd, u.mapType = .unused) (hz : 1 ≤ z)
    (htl : Tiles (s.mapStart+z) (l.map Prod.snd) (s.mapStart+s.mapSize+roomBehind (ys.map Prod.snd))) :
    Resized g' N m (xs.map Prod.snd) s (ys.map Prod.snd) z := by
  obtain ⟨c,h₁,rfl,hz₁,h₂⟩ := (tiles_append _ _ _ _).mp ht
  obtain ⟨hf,hrest⟩ := h₂.behind
  have hsegs : (xs ++ (m,{ s with mapSize := z }) :: (l ++ r)).map Prod.snd =
      xs.map Prod.snd ++ { s with mapSize := z } :: (l.map Prod.snd ++ restBehind (ys.map Prod.snd)) := by
    simp [hr]
  refine ⟨h'.wellFormed ?_,h'.segs (m,{ s with mapSize := z }) (by simp),l.map Prod.snd,by simpa using hl,hu,?_,fun x => ?_⟩
  · rw [hsegs]
    exact (tiles_append _ _ _ _).mpr ⟨_,h₁,rfl,hz,(tiles_append _ _ _ _).mpr ⟨_,htl,hrest⟩⟩
  · rw [h'.mapList_eq,hsegs]
  · have hnew : Tiles s.mapStart ({ s with mapSize := z } :: l.map Prod.snd) _ := ⟨rfl,hz,htl⟩
    have hold : Tiles s.mapStart (s :: freeBehind (ys.map Prod.snd)) _ := ⟨rfl,hz₁,hf⟩
    rw [hnew.holds_iff,hold.holds_iff]

/-- The segment `n` behind `m` gives `more` sectors to it. -/
def giveFront (g : Media) (n : ℕ) (more : ℤ) : Media :=
  g.modify n fun s => { s with mapStart := offT (s.mapStart+more), mapSize := offT (s.mapSize-more) }

theorem IsMap.giveFront (h : IsMap g (xs ++ (m,s) :: (n,u) :: ys)) {d : ℤ} (hs : offT (u.mapStart+d) = u.mapStart+d)
    (hz : offT (u.mapSize-d) = u.mapSize-d) : IsMap (Fgdisk.giveFront g n d)
      (xs ++ (m,s) :: (n,{ u with mapStart := u.mapStart+d, mapSize := u.mapSize-d }) :: ys) := by
  have hu : (g.cell n).toSeg = u := h.segs (n,u) (by simp)
  have h' : IsMap g ((xs ++ [(m,s)]) ++ (n,u) :: ys) := by
    rw [List.append_assoc]
    exact h
  have := @IsMap.modify g (xs ++ [(m,s)]) ys n u { u with mapStart := u.mapStart+d, mapSize := u.mapSize-d }
    (fun s => { s with mapStart := offT (s.mapStart+d), mapSize := offT (s.mapSize-d) }) h'
    (by subst hu; dsimp only; rw [hs,hz]) rfl rfl
  rw [List.append_assoc] at this
  exact this

theorem IsMap.setSize (h : IsMap g (xs ++ (m,s) :: ys)) (z : ℤ) :
    IsMap (g.modify m fun s => { s with mapSize := z }) (xs ++ (m,{ s with mapSize := z }) :: ys) := by
  have hs : (g.cell m).toSeg = s := h.segs (m,s) (by simp)
  refine h.modify ?_ rfl rfl
  rw [← hs]

/-- A segment that has given everything is dropped. -/
theorem IsMap.shed (h : IsMap g (xs ++ (m,s) :: (n,u) :: ys)) :
    IsMap (if (g.cell n).mapSize = 0 then Fgdisk.unlinkNext g m n else g)
      (xs ++ (m,s) :: ((if u.mapSize = 0 then [] else [(n,u)]) ++ ys)) := by
  have hu : (g.cell n).mapSize = u.mapSize := congrArg Seg.mapSize (h.segs (n,u) (by simp))
  rw [hu]
  by_cases hz : u.mapSize = 0
  · rw [if_pos hz,if_pos hz]
    exact h.unlinkNext
  · rw [if_neg hz,if_neg hz]
    exact h

/-- The segment that `m` has grown into keeps its end. -/
theorem IsMap.grown {g' : Media} {d : ℤ}
    (h' : IsMap g' (xs ++ (m,{ s with mapSize := s.mapSize+d }) :: ((if u.mapSize-d = 0 then [] else
      [(n,{ u with mapStart := u.mapStart+d, mapSize := u.mapSize-d })]) ++ ys)))
    (ht : Tiles 0 (xs.map Prod.snd ++ s :: u :: ys.map Prod.snd) N) (hfree : u.mapType = .unused)
    (hm : 0 < d) (hle : d ≤ u.mapSize) :
    Resized g' N m (xs.map Prod.snd) s (u :: ys.map Prod.snd) (s.mapSize+d) := by
  obtain ⟨c,-,hc,hz,hus,huz,-⟩ := (tiles_append _ _ _ _).mp ht
  have hroom : roomBehind (u :: ys.map Prod.snd) = u.mapSize := by simp [roomBehind,freeBehind,hfree]
  refine IsMap.resized h' (show Tiles 0 (xs.map Prod.snd ++ s :: ((n,u) :: ys).map Prod.snd) N from ht) (by simp [restBehind,hfree]) ?_ ?_ (by omega) ?_
  · split_ifs <;> simp
  · intro v hv
    split_ifs at hv
    · cases hv
    · rw [List.map_singleton,List.mem_singleton] at hv
      rw [hv]
      exact hfree
  · rw [List.map_cons,hroom]
    split_ifs with h0
    · show s.mapStart+(s.mapSize+d) = _
      omega
    · refine ⟨?_,?_,?_⟩
      · show u.mapStart+d = _
        omega
      · show 1 ≤ u.mapSize-d
        omega
      · show s.mapStart+(s.mapSize+d)+(u.mapSize-d) = _
        omega

theorem resizeGrow_spec (h : IsMap g (xs ++ (m,s) :: ys)) (ht : Tiles 0 (xs.map Prod.snd ++ s :: ys.map Prod.snd) N)
    (hN : N < 2^63) (hlt : s.mapSize < a) (ha : a < 2^63) :
    (∃ e, resizeGrow g m a = (.error e,g) ∧ s.mapSize+roomBehind (ys.map Prod.snd) < a) ∨
    ∃ g', resizeGrow g m a = (.ok a,g') ∧ Resized g' N m (xs.map Prod.snd) s (ys.map Prod.snd) a ∧
      a ≤ s.mapSize+roomBehind (ys.map Prod.snd) := by
  have hs : (g.cell m).mapSize = s.mapSize := congrArg Seg.mapSize (h.segs (m,s) (by simp))
  have hnext := h.links.2
  obtain ⟨c,h₁,hc,hz,h₂⟩ := (tiles_append _ _ _ _).mp ht
  have h0 := h₁.le
  unfold resizeGrow
  dsimp only
  rw [hs,hnext]
  cases ys with
  | nil => exact .inl ⟨_,rfl,by simpa [roomBehind,freeBehind] using hlt⟩
  | cons e ys =>
    obtain ⟨n,u⟩ := e
    have hut : (g.cell n).mapType = u.mapType := congrArg Seg.mapType (h.segs (n,u) (by simp))
    have huz : (g.cell n).mapSize = u.mapSize := congrArg Seg.mapSize (h.segs (n,u) (by simp))
    obtain ⟨hstart,hone,h₃⟩ := h₂
    have hmax := h₃.le
    dsimp only at hstart hone hmax
    rw [offT_of_lt (show -2^63 ≤ a-s.mapSize by omega) (by omega)]
    simp only [List.map_cons,List.head?_cons,hut,huz]
    by_cases hfree : u.mapType = .unused
    · have hroom : roomBehind (u :: ys.map Prod.snd) = u.mapSize := by simp [roomBehind,freeBehind,hfree]
      rw [if_neg (not_not.mpr hfree),hroom]
      by_cases hfit : u.mapSize < a-s.mapSize
      · rw [if_pos hfit]
        exact .inl ⟨_,rfl,by omega⟩
      · rw [if_neg hfit]
        refine .inr ⟨_,rfl,?_,by omega⟩
        have hgive := (h.giveFront (d := a-s.mapSize) (offT_of_lt (by omega) (by omega))
          (offT_of_lt (by omega) (by omega))).shed.setSize a
        obtain ⟨more,rfl⟩ : ∃ more, a = s.mapSize+more := ⟨a-s.mapSize,by omega⟩
        rw [add_sub_cancel_left] at hgive ⊢
        exact hgive.grown ht hfree (by omega) (by omega)
    · rw [if_pos hfree]
      exact .inl ⟨_,rfl,by simpa [roomBehind,freeBehind,hfree] using hlt⟩

theorem resizeFill_spec (h : IsMap g (xs ++ (m,s) :: ys)) (ht : Tiles 0 (xs.map Prod.snd ++ s :: ys.map Prod.snd) N)
    (hN : N < 2^63) (ha : 0 ≤ alignment) : (∃ e, resizeFill g m alignment = (.error e,g)) ∨
    ∃ g', resizeFill g m alignment = (.ok (roundDown (s.mapSize+roomBehind (ys.map Prod.snd)) alignment),g') ∧
      Resized g' N m (xs.map Prod.snd) s (ys.map Prod.snd)
        (roundDown (s.mapSize+roomBehind (ys.map Prod.snd)) alignment) := by
  have hs : (g.cell m).mapSize = s.mapSize := congrArg Seg.mapSize (h.segs (m,s) (by simp))
  have hnext := h.links.2
  obtain ⟨c,h₁,hc,hz,h₂⟩ := (tiles_append _ _ _ _).mp ht
  have h0 := h₁.le
  unfold resizeFill
  dsimp only
  rw [hs,hnext]
  cases ys with
  | nil => exact .inl ⟨_,rfl⟩
  | cons e ys =>
    obtain ⟨n,u⟩ := e
    have hut : (g.cell n).mapType = u.mapType := congrArg Seg.mapType (h.segs (n,u) (by simp))
    have huz : (g.cell n).mapSize = u.mapSize := congrArg Seg.mapSize (h.segs (n,u) (by simp))
    obtain ⟨hstart,hone,h₃⟩ := h₂
    have hmax := h₃.le
    dsimp only at hstart hone hmax
    simp only [List.map_cons,List.head?_cons,hut,huz]
    by_cases hfree : u.mapType = .unused
    · have hroom : roomBehind (u :: ys.map Prod.snd) = u.mapSize := by simp [roomBehind,freeBehind,hfree]
      rw [if_neg (not_not.mpr hfree),hroom,offT_of_lt (show -2^63 ≤ s.mapSize+u.mapSize by omega) (by omega)]
      by_cases ha₀ : alignment = 0
      · rw [if_pos ha₀,roundDown_of_aligned ha (.inl ha₀)]
        refine .inr ⟨_,rfl,?_⟩
        have hlink := (h.setSize (s.mapSize+u.mapSize)).unlinkNext
        refine @IsMap.grown xs ys m n s u N _ u.mapSize ?_ ht hfree (by omega) le_rfl
        rw [if_pos (Int.sub_self _)]
        exact hlink
      · rw [if_neg ha₀,Int.tdiv_eq_ediv_of_nonneg (by omega)]
        have hdown : (s.mapSize+u.mapSize)/alignment*alignment = roundDown (s.mapSize+u.mapSize) alignment :=
          (if_neg ha₀).symm
        have hle := roundDown_le (s.mapSize+u.mapSize) ha
        rw [hdown]
        by_cases hgrows : roundDown (s.mapSize+u.mapSize) alignment ≤ s.mapSize
        · rw [if_pos hgrows]
          exact .inl ⟨_,rfl⟩
        · rw [if_neg hgrows]
          refine .inr ⟨_,rfl,?_⟩
          generalize roundDown (s.mapSize+u.mapSize) alignment = z at hle hgrows ⊢
          have hgive := ((h.setSize z).giveFront (d := z-s.mapSize) (offT_of_lt (by omega) (by omega))
            (offT_of_lt (by omega) (by omega))).shed
          obtain ⟨more,rfl⟩ : ∃ more, z = s.mapSize+more := ⟨z-s.mapSize,by omega⟩
          rw [add_sub_cancel_left] at hgive ⊢
          exact hgive.grown ht hfree (by omega) (by omega)
    · rw [if_pos hfree]
      exact .inl ⟨_,rfl⟩

/-- A shorter segment leaves its tail to a new one, if there is memory for it. -/
theorem resizeShrink_used (h : IsMap g (xs ++ (m,s) :: ys))
    (ht : Tiles 0 (xs.map Prod.snd ++ s :: ys.map Prod.snd) N) (hN : N < 2^63) (ha : 0 < a) (hlt : a < s.mapSize)
    (hused : freeBehind (ys.map Prod.snd) = []) :
    (g.calloc g.brk = true → ∃ g', resizeShrink g m a = (.ok a,g') ∧
      Resized g' N m (xs.map Prod.snd) s (ys.map Prod.snd) a) ∧
    (g.calloc g.brk = false → ∃ e g', resizeShrink g m a = (.error e,g') ∧ (g'.cell m).mapSize = a) := by
  have hs : (g.cell m).mapSize = s.mapSize := congrArg Seg.mapSize (h.segs (m,s) (by simp))
  have hst : (g.cell m).mapStart = s.mapStart := congrArg Seg.mapStart (h.segs (m,s) (by simp))
  have hnext := h.links.2
  obtain ⟨c,h₁,hc,hz,h₂⟩ := (tiles_append _ _ _ _).mp ht
  have h0 := h₁.le
  have hmax := h₂.le
  have hset := h.setSize a
  set g₁ := g.modify m fun s => { s with mapSize := a } with hg₁
  have hrest : (match (ys.map Prod.fst).head? with
      | some n => if (g₁.cell n).mapType = .unused then some n else none
      | none => none) = none := by
    cases ys with
    | nil => rfl
    | cons e ys =>
      obtain ⟨n,u⟩ := e
      have hut : (g₁.cell n).mapType = u.mapType := congrArg Seg.mapType (hset.segs (n,u) (by simp))
      simp only [List.map_cons,freeBehind,ite_eq_right_iff,List.cons_ne_nil,imp_false] at hused
      simp only [List.map_cons,List.head?_cons,hut,if_neg hused]
  unfold resizeShrink
  dsimp only
  rw [hs,hst,hnext,hrest,offT_of_lt (show -2^63 ≤ s.mapStart+a by omega) (by omega),
    offT_of_lt (show -2^63 ≤ s.mapSize-a by omega) (by omega)]
  dsimp only
  constructor
  · intro hcalloc
    obtain ⟨o,g₂,hcreate⟩ : ∃ o g₂, mapCreate g₁ (s.mapStart+a) (s.mapSize-a) .unused = (some o,g₂) :=
      ⟨_,_,if_pos hcalloc⟩
    obtain ⟨h₂',ho,hob,-,hcell⟩ := hset.create hcreate
    rw [hcreate]
    refine ⟨_,rfl,?_⟩
    have hlink := h₂'.linkBehind ho hob
    have hseg : (g₂.cell o).toSeg = newSeg (s.mapStart+a) (s.mapSize-a) .unused .null false := by rw [hcell]
    rw [hseg] at hlink
    refine IsMap.resized (l := [(o,newSeg (s.mapStart+a) (s.mapSize-a) .unused .null false)]) hlink ht ?_
      le_rfl (by simp [newSeg]) (by omega) ?_
    · have := freeBehind_append (ys.map Prod.snd)
      rw [hused,List.nil_append] at this
      exact this.symm
    · refine ⟨rfl,?_,?_⟩
      · show 1 ≤ s.mapSize-a
        omega
      · show s.mapStart+a+(s.mapSize-a) = _
        rw [roomBehind,hused]
        simp
  · intro hcalloc
    obtain ⟨g₂,hcreate,hcell⟩ : ∃ g₂, mapCreate g₁ (s.mapStart+a) (s.mapSize-a) .unused = (none,g₂) ∧
        g₂.cell = g₁.cell := by
      refine ⟨_,if_neg ?_,rfl⟩
      rw [show g₁.calloc g₁.brk = g.calloc g.brk from rfl,hcalloc]
      exact Bool.false_ne_true
    rw [hcreate]
    refine ⟨_,_,rfl,?_⟩
    rw [hcell,hg₁]
    simp

/-- With an unused segment behind, that segment moves by the new length instead of the difference. -/
theorem resizeShrink_free (h : IsMap g (xs ++ (m,s) :: ys))
    (ht : Tiles 0 (xs.map Prod.snd ++ s :: ys.map Prod.snd) N) (hN : N < 2^63) (ha : 0 < a) (hlt : a < s.mapSize)
    (hfree : freeBehind (ys.map Prod.snd) ≠ []) : ∃ g', resizeShrink g m a = (.ok a,g') ∧
      (Resized g' N m (xs.map Prod.snd) s (ys.map Prod.snd) a ↔ s.mapSize = 2*a) := by
  have hs : (g.cell m).mapSize = s.mapSize := congrArg Seg.mapSize (h.segs (m,s) (by simp))
  have hnext := h.links.2
  obtain ⟨c,h₁,hc,hz,h₂⟩ := (tiles_append _ _ _ _).mp ht
  have h0 := h₁.le
  have hset := h.setSize a
  set g₁ := g.modify m fun s => { s with mapSize := a } with hg₁
  cases ys with
  | nil => exact absurd rfl hfree
  | cons e ys =>
    obtain ⟨n,u⟩ := e
    obtain ⟨hstart,hone,h₃⟩ := h₂
    have hmax := h₃.le
    dsimp only at hstart hone hmax
    have hu : u.mapType = .unused := by
      by_contra hno
      exact hfree (by simp [freeBehind,hno])
    have hut : (g₁.cell n).mapType = .unused := (congrArg Seg.mapType (hset.segs (n,u) (by simp))).trans hu
    have hroom : roomBehind (u :: ys.map Prod.snd) = u.mapSize := by simp [roomBehind,freeBehind,hu]
    unfold resizeShrink
    dsimp only
    rw [hnext]
    simp only [List.map_cons,List.head?_cons,← hg₁,hut,if_true]
    refine ⟨_,rfl,?_⟩
    have hmove := hset.giveFront (d := -a) (offT_of_lt (by omega) (by omega)) (offT_of_lt (by omega) (by omega))
    rw [sub_neg_eq_add,← sub_eq_add_neg] at hmove
    have hgive : Fgdisk.giveFront g₁ n (-a) = g₁.modify n fun s =>
        { s with mapStart := offT (s.mapStart-a), mapSize := offT (s.mapSize+a) } := by
      unfold Fgdisk.giveFront
      simp only [sub_neg_eq_add,← sub_eq_add_neg]
    rw [hgive] at hmove
    constructor
    · intro hres
      have htiles := hres.wellFormed.tiles
      rw [hmove.mapList_eq,List.map_append,List.map_cons,List.map_cons] at htiles
      obtain ⟨d,hd,hds,-,hmoved,-⟩ := (tiles_append _ _ _ _).mp htiles
      dsimp only at hds hmoved
      omega
    · intro hhalf
      refine IsMap.resized (l := [(n,_)]) hmove
        (show Tiles 0 (xs.map Prod.snd ++ s :: ((n,u) :: ys).map Prod.snd) N from ht) (by simp [restBehind,hu]) le_rfl ?_ (by omega) ?_
      · intro v hv
        rw [List.map_singleton,List.mem_singleton] at hv
        rw [hv]
        exact hu
      · rw [List.map_cons,List.map_cons,hroom]
        refine ⟨?_,?_,?_⟩
        · show u.mapStart-a = _
          omega
        · show 1 ≤ u.mapSize+a
          omega
        · show s.mapStart+a+(u.mapSize+a) = _
          omega

end Branches

section Promise
variable {g : Media} {xs ys : List (ℕ × Seg)} {m : ℕ} {s : Seg} {N size alignment : ℤ} {post : List Seg}

/-- The condition in terms of the length that the code asks for. -/
theorem resizeSound_iff (hs : 0 < size) (ha : 0 ≤ alignment) (hsum : size+alignment < 2^63) :
    ResizeSound g s post size alignment ↔
      RoundsRight size alignment ∧ (resizeAsk size alignment < s.mapSize →
        if freeBehind post = [] then g.calloc g.brk = true else s.mapSize = 2*resizeAsk size alignment) ∨
      ¬ RoundsRight size alignment ∧ s.mapSize+roomBehind post < resizeAsk size alignment := by
  unfold ResizeSound
  by_cases hr : RoundsRight size alignment
  · have hask : roundUp size alignment = resizeAsk size alignment :=
      (roundUp_isLeast size ha).unique ((resizeAsk_isLeast hs ha hsum).mpr hr)
    simp only [hask,hr,hs.ne',not_true_eq_false,false_and,or_false,false_or,true_and]
  · simp only [resizeAsk_wrong hs ha hsum hr,hr,hs.ne',not_false_eq_true,false_and,false_or,true_and]

/-- A segment that has its length already is not touched. -/
theorem IsMap.resized_self (h : IsMap g (xs ++ (m,s) :: ys)) (ht : Tiles 0 (xs.map Prod.snd ++ s :: ys.map Prod.snd) N) :
    Resized g N m (xs.map Prod.snd) s (ys.map Prod.snd) s.mapSize where
  wellFormed := h.wellFormed (by simpa using ht)
  self := h.segs (m,s) (by simp)
  segs := by
    refine ⟨freeBehind (ys.map Prod.snd),?_,?_,?_,fun x => Iff.rfl⟩
    · cases ys with
      | nil => exact Nat.zero_le 1
      | cons e ys =>
        simp only [List.map_cons,freeBehind]
        split_ifs <;> simp
    · intro u hu
      cases ys with
      | nil => cases hu
      | cons e ys =>
        simp only [List.map_cons,freeBehind] at hu
        split_ifs at hu with hfree
        · rw [List.mem_singleton.mp hu]
          exact hfree
        · cases hu
    · rw [h.mapList_eq,freeBehind_append]
      simp

/-- `map_resize` keeps its promise in these cases and in no others. -/
theorem mapResize_meets_iff (h : IsMap g (xs ++ (m,s) :: ys))
    (ht : Tiles 0 (xs.map Prod.snd ++ s :: ys.map Prod.snd) N) (hN : N < 2^63) (hs : 0 ≤ size) (ha : 0 ≤ alignment)
    (hsum : size+alignment < 2^63) :
    ResizeMeets g N m (xs.map Prod.snd) s (ys.map Prod.snd) size alignment (mapResize g m size alignment) ↔
      ResizeSound g s (ys.map Prod.snd) size alignment := by
  have hms : (g.cell m).mapSize = s.mapSize := congrArg Seg.mapSize (h.segs (m,s) (by simp))
  obtain ⟨c,h₁,hc,hz,h₂⟩ := (tiles_append _ _ _ _).mp ht
  have hroom := h₂.behind.1.le
  obtain rfl | hpos := hs.eq_or_lt
  · refine iff_of_true ?_ (.inl rfl)
    rw [mapResize_zero ha]
    obtain ⟨e,he⟩ | ⟨g',hg,hres⟩ := resizeFill_spec h ht hN ha
    · rw [he]
      exact ⟨rfl,rfl⟩
    · rw [hg]
      refine ⟨hres,?_⟩
      rw [IsLength,if_pos rfl]
      exact roundDown_isGreatest _ ha
  · rw [mapResize_pos hpos ha,hms,resizeSound_iff hpos ha hsum]
    have hleast : ∀ z, IsLength s (ys.map Prod.snd) size alignment z ↔
        IsLeast {y | Aligned alignment y ∧ size ≤ y} z := fun z => by rw [IsLength,if_neg hpos.ne']
    obtain ⟨ha₀,ha₁⟩ := resizeAsk_bounds hpos ha hsum
    rw [← resizeAsk_isLeast hpos ha hsum]
    generalize resizeAsk size alignment = a at ha₀ ha₁
    by_cases hlt : a < s.mapSize
    · rw [if_pos hlt]
      by_cases hfree : freeBehind (ys.map Prod.snd) = []
      · obtain ⟨hok,hoom⟩ := resizeShrink_used h ht hN ha₀ hlt hfree
        cases hcalloc : g.calloc g.brk with
        | true =>
          obtain ⟨g',hrun,hres⟩ := hok hcalloc
          rw [hrun]
          simp only [ResizeMeets,hleast,hres,true_and,if_pos hfree,implies_true,and_true]
          exact ⟨.inl,fun h => h.resolve_right fun hw => by omega⟩
        | false =>
          obtain ⟨e,g',hrun,hcell⟩ := hoom hcalloc
          rw [hrun]
          refine iff_of_false (fun hsame => ?_) ?_
          · have hkept : (g'.cell m).mapSize = (g.cell m).mapSize := by
              rw [show g'.cell = g.cell from hsame.1]
            omega
          · rintro (⟨-,hc⟩ | ⟨-,hw⟩)
            · rw [if_pos hfree] at hc
              exact Bool.false_ne_true (hc hlt)
            · omega
      · obtain ⟨g',hrun,hres⟩ := resizeShrink_free h ht hN ha₀ hlt hfree
        rw [hrun]
        simp only [ResizeMeets,hleast,hres,if_neg hfree,hlt,true_imp_iff]
        constructor
        · rintro ⟨h₂,hl⟩
          exact .inl ⟨hl,h₂⟩
        · rintro (⟨hl,h₂⟩ | ⟨-,hw⟩)
          · exact ⟨h₂,hl⟩
          · omega
    · rw [if_neg hlt]
      by_cases hgt : a > s.mapSize
      · rw [if_pos hgt]
        simp only [hlt,false_imp_iff,and_true]
        obtain ⟨e,hrun,hw⟩ | ⟨g',hrun,hres,hfit⟩ := resizeGrow_spec h ht hN hgt ha₁
        · rw [hrun]
          exact iff_of_true ⟨rfl,rfl⟩ ((em _).imp_right fun hno => ⟨hno,hw⟩)
        · rw [hrun]
          simp only [ResizeMeets,hleast,hres,true_and]
          exact ⟨.inl,fun h => h.resolve_right fun hw => by omega⟩
      · rw [if_neg hgt]
        obtain rfl : a = s.mapSize := by omega
        simp only [ResizeMeets,hleast,h.resized_self ht,true_and,lt_irrefl,false_imp_iff,and_true]
        exact ⟨.inl,fun h => h.resolve_right fun hw => by omega⟩

/-- A partition of 30 sectors with 70 unused ones behind it. -/
def thirtyUsed : Media where
  cell k :=
    if k = 0 then ⟨⟨0,30,.gptPart,1,.null,false⟩,some 1,none⟩ else ⟨⟨30,70,.unused,0,.null,false⟩,none,some 0⟩
  brk := 2
  calloc _ := true
  mediamap := some 0

theorem thirtyUsed_isMap :
    IsMap thirtyUsed ([] ++ (0,⟨0,30,.gptPart,1,.null,false⟩) :: [(1,⟨30,70,.unused,0,.null,false⟩)]) :=
  ⟨rfl,by simp [thirtyUsed],by simp,by simp [thirtyUsed],by simp [thirtyUsed]⟩

theorem mapResize_half : ResizeMeets thirtyUsed 100 0 [] ⟨0,30,.gptPart,1,.null,false⟩
    [⟨30,70,.unused,0,.null,false⟩] 15 0 (mapResize thirtyUsed 0 15 0) :=
  (mapResize_meets_iff thirtyUsed_isMap ⟨rfl,by decide,rfl,by decide,rfl⟩
    (by norm_num) (by norm_num) le_rfl (by norm_num)).mpr (.inr (.inl ⟨.inl rfl,fun _ => by decide⟩))

/-- Cut down to 10 sectors, the partition is followed by a segment that starts inside of what it was. -/
theorem mapResize_overlaps : WellFormed thirtyUsed 100 ∧ (mapResize thirtyUsed 0 10 0).1 = .ok 10 ∧
    ¬ WellFormed (mapResize thirtyUsed 0 10 0).2 100 := by
  refine ⟨thirtyUsed_isMap.wellFormed ⟨rfl,by decide,rfl,by decide,rfl⟩,by decide,?_⟩
  rintro ⟨-,htiles⟩
  have hlist : mapList (mapResize thirtyUsed 0 10 0).2 =
      [⟨0,10,.gptPart,1,.null,false⟩,⟨20,80,.unused,0,.null,false⟩] := rfl
  rw [hlist] at htiles
  exact absurd htiles.2.2.1 (by decide)

end Promise

end Blub.Fgdisk
