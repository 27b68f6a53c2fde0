import Blub.Fgdisk.Map

/-! What the operations of `map.c` do to the list of segments. `IsMap` reads the heap as a
list of numbered segments, and `Carve` says all that one call of `map_add` can do to it. -/
namespace Blub.Fgdisk
open DList

/-- The heap holds exactly the segments `l`, linked in this order. -/
structure IsMap (g : Media) (l : List (ℕ × Seg)) : Prop where
  head : g.mediamap = (l.map Prod.fst).head?
  linked : Linked (fun a => (g.cell a).mapNext) (fun a => (g.cell a).mapPrev) none (l.map Prod.fst) none
  nodup : (l.map Prod.fst).Nodup
  bound : ∀ e ∈ l, e.1 < g.brk
  segs : ∀ e ∈ l, (g.cell e.1).toSeg = e.2

theorem mapWalk_linked {g : Media} {skip : Map → Bool} {p : Option ℕ} {ids : List ℕ}
    (h : Linked (fun a => (g.cell a).mapNext) (fun a => (g.cell a).mapPrev) p ids none) {k : ℕ}
    (hk : ids.length < k) :
    mapWalk g.cell skip k ids.head? = ids.find? (fun a => !skip (g.cell a)) := by
  induction ids generalizing p k with
  | nil => cases k <;> rfl
  | cons a ids ih =>
    cases k with
    | zero => simp at hk
    | succ k =>
      obtain ⟨-,hn,ht⟩ := h
      simp only [Option.or_none] at hn
      simp only [List.head?_cons, mapWalk, List.find?_cons, hn]
      cases hs : skip (g.cell a) with
      | true => simpa using ih ht (by simpa using hk)
      | false => simp

namespace IsMap
variable {g : Media} {l : List (ℕ × Seg)}

theorem length_le (h : IsMap g l) : l.length ≤ g.brk := by
  have hsub : (l.map Prod.fst).toFinset ⊆ Finset.range g.brk := by
    intro a ha
    obtain ⟨e,he,rfl⟩ := List.mem_map.mp (List.mem_toFinset.mp ha)
    exact Finset.mem_range.mpr (h.bound e he)
  have hcard := Finset.card_le_card hsub
  rwa [List.toFinset_card_of_nodup h.nodup, Finset.card_range, List.length_map] at hcard

/-- Walking the list is searching it from the front. -/
theorem walk_eq (h : IsMap g l) (skip : Map → Bool) :
    mapWalk g.cell skip (g.brk+1) g.mediamap = (l.map Prod.fst).find? (fun a => !skip (g.cell a)) := by
  rw [h.head]
  exact mapWalk_linked h.linked (by simpa using Nat.lt_succ_of_le h.length_le)

theorem walk_some (h : IsMap g l) (skip : Seg → Bool) {n : ℕ}
    (hw : mapWalk g.cell (fun c => skip c.toSeg) (g.brk+1) g.mediamap = some n) :
    ∃ xs s ys, l = xs ++ (n,s) :: ys ∧ (∀ e ∈ xs, skip e.2 = true) ∧ skip s = false ∧
      (g.cell n).toSeg = s := by
  rw [h.walk_eq, List.find?_eq_some_iff_append] at hw
  obtain ⟨hn,as,bs,heq,has⟩ := hw
  obtain ⟨xs,zs,rfl,hxs,hzs⟩ := List.map_eq_append_iff.mp heq
  obtain ⟨⟨n',s⟩,ys,rfl,hn',-⟩ := List.map_eq_cons_iff.mp hzs
  simp only at hn'
  subst hn'
  have hs := h.segs (n',s) (by simp)
  refine ⟨xs,s,ys,rfl,fun e he => ?_,by simpa [hs] using hn,hs⟩
  have := has e.1 (hxs ▸ List.mem_map_of_mem he)
  simpa [h.segs e (by simp [he])] using this

end IsMap

/-- The segment that `map_add` makes for a new extent. -/
def newSeg (start size : ℤ) (type : MapType) (data : MapData) (alloc : Bool) : Seg :=
  { mapStart := start, mapSize := size, mapType := type, mapIndex := 0, mapData := data,
    mapAlloc := alloc }

/-- `s` is the first segment that ends behind `start`, and it reaches `start+size`. -/
structure Site (l : List (ℕ × Seg)) (start size : ℤ) (xs : List (ℕ × Seg)) (n : ℕ) (s : Seg)
    (ys : List (ℕ × Seg)) : Prop where
  split : l = xs ++ (n,s) :: ys
  before : ∀ e ∈ xs, e.2.end ≤ start
  behind : start < s.end
  fits : offT (start+size) ≤ s.end

/-- The site is not the extent itself and may be cut up. -/
structure Cut (l : List (ℕ × Seg)) (start size : ℤ) (type : MapType) (xs : List (ℕ × Seg)) (n : ℕ)
    (s : Seg) (ys : List (ℕ × Seg)) : Prop extends Site l start size xs n s ys where
  differs : ¬(s.mapStart = start ∧ s.mapSize = size)
  free : s.mapType = .unused ∨ (s.mapType = .mbrPart ∧ type = .gptPart)

/-- Everything one call of `map_add` can do. -/
inductive Carve (l : List (ℕ × Seg)) (start size : ℤ) (type : MapType) (data : MapData)
    (alloc : Bool) : Except MapError ℕ → List (ℕ × Seg) → Prop
  | fail (e : MapError) : Carve l start size type data alloc (.error e) l
  | oom {xs n s ys} (h : Cut l start size type xs n s ys) :
      Carve l start size type data alloc (.error .cantCreate)
        (xs ++ (n,{ s with mapType := .unused }) :: ys)
  | replace {xs n s ys} (h : Site l start size xs n s ys) (hs : s.mapStart = start)
      (hz : s.mapSize = size) :
      Carve l start size type data alloc (.ok n)
        (xs ++ (n,{ s with mapType := type, mapData := data, mapAlloc := alloc }) :: ys)
  | front {xs n s ys m} (h : Cut l start size type xs n s ys) (hs : s.mapStart = start)
      (hm : m ∉ l.map Prod.fst) :
      Carve l start size type data alloc (.ok m)
        (xs ++ (m,newSeg start size type data alloc) ::
          (n,{ s with mapType := .unused, mapStart := offT (s.mapStart+size),
                      mapSize := offT (s.mapSize-size) }) :: ys)
  | tail {xs n s ys m} (h : Cut l start size type xs n s ys) (hs : s.mapStart ≠ start)
      (he : offT (start+size) = s.end) (hm : m ∉ l.map Prod.fst) :
      Carve l start size type data alloc (.ok m)
        (xs ++ (n,{ s with mapType := .unused, mapSize := offT (s.mapSize-size) }) ::
          (m,newSeg start size type data alloc) :: ys)
  | middle {xs n s ys m p} (h : Cut l start size type xs n s ys) (hs : s.mapStart ≠ start)
      (he : offT (start+size) ≠ s.end) (hm : m ∉ l.map Prod.fst) (hp : p ∉ m :: l.map Prod.fst) :
      Carve l start size type data alloc (.ok m)
        (xs ++ (p,newSeg s.mapStart (offT (start-s.mapStart)) .unused .null false) ::
          (m,newSeg start size type data alloc) ::
          (n,{ s with mapType := .unused,
                      mapStart := offT (s.mapStart+offT (offT (start-s.mapStart)+size)),
                      mapSize := offT (s.mapSize-offT (offT (start-s.mapStart)+size)) }) :: ys)

/-- The links around a cell are the numbers on both sides of it. -/
theorem IsMap.links {g : Media} {xs ys : List (ℕ × Seg)} {n : ℕ} {s : Seg}
    (h : IsMap g (xs ++ (n,s) :: ys)) :
    (g.cell n).mapPrev = (xs.map Prod.fst).getLast? ∧ (g.cell n).mapNext = (ys.map Prod.fst).head? := by
  have hl := h.linked
  rw [List.map_append, List.map_cons, linked_append, linked_cons] at hl
  exact ⟨by simpa using hl.2.1,by simpa using hl.2.2.1⟩

/-- Splicing the segments `zs` between two parts of the list. The parts keep their numbers,
though a segment next to the cut may change its contents. -/
theorem IsMap.splice {g g' : Media} {l₁ l₂ : List (ℕ × Seg)} (h : IsMap g (l₁ ++ l₂))
    (l₁' zs l₂' : List (ℕ × Seg)) (hz : zs ≠ []) (hi₁ : l₁'.map Prod.fst = l₁.map Prod.fst) (hi₂ : l₂'.map Prod.fst = l₂.map Prod.fst)
    (hb : g.brk ≤ g'.brk) (hnew : ∀ e ∈ zs, e.1 ∉ (l₁ ++ l₂).map Prod.fst ∧ e.1 < g'.brk)
    (hd : (zs.map Prod.fst).Nodup)
    (hh : g'.mediamap = if l₁ = [] then (zs.map Prod.fst).head? else g.mediamap)
    (h₁ : ∀ a ∈ l₁.map Prod.fst, (g'.cell a).mapPrev = (g.cell a).mapPrev ∧ (g'.cell a).mapNext =
      if (l₁.map Prod.fst).getLast? = some a then (zs.map Prod.fst).head? else (g.cell a).mapNext)
    (h₂ : ∀ a ∈ l₂.map Prod.fst, (g'.cell a).mapNext = (g.cell a).mapNext ∧ (g'.cell a).mapPrev =
      if (l₂.map Prod.fst).head? = some a then (zs.map Prod.fst).getLast? else (g.cell a).mapPrev)
    (hl : Linked (fun a => (g'.cell a).mapNext) (fun a => (g'.cell a).mapPrev)
      (l₁.map Prod.fst).getLast? (zs.map Prod.fst) (l₂.map Prod.fst).head?)
    (hs : ∀ e ∈ l₁' ++ (zs ++ l₂'), (g'.cell e.1).toSeg = e.2) : IsMap g' (l₁' ++ (zs ++ l₂')) := by
  have hold : ∀ a ∈ (l₁ ++ l₂).map Prod.fst, a < g.brk := by
    intro a ha
    obtain ⟨e,he,rfl⟩ := List.mem_map.mp ha
    exact h.bound e he
  have hlink := h.linked
  have hnd := h.nodup
  rw [List.map_append] at hlink hnd hold
  have hids : (l₁' ++ (zs ++ l₂')).map Prod.fst =
      l₁.map Prod.fst ++ (zs.map Prod.fst ++ l₂.map Prod.fst) := by simp [hi₁, hi₂]
  refine ⟨?_,?_,?_,fun e he => ?_,hs⟩
  · rw [hids, hh]
    cases l₁ with
    | nil => simp [List.head?_append, List.head?_eq_some_head (List.map_eq_nil_iff.not.mpr hz)]
    | cons a l₁ => simpa using h.head
  · rw [hids]
    exact hlink.splice hnd (by simpa using hz) h₁ h₂ hl
  · rw [hids]
    have hfresh : ∀ a ∈ zs.map Prod.fst, a ∉ l₁.map Prod.fst ++ l₂.map Prod.fst := by
      intro a ha
      obtain ⟨e,he,rfl⟩ := List.mem_map.mp ha
      rw [← List.map_append]
      exact (hnew e he).1
    obtain ⟨hd₁,hd₂,hd₁₂⟩ := List.nodup_append.mp hnd
    refine List.nodup_append.mpr ⟨hd₁,List.nodup_append.mpr ⟨hd,hd₂,?_⟩,?_⟩
    · rintro a ha b hb rfl
      exact hfresh a ha (List.mem_append.mpr (.inr hb))
    · rintro a ha b hb rfl
      rcases List.mem_append.mp hb with hb | hb
      · exact hfresh a hb (List.mem_append.mpr (.inl ha))
      · exact hd₁₂ a ha a hb rfl
  · have hmem : e.1 ∈ l₁.map Prod.fst ++ (zs.map Prod.fst ++ l₂.map Prod.fst) :=
      hids ▸ List.mem_map_of_mem he
    rcases List.mem_append.mp hmem with hm | hm
    · have := hold e.1 (List.mem_append.mpr (.inl hm))
      omega
    · rcases List.mem_append.mp hm with hm | hm
      · obtain ⟨z,hz',hze⟩ := List.mem_map.mp hm
        have := (hnew z hz').2
        omega
      · have := hold e.1 (List.mem_append.mpr (.inr hm))
        omega

/-- A segment keeps its place when only its contents change. -/
theorem IsMap.modify {g : Media} {xs ys : List (ℕ × Seg)} {n : ℕ} {s s' : Seg} {f : Map → Map}
    (h : IsMap g (xs ++ (n,s) :: ys)) (hf : (f (g.cell n)).toSeg = s')
    (hn : (f (g.cell n)).mapNext = (g.cell n).mapNext) (hp : (f (g.cell n)).mapPrev = (g.cell n).mapPrev) :
    IsMap (g.modify n f) (xs ++ (n,s') :: ys) := by
  have hids : (xs ++ (n,s') :: ys).map Prod.fst = (xs ++ (n,s) :: ys).map Prod.fst := by simp
  have hnd := h.nodup
  refine ⟨by rw [hids]; exact h.head,?_,by rw [hids]; exact h.nodup,fun e he => ?_,fun e he => ?_⟩
  · rw [hids]
    refine h.linked.congr fun a _ => ?_
    by_cases ha : a = n
    · subst ha
      simp [hn, hp]
    · simp [Function.update_of_ne ha]
  · have hm : e.1 ∈ (xs ++ (n,s) :: ys).map Prod.fst := hids ▸ List.mem_map_of_mem he
    obtain ⟨e',he',hee⟩ := List.mem_map.mp hm
    exact hee ▸ h.bound e' he'
  · by_cases hen : e.1 = n
    · have hes : e = (n,s') := by
        rcases List.mem_append.mp he with hx | hx
        · exact absurd hnd (fun hnd => by
            simp only [List.map_append, List.map_cons, List.nodup_append] at hnd
            exact hnd.2.2 e.1 (List.mem_map_of_mem hx) n (by simp) hen)
        · rcases List.mem_cons.mp hx with rfl | hx
          · rfl
          · simp only [List.map_append, List.map_cons, List.nodup_append, List.nodup_cons] at hnd
            exact absurd (hen ▸ List.mem_map_of_mem hx) hnd.2.1.1
      subst hes
      simpa using hf
    · have hmem : e ∈ xs ++ (n,s) :: ys := by
        rcases List.mem_append.mp he with hx | hx
        · simp [hx]
        · rcases List.mem_cons.mp hx with rfl | hx
          · exact absurd rfl hen
          · simp [hx]
      simpa [Function.update_of_ne hen] using h.segs e hmem

theorem IsMap.modify_apart {g : Media} {l : List (ℕ × Seg)} (h : IsMap g l) {m : ℕ}
    (hm : m ∉ l.map Prod.fst) (f : Map → Map) : IsMap (g.modify m f) l := by
  have hne : ∀ a ∈ l.map Prod.fst, a ≠ m := by
    rintro a ha rfl
    exact hm ha
  refine ⟨h.head,h.linked.congr fun a ha => ?_,h.nodup,h.bound,fun e he => ?_⟩
  · simp [Function.update_of_ne (hne a ha)]
  · simpa [Function.update_of_ne (hne e.1 (List.mem_map_of_mem he))] using h.segs e he

/-- A new cell is not part of the list yet. -/
theorem IsMap.create {g g' : Media} {l : List (ℕ × Seg)} (h : IsMap g l) {start size : ℤ}
    {type : MapType} {m : ℕ} (hc : mapCreate g start size type = (some m,g')) :
    IsMap g' l ∧ m ∉ l.map Prod.fst ∧ m < g'.brk ∧ g.brk ≤ m ∧
      g'.cell m = { newSeg start size type .null false with mapNext := none, mapPrev := none } := by
  unfold mapCreate at hc
  split at hc
  · simp only [Prod.mk.injEq, Option.some.injEq] at hc
    obtain ⟨rfl,rfl⟩ := hc
    have hnot : g.brk ∉ l.map Prod.fst := by
      intro hmem
      obtain ⟨e,he,hee⟩ := List.mem_map.mp hmem
      have := h.bound e he
      omega
    have hne : ∀ a ∈ l.map Prod.fst, a ≠ g.brk := by
      rintro a ha rfl
      exact hnot ha
    refine ⟨⟨h.head,h.linked.congr fun a ha => ?_,h.nodup,fun e he => ?_,fun e he => ?_⟩,hnot,by simp,le_rfl,
      by simp [newSeg]⟩
    · simp [Function.update_of_ne (hne a ha)]
    · exact Nat.lt_succ_of_lt (h.bound e he)
    · simpa [Function.update_of_ne (hne e.1 (List.mem_map_of_mem he))] using h.segs e he
  · simp at hc

theorem IsMap.create_fail {g g' : Media} {l : List (ℕ × Seg)} (h : IsMap g l) {start size : ℤ}
    {type : MapType} (hc : mapCreate g start size type = (none,g')) : IsMap g' l := by
  unfold mapCreate at hc
  split at hc
  · simp at hc
  · simp only [Prod.mk.injEq, true_and] at hc
    subst hc
    exact ⟨h.head,h.linked,h.nodup,fun e he => Nat.lt_succ_of_lt (h.bound e he),h.segs⟩

/-- The numbers of the segments around one of them. -/
theorem IsMap.numbers {g : Media} {xs ys : List (ℕ × Seg)} {n : ℕ} {s : Seg}
    (h : IsMap g (xs ++ (n,s) :: ys)) :
    n ∉ xs.map Prod.fst ∧ n ∉ ys.map Prod.fst ∧ ∀ a ∈ xs.map Prod.fst, a ∉ ys.map Prod.fst := by
  have hnd := h.nodup
  simp only [List.map_append, List.map_cons] at hnd
  obtain ⟨-,hd₂,hd₁₂⟩ := List.nodup_append.mp hnd
  refine ⟨fun hn => hd₁₂ n hn n (by simp) rfl,(List.nodup_cons.mp hd₂).1,fun a ha hb => ?_⟩
  exact hd₁₂ a ha a (List.mem_cons_of_mem _ hb) rfl

@[simp] theorem cutFront_brk (g : Media) (n m : ℕ) (size : ℤ) : (cutFront g n m size).brk = g.brk := by
  unfold cutFront
  dsimp only
  split <;> rfl

theorem cutFront_mediamap (g : Media) (n m : ℕ) (size : ℤ) :
    (cutFront g n m size).mediamap = if (g.cell n).mapPrev = none then some m else g.mediamap := by
  unfold cutFront
  dsimp only
  split <;> simp_all

theorem cutFront_cell {g : Media} {n m : ℕ} (size : ℤ) (hmn : m ≠ n)
    (hn : (g.cell n).mapPrev ≠ some n) (hm : (g.cell n).mapPrev ≠ some m) (a : ℕ) :
    (cutFront g n m size).cell a =
      if a = n then
        { g.cell n with mapPrev := some m, mapStart := offT ((g.cell n).mapStart+size),
                        mapSize := offT ((g.cell n).mapSize-size) }
      else if a = m then { g.cell m with mapPrev := (g.cell n).mapPrev, mapNext := some n }
      else if (g.cell n).mapPrev = some a then { g.cell a with mapNext := some m }
      else g.cell a := by
  unfold cutFront
  cases hp : (g.cell n).mapPrev with
  | none => simp [Function.update_apply, hmn.symm]
  | some q =>
    have hqn : q ≠ n := fun h => hn (by rw [hp, h])
    have hqm : q ≠ m := fun h => hm (by rw [hp, h])
    by_cases han : a = n
    · subst han
      simp [Function.update_of_ne hqn.symm, Function.update_of_ne hmn.symm]
    · by_cases ham : a = m
      · subst ham
        simp [Function.update_of_ne hqm.symm, han]
      · by_cases haq : a = q
        · subst haq
          simp [han, ham]
        · have : ¬q = a := fun h => haq h.symm
          simp [han, ham, haq, this]

theorem IsMap.cutFront {g : Media} {xs ys : List (ℕ × Seg)} {n m : ℕ} {s : Seg}
    (h : IsMap g (xs ++ (n,s) :: ys)) (hm : m ∉ (xs ++ (n,s) :: ys).map Prod.fst) (hb : m < g.brk)
    (size : ℤ) :
    IsMap (cutFront g n m size) (xs ++ (m,(g.cell m).toSeg) ::
      (n,{ s with mapStart := offT (s.mapStart+size), mapSize := offT (s.mapSize-size) }) :: ys) := by
  have hprev := h.links.1
  obtain ⟨hnx,hny,hxy⟩ := h.numbers
  obtain rfl : (g.cell n).toSeg = s := h.segs (n,s) (by simp)
  have hsegs := h.segs
  have hm' := hm
  simp only [List.map_append, List.map_cons, List.mem_append, List.mem_cons, not_or] at hm'
  obtain ⟨hmx,hmn,hmy⟩ := hm'
  have hcell := cutFront_cell (g := g) size hmn
    (fun hc => hnx (List.mem_of_getLast? (hprev ▸ hc))) (fun hc => hmx (List.mem_of_getLast? (hprev ▸ hc)))
  have hx : ∀ a ∈ xs.map Prod.fst, a ≠ n ∧ a ≠ m :=
    fun a ha => ⟨fun hc => hnx (hc ▸ ha),fun hc => hmx (hc ▸ ha)⟩
  have hy : ∀ a ∈ ys.map Prod.fst, a ≠ n ∧ a ≠ m ∧ (g.cell n).mapPrev ≠ some a := by
    refine fun a ha => ⟨fun hc => hny (hc ▸ ha),fun hc => hmy (hc ▸ ha),fun hc => ?_⟩
    exact hxy a (List.mem_of_getLast? (hprev ▸ hc)) ha
  refine h.splice xs [(m,(g.cell m).toSeg)]
    ((n,{ (g.cell n).toSeg with
      mapStart := offT ((g.cell n).mapStart+size), mapSize := offT ((g.cell n).mapSize-size) }) :: ys)
    (by simp) rfl (by simp) (by simp) ?_ (by simp) ?_ ?_ ?_ ?_ ?_
  · intro e he
    obtain rfl := List.mem_singleton.mp he
    exact ⟨hm,by simpa using hb⟩
  · rw [cutFront_mediamap, hprev]
    cases xs <;> simp
  · intro a ha
    obtain ⟨han,ham⟩ := hx a ha
    rw [hcell, if_neg han, if_neg ham, ← hprev]
    split <;> simp
  · intro a ha
    rcases List.mem_cons.mp ha with rfl | ha
    · simp [hcell]
    · obtain ⟨han,ham,haq⟩ := hy a ha
      rw [hcell, if_neg han, if_neg ham, if_neg haq]
      have : n ≠ a := han.symm
      simp [this]
  · simp [hcell, hmn, hprev]
  · intro e he
    rcases List.mem_append.mp he with he | he
    · obtain ⟨han,ham⟩ := hx e.1 (List.mem_map_of_mem he)
      rw [hcell, if_neg han, if_neg ham, ← hsegs e (by simp [he])]
      split <;> rfl
    · rcases List.mem_cons.mp he with rfl | he
      · simp [hcell, hmn]
      · rcases List.mem_cons.mp he with rfl | he
        · simp [hcell]
        · obtain ⟨han,ham,haq⟩ := hy e.1 (List.mem_map_of_mem he)
          rw [hcell, if_neg han, if_neg ham, if_neg haq, ← hsegs e (by simp [he])]

@[simp] theorem cutTail_brk (g : Media) (n m : ℕ) (size : ℤ) : (cutTail g n m size).brk = g.brk := by
  unfold cutTail
  dsimp only
  split <;> rfl

@[simp] theorem cutTail_mediamap (g : Media) (n m : ℕ) (size : ℤ) :
    (cutTail g n m size).mediamap = g.mediamap := by
  unfold cutTail
  dsimp only
  split <;> rfl

theorem cutTail_cell {g : Media} {n m : ℕ} (size : ℤ) (hmn : m ≠ n)
    (hn : (g.cell n).mapNext ≠ some n) (hm : (g.cell n).mapNext ≠ some m) (a : ℕ) :
    (cutTail g n m size).cell a =
      if a = n then { g.cell n with mapNext := some m, mapSize := offT ((g.cell n).mapSize-size) }
      else if a = m then { g.cell m with mapNext := (g.cell n).mapNext, mapPrev := some n }
      else if (g.cell n).mapNext = some a then { g.cell a with mapPrev := some m }
      else g.cell a := by
  unfold cutTail
  cases hp : (g.cell n).mapNext with
  | none => simp [Function.update_apply, hmn.symm]
  | some q =>
    have hqn : q ≠ n := fun h => hn (by rw [hp, h])
    have hqm : q ≠ m := fun h => hm (by rw [hp, h])
    by_cases han : a = n
    · subst han
      simp [Function.update_of_ne hqn.symm, Function.update_of_ne hmn.symm]
    · by_cases ham : a = m
      · subst ham
        simp [Function.update_of_ne hqm.symm, han]
      · by_cases haq : a = q
        · subst haq
          simp [han, ham]
        · have : ¬q = a := fun h => haq h.symm
          simp [han, ham, haq, this]

theorem IsMap.cutTail {g : Media} {xs ys : List (ℕ × Seg)} {n m : ℕ} {s : Seg}
    (h : IsMap g (xs ++ (n,s) :: ys)) (hm : m ∉ (xs ++ (n,s) :: ys).map Prod.fst) (hb : m < g.brk)
    (size : ℤ) :
    IsMap (cutTail g n m size) (xs ++ (n,{ s with mapSize := offT (s.mapSize-size) }) ::
      (m,(g.cell m).toSeg) :: ys) := by
  have hnext := h.links.2
  obtain ⟨hnx,hny,hxy⟩ := h.numbers
  obtain rfl : (g.cell n).toSeg = s := h.segs (n,s) (by simp)
  have hsegs := h.segs
  have hm' := hm
  simp only [List.map_append, List.map_cons, List.mem_append, List.mem_cons, not_or] at hm'
  obtain ⟨hmx,hmn,hmy⟩ := hm'
  have hcell := cutTail_cell (g := g) size hmn
    (fun hc => hny (List.mem_of_head? (hnext ▸ hc))) (fun hc => hmy (List.mem_of_head? (hnext ▸ hc)))
  have hx : ∀ a ∈ xs.map Prod.fst, a ≠ n ∧ a ≠ m ∧ (g.cell n).mapNext ≠ some a := by
    refine fun a ha => ⟨fun hc => hnx (hc ▸ ha),fun hc => hmx (hc ▸ ha),fun hc => ?_⟩
    exact hxy a ha (List.mem_of_head? (hnext ▸ hc))
  have hy : ∀ a ∈ ys.map Prod.fst, a ≠ n ∧ a ≠ m :=
    fun a ha => ⟨fun hc => hny (hc ▸ ha),fun hc => hmy (hc ▸ ha)⟩
  have hsplit : xs ++ (n,(g.cell n).toSeg) :: ys = (xs ++ [(n,(g.cell n).toSeg)]) ++ ys := by simp
  rw [hsplit] at h hm
  have hlist : xs ++ (n,{ (g.cell n).toSeg with mapSize := offT ((g.cell n).mapSize-size) }) ::
      (m,(g.cell m).toSeg) :: ys =
      (xs ++ [(n,{ (g.cell n).toSeg with mapSize := offT ((g.cell n).mapSize-size) })]) ++
        ([(m,(g.cell m).toSeg)] ++ ys) := by simp
  rw [hlist]
  refine h.splice _ _ _ (by simp) (by simp) rfl (by simp) ?_ (by simp) ?_ ?_ ?_ ?_ ?_
  · intro e he
    obtain rfl := List.mem_singleton.mp he
    exact ⟨hm,by simpa using hb⟩
  · simp
  · intro a ha
    rw [List.map_append, List.mem_append] at ha
    rcases ha with ha | ha
    · obtain ⟨han,ham,haq⟩ := hx a ha
      rw [hcell, if_neg han, if_neg ham, if_neg haq]
      have : n ≠ a := han.symm
      simp [this]
    · obtain rfl : a = n := by simpa using ha
      simp [hcell]
  · intro a ha
    obtain ⟨han,ham⟩ := hy a ha
    rw [hcell, if_neg han, if_neg ham, ← hnext]
    split <;> simp
  · simp [hcell, hmn, hnext]
  · intro e he
    simp only [List.append_assoc, List.cons_append, List.nil_append] at he
    rcases List.mem_append.mp he with he | he
    · obtain ⟨han,ham,haq⟩ := hx e.1 (List.mem_map_of_mem he)
      rw [hcell, if_neg han, if_neg ham, if_neg haq, ← hsegs e (by simp [he])]
    · rcases List.mem_cons.mp he with rfl | he
      · simp [hcell]
      · rcases List.mem_cons.mp he with rfl | he
        · simp [hcell, hmn]
        · obtain ⟨han,ham⟩ := hy e.1 (List.mem_map_of_mem he)
          rw [hcell, if_neg han, if_neg ham, ← hsegs e (by simp [he])]
          split <;> rfl

@[simp] theorem cutMiddle_brk (g : Media) (n m p : ℕ) : (cutMiddle g n m p).brk = g.brk := by
  unfold cutMiddle
  dsimp only
  split <;> rfl

theorem cutMiddle_mediamap {g : Media} {n m p : ℕ} :
    (cutMiddle g n m p).mediamap = if (g.cell n).mapPrev = none then some p else g.mediamap := by
  unfold cutMiddle
  dsimp only
  split <;> simp_all

/-- The number of sectors in front of what `n` keeps. -/
def cutLen (g : Media) (m p : ℕ) : ℤ := offT ((g.cell p).mapSize+(g.cell m).mapSize)

theorem cutMiddle_cell {g : Media} {n m p : ℕ} (hmn : m ≠ n) (hpn : p ≠ n) (hpm : p ≠ m)
    (hn : (g.cell n).mapPrev ≠ some n) (hm : (g.cell n).mapPrev ≠ some m)
    (hp : (g.cell n).mapPrev ≠ some p) (a : ℕ) :
    (cutMiddle g n m p).cell a =
      if a = n then
        { g.cell n with mapPrev := some m, mapStart := offT ((g.cell n).mapStart+cutLen g m p),
                        mapSize := offT ((g.cell n).mapSize-cutLen g m p) }
      else if a = m then { g.cell m with mapPrev := some p, mapNext := some n }
      else if a = p then { g.cell p with mapPrev := (g.cell n).mapPrev, mapNext := some m }
      else if (g.cell n).mapPrev = some a then { g.cell a with mapNext := some p }
      else g.cell a := by
  unfold cutMiddle cutLen
  cases hq : (g.cell n).mapPrev with
  | none =>
    simp only [Media.modify_cell, Function.update_apply, hmn, hmn.symm, hpn, hpn.symm, hpm, hpm.symm, hq,
      if_true, if_false]
    by_cases han : a = n
    · simp [han, hmn.symm, hpn.symm]
    · by_cases ham : a = m
      · simp [ham, hmn, hpm.symm]
      · by_cases hap : a = p
        · simp [hap, hpn, hpm]
        · simp [han, ham, hap]
  | some q =>
    have hqn : q ≠ n := fun h => hn (by rw [hq, h])
    have hqm : q ≠ m := fun h => hm (by rw [hq, h])
    have hqp : q ≠ p := fun h => hp (by rw [hq, h])
    simp only [Media.modify_cell, Function.update_apply, hmn, hmn.symm, hpn, hpn.symm, hpm, hpm.symm, hq,
      hqn, hqm, hqp, if_true, if_false]
    by_cases han : a = n
    · simp [han, hqn.symm, hmn.symm, hpn.symm]
    · by_cases ham : a = m
      · simp [ham, hqm.symm, hmn, hpm.symm]
      · by_cases hap : a = p
        · simp [hap, hqp.symm, hpn, hpm]
        · by_cases haq : a = q
          · simp [haq, hqn, hqm, hqp]
          · have : ¬q = a := fun h => haq h.symm
            simp [han, ham, hap, haq, this]

theorem IsMap.cutMiddle {g : Media} {xs ys : List (ℕ × Seg)} {n m p : ℕ} {s : Seg}
    (h : IsMap g (xs ++ (n,s) :: ys)) (hm : m ∉ (xs ++ (n,s) :: ys).map Prod.fst) (hb : m < g.brk)
    (hp : p ∉ m :: (xs ++ (n,s) :: ys).map Prod.fst) (hpb : p < g.brk) :
    IsMap (cutMiddle g n m p) (xs ++ (p,(g.cell p).toSeg) :: (m,(g.cell m).toSeg) ::
      (n,{ s with mapStart := offT (s.mapStart+cutLen g m p),
                  mapSize := offT (s.mapSize-cutLen g m p) }) :: ys) := by
  have hprev := h.links.1
  obtain ⟨hnx,hny,hxy⟩ := h.numbers
  obtain rfl : (g.cell n).toSeg = s := h.segs (n,s) (by simp)
  have hsegs := h.segs
  obtain ⟨hpm,hp'⟩ : p ≠ m ∧ p ∉ (xs ++ (n,(g.cell n).toSeg) :: ys).map Prod.fst := by
    simpa only [List.mem_cons, not_or] using hp
  have hm' := hm
  have hp'' := hp'
  simp only [List.map_append, List.map_cons, List.mem_append, List.mem_cons, not_or] at hm' hp''
  obtain ⟨hmx,hmn,hmy⟩ := hm'
  obtain ⟨hpx,hpn,hpy⟩ := hp''
  have hcell := cutMiddle_cell (g := g) hmn hpn hpm
    (fun hc => hnx (List.mem_of_getLast? (hprev ▸ hc))) (fun hc => hmx (List.mem_of_getLast? (hprev ▸ hc)))
    (fun hc => hpx (List.mem_of_getLast? (hprev ▸ hc)))
  have hx : ∀ a ∈ xs.map Prod.fst, a ≠ n ∧ a ≠ m ∧ a ≠ p :=
    fun a ha => ⟨fun hc => hnx (hc ▸ ha),fun hc => hmx (hc ▸ ha),fun hc => hpx (hc ▸ ha)⟩
  have hy : ∀ a ∈ ys.map Prod.fst, a ≠ n ∧ a ≠ m ∧ a ≠ p ∧ (g.cell n).mapPrev ≠ some a := by
    refine fun a ha => ⟨fun hc => hny (hc ▸ ha),fun hc => hmy (hc ▸ ha),fun hc => hpy (hc ▸ ha),
      fun hc => ?_⟩
    exact hxy a (List.mem_of_getLast? (hprev ▸ hc)) ha
  refine h.splice xs [(p,(g.cell p).toSeg),(m,(g.cell m).toSeg)]
    ((n,{ (g.cell n).toSeg with
      mapStart := offT ((g.cell n).mapStart+cutLen g m p),
      mapSize := offT ((g.cell n).mapSize-cutLen g m p) }) :: ys)
    (by simp) rfl (by simp) (by simp) ?_ (by simpa using hpm) ?_ ?_ ?_ ?_ ?_
  · intro e he
    simp only [List.mem_cons, List.not_mem_nil, or_false] at he
    rcases he with rfl | rfl
    · exact ⟨hp',by simpa using hpb⟩
    · exact ⟨hm,by simpa using hb⟩
  · rw [cutMiddle_mediamap, hprev]
    cases xs <;> simp
  · intro a ha
    obtain ⟨han,ham,hap⟩ := hx a ha
    rw [hcell, if_neg han, if_neg ham, if_neg hap, ← hprev]
    split <;> simp
  · intro a ha
    rcases List.mem_cons.mp ha with rfl | ha
    · simp [hcell]
    · obtain ⟨han,ham,hap,haq⟩ := hy a ha
      rw [hcell, if_neg han, if_neg ham, if_neg hap, if_neg haq]
      have : n ≠ a := han.symm
      simp [this]
  · simp [hcell, hmn, hpn, hpm, hprev]
  · intro e he
    rcases List.mem_append.mp he with he | he
    · obtain ⟨han,ham,hap⟩ := hx e.1 (List.mem_map_of_mem he)
      rw [hcell, if_neg han, if_neg ham, if_neg hap, ← hsegs e (by simp [he])]
      split <;> rfl
    · simp only [List.cons_append, List.nil_append, List.mem_cons] at he
      rcases he with rfl | rfl | rfl | he
      · simp [hcell, hpn, hpm]
      · simp [hcell, hmn]
      · simp [hcell]
      · obtain ⟨han,ham,hap,haq⟩ := hy e.1 (List.mem_map_of_mem he)
        rw [hcell, if_neg han, if_neg ham, if_neg hap, if_neg haq, ← hsegs e (by simp [he])]

theorem mapSplit_carve {g : Media} {l xs ys : List (ℕ × Seg)} {n : ℕ} {s s' : Seg} {start size : ℤ}
    {type : MapType} (data : MapData) (alloc : Bool) (hcut : Cut l start size type xs n s ys)
    (hs' : s' = { s with mapType := .unused }) (h : IsMap g (xs ++ (n,s') :: ys)) :
    ∃ l', IsMap (mapSplit g n start size type data alloc).2 l' ∧
      Carve l start size type data alloc (mapSplit g n start size type data alloc).1 l' := by
  have hcell : (g.cell n).toSeg = s' := h.segs (n,s') (by simp)
  have hids : (xs ++ (n,s') :: ys).map Prod.fst = l.map Prod.fst := by simp [hcut.split]
  unfold mapSplit
  dsimp only
  rw [hcell]
  split
  · rename_i g₁ hc
    exact ⟨_,h.create_fail hc,hs' ▸ .oom hcut⟩
  · rename_i m g₁ hc
    obtain ⟨h₁,hm,hmb,-,hmc⟩ := h.create hc
    set g₂ := g₁.modify m fun s => { s with mapData := data, mapAlloc := alloc } with hg₂
    have h₂ : IsMap g₂ (xs ++ (n,s') :: ys) := h₁.modify_apart hm _
    have hm₂ : (g₂.cell m).toSeg = newSeg start size type data alloc := by simp [hg₂, hmc, newSeg]
    have hmb₂ : m < g₂.brk := hmb
    have hmn : m ≠ n := by
      rintro rfl
      exact hm (by simp)
    split
    · rename_i hstart
      refine ⟨_,h₂.cutFront hm hmb₂ size,?_⟩
      rw [hm₂, hs']
      exact .front (s := s) hcut (by simpa [hs'] using hstart.symm) (hids ▸ hm)
    · rename_i hstart
      split
      · rename_i hend
        refine ⟨_,h₂.cutTail hm hmb₂ size,?_⟩
        rw [hm₂, hs']
        exact .tail (s := s) hcut (by simpa [hs', eq_comm] using hstart) (by simpa [hs', Seg.end] using hend) (hids ▸ hm)
      · rename_i hend
        split
        · rename_i g₃ hc'
          exact ⟨_,h₂.create_fail hc',hs' ▸ .oom hcut⟩
        · rename_i p g₃ hc'
          obtain ⟨h₃,hp,hpb,hpm,hpc⟩ := h₂.create hc'
          have hne : p ≠ m := by omega
          have hold : g₃.cell m = g₂.cell m := by
            unfold mapCreate at hc'
            split at hc'
            · simp only [Prod.mk.injEq, Option.some.injEq] at hc'
              obtain ⟨rfl,rfl⟩ := hc'
              exact Function.update_of_ne hne.symm _ _
            · simp at hc'
          have hm₃ : (g₃.cell m).toSeg = newSeg start size type data alloc := by rw [hold, hm₂]
          have hp₃ : (g₃.cell p).toSeg = newSeg s.mapStart (offT (start-s.mapStart)) .unused .null false := by
            rw [hpc, hs']
          have hlen : cutLen g₃ m p = offT (offT (start-s.mapStart)+size) := by
            rw [cutLen, hm₃, hp₃]
            rfl
          refine ⟨_,h₃.cutMiddle hm (by omega) (by simpa [hne] using hp) hpb,?_⟩
          rw [hm₃, hp₃, hlen, hs']
          exact .middle (s := s) hcut (by simpa [hs', eq_comm] using hstart)
            (by simpa [hs', Seg.end] using hend) (hids ▸ hm) (by simpa [hne, ← hids] using hp)

/-- `map_add` on the heap is `Carve` on the list of segments. -/
theorem mapAdd_carve {g : Media} {l : List (ℕ × Seg)} (h : IsMap g l) (start size : ℤ)
    (type : MapType) (data : MapData) (alloc : Bool) :
    ∃ l', IsMap (mapAdd g start size type data alloc).2 l' ∧
      Carve l start size type data alloc (mapAdd g start size type data alloc).1 l' := by
  unfold mapAdd
  split
  · exact ⟨l,h,.fail _⟩
  · rename_i n hw
    obtain ⟨xs,s,ys,rfl,hxs,hs,hcell⟩ := h.walk_some (fun s => decide (s.end ≤ start)) hw
    simp only [decide_eq_true_eq, decide_eq_false_iff_not, not_le] at hxs hs
    dsimp only
    rw [hcell]
    split_ifs with hfit hexact hbogus
    · exact ⟨_,h,.fail _⟩
    · obtain ⟨hst,hsz⟩ := hexact
      refine ⟨_,?_,.replace ⟨rfl,hxs,hs,not_lt.mp hfit⟩ hst hsz⟩
      refine h.modify (f := fun s => { s with mapType := type, mapData := data, mapAlloc := alloc }) ?_ rfl rfl
      rw [← hcell]
    · exact ⟨_,h,.fail _⟩
    · have hcut : Cut (xs ++ (n,s) :: ys) start size type xs n s ys := by
        refine ⟨⟨rfl,hxs,hs,not_lt.mp hfit⟩,hexact,?_⟩
        by_cases hu : s.mapType = .unused
        · exact .inl hu
        · right
          simpa [hu, not_or] using hbogus
      refine mapSplit_carve data alloc hcut rfl (h.modify ?_ rfl rfl)
      rw [← hcell]

section Alloc
variable (start size alignment : ℤ)

/-- What `map_alloc` does at one segment: it goes on, gives up, or asks for an extent. -/
inductive Offer
  | skip
  | refuse
  | take (start size : ℤ)

/-- Where an extent may start in a segment, from its start on. -/
def allocDelta (s : Seg) : ℤ :=
  if start ≠ 0 then offT (start-s.mapStart)
  else if alignment > 0 ∧ s.mapStart.tmod alignment ≠ 0 then
    offT ((offT (s.mapStart+alignment)).tdiv alignment*alignment-s.mapStart)
  else 0

/-- The length asked for when `room` sectors are left. -/
def allocSize (room : ℤ) : ℤ :=
  if size = 0 then
    if alignment > 0 ∧ room.tmod alignment ≠ 0 then room.tdiv alignment*alignment else room
  else size

def offer (s : Seg) : Offer :=
  let room := offT (s.mapSize-allocDelta start alignment s)
  if s.mapType ≠ .unused ∨ s.mapStart < 2 then .skip
  else if start ≠ 0 ∧ s.mapStart > start then .refuse
  else if ¬(size = 0 ∨ room ≥ size) ∨ room < alignment then .skip
  else .take (offT (s.mapStart+allocDelta start alignment s)) (allocSize size alignment room)

/-- The extent that `map_alloc` asks for. -/
def allocExtent : List Seg → Option (ℤ × ℤ)
  | [] => none
  | s :: l =>
    match offer start size alignment s with
    | .skip => allocExtent l
    | .refuse => none
    | .take a z => some (a,z)

attribute [local grind =] allocExtent

variable {start size alignment}

theorem allocExtent_some {l : List Seg} {a z : ℤ} (h : allocExtent start size alignment l = some (a,z)) :
    ∃ s ∈ l, offer start size alignment s = .take a z := by
  induction l with
  | nil => cases h
  | cons s l ih =>
    unfold allocExtent at h
    split at h
    · obtain ⟨u,hu,hof⟩ := ih h
      exact ⟨u,List.mem_cons_of_mem _ hu,hof⟩
    · cases h
    · rename_i hof
      cases h
      exact ⟨s,List.mem_cons_self,hof⟩

theorem mapAllocFrom_some (g : Media) (k m : ℕ) :
    mapAllocFrom g start size alignment (k+1) (some m) =
      match offer start size alignment (g.cell m).toSeg with
      | .skip => mapAllocFrom g start size alignment k (g.cell m).mapNext
      | .refuse => (.error .noSpace,g)
      | .take a z => mapAdd g a z .gptPart .null false := by
  have hunfold : mapAllocFrom g start size alignment (k+1) (some m) =
      (let seg := (g.cell m).toSeg
      let room := offT (seg.mapSize-allocDelta start alignment seg)
      if seg.mapType ≠ .unused ∨ seg.mapStart < 2 then
        mapAllocFrom g start size alignment k (g.cell m).mapNext
      else if start ≠ 0 ∧ seg.mapStart > start then (.error .noSpace,g)
      else if size = 0 ∨ room ≥ size then
        if room < alignment then mapAllocFrom g start size alignment k (g.cell m).mapNext
        else mapAdd g (offT (seg.mapStart+allocDelta start alignment seg)) (allocSize size alignment room)
          .gptPart .null false
      else mapAllocFrom g start size alignment k (g.cell m).mapNext) := rfl
  rw [hunfold]
  unfold offer
  dsimp only
  split_ifs <;> first | rfl | tauto

theorem mapAllocFrom_linked {g : Media} {p : Option ℕ} {ids : List ℕ}
    (h : Linked (fun a => (g.cell a).mapNext) (fun a => (g.cell a).mapPrev) p ids none) {k : ℕ}
    (hk : ids.length < k) :
    mapAllocFrom g start size alignment k ids.head? =
      match allocExtent start size alignment (ids.map fun a => (g.cell a).toSeg) with
      | none => (.error .noSpace,g)
      | some (a,z) => mapAdd g a z .gptPart .null false := by
  induction ids generalizing p k with
  | nil => cases k <;> rfl
  | cons m ids ih =>
    cases k with
    | zero => simp at hk
    | succ k =>
      obtain ⟨-,hn,ht⟩ := h
      simp only [Option.or_none] at hn
      have hrest := ih ht (show ids.length < k by simpa using hk)
      rw [← hn] at hrest
      simp only [List.head?_cons,mapAllocFrom_some,List.map_cons,allocExtent]
      cases hof : offer start size alignment (g.cell m).toSeg with
      | skip => exact hrest
      | refuse => rfl
      | take a z => rfl

/-- `map_alloc` asks `map_add` for the first extent on offer. -/
theorem IsMap.mapAlloc_eq {g : Media} {l : List (ℕ × Seg)} (h : IsMap g l) (start size alignment : ℤ) :
    mapAlloc g start size alignment =
      match allocExtent (alignUp start alignment) (alignUp size alignment) alignment (l.map Prod.snd) with
      | none => (.error .noSpace,g)
      | some (a,z) => mapAdd g a z .gptPart .null false := by
  have hsegs : (l.map Prod.fst).map (fun a => (g.cell a).toSeg) = l.map Prod.snd := by
    rw [List.map_map]
    exact List.map_congr_left h.segs
  rw [mapAlloc,h.head,mapAllocFrom_linked h.linked (by simpa using Nat.lt_succ_of_le h.length_le),hsegs]

end Alloc

end Blub.Fgdisk
