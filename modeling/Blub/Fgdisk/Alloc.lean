import Blub.Fgdisk.Resize

/-! `map_alloc` is first fit on the unused segments of the media map, and when it is not. -/
namespace Blub.Fgdisk
open DList Blub.Align

section Requests
variable (start size alignment : ℤ)

/-- The extents that a request stands for, start and size being rounded up to the alignment. -/
def Suits (a z : ℤ) : Prop :=
  (if start = 0 then Aligned alignment a else a = roundUp start alignment) ∧
    (if size = 0 then Aligned alignment z else z = roundUp size alignment) ∧ 1 ≤ z

/-- A free segment that can hold such an extent. -/
def CanHold (s : Seg) : Prop :=
  s.mapType = .unused ∧ ∃ a z, Suits start size alignment a z ∧ s.mapStart ≤ a ∧ a+z ≤ s.mapStart+s.mapSize

/-- Where the extent goes: to the start asked for, or to the first aligned sector. -/
def slotStart (s : Seg) : ℤ := if start = 0 then roundUp s.mapStart alignment else roundUp start alignment

/-- How long it gets: as long as asked for, or the largest aligned length that fits. -/
def slotLen (s : Seg) : ℤ :=
  if size = 0 then roundDown (s.mapStart+s.mapSize-slotStart start alignment s) alignment
  else roundUp size alignment

/-- What a first fit allocation promises. -/
def AllocMeets (g : Media) (N : ℤ) (l : List Seg) (r : Except MapError ℕ × Media) : Prop :=
  match r.1 with
  | .ok m => ∃ xs s ys, l = xs ++ s :: ys ∧ CanHold start size alignment s ∧
      (∀ u ∈ xs, ¬ CanHold start size alignment u) ∧ s.mapStart ≤ (r.2.cell m).mapStart ∧
      (r.2.cell m).mapStart+(r.2.cell m).mapSize ≤ s.mapStart+s.mapSize ∧ WellFormed r.2 N ∧
      (r.2.cell m).toSeg ∈ mapList r.2 ∧ (r.2.cell m).mapType = .gptPart ∧
      (r.2.cell m).mapStart = slotStart start alignment s ∧
      (r.2.cell m).mapSize = slotLen start size alignment s ∧ 1 ≤ (r.2.cell m).mapSize ∧
      ∀ x, ¬(r.2.cell m).Holds x → typeAt (mapList r.2) x = typeAt l x
  | .error _ => (∀ s ∈ l, ¬ CanHold start size alignment s) ∧ r.2.cell = g.cell ∧ r.2.mediamap = g.mediamap

/-- The segments that `map_add` needs for an extent in a free segment are there. -/
def Delivers (g : Media) (s : Seg) (a z : ℤ) : Prop :=
  (s.mapStart = a ∧ s.mapSize = z) ∨
    g.calloc g.brk = true ∧ (a = s.mapStart ∨ a+z = s.mapStart+s.mapSize ∨ g.calloc (g.brk+1) = true)

/-- When `map_alloc` is first fit: what sectors 0 and 1 have free does not count, the request is not for anything
behind a free segment with more of the kind following, and there is memory. -/
structure AllocSound (g : Media) (l : List Seg) : Prop where
  low : ∀ u ∈ l, u.mapStart < 2 → ¬ CanHold start size alignment u
  gap : size = 0 → alignment = 0 → ∀ xs s n ys, l = xs ++ s :: n :: ys → s.mapType = .unused → 2 ≤ s.mapStart →
    s.mapStart+s.mapSize = start → n.mapType ≠ .unused ∧ n.mapType ≠ .mbrPart
  memory : ∀ xs s ys, l = xs ++ s :: ys → CanHold start size alignment s →
    (∀ u ∈ xs, ¬ CanHold start size alignment u) →
    Delivers g s (slotStart start alignment s) (slotLen start size alignment s)

variable {start size alignment} {s : Seg} {N : ℤ}

theorem slotLen_aligned (hs : size = 0) (ha : 0 ≤ alignment) (s : Seg) :
    Aligned alignment (slotLen start size alignment s) := by
  rw [slotLen,if_pos hs]
  exact roundDown_aligned _ ha

/-- A segment can hold such an extent if the first place for it is good enough. -/
theorem canHold_iff (ha : 0 ≤ alignment) : CanHold start size alignment s ↔ s.mapType = .unused ∧
    s.mapStart ≤ slotStart start alignment s ∧ 1 ≤ slotLen start size alignment s ∧
      slotStart start alignment s+slotLen start size alignment s ≤ s.mapStart+s.mapSize := by
  refine and_congr_right fun _ => ⟨?_,?_⟩
  · rintro ⟨a,z,⟨hsa,hsz,hz⟩,hle,hfit⟩
    have hstart : s.mapStart ≤ slotStart start alignment s ∧ slotStart start alignment s ≤ a := by
      unfold slotStart
      split_ifs at hsa ⊢ with h0
      · exact ⟨le_roundUp _ ha,roundUp_le ha hsa hle⟩
      · omega
    unfold slotLen
    split_ifs at hsz ⊢ with h0
    · have hd := le_roundDown (x := s.mapStart+s.mapSize-slotStart start alignment s) ha hsz (by omega)
      have hle' := roundDown_le (s.mapStart+s.mapSize-slotStart start alignment s) ha
      omega
    · omega
  · rintro ⟨hle,hz,hfit⟩
    refine ⟨_,_,⟨?_,?_,hz⟩,hle,hfit⟩
    · unfold slotStart
      split_ifs
      · exact roundUp_aligned _ ha
      · rfl
    · split_ifs with h0
      · exact slotLen_aligned h0 ha s
      · rw [slotLen,if_neg h0]

/-- Rounding up in the code. -/
theorem alignUp_eq {x : ℤ} (hx : 0 ≤ x) (ha : 0 ≤ alignment) (h : x+alignment < 2^63) :
    alignUp x alignment = roundUp x alignment := by
  unfold alignUp
  rw [Int.tmod_eq_emod_of_nonneg hx]
  split_ifs with hr
  · obtain ⟨hpos,hne⟩ := hr
    have hb := roundUp_bounds hx hpos h
    have hd : ¬ alignment ∣ x := fun hd => hne (Int.emod_eq_zero_of_dvd hd)
    rw [offT_of_lt (by omega) (by omega),offT_of_lt (show -2^63 ≤ x+alignment by omega) h,
      Int.tdiv_eq_ediv_of_nonneg (by omega),roundUp_of_not_dvd hpos hd]
  · refine (roundUp_of_aligned ha ?_).symm
    by_cases h0 : alignment = 0
    · exact .inl h0
    · right
      by_contra hd
      exact hr ⟨by omega,fun he => hd (Int.dvd_of_emod_eq_zero he)⟩

end Requests

section Offers
variable {start size alignment N : ℤ} {s : Seg}

/-- No sum of a request runs over. -/
structure Request (start size alignment N : ℤ) : Prop where
  start_nonneg : 0 ≤ start
  size_nonneg : 0 ≤ size
  alignment_nonneg : 0 ≤ alignment
  startSum : start+alignment < 2^63
  sizeSum : size+alignment < 2^63
  endSum : N+alignment < 2^63

/-- A free segment that `map_alloc` looks at. -/
structure Free (s : Seg) (N : ℤ) : Prop where
  unused : s.mapType = .unused
  behind : 2 ≤ s.mapStart
  proper : 1 ≤ s.mapSize
  inside : s.mapStart+s.mapSize ≤ N

theorem roundUp_eq_zero {x a : ℤ} (hx : 0 ≤ x) (ha : 0 ≤ a) : roundUp x a = 0 ↔ x = 0 := by
  have hle := le_roundUp x ha
  refine ⟨fun h => by omega,?_⟩
  rintro rfl
  exact roundUp_of_aligned ha (.inr (Int.dvd_zero a))

theorem roundUp_le_add {x a : ℤ} (ha : 0 ≤ a) : roundUp x a ≤ x+a := by
  obtain rfl | hpos := ha.eq_or_lt
  · rw [roundUp,if_pos rfl,Int.add_zero]
  · exact (roundUp_lt hpos).le

theorem slotStart_eq (hr : Request start size alignment N) (hf : Free s N)
    (hle : ¬(start ≠ 0 ∧ s.mapStart > roundUp start alignment)) :
    s.mapStart+allocDelta (roundUp start alignment) alignment s = slotStart start alignment s ∧
      s.mapStart ≤ slotStart start alignment s ∧ slotStart start alignment s < 2^63 := by
  have h₁ := hr.start_nonneg
  have h₂ := hr.alignment_nonneg
  have h₃ := hr.startSum
  have h₄ := hr.endSum
  have hb := hf.behind
  have hp := hf.proper
  have hi := hf.inside
  have hup := roundUp_le_add (x := start) h₂
  unfold allocDelta slotStart
  by_cases h0 : start = 0
  · have hz := (roundUp_eq_zero h₁ h₂).mpr h0
    have hle' := le_roundUp s.mapStart h₂
    have hup' := roundUp_le_add (x := s.mapStart) h₂
    have hal := alignUp_eq (show 0 ≤ s.mapStart by omega) h₂ (by omega)
    rw [if_neg (not_not.mpr hz),if_pos h0]
    refine ⟨?_,hle',by omega⟩
    unfold alignUp at hal
    split_ifs at hal ⊢ with hmod
    · have hb' := roundUp_bounds (show 0 ≤ s.mapStart by omega) hmod.1 (by omega)
      rw [offT_of_lt (by omega) (by omega)] at hal
      rw [offT_of_lt (by omega) (by omega)]
      omega
    · omega
  · have hz : roundUp start alignment ≠ 0 := fun h => h0 ((roundUp_eq_zero h₁ h₂).mp h)
    have hge : s.mapStart ≤ roundUp start alignment := not_lt.mp fun hlt => hle ⟨h0,hlt⟩
    rw [if_pos hz,if_neg h0,offT_of_lt (by omega) (by omega)]
    omega

theorem slotLen_eq (hr : Request start size alignment N) {room : ℤ} (h0 : 0 ≤ room)
    (hroom : room = s.mapStart+s.mapSize-slotStart start alignment s) :
    allocSize (roundUp size alignment) alignment room = slotLen start size alignment s := by
  have h₂ := hr.alignment_nonneg
  have hz := roundUp_eq_zero hr.size_nonneg h₂
  unfold allocSize slotLen
  rw [← hroom]
  by_cases hs : size = 0
  · rw [if_pos (hz.mpr hs),if_pos hs,Int.tmod_eq_emod_of_nonneg h0,Int.tdiv_eq_ediv_of_nonneg h0]
    split_ifs with hmod
    · rw [roundDown,if_neg (by omega)]
    · refine (roundDown_of_aligned h₂ ?_).symm
      by_cases ha : alignment = 0
      · exact .inl ha
      · right
        by_contra hd
        exact hmod ⟨by omega,fun he => hd (Int.dvd_of_emod_eq_zero he)⟩
  · rw [if_neg fun h => hs (hz.mp h),if_neg hs]

/-- The request is for what lies right behind the segment. -/
def Behind (start size alignment : ℤ) (s : Seg) : Prop :=
  size = 0 ∧ alignment = 0 ∧ start ≠ 0 ∧ s.mapStart+s.mapSize = start

instance (start size alignment : ℤ) (s : Seg) : Decidable (Behind start size alignment s) :=
  inferInstanceAs (Decidable (_ ∧ _))

/-- A length fits as far as there is room. -/
theorem fits_iff (hr : Request start size alignment N) {room : ℤ}
    (hroom : room = s.mapStart+s.mapSize-slotStart start alignment s)
    (hb : room = 0 → size = 0 → alignment ≠ 0) :
    (1 ≤ slotLen start size alignment s ∧ slotLen start size alignment s ≤ room) ↔
      (roundUp size alignment = 0 ∨ room ≥ roundUp size alignment) ∧ ¬ room < alignment := by
  have h₂ := hr.alignment_nonneg
  have hz := roundUp_eq_zero hr.size_nonneg h₂
  unfold slotLen
  rw [← hroom]
  by_cases hs : size = 0
  · have hdown := roundDown_le room h₂
    rw [if_pos hs]
    simp only [hz.mpr hs,true_or,true_and,not_lt]
    constructor
    · rintro ⟨hone,-⟩
      obtain ha | hd := roundDown_aligned room h₂
      · omega
      · have := Int.le_of_dvd (by omega) hd
        omega
    · intro hle
      refine ⟨?_,hdown⟩
      by_cases ha : alignment = 0
      · have hne : room ≠ 0 := fun h => hb h hs ha
        rw [roundDown,if_pos ha]
        omega
      · have := le_roundDown h₂ (.inr (Int.dvd_refl alignment)) hle
        omega
  · have hpos : roundUp size alignment ≠ 0 := fun h => hs (hz.mp h)
    have hge := le_roundUp size h₂
    have hsz := hr.size_nonneg
    rw [if_neg hs]
    constructor
    · rintro ⟨hone,hle⟩
      refine ⟨.inr hle,?_⟩
      obtain ha | hd := roundUp_aligned size h₂
      · omega
      · have := Int.le_of_dvd (by omega) hd
        omega
    · rintro ⟨h,-⟩
      have := h.resolve_left hpos
      omega

theorem offer_refuse (hr : Request start size alignment N) (hf : Free s N)
    (hlt : start ≠ 0 ∧ s.mapStart > roundUp start alignment) :
    offer (roundUp start alignment) (roundUp size alignment) alignment s = .refuse := by
  have hz : roundUp start alignment ≠ 0 := fun h => hlt.1 ((roundUp_eq_zero hr.start_nonneg hr.alignment_nonneg).mp h)
  have hb := hf.behind
  unfold offer
  dsimp only
  rw [if_neg (by rw [hf.unused]; simp only [ne_eq,not_true_eq_false,false_or]; omega),if_pos ⟨hz,hlt.2⟩]

/-- A segment that starts early enough offers what is left behind the start. -/
theorem offer_room (hr : Request start size alignment N) (hf : Free s N)
    (hle : ¬(start ≠ 0 ∧ s.mapStart > roundUp start alignment)) {room : ℤ}
    (hroom : room = s.mapStart+s.mapSize-slotStart start alignment s) :
    offer (roundUp start alignment) (roundUp size alignment) alignment s =
      if (roundUp size alignment = 0 ∨ room ≥ roundUp size alignment) ∧ ¬ room < alignment then
        .take (slotStart start alignment s) (allocSize (roundUp size alignment) alignment room)
      else .skip := by
  have hz : roundUp start alignment ≠ 0 ↔ start ≠ 0 :=
    not_congr (roundUp_eq_zero hr.start_nonneg hr.alignment_nonneg)
  have hi := hf.inside
  have hn := hr.endSum
  have hal := hr.alignment_nonneg
  have hp := hf.proper
  have hbeh := hf.behind
  obtain ⟨hslot,hge,hmax⟩ := slotStart_eq hr hf hle
  have hroom' : s.mapSize-allocDelta (roundUp start alignment) alignment s = room := by omega
  unfold offer
  dsimp only
  rw [if_neg (by rw [hf.unused]; simp only [ne_eq,not_true_eq_false,false_or]; omega),if_neg (by rwa [hz]),
    hroom',hslot,offT_of_lt (by omega) (by omega),offT_of_lt (by omega) hmax]
  split_ifs with h₁ h₂ h₂
  · exact absurd h₂ (by tauto)
  · rfl
  · rfl
  · exact absurd h₁ (by tauto)

/-- A free segment that can hold the extent is taken. -/
theorem offer_hold (hr : Request start size alignment N) (hf : Free s N) (hc : CanHold start size alignment s) :
    offer (roundUp start alignment) (roundUp size alignment) alignment s =
      .take (slotStart start alignment s) (slotLen start size alignment s) := by
  obtain ⟨-,hle,hone,hfit⟩ := (canHold_iff hr.alignment_nonneg).mp hc
  have hnot : ¬(start ≠ 0 ∧ s.mapStart > roundUp start alignment) := by
    rintro ⟨h0,hgt⟩
    rw [slotStart,if_neg h0] at hle
    omega
  have hpos : 1 ≤ s.mapStart+s.mapSize-slotStart start alignment s := by omega
  rw [offer_room hr hf hnot rfl,if_pos ((fits_iff hr rfl (by omega)).mp ⟨hone,by omega⟩),
    slotLen_eq hr (by omega) rfl]

/-- One that cannot is passed over, unless the request is for what lies right behind it. -/
theorem offer_skip (hr : Request start size alignment N) (hf : Free s N)
    (hle : ¬(start ≠ 0 ∧ s.mapStart > roundUp start alignment)) (hc : ¬ CanHold start size alignment s) :
    offer (roundUp start alignment) (roundUp size alignment) alignment s =
      if Behind start size alignment s then .take start 0 else .skip := by
  have hal := hr.alignment_nonneg
  have hp := hf.proper
  rw [offer_room hr hf hle rfl]
  by_cases hb : Behind start size alignment s
  · obtain ⟨rfl,rfl,h0,hend⟩ := hb
    have hslot : slotStart start 0 s = start := by
      rw [slotStart,if_neg h0]
      exact if_pos rfl
    have hlen : roundUp 0 0 = 0 := rfl
    rw [hslot,hend,Int.sub_self,hlen,if_pos ⟨.inl rfl,lt_irrefl 0⟩,if_pos ⟨rfl,rfl,h0,hend⟩]
    rfl
  · rw [if_neg hb,if_neg]
    intro hfit
    have hge := (slotStart_eq hr hf hle).2.1
    have hne : s.mapStart+s.mapSize-slotStart start alignment s = 0 → size = 0 → alignment ≠ 0 := by
      rintro hroom rfl rfl
      by_cases h0 : start = 0
      · have hslot : slotStart start 0 s = s.mapStart := by
          rw [slotStart,if_pos h0]
          exact if_pos rfl
        omega
      · have hslot : slotStart start 0 s = start := by
          rw [slotStart,if_neg h0]
          exact if_pos rfl
        exact hb ⟨rfl,rfl,h0,by omega⟩
    obtain ⟨hone,hle'⟩ := (fits_iff hr rfl hne).mpr hfit
    exact hc ((canHold_iff hal).mpr ⟨hf.unused,hge,hone,by omega⟩)

end Offers

section Scan
variable {start size alignment N c : ℤ} {l : List Seg} {s : Seg}

/-- The request is for what lies right behind a free segment. -/
def AsksBehind (start size alignment : ℤ) (s : Seg) : Prop :=
  s.mapType = .unused ∧ 2 ≤ s.mapStart ∧ Behind start size alignment s

/-- What the search of `map_alloc` comes to. -/
inductive Scan (start size alignment : ℤ) (l : List Seg) : Option (ℤ × ℤ) → Prop
  | hold {xs s ys} (hl : l = xs ++ s :: ys) (h₂ : 2 ≤ s.mapStart) (hc : CanHold start size alignment s)
      (hx : ∀ u ∈ xs, 2 ≤ u.mapStart → ¬ CanHold start size alignment u)
      (hb : ∀ u ∈ l, ¬ AsksBehind start size alignment u) :
      Scan start size alignment l (some (slotStart start alignment s,slotLen start size alignment s))
  | none (hl : ∀ u ∈ l, 2 ≤ u.mapStart → ¬ CanHold start size alignment u)
      (hb : ∀ u ∈ l, ¬ AsksBehind start size alignment u) : Scan start size alignment l none
  | behind {xs s ys} (hl : l = xs ++ s :: ys) (hb : AsksBehind start size alignment s) :
      Scan start size alignment l (some (start,0))

theorem CanHold.slot (hc : CanHold start size alignment s) (ha : 0 ≤ alignment) (h0 : start ≠ 0) :
    s.mapStart ≤ roundUp start alignment ∧ roundUp start alignment < s.mapStart+s.mapSize := by
  obtain ⟨-,hle,hone,hfit⟩ := (canHold_iff ha).mp hc
  rw [slotStart,if_neg h0] at hle hfit
  omega

/-- A segment that starts behind the request cannot serve it. -/
theorem not_canHold_of_lt (ha : 0 ≤ alignment) (h : start ≠ 0 ∧ s.mapStart > roundUp start alignment) :
    ¬ CanHold start size alignment s := fun hc => by
  have := (hc.slot ha h.1).1
  omega

theorem Scan.cons {r : Option (ℤ × ℤ)} (h : Scan start size alignment l r)
    (hs : 2 ≤ s.mapStart → ¬ CanHold start size alignment s) (hb : ¬ AsksBehind start size alignment s) :
    Scan start size alignment (s :: l) r := by
  cases h with
  | @hold xs v ys hl h₂ hc hx hb' =>
    exact .hold (show s :: l = (s :: xs) ++ v :: ys by rw [hl]; rfl) h₂ hc (List.forall_mem_cons.mpr ⟨hs,hx⟩)
      (List.forall_mem_cons.mpr ⟨hb,hb'⟩)
  | none hl hb' => exact .none (List.forall_mem_cons.mpr ⟨hs,hl⟩) (List.forall_mem_cons.mpr ⟨hb,hb'⟩)
  | @behind xs v ys hl hb' => exact .behind (show s :: l = (s :: xs) ++ v :: ys by rw [hl]; rfl) hb'

/-- The search finds the first segment that can hold the extent. -/
theorem allocExtent_scan (hr : Request start size alignment N) (h : Tiles c l N) (h0 : 0 ≤ c) :
    Scan start size alignment l
      (allocExtent (roundUp start alignment) (roundUp size alignment) alignment l) := by
  have ha := hr.alignment_nonneg
  have hup := le_roundUp start ha
  induction l generalizing c with
  | nil => exact .none nofun nofun
  | cons s l ih =>
    obtain ⟨rfl,hp,ht⟩ := h
    have hend := ht.le
    have hrest := ih ht (by omega)
    by_cases hf : s.mapType = .unused ∧ 2 ≤ s.mapStart
    · have hfree : Free s N := ⟨hf.1,hf.2,hp,hend⟩
      by_cases hlt : start ≠ 0 ∧ s.mapStart > roundUp start alignment
      · rw [allocExtent,offer_refuse hr hfree hlt]
        -- everything from here on starts behind the request
        have hall : ∀ u ∈ s :: l, start ≠ 0 ∧ u.mapStart > roundUp start alignment := by
          refine List.forall_mem_cons.mpr ⟨hlt,fun u hu => ⟨hlt.1,?_⟩⟩
          have := (ht.mem hu).1
          omega
        have hpos : ∀ u ∈ s :: l, 1 ≤ u.mapSize :=
          List.forall_mem_cons.mpr ⟨hp,fun u hu => (ht.mem hu).2.1⟩
        refine .none (fun u hu _ => not_canHold_of_lt ha (hall u hu)) fun u hu hb => ?_
        obtain ⟨-,-,-,-,-,hbe⟩ := hb
        have := (hall u hu).2
        have := hpos u hu
        omega
      · by_cases hc : CanHold start size alignment s
        · rw [allocExtent,offer_hold hr hfree hc]
          refine .hold (show s :: l = [] ++ s :: l from rfl) hf.2 hc nofun ?_
          rintro u hu ⟨-,-,-,rfl,h0',hbe⟩
          have hslot := hc.slot ha h0'
          obtain rfl | hu := List.mem_cons.mp hu
          · omega
          · have := ht.mem hu
            omega
        · rw [allocExtent,offer_skip hr hfree hlt hc]
          by_cases hb : Behind start size alignment s
          · rw [if_pos hb]
            exact .behind (show s :: l = [] ++ s :: l from rfl) ⟨hf.1,hf.2,hb⟩
          · rw [if_neg hb]
            exact hrest.cons (fun _ => hc) fun hb' => hb hb'.2.2
    · have hskip : offer (roundUp start alignment) (roundUp size alignment) alignment s = .skip := by
        unfold offer
        dsimp only
        rw [if_pos]
        rw [not_and_or,not_le] at hf
        exact hf
      rw [allocExtent,hskip]
      exact hrest.cons (fun h₂ hc => hf ⟨hc.1,h₂⟩) fun hb => hf ⟨hb.1,hb.2.1⟩

end Scan

section Calls
variable {g : Media} {xs ys : List (ℕ × Seg)} {n : ℕ} {s : Seg} {a z : ℤ}

theorem mapCreate_some (h : g.calloc g.brk = true) (start size : ℤ) (type : MapType) :
    ∃ g', mapCreate g start size type = (some g.brk,g') ∧ g'.calloc = g.calloc ∧ g'.brk = g.brk+1 :=
  ⟨_,if_pos h,rfl,rfl⟩

theorem mapCreate_none (h : g.calloc g.brk ≠ true) (start size : ℤ) (type : MapType) :
    ∃ g', mapCreate g start size type = (none,g') ∧ g'.cell = g.cell := ⟨_,if_neg h,rfl⟩

/-- Cutting a segment up takes one new segment at its ends and two in the middle. -/
theorem mapSplit_ok_iff (g : Media) (n : ℕ) (a z : ℤ) (type : MapType) (data : MapData) (alloc : Bool) :
    (∃ m, (mapSplit g n a z type data alloc).1 = .ok m) ↔ g.calloc g.brk = true ∧
      (a = (g.cell n).mapStart ∨ offT (a+z) = (g.cell n).end ∨ g.calloc (g.brk+1) = true) := by
  unfold mapSplit
  by_cases h₁ : g.calloc g.brk = true
  · obtain ⟨g₁,hc₁,hcalloc,hbrk⟩ := mapCreate_some h₁ a z type
    rw [hc₁]
    dsimp only
    by_cases h₂ : a = (g.cell n).mapStart
    · rw [if_pos h₂]
      exact iff_of_true ⟨_,rfl⟩ ⟨h₁,.inl h₂⟩
    · rw [if_neg h₂]
      by_cases h₃ : offT (a+z) = (g.cell n).end
      · rw [if_pos h₃]
        exact iff_of_true ⟨_,rfl⟩ ⟨h₁,.inr (.inl h₃)⟩
      · rw [if_neg h₃]
        set g₂ := g₁.modify g.brk fun s => { s with mapData := data, mapAlloc := alloc } with hg₂
        have hnext : g₂.calloc g₂.brk = g.calloc (g.brk+1) := by
          rw [hg₂,Media.modify_calloc,Media.modify_brk,hcalloc,hbrk]
        by_cases h₄ : g₂.calloc g₂.brk = true
        · obtain ⟨g₃,hc₃,-,-⟩ := mapCreate_some h₄ (g.cell n).mapStart (offT (a-(g.cell n).mapStart)) (g.cell n).mapType
          rw [hc₃]
          exact iff_of_true ⟨_,rfl⟩ ⟨h₁,.inr (.inr (hnext ▸ h₄))⟩
        · obtain ⟨g₃,hc₃,-⟩ := mapCreate_none h₄ (g.cell n).mapStart (offT (a-(g.cell n).mapStart)) (g.cell n).mapType
          rw [hc₃]
          refine iff_of_false (by rintro ⟨m,hm⟩; cases hm) ?_
          rw [hnext] at h₄
          tauto
  · obtain ⟨g₁,hc₁,-⟩ := mapCreate_none h₁ a z type
    rw [hc₁]
    exact iff_of_false (by rintro ⟨m,hm⟩; cases hm) fun h => h₁ h.1

/-- An extent of a free segment is added if there is memory for it. -/
theorem IsMap.mapAdd_free (h : IsMap g (xs ++ (n,s) :: ys)) (hx : ∀ e ∈ xs, e.2.end ≤ a) (hs : a < s.end)
    (hend : s.end = s.mapStart+s.mapSize) (hoff : offT (a+z) = a+z) (hfit : a+z ≤ s.mapStart+s.mapSize)
    (hu : s.mapType = .unused) (data : MapData) (alloc : Bool) :
    (∃ m, (mapAdd g a z .gptPart data alloc).1 = .ok m) ↔ Delivers g s a z := by
  rw [h.mapAdd_at hx hs (by rw [hoff,hend]; omega),Delivers]
  by_cases hexact : s.mapStart = a ∧ s.mapSize = z
  · rw [if_pos hexact]
    exact iff_of_true ⟨_,rfl⟩ (.inl hexact)
  · have hc : (g.cell n).toSeg = s := h.segs (n,s) (by simp)
    have hst : (g.cell n).mapStart = s.mapStart := congrArg Seg.mapStart hc
    have hen : (g.cell n).end = s.mapStart+s.mapSize := (congrArg Seg.end hc).trans hend
    rw [if_neg hexact,if_neg (by simp [hu]),mapSplit_ok_iff]
    simp only [hexact,false_or,Media.modify_calloc,Media.modify_brk,Media.modify_cell,Function.update_self,hoff]
    rw [show (Map.toSeg { g.cell n with mapType := .unused }).end = (g.cell n).end from rfl,hst,hen]

/-- An empty extent at the start of a segment makes an empty partition, or leaves the segment unused. -/
theorem IsMap.mapAdd_empty (h : IsMap g (xs ++ (n,s) :: ys)) (hx : ∀ e ∈ xs, e.2.end ≤ s.mapStart)
    (hs : s.mapStart < s.end) (hz : s.mapSize ≠ 0) (hst : -2^63 ≤ s.mapStart ∧ s.mapStart < 2^63)
    (hu : s.mapType = .unused ∨ s.mapType = .mbrPart) (data : MapData) (alloc : Bool) :
    (∃ m, (mapAdd g s.mapStart 0 .gptPart data alloc).1 = .ok m ∧
      ((mapAdd g s.mapStart 0 .gptPart data alloc).2.cell m).mapSize = 0) ∨
    ∃ e, (mapAdd g s.mapStart 0 .gptPart data alloc).1 = .error e ∧
      ((mapAdd g s.mapStart 0 .gptPart data alloc).2.cell n).mapType = .unused := by
  have hc : (g.cell n).toSeg = s := h.segs (n,s) (by simp)
  have hoff : offT (s.mapStart+0) = s.mapStart := by
    rw [Int.add_zero]
    exact offT_of_lt hst.1 hst.2
  have hrun := h.mapAdd_at (z := 0) hx hs (by rw [hoff]; omega) .gptPart data alloc
  rw [if_neg fun he => hz he.2,if_neg (by rintro ⟨h₁,h₂ | h₂⟩; exacts [h₂ (hu.resolve_left h₁),h₂ rfl])] at hrun
  by_cases hcalloc : g.calloc g.brk = true
  · left
    obtain ⟨m,hm⟩ := (mapSplit_ok_iff (g.modify n fun s => { s with mapType := .unused }) n s.mapStart 0 .gptPart data
      alloc).mpr ⟨hcalloc,.inl (by simp [← hc])⟩
    obtain ⟨l',h',hcarve⟩ := mapAdd_carve h s.mapStart 0 .gptPart data alloc
    rw [hrun] at h' hcarve ⊢
    rw [hm] at hcarve
    obtain ⟨e,he,rfl,-,hsize,-⟩ := hcarve.extent
    exact ⟨e.1,hm,(congrArg Seg.mapSize (h'.segs e he)).trans hsize⟩
  · right
    obtain ⟨g₁,hc₁,hcell⟩ := mapCreate_none (g := g.modify n fun s => { s with mapType := .unused }) hcalloc
      s.mapStart 0 .gptPart
    rw [hrun]
    unfold mapSplit
    rw [hc₁]
    refine ⟨_,rfl,?_⟩
    rw [hcell]
    simp

end Calls

section Promise
variable {g : Media} {l : List (ℕ × Seg)} {start size alignment N : ℤ}

/-- A sector of the device is in one segment. -/
theorem Tiles.order {c : ℤ} {xs ys : List Seg} {s : Seg} (h : Tiles c (xs ++ s :: ys) N) :
    (∀ u ∈ xs, u.mapStart+u.mapSize ≤ s.mapStart) ∧ ∀ u ∈ ys, s.mapStart+s.mapSize ≤ u.mapStart := by
  obtain ⟨d,h₁,rfl,-,h₂⟩ := (tiles_append _ _ _ _).mp h
  exact ⟨fun u hu => (h₁.mem hu).2.2,fun u hu => (h₂.mem hu).1⟩

/-- The first segment of a kind is the same however the list is split. -/
theorem Tiles.first {P : Seg → Prop} {xs ys xs' ys' : List Seg} {s s' : Seg} (h : Tiles 0 (xs ++ s :: ys) N)
    (heq : xs ++ s :: ys = xs' ++ s' :: ys') (hx : ∀ u ∈ xs, ¬ P u) (hx' : ∀ u ∈ xs', ¬ P u) (hs : P s) (hs' : P s') :
    s = s' := by
  have hm : s' ∈ xs ++ s :: ys := heq ▸ by simp
  have hm' : s ∈ xs' ++ s' :: ys' := heq ▸ by simp
  have ho := h.order
  have ho' := (heq ▸ h : Tiles 0 (xs' ++ s' :: ys') N).order
  have hpos := (h.mem (show s ∈ xs ++ s :: ys by simp)).2.1
  have hpos' := (h.mem hm).2.1
  obtain hm | hm := List.mem_append.mp hm
  · exact absurd hs' (hx _ hm)
  · obtain hm' | hm' := List.mem_append.mp hm'
    · exact absurd hs (hx' _ hm')
    · obtain rfl | hm := List.mem_cons.mp hm
      · rfl
      · obtain rfl | hm' := List.mem_cons.mp hm'
        · rfl
        · have := ho.2 _ hm
          have := ho'.2 _ hm'
          omega

theorem allocSound_gap {ls : List Seg} (hb : ∀ u ∈ ls, ¬ AsksBehind start size alignment u)
    (ht : Tiles 0 ls N) : size = 0 → alignment = 0 → ∀ (xs : List Seg) (s n : Seg) (ys : List Seg),
      ls = xs ++ s :: n :: ys → s.mapType = .unused → 2 ≤ s.mapStart → s.mapStart+s.mapSize = start →
        n.mapType ≠ .unused ∧ n.mapType ≠ .mbrPart := by
  rintro hs ha xs s n ys rfl hu h₂ hend
  have hm : s ∈ xs ++ s :: n :: ys := by simp
  have := (ht.mem hm).2.1
  exact absurd ⟨hu,h₂,hs,ha,by omega,hend⟩ (hb s hm)

variable {xs ys : List (ℕ × Seg)} {n : ℕ} {s : Seg}

/-- The ends of the segments before one of them. -/
theorem ends_le (ht : Tiles 0 ((xs ++ (n,s) :: ys).map Prod.snd) N) (hN : N < 2^63) :
    (∀ e ∈ xs, e.2.end ≤ s.mapStart) ∧ s.end = s.mapStart+s.mapSize := by
  rw [List.map_append,List.map_cons] at ht
  have ho := ht.order
  have hend : ∀ u ∈ xs.map Prod.snd ++ s :: ys.map Prod.snd, u.end = u.mapStart+u.mapSize := by
    intro u hu
    have := ht.mem hu
    exact offT_of_lt (by omega) (by omega)
  refine ⟨fun e he => ?_,hend s (by simp)⟩
  have hm := List.mem_map_of_mem (f := Prod.snd) he
  rw [hend e.2 (List.mem_append_left _ hm)]
  exact ho.1 e.2 hm

/-- Nothing is there if the segment that was asked for does not exist. -/
theorem AllocSound.first (hsound : AllocSound start size alignment g (xs.map Prod.snd ++ s :: ys.map Prod.snd))
    (hx : ∀ u ∈ xs.map Prod.snd, 2 ≤ u.mapStart → ¬ CanHold start size alignment u) :
    ∀ u ∈ xs.map Prod.snd, ¬ CanHold start size alignment u := by
  intro u hu
  by_cases h₂ : 2 ≤ u.mapStart
  · exact hx u hu h₂
  · exact hsound.low u (List.mem_append_left _ hu) (by omega)

theorem mapAlloc_hold (h : IsMap g (xs ++ (n,s) :: ys)) (ht : Tiles 0 ((xs ++ (n,s) :: ys).map Prod.snd) N)
    (hr : Request start size alignment N) (h₂ : 2 ≤ s.mapStart) (hc : CanHold start size alignment s)
    (hx : ∀ u ∈ xs.map Prod.snd, 2 ≤ u.mapStart → ¬ CanHold start size alignment u)
    (hb : ∀ u ∈ (xs ++ (n,s) :: ys).map Prod.snd, ¬ AsksBehind start size alignment u) :
    AllocMeets start size alignment g N ((xs ++ (n,s) :: ys).map Prod.snd)
      (mapAdd g (slotStart start alignment s) (slotLen start size alignment s) .gptPart .null false) ↔
      AllocSound start size alignment g ((xs ++ (n,s) :: ys).map Prod.snd) := by
  have ha := hr.alignment_nonneg
  have hN : N < 2^63 := by have := hr.endSum; omega
  obtain ⟨hends,hend⟩ := ends_le ht hN
  have hgap := allocSound_gap hb ht
  have hlist : (xs ++ (n,s) :: ys).map Prod.snd = xs.map Prod.snd ++ s :: ys.map Prod.snd := by simp
  have hmem : s ∈ (xs ++ (n,s) :: ys).map Prod.snd := by simp
  have hin := ht.mem hmem
  obtain ⟨hu,hle,hone,hfit⟩ := (canHold_iff ha).mp hc
  generalize hsa : slotStart start alignment s = a at hle hfit
  generalize hsz : slotLen start size alignment s = z at hone hfit
  have hoff : FitsOff a z := ⟨by omega,hone,by omega⟩
  have hadd := h.mapAdd_free (a := a) (z := z) (fun e he => (hends e he).trans hle) (by omega) hend
    (offT_of_lt (by omega) (by omega)) hfit hu .null false
  obtain ⟨l',h',hcarve⟩ := mapAdd_carve h a z .gptPart .null false
  have ht' := hcarve.tiles ht hN hoff
  by_cases hdel : Delivers g s a z
  · obtain ⟨m,hm⟩ := hadd.mpr hdel
    rw [hm] at hcarve
    obtain ⟨e,he,hem,hes,hez,hety,-⟩ := hcarve.extent
    have hseg : ((mapAdd g a z .gptPart .null false).2.cell m).toSeg = e.2 := hem ▸ h'.segs e he
    have hcs := (congrArg Seg.mapStart hseg).trans hes
    have hcz := (congrArg Seg.mapSize hseg).trans hez
    have hct := (congrArg Seg.mapType hseg).trans hety
    have htypes : ∀ x, ¬((mapAdd g a z .gptPart .null false).2.cell m).Holds x →
        typeAt (mapList (mapAdd g a z .gptPart .null false).2) x =
          typeAt ((xs ++ (n,s) :: ys).map Prod.snd) x := by
      intro x hxx
      rw [h'.mapList_eq]
      refine (hcarve.typeAt ht hN hoff ?_).2 ?_
      · rw [Seg.Holds,hcs,hcz] at hxx
        exact hxx
      · rintro ⟨-,u,hum,hut,-,hua⟩
        obtain rfl := ht.eq_of_holds hum hmem hua ⟨hle,by omega⟩
        rw [hu] at hut
        cases hut
    unfold AllocMeets
    rw [hm]
    dsimp only
    constructor
    · rintro ⟨xs',s',ys',hl,hc',hx',hlo,hhi,-⟩
      -- the extent is in one segment, so no earlier one could hold it
      have hs' : s' ∈ (xs ++ (n,s) :: ys).map Prod.snd := by rw [hl]; simp
      rw [hcs] at hlo hhi
      rw [hcz] at hhi
      obtain rfl := ht.eq_of_holds hs' hmem (x := a) ⟨hlo,by omega⟩ ⟨hle,by omega⟩
      refine ⟨fun u hu hu₂ huc => ?_,hgap,fun xs₂ s₂ ys₂ hl₂ hc₂ hx₂ => ?_⟩
      · rw [hl] at hu
        have hord := (hl ▸ ht : Tiles 0 (xs' ++ s' :: ys') N).order
        obtain hu | hu := List.mem_append.mp hu
        · exact hx' u hu huc
        · obtain rfl | hu := List.mem_cons.mp hu
          · omega
          · have := hord.2 u hu
            omega
      · obtain rfl := (hl ▸ ht : Tiles 0 (xs' ++ s' :: ys') N).first (hl.symm.trans hl₂) hx' hx₂ hc' hc₂
        rw [hsa,hsz]
        exact hdel
    · intro hsound
      rw [hlist] at hsound
      exact ⟨_,s,_,hlist,hc,hsound.first hx,by omega,by omega,h'.wellFormed ht',
        by rw [h'.mapList_eq,hseg]; exact List.mem_map_of_mem he,hct,hcs.trans hsa.symm,hcz.trans hsz.symm,by omega,htypes⟩
  · have herr : ∀ m, (mapAdd g a z .gptPart .null false).1 ≠ .ok m := fun m hm => hdel (hadd.mp ⟨m,hm⟩)
    refine iff_of_false (fun hmeets => ?_) fun hsound => ?_
    · unfold AllocMeets at hmeets
      split at hmeets
      · rename_i m hm
        exact herr m hm
      · exact hmeets.1 s hmem hc
    · rw [hlist] at hsound
      have := hsound.memory _ s _ rfl hc (hsound.first hx)
      rw [hsa,hsz] at this
      exact hdel this

/-- Where no free segment holds the sector asked for, refusing the request is right. -/
theorem alloc_refused {ls : List Seg} {e : MapError} (ht : Tiles 0 ls N) (hs : start ≠ 0)
    (hn : ∀ v ∈ ls, v.Holds start → v.mapType ≠ .unused)
    (hgap : ∀ v ∈ ls, v.mapStart = start → v.mapType ≠ .unused ∧ v.mapType ≠ .mbrPart) :
    AllocMeets start 0 0 g N ls (.error e,g) ∧ AllocSound start 0 0 g ls := by
  have hno : ∀ u ∈ ls, ¬ CanHold start 0 0 u := by
    intro u hu hc
    have hslot := hc.slot le_rfl hs
    rw [roundUp,if_pos rfl] at hslot
    exact hn u hu hslot hc.1
  refine ⟨⟨hno,rfl,rfl⟩,fun u hu _ => hno u hu,?_,fun xs s ys hl hc _ => absurd hc (hno s (by simp [hl]))⟩
  rintro - - xs s n ys rfl - - hend
  refine hgap n (by simp) ?_
  obtain ⟨c,-,rfl,-,hstart,-⟩ := (tiles_append _ _ _ _).mp ht
  omega

/-- A request for what lies right behind a free segment comes out right if that is in use. -/
theorem mapAlloc_behind (h : IsMap g (xs ++ (n,s) :: ys)) (ht : Tiles 0 ((xs ++ (n,s) :: ys).map Prod.snd) N)
    (hN : N < 2^63) (hb : AsksBehind start size alignment s) :
    AllocMeets start size alignment g N ((xs ++ (n,s) :: ys).map Prod.snd)
      (mapAdd g start 0 .gptPart .null false) ↔
      AllocSound start size alignment g ((xs ++ (n,s) :: ys).map Prod.snd) := by
  obtain ⟨hu,h₂,rfl,rfl,h0,hbe⟩ := hb
  cases ys with
  | nil =>
    have hlist : (xs ++ [(n,s)]).map Prod.snd = xs.map Prod.snd ++ [s] := by simp
    have hNs : s.mapStart+s.mapSize = N := by
      rw [hlist] at ht
      obtain ⟨c,-,rfl,-,hlast⟩ := (tiles_append _ _ _ _).mp ht
      exact hlast
    have hall : ∀ v ∈ (xs ++ [(n,s)]).map Prod.snd, v.end ≤ start := by
      intro v hv
      have := ht.mem hv
      rw [Seg.end,offT_of_lt (by omega) (by omega)]
      omega
    have hrun : mapAdd g start 0 .gptPart .null false = (.error .cantFind,g) := by
      unfold mapAdd
      have hwalk : mapWalk g.cell (fun c => decide (c.toSeg.end ≤ start)) (g.brk+1) g.mediamap = none := by
        rw [h.walk_eq,List.find?_eq_none]
        intro m hm
        obtain ⟨e,he,rfl⟩ := List.mem_map.mp hm
        rw [h.segs e he]
        simpa using hall e.2 (List.mem_map_of_mem he)
      rw [hwalk]
    rw [hrun]
    have hno : ∀ v ∈ (xs ++ [(n,s)]).map Prod.snd, v.mapStart+v.mapSize ≤ start ∧ v.mapStart < start := by
      intro v hv
      have := ht.mem hv
      omega
    obtain ⟨hmeets,hsound⟩ := alloc_refused (g := g) (e := .cantFind) ht h0
      (fun v hv hh => absurd hh.2 (by have := (hno v hv).1; omega)) fun v hv hst => by have := (hno v hv).2; omega
    exact iff_of_true hmeets hsound
  | cons e ys =>
    obtain ⟨k,u⟩ := e
    rw [show xs ++ (n,s) :: (k,u) :: ys = (xs ++ [(n,s)]) ++ (k,u) :: ys by simp] at h ht ⊢
    obtain ⟨hends,hend⟩ := ends_le ht hN
    have hmem : u ∈ ((xs ++ [(n,s)]) ++ (k,u) :: ys).map Prod.snd := by simp
    have hin := ht.mem hmem
    have hlist : ((xs ++ [(n,s)]) ++ (k,u) :: ys).map Prod.snd = xs.map Prod.snd ++ s :: u :: ys.map Prod.snd := by simp
    have hst : u.mapStart = start := by
      rw [hlist] at ht
      obtain ⟨c,-,rfl,-,hstart,-⟩ := (tiles_append _ _ _ _).mp ht
      omega
    have hone : ∀ v ∈ ((xs ++ [(n,s)]) ++ (k,u) :: ys).map Prod.snd, v.Holds start → v = u :=
      fun v hv hh => ht.eq_of_holds hv hmem hh ⟨by omega,by omega⟩
    by_cases htype : u.mapType = .unused ∨ u.mapType = .mbrPart
    · refine iff_of_false (fun hmeets => ?_) fun hsound => ?_
      · subst hst
        obtain ⟨m,hm,hsize⟩ | ⟨er,her,htyped⟩ := h.mapAdd_empty hends (by omega) (by omega) ⟨by omega,by omega⟩ htype .null false
        · unfold AllocMeets at hmeets
          rw [hm] at hmeets
          obtain ⟨-,-,-,-,-,-,-,-,-,-,-,-,-,hpos,-⟩ := hmeets
          omega
        · unfold AllocMeets at hmeets
          rw [her] at hmeets
          obtain ⟨hno,hcell,-⟩ := hmeets
          have hsame : (g.cell k).mapType = u.mapType := congrArg Seg.mapType (h.segs (k,u) (by simp))
          rw [hcell,hsame] at htyped
          refine hno u hmem ⟨htyped,u.mapStart,u.mapSize,⟨?_,.inl rfl,hin.2.1⟩,le_rfl,le_rfl⟩
          rw [if_neg h0]
          exact (if_pos rfl).symm
      · have := hsound.gap rfl rfl _ s u _ hlist hu h₂ hbe
        tauto
    · rw [not_or] at htype
      have hoff : offT (start+0) = start := by
        rw [Int.add_zero]
        exact offT_of_lt (by omega) (by omega)
      have hrun := h.mapAdd_at (a := start) (z := 0) (fun e he => (hends e he).trans hst.le) (by omega)
        (by rw [hoff]; omega) .gptPart .null false
      rw [if_neg fun he => by have := he.2; omega,if_pos ⟨htype.1,.inl htype.2⟩] at hrun
      rw [hrun]
      have hout : ∀ v ∈ ((xs ++ [(n,s)]) ++ (k,u) :: ys).map Prod.snd, v.mapStart = start → v = u := by
        intro v hv hvs
        have := ht.mem hv
        exact hone v hv ⟨by omega,by omega⟩
      obtain ⟨hmeets,hsound⟩ := alloc_refused (g := g) (e := .bogusType u.mapType .gptPart) ht h0
        (fun v hv hh => hone v hv hh ▸ htype.1) fun v hv hvs => hout v hv hvs ▸ htype
      exact iff_of_true hmeets hsound

/-- `map_alloc` is first fit in these cases and in no others. -/
theorem mapAlloc_meets_iff (h : IsMap g l) (ht : Tiles 0 (l.map Prod.snd) N)
    (hr : Request start size alignment N) :
    AllocMeets start size alignment g N (l.map Prod.snd) (mapAlloc g start size alignment) ↔
      AllocSound start size alignment g (l.map Prod.snd) := by
  have ha := hr.alignment_nonneg
  have hN : N < 2^63 := by have := hr.endSum; omega
  rw [h.mapAlloc_eq,alignUp_eq hr.start_nonneg ha hr.startSum,alignUp_eq hr.size_nonneg ha hr.sizeSum]
  have hscan := allocExtent_scan hr ht le_rfl
  generalize allocExtent (roundUp start alignment) (roundUp size alignment) alignment (l.map Prod.snd) = r at hscan
  cases hscan with
  | none hl hb =>
    dsimp only [AllocMeets]
    constructor
    · rintro ⟨hno,-⟩
      exact ⟨fun u hu _ => hno u hu,allocSound_gap hb ht,fun xs s ys hls hc _ => absurd hc (hno s (by simp [hls]))⟩
    · intro hsound
      refine ⟨fun u hu => ?_,rfl,rfl⟩
      by_cases h₂ : 2 ≤ u.mapStart
      · exact hl u hu h₂
      · exact hsound.low u hu (by omega)
  | @hold xs s ys hl h₂ hc hx hb =>
    obtain ⟨xs,zs,rfl,rfl,hzs⟩ := List.map_eq_append_iff.mp hl
    obtain ⟨⟨n,s⟩,ys,rfl,rfl,rfl⟩ := List.map_eq_cons_iff.mp hzs
    exact mapAlloc_hold h ht hr h₂ hc hx hb
  | @behind xs s ys hl hb =>
    obtain ⟨xs,zs,rfl,rfl,hzs⟩ := List.map_eq_append_iff.mp hl
    obtain ⟨⟨n,s⟩,ys,rfl,rfl,rfl⟩ := List.map_eq_cons_iff.mp hzs
    exact mapAlloc_behind h ht hN hb

theorem mapAlloc_ten : AllocMeets 0 10 0 thirtyUsed 100 [⟨0,30,.gptPart,1,.null,false⟩,⟨30,70,.unused,0,.null,false⟩]
    (mapAlloc thirtyUsed 0 10 0) := by
  refine (mapAlloc_meets_iff thirtyUsed_isMap ⟨rfl,by decide,rfl,by decide,rfl⟩
    ⟨le_rfl,by norm_num,le_rfl,by norm_num,by norm_num,by norm_num⟩).mpr ⟨?_,?_,?_⟩
  · rintro u hu hlt ⟨hty,-⟩
    obtain rfl | rfl : u = ⟨0,30,.gptPart,1,.null,false⟩ ∨ u = ⟨30,70,.unused,0,.null,false⟩ := by simpa using hu
    · cases hty
    · exact absurd hlt (by decide)
  · intro h
    cases h
  · intro xs s ys hl hc _
    have hs : s ∈ [(⟨0,30,.gptPart,1,.null,false⟩ : Seg),⟨30,70,.unused,0,.null,false⟩] := by
      rw [show [(⟨0,30,.gptPart,1,.null,false⟩ : Seg),⟨30,70,.unused,0,.null,false⟩] = xs ++ s :: ys from hl]
      simp
    obtain rfl | rfl : s = ⟨0,30,.gptPart,1,.null,false⟩ ∨ s = ⟨30,70,.unused,0,.null,false⟩ := by simpa using hs
    · cases hc.1
    · exact .inr ⟨rfl,.inl (by decide)⟩

/-- Two unused segments in a row, as they are left when partitions of an MBR make way. -/
def twoUnused : Media where
  cell k :=
    if k = 0 then ⟨⟨0,2,.mbr,0,.null,false⟩,some 1,none⟩
    else if k = 1 then ⟨⟨2,8,.unused,0,.null,false⟩,some 2,some 0⟩
    else ⟨⟨10,90,.unused,0,.null,false⟩,none,some 1⟩
  brk := 3
  calloc _ := true
  mediamap := some 0

theorem twoUnused_isMap : IsMap twoUnused
    [(0,⟨0,2,.mbr,0,.null,false⟩),(1,⟨2,8,.unused,0,.null,false⟩),(2,⟨10,90,.unused,0,.null,false⟩)] :=
  ⟨rfl,by simp [twoUnused],by simp,by simp [twoUnused],by simp [twoUnused]⟩

/-- Asked for everything from sector 10 on, which is free to the end of the device, `map_alloc` makes a partition
without sectors. -/
theorem mapAlloc_empty : WellFormed twoUnused 100 ∧ (mapAlloc twoUnused 10 0 0).1 = .ok 3 ∧
    ((mapAlloc twoUnused 10 0 0).2.cell 3).mapSize = 0 ∧
    ¬ AllocMeets 10 0 0 twoUnused 100 (mapList twoUnused) (mapAlloc twoUnused 10 0 0) := by
  have hsize : ((mapAlloc twoUnused 10 0 0).2.cell 3).mapSize = 0 := by decide
  refine ⟨twoUnused_isMap.wellFormed ⟨rfl,by decide,rfl,by decide,rfl,by decide,rfl⟩,by decide,hsize,?_⟩
  intro hmeets
  unfold AllocMeets at hmeets
  rw [show (mapAlloc twoUnused 10 0 0).1 = .ok 3 by decide] at hmeets
  obtain ⟨-,-,-,-,-,-,-,-,-,-,-,-,-,hpos,-⟩ := hmeets
  rw [hsize] at hpos
  exact absurd hpos (by decide)

end Promise

end Blub.Fgdisk
