import Mathlib.Tactic

/-! Items that are placed one behind the other, each at a multiple of its alignment, with addresses below `top` and roundings
below `big`. An item may be placed again, and is then where it was placed last. -/
namespace Blub.Placing

structure Item where
  index : ℕ
  align : ℕ
  size : ℕ

/-- The end of what is placed, and where each item is. -/
structure State where
  next : ℕ
  addr : ℕ → ℕ

/-- Rounded up, for `y` not 0. -/
def up (x y : ℕ) : ℕ := (x+(y-1))/y*y

section Run
variable (big top : ℕ)

/-- Where an item is placed, by arithmetic modulo `big` and `top`. -/
def spot (x y : ℕ) : ℕ := (x+(y-1))%big/y*y%top

/-- An alignment of 0 is divided by. -/
def place (p : Item) (s : State) : Option State :=
  if p.align = 0 then none
  else some ⟨(spot big top s.next p.align+p.size)%top,Function.update s.addr p.index (spot big top s.next p.align)⟩

def placeAll : List Item → State → Option State
  | [], s => some s
  | p :: l, s =>
    match place big top p s with
    | none => none
    | some s => placeAll l s

attribute [local grind =] placeAll

end Run

/-- The end of what is placed in an unbounded space. -/
def ideal : ℕ → List Item → ℕ
  | x, [] => x
  | x, p :: l => ideal (up x p.align+p.size) l

/-- The item is rounded without overflow and placed below the top. -/
def FitsAt (big top x : ℕ) (p : Item) : Prop := x+(p.align-1) < big ∧ up x p.align+p.size < top

def Fits (big top : ℕ) : ℕ → List Item → Prop
  | _, [] => True
  | x, p :: l => FitsAt big top x p ∧ Fits big top (up x p.align+p.size) l

/-- The first placement that runs over the top is given up again. -/
def Dead (big top first : ℕ) (l : List Item) : Prop :=
  ∃ ps p qs, l = ps ++ p :: qs ∧ (∃ q ∈ qs, q.index = p.index) ∧ Fits big top first ps ∧ ¬FitsAt big top (ideal first ps) p

/-- An item of the list, and the items before and after its last placement. -/
def Last (l ps : List Item) (p : Item) (qs : List Item) : Prop := l = ps ++ p :: qs ∧ ∀ q ∈ qs, q.index ≠ p.index

attribute [local grind =] ideal Fits

section Last

theorem exists_last {l : List Item} {i : ℕ} (h : ∃ p ∈ l, p.index = i) : ∃ ps p qs, Last l ps p qs ∧ p.index = i := by
  induction l with
  | nil =>
    obtain ⟨p,hp,-⟩ := h
    cases hp
  | cons a l ih =>
    by_cases hl : ∃ p ∈ l, p.index = i
    · obtain ⟨ps,p,qs,⟨rfl,hlast⟩,hp⟩ := ih hl
      exact ⟨a :: ps,p,qs,⟨rfl,hlast⟩,hp⟩
    · obtain ⟨p,hp,hi⟩ := h
      obtain rfl | hp := List.mem_cons.mp hp
      · exact ⟨[],p,l,⟨rfl,fun q hq heq => hl ⟨q,hq,heq.trans hi⟩⟩,hi⟩
      · exact absurd ⟨p,hp,hi⟩ hl

/-- Of two last placements one is before the other, or they are one. -/
theorem Last.eq_of_le {l ps ps' qs qs' : List Item} {p p' : Item} (h : Last l ps p qs) (h' : Last l ps' p' qs')
    (heq : p.index = p'.index) (hle : ps.length ≤ ps'.length) : p = p' := by
  obtain ⟨rfl,hlast⟩ := h
  obtain ⟨hsplit,-⟩ := h'
  obtain ⟨c,rfl,hc⟩ | ⟨c,rfl,hc⟩ := List.append_eq_append_iff.mp hsplit
  · cases c with
    | nil => exact List.head_eq_of_cons_eq hc
    | cons a c =>
      obtain ⟨rfl,rfl⟩ := List.cons.inj hc
      exact absurd heq.symm (hlast p' (List.mem_append_right _ List.mem_cons_self))
  · rw [List.length_append] at hle
    obtain rfl := List.length_eq_zero_iff.mp (show c.length = 0 by omega)
    exact (List.head_eq_of_cons_eq hc).symm

theorem Last.unique {l ps ps' qs qs' : List Item} {p p' : Item} (h : Last l ps p qs) (h' : Last l ps' p' qs')
    (heq : p.index = p'.index) : p = p' := by
  obtain hle | hle := le_total ps.length ps'.length
  · exact h.eq_of_le h' heq hle
  · exact (h'.eq_of_le h heq.symm hle).symm

end Last

section Up
variable {x y : ℕ}

theorem le_up (hy : y ≠ 0) : x ≤ up x y := by
  have hdm := Nat.div_add_mod (x+(y-1)) y
  have hlt := Nat.mod_lt (x+(y-1)) (Nat.pos_of_ne_zero hy)
  rw [up,Nat.mul_comm]
  omega

theorem dvd_up : y ∣ up x y := Nat.dvd_mul_left _ _

theorem spot_eq {big top : ℕ} (hround : x+(y-1) < big) (hup : up x y < top) : spot big top x y = up x y := by
  rw [spot,Nat.mod_eq_of_lt hround]
  exact Nat.mod_eq_of_lt hup

/-- A rounding that runs over the top gives 0 or what is not aligned. -/
theorem spot_zero {big top : ℕ} (hx : x < top) (htop : top ≤ big) (hdvd : y ∣ spot big top x y)
    (h : x+(y-1) < big → top ≤ up x y) : spot big top x y = 0 := by
  by_cases hround : x+(y-1) < big
  · have hspot : spot big top x y = up x y%top := by rw [spot,Nat.mod_eq_of_lt hround,up]
    rw [hspot] at hdvd ⊢
    refine Nat.eq_zero_of_dvd_of_lt hdvd ?_
    obtain hbig | hsmall := le_or_gt top y
    · exact (Nat.mod_lt _ (by omega)).trans_le hbig
    · -- less than one alignment over the top
      have hle : up x y ≤ x+(y-1) := Nat.div_mul_le_self _ _
      rw [Nat.mod_eq_sub_mod (h hround),Nat.mod_eq_of_lt (by omega)]
      omega
  · have hlt : (x+(y-1))%big < y := by
      obtain hle | hgt := le_or_gt y big
      · rw [Nat.mod_eq_sub_mod (by omega),Nat.mod_eq_of_lt (by omega)]
        omega
      · exact (Nat.mod_lt _ (by omega)).trans hgt
    rw [spot,Nat.div_eq_of_lt hlt,Nat.zero_mul,Nat.zero_mod]

end Up

section Ideal

theorem ideal_append (x : ℕ) (ps qs : List Item) : ideal x (ps ++ qs) = ideal (ideal x ps) qs := by
  induction ps generalizing x with
  | nil => rfl
  | cons p ps ih => exact ih _

theorem fits_append {big top x : ℕ} {ps qs : List Item} :
    Fits big top x (ps ++ qs) ↔ Fits big top x ps ∧ Fits big top (ideal x ps) qs := by
  induction ps generalizing x with
  | nil => simp [Fits,ideal]
  | cons p ps ih => simp only [List.cons_append,Fits,ideal,ih,and_assoc]

theorem le_ideal {l : List Item} (hl : ∀ p ∈ l, p.align ≠ 0) (x : ℕ) : x ≤ ideal x l := by
  induction l generalizing x with
  | nil => exact le_rfl
  | cons p l ih =>
    have hup := le_up (x := x) (hl p List.mem_cons_self)
    have hrest := ih (fun q hq => hl q (List.mem_cons_of_mem _ hq)) (up x p.align+p.size)
    rw [ideal]
    omega

end Ideal

section Runs
variable {big top : ℕ}

theorem placeAll_none_iff {l : List Item} {s : State} : placeAll big top l s = none ↔ ∃ p ∈ l, p.align = 0 := by
  induction l generalizing s with
  | nil => simp [placeAll]
  | cons p l ih =>
    rw [placeAll,place]
    by_cases hp : p.align = 0
    · simp [hp]
    · simp [hp,ih]

theorem placeAll_append (ps qs : List Item) (s : State) :
    placeAll big top (ps ++ qs) s = (placeAll big top ps s).bind (placeAll big top qs) := by
  induction ps generalizing s with
  | nil => rfl
  | cons p ps ih =>
    rw [List.cons_append,placeAll,placeAll]
    cases place big top p s with
    | none => rfl
    | some s => exact ih s

/-- An item that is not placed again stays where it is. -/
theorem placeAll_other {l : List Item} {s s' : State} (h : placeAll big top l s = some s') {i : ℕ}
    (hi : ∀ p ∈ l, p.index ≠ i) : s'.addr i = s.addr i := by
  induction l generalizing s with
  | nil =>
    obtain rfl := Option.some.inj h
    rfl
  | cons p l ih =>
    rw [placeAll,place] at h
    by_cases hp : p.align = 0
    · rw [if_pos hp] at h
      cases h
    · rw [if_neg hp] at h
      rw [ih h fun q hq => hi q (List.mem_cons_of_mem _ hq)]
      exact Function.update_of_ne (hi p List.mem_cons_self).symm _ _

theorem placeAll_next_lt {l : List Item} {s s' : State} (h : placeAll big top l s = some s') (hs : s.next < top) :
    s'.next < top := by
  induction l generalizing s with
  | nil =>
    obtain rfl := Option.some.inj h
    exact hs
  | cons p l ih =>
    rw [placeAll,place] at h
    by_cases hp : p.align = 0
    · rw [if_pos hp] at h
      cases h
    · rw [if_neg hp] at h
      exact ih h (Nat.mod_lt _ (by omega))

/-- While nothing runs over the top, the end is as in an unbounded space. -/
theorem placeAll_next {l : List Item} {s s' : State} (h : placeAll big top l s = some s') (hfit : Fits big top s.next l) :
    s'.next = ideal s.next l := by
  induction l generalizing s with
  | nil =>
    obtain rfl := Option.some.inj h
    rfl
  | cons p l ih =>
    obtain ⟨⟨hround,hsize⟩,hrest⟩ := hfit
    rw [placeAll,place] at h
    by_cases hp : p.align = 0
    · rw [if_pos hp] at h
      cases h
    · rw [if_neg hp,spot_eq hround (by omega),Nat.mod_eq_of_lt hsize] at h
      exact ih h hrest

/-- The state in which an item is placed, and where it is then. -/
theorem placeAll_split {ps qs : List Item} {p : Item} {s s' : State} (h : placeAll big top (ps ++ p :: qs) s = some s') :
    ∃ t, placeAll big top ps s = some t ∧ p.align ≠ 0 ∧
      ((∀ q ∈ qs, q.index ≠ p.index) → s'.addr p.index = spot big top t.next p.align) := by
  rw [placeAll_append] at h
  obtain ⟨t,ht,hrest⟩ := Option.bind_eq_some_iff.mp h
  rw [placeAll,place] at hrest
  by_cases hp : p.align = 0
  · rw [if_pos hp] at hrest
    cases hrest
  · rw [if_neg hp] at hrest
    refine ⟨t,ht,hp,fun hlast => ?_⟩
    rw [placeAll_other hrest hlast]
    exact Function.update_self _ _ _

theorem align_ne_zero {l : List Item} {s s' : State} (h : placeAll big top l s = some s') : ∀ p ∈ l, p.align ≠ 0 := by
  intro p hp hzero
  rw [placeAll_none_iff.mpr ⟨p,hp,hzero⟩] at h
  cases h

/-- Where an item is placed last, in an address space that is large enough. -/
theorem addr_eq {l ps qs : List Item} {p : Item} {s s' : State} (h : placeAll big top l s = some s')
    (hfit : Fits big top s.next l) (hlast : Last l ps p qs) : s'.addr p.index = up (ideal s.next ps) p.align := by
  obtain ⟨rfl,hlast⟩ := hlast
  obtain ⟨hps,⟨hround,hsize⟩,-⟩ := fits_append.mp hfit
  obtain ⟨t,ht,-,haddr⟩ := placeAll_split h
  rw [haddr hlast,placeAll_next ht hps,spot_eq hround (by omega)]

theorem inside_of_fits {l ps qs : List Item} {p : Item} {s s' : State} (h : placeAll big top l s = some s')
    (hfit : Fits big top s.next l) (hlast : Last l ps p qs) :
    s.next ≤ s'.addr p.index ∧ s'.addr p.index+p.size ≤ s'.next ∧ p.align ∣ s'.addr p.index := by
  have halign := align_ne_zero h
  rw [addr_eq h hfit hlast,placeAll_next h hfit]
  obtain ⟨rfl,-⟩ := hlast
  have hp := halign p (List.mem_append_right _ List.mem_cons_self)
  refine ⟨?_,?_,dvd_up⟩
  · exact (le_ideal (fun q hq => halign q (List.mem_append_left _ hq)) _).trans (le_up hp)
  · rw [ideal_append,ideal]
    exact le_ideal (fun q hq => halign q (List.mem_append_right _ (List.mem_cons_of_mem _ hq))) _

theorem ordered_of_fits {l ps qs ps' qs' : List Item} {p q : Item} {s s' : State} (h : placeAll big top l s = some s')
    (hfit : Fits big top s.next l) (hp : Last l ps p qs) (hq : Last l ps' q qs') (hlen : ps.length < ps'.length) :
    s'.addr p.index+p.size ≤ s'.addr q.index := by
  have halign := align_ne_zero h
  rw [addr_eq h hfit hp,addr_eq h hfit hq]
  obtain ⟨rfl,-⟩ := hp
  obtain ⟨hsplit,-⟩ := hq
  -- the items up to `p` are a beginning of those before `q`
  obtain ⟨mid,rfl⟩ : ∃ mid, ps' = ps ++ p :: mid := by
    obtain ⟨c,rfl,hc⟩ | ⟨c,rfl,hc⟩ := List.append_eq_append_iff.mp hsplit
    · cases c with
      | nil => simp at hlen
      | cons a c =>
        obtain ⟨rfl,-⟩ := List.cons.inj hc
        exact ⟨c,rfl⟩
    · simp at hlen
  have hq : q.align ≠ 0 := halign q (hsplit ▸ List.mem_append_right _ List.mem_cons_self)
  have hmid : ∀ r ∈ mid, r.align ≠ 0 := fun r hr =>
    halign r (hsplit ▸ List.mem_append_left _ (List.mem_append_right _ (List.mem_cons_of_mem _ hr)))
  rw [ideal_append,ideal]
  exact (le_ideal hmid _).trans (le_up hq)

/-- Of two items one ends before the other starts. -/
theorem apart_of_fits {l ps qs ps' qs' : List Item} {p q : Item} {s s' : State} (h : placeAll big top l s = some s')
    (hfit : Fits big top s.next l) (hp : Last l ps p qs) (hq : Last l ps' q qs') (hne : p.index ≠ q.index) :
    s'.addr p.index+p.size ≤ s'.addr q.index ∨ s'.addr q.index+q.size ≤ s'.addr p.index := by
  obtain hlt | heq | hgt := lt_trichotomy ps.length ps'.length
  · exact .inl (ordered_of_fits h hfit hp hq hlt)
  · obtain ⟨hsplit,-⟩ := hp
    obtain ⟨hsplit',-⟩ := hq
    obtain ⟨-,hcons⟩ := List.append_inj (hsplit.symm.trans hsplit') heq
    exact absurd (congrArg Item.index (List.head_eq_of_cons_eq hcons)) hne
  · exact .inr (ordered_of_fits h hfit hq hp hgt)

theorem exists_not_fits {l : List Item} {x : ℕ} (h : ¬Fits big top x l) :
    ∃ ps p qs, l = ps ++ p :: qs ∧ Fits big top x ps ∧ ¬FitsAt big top (ideal x ps) p := by
  induction l generalizing x with
  | nil => exact absurd trivial h
  | cons p l ih =>
    by_cases hp : FitsAt big top x p
    · obtain ⟨ps,q,qs,rfl,hps,hq⟩ := ih fun hrest => h ⟨hp,hrest⟩
      exact ⟨p :: ps,q,qs,rfl,⟨hp,hps⟩,hq⟩
    · exact ⟨[],p,l,rfl,trivial,hp⟩

/-- Where every item ends up aligned and inside, nothing has run over the top, unless it was given up again. -/
theorem fits_of_inside {l : List Item} {s s' : State} (h : placeAll big top l s = some s') (htop : top ≤ big)
    (hs : s.next < top) (hpos : s.next ≠ 0) (hin : ∀ ps p qs, Last l ps p qs → p.align ∣ s'.addr p.index ∧
      s.next ≤ s'.addr p.index ∧ s'.addr p.index+p.size ≤ s'.next) (hdead : ¬Dead big top s.next l) :
    Fits big top s.next l := by
  by_contra hnot
  obtain ⟨ps,p,qs,rfl,hps,hp⟩ := exists_not_fits hnot
  have hlast : ∀ q ∈ qs, q.index ≠ p.index := fun q hq heq => hdead ⟨ps,p,qs,rfl,⟨q,hq,heq⟩,hps,hp⟩
  obtain ⟨t,ht,-,haddr⟩ := placeAll_split h
  have hend := placeAll_next_lt h hs
  obtain ⟨hdvd,hge,hle⟩ := hin ps p qs ⟨rfl,hlast⟩
  rw [haddr hlast] at hdvd hge hle
  rw [← placeAll_next ht hps] at hp
  by_cases hfit : t.next+(p.align-1) < big ∧ up t.next p.align < top
  · rw [spot_eq hfit.1 hfit.2] at hle
    exact hp ⟨hfit.1,by omega⟩
  · have hzero := spot_zero (placeAll_next_lt ht hs) htop hdvd fun hround => not_lt.mp fun hup => hfit ⟨hround,hup⟩
    omega

end Runs

end Blub.Placing
