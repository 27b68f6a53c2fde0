import Mathlib.Tactic

/-! Free lists as lists of address spans, ordered and never touching. Freeing is an insertion
that joins neighbours, allocating cuts the first span that is long enough. -/
namespace Blub.Spans

structure Span where
  base : ℕ
  len : ℕ
  deriving DecidableEq, Repr

def Span.last (s : Span) : ℕ := s.base+s.len

def Span.Has (s : Span) (x : ℕ) : Prop := s.base ≤ x ∧ x < s.last

def Span.Apart (s t : Span) : Prop := s.last ≤ t.base ∨ t.last ≤ s.base

instance (s : Span) (x : ℕ) : Decidable (s.Has x) := inferInstanceAs (Decidable (_ ∧ _))

instance (s t : Span) : Decidable (s.Apart t) := inferInstanceAs (Decidable (_ ∨ _))

/-- Every span ends strictly before the next one starts. -/
def Gapped (l : List Span) : Prop := l.Pairwise (fun s t => s.last < t.base)

def total (l : List Span) : ℕ := (l.map Span.len).sum

def Covers (l : List Span) (x : ℕ) : Prop := ∃ s ∈ l, s.Has x

/-- Put a span in front of a list, joined to the first span where the two touch. -/
def join (s : Span) : List Span → List Span
  | [] => [s]
  | t :: l => if s.last = t.base then ⟨s.base,s.len+t.len⟩ :: l else s :: t :: l

/-- Insertion at its place, joined on both sides. -/
def put (x : Span) : List Span → List Span
  | [] => [x]
  | s :: l => if x.base ≤ s.base then join x (s :: l) else join s (put x l)

/-- First fit: the start of the first span of at least `n`, and what is left. -/
def take (n : ℕ) : List Span → Option (ℕ × List Span)
  | [] => none
  | s :: l =>
    if s.len < n then (take n l).map (fun r => (r.1,s :: r.2))
    else if s.len = n then some (s.base,l) else some (s.base,⟨s.base+n,s.len-n⟩ :: l)

attribute [local grind =] put take

@[simp] theorem gapped_nil : Gapped [] := List.Pairwise.nil

@[simp] theorem gapped_cons (s : Span) (l : List Span) :
    Gapped (s :: l) ↔ (∀ t ∈ l, s.last < t.base) ∧ Gapped l := List.pairwise_cons

@[simp] theorem total_nil : total [] = 0 := rfl

@[simp] theorem total_cons (s : Span) (l : List Span) : total (s :: l) = s.len+total l := by
  simp [total]

@[simp] theorem covers_nil (x : ℕ) : ¬ Covers [] x := by
  simp [Covers]

@[simp] theorem covers_cons (s : Span) (l : List Span) (x : ℕ) :
    Covers (s :: l) x ↔ s.Has x ∨ Covers l x := by
  simp [Covers]

theorem join_cons (s t : Span) (l : List Span) : join s (t :: l) =
    if s.last = t.base then ⟨s.base,s.len+t.len⟩ :: l else s :: t :: l := rfl

theorem join_of_lt (s : Span) (l : List Span) (h : ∀ t ∈ l, s.last < t.base) :
    join s l = s :: l := by
  cases l with
  | nil => rfl
  | cons t l => exact if_neg (h t (by simp)).ne

theorem Span.apart_of_disjoint (s t : Span) (hs : 0 < s.len) (ht : 0 < t.len)
    (h : ∀ x, s.Has x → ¬ t.Has x) : s.Apart t := by
  have h₁ := h s.base
  have h₂ := h t.base
  simp only [Span.Has,Span.Apart,Span.last] at h₁ h₂ ⊢
  omega

section Join
variable {P : Span → Prop}

theorem join_forall (s : Span) (l : List Span)
    (hP : ∀ s t : Span, P s → P t → s.last = t.base → P ⟨s.base,s.len+t.len⟩)
    (hs : P s) (hl : ∀ t ∈ l, P t) : ∀ t ∈ join s l, P t := by
  cases l with
  | nil => simpa [join] using hs
  | cons t l =>
    simp only [List.forall_mem_cons] at hl
    rw [join_cons]
    split_ifs with h
    · simpa using ⟨hP s t hs hl.1 h,hl.2⟩
    · simpa using ⟨hs,hl⟩

theorem put_forall (x : Span) (l : List Span)
    (hP : ∀ s t : Span, P s → P t → s.last = t.base → P ⟨s.base,s.len+t.len⟩)
    (hx : P x) (hl : ∀ t ∈ l, P t) : ∀ t ∈ put x l, P t := by
  induction l with
  | nil => simpa [put] using hx
  | cons s l ih =>
    unfold put
    split_ifs
    · exact join_forall x (s :: l) hP hx hl
    · simp only [List.forall_mem_cons] at hl
      exact join_forall s (put x l) hP hl.1 (ih hl.2)

end Join

theorem total_join (s : Span) (l : List Span) : total (join s l) = s.len+total l := by
  cases l with
  | nil => simp [join]
  | cons t l =>
    rw [join_cons]
    split_ifs <;> simp [Nat.add_assoc]

theorem total_put (x : Span) (l : List Span) : total (put x l) = x.len+total l := by
  induction l with
  | nil => simp [put]
  | cons s l ih =>
    unfold put
    split_ifs
    · exact total_join x (s :: l)
    · rw [total_join,ih,total_cons]
      omega

theorem covers_join (s : Span) (l : List Span) (x : ℕ) :
    Covers (join s l) x ↔ s.Has x ∨ Covers l x := by
  cases l with
  | nil => simp [join]
  | cons t l =>
    rw [join_cons]
    split_ifs with h
    · have : Span.Has ⟨s.base,s.len+t.len⟩ x ↔ s.Has x ∨ t.Has x := by
        simp only [Span.Has,Span.last] at h ⊢
        omega
      simp [this,or_assoc]
    · simp

theorem covers_put (y : Span) (l : List Span) (x : ℕ) :
    Covers (put y l) x ↔ y.Has x ∨ Covers l x := by
  induction l with
  | nil => simp [put]
  | cons s l ih =>
    unfold put
    split_ifs
    · exact covers_join y (s :: l) x
    · rw [covers_join,ih,covers_cons]
      tauto

theorem gapped_join (s : Span) (l : List Span) (hl : Gapped l) (hs : ∀ t ∈ l, s.last ≤ t.base) :
    Gapped (join s l) := by
  cases l with
  | nil => simp [join]
  | cons t l =>
    rw [gapped_cons] at hl
    have ht := hs t (by simp)
    have hn : ∀ u ∈ l, s.last < u.base := by
      intro u hu
      have := hl.1 u hu
      simp only [Span.last] at this ht ⊢
      omega
    rw [join_cons]
    split_ifs with h
    · refine (gapped_cons _ _).mpr ⟨?_,hl.2⟩
      intro u hu
      have := hl.1 u hu
      simp only [Span.last] at this h ⊢
      omega
    · refine (gapped_cons _ _).mpr ⟨?_,(gapped_cons _ _).mpr hl⟩
      simpa using ⟨lt_of_le_of_ne ht h,hn⟩

theorem gapped_put (x : Span) (l : List Span) (hl : Gapped l) (hx : ∀ s ∈ l, x.Apart s)
    (hpos : ∀ s ∈ l, 0 < s.len) : Gapped (put x l) := by
  induction l with
  | nil => simp [put]
  | cons s l ih =>
    rw [List.forall_mem_cons] at hx hpos
    have hs := hx.1
    have hp := hpos.1
    rw [gapped_cons] at hl
    unfold put
    split_ifs with h
    · have hxs : x.last ≤ s.base := by
        simp only [Span.Apart,Span.last] at hs ⊢
        omega
      apply gapped_join x (s :: l) ((gapped_cons _ _).mpr hl)
      intro t ht
      cases ht with
      | head => exact hxs
      | tail _ ht =>
        have := hl.1 t ht
        simp only [Span.last] at this hxs ⊢
        omega
    · have hsx : s.last ≤ x.base := by
        simp only [Span.Apart,Span.last] at hs ⊢
        omega
      apply gapped_join s (put x l) (ih hl.2 hx.2 hpos.2)
      exact put_forall x l (fun _ _ h _ _ => h) hsx (fun t ht => (hl.1 t ht).le)

/-- Spans that never touch do not hold more than the range they lie in. -/
theorem total_le (l : List Span) (hl : Gapped l) (lo hi : ℕ) (h : lo ≤ hi)
    (hb : ∀ s ∈ l, lo ≤ s.base ∧ s.last ≤ hi) : lo+total l ≤ hi := by
  induction l generalizing lo with
  | nil => simpa using h
  | cons s l ih =>
    rw [gapped_cons] at hl
    rw [List.forall_mem_cons] at hb
    have hr := ih hl.2 s.last hb.1.2 (fun t ht => ⟨(hl.1 t ht).le,(hb.2 t ht).2⟩)
    simp only [Span.last,total_cons] at hb hr ⊢
    omega

theorem length_mul_le (l : List Span) (k : ℕ) (hl : ∀ s ∈ l, k ≤ s.len) : l.length*k ≤ total l := by
  induction l with
  | nil => simp
  | cons s l ih =>
    rw [List.forall_mem_cons] at hl
    have := ih hl.2
    rw [List.length_cons,total_cons,Nat.add_mul]
    omega

section Take
variable {n p : ℕ} {l l' : List Span}

theorem take_total (h : take n l = some (p,l')) : total l = n+total l' := by
  induction l generalizing l' with
  | nil => simp [take] at h
  | cons s l ih =>
    unfold take at h
    split_ifs at h with h₁ h₂
    · obtain ⟨⟨q,r⟩,hr,he⟩ := Option.map_eq_some_iff.mp h
      obtain ⟨rfl,rfl⟩ := Prod.mk.inj he
      have := ih hr
      simp only [total_cons]
      omega
    · obtain ⟨rfl,rfl⟩ := Prod.mk.inj (Option.some.inj h)
      simp [h₂]
    · obtain ⟨rfl,rfl⟩ := Prod.mk.inj (Option.some.inj h)
      simp only [total_cons]
      omega

theorem take_forall {P : Span → Prop} (h : take n l = some (p,l')) (hl : ∀ s ∈ l, P s)
    (hP : ∀ s, P s → n < s.len → P ⟨s.base+n,s.len-n⟩) : ∀ s ∈ l', P s := by
  induction l generalizing l' with
  | nil => simp [take] at h
  | cons s l ih =>
    rw [List.forall_mem_cons] at hl
    unfold take at h
    split_ifs at h with h₁ h₂
    · obtain ⟨⟨q,r⟩,hr,he⟩ := Option.map_eq_some_iff.mp h
      obtain ⟨rfl,rfl⟩ := Prod.mk.inj he
      simpa using ⟨hl.1,ih hr hl.2⟩
    · obtain ⟨rfl,rfl⟩ := Prod.mk.inj (Option.some.inj h)
      exact hl.2
    · obtain ⟨rfl,rfl⟩ := Prod.mk.inj (Option.some.inj h)
      simpa using ⟨hP s hl.1 (by omega),hl.2⟩

/-- The span that is handed out is the front of a free one. -/
theorem take_source (h : take n l = some (p,l')) : ∃ s ∈ l, s.base = p ∧ n ≤ s.len := by
  induction l generalizing l' with
  | nil => simp [take] at h
  | cons s l ih =>
    unfold take at h
    split_ifs at h with h₁ h₂
    · obtain ⟨⟨q,r⟩,hr,he⟩ := Option.map_eq_some_iff.mp h
      obtain ⟨rfl,rfl⟩ := Prod.mk.inj he
      obtain ⟨t,ht,hp⟩ := ih hr
      exact ⟨t,by simp [ht],hp⟩
    · obtain ⟨rfl,rfl⟩ := Prod.mk.inj (Option.some.inj h)
      exact ⟨s,by simp,rfl,by omega⟩
    · obtain ⟨rfl,rfl⟩ := Prod.mk.inj (Option.some.inj h)
      exact ⟨s,by simp,rfl,by omega⟩

theorem take_gapped (h : take n l = some (p,l')) (hl : Gapped l) : Gapped l' := by
  induction l generalizing l' with
  | nil => simp [take] at h
  | cons s l ih =>
    rw [gapped_cons] at hl
    unfold take at h
    split_ifs at h with h₁ h₂
    · obtain ⟨⟨q,r⟩,hr,he⟩ := Option.map_eq_some_iff.mp h
      obtain ⟨rfl,rfl⟩ := Prod.mk.inj he
      refine (gapped_cons _ _).mpr ⟨?_,ih hr hl.2⟩
      exact take_forall hr hl.1 (fun t ht _ => Nat.lt_add_right n ht)
    · obtain ⟨rfl,rfl⟩ := Prod.mk.inj (Option.some.inj h)
      exact hl.2
    · obtain ⟨rfl,rfl⟩ := Prod.mk.inj (Option.some.inj h)
      refine (gapped_cons _ _).mpr ⟨?_,hl.2⟩
      intro t ht
      have := hl.1 t ht
      simp only [Span.last] at this ⊢
      omega

/-- What is left after a cut is free before it and lies apart from the span handed out. -/
theorem take_covers (h : take n l = some (p,l')) (hl : Gapped l) (x : ℕ) (hx : Covers l' x) :
    Covers l x ∧ ¬ Span.Has ⟨p,n⟩ x := by
  induction l generalizing l' with
  | nil => simp [take] at h
  | cons s l ih =>
    rw [gapped_cons] at hl
    have hout : ∀ t ∈ l, t.Has x → ¬ Span.Has ⟨s.base,s.len⟩ x := by
      intro t ht htx
      have := hl.1 t ht
      simp only [Span.Has,Span.last] at htx this ⊢
      omega
    unfold take at h
    split_ifs at h with h₁ h₂
    · obtain ⟨⟨q,r⟩,hr,he⟩ := Option.map_eq_some_iff.mp h
      obtain ⟨rfl,rfl⟩ := Prod.mk.inj he
      obtain ⟨t,ht,rfl,hn⟩ := take_source hr
      rw [covers_cons] at hx ⊢
      cases hx with
      | inl hx =>
        refine ⟨Or.inl hx,?_⟩
        have := hl.1 t ht
        simp only [Span.Has,Span.last] at hx this ⊢
        omega
      | inr hx => exact ⟨Or.inr (ih hr hl.2 hx).1,(ih hr hl.2 hx).2⟩
    · obtain ⟨rfl,rfl⟩ := Prod.mk.inj (Option.some.inj h)
      obtain ⟨t,ht,htx⟩ := hx
      refine ⟨(covers_cons _ _ _).mpr (Or.inr ⟨t,ht,htx⟩),?_⟩
      simpa [← h₂] using hout t ht htx
    · obtain ⟨rfl,rfl⟩ := Prod.mk.inj (Option.some.inj h)
      rw [covers_cons] at hx ⊢
      cases hx with
      | inl hx =>
        simp only [Span.Has,Span.last] at hx ⊢
        omega
      | inr hx =>
        obtain ⟨t,ht,htx⟩ := hx
        refine ⟨Or.inr ⟨t,ht,htx⟩,?_⟩
        have := hout t ht htx
        simp only [Span.Has,Span.last] at this ⊢
        omega

theorem take_eq_none (h : take n l = none) : ∀ s ∈ l, s.len < n := by
  induction l with
  | nil => simp
  | cons s l ih =>
    unfold take at h
    split_ifs at h with h₁
    rw [Option.map_eq_none_iff] at h
    exact List.forall_mem_cons.mpr ⟨h₁,ih h⟩

end Take

/-- Joining makes spans longer only. -/
theorem exists_le_join (s : Span) (l : List Span) {n : ℕ} (h : n ≤ s.len ∨ ∃ t ∈ l, n ≤ t.len) :
    ∃ t ∈ join s l, n ≤ t.len := by
  cases l with
  | nil =>
    obtain h | ⟨t,ht,-⟩ := h
    · exact ⟨s,by simp [join],h⟩
    · cases ht
  | cons t l =>
    rw [join_cons]
    split_ifs
    · obtain h | ⟨u,hu,h⟩ := h
      · exact ⟨_,List.mem_cons_self,Nat.le_add_right_of_le h⟩
      · obtain rfl | hu := List.mem_cons.mp hu
        · exact ⟨_,List.mem_cons_self,Nat.le_add_left_of_le h⟩
        · exact ⟨u,List.mem_cons_of_mem _ hu,h⟩
    · obtain h | ⟨u,hu,h⟩ := h
      · exact ⟨s,List.mem_cons_self,h⟩
      · exact ⟨u,List.mem_cons_of_mem _ hu,h⟩

theorem exists_le_put (x : Span) (l : List Span) : ∃ t ∈ put x l, x.len ≤ t.len := by
  induction l with
  | nil => exact ⟨x,by simp [put],le_rfl⟩
  | cons s l ih =>
    unfold put
    split_ifs
    · exact exists_le_join x _ (Or.inl le_rfl)
    · exact exists_le_join s _ (Or.inr ih)

end Blub.Spans
