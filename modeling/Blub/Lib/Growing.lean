import Blub.Lib.Spans

/-! A region that grows at its end by steps of one size, and the free area at its end, until there is an area of
a given size, the region is at its limit, or a sum leaves the word. -/
namespace Blub.Spans

/-- The length of the span that ends at `top`, if the last one does. -/
def tail (l : List Span) (top : ℕ) : ℕ :=
  match l.getLast? with
  | none => 0
  | some t => if t.last = top then t.len else 0

section Ends
variable {x : Span} {l : List Span}

theorem tail_concat (l : List Span) (t : Span) (top : ℕ) : tail (l ++ [t]) top = if t.last = top then t.len else 0 := by
  rw [tail,List.getLast?_concat]

/-- What is put behind all spans becomes the last one or makes it longer. -/
theorem put_end (hl : Gapped l) (hpos : ∀ t ∈ l, 0 < t.len) (htop : ∀ t ∈ l, t.last ≤ x.base) :
    (tail l x.base = 0 ∧ put x l = l ++ [x]) ∨
    ∃ init t, l = init ++ [t] ∧ t.last = x.base ∧ put x l = init ++ [⟨t.base,t.len+x.len⟩] := by
  induction l with
  | nil => exact .inl ⟨rfl,rfl⟩
  | cons s l ih =>
    obtain ⟨hs,hl⟩ := (gapped_cons s l).mp hl
    rw [List.forall_mem_cons] at hpos htop
    have hbase : ¬ x.base ≤ s.base := by
      have hlast := htop.1
      have hlen := hpos.1
      simp only [Span.last] at hlast
      omega
    rw [put,if_neg hbase]
    cases l with
    | nil =>
      by_cases htouch : s.last = x.base
      · exact .inr ⟨[],s,rfl,htouch,if_pos htouch⟩
      · exact .inl ⟨if_neg htouch,if_neg htouch⟩
    | cons t l =>
      have hjoin : ∀ (m : ℕ) (r : List Span), join s (⟨t.base,m⟩ :: r) = s :: ⟨t.base,m⟩ :: r :=
        fun m r => if_neg (hs t List.mem_cons_self).ne
      obtain ⟨htail,hput⟩ | ⟨init,u,hinit,hu,hput⟩ := ih hl hpos.2 htop.2
      · refine .inl ⟨?_,?_⟩
        · rw [tail,List.getLast?_cons_cons]
          exact htail
        · rw [hput]
          exact hjoin t.len (l ++ [x])
      · refine .inr ⟨s :: init,u,by rw [hinit]; rfl,hu,?_⟩
        rw [hput]
        cases init with
        | nil =>
          obtain ⟨rfl,-⟩ := List.cons.inj hinit
          exact hjoin _ []
        | cons v init =>
          obtain ⟨rfl,-⟩ := List.cons.inj hinit
          exact hjoin t.len (init ++ [⟨u.base,u.len+x.len⟩])

variable (hl : Gapped l) (hpos : ∀ t ∈ l, 0 < t.len) (htop : ∀ t ∈ l, t.last ≤ x.base)
include hl hpos htop

/-- The area at the end has grown. -/
theorem tail_put : tail (put x l) x.last = tail l x.base+x.len := by
  obtain ⟨htail,hput⟩ | ⟨init,t,rfl,ht,hput⟩ := put_end hl hpos htop
  · rw [hput,tail_concat,if_pos rfl,htail,Nat.zero_add]
  · have hlast : (⟨t.base,t.len+x.len⟩ : Span).last = x.last := by
      simp only [Span.last] at ht ⊢
      omega
    rw [hput,tail_concat,if_pos hlast,tail_concat,if_pos ht]

/-- Only the area at the end has become larger. -/
theorem put_all_lt {n : ℕ} (hall : ∀ t ∈ l, t.len < n) : (∀ t ∈ put x l, t.len < n) ↔ tail l x.base+x.len < n := by
  obtain ⟨htail,hput⟩ | ⟨init,t,rfl,ht,hput⟩ := put_end hl hpos htop
  · rw [hput,List.forall_mem_append,List.forall_mem_singleton,htail,Nat.zero_add]
    exact and_iff_right hall
  · rw [hput,List.forall_mem_append,List.forall_mem_singleton,tail_concat,if_pos ht]
    exact and_iff_right (List.forall_mem_append.mp hall).1

end Ends

theorem tail_lt {l : List Span} {top n : ℕ} (hn : 0 < n) (hall : ∀ t ∈ l, t.len < n) : tail l top < n := by
  unfold tail
  split
  · exact hn
  · rename_i t ht
    split_ifs
    · exact hall t (List.mem_of_getLast? ht)
    · exact hn

section Steps
variable {w s n limit size area : ℕ}

/-- A region of `size` with an area at its end, grown by steps of `s` up to `limit`, never has one of `n`. -/
def NeverFits (s n limit size area : ℕ) : Prop := ∀ j, size+j*s ≤ limit → area+j*s < n

/-- On the way the size of the region leaves the word, and what remains of it is within the limit. -/
def Wraps (w s n limit size area : ℕ) : Prop :=
  ∃ j, size+j*s ≤ limit ∧ area+j*s < n ∧ 2^w ≤ size+(j+1)*s ∧ (size+(j+1)*s)%2^w ≤ limit

theorem neverFits_step (harea : area < n) : NeverFits s n limit size area ↔ NeverFits s n limit (size+s) (area+s) := by
  constructor
  · intro h j hj
    have hnext := h (j+1)
    rw [Nat.add_mul,Nat.one_mul] at hnext
    omega
  · intro h j hj
    cases j with
    | zero => omega
    | succ j =>
      have hprev := h j
      rw [Nat.add_mul,Nat.one_mul] at hj ⊢
      omega

theorem wraps_step (hlt : size+s < 2^w) : Wraps w s n limit size area ↔ Wraps w s n limit (size+s) (area+s) := by
  constructor
  · rintro ⟨j,h₁,h₂,h₃,h₄⟩
    cases j with
    | zero => omega
    | succ j =>
      have hmul : (j+1)*s = j*s+s := by ring
      have hmul' : (j+1+1)*s = (j+1)*s+s := by ring
      rw [hmul] at h₁ h₂
      rw [hmul',hmul] at h₃ h₄
      refine ⟨j,by omega,by omega,?_,?_⟩
      · rw [hmul]
        omega
      · rw [hmul,show size+s+(j*s+s) = size+(j*s+s+s) by omega]
        exact h₄
  · rintro ⟨j,h₁,h₂,h₃,h₄⟩
    have hmul : (j+1)*s = j*s+s := by ring
    have hmul' : (j+1+1)*s = (j+1)*s+s := by ring
    refine ⟨j+1,by rw [hmul]; omega,by rw [hmul]; omega,?_,?_⟩
    · rw [hmul']
      omega
    · rw [hmul',show size+((j+1)*s+s) = size+s+(j+1)*s by omega]
      exact h₄

/-- At the limit. -/
theorem stopped (hlimit : limit < 2^w) (harea : area < n) (hfail : limit < (size+s)%2^w) :
    NeverFits s n limit size area ∧ ¬ Wraps w s n limit size area := by
  have hno : ∀ j, ¬ size+(j+1)*s ≤ limit := by
    intro j hj
    rw [Nat.add_mul,Nat.one_mul] at hj
    rw [Nat.mod_eq_of_lt (by omega)] at hfail
    omega
  refine ⟨fun j hj => ?_,?_⟩
  · cases j with
    | zero => omega
    | succ j => exact absurd hj (hno j)
  · rintro ⟨j,h₁,-,-,h₄⟩
    cases j with
    | zero =>
      rw [Nat.zero_add,Nat.one_mul] at h₄
      omega
    | succ j => exact hno j h₁

end Steps

end Blub.Spans
