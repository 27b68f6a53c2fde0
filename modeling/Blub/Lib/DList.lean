import Mathlib.Tactic

/-! Doubly linked lists over two link functions. A list of cells is threaded through `next`
and `prev`; splicing new cells into it changes only the links on both sides of the cut. -/
namespace Blub.DList

variable {ι : Type*} {next prev next' prev' : ι → Option ι}

/-- The cells `l` are threaded from the cell before them (`p`) to the cell behind them (`q`). -/
def Linked (next prev : ι → Option ι) : Option ι → List ι → Option ι → Prop
  | _, [], _ => True
  | p, a :: l, q => prev a = p ∧ next a = l.head?.or q ∧ Linked next prev (some a) l q

attribute [local grind =] Linked

@[simp] theorem linked_nil (p q : Option ι) : Linked next prev p [] q := trivial

@[simp] theorem linked_cons (p q : Option ι) (a : ι) (l : List ι) :
    Linked next prev p (a :: l) q ↔
      prev a = p ∧ next a = l.head?.or q ∧ Linked next prev (some a) l q := Iff.rfl

theorem linked_append (p q : Option ι) (l₁ l₂ : List ι) :
    Linked next prev p (l₁ ++ l₂) q ↔
      Linked next prev p l₁ (l₂.head?.or q) ∧ Linked next prev (l₁.getLast?.or p) l₂ q := by
  induction l₁ generalizing p with
  | nil => simp
  | cons a l₁ ih =>
    have hl : (a :: l₁).getLast?.or p = l₁.getLast?.or (some a) := by
      cases l₁ with
      | nil => simp
      | cons b l₁ => simp [List.getLast?_eq_some_getLast]
    simp only [List.cons_append, linked_cons, ih, hl, List.head?_append, Option.or_assoc]
    tauto

theorem Linked.congr {p q : Option ι} {l : List ι} (h : Linked next prev p l q)
    (hc : ∀ a ∈ l, next' a = next a ∧ prev' a = prev a) : Linked next' prev' p l q := by
  induction l generalizing p with
  | nil => trivial
  | cons a l ih =>
    obtain ⟨hp,hn,ht⟩ := h
    obtain ⟨hn',hp'⟩ := hc a (by simp)
    exact ⟨hp'.trans hp,hn'.trans hn,ih ht (fun b hb => hc b (by simp [hb]))⟩

/-- Only the last cell of a threaded list knows what comes behind it. -/
theorem Linked.retarget [DecidableEq ι] {p q q' : Option ι} {l : List ι} (h : Linked next prev p l q)
    (hd : l.Nodup)
    (hc : ∀ a ∈ l, prev' a = prev a ∧ next' a = if l.getLast? = some a then q' else next a) :
    Linked next' prev' p l q' := by
  rcases l.eq_nil_or_concat with rfl | ⟨l,z,rfl⟩
  · trivial
  · rw [List.concat_eq_append] at h hc hd ⊢
    have hz : z ∉ l := by
      intro hz
      exact (List.nodup_append.mp hd).2.2 z hz z (by simp) rfl
    rw [linked_append] at h ⊢
    constructor
    · refine h.1.congr fun a ha => ?_
      have hza : z ≠ a := by rintro rfl; exact hz ha
      have hca := hc a (by simp [ha])
      simp only [List.getLast?_append, List.getLast?_singleton, Option.some_or, Option.some.injEq,
        hza, if_false] at hca
      exact ⟨hca.2,hca.1⟩
    · have hcz := hc z (by simp)
      simp only [List.getLast?_append, List.getLast?_singleton, Option.some_or, if_true] at hcz
      exact ⟨hcz.1.trans h.2.1,by simpa using hcz.2,trivial⟩

/-- Only the first cell of a threaded list knows what comes before it. -/
theorem Linked.rehead [DecidableEq ι] {p p' q : Option ι} {l : List ι} (h : Linked next prev p l q)
    (hd : l.Nodup)
    (hc : ∀ a ∈ l, next' a = next a ∧ prev' a = if l.head? = some a then p' else prev a) :
    Linked next' prev' p' l q := by
  cases l with
  | nil => trivial
  | cons a l =>
    obtain ⟨-,hn,ht⟩ := h
    have ha := hc a (by simp)
    refine ⟨by simpa using ha.2,ha.1.trans hn,ht.congr fun b hb => ?_⟩
    have hab : a ≠ b := by rintro rfl; exact (List.nodup_cons.mp hd).1 hb
    have hcb := hc b (by simp [hb])
    simpa [hab] using hcb

/-- Splicing `zs` between `l₁` and `l₂`: the new links need to be right on `zs`, behind `l₁`
and before `l₂`, and unchanged everywhere else. -/
theorem Linked.splice [DecidableEq ι] {l₁ l₂ zs : List ι} (h : Linked next prev none (l₁ ++ l₂) none)
    (hd : (l₁ ++ l₂).Nodup) (hz : zs ≠ [])
    (h₁ : ∀ a ∈ l₁, prev' a = prev a ∧
      next' a = if l₁.getLast? = some a then zs.head? else next a)
    (h₂ : ∀ a ∈ l₂, next' a = next a ∧
      prev' a = if l₂.head? = some a then zs.getLast? else prev a)
    (hl : Linked next' prev' l₁.getLast? zs l₂.head?) :
    Linked next' prev' none (l₁ ++ (zs ++ l₂)) none := by
  obtain ⟨hd₁,hd₂,-⟩ := List.nodup_append.mp hd
  rw [linked_append] at h
  have hz' := List.head?_eq_some_head hz
  have hy := List.getLast?_eq_some_getLast hz
  rw [linked_append, linked_append]
  refine ⟨h.1.retarget hd₁ fun a ha => ?_,by simpa using hl,h.2.rehead hd₂ fun a ha => ?_⟩
  · simpa [List.head?_append, hz'] using h₁ a ha
  · simpa [hy] using h₂ a ha

/-- Taking a cell out of a threaded list: the cells on both sides of it get to know each other. -/
theorem Linked.remove [DecidableEq ι] {l₁ l₂ : List ι} {a : ι} (h : Linked next prev none (l₁ ++ a :: l₂) none)
    (hd : (l₁ ++ l₂).Nodup)
    (h₁ : ∀ b ∈ l₁, prev' b = prev b ∧ next' b = if l₁.getLast? = some b then l₂.head? else next b)
    (h₂ : ∀ b ∈ l₂, next' b = next b ∧ prev' b = if l₂.head? = some b then l₁.getLast? else prev b) :
    Linked next' prev' none (l₁ ++ l₂) none := by
  obtain ⟨hd₁,hd₂,-⟩ := List.nodup_append.mp hd
  rw [linked_append] at h
  rw [linked_append]
  refine ⟨h.1.retarget hd₁ fun b hb => ?_,h.2.2.2.rehead hd₂ fun b hb => ?_⟩
  · simpa using h₁ b hb
  · simpa using h₂ b hb

/-- On a whole list the two links are inverse to each other. -/
theorem Linked.next_iff {l : List ι} (h : Linked next prev none l none) {a b : ι} (ha : a ∈ l) (hb : b ∈ l) :
    next a = some b ↔ prev b = some a := by
  constructor
  · intro hn
    obtain ⟨l₁,l₂,rfl⟩ := List.append_of_mem ha
    obtain ⟨-,-,hnext,ht⟩ := (linked_append _ _ _ _).mp h
    rw [Option.or_none] at hnext
    cases l₂ with
    | nil => rw [hnext] at hn; cases hn
    | cons c l₂ =>
      rw [hnext] at hn
      cases hn
      exact ht.1
  · intro hp
    obtain ⟨l₁,l₂,rfl⟩ := List.append_of_mem hb
    obtain ⟨h₁,hprev,-⟩ := (linked_append _ _ _ _).mp h
    rw [Option.or_none] at hprev
    obtain rfl | ⟨l₁,c,rfl⟩ := l₁.eq_nil_or_concat
    · rw [hprev] at hp
      cases hp
    · rw [List.concat_eq_append] at h₁ hprev
      rw [hprev,List.getLast?_concat,Option.some.injEq] at hp
      subst hp
      exact ((linked_append _ _ _ _).mp h₁).2.2.1

/-- Only the first cell has none before it. -/
theorem Linked.prev_none_iff {l : List ι} (h : Linked next prev none l none) {a : ι} (ha : a ∈ l) :
    prev a = none ↔ l.head? = some a := by
  constructor
  · intro hp
    obtain ⟨l₁,l₂,rfl⟩ := List.append_of_mem ha
    obtain ⟨-,hprev,-⟩ := (linked_append _ _ _ _).mp h
    rw [Option.or_none,hp] at hprev
    rw [List.getLast?_eq_none_iff.mp hprev.symm]
    rfl
  · intro hh
    cases l with
    | nil => cases hh
    | cons b l =>
      cases hh
      exact h.1

/-- Following `next` from the head of a threaded list visits exactly its cells. -/
def walk (next : ι → Option ι) : ℕ → Option ι → List ι
  | 0, _ => []
  | _+1, none => []
  | k+1, some a => a :: walk next k (next a)

attribute [local grind =] walk

theorem walk_linked {p : Option ι} {l : List ι} (h : Linked next prev p l none) {k : ℕ}
    (hk : l.length < k) : walk next k l.head? = l := by
  induction l generalizing p k with
  | nil => cases k <;> rfl
  | cons a l ih =>
    cases k with
    | zero => simp at hk
    | succ k =>
      obtain ⟨-,hn,ht⟩ := h
      simp only [List.head?_cons, walk, hn, Option.or_none]
      rw [ih ht (by simpa using hk)]

end Blub.DList
