import Mathlib.Tactic

/-! Nodes of linked structures in memory: which are in use, and what each of them holds. Following a pointer to
a node that is not in use is a fault. -/
namespace Blub.Nodes

/-- The nodes in use with their contents, and how many were ever allocated. -/
structure Store (α : Type*) where
  cell : ℕ → α
  live : List ℕ
  born : ℕ

/-- Where an allocator puts the next node: it is free to choose, but not a node in use. -/
structure Allocator where
  pick : ℕ → List ℕ → ℕ
  fresh : ∀ n l, pick n l ∉ l

namespace Store
variable {α : Type*} (s : Store α)

def read (a : ℕ) : Option α := if a ∈ s.live then some (s.cell a) else none

def write (a : ℕ) (v : α) : Option (Store α) :=
  if a ∈ s.live then some { s with cell := Function.update s.cell a v } else none

def alloc (m : Allocator) (v : α) : ℕ × Store α :=
  let a := m.pick s.born s.live
  (a,⟨Function.update s.cell a v,a :: s.live,s.born+1⟩)

def free (a : ℕ) : Option (Store α) :=
  if a ∈ s.live then some { s with live := s.live.filter (· ≠ a) } else none

def modify (a : ℕ) (f : α → α) : Option (Store α) := do
  let v ← s.read a
  s.write a (f v)

/-- The first node with `p` on the way from a pointer. A thread has no more nodes than are in use. -/
def search (next : α → Option ℕ) (p : α → Bool) : ℕ → Option ℕ → Option (Option ℕ)
  | _, none => some none
  | 0, some _ => none
  | k+1, some a =>
    match s.read a with
    | none => none
    | some v => if p v then some (some a) else search next p k (next v)

attribute [local grind =] search

variable {s} {a b : ℕ} {v : α}

theorem read_of_mem (h : a ∈ s.live) : s.read a = some (s.cell a) := if_pos h

theorem write_of_mem (h : a ∈ s.live) (v : α) :
    s.write a v = some { s with cell := Function.update s.cell a v } := if_pos h

theorem free_of_mem (h : a ∈ s.live) : s.free a = some { s with live := s.live.filter (· ≠ a) } := if_pos h

theorem modify_of_mem (h : a ∈ s.live) (f : α → α) :
    s.modify a f = some { s with cell := Function.update s.cell a (f (s.cell a)) } := by
  simp only [modify,read_of_mem h,write_of_mem h,Option.bind_eq_bind,Option.bind_some]

theorem alloc_notMem (m : Allocator) : m.pick s.born s.live ∉ s.live := m.fresh _ _

end Store

section Threads
variable {next next' : ℕ → Option ℕ}

/-- The nodes `l` are threaded from the pointer `p` on, the last one to `q`. -/
def Threaded (next : ℕ → Option ℕ) : Option ℕ → List ℕ → Option ℕ → Prop
  | p, [], q => p = q
  | p, a :: l, q => p = some a ∧ Threaded next (next a) l q

attribute [local grind =] Threaded

@[simp] theorem threaded_nil (p q : Option ℕ) : Threaded next p [] q ↔ p = q := Iff.rfl

@[simp] theorem threaded_cons (p q : Option ℕ) (a : ℕ) (l : List ℕ) :
    Threaded next p (a :: l) q ↔ p = some a ∧ Threaded next (next a) l q := Iff.rfl

theorem threaded_append (p q : Option ℕ) (l₁ l₂ : List ℕ) :
    Threaded next p (l₁ ++ l₂) q ↔ ∃ r, Threaded next p l₁ r ∧ Threaded next r l₂ q := by
  induction l₁ generalizing p with
  | nil => simp
  | cons a l₁ ih => simp only [List.cons_append,threaded_cons,ih,and_assoc,exists_and_left]

theorem Threaded.congr {p q : Option ℕ} {l : List ℕ} (h : Threaded next p l q) (hc : ∀ a ∈ l, next' a = next a) :
    Threaded next' p l q := by
  induction l generalizing p with
  | nil => exact h
  | cons a l ih =>
    obtain ⟨hp,ht⟩ := h
    refine ⟨hp,?_⟩
    rw [hc a List.mem_cons_self]
    exact ih ht fun b hb => hc b (List.mem_cons_of_mem a hb)

/-- A pointer that leads through nodes of `l` to the end. -/
theorem Threaded.head {p : Option ℕ} {l : List ℕ} (h : Threaded next p l none) : p = l.head? := by
  cases l with
  | nil => exact h
  | cons a l => exact h.1

/-- Only the last node of a thread knows what comes behind it. -/
theorem Threaded.retarget {p q q' : Option ℕ} {l : List ℕ} {a : ℕ} (h : Threaded next p (l ++ [a]) q)
    (ha : next' a = q') (hc : ∀ b ∈ l, next' b = next b) :
    Threaded next' p (l ++ [a]) q' := by
  rw [threaded_append] at h ⊢
  obtain ⟨r,h₁,rfl,-⟩ := h
  exact ⟨some a,h₁.congr hc,rfl,ha⟩

/-- A thread ends at its one node that leads nowhere. -/
theorem Threaded.find_last {p : Option ℕ} {l : List ℕ} (h : Threaded next p l none) :
    (l.find? fun a => (next a).isNone) = l.getLast? := by
  induction l generalizing p with
  | nil => rfl
  | cons a l ih =>
    obtain ⟨-,ht⟩ := h
    cases l with
    | nil => simp [show next a = none from ht]
    | cons b l =>
      have hb : next a = some b := ht.1
      rw [List.find?_cons_of_neg (by simp [hb]),ih ht,List.getLast?_cons_cons]

/-- Two threads through the same nodes differ at most behind the last one. -/
theorem Threaded.agree {p p' q q' : Option ℕ} {l : List ℕ} {a : ℕ} (h : Threaded next p (l ++ [a]) q)
    (h' : Threaded next' p' (l ++ [a]) q') : p' = p ∧ ∀ b ∈ l, next' b = next b := by
  induction l generalizing p p' with
  | nil => exact ⟨h'.1.trans h.1.symm,nofun⟩
  | cons c l ih =>
    obtain ⟨hc,hrest⟩ := ih h.2 h'.2
    refine ⟨h'.1.trans h.1.symm,?_⟩
    intro b hb
    rcases List.mem_cons.mp hb with rfl | hb
    · exact hc
    · exact hrest b hb

theorem Store.search_threaded {α : Type*} {s : Store α} {next : α → Option ℕ} {f : α → Bool} {p : Option ℕ} {l : List ℕ} {k : ℕ}
    (h : Threaded (fun a => next (s.cell a)) p l none) (hl : ∀ a ∈ l, a ∈ s.live) (hk : l.length ≤ k) :
    s.search next f k p = some (l.find? fun a => f (s.cell a)) := by
  induction l generalizing p k with
  | nil =>
    rw [show p = none from h]
    cases k <;> rfl
  | cons a l ih =>
    obtain ⟨rfl,ht⟩ := h
    cases k with
    | zero => exact absurd hk (Nat.not_succ_le_zero _)
    | succ k =>
      have hrest := ih ht (fun b hb => hl b (List.mem_cons_of_mem a hb)) (Nat.le_of_succ_le_succ hk)
      simp only [Store.search,Store.read_of_mem (hl a List.mem_cons_self)]
      cases hf : f (s.cell a) with
      | true => rw [List.find?_cons_of_pos (by simpa using hf),if_pos rfl]
      | false =>
        rw [List.find?_cons_of_neg (by simp [hf]),if_neg Bool.false_ne_true]
        exact hrest

end Threads

end Blub.Nodes
