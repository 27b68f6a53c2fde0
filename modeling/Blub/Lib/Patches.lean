import Blub.Lib.Bytes

/-! Patches of a byte memory: words of `k` bytes that are replaced, each by a value that may depend on the word before. -/
namespace Blub.Patches
open Blub.Bytes

structure Patch where
  place : ℕ
  value : ℕ → ℕ

section Defs
variable (k : ℕ)

def Patch.apply (p : Patch) (m : ℕ → UInt8) : ℕ → UInt8 := lePut m p.place k (p.value (leGet m p.place k))

def applyAll (l : List Patch) (m : ℕ → UInt8) : ℕ → UInt8 := l.foldl (fun m p => p.apply k m) m

def Patch.Covers (p : Patch) (a : ℕ) : Prop := p.place ≤ a ∧ a < p.place+k

def Patch.Apart (p q : Patch) : Prop := p.place+k ≤ q.place ∨ q.place+k ≤ p.place

end Defs

section Apply
variable {k : ℕ} {p q : Patch} {l l' : List Patch} {m m' : ℕ → UInt8} {a : ℕ}

theorem Patch.apply_outside (h : ¬p.Covers k a) : p.apply k m a = m a :=
  lePut_outside (by rw [Patch.Covers] at h; omega)

/-- A patch of two memories that agree on its word puts the same byte at the same distance. -/
theorem Patch.apply_shift {v : ℕ → ℕ} {o o' : ℕ} (h : ∀ j < k, m (o+j) = m' (o'+j)) {j : ℕ} (hj : j < k) :
    (Patch.mk o v).apply k m (o+j) = (Patch.mk o' v).apply k m' (o'+j) := by
  simp only [Patch.apply,lePut,leGet_shift h]
  rw [blit_inside (by omega) (by omega),blit_inside (by omega) (by omega),Nat.add_sub_cancel_left,Nat.add_sub_cancel_left]

theorem Patch.apply_congr (h : ∀ b, p.Covers k b → m b = m' b) (ha : p.Covers k a) : p.apply k m a = p.apply k m' a := by
  obtain ⟨j,rfl⟩ := Nat.exists_eq_add_of_le ha.1
  exact apply_shift (fun i hi => h _ ⟨by omega,by omega⟩) (by have := ha.2; omega)

/-- In a copy of a window that holds its word, a patch does what it does in the memory. -/
theorem Patch.apply_window {o len : ℕ} (h : ∀ j < len, m j = m' (o+j)) (hlo : o ≤ p.place) (hhi : p.place+k ≤ o+len) :
    ∀ j < len, (Patch.mk (p.place-o) p.value).apply k m j = p.apply k m' (o+j) := by
  intro j hj
  by_cases hcov : p.Covers k (o+j)
  · obtain ⟨i,hi⟩ := Nat.exists_eq_add_of_le hcov.1
    have hik : i < k := by have := hcov.2; omega
    have hword : ∀ i < k, m (p.place-o+i) = m' (p.place+i) := fun i hi => by
      rw [h _ (by omega),show o+(p.place-o+i) = p.place+i by omega]
    have hshift := apply_shift (v := p.value) hword hik
    rwa [show p.place-o+i = j by omega,← hi] at hshift
  · rw [apply_outside hcov,← h j hj]
    refine apply_outside fun hcov' => hcov ?_
    obtain ⟨hlo',hhi'⟩ : p.place-o ≤ j ∧ j < p.place-o+k := hcov'
    exact ⟨by omega,by omega⟩

theorem Patch.Apart.not_covers (h : p.Apart k q) (ha : p.Covers k a) : ¬q.Covers k a := by
  rintro ⟨hle,hlt⟩
  have hle' := ha.1
  have hlt' := ha.2
  obtain h | h := h <;> omega

theorem Patch.Apart.symm (h : p.Apart k q) : q.Apart k p := Or.symm h

instance : Std.Symm (Patch.Apart k) := ⟨fun _ _ h => h.symm⟩

/-- Where no patch is, nothing changes. -/
theorem applyAll_outside (h : ∀ p ∈ l, ¬p.Covers k a) : applyAll k l m a = m a := by
  induction l generalizing m with
  | nil => rfl
  | cons p l ih =>
    rw [applyAll,List.foldl_cons,← applyAll,ih fun q hq => h q (List.mem_cons_of_mem _ hq)]
    exact Patch.apply_outside (h p List.mem_cons_self)

/-- Of patches that lie apart each one changes its word as if it were alone. -/
theorem applyAll_covered (hl : l.Pairwise (Patch.Apart k)) (hp : p ∈ l) (ha : p.Covers k a) :
    applyAll k l m a = p.apply k m a := by
  induction l generalizing m with
  | nil => cases hp
  | cons q l ih =>
    obtain ⟨hq,hl⟩ := List.pairwise_cons.mp hl
    rw [applyAll,List.foldl_cons,← applyAll]
    obtain rfl | hp := List.mem_cons.mp hp
    · exact applyAll_outside fun r hr => (hq r hr).not_covers ha
    · rw [ih hl hp]
      exact Patch.apply_congr (fun b hb => Patch.apply_outside ((hq p hp).symm.not_covers hb)) ha

/-- Some of the patches do the work of all exactly if those that are missing change nothing. -/
theorem applyAll_sublist_iff (hl : l.Pairwise (Patch.Apart k)) (hsub : l'.Sublist l) (W : Set ℕ) :
    (∀ a ∈ W, applyAll k l' m a = applyAll k l m a) ↔ ∀ p ∈ l, p ∉ l' → ∀ a ∈ W, p.apply k m a = m a := by
  have hmissing : ∀ p ∈ l, p ∉ l' → ∀ a, p.Covers k a → applyAll k l' m a = m a := by
    intro p hp hnot a ha
    refine applyAll_outside fun q hq => ?_
    have hne : p ≠ q := fun heq => hnot (heq ▸ hq)
    have hapart : p.Apart k q := hl.forall hp (hsub.subset hq) hne
    exact hapart.not_covers ha
  constructor
  · intro h p hp hnot a ha
    by_cases hcov : p.Covers k a
    · rw [← applyAll_covered hl hp hcov,← h a ha]
      exact hmissing p hp hnot a hcov
    · exact Patch.apply_outside hcov
  · intro h a ha
    by_cases hcov : ∃ p ∈ l, p.Covers k a
    · obtain ⟨p,hp,hcov⟩ := hcov
      rw [applyAll_covered hl hp hcov]
      by_cases hin : p ∈ l'
      · exact applyAll_covered (hl.sublist hsub) hin hcov
      · rw [h p hp hin a ha]
        exact hmissing p hp hin a hcov
    · push Not at hcov
      rw [applyAll_outside hcov,applyAll_outside fun p hp => hcov p (hsub.subset hp)]

end Apply

end Blub.Patches
