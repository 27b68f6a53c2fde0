import Mathlib.Data.List.Infix
import Mathlib.Tactic.Common

/-! Fields that stand one after the other at the front of an input, and what reads them. -/
namespace Blub.Fields
variable {α σ : Type*} (F G : List α → Prop)

/-- A field of the kind starts the input. -/
def Starts (s : List α) : Prop := ∃ x, F x ∧ x <+: s

/-- The input ends inside a field of the kind. -/
def Cut (s : List α) : Prop := ∃ t, t ≠ [] ∧ F (s++t)

/-- Fields whose end shows in the field: every input starts with one or ends inside one, and never with two. -/
structure Code : Prop where
  total (s : List α) : Starts F s ∨ Cut F s
  free {x y s t : List α} (hx : F x) (hy : F y) (h : x++s = y++t) : x = y

/-- A field of the first kind and one of the second. -/
def both (s : List α) : Prop := ∃ x y, F x ∧ G y ∧ s = x++y

/-- A field that is there or not. -/
def opt (b : Prop) (s : List α) : Prop := (b → F s) ∧ (¬b → s = [])

def fixed (n : ℕ) (s : List α) : Prop := s.length = n

/-- Elements up to a mark, and the mark. -/
def marked (m : α) (s : List α) : Prop := ∃ x, m ∉ x ∧ s = x++[m]

variable {F G}

theorem Code.tail {x s t : List α} (hF : Code F) (hx : F x) (h : both F G (x++s++t)) : G (s++t) := by
  obtain ⟨x',y,hx',hy,heq⟩ := h
  rw [List.append_assoc] at heq
  have hxx := hF.free hx hx' heq
  rw [← hxx] at heq
  rwa [List.append_cancel_left heq]

theorem Code.both (hF : Code F) (hG : Code G) (hne : ∃ y, G y) : Code (both F G) where
  total s := by
    rcases hF.total s with ⟨x,hx,s',rfl⟩ | ⟨t,ht,hx⟩
    · rcases hG.total s' with ⟨y,hy,s'',rfl⟩ | ⟨t,ht,hy⟩
      · exact .inl ⟨x++y,⟨x,y,hx,hy,rfl⟩,s'',List.append_assoc ..⟩
      · exact .inr ⟨t,ht,x,s'++t,hx,hy,List.append_assoc ..⟩
    · obtain ⟨y,hy⟩ := hne
      exact .inr ⟨t++y,by simp [ht],s++t,y,hx,hy,(List.append_assoc ..).symm⟩
  free := by
    rintro _ _ s t ⟨x,y,hx,hy,rfl⟩ ⟨x',y',hx',hy',rfl⟩ h
    simp only [List.append_assoc] at h
    have hxx := hF.free hx hx' h
    subst hxx
    rw [hG.free hy hy' (List.append_cancel_left h)]

theorem Code.opt (hF : Code F) (b : Prop) : Code (opt F b) := by
  by_cases hb : b
  · have h : Fields.opt F b = F := by
      funext s
      simp [Fields.opt,hb]
    rwa [h]
  · have h : Fields.opt F b = (· = []) := by
      funext s
      simp [Fields.opt,hb]
    rw [h]
    exact ⟨fun s => .inl ⟨[],rfl,List.nil_prefix⟩,fun hx hy _ => hx.trans hy.symm⟩

theorem opt_nonempty (h : ∃ x, F x) (b : Prop) : ∃ x, opt F b x := by
  by_cases hb : b
  · simpa [opt,hb] using h
  · exact ⟨[],by simp [opt,hb]⟩

theorem both_nonempty (hF : ∃ x, F x) (hG : ∃ y, G y) : ∃ s, both F G s := by
  obtain ⟨x,hx⟩ := hF
  obtain ⟨y,hy⟩ := hG
  exact ⟨x++y,x,y,hx,hy,rfl⟩

theorem fixed_cut [Inhabited α] {n : ℕ} {s : List α} : Cut (fixed n) s ↔ s.length < n := by
  constructor
  · rintro ⟨t,ht,h⟩
    have hpos := List.length_pos_iff.mpr ht
    rw [fixed,List.length_append] at h
    omega
  · intro h
    refine ⟨List.replicate (n-s.length) default,by simp; omega,?_⟩
    rw [fixed,List.length_append,List.length_replicate]
    omega

theorem code_fixed [Inhabited α] (n : ℕ) : Code (fixed (α := α) n) where
  total s := by
    by_cases h : n ≤ s.length
    · exact .inl ⟨s.take n,by simp [fixed,h],List.take_prefix n s⟩
    · exact .inr (fixed_cut.mpr (by omega))
  free hx hy h := (List.append_inj h (hx.trans hy.symm)).1

theorem marked_cut {m : α} {s : List α} : Cut (marked m) s ↔ m ∉ s := by
  constructor
  · rintro ⟨t,ht,x,hx,h⟩ hm
    rcases List.append_eq_append_iff.mp h with ⟨a,ha,hb⟩ | ⟨a,ha,hb⟩
    · apply hx
      rw [ha]
      exact List.mem_append_left a hm
    · cases a with
      | nil =>
        rw [List.append_nil] at ha
        rw [ha] at hm
        exact hx hm
      | cons b a =>
        rw [List.cons_append,List.cons.injEq] at hb
        exact ht (List.append_eq_nil_iff.mp hb.2.symm).2
  · intro h
    exact ⟨[m],by simp,s,h,rfl⟩

theorem code_marked [DecidableEq α] (m : α) : Code (marked m) where
  total s := by
    by_cases h : m ∈ s
    · obtain ⟨x,y,rfl,hx⟩ := List.eq_append_cons_of_mem h
      exact .inl ⟨x++[m],⟨x,hx,rfl⟩,y,by simp⟩
    · exact .inr (marked_cut.mpr h)
  free := by
    rintro _ _ s t ⟨x,hx,rfl⟩ ⟨y,hy,rfl⟩ h
    rw [List.append_assoc,List.append_assoc] at h
    rcases List.append_eq_append_iff.mp h with ⟨a,ha,hb⟩ | ⟨a,ha,hb⟩
    · cases a with
      | nil => rw [ha,List.append_nil]
      | cons b a =>
        rw [List.cons_append,List.singleton_append,List.cons_append,List.cons.injEq] at hb
        apply absurd _ hy
        rw [ha,hb.1]
        simp
    · cases a with
      | nil => rw [ha,List.append_nil]
      | cons b a =>
        rw [List.cons_append,List.singleton_append,List.cons_append,List.cons.injEq] at hb
        apply absurd _ hx
        rw [ha,hb.1]
        simp

section Reading
variable (At : σ → List α → Prop) (Bad : σ → Prop)

/-- What reads a field of the kind: from a whole one it goes to what follows, and one that is cut leaves it in a bad state. -/
structure Reads (F : List α → Prop) (run : σ → Option σ) : Prop where
  code : Code F
  whole {s : σ} {x l : List α} (hs : At s (x++l)) (hx : F x) : ∃ s', run s = some s' ∧ At s' l
  cut {s s' : σ} {l : List α} (hs : At s l) (hl : Cut F l) (h : run s = some s') : Bad s'
  bad {s s' : σ} (hs : Bad s) (h : run s = some s') : Bad s'

variable {At Bad}

theorem Reads.both {f g : σ → Option σ} (hf : Reads At Bad F f) (hg : Reads At Bad G g) (hne : ∃ y, G y) :
    Reads At Bad (both F G) fun s => (f s).bind g where
  code := hf.code.both hg.code hne
  whole := by
    rintro s _ l hs ⟨x,y,hx,hy,rfl⟩
    rw [List.append_assoc] at hs
    obtain ⟨s₁,hrun,hs₁⟩ := hf.whole hs hx
    rw [hrun]
    exact hg.whole hs₁ hy
  cut := by
    rintro s s' l hs ⟨t,ht,hl⟩ h
    obtain ⟨s₁,hrun,h⟩ := Option.bind_eq_some_iff.mp h
    rcases hf.code.total l with ⟨x,hx,l',rfl⟩ | hcut
    · obtain ⟨s₂,hrun',hs₂⟩ := hf.whole hs hx
      cases hrun.symm.trans hrun'
      exact hg.cut hs₂ ⟨t,ht,hf.code.tail hx hl⟩ h
    · exact hg.bad (hf.cut hs hcut hrun) h
  bad := by
    intro s s' hs h
    obtain ⟨s₁,hrun,h⟩ := Option.bind_eq_some_iff.mp h
    exact hg.bad (hf.bad hs hrun) h

theorem Reads.opt {f : σ → Option σ} (hf : Reads At Bad F f) (b : Prop) [Decidable b] :
    Reads At Bad (opt F b) fun s => if b then f s else some s := by
  by_cases hb : b
  · have h : Fields.opt F b = F := by
      funext s
      simp [Fields.opt,hb]
    simp only [if_pos hb,h]
    exact hf
  · refine ⟨hf.code.opt b,?_,?_,?_⟩
    · intro s x l hs hx
      rw [hx.2 hb] at hs
      exact ⟨s,if_neg hb,hs⟩
    · rintro s s' l hs ⟨t,ht,hl⟩ h
      exact absurd (List.append_eq_nil_iff.mp (hl.2 hb)).2 ht
    · intro s s' hs h
      rw [if_neg hb] at h
      cases h
      exact hs

end Reading
end Blub.Fields
