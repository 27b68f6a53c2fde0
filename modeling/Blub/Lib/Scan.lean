import Blub.Lib.Fuel
import Mathlib.Data.Option.Basic

/-! Loops whose turns go on, end or have no result, and scans of blocks of records that are walked by the length stored
in each. -/
namespace Blub.Scan

section Loop
variable {σ δ : Type*} (turn : σ → Option (δ ⊕ σ))

/-- The loop, for at most `fuel` turns. -/
def loop : ℕ → σ → Option δ
  | 0, _ => none
  | fuel+1, s =>
    match turn s with
    | none => none
    | some (.inl r) => some r
    | some (.inr s) => loop fuel s

/-- The states in which a turn starts. -/
inductive Reached : σ → σ → Prop
  | refl (s : σ) : Reached s s
  | next {s s' t : σ} (hs : turn s = some (.inr s')) (h : Reached s' t) : Reached s t

attribute [local grind =] loop

variable {turn}

theorem loop_end {s : σ} {r : δ} (h : turn s = some (.inl r)) (fuel : ℕ) : loop turn (fuel+1) s = some r := by
  simp only [loop,h]

theorem loop_next {s s' : σ} (h : turn s = some (.inr s')) (fuel : ℕ) : loop turn (fuel+1) s = loop turn fuel s' := by
  simp only [loop,h]

theorem loop_none {s : σ} (h : turn s = none) (fuel : ℕ) : loop turn fuel s = none := by
  cases fuel with
  | zero => rfl
  | succ fuel => simp only [loop,h]

theorem loop_mono {fuel : ℕ} {s : σ} {r : δ} (h : loop turn fuel s = some r) : loop turn (fuel+1) s = some r := by
  induction fuel generalizing s with
  | zero => cases h
  | succ fuel ih =>
    cases hturn : turn s with
    | none => rw [loop_none hturn] at h; cases h
    | some out =>
      cases out with
      | inl r' => rw [loop_end hturn] at h ⊢; exact h
      | inr s' =>
        rw [loop_next hturn] at h ⊢
        exact ih h

/-- A loop that comes back to where it was does not end. -/
theorem loop_stuck {s : σ} (h : turn s = some (.inr s)) (fuel : ℕ) : loop turn fuel s = none := by
  induction fuel with
  | zero => rfl
  | succ fuel ih => rw [loop_next h,ih]

/-- What holds at the start and is kept by every turn holds in every state reached. -/
theorem Reached.keeps {P : σ → Prop} (hstep : ∀ s s', P s → turn s = some (.inr s') → P s') {s t : σ} (h : Reached turn s t)
    (hs : P s) : P t := by
  induction h with
  | refl => exact hs
  | next hturn _ ih => exact ih (hstep _ _ hs hturn)

/-- The rest of a loop that ends does. -/
theorem Reached.ends {s t : σ} (h : Reached turn s t) (hs : ∃ fuel, loop turn fuel s ≠ none) :
    ∃ fuel, loop turn fuel t ≠ none := by
  induction h with
  | refl => exact hs
  | next hturn _ ih =>
    obtain ⟨fuel,hfuel⟩ := hs
    cases fuel with
    | zero => exact absurd rfl hfuel
    | succ fuel => exact ih ⟨fuel,loop_next hturn fuel ▸ hfuel⟩

variable {s : σ} (Stays : σ → Prop) {μ : σ → ℕ}

/-- If every turn has a result and makes progress, the loop ends. -/
theorem loop_ends (hdown : ∀ t t', Reached turn s t → turn t = some (.inr t') → ¬Stays t → μ t' < μ t)
    (hgood : ∀ t, Reached turn s t → turn t ≠ none ∧ ¬Stays t) {fuel : ℕ} (hfuel : μ s < fuel) :
    loop turn fuel s ≠ none := by
  induction fuel generalizing s with
  | zero => omega
  | succ fuel ih =>
    obtain ⟨hsome,hmoves⟩ := hgood s (.refl s)
    cases hturn : turn s with
    | none => exact absurd hturn hsome
    | some out =>
      cases out with
      | inl r =>
        rw [loop_end hturn]
        exact Option.some_ne_none r
      | inr s' =>
        rw [loop_next hturn]
        have hless := hdown s s' (.refl s) hturn hmoves
        exact ih (fun t t' ht => hdown t t' (.next hturn ht)) (fun t ht => hgood t (.next hturn ht)) (by omega)

/-- A loop in which every turn makes progress but from the states where the loop stays. -/
theorem loop_ends_iff (hdown : ∀ t t', Reached turn s t → turn t = some (.inr t') → ¬Stays t → μ t' < μ t)
    (hstays : ∀ t, Reached turn s t → Stays t → ∀ fuel, loop turn fuel t = none) :
    (∃ fuel, loop turn fuel s ≠ none) ↔ ∀ t, Reached turn s t → turn t ≠ none ∧ ¬Stays t := by
  constructor
  · intro h t ht
    obtain ⟨fuel,hfuel⟩ := ht.ends h
    exact ⟨fun hnone => hfuel (loop_none hnone fuel),fun hstay => hfuel (hstays t ht hstay fuel)⟩
  · intro h
    exact ⟨μ s+1,loop_ends Stays hdown h (Nat.lt_succ_self _)⟩

end Loop

/-- How the records of a block are walked: up to `hi`, by the length in each, or to one with a result. `Inside` says that
what is looked at of a record is in the block. -/
structure Walk (ρ : Type*) where
  hi : ℕ
  len : ℕ → ℕ
  find : ℕ → Option ρ
  Inside : ℕ → Prop

namespace Walk
variable {ρ : Type*} (w : Walk ρ)

def turn (s : ℕ) : Option (Option ρ ⊕ ℕ) :=
  if s < w.hi then
    match w.find s with
    | some r => some (.inl (some r))
    | none => some (.inr (s+w.len s))
  else some (.inl none)

/-- A record that is looked at. -/
def Meets (s p : ℕ) : Prop := Reached w.turn s p ∧ p < w.hi

/-- Records inside the block and of a positive length, one after the other, up to the end or to one with a result. -/
inductive Chain : ℕ → Prop
  | past {s : ℕ} (h : w.hi ≤ s) : Chain s
  | found {s : ℕ} (h : s < w.hi) (hin : w.Inside s) (hfind : w.find s ≠ none) : Chain s
  | next {s : ℕ} (h : s < w.hi) (hin : w.Inside s) (hlen : 0 < w.len s) (hc : Chain (s+w.len s)) : Chain s

/-- The records up to the end have no result. -/
inductive Passes : ℕ → Prop
  | past {s : ℕ} (h : w.hi ≤ s) : Passes s
  | next {s : ℕ} (h : s < w.hi) (hfind : w.find s = none) (hp : Passes (s+w.len s)) : Passes s

variable {w} {s : ℕ}

theorem turn_past (h : w.hi ≤ s) : w.turn s = some (.inl none) := if_neg (by omega)

theorem turn_found (h : s < w.hi) {r : ρ} (hfind : w.find s = some r) : w.turn s = some (.inl (some r)) := by
  rw [turn,if_pos h,hfind]

theorem turn_next (h : s < w.hi) (hfind : w.find s = none) : w.turn s = some (.inr (s+w.len s)) := by
  rw [turn,if_pos h,hfind]

/-- The walk goes on at a record without a result. -/
theorem turn_inr {s' : ℕ} (h : w.turn s = some (.inr s')) : s < w.hi ∧ w.find s = none ∧ s' = s+w.len s := by
  by_cases hlt : s < w.hi
  · cases hfind : w.find s with
    | some r => rw [turn_found hlt hfind] at h; cases h
    | none =>
      rw [turn_next hlt hfind] at h
      cases h
      exact ⟨hlt,rfl,rfl⟩
  · rw [turn_past (by omega)] at h
    cases h

theorem turn_ne_none (s : ℕ) : w.turn s ≠ none := by
  unfold turn
  split
  · split <;> exact Option.some_ne_none _
  · exact Option.some_ne_none _

theorem meets_self (h : s < w.hi) : w.Meets s s := ⟨.refl s,h⟩

theorem Meets.next {p : ℕ} (h : s < w.hi) (hfind : w.find s = none) (hp : w.Meets (s+w.len s) p) : w.Meets s p :=
  ⟨.next (turn_next h hfind) hp.1,hp.2⟩

/-- What is looked at is the record at the start, or what is looked at from the next one on. -/
theorem Meets.cases_head {p : ℕ} (h : w.Meets s p) :
    s < w.hi ∧ (p = s ∨ w.find s = none ∧ w.Meets (s+w.len s) p) := by
  obtain ⟨hr,hlt⟩ := h
  cases hr with
  | refl => exact ⟨hlt,.inl rfl⟩
  | next hturn hr =>
    obtain ⟨hs,hfind,rfl⟩ := turn_inr hturn
    exact ⟨hs,.inr ⟨hfind,hr,hlt⟩⟩

theorem Chain.inside (h : w.Chain s) : ∀ p, w.Meets s p → w.Inside p := by
  induction h with
  | past h =>
    intro p hp
    exact absurd hp.cases_head.1 (Nat.not_lt.mpr h)
  | found h hin hfind =>
    intro p hp
    rcases hp.cases_head.2 with rfl | ⟨hnone,-⟩
    · exact hin
    · exact absurd hnone hfind
  | next h hin hlen hc ih =>
    intro p hp
    rcases hp.cases_head.2 with rfl | ⟨-,hrest⟩
    · exact hin
    · exact ih p hrest

/-- A walk along a chain ends within the bytes that are left. -/
theorem Chain.ends (h : w.Chain s) {fuel : ℕ} (hfuel : w.hi-s < fuel) : loop w.turn fuel s ≠ none := by
  induction h generalizing fuel with
  | past h =>
    obtain ⟨fuel,rfl⟩ := Nat.exists_eq_add_one_of_ne_zero (Nat.ne_zero_of_lt hfuel)
    rw [loop_end (turn_past h)]
    exact Option.some_ne_none _
  | found h hin hfind =>
    obtain ⟨fuel,rfl⟩ := Nat.exists_eq_add_one_of_ne_zero (Nat.ne_zero_of_lt hfuel)
    obtain ⟨r,hr⟩ := Option.ne_none_iff_exists'.mp hfind
    rw [loop_end (turn_found h hr)]
    exact Option.some_ne_none _
  | @next s h hin hlen hc ih =>
    obtain ⟨fuel,rfl⟩ := Nat.exists_eq_add_one_of_ne_zero (Nat.ne_zero_of_lt hfuel)
    cases hfind : w.find s with
    | some r =>
      rw [loop_end (turn_found h hfind)]
      exact Option.some_ne_none _
    | none =>
      rw [loop_next (turn_next h hfind)]
      exact ih (by omega)

/-- The walk ends and looks only at records inside the block exactly when the records are a chain. -/
theorem chain_iff : w.Chain s ↔ (∃ fuel, loop w.turn fuel s ≠ none) ∧ ∀ p, w.Meets s p → w.Inside p := by
  constructor
  · intro h
    exact ⟨⟨w.hi-s+1,h.ends (Nat.lt_succ_self _)⟩,h.inside⟩
  · rintro ⟨⟨fuel,hfuel⟩,hin⟩
    induction fuel generalizing s with
    | zero => exact absurd rfl hfuel
    | succ fuel ih =>
      by_cases h : s < w.hi
      · have hs := hin s (meets_self h)
        cases hfind : w.find s with
        | some r => exact .found h hs (hfind ▸ Option.some_ne_none r)
        | none =>
          have hturn := turn_next h hfind
          have hrest : loop w.turn fuel (s+w.len s) ≠ none := loop_next hturn fuel ▸ hfuel
          refine .next h hs (Nat.pos_of_ne_zero fun hzero => ?_) (ih ?_ hrest)
          · -- a record of length 0 is met again and again
            rw [hzero,Nat.add_zero] at hturn
            exact hfuel (loop_stuck hturn (fuel+1))
          · intro p hp
            exact hin p (hp.next h hfind)
      · exact .past (by omega)

/-- The fuel that is given to a walk is enough for it, if any is. -/
theorem ends_iff : (∃ fuel, loop w.turn fuel s ≠ none) ↔ loop w.turn (w.hi-s+1) s ≠ none := by
  constructor
  · intro h
    have hchain : ({w with Inside := fun _ => True} : Walk ρ).Chain s := chain_iff.mpr ⟨h,fun _ _ => trivial⟩
    exact hchain.ends (Nat.lt_succ_self _)
  · intro h
    exact ⟨_,h⟩

/-- The walk comes to the end without a result exactly when no record has one. -/
theorem passes_iff : w.Passes s ↔ loop w.turn (w.hi-s+1) s = some none := by
  have hmono : ∀ n a, loop w.turn n s = some a → loop w.turn (n+1) s = some a := fun n a h => loop_mono h
  constructor
  · intro h
    have hsome : ∃ fuel, loop w.turn fuel s = some none := by
      clear hmono
      induction h with
      | past h => exact ⟨1,loop_end (turn_past h) 0⟩
      | next h hfind _ ih =>
        obtain ⟨fuel,hfuel⟩ := ih
        exact ⟨fuel+1,(loop_next (turn_next h hfind) fuel).trans hfuel⟩
    obtain ⟨fuel,hfuel⟩ := hsome
    have hend := ends_iff.mp ⟨fuel,hfuel ▸ Option.some_ne_none _⟩
    obtain ⟨r,hr⟩ := Option.ne_none_iff_exists'.mp hend
    rw [hr,Fuel.unique hmono hr hfuel]
  · generalize w.hi-s+1 = fuel
    clear hmono
    intro h
    induction fuel generalizing s with
    | zero => cases h
    | succ fuel ih =>
      by_cases hlt : s < w.hi
      · cases hfind : w.find s with
        | some r =>
          rw [loop_end (turn_found hlt hfind)] at h
          cases h
        | none =>
          rw [loop_next (turn_next hlt hfind)] at h
          exact .next hlt hfind (ih h)
      · exact .past (by omega)

/-- There is no way past a record of length 0. -/
theorem Passes.pos (h : w.Passes s) (hlt : s < w.hi) : 0 < w.len s := by
  refine Nat.pos_of_ne_zero fun hzero => ?_
  cases h with
  | past h => exact absurd hlt (Nat.not_lt.mpr h)
  | next _ hfind hp =>
    have hturn := turn_next hlt hfind
    rw [hzero,Nat.add_zero] at hturn hp
    have hwalk := passes_iff.mp hp
    rw [loop_stuck hturn] at hwalk
    cases hwalk

end Walk

/-- A scan of blocks: a turn ends it, or gives the walk of a block, where it starts, and where the scan is after it. -/
structure Blocks (σ δ ρ : Type*) where
  load : σ → Option (δ ⊕ (Walk ρ × ℕ × σ))
  found : σ → ρ → δ

namespace Blocks
variable {σ δ ρ : Type*} (b : Blocks σ δ ρ)

/-- A block is read and walked. -/
def turn (s : σ) : Option (δ ⊕ σ) :=
  match b.load s with
  | none => none
  | some (.inl r) => some (.inl r)
  | some (.inr (w,lo,s')) =>
    match loop w.turn (w.hi-lo+1) lo with
    | none => none
    | some (some r) => some (.inl (b.found s r))
    | some none => some (.inr s')

/-- The places from which blocks are read: up to the first block with a result. -/
inductive Reads : σ → σ → Prop
  | first (s : σ) : Reads s s
  | next {s s' t : σ} {w : Walk ρ} {lo : ℕ} (hs : b.load s = some (.inr (w,lo,s'))) (hp : w.Passes lo) (h : Reads s' t) :
    Reads s t

/-- A record of a block that is looked at. -/
def LooksAt (s : σ) (w : Walk ρ) (p : ℕ) : Prop :=
  ∃ t lo t', Reached b.turn s t ∧ b.load t = some (.inr (w,lo,t')) ∧ w.Meets lo p

/-- Only records inside the blocks are looked at. -/
def StaysInside (s : σ) : Prop := ∀ w p, b.LooksAt s w p → w.Inside p

/-- Every block that is read up to the one with a result is a chain of records. -/
def Sound (s : σ) : Prop :=
  ∀ t, b.Reads s t → b.load t ≠ none ∧ ∀ w lo t', b.load t = some (.inr (w,lo,t')) → w.Chain lo

attribute [local grind =] turn

variable {b} {s : σ}

theorem turn_inr {s' : σ} : b.turn s = some (.inr s') ↔ ∃ w lo, b.load s = some (.inr (w,lo,s')) ∧ w.Passes lo := by
  unfold turn
  constructor
  · intro h
    split at h
    · cases h
    · cases h
    · rename_i w lo t' hload
      split at h <;> cases h
      rename_i hwalk
      exact ⟨w,lo,hload,Walk.passes_iff.mpr hwalk⟩
  · rintro ⟨w,lo,hload,hp⟩
    rw [hload]
    simp only [Walk.passes_iff.mp hp]

theorem reached_iff {t : σ} : Reached b.turn s t ↔ b.Reads s t := by
  constructor
  · intro h
    induction h with
    | refl s => exact .first s
    | next hturn _ ih =>
      obtain ⟨w,lo,hload,hp⟩ := turn_inr.mp hturn
      exact .next hload hp ih
  · intro h
    induction h with
    | first s => exact .refl s
    | next hs hp _ ih => exact .next (turn_inr.mpr ⟨_,_,hs,hp⟩) ih

theorem loop_done {r : δ} (h : b.load s = some (.inl r)) (fuel : ℕ) : loop b.turn (fuel+1) s = some r :=
  loop_end (by rw [turn,h]) fuel

theorem loop_none_load (h : b.load s = none) (fuel : ℕ) : loop b.turn fuel s = none := loop_none (by rw [turn,h]) fuel

/-- The walk of the block decides how the scan goes on. -/
theorem loop_block {w : Walk ρ} {lo : ℕ} {s' : σ} (h : b.load s = some (.inr (w,lo,s'))) (fuel : ℕ) :
    loop b.turn (fuel+1) s =
      match loop w.turn (w.hi-lo+1) lo with
      | none => none
      | some (some r) => some (b.found s r)
      | some none => loop b.turn fuel s' := by
  cases hwalk : loop w.turn (w.hi-lo+1) lo with
  | none => exact loop_none (by simp only [turn,h,hwalk]) (fuel+1)
  | some out =>
    cases out with
    | none => exact loop_next (by simp only [turn,h,hwalk]) fuel
    | some r => exact loop_end (by simp only [turn,h,hwalk]) fuel

/-- A turn has a result where there is one block, whose walk ends. -/
theorem turn_ne_none : b.turn s ≠ none ↔
    b.load s ≠ none ∧ ∀ w lo s', b.load s = some (.inr (w,lo,s')) → ∃ fuel, loop w.turn fuel lo ≠ none := by
  unfold turn
  cases hload : b.load s with
  | none => simp
  | some out =>
    rcases out with r | ⟨w,lo,s'⟩
    · simp
    · have hends := Walk.ends_iff (w := w) (s := lo)
      cases hwalk : loop w.turn (w.hi-lo+1) lo with
      | none => simp [hends,hwalk]
      | some out => cases out <;> simp [hends,hwalk]

theorem Reads.keeps {P : σ → Prop} (hstep : ∀ s w lo s', P s → b.load s = some (.inr (w,lo,s')) → P s') {t : σ}
    (h : b.Reads s t) (hs : P s) : P t := by
  induction h with
  | first s => exact hs
  | next hload _ _ ih => exact ih (hstep _ _ _ _ hs hload)

/-- A scan that makes progress by every block ends, and looks only at records inside the blocks, exactly when they are
chains of records. -/
theorem sound_iff {μ : σ → ℕ}
    (hdown : ∀ t w lo t', b.Reads s t → b.load t = some (.inr (w,lo,t')) → w.Passes lo → μ t' < μ t) :
    ((∃ fuel, loop b.turn fuel s ≠ none) ∧ b.StaysInside s) ↔ b.Sound s := by
  have hends : (∃ fuel, loop b.turn fuel s ≠ none) ↔ ∀ t, Reached b.turn s t → b.turn t ≠ none ∧ ¬False := by
    refine loop_ends_iff (fun _ => False) (μ := μ) (fun t t' ht hturn _ => ?_) fun _ _ h => h.elim
    obtain ⟨w,lo,hload,hp⟩ := turn_inr.mp hturn
    exact hdown t w lo t' (reached_iff.mp ht) hload hp
  rw [hends]
  constructor
  · rintro ⟨hturn,hin⟩ t ht
    have hreached := reached_iff.mpr ht
    obtain ⟨hload,hwalk⟩ := turn_ne_none.mp (hturn t hreached).1
    exact ⟨hload,fun w lo t' h => Walk.chain_iff.mpr ⟨hwalk w lo t' h,fun p hp => hin w p ⟨t,lo,t',hreached,h,hp⟩⟩⟩
  · intro h
    constructor
    · intro t ht
      obtain ⟨hload,hchain⟩ := h t (reached_iff.mp ht)
      exact ⟨turn_ne_none.mpr ⟨hload,fun w lo t' hl => (Walk.chain_iff.mp (hchain w lo t' hl)).1⟩,not_false⟩
    · rintro w p ⟨t,lo,t',ht,hload,hp⟩
      exact (Walk.chain_iff.mp ((h t (reached_iff.mp ht)).2 w lo t' hload)).2 p hp

end Blocks
end Blub.Scan
