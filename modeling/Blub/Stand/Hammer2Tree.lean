import Blub.Lib.Fuel
import Blub.Stand.Hammer2

/-! Trees of HAMMER2 blocks: what makes one well formed, and that a lookup comes to an end and finds the leaf with
the lowest key of a range. -/
namespace Blub.Stand

section Shape
variable (L : H2Layout) (v : H2Volume)

/-- The blockref at place `i` of a block. -/
def H2Volume.refOf (base : Bref) (i : ℕ) : Bref := refAt L v base (v.block base) i

/-- A finite tree: no chain of indirect blocks goes on for ever. -/
inductive H2Volume.Tree : Bref → Prop
  | node {base : Bref} : (∀ i < scanCount L base, (v.refOf L base i).type = .indirect → H2Volume.Tree (v.refOf L base i)) →
    H2Volume.Tree base

def Bref.IsLeaf (b : Bref) : Prop := b.type = .inode ∨ b.type = .data

/-- The number of keys that a blockref is for. The code has `keySpan` for it. -/
def Bref.span (b : Bref) : ℕ := 2^b.keybits

/-- The size of a block. The code has `blocksize` for it. -/
def Bref.bytes (b : Bref) : ℕ := 2^(b.dataOff%64)

/-- The keys of a block and a range have one in common. -/
def Bref.Hits (span : Bref → ℕ) (b : Bref) (keyBeg keyEnd : ℕ) : Prop := keyBeg < b.key+span b ∧ b.key ≤ keyEnd

/-- The blockrefs of a block are in order: they are leaves or indirect blocks, their ranges are ranges of keys and apart
from each other, and those of an indirect block are within its own range. -/
structure KeysOk (span : Bref → ℕ) (base : Bref) : Prop where
  named : base.dataOff ≠ noBase
  types : ∀ i < scanCount L base, (v.refOf L base i).type ≠ .empty →
    (v.refOf L base i).IsLeaf ∨ (v.refOf L base i).type = .indirect
  range : ∀ i < scanCount L base, (v.refOf L base i).type ≠ .empty →
    (v.refOf L base i).key+span (v.refOf L base i) ≤ 2^64
  apart : ∀ i < scanCount L base, ∀ j < scanCount L base, i ≠ j →
    (v.refOf L base i).type ≠ .empty → (v.refOf L base j).type ≠ .empty →
    (v.refOf L base i).key+span (v.refOf L base i) ≤ (v.refOf L base j).key ∨
    (v.refOf L base j).key+span (v.refOf L base j) ≤ (v.refOf L base i).key
  within : base.type = .indirect → ∀ i < scanCount L base, (v.refOf L base i).type ≠ .empty →
    base.key ≤ (v.refOf L base i).key ∧ (v.refOf L base i).key+span (v.refOf L base i) ≤ base.key+span base

/-- A finite tree with its keys in order. -/
inductive H2Volume.KeyTree (span : Bref → ℕ) : Bref → Prop
  | node {base : Bref} : KeysOk L v span base →
    (∀ i < scanCount L base, (v.refOf L base i).type = .indirect → H2Volume.KeyTree span (v.refOf L base i)) →
    H2Volume.KeyTree span base

/-- The keys are counted by a shift of 64 bits, and the block fits into the buffer. -/
structure Bref.Small (b : Bref) : Prop where
  bits : b.keybits < 64
  fits : b.bytes ≤ L.mediaBytes

/-- All blocks of a tree are so. -/
inductive H2Volume.SmallTree : Bref → Prop
  | node {base : Bref} : (base.type = .inode ∨ base.type = .indirect → base.Small L) →
    (∀ i < scanCount L base, (v.refOf L base i).type ≠ .empty → (v.refOf L base i).Small L) →
    (∀ i < scanCount L base, (v.refOf L base i).type = .indirect → H2Volume.SmallTree (v.refOf L base i)) →
    H2Volume.SmallTree base

/-- The leaves below a block. -/
inductive H2Volume.LeafBelow : Bref → Bref → Prop
  | here {base : Bref} {i : ℕ} : i < scanCount L base → (v.refOf L base i).IsLeaf →
    H2Volume.LeafBelow base (v.refOf L base i)
  | down {base b : Bref} {i : ℕ} : i < scanCount L base → (v.refOf L base i).type = .indirect →
    H2Volume.LeafBelow (v.refOf L base i) b → H2Volume.LeafBelow base b

/-- The leaf with the lowest key of those below `base` that have a key of the range. -/
structure LowestLeaf (span : Bref → ℕ) (base : Bref) (keyBeg keyEnd : ℕ) (b : Bref) : Prop where
  below : v.LeafBelow L base b
  hits : b.Hits span keyBeg keyEnd
  lowest : ∀ b', v.LeafBelow L base b' → b'.Hits span keyBeg keyEnd → b.key ≤ b'.key

/-- What a lookup should find. -/
def HitRight (base : Bref) (keyBeg keyEnd : ℕ) : H2Hit → Prop
  | .nothing => ∀ b, v.LeafBelow L base b → ¬ b.Hits keySpan keyBeg keyEnd
  | .found n b data => LowestLeaf L v keySpan base keyBeg keyEnd b ∧ n = blocksize b ∧ data = v.block b
  | .error => False
  | .bad => False

attribute [local grind =] HitRight

end Shape

section Step
variable (L : H2Layout) (v : H2Volume)

/-- The best blockref of a block. -/
def H2Volume.bestOf (base : Bref) (keyBeg keyEnd : ℕ) : Bref := v.best L base keyBeg keyEnd (scanCount L base) 0 noBest

/-- The block is looked through for blockrefs. -/
structure H2Volume.Scans (base : Bref) : Prop where
  named : base.dataOff ≠ noBase
  plain : ¬ (0 < scanCount L base ∧ isDirect L base (v.block base) = true)

/-- After a block that had nothing there are keys of the range left. -/
def Bref.Leaves (b : Bref) (keyEnd : ℕ) : Prop := b.key < nextKey b ∧ nextKey b ≤ keyEnd

/-- What one level of the lookup may come to. -/
inductive VolumeStep (fuel : ℕ) (base : Bref) (keyBeg keyEnd : ℕ) (ret : Bref) : H2Hit → Prop
  | unnamed : base.dataOff = noBase → VolumeStep fuel base keyBeg keyEnd ret .bad
  | direct : base.dataOff ≠ noBase → 0 < scanCount L base ∧ isDirect L base (v.block base) = true →
    VolumeStep fuel base keyBeg keyEnd ret
      (.found L.embeddedBytes {ret with type := .data, key := 0} fun j => v.block base (L.embeddedBytes+j))
  | nothing : v.Scans L base → (v.bestOf L base keyBeg keyEnd).type = .empty → VolumeStep fuel base keyBeg keyEnd ret .nothing
  | leaf : v.Scans L base → (v.bestOf L base keyBeg keyEnd).IsLeaf → 0 ≤ blockInt (v.bestOf L base keyBeg keyEnd) →
    VolumeStep fuel base keyBeg keyEnd ret (.found (blocksize (v.bestOf L base keyBeg keyEnd)) (v.bestOf L base keyBeg keyEnd)
      (v.block (v.bestOf L base keyBeg keyEnd)))
  | error : v.Scans L base → (v.bestOf L base keyBeg keyEnd).IsLeaf → blockInt (v.bestOf L base keyBeg keyEnd) < 0 →
    VolumeStep fuel base keyBeg keyEnd ret .error
  | other : v.Scans L base →
    (v.bestOf L base keyBeg keyEnd).type = .volume ∨ (∃ n, (v.bestOf L base keyBeg keyEnd).type = .other n) →
    VolumeStep fuel base keyBeg keyEnd ret .bad
  | down {hit : H2Hit} : v.Scans L base → (v.bestOf L base keyBeg keyEnd).type = .indirect →
    v.lookup L fuel (v.bestOf L base keyBeg keyEnd) keyBeg keyEnd ret = some hit →
    (hit = .nothing → ¬(v.bestOf L base keyBeg keyEnd).Leaves keyEnd) → VolumeStep fuel base keyBeg keyEnd ret hit
  | again {hit : H2Hit} : v.Scans L base → (v.bestOf L base keyBeg keyEnd).type = .indirect →
    v.lookup L fuel (v.bestOf L base keyBeg keyEnd) keyBeg keyEnd ret = some .nothing →
    (v.bestOf L base keyBeg keyEnd).Leaves keyEnd →
    v.lookup L fuel base (nextKey (v.bestOf L base keyBeg keyEnd)) keyEnd ret = some hit →
    VolumeStep fuel base keyBeg keyEnd ret hit

/-- The sizes of what a lookup loads: the block that is looked through, and the leaf that is found. -/
inductive H2Volume.Loads : Bref → ℕ → ℕ → ℕ → Prop
  | block {base : Bref} {keyBeg keyEnd : ℕ} : base.dataOff ≠ noBase → 0 < scanCount L base → base.type ≠ .volume →
    H2Volume.Loads base keyBeg keyEnd (blocksize base)
  | leaf {base : Bref} {keyBeg keyEnd : ℕ} : v.Scans L base → (v.bestOf L base keyBeg keyEnd).IsLeaf →
    H2Volume.Loads base keyBeg keyEnd (devBsize L (v.bestOf L base keyBeg keyEnd))
  | down {base : Bref} {keyBeg keyEnd n : ℕ} : v.Scans L base → (v.bestOf L base keyBeg keyEnd).type = .indirect →
    H2Volume.Loads (v.bestOf L base keyBeg keyEnd) keyBeg keyEnd n → H2Volume.Loads base keyBeg keyEnd n
  | again {base : Bref} {keyBeg keyEnd fuel n : ℕ} {ret : Bref} : v.Scans L base →
    (v.bestOf L base keyBeg keyEnd).type = .indirect →
    v.lookup L fuel (v.bestOf L base keyBeg keyEnd) keyBeg keyEnd ret = some .nothing →
    (v.bestOf L base keyBeg keyEnd).Leaves keyEnd →
    H2Volume.Loads base (nextKey (v.bestOf L base keyBeg keyEnd)) keyEnd n → H2Volume.Loads base keyBeg keyEnd n

variable {L v} {fuel : ℕ} {base : Bref} {keyBeg keyEnd : ℕ} {ret : Bref} {hit : H2Hit}

/-- A lookup that comes to an end does one of these steps. -/
theorem lookup_step (h : v.lookup L (fuel+1) base keyBeg keyEnd ret = some hit) :
    VolumeStep L v fuel base keyBeg keyEnd ret hit := by
  rw [H2Volume.lookup] at h
  by_cases hname : base.dataOff = noBase
  · rw [if_pos hname] at h
    cases h
    exact .unnamed hname
  by_cases hdir : 0 < scanCount L base ∧ isDirect L base (v.block base) = true
  · rw [if_neg hname,if_pos hdir] at h
    cases h
    exact .direct hname hdir
  rw [if_neg hname,if_neg hdir] at h
  rw [show v.best L base keyBeg keyEnd (scanCount L base) 0 noBest = v.bestOf L base keyBeg keyEnd from rfl] at h
  dsimp only at h
  have hscans : v.Scans L base := ⟨hname,hdir⟩
  have hleaf : (v.bestOf L base keyBeg keyEnd).IsLeaf →
      (if blockInt (v.bestOf L base keyBeg keyEnd) < 0 then some H2Hit.error
        else some (.found (blocksize (v.bestOf L base keyBeg keyEnd)) (v.bestOf L base keyBeg keyEnd)
          (v.block (v.bestOf L base keyBeg keyEnd)))) = some hit → VolumeStep L v fuel base keyBeg keyEnd ret hit := by
    intro ht hl
    split_ifs at hl with hneg
    · cases hl
      exact .error hscans ht hneg
    · cases hl
      exact .leaf hscans ht (not_lt.mp hneg)
  cases ht : (v.bestOf L base keyBeg keyEnd).type with
  | empty =>
    rw [ht] at h
    cases h
    exact .nothing hscans ht
  | inode =>
    rw [ht] at h
    exact hleaf (.inl ht) h
  | data =>
    rw [ht] at h
    exact hleaf (.inr ht) h
  | volume =>
    rw [ht] at h
    cases h
    exact .other hscans (.inl ht)
  | other n =>
    rw [ht] at h
    cases h
    exact .other hscans (.inr ⟨n,ht⟩)
  | indirect =>
    rw [ht] at h
    dsimp only at h
    cases hd : v.lookup L fuel (v.bestOf L base keyBeg keyEnd) keyBeg keyEnd ret with
    | none =>
      rw [hd] at h
      cases h
    | some down =>
      rw [hd] at h
      cases down with
      | nothing =>
        dsimp only at h
        split_ifs at h with hnext
        · exact .again hscans ht hd hnext h
        · cases h
          exact .down hscans ht hd fun _ => hnext
      | found n b data =>
        cases h
        exact .down hscans ht hd fun hc => absurd hc (by intro hc; cases hc)
      | error =>
        cases h
        exact .down hscans ht hd fun hc => absurd hc (by intro hc; cases hc)
      | bad =>
        cases h
        exact .down hscans ht hd fun hc => absurd hc (by intro hc; cases hc)

/-- Each of these steps is one of the lookup. -/
theorem VolumeStep.lookup (h : VolumeStep L v fuel base keyBeg keyEnd ret hit) :
    v.lookup L (fuel+1) base keyBeg keyEnd ret = some hit := by
  rw [H2Volume.lookup]
  cases h with
  | unnamed hname => rw [if_pos hname]
  | direct hname hdir => rw [if_neg hname,if_pos hdir]
  | nothing hs ht =>
    rw [if_neg hs.named,if_neg hs.plain]
    unfold H2Volume.bestOf at ht
    dsimp only
    rw [ht]
  | leaf hs ht hint =>
    rw [if_neg hs.named,if_neg hs.plain]
    unfold H2Volume.bestOf at ht hint ⊢
    dsimp only
    obtain ht | ht := ht <;> rw [ht] <;> exact if_neg (not_lt.mpr hint)
  | error hs ht hint =>
    rw [if_neg hs.named,if_neg hs.plain]
    unfold H2Volume.bestOf at ht hint
    dsimp only
    obtain ht | ht := ht <;> rw [ht] <;> exact if_pos hint
  | other hs ht =>
    rw [if_neg hs.named,if_neg hs.plain]
    unfold H2Volume.bestOf at ht
    dsimp only
    obtain ht | ⟨n,ht⟩ := ht <;> rw [ht]
  | down hs ht hd hn =>
    rw [if_neg hs.named,if_neg hs.plain]
    unfold H2Volume.bestOf at ht hd hn
    dsimp only
    rw [ht]
    dsimp only
    rw [hd]
    cases hit with
    | nothing => exact if_neg (hn rfl)
    | _ => rfl
  | again hs ht hd hn ha =>
    rw [if_neg hs.named,if_neg hs.plain]
    unfold H2Volume.bestOf at ht hd hn ha
    dsimp only
    rw [ht]
    dsimp only
    rw [hd]
    dsimp only
    rw [if_pos (show _ ∧ _ from hn),ha]

theorem leaf_not_indirect {b : Bref} (h : b.IsLeaf) : b.type ≠ .indirect := by
  intro ht
  obtain h | h := h <;> rw [ht] at h <;> cases h

/-- A lookup that goes down finds something there. -/
theorem lookup_below (h : v.lookup L (fuel+1) base keyBeg keyEnd ret = some hit) (hs : v.Scans L base)
    (ht : (v.bestOf L base keyBeg keyEnd).type = .indirect) (hgood : hit ≠ .bad) :
    ∃ down, v.lookup L fuel (v.bestOf L base keyBeg keyEnd) keyBeg keyEnd ret = some down ∧ down ≠ .bad := by
  cases lookup_step h with
  | unnamed hname => exact absurd hname hs.named
  | direct _ hdir => exact absurd hdir hs.plain
  | nothing _ he => rw [ht] at he; cases he
  | leaf _ hl => exact absurd ht (leaf_not_indirect hl)
  | error _ hl => exact absurd ht (leaf_not_indirect hl)
  | other => exact absurd rfl hgood
  | down _ _ hd _ => exact ⟨hit,hd,hgood⟩
  | again _ _ hd => exact ⟨.nothing,hd,by intro hc; cases hc⟩

/-- After a block that had nothing it goes on with the keys that are left. -/
theorem lookup_next (h : v.lookup L (fuel+1) base keyBeg keyEnd ret = some hit) (hs : v.Scans L base)
    (ht : (v.bestOf L base keyBeg keyEnd).type = .indirect)
    (hd : v.lookup L fuel (v.bestOf L base keyBeg keyEnd) keyBeg keyEnd ret = some .nothing)
    (hn : (v.bestOf L base keyBeg keyEnd).Leaves keyEnd) :
    v.lookup L fuel base (nextKey (v.bestOf L base keyBeg keyEnd)) keyEnd ret = some hit := by
  cases lookup_step h with
  | unnamed hname => exact absurd hname hs.named
  | direct _ hdir => exact absurd hdir hs.plain
  | nothing _ he => rw [ht] at he; cases he
  | leaf _ hl => exact absurd ht (leaf_not_indirect hl)
  | error _ hl => exact absurd ht (leaf_not_indirect hl)
  | other _ ho =>
    rw [ht] at ho
    obtain ho | ⟨n,ho⟩ := ho <;> cases ho
  | down _ _ hd' hn' =>
    rw [hd] at hd'
    exact absurd hn (hn' (Option.some.inj hd').symm)
  | again _ _ _ _ ha => exact ha

/-- More fuel does not change what the volume holds. -/
theorem lookup_mono (h : v.lookup L fuel base keyBeg keyEnd ret = some hit) :
    v.lookup L (fuel+1) base keyBeg keyEnd ret = some hit := by
  induction fuel generalizing base keyBeg hit with
  | zero => cases h
  | succ fuel ih =>
    apply VolumeStep.lookup
    cases lookup_step h with
    | unnamed hname => exact .unnamed hname
    | direct hname hdir => exact .direct hname hdir
    | nothing hs ht => exact .nothing hs ht
    | leaf hs ht hint => exact .leaf hs ht hint
    | error hs ht hneg => exact .error hs ht hneg
    | other hs ht => exact .other hs ht
    | down hs ht hd hn => exact .down hs ht (ih hd) hn
    | again hs ht hd hn ha => exact .again hs ht (ih hd) hn (ih ha)

theorem lookup_unique {m : ℕ} {hit' : H2Hit} (h : v.lookup L fuel base keyBeg keyEnd ret = some hit)
    (h' : v.lookup L m base keyBeg keyEnd ret = some hit') : hit = hit' :=
  Fuel.unique (f := fun n => v.lookup L n base keyBeg keyEnd ret) (fun _ _ => lookup_mono) h h'

end Step

section Best
variable {L : H2Layout} {v : H2Volume} {base b : Bref} {keyBeg keyEnd : ℕ}

theorem keySpan_pos (b : Bref) : 0 < keySpan b := Nat.two_pow_pos _

theorem keySpan_le (b : Bref) : keySpan b ≤ 2^63 := Nat.pow_le_pow_right (by norm_num) (by omega)

theorem Bref.IsLeaf.nonempty (h : b.IsLeaf) : b.type ≠ .empty := by
  intro he
  obtain h | h := h <;> rw [he] at h <;> cases h

theorem indirect_nonempty (ht : b.type = .indirect) : b.type ≠ .empty := by
  intro he
  rw [ht] at he
  cases he

/-- The best of the first `n` blockrefs. -/
def BestOf (L : H2Layout) (v : H2Volume) (base : Bref) (keyBeg keyEnd n : ℕ) (b : Bref) : Prop :=
  (b = noBest ∧ ∀ j < n, (v.refOf L base j).type ≠ .empty → ¬ (v.refOf L base j).Hits keySpan keyBeg keyEnd) ∨
  (b.type ≠ .empty ∧ b.Hits keySpan keyBeg keyEnd ∧ (∃ j < n, v.refOf L base j = b) ∧
    ∀ j < n, (v.refOf L base j).type ≠ .empty → (v.refOf L base j).Hits keySpan keyBeg keyEnd → b.key ≤ (v.refOf L base j).key)

theorem bestStep_best {n : ℕ} {best : Bref} (h : BestOf L v base keyBeg keyEnd n best)
    (hrange : (v.refOf L base n).type ≠ .empty → (v.refOf L base n).key+keySpan (v.refOf L base n) ≤ 2^64) :
    BestOf L v base keyBeg keyEnd (n+1) (bestStep keyBeg keyEnd best (v.refOf L base n)) := by
  have hpos := keySpan_pos (v.refOf L base n)
  have keep : ((v.refOf L base n).type ≠ .empty → (v.refOf L base n).Hits keySpan keyBeg keyEnd →
      best ≠ noBest ∧ best.key ≤ (v.refOf L base n).key) → BestOf L v base keyBeg keyEnd (n+1) best := by
    intro hn
    obtain ⟨rfl,hno⟩ | ⟨ht,hh,⟨j,hj,hb⟩,hlow⟩ := h
    · refine .inl ⟨rfl,fun j hj hne hits => ?_⟩
      obtain hj | rfl := Nat.lt_succ_iff_lt_or_eq.mp hj
      · exact hno j hj hne hits
      · exact (hn hne hits).1 rfl
    · refine .inr ⟨ht,hh,⟨j,by omega,hb⟩,fun j hj hne hits => ?_⟩
      obtain hj | rfl := Nat.lt_succ_iff_lt_or_eq.mp hj
      · exact hlow j hj hne hits
      · exact (hn hne hits).2
  unfold bestStep
  split_ifs with hempty hkey hhit
  · exact keep fun hne => absurd hempty hne
  · refine keep fun hne _ => ⟨fun hno => ?_,hkey.le⟩
    have hr := hrange hne
    rw [hno] at hkey
    change 2^64-1 < _ at hkey
    omega
  · -- a blockref with a key of the range that is not behind the best so far
    have hr := hrange hempty
    rw [Nat.mod_eq_of_lt (by omega)] at hhit
    refine .inr ⟨hempty,⟨by omega,hhit.2⟩,⟨n,Nat.lt_succ_self n,rfl⟩,fun j hj hne hits => ?_⟩
    obtain hj | rfl := Nat.lt_succ_iff_lt_or_eq.mp hj
    · obtain ⟨-,hno⟩ | ⟨-,-,-,hlow⟩ := h
      · exact absurd hits (hno j hj hne)
      · exact (not_lt.mp hkey).trans (hlow j hj hne hits)
    · exact le_rfl
  · refine keep fun hne hits => ?_
    have hr := hrange hne
    rw [Nat.mod_eq_of_lt (by omega)] at hhit
    exact absurd ⟨by have := hits.1; omega,hits.2⟩ hhit

theorem best_spec (hrange : ∀ i < scanCount L base, (v.refOf L base i).type ≠ .empty →
      (v.refOf L base i).key+keySpan (v.refOf L base i) ≤ 2^64) (k i : ℕ) (best : Bref) (hk : i+k = scanCount L base)
    (h : BestOf L v base keyBeg keyEnd i best) :
    BestOf L v base keyBeg keyEnd (scanCount L base) (v.best L base keyBeg keyEnd k i best) := by
  induction k generalizing i best with
  | zero =>
    rw [← hk]
    exact h
  | succ k ih => exact ih (i+1) _ (by omega) (bestStep_best h (hrange i (by omega)))

end Best

section Lookup
variable {L : H2Layout} {v : H2Volume} {span : Bref → ℕ} {base b : Bref} {keyBeg keyEnd : ℕ}

theorem H2Volume.KeyTree.keys (h : v.KeyTree L span base) : KeysOk L v span base := by
  cases h with
  | node hk => exact hk

theorem H2Volume.KeyTree.sub (h : v.KeyTree L span base) {i : ℕ} (hi : i < scanCount L base)
    (ht : (v.refOf L base i).type = .indirect) : v.KeyTree L span (v.refOf L base i) := by
  cases h with
  | node _ hs => exact hs i hi ht

/-- A well-formed tree is finite. -/
theorem H2Volume.KeyTree.tree (h : v.KeyTree L span base) : v.Tree L base := by
  induction h with
  | node _ _ ih => exact .node ih

/-- The leaves below a block are below one of its blockrefs, within the range of that. -/
theorem leaf_in_ref (h : v.KeyTree L span base) (hb : v.LeafBelow L base b) :
    ∃ i < scanCount L base, (v.refOf L base i).type ≠ .empty ∧ (v.refOf L base i).key ≤ b.key ∧
      b.key+span b ≤ (v.refOf L base i).key+span (v.refOf L base i) ∧
      (v.refOf L base i = b ∨ (v.refOf L base i).type = .indirect ∧ v.LeafBelow L (v.refOf L base i) b) := by
  induction hb with
  | here hi hl => exact ⟨_,hi,hl.nonempty,le_rfl,le_rfl,.inl rfl⟩
  | @down base b i hi ht hb ih =>
    obtain ⟨j,hj,hne,hlo,hhi,-⟩ := ih (h.sub hi ht)
    obtain ⟨h₁,h₂⟩ := (h.sub hi ht).keys.within ht j hj hne
    refine ⟨i,hi,?_,h₁.trans hlo,hhi.trans h₂,.inr ⟨ht,hb⟩⟩
    rw [ht]
    exact nofun

theorem leaf_type (hb : v.LeafBelow L base b) : b.IsLeaf := by
  induction hb with
  | here _ hl => exact hl
  | down _ _ _ ih => exact ih

/-- The range behind a block that had nothing. -/
theorem nextKey_eq (hr : b.key+keySpan b ≤ 2^64) (hnext : b.key < nextKey b) : nextKey b = b.key+keySpan b := by
  have hpos := keySpan_pos b
  unfold nextKey at hnext ⊢
  obtain hlt | heq := Nat.lt_or_eq_of_le hr
  · exact Nat.mod_eq_of_lt hlt
  · rw [heq,Nat.mod_self] at hnext
    omega

/-- The scan of a block of a well-formed tree. -/
theorem H2Volume.KeyTree.best (h : v.KeyTree L keySpan base) (keyBeg keyEnd : ℕ) :
    BestOf L v base keyBeg keyEnd (scanCount L base) (v.best L base keyBeg keyEnd (scanCount L base) 0 noBest) :=
  best_spec h.keys.range _ 0 noBest (Nat.zero_add _) (.inl ⟨rfl,fun _ hj => absurd hj (Nat.not_lt_zero _)⟩)

/-- A leaf with a key of the range lies in the best block, or behind it. -/
theorem leaf_behind {i : ℕ} (h : v.KeyTree L keySpan base) (hi : i < scanCount L base) (hne : (v.refOf L base i).type ≠ .empty)
    (hlow : ∀ j < scanCount L base, (v.refOf L base j).type ≠ .empty → (v.refOf L base j).Hits keySpan keyBeg keyEnd →
      (v.refOf L base i).key ≤ (v.refOf L base j).key)
    (hb : v.LeafBelow L base b) (hits : b.Hits keySpan keyBeg keyEnd) :
    (v.refOf L base i).key+keySpan (v.refOf L base i) ≤ b.key ∨ v.refOf L base i = b ∨
      (v.refOf L base i).type = .indirect ∧ v.LeafBelow L (v.refOf L base i) b := by
  obtain ⟨j,hj,hnej,hlo,hhi,hin⟩ := leaf_in_ref h hb
  have hjits : (v.refOf L base j).Hits keySpan keyBeg keyEnd := ⟨hits.1.trans_le hhi,hlo.trans hits.2⟩
  by_cases hij : i = j
  · subst hij
    exact .inr hin
  · have hkey := hlow j hj hnej hjits
    have hpos := keySpan_pos (v.refOf L base j)
    obtain hap | hap := h.keys.apart i hi j hj hij hne hnej
    · exact .inl (hap.trans hlo)
    · omega

theorem isDirect_indirect (ht : base.type = .indirect) (media : ℕ → UInt8) : isDirect L base media = false := by
  unfold isDirect
  rw [ht]
  rfl

theorem not_direct (ht : base.type = .indirect) : ¬ (0 < scanCount L base ∧ isDirect L base (v.block base) = true) := by
  rw [isDirect_indirect ht]
  intro hc
  cases hc.2

/-- The best blockref is a leaf. -/
theorem best_leaf {i : ℕ} (h : v.KeyTree L keySpan base) (hi : i < scanCount L base) (hl : (v.refOf L base i).IsLeaf)
    (hits : (v.refOf L base i).Hits keySpan keyBeg keyEnd)
    (hlow : ∀ j < scanCount L base, (v.refOf L base j).type ≠ .empty → (v.refOf L base j).Hits keySpan keyBeg keyEnd →
      (v.refOf L base i).key ≤ (v.refOf L base j).key) : LowestLeaf L v keySpan base keyBeg keyEnd (v.refOf L base i) := by
  refine ⟨.here hi hl,hits,fun b hb hits' => ?_⟩
  obtain ⟨j,hj,hne,hlo,hhi,-⟩ := leaf_in_ref h hb
  exact (hlow j hj hne ⟨hits'.1.trans_le hhi,hlo.trans hits'.2⟩).trans hlo

/-- The best blockref is an indirect block with a leaf of the range below it. -/
theorem best_down {i : ℕ} (h : v.KeyTree L keySpan base) (hi : i < scanCount L base) (ht : (v.refOf L base i).type = .indirect)
    (hlow : ∀ j < scanCount L base, (v.refOf L base j).type ≠ .empty → (v.refOf L base j).Hits keySpan keyBeg keyEnd →
      (v.refOf L base i).key ≤ (v.refOf L base j).key)
    (hb : LowestLeaf L v keySpan (v.refOf L base i) keyBeg keyEnd b) : LowestLeaf L v keySpan base keyBeg keyEnd b := by
  have hne : (v.refOf L base i).type ≠ .empty := by
    rw [ht]
    exact nofun
  refine ⟨.down hi ht hb.below,hb.hits,fun b' hb' hits' => ?_⟩
  obtain hbehind | hself | ⟨-,hin⟩ := leaf_behind h hi hne hlow hb' hits'
  · -- the leaf found is within the best block, the other one is behind it
    obtain ⟨j,hj,hnej,hlo,hhi,-⟩ := leaf_in_ref (h.sub hi ht) hb.below
    have hwithin := (h.sub hi ht).keys.within ht j hj hnej
    have hpos := keySpan_pos b
    omega
  · have hleaf : (v.refOf L base i).IsLeaf := by
      rw [hself]
      exact leaf_type hb'
    obtain hl | hl := hleaf <;> rw [ht] at hl <;> cases hl
  · exact hb.lowest b' hin hits'

/-- An indirect block without a leaf of the range takes none away. -/
theorem best_skip {i : ℕ} (h : v.KeyTree L keySpan base) (hi : i < scanCount L base) (ht : (v.refOf L base i).type = .indirect)
    (hlow : ∀ j < scanCount L base, (v.refOf L base j).type ≠ .empty → (v.refOf L base j).Hits keySpan keyBeg keyEnd →
      (v.refOf L base i).key ≤ (v.refOf L base j).key)
    (hno : ∀ b, v.LeafBelow L (v.refOf L base i) b → ¬ b.Hits keySpan keyBeg keyEnd)
    (hb : v.LeafBelow L base b) (hits : b.Hits keySpan keyBeg keyEnd) :
    (v.refOf L base i).key+keySpan (v.refOf L base i) ≤ b.key := by
  have hne : (v.refOf L base i).type ≠ .empty := by
    rw [ht]
    exact nofun
  obtain hbehind | hself | ⟨-,hin⟩ := leaf_behind h hi hne hlow hb hits
  · exact hbehind
  · have hleaf : (v.refOf L base i).IsLeaf := by
      rw [hself]
      exact leaf_type hb
    obtain hl | hl := hleaf <;> rw [ht] at hl <;> cases hl
  · exact absurd hits (hno b hin)

/-- The keys behind an indirect block without a leaf of the range are the keys of the range that are left. -/
theorem hits_next {i : ℕ} (h : v.KeyTree L keySpan base) (hi : i < scanCount L base)
    (ht : (v.refOf L base i).type = .indirect) (hhits : (v.refOf L base i).Hits keySpan keyBeg keyEnd)
    (hlow : ∀ j < scanCount L base, (v.refOf L base j).type ≠ .empty → (v.refOf L base j).Hits keySpan keyBeg keyEnd →
      (v.refOf L base i).key ≤ (v.refOf L base j).key)
    (hno : ∀ b, v.LeafBelow L (v.refOf L base i) b → ¬ b.Hits keySpan keyBeg keyEnd)
    (hkey : nextKey (v.refOf L base i) = (v.refOf L base i).key+keySpan (v.refOf L base i)) (hb : v.LeafBelow L base b) :
    b.Hits keySpan (nextKey (v.refOf L base i)) keyEnd ↔ b.Hits keySpan keyBeg keyEnd := by
  have hpos := keySpan_pos b
  have hbeg := hhits.1
  refine ⟨fun hits => ⟨?_,hits.2⟩,fun hits => ⟨?_,hits.2⟩⟩
  · have hnext := hits.1
    omega
  · have := best_skip h hi ht hlow hno hb hits
    omega

/-- No leaf of the range is left where the search does not start again. -/
theorem nothing_left {i : ℕ} (h : v.KeyTree L keySpan base) (hi : i < scanCount L base)
    (ht : (v.refOf L base i).type = .indirect)
    (hlow : ∀ j < scanCount L base, (v.refOf L base j).type ≠ .empty → (v.refOf L base j).Hits keySpan keyBeg keyEnd →
      (v.refOf L base i).key ≤ (v.refOf L base j).key)
    (hno : ∀ b, v.LeafBelow L (v.refOf L base i) b → ¬ b.Hits keySpan keyBeg keyEnd)
    (hnext : ¬(v.refOf L base i).Leaves keyEnd) (hb : v.LeafBelow L base b) : ¬ b.Hits keySpan keyBeg keyEnd := by
  intro hits
  have hbehind := best_skip h hi ht hlow hno hb hits
  obtain ⟨j,hj,hnej,hlo,hhi,-⟩ := leaf_in_ref h hb
  have hrj := h.keys.range j hj hnej
  have hpos := keySpan_pos (v.refOf L base i)
  have hposb := keySpan_pos b
  have hkey : nextKey (v.refOf L base i) = (v.refOf L base i).key+keySpan (v.refOf L base i) := Nat.mod_eq_of_lt (by omega)
  have hend := hits.2
  exact hnext ⟨by omega,by omega⟩

/-- A lookup finds the leaf with the lowest key of the range, if the sizes of the leaves are not negative. -/
theorem lookup_right (fuel : ℕ) {ret : Bref} {hit : H2Hit} (h : v.KeyTree L keySpan base)
    (hint : ∀ b, v.LeafBelow L base b → 0 ≤ blockInt b)
    (hplain : ¬ (0 < scanCount L base ∧ isDirect L base (v.block base) = true))
    (hl : v.lookup L fuel base keyBeg keyEnd ret = some hit) : HitRight L v base keyBeg keyEnd hit := by
  induction fuel generalizing base keyBeg hit with
  | zero => cases hl
  | succ fuel ih =>
    obtain ⟨hbest,hno⟩ | ⟨hne,hhits,⟨i,hi,hbest⟩,hlow⟩ := h.best keyBeg keyEnd
    · -- no blockref has a key of the range
      have hnone : ∀ b, v.LeafBelow L base b → ¬ b.Hits keySpan keyBeg keyEnd := by
        intro b hb hits
        obtain ⟨j,hj,hne,hlo,hhi,-⟩ := leaf_in_ref h hb
        exact hno j hj hne ⟨hits.1.trans_le hhi,hlo.trans hits.2⟩
      have hempty : (v.bestOf L base keyBeg keyEnd).type = .empty := congrArg Bref.type hbest
      cases lookup_step hl with
      | unnamed hname => exact absurd hname h.keys.named
      | direct _ hdir => exact absurd hdir hplain
      | nothing => exact hnone
      | leaf _ ht => exact absurd hempty ht.nonempty
      | error _ ht => exact absurd hempty ht.nonempty
      | other _ ht =>
        rw [hempty] at ht
        obtain ht | ⟨n,ht⟩ := ht <;> cases ht
      | down _ ht => rw [hempty] at ht; cases ht
      | again _ ht => rw [hempty] at ht; cases ht
    · change v.refOf L base i = v.bestOf L base keyBeg keyEnd at hbest
      rw [← H2Volume.bestOf,← hbest] at hne hhits hlow
      have htypes := h.keys.types i hi hne
      have hstep := lookup_step hl
      cases hstep with
      | unnamed hname => exact absurd hname h.keys.named
      | direct _ hdir => exact absurd hdir hplain
      | nothing _ ht => rw [← hbest] at ht; exact absurd ht hne
      | leaf _ ht =>
        rw [← hbest] at ht ⊢
        exact ⟨best_leaf h hi ht hhits hlow,rfl,rfl⟩
      | error _ ht hneg =>
        rw [← hbest] at ht hneg
        exact absurd hneg (not_lt.mpr (hint _ (.here hi ht)))
      | other _ ht =>
        rw [← hbest] at ht
        obtain (hleaf | hleaf) | hind := htypes
        · rw [hleaf] at ht
          obtain ht | ⟨n,ht⟩ := ht <;> cases ht
        · rw [hleaf] at ht
          obtain ht | ⟨n,ht⟩ := ht <;> cases ht
        · rw [hind] at ht
          obtain ht | ⟨n,ht⟩ := ht <;> cases ht
      | down _ ht hd hn =>
        rw [← hbest] at ht hd hn
        have hright := ih (h.sub hi ht) (fun b hb => hint b (.down hi ht hb)) (not_direct ht) hd
        cases hit with
        | bad => exact hright.elim
        | error => exact hright.elim
        | nothing => exact fun b hb => nothing_left h hi ht hlow hright (hn rfl) hb
        | found n b data => exact ⟨best_down h hi ht hlow hright.1,hright.2⟩
      | again _ ht hd hn ha =>
        rw [← hbest] at ht hd hn ha
        have hright := ih (h.sub hi ht) (fun b hb => hint b (.down hi ht hb)) (not_direct ht) hd
        have hkey := nextKey_eq (h.keys.range i hi hne) hn.1
        have hiff := fun b hb => hits_next (b := b) h hi ht hhits hlow hright hkey hb
        have hagain := ih h hint hplain ha
        cases hit with
        | bad => exact hagain.elim
        | error => exact hagain.elim
        | nothing => exact fun b hb hits => hagain b hb ((hiff b hb).mpr hits)
        | found n b data =>
          obtain ⟨hlowest,hrest⟩ := hagain
          exact ⟨⟨hlowest.below,(hiff b hlowest.below).mp hlowest.hits,
            fun b' hb' hits' => hlowest.lowest b' hb' ((hiff b' hb').mpr hits')⟩,hrest⟩

/-- Without any order of the keys, the best blockref still has a key of the range, as the code computes it. -/
theorem best_in_range (L : H2Layout) (v : H2Volume) (base : Bref) (keyBeg keyEnd k i : ℕ) (best : Bref) (hk : i+k = scanCount L base)
    (hb : best.type = .empty ∨ (keyBeg ≤ (best.key+keySpan best-1)%2^64 ∧ best.key ≤ keyEnd ∧
      ∃ j < scanCount L base, v.refOf L base j = best)) :
    let b := v.best L base keyBeg keyEnd k i best
    b.type = .empty ∨ (keyBeg ≤ (b.key+keySpan b-1)%2^64 ∧ b.key ≤ keyEnd ∧ ∃ j < scanCount L base, v.refOf L base j = b) := by
  induction k generalizing i best with
  | zero => exact hb
  | succ k ih =>
    refine ih (i+1) _ (by omega) ?_
    unfold bestStep
    split_ifs with _ _ hhit
    · exact hb
    · exact hb
    · exact .inr ⟨hhit.1,hhit.2,i,by omega,rfl⟩
    · exact hb

/-- Each time the scan starts again, the range has become smaller. -/
theorem nextKey_gt (hend : keyEnd < 2^64) (hbeg : keyBeg ≤ (b.key+keySpan b-1)%2^64) (hkey : b.key ≤ keyEnd)
    (hnext : b.key < nextKey b) : keyBeg < nextKey b := by
  have hpos := keySpan_pos b
  have hle := keySpan_le b
  unfold nextKey at *
  omega

/-- On a finite tree a lookup comes to an end. -/
theorem lookup_total (h : v.Tree L base) : ∀ᶠ fuel in Filter.atTop, ∀ keyBeg keyEnd ret, keyEnd < 2^64 →
    ∃ hit, v.lookup L fuel base keyBeg keyEnd ret = some hit := by
  induction h with
  | @node base _ ih =>
    have hall : ∀ᶠ fuel in Filter.atTop, ∀ i ∈ Finset.range (scanCount L base), (v.refOf L base i).type = .indirect →
        ∀ keyBeg keyEnd ret, keyEnd < 2^64 → ∃ hit, v.lookup L fuel (v.refOf L base i) keyBeg keyEnd ret = some hit := by
      refine (Filter.eventually_all_finset _).mpr fun i hi => ?_
      by_cases ht : (v.refOf L base i).type = .indirect
      · exact (ih i (Finset.mem_range.mp hi) ht).mono fun _ hf _ => hf
      · exact Filter.Eventually.of_forall fun _ hc => absurd hc ht
    obtain ⟨M,hM⟩ := Filter.eventually_atTop.mp hall
    -- the induction is on what is left of the range
    have hrun : ∀ m fuel keyBeg keyEnd ret, M+m < fuel → keyEnd < 2^64 → keyEnd+1-keyBeg ≤ m →
        ∃ hit, v.lookup L fuel base keyBeg keyEnd ret = some hit := by
      intro m
      induction m using Nat.strong_induction_on with
      | _ m ihm =>
        intro fuel keyBeg keyEnd ret hf hend hm
        cases fuel with
        | zero => omega
        | succ fuel =>
          rw [H2Volume.lookup]
          split_ifs
          · exact ⟨_,rfl⟩
          · exact ⟨_,rfl⟩
          dsimp only
          have hbest := best_in_range L v base keyBeg keyEnd
            (scanCount L base) 0 noBest (Nat.zero_add _) (.inl rfl)
          dsimp only at hbest
          generalize v.best L base keyBeg keyEnd (scanCount L base) 0 noBest = best at hbest ⊢
          cases ht : best.type with
          | indirect =>
            obtain he | ⟨hbeg,hkey,i,hi,rfl⟩ := hbest
            · rw [ht] at he
              cases he
            obtain ⟨down,hd⟩ := hM fuel (by omega) i (Finset.mem_range.mpr hi) ht keyBeg keyEnd ret hend
            dsimp only
            rw [hd]
            cases down with
            | nothing =>
              dsimp only
              split_ifs with hnext
              · have hgt := nextKey_gt hend hbeg hkey hnext.1
                exact ihm (keyEnd+1-nextKey (v.refOf L base i)) (by omega) fuel _ keyEnd ret (by omega) hend le_rfl
              · exact ⟨_,rfl⟩
            | _ => exact ⟨_,rfl⟩
          | inode =>
            dsimp only
            split_ifs <;> exact ⟨_,rfl⟩
          | data =>
            dsimp only
            split_ifs <;> exact ⟨_,rfl⟩
          | _ => exact ⟨_,rfl⟩
    refine Filter.eventually_atTop.mpr ⟨M+2^64+1,fun fuel hf keyBeg keyEnd ret hend => ?_⟩
    exact hrun (2^64) fuel keyBeg keyEnd ret (by omega) hend (by omega)

end Lookup

end Blub.Stand
