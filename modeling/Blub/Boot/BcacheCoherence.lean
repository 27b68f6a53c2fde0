import Blub.Boot.Bcache
import Blub.Lib.Trace

/-! Which blocks the cache holds, and when reads through it equal reads of the device. -/
namespace Blub.Boot
open Blub.Trace

section Slots
variable {β : Type*}

/-- Everything about the cache that requests leave alone. -/
structure SameShape (s s' : Bcache β) : Prop where
  nblks : s'.nblks = s.nblks
  blksize : s'.blksize = s.blksize
  active : s'.active = s.active
  unit : s'.unit = s.unit

theorem SameShape.refl (s : Bcache β) : SameShape s s := ⟨rfl,rfl,rfl,rfl⟩

theorem SameShape.trans {s₁ s₂ s₃ : Bcache β} (h : SameShape s₁ s₂) (h' : SameShape s₂ s₃) :
    SameShape s₁ s₃ :=
  ⟨h'.nblks.trans h.nblks,h'.blksize.trans h.blksize,h'.active.trans h.active,h'.unit.trans h.unit⟩

/-- Slots hold what the store holds, except for the blocks in `stale`, which are about to be
inserted anew. A block is in at most one slot besides slot `0`, and no stale block is in slot `0`,
because the search of `bcache_insert` passes that slot over. -/
structure Coherent (s : Bcache β) (store : ℤ → β) (stale : ℤ → Prop) : Prop where
  holds : ∀ i < s.nblks, (s.ctl i).bcBlkno ≠ -1 → ¬ stale (s.ctl i).bcBlkno →
    s.data i = store (s.ctl i).bcBlkno
  front : ∀ b, stale b → (s.ctl 0).bcBlkno ≠ b
  unique : ∀ i j, 0 < i → i < s.nblks → 0 < j → j < s.nblks → (s.ctl i).bcBlkno ≠ -1 →
    (s.ctl i).bcBlkno = (s.ctl j).bcBlkno → i = j

theorem insertScan_cases (ctl : ℕ → BcacheCtl) (b : ℤ) (k i cand : ℕ) (oc : ℤ) :
    (i ≤ insertScan ctl b k i cand oc ∧ insertScan ctl b k i cand oc < i+k ∧
      (ctl (insertScan ctl b k i cand oc)).bcBlkno = b) ∨
    (∀ j, i ≤ j → j < i+k → (ctl j).bcBlkno ≠ b) ∧
      (insertScan ctl b k i cand oc = cand ∨ i ≤ insertScan ctl b k i cand oc ∧
        insertScan ctl b k i cand oc < i+k) := by
  induction k generalizing i cand oc with
  | zero =>
    right
    exact ⟨fun j h₁ h₂ => absurd h₂ (by omega),Or.inl rfl⟩
  | succ k ih =>
    unfold insertScan
    split_ifs with h₁ h₂
    · left
      exact ⟨le_rfl,by omega,h₁⟩
    · cases ih (i+1) i (ctl i).bcCount with
      | inl h =>
        left
        exact ⟨by omega,by omega,h.2.2⟩
      | inr h =>
        right
        refine ⟨?_,Or.inr (by omega)⟩
        intro j hj hk
        by_cases hij : j = i
        · rwa [hij]
        · exact h.1 j (by omega) (by omega)
    · cases ih (i+1) cand oc with
      | inl h =>
        left
        exact ⟨by omega,by omega,h.2.2⟩
      | inr h =>
        right
        refine ⟨?_,by omega⟩
        intro j hj hk
        by_cases hij : j = i
        · rwa [hij]
        · exact h.1 j (by omega) (by omega)

section Insert
variable {s : Bcache β} {store : ℤ → β} {stale : ℤ → Prop} (h : Coherent s store stale)
  (hn : 0 < s.nblks)
include hn

theorem insertCand_lt (b : ℤ) : insertCand s b < s.nblks := by
  have := insertScan_cases s.ctl b (s.nblks-1) 1 0 (s.ctl 0).bcCount
  simp only [insertCand]
  omega

include h

/-- A block that has a slot besides slot `0` is inserted there. -/
theorem insertCand_eq {b : ℤ} (hb : b ≠ -1) {j : ℕ} (hj : 0 < j) (hjn : j < s.nblks)
    (he : (s.ctl j).bcBlkno = b) : insertCand s b = j := by
  cases insertScan_cases s.ctl b (s.nblks-1) 1 0 (s.ctl 0).bcCount with
  | inl hc =>
    obtain ⟨h₁,h₂,h₃⟩ := hc
    apply h.unique _ _ (by simp only [insertCand]; omega)
      (by simp only [insertCand]; omega) hj hjn
    · simp only [insertCand]
      rwa [h₃]
    · simp only [insertCand]
      rw [h₃,he]
  | inr hc => exact absurd he (hc.1 j (by omega) (by omega))

theorem bcacheInsert_coherent (clock : ℕ → ℤ) {b : ℤ} (hb : b ≠ -1) {buf : β} (hbuf : buf = store b) :
    Coherent (bcacheInsert clock s buf b) store (fun x => stale x ∧ x ≠ b) := by
  have hlt := insertCand_lt hn b
  refine ⟨?_,?_,?_⟩
  · intro i hi hne hst
    by_cases hc : i = insertCand s b
    · simp [bcacheInsert,hc,hbuf]
    · simp only [bcacheInsert,Function.update_of_ne hc] at hne hst hi ⊢
      apply h.holds i hi hne
      intro hs
      have hib : (s.ctl i).bcBlkno = b := by
        by_contra hx
        exact hst ⟨hs,hx⟩
      cases i with
      | zero => exact h.front b (hib ▸ hs) hib
      | succ i => exact hc (insertCand_eq h hn hb (by omega) hi hib).symm
  · intro x hx
    by_cases hc : 0 = insertCand s b
    · simpa [bcacheInsert,← hc] using hx.2.symm
    · simpa only [bcacheInsert,Function.update_of_ne hc] using h.front x hx.1
  · intro i j hi hin hj hjn hne he
    simp only [bcacheInsert] at hin hjn hne he ⊢
    by_cases hci : i = insertCand s b
    · by_cases hcj : j = insertCand s b
      · rw [hci,hcj]
      · simp only [Function.update_of_ne hcj] at he
        rw [hci,Function.update_self] at he
        rw [hci,insertCand_eq h hn hb hj hjn he.symm]
    · by_cases hcj : j = insertCand s b
      · simp only [Function.update_of_ne hci] at he
        rw [hcj,Function.update_self] at he
        rw [hcj,insertCand_eq h hn hb hi hin he]
      · simp only [Function.update_of_ne hci,Function.update_of_ne hcj] at he hne
        exact h.unique i j hi hin hj hjn hne he

end Insert

theorem insertAll_shape (clock : ℕ → ℤ) (s : Bcache β) (buf : ℕ → β) (off : ℕ) (blk : ℤ) (n : ℕ) :
    SameShape s (insertAll clock s buf off blk n) := by
  induction n with
  | zero => exact SameShape.refl s
  | succ n ih =>
    simp only [insertAll,List.range_succ,List.foldl_append,List.foldl_cons,List.foldl_nil] at ih ⊢
    exact ih.trans ⟨rfl,rfl,rfl,rfl⟩

theorem insertAll_coherent (clock : ℕ → ℤ) {s : Bcache β} {store : ℤ → β} {stale : ℤ → Prop}
    (h : Coherent s store stale) (hn : 0 < s.nblks) (buf : ℕ → β) (off : ℕ) (blk : ℤ) (hb : 0 ≤ blk)
    (n : ℕ) (hbuf : ∀ j < n, buf (off+j) = store (blk+j)) :
    Coherent (insertAll clock s buf off blk n) store (fun x => stale x ∧ ¬ (blk ≤ x ∧ x < blk+n)) := by
  induction n with
  | zero =>
    have : (fun x => stale x ∧ ¬ (blk ≤ x ∧ x < blk+(0 : ℕ))) = stale := by
      funext x
      simp only [eq_iff_iff]
      constructor
      · exact fun hx => hx.1
      · exact fun hx => ⟨hx,by omega⟩
    rw [this]
    exact h
  | succ n ih =>
    have hprev := ih (fun j hj => hbuf j (by omega))
    have hshape := insertAll_shape clock s buf off blk n
    have hlast := bcacheInsert_coherent hprev (by rw [hshape.nblks]; exact hn) clock
      (show blk+(n : ℤ) ≠ -1 by omega) (hbuf n (by omega))
    have hst : (fun x => stale x ∧ ¬ (blk ≤ x ∧ x < blk+(n+1 : ℕ))) =
        fun x => (stale x ∧ ¬ (blk ≤ x ∧ x < blk+n)) ∧ x ≠ blk+n := by
      funext x
      simp only [eq_iff_iff]
      constructor
      · exact fun hx => ⟨⟨hx.1,by omega⟩,by omega⟩
      · exact fun hx => ⟨hx.1.1,by omega⟩
    rw [hst]
    simpa only [insertAll,List.range_succ,List.foldl_append,List.foldl_cons,List.foldl_nil] using hlast

theorem find?_range_zero (n : ℕ) (p : ℕ → Bool) (hn : 0 < n) (hp : p 0 = true) :
    (List.range n).find? p = some 0 := by
  rw [List.find?_range_eq_some]
  exact ⟨hp,by simpa using hn,fun j hj => absurd hj (by omega)⟩

/-- Invalidating drops slots only, and slot `0` first. -/
theorem bcacheInvalidate_ctl (s : Bcache β) (b : ℤ) :
    ∀ i, (bcacheInvalidate s b).ctl i = s.ctl i ∨ ((bcacheInvalidate s b).ctl i).bcBlkno = -1 := by
  intro i
  unfold bcacheInvalidate
  split
  · next j _ =>
    by_cases h : i = j
    · right
      simp [h,discard]
    · left
      simp [Function.update_of_ne h]
  · exact Or.inl rfl

theorem bcacheInvalidate_shape (s : Bcache β) (b : ℤ) : SameShape s (bcacheInvalidate s b) := by
  unfold bcacheInvalidate
  split <;> exact ⟨rfl,rfl,rfl,rfl⟩

theorem bcacheInvalidate_data (s : Bcache β) (b : ℤ) : (bcacheInvalidate s b).data = s.data := by
  unfold bcacheInvalidate
  split <;> rfl

theorem bcacheInvalidate_front (s : Bcache β) (hn : 0 < s.nblks) (b : ℤ) (hb : b ≠ -1) :
    ((bcacheInvalidate s b).ctl 0).bcBlkno ≠ b := by
  by_cases h : (s.ctl 0).bcBlkno = b
  · have hf := find?_range_zero s.nblks (fun i => (s.ctl i).bcBlkno = b) hn (by simpa using h)
    simp only [bcacheInvalidate,hf,Function.update_self,discard]
    exact hb.symm
  · cases bcacheInvalidate_ctl s b 0 with
    | inl he => rwa [he]
    | inr he =>
      rw [he]
      exact hb.symm

def invalidateAll (s : Bcache β) (blk : ℤ) (n : ℕ) : Bcache β :=
  (List.range n).foldl (fun s i => bcacheInvalidate s (blk+(i : ℕ))) s

/-- After a range is invalidated, slot `0` holds none of its blocks; every other slot is as
before or empty. -/
theorem invalidateAll_spec (s : Bcache β) (hn : 0 < s.nblks) (blk : ℤ) (hb : 0 ≤ blk) (n : ℕ) :
    SameShape s (invalidateAll s blk n) ∧ (invalidateAll s blk n).data = s.data ∧
      (∀ i, (invalidateAll s blk n).ctl i = s.ctl i ∨ ((invalidateAll s blk n).ctl i).bcBlkno = -1) ∧
      ∀ j < n, ((invalidateAll s blk n).ctl 0).bcBlkno ≠ blk+j := by
  induction n with
  | zero => exact ⟨SameShape.refl s,rfl,fun i => Or.inl rfl,by simp⟩
  | succ n ih =>
    obtain ⟨hs,hd,hc,hf⟩ := ih
    have he : invalidateAll s blk (n+1) = bcacheInvalidate (invalidateAll s blk n) (blk+n) := by
      simp only [invalidateAll,List.range_succ,List.foldl_append,List.foldl_cons,List.foldl_nil]
    have hn' : 0 < (invalidateAll s blk n).nblks := by rwa [hs.nblks]
    rw [he]
    refine ⟨hs.trans (bcacheInvalidate_shape _ _),(bcacheInvalidate_data _ _).trans hd,?_,?_⟩
    · intro i
      cases bcacheInvalidate_ctl (invalidateAll s blk n) (blk+n) i with
      | inl h =>
        rw [h]
        exact hc i
      | inr h => exact Or.inr h
    · intro j hj
      by_cases hjn : j = n
      · rw [hjn]
        exact bcacheInvalidate_front _ hn' _ (by omega)
      · have hj' := hf j (by omega)
        cases bcacheInvalidate_ctl (invalidateAll s blk n) (blk+n) 0 with
        | inl h => rwa [h]
        | inr h =>
          rw [h]
          omega

/-- Only the slots whose block left the cache change: coherence stays. -/
theorem Coherent.drop {s s' : Bcache β} {store store' : ℤ → β} {stale stale' : ℤ → Prop}
    (h : Coherent s store stale) (hshape : SameShape s s') (hdata : s'.data = s.data)
    (hctl : ∀ i, s'.ctl i = s.ctl i ∨ (s'.ctl i).bcBlkno = -1)
    (hstore : ∀ i < s.nblks, (s.ctl i).bcBlkno ≠ -1 → ¬ stale' (s.ctl i).bcBlkno →
      ¬ stale (s.ctl i).bcBlkno ∧ store' (s.ctl i).bcBlkno = store (s.ctl i).bcBlkno)
    (hfront : ∀ b, stale' b → (s'.ctl 0).bcBlkno ≠ b) : Coherent s' store' stale' := by
  have hold : ∀ i, (s'.ctl i).bcBlkno ≠ -1 → s'.ctl i = s.ctl i := fun i hi =>
    (hctl i).resolve_right hi
  refine ⟨?_,hfront,?_⟩
  · intro i hi hne hst
    have ho := hold i hne
    rw [ho] at hne hst ⊢
    rw [hshape.nblks] at hi
    obtain ⟨h₁,h₂⟩ := hstore i hi hne hst
    rw [hdata,h₂,h.holds i hi hne h₁]
  · intro i j hi hin hj hjn hne he
    have hoi := hold i hne
    have hoj := hold j (he ▸ hne)
    rw [hoi,hoj] at he
    rw [hoi] at hne
    rw [hshape.nblks] at hin hjn
    exact h.unique i j hi hin hj hjn hne he

end Slots

section Device
variable {β : Type*}

/-- A device whose sectors are blocks of `bsize` bytes, and which never fails. -/
def storeStrategy (bsize : ℕ) : Strategy (ℤ → β) β := fun rw blk size buf store =>
  match rw with
  | .fRead => (⟨0,some size,fun k => if k < size/bsize then store (blk+k) else buf k⟩,store)
  | .fWrite => (⟨0,some size,buf⟩,
      fun b => if blk ≤ b ∧ b < blk+(size/bsize : ℕ) then buf (b-blk).toNat else store b)

variable {s : Bcache β} {store : ℤ → β}

theorem bcacheLookup_hit (clock : ℕ → ℤ) (h : Coherent s store (fun _ => False)) {b : ℤ}
    (hb : b ≠ -1) {v : β} (hv : (bcacheLookup clock s b).1 = some v) : v = store b := by
  simp only [bcacheLookup,Option.map_eq_some_iff] at hv
  obtain ⟨i,hi,rfl⟩ := hv
  have hlt := List.mem_of_find?_eq_some hi
  have hp := List.find?_some hi
  simp only [decide_eq_true_eq,List.mem_range] at hp hlt
  rw [← hp.1] at hb ⊢
  exact h.holds i hlt hb not_false

/-- The first loop of a read changes no slot, and what it copies is what the device holds. -/
theorem lookupAll_spec (clock : ℕ → ℤ) (h : Coherent s store (fun _ => False)) (blk : ℤ)
    (hb : 0 ≤ blk) (n : ℕ) (buf : ℕ → β) (miss : ℕ → Bool) :
    SameShape s (lookupAll clock s blk n buf miss).1 ∧
      Coherent (lookupAll clock s blk n buf miss).1 store (fun _ => False) ∧
      ∀ i < n, (lookupAll clock s blk n buf miss).2.2 i = false →
        (lookupAll clock s blk n buf miss).2.1 i = store (blk+i) := by
  induction n with
  | zero => exact ⟨SameShape.refl s,h,fun i hi => absurd hi (by omega)⟩
  | succ n ih =>
    have he : lookupAll clock s blk (n+1) buf miss =
        (bcacheLookup clock (lookupAll clock s blk n buf miss).1 (blk+n)).1.elim
          ((bcacheLookup clock (lookupAll clock s blk n buf miss).1 (blk+n)).2,(lookupAll clock s blk n buf miss).2.1,
            Function.update (lookupAll clock s blk n buf miss).2.2 n true)
          fun b => ((bcacheLookup clock (lookupAll clock s blk n buf miss).1 (blk+n)).2,
            Function.update (lookupAll clock s blk n buf miss).2.1 n b,
            Function.update (lookupAll clock s blk n buf miss).2.2 n false) := by
      unfold lookupAll
      rw [List.range_succ,List.foldl_append,List.foldl_cons,List.foldl_nil]
      generalize List.foldl _ _ (List.range n) = r
      obtain ⟨t,buf,miss⟩ := r
      dsimp only
      cases bcacheLookup clock t (blk+n) with
      | mk o t' => cases o <;> rfl
    obtain ⟨hs,hc,hr⟩ := ih
    generalize lookupAll clock s blk n buf miss = r at he hs hc hr
    rw [he]
    have hc' : Coherent (bcacheLookup clock r.1 (blk+n)).2 store (fun _ => False) :=
      ⟨hc.holds,hc.front,hc.unique⟩
    have hs' : SameShape s (bcacheLookup clock r.1 (blk+n)).2 := hs.trans ⟨rfl,rfl,rfl,rfl⟩
    cases hl : bcacheLookup clock r.1 (blk+n) with
    | mk o s' =>
      rw [hl] at hc' hs'
      cases o with
      | none =>
        refine ⟨hs',hc',?_⟩
        intro i hi hm
        by_cases hin : i = n
        · simp [hin] at hm
        · dsimp only [Option.elim] at hm ⊢
          rw [Function.update_of_ne hin] at hm
          exact hr i (by omega) hm
      | some v =>
        have hv : v = store (blk+n) :=
          bcacheLookup_hit clock hc (show blk+(n : ℤ) ≠ -1 by omega) (by rw [hl])
        refine ⟨hs',hc',?_⟩
        intro i hi hm
        by_cases hin : i = n
        · simp [hin,hv]
        · dsimp only [Option.elim] at hm ⊢
          rw [Function.update_of_ne hin] at hm ⊢
          exact hr i (by omega) hm

/-- A pending transfer of the blocks `start..i` of the request fills the buffer up to `i`. -/
theorem transfer_spec (clock : ℕ → ℤ) {io : Io (ℤ → β) β} (hdev : io.dev = store)
    (h : Coherent io.cache store (fun _ => False)) (hn : 0 < io.cache.nblks) (hs : 0 < io.cache.blksize)
    (blk : ℤ) (hb : 0 ≤ blk) (start i : ℕ) (hi : start ≤ i) (hw : i*io.cache.blksize < 2^32)
    (hbuf : ∀ j < start, io.buf j = store (blk+j)) :
    ∃ io', transfer clock (storeStrategy io.cache.blksize) ⟨blk+start,start,i-start⟩ io = (0,io') ∧
      io'.dev = store ∧ Coherent io'.cache store (fun _ => False) ∧ SameShape io.cache io'.cache ∧
      (∀ j < i, io'.buf j = store (blk+j)) ∧ ∀ j, i ≤ j → io'.buf j = io.buf j := by
  have hmul : (i-start)*io.cache.blksize%2^32/io.cache.blksize = i-start := by
    have : (i-start)*io.cache.blksize ≤ i*io.cache.blksize := Nat.mul_le_mul_right _ (by omega)
    rw [Nat.mod_eq_of_lt (by omega),Nat.mul_div_cancel _ hs]
  have hnew : ∀ j < i, (if j < start then io.buf j else
      if j-start < i-start then store (blk+start+(j-start : ℕ)) else io.buf (start+(j-start))) =
        store (blk+j) := by
    intro j hj
    split_ifs with h₁ h₂
    · exact hbuf j h₁
    · congr 1
      omega
    · omega
  refine ⟨_,by simp only [transfer,storeStrategy,hdev,hmul,if_true]; rfl,rfl,?_,?_,hnew,?_⟩
  · have hins := insertAll_coherent clock h hn (fun k => if k < start then io.buf k else
      if k-start < i-start then store (blk+start+(k-start : ℕ)) else io.buf (start+(k-start))) start
      (blk+start) (by omega) (i-start) (by
        intro j hj
        have := hnew (start+j) (by omega)
        rw [this]
        congr 1
        push_cast
        ring)
    simpa only [false_and] using hins
  · dsimp only
    apply insertAll_shape
  · intro j hj
    dsimp only
    rw [if_neg (by omega),if_neg (by omega)]
    congr 1
    omega

theorem fillMisses_spec (clock : ℕ → ℤ) (blk : ℤ) (hb : 0 ≤ blk) (miss : ℕ → Bool) (bsize : ℕ)
    (hs : 0 < bsize) (k i : ℕ) (p : Pending) (io : Io (ℤ → β) β) (hdev : io.dev = store)
    (h : Coherent io.cache store (fun _ => False)) (hn : 0 < io.cache.nblks)
    (hbs : io.cache.blksize = bsize) (hw : (i+k)*bsize < 2^32)
    (hp : (p.pBlk = -1 ∧ ∀ j < i, io.buf j = store (blk+j)) ∨
      ∃ start ≤ i, p = ⟨blk+start,start,i-start⟩ ∧ ∀ j < start, io.buf j = store (blk+j))
    (hhit : ∀ j, i ≤ j → j < i+k → miss j = false → io.buf j = store (blk+j)) :
    ∃ io', fillMisses clock (storeStrategy bsize) blk miss k i p io = (0,io') ∧ io'.dev = store ∧
      Coherent io'.cache store (fun _ => False) ∧ SameShape io.cache io'.cache ∧
      ∀ j < i+k, io'.buf j = store (blk+j) := by
  induction k generalizing i p io with
  | zero =>
    cases hp with
    | inl hp => exact ⟨io,by simp [fillMisses,hp.1],hdev,h,SameShape.refl _,hp.2⟩
    | inr hp =>
      obtain ⟨start,hle,rfl,hbuf⟩ := hp
      subst hbs
      obtain ⟨io',ht,hd',hc',hsh,hb',-⟩ := transfer_spec clock hdev h hn hs blk hb start i hle hw hbuf
      refine ⟨io',?_,hd',hc',hsh,hb'⟩
      simp only [fillMisses]
      rw [if_pos (by omega),ht]
  | succ k ih =>
    have hw' : (i+1+k)*bsize < 2^32 := by
      rwa [show i+1+k = i+(k+1) by omega]
    simp only [fillMisses]
    cases hm : miss i with
    | true =>
      rw [if_pos rfl]
      have hp' : ∃ start ≤ i+1, (if p.pBlk = -1 then (⟨blk+i,i,1⟩ : Pending)
            else {p with pSize := p.pSize+1}) = ⟨blk+start,start,i+1-start⟩ ∧
          ∀ j < start, io.buf j = store (blk+j) := by
        cases hp with
        | inl hp =>
          refine ⟨i,by omega,?_,hp.2⟩
          rw [if_pos hp.1]
          congr 1
          omega
        | inr hp =>
          obtain ⟨start,hle,rfl,hbuf⟩ := hp
          refine ⟨start,by omega,?_,hbuf⟩
          dsimp only
          rw [if_neg (by omega)]
          congr 1
          omega
      obtain ⟨io',he,hd',hc',hsh,hb'⟩ := ih (i+1) _ io hdev h hn hbs hw' (Or.inr hp')
        (fun j hj hk => hhit j (by omega) (by omega))
      exact ⟨io',he,hd',hc',hsh,fun j hj => hb' j (by omega)⟩
    | false =>
      rw [if_neg (by simp)]
      have hi := hhit i le_rfl (by omega) hm
      cases hp with
      | inl hp =>
        rw [if_neg (not_not.mpr hp.1)]
        obtain ⟨io',he,hd',hc',hsh,hb'⟩ := ih (i+1) p io hdev h hn hbs hw'
          (Or.inl ⟨hp.1,fun j hj => by
            by_cases hji : j = i
            · rwa [hji]
            · exact hp.2 j (by omega)⟩) (fun j hj hk => hhit j (by omega) (by omega))
        exact ⟨io',he,hd',hc',hsh,fun j hj => hb' j (by omega)⟩
      | inr hp =>
        obtain ⟨start,hle,rfl,hbuf⟩ := hp
        subst hbs
        have hwi : i*io.cache.blksize < 2^32 := by
          have : i*io.cache.blksize ≤ (i+1+k)*io.cache.blksize := Nat.mul_le_mul_right _ (by omega)
          omega
        obtain ⟨io₁,ht,hd₁,hc₁,hsh₁,hb₁,hrest⟩ :=
          transfer_spec clock hdev h hn hs blk hb start i hle hwi hbuf
        rw [if_pos (by dsimp only; omega),ht]
        have hnext : ∀ j, i ≤ j → j < i+(k+1) → miss j = false → io₁.buf j = store (blk+j) := by
          intro j hj hk hmj
          rw [hrest j hj]
          exact hhit j hj hk hmj
        obtain ⟨io',he,hd',hc',hsh,hb'⟩ := ih (i+1) ⟨-1,start,i-start⟩ io₁ hd₁ hc₁
          (by rwa [hsh₁.nblks]) hsh₁.blksize hw' (Or.inl ⟨rfl,fun j hj => by
            by_cases hji : j = i
            · rw [hji]
              exact hnext i le_rfl (by omega) hm
            · exact hb₁ j (by omega)⟩) (fun j hj hk => hnext j (by omega) (by omega))
        exact ⟨io',he,hd',hc',hsh₁.trans hsh,fun j hj => hb' j (by omega)⟩

/-- A read through a coherent cache fills the buffer with what the device holds. -/
theorem readStrategy_spec (clock : ℕ → ℤ) (h : Coherent s store (fun _ => False)) (hn : 0 < s.nblks)
    (hs : 0 < s.blksize) (blk : ℤ) (hb : 0 ≤ blk) (size : ℕ) (hw : size/s.blksize*s.blksize < 2^32)
    (buf : ℕ → β) :
    ∃ buf' s', readStrategy clock (storeStrategy s.blksize) s blk size buf store =
        (⟨0,some size,buf'⟩,s',store) ∧ (∀ j < size/s.blksize, buf' j = store (blk+j)) ∧
      Coherent s' store (fun _ => False) ∧ SameShape s s' := by
  obtain ⟨hsh,hc,hhit⟩ := lookupAll_spec clock h blk hb (size/s.blksize) buf (fun _ => false)
  simp only [readStrategy]
  generalize lookupAll clock s blk (size/s.blksize) buf (fun _ => false) = r at hsh hc hhit
  obtain ⟨s₁,buf₁,miss⟩ := r
  dsimp only at hsh hc hhit ⊢
  obtain ⟨io',he,hd,hc',hsh',hb'⟩ := fillMisses_spec clock blk hb miss s.blksize hs (size/s.blksize) 0
    ⟨-1,0,0⟩ ⟨s₁,buf₁,store⟩ rfl hc (by rwa [hsh.nblks]) hsh.blksize (by simpa using hw)
    (Or.inl ⟨rfl,fun j hj => absurd hj (by omega)⟩) (fun j _ hj hm => hhit j (by omega) hm)
  rw [he]
  refine ⟨io'.buf,io'.cache,?_,?_,hc',hsh.trans hsh'⟩
  · rw [hd]
    rfl
  · simpa using hb'

/-- A write through the cache leaves no old copy of a written block behind. -/
theorem writeStrategy_spec (clock : ℕ → ℤ) (h : Coherent s store (fun _ => False)) (hn : 0 < s.nblks)
    (blk : ℤ) (hb : 0 ≤ blk) (size : ℕ) (buf : ℕ → β) :
    ∃ s', writeStrategy clock (storeStrategy s.blksize) s blk size buf store =
        (⟨0,some size,buf⟩,s',(storeStrategy s.blksize .fWrite blk size buf store).2) ∧
      Coherent s' (storeStrategy s.blksize .fWrite blk size buf store).2 (fun _ => False) ∧
      SameShape s s' := by
  set n := size/s.blksize with hnb
  obtain ⟨hsh,hd,hc,hf⟩ := invalidateAll_spec s hn blk hb n
  have hmid : Coherent (invalidateAll s blk n) (storeStrategy s.blksize .fWrite blk size buf store).2
      (fun x => blk ≤ x ∧ x < blk+n) := by
    refine h.drop hsh hd hc ?_ ?_
    · intro i _ _ hout
      exact ⟨not_false,if_neg hout⟩
    · intro b hr he
      exact hf (b-blk).toNat (by omega) (by omega)
  have hins := insertAll_coherent clock hmid (by rwa [hsh.nblks]) buf 0 blk hb n (by
    intro j hj
    simp only [storeStrategy,← hnb]
    rw [if_pos (by omega)]
    congr 1
    omega)
  refine ⟨insertAll clock (invalidateAll s blk n) buf 0 blk n,rfl,?_,
    hsh.trans (insertAll_shape _ _ _ _ _ _)⟩
  simpa only [and_not_self] using hins

end Device

section Requests
variable {β : Type*}

structure Req (β : Type*) where
  rw : Rw
  blk : ℤ
  size : ℕ
  buf : ℕ → β

/-- What the caller of a strategy routine gets to see. -/
structure Answer (β : Type*) where
  err : ℤ
  rsize : Option ℕ
  read : List β

def Req.answer (q : Req β) (bsize : ℕ) (r : Reply β) : Answer β :=
  ⟨r.err,r.rsize,match q.rw with
    | .fRead => (List.range (q.size/bsize)).map r.buf
    | .fWrite => []⟩

/-- A request through the cache, and the same request issued to the device. -/
def cachedStep (clock : ℕ → ℤ) (w bsize : ℕ) (unit : ℤ) (st : Bcache β × (ℤ → β)) (q : Req β) :
    Answer β × Bcache β × (ℤ → β) :=
  let r := bcacheStrategy clock w (storeStrategy bsize) st.1 unit q.rw q.blk q.size q.buf st.2
  (q.answer bsize r.1,r.2)

def directStep (bsize : ℕ) (store : ℤ → β) (q : Req β) : Answer β × (ℤ → β) :=
  let r := storeStrategy bsize q.rw q.blk q.size q.buf store
  (q.answer bsize r.1,r.2)

/-- Whole blocks of the device, fewer than half of what a `size_t` counts. -/
def Req.Valid (w bsize : ℕ) (q : Req β) : Prop := 0 ≤ q.blk ∧ bsize ∣ q.size ∧ q.size*2 < 2^w

/-- If the request is a write that goes past the cache, no slot holds a block it writes. -/
def Req.Clear (w bsize : ℕ) (s : Bcache β) (q : Req β) : Prop :=
  q.rw = .fWrite → bypassed w s q.size → ∀ i < s.nblks,
    ¬ (q.blk ≤ (s.ctl i).bcBlkno ∧ (s.ctl i).bcBlkno < q.blk+(q.size/bsize : ℕ))

def Req.Admissible (w bsize : ℕ) (unit : ℤ) (st : Bcache β × (ℤ → β)) (q : Req β) : Prop :=
  q.Valid w bsize ∧ q.Clear w bsize (selectUnit st.1 unit)

instance (w bsize : ℕ) (q : Req β) : Decidable (q.Valid w bsize) :=
  inferInstanceAs (Decidable (_ ∧ _ ∧ _))

instance (w bsize : ℕ) (s : Bcache β) (q : Req β) : Decidable (q.Clear w bsize s) :=
  inferInstanceAs (Decidable (_ → _ → ∀ i < s.nblks, ¬ (_ ≤ (s.ctl i).bcBlkno ∧ (s.ctl i).bcBlkno < _)))

instance (w bsize : ℕ) (unit : ℤ) (st : Bcache β × (ℤ → β)) (q : Req β) :
    Decidable (q.Admissible w bsize unit st) := inferInstanceAs (Decidable (_ ∧ _))

/-- The cache in front of a store: coherent once the unit is selected. -/
structure Fronts (nblks bsize : ℕ) (unit : ℤ) (st : Bcache β × (ℤ → β)) (store : ℤ → β) : Prop where
  dev : st.2 = store
  nblks : st.1.nblks = nblks
  blksize : st.1.blksize = bsize
  active : st.1.active = true
  coherent : Coherent (selectUnit st.1 unit) store (fun _ => False)

theorem selectUnit_unit (s : Bcache β) (unit : ℤ) : (selectUnit s unit).unit = unit := by
  unfold selectUnit
  split_ifs with h
  · rfl
  · exact not_not.mp h

theorem selectUnit_of_eq {s : Bcache β} {unit : ℤ} (h : s.unit = unit) : selectUnit s unit = s :=
  if_neg (not_not.mpr h)

theorem selectUnit_shape (s : Bcache β) (unit : ℤ) : (selectUnit s unit).nblks = s.nblks ∧
    (selectUnit s unit).blksize = s.blksize ∧ (selectUnit s unit).active = s.active := by
  unfold selectUnit
  split_ifs <;> exact ⟨rfl,rfl,rfl⟩

theorem bcacheFlush_coherent (s : Bcache β) (unit : ℤ) (store : ℤ → β) :
    Coherent {bcacheFlush s with unit := unit} store (fun _ => False) := by
  have hempty : ∀ i < s.nblks, ((bcacheFlush s).ctl i).bcBlkno = -1 := by
    intro i hi
    simp [bcacheFlush,hi,discard]
  refine ⟨fun i hi hne => absurd (hempty i hi) hne,fun b hb => absurd hb not_false,?_⟩
  intro i j _ hi _ _ hne
  exact absurd (hempty i hi) hne

/-- One request keeps the cache in step with the store and is answered as the device would. -/
theorem cachedStep_spec (clock : ℕ → ℤ) {w nblks bsize : ℕ} {unit : ℤ} (hn : 0 < nblks)
    (hb : 0 < bsize) (hmem : nblks*bsize < 2^32) (st : Bcache β × (ℤ → β)) (store : ℤ → β) (q : Req β)
    (h : Fronts nblks bsize unit st store) (hq : q.Admissible w bsize unit st) :
    (cachedStep clock w bsize unit st q).1 = (directStep bsize store q).1 ∧
      Fronts nblks bsize unit (cachedStep clock w bsize unit st q).2 (directStep bsize store q).2 := by
  obtain ⟨⟨hblk,hdvd,hsize⟩,hclear⟩ := hq
  obtain ⟨s,dev⟩ := st
  obtain ⟨rfl,hnb,hbs,hact,hcoh⟩ := h
  obtain ⟨hnb',hbs',hact'⟩ := selectUnit_shape s unit
  have hunit := selectUnit_unit s unit
  dsimp only at hnb hbs hact hcoh hclear ⊢
  have hbs'' : (selectUnit s unit).blksize = bsize := hbs'.trans hbs
  -- a cache of the right shape fronts the store as soon as it is coherent
  have fronts : ∀ s' store', SameShape (selectUnit s unit) s' → Coherent s' store' (fun _ => False) →
      Fronts nblks bsize unit (s',store') store' := by
    intro s' store' hsh hc
    refine ⟨rfl,hsh.nblks.trans (hnb'.trans hnb),hsh.blksize.trans hbs'',
      hsh.active.trans (hact'.trans hact),?_⟩
    rwa [selectUnit_of_eq (hsh.unit.trans hunit)]
  by_cases hby : bypassed w (selectUnit s unit) q.size
  · simp only [cachedStep,directStep,bcacheStrategy,if_pos hby]
    refine ⟨trivial,fronts _ _ (SameShape.refl _) ?_⟩
    cases hrw : q.rw with
    | fRead => exact hcoh
    | fWrite =>
      refine hcoh.drop (SameShape.refl _) rfl (fun i => Or.inl rfl) ?_ (fun b hb => absurd hb not_false)
      intro i hi _ _
      exact ⟨not_false,if_neg (hclear hrw hby i hi)⟩
  · have hsmall : q.size/bsize*bsize < 2^32 := by
      have hle : q.size*2/bsize ≤ nblks := by
        simp only [bypassed,hact',hact,hbs'',hnb',hnb,Nat.mod_eq_of_lt hsize] at hby
        simpa using hby
      calc q.size/bsize*bsize ≤ q.size*2/bsize*bsize := by gcongr; omega
        _ ≤ nblks*bsize := by gcongr
        _ < 2^32 := hmem
    have hn' : 0 < (selectUnit s unit).nblks := by omega
    simp only [cachedStep,directStep,bcacheStrategy,if_neg hby]
    cases hrw : q.rw with
    | fRead =>
      obtain ⟨buf',s',he,hbuf,hc,hsh⟩ := readStrategy_spec clock hcoh hn' (by rwa [hbs'']) q.blk hblk
        q.size (by rwa [hbs'']) q.buf
      rw [hbs''] at he hbuf
      dsimp only
      rw [he]
      refine ⟨?_,fronts _ _ hsh hc⟩
      simp only [Req.answer,storeStrategy,hrw,Answer.mk.injEq,true_and]
      apply List.map_congr_left
      intro j hj
      rw [List.mem_range] at hj
      rw [hbuf j hj,if_pos hj]
    | fWrite =>
      obtain ⟨s',he,hc,hsh⟩ := writeStrategy_spec clock hcoh hn' q.blk hblk q.size q.buf
      rw [hbs''] at he hc
      dsimp only
      rw [he]
      exact ⟨rfl,fronts _ _ hsh hc⟩

/-- Along every run in which no write that goes past the cache touches a block held in it, the
requests are answered as they would be without the cache. -/
theorem bcache_transparent (clock : ℕ → ℤ) (w nblks bsize : ℕ) (unit : ℤ) (s : Bcache β)
    (mem : (ℕ → BcacheCtl) × (ℕ → β)) (store : ℤ → β) (reqs : List (Req β)) (hn : 0 < nblks)
    (hb : 0 < bsize) (hmem : nblks*bsize < 2^32) (hs : s.unit = -1) (hunit : unit ≠ -1)
    (h : Along (cachedStep clock w bsize unit) (fun st q => q.Admissible w bsize unit st)
      ((bcacheInit s nblks bsize (some mem)).2,store) reqs) :
    answers (cachedStep clock w bsize unit) ((bcacheInit s nblks bsize (some mem)).2,store) reqs =
      answers (directStep bsize) store reqs := by
  refine answers_eq (Fronts nblks bsize unit) (cachedStep_spec clock hn hb hmem) reqs _ _ ?_ h
  have hbs : bsize%2^32 = bsize := by
    apply Nat.mod_eq_of_lt
    calc bsize = 1*bsize := (one_mul bsize).symm
      _ ≤ nblks*bsize := Nat.mul_le_mul_right _ hn
      _ < 2^32 := hmem
  refine ⟨rfl,rfl,hbs,rfl,?_⟩
  have hne : (bcacheInit s nblks bsize (some mem)).2.unit ≠ unit := by
    simp only [bcacheInit,hs]
    exact hunit.symm
  rw [selectUnit,if_pos hne]
  exact bcacheFlush_coherent _ _ _

/-- Reads, a write through the cache, and a long write beside the block held. -/
theorem bcache_transparent_apart :
    answers (cachedStep (fun _ => 0) 32 512 0)
        ((bcacheInit ⟨fun _ => ⟨0,0,0⟩,fun _ => 9,false,0,0,0,-1,0⟩ 32 512
          (some (fun _ => ⟨3,0,0⟩,fun _ => 8))).2,fun b => b.toNat%7)
        [⟨.fRead,3,1024,fun _ => 0⟩,⟨.fWrite,4,512,fun _ => 5⟩,⟨.fWrite,64,8704,fun k => k⟩,
          ⟨.fRead,4,512,fun _ => 0⟩] =
      answers (directStep 512) (fun b => b.toNat%7)
        [⟨.fRead,3,1024,fun _ => 0⟩,⟨.fWrite,4,512,fun _ => 5⟩,⟨.fWrite,64,8704,fun k => k⟩,
          ⟨.fRead,4,512,fun _ => 0⟩] := by
  apply bcache_transparent
  · decide
  · decide
  · decide
  · rfl
  · decide
  · decide

/-- A write of seventeen sectors goes past the cache of the loader and leaves the old sector `0`
in it, which the next read returns. -/
theorem bcache_stale_after_bypassed_write :
    answers (cachedStep (fun _ => 0) 32 512 0)
        ((bcacheInit ⟨fun _ => ⟨0,0,0⟩,fun _ _ => 0,false,0,0,0,-1,0⟩ 32 512
          (some (fun _ => ⟨0,0,0⟩,fun _ _ => 0))).2,fun _ _ => 0)
        [⟨.fRead,0,512,fun _ _ => 0⟩,⟨.fWrite,0,8704,fun _ _ => 1⟩,⟨.fRead,0,512,fun _ _ => 0⟩] ≠
      answers (directStep 512) (fun _ (_ : Fin 512) => (0 : UInt8))
        [⟨.fRead,0,512,fun _ _ => 0⟩,⟨.fWrite,0,8704,fun _ _ => 1⟩,⟨.fRead,0,512,fun _ _ => 0⟩] := by
  intro h
  have h₂ := congrArg (fun l => l.map fun a => a.read.map fun b => b 0) h
  revert h₂
  decide

end Requests

end Blub.Boot
