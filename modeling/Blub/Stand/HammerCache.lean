import Blub.Stand.Hammer

/-! The six buffers of `hread` while reads of the device fail: a buffer gets its new tag before the read that fills
it, and keeps the tag when that read fails. -/
namespace Blub.Stand
open Blub.Bytes Blub.Trace

section Slots
variable {cache : ℕ → BlockEntry} {boff k i be : ℕ}

/-- The loop keeps a buffer that it has seen. -/
theorem pickSlot_lt {b : Option ℕ} (hb : ∀ j ∈ b, j < i+k) (h : be ∈ pickSlot cache boff k i b) : be < i+k := by
  induction k generalizing i b with
  | zero => exact hb be h
  | succ k ih =>
    unfold pickSlot at h
    dsimp only at h
    split_ifs at h with htag
    · cases h
      omega
    · have hlt := ih (fun j hj => ?_) h
      · omega
      · cases b with
        | none =>
          cases hj
          dsimp only
          omega
        | some c =>
          have hc := hb c rfl
          cases hj
          dsimp only
          split_ifs <;> omega

theorem pickSlot_some (c : ℕ) : (pickSlot cache boff k i (some c)).isSome := by
  induction k generalizing i c with
  | zero => rfl
  | succ k ih =>
    unfold pickSlot
    dsimp only
    by_cases htag : (cache i).off = boff
    · rw [if_pos htag]
      rfl
    · rw [if_neg htag]
      exact ih _

/-- A tag that is there is found. -/
theorem pickSlot_tag {b : Option ℕ} (h : ∃ j, i ≤ j ∧ j < i+k ∧ (cache j).off = boff) :
    ∃ j ∈ pickSlot cache boff k i b, (cache j).off = boff := by
  induction k generalizing i b with
  | zero =>
    obtain ⟨j,h₁,h₂,-⟩ := h
    omega
  | succ k ih =>
    unfold pickSlot
    dsimp only
    by_cases htag : (cache i).off = boff
    · rw [if_pos htag]
      exact ⟨i,rfl,htag⟩
    · rw [if_neg htag]
      obtain ⟨j,h₁,h₂,hj⟩ := h
      have hne : i ≠ j := fun hc => htag (hc ▸ hj)
      exact ih ⟨j,by omega,by omega,hj⟩

end Slots

section Run
variable (d : HammerDev)

theorem hreadSlot_lt (s : Hfs) (off : ℕ) : hreadSlot d s off < numcache := by
  have hsome : (pickSlot s.cache (boffOf d off) numcache 0 none).isSome := by
    unfold numcache pickSlot
    dsimp only
    by_cases htag : (s.cache 0).off = boffOf d off
    · rw [if_pos htag]
      rfl
    · rw [if_neg htag]
      exact pickSlot_some _
  obtain ⟨be,hbe⟩ := Option.isSome_iff_exists.mp hsome
  rw [hreadSlot,hbe]
  exact (pickSlot_lt (by simp) hbe).trans_eq (Nat.zero_add _)

/-- Where `hread` has to read, no buffer has the tag. -/
theorem hreadSlot_miss {s : Hfs} {off : ℕ} (h : (s.cache (hreadSlot d s off)).off ≠ boffOf d off) :
    ∀ j < numcache, (s.cache j).off ≠ boffOf d off := by
  intro j hj htag
  obtain ⟨be,hbe,hoff⟩ : ∃ j ∈ pickSlot s.cache (boffOf d off) numcache 0 none, (s.cache j).off = boffOf d off :=
    pickSlot_tag ⟨j,Nat.zero_le j,hj.trans_eq (Nat.zero_add _).symm,htag⟩
  rw [hreadSlot,hbe] at h
  exact h hoff

theorem boffOf_ne_noTag (off : ℕ) : boffOf d off ≠ noTag := by
  obtain ⟨q,hq⟩ := d.aligned
  unfold boffOf hammerBufsize noTag
  rw [hq]
  dsimp only
  split_ifs <;> omega

/-- The buffers, and which of them have a tag whose read has failed. -/
structure HfsRun where
  hfs : Hfs
  failed : ℕ → Bool

/-- A call reads the device. -/
def Misses (s : Hfs) (off : ℕ) : Prop := (s.cache (hreadSlot d s off)).off ≠ boffOf d off

instance (s : Hfs) (off : ℕ) : Decidable (Misses d s off) := inferInstanceAs (Decidable (_ ≠ _))

def hreadStep (s : HfsRun) (off : ℕ) : Option HammerPtr × HfsRun :=
  let r := hread d s.hfs off
  (r.1,⟨r.2,if Misses d s.hfs off then Function.update s.failed (hreadSlot d s.hfs off) r.1.isNone else s.failed⟩)

/-- No buffer has the tag of the block that is asked for from a read that has failed. -/
def Asks (s : HfsRun) (off : ℕ) : Prop := ∀ i < numcache, (s.hfs.cache i).off = boffOf d off → s.failed i = false

instance (s : HfsRun) (off : ℕ) : Decidable (Asks d s off) := inferInstanceAs (Decidable (∀ i < numcache, _))

/-- Two buffers with one tag hold nothing. -/
def DistinctTags (s : Hfs) : Prop :=
  ∀ i < numcache, ∀ j < numcache, i ≠ j → (s.cache i).off = (s.cache j).off → (s.cache i).off = noTag

/-- A call returns NULL, or a pointer to the byte asked for, in a buffer that holds the block of the device around it;
and the tags are distinct afterwards. -/
structure HreadRight (s : Hfs) (off : ℕ) : Prop where
  holds : ∀ p ∈ (hread d s off).1, p.slot < numcache ∧ p.place = off%hammerBufsize ∧
    ∀ j < hammerBufsize, ((hread d s off).2.cache p.slot).data j = d.dev (boffOf d off+j)
  tags : DistinctTags (hread d s off).2

/-- A buffer whose read has not failed holds what its tag says. -/
structure CacheInv (s : HfsRun) : Prop where
  distinct : DistinctTags s.hfs
  holds : ∀ i < numcache, (s.hfs.cache i).off ≠ noTag → s.failed i = false →
    ∀ j < hammerBufsize, (s.hfs.cache i).data j = d.buffer (s.hfs.cache i).off j

variable {d}

theorem buffer_boffOf (off j : ℕ) : d.buffer (boffOf d off) j = d.dev (boffOf d off+j) := by
  have hdvd : boffOf d off/512*512 = boffOf d off := by
    obtain ⟨q,hq⟩ := d.aligned
    unfold boffOf hammerBufsize
    rw [hq]
    dsimp only
    split_ifs <;> omega
  rw [HammerDev.buffer,hdvd]

theorem DistinctTags.set {s : Hfs} (h : DistinctTags s) {be : ℕ} {e : BlockEntry} {lru : ℤ} {io : List Outcome}
    (he : e.off = (s.cache be).off ∨ ∀ j < numcache, (s.cache j).off ≠ e.off) :
    DistinctTags ⟨lru,Function.update s.cache be e,io⟩ := by
  intro i hi j hj hij
  dsimp only
  by_cases hib : i = be
  · subst hib
    rw [Function.update_self,Function.update_of_ne (Ne.symm hij)]
    intro htag
    rcases he with he | he
    · rw [he] at htag ⊢
      exact h i hi j hj hij htag
    · exact absurd htag.symm (he j hj)
  · rw [Function.update_of_ne hib]
    by_cases hjb : j = be
    · subst hjb
      rw [Function.update_self]
      intro htag
      rcases he with he | he
      · exact h i hi j hj hij (htag.trans he)
      · exact absurd htag (he i hi)
    · rw [Function.update_of_ne hjb]
      exact h i hi j hj hij

theorem touch_cache (s : Hfs) (be i : ℕ) : ((touch s be).cache i).off = (s.cache i).off ∧
    ((touch s be).cache i).data = (s.cache i).data := by
  unfold touch
  dsimp only
  by_cases hi : i = be
  · subst hi
    rw [Function.update_self]
    exact ⟨rfl,rfl⟩
  · rw [Function.update_of_ne hi]
    exact ⟨rfl,rfl⟩

theorem DistinctTags.touch {s : Hfs} (h : DistinctTags s) (be : ℕ) : DistinctTags (touch s be) := by
  intro i hi j hj hij htag
  rw [(touch_cache s be i).1,(touch_cache s be j).1] at htag
  rw [(touch_cache s be i).1]
  exact h i hi j hj hij htag

theorem CacheInv.touch {s : HfsRun} (h : CacheInv d s) (be : ℕ) : CacheInv d ⟨touch s.hfs be,s.failed⟩ := by
  refine ⟨h.distinct.touch be,fun i hi htag hf j hj => ?_⟩
  dsimp only at htag ⊢
  rw [(touch_cache s.hfs be i).1] at htag ⊢
  rw [(touch_cache s.hfs be i).2]
  exact h.holds i hi htag hf j hj

/-- The buffer that was given away has its new tag, and what the read has left in it. -/
theorem CacheInv.refill {s : HfsRun} (h : CacheInv d s) (be : ℕ) {boff : ℕ} (use : ℤ)
    (data : ℕ → UInt8) (io : List Outcome) (b : Bool) (hnew : ∀ j < numcache, (s.hfs.cache j).off ≠ boff)
    (hdata : b = false → ∀ j < hammerBufsize, data j = d.buffer boff j) :
    CacheInv d ⟨⟨s.hfs.lru,Function.update s.hfs.cache be ⟨boff,use,data⟩,io⟩,Function.update s.failed be b⟩ := by
  refine ⟨h.distinct.set (.inr hnew),fun i hi htag hf j hj => ?_⟩
  dsimp only at htag hf ⊢
  by_cases hib : i = be
  · subst hib
    rw [Function.update_self] at htag hf ⊢
    exact hdata hf j hj
  · rw [Function.update_of_ne hib] at htag hf ⊢
    exact h.holds i hi htag hf j hj

/-- What a call does: the tag is there, or a buffer is given away and read, with or without success. -/
theorem hread_cases (s : Hfs) (off : ℕ) : ∃ be, be = hreadSlot d s off ∧
    ((¬ Misses d s off ∧ hread d s off = (some ⟨be,off%hammerBufsize⟩,touch s be)) ∨
    ∃ data, Misses d s off ∧
      (s.io.headD .done ≠ .done ∧
        hread d s off = (none,⟨s.lru,Function.update s.cache be ⟨boffOf d off,(s.cache be).use,data⟩,s.io.tail⟩) ∨
      (∀ j < hammerBufsize, data j = d.buffer (boffOf d off) j) ∧ hread d s off = (some ⟨be,off%hammerBufsize⟩,
        touch ⟨s.lru,Function.update s.cache be ⟨boffOf d off,(s.cache be).use,data⟩,s.io.tail⟩ be))) := by
  refine ⟨_,rfl,?_⟩
  unfold hread
  by_cases hmiss : (s.cache (hreadSlot d s off)).off ≠ boffOf d off
  · refine .inr ⟨(strategy (d.buffer (boffOf d off)) hammerBufsize (s.io.headD .done)
      (s.cache (hreadSlot d s off)).data).2.2,hmiss,?_⟩
    simp only [if_pos hmiss]
    split_ifs with hbad
    · refine .inl ⟨fun hdone => ?_,rfl⟩
      rw [hdone] at hbad
      exact hbad.elim (fun h => h rfl) (fun h => h rfl)
    · rw [not_or,not_not,not_not] at hbad
      have hdone : s.io.headD .done = .done := strategy_complete (by decide) hbad.1 hbad.2
      refine .inr ⟨fun j hj => ?_,rfl⟩
      rw [hdone]
      exact strategy_done hj
  · refine .inl ⟨hmiss,?_⟩
    simp only [if_neg hmiss]

theorem hreadStep_spec (s : HfsRun) (off : ℕ) (hs : CacheInv d s) (hok : Asks d s off) :
    HreadRight d s.hfs off ∧ CacheInv d (hreadStep d s off).2 := by
  have hlt := hreadSlot_lt d s.hfs off
  obtain ⟨be,rfl,⟨hhit,hrun⟩ | ⟨data,hmiss,⟨-,hrun⟩ | ⟨hdata,hrun⟩⟩⟩ := hread_cases (d := d) s.hfs off
  · have htag : (s.hfs.cache (hreadSlot d s.hfs off)).off = boffOf d off := not_not.mp hhit
    have hinv := hs.touch (hreadSlot d s.hfs off)
    unfold hreadStep
    dsimp only
    rw [if_neg hhit,hrun]
    refine ⟨⟨fun p hp => ?_,hrun ▸ hinv.distinct⟩,hinv⟩
    rw [hrun] at hp ⊢
    cases hp
    refine ⟨hlt,rfl,fun j hj => ?_⟩
    have hheld := hs.holds _ hlt (htag ▸ boffOf_ne_noTag d off) (hok _ hlt htag) j hj
    rw [(touch_cache _ _ _).2,hheld,htag,buffer_boffOf]
  · have hinv := hs.refill (hreadSlot d s.hfs off) (s.hfs.cache (hreadSlot d s.hfs off)).use data s.hfs.io.tail true
      (hreadSlot_miss d hmiss) (by simp)
    unfold hreadStep
    dsimp only
    rw [if_pos hmiss,hrun]
    refine ⟨⟨fun p hp => ?_,hrun ▸ hinv.distinct⟩,hinv⟩
    rw [hrun] at hp
    cases hp
  · have hinv := (hs.refill (hreadSlot d s.hfs off) (s.hfs.cache (hreadSlot d s.hfs off)).use data s.hfs.io.tail
      false (hreadSlot_miss d hmiss) fun _ => hdata).touch (hreadSlot d s.hfs off)
    unfold hreadStep
    dsimp only
    rw [if_pos hmiss,hrun]
    refine ⟨⟨fun p hp => ?_,hrun ▸ hinv.distinct⟩,hinv⟩
    rw [hrun] at hp ⊢
    cases hp
    refine ⟨hlt,rfl,fun j hj => ?_⟩
    rw [(touch_cache _ _ _).2]
    dsimp only
    rw [Function.update_self,← buffer_boffOf]
    exact hdata j hj

/-- The buffers as `hinit` leaves them before its first read. -/
def hinitBuffers (data : ℕ → ℕ → UInt8) (io : List Outcome) : HfsRun :=
  ⟨⟨0,fun i => ⟨noTag,0,data i⟩,io⟩,fun _ => false⟩

theorem hinitBuffers_inv (data : ℕ → ℕ → UInt8) (io : List Outcome) : CacheInv d (hinitBuffers data io) :=
  ⟨fun _ _ _ _ _ _ => rfl,fun _ _ h => absurd rfl h⟩

/-- As long as no block is asked for whose read has failed while a buffer still has its tag, every call returns NULL
or a buffer that holds the block. -/
theorem hread_right (data : ℕ → ℕ → UInt8) (io : List Outcome) (offs : List ℕ)
    (hok : Along (hreadStep d) (Asks d) (hinitBuffers data io) offs) :
    Along (hreadStep d) (fun s off => HreadRight d s.hfs off) (hinitBuffers data io) offs :=
  Along.of_invariant (CacheInv d) hreadStep_spec offs _ (hinitBuffers_inv data io) hok

/-- A device of sevens. -/
def sevens : HammerDev := ⟨fun _ => 7,0,dvd_zero _⟩

/-- A read that fails, of a block which is not asked for again. -/
theorem hread_right_apart : Along (hreadStep sevens) (fun s off => HreadRight sevens s.hfs off)
    (hinitBuffers (fun _ _ => 0) [.failed 4 [(0,9)]]) [0,16384,16385] :=
  hread_right (fun _ _ => 0) [.failed 4 [(0,9)]] [0,16384,16385] (by decide)

/-- The block is asked for again, and is taken to be there. -/
theorem hread_wrong_again : ¬ Along (hreadStep sevens) (fun s off => HreadRight sevens s.hfs off)
    (hinitBuffers (fun _ _ => 0) [.failed 4 [(0,9)]]) [0,0] := by
  rintro ⟨-,⟨hholds,-⟩,-⟩
  have hsecond : (hread sevens (hreadStep sevens (hinitBuffers (fun _ _ => 0) [.failed 4 [(0,9)]]) 0).2.hfs 0).1 =
      some ⟨0,0⟩ := by decide
  have hbyte := (hholds _ hsecond).2.2 0 (by decide)
  exact absurd hbyte (by decide)

end Run

end Blub.Stand
