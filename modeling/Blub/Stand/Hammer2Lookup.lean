import Blub.Stand.Hammer2Coherence
import Blub.Stand.Hammer2Tree

/-! Lookups through the shared buffer on a volume that is a finite tree: they come to an end, and find the leaf with
the lowest key of the range. -/
namespace Blub.Stand
open Blub.Bytes

section Buffer
variable {L : H2Layout} (d : H2Media L) {base : Bref} {s : H2}

/-- The device reads to come succeed. -/
def H2.Done (s : H2) : Prop := ∀ o ∈ s.io, o = .done

theorem H2.Done.suffix {s' : H2} (h : s.Done) (hio : s'.io <:+ s.io) : s'.Done := fun o ho => h o (hio.subset ho)

/-- Between two states are device reads of some sizes. -/
structure H2Reads (P : ℕ → Prop) (s s' : H2) : Prop where
  io : s'.io <:+ s.io
  log : s.log <+: s'.log
  sizes : ∀ e ∈ s'.log.drop s.log.length, P e.nbytes

theorem H2Reads.refl {P : ℕ → Prop} (s : H2) : H2Reads P s s where
  io := List.suffix_rfl
  log := List.prefix_refl _
  sizes e he := by simp at he

theorem H2Reads.trans {P : ℕ → Prop} {s₁ s₂ : H2} (h : H2Reads P s s₁) (h' : H2Reads P s₁ s₂) : H2Reads P s s₂ where
  io := h'.io.trans h.io
  log := h.log.trans h'.log
  sizes e he := by
    obtain ⟨l,hl⟩ := h.log
    obtain ⟨l',hl'⟩ := h'.log
    have hs := h.sizes
    have hs' := h'.sizes
    rw [← hl',List.drop_left] at hs'
    rw [← hl,List.drop_left] at hs
    rw [← hl',← hl,List.append_assoc,List.drop_left] at he
    obtain he | he := List.mem_append.mp he
    · exact hs e he
    · exact hs' e he

theorem H2Reads.mono {P Q : ℕ → Prop} {s' : H2} (h : H2Reads P s s') (hpq : ∀ n, P n → Q n) : H2Reads Q s s' :=
  ⟨h.io,h.log,fun e he => hpq _ (h.sizes e he)⟩

theorem h2read_reads (v : H2Volume) (n off : ℕ) (s : H2) : H2Reads (· = n) s (h2read v n off s).2 where
  io := List.tail_suffix _
  log := h2read_log n off s
  sizes e he := by
    change e ∈ (s.log ++ [_]).drop s.log.length at he
    rw [List.drop_left,List.mem_singleton] at he
    rw [he]

theorem h2read_done (v : H2Volume) {n off : ℕ} (h : s.Done) : (h2read v n off s).1 = true := by
  have ho : s.io.headD .done = .done := by
    cases hio : s.io with
    | nil => rfl
    | cons o l => exact h o (by rw [hio]; exact List.mem_cons_self)
  unfold h2read
  rw [ho]
  simp [strategy]

theorem h2reload_reads (v : H2Volume) (base : Bref) (s : H2) :
    H2Reads (fun n => base.type ≠ .volume ∧ n = blocksize base) s (h2reload v base s).2 := by
  unfold h2reload
  dsimp only
  have hread := h2read_reads v (blocksize base) (blockoff base) s
  split_ifs with hload
  · exact ⟨hread.io,hread.log,fun e he => ⟨hload.1,hread.sizes e he⟩⟩
  · exact hread.mono fun n hn => ⟨hload.1,hn⟩
  · exact H2Reads.refl s

/-- A block that is needed is in the buffer, unless a read fails. -/
theorem h2reload_ok (hname : base.dataOff ≠ noBase) (hbase : H2Base L d.toH2Volume base)
    (htype : base.type = .volume ∨ base.type = .inode ∨ base.type = .indirect) (hs : H2Holds d.toH2Volume s) :
    ((h2reload d.toH2Volume base s).1 = false → ¬ s.Done) ∧ ((h2reload d.toH2Volume base s).1 = true →
      H2Holds d.toH2Volume (h2reload d.toH2Volume base s).2 ∧ Loaded d.toH2Volume base (h2reload d.toH2Volume base s).2.media) := by
  unfold h2reload
  dsimp only
  split_ifs with hload hok
  · have hin : ∀ j < blocksize base,
        (h2read d.toH2Volume (blocksize base) (blockoff base) s).2.media j = d.block base j := by
      have hboth : base.type = .inode ∨ base.type = .indirect := htype.resolve_left hload.1
      have hdvd := sector_dvd d (hbase hboth) hboth
      exact fun j hj => h2read_media (blocksize_pos base) hdvd hok hj
    refine ⟨nofun,fun _ => ⟨fun _ b hb j hj => ?_,fun _ => hin⟩⟩
    obtain ⟨hblock,hsize⟩ := block_congr (v := d.toH2Volume) (show b.dataOff = base.dataOff from hb)
    rw [hblock]
    exact hin j (hsize ▸ hj)
  · exact ⟨fun _ hdone => hok (h2read_done _ hdone),nofun⟩
  · refine ⟨nofun,fun _ => ⟨hs,fun hv => ?_⟩⟩
    have heq : base.dataOff = s.savedBase := by
      by_contra hne
      exact hload ⟨hv,hne⟩
    exact hs (heq ▸ hname) base heq

/-- What a scan may come to. -/
inductive ScanResult (s : H2) (base : Bref) (keyBeg keyEnd k i : ℕ) (best : Bref) : H2Scan → H2 → Prop
  | failed {s'} : ¬ s.Done → ScanResult s base keyBeg keyEnd k i best .failed s'
  | embedded {s'} : 0 < k → isDirect L base (d.block base) = true → H2Holds d.toH2Volume s' →
    Loaded d.toH2Volume base s'.media → ScanResult s base keyBeg keyEnd k i best .embedded s'
  | best {s'} : ¬(0 < k ∧ isDirect L base (d.block base) = true) → H2Holds d.toH2Volume s' →
    ScanResult s base keyBeg keyEnd k i best (.best (d.best L base keyBeg keyEnd k i best)) s'

/-- The device reads of a scan. -/
def ScanReads (L : H2Layout) (base : Bref) (n : ℕ) : Prop := 0 < scanCount L base ∧ base.type ≠ .volume ∧ n = blocksize base

theorem h2scan_result (hname : base.dataOff ≠ noBase) (hbase : H2Base L d.toH2Volume base) (keyBeg keyEnd k i : ℕ)
    (best : Bref) (hk : i+k = scanCount L base) (hs : H2Holds d.toH2Volume s) :
    let r := h2scan L d.toH2Volume base keyBeg keyEnd k i best s
    H2Reads (ScanReads L base) s r.2 ∧ ScanResult d s base keyBeg keyEnd k i best r.1 r.2 := by
  induction k generalizing i best s with
  | zero => exact ⟨H2Reads.refl s,.best (fun h => absurd h.1 (lt_irrefl 0)) hs⟩
  | succ k ih =>
    have hpos : 0 < scanCount L base := by omega
    have htype := scanCount_type hpos
    have hreads : H2Reads (ScanReads L base) s (h2reload d.toH2Volume base s).2 :=
      (h2reload_reads d.toH2Volume base s).mono fun n hn => ⟨hpos,hn⟩
    obtain ⟨hfail,hok⟩ := h2reload_ok d hname hbase htype hs
    rw [h2scan]
    dsimp only
    split_ifs with hload hdir
    · obtain ⟨hs₁,hin⟩ := hok hload
      rw [isDirect_loaded d hbase hin] at hdir
      exact ⟨hreads,.embedded (Nat.succ_pos k) hdir hs₁ hin⟩
    · obtain ⟨hs₁,hin⟩ := hok hload
      rw [isDirect_loaded d hbase hin] at hdir
      rw [refAt_loaded d hbase hin (by omega)]
      obtain ⟨hreads',hr⟩ := ih (i+1) (bestStep keyBeg keyEnd best (refAt L d.toH2Volume base (d.block base) i))
        (by omega) hs₁
      generalize h2scan L d.toH2Volume base keyBeg keyEnd k (i+1)
        (bestStep keyBeg keyEnd best (refAt L d.toH2Volume base (d.block base) i)) (h2reload d.toH2Volume base s).2 = r at hreads' hr ⊢
      obtain ⟨sc,s'⟩ := r
      refine ⟨hreads.trans hreads',?_⟩
      cases hr with
      | failed hno => exact .failed fun hdone => hno (hdone.suffix hreads.io)
      | embedded _ hd => exact absurd hd hdir
      | best _ hs' => exact .best (fun hc => hdir hc.2) hs'
    · exact ⟨hreads,.failed (hfail (Bool.not_eq_true _ ▸ hload))⟩

theorem h2leaf_reads (v : H2Volume) (best : Bref) (s : H2) : H2Reads (· = devBsize L best) s (h2leaf L v best s).2 := by
  have h := h2read_reads v (devBsize L best) (blockoff best-blockoff best%2^L.lbufRadix) s
  unfold h2leaf
  dsimp only
  split_ifs
  · exact ⟨h.io,h.log,h.sizes⟩
  · exact h

/-- The block of a leaf is read, unless the read fails. -/
theorem h2leaf_ok (v : H2Volume) (best : Bref) (s : H2) : ((h2leaf L v best s).1 = false → ¬ s.Done) ∧
    ((h2leaf L v best s).1 = true → H2Holds v (h2leaf L v best s).2) := by
  unfold h2leaf
  dsimp only
  split_ifs with hok
  · exact ⟨False.elim,fun _ hne => absurd rfl hne⟩
  · exact ⟨fun _ hdone => hok (h2read_done _ hdone),False.elim⟩

end Buffer

section Lookup
variable {L : H2Layout} (d : H2Media L) (unset : ℤ)

/-- A lookup that found what the volume holds, or that a read has failed in. -/
inductive LookupResult (s : H2) (ret : Bref) (hit : H2Hit) : H2Found → H2 → Prop
  | failed {f s'} : f.rc = -1 → ¬ s.Done → LookupResult s ret hit f s'
  | right {f s'} : H2Holds d.toH2Volume s' → H2Hits L d.toH2Volume ret f s'.media hit → LookupResult s ret hit f s'

theorem LookupResult.suffix {s s₁ s' : H2} {ret : Bref} {hit : H2Hit} {f : H2Found} (h : LookupResult d s₁ ret hit f s')
    (hio : s₁.io <:+ s.io) : LookupResult d s ret hit f s' := by
  cases h with
  | failed hrc hno => exact .failed hrc fun hdone => hno (hdone.suffix hio)
  | right hs hhit => exact .right hs hhit

/-- A lookup through the buffer comes to an end with a result. -/
structure LookupRun (fuel : ℕ) (base : Bref) (keyBeg keyEnd : ℕ) (ret : Bref) (s : H2) (hit : H2Hit) (f : H2Found) (s' : H2) :
    Prop where
  run : h2lookup L d.toH2Volume unset fuel base keyBeg keyEnd ret s = some (f,s')
  reads : H2Reads (d.Loads L base keyBeg keyEnd) s s'
  result : LookupResult d s ret hit f s'

section Cases
variable {d unset} {fuel : ℕ} {base ret : Bref} {keyBeg keyEnd : ℕ} {s s₁ : H2} (hname : base.dataOff ≠ noBase)
  (hscan : h2scan L d.toH2Volume base keyBeg keyEnd (scanCount L base) 0 noBest s = (.best (d.bestOf L base keyBeg keyEnd),s₁))
  (hreads : H2Reads (d.Loads L base keyBeg keyEnd) s s₁)
include hname hscan hreads

/-- The best blockref is a leaf. -/
theorem run_leaf {hit : H2Hit} (hscans : d.Scans L base) (ht : (d.bestOf L base keyBeg keyEnd).IsLeaf)
    (hhit : (h2leaf L d.toH2Volume (d.bestOf L base keyBeg keyEnd) s₁).1 = true →
      H2Hits L d.toH2Volume ret ⟨blockInt (d.bestOf L base keyBeg keyEnd),d.bestOf L base keyBeg keyEnd,
        some (blockoff (d.bestOf L base keyBeg keyEnd)%2^L.lbufRadix)⟩
        (h2leaf L d.toH2Volume (d.bestOf L base keyBeg keyEnd) s₁).2.media hit) :
    ∃ f s', LookupRun d unset (fuel+1) base keyBeg keyEnd ret s hit f s' := by
  obtain ⟨hfail,hok⟩ := h2leaf_ok (L := L) d.toH2Volume (d.bestOf L base keyBeg keyEnd) s₁
  have hloads := (h2leaf_reads (L := L) d.toH2Volume (d.bestOf L base keyBeg keyEnd) s₁).mono
    fun n (hn : n = _) => show d.Loads L base keyBeg keyEnd n from hn ▸ .leaf hscans ht
  generalize hr : h2leaf L d.toH2Volume (d.bestOf L base keyBeg keyEnd) s₁ = r at hfail hok hloads hhit
  obtain ⟨ok,s₂⟩ := r
  cases ok with
  | true => exact ⟨_,s₂,(LookupStep.leaf hname hscan ht hr).run,hreads.trans hloads,.right (hok rfl) (hhit rfl)⟩
  | false =>
    refine ⟨_,s₂,(LookupStep.leafFailed hname hscan ht hr).run,hreads.trans hloads,.failed rfl fun hdone => ?_⟩
    exact hfail rfl (hdone.suffix hreads.io)

/-- The best blockref is an indirect block, and the search ends below it. -/
theorem run_down {hit : H2Hit} {f : H2Found} {s₂ : H2} (hscans : d.Scans L base)
    (ht : (d.bestOf L base keyBeg keyEnd).type = .indirect)
    (hdown : LookupRun d unset fuel (d.bestOf L base keyBeg keyEnd) keyBeg keyEnd ret s₁ hit f s₂) (hgood : hit ≠ .bad)
    (hn : hit = .nothing → ¬(d.bestOf L base keyBeg keyEnd).Leaves keyEnd) :
    LookupRun d unset (fuel+1) base keyBeg keyEnd ret s hit f s₂ := by
  refine ⟨(LookupStep.down hname hscan ht hdown.run ?_).run,hreads.trans (hdown.reads.mono fun n hn => .down hscans ht hn),
    hdown.result.suffix d hreads.io⟩
  rintro ⟨hrc,hnext⟩
  cases hdown.result with
  | failed hfail => rw [hfail] at hrc; cases hrc
  | right _ hhit =>
    cases hit with
    | nothing => exact hn rfl hnext
    | found n b data =>
      have hpos := hhit.2.2.2.1
      have hcount := hhit.1
      omega
    | error => exact absurd hhit (by rw [H2Hits,hrc]; decide)
    | bad => exact hgood rfl

end Cases

/-- Where the volume has an answer, the lookup through the buffer comes to an end with it. -/
theorem h2lookup_result (fuel : ℕ) {base ret : Bref} {keyBeg keyEnd : ℕ} {s : H2} {hit : H2Hit}
    (hbase : H2Base L d.toH2Volume base) (hs : H2Holds d.toH2Volume s)
    (hl : d.lookup L fuel base keyBeg keyEnd ret = some hit) (hgood : hit ≠ .bad) :
    ∃ f s', LookupRun d unset fuel base keyBeg keyEnd ret s hit f s' := by
  induction fuel generalizing base keyBeg hit s with
  | zero => cases hl
  | succ fuel ih =>
    by_cases hname : base.dataOff = noBase
    · rw [H2Volume.lookup,if_pos hname] at hl
      cases hl
      exact absurd rfl hgood
    obtain ⟨hscanned,hscan⟩ := h2scan_result d hname hbase keyBeg keyEnd (scanCount L base) 0 noBest (Nat.zero_add _) hs
    have hreads : H2Reads (d.Loads L base keyBeg keyEnd) s _ := hscanned.mono fun n hn => hn.2.2 ▸ .block hname hn.1 hn.2.1
    generalize hr : h2scan L d.toH2Volume base keyBeg keyEnd (scanCount L base) 0 noBest s = r at hreads hscan
    obtain ⟨sc,s₁⟩ := r
    cases hscan with
    | failed hno => exact ⟨_,_,(LookupStep.failed hname hr).run,hreads,.failed rfl hno⟩
    | embedded hpos hdir hs₁ hload =>
      have hstep : VolumeStep L d.toH2Volume fuel base keyBeg keyEnd ret _ := .direct hname ⟨hpos,hdir⟩
      have hfound := hstep.lookup
      rw [hl] at hfound
      cases hfound
      exact ⟨_,_,(LookupStep.embedded hname hr).run,hreads,.right hs₁ (hits_embedded d hbase hdir hload ret)⟩
    | best hdir hs₁ =>
      change h2scan L d.toH2Volume base keyBeg keyEnd (scanCount L base) 0 noBest s = (.best (d.bestOf L base keyBeg keyEnd),s₁) at hr
      have hstep := lookup_step hl
      cases hstep with
      | unnamed h => exact absurd h hname
      | direct _ h => exact absurd h hdir
      | nothing _ ht => exact ⟨_,_,(LookupStep.nothing hname hr ht).run,hreads,.right hs₁ ⟨rfl,rfl⟩⟩
      | other => exact absurd rfl hgood
      | leaf hscans ht hint =>
        exact run_leaf hname hr hreads hscans ht fun hok => hits_leaf d (bestOf_ref d hbase ht.nonempty) ht hint hok ret
      | error hscans ht hint => exact run_leaf hname hr hreads hscans ht fun _ => hint
      | down hscans ht hd hn =>
        have href := bestOf_ref d hbase (indirect_nonempty ht)
        obtain ⟨f,s₂,hdown⟩ := ih (fun _ => href) hs₁ hd hgood
        exact ⟨f,s₂,run_down hname hr hreads hscans ht hdown hgood hn⟩
      | again hscans ht hd hn ha =>
        have href := bestOf_ref d hbase (indirect_nonempty ht)
        obtain ⟨g,s₂,hdown⟩ := ih (fun _ => href) hs₁ hd (by intro hc; cases hc)
        have hreads₂ := hreads.trans (hdown.reads.mono fun n hn => .down hscans ht hn)
        cases hdown.result with
        | failed hrc hno =>
          refine ⟨g,s₂,(LookupStep.down hname hr ht hdown.run ?_).run,hreads₂,.failed hrc fun hdone => hno (hdone.suffix hreads.io)⟩
          rintro ⟨hz,-⟩
          rw [hrc] at hz
          cases hz
        | right hs₂ hhit =>
          obtain ⟨f,s₃,hagain⟩ := ih hbase hs₂ ha hgood
          have hrun := hagain.run
          rw [← hhit.2] at hrun
          exact ⟨f,s₃,(LookupStep.again hname hr ht hdown.run ⟨hhit.1,hn⟩ hrun).run,
            hreads₂.trans (hagain.reads.mono fun n h => .again hscans ht hd hn h),hagain.result.suffix d hreads₂.io⟩

/-- What `h2lookup` should return: 0 where no leaf has a key of the range, and else the leaf with the lowest key and a
pointer to its bytes. -/
structure LookupRight (L : H2Layout) (v : H2Volume) (span len : Bref → ℕ) (base : Bref) (keyBeg keyEnd : ℕ) (f : H2Found)
    (media : ℕ → UInt8) : Prop where
  nothing : f.rc = 0 ↔ ∀ b, v.LeafBelow L base b → ¬ b.Hits span keyBeg keyEnd
  leaf : f.rc ≠ 0 → LowestLeaf L v span base keyBeg keyEnd f.bref
  size : f.rc ≠ 0 → f.rc = len f.bref
  bytes : f.rc ≠ 0 → ∃ p, f.ptr = some p ∧ ∀ j < len f.bref, media (p+j) = v.block f.bref j

end Lookup

section Disk
variable {L : H2Layout} (d : H2Disk L) (unset : ℤ) {base : Bref} {keyBeg keyEnd : ℕ}

/-- The leaves below a block are blockrefs of the volume. -/
theorem leaf_ref {b : Bref} (hbase : H2Base L d.toH2Volume base) (hb : d.LeafBelow L base b) : d.Ref L b := by
  induction hb with
  | here hi _ => exact refAt_ref d.toH2Media hbase hi
  | down hi _ _ ih => exact ih fun _ => refAt_ref d.toH2Media hbase hi

/-- Their sizes are not negative. -/
theorem leaf_int (hbase : H2Base L d.toH2Volume base) {b : Bref} (hb : d.LeafBelow L base b) : 0 ≤ blockInt b :=
  blockInt_nonneg (d.leaves b (leaf_ref d hbase hb) (leaf_type hb)).2.2

theorem LookupResult.lookupRight {ret : Bref} {s s' : H2} {hit : H2Hit} {f : H2Found}
    (hdone : s.Done) (hright : HitRight L d.toH2Volume base keyBeg keyEnd hit) (h : LookupResult d.toH2Media s ret hit f s') :
    H2Holds d.toH2Volume s' ∧ LookupRight L d.toH2Volume keySpan blocksize base keyBeg keyEnd f s'.media := by
  cases h with
  | failed _ hno => exact absurd hdone hno
  | right hs hhit =>
    refine ⟨hs,?_⟩
    cases hit with
    | bad => exact hright.elim
    | error => exact hright.elim
    | nothing =>
      have hrc := hhit.1
      exact ⟨⟨fun _ => hright,fun _ => hrc⟩,fun h => absurd hrc h,fun h => absurd hrc h,fun h => absurd hrc h⟩
    | found n b data =>
      obtain ⟨hlow,rfl,rfl⟩ := hright
      obtain ⟨hrc,rfl,-,hpos,p,hp,hsound⟩ := hhit
      exact ⟨⟨fun h => by omega,fun hno => absurd hlow.hits (hno _ hlow.below)⟩,fun _ => hlow,fun _ => hrc,
        fun _ => ⟨p,hp,(hsound d.leaves).2⟩⟩

theorem not_isDirect {v : H2Volume} {base : Bref} (h : isDirect L base (v.block base) = false) :
    ¬ (0 < scanCount L base ∧ isDirect L base (v.block base) = true) := fun hc => by
  rw [h] at hc
  cases hc.2

/-- A lookup on a tree with its keys in order, as the code counts them. -/
theorem h2lookup_right (hbase : H2Base L d.toH2Volume base) (htree : d.KeyTree L keySpan base)
    (hplain : isDirect L base (d.block base) = false) {fuel : ℕ} {ret : Bref} {hit : H2Hit}
    (hl : d.lookup L fuel base keyBeg keyEnd ret = some hit) {s : H2} (hs : H2Holds d.toH2Volume s) (hdone : s.Done) :
    ∃ f s', h2lookup L d.toH2Volume unset fuel base keyBeg keyEnd ret s = some (f,s') ∧
      H2Holds d.toH2Volume s' ∧ LookupRight L d.toH2Volume keySpan blocksize base keyBeg keyEnd f s'.media := by
  have hright := lookup_right fuel htree (fun b hb => leaf_int d hbase hb) (not_isDirect hplain) hl
  have hgood : hit ≠ .bad := by
    rintro rfl
    exact hright
  obtain ⟨f,s',hrun⟩ := h2lookup_result d.toH2Media unset fuel hbase hs hl hgood
  exact ⟨f,s',hrun.run,hrun.result.lookupRight d hdone hright⟩

theorem Bref.Small.keySpan {b : Bref} (h : b.Small L) : keySpan b = b.span := by
  unfold Stand.keySpan Bref.span
  rw [Nat.mod_eq_of_lt h.bits]

theorem Bref.Small.hits {b : Bref} (h : b.Small L) : b.Hits Stand.keySpan keyBeg keyEnd ↔ b.Hits Bref.span keyBeg keyEnd := by
  unfold Bref.Hits
  rw [h.keySpan]

variable {v : H2Volume}

theorem H2Volume.SmallTree.ref (h : v.SmallTree L base) {i : ℕ} (hi : i < scanCount L base)
    (hne : (v.refOf L base i).type ≠ .empty) : (v.refOf L base i).Small L := by
  cases h with
  | node _ hrefs _ => exact hrefs i hi hne

theorem H2Volume.SmallTree.leaf (h : v.SmallTree L base) {b : Bref} (hb : v.LeafBelow L base b) : b.Small L := by
  induction hb with
  | here hi hl => exact h.ref hi hl.nonempty
  | down hi ht _ ih =>
    cases h with
    | node _ _ hsub => exact ih (hsub _ hi ht)

/-- On a tree of small blocks the code counts the keys right. -/
theorem H2Volume.SmallTree.keyTree (h : v.SmallTree L base) (htree : v.KeyTree L Bref.span base) : v.KeyTree L keySpan base := by
  induction h with
  | @node base hself hrefs _ ih =>
    cases htree with
    | node hkeys hsub =>
      refine .node ⟨hkeys.named,hkeys.types,fun i hi hne => ?_,fun i hi j hj hij hne hne' => ?_,fun ht i hi hne => ?_⟩
        fun i hi ht => ih i hi ht (hsub i hi ht)
      · rw [(hrefs i hi hne).keySpan]
        exact hkeys.range i hi hne
      · rw [(hrefs i hi hne).keySpan,(hrefs j hj hne').keySpan]
        exact hkeys.apart i hi j hj hij hne hne'
      · rw [(hrefs i hi hne).keySpan,(hself (.inr ht)).keySpan]
        exact hkeys.within ht i hi hne

theorem H2Volume.SmallTree.lowest (h : v.SmallTree L base) {b : Bref} (hb : LowestLeaf L v keySpan base keyBeg keyEnd b) :
    LowestLeaf L v Bref.span base keyBeg keyEnd b where
  below := hb.below
  hits := (h.leaf hb.below).hits.mp hb.hits
  lowest b' hb' hits' := hb.lowest b' hb' ((h.leaf hb').hits.mpr hits')

/-- On such a tree a lookup is right for the keys and the sizes that the blockrefs mean. -/
theorem H2Volume.SmallTree.lookupRight (h : v.SmallTree L base) {f : H2Found} {media : ℕ → UInt8}
    (hf : LookupRight L v keySpan blocksize base keyBeg keyEnd f media) :
    LookupRight L v Bref.span Bref.bytes base keyBeg keyEnd f media := by
  have hsize : f.rc ≠ 0 → blocksize f.bref = f.bref.bytes := fun hrc => (h.leaf (hf.leaf hrc).below).blocksize
  refine ⟨hf.nothing.trans (forall₂_congr fun b hb => not_congr (h.leaf hb).hits),fun hrc => h.lowest (hf.leaf hrc),
    fun hrc => ?_,fun hrc => ?_⟩
  · rw [← hsize hrc]
    exact hf.size hrc
  · rw [← hsize hrc]
    exact hf.bytes hrc

/-- A block with one blockref in front is in order. -/
theorem KeysOk.single {span : Bref → ℕ} {b : Bref} (hname : base.dataOff ≠ noBase)
    (hrefs : ∀ i < scanCount L base, i = 0 ∧ v.refOf L base i = b ∨ 0 < i ∧ (v.refOf L base i).type = .empty)
    (htype : b.IsLeaf ∨ b.type = .indirect) (hrange : b.key+span b ≤ 2^64)
    (hwithin : base.type = .indirect → base.key ≤ b.key ∧ b.key+span b ≤ base.key+span base) : KeysOk L v span base := by
  have hone : ∀ i < scanCount L base, (v.refOf L base i).type ≠ .empty → i = 0 ∧ v.refOf L base i = b := fun i hi hne =>
    (hrefs i hi).resolve_right fun h => hne h.2
  refine ⟨hname,fun i hi hne => ?_,fun i hi hne => ?_,fun i hi j hj hij hne hnej => ?_,fun ht i hi hne => ?_⟩
  · rw [(hone i hi hne).2]
    exact htype
  · rw [(hone i hi hne).2]
    exact hrange
  · exact absurd ((hone i hi hne).1.trans (hone j hj hnej).1.symm) hij
  · rw [(hone i hi hne).2]
    exact hwithin ht

/-- An inode of 1 KB at 1 MB with one data block at 4 GB, for some bits of keys and some radix. -/
def leafVolume (bits radix : UInt8) : H2Volume where
  dev := fun o => if o = 1048576+512 then 3 else if o = 1048576+512+3 then bits
    else if o = 1048576+512+32 then radix else if o = 1048576+512+36 then 1 else if o = 4294967296+5 then 77 else 0
  sroot := smallFile
  srootBlockset := fun _ => ⟨.empty,0,0,0⟩

def fileLeaf (bits radix : ℕ) : Bref := ⟨.data,0,bits,4294967296+radix⟩

/-- A block of 1 KB, one for all keys, and one of 4 GB. -/
inductive LeafShape : UInt8 → UInt8 → Prop
  | plain : LeafShape 10 10
  | wide : LeafShape 64 10
  | large : LeafShape 32 32

section Examples
variable {bits radix : UInt8} (hshape : LeafShape bits radix)
include hshape

theorem leafVolume_refOf {i : ℕ} (hi : i < 4) :
    i = 0 ∧ (leafVolume bits radix).refOf h2LayoutV1 smallFile i = fileLeaf bits.toNat radix.toNat ∨
    0 < i ∧ ((leafVolume bits radix).refOf h2LayoutV1 smallFile i).type = .empty := by
  cases hshape <;> interval_cases i
  all_goals first
    | exact .inl ⟨rfl,by decide⟩
    | exact .inr ⟨by decide,by decide⟩

theorem leafVolume_ref {b : Bref} (h : (leafVolume bits radix).Ref h2LayoutV1 b) :
    b = smallFile ∨ b = fileLeaf bits.toNat radix.toNat ∨ b.type = .empty := by
  induction h with
  | root => exact .inl rfl
  | set i hi => exact .inr (.inr rfl)
  | sub hb ht hi ih =>
    obtain rfl | rfl | he := ih
    · obtain ⟨-,hr⟩ | ⟨-,hr⟩ := leafVolume_refOf hshape hi
      · exact .inr (.inl hr)
      · exact .inr (.inr hr)
    · obtain ht | ht := ht <;> cases ht
    · rw [he] at ht
      obtain ht | ht := ht <;> cases ht

end Examples

theorem smallFile_wf : h2LayoutV1.inodeBytes ≤ blocksize smallFile ∧ blocksize smallFile ∣ blockoff smallFile ∧
    blocksize smallFile < 2^31 := by decide

def leafMedia (bits radix : UInt8) (hshape : LeafShape bits radix) : H2Media h2LayoutV1 where
  toH2Volume := leafVolume bits radix
  wf := by
    intro b hb ht
    obtain rfl | rfl | he := leafVolume_ref hshape hb
    · exact ⟨smallFile_wf.1,smallFile_wf.2.1⟩
    · obtain ht | ht := ht <;> cases ht
    · rw [he] at ht
      obtain ht | ht := ht <;> cases ht

def leafDisk : H2Disk h2LayoutV1 where
  toH2Media := leafMedia 10 10 .plain
  leaves := by
    intro b hb ht
    obtain rfl | rfl | he := leafVolume_ref .plain hb
    · exact smallFile_wf
    · decide
    · rw [he] at ht
      obtain ht | ht := ht <;> cases ht

section Examples
variable {bits radix : UInt8} (hshape : LeafShape bits radix)
include hshape

theorem leafVolume_tree : (leafVolume bits radix).KeyTree h2LayoutV1 Bref.span smallFile := by
  refine .node (.single (by decide) (fun i hi => leafVolume_refOf hshape hi) (.inl (.inr rfl)) ?_ fun ht => by cases ht)
    fun i hi ht => ?_
  · cases hshape <;> decide
  obtain ⟨-,hr⟩ | ⟨-,hr⟩ := leafVolume_refOf hshape hi
  · rw [hr] at ht
    cases ht
  · rw [hr] at ht
    cases ht

theorem leafVolume_below : (leafVolume bits radix).LeafBelow h2LayoutV1 smallFile (fileLeaf bits.toNat radix.toNat) := by
  obtain ⟨-,hr⟩ | ⟨h,-⟩ := leafVolume_refOf hshape (show 0 < 4 by decide)
  · rw [← hr]
    refine .here (by decide) ?_
    rw [hr]
    exact .inr rfl
  · exact absurd h (lt_irrefl 0)

end Examples

theorem leafVolume_small : (leafVolume 10 10).SmallTree h2LayoutV1 smallFile := by
  refine .node (fun _ => ⟨by decide,by decide⟩) (fun i hi hne => ?_) fun i hi ht => ?_
  · obtain ⟨-,hr⟩ | ⟨-,hr⟩ := leafVolume_refOf .plain hi
    · rw [hr]
      exact ⟨by decide,by decide⟩
    · exact absurd hr hne
  · obtain ⟨-,hr⟩ | ⟨-,hr⟩ := leafVolume_refOf .plain hi
    · rw [hr] at ht
      cases ht
    · rw [hr] at ht
      cases ht

end Disk

end Blub.Stand
