import Blub.Lib.Fuel
import Blub.Stand.Hammer2Read

/-! When `h2readfile` comes to an end: a record that ends at or before the offset it was found for either makes it
look at the same place for ever, or copy from outside of the block. -/
namespace Blub.Stand
open Blub.Bytes

section Hits
variable {L : H2Layout} {v : H2Volume} {base ret : Bref} {keyBeg keyEnd fuel : ℕ}

/-- The same find, but for the fields that are left as they were. -/
inductive SameHit : H2Hit → H2Hit → Prop
  | nothing : SameHit .nothing .nothing
  | found {n : ℕ} {b b' : Bref} {data : ℕ → UInt8} : b'.key = b.key → SameHit (.found n b data) (.found n b' data)
  | error : SameHit .error .error
  | bad : SameHit .bad .bad

/-- What is found does not depend on what the result held before. -/
theorem lookup_ret {hit : H2Hit} (h : v.lookup L fuel base keyBeg keyEnd ret = some hit) (ret' : Bref) :
    ∃ hit', v.lookup L fuel base keyBeg keyEnd ret' = some hit' ∧ SameHit hit hit' := by
  induction fuel generalizing base keyBeg hit with
  | zero => cases h
  | succ fuel ih =>
    cases lookup_step h with
    | unnamed hname => exact ⟨_,(VolumeStep.unnamed hname).lookup,.bad⟩
    | direct hname hdir => exact ⟨_,(VolumeStep.direct hname hdir).lookup,.found rfl⟩
    | nothing hs ht => exact ⟨_,(VolumeStep.nothing hs ht).lookup,.nothing⟩
    | leaf hs ht hint => exact ⟨_,(VolumeStep.leaf hs ht hint).lookup,.found rfl⟩
    | error hs ht hneg => exact ⟨_,(VolumeStep.error hs ht hneg).lookup,.error⟩
    | other hs ht => exact ⟨_,(VolumeStep.other hs ht).lookup,.bad⟩
    | down hs ht hd hn =>
      obtain ⟨hit',hd',hsame⟩ := ih hd
      refine ⟨hit',(VolumeStep.down hs ht hd' fun hno => hn ?_).lookup,hsame⟩
      subst hno
      cases hsame
      rfl
    | again hs ht hd hn ha =>
      obtain ⟨_,hd',hsame⟩ := ih hd
      cases hsame
      obtain ⟨hit',ha',hsame'⟩ := ih ha
      exact ⟨hit',(VolumeStep.again hs ht hd' hn ha').lookup,hsame'⟩

/-- A record that is found starts in the range or before it. -/
theorem lookup_key {n : ℕ} {b : Bref} {data : ℕ → UInt8}
    (h : v.lookup L fuel base keyBeg keyEnd ret = some (.found n b data)) : b.key ≤ keyEnd := by
  induction fuel generalizing base keyBeg with
  | zero => cases h
  | succ fuel ih =>
    cases lookup_step h with
    | direct => exact Nat.zero_le _
    | leaf _ ht _ =>
      obtain he | ⟨-,hk,-⟩ := best_in_range L v base keyBeg keyEnd (scanCount L base) 0 noBest (Nat.zero_add _) (.inl rfl)
      · exact absurd he ht.nonempty
      · exact hk
    | down _ _ hd _ => exact ih hd
    | again _ _ _ _ ha => exact ih ha

/-- With no leaf and no block below, only the block itself is loaded. -/
theorem H2Volume.Loads.flat {n : ℕ} (h : v.Loads L base keyBeg keyEnd n)
    (hleaf : v.Scans L base → ¬(v.bestOf L base keyBeg keyEnd).IsLeaf)
    (hdown : v.Scans L base → (v.bestOf L base keyBeg keyEnd).type ≠ .indirect) : ScanReads L base n := by
  cases h with
  | block _ hpos hvol => exact ⟨hpos,hvol,rfl⟩
  | leaf hscans ht => exact absurd ht (hleaf hscans)
  | down hscans ht => exact absurd ht (hdown hscans)
  | again hscans ht => exact absurd ht (hdown hscans)

theorem H2Volume.Loads.ofLeaf {n : ℕ} (h : v.Loads L base keyBeg keyEnd n) (ht : (v.bestOf L base keyBeg keyEnd).IsLeaf) :
    ScanReads L base n ∨ n = devBsize L (v.bestOf L base keyBeg keyEnd) := by
  cases h with
  | block _ hpos hvol => exact .inl ⟨hpos,hvol,rfl⟩
  | leaf => exact .inr rfl
  | down _ hti => exact absurd hti (leaf_not_indirect ht)
  | again _ hti => exact absurd hti (leaf_not_indirect ht)

/-- Above an indirect block it is what is loaded there, and if nothing is found there, what is loaded for the keys behind it. -/
theorem H2Volume.Loads.ofIndirect {n : ℕ} {down : H2Hit} (h : v.Loads L base keyBeg keyEnd n)
    (ht : (v.bestOf L base keyBeg keyEnd).type = .indirect)
    (hl : v.lookup L fuel (v.bestOf L base keyBeg keyEnd) keyBeg keyEnd ret = some down) :
    ScanReads L base n ∨ v.Loads L (v.bestOf L base keyBeg keyEnd) keyBeg keyEnd n ∨
      down = .nothing ∧ (v.bestOf L base keyBeg keyEnd).Leaves keyEnd ∧
        v.Loads L base (nextKey (v.bestOf L base keyBeg keyEnd)) keyEnd n := by
  cases h with
  | block _ hpos hvol => exact .inl ⟨hpos,hvol,rfl⟩
  | leaf _ htl => exact absurd ht (leaf_not_indirect htl)
  | down _ _ hn => exact .inr (.inl hn)
  | again _ _ hd hleaves hn =>
    obtain ⟨_,hd',hsame⟩ := lookup_ret hd ret
    cases hsame
    exact .inr (.inr ⟨lookup_unique hl hd',hleaves,hn⟩)

end Hits

section Finite
variable (L : H2Layout) (v : H2Volume)

/-- An inode with its data in it, or a finite tree, whatever the keys and the kinds of its blocks are. -/
inductive H2Volume.FileTree : Bref → Prop
  | direct {base : Bref} : base.dataOff ≠ noBase → 0 < scanCount L base ∧ isDirect L base (v.block base) = true →
    H2Volume.FileTree base
  | node {base : Bref} : base.dataOff ≠ noBase →
    (∀ i < scanCount L base, (v.refOf L base i).type = .indirect → H2Volume.FileTree (v.refOf L base i)) →
    H2Volume.FileTree base

/-- The volume has a record of `n` bytes for `len` bytes from an offset on. -/
def H2Volume.Finds (base : Bref) (off len n : ℕ) (b : Bref) : Prop :=
  ∃ fuel ret data, v.lookup L fuel base off (off+len-1) ret = some (.found n b data)

/-- For these bytes the lookup comes to a blockref of a kind it has no case for. -/
def H2Volume.Unknown (base : Bref) (off len : ℕ) : Prop :=
  ∃ fuel ret, v.lookup L fuel base off (off+len-1) ret = some .bad

/-- From `len` bytes at an offset, going from record to record, the reading comes to `len'` bytes at `off'`. -/
inductive H2Volume.ReadReaches (base : Bref) : ℕ → ℕ → ℕ → ℕ → Prop
  | here {off len : ℕ} : H2Volume.ReadReaches base off len off len
  | next {off len off' len' n : ℕ} {b : Bref} : len ≠ 0 → v.Finds L base off len n b →
    H2Volume.ReadReaches base (off+recordZfill off b+recordCount off len n b)
      (len-recordZfill off b-recordCount off len n b) off' len' → H2Volume.ReadReaches base off len off' len'

/-- What is loaded for these bytes fits into the buffer. -/
def H2Volume.LoadsFit (base : Bref) (off len : ℕ) : Prop := ∀ n, v.Loads L base off (off+len-1) n → n ≤ L.mediaBytes

/-- At each offset that the reading comes to, the lookup has a case for what it meets, what it loads fits into the buffer, and
the record it finds ends behind the offset. -/
def H2Volume.RecordsLast (base : Bref) (off len : ℕ) : Prop :=
  ∀ off' len', v.ReadReaches L base off len off' len' → len' ≠ 0 →
    ¬ v.Unknown L base off' len' ∧ v.LoadsFit L base off' len' ∧ ∀ n b, v.Finds L base off' len' n b → recordBack off' b < n

/-- `h2readfile`, for `len` bytes from an offset on, copies `count` bytes from byte `back` of what `h2lookup` has
returned. -/
inductive H2Copy (unset : ℤ) (base : Bref) : ℕ → ℕ → Bref → H2 → H2Found → ℕ → ℕ → Prop
  | here {off len fuel : ℕ} {bres : Bref} {s s' : H2} {f : H2Found} : len ≠ 0 →
    h2lookup L v unset fuel base off (off+len-1) bres s = some (f,s') → 0 < f.rc →
    H2Copy unset base off len bres s f (recordBack off f.bref)
      (trim (f.rc-recordBack off f.bref) (len-recordZfill off f.bref))
  | later {off len fuel back count : ℕ} {bres : Bref} {s s' : H2} {f g : H2Found} : len ≠ 0 →
    h2lookup L v unset fuel base off (off+len-1) bres s = some (f,s') → 0 < f.rc →
    H2Copy unset base (off+recordZfill off f.bref+trim (f.rc-recordBack off f.bref) (len-recordZfill off f.bref))
      (len-recordZfill off f.bref-trim (f.rc-recordBack off f.bref) (len-recordZfill off f.bref)) f.bref s' g back count →
    H2Copy unset base off len bres s g back count

/-- Bytes that are in the block which `h2lookup` has returned. -/
def H2Found.Has (f : H2Found) (back count : ℕ) : Prop := f.ptr.isSome ∧ (back : ℤ)+count ≤ f.rc

/-- The device reads between two states fit into the buffer. -/
def ReadsFit (s s' : H2) : Prop := ∀ e ∈ s'.log.drop s.log.length, e.nbytes ≤ L.mediaBytes

/-- A call of `h2readfile` comes to an end, reads no more from the device than the buffer takes, and stays inside of the
blocks it copies from. -/
structure ReadEnds (unset : ℤ) (base : Bref) (off filesize len : ℕ) (bres : Bref) (s : H2) : Prop where
  ends : ∃ fuel, (h2readfile L v unset fuel base off filesize len bres s).isSome
  fits : ∀ fuel total data s', h2readfile L v unset fuel base off filesize len bres s = some (total,data,s') → ReadsFit L s s'
  inside : off < filesize → ∀ f back count, H2Copy L v unset base off (min len (filesize-off)) bres s f back count →
    f.Has back count

variable {L v} {base : Bref}

theorem direct_inode (hdir : 0 < scanCount L base ∧ isDirect L base (v.block base) = true) : base.type = .inode := by
  have h := hdir.2
  unfold isDirect at h
  rw [decide_eq_true_eq] at h
  exact h.1

theorem H2Volume.FileTree.tree (h : v.FileTree L base)
    (hdir : ¬ (0 < scanCount L base ∧ isDirect L base (v.block base) = true)) : v.Tree L base := by
  induction h with
  | direct _ hd => exact absurd hd hdir
  | node _ _ ih =>
    refine .node fun i hi ht => ih i hi ht fun hd => ?_
    rw [direct_inode hd] at ht
    cases ht

/-- On such a tree a lookup comes to an end. -/
theorem H2Volume.FileTree.total (h : v.FileTree L base) : ∃ M, ∀ fuel ≥ M, ∀ keyBeg keyEnd ret, keyEnd < 2^64 →
    ∃ hit, v.lookup L fuel base keyBeg keyEnd ret = some hit := by
  by_cases hdir : 0 < scanCount L base ∧ isDirect L base (v.block base) = true
  · refine ⟨1,fun fuel hf keyBeg keyEnd ret _ => ?_⟩
    obtain ⟨m,rfl⟩ := Nat.exists_eq_add_of_le' hf
    rw [H2Volume.lookup]
    split_ifs
    · exact ⟨_,rfl⟩
    · exact ⟨_,rfl⟩
  · exact Filter.eventually_atTop.mp (lookup_total (h.tree hdir))

theorem H2Volume.FileTree.named (h : v.FileTree L base) : base.dataOff ≠ noBase := by
  cases h with
  | direct hname _ => exact hname
  | node hname _ => exact hname

theorem H2Volume.FileTree.sub (h : v.FileTree L base) (hdir : ¬ (0 < scanCount L base ∧ isDirect L base (v.block base) = true))
    {i : ℕ} (hi : i < scanCount L base) (ht : (v.refOf L base i).type = .indirect) : v.FileTree L (v.refOf L base i) := by
  cases h with
  | direct _ hd => exact absurd hd hdir
  | node _ hsub => exact hsub i hi ht

theorem H2Volume.FileTree.best (h : v.FileTree L base) (hs : v.Scans L base) {keyBeg keyEnd : ℕ}
    (ht : (v.bestOf L base keyBeg keyEnd).type = .indirect) : v.FileTree L (v.bestOf L base keyBeg keyEnd) := by
  obtain he | ⟨-,-,i,hi,heq⟩ := best_in_range L v base keyBeg keyEnd (scanCount L base) 0 noBest (Nat.zero_add _) (.inl rfl)
  · exact absurd he (indirect_nonempty ht)
  · change v.refOf L base i = v.bestOf L base keyBeg keyEnd at heq
    rw [← heq] at ht ⊢
    exact h.sub hs.plain hi ht

theorem trim_le (bytes : ℤ) (len : ℕ) : trim bytes len ≤ len := by
  unfold trim
  split_ifs <;> omega

/-- The reading comes to an offset with the bytes that are left. -/
theorem reaches_total {off len off' len' : ℕ} (h : v.ReadReaches L base off len off' len') (hend : off+len < 2^63) :
    off'+len' = off+len := by
  induction h with
  | here => rfl
  | @next off len off' len' n b hne hfinds _ ih =>
    obtain ⟨fuel,ret,data,hl⟩ := hfinds
    have hkey := lookup_key hl
    have hzfill := recordZfill_eq off (b := b) (by omega)
    have hcount : recordCount off len n b ≤ len-recordZfill off b := trim_le _ _
    have htotal := ih (by omega)
    omega

end Finite

section Fit
variable {L : H2Layout} {s s₁ s' : H2}

theorem ReadsFit.refl (s : H2) : ReadsFit L s s := fun e he => by simp at he

theorem ReadsFit.trans (h : ReadsFit L s s₁) (h' : ReadsFit L s₁ s') (hlog : s.log <+: s₁.log) (hlog' : s₁.log <+: s'.log) :
    ReadsFit L s s' := by
  intro e he
  obtain ⟨l,hl⟩ := hlog
  obtain ⟨l',hl'⟩ := hlog'
  unfold ReadsFit at h h'
  rw [← hl',List.drop_left] at h'
  rw [← hl,List.drop_left] at h
  rw [← hl',← hl,List.append_assoc,List.drop_left] at he
  obtain he | he := List.mem_append.mp he
  · exact h e he
  · exact h' e he

theorem ReadsFit.left (h : ReadsFit L s s') (hlog : s₁.log <+: s'.log) : ReadsFit L s s₁ :=
  fun e he => h e ((hlog.drop s.log.length).subset he)

theorem ReadsFit.right (h : ReadsFit L s s') (hlog : s.log <+: s₁.log) : ReadsFit L s₁ s' :=
  fun e he => h e (List.drop_subset_drop_left _ hlog.length_le he)

/-- The key names a block that fits into the buffer. -/
def H2.KeyFits (L : H2Layout) (s : H2) : Prop :=
  s.savedBase ≠ noBase → ∀ b : Bref, b.dataOff = s.savedBase → blocksize b ≤ L.mediaBytes

theorem h2read_fits (v : H2Volume) {n off : ℕ} (h : ReadsFit L s (h2read v n off s).2) : n ≤ L.mediaBytes := by
  let e : H2Read := ⟨n,(h2read v n off s).1,s.savedBase,s.media,(h2read v n off s).2.media⟩
  have he : e ∈ (h2read v n off s).2.log.drop s.log.length := by
    change e ∈ (s.log ++ [e]).drop s.log.length
    rw [List.drop_left]
    exact List.mem_singleton_self e
  exact h e he

theorem h2reload_fits (v : H2Volume) {base : Bref} (hname : base.dataOff ≠ noBase) (hkey : s.KeyFits L)
    (h : ReadsFit L s (h2reload v base s).2) : (h2reload v base s).2.KeyFits L ∧
      ((h2reload v base s).1 = true → base.type ≠ .volume → blocksize base ≤ L.mediaBytes) := by
  unfold h2reload at h ⊢
  dsimp only at h ⊢
  split_ifs at h ⊢ with hload hok
  · have hread : ReadsFit L s (h2read v (blocksize base) (blockoff base) s).2 := h
    have hfit : blocksize base ≤ L.mediaBytes := h2read_fits v hread
    refine ⟨fun _ b hb => ?_,fun _ _ => hfit⟩
    rw [(block_congr (v := v) (show b.dataOff = base.dataOff from hb)).2]
    exact hfit
  · exact ⟨hkey,fun hc => by cases hc⟩
  · refine ⟨hkey,fun _ hv => ?_⟩
    have heq : base.dataOff = s.savedBase := by
      by_contra hne
      exact hload ⟨hv,hne⟩
    exact hkey (heq ▸ hname) base heq

theorem h2scan_fits (v : H2Volume) {base : Bref} (hname : base.dataOff ≠ noBase) {keyBeg keyEnd : ℕ} (k : ℕ) {i : ℕ} {best : Bref}
    {sc : H2Scan} (hkey : s.KeyFits L) (hscan : h2scan L v base keyBeg keyEnd k i best s = (sc,s')) (h : ReadsFit L s s') :
    s'.KeyFits L ∧ (sc ≠ .failed → 0 < k → base.type ≠ .volume → blocksize base ≤ L.mediaBytes) := by
  induction k generalizing i best s with
  | zero =>
    cases hscan
    exact ⟨hkey,fun _ hc => absurd hc (lt_irrefl 0)⟩
  | succ k ih =>
    have hlog := h2reload_log (v := v) base s
    rw [h2scan] at hscan
    split_ifs at hscan with hload
    · cases hscan
      obtain ⟨hkey',hfit⟩ := h2reload_fits v hname hkey h
      exact ⟨hkey',fun _ _ => hfit hload⟩
    · have hlog' := h2scan_log k hscan
      obtain ⟨hkey',hfit⟩ := h2reload_fits v hname hkey (h.left hlog')
      exact ⟨(ih hkey' hscan (h.right hlog)).1,fun _ _ => hfit hload⟩
    · cases hscan
      exact ⟨(h2reload_fits v hname hkey h).1,fun hc => absurd rfl hc⟩

theorem h2leaf_fits (v : H2Volume) {best : Bref} {ok : Bool} (hkey : s.KeyFits L) (hl : h2leaf L v best s = (ok,s'))
    (h : ReadsFit L s s') : s'.KeyFits L ∧ devBsize L best ≤ L.mediaBytes := by
  unfold h2leaf at hl
  dsimp only at hl
  split_ifs at hl
  · cases hl
    exact ⟨fun hc => absurd rfl hc,h2read_fits v h⟩
  · cases hl
    exact ⟨hkey,h2read_fits v h⟩

end Fit

section Loaded
variable {L : H2Layout} (d : H2Media L) {unset : ℤ}

/-- A scan without failing reads. -/
theorem scan_done {base : Bref} (hscans : d.Scans L base) (hbase : H2Base L d.toH2Volume base) (keyBeg keyEnd : ℕ) {s : H2}
    (hs : H2Holds d.toH2Volume s) (hdone : s.Done) :
    ∃ s₁, h2scan L d.toH2Volume base keyBeg keyEnd (scanCount L base) 0 noBest s = (.best (d.bestOf L base keyBeg keyEnd),s₁) ∧
      H2Holds d.toH2Volume s₁ ∧ s₁.Done := by
  obtain ⟨hreads,hscan⟩ := h2scan_result d hscans.named hbase keyBeg keyEnd (scanCount L base) 0 noBest (Nat.zero_add _) hs
  generalize h2scan L d.toH2Volume base keyBeg keyEnd (scanCount L base) 0 noBest s = r at hreads hscan
  obtain ⟨sc,s₁⟩ := r
  cases hscan with
  | failed hno => exact absurd hdone hno
  | embedded hpos hdir => exact absurd ⟨hpos,hdir⟩ hscans.plain
  | best _ hs₁ => exact ⟨s₁,rfl,hs₁,hdone.suffix hreads.io⟩

/-- What comes of a lookup when no read fails. -/
theorem lookup_done {base ret : Bref} {keyBeg keyEnd fuel m : ℕ} {s s' : H2} {hit : H2Hit} {f : H2Found}
    (hbase : H2Base L d.toH2Volume base) (hs : H2Holds d.toH2Volume s) (hdone : s.Done)
    (hl : d.lookup L fuel base keyBeg keyEnd ret = some hit) (hgood : hit ≠ .bad)
    (h : h2lookup L d.toH2Volume unset m base keyBeg keyEnd ret s = some (f,s')) :
    H2Holds d.toH2Volume s' ∧ s'.Done ∧ H2Hits L d.toH2Volume ret f s'.media hit := by
  obtain ⟨g,t,hrun⟩ := h2lookup_result d unset fuel hbase hs hl hgood
  cases h2lookup_unique hrun.run h
  cases hrun.result with
  | failed _ hno => exact absurd hdone hno
  | right hs' hhit => exact ⟨hs',hdone.suffix hrun.reads.io,hhit⟩

/-- The count is 0 where nothing is found, and not where something is. -/
theorem H2Hits.zero_iff {v : H2Volume} {ret : Bref} {f : H2Found} {media : ℕ → UInt8} {hit : H2Hit}
    (h : H2Hits L v ret f media hit) (hgood : hit ≠ .bad) : f.rc = 0 ↔ hit = .nothing := by
  cases hit with
  | nothing => exact ⟨fun _ => rfl,fun _ => h.1⟩
  | found n b data =>
    have hrc := h.1
    have hpos := h.2.2.2.1
    exact ⟨fun hz => by omega,fun hc => by cases hc⟩
  | error => exact ⟨fun hz => absurd h (by rw [H2Hits,hz]; decide),fun hc => by cases hc⟩
  | bad => exact absurd rfl hgood

/-- A scan whose reads succeed and are not too large. -/
theorem scan_fits {base : Bref} {keyBeg keyEnd : ℕ} {s s₁ : H2} {sc : H2Scan} (hname : base.dataOff ≠ noBase)
    (hbase : H2Base L d.toH2Volume base) (hs : H2Holds d.toH2Volume s) (hdone : s.Done) (hkey : s.KeyFits L)
    (h : h2scan L d.toH2Volume base keyBeg keyEnd (scanCount L base) 0 noBest s = (sc,s₁)) (hfit : ReadsFit L s s₁) :
    ScanResult d s base keyBeg keyEnd (scanCount L base) 0 noBest sc s₁ ∧ s₁.Done ∧ s₁.KeyFits L ∧
      (sc ≠ .failed → ∀ n, ScanReads L base n → n ≤ L.mediaBytes) := by
  obtain ⟨hreads,hresult⟩ := h2scan_result d hname hbase keyBeg keyEnd (scanCount L base) 0 noBest (Nat.zero_add _) hs
  obtain ⟨hkey₁,hblock⟩ := h2scan_fits d.toH2Volume hname _ hkey h hfit
  rw [h] at hreads hresult
  refine ⟨hresult,hdone.suffix hreads.io,hkey₁,fun hsc n hn => ?_⟩
  rw [hn.2.2]
  exact hblock hsc hn.1 hn.2.1

/-- If no read fails and none is too large, all that is to be loaded fits into the buffer. -/
theorem h2lookup_fits (fuel : ℕ) {base ret : Bref} {keyBeg keyEnd : ℕ} {s s' : H2} {hit : H2Hit} {f : H2Found}
    (hbase : H2Base L d.toH2Volume base) (hs : H2Holds d.toH2Volume s) (hdone : s.Done) (hkey : s.KeyFits L)
    (hl : d.lookup L fuel base keyBeg keyEnd ret = some hit) (hgood : hit ≠ .bad)
    (h : h2lookup L d.toH2Volume unset fuel base keyBeg keyEnd ret s = some (f,s')) (hfit : ReadsFit L s s') :
    s'.KeyFits L ∧ ∀ n, d.Loads L base keyBeg keyEnd n → n ≤ L.mediaBytes := by
  induction fuel generalizing base keyBeg ret s s' hit f with
  | zero => cases hl
  | succ fuel ih =>
    cases h2lookup_step L d.toH2Volume unset fuel base keyBeg keyEnd ret s h with
    | unnamed hname =>
      rw [(VolumeStep.unnamed hname).lookup] at hl
      cases hl
      exact absurd rfl hgood
    | failed hname hsc =>
      obtain ⟨hresult,-⟩ := scan_fits d hname hbase hs hdone hkey hsc hfit
      cases hresult with
      | failed hno => exact absurd hdone hno
    | embedded hname hsc =>
      obtain ⟨hresult,-,hkey₁,hblock⟩ := scan_fits d hname hbase hs hdone hkey hsc hfit
      cases hresult with
      | embedded hpos hdir =>
        exact ⟨hkey₁,fun n hn => hblock (fun hc => by cases hc) n (hn.flat (fun hscans => absurd ⟨hpos,hdir⟩ hscans.plain)
          fun hscans => absurd ⟨hpos,hdir⟩ hscans.plain)⟩
    | nothing hname hsc ht =>
      obtain ⟨hresult,-,hkey₁,hblock⟩ := scan_fits d hname hbase hs hdone hkey hsc hfit
      cases hresult with
      | best hdir =>
        exact ⟨hkey₁,fun n hn => hblock (fun hc => by cases hc) n (hn.flat (fun _ htl => absurd ht htl.nonempty)
          fun _ hti => absurd ht (indirect_nonempty hti))⟩
    | other hname hsc ht =>
      obtain ⟨hresult,-⟩ := scan_fits d hname hbase hs hdone hkey hsc hfit
      cases hresult with
      | best hdir =>
        rw [(VolumeStep.other ⟨hname,hdir⟩ ht).lookup] at hl
        cases hl
        exact absurd rfl hgood
    | leafFailed hname hsc ht hleaf =>
      obtain ⟨-,hdone₁,-⟩ := scan_fits d hname hbase hs hdone hkey hsc (hfit.left (h2leaf_log hleaf))
      exact absurd hdone₁ ((h2leaf_ok d.toH2Volume _ _).1 (congrArg Prod.fst hleaf))
    | leaf hname hsc ht hleaf =>
      obtain ⟨hresult,-,hkey₁,hblock⟩ := scan_fits d hname hbase hs hdone hkey hsc (hfit.left (h2leaf_log hleaf))
      obtain ⟨hkey₂,hsize⟩ := h2leaf_fits d.toH2Volume hkey₁ hleaf (hfit.right (h2scan_log _ hsc))
      cases hresult with
      | best hdir =>
        refine ⟨hkey₂,fun n hn => ?_⟩
        obtain hn | rfl := hn.ofLeaf ht
        · exact hblock (fun hc => by cases hc) n hn
        · exact hsize
    | down hname hsc ht hd hc =>
      obtain ⟨hresult,hdone₁,hkey₁,hblock⟩ := scan_fits d hname hbase hs hdone hkey hsc (hfit.left (h2lookup_log hd))
      cases hresult with
      | best hdir hs₁ =>
        have href : d.Ref L (d.bestOf L base keyBeg keyEnd) := bestOf_ref d hbase (indirect_nonempty ht)
        obtain ⟨down,hdown,hbad⟩ := lookup_below hl ⟨hname,hdir⟩ ht hgood
        obtain ⟨-,-,hhit⟩ := lookup_done d (fun _ => href) hs₁ hdone₁ hdown hbad hd
        obtain ⟨hkey₂,hloads⟩ := ih (fun _ => href) hs₁ hdone₁ hkey₁ hdown hbad hd (hfit.right (h2scan_log _ hsc))
        refine ⟨hkey₂,fun n hn => ?_⟩
        obtain hn | hn | ⟨hno,hleaves,-⟩ := hn.ofIndirect ht hdown
        · exact hblock (fun hc => by cases hc) n hn
        · exact hloads n hn
        · exact absurd ⟨(hhit.zero_iff hbad).mpr hno,hleaves⟩ hc
    | again hname hsc ht hd hc ha =>
      have hgrow := h2lookup_log ha
      obtain ⟨hresult,hdone₁,hkey₁,hblock⟩ := scan_fits d hname hbase hs hdone hkey hsc
        (hfit.left ((h2lookup_log hd).trans hgrow))
      have hfit₁ := hfit.right (h2scan_log _ hsc)
      cases hresult with
      | best hdir hs₁ =>
        have href : d.Ref L (d.bestOf L base keyBeg keyEnd) := bestOf_ref d hbase (indirect_nonempty ht)
        obtain ⟨down,hdown,hbad⟩ := lookup_below hl ⟨hname,hdir⟩ ht hgood
        obtain ⟨hs₂,hdone₂,hhit⟩ := lookup_done d (fun _ => href) hs₁ hdone₁ hdown hbad hd
        obtain ⟨hkey₂,hloads⟩ := ih (fun _ => href) hs₁ hdone₁ hkey₁ hdown hbad hd (hfit₁.left hgrow)
        cases (hhit.zero_iff hbad).mp hc.1
        have hnext := lookup_next hl ⟨hname,hdir⟩ ht hdown hc.2
        rw [← hhit.2] at hnext
        obtain ⟨hkey₃,hloads'⟩ := ih hbase hs₂ hdone₂ hkey₂ hnext hgood ha (hfit₁.right (h2lookup_log hd))
        refine ⟨hkey₃,fun n hn => ?_⟩
        obtain hn | hn | ⟨-,-,hn⟩ := hn.ofIndirect ht hdown
        · exact hblock (fun hc => by cases hc) n hn
        · exact hloads n hn
        · exact hloads' n hn

end Loaded

section Stall
variable {L : H2Layout} (d : H2Media L) (unset : ℤ) {base : Bref}

/-- A record that ends behind the offset brings the reading on, within the bytes wanted and those of the record. -/
structure BringsOn (off len n : ℕ) (b : Bref) : Prop where
  less : len-recordZfill off b-recordCount off len n b < len
  total : off+recordZfill off b+recordCount off len n b+(len-recordZfill off b-recordCount off len n b) = off+len
  inside : recordBack off b+recordCount off len n b ≤ n

theorem record_brings_on {off len n : ℕ} {b : Bref} (hend : off+len < 2^63) (hlen : len ≠ 0) (hkey : b.key ≤ off+len-1)
    (hlt : recordBack off b < n) : BringsOn off len n b := by
  have hback := recordBack_eq off (b := b) (by omega)
  have hzfill := recordZfill_eq off (b := b) (by omega)
  have hcount : recordCount off len n b = min (n-(off-b.key)) (len-(b.key-off)) := by
    unfold recordCount
    rw [trim_of_lt hlt,hback,hzfill]
  rw [hback] at hlt
  constructor <;> rw [hcount] <;> try rw [hzfill]
  · clear hback hzfill hcount
    omega
  · clear hback hzfill hcount
    omega
  · rw [hback]
    clear hback hzfill hcount
    omega

/-- One turn of the loop after a lookup. -/
theorem readfileLoop_turn {v : H2Volume} {off len m fuel : ℕ} {bres : Bref} {s s' : H2} {f : H2Found} {acc data : List UInt8}
    {total : ℤ} {t : H2} (hlen : len ≠ 0)
    (hrun : h2lookup L v unset m base off (off+len-1) bres s = some (f,s'))
    (h : readfileLoop L v unset (fuel+1) base off len acc bres s = some (total,data,t)) :
    (f.rc ≤ 0 ∧ t = s') ∨ (0 < f.rc ∧ ∃ acc', readfileLoop L v unset fuel base
      (off+recordZfill off f.bref+trim (f.rc-recordBack off f.bref) (len-recordZfill off f.bref))
      (len-recordZfill off f.bref-trim (f.rc-recordBack off f.bref) (len-recordZfill off f.bref)) acc' f.bref s' =
        some (total,data,t)) := by
  rw [readfileLoop,if_neg hlen] at h
  cases hl : h2lookup L v unset fuel base off (off+len-1) bres s with
  | none => rw [hl] at h; cases h
  | some out =>
    cases h2lookup_unique hrun hl
    rw [hl] at h
    dsimp only at h
    split_ifs at h with hneg hzero
    · cases h
      exact .inl ⟨hneg.le,rfl⟩
    · cases h
      exact .inl ⟨hzero.le,rfl⟩
    · exact .inr ⟨by omega,_,h⟩

/-- What a reading should come to, from some fuel on. -/
structure ReadingEnds (base : Bref) (off len : ℕ) (bres : Bref) (s : H2) (N : ℕ) : Prop where
  ends : ∀ fuel acc, N < fuel → (readfileLoop L d.toH2Volume unset fuel base off len acc bres s).isSome
  fits : ∀ fuel acc total data t, readfileLoop L d.toH2Volume unset fuel base off len acc bres s = some (total,data,t) →
    ReadsFit L s t
  inside : ∀ f back count, H2Copy L d.toH2Volume unset base off len bres s f back count → f.Has back count

theorem readingEnds_zero (base : Bref) (off : ℕ) (bres : Bref) (s : H2) (N : ℕ) : ReadingEnds d unset base off 0 bres s N where
  ends fuel acc hf := by
    obtain ⟨fuel,rfl⟩ := Nat.exists_eq_succ_of_ne_zero (Nat.ne_zero_of_lt hf)
    rw [readfileLoop,if_pos rfl]
    rfl
  fits fuel acc total data t h := by
    cases fuel with
    | zero => cases h
    | succ fuel =>
      rw [readfileLoop,if_pos rfl] at h
      cases h
      exact ReadsFit.refl s
  inside f back count hcopy := by
    cases hcopy with
    | here hne => exact absurd rfl hne
    | later hne => exact absurd rfl hne

section Turn
variable {d unset} {off len M : ℕ} {bres : Bref} {s s' : H2} {f : H2Found} (hlen : len ≠ 0)
  (hrun : h2lookup L d.toH2Volume unset M base off (off+len-1) bres s = some (f,s')) (hfit : ReadsFit L s s')
  (hlog : s.log <+: s'.log)
include hlen hrun hfit hlog

/-- The lookup finds nothing, or reports an error. -/
theorem readingEnds_stop (hrc : f.rc ≤ 0) : ReadingEnds d unset base off len bres s (M+len) where
  ends fuel acc hf := by
    obtain ⟨fuel,rfl⟩ := Nat.exists_eq_succ_of_ne_zero (Nat.ne_zero_of_lt hf)
    rw [Nat.succ_eq_add_one,readfileLoop,if_neg hlen,h2lookup_le hrun (by omega)]
    dsimp only
    split_ifs
    · rfl
    · rfl
    · omega
  fits fuel acc total data t h := by
    cases fuel with
    | zero => cases h
    | succ fuel =>
      obtain ⟨-,rfl⟩ | ⟨hpos,-⟩ := readfileLoop_turn unset hlen hrun h
      · exact hfit
      · omega
  inside g back count hcopy := by
    cases hcopy with
    | here _ hr hpos =>
      cases h2lookup_unique hrun hr
      omega
    | later _ hr hpos =>
      cases h2lookup_unique hrun hr
      omega

/-- The lookup finds a record that brings the reading on. -/
theorem readingEnds_next (hpos : 0 < f.rc) (hp : f.ptr.isSome)
    (hless : len-recordZfill off f.bref-trim (f.rc-recordBack off f.bref) (len-recordZfill off f.bref) < len)
    (hinside : (recordBack off f.bref : ℤ)+trim (f.rc-recordBack off f.bref) (len-recordZfill off f.bref) ≤ f.rc)
    (hnext : ReadingEnds d unset base
      (off+recordZfill off f.bref+trim (f.rc-recordBack off f.bref) (len-recordZfill off f.bref))
      (len-recordZfill off f.bref-trim (f.rc-recordBack off f.bref) (len-recordZfill off f.bref)) f.bref s'
      (M+(len-recordZfill off f.bref-trim (f.rc-recordBack off f.bref) (len-recordZfill off f.bref)))) :
    ReadingEnds d unset base off len bres s (M+len) where
  ends fuel acc hf := by
    obtain ⟨fuel,rfl⟩ := Nat.exists_eq_succ_of_ne_zero (Nat.ne_zero_of_lt hf)
    rw [Nat.succ_eq_add_one,readfileLoop,if_neg hlen,h2lookup_le hrun (by omega)]
    dsimp only
    rw [if_neg (by omega),if_neg (by omega)]
    exact hnext.ends fuel _ ((Nat.add_lt_add_left hless M).trans_le (Nat.lt_succ_iff.mp hf))
  fits fuel acc total data t h := by
    cases fuel with
    | zero => cases h
    | succ fuel =>
      obtain ⟨hrc,-⟩ | ⟨-,acc',hrest⟩ := readfileLoop_turn unset hlen hrun h
      · omega
      · exact hfit.trans (hnext.fits fuel acc' total data t hrest) hlog (readfileLoop_log d.toH2Volume fuel hrest)
  inside g back count hcopy := by
    cases hcopy with
    | here _ hr =>
      cases h2lookup_unique hrun hr
      exact ⟨hp,hinside⟩
    | later _ hr _ hc =>
      cases h2lookup_unique hrun hr
      exact hnext.inside g back count hc

end Turn

/-- While no record ends too early, the reading comes to an end, and stays inside of the buffer and the blocks. -/
theorem readfileLoop_ends (hbase : H2Base L d.toH2Volume base) {M : ℕ}
    (hM : ∀ fuel ≥ M, ∀ keyBeg keyEnd ret, keyEnd < 2^64 → ∃ hit, d.lookup L fuel base keyBeg keyEnd ret = some hit)
    (len : ℕ) : ∀ off, off+len < 2^63 → d.RecordsLast L base off len → ∀ bres s, H2Holds d.toH2Volume s →
      ReadingEnds d unset base off len bres s (M+len) := by
  induction len using Nat.strong_induction_on with
  | _ len ih =>
    intro off hend hlast bres s hs
    by_cases hlen : len = 0
    · subst hlen
      exact readingEnds_zero d unset base off bres s _
    obtain ⟨hit,hl⟩ := hM M le_rfl off (off+len-1) bres (by omega)
    obtain ⟨hknown,hloads,hrecord⟩ := hlast off len .here hlen
    have hgood : hit ≠ .bad := by
      rintro rfl
      exact hknown ⟨M,bres,hl⟩
    obtain ⟨f,s',hlook⟩ := h2lookup_result d unset M hbase hs hl hgood
    have hrun := hlook.run
    have hlog := hlook.reads.log
    have hfit : ReadsFit L s s' := fun e he => hloads _ (hlook.reads.sizes e he)
    cases hlook.result with
    | failed hrc => exact readingEnds_stop hlen hrun hfit hlog (by omega)
    | right hs' hhit =>
      cases hit with
      | bad => exact absurd rfl hgood
      | nothing => exact readingEnds_stop hlen hrun hfit hlog hhit.1.le
      | error => exact readingEnds_stop hlen hrun hfit hlog (le_of_lt hhit)
      | found n b data =>
        obtain ⟨hrc,rfl,-,hpos,p,hp,-⟩ := hhit
        have hfinds : d.Finds L base off len n f.bref := ⟨M,bres,data,hl⟩
        obtain ⟨hless,htotal,hinside⟩ := record_brings_on hend hlen (lookup_key hl) (hrecord n f.bref hfinds)
        have htrim : trim (f.rc-recordBack off f.bref) (len-recordZfill off f.bref) = recordCount off len n f.bref := by
          rw [hrc]
          rfl
        refine readingEnds_next hlen hrun hfit hlog (by omega) (by rw [hp]; rfl) ?_ ?_ ?_ <;> rw [htrim]
        · exact hless
        · rw [hrc]
          exact_mod_cast hinside
        · exact ih _ hless (off+recordZfill off f.bref+recordCount off len n f.bref) (by rw [htotal]; exact hend)
            (fun off' len' hreach => hlast off' len' (.next hlen hfinds hreach)) f.bref s' hs'

/-- The reading is held up: it stays where it is for ever, comes to an end only after a read that the buffer is too small
for, or leaves the block. -/
def HeldUp (base : Bref) (off len : ℕ) (bres : Bref) (s : H2) : Prop :=
  (∀ fuel acc total data t, readfileLoop L d.toH2Volume unset fuel base off len acc bres s = some (total,data,t) →
    ¬ ReadsFit L s t) ∨
  ∃ f back count, H2Copy L d.toH2Volume unset base off len bres s f back count ∧ ¬ f.Has back count

/-- What the code comes to where the volume finds a record. -/
theorem h2lookup_finds (hbase : H2Base L d.toH2Volume base) {off len n : ℕ} {b : Bref} (bres : Bref)
    {s : H2} (hs : H2Holds d.toH2Volume s) (hdone : s.Done) (hfinds : d.Finds L base off len n b) :
    ∃ fuel hit f s', d.lookup L fuel base off (off+len-1) bres = some hit ∧ hit ≠ .bad ∧
      h2lookup L d.toH2Volume unset fuel base off (off+len-1) bres s = some (f,s') ∧ f.rc = n ∧
      f.bref.key = b.key ∧ 0 < n := by
  obtain ⟨fuel,ret,data,hl⟩ := hfinds
  obtain ⟨hit,hl',hsame⟩ := lookup_ret hl bres
  cases hsame with
  | @found _ _ b' _ hk =>
    have hgood : H2Hit.found n b' data ≠ .bad := fun hc => by cases hc
    obtain ⟨f,s',hlook⟩ := h2lookup_result d unset fuel hbase hs hl' hgood
    obtain ⟨-,-,hrc,rfl,-,hpos,-⟩ := lookup_done d hbase hs hdone hl' hgood hlook.run
    exact ⟨fuel,_,f,s',hl',hgood,hlook.run,hrc,hk,hpos⟩

/-- Where the lookup has no case, the code returns a variable it has not set, which may be 1. -/
theorem h2lookup_unknown (htree : d.FileTree L base) (hbase : H2Base L d.toH2Volume base) (fuel : ℕ) {ret : Bref}
    {keyBeg keyEnd : ℕ} {s : H2} (hs : H2Holds d.toH2Volume s) (hdone : s.Done)
    (hl : d.lookup L fuel base keyBeg keyEnd ret = some .bad) :
    ∃ f s', h2lookup L d.toH2Volume 1 fuel base keyBeg keyEnd ret s = some (f,s') ∧ f.rc = 1 ∧ f.ptr = none := by
  induction fuel generalizing base keyBeg s ret with
  | zero => cases hl
  | succ fuel ih =>
    cases lookup_step hl with
    | unnamed hname => exact absurd hname htree.named
    | other hscans ht =>
      obtain ⟨s₁,hscan,-⟩ := scan_done d hscans hbase keyBeg keyEnd hs hdone
      exact ⟨_,_,(LookupStep.other hscans.named hscan ht).run,rfl,rfl⟩
    | down hscans ht hd =>
      obtain ⟨s₁,hscan,hs₁,hdone₁⟩ := scan_done d hscans hbase keyBeg keyEnd hs hdone
      obtain ⟨f,s₂,hf,hrc,hp⟩ := ih (htree.best hscans ht) (fun _ => bestOf_ref d hbase (indirect_nonempty ht)) hs₁ hdone₁ hd
      exact ⟨f,s₂,(LookupStep.down hscans.named hscan ht hf fun hc => by omega).run,hrc,hp⟩
    | again hscans ht hd hn ha =>
      obtain ⟨s₁,hscan,hs₁,hdone₁⟩ := scan_done d hscans hbase keyBeg keyEnd hs hdone
      have href : d.Ref L (d.bestOf L base keyBeg keyEnd) := bestOf_ref d hbase (indirect_nonempty ht)
      have hgood : H2Hit.nothing ≠ .bad := fun hc => by cases hc
      obtain ⟨g,s₂,hlook⟩ := h2lookup_result d 1 fuel (fun _ => href) hs₁ hd hgood
      obtain ⟨hs₂,hdone₂,hrc,hret⟩ := lookup_done d (fun _ => href) hs₁ hdone₁ hd hgood hlook.run
      rw [← hret] at ha
      obtain ⟨f,s₃,hf,hend⟩ := ih htree hbase hs₂ hdone₂ ha
      exact ⟨f,s₃,(LookupStep.again hscans.named hscan ht hlook.run ⟨hrc,hn⟩ hf).run,hend⟩

theorem recordBack_congr (off : ℕ) {b b' : Bref} (h : b'.key = b.key) :
    recordBack off b' = recordBack off b ∧ recordZfill off b' = recordZfill off b := by
  unfold recordBack recordZfill
  rw [h]
  exact ⟨rfl,rfl⟩

theorem heldUp_here (hbase : H2Base L d.toH2Volume base) {off len n : ℕ} {b : Bref}
    (hlen : len ≠ 0) (hfinds : d.Finds L base off len n b) (hearly : n ≤ recordBack off b) (bres : Bref) {s : H2}
    (hs : H2Holds d.toH2Volume s) (hdone : s.Done) : HeldUp d unset base off len bres s := by
  have hzero : 0 < recordBack off b → recordZfill off b = 0 := by
    unfold recordBack recordZfill
    generalize Int.bmod (b.key : ℤ) (2^64) = k
    omega
  obtain hlt | heq := Nat.lt_or_eq_of_le hearly
  · -- the count is less than 0, which is taken for a large one
    obtain ⟨fuel,-,f,s',-,-,hrun,hrc,hkey,hpos⟩ := h2lookup_finds d unset hbase bres hs hdone hfinds
    obtain ⟨hback,hzfill⟩ := recordBack_congr off hkey
    refine .inr ⟨f,_,_,.here hlen hrun (by omega),?_⟩
    rw [hback,hzfill,hzero (by omega),Nat.sub_zero]
    unfold H2Found.Has trim
    rw [hrc,if_pos (.inl (by omega))]
    omega
  · -- the count is 0, and the next turn is the same one again
    refine .inl fun fuel => ?_
    induction fuel generalizing bres s with
    | zero => exact fun _ _ _ _ h => by cases h
    | succ fuel ih =>
      intro acc total data t h
      obtain ⟨m,hit,f,s',hl,hgood,hrun,hrc,hkey,hpos⟩ := h2lookup_finds d unset hbase bres hs hdone hfinds
      obtain ⟨hs',hdone',-⟩ := lookup_done d hbase hs hdone hl hgood hrun
      obtain ⟨hback,hzfill⟩ := recordBack_congr off hkey
      have hcount : trim (f.rc-recordBack off b) len = 0 := by
        unfold trim
        rw [hrc,← heq,Int.sub_self,if_neg (by omega)]
        rfl
      obtain ⟨hle,-⟩ | ⟨-,acc',hrest⟩ := readfileLoop_turn unset hlen hrun h
      · omega
      · rw [hback,hzfill,hzero (by omega),Nat.sub_zero,hcount] at hrest
        exact fun hfit => ih f.bref hs' hdone' acc' total data t hrest (hfit.right (h2lookup_log hrun))

/-- So is a reading that comes to a block which the buffer is too small for. -/
theorem heldUp_large (hbase : H2Base L d.toH2Volume base) {off len fuel : ℕ} (hlen : len ≠ 0) {hit : H2Hit} {bres : Bref}
    (hl : d.lookup L fuel base off (off+len-1) bres = some hit) (hgood : hit ≠ .bad) (hlarge : ¬ d.LoadsFit L base off len)
    {s : H2} (hs : H2Holds d.toH2Volume s) (hdone : s.Done) (hkey : s.KeyFits L) : HeldUp d unset base off len bres s := by
  obtain ⟨f,s',hlook⟩ := h2lookup_result d unset fuel hbase hs hl hgood
  have hover : ¬ ReadsFit L s s' := fun hfit => hlarge (h2lookup_fits d fuel hbase hs hdone hkey hl hgood hlook.run hfit).2
  refine .inl fun m acc total data t h => ?_
  cases m with
  | zero => cases h
  | succ m =>
    obtain ⟨-,rfl⟩ | ⟨-,acc',hrest⟩ := readfileLoop_turn unset hlen hlook.run h
    · exact hover
    · exact fun hfit => hover (hfit.left (readfileLoop_log d.toH2Volume m hrest))

/-- A reading that comes to a place where it is held up is held up. -/
theorem heldUp_reaches (hbase : H2Base L d.toH2Volume base) {off len off' len' : ℕ}
    (hreach : d.ReadReaches L base off len off' len')
    (hstop : ∀ bres s, H2Holds d.toH2Volume s → s.Done → s.KeyFits L → HeldUp d unset base off' len' bres s) (bres : Bref) {s : H2}
    (hs : H2Holds d.toH2Volume s) (hdone : s.Done) (hkey : s.KeyFits L) : HeldUp d unset base off len bres s := by
  induction hreach generalizing bres s with
  | here => exact hstop bres s hs hdone hkey
  | @next off len off' len' m b₁ hne hfinds₁ _ ih =>
    obtain ⟨fuel,hit,f,s',hl,hgood,hrun,hrc,hbref,hpos⟩ := h2lookup_finds d unset hbase bres hs hdone hfinds₁
    by_cases hfits : d.LoadsFit L base off len
    swap
    · exact heldUp_large d unset hbase hne hl hgood hfits hs hdone hkey
    obtain ⟨hs',hdone',-⟩ := lookup_done d hbase hs hdone hl hgood hrun
    obtain ⟨g,t,hlook⟩ := h2lookup_result d unset fuel hbase hs hl hgood
    cases h2lookup_unique hlook.run hrun
    have hkey' := (h2lookup_fits d fuel hbase hs hdone hkey hl hgood hrun fun e he => hfits _ (hlook.reads.sizes e he)).1
    obtain ⟨hback,hzfill⟩ := recordBack_congr off hbref
    have hcount : trim (f.rc-recordBack off f.bref) (len-recordZfill off f.bref) = recordCount off len m b₁ := by
      rw [hrc,hback,hzfill]
      rfl
    obtain hnone | ⟨g,back,count,hcopy,hout⟩ := ih hstop f.bref hs' hdone' hkey'
    · refine .inl fun fuel' acc total data t h => ?_
      cases fuel' with
      | zero => cases h
      | succ fuel' =>
        obtain ⟨hle,-⟩ | ⟨-,acc',hrest⟩ := readfileLoop_turn unset hne hrun h
        · omega
        · rw [hcount,hzfill] at hrest
          exact fun hfit => hnone fuel' acc' total data t hrest (hfit.right (h2lookup_log hrun))
    · refine .inr ⟨g,back,count,.later hne hrun (by omega) ?_,hout⟩
      rw [hcount,hzfill]
      exact hcopy

/-- So is one that comes to a blockref which the lookup has no case for. -/
theorem heldUp_unknown (htree : d.FileTree L base) (hbase : H2Base L d.toH2Volume base) {off len : ℕ} (hlen : len ≠ 0)
    (hunknown : d.Unknown L base off len) (bres : Bref) {s : H2} (hs : H2Holds d.toH2Volume s) (hdone : s.Done) :
    HeldUp d 1 base off len bres s := by
  obtain ⟨fuel,ret,hl⟩ := hunknown
  obtain ⟨hit,hl',hsame⟩ := lookup_ret hl bres
  cases hsame with
  | bad =>
    obtain ⟨f,s',hrun,hrc,hp⟩ := h2lookup_unknown d htree hbase fuel hs hdone hl'
    refine .inr ⟨f,_,_,.here hlen hrun (by omega),fun hin => ?_⟩
    rw [H2Found.Has,hp] at hin
    cases hin.1

/-- The start: no key, and no read that fails. -/
def h2clear : H2 := ⟨fun _ => 0,noBase,[],[]⟩

theorem h2clear_holds (v : H2Volume) : H2Holds v h2clear := fun hne => absurd rfl hne

theorem h2clear_done : h2clear.Done := fun _ ho => absurd ho List.not_mem_nil

theorem h2clear_keyFits (L : H2Layout) : h2clear.KeyFits L := fun hne => absurd rfl hne

/-- A reading that is held up does not end, overruns the buffer, or leaves a block. -/
theorem HeldUp.not_ends {off filesize len : ℕ} {bres : Bref} {s : H2} (hoff : off < filesize)
    (h : HeldUp d unset base off (min len (filesize-off)) bres s) :
    ¬ ReadEnds L d.toH2Volume unset base off filesize len bres s := by
  intro hends
  obtain hnone | ⟨f,back,count,hcopy,hout⟩ := h
  · obtain ⟨fuel,hsome⟩ := hends.ends
    obtain ⟨⟨total,data,t⟩,hr⟩ := Option.isSome_iff_exists.mp hsome
    have hfit := hends.fits fuel total data t hr
    rw [h2readfile,if_neg (not_le.mpr hoff)] at hr
    exact hnone fuel [] total data t hr hfit
  · exact hout (hends.inside hoff f back count hcopy)

end Stall

section Cases
variable {L : H2Layout} (d : H2Media L) {base : Bref}

theorem finds_direct (hname : base.dataOff ≠ noBase)
    (hdir : 0 < scanCount L base ∧ isDirect L base (d.block base) = true) {off len n : ℕ} {b : Bref} :
    d.Finds L base off len n b → n = L.embeddedBytes ∧ b.key = 0 := by
  rintro ⟨fuel,ret,data,hl⟩
  cases fuel with
  | zero => cases hl
  | succ fuel =>
    rw [lookup_direct d.toH2Volume hname hdir] at hl
    cases hl
    exact ⟨rfl,rfl⟩

theorem known_direct (hname : base.dataOff ≠ noBase)
    (hdir : 0 < scanCount L base ∧ isDirect L base (d.block base) = true) {off len : ℕ} : ¬ d.Unknown L base off len := by
  rintro ⟨fuel,ret,hl⟩
  cases fuel with
  | zero => cases hl
  | succ fuel =>
    rw [lookup_direct d.toH2Volume hname hdir] at hl
    cases hl

theorem reaches_zero {v : H2Volume} {off off' len' : ℕ} (h : v.ReadReaches L base off 0 off' len') : len' = 0 := by
  cases h with
  | here => rfl
  | next hne => exact absurd rfl hne

theorem loadsFit_direct (hname : base.dataOff ≠ noBase)
    (hdir : 0 < scanCount L base ∧ isDirect L base (d.block base) = true) {off len : ℕ} :
    d.LoadsFit L base off len ↔ blocksize base ≤ L.mediaBytes := by
  have hvol : base.type ≠ .volume := by
    rw [direct_inode hdir]
    exact fun hc => by cases hc
  refine ⟨fun h => h _ (.block hname hdir.1 hvol),fun h n hn => ?_⟩
  cases hn with
  | block => exact h
  | leaf hs => exact absurd hdir hs.plain
  | down hs => exact absurd hdir hs.plain
  | again hs => exact absurd hdir hs.plain

/-- Of the bytes in an inode that fits into the buffer, no more may be asked for than there are. -/
theorem recordsLast_direct (hname : base.dataOff ≠ noBase)
    (hdir : 0 < scanCount L base ∧ isDirect L base (d.block base) = true) {off len : ℕ} :
    d.RecordsLast L base off len ↔ len = 0 ∨ (blocksize base ≤ L.mediaBytes ∧ off+len ≤ L.embeddedBytes) := by
  have hplace : ∀ {off : ℕ} {b : Bref}, b.key = 0 → recordBack off b = off ∧ recordZfill off b = 0 := by
    intro off b hb
    have hback := recordBack_eq off (b := b) (by omega)
    have hzfill := recordZfill_eq off (b := b) (by omega)
    rw [hb] at hback hzfill
    exact ⟨hback,hzfill.trans (Nat.zero_sub _)⟩
  have hfinds : ∀ off len, d.Finds L base off len L.embeddedBytes {noBest with type := .data, key := 0} :=
    fun off len => ⟨1,noBest,_,lookup_direct d.toH2Volume hname hdir 0 off _ noBest⟩
  have hcount : ∀ {off len : ℕ} {b : Bref}, b.key = 0 → off < L.embeddedBytes →
      recordCount off len L.embeddedBytes b = min (L.embeddedBytes-off) len := by
    intro off len b hb hlt
    unfold recordCount
    rw [trim_of_lt (by rw [(hplace hb).1]; exact hlt),(hplace hb).1,(hplace hb).2,Nat.sub_zero]
  constructor
  · intro hlast
    by_cases hlen : len = 0
    · exact .inl hlen
    obtain ⟨-,hfit,hlt⟩ := hlast off len .here hlen
    refine .inr ⟨(loadsFit_direct d hname hdir).mp hfit,?_⟩
    by_contra hbig
    have hoff := hlt _ _ (hfinds off len)
    rw [(hplace rfl).1] at hoff
    -- the bytes there are have been taken, and the reading stands at their end
    have hreach : d.ReadReaches L base off len L.embeddedBytes (len-(L.embeddedBytes-off)) := by
      have hnext := @H2Volume.ReadReaches.next L d.toH2Volume base off len L.embeddedBytes (len-(L.embeddedBytes-off)) _ _
        hlen (hfinds off len)
      rw [hcount rfl hoff,(hplace rfl).2,Nat.min_eq_left (by omega),Nat.add_zero,Nat.sub_zero,
        Nat.add_sub_cancel' hoff.le] at hnext
      exact hnext .here
    have hstuck := (hlast _ _ hreach (by omega)).2.2 _ _ (hfinds _ _)
    rw [(hplace rfl).1] at hstuck
    exact lt_irrefl _ hstuck
  · intro hor off' len' hreach hne
    have hfit : len' ≠ 0 → len ≠ 0 → d.LoadsFit L base off' len' := fun _ hlen =>
      (loadsFit_direct d hname hdir).mpr (hor.resolve_left hlen).1
    have hlen : len ≠ 0 := by
      rintro rfl
      exact hne (reaches_zero hreach)
    refine ⟨known_direct d hname hdir,hfit hne hlen,fun n b hf => ?_⟩
    obtain ⟨rfl,hb⟩ := finds_direct d hname hdir hf
    rw [(hplace hb).1]
    cases hreach with
    | here => omega
    | next hlen hf₁ hrest =>
      exfalso
      obtain ⟨rfl,hb₁⟩ := finds_direct d hname hdir hf₁
      rw [hcount hb₁ (by omega),(hplace hb₁).2,Nat.min_eq_right (by omega),Nat.sub_zero,Nat.sub_self] at hrest
      exact hne (reaches_zero hrest)

/-- The inode of the small file has its data in it. -/
theorem smallFile_direct : 0 < scanCount h2LayoutV1 smallFile ∧
    isDirect h2LayoutV1 smallFile ((smallDisk 7 (.inl rfl)).toH2Media.block smallFile) = true := by
  refine ⟨by decide,by decide⟩

end Cases

end Blub.Stand
