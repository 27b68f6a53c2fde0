import Blub.Stand.Hammer2Tree

/-! When the shared buffer of the HAMMER2 code holds the block its key names, and when lookups return
what the device of the volume holds. -/
namespace Blub.Stand
open Blub.Trace Blub.Bytes

section Log
variable {L : H2Layout} {v : H2Volume} {unset : ℤ} {wild : ℕ → UInt8}

/-- Device reads are added to the log. -/
theorem h2read_log (n off : ℕ) (s : H2) : s.log <+: (h2read v n off s).2.log := List.prefix_append _ _

theorem h2reload_log (base : Bref) (s : H2) : s.log <+: (h2reload v base s).2.log := by
  unfold h2reload
  dsimp only
  split_ifs
  · exact h2read_log _ _ s
  · exact h2read_log _ _ s
  · exact List.prefix_refl _

theorem h2leaf_log {best : Bref} {s s' : H2} {ok : Bool} (h : h2leaf L v best s = (ok,s')) : s.log <+: s'.log := by
  unfold h2leaf at h
  dsimp only at h
  split_ifs at h
  · cases h
    exact h2read_log _ _ s
  · cases h
    exact h2read_log _ _ s

theorem h2scan_log {base : Bref} {keyBeg keyEnd : ℕ} (k : ℕ) {i : ℕ} {best : Bref} {s s' : H2} {sc : H2Scan}
    (h : h2scan L v base keyBeg keyEnd k i best s = (sc,s')) : s.log <+: s'.log := by
  induction k generalizing i best s with
  | zero =>
    cases h
    exact List.prefix_refl _
  | succ k ih =>
    have hload := h2reload_log (v := v) base s
    rw [h2scan] at h
    split_ifs at h
    · cases h
      exact hload
    · exact hload.trans (ih h)
    · cases h
      exact hload

end Log

section Step
variable (L : H2Layout) (v : H2Volume) (unset : ℤ) (fuel : ℕ) (base : Bref) (keyBeg keyEnd : ℕ) (ret : Bref) (s : H2)

/-- What one level of `h2lookup` may do. -/
inductive LookupStep : H2Found → H2 → Prop
  | unnamed : base.dataOff = noBase → LookupStep ⟨-1,ret,none⟩ s
  | failed {s₁} : base.dataOff ≠ noBase → h2scan L v base keyBeg keyEnd (scanCount L base) 0 noBest s = (.failed,s₁) →
      LookupStep ⟨-1,ret,none⟩ s₁
  | embedded {s₁} : base.dataOff ≠ noBase → h2scan L v base keyBeg keyEnd (scanCount L base) 0 noBest s = (.embedded,s₁) →
      LookupStep ⟨L.embeddedBytes,{ret with type := .data, key := 0},some L.embeddedBytes⟩ s₁
  | nothing {best s₁} : base.dataOff ≠ noBase →
      h2scan L v base keyBeg keyEnd (scanCount L base) 0 noBest s = (.best best,s₁) → best.type = .empty →
      LookupStep ⟨0,ret,none⟩ s₁
  | down {best s₁ f s₂} : base.dataOff ≠ noBase →
      h2scan L v base keyBeg keyEnd (scanCount L base) 0 noBest s = (.best best,s₁) → best.type = .indirect →
      h2lookup L v unset fuel best keyBeg keyEnd ret s₁ = some (f,s₂) →
      ¬(f.rc = 0 ∧ best.key < nextKey best ∧ nextKey best ≤ keyEnd) → LookupStep f s₂
  | again {best s₁ g s₂ f s₃} : base.dataOff ≠ noBase →
      h2scan L v base keyBeg keyEnd (scanCount L base) 0 noBest s = (.best best,s₁) → best.type = .indirect →
      h2lookup L v unset fuel best keyBeg keyEnd ret s₁ = some (g,s₂) →
      g.rc = 0 ∧ best.key < nextKey best ∧ nextKey best ≤ keyEnd →
      h2lookup L v unset fuel base (nextKey best) keyEnd g.bref s₂ = some (f,s₃) → LookupStep f s₃
  | leaf {best s₁ s₂} : base.dataOff ≠ noBase →
      h2scan L v base keyBeg keyEnd (scanCount L base) 0 noBest s = (.best best,s₁) →
      best.type = .inode ∨ best.type = .data → h2leaf L v best s₁ = (true,s₂) →
      LookupStep ⟨blockInt best,best,some (blockoff best%2^L.lbufRadix)⟩ s₂
  | leafFailed {best s₁ s₂} : base.dataOff ≠ noBase →
      h2scan L v base keyBeg keyEnd (scanCount L base) 0 noBest s = (.best best,s₁) →
      best.type = .inode ∨ best.type = .data → h2leaf L v best s₁ = (false,s₂) → LookupStep ⟨-1,ret,none⟩ s₂
  | other {best s₁} : base.dataOff ≠ noBase →
      h2scan L v base keyBeg keyEnd (scanCount L base) 0 noBest s = (.best best,s₁) →
      best.type = .volume ∨ (∃ n, best.type = .other n) → LookupStep ⟨unset,ret,none⟩ s₁

theorem h2lookup_step {f : H2Found} {s' : H2} (h : h2lookup L v unset (fuel+1) base keyBeg keyEnd ret s = some (f,s')) :
    LookupStep L v unset fuel base keyBeg keyEnd ret s f s' := by
  rw [h2lookup] at h
  by_cases hbase : base.dataOff = noBase
  · rw [if_pos hbase] at h
    cases h
    exact .unnamed hbase
  rw [if_neg hbase] at h
  cases hscan : h2scan L v base keyBeg keyEnd (scanCount L base) 0 noBest s with
  | mk sc s₁ =>
    rw [hscan] at h
    cases sc with
    | failed =>
      cases h
      exact .failed hbase hscan
    | embedded =>
      cases h
      exact .embedded hbase hscan
    | best best =>
      have hleaf : best.type = .inode ∨ best.type = .data → (if (h2leaf L v best s₁).1 = true then
            some (⟨blockInt best,best,some (blockoff best%2^L.lbufRadix)⟩,(h2leaf L v best s₁).2)
          else some (⟨-1,ret,none⟩,(h2leaf L v best s₁).2)) = some (f,s') →
          LookupStep L v unset fuel base keyBeg keyEnd ret s f s' := by
        intro htype hl
        split_ifs at hl with hok
        · cases hl
          exact .leaf hbase hscan htype (Prod.ext hok rfl)
        · cases hl
          exact .leafFailed hbase hscan htype (Prod.ext (Bool.not_eq_true _ ▸ hok) rfl)
      dsimp only at h
      cases htype : best.type with
      | empty =>
        rw [htype] at h
        cases h
        exact .nothing hbase hscan htype
      | indirect =>
        rw [htype] at h
        dsimp only at h
        cases hdown : h2lookup L v unset fuel best keyBeg keyEnd ret s₁ with
        | none => rw [hdown] at h; cases h
        | some out =>
          obtain ⟨g,s₂⟩ := out
          rw [hdown] at h
          dsimp only at h
          split_ifs at h with hrc hnext
          · exact .again hbase hscan htype hdown ⟨hrc,hnext⟩ h
          · cases h
            exact .down hbase hscan htype hdown fun hc => hnext hc.2
          · cases h
            exact .down hbase hscan htype hdown fun hc => hrc hc.1
      | inode =>
        rw [htype] at h
        exact hleaf (.inl htype) h
      | data =>
        rw [htype] at h
        exact hleaf (.inr htype) h
      | volume =>
        rw [htype] at h
        cases h
        exact .other hbase hscan (.inl htype)
      | other n =>
        rw [htype] at h
        cases h
        exact .other hbase hscan (.inr ⟨n,htype⟩)

/-- Each of these steps is one of `h2lookup`. -/
theorem LookupStep.run {f : H2Found} {s' : H2} (h : LookupStep L v unset fuel base keyBeg keyEnd ret s f s') :
    h2lookup L v unset (fuel+1) base keyBeg keyEnd ret s = some (f,s') := by
  rw [h2lookup]
  cases h with
  | unnamed hname => rw [if_pos hname]
  | failed hname hscan => rw [if_neg hname,hscan]
  | embedded hname hscan => rw [if_neg hname,hscan]
  | nothing hname hscan ht =>
    rw [if_neg hname,hscan]
    dsimp only
    rw [ht]
  | other hname hscan ht =>
    rw [if_neg hname,hscan]
    dsimp only
    obtain ht | ⟨n,ht⟩ := ht <;> rw [ht]
  | leaf hname hscan ht hl =>
    rw [if_neg hname,hscan]
    dsimp only
    obtain ht | ht := ht <;> rw [ht] <;> dsimp only <;> rw [hl] <;> rfl
  | leafFailed hname hscan ht hl =>
    rw [if_neg hname,hscan]
    dsimp only
    obtain ht | ht := ht <;> rw [ht] <;> dsimp only <;> rw [hl] <;> rfl
  | down hname hscan ht hd hn =>
    rw [if_neg hname,hscan]
    dsimp only
    rw [ht]
    dsimp only
    rw [hd]
    dsimp only
    split_ifs with hrc hnext
    · exact absurd ⟨hrc,hnext⟩ hn
    · rfl
    · rfl
  | again hname hscan ht hd hn ha =>
    rw [if_neg hname,hscan]
    dsimp only
    rw [ht]
    dsimp only
    rw [hd]
    dsimp only
    rw [if_pos hn.1,if_pos hn.2,ha]

variable {L v unset fuel base keyBeg keyEnd ret s}

theorem h2lookup_log {f : H2Found} {s' : H2} (h : h2lookup L v unset fuel base keyBeg keyEnd ret s = some (f,s')) :
    s.log <+: s'.log := by
  induction fuel generalizing base keyBeg ret s s' f with
  | zero => cases h
  | succ fuel ih =>
    cases h2lookup_step L v unset fuel base keyBeg keyEnd ret s h with
    | unnamed => exact List.prefix_refl _
    | failed _ hs => exact h2scan_log _ hs
    | embedded _ hs => exact h2scan_log _ hs
    | nothing _ hs => exact h2scan_log _ hs
    | other _ hs => exact h2scan_log _ hs
    | down _ hs _ hd _ => exact (h2scan_log _ hs).trans (ih hd)
    | again _ hs _ hd _ ha => exact (h2scan_log _ hs).trans ((ih hd).trans (ih ha))
    | leaf _ hs _ hl => exact (h2scan_log _ hs).trans (h2leaf_log hl)
    | leafFailed _ hs _ hl => exact (h2scan_log _ hs).trans (h2leaf_log hl)

/-- More fuel does not change what a lookup returns. -/
theorem h2lookup_mono {out : H2Found × H2} (h : h2lookup L v unset fuel base keyBeg keyEnd ret s = some out) :
    h2lookup L v unset (fuel+1) base keyBeg keyEnd ret s = some out := by
  induction fuel generalizing base keyBeg ret s out with
  | zero => cases h
  | succ fuel ih =>
    obtain ⟨f,s'⟩ := out
    apply LookupStep.run
    cases h2lookup_step L v unset fuel base keyBeg keyEnd ret s h with
    | unnamed hname => exact .unnamed hname
    | failed hname hs => exact .failed hname hs
    | embedded hname hs => exact .embedded hname hs
    | nothing hname hs ht => exact .nothing hname hs ht
    | other hname hs ht => exact .other hname hs ht
    | down hname hs ht hd hn => exact .down hname hs ht (ih hd) hn
    | again hname hs ht hd hn ha => exact .again hname hs ht (ih hd) hn (ih ha)
    | leaf hname hs ht hl => exact .leaf hname hs ht hl
    | leafFailed hname hs ht hl => exact .leafFailed hname hs ht hl

theorem h2lookup_le {out : H2Found × H2} (h : h2lookup L v unset fuel base keyBeg keyEnd ret s = some out)
    {m : ℕ} (hm : fuel ≤ m) : h2lookup L v unset m base keyBeg keyEnd ret s = some out :=
  Fuel.le (f := fun n => h2lookup L v unset n base keyBeg keyEnd ret s) (fun _ _ => h2lookup_mono) h hm

theorem h2lookup_unique {out out' : H2Found × H2} {m : ℕ}
    (h : h2lookup L v unset fuel base keyBeg keyEnd ret s = some out)
    (h' : h2lookup L v unset m base keyBeg keyEnd ret s = some out') : out = out' :=
  Fuel.unique (f := fun n => h2lookup L v unset n base keyBeg keyEnd ret s) (fun _ _ => h2lookup_mono) h h'

end Step

section Buffer
variable {L : H2Layout} {v : H2Volume} {s s' : H2}

theorem block_congr {b b' : Bref} (h : b.dataOff = b'.dataOff) : v.block b = v.block b' ∧ blocksize b = blocksize b' := by
  unfold H2Volume.block blockoff blocksize blockInt
  rw [h]
  exact ⟨rfl,rfl⟩

/-- The sizes of blocks, as the shift gives them. -/
theorem blocksize_cases (b : Bref) :
    b.dataOff%32 < 31 ∧ blockInt b = 2^(b.dataOff%32) ∧ blocksize b = 2^(b.dataOff%32) ∧ blocksize b < 2^31 ∨
    blockInt b = -2^31 ∧ blocksize b = 2^64-2^31 := by
  unfold blocksize blockInt
  split_ifs with h
  · exact .inr ⟨rfl,by decide⟩
  · have hr : b.dataOff%32 < 31 := by omega
    have hlt : 2^(b.dataOff%32) < 2^31 := Nat.pow_lt_pow_right (by norm_num) hr
    have hcast : (2 : ℤ)^(b.dataOff%32) = ((2^(b.dataOff%32) : ℕ) : ℤ) := by push_cast; rfl
    rw [hcast]
    generalize 2^(b.dataOff%32) = m at hlt
    exact .inl ⟨hr,rfl,by omega,by omega⟩

theorem blocksize_pos (b : Bref) : 0 < blocksize b := by
  obtain ⟨-,-,h,-⟩ | ⟨-,h⟩ := blocksize_cases b <;> rw [h]
  · exact Nat.two_pow_pos _
  · norm_num

/-- A size that is not negative. -/
theorem blocksize_eq {b : Bref} (h : 0 ≤ blockInt b) :
    blockInt b = blocksize b ∧ blocksize b = 2^(b.dataOff%32) ∧ blocksize b < 2^31 := by
  obtain ⟨-,hint,hsize,hlt⟩ | ⟨hneg,-⟩ := blocksize_cases b
  · exact ⟨by rw [hint,hsize]; push_cast; rfl,hsize,hlt⟩
  · rw [hneg] at h
    exact absurd h (by decide)

theorem blockInt_nonneg {b : Bref} (h : blocksize b < 2^31) : 0 ≤ blockInt b := by
  obtain ⟨-,hint,-⟩ | ⟨-,hsize⟩ := blocksize_cases b
  · rw [hint]
    positivity
  · omega

/-- The size of a block that fits into the buffer is the one its blockref names. -/
theorem Bref.Small.blocksize {L : H2Layout} {b : Bref} (h : b.Small L) : blocksize b = b.bytes := by
  have hlt : 2^(b.dataOff%64) < 2^31 := h.fits.trans_lt L.media_lt
  have hr : b.dataOff%64 < 31 := (Nat.pow_lt_pow_iff_right (by norm_num)).mp hlt
  have hmod : b.dataOff%32 = b.dataOff%64 := by omega
  obtain ⟨-,-,hsize,-⟩ | ⟨hneg,-⟩ := blocksize_cases b
  · rw [hsize,hmod,Bref.bytes]
  · unfold blockInt at hneg
    rw [if_neg (by omega)] at hneg
    have hpos : (0 : ℤ) < 2^(b.dataOff%32) := by positivity
    omega

/-- Blocks that have at least a sector have whole sectors. -/
theorem sector_dvd_blocksize {b : Bref} (h : 2^9 ≤ blocksize b) : 2^9 ∣ blocksize b := by
  obtain ⟨-,-,hsize,-⟩ | ⟨-,hsize⟩ := blocksize_cases b <;> rw [hsize] at h ⊢
  · exact Nat.pow_dvd_pow 2 ((Nat.pow_le_pow_iff_right (by norm_num)).mp h)
  · norm_num

theorem devBsize_eq (L : H2Layout) {b : Bref} (h : 0 ≤ blockInt b) : devBsize L b = max (blocksize b) (2^L.lbufRadix) := by
  unfold devBsize
  rw [(blocksize_eq h).1]
  have hcast : (2 : ℤ)^L.lbufRadix = ((2^L.lbufRadix : ℕ) : ℤ) := by push_cast; rfl
  rw [hcast,← Nat.cast_max,Int.toNat_natCast]

theorem devBsize_pos (L : H2Layout) (b : Bref) : 0 < devBsize L b := by
  unfold devBsize
  have hpos : (0 : ℤ) < 2^L.lbufRadix := by positivity
  rw [Int.lt_toNat]
  exact lt_max_of_lt_right hpos

/-- The count of blockrefs is not more than the block has. -/
theorem scanCount_indirect {base : Bref} (ht : base.type = .indirect) : scanCount L base ≤ blocksize base/L.brefBytes := by
  unfold scanCount
  rw [ht]
  dsimp only
  generalize blocksize base/L.brefBytes = n
  unfold Int.bmod
  dsimp only
  split_ifs <;> omega

/-- A read that works has the bytes of the device. -/
theorem h2read_media {n off j : ℕ} (hn : 0 < n) (hoff : 512 ∣ off) (hok : (h2read v n off s).1 = true) (hj : j < n) :
    (h2read v n off s).2.media j = v.dev (off+j) := by
  unfold h2read at hok ⊢
  dsimp only at hok ⊢
  rw [decide_eq_true_iff] at hok
  rw [strategy_complete hn hok.1 hok.2,strategy_done hj,Nat.div_mul_cancel hoff]

/-- A device read has failed. -/
def H2Failed (s : H2) : Prop := ∃ e ∈ s.log, e.ok = false

theorem h2read_fails {n off : ℕ} (hok : (h2read v n off s).1 = false) : H2Failed (h2read v n off s).2 :=
  ⟨_,List.mem_append_right _ (List.mem_singleton_self _),hok⟩

/-- A read that fails leaves the key, and what it names if the read spares the buffer. -/
theorem h2read_failed {n off : ℕ} (hs : H2Holds v s) (hlog : ∀ e ∈ (h2read v n off s).2.log, e.Spares)
    (hok : (h2read v n off s).1 = false) : H2Holds v (h2read v n off s).2 := by
  obtain ⟨e,he,hmem⟩ : ∃ e : H2Read, (e.ok = (h2read v n off s).1 ∧ e.savedBase = s.savedBase ∧ e.before = s.media ∧
      e.after = (h2read v n off s).2.media) ∧ e ∈ (h2read v n off s).2.log :=
    ⟨_,⟨rfl,rfl,rfl,rfl⟩,List.mem_append_right _ (List.mem_singleton_self _)⟩
  intro hsaved b hb j hj
  obtain h | h | h := hlog e hmem
  · rw [he.1,hok] at h
    cases h
  · exact absurd (he.2.1.symm.trans h) hsaved
  · rw [← he.2.2.2,h,he.2.2.1]
    exact hs hsaved b hb j hj

/-- A block of a volume starts at a sector of the device. -/
theorem sector_dvd (d : H2Media L) {b : Bref} (hb : d.Ref L b) (ht : b.type = .inode ∨ b.type = .indirect) :
    512 ∣ blockoff b := by
  obtain ⟨hsize,hdvd⟩ := d.wf b hb ht
  exact (sector_dvd_blocksize (L.inode_ge.trans hsize)).trans hdvd

/-- A block that was loaded is in the buffer. -/
theorem h2reload_spec (d : H2Media L) {base : Bref} (hname : base.dataOff ≠ noBase)
    (hbase : base.type = .inode ∨ base.type = .indirect → d.Ref L base)
    (htype : base.type = .volume ∨ base.type = .inode ∨ base.type = .indirect) (hs : H2Holds d.toH2Volume s)
    (hlog : ∀ e ∈ (h2reload d.toH2Volume base s).2.log, e.Spares) :
    H2Holds d.toH2Volume (h2reload d.toH2Volume base s).2 ∧
      ((h2reload d.toH2Volume base s).1 = false → H2Failed (h2reload d.toH2Volume base s).2) ∧
      ((h2reload d.toH2Volume base s).1 = true → base.type ≠ .volume →
        ∀ j < blocksize base, (h2reload d.toH2Volume base s).2.media j = d.block base j) := by
  unfold h2reload at hlog ⊢
  dsimp only at hlog ⊢
  split_ifs at hlog ⊢ with hload hok
  · have hin : ∀ j < blocksize base,
        (h2read d.toH2Volume (blocksize base) (blockoff base) s).2.media j = d.block base j := by
      have hboth : base.type = .inode ∨ base.type = .indirect := htype.resolve_left hload.1
      have hdvd := sector_dvd d (hbase hboth) hboth
      exact fun j hj => h2read_media (blocksize_pos base) hdvd hok hj
    refine ⟨fun _ b hb j hj => ?_,nofun,fun _ _ => hin⟩
    obtain ⟨hblock,hsize⟩ := block_congr (v := d.toH2Volume) (show b.dataOff = base.dataOff from hb)
    rw [hblock]
    exact hin j (hsize ▸ hj)
  · rw [Bool.not_eq_true] at hok
    exact ⟨h2read_failed hs hlog hok,fun _ => h2read_fails hok,nofun⟩
  · refine ⟨hs,nofun,fun _ hv => ?_⟩
    have heq : base.dataOff = s.savedBase := by
      by_contra hne
      exact hload ⟨hv,hne⟩
    exact hs (heq ▸ hname) base heq

end Buffer

section Lookup
variable {L : H2Layout} (d : H2Media L)

/-- The buffer has the block of `base`, if that is a block. -/
def Loaded (v : H2Volume) (base : Bref) (media : ℕ → UInt8) : Prop :=
  base.type ≠ .volume → ∀ j < blocksize base, media j = v.block base j

/-- The types of the blocks that are scanned. -/
theorem scanCount_type {base : Bref} (h : 0 < scanCount L base) :
    base.type = .volume ∨ base.type = .inode ∨ base.type = .indirect := by
  unfold scanCount at h
  cases ht : base.type <;> simp_all

theorem refAt_loaded {base : Bref} (hbase : H2Base L d.toH2Volume base) {media : ℕ → UInt8}
    (h : Loaded d.toH2Volume base media) {i : ℕ} (hi : i < scanCount L base) :
    refAt L d.toH2Volume base media i = refAt L d.toH2Volume base (d.block base) i := by
  unfold refAt
  cases ht : base.type with
  | volume => rfl
  | inode =>
    have hin := h (by rw [ht]; exact nofun)
    have hsize := (d.wf base (hbase (.inl ht)) (.inl ht)).1
    have hset := L.set_le
    have hi' : i < L.setCount := by simpa only [scanCount,ht] using hi
    have hmul : L.brefBytes*(i+1) ≤ L.brefBytes*L.setCount := Nat.mul_le_mul_left _ hi'
    rw [Nat.mul_succ] at hmul
    exact congrArg L.brefOf (window_congr fun j hj => hin _ (by omega))
  | indirect =>
    have hin := h (by rw [ht]; exact nofun)
    have hi' : i < blocksize base/L.brefBytes := hi.trans_le (scanCount_indirect ht)
    have hmul : L.brefBytes*(i+1) ≤ blocksize base :=
      (Nat.mul_le_mul_left _ hi').trans (Nat.mul_div_le _ _)
    rw [Nat.mul_succ] at hmul
    exact congrArg L.brefOf (window_congr fun j hj => hin _ (by omega))
  | _ => simp [scanCount,ht] at hi

theorem isDirect_loaded {base : Bref} (hbase : H2Base L d.toH2Volume base) {media : ℕ → UInt8}
    (h : Loaded d.toH2Volume base media) : isDirect L base media = isDirect L base (d.block base) := by
  unfold isDirect
  by_cases ht : base.type = .inode
  · have hin := h (by rw [ht]; exact nofun)
    have hsize := (d.wf base (hbase (.inl ht)) (.inl ht)).1
    have hdata := L.data_le
    have hwindow : window media 0 L.embeddedBytes = window (d.block base) 0 L.embeddedBytes :=
      window_congr fun j hj => hin _ (by omega)
    rw [hwindow]
  · simp [ht]

/-- The blockrefs of a scan are those of the volume. -/
theorem refAt_ref {base : Bref} (hbase : H2Base L d.toH2Volume base) {i : ℕ} (hi : i < scanCount L base) :
    d.Ref L (refAt L d.toH2Volume base (d.block base) i) := by
  obtain ht | ht := scanCount_type (Nat.zero_lt_of_lt hi)
  · have hi' : i < L.setCount := by simpa only [scanCount,ht] using hi
    have heq : refAt L d.toH2Volume base (d.block base) i = d.srootBlockset i := by simp only [refAt,ht]
    exact heq ▸ .set i hi'
  · exact .sub (hbase ht) ht hi

theorem best_ref {base : Bref} (hbase : H2Base L d.toH2Volume base) (keyBeg keyEnd k i : ℕ) (best : Bref)
    (hk : i+k = scanCount L base) (hbest : best.type = .empty ∨ d.Ref L best) :
    (d.best L base keyBeg keyEnd k i best).type = .empty ∨ d.Ref L (d.best L base keyBeg keyEnd k i best) := by
  induction k generalizing i best with
  | zero => exact hbest
  | succ k ih =>
    refine ih (i+1) _ (by omega) ?_
    unfold bestStep
    split_ifs
    · exact hbest
    · exact hbest
    · exact .inr (refAt_ref d hbase (by omega))
    · exact hbest

/-- A scan of the buffer is a scan of the block. -/
theorem h2scan_spec {base : Bref} (hname : base.dataOff ≠ noBase) (hbase : H2Base L d.toH2Volume base) {keyBeg keyEnd : ℕ}
    (k : ℕ) {i : ℕ} {best : Bref} (hk : i+k = scanCount L base) {s s' : H2} {sc : H2Scan} (hs : H2Holds d.toH2Volume s)
    (h : h2scan L d.toH2Volume base keyBeg keyEnd k i best s = (sc,s')) (hlog : ∀ e ∈ s'.log, e.Spares) :
    H2Holds d.toH2Volume s' ∧ (sc = .failed → H2Failed s') ∧
      (sc = .embedded → 0 < k ∧ isDirect L base (d.block base) = true ∧ Loaded d.toH2Volume base s'.media) ∧
      ∀ b, sc = .best b → b = d.best L base keyBeg keyEnd k i best ∧ ¬(0 < k ∧ isDirect L base (d.block base) = true) := by
  induction k generalizing i best s with
  | zero =>
    cases h
    refine ⟨hs,nofun,nofun,fun b hb => ?_⟩
    cases hb
    exact ⟨rfl,fun hc => absurd hc.1 (lt_irrefl 0)⟩
  | succ k ih =>
    have htype := scanCount_type (L := L) (show 0 < scanCount L base by omega)
    rw [h2scan] at h
    have hgrow : (h2reload d.toH2Volume base s).2.log <+: s'.log := by
      split_ifs at h
      · cases h
        exact List.prefix_refl _
      · exact h2scan_log k h
      · cases h
        exact List.prefix_refl _
    obtain ⟨hs₁,hfail,hload⟩ := h2reload_spec d hname hbase htype hs fun e he => hlog e (hgrow.subset he)
    split_ifs at h with hok hdir
    · cases h
      rw [isDirect_loaded d hbase (hload hok)] at hdir
      exact ⟨hs₁,nofun,fun _ => ⟨Nat.succ_pos k,hdir,hload hok⟩,nofun⟩
    · rw [isDirect_loaded d hbase (hload hok)] at hdir
      rw [refAt_loaded d hbase (hload hok) (by omega)] at h
      obtain ⟨hs',hfailed,hemb,hbest⟩ := ih (by omega) hs₁ h
      exact ⟨hs',hfailed,fun hsc => absurd (hemb hsc).2.1 hdir,fun b hb => ⟨(hbest b hb).1,fun hc => hdir hc.2⟩⟩
    · cases h
      exact ⟨hs₁,fun _ => hfail (Bool.not_eq_true _ ▸ hok),nofun,nofun⟩

/-- A leaf lies inside the buffer that is read for it. -/
theorem leaf_inside {b : Bref} (hint : 0 ≤ blockInt b) (hdvd : blocksize b ∣ blockoff b) (r : ℕ) :
    blockoff b%2^r+blocksize b ≤ max (blocksize b) (2^r) := by
  rw [(blocksize_eq hint).2.1] at hdvd ⊢
  obtain hle | hlt := le_or_gt r (b.dataOff%32)
  · have hz : blockoff b%2^r = 0 := Nat.mod_eq_zero_of_dvd ((Nat.pow_dvd_pow 2 hle).trans hdvd)
    omega
  · have hsmall : 2^(b.dataOff%32) ∣ 2^r := Nat.pow_dvd_pow 2 hlt.le
    obtain ⟨q,hq⟩ := (Nat.dvd_mod_iff hsmall).mpr hdvd
    obtain ⟨m,hm⟩ := hsmall
    have hmod : blockoff b%2^r < 2^r := Nat.mod_lt _ (Nat.two_pow_pos r)
    have hqm : q+1 ≤ m := by
      rw [hq,hm] at hmod
      exact Nat.lt_of_mul_lt_mul_left hmod
    have hle : 2^(b.dataOff%32)*(q+1) ≤ 2^r := hm ▸ Nat.mul_le_mul_left _ hqm
    rw [Nat.mul_succ,← hq] at hle
    omega

/-- The bytes of a leaf are in the buffer after its block is read. -/
theorem h2leaf_media (v : H2Volume) {best : Bref} {s : H2} (hint : 0 ≤ blockInt best) (hdvd : blocksize best ∣ blockoff best)
    (hok : (h2leaf L v best s).1 = true) {j : ℕ} (hj : j < blocksize best) :
    (h2leaf L v best s).2.media (blockoff best%2^L.lbufRadix+j) = v.block best j := by
  unfold h2leaf at hok ⊢
  dsimp only at hok ⊢
  split_ifs at hok ⊢ with hread
  have hin := leaf_inside hint hdvd L.lbufRadix
  rw [← devBsize_eq L hint] at hin
  have hstart : 2^L.lbufRadix ∣ blockoff best-blockoff best%2^L.lbufRadix := Nat.dvd_sub_mod _
  have hsector : 512 ∣ blockoff best-blockoff best%2^L.lbufRadix := (Nat.pow_dvd_pow 2 L.lbuf_ge).trans hstart
  have hle := Nat.mod_le (blockoff best) (2^L.lbufRadix)
  have hmedia := h2read_media (s := s) (j := blockoff best%2^L.lbufRadix+j) (devBsize_pos L best) hsector hread (by omega)
  dsimp only
  rw [hmedia,H2Volume.block]
  congr 1
  omega

/-- No key names the buffer after a leaf is read, and a read that fails spares what the key names. -/
theorem h2leaf_spec (v : H2Volume) {best : Bref} {s s' : H2} {ok : Bool}
    (hs : H2Holds v s) (h : h2leaf L v best s = (ok,s')) (hlog : ∀ e ∈ s'.log, e.Spares) :
    H2Holds v s' ∧ (ok = false → H2Failed s') := by
  unfold h2leaf at h
  dsimp only at h
  split_ifs at h with hok
  · cases h
    exact ⟨fun hne => absurd rfl hne,nofun⟩
  · cases h
    rw [Bool.not_eq_true] at hok
    exact ⟨h2read_failed hs hlog hok,fun _ => h2read_fails hok⟩

/-- A lookup that returns what the volume holds, and what the callers go on with. -/
def H2Hits (L : H2Layout) (v : H2Volume) (ret : Bref) (f : H2Found) (media : ℕ → UInt8) : H2Hit → Prop
  | .nothing => f.rc = 0 ∧ f.bref = ret
  | .found n b data => f.rc = n ∧ f.bref = b ∧ H2Base L v b ∧ 0 < n ∧
      ∃ p, f.ptr = some p ∧ (v.LeavesOk L → L.embeddedBytes ≤ n ∧ ∀ j < n, media (p+j) = data j)
  | .error => f.rc < 0
  | .bad => True

attribute [local grind =] H2Hits

/-- What is found where the data is in the inode. -/
theorem hits_embedded {base : Bref} (hbase : H2Base L d.toH2Volume base)
    (hdir : isDirect L base (d.block base) = true) {media : ℕ → UInt8} (hload : Loaded d.toH2Volume base media) (ret : Bref) :
    H2Hits L d.toH2Volume ret ⟨L.embeddedBytes,{ret with type := .data, key := 0},some L.embeddedBytes⟩ media
      (.found L.embeddedBytes {ret with type := .data, key := 0} fun j => d.block base (L.embeddedBytes+j)) := by
  have ht : base.type = .inode := by
    simp only [isDirect,decide_eq_true_eq] at hdir
    exact hdir.1
  have hsize := (d.wf base (hbase (.inl ht)) (.inl ht)).1
  have hdata := L.data_le
  refine ⟨rfl,rfl,fun ht => ?_,L.embedded_pos,_,rfl,fun _ => ⟨le_rfl,fun j hj => ?_⟩⟩
  · obtain ht | ht := ht <;> cases ht
  · exact hload (by rw [ht]; exact fun hc => by cases hc) _ (by omega)

/-- What is found where a leaf has been read. -/
theorem hits_leaf {best : Bref} (href : d.Ref L best) (ht : best.IsLeaf) (hint : 0 ≤ blockInt best) {s : H2}
    (hok : (h2leaf L d.toH2Volume best s).1 = true) (ret : Bref) :
    H2Hits L d.toH2Volume ret ⟨blockInt best,best,some (blockoff best%2^L.lbufRadix)⟩ (h2leaf L d.toH2Volume best s).2.media
      (.found (blocksize best) best (d.block best)) := by
  refine ⟨(blocksize_eq hint).1,rfl,fun _ => href,blocksize_pos best,_,rfl,fun hleaves => ?_⟩
  obtain ⟨hsize,hdvd,-⟩ := hleaves best href ht
  have hle := L.data_le
  exact ⟨by omega,fun j hj => h2leaf_media d.toH2Volume hint hdvd hok hj⟩

/-- A blockref that was found is one of the volume. -/
theorem bestOf_ref {base : Bref} (hbase : H2Base L d.toH2Volume base) {keyBeg keyEnd : ℕ}
    (ht : (d.bestOf L base keyBeg keyEnd).type ≠ .empty) : d.Ref L (d.bestOf L base keyBeg keyEnd) :=
  (best_ref d hbase keyBeg keyEnd (scanCount L base) 0 noBest (Nat.zero_add _) (.inl rfl)).resolve_left ht

/-- A lookup through the buffer finds what the volume holds, if it does not fail. -/
theorem h2lookup_spec {unset : ℤ} (fuel : ℕ) {base ret : Bref} {keyBeg keyEnd : ℕ} {s s' : H2} {f : H2Found}
    (hbase : H2Base L d.toH2Volume base) (hs : H2Holds d.toH2Volume s)
    (h : h2lookup L d.toH2Volume unset fuel base keyBeg keyEnd ret s = some (f,s')) (hlog : ∀ e ∈ s'.log, e.Spares) :
    H2Holds d.toH2Volume s' ∧ (f.rc = -1 ∧ H2Failed s' ∨ ∃ hit, d.lookup L fuel base keyBeg keyEnd ret = some hit ∧
      H2Hits L d.toH2Volume ret f s'.media hit) := by
  induction fuel generalizing base keyBeg ret s s' f with
  | zero => cases h
  | succ fuel ih =>
    -- what the scan of the block comes to is what the block holds
    have hscan : ∀ {s₁ sc}, base.dataOff ≠ noBase →
        h2scan L d.toH2Volume base keyBeg keyEnd (scanCount L base) 0 noBest s = (sc,s₁) → _ :=
      fun hname hsc => h2scan_spec d hname hbase _ (Nat.zero_add _) hs hsc
    cases h2lookup_step L d.toH2Volume unset fuel base keyBeg keyEnd ret s h with
    | unnamed hname => exact ⟨hs,.inr ⟨.bad,(VolumeStep.unnamed hname).lookup,trivial⟩⟩
    | failed hname hsc =>
      obtain ⟨hs₁,hfail,-⟩ := hscan hname hsc hlog
      exact ⟨hs₁,.inl ⟨rfl,hfail rfl⟩⟩
    | embedded hname hsc =>
      obtain ⟨hs₁,-,hemb,-⟩ := hscan hname hsc hlog
      obtain ⟨hpos,hdir,hload⟩ := hemb rfl
      exact ⟨hs₁,.inr ⟨_,(VolumeStep.direct hname ⟨hpos,hdir⟩).lookup,hits_embedded d hbase hdir hload ret⟩⟩
    | nothing hname hsc ht =>
      obtain ⟨hs₁,-,-,hb⟩ := hscan hname hsc hlog
      obtain ⟨rfl,hdir⟩ := hb _ rfl
      exact ⟨hs₁,.inr ⟨_,(VolumeStep.nothing ⟨hname,hdir⟩ ht).lookup,rfl,rfl⟩⟩
    | other hname hsc ht =>
      obtain ⟨hs₁,-,-,hb⟩ := hscan hname hsc hlog
      obtain ⟨rfl,hdir⟩ := hb _ rfl
      exact ⟨hs₁,.inr ⟨.bad,(VolumeStep.other ⟨hname,hdir⟩ ht).lookup,trivial⟩⟩
    | leaf hname hsc ht hl =>
      obtain ⟨hs₁,-,-,hb⟩ := hscan hname hsc fun e he => hlog e ((h2leaf_log hl).subset he)
      obtain ⟨rfl,hdir⟩ := hb _ rfl
      have href : d.Ref L (d.bestOf L base keyBeg keyEnd) := bestOf_ref d hbase (Bref.IsLeaf.nonempty ht)
      have hs₂ := (h2leaf_spec d.toH2Volume hs₁ hl hlog).1
      refine ⟨hs₂,.inr ?_⟩
      by_cases hint : 0 ≤ blockInt (d.bestOf L base keyBeg keyEnd)
      · have hhits := hits_leaf d href ht hint (s := _) (congrArg Prod.fst hl) ret
        unfold H2Volume.bestOf at hhits
        rw [hl] at hhits
        exact ⟨_,(VolumeStep.leaf ⟨hname,hdir⟩ ht hint).lookup,hhits⟩
      · exact ⟨_,(VolumeStep.error ⟨hname,hdir⟩ ht (not_le.mp hint)).lookup,not_le.mp hint⟩
    | leafFailed hname hsc ht hl =>
      obtain ⟨hs₁,-,-,hb⟩ := hscan hname hsc fun e he => hlog e ((h2leaf_log hl).subset he)
      obtain ⟨hs₂,hfail⟩ := h2leaf_spec d.toH2Volume hs₁ hl hlog
      exact ⟨hs₂,.inl ⟨rfl,hfail rfl⟩⟩
    | down hname hsc ht hd hc =>
      obtain ⟨hs₁,-,-,hb⟩ := hscan hname hsc fun e he => hlog e ((h2lookup_log hd).subset he)
      obtain ⟨rfl,hdir⟩ := hb _ rfl
      have href : d.Ref L (d.bestOf L base keyBeg keyEnd) := bestOf_ref d hbase (indirect_nonempty ht)
      obtain ⟨hs₂,hres⟩ := ih (fun _ => href) hs₁ hd hlog
      refine ⟨hs₂,hres.imp_right ?_⟩
      rintro ⟨hit,hlook,hhit⟩
      refine ⟨hit,(VolumeStep.down ⟨hname,hdir⟩ ht hlook fun hno hn => ?_).lookup,hhit⟩
      subst hno
      exact hc ⟨hhit.1,hn⟩
    | again hname hsc ht hd hc ha =>
      have hgrow := h2lookup_log ha
      obtain ⟨hs₁,-,-,hb⟩ := hscan hname hsc fun e he => hlog e (((h2lookup_log hd).trans hgrow).subset he)
      obtain ⟨rfl,hdir⟩ := hb _ rfl
      have href : d.Ref L (d.bestOf L base keyBeg keyEnd) := bestOf_ref d hbase (indirect_nonempty ht)
      obtain ⟨hs₂,hres⟩ := ih (fun _ => href) hs₁ hd fun e he => hlog e (hgrow.subset he)
      obtain ⟨hs₃,hres'⟩ := ih hbase hs₂ ha hlog
      refine ⟨hs₃,?_⟩
      have hz := hc.1
      obtain ⟨hrc,-⟩ | ⟨hit,hlook,hhit⟩ := hres
      · rw [hrc] at hz
        cases hz
      cases hit with
      | nothing =>
        refine hres'.imp_right fun ⟨hit,hlook',hhit'⟩ => ?_
        rw [hhit.2] at hlook' hhit'
        exact ⟨hit,(VolumeStep.again ⟨hname,hdir⟩ ht hlook hc.2 hlook').lookup,hhit'⟩
      | found n b data =>
        have hn : (n : ℤ) = 0 := hhit.1.symm.trans hz
        have hpos := hhit.2.2.2.1
        omega
      | error => exact absurd hhit (by rw [H2Hits,hz]; decide)
      | bad => exact .inr ⟨_,(VolumeStep.down ⟨hname,hdir⟩ ht hlook fun hno => by cases hno).lookup,trivial⟩

end Lookup

section Resolve
variable {L : H2Layout} (d : H2Disk L) {unset : ℤ} {wild : ℕ → UInt8}

theorem resolveName_log (fuel : ℕ) {dir bres bres' : Bref} {name : List UInt8} {key : ℕ} {ino ino' : Option ℕ} {s s' : H2}
    {bytes : ℤ} (h : resolveName L d.toH2Volume unset wild fuel dir name key bres ino s = some (bytes,bres',ino',s')) :
    s.log <+: s'.log := by
  induction fuel generalizing key bres ino s with
  | zero => cases h
  | succ fuel ih =>
    rw [resolveName] at h
    split at h
    · cases h
    · rename_i hl
      have hgrow := h2lookup_log hl
      dsimp only at h
      split_ifs at h
      · cases h
        exact hgrow
      · cases h
        exact hgrow
      · exact hgrow.trans (ih h)

theorem not_failed {s : H2} (hok : ∀ e ∈ s.log, e.ok = true) : ¬H2Failed s := by
  rintro ⟨e,he,hfail⟩
  rw [hok e he] at hfail
  cases hfail

/-- Without failed reads the entry of a directory is the one the volume holds. -/
theorem resolveName_spec (fuel : ℕ) {dir bres bres' : Bref} {name : List UInt8} {key : ℕ} {ino ino' : Option ℕ} {s s' : H2}
    {bytes : ℤ} (hdir : H2Base L d.toH2Volume dir) (hs : H2Holds d.toH2Volume s)
    (h : resolveName L d.toH2Volume unset wild fuel dir name key bres ino s = some (bytes,bres',ino',s'))
    (hok : ∀ e ∈ s'.log, e.ok = true) :
    H2Holds d.toH2Volume s' ∧ ∀ out, d.findName L fuel dir name key bres = some out →
      (out = none → bytes = 0) ∧ ∀ b data, out = some (b,data) → bytes ≠ 0 ∧ bres' = b ∧ H2Base L d.toH2Volume b ∧
        ∃ p, ino' = some p ∧ window s'.media p L.embeddedBytes = data := by
  induction fuel generalizing key bres ino s with
  | zero => cases h
  | succ fuel ih =>
    rw [resolveName] at h
    rw [H2Volume.findName]
    cases hl : h2lookup L d.toH2Volume unset fuel dir key (key ||| 0xFFFF) bres s with
    | none => rw [hl] at h; cases h
    | some out =>
      obtain ⟨f,s₁⟩ := out
      rw [hl] at h
      dsimp only at h
      have hgrow : s₁.log <+: s'.log := by
        split_ifs at h
        · cases h
          exact List.prefix_refl _
        · cases h
          exact List.prefix_refl _
        · exact resolveName_log d fuel h
      have hok₁ : ∀ e ∈ s₁.log, e.ok = true := fun e he => hok e (hgrow.subset he)
      obtain ⟨hs₁,hres⟩ := h2lookup_spec d.toH2Media fuel hdir hs hl fun e he => .inl (hok₁ e he)
      obtain ⟨hit,hlook,hhit⟩ := hres.resolve_left fun hf => not_failed hok₁ hf.2
      rw [hlook]
      have hpos := L.embedded_pos
      cases hit with
      | bad =>
        split_ifs at h
        · cases h
          exact ⟨hs₁,fun out hout => by cases hout⟩
        · cases h
          exact ⟨hs₁,fun out hout => by cases hout⟩
        · exact ⟨(ih hs₁ h).1,fun out hout => by cases hout⟩
      | error =>
        split_ifs at h
        · cases h
          exact ⟨hs₁,fun out hout => by cases hout⟩
        · cases h
          exact ⟨hs₁,fun out hout => by cases hout⟩
        · exact ⟨(ih hs₁ h).1,fun out hout => by cases hout⟩
      | nothing =>
        rw [if_pos hhit.1] at h
        cases h
        refine ⟨hs₁,fun out hout => ?_⟩
        cases hout
        exact ⟨fun _ => rfl,fun b data heq => by cases heq⟩
      | found n b data =>
        obtain ⟨hrc,rfl,hb,hn,p,hp,hsound⟩ := hhit
        obtain ⟨hle,hdata⟩ := hsound d.leaves
        have hne : f.rc ≠ 0 := by omega
        have hino : window s₁.media p L.embeddedBytes = window data 0 L.embeddedBytes :=
          window_congr fun j hj => (Nat.zero_add j).symm ▸ hdata j (by omega)
        rw [if_neg hne,hp] at h
        dsimp only at h ⊢
        rw [show (some p <|> ino) = some p from rfl,inodeAt,hino] at h
        split_ifs at h ⊢ with hmatch
        · cases h
          refine ⟨hs₁,fun out hout => ?_⟩
          cases hout
          refine ⟨fun heq => Option.some_ne_none _ heq |>.elim,fun b' data' heq => ?_⟩
          cases heq
          exact ⟨hne,rfl,hb,p,rfl,hino⟩
        · exact ih hs₁ h

theorem resolveLoop_log {hash : List UInt8 → ℕ} (fuel : ℕ) {path : List UInt8} {bref bres bref' : Bref}
    {ino inop inop' : Option ℕ} {s s' : H2}
    (h : resolveLoop L d.toH2Volume unset wild hash fuel path bref bres ino inop s = some (bref',inop',s')) :
    s.log <+: s'.log := by
  induction fuel generalizing path bref bres ino inop s with
  | zero => cases h
  | succ fuel ih =>
    rw [resolveLoop] at h
    dsimp only at h
    split_ifs at h with hpath
    · cases h
      exact List.prefix_refl _
    · split at h
      · cases h
      · rename_i hn
        have hgrow := resolveName_log d fuel hn
        split_ifs at h
        · cases h
          exact hgrow
        · cases h
          exact hgrow
        · exact hgrow.trans (ih h)

/-- Without failed reads a path leads where it does on the volume. -/
theorem resolveLoop_spec {hash : List UInt8 → ℕ} (fuel : ℕ) {path : List UInt8} {bref bres bref' b : Bref}
    {ino inop inop' : Option ℕ} {s s' : H2} {c c' : Option (ℕ → UInt8)} (hbref : H2Base L d.toH2Volume bref)
    (hs : H2Holds d.toH2Volume s) (hc : c = inop.map fun p => window s.media p L.embeddedBytes)
    (h : resolveLoop L d.toH2Volume unset wild hash fuel path bref bres ino inop s = some (bref',inop',s'))
    (hok : ∀ e ∈ s'.log, e.ok = true) (hpure : d.resolve L hash fuel path bref bres c = some (b,c')) :
    H2Holds d.toH2Volume s' ∧ bref' = b ∧
      (b.dataOff ≠ noBase → c' = inop'.map fun p => window s'.media p L.embeddedBytes) := by
  induction fuel generalizing path bref bres ino inop s c with
  | zero => cases h
  | succ fuel ih =>
    rw [resolveLoop] at h
    rw [H2Volume.resolve] at hpure
    dsimp only at h hpure
    by_cases hpath : path.dropWhile (· = 47) = []
    · rw [if_pos hpath] at h hpure
      cases h
      cases hpure
      exact ⟨hs,rfl,fun _ => hc⟩
    · rw [if_neg hpath] at h hpure
      split at h
      · cases h
      · rename_i bytes bres₁ ino₁ s₁ hn
        have hgrow : s₁.log <+: s'.log := by
          split_ifs at h
          · cases h
            exact List.prefix_refl _
          · cases h
            exact List.prefix_refl _
          · exact resolveLoop_log d fuel h
        obtain ⟨hs₁,hfind⟩ := resolveName_spec d fuel hbref hs hn fun e he => hok e (hgrow.subset he)
        split at hpure
        · cases hpure
        · rename_i hout
          rw [if_pos ((hfind _ hout).1 rfl)] at h
          cases h
          cases hpure
          exact ⟨hs₁,rfl,fun hne => absurd rfl hne⟩
        · rename_i b₁ data hout
          obtain ⟨hne,rfl,hb,p,rfl,hino⟩ := (hfind _ hout).2 b₁ data rfl
          rw [if_neg hne,inodeAt,hino] at h
          split_ifs at h hpure with hend
          · cases h
            cases hpure
            exact ⟨hs₁,rfl,fun hne => absurd rfl hne⟩
          · exact ih hb hs₁ (by rw [Option.map_some,hino]) h hpure

end Resolve

section Readfile
variable {L : H2Layout} (d : H2Disk L) {unset : ℤ}

theorem readfileLoop_log (v : H2Volume) (fuel : ℕ) {bref bres : Bref} {off len : ℕ} {acc data : List UInt8} {s s' : H2} {total : ℤ}
    (h : readfileLoop L v unset fuel bref off len acc bres s = some (total,data,s')) : s.log <+: s'.log := by
  induction fuel generalizing off len acc bres s with
  | zero => cases h
  | succ fuel ih =>
    rw [readfileLoop] at h
    split_ifs at h
    · cases h
      exact List.prefix_refl _
    · split at h
      · cases h
      · rename_i hl
        have hgrow := h2lookup_log hl
        dsimp only at h
        split_ifs at h
        · cases h
          exact hgrow
        · cases h
          exact hgrow
        · exact hgrow.trans (ih h)

theorem errorTotal_eq (acc : List UInt8) (h : 0 ≤ errorTotal acc) : errorTotal acc = acc.length := by
  unfold errorTotal at h ⊢
  split_ifs at h ⊢ with hnil
  · exact absurd h (by decide)
  · rfl

theorem trim_of_lt {n back len : ℕ} (h : back < n) : trim ((n : ℤ)-back) len = min (n-back) len := by
  unfold trim
  split_ifs <;> omega

/-- What is stored of a file is what the volume holds, as far as it goes. -/
theorem readfileLoop_spec (fuel : ℕ) {bref bres : Bref} {off len : ℕ} {acc data : List UInt8} {s s' : H2} {total : ℤ}
    (hbref : H2Base L d.toH2Volume bref) (hs : H2Holds d.toH2Volume s)
    (h : readfileLoop L d.toH2Volume unset fuel bref off len acc bres s = some (total,data,s'))
    (hlog : ∀ e ∈ s'.log, e.Spares) :
    H2Holds d.toH2Volume s' ∧ (0 ≤ total → total = data.length) ∧
      ∀ bytes, d.readfile L fuel bref off len bres = some bytes → data <+: acc ++ bytes := by
  induction fuel generalizing off len acc bres s with
  | zero => cases h
  | succ fuel ih =>
    rw [readfileLoop] at h
    rw [H2Volume.readfile]
    by_cases hz : len = 0
    · rw [if_pos hz] at h ⊢
      cases h
      exact ⟨hs,fun _ => rfl,fun bytes _ => List.prefix_append _ _⟩
    rw [if_neg hz] at h ⊢
    cases hl : h2lookup L d.toH2Volume unset fuel bref off (off+len-1) bres s with
    | none => rw [hl] at h; cases h
    | some out =>
      obtain ⟨f,s₁⟩ := out
      rw [hl] at h
      dsimp only at h
      have hgrow : s₁.log <+: s'.log := by
        split_ifs at h
        · cases h
          exact List.prefix_refl _
        · cases h
          exact List.prefix_refl _
        · exact readfileLoop_log d.toH2Volume fuel h
      obtain ⟨hs₁,hres⟩ := h2lookup_spec d.toH2Media fuel hbref hs hl fun e he => hlog e (hgrow.subset he)
      split_ifs at h with hneg hzero
      · cases h
        exact ⟨hs₁,errorTotal_eq _,fun bytes _ => List.prefix_append _ _⟩
      · cases h
        refine ⟨hs₁,fun _ => by rw [List.length_append,List.length_replicate,Nat.cast_add],fun bytes hb => ?_⟩
        obtain ⟨hrc,-⟩ | ⟨hit,hlook,hhit⟩ := hres
        · omega
        rw [hlook] at hb
        cases hit with
        | nothing =>
          cases hb
          exact List.prefix_refl _
        | found n b rec =>
          have hpos := hhit.2.2.2.1
          have hrc := hhit.1
          omega
        | error => cases hb
        | bad => cases hb
      · obtain ⟨hs',htotal,hrest⟩ := ih hs₁ h
        refine ⟨hs',htotal,fun bytes hb => ?_⟩
        obtain ⟨hrc,-⟩ | ⟨hit,hlook,hhit⟩ := hres
        · omega
        rw [hlook] at hb
        cases hit with
        | nothing => exact absurd hhit.1 hzero
        | error => cases hb
        | bad => cases hb
        | found n b rec =>
          obtain ⟨hrc,rfl,-,-,p,hp,hsound⟩ := hhit
          have hdata := (hsound d.leaves).2
          dsimp only at hb
          split_ifs at hb with hback
          obtain ⟨rest,hread,rfl⟩ := Option.map_eq_some_iff.mp hb
          rw [hrc,trim_of_lt (not_le.mp hback)] at hrest
          have hchunk : (List.range (min (n-recordBack off f.bref) (len-recordZfill off f.bref))).map
                (fun j => s₁.media (f.ptr.getD 0+recordBack off f.bref+j)) =
              (List.range (min (n-recordBack off f.bref) (len-recordZfill off f.bref))).map
                fun j => rec (recordBack off f.bref+j) := by
            refine List.map_congr_left fun j hj => ?_
            rw [List.mem_range] at hj
            rw [hp,Option.getD_some,Nat.add_assoc,hdata _ (by omega)]
          have hpre := hrest rest hread
          rw [hchunk,List.append_assoc,List.append_assoc] at hpre
          rwa [List.append_assoc]

end Readfile

section Run
variable {L : H2Layout} (disks : ℕ → H2Disk L) {unset : ℤ} {wild : ℕ → UInt8} {icrc32 : List UInt8 → ℕ} {fuel : ℕ}

/-- The volumes of the disks. -/
def volumes (i : ℕ) : H2Volume := (disks i).toH2Volume

theorem H2Hits.agrees {d : H2Disk L} {ret : Bref} {f : H2Found} {media : ℕ → UInt8} {hit : H2Hit}
    (h : H2Hits L d.toH2Volume ret f media hit) : H2Agrees f media hit := by
  cases hit with
  | nothing => exact h.1
  | found n b data =>
    obtain ⟨hrc,hb,-,-,p,hp,hsound⟩ := h
    exact ⟨hrc,hb,p,hp,(hsound d.leaves).2⟩
  | error => exact h
  | bad => trivial

/-- A call that starts from a buffer with the block its key names, on the device of the call. -/
theorem h2call_spec {s : H2} {c : H2Call} (hs : H2Holds (volumes disks c.vol) s) (hok : H2CallOk L (volumes disks) icrc32 fuel c)
    (hlog : ∀ e ∈ (h2call L (volumes disks) unset wild icrc32 fuel s c).2.log, e.Spares ∧ (c.isResolve = true → e.ok = true)) :
    H2Returns L (volumes disks) unset wild icrc32 fuel s c ∧
      H2Holds (volumes disks c.vol) (h2call L (volumes disks) unset wild icrc32 fuel s c).2 := by
  cases c with
  | lookup vol base keyBeg keyEnd bres =>
    cases base with
    | none => exact ⟨trivial,fun hne => absurd rfl hne⟩
    | some base =>
      rw [h2call] at hlog ⊢
      cases hl : h2lookup L (volumes disks vol) unset fuel base keyBeg keyEnd bres s with
      | none =>
        refine ⟨fun f s' h => ?_,hs⟩
        rw [hl] at h
        cases h
      | some out =>
        obtain ⟨f,s'⟩ := out
        rw [hl] at hlog
        obtain ⟨hs',hres⟩ := h2lookup_spec (disks vol).toH2Media fuel hok hs hl fun e he => (hlog e he).1
        refine ⟨fun f₁ s₁ h hrc => ?_,hs'⟩
        rw [hl] at h
        cases h
        obtain ⟨hit,hlook,hhit⟩ := hres.resolve_left fun hf => hrc hf.1
        exact ⟨hit,hlook,hhit.agrees⟩
  | resolve vol path bres =>
    rw [h2call] at hlog ⊢
    obtain ⟨⟨b,inop⟩,hpure⟩ := Option.ne_none_iff_exists'.mp hok
    cases hr : h2resolve L (volumes disks vol) unset wild icrc32 fuel path bres s with
    | none =>
      refine ⟨fun bref ino s' h => ?_,hs⟩
      rw [hr] at h
      cases h
    | some out =>
      obtain ⟨bref,ino,s'⟩ := out
      rw [hr] at hlog
      obtain ⟨hs',hb,hino⟩ := resolveLoop_spec (disks vol) fuel (fun _ => .root) hs rfl hr (fun e he => (hlog e he).2 rfl) hpure
      refine ⟨fun bref₁ ino₁ s₁ h b₁ inop₁ hpure₁ => ?_,hs'⟩
      rw [hr] at h
      cases h
      rw [hpure] at hpure₁
      cases hpure₁
      exact ⟨hb,hino⟩
  | readfile vol bref off filesize len bres =>
    rw [h2call] at hlog ⊢
    cases hr : h2readfile L (volumes disks vol) unset fuel bref off filesize len bres s with
    | none =>
      refine ⟨fun total data s' h => ?_,hs⟩
      rw [hr] at h
      cases h
    | some out =>
      obtain ⟨total,data,s'⟩ := out
      rw [hr] at hlog
      have hspec : H2Holds (volumes disks vol) s' ∧ (0 ≤ total → total = data.length) ∧ (off < filesize → ∀ bytes,
          (volumes disks vol).readfile L fuel bref off (min len (filesize-off)) bres = some bytes → data <+: bytes) := by
        unfold h2readfile at hr
        split_ifs at hr with hoff
        · cases hr
          exact ⟨hs,fun _ => rfl,fun hlt => absurd hoff (not_le.mpr hlt)⟩
        · obtain ⟨hs',htotal,hdata⟩ := readfileLoop_spec (disks vol) fuel hok hs hr fun e he => (hlog e he).1
          exact ⟨hs',htotal,fun _ => hdata⟩
      refine ⟨fun total₁ data₁ s₁ h hpos => ?_,hspec.1⟩
      rw [hr] at h
      cases h
      exact ⟨hspec.2.1 hpos,hspec.2.2⟩

end Run

section Examples

/-- The layout of version 1 volumes. -/
def h2LayoutV1 : H2Layout where
  mediaBytes := 65536
  setCount := 4
  brefBytes := 128
  embeddedBytes := 512
  inodeBytes := 1024
  lbufRadix := 14
  filenameOff := 256
  brefOf := fun b => ⟨match (b 0).toNat with
    | 0 => .empty
    | 1 => .inode
    | 2 => .indirect
    | 3 => .data
    | 255 => .volume
    | n => .other n,leGet b 8 8,(b 3).toNat,leGet b 32 8⟩
  directData := fun b => (b 0x51).toNat%2 = 1
  nameLen := fun b => leGet b 0x80 2
  isDirectory := fun b => b 0x50 = 1
  brefBytes_pos := by decide
  embedded_pos := Nat.succ_pos 511
  set_le := by decide
  data_le := by decide
  inode_ge := by decide
  lbuf_ge := by decide
  lbuf_le := by decide
  media_lt := by decide

/-- An inode of 1 KB at 1 MB. -/
def smallFile : Bref := ⟨.inode,0,0,1048576+10⟩

/-- A volume with a small file of one byte in its inode. -/
def smallVolume (byte : UInt8) : H2Volume where
  dev := fun o => if o = 1048576+0x51 then 1 else if o = 1048576+512 then byte else 0
  sroot := smallFile
  srootBlockset := fun _ => ⟨.empty,0,0,0⟩

attribute [local grind =] h2LayoutV1

theorem smallVolume_ref {byte : UInt8} (hbyte : byte = 7 ∨ byte = 8) {b : Bref} (h : (smallVolume byte).Ref h2LayoutV1 b) :
    b = smallFile ∨ ¬(b.type = .inode ∨ b.type = .indirect ∨ b.type = .data) := by
  induction h with
  | root => exact .inl rfl
  | set i hi =>
    right
    rintro (h | h | h) <;> cases h
  | sub hb ht hi ih =>
    rename_i b i
    obtain rfl | hno := ih
    · right
      have hi' : i < 4 := hi
      obtain rfl | rfl := hbyte <;> interval_cases i <;> decide
    · exact absurd (ht.imp_right .inl) hno

/-- The two volumes hold different bytes at the same offset. -/
def smallDisk (byte : UInt8) (hbyte : byte = 7 ∨ byte = 8) : H2Disk h2LayoutV1 where
  toH2Volume := smallVolume byte
  wf := by
    intro b hb ht
    obtain rfl | hno := smallVolume_ref hbyte hb
    · decide
    · exact absurd (ht.imp_right .inl) hno
  leaves := by
    intro b hb ht
    obtain rfl | hno := smallVolume_ref hbyte hb
    · decide
    · exact absurd (ht.imp_right .inr) hno

def smallDisks (i : ℕ) : H2Disk h2LayoutV1 := if i = 0 then smallDisk 7 (.inl rfl) else smallDisk 8 (.inr rfl)

/-- The start: no key, and the reads of the device to come. -/
def h2start (io : List Outcome) : H2State := ⟨⟨fun _ => 0,noBase,io,[]⟩,0⟩

def readSmall (vol : ℕ) : H2Call := .readfile vol smallFile 0 1 1 ⟨.empty,0,0,0⟩

def clearKey (vol : ℕ) : H2Call := .lookup vol none 0 0 ⟨.empty,0,0,0⟩

end Examples

end Blub.Stand
