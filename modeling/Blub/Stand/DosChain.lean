import Blub.Lib.Orbit
import Blub.Stand.DosIo
import Blub.Stand.DosfsGeometry

/-! When the loops of `dosfs.c` that follow the links of a FAT come to an end. -/
namespace Blub.Stand
open Blub.Bytes Blub.Orbit

namespace DosVol
variable (v : DosVol)

/-- One step along a chain of valid clusters, as `fatcnt` takes it. -/
def okStep (c : ℕ) : Option ℕ := if v.fs.okclus c then some (v.fatNext c) else none

/-- One step of `lookup`, which stops at an end mark first. -/
def lookStep (c : ℕ) : Option ℕ :=
  if v.fs.okclus c ∧ ¬fatend v.fs.fatsz (v.fatNext c) then some (v.fatNext c) else none

/-- A cluster on the way of `lookup` has an entry that ends the directory. -/
def HasEnd (clus : ℕ) : Prop :=
  ∃ n c, orbit v.lookStep clus n = some c ∧ v.fs.okclus c ∧ ∃ e ∈ v.dirEntries (v.fs.blklsn c) v.fs.spc, e 0 = 0

variable {v} {b : DosBuf}

theorem okStep_of_lookStep {c d : ℕ} (h : v.lookStep c = some d) : v.okStep c = some d := by
  rw [lookStep] at h
  split_ifs at h with hc
  rw [okStep,if_pos hc.1,h]

/-- The links are numbers of 32 bits. -/
theorem orbit_mem {step : ℕ → Option ℕ} (hstep : ∀ c d, step c = some d → d < 2^32) (c n d : ℕ)
    (h : orbit step c n = some d) : d ∈ insert c (Set.Iio (2^32)) := by
  cases n with
  | zero => exact .inl (Option.some.inj h).symm
  | succ n =>
    obtain ⟨e,-,hd⟩ := Option.bind_eq_some_iff.mp h
    exact .inr (hstep e d hd)

theorem okStep_lt (c d : ℕ) (h : v.okStep c = some d) : d < 2^32 := by
  rw [okStep] at h
  split_ifs at h
  exact Option.some.inj h ▸ fatNext_lt v c

theorem okStep_ends_iff (c : ℕ) : (∃ n, orbit v.okStep c n = none) ↔ NoReturn v.okStep c :=
  orbit_ends_iff ((Set.finite_Iio (2^32)).insert c) (orbit_mem okStep_lt c)

theorem lookStep_ends_iff (c : ℕ) : (∃ n, orbit v.lookStep c n = none) ↔ NoReturn v.lookStep c :=
  orbit_ends_iff ((Set.finite_Iio (2^32)).insert c)
    (orbit_mem (fun c d h => okStep_lt c d (okStep_of_lookStep h)) c)

/-- `fatcnt` takes as many turns as the chain has links. -/
theorem fatcntLoop_none (hb : v.Cached b) (fuel c n : ℕ) :
    v.fatcntLoop fuel c n b = none ↔ orbit v.okStep c fuel ≠ none := by
  induction fuel generalizing c n b with
  | zero => simp only [fatcntLoop,orbit_zero,ne_eq,reduceCtorEq,not_false_eq_true]
  | succ fuel ih =>
    obtain ⟨hnext,hc⟩ := fatget_spec hb c
    rw [fatcntLoop]
    by_cases hok : v.fs.okclus c
    · rw [if_pos hok]
      dsimp only
      rw [ih hc,hnext,orbit_step (by rw [okStep,if_pos hok])]
    · rw [if_neg hok,orbit_none (m := 1) (by rw [orbit_succ orbit_zero,okStep,if_neg hok]) (Nat.succ_le_succ (Nat.zero_le _))]
      simp only [reduceCtorEq,ne_eq,not_true_eq_false]

/-- `fatcnt` ends exactly where the chain does not come back. -/
theorem fatcnt_ends_iff (hb : v.Cached b) (c : ℕ) : (∃ fuel, v.fatcnt fuel c b ≠ none) ↔ NoReturn v.okStep c := by
  rw [← okStep_ends_iff]
  exact exists_congr fun fuel => by rw [fatcnt,ne_eq,fatcntLoop_none hb,not_not]

/-- An end mark ends the search, unless it ended before. -/
theorem lookupEntries_end (name : List UInt8) {es : List (ℕ → UInt8)} (h : ∃ e ∈ es, e 0 = 0) (st st' : LongName) :
    lookupEntries name es st ≠ .more st' := by
  induction es generalizing st with
  | nil =>
    obtain ⟨e,he,-⟩ := h
    cases he
  | cons e es ih =>
    rw [lookupEntries]
    split
    · rename_i st₁ hmore
      refine ih ?_ st₁
      obtain ⟨e',he',h0⟩ := h
      cases he' with
      | head => rw [lookupEntry,if_pos h0] at hmore; cases hmore
      | tail _ hin => exact ⟨e',hin,h0⟩
    · rename_i hno
      exact hno st'

/-- A turn of the loop of `lookup` that does not return. -/
theorem lookupLoop_next (hb : v.Cached b) (name : List UInt8) (nsec fuel clus lsec : ℕ) (st : LongName)
    (h : v.lookupLoop name nsec (fuel+1) clus lsec st b = none) :
    ∃ st' b', v.lookStep clus = some (v.fatNext clus) ∧ v.Cached b' ∧
      v.lookupLoop name nsec fuel (v.fatNext clus) (v.fs.blklsn clus) st' b' = none := by
  obtain ⟨hnext,hc⟩ := fatget_spec hb clus
  rw [lookupLoop] at h
  split at h
  · cases h
  rename_i hno
  dsimp only at h
  split at h
  · cases h
  · cases h
  rename_i st' _
  split at h
  · cases h
  rename_i hclus
  have hok : v.fs.okclus clus := by
    by_contra hbad
    exact hno ⟨fun h0 => hclus h0.1,hbad⟩
  split at h
  · cases h
  rename_i hend
  rw [hnext] at h hend
  refine ⟨st',_,by rw [lookStep,if_pos ⟨hok,hend⟩],hc,?_⟩
  rwa [if_neg (fun h0 => hclus h0.1)] at h

/-- `lookup` takes no more turns than it has clusters on its way. -/
theorem lookupLoop_ends (hb : v.Cached b) (name : List UInt8) {nsec fuel clus lsec : ℕ} {st : LongName}
    (h : orbit v.lookStep clus fuel = none) : v.lookupLoop name nsec fuel clus lsec st b ≠ none := by
  induction fuel generalizing clus lsec st b with
  | zero => cases h
  | succ fuel ih =>
    intro hnone
    obtain ⟨st',b',hstep,hb',hrest⟩ := lookupLoop_next hb name nsec fuel clus lsec st hnone
    rw [orbit_step hstep] at h
    exact ih hb' h hrest

/-- An end mark on the way ends the search. -/
theorem lookupLoop_mark (hb : v.Cached b) (name : List UInt8) {n clus lsec c : ℕ} {st : LongName}
    (h : orbit v.lookStep clus n = some c) (hok : v.fs.okclus c)
    (hend : ∃ e ∈ v.dirEntries (v.fs.blklsn c) v.fs.spc, e 0 = 0) :
    v.lookupLoop name v.fs.spc (n+1) clus lsec st b ≠ none := by
  induction n generalizing clus lsec st b with
  | zero =>
    obtain rfl := Option.some.inj h
    have hpos : clus ≠ 0 := by
      rintro rfl
      exact absurd hok.1 (by decide)
    rw [lookupLoop,if_neg (fun hno => hno.2 hok)]
    dsimp only
    rw [if_neg (fun h0 => hpos h0.1)]
    split
    · exact Option.some_ne_none _
    · exact Option.some_ne_none _
    · rename_i st' hmore
      exact absurd hmore (lookupEntries_end name hend st st')
  | succ n ih =>
    intro hnone
    obtain ⟨st',b',hstep,hb',hrest⟩ := lookupLoop_next hb name _ (n+1) clus lsec st hnone
    rw [orbit_step hstep] at h
    exact ih hb' h hrest

end DosVol

section Unnamed

/-- A name that no entry has: it is longer than a short name, and no long name has its character. -/
def unnamed : List UInt8 := List.replicate 14 1

theorem tolower_one {c : UInt8} (h : tolower c = 1) : c = 1 := by
  revert h
  rw [tolower]
  split_ifs with hc
  · intro h
    exfalso
    have hn := congrArg UInt8.toNat h
    have h₁ : 65 ≤ c.toNat := hc.1
    have h₂ : c.toNat ≤ 90 := hc.2
    rw [UInt8.toNat_add] at hn
    change (c.toNat+32)%256 = 1 at hn
    omega
  · exact id

theorem unnamed_lower : unnamed.map tolower = 1 :: List.replicate 13 1 := by decide

theorem unnamed_long {lfn : ℕ → UInt8} (h : ∀ k, lfn k ≠ 1) : ¬sameName unnamed (cstrOf 261 lfn) := by
  rw [sameName,unnamed_lower]
  intro heq
  cases hs : cstrOf 261 lfn with
  | nil => rw [hs] at heq; cases heq
  | cons c s =>
    rw [hs,List.map_cons] at heq
    have hc := tolower_one (List.cons.inj heq).1.symm
    have hmem : c ∈ cstrOf 261 lfn := hs ▸ List.mem_cons_self
    obtain ⟨k,-,hk⟩ := List.mem_map.mp (List.takeWhile_subset _ hmem)
    exact h k (hk.trans hc)

theorem trimBlanks_length (s : List UInt8) : (trimBlanks s).length ≤ s.length := by
  rw [trimBlanks,List.length_reverse]
  exact (List.dropWhile_suffix _).length_le.trans (List.length_reverse).le

theorem cpSfn_length (e : ℕ → UInt8) : (cpSfn e).length ≤ 12 := by
  have h₁ := trimBlanks_length ((List.range 8).map e)
  have h₂ := trimBlanks_length ((List.range 3).map fun i => e (8+i))
  rw [List.length_map,List.length_range] at h₁ h₂
  have hs : (if e 0 ≠ 0x20 then trimBlanks ((List.range 8).map e) ++
      (if e 8 ≠ 0x20 then 0x2e :: trimBlanks ((List.range 3).map fun i => e (8+i)) else []) else []).length ≤ 12 := by
    split_ifs
    · rw [List.length_append,List.length_cons]
      omega
    · rw [List.length_append,List.length_nil]
      omega
    · exact Nat.zero_le _
  rw [cpSfn]
  split
  · exact Nat.zero_le _
  · rename_i c s heq
    rw [heq] at hs
    exact hs

theorem unnamed_short (e : ℕ → UInt8) : ¬sameName unnamed ((cpSfn e).takeWhile (· ≠ 0)) := by
  intro heq
  have hlen := congrArg List.length heq
  rw [List.length_map,List.length_map] at hlen
  have hle : ((cpSfn e).takeWhile (· ≠ 0)).length ≤ 12 := (List.takeWhile_prefix _).length_le.trans (cpSfn_length e)
  change 14 = _ at hlen
  omega

theorem cpXdnmLoop_ne_one (e : ℕ → UInt8) {os : List ℕ} {k : ℕ} {lfn : ℕ → UInt8} (h : ∀ j, lfn j ≠ 1) (j : ℕ) :
    cpXdnmLoop e os k lfn j ≠ 1 := by
  induction os generalizing k lfn with
  | nil =>
    rw [cpXdnmLoop]
    split_ifs
    · rw [Function.update_apply]
      split_ifs
      · decide
      · exact h j
    · exact h j
  | cons o os ih =>
    have hnext : ∀ c : UInt8, c ≠ 1 → ∀ j, Function.update lfn k c j ≠ 1 := by
      intro c hc j
      rw [Function.update_apply]
      split_ifs
      · exact hc
      · exact h j
    have hchar : (if leGet e o 2 ≠ 0 ∧ (leGet e o 2 < 32 ∨ 127 < leGet e o 2) then (0x3f : UInt8)
        else UInt8.ofNat (leGet e o 2)) ≠ 1 := by
      split_ifs with hc
      · decide
      · intro h1
        have hn := congrArg UInt8.toNat h1
        rw [UInt8.toNat_ofNat'] at hn
        change leGet e o 2%256 = 1 at hn
        omega
    rw [cpXdnmLoop]
    revert hchar
    generalize (if leGet e o 2 ≠ 0 ∧ (leGet e o 2 < 32 ∨ 127 < leGet e o 2) then (0x3f : UInt8)
      else UInt8.ofNat (leGet e o 2)) = c
    intro hchar
    split_ifs
    · exact hnext c hchar j
    · exact ih (hnext c hchar)

/-- The search for that name goes on after every entry that is not an end mark. -/
theorem lookupEntry_unnamed {e : ℕ → UInt8} {st : LongName} (he : e 0 ≠ 0) (h : ∀ k, st.lfn k ≠ 1) :
    ∃ st', lookupEntry unnamed e st = .more st' ∧ ∀ k, st'.lfn k ≠ 1 := by
  have hno : ¬entryNamed unnamed e st := by
    rintro (⟨-,-,hlong⟩ | hshort)
    · exact unnamed_long h hlong
    · exact unnamed_short e hshort
  rw [lookupEntry,if_neg he,if_neg (fun hn => hno hn.2 : ¬(deAttr e &&& faLabel = 0 ∧ entryNamed unnamed e st))]
  dsimp only
  split
  · exact ⟨_,rfl,h⟩
  split
  · split
    · split
      · exact ⟨_,rfl,cpXdnmLoop_ne_one e h⟩
      · exact ⟨_,rfl,h⟩
    · exact ⟨_,rfl,h⟩
  · exact ⟨_,rfl,h⟩

theorem lookupEntries_unnamed {es : List (ℕ → UInt8)} {st : LongName} (he : ∀ e ∈ es, e 0 ≠ 0) (h : ∀ k, st.lfn k ≠ 1) :
    ∃ st', lookupEntries unnamed es st = .more st' ∧ ∀ k, st'.lfn k ≠ 1 := by
  induction es generalizing st with
  | nil => exact ⟨st,rfl,h⟩
  | cons e es ih =>
    obtain ⟨st₁,hmore,h₁⟩ := lookupEntry_unnamed (he e List.mem_cons_self) h
    obtain ⟨st₂,hrest,h₂⟩ := ih (fun e' he' => he e' (List.mem_cons_of_mem e he')) h₁
    exact ⟨st₂,by rw [lookupEntries,hmore]; exact hrest,h₂⟩

end Unnamed

namespace DosVol
variable {v : DosVol} {b : DosBuf}

/-- On a chain that comes back and has no end mark, the search for that name never ends. -/
theorem lookupLoop_endless (hb : v.Cached b) {fuel clus lsec : ℕ} {st : LongName}
    (h : ∀ n, orbit v.lookStep clus n ≠ none) (hend : ¬v.HasEnd clus) (hst : ∀ k, st.lfn k ≠ 1) :
    v.lookupLoop unnamed v.fs.spc fuel clus lsec st b = none := by
  induction fuel generalizing clus lsec st b with
  | zero => rfl
  | succ fuel ih =>
    obtain ⟨d,hd⟩ := Option.ne_none_iff_exists'.mp (h 1)
    rw [orbit_succ orbit_zero] at hd
    have hstep := hd
    rw [lookStep] at hd
    split_ifs at hd with hgo
    obtain rfl := Option.some.inj hd
    have hpos : clus ≠ 0 := by
      rintro rfl
      exact absurd hgo.1.1 (by decide)
    have hmarks : ∀ e ∈ v.dirEntries (v.fs.blklsn clus) v.fs.spc, e 0 ≠ 0 :=
      fun e he h0 => hend ⟨0,clus,rfl,hgo.1,e,he,h0⟩
    obtain ⟨st',hmore,hst'⟩ := lookupEntries_unnamed hmarks hst
    obtain ⟨hnext,hc⟩ := fatget_spec hb clus
    rw [lookupLoop,if_neg (fun hno => hno.2 hgo.1)]
    dsimp only
    rw [if_neg (fun h0 => hpos h0.1),hmore]
    dsimp only
    rw [if_neg hpos,hnext,if_neg hgo.2]
    refine ih hc (fun n => ?_) (fun hend' => ?_) hst'
    · rw [← orbit_step hstep]
      exact h (n+1)
    · obtain ⟨n,c,hn,hrest⟩ := hend'
      exact hend ⟨n+1,c,(orbit_step hstep n).trans hn,hrest⟩

/-- The search for every name ends exactly where the way of `lookup` does not come back, or has an end mark. -/
theorem lookup_ends_iff (hb : v.Cached b) (clus : ℕ) :
    (∀ name, ∃ fuel, v.lookup fuel clus name b ≠ none) ↔
      NoReturn v.lookStep (v.lookupStart clus) ∨ v.HasEnd (v.lookupStart clus) := by
  rw [← lookStep_ends_iff]
  constructor
  · intro h
    by_contra hno
    rw [not_or,not_exists] at hno
    obtain ⟨fuel,hfuel⟩ := h unnamed
    have hpos : v.lookupStart clus ≠ 0 := by
      intro h0
      refine hno.1 1 ?_
      rw [h0,orbit_succ orbit_zero,lookStep,if_neg fun hok => absurd hok.1.1 (by decide)]
    rw [lookup,if_neg (fun hd => absurd hd.2 (by decide)),if_neg (fun hd => absurd hd.2 (by decide))] at hfuel
    dsimp only at hfuel
    rw [if_neg hpos] at hfuel
    exact hfuel (lookupLoop_endless hb hno.1 hno.2 fun _ => (by decide : (0 : UInt8) ≠ 1))
  · rintro h name
    have hrun : ∃ fuel, v.lookupLoop name (if v.lookupStart clus = 0 then entsec v.fs.dirents else v.fs.spc) fuel
        (v.lookupStart clus) 0 ⟨0,0,fun _ => 0⟩ b ≠ none := by
      rcases h with ⟨n,hn⟩ | ⟨n,c,hn,hok,hend⟩
      · exact ⟨n,lookupLoop_ends hb name hn⟩
      · have hpos : v.lookupStart clus ≠ 0 := by
          intro h0
          rw [h0] at hn
          cases n with
          | zero =>
            obtain rfl := Option.some.inj hn
            exact absurd hok.1 (by decide)
          | succ n =>
            have hstop : orbit v.lookStep 0 1 = none := by
              rw [orbit_succ orbit_zero,lookStep,if_neg fun hok => absurd hok.1.1 (by decide)]
            rw [orbit_none hstop (Nat.succ_le_succ (Nat.zero_le n))] at hn
            cases hn
        rw [if_neg hpos]
        exact ⟨n+1,lookupLoop_mark hb name hn hok hend⟩
    obtain ⟨fuel,hfuel⟩ := hrun
    refine ⟨fuel,?_⟩
    rw [lookup]
    split_ifs
    · exact Option.some_ne_none _
    · exact Option.some_ne_none _
    · exact hfuel

/-- Each turn of the loop of `dos_read` reads at least one byte. -/
theorem readLoop_ends {clus fuel off cnt : ℕ} (hsize : 0 < v.fs.bsize) (hoff : clus ≠ 0 → off < v.fs.bsize)
    (hfuel : cnt < fuel) (c : ℕ) (f : DosFile) (data : List UInt8) (b : DosBuf) : v.readLoop clus fuel c off cnt f data b ≠ none := by
  induction fuel generalizing c off cnt f data b with
  | zero => omega
  | succ fuel ih =>
    rw [readLoop]
    by_cases hcnt : cnt = 0
    · rw [if_pos hcnt]
      exact Option.some_ne_none _
    rw [if_neg hcnt]
    dsimp only
    cases hchase : v.chase (v.links clus off f c).2 (v.links clus off f c).1 b with
    | mk c' b' =>
      cases c' with
      | none => exact Option.some_ne_none _
      | some c' =>
        refine ih (fun _ => hsize) ?_ _ _ _ _
        split_ifs with hlast
        · omega
        · rw [not_or,not_lt] at hlast
          have hlt := hoff hlast.1
          omega

theorem fsize_none_iff (fuel : ℕ) (de : ℕ → UInt8) :
    v.fsize fuel de b = none ↔
      (deSize de = 0 ∧ deAttr de &&& faDir ≠ 0) ∧ deClus de ≠ 0 ∧ v.fatcnt fuel (deClus de) b = none := by
  rw [fsize]
  split_ifs with hdir hclus
  · exact ⟨fun h => h.elim,fun h => absurd hclus h.2.1⟩
  · cases hcount : v.fatcnt fuel (deClus de) b with
    | none => exact ⟨fun _ => ⟨hdir,hclus,rfl⟩,fun _ => rfl⟩
    | some r => exact ⟨fun h => absurd h (Option.some_ne_none _),fun h => absurd h.2.2 (Option.some_ne_none _)⟩
  · exact ⟨fun h => h.elim,fun h => absurd h.1 hdir⟩

/-- A read ends exactly where its size is found. -/
theorem dosRead_ends_iff (hb : v.Cached b) (hsize : 0 < v.fs.bsize) (de : ℕ → UInt8) (nbyte : ℕ) (f : DosFile) :
    (∃ fuel, v.dosRead fuel de nbyte f b ≠ none) ↔
      (deSize de = 0 ∧ deAttr de &&& faDir ≠ 0 → NoReturn v.okStep (deClus de)) := by
  rw [← okStep_ends_iff]
  constructor
  · rintro ⟨fuel,h⟩ hdir
    by_cases hclus : deClus de = 0
    · refine ⟨1,?_⟩
      rw [orbit_succ orbit_zero,hclus,okStep,if_neg fun hok => absurd hok.1 (by decide)]
    · refine ⟨fuel,?_⟩
      by_contra hnone
      have hfsize := (fsize_none_iff fuel de).mpr ⟨hdir,hclus,(fatcntLoop_none hb fuel (deClus de) 0).mpr hnone⟩
      rw [dosRead,hfsize] at h
      exact h rfl
  · intro h
    have hfound : ∃ fuel, 2^32 ≤ fuel ∧ v.fsize fuel de b ≠ none := by
      by_cases hdir : deSize de = 0 ∧ deAttr de &&& faDir ≠ 0
      · obtain ⟨n,hn⟩ := h hdir
        refine ⟨n+2^32,Nat.le_add_left _ _,fun hnone => ?_⟩
        have hcount := ((fsize_none_iff _ de).mp hnone).2.2
        exact (fatcntLoop_none hb _ _ 0).mp hcount (orbit_none hn (Nat.le_add_right _ _))
      · exact ⟨2^32,le_rfl,fun hnone => hdir ((fsize_none_iff _ de).mp hnone).1⟩
    obtain ⟨fuel,hfuel,hfsize⟩ := hfound
    refine ⟨fuel,?_⟩
    obtain ⟨⟨size,b'⟩,hres⟩ := Option.ne_none_iff_exists'.mp hfsize
    rw [dosRead,hres]
    dsimp only
    by_cases hbad : size = -1
    · rw [if_pos hbad]
      exact Option.some_ne_none _
    rw [if_neg hbad]
    have hcnt : min (nbyte%2^32) ((size-f.offset)%2^32).toNat < fuel := by omega
    have hoff : stclus v.fs.fatsz de ≠ 0 →
        (if stclus v.fs.fatsz de ≠ 0 then f.offset%v.fs.bsize else f.offset) < v.fs.bsize := by
      intro hclus
      rw [if_pos hclus]
      exact Nat.mod_lt _ hsize
    obtain ⟨r,hr⟩ := Option.ne_none_iff_exists'.mp (readLoop_ends hsize hoff hcnt f.c f [] b')
    rw [hr]
    exact Option.some_ne_none _

/-- What makes the walks along the chains of a directory entry end. -/
structure ChainsEnd (v : DosVol) (de : ℕ → UInt8) : Prop where
  start : NoReturn v.okStep (stclus v.fs.fatsz de)
  root : NoReturn v.lookStep (v.lookupStart (stclus v.fs.fatsz de)) ∨ v.HasEnd (v.lookupStart (stclus v.fs.fatsz de))
  size : deSize de = 0 ∧ deAttr de &&& faDir ≠ 0 → NoReturn v.okStep (deClus de)

/-- `fatcnt`, `lookup` and `dos_read` end exactly where the chains they follow do not come back. -/
theorem fat_walks_end_iff (hfs : parsebs v.dev = some v.fs) (hb : v.Cached b) (de : ℕ → UInt8) :
    ((∃ fuel, v.fatcnt fuel (stclus v.fs.fatsz de) b ≠ none) ∧
      (∀ name, ∃ fuel, v.lookup fuel (stclus v.fs.fatsz de) name b ≠ none) ∧
      (∀ nbyte f, ∃ fuel, v.dosRead fuel de nbyte f b ≠ none)) ↔ v.ChainsEnd de := by
  obtain ⟨k,hk⟩ := parsebs_spec hfs
  have hsize : 0 < v.fs.bsize := hk.bsize ▸ Nat.mul_pos (by norm_num) (Nat.two_pow_pos k)
  rw [fatcnt_ends_iff hb,lookup_ends_iff hb]
  constructor
  · rintro ⟨hstart,hroot,hread⟩
    exact ⟨hstart,hroot,(dosRead_ends_iff hb hsize de 0 ⟨0,0⟩).mp (hread 0 ⟨0,0⟩)⟩
  · rintro ⟨hstart,hroot,hdir⟩
    exact ⟨hstart,hroot,fun nbyte f => (dosRead_ends_iff hb hsize de nbyte f).mpr hdir⟩

/-- A step that stays where it is comes back. -/
theorem fatcnt_loops (hb : v.Cached b) {c : ℕ} (hstep : v.okStep c = some c) (fuel : ℕ) : v.fatcnt fuel c b = none := by
  have hstay : ∀ n, orbit v.okStep c n = some c := by
    intro n
    induction n with
    | zero => rfl
    | succ n ih => rw [orbit_succ ih,hstep]
  exact (fatcntLoop_none hb fuel c 0).mpr (by rw [hstay]; exact Option.some_ne_none _)

end DosVol

/-- The floppy disk with a file of one byte, in cluster 2. -/
def filedVol : DosVol := ⟨floppyFs,Function.update (Function.update floppySector 515 0xff) 516 0x0f⟩

def filedEntry : ℕ → UInt8 := fun j => if j = 26 then 2 else if j = 28 then 1 else 0

theorem parsebs_filed : parsebs filedVol.dev = some filedVol.fs := by decide

theorem fat_walks_end_filed :
    (∃ fuel, filedVol.fatcnt fuel 2 ⟨filedVol.ioget 0,0⟩ ≠ none) ∧
      (∀ name, ∃ fuel, filedVol.lookup fuel 2 name ⟨filedVol.ioget 0,0⟩ ≠ none) ∧
      (∀ nbyte f, ∃ fuel, filedVol.dosRead fuel filedEntry nbyte f ⟨filedVol.ioget 0,0⟩ ≠ none) := by
  have hnext : filedVol.okStep 2 = some 0xfff := by decide
  have hlast : filedVol.okStep 0xfff = none := by decide
  have hlook : filedVol.lookStep 2 = none := by decide
  exact (DosVol.fat_walks_end_iff parsebs_filed (fun _ _ => rfl) filedEntry).mpr
    ⟨noReturn_two hnext hlast (by decide),.inl (noReturn_of_none hlook),fun h => absurd h.1 (by decide)⟩

/-- The floppy disk with a FAT that links cluster 2 to itself. -/
def loopedVol : DosVol := ⟨floppyFs,Function.update floppySector 515 2⟩

theorem parsebs_looped : parsebs loopedVol.dev = some loopedVol.fs := by decide

/-- There the chain from cluster 2 is never counted to its end. -/
theorem fatcnt_never_ends :
    parsebs loopedVol.dev = some loopedVol.fs ∧ ∀ fuel, loopedVol.fatcnt fuel 2 ⟨loopedVol.ioget 0,0⟩ = none :=
  ⟨parsebs_looped,DosVol.fatcnt_loops (fun _ _ => rfl) (by decide)⟩

end Blub.Stand
