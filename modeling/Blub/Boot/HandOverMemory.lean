import Blub.Boot.HandOverRecords

/-! What the copies of the two loaders do that are not refused, and the environment that the EFI loader copies as the
other one does. -/
namespace Blub.Boot.HandOver
open Bytes Copies Records Strings

section Pc32
variable {memtop lo hi : ℕ} {s : Memory} {src : List UInt8} {a : ℕ}

theorem i386Copyin_ok (h : (i386Copyin memtop s src a).1.errno = 0) :
    i386Copyin memtop s src a = ({s with byte := bcopy s.byte a src},true) := by
  rw [i386Copyin] at h ⊢
  split_ifs at h ⊢ with hrefused
  · cases h
  · rfl

/-- Below the end of the address space, `bcopy` stores the bytes at their addresses. -/
theorem bcopy_spec (b : ℕ → UInt8) (hend : a+src.length < 2^32) : Holds (bcopy b a src) a src ∧
    ∀ x < 2^32, x < a ∨ a+src.length ≤ x → bcopy b a src x = b x := by
  refine ⟨holds_of_ofList fun j hj => ?_,fun x hx hout => ?_⟩
  · have hoff : (a+j+(2^32-a))%2^32 = j := by omega
    rw [bcopy,hoff,if_pos hj]
  · exact if_neg (by omega)

/-- The memory of the pc32 loader stores what it does not refuse. -/
def pc32Lawful (memtop lo : ℕ) (hhi : hi < 2^32) : Lawful (pc32 memtop) lo hi (2^32) where
  inv _ := True
  ready _ := True
  sticky s src a h := by
    change (i386Copyin memtop s src a).1.errno = 0 at h
    rw [i386Copyin_ok h] at h
    exact h
  spec s src a _ _ hlo hend h := by
    obtain ⟨hholds,hkeeps⟩ := @bcopy_spec src a s.byte (by omega)
    have hcopy : (pc32 memtop).copyin s src a = ({s with byte := bcopy s.byte a src},true) := i386Copyin_ok h
    refine ⟨?_,by omega,trivial,trivial,?_,fun _ x _ hx hout => ?_⟩
    · rw [hcopy]
    · rw [hcopy]
      exact hholds
    · rw [hcopy]
      exact hkeeps x (by omega) hout

end Pc32

section Efi
open EfiCopy
variable {area : Area} {lo hi : ℕ} {s : Staged} {src : List UInt8} {a : ℕ}

/-- The offset was set by a copy to an address up to `lo`, if it is set. -/
def Based (area : Area) (lo : ℕ) (s : Staged) : Prop :=
  s.stage.stageOffsetSet = true → ∃ dest ≤ lo, s.stage.stageOffset = (area.staging+(2^64-dest))%2^64

/-- What an accepted copy does. -/
theorem archCopyin_ok (h : (archCopyin area s src a).1.errno = 0) :
    (a+(setOffset area s.stage a).stageOffset+src.length)%2^64 ≤ area.stagingEnd ∧ s.errno = 0 ∧
      archCopyin area s src a = (⟨{setOffset area s.stage a with
        mem := EfiCopy.put (setOffset area s.stage a).mem (efiTranslate (setOffset area s.stage a) a) src.length
          (ofList src)},s.errno⟩,sizeT (Int.bmod src.length (2^64)) == src.length) := by
  simp only [archCopyin,efiCopyin] at h ⊢
  split_ifs at h ⊢ with hrefused
  · cases h
  · refine ⟨not_lt.mp hrefused,h,?_⟩
    dsimp only

theorem sizeT_bmod {n : ℕ} (hn : n < 2^32) : sizeT (Int.bmod n (2^64)) = n := by
  have hpow : ((2^64 : ℕ) : ℤ) = 2^64 := by norm_num
  have hcast : (n : ℤ) < 2^64 := by exact_mod_cast hn.trans (by norm_num)
  rw [sizeT,← hpow,Int.bmod_emod,hpow,Int.emod_eq_of_lt (Int.natCast_nonneg n) hcast]
  rfl

/-- The place of an address in the area. -/
theorem efiTranslate_eq {st : Stage} {d : ℕ} (hoff : st.stageOffset = (area.staging+(2^64-d))%2^64) (hd : d ≤ a)
    (hlt : area.staging+a < 2^64) : efiTranslate st a = area.staging+(a-d) := by
  rw [efiTranslate,hoff]
  omega

/-- What a copy stores that the EFI loader does not refuse. -/
theorem archCopyin_stored (hsmall : area.stagingEnd-area.staging < 2^32) (hhi : area.staging+hi < 2^64)
    (s : Staged) (src : List UInt8) (a : ℕ) (hinv : Based area lo s) (hfirst : s.stage.stageOffsetSet = true ∨ a = lo)
    (hlo : lo ≤ a) (hend : a+src.length ≤ hi) (h : (efi area).errno ((efi area).copyin s src a).1 = 0) :
    Stored (efi area) (Based area lo) (fun s => s.stage.stageOffsetSet = true) lo hi (2^32) s src a := by
  obtain ⟨hok,-,hcopy⟩ := archCopyin_ok h
  obtain ⟨d,hd,hoff⟩ : ∃ d ≤ lo, (setOffset area s.stage a).stageOffset = (area.staging+(2^64-d))%2^64 := by
    rw [setOffset]
    split_ifs with hset
    · exact hinv hset
    · exact ⟨a,(hfirst.resolve_left hset).le,rfl⟩
  have hcopy : (efi area).copyin s src a = _ := hcopy
  have hset : (setOffset area s.stage a).stageOffsetSet = true := setOffset_set _ _
  have hshort : src.length < 2^32 := by
    rw [hoff] at hok
    omega
  -- the place of an address counts from that of the first copy
  have hplace : ∀ x ≤ hi, lo ≤ x → efiTranslate (setOffset area s.stage a) x = area.staging+(x-d) :=
    fun x hx hlox => efiTranslate_eq hoff (by omega) (by omega)
  refine ⟨?_,hshort,?_,?_,?_,?_⟩
  · rw [hcopy]
    exact beq_iff_eq.mpr (sizeT_bmod hshort)
  · rw [hcopy]
    exact fun _ => ⟨d,hd,hoff⟩
  · rw [hcopy]
    exact hset
  · rw [hcopy]
    refine holds_of_ofList fun j hj => ?_
    change EfiCopy.put _ (efiTranslate (setOffset area s.stage a) a) src.length (ofList src)
      (efiTranslate (setOffset area s.stage a) (a+j)) = ofList src j
    have hdist : EfiCopy.dist (area.staging+(a-d)) (area.staging+(a+j-d)) = j := by
      rw [dist_of_le (by omega) (by omega)]
      omega
    rw [hplace a (by omega) hlo,hplace (a+j) (by omega) (by omega),put_inside (by rwa [hdist]),hdist]
  · intro hready x hlox hhix hout
    have hsame : setOffset area s.stage a = s.stage := if_pos hready
    rw [hcopy]
    change EfiCopy.put (setOffset area s.stage a).mem (efiTranslate (setOffset area s.stage a) a) src.length (ofList src)
      (efiTranslate (setOffset area s.stage a) x) = s.stage.mem (efiTranslate s.stage x)
    have hdist : src.length ≤ EfiCopy.dist (area.staging+(a-d)) (area.staging+(x-d)) := by
      rw [EfiCopy.dist]
      omega
    rw [put_outside (by rwa [hplace a (by omega) hlo,hplace x hhix.le hlox]),hsame]

/-- The memory of the EFI loader stores what it does not refuse, if the area is smaller than 4 GiB and the blocks do not
reach the end of the address space where they are staged. -/
def efiLawful (lo : ℕ) (hsmall : area.stagingEnd-area.staging < 2^32) (hhi : area.staging+hi < 2^64) :
    Lawful (efi area) lo hi (2^32) where
  inv s := Based area lo s
  ready s := s.stage.stageOffsetSet = true
  sticky _ _ _ h := (archCopyin_ok h).2.1
  spec := archCopyin_stored hsmall hhi

/-- The memory after some copies, refused or not. -/
def stateOf : Except Staged (ℕ × Staged) → Staged
  | .error s => s
  | .ok o => o.2

theorem stateOf_copyOr (src : List UInt8) (o : ℕ × Staged) :
    stateOf (copyOr area src o) = (archCopyin area o.2 src o.1).1 := by
  rw [copyOr]
  split_ifs <;> rfl

/-- Copies one behind the other, up to the first that is refused. -/
def copyAll (area : Area) (l : List (List UInt8)) (o : ℕ × Staged) : Except Staged (ℕ × Staged) :=
  l.foldlM (fun o src => copyOr area src o) o

theorem copyAll_cons (src : List UInt8) (l : List (List UInt8)) (o : ℕ × Staged) :
    copyAll area (src :: l) o = copyOr area src o >>= copyAll area l := List.foldlM_cons

theorem efiCopyvar_eq (ep : EnvVar) (o : ℕ × Staged) : efiCopyvar area ep o = copyAll area (varStrings ep) o := by
  cases hvalue : ep.evValue with
  | none => simp [efiCopyvar,varStrings,hvalue,copyAll]
  | some v => simp [efiCopyvar,varStrings,hvalue,copyAll]

theorem copyAll_sticky {l : List (List UInt8)} {o : ℕ × Staged} (h : (stateOf (copyAll area l o)).errno = 0) :
    o.2.errno = 0 := by
  induction l generalizing o with
  | nil => exact h
  | cons src l ih =>
    have hstate := @stateOf_copyOr area src o
    rw [copyAll_cons] at h
    have hcopy : (archCopyin area o.2 src o.1).1.errno = 0 := by
      rw [← hstate]
      cases hor : copyOr area src o with
      | error s =>
        rw [hor] at h
        exact h
      | ok p =>
        rw [hor] at h
        exact ih h
    exact (archCopyin_ok hcopy).2.1

theorem efiCopyvars_cons (ep : EnvVar) (environ : List EnvVar) (o : ℕ × Staged) : efiCopyvars area (ep :: environ) o =
    match copyAll area (varStrings ep) o with
    | .error s => (o.1,s)
    | .ok o => efiCopyvars area environ o := by
  rw [← efiCopyvar_eq]
  rfl

theorem efiCopyvars_sticky {environ : List EnvVar} {o : ℕ × Staged} (h : (efiCopyvars area environ o).2.errno = 0) :
    o.2.errno = 0 := by
  induction environ generalizing o with
  | nil => exact h
  | cons ep environ ih =>
    rw [efiCopyvars_cons] at h
    refine @copyAll_sticky area (varStrings ep) o ?_
    cases hcopy : copyAll area (varStrings ep) o with
    | error s =>
      rw [hcopy] at h
      exact h
    | ok p =>
      rw [hcopy] at h
      exact ih h

variable (hsmall : area.stagingEnd-area.staging < 2^32) (hhi : area.staging+hi < 2^64)
include hsmall hhi

/-- A copy whose refusal would be seen is not refused. -/
theorem copyOr_ok {o : ℕ × Staged} (hinv : Based area lo o.2) (hfirst : o.2.stage.stageOffsetSet = true ∨ o.1 = lo)
    (hlo : lo ≤ o.1) (hend : o.1+src.length ≤ hi) (h : (stateOf (copyOr area src o)).errno = 0) :
    copyOr area src o = .ok (put (efi area) 64 true (whole src) o) := by
  rw [stateOf_copyOr] at h
  exact if_pos ((efiLawful lo hsmall hhi).spec o.2 src o.1 hinv hfirst hlo hend h).taken

theorem copyAll_ok {l : List (List UInt8)} {o : ℕ × Staged} (hinv : Based area lo o.2)
    (hfirst : o.2.stage.stageOffsetSet = true ∨ o.1 = lo) (hlo : lo ≤ o.1) (hend : o.1+l.flatten.length ≤ hi)
    (h : (stateOf (copyAll area l o)).errno = 0) : copyAll area l o = .ok (puts (efi area) 64 true (l.map whole) o) := by
  induction l generalizing o with
  | nil => rfl
  | cons src l ih =>
    rw [List.flatten_cons,List.length_append] at hend
    rw [copyAll_cons] at h ⊢
    have hcopy : (stateOf (copyOr area src o)).errno = 0 := by
      cases hor : copyOr area src o with
      | error s =>
        rw [hor] at h
        exact h
      | ok p =>
        rw [hor] at h
        exact copyAll_sticky h
    have hok := copyOr_ok hsmall hhi hinv hfirst hlo (by omega) hcopy
    rw [hok] at h hcopy ⊢
    have hput := (efiLawful lo hsmall hhi).put_spec (w := 64) (p := whole src) (by omega) hinv hfirst hlo le_rfl
      (show o.1+src.length ≤ hi by omega) hcopy
    have haddr : (put (efi area) 64 true (whole src) o).1 = o.1+src.length := hput.addr
    exact ih hput.inv (.inl (hput.ready (.inl (List.cons_ne_nil _ _)))) (by omega) (by omega) h

theorem efiCopyvars_ok {environ : List EnvVar} {o : ℕ × Staged} (hinv : Based area lo o.2)
    (hfirst : o.2.stage.stageOffsetSet = true ∨ o.1 = lo) (hlo : lo ≤ o.1)
    (hend : o.1+(environ.flatMap varStrings).flatten.length ≤ hi) (h : (efiCopyvars area environ o).2.errno = 0) :
    efiCopyvars area environ o = puts (efi area) 64 true ((environ.flatMap varStrings).map whole) o := by
  induction environ generalizing o with
  | nil => rfl
  | cons ep environ ih =>
    rw [List.flatMap_cons,List.flatten_append,List.length_append] at hend
    rw [efiCopyvars_cons] at h ⊢
    have hcopy : (stateOf (copyAll area (varStrings ep) o)).errno = 0 := by
      cases hcopy : copyAll area (varStrings ep) o with
      | error s =>
        rw [hcopy] at h
        exact h
      | ok p =>
        rw [hcopy] at h
        exact efiCopyvars_sticky h
    have hok := copyAll_ok hsmall hhi hinv hfirst hlo (by omega) hcopy
    rw [hok] at h hcopy ⊢
    have hextent := extent_whole (varStrings ep)
    have hputs := (efiLawful lo hsmall hhi).puts_spec (w := 64) (by omega) hinv hfirst hlo (fits_whole (varStrings ep))
      (by omega) hcopy
    have haddr := hputs.addr
    rw [List.flatMap_cons,List.map_append,puts_append]
    exact ih hputs.inv (.inl (hputs.ready (.inl (List.cons_ne_nil _ _)))) (by omega) (by omega) h

/-- The environment is copied as the pc32 loader copies it. -/
theorem efiCopyenv_ok {environ : List EnvVar} {s : Staged} (hinv : Based area lo s)
    (hend : lo+(envStrings environ).flatten.length ≤ hi) (h : (efiCopyenv area environ (lo,s)).2.errno = 0) :
    efiCopyenv area environ (lo,s) = puts (efi area) 64 true ((envStrings environ).map whole) (lo,s) := by
  rw [envStrings,List.flatten_append,List.length_append] at hend
  have hlast : (stateOf (copyOr area [0] (efiCopyvars area environ (lo,s)))).errno = 0 := by
    rw [efiCopyenv] at h
    cases hcopy : copyOr area [0] (efiCopyvars area environ (lo,s)) with
    | error s =>
      simp only [hcopy] at h
      exact h
    | ok p =>
      simp only [hcopy] at h
      exact h
  have hvars : (efiCopyvars area environ (lo,s)).2.errno = 0 := by
    rw [stateOf_copyOr] at hlast
    exact (archCopyin_ok hlast).2.1
  have hvars_eq := efiCopyvars_ok hsmall hhi hinv (.inr rfl) le_rfl (by omega) hvars
  rw [hvars_eq] at hvars hlast
  have hextent := extent_whole (environ.flatMap varStrings)
  have hputs := (efiLawful lo hsmall hhi).puts_spec (w := 64) (o := (lo,s)) (by omega) hinv (.inr rfl) le_rfl
    (fits_whole (environ.flatMap varStrings)) (by dsimp only; omega) hvars
  have haddr := hputs.addr
  have hfirst : (puts (efi area) 64 true ((environ.flatMap varStrings).map whole) (lo,s)).2.stage.stageOffsetSet = true ∨
      (puts (efi area) 64 true ((environ.flatMap varStrings).map whole) (lo,s)).1 = lo := by
    cases hstrings : environ.flatMap varStrings with
    | nil => exact .inr rfl
    | cons src l =>
      rw [hstrings] at hputs
      exact .inl (hputs.ready (.inl (List.cons_ne_nil _ _)))
  have hone : ([[0]] : List (List UInt8)).flatten.length = ([0] : List UInt8).length := rfl
  have hok := copyOr_ok hsmall hhi hputs.inv hfirst (by omega) (by omega) hlast
  rw [efiCopyenv,envStrings,List.map_append,puts_append]
  simp only [hvars_eq,hok]
  rfl

end Efi

end Blub.Boot.HandOver
