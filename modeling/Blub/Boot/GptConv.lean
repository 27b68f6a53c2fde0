import Blub.Boot.GptCopy

/-! What `gptread` leaves in memory and on the drive: the conversion of `BOOTONCE` to `BOOTFAILED`
in the copies that are valid. -/
namespace Blub.Boot
open Blub.Bytes Blub.Gpt

section Attributes

/-- What the conversion makes of the attributes of one entry. -/
def convAttr (a : BitVec 64) : BitVec 64 := if onlyBootonce a then failBootonce a else a

theorem onlyBootonce_iff (a : BitVec 64) : onlyBootonce a = true ↔
    a.getLsbD 59 = false ∧ a.getLsbD 58 = true ∧ a.getLsbD 57 = false := by
  simp only [onlyBootonce,decide_eq_true_eq,attrBootme_eq,attrBootonce_eq,attrBootfailed_eq]
  constructor
  · intro h
    have hbit : ∀ k, (a &&& (BitVec.twoPow 64 59 ||| BitVec.twoPow 64 58 ||| BitVec.twoPow 64 57)).getLsbD k
        = (BitVec.twoPow 64 58).getLsbD k := fun k => by rw [h]
    have h₁ := hbit 59
    have h₂ := hbit 58
    have h₃ := hbit 57
    rw [BitVec.getLsbD_and,BitVec.getLsbD_or,BitVec.getLsbD_or,BitVec.getLsbD_twoPow,
      BitVec.getLsbD_twoPow,BitVec.getLsbD_twoPow] at h₁ h₂ h₃
    refine ⟨?_,?_,?_⟩
    · revert h₁
      cases a.getLsbD 59 <;> decide
    · revert h₂
      cases a.getLsbD 58 <;> decide
    · revert h₃
      cases a.getLsbD 57 <;> decide
  · rintro ⟨h₁,h₂,h₃⟩
    apply BitVec.eq_of_getLsbD_eq
    intro k hk
    rw [BitVec.getLsbD_and,BitVec.getLsbD_or,BitVec.getLsbD_or,BitVec.getLsbD_twoPow,
      BitVec.getLsbD_twoPow,BitVec.getLsbD_twoPow]
    by_cases h59 : k = 59
    · subst h59
      rw [h₁]
      decide
    · by_cases h58 : k = 58
      · subst h58
        rw [h₂]
        decide
      · by_cases h57 : k = 57
        · subst h57
          rw [h₃]
          decide
        · simp [Ne.symm h59,Ne.symm h58,Ne.symm h57]

/-- Converting takes the `BOOTONCE` flag away, so it changes what it applies to. -/
theorem convAttr_ne {a : BitVec 64} (h : onlyBootonce a = true) : convAttr a ≠ a := by
  intro he
  have hb := (onlyBootonce_iff a).mp h
  have hf : (failBootonce a).getLsbD 58 = false := by
    rw [getLsbD_failBootonce]
    simp
  rw [convAttr,if_pos h] at he
  rw [he,hb.2.1] at hf
  cases hf

theorem withAttr_outside {f : BitVec 64 → BitVec 64} {t : ℕ → UInt8} {i j : ℕ}
    (h : j < i*entStructSize+48 ∨ i*entStructSize+56 ≤ j) : withAttr f t i j = t j :=
  setEntAttr_outside h

theorem withAttr_same {f : BitVec 64 → BitVec 64} {t : ℕ → UInt8} {i : ℕ}
    (h : f (entAttr t (i*entStructSize)) = entAttr t (i*entStructSize)) : withAttr f t i = t := by
  have hv : leGet t (i*entStructSize+48) 8 < 2^64 := by
    have := leGet_lt t (i*entStructSize+48) 8
    norm_num at this ⊢
    exact this
  rw [withAttr,h,setEntAttr,entAttr,BitVec.toNat_ofNat,Nat.mod_eq_of_lt hv,lePut_leGet]

theorem convEntry_eq (t : ℕ → UInt8) (u : Bool) (i : ℕ) : convEntry (t,u) i =
    (withAttr convAttr t i,u || onlyBootonce (entAttr t (i*entStructSize))) := by
  simp only [convEntry]
  cases h : onlyBootonce (entAttr t (i*entStructSize)) with
  | true => simp [withAttr,convAttr,h]
  | false =>
    rw [withAttr_same (by simp [convAttr,h])]
    simp

/-- Entries `a` to `a+c` converted. -/
def convRange (t : ℕ → UInt8) (a c : ℕ) : ℕ → UInt8 :=
  (List.range c).foldl (fun t i => withAttr convAttr t (a+i)) t

theorem convRange_succ (t : ℕ → UInt8) (a c : ℕ) :
    convRange t a (c+1) = withAttr convAttr (convRange t a c) (a+c) := by
  simp [convRange,List.range_succ]

theorem convRange_append (t : ℕ → UInt8) (a c c' : ℕ) :
    convRange (convRange t a c) (a+c) c' = convRange t a (c+c') := by
  induction c' with
  | zero => rfl
  | succ c' ih => rw [convRange_succ,ih,← Nat.add_assoc,convRange_succ,Nat.add_assoc]

theorem entAttr_convRange (t : ℕ → UInt8) (a c i : ℕ) : entAttr (convRange t a c) (i*entStructSize) =
    if a ≤ i ∧ i < a+c then convAttr (entAttr t (i*entStructSize)) else entAttr t (i*entStructSize) := by
  induction c with
  | zero =>
    rw [if_neg (by omega)]
    rfl
  | succ c ih =>
    rw [convRange_succ,entAttr_withAttr]
    by_cases h : i = a+c
    · subst h
      rw [if_pos rfl,if_pos (by omega)]
      rw [if_neg (by omega)] at ih
      rw [ih]
    · rw [if_neg h,ih]
      congr 1
      simp only [eq_iff_iff]
      omega

theorem convRange_other {t : ℕ → UInt8} {a c j : ℕ}
    (h : ∀ i, a ≤ i → i < a+c → j < i*entStructSize+48 ∨ i*entStructSize+56 ≤ j) :
    convRange t a c j = t j := by
  induction c with
  | zero => rfl
  | succ c ih =>
    rw [convRange_succ,withAttr_outside (h (a+c) (by omega) (by omega))]
    exact ih fun i h₁ h₂ => h i h₁ (by omega)

/-- The conversion is in the highest byte of the attributes. -/
theorem convAttr_mod (a : BitVec 64) : (convAttr a).toNat%2^56 = a.toNat%2^56 := by
  have hbits : (convAttr a).setWidth 56 = a.setWidth 56 := by
    apply BitVec.eq_of_getLsbD_eq
    intro k hk
    rw [BitVec.getLsbD_setWidth,BitVec.getLsbD_setWidth,convAttr]
    split_ifs
    · rw [getLsbD_failBootonce]
      simp [show ¬k = 58 by omega,show ¬k = 57 by omega]
    · rfl
  simpa using congrArg BitVec.toNat hbits

theorem withAttr_convAttr_byte (t : ℕ → UInt8) {i j : ℕ} (h : j ≠ i*entStructSize+55) : withAttr convAttr t i j = t j := by
  by_cases hin : i*entStructSize+48 ≤ j ∧ j < i*entStructSize+56
  · obtain ⟨k,hk,rfl⟩ : ∃ k, k < 7 ∧ j = i*entStructSize+48+k := ⟨j-(i*entStructSize+48),by omega,by omega⟩
    have hlt : leGet t (i*entStructSize+48) 8 < 2^64 := (leGet_lt t (i*entStructSize+48) 8).trans_le (by norm_num)
    have hattr : (entAttr t (i*entStructSize)).toNat = leGet t (i*entStructSize+48) 8 := by
      rw [entAttr,BitVec.toNat_ofNat,Nat.mod_eq_of_lt hlt]
    -- a byte below the highest one is the same in both numbers
    have hbyte : ∀ v : ℕ, v/256^k%256 = v%2^56%256^(k+1)/256^k := by
      intro v
      rw [Nat.mod_mod_of_dvd v ((show (256 : ℕ)^7 = 2^56 by norm_num) ▸ Nat.pow_dvd_pow 256 (by omega)),pow_succ,
        Nat.mod_mul_right_div_self]
    rw [withAttr,setEntAttr,lePut,blit_inside hin.1 (by omega),Nat.add_sub_cancel_left,
      ← ofNat_leGet_div t (i*entStructSize+48) 8 k (by omega),← hattr]
    apply UInt8.toNat_inj.mp
    rw [UInt8.toNat_ofNat',UInt8.toNat_ofNat',show 2^8 = 256 by norm_num,hbyte,hbyte,convAttr_mod]
  · exact withAttr_outside (by omega)

/-- A byte that is not the highest one of attributes to be converted stays as it is. -/
theorem convRange_byte {t : ℕ → UInt8} {a c i j : ℕ} (hj : j < entStructSize)
    (h : j ≠ 55 ∨ onlyBootonce (entAttr t (i*entStructSize)) = false) :
    convRange t a c (i*entStructSize+j) = t (i*entStructSize+j) := by
  induction c with
  | zero => rfl
  | succ c ih =>
    rw [convRange_succ]
    by_cases hi : a+c = i
    · subst hi
      obtain hj55 | hnone := h
      · rwa [withAttr_convAttr_byte _ (by omega)]
      · rwa [withAttr_same]
        rw [entAttr_convRange,if_neg (by omega),convAttr,hnone,if_neg (by decide)]
    · rwa [withAttr_outside]
      simp only [entStructSize] at hj ⊢
      omega

/-- Whether one of the entries `a` to `a+c` is to be converted. -/
def anyOnce (t : ℕ → UInt8) (a c : ℕ) : Bool :=
  (List.range c).any fun i => onlyBootonce (entAttr t ((a+i)*entStructSize))

theorem anyOnce_iff {t : ℕ → UInt8} {a c : ℕ} : anyOnce t a c = true ↔
    ∃ i, a ≤ i ∧ i < a+c ∧ onlyBootonce (entAttr t (i*entStructSize)) = true := by
  simp only [anyOnce,List.any_eq_true,List.mem_range]
  constructor
  · rintro ⟨i,hi,ho⟩
    exact ⟨a+i,by omega,by omega,ho⟩
  · rintro ⟨i,h₁,h₂,ho⟩
    exact ⟨i-a,by omega,by rwa [show a+(i-a) = i by omega]⟩

theorem convRange_of_none {t : ℕ → UInt8} {a c : ℕ} (h : anyOnce t a c = false) :
    convRange t a c = t := by
  induction c with
  | zero => rfl
  | succ c ih =>
    have hno : ∀ i, a ≤ i → i < a+(c+1) → onlyBootonce (entAttr t (i*entStructSize)) = false := by
      intro i h₁ h₂
      by_contra ho
      rw [Bool.not_eq_false] at ho
      rw [anyOnce_iff.mpr ⟨i,h₁,h₂,ho⟩] at h
      cases h
    have hprev : anyOnce t a c = false := by
      by_contra ho
      rw [Bool.not_eq_false,anyOnce_iff] at ho
      obtain ⟨i,h₁,h₂,ho⟩ := ho
      rw [hno i h₁ (by omega)] at ho
      cases ho
    rw [convRange_succ,ih hprev,withAttr_same]
    simp [convAttr,hno (a+c) (by omega) (by omega)]

/-- The inner loop of `gptbootconv`. -/
theorem convEntries_eq (t : ℕ → UInt8) (u : Bool) (a c : ℕ) :
    (List.range c).foldl (fun r part => convEntry r (a+part)) (t,u) =
      (convRange t a c,u || anyOnce t a c) := by
  induction c with
  | zero => simp [convRange,anyOnce]
  | succ c ih =>
    have hlast : entAttr (convRange t a c) ((a+c)*entStructSize) = entAttr t ((a+c)*entStructSize) := by
      rw [entAttr_convRange,if_neg (by omega)]
    rw [List.range_succ,List.foldl_append,ih]
    simp only [List.foldl_cons,List.foldl_nil,convEntry_eq,hlast,convRange_succ]
    simp [anyOnce,List.range_succ,Bool.or_assoc]

theorem withAttr_congr {f : BitVec 64 → BitVec 64} {t u : ℕ → UInt8} {i n : ℕ} (hi : i < n)
    (h : ∀ j < n*entStructSize, u j = t j) : ∀ j < n*entStructSize, withAttr f u i j = withAttr f t i j := by
  intro j hj
  have hattr : entAttr u (i*entStructSize) = entAttr t (i*entStructSize) := by
    apply entAttr_congr
    intro b h₁ h₂
    apply h
    simp only [entStructSize] at h₁ h₂ ⊢
    omega
  by_cases hin : i*entStructSize+48 ≤ j ∧ j < i*entStructSize+56
  · simp only [withAttr,hattr,setEntAttr,lePut]
    rw [blit_inside hin.1 (by omega),blit_inside hin.1 (by omega)]
  · rw [withAttr_outside (by omega),withAttr_outside (by omega)]
    exact h j hj

theorem convRange_congr {t u : ℕ → UInt8} {n : ℕ} (a c : ℕ) (hac : a+c ≤ n)
    (h : ∀ j < n*entStructSize, u j = t j) : ∀ j < n*entStructSize, convRange u a c j = convRange t a c j := by
  induction c with
  | zero => exact h
  | succ c ih =>
    rw [convRange_succ,convRange_succ]
    exact withAttr_congr (by omega) (ih (by omega))

end Attributes

section Sectors

variable {t : ℕ → UInt8} {i : ℕ}

theorem entAttr_shift (t : ℕ → UInt8) (a o : ℕ) : entAttr (fun j => t (a+j)) o = entAttr t (a+o) := by
  rw [entAttr,entAttr]
  exact congrArg _ (leGet_shift fun j _ => congrArg t (by omega))

theorem withAttr_shift (f : BitVec 64 → BitVec 64) (t : ℕ → UInt8) (i q j : ℕ) :
    withAttr f t (4*i+q) (512*i+j) = withAttr f (fun j => t (512*i+j)) q j := by
  have hplace : (4*i+q)*entStructSize = 512*i+q*entStructSize := by
    simp only [entStructSize]
    omega
  rw [withAttr,withAttr,entAttr_shift,hplace,setEntAttr,setEntAttr,lePut,lePut]
  by_cases hin : q*entStructSize+48 ≤ j ∧ j < q*entStructSize+56
  · rw [blit_inside (by omega) (by omega),blit_inside hin.1 hin.2,
      show 512*i+j-(512*i+q*entStructSize+48) = j-(q*entStructSize+48) by omega]
  · rw [blit_outside (by omega),blit_outside (by omega)]

/-- The conversion of a whole sector of a table. -/
def convSector (sec : ℕ → UInt8) : ℕ → UInt8 := convRange sec 0 4

def sectorOnce (sec : ℕ → UInt8) : Bool := anyOnce sec 0 4

theorem convSector_of_none (h : sectorOnce t = false) : convSector t = t := convRange_of_none h

theorem sectorOnce_table (t : ℕ → UInt8) (i : ℕ) : anyOnce t (4*i) 4 = sectorOnce (fun j => t (512*i+j)) := by
  have hplace : ∀ q, (4*i+q)*entStructSize = 512*i+q*entStructSize := by
    intro q
    simp only [entStructSize]
    omega
  simp only [sectorOnce,anyOnce,Nat.zero_add,entAttr_shift,hplace]

theorem convRange_shift (t : ℕ → UInt8) (i c j : ℕ) :
    convRange t (4*i) c (512*i+j) = convRange (fun j => t (512*i+j)) 0 c j := by
  induction c generalizing j with
  | zero => rfl
  | succ c ih =>
    rw [convRange_succ,convRange_succ,withAttr_shift,Nat.zero_add]
    exact congrArg (fun u => withAttr convAttr u c j) (funext ih)

theorem convSector_table (t : ℕ → UInt8) (i j : ℕ) :
    convRange t (4*i) 4 (512*i+j) = convSector (fun j => t (512*i+j)) j := convRange_shift t i 4 j

/-- Of the sectors that are converted each one is. -/
theorem convRange_sector (t : ℕ → UInt8) {m c : ℕ} (hm : m ≤ i) (hi : i < m+c) {j : ℕ} (hj : j < 512) :
    convRange t (4*m) (4*c) (512*i+j) = convSector (fun j => t (512*i+j)) j := by
  have hsplit : convRange t (4*m) (4*c) =
      convRange (convRange (convRange t (4*m) (4*(i-m))) (4*i) 4) (4*i+4) (4*(m+c-i-1)) := by
    have h₁ := convRange_append t (4*m) (4*(i-m)) 4
    have h₂ := convRange_append t (4*m) (4*(i-m)+4) (4*(m+c-i-1))
    rw [show 4*m+4*(i-m) = 4*i by omega] at h₁
    rw [show 4*m+(4*(i-m)+4) = 4*i+4 by omega,show 4*(i-m)+4+4*(m+c-i-1) = 4*c by omega] at h₂
    rw [h₁,h₂]
  rw [hsplit,convRange_other (by intro i' _ _; simp only [entStructSize]; omega),convSector_table]
  apply convRange_congr 0 4 le_rfl _ j hj
  intro j hj
  apply convRange_other
  intro i' _ _
  simp only [entStructSize] at hj ⊢
  omega

/-- Sector `x` after the sector loop: written, with the conversion of the sector of the table, or left alone. -/
def SectorLeft (lba m k : ℕ) (t : ℕ → UInt8) (d d' : Drive) (x : ℕ) : Prop :=
  (∃ i, m ≤ i ∧ i < m+k ∧ x = lba+i ∧ ∀ j < 512, d'.from x j = convSector (fun j => t (512*i+j)) j) ∨
    (∀ i, m ≤ i → i < m+k → x = lba+i → sectorOnce (fun j => t (512*i+j)) = false) ∧ d.SameAt d' x

theorem convLoop_writes (lba k m : ℕ) (t : ℕ → UInt8) (u : Bool) (d : Drive) (hw : d.AllWritable)
    (hin : lba+m+k ≤ d.sectors) (hm : m+k ≤ 32) :
    ∃ d', convLoop 4 k (lba+m) (4*m) t u d =
        some (convRange t (4*m) (4*k),u || anyOnce t (4*m) (4*k),d') ∧ d.Like d' ∧
      (∀ x, SectorLeft lba m k t d d' x) ∧ (anyOnce t (4*m) (4*k) = false → d' = d) := by
  induction k generalizing m t u d with
  | zero =>
    refine ⟨d,by simp [convLoop,convRange,anyOnce],Drive.Like.refl d,fun x => .inr ⟨?_,fun _ _ => rfl⟩,fun _ => rfl⟩
    intro i h₁ h₂
    omega
  | succ k ih =>
    have hfits := d.fits
    -- the sector in hand
    obtain ⟨t₁,ht₁⟩ : ∃ t₁, convRange t (4*m) 4 = t₁ := ⟨_,rfl⟩
    have hrest : ∀ i, m+1 ≤ i → (fun j => t₁ (512*i+j)) = fun j => t (512*i+j) := by
      intro i hi
      funext j
      rw [← ht₁]
      apply convRange_other
      intro i' h₁ h₂
      simp only [entStructSize]
      omega
    have hall : convRange t (4*m) (4*(k+1)) = convRange t₁ (4*(m+1)) (4*k) := by
      rw [← ht₁,show 4*(m+1) = 4*m+4 by omega,convRange_append,show 4+4*k = 4*(k+1) by omega]
    have hany : anyOnce t (4*m) (4*(k+1)) = (anyOnce t (4*m) 4 || anyOnce t₁ (4*(m+1)) (4*k)) := by
      rw [Bool.eq_iff_iff,Bool.or_eq_true,anyOnce_iff,anyOnce_iff,anyOnce_iff]
      have hsame : ∀ i, 4*(m+1) ≤ i → entAttr t₁ (i*entStructSize) = entAttr t (i*entStructSize) := by
        intro i hi
        rw [← ht₁,entAttr_convRange,if_neg (by omega)]
      constructor
      · rintro ⟨i,h₁,h₂,ho⟩
        by_cases hi : i < 4*m+4
        · exact Or.inl ⟨i,h₁,hi,ho⟩
        · exact Or.inr ⟨i,by omega,by omega,by rwa [hsame i (by omega)]⟩
      · rintro (⟨i,h₁,h₂,ho⟩ | ⟨i,h₁,h₂,ho⟩)
        · exact ⟨i,h₁,by omega,ho⟩
        · exact ⟨i,by omega,by omega,by rwa [← hsame i h₁]⟩
    -- the sectors behind it, on a drive `d₁` that has the first one written or left alone
    have hlater : ∀ {d₁ d' : Drive}, SectorLeft lba m 1 t d d₁ (lba+m) → (∀ x, x ≠ lba+m → d.SameAt d₁ x) →
        (∀ x, SectorLeft lba (m+1) k t₁ d₁ d' x) → ∀ x, SectorLeft lba m (k+1) t d d' x := by
      intro d₁ d' hfirst hother hleft x
      obtain ⟨i,h₁,h₂,hx,hsec⟩ | ⟨hnone,hsame⟩ := hleft x
      · rw [hrest i h₁] at hsec
        exact .inl ⟨i,by omega,by omega,hx,hsec⟩
      · by_cases hx : x = lba+m
        · subst hx
          obtain ⟨i,h₁,h₂,hx,hsec⟩ | ⟨hnone₁,hsame₁⟩ := hfirst
          · refine .inl ⟨i,h₁,by omega,hx,fun j hj => ?_⟩
            rw [d₁.sameAt_from hsame j hj]
            exact hsec j hj
          · refine .inr ⟨fun i h₁ h₂ hx => hnone₁ i h₁ (by omega) hx,hsame₁.trans hsame⟩
        · refine .inr ⟨fun i h₁ h₂ hxi => ?_,(hother x hx).trans hsame⟩
          rw [← hrest i (by omega)]
          exact hnone i (by omega) (by omega) hxi
    rw [hall,hany]
    unfold convLoop
    simp only [convEntries_eq,Bool.false_or,ht₁,show (lba+m+1)%2^64 = lba+(m+1) by omega,
      show 4*m+4 = 4*(m+1) by omega]
    cases ha : anyOnce t (4*m) 4 with
    | false =>
      rw [if_neg (by simp)]
      obtain ⟨d',hc,hl,hleft,hd⟩ := ih (m+1) t₁ u d hw (by omega) (by omega)
      refine ⟨d',by simpa using hc,hl,hlater (.inr ⟨fun i h₁ h₂ _ => ?_,fun _ _ => rfl⟩) (fun _ _ _ _ => rfl) hleft,
        by simpa using hd⟩
      obtain rfl : i = m := by omega
      rw [← sectorOnce_table,ha]
    | true =>
      rw [if_pos rfl,if_neg (by simp only [tableBytes,maxTblents,entStructSize,devBsize]; omega),
        Drive.drvwrite_of_lt hw (by omega)]
      obtain ⟨d',hc,hl,hleft,-⟩ := ih (m+1) t₁ true (d.put (lba+m) fun j => t₁ (4*m*entStructSize+j))
        ((d.like_put _ _).allWritable hw) (by rw [(d.like_put _ _).sectors]; omega) (by omega)
      refine ⟨d',by simpa using hc,(d.like_put _ _).trans hl,
        hlater (.inl ⟨m,le_rfl,by omega,rfl,fun j hj => ?_⟩) (fun x hx => d.sameAt_put _ hx) hleft,by simp⟩
      rw [d.from_put _ _ j hj,← ht₁,← convSector_table]
      congr 1
      simp only [entStructSize]
      omega

theorem convLoop_table {k lba nent : ℕ} {t t' : ℕ → UInt8} {u u' : Bool} {d d' : Drive}
    (h : convLoop 4 k lba nent t u d = some (t',u',d')) : t' = convRange t nent (4*k) := by
  induction k generalizing lba nent t u d with
  | zero =>
    simp only [convLoop,Option.some.injEq,Prod.mk.injEq] at h
    exact h.1.symm
  | succ k ih =>
    unfold convLoop at h
    simp only [convEntries_eq] at h
    have hall : convRange (convRange t nent 4) (nent+4) (4*k) = convRange t nent (4*(k+1)) := by
      rw [convRange_append,show 4+4*k = 4*(k+1) by omega]
    split_ifs at h
    · rw [← hall]
      exact ih h
    · rw [← hall]
      exact ih h

end Sectors

section Bootconv
variable {d d' : Drive} {k k' : Copy}

theorem daddrT_of_lt {n : ℕ} (h : n < 2^63) : daddrT n = n := by
  have h64 : ((2^64 : ℕ) : ℤ) = 2^64 := by norm_num
  apply Int.bmod_eq_of_le_mul_two
  · rw [h64]
    omega
  · rw [h64]
    omega

theorem gptbootconv_eq (hu : k.Usable) (hT : hdrLbaTable k.hdr < 2^55) : gptbootconv k d =
    (convLoop 4 (hdrEntries k.hdr/4) (hdrLbaTable k.hdr) 0 k.table false d).bind (fun r =>
      if r.2.1 then rewriteHdr {k with table := r.1} r.2.2 else some ({k with table := r.1},r.2.2)) := by
  have hn := hu.entries
  simp only [maxTblents] at hn
  have hper : devBsize/hdrEntsz k.hdr = 4 := by rw [hu.entsz]; rfl
  have hsec : (daddrT (hdrLbaTable k.hdr+hdrEntries k.hdr/4)-daddrT (hdrLbaTable k.hdr)).toNat =
      hdrEntries k.hdr/4 := by
    rw [daddrT_of_lt (by omega),daddrT_of_lt (by omega)]
    omega
  simp only [gptbootconv,hper,hsec]
  rfl

/-- The entries of the sectors that `gptbootconv` goes through. -/
def Copy.converted (k : Copy) : ℕ := 4*(hdrEntries k.hdr/4)

/-- Whether `gptbootconv` writes to the copy. -/
def Copy.converts (k : Copy) : Prop := anyOnce k.table 0 k.converted = true

theorem gptbootconv_table (hu : k.Usable) (hT : hdrLbaTable k.hdr < 2^55)
    (h : gptbootconv k d = some (k',d')) : k'.table = convRange k.table 0 k.converted := by
  rw [gptbootconv_eq hu hT] at h
  obtain ⟨⟨t,u,d₁⟩,hc,h⟩ := Option.bind_eq_some_iff.mp h
  have ht := convLoop_table hc
  dsimp only at h
  split_ifs at h
  · rw [(rewriteHdr_mem h).1]
    exact ht
  · cases h
    exact ht

/-- The sectors of the copy. -/
def Copy.area (k : Copy) (x : ℕ) : Prop :=
  x = k.lba ∨ hdrLbaTable k.hdr ≤ x ∧ 4*(x-hdrLbaTable k.hdr) < hdrEntries k.hdr

/-- The header is not in the table. -/
def Copy.Split (k : Copy) : Prop := ∀ i, 4*i < hdrEntries k.hdr → hdrLbaTable k.hdr+i ≠ k.lba

theorem Loaded.lbaTable_lt (h : Loaded d k) : hdrLbaTable k.hdr < 2^55 := by
  have hlt := (h.valid.tableReadable 0 le_rfl (by have := h.valid.entries; omega)).lt
  rwa [Nat.add_zero,← h.lbaTable] at hlt

/-- The sectors of the table that `gptbootconv` goes through. -/
def Copy.Whole (k : Copy) (x : ℕ) : Prop := hdrLbaTable k.hdr ≤ x ∧ x < hdrLbaTable k.hdr+hdrEntries k.hdr/4

/-- Sector `x` after the conversion of tables of `d₀`, with `whole` for a sector that a conversion goes through: written,
with the conversion of what `d₀` has there, or left alone. -/
def TableLeft (d₀ : Drive) (whole : Prop) (d d' : Drive) (x : ℕ) : Prop :=
  (whole ∧ ∀ j < 512, d'.from x j = convSector (d₀.from x) j) ∨
    (whole → sectorOnce (d₀.from x) = false) ∧ d.SameAt d' x

/-- One conversion after the other: what both write is the same. -/
theorem TableLeft.trans {d₀ d₁ d₂ : Drive} {whole whole' : Prop} {x : ℕ} (h : TableLeft d₀ whole d₀ d₁ x)
    (h' : TableLeft d₀ whole' d₁ d₂ x) : TableLeft d₀ (whole ∨ whole') d₀ d₂ x := by
  obtain ⟨hw,hsec⟩ | ⟨hnone',hs'⟩ := h'
  · exact .inl ⟨.inr hw,hsec⟩
  · obtain ⟨hw,hsec⟩ | ⟨hnone,hs⟩ := h
    · exact .inl ⟨.inl hw,fun j hj => (d₁.sameAt_from hs' j hj).trans (hsec j hj)⟩
    · exact .inr ⟨fun hw => hw.elim hnone hnone',hs.trans hs'⟩

theorem Loaded.sector (h : Loaded d k) {i j : ℕ} (hj : 512*i+j < hdrEntries k.hdr*128) :
    k.table (512*i+j) = d.from (hdrLbaTable k.hdr+i) j := by
  rw [h.table _ (by rw [← h.entries]; exact hj),Drive.tableAt,← h.lbaTable,Drive.from_eq,Drive.from_eq]
  exact congrArg d.byte (by omega)

theorem sectorOnce_congr {t u : ℕ → UInt8} (h : ∀ j < 512, t j = u j) : sectorOnce t = sectorOnce u := by
  have hattr : ∀ i, 0 ≤ i → i < 0+4 → entAttr t (i*entStructSize) = entAttr u (i*entStructSize) := by
    intro i _ hi
    apply entAttr_congr
    intro j h₁ h₂
    apply h
    simp only [entStructSize] at h₂
    omega
  rw [sectorOnce,sectorOnce,Bool.eq_iff_iff,anyOnce_iff,anyOnce_iff]
  constructor
  · rintro ⟨i,h₁,h₂,ho⟩
    exact ⟨i,h₁,h₂,by rwa [← hattr i h₁ h₂]⟩
  · rintro ⟨i,h₁,h₂,ho⟩
    exact ⟨i,h₁,h₂,by rwa [hattr i h₁ h₂]⟩

theorem convSector_congr {t u : ℕ → UInt8} (h : ∀ j < 512, t j = u j) : ∀ j < 512, convSector t j = convSector u j :=
  convRange_congr 0 4 le_rfl h

/-- What `gptbootconv` does with a copy of `d₀` that memory holds, on a drive that may have been changed since. -/
theorem gptbootconv_writes {d₀ : Drive} (h : Loaded d₀ k) (hl : d₀.Like d) (hw : d.AllWritable) : ∃ k' d',
    gptbootconv k d = some (k',d') ∧ k'.lba = k.lba ∧ k'.table = convRange k.table 0 k.converted ∧ d.Like d' ∧
      (¬ k.converts → k' = k ∧ d' = d) ∧
      (k.converts → k'.hdr = sealHdr k.hdr (crc32 k'.table (hdrEntries k.hdr*128)) ∧
        ∀ j < 512, d'.from k.lba j = cutHdr k'.hdr j) ∧
      ∀ x, (k.converts → x ≠ k.lba) → TableLeft d₀ (k.Whole x) d d' x := by
  have hn := h.usable.entries
  simp only [maxTblents] at hn
  have hread : ∀ i, 4*i < hdrEntries k.hdr → hdrLbaTable k.hdr+i < d.sectors := by
    intro i hi
    rw [h.entries] at hi
    rw [h.lbaTable,hl.sectors]
    exact (h.valid.tableReadable i (by omega) hi).1
  have hin : hdrLbaTable k.hdr+0+hdrEntries k.hdr/4 ≤ d.sectors := by
    by_cases h₀ : hdrEntries k.hdr/4 = 0
    · have := hread 0 (by have := h.valid.entries; rw [h.entries]; omega)
      omega
    · have := hread (hdrEntries k.hdr/4-1) (by omega)
      omega
  obtain ⟨d₁,hc,hl₁,hleft,hsame⟩ := convLoop_writes (hdrLbaTable k.hdr) (hdrEntries k.hdr/4) 0 k.table false d hw hin
    (by omega)
  simp only [Nat.mul_zero,Nat.add_zero,Bool.false_or] at hc hsame
  have htable : ∀ x, TableLeft d₀ (k.Whole x) d d₁ x := by
    intro x
    have hsector : ∀ i, i < hdrEntries k.hdr/4 → x = hdrLbaTable k.hdr+i →
        ∀ j < 512, k.table (512*i+j) = d₀.from x j := by
      rintro i hi rfl j hj
      exact h.sector (by omega)
    obtain ⟨i,-,hi,hx,hsec⟩ | ⟨hnone,hs⟩ := hleft x
    · refine .inl ⟨⟨by omega,by omega⟩,fun j hj => ?_⟩
      rw [hsec j hj]
      exact convSector_congr (hsector i (by omega) hx) j hj
    · refine .inr ⟨fun hwhole => ?_,hs⟩
      obtain ⟨h₁,h₂⟩ := hwhole
      have hx : x = hdrLbaTable k.hdr+(x-hdrLbaTable k.hdr) := by omega
      rw [← hnone _ (Nat.zero_le _) (by omega) hx]
      exact sectorOnce_congr fun j hj => (hsector _ (by omega) hx j hj).symm
  rw [gptbootconv_eq h.usable h.lbaTable_lt,hc]
  simp only [Option.bind_some]
  by_cases hconv : k.converts
  · have hk : ({k with table := convRange k.table 0 k.converted} : Copy).Usable := ⟨hn,h.usable.size,h.usable.entsz⟩
    have hlba : hdrLbaSelf k.hdr = k.lba := h.hdrOk.accepted.2.1
    have hwr := Drive.drvwrite_of_lt (hl₁.allWritable hw) (show k.lba < d₁.sectors by
      rw [hl₁.sectors,hl.sectors]
      exact h.valid.readable.1)
    have hseal : ∀ v, hdrSize (sealHdr k.hdr v) = hdrSize k.hdr := fun v => (sameFields_sealHdr _ _).size
    refine ⟨⟨sealHdr k.hdr (crc32 (convRange k.table 0 k.converted) (hdrEntries k.hdr*128)),
      convRange k.table 0 k.converted,k.lba⟩,d₁.put k.lba (cutHdr (sealHdr k.hdr
        (crc32 (convRange k.table 0 k.converted) (hdrEntries k.hdr*128)))),?_,rfl,rfl,
      hl₁.trans (d₁.like_put _ _),fun hno => absurd hconv hno,fun _ => ⟨rfl,d₁.from_put _ _⟩,fun x hx => ?_⟩
    · rw [Copy.converts,Copy.converted] at hconv
      rw [if_pos hconv]
      rw [Copy.converted] at hk
      rw [rewriteHdr_eq hk]
      simp only [hlba,hwr,Option.getD_some,cutHdr,hseal,Copy.converted]
    · have hput := d₁.sameAt_put (cutHdr (sealHdr k.hdr (crc32 (convRange k.table 0 k.converted)
        (hdrEntries k.hdr*128)))) (hx hconv)
      obtain ⟨hwhole,hsec⟩ | ⟨hnone,hs⟩ := htable x
      · exact .inl ⟨hwhole,fun j hj => (d₁.sameAt_from hput j hj).trans (hsec j hj)⟩
      · exact .inr ⟨hnone,hs.trans hput⟩
  · have hno : anyOnce k.table 0 k.converted = false := by
      rw [Copy.converts,Bool.not_eq_true] at hconv
      exact hconv
    have hnone := convRange_of_none hno
    refine ⟨k,d,?_,rfl,hnone.symm,Drive.Like.refl d,fun _ => ⟨rfl,rfl⟩,fun hyes => absurd hyes hconv,fun x _ => ?_⟩
    · rw [Copy.converted] at hno hnone
      rw [if_neg (by rw [hno]; decide),hnone,hsame hno]
    · have hd := htable x
      rwa [hsame hno] at hd

/-- The bytes of a table that was converted in memory, in a sector that is written or left alone. Where only another
conversion goes through the sector, it is to have nothing to convert in this table. -/
theorem TableLeft.table (h : Loaded d k) {i : ℕ} {whole : Prop}
    (hleft : TableLeft d whole d d' (hdrLbaTable k.hdr+i)) (hwhole : k.Whole (hdrLbaTable k.hdr+i) → whole)
    (hrest : whole → ¬k.Whole (hdrLbaTable k.hdr+i) → ∀ j < 512, 512*i+j < hdrEntries k.hdr*128 →
      convSector (d.from (hdrLbaTable k.hdr+i)) j = d.from (hdrLbaTable k.hdr+i) j) :
    ∀ j < 512, 512*i+j < hdrEntries k.hdr*128 →
      d'.from (hdrLbaTable k.hdr+i) j = convRange k.table 0 k.converted (512*i+j) := by
  intro j hj hin
  by_cases hi : i < hdrEntries k.hdr/4
  · have hconv := @convRange_sector i k.table 0 (hdrEntries k.hdr/4) (Nat.zero_le i) (by omega) j hj
    rw [Nat.mul_zero] at hconv
    rw [Copy.converted,hconv,convSector_congr (fun j hj => h.sector (by omega)) j hj]
    obtain ⟨-,hsec⟩ | ⟨hnone,hs⟩ := hleft
    · exact hsec j hj
    · rw [convSector_of_none (hnone (hwhole ⟨by omega,by omega⟩))]
      exact d.sameAt_from hs j hj
  · have hnot : ¬k.Whole (hdrLbaTable k.hdr+i) := fun hw => by have := hw.2; omega
    have hkeep : convRange k.table 0 k.converted (512*i+j) = k.table (512*i+j) := by
      apply convRange_other
      intro i' _ _
      simp only [Copy.converted,entStructSize] at *
      omega
    rw [hkeep,h.sector hin]
    obtain ⟨hw,hsec⟩ | ⟨-,hs⟩ := hleft
    · rw [hsec j hj]
      exact hrest hw hnot j hj hin
    · exact d.sameAt_from hs j hj

/-- So much for all sectors of the table. -/
theorem table_of_left (h : Loaded d k) {whole : ℕ → Prop}
    (hleft : ∀ i, 4*i < hdrEntries k.hdr → TableLeft d (whole (hdrLbaTable k.hdr+i)) d d' (hdrLbaTable k.hdr+i))
    (hwhole : ∀ x, k.Whole x → whole x)
    (hrest : ∀ i, whole (hdrLbaTable k.hdr+i) → ¬k.Whole (hdrLbaTable k.hdr+i) → ∀ j < 512,
      512*i+j < hdrEntries k.hdr*128 →
        convSector (d.from (hdrLbaTable k.hdr+i)) j = d.from (hdrLbaTable k.hdr+i) j) :
    ∀ j < hdrEntries k.hdr*128, d'.from (hdrLbaTable k.hdr) j = convRange k.table 0 k.converted j := by
  intro j hj
  have hi : 4*(j/512) < hdrEntries k.hdr := by omega
  have hplace : 512*(j/512)+j%512 = j := Nat.div_add_mod j 512
  have hsector := (hleft _ hi).table h (hwhole _) (hrest _) (j%512) (Nat.mod_lt _ (by decide)) (by omega)
  rw [hplace] at hsector
  rw [← hsector,Drive.from_eq,Drive.from_eq,show 512*hdrLbaTable k.hdr+j =
    512*(hdrLbaTable k.hdr+j/512)+j%512 by omega]

/-- What `gptbootconv` does with a copy that memory holds. -/
theorem gptbootconv_spec (h : Loaded d k) (hw : d.AllWritable) : ∃ k' d',
    gptbootconv k d = some (k',d') ∧ k'.lba = k.lba ∧ k'.table = convRange k.table 0 k.converted ∧
      d.Like d' ∧ (∀ x, ¬ k.area x → d.SameAt d' x) ∧ (¬ k.converts → k' = k ∧ d' = d) ∧
      (k.converts → k'.hdr = sealHdr k.hdr (crc32 k'.table (hdrEntries k.hdr*128)) ∧
        (k.Split → WrittenBack d' k.hdr k'.table k.lba)) := by
  obtain ⟨k',d',hc,hlba,ht,hl,hno,hyes,hleft⟩ := gptbootconv_writes h (Drive.Like.refl d) hw
  refine ⟨k',d',hc,hlba,ht,hl,fun x hx => ?_,hno,fun hconv => ⟨(hyes hconv).1,fun hsplit => ?_⟩⟩
  · obtain ⟨⟨h₁,h₂⟩,-⟩ | ⟨-,hs⟩ := hleft x fun _ hxl => hx (.inl hxl)
    · exact absurd (.inr ⟨h₁,by omega⟩) hx
    · exact hs
  · obtain ⟨hhdr,hsec⟩ := hyes hconv
    refine ⟨h.hdrOk.accepted,h.hdrOk.size,h.usable.entsz,by rw [h.entries]; exact h.valid.entries,
      hl.readable.mpr h.valid.readable,fun i hi h4 => ?_,fun j hj => ?_,fun j hj => by rw [hsec j hj,hhdr]⟩
    · rw [h.lbaTable]
      rw [h.entries] at h4
      exact hl.readable.mpr (h.valid.tableReadable i hi h4)
    · rw [ht]
      exact table_of_left h (fun i hi => hleft _ fun _ => hsplit i hi) (fun _ => id) (fun _ hw hnot => absurd hw hnot) j hj

end Bootconv

section Entries
variable {t t' : ℕ → UInt8} {i : ℕ}

/-- Entry `i` of `t'` is entry `i` of `t` with `BOOTFAILED` in place of a sole `BOOTONCE`. -/
structure EntConverted (t t' : ℕ → UInt8) (i : ℕ) : Prop where
  noneLeft : onlyBootonce (entAttr t' (i*entStructSize)) = false
  failed : onlyBootonce (entAttr t (i*entStructSize)) = true →
    entAttr t' (i*entStructSize) = failBootonce (entAttr t (i*entStructSize))
  rest : ∀ j < entStructSize, (48 ≤ j ∧ j < 56 → onlyBootonce (entAttr t (i*entStructSize)) = false) →
    t' (i*entStructSize+j) = t (i*entStructSize+j)

theorem onlyBootonce_convAttr (a : BitVec 64) : onlyBootonce (convAttr a) = false := by
  by_contra h
  rw [Bool.not_eq_false,onlyBootonce_iff] at h
  cases ha : onlyBootonce a with
  | false =>
    rw [convAttr,ha,if_neg (by decide),← onlyBootonce_iff,ha] at h
    cases h
  | true =>
    rw [convAttr,if_pos ha,getLsbD_failBootonce,getLsbD_failBootonce,getLsbD_failBootonce] at h
    simp at h

theorem entAttr_bytes {o : ℕ} {u u' : ℕ → UInt8} (h : entAttr u' o = entAttr u o) {j : ℕ}
    (h₁ : o+48 ≤ j) (h₂ : j < o+56) : u' j = u j := by
  have hv := congrArg BitVec.toNat h
  have hlt : ∀ b : ℕ → UInt8, leGet b (o+48) 8 < 2^64 := by
    intro b
    have := leGet_lt b (o+48) 8
    norm_num at this ⊢
    exact this
  simp only [entAttr,BitVec.toNat_ofNat,Nat.mod_eq_of_lt (hlt _)] at hv
  exact leGet_inj hv h₁ (by omega)

theorem entConverted_iff : EntConverted t t' i ↔
    entAttr t' (i*entStructSize) = convAttr (entAttr t (i*entStructSize)) ∧
      ∀ j < entStructSize, j < 48 ∨ 56 ≤ j → t' (i*entStructSize+j) = t (i*entStructSize+j) := by
  constructor
  · intro h
    refine ⟨?_,fun j hj hout => h.rest j hj (fun hin => by omega)⟩
    cases ho : onlyBootonce (entAttr t (i*entStructSize)) with
    | true => rw [h.failed ho,convAttr,if_pos ho]
    | false =>
      rw [convAttr,ho,if_neg (by decide)]
      apply entAttr_congr
      intro j h₁ h₂
      have := h.rest (j-i*entStructSize) (by simp only [entStructSize] at h₁ h₂ ⊢; omega) (fun _ => ho)
      rwa [show i*entStructSize+(j-i*entStructSize) = j by omega] at this
  · intro h
    refine ⟨by rw [h.1]; exact onlyBootonce_convAttr _,?_,?_⟩
    · intro ho
      rw [h.1,convAttr,if_pos ho]
    · intro j hj hin
      by_cases hout : j < 48 ∨ 56 ≤ j
      · exact h.2 j hj hout
      · have ho := hin (by omega)
        apply entAttr_bytes (o := i*entStructSize) _ (by omega) (by omega)
        rw [h.1,convAttr,ho,if_neg (by decide)]

/-- The conversion depends on the bytes of the entry only. -/
theorem EntConverted.congr {u u' : ℕ → UInt8} (h : EntConverted t t' i)
    (ht : ∀ j < entStructSize, u (i*entStructSize+j) = t (i*entStructSize+j))
    (ht' : ∀ j < entStructSize, u' (i*entStructSize+j) = t' (i*entStructSize+j)) :
    EntConverted u u' i := by
  rw [entConverted_iff] at h ⊢
  have hattr : ∀ v v' : ℕ → UInt8, (∀ j < entStructSize, v (i*entStructSize+j) = v' (i*entStructSize+j)) →
      entAttr v (i*entStructSize) = entAttr v' (i*entStructSize) := by
    intro v v' he
    apply entAttr_congr
    intro j h₁ h₂
    have := he (j-i*entStructSize) (by simp only [entStructSize] at h₁ h₂ ⊢; omega)
    rwa [show i*entStructSize+(j-i*entStructSize) = j by omega] at this
  rw [hattr u t ht,hattr u' t' ht']
  refine ⟨h.1,fun j hj hout => ?_⟩
  rw [ht j hj,ht' j hj]
  exact h.2 j hj hout

theorem entConverted_convRange (c : ℕ) : EntConverted t (convRange t 0 c) i ↔
    (onlyBootonce (entAttr t (i*entStructSize)) = true → i < c) := by
  rw [entConverted_iff,entAttr_convRange,Nat.zero_add]
  constructor
  · intro h ho
    by_contra hi
    rw [if_neg (by omega)] at h
    exact convAttr_ne ho h.1.symm
  · intro h
    constructor
    · split_ifs with hi
      · rfl
      · cases ho : onlyBootonce (entAttr t (i*entStructSize)) with
        | true => exact absurd ⟨Nat.zero_le i,h ho⟩ hi
        | false => rw [convAttr,ho,if_neg (by decide)]
    · intro j hj hout
      apply convRange_other
      intro i' _ _
      simp only [entStructSize] at hj ⊢
      omega

end Entries

end Blub.Boot
