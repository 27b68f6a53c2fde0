import Mathlib.Tactic

/-! The hash of symbol names, `elf_hash` of `load_elf.c`, in an `unsigned long` of `w` bits, and the hash of System V. -/
namespace Blub.Boot.Elf

/-- One turn of `elf_hash`. -/
def elfHashTurn (w : ℕ) (h : BitVec w) (c : UInt8) : BitVec w :=
  let h := (h <<< 4)+BitVec.ofNat w c.toNat
  let g := h &&& BitVec.ofNat w 0xf0000000
  let h := if g ≠ 0 then h ^^^ (g >>> 24) else h
  h &&& ~~~g

def elfHash (w : ℕ) (name : List UInt8) : BitVec w := name.foldl (elfHashTurn w) 0

/-- In 32 bits: the top four are folded into bits 4 to 7. -/
def sysvTurn (h : ℕ) (c : UInt8) : ℕ :=
  let t := (16*h+c.toNat)%2^32
  (t%2^28) ^^^ (t/2^28*16)

/-- The hash of System V. -/
def sysvHash (name : List UInt8) : ℕ := name.foldl sysvTurn 0

/-- A byte that takes the hash past bit 31, with fewer than `m/4` bytes behind it. -/
def LateCarry (m : ℕ) (name : List UInt8) : Prop :=
  ∃ p c q, name = p ++ c :: q ∧ 4*q.length < m ∧ 2^32 ≤ 16*sysvHash p+c.toNat

theorem sysvHash_append_singleton (name : List UInt8) (c : UInt8) :
    sysvHash (name ++ [c]) = sysvTurn (sysvHash name) c := by
  simp [sysvHash]

theorem sysvTurn_lt (h : ℕ) (c : UInt8) : sysvTurn h c < 2^28 := by
  simp only [sysvTurn]
  exact Nat.xor_lt_two_pow (Nat.mod_lt _ (by decide)) (by omega)

theorem sysvHash_lt (name : List UInt8) : sysvHash name < 2^28 := by
  induction name using List.reverseRecOn with
  | nil => decide
  | append_singleton name c _ =>
    rw [sysvHash_append_singleton]
    exact sysvTurn_lt _ c

/-- The four bits that are folded, as bits. -/
theorem testBit_mask (i : ℕ) : Nat.testBit 0xf0000000 i = decide (28 ≤ i ∧ i < 32) := by
  have hmask : 0xf0000000 = (2^4-1)*2^28 := by norm_num
  rw [hmask,Nat.testBit_mul_two_pow,Nat.testBit_two_pow_sub_one,Bool.eq_iff_iff]
  simp only [Bool.and_eq_true,decide_eq_true_eq]
  omega

/-- Folding works on the low 32 bits and leaves the others where they are. -/
theorem fold_toNat {w : ℕ} (hw : 32 ≤ w) (t : BitVec w) :
    ((t ^^^ ((t &&& BitVec.ofNat w 0xf0000000) >>> 24)) &&& ~~~(t &&& BitVec.ofNat w 0xf0000000)).toNat =
      2^32*(t.toNat/2^32)+((t.toNat%2^28) ^^^ (t.toNat%2^32/2^28*2^4)) := by
  have hlow : (t.toNat%2^28) ^^^ (t.toNat%2^32/2^28*2^4) < 2^32 :=
    Nat.xor_lt_two_pow (lt_trans (Nat.mod_lt _ (by decide)) (by decide)) (by omega)
  apply Nat.eq_of_testBit_eq
  intro i
  rw [Nat.testBit_two_pow_mul_add _ hlow]
  simp only [BitVec.testBit_toNat,BitVec.getLsbD_and,BitVec.getLsbD_xor,BitVec.getLsbD_not,BitVec.getLsbD_ushiftRight,
    BitVec.getLsbD_ofNat,testBit_mask,Nat.testBit_xor,Nat.testBit_mul_two_pow,Nat.testBit_div_two_pow,
    Nat.testBit_mod_two_pow]
  by_cases hi : i < 32
  · have hiw : i < w := by omega
    by_cases hfold : 4 ≤ i ∧ i < 8
    · -- the bits the top four come down to
      have hsub : i-4+28 = 24+i := by omega
      have hup : 24+i < w ∧ 28 ≤ 24+i ∧ 24+i < 32 ∧ i < 28 ∧ ¬28 ≤ i := by omega
      simp only [hi,hiw,hsub,hfold.1,hup]
      simp
    · by_cases htop : 28 ≤ i
      · have hup : ¬24+i < 32 ∧ ¬i < 28 ∧ ¬i-4+28 < 32 := by omega
        simp [hi,hiw,htop,hup]
      · obtain hlt | hge : i < 4 ∨ 8 ≤ i := by omega
        · have hup : ¬28 ≤ 24+i ∧ ¬4 ≤ i ∧ i < 28 := by omega
          simp [hi,hiw,htop,hup]
        · have hup : ¬24+i < 32 ∧ ¬i-4+28 < 32 ∧ i < 28 := by omega
          simp [hi,hiw,htop,hup]
  · have hsub : i-32+32 = i := by omega
    have hup : ¬24+i < 32 := by omega
    rw [if_neg hi,hsub]
    by_cases hiw : i < w
    · simp [hiw,hi,hup]
    · simp [BitVec.getLsbD_of_ge t i (by omega),hup]

/-- One turn: the carry goes past bit 31 and is not folded. -/
theorem elfHashTurn_toNat {w : ℕ} (hw : 32 ≤ w) (h : BitVec w) {a l : ℕ} (ha : h.toNat = a*2^32+l)
    (c : UInt8) : (elfHashTurn w h c).toNat =
      (16*a+(16*l+c.toNat)/2^32)%2^(w-32)*2^32+sysvTurn l c := by
  obtain ⟨t,ht⟩ : ∃ t, t = (h <<< 4)+BitVec.ofNat w c.toNat := ⟨_,rfl⟩
  have hpow : 2^w = 2^32*2^(w-32) := by rw [← Nat.pow_add,Nat.add_sub_cancel' hw]
  have hnat : t.toNat = (16*h.toNat+c.toNat)%2^w := by
    rw [ht]
    simp [BitVec.toNat_add,BitVec.toNat_shiftLeft,Nat.shiftLeft_eq,Nat.mul_comm]
  have hsum : 16*h.toNat+c.toNat = 16*l+c.toNat+2^32*(16*a) := by
    rw [ha]
    ring
  have hhigh : t.toNat/2^32 = (16*a+(16*l+c.toNat)/2^32)%2^(w-32) := by
    rw [hnat,hpow,Nat.mod_mul_right_div_self,hsum,Nat.add_mul_div_left _ _ (by decide),Nat.add_comm]
  have hlow : t.toNat%2^32 = (16*l+c.toNat)%2^32 := by
    rw [hnat,hpow,Nat.mod_mul_right_mod,hsum,Nat.add_mul_mod_self_left]
  have hlow' : t.toNat%2^28 = (16*l+c.toNat)%2^32%2^28 := by
    rw [← hlow,Nat.mod_mod_of_dvd _ (by norm_num)]
  have hturn : elfHashTurn w h c =
      (t ^^^ ((t &&& BitVec.ofNat w 0xf0000000) >>> 24)) &&& ~~~(t &&& BitVec.ofNat w 0xf0000000) := by
    simp only [elfHashTurn,← ht]
    split_ifs with hg
    · rfl
    · rw [not_not] at hg
      simp [hg]
  rw [hturn,fold_toNat hw,hhigh,hlow,hlow',sysvTurn,Nat.mul_comm]
  rfl

theorem lateCarry_append_singleton (m : ℕ) (name : List UInt8) (c : UInt8) :
    LateCarry m (name ++ [c]) ↔ (0 < m ∧ 2^32 ≤ 16*sysvHash name+c.toNat) ∨ LateCarry (m-4) name := by
  constructor
  · rintro ⟨p,c',q,hname,hlen,hcarry⟩
    cases q using List.reverseRecOn with
    | nil =>
      obtain ⟨rfl,hc⟩ := List.append_inj' hname rfl
      obtain rfl := List.head_eq_of_cons_eq hc
      exact .inl ⟨by simpa using hlen,hcarry⟩
    | append_singleton q d _ =>
      rw [← List.cons_append,← List.append_assoc] at hname
      obtain ⟨rfl,-⟩ := List.append_inj' hname rfl
      rw [List.length_append,List.length_singleton] at hlen
      exact .inr ⟨p,c',q,rfl,by omega,hcarry⟩
  · rintro (⟨hm,hcarry⟩ | ⟨p,c',q,rfl,hlen,hcarry⟩)
    · exact ⟨name,c,[],rfl,by simpa using hm,hcarry⟩
    · refine ⟨p,c',q ++ [c],by simp,?_,hcarry⟩
      rw [List.length_append,List.length_singleton]
      omega

theorem two_pow_dvd_iff {m high carry : ℕ} (hc : carry ≤ 1) :
    2^m ∣ 16*high+carry ↔ ¬(0 < m ∧ carry = 1) ∧ 2^(m-4) ∣ high := by
  obtain rfl | hm := Nat.eq_zero_or_pos m
  · simp
  have heven : 2 ∣ 2^m := dvd_pow_self 2 hm.ne'
  obtain rfl | rfl : carry = 0 ∨ carry = 1 := by omega
  · simp only [Nat.add_zero,Nat.zero_ne_one,and_false,not_false_eq_true,true_and]
    obtain hlt | hge := lt_or_ge m 4
    · have hsmall : 2^m ∣ 16 := pow_dvd_pow 2 hlt.le
      rw [Nat.sub_eq_zero_of_le hlt.le,pow_zero]
      exact ⟨fun _ => one_dvd _,fun _ => Dvd.dvd.mul_right hsmall high⟩
    · obtain ⟨k,rfl⟩ := Nat.exists_eq_add_of_le hge
      rw [Nat.pow_add,Nat.add_sub_cancel_left]
      exact Nat.mul_dvd_mul_iff_left (by decide)
  · constructor
    · intro h
      have := heven.trans h
      omega
    · rintro ⟨h,-⟩
      exact absurd ⟨hm,rfl⟩ h

/-- What has gone past bit 31 is 0 again when it is divisible by that power of two. -/
theorem elfHash_high {w : ℕ} (hw : 32 ≤ w) (name : List UInt8) :
    ∃ high, (elfHash w name).toNat = high%2^(w-32)*2^32+sysvHash name ∧ ∀ m, 2^m ∣ high ↔ ¬LateCarry m name := by
  induction name using List.reverseRecOn with
  | nil =>
    refine ⟨0,by simp [elfHash,sysvHash],fun m => ?_⟩
    simp [LateCarry]
  | append_singleton name c ih =>
    obtain ⟨high,heq,hdvd⟩ := ih
    refine ⟨16*high+(16*sysvHash name+c.toNat)/2^32,?_,fun m => ?_⟩
    · have hturn := elfHashTurn_toNat hw _ heq c
      rw [elfHash,List.foldl_append,List.foldl_cons,List.foldl_nil,← elfHash,hturn,sysvHash_append_singleton]
      congr 2
      rw [Nat.add_mod,Nat.mul_mod,Nat.mod_mod,← Nat.mul_mod,← Nat.add_mod]
    · have hlt := sysvHash_lt name
      have hbyte := c.toNat_lt
      have hcarry : (16*sysvHash name+c.toNat)/2^32 = 1 ↔ 2^32 ≤ 16*sysvHash name+c.toNat := by omega
      rw [two_pow_dvd_iff (by omega),hdvd,lateCarry_append_singleton,hcarry,not_or]

/-- `elf_hash` is the standard hash unless a byte near the end takes it past bit 31. -/
theorem elfHash_eq_iff {w : ℕ} (hw : 32 ≤ w) (name : List UInt8) :
    (elfHash w name).toNat = sysvHash name ↔ ¬LateCarry (w-32) name := by
  obtain ⟨high,heq,hdvd⟩ := elfHash_high hw name
  rw [heq,← hdvd,Nat.dvd_iff_mod_eq_zero]
  omega

end Blub.Boot.Elf
