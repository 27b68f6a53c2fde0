import Blub.Lib.Digits

/-! 64-bit division by 16-bit digits in 32-bit arithmetic, `__qdivrem` of `qdivrem.c`. A pointer into one of the arrays of
digits is the index of what it points to. -/
namespace Blub.Stand.Quad
open Digits

/-- A `u_int`. -/
def uint (n : ℤ) : ℕ := (n%2^32).toNat

def hhalf (x : ℕ) : ℕ := x >>> 16
def lhalf (x : ℕ) : ℕ := x &&& 2^16-1
def combine (a b : ℕ) : ℕ := uint (a <<< 16 : ℕ) ||| b

section Code

/-- Digits `p[i]` to `p[i+len]` are shifted to the left. -/
def shl (sh : ℕ) : ℕ → ℕ → (ℕ → ℕ) → ℕ → ℕ
  | 0, i, p => Function.update p i (lhalf (p i <<< sh))
  | len+1, i, p => shl sh len (i+1) (Function.update p i (lhalf (p i <<< sh) ||| p (i+1) >>> (16-sh)))

/-- The first four digits of a quad behind what is in front of them. -/
def setDigits (p : ℕ → ℕ) (q : ℕ) : ℕ → ℕ
  | 1 => hhalf (q >>> 32)
  | 2 => lhalf (q >>> 32)
  | 3 => hhalf (q%2^32)
  | 4 => lhalf (q%2^32)
  | i => p i

/-- The number of leading digits of the divisor that are skipped, and `n`. -/
def skipDivisor (vspace : ℕ → ℕ) : ℕ → ℕ → ℕ × ℕ
  | n+1, v => if vspace (v+1) = 0 then (if n = 1 then (v,1) else skipDivisor vspace n (v+1)) else (v,n+1)
  | 0, v => (v,0)

/-- The same for the dividend, and `m`, which must not go below 0. -/
def skipDividend (uspace : ℕ → ℕ) : ℕ → ℕ → Option (ℕ × ℕ)
  | m+1, u => if uspace (u+1) = 0 then skipDividend uspace m (u+1) else some (u,m+1)
  | 0, u => if uspace (u+1) = 0 then none else some (u,0)

/-- D1: `t` is doubled until its top bit is set. -/
def shiftCount : ℕ → ℕ → ℕ
  | 0, _ => 0
  | fuel+1, t => if t < 2^16/2 then shiftCount fuel (t <<< 1)+1 else 0

/-- D3, from the test on: `qhat` is corrected. -/
def correct (v1 v2 uj2 : ℕ) : ℕ → ℕ → ℕ
  | 0, _ => 0
  | qhat+1, rhat =>
    if combine rhat uj2 < uint (v2*(qhat+1) : ℕ) then
      if 2^16 ≤ rhat+v1 then qhat else correct v1 v2 uj2 qhat (rhat+v1)
    else qhat+1

/-- D3. -/
def estimate (v1 v2 uj0 uj1 uj2 : ℕ) : ℕ :=
  if uj0 = v1 then
    if 2^16 ≤ uj1+v1 then 2^16-1 else correct v1 v2 uj2 (2^16-1) (uj1+v1)
  else
    let nn := combine uj0 uj1
    correct v1 v2 uj2 (nn/v1) (nn%v1)

attribute [local grind =] shl setDigits skipDivisor skipDividend shiftCount correct

variable (vspace : ℕ → ℕ) (v n : ℕ)

/-- D4: multiply and subtract, from digit `i` of the divisor up; `t` is the borrow. -/
def mulSub (qhat uj : ℕ) : ℕ → (ℕ → ℕ) × ℕ → (ℕ → ℕ) × ℕ
  | 0, s => s
  | i+1, (u,t) =>
    let t := uint (u (uj+(i+1))-vspace (v+(i+1))*qhat-t)
    mulSub qhat uj i (Function.update u (uj+(i+1)) (lhalf t),(2^16-hhalf t) &&& 2^16-1)

/-- D6: add back. -/
def addBack (uj : ℕ) : ℕ → (ℕ → ℕ) × ℕ → (ℕ → ℕ) × ℕ
  | 0, s => s
  | i+1, (u,t) =>
    let t := uint (t+(u (uj+(i+1))+vspace (v+(i+1))) : ℕ)
    addBack uj i (Function.update u (uj+(i+1)) (lhalf t),hhalf t)

/-- D5 and D6: the digit of the quotient, and the dividend that is left. -/
def testRemainder (uj qhat : ℕ) : (ℕ → ℕ) × ℕ → ℕ × (ℕ → ℕ)
  | (u,t) =>
    let t := uint (u uj-t)
    let u := Function.update u uj (lhalf t)
    if hhalf t ≠ 0 then
      let (u,t) := addBack vspace v uj n (u,0)
      (uint (qhat-1),Function.update u uj (lhalf (u uj+t)))
    else (qhat,u)

/-- D3 to D6 for the digit at `uj`. -/
def divStep (uj : ℕ) (u : ℕ → ℕ) : ℕ × (ℕ → ℕ) :=
  let qhat := estimate (vspace (v+1)) (vspace (v+2)) (u uj) (u (uj+1)) (u (uj+2))
  testRemainder vspace v n uj qhat (mulSub vspace v qhat uj n (u,0))

/-- D7: the loop on `j`, for the digits that are left. -/
def divLoop (u q : ℕ) : ℕ → ℕ → (ℕ → ℕ) × (ℕ → ℕ) → (ℕ → ℕ) × (ℕ → ℕ)
  | 0, _, s => s
  | k+1, j, (uspace,qspace) =>
    let (qhat,uspace) := divStep vspace v n (u+j) uspace
    divLoop u q k (j+1) (uspace,Function.update qspace (q+j) (qhat%2^16))

/-- The remainder is shifted back, from digit `m+k` up. -/
def unshift (d um : ℕ) : ℕ → (ℕ → ℕ) → ℕ → ℕ
  | 0, p => Function.update p um 0
  | k+1, p =>
    unshift d um k (Function.update p (um+(k+1)) (p (um+(k+1)) >>> d ||| lhalf (p (um+k) <<< (16-d))))

/-- A quad of its two words. -/
def quad (h l : ℕ) : ℕ := h*2^32+l

def ofDigits (p : ℕ → ℕ) : ℕ := quad (combine (p 1) (p 2)) (combine (p 3) (p 4))

/-- A divisor of one digit. -/
def divShort (u : ℕ → ℕ) (t : ℕ) : ℕ × ℕ :=
  let q1 := u 1/t
  let rbj := combine (u 1%t) (u 2)
  let q2 := rbj/t
  let rbj := combine (rbj%t) (u 3)
  let q3 := rbj/t
  let rbj := combine (rbj%t) (u 4)
  let q4 := rbj/t
  (quad (combine (q1%2^16) (q2%2^16)) (combine (q3%2^16) (q4%2^16)),rbj%t)

attribute [local grind =] mulSub addBack divLoop unshift

end Code

variable (stack : ℕ → ℕ)

/-- `__qdivrem`: the quotient and the remainder; `stack` is what the arrays hold before. -/
def qdivrem (uq vq : ℕ) : Option (ℕ × ℕ) :=
  if vq = 0 then none
  else if uq < vq then some (0,uq)
  else
    let uspace := Function.update (setDigits stack uq) 0 0
    let vspace := setDigits stack vq
    let (v,n) := skipDivisor vspace 4 0
    if n = 1 then some (divShort uspace (vspace (v+2)))
    else
      match skipDividend uspace (4-n) 0 with
      | none => none
      | some (u,m) =>
        let qspace := fun i => if i < 4-m then 0 else stack i
        let q := 4-m
        let d := shiftCount 16 (vspace (v+1))
        let uspace := if 0 < d then shl d (m+n) u uspace else uspace
        let vspace := if 0 < d then shl d (n-1) (v+1) vspace else vspace
        let (uspace,qspace) := divLoop vspace v n u q (m+1) 0 (uspace,qspace)
        let uspace := if d ≠ 0 then unshift d (u+m) n uspace else uspace
        some (ofDigits qspace,ofDigits uspace)

def udivdi3 (a b : BitVec 64) : Option (BitVec 64) := (qdivrem stack a.toNat b.toNat).map fun r => BitVec.ofNat 64 r.1

def umoddi3 (a b : BitVec 64) : Option (BitVec 64) := (qdivrem stack a.toNat b.toNat).map fun r => BitVec.ofNat 64 r.2

def divdi3 (a b : BitVec 64) : Option (BitVec 64) :=
  let ua := if a.msb then -a else a
  let ub := if b.msb then -b else b
  let neg := a.msb ^^ b.msb
  (udivdi3 stack ua ub).map fun uq => if neg then -uq else uq

def moddi3 (a b : BitVec 64) : Option (BitVec 64) :=
  let ua := if a.msb then -a else a
  let ub := if b.msb then -b else b
  (umoddi3 stack ua ub).map fun ur => if a.msb then -ur else ur

section Words

theorem uint_natCast (n : ℕ) : uint n = n%2^32 := by
  rw [uint]
  omega

theorem uint_of_lt {n : ℕ} (h : n < 2^32) : uint n = n := by rw [uint_natCast,Nat.mod_eq_of_lt h]

theorem lhalf_eq (x : ℕ) : lhalf x = x%2^16 := Nat.and_two_pow_sub_one_eq_mod x 16

theorem hhalf_eq (x : ℕ) : hhalf x = x/2^16 := Nat.shiftRight_eq_div_pow x 16

theorem lhalf_lt (x : ℕ) : lhalf x < 2^16 := by
  rw [lhalf_eq]
  exact Nat.mod_lt _ (by decide)

theorem combine_eq {a b : ℕ} (ha : a < 2^16) (hb : b < 2^16) : combine a b = a*2^16+b := by
  have hshift : a <<< 16 = a*2^16 := Nat.shiftLeft_eq a 16
  rw [combine,uint_of_lt (by omega),← Nat.shiftLeft_add_eq_or_of_lt hb,hshift]

/-- A shifted digit with bits of its neighbour. -/
theorem lhalf_shiftLeft_or {a b k : ℕ} (hk : k ≤ 16) (hb : b < 2^k) : lhalf (a <<< k) ||| b = a%2^(16-k)*2^k+b := by
  have hpow : 2^16 = 2^(16-k)*2^k := by rw [← Nat.pow_add,Nat.sub_add_cancel hk]
  rw [lhalf_eq,Nat.shiftLeft_eq,hpow,Nat.mul_mod_mul_right,← Nat.shiftLeft_eq,← Nat.shiftLeft_add_eq_or_of_lt hb]

end Words

section Shift
variable {sh : ℕ}

/-- What is shifted out of a digit goes to the one in front of it. -/
theorem digit_split (hk : sh ≤ 16) (a : ℕ) : a/2^(16-sh)*2^16+a%2^(16-sh)*2^sh = a*2^sh := by
  have hpow : 2^16 = 2^(16-sh)*2^sh := by rw [← Nat.pow_add,Nat.sub_add_cancel hk]
  rw [hpow,← Nat.mul_assoc,← Nat.add_mul,Nat.div_add_mod']

theorem shl_spec (hsh : sh ≤ 16) (len i : ℕ) {p : ℕ → ℕ} (hp : ∀ j ≤ len, p (i+j) < 2^16) :
    value (2^16) (shl sh len i p) i (len+1)+p i/2^(16-sh)*(2^16)^(len+1) = value (2^16) p i (len+1)*2^sh ∧
      (∀ j ≤ len, shl sh len i p (i+j) < 2^16) ∧ ∀ j, j < i ∨ i+len < j → shl sh len i p j = p j := by
  induction len generalizing i p with
  | zero =>
    have hdigit := digit_split hsh (p i)
    have hzero := lhalf_shiftLeft_or hsh (a := p i) (Nat.two_pow_pos sh)
    rw [Nat.or_zero,Nat.add_zero] at hzero
    refine ⟨?_,fun j hj => ?_,fun j hj => ?_⟩
    · rw [value_succ,value_succ,shl,Function.update_self,hzero]
      simp only [value_zero,Nat.pow_zero,Nat.mul_one,Nat.add_zero,Nat.zero_add,Nat.pow_one]
      rw [← hdigit,Nat.add_comm]
    · obtain rfl := Nat.le_zero.mp hj
      simpa [shl] using lhalf_lt _
    · exact Function.update_of_ne (by omega) _ _
  | succ len ih =>
    obtain ⟨a,ha⟩ : ∃ a, a = lhalf (p i <<< sh) ||| p (i+1) >>> (16-sh) := ⟨_,rfl⟩
    have hnext : p (i+1) < 2^16 := hp 1 (by omega)
    have hin : p (i+1)/2^(16-sh) < 2^sh := by
      apply Nat.div_lt_of_lt_mul
      rwa [← Nat.pow_add,Nat.sub_add_cancel hsh]
    have haeq : a = p i%2^(16-sh)*2^sh+p (i+1)/2^(16-sh) := by
      rw [ha,Nat.shiftRight_eq_div_pow,lhalf_shiftLeft_or hsh hin]
    have halt : a < 2^16 := by
      rw [ha]
      exact Nat.or_lt_two_pow (lhalf_lt _) ((Nat.shiftRight_le _ _).trans_lt hnext)
    obtain ⟨hval,hdig,hrest⟩ := ih (i+1) (p := Function.update p i a) fun j hj => by
      rw [Function.update_of_ne (by omega),Nat.add_right_comm]
      exact hp (j+1) (by omega)
    have hfirst : shl sh (len+1) i p i = a := by
      rw [shl,← ha,hrest i (by omega),Function.update_self]
    refine ⟨?_,fun j hj => ?_,fun j hj => ?_⟩
    · have hdigit := digit_split hsh (p i)
      rw [value_succ,hfirst,value_succ _ p,Nat.pow_succ]
      rw [Function.update_of_ne (by omega),value_update_of_le (.inl (by omega))] at hval
      rw [shl,← ha,Nat.add_mul,← hval,haeq,Nat.mul_right_comm (p i),← hdigit]
      ring
    · cases j with
      | zero => exact hfirst ▸ halt
      | succ j =>
        rw [shl,← ha,Nat.add_comm j 1,← Nat.add_assoc]
        exact hdig j (by omega)
    · rw [shl,← ha,hrest j (by omega),Function.update_of_ne (by omega)]

end Shift

section Subtract
variable {vspace : ℕ → ℕ} {v qhat uj : ℕ}

/-- One digit of D4: what is taken away too much is the borrow. -/
theorem subDigit {a b q t : ℕ} (ha : a < 2^16) (hb : b < 2^16) (hq : q < 2^16) (ht : t < 2^16) :
    lhalf (uint (a-b*q-t))+b*q+t = a+((2^16-hhalf (uint (a-b*q-t))) &&& 2^16-1)*2^16 ∧
      (2^16-hhalf (uint (a-b*q-t))) &&& 2^16-1 < 2^16 := by
  have hmul : b*q ≤ 65535*65535 := Nat.mul_le_mul (by omega) (by omega)
  rw [lhalf_eq,hhalf_eq,Nat.and_two_pow_sub_one_eq_mod,uint,← Nat.cast_mul]
  generalize b*q = x at hmul
  omega

theorem mulSub_spec (hq : qhat < 2^16) (i : ℕ) {u : ℕ → ℕ} {t : ℕ} (hv : ∀ j < i, vspace (v+1+j) < 2^16)
    (hu : ∀ j < i, u (uj+1+j) < 2^16) (ht : t < 2^16) {u' : ℕ → ℕ} {t' : ℕ}
    (h : mulSub vspace v qhat uj i (u,t) = (u',t')) :
    value (2^16) u' (uj+1) i+value (2^16) vspace (v+1) i*qhat+t = value (2^16) u (uj+1) i+t'*(2^16)^i ∧ t' < 2^16 ∧
      (∀ j < i, u' (uj+1+j) < 2^16) ∧ ∀ j, j ≤ uj ∨ uj+i < j → u' j = u j := by
  induction i generalizing u t with
  | zero =>
    obtain ⟨rfl,rfl⟩ := Prod.mk.inj h
    exact ⟨by simp,ht,fun j hj => absurd hj (Nat.not_lt_zero j),fun _ _ => rfl⟩
  | succ i ih =>
    obtain ⟨d,hd⟩ : ∃ d, d = uint (u (uj+(i+1))-vspace (v+(i+1))*qhat-t) := ⟨_,rfl⟩
    have hui : u (uj+(i+1)) < 2^16 := by
      rw [← Nat.add_assoc,Nat.add_right_comm]
      exact hu i (by omega)
    have hvi : vspace (v+(i+1)) < 2^16 := by
      rw [← Nat.add_assoc,Nat.add_right_comm]
      exact hv i (by omega)
    obtain ⟨hdigit,hborrow⟩ := subDigit hui hvi hq ht
    rw [← hd] at hdigit hborrow
    rw [mulSub,← hd] at h
    obtain ⟨hval,hlt,hdig,hrest⟩ := ih (fun j hj => hv j (by omega)) (fun j hj => by
      rw [Function.update_of_ne (by omega)]
      exact hu j (by omega)) hborrow h
    have hlast : u' (uj+1+i) = lhalf d := by
      rw [hrest _ (.inr (by omega)),show uj+1+i = uj+(i+1) by omega,Function.update_self]
    refine ⟨?_,hlt,fun j hj => ?_,fun j hj => ?_⟩
    · rw [value_update_of_le (.inr (by omega))] at hval
      rw [value_concat,value_concat,value_concat,hlast,show uj+1+i = uj+(i+1) by omega,show v+1+i = v+(i+1) by omega,
        Nat.pow_succ]
      linear_combination (2^16)*hval+hdigit
    · by_cases hji : j = i
      · rw [hji,hlast]
        exact lhalf_lt d
      · exact hdig j (by omega)
    · rw [hrest j (by omega),Function.update_of_ne (by omega)]

/-- One digit of D6. -/
theorem addDigit {a b t : ℕ} (ha : a < 2^16) (hb : b < 2^16) (ht : t < 2^16) :
    lhalf (uint (t+(a+b) : ℕ))+hhalf (uint (t+(a+b) : ℕ))*2^16 = a+b+t ∧ hhalf (uint (t+(a+b) : ℕ)) < 2^16 := by
  rw [uint_of_lt (by omega),lhalf_eq,hhalf_eq]
  omega

theorem addBack_spec (i : ℕ) {u : ℕ → ℕ} {t : ℕ} (hv : ∀ j < i, vspace (v+1+j) < 2^16)
    (hu : ∀ j < i, u (uj+1+j) < 2^16) (ht : t < 2^16) {u' : ℕ → ℕ} {t' : ℕ} (h : addBack vspace v uj i (u,t) = (u',t')) :
    value (2^16) u' (uj+1) i+t'*(2^16)^i = value (2^16) u (uj+1) i+value (2^16) vspace (v+1) i+t ∧
      (∀ j < i, u' (uj+1+j) < 2^16) ∧ ∀ j, j ≤ uj ∨ uj+i < j → u' j = u j := by
  induction i generalizing u t with
  | zero =>
    obtain ⟨rfl,rfl⟩ := Prod.mk.inj h
    exact ⟨by simp,fun j hj => absurd hj (Nat.not_lt_zero j),fun _ _ => rfl⟩
  | succ i ih =>
    obtain ⟨d,hd⟩ : ∃ d, d = uint (t+(u (uj+(i+1))+vspace (v+(i+1))) : ℕ) := ⟨_,rfl⟩
    have hui : u (uj+(i+1)) < 2^16 := by
      rw [← Nat.add_assoc,Nat.add_right_comm]
      exact hu i (by omega)
    have hvi : vspace (v+(i+1)) < 2^16 := by
      rw [← Nat.add_assoc,Nat.add_right_comm]
      exact hv i (by omega)
    obtain ⟨hdigit,hcarry⟩ := addDigit hui hvi ht
    rw [← hd] at hdigit hcarry
    rw [addBack,← hd] at h
    obtain ⟨hval,hdig,hrest⟩ := ih (fun j hj => hv j (by omega)) (fun j hj => by
      rw [Function.update_of_ne (by omega)]
      exact hu j (by omega)) hcarry h
    have hlast : u' (uj+1+i) = lhalf d := by
      rw [hrest _ (.inr (by omega)),show uj+1+i = uj+(i+1) by omega,Function.update_self]
    refine ⟨?_,fun j hj => ?_,fun j hj => ?_⟩
    · rw [value_update_of_le (.inr (by omega))] at hval
      rw [value_concat,value_concat,value_concat,hlast,show uj+1+i = uj+(i+1) by omega,show v+1+i = v+(i+1) by omega,
        Nat.pow_succ]
      linear_combination (2^16)*hval+hdigit
    · by_cases hji : j = i
      · rw [hji,hlast]
        exact lhalf_lt d
      · exact hdig j (by omega)
    · rw [hrest j (by omega),Function.update_of_ne (by omega)]

end Subtract

section Estimate
variable {v1 v2 uj0 uj1 uj2 top : ℕ}

/-- Correction goes down to the first digit that the three digits of the dividend have room for. -/
theorem correct_spec (hv2 : v2 < 2^16) (hu2 : uj2 < 2^16) {qhat rhat : ℕ} (hq : qhat < 2^16) (hr : rhat < 2^16)
    (htop : qhat*v1+rhat = top) : correct v1 v2 uj2 qhat rhat ≤ qhat ∧
      correct v1 v2 uj2 qhat rhat*(v1*2^16+v2) ≤ top*2^16+uj2 ∧
      ∀ k, correct v1 v2 uj2 qhat rhat < k → k ≤ qhat → top*2^16+uj2 < k*(v1*2^16+v2) := by
  induction qhat generalizing rhat with
  | zero => exact ⟨le_rfl,by simp [correct],fun k hk hkq => absurd hkq (Nat.not_le.mpr hk)⟩
  | succ qhat ih =>
    have hprod : v2*(qhat+1) ≤ 65535*65535 := Nat.mul_le_mul (by omega) (by omega)
    have hexpand : ∀ k, k*(v1*2^16+v2) = k*v1*2^16+v2*k := fun k => by ring
    rw [correct,combine_eq hr hu2,uint_of_lt (by omega)]
    by_cases hlarge : rhat*2^16+uj2 < v2*(qhat+1)
    · have hover : top*2^16+uj2 < (qhat+1)*(v1*2^16+v2) := by
        rw [hexpand (qhat+1),← htop,Nat.add_mul ((qhat+1)*v1),Nat.add_assoc]
        exact Nat.add_lt_add_left hlarge _
      have htop' : qhat*v1+(rhat+v1) = top := by
        rw [← htop]
        ring
      rw [if_pos hlarge]
      by_cases hstop : 2^16 ≤ rhat+v1
      · rw [if_pos hstop]
        refine ⟨by omega,?_,fun k hk hkq => ?_⟩
        · have hlow : v2*qhat ≤ v2*(qhat+1) := Nat.mul_le_mul_left _ (by omega)
          rw [hexpand]
          omega
        · obtain rfl : k = qhat+1 := by omega
          exact hover
      · rw [if_neg hstop]
        obtain ⟨hle,hfits,hall⟩ := ih (by omega) (by omega) htop'
        refine ⟨by omega,hfits,fun k hk hkq => ?_⟩
        by_cases hlast : k = qhat+1
        · exact hlast ▸ hover
        · exact hall k hk (by omega)
    · rw [if_neg hlarge]
      refine ⟨le_rfl,?_,fun k hk hkq => absurd hkq (by omega)⟩
      rw [hexpand]
      omega

theorem estimate_spec (hv1 : 0 < v1) (hv1' : v1 < 2^16) (hv2 : v2 < 2^16) (hu0 : uj0 ≤ v1) (hu1 : uj1 < 2^16)
    (hu2 : uj2 < 2^16) : estimate v1 v2 uj0 uj1 uj2 < 2^16 ∧
      estimate v1 v2 uj0 uj1 uj2*(v1*2^16+v2) ≤ (uj0*2^16+uj1)*2^16+uj2 ∧
      ∀ k, estimate v1 v2 uj0 uj1 uj2 < k → k < 2^16 → (uj0*2^16+uj1)*2^16+uj2 < k*(v1*2^16+v2) := by
  rw [estimate]
  by_cases heq : uj0 = v1
  · rw [if_pos heq]
    have htop : (2^16-1)*v1+(uj1+v1) = uj0*2^16+uj1 := by omega
    by_cases hstop : 2^16 ≤ uj1+v1
    · rw [if_pos hstop]
      refine ⟨by omega,?_,fun k hk hkq => absurd hkq (by omega)⟩
      omega
    · rw [if_neg hstop]
      obtain ⟨hle,hfits,hall⟩ := correct_spec hv2 hu2 (by omega) (by omega) htop
      exact ⟨by omega,hfits,fun k hk hkq => hall k hk (by omega)⟩
  · rw [if_neg heq]
    dsimp only
    rw [combine_eq (by omega) hu1]
    have htop : (uj0*2^16+uj1)/v1*v1+(uj0*2^16+uj1)%v1 = uj0*2^16+uj1 := Nat.div_add_mod' _ _
    have hrhat := Nat.mod_lt (uj0*2^16+uj1) hv1
    have hqhat : (uj0*2^16+uj1)/v1 < 2^16 := by
      have htwo : uj0*2^16+uj1 < v1*2^16 := by omega
      exact Nat.div_lt_of_lt_mul htwo
    obtain ⟨hle,hfits,hall⟩ := correct_spec hv2 hu2 hqhat (by omega) htop
    refine ⟨by omega,hfits,fun k hk hkq => ?_⟩
    by_cases hkle : k ≤ (uj0*2^16+uj1)/v1
    · exact hall k hk hkle
    · -- a digit above the first estimate is too large for the top two digits alone
      have htwo : uj0*2^16+uj1 < k*v1 := Nat.lt_mul_of_div_lt (by omega) hv1
      have hexpand : k*(v1*2^16+v2) = k*v1*2^16+k*v2 := by ring
      rw [hexpand]
      have hscaled := Nat.mul_le_mul_right (2^16) htwo
      rw [Nat.succ_mul] at hscaled
      exact lt_of_lt_of_le (Nat.add_lt_add_left hu2 _) (hscaled.trans (Nat.le_add_right _ _))

end Estimate

section Step
variable {vspace u : ℕ → ℕ} {v n uj : ℕ}

/-- The top digits of the window at `uj` and of the divisor. -/
theorem split_window (hn : 2 ≤ n) (hv : ∀ j < n, vspace (v+1+j) < 2^16) (hu : ∀ j ≤ n, u (uj+j) < 2^16) :
    Split (2^16) (n-2) (value (2^16) u uj (n+1)) (value (2^16) vspace (v+1) n) (u uj*2^16+u (uj+1)) (u (uj+2))
      (vspace (v+1)) (vspace (v+2)) := by
  obtain ⟨k,rfl⟩ := Nat.exists_eq_add_of_le' hn
  rw [Nat.add_sub_cancel]
  constructor
  · refine ⟨value (2^16) u (uj+3) k,value_lt fun j hj => ?_,?_⟩
    · rw [Nat.add_assoc]
      exact hu _ (by omega)
    · rw [value_succ,value_succ,value_succ]
      simp only [Nat.pow_succ,Nat.add_assoc]
      ring
  · refine ⟨value (2^16) vspace (v+3) k,value_lt fun j hj => ?_,?_⟩
    · have := hv (2+j) (by omega)
      rwa [show v+1+(2+j) = v+3+j by omega] at this
    · rw [value_succ,value_succ]
      simp only [Nat.pow_succ,Nat.add_assoc]
      ring

/-- The window at `uj` is below 2^16 times the divisor, so its first digit is at most that of the divisor. -/
theorem top_le {U V : ℕ} (hv : ∀ j < n, vspace (v+1+j) < 2^16) (hU : U = value (2^16) u uj (n+1))
    (hV : V = value (2^16) vspace (v+1) n) (hlt : U < V*2^16) : u uj ≤ vspace (v+1) := by
  by_contra hgt
  obtain rfl | hn := Nat.eq_zero_or_pos n
  · simp [hV] at hlt
  obtain ⟨n,rfl⟩ := Nat.exists_eq_add_of_le' hn
  rw [value_succ] at hU hV
  have hrest : value (2^16) vspace (v+1+1) n < (2^16)^n := value_lt fun j hj => by
    have := hv (1+j) (by omega)
    rwa [← Nat.add_assoc] at this
  have hmul : (vspace (v+1)+1)*(2^16)^(n+1) ≤ u uj*(2^16)^(n+1) := Nat.mul_le_mul_right _ (by omega)
  have hscaled : V*2^16 < (vspace (v+1)+1)*(2^16)^(n+1) := by
    rw [hV,Nat.pow_succ]
    calc (vspace (v+1)*(2^16)^n+value (2^16) vspace (v+1+1) n)*2^16
        < (vspace (v+1)*(2^16)^n+(2^16)^n)*2^16 := Nat.mul_lt_mul_of_pos_right (by omega) (by decide)
      _ = (vspace (v+1)+1)*((2^16)^n*2^16) := by ring
  omega

theorem digits_unique {x y a c P : ℕ} (ha : a < P) (hc : c < P) (h : x*P+a = y*P+c) : x = y ∧ a = c := by
  have hpos : 0 < P := by omega
  obtain ⟨hx,ha'⟩ := (Nat.div_mod_unique hpos).mpr ⟨show a+P*x = x*P+a by ring,ha⟩
  obtain ⟨hy,hc'⟩ := (Nat.div_mod_unique hpos).mpr ⟨show c+P*y = x*P+a by rw [h]; ring,hc⟩
  exact ⟨hx.symm.trans hy,ha'.symm.trans hc'⟩

/-- No borrow is left: the digit was right. -/
theorem testRemainder_of_le {t qhat : ℕ} (hu0 : u uj < 2^16) (ht : t ≤ u uj) :
    testRemainder vspace v n uj qhat (u,t) = (qhat,Function.update u uj (u uj-t)) := by
  obtain ⟨e,he⟩ := Nat.exists_eq_add_of_le ht
  have hdiff : uint (u uj-t) = e := by
    rw [he,Nat.cast_add,add_sub_cancel_left,uint_of_lt (by omega)]
  have hhigh : hhalf e = 0 := by
    rw [hhalf_eq]
    omega
  have hlow : lhalf e = u uj-t := by
    rw [lhalf_eq]
    omega
  simp only [testRemainder,hdiff,hhigh,hlow]
  rw [if_neg (not_not.mpr rfl)]

/-- A borrow is left: the digit was one too large, and the carry of D6 cancels the borrow. -/
theorem testRemainder_of_lt {t qhat rem : ℕ} (hv : ∀ j < n, vspace (v+1+j) < 2^16) (hu : ∀ j < n, u (uj+1+j) < 2^16)
    (ht16 : t < 2^16) (ht : u uj < t) (hq : 0 < qhat) (hq16 : qhat < 2^16) (hrem : rem < (2^16)^n)
    (hsum : u uj*(2^16)^n+value (2^16) u (uj+1) n+value (2^16) vspace (v+1) n = t*(2^16)^n+rem) :
    ∃ u', testRemainder vspace v n uj qhat (u,t) = (qhat-1,u') ∧ value (2^16) u' uj (n+1) = rem ∧
      (∀ j ≤ n, u' (uj+j) < 2^16) ∧ ∀ j, j < uj ∨ uj+n < j → u' j = u j := by
  obtain ⟨d,hd⟩ : ∃ d, d+t = u uj+2^16 := ⟨u uj+2^16-t,by omega⟩
  have hdiff : uint (u uj-t) = 65535*2^16+d := by
    rw [uint]
    omega
  have hhigh : hhalf (65535*2^16+d) ≠ 0 := by
    rw [hhalf_eq]
    omega
  have hlow : lhalf (65535*2^16+d) = d := by
    rw [lhalf_eq]
    omega
  rcases hadd : addBack vspace v uj n (Function.update u uj d,0) with ⟨u₂,t₂⟩
  obtain ⟨hval₂,hdig₂,hrest₂⟩ := addBack_spec n hv (fun j hj => by
    rw [Function.update_of_ne (by omega)]
    exact hu j hj) (by decide) hadd
  rw [Nat.add_zero,value_update_of_le (.inl (by omega))] at hval₂
  have hhead₂ : u₂ uj = d := by rw [hrest₂ uj (.inl le_rfl),Function.update_self]
  have hfull : (d+t₂)*(2^16)^n+value (2^16) u₂ (uj+1) n = 2^16*(2^16)^n+rem := by
    have hdP : d*(2^16)^n+t*(2^16)^n = u uj*(2^16)^n+2^16*(2^16)^n := by
      rw [← Nat.add_mul,hd,Nat.add_mul]
    rw [Nat.add_mul]
    omega
  obtain ⟨hcarry,hfinal⟩ := digits_unique (value_lt hdig₂) hrem hfull
  have hzero : lhalf (d+t₂) = 0 := by rw [hcarry,lhalf_eq,Nat.mod_self]
  have hpred : uint ((qhat : ℤ)-1) = qhat-1 := by
    rw [uint]
    omega
  refine ⟨Function.update u₂ uj 0,?_,?_,fun j hj => ?_,fun j hj => ?_⟩
  · simp only [testRemainder,hdiff,hlow,hadd,hhead₂,hzero,hpred]
    rw [if_pos hhigh]
  · rw [value_succ,Function.update_self,value_update_of_le (.inl (by omega)),hfinal,Nat.zero_mul,Nat.zero_add]
  · cases j with
    | zero => simp
    | succ j =>
      rw [Function.update_of_ne (by omega),Nat.add_comm j 1,← Nat.add_assoc]
      exact hdig₂ j (by omega)
  · rw [Function.update_of_ne (by omega),hrest₂ j (by omega),Function.update_of_ne (by omega)]

theorem divStep_spec (hn : 2 ≤ n) (hv : ∀ j < n, vspace (v+1+j) < 2^16) (hv1 : 0 < vspace (v+1))
    (hu : ∀ j ≤ n, u (uj+j) < 2^16) (hlt : value (2^16) u uj (n+1) < value (2^16) vspace (v+1) n*2^16) :
    (divStep vspace v n uj u).1 = value (2^16) u uj (n+1)/value (2^16) vspace (v+1) n ∧
      value (2^16) (divStep vspace v n uj u).2 uj (n+1) = value (2^16) u uj (n+1)%value (2^16) vspace (v+1) n ∧
      (∀ j ≤ n, (divStep vspace v n uj u).2 (uj+j) < 2^16) ∧
      ∀ j, j < uj ∨ uj+n < j → (divStep vspace v n uj u).2 j = u j := by
  obtain ⟨V,hV⟩ : ∃ V, V = value (2^16) vspace (v+1) n := ⟨_,rfl⟩
  obtain ⟨U,hU⟩ : ∃ U, U = value (2^16) u uj (n+1) := ⟨_,rfl⟩
  have hsplit := split_window hn hv hu
  rw [← hU,← hV] at hlt hsplit ⊢
  have hu0 : u uj < 2^16 := hu 0 (Nat.zero_le n)
  have hVpos : 0 < V := Nat.pos_of_ne_zero fun h => by simp [h] at hlt
  have hVlt : V < (2^16)^n := hV ▸ value_lt hv
  have hqlt : U/V < 2^16 := Nat.div_lt_of_lt_mul hlt
  obtain ⟨qhat,hqhat⟩ : ∃ q, q = estimate (vspace (v+1)) (vspace (v+2)) (u uj) (u (uj+1)) (u (uj+2)) := ⟨_,rfl⟩
  obtain ⟨hlt16,hfits,hall⟩ := estimate_spec hv1 (hv 0 (by omega)) (hv 1 (by omega)) (top_le hv hU hV hlt)
    (hu 1 (by omega)) (hu 2 (by omega))
  rw [← hqhat] at hlt16 hfits hall
  have hge : U/V ≤ qhat := by
    by_contra hlow
    exact lt_irrefl _ (hsplit.div_lt (hall (U/V) (by omega) hqlt))
  have hover : qhat*V < U+V := hsplit.lt_add (by decide) hv1 hlt16.le hfits
  rcases hsub : mulSub vspace v qhat uj n (u,0) with ⟨u₁,t₁⟩
  have hu₁ : ∀ j < n, u (uj+1+j) < 2^16 := fun j hj => by
    rw [Nat.add_assoc]
    exact hu _ (by omega)
  obtain ⟨hval,ht₁,hdig,hrest⟩ := mulSub_spec hlt16 n hv hu₁ (by decide) hsub
  rw [value_succ] at hU
  rw [← hV,Nat.add_zero,Nat.mul_comm] at hval
  have hhead : u₁ uj = u uj := hrest uj (.inl le_rfl)
  simp only [divStep,← hqhat,hsub]
  by_cases hborrow : t₁ ≤ u uj
  · obtain ⟨e,he⟩ := Nat.exists_eq_add_of_le hborrow
    have hsum : e*(2^16)^n+value (2^16) u₁ (uj+1) n+V*qhat = U := by
      rw [hU,he]
      linear_combination hval
    have hr : e*(2^16)^n+value (2^16) u₁ (uj+1) n < V := by
      have hle := Nat.lt_mul_of_div_lt (Nat.lt_succ_of_le hge) hVpos
      rw [Nat.succ_mul,Nat.mul_comm] at hle
      omega
    obtain ⟨hdiv,hmod⟩ := (Nat.div_mod_unique hVpos).mpr ⟨hsum,hr⟩
    rw [testRemainder_of_le (hhead ▸ hu0) (hhead ▸ hborrow),hhead,he,Nat.add_sub_cancel_left]
    dsimp only
    refine ⟨hdiv.symm,?_,fun j hj => ?_,fun j hj => ?_⟩
    · rw [value_succ,Function.update_self,value_update_of_le (.inl (by omega)),hmod]
    · cases j with
      | zero =>
        simp only [Nat.add_zero,Function.update_self]
        omega
      | succ j =>
        rw [Function.update_of_ne (by omega),Nat.add_comm j 1,← Nat.add_assoc]
        exact hdig j (by omega)
    · rw [Function.update_of_ne (by omega),hrest j (by omega)]
  · have hneg : U < qhat*V := by
      have hW : value (2^16) u₁ (uj+1) n < (2^16)^n := value_lt hdig
      have hmul : (u uj+1)*(2^16)^n ≤ t₁*(2^16)^n := Nat.mul_le_mul_right _ (by omega)
      rw [Nat.succ_mul] at hmul
      omega
    have hqpos : 0 < qhat := Nat.pos_of_ne_zero fun h => by simp [h] at hneg
    obtain ⟨k,hk⟩ := Nat.exists_eq_add_of_lt hqpos
    rw [hk,Nat.zero_add,Nat.succ_mul] at hover hneg hval
    obtain ⟨rem,hrem⟩ := Nat.exists_eq_add_of_le (show k*V ≤ U by omega)
    have hback : u₁ uj*(2^16)^n+value (2^16) u₁ (uj+1) n+V = t₁*(2^16)^n+rem := by
      rw [hhead]
      omega
    obtain ⟨hdiv,hmod⟩ := (Nat.div_mod_unique hVpos).mpr ⟨show rem+V*k = U by rw [hrem]; ring,by omega⟩
    obtain ⟨u',hres,hval',hdig',hrest'⟩ := testRemainder_of_lt hv hdig ht₁ (by omega) hqpos hlt16
      (show rem < (2^16)^n by omega) (hV ▸ hback)
    rw [hres,hdiv,hmod]
    dsimp only
    exact ⟨by omega,hval',hdig',fun j hj => by rw [hrest' j hj,hrest j (by omega)]⟩

/-- What k steps of D2 to D7 leave, when no digit of the quotient stands in front of them. -/
theorem divLoop_spec {q : ℕ} (hn : 2 ≤ n) (hv : ∀ j < n, vspace (v+1+j) < 2^16) (hv1 : 0 < vspace (v+1)) {a : ℕ}
    (k j : ℕ) {uspace qspace : ℕ → ℕ} (hu : ∀ i < n+k, uspace (a+j+i) < 2^16)
    (hlt : value (2^16) uspace (a+j) n < value (2^16) vspace (v+1) n) {u' q' : ℕ → ℕ}
    (h : divLoop vspace v n a q k j (uspace,qspace) = (u',q')) :
    value (2^16) uspace (a+j) (n+k) = value (2^16) q' (q+j) k*value (2^16) vspace (v+1) n+value (2^16) u' (a+j+k) n ∧
      value (2^16) u' (a+j+k) n < value (2^16) vspace (v+1) n ∧ (∀ i < n, u' (a+j+k+i) < 2^16) ∧
      (∀ i < k, u' (a+j+i) = 0 ∧ q' (q+j+i) < 2^16) ∧ ∀ i, (i < a+j → u' i = uspace i) ∧ (i < q+j → q' i = qspace i) := by
  induction k generalizing j uspace qspace with
  | zero =>
    obtain ⟨rfl,rfl⟩ := Prod.mk.inj h
    refine ⟨?_,hlt,hu,fun i hi => absurd hi (Nat.not_lt_zero i),fun i => ⟨fun _ => rfl,fun _ => rfl⟩⟩
    rw [value_zero,Nat.zero_mul,Nat.zero_add,Nat.add_zero,Nat.add_zero]
  | succ k ih =>
    obtain ⟨V,hV⟩ : ∃ V, V = value (2^16) vspace (v+1) n := ⟨_,rfl⟩
    obtain ⟨U,hU⟩ : ∃ U, U = value (2^16) uspace (a+j) (n+1) := ⟨_,rfl⟩
    have hVlt : V < (2^16)^n := hV ▸ value_lt hv
    have hUlt : U < V*2^16 := by
      have hdigit : uspace (a+j+n) < 2^16 := hu n (by omega)
      rw [hU,value_concat,hV]
      omega
    obtain ⟨hdiv,hmod,hdig,hrest⟩ := divStep_spec hn hv hv1 (fun i hi => hu i (by omega)) (hV ▸ hU ▸ hUlt)
    rcases hstep : divStep vspace v n (a+j) uspace with ⟨qhat,u₁⟩
    simp only [hstep,← hV,← hU] at hdiv hmod hdig hrest
    have hUeq : qhat*V+U%V = U := by rw [hdiv,Nat.div_add_mod']
    have hq16 : qhat < 2^16 := hdiv ▸ Nat.div_lt_of_lt_mul hUlt
    have hmodlt : U%V < V := Nat.mod_lt _ (by omega)
    have hfirst : u₁ (a+j) = 0 := eq_zero_of_value_lt (b := 2^16) (n := n) (by omega)
    rw [value_succ,hfirst,Nat.zero_mul,Nat.zero_add] at hmod
    simp only [divLoop,hstep] at h
    obtain ⟨hval,hr,hdig',hzero,hkeep⟩ := ih (j+1) (fun i hi => by
      rw [← Nat.add_assoc,Nat.add_assoc (a+j),Nat.add_comm 1]
      by_cases hin : i < n
      · exact hdig (i+1) (by omega)
      · rw [hrest _ (.inr (by omega))]
        exact hu _ (by omega)) (by rw [← Nat.add_assoc,hmod,← hV]; exact hmodlt) h
    rw [← hV] at hval hr ⊢
    have hqfirst : q' (q+j) = qhat := by
      rw [(hkeep (q+j)).2 (by omega),Function.update_self,Nat.mod_eq_of_lt hq16]
    have hpos : a+(j+1)+k = a+j+(k+1) := by omega
    rw [hpos] at hval hr hdig'
    refine ⟨?_,hr,hdig',fun i hi => ?_,fun i => ⟨fun hi => ?_,fun hi => ?_⟩⟩
    · have htail : value (2^16) u₁ (a+(j+1)+n) k = value (2^16) uspace (a+j+(n+1)) k := value_congr fun i hi => by
        rw [show a+(j+1)+n = a+j+(n+1) by omega]
        exact hrest _ (.inr (by omega))
      rw [value_append,← Nat.add_assoc a,hmod,Nat.add_assoc a,htail] at hval
      rw [show n+(k+1) = n+1+k by omega,value_append,← hU,value_succ _ q',hqfirst]
      rw [← Nat.add_assoc q] at hval
      linear_combination hval-(2^16)^k*hUeq
    · cases i with
      | zero =>
        rw [Nat.add_zero,Nat.add_zero,(hkeep (a+j)).1 (by omega),hqfirst]
        exact ⟨hfirst,hq16⟩
      | succ i =>
        have := hzero i (by omega)
        rwa [show a+(j+1)+i = a+j+(i+1) by omega,show q+(j+1)+i = q+j+(i+1) by omega] at this
    · rw [(hkeep i).1 (by omega),hrest i (.inl hi)]
    · rw [(hkeep i).2 (by omega),Function.update_of_ne (by omega)]

end Step

section Unshift
variable {d um : ℕ}

/-- One digit of the remainder shifted back, with the low bits of the one in front of it. -/
theorem unshift_digit (hd : d ≤ 16) {a b : ℕ} (ha : a < 2^16) :
    (a >>> d ||| lhalf (b <<< (16-d)))*2^d+a%2^d = a+b%2^d*2^16 ∧ a >>> d ||| lhalf (b <<< (16-d)) < 2^16 := by
  have hpow : 2^16 = 2^(16-d)*2^d := by rw [← Nat.pow_add,Nat.sub_add_cancel hd]
  have hlow : a >>> d < 2^(16-d) := by
    rw [Nat.shiftRight_eq_div_pow]
    apply Nat.div_lt_of_lt_mul
    rwa [Nat.mul_comm,← hpow]
  constructor
  · rw [Nat.or_comm,lhalf_shiftLeft_or (Nat.sub_le 16 d) hlow,Nat.sub_sub_self hd,Nat.shiftRight_eq_div_pow,hpow]
    calc (b%2^d*2^(16-d)+a/2^d)*2^d+a%2^d = a/2^d*2^d+a%2^d+b%2^d*(2^(16-d)*2^d) := by ring
      _ = a+b%2^d*(2^(16-d)*2^d) := by rw [Nat.div_add_mod']
  · exact Nat.or_lt_two_pow ((Nat.shiftRight_le _ _).trans_lt ha) (lhalf_lt _)

theorem unshift_spec (hd : d ≤ 16) (k : ℕ) {p : ℕ → ℕ} (hp : ∀ i ≤ k, p (um+i) < 2^16) :
    value (2^16) (unshift d um k p) (um+1) k*2^d+p (um+k)%2^d = value (2^16) p (um+1) k+p um%2^d*(2^16)^k ∧
      (∀ i ≤ k, unshift d um k p (um+i) < 2^16) ∧ unshift d um k p um = 0 ∧
      ∀ i, i < um ∨ um+k < i → unshift d um k p i = p i := by
  induction k generalizing p with
  | zero =>
    refine ⟨by simp,fun i hi => ?_,Function.update_self ..,fun i hi => Function.update_of_ne (by omega) _ _⟩
    obtain rfl := Nat.le_zero.mp hi
    simp [unshift]
  | succ k ih =>
    obtain ⟨hdigit,hlt⟩ := unshift_digit hd (a := p (um+(k+1))) (b := p (um+k)) (hp (k+1) le_rfl)
    obtain ⟨e,he⟩ : ∃ e, e = p (um+(k+1)) >>> d ||| lhalf (p (um+k) <<< (16-d)) := ⟨_,rfl⟩
    rw [← he] at hdigit hlt
    obtain ⟨hval,hdig,hzero,hrest⟩ := ih (p := Function.update p (um+(k+1)) e) fun i hi => by
      rw [Function.update_of_ne (by omega)]
      exact hp i (by omega)
    rw [Function.update_of_ne (by omega),Function.update_of_ne (by omega),value_update_of_le (.inr (by omega))] at hval
    have hlast : unshift d um (k+1) p (um+1+k) = e := by
      rw [unshift,← he,hrest _ (.inr (by omega)),show um+1+k = um+(k+1) by omega,Function.update_self]
    refine ⟨?_,fun i hi => ?_,by rw [unshift,← he,hzero],fun i hi => ?_⟩
    · rw [value_concat,hlast,value_concat _ p,show um+1+k = um+(k+1) by omega,unshift,← he]
      linear_combination (2^16)*hval+hdigit
    · by_cases hik : i = k+1
      · rw [hik,show um+(k+1) = um+1+k by omega,hlast]
        exact hlt
      · rw [unshift,← he]
        exact hdig i (by omega)
    · rw [unshift,← he,hrest i (by omega),Function.update_of_ne (by omega)]

theorem shiftCount_spec (fuel : ℕ) {t : ℕ} (ht : 0 < t) (hlt : t < 2^16) (hfuel : 2^16 ≤ t*2^fuel) :
    t*2^shiftCount fuel t < 2^16 := by
  induction fuel generalizing t with
  | zero => simpa [shiftCount] using hlt
  | succ fuel ih =>
    rw [shiftCount]
    split_ifs with hsmall
    · have hdouble : ∀ k, t*2^(k+1) = t*2*2^k := fun k => by rw [Nat.pow_succ,Nat.mul_comm (2^k),Nat.mul_assoc]
      rw [hdouble] at hfuel ⊢
      rw [Nat.shiftLeft_eq,Nat.pow_one]
      exact ih (by omega) (by omega) hfuel
    · simpa using hlt

end Unshift

section Skip
variable {p : ℕ → ℕ}

/-- A divisor of one digit, or one whose first digit is not 0. -/
theorem skipDivisor_spec {n v : ℕ} (hn : 2 ≤ n) :
    (∃ v', skipDivisor p n v = (v',1) ∧ v'+2 = v+n ∧ ∀ i, v < i → i ≤ v'+1 → p i = 0) ∨
      ∃ v' m, skipDivisor p n v = (v',m) ∧ 2 ≤ m ∧ v'+m = v+n ∧ p (v'+1) ≠ 0 ∧ ∀ i, v < i → i ≤ v' → p i = 0 := by
  induction n generalizing v with
  | zero => omega
  | succ n ih =>
    rw [skipDivisor]
    split_ifs with hzero hone
    · refine .inl ⟨v,rfl,by omega,fun i hi hle => ?_⟩
      obtain rfl : i = v+1 := by omega
      exact hzero
    · have hlead : ∀ {w i}, (∀ i, v+1 < i → i ≤ w → p i = 0) → v < i → i ≤ w → p i = 0 := fun {w i} h hi hle => by
        by_cases hiv : i = v+1
        · exact hiv ▸ hzero
        · exact h i (by omega) hle
      obtain ⟨v',hskip,hsum,hall⟩ | ⟨v',m,hskip,hm,hsum,hne,hall⟩ := ih (v := v+1) (by omega)
      · exact .inl ⟨v',hskip,by omega,fun i hi hle => hlead hall hi hle⟩
      · exact .inr ⟨v',m,hskip,hm,by omega,hne,fun i hi hle => hlead hall hi hle⟩
    · exact .inr ⟨v,n+1,rfl,hn,rfl,hzero,fun i hi hle => absurd hle (by omega)⟩

theorem skipDividend_spec {m u : ℕ} (h : ∃ i ≤ m, p (u+1+i) ≠ 0) :
    ∃ u' m', skipDividend p m u = some (u',m') ∧ u'+m' = u+m ∧ u ≤ u' ∧ ∀ i, u < i → i ≤ u' → p i = 0 := by
  induction m generalizing u with
  | zero =>
    obtain ⟨i,hi,hne⟩ := h
    obtain rfl := Nat.le_zero.mp hi
    refine ⟨u,0,?_,rfl,le_rfl,fun i hi hle => absurd hle (by omega)⟩
    rw [skipDividend,if_neg hne]
  | succ m ih =>
    rw [skipDividend]
    split_ifs with hzero
    · obtain ⟨i,hi,hne⟩ := h
      obtain ⟨i,rfl⟩ : ∃ k, i = k+1 := ⟨i-1,by
        have : i ≠ 0 := fun h0 => hne (by rw [h0]; exact hzero)
        omega⟩
      obtain ⟨u',m',hskip,hsum,hle,hall⟩ := ih (u := u+1) ⟨i,by omega,by rwa [show u+1+1+i = u+1+(i+1) by omega]⟩
      refine ⟨u',m',hskip,by omega,by omega,fun i hi hle => ?_⟩
      by_cases hiu : i = u+1
      · exact hiu ▸ hzero
      · exact hall i (by omega) hle
    · exact ⟨u,m+1,rfl,rfl,le_rfl,fun i hi hle => absurd hle (by omega)⟩

theorem value_skip {u k : ℕ} (h : ∀ i < u, p i = 0) : value (2^16) p 0 (u+k) = value (2^16) p u k := by
  rw [value_append,value_eq_zero fun i hi => by simpa using h i hi,Nat.zero_mul,Nat.zero_add,Nat.zero_add]

end Skip

section Quads
variable {p : ℕ → ℕ}

theorem ofDigits_eq (h : ∀ i < 4, p (1+i) < 2^16) : ofDigits p = value (2^16) p 1 4 := by
  have h1 : p 1 < 2^16 := h 0 (by decide)
  have h2 : p 2 < 2^16 := h 1 (by decide)
  have h3 : p 3 < 2^16 := h 2 (by decide)
  have h4 : p 4 < 2^16 := h 3 (by decide)
  rw [ofDigits,quad,combine_eq h1 h2,combine_eq h3 h4]
  simp only [value_succ,value_zero]
  ring

theorem setDigits_lt {q : ℕ} (hq : q < 2^64) : ∀ i < 4, setDigits p q (1+i) < 2^16 := by
  have hhigh : q >>> 32 < 2^32 := by
    rw [Nat.shiftRight_eq_div_pow]
    omega
  intro i hi
  interval_cases i
  · exact (hhalf_eq _).trans_lt (by omega)
  · exact lhalf_lt _
  · exact (hhalf_eq _).trans_lt (by omega)
  · exact lhalf_lt _

theorem value_setDigits {q : ℕ} : value (2^16) (setDigits p q) 1 4 = q := by
  simp only [value_succ,value_zero,setDigits,hhalf_eq,lhalf_eq,Nat.shiftRight_eq_div_pow]
  omega

/-- Long division by one digit. -/
theorem digit_div {t r a : ℕ} (ht : t < 2^16) (hr : r < t) (ha : a < 2^16) :
    combine r a/t < 2^16 ∧ combine r a%t < t ∧ combine r a/t*t+combine r a%t = r*2^16+a := by
  have htpos : 0 < t := by omega
  rw [combine_eq (hr.trans ht) ha]
  refine ⟨Nat.div_lt_of_lt_mul ?_,Nat.mod_lt _ htpos,Nat.div_add_mod' _ _⟩
  omega

theorem divShort_spec {u : ℕ → ℕ} {t : ℕ} (ht : 0 < t) (ht16 : t < 2^16) (hu : ∀ i < 4, u (1+i) < 2^16) :
    divShort u t = (value (2^16) u 1 4/t,value (2^16) u 1 4%t) := by
  have hu1 : u 1 < 2^16 := hu 0 (by decide)
  have hq1 : u 1/t < 2^16 := (Nat.div_le_self _ _).trans_lt hu1
  have hr1 : u 1/t*t+u 1%t = u 1 := Nat.div_add_mod' _ _
  obtain ⟨hq2,hlt2,hr2⟩ := digit_div (a := u 2) ht16 (Nat.mod_lt (u 1) ht) (hu 1 (by decide))
  obtain ⟨hq3,hlt3,hr3⟩ := digit_div (a := u 3) ht16 hlt2 (hu 2 (by decide))
  obtain ⟨hq4,hlt4,hr4⟩ := digit_div (a := u 4) ht16 hlt3 (hu 3 (by decide))
  have hU : value (2^16) u 1 4 = ((u 1*2^16+u 2)*2^16+u 3)*2^16+u 4 := by
    simp only [value_succ,value_zero]
    ring
  simp only [divShort]
  rw [Nat.mod_eq_of_lt hq1,Nat.mod_eq_of_lt hq2,Nat.mod_eq_of_lt hq3,Nat.mod_eq_of_lt hq4,combine_eq hq1 hq2,
    combine_eq hq3 hq4,quad]
  generalize combine (u 1%t) (u 2) = c2 at *
  generalize combine (c2%t) (u 3) = c3 at *
  generalize combine (c3%t) (u 4) = c4 at *
  have hsum : c4%t+t*((u 1/t*2^16+c2/t)*2^32+(c3/t*2^16+c4/t)) = value (2^16) u 1 4 := by
    rw [hU]
    linear_combination hr4+(2^16)*hr3+(2^16)^2*hr2+(2^16)^3*hr1
  obtain ⟨hdiv,hmod⟩ := (Nat.div_mod_unique ht).mpr ⟨hsum,hlt4⟩
  rw [← hdiv,← hmod]

/-- What the top digits of a shifted dividend leave for the first step: less than the shifted divisor. -/
theorem top_lt {us vs : ℕ → ℕ} {a v n m d U V : ℕ} (hn : 0 < n) (hus : ∀ i ≤ m+n, us (a+i) < 2^16)
    (hU : value (2^16) us a (m+n+1) = U*2^d) (hV : value (2^16) vs (v+1) n = V*2^d) (hUlt : U < (2^16)^(m+n))
    (hVge : (2^16)^(n-1) ≤ V) : value (2^16) us a n < value (2^16) vs (v+1) n := by
  obtain ⟨n,rfl⟩ := Nat.exists_eq_add_of_le' hn
  have hfirst : us a < 2^d := by
    have hpos : 0 < (2^16)^(m+(n+1)) := Nat.pow_pos (by decide)
    have hscaled : us a*(2^16)^(m+(n+1)) < 2^d*(2^16)^(m+(n+1)) := by
      calc us a*(2^16)^(m+(n+1)) ≤ value (2^16) us a (m+(n+1)+1) := by
            rw [value_succ]
            exact Nat.le_add_right _ _
        _ = U*2^d := hU
        _ < (2^16)^(m+(n+1))*2^d := Nat.mul_lt_mul_of_pos_right hUlt (Nat.two_pow_pos d)
        _ = 2^d*(2^16)^(m+(n+1)) := Nat.mul_comm _ _
    exact lt_of_mul_lt_mul_right hscaled hpos.le
  have hrest : value (2^16) us (a+1) n < (2^16)^n := value_lt fun i hi => by
    rw [Nat.add_assoc]
    exact hus (1+i) (by omega)
  rw [hV,value_succ]
  calc us a*(2^16)^n+value (2^16) us (a+1) n < (us a+1)*(2^16)^n := by
        rw [Nat.succ_mul]
        exact Nat.add_lt_add_left hrest _
    _ ≤ 2^d*(2^16)^n := Nat.mul_le_mul_right _ hfirst
    _ ≤ V*2^d := by
      rw [Nat.mul_comm]
      exact Nat.mul_le_mul_right _ hVge

end Quads

section Divide
variable {d : ℕ}

/-- D1 shifts nothing out of the first digit. -/
theorem shifted {i : ℕ} {p : ℕ → ℕ} (len : ℕ) (hd : d ≤ 16) (hfirst : p i*2^d < 2^16) (hp : ∀ j ≤ len, p (i+j) < 2^16) :
    value (2^16) (if 0 < d then shl d len i p else p) i (len+1) = value (2^16) p i (len+1)*2^d ∧
      (∀ j ≤ len, (if 0 < d then shl d len i p else p) (i+j) < 2^16) ∧
      ∀ j, j < i ∨ i+len < j → (if 0 < d then shl d len i p else p) j = p j := by
  split_ifs with hpos
  · obtain ⟨hval,hdig,hrest⟩ := shl_spec hd len i hp
    have hnone : p i/2^(16-d) = 0 := by
      apply Nat.div_eq_of_lt
      apply lt_of_mul_lt_mul_right _ (Nat.zero_le (2^d))
      rwa [← Nat.pow_add,Nat.sub_add_cancel hd]
    rw [hnone,Nat.zero_mul,Nat.add_zero] at hval
    exact ⟨hval,hdig,hrest⟩
  · obtain rfl := Nat.eq_zero_of_not_pos hpos
    exact ⟨by simp,hp,fun _ _ => rfl⟩

/-- The remainder is shifted back to what it is. -/
theorem unshifted {r : ℕ} {p : ℕ → ℕ} (um k : ℕ) (hd : d ≤ 16) (hp : ∀ i ≤ k, p (um+i) < 2^16) (hzero : p um = 0)
    (hr : value (2^16) p (um+1) k = r*2^d) :
    value (2^16) (if d ≠ 0 then unshift d um k p else p) (um+1) k = r ∧
      (∀ i ≤ k, (if d ≠ 0 then unshift d um k p else p) (um+i) < 2^16) ∧
      ∀ i, i ≤ um → (if d ≠ 0 then unshift d um k p else p) i = p i := by
  split_ifs with hne
  · obtain ⟨hval,hdig,hfirst,hrest⟩ := unshift_spec hd k hp
    rw [hzero,Nat.zero_mod,Nat.zero_mul,Nat.add_zero,hr] at hval
    refine ⟨(digits_unique (Nat.mod_lt _ (Nat.two_pow_pos d)) (Nat.two_pow_pos d) hval).1,hdig,fun i hi => ?_⟩
    obtain rfl | hlt := Nat.eq_or_lt_of_le hi
    · rw [hfirst,hzero]
    · exact hrest i (.inl hlt)
  · obtain rfl := not_not.mp hne
    exact ⟨by simpa using hr,hp,fun _ _ => rfl⟩

variable {us vs qs : ℕ → ℕ} {u m v n : ℕ}

/-- D1 to D8 for a divisor of at least two digits. -/
theorem divide_spec (hn : 2 ≤ n) (hvn : v+n = 4) (hun : u+m+n = 4) (hus : ∀ i ≤ 4, us i < 2^16)
    (hvs : ∀ i < 4, vs (1+i) < 2^16) (hv1 : vs (v+1) ≠ 0) (hzero : ∀ i ≤ u, us i = 0) (hqs : ∀ i < 4-m, qs i = 0)
    (hd : vs (v+1)*2^d < 2^16) (hd16 : d ≤ 16) {u' q' : ℕ → ℕ}
    (h : divLoop (if 0 < d then shl d (n-1) (v+1) vs else vs) v n u (4-m) (m+1) 0
      (if 0 < d then shl d (m+n) u us else us,qs) = (u',q')) :
    ofDigits q' = value (2^16) us u (m+n+1)/value (2^16) vs (v+1) n ∧
      ofDigits (if d ≠ 0 then unshift d (u+m) n u' else u') =
        value (2^16) us u (m+n+1)%value (2^16) vs (v+1) n := by
  obtain ⟨U,hU⟩ : ∃ U, U = value (2^16) us u (m+n+1) := ⟨_,rfl⟩
  obtain ⟨V,hV⟩ : ∃ V, V = value (2^16) vs (v+1) n := ⟨_,rfl⟩
  have hUlt : U < (2^16)^(m+n) := by
    rw [hU,value_succ,hzero u le_rfl,Nat.zero_mul,Nat.zero_add]
    exact value_lt fun i hi => hus _ (by omega)
  have hVge : (2^16)^(n-1) ≤ V := by
    obtain ⟨k,rfl⟩ := Nat.exists_eq_add_of_le' (show 1 ≤ n by omega)
    rw [hV,value_succ,Nat.add_sub_cancel]
    exact (Nat.le_mul_of_pos_left _ (Nat.pos_of_ne_zero hv1)).trans (Nat.le_add_right _ _)
  have hVpos : 0 < V := (Nat.pow_pos (by decide)).trans_le hVge
  obtain ⟨hval,hdig,hrest⟩ := shifted (m+n) hd16 (by rw [hzero u le_rfl]; simp) fun j hj => hus (u+j) (by omega)
  obtain ⟨hval',hdig',-⟩ := shifted (n-1) hd16 hd fun j hj => by
    rw [Nat.add_right_comm]
    have := hvs (v+j) (by omega)
    rwa [Nat.add_comm 1] at this
  generalize (if 0 < d then shl d (m+n) u us else us) = us₁ at hval hdig hrest h
  generalize (if 0 < d then shl d (n-1) (v+1) vs else vs) = vs₁ at hval' hdig' h
  rw [Nat.sub_add_cancel (by omega),← hV] at hval'
  rw [← hU,← hV]
  rw [← hU] at hval
  have hfirst : 0 < vs₁ (v+1) := Nat.pos_of_ne_zero fun h0 => by
    obtain ⟨k,rfl⟩ := Nat.exists_eq_add_of_le' (show 1 ≤ n by omega)
    have hlow : value (2^16) vs₁ (v+1+1) k < (2^16)^k := value_lt fun i hi => by
      have := hdig' (i+1) (by omega)
      rwa [Nat.add_comm i,← Nat.add_assoc] at this
    have hscale := Nat.le_mul_of_pos_right V (Nat.two_pow_pos d)
    rw [value_succ,h0,Nat.zero_mul,Nat.zero_add] at hval'
    rw [Nat.add_sub_cancel] at hVge
    omega
  obtain ⟨hsum,hr,hdigr,hzeros,hkeep⟩ := divLoop_spec hn (fun j hj => hdig' j (by omega)) hfirst (m+1) 0
    (fun i hi => hdig i (by omega)) (top_lt (by omega) hdig hval hval' hUlt hVge) h
  rw [Nat.add_zero,Nat.add_zero (4-m),show n+(m+1) = m+n+1 by omega,hval,hval'] at hsum
  rw [Nat.add_zero,hval'] at hr
  rw [Nat.add_zero] at hdigr
  simp only [Nat.add_zero] at hzeros hkeep
  obtain ⟨hquot,hrem⟩ : value (2^16) q' (4-m) (m+1) = U/V ∧ value (2^16) u' (u+(m+1)) n = U%V*2^d := by
    have hpow := Nat.two_pow_pos d
    obtain ⟨hdiv,hmod⟩ := (Nat.div_mod_unique (Nat.mul_pos hVpos hpow)).mpr
      ⟨show value (2^16) u' (u+(m+1)) n+V*2^d*value (2^16) q' (4-m) (m+1) = U*2^d by rw [hsum]; ring,hr⟩
    rw [Nat.mul_div_mul_right _ _ hpow] at hdiv
    rw [Nat.mul_mod_mul_right] at hmod
    exact ⟨hdiv.symm,hmod.symm⟩
  constructor
  · have hq : ∀ i < 4, q' (1+i) < 2^16 := fun i hi => by
      by_cases hin : 1+i < 4-m
      · rw [(hkeep (1+i)).2 hin,hqs (1+i) hin]
        decide
      · obtain ⟨k,hk⟩ := Nat.exists_eq_add_of_le (Nat.le_of_not_lt hin)
        rw [hk]
        exact (hzeros k (by omega)).2
    have hlead : value (2^16) q' 1 (3-m) = 0 := value_eq_zero fun i hi => by
      rw [(hkeep (1+i)).2 (by omega),hqs (1+i) (by omega)]
    rw [ofDigits_eq hq,show 4 = (3-m)+(m+1) by omega,value_append,hlead,Nat.zero_mul,Nat.zero_add,← hquot]
    congr 1
    omega
  · obtain ⟨hback,hdigb,hkeepb⟩ := unshifted (r := U%V) (p := u') (u+m) n hd16 (fun i hi => by
      cases i with
      | zero => rw [Nat.add_zero,(hzeros m (by omega)).1]; decide
      | succ i =>
        have := hdigr i (by omega)
        rwa [show u+(m+1)+i = u+m+(i+1) by omega] at this) (hzeros m (by omega)).1 hrem
    generalize (if d ≠ 0 then unshift d (u+m) n u' else u') = u'' at hback hdigb hkeepb
    have hfront : ∀ i ≤ u+m, u'' i = 0 := fun i hi => by
      rw [hkeepb i hi]
      by_cases hiu : i < u
      · rw [(hkeep i).1 hiu,hrest i (.inl hiu),hzero i (by omega)]
      · obtain ⟨k,rfl⟩ := Nat.exists_eq_add_of_le (Nat.le_of_not_lt hiu)
        exact (hzeros k (by omega)).1
    have hr4 : ∀ i < 4, u'' (1+i) < 2^16 := fun i hi => by
      by_cases hin : 1+i ≤ u+m
      · rw [hfront _ hin]
        decide
      · obtain ⟨k,hk⟩ := Nat.exists_eq_add_of_le (Nat.le_of_not_le hin)
        rw [hk]
        exact hdigb k (by omega)
    have hlead : value (2^16) u'' 1 (u+m) = 0 := value_eq_zero fun i hi => hfront _ (by omega)
    rw [ofDigits_eq hr4,show 4 = u+m+n by omega,value_append,hlead,Nat.zero_mul,Nat.zero_add,Nat.add_comm 1,hback]

end Divide

section Whole
variable (stack : ℕ → ℕ)

theorem shiftCount_le (fuel t : ℕ) : shiftCount fuel t ≤ fuel := by
  induction fuel generalizing t with
  | zero => exact le_rfl
  | succ fuel ih =>
    rw [shiftCount]
    split_ifs
    · exact Nat.succ_le_succ (ih _)
    · exact Nat.zero_le _

/-- A divisor of `n` digits leaves a digit of the dividend that is not 0. -/
theorem exists_digit {us : ℕ → ℕ} {n V : ℕ} (hn : 0 < n) (hn4 : n ≤ 4) (hus : ∀ i ≤ 4, us i < 2^16)
    (hle : V ≤ value (2^16) us 1 4) (hVge : (2^16)^(n-1) ≤ V) : ∃ i ≤ 4-n, us (0+1+i) ≠ 0 := by
  by_contra hnone
  push Not at hnone
  have hlead : value (2^16) us 1 (4-n+1) = 0 := value_eq_zero fun i hi => by
    have := hnone i (by omega)
    rwa [Nat.zero_add] at this
  rw [show 4 = (4-n+1)+(n-1) by omega,value_append,hlead,Nat.zero_mul,Nat.zero_add] at hle
  have hlow : value (2^16) us (1+(4-n+1)) (n-1) < (2^16)^(n-1) := value_lt fun i hi => hus _ (by omega)
  omega

theorem qdivrem_eq {uq vq : ℕ} (hu : uq < 2^64) (hv : vq < 2^64) (hv0 : vq ≠ 0) :
    qdivrem stack uq vq = some (uq/vq,uq%vq) := by
  rw [qdivrem,if_neg hv0]
  split_ifs with hlt
  · rw [Nat.div_eq_of_lt hlt,Nat.mod_eq_of_lt hlt]
  obtain ⟨us,hus⟩ : ∃ us, us = Function.update (setDigits stack uq) 0 0 := ⟨_,rfl⟩
  obtain ⟨vs,hvs⟩ : ∃ vs, vs = setDigits stack vq := ⟨_,rfl⟩
  have hvlt : ∀ i < 4, vs (1+i) < 2^16 := hvs ▸ setDigits_lt hv
  have hult : ∀ i ≤ 4, us i < 2^16 := fun i hi => by
    cases i with
    | zero => simp [hus]
    | succ i =>
      rw [hus,Function.update_of_ne (by omega),Nat.add_comm]
      exact setDigits_lt hu i (by omega)
  have hu0 : us 0 = 0 := by rw [hus,Function.update_self]
  have hUval : value (2^16) us 1 4 = uq := by
    rw [hus,value_update_of_le (.inl (by decide)),value_setDigits]
  have hVval : value (2^16) vs 1 4 = vq := by rw [hvs,value_setDigits]
  rw [← hus,← hvs]
  obtain ⟨v,hskip,hsum,hzero⟩ | ⟨v,n,hskip,hn,hsum,hne,hzero⟩ := skipDivisor_spec (p := vs) (v := 0) (show 2 ≤ 4 by decide)
  · obtain rfl : v = 2 := by omega
    have hshort : vs 4 = vq := by
      rw [← hVval,value_succ,value_succ,value_succ,value_succ,hzero 1 (by decide) (by decide),
        hzero (1+1) (by decide) (by decide),hzero (1+1+1) (by decide) (by decide)]
      simp
    simp only [hskip,if_true]
    rw [hshort,divShort_spec (Nat.pos_of_ne_zero hv0) (hshort ▸ hvlt 3 (by decide)) fun i hi => hult _ (by omega),hUval]
  · have hV : value (2^16) vs (v+1) n = vq := by
      rw [← hVval,show 4 = v+n by omega,value_append,value_eq_zero fun i hi => hzero (1+i) (by omega) (by omega),
        Nat.zero_mul,Nat.zero_add,Nat.add_comm]
    have hVge : (2^16)^(n-1) ≤ vq := by
      obtain ⟨k,rfl⟩ := Nat.exists_eq_add_of_le' (show 1 ≤ n by omega)
      rw [← hV,value_succ,Nat.add_sub_cancel]
      exact (Nat.le_mul_of_pos_left _ (Nat.pos_of_ne_zero hne)).trans (Nat.le_add_right _ _)
    obtain ⟨u,m,hdividend,hum,-,huz⟩ := skipDividend_spec
      (exists_digit (by omega) (by omega) hult (hUval ▸ Nat.le_of_not_lt hlt) hVge)
    have hzeros : ∀ i ≤ u, us i = 0 := fun i hi => by
      cases i with
      | zero => exact hu0
      | succ i => exact huz _ (by omega) hi
    have hU : value (2^16) us u (m+n+1) = uq := by
      rw [← value_skip fun i hi => hzeros i hi.le,show u+(m+n+1) = 4+1 by omega,value_succ,hu0,Nat.zero_mul,Nat.zero_add,
        Nat.zero_add,hUval]
    have htop := hvlt v (by omega)
    rw [Nat.add_comm 1] at htop
    have hshift := shiftCount_spec 16 (Nat.pos_of_ne_zero hne) htop (Nat.le_mul_of_pos_left _ (Nat.pos_of_ne_zero hne))
    simp only [hskip,hdividend]
    rw [if_neg (by omega)]
    generalize hloop : divLoop _ _ _ _ _ _ _ _ = s
    obtain ⟨u',q'⟩ := s
    obtain ⟨hquot,hrem⟩ := divide_spec hn (by omega) (by omega) hult hvlt hne hzeros (fun i hi => if_pos hi) hshift
      (shiftCount_le 16 _) hloop
    rw [hU,hV] at hquot hrem
    rw [hquot,hrem]

theorem udivdi3_eq (a b : BitVec 64) (hb : b ≠ 0) : udivdi3 stack a b = some (a/b) := by
  rw [udivdi3,qdivrem_eq stack a.isLt b.isLt (by simpa using BitVec.toNat_ne.mp hb),Option.map_some,BitVec.udiv_def]

theorem umoddi3_eq (a b : BitVec 64) (hb : b ≠ 0) : umoddi3 stack a b = some (a%b) := by
  rw [umoddi3,qdivrem_eq stack a.isLt b.isLt (by simpa using BitVec.toNat_ne.mp hb),Option.map_some,BitVec.umod_def]

/-- The wrappers divide the magnitudes and set the sign. -/
theorem signed_eq (a b : BitVec 64) (hb : b ≠ 0) :
    divdi3 stack a b = some (a.sdiv b) ∧ moddi3 stack a b = some (a.srem b) := by
  have hneg : -b ≠ 0 := by simpa using hb
  rw [BitVec.sdiv_eq,BitVec.srem_eq]
  have hdiv := fun x => udivdi3_eq stack x b hb
  have hdiv' := fun x => udivdi3_eq stack x (-b) hneg
  have hmod := fun x => umoddi3_eq stack x b hb
  have hmod' := fun x => umoddi3_eq stack x (-b) hneg
  cases ha : a.msb <;> cases hbm : b.msb <;> simp [divdi3,moddi3,ha,hbm,hdiv,hdiv',hmod,hmod']

/-- Algorithm D gives the quotient and the remainder of every two quads, and the wrappers truncate toward 0. -/
theorem division_truncates (a b : BitVec 64) (hb : b ≠ 0) :
    qdivrem stack a.toNat b.toNat = some (a.toNat/b.toNat,a.toNat%b.toNat) ∧
      (¬(a = BitVec.intMin 64 ∧ b = -1) → ∃ q r, divdi3 stack a b = some q ∧ moddi3 stack a b = some r ∧
        q.toInt = a.toInt.tdiv b.toInt ∧ r.toInt = a.toInt.tmod b.toInt) := by
  refine ⟨qdivrem_eq stack a.isLt b.isLt (by simpa using BitVec.toNat_ne.mp hb),fun hover => ?_⟩
  obtain ⟨hdiv,hmod⟩ := signed_eq stack a b hb
  exact ⟨_,_,hdiv,hmod,BitVec.toInt_sdiv_of_ne_or_ne a b (not_and_or.mp hover),BitVec.toInt_srem a b⟩

/-- A dividend whose second digit is estimated one too large, and a negative one. -/
theorem division_truncates_addBack :
    qdivrem (fun _ => 0) 0x7fff800000000000 0x800000000001 = some (65534,140737488289794) ∧
      ∃ q r, divdi3 (fun _ => 0) (-7) 2 = some q ∧ moddi3 (fun _ => 0) (-7) 2 = some r ∧ q.toInt = -3 ∧ r.toInt = -1 :=
  ⟨(division_truncates _ 0x7fff800000000000#64 0x800000000001#64 (by decide)).1,
    (division_truncates _ (-7) 2 (by decide)).2 (by decide)⟩

end Whole

end Blub.Stand.Quad
