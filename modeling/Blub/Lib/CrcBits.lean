import Mathlib.Data.Nat.Bitwise
import Mathlib.Logic.Function.Iterate
import Mathlib.Tactic

/-! Remainders of a reflected CRC, a bit at a time. The step is linear in exclusive or, so that a table of the remainders
of single bytes does the work of eight steps, and tables for later bytes that of many. -/
namespace Blub.CrcBits

variable (poly : ℕ)

def bitStep (c : ℕ) : ℕ := c/2 ^^^ c%2*poly

/-- The remainder after `n` more bits 0. -/
def bits (n c : ℕ) : ℕ := (bitStep poly)^[n] c

/-- The remainders of all bytes, `n` bits later. -/
def byteTable (n : ℕ) : List ℕ := (List.range 256).map (bits poly n)

/-- A byte is taken in with a table for eight bits. -/
def feed (table : List ℕ) (c b : ℕ) : ℕ := table.getD ((c ^^^ b) &&& 0xff) 0 ^^^ (c >>> 8)

/-- The number in the bytes, the least significant one first. -/
def word : List ℕ → ℕ
  | [] => 0
  | b :: l => b+256*word l

attribute [local grind =] word

variable {poly}

theorem bitStep_xor (a b : ℕ) : bitStep poly (a ^^^ b) = bitStep poly a ^^^ bitStep poly b := by
  rw [bitStep,bitStep,bitStep,Nat.xor_div_two,Nat.xor_mod_two_eq,Nat.add_mod]
  rcases Nat.mod_two_eq_zero_or_one a with ha | ha <;> rcases Nat.mod_two_eq_zero_or_one b with hb | hb <;>
    simp only [ha,hb,Nat.zero_mul,Nat.one_mul,Nat.xor_zero,Nat.zero_mod,Nat.add_zero,Nat.zero_add,Nat.mod_self,
      Nat.one_mod]
  · rw [Nat.xor_assoc]
  · rw [Nat.xor_assoc,Nat.xor_assoc,Nat.xor_comm poly (b/2)]
  · rw [Nat.xor_assoc,Nat.xor_comm poly,Nat.xor_assoc,Nat.xor_self,Nat.xor_zero]

theorem bits_add (m n c : ℕ) : bits poly (m+n) c = bits poly m (bits poly n c) := Function.iterate_add_apply _ m n c

theorem bits_xor (n a b : ℕ) : bits poly n (a ^^^ b) = bits poly n a ^^^ bits poly n b := by
  induction n with
  | zero => rfl
  | succ n ih => rw [Nat.add_comm,bits_add,bits_add,bits_add,ih]; exact bitStep_xor _ _

/-- The remainder stays in the width of the polynomial. -/
theorem bits_lt {w c : ℕ} (hpoly : poly < 2^w) (hc : c < 2^w) (n : ℕ) : bits poly n c < 2^w := by
  induction n with
  | zero => exact hc
  | succ n ih =>
    rw [Nat.add_comm,bits_add]
    refine Nat.xor_lt_two_pow (lt_of_le_of_lt (Nat.div_le_self _ 2) ih) ?_
    rcases Nat.mod_two_eq_zero_or_one (bits poly n c) with h | h
    · rw [h,Nat.zero_mul]
      exact Nat.two_pow_pos w
    · rwa [h,Nat.one_mul]

/-- Bits 0 at the lower end only move the others down. -/
theorem bits_shift (n c : ℕ) : bits poly n (2^n*c) = c := by
  induction n with
  | zero => simp [bits]
  | succ n ih =>
    have hstep : bits poly 1 (2*(2^n*c)) = 2^n*c := by simp [bits,bitStep]
    rw [bits_add,Nat.pow_succ',Nat.mul_assoc,hstep,ih]

theorem xor_add_mul {b : ℕ} (hb : b < 256) (c : ℕ) : b ^^^ 256*c = b+256*c := by
  have hmod := @Nat.xor_mod_two_pow b (256*c) 8
  have hdiv := @Nat.xor_div_two_pow b (256*c) 8
  norm_num [Nat.mod_eq_of_lt hb,Nat.div_eq_of_lt hb] at hmod hdiv
  omega

/-- The lowest byte and the others. -/
theorem bits_byte (n x : ℕ) : bits poly (n+8) x = bits poly (n+8) (x &&& 0xff) ^^^ bits poly n (x >>> 8) := by
  have hsplit : x = (x &&& 0xff) ^^^ 256*(x >>> 8) := by
    have hmask : x &&& 0xff = x%256 := Nat.and_two_pow_sub_one_eq_mod x 8
    have hlt : x &&& 0xff < 256 := hmask ▸ Nat.mod_lt x (by decide)
    rw [xor_add_mul hlt,hmask,Nat.shiftRight_eq_div_pow]
    omega
  have hshift : bits poly (n+8) (256*(x >>> 8)) = bits poly n (x >>> 8) := by
    rw [bits_add]
    exact congrArg _ (bits_shift 8 _)
  rw [← hshift,← bits_xor,← hsplit]

/-- The four bytes of a word. -/
theorem bits_word {x : ℕ} (hx : x < 2^32) (n : ℕ) : bits poly (n+32) x =
    bits poly (n+32) (x &&& 0xff) ^^^ bits poly (n+24) (x >>> 8 &&& 0xff) ^^^ bits poly (n+16) (x >>> 16 &&& 0xff) ^^^
      bits poly (n+8) (x >>> 16 >>> 8 &&& 0xff) := by
  have hlast : x >>> 16 >>> 8 >>> 8 = 0 := by
    rw [← Nat.shiftRight_add,← Nat.shiftRight_add,Nat.shiftRight_eq_div_pow]
    exact Nat.div_eq_of_lt hx
  have hzero : bits poly n 0 = 0 := by simpa using @bits_xor poly n 0 0
  rw [bits_byte (n+24),bits_byte (n+16),bits_byte (n+8) (x >>> 8 >>> 8),← Nat.shiftRight_add x 8 8,bits_byte n,hlast,
    hzero,Nat.xor_zero,Nat.xor_assoc,Nat.xor_assoc]

theorem byteTable_getD {i : ℕ} (n : ℕ) (hi : i < 256) : (byteTable poly n).getD i 0 = bits poly n i := by
  rw [byteTable,List.getD_eq_getElem _ _ (by simpa using hi)]
  simp

theorem feed_eq {table : List ℕ} (ht : table = byteTable poly 8) (c : ℕ) {b : ℕ} (hb : b < 256) :
    feed table c b = bits poly 8 (c ^^^ b) := by
  have hmask : (c ^^^ b) &&& 0xff < 256 := lt_of_le_of_lt Nat.and_le_right (by decide)
  have hshift : (c ^^^ b) >>> 8 = c >>> 8 := by
    rw [Nat.shiftRight_xor_distrib,Nat.shiftRight_eq_div_pow b,Nat.div_eq_of_lt hb,Nat.xor_zero]
  rw [feed,ht,byteTable_getD 8 hmask,← hshift]
  exact (bits_byte 0 (c ^^^ b)).symm

/-- Bytes taken in one after the other are taken in as one number. -/
theorem feeds_eq {table : List ℕ} (ht : table = byteTable poly 8) (c : ℕ) {l : List ℕ} (hl : ∀ b ∈ l, b < 256) :
    l.foldl (feed table) c = bits poly (8*l.length) (c ^^^ word l) := by
  induction l generalizing c with
  | nil => simp [bits,word]
  | cons b l ih =>
    have hb := hl b List.mem_cons_self
    have hword : bits poly 8 (256*word l) = word l := bits_shift 8 _
    rw [List.foldl_cons,feed_eq ht c hb,ih _ fun b hb => hl b (List.mem_cons_of_mem _ hb)]
    nth_rewrite 1 [← hword]
    rw [← bits_xor,← bits_add,Nat.xor_assoc,xor_add_mul hb,word,List.length_cons,Nat.mul_succ]

/-- No remainder is lost on the way, if the polynomial has its highest bit. -/
theorem bits_eq_zero {w : ℕ} (hlow : 2^w ≤ poly) (hpoly : poly < 2^(w+1)) (n : ℕ) {c : ℕ} (hc : c < 2^(w+1))
    (h : bits poly n c = 0) : c = 0 := by
  induction n with
  | zero => exact h
  | succ n ih =>
    rw [Nat.add_comm,bits_add] at h
    have hlt := bits_lt hpoly hc n
    have hstep : bits poly n c/2 ^^^ bits poly n c%2*poly = 0 := h
    rw [pow_succ] at hlt
    rcases Nat.mod_two_eq_zero_or_one (bits poly n c) with heven | hodd
    · rw [heven,Nat.zero_mul,Nat.xor_zero] at hstep
      exact ih (by omega)
    · rw [hodd,Nat.one_mul,Nat.xor_eq_zero_iff] at hstep
      omega

theorem bits_injective {w : ℕ} (hlow : 2^w ≤ poly) (hpoly : poly < 2^(w+1)) (n : ℕ) {a b : ℕ} (hab : a ^^^ b < 2^(w+1))
    (h : bits poly n a = bits poly n b) : a = b := by
  refine Nat.xor_eq_zero_iff.mp (bits_eq_zero hlow hpoly n hab ?_)
  rw [bits_xor,h,Nat.xor_self]

theorem word_lt {l : List ℕ} (hl : ∀ b ∈ l, b < 256) : word l < 256^l.length := by
  induction l with
  | nil => decide
  | cons b l ih =>
    have hb := hl b List.mem_cons_self
    have hrest := ih fun x hx => hl x (List.mem_cons_of_mem b hx)
    rw [List.length_cons,pow_succ]
    show b+256*word l < _
    omega

theorem word_injective {l l' : List ℕ} (hlen : l.length = l'.length) (hl : ∀ b ∈ l, b < 256) (hl' : ∀ b ∈ l', b < 256)
    (h : word l = word l') : l = l' := by
  induction l generalizing l' with
  | nil => exact (List.length_eq_zero_iff.mp hlen.symm).symm
  | cons b l ih =>
    obtain _ | ⟨b',l'⟩ := l'
    · cases hlen
    · have hb := hl b List.mem_cons_self
      have hb' := hl' b' List.mem_cons_self
      have hsum : b+256*word l = b'+256*word l' := h
      have hhead : b = b' := by omega
      rw [hhead,ih (Nat.succ.inj hlen) (fun x hx => hl x (List.mem_cons_of_mem b hx))
        (fun x hx => hl' x (List.mem_cons_of_mem b' hx)) (by omega)]

end Blub.CrcBits
