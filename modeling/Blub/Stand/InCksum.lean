import Blub.Lib.OnesSum
import Blub.Lib.Slice

/-! The Internet checksum, `in_cksum`. -/
namespace Blub.Stand
open Blub.Bytes

/-- The variables of `in_cksum`. -/
structure Cksum where
  len : ℤ
  cp : ℕ
  sum : ℕ
  oddbyte : Bool
  v : ℕ

section Code
variable (mem : ℕ → UInt8)

/-- The inner loops, with the word that a turn takes at `cp`. Each turn takes two of at most `2*fuel` bytes. -/
def cksumWords (word : ℕ → ℕ) : ℕ → Cksum → Cksum
  | 0, s => s
  | fuel+1, s =>
    let s := {s with len := s.len-2}
    if 0 ≤ s.len then cksumWords word fuel {s with sum := s.sum+word s.cp, cp := s.cp+2} else s

def evenWord (cp : ℕ) : ℕ := leGet mem cp 2
def oddWord (cp : ℕ) : ℕ := (mem cp).toNat+(mem (cp+1)).toNat <<< 8

def cksumTurn (s : Cksum) : Cksum :=
  let s := if s.oddbyte then {s with sum := s.sum+(s.v+(mem s.cp).toNat), cp := s.cp+1, len := s.len-1} else s
  let fuel := s.len.toNat/2+1
  let s := if s.cp%2 = 0 then cksumWords (evenWord mem) fuel s else cksumWords (oddWord mem) fuel s
  if s.len%2 = 1 then {s with oddbyte := true, v := (mem s.cp).toNat} else {s with oddbyte := false}

def cksumLoop : ℕ → Cksum → Cksum
  | 0, s => s
  | fuel+1, s => if 0 < s.len then cksumLoop fuel (cksumTurn mem s) else s

/-- `in_cksum`, on a little-endian host. The sum of fewer than 2^16 bytes is an `int`. -/
def inCksum (p : ℕ) (len : ℤ) : ℕ :=
  let s := cksumLoop mem (len.toNat+1) ⟨len,p,0,false,0⟩
  let sum := if s.oddbyte then s.sum+s.v else s.sum
  let sum := sum >>> 16+sum%2^16
  let sum := sum+sum >>> 16
  0xffff-sum%2^16

attribute [local grind =] cksumWords cksumLoop

end Code

/-- The words of a text of bytes, the first byte of each the low one; an odd byte at the end has a zero after it. -/
def words : List UInt8 → List ℕ
  | [] => []
  | [a] => [a.toNat]
  | a :: b :: l => (a.toNat+256*b.toNat) :: words l

/-- The Internet checksum: the complement of the one's complement sum. -/
def internetChecksum (l : List UInt8) : ℕ := 0xffff-OnesSum.sum (words l)

attribute [local grind =] words

theorem words_lt {l : List UInt8} {w : ℕ} (h : w ∈ words l) : w < 2^16 := by
  induction l using words.induct with
  | case1 => cases h
  | case2 a =>
    obtain rfl := List.mem_singleton.mp h
    exact a.toNat_lt.trans (by decide)
  | case3 a b l ih =>
    obtain rfl | h := List.mem_cons.mp h
    · have ha := a.toNat_lt
      have hb := b.toNat_lt
      omega
    · exact ih h

/-- A text of an even number of bytes may be cut off in front. -/
theorem words_append {l l' : List UInt8} (h : l.length%2 = 0) : words (l ++ l') = words l ++ words l' := by
  induction l using words.induct with
  | case1 => rfl
  | case2 a => simp at h
  | case3 a b l ih =>
    rw [List.length_cons,List.length_cons] at h
    simp [words,ih (by omega)]

section Sum
variable {mem : ℕ → UInt8}

theorem oddWord_eq (cp : ℕ) : oddWord mem cp = evenWord mem cp := by
  simp [oddWord,evenWord,leGet,Nat.shiftLeft_eq]
  omega

/-- The words of the `2*k` bytes in front of the last `r` are added up. -/
theorem cksumWords_spec (k r : ℕ) (hr : r < 2) {s : Cksum} (hs : s.len = 2*k+r) :
    cksumWords (evenWord mem) (k+1) s =
      {s with len := r-2, cp := s.cp+2*k, sum := s.sum+(words (slice mem s.cp (2*k))).sum} := by
  induction k generalizing s with
  | zero =>
    have hlt : ¬ 0 ≤ s.len-2 := by omega
    simp only [cksumWords,if_neg hlt]
    simp [slice,words,hs]
  | succ k ih =>
    have hge : 0 ≤ s.len-2 := by omega
    rw [cksumWords]
    simp only [if_pos hge]
    rw [ih (by push_cast at hs ⊢; omega)]
    have hslice : slice mem s.cp (2*(k+1)) = mem s.cp :: mem (s.cp+1) :: slice mem (s.cp+2) (2*k) := rfl
    have hword : evenWord mem s.cp = (mem s.cp).toNat+256*(mem (s.cp+1)).toNat := by simp [evenWord,leGet]
    simp only [hslice,words,List.sum_cons,hword,Cksum.mk.injEq,true_and,and_true]
    constructor
    · omega
    · omega

theorem cksumTurn_spec (n p : ℕ) :
    let s := cksumTurn mem ⟨n,p,0,false,0⟩
    s.len < 0 ∧ (if s.oddbyte then s.sum+s.v else s.sum) = (words (slice mem p n)).sum := by
  have hodd : oddWord mem = evenWord mem := funext oddWord_eq
  have hloop := @cksumWords_spec mem (n/2) (n%2) (Nat.mod_lt _ (by decide)) (s := ⟨n,p,0,false,0⟩)
    (by simp only; omega)
  simp only [cksumTurn,Bool.false_eq_true,if_false,hodd,ite_self,Int.toNat_natCast,hloop,Nat.zero_add]
  have hsplit : slice mem p n = slice mem p (2*(n/2)) ++ slice mem (p+2*(n/2)) (n%2) := by
    rw [← slice_append,Nat.div_add_mod]
  have hwords : words (slice mem p n) = words (slice mem p (2*(n/2))) ++ words (slice mem (p+2*(n/2)) (n%2)) := by
    rw [hsplit,words_append (by simp)]
  obtain h | h := Nat.mod_two_eq_zero_or_one n
  · simp [h,hwords,slice,words]
  · simp [h,hwords,slice,words]

theorem words_sum_lt (l : List UInt8) : (words l).sum ≤ (l.length+1)/2*65535 := by
  induction l using words.induct with
  | case1 => simp [words]
  | case2 a =>
    have ha := a.toNat_lt
    simp [words]
    omega
  | case3 a b l ih =>
    have ha := a.toNat_lt
    have hb := b.toNat_lt
    simp only [words,List.sum_cons,List.length_cons]
    omega

theorem word_fold (n : ℕ) : OnesSum.word (n >>> 16+n%2^16) = OnesSum.word n := by
  have hn : n = 65535*(n/2^16)+(n/2^16+n%2^16) := by omega
  rw [Nat.shiftRight_eq_div_pow]
  generalize n/2^16+n%2^16 = m at hn
  unfold OnesSum.word
  split_ifs
  · rfl
  · omega
  · omega
  · rw [hn,Nat.add_sub_assoc (by omega),Nat.mul_add_mod]

/-- The two folds at the end bring all carries back. -/
theorem fold_eq {n : ℕ} (h : n < 2^31) :
    ((n >>> 16+n%2^16)+(n >>> 16+n%2^16) >>> 16)%2^16 = OnesSum.word n := by
  have hlt : n >>> 16+n%2^16 < 2^17-1 := by
    rw [Nat.shiftRight_eq_div_pow]
    omega
  rw [← word_fold n]
  generalize n >>> 16+n%2^16 = m at hlt
  rw [Nat.shiftRight_eq_div_pow]
  by_cases hm : m < 2^16
  · rw [OnesSum.word_of_lt hm,Nat.div_eq_of_lt hm,Nat.add_zero,Nat.mod_eq_of_lt hm]
  · have hdiv : m/2^16 = 1 := by omega
    have hne : m ≠ 0 := by omega
    rw [hdiv,OnesSum.word,if_neg hne]
    omega

/-- `in_cksum` is the Internet checksum, at even and at odd addresses. -/
theorem inCksum_eq (p : ℕ) {n : ℕ} (hn : n < 2^16) : inCksum mem p n = internetChecksum (slice mem p n) := by
  have hsum : OnesSum.sum (words (slice mem p n)) = OnesSum.word (words (slice mem p n)).sum :=
    OnesSum.sum_eq fun w hw => words_lt hw
  have hle := words_sum_lt (slice mem p n)
  rw [length_slice] at hle
  cases n with
  | zero => simp [inCksum,cksumLoop,internetChecksum,slice,words,OnesSum.sum]
  | succ n =>
    obtain ⟨hlen,hval⟩ := @cksumTurn_spec mem (n+1) p
    have hloop : cksumLoop mem (n+1+1) ⟨(n+1 : ℕ),p,0,false,0⟩ = cksumTurn mem ⟨(n+1 : ℕ),p,0,false,0⟩ := by
      rw [cksumLoop,if_pos (by simp only; omega),cksumLoop,if_neg (by omega)]
    simp only [inCksum,Int.toNat_natCast,hloop,hval,internetChecksum,hsum]
    rw [fold_eq (by omega)]

end Sum

end Blub.Stand
