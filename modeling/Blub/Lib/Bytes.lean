import Mathlib.Data.List.GetD
import Mathlib.Tactic

/-! Byte memories addressed by natural numbers: copying a window, and little-endian fields of
a fixed width. A memory is a total function; the size of a buffer is kept beside it. -/
namespace Blub

/-- An allocated buffer. Only the first `size` bytes belong to it. -/
structure Buf where
  size : ℕ
  byte : ℕ → UInt8

theorem and_mask (u w k : ℕ) : u &&& (2^w-1)*2^k = u/2^k%2^w*2^k := by
  rw [← Nat.div_add_mod (u &&& (2^w-1)*2^k) (2^k),Nat.and_div_two_pow,Nat.and_mod_two_pow,
    Nat.mul_div_cancel _ (Nat.two_pow_pos k),Nat.mul_mod_left,Nat.and_zero,Nat.and_two_pow_sub_one_eq_mod,
    Nat.add_zero,Nat.mul_comm]

theorem or_mask (a : ℕ) {b i : ℕ} (h : b < 2^i) : 2^i*a ||| b = 2^i*a+b := (Nat.two_pow_add_eq_or_of_lt h a).symm

namespace Bytes

/-- Copy `n` bytes of `src` over `dst`, starting at offset `o`. -/
def blit (dst : ℕ → UInt8) (o n : ℕ) (src : ℕ → UInt8) : ℕ → UInt8 :=
  fun j => if o ≤ j ∧ j < o+n then src (j-o) else dst j

/-- The little-endian number in the `w` bytes at offset `o`. -/
def leGet (b : ℕ → UInt8) (o : ℕ) : ℕ → ℕ
  | 0 => 0
  | w+1 => (b o).toNat + 256*leGet b (o+1) w

/-- Store `v` modulo `256^w` in the `w` bytes at offset `o`, least significant byte first. -/
def lePut (b : ℕ → UInt8) (o w v : ℕ) : ℕ → UInt8 :=
  blit b o w (fun i => UInt8.ofNat (v / 256^i))

attribute [local grind =] leGet

theorem blit_inside {dst src : ℕ → UInt8} {o n j : ℕ} (h : o ≤ j) (hj : j < o+n) :
    blit dst o n src j = src (j-o) := by simp [blit, h, hj]

theorem blit_outside {dst src : ℕ → UInt8} {o n j : ℕ} (h : j < o ∨ o+n ≤ j) :
    blit dst o n src j = dst j := by
  have hn : ¬(o ≤ j ∧ j < o+n) := by omega
  simp [blit, hn]

theorem blit_congr {dst src src' : ℕ → UInt8} {o n : ℕ} (h : ∀ j < n, src j = src' j) :
    blit dst o n src = blit dst o n src' := by
  funext i
  by_cases hi : o ≤ i ∧ i < o+n
  · rw [blit_inside hi.1 hi.2,blit_inside hi.1 hi.2,h _ (by omega)]
  · rw [blit_outside (by omega),blit_outside (by omega)]

theorem blit_none (dst src : ℕ → UInt8) (o : ℕ) : blit dst o 0 src = dst := by
  funext i
  exact blit_outside (by omega)

/-- Two windows that touch and hold one piece of `src` are one window. -/
theorem blit_append {dst src src' : ℕ → UInt8} {o m n : ℕ}
    (h : ∀ j < n, src' j = src (m+j)) :
    blit (blit dst o m src) (o+m) n src' = blit dst o (m+n) src := by
  funext j
  by_cases h₁ : o+m ≤ j ∧ j < o+m+n
  · rw [blit_inside h₁.1 h₁.2, blit_inside (by omega) (by omega), h _ (by omega)]
    congr 1
    omega
  · rw [blit_outside (by omega)]
    by_cases h₂ : o ≤ j ∧ j < o+m
    · rw [blit_inside h₂.1 h₂.2, blit_inside h₂.1 (by omega)]
    · rw [blit_outside (by omega), blit_outside (by omega)]

theorem lePut_outside {b : ℕ → UInt8} {o w v j : ℕ} (h : j < o ∨ o+w ≤ j) :
    lePut b o w v j = b j := blit_outside h

theorem leGet_congr {b b' : ℕ → UInt8} {o w : ℕ}
    (h : ∀ j, o ≤ j → j < o+w → b j = b' j) : leGet b o w = leGet b' o w := by
  induction w generalizing o with
  | zero => rfl
  | succ w ih =>
    simp only [leGet]
    rw [h o le_rfl (by omega), ih (fun j h₁ h₂ => h j (by omega) (by omega))]

/-- Equal bytes in two places are equal numbers. -/
theorem leGet_shift {b b' : ℕ → UInt8} {o o' w : ℕ} (h : ∀ j < w, b (o+j) = b' (o'+j)) : leGet b o w = leGet b' o' w := by
  induction w generalizing o o' with
  | zero => rfl
  | succ w ih =>
    have hhead := h 0 (Nat.succ_pos w)
    simp only [Nat.add_zero] at hhead
    rw [leGet,leGet,hhead,ih fun j hj => ?_]
    have hnext := h (j+1) (by omega)
    rwa [show o+(j+1) = o+1+j by omega,show o'+(j+1) = o'+1+j by omega] at hnext

theorem leGet_lt (b : ℕ → UInt8) (o w : ℕ) : leGet b o w < 256^w := by
  induction w generalizing o with
  | zero => simp [leGet]
  | succ w ih =>
    have hb : (b o).toNat < 256 := (b o).toNat_lt
    have ht := ih (o+1)
    simp only [leGet, pow_succ]
    omega

/-- A field reads back the value stored in it, cut to its width. -/
theorem leGet_lePut (b : ℕ → UInt8) (o w v : ℕ) : leGet (lePut b o w v) o w = v % 256^w := by
  induction w generalizing b o v with
  | zero => simp [leGet, Nat.mod_one]
  | succ w ih =>
    have hhead : lePut b o (w+1) v o = UInt8.ofNat v := by
      rw [lePut, blit_inside le_rfl (by omega)]
      simp
    have htail : leGet (lePut b o (w+1) v) (o+1) w = leGet (lePut b (o+1) w (v/256)) (o+1) w := by
      refine leGet_congr fun j h₁ h₂ => ?_
      rw [lePut, lePut, blit_inside (by omega) (by omega), blit_inside h₁ h₂,
        show j-o = (j-(o+1))+1 by omega, pow_succ', Nat.div_div_eq_div_mul]
    have hp : (256 : ℕ)^(w+1) = 256*256^w := pow_succ' 256 w
    rw [leGet, hhead, htail, ih, UInt8.toNat_ofNat', hp, Nat.mod_mul]

theorem leGet_lePut_of_lt {b : ℕ → UInt8} {o w v : ℕ} (h : v < 256^w) :
    leGet (lePut b o w v) o w = v := by rw [leGet_lePut, Nat.mod_eq_of_lt h]

theorem ofNat_leGet_div (b : ℕ → UInt8) (o w i : ℕ) (hi : i < w) :
    UInt8.ofNat (leGet b o w / 256^i) = b (o+i) := by
  induction w generalizing o i with
  | zero => omega
  | succ w ih =>
    have hb : (b o).toNat < 256 := (b o).toNat_lt
    cases i with
    | zero =>
      apply UInt8.toNat_inj.mp
      simp only [leGet, pow_zero, Nat.div_one, UInt8.toNat_ofNat', Nat.add_zero]
      omega
    | succ i =>
      have hd : ((b o).toNat+256*leGet b (o+1) w) / 256 = leGet b (o+1) w := by omega
      rw [leGet, pow_succ', ← Nat.div_div_eq_div_mul, hd, ih (o+1) i (by omega)]
      congr 1
      omega

theorem leGet_inj {b b' : ℕ → UInt8} {o w : ℕ} (h : leGet b o w = leGet b' o w) {j : ℕ}
    (h₁ : o ≤ j) (h₂ : j < o+w) : b j = b' j := by
  have hj := ofNat_leGet_div b o w (j-o) (by omega)
  rw [h, ofNat_leGet_div b' o w (j-o) (by omega), show o+(j-o) = j by omega] at hj
  exact hj.symm

/-- A value is below `256^m` exactly when its bytes from `m` on are zero. -/
theorem leGet_lt_iff (b : ℕ → UInt8) (o w m : ℕ) :
    leGet b o w < 256^m ↔ ∀ i, m ≤ i → i < w → b (o+i) = 0 := by
  constructor
  · intro h i hm hi
    have hd : leGet b o w / 256^i = 0 :=
      Nat.div_eq_of_lt (h.trans_le (Nat.pow_le_pow_right (by omega) hm))
    rw [← ofNat_leGet_div b o w i hi, hd]
    rfl
  · intro h
    induction w generalizing o m with
    | zero => simp [leGet]
    | succ w ih =>
      have hb : (b o).toNat < 256 := (b o).toNat_lt
      simp only [leGet]
      cases m with
      | zero =>
        have h₀ := h 0 le_rfl (by omega)
        have ht := ih (o+1) 0 fun i _ hi => by
          have := h (i+1) (by omega) (by omega)
          rwa [show o+(i+1) = o+1+i by omega] at this
        rw [Nat.add_zero] at h₀
        simp only [h₀, pow_zero, UInt8.toNat_zero] at ht ⊢
        omega
      | succ m =>
        have ht := ih (o+1) m fun i hm hi => by
          have := h (i+1) (by omega) (by omega)
          rwa [show o+(i+1) = o+1+i by omega] at this
        simp only [pow_succ']
        omega

/-- Storing what a field holds changes nothing. -/
theorem lePut_leGet (b : ℕ → UInt8) (o w : ℕ) : lePut b o w (leGet b o w) = b := by
  funext j
  by_cases hj : o ≤ j ∧ j < o+w
  · rw [lePut, blit_inside hj.1 hj.2, ofNat_leGet_div b o w (j-o) (by omega)]
    congr 1
    omega
  · exact lePut_outside (by omega)

/-- Storing one field leaves every field apart from it alone. -/
theorem leGet_lePut_apart {b : ℕ → UInt8} {o w v o' w' : ℕ} (h : o'+w' ≤ o ∨ o+w ≤ o') :
    leGet (lePut b o w v) o' w' = leGet b o' w' :=
  leGet_congr fun _ _ _ => lePut_outside (by omega)

/-- The bytes of a list, with zeros after it. -/
def ofList (l : List UInt8) : ℕ → UInt8 := fun j => l.getD j 0

/-- A 32-bit word, most significant byte first. -/
def be32 (v : ℕ) : List UInt8 :=
  [UInt8.ofNat (v/2^24),UInt8.ofNat (v/2^16),UInt8.ofNat (v/2^8),UInt8.ofNat v]

/-- The big-endian word at offset `o`. -/
def beWord (b : ℕ → UInt8) (o : ℕ) : ℕ :=
  (((b o).toNat*256+(b (o+1)).toNat)*256+(b (o+2)).toNat)*256+(b (o+3)).toNat

@[simp] theorem length_be32 (v : ℕ) : (be32 v).length = 4 := rfl

theorem beWord_lt (b : ℕ → UInt8) (o : ℕ) : beWord b o < 2^32 := by
  have h₀ := (b o).toNat_lt
  have h₁ := (b (o+1)).toNat_lt
  have h₂ := (b (o+2)).toNat_lt
  have h₃ := (b (o+3)).toNat_lt
  simp only [beWord]
  omega

theorem beWord_congr {b b' : ℕ → UInt8} {o o' : ℕ} (h : ∀ j < 4, b (o+j) = b' (o'+j)) :
    beWord b o = beWord b' o' := by
  have h₀ := h 0 (by omega)
  simp only [Nat.add_zero] at h₀
  simp only [beWord]
  rw [h₀,h 1 (by omega),h 2 (by omega),h 3 (by omega)]

theorem beWord_be32 (v : ℕ) (l : List UInt8) : beWord (ofList (be32 v ++ l)) 0 = v%2^32 := by
  simp only [beWord,ofList,be32,List.cons_append,List.nil_append,List.getD_cons_zero,List.getD_cons_succ,
    UInt8.toNat_ofNat']
  omega

theorem ofList_append_left {a l : List UInt8} {j : ℕ} (h : j < a.length) : ofList (a ++ l) j = ofList a j := by
  rw [ofList,ofList,List.getD_append _ _ _ _ h]

theorem ofList_append_right (a l : List UInt8) (j : ℕ) : ofList (a ++ l) (a.length+j) = ofList l j := by
  rw [ofList,ofList,List.getD_append_right _ _ _ _ (Nat.le_add_right _ _),Nat.add_sub_cancel_left]

/-- The bytes of a list, read one by one. -/
theorem map_range_ofList (l : List UInt8) : (List.range l.length).map (ofList l) = l := by
  refine List.ext_getElem (by simp) fun j h _ => ?_
  rw [List.length_map,List.length_range] at h
  simp [ofList,h]

theorem beWord_append_right (a l : List UInt8) (o : ℕ) :
    beWord (ofList (a ++ l)) (a.length+o) = beWord (ofList l) o := by
  refine beWord_congr fun j _ => ?_
  rw [Nat.add_assoc,ofList_append_right]

/-- The word after a first word. -/
theorem beWord_skip (v : ℕ) (l : List UInt8) (o : ℕ) : beWord (ofList (be32 v ++ l)) (o+4) = beWord (ofList l) o := by
  rw [Nat.add_comm o 4]
  exact beWord_append_right (be32 v) l o

end Bytes
end Blub
