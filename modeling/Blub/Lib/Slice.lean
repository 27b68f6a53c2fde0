import Blub.Lib.Bytes

/-! Windows of a byte memory as lists. -/
namespace Blub.Bytes

/-- The `n` bytes from `o` on. -/
def slice (b : ℕ → UInt8) : ℕ → ℕ → List UInt8
  | _, 0 => []
  | o, n+1 => b o :: slice b (o+1) n

attribute [local grind =] slice

variable {b b' : ℕ → UInt8} {o o' n : ℕ}

@[simp] theorem length_slice (b : ℕ → UInt8) (o n : ℕ) : (slice b o n).length = n := by
  induction n generalizing o with
  | zero => rfl
  | succ n ih => simp [slice,ih]

@[simp] theorem getElem_slice (b : ℕ → UInt8) (o n j : ℕ) (h : j < (slice b o n).length) : (slice b o n)[j] = b (o+j) := by
  induction n generalizing o j with
  | zero => exact absurd h (by simp [slice])
  | succ n ih =>
    cases j with
    | zero => simp [slice]
    | succ j =>
      simp only [slice,List.getElem_cons_succ,ih]
      congr 1
      omega

theorem slice_eq_iff : slice b o n = slice b' o' n ↔ ∀ j < n, b (o+j) = b' (o'+j) := by
  constructor
  · intro h j hj
    have hj₁ : j < (slice b o n).length := by simpa using hj
    have hj₂ : j < (slice b' o' n).length := by simpa using hj
    have hget := List.getElem_of_eq h hj₁
    rwa [getElem_slice,getElem_slice] at hget
  · intro h
    apply List.ext_getElem
    · simp
    · intro j h₁ h₂
      simp only [length_slice] at h₁
      simp [h j h₁]

theorem slice_append (b : ℕ → UInt8) (o m n : ℕ) : slice b o (m+n) = slice b o m ++ slice b (o+m) n := by
  induction m generalizing o with
  | zero => simp [slice]
  | succ m ih =>
    rw [Nat.succ_add,slice,slice,ih,List.cons_append]
    congr 3
    omega

/-- A byte and the bytes behind it. -/
theorem blit_update (m : ℕ → UInt8) (o : ℕ) (a : UInt8) (c : List UInt8) :
    blit (Function.update m o a) (o+1) c.length (ofList c) = blit m o (c.length+1) (ofList (a :: c)) := by
  funext y
  simp only [blit]
  by_cases hin : o+1 ≤ y ∧ y < o+1+c.length
  · rw [if_pos hin,if_pos (by omega),show y-o = y-(o+1)+1 by omega]
    rfl
  · rw [if_neg hin]
    by_cases hy : y = o
    · subst hy
      rw [Function.update_self,if_pos (by omega),Nat.sub_self]
      rfl
    · rw [Function.update_of_ne hy,if_neg (by omega)]

/-- A list stands in memory from `o` on. -/
def Holds (b : ℕ → UInt8) (o : ℕ) (l : List UInt8) : Prop := slice b o l.length = l

variable {l l' : List UInt8}

theorem holds_nil (b : ℕ → UInt8) (o : ℕ) : Holds b o [] := rfl

theorem holds_append : Holds b o (l ++ l') ↔ Holds b o l ∧ Holds b (o+l.length) l' := by
  unfold Holds
  rw [List.length_append,slice_append]
  exact ⟨fun h => List.append_inj h (length_slice ..),fun h => by rw [h.1,h.2]⟩

/-- Any memory that starts like a list. -/
theorem holds_of_ofList (h : ∀ j < l.length, b (o+j) = ofList l j) : Holds b o l := by
  refine List.ext_getElem (length_slice ..) fun j h₁ h₂ => ?_
  rw [getElem_slice,h j h₂]
  simp [ofList,h₂]

theorem Holds.get (h : Holds b o l) {j : ℕ} (hj : j < l.length) : b (o+j) = l[j] := by
  have hget := List.getElem_of_eq h (by rwa [length_slice])
  rwa [getElem_slice] at hget

theorem Holds.be32 {v : ℕ} (h : Holds b o (be32 v)) : beWord b o = v%2^32 := by
  rw [← beWord_be32 v [],List.append_nil]
  refine beWord_congr fun j hj => ?_
  have hlen : j < (Bytes.be32 v).length := hj
  rw [h.get hlen,Nat.zero_add,ofList,List.getD_eq_getElem _ _ hlen]

theorem Holds.map_range (h : Holds b o l) : (List.range l.length).map (fun j => b (o+j)) = l := by
  refine List.ext_getElem (by simp) fun j _ h₂ => ?_
  rw [List.getElem_map,List.getElem_range,h.get h₂]

end Blub.Bytes
