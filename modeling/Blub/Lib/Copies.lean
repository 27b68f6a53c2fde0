import Blub.Lib.Slice

/-! Pieces of data that are copied one behind the other into a memory that can refuse a copy, or only counted. -/
namespace Blub.Copies
open Bytes

/-- How a memory takes bytes at an address and whether it did, which byte is read at an address, and the error that
stays from the last refusal. -/
structure Copier (σ : Type*) where
  copyin : σ → List UInt8 → ℕ → σ × Bool
  byte : σ → ℕ → UInt8
  errno : σ → ℕ

/-- Some bytes, and how far behind them the next ones are. -/
structure Piece where
  bytes : List UInt8
  step : ℕ

def extent (l : List Piece) : ℕ := (l.map Piece.step).sum

section Code
variable {σ : Type*} (A : Copier σ) (w : ℕ) (c : Bool)

/-- The address behind a piece, in a word of `w` bits, and the memory. Without `c` nothing is copied. -/
def put (p : Piece) (o : ℕ × σ) : ℕ × σ := ((o.1+p.step)%2^w,if c then (A.copyin o.2 p.bytes o.1).1 else o.2)

def puts (l : List Piece) (o : ℕ × σ) : ℕ × σ := l.foldl (fun o p => put A w c p o) o

end Code

/-- The pieces stand in memory from `a` on. -/
def Laid (b : ℕ → UInt8) : ℕ → List Piece → Prop
  | _, [] => True
  | a, p :: l => Holds b a p.bytes ∧ Laid b (a+p.step) l

attribute [local grind =] Laid

section Layout
variable {b b' : ℕ → UInt8} {a : ℕ} {p : Piece} {l l' : List Piece}

@[simp] theorem extent_nil : extent [] = 0 := rfl

@[simp] theorem extent_cons (p : Piece) (l : List Piece) : extent (p :: l) = p.step+extent l := by
  rw [extent,List.map_cons,List.sum_cons]
  rfl

theorem extent_append (l l' : List Piece) : extent (l ++ l') = extent l+extent l' := by
  rw [extent,List.map_append,List.sum_append]
  rfl

theorem laid_append : Laid b a (l ++ l') ↔ Laid b a l ∧ Laid b (a+extent l) l' := by
  induction l generalizing a with
  | nil => exact (and_iff_right trivial).symm
  | cons p l ih =>
    rw [List.cons_append,Laid,Laid,ih,extent_cons,and_assoc,Nat.add_assoc]

/-- No piece is longer than its step. -/
def Fits (l : List Piece) : Prop := ∀ p ∈ l, p.bytes.length ≤ p.step

theorem holds_congr {bytes : List UInt8} (h : ∀ x, a ≤ x → x < a+bytes.length → b' x = b x) (hb : Holds b a bytes) :
    Holds b' a bytes := by
  unfold Holds at hb ⊢
  rw [← hb,length_slice]
  exact slice_eq_iff.mpr fun j hj => h (a+j) (by omega) (by omega)

end Layout

section Whole
variable {b : ℕ → UInt8} {a : ℕ}

/-- A piece right behind which the next one is. -/
def whole (bytes : List UInt8) : Piece := ⟨bytes,bytes.length⟩

theorem fits_whole (l : List (List UInt8)) : Fits (l.map whole) := by
  intro p hp
  obtain ⟨bytes,-,rfl⟩ := List.mem_map.mp hp
  exact le_rfl

theorem extent_whole (l : List (List UInt8)) : extent (l.map whole) = l.flatten.length := by
  rw [extent,List.map_map,List.length_flatten]
  rfl

theorem laid_whole {l : List (List UInt8)} : Laid b a (l.map whole) ↔ Holds b a l.flatten := by
  induction l generalizing a with
  | nil => exact (iff_true_intro (holds_nil b a)).symm
  | cons bytes l ih => rw [List.map_cons,Laid,ih,List.flatten_cons,holds_append,whole]

end Whole

section Puts
variable {σ : Type*} {A : Copier σ} {w : ℕ} {c : Bool} {p : Piece} {l : List Piece} {o : ℕ × σ}

@[simp] theorem puts_nil (o : ℕ × σ) : puts A w c [] o = o := rfl

@[simp] theorem puts_cons (p : Piece) (l : List Piece) (o : ℕ × σ) :
    puts A w c (p :: l) o = puts A w c l (put A w c p o) := rfl

theorem puts_append (l l' : List Piece) (o : ℕ × σ) : puts A w c (l ++ l') o = puts A w c l' (puts A w c l o) :=
  List.foldl_append

/-- The pieces of some items, item after item. -/
theorem puts_flatMap {α : Type*} (f : α → List Piece) (items : List α) (o : ℕ × σ) :
    puts A w c (items.flatMap f) o = items.foldl (fun o i => puts A w c (f i) o) o := by
  induction items generalizing o with
  | nil => rfl
  | cons i items ih => rw [List.flatMap_cons,puts_append,ih,List.foldl_cons]

/-- The addresses do not depend on whether anything is copied. -/
theorem puts_addr (ho : o.1 < 2^w) : (puts A w c l o).1 = (o.1+extent l)%2^w := by
  induction l generalizing o with
  | nil => exact (Nat.mod_eq_of_lt ho).symm
  | cons p l ih =>
    rw [puts_cons,ih (Nat.mod_lt _ (Nat.two_pow_pos w)),extent_cons,put,Nat.mod_add_mod,Nat.add_assoc]

/-- What a copy to `a` that is not refused has done. -/
structure Stored (A : Copier σ) (Inv Ready : σ → Prop) (lo hi limit : ℕ) (s : σ) (bytes : List UInt8) (a : ℕ) : Prop where
  taken : (A.copyin s bytes a).2 = true
  short : bytes.length < limit
  inv : Inv (A.copyin s bytes a).1
  ready : Ready (A.copyin s bytes a).1
  holds : Holds (A.byte (A.copyin s bytes a).1) a bytes
  keeps : Ready s → ∀ x, lo ≤ x → x < hi → x < a ∨ a+bytes.length ≤ x → A.byte (A.copyin s bytes a).1 x = A.byte s x

/-- A memory that stores what it does not refuse, for addresses from `lo` on and below `hi`. When it is ready, an address
always means the same byte; a first copy to `lo` makes it so. -/
structure Lawful (A : Copier σ) (lo hi limit : ℕ) where
  inv : σ → Prop
  ready : σ → Prop
  sticky : ∀ s bytes a, A.errno (A.copyin s bytes a).1 = 0 → A.errno s = 0
  spec : ∀ s bytes a, inv s → ready s ∨ a = lo → lo ≤ a → a+bytes.length ≤ hi → A.errno (A.copyin s bytes a).1 = 0 →
    Stored A inv ready lo hi limit s bytes a

variable {lo hi limit : ℕ}

theorem Lawful.sticky_puts (L : Lawful A lo hi limit) (h : A.errno (puts A w c l o).2 = 0) : A.errno o.2 = 0 := by
  induction l generalizing o with
  | nil => exact h
  | cons p l ih =>
    have hput := ih h
    cases c with
    | false => exact hput
    | true => exact L.sticky _ _ _ hput

/-- What copies that are not refused have done. -/
structure AllStored (A : Copier σ) (L : Lawful A lo hi limit) (o o' : ℕ × σ) (l : List Piece) : Prop where
  addr : o'.1 = o.1+extent l
  short : ∀ p ∈ l, p.bytes.length < limit
  inv : L.inv o'.2
  ready : l ≠ [] ∨ L.ready o.2 → L.ready o'.2
  laid : Laid (A.byte o'.2) o.1 l
  keeps : L.ready o.2 → ∀ x, lo ≤ x → x < o.1 → A.byte o'.2 x = A.byte o.2 x

theorem Lawful.put_spec (L : Lawful A lo hi limit) (hhi : hi < 2^w) (hi₀ : L.inv o.2)
    (hfirst : L.ready o.2 ∨ o.1 = lo) (hlo : lo ≤ o.1) (hle : p.bytes.length ≤ p.step) (hend : o.1+p.step ≤ hi)
    (h : A.errno (put A w true p o).2 = 0) : AllStored A L o (put A w true p o) [p] := by
  have hstored := L.spec o.2 p.bytes o.1 hi₀ hfirst hlo (by omega) h
  refine ⟨?_,?_,hstored.inv,fun _ => hstored.ready,⟨hstored.holds,trivial⟩,?_⟩
  · rw [extent_cons,extent_nil,Nat.add_zero]
    exact Nat.mod_eq_of_lt (by omega)
  · exact List.forall_mem_singleton.mpr hstored.short
  · intro hready x h₁ h₂
    exact hstored.keeps hready x h₁ (by omega) (.inl h₂)

/-- Pieces are stored one behind the other. -/
theorem Lawful.puts_spec (L : Lawful A lo hi limit) (hhi : hi < 2^w) (hi₀ : L.inv o.2)
    (hfirst : L.ready o.2 ∨ o.1 = lo) (hlo : lo ≤ o.1) (hfits : Fits l) (hend : o.1+extent l ≤ hi)
    (h : A.errno (puts A w true l o).2 = 0) : AllStored A L o (puts A w true l o) l := by
  induction l generalizing o with
  | nil => exact ⟨rfl,nofun,hi₀,fun hor => hor.resolve_left (fun hne => hne rfl),trivial,fun _ _ _ _ => rfl⟩
  | cons p l ih =>
    rw [extent_cons] at hend
    obtain ⟨hp,hl⟩ := List.forall_mem_cons.mp hfits
    rw [puts_cons] at h ⊢
    have hput := L.put_spec hhi hi₀ hfirst hlo hp (by omega) (L.sticky_puts h)
    have haddr := hput.addr
    rw [extent_cons,extent_nil,Nat.add_zero] at haddr
    have hready := hput.ready (.inl (List.cons_ne_nil p []))
    have hrest := ih hput.inv (.inl hready) (by omega) hl (by omega) h
    refine ⟨?_,?_,hrest.inv,fun _ => hrest.ready (.inr hready),⟨?_,?_⟩,?_⟩
    · rw [hrest.addr,haddr,extent_cons,Nat.add_assoc]
    · exact List.forall_mem_cons.mpr ⟨hput.short p (List.mem_singleton.mpr rfl),hrest.short⟩
    · -- the first piece lies in front of all others
      refine holds_congr (fun x h₁ h₂ => ?_) hput.laid.1
      exact hrest.keeps hready x (by omega) (by omega)
    · rw [← haddr]
      exact hrest.laid
    · intro hready₀ x h₁ h₂
      rw [hrest.keeps hready x h₁ (by omega)]
      exact hput.keeps hready₀ x h₁ h₂

end Puts

end Blub.Copies
