import Blub.Lib.Bytes

/-! Reads of a device that may fail: `dv_strategy` with `F_READ`. A read that fails may have written
to any part of the buffer. -/
namespace Blub.Stand
open Blub.Bytes

/-- What becomes of one read: all bytes, fewer of them without an error, or an error. The list has
what else is stored into the buffer. -/
inductive Outcome
  | done
  | short (n : ℕ) (junk : List (ℕ × UInt8))
  | failed (e : ℕ) (junk : List (ℕ × UInt8))
  deriving DecidableEq

/-- Store bytes into a buffer of `size` bytes. -/
def scribble (size : ℕ) : List (ℕ × UInt8) → (ℕ → UInt8) → ℕ → UInt8
  | [], buf => buf
  | (j,v) :: junk, buf => scribble size junk (if j < size then Function.update buf j v else buf)

/-- The error number, the size read, and the buffer. -/
def strategy (src : ℕ → UInt8) (size : ℕ) (o : Outcome) (buf : ℕ → UInt8) : ℤ × ℕ × (ℕ → UInt8) :=
  match o with
  | .done => (0,size,blit buf 0 size src)
  | .short n junk => (0,n%size,scribble size junk (blit buf 0 (n%size) src))
  | .failed e junk => (e+1,0,scribble size junk buf)

attribute [local grind =] scribble strategy

variable {src buf : ℕ → UInt8} {size : ℕ} {o : Outcome}

theorem strategy_failed (e : ℕ) (junk : List (ℕ × UInt8)) : (strategy src size (.failed e junk) buf).1 ≠ 0 := by
  simp only [strategy]
  omega

/-- Only a complete read returns 0 with the whole size. -/
theorem strategy_complete (hs : 0 < size) (hrc : (strategy src size o buf).1 = 0)
    (hsize : (strategy src size o buf).2.1 = size) : o = .done := by
  cases o with
  | done => rfl
  | short n junk =>
    have hlt : n%size < size := Nat.mod_lt n hs
    exact absurd hsize (Nat.ne_of_lt hlt)
  | failed e junk => exact absurd hrc (strategy_failed e junk)

theorem strategy_done {j : ℕ} (hj : j < size) : (strategy src size .done buf).2.2 j = src j := by
  rw [strategy]
  dsimp only
  rw [blit_inside (Nat.zero_le j) (by omega),Nat.sub_zero]

end Blub.Stand
