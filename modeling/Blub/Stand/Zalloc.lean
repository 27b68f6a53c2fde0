import Blub.Lib.Spans

/-! The pool allocator of `libstand/zalloc.c` on a machine with `w`-bit addresses. A free area
starts with its own list node, so memory is read as one node at each aligned address. -/
namespace Blub.Stand
open Blub.Spans

structure MemNode where
  mrNext : ℕ
  mrBytes : ℕ
  deriving DecidableEq, Repr

structure MemPool where
  mpBase : ℕ
  mpEnd : ℕ
  mpFirst : ℕ
  mpSize : ℕ
  mpUsed : ℕ
  deriving DecidableEq, Repr

/-- A pool and the memory its nodes live in. Address `0` is `NULL`. -/
structure Arena where
  mp : MemPool
  mem : ℕ → MemNode

/-- How a call can fail to return: a panic of `zfree`, or a walk that never ends. -/
inductive Panic
  | wildPointer
  | corruptMemlist1
  | corruptMemlist2
  | endless
  deriving DecidableEq, Repr

def Panic.text : Panic → Option String
  | .wildPointer => some "zfree(%p,%ju): wild pointer"
  | .corruptMemlist1 => some "zfree(%p,%ju): corrupt memlist1"
  | .corruptMemlist2 => some "zfree(%p,%ju): corrupt memlist2"
  | .endless => none

/-- A `MemNode **`: the head of the list, or the link at the start of a node. -/
inductive Pmn
  | first
  | next (mn : ℕ)
  deriving DecidableEq, Repr

namespace Arena

def get (s : Arena) : Pmn → ℕ
  | .first => s.mp.mpFirst
  | .next a => (s.mem a).mrNext

def set (s : Arena) (n : ℕ) (m : MemNode) : Arena := {s with mem := Function.update s.mem n m}

def setNext (s : Arena) : Pmn → ℕ → Arena
  | .first, v => {s with mp := {s.mp with mpFirst := v}}
  | .next a, v => s.set a ⟨v,(s.mem a).mrBytes⟩

def setUsed (s : Arena) (n : ℕ) : Arena := {s with mp := {s.mp with mpUsed := n}}

end Arena

section Code
variable (w : ℕ)

/-- `uintptr_t` arithmetic. -/
def wrap (n : ℕ) : ℕ := n%2^w

def sub (m n : ℕ) : ℕ := wrap w (m+(2^w-wrap w n))

def mallocAlign : ℕ := 16

/-- `(bytes + MEMNODE_SIZE_MASK) & ~MEMNODE_SIZE_MASK`. -/
def alignBytes (bytes : ℕ) : ℕ :=
  let n := wrap w (bytes+(mallocAlign-1))
  n-n%mallocAlign

def znallocLoop (bytes : ℕ) : ℕ → Pmn → Arena → Except Panic (ℕ × Arena)
  | 0, _, _ => .error .endless
  | fuel+1, pmn, s =>
    let mn := s.get pmn
    if mn = 0 then .ok (0,s)
    else if (s.mem mn).mrBytes < bytes then znallocLoop bytes fuel (.next mn) s
    else
      let ptr := mn
      let s' :=
        if (s.mem mn).mrBytes = bytes then s.setNext pmn (s.mem mn).mrNext
        else
          let mn' := wrap w (mn+bytes)
          (s.set mn' ⟨(s.mem ptr).mrNext,sub w (s.mem ptr).mrBytes bytes⟩).setNext pmn mn'
      .ok (ptr,s'.setUsed (wrap w (s.mp.mpUsed+bytes)))

/-- Nodes are distinct multiples of `mallocAlign` inside the pool: a walk that takes more steps
than there are such addresses has run into a cycle. -/
def walkFuel (s : Arena) : ℕ := s.mp.mpSize/mallocAlign+1

/-- The pointer returned, `0` for `NULL` and `-1` for an allocation of no bytes. -/
def znalloc (s : Arena) (bytes : ℕ) : Except Panic (ℕ × Arena) :=
  let bytes := alignBytes w bytes
  if bytes = 0 then .ok (sub w 0 1,s)
  else if bytes ≤ sub w s.mp.mpSize s.mp.mpUsed then znallocLoop w bytes (walkFuel s) .first s
  else .ok (0,s)

/-- Merge the node `mn` that was just linked in at `pmn` with the node `pmn` belongs to. -/
def mergePrev (ptr : ℕ) (pmn : Pmn) (s : Arena) : Arena :=
  match pmn with
  | .first => s
  | .next a =>
    if wrap w (a+(s.mem a).mrBytes) = ptr then
      s.set a ⟨(s.mem ptr).mrNext,wrap w ((s.mem a).mrBytes+(s.mem ptr).mrBytes)⟩
    else s

def zfreeLoop (ptr bytes : ℕ) : ℕ → Pmn → Arena → Except Panic Arena
  | 0, _, _ => .error .endless
  | fuel+1, pmn, s =>
    let mn := s.get pmn
    if mn = 0 then
      -- beyond the last node
      match pmn with
      | .first => .ok ((s.set ptr ⟨0,bytes⟩).setNext .first ptr)
      | .next a =>
        if wrap w (a+(s.mem a).mrBytes) ≠ ptr then .ok ((s.set ptr ⟨0,bytes⟩).setNext (.next a) ptr)
        else .ok (s.set a ⟨(s.mem a).mrNext,wrap w ((s.mem a).mrBytes+bytes)⟩)
    else if ptr ≤ mn then
      if mn < wrap w (ptr+bytes) then .error .corruptMemlist1
      else
        let node : MemNode :=
          if wrap w (ptr+bytes) = mn then ⟨(s.mem mn).mrNext,wrap w (bytes+(s.mem mn).mrBytes)⟩
          else ⟨mn,bytes⟩
        .ok (mergePrev w ptr pmn ((s.set ptr node).setNext pmn ptr))
    else if ptr < wrap w (mn+(s.mem mn).mrBytes) then .error .corruptMemlist2
    else zfreeLoop ptr bytes fuel (.next mn) s

def zfree (s : Arena) (ptr bytes : ℕ) : Except Panic Arena :=
  let bytes := alignBytes w bytes
  if bytes = 0 then .ok s
  else if ptr < s.mp.mpBase ∨ s.mp.mpEnd < wrap w (ptr+bytes) ∨ ptr%mallocAlign ≠ 0 then
    .error .wildPointer
  else zfreeLoop w ptr bytes (walkFuel s) .first (s.setUsed (sub w s.mp.mpUsed bytes))

def zextendPool (s : Arena) (base bytes : ℕ) : Arena :=
  let mp := s.mp
  if mp.mpSize = 0 then
    {s with mp := ⟨base,wrap w (base+bytes),mp.mpFirst,bytes,bytes⟩}
  else
    let pend := wrap w (mp.mpBase+mp.mpSize)
    let mp₁ : MemPool :=
      if base < mp.mpBase then
        {mp with
          mpSize := wrap w (mp.mpSize+sub w mp.mpBase base)
          mpUsed := wrap w (mp.mpUsed+sub w mp.mpBase base)
          mpBase := base}
      else mp
    let top := wrap w (base+bytes)
    let mp₂ : MemPool :=
      if pend < top then
        {mp₁ with
          mpSize := wrap w (mp₁.mpSize+sub w top pend)
          mpUsed := wrap w (mp₁.mpUsed+sub w top pend)
          mpEnd := top}
      else mp₁
    {s with mp := mp₂}

attribute [local grind =] znallocLoop zfreeLoop

end Code

end Blub.Stand
