import Blub.Lib.Bytes
import Blub.Stand.Zalloc

/-! `malloc`, `free` and `realloc` of `zalloc_malloc.c` over the heap of `sbrk.c`, on a machine whose
words have `k` bytes. Memory is bytes here; the pool allocator sees it as list nodes. -/
namespace Blub.Stand
open Blub.Spans Blub.Bytes

/-- How a call can fail to return. -/
inductive Fault
  | zalloc (p : Panic)
  | guard1 (ptr : ℕ)
  | guard2 (ptr bytes : ℕ)
  | endless
  deriving DecidableEq, Repr

def Fault.text : Fault → Option String
  | .zalloc p => p.text
  | .guard1 _ => some "free: guard1x fail @ %p from %s:%d"
  | .guard2 _ _ => some "free: guard2 fail @ %p + %zu from %s:%d"
  | .endless => none

/-- What `Free` prints when it drops a call. -/
inductive Said
  | duplicate (ptr : ℕ)
  | duplicate2 (ptr : ℕ)
  deriving DecidableEq, Repr

def Said.text : Said → String
  | .duplicate _ => "free: duplicate free @ %p from %s:%d\n"
  | .duplicate2 _ => "free: duplicate2 free @ %p from %s:%d\n"

/-- Memory with `MallocPool` and the bounds of the heap. -/
structure Heap where
  mp : MemPool
  byte : ℕ → UInt8
  heapbase : ℕ
  maxheap : ℕ
  heapsize : ℕ
  said : List Said

section Code
variable (k : ℕ)

/-- The two words of a list node. -/
def node (b : ℕ → UInt8) (a : ℕ) : MemNode := ⟨leGet b a k,leGet b (a+k) k⟩

def putNode (b : ℕ → UInt8) (a : ℕ) (m : MemNode) : ℕ → UInt8 :=
  lePut (lePut b a k m.mrNext) (a+k) k m.mrBytes

def Heap.arena (h : Heap) : Arena := ⟨h.mp,node k h.byte⟩

/-- The nodes that the pool allocator has written go to their bytes. It works at multiples of
`mallocAlign` only, and a node is not larger. -/
def Heap.commit (h : Heap) (s : Arena) : Heap :=
  { h with
    mp := s.mp
    byte := fun j => putNode k h.byte (j-j%mallocAlign) (s.mem (j-j%mallocAlign)) j }

/-- `setheap`, before anything was allocated. -/
def setheap (byte : ℕ → UInt8) (base top : ℕ) : Heap where
  mp := ⟨0,0,0,0,0⟩
  byte := byte
  heapbase := alignBytes (8*k) base
  maxheap := sub (8*k) top (alignBytes (8*k) base)
  heapsize := 0
  said := []

def bzero (b : ℕ → UInt8) (o n : ℕ) : ℕ → UInt8 := blit b o n fun _ => 0

def sbrk (h : Heap) (incr : ℕ) : Option (ℕ × Heap) :=
  if wrap (8*k) (h.heapsize+incr) ≤ h.maxheap then
    let ret := wrap (8*k) (h.heapbase+h.heapsize)
    some (ret,{ h with byte := bzero h.byte ret incr, heapsize := wrap (8*k) (h.heapsize+incr) })
  else none

def blkExtend : ℕ := 4096

/-- `(bytes + BLKEXTENDMASK) & ~BLKEXTENDMASK` as an `int`, and then as a word again. -/
def mallocIncr (bytes : ℕ) : ℕ :=
  let n := wrap (8*k) (bytes+(blkExtend-1))
  let i := (n-n%blkExtend)%2^32
  if i < 2^31 then i else wrap (8*k) (i+2^(8*k)-2^32)

/-- The loop of `Malloc`. A round that does not end it makes the heap larger, or changes nothing and
will do so forever. -/
def mallocLoop (bytes : ℕ) : ℕ → Heap → Except Fault (ℕ × Heap)
  | 0, _ => .error .endless
  | fuel+1, h =>
    match znalloc (8*k) (h.arena k) bytes with
    | .error p => .error (.zalloc p)
    | .ok (res,a) =>
      let h := h.commit k a
      if res ≠ 0 then .ok (res,h)
      else
        match sbrk k h (mallocIncr k bytes) with
        | none => .ok (0,h)
        | some (base,h) =>
          let incr := mallocIncr k bytes
          match zfree (8*k) (zextendPool (8*k) (h.arena k) base incr) base incr with
          | .error p => .error (.zalloc p)
          | .ok a => mallocLoop bytes fuel (h.commit k a)

def gaMagic : ℕ := 0x55FF44FD
def gaFree : ℕ := 0x5F54F4DF

/-- The guards of a block of `bytes` bytes at `res`. -/
def putGuards (b : ℕ → UInt8) (res bytes : ℕ) : ℕ → UInt8 :=
  let b := lePut b (wrap (8*k) (res+k)) k gaMagic
  let b := lePut b res k bytes
  Function.update b (sub (8*k) (wrap (8*k) (res+bytes)) 1) 0xfe

def malloc (h : Heap) (n : ℕ) : Except Fault (ℕ × Heap) :=
  let bytes := wrap (8*k) (n+(mallocAlign+1))
  match mallocLoop k bytes (h.maxheap+2) h with
  | .error e => .error e
  | .ok (res,h) =>
    if res = 0 then .ok (0,h)
    else .ok (wrap (8*k) (res+mallocAlign),{ h with byte := putGuards k h.byte res bytes })

def free (h : Heap) (ptr : ℕ) : Except Fault Heap :=
  if ptr = 0 then .ok h
  else
    let res := sub (8*k) ptr mallocAlign
    let magic := leGet h.byte (wrap (8*k) (res+k)) k
    if magic = gaFree then .ok { h with said := h.said ++ [.duplicate ptr] }
    else if magic ≠ gaMagic then .error (.guard1 ptr)
    else
      let b := lePut h.byte (wrap (8*k) (res+k)) k gaFree
      let bytes := leGet b res k
      let last := sub (8*k) (wrap (8*k) (res+bytes)) 1
      if b last = 0xff then .ok { h with byte := b, said := h.said ++ [.duplicate2 ptr] }
      else if b last ≠ 0xfe then .error (.guard2 ptr (sub (8*k) bytes mallocAlign))
      else
        let b := Function.update b last 0xff
        let h := { h with byte := b }
        match zfree (8*k) (h.arena k) res (leGet b res k) with
        | .error p => .error (.zalloc p)
        | .ok a => .ok (h.commit k a)

def realloc (h : Heap) (ptr size : ℕ) : Except Fault (ℕ × Heap) :=
  match malloc k h size with
  | .error e => .error e
  | .ok (res,h) =>
    if res = 0 ∨ ptr = 0 then .ok (res,h)
    else
      let old := sub (8*k) (sub (8*k) (leGet h.byte (sub (8*k) ptr mallocAlign) k) mallocAlign) 1
      let n := if old < size then old else size
      match free k { h with byte := blit h.byte res n fun j => h.byte (ptr+j) } ptr with
      | .error e => .error e
      | .ok h => .ok (res,h)

attribute [local grind =] mallocLoop realloc

end Code

/-- A block that was handed out: where the pool has it, and the bytes that were asked for. -/
structure Block where
  res : ℕ
  n : ℕ
  deriving DecidableEq, Repr

namespace Block

/-- The pointer that the caller got. -/
def ptr (b : Block) : ℕ := b.res+mallocAlign

/-- The bytes of the caller. -/
def user (b : Block) : Span := ⟨b.ptr,b.n⟩

/-- The request that the pool got. -/
def raw (b : Block) : Span := ⟨b.res,b.n+(mallocAlign+1)⟩

end Block

/-- A heap in use. -/
structure Client where
  heap : Heap
  live : List Block

inductive Call
  | malloc (n : ℕ)
  | realloc (ptr n : ℕ)
  | free (ptr : ℕ)
  /-- the owner of a block writes to it -/
  | store (a : ℕ) (v : UInt8)

/-- The blocks without the one at `ptr`. -/
def dropLive (live : List Block) (ptr : ℕ) : List Block :=
  match live.find? fun b => b.ptr = ptr with
  | none => live
  | some b => live.erase b

section Runs
variable (k : ℕ)

/-- A call with its result, 0 for one that returns nothing. -/
def Client.exec (s : Client) : Call → Except Fault (ℕ × Client)
  | .malloc n => do
    let (r,h) ← Stand.malloc k s.heap n
    return (r,⟨h,if r = 0 then s.live else ⟨r-mallocAlign,n⟩ :: s.live⟩)
  | .realloc ptr n => do
    let (r,h) ← Stand.realloc k s.heap ptr n
    return (r,⟨h,if r = 0 then s.live else ⟨r-mallocAlign,n⟩ :: dropLive s.live ptr⟩)
  | .free ptr => do
    let h ← Stand.free k s.heap ptr
    return (0,⟨h,dropLive s.live ptr⟩)
  | .store a v => return (0,⟨{ s.heap with byte := Function.update s.heap.byte a v },s.live⟩)

/-- What callers keep to. -/
def Client.Allowed (s : Client) : Call → Prop
  | .malloc n => n < 2^30
  | .realloc ptr n => n < 2^30 ∧ (ptr = 0 ∨ ∃ b ∈ s.live, b.ptr = ptr)
  | .free ptr => ptr = 0 ∨ ∃ b ∈ s.live, b.ptr = ptr
  | .store a _ => ∃ b ∈ s.live, b.user.Has a

/-- Whether an area of the list has room for `n` bytes. -/
def hasArea (mem : ℕ → MemNode) (n : ℕ) : ℕ → ℕ → Bool
  | 0, _ => false
  | fuel+1, p => p ≠ 0 ∧ (n ≤ (mem p).mrBytes ∨ hasArea mem n fuel (mem p).mrNext = true)

/-- A request that is served from the free list, or for which the size of the heap stays in a word. -/
def Heap.Fits (h : Heap) (n : ℕ) : Prop :=
  hasArea (h.arena k).mem (alignBytes (8*k) (n+(mallocAlign+1))) (walkFuel (h.arena k)) h.mp.mpFirst = true ∨
    h.heapsize+mallocIncr k (n+(mallocAlign+1)) < 2^(8*k)

def Client.Fits (s : Client) : Call → Prop
  | .malloc n => s.heap.Fits k n
  | .realloc _ n => s.heap.Fits k n
  | .free _ => True
  | .store _ _ => True

def Client.run (s : Client) : List Call → Except Fault Client
  | [] => .ok s
  | c :: cs => do (← s.exec k c).2.run cs

/-- Every call of a run is allowed, and fits. -/
def Client.AllowedAll (s : Client) : List Call → Prop
  | [] => True
  | c :: cs => (s.Allowed c ∧ s.Fits k c) ∧
      match s.exec k c with
      | .ok (_,s') => s'.AllowedAll cs
      | .error _ => True

attribute [local grind =] Client.exec Client.Allowed hasArea Client.Fits Client.run Client.AllowedAll

instance Client.decidableAllowed (s : Client) : (c : Call) → Decidable (s.Allowed c)
  | .malloc _ => inferInstanceAs (Decidable (_ < _))
  | .realloc ptr _ => inferInstanceAs (Decidable (_ ∧ (_ ∨ ∃ b ∈ s.live, b.ptr = ptr)))
  | .free ptr => inferInstanceAs (Decidable (_ ∨ ∃ b ∈ s.live, b.ptr = ptr))
  | .store a _ => inferInstanceAs (Decidable (∃ b ∈ s.live, b.user.Has a))

instance Heap.decidableFits (h : Heap) (n : ℕ) : Decidable (h.Fits k n) := inferInstanceAs (Decidable (_ ∨ _))

instance Client.decidableFits (s : Client) : (c : Call) → Decidable (s.Fits k c)
  | .malloc n => inferInstanceAs (Decidable (s.heap.Fits k n))
  | .realloc _ n => inferInstanceAs (Decidable (s.heap.Fits k n))
  | .free _ => inferInstanceAs (Decidable True)
  | .store _ _ => inferInstanceAs (Decidable True)

instance Client.decidableAllowedAll (s : Client) : (cs : List Call) → Decidable (s.AllowedAll k cs)
  | [] => inferInstanceAs (Decidable True)
  | c :: cs =>
    @instDecidableAnd _ _ (inferInstanceAs (Decidable (s.Allowed c ∧ s.Fits k c)))
      (match s.exec k c with
        | .ok (_,s') => s'.decidableAllowedAll cs
        | .error _ => inferInstanceAs (Decidable True))

end Runs

end Blub.Stand
