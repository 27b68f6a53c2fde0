import Mathlib.Tactic

/-! The block cache of `boot/common/bcache.c`. Buffers are counted in blocks of `bcBlksize`
bytes, since the cache copies whole blocks only; `β` is the contents of one block. -/
namespace Blub.Boot

structure BcacheCtl where
  bcBlkno : ℤ
  bcStamp : ℤ
  bcCount : ℤ
  deriving DecidableEq, Repr

inductive Rw
  | fRead
  | fWrite
  deriving DecidableEq, Repr

/-- The static state of the cache, and how often `time` was called. -/
structure Bcache (β : Type*) where
  ctl : ℕ → BcacheCtl
  data : ℕ → β
  active : Bool
  nblks : ℕ
  blksize : ℕ
  bcount : ℕ
  unit : ℤ
  calls : ℕ

/-- What a strategy routine returns, and what it stored through `rsize` if anything. -/
structure Reply (β : Type*) where
  err : ℤ
  rsize : Option ℕ
  buf : ℕ → β

/-- `dv_strategy`: direction, block, size in bytes, buffer. -/
def Strategy (σ β : Type*) : Type _ := Rw → ℤ → ℕ → (ℕ → β) → σ → Reply β × σ

def bcacheTimeout : ℤ := 2

def enomem : ℤ := 12

/-- Conversion of a `u_int` to `int`. -/
def int32 (n : ℕ) : ℤ := Int.bmod n (2^32)

section Code
variable {β σ : Type*}

/-- `bcache_init`; the allocations, with the garbage they hold, are `none` when one fails. -/
def bcacheInit (s : Bcache β) (nblks bsize : ℕ) (mem : Option ((ℕ → BcacheCtl) × (ℕ → β))) :
    ℤ × Bcache β :=
  match mem with
  | none => (enomem,{s with active := false, nblks := nblks, blksize := bsize%2^32})
  | some (ctl,data) =>
    (0,{s with ctl := ctl, data := data, active := true, nblks := nblks, blksize := bsize%2^32})

def discard (c : BcacheCtl) : BcacheCtl := {c with bcCount := -1, bcBlkno := -1}

def bcacheFlush (s : Bcache β) : Bcache β :=
  {s with ctl := fun i => if i < s.nblks then discard (s.ctl i) else s.ctl i}

/-- The search of `bcache_insert` over `k` slots from slot `i` on. -/
def insertScan (ctl : ℕ → BcacheCtl) (blkno : ℤ) : ℕ → ℕ → ℕ → ℤ → ℕ
  | 0, _, cand, _ => cand
  | k+1, i, cand, ocount =>
    if (ctl i).bcBlkno = blkno then i
    else if (ctl i).bcCount < ocount then insertScan ctl blkno k (i+1) i (ctl i).bcCount
    else insertScan ctl blkno k (i+1) cand ocount

def insertCand (s : Bcache β) (blkno : ℤ) : ℕ :=
  insertScan s.ctl blkno (s.nblks-1) 1 0 (s.ctl 0).bcCount

def bcacheInsert (clock : ℕ → ℤ) (s : Bcache β) (buf : β) (blkno : ℤ) : Bcache β :=
  let now := clock s.calls
  let cand := insertCand s blkno
  {s with
    data := Function.update s.data cand buf
    ctl := Function.update s.ctl cand ⟨blkno,now,int32 s.bcount⟩
    bcount := (s.bcount+1)%2^32
    calls := s.calls+1}

/-- The block if it is held and not timed out. -/
def bcacheLookup (clock : ℕ → ℤ) (s : Bcache β) (blkno : ℤ) : Option β × Bcache β :=
  let now := clock s.calls
  (((List.range s.nblks).find? fun i =>
      (s.ctl i).bcBlkno = blkno ∧ (s.ctl i).bcStamp+bcacheTimeout ≥ now).map s.data,
    {s with calls := s.calls+1})

def bcacheInvalidate (s : Bcache β) (blkno : ℤ) : Bcache β :=
  match (List.range s.nblks).find? fun i => (s.ctl i).bcBlkno = blkno with
  | some i => {s with ctl := Function.update s.ctl i (discard (s.ctl i))}
  | none => s

/-- Insert `n` blocks of a buffer, from block `off` of it on, as blocks `blk..`. -/
def insertAll (clock : ℕ → ℤ) (s : Bcache β) (buf : ℕ → β) (off : ℕ) (blk : ℤ) (n : ℕ) : Bcache β :=
  (List.range n).foldl (fun s j => bcacheInsert clock s (buf (off+j)) (blk+j)) s

attribute [local grind =] insertScan

section Strategies
variable (clock : ℕ → ℤ) (w : ℕ) (dv : Strategy σ β)

def writeStrategy (s : Bcache β) (blk : ℤ) (size : ℕ) (buf : ℕ → β) (dev : σ) :
    Reply β × Bcache β × σ :=
  let nblk := size/s.blksize
  let s₁ := (List.range nblk).foldl (fun s i => bcacheInvalidate s (blk+(i : ℕ))) s
  let (r,dev') := dv .fWrite blk size buf dev
  (r,if r.err = 0 then insertAll clock s₁ r.buf 0 blk nblk else s₁,dev')

/-- Cache, buffer and device while a read is under way. -/
structure Io (σ β : Type*) where
  cache : Bcache β
  buf : ℕ → β
  dev : σ

/-- The first loop of `read_strategy`: copy the hits, note the misses. -/
def lookupAll (s : Bcache β) (blk : ℤ) (nblk : ℕ) (buf : ℕ → β) (miss : ℕ → Bool) :
    Bcache β × (ℕ → β) × (ℕ → Bool) :=
  (List.range nblk).foldl (fun (s,buf,miss) i =>
    match bcacheLookup clock s (blk+(i : ℕ)) with
    | (none,s') => (s',buf,Function.update miss i true)
    | (some b,s') => (s',Function.update buf i b,Function.update miss i false)) (s,buf,miss)

/-- The transfer that is pending: first block, place in the buffer, number of blocks. -/
structure Pending where
  pBlk : ℤ
  pBuf : ℕ
  pSize : ℕ

def transfer (p : Pending) (io : Io σ β) : ℤ × Io σ β :=
  let (r,dev) := dv .fRead p.pBlk (p.pSize*io.cache.blksize%2^32) (fun k => io.buf (p.pBuf+k)) io.dev
  let buf := fun k => if k < p.pBuf then io.buf k else r.buf (k-p.pBuf)
  (r.err,⟨if r.err = 0 then insertAll clock io.cache buf p.pBuf p.pBlk p.pSize else io.cache,buf,dev⟩)

/-- The second loop of `read_strategy` over `k` blocks from block `i` on. -/
def fillMisses (blk : ℤ) (miss : ℕ → Bool) : ℕ → ℕ → Pending → Io σ β → ℤ × Io σ β
  | 0, _, p, io => if p.pBlk ≠ -1 then transfer clock dv p io else (0,io)
  | k+1, i, p, io =>
    if miss i then
      fillMisses blk miss k (i+1) (if p.pBlk = -1 then ⟨blk+i,i,1⟩ else {p with pSize := p.pSize+1}) io
    else if p.pBlk ≠ -1 then
      let (result,io') := transfer clock dv p io
      if result ≠ 0 then (result,io') else fillMisses blk miss k (i+1) {p with pBlk := -1} io'
    else fillMisses blk miss k (i+1) p io

def readStrategy (s : Bcache β) (blk : ℤ) (size : ℕ) (buf : ℕ → β) (dev : σ) :
    Reply β × Bcache β × σ :=
  let nblk := size/s.blksize
  let (s₁,buf₁,miss) := lookupAll clock s blk nblk buf (fun _ => false)
  let (result,io) := fillMisses clock dv blk miss nblk 0 ⟨-1,0,0⟩ ⟨s₁,buf₁,dev⟩
  (⟨result,if result = 0 then some size else none,io.buf⟩,io.cache,io.dev)

/-- Whether a request goes past the cache. -/
def bypassed (s : Bcache β) (size : ℕ) : Prop := s.active = false ∨ s.nblks < size*2%2^w/s.blksize

attribute [local grind =] fillMisses

instance (s : Bcache β) (size : ℕ) : Decidable (bypassed w s size) :=
  inferInstanceAs (Decidable (_ ∨ _))

/-- A change of unit empties the cache. -/
def selectUnit (s : Bcache β) (unit : ℤ) : Bcache β :=
  if s.unit ≠ unit then {bcacheFlush s with unit := unit} else s

def bcacheStrategy (s : Bcache β) (unit : ℤ) (rw : Rw) (blk : ℤ) (size : ℕ) (buf : ℕ → β) (dev : σ) :
    Reply β × Bcache β × σ :=
  let s := selectUnit s unit
  if bypassed w s size then
    let (r,dev') := dv rw blk size buf dev
    (r,s,dev')
  else
    match rw with
    | .fRead => readStrategy clock dv s blk size buf dev
    | .fWrite => writeStrategy clock dv s blk size buf dev

end Strategies

end Code

end Blub.Boot
