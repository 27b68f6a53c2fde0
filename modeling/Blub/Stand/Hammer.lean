import Blub.Lib.Trace
import Blub.Stand.Device

/-! The buffers in front of a HAMMER volume, from `hammer1.c`: `hread` keeps six of them, and gives the least recently
used one away. -/
namespace Blub.Stand
open Blub.Bytes Blub.Trace

def hammerBufsize : ℕ := 16384

/-- `NUMCACHE`. -/
def numcache : ℕ := 6

def zoneRawVolume : ℕ := 1

/-- `HAMMER_ZONE_DECODE`: the upper four bits of an offset. -/
def zoneDecode (off : ℕ) : ℕ := off/2^60

/-- The tag of a buffer that holds nothing. -/
def noTag : ℕ := 2^64-1

structure BlockEntry where
  off : ℕ
  use : ℤ
  data : ℕ → UInt8

/-- A volume: the bytes of its device, and where the buffers of the zones start. -/
structure HammerDev where
  dev : ℕ → UInt8
  bufBeg : ℕ
  aligned : 512 ∣ bufBeg

/-- What changes of `struct hfs`, and what becomes of the reads of the device. -/
structure Hfs where
  lru : ℤ
  cache : ℕ → BlockEntry
  io : List Outcome

section Code
variable (d : HammerDev)

/-- Where on the device the buffer of an offset starts. -/
def boffOf (off : ℕ) : ℕ :=
  let boff := off/hammerBufsize*hammerBufsize%2^60
  if zoneDecode off ≠ zoneRawVolume then (boff+d.bufBeg)%2^64 else boff

/-- The bytes from a place of the device on, as sectors are read. -/
def HammerDev.buffer (boff : ℕ) : ℕ → UInt8 := fun j => d.dev (boff/512*512+j)

/-- The loop over the buffers: the one with the tag, or else the least recently used one. -/
def pickSlot (cache : ℕ → BlockEntry) (boff : ℕ) : ℕ → ℕ → Option ℕ → Option ℕ
  | 0, _, be => be
  | k+1, i, be =>
    let be := match be with
      | none => i
      | some b => if (cache b).use > (cache i).use then i else b
    if (cache i).off = boff then some i else pickSlot cache boff k (i+1) (some be)

/-- The buffer that `hread` takes. -/
def hreadSlot (s : Hfs) (off : ℕ) : ℕ := (pickSlot s.cache (boffOf d off) numcache 0 none).getD 0

/-- A pointer: a buffer, and a place in it. -/
structure HammerPtr where
  slot : ℕ
  place : ℕ
  deriving DecidableEq, Repr

/-- The buffer has become the most recently used one. -/
def touch (s : Hfs) (be : ℕ) : Hfs :=
  let lru := Int.bmod (s.lru+1) (2^32)
  {s with lru := lru, cache := Function.update s.cache be {s.cache be with use := lru}}

def hread (s : Hfs) (off : ℕ) : Option HammerPtr × Hfs :=
  let boff := boffOf d off
  let be := hreadSlot d s off
  let ptr := ⟨be,off%hammerBufsize⟩
  if (s.cache be).off ≠ boff then
    let r := strategy (d.buffer boff) hammerBufsize (s.io.headD .done) (s.cache be).data
    let s := ⟨s.lru,Function.update s.cache be ⟨boff,(s.cache be).use,r.2.2⟩,s.io.tail⟩
    if r.1 ≠ 0 ∨ r.2.1 ≠ hammerBufsize then (none,s) else (some ptr,touch s be)
  else (some ptr,touch s be)

attribute [local grind =] pickSlot

end Code

end Blub.Stand
