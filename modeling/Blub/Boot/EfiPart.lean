import Blub.Lib.Bytes

/-! Disks of an EFI system as arrays of 512-byte sectors: `efipart_strategy` of the loader, which goes through a bounce
buffer on media with other blocks, and `dskread` of the stage before it. -/
namespace Blub.Boot.EfiPart
open Bytes

inductive Errno
  | ok | eperm | eoverflow | eio | einval | estale | enxio | enoent | enomem | enodev | enospc | eacces | edoofus | erofs
  deriving DecidableEq, Repr

/-- `EFI_STATUS`, as far as `efi_status_to_errno` tells them apart. -/
inductive Status
  | success | accessDenied | bufferTooSmall | deviceError | volumeCorrupted | invalidParameter | mediaChanged | noMedia
  | notFound | outOfResources | unsupported | volumeFull | writeProtected | other
  deriving DecidableEq, Repr

def efiStatusToErrno : Status → Errno
  | .accessDenied => .eperm
  | .bufferTooSmall => .eoverflow
  | .deviceError => .eio
  | .volumeCorrupted => .eio
  | .invalidParameter => .einval
  | .mediaChanged => .estale
  | .noMedia => .enxio
  | .notFound => .enoent
  | .outOfResources => .enomem
  | .unsupported => .enodev
  | .volumeFull => .enospc
  | .writeProtected => .eacces
  | .success => .ok
  | .other => .edoofus

/-- `Media` of an `EFI_BLOCK_IO`, with blocks of whole sectors. -/
structure Media where
  blockSize : ℕ
  lastBlock : ℕ
  readOnly : Bool
  blockSize_pos : 0 < blockSize
  blockSize_dvd : 512 ∣ blockSize
  blockSize_lt : blockSize < 2^32
  lastBlock_lt : lastBlock < 2^64

inductive Rw
  | read
  | write
  deriving DecidableEq, Repr

/-- What a request gives, and the disk and the memory from `buf` on after it. -/
structure Result where
  error : Errno
  disk : ℕ → UInt8
  buf : ℕ → UInt8

attribute [local grind =] efiStatusToErrno

section Code
-- `status` is what the firmware answers to a transfer of a number of bytes at a native block
variable (m : Media) (status : Rw → ℕ → ℕ → Status)

/-- `efipart_readwrite`; no result where a signed number overflows. -/
def efipartReadwrite (rw : Rw) (blk : ℤ) (nblks : ℕ) (disk buf : ℕ → UInt8) : Option Result :=
  if blk < 0 ∨ Int.bmod m.lastBlock (2^64) < blk then some ⟨.eio,disk,buf⟩
  else if 2^63 ≤ blk+nblks then none
  else if Int.bmod m.lastBlock (2^64) < blk+nblks-1 then some ⟨.eio,disk,buf⟩
  else if 2^63 ≤ nblks*m.blockSize then none
  else
    let size := nblks*m.blockSize
    let o := blk.toNat*m.blockSize
    match rw with
    | .read =>
      match status .read blk.toNat size with
      | .success => some ⟨.ok,disk,blit buf 0 size fun i => disk (o+i)⟩
      | e => some ⟨efiStatusToErrno e,disk,buf⟩
    | .write =>
      if m.readOnly then some ⟨.erofs,disk,buf⟩
      else
        match status .write blk.toNat size with
        | .success => some ⟨.ok,blit disk o size buf,buf⟩
        | e => some ⟨efiStatusToErrno e,disk,buf⟩

/-- The loop of `efipart_strategy`; `p` is how far `buf` has moved. -/
def strategyLoop (rw : Rw) : ℕ → (disk buf blkbuf : ℕ → UInt8) → (p : ℕ) → (blk : ℤ) → (blkoff blksz size : ℕ) →
    Option Result
  | 0, disk, buf, _, _, _, _, _, size => if 0 < size then none else some ⟨.ok,disk,buf⟩
  | fuel+1, disk, buf, blkbuf, p, blk, blkoff, blksz, size =>
    if 0 < size then
      match efipartReadwrite m status rw blk 1 disk blkbuf with
      | none => none
      | some r =>
        if r.error ≠ .ok then some ⟨r.error,r.disk,buf⟩
        else
          let blksz := if size < blksz then size else blksz
          let buf := blit buf p blksz fun i => r.buf (blkoff+i)
          strategyLoop rw fuel r.disk buf r.buf (p+blksz) (blk+1) 0 m.blockSize (size-blksz)
    else some ⟨.ok,disk,buf⟩

/-- `efipart_strategy` on an open disk; `malloc` is the memory that `malloc` gives. -/
def efipartStrategy (malloc : Option (ℕ → UInt8)) (rw : Rw) (blk : ℤ) (size : ℕ) (disk buf : ℕ → UInt8) : Option Result :=
  if blk < 0 then some ⟨.einval,disk,buf⟩
  else if size = 0 ∨ size%512 ≠ 0 then some ⟨.eio,disk,buf⟩
  else if m.blockSize = 512 then efipartReadwrite m status rw blk (size/512) disk buf
  else
    match malloc with
    | none => some ⟨.enomem,disk,buf⟩
    | some blkbuf =>
      if 2^63 ≤ blk*512 then none
      else
        let off := blk*512
        let blkoff := (off%m.blockSize).toNat
        strategyLoop m status rw size disk buf blkbuf 0 (off/m.blockSize) blkoff (m.blockSize-blkoff) size

/-- `dskread` of the stage before the loader: what it returns, and the memory from `buf` on. -/
def dskread (disk buf : ℕ → UInt8) (lba nblk : ℕ) : Option (ℤ × (ℕ → UInt8)) :=
  let lba := lba/(m.blockSize/512)
  if 2^31 ≤ nblk*512 then none
  else
    let size := nblk*512
    match status .read lba size with
    | .success => some (0,blit buf 0 size fun i => disk (lba*m.blockSize+i))
    | _ => some (-1,buf)

/-- The request is one of sectors of the medium, with numbers that the types of the arguments hold. -/
structure Inside (blk n : ℕ) : Prop where
  fits : (blk+n)*512 ≤ (m.lastBlock+1)*m.blockSize
  blk_lt : blk < 2^63
  size_lt : n*512 < 2^64

/-- The firmware carries out every transfer of whole blocks of the medium. -/
def Serves : Prop :=
  ∀ rw lba size, size%m.blockSize = 0 → lba*m.blockSize+size ≤ (m.lastBlock+1)*m.blockSize → status rw lba size = .success

/-- No signed number overflows on the way, and there is a bounce buffer where one is needed. -/
def Addressable (malloc : Option (ℕ → UInt8)) (blk n : ℕ) : Prop :=
  m.lastBlock < 2^63 ∧
    if m.blockSize = 512 then blk+n < 2^63 ∧ n*512 < 2^63 else blk*512 < 2^63 ∧ malloc ≠ none

attribute [local grind =] efipartReadwrite strategyLoop

end Code

/-- The sectors of the disk are in the buffer, and nothing else changed. -/
def ReadsSectors (r : Option Result) (disk buf : ℕ → UInt8) (blk n : ℕ) : Prop :=
  ∃ e, r = some ⟨e,disk,blit buf 0 (n*512) fun i => disk (blk*512+i)⟩ ∧ (n = 0 ∨ e = .ok)

/-- The sectors hold the buffer, and nothing else changed. -/
def WritesSectors (r : Option Result) (disk buf : ℕ → UInt8) (blk n : ℕ) : Prop :=
  ∃ e, r = some ⟨e,blit disk (blk*512) (n*512) buf,buf⟩ ∧ (n = 0 ∨ e = .ok)

section Native
variable {m : Media} {status : Rw → ℕ → ℕ → Status} {disk buf : ℕ → UInt8}

theorem bmod_lastBlock (h : m.lastBlock < 2^63) : Int.bmod m.lastBlock (2^64) = m.lastBlock := by
  apply Int.bmod_eq_of_le <;> omega

theorem bmod_lastBlock_neg (h : 2^63 ≤ m.lastBlock) : Int.bmod m.lastBlock (2^64) < 0 := by
  have := m.lastBlock_lt
  rw [Int.bmod_def]
  omega

/-- A transfer of blocks of the medium is carried out. -/
theorem efipartReadwrite_ok (disk buf : ℕ → UInt8) (hs : Serves m status) (hlast : m.lastBlock < 2^63) {blk nblks : ℕ}
    (hpos : 0 < nblks) (hin : blk+nblks ≤ m.lastBlock+1) (hsum : blk+nblks < 2^63) (hsize : nblks*m.blockSize < 2^63) :
    efipartReadwrite m status .read blk nblks disk buf =
      some ⟨.ok,disk,blit buf 0 (nblks*m.blockSize) fun i => disk (blk*m.blockSize+i)⟩ ∧
    (m.readOnly = false → efipartReadwrite m status .write blk nblks disk buf =
      some ⟨.ok,blit disk (blk*m.blockSize) (nblks*m.blockSize) buf,buf⟩) := by
  have hstatus : ∀ rw, status rw blk (nblks*m.blockSize) = .success := fun rw => by
    refine hs rw _ _ (Nat.mul_mod_left _ _) ?_
    rw [← Nat.add_mul]
    exact Nat.mul_le_mul_right _ hin
  have hchecks : ∀ rw, efipartReadwrite m status rw blk nblks disk buf =
      match rw with
      | .read => some ⟨.ok,disk,blit buf 0 (nblks*m.blockSize) fun i => disk (blk*m.blockSize+i)⟩
      | .write => if m.readOnly then some ⟨.erofs,disk,buf⟩
        else some ⟨.ok,blit disk (blk*m.blockSize) (nblks*m.blockSize) buf,buf⟩ := fun rw => by
    rw [efipartReadwrite,bmod_lastBlock hlast,if_neg (by omega),if_neg (by omega),if_neg (by omega),if_neg (by omega),
      Int.toNat_natCast]
    cases rw <;> simp only [hstatus]
  refine ⟨hchecks .read,fun hro => ?_⟩
  rw [hchecks .write]
  simp only [hro]
  rfl

end Native

section Loop
variable {m : Media} {status : Rw → ℕ → ℕ → Status} {disk buf blkbuf : ℕ → UInt8}

/-- One turn of the loop. -/
theorem strategyLoop_turn {rw : Rw} {fuel p blk blkoff blksz size : ℕ} (hsize : 0 < size) {r : Result}
    (hr : efipartReadwrite m status rw (blk : ℤ) 1 disk blkbuf = some r) (hok : r.error = .ok) :
    strategyLoop m status rw (fuel+1) disk buf blkbuf p blk blkoff blksz size =
      strategyLoop m status rw fuel r.disk (blit buf p (min size blksz) fun i => r.buf (blkoff+i)) r.buf
        (p+min size blksz) ((blk+1 : ℕ) : ℤ) 0 m.blockSize (size-min size blksz) := by
  have hmin : (if size < blksz then size else blksz) = min size blksz := by
    rw [Nat.min_def]
    split_ifs <;> omega
  rw [strategyLoop,if_pos hsize]
  simp only [hr,hok,hmin,ne_eq,not_true_eq_false,if_false,Nat.cast_succ]

theorem strategyLoop_done {rw : Rw} {fuel p blkoff blksz : ℕ} {blk : ℤ} :
    strategyLoop m status rw fuel disk buf blkbuf p blk blkoff blksz 0 = some ⟨.ok,disk,buf⟩ := by
  cases fuel <;> simp [strategyLoop]

/-- One block of the medium, where a byte of the request lies in it. -/
theorem readwrite_one (disk blkbuf : ℕ → UInt8) (hs : Serves m status) (hlast : m.lastBlock < 2^63)
    (hbs : 512 < m.blockSize) {b blkoff size : ℕ} (hsize : 0 < size)
    (hin : b*m.blockSize+blkoff+size ≤ (m.lastBlock+1)*m.blockSize) (hend : b*m.blockSize+blkoff+size < 2^65) :
    efipartReadwrite m status .read b 1 disk blkbuf =
      some ⟨.ok,disk,blit blkbuf 0 m.blockSize fun i => disk (b*m.blockSize+i)⟩ ∧
    (m.readOnly = false → efipartReadwrite m status .write b 1 disk blkbuf =
      some ⟨.ok,blit disk (b*m.blockSize) m.blockSize blkbuf,blkbuf⟩) := by
  have hblock : b+1 ≤ m.lastBlock+1 := by
    by_contra hgt
    have := Nat.mul_le_mul_right m.blockSize (show m.lastBlock+1 ≤ b by omega)
    omega
  have hsmall : b*512 ≤ b*m.blockSize := Nat.mul_le_mul_left b hbs.le
  have hlt := m.blockSize_lt
  have hone := efipartReadwrite_ok disk blkbuf hs hlast Nat.one_pos hblock (by omega) (by omega)
  rwa [Nat.one_mul] at hone

theorem strategyLoop_read (hs : Serves m status) (hlast : m.lastBlock < 2^63) (hbs : 512 < m.blockSize) (fuel : ℕ)
    {p b blkoff size : ℕ} (hfuel : size ≤ fuel) (hoff : blkoff < m.blockSize)
    (hin : b*m.blockSize+blkoff+size ≤ (m.lastBlock+1)*m.blockSize) (hend : b*m.blockSize+blkoff+size < 2^65) :
    strategyLoop m status .read fuel disk buf blkbuf p b blkoff (m.blockSize-blkoff) size =
      some ⟨.ok,disk,blit buf p size fun i => disk (b*m.blockSize+blkoff+i)⟩ := by
  induction fuel generalizing buf blkbuf p b blkoff size with
  | zero =>
    obtain rfl := Nat.le_zero.mp hfuel
    rw [strategyLoop_done,blit_none]
  | succ fuel ih =>
    obtain rfl | hsize := Nat.eq_zero_or_pos size
    · rw [strategyLoop_done,blit_none]
    have hread := (readwrite_one disk blkbuf hs hlast hbs hsize hin hend).1
    obtain ⟨c,hc⟩ : ∃ c, c = min size (m.blockSize-blkoff) := ⟨_,rfl⟩
    rw [strategyLoop_turn hsize hread rfl,← hc]
    dsimp only
    have hchunk : ∀ j < c, blit blkbuf 0 m.blockSize (fun i => disk (b*m.blockSize+i)) (blkoff+j) =
        disk (b*m.blockSize+blkoff+j) := fun j hj => by
      rw [blit_inside (by omega) (by omega),Nat.sub_zero,Nat.add_assoc]
    rw [blit_congr hchunk]
    by_cases hlastChunk : size ≤ m.blockSize-blkoff
    · have hcs : c = size := by omega
      rw [hcs,Nat.sub_self,strategyLoop_done]
    · have hnext : (b+1)*m.blockSize+0 = b*m.blockSize+blkoff+c := by
        rw [Nat.succ_mul]
        omega
      have hloop := @ih (blit buf p c fun i => disk (b*m.blockSize+blkoff+i))
        (blit blkbuf 0 m.blockSize fun i => disk (b*m.blockSize+i)) (p+c) (b+1) 0 (size-c) (by omega) m.blockSize_pos
        (by omega) (by omega)
      rw [Nat.sub_zero,hnext] at hloop
      rw [hloop,blit_append fun j _ => by rw [Nat.add_assoc],Nat.add_sub_cancel' (by omega)]

/-- The blocks from one on that begin in front of `e` hold the bounce buffer. -/
def rewritten (m : Media) (disk blkbuf : ℕ → UInt8) (b e : ℕ) : ℕ → UInt8 :=
  fun i => if b ≤ i/m.blockSize ∧ i/m.blockSize*m.blockSize < e then blkbuf (i%m.blockSize) else disk i

/-- The blocks behind the first one are rewritten after it. -/
theorem rewritten_succ {b e : ℕ} (he : b*m.blockSize < e) :
    rewritten m (blit disk (b*m.blockSize) m.blockSize blkbuf) blkbuf (b+1) e = rewritten m disk blkbuf b e := by
  funext i
  have hdiv := Nat.div_add_mod' i m.blockSize
  have hmod := Nat.mod_lt i m.blockSize_pos
  simp only [rewritten]
  by_cases hfirst : i/m.blockSize = b
  · rw [if_neg (by omega),if_pos (by rw [hfirst]; exact ⟨le_rfl,he⟩),blit_inside (by rw [← hfirst]; omega)
      (by rw [← hfirst]; omega)]
    congr 1
    rw [← hfirst]
    omega
  · have hout : blit disk (b*m.blockSize) m.blockSize blkbuf i = disk i := by
      apply blit_outside
      obtain hlow | hhigh := Nat.lt_or_gt_of_ne hfirst
      · have := Nat.mul_le_mul_right m.blockSize (Nat.succ_le_of_lt hlow)
        rw [Nat.succ_mul] at this
        omega
      · have := Nat.mul_le_mul_right m.blockSize (Nat.succ_le_of_lt hhigh)
        rw [Nat.succ_mul] at this
        omega
    rw [hout]
    congr 1
    simp only [eq_iff_iff]
    omega

theorem strategyLoop_write (hs : Serves m status) (hlast : m.lastBlock < 2^63) (hbs : 512 < m.blockSize)
    (hro : m.readOnly = false) (fuel : ℕ) {p b blkoff size : ℕ} (hfuel : size ≤ fuel) (hoff : blkoff < m.blockSize)
    (hzero : size = 0 → blkoff = 0) (hin : b*m.blockSize+blkoff+size ≤ (m.lastBlock+1)*m.blockSize)
    (hend : b*m.blockSize+blkoff+size < 2^65) :
    strategyLoop m status .write fuel disk buf blkbuf p b blkoff (m.blockSize-blkoff) size =
      some ⟨.ok,rewritten m disk blkbuf b (b*m.blockSize+blkoff+size),
        blit buf p size fun i => blkbuf ((blkoff+i)%m.blockSize)⟩ := by
  have hnone : ∀ (D : ℕ → UInt8) (b : ℕ), rewritten m D blkbuf b (b*m.blockSize) = D := fun D b => by
    funext i
    apply if_neg
    rintro ⟨hle,hlt⟩
    exact absurd (Nat.mul_le_mul_right m.blockSize hle) (Nat.not_le.mpr hlt)
  induction fuel generalizing disk buf p b blkoff size with
  | zero =>
    obtain rfl := Nat.le_zero.mp hfuel
    rw [strategyLoop_done,blit_none,hzero rfl,Nat.add_zero,hnone]
  | succ fuel ih =>
    obtain rfl | hsize := Nat.eq_zero_or_pos size
    · rw [strategyLoop_done,blit_none,hzero rfl,Nat.add_zero,hnone]
    have hwrite := (readwrite_one disk blkbuf hs hlast hbs hsize hin hend).2 hro
    obtain ⟨c,hc⟩ : ∃ c, c = min size (m.blockSize-blkoff) := ⟨_,rfl⟩
    rw [strategyLoop_turn hsize hwrite rfl,← hc]
    dsimp only
    have hchunk : ∀ j < c, blkbuf (blkoff+j) = blkbuf ((blkoff+j)%m.blockSize) := fun j hj => by
      rw [Nat.mod_eq_of_lt (by omega)]
    rw [blit_congr hchunk,← rewritten_succ (by omega)]
    by_cases hlastChunk : size ≤ m.blockSize-blkoff
    · have hcs : c = size := by omega
      have hstop : rewritten m (blit disk (b*m.blockSize) m.blockSize blkbuf) blkbuf (b+1) (b*m.blockSize+blkoff+size) =
          blit disk (b*m.blockSize) m.blockSize blkbuf := by
        funext i
        apply if_neg
        rintro ⟨hle,hlt⟩
        have := Nat.mul_le_mul_right m.blockSize hle
        rw [Nat.succ_mul] at this
        omega
      rw [hcs,Nat.sub_self,strategyLoop_done,hstop]
    · have hnext : (b+1)*m.blockSize+0 = b*m.blockSize+blkoff+c := by
        rw [Nat.succ_mul]
        omega
      have hloop := @ih (blit disk (b*m.blockSize) m.blockSize blkbuf)
        (blit buf p c fun i => blkbuf ((blkoff+i)%m.blockSize)) (p+c) (b+1) 0 (size-c) (by omega) m.blockSize_pos
        (fun _ => rfl) (by omega) (by omega)
      rw [Nat.sub_zero,hnext,Nat.add_assoc,Nat.add_sub_cancel' (by omega)] at hloop
      rw [hloop,blit_append fun j _ => ?_,Nat.add_sub_cancel' (by omega)]
      rw [show blkoff+(c+j) = 0+j+m.blockSize by omega,Nat.add_mod_right]

end Loop

section Sectors
variable {m : Media} {status : Rw → ℕ → ℕ → Status} {disk buf : ℕ → UInt8} {malloc : Option (ℕ → UInt8)}

/-- A request that is not for nothing, on a medium of 512-byte blocks. -/
theorem strategy_native (hbs : m.blockSize = 512) {rw : Rw} {blk n : ℕ} (hn : 0 < n) :
    efipartStrategy m status malloc rw blk (n*512) disk buf = efipartReadwrite m status rw blk n disk buf := by
  unfold efipartStrategy
  rw [if_neg (by omega),if_neg (by omega),if_pos hbs,Nat.mul_div_cancel _ (by decide)]

/-- On another one, with a bounce buffer. -/
theorem strategy_bounce (hbs : m.blockSize ≠ 512) {rw : Rw} {blk n : ℕ} (hn : 0 < n) (hoff : blk*512 < 2^63)
    (blkbuf : ℕ → UInt8) : efipartStrategy m status (some blkbuf) rw blk (n*512) disk buf =
      strategyLoop m status rw (n*512) disk buf blkbuf 0 (blk*512/m.blockSize : ℕ) (blk*512%m.blockSize)
        (m.blockSize-blk*512%m.blockSize) (n*512) := by
  have hcast : (blk : ℤ)*512 = (blk*512 : ℕ) := by rw [Nat.cast_mul,Nat.cast_ofNat]
  unfold efipartStrategy
  rw [if_neg (by omega),if_neg (by omega),if_neg hbs]
  dsimp only
  rw [if_neg (by omega),hcast,← Int.natCast_ediv,← Int.natCast_emod,Int.toNat_natCast]

theorem readwrite_far (hlast : 2^63 ≤ m.lastBlock) (rw : Rw) (blk nblks : ℕ) (disk buf : ℕ → UInt8) :
    efipartReadwrite m status rw blk nblks disk buf = some ⟨.eio,disk,buf⟩ := by
  have hneg := bmod_lastBlock_neg hlast
  rw [efipartReadwrite,if_pos (.inr (by omega))]

/-- A signed number overflows, or there is no memory. -/
theorem strategy_unaddressable {rw : Rw} {blk n : ℕ} (hn : 0 < n) (hnot : ¬Addressable m malloc blk n) {r : Result}
    (hr : efipartStrategy m status malloc rw blk (n*512) disk buf = some r) : r.error ≠ .ok := by
  rw [Addressable,not_and_or] at hnot
  by_cases hbs : m.blockSize = 512
  · rw [strategy_native hbs hn] at hr
    by_cases hlast : 2^63 ≤ m.lastBlock
    · rw [readwrite_far hlast] at hr
      cases hr
      simp
    · rw [if_pos hbs] at hnot
      rw [efipartReadwrite,bmod_lastBlock (Nat.lt_of_not_le hlast)] at hr
      by_cases hfirst : (blk : ℤ) < 0 ∨ (m.lastBlock : ℤ) < blk
      · rw [if_pos hfirst] at hr
        cases hr
        simp
      by_cases hsum : (2^63 : ℤ) ≤ blk+n
      · rw [if_neg hfirst,if_pos hsum] at hr
        cases hr
      by_cases hend : (m.lastBlock : ℤ) < blk+n-1
      · rw [if_neg hfirst,if_neg hsum,if_pos hend] at hr
        cases hr
        simp
      rw [if_neg hfirst,if_neg hsum,if_neg hend,if_pos (by rw [hbs]; omega)] at hr
      cases hr
  · rw [if_neg hbs] at hnot
    cases malloc with
    | none =>
      unfold efipartStrategy at hr
      rw [if_neg (by omega),if_neg (by omega),if_neg hbs] at hr
      cases hr
      simp
    | some blkbuf =>
      by_cases hover : 2^63 ≤ blk*512
      · unfold efipartStrategy at hr
        rw [if_neg (by omega),if_neg (by omega),if_neg hbs] at hr
        dsimp only at hr
        rw [if_pos (by omega)] at hr
        cases hr
      · have hlast : 2^63 ≤ m.lastBlock := by
          by_contra hlt
          exact hnot.elim (fun h => h (by omega)) fun h => h ⟨by omega,by simp⟩
        obtain ⟨k,hk⟩ := Nat.exists_eq_add_of_le' (show 1 ≤ n*512 by omega)
        rw [strategy_bounce hbs hn (by omega),hk,strategyLoop,if_pos (Nat.succ_pos k),readwrite_far hlast] at hr
        cases hr
        simp

theorem strategy_read (hs : Serves m status) {blk n : ℕ} (hn : 0 < n) (hin : Inside m blk n)
    (haddr : Addressable m malloc blk n) : efipartStrategy m status malloc .read blk (n*512) disk buf =
      some ⟨.ok,disk,blit buf 0 (n*512) fun i => disk (blk*512+i)⟩ := by
  obtain ⟨hlast,haddr⟩ := haddr
  have hfits := hin.fits
  by_cases hbs : m.blockSize = 512
  · rw [if_pos hbs] at haddr
    rw [strategy_native hbs hn,(efipartReadwrite_ok disk buf hs hlast hn (by rw [hbs] at hfits; omega) haddr.1
      (by rw [hbs]; exact haddr.2)).1,hbs]
  · rw [if_neg hbs] at haddr
    obtain ⟨blkbuf,rfl⟩ := Option.ne_none_iff_exists'.mp haddr.2
    have hsplit := Nat.div_add_mod' (blk*512) m.blockSize
    have hlarge : 512 < m.blockSize := lt_of_le_of_ne (Nat.le_of_dvd m.blockSize_pos m.blockSize_dvd) (Ne.symm hbs)
    have hsize := hin.size_lt
    rw [Nat.add_mul] at hfits
    rw [strategy_bounce hbs hn haddr.1,strategyLoop_read hs hlast hlarge _ le_rfl (Nat.mod_lt _ m.blockSize_pos)
      (by omega) (by omega),hsplit]

/-- What the bounce buffer holds goes to the disk and to the caller. -/
theorem strategy_write (hs : Serves m status) (hro : m.readOnly = false) {blk n : ℕ} (hn : 0 < n) (hin : Inside m blk n)
    (haddr : Addressable m malloc blk n) :
    (m.blockSize = 512 → efipartStrategy m status malloc .write blk (n*512) disk buf =
      some ⟨.ok,blit disk (blk*512) (n*512) buf,buf⟩) ∧
    (m.blockSize ≠ 512 → ∀ blkbuf, malloc = some blkbuf →
      efipartStrategy m status malloc .write blk (n*512) disk buf =
        some ⟨.ok,rewritten m disk blkbuf (blk*512/m.blockSize) ((blk+n)*512),
          blit buf 0 (n*512) fun i => blkbuf ((blk*512+i)%m.blockSize)⟩) := by
  obtain ⟨hlast,haddr⟩ := haddr
  have hfits := hin.fits
  refine ⟨fun hbs => ?_,fun hbs blkbuf hmalloc => ?_⟩
  · rw [if_pos hbs] at haddr
    rw [strategy_native hbs hn,(efipartReadwrite_ok disk buf hs hlast hn (by rw [hbs] at hfits; omega) haddr.1
      (by rw [hbs]; exact haddr.2)).2 hro,hbs]
  · rw [if_neg hbs] at haddr
    have hsplit := Nat.div_add_mod' (blk*512) m.blockSize
    have hlarge : 512 < m.blockSize := lt_of_le_of_ne (Nat.le_of_dvd m.blockSize_pos m.blockSize_dvd) (Ne.symm hbs)
    have hsize := hin.size_lt
    rw [Nat.add_mul] at hfits
    rw [hmalloc,strategy_bounce hbs hn haddr.1,strategyLoop_write hs hlast hlarge hro _ le_rfl
      (Nat.mod_lt _ m.blockSize_pos) (fun h => absurd h (by omega)) (by omega) (by omega),hsplit,← Nat.add_mul]
    simp only [Nat.mod_add_mod]

/-- Every native block that the request touches is to hold what the memory from `malloc` holds already. -/
def Chance (m : Media) (blkbuf disk buf : ℕ → UInt8) (blk n : ℕ) : Prop :=
  ∀ b, blk*512 < (b+1)*m.blockSize → b*m.blockSize < (blk+n)*512 → ∀ i < m.blockSize,
    blkbuf i = blit disk (blk*512) (n*512) buf (b*m.blockSize+i)

theorem rewritten_eq_iff {blkbuf : ℕ → UInt8} {blk n : ℕ} :
    (rewritten m disk blkbuf (blk*512/m.blockSize) ((blk+n)*512) = blit disk (blk*512) (n*512) buf ∧
      blit buf 0 (n*512) (fun i => blkbuf ((blk*512+i)%m.blockSize)) = buf) ↔ Chance m blkbuf disk buf blk n := by
  have hpos := m.blockSize_pos
  have hfrom : ∀ b, blk*512/m.blockSize ≤ b ↔ blk*512 < (b+1)*m.blockSize := fun b => by
    rw [← Nat.lt_succ_iff,Nat.div_lt_iff_lt_mul hpos]
  constructor
  · rintro ⟨hdisk,-⟩ b hfirst hlast i hi
    have hdiv : (b*m.blockSize+i)/m.blockSize = b := by
      rw [Nat.mul_comm,Nat.mul_add_div hpos,Nat.div_eq_of_lt hi,Nat.add_zero]
    have hmod : (b*m.blockSize+i)%m.blockSize = i := by
      rw [Nat.mul_comm,Nat.mul_add_mod,Nat.mod_eq_of_lt hi]
    rw [← hdisk,rewritten,hdiv,hmod,if_pos ⟨(hfrom b).mpr hfirst,hlast⟩]
  · intro h
    -- a byte of a touched block is as it is to be
    have hbyte : ∀ i, blk*512 < (i/m.blockSize+1)*m.blockSize → i/m.blockSize*m.blockSize < (blk+n)*512 →
        blkbuf (i%m.blockSize) = blit disk (blk*512) (n*512) buf i := fun i hfirst hlast => by
      have := h _ hfirst hlast _ (Nat.mod_lt i hpos)
      rwa [Nat.div_add_mod'] at this
    have hnext : ∀ i, i < (i/m.blockSize+1)*m.blockSize := fun i => Nat.lt_mul_of_div_lt (Nat.lt_succ_self _) hpos
    have hstart : ∀ i, i/m.blockSize*m.blockSize ≤ i := fun i => Nat.div_mul_le_self i _
    constructor
    · funext i
      simp only [rewritten,hfrom]
      split_ifs with hin
      · exact hbyte i hin.1 hin.2
      · have := hnext i
        have := hstart i
        rw [blit_outside (by rw [← Nat.add_mul]; omega)]
    · funext i
      by_cases hi : i < n*512
      · have hlast : blk*512+i < blk*512+n*512 := Nat.add_lt_add_left hi _
        have hi' : i < 0+n*512 := by rwa [Nat.zero_add]
        rw [blit_inside (Nat.zero_le i) hi',Nat.sub_zero,
          hbyte _ ((Nat.le_add_right _ _).trans_lt (hnext _)) ((hstart _).trans_lt (by rwa [Nat.add_mul])),
          blit_inside (Nat.le_add_right _ _) hlast,Nat.add_sub_cancel_left]
      · exact blit_outside (.inr (by omega))

/-- The native block that a sector number is rounded down to starts at the sector. -/
def StartsBlock (m : Media) (lba : ℕ) : Prop := lba/(m.blockSize/512)*m.blockSize = lba*512

/-- By chance the bytes from that block on are those of the sectors. -/
def AlikeFrom (m : Media) (disk : ℕ → UInt8) (lba nblk : ℕ) : Prop :=
  ∀ i < nblk*512, disk (lba/(m.blockSize/512)*m.blockSize+i) = disk (lba*512+i)

theorem StartsBlock.alike {lba : ℕ} (h : StartsBlock m lba) (nblk : ℕ) : AlikeFrom m disk lba nblk := fun i _ => by
  rw [show lba/(m.blockSize/512)*m.blockSize = lba*512 from h]

/-- Reads of the loader store the sectors they name whenever no number overflows; writes change just these sectors on a
medium of 512-byte blocks only, chance apart; and the earlier stage reads the sectors at the first native block. -/
theorem efiDisk_sectors (m : Media) (status : Rw → ℕ → ℕ → Status) (hs : Serves m status)
    (malloc : Option (ℕ → UInt8)) (disk buf : ℕ → UInt8) :
    (∀ blk n, Inside m blk n → (ReadsSectors (efipartStrategy m status malloc .read blk (n*512) disk buf) disk buf blk n ↔
      n = 0 ∨ Addressable m malloc blk n)) ∧
    (∀ blk n, Inside m blk n → m.readOnly = false →
      (WritesSectors (efipartStrategy m status malloc .write blk (n*512) disk buf) disk buf blk n ↔
        n = 0 ∨ Addressable m malloc blk n ∧
          (m.blockSize = 512 ∨ ∃ blkbuf, malloc = some blkbuf ∧ Chance m blkbuf disk buf blk n))) ∧
    ∀ lba nblk, status .read (lba/(m.blockSize/512)) (nblk*512) = .success →
      (dskread m status disk buf lba nblk = some (0,blit buf 0 (nblk*512) fun i => disk (lba*512+i)) ↔
        nblk*512 < 2^31 ∧ (StartsBlock m lba ∨ AlikeFrom m disk lba nblk)) := by
  have hnothing : ∀ (rw : Rw) (blk : ℕ), efipartStrategy m status malloc rw blk (0*512) disk buf =
      some ⟨.eio,disk,buf⟩ := fun rw blk => by
    unfold efipartStrategy
    rw [if_neg (by omega),if_pos (.inl (Nat.zero_mul _))]
  refine ⟨fun blk n hin => ?_,fun blk n hin hro => ?_,fun lba nblk hok => ?_⟩
  · obtain rfl | hn := Nat.eq_zero_or_pos n
    · exact iff_of_true ⟨.eio,by rw [hnothing,Nat.zero_mul,blit_none],.inl rfl⟩ (.inl rfl)
    · constructor
      · rintro ⟨e,hres,hzero | rfl⟩
        · exact .inl hzero
        · by_contra hnot
          push Not at hnot
          exact strategy_unaddressable hn hnot.2 hres rfl
      · rintro (hzero | haddr)
        · omega
        · exact ⟨.ok,strategy_read hs hn hin haddr,.inr rfl⟩
  · obtain rfl | hn := Nat.eq_zero_or_pos n
    · exact iff_of_true ⟨.eio,by rw [hnothing,Nat.zero_mul,blit_none],.inl rfl⟩ (.inl rfl)
    · constructor
      · rintro ⟨e,hres,hzero | rfl⟩
        · exact .inl hzero
        · have haddr : Addressable m malloc blk n := by
            by_contra hnot
            exact strategy_unaddressable hn hnot hres rfl
          refine .inr ⟨haddr,?_⟩
          by_cases hbs : m.blockSize = 512
          · exact .inl hbs
          · have hmalloc := haddr.2
            rw [if_neg hbs] at hmalloc
            obtain ⟨blkbuf,hblkbuf⟩ := Option.ne_none_iff_exists'.mp hmalloc.2
            rw [(strategy_write hs hro hn hin haddr).2 hbs blkbuf hblkbuf] at hres
            simp only [Option.some.injEq,Result.mk.injEq,true_and] at hres
            exact .inr ⟨blkbuf,hblkbuf,rewritten_eq_iff.mp hres⟩
      · rintro (hzero | ⟨haddr,hcase⟩)
        · omega
        · refine ⟨.ok,?_,.inr rfl⟩
          by_cases hbs : m.blockSize = 512
          · exact (strategy_write hs hro hn hin haddr).1 hbs
          · obtain ⟨blkbuf,hblkbuf,hchance⟩ := hcase.resolve_left hbs
            obtain ⟨hdisk,hbuf⟩ := rewritten_eq_iff.mpr hchance
            rw [(strategy_write hs hro hn hin haddr).2 hbs blkbuf hblkbuf,hdisk,hbuf]
  · rw [or_iff_right_of_imp fun h => StartsBlock.alike h nblk,dskread]
    by_cases hint : 2^31 ≤ nblk*512
    · rw [if_pos hint]
      exact iff_of_false (by simp) fun h => by omega
    · rw [if_neg hint]
      simp only [hok,Option.some.injEq,Prod.mk.injEq,true_and]
      constructor
      · intro h
        refine ⟨by omega,fun i hi => ?_⟩
        have := congrFun h i
        rwa [blit_inside (Nat.zero_le i) (by omega),blit_inside (Nat.zero_le i) (by omega),Nat.sub_zero] at this
      · rintro ⟨-,h⟩
        exact blit_congr h

/-- Two blocks of eight sectors. -/
def media4k : Media := ⟨4096,1,false,by decide,by decide,by decide,by decide⟩

def allSucceed (_ : Rw) (_ _ : ℕ) : Status := .success

theorem media4k_inside {blk n : ℕ} (h : blk+n ≤ 16) : Inside media4k blk n where
  fits := by
    simp only [media4k]
    omega
  blk_lt := by omega
  size_lt := by omega

theorem media4k_addressable (blkbuf : ℕ → UInt8) {blk n : ℕ} (h : blk ≤ 16) : Addressable media4k (some blkbuf) blk n := by
  refine ⟨by decide,?_⟩
  rw [if_neg (by decide)]
  exact ⟨by omega,by simp⟩

theorem allSucceed_serves : Serves media4k allSucceed := fun _ _ _ _ _ => rfl

theorem efiDisk_sectors_media4k :
    ReadsSectors (efipartStrategy media4k allSucceed (some fun _ => 0) .read (9 : ℕ) (3*512) UInt8.ofNat fun _ => 0)
      UInt8.ofNat (fun _ => 0) 9 3 ∧
    dskread media4k allSucceed UInt8.ofNat (fun _ => 0) 8 8 =
      some (0,blit (fun _ => 0) 0 (8*512) fun i => UInt8.ofNat (8*512+i)) := by
  obtain ⟨hread,-,hdsk⟩ := efiDisk_sectors media4k _ allSucceed_serves (some fun _ => 0) UInt8.ofNat fun _ => 0
  exact ⟨(hread 9 3 (media4k_inside (by decide))).mpr (.inr (media4k_addressable _ (by decide))),
    (hdsk 8 8 rfl).mpr ⟨by decide,.inl rfl⟩⟩

def firstSectorZero (i : ℕ) : UInt8 := if i < 512 then 0 else 1

/-- A write of one sector puts what `malloc` gave on the disk and into the caller's buffer, and a read of the earlier stage
from the second sector on begins with the first. -/
theorem efiDisk_sectors_fails :
    ¬WritesSectors (efipartStrategy media4k allSucceed (some fun _ => 0) .write (0 : ℕ) (1*512) (fun _ => 0) fun _ => 1)
      (fun _ => 0) (fun _ => 1) 0 1 ∧
    dskread media4k allSucceed firstSectorZero (fun _ => 7) 1 8 ≠
      some (0,blit (fun _ => 7) 0 (8*512) fun i => firstSectorZero (1*512+i)) := by
  constructor
  · rintro ⟨e,hres,-⟩
    rw [(strategy_write allSucceed_serves rfl Nat.one_pos (media4k_inside (show 0+1 ≤ 16 by decide))
      (media4k_addressable _ (by decide))).2 (by decide) _ rfl] at hres
    have hbuf := congrArg (Option.map fun r => r.buf 0) hres
    simp [blit] at hbuf
  · intro h
    have hfirst := congrArg (Option.map fun r => r.2 0) h
    simp [dskread,allSucceed,media4k,blit,firstSectorZero] at hfirst

end Sectors

end Blub.Boot.EfiPart
