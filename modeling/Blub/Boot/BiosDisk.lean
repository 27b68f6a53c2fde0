import Blub.Boot.Int13

/-! The disks of the BIOS in `biosdisk.c`: what a probe finds out about one, and the reads and writes. -/
namespace Blub.Boot.BiosDisk
open Bytes Int13

section Code

def fRead : ℕ := 1
def fWrite : ℕ := 2
def eio : ℕ := 5
def erofs : ℕ := 30
def floppyBouncebuf : ℕ := 18
def biosdiskSecsize : ℕ := 512
def eddInterfaceFixedDisk : ℕ := 1

/-- What the transfers use of a `bdinfo`: the drive, the geometry, whether there is EDD, and the size of a sector. -/
structure Bdinfo where
  unit : ℕ
  hds : ℕ
  sec : ℕ
  edd : Bool
  sectorsize : ℕ
  unit_lt : unit < 2^8
  hds_pos : 0 < hds
  hds_le : hds ≤ 2^8
  sec_pos : 0 < sec
  sec_lt : sec < 2^6
  sectorsize_lt : sectorsize < 2^16

/-- The carry flag and the registers after a call. -/
structure Reply where
  cy : Bool
  eax : ℕ
  ebx : ℕ
  ecx : ℕ
  edx : ℕ

theorem hds_lt (edx : ℕ) : ((edx &&& 0xff00) >>> 8)+1 ≤ 2^8 := by
  have h : edx &&& 0xff00 ≤ 0xff00 := Nat.and_le_right
  rw [Nat.shiftRight_eq_div_pow]
  omega

theorem sec_lt (ecx : ℕ) : ecx &&& 0x3f < 2^6 := Nat.lt_succ_of_le Nat.and_le_right

/-- `bd_int13probe`, with the replies to the calls 0x800 and 0x4100 and the size of a sector by the call 0x4800. -/
def bdInt13probe (unit : ℕ) (hunit : unit < 2^8) (geom ext : Reply) (params : Option UInt16) : Option Bdinfo :=
  if h : geom.cy = true ∨ geom.ecx &&& 0x3f = 0 ∨ geom.edx &&& 0xff ≤ unit &&& 0x7f then none
  else
    let edd := ¬ (ext.cy = true ∨ ext.ebx &&& 0xffff ≠ 0xaa55 ∨ ext.ecx &&& eddInterfaceFixedDisk = 0)
    some
      { unit := unit
        hds := ((geom.edx &&& 0xff00) >>> 8)+1
        sec := geom.ecx &&& 0x3f
        edd := edd
        sectorsize := if edd then (params.map UInt16.toNat).getD biosdiskSecsize else biosdiskSecsize
        unit_lt := hunit
        hds_pos := Nat.succ_pos _
        hds_le := hds_lt _
        sec_pos := Nat.pos_of_ne_zero fun h₀ => h (Or.inr (Or.inl h₀))
        sec_lt := sec_lt _
        sectorsize_lt := by
          split_ifs
          · cases params with
            | none => decide
            | some v => exact v.toNat_lt
          · decide }

variable (bd : Bdinfo) (write : Bool)

def Bdinfo.bpc : ℕ := bd.sec*bd.hds

def Bdinfo.bdEddIo (dblk blks dest : ℕ) : Call :=
  .edd (if write then 0x4300 else 0x4200) bd.unit (blks%2^16) (vtopoff dest) (vtopseg dest) (dblk%2^64)

def Bdinfo.bdChsIo (dblk blks dest : ℕ) : Option Call :=
  let x := dblk%2^32
  let cyl := x/bd.bpc
  let x := x%bd.bpc
  let hd := x/bd.sec
  let sec := x%bd.sec+1
  -- CHS doesn't support cylinders > 1023.
  if cyl > 1023 then none
  else some (.chs ((if write then 0x300 else 0x200) ||| blks) (((cyl &&& 0xff) <<< 8 ||| (cyl &&& 0x300) >>> 2) ||| sec)
    (hd <<< 8 ||| bd.unit) (vtopseg dest) (vtopoff dest))

def Bdinfo.io (dblk blks dest : ℕ) : Option Call :=
  if bd.edd then some (bd.bdEddIo write dblk blks dest) else bd.bdChsIo write dblk blks dest

/-- Whether there must be a bounce buffer. The size of the transfer is computed as an `int`. -/
def Bdinfo.bounces (dest blks : ℕ) : Option Bool :=
  if dest >>> 20 ≠ 0 then some true
  else if bd.unit < 0x80 then
    if blks*bd.sectorsize < 2^31 then some (decide (dest >>> 16 ≠ (dest+blks*bd.sectorsize) >>> 16)) else none
  else some false

/-- The number of blocks that the bounce buffer holds, and the half of it that is used. -/
def maxfer (blks : ℕ) : ℕ := min floppyBouncebuf blks

def Bdinfo.breg (bbuf blks : ℕ) : ℕ :=
  if bbuf &&& 0xffff0000 = (bbuf+maxfer blks*bd.sectorsize) &&& 0xffff0000 then bbuf
  else bbuf+maxfer blks*bd.sectorsize

/-- The loop of `bd_io`; the transfers are of at most `limit` blocks if it is positive. -/
def Bdinfo.driver (limit : ℕ) : Driver where
  unit := bd.unit
  hds := bd.hds
  sec := bd.sec
  ss := bd.sectorsize
  size := fun dblk resid =>
    let x := min (bd.sec-dblk%bd.sec) resid
    if limit > 0 then min x limit else x
  io := bd.io write
  stops := true

def Bdinfo.bdIo (b : Bios) (mem : ℕ → UInt8) (bbuf dblk : ℕ) (blks : ℤ) (dest : ℕ) : Option (ℤ × State) :=
  if blks < 0 then some (-1,⟨mem,[]⟩)
  else
    match bd.bounces dest blks.toNat with
    | none => none
    | some true =>
      (bd.driver write (maxfer blks.toNat)).loop b write (some (bd.breg bbuf blks.toNat)) blks.toNat dest dblk
        blks.toNat ⟨mem,[]⟩
    | some false => (bd.driver write 0).loop b write none blks.toNat dest dblk blks.toNat ⟨mem,[]⟩

/-- `bd_realstrategy`: the error, what is left in `*rsize`, and the state. It panics if the size is no multiple of a
sector. -/
def Bdinfo.bdRealstrategy (b : Bios) (mem : ℕ → UInt8) (bbuf rw dblk size dest : ℕ) : Option (ℕ × ℕ × State) :=
  if bd.sectorsize = 0 ∨ size%bd.sectorsize ≠ 0 then none
  else
    let blks : ℤ := Int.bmod ((size/bd.sectorsize : ℕ) : ℤ) (2^32)
    let go (write : Bool) : Option (ℕ × ℕ × State) :=
      if blks = 0 then some (0,size,⟨mem,[]⟩)
      else (bd.bdIo write b mem bbuf dblk blks dest).map fun (r,s) => if r = 0 then (0,size,s) else (eio,0,s)
    if rw = fRead then go false
    else if rw = fWrite then go true
    else some (erofs,0,⟨mem,[]⟩)

attribute [local grind =] Bdinfo.bdIo

end Code

section Registers

/-- The function, the drive, and whether the address is one of the geometry. -/
def ah : Call → ℕ
  | .edd eax _ _ _ _ _ => eax/256
  | .chs eax _ _ _ _ => eax/256

def dl : Call → ℕ
  | .edd _ edx _ _ _ _ => edx%256
  | .chs _ _ edx _ _ => edx%256

def Valid (hds sec : ℕ) : Call → Prop
  | .edd _ _ _ _ _ _ => True
  | .chs _ ecx edx _ _ => edx/256 < hds ∧ 0 < ecx%64 ∧ ecx%64 ≤ sec

def Bdinfo.function (bd : Bdinfo) (write : Bool) : ℕ := (if write then 3 else 2)+if bd.edd then 0x40 else 0

theorem or_low {a b : ℕ} (i : ℕ) (hb : b < 2^i) : a <<< i ||| b = a*2^i+b := by
  rw [Nat.shiftLeft_eq,Nat.mul_comm,or_mask a hb]

theorem cylinder : ∀ cyl < 1024, cyl &&& 0xff = cyl%256 ∧ (cyl &&& 0x300) >>> 2 = (cyl/256) <<< 6 := by
  decide +kernel

theorem cylinder_sector {cyl sec : ℕ} (hcyl : cyl < 1024) (hsec : sec < 2^6) :
    ((cyl &&& 0xff) <<< 8 ||| (cyl &&& 0x300) >>> 2) ||| sec = cyl%256*256+cyl/256*64+sec := by
  obtain ⟨hlow,hhigh⟩ := cylinder cyl hcyl
  have hrest : cyl/256*2^6+sec < 2^8 := by omega
  rw [Nat.or_assoc,hlow,hhigh,or_low 6 hsec,or_low 8 hrest]
  omega

theorem ecx_decode {cyl sec : ℕ} (hcyl : cyl < 1024) (hsec : sec < 2^6) :
    (cyl%256*256+cyl/256*64+sec)/256%256+(cyl%256*256+cyl/256*64+sec)/64%4*256 = cyl ∧
      (cyl%256*256+cyl/256*64+sec)%64 = sec := by
  have hlow : (cyl%256*256+cyl/256*64+sec)/256 = cyl%256 := by omega
  have hhigh : (cyl%256*256+cyl/256*64+sec)/64 = cyl%256*4+cyl/256 := by omega
  rw [hlow,hhigh,Nat.mod_mod,Nat.mul_add_mod_of_lt (Nat.div_lt_of_lt_mul hcyl),Nat.mod_add_div']
  exact ⟨rfl,by omega⟩

variable {bd : Bdinfo} {write : Bool}

theorem bpc_pos (bd : Bdinfo) : 0 < bd.bpc := Nat.mul_pos bd.sec_pos bd.hds_pos

theorem bpc_lt (bd : Bdinfo) : 1024*bd.bpc < 2^32 := by
  have h : bd.sec*bd.hds ≤ 2^6*2^8 := Nat.mul_le_mul bd.sec_lt.le bd.hds_le
  rw [Bdinfo.bpc]
  omega

theorem bdChsIo_none {dblk blks dest : ℕ} :
    bd.bdChsIo write dblk blks dest = none ↔ 1024*bd.bpc ≤ dblk%2^32 := by
  rw [Bdinfo.bdChsIo,← Nat.le_div_iff_mul_le (bpc_pos bd)]
  split_ifs with h
  · exact iff_of_true rfl h
  · exact iff_of_false (by simp) h

/-- The cylinder, the head and the sector denote the block. -/
theorem bdChsIo_spec {dblk blks dest : ℕ} {c : Call} (hblks : blks < 2^6) (h : bd.bdChsIo write dblk blks dest = some c) :
    c.lba bd.hds bd.sec = dblk%2^32 ∧ c.count = blks ∧ c.addr = vtopseg dest*16+vtopoff dest ∧
      ah c = (if write then 3 else 2) ∧ dl c = bd.unit ∧ Valid bd.hds bd.sec c := by
  have hsome : dblk%2^32/bd.bpc < 1024 := by
    rw [Nat.div_lt_iff_lt_mul (bpc_pos bd)]
    by_contra hle
    rw [bdChsIo_none.mpr (Nat.le_of_not_lt hle)] at h
    cases h
  rw [Bdinfo.bdChsIo,if_neg (Nat.not_lt.mpr (Nat.le_of_lt_succ hsome)),Option.some_inj] at h
  subst h
  obtain ⟨cyl,hcyl⟩ : ∃ cyl, dblk%2^32/bd.bpc = cyl := ⟨_,rfl⟩
  obtain ⟨x,hx⟩ : ∃ x, dblk%2^32%bd.bpc = x := ⟨_,rfl⟩
  have hdiv : dblk%2^32 = cyl*bd.bpc+x := by
    rw [← hcyl,← hx,Nat.mul_comm]
    exact (Nat.div_add_mod _ _).symm
  have hhd : x/bd.sec < bd.hds := by
    rw [Nat.div_lt_iff_lt_mul bd.sec_pos,Nat.mul_comm,← hx]
    exact Nat.mod_lt _ (bpc_pos bd)
  have hsec : x%bd.sec < bd.sec := Nat.mod_lt x bd.sec_pos
  have hsec_lt := bd.sec_lt
  have hhds := bd.hds_le
  rw [hcyl] at hsome
  rw [hcyl,hx,cylinder_sector hsome (by omega),or_low 8 bd.unit_lt]
  have heax : (if write then 0x300 else 0x200) ||| blks = (if write then 3 else 2)*2^8+blks := by
    rw [← or_low 8 (by omega)]
    cases write <;> rfl
  rw [heax]
  have hunit := bd.unit_lt
  refine ⟨?_,?_,rfl,?_,?_,?_,?_,?_⟩
  · obtain ⟨hcylinder,hsector⟩ := @ecx_decode cyl (x%bd.sec+1) hsome (by omega)
    have hhead : (x/bd.sec*2^8+bd.unit)/256%256 = x/bd.sec := by omega
    rw [Call.lba,hcylinder,hhead,hsector,Nat.add_sub_cancel,hdiv,Nat.add_mul,Nat.add_assoc,Nat.mul_comm (x/bd.sec),
      Nat.div_add_mod,Nat.mul_assoc,Nat.mul_comm bd.hds]
    rfl
  · rw [Call.count]
    omega
  · rw [ah]
    omega
  · rw [dl]
    omega
  · omega
  · omega
  · omega

end Registers

section Geometry
variable {bd : Bdinfo} {write : Bool} {limit : ℕ} {breg : Option ℕ}

theorem size_bounds {dblk resid : ℕ} (hresid : 0 < resid) :
    0 < (bd.driver write limit).size dblk resid ∧ (bd.driver write limit).size dblk resid ≤ resid ∧
      dblk%bd.sec+(bd.driver write limit).size dblk resid ≤ bd.sec ∧
      (0 < limit → (bd.driver write limit).size dblk resid ≤ limit) := by
  have hmod : dblk%bd.sec < bd.sec := Nat.mod_lt _ bd.sec_pos
  simp only [Bdinfo.driver]
  split_ifs with h <;> omega

theorem driver_splits : (bd.driver write limit).Splits := fun _ _ h =>
  ⟨(size_bounds h).1,(size_bounds h).2.1⟩

theorem piece_bounds {fuel p dblk resid : ℕ} : ∀ pc ∈ (bd.driver write limit).pieces fuel p dblk resid,
    pc.lba%bd.sec+pc.count ≤ bd.sec ∧ (0 < limit → pc.count ≤ limit) := by
  intro pc hpc
  obtain ⟨resid,hresid,hcount⟩ := pieces_size pc hpc
  rw [hcount]
  exact (size_bounds hresid).2.2

theorem count_lt {pc : Chunk} (h : pc.lba%bd.sec+pc.count ≤ bd.sec) : pc.count < 2^6 := by
  have hsec := bd.sec_lt
  omega

/-- What the call for a piece asks for. -/
theorem call_spec {pc : Chunk} {c : Call} (hcount : pc.count < 2^6) (h : (bd.driver write limit).call breg pc = some c) :
    c.lba bd.hds bd.sec = (if bd.edd then pc.lba%2^64 else pc.lba%2^32) ∧ c.count = pc.count ∧
      c.addr = vtopseg (breg.getD pc.p)*16+vtopoff (breg.getD pc.p) ∧ ah c = bd.function write ∧ dl c = bd.unit ∧
      Valid bd.hds bd.sec c := by
  change bd.io write pc.lba pc.count (breg.getD pc.p) = some c at h
  rw [Bdinfo.io] at h
  rw [Bdinfo.function]
  cases hedd : bd.edd with
  | false =>
    rw [hedd] at h
    exact bdChsIo_spec hcount h
  | true =>
    rw [hedd,if_pos rfl,Option.some_inj] at h
    subst h
    have hunit := bd.unit_lt
    refine ⟨rfl,Nat.mod_eq_of_lt (by omega),rfl,?_,Nat.mod_eq_of_lt hunit,trivial⟩
    cases write <;> rfl

theorem call_isSome {pc : Chunk} : ((bd.driver write limit).call breg pc).isSome = true ↔
    (bd.edd = true ∨ pc.lba%2^32 < 1024*bd.bpc) := by
  change (bd.io write pc.lba pc.count (breg.getD pc.p)).isSome = true ↔ _
  rw [Bdinfo.io]
  cases bd.edd with
  | true => exact iff_of_true rfl (Or.inl rfl)
  | false =>
    rw [if_neg Bool.false_ne_true,← Option.ne_none_iff_isSome,Ne,bdChsIo_none]
    simp

/-- A track does not reach over the last block that has a cylinder. -/
theorem track_limit {lba count : ℕ} (h : lba%bd.sec+count ≤ bd.sec) (hlba : lba < 1024*bd.bpc) :
    lba+count ≤ 1024*bd.bpc := by
  have hlimit : 1024*bd.bpc = bd.sec*(1024*bd.hds) := by
    rw [Bdinfo.bpc]
    ring
  have hdiv : lba/bd.sec < 1024*bd.hds := by
    rw [Nat.div_lt_iff_lt_mul bd.sec_pos,Nat.mul_comm,← hlimit]
    exact hlba
  have hle : bd.sec*(lba/bd.sec+1) ≤ bd.sec*(1024*bd.hds) := Nat.mul_le_mul_left _ hdiv
  have hmod := Nat.div_add_mod lba bd.sec
  rw [Nat.mul_add,Nat.mul_one] at hle
  omega

theorem page_iff {a c : ℕ} (ha : a < 2^32) (hc : c < 2^32) : a &&& 0xffff0000 = c &&& 0xffff0000 ↔ a/2^16 = c/2^16 := by
  have hmask := fun u => and_mask u 16 16
  norm_num only at hmask
  rw [hmask,hmask]
  omega

/-- The half of the bounce buffer lies below 1 MB, and in one page if sectors are of the usual size. -/
theorem breg_spec {bbuf blks : ℕ} (hbuf : bbuf+2*(maxfer blks*bd.sectorsize) ≤ 2^20) :
    bbuf ≤ bd.breg bbuf blks ∧ bd.breg bbuf blks+maxfer blks*bd.sectorsize ≤ bbuf+2*(maxfer blks*bd.sectorsize) ∧
      (bd.sectorsize = 512 → ∀ n, 0 < n → n ≤ maxfer blks*bd.sectorsize →
        bd.breg bbuf blks/2^16 = (bd.breg bbuf blks+n-1)/2^16) := by
  have hmax : maxfer blks ≤ 18 := Nat.min_le_left _ _
  have hiff := @page_iff bbuf (bbuf+maxfer blks*bd.sectorsize) (by omega) (by omega)
  rw [Bdinfo.breg]
  split_ifs with h
  · rw [hiff] at h
    exact ⟨le_rfl,by omega,fun _ n hn hle => by omega⟩
  · rw [hiff] at h
    refine ⟨by omega,by omega,fun hss n hn hle => ?_⟩
    have hlen : maxfer blks*bd.sectorsize ≤ 18*512 := by
      rw [hss]
      exact Nat.mul_le_mul_right _ hmax
    omega

theorem bounces_false {dest blks : ℕ} (h : bd.bounces dest blks = some false) :
    dest < 2^20 ∧ (bd.unit < 0x80 → dest/2^16 = (dest+blks*bd.sectorsize)/2^16) := by
  rw [Bdinfo.bounces,Nat.shiftRight_eq_div_pow,Nat.shiftRight_eq_div_pow,Nat.shiftRight_eq_div_pow] at h
  split_ifs at h with hhigh hfloppy hint
  · simp at h
  · exact ⟨by omega,fun _ => by simpa using h⟩
  · exact ⟨by omega,fun hlt => absurd hlt hfloppy⟩

theorem bounces_empty (bd : Bdinfo) (dest : ℕ) : ∃ bounce, bd.bounces dest 0 = some bounce := by
  rw [Bdinfo.bounces,Nat.zero_mul,if_pos (Nat.two_pow_pos 31)]
  split_ifs <;> exact ⟨_,rfl⟩

/-- The buffer for the calls, if it is not the destination. -/
def Bdinfo.region (bd : Bdinfo) (bounce : Bool) (bbuf blks : ℕ) : Option ℕ :=
  if bounce then some (bd.breg bbuf blks) else none

def limitFor (bounce : Bool) (blks : ℕ) : ℕ := if bounce then maxfer blks else 0

/-- The pieces that the loop splits a request into. -/
def Bdinfo.pieces (bd : Bdinfo) (bounce : Bool) (dest dblk blks : ℕ) : List Chunk :=
  (bd.driver false (limitFor bounce blks)).pieces blks dest dblk blks

theorem pieces_chain {dest dblk blks : ℕ} {bounce : Bool} :
    Chain bd.sectorsize dest dblk blks (bd.pieces bounce dest dblk blks) :=
  Int13.pieces_chain driver_splits le_rfl dest dblk

theorem pieces_eq {d d' : Driver} (hsize : d.size = d'.size) (hss : d.ss = d'.ss) (fuel p dblk resid : ℕ) :
    d.pieces fuel p dblk resid = d'.pieces fuel p dblk resid := by
  induction fuel generalizing p dblk resid with
  | zero => rfl
  | succ fuel ih => rw [Driver.pieces,Driver.pieces,hsize,hss,ih]

theorem bdIo_eq {b : Bios} {mem : ℕ → UInt8} {bbuf dblk blks dest : ℕ} {bounce : Bool}
    (h : bd.bounces dest blks = some bounce) :
    bd.bdIo write b mem bbuf dblk blks dest = some ((bd.driver write (limitFor bounce blks)).run b write
      (bd.region bounce bbuf blks) (bd.pieces bounce dest dblk blks) ⟨mem,[]⟩) := by
  have hpos : ¬ (blks : ℤ) < 0 := Int.not_lt.mpr (Int.natCast_nonneg blks)
  have hpieces := @pieces_eq (bd.driver write (limitFor bounce blks)) (bd.driver false (limitFor bounce blks)) rfl rfl
    blks dest dblk blks
  rw [Bdinfo.bdIo,if_neg hpos,Int.toNat_natCast,h,Bdinfo.pieces,← hpieces,← loop_eq driver_splits le_rfl]
  cases bounce <;> rfl

theorem bdIo_overflow {b : Bios} {mem : ℕ → UInt8} {bbuf dblk blks dest : ℕ} (h : bd.bounces dest blks = none) :
    bd.bdIo write b mem bbuf dblk blks dest = none := by
  have hpos : ¬ (blks : ℤ) < 0 := Int.not_lt.mpr (Int.natCast_nonneg blks)
  rw [Bdinfo.bdIo,if_neg hpos,Int.toNat_natCast,h]

end Geometry

end Blub.Boot.BiosDisk
