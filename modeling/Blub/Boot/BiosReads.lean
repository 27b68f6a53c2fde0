import Blub.Boot.BiosDisk

/-! Reads by `bd_realstrategy` of `biosdisk.c` and by `bc_strategy` of `bioscd.c`: when a read that the BIOS fails is
reported. -/
namespace Blub.Boot.BiosReads
open Int13 BiosDisk

section Code

def einval : ℕ := 22
def bioscdSecsize : ℕ := 2048
def devBsize : ℕ := 512
def cdBouncebuf : ℕ := 8

/-- The loop of `bc_read`. It does not look at the result of the last attempt. -/
def cdDriver (biosdev limit : ℕ) : Driver where
  unit := biosdev
  hds := 1
  sec := 1
  ss := bioscdSecsize
  size := fun _ resid => if limit > 0 then min resid limit else resid
  io := fun dblk x dest => some (.edd 0x4200 biosdev (x%2^16) (vtopoff dest) (vtopseg dest) (dblk%2^64))
  stops := false

variable (b : Bios) (mem : ℕ → UInt8) (biosdev bbuf dblk dest : ℕ)

def bcRead (blks : ℤ) : Option (ℤ × State) :=
  if blks < 0 then some (-1,⟨mem,[]⟩)
  else if blks = 0 then some (0,⟨mem,[]⟩)
  else if dest >>> 20 ≠ 0 then
    (cdDriver biosdev (min cdBouncebuf blks.toNat)).loop b false (some bbuf) blks.toNat dest dblk blks.toNat ⟨mem,[]⟩
  else (cdDriver biosdev 0).loop b false none blks.toNat dest dblk blks.toNat ⟨mem,[]⟩

/-- `bc_strategy`: the error, what is left in `*rsize`, and the state. -/
def bcStrategy (rw size rsize : ℕ) : Option (ℕ × ℕ × State) :=
  if size%bioscdSecsize ≠ 0 then some (einval,rsize,⟨mem,[]⟩)
  else if rw ≠ fRead then some (erofs,rsize,⟨mem,[]⟩)
  else
    let blks : ℤ := Int.bmod ((size/bioscdSecsize : ℕ) : ℤ) (2^32)
    if dblk%(bioscdSecsize/devBsize) ≠ 0 then some (einval,rsize,⟨mem,[]⟩)
    else if blks = 0 then some (0,size,⟨mem,[]⟩)
    else
      (bcRead b mem biosdev bbuf (dblk/(bioscdSecsize/devBsize)) dest blks).map fun (r,s) =>
        if r = 0 then (0,size,s) else (eio,0,s)

end Code

section Reported

/-- A read gives 0 only if calls that succeed transfer all sectors, of at most three attempts at each, and the buffer holds
them then; otherwise it gives `EIO`. -/
def Reported (d : Driver) (b : Bios) (breg : Option ℕ) (dest dblk n : ℕ) (res : Option (ℕ × ℕ × State)) : Prop :=
  ∃ err rsize s, res = some (err,rsize,s) ∧ Tried s.turns ∧
    (err = 0 ∧ Transferred d breg dest dblk n (doneIn s.turns) ∧ (∀ j < n*d.ss, s.mem (dest+j) = b.data d.ss dblk j) ∨
      err = eio)

/-- The pieces with an address that the BIOS can be given. -/
def Reachable (breg : Option ℕ) (l : List Chunk) : Prop := ∀ pc ∈ l, breg.getD pc.p < 2^20

instance (breg : Option ℕ) (l : List Chunk) : Decidable (Reachable breg l) :=
  inferInstanceAs (Decidable (∀ pc ∈ l, breg.getD pc.p < 2^20))

theorem vtop_iff {a : ℕ} : vtopseg a*16+vtopoff a = a ↔ a < 2^20 :=
  ⟨fun h => h ▸ vtop_lt a,linear_vtop⟩

theorem bmod_small {n : ℕ} (h : n < 2^31) : Int.bmod (n : ℤ) (2^32) = n :=
  Int.bmod_eq_of_le (by omega) (by omega)

theorem bmod_large {n : ℕ} (h : 2^31 ≤ n) (hn : n < 2^32) : Int.bmod (n : ℤ) (2^32) < 0 := by
  rw [Int.bmod_def,Int.emod_eq_of_lt (by omega) (by omega)]
  split_ifs <;> omega

/-- Where all pieces are served, they are read exactly if all calls are the right ones. -/
theorem read_iff {d : Driver} {b : Bios} {breg : Option ℕ} {dest dblk n w : ℕ} {l : List Chunk} (hss : 0 < d.ss)
    (hl : Chain d.ss dest dblk n l) (hserved : d.served b breg 0 l = l)
    (hcount : ∀ pc ∈ l, ∃ c, d.call breg pc = some c ∧ c.count = pc.count) (hw : ∀ pc ∈ l, pc.count*d.ss ≤ w)
    (hapart : ∀ j < n*d.ss, Beside breg w (dest+j)) (mem : ℕ → UInt8) :
    (Transferred d breg dest dblk n (l.flatMap fun pc => (d.call breg pc).toList) ∧
        ∀ j < n*d.ss, (d.run b false breg l ⟨mem,[]⟩).2.mem (dest+j) = b.data d.ss dblk j) ↔
      ∀ pc ∈ l, ∀ c, d.call breg pc = some c → d.Right breg pc c := by
  constructor
  · intro h
    exact (transferred_iff hl hcount).mp h.1
  · intro h
    exact ⟨(transferred_iff hl hcount).mpr h,(run_mem hss hl h hw hapart ⟨mem,[]⟩ hserved).1⟩

end Reported

section Disk
variable {bd : Bdinfo} {b : Bios} {mem : ℕ → UInt8} {bbuf dblk size dest : ℕ} {bounce : Bool}

/-- When a read of `n` sectors of a disk is done or reported: their number is none that makes a negative `int`, their size
does not overflow, and either a transfer fails three times or its sector has no cylinder, or all addresses are below 1 MB and
no sector number is cut. -/
def DiskReports (bd : Bdinfo) (b : Bios) (bbuf dblk dest n : ℕ) : Prop :=
  2^31 ≤ n ∨ ∃ bounce, bd.bounces dest n = some bounce ∧
    ((bd.driver false (limitFor bounce n)).served b (bd.region bounce bbuf n) 0 (bd.pieces bounce dest dblk n) ≠
        bd.pieces bounce dest dblk n ∨
      Reachable (bd.region bounce bbuf n) (bd.pieces bounce dest dblk n) ∧
        (bd.edd = true ∨ ∀ pc ∈ bd.pieces bounce dest dblk n, pc.lba < 2^32))

theorem disk_calls {n : ℕ}
    (hserved : (bd.driver false (limitFor bounce n)).served b (bd.region bounce bbuf n) 0 (bd.pieces bounce dest dblk n) =
      bd.pieces bounce dest dblk n) :
    ∀ pc ∈ bd.pieces bounce dest dblk n, ∃ c,
      (bd.driver false (limitFor bounce n)).call (bd.region bounce bbuf n) pc = some c ∧ c.count = pc.count ∧
        c.lba bd.hds bd.sec = (if bd.edd then pc.lba%2^64 else pc.lba%2^32) ∧
        c.addr = vtopseg ((bd.region bounce bbuf n).getD pc.p)*16+vtopoff ((bd.region bounce bbuf n).getD pc.p) := by
  intro pc hpc
  obtain ⟨c,hc⟩ := (served_all hserved).2 pc hpc
  obtain ⟨hlba,hcount,haddr,-⟩ := call_spec (count_lt (piece_bounds pc hpc).1) hc
  exact ⟨c,hc,hcount,hlba,haddr⟩

theorem disk_right {n : ℕ} (hdblk : dblk+n ≤ 2^63)
    (hserved : (bd.driver false (limitFor bounce n)).served b (bd.region bounce bbuf n) 0 (bd.pieces bounce dest dblk n) =
      bd.pieces bounce dest dblk n) :
    (∀ pc ∈ bd.pieces bounce dest dblk n, ∀ c, (bd.driver false (limitFor bounce n)).call (bd.region bounce bbuf n) pc =
        some c → (bd.driver false (limitFor bounce n)).Right (bd.region bounce bbuf n) pc c) ↔
      Reachable (bd.region bounce bbuf n) (bd.pieces bounce dest dblk n) ∧
        (bd.edd = true ∨ ∀ pc ∈ bd.pieces bounce dest dblk n, pc.lba < 2^32) := by
  have hpiece : ∀ pc ∈ bd.pieces bounce dest dblk n,
      (∀ c, (bd.driver false (limitFor bounce n)).call (bd.region bounce bbuf n) pc = some c →
        (bd.driver false (limitFor bounce n)).Right (bd.region bounce bbuf n) pc c) ↔
      (bd.region bounce bbuf n).getD pc.p < 2^20 ∧ (bd.edd = true ∨ pc.lba < 2^32) := by
    intro pc hpc
    obtain ⟨c,hc,hcount,hlba,haddr⟩ := disk_calls hserved pc hpc
    obtain ⟨-,-,hend,-⟩ := chain_mem pieces_chain pc hpc
    have hcut : (if bd.edd then pc.lba%2^64 else pc.lba%2^32) = pc.lba ↔ (bd.edd = true ∨ pc.lba < 2^32) := by
      cases bd.edd with
      | true => exact iff_of_true (Nat.mod_eq_of_lt (by omega)) (Or.inl rfl)
      | false =>
        rw [if_neg Bool.false_ne_true,Nat.mod_eq_iff_lt (by decide)]
        simp
    have hright : (bd.driver false (limitFor bounce n)).Right (bd.region bounce bbuf n) pc c ↔
        (bd.region bounce bbuf n).getD pc.p < 2^20 ∧ (bd.edd = true ∨ pc.lba < 2^32) := by
      change c.lba bd.hds bd.sec = pc.lba ∧ c.count = pc.count ∧ c.addr = _ ↔ _
      rw [hlba,hcut,haddr,vtop_iff,and_iff_right hcount,and_comm]
    rw [← hright]
    constructor
    · intro h
      exact h c hc
    · intro h c' hc'
      obtain rfl := Option.some_inj.mp (hc.symm.trans hc')
      exact h
  rw [forall₂_congr hpiece]
  cases bd.edd with
  | true => simp [Reachable]
  | false => simp [Reachable,forall_and]

theorem breg_between (bd : Bdinfo) (bbuf n : ℕ) :
    bbuf ≤ bd.breg bbuf n ∧ bd.breg bbuf n ≤ bbuf+maxfer n*bd.sectorsize := by
  rw [Bdinfo.breg]
  split_ifs <;> omega

/-- The bytes of the bounce buffer that the pieces use. -/
def diskWindow (bd : Bdinfo) (bounce : Bool) (n : ℕ) : ℕ := (if bounce then maxfer n else n)*bd.sectorsize

/-- A read of the disk is done or reported exactly in these cases. The bounce buffer is a piece of memory apart from the
destination. -/
theorem disk_reported_iff (hss : 0 < bd.sectorsize) (hsize : size%bd.sectorsize = 0) (hlt : size < 2^32)
    (hdblk : dblk+size/bd.sectorsize ≤ 2^63)
    (hapart : bbuf+2*(maxfer (size/bd.sectorsize)*bd.sectorsize) ≤ dest ∨ dest+size ≤ bbuf) :
    Reported (bd.driver false 0) b (bd.region ((bd.bounces dest (size/bd.sectorsize)).getD false) bbuf
        (size/bd.sectorsize)) dest dblk (size/bd.sectorsize) (bd.bdRealstrategy b mem bbuf fRead dblk size dest) ↔
      DiskReports bd b bbuf dblk dest (size/bd.sectorsize) := by
  have hbytes : size/bd.sectorsize*bd.sectorsize = size := Nat.div_mul_cancel (Nat.dvd_of_mod_eq_zero hsize)
  obtain ⟨n,hn⟩ : ∃ n, size/bd.sectorsize = n := ⟨_,rfl⟩
  have hn_lt : n < 2^32 := by
    rw [← hn]
    exact lt_of_le_of_lt (Nat.div_le_self _ _) hlt
  rw [Bdinfo.bdRealstrategy,if_neg (by omega),if_pos rfl,hn]
  rw [hn] at hdblk hapart hbytes
  dsimp only
  by_cases hlarge : 2^31 ≤ n
  · have hneg := bmod_large hlarge hn_lt
    rw [if_neg hneg.ne,Bdinfo.bdIo,if_pos hneg]
    exact iff_of_true ⟨eio,0,_,rfl,by simp [Tried],Or.inr rfl⟩ (Or.inl hlarge)
  rw [bmod_small (Nat.lt_of_not_le hlarge)]
  obtain rfl | hpos := Nat.eq_zero_or_pos n
  · obtain ⟨bounce,hbounce⟩ := bounces_empty bd dest
    refine iff_of_true ⟨0,size,⟨mem,[]⟩,if_pos rfl,by simp [Tried],Or.inl ⟨rfl,⟨rfl,by simp [doneIn]⟩,?_⟩⟩
      (Or.inr ⟨bounce,hbounce,Or.inr ⟨by simp [Reachable,Bdinfo.pieces,Driver.pieces],Or.inr ?_⟩⟩)
    · intro j hj
      rw [Nat.zero_mul] at hj
      exact absurd hj (Nat.not_lt_zero j)
    · simp [Bdinfo.pieces,Driver.pieces]
  rw [if_neg (Int.natCast_ne_zero.mpr hpos.ne')]
  cases hbounce : bd.bounces dest n with
  | none =>
    rw [bdIo_overflow hbounce]
    refine iff_of_false ?_ ?_
    · rintro ⟨err,rsize,s,hres,-⟩
      cases hres
    · rintro (h | ⟨bounce,h,-⟩)
      · exact hlarge h
      · rw [hbounce] at h
        cases h
  | some bounce =>
    have hfate : DiskReports bd b bbuf dblk dest n ↔
        (bd.driver false (limitFor bounce n)).served b (bd.region bounce bbuf n) 0 (bd.pieces bounce dest dblk n) ≠
          bd.pieces bounce dest dblk n ∨
        Reachable (bd.region bounce bbuf n) (bd.pieces bounce dest dblk n) ∧
          (bd.edd = true ∨ ∀ pc ∈ bd.pieces bounce dest dblk n, pc.lba < 2^32) := by
      rw [DiskReports,hbounce,or_iff_right hlarge]
      simp only [Option.some_inj,exists_eq_left']
    obtain ⟨new,hturns,hatt,hdone,hres⟩ := @run_stops (bd.driver false (limitFor bounce n)) b false
      (bd.region bounce bbuf n) rfl (bd.pieces bounce dest dblk n) ⟨mem,[]⟩
    rw [hfate,bdIo_eq hbounce,Option.map_some,Option.getD_some]
    obtain ⟨⟨r,s⟩,hrun⟩ : ∃ rs, (bd.driver false (limitFor bounce n)).run b false (bd.region bounce bbuf n)
      (bd.pieces bounce dest dblk n) ⟨mem,[]⟩ = rs := ⟨_,rfl⟩
    rw [hrun] at hturns hres ⊢
    rw [List.nil_append] at hturns
    rw [List.length_nil] at hdone hres
    dsimp only at hturns hres ⊢
    have htried : Tried s.turns := by
      rw [hturns]
      exact tried_attempts hatt
    by_cases hserved : (bd.driver false (limitFor bounce n)).served b (bd.region bounce bbuf n) 0
        (bd.pieces bounce dest dblk n) = bd.pieces bounce dest dblk n
    · rw [if_pos hserved] at hres
      rw [hres,if_pos rfl,or_iff_right (not_not.mpr hserved),← disk_right hdblk hserved]
      rw [hserved] at hdone
      have hw : ∀ pc ∈ bd.pieces bounce dest dblk n, pc.count*bd.sectorsize ≤ diskWindow bd bounce n := by
        intro pc hpc
        obtain ⟨-,hstart,hend,-⟩ := chain_mem pieces_chain pc hpc
        cases bounce with
        | true =>
          have hmax : 0 < maxfer n := Nat.lt_min.mpr ⟨by decide,hpos⟩
          exact Nat.mul_le_mul_right _ ((piece_bounds pc hpc).2 hmax)
        | false =>
          have hle : pc.count ≤ n := by omega
          exact Nat.mul_le_mul_right _ hle
      have hwindow : ∀ j < n*bd.sectorsize, Beside (bd.region bounce bbuf n) (diskWindow bd bounce n) (dest+j) := by
        intro j hj r hr
        cases bounce with
        | true =>
          obtain ⟨hlow,hhigh⟩ := breg_between bd bbuf n
          obtain rfl : bd.breg bbuf n = r := Option.some_inj.mp hr
          change dest+j < bd.breg bbuf n ∨ bd.breg bbuf n+maxfer n*bd.sectorsize ≤ dest+j
          omega
        | false => cases hr
      have hiff := @read_iff (bd.driver false (limitFor bounce n)) b (bd.region bounce bbuf n) dest dblk n
        (diskWindow bd bounce n) (bd.pieces bounce dest dblk n) hss pieces_chain hserved
        (fun pc hpc => (disk_calls hserved pc hpc).imp fun c h => ⟨h.1,h.2.1⟩) hw hwindow mem
      rw [hrun,← hdone,← hturns] at hiff
      rw [← hiff]
      constructor
      · rintro ⟨err,rsize,s',hs',-,h⟩
        cases hs'
        obtain ⟨-,h⟩ | h := h
        · exact h
        · exact absurd h (by decide)
      · intro h
        exact ⟨0,size,s,rfl,htried,Or.inl ⟨rfl,h⟩⟩
    · rw [if_neg hserved] at hres
      rw [hres,if_neg (by decide)]
      exact iff_of_true ⟨eio,0,s,rfl,htried,Or.inr rfl⟩ (Or.inl hserved)

end Disk

section Cd
variable {b : Bios} {mem : ℕ → UInt8} {biosdev bbuf dblk size dest n limit : ℕ} {breg : Option ℕ}

def cdRegion (bbuf dest : ℕ) : Option ℕ := if dest >>> 20 ≠ 0 then some bbuf else none

def cdLimit (dest n : ℕ) : ℕ := if dest >>> 20 ≠ 0 then min cdBouncebuf n else 0

def cdPieces (biosdev dest dblk n : ℕ) : List Chunk := (cdDriver biosdev (cdLimit dest n)).pieces n dest dblk n

/-- When a read of `n` sectors of a CD is done: all transfers succeed at one of three attempts, their number is not cut to
16 bits, and the address is below 1 MB. -/
def CdReports (b : Bios) (biosdev bbuf dblk dest n : ℕ) : Prop :=
  n = 0 ∨ (cdDriver biosdev (cdLimit dest n)).served b (cdRegion bbuf dest) 0 (cdPieces biosdev dest dblk n) =
      cdPieces biosdev dest dblk n ∧ (cdRegion bbuf dest).getD dest < 2^20 ∧ (dest >>> 20 ≠ 0 ∨ n < 2^16)

theorem cd_size {resid : ℕ} (h : 0 < resid) : 0 < (cdDriver biosdev limit).size dblk resid ∧
    (cdDriver biosdev limit).size dblk resid ≤ resid ∧ (0 < limit → (cdDriver biosdev limit).size dblk resid ≤ limit) := by
  simp only [cdDriver]
  split_ifs with hlimit <;> omega

theorem cd_splits : (cdDriver biosdev limit).Splits := fun _ _ h => ⟨(cd_size h).1,(cd_size h).2.1⟩

theorem cd_chain : Chain bioscdSecsize dest dblk n (cdPieces biosdev dest dblk n) :=
  Int13.pieces_chain cd_splits le_rfl dest dblk

theorem cd_call (pc : Chunk) : (cdDriver biosdev limit).call breg pc =
    some (.edd 0x4200 biosdev (pc.count%2^16) (vtopoff (breg.getD pc.p)) (vtopseg (breg.getD pc.p)) (pc.lba%2^64)) := rfl

theorem bcRead_eq (hpos : 0 < n) : bcRead b mem biosdev bbuf dblk dest n =
    some ((cdDriver biosdev (cdLimit dest n)).run b false (cdRegion bbuf dest) (cdPieces biosdev dest dblk n) ⟨mem,[]⟩) := by
  have hneg : ¬ (n : ℤ) < 0 := Int.not_lt.mpr (Int.natCast_nonneg n)
  rw [bcRead,if_neg hneg,if_neg (Int.natCast_ne_zero.mpr hpos.ne'),Int.toNat_natCast,cdPieces,cdRegion,cdLimit]
  split_ifs <;> exact loop_eq cd_splits le_rfl dest dblk _

/-- Below 1 MB all sectors are read at once. -/
theorem cd_direct (hdest : dest >>> 20 = 0) (hpos : 0 < n) : cdPieces biosdev dest dblk n = [⟨dest,dblk,n⟩] := by
  obtain ⟨m,rfl⟩ := Nat.exists_eq_add_of_lt hpos
  rw [Nat.zero_add,cdPieces,cdLimit,if_neg (not_not.mpr hdest),Driver.pieces,if_neg (Nat.succ_ne_zero m)]
  have hsize : (cdDriver biosdev 0).size dblk (m+1) = m+1 := rfl
  rw [hsize,Nat.sub_self]
  cases m <;> rfl

theorem cd_count (hdest : dest >>> 20 ≠ 0 ∨ n < 2^16) : ∀ pc ∈ cdPieces biosdev dest dblk n, pc.count < 2^16 := by
  intro pc hpc
  obtain ⟨hcount,hstart,hend,-⟩ := chain_mem cd_chain pc hpc
  by_cases hhigh : dest >>> 20 ≠ 0
  · obtain ⟨resid,hresid,hsize⟩ := pieces_size pc hpc
    have hle : min cdBouncebuf n ≤ 8 := Nat.min_le_left _ _
    have hlimit : cdLimit dest n = min cdBouncebuf n := if_pos hhigh
    have hn : 0 < n := by omega
    have hmin : 0 < min cdBouncebuf n := Nat.lt_min.mpr ⟨by decide,hn⟩
    have hpc_le := (@cd_size biosdev pc.lba (cdLimit dest n) resid hresid).2.2 (by rw [hlimit]; exact hmin)
    rw [hsize]
    omega
  · have hn := hdest.resolve_left hhigh
    omega

/-- The calls of a CD are the right ones exactly if the address is below 1 MB and the count is not cut. -/
theorem cd_right (hpos : 0 < n) (hdblk : dblk+n ≤ 2^64) :
    (∀ pc ∈ cdPieces biosdev dest dblk n, ∀ c, (cdDriver biosdev (cdLimit dest n)).call (cdRegion bbuf dest) pc = some c →
        (cdDriver biosdev (cdLimit dest n)).Right (cdRegion bbuf dest) pc c) ↔
      (cdRegion bbuf dest).getD dest < 2^20 ∧ (dest >>> 20 ≠ 0 ∨ n < 2^16) := by
  have hpiece : ∀ pc ∈ cdPieces biosdev dest dblk n,
      ((∀ c, (cdDriver biosdev (cdLimit dest n)).call (cdRegion bbuf dest) pc = some c →
          (cdDriver biosdev (cdLimit dest n)).Right (cdRegion bbuf dest) pc c) ↔
        pc.count%2^16 = pc.count ∧ (cdRegion bbuf dest).getD pc.p < 2^20) := by
    intro pc hpc
    obtain ⟨hcount,-,hend,-⟩ := chain_mem cd_chain pc hpc
    have hlba : pc.lba%2^64 = pc.lba := Nat.mod_eq_of_lt (by omega)
    rw [cd_call]
    simp only [Option.some_inj,forall_eq',Driver.Right,Call.lba,Call.count,Call.addr,hlba,vtop_iff,true_and]
  rw [forall₂_congr hpiece]
  by_cases hhigh : dest >>> 20 ≠ 0
  · have hregion : cdRegion bbuf dest = some bbuf := if_pos hhigh
    rw [hregion,and_iff_left (Or.inl hhigh)]
    constructor
    · intro h
      obtain ⟨pc,hpc,-⟩ := chain_last (@cd_chain biosdev dblk dest n) hpos
      exact (h pc hpc).2
    · intro h pc hpc
      exact ⟨Nat.mod_eq_of_lt (cd_count (Or.inl hhigh) pc hpc),h⟩
  · rw [cd_direct (not_not.mp hhigh) hpos,List.forall_mem_singleton,or_iff_right hhigh,and_comm,
      Nat.mod_eq_iff_lt (by decide)]

def cdWindow (dest n : ℕ) : ℕ := (if dest >>> 20 ≠ 0 then min cdBouncebuf n else n)*bioscdSecsize

/-- A read of the CD is done or reported exactly in these cases. The bounce buffer is a piece of memory apart from the
destination. -/
theorem cd_reported_iff (hsize : size%bioscdSecsize = 0) (hlt : size < 2^32) (halign : dblk%4 = 0) (hdblk : dblk < 2^63)
    (hapart : bbuf+min cdBouncebuf (size/bioscdSecsize)*bioscdSecsize ≤ dest ∨ dest+size ≤ bbuf) (rsize : ℕ) :
    Reported (cdDriver biosdev (cdLimit dest (size/bioscdSecsize))) b (cdRegion bbuf dest) dest (dblk/4)
        (size/bioscdSecsize) (bcStrategy b mem biosdev bbuf dblk dest fRead size rsize) ↔
      CdReports b biosdev bbuf (dblk/4) dest (size/bioscdSecsize) := by
  have hbytes : size/bioscdSecsize*bioscdSecsize = size := Nat.div_mul_cancel (Nat.dvd_of_mod_eq_zero hsize)
  have hfour : bioscdSecsize/devBsize = 4 := rfl
  have hsector : 0 < bioscdSecsize := by decide
  have hn_lt : size/bioscdSecsize < 2^31 := by
    rw [bioscdSecsize]
    omega
  rw [bcStrategy,if_neg (not_not.mpr hsize),if_neg (not_not.mpr rfl),hfour,if_neg (not_not.mpr halign),bmod_small hn_lt]
  obtain ⟨n,hn⟩ : ∃ n, size/bioscdSecsize = n := ⟨_,rfl⟩
  obtain ⟨start,hstart⟩ : ∃ start, dblk/4 = start := ⟨_,rfl⟩
  rw [hn] at hapart hbytes hn_lt ⊢
  rw [hstart]
  obtain rfl | hpos := Nat.eq_zero_or_pos n
  · refine iff_of_true ⟨0,size,⟨mem,[]⟩,if_pos rfl,by simp [Tried],Or.inl ⟨rfl,⟨rfl,by simp [doneIn]⟩,?_⟩⟩ (Or.inl rfl)
    intro j hj
    rw [Nat.zero_mul] at hj
    exact absurd hj (Nat.not_lt_zero j)
  obtain ⟨hres,new,hturns,hatt,hdone⟩ := @run_goes (cdDriver biosdev (cdLimit dest n)) b false (cdRegion bbuf dest) rfl
    (cdPieces biosdev dest start n) ⟨mem,[]⟩
  rw [if_neg (Int.natCast_ne_zero.mpr hpos.ne'),bcRead_eq hpos,Option.map_some,CdReports,or_iff_right hpos.ne']
  obtain ⟨⟨r,s⟩,hrun⟩ : ∃ rs, (cdDriver biosdev (cdLimit dest n)).run b false (cdRegion bbuf dest)
    (cdPieces biosdev dest start n) ⟨mem,[]⟩ = rs := ⟨_,rfl⟩
  rw [hrun] at hturns hres ⊢
  rw [List.nil_append] at hturns
  rw [List.length_nil] at hdone
  dsimp only at hturns hres ⊢
  have htried : Tried s.turns := by
    rw [hturns]
    exact tried_attempts hatt
  have hw : ∀ pc ∈ cdPieces biosdev dest start n, pc.count*bioscdSecsize ≤ cdWindow dest n := by
    intro pc hpc
    obtain ⟨-,hfirst,hend,-⟩ := chain_mem cd_chain pc hpc
    refine Nat.mul_le_mul_right _ ?_
    split_ifs with hhigh
    · obtain ⟨resid,hresid,hcount⟩ := pieces_size pc hpc
      have hlimit : cdLimit dest n = min cdBouncebuf n := if_pos hhigh
      rw [hcount,← hlimit]
      refine cd_size hresid |>.2.2 ?_
      rw [hlimit]
      exact Nat.lt_min.mpr ⟨by decide,hpos⟩
    · omega
  have hwindow : ∀ j < n*bioscdSecsize, Beside (cdRegion bbuf dest) (cdWindow dest n) (dest+j) := by
    intro j hj r hr
    rw [cdRegion] at hr
    split_ifs at hr with hhigh
    obtain rfl := Option.some_inj.mp hr
    rw [cdWindow,if_pos hhigh]
    omega
  have hiff : (cdDriver biosdev (cdLimit dest n)).served b (cdRegion bbuf dest) 0 (cdPieces biosdev dest start n) =
      cdPieces biosdev dest start n → (∀ pc ∈ cdPieces biosdev dest start n, ∃ c,
        (cdDriver biosdev (cdLimit dest n)).call (cdRegion bbuf dest) pc = some c ∧ c.count = pc.count) →
      ((Transferred (cdDriver biosdev (cdLimit dest n)) (cdRegion bbuf dest) dest start n (doneIn s.turns) ∧
          ∀ j < n*bioscdSecsize, s.mem (dest+j) = b.data bioscdSecsize start j) ↔
        (cdRegion bbuf dest).getD dest < 2^20 ∧ (dest >>> 20 ≠ 0 ∨ n < 2^16)) := by
    intro hserved hcounts
    have hread := @read_iff (cdDriver biosdev (cdLimit dest n)) b (cdRegion bbuf dest) dest start n (cdWindow dest n)
      (cdPieces biosdev dest start n) hsector cd_chain hserved hcounts hw hwindow mem
    rw [hrun,← (served_all hserved).1,← hdone,← hturns] at hread
    exact hread.trans (cd_right hpos (by omega))
  rw [hres,if_pos rfl]
  constructor
  · rintro ⟨err,rsize',s',hs',-,h⟩
    cases hs'
    obtain ⟨-,h⟩ | h := h
    · have hall := h.1.1
      rw [hturns,hdone] at hall
      obtain ⟨hserved,hcounts⟩ := (@doneCalls_length (cdDriver biosdev (cdLimit dest n)) b (cdRegion bbuf dest) dest start n
        (cdPieces biosdev dest start n) cd_chain (fun pc _ c hc => by
          obtain rfl := Option.some_inj.mp hc
          exact Nat.mod_le _ _) 0).2 (by rw [hall,List.length_range'])
      exact ⟨hserved,(hiff hserved hcounts).mp h⟩
    · exact absurd h (by decide)
  · rintro ⟨hserved,hlow,hcount⟩
    refine ⟨0,size,s,rfl,htried,Or.inl ⟨rfl,(hiff hserved fun pc hpc => ⟨_,cd_call pc,?_⟩).mpr ⟨hlow,hcount⟩⟩⟩
    exact Nat.mod_eq_of_lt (cd_count hcount pc hpc)

end Cd

section Both

/-- When reads of a disk and of a CD are done or reported. -/
theorem reads_reported_iff (b : Bios) (mem : ℕ → UInt8) (bbuf dblk size dest : ℕ) (hlt : size < 2^32) :
    (∀ bd : Bdinfo, 0 < bd.sectorsize → size%bd.sectorsize = 0 → dblk+size/bd.sectorsize ≤ 2^63 →
      (bbuf+2*(maxfer (size/bd.sectorsize)*bd.sectorsize) ≤ dest ∨ dest+size ≤ bbuf) →
      (Reported (bd.driver false 0) b (bd.region ((bd.bounces dest (size/bd.sectorsize)).getD false) bbuf
          (size/bd.sectorsize)) dest dblk (size/bd.sectorsize) (bd.bdRealstrategy b mem bbuf fRead dblk size dest) ↔
        DiskReports bd b bbuf dblk dest (size/bd.sectorsize))) ∧
    ∀ biosdev rsize : ℕ, size%bioscdSecsize = 0 → dblk%4 = 0 → dblk < 2^63 →
      (bbuf+min cdBouncebuf (size/bioscdSecsize)*bioscdSecsize ≤ dest ∨ dest+size ≤ bbuf) →
      (Reported (cdDriver biosdev (cdLimit dest (size/bioscdSecsize))) b (cdRegion bbuf dest) dest (dblk/4)
          (size/bioscdSecsize) (bcStrategy b mem biosdev bbuf dblk dest fRead size rsize) ↔
        CdReports b biosdev bbuf (dblk/4) dest (size/bioscdSecsize)) :=
  ⟨fun _ hss hsize hdblk hapart => disk_reported_iff hss hsize hlt hdblk hapart,
    fun _ rsize hsize halign hdblk hapart => cd_reported_iff hsize hlt halign hdblk hapart rsize⟩

def twoSectors : Bdinfo := ⟨0x80,1,2,true,512,Nat.le_of_ble_eq_true rfl,by decide,by decide,by decide,by decide,
  Nat.le_of_ble_eq_true rfl⟩

/-- A BIOS whose first attempts fail. -/
def slowBios : Bios := ⟨fun lba j => UInt8.ofNat (lba+j),fun _ t => t < 2,fun _ _ _ => 0⟩

theorem reads_reported_slow :
    Reported (twoSectors.driver false 0) slowBios none 0x8000 6 3
        (twoSectors.bdRealstrategy slowBios (fun _ => 0) 0x20000 fRead 6 1536 0x8000) ∧
      Reported (cdDriver 0xe0 8) slowBios (some 0x20000) 0x200000 4 9
        (bcStrategy slowBios (fun _ => 0) 0xe0 0x20000 16 0x200000 fRead 18432 0) :=
  ⟨((reads_reported_iff slowBios (fun _ => 0) 0x20000 6 1536 0x8000 (by decide)).1 twoSectors (by decide) (by decide)
      (by decide) (by decide)).mpr (Or.inr ⟨false,by decide,Or.inr ⟨by decide,Or.inl rfl⟩⟩),
    ((reads_reported_iff slowBios (fun _ => 0) 0x20000 16 18432 0x200000 (by decide)).2 0xe0 0 (by decide) (by decide)
      (by decide) (by decide)).mpr (Or.inr ⟨by decide,by decide,by decide⟩)⟩

/-- A BIOS that reads nothing, and a block of the CD. -/
theorem failed_read_returns :
    ¬ Reported (cdDriver 0xe0 0) ⟨fun _ _ => 0,fun _ _ => true,fun _ _ _ => 0⟩ none 0x8000 4 1
      (bcStrategy ⟨fun _ _ => 0,fun _ _ => true,fun _ _ _ => 0⟩ (fun _ => 0) 0xe0 0x20000 16 0x8000 fRead 2048 0) := by
  rintro ⟨err,rsize,s,hs,-,h⟩
  have hres : (bcStrategy ⟨fun _ _ => 0,fun _ _ => true,fun _ _ _ => 0⟩ (fun _ => 0) 0xe0 0x20000 16 0x8000 fRead 2048 0).map
      (fun x => (x.1,doneIn x.2.2.turns)) = some (0,[]) := by decide
  rw [hs,Option.map_some,Option.some_inj,Prod.mk.injEq] at hres
  obtain ⟨herr,hdone⟩ := hres
  dsimp only at herr hdone
  obtain ⟨-,⟨hall,-⟩,-⟩ | h := h
  · rw [hdone] at hall
    cases hall
  · rw [herr] at h
    cases h

end Both

end Blub.Boot.BiosReads
