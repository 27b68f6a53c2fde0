import Blub.Stand.Ext2fs

/-! Where the blocks, the group descriptors and the inodes of an ext2 volume are, against where `ext2fs.c` reads them. -/
namespace Blub.Stand
open Blub.Bytes

namespace ExtDisk
variable (fd : ExtDisk)

def blockSize : ℕ := 1024*2^fd.bsize

/-- The number of block groups: the last may be short. -/
def groups : ℕ := (fd.blocks-fd.firstblk+(fd.bpg-1))/fd.bpg

/-- The byte of the device at which the group descriptors start: the block after that of the super block. -/
def descStart : ℕ := (1024/fd.blockSize+1)*fd.blockSize

/-- What a valid super block promises. The bitmap of the blocks of a group is one block. -/
structure Valid : Prop where
  magic : fd.magic = extMagic
  firstblk : fd.firstblk = 1024/fd.blockSize
  firstblk_lt : fd.firstblk < fd.blocks
  isize_dvd : fd.inodeSize ∣ fd.blockSize
  bpg_pos : 0 < fd.bpg
  bpg_le : fd.bpg ≤ 8*fd.blockSize
  ipg_pos : 0 < fd.ipg
  inodes : fd.inodes = fd.ipg*fd.groups

end ExtDisk

/-- The super block of a device, and the start of a group's inode table. -/
def superAt (dev : ℤ → UInt8) : ExtDisk := ExtDisk.ofBytes fun j => dev (1024+j)

def tableAt (dev : ℤ → UInt8) (g : ℕ) : ℕ := leGet (fun j => dev ((superAt dev).descStart+j)) (32*g+8) 4

/-- A volume with a valid super block. The inode tables lie after the descriptors and within the volume. -/
structure ExtVolume where
  dev : ℤ → UInt8
  valid : (superAt dev).Valid
  table_ge : ∀ g < (superAt dev).groups,
    (superAt dev).descStart+32*(superAt dev).groups ≤ tableAt dev g*(superAt dev).blockSize
  table_le : ∀ g < (superAt dev).groups,
    tableAt dev g*(superAt dev).blockSize+(superAt dev).ipg*(superAt dev).inodeSize ≤
      (superAt dev).blocks*(superAt dev).blockSize

namespace ExtVolume
variable (v : ExtVolume)

def super : ExtDisk := superAt v.dev

/-- The byte at which an inode starts. -/
def inodeStart (ino : ℕ) : ℕ :=
  tableAt v.dev ((ino-1)/v.super.ipg)*v.super.blockSize+(ino-1)%v.super.ipg*v.super.inodeSize

/-- What `ext2fs_open` computes locates the blocks, the group descriptors and the inodes. -/
def Located : Prop :=
  ∃ fs, ext2fsOpen v.dev = some fs ∧
    (∀ b < v.super.blocks, fs.core.fsbToDb b = some ((b*v.super.blockSize/512 : ℕ) : ℤ)) ∧
    (32*v.super.groups ≤ fs.len ∧ ∀ j < 32*v.super.groups, fs.bg j = v.dev (v.super.descStart+j)) ∧
    ∀ ino, 1 ≤ ino → ino ≤ v.super.inodes →
      fs.readInode v.dev ino = some ((List.range 128).map fun j : ℕ => v.dev (v.inodeStart ino+j))

end ExtVolume

/-- Blocks of 1024 bytes, no sector number and no length past an `int`, and inodes of 128 bytes unless each starts a
block or a group. -/
structure ExtDisk.Fits (fd : ExtDisk) : Prop where
  bsize : fd.bsize = 0
  blocks : fd.blocks ≤ 2^30
  groups : fd.groups ≤ 2^26-32
  isize : fd.inodeSize = 128 ∨ fd.inodeSize = 1024 ∨ fd.ipg = 1

section Small
variable {fd : ExtDisk}

theorem ExtDisk.Valid.groups_pos (h : fd.Valid) : 0 < fd.groups := by
  have hlt := h.firstblk_lt
  exact Nat.div_pos (by omega) h.bpg_pos

theorem ExtDisk.Valid.isize_pos (h : fd.Valid) : 0 < fd.inodeSize :=
  Nat.pos_of_dvd_of_pos h.isize_dvd (Nat.mul_pos (by norm_num) (Nat.two_pow_pos _))

theorem ofBytes_lt (b : ℕ → UInt8) : (ExtDisk.ofBytes b).bsize < 2^32 ∧ (ExtDisk.ofBytes b).blocks < 2^32 :=
  ⟨leGet_lt b 24 4,leGet_lt b 4 4⟩

theorem blockSize_zero (h : fd.bsize = 0) : fd.blockSize = 1024 := by rw [ExtDisk.blockSize,h]; rfl

theorem descStart_zero (h : fd.bsize = 0) : fd.descStart = 2048 := by rw [ExtDisk.descStart,blockSize_zero h]

theorem core_zero (h : fd.bsize = 0) (hi : fd.inodeSize ≠ 0) :
    fd.core = some ⟨1024,fd.inodeSize,1024/fd.inodeSize,1⟩ := by
  have hno : ¬(31 ≤ (10+0)%2^32 ∨ fd.inodeSize = 0) := by
    rintro (h | h)
    · exact absurd h (by decide)
    · exact hi h
  rw [ExtDisk.core,h,if_neg hno]
  rfl

theorem sub_word {a b : ℕ} (h : b ≤ a) (ha : a < 2^32) : (a+2^32-b)%2^32 = a-b := by omega

theorem add_pred_word {a b : ℕ} (hb : 0 < b) (h : a+(b-1) < 2^32) : (a+(b+2^32-1))%2^32 = a+(b-1) := by omega

/-- The descriptors are counted as they are where no sum wraps. -/
theorem numGroups_eq (hv : fd.Valid) (h : fd.bsize = 0) (hb : fd.blocks ≤ 2^30) : fd.numGroups = fd.groups := by
  have hlt := hv.firstblk_lt
  have hle := hv.bpg_le
  rw [blockSize_zero h] at hle
  have hsmall : fd.blocks-fd.firstblk+(fd.bpg-1) < 2^31 := by omega
  have hgroups : fd.groups ≤ fd.blocks-fd.firstblk+(fd.bpg-1) := Nat.div_le_self _ _
  have hcount : fd.numGroups = Int.bmod fd.groups (2^32) := by
    unfold ExtDisk.numGroups ExtDisk.groups
    dsimp only
    rw [sub_word hlt.le (by omega),add_pred_word hv.bpg_pos (by omega)]
  rw [hcount]
  exact Int.bmod_eq_of_le (by omega) (by omega)

/-- The length is that of the descriptors, rounded up to blocks, as an `int`. -/
theorem bgLen_eq (hn : fd.numGroups = fd.groups) (hg : fd.groups < 2^31-31) :
    fd.bgLen 1024 = Int.bmod ((fd.groups+31)/32*1024) (2^32) := by
  have hsum : Int.bmod ((fd.groups : ℤ)+31) (2^32) = (fd.groups : ℤ)+31 := Int.bmod_eq_of_le (by omega) (by omega)
  have hper : (((1024/32 : ℕ) : ℤ)-1) = 31 := by norm_num
  rw [ExtDisk.bgLen]
  simp only [hn,hper,hsum]
  rw [Int.tdiv_eq_ediv_of_nonneg (by omega)]
  rfl

theorem fsbToDb_one {c : ExtCore} (hc : c.fsbtodb = 1) (b : ℤ) : c.fsbToDb b = some (Int.bmod (b*2) (2^32)) := by
  rw [ExtCore.fsbToDb,hc,if_pos (by norm_num)]
  rfl

end Small

theorem superAt_eq (dev : ℤ → UInt8) : ExtDisk.ofBytes (sectors dev extSblock) = superAt dev := rfl

namespace ExtVolume
variable {v : ExtVolume}

/-- With blocks of 1024 bytes the shift is 1, and the descriptors start at sector 4. -/
theorem open_zero (h : v.super.bsize = 0) :
    ext2fsOpen v.dev = some ⟨v.super,⟨1024,v.super.inodeSize,1024/v.super.inodeSize,1⟩,v.super.bgLen 1024,
      fun j => v.dev (2048+j)⟩ := by
  rw [ext2fsOpen,superAt_eq,if_neg (not_not.mpr v.valid.magic)]
  rw [show (superAt v.dev).core = _ from core_zero h v.valid.isize_pos.ne']
  rfl

theorem tableAt_zero (h : v.super.bsize = 0) (g : ℕ) :
    tableAt v.dev g = leGet (fun j => v.dev (2048+j)) (32*g+8) 4 := by
  rw [tableAt,show (superAt v.dev).descStart = 2048 from descStart_zero h]
  rfl

theorem inotbl_zero (h : v.super.bsize = 0) {g : ℕ} {c : ExtCore} (hg : 32*((g : ℤ)+1) ≤ v.super.bgLen 1024) :
    Ext2fs.inotbl ⟨v.super,c,v.super.bgLen 1024,fun j => v.dev (2048+j)⟩ g = some (tableAt v.dev g) := by
  rw [Ext2fs.inotbl,if_pos hg,tableAt_zero h]

theorem group_lt {ino : ℕ} (h₁ : 1 ≤ ino) (h₂ : ino ≤ v.super.inodes) : (ino-1)/v.super.ipg < v.super.groups := by
  have hi : v.super.inodes = v.super.ipg*v.super.groups := v.valid.inodes
  exact Nat.div_lt_of_lt_mul (by omega)

/-- Where an inode is within its table: the block, and the place in the block. -/
theorem inode_split {ipb isize bgo : ℕ} (h : isize*ipb = 1024) :
    bgo*isize = 1024*(bgo/ipb)+bgo%ipb*isize := by
  have hbgo := Nat.div_add_mod bgo ipb
  calc bgo*isize = (ipb*(bgo/ipb)+bgo%ipb)*isize := by rw [hbgo]
    _ = isize*ipb*(bgo/ipb)+bgo%ipb*isize := by ring
    _ = 1024*(bgo/ipb)+bgo%ipb*isize := by rw [h]

theorem ipb_mul (h : v.super.bsize = 0) : v.super.inodeSize*(1024/v.super.inodeSize) = 1024 := by
  have hdvd : v.super.inodeSize ∣ v.super.blockSize := v.valid.isize_dvd
  rw [blockSize_zero h] at hdvd
  exact Nat.mul_div_cancel' hdvd

/-- The block of its table that an inode is in. -/
def inodeBlock (v : ExtVolume) (ino : ℕ) : ℕ :=
  tableAt v.dev ((ino-1)/v.super.ipg)+(ino-1)%v.super.ipg/(1024/v.super.inodeSize)

theorem inodeStart_zero (h : v.super.bsize = 0) (ino : ℕ) :
    v.inodeStart ino =
      v.inodeBlock ino*1024+(ino-1)%v.super.ipg%(1024/v.super.inodeSize)*v.super.inodeSize := by
  rw [inodeStart,blockSize_zero h,inode_split (ipb_mul h),inodeBlock]
  ring

/-- The block of an inode is one of the volume. -/
theorem inodeBlock_lt (h : v.super.bsize = 0) {ino : ℕ} (h₁ : 1 ≤ ino) (h₂ : ino ≤ v.super.inodes) :
    v.inodeBlock ino < v.super.blocks := by
  have hfit := v.table_le _ (group_lt h₁ h₂)
  change _*v.super.blockSize+v.super.ipg*v.super.inodeSize ≤ v.super.blocks*v.super.blockSize at hfit
  rw [blockSize_zero h] at hfit
  have hin : (ino-1)%v.super.ipg < v.super.ipg := Nat.mod_lt _ v.valid.ipg_pos
  have hless : (ino-1)%v.super.ipg*v.super.inodeSize < v.super.ipg*v.super.inodeSize :=
    Nat.mul_lt_mul_of_pos_right hin v.valid.isize_pos
  rw [inode_split (ipb_mul h)] at hless
  rw [inodeBlock]
  omega

/-- The code steps by 128 bytes where the volume steps by the size of an inode. -/
theorem readInode_zero (h : v.super.bsize = 0) (hb : v.super.blocks ≤ 2^30) {fs : Ext2fs}
    (hfs : ext2fsOpen v.dev = some fs) {ino : ℕ} (h₁ : 1 ≤ ino) (h₂ : ino ≤ v.super.inodes)
    (hg : 32*((((ino-1)/v.super.ipg : ℕ) : ℤ)+1) ≤ v.super.bgLen 1024) :
    fs.readInode v.dev ino =
      let bo := (ino-1)%v.super.ipg%(1024/v.super.inodeSize)
      if 128*bo+128 ≤ 1024 then
        some ((List.range 128).map fun j : ℕ => v.dev ((v.inodeBlock ino*1024 : ℕ)+((128*bo+j : ℕ) : ℤ)))
      else none := by
  rw [open_zero h] at hfs
  obtain rfl := Option.some.inj hfs
  have hlt := inodeBlock_lt h h₁ h₂
  have hdb : Int.bmod ((v.inodeBlock ino : ℤ)*2) (2^32) = (v.inodeBlock ino : ℤ)*2 :=
    Int.bmod_eq_of_le (by omega) (by omega)
  unfold Ext2fs.readInode Ext2fs.inoToDb Ext2fs.inoToBo Ext2fs.inoToBg Ext2fs.inoToBgo
  rw [inotbl_zero h hg,Option.bind_some]
  dsimp only
  rw [fsbToDb_one rfl,← Nat.cast_add,← inodeBlock,hdb,Option.bind_some]
  have haddr : ∀ j : ℕ, (512 : ℤ)*((v.inodeBlock ino : ℤ)*2)+j = (v.inodeBlock ino*1024 : ℕ)+(j : ℤ) := by
    intro j
    push_cast
    ring
  simp only [sectors,haddr]

/-- Small blocks and inodes at strides of 128 bytes are located. -/
theorem located_of_fits (hf : v.super.Fits) : v.Located := by
  have h := hf.bsize
  have hb := hf.blocks
  have hgle := hf.groups
  have hnum : v.super.numGroups = v.super.groups := numGroups_eq v.valid h hb
  have hlen : v.super.bgLen 1024 = (v.super.groups+31)/32*1024 :=
    (bgLen_eq hnum (by omega)).trans (Int.bmod_eq_of_le (by omega) (by omega))
  have hroom : 32*(v.super.groups : ℤ) ≤ v.super.bgLen 1024 := by omega
  refine ⟨_,open_zero h,?_,⟨?_,?_⟩,?_⟩
  · intro b hlt
    have hval : Int.bmod ((b : ℤ)*2) (2^32) = ((b*1024/512 : ℕ) : ℤ) := by
      rw [Int.bmod_eq_of_le (by omega) (by omega)]
      omega
    rw [fsbToDb_one rfl,blockSize_zero h,hval]
  · dsimp only
    exact hroom
  · intro j _
    rw [show v.super.descStart = 2048 from descStart_zero h]
    rfl
  · intro ino h₁ h₂
    have hg := group_lt h₁ h₂
    have hbo : (ino-1)%v.super.ipg%(1024/v.super.inodeSize)*v.super.inodeSize =
        128*((ino-1)%v.super.ipg%(1024/v.super.inodeSize)) ∧
        128*((ino-1)%v.super.ipg%(1024/v.super.inodeSize))+128 ≤ 1024 := by
      rcases hf.isize with hi | hi | hi
      · rw [hi]
        omega
      · rw [hi,Nat.div_self (by norm_num),Nat.mod_one]
        omega
      · rw [hi,Nat.mod_one,Nat.zero_mod]
        omega
    have hin : 32*((((ino-1)/v.super.ipg : ℕ) : ℤ)+1) ≤ v.super.bgLen 1024 := by omega
    rw [readInode_zero h hb (open_zero h) h₁ h₂ hin]
    dsimp only
    rw [if_pos hbo.2,inodeStart_zero h,hbo.1]
    simp only [Nat.cast_add,add_assoc]

theorem two_le_blocks (v : ExtVolume) : 2 ≤ v.super.blocks := by
  have hpos : 0 < v.super.groups := v.valid.groups_pos
  have hge := v.table_ge 0 hpos
  have hle := v.table_le 0 hpos
  change v.super.descStart+32*v.super.groups ≤ _*v.super.blockSize at hge
  change _*v.super.blockSize+v.super.ipg*v.super.inodeSize ≤ v.super.blocks*v.super.blockSize at hle
  have hdesc : v.super.blockSize ≤ v.super.descStart := Nat.le_mul_of_pos_left _ (Nat.succ_pos _)
  by_contra hlt
  have hone : v.super.blocks*v.super.blockSize ≤ 1*v.super.blockSize := Nat.mul_le_mul_right _ (by omega)
  omega

/-- The shift is right for block 1 only where blocks have 1024 bytes. -/
theorem bsize_zero {fd : ExtDisk} (hlt : fd.bsize < 2^32) {c : ExtCore} (hc : fd.core = some c)
    (h : c.fsbToDb 1 = some ((1*fd.blockSize/512 : ℕ) : ℤ)) : fd.bsize = 0 := by
  rw [ExtDisk.core] at hc
  split at hc
  · cases hc
  rename_i hno
  obtain rfl := Option.some.inj hc
  have hright : 1*fd.blockSize/512 = 2^(fd.bsize+1) := by
    rw [ExtDisk.blockSize,pow_succ]
    omega
  rw [hright,ExtCore.fsbToDb] at h
  split at h
  case isFalse => cases h
  rename_i hshift
  have hval := Option.some.inj h
  dsimp only at hval hshift
  generalize hs : (10+fd.bsize)%2^32 = bshift at hno hshift hval
  by_cases hbig : 30 ≤ fd.bsize
  · have hpow : 2^31 ≤ 2^(fd.bsize+1) := Nat.pow_le_pow_right (by norm_num) (by omega)
    have hword : Int.bmod (1*2^(((2^bshift/512 : ℕ) : ℤ)-1).toNat) (2^32) < 2^31 := Int.bmod_lt (by norm_num)
    omega
  · have hb : bshift = 10+fd.bsize := by omega
    subst hb
    have hcount : 2^(10+fd.bsize)/512 = 2^(fd.bsize+1) := by
      rw [show 10+fd.bsize = 9+(fd.bsize+1) by omega,pow_add]
      exact Nat.mul_div_cancel_left _ (by norm_num)
    rw [hcount] at hshift hval
    have hsmall : fd.bsize < 5 := by
      by_contra hle
      have hpow : 2^6 ≤ 2^(fd.bsize+1) := Nat.pow_le_pow_right (by norm_num) (by omega)
      omega
    interval_cases hn : fd.bsize
    · rfl
    all_goals exact absurd hval (by decide)

/-- A located volume has small blocks, few of them, and few groups. -/
theorem fits_of_located (hl : v.Located) :
    v.super.bsize = 0 ∧ v.super.blocks ≤ 2^30 ∧ v.super.groups ≤ 2^26-32 := by
  obtain ⟨fs,hfs,hblk,⟨hlen,-⟩,-⟩ := hl
  have h : v.super.bsize = 0 := by
    rw [ext2fsOpen,superAt_eq,if_neg (not_not.mpr v.valid.magic)] at hfs
    obtain ⟨c,hc,rfl⟩ := Option.map_eq_some_iff.mp hfs
    exact bsize_zero (ofBytes_lt _).1 hc (hblk 1 v.two_le_blocks)
  rw [open_zero h] at hfs
  obtain rfl := Option.some.inj hfs
  have hb : v.super.blocks ≤ 2^30 := by
    by_contra hlt
    have hlast := hblk (2^30) (by omega)
    rw [fsbToDb_one rfl,blockSize_zero h] at hlast
    exact absurd (Option.some.inj hlast) (by decide)
  refine ⟨h,hb,?_⟩
  dsimp only at hlen
  have hnum : v.super.numGroups = v.super.groups := numGroups_eq v.valid h hb
  have hle : v.super.groups ≤ v.super.blocks-v.super.firstblk+(v.super.bpg-1) := Nat.div_le_self _ _
  have hbpg : v.super.bpg ≤ 8*v.super.blockSize := v.valid.bpg_le
  rw [blockSize_zero h] at hbpg
  have hword : v.super.bgLen 1024 = Int.bmod ((v.super.groups+31)/32*1024) (2^32) := bgLen_eq hnum (by omega)
  have hcut : Int.bmod (((v.super.groups : ℤ)+31)/32*1024) (2^32) ≤ 2^31-1024 := by
    rw [Int.bmod_def]
    omega
  omega

theorem superAt_congr {dev dev' : ℤ → UInt8} (h : ∀ a : ℕ, a < 2048 → dev' a = dev a) : superAt dev' = superAt dev := by
  have hfield : ∀ o w, o+w ≤ 1024 →
      leGet (fun j => dev' (1024+j)) o w = leGet (fun j => dev (1024+j)) o w := by
    intro o w hw
    refine leGet_congr fun j _ hj => ?_
    exact_mod_cast h (1024+j) (by omega)
  simp (disch := decide) only [superAt,ExtDisk.ofBytes,hfield]

theorem descStart_ge (fd : ExtDisk) : 2048 ≤ fd.descStart := by
  cases hn : fd.bsize with
  | zero => rw [descStart_zero hn]
  | succ n =>
    have hsize : 2048 ≤ fd.blockSize := by
      have hpow : 2^1 ≤ 2^(n+1) := Nat.pow_le_pow_right (by norm_num) (by omega)
      rw [ExtDisk.blockSize,hn]
      omega
    exact hsize.trans (Nat.le_mul_of_pos_left _ (Nat.succ_pos _))

/-- Bytes after the descriptors may change without a change of the layout. -/
theorem tableAt_congr {dev dev' : ℤ → UInt8}
    (h : ∀ a : ℕ, a < (superAt dev).descStart+32*(superAt dev).groups → dev' a = dev a) :
    superAt dev' = superAt dev ∧ ∀ g < (superAt dev).groups, tableAt dev' g = tableAt dev g := by
  have hge := descStart_ge (superAt dev)
  have hs : superAt dev' = superAt dev := superAt_congr fun a ha => h a (by omega)
  refine ⟨hs,fun g hg => ?_⟩
  rw [tableAt,tableAt,hs]
  refine leGet_congr fun j _ hj => ?_
  exact_mod_cast h ((superAt dev).descStart+j) (by omega)

/-- The volume with other bytes after the descriptors. -/
def patch (v : ExtVolume) (dev : ℤ → UInt8)
    (h : ∀ a : ℕ, a < (superAt v.dev).descStart+32*(superAt v.dev).groups → dev a = v.dev a) : ExtVolume where
  dev := dev
  valid := (tableAt_congr h).1 ▸ v.valid
  table_ge := by
    rw [(tableAt_congr h).1]
    intro g hg
    rw [(tableAt_congr h).2 g hg]
    exact v.table_ge g hg
  table_le := by
    rw [(tableAt_congr h).1]
    intro g hg
    rw [(tableAt_congr h).2 g hg]
    exact v.table_le g hg

/-- Two bytes of which one lies after the descriptors differ in some volume of the same layout. -/
theorem exists_differ (v : ExtVolume) {p : ℕ} {q : ℤ} (hp : v.super.descStart+32*v.super.groups ≤ p) (hq : q ≠ p) :
    ∃ w : ExtVolume, w.super = v.super ∧ (∀ g < v.super.groups, tableAt w.dev g = tableAt v.dev g) ∧ w.dev q ≠ w.dev p := by
  have hsame : ∀ a : ℕ, a < (superAt v.dev).descStart+32*(superAt v.dev).groups →
      Function.update v.dev p (v.dev q+1) a = v.dev a := by
    intro a ha
    have hlt : a < p := lt_of_lt_of_le ha hp
    exact Function.update_of_ne (by exact_mod_cast hlt.ne) _ _
  obtain ⟨hsuper,htables⟩ := tableAt_congr hsame
  refine ⟨v.patch _ hsame,hsuper,htables,?_⟩
  change Function.update v.dev (p : ℤ) (v.dev q+1) q ≠ Function.update v.dev (p : ℤ) (v.dev q+1) p
  rw [Function.update_self,Function.update_of_ne hq]
  intro heq
  have hnat := congrArg UInt8.toNat heq
  rw [UInt8.toNat_add] at hnat
  change (v.dev q).toNat = ((v.dev q).toNat+1)%256 at hnat
  omega

/-- The second inode of a volume with several inodes in a block. -/
theorem second_inode (hl : v.Located) (hipb : 1 < 1024/v.super.inodeSize) (hipg : 1 < v.super.ipg) :
    v.dev ((v.inodeBlock 2*1024+128 : ℕ) : ℤ) = v.dev (v.inodeStart 2) := by
  obtain ⟨h,hb,-⟩ := fits_of_located hl
  obtain ⟨fs,hfs,-,⟨hlen,-⟩,hino⟩ := hl
  have hgpos : 0 < v.super.groups := v.valid.groups_pos
  have hinodes : v.super.inodes = v.super.ipg*v.super.groups := v.valid.inodes
  have htwo : 2 ≤ v.super.inodes := hinodes ▸ Nat.le_trans hipg (Nat.le_mul_of_pos_right _ hgpos)
  have hgroup : (2-1)/v.super.ipg = 0 := Nat.div_eq_of_lt hipg
  have hbo : (2-1)%v.super.ipg%(1024/v.super.inodeSize) = 1 := by
    rw [Nat.mod_eq_of_lt hipg,Nat.mod_eq_of_lt hipb]
  have hbytes := hino 2 (by norm_num) htwo
  obtain rfl := Option.some.inj ((open_zero h).symm.trans hfs)
  dsimp only at hlen
  have hroom : 32*((((2-1)/v.super.ipg : ℕ) : ℤ)+1) ≤ v.super.bgLen 1024 := by
    rw [hgroup]
    omega
  rw [readInode_zero h hb (open_zero h) (by norm_num) htwo hroom,hbo] at hbytes
  have hhead := congrArg (fun bytes => bytes.head?) (Option.some.inj hbytes)
  rw [List.head?_map,List.head?_map,show (List.range 128).head? = some 0 from rfl] at hhead
  have hbyte := Option.some.inj hhead
  push_cast at hbyte ⊢
  simpa only [mul_one,add_zero] using hbyte

/-- Where the second inode is at another byte than the code takes it from, some content of the volume shows it. -/
theorem isize_of_located (hl : ∀ w : ExtVolume, w.super = v.super → w.Located) :
    v.super.inodeSize = 128 ∨ v.super.inodeSize = 1024 ∨ v.super.ipg = 1 := by
  obtain ⟨h,hb,-⟩ := fits_of_located (hl v rfl)
  by_contra hno
  push Not at hno
  obtain ⟨h128,h1024,hone⟩ := hno
  have hgpos : 0 < v.super.groups := v.valid.groups_pos
  have hipos : 0 < v.super.ipg := v.valid.ipg_pos
  have hmul := ipb_mul h
  have hipb : 1 < 1024/v.super.inodeSize := by
    by_contra hle
    interval_cases hp : 1024/v.super.inodeSize
    · omega
    · omega
  have hipg : 1 < v.super.ipg := by omega
  have hgroup : (2-1)/v.super.ipg = 0 := Nat.div_eq_of_lt hipg
  have hstart := inodeStart_zero h 2
  rw [Nat.mod_eq_of_lt hipg,Nat.mod_eq_of_lt hipb] at hstart
  have hge : v.super.descStart+32*v.super.groups ≤ tableAt v.dev 0*v.super.blockSize := v.table_ge 0 hgpos
  have hafter : v.super.descStart+32*v.super.groups ≤ v.inodeStart 2 := by
    rw [inodeStart,hgroup]
    omega
  obtain ⟨w,hws,hwt,hdiff⟩ := exists_differ v (q := ((v.inodeBlock 2*1024+128 : ℕ) : ℤ)) hafter (by omega)
  have hwstart : w.inodeStart 2 = v.inodeStart 2 := by rw [inodeStart,inodeStart,hws,hgroup,hwt 0 hgpos]
  have hwblock : w.inodeBlock 2 = v.inodeBlock 2 := by rw [inodeBlock,inodeBlock,hws,hgroup,hwt 0 hgpos]
  have hsecond := second_inode (hl w hws) (hws ▸ hipb) (hws ▸ hipg)
  rw [hwstart,hwblock] at hsecond
  exact hdiff hsecond

end ExtVolume

/-- The computed geometry is right, whatever the volume holds, exactly for small blocks and strides of 128 bytes. -/
theorem ext2_geometry_iff (v : ExtVolume) : (∀ w : ExtVolume, w.super = v.super → w.Located) ↔ v.super.Fits := by
  constructor
  · intro hl
    obtain ⟨h,hb,hg⟩ := ExtVolume.fits_of_located (hl v rfl)
    exact ⟨h,hb,hg,ExtVolume.isize_of_located hl⟩
  · intro hf w hw
    exact ExtVolume.located_of_fits (hw ▸ hf)

/-- A volume with one group. -/
def oneGroup (dev : ℤ → UInt8) (hv : (superAt dev).Valid) (hgroups : (superAt dev).groups = 1)
    (hge : (superAt dev).descStart+32*1 ≤ tableAt dev 0*(superAt dev).blockSize)
    (hle : tableAt dev 0*(superAt dev).blockSize+(superAt dev).ipg*(superAt dev).inodeSize ≤
      (superAt dev).blocks*(superAt dev).blockSize) : ExtVolume where
  dev := dev
  valid := hv
  table_ge := by
    intro g hg
    rw [hgroups] at hg ⊢
    obtain rfl := Nat.lt_one_iff.mp hg
    exact hge
  table_le := by
    intro g hg
    rw [hgroups] at hg
    obtain rfl := Nat.lt_one_iff.mp hg
    exact hle

/-- A device with 64 blocks of 1024 bytes in one group, and 16 inodes from block 4 on. -/
def narrowDev (a : ℤ) : UInt8 :=
  ([(1024,16),(1028,64),(1044,1),(1057,0x20),(1064,16),(1080,0x53),(1081,0xef),(2056,4)].lookup a).getD 0

theorem superAt_narrow : superAt narrowDev = ⟨16,64,1,0,8192,16,0xef53,0,0⟩ := by decide

theorem tableAt_narrow : tableAt narrowDev 0 = 4 := by rw [tableAt,superAt_narrow]; decide

def narrowVolume : ExtVolume :=
  oneGroup narrowDev
    (by rw [superAt_narrow]; exact ⟨rfl,by decide,by decide,by decide,by decide,by decide,by decide,by decide⟩)
    (by rw [superAt_narrow]; decide) (by rw [tableAt_narrow,superAt_narrow]; decide) (by rw [tableAt_narrow,superAt_narrow]; decide)

/-- Its geometry is right. -/
theorem ext2_geometry_narrow : ∀ w : ExtVolume, w.super = narrowVolume.super → w.Located := by
  have hsuper : narrowVolume.super = ⟨16,64,1,0,8192,16,0xef53,0,0⟩ := superAt_narrow
  refine (ext2_geometry_iff narrowVolume).mpr ?_
  rw [hsuper]
  exact ⟨rfl,by decide,by decide,.inl (by decide)⟩

/-- A device with 64 blocks of 2048 bytes in one group, and 16 inodes from block 4 on. -/
def widerDev (a : ℤ) : UInt8 :=
  ([(1024,16),(1028,64),(1048,1),(1057,0x40),(1064,16),(1080,0x53),(1081,0xef),(2056,4)].lookup a).getD 0

theorem superAt_wider : superAt widerDev = ⟨16,64,0,1,16384,16,0xef53,0,0⟩ := by decide

theorem tableAt_wider : tableAt widerDev 0 = 4 := by rw [tableAt,superAt_wider]; decide

def widerVolume : ExtVolume :=
  oneGroup widerDev
    (by rw [superAt_wider]; exact ⟨rfl,by decide,by decide,by decide,by decide,by decide,by decide,by decide⟩)
    (by rw [superAt_wider]; decide) (by rw [tableAt_wider,superAt_wider]; decide) (by rw [tableAt_wider,superAt_wider]; decide)

/-- Block 1 of blocks of 2048 bytes is sought at sector 8. -/
theorem ext2_wider_wrong : widerVolume.super = ⟨16,64,0,1,16384,16,0xef53,0,0⟩ ∧ ¬widerVolume.Located := by
  refine ⟨superAt_wider,fun hl => ?_⟩
  have h := (ExtVolume.fits_of_located hl).1
  rw [show widerVolume.super = _ from superAt_wider] at h
  cases h

end Blub.Stand
