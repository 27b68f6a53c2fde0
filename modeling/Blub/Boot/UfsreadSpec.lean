import Blub.Boot.Ufsread

/-! What `boot2_ufs_read` returns, while reads of the disk fail and spoil the buffers. -/
namespace Blub.Boot
open Blub.Bytes Blub.Trace Blub.Stand

/-- Where a byte of a file is read, as the sector of its piece of 4 KB. -/
def Ufs1Super.PieceAt (fs : Ufs1Super) (ino o : ℕ) (a vba : ℤ) : Prop :=
  o < diSize (fs.inode ino) ∧ 0 < a ∧ (fs.file ino).blockAddr (o/fs.bsize) = some a ∧
    vbaddrOf fs a (o%fs.bsize) = vba

/-- A UFS1 file system: two pieces of a file are never in one place. -/
structure Ufs1 extends Ufs1Super where
  bshift_mem : 12 ≤ bshift ∧ bshift ≤ 16
  frag : toUfs1Super.fshift+fragshift = bshift
  inopb_dvd : toUfs1Super.inopb ∣ ipg
  apart : ∀ ino o o' a a' vba, toUfs1Super.PieceAt ino o a vba → toUfs1Super.PieceAt ino o' a' vba →
    o/vblksize = o'/vblksize

/-- The size of the piece of 4 KB that a byte of a file is in. -/
def pieceSize (d : UfsDisk) (o : ℕ) : ℕ :=
  min (dblksize d (o/d.bsize : ℕ)-(o%d.bsize-o%d.bsize%vblksize)) vblksize

/-- The buffers that were not spoilt hold what their tags say. -/
structure BootInv (fs : Ufs1) (s : Boot2Ufs) : Prop where
  dp1 : s.inomap ≠ 0 → ∀ j < 128, s.dp1 j = fs.inode s.inomap j
  ind : s.indmap ≠ 0 → s.indSpoilt = false → ∀ j < vblksize, s.indbuf j = fs.sector s.indmap j
  blk : s.blkmap ≠ 0 → s.blkSpoilt = false → ∃ o a, fs.PieceAt s.inomap o a s.blkmap ∧
    ∀ j < pieceSize (fs.file s.inomap) o, s.blkbuf j = fs.sector s.blkmap j

section Reads
variable {fs : Ufs1}

/-- A block has `2^k` pieces of 4 KB. -/
theorem Ufs1.pieces (fs : Ufs1) : ∃ k ≤ 4, fs.bsize = 4096*2^k := by
  obtain ⟨k,hk⟩ := Nat.exists_eq_add_of_le fs.bshift_mem.1
  have hle := fs.bshift_mem.2
  refine ⟨k,by omega,?_⟩
  rw [Ufs1Super.bsize,hk,pow_add]
  norm_num

theorem Ufs1.indirpervblk_eq (fs : Ufs1) : fs.indirpervblk = 1024 := by
  obtain ⟨k,-,hk⟩ := fs.pieces
  have hpos : 0 < 2^k := Nat.two_pow_pos k
  rw [Ufs1Super.indirpervblk,Ufs1Super.nindir,hk,vblksize,Nat.mul_div_cancel_left _ (by norm_num)]
  rw [show 4096*2^k = 4*(1024*2^k) by ring,Nat.mul_div_cancel_left _ (by norm_num),Nat.mul_div_cancel _ hpos]

theorem Ufs1.ipervblk_eq (fs : Ufs1) : fs.ipervblk = 32 := by
  obtain ⟨k,-,hk⟩ := fs.pieces
  have hpos : 0 < 2^k := Nat.two_pow_pos k
  rw [Ufs1Super.ipervblk,Ufs1Super.inopb,hk,vblksize,Nat.mul_div_cancel_left _ (by norm_num)]
  rw [show 4096*2^k = 128*(32*2^k) by ring,Nat.mul_div_cancel_left _ (by norm_num),Nat.mul_div_cancel _ hpos]

/-- The inode is where the program looks for it. -/
theorem Ufs1.inode_eq (fs : Ufs1) (x j : ℕ) :
    fs.sector (fs.inoToVba x) (128*fs.inoToVbo x+j) = fs.inode x j := by
  obtain ⟨k,-,hk⟩ := fs.pieces
  obtain ⟨q,hq⟩ := fs.inopb_dvd
  have hpos : 0 < 2^k := Nat.two_pow_pos k
  have hinopb : fs.inopb = 32*2^k := by
    rw [Ufs1Super.inopb,hk,show 4096*2^k = 128*(32*2^k) by ring,Nat.mul_div_cancel_left _ (by norm_num)]
  have hfrag : 2^fs.fragshift*2^fs.fsbtodb = 8*2^k := by
    have hb : 2^fs.fshift*2^fs.fragshift = 4096*2^k := by
      rw [← pow_add,fs.frag]
      exact hk
    rw [Ufs1Super.fshift,pow_add] at hb
    have h512 : (2 : ℕ)^9 = 512 := by norm_num
    rw [h512] at hb
    nlinarith
  generalize hr : x%fs.ipg = r
  have h32 : x%32 = r%32 := by
    rw [← hr,Nat.mod_mod_of_dvd]
    exact (Dvd.intro _ hinopb.symm).trans fs.inopb_dvd
  have hmod : x%fs.inopb = r%fs.inopb := by
    rw [← hr,Nat.mod_mod_of_dvd]
    exact fs.inopb_dvd
  have hcode : r/32*8*512+(128*(r%32)+j) = 128*r+j := by omega
  have hspec : r/fs.inopb*(8*2^k)*512+(128*(r%fs.inopb)+j) = 128*r+j := by
    have hdiv := Nat.div_add_mod r fs.inopb
    rw [hinopb] at hdiv ⊢
    nlinarith
  unfold Ufs1Super.inode Ufs1Super.sector Ufs1Super.inoToVba Ufs1Super.inoToVbo Ufs1Super.inoToFsba Ufs1Super.inoToFsbo
  rw [fs.ipervblk_eq,hr,h32,hmod,dbpervblk]
  have htoDb : fs.toDb (fs.cgimin (x/fs.ipg)+r/fs.inopb*2^fs.fragshift : ℕ) =
      fs.toDb (fs.cgimin (x/fs.ipg))+(r/fs.inopb*(8*2^k) : ℕ) := by
    unfold Ufs1Super.toDb
    push_cast
    rw [add_mul,mul_assoc _ ((2 : ℤ)^fs.fragshift)]
    congr 2
    exact_mod_cast hfrag
  rw [htoDb]
  congr 1
  rw [mul_add,mul_add,add_assoc,add_assoc]
  congr 1
  push_cast at hcode hspec ⊢
  zify at hcode hspec
  linarith

/-- What the search for a block leaves alone. -/
structure SameBlk (s s' : Boot2Ufs) : Prop where
  inomap : s'.inomap = s.inomap
  fsOff : s'.fsOff = s.fsOff
  blkmap : s'.blkmap = s.blkmap
  blkSpoilt : s'.blkSpoilt = s.blkSpoilt

theorem dskread_done {lba : ℤ} {nblk : ℕ} {o : Option (List (ℕ × UInt8))} {buf : ℕ → UInt8}
    (h : (dskread fs.toUfs1Super lba nblk o buf).1 = true) {j : ℕ} (hj : j < 512*nblk) :
    (dskread fs.toUfs1Super lba nblk o buf).2 j = fs.sector lba j := by
  cases o with
  | none =>
    rw [dskread]
    dsimp only
    rw [blit_inside (Nat.zero_le j) (by omega),Nat.sub_zero]
  | some junk => cases h

/-- A read that fails and stores nothing leaves the buffer. -/
theorem dskread_spared {lba : ℤ} {nblk : ℕ} {o : Option (List (ℕ × UInt8))} {buf : ℕ → UInt8}
    (h : (dskread fs.toUfs1Super lba nblk o buf).1 = false) (ho : spoils o = false) :
    (dskread fs.toUfs1Super lba nblk o buf).2 = buf := by
  cases o with
  | none => cases h
  | some junk =>
    simp only [spoils,decide_eq_false_iff_not,ne_eq,not_not] at ho
    subst ho
    rfl

/-- A new content of the buffer for indirect blocks. -/
theorem readIndbuf_inv {s : Boot2Ufs} (hs : BootInv fs s) (vba : ℤ) {r : Bool × Boot2Ufs}
    (hr : readIndbuf fs.toUfs1Super vba s = r) :
    SameBlk s r.2 ∧ (r.1 = false → BootInv fs r.2) ∧
      (r.1 = true → BootInv fs {r.2 with indmap := vba} ∧ ∀ j < vblksize, r.2.indbuf j = fs.sector vba j) := by
  subst hr
  refine ⟨⟨rfl,rfl,rfl,rfl⟩,fun hfail => ⟨hs.dp1,fun htag hok => ?_,hs.blk⟩,fun hdone => ?_⟩
  · unfold readIndbuf at hok hfail ⊢
    dsimp only at hok hfail htag ⊢
    rw [hfail] at hok
    simp only [Bool.not_false,Bool.true_and,Bool.or_eq_false_iff] at hok
    rw [dskread_spared hfail hok.2]
    exact hs.ind htag hok.1
  · have hbuf : ∀ j < vblksize, (readIndbuf fs.toUfs1Super vba s).2.indbuf j = fs.sector vba j :=
      fun j hj => dskread_done hdone (by rw [vblksize] at hj; rw [dbpervblk]; omega)
    exact ⟨⟨hs.dp1,fun _ _ => hbuf,hs.blk⟩,hbuf⟩

/-- The pointers to the indirect block are sound for a block of the file: they name a block, and no spoilt buffer. -/
def AddrMeets (fs : Ufs1) (lbn : ℕ) (s : Boot2Ufs) : Prop :=
  ndaddr ≤ lbn → lbn < ndaddr+fs.nindir → 0 < diIb (fs.inode s.inomap) 0 ∧
    (s.indmap = fs.toDb (diIb (fs.inode s.inomap) 0)+((lbn-ndaddr)/fs.indirpervblk*dbpervblk : ℕ) → s.indSpoilt = false)

instance (fs : Ufs1) (lbn : ℕ) (s : Boot2Ufs) : Decidable (AddrMeets fs lbn s) := inferInstanceAs (Decidable (_ → _))

theorem diDb_congr {b b' : ℕ → UInt8} (h : ∀ j < 128, b j = b' j) {k : ℕ} (hk : k < ndaddr) : diDb b k = diDb b' k := by
  rw [ndaddr] at hk
  unfold diDb
  exact ptrAt_shift fun j hj => h _ (by omega)

theorem diIb_congr {b b' : ℕ → UInt8} (h : ∀ j < 128, b j = b' j) : diIb b 0 = diIb b' 0 := by
  unfold diIb
  exact ptrAt_shift fun j hj => h _ (by omega)

theorem diSize_congr {b b' : ℕ → UInt8} (h : ∀ j < 128, b j = b' j) : diSize b = diSize b' := by
  unfold diSize
  exact leGet_congr fun j _ hj => h j (by omega)

@[simp] theorem file_diIb (fs : Ufs1Super) (ino : ℕ) : (fs.file ino).diIb = diIb (fs.inode ino) := by rw [Ufs1Super.file]
@[simp] theorem file_diDb (fs : Ufs1Super) (ino : ℕ) : (fs.file ino).diDb = diDb (fs.inode ino) := by rw [Ufs1Super.file]
@[simp] theorem file_diSize (fs : Ufs1Super) (ino : ℕ) : (fs.file ino).diSize = diSize (fs.inode ino) := by rw [Ufs1Super.file]
@[simp] theorem file_bsize (fs : Ufs1Super) (ino : ℕ) : (fs.file ino).bsize = fs.bsize := rfl

theorem levelOf_single {d : UfsDisk} {l : ℕ} (h : l < d.nptr) : d.levelOf niaddr 0 l = some (0,l) := by
  have hlt : l < d.nptr^(0+1) := by rwa [zero_add,pow_one]
  unfold niaddr UfsDisk.levelOf
  exact if_pos hlt

/-- A pointer out of an indirect block, of which one piece of 4 KB is in the buffer. -/
theorem ptrAt_piece {ino lbn : ℕ} (hlow : ndaddr ≤ lbn) (hhigh : lbn < ndaddr+fs.nindir) {buf : ℕ → UInt8} {p : ℤ}
    (hp : p = diIb (fs.inode ino) 0) (hpos : 0 < p)
    (hbuf : ∀ j < vblksize, buf j = fs.sector (fs.toDb p+((lbn-ndaddr)/fs.indirpervblk*dbpervblk : ℕ)) j) :
    (fs.file ino).blockAddr lbn = some (ptrAt buf ((lbn-ndaddr) &&& (fs.indirpervblk-1))) := by
  have hlevel := levelOf_single (d := fs.file ino) (l := lbn-ndaddr) (Nat.sub_lt_left_of_lt_add hlow hhigh)
  have hp' : (fs.file ino).diIb 0 = p := by rw [file_diIb,hp]
  have hind : (fs.file ino).indirect 1 p (lbn-ndaddr) = ptrAt ((fs.file ino).diskBlock p) (lbn-ndaddr) := by
    rw [UfsDisk.indirect,if_neg hpos.ne',UfsDisk.indirect,pow_zero,Nat.div_one]
  rw [UfsDisk.blockAddr,if_neg (not_lt.mpr hlow),hlevel,Option.map_some]
  dsimp only
  rw [hp',zero_add,hind]
  apply congrArg some
  rw [fs.indirpervblk_eq] at hbuf ⊢
  have hand : (lbn-ndaddr) &&& (1024-1) = (lbn-ndaddr)%1024 := Nat.and_two_pow_sub_one_eq_mod (lbn-ndaddr) 10
  rw [hand]
  generalize lbn-ndaddr = l at *
  apply ptrAt_shift
  intro j hj
  rw [hbuf _ (by rw [vblksize]; omega)]
  have hplace : 512*(l/1024*dbpervblk)+(4*(l%1024)+j) = 4*l+j := by
    rw [dbpervblk]
    omega
  have hsum : (512 : ℤ)*(fs.toDb p+(l/1024*dbpervblk : ℕ))+(4*(l%1024)+j : ℕ) = 512*fs.toDb p+(4*l+j : ℕ) := by
    rw [← hplace]
    push_cast
    ring
  unfold Ufs1Super.sector
  rw [hsum]
  rfl

theorem place_pos (fs : Ufs1Super) {p : ℤ} (hp : 0 < p) (n : ℕ) : 0 < fs.toDb p+n := by
  have hshift : 0 < fs.toDb p := mul_pos hp (by positivity)
  omega

/-- All reads succeed from here on. -/
structure Calm (s : Boot2Ufs) : Prop where
  io : s.io = []
  blk : s.blkSpoilt = false
  ind : s.indSpoilt = false

theorem readIndbuf_calm {s : Boot2Ufs} (hs : Calm s) (vba : ℤ) :
    ∃ s', readIndbuf fs.toUfs1Super vba s = (true,s') ∧ Calm s' := by
  unfold readIndbuf
  rw [hs.io]
  exact ⟨_,rfl,rfl,hs.blk,rfl⟩

/-- A pointer is taken out of the buffer for indirect blocks, which is filled before unless it has the tag. -/
theorem readIndbuf_ptr {s : Boot2Ufs} (hs : BootInv fs s) {vba : ℤ} (hvba : vba ≠ 0)
    (hspoilt : s.indmap = vba → s.indSpoilt = false) (i : ℕ) {addr : Option ℤ}
    (hpiece : ∀ buf : ℕ → UInt8, (∀ j < vblksize, buf j = fs.sector vba j) → addr = some (ptrAt buf i)) :
    ∃ o s', (let r := if s.indmap ≠ vba then
            let r := readIndbuf fs.toUfs1Super vba s
            if r.1 then (true,{r.2 with indmap := vba}) else (false,r.2)
          else (true,s)
        if r.1 then (some (ptrAt r.2.indbuf i),r.2) else (none,r.2)) = (o,s') ∧
      BootInv fs s' ∧ SameBlk s s' ∧ (∀ a, o = some a → addr = some a) ∧ (Calm s → o.isSome ∧ Calm s') := by
  dsimp only
  by_cases htag : s.indmap = vba
  · rw [if_neg (not_not.mpr htag)]
    refine ⟨_,_,rfl,hs,⟨rfl,rfl,rfl,rfl⟩,fun a ha => ?_,fun hc => ⟨rfl,hc⟩⟩
    rw [hpiece s.indbuf fun j hj => ?_]
    · exact ha
    · rw [hs.ind (htag ▸ hvba) (hspoilt htag) j hj,htag]
  · rw [if_pos htag]
    obtain ⟨q,hq⟩ : ∃ q, q = readIndbuf fs.toUfs1Super vba s := ⟨_,rfl⟩
    obtain ⟨hq₁,hq₂,hq₃⟩ := readIndbuf_inv hs vba hq.symm
    have hcalm : Calm s → ∃ s', q = (true,s') ∧ Calm s' := fun hc => hq ▸ readIndbuf_calm hc vba
    rw [← hq]
    obtain ⟨b,s'⟩ := q
    cases b with
    | true =>
      obtain ⟨hinv,hbuf⟩ := hq₃ rfl
      refine ⟨_,_,rfl,hinv,⟨hq₁.inomap,hq₁.fsOff,hq₁.blkmap,hq₁.blkSpoilt⟩,fun a ha => ?_,fun hc => ⟨rfl,?_⟩⟩
      · rw [hpiece s'.indbuf hbuf]
        exact ha
      · obtain ⟨t,ht,hct⟩ := hcalm hc
        cases ht
        exact ⟨hct.io,hct.blk,hct.ind⟩
    | false =>
      refine ⟨none,s',rfl,hq₂ rfl,hq₁,(by simp),fun hc => ?_⟩
      obtain ⟨t,ht,-⟩ := hcalm hc
      cases ht

/-- A block of the file that is found through the indirect block. -/
theorem loadAddr_single {s : Boot2Ufs} (hs : BootInv fs s) (hino : s.inomap ≠ 0) {lbn : ℕ} (hok : AddrMeets fs lbn s)
    (hlow : ndaddr ≤ lbn) (hhigh : lbn < ndaddr+fs.nindir) :
    ∃ o s', loadAddr fs.toUfs1Super lbn s = (o,s') ∧ BootInv fs s' ∧ SameBlk s s' ∧
      (∀ a, o = some a → (fs.file s.inomap).blockAddr lbn = some a) ∧ (Calm s → o.isSome ∧ Calm s') := by
  obtain ⟨hpos,hspoilt⟩ := hok hlow hhigh
  rw [← diIb_congr (hs.dp1 hino)] at hspoilt hpos
  unfold loadAddr
  rw [if_neg (not_lt.mpr hlow),if_pos hhigh]
  exact readIndbuf_ptr hs (place_pos _ hpos _).ne' hspoilt _
    fun buf hbuf => ptrAt_piece hlow hhigh (diIb_congr (hs.dp1 hino)) hpos hbuf

theorem loadAddr_spec {s : Boot2Ufs} (hs : BootInv fs s) (hino : s.inomap ≠ 0) {lbn : ℕ} (hok : AddrMeets fs lbn s) :
    ∃ o s', loadAddr fs.toUfs1Super lbn s = (o,s') ∧ BootInv fs s' ∧ SameBlk s s' ∧
      (∀ a, o = some a → (fs.file s.inomap).blockAddr lbn = some a) ∧
      (Calm s → (o.isSome ↔ lbn < ndaddr+fs.nindir) ∧ Calm s') := by
  by_cases hlow : lbn < ndaddr
  · refine ⟨_,_,if_pos hlow,hs,⟨rfl,rfl,rfl,rfl⟩,fun a ha => ?_,fun hc => ⟨?_,hc⟩⟩
    · rw [UfsDisk.blockAddr,if_pos hlow,file_diDb,← diDb_congr (hs.dp1 hino) hlow]
      exact ha
    · exact ⟨fun _ => by omega,fun _ => rfl⟩
  by_cases hhigh : lbn < ndaddr+fs.nindir
  · obtain ⟨o,s',h₁,h₂,h₃,h₄,h₅⟩ := loadAddr_single hs hino hok (not_lt.mp hlow) hhigh
    exact ⟨o,s',h₁,h₂,h₃,h₄,fun hc => ⟨⟨fun _ => hhigh,fun _ => (h₅ hc).1⟩,(h₅ hc).2⟩⟩
  · refine ⟨none,s,?_,hs,⟨rfl,rfl,rfl,rfl⟩,by simp,fun hc => ⟨?_,hc⟩⟩
    · unfold loadAddr
      rw [if_neg hlow,if_neg hhigh]
    · exact ⟨fun h => by simp at h,fun h => absurd h hhigh⟩

/-- A new content of the buffer for data. -/
theorem readBlkbuf_cases {s : Boot2Ufs} (hs : BootInv fs s) (vba : ℤ) (nblk : ℕ) :
    ∃ b s', readBlkbuf fs.toUfs1Super vba nblk s = (b,s') ∧ s'.inomap = s.inomap ∧ s'.fsOff = s.fsOff ∧
      s'.dp1 = s.dp1 ∧ (s'.indmap = s.indmap ∧ s'.indSpoilt = s.indSpoilt ∧ s'.indbuf = s.indbuf) ∧
      (b = false → BootInv fs s') ∧ (b = true → ∀ j < 512*nblk, s'.blkbuf j = fs.sector vba j) ∧
      (Calm s → b = true ∧ Calm s') := by
  refine ⟨_,_,rfl,rfl,rfl,rfl,⟨rfl,rfl,rfl⟩,fun hfail => ⟨hs.dp1,hs.ind,fun htag hok => ?_⟩,fun hdone j hj => ?_,
    fun hc => ?_⟩
  · dsimp only at hok hfail htag ⊢
    rw [hfail] at hok
    simp only [Bool.not_false,Bool.true_and,Bool.or_eq_false_iff] at hok
    rw [dskread_spared hfail hok.2]
    exact hs.blk htag hok.1
  · exact dskread_done hdone hj
  · rw [hc.io]
    exact ⟨rfl,rfl,rfl,hc.ind⟩

theorem pieceSize_congr (ino : ℕ) {o o' : ℕ} (h : o/vblksize = o'/vblksize) :
    pieceSize (fs.file ino) o = pieceSize (fs.file ino) o' := by
  obtain ⟨k,-,hk⟩ := fs.pieces
  rw [vblksize] at h
  have hblock : o/fs.bsize = o'/fs.bsize := by rw [hk,← Nat.div_div_eq_div_mul,← Nat.div_div_eq_div_mul,h]
  have hround : ∀ x : ℕ, x%fs.bsize-x%fs.bsize%4096 = 4096*(x/4096%2^k) := by
    intro x
    rw [hk,Nat.mod_mul]
    have hlt := Nat.mod_lt x (by norm_num : 0 < 4096)
    rw [Nat.add_mul_mod_self_left,Nat.mod_mod]
    omega
  rw [pieceSize,pieceSize,file_bsize,hblock,vblksize,hround,hround,h]

/-- The sizes of pieces are whole sectors. -/
theorem pieceSize_dvd (ino o : ℕ) : 512 ∣ pieceSize (fs.file ino) o := by
  obtain ⟨k,-,hk⟩ := fs.pieces
  have hround : 512 ∣ o%fs.bsize-o%fs.bsize%4096 := by
    refine Dvd.dvd.trans (by norm_num : 512 ∣ 4096) ?_
    exact Nat.dvd_sub_mod _
  have hfrag : 512 ∣ (fs.file ino).fsize := ⟨2^fs.fsbtodb,by
    show 2^(fs.fsbtodb+9) = _
    rw [pow_add]
    ring⟩
  have hsize : 512 ∣ dblksize (fs.file ino) (o/fs.bsize : ℕ) := by
    rw [dblksize]
    split_ifs
    · rw [file_bsize,hk]
      exact Dvd.dvd.mul_right (by norm_num) _
    · rw [fragroundup]
      exact Dvd.dvd.mul_left hfrag _
  rw [pieceSize,file_bsize,vblksize]
  rcases min_choice (dblksize (fs.file ino) (o/fs.bsize : ℕ)-(o%fs.bsize-o%fs.bsize%4096)) 4096 with h | h
  · rw [h]
    exact Nat.dvd_sub hsize hround
  · rw [h]
    norm_num

theorem loadBlk_spec {s : Boot2Ufs} (hs : BootInv fs s) {o : ℕ} {a vba : ℤ} (hpiece : fs.PieceAt s.inomap o a vba)
    (hok : s.blkmap = vba → s.blkSpoilt = false) :
    ∃ b s', loadBlk fs.toUfs1Super vba (pieceSize (fs.file s.inomap) o) s = (b,s') ∧ BootInv fs s' ∧
      s'.inomap = s.inomap ∧ s'.fsOff = s.fsOff ∧
      (b = true → ∀ j < pieceSize (fs.file s.inomap) o, s'.blkbuf j = fs.sector vba j) ∧
      (Calm s → b = true ∧ Calm s') := by
  unfold loadBlk
  by_cases htag : s.blkmap = vba
  · rw [if_neg (not_not.mpr htag)]
    refine ⟨_,_,rfl,hs,rfl,rfl,fun _ j hj => ?_,fun hc => ⟨rfl,hc⟩⟩
    have hne : s.blkmap ≠ 0 := by
      obtain ⟨-,hpos,-,hplace⟩ := hpiece
      rw [htag,← hplace]
      exact (place_pos fs.toUfs1Super hpos _).ne'
    obtain ⟨o',a',hpiece',hbuf⟩ := hs.blk hne (hok htag)
    rw [htag] at hpiece' hbuf
    rw [pieceSize_congr _ (fs.apart _ _ _ _ _ _ hpiece hpiece')] at hj
    exact hbuf j hj
  · rw [if_pos htag]
    obtain ⟨b,s',hrun,hino,hoff,hdp,⟨hi₁,hi₂,hi₃⟩,hfail,hdone,hcalm⟩ :=
      readBlkbuf_cases hs vba (pieceSize (fs.file s.inomap) o/512)
    rw [Nat.mul_div_cancel' (pieceSize_dvd s.inomap o)] at hdone
    rw [hrun]
    cases b with
    | true =>
      refine ⟨_,_,rfl,⟨?_,?_,fun _ _ => ⟨o,a,?_,?_⟩⟩,hino,hoff,hdone,fun hc => ⟨rfl,?_⟩⟩
      · rw [hino,hdp]
        exact hs.dp1
      · rw [hi₁,hi₂,hi₃]
        exact hs.ind
      · dsimp only
        rw [hino]
        exact hpiece
      · dsimp only
        rw [hino]
        exact hdone rfl
      · obtain ⟨h₁,h₂,h₃⟩ := (hcalm hc).2
        exact ⟨h₁,h₂,h₃⟩
    | false => exact ⟨_,_,rfl,hfail rfl,hino,hoff,by simp,fun hc => nomatch (hcalm hc).1⟩

/-- The sizes of the program are those of the file. -/
theorem vsize_eq {ino o : ℕ} (ho : o < diSize (fs.inode ino)) (hsize : diSize (fs.inode ino) < 2^31) :
    vsize fs.toUfs1Super (diSize (fs.inode ino)) (o/fs.bsize) (o%fs.bsize) = pieceSize (fs.file ino) o ∧
      o%fs.bsize%vblksize < pieceSize (fs.file ino) o ∧
      o%fs.bsize+(pieceSize (fs.file ino) o-o%fs.bsize%vblksize) ≤ fs.bsize := by
  have hfrag : (fs.file ino).fshift ≤ (fs.file ino).bshift := (Nat.le_add_right _ _).trans_eq fs.frag
  have hlt := blkoff_lt (d := fs.file ino) ho
  have hle := dblksize_le hfrag (o/fs.bsize)
  have hb : fs.bsize ≤ 2^16 := Nat.pow_le_pow_right (by norm_num) fs.bshift_mem.2
  have hblk : sblksize fs.toUfs1Super (diSize (fs.inode ino)) (o/fs.bsize) = dblksize (fs.file ino) (o/fs.bsize : ℕ) := by
    rw [sblksize,dblksize,bmod_of_lt hsize,file_bsize,file_diSize]
    have hc : (ndaddr ≤ o/fs.bsize ∨ (((o/fs.bsize+1)*fs.bsize : ℕ) : ℤ) ≤ (diSize (fs.inode ino) : ℤ)) ↔
        ((ndaddr : ℤ) ≤ (o/fs.bsize : ℕ) ∨ ((o/fs.bsize : ℕ)+1 : ℤ)*(fs.bsize : ℕ) ≤ (diSize (fs.inode ino) : ℕ)) := by
      push_cast
      exact Iff.or (by norm_cast) Iff.rfl
    rw [if_congr hc rfl rfl]
    rfl
  rw [file_bsize] at hlt hle
  unfold vsize pieceSize
  rw [hblk,file_bsize]
  generalize dblksize (fs.file ino) (o/fs.bsize : ℕ) = n at *
  generalize o%fs.bsize = off at *
  unfold sub32 vblksize
  omega

end Reads

section Loop

/-- Along the loop no hole is read, nor a spoilt buffer that still has its tag. -/
def LoopMeets (fs : Ufs1) (size : ℕ) : ℕ → ℕ → Boot2Ufs → Prop
  | 0, _, _ => True
  | fuel+1, nb, s =>
    let lbn := s.fsOff/fs.bsize
    let off := s.fsOff%fs.bsize
    let r := loadAddr fs.toUfs1Super lbn s
    let vbaddr := vbaddrOf fs.toUfs1Super (r.1.getD 0) off
    let n := vsize fs.toUfs1Super size lbn off
    let b := loadBlk fs.toUfs1Super vbaddr n r.2
    let n := min (sub32 n (off%vblksize)) nb
    nb ≠ 0 → AddrMeets fs lbn s ∧ (r.1.isSome → 0 < r.1.getD 0 ∧ (r.2.blkmap = vbaddr → r.2.blkSpoilt = false) ∧
      (b.1 = true → LoopMeets fs size fuel (nb-n) {b.2 with fsOff := b.2.fsOff+n}))

attribute [local grind =] LoopMeets

instance LoopMeets.decidable (fs : Ufs1) (size : ℕ) : (fuel nb : ℕ) → (s : Boot2Ufs) → Decidable (LoopMeets fs size fuel nb s)
  | 0, _, _ => isTrue trivial
  | fuel+1, _, _ =>
    have := LoopMeets.decidable fs size fuel
    inferInstanceAs (Decidable (_ → _ ∧ (_ → _ ∧ _ ∧ (_ → LoopMeets fs size fuel _ _))))

variable {fs : Ufs1}

/-- The bytes of a piece, in the buffer for data. -/
theorem piece_bytes {ino o : ℕ} {a vba : ℤ} (hpiece : fs.PieceAt ino o a vba) {buf : ℕ → UInt8} {n : ℕ}
    (hbuf : ∀ j < n, buf j = fs.sector vba j) {j : ℕ} (hj : o%fs.bsize%vblksize+j < n) (hin : o%fs.bsize+j < fs.bsize) :
    buf (o%fs.bsize%vblksize+j) = (fs.file ino).byte (o+j) := by
  obtain ⟨-,hpos,haddr,rfl⟩ := hpiece
  rw [byte_block (fs.file ino) hin,file_bsize,UfsDisk.blockByte,haddr,hbuf _ hj]
  dsimp only
  rw [if_neg hpos.ne']
  have hplace : 512*(o%fs.bsize/vblksize*dbpervblk)+(o%fs.bsize%vblksize+j) = o%fs.bsize+j := by
    rw [vblksize,dbpervblk]
    omega
  have hsum : (512 : ℤ)*vbaddrOf fs.toUfs1Super a (o%fs.bsize)+(o%fs.bsize%vblksize+j : ℕ) =
      512*fs.toDb a+(o%fs.bsize+j : ℕ) := by
    rw [← hplace]
    unfold vbaddrOf
    push_cast
    ring
  unfold Ufs1Super.sector
  rw [hsum]
  rfl

theorem boot2ReadLoop_spec (fuel nb : ℕ) (acc : List UInt8) {s : Boot2Ufs} (hs : BootInv fs s)
    (hino : s.inomap ≠ 0) (hsize : diSize (fs.inode s.inomap) < 2^31) (hin : s.fsOff+nb ≤ diSize (fs.inode s.inomap))
    (hfuel : nb < fuel) (hok : LoopMeets fs (diSize (fs.inode s.inomap)) fuel nb s) :
    ∃ r s', boot2ReadLoop fs.toUfs1Super (diSize (fs.inode s.inomap)) fuel nb acc s = some (r,s') ∧ BootInv fs s' ∧
      ∀ data, r = some data → data = acc ++ (fs.file s.inomap).bytes s.fsOff nb ∧ s'.fsOff = s.fsOff+nb := by
  induction fuel generalizing nb acc s with
  | zero => omega
  | succ fuel ih =>
    rw [boot2ReadLoop]
    by_cases hnb : nb = 0
    · rw [if_pos hnb]
      refine ⟨_,_,rfl,hs,fun data hdata => ?_⟩
      cases hdata
      rw [hnb,bytes_zero,List.append_nil,Nat.add_zero]
      exact ⟨rfl,rfl⟩
    rw [if_neg hnb]
    rw [LoopMeets] at hok
    obtain ⟨haddr,hrest⟩ := hok hnb
    obtain ⟨o,s₁,hrun,hs₁,hsame,hblk,-⟩ := loadAddr_spec hs hino haddr
    rw [hrun] at hrest
    dsimp only
    rw [hrun]
    cases o with
    | none => exact ⟨_,_,rfl,hs₁,fun data hdata => nomatch hdata⟩
    | some a =>
      obtain ⟨hpos,hspoilt,hrest⟩ := hrest rfl
      dsimp only [Option.getD_some] at hpos hspoilt hrest
      have hoff : s.fsOff < diSize (fs.inode s.inomap) := by omega
      obtain ⟨hv₁,hv₂,hv₃⟩ := @vsize_eq fs s.inomap s.fsOff hoff hsize
      have hpiece : fs.PieceAt s₁.inomap s.fsOff a (vbaddrOf fs.toUfs1Super a (s.fsOff%fs.bsize)) := by
        rw [hsame.inomap]
        exact ⟨hoff,hpos,hblk a rfl,rfl⟩
      obtain ⟨b,s₂,hrun₂,hs₂,hino₂,hoff₂,hbuf,-⟩ := loadBlk_spec hs₁ hpiece hspoilt
      rw [hsame.inomap] at hrun₂ hino₂ hbuf hpiece
      rw [hsame.fsOff] at hoff₂
      rw [hv₁,hrun₂] at hrest
      dsimp only
      rw [hv₁,hrun₂]
      cases b with
      | false => exact ⟨_,_,rfl,hs₂,fun data hdata => nomatch hdata⟩
      | true =>
        have hrest := hrest rfl
        have hle : pieceSize (fs.file s.inomap) s.fsOff ≤ vblksize := min_le_right _ _
        have hsub : sub32 (pieceSize (fs.file s.inomap) s.fsOff) (s.fsOff%fs.bsize%vblksize) =
            pieceSize (fs.file s.inomap) s.fsOff-s.fsOff%fs.bsize%vblksize := by
          unfold sub32 vblksize at *
          omega
        dsimp only at hrest ⊢
        rw [hsub] at hrest ⊢
        generalize hn : min (pieceSize (fs.file s.inomap) s.fsOff-s.fsOff%fs.bsize%vblksize) nb = n at *
        have hdata : (List.range n).map (fun j => s₂.blkbuf (s.fsOff%fs.bsize%vblksize+j)) =
            (List.range n).map fun j => (fs.file s.inomap).byte (s.fsOff+j) := by
          apply List.map_congr_left
          intro j hj
          rw [List.mem_range] at hj
          exact piece_bytes hpiece (hbuf rfl) (by omega) (by omega)
        have hs₃ : BootInv fs {s₂ with fsOff := s₂.fsOff+n} := ⟨hs₂.dp1,hs₂.ind,hs₂.blk⟩
        rw [hdata]
        rw [← hino₂] at hsize hin hrest ⊢
        obtain ⟨r,s',hrun₃,hs',hres⟩ := ih _ (acc ++ (List.range n).map fun j => (fs.file s₂.inomap).byte (s.fsOff+j)) hs₃
          (by rwa [← hino₂] at hino) hsize (by dsimp only; omega) (by omega) hrest
        refine ⟨r,s',hrun₃,hs',fun data hd => ?_⟩
        obtain ⟨h₁,h₂⟩ := hres data hd
        dsimp only at h₁ h₂
        rw [hoff₂] at h₁ h₂
        refine ⟨?_,by omega⟩
        rw [h₁,List.append_assoc]
        congr 1
        exact bytes_append (fs.file s₂.inomap) (by omega) (by rw [file_diSize]; omega)

end Loop

/-- The caller may set `fs_off` before a call. -/
structure BootCall where
  off : Option ℕ
  ino : ℕ
  nbyte : ℕ

def Boot2Ufs.seek (s : Boot2Ufs) (off : Option ℕ) : Boot2Ufs := {s with fsOff := off.getD s.fsOff}

/-- One call: what was read, or nothing for -1. -/
def bootStep (fs : Ufs1) (s : Boot2Ufs) (c : BootCall) : Option (Option (List UInt8)) × Boot2Ufs :=
  match boot2UfsRead fs.toUfs1Super c.ino c.nbyte (s.seek c.off) with
  | none => (none,s)
  | some (r,s') => (some r,s')

/-- A file of less than 2 GB is asked for from an offset in it, which is 0 for another file than the last one; no hole
of it is read, and no buffer that a failed read has spoilt since it got the tag asked for. -/
def BootOk (fs : Ufs1) (s : Boot2Ufs) (c : BootCall) : Prop :=
  let s := s.seek c.off
  let size := diSize (fs.inode c.ino)
  let r := loadInode fs.toUfs1Super c.ino s
  let nb := min c.nbyte (size-r.2.fsOff)
  c.ino ≠ 0 → s.fsOff ≤ size ∧ size < 2^31 ∧ (s.inomap = c.ino ∨ s.fsOff = 0) ∧
    (r.1 = true → LoopMeets fs size (nb+1) nb r.2)

instance (fs : Ufs1) (s : Boot2Ufs) (c : BootCall) : Decidable (BootOk fs s c) :=
  inferInstanceAs (Decidable (_ → _ ∧ _ ∧ _ ∧ (_ → _)))

/-- A call returns, and unless it returns -1, the bytes of the file at `fs_off`, which goes on by as many. There is no
file with the number 0. -/
def BootReads (fs : Ufs1) (s : Boot2Ufs) (c : BootCall) : Prop :=
  ∃ r s', boot2UfsRead fs.toUfs1Super c.ino c.nbyte (s.seek c.off) = some (r,s') ∧ ∀ data, r = some data →
    data = (if c.ino = 0 then [] else (fs.file c.ino).bytes (s.seek c.off).fsOff c.nbyte) ∧
      s'.fsOff = (s.seek c.off).fsOff+data.length

section Run
variable {fs : Ufs1}

/-- The inode that is asked for becomes the current one, or cannot be read. -/
theorem loadInode_spec {s : Boot2Ufs} (hs : BootInv fs s) {ino : ℕ} (hoff : s.inomap = ino ∨ s.fsOff = 0) :
    ∃ b s', loadInode fs.toUfs1Super ino s = (b,s') ∧ BootInv fs s' ∧
      (b = true → s'.inomap = ino ∧ s'.fsOff = s.fsOff) ∧ (Calm s → b = true ∧ Calm s') := by
  unfold loadInode
  by_cases hsame : s.inomap = ino
  · rw [if_neg (not_not.mpr hsame)]
    exact ⟨_,_,rfl,hs,fun _ => ⟨hsame,rfl⟩,fun hc => ⟨rfl,hc⟩⟩
  · rw [if_pos hsame]
    obtain ⟨b,s',hrun,-,-,-,-,hfail,hdone,hcalm⟩ := readBlkbuf_cases hs (fs.inoToVba ino) dbpervblk
    rw [hrun]
    cases b with
    | false => exact ⟨_,_,rfl,hfail rfl,by simp,fun hc => nomatch (hcalm hc).1⟩
    | true =>
      refine ⟨_,_,rfl,⟨fun _ j hj => ?_,fun h => absurd rfl h,fun h => absurd rfl h⟩,fun _ => ⟨rfl,?_⟩,fun hc => ⟨rfl,?_⟩⟩
      · dsimp only
        rw [← fs.inode_eq]
        apply hdone rfl
        have hlt := Nat.mod_lt ino (by norm_num : 0 < 32)
        rw [Ufs1Super.inoToVbo,fs.ipervblk_eq,dbpervblk]
        omega
      · exact (hoff.resolve_left hsame).symm
      · obtain ⟨h₁,h₂,h₃⟩ := (hcalm hc).2
        exact ⟨h₁,h₂,h₃⟩

theorem length_bytes {d : UfsDisk} {o n : ℕ} : (d.bytes o n).length = min n (d.diSize-o) := by
  rw [UfsDisk.bytes,if_neg (by omega),List.length_map,List.length_range,Int.toNat_natCast]

theorem bytes_min {d : UfsDisk} {o n : ℕ} : d.bytes o (min n (d.diSize-o)) = d.bytes o n := by
  rw [UfsDisk.bytes,UfsDisk.bytes,Int.toNat_natCast,min_assoc,min_self]

theorem bootStep_spec (s : Boot2Ufs) (c : BootCall) (hs : BootInv fs s) (hok : BootOk fs s c) :
    BootReads fs s c ∧ BootInv fs (bootStep fs s c).2 := by
  have hseek : BootInv fs (s.seek c.off) := ⟨hs.dp1,hs.ind,hs.blk⟩
  unfold bootStep BootReads
  unfold BootOk at hok
  generalize s.seek c.off = t at *
  by_cases hzero : c.ino = 0
  · have hrun : boot2UfsRead fs.toUfs1Super c.ino c.nbyte t = some (some [],t) := by rw [boot2UfsRead,if_pos hzero]
    rw [hrun]
    refine ⟨⟨_,_,rfl,fun data hdata => ?_⟩,hseek⟩
    cases hdata
    rw [if_pos hzero]
    exact ⟨rfl,rfl⟩
  · obtain ⟨hoff,hsize,hcur,hmeets⟩ := hok hzero
    obtain ⟨b,t',hload,ht',hb,-⟩ := loadInode_spec hseek hcur
    rw [hload] at hmeets
    cases b with
    | false =>
      have hrun : boot2UfsRead fs.toUfs1Super c.ino c.nbyte t = some (none,t') := by
        rw [boot2UfsRead,if_neg hzero,hload]
      rw [hrun]
      exact ⟨⟨_,_,rfl,fun data hdata => nomatch hdata⟩,ht'⟩
    | true =>
      obtain ⟨hino,hoff'⟩ := hb rfl
      have hmeets := hmeets rfl
      dsimp only at hmeets
      have hsz : diSize t'.dp1 = diSize (fs.inode c.ino) := by
        rw [diSize_congr (ht'.dp1 (by rwa [hino])),hino]
      have hsub : sub32 (diSize (fs.inode c.ino)) t'.fsOff = diSize (fs.inode c.ino)-t'.fsOff := by
        unfold sub32
        omega
      obtain ⟨r,s',hrun,hs',hres⟩ := boot2ReadLoop_spec (min c.nbyte (diSize (fs.inode c.ino)-t'.fsOff)+1)
        (min c.nbyte (diSize (fs.inode c.ino)-t'.fsOff)) [] ht' (by rwa [hino]) (by rwa [hino])
        (by rw [hino]; omega) (Nat.lt_succ_self _) (by rwa [hino])
      rw [hino] at hrun hres
      have hread : boot2UfsRead fs.toUfs1Super c.ino c.nbyte t = some (r,s') := by
        rw [boot2UfsRead,if_neg hzero,hload]
        dsimp only
        rw [hsz,Nat.mod_eq_of_lt (by omega),hsub,hrun]
      rw [hread]
      refine ⟨⟨r,s',rfl,fun data hdata => ?_⟩,hs'⟩
      obtain ⟨h₁,h₂⟩ := hres data hdata
      have hbytes : (fs.file c.ino).bytes t.fsOff c.nbyte =
          (fs.file c.ino).bytes t'.fsOff (min c.nbyte (diSize (fs.inode c.ino)-t'.fsOff)) := by
        rw [hoff']
        exact bytes_min.symm
      rw [if_neg hzero,hbytes,h₁,List.nil_append,length_bytes,file_diSize]
      refine ⟨rfl,?_⟩
      rw [h₂,hoff']
      omega

/-- Along calls that meet `BootOk`, whatever reads fail, a call that does not return -1 reads its file. -/
theorem boot2_ufs_reads_file (fs : Ufs1) (s : Boot2Ufs) (hs : BootInv fs s) (calls : List BootCall)
    (hok : Along (bootStep fs) (BootOk fs) s calls) : Along (bootStep fs) (BootReads fs) s calls :=
  Along.of_invariant (BootInv fs) bootStep_spec calls s hs hok

end Run

section Image

/-- A file system with one file, number 2, of 5000 bytes: the first of them is a seven, and the second block is a
hole. The first byte of the partition is a nine. -/
def holeSuper : Ufs1Super where
  dev := fun a => if a = 0 then 9 else if a = 8456 then 0x88 else if a = 8457 then 0x13 else
    if a = 8488 then 32 else if a = 16384 then 7 else 0
  bshift := 12
  fragshift := 3
  fsbtodb := 0
  ipg := 32
  fpg := 1000
  iblkno := 16
  cgoffset := 0
  cgmask := 2^32-1

/-- An image of this shape has no file but number 2, if the other inodes are 0. -/
theorem size_image {dev : ℤ → UInt8} (hdev : ∀ a : ℕ, a/4096%125 = 2 → a/128 ≠ 66 → dev a = 0) {ino : ℕ} (h : ino ≠ 2) :
    diSize ({holeSuper with dev := dev}.inode ino) = 0 := by
  have hzero : ∀ j < 8, {holeSuper with dev := dev}.inode ino (8+j) = 0 := by
    intro j hj
    have hplace : holeSuper.toDb (holeSuper.inoToFsba ino) = (1000*(ino/32)+16 : ℕ) := by
      have hgroup : holeSuper.inoToFsba ino = 1000*(ino/32)+0*(ino/32 &&& (2^32-1-(2^32-1)))+16+ino%32/32*2^3 := rfl
      unfold Ufs1Super.toDb
      rw [hgroup,Nat.div_eq_of_lt (Nat.mod_lt ino (by norm_num))]
      norm_num [holeSuper]
    have haddr : {holeSuper with dev := dev}.inode ino (8+j) = dev (512*(1000*(ino/32)+16)+(128*(ino%32)+(8+j)) : ℕ) := by
      have hr : holeSuper.inoToFsbo ino = ino%32 := rfl
      change dev (512*holeSuper.toDb (holeSuper.inoToFsba ino)+((128*holeSuper.inoToFsbo ino+(8+j) : ℕ) : ℤ)) = _
      rw [hplace,hr]
      push_cast
      rfl
    rw [haddr]
    apply hdev <;> omega
  have hsize : leGet ({holeSuper with dev := dev}.inode ino) 8 8 = leGet (fun _ => 0) 0 8 :=
    leGet_shift fun j hj => by rw [hzero j hj]
  unfold diSize
  rw [hsize]
  decide

theorem holeSuper_size {ino : ℕ} (h : ino ≠ 2) : diSize (holeSuper.inode ino) = 0 := by
  refine @size_image holeSuper.dev (fun a h₁ h₂ => ?_) ino h
  unfold holeSuper
  dsimp only
  rw [if_neg (by omega),if_neg (by omega),if_neg (by omega),if_neg (by omega),if_neg (by omega)]

def holeImage : Ufs1 where
  toUfs1Super := holeSuper
  bshift_mem := by decide
  frag := rfl
  inopb_dvd := by decide
  apart := by
    intro ino o o' a a' vba h h'
    have hfirst : ∀ o a, holeSuper.PieceAt ino o a vba → o/vblksize = 0 := by
      rintro o a ⟨ho,hpos,haddr,-⟩
      by_cases hino : ino = 2
      · subst hino
        have hsize : diSize (holeSuper.inode 2) = 5000 := by decide +kernel
        rw [hsize] at ho
        have hb : holeSuper.bsize = 4096 := rfl
        rw [hb] at haddr
        obtain hz | hone : o/4096 = 0 ∨ o/4096 = 1 := by omega
        · exact hz
        · rw [hone] at haddr
          have hhole : (holeSuper.file 2).blockAddr 1 = some 0 := by decide +kernel
          rw [hhole,Option.some.injEq] at haddr
          omega
      · rw [holeSuper_size hino] at ho
        omega
    rw [hfirst o a h,hfirst o' a' h']

def boot2Start (io : List (Option (List (ℕ × UInt8)))) : Boot2Ufs :=
  ⟨0,0,0,fun _ => 0,fun _ => 0,fun _ => 0,0,io,false,false⟩

theorem boot2Start_inv (fs : Ufs1) (io : List (Option (List (ℕ × UInt8)))) : BootInv fs (boot2Start io) :=
  ⟨fun h => absurd rfl h,fun h => absurd rfl h,fun h => absurd rfl h⟩

/-- The inode cannot be read at first, and the read stores a byte. -/
theorem boot2_ufs_reads_again : Along (bootStep holeImage) (BootReads holeImage) (boot2Start [some [(0,5)]])
    [⟨some 0,2,1⟩,⟨some 0,2,1⟩,⟨none,2,7⟩] :=
  boot2_ufs_reads_file holeImage _ (boot2Start_inv _ _) _ (by decide +kernel)

/-- A byte of the hole is taken from the first sector of the partition. -/
theorem boot2_ufs_reads_hole : ¬Along (bootStep holeImage) (BootReads holeImage) (boot2Start [])
    [⟨some 0,2,1⟩,⟨some 4096,2,1⟩] := by
  rintro ⟨-,⟨r,s',hrun,hres⟩,-⟩
  have hval : some (some [(9 : UInt8)]) = some r := Eq.trans (by decide +kernel) (congrArg (Option.map Prod.fst) hrun)
  have hbytes := (hres [9] (Option.some.inj hval).symm).1
  exact absurd hbytes (by decide +kernel)

end Image

end Blub.Boot
