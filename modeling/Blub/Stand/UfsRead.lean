import Blub.Stand.Ufs

/-! What `ufs_read` returns while all reads of the device succeed: the bytes of the file up to its end, or an error
where the tree of its pointers ends before. -/
namespace Blub.Stand
open Blub.Trace Blub.Bytes

namespace UfsDisk
variable (d : UfsDisk)

/-- The number of blocks that a tree of pointers has. -/
def treeBlocks : ℕ := ndaddr+(d.nptr+d.nptr^2+d.nptr^3)

/-- The bytes of a range before the end of the file, and those of them that are in the tree. -/
def wanted (o size : ℕ) : ℕ := min size (d.diSize-o)
def mapped (o size : ℕ) : ℕ := min (d.wanted o size) (d.treeBlocks*d.bsize-o)

theorem blockAddr_isSome (n : ℕ) : (d.blockAddr n).isSome ↔ n < d.treeBlocks := by
  rw [blockAddr,treeBlocks]
  by_cases hn : n < ndaddr
  · rw [if_pos hn]
    simp only [Option.isSome_some,true_iff]
    omega
  · rw [if_neg hn,Option.isSome_map]
    simp only [niaddr,levelOf,Nat.zero_add,Nat.reduceAdd,pow_one]
    split_ifs <;> simp only [Option.isSome_some,Option.isSome_none,true_iff,Bool.false_eq_true,false_iff] <;> omega

end UfsDisk

section Done
variable {d : UfsDisk}

theorem loadIndirect_done (level : ℕ) (p : ℤ) (fp : UfsFile) :
    (loadIndirect d level p fp []).1 = 0 ∧ (loadIndirect d level p fp []).2.2 = [] := by
  unfold loadIndirect
  by_cases h : fp.blkno level ≠ p
  · rw [if_pos h]
    simp [strategy]
  · rw [if_neg h]
    exact ⟨rfl,rfl⟩

theorem blockMapLoop_done (level : ℕ) (p : ℤ) (n : ℕ) (fp : UfsFile) :
    BlockMapMeets d level p n fp [] ∧ (∃ b, (blockMapLoop d level p n fp []).1 = .ok b) ∧
      (blockMapLoop d level p n fp []).2.2 = [] := by
  induction level generalizing p n fp with
  | zero => exact ⟨trivial,⟨p,rfl⟩,rfl⟩
  | succ level ih =>
    rw [BlockMapMeets,blockMapLoop]
    by_cases hp : p = 0
    · rw [if_pos hp]
      exact ⟨Or.inl hp,⟨0,rfl⟩,rfl⟩
    · obtain ⟨hrc,hio⟩ := loadIndirect_done (d := d) level p fp
      rw [if_neg hp]
      dsimp only
      rw [if_neg (not_not.mpr hrc),hio]
      obtain ⟨hmeets,hok⟩ := ih (ptrAt ((loadIndirect d level p fp []).2.1.blk level)
        (if 0 < level then n/nindir d (level-1) else n)) (if 0 < level then n%nindir d (level-1) else n)
        (loadIndirect d level p fp []).2.1
      exact ⟨Or.inr ⟨Or.inr (Or.inl rfl),fun _ => hmeets⟩,hok⟩

/-- A block that is not in the tree is told from one that is. -/
theorem blockMap_done (hd : UfsShape d) {n : ℕ} (hn : n < 2^31) (fp : UfsFile) :
    (blockMap d n fp []).2.2 = [] ∧ if n < d.treeBlocks then ∃ b, (blockMap d n fp []).1 = .ok b
      else (blockMap d n fp []).1 = .error efbig := by
  have hsome := d.blockAddr_isSome n
  rw [UfsDisk.blockAddr] at hsome
  unfold blockMap
  by_cases hdirect : n < ndaddr
  · have hlow : n < d.treeBlocks := by
      rw [UfsDisk.treeBlocks]
      omega
    rw [if_pos (by exact_mod_cast hdirect),if_pos hlow]
    exact ⟨rfl,_,rfl⟩
  · rw [if_neg hdirect,Option.isSome_map] at hsome
    have hfind := findLevel_eq hd (show n-ndaddr < 2^31-1 by rw [ndaddr] at hdirect ⊢; omega)
    rw [if_neg (by exact_mod_cast hdirect),Int.toNat_natCast,hfind]
    cases hl : d.levelOf niaddr 0 (n-ndaddr) with
    | none =>
      rw [hl] at hsome
      rw [if_neg (mt hsome.mpr (by simp))]
      exact ⟨rfl,rfl⟩
    | some p =>
      rw [hl] at hsome
      rw [if_pos (hsome.mp rfl)]
      obtain ⟨-,hok,hio⟩ := blockMapLoop_done (d := d) (p.1+1) (d.diIb p.1) p.2 fp
      exact ⟨hio,hok⟩

theorem loadData_done (fileBlock b : ℤ) (fp : UfsFile) :
    ∃ fp', loadData d fileBlock b fp [] = (0,fp',[]) ∧ fp'.bufBlkno = fileBlock := by
  unfold loadData
  by_cases hb : b = 0
  · rw [if_pos hb]
    exact ⟨_,rfl,rfl⟩
  · rw [if_neg hb]
    exact ⟨_,rfl,rfl⟩

/-- The buffers hold what their tags say, and the block of the data buffer is in the tree. -/
structure Whole (d : UfsDisk) (fp : UfsFile) : Prop where
  tagged : Tagged d fp
  inTree : fp.bufBlkno ≠ -1 → fp.bufBlkno < d.treeBlocks

/-- The block of the seek pointer is in the buffer, if it is in the tree. -/
theorem bufFill_done (hd : UfsShape d) {o : ℕ} (hlt : o/d.bsize < 2^31) {fp : UfsFile} (hfp : fp.seekp = o)
    (hw : Whole d fp) : ∃ rc fp', bufFill d fp [] = (rc,fp',[]) ∧ Whole d fp' ∧ fp'.seekp = o ∧
      if o/d.bsize < d.treeBlocks then rc = 0 ∧ fp'.bufBlkno = (o/d.bsize : ℕ) else rc = efbig := by
  have hblk := lblkno_eq hlt
  have hmeets : BufMeets d fp [] := by
    refine Or.inr ⟨fun _ p _ => (blockMapLoop_done _ _ _ _).1,fun b _ => Or.inr (Or.inl ?_)⟩
    rw [hfp,hblk,(blockMap_done hd hlt fp).1]
    rfl
  obtain ⟨hT,hseek,-⟩ := bufFill_spec hd hlt hfp hw.tagged hmeets rfl
  have hrun : ∃ rc fp', bufFill d fp [] = (rc,fp',[]) ∧ (fp'.bufBlkno ≠ -1 → fp'.bufBlkno < d.treeBlocks) ∧
      if o/d.bsize < d.treeBlocks then rc = 0 ∧ fp'.bufBlkno = (o/d.bsize : ℕ) else rc = efbig := by
    unfold bufFill
    rw [hfp,hblk]
    dsimp only
    by_cases heq : ((o/d.bsize : ℕ) : ℤ) = fp.bufBlkno
    · have hnonneg := Int.natCast_nonneg (o/d.bsize)
      rw [heq] at hnonneg
      have htree := hw.inTree (by omega)
      rw [← heq,Nat.cast_lt] at htree
      rw [if_neg (not_not.mpr heq)]
      exact ⟨0,fp,rfl,hw.inTree,by rw [if_pos htree]; exact ⟨rfl,heq.symm⟩⟩
    · rw [if_pos heq]
      obtain ⟨hio,hok⟩ := blockMap_done hd hlt fp
      obtain ⟨-,hsame,-,-⟩ := blockMap_spec hd hlt hw.tagged (fun _ p _ => (blockMapLoop_done _ _ _ _).1)
        (rfl : blockMap d (o/d.bsize : ℕ) fp [] = _)
      obtain ⟨⟨res,fp₁,io₁⟩,hm⟩ : ∃ r, r = blockMap d (o/d.bsize : ℕ) fp [] := ⟨_,rfl⟩
      rw [← hm] at hio hok hsame ⊢
      obtain rfl : io₁ = [] := hio
      by_cases htree : o/d.bsize < d.treeBlocks
      · rw [if_pos htree] at hok
        obtain ⟨b,rfl⟩ : ∃ b, res = .ok b := hok
        obtain ⟨fp₂,hload,htag⟩ := @loadData_done d (o/d.bsize : ℕ) b fp₁
        refine ⟨0,fp₂,hload,fun _ => ?_,by rw [if_pos htree]; exact ⟨rfl,htag⟩⟩
        rw [htag]
        exact_mod_cast htree
      · rw [if_neg htree] at hok
        obtain rfl : res = .error efbig := hok
        exact ⟨efbig,fp₁,rfl,hsame.bufBlkno ▸ hw.inTree,by rw [if_neg htree]⟩
  obtain ⟨rc,fp',hfill,htree,hres⟩ := hrun
  rw [hfill] at hT hseek
  exact ⟨rc,fp',hfill,⟨hT,htree⟩,hseek,hres⟩

end Done

section Loop
variable {d : UfsDisk}

/-- The file blocks of a read have numbers of type `daddr_t`, or the tree ends before them. -/
def BlocksBelow (d : UfsDisk) (o size : ℕ) : Prop :=
  0 < d.wanted o size → o < 2^31*d.bsize ∧ (o+d.wanted o size ≤ 2^31*d.bsize ∨ d.treeBlocks < 2^31)

/-- One turn of the loop: the bytes that the buffer has. -/
theorem bufAvail_eq {o : ℕ} (hlt : o/d.bsize < 2^31) (ho : o < d.diSize) :
    bufAvail d o = min (dblksize d (o/d.bsize : ℕ)-o%d.bsize) (d.diSize-o) := by
  rw [bufAvail,lblkno_eq hlt,blkoff_eq]
  omega

theorem block_end {o m b : ℕ} (hb : 0 < b) (h : o/b < m) : o+(b-o%b) ≤ m*b := by
  have hmul := Nat.mul_le_mul_right b (Nat.succ_le_iff.mpr h)
  have hdiv := Nat.div_add_mod' o b
  have hmod := Nat.mod_lt o hb
  rw [Nat.succ_mul] at hmul
  omega

/-- A read takes a piece, and goes on behind it. -/
theorem BlocksBelow.next {o size c : ℕ} (h : BlocksBelow d o size) (hc : c ≤ d.wanted o size)
    (hblk : c ≤ d.bsize-o%d.bsize) (htree : o/d.bsize < d.treeBlocks) : BlocksBelow d (o+c) (size-c) := by
  have hwant : d.wanted (o+c) (size-c) = d.wanted o size-c := by
    unfold UfsDisk.wanted
    omega
  intro hpos
  rw [hwant] at hpos ⊢
  obtain ⟨-,hfar⟩ := h (by omega)
  refine ⟨?_,by omega⟩
  rcases hfar with hfar | hfar
  · omega
  · have hb : 0 < d.bsize := Nat.two_pow_pos _
    have hend := block_end hb htree
    have hlim : d.treeBlocks*d.bsize < 2^31*d.bsize := Nat.mul_lt_mul_of_pos_right hfar hb
    omega

/-- The loop of a read, from what it has stored on. -/
theorem ufsReadLoop_done (hd : UfsShape d) (fuel size : ℕ) (acc : List UInt8) {fp : UfsFile} {o : ℕ} (hfuel : size < fuel)
    (hfp : fp.seekp = o) (ho : o < 2^63) (hw : Whole d fp) (hn : BlocksBelow d o size) :
    ∃ fp', ufsReadLoop d fuel size acc fp [] =
        some (if d.mapped o size = d.wanted o size then 0 else efbig,size-d.mapped o size,
          acc ++ d.bytes o (d.mapped o size),fp',[]) ∧
      Whole d fp' ∧ fp'.seekp = (o+d.mapped o size : ℕ) := by
  induction fuel generalizing size acc fp o with
  | zero => omega
  | succ fuel ih =>
    rw [ufsReadLoop]
    -- nothing is wanted after the last byte
    have hnone : d.wanted o size = 0 → ∃ fp', some ((0 : ℤ),size,acc,fp,([] : List Outcome)) =
        some (if d.mapped o size = d.wanted o size then 0 else efbig,size-d.mapped o size,
          acc ++ d.bytes o (d.mapped o size),fp',[]) ∧ Whole d fp' ∧ fp'.seekp = (o+d.mapped o size : ℕ) := by
      intro h₀
      have hmap : d.mapped o size = 0 := by
        rw [UfsDisk.mapped,h₀,Nat.zero_min]
      rw [hmap,h₀,if_pos rfl,bytes_zero,List.append_nil]
      exact ⟨fp,rfl,hw,hfp⟩
    by_cases hz : size = 0
    · rw [if_pos hz]
      apply hnone
      rw [UfsDisk.wanted,hz,Nat.zero_min]
    rw [if_neg hz]
    by_cases hend : (d.diSize : ℤ) ≤ fp.seekp%2^64
    · rw [if_pos hend]
      apply hnone
      rw [UfsDisk.wanted]
      omega
    rw [if_neg hend]
    have hlow : o < d.diSize := by omega
    have hwant : 0 < d.wanted o size := by
      rw [UfsDisk.wanted]
      omega
    obtain ⟨hfirst,hfar⟩ := hn hwant
    have hb : 0 < d.bsize := Nat.two_pow_pos _
    have hlt : o/d.bsize < 2^31 := (Nat.div_lt_iff_lt_mul hb).mpr hfirst
    obtain ⟨rc,fp₁,hfill,hw₁,hseek₁,hres⟩ := bufFill_done hd hlt hfp hw
    rw [hfill]
    dsimp only
    by_cases htree : o/d.bsize < d.treeBlocks
    · rw [if_pos htree] at hres
      obtain ⟨rfl,htag⟩ := hres
      rw [if_neg (not_not.mpr rfl)]
      have hoff := blkoff_lt hlow
      have hle := dblksize_le hd.fshift_le (o/d.bsize)
      obtain ⟨c,hc⟩ : ∃ c, c = min size (bufAvail d o) := ⟨_,rfl⟩
      rw [hfp,← hc]
      rw [bufAvail_eq hlt hlow] at hc
      have hvalid : fp₁.bufBlkno ≠ -1 := by
        have hnonneg := Int.natCast_nonneg (o/d.bsize)
        omega
      have hdata : (List.range c).map (fun j => fp₁.buf (blkoff d o+j)) = (List.range c).map fun j => d.byte (o+j) := by
        apply List.map_congr_left
        intro j hj
        rw [List.mem_range] at hj
        rw [blkoff_eq,byte_block d (by omega),hw₁.tagged.buf hvalid _ (by rw [htag]; omega),htag,Int.toNat_natCast]
      have hcw : c ≤ d.wanted o size := by
        rw [UfsDisk.wanted]
        omega
      have hbound := hd.bshift_mem
      have hbig : d.bsize ≤ 2^16 := Nat.pow_le_pow_right (by norm_num) hbound.2
      have hw₂ : Whole d {fp₁ with seekp := ((o+c : ℕ) : ℤ)} := ⟨⟨hw₁.tagged.blk,hw₁.tagged.buf⟩,hw₁.inTree⟩
      obtain ⟨fp',hrun,hw',hseek'⟩ := ih (size-c) (acc ++ (List.range c).map fun j => d.byte (o+j)) (by omega) rfl
        (by omega) hw₂ (hn.next hcw (by omega) htree)
      have htree' := block_end hb htree
      have hwant' : d.wanted (o+c) (size-c) = d.wanted o size-c := by
        unfold UfsDisk.wanted
        omega
      have hmap' : d.mapped (o+c) (size-c) = d.mapped o size-c ∧ c ≤ d.mapped o size := by
        unfold UfsDisk.mapped
        rw [hwant']
        omega
      have hmw : d.mapped o size ≤ d.wanted o size := min_le_left _ _
      have hbytes : (List.range c).map (fun j => d.byte (o+j)) ++ d.bytes (o+c : ℕ) (d.mapped o size-c) =
          d.bytes o (d.mapped o size) := bytes_append d hmap'.2 (by omega)
      have hrc : (if d.mapped o size-c = d.wanted o size-c then (0 : ℤ) else efbig) =
          if d.mapped o size = d.wanted o size then 0 else efbig := by
        split_ifs <;> first | rfl | omega
      have hresid : size-c-(d.mapped o size-c) = size-d.mapped o size := by omega
      rw [hwant',hmap'.1,List.append_assoc,hbytes,hrc,hresid,Nat.cast_add] at hrun
      rw [hmap'.1] at hseek'
      rw [hdata]
      refine ⟨fp',hrun,hw',?_⟩
      rw [hseek']
      omega
    · rw [if_neg htree] at hres
      have hfar := not_lt.mp (mt (Nat.div_lt_iff_lt_mul hb).mpr htree)
      have hmap : d.mapped o size = 0 := by
        rw [UfsDisk.mapped,Nat.sub_eq_zero_of_le hfar,Nat.min_zero]
      have hne : rc ≠ 0 := by
        rw [hres]
        decide
      rw [if_pos hne,hmap,if_neg (by omega),bytes_zero,List.append_nil,hres]
      exact ⟨fp₁,rfl,hw₁,hseek₁⟩

end Loop

section Runs
variable (d : UfsDisk)

/-- The seek pointer is set to an offset that is not negative, and a read is of blocks with numbers of type `daddr_t`. -/
def UfsBelow (s : UfsState) : UfsCall → Prop
  | .read size => BlocksBelow d s.file.seekp.toNat size
  | .seek offset whence => 0 ≤ ufsSeek d s.file offset whence

/-- A read stores the bytes of the file up to its end. It returns an error if the tree ends before, and has stored the
bytes up to there. -/
def UfsReadsAll (s : UfsState) : UfsCall → Prop
  | .read size =>
    let n := d.mapped s.file.seekp.toNat size
    ∃ fp, ufsRead d size s.file s.io =
        some (if n = d.wanted s.file.seekp.toNat size then 0 else efbig,size-n,d.bytes s.file.seekp n,fp,[]) ∧
      fp.seekp = s.file.seekp+n
  | .seek _ _ => True

/-- All reads of the device succeed, and the seek pointer is in the range of `off_t`. -/
structure UfsWhole (s : UfsState) : Prop where
  file : Whole d s.file
  io : s.io = []
  seekp : 0 ≤ s.file.seekp ∧ s.file.seekp < 2^63

theorem mapped_lt {o size : ℕ} (ho : o < 2^63) (hn : BlocksBelow d o size) (hb : d.bsize ≤ 2^16) :
    o+d.mapped o size < 2^63 := by
  by_cases hwant : d.wanted o size = 0
  · rw [UfsDisk.mapped,hwant,Nat.zero_min]
    exact ho
  · obtain ⟨hfirst,hfar⟩ := hn (Nat.pos_of_ne_zero hwant)
    have hle : d.mapped o size ≤ d.wanted o size ∧ d.mapped o size ≤ d.treeBlocks*d.bsize-o :=
      ⟨min_le_left _ _,min_le_right _ _⟩
    rcases hfar with hfar | hfar
    · omega
    · have hlim := Nat.mul_le_mul_right d.bsize hfar.le
      omega

theorem ufsStep_done {d : UfsDisk} (hd : UfsShape d) (s : UfsState) (c : UfsCall) (hs : UfsWhole d s) (hok : UfsBelow d s c) :
    UfsReadsAll d s c ∧ UfsWhole d (ufsStep d s c).2 := by
  obtain ⟨o,ho⟩ : ∃ o : ℕ, s.file.seekp = o := ⟨s.file.seekp.toNat,(Int.toNat_of_nonneg hs.seekp.1).symm⟩
  cases c with
  | read size =>
    have hlow : o < 2^63 := by
      have := hs.seekp.2
      omega
    rw [UfsBelow,ho,Int.toNat_natCast] at hok
    obtain ⟨fp,hrun,hw,hseek⟩ := ufsReadLoop_done hd (size+1) size [] (Nat.lt_succ_self size) ho hlow hs.file hok
    rw [List.nil_append] at hrun
    have hread : ufsRead d size s.file s.io = some (if d.mapped o size = d.wanted o size then 0 else efbig,
        size-d.mapped o size,d.bytes o (d.mapped o size),fp,[]) := by
      rw [ufsRead,hs.io]
      exact hrun
    refine ⟨?_,?_⟩
    · rw [UfsReadsAll,ho,Int.toNat_natCast]
      exact ⟨fp,hread,by exact_mod_cast hseek⟩
    · rw [ufsStep,hread,ufsReturn]
      have hrange := mapped_lt d hlow hok (Nat.pow_le_pow_right (by norm_num) hd.bshift_mem.2)
      exact ⟨hw,rfl,hseek ▸ Int.natCast_nonneg _,by dsimp only; omega⟩
  | seek offset whence =>
    exact ⟨trivial,⟨⟨hs.file.tagged.blk,hs.file.tagged.buf⟩,hs.file.inTree⟩,hs.io,hok,(ufsSeek_range d s.file offset whence).2⟩

/-- Along seeks to offsets that are not negative and reads of blocks with numbers of type `daddr_t`, every read stores the
bytes of the file, and returns an error just where the tree ends. -/
theorem ufs_reads_all {d : UfsDisk} (hd : UfsShape d) (s : UfsState) (hs : UfsWhole d s) (calls : List UfsCall)
    (hok : Along (ufsStep d) (UfsBelow d) s calls) : Along (ufsStep d) (UfsReadsAll d) s calls :=
  Along.of_invariant (UfsWhole d) (ufsStep_done hd) calls s hs hok

theorem justOpened_whole : UfsWhole d (justOpened []) :=
  ⟨⟨⟨fun _ h => absurd rfl h,fun h => absurd rfl h⟩,fun h => absurd rfl h⟩,rfl,le_rfl,by decide⟩

/-- A read over the end of the first block. -/
theorem ufs_reads_all_two : Along (ufsStep twoBlocks.toUfsDisk) (UfsReadsAll twoBlocks.toUfsDisk) (justOpened [])
    [.seek 8000 .set,.read 500] :=
  ufs_reads_all twoBlocks.shape _ (justOpened_whole _) _
    ⟨(by decide : 0 ≤ ufsSeek twoBlocks.toUfsDisk (justOpened []).file 8000 .set),fun _ => by decide,trivial⟩

/-- A file of which only the first block is there, but which is longer than 2^32 blocks. -/
def hugeFile : UfsDisk where
  dev := fun _ _ => 1
  bshift := 13
  fshift := 10
  fsbtodb := 1
  diSize := 2^45+8192
  diDb := fun n => if n = 0 then 80 else 0
  diIb := fun _ => 0

/-- The number of the last block is 0 as a `daddr_t`. -/
theorem ufs_reads_wrapped : hugeFile.byte (2^45) = 0 ∧ ¬Along (ufsStep hugeFile) (UfsReadsAll hugeFile) (justOpened [])
    [.seek (2^45) .set,.read 1] := by
  refine ⟨by decide,?_⟩
  rintro ⟨-,⟨fp,hrun,-⟩,-⟩
  have hzero : hugeFile.bytes (ufsStep hugeFile (justOpened []) (.seek (2^45) .set)).2.file.seekp
      (hugeFile.mapped (ufsStep hugeFile (justOpened []) (.seek (2^45) .set)).2.file.seekp.toNat 1) = [0] := by
    decide
  have hdata := congrArg (Option.map fun r : ℤ × ℕ × List UInt8 × UfsFile × List Outcome => r.2.2.1) hrun
  rw [Option.map_some,hzero] at hdata
  have hval : some [(1 : UInt8)] = some [(0 : UInt8)] := Eq.trans (by decide) hdata
  exact absurd hval (by decide)

end Runs

end Blub.Stand
