import Blub.Boot.Fsfind
import Blub.Lib.Scan

/-! The scan of a directory by `fsfind` of `ufsread.c`, over any bytes. -/
namespace Blub.Boot
open Blub.Bytes Blub.Scan Blub.Stand

section Records
variable (fs : Ufs1Super)

/-- The records that `fsfind` walks in its buffer, of which `n` bytes have been read. Of each it looks at the first 8
bytes and at the name, which is compared or printed. -/
def bufRecords (ls : Bool) (name : List UInt8) (buf : ℕ → UInt8) (n : ℕ) : Walk (ℕ × ℕ) where
  hi := devBsize
  len := dReclen buf
  find s := if !ls && dNamed buf s name then some (dType buf s,dIno buf s) else none
  Inside s := s+8 ≤ n ∧ if ls then strWithin buf (n-(s+8)) (s+8) ≠ none else s+8+strcmpLen buf (s+8) name ≤ n

/-- `fsfind` as a scan of blocks. -/
def Ufs1Super.scan (ls : Bool) (name : List UInt8) (ino : ℕ) : Blocks Lookup ((ℕ × ℕ) × Lookup) (ℕ × ℕ) where
  load s :=
    match boot2UfsRead fs ino devBsize s.ufs with
    | none => none
    | some (none,ufs) => some (.inl ((0,ino),⟨ufs,s.buf⟩))
    | some (some data,ufs) =>
      let buf := blit s.buf 0 data.length (ofList data)
      if data.length = 0 then some (.inl ((0,ino),⟨ufs,buf⟩))
      else some (.inr (bufRecords ls name buf data.length,0,⟨ufs,buf⟩))
  found s r :=
    match boot2UfsRead fs ino devBsize s.ufs with
    | some (some data,ufs) => (r,⟨ufs,blit s.buf 0 data.length (ofList data)⟩)
    | _ => (r,s)

attribute [local grind =] Ufs1Super.scan

variable {fs} {ls : Bool} {name : List UInt8} {ino : ℕ} {s : Lookup}

theorem scanBuf_eq (buf : ℕ → UInt8) (n fuel p : ℕ) :
    scanBuf ls name buf fuel p = loop (bufRecords ls name buf n).turn fuel p := by
  induction fuel generalizing p with
  | zero => rfl
  | succ fuel ih =>
    rw [scanBuf]
    by_cases hlt : p < devBsize
    · rw [if_pos hlt]
      by_cases hname : (!ls && dNamed buf p name) = true
      · rw [if_pos hname,loop_end (Walk.turn_found (w := bufRecords ls name buf n) hlt (if_pos hname))]
      · rw [if_neg hname,loop_next (Walk.turn_next (w := bufRecords ls name buf n) hlt (if_neg hname))]
        exact ih _
    · rw [if_neg hlt,loop_end (Walk.turn_past (w := bufRecords ls name buf n) (Nat.not_lt.mp hlt))]

theorem fsfindLoop_eq (fuel : ℕ) (s : Lookup) :
    fsfindLoop fs ls name ino fuel s = loop (fs.scan ls name ino).turn fuel s := by
  induction fuel generalizing s with
  | zero => rfl
  | succ fuel ih =>
    rw [fsfindLoop]
    rcases hread : boot2UfsRead fs ino devBsize s.ufs with _ | ⟨_ | data,ufs⟩
    · rw [Blocks.loop_none_load (by simp only [Ufs1Super.scan,hread])]
    · rw [Blocks.loop_done (r := ((0,ino),⟨ufs,s.buf⟩)) (by simp only [Ufs1Super.scan,hread])]
    · dsimp only
      by_cases hnone : data.length = 0
      · rw [if_pos hnone,Blocks.loop_done (r := ((0,ino),⟨ufs,blit s.buf 0 data.length (ofList data)⟩))
          (by simp only [Ufs1Super.scan,hread,if_pos hnone])]
      · have hload : (fs.scan ls name ino).load s = some (.inr (bufRecords ls name (blit s.buf 0 data.length (ofList data))
            data.length,0,⟨ufs,blit s.buf 0 data.length (ofList data)⟩)) := by
          simp only [Ufs1Super.scan,hread,if_neg hnone]
        rw [if_neg hnone,Blocks.loop_block hload,scanBuf_eq _ data.length]
        have hhi : (bufRecords ls name (blit s.buf 0 data.length (ofList data)) data.length).hi-0+1 = devBsize+1 := rfl
        rw [hhi]
        split <;> rename_i hwalk <;> simp only [hwalk]
        · simp only [Ufs1Super.scan,hread]
        · exact ih _

end Records

section Progress
variable {fs : Ufs1Super} {s s' : Boot2Ufs}

/-- The reads of the device change neither the inode nor the place in the file. -/
structure SamePlace (s s' : Boot2Ufs) : Prop where
  inomap : s'.inomap = s.inomap
  dp1 : s'.dp1 = s.dp1
  fsOff : s'.fsOff = s.fsOff

theorem SamePlace.trans {s s' s'' : Boot2Ufs} (h : SamePlace s s') (h' : SamePlace s' s'') : SamePlace s s'' :=
  ⟨h'.inomap.trans h.inomap,h'.dp1.trans h.dp1,h'.fsOff.trans h.fsOff⟩

theorem loadAddr_place (fs : Ufs1Super) (lbn : ℕ) (s : Boot2Ufs) : SamePlace s (loadAddr fs lbn s).2 := by
  unfold loadAddr
  by_cases hdirect : lbn < ndaddr
  · rw [if_pos hdirect]
    exact ⟨rfl,rfl,rfl⟩
  by_cases hind : lbn < ndaddr+fs.nindir
  · rw [if_neg hdirect,if_pos hind]
    dsimp only
    generalize fs.toDb (diIb s.dp1 0)+((lbn-ndaddr)/fs.indirpervblk*dbpervblk : ℕ) = vbaddr
    have hread : SamePlace s (readIndbuf fs vbaddr s).2 := ⟨rfl,rfl,rfl⟩
    generalize readIndbuf fs vbaddr s = r at hread
    split_ifs <;> first | exact hread | exact ⟨hread.inomap,hread.dp1,hread.fsOff⟩ | exact ⟨rfl,rfl,rfl⟩
  · rw [if_neg hdirect,if_neg hind]
    exact ⟨rfl,rfl,rfl⟩

theorem loadBlk_place (fs : Ufs1Super) (vbaddr : ℤ) (n : ℕ) (s : Boot2Ufs) : SamePlace s (loadBlk fs vbaddr n s).2 := by
  unfold loadBlk
  have hread : SamePlace s (readBlkbuf fs vbaddr (n/512) s).2 := ⟨rfl,rfl,rfl⟩
  generalize readBlkbuf fs vbaddr (n/512) s = r at hread
  dsimp only
  split_ifs <;> first | exact hread | exact ⟨hread.inomap,hread.dp1,hread.fsOff⟩ | exact ⟨rfl,rfl,rfl⟩

/-- A read that succeeds gives all the bytes asked for. -/
theorem boot2ReadLoop_advance {size fuel nb : ℕ} {acc data : List UInt8}
    (h : boot2ReadLoop fs size fuel nb acc s = some (some data,s')) :
    data.length = acc.length+nb ∧ s'.fsOff = s.fsOff+nb ∧ s'.inomap = s.inomap ∧ s'.dp1 = s.dp1 := by
  induction fuel generalizing nb acc s with
  | zero => cases h
  | succ fuel ih =>
    rw [boot2ReadLoop] at h
    by_cases hnb : nb = 0
    · rw [if_pos hnb] at h
      cases h
      subst hnb
      exact ⟨rfl,rfl,rfl,rfl⟩
    rw [if_neg hnb] at h
    dsimp only at h
    have hsame := loadAddr_place fs (s.fsOff/fs.bsize) s
    rcases haddr : loadAddr fs (s.fsOff/fs.bsize) s with ⟨_ | addr,s₁⟩
    · rw [haddr] at h
      cases h
    rw [haddr] at h hsame
    dsimp only at h hsame
    generalize vbaddrOf fs addr (s.fsOff%fs.bsize) = vbaddr at h
    generalize vsize fs size (s.fsOff/fs.bsize) (s.fsOff%fs.bsize) = m at h
    have hblk := loadBlk_place fs vbaddr m s₁
    rcases hload : loadBlk fs vbaddr m s₁ with ⟨_ | _,s₂⟩
    · rw [hload] at h
      cases h
    rw [hload] at h hblk
    dsimp only at h hblk
    have hsame := hsame.trans hblk
    have hle : min (sub32 m (s.fsOff%fs.bsize%vblksize)) nb ≤ nb := min_le_right _ _
    generalize min (sub32 m (s.fsOff%fs.bsize%vblksize)) nb = n at h hle
    obtain ⟨hlen,hoff,hino,hdp⟩ := ih h
    rw [List.length_append,List.length_map,List.length_range] at hlen
    dsimp only at hoff hino hdp
    rw [hsame.fsOff] at hoff
    exact ⟨by omega,by omega,hino.trans hsame.inomap,hdp.trans hsame.dp1⟩

/-- The size as a `size_t`. -/
def size32 (s : Boot2Ufs) : ℕ := diSize s.dp1%2^32

/-- The place in the file is not after its end. -/
def Before (ino : ℕ) (s : Boot2Ufs) : Prop := s.inomap = ino → s.fsOff ≤ size32 s

/-- What is left of a file. -/
def left (ino : ℕ) (s : Boot2Ufs) : ℕ := if s.inomap = ino then size32 s-s.fsOff else 2^32

theorem size32_lt (s : Boot2Ufs) : size32 s < 2^32 := Nat.mod_lt _ (Nat.two_pow_pos 32)

theorem loadInode_left {ino : ℕ} (hs : Before ino s) (h : loadInode fs ino s = (true,s')) :
    s'.inomap = ino ∧ s'.fsOff ≤ size32 s' ∧ size32 s'-s'.fsOff ≤ left ino s := by
  unfold loadInode at h
  by_cases hino : s.inomap = ino
  · rw [if_neg (not_not.mpr hino)] at h
    cases h
    exact ⟨hino,hs hino,by rw [left,if_pos hino]⟩
  · rw [if_pos hino] at h
    dsimp only at h
    by_cases hread : (readBlkbuf fs (fs.inoToVba ino) dbpervblk s).1 = true
    · rw [if_pos hread] at h
      cases h
      refine ⟨rfl,Nat.zero_le _,?_⟩
      rw [left,if_neg hino]
      exact (Nat.sub_le _ _).trans (size32_lt _).le
    · rw [if_neg hread] at h
      cases h

/-- A read of some bytes leaves less of the file. -/
theorem boot2UfsRead_left {ino n : ℕ} {data : List UInt8} (hs : Before ino s) (hdata : data.length ≠ 0)
    (h : boot2UfsRead fs ino n s = some (some data,s')) : Before ino s' ∧ left ino s' < left ino s := by
  rw [boot2UfsRead] at h
  by_cases hzero : ino = 0
  · rw [if_pos hzero] at h
    cases h
    exact absurd rfl hdata
  rw [if_neg hzero] at h
  rcases hload : loadInode fs ino s with ⟨_ | _,s₁⟩
  · rw [hload] at h
    cases h
  rw [hload] at h
  dsimp only at h
  obtain ⟨hino,hoff,hleft⟩ := loadInode_left hs hload
  have hlt := size32_lt s₁
  have hsub : sub32 (diSize s₁.dp1%2^32) s₁.fsOff = size32 s₁-s₁.fsOff := by
    rw [← size32]
    unfold sub32
    omega
  rw [hsub] at h
  obtain ⟨hlen,hoff',hino',hdp⟩ := boot2ReadLoop_advance h
  have hsize : size32 s' = size32 s₁ := by rw [size32,size32,hdp]
  rw [List.length_nil,Nat.zero_add] at hlen
  have hmin : min n (size32 s₁-s₁.fsOff) ≤ size32 s₁-s₁.fsOff := min_le_right _ _
  have hend : s'.inomap = ino := hino'.trans hino
  refine ⟨fun _ => by omega,?_⟩
  rw [left,if_pos hend]
  omega

end Progress

section Sound
variable {fs : Ufs1Super} {ls : Bool} {name : List UInt8} {ino : ℕ} {s t t' : Lookup} {w : Walk (ℕ × ℕ)} {lo : ℕ}

theorem scan_load (h : (fs.scan ls name ino).load t = some (.inr (w,lo,t'))) :
    ∃ data, data.length ≠ 0 ∧ boot2UfsRead fs ino devBsize t.ufs = some (some data,t'.ufs) := by
  rcases hread : boot2UfsRead fs ino devBsize t.ufs with _ | ⟨_ | data,ufs⟩
  · simp only [Ufs1Super.scan,hread] at h
    cases h
  · simp only [Ufs1Super.scan,hread] at h
    cases h
  · simp only [Ufs1Super.scan,hread] at h
    by_cases hdata : data.length = 0
    · rw [if_pos hdata] at h
      cases h
    · rw [if_neg hdata] at h
      cases h
      exact ⟨data,hdata,rfl⟩

/-- `fsfind` ends, and looks only at records inside the bytes read, exactly when every read returns and the blocks up to
the one with the name are chains of records. -/
theorem fsfind_sound_iff :
    let start : Lookup := ⟨{s.ufs with fsOff := 0},s.buf⟩
    ((∃ fuel, fsfind fs ls name ino fuel s ≠ none) ∧ (fs.scan ls name ino).StaysInside start) ↔
      (fs.scan ls name ino).Sound start := by
  dsimp only
  simp only [fsfind,fsfindLoop_eq]
  refine Blocks.sound_iff (μ := fun t => left ino t.ufs) fun t w lo t' ht hload _ => ?_
  have hbefore : Before ino t.ufs := by
    refine ht.keeps (P := fun t => Before ino t.ufs) (fun t w lo t' hs hl => ?_) fun _ => Nat.zero_le _
    obtain ⟨data,hdata,hread⟩ := scan_load hl
    exact (boot2UfsRead_left hs hdata hread).1
  obtain ⟨data,hdata,hread⟩ := scan_load hload
  exact (boot2UfsRead_left hbefore hdata hread).2

end Sound
end Blub.Boot
