import Blub.Boot.Fsfind

/-! What `fsfind` returns: the first record of the directory with the name, be it deleted or not. -/
namespace Blub.Boot
open Blub.Bytes Blub.Stand

section Reads
variable {fs : Ufs1}

/-- The program can name a block, with no hole on the way to it. -/
def Solid (fs : Ufs1) (ino o : ℕ) : Prop :=
  (ndaddr ≤ o/fs.bsize → 0 < diIb (fs.inode ino) 0) ∧ ∀ a, (fs.file ino).blockAddr (o/fs.bsize) = some a → 0 < a

/-- While all reads succeed, a range without holes is read, unless it has a block that the program cannot name. -/
theorem boot2ReadLoop_calm (fuel nb : ℕ) {s : Boot2Ufs} (hs : BootInv fs s) (hc : Calm s) (hino : s.inomap ≠ 0)
    (hsize : diSize (fs.inode s.inomap) < 2^31) (hin : s.fsOff+nb ≤ diSize (fs.inode s.inomap)) (hfuel : nb < fuel)
    (hsolid : ∀ o, s.fsOff ≤ o → o < s.fsOff+nb → Solid fs s.inomap o) (acc : List UInt8) :
    LoopMeets fs (diSize (fs.inode s.inomap)) fuel nb s ∧
      ∃ r s', boot2ReadLoop fs.toUfs1Super (diSize (fs.inode s.inomap)) fuel nb acc s = some (r,s') ∧ Calm s' ∧
        s'.inomap = s.inomap ∧ (r.isSome ↔ ∀ o, s.fsOff ≤ o → o < s.fsOff+nb → o/fs.bsize < ndaddr+fs.nindir) := by
  induction fuel generalizing nb s acc with
  | zero => omega
  | succ fuel ih =>
    rw [boot2ReadLoop,LoopMeets]
    by_cases hnb : nb = 0
    · rw [if_pos hnb]
      refine ⟨fun h => absurd hnb h,_,_,rfl,hc,rfl,fun _ o h₁ h₂ => ?_,fun _ => rfl⟩
      omega
    rw [if_neg hnb]
    obtain ⟨hind,hpos⟩ := hsolid s.fsOff le_rfl (by omega)
    have haddr : AddrMeets fs (s.fsOff/fs.bsize) s := fun hlow _ => ⟨hind hlow,fun _ => hc.ind⟩
    obtain ⟨o,s₁,hrun,hs₁,hsame,hblk,hcalm⟩ := loadAddr_spec hs hino haddr
    obtain ⟨hreach,hc₁⟩ := hcalm hc
    dsimp only
    rw [hrun]
    cases o with
    | none =>
      refine ⟨fun _ => ⟨haddr,fun h => by simp at h⟩,none,s₁,rfl,hc₁,hsame.inomap,fun h => by simp at h,fun h => ?_⟩
      exact hreach.mpr (h s.fsOff le_rfl (by omega))
    | some a =>
      have hoff : s.fsOff < diSize (fs.inode s.inomap) := by omega
      have ha := hpos a (hblk a rfl)
      obtain ⟨hv₁,hv₂,hv₃⟩ := @vsize_eq fs s.inomap s.fsOff hoff hsize
      have hpiece : fs.PieceAt s₁.inomap s.fsOff a (vbaddrOf fs.toUfs1Super a (s.fsOff%fs.bsize)) := by
        rw [hsame.inomap]
        exact ⟨hoff,ha,hblk a rfl,rfl⟩
      obtain ⟨b,s₂,hrun₂,hs₂,hino₂,hoff₂,-,hcalm₂⟩ := loadBlk_spec hs₁ hpiece fun _ => hc₁.blk
      obtain ⟨rfl,hc₂⟩ := hcalm₂ hc₁
      rw [hsame.inomap] at hrun₂ hino₂
      rw [hsame.fsOff] at hoff₂
      dsimp only [Option.getD_some]
      rw [hv₁,hrun₂]
      have hle : pieceSize (fs.file s.inomap) s.fsOff ≤ vblksize := min_le_right _ _
      have hsub : sub32 (pieceSize (fs.file s.inomap) s.fsOff) (s.fsOff%fs.bsize%vblksize) =
          pieceSize (fs.file s.inomap) s.fsOff-s.fsOff%fs.bsize%vblksize := by
        unfold sub32 vblksize at *
        omega
      dsimp only
      rw [hsub]
      generalize hn : min (pieceSize (fs.file s.inomap) s.fsOff-s.fsOff%fs.bsize%vblksize) nb = n at *
      have hs₃ : BootInv fs {s₂ with fsOff := s₂.fsOff+n} := ⟨hs₂.dp1,hs₂.ind,hs₂.blk⟩
      have hc₃ : Calm {s₂ with fsOff := s₂.fsOff+n} := ⟨hc₂.io,hc₂.blk,hc₂.ind⟩
      rw [← hino₂] at hsize hin hino hsolid ⊢
      have hnext := ih (nb-n) hs₃ hc₃ hino hsize (by dsimp only; omega) (by omega)
        (fun o h₁ h₂ => hsolid o (by dsimp only at h₁; omega) (by dsimp only at h₁ h₂; omega))
        (acc ++ (List.range n).map fun j => s₂.blkbuf (s.fsOff%fs.bsize%vblksize+j))
      obtain ⟨hmeets,r,s',hrun₃,hc',hino',hiff⟩ := hnext
      refine ⟨fun _ => ⟨haddr,fun _ => ⟨ha,fun _ => hc₁.blk,fun _ => hmeets⟩⟩,r,s',hrun₃,hc',hino',?_⟩
      rw [hiff]
      dsimp only
      -- the first piece is in the block of the offset, which the program can name
      have hfirst : ∀ o, s.fsOff ≤ o → o < s.fsOff+n → o/fs.bsize < ndaddr+fs.nindir := by
        intro o h₁ h₂
        have hsameblk : o/fs.bsize = s.fsOff/fs.bsize := by
          have hb : 0 < fs.bsize := Nat.two_pow_pos _
          have hdiv := Nat.div_add_mod s.fsOff fs.bsize
          have heq : o = fs.bsize*(s.fsOff/fs.bsize)+(s.fsOff%fs.bsize+(o-s.fsOff)) := by omega
          have hsmall : (s.fsOff%fs.bsize+(o-s.fsOff))/fs.bsize = 0 := Nat.div_eq_of_lt (by omega)
          rw [heq,Nat.mul_add_div hb,hsmall,Nat.add_zero]
        rw [hsameblk]
        exact hreach.mp rfl
      rw [hoff₂]
      constructor
      · intro h o h₁ h₂
        by_cases hlow : o < s.fsOff+n
        · exact hfirst o h₁ hlow
        · exact h o (by omega) (by omega)
      · intro h o h₁ h₂
        exact h o (by omega) (by omega)

/-- One call of `fsfind` for the next chunk of a directory. -/
theorem boot2UfsRead_chunk {ino : ℕ} {chunks : List (List Dirent)} (hd : DirAt fs.toUfs1Super ino chunks) {s : Boot2Ufs}
    (hs : BootInv fs s) (hc : Calm s) {k : ℕ} (hoff : s.fsOff = devBsize*k) (hk : k ≤ chunks.length)
    (hcur : s.inomap = ino ∨ s.fsOff = 0) :
    ∃ r s', boot2UfsRead fs.toUfs1Super ino devBsize s = some (r,s') ∧ BootInv fs s' ∧ Calm s' ∧ s'.inomap = ino ∧
      (k = chunks.length → r = some []) ∧ (k < chunks.length → fs.reach ≤ devBsize*k → r = none) ∧
      (k < chunks.length → devBsize*k < fs.reach →
        r = some ((List.range devBsize).map fun j => (fs.file ino).byte (devBsize*k+j)) ∧ s'.fsOff = devBsize*(k+1)) := by
  obtain ⟨b,t,hload,ht,hb,hcalm⟩ := loadInode_spec hs hcur
  obtain ⟨rfl,hct⟩ := hcalm hc
  obtain ⟨hino,hoff'⟩ := hb rfl
  have hsize := hd.size
  have hsmall := hd.small
  have hpos : 0 < fs.bsize := Nat.two_pow_pos _
  have hsz : diSize t.dp1 = diSize (fs.inode ino) := by
    rw [diSize_congr (ht.dp1 (by rw [hino]; exact hd.ino_pos)),hino]
  have hrest : min devBsize (sub32 (diSize (fs.inode ino)%2^32) t.fsOff) = if k < chunks.length then devBsize else 0 := by
    rw [Nat.mod_eq_of_lt (by omega),hoff',hoff,hsize]
    rw [hsize] at hsmall
    unfold sub32
    unfold devBsize at *
    split_ifs <;> omega
  have hsolid : ∀ o, o < diSize (fs.inode ino) → Solid fs ino o := by
    intro o ho
    refine ⟨fun hlow => hd.single (lt_of_le_of_lt ?_ ho),hd.solid o ho⟩
    exact (Nat.le_div_iff_mul_le (Nat.two_pow_pos _)).mp hlow
  have hrun : boot2UfsRead fs.toUfs1Super ino devBsize s = boot2ReadLoop fs.toUfs1Super (diSize (fs.inode ino))
      ((if k < chunks.length then devBsize else 0)+1) (if k < chunks.length then devBsize else 0) [] t := by
    rw [boot2UfsRead,if_neg hd.ino_pos,hload]
    dsimp only
    rw [hsz,hrest,Nat.mod_eq_of_lt (by omega)]
  have hin : t.fsOff+(if k < chunks.length then devBsize else 0) ≤ diSize (fs.inode t.inomap) := by
    rw [hino,hoff',hoff,hsize]
    unfold devBsize
    split_ifs <;> omega
  obtain ⟨hmeets,r,s',hloop,hc',hino',hiff⟩ := boot2ReadLoop_calm _ _ ht hct (by rw [hino]; exact hd.ino_pos)
    (by rwa [hino]) hin (Nat.lt_succ_self _) (fun o _ ho => hino.symm ▸ hsolid o (by rw [hino] at hin; omega)) []
  obtain ⟨r',s'',hloop',hs',hres⟩ := boot2ReadLoop_spec _ _ [] ht (by rw [hino]; exact hd.ino_pos) (by rwa [hino]) hin
    (Nat.lt_succ_self _) hmeets
  obtain ⟨rfl,rfl⟩ := Prod.mk.inj (Option.some.inj (hloop.symm.trans hloop'))
  rw [hino,hoff',hoff] at hres
  rw [hoff',hoff] at hiff
  rw [hino] at hloop hino'
  refine ⟨r,s',hrun.trans hloop,hs',hc',hino',fun hend => ?_,fun hlt hfar => ?_,fun hlt hnear => ?_⟩
  · rw [if_neg (by omega)] at hres hiff
    have hsome := hiff.mpr fun o h₁ h₂ => by omega
    obtain ⟨data,rfl⟩ := Option.isSome_iff_exists.mp hsome
    rw [(hres data rfl).1,bytes_zero,List.nil_append]
  · rw [if_pos hlt] at hiff
    cases r with
    | none => rfl
    | some data =>
      have hblk := hiff.mp rfl (devBsize*k) le_rfl (by unfold devBsize; omega)
      rw [Ufs1Super.reach,← Nat.le_div_iff_mul_le hpos] at hfar
      omega
  · rw [if_pos hlt] at hres hiff
    have hsome := hiff.mpr fun o h₁ h₂ => ?_
    · obtain ⟨data,rfl⟩ := Option.isSome_iff_exists.mp hsome
      obtain ⟨hdata,hend⟩ := hres data rfl
      refine ⟨?_,by rw [hend,Nat.mul_succ]⟩
      have hmin : min devBsize (diSize (fs.inode ino)-devBsize*k) = devBsize := by
        rw [hsize]
        unfold devBsize
        omega
      rw [hdata,List.nil_append,UfsDisk.bytes,if_neg (by omega),Int.toNat_natCast,file_diSize,hmin]
    · -- the chunk ends before the first block that cannot be named
      obtain ⟨n,-,hn⟩ := fs.pieces
      rw [Nat.div_lt_iff_lt_mul hpos]
      have hreach : fs.reach = devBsize*(8*2^n*(ndaddr+fs.nindir)) := by
        rw [Ufs1Super.reach,hn,devBsize]
        ring
      have hlt' : o < fs.reach := by
        rw [hreach] at hnear ⊢
        generalize 8*2^n*(ndaddr+fs.nindir) = m at *
        unfold devBsize at *
        omega
      exact hlt'

/-- The records of the buffer, up to the first one with the name. -/
theorem scanBuf_spec {buf : ℕ → UInt8} {name : List UInt8} (hname : 0 ∉ name) (ls : Bool) (fuel : ℕ) {s : ℕ}
    {l : List Dirent} (h : Records buf devBsize s l) (hfuel : devBsize-s < fuel) :
    scanBuf ls name buf fuel s = some ((l.find? fun e => !ls && decide (e.name = name)).map fun e => (e.type,e.ino)) := by
  induction fuel generalizing s l with
  | zero => omega
  | succ fuel ih =>
    rw [scanBuf]
    cases h with
    | nil => rw [if_neg (lt_irrefl _),List.find?_nil,Option.map_none]
    | @cons _ next e l he hl =>
      have hroom := he.room
      have hle := hl.le
      have hnamed : dNamed buf s name = decide (e.name = name) := by
        rw [Bool.eq_iff_iff,dNamed_iff he hname,decide_eq_true_iff]
      rw [if_pos (by omega),hnamed,he.type,he.ino,← he.reclen,List.find?_cons]
      cases !ls && decide (e.name = name) with
      | true => rfl
      | false => exact ih hl (by omega)

/-- The record that the program takes for the one with the name, among records in order. -/
def taken (ls : Bool) (name : List UInt8) (l : List Dirent) : Option Dirent :=
  l.find? fun e => !ls && decide (e.name = name)

/-- What `fsfind` returns for it: the type and the inode number. -/
def foundOf (ino : ℕ) : Option Dirent → ℕ × ℕ
  | none => (0,ino)
  | some e => (e.type,e.ino)

theorem lt_readable {chunks : List (List Dirent)} {k : ℕ} :
    k < (fs.readable chunks).length ↔ k < chunks.length ∧ devBsize*k < fs.reach := by
  obtain ⟨n,-,hn⟩ := fs.pieces
  have hreach : fs.reach = devBsize*(8*2^n*(ndaddr+fs.nindir)) := by
    rw [Ufs1Super.reach,hn,devBsize]
    ring
  have hdev : 0 < devBsize := by decide
  rw [Ufs1Super.readable,List.length_take,hreach,Nat.mul_div_cancel_left _ hdev,lt_min_iff,Nat.mul_lt_mul_left hdev,
    and_comm]

/-- The records that are left to be read, chunk by chunk. -/
theorem drop_readable {chunks : List (List Dirent)} {k : ℕ} (hk : k < (fs.readable chunks).length) :
    ((fs.readable chunks).drop k).flatten =
      chunks.get ⟨k,(lt_readable.mp hk).1⟩ ++ ((fs.readable chunks).drop (k+1)).flatten := by
  rw [List.drop_eq_getElem_cons hk,List.flatten_cons]
  apply congrArg (· ++ _)
  exact List.getElem_take

/-- `fsfind` returns the first record with the name, deleted or not, among those that it can read. -/
theorem fsfindLoop_spec {ino : ℕ} {chunks : List (List Dirent)} (hd : DirAt fs.toUfs1Super ino chunks)
    {name : List UInt8} (hname : 0 ∉ name) (ls : Bool) (fuel : ℕ) {k : ℕ} {s : Lookup} (hs : BootInv fs s.ufs)
    (hc : Calm s.ufs) (hoff : s.ufs.fsOff = devBsize*k) (hk : k ≤ chunks.length)
    (hcur : s.ufs.inomap = ino ∨ s.ufs.fsOff = 0) (hfuel : chunks.length-k < fuel) :
    ∃ s', fsfindLoop fs.toUfs1Super ls name ino fuel s =
        some (foundOf ino (taken ls name ((fs.readable chunks).drop k).flatten),s') ∧ BootInv fs s'.ufs ∧ Calm s'.ufs := by
  induction fuel generalizing k s with
  | zero => omega
  | succ fuel ih =>
    rw [fsfindLoop]
    obtain ⟨r,u,hrun,hu,hcu,hino,hend,hfar,hnear⟩ := boot2UfsRead_chunk hd hs hc hoff hk hcur
    rw [hrun]
    by_cases hlt : k < (fs.readable chunks).length
    · have hkt := (lt_readable.mp hlt).1
      obtain ⟨rfl,hoff'⟩ := hnear hkt (lt_readable.mp hlt).2
      have hlen : ((List.range devBsize).map fun j => (fs.file ino).byte (devBsize*k+j)).length = devBsize := by simp
      have hrec : Records (blit s.buf 0 devBsize
          (ofList ((List.range devBsize).map fun j => (fs.file ino).byte (devBsize*k+j)))) devBsize 0 chunks[k] := by
        apply (hd.records k hkt).congr
        intro j hj
        rw [blit_inside (Nat.zero_le j) (by omega)]
        simp [ofList,hj]
      dsimp only
      rw [hlen,if_neg (by decide),scanBuf_spec hname ls _ hrec (by omega),drop_readable hlt,taken,List.find?_append]
      cases hfind : chunks[k].find? fun e => !ls && decide (e.name = name) with
      | some e => exact ⟨_,rfl,hu,hcu⟩
      | none => exact ih (s := ⟨u,_⟩) hu hcu hoff' hkt (Or.inl hino) (by omega)
    · rw [List.drop_eq_nil_of_le (by omega),List.flatten_nil]
      rcases hk.lt_or_eq with hkt | hke
      · rw [hfar hkt (by rw [lt_readable] at hlt; omega)]
        exact ⟨_,rfl,hu,hcu⟩
      · rw [hend hke]
        exact ⟨_,rfl,hu,hcu⟩

theorem fsfind_spec {ino : ℕ} {chunks : List (List Dirent)} (hd : DirAt fs.toUfs1Super ino chunks)
    {name : List UInt8} (hname : 0 ∉ name) (ls : Bool) {fuel : ℕ} {s : Lookup} (hs : BootInv fs s.ufs) (hc : Calm s.ufs)
    (hfuel : chunks.length < fuel) :
    ∃ s', fsfind fs.toUfs1Super ls name ino fuel s =
        some (foundOf ino (taken ls name (fs.readable chunks).flatten),s') ∧ BootInv fs s'.ufs ∧ Calm s'.ufs := by
  have hs₀ : BootInv fs {s.ufs with fsOff := 0} := ⟨hs.dp1,hs.ind,hs.blk⟩
  have hc₀ : Calm {s.ufs with fsOff := 0} := ⟨hc.io,hc.blk,hc.ind⟩
  have h := @fsfindLoop_spec fs ino chunks hd name hname ls fuel 0 ⟨_,s.buf⟩ hs₀ hc₀ rfl (Nat.zero_le _) (Or.inr rfl) hfuel
  rwa [List.drop_zero] at h

end Reads

end Blub.Boot
