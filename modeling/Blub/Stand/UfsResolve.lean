import Blub.Stand.Path
import Blub.Stand.UfsOpen
import Mathlib.Logic.Relation

/-! Paths with symbolic links on a UFS1 file system, and what `ufs_open` makes of them. -/
namespace Blub.Stand
open Blub.Bytes
open Blub.Boot (Ufs1Super diSize diDb diIb slash rootino)

section Tree
variable (fs : UfsVolume)

/-- The record at a place of a buffer. In the old format the length of the name is where the type is else. -/
structure UfsVolume.RecordAt (buf : ℕ → UInt8) (s : ℕ) (e : Dirent) (next : ℕ) : Prop where
  ino : dIno buf s = e.ino
  type : dType buf s = if fs.maxsymlinklen ≤ 0 then e.name.length else e.type
  namlen : 0 < fs.maxsymlinklen → dNamlen buf s = e.name.length
  reclen : next = s+dReclen buf s
  name : dNamed buf s e.name = true
  nonzero : 0 ∉ e.name
  room : s+8+e.name.length < next

/-- Records one after the other, up to the end of the block. -/
inductive UfsVolume.RecordsAt (buf : ℕ → UInt8) (hi : ℕ) : ℕ → List Dirent → Prop
  | nil : UfsVolume.RecordsAt buf hi hi []
  | cons {s next : ℕ} {e : Dirent} {l : List Dirent} (h : fs.RecordAt buf s e next) (hl : UfsVolume.RecordsAt buf hi next l) :
    UfsVolume.RecordsAt buf hi s (e :: l)

/-- A record that is an entry: it was not deleted, and it is no whiteout. -/
def UfsVolume.Entry (e : Dirent) : Prop := e.ino ≠ 0 ∧ (fs.maxsymlinklen ≤ 0 ∨ e.type ≠ dtWht)

instance (e : Dirent) : Decidable (fs.Entry e) := inferInstanceAs (Decidable (_ ∧ _))

/-- The inode with a number, and its file. -/
def UfsVolume.dinode (ino : ℕ) : ℕ → UInt8 := dinodeOf (fs.sector (fs.toDb (fs.inoToFsba ino))) (fs.inoToFsbo ino)
def UfsVolume.fileOf (ino : ℕ) : UfsDisk := fs.opened (fs.dinode ino)

def UfsVolume.IsDir (ino : ℕ) : Prop := diMode (fs.dinode ino) &&& ifmt = ifdir
def UfsVolume.IsLink (ino : ℕ) : Prop := diMode (fs.dinode ino) &&& ifmt = iflnk

instance (ino : ℕ) : Decidable (fs.IsDir ino) := inferInstanceAs (Decidable (_ = _))
instance (ino : ℕ) : Decidable (fs.IsLink ino) := inferInstanceAs (Decidable (_ = _))

/-- The blocks of a directory: all of them are in the tree of its pointers, and have records from end to end. -/
structure UfsDir (ino : ℕ) (blocks : List (List Dirent)) : Prop where
  shape : UfsShape (fs.fileOf ino)
  inTree : diSize (fs.dinode ino) ≤ (fs.fileOf ino).treeBlocks*fs.bsize
  below : diSize (fs.dinode ino) ≤ 2^31*fs.bsize
  count : ∀ k, k < blocks.length ↔ fs.bsize*k < diSize (fs.dinode ino)
  records : ∀ k, (hk : k < blocks.length) →
    fs.RecordsAt (fun j => (fs.fileOf ino).byte (fs.bsize*k+j)) (min fs.bsize (diSize (fs.dinode ino)-fs.bsize*k)) 0 blocks[k]

/-- A file system with its directories. -/
structure UfsTree extends UfsVolume where
  magic_eq : magic = fsMagic
  bshift_mem : 11 ≤ bshift ∧ bshift ≤ 16
  short : maxsymlinklen ≤ 60
  node : ℕ → Prop
  root : node rootino
  blocks : ℕ → List (List Dirent)
  dir : ∀ ino, node ino → toUfsVolume.IsDir ino → UfsDir toUfsVolume ino (blocks ino)
  sub : ∀ ino, node ino → toUfsVolume.IsDir ino → ∀ e ∈ (blocks ino).flatten, toUfsVolume.Entry e → node e.ino

end Tree

/-- A place of the walk: the number of links followed, the inode, and the path that is left. -/
structure UfsPlace where
  links : ℕ
  ino : ℕ
  path : List UInt8

section Walk
variable (t : UfsTree)

/-- The entry of a directory with a name. -/
def UfsTree.entry (ino : ℕ) (name : List UInt8) : Option Dirent := (t.blocks ino).flatten.find? fun e => t.Entry e ∧ e.name = name

/-- Where a symbolic link leads: short ones are in the inode. -/
def UfsTree.target (ino : ℕ) : List UInt8 :=
  if (diSize (t.dinode ino) : ℤ) < t.maxsymlinklen then (List.range (diSize (t.dinode ino))).map fun j => t.dinode ino (40+j)
  else (t.fileOf ino).bytes 0 (diSize (t.dinode ino))

def UfsTree.next (p : UfsPlace) : Option Dirent := t.entry p.ino (firstName p.path)

/-- The path with a link in the place of its name. -/
def UfsTree.expand (p : UfsPlace) (e : Dirent) : List UInt8 := t.target e.ino ++ behindName p.path

/-- One component of the path. A link is replaced by where it leads, from its directory or from the root on. -/
inductive UfsTree.Step : UfsPlace → UfsPlace → Prop
  | down {p : UfsPlace} {e : Dirent} : p.path.dropWhile (· = slash) ≠ [] → t.IsDir p.ino → t.next p = some e → ¬t.IsLink e.ino →
    UfsTree.Step p ⟨p.links,e.ino,behindName p.path⟩
  | link {p : UfsPlace} {e : Dirent} : p.path.dropWhile (· = slash) ≠ [] → t.IsDir p.ino → t.next p = some e → t.IsLink e.ino →
    p.links < maxsymlinks → (t.expand p e).length ≤ maxpathlen →
    UfsTree.Step p ⟨p.links+1,if (t.target e.ino).head? = some slash then rootino else p.ino,t.expand p e⟩

/-- Where the walk ends, with an inode or an error number. -/
inductive UfsTree.Ends : UfsPlace → Except ℤ ℕ → Prop
  | done {p : UfsPlace} : p.path.dropWhile (· = slash) = [] → UfsTree.Ends p (.ok p.ino)
  | notDir {p : UfsPlace} : p.path.dropWhile (· = slash) ≠ [] → ¬t.IsDir p.ino → UfsTree.Ends p (.error enotdir)
  | missing {p : UfsPlace} : p.path.dropWhile (· = slash) ≠ [] → t.IsDir p.ino → t.next p = none → UfsTree.Ends p (.error enoent)
  | tooMany {p : UfsPlace} {e : Dirent} : p.path.dropWhile (· = slash) ≠ [] → t.IsDir p.ino → t.next p = some e → t.IsLink e.ino →
    maxsymlinks ≤ p.links ∨ maxpathlen < (t.expand p e).length → UfsTree.Ends p (.error enoent)

/-- What a path comes to. -/
def UfsTree.Resolves (p : UfsPlace) (r : Except ℤ ℕ) : Prop := ∃ q, Relation.ReflTransGen t.Step p q ∧ t.Ends q r

/-- The next component meets none of the slips: a name as long as the type of a whiteout in the old format; a link so
long that the `int` of its length hides it; a 0 in a link; and an empty link before a slash. -/
structure UfsTree.Plain (p : UfsPlace) : Prop where
  name : t.IsDir p.ino → t.maxsymlinklen ≤ 0 → (firstName p.path).length = dtWht → t.next p = none
  long : ∀ e, t.IsDir p.ino → t.next p = some e → t.IsLink e.ino → p.links < maxsymlinks → maxpathlen < (t.expand p e).length →
    maxpathlen < Int.bmod (Int.bmod (diSize (t.dinode e.ino)) (2^32)+(behindName p.path).length) (2^32)
  link : ∀ e, t.IsDir p.ino → t.next p = some e → t.IsLink e.ino → p.links < maxsymlinks → (t.expand p e).length ≤ maxpathlen →
    0 ∉ t.target e.ino ∧ (t.target e.ino = [] → behindName p.path = [] ∨ p.ino = rootino)

end Walk

section Inodes
variable {t : UfsTree}

/-- A file structure with an inode, and buffers that hold what their tags say. -/
structure HandleOf (t : UfsTree) (h : UfsHandle) (ino : ℕ) : Prop where
  di : h.di = t.dinode ino
  whole : Whole (t.fileOf ino) h.fp

theorem readInode_done (ino : ℕ) (h : UfsHandle) :
    ∃ h', readInode t.toUfsVolume ino h [] = (0,h',[]) ∧ HandleOf t h' ino ∧ h'.fp.seekp = 0 := by
  have hi : t.inoToFsbo ino < t.bsize/128 := by
    have hb : 2^11 ≤ t.bsize := Nat.pow_le_pow_right (by norm_num) t.bshift_mem.1
    exact Nat.mod_lt _ (by rw [Ufs1Super.inopb]; omega)
  have hdi : dinodeOf (strategy (t.sector (t.toDb (t.inoToFsba ino))) t.bsize .done fun _ => 0).2.2 (t.inoToFsbo ino) =
      t.dinode ino := by
    funext j
    unfold UfsVolume.dinode dinodeOf
    by_cases hj : j < 128
    · rw [if_pos hj,if_pos hj,strategy_done (by omega)]
    · rw [if_neg hj,if_neg hj]
  have hrun : readInode t.toUfsVolume ino h [] =
      (0,⟨t.dinode ino,{h.fp with seekp := 0, blkno := fun _ => -1, bufBlkno := -1}⟩,[]) := by
    rw [← hdi]
    simp [readInode,strategy]
  exact ⟨_,hrun,⟨rfl,⟨⟨fun l hl => absurd rfl hl,fun hb => absurd rfl hb⟩,fun hb => absurd rfl hb⟩⟩,rfl⟩

end Inodes

section Records
variable {fs : UfsVolume} {buf : ℕ → UInt8} {s hi : ℕ} {l : List Dirent}

theorem UfsVolume.RecordsAt.le (h : fs.RecordsAt buf hi s l) : s ≤ hi := by
  induction h with
  | nil => exact le_rfl
  | cons h _ ih =>
    have hroom := h.room
    omega

theorem UfsVolume.RecordAt.congr {buf' : ℕ → UInt8} {e : Dirent} {next : ℕ} (h : fs.RecordAt buf s e next)
    (hbuf : ∀ j < next, buf j = buf' j) : fs.RecordAt buf' s e next := by
  have hroom := h.room
  refine ⟨?_,?_,?_,?_,?_,h.nonzero,hroom⟩
  · rw [← h.ino]
    exact leGet_congr fun j _ hj => (hbuf j (by omega)).symm
  · rw [← h.type,dType,dType,hbuf _ (by omega)]
  · intro hnew
    rw [← h.namlen hnew,dNamlen,dNamlen,hbuf _ (by omega)]
  · have hlen : dReclen buf s = dReclen buf' s := leGet_congr fun j _ hj => hbuf j (by omega)
    rw [h.reclen,hlen]
  · rw [← h.name]
    exact dNamed_congr fun j hj => (hbuf _ (by omega)).symm

/-- The records of a buffer are in the bytes before its end. -/
theorem UfsVolume.RecordsAt.congr {buf' : ℕ → UInt8} (h : fs.RecordsAt buf hi s l) (hbuf : ∀ j < hi, buf j = buf' j) :
    fs.RecordsAt buf' hi s l := by
  induction h with
  | nil => exact .nil
  | cons he hl ih =>
    have hle := hl.le
    exact .cons (he.congr fun j hj => hbuf j (by omega)) ih

/-- The record that `search_directory` takes for a name. -/
def UfsVolume.takes (fs : UfsVolume) (name : List UInt8) (e : Dirent) : Bool :=
  e.ino ≠ 0 ∧ (if fs.maxsymlinklen ≤ 0 then e.name.length else e.type) ≠ dtWht ∧ e.name = name

/-- It is the entry with the name, but for names that the old format gives the type of a whiteout. -/
theorem takes_eq {name : List UInt8} (hname : fs.maxsymlinklen ≤ 0 → name.length ≠ dtWht) (e : Dirent) :
    fs.takes name e = decide (fs.Entry e ∧ e.name = name) := by
  rw [UfsVolume.takes,decide_eq_decide,UfsVolume.Entry]
  by_cases hold : fs.maxsymlinklen ≤ 0
  · rw [if_pos hold]
    constructor
    · rintro ⟨hino,-,heq⟩
      exact ⟨⟨hino,.inl hold⟩,heq⟩
    · rintro ⟨⟨hino,-⟩,heq⟩
      exact ⟨hino,heq ▸ hname hold,heq⟩
  · rw [if_neg hold]
    simp [hold,and_assoc]

/-- The search through a buffer. -/
theorem searchBlock_spec {name : List UInt8} (hname : 0 ∉ name) (h : fs.RecordsAt buf hi s l) {fuel : ℕ} (hfuel : hi-s < fuel) :
    searchBlock fs name buf hi fuel s = some ((l.find? (fs.takes name)).map Dirent.ino) := by
  induction h generalizing fuel with
  | nil =>
    obtain ⟨fuel,rfl⟩ : ∃ m, fuel = m+1 := ⟨fuel-1,by omega⟩
    rw [searchBlock,if_neg (lt_irrefl hi)]
    rfl
  | @cons s next e l he hl ih =>
    obtain ⟨fuel,rfl⟩ : ∃ m, fuel = m+1 := ⟨fuel-1,by omega⟩
    have hle := hl.le
    have hroom := he.room
    have hnext := @ih fuel (by omega)
    rw [he.reclen] at hnext
    rw [searchBlock,if_pos (by omega)]
    have hskip : fs.takes name e = false → some ((List.find? (fs.takes name) l).map Dirent.ino) =
        some ((List.find? (fs.takes name) (e :: l)).map Dirent.ino) := by
      intro ht
      rw [List.find?_cons_of_neg (by rw [ht]; decide)]
    by_cases hino : dIno buf s = 0
    · rw [if_pos hino,hnext]
      apply hskip
      rw [he.ino] at hino
      simp [UfsVolume.takes,hino]
    rw [if_neg hino]
    by_cases htype : dType buf s = dtWht
    · rw [if_pos htype,hnext]
      apply hskip
      rw [he.type] at htype
      simp [UfsVolume.takes,htype]
    rw [if_neg htype]
    have hlen : (if fs.maxsymlinklen ≤ 0 then dType buf s else dNamlen buf s) = e.name.length := by
      by_cases hold : fs.maxsymlinklen ≤ 0
      · rw [if_pos hold,he.type,if_pos hold]
      · rw [if_neg hold,he.namlen (by omega)]
    dsimp only
    rw [hlen,dNamed_eq he.name he.nonzero hname]
    rw [he.ino] at hino ⊢
    rw [he.type] at htype
    by_cases heq : e.name = name
    · rw [if_pos ⟨congrArg _ heq,decide_eq_true heq⟩,List.find?_cons_of_pos]
      · rfl
      · simp only [UfsVolume.takes,decide_eq_true_eq]
        exact ⟨hino,htype,heq⟩
    · rw [if_neg (fun hc => heq (of_decide_eq_true hc.2)),hnext]
      apply hskip
      simp [UfsVolume.takes,heq]

end Records

section Directory
variable {t : UfsTree} {ino : ℕ} {h : UfsHandle} {name : List UInt8}

/-- The bytes that the buffer has of a block: all of it, up to the end of the file. -/
theorem bufAvail_block {d : UfsDisk} (hd : UfsShape d) {k : ℕ} (hk : k < 2^31) (hlow : d.bsize*k < d.diSize) :
    bufAvail d (d.bsize*k : ℕ) = min d.bsize (d.diSize-d.bsize*k) ∧ min d.bsize (d.diSize-d.bsize*k) ≤ dblksize d k := by
  have hb : 0 < d.bsize := Nat.two_pow_pos _
  have hdiv : d.bsize*k/d.bsize = k := Nat.mul_div_cancel_left k hb
  have hle := dblksize_le hd.fshift_le k
  obtain ⟨m,hm⟩ : ∃ m, min d.bsize (d.diSize-d.bsize*k) = m+1 := ⟨min d.bsize (d.diSize-d.bsize*k)-1,by omega⟩
  have hlast := blkoff_lt (show d.bsize*k+m < d.diSize by omega)
  rw [Nat.mul_add_mod,Nat.mod_eq_of_lt (by omega),Nat.mul_add_div hb,Nat.div_eq_of_lt (by omega),Nat.add_zero] at hlast
  rw [bufAvail_eq (by rw [hdiv]; exact hk) hlow,hdiv,Nat.mul_mod_right,Nat.sub_zero]
  omega

/-- What the search for a name returns. -/
def found (e : Option Dirent) : Except ℤ ℕ :=
  match e with
  | some e => .ok e.ino
  | none => .error enoent

/-- The search through the blocks of a directory, from block `k` on. -/
theorem searchLoop_spec (hdir : UfsDir t.toUfsVolume ino (t.blocks ino)) (hname : 0 ∉ name) {k fuel : ℕ}
    (hk : k ≤ (t.blocks ino).length) (hfuel : (t.blocks ino).length-k < fuel) (hh : HandleOf t h ino)
    (hseek : h.fp.seekp = (min (t.bsize*k) (diSize (t.dinode ino)) : ℕ)) :
    ∃ h', searchLoop t.toUfsVolume name fuel h [] =
        some (found (((t.blocks ino).drop k).flatten.find? (t.takes name)),h',[]) ∧ HandleOf t h' ino := by
  have hsize : diSize (t.dinode ino) ≤ 2^31*t.bsize := hdir.below
  have hb : 0 < t.bsize := Nat.two_pow_pos _
  have hbig : t.bsize ≤ 2^16 := Nat.pow_le_pow_right (by norm_num) t.bshift_mem.2
  induction fuel generalizing k h with
  | zero => omega
  | succ fuel ih =>
    rw [searchLoop,hh.di,hseek]
    obtain hlast | hmore := Nat.eq_or_lt_of_le hk
    · -- all blocks were searched
      have hend : diSize (t.dinode ino) ≤ t.bsize*k := not_lt.mp (mt (hdir.count k).mpr (by omega))
      rw [if_pos (by omega),hlast,List.drop_length]
      exact ⟨h,rfl,hh⟩
    have hlow := (hdir.count k).mp hmore
    have hk31 : k < 2^31 := by
      by_contra hge
      have hmul := Nat.mul_le_mul_left t.bsize (not_lt.mp hge)
      omega
    have htree : k < (t.fileOf ino).treeBlocks := by
      by_contra hge
      have hmul := Nat.mul_le_mul_left t.bsize (not_lt.mp hge)
      have hin := hdir.inTree
      rw [Nat.mul_comm] at hin
      omega
    have hlt : t.bsize*k < 2^48 := by omega
    have hmin : min (t.bsize*k) (diSize (t.dinode ino)) = t.bsize*k := min_eq_left hlow.le
    rw [hmin] at hseek ⊢
    rw [if_neg (by omega)]
    have hdivk : t.bsize*k/(t.fileOf ino).bsize = k := Nat.mul_div_cancel_left k hb
    obtain ⟨rc,fp,hfill,hw,-,hres⟩ := bufFill_done hdir.shape (o := t.bsize*k) (by rw [hdivk]; exact hk31) hseek hh.whole
    rw [hdivk,if_pos htree] at hres
    obtain ⟨rfl,htag⟩ := hres
    obtain ⟨havail,hblk⟩ := bufAvail_block hdir.shape hk31 hlow
    have hopen : t.opened (t.dinode ino) = t.fileOf ino := rfl
    have hfill' : bufFill (t.opened (t.dinode ino)) h.fp [] = (0,fp,[]) := hfill
    have havail' : bufAvail (t.opened (t.dinode ino)) ((t.bsize*k : ℕ) : ℤ) = min t.bsize (diSize (t.dinode ino)-t.bsize*k) := havail
    have hoff : blkoff (t.opened (t.dinode ino)) ((t.bsize*k : ℕ) : ℤ) = 0 := by
      rw [blkoff_eq]
      exact Nat.mul_mod_right _ _
    rw [hfill',havail',hoff]
    dsimp only
    rw [if_neg (not_not.mpr rfl),Nat.zero_add]
    -- the buffer has the records of the block
    have hrec : t.RecordsAt fp.buf (min t.bsize (diSize (t.dinode ino)-t.bsize*k)) 0 (t.blocks ino)[k] := by
      refine (hdir.records k hmore).congr fun j hj => ?_
      have hjb : j < (t.fileOf ino).bsize := by
        change j < t.bsize
        omega
      have hbyte := byte_block (t.fileOf ino) (o := t.bsize*k) (j := j) (by
        rw [show t.bsize*k%(t.fileOf ino).bsize = 0 from Nat.mul_mod_right _ _,Nat.zero_add]
        exact hjb)
      rw [hdivk,show t.bsize*k%(t.fileOf ino).bsize = 0 from Nat.mul_mod_right _ _,Nat.zero_add] at hbyte
      have hdata := hw.tagged.buf (by rw [htag]; omega) j (by rw [htag]; exact hj.trans_le hblk)
      rw [htag,Int.toNat_natCast] at hdata
      rw [hbyte,hdata]
    rw [searchBlock_spec hname hrec (by omega),List.drop_eq_getElem_cons hmore,List.flatten_cons,List.find?_append]
    cases hfind : List.find? (t.takes name) (t.blocks ino)[k] with
    | some e => exact ⟨_,rfl,rfl,hw⟩
    | none =>
      have hseek' : (((t.bsize*k : ℕ) : ℤ)+(min t.bsize (diSize (t.dinode ino)-t.bsize*k) : ℕ) : ℤ) =
          (min (t.bsize*(k+1)) (diSize (t.dinode ino)) : ℕ) := by
        rw [Nat.mul_succ]
        omega
      obtain ⟨h',hrun,hh'⟩ := ih (k := k+1) (h := ⟨t.dinode ino,{fp with seekp :=
        ((t.bsize*k : ℕ) : ℤ)+(min t.bsize (diSize (t.dinode ino)-t.bsize*k) : ℕ)}⟩) hmore (by omega)
        ⟨rfl,⟨⟨hw.tagged.blk,hw.tagged.buf⟩,hw.inTree⟩⟩ hseek'
      exact ⟨h',hrun,hh'⟩

/-- The search through a directory. -/
theorem searchDirectory_spec (hdir : UfsDir t.toUfsVolume ino (t.blocks ino)) (hname : 0 ∉ name) {fuel : ℕ}
    (hfuel : (t.blocks ino).length < fuel) (hh : HandleOf t h ino)
    (hplain : t.maxsymlinklen ≤ 0 → name.length = dtWht → t.entry ino name = none) :
    ∃ h', searchDirectory t.toUfsVolume name fuel h [] = some (found (t.entry ino name),h',[]) ∧ HandleOf t h' ino := by
  have hfind : (t.blocks ino).flatten.find? (t.takes name) = t.entry ino name := by
    by_cases hwht : t.maxsymlinklen ≤ 0 ∧ name.length = dtWht
    · -- no record with this name is taken, and there is no entry with it
      have hnone := hplain hwht.1 hwht.2
      rw [hnone,List.find?_eq_none]
      intro e he htakes
      simp only [UfsVolume.takes,hwht.1,if_true,decide_eq_true_eq] at htakes
      rw [htakes.2.2] at htakes
      exact htakes.2.1 hwht.2
    · rw [UfsTree.entry,funext (takes_eq fun hold hlen => hwht ⟨hold,hlen⟩)]
  obtain ⟨h',hrun,hh'⟩ := searchLoop_spec (h := ⟨h.di,{h.fp with seekp := 0}⟩) (k := 0) hdir hname (Nat.zero_le _) hfuel
    ⟨hh.di,⟨⟨hh.whole.tagged.blk,hh.whole.tagged.buf⟩,hh.whole.inTree⟩⟩ (by rw [Nat.mul_zero,Nat.zero_min]; rfl)
  rw [List.drop_zero,hfind] at hrun
  exact ⟨h',hrun,hh'⟩

end Directory

section Links
variable {namebuf link : ℕ → UInt8} {target cp : List UInt8}

theorem takeWhile_zero {l r : List UInt8} (h : 0 ∉ l) : (l ++ 0 :: r).takeWhile (· ≠ 0) = l := by
  rw [List.takeWhile_append_of_pos]
  · rw [List.takeWhile_cons_of_neg (by decide),List.append_nil]
  · intro c hc
    have hne : c ≠ 0 := by
      rintro rfl
      exact h hc
    simpa using hne

theorem linkPath_byte (hlink : ∀ j < target.length, link j = ofList target j) {j : ℕ} (hj : j < target.length+cp.length+1) :
    linkPath namebuf link target.length cp j = ofList (target ++ (cp ++ [0])) j := by
  unfold linkPath
  by_cases hlow : j < target.length
  · rw [blit_inside (Nat.zero_le j) (by omega),Nat.sub_zero,hlink j hlow,ofList_append_left hlow]
  · obtain ⟨m,rfl⟩ : ∃ m, j = target.length+m := ⟨j-target.length,by omega⟩
    rw [blit_outside (by omega),blit_inside (by omega) (by omega),ofList_append_right,Nat.add_sub_cancel_left]

/-- The string in `namebuf` is the link with the rest of the path behind it. -/
theorem namebufStr_link (namebuf : ℕ → UInt8) (hlink : ∀ j < target.length, link j = ofList target j) (htarget : 0 ∉ target) (hcp : 0 ∉ cp)
    (hlen : target.length+cp.length ≤ maxpathlen) : namebufStr (linkPath namebuf link target.length cp) = target ++ cp := by
  have hsplit : maxpathlen+1 = (target ++ (cp ++ [0])).length+(maxpathlen-(target.length+cp.length)) := by
    simp only [List.length_append,List.length_singleton]
    omega
  have hfirst : (List.range (target ++ (cp ++ [0])).length).map (linkPath namebuf link target.length cp) = target ++ (cp ++ [0]) := by
    conv_rhs => rw [← map_range_ofList (target ++ (cp ++ [0]))]
    apply List.map_congr_left
    intro j hj
    rw [List.mem_range,List.length_append,List.length_append,List.length_singleton] at hj
    exact linkPath_byte hlink (by omega)
  rw [namebufStr,hsplit,List.range_add,List.map_append,hfirst,← List.append_assoc target,List.append_assoc (target ++ cp)]
  apply takeWhile_zero
  simp [htarget,hcp]

/-- The first character tells whether the path is absolute. -/
theorem linkPath_head (namebuf : ℕ → UInt8) (cp : List UInt8) (hlink : ∀ j < target.length, link j = ofList target j) :
    linkPath namebuf link target.length cp 0 = slash ↔ (target ++ cp).head? = some slash := by
  rw [linkPath_byte hlink (by omega),← List.append_assoc]
  cases h : target ++ cp with
  | nil => simp [ofList,slash]
  | cons c l => simp [ofList]

variable {t : UfsTree} {ino : ℕ}

theorem target_length (t : UfsTree) (ino : ℕ) : (t.target ino).length = diSize (t.dinode ino) := by
  rw [UfsTree.target]
  by_cases hshort : (diSize (t.dinode ino) : ℤ) < t.maxsymlinklen
  · rw [if_pos hshort,List.length_map,List.length_range]
  · rw [if_neg hshort,UfsDisk.bytes,if_neg (lt_irrefl _),List.length_map,List.length_range]
    exact min_self _

/-- The bytes of a link that fits into a path and has no 0. -/
theorem readLink_done {s : UfsOpening} (hh : HandleOf t s.handle ino) (hio : s.io = []) (hzero : 0 ∉ t.target ino)
    (hlen : (t.target ino).length ≤ maxpathlen) :
    ∃ link s', readLink t.toUfsVolume (diSize (t.dinode ino)) s = (.ok link,s') ∧
      (∀ j < (t.target ino).length, link j = ofList (t.target ino) j) ∧
      s'.io = [] ∧ s'.nlinks = s.nlinks ∧ s'.namebuf = s.namebuf := by
  have hsize := target_length t ino
  unfold readLink
  rw [hh.di]
  by_cases hshort : (diSize (t.dinode ino) : ℤ) < t.maxsymlinklen
  · rw [if_pos hshort]
    refine ⟨_,s,rfl,fun j hj => ?_,hio,rfl,rfl⟩
    rw [hsize] at hj
    rw [UfsTree.target,if_pos hshort]
    simp [ofList,hj]
  · rw [if_neg hshort,hio]
    have hmap : blockMap (t.opened (t.dinode ino)) 0 s.handle.fp [] = (.ok ((t.fileOf ino).diDb 0),s.handle.fp,[]) := if_pos (by decide)
    have hb : 2^11 ≤ t.bsize := Nat.pow_le_pow_right (by norm_num) t.bshift_mem.1
    have htarget : ∀ j, (hj : j < (t.target ino).length) → (t.target ino)[j] = (t.fileOf ino).blockByte 0 j := by
      intro j hj
      have hjb : j < (t.fileOf ino).bsize := by
        change j < t.bsize
        rw [maxpathlen] at hlen
        omega
      simp only [UfsTree.target,if_neg hshort,UfsDisk.bytes,if_neg (lt_irrefl (0 : ℤ))]
      rw [List.getElem_map,List.getElem_range,Int.toNat_zero,Nat.zero_add,UfsDisk.byte,Nat.div_eq_of_lt hjb,Nat.mod_eq_of_lt hjb]
    rw [hmap]
    refine ⟨_,_,rfl,fun j hj => ?_,rfl,rfl,rfl⟩
    have hjb : j < t.bsize := by
      rw [maxpathlen] at hlen
      omega
    have hbyte := htarget j hj
    have hne : (t.target ino)[j] ≠ 0 := fun h₀ => hzero (h₀ ▸ List.getElem_mem hj)
    rw [ofList,List.getD_eq_getElem _ _ hj,hbyte]
    rw [hbyte] at hne
    have haddr : (t.fileOf ino).blockAddr 0 = some ((t.fileOf ino).diDb 0) := if_pos (by decide)
    unfold UfsDisk.blockByte at hne ⊢
    rw [haddr] at hne ⊢
    dsimp only at hne ⊢
    by_cases h₀ : (t.fileOf ino).diDb 0 = 0
    · rw [if_pos h₀] at hne
      exact absurd rfl hne
    · rw [if_neg h₀]
      exact strategy_done hjb

end Links

section Run
variable {t : UfsTree}

/-- The variables of `ufs_open` at a place of the walk. -/
structure OpeningAt (t : UfsTree) (p : UfsPlace) (s : UfsOpening) : Prop where
  node : t.node p.ino
  nonzero : 0 ∉ p.path
  handle : HandleOf t s.handle p.ino
  inumber : s.inumber = p.ino
  nlinks : s.nlinks = p.links
  io : s.io = []

def rcOf : Except ℤ ℕ → ℤ
  | .ok _ => 0
  | .error e => e

/-- The open file has the inode that the path leads to, and is at its start. -/
def OpensAt (t : UfsTree) (r : Except ℤ ℕ) (s : UfsOpening) : Prop :=
  ∀ ino, r = .ok ino → s.inumber = ino ∧ s.handle.di = t.dinode ino ∧ s.handle.fp.seekp = 0

theorem records_names {fs : UfsVolume} {buf : ℕ → UInt8} {hi s : ℕ} {l : List Dirent} (h : fs.RecordsAt buf hi s l) :
    ∀ e ∈ l, e.name.length ≤ maxnamlen := by
  induction h with
  | nil => exact fun e he => nomatch he
  | @cons s next e l he _ ih =>
    rw [List.forall_mem_cons]
    refine ⟨?_,ih⟩
    have h₁ := (buf (s+6)).toNat_lt
    have h₂ := (buf (s+7)).toNat_lt
    have htype := he.type
    have hlen := he.namlen
    rw [dType] at htype
    rw [dNamlen] at hlen
    rw [maxnamlen]
    by_cases hold : fs.maxsymlinklen ≤ 0
    · rw [if_pos hold] at htype
      omega
    · have := hlen (by omega)
      omega

/-- An entry is a record of its directory, with the name that was looked for. -/
theorem entry_some {ino : ℕ} {name : List UInt8} {e : Dirent} (h : t.entry ino name = some e) :
    e ∈ (t.blocks ino).flatten ∧ t.Entry e ∧ e.name = name := by
  have hp := List.find?_some h
  rw [decide_eq_true_iff] at hp
  exact ⟨List.mem_of_find?_eq_some h,hp⟩

/-- There are no entries with longer names than a record can have. -/
theorem entry_long {ino : ℕ} {name : List UInt8} (hdir : UfsDir t.toUfsVolume ino (t.blocks ino)) (hlong : maxnamlen < name.length) :
    t.entry ino name = none := by
  cases h : t.entry ino name with
  | none => rfl
  | some e =>
    obtain ⟨hmem,-,hname⟩ := entry_some h
    obtain ⟨l,hl,hel⟩ := List.mem_flatten.mp hmem
    obtain ⟨k,hk,rfl⟩ := List.mem_iff_getElem.mp hl
    have hle := records_names (hdir.records k hk) e hel
    rw [hname] at hle
    omega

/-- The path behind a link. -/
theorem expand_nonzero {p : UfsPlace} {e : Dirent} (hpath : 0 ∉ p.path) (htarget : 0 ∉ t.target e.ino) : 0 ∉ t.expand p e := by
  rw [UfsTree.expand,List.mem_append,not_or]
  exact ⟨htarget,fun h => hpath ((behindName_sublist p.path).subset h)⟩

variable {p : UfsPlace} {s : UfsOpening} {find : ℕ}

/-- A turn of the loop of `ufs_open` is a step of the walk, or its end. -/
inductive TurnRight (t : UfsTree) (p : UfsPlace) : UfsTurn → Prop
  | stop {r : Except ℤ ℕ} {s : UfsOpening} : t.Ends p r → OpensAt t r s → TurnRight t p (.stop (.done (rcOf r) s))
  | next {q : UfsPlace} {s : UfsOpening} : t.Step p q → OpeningAt t q s → TurnRight t p (.next q.path s)

/-- The length of a link whose path fits is not cut. -/
theorem linkLen_eq {n m : ℕ} (h : n+m ≤ maxpathlen) : Int.bmod n (2^32) = n ∧ Int.bmod ((n : ℤ)+m) (2^32) = n+m := by
  rw [maxpathlen] at h
  constructor
  · exact bmod_of_lt (by omega)
  · exact_mod_cast bmod_of_lt (show n+m < 2^31 by omega)

/-- A symbolic link is followed, or it is one too many. -/
theorem followLink_right {e : Dirent} (hp : t.node p.ino) (hzero : 0 ∉ p.path) (hplain : t.Plain p)
    (hpath : p.path.dropWhile (· = slash) ≠ []) (hdir : t.IsDir p.ino) (he : t.next p = some e) (hlink : t.IsLink e.ino)
    (hh : HandleOf t s.handle e.ino) (hlinks : s.nlinks = p.links) (hio : s.io = []) :
    TurnRight t p (followLink t.toUfsVolume p.ino (behindName p.path) s) := by
  have hsize := target_length t e.ino
  unfold followLink
  rw [hh.di,hlinks]
  dsimp only
  by_cases hmany : maxsymlinks < p.links+1
  · rw [if_pos (.inr hmany)]
    exact .stop (.tooMany hpath hdir he hlink (.inl (Nat.le_of_lt_succ hmany))) nofun
  have hfew : p.links < maxsymlinks := by omega
  have hlen : (t.expand p e).length = diSize (t.dinode e.ino)+(behindName p.path).length := by
    rw [UfsTree.expand,List.length_append,hsize]
  by_cases hlong : maxpathlen < (t.expand p e).length
  · rw [if_pos (.inl (hplain.long e hdir he hlink hfew hlong))]
    exact .stop (.tooMany hpath hdir he hlink (.inr hlong)) nofun
  rw [not_lt] at hlong
  obtain ⟨htarget,hempty⟩ := hplain.link e hdir he hlink hfew hlong
  rw [hlen] at hlong
  obtain ⟨hcut,hsum⟩ := linkLen_eq hlong
  rw [hcut,hsum,if_neg (by omega),if_neg (by omega),Int.toNat_natCast]
  obtain ⟨link,s₁,hread,hbytes,hio₁,hlinks₁,-⟩ := readLink_done (s := {s with nlinks := p.links+1}) hh hio htarget (by omega)
  have hrest : 0 ∉ behindName p.path := fun h => hzero ((behindName_sublist p.path).subset h)
  have hstr := namebufStr_link s₁.namebuf hbytes htarget hrest (by omega)
  have hstart : (if linkPath s₁.namebuf link (t.target e.ino).length (behindName p.path) 0 ≠ slash then p.ino else rootino) =
      if (t.target e.ino).head? = some slash then rootino else p.ino := by
    have hhead := linkPath_head s₁.namebuf (behindName p.path) hbytes
    cases htl : t.target e.ino with
    | nil =>
      -- an empty link: the path that is left decides
      rw [htl,List.nil_append] at hhead
      rw [if_neg (show ¬([] : List UInt8).head? = some slash from nofun)]
      obtain hnil | hroot := hempty htl
      · rw [hnil] at hhead ⊢
        rw [if_pos (fun h => nomatch hhead.mp h)]
      · rw [hroot]
        exact ite_self _
    | cons c l =>
      rw [htl] at hhead
      rw [List.cons_append,List.head?_cons] at hhead
      rw [List.head?_cons]
      by_cases hc : some c = some slash
      · rw [if_neg (not_not.mpr (hhead.mpr hc)),if_pos hc]
      · rw [if_pos fun h => hc (hhead.mp h),if_neg hc]
  rw [hread,← hsize]
  dsimp only
  rw [hstart,hstr,hio₁]
  obtain ⟨h',hread',hh',-⟩ := readInode_done (t := t) (if (t.target e.ino).head? = some slash then rootino else p.ino) s₁.handle
  rw [hread']
  dsimp only
  rw [if_neg (not_not.mpr rfl)]
  refine .next (.link hpath hdir he hlink hfew (by omega)) ⟨?_,expand_nonzero hzero htarget,hh',rfl,hlinks₁,rfl⟩
  dsimp only
  split_ifs
  · exact t.root
  · exact hp

/-- One turn of the loop of `ufs_open` is one component of the path. -/
theorem openComponent_right (hp : OpeningAt t p s) (hplain : t.Plain p) (hfind : (t.blocks p.ino).length < find) :
    ∃ turn, openComponent t.toUfsVolume find p.path s = some turn ∧ TurnRight t p turn := by
  unfold openComponent
  dsimp only
  by_cases hpath : p.path.dropWhile (· = slash) = []
  · rw [if_pos hpath]
    refine ⟨_,rfl,.stop (r := .ok p.ino) (.done hpath) ?_⟩
    rintro ino ⟨⟩
    exact ⟨hp.inumber,hp.handle.di,rfl⟩
  rw [if_neg hpath,hp.handle.di]
  by_cases hdir : t.IsDir p.ino
  swap
  · rw [if_pos (show diMode (t.dinode p.ino) &&& ifmt ≠ ifdir from hdir)]
    exact ⟨_,rfl,.stop (r := .error enotdir) (.notDir hpath hdir) nofun⟩
  rw [if_neg (show ¬(diMode (t.dinode p.ino) &&& ifmt ≠ ifdir) from not_not.mpr hdir)]
  have hok := t.dir p.ino hp.node hdir
  by_cases hlong : maxnamlen < (firstName p.path).length
  · rw [if_pos (show maxnamlen < ((p.path.dropWhile (· = slash)).takeWhile (· ≠ slash)).length from hlong)]
    exact ⟨_,rfl,.stop (r := .error enoent) (.missing hpath hdir (entry_long hok hlong)) nofun⟩
  rw [if_neg (show ¬maxnamlen < ((p.path.dropWhile (· = slash)).takeWhile (· ≠ slash)).length from hlong),hp.io]
  have hzero : 0 ∉ firstName p.path := fun h => hp.nonzero ((firstName_sublist p.path).subset h)
  obtain ⟨h,hsearch,hh⟩ := searchDirectory_spec hok hzero hfind hp.handle (hplain.name hdir)
  rw [show searchDirectory t.toUfsVolume ((p.path.dropWhile (· = slash)).takeWhile (· ≠ slash)) find s.handle [] = _ from hsearch]
  cases hnext : t.entry p.ino (firstName p.path) with
  | none => exact ⟨_,rfl,.stop (r := .error enoent) (.missing hpath hdir hnext) nofun⟩
  | some e =>
    obtain ⟨h',hread,hh',-⟩ := readInode_done (t := t) e.ino h
    obtain ⟨hmem,hentry,-⟩ := entry_some hnext
    dsimp only [found]
    rw [hread]
    dsimp only
    rw [if_neg (not_not.mpr rfl),hh'.di]
    by_cases hlink : t.IsLink e.ino
    · rw [if_pos (show diMode (t.dinode e.ino) &&& ifmt = iflnk from hlink),hp.inumber]
      exact ⟨_,rfl,followLink_right hp.node hp.nonzero hplain hpath hdir hnext hlink hh' hp.nlinks rfl⟩
    · rw [if_neg (show ¬diMode (t.dinode e.ino) &&& ifmt = iflnk from hlink)]
      exact ⟨_,rfl,.next (.down hpath hdir hnext hlink) ⟨t.sub p.ino hp.node hdir e hmem hentry,
        fun h => hp.nonzero ((behindName_sublist p.path).subset h),hh',rfl,hp.nlinks,rfl⟩⟩

/-- In the old format no name of 14 bytes is found: what is there is taken for a whiteout. -/
theorem openComponent_whiteout (hp : OpeningAt t p s) (hpath : p.path.dropWhile (· = slash) ≠ []) (hdir : t.IsDir p.ino)
    (hold : t.maxsymlinklen ≤ 0) (hname : (firstName p.path).length = dtWht) (hfind : (t.blocks p.ino).length < find) :
    ∃ s', openComponent t.toUfsVolume find p.path s = some (.stop (.done enoent s')) := by
  have hzero : 0 ∉ firstName p.path := fun h => hp.nonzero ((firstName_sublist p.path).subset h)
  obtain ⟨h,hsearch,-⟩ := searchLoop_spec (h := ⟨s.handle.di,{s.handle.fp with seekp := 0}⟩) (k := 0) (t.dir p.ino hp.node hdir) hzero
    (Nat.zero_le _) hfind ⟨hp.handle.di,⟨⟨hp.handle.whole.tagged.blk,hp.handle.whole.tagged.buf⟩,hp.handle.whole.inTree⟩⟩
    (by rw [Nat.mul_zero,Nat.zero_min]; rfl)
  have hnone : (((t.blocks p.ino).drop 0).flatten).find? (t.takes (firstName p.path)) = none := by
    rw [List.find?_eq_none]
    intro e _ htakes
    simp only [UfsVolume.takes,hold,if_true,decide_eq_true_eq] at htakes
    rw [htakes.2.2] at htakes
    exact htakes.2.1 hname
  rw [hnone] at hsearch
  have hsearch' : searchDirectory t.toUfsVolume ((p.path.dropWhile (· = slash)).takeWhile (· ≠ slash)) find s.handle [] =
      some (.error enoent,h,[]) := hsearch
  unfold openComponent
  dsimp only
  rw [if_neg hpath,hp.handle.di,if_neg (show ¬(diMode (t.dinode p.ino) &&& ifmt ≠ ifdir) from not_not.mpr hdir),
    if_neg (show ¬maxnamlen < ((p.path.dropWhile (· = slash)).takeWhile (· ≠ slash)).length from fun h => ?_),hp.io,hsearch']
  · exact ⟨_,rfl⟩
  · have hlen : ((p.path.dropWhile (· = slash)).takeWhile (· ≠ slash)).length = dtWht := hname
    rw [hlen] at h
    exact absurd h (by decide)

/-- The turns of the loop go down: either a link is followed, of which there are not many, or the path gets shorter. -/
def placeLeft (p : UfsPlace) : ℕ ×ₗ ℕ := toLex (maxsymlinks-p.links,p.path.length)

theorem step_lt {q : UfsPlace} (h : t.Step p q) : placeLeft q < placeLeft p := by
  unfold placeLeft
  rw [Prod.Lex.toLex_lt_toLex]
  cases h with
  | down hpath _ _ _ =>
    right
    exact ⟨rfl,behindName_length hpath⟩
  | link _ _ _ _ hfew _ =>
    left
    dsimp only
    omega

theorem step_unique {q q' : UfsPlace} (h : t.Step p q) (h' : t.Step p q') : q = q' := by
  cases h with
  | down _ _ he hno =>
    cases h' with
    | down _ _ he' _ =>
      cases he.symm.trans he'
      rfl
    | link _ _ he' hlink =>
      cases he.symm.trans he'
      exact absurd hlink hno
  | link _ _ he hlink =>
    cases h' with
    | down _ _ he' hno =>
      cases he.symm.trans he'
      exact absurd hlink hno
    | link _ _ he' _ _ _ =>
      cases he.symm.trans he'
      rfl

theorem ends_unique {r r' : Except ℤ ℕ} (h : t.Ends p r) (h' : t.Ends p r') : r = r' := by
  cases h <;> cases h' <;> first | rfl | contradiction

theorem ends_no_step {r : Except ℤ ℕ} {q : UfsPlace} (h : t.Ends p r) : ¬t.Step p q := by
  intro hs
  cases h with
  | done hnil => cases hs <;> contradiction
  | notDir _ hdir => cases hs <;> contradiction
  | missing _ _ hnone =>
    cases hs with
    | down _ _ he _ => exact nomatch hnone.symm.trans he
    | link _ _ he _ _ _ => exact nomatch hnone.symm.trans he
  | tooMany _ _ he hlink hmany =>
    cases hs with
    | down _ _ he' hno =>
      cases he.symm.trans he'
      exact hno hlink
    | link _ _ he' _ hfew hfits =>
      cases he.symm.trans he'
      omega

/-- The walk ends at a place, or goes on from there. -/
theorem ends_or_step (t : UfsTree) (p : UfsPlace) : (∃ r, t.Ends p r) ∨ ∃ q, t.Step p q := by
  by_cases hpath : p.path.dropWhile (· = slash) = []
  · exact .inl ⟨_,.done hpath⟩
  by_cases hdir : t.IsDir p.ino
  swap
  · exact .inl ⟨_,.notDir hpath hdir⟩
  cases he : t.next p with
  | none => exact .inl ⟨_,.missing hpath hdir he⟩
  | some e =>
    by_cases hlink : t.IsLink e.ino
    swap
    · exact .inr ⟨_,.down hpath hdir he hlink⟩
    by_cases hmany : maxsymlinks ≤ p.links ∨ maxpathlen < (t.expand p e).length
    · exact .inl ⟨_,.tooMany hpath hdir he hlink hmany⟩
    · rw [not_or,not_le,not_lt] at hmany
      exact .inr ⟨_,.link hpath hdir he hlink hmany.1 hmany.2⟩

/-- A path comes to one end. -/
theorem resolves_unique {r r' : Except ℤ ℕ} (h : t.Resolves p r) (h' : t.Resolves p r') : r = r' := by
  obtain ⟨q,hq,hr⟩ := h
  obtain ⟨q',hq',hr'⟩ := h'
  induction hq using Relation.ReflTransGen.head_induction_on with
  | refl =>
    obtain rfl | ⟨c,hc,-⟩ := Relation.ReflTransGen.cases_head hq'
    · exact ends_unique hr hr'
    · exact absurd hc (ends_no_step hr)
  | head hstep _ ih =>
    obtain rfl | ⟨c,hc,hrest⟩ := Relation.ReflTransGen.cases_head hq'
    · exact absurd hstep (ends_no_step hr')
    · cases step_unique hstep hc
      exact ih hrest

/-- The loop of `ufs_open` follows the walk to its end. -/
theorem ufsOpenLoop_resolves (p : UfsPlace) (hplain : ∀ q, Relation.ReflTransGen t.Step p q → t.Plain q) :
    ∃ r, t.Resolves p r ∧ ∃ N, ∀ find ≥ N, ∀ fuel ≥ N, ∀ s, OpeningAt t p s →
      ∃ s', ufsOpenLoop t.toUfsVolume find fuel p.path s = some (.done (rcOf r) s') ∧ OpensAt t r s' := by
  induction hm : placeLeft p using WellFoundedLT.induction generalizing p with
  | _ m ih =>
    obtain ⟨r,hr⟩ | ⟨q,hq⟩ := ends_or_step t p
    · refine ⟨r,⟨p,.refl,hr⟩,(t.blocks p.ino).length+1,fun find hfind fuel hfuel s hp => ?_⟩
      obtain ⟨fuel,rfl⟩ : ∃ m, fuel = m+1 := ⟨fuel-1,by omega⟩
      have hblocks : (t.blocks p.ino).length < find := by omega
      obtain ⟨turn,hturn,hright⟩ := openComponent_right hp (hplain p .refl) hblocks
      rw [ufsOpenLoop,hturn]
      cases hright with
      | stop hr' hopens =>
        cases ends_unique hr hr'
        exact ⟨_,rfl,hopens⟩
      | next hq _ => exact absurd hq (ends_no_step hr)
    · obtain ⟨r,⟨z,hz,hr⟩,N,hN⟩ := ih (placeLeft q) (hm ▸ step_lt hq) q (fun z hz => hplain z (.head hq hz)) rfl
      refine ⟨r,⟨z,.head hq hz,hr⟩,max (N+1) ((t.blocks p.ino).length+1),fun find hfind fuel hfuel s hp => ?_⟩
      obtain ⟨fuel,rfl⟩ : ∃ m, fuel = m+1 := ⟨fuel-1,by omega⟩
      have hblocks : (t.blocks p.ino).length < find := by omega
      obtain ⟨turn,hturn,hright⟩ := openComponent_right hp (hplain p .refl) hblocks
      rw [ufsOpenLoop,hturn]
      cases hright with
      | stop hr' _ => exact absurd hq (ends_no_step hr')
      | next hq' hp' =>
        cases step_unique hq hq'
        exact hN find (by omega) fuel (by omega) _ hp'

/-- Along the path `ufs_open` comes to the end that the walk comes to. -/
def UfsTree.OpensRight (t : UfsTree) (path : CStr) (namebuf buf : ℕ → UInt8) : Prop :=
  ∃ r, (∀ r', t.Resolves ⟨0,rootino,path.bytes⟩ r' ↔ r' = r) ∧ ∃ N, ∀ find ≥ N, ∀ fuel ≥ N, ∃ s,
    ufsOpen t.toUfsVolume find fuel path.bytes namebuf buf [] = some (.done (rcOf r) s) ∧ OpensAt t r s

/-- The loop starts at the root. -/
theorem ufsOpen_start (t : UfsTree) (path : CStr) (namebuf buf : ℕ → UInt8) : ∃ s, OpeningAt t ⟨0,rootino,path.bytes⟩ s ∧
    ∀ find fuel, ufsOpen t.toUfsVolume find fuel path.bytes namebuf buf [] = ufsOpenLoop t.toUfsVolume find fuel path.bytes s := by
  obtain ⟨h,hread,hh,-⟩ := readInode_done (t := t) rootino ufsHandle₀
  have hmin : 2^11 ≤ t.bsize := Nat.pow_le_pow_right (by norm_num) t.bshift_mem.1
  have hmax : t.bsize ≤ maxbsize := Nat.pow_le_pow_right (by norm_num) t.bshift_mem.2
  have hfs : fsBytes ≤ 2^11 := by decide
  refine ⟨⟨h,rootino,0,namebuf,buf,[]⟩,⟨t.root,path.nonzero,hh,rfl,rfl,rfl⟩,fun find fuel => ?_⟩
  unfold ufsOpen
  rw [if_neg (by simp [strategy]),if_neg]
  · dsimp only [List.tail_nil]
    rw [hread]
    rfl
  · rintro (h | h | h | h)
    · exact h rfl
    · exact h t.magic_eq
    · omega
    · omega

/-- `ufs_open` ends where the path does, if the walk meets none of the slips. -/
theorem ufs_open_resolves (t : UfsTree) (path : CStr) (namebuf buf : ℕ → UInt8)
    (hplain : ∀ p, Relation.ReflTransGen t.Step ⟨0,rootino,path.bytes⟩ p → t.Plain p) : t.OpensRight path namebuf buf := by
  obtain ⟨r,hr,N,hN⟩ := ufsOpenLoop_resolves ⟨0,rootino,path.bytes⟩ hplain
  obtain ⟨s,hs,hloop⟩ := ufsOpen_start t path namebuf buf
  refine ⟨r,fun r' => ⟨fun h => resolves_unique h hr,fun h => h ▸ hr⟩,N,fun find hfind fuel hfuel => ?_⟩
  rw [hloop]
  exact hN find hfind fuel hfuel s hs

end Run

section Examples

/-- The records `l`, `f` and `abcdefghijklmn` of a directory in the old format. -/
def oldRecords : List UInt8 :=
  [3,0,0,0,16,0,1,0,108,0,0,0,0,0,0,0] ++ [4,0,0,0,16,0,1,0,102,0,0,0,0,0,0,0] ++
  [4,0,0,0,32,0,14,0,97,98,99,100,101,102,103,104,105,106,107,108,109,110,0,0,0,0,0,0,0,0,0,0]

def linkEntry : Dirent := ⟨3,1,[108]⟩
def fileEntry : Dirent := ⟨4,1,[102]⟩
def longEntry : Dirent := ⟨4,14,[97,98,99,100,101,102,103,104,105,106,107,108,109,110]⟩

def oldBlocks : List (List Dirent) := [[linkEntry,fileEntry,longEntry]]

/-- A root directory of 64 bytes with the file 4 and the symbolic link 3, which leads to `f`. -/
def oldVolume : UfsVolume where
  dev := fun a =>
    if a = 8449 then 0x41 else if a = 8456 then 64 else if a = 8488 then 32 else
    if a = 8577 then 0xA1 else if a = 8584 then 1 else if a = 8616 then 36 else
    if a = 8705 then 0x81 else if a = 18432 then 102 else
    if 16384 ≤ a ∧ a < 16448 then oldRecords.getD (a-16384).toNat 0 else 0
  bshift := 11
  fragshift := 2
  fsbtodb := 0
  ipg := 32
  fpg := 1000
  iblkno := 16
  cgoffset := 0
  cgmask := 2^32-1
  magic := fsMagic
  maxsymlinklen := 0

theorem oldVolume_dir : UfsDir oldVolume 2 oldBlocks where
  shape := by
    refine ⟨by decide,by decide,fun n p hp => ?_⟩
    obtain ⟨hlt,-⟩ := levelOf_lt hp
    refine .inl ?_
    have hzero : ∀ k < 3, diIb (oldVolume.dinode 2) k = 0 := by decide +kernel
    exact hzero p.1 (by simpa [niaddr] using hlt)
  inTree := by decide +kernel
  below := by decide +kernel
  count k := by
    have hsize : diSize (oldVolume.dinode 2) = 64 := by decide +kernel
    have hb : oldVolume.bsize = 2048 := by decide
    rw [hsize,hb]
    simp only [oldBlocks,List.length_singleton]
    omega
  records k hk := by
    obtain rfl : k = 0 := by simpa [oldBlocks] using hk
    have hhi : min oldVolume.bsize (diSize (oldVolume.dinode 2)-oldVolume.bsize*0) = 64 := by decide +kernel
    rw [hhi]
    have h₁ : oldVolume.RecordAt (fun j => (oldVolume.fileOf 2).byte (oldVolume.bsize*0+j)) 0 linkEntry 16 :=
      ⟨by decide +kernel,by decide +kernel,by decide +kernel,by decide +kernel,by decide +kernel,by decide,by decide⟩
    have h₂ : oldVolume.RecordAt (fun j => (oldVolume.fileOf 2).byte (oldVolume.bsize*0+j)) 16 fileEntry 32 :=
      ⟨by decide +kernel,by decide +kernel,by decide +kernel,by decide +kernel,by decide +kernel,by decide,by decide⟩
    have h₃ : oldVolume.RecordAt (fun j => (oldVolume.fileOf 2).byte (oldVolume.bsize*0+j)) 32 longEntry 64 :=
      ⟨by decide +kernel,by decide +kernel,by decide +kernel,by decide +kernel,by decide +kernel,by decide,by decide⟩
    exact .cons h₁ (.cons h₂ (.cons h₃ .nil))

def oldTree : UfsTree where
  toUfsVolume := oldVolume
  magic_eq := rfl
  bshift_mem := by decide
  short := by decide
  node := fun ino => ino = 2 ∨ ino = 3 ∨ ino = 4
  root := .inl rfl
  blocks := fun _ => oldBlocks
  dir := by
    rintro ino (rfl | rfl | rfl) hdir
    · exact oldVolume_dir
    · exact absurd hdir (by decide)
    · exact absurd hdir (by decide)
  sub := by
    intro ino _ _ e he _
    simp only [oldBlocks,List.flatten_cons,List.flatten_nil,List.append_nil,List.mem_cons,List.not_mem_nil,or_false] at he
    obtain rfl | rfl | rfl := he
    · exact .inr (.inl rfl)
    · exact .inr (.inr rfl)
    · exact .inr (.inr rfl)

/-- The path `/l/`. -/
def linkSlash : CStr := ⟨[47,108,47],by decide⟩

theorem oldTree_link : oldTree.next ⟨0,2,[47,108,47]⟩ = some linkEntry := by decide
theorem oldTree_file : oldTree.next ⟨1,2,[102,47]⟩ = some fileEntry := by decide
theorem oldTree_target : oldTree.target linkEntry.ino = [102] := by decide +kernel

theorem oldTree_follow : oldTree.Step ⟨0,rootino,linkSlash.bytes⟩ ⟨1,2,[102,47]⟩ := by
  have hexpand : oldTree.expand ⟨0,2,[47,108,47]⟩ linkEntry = [102,47] := by decide +kernel
  have h := UfsTree.Step.link (t := oldTree) (p := ⟨0,2,[47,108,47]⟩) (by decide) (by decide) oldTree_link (by decide)
    (by decide) (by rw [hexpand]; decide)
  rw [hexpand,oldTree_target] at h
  exact h

theorem oldTree_down : oldTree.Step ⟨1,2,[102,47]⟩ ⟨1,4,[47]⟩ :=
  .down (by decide) (by decide) oldTree_file (by decide)

/-- The path `/l/` leads to the file. -/
theorem ufs_open_resolves_link : oldTree.OpensRight linkSlash (fun _ => 0) (fun _ => 0) := by
  apply ufs_open_resolves
  intro p hp
  have hplace : p = ⟨0,2,[47,108,47]⟩ ∨ p = ⟨1,2,[102,47]⟩ ∨ p = ⟨1,4,[47]⟩ := by
    obtain rfl | ⟨q,hq,hrest⟩ := Relation.ReflTransGen.cases_head hp
    · exact .inl rfl
    cases step_unique hq oldTree_follow
    obtain rfl | ⟨q,hq,hrest⟩ := Relation.ReflTransGen.cases_head hrest
    · exact .inr (.inl rfl)
    cases step_unique hq oldTree_down
    obtain rfl | ⟨q,hq,-⟩ := Relation.ReflTransGen.cases_head hrest
    · exact .inr (.inr rfl)
    · exact absurd hq (ends_no_step (.done (by decide)))
  obtain rfl | rfl | rfl := hplace
  · refine ⟨fun _ _ h => absurd h (by decide),fun e _ he _ _ hlong => ?_,fun e _ he _ _ _ => ?_⟩
    · cases oldTree_link.symm.trans he
      exact absurd hlong (by decide +kernel)
    · cases oldTree_link.symm.trans he
      rw [oldTree_target]
      exact ⟨by decide,nofun⟩
  · refine ⟨fun _ _ h => absurd h (by decide),fun e _ he hlink => ?_,fun e _ he hlink => ?_⟩
    · cases oldTree_file.symm.trans he
      exact absurd hlink (by decide)
    · cases oldTree_file.symm.trans he
      exact absurd hlink (by decide)
  · refine ⟨fun _ _ h => absurd h (by decide),fun e hdir => ?_,fun e hdir => ?_⟩
    · exact absurd hdir (by decide)
    · exact absurd hdir (by decide)

/-- The path `/abcdefghijklmn`. -/
def whiteoutName : CStr := ⟨[47,97,98,99,100,101,102,103,104,105,106,107,108,109,110],by decide⟩

/-- The file `abcdefghijklmn` is not found. -/
theorem ufs_open_whiteout : ¬oldTree.OpensRight whiteoutName (fun _ => 0) (fun _ => 0) := by
  rintro ⟨r,hr,N,hN⟩
  have hstep : oldTree.Step ⟨0,rootino,whiteoutName.bytes⟩ ⟨0,4,[]⟩ :=
    UfsTree.Step.down (t := oldTree) (p := ⟨0,rootino,whiteoutName.bytes⟩)
      (e := longEntry) (by decide) (by decide)
      (by decide) (by decide)
  cases (hr (.ok 4)).mp ⟨_,.single hstep,.done rfl⟩
  obtain ⟨s,hs,hloop⟩ := ufsOpen_start oldTree whiteoutName (fun _ => 0) (fun _ => 0)
  obtain ⟨s',hrun,-⟩ := hN (N+2) (by omega) (N+1) (by omega)
  have hblocks : (oldTree.blocks 2).length < N+2 := by
    change 1 < N+2
    omega
  obtain ⟨s'',hturn⟩ := openComponent_whiteout hs (by decide) (by decide) le_rfl (by decide) hblocks
  rw [hloop,ufsOpenLoop,hturn] at hrun
  cases hrun

end Examples

end Blub.Stand
