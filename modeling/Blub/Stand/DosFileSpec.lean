import Blub.Lib.Trace
import Blub.Stand.DosChain

/-! Reading a regular file of a FAT volume against the bytes that its cluster chain gives. -/
namespace Blub.Stand
open Blub.Bytes Blub.Trace

namespace DosVol
variable (v : DosVol)

/-- Where the entry of a cluster is on the volume, and where its bytes are. -/
def entryAt (c : ℕ) : ℕ := 512*v.fs.lsnfat+v.fs.entryOffset c
def clusAt (c : ℕ) : ℕ := 512*dataStart v.dev v.fs+(c-loclus)*v.fs.bsize

/-- The entry of a cluster as the FAT has it, and the link it holds: 12, 16 or 28 bits. -/
def fatWord (c : ℕ) : ℕ := leGet v.dev (v.entryAt c) v.fs.entrySize

def fatLink (c : ℕ) : ℕ :=
  if v.fs.fatsz = 12 then (if c%2 = 1 then v.fatWord c/16 else v.fatWord c%0x1000)
  else if v.fs.fatsz = 16 then v.fatWord c
  else v.fatWord c%2^28

/-- The clusters of a chain. -/
def cluster (start : ℕ) : ℕ → ℕ
  | 0 => start
  | i+1 => v.fatLink (cluster start i)

attribute [local grind =] cluster

end DosVol

/-- A regular file on a volume, as `dos_open` takes it, whose chain is long enough. -/
structure DosRegular where
  vol : DosVol
  de : ℕ → UInt8
  parsed : parsebs vol.dev = some vol.fs
  regular : deAttr de &&& faDir = 0
  start_iff : stclus vol.fs.fatsz de = 0 ↔ deSize de = 0
  start_ok : stclus vol.fs.fatsz de ≠ 0 → vol.fs.okclus (stclus vol.fs.fatsz de)
  chain : ∀ i, i*vol.fs.bsize < deSize de →
    loclus ≤ vol.cluster (stclus vol.fs.fatsz de) i ∧
    vol.fs.entryOffset (vol.cluster (stclus vol.fs.fatsz de) i)+vol.fs.entrySize ≤ 512*vol.fs.spf

namespace DosRegular
variable (F : DosRegular)

def size : ℕ := deSize F.de
def bsize : ℕ := F.vol.fs.bsize
def clus : ℕ := stclus F.vol.fs.fatsz F.de

/-- The cluster of a number along the chain. -/
def nth (i : ℕ) : ℕ := F.vol.cluster F.clus i

/-- Where a byte of the file is on the volume, and the bytes of the file. -/
def place (o : ℕ) : ℕ := F.vol.clusAt (F.nth (o/F.bsize))+o%F.bsize
def content : List UInt8 := (List.range F.size).map fun o => F.vol.dev (F.place o)

/-- The number along the chain of the first cluster whose link a read follows. -/
def firstLink (c o : ℕ) : ℕ := if c = 0 then 0 else (o-1)/F.bsize

/-- What a read up to the offset `e` needs: its bytes are before byte `2^32` of the volume, and the links that it follows
lead to clusters up to `xclus`, with the upper four bits of a FAT32 entry clear. -/
structure ReadFits (c o e : ℕ) : Prop where
  place : ∀ j, o ≤ j → j < e → F.place j < 2^32
  link : ∀ i, F.firstLink c o ≤ i → (i+1)*F.bsize < e →
    F.nth (i+1) ≤ F.vol.fs.xclus ∧ (F.vol.fs.fatsz = 32 → F.vol.fatWord (F.nth i) < 2^28)

end DosRegular

inductive DosCall
  | read (nbyte : ℕ)
  | seek (offset : ℤ) (whence : Whence)
  deriving DecidableEq, Repr

inductive DosAnswer
  | read (r : DosVol.ReadResult)
  | seek (pos : ℤ)
  deriving DecidableEq

namespace DosRegular
variable (F : DosRegular)

/-- One call on the open file; no answer if it does not return. -/
def step (fuel : ℕ) (s : DosFile × DosBuf) : DosCall → Option DosAnswer × (DosFile × DosBuf)
  | .read nbyte =>
    match F.vol.dosRead fuel F.de nbyte s.1 s.2 with
    | none => (none,s)
    | some (r,f,b) => (some (.read r),(f,b))
  | .seek offset whence =>
    let r := DosVol.dosSeek F.de offset whence s.1
    (some (.seek r.1),(r.2,s.2))

/-- Where a seek starts. -/
def seekFrom (p : ℕ) : Whence → ℤ
  | .set => 0
  | .cur => p
  | .end => F.size

/-- The same call on the bytes of the file. A seek outside of them is refused. -/
def fileCall (p : ℕ) : DosCall → Option DosAnswer × ℕ
  | .read nbyte =>
    let got := (F.content.drop p).take nbyte
    (some (.read ⟨0,got,some (nbyte-got.length)⟩),p+got.length)
  | .seek offset whence =>
    let target : ℤ := F.seekFrom p whence+offset
    if target < 0 ∨ (F.size : ℤ) < target then (some (.seek (-1)),p) else (some (.seek target),target.toNat)

/-- A read is of fewer than `2^32` bytes, and `ReadFits` up to its end. -/
def CallFits (s : DosFile × DosBuf) : DosCall → Prop
  | .read nbyte => nbyte < 2^32 ∧ F.ReadFits s.1.c s.1.offset (s.1.offset+min nbyte (F.size-s.1.offset))
  | .seek _ _ => True

/-- The open file is at `p`: the cluster kept is the one of the byte before. -/
structure Open (s : DosFile × DosBuf) (p : ℕ) : Prop where
  offset : s.1.offset = p
  le : p ≤ F.size
  cached : F.vol.Cached s.2
  c : s.1.c = 0 ∨ 0 < p ∧ s.1.c = F.nth ((p-1)/F.bsize)

attribute [local grind =] step seekFrom

variable {F} {b : DosBuf}

theorem bsize_pos : 0 < F.bsize := by
  obtain ⟨k,h⟩ := parsebs_spec F.parsed
  rw [bsize,h.bsize]
  exact Nat.mul_pos (by norm_num) (Nat.two_pow_pos k)

/-- The data area is after the FAT. -/
theorem fat_before : 512*(F.vol.fs.lsnfat+F.vol.fs.spf) ≤ 512*dataStart F.vol.dev F.vol.fs := by
  obtain ⟨k,h⟩ := parsebs_spec F.parsed
  have hmul : F.vol.fs.spf ≤ F.vol.fs.spf*bpbFats F.vol.dev := Nat.le_mul_of_pos_right _ h.fats.1
  rw [dataStart]
  omega

/-- A link is read as it is. -/
theorem fatNext_eq (hdata : 512*dataStart F.vol.dev F.vol.fs < 2^32) {i : ℕ} (hi : i*F.bsize < F.size)
    (hclear : F.vol.fs.fatsz = 32 → F.vol.fatWord (F.nth i) < 2^28) : F.vol.fatNext (F.nth i) = F.nth (i+1) := by
  obtain ⟨k,h⟩ := parsebs_spec F.parsed
  obtain ⟨-,hin⟩ := F.chain i hi
  change F.vol.fs.entryOffset (F.nth i)+_ ≤ _ at hin
  have hbefore := fat_before (F := F)
  have hpos : 0 < F.vol.fs.entrySize := by
    rw [DosFs.entrySize]
    split_ifs <;> decide
  have hat : F.vol.fs.fatAt (F.nth i) = F.vol.entryAt (F.nth i) := h.fatAt (by omega)
  have hword : leGet (F.vol.after (F.vol.fs.fatAt (F.nth i))) 0 F.vol.fs.entrySize = F.vol.fatWord (F.nth i) := by
    refine leGet_shift fun j hj => ?_
    have hlt : (F.vol.entryAt (F.nth i)+(0+j))%2^32 = F.vol.entryAt (F.nth i)+j := by
      rw [DosVol.entryAt,Nat.zero_add]
      exact Nat.mod_eq_of_lt (by omega)
    rw [hat,DosVol.after,hlt]
  rw [DosVol.fatNext,hword]
  change _ = F.vol.fatLink (F.nth i)
  rw [DosVol.fatLink]
  obtain ⟨-,-,hsz | hsz⟩ | ⟨-,-,hsz⟩ := h.width
  · rw [if_pos hsz,if_pos hsz]
  · rw [if_neg (by omega),if_neg (by omega),if_pos hsz]
  · rw [if_neg (by omega),if_neg (by omega),if_neg (by omega),Nat.mod_eq_of_lt (hclear hsz)]

/-- The links between two clusters of the chain are followed. -/
theorem chase_spec (hdata : 512*dataStart F.vol.dev F.vol.fs < 2^32) {n i : ℕ} (hb : F.vol.Cached b)
    (h : ∀ j, i ≤ j → j < i+n → (j+1)*F.bsize < F.size ∧ F.nth (j+1) ≤ F.vol.fs.xclus ∧
      (F.vol.fs.fatsz = 32 → F.vol.fatWord (F.nth j) < 2^28)) :
    ∃ b', F.vol.chase n (F.nth i) b = (some (F.nth (i+n)),b') ∧ F.vol.Cached b' := by
  induction n generalizing i b with
  | zero => exact ⟨b,rfl,hb⟩
  | succ n ih =>
    obtain ⟨hin,hle,hclear⟩ := h i le_rfl (by omega)
    obtain ⟨hnext,hc⟩ := DosVol.fatget_spec hb (F.nth i)
    have hi : i*F.bsize < F.size := lt_of_le_of_lt (Nat.mul_le_mul_right _ (Nat.le_succ i)) hin
    rw [fatNext_eq hdata hi hclear] at hnext
    have hok : F.vol.fs.okclus (F.nth (i+1)) := ⟨(F.chain (i+1) hin).1,hle⟩
    obtain ⟨b',hrest,hb'⟩ := ih (i := i+1) hc (fun j h₁ h₂ => h j (by omega) (by omega))
    refine ⟨b',?_,hb'⟩
    rw [DosVol.chase,hnext]
    rw [if_pos hok,hrest,Nat.add_assoc,Nat.add_comm 1 n]

/-- The offset of a cluster is computed as it is where a byte of it is before `2^32`. -/
theorem blkoff_eq {c j : ℕ} (hj : F.vol.clusAt c+j < 2^32) : F.vol.fs.blkoff c = F.vol.clusAt c := by
  obtain ⟨k,h⟩ := parsebs_spec F.parsed
  have hlt := hj
  rw [DosVol.clusAt] at hlt
  obtain ⟨-,hstart⟩ := h.starts (by omega)
  have hshift : 2^F.vol.fs.bshift = F.vol.fs.bsize := by
    rw [h.bshift,h.bsize,pow_add]
    norm_num
  rw [DosFs.blkoff,DosFs.blkbyt,secbyt,hstart,hshift,DosVol.clusAt,secsiz,Nat.mul_comm _ 512,Nat.add_mod_mod,
    Nat.mod_add_mod]
  exact Nat.mod_eq_of_lt (by omega)

/-- The bytes of the file from `o` on that are in the cluster of `o`. -/
theorem ioread_place (hb : F.vol.Cached b) {o n : ℕ} (hn : 0 < n) (hin : o%F.bsize+n ≤ F.bsize)
    (hfit : ∀ j, o ≤ j → j < o+n → F.place j < 2^32) :
    let r := F.vol.ioread ((F.vol.fs.blkoff (F.nth (o/F.bsize))+o%F.bsize)%2^32) n b
    r.1 = (List.range n).map (fun j => F.vol.dev (F.place (o+j))) ∧ F.vol.Cached r.2 := by
  have hplace : ∀ j < n, F.place (o+j) = F.place o+j := by
    intro j hj
    have hdiv := Nat.div_add_mod o F.bsize
    have heq : o+j = F.bsize*(o/F.bsize)+(o%F.bsize+j) := by omega
    have hquot : (o+j)/F.bsize = o/F.bsize := by
      rw [heq,Nat.mul_add_div bsize_pos,Nat.div_eq_of_lt (by omega : o%F.bsize+j < F.bsize),Nat.add_zero]
    have hrem : (o+j)%F.bsize = o%F.bsize+j := by
      rw [heq,Nat.mul_add_mod,Nat.mod_eq_of_lt (by omega : o%F.bsize+j < F.bsize)]
    rw [place,place,hquot,hrem,Nat.add_assoc]
  have hfirst := hfit o le_rfl (by omega)
  have hlast := hfit (o+(n-1)) (by omega) (by omega)
  rw [hplace (n-1) (by omega)] at hlast
  have hoff : (F.vol.fs.blkoff (F.nth (o/F.bsize))+o%F.bsize)%2^32 = F.place o := by
    rw [blkoff_eq hfirst]
    exact Nat.mod_eq_of_lt hfirst
  dsimp only
  rw [hoff]
  obtain ⟨hbytes,hc⟩ := DosVol.ioread_spec hb (F.place o) n hfirst (.inr (by omega))
  refine ⟨hbytes.trans (List.map_congr_left fun j hj => ?_),hc⟩
  have hlt := List.mem_range.mp hj
  rw [DosVol.after,hplace j hlt,Nat.mod_eq_of_lt (by omega)]

theorem content_length : F.content.length = F.size := by rw [content,List.length_map,List.length_range]

theorem content_take {o n : ℕ} (h : o+n ≤ F.size) :
    (F.content.drop o).take n = (List.range n).map fun j => F.vol.dev (F.place (o+j)) := by
  refine List.ext_getElem ?_ fun j h₁ h₂ => ?_
  · rw [List.length_take,List.length_drop,content_length,List.length_map,List.length_range]
    omega
  · rw [List.getElem_take,List.getElem_drop,List.getElem_map,List.getElem_range]
    simp only [content,List.getElem_map,List.getElem_range]

theorem div_lt_size {o : ℕ} (h : o < F.size) : o/F.bsize*F.bsize < F.size := lt_of_le_of_lt (Nat.div_mul_le_self _ _) h

/-- Where the loop goes on from: the first link to follow, and as many links as lead to the cluster of `o`. -/
theorem links_spec {o c : ℕ} (fc : ℕ) (hclus : F.clus ≠ 0) (hc : c = 0 ∨ 0 < o ∧ c = F.nth ((o-1)/F.bsize)) :
    ∃ n, F.vol.links F.clus (o%F.bsize) ⟨o,fc⟩ c = (F.nth (F.firstLink c o),n) ∧ F.firstLink c o+n = o/F.bsize := by
  obtain ⟨k,h⟩ := parsebs_spec F.parsed
  have hshift : F.vol.fs.bytblk o = o/F.bsize := by
    rw [DosFs.bytblk,bsize,h.bshift,h.bsize,pow_add]
    norm_num
  by_cases h0 : c = 0
  · refine ⟨o/F.bsize,?_,?_⟩
    · rw [DosVol.links,firstLink,if_pos h0,if_pos h0,if_pos hclus,hshift]
      rfl
    · rw [firstLink,if_pos h0,Nat.zero_add]
  · obtain ⟨hpos,hcn⟩ := hc.resolve_left h0
    have hdiv := Nat.div_add_mod o F.bsize
    have hbs := bsize_pos (F := F)
    rw [DosVol.links,firstLink,if_neg h0,if_neg h0,hcn]
    by_cases hoff : o%F.bsize = 0
    · refine ⟨1,by rw [if_pos hoff],?_⟩
      obtain ⟨q,hq⟩ : ∃ q, o/F.bsize = q+1 := by
        refine Nat.exists_eq_succ_of_ne_zero fun hzero => ?_
        rw [hzero,hoff] at hdiv
        omega
      rw [hq,hoff,Nat.mul_succ] at hdiv
      have heq : o-1 = F.bsize*q+(F.bsize-1) := by omega
      rw [hq,heq,Nat.mul_add_div hbs,Nat.div_eq_of_lt (by omega : F.bsize-1 < F.bsize),Nat.add_zero]
    · refine ⟨0,by rw [if_neg hoff],?_⟩
      have heq : o-1 = F.bsize*(o/F.bsize)+(o%F.bsize-1) := by omega
      have hlt : o%F.bsize-1 < F.bsize := lt_of_le_of_lt (Nat.sub_le _ _) (Nat.mod_lt _ hbs)
      rw [heq,Nat.mul_add_div hbs,Nat.div_eq_of_lt hlt]
      rfl

/-- The place of the last byte of a read within a cluster is in that cluster. -/
theorem div_last {o n : ℕ} (hn : 0 < n) (hin : o%F.bsize+n ≤ F.bsize) : (o+n-1)/F.bsize = o/F.bsize := by
  have hdiv := Nat.div_add_mod o F.bsize
  have heq : o+n-1 = F.bsize*(o/F.bsize)+(o%F.bsize+(n-1)) := by omega
  rw [heq,Nat.mul_add_div bsize_pos,Nat.div_eq_of_lt (by omega : o%F.bsize+(n-1) < F.bsize),Nat.add_zero]

/-- One turn of the loop of `dos_read` for each cluster: what is wanted of the bytes of the file is stored. -/
theorem readLoop_spec {c off cnt o : ℕ} (fuel fc : ℕ) (data : List UInt8) (hfuel : cnt < fuel) (hb : F.vol.Cached b)
    (hle : o+cnt ≤ F.size) (hoff : cnt ≠ 0 → off = o%F.bsize) (hc : c = 0 ∨ 0 < o ∧ c = F.nth ((o-1)/F.bsize))
    (hfit : F.ReadFits c o (o+cnt)) :
    ∃ f' b', F.vol.readLoop F.clus fuel c off cnt ⟨o,fc⟩ data b = some (0,0,data ++ (F.content.drop o).take cnt,f',b') ∧
      f'.offset = o+cnt ∧ F.vol.Cached b' ∧ f'.c = if cnt = 0 then fc else F.nth ((o+cnt-1)/F.bsize) := by
  induction fuel generalizing c off cnt o fc data b with
  | zero => omega
  | succ fuel ih =>
    by_cases hcnt : cnt = 0
    · subst hcnt
      refine ⟨⟨o,fc⟩,b,?_,rfl,hb,rfl⟩
      rw [DosVol.readLoop,if_pos rfl,List.take_zero,List.append_nil]
    have ho : o < F.size := by omega
    have hclus : F.clus ≠ 0 := by
      intro h0
      have hz := F.start_iff.mp h0
      change F.size = 0 at hz
      omega
    have hbs := bsize_pos (F := F)
    obtain ⟨hlo,-⟩ := F.chain _ (div_lt_size ho)
    change loclus ≤ F.nth (o/F.bsize) at hlo
    have hne : F.nth (o/F.bsize) ≠ 0 := by
      have : loclus = 2 := rfl
      omega
    have hdata : 512*dataStart F.vol.dev F.vol.fs < 2^32 := by
      have hplace := hfit.place o le_rfl (by omega)
      rw [place,DosVol.clusAt] at hplace
      omega
    have hmod : o%F.bsize < F.bsize := Nat.mod_lt _ hbs
    rw [hoff hcnt]
    obtain ⟨n,hlinks,hn⟩ := links_spec fc hclus hc
    obtain ⟨b₁,hchase,hb₁⟩ := chase_spec hdata (n := n) (i := F.firstLink c o) hb fun j h₁ h₂ => by
      have hj : (j+1)*F.bsize ≤ o := (Nat.mul_le_mul_right _ (by omega : j+1 ≤ o/F.bsize)).trans (Nat.div_mul_le_self _ _)
      obtain ⟨hx,hclear⟩ := hfit.link j h₁ (by omega)
      exact ⟨by omega,hx,hclear⟩
    rw [hn] at hchase
    generalize hm : (if F.clus = 0 ∨ cnt < F.vol.fs.bsize-o%F.bsize then cnt else F.vol.fs.bsize-o%F.bsize) = m
    have hbsize : F.vol.fs.bsize = F.bsize := rfl
    have hmin : m = min cnt (F.bsize-o%F.bsize) := by
      rw [← hm,hbsize]
      split_ifs with hlast
      · have hcl := hlast.resolve_left hclus
        omega
      · rw [not_or] at hlast
        omega
    have hmpos : 0 < m := by omega
    have hin : o%F.bsize+m ≤ F.bsize := by omega
    obtain ⟨hbytes,hb₂⟩ := ioread_place hb₁ hmpos hin (fun j h₁ h₂ => hfit.place j h₁ (by omega))
    rw [← content_take (by omega)] at hbytes
    have hlt : o+m < 2^32 := by
      have hsize : F.size < 2^32 := leGet_lt F.de 28 4
      omega
    have hlast := div_last hmpos hin
    have hdiv := Nat.div_add_mod o F.bsize
    have hnext : cnt-m ≠ 0 → 0 = (o+m)%F.bsize := by
      intro hmore
      have heq : o+m = F.bsize*(o/F.bsize+1) := by
        rw [Nat.mul_succ]
        omega
      rw [heq,Nat.mul_mod_right]
    have hfit' : F.ReadFits (F.nth (o/F.bsize)) (o+m) (o+m+(cnt-m)) := by
      refine ⟨fun j h₁ h₂ => hfit.place j (by omega) (by omega),fun i h₁ h₂ => hfit.link i ?_ (by omega)⟩
      rw [firstLink,if_neg hne,hlast] at h₁
      omega
    obtain ⟨f',b',hrun,hoffset,hb',hc'⟩ := ih (F.nth (o/F.bsize))
      (data ++ (F.content.drop o).take m) (by omega : cnt-m < fuel) hb₂ (by omega) hnext
      (.inr ⟨by omega,by rw [hlast]⟩) hfit'
    refine ⟨f',b',?_,by omega,hb',?_⟩
    · rw [DosVol.readLoop,if_neg hcnt,hlinks]
      dsimp only
      rw [hchase]
      dsimp only
      rw [hm,if_pos hne,hbytes,Nat.mod_eq_of_lt hlt,hrun,List.append_assoc,take_drop_append _ _ (by omega : m ≤ cnt)]
    · rw [hc',if_neg hcnt]
      split_ifs with hend
      · rw [show cnt = m by omega,hlast]
      · rw [show o+m+(cnt-m)-1 = o+cnt-1 by omega]

theorem fsize_spec (fuel : ℕ) (b : DosBuf) : F.vol.fsize fuel F.de b = some ((F.size : ℤ),b) := by
  rw [DosVol.fsize,if_neg (fun h => h.2 F.regular)]
  rfl

/-- One read stores the bytes of the file from the position on, and leaves the file open behind them. -/
theorem dosRead_spec {fuel nbyte p : ℕ} {s : DosFile × DosBuf} (hfuel : 2^32 ≤ fuel) (h : F.Open s p)
    (hok : F.CallFits s (.read nbyte)) :
    let got := (F.content.drop p).take nbyte
    ∃ f' b', F.vol.dosRead fuel F.de nbyte s.1 s.2 = some (⟨0,got,some (nbyte-got.length)⟩,f',b') ∧
      F.Open (f',b') (p+got.length) := by
  obtain ⟨⟨o,fc⟩,b⟩ := s
  obtain ⟨rfl,hle,hb,hc⟩ := h
  dsimp only at hle hc hb ⊢
  obtain ⟨hsmall,hfit⟩ := hok
  dsimp only at hfit
  have hsize : F.size < 2^32 := leGet_lt F.de 28 4
  have hlen : ((F.content.drop o).take nbyte).length = min nbyte (F.size-o) := by
    rw [List.length_take,List.length_drop,content_length]
  have htake : (F.content.drop o).take (min nbyte (F.size-o)) = (F.content.drop o).take nbyte := by
    rw [← content_length,← List.length_drop,← List.take_eq_take_min]
  have hnb : min (nbyte%2^32) (((F.size : ℤ)-(o : ℕ))%2^32).toNat = min nbyte (F.size-o) := by
    rw [Nat.mod_eq_of_lt hsmall,Int.emod_eq_of_lt (by omega) (by omega)]
    omega
  have hoff : min nbyte (F.size-o) ≠ 0 → (if F.clus ≠ 0 then o%F.vol.fs.bsize else o) = o%F.bsize := by
    intro hpos
    refine if_pos fun h0 => ?_
    have hz := F.start_iff.mp h0
    change F.size = 0 at hz
    omega
  obtain ⟨f',b',hrun,hoffset,hb',hc'⟩ := readLoop_spec fuel fc [] (by omega) hb (by omega) hoff hc hfit
  rw [List.nil_append,htake] at hrun
  refine ⟨f',b',?_,?_⟩
  · rw [DosVol.dosRead,fsize_spec]
    dsimp only
    rw [if_neg (by omega),hnb,show stclus F.vol.fs.fatsz F.de = F.clus from rfl,hrun]
    dsimp only
    rw [hlen,Nat.add_zero]
  · rw [hlen]
    refine ⟨hoffset,by omega,hb',?_⟩
    dsimp only
    rw [hc']
    split_ifs with h0
    · rw [h0]
      exact hc
    · exact .inr ⟨by omega,rfl⟩

theorem dosSeek_spec {p : ℕ} {s : DosFile × DosBuf} (h : F.Open s p) (fuel : ℕ) (offset : ℤ) (whence : Whence) :
    (F.step fuel s (.seek offset whence)).1 = (F.fileCall p (.seek offset whence)).1 ∧
      F.Open (F.step fuel s (.seek offset whence)).2 (F.fileCall p (.seek offset whence)).2 := by
  obtain ⟨⟨o,fc⟩,b⟩ := s
  obtain ⟨rfl,hle,hb,hc⟩ := h
  dsimp only at hle hc hb
  have hseek : DosVol.dosSeek F.de offset whence ⟨o,fc⟩ =
      if F.seekFrom o whence+offset < 0 ∨ (F.size : ℤ) < F.seekFrom o whence+offset then (-1,⟨o,fc⟩)
      else (F.seekFrom o whence+offset,⟨(F.seekFrom o whence+offset).toNat,0⟩) := by
    cases whence <;> rfl
  simp only [step,fileCall,hseek]
  split_ifs with hout
  · exact ⟨rfl,rfl,hle,hb,hc⟩
  · rw [not_or] at hout
    exact ⟨rfl,rfl,by omega,hb,.inl rfl⟩

/-- Along reads and seeks that meet `CallFits` the open file answers as its bytes do. -/
theorem dos_file_reads (F : DosRegular) (b : DosBuf) (hb : F.vol.Cached b) (fuel : ℕ) (hfuel : 2^32 ≤ fuel)
    (calls : List DosCall) (hok : Along (F.step fuel) F.CallFits (⟨0,0⟩,b) calls) :
    answers (F.step fuel) (⟨0,0⟩,b) calls = answers F.fileCall 0 calls := by
  refine answers_eq F.Open ?_ calls _ _ ⟨rfl,Nat.zero_le _,hb,.inl rfl⟩ hok
  intro s p call h hcall
  cases call with
  | read nbyte =>
    obtain ⟨f',b',hrun,hopen⟩ := dosRead_spec hfuel h hcall
    simp only [step,hrun,fileCall]
    exact ⟨trivial,hopen⟩
  | seek offset whence => exact dosSeek_spec h fuel offset whence

end DosRegular
/-- A FAT32 volume of 40 sectors: the FAT is sector 1, and the link of cluster 3 is 4 with a reserved bit set. -/
def reservedDev (a : ℕ) : UInt8 :=
  ([(0,0xeb),(2,0x90),(12,2),(13,1),(14,1),(16,1),(19,40),(21,0xf8),(36,1),(44,2),(524,4),(527,0x10)].lookup a).getD 0

def reservedVol : DosVol := ⟨⟨1,512,9,0,1,2,1,2,2,32,39⟩,reservedDev⟩

/-- The entry of a file from cluster 3 on, of fewer than `2^16` bytes. -/
def smallEntry (size : ℕ) (j : ℕ) : UInt8 :=
  ([(26,3),(28,UInt8.ofNat size),(29,UInt8.ofNat (size/256))].lookup j).getD 0

theorem parsebs_reserved : parsebs reservedDev = some reservedVol.fs := by decide

theorem link_reserved : reservedVol.fatLink 3 = 4 := by decide

/-- A file of 600 bytes in the clusters 3 and 4. -/
def linkedFile : DosRegular where
  vol := reservedVol
  de := smallEntry 600
  parsed := parsebs_reserved
  regular := by decide
  start_iff := by decide
  start_ok := by decide
  chain := by
    intro i hi
    have hi' : i*512 < 600 := hi
    have hlt : i < 2 := by omega
    interval_cases i
    · decide
    · change loclus ≤ reservedVol.fatLink 3 ∧ reservedVol.fs.entryOffset (reservedVol.fatLink 3)+_ ≤ _
      rw [link_reserved]
      decide

/-- A file of 10 bytes in the cluster 3. -/
def shortFile : DosRegular where
  vol := reservedVol
  de := smallEntry 10
  parsed := parsebs_reserved
  regular := by decide
  start_iff := by decide
  start_ok := by decide
  chain := by
    intro i hi
    have hi' : i*512 < 10 := hi
    obtain rfl : i = 0 := by omega
    decide

theorem dos_file_reads_short :
    answers (shortFile.step (2^32)) (⟨0,0⟩,⟨reservedVol.ioget 0,0⟩) [.seek 1 .set,.read 4] =
      answers shortFile.fileCall 0 [.seek 1 .set,.read 4] := by
  refine shortFile.dos_file_reads _ (fun _ _ => rfl) (2^32) le_rfl _ ⟨trivial,⟨by norm_num,?_,?_⟩,trivial⟩
  · intro j h₁ h₂
    have h₁' : 1 ≤ j := h₁
    have h₂' : j < 5 := h₂
    interval_cases j <;> decide
  · intro i _ h₂
    have h₂' : (i+1)*512 < 5 := h₂
    omega

/-- The second cluster of a file is not found, as its link is taken with the reserved bits. -/
theorem dos_read_reserved :
    answers (linkedFile.step 3) (⟨0,0⟩,⟨reservedVol.ioget 0,0⟩) [.read 600] ≠ answers linkedFile.fileCall 0 [.read 600] := by
  decide

end Blub.Stand
