import Blub.Stand.Cd9660Compare

/-! The search of a directory of an ISO 9660 volume: which record it comes to, and when it stays in the block that is in
its buffer. -/
namespace Blub.Stand
open Blub.Bytes Blub.Orbit

section Directory
variable (v : IsoVolume) (bno : ℕ) (path : List UInt8) (susp : ℕ)

/-- Records one after the other in a block, each with room for its name, and zeros behind the last one. The list has
their places. -/
inductive IsoRecords (b : ℕ → UInt8) : ℕ → List ℕ → Prop
  | nil {o : ℕ} (ho : o ≤ isoBlock) (hzero : ∀ j, o ≤ j → j < isoBlock → b j = 0) : IsoRecords b o []
  | cons {o : ℕ} {l : List ℕ} (hname : 33+(b (o+32)).toNat ≤ (b o).toNat) (hin : o+(b o).toNat ≤ isoBlock)
    (hl : IsoRecords b (o+(b o).toNat) l) : IsoRecords b o (o :: l)

/-- The end of the last record of a block. -/
def recordsEnd (b : ℕ → UInt8) : ℕ → List ℕ → ℕ
  | o, [] => o
  | _, o :: l => recordsEnd b (o+(b o).toNat) l

/-- The block of a directory by its number. -/
def dirBlock (k : ℕ) : ℕ → UInt8 := v.sector (4*(bno+k))

/-- The records of the blocks of a directory, from one of its blocks on. -/
def IsoDirFrom : ℕ → List (List ℕ) → Prop
  | _, [] => True
  | k, offs :: blocks => IsoRecords (dirBlock v bno k) 0 offs ∧ IsoDirFrom (k+1) blocks

/-- A directory whose blocks are in sectors with 32-bit numbers, with its size in bytes. -/
structure IsoDir (dsize : ℕ) (blocks : List (List ℕ)) : Prop where
  size : dsize = isoBlock*blocks.length
  size_lt : dsize < 2^32
  reach : 4*(bno+blocks.length) ≤ 2^32
  records : IsoDirFrom v bno 0 blocks

/-- The first record of a block that matches, and the parameters after the comparison; nothing if one does not come
back. -/
def blockHit (b : ℕ → UInt8) : IsoFlags → List ℕ → Option (Option ℕ × IsoFlags)
  | fl, [] => some (none,fl)
  | fl, o :: l =>
    match compareRecord v path susp b fl o with
    | none => none
    | some (true,fl) => some (some o,fl)
    | some (false,fl) => blockHit b fl l

/-- The first record of a directory that matches: its block and its place there. -/
def dirHit : ℕ → IsoFlags → List (List ℕ) → Option (Option (ℕ × ℕ))
  | _, _, [] => some none
  | k, fl, offs :: blocks =>
    match blockHit v path susp (dirBlock v bno k) fl offs with
    | none => none
    | some (some o,_) => some (some (k,o))
    | some (none,fl) => dirHit (k+1) fl blocks

/-- Up to the first record of a block that matches, nothing behind the buffers is looked at to compare, and the first 34
bytes of that record, which are copied, are in the block. -/
def BlockInside (b : ℕ → UInt8) : IsoFlags → List ℕ → Prop
  | _, [] => True
  | fl, o :: l => CompareInside v path susp ⟨b,fun _ => 0,[]⟩ fl o ∧
    match compareRecord v path susp b fl o with
    | none => False
    | some (true,_) => o+34 ≤ isoBlock
    | some (false,fl) => BlockInside b fl l

/-- Up to the block with the match every comparison comes back and stays in the buffers, and no block is filled up to its
end. -/
def IsoUnfilled : ℕ → IsoFlags → List (List ℕ) → Prop
  | _, _, [] => True
  | k, fl, offs :: blocks => BlockInside v path susp (dirBlock v bno k) fl offs ∧
    match blockHit v path susp (dirBlock v bno k) fl offs with
    | none => False
    | some (some _,_) => True
    | some (none,fl) => recordsEnd (dirBlock v bno k) 0 offs ≠ isoBlock ∧ IsoUnfilled (k+1) fl blocks

attribute [local grind =] recordsEnd IsoDirFrom blockHit dirHit BlockInside IsoUnfilled

variable (dsize : ℕ)

def isoStep (s : IsoScan) : Option IsoScan :=
  match isoTurn v bno dsize path susp s with
  | some (.next s) => some s
  | _ => none

/-- What a turn examines of a record with a length is in the buffers: its name, all that is looked at to compare it, the
length of the next record, or the 34 bytes of the record found. -/
structure RecordInside (s s₁ : IsoScan) : Prop where
  name : s₁.dp+33+s₁.mem.recNameLen v s₁.dp ≤ isoBlock
  compared : CompareInside v path susp s₁.mem s₁.flags s₁.dp
  next : ∀ s', isoTurn v bno dsize path susp s = some (.next s') → s'.dp < isoBlock
  copied : ∀ s', isoTurn v bno dsize path susp s = some (.found s') → s'.dp+34 ≤ isoBlock

/-- What a turn examines is in the buffers: the length of the record, and more where it is not 0. -/
def IsoInside (s : IsoScan) : Prop := s.off < dsize → (isoLoad v bno s).1 = 0 →
  let s₁ := (isoLoad v bno s).2
  s₁.dp < isoBlock ∧ (s₁.mem.recLength v s₁.dp ≠ 0 → RecordInside v bno path susp dsize s s₁)

/-- The search comes back with a result, and every turn of it stays in the buffers. -/
structure ScanGood (s : IsoScan) (P : Except ℤ Unit → IsoScan → Prop) : Prop where
  returns : ∃ fuel out s', isoScanLoop v bno dsize path susp fuel s = some (out,s') ∧ P out s'
  inside : ∀ n x, orbit (isoStep v bno path susp dsize) s n = some x → IsoInside v bno path susp dsize x

/-- The first matching record is found, or none is there. -/
def IsoResult (hit : Option (ℕ × ℕ)) (out : Except ℤ Unit) (s : IsoScan) : Prop :=
  match hit with
  | some (k,o) => out = .ok () ∧ s.dp = o ∧ ∀ j < isoBlock, s.mem.buf j = dirBlock v bno k j
  | none => out = .error enoent

/-- `cd9660_open` finds a component in a directory if and only if a record matches, the first one that does. -/
def ScanRight (blocks : List (List ℕ)) (s : IsoScan) : Prop :=
  ∃ hit, dirHit v bno path susp 0 s.flags blocks = some hit ∧ ScanGood v bno path susp dsize s (IsoResult v bno hit)

end Directory

section Turns
variable {v : IsoVolume} {bno : ℕ} {path : List UInt8} {susp dsize : ℕ} {s s' : IsoScan}
  {P : Except ℤ Unit → IsoScan → Prop}

theorem good_none (h : isoTurn v bno dsize path susp s = none) : ¬ScanGood v bno path susp dsize s P := by
  rintro ⟨⟨fuel,out,s',hrun,-⟩,-⟩
  cases fuel with
  | zero => cases hrun
  | succ fuel => rw [isoScanLoop,h] at hrun; cases hrun

/-- A turn that ends the search. -/
theorem good_last {out : Except ℤ Unit} (hstep : isoStep v bno path susp dsize s = none)
    (h : ∀ fuel, isoScanLoop v bno dsize path susp (fuel+1) s = some (out,s')) :
    ScanGood v bno path susp dsize s P ↔ IsoInside v bno path susp dsize s ∧ P out s' := by
  constructor
  · rintro ⟨⟨fuel,out',s₁,hrun,hP⟩,hin⟩
    cases fuel with
    | zero => cases hrun
    | succ fuel =>
      rw [h] at hrun
      cases hrun
      exact ⟨hin 0 s rfl,hP⟩
  · rintro ⟨hin,hP⟩
    refine ⟨⟨1,out,s',h 0,hP⟩,fun n x hx => ?_⟩
    cases n with
    | zero => cases hx; exact hin
    | succ n =>
      rw [orbit_none (by rw [orbit_succ orbit_zero,hstep]) (Nat.succ_le_succ (Nat.zero_le n))] at hx
      cases hx

theorem good_next (h : isoTurn v bno dsize path susp s = some (.next s')) :
    ScanGood v bno path susp dsize s P ↔ IsoInside v bno path susp dsize s ∧ ScanGood v bno path susp dsize s' P := by
  have hstep : isoStep v bno path susp dsize s = some s' := by rw [isoStep,h]
  constructor
  · rintro ⟨⟨fuel,out,s₁,hrun,hP⟩,hin⟩
    cases fuel with
    | zero => cases hrun
    | succ fuel =>
      rw [isoScanLoop,h] at hrun
      exact ⟨hin 0 s rfl,⟨fuel,out,s₁,hrun,hP⟩,fun n x hx => hin (n+1) x (by rw [orbit_step hstep,hx])⟩
  · rintro ⟨hin,⟨⟨fuel,out,s₁,hrun,hP⟩,hin'⟩⟩
    refine ⟨⟨fuel+1,out,s₁,by rw [isoScanLoop,h]; exact hrun,hP⟩,fun n x hx => ?_⟩
    cases n with
    | zero => cases hx; exact hin
    | succ n =>
      rw [orbit_step hstep] at hx
      exact hin' n x hx

end Turns

/-- Block `k` is in the buffer, and the next record to look at is at `d`. -/
structure IsoLoaded (v : IsoVolume) (bno k d : ℕ) (s : IsoScan) : Prop where
  boff : s.boff = k+1
  dp : s.dp = d
  io : s.mem.io = []
  buf : ∀ j < isoBlock, s.mem.buf j = dirBlock v bno k j

section Block
variable {v : IsoVolume} {bno : ℕ} {path : List UInt8} {susp dsize : ℕ} {s s₁ : IsoScan} {k d : ℕ}
  {P : Except ℤ Unit → IsoScan → Prop}

theorem IsoMem.num711_block {m : IsoMem} {b : ℕ → UInt8} (h : ∀ j < isoBlock, m.buf j = b j) {j : ℕ} (hj : j < isoBlock) :
    m.num711 v .block j = (b j).toNat := by
  rw [IsoMem.num711,IsoMem.byteAt,if_pos ⟨Int.natCast_nonneg j,by exact_mod_cast hj⟩]
  exact congrArg UInt8.toNat (h j hj)

theorem IsoLoaded.recLength (h : IsoLoaded v bno k d s₁) (hd : d < isoBlock) :
    s₁.mem.recLength v s₁.dp = (dirBlock v bno k d).toNat := by
  rw [h.dp]
  exact IsoMem.num711_block h.buf hd

theorem IsoLoaded.recNameLen (h : IsoLoaded v bno k d s₁) (hd : d+32 < isoBlock) :
    s₁.mem.recNameLen v s₁.dp = (dirBlock v bno k (d+32)).toNat := by
  rw [h.dp]
  exact IsoMem.num711_block h.buf (j := d+32) hd

variable (hoff : s.off < dsize) (hload : isoLoad v bno s = (0,s₁)) (h : IsoLoaded v bno k d s₁)
include hoff hload h

/-- Behind the last record the next block is next. -/
theorem turn_zero (hd : d < isoBlock) (hzero : dirBlock v bno k d = 0) :
    ScanGood v bno path susp dsize s P ↔
      ScanGood v bno path susp dsize {s₁ with off := s₁.boff*isoBlock%2^32} P := by
  have hlen := h.recLength hd
  rw [hzero,UInt8.toNat_zero] at hlen
  have hturn : isoTurn v bno dsize path susp s = some (.next {s₁ with off := s₁.boff*isoBlock%2^32}) := by
    rw [isoTurn,if_pos hoff,hload]
    dsimp only
    rw [if_neg (by simp),if_pos hlen]
  rw [good_next hturn,and_iff_right_iff_imp]
  intro _ _ _
  rw [hload]
  exact ⟨h.dp ▸ hd,fun hne => absurd hlen hne⟩

variable {l : List ℕ} (hrec : IsoRecords (dirBlock v bno k) d (d :: l))
include hrec

/-- A turn at a record, by what is said of the record. -/
theorem turn_record :
    compareRecord v path susp (dirBlock v bno k) s₁.flags d = none ∧ isoTurn v bno dsize path susp s = none ∨
    ∃ hit fl m, compareRecord v path susp (dirBlock v bno k) s₁.flags d = some (hit,fl) ∧
      isoTurn v bno dsize path susp s = some (recordTurn v s₁ hit fl m) ∧ m.io = [] ∧ m.buf = s₁.mem.buf := by
  cases hrec with
  | cons hname hin hl =>
    have hlen := h.recLength (by omega)
    have hturn : isoTurn v bno dsize path susp s = isoRecord v path susp s₁ := by
      rw [isoTurn,if_pos hoff,hload]
      dsimp only
      rw [if_neg (by simp),if_neg (by omega)]
    rw [hturn,← compareRecord_congr h.buf,← h.dp]
    exact isoRecord_spec h.io

/-- A turn at a record stays in the buffers exactly where the comparison does, and what follows it. -/
theorem record_inside_iff : IsoInside v bno path susp dsize s ↔
    CompareInside v path susp ⟨dirBlock v bno k,fun _ => 0,[]⟩ s₁.flags d ∧
    (∀ s', isoTurn v bno dsize path susp s = some (.next s') → s'.dp < isoBlock) ∧
    ∀ s', isoTurn v bno dsize path susp s = some (.found s') → s'.dp+34 ≤ isoBlock := by
  have hsame : CompareInside v path susp s₁.mem s₁.flags s₁.dp ↔
      CompareInside v path susp ⟨dirBlock v bno k,fun _ => 0,[]⟩ s₁.flags d := by
    rw [h.dp]
    exact compareInside_congr ⟨h.io,rfl,h.buf⟩
  cases hrec with
  | cons hname hin hl =>
    rw [← hsame]
    constructor
    · intro hinside
      have hne : s₁.mem.recLength v s₁.dp ≠ 0 := by
        rw [h.recLength (by omega)]
        omega
      have hrecord := (hinside hoff (by rw [hload])).2 (by rwa [hload])
      rw [hload] at hrecord
      exact ⟨hrecord.compared,hrecord.next,hrecord.copied⟩
    · rintro ⟨hcompared,hnext,hcopied⟩ - -
      rw [hload]
      dsimp only
      have hplace := h.dp
      refine ⟨by omega,fun _ => ⟨?_,hcompared,hnext,hcopied⟩⟩
      rw [h.recNameLen (by omega)]
      omega

/-- A record that matches is found. -/
theorem turn_hit {fl : IsoFlags} (hcmp : compareRecord v path susp (dirBlock v bno k) s₁.flags d = some (true,fl)) :
    ScanGood v bno path susp dsize s (IsoResult v bno (some (k,d))) ↔
      CompareInside v path susp ⟨dirBlock v bno k,fun _ => 0,[]⟩ s₁.flags d ∧ d+34 ≤ isoBlock := by
  obtain ⟨hnone,-⟩ | ⟨hit,fl',m,hsome,hturn,-,hbuf⟩ := turn_record hoff hload h hrec
  · rw [hcmp] at hnone; cases hnone
  · rw [hcmp] at hsome
    cases hsome
    have hstep : isoStep v bno path susp dsize s = none := by rw [isoStep,hturn]; rfl
    have hplace : (s₁.after fl m).dp = d := h.dp
    have hresult : IsoResult v bno (some (k,d)) (.ok ()) (s₁.after fl m) :=
      ⟨rfl,hplace,fun j hj => (congrFun hbuf j).trans (h.buf j hj)⟩
    rw [@good_last v bno path susp dsize s (s₁.after fl m) _ (.ok ()) hstep fun fuel => by rw [isoScanLoop,hturn]; rfl,
      and_iff_left hresult,record_inside_iff hoff hload h hrec,hturn]
    refine and_congr_right fun _ => ⟨fun hin => hplace ▸ hin.2 _ rfl,fun hd => ⟨fun s' hs' => ?_,fun s' hs' => ?_⟩⟩
    · cases hs'
    · cases hs'
      rwa [hplace]

/-- A record that does not match: the next place to look at is behind it, and is to be in the buffer. -/
theorem turn_miss {fl : IsoFlags} (hcmp : compareRecord v path susp (dirBlock v bno k) s₁.flags d = some (false,fl)) :
    ∃ s', IsoLoaded v bno k (d+(dirBlock v bno k d).toNat) s' ∧ s'.flags = fl ∧
      (d+(dirBlock v bno k d).toNat < isoBlock →
        s'.off = s₁.off+(dirBlock v bno k (d+(dirBlock v bno k d).toNat)).toNat) ∧
      ∀ P, ScanGood v bno path susp dsize s P ↔
        CompareInside v path susp ⟨dirBlock v bno k,fun _ => 0,[]⟩ s₁.flags d ∧
        d+(dirBlock v bno k d).toNat < isoBlock ∧ ScanGood v bno path susp dsize s' P := by
  obtain ⟨hnone,-⟩ | ⟨hit,fl',m,hsome,hturn,hio,hbuf⟩ := turn_record hoff hload h hrec
  · rw [hcmp] at hnone; cases hnone
  · rw [hcmp] at hsome
    cases hsome
    have hbytes : ∀ j < isoBlock, m.buf j = dirBlock v bno k j := fun j hj => (congrFun hbuf j).trans (h.buf j hj)
    have hd : d < isoBlock := by
      cases hrec with
      | cons hname hin hl => omega
    have hlen : m.recLength v s₁.dp = (dirBlock v bno k d).toNat := by
      rw [h.dp]
      exact IsoMem.num711_block hbytes hd
    rw [recordTurn,if_neg Bool.false_ne_true,hlen,h.dp] at hturn
    refine ⟨{s₁.after fl m with
      dp := d+(dirBlock v bno k d).toNat
      off := s₁.off+m.recLength v ((d+(dirBlock v bno k d).toNat : ℕ) : ℤ)},⟨h.boff,rfl,hio,hbytes⟩,rfl,fun hlt => ?_,?_⟩
    · exact congrArg (s₁.off+·) (IsoMem.num711_block hbytes hlt)
    · intro P
      rw [good_next hturn,record_inside_iff hoff hload h hrec,hturn,and_assoc]
      refine and_congr_right fun _ => and_congr_left fun _ => ⟨fun hin => hin.1 _ rfl,fun hlt => ⟨fun s' hs' => ?_,?_⟩⟩
      · obtain rfl := IsoTurn.next.inj (Option.some.inj hs')
        exact hlt
      · intro s' hs'
        cases hs'

end Block

section Blocks
variable {v : IsoVolume} {bno : ℕ} {path : List UInt8} {susp dsize : ℕ} {s s₁ : IsoScan} {k d o l₁ : ℕ}
  {P : Except ℤ Unit → IsoScan → Prop}

/-- The search is about to read block `k`. -/
structure AtBlock (k o : ℕ) (s : IsoScan) : Prop where
  off : s.off = o
  boff : s.boff = k
  io : s.mem.io = []
  whole : o%isoBlock = 0

theorem AtBlock.load (h : AtBlock k o s) (hreach : 4*(bno+k) < 2^32) :
    ∃ s₁, isoLoad v bno s = (0,s₁) ∧ IsoLoaded v bno k 0 s₁ ∧ s₁.off = o ∧ s₁.flags = s.flags := by
  have hsec : cdb2devb (((bno+k)%2^32 : ℕ) : ℤ) = 4*(bno+k) := by
    rw [cdb2devb]
    omega
  refine ⟨⟨s.off,s.boff+1,0,s.first,s.useRrip,s.lenskip,
    ⟨blit s.mem.buf 0 isoBlock (dirBlock v bno k),s.mem.susp,[]⟩⟩,?_,⟨by rw [h.boff],rfl,rfl,fun j hj => ?_⟩,h.off,rfl⟩
  · rw [isoLoad,if_pos (by rw [h.off,h.whole]),isoRead,h.boff,hsec,h.io]
    simp only [List.headD_nil,List.tail_nil,strategy]
    rfl
  · exact (blit_inside (Nat.zero_le j) (by omega)).trans (by rw [Nat.sub_zero])

/-- Inside of a block nothing is read. -/
theorem load_none (h : s.off%isoBlock ≠ 0) : isoLoad v bno s = (0,s) := by rw [isoLoad,if_neg h]

/-- A record that does not match and the rest of the block behind it. -/
theorem rest_of_record {b : ℕ → UInt8} {C : Prop} {s s' : IsoScan} {e : ℕ} {fl : IsoFlags} {l : List ℕ}
    {Next : IsoScan → Prop} (hend : e < isoBlock)
    (hgood : ∀ P, ScanGood v bno path susp dsize s P ↔ C ∧ e < isoBlock ∧ ScanGood v bno path susp dsize s' P)
    (hrest : match blockHit v path susp b fl l with
      | none => ∀ P, ¬ScanGood v bno path susp dsize s' P
      | some (some o',_) => ScanGood v bno path susp dsize s' (IsoResult v bno (some (k,o'))) ↔
          BlockInside v path susp b fl l
      | some (none,fl') => ∃ s₂, Next s₂ ∧ s₂.flags = fl' ∧ ∀ P, ScanGood v bno path susp dsize s' P ↔
          BlockInside v path susp b fl l ∧ recordsEnd b e l ≠ isoBlock ∧ ScanGood v bno path susp dsize s₂ P) :
    match blockHit v path susp b fl l with
    | none => ∀ P, ¬ScanGood v bno path susp dsize s P
    | some (some o',_) => ScanGood v bno path susp dsize s (IsoResult v bno (some (k,o'))) ↔
        C ∧ BlockInside v path susp b fl l
    | some (none,fl') => ∃ s₂, Next s₂ ∧ s₂.flags = fl' ∧ ∀ P, ScanGood v bno path susp dsize s P ↔
        (C ∧ BlockInside v path susp b fl l) ∧ recordsEnd b e l ≠ isoBlock ∧ ScanGood v bno path susp dsize s₂ P := by
  cases hb : blockHit v path susp b fl l with
  | none =>
    rw [hb] at hrest
    exact fun P hs => hrest P ((hgood P).mp hs).2.2
  | some r =>
    obtain ⟨found,fl'⟩ := r
    rw [hb] at hrest
    cases found with
    | some o' => exact (hgood _).trans (and_congr_right fun _ => (and_iff_right hend).trans hrest)
    | none =>
      obtain ⟨s₂,hnext,hfl,hiff⟩ := hrest
      refine ⟨s₂,hnext,hfl,fun P => ?_⟩
      rw [hgood P,and_iff_right hend,hiff P,and_assoc]

/-- The rest of a block, from its second record on: the offset is short by the length of the first record. -/
theorem rest_good {l : List ℕ} (h : IsoLoaded v bno k d s) (hrec : IsoRecords (dirBlock v bno k) d l) (hd : d < isoBlock)
    (hoff : s.off+l₁ = o+d+(dirBlock v bno k d).toNat) (hl₁ : 0 < l₁) (hle : l₁ ≤ d) (hne : l ≠ [] ∨ l₁ < d)
    (hwhole : o%isoBlock = 0) (hsize : o+isoBlock ≤ dsize) (hk : (k+1)*isoBlock < 2^32) :
    match blockHit v path susp (dirBlock v bno k) s.flags l with
    | none => ∀ P, ¬ScanGood v bno path susp dsize s P
    | some (some o',_) => ScanGood v bno path susp dsize s (IsoResult v bno (some (k,o'))) ↔
        BlockInside v path susp (dirBlock v bno k) s.flags l
    | some (none,fl) => ∃ s', AtBlock (k+1) ((k+1)*isoBlock) s' ∧ s'.flags = fl ∧
      ∀ P, ScanGood v bno path susp dsize s P ↔ BlockInside v path susp (dirBlock v bno k) s.flags l ∧
        recordsEnd (dirBlock v bno k) d l ≠ isoBlock ∧ ScanGood v bno path susp dsize s' P := by
  have hnow : 0 < isoBlock := by decide
  induction l generalizing d s with
  | nil =>
    cases hrec with
    | nil ho hzero =>
      have hz := hzero d le_rfl hd
      rw [hz,UInt8.toNat_zero] at hoff
      have hlt : l₁ < d := hne.resolve_left fun h => h rfl
      have hmid : s.off%isoBlock ≠ 0 := by
        rw [show s.off = o+(d-l₁) by omega,Nat.add_mod,hwhole,Nat.zero_add,Nat.mod_mod,Nat.mod_eq_of_lt (by omega)]
        omega
      refine ⟨{s with off := s.boff*isoBlock%2^32},⟨?_,h.boff,h.io,Nat.mul_mod_left _ _⟩,rfl,fun P => ?_⟩
      · dsimp only
        rw [h.boff,Nat.mod_eq_of_lt hk]
      · rw [turn_zero (by omega) (load_none hmid) h hd hz]
        exact ((and_iff_right trivial).trans (and_iff_right hd.ne)).symm
  | cons d' l ih =>
    obtain ⟨rfl,hname,hin,hl⟩ : d' = d ∧ 33+(dirBlock v bno k (d+32)).toNat ≤ (dirBlock v bno k d).toNat ∧
        d+(dirBlock v bno k d).toNat ≤ isoBlock ∧ IsoRecords (dirBlock v bno k) (d+(dirBlock v bno k d).toNat) l := by
      cases hrec with
      | cons hname hin hl => exact ⟨rfl,hname,hin,hl⟩
    have hmid : s.off%isoBlock ≠ 0 := by
      rw [show s.off = o+(d'+(dirBlock v bno k d').toNat-l₁) by omega,Nat.add_mod,hwhole,Nat.zero_add,Nat.mod_mod,
        Nat.mod_eq_of_lt (by omega)]
      omega
    have hlt : s.off < dsize := by omega
    have hload := @load_none v bno s hmid
    rw [blockHit,recordsEnd,BlockInside]
    cases hcmp : compareRecord v path susp (dirBlock v bno k) s.flags d' with
    | none =>
      obtain ⟨-,hturn⟩ | ⟨hit,fl,m,hsome,-⟩ := @turn_record v bno path susp dsize s s k d' hlt hload h l hrec
      · exact fun P => good_none hturn
      · rw [hcmp] at hsome; cases hsome
    | some r =>
      obtain ⟨hit,fl⟩ := r
      cases hit with
      | true => exact turn_hit hlt hload h hrec hcmp
      | false =>
        obtain ⟨s',hs',hfl,hoff',hgood⟩ := turn_miss hlt hload h hrec hcmp
        dsimp only
        by_cases hend : d'+(dirBlock v bno k d').toNat < isoBlock
        · have hnext := ih hs' hl hend (by rw [hoff' hend]; omega) (by omega) (.inr (by omega))
          rw [hfl] at hnext
          exact rest_of_record hend hgood hnext
        · -- the last record fills the block, and the length behind it is looked at
          obtain rfl : l = [] := by
            cases hl with
            | nil ho hzero => rfl
            | cons hname' hin' hl' => omega
          refine ⟨{s' with off := (k+1)*isoBlock},⟨rfl,hs'.boff,hs'.io,Nat.mul_mod_left _ _⟩,hfl,fun P => ?_⟩
          rw [hgood P,recordsEnd]
          constructor
          · rintro ⟨-,hlt,-⟩
            exact absurd hlt hend
          · rintro ⟨-,hne,-⟩
            omega

/-- A whole block. After a block with one record the offset stays where the block began. -/
theorem block_good {offs : List ℕ} (h : AtBlock k o s) (hreach : 4*(bno+k) < 2^32)
    (hrec : IsoRecords (dirBlock v bno k) 0 offs) (hsize : o+isoBlock ≤ dsize) (hk : (k+1)*isoBlock < 2^32) :
    match blockHit v path susp (dirBlock v bno k) s.flags offs with
    | none => ∀ P, ¬ScanGood v bno path susp dsize s P
    | some (some o',_) => ScanGood v bno path susp dsize s (IsoResult v bno (some (k,o'))) ↔
        BlockInside v path susp (dirBlock v bno k) s.flags offs
    | some (none,fl) => ∃ s', AtBlock (k+1) (if offs.length = 1 then o else (k+1)*isoBlock) s' ∧ s'.flags = fl ∧
      ∀ P, ScanGood v bno path susp dsize s P ↔ BlockInside v path susp (dirBlock v bno k) s.flags offs ∧
        recordsEnd (dirBlock v bno k) 0 offs ≠ isoBlock ∧ ScanGood v bno path susp dsize s' P := by
  have hnow : 0 < isoBlock := by decide
  have hlt : s.off < dsize := by rw [h.off]; omega
  obtain ⟨s₁,hload,hs₁,hoff₁,hfl₁⟩ := h.load (v := v) hreach
  rw [← hfl₁]
  cases offs with
  | nil =>
    have hz : dirBlock v bno k 0 = 0 := by
      cases hrec with
      | nil ho hzero => exact hzero 0 le_rfl hnow
    refine ⟨{s₁ with off := s₁.boff*isoBlock%2^32},⟨?_,hs₁.boff,hs₁.io,?_⟩,rfl,fun P => ?_⟩
    · dsimp only
      rw [hs₁.boff,Nat.mod_eq_of_lt hk]
      rfl
    · exact Nat.mul_mod_left _ _
    · rw [turn_zero hlt hload hs₁ hnow hz]
      exact ((and_iff_right trivial).trans (and_iff_right hnow.ne)).symm
  | cons d offs =>
    obtain ⟨rfl,hname,hl⟩ : d = 0 ∧ 33+(dirBlock v bno k 32).toNat ≤ (dirBlock v bno k 0).toNat ∧
        IsoRecords (dirBlock v bno k) (dirBlock v bno k 0).toNat offs := by
      cases hrec with
      | cons hname hin hl => exact ⟨rfl,hname,by rwa [Nat.zero_add] at hl⟩
    have hend : (dirBlock v bno k 0).toNat < isoBlock := (UInt8.toNat_lt _).trans (by decide)
    have hzero : 0+(dirBlock v bno k 0).toNat = (dirBlock v bno k 0).toNat := Nat.zero_add _
    rw [blockHit,recordsEnd,BlockInside,hzero]
    cases hcmp : compareRecord v path susp (dirBlock v bno k) s₁.flags 0 with
    | none =>
      obtain ⟨-,hturn⟩ | ⟨hit,fl,m,hsome,-⟩ := @turn_record v bno path susp dsize s s₁ k 0 hlt hload hs₁ offs hrec
      · exact fun P => good_none hturn
      · rw [hcmp] at hsome; cases hsome
    | some r =>
      obtain ⟨hit,fl⟩ := r
      cases hit with
      | true => exact turn_hit hlt hload hs₁ hrec hcmp
      | false =>
        obtain ⟨s',hs',hfl,hoff',hgood⟩ := turn_miss hlt hload hs₁ hrec hcmp
        rw [Nat.zero_add] at hs' hoff' hgood
        have hoff' := hoff' hend
        dsimp only
        by_cases hone : offs = []
        · subst hone
          have hz : dirBlock v bno k (dirBlock v bno k 0).toNat = 0 := by
            cases hl with
            | nil ho hzero => exact hzero _ le_rfl hend
          rw [hz,UInt8.toNat_zero,Nat.add_zero,hoff₁] at hoff'
          refine ⟨s',⟨hoff',hs'.boff,hs'.io,h.whole⟩,hfl,fun P => ?_⟩
          rw [hgood P,recordsEnd,BlockInside,and_true]
          exact and_congr_right fun _ => and_congr_left fun _ => ⟨fun hlt => hlt.ne,fun _ => hend⟩
        · have hrest := @rest_good v bno path susp dsize s' k _ o (dirBlock v bno k 0).toNat offs hs' hl hend
            (by omega) (by omega) le_rfl (.inl hone) h.whole hsize hk
          have hlen : ¬offs.length+1 = 1 := fun h => hone (List.length_eq_zero_iff.mp (Nat.succ.inj h))
          rw [hfl] at hrest
          rw [List.length_cons,if_neg hlen]
          exact rest_of_record hend hgood hrest

/-- The blocks of a directory from one on. -/
theorem dir_good {blocks : List (List ℕ)} (h : AtBlock k o s) (hdir : IsoDirFrom v bno k blocks)
    (hsize : dsize = (k+blocks.length)*isoBlock) (hlt : dsize < 2^32) (hreach : 4*(bno+(k+blocks.length)) ≤ 2^32)
    (ho : o ≤ k*isoBlock) (hlast : dirHit v bno path susp k s.flags blocks = some none →
      (blocks = [] → o = k*isoBlock) ∧ ∀ offs, blocks.getLast? = some offs → offs.length ≠ 1) :
    (∃ hit, dirHit v bno path susp k s.flags blocks = some hit ∧ ScanGood v bno path susp dsize s (IsoResult v bno hit)) ↔
      IsoUnfilled v bno path susp k s.flags blocks := by
  induction blocks generalizing k o s with
  | nil =>
    have hoff : ¬s.off < dsize := by
      rw [h.off,(hlast rfl).1 rfl,hsize]
      exact lt_irrefl _
    have hturn : isoTurn v bno dsize path susp s = some (.failed enoent s) := by rw [isoTurn,if_neg hoff]
    simp only [dirHit,IsoUnfilled,iff_true,Option.some.injEq,exists_eq_left']
    exact (good_last (by rw [isoStep,hturn]) fun fuel => by rw [isoScanLoop,hturn]).mpr ⟨fun hlt => absurd hlt hoff,rfl⟩
  | cons offs blocks ih =>
    rw [List.length_cons] at hsize hreach
    have hnext : (k+1)*isoBlock ≤ dsize := by
      rw [hsize]
      exact Nat.mul_le_mul_right _ (by omega)
    have hblock := @block_good v bno path susp dsize s k o offs h (by omega) hdir.1
      ((Nat.add_le_add_right ho _).trans (by rw [← Nat.succ_mul]; exact hnext)) (lt_of_le_of_lt hnext hlt)
    rw [dirHit] at hlast ⊢
    rw [IsoUnfilled]
    cases hb : blockHit v path susp (dirBlock v bno k) s.flags offs with
    | none => simp
    | some r =>
      obtain ⟨found,fl⟩ := r
      rw [hb] at hblock hlast
      cases found with
      | some o' =>
        simp only [Option.some.injEq,exists_eq_left']
        exact hblock.trans (and_iff_left trivial).symm
      | none =>
        obtain ⟨s',hat,rfl,hiff⟩ := hblock
        dsimp only at hlast ⊢
        have hrest := ih hat hdir.2 (by rw [hsize]; congr 1; omega) (by omega) (by
          split_ifs
          · exact ho.trans (Nat.mul_le_mul_right _ (Nat.le_succ k))
          · exact le_rfl) fun hnone => by
            obtain ⟨-,hlen⟩ := hlast hnone
            constructor
            · rintro rfl
              exact if_neg (hlen offs rfl)
            · intro offs' hoffs'
              apply hlen
              rw [List.getLast?_cons,hoffs']
              rfl
        rw [← hrest]
        simp only [hiff]
        constructor
        · rintro ⟨hit,hsome,hin,hne,hgood⟩
          exact ⟨hin,hne,hit,hsome,hgood⟩
        · rintro ⟨hin,hne,hit,hsome,hgood⟩
          exact ⟨hit,hsome,hin,hne,hgood⟩

end Blocks

/-- Where the last block of a directory without a match has not just one record, the search is right exactly while the
comparisons stay in the buffers and no block that it goes through is filled up to its end. -/
theorem iso_scan_right_iff {v : IsoVolume} {bno dsize : ℕ} {path : List UInt8} {blocks : List (List ℕ)} {s : IsoScan}
    (hdir : IsoDir v bno dsize blocks) (hs : AtBlock 0 0 s)
    (hlast : ∀ susp, dirHit v bno path susp 0 s.flags blocks = some none →
      ∀ offs, blocks.getLast? = some offs → offs.length ≠ 1) :
    (∃ susp, ScanRight v bno path susp dsize blocks s) ↔ ∃ susp, IsoUnfilled v bno path susp 0 s.flags blocks := by
  apply exists_congr
  intro susp
  refine dir_good hs hdir.records ?_ hdir.size_lt ?_ (Nat.zero_le _) fun hnone => ⟨fun _ => ?_,hlast susp hnone⟩
  · rw [hdir.size,Nat.zero_add,Nat.mul_comm]
  · rw [Nat.zero_add]
    exact hdir.reach
  · rw [Nat.zero_mul]

section Packed

/-- A block of `n` records of 128 bytes with the name A. -/
def packedBlock (n j : ℕ) : UInt8 :=
  if 128*n ≤ j then 0 else if j%128 = 0 then 128 else if j%128 = 32 then 1 else if j%128 = 33 then 65 else 0

def packedVolume (n : ℕ) : IsoVolume := ⟨fun _ => packedBlock n,fun n => n,fun _ _ => 0⟩

/-- The places of `n` records from a place on. -/
def packed : ℕ → ℕ → List ℕ
  | _, 0 => []
  | i, n+1 => 128*i :: packed (i+1) n

def packedStart : IsoScan := ⟨0,0,0,false,false,0,⟨fun _ => 0,fun _ => 0,[]⟩⟩

attribute [local grind =] packed

variable {i n : ℕ}

theorem packedBlock_record (h : i < n) : packedBlock n (128*i) = 128 ∧ packedBlock n (128*i+32) = 1 ∧
    packedBlock n (128*i+33) = 65 := by
  have h₀ : ¬128*n ≤ 128*i := by omega
  have h₁ : ¬128*n ≤ 128*i+32 := by omega
  have h₂ : ¬128*n ≤ 128*i+33 := by omega
  have m₀ : 128*i%128 = 0 := by omega
  have m₁ : (128*i+32)%128 = 32 := by omega
  have m₂ : (128*i+33)%128 = 33 := by omega
  simp [packedBlock,h₀,h₁,h₂,m₀,m₁,m₂]

theorem packed_records {m : ℕ} (hn : n ≤ 16) (h : i+m = n) :
    IsoRecords (packedBlock n) (128*i) (packed i m) ∧ recordsEnd (packedBlock n) (128*i) (packed i m) = 128*n := by
  induction m generalizing i with
  | zero =>
    obtain rfl : i = n := h
    refine ⟨.nil (by rw [isoBlock]; omega) fun j hj _ => ?_,rfl⟩
    rw [packedBlock,if_pos hj]
  | succ m ih =>
    obtain ⟨hlen,hname,-⟩ := packedBlock_record (show i < n by omega)
    obtain ⟨hrec,hend⟩ := ih (show i+1+m = n by omega)
    have hnext : 128*i+(packedBlock n (128*i)).toNat = 128*(i+1) := by
      rw [hlen]
      rfl
    constructor
    · refine .cons ?_ ?_ (by rwa [hnext])
      · rw [hlen,hname]
        decide
      · rw [hnext,isoBlock]
        omega
    · rw [packed,recordsEnd,hnext]
      exact hend

/-- None of the records has the name B. -/
theorem packed_compare (hn : n ≤ 16) (h : i < n) (susp : ℕ) :
    compareRecord (packedVolume n) [66] susp (packedBlock n) ⟨false,false,0⟩ (128*i) = some (false,⟨false,false,0⟩) := by
  obtain ⟨-,hname,hbyte⟩ := packedBlock_record h
  have hnum : ∀ j < isoBlock, IsoMem.num711 (packedVolume n) ⟨packedBlock n,fun _ => 0,[]⟩ .block (j : ℕ) =
      (packedBlock n j).toNat := fun j hj => IsoMem.num711_block (fun _ _ => rfl) hj
  have hb : isoBlock = 2048 := rfl
  have hlen : IsoMem.recNameLen (packedVolume n) ⟨packedBlock n,fun _ => 0,[]⟩ ((128*i : ℕ) : ℤ) = 1 := by
    rw [IsoMem.recNameLen]
    exact (hnum (128*i+32) (by omega)).trans (by rw [hname]; rfl)
  have hiso : isoName (packedVolume n) ((128*i : ℕ) : ℤ) ⟨packedBlock n,fun _ => 0,[]⟩ = [65] := by
    have hchar := hnum (128*i+33) (by omega)
    rw [hbyte] at hchar
    have hplace : ((128*i : ℕ) : ℤ)+33+((0 : ℕ) : ℤ) = ((128*i+33 : ℕ) : ℤ) := by push_cast; ring
    rw [isoName,hlen,List.range_one,List.map_singleton,hplace]
    exact congrArg (fun c => [c]) (UInt8.toNat_inj.mp hchar)
  simp only [compareRecord,dirmatch,Bool.false_eq_true,if_false,hiso]
  rfl

theorem packed_hit {m : ℕ} (hn : n ≤ 16) (h : i+m = n) (susp : ℕ) :
    blockHit (packedVolume n) [66] susp (packedBlock n) ⟨false,false,0⟩ (packed i m) = some (none,⟨false,false,0⟩) ∧
      BlockInside (packedVolume n) [66] susp (packedBlock n) ⟨false,false,0⟩ (packed i m) := by
  induction m generalizing i with
  | zero => exact ⟨rfl,trivial⟩
  | succ m ih =>
    have hcmp := @packed_compare i n hn (by omega) susp
    rw [packed,blockHit,BlockInside,hcmp]
    exact ⟨(ih (by omega)).1,compareInside_plain,(ih (by omega)).2⟩

theorem packed_dir (hn : n ≤ 16) : IsoDir (packedVolume n) 0 2048 [packed 0 n] where
  size := rfl
  size_lt := by norm_num
  reach := by norm_num
  records := ⟨(packed_records hn (Nat.zero_add n)).1,trivial⟩

end Packed

/-- With one record less than fit in, the name B is looked for in all of them and is not there. -/
theorem iso_scan_right_packed : ∃ susp, ScanRight (packedVolume 15) 0 [66] susp 2048 [packed 0 15] packedStart := by
  refine (iso_scan_right_iff (packed_dir (by norm_num)) ⟨rfl,rfl,rfl,rfl⟩ fun _ _ offs hoffs => ?_).mpr ⟨0,?_⟩
  · cases hoffs
    decide
  · obtain ⟨hhit,hin⟩ := @packed_hit 0 15 15 (by norm_num) (Nat.zero_add 15) 0
    have hend : recordsEnd (packedBlock 15) 0 (packed 0 15) = 1920 :=
      (@packed_records 0 15 15 (by norm_num) (Nat.zero_add 15)).2
    have hroom : recordsEnd (packedBlock 15) 0 (packed 0 15) ≠ isoBlock := by
      rw [hend]
      decide
    refine ⟨hin,?_⟩
    rw [show packedStart.flags = ⟨false,false,0⟩ from rfl,show dirBlock (packedVolume 15) 0 0 = packedBlock 15 from rfl,
      hhit]
    exact ⟨hroom,trivial⟩

/-- A directory with one full block: behind its last record the byte after the buffer is looked at. -/
theorem iso_scan_leaves_block : ¬∃ susp, ScanRight (packedVolume 16) 0 [66] susp 2048 [packed 0 16] packedStart := by
  rintro ⟨susp,hit,-,hgood⟩
  have hblock := @block_good (packedVolume 16) 0 [66] susp 2048 packedStart 0 0 (packed 0 16) ⟨rfl,rfl,rfl,rfl⟩
    (by norm_num)
    (packed_records le_rfl (Nat.zero_add 16)).1 le_rfl (by decide)
  have hhit := (@packed_hit 0 16 16 le_rfl (Nat.zero_add 16) susp).1
  rw [show packedStart.flags = ⟨false,false,0⟩ from rfl,show dirBlock (packedVolume 16) 0 0 = packedBlock 16 from rfl,
    hhit] at hblock
  obtain ⟨s',-,-,hiff⟩ := hblock
  exact ((hiff _).mp hgood).2.1 (packed_records le_rfl (Nat.zero_add 16)).2

end Blub.Stand
