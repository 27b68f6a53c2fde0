import Blub.Stand.Hammer2Lookup

/-! Reading files of HAMMER2 volumes: what `h2readfile` stores of a well-formed file, and when it comes to an end
without leaving the blocks it copies from. -/
namespace Blub.Stand
open Blub.Bytes

section Loop
variable {L : H2Layout} (d : H2Disk L) (unset : ℤ)

/-- How many bytes of a record of `n` bytes are taken for `len` bytes from an offset on. -/
def recordCount (off len n : ℕ) (b : Bref) : ℕ := trim ((n : ℤ)-recordBack off b) (len-recordZfill off b)

theorem readfileLoop_zero (fuel : ℕ) (base : Bref) (off : ℕ) (acc : List UInt8) (bres : Bref) (s : H2) :
    readfileLoop L d.toH2Volume unset (fuel+1) base off 0 acc bres s = some ((acc.length : ℤ),acc,s) := by
  rw [readfileLoop,if_pos rfl]

/-- What one turn of the loop may come to. -/
inductive LoopStep (fuel : ℕ) (base : Bref) (off len : ℕ) (acc : List UInt8) (bres : Bref) (s : H2) (hit : H2Hit) : Prop
  | failed {s' : H2} : ¬ s.Done → s'.io <:+ s.io →
    readfileLoop L d.toH2Volume unset (fuel+1) base off len acc bres s = some (errorTotal acc,acc,s') →
    LoopStep fuel base off len acc bres s hit
  | nothing {s' : H2} : hit = .nothing → H2Holds d.toH2Volume s' → s'.io <:+ s.io →
    readfileLoop L d.toH2Volume unset (fuel+1) base off len acc bres s =
      some ((acc.length : ℤ)+len,acc ++ List.replicate len 0,s') →
    LoopStep fuel base off len acc bres s hit
  | found {n : ℕ} {b : Bref} {data : ℕ → UInt8} {f : H2Found} {s' : H2} : hit = .found n b data →
    H2Holds d.toH2Volume s' → s'.io <:+ s.io → 0 < n →
    h2lookup L d.toH2Volume unset fuel base off (off+len-1) bres s = some (f,s') → f.rc = n → f.bref = b →
    (∀ j < n, s'.media (f.ptr.getD 0+j) = data j) →
    readfileLoop L d.toH2Volume unset (fuel+1) base off len acc bres s =
      readfileLoop L d.toH2Volume unset fuel base (off+recordZfill off b+recordCount off len n b)
        (len-recordZfill off b-recordCount off len n b)
        (acc ++ List.replicate (recordZfill off b) 0 ++
          (List.range (recordCount off len n b)).map fun j => s'.media (f.ptr.getD 0+recordBack off b+j)) b s' →
    LoopStep fuel base off len acc bres s hit

theorem readfileLoop_step {fuel : ℕ} {base bres : Bref} {off len : ℕ} {s : H2} {hit : H2Hit} (acc : List UInt8)
    (hbase : H2Base L d.toH2Volume base) (hs : H2Holds d.toH2Volume s) (hlen : len ≠ 0)
    (hl : d.lookup L fuel base off (off+len-1) bres = some hit) (hgood : hit ≠ .bad) (hint : hit ≠ .error) :
    LoopStep d unset fuel base off len acc bres s hit := by
  obtain ⟨f,s',hlook⟩ := h2lookup_result d.toH2Media unset fuel hbase hs hl hgood
  have hrun := hlook.run
  have hio := hlook.reads.io
  have hloop : readfileLoop L d.toH2Volume unset (fuel+1) base off len acc bres s =
      if f.rc < 0 then some (errorTotal acc,acc,s')
      else if f.rc = 0 then some ((acc.length : ℤ)+len,acc ++ List.replicate len 0,s')
      else readfileLoop L d.toH2Volume unset fuel base
        (off+recordZfill off f.bref+trim (f.rc-recordBack off f.bref) (len-recordZfill off f.bref))
        (len-recordZfill off f.bref-trim (f.rc-recordBack off f.bref) (len-recordZfill off f.bref))
        (acc ++ List.replicate (recordZfill off f.bref) 0 ++
          (List.range (trim (f.rc-recordBack off f.bref) (len-recordZfill off f.bref))).map
            fun j => s'.media (f.ptr.getD 0+recordBack off f.bref+j)) f.bref s' := by
    rw [readfileLoop,if_neg hlen,hrun]
  cases hlook.result with
  | failed hrc hno =>
    rw [hrc,if_pos (by decide)] at hloop
    exact .failed hno hio hloop
  | right hs' hhit =>
    cases hit with
    | bad => exact absurd rfl hgood
    | error => exact absurd rfl hint
    | nothing =>
      rw [hhit.1,if_neg (by decide),if_pos rfl] at hloop
      exact .nothing rfl hs' hio hloop
    | found n b data =>
      obtain ⟨hrc,hb,-,hpos,p,hp,hsound⟩ := hhit
      have hdata := (hsound d.leaves).2
      rw [if_neg (by omega),if_neg (by omega),hrc,hb] at hloop
      exact .found rfl hs' hio hpos hrun hrc hb (fun j hj => by rw [hp,Option.getD_some,hdata j hj]) hloop

end Loop

section Places

/-- An offset and the key of a record as numbers without sign. -/
theorem recordBack_eq (off : ℕ) {b : Bref} (hk : b.key < 2^63) : recordBack off b = off-b.key := by
  have hmod : Int.bmod (b.key : ℤ) (2^64) = b.key := (Int.bmod_eq_iff (by norm_num)).mpr ⟨by omega,by omega,by simp⟩
  unfold recordBack
  rw [hmod]
  omega

theorem recordZfill_eq (off : ℕ) {b : Bref} (hk : b.key < 2^63) : recordZfill off b = b.key-off := by
  have hmod : Int.bmod (b.key : ℤ) (2^64) = b.key := (Int.bmod_eq_iff (by norm_num)).mpr ⟨by omega,by omega,by simp⟩
  unfold recordZfill
  rw [hmod]
  omega

end Places

section File
variable (L : H2Layout) (v : H2Volume)

/-- A small file with its bytes in the inode, which fits into the buffer. -/
structure EmbeddedFile (base : Bref) (filesize : ℕ) : Prop where
  fits : base.bytes ≤ L.mediaBytes
  named : base.dataOff ≠ noBase
  direct : 0 < scanCount L base ∧ isDirect L base (v.block base) = true
  size : filesize ≤ L.embeddedBytes

/-- A file with its bytes in data blocks, each as long as its range of keys. -/
structure LeafTree (base : Bref) : Prop where
  tree : v.KeyTree L Bref.span base
  plain : isDirect L base (v.block base) = false
  sizes : ∀ b, v.LeafBelow L base b → b.bytes = b.span

/-- The blocks of the file fit into the buffer, and their keys are counted by a shift of 64 bits. -/
structure LeafFile (base : Bref) : Prop extends LeafTree L v base where
  small : v.SmallTree L base

def Bref.Covers (b : Bref) (k : ℕ) : Prop := b.key ≤ k ∧ k < b.key+b.span

/-- Byte `k` of a file: where no block has it, it is 0. -/
def FileByte (base : Bref) (k : ℕ) (x : UInt8) : Prop :=
  if 0 < scanCount L base ∧ isDirect L base (v.block base) = true then x = v.block base (L.embeddedBytes+k)
  else (∃ b, v.LeafBelow L base b ∧ b.Covers k ∧ x = v.block b (k-b.key)) ∨
    ((∀ b, v.LeafBelow L base b → ¬ b.Covers k) ∧ x = 0)

/-- Bytes of a file from an offset on. -/
def FileBytes (base : Bref) (off : ℕ) (data : List UInt8) : Prop :=
  ∀ j x, data[j]? = some x → FileByte L v base (off+j) x

variable {L v} {base : Bref}

theorem LeafTree.fileByte (h : LeafTree L v base) {k : ℕ} {x : UInt8} : FileByte L v base k x ↔
    (∃ b, v.LeafBelow L base b ∧ b.Covers k ∧ x = v.block b (k-b.key)) ∨
    ((∀ b, v.LeafBelow L base b → ¬ b.Covers k) ∧ x = 0) := by
  unfold FileByte
  rw [if_neg (not_isDirect h.plain)]

theorem Bref.Covers.hits {b : Bref} {k keyBeg keyEnd : ℕ} (h : b.Covers k) (hbeg : keyBeg ≤ k) (hend : k ≤ keyEnd) :
    b.Hits Bref.span keyBeg keyEnd := ⟨hbeg.trans_lt h.2,h.1.trans hend⟩

theorem FileBytes.append {off : ℕ} {data data' : List UInt8} (h : FileBytes L v base off data)
    (h' : FileBytes L v base (off+data.length) data') : FileBytes L v base off (data ++ data') := by
  intro j x hx
  by_cases hj : j < data.length
  · rw [List.getElem?_append_left hj] at hx
    exact h j x hx
  · rw [List.getElem?_append_right (not_lt.mp hj)] at hx
    have := h' (j-data.length) x hx
    rwa [show off+data.length+(j-data.length) = off+j by omega] at this

/-- No two leaves have a byte in common. -/
theorem H2Volume.KeyTree.covers_unique (ht : v.KeyTree L Bref.span base) {b b' : Bref} (hb : v.LeafBelow L base b)
    (hb' : v.LeafBelow L base b') {k : ℕ} (hc : b.Covers k) (hc' : b'.Covers k) : b = b' := by
  induction hb generalizing b' with
  | @here base i hi hl =>
    obtain ⟨j,hj,hnej,hlo,hhi,hin⟩ := leaf_in_ref ht hb'
    by_cases hij : i = j
    · subst hij
      obtain hself | ⟨hind,-⟩ := hin
      · exact hself
      · obtain hl | hl := hl <;> rw [hind] at hl <;> cases hl
    · have hap := ht.keys.apart i hi j hj hij hl.nonempty hnej
      have h₁ := hc.1
      have h₂ := hc.2
      have h₃ := hc'.1
      have h₄ := hc'.2
      omega
  | @down base b i hi hind hb ih =>
    obtain ⟨m,hm,hnem,hlom,hhim,-⟩ := leaf_in_ref (ht.sub hi hind) hb
    have hwithin := (ht.sub hi hind).keys.within hind m hm hnem
    obtain ⟨j,hj,hnej,hlo,hhi,hin⟩ := leaf_in_ref ht hb'
    by_cases hij : i = j
    · subst hij
      obtain hself | ⟨-,hbelow⟩ := hin
      · have hl := leaf_type hb'
        rw [← hself] at hl
        obtain hl | hl := hl <;> rw [hind] at hl <;> cases hl
      · exact ih (ht.sub hi hind) hbelow hc hc'
    · have hne : (v.refOf L base i).type ≠ .empty := by
        rw [hind]
        exact nofun
      have hap := ht.keys.apart i hi j hj hij hne hnej
      have h₁ := hc.1
      have h₂ := hc.2
      have h₃ := hc'.1
      have h₄ := hc'.2
      omega

/-- A byte of a file is one value. -/
theorem LeafTree.fileByte_unique (h : LeafTree L v base) {k : ℕ} {x y : UInt8} (hx : FileByte L v base k x)
    (hy : FileByte L v base k y) : x = y := by
  rw [h.fileByte] at hx hy
  obtain ⟨b,hb,hc,rfl⟩ | ⟨hno,rfl⟩ := hx
  · obtain ⟨b',hb',hc',rfl⟩ | ⟨hno,rfl⟩ := hy
    · rw [h.tree.covers_unique hb hb' hc hc']
    · exact absurd hc (hno b hb)
  · obtain ⟨b',hb',hc',rfl⟩ | ⟨hno',rfl⟩ := hy
    · exact absurd hc' (hno b' hb')
    · rfl

theorem LeafTree.byte_of_covers (h : LeafTree L v base) {b : Bref} (hb : v.LeafBelow L base b) {k : ℕ} (hc : b.Covers k)
    {x : UInt8} (hx : FileByte L v base k x) : x = v.block b (k-b.key) :=
  h.fileByte_unique hx (h.fileByte.mpr (.inl ⟨b,hb,hc,rfl⟩))

end File

section Read
variable {L : H2Layout} (d : H2Disk L) {unset : ℤ} {base : Bref}

/-- What is stored of the data blocks is what the file has. -/
theorem readfileLoop_leaves (hfile : LeafFile L d.toH2Volume base) (hbase : H2Base L d.toH2Volume base) {M : ℕ}
    (hM : ∀ fuel ≥ M, ∀ keyBeg keyEnd ret, keyEnd < 2^64 → ∃ hit, d.lookup L fuel base keyBeg keyEnd ret = some hit)
    (len : ℕ) : ∀ fuel off acc bres s, M+len < fuel → off+len < 2^63 → H2Holds d.toH2Volume s → s.Done →
      ∃ data s', readfileLoop L d.toH2Volume unset fuel base off len acc bres s = some ((acc.length : ℤ)+len,acc ++ data,s') ∧
        data.length = len ∧ FileBytes L d.toH2Volume base off data ∧ H2Holds d.toH2Volume s' := by
  induction len using Nat.strong_induction_on with
  | _ len ih =>
    intro fuel off acc bres s hfuel hend hs hdone
    cases fuel with
    | zero => omega
    | succ fuel =>
      by_cases hlen : len = 0
      · subst hlen
        refine ⟨[],s,?_,rfl,fun j x hx => by simp at hx,hs⟩
        rw [readfileLoop_zero,List.append_nil,Nat.cast_zero,Int.add_zero]
      obtain ⟨hit,hl⟩ := hM fuel (by omega) off (off+len-1) bres (by omega)
      have hright := lookup_right fuel (hfile.small.keyTree hfile.tree) (fun b hb => leaf_int d hbase hb) (not_isDirect hfile.plain) hl
      have hgood : hit ≠ .bad := by
        rintro rfl
        exact hright
      have hint : hit ≠ .error := by
        rintro rfl
        exact hright
      cases readfileLoop_step d unset acc hbase hs hlen hl hgood hint with
      | failed hno => exact absurd hdone hno
      | @nothing s' hhit hs' hio hloop =>
        subst hhit
        refine ⟨List.replicate len 0,s',hloop,List.length_replicate,fun j x hx => ?_,hs'⟩
        rw [List.getElem?_replicate] at hx
        split_ifs at hx with hj
        refine hfile.fileByte.mpr (.inr ⟨fun b hb hc => ?_,(Option.some.inj hx).symm⟩)
        exact hright b hb ((hfile.small.leaf hb).hits.mpr (hc.hits (by omega) (by omega)))
      | @found n b data f s' hhit hs' hio hpos hrun hrc hb hdata hloop =>
        subst hhit
        obtain ⟨hlowest,rfl,rfl⟩ := hright
        have hlow := hfile.small.lowest hlowest
        have hkey := hlow.hits.2
        have hspan : blocksize b = b.span := (hfile.small.leaf hlow.below).blocksize.trans (hfile.sizes b hlow.below)
        have hcover := hlow.hits.1
        have hback := recordBack_eq off (b := b) (by omega)
        have hzfill := recordZfill_eq off (b := b) (by omega)
        have hcount : recordCount off len (blocksize b) b = min (blocksize b-(off-b.key)) (len-(b.key-off)) := by
          unfold recordCount
          rw [hback,hzfill,trim_of_lt (by omega)]
        rw [hback,hzfill,hcount] at hloop
        generalize hc : min (blocksize b-(off-b.key)) (len-(b.key-off)) = c at hloop
        generalize hchunk : (List.range c).map (fun j => s'.media (f.ptr.getD 0+(off-b.key)+j)) = chunk at hloop
        have hclen : chunk.length = c := by rw [← hchunk,List.length_map,List.length_range]
        obtain ⟨rest,s'',hrest,hrlen,hrbytes,hs''⟩ := ih (len-(b.key-off)-c) (by omega) fuel (off+(b.key-off)+c)
          (acc ++ List.replicate (b.key-off) 0 ++ chunk) b s' (by omega) (by omega) hs' (hdone.suffix hio)
        refine ⟨List.replicate (b.key-off) 0 ++ chunk ++ rest,s'',?_,?_,?_,hs''⟩
        · have htotal : (((acc ++ List.replicate (b.key-off) 0 ++ chunk).length : ℕ) : ℤ)+((len-(b.key-off)-c : ℕ) : ℤ) =
              (acc.length : ℤ)+len := by
            rw [List.length_append,List.length_append,List.length_replicate,hclen]
            omega
          rw [hloop,hrest,htotal,List.append_assoc,List.append_assoc,List.append_assoc]
        · rw [List.length_append,List.length_append,List.length_replicate,hclen,hrlen]
          omega
        · refine FileBytes.append (FileBytes.append (fun j x hx => ?_) fun j x hx => ?_) ?_
          · -- before the block there is none
            rw [List.getElem?_replicate] at hx
            split_ifs at hx with hj
            refine hfile.fileByte.mpr (.inr ⟨fun b' hb' hcov => ?_,(Option.some.inj hx).symm⟩)
            have := hlow.lowest b' hb' (hcov.hits (by omega) (by omega))
            have := hcov.1
            omega
          · rw [List.length_replicate]
            obtain ⟨hj,hval⟩ := List.getElem?_eq_some_iff.mp hx
            rw [hclen] at hj
            refine hfile.fileByte.mpr (.inl ⟨b,hlow.below,⟨by omega,by omega⟩,?_⟩)
            subst hchunk
            have hplace : off+(b.key-off)+j-b.key = off-b.key+j := by omega
            rw [← hval,List.getElem_map,List.getElem_range,Nat.add_assoc,hdata _ (by omega),hplace]
          · rw [List.length_append,List.length_replicate,hclen,← Nat.add_assoc]
            exact hrbytes

theorem lookup_direct (v : H2Volume) (hname : base.dataOff ≠ noBase)
    (hdir : 0 < scanCount L base ∧ isDirect L base (v.block base) = true) (fuel keyBeg keyEnd : ℕ) (ret : Bref) :
    v.lookup L (fuel+1) base keyBeg keyEnd ret =
      some (.found L.embeddedBytes {ret with type := .data, key := 0} fun j => v.block base (L.embeddedBytes+j)) :=
  (VolumeStep.direct hname hdir).lookup

/-- What is stored of the bytes in an inode is what the file has. -/
theorem readfileLoop_direct (hname : base.dataOff ≠ noBase)
    (hdir : 0 < scanCount L base ∧ isDirect L base (d.block base) = true) (hbase : H2Base L d.toH2Volume base)
    (off : ℕ) {len : ℕ} (hsize : off+len ≤ L.embeddedBytes) (fuel : ℕ) (acc : List UInt8) (bres : Bref) {s : H2}
    (hs : H2Holds d.toH2Volume s) (hdone : s.Done) :
    ∃ data s', readfileLoop L d.toH2Volume unset (fuel+3) base off len acc bres s =
        some ((acc.length : ℤ)+len,acc ++ data,s') ∧
      data.length = len ∧ FileBytes L d.toH2Volume base off data ∧ H2Holds d.toH2Volume s' := by
  by_cases hlen : len = 0
  · subst hlen
    refine ⟨[],s,?_,rfl,fun j x hx => by simp at hx,hs⟩
    rw [readfileLoop_zero,List.append_nil,Nat.cast_zero,Int.add_zero]
  have hl := lookup_direct d.toH2Volume hname hdir (fuel+1) off (off+len-1) bres
  cases readfileLoop_step d unset acc hbase hs hlen hl (fun hc => by cases hc) (fun hc => by cases hc) with
  | failed hno => exact absurd hdone hno
  | nothing hhit => cases hhit
  | @found n b data f s' hhit hs' hio hpos hrun hrc hb hdata hloop =>
    cases hhit
    have hback := recordBack_eq off (b := {bres with type := .data, key := 0}) (by norm_num)
    have hzfill := recordZfill_eq off (b := {bres with type := .data, key := 0}) (by norm_num)
    dsimp only at hback hzfill
    rw [Nat.sub_zero] at hback
    rw [Nat.zero_sub] at hzfill
    have hcount : recordCount off len L.embeddedBytes {bres with type := .data, key := 0} = len := by
      unfold recordCount
      rw [hback,hzfill,trim_of_lt (by omega)]
      omega
    rw [hback,hzfill,hcount,Nat.sub_zero,Nat.sub_self,readfileLoop_zero] at hloop
    refine ⟨(List.range len).map fun j => s'.media (f.ptr.getD 0+off+j),s',?_,?_,?_,hs'⟩
    · rw [hloop]
      simp
    · rw [List.length_map,List.length_range]
    · intro j x hx
      obtain ⟨hj,hval⟩ := List.getElem?_eq_some_iff.mp hx
      rw [List.length_map,List.length_range] at hj
      unfold FileByte
      rw [if_pos hdir,← hval,List.getElem_map,List.getElem_range,Nat.add_assoc,hdata _ (by omega)]

theorem leafVolume_leaves {bits radix : UInt8} (hshape : LeafShape bits radix)
    (hsize : (fileLeaf bits.toNat radix.toNat).bytes = (fileLeaf bits.toNat radix.toNat).span) (b : Bref)
    (hb : (leafVolume bits radix).LeafBelow h2LayoutV1 smallFile b) : b.bytes = b.span := by
  obtain ⟨i,hi,hne,-,-,hin⟩ := leaf_in_ref (leafVolume_tree hshape) hb
  obtain ⟨-,hr⟩ | ⟨-,hr⟩ := leafVolume_refOf hshape hi
  · obtain h | ⟨ht,-⟩ := hin
    · rw [← h,hr]
      exact hsize
    · rw [hr] at ht
      cases ht
  · exact absurd hr hne

theorem leafVolume_file : LeafFile h2LayoutV1 (leafVolume 10 10) smallFile :=
  ⟨⟨leafVolume_tree .plain,by decide,leafVolume_leaves .plain (by decide)⟩,leafVolume_small⟩

end Read

section Examples

/-- The inode has an indirect block at 4 GB for all keys, and that a data block of 1 KB at 8 GB. -/
def wideVolume : H2Volume where
  dev := fun o => if o = 1048576+512 then 2 else if o = 1048576+512+3 then 64
    else if o = 1048576+512+32 then 10 else if o = 1048576+512+36 then 1
    else if o = 4294967296 then 3 else if o = 4294967296+3 then 10
    else if o = 4294967296+32 then 10 else if o = 4294967296+36 then 2 else if o = 8589934592+5 then 77 else 0
  sroot := smallFile
  srootBlockset := fun _ => ⟨.empty,0,0,0⟩

def wideIndirect : Bref := ⟨.indirect,0,64,4294967296+10⟩
def wideLeaf : Bref := ⟨.data,0,10,8589934592+10⟩

theorem wideVolume_refOf {i : ℕ} (hi : i < 4) : i = 0 ∧ wideVolume.refOf h2LayoutV1 smallFile i = wideIndirect ∨
    0 < i ∧ (wideVolume.refOf h2LayoutV1 smallFile i).type = .empty := by
  interval_cases i
  all_goals first
    | exact .inl ⟨rfl,by decide⟩
    | exact .inr ⟨by decide,by decide⟩

theorem wideIndirect_count : scanCount h2LayoutV1 wideIndirect = 8 := by decide

theorem wideIndirect_refOf {i : ℕ} (hi : i < scanCount h2LayoutV1 wideIndirect) :
    i = 0 ∧ wideVolume.refOf h2LayoutV1 wideIndirect i = wideLeaf ∨
    0 < i ∧ (wideVolume.refOf h2LayoutV1 wideIndirect i).type = .empty := by
  rw [wideIndirect_count] at hi
  interval_cases i
  all_goals first
    | exact .inl ⟨rfl,by decide⟩
    | exact .inr ⟨by decide,by decide⟩

theorem wideVolume_tree : LeafTree h2LayoutV1 wideVolume smallFile := by
  have hinner : wideVolume.KeyTree h2LayoutV1 Bref.span wideIndirect := by
    refine .node (.single (by decide) (fun i hi => wideIndirect_refOf hi) (.inl (.inr rfl)) (by decide)
      fun _ => ⟨by decide,by decide⟩) fun i hi ht => ?_
    obtain ⟨-,hr⟩ | ⟨-,hr⟩ := wideIndirect_refOf hi <;> rw [hr] at ht <;> cases ht
  have htree : wideVolume.KeyTree h2LayoutV1 Bref.span smallFile := by
    refine .node (.single (by decide) (fun i hi => wideVolume_refOf hi) (.inr rfl) (by decide) fun ht => by cases ht)
      fun i hi ht => ?_
    obtain ⟨-,hr⟩ | ⟨-,hr⟩ := wideVolume_refOf hi
    · rw [hr]
      exact hinner
    · rw [hr] at ht
      cases ht
  refine ⟨htree,by decide,fun b hb => ?_⟩
  obtain ⟨i,hi,hne,-,-,hin⟩ := leaf_in_ref htree hb
  obtain ⟨-,hr⟩ | ⟨-,hr⟩ := wideVolume_refOf hi
  · rw [hr] at hin
    obtain rfl | ⟨-,hbelow⟩ := hin
    · obtain ht | ht := leaf_type hb <;> cases ht
    obtain ⟨j,hj,hne,-,-,hin⟩ := leaf_in_ref hinner hbelow
    obtain ⟨-,hr⟩ | ⟨-,hr⟩ := wideIndirect_refOf hj
    · rw [hr] at hin
      obtain rfl | ⟨ht,-⟩ := hin
      · decide
      · cases ht
    · exact absurd hr hne
  · exact absurd hr hne

theorem wideVolume_below : wideVolume.LeafBelow h2LayoutV1 smallFile wideLeaf := by
  obtain ⟨-,hr⟩ | ⟨h,-⟩ := wideVolume_refOf (show 0 < 4 by decide)
  · obtain ⟨-,hr'⟩ | ⟨h,-⟩ := wideIndirect_refOf (show 0 < scanCount h2LayoutV1 wideIndirect by rw [wideIndirect_count]; decide)
    · refine .down (i := 0) (by decide) (by rw [hr]; rfl) ?_
      rw [hr,← hr']
      refine .here (by rw [wideIndirect_count]; decide) ?_
      rw [hr']
      exact .inr rfl
    · exact absurd h (lt_irrefl 0)
  · exact absurd h (lt_irrefl 0)

/-- Of a block of 4 GB one byte is found, and behind that the loop stays where it is. -/
theorem readfileLoop_large (fuel : ℕ) (acc : List UInt8) (bres : Bref) {s : H2} (hs : H2Holds (leafVolume 32 32) s)
    (hdone : s.Done) : readfileLoop h2LayoutV1 (leafVolume 32 32) 0 fuel smallFile 1 1 acc bres s = none := by
  induction fuel generalizing acc bres s with
  | zero => rfl
  | succ fuel ih =>
    cases fuel with
    | zero => rw [readfileLoop,if_neg (by decide)]; rfl
    | succ fuel =>
      have hbest : (leafVolume 32 32).bestOf h2LayoutV1 smallFile 1 1 = fileLeaf 32 32 := by decide
      have hl : (leafVolume 32 32).lookup h2LayoutV1 (fuel+1) smallFile 1 (1+1-1) bres =
          some (.found 1 (fileLeaf 32 32) ((leafVolume 32 32).block (fileLeaf 32 32))) := by
        have hstep : VolumeStep h2LayoutV1 (leafVolume 32 32) fuel smallFile 1 1 bres _ :=
          .leaf ⟨by decide,by decide⟩ (by rw [hbest]; exact .inr rfl) (by rw [hbest]; decide)
        rw [hbest] at hstep
        exact hstep.lookup
      obtain ⟨f,s',hrun⟩ := h2lookup_result (leafMedia 32 32 .large) 0 (fuel+1) (fun _ => .root) hs hl (fun hc => by cases hc)
      cases hrun.result with
      | failed _ hno => exact absurd hdone hno
      | right hs' hhit =>
        obtain ⟨hrc,hb,-⟩ := hhit
        have hlook := hrun.run
        change h2lookup h2LayoutV1 (leafVolume 32 32) 0 (fuel+1) smallFile 1 (1+1-1) bres s = some (f,s') at hlook
        rw [readfileLoop,if_neg (by decide),hlook]
        dsimp only
        rw [hrc,hb,if_neg (by decide),if_neg (by decide)]
        exact ih _ _ hs' (hdone.suffix hrun.reads.io)

end Examples

end Blub.Stand
