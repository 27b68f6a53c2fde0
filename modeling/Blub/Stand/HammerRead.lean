import Mathlib
import Blub.Stand.HammerCache

/-! `hreadf` of `hammer1.c`: a piece of a file from its data records, which are split at the buffers of the device. -/
namespace Blub.Stand
open Blub.Bytes

/-- A data record, of the bytes of a file before `key`. -/
structure DataElm where
  key : ℕ
  dataOffset : ℕ
  dataLen : ℕ
  len_le : dataLen ≤ key
  inside : dataOffset+dataLen ≤ 2^64

/-- The first byte of the file that a record holds. -/
def DataElm.doff (e : DataElm) : ℕ := e.key-e.dataLen

/-- The data records of a file, in the order of the tree. -/
structure DataRecords where
  elms : List DataElm
  disjoint : elms.Pairwise fun a b => a.key < b.key ∧ a.key ≤ b.doff

/-- A copy out of a buffer. -/
structure Copied where
  slot : ℕ
  place : ℕ
  dlen : ℕ
  deriving DecidableEq, Repr

/-- Where the reading has come to, unless a read has failed, with what it stored and its copies. -/
structure HreadfEnd where
  off : Option ℕ
  buf : ℕ → UInt8
  copies : List Copied
  hfs : Hfs

def HreadfEnd.log (c : Copied) (e : HreadfEnd) : HreadfEnd := {e with copies := c :: e.copies}

section Code
variable (d : HammerDev) (hfind : Hfs → ℕ → Option DataElm × Hfs)

/-- The steps over whole buffers: the rest of the offset, and how far the steps went. -/
def passBuffers : ℕ → ℕ → ℕ → ℕ × ℕ
  | 0, boff, roff => (boff,roff)
  | k+1, boff, roff =>
    if hammerBufsize ≤ boff then passBuffers k (boff-hammerBufsize) (roff+hammerBufsize) else (boff,roff)

/-- How much is copied, given what is wanted of the record. -/
def chunkLen (roff boff dlen : ℕ) : ℕ :=
  if roff/hammerBufsize ≠ (roff+boff+dlen-1)/hammerBufsize then hammerBufsize-(boff+roff)%hammerBufsize else dlen

/-- The loop of `hreadf`. No result if it does not end in `fuel` turns. -/
def hreadfLoop : ℕ → Hfs → ℕ → ℕ → ℕ → (ℕ → UInt8) → Option HreadfEnd
  | 0, _, _, _, _, _ => none
  | fuel+1, s, off, len, o, buf =>
    if len = 0 then some ⟨some off,buf,[],s⟩
    else
      match hfind s (off+1) with
      | (none,s) => some ⟨some (off+len),blit buf o len fun _ => 0,[],s⟩
      | (some e,s) =>
        if off > e.key then some ⟨some (off+len),blit buf o len fun _ => 0,[],s⟩
        else if off < e.doff then
          let dlen := min (e.doff-off) len
          hreadfLoop fuel s (off+dlen) (len-dlen) (o+dlen) (blit buf o dlen fun _ => 0)
        else
          let dlen := min (e.dataLen-(off-e.doff)) len
          let r := passBuffers (off-e.doff) (off-e.doff) e.dataOffset
          let dlen := chunkLen r.2 r.1 dlen
          match hread d s r.2 with
          | (none,s) => some ⟨none,buf,[],s⟩
          | (some p,s) =>
            (hreadfLoop fuel s (off+dlen) (len-dlen) (o+dlen)
              (blit buf o dlen fun j => (s.cache p.slot).data (p.place+r.1+j))).map (.log ⟨p.slot,p.place+r.1,dlen⟩)

/-- The return value of `hreadf`, and how its loop ended. -/
def hreadf (s : Hfs) (off len : ℕ) (buf : ℕ → UInt8) : Option (ℤ × HreadfEnd) :=
  (hreadfLoop d hfind (len+1) s off len 0 buf).map fun e => (e.off.elim (-1) fun n => n-off,e)

attribute [local grind =] passBuffers hreadfLoop

end Code

section Meaning
variable (d : HammerDev)

/-- The byte of the device at an offset of the volume. -/
def HammerDev.byteAt (off : ℕ) : UInt8 := d.dev (boffOf d off+off%hammerBufsize)

/-- The bytes of a file, with zeros where no record has any. -/
def fileByte (recs : DataRecords) (x : ℕ) : UInt8 :=
  match recs.elms.find? fun e => e.doff ≤ x ∧ x < e.key with
  | some e => d.byteAt (e.dataOffset+(x-e.doff))
  | none => 0

/-- All reads succeed, and every buffer holds what its tag says. -/
structure Sound (s : Hfs) : Prop where
  cache : CacheInv d ⟨s,fun _ => false⟩
  io : ∀ o ∈ s.io, o = .done

/-- An ordered search: the record with the least key from `key` on. -/
structure OrderedSearch (recs : DataRecords) (hfind : Hfs → ℕ → Option DataElm × Hfs) : Prop where
  sound (s : Hfs) (key : ℕ) : Sound d s → Sound d (hfind s key).2
  least (s : Hfs) (key : ℕ) : Sound d s → ∀ e ∈ (hfind s key).1,
    e ∈ recs.elms ∧ key ≤ e.key ∧ ∀ e' ∈ recs.elms, key ≤ e'.key → e.key ≤ e'.key
  none (s : Hfs) (key : ℕ) : Sound d s → (hfind s key).1 = none → ∀ e ∈ recs.elms, e.key < key

/-- All that was asked for is stored, and every byte comes out of the buffer that it is in. -/
structure HreadfRight (recs : DataRecords) (off len : ℕ) (buf : ℕ → UInt8) (r : ℤ × HreadfEnd) : Prop where
  ret : r.1 = len
  buf : r.2.buf = blit buf 0 len fun j => fileByte d recs (off+j)
  inside : ∀ c ∈ r.2.copies, c.place+c.dlen ≤ hammerBufsize

/-- A record whose bytes start at a buffer of the device, or whose wanted bytes end in the buffer which the record
is in after as many whole buffers as they are from its start. -/
def OneBuffer (e : DataElm) (off len : ℕ) : Prop :=
  max off e.doff < min (off+len) e.key → e.dataOffset%hammerBufsize = 0 ∨
    e.dataOffset%hammerBufsize+(max off e.doff-e.doff)%hammerBufsize+(min (off+len) e.key-max off e.doff) ≤
      hammerBufsize

instance (e : DataElm) (off len : ℕ) : Decidable (OneBuffer e off len) := inferInstanceAs (Decidable (_ → _))

end Meaning

section Chunks
variable {d : HammerDev}

theorem passBuffers_eq (k : ℕ) {boff : ℕ} (roff : ℕ) (h : boff ≤ k) :
    passBuffers k boff roff = (boff%hammerBufsize,roff+boff/hammerBufsize*hammerBufsize) := by
  induction k generalizing boff roff with
  | zero =>
    obtain rfl := Nat.le_zero.mp h
    simp [passBuffers]
  | succ k ih =>
    rw [passBuffers]
    by_cases hge : hammerBufsize ≤ boff
    · have hpos : 0 < hammerBufsize := by decide
      rw [if_pos hge,ih _ (by omega)]
      obtain ⟨r,rfl⟩ := Nat.exists_eq_add_of_le hge
      rw [Nat.add_sub_cancel_left,Nat.add_mod_left,Nat.add_div_left _ hpos,Nat.succ_mul]
      congr 1
      omega
    · rw [if_neg hge,Nat.mod_eq_of_lt (by omega),Nat.div_eq_of_lt (by omega),Nat.zero_mul,Nat.add_zero]

theorem boffOf_congr {x y : ℕ} (h : x/hammerBufsize = y/hammerBufsize) : boffOf d x = boffOf d y := by
  have hzone : zoneDecode x = zoneDecode y := by
    unfold hammerBufsize at h
    unfold zoneDecode
    omega
  unfold boffOf
  rw [h,hzone]

/-- The bytes of a buffer, as bytes of the volume. -/
theorem byteAt_add {roff j : ℕ} (h : roff%hammerBufsize+j < hammerBufsize) :
    d.byteAt (roff+j) = d.dev (boffOf d roff+(roff%hammerBufsize+j)) := by
  have hdiv : (roff+j)/hammerBufsize = roff/hammerBufsize := by
    unfold hammerBufsize at *
    omega
  have hmod : (roff+j)%hammerBufsize = roff%hammerBufsize+j := by
    unfold hammerBufsize at *
    omega
  rw [HammerDev.byteAt,boffOf_congr hdiv,hmod]

/-- `hread` while all reads succeed. -/
theorem hread_sound {s : Hfs} (h : Sound d s) (off : ℕ) : ∃ p s', hread d s off = (some p,s') ∧
    p.place = off%hammerBufsize ∧ Sound d s' ∧
    ∀ j < hammerBufsize, (s'.cache p.slot).data j = d.dev (boffOf d off+j) := by
  have hdone : s.io.headD .done = .done := by
    cases hio : s.io with
    | nil => rfl
    | cons o l => exact h.io o (by simp [hio])
  obtain ⟨hright,hinv⟩ := hreadStep_spec ⟨s,fun _ => false⟩ off h.cache fun _ _ _ => rfl
  have hsome : ∃ p s', hread d s off = (some p,s') ∧ ∀ o ∈ s'.io, o = .done := by
    obtain ⟨be,-,⟨-,hrun⟩ | ⟨data,-,⟨hbad,-⟩ | ⟨-,hrun⟩⟩⟩ := hread_cases (d := d) s off
    · exact ⟨_,_,hrun,h.io⟩
    · exact absurd hdone hbad
    · exact ⟨_,_,hrun,fun o ho => h.io o (List.mem_of_mem_tail ho)⟩
  obtain ⟨p,s',hrun,hio⟩ := hsome
  have hholds := hright.holds p (by rw [hrun]; rfl)
  rw [hrun] at hholds
  refine ⟨p,s',hrun,hholds.2.1,⟨?_,hio⟩,hholds.2.2⟩
  have hfailed : (hreadStep d ⟨s,fun _ => false⟩ off).2 = ⟨s',fun _ => false⟩ := by
    unfold hreadStep
    dsimp only
    rw [hrun]
    split_ifs
    · rw [Option.isNone_some,Function.update_eq_self]
    · rfl
  rwa [hfailed] at hinv

end Chunks

section Records
variable {d : HammerDev} {recs : DataRecords}

theorem DataRecords.related {a b : DataElm} (ha : a ∈ recs.elms) (hb : b ∈ recs.elms) :
    a = b ∨ (a.key < b.key ∧ a.key ≤ b.doff) ∨ (b.key < a.key ∧ b.key ≤ a.doff) := by
  obtain ⟨i,hi,rfl⟩ := List.getElem_of_mem ha
  obtain ⟨j,hj,rfl⟩ := List.getElem_of_mem hb
  have hpair := List.pairwise_iff_getElem.mp recs.disjoint
  rcases lt_trichotomy i j with h | h | h
  · exact .inr (.inl (hpair i j hi hj h))
  · subst h
    exact .inl rfl
  · exact .inr (.inr (hpair j i hj hi h))

/-- The record with the least key behind an offset has no other one between. -/
theorem DataRecords.others {e : DataElm} (he : e ∈ recs.elms) {off : ℕ}
    (hmin : ∀ a ∈ recs.elms, off+1 ≤ a.key → e.key ≤ a.key) {a : DataElm} (ha : a ∈ recs.elms) (hne : a ≠ e) :
    a.key ≤ off ∨ e.key ≤ a.doff := by
  by_cases hlt : off+1 ≤ a.key
  · have hle := hmin a ha hlt
    rcases DataRecords.related ha he with h | h | h
    · exact absurd h hne
    · omega
    · exact .inr h.2
  · exact .inl (by omega)

theorem fileByte_of_mem {e : DataElm} (he : e ∈ recs.elms) {x : ℕ} (h₁ : e.doff ≤ x) (h₂ : x < e.key) :
    fileByte d recs x = d.byteAt (e.dataOffset+(x-e.doff)) := by
  unfold fileByte
  cases hf : recs.elms.find? fun e => e.doff ≤ x ∧ x < e.key with
  | none =>
    have hno := List.find?_eq_none.mp hf e he
    simp only [h₁,h₂,and_self,decide_true,not_true] at hno
  | some a =>
    have ha := List.find?_some hf
    simp only [decide_eq_true_eq] at ha
    rcases DataRecords.related (List.mem_of_find?_eq_some hf) he with rfl | h | h
    · rfl
    · omega
    · omega

theorem fileByte_hole {x : ℕ} (h : ∀ e ∈ recs.elms, e.key ≤ x ∨ x < e.doff) : fileByte d recs x = 0 := by
  unfold fileByte
  rw [List.find?_eq_none.mpr]
  intro e he
  have := h e he
  simp only [decide_eq_true_eq]
  omega

/-- A piece of the file that has nothing of a record can be passed. -/
theorem oneBuffer_skip {e : DataElm} {off len n : ℕ} (hn : n ≤ len) (h : e.key ≤ off ∨ off+n ≤ e.doff) :
    OneBuffer e off len ↔ OneBuffer e (off+n) (len-n) := by
  have hend : off+n+(len-n) = off+len := by omega
  unfold OneBuffer
  rw [hend]
  rcases h with h | h
  · have h₁ : ¬ max off e.doff < min (off+len) e.key := by omega
    have h₂ : ¬ max (off+n) e.doff < min (off+len) e.key := by omega
    exact ⟨fun _ hc => absurd hc h₂,fun _ hc => absurd hc h₁⟩
  · rw [max_eq_right (by omega : off ≤ e.doff),max_eq_right h]

theorem chunkLen_inside {roff boff dlen : ℕ} (hb : boff < hammerBufsize) (hd : 0 < dlen) :
    roff%hammerBufsize+boff+chunkLen roff boff dlen ≤ hammerBufsize ↔ roff%hammerBufsize+boff < hammerBufsize := by
  unfold chunkLen hammerBufsize at *
  split_ifs <;> omega

theorem chunkLen_le {roff boff dlen : ℕ} (hd : 0 < dlen) (h : roff%hammerBufsize+boff < hammerBufsize) :
    chunkLen roff boff dlen ≤ dlen ∧ 0 < chunkLen roff boff dlen ∧
      roff%hammerBufsize+boff+chunkLen roff boff dlen ≤ hammerBufsize ∧
      (chunkLen roff boff dlen = dlen ∨ roff%hammerBufsize+boff+chunkLen roff boff dlen = hammerBufsize) := by
  unfold chunkLen hammerBufsize at *
  split_ifs <;> omega

/-- A piece of a record needs the buffer of its start, and what comes behind it in the record another one. -/
theorem oneBuffer_chunk {e : DataElm} {off len roff : ℕ} (h₁ : e.doff ≤ off) (h₂ : off < e.key) (hl : 0 < len)
    (hr : roff%hammerBufsize = e.dataOffset%hammerBufsize) :
    OneBuffer e off len ↔ roff%hammerBufsize+(off-e.doff)%hammerBufsize < hammerBufsize ∧
      OneBuffer e (off+chunkLen roff ((off-e.doff)%hammerBufsize) (min (e.key-off) len))
        (len-chunkLen roff ((off-e.doff)%hammerBufsize) (min (e.key-off) len)) := by
  have hpos : 0 < min (e.key-off) len := by omega
  have hb : (off-e.doff)%hammerBufsize < hammerBufsize := Nat.mod_lt _ (by decide)
  have ha : e.dataOffset%hammerBufsize < hammerBufsize := Nat.mod_lt _ (by decide)
  by_cases hin : roff%hammerBufsize+(off-e.doff)%hammerBufsize < hammerBufsize
  · obtain ⟨hle,hn,hfit,hcut⟩ := chunkLen_le hpos hin
    generalize chunkLen roff ((off-e.doff)%hammerBufsize) (min (e.key-off) len) = n at *
    rw [and_iff_right hin]
    have hend : off+n+(len-n) = off+len := by omega
    unfold OneBuffer
    rw [hend,max_eq_left h₁,max_eq_left (by omega : e.doff ≤ off+n)]
    rw [hr] at hin hfit hcut
    have hlt : off < min (off+len) e.key := by omega
    unfold hammerBufsize at *
    constructor
    · intro h hn'
      rcases h hlt with h | h
      · exact .inl h
      · omega
    · intro h _
      by_cases hn' : off+n < min (off+len) e.key
      · rcases h hn' with h | h
        · exact .inl h
        · omega
      · omega
  · refine ⟨fun h => ?_,fun h => absurd h.1 hin⟩
    have hlt : max off e.doff < min (off+len) e.key := by omega
    rcases h hlt with h | h
    · omega
    · rw [max_eq_left h₁] at h
      omega

end Records

section Loop
variable {d : HammerDev} {recs : DataRecords} {off len o : ℕ} {buf : ℕ → UInt8}

/-- What the loop is to leave from a state on. -/
def LoopRight (d : HammerDev) (recs : DataRecords) (off len o : ℕ) (buf : ℕ → UInt8) (r : Option HreadfEnd) : Prop :=
  ∃ e, r = some e ∧ e.off = some (off+len) ∧ e.buf = blit buf o len (fun j => fileByte d recs (off+j)) ∧
    ∀ c ∈ e.copies, c.place+c.dlen ≤ hammerBufsize

theorem loopRight_log (c : Copied) (r : Option HreadfEnd) :
    LoopRight d recs off len o buf (r.map (.log c)) ↔
      c.place+c.dlen ≤ hammerBufsize ∧ LoopRight d recs off len o buf r := by
  constructor
  · rintro ⟨e,he,hoff,hbuf,hin⟩
    obtain ⟨a,rfl,rfl⟩ := Option.map_eq_some_iff.mp he
    exact ⟨hin c List.mem_cons_self,a,rfl,hoff,hbuf,fun b hb => hin b (List.mem_cons_of_mem c hb)⟩
  · rintro ⟨hc,a,rfl,hoff,hbuf,hin⟩
    refine ⟨a.log c,rfl,hoff,hbuf,fun b hb => ?_⟩
    rcases List.mem_cons.mp hb with rfl | hb
    · exact hc
    · exact hin b hb

/-- The first `n` bytes are stored as they are to be. -/
theorem loopRight_piece {n : ℕ} (hn : n ≤ len) {f : ℕ → UInt8} (hf : ∀ j < n, f j = fileByte d recs (off+j))
    (r : Option HreadfEnd) :
    LoopRight d recs (off+n) (len-n) (o+n) (blit buf o n f) r ↔ LoopRight d recs off len o buf r := by
  have hfirst : blit buf o n f = blit buf o n fun j => fileByte d recs (off+j) := by
    ext j
    by_cases hj : o ≤ j ∧ j < o+n
    · rw [blit_inside hj.1 hj.2,blit_inside hj.1 hj.2]
      rw [hf _ (by omega)]
    · rw [blit_outside (by omega),blit_outside (by omega)]
  have hall : blit (blit buf o n f) (o+n) (len-n) (fun j => fileByte d recs (off+n+j)) =
      blit buf o len fun j => fileByte d recs (off+j) := by
    rw [hfirst]
    conv_rhs => rw [← Nat.add_sub_cancel' hn]
    apply blit_append
    intro j _
    rw [Nat.add_assoc]
  unfold LoopRight
  rw [hall,Nat.add_assoc,Nat.add_sub_cancel' hn]

variable {hfind : Hfs → ℕ → Option DataElm × Hfs}

/-- Behind the last record there is a hole. -/
theorem loopRight_end (s : Hfs) (hno : ∀ e ∈ recs.elms, e.key ≤ off) :
    LoopRight d recs off len o buf (some ⟨some (off+len),blit buf o len fun _ => 0,[],s⟩) ↔
      ∀ e ∈ recs.elms, OneBuffer e off len := by
  refine ⟨fun _ e he hlt => ?_,fun _ => ⟨_,rfl,rfl,?_,by simp⟩⟩
  · have := hno e he
    omega
  · dsimp only
    ext j
    by_cases hj : o ≤ j ∧ j < o+len
    · rw [blit_inside hj.1 hj.2,blit_inside hj.1 hj.2,fileByte_hole fun e he => ?_]
      have := hno e he
      omega
    · rw [blit_outside (by omega),blit_outside (by omega)]

section Found
variable {e : DataElm} (he : e ∈ recs.elms) (hmin : ∀ a ∈ recs.elms, off+1 ≤ a.key → e.key ≤ a.key)
include he hmin

/-- The hole before a record. -/
theorem loopRight_hole {n : ℕ} (hn : n ≤ len) (hle : off+n ≤ e.doff) (r : Option HreadfEnd) :
    (LoopRight d recs (off+n) (len-n) (o+n) (blit buf o n fun _ => 0) r ↔ LoopRight d recs off len o buf r) ∧
    ((∀ a ∈ recs.elms, OneBuffer a (off+n) (len-n)) ↔ ∀ a ∈ recs.elms, OneBuffer a off len) := by
  have hdoff : e.doff ≤ e.key := Nat.sub_le _ _
  have hpast : ∀ a ∈ recs.elms, a.key ≤ off ∨ off+n ≤ a.doff := by
    intro a ha
    by_cases hae : a = e
    · subst hae
      exact .inr hle
    · have := DataRecords.others he hmin ha hae
      omega
  constructor
  · apply loopRight_piece hn
    intro j hj
    symm
    apply fileByte_hole
    intro a ha
    have := hpast a ha
    omega
  · apply forall₂_congr
    intro a ha
    exact (oneBuffer_skip hn (hpast a ha)).symm

theorem oneBuffer_split {roff : ℕ} (h₁ : e.doff ≤ off) (h₂ : off < e.key) (hl : 0 < len)
    (hr : roff%hammerBufsize = e.dataOffset%hammerBufsize) :
    (∀ a ∈ recs.elms, OneBuffer a off len) ↔
      roff%hammerBufsize+(off-e.doff)%hammerBufsize < hammerBufsize ∧ ∀ a ∈ recs.elms,
        OneBuffer a (off+chunkLen roff ((off-e.doff)%hammerBufsize) (min (e.key-off) len))
          (len-chunkLen roff ((off-e.doff)%hammerBufsize) (min (e.key-off) len)) := by
  have hchunk := oneBuffer_chunk h₁ h₂ hl hr
  have hskip : roff%hammerBufsize+(off-e.doff)%hammerBufsize < hammerBufsize → ∀ a ∈ recs.elms, a ≠ e →
      (OneBuffer a off len ↔ OneBuffer a (off+chunkLen roff ((off-e.doff)%hammerBufsize) (min (e.key-off) len))
        (len-chunkLen roff ((off-e.doff)%hammerBufsize) (min (e.key-off) len))) := by
    intro hin a ha hne
    have hle := (chunkLen_le (by omega : 0 < min (e.key-off) len) hin).1
    have := DataRecords.others he hmin ha hne
    apply oneBuffer_skip
    · omega
    · omega
  constructor
  · intro h
    have hin := (hchunk.mp (h e he)).1
    refine ⟨hin,fun a ha => ?_⟩
    by_cases hae : a = e
    · subst hae
      exact (hchunk.mp (h a ha)).2
    · exact (hskip hin a ha hae).mp (h a ha)
  · rintro ⟨hin,h⟩ a ha
    by_cases hae : a = e
    · subst hae
      exact hchunk.mpr ⟨hin,h a ha⟩
    · exact (hskip hin a ha hae).mpr (h a ha)

end Found

/-- The bytes of a record from `off` on, in the buffer that is read for them. -/
theorem fileByte_piece {e : DataElm} (he : e ∈ recs.elms) (h₁ : e.doff ≤ off) {j : ℕ} (hj : j < e.key-off)
    (hfit : e.dataOffset%hammerBufsize+(off-e.doff)%hammerBufsize+j < hammerBufsize) :
    fileByte d recs (off+j) = d.dev (boffOf d (e.dataOffset+(off-e.doff)/hammerBufsize*hammerBufsize)+
      (e.dataOffset%hammerBufsize+(off-e.doff)%hammerBufsize+j)) := by
  have hmod := Nat.add_mul_mod_self_right e.dataOffset ((off-e.doff)/hammerBufsize) hammerBufsize
  have hdiv := Nat.div_add_mod' (off-e.doff) hammerBufsize
  rw [fileByte_of_mem he (by omega) (by omega),← hmod,Nat.add_assoc,← byteAt_add (by rw [hmod]; omega)]
  congr 1
  omega

/-- The loop does what it is to do if and only if every record that it needs is read in one buffer at a time. -/
theorem hreadfLoop_iff (hs : OrderedSearch d recs hfind) (fuel : ℕ) {s : Hfs} (hsound : Sound d s)
    (hfuel : len < fuel) :
    LoopRight d recs off len o buf (hreadfLoop d hfind fuel s off len o buf) ↔
      ∀ e ∈ recs.elms, OneBuffer e off len := by
  induction fuel generalizing s off len o buf with
  | zero => omega
  | succ fuel ih =>
    rw [hreadfLoop]
    by_cases hlen : len = 0
    · subst hlen
      rw [if_pos rfl]
      refine ⟨fun _ e _ hlt => ?_,fun _ => ⟨_,rfl,rfl,?_,by simp⟩⟩
      · omega
      · ext j
        rw [blit_outside (by omega)]
    · rw [if_neg hlen]
      have hsound' := hs.sound s (off+1) hsound
      have hleast := hs.least s (off+1) hsound
      have hnone := hs.none s (off+1) hsound
      generalize hfind s (off+1) = r at *
      obtain ⟨e | e,s'⟩ := r
      · exact loopRight_end s' fun e he => Nat.lt_succ_iff.mp (hnone rfl e he)
      · obtain ⟨he,hkey,hmin⟩ := hleast e rfl
        have hkl := e.len_le
        dsimp only
        rw [if_neg (by omega)]
        by_cases hhole : off < e.doff
        · obtain ⟨hright,hcond⟩ := loopRight_hole he hmin (min_le_right (e.doff-off) len) (by omega)
            (hreadfLoop d hfind fuel s' (off+min (e.doff-off) len) (len-min (e.doff-off) len)
              (o+min (e.doff-off) len) (blit buf o (min (e.doff-off) len) fun _ => 0))
          rw [if_pos hhole,← hright,← hcond]
          exact ih hsound' (by omega)
        · have hrest : e.dataLen-(off-e.doff) = e.key-off := by
            unfold DataElm.doff at *
            omega
          have hpos : 0 < min (e.key-off) len := by omega
          have hb : (off-e.doff)%hammerBufsize < hammerBufsize := Nat.mod_lt _ (by decide)
          have hmod := Nat.add_mul_mod_self_right e.dataOffset ((off-e.doff)/hammerBufsize) hammerBufsize
          obtain ⟨p,s'',hread,hplace,hsound'',hdata⟩ :=
            hread_sound hsound' (e.dataOffset+(off-e.doff)/hammerBufsize*hammerBufsize)
          rw [if_neg hhole,hrest,passBuffers_eq _ _ le_rfl]
          dsimp only
          rw [hread,oneBuffer_split he hmin (not_lt.mp hhole) hkey (Nat.pos_of_ne_zero hlen) hmod]
          dsimp only
          rw [loopRight_log]
          dsimp only
          rw [hplace,chunkLen_inside hb hpos]
          apply and_congr_right
          intro hin
          obtain ⟨hle,hn,hfit,-⟩ := chunkLen_le hpos hin
          rw [← ih hsound'' (by omega),loopRight_piece (by omega)]
          intro j hj
          rw [hmod] at hfit ⊢
          rw [fileByte_piece he (not_lt.mp hhole) (by omega) (by omega)]
          exact hdata _ (by omega)

end Loop

/-- A piece of a file is read as it is if and only if every record that holds some of it starts at a buffer of the
device, or has what is wanted of it in one. -/
theorem hreadf_right_iff (d : HammerDev) (recs : DataRecords) (hfind : Hfs → ℕ → Option DataElm × Hfs)
    (hs : OrderedSearch d recs hfind) (s : Hfs) (hsound : Sound d s) (off len : ℕ) (buf : ℕ → UInt8) :
    (∃ r, hreadf d hfind s off len buf = some r ∧ HreadfRight d recs off len buf r) ↔
      ∀ e ∈ recs.elms, OneBuffer e off len := by
  have hloop : LoopRight d recs off len 0 buf (hreadfLoop d hfind (len+1) s off len 0 buf) ↔ _ :=
    hreadfLoop_iff hs (len+1) hsound (Nat.lt_succ_self len)
  rw [← hloop]
  unfold hreadf
  constructor
  · rintro ⟨r,hr,hret,hbuf,hin⟩
    obtain ⟨e,he,rfl⟩ := Option.map_eq_some_iff.mp hr
    refine ⟨e,he,?_,hbuf,hin⟩
    dsimp only at hret
    cases hoff : e.off with
    | none =>
      rw [hoff,Option.elim_none] at hret
      omega
    | some n =>
      rw [hoff,Option.elim_some] at hret
      congr 1
      omega
  · rintro ⟨e,he,hoff,hbuf,hin⟩
    refine ⟨_,by rw [he,Option.map_some],?_,hbuf,hin⟩
    dsimp only
    rw [hoff,Option.elim_some,Nat.cast_add,add_sub_cancel_left]

/-- The search over the list of the records. -/
def listFind (recs : DataRecords) (s : Hfs) (key : ℕ) : Option DataElm × Hfs :=
  (recs.elms.find? fun e => key ≤ e.key,s)

theorem listFind_ordered (d : HammerDev) (recs : DataRecords) : OrderedSearch d recs (listFind recs) where
  sound _ _ h := h
  least s key _ e he := by
    have hkey := List.find?_some he
    simp only [decide_eq_true_eq] at hkey
    refine ⟨List.mem_of_find?_eq_some he,hkey,fun a ha hle => ?_⟩
    obtain ⟨l,l',hl,hbefore⟩ := List.find?_eq_some_iff_append.mp he |>.2
    have hsorted := recs.disjoint
    rw [hl] at hsorted ha
    rcases List.mem_append.mp ha with ha | ha
    · have := hbefore a ha
      simp only [hle,decide_true,Bool.not_true,Bool.false_eq_true] at this
    · rcases List.mem_cons.mp ha with rfl | ha
      · exact le_rfl
      · have hrel := (List.pairwise_cons.mp (List.pairwise_append.mp hsorted).2.1).1 a ha
        exact hrel.1.le
  none s key _ h e he := by
    have hno := List.find?_eq_none.mp h e he
    simp only [decide_eq_true_eq,not_le] at hno
    exact hno

theorem hinitBuffers_sound (d : HammerDev) (data : ℕ → ℕ → UInt8) : Sound d (hinitBuffers data []).hfs :=
  ⟨hinitBuffers_inv data [],by simp [hinitBuffers]⟩

/-- A file of one record. -/
def oneRecord (e : DataElm) : DataRecords := ⟨[e],List.pairwise_singleton _ e⟩

/-- A record that starts at a buffer, read across the end of it. -/
theorem hreadf_right_aligned : ∃ r, hreadf sevens (listFind (oneRecord ⟨16390,16384,16390,le_rfl,by norm_num⟩))
      (hinitBuffers (fun _ _ => 0) []).hfs 16380 8 (fun _ => 0) = some r ∧
    HreadfRight sevens (oneRecord ⟨16390,16384,16390,le_rfl,by norm_num⟩) 16380 8 (fun _ => 0) r :=
  (hreadf_right_iff sevens _ _ (listFind_ordered sevens _) _ (hinitBuffers_sound sevens _) 16380 8 fun _ => 0).mpr
    (by decide)

/-- The second byte of a record that starts at the last byte of a buffer: it is taken from behind the buffer. -/
theorem hreadf_beyond_buffer : ¬ ∃ r, hreadf sevens (listFind (oneRecord ⟨2,16383,2,le_rfl,by norm_num⟩))
      (hinitBuffers (fun _ _ => 0) []).hfs 1 1 (fun _ => 0) = some r ∧
    HreadfRight sevens (oneRecord ⟨2,16383,2,le_rfl,by norm_num⟩) 1 1 (fun _ => 0) r := by
  rintro ⟨r,hr,hright⟩
  have hbyte : (hreadf sevens (listFind (oneRecord ⟨2,16383,2,le_rfl,by norm_num⟩))
      (hinitBuffers (fun _ _ => 0) []).hfs 1 1 (fun _ => 0)).map (fun r => r.2.buf 0) = some 0 := by decide
  rw [hr,Option.map_some,hright.buf] at hbyte
  exact absurd hbyte (by decide)

end Blub.Stand
