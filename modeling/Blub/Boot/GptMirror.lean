import Blub.Boot.GptRead
import Blub.Boot.GptOrder

/-! The two copies of a GPT stay valid and equal, on the drive and in memory, through every sequence
of calls. -/
namespace Blub.Boot
open Blub.Bytes Blub.Gpt

section Flags
variable {t t' t'' : ℕ → UInt8} {i : ℕ}

/-- Entry `i` of `t'` differs from that of `t` in the boot flags only. -/
structure FlagsOnly (t t' : ℕ → UInt8) (i : ℕ) : Prop where
  attr : ∀ b, b ≠ 57 → b ≠ 58 → b ≠ 59 →
    (entAttr t' (i*entStructSize)).getLsbD b = (entAttr t (i*entStructSize)).getLsbD b
  rest : ∀ j < entStructSize, j < 48 ∨ 56 ≤ j → t' (i*entStructSize+j) = t (i*entStructSize+j)

theorem FlagsOnly.refl (t : ℕ → UInt8) (i : ℕ) : FlagsOnly t t i :=
  ⟨fun _ _ _ _ => rfl,fun _ _ _ => rfl⟩

theorem FlagsOnly.trans (h : FlagsOnly t t' i) (h' : FlagsOnly t' t'' i) : FlagsOnly t t'' i :=
  ⟨fun b h₁ h₂ h₃ => (h'.attr b h₁ h₂ h₃).trans (h.attr b h₁ h₂ h₃),
    fun j hj ho => (h'.rest j hj ho).trans (h.rest j hj ho)⟩

theorem FlagsOnly.of_eq {n : ℕ} (hi : i < n) (h : ∀ j < n*entStructSize, t' j = t j) : FlagsOnly t t' i := by
  refine ⟨fun b _ _ _ => ?_,fun j hj _ => ?_⟩
  · rw [entAttr_congr]
    intro j h₁ h₂
    apply h
    simp only [entStructSize] at h₁ h₂ ⊢
    omega
  · apply h
    simp only [entStructSize] at hj ⊢
    omega

/-- A change of attributes that keeps to the boot flags. -/
def KeepsOthers (f : BitVec 64 → BitVec 64) : Prop :=
  ∀ a b, b ≠ 57 → b ≠ 58 → b ≠ 59 → (f a).getLsbD b = a.getLsbD b

theorem keepsOthers_clearBootme : KeepsOthers clearBootme := by
  intro a b _ _ h₃
  simp [getLsbD_clearBootme,h₃]

theorem keepsOthers_failBootonce : KeepsOthers failBootonce := by
  intro a b h₁ h₂ _
  simp [getLsbD_failBootonce,h₁,h₂]

theorem keepsOthers_convAttr : KeepsOthers convAttr := by
  intro a b h₁ h₂ h₃
  unfold convAttr
  split_ifs
  · exact keepsOthers_failBootonce a b h₁ h₂ h₃
  · rfl

theorem flagsOnly_withAttr {f : BitVec 64 → BitVec 64} (hf : KeepsOthers f) (t : ℕ → UInt8) (e i : ℕ) :
    FlagsOnly t (withAttr f t e) i := by
  refine ⟨?_,?_⟩
  · intro b h₁ h₂ h₃
    rw [entAttr_withAttr]
    split_ifs with he
    · rw [he,hf _ b h₁ h₂ h₃]
    · rfl
  · intro j hj ho
    apply withAttr_outside
    simp only [entStructSize] at hj ⊢
    omega

theorem flagsOnly_convRange (t : ℕ → UInt8) (a c i : ℕ) : FlagsOnly t (convRange t a c) i := by
  induction c with
  | zero => exact FlagsOnly.refl t i
  | succ c ih =>
    rw [convRange_succ]
    exact ih.trans (flagsOnly_withAttr keepsOthers_convAttr _ _ _)

end Flags

section Update
variable {d : Drive} {k : Copy}

/-- A copy that can be written back as a whole: the header covers all of its fields and stands
outside of the table, and the table ends with a sector. -/
structure Copy.Sound (k : Copy) : Prop where
  size : 92 ≤ hdrSize k.hdr
  full : 4 ∣ hdrEntries k.hdr
  split : k.Split

/-- What a write-back keeps of a copy and leaves alone outside of it. -/
structure WroteBack (d : Drive) (k : Copy) (t : ℕ → UInt8) (k' : Copy) (d' : Drive) : Prop where
  loaded : Loaded d' k'
  lba : k'.lba = k.lba
  table : k'.table = t
  fields : SameFields k.hdr k'.hdr
  like : d.Like d'
  frame : ∀ x, ¬ k.area x → d.SameAt d' x

theorem gptbootconv_wroteBack (h : Loaded d k) (hw : d.AllWritable) (hs : k.Sound) :
    ∃ k' d', gptbootconv k d = some (k',d') ∧ WroteBack d k (convRange k.table 0 (hdrEntries k.hdr)) k' d' := by
  obtain ⟨k',d',hc,hl,ht,hlike,hframe,hno,hyes⟩ := gptbootconv_spec h hw
  have hn : k.converted = hdrEntries k.hdr := by
    rw [Copy.converted,Nat.mul_div_cancel' hs.full]
  rw [hn] at ht
  refine ⟨k',d',hc,?_,hl,ht,(gptbootconv_mem hc).2,hlike,hframe⟩
  by_cases hconv : k.converts
  · obtain ⟨hhdr,hwb⟩ := hyes hconv
    have hload := (hwb hs.split).loaded (keepsCrc_of_le hs.size (crc32_lt _ _))
    rwa [← hhdr,← hl] at hload
  · obtain ⟨rfl,rfl⟩ := hno hconv
    exact h

/-- `gptupdate` after the attributes of one entry have been changed in memory. -/
theorem gptupdate_wroteBack (f : BitVec 64 → BitVec 64) {i : ℕ} (h : Loaded d k) (hw : d.AllWritable)
    (hs : k.Sound) (hi : i < hdrEntries k.hdr) :
    ∃ k' d', gptupdate {k with table := withAttr f k.table i} d i = some (k',d') ∧
      WroteBack d k (withAttr f k.table i) k' d' := by
  have hn := h.usable.entries
  simp only [maxTblents] at hn
  obtain ⟨q,hq⟩ := hs.full
  have hread : ∀ i, 4*i < hdrEntries k.hdr → d.Readable (hdrLbaTable k.hdr+i) := by
    intro i hi
    rw [h.entries] at hi
    rw [h.lbaTable]
    exact h.valid.tableReadable i (by omega) hi
  have hT := h.lbaTable_lt
  have hsec := (hread (i/4) (by omega)).1
  have hwr := Drive.drvwrite_of_lt hw (show hdrLbaTable k.hdr+i/4 < d.sectors from hsec)
    (fun j => withAttr f k.table i (i/4*4*entStructSize+j))
  obtain ⟨d₁,hd₁⟩ : ∃ d₁, d.put (hdrLbaTable k.hdr+i/4)
      (fun j => withAttr f k.table i (i/4*4*entStructSize+j)) = d₁ := ⟨_,rfl⟩
  have hlike : d.Like d₁ := by
    rw [← hd₁]
    exact d.like_put _ _
  have hu : ({k with table := withAttr f k.table i} : Copy).Usable := ⟨hn,h.usable.size,h.usable.entsz⟩
  have hlba : hdrLbaSelf k.hdr = k.lba := h.hdrOk.accepted.2.1
  have hseal : ∀ v, hdrSize (sealHdr k.hdr v) = hdrSize k.hdr := fun v => (sameFields_sealHdr _ _).size
  have hwr' := Drive.drvwrite_of_lt (hlike.allWritable hw) (show k.lba < d₁.sectors by
    rw [hlike.sectors]
    exact h.valid.readable.1)
  have hper : devBsize/hdrEntsz k.hdr = 4 := by rw [h.usable.entsz]; rfl
  have hupd : gptupdate {k with table := withAttr f k.table i} d i =
      some (⟨sealHdr k.hdr (crc32 (withAttr f k.table i) (hdrEntries k.hdr*128)),withAttr f k.table i,k.lba⟩,
        d₁.put k.lba (cutHdr (sealHdr k.hdr (crc32 (withAttr f k.table i) (hdrEntries k.hdr*128))))) := by
    unfold gptupdate
    simp only [hper]
    rw [if_neg (by simp only [tableBytes,maxTblents,entStructSize,devBsize]; omega),
      show (i/4+hdrLbaTable k.hdr)%2^64 = hdrLbaTable k.hdr+i/4 by omega,hwr,hd₁]
    simp only [rewriteHdr_eq hu,hlba,hwr',Option.getD_some,cutHdr,hseal]
  have hwb : WrittenBack (d₁.put k.lba (cutHdr (sealHdr k.hdr (crc32 (withAttr f k.table i)
      (hdrEntries k.hdr*128))))) k.hdr (withAttr f k.table i) k.lba := by
    refine ⟨h.hdrOk.accepted,h.hdrOk.size,h.usable.entsz,by rw [h.entries]; exact h.valid.entries,
      hlike.readable.mpr h.valid.readable,fun i _ hi => hlike.readable.mpr (hread i hi),?_,d₁.from_put _ _⟩
    intro j hj
    rw [Drive.sameAt_table (fun i hi => d₁.sameAt_put _ (hs.split i hi)) j hj,← hd₁,Drive.from_eq]
    -- the sector that was written holds the change, the others were in step before
    by_cases hin : 512*(i/4) ≤ j ∧ j < 512*(i/4)+512
    · rw [d.put_inside _ (by omega) (by omega)]
      rw [show i/4*4*entStructSize+(512*hdrLbaTable k.hdr+j-512*(hdrLbaTable k.hdr+i/4)) = j by
        simp only [entStructSize]
        omega]
    · rw [d.put_outside _ (by omega),← Drive.from_eq,withAttr_outside (by
        simp only [entStructSize]
        omega)]
      rw [h.table j (by rw [← h.entries]; exact hj),h.lbaTable]
      rfl
  refine ⟨_,_,hupd,hwb.loaded (keepsCrc_of_le hs.size (crc32_lt _ _)),rfl,rfl,sameFields_sealHdr _ _,
    hlike.trans (d₁.like_put _ _),?_⟩
  intro x hx
  simp only [Copy.area] at hx
  have h₁ : d.SameAt d₁ x := by
    rw [← hd₁]
    apply d.sameAt_put
    intro he
    omega
  exact h₁.trans (d₁.sameAt_put _ (by omega))

end Update

/-- Where the headers are: the second one is found through the first. -/
def Drive.place (d : Drive) : Which → ℕ
  | .primary => 1
  | .backup => hdrLbaAlt (d.from 1)

/-- A drive with two valid copies that are equal and apart. -/
structure TwoCopies (d : Drive) : Prop where
  valid : ∀ c, d.ValidAt (d.place c)
  alt : d.place .backup ≠ 0
  size : ∀ c, 92 ≤ hdrSize (d.from (d.place c))
  entries : d.entriesAt (d.place .backup) = d.entriesAt 1
  full : 4 ∣ d.entriesAt 1
  tables : ∀ j < d.entriesAt 1*128, d.tableAt (d.place .backup) j = d.tableAt 1 j
  split : ∀ c, (d.copyAt (d.place c)).Split
  apart : ∀ x, d.area 1 x → ¬ d.area (d.place .backup) x

theorem TwoCopies.entriesAt {d : Drive} (h : TwoCopies d) (c : Which) :
    d.entriesAt (d.place c) = d.entriesAt 1 := by
  cases c with
  | primary => rfl
  | backup => exact h.entries

theorem TwoCopies.disjoint {d : Drive} (h : TwoCopies d) {c c' : Which} (hc : c ≠ c') {x : ℕ}
    (hx : d.area (d.place c) x) : ¬ d.area (d.place c') x := by
  intro hx'
  cases c with
  | primary =>
    cases c' with
    | primary => exact hc rfl
    | backup => exact h.apart x hx hx'
  | backup =>
    cases c' with
    | primary => exact h.apart x hx' hx
    | backup => exact hc rfl

/-- The fields of a header that say where the copy is and how much it covers. -/
structure Shape (h h' : ℕ → UInt8) : Prop where
  size : hdrSize h' = hdrSize h
  entries : hdrEntries h' = hdrEntries h
  lbaTable : hdrLbaTable h' = hdrLbaTable h
  lbaAlt : hdrLbaAlt h' = hdrLbaAlt h

theorem Shape.trans {h₁ h₂ h₃ : ℕ → UInt8} (a : Shape h₁ h₂) (b : Shape h₂ h₃) : Shape h₁ h₃ :=
  ⟨b.size.trans a.size,b.entries.trans a.entries,b.lbaTable.trans a.lbaTable,b.lbaAlt.trans a.lbaAlt⟩

theorem Agree.shape {h h' : ℕ → UInt8} (a : Agree h h') : Shape h h' :=
  ⟨a.size,a.entries,a.lbaTable,a.lbaAlt⟩

theorem shape_of_sameFields {h h' : ℕ → UInt8} (s : SameFields h h') : Shape h h' :=
  ⟨s.size,s.entries,s.lbaTable,s.lbaAlt⟩

/-- What `d₀` has become on the drive `d`. -/
structure OnDrive (d₀ d : Drive) : Prop where
  like : d₀.Like d
  valid : ∀ c, d.ValidAt (d₀.place c)
  shape : ∀ c, Shape (d₀.from (d₀.place c)) (d.from (d₀.place c))
  tables : ∀ j < d₀.entriesAt 1*128, d.tableAt (d₀.place .backup) j = d.tableAt 1 j
  flags : ∀ c, ∀ i < d₀.entriesAt 1, FlagsOnly (d₀.tableAt (d₀.place c)) (d.tableAt (d₀.place c)) i

/-- The copies in memory beside those on the drive. -/
structure Mirror (d₀ d : Drive) (k : Which → Copy) : Prop where
  drive : OnDrive d₀ d
  lba : ∀ c, (k c).lba = d₀.place c
  loaded : ∀ c, Loaded d (k c)
  blank : ∀ c j, d₀.entriesAt 1*128 ≤ j → (k c).table j = 0

section Mirror
variable {d₀ d : Drive} {k : Which → Copy}

theorem TwoCopies.onDrive (h : TwoCopies d₀) : OnDrive d₀ d₀ :=
  ⟨Drive.Like.refl _,h.valid,fun _ => (Agree.refl _).shape,h.tables,fun _ _ _ => FlagsOnly.refl _ _⟩

theorem OnDrive.entriesAt (h : OnDrive d₀ d) (h₂ : TwoCopies d₀) (c : Which) :
    d.entriesAt (d₀.place c) = d₀.entriesAt 1 := (h.shape c).entries.trans (h₂.entriesAt c)

theorem OnDrive.area_iff (h : OnDrive d₀ d) (c : Which) (x : ℕ) :
    d.area (d₀.place c) x ↔ d₀.area (d₀.place c) x := by
  unfold Drive.area Drive.entriesAt
  rw [(h.shape c).lbaTable,(h.shape c).entries]

theorem sound_of_shape (h₂ : TwoCopies d₀) {c : Which} {k : Copy} (hl : k.lba = d₀.place c)
    (hs : Shape (d₀.from (d₀.place c)) k.hdr) : k.Sound := by
  have hn : hdrEntries k.hdr = d₀.entriesAt (d₀.place c) := hs.entries
  refine ⟨by rw [hs.size]; exact h₂.size c,by rw [hn,h₂.entriesAt]; exact h₂.full,?_⟩
  intro i hi
  rw [hn] at hi
  rw [hs.lbaTable,hl]
  exact h₂.split c i hi

namespace Mirror

theorem shape (m : Mirror d₀ d k) (c : Which) : Shape (d₀.from (d₀.place c)) (k c).hdr := by
  have ha := (m.loaded c).hdr
  rw [m.lba] at ha
  exact (m.drive.shape c).trans ha.shape

theorem entries (m : Mirror d₀ d k) (h₂ : TwoCopies d₀) (c : Which) :
    hdrEntries (k c).hdr = d₀.entriesAt 1 := (m.shape c).entries.trans (h₂.entriesAt c)

theorem table (m : Mirror d₀ d k) (h₂ : TwoCopies d₀) (c : Which) :
    ∀ j < d₀.entriesAt 1*128, (k c).table j = d.tableAt (d₀.place c) j := by
  intro j hj
  have ht := (m.loaded c).table j
  rw [m.lba,m.drive.entriesAt h₂] at ht
  exact ht hj

theorem area_iff (m : Mirror d₀ d k) (c : Which) (x : ℕ) : (k c).area x ↔ d₀.area (d₀.place c) x := by
  rw [← (m.loaded c).area_iff,m.lba,m.drive.area_iff]

end Mirror

/-- A change of the table that `gptread` or `gptupdate` makes. -/
structure TableChange (n : ℕ) (g : (ℕ → UInt8) → ℕ → UInt8) : Prop where
  congr : ∀ t u : ℕ → UInt8, (∀ j < n*entStructSize, u j = t j) → ∀ j < n*entStructSize, g u j = g t j
  flags : ∀ t i, FlagsOnly t (g t) i
  blank : ∀ t j, n*entStructSize ≤ j → g t j = t j

theorem tableChange_convRange (n : ℕ) : TableChange n (fun t => convRange t 0 n) := by
  refine ⟨fun t u h => convRange_congr 0 n (by omega) h,fun t i => flagsOnly_convRange t 0 n i,?_⟩
  intro t j hj
  apply convRange_other
  intro i _ hi
  simp only [entStructSize] at hj ⊢
  omega

theorem tableChange_withAttr {f : BitVec 64 → BitVec 64} (hf : KeepsOthers f) {n e : ℕ} (he : e < n) :
    TableChange n (fun t => withAttr f t e) := by
  refine ⟨fun t u h => withAttr_congr he h,fun t i => flagsOnly_withAttr hf t e i,?_⟩
  intro t j hj
  apply withAttr_outside
  simp only [entStructSize] at hj ⊢
  omega

/-- Two copies for the two places. -/
def pick (p b : Copy) : Which → Copy
  | .primary => p
  | .backup => b

/-- Both copies are written back, one after the other, with the same change. -/
theorem Mirror.step (m : Mirror d₀ d k) (h₂ : TwoCopies d₀) (hw : d₀.AllWritable)
    {g : (ℕ → UInt8) → ℕ → UInt8} (hg : TableChange (d₀.entriesAt 1) g)
    (op : Copy → Drive → Option (Copy × Drive))
    (hop : ∀ c d, Loaded d (k c) → d.AllWritable → (k c).Sound →
      ∃ k' d', op (k c) d = some (k',d') ∧ WroteBack d (k c) (g (k c).table) k' d') :
    ∃ p b d₁ d₂, op (k .primary) d = some (p,d₁) ∧ op (k .backup) d₁ = some (b,d₂) ∧
      p.lba = 1 ∧ b.lba = d₀.place .backup ∧ Mirror d₀ d₂ (pick p b) := by
  have hsound : ∀ c, (k c).Sound := fun c => sound_of_shape h₂ (m.lba c) (m.shape c)
  obtain ⟨p,d₁,hp,wp⟩ := hop .primary d (m.loaded _) (m.drive.like.allWritable hw) (hsound _)
  have hlike₁ := m.drive.like.trans wp.like
  have hload₁ : Loaded d₁ (k .backup) := by
    apply (m.loaded .backup).congr wp.like
    intro x hx
    rw [m.lba,m.drive.area_iff] at hx
    apply wp.frame
    rw [m.area_iff]
    exact h₂.disjoint (by decide) hx
  obtain ⟨b,d₂,hb,wb⟩ := hop .backup d₁ hload₁ (hlike₁.allWritable hw) (hsound _)
  have hplba : p.lba = d₀.place .primary := wp.lba.trans (m.lba _)
  have hblba : b.lba = d₀.place .backup := wb.lba.trans (m.lba _)
  have hpshape : Shape (d₀.from (d₀.place .primary)) p.hdr := (m.shape _).trans (shape_of_sameFields wp.fields)
  have hbshape : Shape (d₀.from (d₀.place .backup)) b.hdr := (m.shape _).trans (shape_of_sameFields wb.fields)
  have hload₂ : Loaded d₂ p := by
    apply wp.loaded.congr wb.like
    intro x hx
    apply wb.frame
    rw [wp.loaded.area_iff,Copy.area,hplba,hpshape.lbaTable,hpshape.entries] at hx
    rw [m.area_iff]
    exact h₂.disjoint (c := .primary) (by decide) hx
  have hload : ∀ c, Loaded d₂ (pick p b c) := by
    intro c
    cases c with
    | primary => exact hload₂
    | backup => exact wb.loaded
  have hlba : ∀ c, (pick p b c).lba = d₀.place c := by
    intro c
    cases c with
    | primary => exact hplba
    | backup => exact hblba
  have hshape : ∀ c, Shape (d₀.from (d₀.place c)) (pick p b c).hdr := by
    intro c
    cases c with
    | primary => exact hpshape
    | backup => exact hbshape
  have htab : ∀ c, (pick p b c).table = g (k c).table := by
    intro c
    cases c with
    | primary => exact wp.table
    | backup => exact wb.table
  have hdshape : ∀ c, Shape (d₀.from (d₀.place c)) (d₂.from (d₀.place c)) := by
    intro c
    have ha := (hload c).hdr.symm
    rw [hlba] at ha
    exact (hshape c).trans ha.shape
  have hdtab : ∀ c, ∀ j < d₀.entriesAt 1*128, d₂.tableAt (d₀.place c) j = g (k c).table j := by
    intro c j hj
    have ht := (hload c).table j
    rw [hlba,Drive.entriesAt,(hdshape c).entries,htab] at ht
    exact (ht (by rw [← h₂.entriesAt c] at hj; exact hj)).symm
  refine ⟨p,b,d₁,d₂,hp,hb,hplba,hblba,⟨hlike₁.trans wb.like,?_,hdshape,?_,?_⟩,hlba,hload,?_⟩
  · intro c
    rw [← hlba]
    exact (hload c).valid
  · intro j hj
    rw [hdtab .backup j hj]
    have hsame := hg.congr (k .primary).table (k .backup).table (fun j hj => by
      rw [m.table h₂ .primary j hj,m.table h₂ .backup j hj]
      exact m.drive.tables j hj) j hj
    rw [hsame]
    exact (hdtab .primary j hj).symm
  · intro c i hi
    have hmem : FlagsOnly (d.tableAt (d₀.place c)) (k c).table i := FlagsOnly.of_eq hi (m.table h₂ c)
    have hdisk : FlagsOnly (g (k c).table) (d₂.tableAt (d₀.place c)) i := FlagsOnly.of_eq hi (hdtab c)
    exact (m.drive.flags c i hi).trans (hmem.trans ((hg.flags _ i).trans hdisk))
  · intro c j hj
    rw [htab,hg.blank _ j hj]
    exact m.blank c j hj

end Mirror

/-- The state between two calls, once the first `gptread` is done. -/
structure Mirrors (d₀ : Drive) (s : GptBoot) : Prop where
  mirror : Mirror d₀ s.drive s.copy
  gpt : ∃ g, s.gpt = some g
  low : -1 ≤ s.curent
  high : s.curent ≤ d₀.entriesAt 1

section Calls
variable {d₀ : Drive} {s : GptBoot}

theorem update_both (k : Which → Copy) (p b : Copy) :
    Function.update (Function.update k .primary p) .backup b = pick p b := by
  funext c
  cases c with
  | primary => simp [pick]
  | backup => simp [pick]

theorem copy_setCopy_both (s : GptBoot) (p b : Copy) (d : Drive) :
    ({s.setCopy .primary p with drive := d} : GptBoot).setCopy .backup b = {s with copy := pick p b, drive := d} := by
  simp only [GptBoot.setCopy,update_both]

theorem readCopies_mirror (h₂ : TwoCopies d₀) (hd : OnDrive d₀ s.drive)
    (hb : ∀ c j, d₀.entriesAt 1*128 ≤ j → (s.copy c).table j = 0) :
    ∃ s', readCopies s = some s' ∧ Mirror d₀ s'.drive s'.copy ∧ s'.gpt = some .primary ∧
      s'.curent = s.curent := by
  obtain ⟨p,hp,hpl,hpload,hpb⟩ := (hd.valid .primary).readCopy (s.copy .primary)
  obtain ⟨b,hbr,hbl,hbload,hbb⟩ := (hd.valid .backup).readCopy (s.copy .backup)
  have hp' : readCopy s.drive (s.copy .primary) 1 = some (true,p) := hp
  have hpl' : p.lba = 1 := hpl
  have halt : hdrLbaAlt p.hdr = d₀.place .backup := by
    have ha := hpload.hdr.lbaAlt
    rw [hpl'] at ha
    exact ha.trans (hd.shape .primary).lbaAlt
  refine ⟨{s with copy := pick p b, gpt := some .primary},?_,?_,rfl,rfl⟩
  · unfold readCopies
    simp only [hp',Option.bind_eq_bind,Option.bind_some,hpl',one_pos,if_true,halt,if_neg h₂.alt,
      GptBoot.setCopy,Function.update_of_ne (show Which.backup ≠ .primary by decide),hbr,Option.pure_def,
      update_both]
    rfl
  · refine ⟨hd,?_,?_,?_⟩
    · intro c
      cases c with
      | primary => exact hpl
      | backup => exact hbl
    · intro c
      cases c with
      | primary => exact hpload
      | backup => exact hbload
    · intro c j hj
      cases c with
      | primary => exact (hpb j (by rw [hd.entriesAt h₂]; exact hj)).trans (hb _ j hj)
      | backup => exact (hbb j (by rw [hd.entriesAt h₂]; exact hj)).trans (hb _ j hj)

/-- `gptread`, the first time or again. -/
theorem gptread_mirrors (h₂ : TwoCopies d₀) (hw : d₀.AllWritable) (hd : OnDrive d₀ s.drive)
    (hb : ∀ c j, d₀.entriesAt 1*128 ≤ j → (s.copy c).table j = 0) :
    ∃ s', gptread s = some (0,s') ∧ Mirrors d₀ s' := by
  obtain ⟨s₁,hr,m,hg,hcur⟩ := readCopies_mirror (s := {s with curent := -1, bootonce := true, start := 0})
    h₂ hd hb
  obtain ⟨p,b,d₁,d₂,hp,hb,hpl,hbl,m'⟩ := m.step h₂ hw (tableChange_convRange _) gptbootconv (by
    intro c d hl hwr hs
    rw [← m.entries h₂ c]
    exact gptbootconv_wroteBack hl hwr hs)
  have h₁ : convCopy s₁ .primary = some {s₁.setCopy .primary p with drive := d₁} := by
    unfold convCopy
    rw [m.lba,if_pos (show d₀.place .primary ≠ 0 from one_ne_zero),hp]
    rfl
  have hcopy : ({s₁.setCopy .primary p with drive := d₁} : GptBoot).copy .backup = s₁.copy .backup := by
    simp [GptBoot.setCopy]
  have h₃ : convCopy {s₁.setCopy .primary p with drive := d₁} .backup =
      some {s₁ with copy := pick p b, drive := d₂} := by
    unfold convCopy
    rw [hcopy,m.lba,if_pos h₂.alt]
    dsimp only
    rw [hb]
    simp only [Option.bind_eq_bind,Option.bind_some,copy_setCopy_both,Option.pure_def]
  refine ⟨{s₁ with copy := pick p b, drive := d₂},?_,m',⟨_,hg⟩,?_,?_⟩
  · unfold gptread
    simp only [hr,h₁,h₃,Option.bind_eq_bind,Option.bind_some,Option.pure_def,pick,hpl]
    rfl
  · exact hcur.ge
  · rw [hcur]
    dsimp only
    omega

theorem changeAttr_of_lba {f : BitVec 64 → BitVec 64} {s : GptBoot} {c : Which} {k : Copy} {d : Drive}
    (hl : (s.copy c).lba ≠ 0)
    (h : gptupdate {s.copy c with table := withAttr f (s.copy c).table s.curent.toNat} s.drive
      s.curent.toNat = some (k,d)) : changeAttr f s c = some {s.setCopy c k with drive := d} := by
  unfold changeAttr
  rw [withAttr] at h
  simp only [if_pos (Nat.pos_of_ne_zero hl),h,Option.bind_eq_bind,Option.bind_some,Option.pure_def]

/-- A change of the attributes of the current entry goes to both copies. -/
theorem changeBoth_mirrors (m : Mirrors d₀ s) (h₂ : TwoCopies d₀) (hw : d₀.AllWritable)
    {f : BitVec 64 → BitVec 64} (hf : KeepsOthers f) (h₀ : 0 ≤ s.curent) (hn : s.curent < d₀.entriesAt 1) :
    ∃ s', changeBoth f s = some s' ∧ Mirrors d₀ s' ∧ s'.curent = s.curent := by
  obtain ⟨p,b,d₁,d₂,hp,hb,hpl,hbl,m'⟩ := m.mirror.step h₂ hw
    (tableChange_withAttr hf (show s.curent.toNat < d₀.entriesAt 1 by omega))
    (fun k d => gptupdate {k with table := withAttr f k.table s.curent.toNat} d s.curent.toNat) (by
      intro c d hl hwr hs
      exact gptupdate_wroteBack f hl hwr hs (by rw [m.mirror.entries h₂ c]; omega))
  have h₁ := changeAttr_of_lba (by rw [m.mirror.lba]; exact one_ne_zero) hp
  have hcopy : ({s.setCopy .primary p with drive := d₁} : GptBoot).copy .backup = s.copy .backup := by
    simp [GptBoot.setCopy]
  have h₃ : changeAttr f {s.setCopy .primary p with drive := d₁} .backup =
      some {s with copy := pick p b, drive := d₂} := by
    rw [changeAttr_of_lba (k := b) (d := d₂) (by rw [hcopy,m.mirror.lba]; exact h₂.alt)
      (by rw [hcopy]; exact hb),copy_setCopy_both]
  refine ⟨{s with copy := pick p b, drive := d₂},?_,⟨m',m.gpt,m.low,m.high⟩,rfl⟩
  unfold changeBoth
  rw [h₁]
  exact h₃

theorem Mirrors.select (m : Mirrors d₀ s) (g : Which) {i : ℕ} (hi : i < d₀.entriesAt 1) :
    Mirrors d₀ (s.select g i) :=
  ⟨m.mirror,m.gpt,by simp only [GptBoot.select]; omega,by simp only [GptBoot.select]; omega⟩

/-- What a call of `gptfind` comes to: a state between two calls, with an entry of the table as the
current one if it was successful. -/
def Finds (d₀ : Drive) (o : Option (ℤ × GptBoot)) : Prop :=
  ∃ r s', o = some (r,s') ∧ Mirrors d₀ s' ∧ (r = 0 → 0 ≤ s'.curent ∧ s'.curent < d₀.entriesAt 1)

theorem gptfound_finds (m : Mirrors d₀ s) (h₂ : TwoCopies d₀) (hw : d₀.AllWritable) (g : Which) {i : ℕ}
    (hi : i < d₀.entriesAt 1) : Finds d₀ (gptfound s g i) := by
  unfold gptfound
  have hcur : (s.select g i).curent = i := rfl
  dsimp only
  split_ifs
  · obtain ⟨s',hs',m',hc⟩ := changeBoth_mirrors (m.select g hi) h₂ hw keepsOthers_clearBootme
      (by omega) (by omega)
    rw [hs']
    exact ⟨0,s',rfl,m',fun _ => by omega⟩
  · exact ⟨0,s.select g i,rfl,m.select g hi,fun _ => by omega⟩

theorem Mirrors.exhausted (m : Mirrors d₀ s) :
    Finds d₀ (some (-1,{s with curent := (d₀.entriesAt 1 : ℤ)})) :=
  ⟨-1,_,rfl,⟨m.mirror,m.gpt,by dsimp only; omega,le_refl _⟩,by omega⟩

theorem gptsearch_finds (m : Mirrors d₀ s) (h₂ : TwoCopies d₀) (hw : d₀.AllWritable) (uuid : ℕ) (g : Which) :
    Finds d₀ (gptsearch uuid s g (d₀.entriesAt 1)) := by
  have m' : Mirrors d₀ {s with bootonce := false} := ⟨m.mirror,m.gpt,m.low,m.high⟩
  unfold gptsearch
  dsimp only
  split
  · exact m.exhausted
  · rename_i hcur
    split
    · rename_i i hi
      apply gptfound_finds m h₂ hw
      split_ifs at hi
      exact scan_lt (by omega) hi
    · split
      · rename_i i hi
        apply gptfound_finds m' h₂ hw
        exact scan_lt (by split_ifs <;> omega) hi
      · split
        · rename_i i hi
          apply gptfound_finds m' h₂ hw
          split_ifs at hi
          exact scan_lt (Nat.zero_le _) hi
        · exact m'.exhausted

theorem gptfind_finds (m : Mirrors d₀ s) (h₂ : TwoCopies d₀) (hw : d₀.AllWritable) (uuid : ℕ) (part : ℤ) :
    Finds d₀ (gptfind uuid s part) := by
  obtain ⟨g,hg⟩ := m.gpt
  have hn := m.mirror.entries h₂ g
  have hle : hdrEntries (s.copy g).hdr ≤ 128 := (m.mirror.loaded g).usable.entries
  have hstay : Finds d₀ (some (-1,s)) := ⟨-1,s,rfl,m,by omega⟩
  unfold gptfind
  simp only [hg,Option.bind_eq_bind,Option.bind_some]
  rw [if_neg (by simp only [maxTblents]; omega),hn]
  split_ifs with hpos hout htype
  · exact hstay
  · exact gptfound_finds m h₂ hw g (by omega)
  · exact hstay
  · exact gptsearch_finds m h₂ hw uuid g

/-- Outside of the table there is no flag to fail on. -/
theorem gptbootfailed_mirrors {s' : GptBoot} (m : Mirrors d₀ s) (h₂ : TwoCopies d₀) (hw : d₀.AllWritable)
    (h : gptbootfailed s = some s') : Mirrors d₀ s' ∧ s'.curent = s.curent := by
  obtain ⟨g,hg⟩ := m.gpt
  unfold gptbootfailed at h
  simp only [hg,Option.bind_eq_bind,Option.bind_some] at h
  split_ifs at h with hrange honce
  · have hn : s.curent < d₀.entriesAt 1 := by
      by_contra hge
      have hzero : entAttr (s.copy g).table (s.curent.toNat*entStructSize) = 0 := by
        have hz : entAttr (fun _ => 0) (s.curent.toNat*entStructSize) = 0 := by
          simp only [entAttr,leGet]
          rfl
        rw [← hz]
        apply entAttr_congr
        intro j h₁ _
        apply m.mirror.blank g
        simp only [entStructSize] at h₁
        omega
      rw [isBootonce_eq,hzero] at honce
      simp at honce
    obtain ⟨s₁,hs,m',hc⟩ := changeBoth_mirrors m h₂ hw keepsOthers_failBootonce (by omega) hn
    rw [hs] at h
    cases h
    exact ⟨m',hc⟩
  · cases h
    exact ⟨m,rfl⟩

theorem gptbootfailed_isSome (m : Mirrors d₀ s) (h₂ : TwoCopies d₀) (hw : d₀.AllWritable)
    (h₀ : 0 ≤ s.curent) (hn : s.curent < d₀.entriesAt 1) : ∃ s', gptbootfailed s = some s' := by
  obtain ⟨g,hg⟩ := m.gpt
  have hle : hdrEntries (s.copy g).hdr ≤ 128 := (m.mirror.loaded g).usable.entries
  rw [m.mirror.entries h₂] at hle
  unfold gptbootfailed
  simp only [hg,Option.bind_eq_bind,Option.bind_some]
  rw [if_neg (by simp only [maxTblents]; omega)]
  split_ifs
  · obtain ⟨s',hs,-⟩ := changeBoth_mirrors m h₂ hw keepsOthers_failBootonce h₀ hn
    exact ⟨s',hs⟩
  · exact ⟨s,rfl⟩

end Calls

/-- The states that calls lead to on a drive, and whether the last `gptfind` since `gptread` was
successful. -/
inductive Calls (d : Drive) : GptBoot → Bool → Prop
  | start {r : ℤ} {s : GptBoot} : gptread (freshBoot d) = some (r,s) → Calls d s false
  | read {s s' : GptBoot} {r : ℤ} {b : Bool} : Calls d s b → gptread s = some (r,s') → Calls d s' false
  | find {s s' : GptBoot} {r : ℤ} {b : Bool} (uuid : ℕ) (part : ℤ) : Calls d s b →
      gptfind uuid s part = some (r,s') → Calls d s' (r = 0)
  | failed {s s' : GptBoot} {b : Bool} : Calls d s b → gptbootfailed s = some s' → Calls d s' b

theorem Calls.mirrors {d : Drive} {s : GptBoot} {b : Bool} (h : Calls d s b) (h₂ : TwoCopies d)
    (hw : d.AllWritable) : Mirrors d s ∧ (b = true → 0 ≤ s.curent ∧ s.curent < d.entriesAt 1) := by
  induction h with
  | start hr =>
    obtain ⟨s',hs,m⟩ := gptread_mirrors (s := freshBoot d) h₂ hw h₂.onDrive (fun _ _ _ => rfl)
    rw [hr] at hs
    cases hs
    exact ⟨m,by simp⟩
  | read _ hr ih =>
    obtain ⟨s',hs,m⟩ := gptread_mirrors h₂ hw ih.1.mirror.drive ih.1.mirror.blank
    rw [hr] at hs
    cases hs
    exact ⟨m,by simp⟩
  | find uuid part _ hf ih =>
    obtain ⟨r,s',hs,m,hcur⟩ := gptfind_finds ih.1 h₂ hw uuid part
    rw [hf] at hs
    cases hs
    exact ⟨m,by simpa using hcur⟩
  | failed _ hf ih =>
    obtain ⟨m,hcur⟩ := gptbootfailed_mirrors ih.1 h₂ hw hf
    rw [hcur]
    exact ⟨m,ih.2⟩

/-- Both copies on the drive are valid, with tables that are equal to each other and to those in
memory and differ from the tables of `d₀` in the boot flags only. -/
structure Mirrored (d₀ : Drive) (s : GptBoot) : Prop where
  valid : ∀ c, s.drive.ValidAt (d₀.place c)
  entries : ∀ c, s.drive.entriesAt (d₀.place c) = d₀.entriesAt (d₀.place c)
  equal : ∀ j < d₀.entriesAt 1*128, s.drive.tableAt (d₀.place .backup) j = s.drive.tableAt 1 j
  memory : ∀ c, ∀ j < d₀.entriesAt 1*128, (s.copy c).table j = s.drive.tableAt (d₀.place c) j
  flags : ∀ c, ∀ i < d₀.entriesAt 1, FlagsOnly (d₀.tableAt (d₀.place c)) (s.drive.tableAt (d₀.place c)) i

/-- From two valid, equal and separate copies on, every call leaves them so; no call leaves its
objects, as long as `gptbootfailed` follows a successful `gptfind`. -/
theorem calls_keep_copies {d : Drive} (h₂ : TwoCopies d) (hw : d.AllWritable) :
    (∃ s, gptread (freshBoot d) = some (0,s)) ∧
    ∀ s b, Calls d s b → Mirrored d s ∧ (∃ s', gptread s = some (0,s')) ∧
      (∀ uuid part, ∃ r, gptfind uuid s part = some r) ∧ (b = true → ∃ s', gptbootfailed s = some s') := by
  constructor
  · obtain ⟨s',hs,-⟩ := gptread_mirrors (s := freshBoot d) h₂ hw h₂.onDrive (fun _ _ _ => rfl)
    exact ⟨s',hs⟩
  · intro s b h
    obtain ⟨m,hcur⟩ := h.mirrors h₂ hw
    have hdrive := m.mirror.drive
    refine ⟨⟨hdrive.valid,fun c => (hdrive.shape c).entries,hdrive.tables,m.mirror.table h₂,hdrive.flags⟩,?_,?_,?_⟩
    · obtain ⟨s',hs,-⟩ := gptread_mirrors h₂ hw hdrive m.mirror.blank
      exact ⟨s',hs⟩
    · intro uuid part
      obtain ⟨r,s',hs,-⟩ := gptfind_finds m h₂ hw uuid part
      exact ⟨(r,s'),hs⟩
    · intro hb
      exact gptbootfailed_isSome m h₂ hw (hcur hb).1 (hcur hb).2

/-- A header for four entries, as one of the two copies of a small drive has it. -/
def pairHdr (crcSelf self alt table : ℕ) : ℕ → UInt8 :=
  lePut (lePut (lePut (lePut (lePut (lePut (lePut (lePut (lePut (lePut (fun _ => 0) 0 8 gptHdrSig) 8 4
    0x10000) 12 4 92) 16 4 crcSelf) 24 8 self) 32 8 alt) 72 8 table) 80 4 4) 84 4 128) 88 4 0x8f68d6a4

/-- A drive with two copies of a table whose first entry is to be booted once. -/
def pairDrive : Drive where
  sectors := 5
  byte j :=
    if j < 512 then 0
    else if j < 1024 then pairHdr 0xcf0e8803 1 4 2 (j-512)
    else if j < 2048 then if j%512 = 0 then 1 else if j%512 = 55 then 12 else 0
    else pairHdr 0xd7acf59f 4 1 3 (j-2048)
  readOk _ := true
  writeOk _ := true
  drvsize := 5
  fits := by norm_num

theorem pairDrive_valid {lba table : ℕ} (h : (lba,table) = (1,2) ∨ (lba,table) = (4,3)) :
    pairDrive.ValidAt lba ∧ hdrLbaTable (pairDrive.from lba) = table ∧ pairDrive.entriesAt lba = 4 ∧
      hdrSize (pairDrive.from lba) = 92 := by
  have hT : hdrLbaTable (pairDrive.from lba) = table := by
    obtain h | h := h <;> cases h <;> decide
  have hn : pairDrive.entriesAt lba = 4 := by
    obtain h | h := h <;> cases h <;> decide
  have hs : hdrSize (pairDrive.from lba) = 92 := by
    obtain h | h := h <;> cases h <;> decide
  refine ⟨⟨?_,⟨?_,by rw [hs]; decide,?_⟩,?_,by omega,?_,?_⟩,hT,hn,hs⟩
  · obtain h | h := h <;> cases h <;> exact ⟨by decide,rfl⟩
  · obtain h | h := h <;> cases h <;> decide
  · obtain h | h := h <;> cases h <;> decide +kernel
  · obtain h | h := h <;> cases h <;> decide
  · intro i _ hi
    rw [hT]
    refine ⟨?_,rfl⟩
    show table+i < 5
    obtain h | h := h <;> cases h <;> omega
  · obtain h | h := h <;> cases h <;> decide +kernel

theorem pairDrive_twoCopies : TwoCopies pairDrive := by
  have hp : pairDrive.place .backup = 4 := by decide
  obtain ⟨v₁,t₁,n₁,s₁⟩ := pairDrive_valid (Or.inl rfl)
  obtain ⟨v₄,t₄,n₄,s₄⟩ := pairDrive_valid (Or.inr rfl)
  have htab : ∀ j < 512, pairDrive.from 3 j = pairDrive.from 2 j := by
    intro j hj
    have hb : ∀ b, 1024 ≤ b → b < 2048 → pairDrive.byte b =
        if b%512 = 0 then 1 else if b%512 = 55 then 12 else 0 := by
      intro b h₁ h₂
      simp only [pairDrive]
      rw [if_neg (by omega),if_neg (by omega),if_pos (by omega)]
    rw [Drive.from_eq,Drive.from_eq,hb _ (by omega) (by omega),hb _ (by omega) (by omega),
      show (512*3+j)%512 = (512*2+j)%512 by omega]
  refine ⟨?_,by omega,?_,?_,by omega,?_,?_,?_⟩
  · intro c
    cases c with
    | primary => exact v₁
    | backup => rwa [hp]
  · intro c
    cases c with
    | primary => exact s₁.ge
    | backup => rw [hp,s₄]
  · rw [hp,n₄,n₁]
  · intro j hj
    rw [n₁] at hj
    rw [hp,Drive.tableAt,Drive.tableAt,t₄,t₁]
    exact htab j (by omega)
  · intro c i hi
    cases c with
    | primary =>
      have : hdrLbaTable (pairDrive.copyAt (pairDrive.place .primary)).hdr = 2 := t₁
      rw [this]
      show 2+i ≠ 1
      omega
    | backup =>
      rw [hp] at hi ⊢
      have h₃ : hdrLbaTable (pairDrive.copyAt 4).hdr = 3 := t₄
      have h₄ : hdrEntries (pairDrive.copyAt 4).hdr = 4 := n₄
      rw [h₄] at hi
      rw [h₃]
      show 3+i ≠ 4
      omega
  · intro x
    rw [hp,Drive.area,Drive.area,t₁,t₄,n₁,n₄]
    omega

theorem calls_keep_copies_pair : (∃ s, gptread (freshBoot pairDrive) = some (0,s)) ∧
    ∀ s b, Calls pairDrive s b → Mirrored pairDrive s ∧ (∃ s', gptread s = some (0,s')) ∧
      (∀ uuid part, ∃ r, gptfind uuid s part = some r) ∧ (b = true → ∃ s', gptbootfailed s = some s') :=
  calls_keep_copies pairDrive_twoCopies (fun _ => rfl)

end Blub.Boot
