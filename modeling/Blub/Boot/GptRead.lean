import Blub.Boot.GptConv

/-! What `gptread` leaves of the copies it finds valid, in memory and on the drive. -/
namespace Blub.Boot
open Blub.Bytes Blub.Gpt

/-- The copy whose header is at `lba`, as it stands on the drive. -/
def Drive.copyAt (d : Drive) (lba : ℕ) : Copy := ⟨d.from lba,d.tableAt lba,lba⟩

/-- No entry behind the last full sector of the table has a sole `BOOTONCE`. -/
def Copy.NoTail (k : Copy) : Prop := ∀ i, k.converted ≤ i → i < hdrEntries k.hdr →
  onlyBootonce (entAttr k.table (i*entStructSize)) = false

/-- If the header is written back, then with the whole checksum of the table. -/
def Copy.Kept (k : Copy) : Prop := k.converts →
  KeepsCrc (hdrSize k.hdr) (crc32 (convRange k.table 0 k.converted) (hdrEntries k.hdr*128))

/-- The conversion of copy `k` is complete in the memory `k'` and on the drive. -/
structure Converted (k k' : Copy) (d' : Drive) : Prop where
  memory : ∀ i < hdrEntries k.hdr, EntConverted k.table k'.table i
  disk : ∀ i < hdrEntries k.hdr, EntConverted k.table (d'.from (hdrLbaTable k.hdr)) i
  crcSelf : hdrCrc k'.hdr = hdrCrcSelf k'.hdr
  crcTable : crc32 k'.table (hdrEntries k.hdr*128) = hdrCrcTable k'.hdr
  valid : d'.ValidAt k.lba

/-- Copies that agree in what `gptread` reads of them. -/
structure Copy.Same (k k₁ : Copy) : Prop where
  lba : k₁.lba = k.lba
  hdr : Agree k.hdr k₁.hdr
  table : ∀ j < hdrEntries k.hdr*128, k₁.table j = k.table j

namespace Copy.Same
variable {k k₁ k' : Copy} {d' : Drive}

theorem symm (h : k.Same k₁) : k₁.Same k :=
  ⟨h.lba.symm,h.hdr.symm,fun j hj => (h.table j (by rw [← h.hdr.entries]; exact hj)).symm⟩

theorem trans {k₂ : Copy} (h : k.Same k₁) (h' : k₁.Same k₂) : k.Same k₂ :=
  ⟨h'.lba.trans h.lba,h.hdr.trans h'.hdr,
    fun j hj => (h'.table j (by rw [h.hdr.entries]; exact hj)).trans (h.table j hj)⟩

theorem converted (h : k.Same k₁) : k₁.converted = k.converted := by
  rw [Copy.converted,Copy.converted,h.hdr.entries]

theorem entry (h : k.Same k₁) {i : ℕ} (hi : i < hdrEntries k.hdr) :
    ∀ j < entStructSize, k₁.table (i*entStructSize+j) = k.table (i*entStructSize+j) := by
  intro j hj
  apply h.table
  simp only [entStructSize] at hj ⊢
  omega

theorem attr (h : k.Same k₁) {i : ℕ} (hi : i < hdrEntries k.hdr) :
    entAttr k₁.table (i*entStructSize) = entAttr k.table (i*entStructSize) := by
  apply entAttr_congr
  intro j h₁ h₂
  apply h.table
  simp only [entStructSize] at h₁ h₂
  omega

theorem noTail (h : k.Same k₁) (hk : k.NoTail) : k₁.NoTail := by
  intro i h₁ h₂
  rw [h.converted] at h₁
  rw [h.hdr.entries] at h₂
  rw [h.attr h₂]
  exact hk i h₁ h₂

theorem converts (h : k.Same k₁) (hk : k.converts) : k₁.converts := by
  obtain ⟨i,h₁,h₂,ho⟩ := anyOnce_iff.mp hk
  refine anyOnce_iff.mpr ⟨i,h₁,by rw [h.converted]; exact h₂,?_⟩
  rw [h.attr (by simp only [Copy.converted] at h₂; omega)]
  exact ho

theorem area (h : k.Same k₁) (x : ℕ) : k₁.area x ↔ k.area x := by
  rw [Copy.area,Copy.area,h.lba,h.hdr.lbaTable,h.hdr.entries]

theorem kept (h : k.Same k₁) (hk : k.Kept) : k₁.Kept := by
  intro hc
  have hk := hk (h.symm.converts hc)
  rw [h.hdr.size,h.hdr.entries,h.converted]
  have hcrc : crc32 (convRange k₁.table 0 k.converted) (hdrEntries k.hdr*128) =
      crc32 (convRange k.table 0 k.converted) (hdrEntries k.hdr*128) := by
    apply crc32_congr
    apply convRange_congr
    · simp only [Copy.converted]
      omega
    · exact h.table
  rwa [hcrc]

theorem conversion (h : k.Same k₁) (hk : Converted k k' d') : Converted k₁ k' d' := by
  obtain ⟨hm,hd,hs,ht,hv⟩ := hk
  refine ⟨?_,?_,hs,by rwa [h.hdr.entries],by rwa [h.lba]⟩
  · intro i hi
    rw [h.hdr.entries] at hi
    exact (hm i hi).congr (h.entry hi) (fun _ _ => rfl)
  · intro i hi
    rw [h.hdr.entries] at hi
    rw [h.hdr.lbaTable]
    exact (hd i hi).congr (h.entry hi) (fun _ _ => rfl)

end Copy.Same

section OneCopy
variable {d d' d'' : Drive} {k k' : Copy}

theorem Loaded.same (h : Loaded d k) : (d.copyAt k.lba).Same k := ⟨rfl,h.hdr,h.table⟩

theorem Loaded.area_iff (h : Loaded d k) (x : ℕ) : d.area k.lba x ↔ k.area x := (h.same.area x).symm

/-- The tail is where the conversion stops short. -/
theorem noTail_of_memory (ht : k'.table = convRange k.table 0 k.converted)
    (h : ∀ i < hdrEntries k.hdr, EntConverted k.table k'.table i) : k.NoTail := by
  intro i h₁ h₂
  by_contra ho
  rw [Bool.not_eq_false] at ho
  have hc := h i h₂
  rw [ht,entConverted_convRange] at hc
  have := hc ho
  omega

theorem memory_of_noTail (ht : k'.table = convRange k.table 0 k.converted) (h : k.NoTail) :
    ∀ i < hdrEntries k.hdr, EntConverted k.table k'.table i := by
  intro i hi
  rw [ht,entConverted_convRange]
  intro ho
  by_contra hc
  rw [h i (by omega) hi] at ho
  cases ho

/-- What the conversion leaves is said for each entry. -/
theorem EntConverted.unique {t t₁ t₂ : ℕ → UInt8} {i : ℕ} (h₁ : EntConverted t t₁ i) (h₂ : EntConverted t t₂ i) :
    ∀ j < entStructSize, t₁ (i*entStructSize+j) = t₂ (i*entStructSize+j) := by
  rw [entConverted_iff] at h₁ h₂
  intro j hj
  by_cases hout : j < 48 ∨ 56 ≤ j
  · rw [h₁.2 j hj hout,h₂.2 j hj hout]
  · exact entAttr_bytes (h₁.1.trans h₂.1.symm) (by omega) (by omega)

end OneCopy

section BothCopies
variable {s s' : GptBoot} {c : Which}

theorem convCopy_valid (h : convCopy s c = some s') (hl : (s.copy c).lba ≠ 0) :
    gptbootconv (s.copy c) s.drive = some (s'.copy c,s'.drive) := by
  unfold convCopy at h
  rw [if_pos hl] at h
  obtain ⟨⟨k,d⟩,hk,h⟩ := Option.bind_eq_some_iff.mp h
  cases h
  simpa [GptBoot.setCopy] using hk

theorem convCopy_other (h : convCopy s c = some s') {c' : Which} (hc : c' ≠ c) : s'.copy c' = s.copy c' := by
  obtain ⟨k,d,rfl,-⟩ := convCopy_mem h
  simp [GptBoot.setCopy,Function.update_of_ne hc]

/-- A copy that was loaded from `d₀` and is converted on a drive that may have been changed since. -/
theorem convCopy_left {d₀ : Drive} (h : convCopy s c = some s') (hlike : d₀.Like s.drive) (hw : s.drive.AllWritable)
    (hl : (s.copy c).lba ≠ 0 → Loaded d₀ (s.copy c)) :
    s.drive.Like s'.drive ∧
      ((s.copy c).lba ≠ 0 → (s'.copy c).table = convRange (s.copy c).table 0 (s.copy c).converted ∧
        (¬(s.copy c).converts → s'.copy c = s.copy c) ∧
        ((s.copy c).converts →
          (s'.copy c).hdr = sealHdr (s.copy c).hdr (crc32 (s'.copy c).table (hdrEntries (s.copy c).hdr*128)) ∧
          ∀ j < 512, s'.drive.from (s.copy c).lba j = cutHdr (s'.copy c).hdr j)) ∧
      ∀ x, ((s.copy c).lba ≠ 0 → (s.copy c).converts → x ≠ (s.copy c).lba) →
        TableLeft d₀ ((s.copy c).lba ≠ 0 ∧ (s.copy c).Whole x) s.drive s'.drive x := by
  by_cases h₀ : (s.copy c).lba = 0
  · unfold convCopy at h
    rw [if_neg (not_not.mpr h₀)] at h
    cases h
    exact ⟨Drive.Like.refl _,fun hne => absurd h₀ hne,fun x _ => .inr ⟨fun hne => absurd h₀ hne.1,fun _ _ => rfl⟩⟩
  · obtain ⟨k,d,hk,-,ht,hlike',hno,hyes,hleft⟩ := gptbootconv_writes (hl h₀) hlike hw
    have hc := convCopy_valid h h₀
    rw [hc] at hk
    cases hk
    refine ⟨hlike',fun _ => ⟨ht,fun hn => (hno hn).1,hyes⟩,fun x hx => ?_⟩
    rw [show ((s.copy c).lba ≠ 0 ∧ (s.copy c).Whole x) = (s.copy c).Whole x by simp [h₀]]
    exact hleft x (hx h₀)

end BothCopies

/-- No header that is written back is a sector of a table. One that is not written back may be: in its place the
attributes of an entry are then not converted, or its checksum ends before the byte that changes. -/
def Clear (k : Which → Copy) : Prop := ∀ c c' i, (k c).lba ≠ 0 → (k c').lba ≠ 0 → 4*i < hdrEntries (k c').hdr →
  (k c).lba = hdrLbaTable (k c').hdr+i → ¬(k c).converts ∧
    (i < hdrEntries (k c').hdr/4 → onlyBootonce (entAttr (k c').table (4*i*entStructSize)) = true → hdrSize (k c).hdr ≤ 55)

/-- The table has another content after the conversion, and the same checksum. -/
def Copy.Collides (k : Copy) : Prop := k.converts ∧
  crc32 (convRange k.table 0 k.converted) (hdrEntries k.hdr*128) = crc32 k.table (hdrEntries k.hdr*128)

section Gptread
variable {s s' : GptBoot}

/-- The copies that `gptread` finds, as they stand on the drive before it. -/
def GptBoot.found (s s' : GptBoot) (c : Which) : Copy := s.drive.copyAt (s'.copy c).lba

/-- Where `gptread` gets to with copies of 128-byte entries, before it converts. -/
theorem gptread_loaded {r : ℤ} (h : gptread s = some (r,s'))
    (hn : ∀ c, (s'.copy c).lba ≠ 0 → hdrEntsz (s.found s' c).hdr = 128 ∧ hdrEntries (s.found s' c).hdr ≠ 0) :
    ∃ s₁ s₂, convCopy s₁ .primary = some s₂ ∧ convCopy s₂ .backup = some s' ∧ s₁.drive = s.drive ∧
      (∀ c, (s₁.copy c).lba = (s'.copy c).lba) ∧
      ∀ c, (s₁.copy c).lba ≠ 0 → Loaded s.drive (s₁.copy c) := by
  obtain ⟨s₁,s₂,h₁,h₂,h₃,-⟩ := gptread_steps h
  have hf := readCopies_found h₁
  have hlba : ∀ c, (s₁.copy c).lba = (s'.copy c).lba := by
    intro c
    obtain ⟨k,d,rfl,hk,-⟩ := convCopy_mem h₂
    obtain ⟨k',d',rfl,hk',-⟩ := convCopy_mem h₃
    cases c with
    | primary => simp [GptBoot.setCopy,hk]
    | backup => simpa [GptBoot.setCopy] using hk'.symm
  refine ⟨s₁,s₂,h₂,h₃,hf.drive,hlba,fun c hl => ?_⟩
  have hv := hf.valid c hl
  rw [hlba] at hl hv
  obtain ⟨he,hne⟩ := hn c hl
  exact (readCopy_loaded hv he hne).2

/-- What `gptread` leaves of copies `k` that it found valid and loaded. -/
structure ReadLeft (d : Drive) (k : Which → Copy) (s' : GptBoot) : Prop where
  lba : ∀ c, (k c).lba = (s'.copy c).lba
  loaded : ∀ c, (k c).lba ≠ 0 → Loaded d (k c)
  like : d.Like s'.drive
  table : ∀ c, (k c).lba ≠ 0 → (s'.copy c).table = convRange (k c).table 0 (k c).converted
  kept : ∀ c, (k c).lba ≠ 0 → ¬(k c).converts → s'.copy c = k c
  hdr : ∀ c, (k c).lba ≠ 0 → (k c).converts →
    (s'.copy c).hdr = sealHdr (k c).hdr (crc32 (s'.copy c).table (hdrEntries (k c).hdr*128))
  tables : ∀ x, (∀ c, (k c).lba ≠ 0 → (k c).converts → x ≠ (k c).lba) →
    TableLeft d (∃ c, (k c).lba ≠ 0 ∧ (k c).Whole x) d s'.drive x
  -- the header of the primary copy may be that of the backup copy, too
  header : ∀ c, (k c).lba ≠ 0 → (k c).converts → (∀ c', (k c').lba ≠ 0 → ¬(k c').Whole (k c).lba) →
    ∃ c', (k c').lba = (k c).lba ∧ (k c').converts ∧ ∀ j < 512, s'.drive.from (k c).lba j = cutHdr (s'.copy c').hdr j

theorem Which.exists_iff {p : Which → Prop} : (∃ c, p c) ↔ p .primary ∨ p .backup := by
  constructor
  · rintro ⟨c,hc⟩
    cases c with
    | primary => exact .inl hc
    | backup => exact .inr hc
  · rintro (hc | hc)
    · exact ⟨_,hc⟩
    · exact ⟨_,hc⟩

theorem gptread_left {r : ℤ} (h : gptread s = some (r,s')) (hw : s.drive.AllWritable)
    (hn : ∀ c, (s'.copy c).lba ≠ 0 → hdrEntsz (s.found s' c).hdr = 128 ∧ hdrEntries (s.found s' c).hdr ≠ 0) :
    ∃ k, ReadLeft s.drive k s' := by
  obtain ⟨s₁,s₂,h₁,h₂,hd,hlba,hload⟩ := gptread_loaded h hn
  have hb : s₂.copy .backup = s₁.copy .backup := convCopy_other h₁ (by decide)
  have hp : s'.copy .primary = s₂.copy .primary := convCopy_other h₂ (by decide)
  have hstart : s.drive.Like s₁.drive := hd ▸ Drive.Like.refl _
  obtain ⟨hlike₁,hconv₁,hleft₁⟩ := convCopy_left h₁ hstart (by rwa [hd]) (hload .primary)
  have hlike : s.drive.Like s₂.drive := hd ▸ hlike₁
  obtain ⟨hlike₂,hconv₂,hleft₂⟩ := convCopy_left h₂ hlike (hlike.allWritable hw) (by rw [hb]; exact hload .backup)
  rw [hb] at hconv₂ hleft₂
  rw [hd] at hleft₁
  refine ⟨s₁.copy,hlba,hload,hlike.trans hlike₂,fun c hl => ?_,fun c hl hno => ?_,fun c hl hyes => ?_,fun x hx => ?_,
    fun c hl hyes hwhole => ?_⟩
  · cases c with
    | primary => rw [hp]; exact (hconv₁ hl).1
    | backup => exact (hconv₂ hl).1
  · cases c with
    | primary => rw [hp]; exact (hconv₁ hl).2.1 hno
    | backup => exact (hconv₂ hl).2.1 hno
  · cases c with
    | primary => rw [hp]; exact ((hconv₁ hl).2.2 hyes).1
    | backup => exact ((hconv₂ hl).2.2 hyes).1
  · have hboth := (hleft₁ x (hx .primary)).trans (hleft₂ x (hx .backup))
    rw [Which.exists_iff]
    exact hboth
  · cases c with
    | backup => exact ⟨.backup,rfl,hyes,((hconv₂ hl).2.2 hyes).2⟩
    | primary =>
      by_cases hsame : (s₁.copy .backup).lba = (s₁.copy .primary).lba ∧ (s₁.copy .backup).converts
      · exact ⟨.backup,hsame.1,hsame.2,hsame.1 ▸ ((hconv₂ (hsame.1 ▸ hl)).2.2 hsame.2).2⟩
      · refine ⟨.primary,rfl,hyes,fun j hj => ?_⟩
        obtain ⟨⟨hl',hw'⟩,-⟩ | ⟨-,hs⟩ := hleft₂ (s₁.copy .primary).lba fun _ hyes' hne => hsame ⟨hne.symm,hyes'⟩
        · exact absurd hw' (hwhole .backup hl')
        · rw [s₂.drive.sameAt_from hs j hj,hp]
          exact ((hconv₁ hl).2.2 hyes).2 j hj

section Left
variable {d : Drive} {k : Which → Copy} (h : ReadLeft d k s') {c : Which} (hl : (k c).lba ≠ 0)
include h hl

/-- Where nothing is left behind the last full sector and no header is written into a table, the tables on the drive are
those in memory. -/
theorem ReadLeft.table_eq (hclear : ∀ c' i, (k c').lba ≠ 0 → (k c').converts → 4*i < hdrEntries (k c).hdr →
      (k c').lba ≠ hdrLbaTable (k c).hdr+i) (hno : (k c).NoTail) :
    ∀ j < hdrEntries (k c).hdr*128,
      s'.drive.from (hdrLbaTable (k c).hdr) j = convRange (k c).table 0 (k c).converted j := by
  have hload := h.loaded c hl
  refine @table_of_left d s'.drive (k c) hload (fun x => ∃ c, (k c).lba ≠ 0 ∧ (k c).Whole x)
    (fun i hi => h.tables _ fun c' hl' hconv heq => hclear c' i hl' hconv hi heq.symm)
    (fun x hx => ⟨c,hl,hx⟩) fun i _ hnot j hj hin => ?_
  -- the entry that this byte is of stands behind the last full sector
  have hentry : onlyBootonce (entAttr (d.from (hdrLbaTable (k c).hdr+i)) (j/128*entStructSize)) = false := by
    have htail := hno (4*i+j/128) (by
      rw [Copy.Whole] at hnot
      rw [Copy.converted]
      omega) (by omega)
    have hattr : entAttr (d.from (hdrLbaTable (k c).hdr+i)) (j/128*entStructSize) =
        entAttr (k c).table ((4*i+j/128)*entStructSize) := by
      rw [show (4*i+j/128)*entStructSize = 512*i+j/128*entStructSize by simp only [entStructSize]; omega,← entAttr_shift]
      apply entAttr_congr
      intro b h₁ h₂
      apply (hload.sector _).symm
      simp only [entStructSize] at h₁ h₂
      omega
    rwa [hattr]
  have hbyte := @convRange_byte (d.from (hdrLbaTable (k c).hdr+i)) 0 4 (j/128) (j%128)
    (by simp only [entStructSize]; omega) (.inr hentry)
  rwa [show j/128*entStructSize+j%128 = j by simp only [entStructSize]; omega] at hbyte

theorem ReadLeft.noTail (hc : ∀ i < hdrEntries (k c).hdr, EntConverted (k c).table (s'.copy c).table i) : (k c).NoTail :=
  noTail_of_memory (h.table c hl) hc

/-- The attributes that stand in the place of a header of an entry in its sector. -/
theorem ReadLeft.entAttr_sector {i : ℕ} (hi : 4*i < hdrEntries (k c).hdr) :
    entAttr (d.from (hdrLbaTable (k c).hdr+i)) 0 = entAttr (k c).table (4*i*entStructSize) := by
  rw [show 4*i*entStructSize = 512*i+0 by simp only [entStructSize]; omega,← entAttr_shift]
  apply entAttr_congr
  intro b h₁ h₂
  exact ((h.loaded c hl).sector (by omega)).symm

/-- Copies at the same place are the same. -/
theorem ReadLeft.same {c' : Which} (hsame : (k c').lba = (k c).lba) : (k c').Same (k c) := by
  have h₁ := (h.loaded c hl).same
  have h₂ := (h.loaded c' (hsame ▸ hl)).same
  rw [hsame] at h₂
  exact h₂.symm.trans h₁

section Valid
variable (hclear : Clear k) (hno : ∀ c, (k c).lba ≠ 0 → (k c).NoTail)
include hclear hno

theorem ReadLeft.table_clear : ∀ j < hdrEntries (k c).hdr*128,
    s'.drive.from (hdrLbaTable (k c).hdr) j = convRange (k c).table 0 (k c).converted j :=
  h.table_eq hl (fun c' i hl' hconv hi heq => (hclear c' c i hl' hl hi heq).1 hconv) (hno c hl)

/-- A header that is written back is valid if it kept the checksum of the table. -/
theorem ReadLeft.valid_converted (hconv : (k c).converts) : s'.drive.ValidAt (k c).lba ↔ (k c).Kept := by
  obtain ⟨c',hlba,hconv',hsec⟩ := h.header c hl hconv fun c' hl' hw => by
    obtain ⟨h₁,h₂⟩ := hw
    exact (hclear c c' ((k c).lba-hdrLbaTable (k c').hdr) hl hl' (by omega) (by omega)).1 hconv
  have hl' : (k c').lba ≠ 0 := by rwa [hlba]
  have hload := h.loaded c' hl'
  have w : WrittenBack s'.drive (k c').hdr (s'.copy c').table (k c').lba := by
    refine ⟨hload.hdrOk.accepted,hload.hdrOk.size,hload.usable.entsz,by rw [hload.entries]; exact hload.valid.entries,
      h.like.readable.mpr hload.valid.readable,fun i hi h4 => ?_,fun j hj => ?_,fun j hj => ?_⟩
    · rw [hload.lbaTable]
      rw [hload.entries] at h4
      exact h.like.readable.mpr (hload.valid.tableReadable i hi h4)
    · rw [h.table c' hl']
      exact h.table_clear hl' hclear hno j hj
    · rw [hlba,hsec j hj,h.hdr c' hl' hconv']
  have hkept : (k c').Kept ↔ KeepsCrc (hdrSize (k c').hdr) (crc32 (s'.copy c').table (hdrEntries (k c').hdr*128)) := by
    rw [Copy.Kept,imp_iff_right hconv',h.table c' hl']
  rw [← hlba,w.valid_iff,← hkept]
  have hsame := h.same hl hlba
  exact ⟨hsame.kept,hsame.symm.kept⟩

/-- A header that is not written back stays valid. -/
theorem ReadLeft.valid_kept (hconv : ¬(k c).converts) : s'.drive.ValidAt (k c).lba := by
  have hload := h.loaded c hl
  have hnone : convRange (k c).table 0 (k c).converted = (k c).table := by
    apply convRange_of_none
    rwa [Copy.converts,Bool.not_eq_true] at hconv
  have hleft := h.tables (k c).lba fun c' hl' hconv' heq => hconv ((h.same hl heq.symm).converts hconv')
  refine hload.valid.congr_except h.like (fun j hj h55 => ?_) fun j hj => ?_
  · simp only [hdrStructSize] at hj
    obtain ⟨⟨c',hl',h₁,h₂⟩,hsec⟩ | ⟨-,hs⟩ := hleft
    · have heq : (k c).lba = hdrLbaTable (k c').hdr+((k c).lba-hdrLbaTable (k c').hdr) := by omega
      have hent := h.entAttr_sector hl' (show 4*((k c).lba-hdrLbaTable (k c').hdr) < hdrEntries (k c').hdr by omega)
      rw [← heq] at hent
      rw [hsec j (by omega)]
      have hbyte := @convRange_byte (d.from (k c).lba) 0 4 0 j (by simp only [entStructSize]; omega) (by
        by_cases hj55 : j = 55
        · refine .inr ?_
          rw [Nat.zero_mul,hent]
          by_contra ho
          have hle := (hclear c c' _ hl hl' (by omega) heq).2 (by omega) (Bool.not_eq_false _ ▸ ho)
          have hlt := h55 hj55
          rw [← hload.hdr.size] at hlt
          omega
        · exact .inl hj55)
      rwa [Nat.zero_mul,Nat.zero_add] at hbyte
    · exact d.sameAt_from hs j (by omega)
  · rw [← hload.lbaTable,h.table_clear hl hclear hno j (by rwa [hload.entries]),hnone,hload.table j hj]

/-- Where the headers are out of the way, the conversion of a copy is complete exactly if what is written back keeps the
checksum of the table. -/
theorem ReadLeft.converted_iff : Converted (k c) (s'.copy c) s'.drive ↔ (k c).Kept := by
  have hload := h.loaded c hl
  have hvalid : s'.drive.ValidAt (k c).lba ↔ (k c).Kept := by
    by_cases hconv : (k c).converts
    · exact h.valid_converted hl hclear hno hconv
    · exact iff_of_true (h.valid_kept hl hclear hno hconv) fun hyes => absurd hyes hconv
  constructor
  · exact fun hc => hvalid.mp hc.valid
  · intro hk
    have hmem := memory_of_noTail (h.table c hl) (hno c hl)
    refine ⟨hmem,fun i hi => (hmem i hi).congr (fun _ _ => rfl) fun j hj => ?_,?_,?_,hvalid.mpr hk⟩
    · rw [h.table c hl]
      apply h.table_clear hl hclear hno
      simp only [entStructSize] at hj ⊢
      omega
    · by_cases hconv : (k c).converts
      · rw [h.hdr c hl hconv]
        exact (sealHdr_crcSelf _).symm
      · rw [h.kept c hl hconv]
        exact hload.hdrOk.crc
    · by_cases hconv : (k c).converts
      · rw [h.hdr c hl hconv,sealHdr_crcTable (crc32_lt _ _)]
      · rw [h.kept c hl hconv]
        exact hload.crc

end Valid

/-- On a drive with converted tables these are the ones in memory. -/
theorem ReadLeft.table_converted (hc : Converted (k c) (s'.copy c) s'.drive) : ∀ j < hdrEntries (k c).hdr*128,
    s'.drive.from (hdrLbaTable (k c).hdr) j = convRange (k c).table 0 (k c).converted j := by
  intro j hj
  have hi : j/128 < hdrEntries (k c).hdr := by omega
  have hentry := (hc.disk _ hi).unique (hc.memory _ hi) (j%128) (Nat.mod_lt _ (by decide))
  rw [show j/128*entStructSize+j%128 = j by simp only [entStructSize]; omega,h.table c hl] at hentry
  exact hentry

section Place
variable {c' : Which} (hl' : (k c').lba ≠ 0) (hc' : Converted (k c') (s'.copy c') s'.drive) {i : ℕ}
  (hi : 4*i < hdrEntries (k c').hdr) (heq : (k c).lba = hdrLbaTable (k c').hdr+i)
include hl' hc' hi heq
omit hl

/-- A header in the place of an entry is changed as this entry is. -/
theorem ReadLeft.header_byte {j : ℕ} (hj : j < 128) :
    s'.drive.from (k c).lba j = convRange (k c').table 0 (k c').converted (4*i*entStructSize+j) ∧
      d.from (k c).lba j = (k c').table (4*i*entStructSize+j) := by
  have hplace : 4*i*entStructSize+j = 512*i+j := by
    simp only [entStructSize]
    omega
  have htable := h.table_converted hl' hc' (512*i+j) (by omega)
  rw [hplace,heq,(h.loaded c' hl').sector (by omega)]
  rw [Drive.from_eq] at htable
  rw [Drive.from_eq,show 512*(hdrLbaTable (k c').hdr+i)+j = 512*hdrLbaTable (k c').hdr+(512*i+j) by omega,htable]
  exact ⟨rfl,rfl⟩

theorem ReadLeft.header_kept {j : ℕ} (hj : j < 128) (h55 : j ≠ 55) :
    s'.drive.from (k c).lba j = d.from (k c).lba j := by
  obtain ⟨h₁,h₂⟩ := h.header_byte hl' hc' hi heq hj
  rw [h₁,h₂]
  exact convRange_byte hj (.inl h55)

theorem ReadLeft.header_field (o w : ℕ) (hw : o+w ≤ 128) (h55 : o+w ≤ 55 ∨ 56 ≤ o) :
    leGet (s'.drive.from (k c).lba) o w = leGet (d.from (k c).lba) o w :=
  leGet_congr fun j _ _ => h.header_kept hl' hc' hi heq (by omega) (by omega)

include hl

/-- A header that is written back into a table, which stays as it is there, has the old checksum of its own table. -/
theorem ReadLeft.collides (hc : Converted (k c) (s'.copy c) s'.drive) (hconv : (k c).converts) : (k c).Collides := by
  have hload := h.loaded c hl
  have hentries : s'.drive.entriesAt (k c).lba = hdrEntries (k c).hdr :=
    (h.header_field hl' hc' hi heq 80 4 (by omega) (by omega)).trans hload.entries.symm
  have htable : hdrLbaTable (s'.drive.from (k c).lba) = hdrLbaTable (k c).hdr :=
    (h.header_field hl' hc' hi heq 72 8 (by omega) (by omega)).trans hload.lbaTable.symm
  have hcrc : hdrCrcTable (s'.drive.from (k c).lba) = hdrCrcTable (k c).hdr :=
    (h.header_field hl' hc' hi heq 88 4 (by omega) (by omega)).trans hload.hdr.crcTable.symm
  refine ⟨hconv,?_⟩
  rw [hload.crc,← hcrc,← hc.valid.crc,hentries,Drive.tableAt,htable]
  exact (crc32_congr (h.table_converted hl hc)).symm

/-- A header whose summed bytes are changed as attributes of an entry is not valid any more. -/
theorem ReadLeft.size_le (hc : Converted (k c) (s'.copy c) s'.drive) (hwhole : i < hdrEntries (k c').hdr/4)
    (honce : onlyBootonce (entAttr (k c').table (4*i*entStructSize)) = true) : hdrSize (k c).hdr ≤ 55 := by
  by_contra hlt
  have hload := h.loaded c hl
  have hsize : hdrSize (s'.drive.from (k c).lba) = hdrSize (d.from (k c).lba) :=
    h.header_field hl' hc' hi heq 12 4 (by omega) (by omega)
  have hself : hdrCrcSelf (s'.drive.from (k c).lba) = hdrCrcSelf (d.from (k c).lba) :=
    h.header_field hl' hc' hi heq 16 4 (by omega) (by omega)
  have hle := hload.valid.hdrOk.size
  rw [hload.hdr.size] at hlt
  simp only [hdrStructSize] at hle
  have hsum : hdrCrc (s'.drive.from (k c).lba) = hdrCrc (d.from (k c).lba) := by
    rw [hc.valid.hdrOk.crc,hload.valid.hdrOk.crc,hself]
  rw [hdrCrc,hdrCrc,hsize] at hsum
  have hbyte := crc32_detects_byte (i := 55) (by omega) (fun j hj h55 => ?_) hsum
  · rw [setCrcSelf,setCrcSelf,lePut_outside (by omega),lePut_outside (by omega)] at hbyte
    -- with this byte the attributes would be the same, too
    have hattr : entAttr (convRange (k c').table 0 (k c').converted) (4*i*entStructSize) =
        entAttr (k c').table (4*i*entStructSize) := by
      apply entAttr_congr
      intro b h₁ h₂
      obtain ⟨j,rfl⟩ : ∃ j, b = 4*i*entStructSize+j := ⟨b-4*i*entStructSize,by omega⟩
      obtain ⟨h₃,h₄⟩ := h.header_byte hl' hc' hi heq (show j < 128 by omega)
      rw [← h₃,← h₄]
      by_cases h55 : j = 55
      · rw [h55,hbyte]
      · exact h.header_kept hl' hc' hi heq (by omega) h55
    rw [entAttr_convRange,if_pos (by rw [Copy.converted]; omega)] at hattr
    exact convAttr_ne honce hattr
  · rw [setCrcSelf,setCrcSelf]
    by_cases hin : 16 ≤ j ∧ j < 16+4
    · simp only [lePut,blit_inside hin.1 hin.2]
    · rw [lePut_outside (by omega),lePut_outside (by omega)]
      exact h.header_kept hl' hc' hi heq (by omega) h55

end Place

end Left

/-- A header that is written into a table, whose own table has the same checksum as before; and so by chance all copies
come out right. -/
structure SharedByChance (s s' : GptBoot) : Prop where
  shared : ∃ c c' i, (s'.copy c).lba ≠ 0 ∧ (s'.copy c').lba ≠ 0 ∧ 4*i < hdrEntries (s.found s' c').hdr ∧
    (s.found s' c).lba = hdrLbaTable (s.found s' c').hdr+i ∧ (s.found s' c).Collides
  converted : ∀ c, (s'.copy c).lba ≠ 0 → Converted (s.found s' c) (s'.copy c) s'.drive

theorem Copy.Same.collides {k k₁ : Copy} (h : k.Same k₁) (hk : k.Collides) : k₁.Collides := by
  obtain ⟨hconv,hcrc⟩ := hk
  refine ⟨h.converts hconv,?_⟩
  rw [h.hdr.entries,h.converted,crc32_congr h.table,← hcrc]
  apply crc32_congr
  apply convRange_congr
  · simp only [Copy.converted]
    omega
  · exact h.table

theorem Clear.same {k k₁ : Which → Copy} (h : ∀ c, (k c).lba ≠ 0 → (k c).Same (k₁ c))
    (hlba : ∀ c, (k₁ c).lba = (k c).lba) (hk : Clear k) : Clear k₁ := by
  intro c c' i hl hl' hi heq
  rw [hlba] at hl hl'
  have hc := h c hl
  have hc' := h c' hl'
  rw [hc'.hdr.entries] at hi
  rw [hlba,hc'.hdr.lbaTable] at heq
  obtain ⟨hconv,honce⟩ := hk c c' i hl hl' hi heq
  refine ⟨fun hyes => hconv (hc.symm.converts hyes),fun hwhole ho => ?_⟩
  rw [hc'.hdr.entries] at hwhole
  rw [hc'.attr (by omega)] at ho
  rw [hc.hdr.size]
  exact honce hwhole ho

/-- After `gptread` the conversion is complete in the valid copies exactly if none of them has a sole `BOOTONCE` behind
its last full sector, what is written back keeps the checksum of the table, and no header is hit as a part of a table. -/
theorem gptread_converts_iff (h : gptread s = some (0,s')) (hw : s.drive.AllWritable)
    (hn : ∀ c, (s'.copy c).lba ≠ 0 → hdrEntsz (s.found s' c).hdr = 128 ∧ hdrEntries (s.found s' c).hdr ≠ 0) :
    (∀ c, (s'.copy c).lba ≠ 0 → Converted (s.found s' c) (s'.copy c) s'.drive) ↔
      (Clear (s.found s') ∧ ∀ c, (s'.copy c).lba ≠ 0 → (s.found s' c).NoTail ∧ (s.found s' c).Kept) ∨
        SharedByChance s s' := by
  obtain ⟨k,hk⟩ := gptread_left h hw hn
  have hlba : ∀ c, (s.found s' c).lba = (k c).lba := fun c => (hk.lba c).symm
  have hsame : ∀ c, (k c).lba ≠ 0 → (s.found s' c).Same (k c) := by
    intro c hl
    rw [GptBoot.found,← hk.lba]
    exact (hk.loaded c hl).same
  have hclear : Clear (s.found s') ↔ Clear k :=
    ⟨Clear.same (fun c hl => hsame c (hlba c ▸ hl)) fun c => (hlba c).symm,
      Clear.same (fun c hl => (hsame c hl).symm) hlba⟩
  constructor
  · intro hc
    have hconv : ∀ c, (k c).lba ≠ 0 → Converted (k c) (s'.copy c) s'.drive :=
      fun c hl => (hsame c hl).conversion (hc c (hk.lba c ▸ hl))
    have hno : ∀ c, (k c).lba ≠ 0 → (k c).NoTail := fun c hl => hk.noTail hl (hconv c hl).memory
    by_cases hcol : ∃ c c' i, (k c).lba ≠ 0 ∧ (k c').lba ≠ 0 ∧ 4*i < hdrEntries (k c').hdr ∧
        (k c).lba = hdrLbaTable (k c').hdr+i ∧ (k c).Collides
    · obtain ⟨c,c',i,hl,hl',hi,heq,hcoll⟩ := hcol
      refine .inr ⟨⟨c,c',i,hk.lba c ▸ hl,hk.lba c' ▸ hl',?_,?_,(hsame c hl).symm.collides hcoll⟩,hc⟩
      · rwa [← (hsame c' hl').hdr.entries]
      · rwa [hlba,← (hsame c' hl').hdr.lbaTable]
    · have hk' : Clear k := fun c c' i hl hl' hi heq =>
        ⟨fun hyes => hcol ⟨c,c',i,hl,hl',hi,heq,hk.collides hl hl' (hconv c' hl') hi heq (hconv c hl) hyes⟩,
          fun hwhole ho => hk.size_le hl hl' (hconv c' hl') hi heq (hconv c hl) hwhole ho⟩
      refine .inl ⟨hclear.mpr hk',fun c hl => ?_⟩
      rw [← hk.lba] at hl
      exact ⟨(hsame c hl).symm.noTail (hno c hl),
        (hsame c hl).symm.kept ((hk.converted_iff hl hk' hno).mp (hconv c hl))⟩
  · rintro (⟨hcl,hc⟩ | hchance) c hl
    · have hno : ∀ c, (k c).lba ≠ 0 → (k c).NoTail :=
        fun c hl => (hsame c hl).noTail (hc c (hk.lba c ▸ hl)).1
      have hkept := (hc c hl).2
      rw [← hk.lba] at hl
      exact (hsame c hl).symm.conversion
        ((hk.converted_iff hl (hclear.mp hcl) hno).mpr ((hsame c hl).kept hkept))
    · exact hchance.converted c hl

end Gptread

/-- A drive with a primary GPT of `n` entries, the first of them with a sole `BOOTONCE`. -/
def onceDrive (n crcSelf crcTable : ℕ) : Drive where
  sectors := 3
  byte j :=
    if j < 512 then 0
    else if j < 1024 then
      lePut (lePut (lePut (lePut (lePut (lePut (lePut (lePut (lePut (fun _ => 0) 0 8 gptHdrSig) 8 4
        0x10000) 12 4 92) 16 4 crcSelf) 24 8 1) 72 8 2) 80 4 n) 84 4 128) 88 4 crcTable (j-512)
    else if j = 1024 then 1 else if j = 1079 then 4 else 0
  readOk _ := true
  writeOk _ := true
  drvsize := 3
  fits := Drive.three_fits

def oneOnce : Drive := onceDrive 1 0x79d8219b 0x98847314

def fourOnce : Drive := onceDrive 4 0x4725cfe4 0xb9b779fc

/-- The one entry of a table of one is left as it is. -/
theorem gptread_skips_tail : ∃ s', gptread (freshBoot oneOnce) = some (0,s') ∧
    (s'.copy .primary).lba = 1 ∧ oneOnce.AllWritable ∧
    hdrEntsz ((freshBoot oneOnce).found s' .primary).hdr = 128 ∧
    hdrEntries ((freshBoot oneOnce).found s' .primary).hdr = 1 ∧
    ¬ Converted ((freshBoot oneOnce).found s' .primary) (s'.copy .primary)
      s'.drive := by
  have h : (gptread (freshBoot oneOnce)).map (fun r => (r.1,
      (r.2.copy .primary).lba,onlyBootonce (entAttr (r.2.copy .primary).table 0))) =
      some (0,1,true) := by decide +kernel
  obtain ⟨⟨r,s'⟩,hs,he⟩ := Option.map_eq_some_iff.mp h
  simp only [Prod.mk.injEq] at he
  obtain ⟨rfl,hp,ho⟩ := he
  have hn : hdrEntries (oneOnce.from 1) = 1 := by decide
  refine ⟨s',hs,hp,fun _ => rfl,?_,?_,?_⟩
  · rw [GptBoot.found,hp]
    decide
  · rw [GptBoot.found,hp]
    exact hn
  · rw [GptBoot.found,hp]
    intro hc
    have hleft := (hc.memory 0 (lt_of_lt_of_eq one_pos hn.symm)).noneLeft
    rw [Nat.zero_mul,ho] at hleft
    cases hleft

/-- A table of one sector is converted. -/
theorem gptread_converts_iff_sector : ∃ s', gptread (freshBoot fourOnce) = some (0,s') ∧
    (s'.copy .primary).lba = 1 ∧ (s'.copy .backup).lba = 0 ∧
    Converted (fourOnce.copyAt 1) (s'.copy .primary) s'.drive := by
  have h : (gptread (freshBoot fourOnce)).map (fun r => (r.1,
      (r.2.copy .primary).lba,(r.2.copy .backup).lba)) = some (0,1,0) := by decide +kernel
  obtain ⟨⟨r,s'⟩,hs,he⟩ := Option.map_eq_some_iff.mp h
  simp only [Prod.mk.injEq] at he
  obtain ⟨rfl,hp,hb⟩ := he
  have hfound : (freshBoot fourOnce).found s' .primary =
      fourOnce.copyAt 1 := by
    rw [GptBoot.found,hp]
    rfl
  have hn : hdrEntries (fourOnce.copyAt 1).hdr = 4 := by decide
  have he : hdrEntsz (fourOnce.copyAt 1).hdr = 128 := by decide
  have hT : hdrLbaTable (fourOnce.copyAt 1).hdr = 2 := by decide
  have hsize : hdrSize (fourOnce.copyAt 1).hdr = 92 := by decide
  have honly : ∀ c, (s'.copy c).lba ≠ 0 → c = .primary := by
    intro c hl
    cases c with
    | primary => rfl
    | backup => exact absurd hb hl
  have hclear : Clear ((freshBoot fourOnce).found s') := by
    intro c c' i hl hl' _ heq
    obtain rfl := honly c (by rwa [GptBoot.found] at hl)
    obtain rfl := honly c' (by rwa [GptBoot.found] at hl')
    rw [hfound,hT] at heq
    have hone : (fourOnce.copyAt 1).lba = 1 := rfl
    omega
  have hiff := gptread_converts_iff hs (fun _ => rfl) (by
    intro c hl
    obtain rfl := honly c hl
    rw [hfound]
    exact ⟨he,by rw [hn]; omega⟩)
  refine ⟨s',hs,hp,hb,?_⟩
  rw [← hfound]
  refine hiff.mpr (.inl ⟨hclear,?_⟩) .primary (by omega)
  intro c hl
  obtain rfl := honly c hl
  rw [hfound]
  refine ⟨?_,?_⟩
  · intro i h₁ h₂
    rw [Copy.converted,hn] at h₁
    omega
  · intro _
    rw [hsize]
    exact keepsCrc_of_le le_rfl (crc32_lt _ _)

end Blub.Boot
