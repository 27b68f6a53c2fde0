import Blub.Boot.GptSpec

/-! A GPT copy on the drive: when `gptread` finds it valid, when memory agrees with it, and what
is left of it after its table and its header were written back. -/
namespace Blub.Boot
open Blub.Bytes Blub.Gpt

section Place
variable (d : Drive) (lba : ℕ)

/-- The number of entries of the copy whose header is at `lba`. -/
def Drive.entriesAt : ℕ := hdrEntries (d.from lba)

/-- The table of the copy whose header is at `lba`. -/
def Drive.tableAt : ℕ → UInt8 := d.from (hdrLbaTable (d.from lba))

/-- The sectors of the copy whose header is at `lba`. -/
def Drive.area (x : ℕ) : Prop :=
  x = lba ∨ hdrLbaTable (d.from lba) ≤ x ∧ 4*(x-hdrLbaTable (d.from lba)) < d.entriesAt lba

/-- A copy with entries of 128 bytes that `gptread` finds valid. -/
structure Drive.ValidAt : Prop where
  readable : d.Readable lba
  hdrOk : HdrOk (d.from lba) lba
  entsz : hdrEntsz (d.from lba) = 128
  entries : d.entriesAt lba ≠ 0
  tableReadable : TableReadable d (hdrLbaTable (d.from lba)) (d.entriesAt lba) 0
  crc : crc32 (d.tableAt lba) (d.entriesAt lba*128) = hdrCrcTable (d.from lba)

end Place

/-- Header bytes that agree where `gptread` looks: the named fields and the part that is summed. -/
structure Agree (h h' : ℕ → UInt8) : Prop where
  fields : ∀ j < 92, h' j = h j
  summed : ∀ j < hdrSize h, h' j = h j

section Agree
variable {h h' : ℕ → UInt8}

theorem Agree.refl (h : ℕ → UInt8) : Agree h h := ⟨fun _ _ => rfl,fun _ _ => rfl⟩

theorem agree_of_struct (hs : hdrSize h ≤ hdrStructSize) (he : ∀ j < hdrStructSize, h' j = h j) :
    Agree h h' := by
  simp only [hdrStructSize] at hs he
  exact ⟨fun j hj => he j (by omega),fun j hj => he j (by omega)⟩

theorem Agree.leGet (a : Agree h h') (o w : ℕ) (ho : o+w ≤ 92) :
    Bytes.leGet h' o w = Bytes.leGet h o w :=
  leGet_congr fun j _ hj => a.fields j (by omega)

theorem Agree.size (a : Agree h h') : hdrSize h' = hdrSize h := a.leGet 12 4 (by omega)
theorem Agree.lbaTable (a : Agree h h') : hdrLbaTable h' = hdrLbaTable h := a.leGet 72 8 (by omega)
theorem Agree.lbaAlt (a : Agree h h') : hdrLbaAlt h' = hdrLbaAlt h := a.leGet 32 8 (by omega)
theorem Agree.entries (a : Agree h h') : hdrEntries h' = hdrEntries h := a.leGet 80 4 (by omega)
theorem Agree.entsz (a : Agree h h') : hdrEntsz h' = hdrEntsz h := a.leGet 84 4 (by omega)
theorem Agree.crcTable (a : Agree h h') : hdrCrcTable h' = hdrCrcTable h := a.leGet 88 4 (by omega)

theorem Agree.symm (a : Agree h h') : Agree h' h :=
  ⟨fun j hj => (a.fields j hj).symm,fun j hj => (a.summed j (by rw [← a.size]; exact hj)).symm⟩

theorem Agree.trans {h₁ h₂ h₃ : ℕ → UInt8} (a : Agree h₁ h₂) (b : Agree h₂ h₃) : Agree h₁ h₃ :=
  ⟨fun j hj => (b.fields j hj).trans (a.fields j hj),
    fun j hj => (b.summed j (by rw [a.size]; exact hj)).trans (a.summed j hj)⟩

theorem Agree.accepted (a : Agree h h') {lba : ℕ} (ok : hdrAccepted h lba) : hdrAccepted h' lba := by
  have hsig : hdrSig h' = hdrSig h := a.leGet 0 8 (by omega)
  have hself : hdrLbaSelf h' = hdrLbaSelf h := a.leGet 24 8 (by omega)
  have hrev : hdrRevision h' = hdrRevision h := a.leGet 8 4 (by omega)
  unfold hdrAccepted at ok ⊢
  rw [hsig,hself,hrev,a.entsz,a.entries]
  exact ok

theorem Agree.hdrOk (a : Agree h h') {lba : ℕ} (ok : HdrOk h lba) : HdrOk h' lba := by
  refine ⟨a.accepted ok.accepted,by rw [a.size]; exact ok.size,?_⟩
  have hself : hdrCrcSelf h' = hdrCrcSelf h := a.leGet 16 4 (by omega)
  rw [hdrCrc_congr a.size a.summed,hself]
  exact ok.crc

end Agree

/-- Validity depends on the sectors of the copy only. -/
theorem Drive.ValidAt.congr {d d' : Drive} {lba : ℕ} (v : d.ValidAt lba) (hl : d.Like d')
    (ha : Agree (d.from lba) (d'.from lba))
    (ht : ∀ j < d.entriesAt lba*128, d'.tableAt lba j = d.tableAt lba j) : d'.ValidAt lba := by
  have hn : d'.entriesAt lba = d.entriesAt lba := ha.entries
  refine ⟨hl.readable.mpr v.readable,ha.hdrOk v.hdrOk,by rw [ha.entsz]; exact v.entsz,
    by rw [hn]; exact v.entries,?_,?_⟩
  · intro i hi h4
    rw [hn] at h4
    rw [ha.lbaTable]
    exact hl.readable.mpr (v.tableReadable i hi h4)
  · rw [hn,ha.crcTable,← v.crc]
    exact crc32_congr ht

/-- A header is valid as long as the fields that are looked at and the bytes that are summed up are the same; the byte at
55 is in no such field. -/
theorem Drive.ValidAt.congr_except {d d' : Drive} {lba : ℕ} (v : d.ValidAt lba) (hl : d.Like d')
    (hh : ∀ j < hdrStructSize, (j = 55 → 55 < hdrSize (d.from lba)) → d'.from lba j = d.from lba j)
    (ht : ∀ j < d.entriesAt lba*128, d'.from (hdrLbaTable (d.from lba)) j = d.tableAt lba j) : d'.ValidAt lba := by
  have hfield : ∀ o w, o+w ≤ 96 → o+w ≤ 55 ∨ 56 ≤ o → leGet (d'.from lba) o w = leGet (d.from lba) o w :=
    fun o w _ _ => leGet_congr fun j _ _ => hh j (by simp only [hdrStructSize]; omega) (by omega)
  have hsize : hdrSize (d'.from lba) = hdrSize (d.from lba) := hfield 12 4 (by omega) (by omega)
  have htable : hdrLbaTable (d'.from lba) = hdrLbaTable (d.from lba) := hfield 72 8 (by omega) (by omega)
  have hent : d'.entriesAt lba = d.entriesAt lba := hfield 80 4 (by omega) (by omega)
  have hentsz : hdrEntsz (d'.from lba) = hdrEntsz (d.from lba) := hfield 84 4 (by omega) (by omega)
  have hself : hdrCrcSelf (d'.from lba) = hdrCrcSelf (d.from lba) := hfield 16 4 (by omega) (by omega)
  have hcrc : hdrCrcTable (d'.from lba) = hdrCrcTable (d.from lba) := hfield 88 4 (by omega) (by omega)
  have hsum : hdrCrc (d'.from lba) = hdrCrc (d.from lba) :=
    hdrCrc_congr hsize fun j hj => hh j (lt_of_lt_of_le hj v.hdrOk.size) fun h55 => h55 ▸ hj
  refine ⟨hl.readable.mpr v.readable,⟨?_,by rw [hsize]; exact v.hdrOk.size,by rw [hsum,hself]; exact v.hdrOk.crc⟩,
    hentsz.trans v.entsz,by rw [hent]; exact v.entries,fun i hi h4 => ?_,?_⟩
  · have hsig : hdrSig (d'.from lba) = hdrSig (d.from lba) := hfield 0 8 (by omega) (by omega)
    have hlba : hdrLbaSelf (d'.from lba) = hdrLbaSelf (d.from lba) := hfield 24 8 (by omega) (by omega)
    have hrev : hdrRevision (d'.from lba) = hdrRevision (d.from lba) := hfield 8 4 (by omega) (by omega)
    have hacc := v.hdrOk.accepted
    unfold hdrAccepted at hacc ⊢
    rw [hsig,hlba,hrev,hentsz,show hdrEntries (d'.from lba) = hdrEntries (d.from lba) from hent]
    exact hacc
  · rw [hent] at h4
    rw [htable]
    exact hl.readable.mpr (v.tableReadable i hi h4)
  · rw [hent,hcrc,← v.crc,Drive.tableAt,htable]
    exact crc32_congr ht

/-- Memory that holds the copy at `k.lba`. -/
structure Loaded (d : Drive) (k : Copy) : Prop where
  valid : d.ValidAt k.lba
  hdr : Agree (d.from k.lba) k.hdr
  table : ∀ j < d.entriesAt k.lba*128, k.table j = d.tableAt k.lba j

section Loaded
variable {d d' : Drive} {k : Copy}

theorem Loaded.hdrOk (h : Loaded d k) : HdrOk k.hdr k.lba := h.hdr.hdrOk h.valid.hdrOk

theorem Loaded.entries (h : Loaded d k) : hdrEntries k.hdr = d.entriesAt k.lba := h.hdr.entries

theorem Loaded.lbaTable (h : Loaded d k) : hdrLbaTable k.hdr = hdrLbaTable (d.from k.lba) := h.hdr.lbaTable

theorem Loaded.usable (h : Loaded d k) : k.Usable :=
  ⟨h.hdrOk.accepted.2.2.2.2.1,h.hdrOk.size,by rw [h.hdr.entsz]; exact h.valid.entsz⟩

theorem Loaded.crc (h : Loaded d k) : crc32 k.table (hdrEntries k.hdr*128) = hdrCrcTable k.hdr := by
  rw [h.entries,h.hdr.crcTable,← h.valid.crc]
  exact crc32_congr h.table

/-- A sector that is the same on both drives. -/
def Drive.SameAt (d d' : Drive) (x : ℕ) : Prop := ∀ j < 512, d'.byte (512*x+j) = d.byte (512*x+j)

theorem Drive.SameAt.trans {d₁ d₂ d₃ : Drive} {x : ℕ} (h : d₁.SameAt d₂ x) (h' : d₂.SameAt d₃ x) :
    d₁.SameAt d₃ x := fun j hj => (h' j hj).trans (h j hj)

theorem Drive.sameAt_put (d : Drive) {lba x : ℕ} (sec : ℕ → UInt8) (h : x ≠ lba) :
    d.SameAt (d.put lba sec) x := by
  intro j hj
  apply d.put_outside
  omega

theorem Drive.sameAt_from {x : ℕ} (h : d.SameAt d' x) : ∀ j < 512, d'.from x j = d.from x j := by
  intro j hj
  rw [Drive.from_eq,Drive.from_eq]
  exact h j hj

/-- A table of `n` entries that starts at sector `t`. -/
theorem Drive.sameAt_table {t n : ℕ} (h : ∀ i, 4*i < n → d.SameAt d' (t+i)) :
    ∀ j < n*128, d'.from t j = d.from t j := by
  intro j hj
  have hs := h (j/512) (by omega) (j%512) (Nat.mod_lt _ (by omega))
  rw [Drive.from_eq,Drive.from_eq]
  rwa [show 512*(t+j/512)+j%512 = 512*t+j by omega] at hs

theorem Drive.SameAt.agree {lba : ℕ} (h : d.SameAt d' lba) (hs : hdrSize (d.from lba) ≤ hdrStructSize) :
    Agree (d.from lba) (d'.from lba) :=
  agree_of_struct hs fun j hj => d.sameAt_from h j (by simp only [hdrStructSize] at hj; omega)

/-- What lies outside of a copy's area has no part in it. -/
theorem Loaded.congr (h : Loaded d k) (hl : d.Like d') (hs : ∀ x, d.area k.lba x → d.SameAt d' x) :
    Loaded d' k := by
  have ha := (hs k.lba (Or.inl rfl)).agree h.valid.hdrOk.size
  have ht : ∀ j < d.entriesAt k.lba*128, d'.tableAt k.lba j = d.tableAt k.lba j := by
    unfold Drive.tableAt
    rw [ha.lbaTable]
    apply Drive.sameAt_table
    intro i hi
    apply hs
    exact Or.inr ⟨by omega,by rwa [Nat.add_sub_cancel_left]⟩
  have hn : d'.entriesAt k.lba = d.entriesAt k.lba := ha.entries
  refine ⟨h.valid.congr hl ha ht,ha.symm.trans h.hdr,?_⟩
  intro j hj
  rw [hn] at hj
  rw [ht j hj,h.table j hj]

end Loaded

section Read
variable {d : Drive} {k : Copy} {lba : ℕ}

theorem blit_struct_agree {hdr sec : ℕ → UInt8} (h : hdrSize (blit hdr 0 hdrStructSize sec) ≤ hdrStructSize) :
    Agree sec (blit hdr 0 hdrStructSize sec) := by
  apply Agree.symm
  apply agree_of_struct h
  intro j hj
  rw [blit_inside (by omega) (by omega),Nat.sub_zero]

/-- `gptread` finds a copy valid exactly when it is, and leaves it in memory. -/
theorem readCopy_loaded {k' : Copy} (h : readCopy d k lba = some (true,k'))
    (he : hdrEntsz (d.from lba) = 128) (hn : d.entriesAt lba ≠ 0) : k'.lba = lba ∧ Loaded d k' := by
  obtain ⟨hdr,table,hh,ht,rfl⟩ := readCopy_true.mp h
  obtain ⟨hr,rfl,hok⟩ := gptreadHdr_true.mp hh
  have ha := blit_struct_agree hok.size
  have hlba : hdrLbaSelf (blit k.hdr 0 hdrStructSize (d.from lba)) = lba := hok.accepted.2.1
  have hent : hdrEntries (blit k.hdr 0 hdrStructSize (d.from lba)) = d.entriesAt lba := ha.entries
  have hle : d.entriesAt lba ≤ 128 := by
    rw [← hent]
    exact hok.accepted.2.2.2.2.1
  rw [gptreadTable_true (by rw [ha.entsz,he]) (by rw [hent]; exact hle) (by rw [hent]; exact hn),hent,
    ha.lbaTable,ha.crcTable] at ht
  obtain ⟨hread,rfl,hcrc⟩ := ht
  have htab : ∀ j < d.entriesAt lba*128, blit k.table 0 (d.entriesAt lba*128)
      (d.from (hdrLbaTable (d.from lba))) j = d.tableAt lba j := by
    intro j hj
    rw [blit_inside (by omega) (by omega),Nat.sub_zero]
    rfl
  refine ⟨hlba,?_⟩
  rw [hlba]
  refine ⟨⟨hr,ha.symm.hdrOk hok,he,hn,hread,?_⟩,ha,htab⟩
  rw [← hcrc]
  exact (crc32_congr htab).symm

theorem Drive.ValidAt.readCopy (v : d.ValidAt lba) (k : Copy) : ∃ k', readCopy d k lba = some (true,k') ∧
    k'.lba = lba ∧ Loaded d k' ∧ ∀ j, d.entriesAt lba*128 ≤ j → k'.table j = k.table j := by
  have hs : hdrSize (blit k.hdr 0 hdrStructSize (d.from lba)) = hdrSize (d.from lba) :=
    leGet_congr fun j _ hj => by
      rw [blit_inside (by omega) (by simp only [hdrStructSize]; omega),Nat.sub_zero]
  have ha : Agree (d.from lba) (blit k.hdr 0 hdrStructSize (d.from lba)) :=
    blit_struct_agree (by rw [hs]; exact v.hdrOk.size)
  have hok := ha.hdrOk v.hdrOk
  have hent : hdrEntries (blit k.hdr 0 hdrStructSize (d.from lba)) = d.entriesAt lba := ha.entries
  have hread : Boot.readCopy d k lba = some (true,⟨blit k.hdr 0 hdrStructSize (d.from lba),
      blit k.table 0 (d.entriesAt lba*128) (d.tableAt lba),lba⟩) := by
    refine readCopy_true.mpr ⟨_,_,gptreadHdr_true.mpr ⟨v.readable,rfl,hok⟩,
      (gptreadTable_true (by rw [ha.entsz,v.entsz]) hok.accepted.2.2.2.2.1
        (by rw [hent]; exact v.entries)).mpr ⟨?_,rfl,?_⟩,?_⟩
    · rw [ha.lbaTable,hent]
      exact v.tableReadable
    · rw [hent,ha.lbaTable,ha.crcTable,← v.crc]
      apply crc32_congr
      intro j hj
      rw [blit_inside (by omega) (by omega),Nat.sub_zero]
      rfl
    · rw [hent,ha.lbaTable,hok.accepted.2.1]
      rfl
  obtain ⟨hl,hload⟩ := readCopy_loaded hread v.entsz v.entries
  exact ⟨_,hread,hl,hload,fun j hj => blit_outside (by omega)⟩

end Read

section WriteBack

/-- What `gptupdate` and `gptbootconv` leave of a header when they write it back. -/
def cutHdr (h : ℕ → UInt8) : ℕ → UInt8 := blit (fun _ => 0) 0 (hdrSize h) h

/-- A header size that does not cut the checksum of the table. -/
def KeepsCrc (size crc : ℕ) : Prop := 85 ≤ size ∧ crc < 256^(size-88)

theorem keepsCrc_of_le {size crc : ℕ} (hs : 92 ≤ size) (hc : crc < 256^4) : KeepsCrc size crc :=
  ⟨by omega,hc.trans_le (Nat.pow_le_pow_right (by omega) (by omega))⟩

theorem cutHdr_below {h : ℕ → UInt8} {j : ℕ} (hj : j < hdrSize h) : cutHdr h j = h j := by
  rw [cutHdr,blit_inside (by omega) (by omega),Nat.sub_zero]

theorem cutHdr_above {h : ℕ → UInt8} {j : ℕ} (hj : hdrSize h ≤ j) : cutHdr h j = 0 :=
  blit_outside (by omega)

theorem cutHdr_agree_iff {h : ℕ → UInt8} (he : hdrEntsz h = 128) :
    Agree h (cutHdr h) ↔ KeepsCrc (hdrSize h) (hdrCrcTable h) := by
  have hent : ∀ i < 4, h (84+i) = UInt8.ofNat (128/256^i) := by
    intro i hi
    rw [← he]
    exact (ofNat_leGet_div h 84 4 i hi).symm
  constructor
  · intro a
    have hz : ∀ j < 92, hdrSize h ≤ j → h j = 0 := by
      intro j hj hs
      rw [← a.fields j hj,cutHdr_above hs]
    refine ⟨?_,(leGet_lt_iff h 88 4 _).mpr fun i _ _ => hz (88+i) (by omega) (by omega)⟩
    by_contra hs
    have h84 := hent 0 (by omega)
    rw [hz 84 (by omega) (by omega)] at h84
    exact absurd h84 (by decide)
  · intro hk
    have hz := (leGet_lt_iff h 88 4 _).mp hk.2
    refine ⟨?_,fun j hj => cutHdr_below hj⟩
    intro j hj
    by_cases hs : j < hdrSize h
    · exact cutHdr_below hs
    · rw [cutHdr_above (by omega)]
      have h85 := hk.1
      by_cases h88 : 88 ≤ j
      · rw [show j = 88+(j-88) by omega]
        exact (hz (j-88) (by omega) (by omega)).symm
      · have hj' := hent (j-84) (by omega)
        rw [show 84+(j-84) = j by omega] at hj'
        rw [hj']
        have : j-84 = 1 ∨ j-84 = 2 ∨ j-84 = 3 := by omega
        obtain h₁ | h₁ | h₁ := this <;> rw [h₁] <;> decide

theorem Drive.from_put (d : Drive) (lba : ℕ) (sec : ℕ → UInt8) :
    ∀ j < 512, (d.put lba sec).from lba j = sec j := by
  intro j hj
  rw [Drive.from_eq,d.put_inside sec (by omega) (by omega),Nat.add_sub_cancel_left]

theorem hdrAccepted_congr {h h' : ℕ → UInt8} {lba : ℕ} (s : SameFields h h') (a : hdrAccepted h lba) :
    hdrAccepted h' lba := by
  unfold hdrAccepted at a ⊢
  rw [s.sig,s.lbaSelf,s.revision,s.entsz,s.entries]
  exact a

/-- A copy written back: the table `t`, and the header `hdr` sealed for it. -/
structure WrittenBack (d : Drive) (hdr t : ℕ → UInt8) (lba : ℕ) : Prop where
  accepted : hdrAccepted hdr lba
  size : hdrSize hdr ≤ hdrStructSize
  entsz : hdrEntsz hdr = 128
  entries : hdrEntries hdr ≠ 0
  readable : d.Readable lba
  tableReadable : TableReadable d (hdrLbaTable hdr) (hdrEntries hdr) 0
  table : ∀ j < hdrEntries hdr*128, d.from (hdrLbaTable hdr) j = t j
  hdr : ∀ j < 512, d.from lba j = cutHdr (sealHdr hdr (crc32 t (hdrEntries hdr*128))) j

namespace WrittenBack
variable {d d' : Drive} {hdr t : ℕ → UInt8} {lba : ℕ}

/-- Only a header that kept the checksum of the table is found valid again. -/
theorem agree_of_valid (w : WrittenBack d hdr t lba) (v : d.ValidAt lba) :
    Agree (sealHdr hdr (crc32 t (hdrEntries hdr*128)))
      (cutHdr (sealHdr hdr (crc32 t (hdrEntries hdr*128)))) := by
  have hcut := w.hdr
  have hs : SameFields hdr (sealHdr hdr (crc32 t (hdrEntries hdr*128))) := sameFields_sealHdr _ _
  have hseal : hdrCrcTable (sealHdr hdr (crc32 t (hdrEntries hdr*128))) = crc32 t (hdrEntries hdr*128) :=
    sealHdr_crcTable (crc32_lt _ _)
  generalize sealHdr hdr (crc32 t (hdrEntries hdr*128)) = h' at hcut hs hseal ⊢
  have hent : hdrEntsz (cutHdr h') = hdrEntsz h' := by
    rw [hs.entsz,w.entsz,← v.entsz]
    exact leGet_congr fun j _ hj => (hcut j (by omega)).symm
  have h84 : cutHdr h' 84 ≠ 0 := by
    intro h₀
    have hb : cutHdr h' 84 = UInt8.ofNat (hdrEntsz (cutHdr h')/256^0) :=
      (ofNat_leGet_div (cutHdr h') 84 4 0 (by omega)).symm
    rw [hent,hs.entsz,w.entsz,h₀] at hb
    exact absurd hb (by decide)
  have hsize : 85 ≤ hdrSize h' := by
    by_contra hlt
    exact h84 (cutHdr_above (by omega))
  have hlow : ∀ j < 84, d.from lba j = h' j := by
    intro j hj
    rw [hcut j (by omega),cutHdr_below (by omega)]
  have hT : hdrLbaTable (d.from lba) = hdrLbaTable hdr := by
    rw [← hs.lbaTable]
    exact leGet_congr fun j _ hj => hlow j (by omega)
  have hn : d.entriesAt lba = hdrEntries hdr := by
    rw [← hs.entries]
    exact leGet_congr fun j _ hj => hlow j (by omega)
  have hcrc : hdrCrcTable (cutHdr h') = hdrCrcTable h' := by
    have hv := v.crc
    rw [hn,Drive.tableAt,hT,crc32_congr w.table] at hv
    rw [hseal,hv]
    exact leGet_congr fun j _ hj => (hcut j (by omega)).symm
  refine ⟨?_,fun j hj => cutHdr_below hj⟩
  intro j hj
  by_cases h₁ : j < 84
  · exact cutHdr_below (by omega)
  · by_cases h₂ : j < 88
    · exact leGet_inj hent (by omega) (by omega)
    · exact leGet_inj hcrc (by omega) (by omega)

theorem loaded_of_agree (w : WrittenBack d hdr t lba)
    (ha : Agree (sealHdr hdr (crc32 t (hdrEntries hdr*128)))
      (cutHdr (sealHdr hdr (crc32 t (hdrEntries hdr*128))))) :
    Loaded d ⟨sealHdr hdr (crc32 t (hdrEntries hdr*128)),t,lba⟩ := by
  have hcut := w.hdr
  have hs : SameFields hdr (sealHdr hdr (crc32 t (hdrEntries hdr*128))) := sameFields_sealHdr _ _
  have hseal : hdrCrcTable (sealHdr hdr (crc32 t (hdrEntries hdr*128))) = crc32 t (hdrEntries hdr*128) :=
    sealHdr_crcTable (crc32_lt _ _)
  have hok : HdrOk (sealHdr hdr (crc32 t (hdrEntries hdr*128))) lba :=
    ⟨hdrAccepted_congr hs w.accepted,by rw [hs.size]; exact w.size,(sealHdr_crcSelf _).symm⟩
  generalize sealHdr hdr (crc32 t (hdrEntries hdr*128)) = h' at hcut hs hseal hok ha ⊢
  have hsize := hok.size
  simp only [hdrStructSize] at hsize
  have ha' : Agree h' (d.from lba) :=
    ⟨fun j hj => (hcut j (by omega)).trans (ha.fields j hj),
      fun j hj => (hcut j (by omega)).trans (ha.summed j hj)⟩
  have hn : d.entriesAt lba = hdrEntries hdr := ha'.entries.trans hs.entries
  have htab : ∀ j < hdrEntries hdr*128, d.tableAt lba j = t j := by
    intro j hj
    rw [Drive.tableAt,ha'.lbaTable,hs.lbaTable,w.table j hj]
  refine ⟨⟨w.readable,ha'.hdrOk hok,?_,?_,?_,?_⟩,ha'.symm,?_⟩
  · rw [ha'.entsz,hs.entsz,w.entsz]
  · rw [hn]
    exact w.entries
  · rw [ha'.lbaTable,hs.lbaTable,hn]
    exact w.tableReadable
  · rw [hn,ha'.crcTable,hseal]
    exact crc32_congr htab
  · rw [hn]
    exact fun j hj => (htab j hj).symm

theorem agree_iff (w : WrittenBack d hdr t lba) : Agree (sealHdr hdr (crc32 t (hdrEntries hdr*128)))
      (cutHdr (sealHdr hdr (crc32 t (hdrEntries hdr*128)))) ↔
    KeepsCrc (hdrSize hdr) (crc32 t (hdrEntries hdr*128)) := by
  have hs := sameFields_sealHdr hdr (crc32 t (hdrEntries hdr*128))
  rw [cutHdr_agree_iff (hs.entsz.trans w.entsz),hs.size,sealHdr_crcTable (crc32_lt _ _)]

/-- With the header sealed and written the copy is valid and memory holds it, unless the cut takes
away a part of the table's checksum. -/
theorem loaded (w : WrittenBack d hdr t lba) (hk : KeepsCrc (hdrSize hdr) (crc32 t (hdrEntries hdr*128))) :
    Loaded d ⟨sealHdr hdr (crc32 t (hdrEntries hdr*128)),t,lba⟩ := w.loaded_of_agree (w.agree_iff.mpr hk)

theorem valid_iff (w : WrittenBack d hdr t lba) :
    d.ValidAt lba ↔ KeepsCrc (hdrSize hdr) (crc32 t (hdrEntries hdr*128)) :=
  ⟨fun v => w.agree_iff.mp (w.agree_of_valid v),fun hk => (w.loaded hk).valid⟩

end WrittenBack

end WriteBack

end Blub.Boot
