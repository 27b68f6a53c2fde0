import Blub.Crc32

/-! The fields of a GPT header and of a table entry, as `struct gpt_hdr` and `struct gpt_ent` lay
them out in little-endian bytes. A uuid is read as the number of its sixteen bytes. -/
namespace Blub.Gpt
open Blub.Bytes

def gptHdrSig : ℕ := 0x5452415020494645

def hdrStructSize : ℕ := 96

def hdrSig (h : ℕ → UInt8) : ℕ := leGet h 0 8
def hdrRevision (h : ℕ → UInt8) : ℕ := leGet h 8 4
def hdrSize (h : ℕ → UInt8) : ℕ := leGet h 12 4
def hdrCrcSelf (h : ℕ → UInt8) : ℕ := leGet h 16 4
def hdrLbaSelf (h : ℕ → UInt8) : ℕ := leGet h 24 8
def hdrLbaAlt (h : ℕ → UInt8) : ℕ := leGet h 32 8
def hdrLbaStart (h : ℕ → UInt8) : ℕ := leGet h 40 8
def hdrLbaEnd (h : ℕ → UInt8) : ℕ := leGet h 48 8
def hdrLbaTable (h : ℕ → UInt8) : ℕ := leGet h 72 8
def hdrEntries (h : ℕ → UInt8) : ℕ := leGet h 80 4
def hdrEntsz (h : ℕ → UInt8) : ℕ := leGet h 84 4
def hdrCrcTable (h : ℕ → UInt8) : ℕ := leGet h 88 4

def setCrcSelf (h : ℕ → UInt8) (v : ℕ) : ℕ → UInt8 := lePut h 16 4 v
def setCrcTable (h : ℕ → UInt8) (v : ℕ) : ℕ → UInt8 := lePut h 88 4 v

def entStructSize : ℕ := 128

/-! The entry that starts at byte `o` of a table. -/

def entType (t : ℕ → UInt8) (o : ℕ) : ℕ := leGet t o 16
def entLbaStart (t : ℕ → UInt8) (o : ℕ) : ℕ := leGet t (o+32) 8
def entLbaEnd (t : ℕ → UInt8) (o : ℕ) : ℕ := leGet t (o+40) 8
def entAttr (t : ℕ → UInt8) (o : ℕ) : BitVec 64 := BitVec.ofNat 64 (leGet t (o+48) 8)

def setEntAttr (t : ℕ → UInt8) (o : ℕ) (v : BitVec 64) : ℕ → UInt8 := lePut t (o+48) 8 v.toNat

def attrBootme : BitVec 64 := 1#64 <<< 59
def attrBootonce : BitVec 64 := 1#64 <<< 58
def attrBootfailed : BitVec 64 := 1#64 <<< 57

/-- The checksum of a header, taken with its own field cleared. -/
def hdrCrc (h : ℕ → UInt8) : ℕ := crc32 (setCrcSelf h 0) (hdrSize h)

/-- Store the checksum of a table and then that of the header itself. -/
def sealHdr (h : ℕ → UInt8) (tableCrc : ℕ) : ℕ → UInt8 :=
  let h₁ := setCrcTable h tableCrc
  setCrcSelf h₁ (hdrCrc h₁)

/-- Headers that differ in their checksums only. -/
def SameFields (h h' : ℕ → UInt8) : Prop :=
  ∀ j < hdrStructSize, (j < 16 ∨ 20 ≤ j) → (j < 88 ∨ 92 ≤ j) → h' j = h j

section Fields
variable {h h' : ℕ → UInt8}

theorem SameFields.refl (h : ℕ → UInt8) : SameFields h h := fun _ _ _ _ => rfl

theorem SameFields.trans {h₁ h₂ h₃ : ℕ → UInt8} (a : SameFields h₁ h₂) (b : SameFields h₂ h₃) :
    SameFields h₁ h₃ := fun j hj hs ht => (b j hj hs ht).trans (a j hj hs ht)

theorem sameFields_setCrcSelf (h : ℕ → UInt8) (v : ℕ) : SameFields h (setCrcSelf h v) :=
  fun _ _ hs _ => lePut_outside (by omega)

theorem sameFields_setCrcTable (h : ℕ → UInt8) (v : ℕ) : SameFields h (setCrcTable h v) :=
  fun _ _ _ ht => lePut_outside (by omega)

theorem sameFields_sealHdr (h : ℕ → UInt8) (v : ℕ) : SameFields h (sealHdr h v) :=
  (sameFields_setCrcTable h v).trans (sameFields_setCrcSelf _ _)

/-- A field outside of the checksums has the same value in both headers. -/
theorem SameFields.leGet (s : SameFields h h') (o w : ℕ) (ho : o+w ≤ 96) (hs : o+w ≤ 16 ∨ 20 ≤ o)
    (ht : o+w ≤ 88 ∨ 92 ≤ o) : Bytes.leGet h' o w = Bytes.leGet h o w :=
  leGet_congr fun j h₁ h₂ => s j (by simp only [hdrStructSize]; omega) (by omega) (by omega)

theorem SameFields.sig (s : SameFields h h') : hdrSig h' = hdrSig h :=
  s.leGet 0 8 (by omega) (by omega) (by omega)
theorem SameFields.revision (s : SameFields h h') : hdrRevision h' = hdrRevision h :=
  s.leGet 8 4 (by omega) (by omega) (by omega)
theorem SameFields.size (s : SameFields h h') : hdrSize h' = hdrSize h :=
  s.leGet 12 4 (by omega) (by omega) (by omega)
theorem SameFields.lbaSelf (s : SameFields h h') : hdrLbaSelf h' = hdrLbaSelf h :=
  s.leGet 24 8 (by omega) (by omega) (by omega)
theorem SameFields.lbaAlt (s : SameFields h h') : hdrLbaAlt h' = hdrLbaAlt h :=
  s.leGet 32 8 (by omega) (by omega) (by omega)
theorem SameFields.lbaStart (s : SameFields h h') : hdrLbaStart h' = hdrLbaStart h :=
  s.leGet 40 8 (by omega) (by omega) (by omega)
theorem SameFields.lbaEnd (s : SameFields h h') : hdrLbaEnd h' = hdrLbaEnd h :=
  s.leGet 48 8 (by omega) (by omega) (by omega)
theorem SameFields.lbaTable (s : SameFields h h') : hdrLbaTable h' = hdrLbaTable h :=
  s.leGet 72 8 (by omega) (by omega) (by omega)
theorem SameFields.entries (s : SameFields h h') : hdrEntries h' = hdrEntries h :=
  s.leGet 80 4 (by omega) (by omega) (by omega)
theorem SameFields.entsz (s : SameFields h h') : hdrEntsz h' = hdrEntsz h :=
  s.leGet 84 4 (by omega) (by omega) (by omega)

theorem hdrCrcSelf_setCrcSelf {v : ℕ} (hv : v < 256^4) : hdrCrcSelf (setCrcSelf h v) = v :=
  leGet_lePut_of_lt hv

theorem hdrCrcTable_setCrcTable {v : ℕ} (hv : v < 256^4) : hdrCrcTable (setCrcTable h v) = v :=
  leGet_lePut_of_lt hv

theorem hdrCrcTable_setCrcSelf (v : ℕ) : hdrCrcTable (setCrcSelf h v) = hdrCrcTable h :=
  leGet_lePut_apart (by omega)

theorem setCrcSelf_setCrcSelf (h : ℕ → UInt8) (v v' : ℕ) :
    setCrcSelf (setCrcSelf h v) v' = setCrcSelf h v' := by
  funext j
  by_cases hj : 16 ≤ j ∧ j < 16+4
  · simp only [setCrcSelf,lePut,blit_inside hj.1 hj.2]
  · simp only [setCrcSelf]
    rw [lePut_outside (by omega),lePut_outside (by omega),lePut_outside (by omega)]

theorem hdrCrc_setCrcSelf (h : ℕ → UInt8) (v : ℕ) : hdrCrc (setCrcSelf h v) = hdrCrc h := by
  simp only [hdrCrc]
  rw [setCrcSelf_setCrcSelf,(sameFields_setCrcSelf h v).size]

theorem hdrCrc_congr (hsz : hdrSize h' = hdrSize h) (hs : ∀ j < hdrSize h, h' j = h j) :
    hdrCrc h' = hdrCrc h := by
  simp only [hdrCrc,hsz]
  apply crc32_congr
  intro j hj
  by_cases hc : 16 ≤ j ∧ j < 16+4
  · simp only [setCrcSelf,lePut,blit_inside hc.1 hc.2]
  · simp only [setCrcSelf]
    rw [lePut_outside (by omega),lePut_outside (by omega),hs j hj]

/-- A sealed header carries the checksum of the table and its own. -/
theorem sealHdr_crcTable {v : ℕ} (hv : v < 256^4) : hdrCrcTable (sealHdr h v) = v := by
  simp only [sealHdr,hdrCrcTable_setCrcSelf]
  exact hdrCrcTable_setCrcTable hv

theorem sealHdr_crcSelf (v : ℕ) : hdrCrcSelf (sealHdr h v) = hdrCrc (sealHdr h v) := by
  simp only [sealHdr,hdrCrc_setCrcSelf]
  exact hdrCrcSelf_setCrcSelf (crc32_lt _ _)

end Fields

section Entries
variable {t t' : ℕ → UInt8} {o : ℕ}

theorem setEntAttr_outside {v : BitVec 64} {j : ℕ} (h : j < o+48 ∨ o+56 ≤ j) :
    setEntAttr t o v j = t j := lePut_outside (by omega)

@[simp] theorem entAttr_setEntAttr (t : ℕ → UInt8) (o : ℕ) (v : BitVec 64) :
    entAttr (setEntAttr t o v) o = v := by
  have hv : v.toNat < 256^8 := by
    have := v.isLt
    norm_num at this ⊢
    omega
  simp only [entAttr,setEntAttr]
  rw [leGet_lePut_of_lt hv,BitVec.ofNat_toNat,BitVec.setWidth_eq]

theorem entAttr_congr (h : ∀ j, o+48 ≤ j → j < o+56 → t' j = t j) : entAttr t' o = entAttr t o := by
  simp only [entAttr]
  rw [leGet_congr fun j h₁ h₂ => h j h₁ (by omega)]

theorem entAttr_setEntAttr_apart {o' : ℕ} (t : ℕ → UInt8) (v : BitVec 64)
    (h : o'+56 ≤ o+48 ∨ o+56 ≤ o'+48) : entAttr (setEntAttr t o v) o' = entAttr t o' :=
  entAttr_congr fun _ _ _ => setEntAttr_outside (by omega)

theorem entType_congr (h : ∀ j, o ≤ j → j < o+16 → t' j = t j) : entType t' o = entType t o :=
  leGet_congr h

end Entries

section Flags

theorem attrBootme_eq : attrBootme = BitVec.twoPow 64 59 := by decide

theorem attrBootonce_eq : attrBootonce = BitVec.twoPow 64 58 := by decide

theorem attrBootfailed_eq : attrBootfailed = BitVec.twoPow 64 57 := by decide

theorem and_twoPow_ne_zero (a : BitVec 64) {k : ℕ} (hk : k < 64) :
    a &&& BitVec.twoPow 64 k ≠ 0 ↔ a.getLsbD k = true := by
  rw [BitVec.and_twoPow]
  cases h : a.getLsbD k with
  | false => simp
  | true =>
    simp only [if_true,iff_true]
    intro h₀
    have := congrArg (fun b => b.getLsbD k) h₀
    simp [hk] at this

end Flags

end Blub.Gpt
