import Blub.Gpt.Layout

/-! `verify`: the comparison of the two headers, and of the two tables. -/
namespace Blub.Fgdisk
open Blub.Bytes Blub.Gpt

section Code

def hdrUuid (h : ℕ → UInt8) : ℕ := leGet h 56 16
def entUuid (t : ℕ → UInt8) (o : ℕ) : ℕ := leGet t (o+16) 16
def entNameBytes (t : ℕ → UInt8) (o : ℕ) : ℕ := leGet t (o+56) 72

def verifyPrint (cond : Bool) : ℤ := if cond then 0 else -1

/-- The header with its checksum taken anew. -/
def resumHdr (h : ℕ → UInt8) : ℕ → UInt8 :=
  let h := setCrcSelf h 0
  setCrcSelf h (crc32 h (hdrSize h))

/-- `compare_headers`: the result, and what becomes of the two headers. The last of the comparisons is an
assignment. -/
def compareHeaders (hp hs : ℕ → UInt8) : ℤ × (ℕ → UInt8) × (ℕ → UInt8) :=
  let ret := 0
  let ret := ret+verifyPrint (hdrSig hp = hdrSig hs)
  let ret := ret+verifyPrint (hdrRevision hp = hdrRevision hs)
  let ret := ret+verifyPrint (hdrSize hp = hdrSize hs)
  let hp := resumHdr hp
  let hs := resumHdr hs
  let ret := ret+verifyPrint (hdrCrcSelf hp ≠ hdrCrcSelf hs)
  let ret := ret+verifyPrint (hdrLbaSelf hp = hdrLbaAlt hs)
  let ret := ret+verifyPrint (hdrLbaAlt hp = hdrLbaSelf hs)
  let ret := ret+verifyPrint (hdrLbaStart hp = hdrLbaStart hs)
  let ret := ret+verifyPrint (hdrLbaEnd hp = hdrLbaEnd hs)
  let ret := ret+verifyPrint (hdrLbaTable hp ≠ hdrLbaTable hs)
  let ret := ret+verifyPrint (hdrUuid hp = hdrUuid hs)
  let ret := ret+verifyPrint (hdrEntries hp = hdrEntries hs)
  let ret := ret+verifyPrint (hdrEntsz hp = hdrEntsz hs)
  let hp := setCrcTable hp (hdrCrcTable hs)
  let ret := ret+verifyPrint (hdrCrcTable hp ≠ 0)
  (ret,hp,hs)

/-- `compare_entries` of the entries at byte `o` of the two tables. The name is compared with itself. -/
def compareEntries (ep es : ℕ → UInt8) (o : ℕ) : ℤ :=
  let ret := 0
  let ret := ret+verifyPrint (entType ep o = entType es o)
  let ret := ret+verifyPrint (entUuid ep o = entUuid es o)
  let ret := ret+verifyPrint (entLbaStart ep o = entLbaStart es o)
  let ret := ret+verifyPrint (entLbaEnd ep o = entLbaEnd es o)
  let ret := ret+verifyPrint (entAttr ep o = entAttr es o)
  ret+verifyPrint (entNameBytes ep o = entNameBytes ep o)

/-- The number of entries that `compare_tables` compares, and their distance as well. -/
def comparedEntsz (hp hs : ℕ → UInt8) : ℕ :=
  let entries := if hdrEntries hp ≠ hdrEntries hs then min (hdrEntries hp) (hdrEntries hs) else hdrEntries hp
  let entsz := if hdrEntsz hp ≠ hdrEntsz hs then min (hdrEntsz hp) (hdrEntsz hs) else hdrEntsz hp
  if entries ≠ entsz then min entries entsz else entsz

def compareTables (hp hs ep es : ℕ → UInt8) : ℤ :=
  let entsz := comparedEntsz hp hs
  (List.range entsz).foldl (fun ret i => ret+verifyPrint (compareEntries ep es (i*entsz%2^32) = 0)) 0

end Code

section Purpose

/-- The headers of two copies that belong together, but for the checksums of their tables. -/
structure HdrsPair (hp hs : ℕ → UInt8) : Prop where
  sig : hdrSig hp = hdrSig hs
  revision : hdrRevision hp = hdrRevision hs
  size : hdrSize hp = hdrSize hs
  crcSelf : hdrCrc hp ≠ hdrCrc hs
  lbaSelf : hdrLbaSelf hp = hdrLbaAlt hs
  lbaAlt : hdrLbaAlt hp = hdrLbaSelf hs
  lbaStart : hdrLbaStart hp = hdrLbaStart hs
  lbaEnd : hdrLbaEnd hp = hdrLbaEnd hs
  lbaTable : hdrLbaTable hp ≠ hdrLbaTable hs
  uuid : hdrUuid hp = hdrUuid hs
  entries : hdrEntries hp = hdrEntries hs
  entsz : hdrEntsz hp = hdrEntsz hs

/-- Nothing of the header changes but its own checksum. -/
def OnlyCrcSelf (h h' : ℕ → UInt8) : Prop := ∀ j, j < 16 ∨ 20 ≤ j → h' j = h j

/-- `compare_headers` says whether the headers belong together, and changes nothing else. -/
def HeadersCompared (hp hs : ℕ → UInt8) : Prop :=
  ((compareHeaders hp hs).1 = 0 ↔ HdrsPair hp hs ∧ hdrCrcTable hp = hdrCrcTable hs) ∧
  OnlyCrcSelf hp (compareHeaders hp hs).2.1 ∧ OnlyCrcSelf hs (compareHeaders hp hs).2.2

/-- The entries at `o` and at `o'` agree up to their names. -/
structure EntsAlike (ep es : ℕ → UInt8) (o o' : ℕ) : Prop where
  type : entType ep o = entType es o'
  uuid : entUuid ep o = entUuid es o'
  lbaStart : entLbaStart ep o = entLbaStart es o'
  lbaEnd : entLbaEnd ep o = entLbaEnd es o'
  attr : entAttr ep o = entAttr es o'

/-- Entry `i` is the same in both of the tables. -/
def EntEqual (hp hs ep es : ℕ → UInt8) (i : ℕ) : Prop :=
  EntsAlike ep es (i*hdrEntsz hp) (i*hdrEntsz hs) ∧
    entNameBytes ep (i*hdrEntsz hp) = entNameBytes es (i*hdrEntsz hs)

def TablesCompared (hp hs ep es : ℕ → UInt8) : Prop :=
  compareTables hp hs ep es = 0 ↔ ∀ i < min (hdrEntries hp) (hdrEntries hs), EntEqual hp hs ep es i

/-- The least of the numbers of entries and of the sizes of an entry. -/
def leastSize (hp hs : ℕ → UInt8) : ℕ := min (min (hdrEntries hp) (hdrEntries hs)) (min (hdrEntsz hp) (hdrEntsz hs))

/-- The pieces that are compared are the first entries of the tables: there is one of them at most, or the entries
are as far apart as the pieces. -/
def PlacesRight (hp hs : ℕ → UInt8) : Prop :=
  leastSize hp hs ≤ 1 ∨ (hdrEntsz hp = leastSize hp hs ∧ hdrEntsz hs = leastSize hp hs ∧ leastSize hp hs ≤ 2^16)

/-- One of the first entries differs by more than its name, or none of them does by its name and none of those
behind them by anything. -/
def DifferenceShown (hp hs ep es : ℕ → UInt8) : Prop :=
  (∃ i < leastSize hp hs, ¬ EntsAlike ep es (i*leastSize hp hs) (i*leastSize hp hs)) ∨
    ((∀ i < leastSize hp hs, entNameBytes ep (i*leastSize hp hs) = entNameBytes es (i*leastSize hp hs)) ∧
      ∀ i, leastSize hp hs ≤ i → i < min (hdrEntries hp) (hdrEntries hs) → EntEqual hp hs ep es i)

/-- The pieces lie beside the entries, and happen to differ where the entries do. -/
def SeenElsewhere (hp hs ep es : ℕ → UInt8) : Prop :=
  ¬ PlacesRight hp hs ∧
    ((∃ i < leastSize hp hs, ¬ EntsAlike ep es (i*leastSize hp hs%2^32) (i*leastSize hp hs%2^32)) ↔
      ∃ i < min (hdrEntries hp) (hdrEntries hs), ¬ EntEqual hp hs ep es i)

end Purpose

section Headers
variable {h hp hs ep es : ℕ → UInt8}

theorem verifyPrint_nonpos (c : Bool) : verifyPrint c ≤ 0 := by cases c <;> decide

theorem verifyPrint_eq_zero {p : Prop} [Decidable p] : verifyPrint (decide p) = 0 ↔ p := by
  by_cases h : p <;> simp [verifyPrint,h]

theorem add_verifyPrint_nonpos {ret : ℤ} {c : Bool} (hret : ret ≤ 0) : ret+verifyPrint c ≤ 0 := by
  have := verifyPrint_nonpos c
  omega

/-- A sum of verdicts is 0 exactly where each of them is. -/
theorem add_verifyPrint_eq_zero {ret : ℤ} {p : Prop} [Decidable p] (hret : ret ≤ 0) :
    ret+verifyPrint (decide p) = 0 ↔ ret = 0 ∧ p := by
  have hv := verifyPrint_nonpos (decide p)
  have hz := verifyPrint_eq_zero (p := p)
  constructor
  · exact fun h => ⟨by omega,hz.mp (by omega)⟩
  · rintro ⟨hr,hp⟩
    rw [hr,hz.mpr hp,Int.add_zero]

theorem resumHdr_eq (h : ℕ → UInt8) : resumHdr h = setCrcSelf h (hdrCrc h) := by
  unfold resumHdr hdrCrc
  dsimp only
  rw [setCrcSelf_setCrcSelf,(sameFields_setCrcSelf h 0).size]

theorem hdrUuid_resumHdr : hdrUuid (resumHdr h) = hdrUuid h := by
  rw [resumHdr_eq]
  exact leGet_lePut_apart (by omega)

theorem hdrCrcSelf_resumHdr : hdrCrcSelf (resumHdr h) = hdrCrc h := by
  rw [resumHdr_eq]
  exact hdrCrcSelf_setCrcSelf (crc32_lt _ _)

/-- The verdict on the headers: everything is compared but the checksums of the tables, of which the second must not
be 0. -/
theorem compareHeaders_eq_zero (hp hs : ℕ → UInt8) :
    (compareHeaders hp hs).1 = 0 ↔ HdrsPair hp hs ∧ hdrCrcTable hs ≠ 0 := by
  have fp : SameFields hp (resumHdr hp) := by
    rw [resumHdr_eq]
    exact sameFields_setCrcSelf _ _
  have fs : SameFields hs (resumHdr hs) := by
    rw [resumHdr_eq]
    exact sameFields_setCrcSelf _ _
  have hcrc : hdrCrcTable (resumHdr hs) = hdrCrcTable hs := by
    rw [resumHdr_eq,hdrCrcTable_setCrcSelf]
  have hset : hdrCrcTable (setCrcTable (resumHdr hp) (hdrCrcTable hs)) = hdrCrcTable hs :=
    hdrCrcTable_setCrcTable (leGet_lt hs 88 4)
  unfold compareHeaders
  dsimp only
  iterate 13 rw [add_verifyPrint_eq_zero]
  · rw [hdrCrcSelf_resumHdr,hdrCrcSelf_resumHdr,fp.lbaSelf,fp.lbaAlt,fp.lbaStart,fp.lbaEnd,fp.lbaTable,fp.entries,
      fp.entsz,fs.lbaSelf,fs.lbaAlt,fs.lbaStart,fs.lbaEnd,fs.lbaTable,fs.entries,fs.entsz,hdrUuid_resumHdr,
      hdrUuid_resumHdr,hcrc,hset]
    constructor
    · rintro ⟨⟨⟨⟨⟨⟨⟨⟨⟨⟨⟨⟨⟨-,h₁⟩,h₂⟩,h₃⟩,h₄⟩,h₅⟩,h₆⟩,h₇⟩,h₈⟩,h₉⟩,h₁₀⟩,h₁₁⟩,h₁₂⟩,h₁₃⟩
      exact ⟨⟨h₁,h₂,h₃,h₄,h₅,h₆,h₇,h₈,h₉,h₁₀,h₁₁,h₁₂⟩,h₁₃⟩
    · rintro ⟨h,h₁₃⟩
      exact ⟨⟨⟨⟨⟨⟨⟨⟨⟨⟨⟨⟨⟨rfl,h.sig⟩,h.revision⟩,h.size⟩,h.crcSelf⟩,h.lbaSelf⟩,h.lbaAlt⟩,h.lbaStart⟩,h.lbaEnd⟩,
        h.lbaTable⟩,h.uuid⟩,h.entries⟩,h.entsz⟩,h₁₃⟩
  all_goals
    repeat' apply add_verifyPrint_nonpos
    exact le_rfl

theorem onlyCrcSelf_resumHdr (h : ℕ → UInt8) : OnlyCrcSelf h (resumHdr h) := by
  intro j hj
  rw [resumHdr_eq]
  exact lePut_outside (by omega)

/-- The assignment changes the primary header unless both checksums were the same. -/
theorem onlyCrcSelf_compareHeaders : OnlyCrcSelf hp (compareHeaders hp hs).2.1 ↔ hdrCrcTable hp = hdrCrcTable hs := by
  have hcrc : hdrCrcTable (resumHdr hs) = hdrCrcTable hs := by rw [resumHdr_eq,hdrCrcTable_setCrcSelf]
  have hres : (compareHeaders hp hs).2.1 = setCrcTable (resumHdr hp) (hdrCrcTable hs) :=
    congrArg (setCrcTable (resumHdr hp)) hcrc
  rw [hres]
  constructor
  · intro h
    have hkept : hdrCrcTable (setCrcTable (resumHdr hp) (hdrCrcTable hs)) = hdrCrcTable hp :=
      leGet_congr fun j hj _ => h j (by omega)
    rw [← hkept]
    exact hdrCrcTable_setCrcTable (leGet_lt hs 88 4)
  · intro heq j hj
    have hp' : hdrCrcTable (resumHdr hp) = hdrCrcTable hp := by rw [resumHdr_eq,hdrCrcTable_setCrcSelf]
    have hsame : setCrcTable (resumHdr hp) (hdrCrcTable (resumHdr hp)) = resumHdr hp := lePut_leGet _ 88 4
    rw [← heq,← hp',hsame]
    exact onlyCrcSelf_resumHdr hp j hj

theorem headersCompared_iff : HeadersCompared hp hs ↔
    hdrCrcTable hp = hdrCrcTable hs ∧ (hdrCrcTable hs ≠ 0 ∨ ¬ HdrsPair hp hs) := by
  have hs' : OnlyCrcSelf hs (compareHeaders hp hs).2.2 := onlyCrcSelf_resumHdr hs
  unfold HeadersCompared
  rw [onlyCrcSelf_compareHeaders,compareHeaders_eq_zero]
  constructor
  · rintro ⟨h,heq,-⟩
    refine ⟨heq,?_⟩
    by_contra! hno
    exact (h.mpr ⟨hno.2,heq⟩).2 hno.1
  · rintro ⟨heq,hor⟩
    refine ⟨⟨fun h => ⟨h.1,heq⟩,fun h => ⟨h.1,?_⟩⟩,heq,hs'⟩
    exact hor.resolve_right (not_not.mpr h.1)

end Headers

section Tables
variable {hp hs ep es : ℕ → UInt8}

theorem compareEntries_eq_zero (ep es : ℕ → UInt8) (o : ℕ) : compareEntries ep es o = 0 ↔ EntsAlike ep es o o := by
  unfold compareEntries
  dsimp only
  iterate 6 rw [add_verifyPrint_eq_zero]
  · constructor
    · rintro ⟨⟨⟨⟨⟨⟨-,h₁⟩,h₂⟩,h₃⟩,h₄⟩,h₅⟩,-⟩
      exact ⟨h₁,h₂,h₃,h₄,h₅⟩
    · rintro ⟨h₁,h₂,h₃,h₄,h₅⟩
      exact ⟨⟨⟨⟨⟨⟨rfl,h₁⟩,h₂⟩,h₃⟩,h₄⟩,h₅⟩,rfl⟩
  all_goals
    repeat' apply add_verifyPrint_nonpos
    exact le_rfl

theorem comparedEntsz_eq (hp hs : ℕ → UInt8) : comparedEntsz hp hs = leastSize hp hs := by
  unfold comparedEntsz leastSize
  dsimp only
  split_ifs <;> omega

theorem foldl_verifyPrint {p : ℕ → Prop} [DecidablePred p] (l : List ℕ) {ret : ℤ} (hret : ret ≤ 0) :
    l.foldl (fun ret i => ret+verifyPrint (p i)) ret = 0 ↔ ret = 0 ∧ ∀ i ∈ l, p i := by
  induction l generalizing ret with
  | nil => simp
  | cons i l ih =>
    rw [List.foldl_cons,ih (add_verifyPrint_nonpos hret),add_verifyPrint_eq_zero hret,List.forall_mem_cons,and_assoc]

theorem compareTables_eq_zero (hp hs ep es : ℕ → UInt8) : compareTables hp hs ep es = 0 ↔
    ∀ i < comparedEntsz hp hs, EntsAlike ep es (i*comparedEntsz hp hs%2^32) (i*comparedEntsz hp hs%2^32) := by
  unfold compareTables
  dsimp only
  rw [foldl_verifyPrint _ le_rfl]
  simp only [true_and,List.mem_range,compareEntries_eq_zero]

theorem exists_lt_not {m : ℕ} {P : ℕ → Prop} : (∃ i < m, ¬ P i) ↔ ¬ ∀ i < m, P i := by
  push Not
  rfl

theorem leastSize_le_entries (hp hs : ℕ → UInt8) : leastSize hp hs ≤ min (hdrEntries hp) (hdrEntries hs) := min_le_left _ _

/-- Where the pieces are the first entries, so are their offsets. -/
theorem PlacesRight.offset (h : PlacesRight hp hs) {i : ℕ} (hi : i < leastSize hp hs) :
    i*leastSize hp hs%2^32 = i*leastSize hp hs ∧ i*hdrEntsz hp = i*leastSize hp hs ∧
      i*hdrEntsz hs = i*leastSize hp hs := by
  obtain hone | ⟨hz₁,hz₂,hle⟩ := h
  · obtain rfl : i = 0 := by omega
    simp
  · refine ⟨Nat.mod_eq_of_lt ?_,by rw [hz₁],by rw [hz₂]⟩
    calc i*leastSize hp hs < leastSize hp hs*leastSize hp hs := Nat.mul_lt_mul_of_pos_right hi (by omega)
      _ ≤ 2^16*2^16 := Nat.mul_le_mul hle hle
      _ = 2^32 := by norm_num

/-- With the pieces at the entries only the names and the entries behind the first ones go unseen. -/
theorem PlacesRight.tablesCompared_iff (h : PlacesRight hp hs) :
    TablesCompared hp hs ep es ↔ DifferenceShown hp hs ep es := by
  have hpieces : (∀ i < leastSize hp hs, EntsAlike ep es (i*leastSize hp hs%2^32) (i*leastSize hp hs%2^32)) ↔
      ∀ i < leastSize hp hs, EntsAlike ep es (i*leastSize hp hs) (i*leastSize hp hs) :=
    forall₂_congr fun i hi => by rw [(h.offset hi).1]
  have hequal : ∀ i < leastSize hp hs, (EntEqual hp hs ep es i ↔
      EntsAlike ep es (i*leastSize hp hs) (i*leastSize hp hs) ∧
        entNameBytes ep (i*leastSize hp hs) = entNameBytes es (i*leastSize hp hs)) := fun i hi => by
    rw [EntEqual,(h.offset hi).2.1,(h.offset hi).2.2]
  have hle := leastSize_le_entries hp hs
  unfold TablesCompared DifferenceShown
  rw [compareTables_eq_zero,comparedEntsz_eq,hpieces,exists_lt_not]
  constructor
  · intro hiff
    by_cases hall : ∀ i < leastSize hp hs, EntsAlike ep es (i*leastSize hp hs) (i*leastSize hp hs)
    · have heq := hiff.mp hall
      exact .inr ⟨fun i hi => ((hequal i hi).mp (heq i (hi.trans_le hle))).2,fun i _ hi => heq i hi⟩
    · exact .inl hall
  · rintro (hno | ⟨hname,hrest⟩)
    · exact iff_of_false hno fun heq => hno fun i hi => ((hequal i hi).mp (heq i (hi.trans_le hle))).1
    · refine ⟨fun hall i hi => ?_,fun heq i hi => ((hequal i hi).mp (heq i (hi.trans_le hle))).1⟩
      rcases Nat.lt_or_ge i (leastSize hp hs) with hlt | hge
      · exact (hequal i hlt).mpr ⟨hall i hlt,hname i hlt⟩
      · exact hrest i hge hi

theorem tablesCompared_iff : TablesCompared hp hs ep es ↔
    (PlacesRight hp hs ∧ DifferenceShown hp hs ep es) ∨ SeenElsewhere hp hs ep es := by
  by_cases h : PlacesRight hp hs
  · rw [h.tablesCompared_iff]
    simp [h,SeenElsewhere]
  · unfold TablesCompared SeenElsewhere
    rw [compareTables_eq_zero,comparedEntsz_eq,exists_lt_not,exists_lt_not,not_iff_not]
    simp [h]

/-- An empty table with a mark at byte `p`. -/
def markTbl (p : ℕ) : ℕ → UInt8 := fun j => if j = p then 1 else 0

theorem leGet_markTbl_apart {p o n : ℕ} (h : p < o ∨ o+n ≤ p) : leGet (markTbl p) o n = leGet (fun _ => 0) o n :=
  leGet_congr fun j h₁ h₂ => if_neg (by omega)

/-- A piece that ends before the mark does not show it. -/
theorem entsAlike_markTbl {p o : ℕ} (h : o+56 ≤ p) : EntsAlike (markTbl p) (fun _ => 0) o o where
  type := leGet_markTbl_apart (by omega)
  uuid := leGet_markTbl_apart (by omega)
  lbaStart := leGet_markTbl_apart (by omega)
  lbaEnd := leGet_markTbl_apart (by omega)
  attr := congrArg (BitVec.ofNat 64) (leGet_markTbl_apart (by omega))

theorem EntsAlike.symm {o o' : ℕ} (h : EntsAlike ep es o o') : EntsAlike es ep o' o :=
  ⟨h.type.symm,h.uuid.symm,h.lbaStart.symm,h.lbaEnd.symm,h.attr.symm⟩

theorem not_entsAlike_markTbl (o o' : ℕ) : ¬ EntsAlike (markTbl (o+55)) (fun _ => 0) o o' := by
  intro h
  have hattr := h.attr
  have hmark : leGet (markTbl (o+55)) (o+48) 8 = 2^56 := by simp [leGet,markTbl]
  have hzero : leGet (fun _ => 0) (o'+48) 8 = 0 := by simp [leGet]
  rw [entAttr,entAttr,hmark,hzero] at hattr
  exact absurd hattr (by decide)

/-- The pieces end before the attributes of the last of as many entries do, if these are further apart or the
offsets of the pieces start over. -/
theorem piece_end_le {m z i : ℕ} (hm : 2 ≤ m) (hz : m ≤ z) (hfar : m < z ∨ 2^16 < m) (hi : i < m) :
    i*m%2^32+56 ≤ (m-1)*z+55 := by
  obtain hlt | hbig := hfar
  · have hmod := Nat.mod_le (i*m) (2^32)
    have hle : i*m ≤ (m-1)*m := Nat.mul_le_mul_right m (by omega)
    have hz' : (m-1)*(m+1) ≤ (m-1)*z := Nat.mul_le_mul_left _ hlt
    rw [Nat.mul_succ] at hz'
    omega
  · have hmod := Nat.mod_lt (i*m) (show 0 < 2^32 by norm_num)
    have hprod : 2^16*2^16 ≤ (m-1)*z := Nat.mul_le_mul (by omega) (by omega)
    omega

/-- With headers of other sizes, a difference in the attributes of one of the entries that were to be compared goes
unseen. -/
theorem exists_unseen (h : ¬ PlacesRight hp hs) : ∃ ep es, compareTables hp hs ep es = 0 ∧
    ∃ i < leastSize hp hs, ¬ EntsAlike ep es (i*hdrEntsz hp) (i*hdrEntsz hs) := by
  have hzp : leastSize hp hs ≤ hdrEntsz hp := (min_le_right _ _).trans (min_le_left _ _)
  have hzs : leastSize hp hs ≤ hdrEntsz hs := (min_le_right _ _).trans (min_le_right _ _)
  unfold PlacesRight at h
  generalize hm : leastSize hp hs = m at h hzp hzs ⊢
  by_cases hfar : m < hdrEntsz hp ∨ 2^16 < m
  · refine ⟨markTbl ((m-1)*hdrEntsz hp+55),fun _ => 0,?_,m-1,by omega,not_entsAlike_markTbl _ _⟩
    rw [compareTables_eq_zero,comparedEntsz_eq,hm]
    exact fun i hi => entsAlike_markTbl (piece_end_le (by omega) hzp hfar hi)
  · refine ⟨fun _ => 0,markTbl ((m-1)*hdrEntsz hs+55),?_,m-1,by omega,fun ha => not_entsAlike_markTbl _ _ ha.symm⟩
    rw [compareTables_eq_zero,comparedEntsz_eq,hm]
    exact fun i hi => (entsAlike_markTbl (piece_end_le (by omega) hzs (by omega) hi)).symm

/-- Two copies of a label for a device of eight sectors, with tables of one entry that differ in its name. Each of
them is valid by itself. -/
def blindTbl (name : ℕ) : ℕ → UInt8 := lePut (fun _ => 0) 56 2 name
def blindHdr (self alt table name : ℕ) : ℕ → UInt8 :=
  let hdr := lePut (fun _ => 0) 0 8 gptHdrSig
  let hdr := lePut hdr 8 4 0x00010000
  let hdr := lePut hdr 12 4 92
  let hdr := lePut hdr 24 8 self
  let hdr := lePut hdr 32 8 alt
  let hdr := lePut hdr 40 8 3
  let hdr := lePut hdr 48 8 5
  let hdr := lePut hdr 72 8 table
  let hdr := lePut hdr 80 4 1
  sealHdr (lePut hdr 84 4 128) (crc32 (blindTbl name) 128)

end Tables

end Blub.Fgdisk
