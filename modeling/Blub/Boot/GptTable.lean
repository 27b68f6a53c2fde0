import Blub.Boot.GptSpec

/-! What `gptread_table` makes of a table, whatever the size its header gives the entries. The entries of a sector
are taken 128 bytes apart, while they stand `hdr_entsz` bytes apart. -/
namespace Blub.Boot
open Blub.Bytes Blub.Gpt

section Packed
variable {d : Drive} {n e lba : ℕ}

/-- What is gathered of a table with `e` entries in a sector. -/
def packed (disk : ℕ → UInt8) (e j : ℕ) : UInt8 := disk (j/128/e*512+(j/128%e*128+j%128))

theorem packed_sector (disk : ℕ → UInt8) {k j : ℕ} (hj : j < e*128) : packed disk e (e*k*128+j) = disk (k*512+j) := by
  have he : 0 < e := by
    by_contra h₀
    obtain rfl : e = 0 := by omega
    omega
  have hi : (e*k*128+j)/128 = j/128+e*k := by omega
  have hk : j/128 < e := by omega
  rw [packed,hi,Nat.add_mul_div_left _ _ he,Nat.div_eq_of_lt hk,Nat.add_mul_mod_self_left,Nat.mod_eq_of_lt hk]
  apply congrArg
  omega

theorem Drive.from_sector (d : Drive) (lba k j : ℕ) : d.from lba (k*512+j) = d.from (lba+k) j := by
  simp only [Drive.from,devBsize]
  apply congrArg
  omega

/-- Every sector of the table can be read. -/
def SectorsReadable (d : Drive) (lba n e : ℕ) : Prop := ∀ i, e*i < n → d.Readable (lba+i)

theorem tableLoop_packed (he : 0 < e) (hr : SectorsReadable d lba n e) (fuel k : ℕ) (t : ℕ → UInt8) (hk : e*k < n)
    (hf : n ≤ e*k+fuel) : tableLoop d n e fuel (lba+k) (e*k) t =
      (some n,blit t (e*k*128) (n*128-e*k*128) (fun j => packed (d.from lba) e (e*k*128+j))) := by
  induction fuel generalizing k t with
  | zero => omega
  | succ fuel ih =>
    have hread := hr k hk
    have hlt := hread.lt
    have hsec : ∀ j < e*128, d.from (lba+k) (0*128+j) = packed (d.from lba) e (e*k*128+j) := by
      intro j hj
      rw [packed_sector _ hj,d.from_sector,Nat.zero_mul,Nat.zero_add]
    unfold tableLoop
    rw [Drive.drvread_of_readable hread]
    simp only [copyEntries_eq _ n e 0 (e*k) t hk he]
    have hcopy : blit t (e*k*128) (min e (n-e*k)*128) (fun j => d.from (lba+k) (0*128+j)) =
        blit t (e*k*128) (min e (n-e*k)*128) (fun j => packed (d.from lba) e (e*k*128+j)) := by
      funext j
      by_cases hj : e*k*128 ≤ j ∧ j < e*k*128+min e (n-e*k)*128
      · rw [blit_inside hj.1 hj.2,blit_inside hj.1 hj.2,hsec _ (by omega)]
      · rw [blit_outside (by omega),blit_outside (by omega)]
    rw [hcopy]
    by_cases hend : n ≤ e*k+e
    · rw [if_pos (by omega)]
      refine Prod.ext (by dsimp only; congr 1; omega) ?_
      dsimp only
      rw [show min e (n-e*k)*128 = n*128-e*k*128 by omega]
    · have hnext : e*(k+1) = e*k+e := by rw [Nat.mul_add,Nat.mul_one]
      rw [if_neg (by omega),show (lba+k+1)%2^64 = lba+(k+1) by omega,show e*k+min e (n-e*k) = e*(k+1) by omega,
        ih (k+1) _ (by omega) (by omega),show min e (n-e*k)*128 = e*128 by rw [Nat.min_eq_left (by omega)],
        show e*(k+1)*128 = e*k*128+e*128 by omega,blit_append fun j _ => by rw [Nat.add_assoc]]
      congr 2
      omega

end Packed

section Right
variable {d : Drive} {hdr : ℕ → UInt8} {lba : ℕ}

def entriesPerSec (hdr : ℕ → UInt8) : ℕ := devBsize/hdrEntsz hdr

/-- The table of a header, on the drive. -/
def Drive.tableOf (d : Drive) (hdr : ℕ → UInt8) : ℕ → UInt8 := d.from (hdrLbaTable hdr)

/-- The bytes of the table of a header. -/
def tableLength (hdr : ℕ → UInt8) : ℕ := hdrEntries hdr*hdrEntsz hdr

def Drive.TableMatches (d : Drive) (hdr : ℕ → UInt8) : Prop :=
  crc32 (d.tableOf hdr) (tableLength hdr) = hdrCrcTable hdr

/-- What is left in memory where `table` was. -/
def gathered (d : Drive) (hdr table : ℕ → UInt8) : ℕ → UInt8 :=
  blit table 0 (hdrEntries hdr*128) (packed (d.tableOf hdr) (entriesPerSec hdr))

theorem gptreadTable_gathered (table : ℕ → UInt8) (ha : hdrAccepted hdr lba)
    (hr : SectorsReadable d (hdrLbaTable hdr) (hdrEntries hdr) (entriesPerSec hdr)) (h₀ : hdrEntries hdr ≠ 0) :
    gptreadTable d hdr table = if tableBytes < tableLength hdr then none
      else some (decide (crc32 (gathered d hdr table) (tableLength hdr) = hdrCrcTable hdr),gathered d hdr table) := by
  obtain ⟨-,-,-,hmin,-,hdvd⟩ := ha
  have hle : hdrEntsz hdr ≤ devBsize := Nat.le_of_dvd (by decide) (Nat.dvd_of_mod_eq_zero hdvd)
  have he : 0 < devBsize/hdrEntsz hdr := Nat.div_pos hle (lt_of_lt_of_le (by decide) hmin)
  have h := tableLoop_packed he hr (hdrEntries hdr) 0 table (by omega) (by omega)
  simp only [Nat.mul_zero,Nat.zero_mul,Nat.sub_zero,Nat.add_zero,Nat.zero_add] at h
  simp only [gptreadTable,if_neg h₀,h]
  rfl

/-- What reading a table is for: it is taken exactly when its checksum is right, and then the first bytes of each
entry stand in the array, and nothing else is written. -/
def TableReadRight (d : Drive) (hdr table : ℕ → UInt8) : Prop :=
  (d.TableMatches hdr → ∃ t, gptreadTable d hdr table = some (true,t) ∧ (∀ j, tableBytes ≤ j → t j = table j) ∧
    ∀ i < hdrEntries hdr, ∀ j < entStructSize, t (i*entStructSize+j) = d.tableOf hdr (i*hdrEntsz hdr+j)) ∧
  (¬ d.TableMatches hdr → ∃ t, gptreadTable d hdr table = some (false,t))

/-- Larger entries come out right by accident: they fit, the second entry of each sector starts with what the second
quarter of the sector holds, and the bytes in memory have the right checksum when those on the drive have. -/
structure Accident (d : Drive) (hdr table : ℕ → UInt8) : Prop where
  fits : tableLength hdr ≤ tableBytes
  crc : crc32 (gathered d hdr table) (tableLength hdr) = hdrCrcTable hdr ↔ d.TableMatches hdr
  twins : d.TableMatches hdr → hdrEntsz hdr = 256 → ∀ k, 2*k+1 < hdrEntries hdr → ∀ j < entStructSize,
    d.tableOf hdr (k*512+(128+j)) = d.tableOf hdr (k*512+(256+j))

def TableGathers (d : Drive) (hdr table : ℕ → UInt8) : Prop :=
  if hdrEntries hdr = 0 then hdrCrcTable hdr = 0 else hdrEntsz hdr = 128 ∨ Accident d hdr table

theorem hdrEntsz_cases (ha : hdrAccepted hdr lba) : hdrEntsz hdr = 128 ∨ hdrEntsz hdr = 256 ∨ hdrEntsz hdr = 512 := by
  obtain ⟨-,-,-,hmin,-,hdvd⟩ := ha
  have hd : hdrEntsz hdr ∈ Nat.divisors 512 := Nat.mem_divisors.mpr ⟨Nat.dvd_of_mod_eq_zero hdvd,by decide⟩
  have hall : ∀ s ∈ Nat.divisors 512, 128 ≤ s → s = 128 ∨ s = 256 ∨ s = 512 := by decide
  exact hall _ hd hmin

/-- The bytes gathered for an entry. -/
theorem gathered_entry {table : ℕ → UInt8} {i j : ℕ} (hi : i < hdrEntries hdr) (hj : j < 128) : gathered d hdr table (i*128+j) =
    d.tableOf hdr (i/entriesPerSec hdr*512+(i%entriesPerSec hdr*128+j)) := by
  rw [gathered,blit_inside (by omega) (by omega),packed,Nat.sub_zero,show (i*128+j)/128 = i by omega,
    show (i*128+j)%128 = j by omega]

theorem gathered_rest {table : ℕ → UInt8} {j : ℕ} (h : hdrEntries hdr*128 ≤ j) : gathered d hdr table j = table j :=
  blit_outside (by omega)

/-- The entries come out right exactly when the second one of each sector is a twin of what precedes it. -/
theorem gathered_right_iff (table : ℕ → UInt8) (ha : hdrAccepted hdr lba) :
    (∀ i < hdrEntries hdr, ∀ j < entStructSize,
      gathered d hdr table (i*entStructSize+j) = d.tableOf hdr (i*hdrEntsz hdr+j)) ↔
    (hdrEntsz hdr = 256 → ∀ k, 2*k+1 < hdrEntries hdr → ∀ j < entStructSize,
      d.tableOf hdr (k*512+(128+j)) = d.tableOf hdr (k*512+(256+j))) := by
  constructor
  · intro h hs k hk j hj
    have hodd := h (2*k+1) hk j hj
    rw [entStructSize,gathered_entry hk hj,entriesPerSec,hs,devBsize] at hodd
    norm_num only at hodd
    rw [show (2*k+1)/2 = k by omega,show (2*k+1)%2 = 1 by omega,Nat.one_mul,
      show (2*k+1)*256+j = k*512+(256+j) by omega] at hodd
    exact hodd
  · intro h i hi j hj
    rw [entStructSize,gathered_entry hi hj,entriesPerSec,devBsize]
    obtain hs | hs | hs := hdrEntsz_cases ha
    · rw [hs]
      apply congrArg
      omega
    · rw [hs]
      norm_num only
      obtain hp | hp : i%2 = 0 ∨ i%2 = 1 := by omega
      · apply congrArg
        omega
      · have htwin := h hs (i/2) (by omega) j hj
        rw [hp,Nat.one_mul,htwin]
        apply congrArg
        omega
    · rw [hs]
      apply congrArg
      omega

theorem tableMatches_zero (h₀ : hdrEntries hdr = 0) : d.TableMatches hdr ↔ hdrCrcTable hdr = 0 := by
  have hempty : crc32 (d.tableOf hdr) 0 = 0 := Nat.xor_self _
  rw [Drive.TableMatches,tableLength,h₀,Nat.zero_mul,hempty]
  exact eq_comm

/-- Entries of 128 bytes are gathered as they stand. -/
theorem Accident.of_128 (table : ℕ → UInt8) (ha : hdrAccepted hdr lba) (hs : hdrEntsz hdr = 128) :
    Accident d hdr table := by
  have hn : hdrEntries hdr ≤ 128 := ha.2.2.2.2.1
  have htwins : hdrEntsz hdr = 256 → ∀ k, 2*k+1 < hdrEntries hdr → ∀ j < entStructSize,
      d.tableOf hdr (k*512+(128+j)) = d.tableOf hdr (k*512+(256+j)) := by
    intro hs'
    omega
  have hcrc : crc32 (gathered d hdr table) (tableLength hdr) = crc32 (d.tableOf hdr) (tableLength hdr) := by
    apply crc32_congr
    intro j hj
    rw [tableLength,hs] at hj
    have hentry := (gathered_right_iff table ha).mpr htwins (j/128) (by omega) (j%128) (Nat.mod_lt _ (by decide))
    rwa [hs,entStructSize,show j/128*128+j%128 = j by omega] at hentry
  refine ⟨?_,?_,fun _ => htwins⟩
  · rw [tableLength,hs]
    simp only [tableBytes,maxTblents,entStructSize]
    omega
  · rw [hcrc]
    rfl

theorem tableReadRight_iff_accident (table : ℕ → UInt8) (ha : hdrAccepted hdr lba) (h₀ : hdrEntries hdr ≠ 0)
    (hr : SectorsReadable d (hdrLbaTable hdr) (hdrEntries hdr) (entriesPerSec hdr)) :
    TableReadRight d hdr table ↔ Accident d hdr table := by
  have hn : hdrEntries hdr*128 ≤ tableBytes := Nat.mul_le_mul_right 128 ha.2.2.2.2.1
  have hread := gptreadTable_gathered table ha hr h₀
  constructor
  · intro hright
    have hfits : tableLength hdr ≤ tableBytes := by
      by_contra hlong
      rw [if_pos (not_le.mp hlong)] at hread
      by_cases hm : d.TableMatches hdr
      · obtain ⟨t,ht,-⟩ := hright.1 hm
        cases hread.symm.trans ht
      · obtain ⟨t,ht⟩ := hright.2 hm
        cases hread.symm.trans ht
    rw [if_neg hfits.not_gt] at hread
    refine ⟨hfits,⟨?_,?_⟩,?_⟩
    · intro hcrc
      by_contra hm
      obtain ⟨t,ht⟩ := hright.2 hm
      rw [hread,Option.some.injEq,Prod.mk.injEq,decide_eq_false_iff_not] at ht
      exact ht.1 hcrc
    · intro hm
      obtain ⟨t,ht,-⟩ := hright.1 hm
      rw [hread,Option.some.injEq,Prod.mk.injEq,decide_eq_true_eq] at ht
      exact ht.1
    · intro hm
      obtain ⟨t,ht,-,hentries⟩ := hright.1 hm
      rw [hread,Option.some.injEq,Prod.mk.injEq] at ht
      rw [← ht.2] at hentries
      exact (gathered_right_iff table ha).mp hentries
  · rintro ⟨hfits,hcrc,htwins⟩
    rw [if_neg hfits.not_gt] at hread
    constructor
    · intro hm
      refine ⟨gathered d hdr table,?_,fun j hj => gathered_rest (hn.trans hj),
        (gathered_right_iff table ha).mpr (htwins hm)⟩
      rw [hread,decide_eq_true (hcrc.mpr hm)]
    · intro hm
      refine ⟨gathered d hdr table,?_⟩
      rw [hread,decide_eq_false fun h => hm (hcrc.mp h)]

/-- A table is read as it should when its entries have the size of the array's and there is one; an empty table is
never checked, and larger entries come out right by accident only. -/
theorem table_read_right_iff {old : ℕ → UInt8} (table : ℕ → UInt8) (h : gptreadHdr d old lba = some (true,hdr))
    (hr : SectorsReadable d (hdrLbaTable hdr) (hdrEntries hdr) (entriesPerSec hdr)) :
    TableReadRight d hdr table ↔ TableGathers d hdr table := by
  have ha := (gptreadHdr_true.mp h).2.2.accepted
  rw [TableGathers]
  by_cases h₀ : hdrEntries hdr = 0
  · rw [if_pos h₀,← tableMatches_zero (d := d) h₀]
    have hread : gptreadTable d hdr table = some (true,table) := if_pos h₀
    constructor
    · intro hright
      by_contra hne
      obtain ⟨t,ht⟩ := hright.2 hne
      rw [hread] at ht
      simp at ht
    · intro hm
      refine ⟨fun _ => ⟨table,hread,fun _ _ => rfl,?_⟩,fun hne => absurd hm hne⟩
      intro i hi
      omega
  · rw [if_neg h₀,tableReadRight_iff_accident table ha h₀ hr]
    constructor
    · exact Or.inr
    · rintro (hs | hac)
      · exact Accident.of_128 table ha hs
      · exact hac

end Right

/-- A drive with a header of `n` entries of `sz` bytes and nothing else. -/
def blankTable (n sz crcSelf crcTable : ℕ) : Drive where
  sectors := 4
  byte j :=
    if j < 512 then 0
    else if j < 1024 then
      lePut (lePut (lePut (lePut (lePut (lePut (lePut (lePut (lePut (fun _ => 0) 0 8 gptHdrSig) 8 4
        0x10000) 12 4 92) 16 4 crcSelf) 24 8 1) 72 8 2) 80 4 n) 84 4 sz) 88 4 crcTable (j-512)
    else if j = 1024+256 then 1 else 0
  readOk _ := true
  writeOk _ := true
  drvsize := 4
  fits := by norm_num

def narrowTable : Drive := blankTable 2 128 2522614932 227968344

def wideTable : Drive := blankTable 2 256 570648593 2090402995

/-- The header in sector 1, over memory that was clear. -/
def Drive.firstHeader (d : Drive) : ℕ → UInt8 := blit (fun _ => 0) 0 hdrStructSize (d.from 1)

example : hdrCrcTable narrowTable.firstHeader = 227968344 := by decide

/-- Two entries of 128 bytes. -/
theorem table_read_right_narrow : gptreadHdr narrowTable (fun _ => 0) 1 = some (true,narrowTable.firstHeader) ∧
    narrowTable.TableMatches narrowTable.firstHeader ∧
    TableReadRight narrowTable narrowTable.firstHeader (fun _ => 0) := by
  have hok : HdrOk narrowTable.firstHeader 1 := ⟨by decide +kernel,by decide +kernel,by decide +kernel⟩
  have hread : gptreadHdr narrowTable (fun _ => 0) 1 = some (true,narrowTable.firstHeader) :=
    gptreadHdr_true.mpr ⟨⟨by decide,rfl⟩,rfl,hok⟩
  have hn : hdrEntries narrowTable.firstHeader = 2 := by decide
  have hs : hdrEntsz narrowTable.firstHeader = 128 := by decide
  have hl : hdrLbaTable narrowTable.firstHeader = 2 := by decide
  have hm : crc32 (narrowTable.tableOf narrowTable.firstHeader) (tableLength narrowTable.firstHeader) =
      hdrCrcTable narrowTable.firstHeader := by decide +kernel
  refine ⟨hread,hm,(table_read_right_iff (fun _ => 0) hread ?_).mpr ?_⟩
  · intro i hi
    rw [hn,entriesPerSec,hs,devBsize] at hi
    rw [hl]
    refine ⟨?_,rfl⟩
    show 2+i < 4
    omega
  · rw [TableGathers,hn,if_neg (by decide)]
    exact Or.inl hs

/-- A table of two entries of 256 bytes, sound on the drive, is refused. -/
theorem table_read_wide : gptreadHdr wideTable (fun _ => 0) 1 = some (true,wideTable.firstHeader) ∧
    hdrEntsz wideTable.firstHeader = 256 ∧ hdrEntries wideTable.firstHeader = 2 ∧
    SectorsReadable wideTable (hdrLbaTable wideTable.firstHeader) (hdrEntries wideTable.firstHeader)
      (entriesPerSec wideTable.firstHeader) ∧
    wideTable.TableMatches wideTable.firstHeader ∧
    (gptreadTable wideTable wideTable.firstHeader fun _ => 0).map Prod.fst = some false ∧
    ¬ TableReadRight wideTable wideTable.firstHeader (fun _ => 0) := by
  have hok : HdrOk wideTable.firstHeader 1 := ⟨by decide +kernel,by decide +kernel,by decide +kernel⟩
  have hn : hdrEntries wideTable.firstHeader = 2 := by decide
  have hs : hdrEntsz wideTable.firstHeader = 256 := by decide
  have hl : hdrLbaTable wideTable.firstHeader = 2 := by decide
  have hm : crc32 (wideTable.tableOf wideTable.firstHeader) (tableLength wideTable.firstHeader) =
      hdrCrcTable wideTable.firstHeader := by decide +kernel
  have hread : (gptreadTable wideTable wideTable.firstHeader fun _ => 0).map Prod.fst = some false := by
    decide +kernel
  refine ⟨gptreadHdr_true.mpr ⟨⟨by decide,rfl⟩,rfl,hok⟩,hs,hn,?_,hm,hread,?_⟩
  · intro i hi
    rw [hn,entriesPerSec,hs,devBsize] at hi
    rw [hl]
    refine ⟨?_,rfl⟩
    show 2+i < 4
    omega
  · intro hright
    obtain ⟨t,ht,-⟩ := hright.1 hm
    rw [ht] at hread
    cases hread

end Blub.Boot
