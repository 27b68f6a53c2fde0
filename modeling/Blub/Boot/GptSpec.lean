import Blub.Boot.Gpt

/-! What `gptread_hdr` and `gptread_table` accept, and what they leave in memory. -/
namespace Blub.Boot
open Blub.Bytes Blub.Gpt

/-- A sector the drive has and can read. -/
def Drive.Readable (d : Drive) (lba : ℕ) : Prop := lba < d.sectors ∧ d.readOk lba = true

/-- The drive's bytes from a sector on. -/
def Drive.from (d : Drive) (lba : ℕ) : ℕ → UInt8 := fun j => d.byte (lba*devBsize+j)

theorem Drive.drvread_of_readable {d : Drive} {lba : ℕ} (h : d.Readable lba) :
    d.drvread lba = some (d.from lba) := if_pos h

theorem Drive.drvread_of_not_readable {d : Drive} {lba : ℕ} (h : ¬ d.Readable lba) :
    d.drvread lba = none := if_neg h

theorem Drive.Readable.lt {d : Drive} {lba : ℕ} (h : d.Readable lba) : lba < 2^55 :=
  h.1.trans_le d.fits

/-- Drives that differ in their contents only. -/
structure Drive.Like (d d' : Drive) : Prop where
  sectors : d'.sectors = d.sectors
  readOk : d'.readOk = d.readOk
  writeOk : d'.writeOk = d.writeOk
  drvsize : d'.drvsize = d.drvsize

theorem Drive.Like.refl (d : Drive) : d.Like d := ⟨rfl,rfl,rfl,rfl⟩

theorem Drive.Like.trans {d₁ d₂ d₃ : Drive} (h : d₁.Like d₂) (h' : d₂.Like d₃) : d₁.Like d₃ :=
  ⟨h'.sectors.trans h.sectors,h'.readOk.trans h.readOk,h'.writeOk.trans h.writeOk,
    h'.drvsize.trans h.drvsize⟩

theorem Drive.Like.readable {d d' : Drive} (h : d.Like d') {lba : ℕ} :
    d'.Readable lba ↔ d.Readable lba := by
  rw [Drive.Readable,Drive.Readable,h.sectors,h.readOk]

def Drive.AllWritable (d : Drive) : Prop := ∀ lba, d.writeOk lba = true

theorem Drive.Like.allWritable {d d' : Drive} (h : d.Like d') (hw : d.AllWritable) :
    d'.AllWritable := by
  intro lba
  rw [h.writeOk]
  exact hw lba

/-- The drive after one sector was written. -/
def Drive.put (d : Drive) (lba : ℕ) (sec : ℕ → UInt8) : Drive :=
  {d with byte := blit d.byte (lba*devBsize) devBsize sec}

theorem Drive.like_put (d : Drive) (lba : ℕ) (sec : ℕ → UInt8) : d.Like (d.put lba sec) :=
  ⟨rfl,rfl,rfl,rfl⟩

theorem Drive.drvwrite_of_lt {d : Drive} (hw : d.AllWritable) {lba : ℕ} (h : lba < d.sectors)
    (sec : ℕ → UInt8) : d.drvwrite lba sec = some (d.put lba sec) := if_pos ⟨h,hw lba⟩

theorem Drive.from_eq (d : Drive) (lba j : ℕ) : d.from lba j = d.byte (512*lba+j) := by
  rw [Drive.from,devBsize,Nat.mul_comm]

theorem Drive.put_inside (d : Drive) {lba b : ℕ} (sec : ℕ → UInt8) (h : 512*lba ≤ b)
    (h' : b < 512*lba+512) : (d.put lba sec).byte b = sec (b-512*lba) := by
  rw [Nat.mul_comm] at h h' ⊢
  exact blit_inside h h'

theorem Drive.put_outside (d : Drive) {lba b : ℕ} (sec : ℕ → UInt8)
    (h : b < 512*lba ∨ 512*lba+512 ≤ b) : (d.put lba sec).byte b = d.byte b := by
  rw [Nat.mul_comm] at h
  exact blit_outside h

/-- A header that passes all of `gptread_hdr`. -/
structure HdrOk (hdr : ℕ → UInt8) (lba : ℕ) : Prop where
  accepted : hdrAccepted hdr lba
  size : hdrSize hdr ≤ hdrStructSize
  crc : hdrCrc hdr = hdrCrcSelf hdr

theorem setCrcSelf_restore (h : ℕ → UInt8) : setCrcSelf (setCrcSelf h 0) (hdrCrcSelf h) = h := by
  rw [setCrcSelf_setCrcSelf]
  exact lePut_leGet h 16 4

theorem gptreadHdr_true {d : Drive} {hdr h : ℕ → UInt8} {lba : ℕ} :
    gptreadHdr d hdr lba = some (true,h) ↔
      d.Readable lba ∧ h = blit hdr 0 hdrStructSize (d.from lba) ∧ HdrOk h lba := by
  by_cases hr : d.Readable lba
  · simp only [gptreadHdr,Drive.drvread_of_readable hr]
    constructor
    · intro he
      by_cases h₁ : hdrAccepted (blit hdr 0 hdrStructSize (d.from lba)) lba
      · rw [if_neg (not_not.mpr h₁)] at he
        split_ifs at he with h₂ h₃
        · simp at he
        · simp only [Option.some.injEq,Prod.mk.injEq,true_and,setCrcSelf_restore] at he
          subst he
          exact ⟨hr,rfl,h₁,by omega,not_not.mp h₃⟩
      · simp [h₁] at he
    · rintro ⟨-,rfl,hok⟩
      rw [if_neg (not_not.mpr hok.accepted),if_neg hok.size.not_gt,if_neg (not_not.mpr hok.crc),
        setCrcSelf_restore]
  · simp only [gptreadHdr,Drive.drvread_of_not_readable hr]
    simp [hr]

/-- The entries copied from one sector lie in one piece. -/
theorem copyEntries_eq (sec : ℕ → UInt8) (n k part nent : ℕ) (t : ℕ → UInt8) (h : nent < n) (hk : 0 < k) :
    copyEntries sec n k part nent t =
      (nent+min k (n-nent),blit t (nent*128) (min k (n-nent)*128) (fun j => sec (part*128+j))) := by
  induction k generalizing part nent t with
  | zero => omega
  | succ k ih =>
    unfold copyEntries
    simp only [entStructSize]
    split_ifs with hlast
    · have hm : min (k+1) (n-nent) = 1 := by omega
      rw [hm,one_mul]
    · cases k with
      | zero =>
        have hm : min (0+1) (n-nent) = 1 := by omega
        rw [hm,one_mul]
        rfl
      | succ k =>
        rw [ih (part+1) (nent+1) _ (by omega) (by omega)]
        have hm : min (k+1+1) (n-nent) = min (k+1) (n-(nent+1))+1 := by omega
        rw [hm,show (nent+1)*128 = nent*128+128 by omega,blit_append (by
          intro j _
          congr 1
          omega)]
        refine Prod.ext (by dsimp only; omega) ?_
        dsimp only
        congr 1
        omega

section Table
variable {d : Drive} {n lba : ℕ}

/-- The sectors that hold entries `4*k` and up of a table of `n` entries of 128 bytes. -/
def TableReadable (d : Drive) (lba n k : ℕ) : Prop := ∀ i, k ≤ i → 4*i < n → d.Readable (lba+i)

theorem tableLoop_eq (fuel k : ℕ) (t : ℕ → UInt8) (hk : 4*k < n) (hf : n ≤ 4*k+4*fuel)
    (hl : lba+k < 2^64) :
    (¬ TableReadable d lba n k ∧ (tableLoop d n 4 fuel (lba+k) (4*k) t).1 = none) ∨
      (TableReadable d lba n k ∧ tableLoop d n 4 fuel (lba+k) (4*k) t =
        (some n,blit t (k*512) (n*128-k*512) (d.from (lba+k)))) := by
  induction fuel generalizing k t with
  | zero => omega
  | succ fuel ih =>
    unfold tableLoop
    by_cases hr : d.Readable (lba+k)
    · rw [Drive.drvread_of_readable hr]
      simp only [copyEntries_eq _ n 4 0 (4*k) t hk (by omega)]
      have hlt := hr.lt
      by_cases hend : n ≤ 4*k+4
      · right
        have hm : min 4 (n-4*k) = n-4*k := by omega
        refine ⟨?_,?_⟩
        · intro i hi hin
          have : i = k := by omega
          rwa [this]
        · rw [hm,if_pos (by omega)]
          refine Prod.ext (by dsimp only; congr 1; omega) ?_
          simp only [Nat.zero_mul,Nat.zero_add]
          rw [show 4*k*128 = k*512 by omega,show (n-4*k)*128 = n*128-k*512 by omega]
      · have hm : min 4 (n-4*k) = 4 := by omega
        rw [hm,if_neg (by omega)]
        have hnext := ih (k+1) (blit t (4*k*128) (4*128) (fun j => d.from (lba+k) (0*128+j)))
          (by omega) (by omega) (by omega)
        rw [show (lba+k+1)%2^64 = lba+(k+1) by omega,show 4*k+4 = 4*(k+1) by omega]
        have hstep : TableReadable d lba n k ↔ TableReadable d lba n (k+1) := by
          constructor
          · intro h i hi
            exact h i (by omega)
          · intro h i hi hin
            by_cases hik : i = k
            · rwa [hik]
            · exact h i (by omega) hin
        rw [hstep]
        cases hnext with
        | inl h => exact Or.inl h
        | inr h =>
          right
          refine ⟨h.1,?_⟩
          have hsrc : ∀ j < n*128-(k+1)*512,
              d.from (lba+(k+1)) j = d.from (lba+k) (4*128+j) := by
            intro j _
            simp only [Drive.from,devBsize]
            rw [show (lba+(k+1))*512+j = (lba+k)*512+(4*128+j) by omega]
          simp only [Nat.zero_mul,Nat.zero_add] at h ⊢
          rw [h.2,show (k+1)*512 = 4*k*128+4*128 by omega,blit_append (by
            rw [show 4*k*128+4*128 = (k+1)*512 by omega]
            exact hsrc),show 4*k*128 = k*512 by omega,
            show 4*128+(n*128-(k*512+4*128)) = n*128-k*512 by omega]
    · left
      rw [Drive.drvread_of_not_readable hr]
      exact ⟨fun h => hr (h k le_rfl hk),rfl⟩

end Table

/-- A table of 128-byte entries that passes `gptread_table`. -/
theorem gptreadTable_true {d : Drive} {hdr table t : ℕ → UInt8} (he : hdrEntsz hdr = 128)
    (hn : hdrEntries hdr ≤ 128) (h₀ : hdrEntries hdr ≠ 0) :
    gptreadTable d hdr table = some (true,t) ↔
      TableReadable d (hdrLbaTable hdr) (hdrEntries hdr) 0 ∧
        t = blit table 0 (hdrEntries hdr*128) (d.from (hdrLbaTable hdr)) ∧
        crc32 t (hdrEntries hdr*128) = hdrCrcTable hdr := by
  have hl : hdrLbaTable hdr < 2^64 := by
    have := leGet_lt hdr 72 8
    norm_num at this ⊢
    exact this
  have h := tableLoop_eq (d := d) (n := hdrEntries hdr) (hdrEntries hdr) 0 table (by omega) (by omega)
    (show hdrLbaTable hdr+0 < 2^64 by omega)
  simp only [Nat.mul_zero,Nat.zero_mul,Nat.sub_zero,Nat.add_zero] at h
  simp only [gptreadTable,if_neg h₀,he,devBsize,tableBytes,maxTblents,entStructSize]
  norm_num only
  cases h with
  | inl h =>
    generalize tableLoop d (hdrEntries hdr) 4 (hdrEntries hdr) (hdrLbaTable hdr) 0 table = r at h
    obtain ⟨o,t'⟩ := r
    obtain ⟨hr,rfl⟩ := h
    simp [hr]
  | inr h =>
    rw [h.2]
    simp only
    rw [if_neg (by omega)]
    simp only [Option.some.injEq,Prod.mk.injEq,decide_eq_true_eq]
    constructor
    · rintro ⟨hc,rfl⟩
      exact ⟨h.1,rfl,hc⟩
    · rintro ⟨-,rfl,hc⟩
      exact ⟨hc,rfl⟩

/-- The memory of a copy that was found valid. -/
theorem readCopy_true {d : Drive} {k k' : Copy} {lba : ℕ} :
    readCopy d k lba = some (true,k') ↔ ∃ hdr table, gptreadHdr d k.hdr lba = some (true,hdr) ∧
      gptreadTable d hdr k.table = some (true,table) ∧ k' = ⟨hdr,table,hdrLbaSelf hdr⟩ := by
  unfold readCopy
  cases hh : gptreadHdr d k.hdr lba with
  | none => simp
  | some r =>
    obtain ⟨ok,hdr⟩ := r
    cases ok with
    | false => simp
    | true =>
      cases ht : gptreadTable d hdr k.table with
      | none => simp [ht]
      | some r =>
        obtain ⟨ok,table⟩ := r
        cases ok with
        | false => simp [ht]
        | true =>
          simp only [Option.bind_eq_bind,Option.bind_some,if_true,ht,Option.pure_def,Option.some.injEq,
            Prod.mk.injEq,true_and]
          constructor
          · rintro rfl
            exact ⟨hdr,table,rfl,ht,rfl⟩
          · rintro ⟨hdr',table',rfl,ht',rfl⟩
            rw [ht] at ht'
            cases ht'
            rfl

/-- A copy has a place on the drive exactly when it was found valid there. -/
theorem readCopy_lba {d : Drive} {k k' : Copy} {lba : ℕ} {ok : Bool}
    (h : readCopy d k lba = some (ok,k')) (h₀ : lba ≠ 0) : k'.lba ≠ 0 ↔ ok = true := by
  constructor
  · intro hne
    by_contra hok
    rw [Bool.not_eq_true] at hok
    subst hok
    unfold readCopy at h
    cases hh : gptreadHdr d k.hdr lba with
    | none => simp [hh] at h
    | some r =>
      obtain ⟨ok,hdr⟩ := r
      cases ok with
      | false =>
        simp only [hh,Option.bind_eq_bind,Option.bind_some,Bool.false_eq_true,if_false,
          Option.pure_def,Option.some.injEq,Prod.mk.injEq,true_and] at h
        rw [← h] at hne
        exact hne rfl
      | true =>
        cases ht : gptreadTable d hdr k.table with
        | none => simp [hh,ht] at h
        | some r =>
          obtain ⟨ok,table⟩ := r
          simp only [hh,ht,Option.bind_eq_bind,Option.bind_some,if_true,Option.pure_def,
            Option.some.injEq,Prod.mk.injEq] at h
          obtain ⟨rfl,rfl⟩ := h
          exact hne rfl
  · rintro rfl
    obtain ⟨hdr,table,hh,-,rfl⟩ := readCopy_true.mp h
    have := (gptreadHdr_true.mp hh).2.2.accepted.2.1
    dsimp only
    omega

theorem readCopy_true_lba {d : Drive} {k k' : Copy} {lba : ℕ} (h : readCopy d k lba = some (true,k')) :
    k'.lba = lba ∧ HdrOk k'.hdr lba := by
  obtain ⟨hdr,table,hh,-,rfl⟩ := readCopy_true.mp h
  have hok := (gptreadHdr_true.mp hh).2.2
  exact ⟨hok.accepted.2.1,hok⟩

/-- The copies `gptread` finds valid, and which of them it works with. -/
structure Found (s s' : GptBoot) : Prop where
  drive : s'.drive = s.drive
  curent : s'.curent = s.curent
  bootonce : s'.bootonce = s.bootonce
  valid : ∀ c, (s'.copy c).lba ≠ 0 → readCopy s.drive (s.copy c) (s'.copy c).lba = some (true,s'.copy c)
  gpt : (s'.copy .primary).lba ≠ 0 ∨ (s'.copy .backup).lba ≠ 0 →
    ∃ g, s'.gpt = some g ∧ (s'.copy g).lba ≠ 0

theorem readCopies_found {s s' : GptBoot} (h : readCopies s = some s') : Found s s' := by
  unfold readCopies at h
  cases hp : readCopy s.drive (s.copy .primary) 1 with
  | none => simp [hp] at h
  | some r =>
    obtain ⟨okp,p⟩ := r
    have hpl := readCopy_lba hp one_ne_zero
    have hpv : p.lba ≠ 0 → readCopy s.drive (s.copy .primary) p.lba = some (true,p) := by
      intro hl
      rw [hpl.mp hl] at hp
      rw [(readCopy_true_lba hp).1,hp]
    simp only [hp,Option.bind_eq_bind,Option.bind_some] at h
    generalize (if 0 < p.lba then hdrLbaAlt p.hdr else _) = alt at h
    by_cases halt : alt = 0
    · rw [if_pos halt] at h
      simp only [Option.pure_def,Option.some.injEq] at h
      subst h
      refine ⟨rfl,rfl,rfl,?_,?_⟩
      · intro c hl
        cases c with
        | primary => exact hpv hl
        | backup => exact absurd rfl hl
      · intro hl
        have hl' : p.lba ≠ 0 := hl.resolve_right (fun h => h rfl)
        exact ⟨.primary,by simp [GptBoot.setCopy,hpl.mp hl'],hl'⟩
    · rw [if_neg halt] at h
      cases hb : readCopy s.drive (s.copy .backup) alt with
      | none => simp [GptBoot.setCopy,hb] at h
      | some r =>
        obtain ⟨okb,b⟩ := r
        have hbl := readCopy_lba hb halt
        simp only [GptBoot.setCopy,Function.update_of_ne (show Which.backup ≠ .primary by decide),hb,
          Option.bind_some,Option.pure_def,Option.some.injEq] at h
        subst h
        refine ⟨rfl,rfl,rfl,?_,?_⟩
        · intro c hl
          cases c with
          | primary => exact hpv hl
          | backup =>
            rw [hbl.mp hl] at hb
            have := (readCopy_true_lba hb).1
            simpa only [Function.update_self,this] using hb
        · intro hl
          by_cases h₀ : p.lba = 0
          · have hb₀ : b.lba ≠ 0 := hl.resolve_left (fun h => h h₀)
            exact ⟨.backup,by simp [h₀,hbl.mp hb₀],hb₀⟩
          · exact ⟨.primary,by simp [h₀,hpl.mp h₀],h₀⟩

section Memory

theorem isBootme_eq (t : ℕ → UInt8) (i : ℕ) :
    isBootme t i = (entAttr t (i*entStructSize)).getLsbD 59 := by
  rw [Bool.eq_iff_iff,isBootme,decide_eq_true_eq,attrBootme_eq]
  exact and_twoPow_ne_zero _ (by omega)

theorem isBootonce_eq (t : ℕ → UInt8) (i : ℕ) :
    isBootonce t i = (entAttr t (i*entStructSize)).getLsbD 58 := by
  rw [Bool.eq_iff_iff,isBootonce,decide_eq_true_eq,attrBootonce_eq]
  exact and_twoPow_ne_zero _ (by omega)

theorem getLsbD_clearBootme (a : BitVec 64) (k : ℕ) :
    (clearBootme a).getLsbD k = (a.getLsbD k && !decide (k = 59)) := by
  simp only [clearBootme,attrBootme_eq,BitVec.getLsbD_and,BitVec.getLsbD_not,BitVec.getLsbD_twoPow]
  by_cases hk : k < 64
  · simp [hk,eq_comm]
  · simp [hk,BitVec.getLsbD_of_ge a k (by omega)]

theorem getLsbD_failBootonce (a : BitVec 64) (k : ℕ) :
    (failBootonce a).getLsbD k = (a.getLsbD k && !decide (k = 58) || decide (k = 57)) := by
  simp only [failBootonce,attrBootonce_eq,attrBootfailed_eq,BitVec.getLsbD_or,BitVec.getLsbD_and,
    BitVec.getLsbD_not,BitVec.getLsbD_twoPow]
  by_cases hk : k < 64
  · simp [hk,eq_comm]
  · simp [hk,BitVec.getLsbD_of_ge a k (by omega)]
    omega

/-- The table with the attributes of one entry changed. -/
def withAttr (f : BitVec 64 → BitVec 64) (t : ℕ → UInt8) (i : ℕ) : ℕ → UInt8 :=
  setEntAttr t (i*entStructSize) (f (entAttr t (i*entStructSize)))

theorem entAttr_withAttr (f : BitVec 64 → BitVec 64) (t : ℕ → UInt8) (i j : ℕ) :
    entAttr (withAttr f t i) (j*entStructSize) =
      if j = i then f (entAttr t (i*entStructSize)) else entAttr t (j*entStructSize) := by
  split_ifs with h
  · rw [h]
    exact entAttr_setEntAttr _ _ _
  · apply entAttr_setEntAttr_apart
    simp only [entStructSize]
    omega

theorem entType_withAttr (f : BitVec 64 → BitVec 64) (t : ℕ → UInt8) (i j : ℕ) :
    entType (withAttr f t i) (j*entStructSize) = entType t (j*entStructSize) := by
  apply entType_congr
  intro b h₁ h₂
  apply setEntAttr_outside
  simp only [entStructSize] at h₁ h₂ ⊢
  omega

/-- A copy that `gptupdate` and `gptbootconv` can work on without leaving their objects. -/
structure Copy.Usable (k : Copy) : Prop where
  entries : hdrEntries k.hdr ≤ maxTblents
  size : hdrSize k.hdr ≤ hdrStructSize
  entsz : hdrEntsz k.hdr = entStructSize

theorem Copy.Usable.congr {k k' : Copy} (h : k.Usable) (hf : SameFields k.hdr k'.hdr) : k'.Usable :=
  ⟨by rw [hf.entries]; exact h.entries,by rw [hf.size]; exact h.size,by rw [hf.entsz]; exact h.entsz⟩

theorem rewriteHdr_eq {k : Copy} (h : k.Usable) (d : Drive) :
    rewriteHdr k d = some ({k with hdr := sealHdr k.hdr (crc32 k.table (hdrEntries k.hdr*128))},
      (d.drvwrite (hdrLbaSelf k.hdr) (blit (fun _ => 0) 0 (hdrSize k.hdr)
        (sealHdr k.hdr (crc32 k.table (hdrEntries k.hdr*128))))).getD d) := by
  obtain ⟨hn,hs,he⟩ := h
  simp only [maxTblents,hdrStructSize,entStructSize] at hn hs he
  have hmul : hdrEntries k.hdr*hdrEntsz k.hdr%2^32 = hdrEntries k.hdr*128 := by
    rw [he]
    omega
  have hf := sameFields_sealHdr k.hdr (crc32 k.table (hdrEntries k.hdr*128))
  simp only [rewriteHdr,hmul,hf.size,hf.lbaSelf]
  rw [if_neg]
  simp only [tableBytes,maxTblents,entStructSize,hdrStructSize]
  omega

/-- In memory `gptupdate` touches the checksums of the header only. -/
theorem gptupdate_mem {k : Copy} (h : k.Usable) (d : Drive) {i : ℕ} (hi : i < maxTblents) :
    ∃ hdr d', gptupdate k d i = some ({k with hdr := hdr},d') ∧ SameFields k.hdr hdr := by
  simp only [maxTblents] at hi
  have hd : devBsize/hdrEntsz k.hdr = 4 := by rw [h.entsz]; rfl
  simp only [gptupdate,hd]
  rw [if_neg (by simp only [tableBytes,maxTblents,entStructSize,devBsize]; omega)]
  split
  · exact ⟨k.hdr,d,rfl,SameFields.refl _⟩
  · rw [rewriteHdr_eq h]
    exact ⟨_,_,rfl,sameFields_sealHdr _ _⟩

theorem rewriteHdr_mem {k k' : Copy} {d d' : Drive} (h : rewriteHdr k d = some (k',d')) :
    k'.table = k.table ∧ k'.lba = k.lba ∧ SameFields k.hdr k'.hdr := by
  unfold rewriteHdr at h
  dsimp only at h
  split_ifs at h
  simp only [Option.some.injEq,Prod.mk.injEq] at h
  rw [← h.1]
  exact ⟨rfl,rfl,sameFields_sealHdr _ _⟩

theorem gptbootconv_mem {k k' : Copy} {d d' : Drive} (h : gptbootconv k d = some (k',d')) :
    k'.lba = k.lba ∧ SameFields k.hdr k'.hdr := by
  unfold gptbootconv at h
  dsimp only at h
  obtain ⟨⟨t,u,d₁⟩,-,h⟩ := Option.bind_eq_some_iff.mp h
  dsimp only at h
  split_ifs at h
  · exact ⟨(rewriteHdr_mem h).2.1,(rewriteHdr_mem h).2.2⟩
  · cases h
    exact ⟨rfl,SameFields.refl _⟩

theorem convCopy_mem {s s' : GptBoot} {c : Which} (h : convCopy s c = some s') :
    ∃ k d, s' = {s.setCopy c k with drive := d} ∧ k.lba = (s.copy c).lba ∧
      SameFields (s.copy c).hdr k.hdr := by
  unfold convCopy at h
  split_ifs at h
  · obtain ⟨⟨k,d⟩,hk,h⟩ := Option.bind_eq_some_iff.mp h
    cases h
    exact ⟨k,d,rfl,gptbootconv_mem hk⟩
  · cases h
    exact ⟨s.copy c,s.drive,by simp [GptBoot.setCopy],rfl,SameFields.refl _⟩

end Memory

/-- The steps of `gptread`. -/
theorem gptread_steps {s s' : GptBoot} {r : ℤ} (h : gptread s = some (r,s')) :
    ∃ s₁ s₂, readCopies {s with curent := -1, bootonce := true, start := 0} = some s₁ ∧
      convCopy s₁ .primary = some s₂ ∧ convCopy s₂ .backup = some s' ∧
      r = if (s'.copy .primary).lba = 0 ∧ (s'.copy .backup).lba = 0 then -1 else 0 := by
  unfold gptread at h
  obtain ⟨s₁,h₁,h⟩ := Option.bind_eq_some_iff.mp h
  obtain ⟨s₂,h₂,h⟩ := Option.bind_eq_some_iff.mp h
  obtain ⟨s₃,h₃,h⟩ := Option.bind_eq_some_iff.mp h
  cases h
  exact ⟨s₁,s₂,h₁,h₂,h₃,rfl⟩

end Blub.Boot
