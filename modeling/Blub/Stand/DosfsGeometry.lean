import Blub.Stand.Dosfs

/-! Where the FAT and the clusters of a volume that `parsebs` accepts are, and when its arithmetic does not wrap. -/
namespace Blub.Stand
open Blub.Bytes

/-- The clusters that the data area has room for, without the limit of the FAT. -/
def lastClus (bs : ℕ → UInt8) (fs : DosFs) : ℕ := (bpbTotal bs-fs.lsndta)/fs.spc+1

/-- The number of the last entry that is taken to fit the FAT. -/
def DosFs.fatLimit (fs : DosFs) : ℕ := (secbyt fs.spf*2%2^32/(fs.fatsz/4)+2^32-1)%2^32

/-- What is known of the fields that `parsebs` sets. -/
structure Parsed (bs : ℕ → UInt8) (fs : DosFs) (k : ℕ) : Prop where
  k_lt : k < 8
  spc : fs.spc = 2^k
  bsize : fs.bsize = 512*2^k
  bshift : fs.bshift = 9+k
  fats : 0 < bpbFats bs ∧ bpbFats bs ≤ 16
  spf_pos : 0 < fs.spf
  dirents_lt : fs.dirents < 2^16
  width : fs.spf < 2^16 ∧ fs.dirents ≠ 0 ∧ (fs.fatsz = 12 ∨ fs.fatsz = 16) ∨ fs.spf < 2^32 ∧ fs.dirents = 0 ∧ fs.fatsz = 32
  lsnfat : 0 < fs.lsnfat ∧ fs.lsnfat < 2^16
  lsndir : fs.lsndir = (fs.lsnfat+fs.spf*bpbFats bs)%2^32
  lsndta : fs.lsndta = (fs.lsndir+fs.dirents/16)%2^32
  total : fs.lsndta ≤ bpbTotal bs ∧ bpbTotal bs < 2^32
  xclus : fs.xclus = min (lastClus bs fs%2^32) fs.fatLimit
  room : loclus ≤ lastClus bs fs%2^32

theorem spc_pow : ∀ n < 256, n ≠ 0 → n &&& (n-1) = 0 → ∃ k < 8, n = 2^k ∧ secbyt n = 512*2^k ∧ ffs (secbyt n)-1 = 9+k := by
  decide +kernel

theorem bpbTotal_lt (bs : ℕ → UInt8) : bpbTotal bs < 2^32 := by
  rw [bpbTotal]
  split_ifs
  · exact (leGet_lt bs 19 2).trans (by norm_num)
  · exact leGet_lt bs 32 4

theorem parseFat_spec {bs : ℕ → UInt8} {spf dirents rdcl : ℕ} (h : parseFat bs = some (spf,dirents,rdcl)) :
    0 < spf ∧ dirents < 2^16 ∧ 0 < bpbFats bs ∧ bpbFats bs ≤ 16 ∧
    (spf < 2^16 ∧ dirents ≠ 0 ∨ spf < 2^32 ∧ dirents = 0) := by
  rw [parseFat] at h
  split_ifs at h with hspf hbad hbad
  · obtain ⟨rfl,rfl,rfl⟩ := Prod.mk.inj (Option.some.inj h) |>.imp id Prod.mk.inj
    have hdir : bpbDirents bs < 2^16 := leGet_lt bs 17 2
    have hlt : bpbSpf bs < 2^16 := leGet_lt bs 22 2
    exact ⟨by omega,hdir,by omega,by omega,.inl ⟨hlt,by omega⟩⟩
  · obtain ⟨rfl,rfl,rfl⟩ := Prod.mk.inj (Option.some.inj h) |>.imp id Prod.mk.inj
    have hlt : bpbLspf bs < 2^32 := leGet_lt bs 36 4
    exact ⟨by omega,by norm_num,by omega,by omega,.inr ⟨hlt,rfl⟩⟩

theorem parsebs_spec {bs : ℕ → UInt8} {fs : DosFs} (h : parsebs bs = some fs) : ∃ k, Parsed bs fs k := by
  rw [parsebs] at h
  split at h
  · cases h
  split at h
  · cases h
  split at h
  · cases h
  rename_i hspc
  rw [not_or,not_not] at hspc
  obtain ⟨k,hk,hpow,hbsize,hshift⟩ := spc_pow _ (bs 13).toNat_lt hspc.1 hspc.2
  cases hfat : parseFat bs with
  | none => rw [hfat] at h; cases h
  | some r =>
    obtain ⟨spf,dirents,rdcl⟩ := r
    obtain ⟨hspf,hdir,hfats,hfats',hwidth⟩ := parseFat_spec hfat
    rw [hfat] at h
    dsimp only at h
    rw [show secbyt (bpbSpc bs) = 512*2^k from hbsize,show ffs (512*2^k)-1 = 9+k from hbsize ▸ hshift,
      Nat.add_sub_cancel_left,show bpbSpc bs = 2^k from hpow] at h
    split at h
    · cases h
    rename_i hres
    split at h
    · cases h
    rename_i htotal
    split at h
    · cases h
    rename_i hroom
    have hres' : bpbRessec bs < 2^16 := leGet_lt bs 14 2
    rw [not_or,not_lt] at htotal
    cases h
    refine ⟨k,hk,rfl,rfl,rfl,⟨hfats,hfats'⟩,hspf,hdir,?_,⟨by dsimp only; omega,hres'⟩,rfl,rfl,⟨htotal.2,bpbTotal_lt bs⟩,rfl,
      not_lt.mp hroom⟩
    dsimp only
    obtain ⟨hlt,hd⟩ | ⟨hlt,hd⟩ := hwidth
    · rw [if_pos hd]
      exact .inl ⟨hlt,hd,by split_ifs <;> simp⟩
    · rw [if_neg (by simpa using hd)]
      exact .inr ⟨hlt,hd,rfl⟩

/-- The first sector of the data area. -/
def dataStart (bs : ℕ → UInt8) (fs : DosFs) : ℕ := fs.lsnfat+fs.spf*bpbFats bs+fs.dirents/16

/-- The offset of a cluster's entry within the FAT, as large as it is. -/
def DosFs.entryOffset (fs : DosFs) (c : ℕ) : ℕ :=
  if fs.fatsz = 12 then c+c/2 else if fs.fatsz = 16 then c*2 else c*4

/-- The parts of the volume are one behind the other, each valid cluster has its entry in the first FAT and its sectors
in the data area, and all of this is computed as it is. -/
structure SaneGeometry (bs : ℕ → UInt8) (fs : DosFs) : Prop where
  lsndir : fs.lsndir = fs.lsnfat+fs.spf*bpbFats bs
  lsndta : fs.lsndta = fs.lsndir+entsec fs.dirents
  order : fs.lsnfat < fs.lsndir ∧ fs.lsndir ≤ fs.lsndta
  entry : ∀ c, fs.okclus c → fs.fatAt c = 512*fs.lsnfat+fs.entryOffset c ∧
    512*fs.lsnfat ≤ fs.fatAt c ∧ fs.fatAt c+fs.entrySize ≤ 512*(fs.lsnfat+fs.spf)
  data : ∀ c, fs.okclus c → fs.blklsn c = fs.lsndta+(c-loclus)*fs.spc ∧
    fs.lsndta ≤ fs.blklsn c ∧ fs.blklsn c+fs.spc ≤ bpbTotal bs

/-- The sectors before the data area have 32-bit numbers. Where the number of sectors per FAT is a multiple of 2^22, the
size of the FAT in bits is taken to be 0 and is no limit: there the clusters of the volume are to have their entries in
the first FAT and before byte 2^32. -/
def FatFits (bs : ℕ → UInt8) (fs : DosFs) : Prop :=
  dataStart bs fs < 2^32 ∧ (2^22 ∣ fs.spf →
    (bpbTotal bs-dataStart bs fs)/fs.spc+2 ≤ 128*fs.spf ∧
    512*fs.lsnfat+4*((bpbTotal bs-dataStart bs fs)/fs.spc+2) ≤ 2^32)

/-- The bits of the FAT over 4, as they are computed. -/
theorem fatBytes (spf : ℕ) : secbyt spf*2%2^32 = 1024*(spf%2^22) := by
  have h₁ : secbyt spf = 512*(spf%2^23) := by
    rw [secbyt,secsiz,Nat.mul_comm,show 2^32 = 512*2^23 by norm_num,Nat.mul_mod_mul_left]
  have h₂ : spf%2^23%2^22 = spf%2^22 := Nat.mod_mod_of_dvd _ (by norm_num)
  rw [h₁,show 512*(spf%2^23)*2 = 1024*(spf%2^23) by ring,show 2^32 = 1024*2^22 by norm_num,Nat.mul_mod_mul_left,h₂]

section Geometry
variable {bs : ℕ → UInt8} {fs : DosFs} {k : ℕ} (h : Parsed bs fs k)
include h

theorem Parsed.blksec (b : ℕ) : fs.blksec b = b*fs.spc%2^32 := by
  rw [DosFs.blksec,h.bshift,h.spc,Nat.add_sub_cancel_left]

/-- The offset of an entry, as far as the macros do not wrap. -/
theorem Parsed.fatAt {c : ℕ} (hc : 512*fs.lsnfat+fs.entryOffset c < 2^32) :
    fs.fatAt c = 512*fs.lsnfat+fs.entryOffset c := by
  have hoff : fs.fatoff c = fs.entryOffset c := by
    rw [DosFs.fatoff,DosFs.entryOffset] at *
    split_ifs at hc ⊢ <;> exact Nat.mod_eq_of_lt (by omega)
  have hsec : secbyt fs.lsnfat = 512*fs.lsnfat := by
    have := h.lsnfat.2
    rw [secbyt,secsiz]
    omega
  rw [DosFs.fatAt,hoff,hsec,Nat.mod_eq_of_lt hc]

theorem Parsed.narrow (hfat : fs.fatsz ≠ 32) : fs.spf < 2^16 := by
  obtain ⟨hlt,-⟩ | ⟨-,-,heq⟩ := h.width
  · exact hlt
  · exact absurd heq hfat

/-- The entries up to the limit are in the FAT, unless the limit is lost. -/
theorem Parsed.entry_le (hspf : ¬2^22 ∣ fs.spf) {c : ℕ} (hc : c ≤ fs.fatLimit) :
    fs.entryOffset c+fs.entrySize ≤ 512*fs.spf ∧ fs.entryOffset c < 2^31 := by
  have hpos : 0 < fs.spf%2^22 := Nat.pos_of_ne_zero fun h0 => hspf (Nat.dvd_of_mod_eq_zero h0)
  have hlt : fs.spf%2^22 < 2^22 := Nat.mod_lt _ (by norm_num)
  have hle : fs.spf%2^22 ≤ fs.spf := Nat.mod_le _ _
  rw [DosFs.fatLimit,fatBytes] at hc
  rw [DosFs.entryOffset,DosFs.entrySize]
  generalize fs.spf%2^22 = s at hpos hlt hle hc
  obtain ⟨-,-,hfat | hfat⟩ | ⟨-,-,hfat⟩ := h.width
  · have hlim : (1024*s/3+2^32-1)%2^32 = 1024*s/3-1 := by omega
    simp only [hfat,Nat.reduceDiv,hlim] at hc ⊢
    norm_num
    omega
  · have hlim : (1024*s/4+2^32-1)%2^32 = 1024*s/4-1 := by omega
    simp only [hfat,Nat.reduceDiv,hlim] at hc ⊢
    norm_num
    omega
  · have hlim : (1024*s/8+2^32-1)%2^32 = 1024*s/8-1 := by omega
    simp only [hfat,Nat.reduceDiv,hlim] at hc ⊢
    norm_num
    omega

/-- With the limit lost only the size of the data area counts. -/
theorem Parsed.unlimited (hspf : 2^22 ∣ fs.spf) : fs.fatsz = 32 ∧ fs.fatLimit = 2^32-1 := by
  have hpos := h.spf_pos
  have hfat : fs.fatsz = 32 := by
    by_contra hne
    have := Nat.le_of_dvd hpos hspf
    have := h.narrow hne
    omega
  refine ⟨hfat,?_⟩
  rw [DosFs.fatLimit,fatBytes,Nat.mod_eq_zero_of_dvd hspf,hfat]
  norm_num

/-- Where nothing wraps before the data area, the data sectors of the valid clusters are in it. -/
theorem Parsed.data (hstart : fs.lsndta = dataStart bs fs) {c : ℕ} (hc : fs.okclus c) :
    fs.xclus ≤ lastClus bs fs ∧ fs.blklsn c = fs.lsndta+(c-loclus)*fs.spc ∧ fs.blklsn c+fs.spc ≤ bpbTotal bs := by
  obtain ⟨htotal,hlt⟩ := h.total
  have hlo := hc.1
  have hle : fs.xclus ≤ lastClus bs fs := h.xclus ▸ (min_le_left _ _).trans (Nat.mod_le _ _)
  have hmul : (c-loclus)*fs.spc+fs.spc ≤ bpbTotal bs-fs.lsndta := by
    calc (c-loclus)*fs.spc+fs.spc = (c-1)*fs.spc := by
          obtain ⟨m,rfl⟩ := Nat.exists_eq_add_of_le hlo
          simp only [loclus]
          rw [Nat.add_sub_cancel_left,show 2+m-1 = m+1 by omega,Nat.succ_mul]
      _ ≤ (bpbTotal bs-fs.lsndta)/fs.spc*fs.spc := by
          apply Nat.mul_le_mul_right
          have := hc.2.trans hle
          rw [lastClus] at this
          exact Nat.sub_le_of_le_add this
      _ ≤ bpbTotal bs-fs.lsndta := Nat.div_mul_le_self _ _
  have hspc : 0 < fs.spc := h.spc ▸ Nat.two_pow_pos k
  have hlsn : fs.blklsn c = fs.lsndta+(c-loclus)*fs.spc := by
    rw [DosFs.blklsn,h.blksec,Nat.add_mod_mod,Nat.mod_eq_of_lt (by omega)]
  exact ⟨hle,hlsn,by omega⟩

theorem Parsed.starts (hsmall : dataStart bs fs < 2^32) :
    fs.lsndir = fs.lsnfat+fs.spf*bpbFats bs ∧ fs.lsndta = dataStart bs fs := by
  have hdir : fs.lsndir = fs.lsnfat+fs.spf*bpbFats bs := by
    rw [h.lsndir,Nat.mod_eq_of_lt (lt_of_le_of_lt (Nat.le_add_right _ _) hsmall)]
  refine ⟨hdir,?_⟩
  rw [h.lsndta,hdir]
  exact Nat.mod_eq_of_lt hsmall

end Geometry

/-- The geometry that `parsebs` computes is sane exactly where its products fit 32 bits. -/
theorem parsebs_sane_iff {bs : ℕ → UInt8} {fs : DosFs} (hfs : parsebs bs = some fs) :
    SaneGeometry bs fs ↔ FatFits bs fs := by
  obtain ⟨k,h⟩ := parsebs_spec hfs
  have hspc : 0 < fs.spc := h.spc ▸ Nat.two_pow_pos k
  have hspf := h.spf_pos
  have hfat := h.lsnfat
  obtain ⟨htotal,hlt⟩ := h.total
  constructor
  · intro hs
    have hstart : fs.lsndta = dataStart bs fs := by rw [hs.lsndta,hs.lsndir]; rfl
    have hsmall : dataStart bs fs < 2^32 := by omega
    refine ⟨hsmall,fun hdvd => ?_⟩
    obtain ⟨hsz,hlim⟩ := h.unlimited hdvd
    have hpos : 0 < fs.lsndta := by rw [hstart,dataStart]; omega
    have hdiv : (bpbTotal bs-fs.lsndta)/fs.spc ≤ bpbTotal bs-fs.lsndta := Nat.div_le_self _ _
    have hlast : lastClus bs fs%2^32 = lastClus bs fs := Nat.mod_eq_of_lt (by rw [lastClus]; omega)
    have hx : fs.xclus = lastClus bs fs := by
      rw [h.xclus,hlast,hlim,min_eq_left]
      rw [lastClus]
      omega
    have hroom := h.room
    rw [hlast] at hroom
    obtain ⟨heq,-,hin⟩ := hs.entry (lastClus bs fs) ⟨hroom,hx.ge⟩
    have hoff : fs.entryOffset (lastClus bs fs) = lastClus bs fs*4 := by rw [DosFs.entryOffset,hsz]; rfl
    have hfour : fs.entrySize = 4 := by rw [DosFs.entrySize,hsz]; rfl
    have hword : fs.fatAt (lastClus bs fs) < 2^32 := Nat.mod_lt _ (by norm_num)
    rw [heq,hoff] at hword
    rw [heq,hoff,hfour] at hin
    rw [← hstart]
    rw [lastClus] at hword hin
    omega
  · rintro ⟨hsmall,hdvd⟩
    obtain ⟨hdir,hstart⟩ := h.starts hsmall
    have hfats : 0 < fs.spf*bpbFats bs := Nat.mul_pos hspf h.fats.1
    refine ⟨hdir,?_,⟨by omega,?_⟩,fun c hc => ?_,fun c hc => ?_⟩
    · rw [hstart,hdir]; rfl
    · rw [hstart,hdir]; exact Nat.le_add_right _ _
    · obtain ⟨hle,-⟩ := h.data hstart hc
      have hentry : fs.entryOffset c+fs.entrySize ≤ 512*fs.spf ∧ 512*fs.lsnfat+fs.entryOffset c < 2^32 := by
        by_cases hd : 2^22 ∣ fs.spf
        · obtain ⟨hsz,-⟩ := h.unlimited hd
          obtain ⟨hin,hword⟩ := hdvd hd
          have hcle := hc.2.trans hle
          rw [lastClus,hstart] at hcle
          rw [DosFs.entryOffset,DosFs.entrySize,hsz]
          norm_num
          omega
        · have hlim := hc.2.trans (h.xclus ▸ min_le_right _ _)
          obtain ⟨hin,hhalf⟩ := h.entry_le hd hlim
          omega
      have heq := h.fatAt hentry.2
      rw [heq]
      omega
    · obtain ⟨-,hlsn,hin⟩ := h.data hstart hc
      exact ⟨hlsn,by omega,hin⟩

/-- The boot sector of a floppy disk: one sector per cluster, two FATs of 9 sectors, 224 entries in the root. -/
def floppySector : ℕ → UInt8 :=
  ofList ([0xeb,0x3c,0x90,0,0,0,0,0,0,0,0,0,2,1,1,0,2,224,0,0x40,0x0b,0xf0,9,0] ++ List.replicate 24 0)

def floppyFs : DosFs := ⟨1,512,9,224,9,0,1,19,33,12,2848⟩

theorem parsebs_floppy : parsebs floppySector = some floppyFs := by decide

theorem parsebs_sane_floppy : SaneGeometry floppySector floppyFs :=
  (parsebs_sane_iff parsebs_floppy).mpr ⟨by decide,fun h => absurd h (by decide)⟩

/-- A boot sector with two FATs of 2^31 sectors each. -/
def wrappedSector : ℕ → UInt8 :=
  ofList [0xeb,0x58,0x90,0,0,0,0,0,0,0,0,0,2,1,32,0,2,0,0,0,0,0xf8,0,0,0,0,0,0,0,0,0,0,0,0,16,0,0,0,0,0x80,
    0,0,0,0,2,0,0,0]

/-- It is accepted, with the root directory at the start of the FAT. -/
theorem parsebs_wraps : ∃ fs, parsebs wrappedSector = some fs ∧ fs.lsndir = fs.lsnfat ∧ ¬SaneGeometry wrappedSector fs := by
  refine ⟨⟨1,512,9,0,2^31,2,32,32,32,32,1048545⟩,by decide,rfl,fun h => ?_⟩
  exact absurd h.order.1 (by decide)

end Blub.Stand
