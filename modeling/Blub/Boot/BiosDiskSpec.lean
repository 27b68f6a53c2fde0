import Blub.Boot.BiosDisk

/-! The transfers of `bd_io` that no call of the BIOS fails: when they are of the right blocks, and to or from places that
the BIOS can address. -/
namespace Blub.Boot.BiosDisk
open Int13

section Transfers

/-- A transfer of blocks of one track, by a valid address of theirs, from or to its place below 1 MB; and in one page of 64
KB if the drive is a floppy disk. -/
structure Addressed (bd : Bdinfo) (write : Bool) (breg : Option ℕ) (dest dblk : ℕ) (c : Call) : Prop where
  function : ah c = bd.function write
  drive : dl c = bd.unit
  valid : Valid bd.hds bd.sec c
  count_pos : 0 < c.count
  track : c.lba bd.hds bd.sec%bd.sec+c.count ≤ bd.sec
  place : c.addr = breg.getD (dest+512*(c.lba bd.hds bd.sec-dblk))
  low : c.addr+c.count*512 ≤ 2^20
  page : bd.unit < 0x80 → c.addr/2^16 = (c.addr+c.count*512-1)/2^16

/-- The calls transfer all blocks in order, or those before one that has no cylinder, and then there is an error. -/
def Covers (bd : Bdinfo) (write : Bool) (breg : Option ℕ) (dest dblk : ℕ) (blks r : ℤ) (calls : List Call) : Prop :=
  (∀ c ∈ calls, Addressed bd write breg dest dblk c) ∧
    ((r = if blks < 0 then -1 else 0) ∧
        calls.flatMap (fun c => List.range' (c.lba bd.hds bd.sec) c.count) = List.range' dblk blks.toNat ∨
      bd.edd = false ∧ r = -1 ∧ ∃ m < blks.toNat, 1024*bd.bpc ≤ dblk+m ∧
        calls.flatMap (fun c => List.range' (c.lba bd.hds bd.sec) c.count) = List.range' dblk m)

def TransfersRight (bd : Bdinfo) (write : Bool) (b : Bios) (mem : ℕ → UInt8) (bbuf dblk : ℕ) (blks : ℤ) (dest : ℕ) :
    Prop :=
  ∃ bounce r s, bd.bounces dest blks.toNat = some bounce ∧ bd.bdIo write b mem bbuf dblk blks dest = some (r,s) ∧
    Covers bd write (bd.region bounce bbuf blks.toNat) dest dblk blks r (askedIn s.turns)

/-- The number of blocks from `dblk` on that can be addressed. -/
def Bdinfo.reach (bd : Bdinfo) (dblk blks : ℕ) : ℕ := if bd.edd then blks else min blks (1024*bd.bpc-dblk)

/-- The block number is not cut to one of another block, or not to one that has a cylinder. -/
def Bdinfo.Uncut (bd : Bdinfo) (dblk blks : ℕ) : Prop :=
  bd.edd = true ∨ dblk < 2^32 ∨ blks = 0 ∨ 1024*bd.bpc ≤ dblk%2^32

variable {bd : Bdinfo} {write bounce : Bool} {b : Bios} {bbuf dest dblk blks limit k : ℕ} {breg : Option ℕ}

theorem succeeds_iff (hno : ∀ k t, b.fails k t = false) {pc : Chunk} :
    (bd.driver write limit).Succeeds b breg k pc ↔ (bd.edd = true ∨ pc.lba%2^32 < 1024*bd.bpc) := by
  rw [Driver.Succeeds,call_isSome]
  exact and_iff_left ⟨0,by decide,hno k 0⟩

theorem reach_le (bd : Bdinfo) (dblk blks : ℕ) : bd.reach dblk blks ≤ blks := by
  rw [Bdinfo.reach]
  split_ifs
  · exact le_rfl
  · exact Nat.min_le_left _ _

/-- Without failing calls, the pieces with addressable blocks are transferred. -/
theorem served_reach (hno : ∀ k t, b.fails k t = false) (huncut : bd.Uncut dblk blks) :
    Chain bd.sectorsize dest dblk (bd.reach dblk blks)
        ((bd.driver write limit).served b breg k (bd.pieces bounce dest dblk blks)) ∧
      ((bd.driver write limit).served b breg k (bd.pieces bounce dest dblk blks) = bd.pieces bounce dest dblk blks ↔
        blks ≤ bd.reach dblk blks) := by
  have hchain := @pieces_chain bd dest dblk blks bounce
  rw [Bdinfo.reach]
  cases hedd : bd.edd with
  | true =>
    have hall := @served_eq (bd.driver write limit) b breg (bd.pieces bounce dest dblk blks)
      (fun k pc _ => (succeeds_iff hno).mpr (Or.inl hedd)) k
    rw [hall]
    exact ⟨hchain,iff_of_true rfl le_rfl⟩
  | false =>
    have hlt := bpc_lt bd
    rw [if_neg Bool.false_ne_true]
    obtain rfl | hblks := Nat.eq_zero_or_pos blks
    · rw [Nat.zero_min]
      exact ⟨.nil dest dblk,iff_of_true rfl le_rfl⟩
    have hwrap : dblk < 2^32 ∨ 1024*bd.bpc ≤ dblk%2^32 := by
      obtain h | h | h | h := huncut
      · rw [hedd] at h
        cases h
      · exact Or.inl h
      · omega
      · exact Or.inr h
    obtain ⟨hserved,hiff⟩ := @served_limit (bd.driver write limit) b breg dest dblk blks (1024*bd.bpc) k
      (bd.pieces bounce dest dblk blks) hchain
      (fun k pc hpc hlow => ⟨(succeeds_iff hno).mpr (Or.inr (lt_of_le_of_lt (Nat.mod_le _ _) hlow)),
        track_limit (piece_bounds pc hpc).1 hlow⟩)
      (fun k pc hor hhigh hs => by
        obtain h | h := (succeeds_iff hno).mp hs
        · rw [hedd] at h
          cases h
        · obtain heq | heq := hor
          · rw [heq] at h
            omega
          · rw [heq] at h hhigh
            omega)
    refine ⟨hserved,hiff.trans ?_⟩
    omega

/-- The calls for the pieces that are transferred ask for the right blocks. -/
theorem served_calls (hdblk : dblk+blks ≤ 2^63)
    (hserved : Chain bd.sectorsize dest dblk (bd.reach dblk blks)
      ((bd.driver write limit).served b breg k (bd.pieces bounce dest dblk blks))) :
    ∀ pc ∈ (bd.driver write limit).served b breg k (bd.pieces bounce dest dblk blks),
      ∃ c, (bd.driver write limit).call breg pc = some c ∧ c.lba bd.hds bd.sec = pc.lba ∧ c.count = pc.count ∧
        c.addr = vtopseg (breg.getD pc.p)*16+vtopoff (breg.getD pc.p) ∧ ah c = bd.function write ∧ dl c = bd.unit ∧
        Valid bd.hds bd.sec c := by
  intro pc hpc
  obtain ⟨c,hc⟩ := served_some pc hpc
  obtain ⟨htrack,-⟩ := piece_bounds pc (served_sub pc hpc)
  obtain ⟨hlba,hcount,haddr,hrest⟩ := call_spec (count_lt htrack) hc
  obtain ⟨hpos,hstart,hend,-⟩ := chain_mem hserved pc hpc
  refine ⟨c,hc,?_,hcount,haddr,hrest⟩
  have hle := reach_le bd dblk blks
  rw [hlba]
  cases hedd : bd.edd with
  | true =>
    rw [if_pos rfl]
    exact Nat.mod_eq_of_lt (by omega)
  | false =>
    have hreach : bd.reach dblk blks ≤ 1024*bd.bpc-dblk := by
      rw [Bdinfo.reach,hedd]
      exact Nat.min_le_right _ _
    have hlt := bpc_lt bd
    rw [if_neg Bool.false_ne_true]
    exact Nat.mod_eq_of_lt (by omega)

theorem bounce_low {blks : ℕ} (hss : bd.sectorsize = 512) (hbuf : bbuf+2*(maxfer blks*512) ≤ 2^20) {count : ℕ}
    (hpos : 0 < count) (hcount : count ≤ maxfer blks) :
    bd.breg bbuf blks+count*512 ≤ 2^20 ∧ bd.breg bbuf blks/2^16 = (bd.breg bbuf blks+count*512-1)/2^16 := by
  obtain ⟨-,hend,hpage⟩ := @breg_spec bd bbuf blks (by rw [hss]; exact hbuf)
  have hpage := hpage hss (count*512)
  rw [hss] at hend hpage
  have hle : count*512 ≤ maxfer blks*512 := Nat.mul_le_mul_right _ hcount
  exact ⟨(Nat.add_le_add_left hle _).trans (hend.trans hbuf),hpage (Nat.mul_pos hpos (by decide)) hle⟩

/-- The place of a piece in the memory lies below 1 MB, and in one page if it has to. -/
theorem piece_low (hss : bd.sectorsize = 512) (hbuf : bbuf+2*(maxfer blks*512) ≤ 2^20)
    (hbounce : bd.bounces dest blks = some bounce) (hlow : bounce = true ∨ dest+512*bd.reach dblk blks ≤ 2^20)
    {pc : Chunk} (hpc : pc ∈ bd.pieces bounce dest dblk blks) (hend : pc.lba+pc.count ≤ dblk+bd.reach dblk blks) :
    (bd.region bounce bbuf blks).getD pc.p+pc.count*512 ≤ 2^20 ∧
      (bd.unit < 0x80 → (bd.region bounce bbuf blks).getD pc.p/2^16 =
        ((bd.region bounce bbuf blks).getD pc.p+pc.count*512-1)/2^16) := by
  obtain ⟨hpos,hstart,hall,hp⟩ := chain_mem pieces_chain pc hpc
  cases bounce with
  | true =>
    have hmax : 0 < maxfer blks := by
      rw [maxfer,floppyBouncebuf]
      omega
    obtain ⟨h,hpage⟩ := @bounce_low bd bbuf blks hss hbuf pc.count hpos ((piece_bounds pc hpc).2 hmax)
    exact ⟨h,fun _ => hpage⟩
  | false =>
    obtain ⟨hdest,hpage⟩ := bounces_false hbounce
    have hlow := hlow.resolve_left Bool.false_ne_true
    have hplace : (bd.region false bbuf blks).getD pc.p = dest+512*(pc.lba-dblk) := by
      rw [← hss]
      exact hp
    rw [hplace]
    refine ⟨by omega,fun hunit => ?_⟩
    have hpage := hpage hunit
    rw [hss] at hpage
    omega

/-- What a run without failing calls returns, and the calls that it makes. -/
theorem run_calls (hno : ∀ k t, b.fails k t = false) {mem : ℕ → UInt8} (hbounce : bd.bounces dest blks = some bounce) :
    ∃ s, bd.bdIo write b mem bbuf dblk blks dest =
        some (if (bd.driver write (limitFor bounce blks)).served b (bd.region bounce bbuf blks) 0
            (bd.pieces bounce dest dblk blks) = bd.pieces bounce dest dblk blks then 0 else -1,s) ∧
      askedIn s.turns = ((bd.driver write (limitFor bounce blks)).served b (bd.region bounce bbuf blks) 0
        (bd.pieces bounce dest dblk blks)).flatMap fun pc =>
          ((bd.driver write (limitFor bounce blks)).call (bd.region bounce bbuf blks) pc).toList := by
  obtain ⟨new,hturns,hatt,hdone,hres⟩ := @run_stops (bd.driver write (limitFor bounce blks)) b write
    (bd.region bounce bbuf blks) rfl (bd.pieces bounce dest dblk blks) ⟨mem,[]⟩
  refine ⟨_,(bdIo_eq hbounce).trans (congrArg some (Prod.ext hres rfl)),?_⟩
  rw [hturns,List.nil_append,asked_done hatt hno,hdone]
  rfl

/-- The first call is for the first block only if its number is not cut. -/
theorem uncut_first (hno : ∀ k t, b.fails k t = false) {m : ℕ} (hdblk : dblk+blks ≤ 2^63)
    (hall : (((bd.driver write limit).served b breg 0 (bd.pieces bounce dest dblk blks)).flatMap
      fun pc => ((bd.driver write limit).call breg pc).toList).flatMap
        (fun c => List.range' (c.lba bd.hds bd.sec) c.count) = List.range' dblk m) : bd.Uncut dblk blks := by
  by_contra hcut
  rw [Bdinfo.Uncut,not_or,not_or,not_or,Nat.not_le] at hcut
  obtain ⟨hedd,hwrap,hblks,hcyl⟩ := hcut
  have hchain := @pieces_chain bd dest dblk blks bounce
  obtain ⟨l,hl⟩ : ∃ l, bd.pieces bounce dest dblk blks = l := ⟨_,rfl⟩
  have hbounds : ∀ pc ∈ l, pc.lba%bd.sec+pc.count ≤ bd.sec := fun pc hpc => by
    rw [← hl] at hpc
    exact (piece_bounds pc hpc).1
  rw [hl] at hchain hall
  cases hchain with
  | nil => exact hblks rfl
  | @cons _ _ x n l hx _ =>
    have hs : (bd.driver write limit).Succeeds b breg 0 ⟨dest,dblk,x⟩ := (succeeds_iff hno).mpr (Or.inr hcyl)
    obtain ⟨c,hc⟩ := Option.isSome_iff_exists.mp hs.1
    obtain ⟨hlba,hcount,-⟩ := call_spec (count_lt (hbounds _ List.mem_cons_self)) hc
    rw [if_neg hedd] at hlba
    rw [Driver.served,if_pos hs,List.flatMap_cons,hc,Option.toList_some,List.singleton_append,List.flatMap_cons,hlba,
      hcount] at hall
    have hfirst := congrArg List.head? hall
    cases x with
    | zero => exact lt_irrefl 0 hx
    | succ x =>
      cases m with
      | zero => simp at hfirst
      | succ m =>
        rw [List.range'_succ,List.range'_succ,List.cons_append,List.head?_cons,List.head?_cons,Option.some_inj] at hfirst
        dsimp only at hfirst
        omega

/-- Without failing calls the transfers of `bd_io` are right exactly if it has a bounce buffer or the destination of all
blocks that it can address lies below 1 MB, and the number of the first block is not cut. -/
theorem transfersRight_iff (hss : bd.sectorsize = 512) (hno : ∀ k t, b.fails k t = false) {mem : ℕ → UInt8} {blks : ℤ}
    (hdblk : dblk+blks.toNat ≤ 2^63) (hbuf : bbuf+2*(maxfer blks.toNat*512) ≤ 2^20) :
    TransfersRight bd write b mem bbuf dblk blks dest ↔
      ∃ bounce, bd.bounces dest blks.toNat = some bounce ∧
        (bounce = true ∨ dest+512*bd.reach dblk blks.toNat ≤ 2^20) ∧ bd.Uncut dblk blks.toNat := by
  by_cases hneg : blks < 0
  · have hzero : blks.toNat = 0 := Int.toNat_eq_zero.mpr hneg.le
    obtain ⟨bounce,hbounce⟩ := bounces_empty bd dest
    rw [TransfersRight,hzero,Bdinfo.bdIo,if_pos hneg]
    refine iff_of_true ⟨bounce,_,_,hbounce,rfl,by simp [askedIn],Or.inl ⟨(if_pos hneg).symm,by rw [hzero]; rfl⟩⟩
      ⟨bounce,hbounce,?_,Or.inr (Or.inr (Or.inl rfl))⟩
    cases bounce with
    | true => exact Or.inl rfl
    | false =>
      have hreach := reach_le bd dblk 0
      have hdest := (bounces_false hbounce).1
      exact Or.inr (by omega)
  obtain ⟨n,rfl⟩ := Int.eq_ofNat_of_zero_le (Int.not_lt.mp hneg)
  rw [Int.toNat_natCast] at hdblk hbuf ⊢
  constructor
  · rintro ⟨bounce,r,s,hbounce,hio,haddr,hcovers⟩
    rw [Int.toNat_natCast] at hbounce haddr hcovers
    obtain ⟨s',hrun,hasked⟩ := @run_calls bd write bounce b bbuf dest dblk n hno mem hbounce
    obtain rfl : s = s' := congrArg Prod.snd (Option.some_inj.mp (hio.symm.trans hrun))
    rw [hasked] at haddr hcovers
    have huncut : bd.Uncut dblk n := by
      obtain ⟨-,hall⟩ | ⟨-,-,m,-,-,hall⟩ := hcovers
      · exact uncut_first hno hdblk hall
      · exact uncut_first hno hdblk hall
    refine ⟨bounce,hbounce,?_,huncut⟩
    cases bounce with
    | true => exact Or.inl rfl
    | false =>
      refine Or.inr ?_
      obtain ⟨hserved,-⟩ := @served_reach bd write false b dest dblk n (limitFor false n) 0 (bd.region false bbuf n) hno
        huncut
      have hdest := (bounces_false hbounce).1
      by_contra hhigh
      obtain ⟨pc,hpc,hend⟩ := chain_last hserved (by omega)
      obtain ⟨-,hstart,-⟩ := chain_mem hserved pc hpc
      obtain ⟨c,hc,hlba,hcount,-⟩ := served_calls hdblk hserved pc hpc
      have hin := haddr c (List.mem_flatMap.mpr ⟨pc,hpc,by rw [hc]; exact List.mem_singleton_self c⟩)
      have hplace : c.addr = dest+512*(c.lba bd.hds bd.sec-dblk) := hin.place
      have hlow := hin.low
      rw [hplace,hlba,hcount] at hlow
      omega
  · rintro ⟨bounce,hbounce,hlow,huncut⟩
    obtain ⟨s,hrun,hasked⟩ := @run_calls bd write bounce b bbuf dest dblk n hno mem hbounce
    obtain ⟨hserved,hiff⟩ := @served_reach bd write bounce b dest dblk n (limitFor bounce n) 0 (bd.region bounce bbuf n)
      hno huncut
    have hcalls := served_calls hdblk hserved
    have hplaces := fun pc hpc => piece_low hss hbuf hbounce hlow (served_sub pc hpc) (chain_mem hserved pc hpc).2.2.1
    have hright : ∀ pc ∈ (bd.driver write (limitFor bounce n)).served b (bd.region bounce bbuf n) 0
        (bd.pieces bounce dest dblk n), ∀ c, (bd.driver write (limitFor bounce n)).call (bd.region bounce bbuf n) pc =
          some c → (bd.driver write (limitFor bounce n)).Right (bd.region bounce bbuf n) pc c := by
      intro pc hpc c hc
      obtain ⟨c',hc',hlba,hcount,haddr,-⟩ := hcalls pc hpc
      obtain rfl := Option.some_inj.mp (hc'.symm.trans hc)
      have hpos := (chain_mem hserved pc hpc).1
      have hfit := (hplaces pc hpc).1
      rw [linear_vtop (by omega)] at haddr
      exact ⟨hlba,hcount,haddr⟩
    obtain ⟨hall,haddr⟩ := (transferred_iff hserved fun pc hpc =>
      (hcalls pc hpc).imp fun c h => ⟨h.1,h.2.2.1⟩).mpr hright
    refine ⟨bounce,_,s,hbounce,hrun,fun c hc => ?_,?_⟩
    · rw [hasked] at hc
      obtain ⟨pc,hpc,hin⟩ := List.mem_flatMap.mp hc
      obtain ⟨c',hc',hlba,hcount,-,hfun,hdl,hvalid⟩ := hcalls pc hpc
      rw [hc',Option.toList_some,List.mem_singleton] at hin
      subst hin
      obtain ⟨hpos,-⟩ := chain_mem hserved pc hpc
      obtain ⟨hfit,hpage⟩ := hplaces pc hpc
      have hplace := (hright pc hpc c hc').2.2
      refine ⟨hfun,hdl,hvalid,by rwa [hcount],?_,?_,?_,?_⟩
      · rw [hlba,hcount]
        exact (piece_bounds pc (served_sub pc hpc)).1
      · rw [haddr c hc,← hss]
        rfl
      · rw [hplace,hcount]
        exact hfit
      · rw [hplace,hcount]
        exact hpage
    · rw [hasked,Int.toNat_natCast]
      by_cases hdone : n ≤ bd.reach dblk n
      · refine Or.inl ⟨?_,?_⟩
        · rw [if_pos (hiff.mpr hdone),if_neg hneg]
        · rw [le_antisymm (reach_le bd dblk n) hdone] at hall
          exact hall
      · obtain ⟨hedd,hcyl⟩ : bd.edd = false ∧ 1024*bd.bpc ≤ dblk+bd.reach dblk n := by
          rw [Bdinfo.reach] at hdone ⊢
          split_ifs at hdone ⊢ with h
          · exact absurd le_rfl hdone
          · exact ⟨Bool.eq_false_iff.mpr h,by omega⟩
        exact Or.inr ⟨hedd,if_neg fun h => hdone (hiff.mp h),bd.reach dblk n,Nat.lt_of_not_le hdone,hcyl,hall⟩

/-- A hard disk with EDD, and a BIOS without failing calls. -/
def hardDisk : Bdinfo := ⟨0x80,16,63,true,512,by decide,by decide,by decide,by decide,by decide,by decide⟩

def wellBios : Bios := ⟨fun _ _ => 0,fun _ _ => false,fun _ _ _ => 0⟩

theorem transfersRight_low : TransfersRight hardDisk false wellBios (fun _ => 0) 0x10000 100 40 0x8000 :=
  (transfersRight_iff rfl (fun _ _ => rfl) (by decide) (by decide)).mpr
    ⟨false,by decide,Or.inr (by decide),Or.inl rfl⟩

/-- Two sectors to the last 512 bytes below 1 MB. -/
theorem over_one_megabyte : ¬ TransfersRight hardDisk false wellBios (fun _ => 0) 0x10000 0 2 0xffe00 := by
  rintro ⟨bounce,r,s,hbounce,hio,haddr,-⟩
  have hcalls : (hardDisk.bdIo false wellBios (fun _ => 0) 0x10000 0 2 0xffe00).map (fun x => askedIn x.2.turns) =
      some [.edd 0x4200 0x80 2 0 0xffe0 0] := by decide
  rw [hio,Option.map_some,Option.some_inj] at hcalls
  dsimp only at hcalls
  rw [hcalls] at haddr
  exact absurd (haddr _ List.mem_cons_self).low (by decide)

end Transfers

end Blub.Boot.BiosDisk
