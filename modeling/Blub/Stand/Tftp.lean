import Blub.Lib.Bytes
import Blub.Stand.Net
import Blub.Stand.ReadAhead

/-! Reading a file over TFTP, from `tftp.c`. The size of `struct tftphdr` is a parameter. -/
namespace Blub.Stand
open Blub.Trace Blub.Bytes

/-- A packet from `src`, address and port. The second field is `th_block` or `th_code`. -/
structure TftpPacket where
  opcode : ℕ
  block : ℕ
  data : List UInt8
  src : ℕ × ℕ

structure Iodesc where
  destip : ℕ
  destport : ℕ
  myport : ℕ
  xid : ℕ

/-- `lastdata` from `th_data` on. -/
structure TftpHandle where
  iodesc : Iodesc
  currblock : ℕ
  islastblock : Bool
  validsize : ℕ
  off : ℤ
  lastdata : ℕ → UInt8

def opData : ℕ := 3
def opError : ℕ := 5
def segsize : ℕ := 512
def ipportTftp : ℕ := 69
def tftpport : ℕ := 2000
def eio : ℤ := 5
def einval : ℤ := 22

def tftperrors : List ℤ := [0,2,1,28,22,22,17,22]

/-- What is read in one call of the receive routine, before the time is up. -/
abbrev TftpTurn : Type := Turn (List TftpPacket)

section Code
variable (hdrSize : ℕ)

/-- A packet is put into the buffer over what was there. -/
def TftpHandle.store (h : TftpHandle) (p : TftpPacket) : TftpHandle :=
  {h with lastdata := blit h.lastdata 0 p.data.length fun j => p.data.getD j 0}

/-- The first answer may come from several hosts: packets are read up to one with data. -/
def recvFirst : List TftpPacket → Option TftpPacket → TftpHandle → Option TftpPacket × TftpHandle
  | [], last, h => (last,h)
  | p :: ps, _, h => if p.opcode = opData then (some p,h.store p) else recvFirst ps (some p) (h.store p)

def recvNext : List TftpPacket → TftpHandle → Option TftpPacket × TftpHandle
  | [], h => (none,h)
  | p :: _, h => (some p,h.store p)

def recvtftp (pkts : List TftpPacket) (h : TftpHandle) : Recv × TftpHandle :=
  let h := {h with lastdata := fun _ => 0}
  let r := if h.iodesc.xid = 1 then recvFirst pkts none h else recvNext pkts h
  match r.1 with
  | none => (.again,r.2)
  | some p =>
    let h := r.2
    if 4+p.data.length < hdrSize then (.again,h)
    else if p.opcode = opData then
      if p.block ≠ h.iodesc.xid then (.again,h)
      else if h.iodesc.xid = 1 then
        (.got p.data.length,{h with iodesc := {h.iodesc with destip := p.src.1, destport := p.src.2}})
      else (.got p.data.length,h)
    else if p.opcode = opError then
      if 8 ≤ p.block then (.error eio,h)
      else if tftperrors.getD p.block 0 = 0 then (.again,h)
      else (.error (tftperrors.getD p.block 0),h)
    else (.again,h)

/-- `tftp_makereq`: the error number, 0 for none. -/
def tftpMakereq (h : TftpHandle) (turns : List TftpTurn) : Option (ℤ × TftpHandle × List TftpTurn) :=
  let secs := (turns.head?.map (·.start)).getD 0
  let h := {h with iodesc := {h.iodesc with
    myport := tftpport+(secs%1024).toNat, destport := ipportTftp, xid := 1}}
  match sendrecv id (recvtftp hdrSize) turns h with
  | none => none
  | some (.got res,h,turns) =>
    some (0,{h with currblock := 1, validsize := res, islastblock := res < segsize},turns)
  | some (.again,h,turns) => some (0,h,turns)
  | some (.error e,h,turns) => some (e,h,turns)

/-- `tftp_getnextblock`. -/
def tftpGetnextblock (h : TftpHandle) (turns : List TftpTurn) : Option (ℤ × TftpHandle × List TftpTurn) :=
  let h := {h with iodesc := {h.iodesc with xid := h.currblock+1}}
  match sendrecv id (recvtftp hdrSize) turns h with
  | none => none
  | some (.got res,h,turns) =>
    some (0,{h with currblock := h.currblock+1, validsize := res,
                    islastblock := res < segsize || h.islastblock},turns)
  | some (.again,h,turns) => some (0,h,turns)
  | some (.error e,h,turns) => some (e,h,turns)

/-- `tftp_open`, from a handle as `malloc` returned it. -/
def tftpOpen (h : TftpHandle) (servip : ℕ) (turns : List TftpTurn) : Option (ℤ × TftpHandle × List TftpTurn) :=
  tftpMakereq hdrSize {h with off := 0, iodesc := {h.iodesc with destip := servip}} turns

/-- The inner loop of `tftp_read`, up to `k` blocks on. -/
def tftpForward : ℕ → TftpHandle → List TftpTurn → Option (ℤ × TftpHandle × List TftpTurn)
  | 0, h, turns => some (0,h,turns)
  | k+1, h, turns =>
    match tftpGetnextblock hdrSize h turns with
    | none => none
    | some (e,h,turns) =>
      if e ≠ 0 then some (e,h,turns) else if h.islastblock then some (0,h,turns) else tftpForward k h turns

/-- The handle is brought to the block that is needed, with a new request if that lies behind. -/
def tftpFetch (h : TftpHandle) (needblock : ℤ) (turns : List TftpTurn) : Option (ℤ × TftpHandle × List TftpTurn) :=
  -- the result of the request is not looked at
  match (if needblock < h.currblock then tftpMakereq hdrSize h turns else some (0,h,turns)) with
  | none => none
  | some (_,h,turns) => tftpForward hdrSize (needblock-h.currblock).toNat h turns

/-- The outer loop of `tftp_read`: the error number, and what was stored. -/
def tftpReadLoop : ℕ → ℕ → List UInt8 → TftpHandle → List TftpTurn →
    Option (ℤ × List UInt8 × TftpHandle × List TftpTurn)
  | 0, _, _, _, _ => none
  | fuel+1, size, acc, h, turns =>
    if size = 0 then some (0,acc,h,turns)
    else
      let needblock := h.off.tdiv segsize+1
      match tftpFetch hdrSize h needblock turns with
      | none => none
      | some (e,h,turns) =>
        if e ≠ 0 then some (e,acc,h,turns)
        else if (h.currblock : ℤ) = needblock then
          let offinblock := h.off.tmod segsize
          let inbuffer := h.validsize-offinblock
          if inbuffer < 0 then some (einval,acc,h,turns)
          else
            let count := min size inbuffer.toNat
            let acc := acc ++ (List.range count).map fun j => h.lastdata (offinblock.toNat+j)
            let h := {h with off := h.off+count}
            if h.islastblock ∧ (count : ℤ) = inbuffer then some (0,acc,h,turns)
            else tftpReadLoop fuel (size-count) acc h turns
        else some (einval,acc,h,turns)

/-- `tftp_read`. A turn that stores nothing ends the loop of a handle as `tftp_open` leaves it. -/
def tftpRead (h : TftpHandle) (turns : List TftpTurn) (size : ℕ) :
    Option (ℤ × List UInt8 × TftpHandle × List TftpTurn) :=
  tftpReadLoop hdrSize (size+1) size [] h turns

def tftpSeek (h : TftpHandle) (offset : ℤ) : Whence → ℤ × TftpHandle
  | .set => (offset,{h with off := offset})
  | .cur => (h.off+offset,{h with off := h.off+offset})
  | .end => (-1,h)

attribute [local grind =] recvFirst tftpMakereq tftpGetnextblock tftpForward tftpReadLoop tftpSeek

end Code

inductive TftpCall
  | read (size : ℕ)
  | seek (offset : ℤ) (whence : Whence)

/-- An open file, and what the network will bring. -/
structure TftpState where
  handle : TftpHandle
  turns : List TftpTurn

/-- One call: for a read, the error number and what was stored, if it returns. -/
def tftpStep (hdrSize : ℕ) (s : TftpState) : TftpCall → Option (ℤ × List UInt8) × TftpState
  | .read size =>
    match tftpRead hdrSize s.handle s.turns size with
    | none => (none,s)
    | some (e,data,h,turns) => (some (e,data),⟨h,turns⟩)
  | .seek offset whence => (none,{s with handle := (tftpSeek s.handle offset whence).2})

/-- The number of blocks of a file, the last one short. -/
def blockCount (file : List UInt8) : ℕ := file.length/segsize+1

def dataBlock (file : List UInt8) (n : ℕ) : List UInt8 := (file.drop (segsize*(n-1))).take segsize

/-- A packet the server sends. -/
def IsData (file : List UInt8) (p : TftpPacket) : Prop :=
  ∃ n, 1 ≤ n ∧ n ≤ blockCount file ∧ p.opcode = opData ∧ p.block = n%2^16 ∧ p.data = dataBlock file n

/-- A read that returns 0 has stored the bytes of the file from the offset on, up to its end, and has
advanced the offset. -/
def ReadsFile (hdrSize : ℕ) (file : List UInt8) (s : TftpState) : TftpCall → Prop
  | .read size =>
    ∀ data h turns, tftpRead hdrSize s.handle s.turns size = some (0,data,h,turns) →
      data = (file.drop s.handle.off.toNat).take size ∧ h.off = s.handle.off+data.length
  | .seek _ _ => True

/-- Seeks go to offsets of type `int`. No read starts in the block of the handle after an exchange
that failed: the handle still waits for another block then. -/
def TftpOk (s : TftpState) : TftpCall → Prop
  | .read size =>
    size ≠ 0 → s.handle.iodesc.xid ≠ s.handle.currblock → (s.handle.currblock : ℤ) ≠ s.handle.off/segsize+1
  | .seek offset whence =>
    whence ≠ .end ∧ 0 ≤ (tftpSeek s.handle offset whence).1 ∧ (tftpSeek s.handle offset whence).1 < 2^31

attribute [local grind =] tftpStep

section Blocks
variable {file : List UInt8} {n : ℕ}

theorem block_length (file : List UInt8) (n : ℕ) : (dataBlock file n).length = min segsize (file.length-segsize*(n-1)) := by
  rw [dataBlock,List.length_take,List.length_drop]

theorem block_full (h₁ : 1 ≤ n) (h : n < blockCount file) : (dataBlock file n).length = segsize := by
  rw [block_length]
  simp only [blockCount,segsize] at h ⊢
  omega

theorem block_last (file : List UInt8) : (dataBlock file (blockCount file)).length = file.length%segsize ∧ file.length%segsize < segsize := by
  rw [block_length]
  simp only [blockCount,segsize]
  omega

/-- Only the last block is short. -/
theorem block_short_iff (h₁ : 1 ≤ n) (h : n ≤ blockCount file) : (dataBlock file n).length < segsize ↔ n = blockCount file := by
  constructor
  · intro hs
    by_contra hne
    rw [block_full h₁ (by omega)] at hs
    omega
  · intro hn
    rw [hn,(block_last file).1]
    exact (block_last file).2

/-- The bytes of the file from `o` on, as far as its block goes. -/
theorem block_drop (o c : ℕ) (hc : c ≤ (dataBlock file (o/segsize+1)).length-o%segsize) :
    ((dataBlock file (o/segsize+1)).drop (o%segsize)).take c = (file.drop o).take c := by
  have hlen := block_length file (o/segsize+1)
  have ho : segsize*(o/segsize)+o%segsize = o := Nat.div_add_mod o segsize
  rw [dataBlock,List.drop_take,List.drop_drop,List.take_take,Nat.add_sub_cancel,ho,min_eq_left]
  omega

end Blocks

section Exchange
variable {hdrSize : ℕ} {file : List UInt8}

/-- A receive routine leaves all but the buffer and the address of the server alone. -/
structure Kept (h h' : TftpHandle) : Prop where
  xid : h'.iodesc.xid = h.iodesc.xid
  currblock : h'.currblock = h.currblock
  islastblock : h'.islastblock = h.islastblock
  validsize : h'.validsize = h.validsize
  off : h'.off = h.off

theorem Kept.refl (h : TftpHandle) : Kept h h := ⟨rfl,rfl,rfl,rfl,rfl⟩

theorem Kept.trans {h h' h'' : TftpHandle} (k : Kept h h') (k' : Kept h' h'') : Kept h h'' :=
  ⟨k'.xid.trans k.xid,k'.currblock.trans k.currblock,k'.islastblock.trans k.islastblock,
    k'.validsize.trans k.validsize,k'.off.trans k.off⟩

/-- The buffer holds this block. -/
def Holding (file : List UInt8) (n : ℕ) (h : TftpHandle) : Prop :=
  ∀ j < (dataBlock file n).length, h.lastdata j = (dataBlock file n).getD j 0

/-- What one packet of the server makes of an exchange that waits for block `xid`. -/
theorem recvtftp_spec (hF : blockCount file < 65535) (pkts : List TftpPacket) (hp : ∀ p ∈ pkts, IsData file p)
    (h : TftpHandle) {r : Recv} {h' : TftpHandle}
    (hr : recvtftp hdrSize pkts h = (r,h')) :
    Kept h h' ∧ (r = .again ∨ (r = .got (dataBlock file h.iodesc.xid).length ∧ h.iodesc.xid ≤ blockCount file ∧
      Holding file h.iodesc.xid h')) := by
  cases pkts with
  | nil =>
    have : (r,h') = (.again,{h with lastdata := fun _ => 0}) := by
      rw [← hr]
      simp only [recvtftp,recvFirst,recvNext]
      split_ifs <;> rfl
    obtain ⟨rfl,rfl⟩ := Prod.mk.injEq .. ▸ this
    exact ⟨⟨rfl,rfl,rfl,rfl,rfl⟩,.inl rfl⟩
  | cons p ps =>
    obtain ⟨n,h₁,h₂,hop,hblock,hdata⟩ := hp p List.mem_cons_self
    obtain ⟨h₀,hh₀⟩ : ∃ h₀, h₀ = ({h with lastdata := fun _ => 0} : TftpHandle).store p := ⟨_,rfl⟩
    have hk : Kept h h₀ := by rw [hh₀]; exact ⟨rfl,rfl,rfl,rfl,rfl⟩
    have hpick : (if h.iodesc.xid = 1 then recvFirst (p :: ps) none {h with lastdata := fun _ => 0}
        else recvNext (p :: ps) {h with lastdata := fun _ => 0}) = (some p,h₀) := by
      rw [hh₀]
      split_ifs
      · rw [recvFirst,if_pos hop]
      · rfl
    have hhold : Holding file n h₀ := by
      intro j hj
      rw [← hdata] at hj ⊢
      rw [hh₀,TftpHandle.store]
      dsimp only
      rw [blit_inside (Nat.zero_le j) (by rwa [Nat.zero_add]),Nat.sub_zero]
    simp only [recvtftp,hpick,if_pos hop] at hr
    split_ifs at hr with hshort hne hone
    · obtain ⟨rfl,rfl⟩ := Prod.mk.injEq .. ▸ hr
      exact ⟨hk,.inl rfl⟩
    · obtain ⟨rfl,rfl⟩ := Prod.mk.injEq .. ▸ hr
      exact ⟨hk,.inl rfl⟩
    all_goals
      have hn : n = h.iodesc.xid := by
        rw [not_not,hblock,hk.xid,Nat.mod_eq_of_lt (by omega)] at hne
        exact hne
      obtain ⟨rfl,rfl⟩ := Prod.mk.injEq .. ▸ hr
      rw [← hn,hdata]
    · exact ⟨hk.trans ⟨rfl,rfl,rfl,rfl,rfl⟩,.inr ⟨rfl,h₂,hhold⟩⟩
    · exact ⟨hk,.inr ⟨rfl,h₂,hhold⟩⟩

/-- What every packet on its way is. -/
def Truthful (file : List UInt8) (turns : List TftpTurn) : Prop :=
  ∀ turn ∈ turns, ∀ p ∈ turn.input, IsData file p

theorem Truthful.suffix {turns rest : List TftpTurn} (h : Truthful file turns) (hs : rest <:+ turns) :
    Truthful file rest :=
  fun turn ht => h turn (hs.subset ht)

theorem exchange_spec (hF : blockCount file < 65535) {turns : List TftpTurn} (ht : Truthful file turns)
    (h : TftpHandle) {r : Recv} {h' : TftpHandle} {rest : List TftpTurn}
    (hr : sendrecv id (recvtftp hdrSize) turns h = some (r,h',rest)) :
    rest <:+ turns ∧ Kept h h' ∧ (r = .error etimedout ∨ (r = .got (dataBlock file h.iodesc.xid).length ∧
      h.iodesc.xid ≤ blockCount file ∧ Holding file h.iodesc.xid h')) := by
  have hrule := sendrecv_rule_forall (I := Kept h) (P := fun pkts => ∀ p ∈ pkts, IsData file p)
    (Q := fun r h' => Kept h h' ∧ (r = .error etimedout ∨ (r = .got (dataBlock file h.iodesc.xid).length ∧
      h.iodesc.xid ≤ blockCount file ∧ Holding file h.iodesc.xid h')))
    (fun _ hs => hs) ?_ ?_ (fun _ hs => ⟨hs,.inl rfl⟩) ht (Kept.refl h) hr
  · exact ⟨hrule.2,hrule.1⟩
  · intro pkts s s' hp hs hrun
    exact hs.trans (recvtftp_spec hF pkts hp s hrun).1
  · intro pkts s r s' hp hs hrun hne
    obtain ⟨hk,hres⟩ := recvtftp_spec hF pkts hp s hrun
    rw [hs.xid] at hres
    exact ⟨hs.trans hk,.inr (hres.resolve_left hne)⟩

end Exchange

section Handle
variable {hdrSize : ℕ} {file : List UInt8}

/-- An open handle. While it waits for the block it has, the buffer holds that block. -/
structure Open (file : List UInt8) (h : TftpHandle) : Prop where
  pos : 1 ≤ h.currblock
  le : h.currblock ≤ blockCount file
  validsize : h.validsize = (dataBlock file h.currblock).length
  islastblock : h.islastblock = decide (h.validsize < segsize)
  data : h.iodesc.xid = h.currblock → Holding file h.currblock h

/-- A failed exchange leaves the handle as it was, but not the buffer. -/
theorem Open.lost {h h' : TftpHandle} {x : ℕ} (ho : Open file h)
    (hk : Kept {h with iodesc := {h.iodesc with xid := x}} h') (hx : x ≠ h.currblock) : Open file h' where
  pos := hk.currblock ▸ ho.pos
  le := hk.currblock ▸ ho.le
  validsize := by rw [hk.validsize,hk.currblock]; exact ho.validsize
  islastblock := by rw [hk.islastblock,hk.validsize]; exact ho.islastblock
  data := by
    intro hxid
    rw [hk.xid,hk.currblock] at hxid
    exact absurd hxid hx

theorem tftpMakereq_spec (hF : blockCount file < 65535) {turns rest : List TftpTurn} (ht : Truthful file turns)
    {h h' : TftpHandle} {e : ℤ} (hr : tftpMakereq hdrSize h turns = some (e,h',rest)) :
    rest <:+ turns ∧ ((e = 0 ∧ Open file h' ∧ h'.off = h.off ∧ h'.iodesc.xid = h'.currblock) ∨
      (e ≠ 0 ∧ Kept {h with iodesc := {h.iodesc with xid := 1}} h')) := by
  have hb : 1 ≤ blockCount file := Nat.le_add_left 1 _
  unfold tftpMakereq at hr
  dsimp only at hr
  obtain ⟨h₁,hh₁⟩ : ∃ h₁, h₁ = ({h with iodesc := {h.iodesc with
    myport := tftpport+(((turns.head?.map (·.start)).getD 0)%1024).toNat, destport := ipportTftp,
    xid := 1}} : TftpHandle) := ⟨_,rfl⟩
  have hx₁ : h₁.iodesc.xid = 1 := by rw [hh₁]
  rw [← hh₁] at hr
  cases hx : sendrecv id (recvtftp hdrSize) turns h₁ with
  | none => rw [hx] at hr; cases hr
  | some out =>
    obtain ⟨r,h₂,rest₂⟩ := out
    obtain ⟨hsuf,hk,hres⟩ := exchange_spec hF ht h₁ hx
    rw [hx₁] at hres
    rw [hx] at hr
    obtain rfl | ⟨rfl,hle,hhold⟩ := hres
    · obtain ⟨rfl,rfl,rfl⟩ : etimedout = e ∧ h₂ = h' ∧ rest₂ = rest := by simpa using hr
      rw [hh₁] at hk
      exact ⟨hsuf,.inr ⟨by decide,hk.xid,hk.currblock,hk.islastblock,hk.validsize,hk.off⟩⟩
    · simp only [Option.some.injEq,Prod.mk.injEq] at hr
      obtain ⟨rfl,rfl,rfl⟩ := hr
      refine ⟨hsuf,.inl ⟨rfl,⟨le_rfl,hb,rfl,rfl,fun _ => hhold⟩,?_,?_⟩⟩
      · rw [hk.off,hh₁]
      · exact hk.xid.trans hx₁

theorem tftpGetnextblock_spec (hF : blockCount file < 65535) {turns rest : List TftpTurn} (ht : Truthful file turns)
    {h h' : TftpHandle} (ho : Open file h) {e : ℤ} (hr : tftpGetnextblock hdrSize h turns = some (e,h',rest)) :
    rest <:+ turns ∧ Open file h' ∧ h'.off = h.off ∧ (e = 0 → h'.iodesc.xid = h'.currblock) := by
  unfold tftpGetnextblock at hr
  dsimp only at hr
  obtain ⟨h₁,hh₁⟩ : ∃ h₁, h₁ = ({h with iodesc := {h.iodesc with xid := h.currblock+1}} : TftpHandle) := ⟨_,rfl⟩
  have hx₁ : h₁.iodesc.xid = h.currblock+1 := by rw [hh₁]
  have hle := ho.le
  rw [← hh₁] at hr
  cases hx : sendrecv id (recvtftp hdrSize) turns h₁ with
  | none => rw [hx] at hr; cases hr
  | some out =>
    obtain ⟨r,h₂,rest₂⟩ := out
    obtain ⟨hsuf,hk,hres⟩ := exchange_spec hF ht h₁ hx
    rw [hx₁] at hres
    rw [hx] at hr
    rw [hh₁] at hk
    obtain rfl | ⟨rfl,hle',hhold⟩ := hres
    · obtain ⟨rfl,rfl,rfl⟩ : etimedout = e ∧ h₂ = h' ∧ rest₂ = rest := by simpa using hr
      exact ⟨hsuf,ho.lost hk (by omega),hk.off,fun h₀ => absurd h₀ (by decide)⟩
    · simp only [Option.some.injEq,Prod.mk.injEq] at hr
      obtain ⟨rfl,rfl,rfl⟩ := hr
      have hcur : h₂.currblock = h.currblock := hk.currblock
      -- the block before a block that exists is not the last one
      have hlast : h₂.islastblock = false := by
        have hlast₂ : h₂.islastblock = h.islastblock := hk.islastblock
        rw [hlast₂,ho.islastblock,ho.validsize,decide_eq_false_iff_not,block_short_iff ho.pos ho.le]
        omega
      refine ⟨hsuf,⟨?_,?_,?_,?_,?_⟩,hk.off,?_⟩
      · exact Nat.le_add_left 1 _
      · dsimp only
        omega
      · dsimp only
        rw [hcur]
      · dsimp only
        rw [hlast,Bool.or_false]
      · intro _
        dsimp only
        rw [hcur]
        exact hhold
      · intro _
        dsimp only
        rw [hcur]
        exact hk.xid

theorem tftpForward_spec (hF : blockCount file < 65535) (k : ℕ) {turns rest : List TftpTurn} (ht : Truthful file turns)
    {h h' : TftpHandle} (ho : Open file h) {e : ℤ} (hr : tftpForward hdrSize k h turns = some (e,h',rest)) :
    rest <:+ turns ∧ Open file h' ∧ h'.off = h.off ∧ (e = 0 → h' = h ∧ k = 0 ∨ h'.iodesc.xid = h'.currblock) := by
  induction k generalizing h turns with
  | zero =>
    obtain ⟨rfl,rfl,rfl⟩ : 0 = e ∧ h = h' ∧ turns = rest := by simpa [tftpForward] using hr
    exact ⟨List.suffix_refl _,ho,rfl,fun _ => .inl ⟨rfl,rfl⟩⟩
  | succ k ih =>
    rw [tftpForward] at hr
    cases hx : tftpGetnextblock hdrSize h turns with
    | none => rw [hx] at hr; cases hr
    | some out =>
      obtain ⟨e₁,h₁,rest₁⟩ := out
      obtain ⟨hsuf,ho₁,hoff,hfresh⟩ := tftpGetnextblock_spec hF ht ho hx
      rw [hx] at hr
      dsimp only at hr
      split_ifs at hr with he hl
      · obtain ⟨rfl,rfl,rfl⟩ : e₁ = e ∧ h₁ = h' ∧ rest₁ = rest := by simpa using hr
        exact ⟨hsuf,ho₁,hoff,fun h₀ => absurd h₀ he⟩
      · obtain ⟨rfl,rfl,rfl⟩ : 0 = e ∧ h₁ = h' ∧ rest₁ = rest := by simpa using hr
        exact ⟨hsuf,ho₁,hoff,fun _ => .inr (hfresh (not_not.mp he))⟩
      · obtain ⟨hsuf',ho',hoff',hres⟩ := ih (ht.suffix hsuf) ho₁ hr
        refine ⟨hsuf'.trans hsuf,ho',hoff'.trans hoff,fun h₀ => .inr ?_⟩
        obtain ⟨rfl,-⟩ | hres := hres h₀
        · exact hfresh (not_not.mp he)
        · exact hres

/-- A handle that was brought to the needed block holds it. -/
theorem tftpFetch_spec (hF : blockCount file < 65535) {turns rest : List TftpTurn} (ht : Truthful file turns)
    {h h' : TftpHandle} (ho : Open file h) {need : ℤ} (hneed : 1 ≤ need)
    (hok : h.iodesc.xid ≠ h.currblock → (h.currblock : ℤ) ≠ need) {e : ℤ}
    (hr : tftpFetch hdrSize h need turns = some (e,h',rest)) :
    rest <:+ turns ∧ Open file h' ∧ h'.off = h.off ∧
      (e = 0 → (h'.currblock : ℤ) = need → h'.iodesc.xid = h'.currblock) := by
  unfold tftpFetch at hr
  split_ifs at hr with hback
  · cases hx : tftpMakereq hdrSize h turns with
    | none => rw [hx] at hr; cases hr
    | some out =>
      obtain ⟨e₁,h₁,rest₁⟩ := out
      rw [hx] at hr
      dsimp only at hr
      obtain ⟨hsuf,⟨-,ho₁,hoff,hfresh⟩ | ⟨-,hk⟩⟩ := tftpMakereq_spec hF ht hx
      · obtain ⟨hsuf',ho',hoff',hres⟩ := tftpForward_spec hF _ (ht.suffix hsuf) ho₁ hr
        refine ⟨hsuf'.trans hsuf,ho',hoff'.trans hoff,fun h₀ _ => ?_⟩
        obtain ⟨rfl,-⟩ | hres := hres h₀
        · exact hfresh
        · exact hres
      · -- the request failed: the handle is still too far on
        have hcur : h₁.currblock = h.currblock := hk.currblock
        have ho₁ : Open file h₁ := ho.lost hk (by omega)
        have hzero : (need-h₁.currblock).toNat = 0 := by omega
        rw [hzero] at hr
        obtain ⟨rfl,rfl,rfl⟩ : 0 = e ∧ h₁ = h' ∧ rest₁ = rest := by simpa [tftpForward] using hr
        exact ⟨hsuf,ho₁,hk.off,fun _ h₀ => by omega⟩
  · obtain ⟨hsuf',ho',hoff',hres⟩ := tftpForward_spec hF _ ht ho hr
    refine ⟨hsuf',ho',hoff',fun h₀ hcur => ?_⟩
    obtain ⟨rfl,-⟩ | hres := hres h₀
    · by_contra hx
      exact hok hx hcur
    · exact hres

/-- What is copied out of a buffer that holds the needed block. -/
theorem Holding.copied {h : TftpHandle} {o c : ℕ} (hh : Holding file (o/segsize+1) h)
    (hc : c ≤ (dataBlock file (o/segsize+1)).length-o%segsize) :
    (List.range c).map (fun j => h.lastdata (o%segsize+j)) = (file.drop o).take c := by
  rw [← block_drop o c hc]
  apply List.ext_getElem
  · rw [List.length_map,List.length_range,List.length_take,List.length_drop]
    omega
  · intro j h₁ h₂
    rw [List.length_map,List.length_range] at h₁
    have hj : o%segsize+j < (dataBlock file (o/segsize+1)).length := by omega
    rw [List.getElem_map,List.getElem_range,hh _ hj,List.getElem_take,List.getElem_drop]
    rw [List.getD_eq_getElem?_getD,List.getElem?_eq_getElem hj,Option.getD_some]

theorem tftpReadLoop_spec (hF : blockCount file < 65535) (fuel size : ℕ) (acc : List UInt8)
    {turns rest : List TftpTurn} (ht : Truthful file turns) {h h' : TftpHandle} (ho : Open file h) {o : ℕ}
    (hoff : h.off = o) (hok : size ≠ 0 → h.iodesc.xid ≠ h.currblock → h.currblock ≠ o/segsize+1) {e : ℤ}
    {data : List UInt8} (hr : tftpReadLoop hdrSize fuel size acc h turns = some (e,data,h',rest)) :
    rest <:+ turns ∧ Open file h' ∧ 0 ≤ h'.off ∧
      (e = 0 → data = acc ++ (file.drop o).take size ∧ h'.off = o+((file.drop o).take size).length) := by
  induction fuel generalizing size acc turns h o with
  | zero => cases hr
  | succ fuel ih =>
    rw [tftpReadLoop] at hr
    split_ifs at hr with hz
    · obtain ⟨rfl,rfl,rfl,rfl⟩ : 0 = e ∧ acc = data ∧ h = h' ∧ turns = rest := by simpa using hr
      rw [hz]
      exact ⟨List.suffix_refl _,ho,by omega,fun _ => ⟨by simp,by simpa using hoff⟩⟩
    have hneed : h.off.tdiv segsize+1 = (o/segsize+1 : ℕ) := by
      rw [hoff,Int.natCast_add]
      rfl
    dsimp only at hr
    cases hx : tftpFetch hdrSize h (h.off.tdiv segsize+1) turns with
    | none => rw [hx] at hr; cases hr
    | some out =>
      obtain ⟨e₁,h₁,rest₁⟩ := out
      rw [hx] at hr
      rw [hneed] at hx hr
      obtain ⟨hsuf,ho₁,hoff₁,hfresh⟩ := tftpFetch_spec hF ht ho (by exact_mod_cast Nat.le_add_left 1 _)
        (fun hne hcur => hok hz hne (by exact_mod_cast hcur)) hx
      have hnn : 0 ≤ h₁.off := by omega
      have hmod : h₁.off.tmod segsize = (o%segsize : ℕ) := by
        rw [hoff₁,hoff]
        rfl
      dsimp only at hr
      rw [hmod] at hr
      by_cases he : e₁ ≠ 0
      · rw [if_pos he] at hr
        obtain ⟨rfl,rfl,rfl,rfl⟩ : e₁ = e ∧ acc = data ∧ h₁ = h' ∧ rest₁ = rest := by simpa using hr
        exact ⟨hsuf,ho₁,hnn,fun h₀ => absurd h₀ he⟩
      rw [if_neg he] at hr
      by_cases hcur : (h₁.currblock : ℤ) = (o/segsize+1 : ℕ)
      swap
      · rw [if_neg hcur] at hr
        obtain ⟨rfl,rfl,rfl,rfl⟩ : einval = e ∧ acc = data ∧ h₁ = h' ∧ rest₁ = rest := by simpa using hr
        exact ⟨hsuf,ho₁,hnn,fun h₀ => absurd h₀ (by decide)⟩
      rw [if_pos hcur] at hr
      by_cases hneg : (h₁.validsize : ℤ)-(o%segsize : ℕ) < 0
      · rw [if_pos hneg] at hr
        obtain ⟨rfl,rfl,rfl,rfl⟩ : einval = e ∧ acc = data ∧ h₁ = h' ∧ rest₁ = rest := by simpa using hr
        exact ⟨hsuf,ho₁,hnn,fun h₀ => absurd h₀ (by decide)⟩
      rw [if_neg hneg] at hr
      -- the block is there: what is copied are bytes of the file
      have hblock : h₁.currblock = o/segsize+1 := by exact_mod_cast hcur
      have hfresh₁ := hfresh (not_not.mp he) hcur
      have hhold := ho₁.data hfresh₁
      have hsize := ho₁.validsize
      rw [hblock] at hhold hsize
      obtain ⟨c,hc⟩ : ∃ c, c = min size ((h₁.validsize : ℤ)-(o%segsize : ℕ)).toNat := ⟨_,rfl⟩
      have hcopy := hhold.copied (c := c) (by omega)
      have hclen : ((file.drop o).take c).length = c := by
        rw [← hcopy,List.length_map,List.length_range]
      rw [← hc,Int.toNat_natCast,hcopy] at hr
      have ho₂ : Open file {h₁ with off := h₁.off+c} := ⟨ho₁.pos,ho₁.le,ho₁.validsize,ho₁.islastblock,ho₁.data⟩
      have hoff₂ : h₁.off+c = ((o+c : ℕ) : ℤ) := by
        rw [hoff₁,hoff]
        rfl
      split_ifs at hr with hend
      · obtain ⟨rfl,rfl,rfl,rfl⟩ : 0 = e ∧ acc ++ (file.drop o).take c = data ∧
            {h₁ with off := h₁.off+c} = h' ∧ rest₁ = rest := by simpa using hr
        have hall : (file.drop o).take size = (file.drop o).take c := by
          have hshort := hend.1
          rw [ho₁.islastblock,decide_eq_true_iff,ho₁.validsize,block_short_iff ho₁.pos ho₁.le,hblock] at hshort
          have hlast := (block_last file).1
          rw [← hshort,← hsize] at hlast
          have hdm := Nat.div_add_mod o segsize
          have hfm := Nat.div_add_mod file.length segsize
          have hq : o/segsize = file.length/segsize := by
            rw [blockCount] at hshort
            omega
          rw [hq] at hdm
          rw [List.take_of_length_le (by rw [List.length_drop]; omega),
            List.take_of_length_le (by rw [List.length_drop]; omega)]
        refine ⟨hsuf,ho₂,by dsimp only; omega,fun _ => ⟨by rw [hall],?_⟩⟩
        rw [hall,hclen]
        dsimp only
        omega
      · obtain ⟨hsuf',ho',hnn',hres⟩ := ih (size-c) _ (ht.suffix hsuf) ho₂ hoff₂
          (fun _ hne => absurd hfresh₁ hne) hr
        refine ⟨hsuf'.trans hsuf,ho',hnn',fun h₀ => ?_⟩
        obtain ⟨hdata,hoff'⟩ := hres h₀
        have happ := take_drop_append file o (show c ≤ size by omega)
        refine ⟨by rw [hdata,List.append_assoc,happ],?_⟩
        rw [hoff',← happ,List.length_append,hclen]
        omega

theorem tftpStep_spec (hF : blockCount file < 65535) (s : TftpState) (call : TftpCall)
    (hs : Open file s.handle ∧ 0 ≤ s.handle.off ∧ Truthful file s.turns) (hok : TftpOk s call) :
    ReadsFile hdrSize file s call ∧ Open file (tftpStep hdrSize s call).2.handle ∧
      0 ≤ (tftpStep hdrSize s call).2.handle.off ∧ Truthful file (tftpStep hdrSize s call).2.turns := by
  obtain ⟨ho,hnn,ht⟩ := hs
  obtain ⟨o,hoff⟩ := Int.eq_ofNat_of_zero_le hnn
  cases call with
  | seek offset whence =>
    obtain ⟨hw,hge,-⟩ := hok
    refine ⟨trivial,?_,?_,ht⟩
    · cases whence
      · exact ⟨ho.pos,ho.le,ho.validsize,ho.islastblock,ho.data⟩
      · exact ⟨ho.pos,ho.le,ho.validsize,ho.islastblock,ho.data⟩
      · exact ho
    · cases whence
      · exact hge
      · exact hge
      · exact hnn
  | read size =>
    have hok' : size ≠ 0 → s.handle.iodesc.xid ≠ s.handle.currblock → s.handle.currblock ≠ o/segsize+1 := by
      intro hz hne hcur
      apply hok hz hne
      rw [hoff,hcur]
      rfl
    have hread : ∀ e data h turns, tftpRead hdrSize s.handle s.turns size = some (e,data,h,turns) →
        turns <:+ s.turns ∧ Open file h ∧ 0 ≤ h.off ∧ (e = 0 → data = [] ++ (file.drop o).take size ∧
          h.off = o+((file.drop o).take size).length) :=
      fun e data h turns hr => tftpReadLoop_spec hF (size+1) size [] ht ho hoff hok' hr
    refine ⟨?_,?_⟩
    · intro data h turns hr
      obtain ⟨-,-,-,hres⟩ := hread 0 data h turns hr
      obtain ⟨hdata,hoff'⟩ := hres rfl
      rw [List.nil_append] at hdata
      rw [hoff',hdata,hoff]
      exact ⟨rfl,rfl⟩
    · simp only [tftpStep]
      cases hr : tftpRead hdrSize s.handle s.turns size with
      | none => exact ⟨ho,hnn,ht⟩
      | some out =>
        obtain ⟨e,data,h,turns⟩ := out
        obtain ⟨hsuf,ho',hnn',-⟩ := hread e data h turns hr
        exact ⟨ho',hnn',ht.suffix hsuf⟩

/-- Reads of an open file return its bytes, whatever the network does, as long as no read starts in the
block of the handle after a failed exchange. -/
theorem tftp_reads_file (hF : blockCount file < 65535) (turns rest : List TftpTurn) (ht : Truthful file turns)
    (h₀ h : TftpHandle) (servip : ℕ) (hopen : tftpOpen hdrSize h₀ servip turns = some (0,h,rest))
    (calls : List TftpCall) (hok : Along (tftpStep hdrSize) TftpOk ⟨h,rest⟩ calls) :
    Along (tftpStep hdrSize) (ReadsFile hdrSize file) ⟨h,rest⟩ calls := by
  obtain ⟨hsuf,⟨-,ho,hoff,-⟩ | ⟨hne,-⟩⟩ := tftpMakereq_spec hF ht hopen
  · refine Along.of_invariant (fun s : TftpState => Open file s.handle ∧ 0 ≤ s.handle.off ∧ Truthful file s.turns) ?_ calls
      ⟨h,rest⟩ ⟨ho,by rw [hoff],ht.suffix hsuf⟩ hok
    exact fun s call hs hcall => tftpStep_spec hF s call hs hcall
  · exact absurd rfl hne

end Handle

/-- A handle as it may come from `malloc`. -/
def newHandle : TftpHandle := ⟨⟨0,0,0,0⟩,0,false,0,0,fun _ => 0⟩

/-- The handle after block 1 came from host 0. -/
def openHandle (data : List UInt8) : TftpHandle :=
  ⟨⟨0,0,tftpport,1⟩,1,data.length < segsize,data.length,0,blit (fun _ => 0) 0 data.length fun j => data.getD j 0⟩

theorem tftpOpen_first (data : List UInt8) (hd : 1 ≤ data.length) (rest : List TftpTurn) :
    tftpOpen 5 newHandle 0 (⟨0,true,[⟨opData,1,data,(0,0)⟩],0⟩ :: rest) = some (0,openHandle data,rest) := by
  have hlen : ¬ 4+data.length < 5 := by omega
  have hrecv : ∀ h : TftpHandle, h.iodesc.xid = 1 →
      recvtftp 5 [⟨opData,1,data,(0,0)⟩] h = (.got data.length,{h with
        lastdata := blit (fun _ => 0) 0 data.length fun j => data.getD j 0,
        iodesc := {h.iodesc with destip := 0, destport := 0}}) := by
    intro h hx
    simp [recvtftp,recvFirst,TftpHandle.store,hx,hlen]
  rw [tftpOpen,tftpMakereq]
  dsimp only
  rw [sendrecv_first rest rfl (hrecv _ rfl) (by simp)]
  rfl

/-- A file of one block, read in two parts and then from the start. -/
theorem tftp_reads_file_again :
    tftpOpen 5 newHandle 0 [⟨0,true,[⟨opData,1,[1,2,3],(0,0)⟩],0⟩] = some (0,openHandle [1,2,3],[]) ∧
    Along (tftpStep 5) (ReadsFile 5 [1,2,3]) ⟨openHandle [1,2,3],[]⟩ [.read 2,.read 5,.seek 0 .set,.read 3] := by
  refine ⟨rfl,tftp_reads_file (by decide) [⟨0,true,[⟨opData,1,[1,2,3],(0,0)⟩],0⟩] _ ?_ newHandle _ 0 rfl _ ?_⟩
  · intro turn ht p hp
    obtain rfl := List.mem_singleton.mp ht
    obtain rfl := List.mem_singleton.mp hp
    exact ⟨1,by decide⟩
  · simp only [Along,TftpOk]
    decide

/-- Nothing arrives any more. -/
def silence : List TftpTurn := (List.range 60).map fun i => ⟨0,true,[],1000*(i+1)⟩

def lossyTurns : List TftpTurn := ⟨0,true,[⟨opData,1,List.replicate 512 1,(0,0)⟩],0⟩ :: silence

theorem lossyTurns_truthful : Truthful (List.replicate 513 1) lossyTurns := by
  intro turn ht p hp
  rw [lossyTurns,silence,List.mem_cons,List.mem_map] at ht
  obtain rfl | ⟨i,-,rfl⟩ := ht
  · obtain rfl := List.mem_singleton.mp hp
    exact ⟨1,by decide +kernel⟩
  · cases hp

theorem ReadsFile.answer {hdrSize : ℕ} {file data : List UInt8} {s : TftpState} {size : ℕ}
    (h : ReadsFile hdrSize file s (.read size)) (ha : (tftpStep hdrSize s (.read size)).1 = some (0,data)) :
    data = (file.drop s.handle.off.toNat).take size := by
  simp only [tftpStep] at ha
  cases hr : tftpRead hdrSize s.handle s.turns size with
  | none => rw [hr] at ha; cases ha
  | some out =>
    obtain ⟨e,d,h',turns⟩ := out
    rw [hr] at ha
    obtain ⟨rfl,rfl⟩ : e = 0 ∧ d = data := by simpa using ha
    exact (h d h' turns hr).1

/-- A read of block 2 fails; block 1, which the handle claims to have, was cleared meanwhile. -/
theorem tftp_read_cleared_block : blockCount (List.replicate 513 1) < 65535 ∧
    Truthful (List.replicate 513 1) lossyTurns ∧
    tftpOpen 5 newHandle 0 lossyTurns = some (0,openHandle (List.replicate 512 1),silence) ∧
    answers (tftpStep 5) ⟨openHandle (List.replicate 512 1),silence⟩
      [.seek 512 .set,.read 1,.seek 0 .set,.read 1] = [none,some (etimedout,[]),none,some (0,[0])] ∧
    ¬ Along (tftpStep 5) (ReadsFile 5 (List.replicate 513 1)) ⟨openHandle (List.replicate 512 1),silence⟩
      [.seek 512 .set,.read 1,.seek 0 .set,.read 1] := by
  have hans : answers (tftpStep 5) ⟨openHandle (List.replicate 512 1),silence⟩
      [.seek 512 .set,.read 1,.seek 0 .set,.read 1] = [none,some (etimedout,[]),none,some (0,[0])] := by
    decide +kernel
  refine ⟨by decide +kernel,lossyTurns_truthful,tftpOpen_first _ (by rw [List.length_replicate]; decide) _,hans,?_⟩
  intro h
  simp only [answers,List.cons.injEq] at hans
  have hdata := ReadsFile.answer h.2.2.2.1 hans.2.2.2.1
  revert hdata
  decide

end Blub.Stand
