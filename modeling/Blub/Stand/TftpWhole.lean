import Blub.Stand.Tftp

/-! A whole file over TFTP, from a server that loses nothing. The block that is waited for is an `int`, the number in
a packet has 16 bits. -/
namespace Blub.Stand
open Blub.Trace Blub.Bytes

section Network
variable (hdrSize : ℕ) (file : List UInt8)

def IsBlock (n : ℕ) (p : TftpPacket) : Prop := p.opcode = opData ∧ p.block = n%2^16 ∧ p.data = dataBlock file n

/-- The network brings the blocks from `n` on, one for each time it is asked, and after the last nothing but blocks of the
file. -/
inductive Supplied : ℕ → List TftpTurn → Prop
  | block {n : ℕ} {turn : TftpTurn} {turns : List TftpTurn} {p : TftpPacket} : n ≤ blockCount file → turn.sent = true →
      turn.input = [p] → IsBlock file n p → Supplied (n+1) turns → Supplied n (turn :: turns)
  | rest {n : ℕ} {turns : List TftpTurn} : blockCount file < n → Truthful file turns → Supplied n turns

/-- Reads one after the other, of the given sizes. -/
def pieces : List UInt8 → List ℕ → List (List UInt8)
  | _, [] => []
  | l, k :: ks => l.take k :: pieces (l.drop k) ks

/-- The file is opened, and reads of whatever sizes bring its bytes one after the other, and nothing at its end. -/
def ReadsWhole (h₀ : TftpHandle) (servip : ℕ) (turns : List TftpTurn) : Prop :=
  ∃ h rest, tftpOpen hdrSize h₀ servip turns = some (0,h,rest) ∧ ∀ sizes : List ℕ,
    answers (tftpStep hdrSize) ⟨h,rest⟩ (sizes.map .read) = (pieces file sizes).map fun data => some (0,data)

/-- The number of the block fits into a packet, and its packet is as long as a header. -/
def BlockArrives (n : ℕ) : Prop := n < 2^16 ∧ hdrSize ≤ 4+(dataBlock file n).length

/-- No packet that the server has is taken for the block. -/
def BlockNever (n : ℕ) : Prop := ∀ p, IsData file p → p.block = n → 4+p.data.length < hdrSize

attribute [local grind =] pieces

end Network

section Exchange
variable {hdrSize : ℕ} {file : List UInt8}

theorem Supplied.truthful {n : ℕ} (hn : 1 ≤ n) {turns : List TftpTurn} (h : Supplied file n turns) :
    Truthful file turns := by
  induction h with
  | block hle hsent hin hp hrest ih =>
    intro turn ht q hq
    obtain rfl | ht := List.mem_cons.mp ht
    · rw [hin,List.mem_singleton] at hq
      exact ⟨_,hn,hle,hq ▸ hp⟩
    · exact ih (by omega) turn ht q hq
  | rest _ ht => exact ht

theorem recvtftp_block {n : ℕ} (ha : BlockArrives hdrSize file n) {p : TftpPacket} (hp : IsBlock file n p) {h : TftpHandle}
    (hx : h.iodesc.xid = n) : ∃ h', recvtftp hdrSize [p] h = (.got (dataBlock file n).length,h') ∧ Kept h h' ∧
      Holding file n h' := by
  obtain ⟨hop,hblock,hdata⟩ := hp
  obtain ⟨hlt,hlong⟩ := ha
  obtain ⟨h₀,hh₀⟩ : ∃ h₀, h₀ = ({h with lastdata := fun _ => 0} : TftpHandle).store p := ⟨_,rfl⟩
  have hk : Kept h h₀ := by rw [hh₀]; exact ⟨rfl,rfl,rfl,rfl,rfl⟩
  have hhold : Holding file n h₀ := by
    intro j hj
    rw [← hdata] at hj ⊢
    rw [hh₀,TftpHandle.store]
    dsimp only
    rw [blit_inside (Nat.zero_le j) (by rwa [Nat.zero_add]),Nat.sub_zero]
  have hpick : (if h.iodesc.xid = 1 then recvFirst [p] none {h with lastdata := fun _ => 0}
      else recvNext [p] {h with lastdata := fun _ => 0}) = (some p,h₀) := by
    rw [hh₀]
    split_ifs
    · rw [recvFirst,if_pos hop]
    · rfl
  have hnum : ¬p.block ≠ h₀.iodesc.xid := by rw [hblock,hk.xid,hx,Nat.mod_eq_of_lt hlt,not_not]
  simp only [recvtftp,hpick,hop,if_true,if_neg hnum]
  rw [if_neg (by rw [hdata]; omega),← hdata]
  split_ifs
  · exact ⟨_,rfl,hk.trans ⟨rfl,rfl,rfl,rfl,rfl⟩,hhold⟩
  · exact ⟨_,rfl,hk,hhold⟩

/-- A block that never arrives is waited for until the time is up. -/
theorem exchange_never {n : ℕ} (hn : BlockNever hdrSize file n) {turns rest : List TftpTurn} (ht : Truthful file turns)
    {h h' : TftpHandle} {r : Recv} (hx : h.iodesc.xid = n)
    (hr : sendrecv id (recvtftp hdrSize) turns h = some (r,h',rest)) : r = .error etimedout := by
  have hagain : ∀ pkts s, (∀ p ∈ pkts, IsData file p) → s.iodesc.xid = n →
      ∃ s', recvtftp hdrSize pkts s = (.again,s') ∧ s'.iodesc.xid = n := by
    intro pkts s hp hs
    cases pkts with
    | nil =>
      simp only [recvtftp,recvFirst,recvNext]
      split_ifs
      · exact ⟨_,rfl,hs⟩
      · exact ⟨_,rfl,hs⟩
    | cons p ps =>
      have hdata := hp p List.mem_cons_self
      obtain ⟨k,-,-,hop,-,-⟩ := hdata
      have hpick : (if s.iodesc.xid = 1 then recvFirst (p :: ps) none {s with lastdata := fun _ => 0}
          else recvNext (p :: ps) {s with lastdata := fun _ => 0}) =
          (some p,({s with lastdata := fun _ => 0} : TftpHandle).store p) := by
        split_ifs
        · rw [recvFirst,if_pos hop]
        · rfl
      have hxid : (({s with lastdata := fun _ => 0} : TftpHandle).store p).iodesc.xid = n := hs
      simp only [recvtftp,hpick,hop,if_true,hxid]
      by_cases hlong : 4+p.data.length < hdrSize
      · exact ⟨_,if_pos hlong,hs⟩
      · rw [if_neg hlong]
        by_cases hnum : p.block = n
        · exact absurd (hn p (hp p List.mem_cons_self) hnum) hlong
        · exact ⟨_,if_pos hnum,hs⟩
  refine (sendrecv_rule_forall (I := fun s : TftpHandle => s.iodesc.xid = n) (P := fun pkts => ∀ p ∈ pkts, IsData file p)
    (Q := fun r _ => r = .error etimedout) (fun _ hs => hs) ?_ ?_ (fun _ _ => rfl) ht hx hr).1
  · intro pkts s s' hp hs hrun
    obtain ⟨s₁,hs₁,hx₁⟩ := hagain pkts s hp hs
    rw [hrun] at hs₁
    obtain ⟨-,rfl⟩ := Prod.mk.injEq .. ▸ hs₁
    exact hx₁
  · intro pkts s r s' hp hs hrun hne
    obtain ⟨s₁,hs₁,-⟩ := hagain pkts s hp hs
    rw [hrun] at hs₁
    obtain ⟨rfl,-⟩ := Prod.mk.injEq .. ▸ hs₁
    exact absurd rfl hne

end Exchange

section Handle
variable {hdrSize : ℕ} {file : List UInt8}

/-- The handle has a block, and the network will bring the next. -/
structure Ready (file : List UInt8) (h : TftpHandle) (turns : List TftpTurn) : Prop where
  isOpen : Open file h
  fresh : h.iodesc.xid = h.currblock
  supplied : Supplied file (h.currblock+1) turns

theorem Supplied.head {n : ℕ} (hn : n ≤ blockCount file) {turns : List TftpTurn} (h : Supplied file n turns) :
    ∃ turn rest p, turns = turn :: rest ∧ turn.sent = true ∧ turn.input = [p] ∧ IsBlock file n p ∧
      Supplied file (n+1) rest := by
  cases h with
  | block _ hsent hin hp hrest => exact ⟨_,_,_,rfl,hsent,hin,hp,hrest⟩
  | rest hlt _ => omega

theorem tftpGetnextblock_ready {h : TftpHandle} {turns : List TftpTurn} (hr : Ready file h turns)
    (hle : h.currblock+1 ≤ blockCount file) (ha : BlockArrives hdrSize file (h.currblock+1)) :
    ∃ h' rest, tftpGetnextblock hdrSize h turns = some (0,h',rest) ∧ Ready file h' rest ∧
      h'.currblock = h.currblock+1 ∧ h'.off = h.off := by
  obtain ⟨turn,rest,p,rfl,hsent,hin,hp,hrest⟩ := hr.supplied.head hle
  obtain ⟨h₁,hh₁⟩ : ∃ h₁, h₁ = ({h with iodesc := {h.iodesc with xid := h.currblock+1}} : TftpHandle) := ⟨_,rfl⟩
  obtain ⟨h₂,hrecv,hk,hhold⟩ := recvtftp_block ha hp (h := h₁) (by rw [hh₁])
  have hexchange : sendrecv id (recvtftp hdrSize) (turn :: rest) h₁ =
      some (.got (dataBlock file (h.currblock+1)).length,h₂,rest) :=
    sendrecv_first rest hsent (by rw [hin]; exact hrecv) (by simp)
  have hcur : h₂.currblock = h.currblock := by rw [hk.currblock,hh₁]
  -- the block before a block that exists is not the last one
  have hlast : h₂.islastblock = false := by
    rw [hk.islastblock,hh₁]
    simp only
    rw [hr.isOpen.islastblock,hr.isOpen.validsize,decide_eq_false_iff_not,block_short_iff hr.isOpen.pos hr.isOpen.le]
    omega
  rw [tftpGetnextblock]
  simp only [← hh₁,hexchange]
  refine ⟨_,_,rfl,⟨⟨?_,?_,?_,?_,?_⟩,?_,?_⟩,?_,?_⟩
  · exact Nat.le_add_left 1 _
  · simpa only [hcur] using hle
  · simp only [hcur]
  · simp only [hlast,Bool.or_false]
  · intro _
    simp only [hcur]
    exact hhold
  · simp only [hcur]
    rw [hk.xid,hh₁]
  · simp only [hcur]
    exact hrest
  · simp only [hcur]
  · simp only [hk.off,hh₁]

theorem tftpGetnextblock_never {h : TftpHandle} {turns : List TftpTurn} (hr : Ready file h turns)
    (hn : BlockNever hdrSize file (h.currblock+1)) {r : ℤ × TftpHandle × List TftpTurn}
    (hrun : tftpGetnextblock hdrSize h turns = some r) : r.1 ≠ 0 := by
  rw [tftpGetnextblock] at hrun
  dsimp only at hrun
  cases hx : sendrecv id (recvtftp hdrSize) turns {h with iodesc := {h.iodesc with xid := h.currblock+1}} with
  | none => rw [hx] at hrun; cases hrun
  | some out =>
    obtain ⟨r',h',rest⟩ := out
    obtain rfl := exchange_never hn (hr.supplied.truthful (Nat.le_add_left 1 _)) rfl hx
    rw [hx] at hrun
    obtain rfl := Option.some.inj hrun
    exact (by decide : etimedout ≠ 0)

theorem tftpForward_ready (k : ℕ) {h : TftpHandle} {turns : List TftpTurn} (hr : Ready file h turns)
    (hle : h.currblock+k ≤ blockCount file) (ha : ∀ n, h.currblock < n → n ≤ h.currblock+k → BlockArrives hdrSize file n) :
    ∃ h' rest, tftpForward hdrSize k h turns = some (0,h',rest) ∧ Ready file h' rest ∧
      h'.currblock = h.currblock+k ∧ h'.off = h.off := by
  induction k generalizing h turns with
  | zero => exact ⟨h,turns,rfl,hr,rfl,rfl⟩
  | succ k ih =>
    obtain ⟨h₁,rest₁,hnext,hr₁,hcur₁,hoff₁⟩ := tftpGetnextblock_ready hr (by omega) (ha _ (by omega) (by omega))
    rw [tftpForward,hnext]
    simp only [ne_eq,not_true_eq_false,if_false]
    by_cases hlast : h₁.islastblock = true
    · have hshort := hlast
      rw [hr₁.isOpen.islastblock,decide_eq_true_iff,hr₁.isOpen.validsize,
        block_short_iff hr₁.isOpen.pos hr₁.isOpen.le] at hshort
      rw [if_pos hlast]
      exact ⟨h₁,rest₁,rfl,hr₁,by omega,hoff₁⟩
    · rw [if_neg hlast]
      obtain ⟨h',rest,hrun,hr',hcur,hoff⟩ := ih hr₁ (by omega) fun n hn hnk => ha n (by omega) (by omega)
      exact ⟨h',rest,hrun,hr',by omega,hoff.trans hoff₁⟩

/-- No block behind one that never arrives is reached. -/
theorem tftpForward_never (k : ℕ) {h : TftpHandle} {turns : List TftpTurn} (hr : Ready file h turns) {b : ℕ}
    (hlt : h.currblock < b) (hb : b ≤ blockCount file) (hbk : b ≤ h.currblock+k)
    (ha : ∀ n, 1 ≤ n → n < b → BlockArrives hdrSize file n) (hn : BlockNever hdrSize file b)
    {r : ℤ × TftpHandle × List TftpTurn} (hrun : tftpForward hdrSize k h turns = some r) : r.1 ≠ 0 := by
  induction k generalizing h turns with
  | zero => omega
  | succ k ih =>
    rw [tftpForward] at hrun
    by_cases hnext : h.currblock+1 = b
    · cases hx : tftpGetnextblock hdrSize h turns with
      | none => rw [hx] at hrun; cases hrun
      | some out =>
        have hne := tftpGetnextblock_never hr (hnext ▸ hn) hx
        rw [hx] at hrun
        simp only [if_pos hne] at hrun
        obtain rfl := Option.some.inj hrun
        exact hne
    · obtain ⟨h₁,rest₁,hget,hr₁,hcur₁,-⟩ := tftpGetnextblock_ready hr (by omega) (ha _ (by omega) (by omega))
      have hlast : h₁.islastblock = false := by
        rw [hr₁.isOpen.islastblock,hr₁.isOpen.validsize,decide_eq_false_iff_not,
          block_short_iff hr₁.isOpen.pos hr₁.isOpen.le]
        omega
      rw [hget] at hrun
      simp only [ne_eq,not_true_eq_false,if_false,hlast,Bool.false_eq_true] at hrun
      exact ih hr₁ (by omega) (by omega) hrun

/-- A fetch of the block that is needed next, or of one further on. -/
theorem tftpFetch_eq {h : TftpHandle} {need : ℕ} (hle : h.currblock ≤ need) (turns : List TftpTurn) :
    tftpFetch hdrSize h need turns = tftpForward hdrSize (need-h.currblock) h turns := by
  have hback : ¬(need : ℤ) < h.currblock := by omega
  rw [tftpFetch,if_neg hback]
  simp only
  congr 1
  omega

/-- What a turn of `tftp_read` stores when it has the block that is needed. -/
theorem tftpReadLoop_turn {fuel size : ℕ} {acc : List UInt8} {h h₁ : TftpHandle} {turns rest₁ : List TftpTurn} {o : ℕ}
    (hsize : size ≠ 0) (hoff : h.off = o) (hfetch : tftpFetch hdrSize h (o/segsize+1 : ℕ) turns = some (0,h₁,rest₁))
    (hr : Ready file h₁ rest₁) (hcur : h₁.currblock = o/segsize+1) (hoff₁ : h₁.off = o) (ho : o ≤ file.length) :
    ∃ c, c = min size (h₁.validsize-o%segsize) ∧ ((file.drop o).take c).length = c ∧
      tftpReadLoop hdrSize (fuel+1) size acc h turns =
        if h₁.islastblock ∧ c = h₁.validsize-o%segsize then
          some (0,acc ++ (file.drop o).take c,{h₁ with off := (o+c : ℕ)},rest₁)
        else tftpReadLoop hdrSize fuel (size-c) (acc ++ (file.drop o).take c) {h₁ with off := (o+c : ℕ)} rest₁ := by
  have hneed : h.off.tdiv segsize+1 = (o/segsize+1 : ℕ) := by
    rw [hoff,Int.natCast_add]
    rfl
  have hmod : h₁.off.tmod segsize = (o%segsize : ℕ) := by
    rw [hoff₁]
    rfl
  have hvalid := hr.isOpen.validsize
  have hhold := hr.isOpen.data hr.fresh
  rw [hcur] at hvalid hhold
  have hblock := block_length file (o/segsize+1)
  have hdm := Nat.div_add_mod o segsize
  have hge : o%segsize ≤ h₁.validsize := by
    have hlt : o%segsize < segsize := Nat.mod_lt _ (by decide)
    rw [hvalid,hblock,Nat.add_sub_cancel]
    omega
  have hneg : ¬(h₁.validsize : ℤ)-(o%segsize : ℕ) < 0 := by omega
  have hnat : ((h₁.validsize : ℤ)-(o%segsize : ℕ)).toNat = h₁.validsize-o%segsize := by omega
  obtain ⟨c,hc⟩ : ∃ c, c = min size (h₁.validsize-o%segsize) := ⟨_,rfl⟩
  have hcopy := hhold.copied (c := c) (by omega)
  refine ⟨c,hc,by rw [← hcopy,List.length_map,List.length_range],?_⟩
  have hiff : ((c : ℤ) = (h₁.validsize : ℤ)-(o%segsize : ℕ)) ↔ c = h₁.validsize-o%segsize := by omega
  have hcur' : (h₁.currblock : ℤ) = (o/segsize+1 : ℕ) := by rw [hcur]
  rw [tftpReadLoop,if_neg hsize]
  dsimp only
  rw [hneed,hfetch]
  dsimp only
  rw [if_neg (not_not.mpr rfl),if_pos hcur',hmod,if_neg hneg,hnat,← hc,Int.toNat_natCast,hcopy,hoff₁,
    if_congr (and_congr_right' hiff) rfl rfl,Nat.cast_add]

/-- Reads of a file all of whose blocks arrive. -/
theorem tftpReadLoop_ready (ha : ∀ n, 1 ≤ n → n ≤ blockCount file → BlockArrives hdrSize file n) (fuel size : ℕ)
    (hfuel : size < fuel) (acc : List UInt8) {h : TftpHandle} {turns : List TftpTurn} (hr : Ready file h turns) {o : ℕ}
    (hoff : h.off = o) (ho : o ≤ file.length) (hcur : h.currblock ≤ o/segsize+1) :
    ∃ h' rest, tftpReadLoop hdrSize fuel size acc h turns = some (0,acc ++ (file.drop o).take size,h',rest) ∧
      Ready file h' rest ∧ h'.off = (o+((file.drop o).take size).length : ℕ) ∧
      h'.currblock ≤ (o+((file.drop o).take size).length)/segsize+1 := by
  induction fuel generalizing size acc h turns o with
  | zero => omega
  | succ fuel ih =>
    by_cases hsize : size = 0
    · rw [tftpReadLoop,if_pos hsize,hsize]
      exact ⟨h,turns,by simp,hr,by simpa using hoff,by simpa using hcur⟩
    have hblocks : o/segsize+1 ≤ blockCount file := Nat.succ_le_succ (Nat.div_le_div_right ho)
    obtain ⟨h₁,rest₁,hfwd,hr₁,hcur₁,hoff₁⟩ := @tftpForward_ready hdrSize file (o/segsize+1-h.currblock) _ _ hr
      (by omega) fun n hn hnk => ha n (by omega) (by omega)
    have hneed : h₁.currblock = o/segsize+1 := by omega
    have hfetch := (tftpFetch_eq hcur turns).trans hfwd
    obtain ⟨c,hc,hclen,hturn⟩ := @tftpReadLoop_turn _ _ fuel _ acc _ _ _ _ _ hsize hoff hfetch hr₁ hneed
      (hoff₁.trans hoff) ho
    rw [hturn]
    have hshort := block_short_iff hr₁.isOpen.pos hr₁.isOpen.le
    rw [← hr₁.isOpen.validsize,hneed] at hshort
    have hdm := Nat.div_add_mod o segsize
    have hlen : ((file.drop o).take c).length = min c (file.length-o) := by rw [List.length_take,List.length_drop]
    have hr₂ : Ready file {h₁ with off := (o+c : ℕ)} rest₁ :=
      ⟨⟨hr₁.isOpen.pos,hr₁.isOpen.le,hr₁.isOpen.validsize,hr₁.isOpen.islastblock,hr₁.isOpen.data⟩,hr₁.fresh,hr₁.supplied⟩
    by_cases hend : h₁.islastblock = true ∧ c = h₁.validsize-o%segsize
    · -- the end of the file
      rw [if_pos hend]
      obtain ⟨hlast,hcend⟩ := hend
      rw [hr₁.isOpen.islastblock,decide_eq_true_iff,hshort] at hlast
      have hvalid := (block_last file).1
      rw [← hlast,← hneed,← hr₁.isOpen.validsize] at hvalid
      have hfm := Nat.div_add_mod file.length segsize
      have hq : o/segsize = file.length/segsize := by
        rw [blockCount] at hlast
        omega
      have hall : (file.drop o).take size = (file.drop o).take c := by
        rw [hq] at hdm
        rw [List.take_of_length_le (by rw [List.length_drop]; omega),
          List.take_of_length_le (by rw [List.length_drop]; omega)]
      rw [hall,hclen]
      refine ⟨_,_,rfl,hr₂,rfl,?_⟩
      simp only [hneed]
      exact Nat.succ_le_succ (Nat.div_le_div_right (Nat.le_add_right _ _))
    · rw [if_neg hend]
      have hpos : 0 < c := by
        by_contra hzero
        have hfull : h₁.validsize = o%segsize := by
          have hge : o%segsize ≤ h₁.validsize := by
            have hblock := block_length file (o/segsize+1)
            have hlt : o%segsize < segsize := Nat.mod_lt _ (by decide)
            rw [hr₁.isOpen.validsize,hneed,hblock,Nat.add_sub_cancel]
            omega
          omega
        refine hend ⟨?_,by omega⟩
        rw [hr₁.isOpen.islastblock,decide_eq_true_iff,hfull]
        exact Nat.mod_lt _ (by decide)
      obtain ⟨h',rest,hrun,hr',hoff',hcur'⟩ := ih (size-c) (by omega) (acc ++ (file.drop o).take c) hr₂ (o := o+c) rfl
        (by omega) (by
          simp only [hneed]
          exact Nat.succ_le_succ (Nat.div_le_div_right (Nat.le_add_right _ _)))
      have happ := take_drop_append file o (show c ≤ size by omega)
      have htotal : o+c+((file.drop (o+c)).take (size-c)).length = o+((file.drop o).take size).length := by
        rw [← happ,List.length_append,hclen,Nat.add_assoc]
      rw [List.append_assoc,happ] at hrun
      rw [htotal] at hoff' hcur'
      exact ⟨h',rest,hrun,hr',hoff',hcur'⟩

/-- Where a block never arrives, a read ends well only before it gets there. -/
theorem tftpReadLoop_never {b : ℕ} (hb : b ≤ blockCount file) (ha : ∀ n, 1 ≤ n → n < b → BlockArrives hdrSize file n)
    (hn : BlockNever hdrSize file b) (fuel size : ℕ) (acc : List UInt8) {h : TftpHandle} {turns : List TftpTurn}
    (hr : Ready file h turns) {o : ℕ} (hoff : h.off = o) (ho : o ≤ file.length) (hcur : h.currblock ≤ o/segsize+1)
    (hlt : h.currblock < b) {data : List UInt8} {h' : TftpHandle} {rest : List TftpTurn}
    (hrun : tftpReadLoop hdrSize fuel size acc h turns = some (0,data,h',rest)) : data.length = acc.length+size := by
  induction fuel generalizing size acc h turns o with
  | zero => cases hrun
  | succ fuel ih =>
    by_cases hsize : size = 0
    · rw [tftpReadLoop,if_pos hsize] at hrun
      obtain ⟨-,rfl,-,-⟩ : 0 = 0 ∧ acc = data ∧ h = h' ∧ turns = rest := by simpa using hrun
      rw [hsize,Nat.add_zero]
    by_cases hneed : o/segsize+1 < b
    · obtain ⟨h₁,rest₁,hfwd,hr₁,hcur₁,hoff₁⟩ := @tftpForward_ready hdrSize file (o/segsize+1-h.currblock) _ _ hr
        (by omega) fun n hn hnk => ha n (by omega) (by omega)
      have hblock : h₁.currblock = o/segsize+1 := by omega
      have hfetch := (tftpFetch_eq hcur turns).trans hfwd
      obtain ⟨c,hc,hclen,hturn⟩ := @tftpReadLoop_turn _ _ fuel _ acc _ _ _ _ _ hsize hoff hfetch hr₁ hblock
        (hoff₁.trans hoff) ho
      have hlast : h₁.islastblock = false := by
        rw [hr₁.isOpen.islastblock,hr₁.isOpen.validsize,decide_eq_false_iff_not,
          block_short_iff hr₁.isOpen.pos hr₁.isOpen.le]
        omega
      rw [hturn,if_neg (by rw [hlast]; simp)] at hrun
      have hr₂ : Ready file {h₁ with off := (o+c : ℕ)} rest₁ :=
        ⟨⟨hr₁.isOpen.pos,hr₁.isOpen.le,hr₁.isOpen.validsize,hr₁.isOpen.islastblock,hr₁.isOpen.data⟩,hr₁.fresh,hr₁.supplied⟩
      have hlen := ih (size-c) (acc ++ (file.drop o).take c) hr₂ (o := o+c) rfl
        (by rw [List.length_take,List.length_drop] at hclen; omega)
        (by
          simp only [hblock]
          exact Nat.succ_le_succ (Nat.div_le_div_right (Nat.le_add_right _ _)))
        (by simpa only [hblock] using hneed) hrun
      rw [hlen,List.length_append,hclen]
      omega
    · have hneed' : h.off.tdiv segsize+1 = (o/segsize+1 : ℕ) := by
        rw [hoff,Int.natCast_add]
        rfl
      rw [tftpReadLoop,if_neg hsize] at hrun
      dsimp only at hrun
      rw [hneed',tftpFetch_eq hcur] at hrun
      cases hx : tftpForward hdrSize (o/segsize+1-h.currblock) h turns with
      | none => rw [hx] at hrun; cases hrun
      | some out =>
        have hne := tftpForward_never _ hr hlt hb (by omega) ha hn hx
        rw [hx] at hrun
        simp only [if_pos hne] at hrun
        exact absurd (congrArg Prod.fst (Option.some.inj hrun)) hne

end Handle

section Whole
variable {hdrSize : ℕ} {file : List UInt8}

theorem tftpOpen_ready (ha : BlockArrives hdrSize file 1) {turns : List TftpTurn} (hs : Supplied file 1 turns)
    (h₀ : TftpHandle) (servip : ℕ) : ∃ h rest, tftpOpen hdrSize h₀ servip turns = some (0,h,rest) ∧ Ready file h rest ∧
      h.currblock = 1 ∧ h.off = 0 := by
  have hone : 1 ≤ blockCount file := Nat.le_add_left 1 _
  obtain ⟨turn,rest,p,rfl,hsent,hin,hp,hrest⟩ := hs.head hone
  rw [tftpOpen,tftpMakereq]
  dsimp only
  obtain ⟨h₁,hh₁⟩ : ∃ h₁ : TftpHandle, h₁ = {h₀ with
    off := 0, iodesc := ⟨servip,ipportTftp,tftpport+((((turn :: rest).head?.map (·.start)).getD 0)%1024).toNat,1⟩} := ⟨_,rfl⟩
  obtain ⟨h₂,hrecv,hk,hhold⟩ := recvtftp_block ha hp (h := h₁) (by rw [hh₁])
  have hexchange : sendrecv id (recvtftp hdrSize) (turn :: rest) h₁ = some (.got (dataBlock file 1).length,h₂,rest) :=
    sendrecv_first rest hsent (by rw [hin]; exact hrecv) (by simp)
  rw [← hh₁,hexchange]
  refine ⟨_,rest,rfl,?_⟩
  refine ⟨⟨⟨le_rfl,hone,rfl,rfl,fun _ => hhold⟩,?_,hrest⟩,rfl,?_⟩
  · simp only [hk.xid,hh₁]
  · simp only [hk.off,hh₁]

theorem tftpOpen_never (hn : BlockNever hdrSize file 1) {turns : List TftpTurn} (hs : Supplied file 1 turns)
    (h₀ : TftpHandle) (servip : ℕ) {r : ℤ × TftpHandle × List TftpTurn}
    (hrun : tftpOpen hdrSize h₀ servip turns = some r) : r.1 ≠ 0 := by
  rw [tftpOpen,tftpMakereq] at hrun
  dsimp only at hrun
  split at hrun
  · cases hrun
  · rename_i hx
    exact absurd (exchange_never hn (hs.truthful le_rfl) rfl hx) (by simp)
  · rename_i hx
    exact absurd (exchange_never hn (hs.truthful le_rfl) rfl hx) (by simp)
  · rename_i hx
    obtain rfl := Option.some.inj hrun
    obtain rfl := Recv.error.inj (exchange_never hn (hs.truthful le_rfl) rfl hx)
    exact (by decide : etimedout ≠ 0)

theorem reads_eq_pieces (ha : ∀ n, 1 ≤ n → n ≤ blockCount file → BlockArrives hdrSize file n) (sizes : List ℕ)
    {h : TftpHandle} {turns : List TftpTurn} (hr : Ready file h turns) {o : ℕ} (hoff : h.off = o) (ho : o ≤ file.length)
    (hcur : h.currblock ≤ o/segsize+1) : answers (tftpStep hdrSize) ⟨h,turns⟩ (sizes.map .read) =
      (pieces (file.drop o) sizes).map fun data => some (0,data) := by
  induction sizes generalizing h turns o with
  | nil => rfl
  | cons size sizes ih =>
    obtain ⟨h',rest,hrun,hr',hoff',hcur'⟩ := tftpReadLoop_ready ha (size+1) size (Nat.lt_succ_self size) [] hr hoff ho hcur
    rw [List.nil_append] at hrun
    have hstep : tftpStep hdrSize ⟨h,turns⟩ (.read size) = (some (0,(file.drop o).take size),⟨h',rest⟩) := by
      simp only [tftpStep,tftpRead,hrun]
    have hlen : ((file.drop o).take size).length = min size (file.length-o) := by rw [List.length_take,List.length_drop]
    have hdrop : file.drop (o+((file.drop o).take size).length) = (file.drop o).drop size := by
      rw [hlen,List.drop_drop]
      obtain hle | hle := le_total size (file.length-o)
      · rw [min_eq_left hle]
      · rw [min_eq_right hle,List.drop_of_length_le (by omega),List.drop_of_length_le (by omega)]
    simp only [List.map_cons,answers,pieces,hstep]
    rw [ih hr' hoff' (by omega) hcur',hdrop]

theorem neverArrives_of_not {n : ℕ} (hn : 1 ≤ n) (hle : n ≤ blockCount file) (hle' : n ≤ 2^16)
    (h : ¬BlockArrives hdrSize file n) : BlockNever hdrSize file n := by
  intro p hp hblock
  obtain ⟨k,hk,hkle,-,hpblock,hdata⟩ := hp
  have hmod : k%2^16 < 2^16 := Nat.mod_lt _ (by decide)
  have hlt : n < 2^16 := by omega
  have hshort : 4+(dataBlock file n).length < hdrSize := by
    by_contra hlong
    exact h ⟨hlt,by omega⟩
  rw [hdata]
  obtain heq | hne := eq_or_ne n (blockCount file)
  · -- no block of the file has a number beyond 16 bits
    have hkn : k = n := by
      rw [← hblock,hpblock,Nat.mod_eq_of_lt (by omega)]
    rwa [hkn]
  · have hfull := block_full hn (lt_of_le_of_ne hle hne)
    have hlen := block_length file k
    omega

theorem all_arrive_iff : (∀ n, 1 ≤ n → n ≤ blockCount file → BlockArrives hdrSize file n) ↔
    blockCount file < 2^16 ∧ hdrSize ≤ 4+file.length%segsize := by
  have hone : 1 ≤ blockCount file := Nat.le_add_left 1 _
  have hlast := block_last file
  constructor
  · intro h
    obtain ⟨hlt,hlong⟩ := h _ hone le_rfl
    exact ⟨hlt,by rwa [hlast.1] at hlong⟩
  · rintro ⟨hlt,hlong⟩ n hn hle
    refine ⟨by omega,?_⟩
    obtain rfl | hne := eq_or_ne n (blockCount file)
    · rwa [hlast.1]
    · rw [block_full hn (lt_of_le_of_ne hle hne)]
      omega

theorem readsWhole_of_arrive (ha : ∀ n, 1 ≤ n → n ≤ blockCount file → BlockArrives hdrSize file n) {turns : List TftpTurn}
    (hs : Supplied file 1 turns) (h₀ : TftpHandle) (servip : ℕ) : ReadsWhole hdrSize file h₀ servip turns := by
  obtain ⟨h,rest,hopen,hr,hcur,hoff⟩ := tftpOpen_ready (ha 1 le_rfl (Nat.le_add_left 1 _)) hs h₀ servip
  exact ⟨h,rest,hopen,fun sizes => reads_eq_pieces ha sizes hr hoff (Nat.zero_le _) (by rw [hcur,Nat.zero_div])⟩

/-- A read that asks for more than the file does not end well, where `b` is the first block that does not arrive. -/
theorem not_readsWhole_of_first {b : ℕ} (hb : 1 ≤ b) (hle : b ≤ blockCount file)
    (hbefore : ∀ n, 1 ≤ n → n < b → BlockArrives hdrSize file n) (hna : ¬BlockArrives hdrSize file b) {turns : List TftpTurn}
    (hs : Supplied file 1 turns) (h₀ : TftpHandle) (servip : ℕ) : ¬ReadsWhole hdrSize file h₀ servip turns := by
  rintro ⟨h,rest,hopen,hreads⟩
  have h16 : b ≤ 2^16 := by
    by_contra hgt
    exact absurd (hbefore (2^16) (by decide) (by omega)).1 (lt_irrefl _)
  have hnever := neverArrives_of_not hb hle h16 hna
  obtain hone | hgt := hb.eq_or_lt
  · exact tftpOpen_never (hone ▸ hnever) hs h₀ servip hopen rfl
  · obtain ⟨h',rest',hopen',hr,hcur,hoff⟩ := tftpOpen_ready (hbefore 1 le_rfl hgt) hs h₀ servip
    obtain ⟨rfl,rfl⟩ : h' = h ∧ rest' = rest := by simpa using hopen'.symm.trans hopen
    have hone := hreads [file.length+1]
    simp only [List.map_cons,List.map_nil,pieces,answers,List.take_of_length_le (Nat.le_succ file.length)] at hone
    cases hx : tftpRead hdrSize h' rest' (file.length+1) with
    | none =>
      simp only [tftpStep,hx] at hone
      cases List.head_eq_of_cons_eq hone
    | some out =>
      obtain ⟨e,data,h'',rest''⟩ := out
      simp only [tftpStep,hx] at hone
      obtain ⟨rfl,rfl⟩ : e = 0 ∧ data = file := by simpa using hone
      have hlen := tftpReadLoop_never hle hbefore hnever _ _ _ hr hoff (Nat.zero_le _) (by rw [hcur,Nat.zero_div])
        (by rwa [hcur]) hx
      rw [List.length_nil] at hlen
      omega

theorem not_readsWhole {turns : List TftpTurn} (hs : Supplied file 1 turns) (h₀ : TftpHandle) (servip : ℕ)
    (hnot : ¬(blockCount file < 2^16 ∧ hdrSize ≤ 4+file.length%segsize)) : ¬ReadsWhole hdrSize file h₀ servip turns := by
  have hex : ∃ n, 1 ≤ n ∧ n ≤ blockCount file ∧ ¬BlockArrives hdrSize file n := by
    rw [← all_arrive_iff] at hnot
    push Not at hnot
    exact hnot
  classical
  obtain ⟨hb,hle,hna⟩ := Nat.find_spec hex
  refine not_readsWhole_of_first hb hle ?_ hna hs h₀ servip
  intro n hn hlt
  by_contra hna'
  exact Nat.find_min hex hlt ⟨hn,by omega,hna'⟩

/-- The whole file is read exactly when the number of its last block fits into 16 bits and the packet of that block is not
shorter than a header. -/
theorem tftp_reads_whole_iff {turns : List TftpTurn} (hs : Supplied file 1 turns) (h₀ : TftpHandle) (servip : ℕ) :
    ReadsWhole hdrSize file h₀ servip turns ↔ blockCount file < 2^16 ∧ hdrSize ≤ 4+file.length%segsize := by
  constructor
  · intro hwhole
    by_contra hnot
    exact not_readsWhole hs h₀ servip hnot hwhole
  · intro h
    exact readsWhole_of_arrive (all_arrive_iff.mpr h) hs h₀ servip

end Whole

/-- The turn that brings block `n`. -/
def blockTurn (file : List UInt8) (n : ℕ) : TftpTurn := ⟨0,true,[⟨opData,n%2^16,dataBlock file n,(0,0)⟩],0⟩

def serve (file : List UInt8) : List TftpTurn := (List.range' 1 (blockCount file)).map (blockTurn file)

theorem supplied_range (file : List UInt8) (m n : ℕ) (hn : n+m = blockCount file+1) :
    Supplied file n ((List.range' n m).map (blockTurn file)) := by
  induction m generalizing n with
  | zero => exact .rest (by omega) fun turn ht => by cases ht
  | succ m ih =>
    rw [List.range'_succ,List.map_cons]
    exact .block (by omega) rfl rfl ⟨rfl,rfl,rfl⟩ (ih (n+1) (by omega))

theorem serve_supplied (file : List UInt8) : Supplied file 1 (serve file) := supplied_range file _ 1 (Nat.add_comm 1 _)

theorem tftp_reads_whole_small : Supplied [1,2,3] 1 (serve [1,2,3]) ∧ (ReadsWhole 5 [1,2,3] newHandle 0 (serve [1,2,3]) ↔
    blockCount [1,2,3] < 2^16 ∧ 5 ≤ 4+[1,2,3].length%segsize) :=
  ⟨serve_supplied _,tftp_reads_whole_iff (serve_supplied _) newHandle 0⟩

/-- A file of 65536 blocks, two bytes in the last. -/
def longFile : List UInt8 := List.replicate (65535*512+2) 1

theorem tftp_wraps_block : Supplied longFile 1 (serve longFile) ∧ blockCount longFile = 2^16 ∧
    ¬ReadsWhole 5 longFile newHandle 0 (serve longFile) := by
  have hcount : blockCount longFile = 2^16 := by
    rw [blockCount,longFile,List.length_replicate]
    rfl
  refine ⟨serve_supplied _,hcount,not_readsWhole (serve_supplied _) newHandle 0 ?_⟩
  rw [hcount]
  exact fun h => absurd h.1 (lt_irrefl _)

end Blub.Stand
