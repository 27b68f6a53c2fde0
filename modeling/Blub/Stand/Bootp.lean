import Blub.Lib.Bytes
import Blub.Stand.Net

/-! The BOOTP and DHCP client of `bootp.c`. Replies are received over what earlier ones left in the
buffer, and their options are stored while they are walked. -/
namespace Blub.Stand
open Blub.Bytes

/-- The variables that the options of a reply set. The terminating zero of a text may be written
behind its array. -/
structure BootpVars where
  smask : UInt32
  gateip : UInt32
  rootip : UInt32
  rootpath : ℕ → UInt8
  hostname : ℕ → UInt8
  dhcpServerip : UInt32
  dhcpOk : Bool

/-- The receive buffer, from `rbootp` on, with the variables of the client. -/
structure BootpState where
  vars : BootpVars
  rbuf : ℕ → UInt8
  expected : UInt8
  xid : ℕ
  myip : UInt32
  servip : UInt32
  bootfile : ℕ → UInt8
  netmask : UInt32

/-- What a read of the socket stores, and whether it is a reply for this client. -/
structure Datagram where
  bytes : List UInt8
  ours : Bool

def bootpSize : ℕ := 548
def bootpVendsize : ℕ := 312
def ofsXid : ℕ := 4
def ofsYiaddr : ℕ := 16
def ofsSiaddr : ℕ := 20
def ofsFile : ℕ := 108
def ofsVend : ℕ := 236
def fnameSize : ℕ := 128

def tagSubnetMask : UInt8 := 1
def tagGateway : UInt8 := 3
def tagHostname : UInt8 := 12
def tagSwapserver : UInt8 := 16
def tagRootpath : UInt8 := 17
def tagDhcpMsgtype : UInt8 := 53
def tagServerid : UInt8 := 54
def tagEnd : UInt8 := 255

def dhcpOffer : UInt8 := 2
def dhcpAck : UInt8 := 5

/-- An address in network order. -/
def beAddr (b : ℕ → UInt8) (o : ℕ) : UInt32 :=
  (b o).toUInt32 <<< 24 ||| (b (o+1)).toUInt32 <<< 16 ||| (b (o+2)).toUInt32 <<< 8 ||| (b (o+3)).toUInt32

/-- `strncpy` of `fnameSize` bytes from `b + o`, and a zero at `size`. -/
def textOption (old b : ℕ → UInt8) (o size : ℕ) : ℕ → UInt8 :=
  Function.update (fun j =>
    if fnameSize ≤ j then old j else if ∀ i < j+1, b (o+i) ≠ 0 then b (o+j) else 0) size 0

/-- One option, with its tag, where its value starts, and its size. -/
structure Opt where
  tag : UInt8
  val : ℕ
  size : ℕ

def setOption (b : ℕ → UInt8) (v : BootpVars) (o : Opt) : BootpVars :=
  if o.tag = tagSubnetMask then {v with smask := beAddr b o.val}
  else if o.tag = tagGateway then {v with gateip := beAddr b o.val}
  else if o.tag = tagSwapserver then {v with rootip := beAddr b o.val}
  else if o.tag = tagRootpath then {v with rootpath := textOption v.rootpath b o.val o.size}
  else if o.tag = tagHostname then {v with hostname := textOption v.hostname b o.val o.size}
  else if o.tag = tagDhcpMsgtype then {v with dhcpOk := true}
  else if o.tag = tagServerid then {v with dhcpServerip := beAddr b o.val}
  else v

/-- The loop of `vend_rfc1048`, at `cp` of the vendor area `b`: whether the reply is taken. -/
def vendLoop (b : ℕ → UInt8) (expected : UInt8) : ℕ → ℕ → BootpVars → Bool × BootpVars
  | 0, _, v => (true,v)
  | fuel+1, cp, v =>
    if bootpVendsize ≤ cp then (true,v)
    else
      let o : Opt := ⟨b cp,cp+2,(b (cp+1)).toNat⟩
      if o.tag = tagEnd then (true,v)
      else if o.tag = tagDhcpMsgtype ∧ b o.val ≠ expected then (false,v)
      else vendLoop b expected fuel (o.val+o.size) (setOption b v o)

/-- `vend_rfc1048`. An option takes two bytes at least. -/
def vendRfc1048 (b : ℕ → UInt8) (expected : UInt8) (v : BootpVars) : Bool × BootpVars :=
  vendLoop b expected bootpVendsize 4 v

/-- The magic number at the start of the vendor area. -/
def rfc1048 (b : ℕ → UInt8) : Bool := b 0 = 99 && b 1 = 130 && b 2 = 83 && b 3 = 99

def vend (rbuf : ℕ → UInt8) (j : ℕ) : UInt8 := rbuf (ofsVend+j)

def bootprecv (d : Datagram) (s : BootpState) : Recv × BootpState :=
  let n := min d.bytes.length bootpSize
  let s := {s with rbuf := blit s.rbuf 0 n fun j => d.bytes.getD j 0}
  if d.ours = false ∨ n < ofsVend then (.again,s)
  else if (beAddr s.rbuf ofsXid).toNat ≠ s.xid%2^32 then (.again,s)
  else if rfc1048 (vend s.rbuf) then
    let r := vendRfc1048 (vend s.rbuf) s.expected s.vars
    (if r.1 then .got n else .again,{s with vars := r.2})
  else (.got n,s)

/-- What `bootp` does with the last reply. -/
def bootpFinish (s : BootpState) : BootpState :=
  let myip := beAddr s.rbuf ofsYiaddr
  let servip := beAddr s.rbuf ofsSiaddr
  let nmask : UInt32 :=
    if myip &&& 0x80000000 = 0 then 0xff000000
    else if myip &&& 0xc0000000 = 0x80000000 then 0xffff0000
    else 0xffffff00
  let smask := if nmask &&& s.vars.smask ≠ nmask then 0 else s.vars.smask
  let netmask := if smask ≠ 0 then smask else nmask
  {s with
    myip := myip
    servip := servip
    bootfile := fun j => if j = fnameSize-1 then 0 else s.rbuf (ofsFile+j)
    netmask := netmask
    xid := s.xid+1
    vars := {s.vars with
      rootip := if s.vars.rootip = 0 then servip else s.vars.rootip
      smask := smask
      gateip := if myip &&& netmask ≠ s.vars.gateip &&& netmask then 0 else s.vars.gateip}}

inductive BootpOutcome
  | noReply
  | requestFailed
  | bootp
  | dhcp
  deriving DecidableEq, Repr

abbrev BootpTurn : Type := Turn Datagram

/-- An exchange that waits for this type of message. -/
def BootpState.expect (s : BootpState) (t : UInt8) : BootpState := {s with expected := t}

/-- The variables at the start: no answer of a DHCP server was seen. -/
def BootpState.discover (s : BootpState) : BootpState :=
  {s with vars := {s.vars with dhcpOk := false}, expected := dhcpOffer}

/-- `bootp`, and whether it went through a request. -/
def bootp (turns : List BootpTurn) (s : BootpState) : Option (BootpOutcome × BootpState × List BootpTurn) :=
  match sendrecv id bootprecv turns s.discover with
  | none => none
  | some (.got _,s,turns) =>
    if s.vars.dhcpOk then
      match sendrecv id bootprecv turns (s.expect dhcpAck) with
      | none => none
      | some (.got _,s,turns) => some (.dhcp,bootpFinish s,turns)
      | some (_,s,turns) => some (.requestFailed,s,turns)
    else some (.bootp,bootpFinish s,turns)
  | some (_,s,turns) => some (.noReply,s,turns)

/-- `Ok` holds of every datagram that `bootp` reads. -/
def BootpMeets (Ok : BootpState → Datagram → Prop) (turns : List BootpTurn) (s : BootpState) : Prop :=
  Meets id bootprecv Ok turns s.discover ∧
    ∀ n s₁ rest, sendrecv id bootprecv turns s.discover = some (.got n,s₁,rest) → s₁.vars.dhcpOk = true →
      Meets id bootprecv Ok rest (s₁.expect dhcpAck)

attribute [local grind =] vendLoop bootp

section Walk
variable {b : ℕ → UInt8} {e : UInt8}

/-- The options of a vendor area in the order in which they are met, from `cp` on. -/
def optionsFrom (b : ℕ → UInt8) : ℕ → ℕ → List Opt
  | 0, _ => []
  | fuel+1, cp =>
    if bootpVendsize ≤ cp ∨ b cp = tagEnd then []
    else ⟨b cp,cp+2,(b (cp+1)).toNat⟩ :: optionsFrom b fuel (cp+2+(b (cp+1)).toNat)

def options (b : ℕ → UInt8) : List Opt := optionsFrom b bootpVendsize 4

/-- A message type other than the expected one. -/
def WrongType (b : ℕ → UInt8) (e : UInt8) (o : Opt) : Prop := o.tag = tagDhcpMsgtype ∧ b o.val ≠ e

attribute [local grind =] optionsFrom

instance WrongType.decidable (b : ℕ → UInt8) (e : UInt8) (o : Opt) : Decidable (WrongType b e o) :=
  inferInstanceAs (Decidable (_ ∧ _))

/-- The options that `vend_rfc1048` looks at. -/
def Opt.kept (o : Opt) : Bool :=
  o.tag ∈ [tagSubnetMask,tagGateway,tagSwapserver,tagRootpath,tagHostname,tagDhcpMsgtype,tagServerid]

/-- Storing options up to the first wrong message type. -/
def storeUntil (b : ℕ → UInt8) (e : UInt8) : List Opt → BootpVars → Bool × BootpVars
  | [], v => (true,v)
  | o :: l, v => if WrongType b e o then (false,v) else storeUntil b e l (setOption b v o)

attribute [local grind =] storeUntil

theorem vendLoop_eq (fuel cp : ℕ) (v : BootpVars) :
    vendLoop b e fuel cp v = storeUntil b e (optionsFrom b fuel cp) v := by
  induction fuel generalizing cp v with
  | zero => rfl
  | succ fuel ih =>
    simp only [vendLoop,optionsFrom]
    by_cases hcp : bootpVendsize ≤ cp
    · rw [if_pos hcp,if_pos (Or.inl hcp)]
      rfl
    · by_cases htag : b cp = tagEnd
      · rw [if_neg hcp,if_pos htag,if_pos (Or.inr htag)]
        rfl
      · rw [if_neg hcp,if_neg htag,if_neg (not_or.mpr ⟨hcp,htag⟩),storeUntil,ih]
        rfl

theorem setOption_of_not_kept {o : Opt} (h : o.kept = false) (v : BootpVars) : setOption b v o = v := by
  simp only [Opt.kept,List.mem_cons,List.not_mem_nil,or_false,decide_eq_false_iff_not,not_or] at h
  obtain ⟨h₁,h₂,h₃,h₄,h₅,h₆,h₇⟩ := h
  simp only [setOption,h₁,h₂,h₃,h₄,h₅,h₆,h₇,if_false]

/-- Without a wrong message type all options are stored. -/
theorem storeUntil_taken (l : List Opt) (v : BootpVars) (h : ∀ o ∈ l, ¬ WrongType b e o) :
    storeUntil b e l v = (true,l.foldl (setOption b) v) := by
  induction l generalizing v with
  | nil => rfl
  | cons o l ih =>
    rw [storeUntil,if_neg (h o List.mem_cons_self),ih _ fun o' ho => h o' (List.mem_cons_of_mem _ ho)]
    rfl

/-- A wrong message type in front of all that is stored leaves everything as it was. -/
theorem storeUntil_refused (l : List Opt) (v : BootpVars) {o : Opt} (hfirst : l.find? Opt.kept = some o)
    (ho : WrongType b e o) : storeUntil b e l v = (false,v) := by
  induction l with
  | nil => cases hfirst
  | cons o' l ih =>
    rw [storeUntil]
    by_cases hw : WrongType b e o'
    · rw [if_pos hw]
    · cases hk : o'.kept with
      | true =>
        rw [List.find?_cons_of_pos hk] at hfirst
        injection hfirst with hfirst
        exact absurd (hfirst ▸ ho) hw
      | false =>
        rw [List.find?_cons_of_neg (by simp [hk])] at hfirst
        rw [if_neg hw,setOption_of_not_kept hk,ih hfirst]

theorem setOption_dhcpOk {o : Opt} {v : BootpVars} (h : (setOption b v o).dhcpOk = true) :
    v.dhcpOk = true ∨ o.tag = tagDhcpMsgtype := by
  by_cases ht : o.tag = tagDhcpMsgtype
  · exact .inr ht
  · left
    unfold setOption at h
    split_ifs at h <;> exact h

theorem foldl_dhcpOk (l : List Opt) {v : BootpVars} (h : (l.foldl (setOption b) v).dhcpOk = true) :
    v.dhcpOk = true ∨ ∃ o ∈ l, o.tag = tagDhcpMsgtype := by
  induction l generalizing v with
  | nil => exact .inl h
  | cons o l ih =>
    obtain hv | ⟨o',ho',ht⟩ := ih h
    · obtain hv | ht := setOption_dhcpOk hv
      · exact .inl hv
      · exact .inr ⟨o,List.mem_cons_self,ht⟩
    · exact .inr ⟨o',List.mem_cons_of_mem _ ho',ht⟩

end Walk

/-- The options of a reply, stored over what was there. -/
def keep (rbuf : ℕ → UInt8) (v : BootpVars) : BootpVars :=
  if rfc1048 (vend rbuf) then (options (vend rbuf)).foldl (setOption (vend rbuf)) v else v

/-- A reply that says that it is of this type. -/
structure HasType (rbuf : ℕ → UInt8) (t : UInt8) : Prop where
  rfc1048 : rfc1048 (vend rbuf) = true
  present : ∃ o ∈ options (vend rbuf), o.tag = tagDhcpMsgtype
  value : ∀ o ∈ options (vend rbuf), o.tag = tagDhcpMsgtype → vend rbuf o.val = t

/-- The buffer once a datagram was read. -/
def received (s : BootpState) (d : Datagram) : ℕ → UInt8 :=
  blit s.rbuf 0 (min d.bytes.length bootpSize) fun j => d.bytes.getD j 0

/-- A reply with the transaction number of the client. -/
def IsReply (s : BootpState) (d : Datagram) : Prop :=
  d.ours = true ∧ ofsVend ≤ min d.bytes.length bootpSize ∧ (beAddr (received s d) ofsXid).toNat = s.xid%2^32

/-- A reply with a wrong message type has it before all options that are looked at, and where an
acknowledgement is expected every reply has a message type. -/
def Clean (s : BootpState) (d : Datagram) : Prop :=
  IsReply s d →
    (rfc1048 (vend (received s d)) = true →
      (∃ o ∈ options (vend (received s d)), WrongType (vend (received s d)) s.expected o) →
      ∃ o, (options (vend (received s d))).find? Opt.kept = some o ∧ WrongType (vend (received s d)) s.expected o) ∧
    (s.expected = dhcpAck → rfc1048 (vend (received s d)) = true ∧
      ∃ o ∈ options (vend (received s d)), o.tag = tagDhcpMsgtype)

/-- A refused reply changes none of the variables. -/
def RefusedQuietly (s : BootpState) (d : Datagram) : Prop :=
  ∀ s', bootprecv d s = (.again,s') → s'.vars = s.vars

section Consistency
variable {s s' : BootpState} {d : Datagram}

/-- All that `bootprecv` can do with a datagram. -/
theorem bootprecv_cases {r : Recv} (h : bootprecv d s = (r,s')) :
    s'.rbuf = received s d ∧ s'.expected = s.expected ∧
    ((r = .again ∧ s'.vars = s.vars) ∨
      (IsReply s d ∧ rfc1048 (vend (received s d)) = false ∧ r ≠ .again ∧ s'.vars = s.vars) ∨
      (IsReply s d ∧ rfc1048 (vend (received s d)) = true ∧
        storeUntil (vend (received s d)) s.expected (options (vend (received s d))) s.vars = (decide (r ≠ .again),s'.vars))) := by
  have hbuf : (blit s.rbuf 0 (min d.bytes.length bootpSize) fun j => d.bytes.getD j 0) = received s d := rfl
  simp only [bootprecv,hbuf] at h
  split_ifs at h with h₁ h₂ h₃ h₄
  · obtain ⟨rfl,rfl⟩ := Prod.mk.injEq .. ▸ h
    exact ⟨rfl,rfl,.inl ⟨rfl,rfl⟩⟩
  · obtain ⟨rfl,rfl⟩ := Prod.mk.injEq .. ▸ h
    exact ⟨rfl,rfl,.inl ⟨rfl,rfl⟩⟩
  · have hrep : IsReply s d := by
      rw [not_or,Bool.not_eq_false,not_lt] at h₁
      exact ⟨h₁.1,h₁.2,not_not.mp h₂⟩
    obtain ⟨rfl,rfl⟩ := Prod.mk.injEq .. ▸ h
    refine ⟨rfl,rfl,.inr (.inr ⟨hrep,h₃,?_⟩)⟩
    rw [options,← vendLoop_eq]
    exact Prod.ext h₄ rfl
  · have hrep : IsReply s d := by
      rw [not_or,Bool.not_eq_false,not_lt] at h₁
      exact ⟨h₁.1,h₁.2,not_not.mp h₂⟩
    obtain ⟨rfl,rfl⟩ := Prod.mk.injEq .. ▸ h
    refine ⟨rfl,rfl,.inr (.inr ⟨hrep,h₃,?_⟩)⟩
    rw [options,← vendLoop_eq]
    exact Prod.ext (Bool.eq_false_of_not_eq_true h₄) rfl
  · have hrep : IsReply s d := by
      rw [not_or,Bool.not_eq_false,not_lt] at h₁
      exact ⟨h₁.1,h₁.2,not_not.mp h₂⟩
    obtain ⟨rfl,rfl⟩ := Prod.mk.injEq .. ▸ h
    exact ⟨rfl,rfl,.inr (.inl ⟨hrep,Bool.eq_false_of_not_eq_true h₃,by simp,rfl⟩)⟩

theorem Clean.refusedQuietly (hc : Clean s d) : RefusedQuietly s d := by
  intro s' h
  obtain ⟨-,-,⟨-,hv⟩ | ⟨-,-,hne,-⟩ | ⟨hrep,hrfc,hstore⟩⟩ := bootprecv_cases h
  · exact hv
  · exact absurd rfl hne
  · by_cases hw : ∃ o ∈ options (vend (received s d)), WrongType (vend (received s d)) s.expected o
    · obtain ⟨o,hfirst,ho⟩ := (hc hrep).1 hrfc hw
      rw [storeUntil_refused _ _ hfirst ho] at hstore
      exact (congrArg Prod.snd hstore).symm
    · rw [storeUntil_taken _ _ fun o ho hwo => hw ⟨o,ho,hwo⟩] at hstore
      exact absurd (congrArg Prod.fst hstore) (by simp)

/-- A reply that is taken: its options are stored, and it has no message type but the expected one. -/
theorem Clean.taken (hc : Clean s d) {r : Recv} (h : bootprecv d s = (r,s')) (hr : r ≠ .again) :
    s'.expected = s.expected ∧ s'.vars = keep s'.rbuf s.vars ∧
    (∀ o ∈ options (vend s'.rbuf), rfc1048 (vend s'.rbuf) = true → o.tag = tagDhcpMsgtype →
      vend s'.rbuf o.val = s.expected) ∧
    (s.expected = dhcpAck → HasType s'.rbuf dhcpAck) := by
  obtain ⟨hbuf,hexp,⟨ha,-⟩ | ⟨hrep,hrfc,-,hv⟩ | ⟨hrep,hrfc,hstore⟩⟩ := bootprecv_cases h
  · exact absurd ha hr
  · rw [hbuf]
    refine ⟨hexp,?_,?_,?_⟩
    · rw [keep,if_neg (by rw [hrfc]; decide),hv]
    · intro o _ h₀
      rw [hrfc] at h₀
      cases h₀
    · intro he
      rw [((hc hrep).2 he).1] at hrfc
      cases hrfc
  · rw [hbuf]
    by_cases hw : ∃ o ∈ options (vend (received s d)), WrongType (vend (received s d)) s.expected o
    · obtain ⟨o,hfirst,ho⟩ := (hc hrep).1 hrfc hw
      rw [storeUntil_refused _ _ hfirst ho] at hstore
      exact absurd (congrArg Prod.fst hstore) (by simp [hr])
    · have hall : ∀ o ∈ options (vend (received s d)), o.tag = tagDhcpMsgtype →
          vend (received s d) o.val = s.expected := by
        intro o ho ht
        by_contra hne
        exact hw ⟨o,ho,ht,hne⟩
      rw [storeUntil_taken _ _ fun o ho hwo => hw ⟨o,ho,hwo⟩] at hstore
      refine ⟨hexp,?_,fun o ho _ => hall o ho,fun he => ⟨hrfc,((hc hrep).2 he).2,?_⟩⟩
      · rw [keep,if_pos hrfc]
        exact (congrArg Prod.snd hstore).symm
      · intro o ho ht
        rw [hall o ho ht,he]

/-- An exchange ends with one reply, whose options are the only ones that were stored. -/
theorem exchange_keep {turns rest : List BootpTurn} (hm : Meets id bootprecv Clean turns s) {n : ℕ}
    (h : sendrecv id bootprecv turns s = some (.got n,s',rest)) :
    s'.expected = s.expected ∧ s'.vars = keep s'.rbuf s.vars ∧
    (∀ o ∈ options (vend s'.rbuf), rfc1048 (vend s'.rbuf) = true → o.tag = tagDhcpMsgtype →
      vend s'.rbuf o.val = s.expected) ∧
    (s.expected = dhcpAck → HasType s'.rbuf dhcpAck) := by
  have hrule := sendrecv_rule (I := fun s₁ => s₁.vars = s.vars ∧ s₁.expected = s.expected)
    (Q := fun r s' => r = .error etimedout ∨ (s'.expected = s.expected ∧ s'.vars = keep s'.rbuf s.vars ∧
      (∀ o ∈ options (vend s'.rbuf), rfc1048 (vend s'.rbuf) = true → o.tag = tagDhcpMsgtype →
        vend s'.rbuf o.val = s.expected) ∧ (s.expected = dhcpAck → HasType s'.rbuf dhcpAck)))
    (fun _ hs => hs) ?_ ?_ (fun _ _ => .inl rfl) hm ⟨rfl,rfl⟩ h
  · exact hrule.1.resolve_left (by simp)
  · intro d s₁ s₂ hc hs hr
    exact ⟨(hc.refusedQuietly s₂ hr).trans hs.1,(bootprecv_cases hr).2.1.trans hs.2⟩
  · intro d s₁ r s₂ hc hs hr hne
    have htaken := hc.taken hr hne
    rw [hs.1,hs.2] at htaken
    exact .inr htaken

/-- Refused replies leave the variables alone, and an exchange with a request ends with a `DHCPACK`,
with the options of that and of the offer that was taken before. -/
theorem bootp_consistent (turns : List BootpTurn) (s : BootpState) (hm : BootpMeets Clean turns s) :
    BootpMeets RefusedQuietly turns s ∧
    ∀ s' rest, bootp turns s = some (.dhcp,s',rest) → ∃ n s₁ rest₁ m s₂,
      sendrecv id bootprecv turns s.discover = some (.got n,s₁,rest₁) ∧
      sendrecv id bootprecv rest₁ (s₁.expect dhcpAck) = some (.got m,s₂,rest) ∧
      s' = bootpFinish s₂ ∧ HasType s₁.rbuf dhcpOffer ∧ HasType s₂.rbuf dhcpAck ∧
      s₂.vars = keep s₂.rbuf (keep s₁.rbuf s.discover.vars) := by
  refine ⟨⟨hm.1.mono fun _ _ hc => hc.refusedQuietly,fun n s₁ rest h hok =>
    (hm.2 n s₁ rest h hok).mono fun _ _ hc => hc.refusedQuietly⟩,?_⟩
  intro s' rest h
  unfold bootp at h
  cases h₁ : sendrecv id bootprecv turns s.discover with
  | none => rw [h₁] at h; cases h
  | some out =>
    obtain ⟨r,s₁,rest₁⟩ := out
    rw [h₁] at h
    cases r with
    | again => cases h
    | error e => cases h
    | got n =>
      dsimp only at h
      split_ifs at h with hok
      · obtain ⟨-,hv₁,hall₁,-⟩ := exchange_keep hm.1 h₁
        cases h₂ : sendrecv id bootprecv rest₁ (s₁.expect dhcpAck) with
        | none => rw [h₂] at h; cases h
        | some out =>
          obtain ⟨r,s₂,rest₂⟩ := out
          rw [h₂] at h
          cases r with
          | again => cases h
          | error e => cases h
          | got m =>
            obtain ⟨rfl,rfl⟩ : bootpFinish s₂ = s' ∧ rest₂ = rest := by simpa using h
            obtain ⟨-,hv₂,-,hack⟩ := exchange_keep (hm.2 n s₁ rest₁ h₁ hok) h₂
            refine ⟨n,s₁,rest₁,m,s₂,rfl,h₂,rfl,?_,hack rfl,?_⟩
            · rw [hv₁,keep] at hok
              split_ifs at hok with hrfc
              · obtain h₀ | hpresent := foldl_dhcpOk _ hok
                · cases h₀
                · exact ⟨hrfc,hpresent,fun o ho => hall₁ o ho hrfc⟩
              · cases hok
            · rw [hv₂,← hv₁]
              rfl
      · cases h

end Consistency

/-- A reply with transaction number 0 and these options. -/
def replyWith (opts : List UInt8) : Datagram := ⟨List.replicate 236 0 ++ [99,130,83,99] ++ opts,true⟩

def idleState : BootpState :=
  ⟨⟨0,0,0,fun _ => 0,fun _ => 0,0,false⟩,fun _ => 0,0,0,0,0,fun _ => 0,0⟩

theorem bootprecv_eq {d : Datagram} {s : BootpState} {r : Recv} (h : (bootprecv d s).1 = r) :
    bootprecv d s = (r,(bootprecv d s).2) := Prod.ext h rfl

example : (bootprecv (replyWith [53,1,2,255]) idleState.discover).1 = .got 244 := by decide +kernel

/-- An offer and an acknowledgement, both with the message type first. -/
def offerAck : List BootpTurn :=
  [⟨0,true,replyWith [53,1,2,54,4,1,2,3,4,255],0⟩,⟨0,true,replyWith [53,1,5,3,4,9,9,9,9,255],0⟩]

theorem offerAck_clean : BootpMeets Clean offerAck idleState := by
  have hoffer : bootprecv (replyWith [53,1,2,54,4,1,2,3,4,255]) idleState.discover =
      (.got 250,(bootprecv (replyWith [53,1,2,54,4,1,2,3,4,255]) idleState.discover).2) :=
    bootprecv_eq (by decide +kernel)
  have hfirst : sendrecv id bootprecv offerAck idleState.discover = some (.got 250,
      (bootprecv (replyWith [53,1,2,54,4,1,2,3,4,255]) idleState.discover).2,
      [⟨0,true,replyWith [53,1,5,3,4,9,9,9,9,255],0⟩]) := by
    unfold offerAck
    exact sendrecv_first _ rfl hoffer (by simp)
  refine ⟨?_,?_⟩
  · unfold offerAck
    refine Meets.first _ rfl hoffer (by simp) ?_
    exact fun _ => ⟨fun _ hw => absurd hw (by decide +kernel),fun h₀ => absurd h₀ (by decide +kernel)⟩
  · intro n s₁ rest h₁ _
    rw [hfirst,Option.some.injEq,Prod.mk.injEq,Prod.mk.injEq] at h₁
    obtain ⟨-,rfl,rfl⟩ := h₁
    refine Meets.first _ rfl (bootprecv_eq (r := .got 250) (by decide +kernel)) (by simp) ?_
    exact fun _ => ⟨fun _ hw => absurd hw (by decide +kernel),fun _ => by decide +kernel⟩

theorem bootp_consistent_offerAck : (bootp offerAck idleState).map (·.1) = some .dhcp ∧
    BootpMeets RefusedQuietly offerAck idleState :=
  ⟨by decide +kernel,(bootp_consistent offerAck idleState offerAck_clean).1⟩

/-- A `DHCPACK` that names a gateway before its type, while an offer is expected. -/
theorem bootprecv_refused_gateway :
    (bootprecv (replyWith [3,4,9,9,9,9,53,1,5,255]) idleState.discover).1 = .again ∧
    (bootprecv (replyWith [3,4,9,9,9,9,53,1,5,255]) idleState.discover).2.vars.gateip = 0x09090909 ∧
    ¬ BootpMeets RefusedQuietly [⟨0,true,replyWith [3,4,9,9,9,9,53,1,5,255],0⟩] idleState := by
  have hagain : (bootprecv (replyWith [3,4,9,9,9,9,53,1,5,255]) idleState.discover).1 = .again := by
    decide +kernel
  have hgate : (bootprecv (replyWith [3,4,9,9,9,9,53,1,5,255]) idleState.discover).2.vars.gateip = 0x09090909 := by
    decide +kernel
  refine ⟨hagain,hgate,fun h => ?_⟩
  have hquiet := h.1
  rw [Meets,SendrecvMeets] at hquiet
  dsimp only at hquiet
  rw [if_pos (le_refl 0),if_neg (by decide),if_pos rfl] at hquiet
  have hvars := hquiet.1 _ (bootprecv_eq hagain)
  have hsame := congrArg BootpVars.gateip hvars
  rw [id,hgate] at hsame
  exact absurd hsame (by decide)

end Blub.Stand
