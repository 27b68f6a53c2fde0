import Blub.Stand.Net

/-! The ARP cache of libstand, and what it is for: one hardware address for each address asked for, the one that its host
answered with first. -/
namespace Blub.Stand.ArpCache

abbrev Ip := UInt32
abbrev Ea := Vector UInt8 6

/-- An `ether_arp`, with its numbers in host order. -/
structure EtherArp where
  hrd : ℕ
  pro : ℕ
  hln : ℕ
  pln : ℕ
  op : ℕ
  sha : Ea
  spa : Ip
  tha : Ea
  tpa : Ip

/-- What `readether` hands over: the size, the type, and the packet as the buffer then holds it. -/
structure Frame where
  size : ℕ
  etype : ℕ
  arp : EtherArp

structure ArpEntry where
  addr : Ip
  ea : Ea

/-- `arp_list` and `arp_num`. Only the first `ARP_NUM` entries belong to the list. -/
structure Arp where
  arpList : ℕ → ArpEntry
  arpNum : ℕ

structure Iodesc where
  myip : Ip
  myea : Ea

def arpListNum : ℕ := 8
def inaddrBroadcast : Ip := 0xffffffff
def bcea : Ea := Vector.replicate 6 0xff
def arphrdEther : ℕ := 1
def ethertypeIp : ℕ := 0x0800
def ethertypeArp : ℕ := 0x0806
def arpopRequest : ℕ := 1
def arpopReply : ℕ := 2
def sizeofEtherArp : ℕ := 28

/-- The cache at the start, with `rest` behind the broadcast entry. -/
def arpStart (rest : ℕ → ArpEntry) : Arp := ⟨Function.update rest 0 ⟨inaddrBroadcast,bcea⟩,1⟩

/-- How a call ends, if it does. -/
inductive Outcome
  | ret (ea : Ea)
  | waiting
  | panic
  deriving DecidableEq

/-- A call: the interface, the address, what the buffer on the stack holds, and the turns of the exchange if there is one. -/
structure Call where
  d : Iodesc
  addr : Ip
  rbuf : EtherArp
  turns : List (Turn (Option Frame))

section Code

/-- The first check on a packet. -/
def EtherArp.Ethernet (arp : EtherArp) : Prop :=
  arp.hrd = arphrdEther ∧ arp.pro = ethertypeIp ∧ arp.hln = 6 ∧ arp.pln = 4

instance (arp : EtherArp) : Decidable arp.Ethernet := inferInstanceAs (Decidable (_ ∧ _))

/-- `arp_reply`: the buffer after it. -/
def arpReply (d : Iodesc) (arp : EtherArp) : EtherArp :=
  if ¬arp.Ethernet then arp
  else if arp.op ≠ arpopRequest then arp
  else if arp.tpa ≠ d.myip then arp
  else {arp with op := arpopReply, tha := arp.sha, tpa := arp.spa, sha := d.myea, spa := d.myip}

def arprecv (d : Iodesc) (s : Arp) : Option Frame → EtherArp → Recv × EtherArp
  | none, rbuf => (.again,rbuf)
  | some f, _ =>
    if f.size < sizeofEtherArp then (.again,f.arp)
    else if f.etype ≠ ethertypeArp then (.again,f.arp)
    else if ¬f.arp.Ethernet then (.again,f.arp)
    else if f.arp.op = arpopRequest then (.again,arpReply d f.arp)
    else if f.arp.op ≠ arpopReply then (.again,f.arp)
    else if (s.arpList s.arpNum).addr ≠ f.arp.spa then (.again,f.arp)
    else (.got f.size,f.arp)

/-- The entry of the cache that is found, or the first one behind. -/
def lookup (s : Arp) (addr : Ip) : Option ℕ := (List.range s.arpNum).find? fun i => addr = (s.arpList i).addr

/-- `arpwhohas`; no result where an entry behind `arp_list` is read or written. -/
def arpwhohas (s : Arp) (c : Call) : Option (Outcome × Arp) :=
  if arpListNum < s.arpNum then none
  else
    match lookup s c.addr with
    | some i => some (.ret (s.arpList i).ea,s)
    | none =>
      let al := s.arpNum
      let s := if arpListNum-1 < s.arpNum then {s with arpNum := 1} else s
      if arpListNum ≤ al then none
      else
        let s := {s with arpList := Function.update s.arpList al {s.arpList al with addr := c.addr}}
        match sendrecv id (arprecv c.d s) c.turns c.rbuf with
        | none => some (.waiting,s)
        | some (.got _,rbuf,_) =>
          let s := ⟨Function.update s.arpList al {s.arpList al with ea := rbuf.sha},s.arpNum+1⟩
          some (.ret (s.arpList al).ea,s)
        | some _ => some (.panic,s)

def run (s : Arp) : List Call → Option (List Outcome × Arp)
  | [] => some ([],s)
  | c :: calls =>
    match arpwhohas s c with
    | none => none
    | some (o,s) => (run s calls).map fun r => (o :: r.1,r.2)

attribute [local grind =] arpwhohas run

end Code

section Abstract

/-- An answer of a host. -/
def Frame.Reply (f : Frame) : Prop :=
  sizeofEtherArp ≤ f.size ∧ f.etype = ethertypeArp ∧ f.arp.Ethernet ∧ f.arp.op = arpopReply

instance (f : Frame) : Decidable f.Reply := inferInstanceAs (Decidable (_ ∧ _))

/-- To wait for the answer of one host, whatever else is heard. -/
def waitFor (addr : Ip) : Option Frame → Option Ea → Recv × Option Ea
  | none, heard => (.again,heard)
  | some f, heard => if f.Reply ∧ f.arp.spa = addr then (.got f.size,some f.arp.sha) else (.again,heard)

/-- The address in the answer that arrives in the exchange of a call. -/
def heard (c : Call) : Option Ea :=
  match sendrecv id (waitFor c.addr) c.turns none with
  | some (_,ea,_) => ea
  | none => none

/-- The cache as a map that keeps what was heard first. -/
def resolveAll (known : Ip → Option Ea) : List Call → List (Option Ea)
  | [] => []
  | c :: calls =>
    let ea := (known c.addr).or (heard c)
    ea :: resolveAll (Function.update known c.addr ea) calls

def knownStart (a : Ip) : Option Ea := if a = inaddrBroadcast then some bcea else none

/-- The entries in use have different addresses, and the broadcast one is first. -/
structure Arp.Distinct (s : Arp) : Prop where
  pos : 0 < s.arpNum
  first : (s.arpList 0).addr = inaddrBroadcast
  distinct : ∀ i < s.arpNum, ∀ j < s.arpNum, (s.arpList i).addr = (s.arpList j).addr → i = j

/-- Every call returns what the map says, no entry behind the list is touched, and the entries stay different. -/
def RunsRight (rest : ℕ → ArpEntry) (calls : List Call) : Prop :=
  ∃ (eas : List Ea) (s : Arp), run (arpStart rest) calls = some (eas.map .ret,s) ∧ s.Distinct ∧
    eas.map some = resolveAll knownStart calls

attribute [local grind =] resolveAll

end Abstract

section Lookup
variable {s : Arp} {addr : Ip}

/-- The addresses in use. -/
def Arp.addrs (s : Arp) : Finset Ip := (Finset.range s.arpNum).image fun i => (s.arpList i).addr

theorem lookup_eq_none : lookup s addr = none ↔ addr ∉ s.addrs := by
  simp only [lookup,Arp.addrs,List.find?_eq_none,List.mem_range,decide_eq_true_eq,Finset.mem_image,Finset.mem_range,
    not_exists,not_and]
  exact ⟨fun h i hi he => h i hi he.symm,fun h i hi he => h i hi he.symm⟩

theorem lookup_some {i : ℕ} (h : lookup s addr = some i) : i < s.arpNum ∧ (s.arpList i).addr = addr := by
  have hmem := List.mem_of_find?_eq_some h
  have hfound := List.find?_some h
  exact ⟨List.mem_range.mp hmem,(of_decide_eq_true hfound).symm⟩

theorem Arp.Distinct.lookup_eq (h : s.Distinct) {i : ℕ} (hi : i < s.arpNum) : lookup s (s.arpList i).addr = some i := by
  cases hl : lookup s (s.arpList i).addr with
  | none => exact absurd (Finset.mem_image_of_mem _ (Finset.mem_range.mpr hi)) (lookup_eq_none.mp hl)
  | some j =>
    obtain ⟨hj,haddr⟩ := lookup_some hl
    rw [h.distinct j hj i hi haddr]

theorem Arp.Distinct.card_addrs (h : s.Distinct) : s.addrs.card = s.arpNum := by
  rw [Arp.addrs,Finset.card_image_of_injOn,Finset.card_range]
  intro i hi j hj hij
  exact h.distinct i (Finset.mem_range.mp hi) j (Finset.mem_range.mp hj) hij

end Lookup

section Exchange

/-- Only an answer ends the wait with an address. -/
theorem heard_got {c : Call} {ea : Ea} (h : heard c = some ea) :
    ∃ n rest, sendrecv id (waitFor c.addr) c.turns none = some (.got n,some ea,rest) := by
  rw [heard] at h
  rcases hw : sendrecv id (waitFor c.addr) c.turns none with - | ⟨r,t,rest⟩
  · rw [hw] at h
    cases h
  · rw [hw] at h
    obtain rfl : t = some ea := h
    have hrule := sendrecv_rule_forall (I := fun t => t = none) (P := fun _ => True)
      (Q := fun r t => t = some ea → ∃ n, r = .got n) (fun _ h => h) ?_ ?_
      (fun t ht h => absurd (ht.symm.trans h) (by simp)) (fun _ _ => trivial) rfl hw
    · obtain ⟨n,rfl⟩ := hrule.1 rfl
      exact ⟨n,rest,rfl⟩
    · rintro (- | f) t t' - ht hr
      · exact (Prod.mk.inj hr).2 ▸ ht
      · rw [waitFor] at hr
        split_ifs at hr
        · cases (Prod.mk.inj hr).1
        · exact (Prod.mk.inj hr).2 ▸ ht
    · rintro (- | f) t r t' - ht hr hne -
      · exact absurd (Prod.mk.inj hr).1.symm hne
      · rw [waitFor] at hr
        split_ifs at hr
        · exact ⟨_,(Prod.mk.inj hr).1.symm⟩
        · exact absurd (Prod.mk.inj hr).1.symm hne

theorem waitFor_again {addr : Ip} {i : Option Frame} {t : Option Ea} (h : (waitFor addr i t).1 = .again) :
    (waitFor addr i t).2 = t := by
  cases i with
  | none => rfl
  | some f =>
    rw [waitFor] at h ⊢
    split_ifs at h ⊢
    rfl

/-- `arprecv` waits for the host whose address is in the entry behind those in use. -/
theorem arprecv_eq (d : Iodesc) (s : Arp) (i : Option Frame) (rbuf : EtherArp) (t : Option Ea) :
    (arprecv d s i rbuf).1 = (waitFor (s.arpList s.arpNum).addr i t).1 ∧
      ((waitFor (s.arpList s.arpNum).addr i t).1 ≠ .again →
        (waitFor (s.arpList s.arpNum).addr i t).2 = some (arprecv d s i rbuf).2.sha) := by
  cases i with
  | none => exact ⟨rfl,fun h => absurd rfl h⟩
  | some f =>
    by_cases hwant : f.Reply ∧ f.arp.spa = (s.arpList s.arpNum).addr
    · obtain ⟨⟨hsize,htype,hether,hop⟩,haddr⟩ := id hwant
      have hrecv : arprecv d s (some f) rbuf = (.got f.size,f.arp) := by
        rw [arprecv,if_neg (by omega),if_neg (not_not.mpr htype),if_neg (not_not.mpr hether),if_neg (by rw [hop]; decide),
          if_neg (not_not.mpr hop),if_neg (not_not.mpr haddr.symm)]
      rw [hrecv,waitFor,if_pos hwant]
      exact ⟨rfl,fun _ => rfl⟩
    · have hrecv : (arprecv d s (some f) rbuf).1 = .again := by
        rw [arprecv]
        split_ifs with h₁ h₂ h₃ h₄ h₅ h₆
        · rfl
        · rfl
        · rfl
        · rfl
        · rfl
        · exact absurd ⟨⟨by omega,not_not.mp h₂,h₃,not_not.mp h₅⟩,(not_not.mp h₆).symm⟩ hwant
        · rfl
      rw [waitFor,if_neg hwant]
      exact ⟨hrecv,fun h => absurd rfl h⟩

theorem sendrecv_heard {c : Call} {ea : Ea} (h : heard c = some ea) {s : Arp}
    (haddr : (s.arpList s.arpNum).addr = c.addr) :
    ∃ n rbuf rest, sendrecv id (arprecv c.d s) c.turns c.rbuf = some (.got n,rbuf,rest) ∧ rbuf.sha = ea := by
  obtain ⟨n,rest,hwait⟩ := heard_got h
  have hrecv : ∀ i rbuf t, t = none → (arprecv c.d s i rbuf).1 = (waitFor c.addr i t).1 ∧
      if (waitFor c.addr i t).1 = .again then (waitFor c.addr i t).2 = none
      else (waitFor c.addr i t).2 = none ∨ (waitFor c.addr i t).2 = some (arprecv c.d s i rbuf).2.sha := by
    intro i rbuf t ht
    have hsame := arprecv_eq c.d s i rbuf t
    rw [haddr] at hsame
    refine ⟨hsame.1,?_⟩
    split_ifs with hagain
    · exact (waitFor_again hagain).trans ht
    · exact .inr (hsame.2 hagain)
  obtain ⟨rbuf,hrun,hsha⟩ := sendrecv_sim (s := c.rbuf) (R := fun _ t => t = none)
    (E := fun rbuf t => t = none ∨ t = some rbuf.sha) (fun _ _ h => h) hrecv (fun _ _ h => .inl h) rfl hwait
  obtain hnone | hsome := hsha
  · cases hnone
  · exact ⟨n,rbuf,rest,hrun,(Option.some.inj hsome).symm⟩

end Exchange

section Step
variable {s : Arp} {c : Call}

/-- The cache is the map. -/
structure Holds (s : Arp) (known : Ip → Option Ea) : Prop extends s.Distinct where
  le : s.arpNum ≤ arpListNum
  known_eq (a : Ip) : known a = (lookup s a).map fun i => (s.arpList i).ea

variable {known : Ip → Option Ea}

theorem arpwhohas_hit (h : Holds s known) (hin : c.addr ∈ s.addrs) :
    ∃ ea, known c.addr = some ea ∧ arpwhohas s c = some (.ret ea,s) := by
  cases hl : lookup s c.addr with
  | none => exact absurd hin (lookup_eq_none.mp hl)
  | some i =>
    refine ⟨(s.arpList i).ea,by rw [h.known_eq,hl,Option.map_some],?_⟩
    rw [arpwhohas,if_neg (Nat.not_lt.mpr h.le),hl]

theorem arpwhohas_full (h : Holds s known) (hin : c.addr ∉ s.addrs) (hfull : s.arpNum = arpListNum) :
    arpwhohas s c = none := by
  rw [arpwhohas,if_neg (Nat.not_lt.mpr h.le),lookup_eq_none.mpr hin]
  dsimp only
  rw [if_pos hfull.ge]

/-- What a call adds to a cache with room. -/
def added (s : Arp) (addr : Ip) (ea : Ea) : Arp := ⟨Function.update s.arpList s.arpNum ⟨addr,ea⟩,s.arpNum+1⟩

theorem arpwhohas_miss (hin : c.addr ∉ s.addrs) (hroom : s.arpNum < arpListNum) {ea : Ea} (hheard : heard c = some ea) :
    arpwhohas s c = some (.ret ea,added s c.addr ea) := by
  obtain ⟨n,rbuf,rest,hrun,rfl⟩ := sendrecv_heard hheard
    (s := {s with arpList := Function.update s.arpList s.arpNum {s.arpList s.arpNum with addr := c.addr}})
    (by simp)
  have hnot : ¬arpListNum-1 < s.arpNum := by
    rw [arpListNum] at hroom ⊢
    omega
  rw [arpwhohas,if_neg (Nat.not_lt.mpr hroom.le),lookup_eq_none.mpr hin]
  dsimp only
  rw [if_neg (Nat.not_le.mpr hroom),if_neg hnot]
  rw [hrun]
  simp [added]

theorem addrs_added (s : Arp) (addr : Ip) (ea : Ea) : (added s addr ea).addrs = insert addr s.addrs := by
  simp only [Arp.addrs,added,Finset.range_add_one,Finset.image_insert,Function.update_self]
  congr 1
  apply Finset.image_congr
  intro i hi
  have hne : i ≠ s.arpNum := (Finset.mem_range.mp hi).ne
  simp only [Function.update_of_ne hne]

theorem Holds.added (h : Holds s known) {addr : Ip} (hin : addr ∉ s.addrs) (hroom : s.arpNum < arpListNum) (ea : Ea) :
    Holds (added s addr ea) (Function.update known addr (some ea)) := by
  have hold : ∀ i < s.arpNum, (ArpCache.added s addr ea).arpList i = s.arpList i := fun i hi =>
    Function.update_of_ne hi.ne _ _
  have hnew : (ArpCache.added s addr ea).arpList s.arpNum = ⟨addr,ea⟩ := Function.update_self ..
  have hne : ∀ i < s.arpNum, (s.arpList i).addr ≠ addr := fun i hi he =>
    hin (he ▸ Finset.mem_image_of_mem _ (Finset.mem_range.mpr hi))
  have hdistinct : (ArpCache.added s addr ea).Distinct := by
    refine ⟨Nat.succ_pos _,by rw [hold 0 h.pos]; exact h.first,fun i hi j hj hij => ?_⟩
    obtain hi' | rfl := Nat.lt_succ_iff_lt_or_eq.mp hi
    · obtain hj' | rfl := Nat.lt_succ_iff_lt_or_eq.mp hj
      · rw [hold i hi',hold j hj'] at hij
        exact h.distinct i hi' j hj' hij
      · rw [hold i hi',hnew] at hij
        exact absurd hij (hne i hi')
    · obtain hj' | rfl := Nat.lt_succ_iff_lt_or_eq.mp hj
      · rw [hold j hj',hnew] at hij
        exact absurd hij.symm (hne j hj')
      · rfl
  refine ⟨hdistinct,hroom,fun a => ?_⟩
  by_cases ha : a = addr
  · have hl := hdistinct.lookup_eq (Nat.lt_succ_self s.arpNum)
    rw [hnew] at hl
    rw [ha,Function.update_self,hl,Option.map_some,hnew]
  · rw [Function.update_of_ne ha,h.known_eq]
    cases hl : lookup s a with
    | none =>
      have hout : a ∉ (ArpCache.added s addr ea).addrs := by
        rw [addrs_added,Finset.mem_insert,not_or]
        exact ⟨ha,lookup_eq_none.mp hl⟩
      rw [lookup_eq_none.mpr hout]
      rfl
    | some i =>
      obtain ⟨hi,haddr⟩ := lookup_some hl
      have hl' := hdistinct.lookup_eq (Nat.lt_succ_of_lt hi)
      rw [hold i hi,haddr] at hl'
      rw [hl',Option.map_some,Option.map_some,hold i hi]

end Step

section Runs

theorem run_iff {s : Arp} {known : Ip → Option Ea} (h : Holds s known) (calls : List Call)
    (hheard : ∀ c ∈ calls, (heard c).isSome) :
    (∃ (eas : List Ea) (s' : Arp), run s calls = some (eas.map .ret,s') ∧ s'.Distinct ∧
      eas.map some = resolveAll known calls) ↔ (s.addrs ∪ (calls.map Call.addr).toFinset).card ≤ arpListNum := by
  induction calls generalizing s known with
  | nil =>
    refine iff_of_true ⟨[],s,rfl,h.toDistinct,rfl⟩ ?_
    rw [List.map_nil,List.toFinset_nil,Finset.union_empty,h.card_addrs]
    exact h.le
  | cons c calls ih =>
    obtain ⟨ea,hea⟩ := Option.isSome_iff_exists.mp (hheard c List.mem_cons_self)
    have hrest := fun c hc => hheard c (List.mem_cons_of_mem _ hc)
    -- a call that returns goes on in the state it leaves
    have hnext : ∀ {s₁ : Arp} {known₁ : Ip → Option Ea} {ea₁ : Ea}, arpwhohas s c = some (.ret ea₁,s₁) →
        (known c.addr).or (heard c) = some ea₁ → Function.update known c.addr (some ea₁) = known₁ → Holds s₁ known₁ →
        s₁.addrs = insert c.addr s.addrs →
        ((∃ (eas : List Ea) (s' : Arp), run s (c :: calls) = some (eas.map .ret,s') ∧ s'.Distinct ∧
          eas.map some = resolveAll known (c :: calls)) ↔
          (s.addrs ∪ ((c :: calls).map Call.addr).toFinset).card ≤ arpListNum) := by
      intro s₁ known₁ ea₁ hcall hres hknown h₁ haddrs
      have hset : s.addrs ∪ ((c :: calls).map Call.addr).toFinset = s₁.addrs ∪ (calls.map Call.addr).toFinset := by
        rw [haddrs,List.map_cons,List.toFinset_cons,Finset.union_insert,Finset.insert_union]
      rw [hset,← ih h₁ hrest]
      simp only [run,hcall,resolveAll,hres,hknown]
      constructor
      · rintro ⟨eas,s',hrun,hdist,heas⟩
        cases eas with
        | nil => cases heas
        | cons e eas =>
          obtain ⟨-,hrest⟩ := List.cons.inj heas
          obtain ⟨⟨outs,s₂⟩,hrun₁,hpair⟩ := Option.map_eq_some_iff.mp hrun
          obtain ⟨hcons,rfl⟩ := Prod.mk.inj hpair
          obtain ⟨-,rfl⟩ := List.cons.inj hcons
          exact ⟨eas,s₂,hrun₁,hdist,hrest⟩
      · rintro ⟨eas,s',hrun,hdist,heas⟩
        exact ⟨ea₁ :: eas,s',by rw [hrun]; rfl,hdist,by rw [List.map_cons,heas]⟩
    by_cases hin : c.addr ∈ s.addrs
    · obtain ⟨ea₁,hknown,hcall⟩ := arpwhohas_hit h hin
      have hsame : Function.update known c.addr (some ea₁) = known := by rw [← hknown,Function.update_eq_self]
      exact hnext hcall (by rw [hknown,Option.some_or]) hsame h (Finset.insert_eq_of_mem hin).symm
    · have hout : known c.addr = none := by rw [h.known_eq,lookup_eq_none.mpr hin,Option.map_none]
      obtain hroom | hfull := Nat.lt_or_eq_of_le h.le
      · exact hnext (arpwhohas_miss hin hroom hea) (by rw [hout,hea,Option.none_or]) rfl (h.added hin hroom ea)
          (addrs_added s c.addr ea)
      · refine iff_of_false ?_ ?_
        · rintro ⟨eas,s',hrun,-,-⟩
          rw [run,arpwhohas_full h hin hfull] at hrun
          cases hrun
        · rw [Nat.not_le,← hfull,← h.card_addrs]
          apply Finset.card_lt_card
          refine Finset.ssubset_iff_subset_ne.mpr ⟨Finset.subset_union_left,fun he => hin ?_⟩
          rw [he]
          simp

theorem arpStart_holds (rest : ℕ → ArpEntry) : Holds (arpStart rest) knownStart where
  pos := Nat.one_pos
  first := by simp [arpStart]
  distinct i hi j hj _ := by
    have hone : (arpStart rest).arpNum = 1 := rfl
    omega
  le := show 1 ≤ arpListNum by decide
  known_eq a := by
    by_cases ha : inaddrBroadcast = a
    · simp [knownStart,lookup,arpStart,ha.symm]
    · simp [knownStart,lookup,arpStart,eq_comm]

/-- Where each call hears its host, the cache is right if and only if at most seven hosts are asked. -/
theorem arp_runsRight_iff (rest : ℕ → ArpEntry) (calls : List Call) (hheard : ∀ c ∈ calls, (heard c).isSome) :
    RunsRight rest calls ↔ ((calls.map Call.addr).toFinset.erase inaddrBroadcast).card ≤ 7 := by
  rw [RunsRight,run_iff (arpStart_holds rest) calls hheard]
  have hstart : (arpStart rest).addrs = {inaddrBroadcast} := by simp [Arp.addrs,arpStart]
  have hpos := Finset.card_pos.mpr ⟨_,Finset.mem_insert_self inaddrBroadcast (calls.map Call.addr).toFinset⟩
  rw [hstart,← Finset.insert_eq,← Finset.erase_insert_eq_erase,Finset.card_erase_of_mem (Finset.mem_insert_self _ _),
    arpListNum]
  omega

/-- A host that is asked and answers at once. -/
def hostCall (host : Ip) : Call :=
  let arp (op : ℕ) : EtherArp := ⟨arphrdEther,ethertypeIp,6,4,op,Vector.replicate 6 host.toUInt8,host,bcea,0⟩
  ⟨⟨0,bcea⟩,host,arp arpopRequest,[⟨0,true,some ⟨28,ethertypeArp,arp arpopReply⟩,0⟩]⟩

def noEntry (_ : ℕ) : ArpEntry := ⟨0,bcea⟩

theorem arp_runsRight_iff_two : RunsRight noEntry [hostCall 1,hostCall 2,hostCall 1] :=
  (arp_runsRight_iff noEntry [hostCall 1,hostCall 2,hostCall 1] (by decide)).mpr (by decide)

/-- The eighth host gets an entry behind the list. -/
theorem arp_runsRight_fails : (∀ c ∈ [1,2,3,4,5,6,7,8].map hostCall, (heard c).isSome) ∧
    ¬RunsRight noEntry ([1,2,3,4,5,6,7,8].map hostCall) := by
  refine ⟨by decide,?_⟩
  rintro ⟨eas,s,hrun,-⟩
  have hnone : (run (arpStart noEntry) ([1,2,3,4,5,6,7,8].map hostCall)).isNone := by decide
  rw [hrun] at hnone
  cases hnone

end Runs

end Blub.Stand.ArpCache
