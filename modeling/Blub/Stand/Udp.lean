import Blub.Stand.InCksum

/-! UDP packets: `sendudp` and `readudp`, from `udp.c`. Both lay a pseudo-header over the IP header to take the checksum, and
put the header back afterwards. All places are relative to the IP header: the UDP header is at 20, the payload at 28. -/
namespace Blub.Stand.Udp
open Blub.Bytes

/-- Addresses and ports are kept in network order, as they stand in a packet. -/
structure UdpDesc where
  myip : UInt32
  destip : UInt32
  myport : UInt16
  destport : UInt16

/-- A frame, with what follows its Ethernet header. -/
structure EtherFrame where
  etype : ℕ
  data : List UInt8

def ethertypeIp : ℕ := 0x0800
def ethertypeArp : ℕ := 0x0806
def ipVersion : ℕ := 4
def ipprotoUdp : ℕ := 17
def ipTtl : ℕ := 4
def ipSize : ℕ := 20
def udpSize : ℕ := 8
def recvSize : ℕ := 1536
def etherSize : ℕ := 14

def htons (v : ℕ) : ℕ := v%256*256+v/256%256
def ntohs (v : ℕ) : ℕ := htons v

section Code
variable (d : UdpDesc) (ip : ℕ)

/-- The `struct udpiphdr` over the IP header: nine zeros, and the length of the UDP header in the place of `ip_sum`. -/
def pseudoHeader (mem : ℕ → UInt8) : ℕ → UInt8 :=
  lePut (blit mem ip 9 fun _ => 0) (ip+10) 2 (leGet mem (ip+24) 2)

/-- `*ip = tip`. -/
def restoreIp (tip mem : ℕ → UInt8) : ℕ → UInt8 := blit mem ip ipSize fun j => tip (ip+j)

/-- The IP header of `sendudp` without its checksum. -/
def sendIp (len : ℕ) (mem : ℕ → UInt8) : ℕ → UInt8 :=
  let mem := blit mem ip (ipSize+udpSize) fun _ => 0
  let mem := lePut mem ip 1 (ipVersion <<< 4+ipSize >>> 2)
  let mem := lePut mem (ip+2) 2 (htons len)
  let mem := lePut mem (ip+9) 1 ipprotoUdp
  let mem := lePut mem (ip+8) 1 ipTtl
  let mem := lePut mem (ip+12) 4 d.myip.toNat
  lePut mem (ip+16) 4 d.destip.toNat

/-- The headers of `sendudp` without the UDP checksum. -/
def sendHeaders (len : ℕ) (mem : ℕ → UInt8) : ℕ → UInt8 :=
  let mem := sendIp d ip len mem
  let mem := lePut mem (ip+10) 2 (inCksum mem ip ipSize)
  let mem := lePut mem (ip+20) 2 d.myport.toNat
  let mem := lePut mem (ip+22) 2 d.destport.toNat
  lePut mem (ip+24) 2 (htons (len-ipSize))

/-- `sendudp`, for a payload of `len` bytes: the memory when the packet is handed to `sendether`. -/
def sendudp (len : ℕ) (mem : ℕ → UInt8) : ℕ → UInt8 :=
  let len := len+(ipSize+udpSize)
  let tip := sendHeaders d ip len mem
  let ui := pseudoHeader ip tip
  restoreIp ip tip (lePut ui (ip+26) 2 (inCksum ui ip len))

/-- What `readudp` returns, the memory, and the lengths over which checksums were taken. -/
structure UdpGot where
  n : ℕ
  mem : ℕ → UInt8
  ipsum : ℕ
  udpsum : Option ℕ

/-- The end of `readudp`: `n` is a `ssize_t` that is compared as a `size_t`. -/
def udpLength (ulen : ℕ) (n : ℤ) : ℕ := if n < 0 ∨ ulen-udpSize < n then ulen-udpSize else n.toNat

/-- `readudp` from the port on, with `n` bytes at `ip`. -/
def readUdpHeader (hlen : ℕ) (n : ℤ) (mem : ℕ → UInt8) : Option UdpGot :=
  let ulen := ntohs (leGet mem (ip+24) 2)
  if leGet mem (ip+22) 2 ≠ d.myport.toNat then none
  else if leGet mem (ip+26) 2 ≠ 0 then
    let n := ulen+ipSize
    if recvSize-etherSize < n then none
    else
      let ui := pseudoHeader ip mem
      if inCksum ui ip n ≠ 0 then none
      else if ulen < udpSize then none
      else some ⟨udpLength ulen n,restoreIp ip mem ui,hlen,some n⟩
  else if ulen < udpSize then none
  else some ⟨udpLength ulen n,mem,hlen,none⟩

/-- IP options are made to go away: `len-hlen` bytes are moved down over them. -/
def dropOptions (len hlen : ℕ) (mem : ℕ → UInt8) : ℕ → UInt8 :=
  lePut (blit mem (ip+20) (len-hlen) fun j => mem (ip+hlen+j)) (ip+2) 2 (htons ipSize)

/-- What `readether` stores: at most `len` bytes of the payload and the two headers. -/
def received (len : ℕ) (f : EtherFrame) : List UInt8 := f.data.take (len+(ipSize+udpSize))

/-- `readudp`, when a frame comes in. ARP requests are answered and dropped. There is no result either where `len-hlen` is
below 0: that many bytes, as a `size_t`, are not moved. -/
def readudp (len : ℕ) (f : EtherFrame) (mem : ℕ → UInt8) : Option UdpGot :=
  let n := (received len f).length
  let mem := blit mem ip n fun j => (received len f).getD j 0
  if n < ipSize+udpSize then none
  else if f.etype = ethertypeArp then none
  else if f.etype ≠ ethertypeIp then none
  else if (mem ip).toNat >>> 4 ≠ ipVersion ∨ (mem (ip+9)).toNat ≠ ipprotoUdp then none
  else
    let hlen := (mem ip).toNat%16*4
    if hlen < ipSize ∨ inCksum mem ip hlen ≠ 0 then none
    else if n < ntohs (leGet mem (ip+2) 2) then none
    else if d.myip ≠ 0 ∧ leGet mem (ip+16) 4 ≠ d.myip.toNat then none
    else if hlen ≠ ipSize then
      if len < hlen then none else readUdpHeader d ip hlen (n-(hlen-ipSize)) (dropOptions ip len hlen mem)
    else readUdpHeader d ip hlen n mem

end Code

theorem htons_lt (v : ℕ) : htons v < 2^16 := by
  unfold htons
  omega

theorem ntohs_htons {v : ℕ} (h : v < 2^16) : ntohs (htons v) = v := by
  obtain ⟨a,b,ha,hb,rfl⟩ : ∃ a b, a < 256 ∧ b < 256 ∧ v = 256*a+b := ⟨v/256,v%256,by omega,by omega,by omega⟩
  have hlow : (256*a+b)%256 = b := by omega
  have hhigh : (256*a+b)/256 = a := by omega
  have hlow' : (b*256+a)%256 = a := by omega
  have hhigh' : (b*256+a)/256 = b := by omega
  simp only [ntohs,htons,hlow,hhigh,Nat.mod_eq_of_lt ha,hlow',hhigh',Nat.mod_eq_of_lt hb]
  omega

section Lengths
variable {d : UdpDesc} {ip len : ℕ} {f : EtherFrame} {mem : ℕ → UInt8} {g : UdpGot}

/-- The length of the IP header of a frame. -/
def ipHlen (data : List UInt8) : ℕ := (data.getD 0 0).toNat%16*4

/-- The memory with a frame in it, without its options. -/
def landed (ip len : ℕ) (data : List UInt8) (mem : ℕ → UInt8) : ℕ → UInt8 :=
  let mem := blit mem ip data.length fun j => data.getD j 0
  if ipHlen data ≠ ipSize then dropOptions ip len (ipHlen data) mem else mem

/-- The length in the UDP header that `readudp` finds. -/
def udpUlen (ip len : ℕ) (data : List UInt8) (mem : ℕ → UInt8) : ℕ := ntohs (leGet (landed ip len data mem) (ip+24) 2)

/-- What is returned lies inside of what was asked for and of what was received, and so does all that a checksum was taken
of. -/
structure UdpSound (ip len : ℕ) (data : List UInt8) (g : UdpGot) : Prop where
  asked : g.n ≤ len
  inside : ipHlen data+udpSize+g.n ≤ data.length
  payload : slice g.mem (ip+ipSize+udpSize) g.n = (data.drop (ipHlen data+udpSize)).take g.n
  ipsum : g.ipsum ≤ data.length
  udpsum : ∀ k ∈ g.udpsum, k+(ipHlen data-ipSize) ≤ data.length

/-- The two lengths agree with that of the frame, and no byte of the datagram is left behind where options are removed. -/
structure UdpHonest (ip len : ℕ) (data : List UInt8) (mem : ℕ → UInt8) : Prop where
  inside : ipHlen data+udpUlen ip len data mem ≤ data.length
  moved : ipHlen data ≠ ipSize → ∀ j, udpSize ≤ j → j < udpUlen ip len data mem → len ≤ ipHlen data+j →
    data.getD (ipSize+j) 0 = data.getD (ipHlen data+j) 0

theorem udpLength_full (ulen : ℕ) : udpLength ulen (ulen+ipSize : ℕ) = ulen-udpSize := by
  unfold udpLength
  split_ifs
  · rfl
  · simp only [ipSize,udpSize] at *
    omega

/-- What `readUdpHeader` returns. -/
theorem readUdpHeader_some {hlen : ℕ} {n : ℤ} (h : readUdpHeader d ip hlen n mem = some g) :
    udpSize ≤ ntohs (leGet mem (ip+24) 2) ∧ g.ipsum = hlen ∧ (∀ j, ip+ipSize ≤ j → g.mem j = mem j) ∧
      ((g.n = ntohs (leGet mem (ip+24) 2)-udpSize ∧ g.udpsum = some (ntohs (leGet mem (ip+24) 2)+ipSize)) ∨
        (g.n = udpLength (ntohs (leGet mem (ip+24) 2)) n ∧ g.udpsum = none)) := by
  unfold readUdpHeader at h
  dsimp only at h
  split_ifs at h with hport hsum hhuge hbad hshort hshort
  · obtain rfl := Option.some.inj h
    refine ⟨by omega,rfl,fun j hj => ?_,.inl ⟨udpLength_full _,rfl⟩⟩
    simp only [restoreIp,pseudoHeader,ipSize] at hj ⊢
    rw [blit_outside (by omega),lePut_outside (by omega),blit_outside (by omega)]
  · obtain rfl := Option.some.inj h
    exact ⟨by omega,rfl,fun j _ => rfl,.inr ⟨rfl,rfl⟩⟩

/-- What `readudp` returns comes from `readUdpHeader`. -/
theorem readudp_some (h : readudp d ip len f mem = some g) :
    ipSize+udpSize ≤ (received len f).length ∧ ipSize ≤ ipHlen (received len f) ∧
      (ipHlen (received len f) ≠ ipSize → ipHlen (received len f) ≤ len) ∧
      readUdpHeader d ip (ipHlen (received len f)) ((received len f).length-(ipHlen (received len f)-ipSize))
        (landed ip len (received len f) mem) = some g := by
  have hhead : ipSize+udpSize ≤ (received len f).length →
      (blit mem ip (received len f).length (fun j => (received len f).getD j 0) ip).toNat%16*4 = ipHlen (received len f) := by
    intro hn
    rw [blit_inside le_rfl (by simp only [ipSize] at hn; omega),Nat.sub_self,ipHlen]
  unfold readudp at h
  dsimp only at h
  by_cases hn : (received len f).length < ipSize+udpSize
  · rw [if_pos hn] at h
    cases h
  rw [if_neg hn,hhead (by omega)] at h
  split_ifs at h with harp hip hver hsum hlong hours hopt hshort
  · refine ⟨by omega,by omega,fun _ => by omega,?_⟩
    rw [landed,if_pos hopt]
    exact h
  · have hno : ipHlen (received len f) = ipSize := not_not.mp hopt
    refine ⟨by omega,by omega,fun hne => absurd hno hne,?_⟩
    rw [landed,if_neg hopt,hno,sub_self,sub_zero]
    rwa [hno] at h

/-- A byte behind the IP header, after options were removed: one that was moved down, or one that was left behind. -/
theorem landed_eq {data : List UInt8} (hlen : ipSize ≤ ipHlen data) {j : ℕ} (hj : ipHlen data+j < data.length) :
    (ipHlen data ≠ ipSize ∧ len ≤ ipHlen data+j → landed ip len data mem (ip+ipSize+j) = data.getD (ipSize+j) 0) ∧
    (¬(ipHlen data ≠ ipSize ∧ len ≤ ipHlen data+j) → landed ip len data mem (ip+ipSize+j) = data.getD (ipHlen data+j) 0) := by
  have hsize : ipSize = 20 := rfl
  have hbyte : ∀ i < data.length, blit mem ip data.length (fun j => data.getD j 0) (ip+i) = data.getD i 0 := by
    intro i hi
    rw [blit_inside (by omega) (by omega),Nat.add_sub_cancel_left]
  by_cases hopt : ipHlen data = ipSize
  · refine ⟨fun h => absurd hopt h.1,fun _ => ?_⟩
    rw [landed,if_neg (by simpa using hopt),Nat.add_assoc,hbyte _ (by omega),hopt]
  · have hkeep : ∀ b : ℕ → UInt8, lePut b (ip+2) 2 (htons ipSize) (ip+ipSize+j) = b (ip+ipSize+j) :=
      fun b => lePut_outside (by omega)
    rw [landed,if_pos hopt,dropOptions,hkeep]
    constructor
    · intro h
      rw [blit_outside (by omega),Nat.add_assoc,hbyte _ (by omega)]
    · intro h
      have hlt : ipHlen data+j < len := by
        by_contra hle
        exact h ⟨hopt,by omega⟩
      rw [blit_inside (by omega) (by omega),← hbyte _ hj]
      congr 1
      omega

theorem udpLength_of_lt {ulen : ℕ} {n : ℤ} (h : (ulen-udpSize : ℤ) < n) :
    udpLength ulen n = ulen-udpSize := if_pos (.inr (by omega))

/-- A length below that of the UDP header counts the headers in. -/
theorem udpLength_ne {ulen : ℕ} {n : ℤ} (h : udpLength ulen n ≠ ulen-udpSize) : (udpLength ulen n : ℤ) = n := by
  unfold udpLength at h ⊢
  split_ifs at h ⊢ with hn
  · exact absurd rfl h
  · omega

/-- The payload that `readudp` returns, byte by byte. -/
theorem payload_iff {data : List UInt8} {n : ℕ} (hn : ipHlen data+udpSize+n ≤ data.length) :
    slice g.mem (ip+ipSize+udpSize) n = (data.drop (ipHlen data+udpSize)).take n ↔
      ∀ k < n, g.mem (ip+ipSize+(udpSize+k)) = data.getD (ipHlen data+(udpSize+k)) 0 := by
  have hright : (data.drop (ipHlen data+udpSize)).take n = slice (ofList data) (ipHlen data+udpSize) n := by
    apply List.ext_getElem
    · simp
      omega
    · intro k h₁ h₂
      simp only [length_slice] at h₂
      rw [getElem_slice,List.getElem_take,List.getElem_drop,ofList,List.getD_eq_getElem _ _ (by omega)]
  rw [hright,slice_eq_iff]
  simp only [ofList,Nat.add_assoc]

/-- What `readudp` returns is sound exactly when the frame does not lie about its lengths. -/
theorem readudp_sound_iff (h : readudp d ip len f mem = some g) :
    UdpSound ip len (received len f) g ↔ UdpHonest ip len (received len f) mem := by
  have hsize : ipSize = 20 := rfl
  have husize : udpSize = 8 := rfl
  obtain ⟨hn,hlen,-,hread⟩ := readudp_some h
  obtain ⟨hulen,hip,hmem,hcase⟩ := readUdpHeader_some hread
  have hN : (received len f).length ≤ len+(ipSize+udpSize) := by
    rw [received,List.length_take]
    exact min_le_left _ _
  rw [← udpUlen] at hulen hcase
  generalize received len f = data at *
  obtain ⟨u,hu⟩ : ∃ u, udpUlen ip len data mem = u := ⟨_,rfl⟩
  rw [hu] at hulen hcase
  constructor
  · intro hs
    have hinside := hs.inside
    have hgn : g.n = u-udpSize := by
      obtain ⟨hgn,-⟩ | ⟨hgn,-⟩ := hcase
      · exact hgn
      · by_contra hne
        have hlong := udpLength_ne (hgn ▸ hne)
        rw [← hgn] at hlong
        omega
    have hpay := (payload_iff hinside).mp hs.payload
    refine ⟨by omega,fun hopt j hj hju hmoved => ?_⟩
    rw [hu] at hju
    have hbyte := hpay (j-udpSize) (by omega)
    rw [show udpSize+(j-udpSize) = j by omega,hmem _ (by omega),(landed_eq hlen (by omega)).1 ⟨hopt,hmoved⟩] at hbyte
    exact hbyte
  · intro hh
    have hinside := hh.inside
    rw [hu] at hinside
    have hgn : g.n = u-udpSize := by
      obtain ⟨hgn,-⟩ | ⟨hgn,-⟩ := hcase
      · exact hgn
      · rw [hgn,udpLength_of_lt (by omega)]
    refine ⟨by omega,by omega,(payload_iff (by omega)).mpr fun k hk => ?_,by omega,fun k hk => ?_⟩
    · rw [hmem _ (by omega)]
      by_cases hmoved : ipHlen data ≠ ipSize ∧ len ≤ ipHlen data+(udpSize+k)
      · rw [(landed_eq hlen (by omega)).1 hmoved]
        exact hh.moved hmoved.1 _ (by omega) (by omega) hmoved.2
      · exact (landed_eq hlen (by omega)).2 hmoved
    · obtain ⟨-,hsum⟩ | ⟨-,hsum⟩ := hcase
      · obtain rfl := Option.mem_some_iff.mp (hsum ▸ hk)
        omega
      · rw [hsum] at hk
        cases hk

end Lengths

/-- A client at port 2000 without an address of its own yet. -/
def freshDesc : UdpDesc := ⟨0,0,0xd007,0⟩

/-- A packet to port 2000 with two bytes of payload and no UDP checksum, with the length of its UDP header. -/
def shortFrame (ulen : List UInt8) : EtherFrame :=
  ⟨ethertypeIp,[0x45,0,0,30,0,0,0,0,64,17,0x7a,0xd0,0,0,0,0,0,0,0,0,0,69,7,0xd0] ++ ulen ++ [0,0,1,2]⟩

/-- Two bytes that are sent are received. -/
theorem readudp_sound_iff_short : ∃ g, readudp freshDesc 0 512 (shortFrame [0,10]) (fun _ => 0) = some g ∧
    UdpSound 0 512 (received 512 (shortFrame [0,10])) g := by
  have hsome : (readudp freshDesc 0 512 (shortFrame [0,10]) fun _ => 0).isSome = true := by decide
  obtain ⟨g,hg⟩ := Option.isSome_iff_exists.mp hsome
  have hip : ipHlen (received 512 (shortFrame [0,10])) = ipSize := by decide
  exact ⟨g,hg,(readudp_sound_iff hg).mpr ⟨by decide,fun h => absurd hip h⟩⟩

/-- A length that is not true: of the 30 bytes that are returned only 2 were received. -/
theorem readudp_counts_headers : ∃ g, readudp freshDesc 0 512 (shortFrame [1,0]) (fun _ => 0) = some g ∧ g.n = 30 ∧
    ¬UdpSound 0 512 (received 512 (shortFrame [1,0])) g := by
  have hn : (readudp freshDesc 0 512 (shortFrame [1,0]) fun _ => 0).map (·.n) = some 30 := by decide
  obtain ⟨g,hg,hgn⟩ := Option.map_eq_some_iff.mp hn
  refine ⟨g,hg,hgn,fun hs => ?_⟩
  have hin := hs.inside
  rw [hgn] at hin
  revert hin
  decide

end Blub.Stand.Udp
