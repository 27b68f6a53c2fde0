import Blub.Stand.Udp

/-! A packet of `sendudp` is accepted by `readudp`, with its payload. -/
namespace Blub.Stand.Udp
open Blub.Bytes

section Checksum
variable {a b : ℕ → UInt8} {p q : ℕ}

/-- The checksum is one of the bytes it is taken of. -/
theorem inCksum_congr {n : ℕ} (hn : n < 2^16) (h : ∀ j < n, a (p+j) = b (q+j)) : inCksum a p n = inCksum b q n := by
  rw [inCksum_eq p hn,inCksum_eq q hn,slice_eq_iff.mpr h]

theorem inCksum_lt (n : ℕ) (hn : n < 2^16) : inCksum a p n < 2^16 := by
  rw [inCksum_eq p hn,internetChecksum]
  omega

/-- The words around one of them. -/
theorem words_split (a : ℕ → UInt8) (p i r : ℕ) :
    words (slice a p (2*i+(2+r))) = words (slice a p (2*i)) ++ leGet a (p+2*i) 2 :: words (slice a (p+2*i+2) r) := by
  have hpair : slice a (p+2*i) (2+r) = a (p+2*i) :: a (p+2*i+1) :: slice a (p+2*i+2) r := by
    rw [Nat.add_comm 2 r]
    rfl
  rw [slice_append,words_append (by simp),hpair,words]
  simp [leGet]

/-- A checksum that is stored in a field that was 0 makes the checksum 0. -/
theorem inCksum_stored {n i : ℕ} (hn : n < 2^16) (hi : 2*i+2 ≤ n) (hzero : leGet a (p+2*i) 2 = 0) :
    inCksum (lePut a (p+2*i) 2 (inCksum a p n)) p n = 0 := by
  obtain ⟨r,rfl⟩ := Nat.exists_eq_add_of_le hi
  rw [Nat.add_assoc] at hn ⊢
  have hlt : inCksum a p (2*i+(2+r) : ℕ) < 256^2 := inCksum_lt _ hn
  have hfront : slice (lePut a (p+2*i) 2 (inCksum a p (2*i+(2+r) : ℕ))) p (2*i) = slice a p (2*i) :=
    slice_eq_iff.mpr fun j hj => lePut_outside (by omega)
  have hback : slice (lePut a (p+2*i) 2 (inCksum a p (2*i+(2+r) : ℕ))) (p+2*i+2) r = slice a (p+2*i+2) r :=
    slice_eq_iff.mpr fun j hj => lePut_outside (by omega)
  have hsum : inCksum a p (2*i+(2+r) : ℕ) = 65535-OnesSum.word (words (slice a p (2*i+(2+r)))).sum := by
    rw [inCksum_eq p hn,internetChecksum,OnesSum.sum_eq fun w hw => words_lt hw]
  rw [inCksum_eq p hn,internetChecksum,OnesSum.sum_eq fun w hw => words_lt hw,words_split,hfront,hback,
    leGet_lePut_of_lt hlt,hsum,words_split a p i r,hzero]
  simp only [List.sum_append,List.sum_cons,Nat.zero_add]
  rw [Nat.add_left_comm,Nat.add_comm _ (_+_),OnesSum.word_complement]

end Checksum

section Sender
variable {d : UdpDesc} {ip len : ℕ} {mem : ℕ → UInt8}

/-- The header fields of `sendudp`, before and after the checksums. -/
structure Headed (d : UdpDesc) (ip len : ℕ) (mem : ℕ → UInt8) : Prop where
  first : (mem ip).toNat = 0x45
  length : leGet mem (ip+2) 2 = htons len
  proto : (mem (ip+9)).toNat = ipprotoUdp
  dst : leGet mem (ip+16) 4 = d.destip.toNat
  dport : leGet mem (ip+22) 2 = d.destport.toNat
  ulen : leGet mem (ip+24) 2 = htons (len-ipSize)

theorem leGet_zero {b : ℕ → UInt8} {o w : ℕ} (h : ∀ j, o ≤ j → j < o+w → b j = 0) : leGet b o w = 0 := by
  induction w generalizing o with
  | zero => rfl
  | succ w ih =>
    have hrest : leGet b (o+1) w = 0 := ih fun j hj hjw => h j (by omega) (by omega)
    simp [leGet,h o le_rfl (by omega),hrest]

theorem toNat_eq_leGet (b : ℕ → UInt8) (o : ℕ) : (b o).toNat = leGet b o 1 := by simp [leGet]

theorem sendHeaders_headed (d : UdpDesc) (ip len : ℕ) (mem : ℕ → UInt8) : Headed d ip len (sendHeaders d ip len mem) := by
  have hdst := d.destip.toNat_lt
  have hdport := d.destport.toNat_lt
  constructor
  · rw [toNat_eq_leGet,sendHeaders,sendIp]
    iterate 9 rw [leGet_lePut_apart (by omega)]
    rw [leGet_lePut]
    rfl
  · rw [sendHeaders,sendIp]
    iterate 8 rw [leGet_lePut_apart (by omega)]
    exact leGet_lePut_of_lt (htons_lt len)
  · rw [toNat_eq_leGet,sendHeaders,sendIp]
    iterate 7 rw [leGet_lePut_apart (by omega)]
    rw [leGet_lePut]
    rfl
  · rw [sendHeaders,sendIp]
    iterate 4 rw [leGet_lePut_apart (by omega)]
    exact leGet_lePut_of_lt hdst
  · rw [sendHeaders]
    rw [leGet_lePut_apart (by omega)]
    exact leGet_lePut_of_lt hdport
  · rw [sendHeaders]
    exact leGet_lePut_of_lt (htons_lt _)

theorem sendHeaders_payload {j : ℕ} (h : ipSize+udpSize ≤ j) : sendHeaders d ip len mem (ip+j) = mem (ip+j) := by
  have hsize : ipSize+udpSize = 28 := rfl
  rw [sendHeaders,sendIp]
  iterate 10 rw [lePut_outside (by omega)]
  exact blit_outside (by omega)

theorem sendHeaders_udpsum (d : UdpDesc) (ip len : ℕ) (mem : ℕ → UInt8) :
    leGet (sendHeaders d ip len mem) (ip+26) 2 = 0 := by
  have hsize : ipSize+udpSize = 28 := rfl
  rw [sendHeaders,sendIp]
  iterate 10 rw [leGet_lePut_apart (by omega)]
  exact leGet_zero fun j hj hjw => blit_inside (by omega) (by omega)

theorem sendIp_ipsum (d : UdpDesc) (ip len : ℕ) (mem : ℕ → UInt8) : leGet (sendIp d ip len mem) (ip+10) 2 = 0 := by
  have hsize : ipSize+udpSize = 28 := rfl
  rw [sendIp]
  iterate 6 rw [leGet_lePut_apart (by omega)]
  exact leGet_zero fun j hj hjw => blit_inside (by omega) (by omega)

theorem sendHeaders_ipsum (d : UdpDesc) (ip len : ℕ) (mem : ℕ → UInt8) :
    inCksum (sendHeaders d ip len mem) ip ipSize = 0 := by
  have hstored := inCksum_stored (a := sendIp d ip len mem) (p := ip) (n := ipSize) (i := 5) (by decide) (by decide)
    (sendIp_ipsum d ip len mem)
  rw [← hstored]
  refine inCksum_congr (by decide) fun j hj => ?_
  have hsize : ipSize = 20 := rfl
  rw [sendHeaders]
  iterate 3 rw [lePut_outside (by omega)]

/-- What `sendudp` hands on are its headers, with the UDP checksum in its place. -/
theorem sendudp_eq (d : UdpDesc) (ip len : ℕ) (mem : ℕ → UInt8) :
    let tip := sendHeaders d ip (len+(ipSize+udpSize)) mem
    sendudp d ip len mem = lePut tip (ip+26) 2 (inCksum (pseudoHeader ip tip) ip (len+(ipSize+udpSize) : ℕ)) := by
  intro tip
  funext j
  have hsize : ipSize = 20 := rfl
  rw [sendudp,restoreIp]
  by_cases hin : ip ≤ j ∧ j < ip+ipSize
  · rw [blit_inside hin.1 hin.2,lePut_outside (by omega),Nat.add_sub_cancel' hin.1]
  · rw [blit_outside (by omega)]
    by_cases hsum : ip+26 ≤ j ∧ j < ip+28
    · rw [lePut,blit_inside hsum.1 hsum.2,lePut,blit_inside hsum.1 hsum.2]
    · rw [lePut_outside (by omega),lePut_outside (by omega),pseudoHeader,lePut_outside (by omega),
        blit_outside (by omega)]

end Sender

section Receiver
variable {d r : UdpDesc} {ip ipr len : ℕ} {mem m : ℕ → UInt8}

theorem sendudp_headed (d : UdpDesc) (ip len : ℕ) (mem : ℕ → UInt8) :
    Headed d ip (len+(ipSize+udpSize)) (sendudp d ip len mem) := by
  have h := sendHeaders_headed d ip (len+(ipSize+udpSize)) mem
  rw [sendudp_eq]
  refine ⟨?_,?_,?_,?_,?_,?_⟩
  · rw [lePut_outside (by omega)]
    exact h.first
  · rw [leGet_lePut_apart (by omega)]
    exact h.length
  · rw [lePut_outside (by omega)]
    exact h.proto
  · rw [leGet_lePut_apart (by omega)]
    exact h.dst
  · rw [leGet_lePut_apart (by omega)]
    exact h.dport
  · rw [leGet_lePut_apart (by omega)]
    exact h.ulen

/-- The packet in the buffer of the receiver. -/
def Arrived (d : UdpDesc) (ip ipr len : ℕ) (mem m : ℕ → UInt8) : Prop :=
  ∀ j < len+(ipSize+udpSize), m (ipr+j) = sendudp d ip len mem (ip+j)

theorem Arrived.field (h : Arrived d ip ipr len mem m) {k w : ℕ} (hk : k+w ≤ len+(ipSize+udpSize)) :
    leGet m (ipr+k) w = leGet (sendudp d ip len mem) (ip+k) w :=
  leGet_shift fun j hj => by rw [Nat.add_assoc,Nat.add_assoc,h _ (by omega)]

theorem Arrived.headed (h : Arrived d ip ipr len mem m) : Headed d ipr (len+(ipSize+udpSize)) m := by
  have hs := sendudp_headed d ip len mem
  have hsize : ipSize+udpSize = 28 := rfl
  refine ⟨?_,?_,?_,?_,?_,?_⟩
  · rw [← hs.first]
    exact congrArg UInt8.toNat (h 0 (by omega))
  · rw [h.field (by omega),hs.length]
  · rw [h _ (by omega),hs.proto]
  · rw [h.field (by omega),hs.dst]
  · rw [h.field (by omega),hs.dport]
  · rw [h.field (by omega),hs.ulen]

theorem Arrived.ipsum (h : Arrived d ip ipr len mem m) : inCksum m ipr ipSize = 0 := by
  rw [← sendHeaders_ipsum d ip (len+(ipSize+udpSize)) mem]
  refine inCksum_congr (by decide) fun j hj => ?_
  have hsize : ipSize = 20 := rfl
  rw [h j (by omega),sendudp_eq,lePut_outside (by omega)]

/-- The sum of the receiver is taken over the bytes of the sender, with its checksum among them. -/
theorem Arrived.udpsum (h : Arrived d ip ipr len mem m) (hlen : len+(ipSize+udpSize) < 2^16) :
    inCksum (pseudoHeader ipr m) ipr (len+(ipSize+udpSize) : ℕ) = 0 := by
  have hsize : ipSize+udpSize = 28 := rfl
  obtain ⟨tip,htip⟩ : ∃ tip, tip = sendHeaders d ip (len+(ipSize+udpSize)) mem := ⟨_,rfl⟩
  have hsent := sendudp_eq d ip len mem
  simp only [← htip] at hsent
  have hzero : leGet (pseudoHeader ip tip) (ip+26) 2 = 0 := by
    rw [← sendHeaders_udpsum d ip (len+(ipSize+udpSize)) mem,← htip]
    refine leGet_congr fun j hj _ => ?_
    rw [pseudoHeader,lePut_outside (by omega),blit_outside (by omega)]
  have hulen : leGet m (ipr+24) 2 = leGet tip (ip+24) 2 := by
    rw [h.field (by omega),hsent,leGet_lePut_apart (by omega)]
  rw [← inCksum_stored (i := 13) hlen (by omega) hzero]
  refine inCksum_congr hlen fun j hj => ?_
  have hj' := h j hj
  rw [hsent] at hj'
  by_cases hsum : 26 ≤ j ∧ j < 28
  · rw [lePut,blit_inside (by omega) (by omega)] at hj' ⊢
    rw [pseudoHeader,lePut_outside (by omega),blit_outside (by omega),hj']
  · rw [lePut_outside (by omega)] at hj' ⊢
    simp only [pseudoHeader,hulen]
    by_cases hfield : 10 ≤ j ∧ j < 12
    · rw [lePut,lePut,blit_inside (by omega) (by omega),blit_inside (by omega) (by omega)]
      congr 3
      omega
    · rw [lePut_outside (by omega),lePut_outside (by omega)]
      by_cases hfirst : j < 9
      · rw [blit_inside (by omega) (by omega),blit_inside (by omega) (by omega)]
      · rw [blit_outside (by omega),blit_outside (by omega),hj']

theorem Arrived.payload (h : Arrived d ip ipr len mem m) :
    slice m (ipr+ipSize+udpSize) len = slice mem (ip+ipSize+udpSize) len := by
  have hsize : ipSize = 20 := rfl
  have husize : udpSize = 8 := rfl
  refine slice_eq_iff.mpr fun j hj => ?_
  have hbyte := h (ipSize+udpSize+j) (by omega)
  rw [sendudp_eq,lePut_outside (by omega),sendHeaders_payload (by omega)] at hbyte
  rw [show ipr+ipSize+udpSize+j = ipr+(ipSize+udpSize+j) by omega,hbyte]
  congr 1
  omega

theorem Arrived.read (h : Arrived d ip ipr len mem m) (hlen : len ≤ 1472) (hport : r.myport = d.destport) {n : ℕ}
    (hn : len+(ipSize+udpSize) ≤ n) : ∃ g, readUdpHeader r ipr ipSize n m = some g ∧ g.n = len ∧
      slice g.mem (ipr+ipSize+udpSize) len = slice mem (ip+ipSize+udpSize) len := by
  have hsize : ipSize = 20 := rfl
  have husize : udpSize = 8 := rfl
  have hrecv : recvSize-etherSize = 1522 := rfl
  have hu : ntohs (leGet m (ipr+24) 2) = len+udpSize := by
    rw [h.headed.ulen,ntohs_htons (by omega)]
    omega
  have hlast : ∀ k : ℤ, (len : ℤ) < k → udpLength (len+udpSize) k = len := by
    intro k hk
    rw [udpLength_of_lt (by omega),Nat.add_sub_cancel]
  have hp : leGet m (ipr+22) 2 = r.myport.toNat := by rw [h.headed.dport,hport]
  rw [readUdpHeader]
  simp only [hu]
  rw [if_neg (not_not.mpr hp)]
  by_cases hsum : leGet m (ipr+26) 2 = 0
  · rw [if_neg (not_not.mpr hsum),if_neg (by omega)]
    exact ⟨_,rfl,hlast _ (by omega),h.payload⟩
  · have hzero := h.udpsum (by omega)
    rw [show len+(ipSize+udpSize) = len+udpSize+ipSize by omega] at hzero
    rw [if_pos hsum,if_neg (by omega),if_neg (not_not.mpr hzero),if_neg (by omega)]
    refine ⟨_,rfl,hlast _ (by omega),?_⟩
    rw [← h.payload]
    refine slice_eq_iff.mpr fun j _ => ?_
    simp only [restoreIp]
    rw [blit_outside (by omega),pseudoHeader,lePut_outside (by omega),blit_outside (by omega)]

/-- `readudp` up to the port. -/
theorem Arrived.readudp (h : Arrived d ip ipr len mem m) {want : ℕ} {f : EtherFrame} {memr : ℕ → UInt8}
    (hlen : len ≤ 1472) (hip : r.myip = 0 ∨ r.myip = d.destip) (hf : f.etype = ethertypeIp)
    (hm : m = blit memr ipr (received want f).length fun j => (received want f).getD j 0)
    (hn : len+(ipSize+udpSize) ≤ (received want f).length) :
    readudp r ipr want f memr = readUdpHeader r ipr ipSize (received want f).length m := by
  have hhead := h.headed
  have hfirst := hhead.first
  have hlength := hhead.length
  have hdst := hhead.dst
  have hproto := hhead.proto
  have hipsum := h.ipsum
  have hsize : ipSize = 20 := rfl
  have husize : udpSize = 8 := rfl
  have hours : ¬(r.myip ≠ 0 ∧ d.destip.toNat ≠ r.myip.toNat) := by
    rintro ⟨hne,hno⟩
    obtain hip | hip := hip
    · exact hne hip
    · exact hno (by rw [hip])
  have hgood : ¬(0x45%16*4 < ipSize ∨ inCksum m ipr (0x45%16*4 : ℕ) ≠ 0) := by
    rintro (hshort | hbad)
    · exact absurd hshort (by decide)
    · exact hbad hipsum
  rw [Udp.readudp]
  simp only [← hm,hf]
  rw [if_neg (by omega),if_neg (by decide),if_neg (not_not.mpr rfl),hfirst,hproto,if_neg (by decide),if_neg hgood,
    hlength,ntohs_htons (by omega),if_neg (by omega),hdst,if_neg hours,if_neg (by decide)]
  rfl

end Receiver

/-- The frame of a packet, with what follows the packet in it. -/
def packetFrame (d : UdpDesc) (ip len : ℕ) (mem : ℕ → UInt8) (pad : List UInt8) : EtherFrame :=
  ⟨ethertypeIp,slice (sendudp d ip len mem) ip (len+(ipSize+udpSize)) ++ pad⟩

/-- A byte of the packet that was stored. -/
theorem received_byte (d : UdpDesc) (ip len want : ℕ) (mem : ℕ → UInt8) (pad : List UInt8) {j : ℕ}
    (hj : j < len+(ipSize+udpSize)) (hn : j < (received want (packetFrame d ip len mem pad)).length) :
    (received want (packetFrame d ip len mem pad)).getD j 0 = sendudp d ip len mem (ip+j) := by
  rw [List.getD_eq_getElem _ _ hn]
  simp only [received,packetFrame,List.getElem_take]
  rw [List.getElem_append_left (by simpa using hj),getElem_slice]

theorem received_length (d : UdpDesc) (ip len want : ℕ) (mem : ℕ → UInt8) (pad : List UInt8) :
    (received want (packetFrame d ip len mem pad)).length = min (want+(ipSize+udpSize)) (len+(ipSize+udpSize)+pad.length) := by
  rw [received,packetFrame,List.length_take,List.length_append,length_slice]

/-- A packet that says that it is longer than what has come in is refused. -/
theorem readudp_cut {d : UdpDesc} {ip len : ℕ} {f : EtherFrame} {mem : ℕ → UInt8}
    (h : (received len f).length <
      ntohs (leGet (blit mem ip (received len f).length fun j => (received len f).getD j 0) (ip+2) 2)) :
    readudp d ip len f mem = none := by
  rw [readudp]
  dsimp only
  generalize (received len f).length = n at h ⊢
  generalize (blit mem ip n fun j => (received len f).getD j 0) = m at h ⊢
  by_cases hsmall : n < ipSize+udpSize
  · exact if_pos hsmall
  rw [if_neg hsmall]
  by_cases harp : f.etype = ethertypeArp
  · exact if_pos harp
  rw [if_neg harp]
  by_cases hetype : f.etype ≠ ethertypeIp
  · exact if_pos hetype
  rw [if_neg hetype]
  by_cases hproto : (m ip).toNat >>> 4 ≠ ipVersion ∨ (m (ip+9)).toNat ≠ ipprotoUdp
  · exact if_pos hproto
  rw [if_neg hproto]
  by_cases hsum : (m ip).toNat%16*4 < ipSize ∨ inCksum m ip (((m ip).toNat%16*4 : ℕ) : ℤ) ≠ 0
  · exact if_pos hsum
  rw [if_neg hsum,if_pos h]

section Frame
variable {d r : UdpDesc} {ip ipr len want : ℕ} {mem memr : ℕ → UInt8} {pad : List UInt8}

/-- A packet that is not longer than what was asked for is read. -/
theorem readudp_reads (hlen : len ≤ 1472) (hwant : len ≤ want) (hip : r.myip = 0 ∨ r.myip = d.destip)
    (hport : r.myport = d.destport) : ∃ g, readudp r ipr want (packetFrame d ip len mem pad) memr = some g ∧
      g.n = len ∧ slice g.mem (ipr+ipSize+udpSize) len = slice mem (ip+ipSize+udpSize) len := by
  have hn : len+(ipSize+udpSize) ≤ (received want (packetFrame d ip len mem pad)).length := by
    rw [received_length]
    omega
  have harrived : Arrived d ip ipr len mem (blit memr ipr (received want (packetFrame d ip len mem pad)).length
      fun j => (received want (packetFrame d ip len mem pad)).getD j 0) := by
    intro j hj
    rw [blit_inside (by omega) (by omega),Nat.add_sub_cancel_left,received_byte d ip len want mem pad hj (by omega)]
  rw [harrived.readudp hlen hip rfl rfl hn]
  exact harrived.read hlen hport hn

/-- One that is longer is refused: it was cut. -/
theorem readudp_refuses (hlen : len ≤ 1472) (hwant : want < len) :
    readudp r ipr want (packetFrame d ip len mem pad) memr = none := by
  have hsize : ipSize = 20 := rfl
  have husize : udpSize = 8 := rfl
  have hn : (received want (packetFrame d ip len mem pad)).length = want+(ipSize+udpSize) := by
    rw [received_length]
    omega
  have hbyte : ∀ j, j < want+(ipSize+udpSize) → (received want (packetFrame d ip len mem pad)).getD j 0 =
      sendudp d ip len mem (ip+j) := fun j hj => received_byte d ip len want mem pad (by omega) (by omega)
  have hlength : ntohs (leGet (blit memr ipr (want+(ipSize+udpSize))
      fun j => (received want (packetFrame d ip len mem pad)).getD j 0) (ipr+2) 2) = len+(ipSize+udpSize) := by
    rw [← ntohs_htons (show len+(ipSize+udpSize) < 2^16 by omega),← (sendudp_headed d ip len mem).length]
    refine congrArg ntohs (leGet_shift fun j hj => ?_)
    rw [blit_inside (by omega) (by omega),hbyte _ (by omega)]
    congr 1
    omega
  refine readudp_cut ?_
  rw [hn,hlength]
  omega

end Frame

/-- `in_cksum` is the Internet checksum, and what is sent to a port of a host is read there, whatever follows the packet in
its frame. -/
theorem udp_round_trip :
    (∀ (mem : ℕ → UInt8) (p n : ℕ), n < 2^16 → inCksum mem p n = internetChecksum (slice mem p n)) ∧
    ∀ (d r : UdpDesc) (ip ipr len want : ℕ) (mem memr : ℕ → UInt8) (pad : List UInt8), len ≤ 1472 → len ≤ want →
      r.myip = 0 ∨ r.myip = d.destip → r.myport = d.destport →
      ∃ g, readudp r ipr want ⟨ethertypeIp,slice (sendudp d ip len mem) ip (len+(ipSize+udpSize)) ++ pad⟩ memr = some g ∧
        g.n = len ∧ slice g.mem (ipr+ipSize+udpSize) len = slice mem (ip+ipSize+udpSize) len := by
  refine ⟨fun mem p n hn => inCksum_eq p hn,?_⟩
  intro d r ip ipr len want mem memr pad hlen hwant hip hport
  exact readudp_reads hlen hwant hip hport

/-- Three bytes at an odd address, to a host that has no address of its own yet, in a frame padded to 46 bytes. -/
theorem udp_round_trip_odd :
    ∃ g, readudp freshDesc 100 512 ⟨ethertypeIp,slice (sendudp ⟨0x0100007f,0,0,0xd007⟩ 1 3 fun j => UInt8.ofNat j) 1 31 ++
        List.replicate 15 0⟩ (fun _ => 0) = some g ∧
      g.n = 3 ∧ slice g.mem 128 3 = [29,30,31] :=
  udp_round_trip.2 ⟨0x0100007f,0,0,0xd007⟩ freshDesc 1 100 3 512 (fun j => UInt8.ofNat j) (fun _ => 0)
    (List.replicate 15 0) (by decide) (by decide) (.inl rfl) rfl

end Blub.Stand.Udp
