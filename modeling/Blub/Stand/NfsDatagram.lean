import Blub.Stand.Nfs
import Blub.Stand.UdpRoundTrip

/-! The datagrams of the calls over NFS as UDP packets: what `readudp` is taken to do with an answer is what `udp.c` does
with the frame that carries it. -/
namespace Blub.Stand
open Blub.Bytes Udp

/-- A datagram in a packet to the port is read as a whole, or refused where it is longer than what was asked for. What
is stored of it are its bytes. -/
theorem readudp_datagram {d r : UdpDesc} {ip ipr len want : ℕ} (hlen : len ≤ 1472) (hip : r.myip = 0 ∨ r.myip = d.destip)
    (hport : r.myport = d.destport) (mem memr : ℕ → UInt8) (pad : List UInt8) (buf : ℕ → UInt8) :
    (Udp.readudp r ipr want (packetFrame d ip len mem pad) memr).map (·.n) =
      (readudp want (some (slice mem (ip+ipSize+udpSize) len)) buf).1 ∧
    ∀ g, Udp.readudp r ipr want (packetFrame d ip len mem pad) memr = some g → ∀ j < len,
      g.mem (ipr+ipSize+udpSize+j) = (readudp want (some (slice mem (ip+ipSize+udpSize) len)) buf).2 j := by
  have hsize : (slice mem (ip+ipSize+udpSize) len).length = len := length_slice _ _ _
  obtain hwant | hwant := le_or_gt len want
  · obtain ⟨g,hg,hn,hbytes⟩ : ∃ g, Udp.readudp r ipr want (packetFrame d ip len mem pad) memr = some g ∧ g.n = len ∧
        slice g.mem (ipr+ipSize+udpSize) len = slice mem (ip+ipSize+udpSize) len := readudp_reads hlen hwant hip hport
    rw [hg,readudp,hsize,if_pos hwant]
    refine ⟨by rw [Option.map_some,hn],?_⟩
    rintro g' hg' j hj
    obtain rfl := Option.some.inj hg'
    dsimp only
    rw [min_eq_left hwant,blit_inside (Nat.zero_le j) (by omega),Nat.sub_zero,ofList,
      List.getD_eq_getElem _ _ (by rw [hsize]; exact hj),getElem_slice]
    exact slice_eq_iff.mp hbytes j hj
  · rw [readudp_refuses hlen hwant,readudp,hsize,if_neg (not_le.mpr hwant)]
    exact ⟨rfl,fun g hg => by cases hg⟩

end Blub.Stand
