import Blub.Stand.DosDir

/-! What `ioread` gives: the bytes of the device, for offsets of 32 bits. -/
namespace Blub.Stand
open Blub.Bytes

namespace DosVol
variable {v : DosVol} {b : DosBuf}

/-- The buffer holds the sector it is said to. -/
def Cached (v : DosVol) (b : DosBuf) : Prop := ∀ j < secsiz, b.buf j = v.ioget b.bufsec j

theorem iobuf_spec (h : v.Cached b) (lsec : ℕ) :
    v.Cached (v.iobuf lsec b) ∧ ∀ j < secsiz, (v.iobuf lsec b).buf j = v.ioget lsec j := by
  rw [iobuf]
  split_ifs with hsec
  · exact ⟨fun _ _ => rfl,fun _ _ => rfl⟩
  · rw [not_not] at hsec
    exact ⟨h,fun j hj => hsec ▸ h j hj⟩

/-- The byte of the device that is `j` bytes after an offset of type `u_int`. -/
def after (v : DosVol) (offset j : ℕ) : UInt8 := v.dev ((offset+j)%2^32)

theorem range_map_append {α : Type*} {m n : ℕ} {f g h : ℕ → α} (hf : ∀ j < m, f j = h j) (hg : ∀ j < n, g j = h (m+j)) :
    (List.range m).map f ++ (List.range n).map g = (List.range (m+n)).map h := by
  rw [List.range_add,List.map_append,List.map_map]
  congr 1
  · exact List.map_congr_left fun j hj => hf j (List.mem_range.mp hj)
  · exact List.map_congr_left fun j hj => hg j (List.mem_range.mp hj)

/-- The bytes of a sector are after its offset. -/
theorem after_sector {offset j : ℕ} (ho : offset < 2^32) (hj : offset%secsiz+j < secsiz) :
    v.ioget (offset/secsiz) (offset%secsiz+j) = v.after offset j := by
  have hsec : secsiz = 512 := rfl
  rw [hsec] at hj
  have hword : (offset+j)%2^32 = offset+j := Nat.mod_eq_of_lt (by omega)
  have haddr : secsiz*(offset/secsiz)+(offset%secsiz+j) = offset+j := by rw [hsec]; omega
  rw [after,hword,ioget,haddr]

/-- The first part ends at the end of a sector, or is all. -/
theorem ioreadHead_spec (h : v.Cached b) {offset : ℕ} (nbyte : ℕ) (ho : offset < 2^32) :
    ∃ n o b', v.ioreadHead offset nbyte b = ((List.range n).map (v.after offset),o,nbyte-n,b') ∧ v.Cached b' ∧
      n ≤ nbyte ∧ n < secsiz ∧ (n < nbyte → o = (offset+n)%2^32 ∧ o%secsiz = 0) := by
  have hsec : secsiz = 512 := rfl
  by_cases hoff : offset%secsiz = 0
  · refine ⟨0,offset,b,?_,h,Nat.zero_le _,by decide,fun _ => ⟨(Nat.mod_eq_of_lt ho).symm,hoff⟩⟩
    rw [ioreadHead]
    dsimp only
    rw [if_neg (not_not.mpr hoff)]
    rfl
  have hpos : 0 < offset%secsiz := Nat.pos_of_ne_zero hoff
  obtain ⟨hc,hbuf⟩ := iobuf_spec h (bytsec (offset-offset%secsiz))
  have hnum : bytsec (offset-offset%secsiz) = offset/secsiz := by
    rw [bytsec,hsec]
    omega
  refine ⟨min (secsiz-offset%secsiz) nbyte,(offset-offset%secsiz+secsiz)%2^32,_,?_,hc,min_le_right _ _,by omega,?_⟩
  · rw [ioreadHead]
    dsimp only
    rw [if_pos hoff]
    congr 1
    refine List.map_congr_left fun j hj => ?_
    have hlt := List.mem_range.mp hj
    rw [hbuf _ (by omega),hnum,after_sector ho (by omega)]
  · rw [hsec]
    omega

/-- The last part is at the start of a sector. -/
theorem ioreadTail_spec (h : v.Cached b) (offset n : ℕ) (ho : offset < 2^32) (hoff : n ≠ 0 → offset%secsiz = 0)
    (hn : n < secsiz) :
    (v.ioreadTail offset n b).1 = (List.range n).map (v.after offset) ∧ v.Cached (v.ioreadTail offset n b).2 := by
  by_cases h0 : n = 0
  · rw [ioreadTail,if_neg (not_not.mpr h0),h0]
    exact ⟨rfl,h⟩
  obtain ⟨hc,hbuf⟩ := iobuf_spec h (bytsec offset)
  rw [ioreadTail,if_pos h0]
  refine ⟨List.map_congr_left fun j hj => ?_,hc⟩
  have hlt := List.mem_range.mp hj
  have hin := after_sector (v := v) (j := j) ho (by rw [hoff h0]; omega)
  rw [hoff h0,Nat.zero_add] at hin
  rw [hbuf j (by omega),← hin]
  rfl

/-- A read that is no longer than a sector, or does not go past `2^32`, gives the bytes after its offset. -/
theorem ioread_spec (h : v.Cached b) (offset nbyte : ℕ) (ho : offset < 2^32) (hfit : nbyte < secsiz ∨ offset+nbyte ≤ 2^32) :
    (v.ioread offset nbyte b).1 = (List.range nbyte).map (v.after offset) ∧ v.Cached (v.ioread offset nbyte b).2 := by
  have hsec : secsiz = 512 := rfl
  obtain ⟨n,o,b',hhead,hc,hle,hn,hnext⟩ := ioreadHead_spec h nbyte ho
  rw [ioread,hhead]
  dsimp only
  generalize hm : nbyte-n-(nbyte-n)%secsiz = m
  have hmod : m%secsiz = 0 := by rw [hsec] at *; omega
  have hrest : (nbyte-n)%secsiz < secsiz := Nat.mod_lt _ (by decide)
  have htail := ioreadTail_spec hc ((o+m)%2^32) ((nbyte-n)%secsiz) (Nat.mod_lt _ (by norm_num))
    (fun h0 => by obtain ⟨-,h1⟩ := hnext (by rw [hsec] at *; omega); rw [hsec] at *; omega) hrest
  refine ⟨?_,htail.2⟩
  have hbody : ∀ j < m, v.ioget (bytsec o) j = v.after offset (n+j) := by
    intro j hj
    obtain ⟨ho',hal⟩ := hnext (by omega)
    have hbig : secsiz ≤ m := Nat.le_of_dvd (by omega) (Nat.dvd_of_mod_eq_zero hmod)
    have hno : offset+nbyte ≤ 2^32 := by omega
    have hword : (offset+(n+j))%2^32 = offset+(n+j) := Nat.mod_eq_of_lt (by omega)
    have haddr : secsiz*bytsec o+j = offset+(n+j) := by
      rw [bytsec,hsec] at *
      omega
    rw [ioget,after,hword,haddr]
  have hlast : ∀ j < (nbyte-n)%secsiz, v.after ((o+m)%2^32) j = v.after offset (n+m+j) := by
    intro j hj
    obtain ⟨ho',-⟩ := hnext (by rw [hsec] at *; omega)
    have haddr : (((o+m)%2^32)+j)%2^32 = (offset+(n+m+j))%2^32 := by omega
    rw [after,after,haddr]
  rw [htail.1,range_map_append (fun j _ => rfl) hbody,range_map_append (fun j _ => rfl) hlast]
  congr 2
  rw [hsec] at *
  omega

/-- The link of a cluster, as the bytes of the device have it. -/
def fatNext (v : DosVol) (c : ℕ) : ℕ :=
  let x := leGet (v.after (v.fs.fatAt c)) 0 v.fs.entrySize
  if v.fs.fatsz = 12 then (if c%2 = 1 then x/16 else x%0x1000) else x

theorem fatAt_lt (fs : DosFs) (c : ℕ) : fs.fatAt c < 2^32 := Nat.mod_lt _ (by norm_num)

theorem entrySize_le (fs : DosFs) : fs.entrySize ≤ 4 := by
  rw [DosFs.entrySize]
  split_ifs <;> decide

theorem fatget_spec (h : v.Cached b) (c : ℕ) : (v.fatget c b).1 = v.fatNext c ∧ v.Cached (v.fatget c b).2 := by
  have hsmall : v.fs.entrySize < secsiz := (entrySize_le v.fs).trans_lt (by decide)
  obtain ⟨hbytes,hc⟩ := ioread_spec h _ v.fs.entrySize (fatAt_lt v.fs c) (.inl hsmall)
  have hword : leGet (ofList (v.ioread (v.fs.fatAt c) v.fs.entrySize b).1) 0 v.fs.entrySize =
      leGet (v.after (v.fs.fatAt c)) 0 v.fs.entrySize := by
    refine leGet_congr fun j _ hj => ?_
    rw [Nat.zero_add] at hj
    rw [hbytes,ofList,List.getD_eq_getElem _ _ (by simpa using hj),List.getElem_map,List.getElem_range]
  refine ⟨?_,hc⟩
  rw [fatget,fatNext]
  dsimp only
  rw [hword]

theorem fatNext_lt (v : DosVol) (c : ℕ) : v.fatNext c < 2^32 := by
  have hword : leGet (v.after (v.fs.fatAt c)) 0 v.fs.entrySize < 2^32 :=
    (leGet_lt _ 0 _).trans_le ((Nat.pow_le_pow_right (by norm_num) (entrySize_le v.fs)).trans (by norm_num))
  rw [fatNext]
  generalize leGet (v.after (v.fs.fatAt c)) 0 v.fs.entrySize = x at hword
  split_ifs <;> omega

end DosVol
end Blub.Stand
