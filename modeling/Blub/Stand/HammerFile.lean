import Blub.Stand.HammerRead
import Blub.Stand.ReadAhead

/-! `hammer_read` below the read-ahead buffer of libstand. At the end of the file it returns an error, and `read` asks
for more whenever a read got less than was wanted. -/
namespace Blub.Stand
open Blub.Bytes Blub.Trace

def hammerEinval : ℤ := 22

/-- An open file: what changes of `struct hfile`, and `f_offset`. -/
structure HammerFile where
  hfs : Hfs
  offset : ℕ

section Code
variable (d : HammerDev) (hfind : Hfs → ℕ → Option DataElm × Hfs) (fsize : ℕ)

/-- `hammer_read`. A loop of `hreadf` that does not end is left as an error too: it ends for every ordered search
(`hreadfLoop_ends`). -/
def hammerRead (f : HammerFile) (len : ℕ) : IoReply × HammerFile :=
  if f.offset ≥ fsize then (⟨hammerEinval,[],0⟩,f)
  else
    let maxlen := if f.offset+len > fsize then fsize-f.offset else len
    match hreadf d hfind f.hfs f.offset maxlen fun _ => 0 with
    | none => (⟨hammerEinval,[],0⟩,f)
    | some (rlen,e) =>
      if rlen = -1 then (⟨hammerEinval,[],0⟩,⟨e.hfs,f.offset⟩)
      else (⟨0,(List.range rlen.toNat).map e.buf,len-rlen.toNat⟩,⟨e.hfs,f.offset+rlen.toNat⟩)

/-- The operations of the file system. What `read` does not use of them on a regular file is left open. -/
def hammerOps (foSeek : HammerFile → ℤ → Whence → ℤ × HammerFile)
    (dvStrategy : HammerFile → ℤ → ℕ → IoReply × HammerFile) : FsOps HammerFile :=
  ⟨hammerRead d hfind fsize,foSeek,dvStrategy⟩

end Code

section Ends
variable {d : HammerDev} {recs : DataRecords} {hfind : Hfs → ℕ → Option DataElm × Hfs}

/-- Every turn moves on, and leaves the buffers as they have to be. -/
theorem hreadfLoop_ends (hs : OrderedSearch d recs hfind) (fuel : ℕ) {s : Hfs} (hsound : Sound d s) {off len o : ℕ}
    {buf : ℕ → UInt8} (hfuel : len < fuel) :
    ∃ e, hreadfLoop d hfind fuel s off len o buf = some e ∧ Sound d e.hfs := by
  induction fuel generalizing s off len o buf with
  | zero => omega
  | succ fuel ih =>
    rw [hreadfLoop]
    by_cases hlen : len = 0
    · rw [if_pos hlen]
      exact ⟨_,rfl,hsound⟩
    · rw [if_neg hlen]
      have hsound' := hs.sound s (off+1) hsound
      have hleast := hs.least s (off+1) hsound
      generalize hfind s (off+1) = r at *
      obtain ⟨e | e,s'⟩ := r
      · exact ⟨_,rfl,hsound'⟩
      · obtain ⟨-,hkey,-⟩ := hleast e rfl
        have hkl := e.len_le
        dsimp only
        rw [if_neg (by omega)]
        by_cases hhole : off < e.doff
        · rw [if_pos hhole]
          exact ih hsound' (by omega)
        · have hpos : 0 < min (e.dataLen-(off-e.doff)) len := by
            unfold DataElm.doff at *
            omega
          obtain ⟨p,s'',hread,-,hsound'',-⟩ :=
            hread_sound hsound' (passBuffers (off-e.doff) (off-e.doff) e.dataOffset).2
          have hchunk : 0 < chunkLen (passBuffers (off-e.doff) (off-e.doff) e.dataOffset).2
              (passBuffers (off-e.doff) (off-e.doff) e.dataOffset).1 (min (e.dataLen-(off-e.doff)) len) := by
            unfold chunkLen hammerBufsize
            split_ifs <;> omega
          rw [if_neg hhole,hread]
          dsimp only
          generalize chunkLen _ _ _ = dlen at *
          have hless : len-dlen < fuel := by omega
          obtain ⟨a,ha,hsa⟩ := ih hsound'' hless
          rw [ha]
          exact ⟨_,rfl,hsa⟩

theorem hreadf_ends (hs : OrderedSearch d recs hfind) {s : Hfs} (hsound : Sound d s) (off len : ℕ) (buf : ℕ → UInt8) :
    ∃ r, hreadf d hfind s off len buf = some r ∧ Sound d r.2.hfs := by
  obtain ⟨e,he,hse⟩ := hreadfLoop_ends hs (len+1) hsound (Nat.lt_succ_self len)
  exact ⟨_,by rw [hreadf,he,Option.map_some],hse⟩

theorem hammerRead_sound (hs : OrderedSearch d recs hfind) (fsize : ℕ) (f : HammerFile) (len : ℕ)
    (hsound : Sound d f.hfs) : Sound d (hammerRead d hfind fsize f len).2.hfs := by
  unfold hammerRead
  by_cases hend : f.offset ≥ fsize
  · rw [if_pos hend]
    exact hsound
  · rw [if_neg hend]
    dsimp only
    obtain ⟨r,hr,hsr⟩ := hreadf_ends hs hsound f.offset (if f.offset+len > fsize then fsize-f.offset else len) fun _ => 0
    rw [hr]
    dsimp only
    split_ifs <;> exact hsr

end Ends

section Reads
variable {d : HammerDev} {recs : DataRecords} {hfind : Hfs → ℕ → Option DataElm × Hfs} {fsize : ℕ}
  {foSeek : HammerFile → ℤ → Whence → ℤ × HammerFile} {dvStrategy : HammerFile → ℤ → ℕ → IoReply × HammerFile}

/-- The bytes of a file. -/
def fileBytes (d : HammerDev) (recs : DataRecords) (fsize : ℕ) : List UInt8 := (List.range fsize).map (fileByte d recs)

theorem fileBytes_piece (off n : ℕ) : ((fileBytes d recs fsize).drop off).take n =
    (List.range (min n (fsize-off))).map fun j => fileByte d recs (off+j) := by
  apply List.ext_getElem
  · simp [fileBytes]
  · intro j _ _
    simp [fileBytes]

theorem hammerRead_serves (hs : OrderedSearch d recs hfind) {f : HammerFile} {n : ℕ} (hsound : Sound d f.hfs)
    (hoff : f.offset < fsize) (hone : ∀ e ∈ recs.elms, OneBuffer e f.offset (min n (fsize-f.offset))) :
    ServesAt (hammerOps d hfind fsize foSeek dvStrategy) (fileBytes d recs fsize) HammerFile.offset f n := by
  have hmax : (if f.offset+n > fsize then fsize-f.offset else n) = min n (fsize-f.offset) := by
    split_ifs <;> omega
  have hlen : (((fileBytes d recs fsize).drop f.offset).take n).length = min n (fsize-f.offset) := by
    simp [fileBytes_piece]
  obtain ⟨e,he,hend,hbuf,-⟩ : LoopRight d recs f.offset (min n (fsize-f.offset)) 0 (fun _ => 0)
      (hreadfLoop d hfind (min n (fsize-f.offset)+1) f.hfs f.offset (min n (fsize-f.offset)) 0 fun _ => 0) :=
    (hreadfLoop_iff hs _ hsound (Nat.lt_succ_self _)).mpr hone
  have hread : hreadf d hfind f.hfs f.offset (min n (fsize-f.offset)) (fun _ => 0) =
      some (((min n (fsize-f.offset) : ℕ) : ℤ),e) := by
    rw [hreadf,he,Option.map_some,hend,Option.elim_some,Nat.cast_add,add_sub_cancel_left]
  have hrun : hammerRead d hfind fsize f n = (⟨0,((fileBytes d recs fsize).drop f.offset).take n,
      n-min n (fsize-f.offset)⟩,⟨e.hfs,f.offset+min n (fsize-f.offset)⟩) := by
    have hne : ((min n (fsize-f.offset) : ℕ) : ℤ) ≠ -1 := by omega
    unfold hammerRead
    rw [if_neg (not_le.mpr hoff),hmax]
    dsimp only
    rw [hread]
    dsimp only
    have hbytes : (List.range (min n (fsize-f.offset))).map e.buf =
        (List.range (min n (fsize-f.offset))).map fun j => fileByte d recs (f.offset+j) := by
      apply List.map_congr_left
      intro j hj
      rw [hbuf,blit_inside (Nat.zero_le j) (by rw [List.mem_range] at hj; omega),Nat.sub_zero]
    rw [if_neg hne,Int.toNat_natCast,fileBytes_piece,hbytes]
  constructor
  · rw [hlen]
    exact congrArg Prod.fst hrun
  · rw [hlen]
    exact congrArg (HammerFile.offset ∘ Prod.snd) hrun

/-- More bytes are left than are wanted, or they are wanted past the read-ahead buffer, with a read of the file system
that starts before the end of the file; and what is read of the file system is read in one buffer at a time. -/
def ReadOk (recs : DataRecords) (fsize : ℕ) (f : OpenFile HammerFile) (n : ℕ) : Prop :=
  0 < n ∧ n < 2^31 ∧
    (n ≤ fsize-(f.fsdata.offset-f.ralen) ∨ (f.fsdata.offset < fsize ∧ sopenRasize ≤ n-f.ralen)) ∧
    (n ≤ f.ralen ∨ ∀ e ∈ recs.elms,
      OneBuffer e f.fsdata.offset (min (max (n-f.ralen) sopenRasize) (fsize-f.fsdata.offset)))

instance (recs : DataRecords) (fsize : ℕ) (f : OpenFile HammerFile) (n : ℕ) : Decidable (ReadOk recs fsize f n) :=
  inferInstanceAs (Decidable (_ ∧ _ ∧ _ ∧ _))

theorem length_fileBytes : (fileBytes d recs fsize).length = fsize := by simp [fileBytes]

/-- One call of `read` on an open file whose caller is at position `p`. -/
theorem hammer_read_spec (hs : OrderedSearch d recs hfind) {f : OpenFile HammerFile} {p n : ℕ}
    (h : At (fileBytes d recs fsize) HammerFile.offset f p) (hsound : Sound d f.fsdata.hfs) (fuel : ℕ)
    (hok : ReadOk recs fsize f n) :
    Supplies (hammerOps d hfind fsize foSeek dvStrategy) (fileBytes d recs fsize) HammerFile.offset n (fuel+2) f p n
      [] := by
  obtain ⟨hpos,hlt,hleft,hone⟩ := hok
  have hat := h.pos_eq
  have hin := h.inside
  rw [length_fileBytes] at hin
  have hra : 0 < sopenRasize := by decide
  by_cases hhit : n ≤ f.ralen
  · exact readLoop_hit h n _ hlt [] hpos hhit
  · have hone' := hone.resolve_left hhit
    have hoff : f.fsdata.offset < fsize := by omega
    by_cases hbig : sopenRasize ≤ n-f.ralen
    · rw [max_eq_left hbig] at hone'
      exact readLoop_bypass h n _ (hammerRead_serves hs hsound hoff hone') hlt [] hbig
    · rw [max_eq_right (not_le.mp hbig).le] at hone'
      have hserves : ServesAt (hammerOps d hfind fsize foSeek dvStrategy) (fileBytes d recs fsize) HammerFile.offset
        f.fsdata sopenRasize := hammerRead_serves hs hsound hoff hone'
      obtain ⟨f₁,hat₁,hral,hrun⟩ := readLoop_refill hserves h n (fuel+1) hlt [] (not_le.mp hhit).le (by omega) hbig
      rw [length_fileBytes] at hral
      rw [if_neg (by omega)] at hrun
      apply Supplies.refilled _ h (not_le.mp hhit).le hrun
      exact readLoop_hit hat₁ n _ (by omega) _ (by omega) (by omega)

/-- `read` on the file and on the list of its bytes. -/
theorem hammer_fileStep (hs : OrderedSearch d recs hfind) (fuel : ℕ) {f : OpenFile HammerFile} {p n : ℕ}
    (h : At (fileBytes d recs fsize) HammerFile.offset f p ∧ Sound d f.fsdata.hfs) (hok : ReadOk recs fsize f n) :
    (fileStep (hammerOps d hfind fsize foSeek dvStrategy) (fuel+2) f (.read n)).1 =
        (plainStep (fileBytes d recs fsize) p (.read n)).1 ∧
      At (fileBytes d recs fsize) HammerFile.offset
          (fileStep (hammerOps d hfind fsize foSeek dvStrategy) (fuel+2) f (.read n)).2
          (plainStep (fileBytes d recs fsize) p (.read n)).2 ∧
        Sound d (fileStep (hammerOps d hfind fsize foSeek dvStrategy) (fuel+2) f (.read n)).2.fsdata.hfs := by
  obtain ⟨f',hrun,hat⟩ : Supplies (hammerOps d hfind fsize foSeek dvStrategy) _ _ n _ f p n [] :=
    hammer_read_spec hs h.1 h.2 fuel hok
  have hle : (((fileBytes d recs fsize).drop p).take n).length ≤ n := List.length_take_le _ _
  have hkept : Sound d f'.fsdata.hfs :=
    readLoop_keeps (P := fun t => Sound d t.hfs) (hammerRead_sound hs fsize) h.2 hrun
  have hread : read (hammerOps d hfind fsize foSeek dvStrategy) (fuel+2) f n =
      some (⟨(((fileBytes d recs fsize).drop p).take n).length,((fileBytes d recs fsize).drop p).take n⟩,f') := by
    rw [read,if_neg (by rw [h.1.canRead]; decide),if_neg (by rw [h.1.regular]; decide),hrun,List.nil_append,
      Nat.cast_sub hle,sub_sub_cancel]
  have hstep : fileStep (hammerOps d hfind fsize foSeek dvStrategy) (fuel+2) f (.read n) =
      (some (.read ⟨(((fileBytes d recs fsize).drop p).take n).length,((fileBytes d recs fsize).drop p).take n⟩),f') := by
    rw [fileStep,hread]
  rw [hstep]
  exact ⟨rfl,hat,hkept⟩

/-- Along reads that meet `ReadOk`, `read` answers as on the list of the bytes of the file. -/
theorem hammer_reads_file (d : HammerDev) (recs : DataRecords) (hfind : Hfs → ℕ → Option DataElm × Hfs)
    (hs : OrderedSearch d recs hfind) (fsize : ℕ) (foSeek : HammerFile → ℤ → Whence → ℤ × HammerFile)
    (dvStrategy : HammerFile → ℤ → ℕ → IoReply × HammerFile) (f : OpenFile HammerFile) (hread : f.canRead = true)
    (hreg : f.raw = false) (hnew : f.ralen = 0) (hsound : Sound d f.fsdata.hfs) (fuel : ℕ) (hfuel : 2 ≤ fuel)
    (ns : List ℕ) (hok : Along (fun f n => fileStep (hammerOps d hfind fsize foSeek dvStrategy) fuel f (.read n))
      (ReadOk recs fsize) f ns) :
    answers (fun f n => fileStep (hammerOps d hfind fsize foSeek dvStrategy) fuel f (.read n)) f ns =
      answers (fun p n => plainStep (fileBytes d recs fsize) p (.read n)) f.fsdata.offset ns := by
  obtain ⟨k,rfl⟩ := Nat.exists_eq_add_of_le' hfuel
  have hstart : At (fileBytes d recs fsize) HammerFile.offset f f.fsdata.offset := by
    refine ⟨hread,hreg,?_,?_,?_,.inl hnew⟩
    · rw [hnew,Nat.add_zero]
    · rw [hnew]
      exact Nat.zero_le _
    · rw [hnew,List.take_zero,List.take_zero]
  apply answers_eq (fun f p => At (fileBytes d recs fsize) HammerFile.offset f p ∧ Sound d f.fsdata.hfs) _ ns f _
    ⟨hstart,hsound⟩ hok
  intro f p n h hn
  exact hammer_fileStep hs k h hn

end Reads

/-- A file of three sevens in one record, just opened. -/
def sevensRecord : DataRecords := oneRecord ⟨3,16384,3,le_rfl,by norm_num⟩

def sevensOps (fsize : ℕ) : FsOps HammerFile :=
  hammerOps sevens (listFind sevensRecord) fsize (fun f _ _ => (-1,f)) fun f _ _ => (⟨0,[],0⟩,f)

def sevensFile : OpenFile HammerFile := ⟨true,false,false,0,[],0,0,⟨(hinitBuffers (fun _ _ => 0) []).hfs,0⟩⟩

theorem hammer_reads_file_three : answers (fun f n => fileStep (sevensOps 3) 2 f (.read n)) sevensFile [1,2] =
    answers (fun p n => plainStep (fileBytes sevens sevensRecord 3) p (.read n)) 0 [1,2] :=
  hammer_reads_file sevens sevensRecord _ (listFind_ordered sevens sevensRecord) 3 _ _ sevensFile rfl rfl rfl
    (hinitBuffers_sound sevens _) 2 le_rfl [1,2] (by decide)

/-- All three bytes are read, and the next read is an error; so is a first one of more bytes than the file has. -/
theorem hammer_read_at_end :
    answers (fun f n => fileStep (sevensOps 3) 3 f (.read n)) sevensFile [3,1] =
        [some (.read ⟨3,[7,7,7]⟩),some (.read ⟨-1,[]⟩)] ∧
      answers (fun p n => plainStep (fileBytes sevens sevensRecord 3) p (.read n)) 0 [3,1] =
        [some (.read ⟨3,[7,7,7]⟩),some (.read ⟨0,[]⟩)] ∧
      answers (fun f n => fileStep (sevensOps 3) 3 f (.read n)) sevensFile [4] = [some (.read ⟨-1,[7,7,7]⟩)] := by
  decide

end Blub.Stand
