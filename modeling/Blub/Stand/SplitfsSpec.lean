import Blub.Stand.Splitfs

/-! Slices that are opened, closed and read without an error read as one file, their concatenation. -/
namespace Blub.Stand
open Blub.Trace

section Slices
variable {τ : Type*}

/-- The file system serves `bytes`. It may refuse a seek past their end. -/
structure SliceServes (ops : FsOps τ) (bytes : List UInt8) (pos : τ → ℕ) : Prop where
  read (t : τ) (n : ℕ) : ServesAt ops bytes pos t n
  seek (t : τ) (o : ℤ) (whence : Whence) : whence ≠ .end → 0 ≤ seekTarget (pos t) o whence →
    seekTarget (pos t) o whence ≤ bytes.length → SeeksAt ops pos t o whence
  past (t : τ) (o : ℤ) (whence : Whence) : whence ≠ .end → bytes.length < seekTarget (pos t) o whence →
    SeeksAt ops pos t o whence ∨ (ops.foSeek t o whence).1 = -1 ∧ pos (ops.foSeek t o whence).2 = pos t

/-- A slice that is opened at its start, read and closed without an error. -/
structure GoodSlice (τ : Type*) extends Slice τ where
  bytes : List UInt8
  pos : τ → ℕ
  reads : SliceServes ops bytes pos
  first : OpenFile τ
  opens : splitOpenLoop toSlice ntries 0 = .ok first
  start : At bytes pos first 0
  closes : close = true

/-- The bytes of all slices, and the number of those before a slice. -/
def whole (gs : List (GoodSlice τ)) : List UInt8 := gs.flatMap fun g => g.bytes

def before (gs : List (GoodSlice τ)) (i : ℕ) : ℕ := (whole (gs.take i)).length

/-- The split file is in slice `g`, at `p` there. It leaves the end of a slice behind only in the last one. -/
structure SplitAt (gs : List (GoodSlice τ)) (sf : SplitFile τ) (g : GoodSlice τ) (f : OpenFile τ) (p : ℕ) : Prop where
  cur : gs[sf.curfile]? = some g
  fd : sf.curfd = some f
  held : At g.bytes g.pos f p
  filePos : sf.filePos = p
  totPos : sf.totPos = (before gs sf.curfile+p : ℕ)
  inside : sf.curfile+1 < gs.length → p ≤ g.bytes.length

/-- Nothing more can be read. -/
def AtLast (gs : List (GoodSlice τ)) (sf : SplitFile τ) (g : GoodSlice τ) (p : ℕ) : Prop :=
  sf.curfile+1 = gs.length ∧ g.bytes.length ≤ p

variable {gs : List (GoodSlice τ)} {sf : SplitFile τ} {g : GoodSlice τ} {f : OpenFile τ} {p : ℕ}

theorem whole_append (gs gs' : List (GoodSlice τ)) : whole (gs ++ gs') = whole gs ++ whole gs' := by
  rw [whole,whole,whole,List.flatMap_append]

theorem whole_cons (g : GoodSlice τ) (gs : List (GoodSlice τ)) : whole (g :: gs) = g.bytes ++ whole gs := by
  rw [whole,whole,List.flatMap_cons]

theorem before_succ {i : ℕ} (h : gs[i]? = some g) : before gs (i+1) = before gs i+g.bytes.length := by
  rw [before,before,List.take_add_one,h,Option.toList_some,whole_append,List.length_append,whole_cons,
    List.length_append]
  rfl

/-- What comes from a position in a slice on: the rest of the slice, and the slices after it. -/
theorem whole_drop {i : ℕ} (h : gs[i]? = some g) (hin : i+1 < gs.length → p ≤ g.bytes.length) :
    (whole gs).drop (before gs i+p) = g.bytes.drop p ++ whole (gs.drop (i+1)) := by
  obtain ⟨hi,rfl⟩ := List.getElem?_eq_some_iff.mp h
  have hsplit : whole gs = whole (gs.take i) ++ (gs[i].bytes ++ whole (gs.drop (i+1))) := by
    rw [← whole_cons,← whole_append,List.cons_getElem_drop_succ,List.take_append_drop]
  rw [hsplit,before,← List.drop_drop,List.drop_left]
  by_cases hlast : i+1 < gs.length
  · rw [List.drop_append_of_le_length (hin hlast)]
  · rw [show gs.drop (i+1) = [] from List.drop_eq_nil_of_le (by omega)]
    change (gs[i].bytes ++ []).drop p = gs[i].bytes.drop p ++ []
    rw [List.append_nil,List.append_nil]

/-- At the end of the last slice nothing is left. -/
theorem AtLast.nothing (h : SplitAt gs sf g f p) (hl : AtLast gs sf g p) : (whole gs).length ≤ before gs sf.curfile+p := by
  have hdrop := whole_drop h.cur h.inside
  rw [List.drop_eq_nil_of_le hl.2,List.drop_eq_nil_of_le hl.1.ge] at hdrop
  exact List.drop_eq_nil_iff.mp hdrop

/-- The slices as the program has them. -/
def slices (gs : List (GoodSlice τ)) : List (Slice τ) := gs.map fun g => g.toSlice

theorem slices_get {i : ℕ} (h : gs[i]? = some g) : (slices gs)[i]? = some g.toSlice := by
  rw [slices,List.getElem?_map,h]
  rfl

theorem slices_length : (slices gs).length = gs.length := List.length_map _

/-- A slice is opened at its start. -/
theorem splitOpenfile_spec (sf : SplitFile τ) (h : gs[sf.curfile]? = some g) (htot : sf.totPos = before gs sf.curfile) :
    ∃ sf', splitOpenfile (slices gs) sf = (true,sf') ∧ sf'.totPos = sf.totPos ∧ sf'.curfile = sf.curfile ∧
      SplitAt gs sf' g g.first 0 := by
  refine ⟨{sf with curfd := some g.first, filePos := 0},?_,rfl,rfl,h,rfl,g.start,rfl,htot,fun _ => Nat.zero_le _⟩
  rw [splitOpenfile,slices_get h]
  dsimp only
  rw [g.opens]

/-- What a read leaves that has stored `size` bytes, or all there are. -/
def SplitReads (gs : List (GoodSlice τ)) (sf : SplitFile τ) (start size : ℕ) (buf : List UInt8)
    (r : Option (SplitReply × SplitFile τ)) : Prop :=
  let got := ((whole gs).drop start).take size
  ∃ sf' g' f' p', r = some (⟨false,buf ++ got,size-got.length⟩,sf') ∧ SplitAt gs sf' g' f' p' ∧
    sf'.totPos = sf.totPos+got.length ∧ (got.length < size → AtLast gs sf' g' p')

/-- One turn of the loop: the rest of the slice, or as much of it as is wanted. -/
theorem splitReadLoop_turn (h : SplitAt gs sf g f p) {fuel size k totread : ℕ} (hfuel : 2 ≤ fuel) (hlt : size < 2^31)
    (hz : size-totread = 0 → g.bytes.length ≤ p) (buf : List UInt8) :
    let got := (g.bytes.drop p).take (size-totread)
    ∃ sf' f', SplitAt gs sf' g f' (p+got.length) ∧ sf'.totPos = sf.totPos+got.length ∧ sf'.curfile = sf.curfile ∧
      splitReadLoop (slices gs) fuel size (k+1) sf totread buf =
        if totread+got.length < size then
          if sf.curfile = gs.length-1 then some (⟨false,buf ++ got,size-(totread+got.length)⟩,sf')
          else
            let o := splitOpenfile (slices gs) {sf' with curfile := sf'.curfile+1}
            if o.1 then splitReadLoop (slices gs) fuel size k o.2 (totread+got.length) (buf ++ got)
            else some (⟨true,buf ++ got,0⟩,o.2)
        else some (⟨false,buf ++ got,size-(totread+got.length)⟩,sf') := by
  obtain ⟨fuel,rfl⟩ := Nat.exists_eq_add_of_le' hfuel
  obtain ⟨f',hrun,hat⟩ := read_spec g.reads.read h.held fuel (n := size-totread) (by omega) hz
  refine ⟨{sf with
    curfd := some f'
    totPos := sf.totPos+((g.bytes.drop p).take (size-totread)).length
    filePos := sf.filePos+((g.bytes.drop p).take (size-totread)).length},f',?_,rfl,rfl,?_⟩
  · refine ⟨h.cur,rfl,hat,?_,?_,?_⟩
    · rw [h.filePos]
      push_cast
      ring
    · dsimp only
      rw [h.totPos]
      push_cast
      ring
    · intro hin
      have hp := h.inside hin
      rw [List.length_take,List.length_drop]
      omega
  · rw [splitReadLoop,h.fd,slices_get h.cur]
    dsimp only
    rw [hrun]
    dsimp only
    rw [if_neg (by omega),Int.toNat_natCast,slices_length,g.closes,if_neg (by decide : ¬true = false)]

/-- The rest of a slice that was not enough goes before what the next slices give. -/
theorem SplitReads.next {sf' : SplitFile τ} {start m : ℕ} {a b buf : List UInt8} {r : Option (SplitReply × SplitFile τ)}
    (hdrop : (whole gs).drop start = a ++ b) (hb : (whole gs).drop (start+a.length) = b) (hle : a.length ≤ m)
    (htot : sf'.totPos = sf.totPos+a.length) (h : SplitReads gs sf' (start+a.length) (m-a.length) (buf ++ a) r) :
    SplitReads gs sf start m buf r := by
  obtain ⟨sf₂,g₂,f₂,p₂,hrun,hat,hpos,hend⟩ := h
  rw [hb] at hrun hpos hend
  have htake : (a ++ b).take m = a ++ b.take (m-a.length) := by
    rw [List.take_append,List.take_of_length_le hle]
  have hlen : ((a ++ b).take m).length = a.length+(b.take (m-a.length)).length := by rw [htake,List.length_append]
  rw [SplitReads,hdrop]
  refine ⟨sf₂,g₂,f₂,p₂,?_,hat,?_,fun hlt => hend (by omega)⟩
  · rw [hrun,htake,List.append_assoc,List.length_append,Nat.sub_sub]
  · rw [hpos,htot,hlen]
    push_cast
    ring

/-- The loop of `splitfs_read` stores what is wanted, or all there is. Each turn but the last leaves a slice. -/
theorem splitReadLoop_spec {fuel size k : ℕ} (hfuel : 2 ≤ fuel) (hlt : size < 2^31) (totread : ℕ) (hle : totread ≤ size)
    (h : SplitAt gs sf g f p) (hk : gs.length ≤ sf.curfile+k) (hz : size-totread = 0 → g.bytes.length ≤ p)
    (buf : List UInt8) :
    SplitReads gs sf (before gs sf.curfile+p) (size-totread) buf
      (splitReadLoop (slices gs) fuel size k sf totread buf) := by
  induction k generalizing sf g f p totread buf with
  | zero =>
    obtain ⟨hi,-⟩ := List.getElem?_eq_some_iff.mp h.cur
    omega
  | succ k ih =>
    obtain ⟨hi,-⟩ := List.getElem?_eq_some_iff.mp h.cur
    obtain ⟨sf₁,f₁,hat,hpos,hcur,hrun⟩ := splitReadLoop_turn h (k := k) hfuel hlt hz buf
    have hdrop := whole_drop h.cur h.inside
    rw [hrun]
    by_cases hmore : totread+((g.bytes.drop p).take (size-totread)).length < size
    · have hall : (g.bytes.drop p).take (size-totread) = g.bytes.drop p := by
        refine List.take_of_length_le ?_
        rw [List.length_take] at hmore
        omega
      rw [hall] at hat hpos hmore ⊢
      rw [if_pos hmore]
      have hend : g.bytes.length ≤ p+(g.bytes.drop p).length := by rw [List.length_drop]; omega
      by_cases hlast : sf.curfile = gs.length-1
      · rw [if_pos hlast]
        rw [show gs.drop (sf.curfile+1) = [] from List.drop_eq_nil_of_le (by omega)] at hdrop
        have hgot : ((whole gs).drop (before gs sf.curfile+p)).take (size-totread) = g.bytes.drop p := by
          rw [hdrop,← hall]
          change (((g.bytes.drop p).take _) ++ []).take _ = _
          rw [List.append_nil,List.take_take,min_self]
        rw [SplitReads,hgot]
        exact ⟨sf₁,g,f₁,_,by rw [Nat.sub_sub],hat,hpos,fun _ => ⟨by omega,hend⟩⟩
      · rw [if_neg hlast]
        have hin := h.inside (by omega)
        have hlen : p+(g.bytes.drop p).length = g.bytes.length := by rw [List.length_drop]; omega
        have hnext : before gs (sf.curfile+1) = before gs sf.curfile+p+(g.bytes.drop p).length := by
          rw [before_succ h.cur]
          omega
        have hget : gs[sf₁.curfile+1]? = some (gs[sf.curfile+1]) := by rw [hcur]; exact List.getElem?_eq_getElem _
        have htot : sf₁.totPos = before gs (sf₁.curfile+1) := by
          rw [hat.totPos,hcur,hnext,Nat.add_assoc]
        obtain ⟨sf₂,hopen,hpos₂,hcur₂,hat₂⟩ := splitOpenfile_spec {sf₁ with curfile := sf₁.curfile+1} hget htot
        have hrest := ih (totread+(g.bytes.drop p).length) hmore.le hat₂ (by dsimp only at hcur₂; omega)
          (by omega) (buf ++ g.bytes.drop p)
        rw [hcur₂,hcur,hnext,Nat.add_zero,← Nat.sub_sub] at hrest
        dsimp only
        rw [hopen]
        refine SplitReads.next hdrop ?_ (by omega) (hpos₂.trans hpos) hrest
        rw [← hnext]
        have hstart := whole_drop (p := 0) hget (fun _ => Nat.zero_le _)
        rw [hcur,Nat.add_zero] at hstart
        rw [hstart,List.drop_zero,← whole_cons,List.getElem_cons_drop]
    · rw [if_neg hmore]
      have hgot : ((whole gs).drop (before gs sf.curfile+p)).take (size-totread) =
          (g.bytes.drop p).take (size-totread) := by
        rw [List.length_take] at hmore
        rw [hdrop,List.take_append_of_le_length (by omega)]
      rw [SplitReads,hgot]
      refine ⟨sf₁,g,f₁,_,by rw [Nat.sub_sub],hat,hpos,fun hshort => ?_⟩
      omega

theorem splitfsRead_spec (fuel : ℕ) {n : ℕ} (hfuel : gs.length+2 ≤ fuel) (hlt : n < 2^31) (h : SplitAt gs sf g f p)
    (hz : n = 0 → g.bytes.length ≤ p) :
    SplitReads gs sf (before gs sf.curfile+p) n [] (splitfsRead (slices gs) fuel sf n) :=
  splitReadLoop_spec (by omega) hlt 0 (Nat.zero_le _) h (by omega) hz []

/-- Reading forward goes the whole distance, or to the end. -/
theorem splitSeekLoop_spec (fuel k d : ℕ) (hfuel : gs.length+2 ≤ fuel) (hd : d < 2^31) (hk : d < k)
    (h : SplitAt gs sf g f p) :
    ∃ sf' g' f' p', splitSeekLoop (slices gs) fuel k sf d =
        some (false,((d-min d ((whole gs).length-(before gs sf.curfile+p)) : ℕ) : ℤ),sf') ∧ SplitAt gs sf' g' f' p' ∧
      sf'.totPos = sf.totPos+min d ((whole gs).length-(before gs sf.curfile+p)) ∧
      (min d ((whole gs).length-(before gs sf.curfile+p)) < d → AtLast gs sf' g' p') := by
  induction k generalizing sf g f p d with
  | zero => omega
  | succ k ih =>
    by_cases hzero : d = 0
    · refine ⟨sf,g,f,p,?_,h,?_,?_⟩
      · rw [splitSeekLoop,if_pos (by omega),hzero]
        rfl
      · rw [hzero,Nat.zero_min]
        exact (add_zero _).symm
      · omega
    have hsmall : min ((d : ℤ)%2^32).toNat seekBuf = min d seekBuf := by
      rw [Int.emod_eq_of_lt (by omega) (by omega),Int.toNat_natCast]
    have hbuf : 0 < seekBuf := by decide
    obtain ⟨sf₁,g₁,f₁,p₁,hrun,hat,hpos,hend⟩ :=
      splitfsRead_spec fuel hfuel (by omega : min d seekBuf < 2^31) h (by omega)
    have hgot : (((whole gs).drop (before gs sf.curfile+p)).take (min d seekBuf)).length =
        min (min d seekBuf) ((whole gs).length-(before gs sf.curfile+p)) := by
      rw [List.length_take,List.length_drop]
    rw [hgot] at hpos hend hrun
    rw [splitSeekLoop,if_neg (by omega),hsmall]
    dsimp only
    rw [hrun]
    dsimp only
    rw [if_neg (by decide : ¬false = true)]
    generalize hm : min (min d seekBuf) ((whole gs).length-(before gs sf.curfile+p)) = m at hpos hend hrun
    rw [show min d seekBuf-(min d seekBuf-m) = m by omega]
    by_cases hstop : m = 0
    · rw [if_pos hstop,show min d ((whole gs).length-(before gs sf.curfile+p)) = 0 by omega]
      refine ⟨sf₁,g₁,f₁,p₁,rfl,hat,?_,fun _ => hend (by omega)⟩
      rw [hpos,hstop]
    · rw [if_neg hstop]
      have hstart : before gs sf₁.curfile+p₁ = before gs sf.curfile+p+m := by
        have h₁ := hat.totPos
        have h₀ := h.totPos
        omega
      obtain ⟨sf₂,g₂,f₂,p₂,hrun₂,hat₂,hpos₂,hend₂⟩ := ih (d-m) (by omega) (by omega) hat
      rw [hstart] at hrun₂ hpos₂ hend₂
      have hsum : m+min (d-m) ((whole gs).length-(before gs sf.curfile+p+m)) =
          min d ((whole gs).length-(before gs sf.curfile+p)) := by omega
      refine ⟨sf₂,g₂,f₂,p₂,?_,hat₂,by omega,fun _ => hend₂ (by omega)⟩
      rw [show (d : ℤ)-(m : ℕ) = (d-m : ℕ) by omega,hrun₂]
      congr 3
      omega

/-- With nothing read ahead `lseek` is the seek of the file system. -/
theorem lseek_empty {ops : FsOps τ} {bytes : List UInt8} {pos : τ → ℕ} (h : At bytes pos f p) (h₀ : f.ralen = 0) (o : ℤ) :
    lseek ops f o .cur = ((ops.foSeek f.fsdata o .cur).1,{f with ralen := 0, fsdata := (ops.foSeek f.fsdata o .cur).2}) := by
  rw [lseek,if_neg (by rw [h.canRead]; simp),if_neg (by rw [h.regular]; decide),if_neg (by simp [h₀]),lseekFs,
    if_pos rfl,h₀,Nat.cast_zero,sub_zero]

/-- A seek within the bytes of a slice. -/
theorem lseek_slice (h : At g.bytes g.pos f p) {s : ℤ} (hs : 0 ≤ p+s) (hin : p+s ≤ g.bytes.length) :
    (lseek g.ops f s .cur).1 = p+s ∧ At g.bytes g.pos (lseek g.ops f s .cur).2 (p+s).toNat := by
  refine lseek_spec h (by decide) (fun hra => ?_) (fun t o ho => ?_)
  · have hpos := h.pos_eq
    have hinside := h.inside
    refine g.reads.seek f.fsdata 0 .cur (by decide) ?_ ?_
    · simp only [seekTarget]
      omega
    · simp only [seekTarget]
      omega
  · exact g.reads.seek t o .cur (by decide) (ho ▸ hs) (ho ▸ hin)

/-- A seek past the end of the last slice, where nothing is read ahead. -/
theorem lseek_past (h : At g.bytes g.pos f p) {s : ℤ} (hp : g.bytes.length ≤ p) (hs : g.bytes.length < p+s) :
    ((lseek g.ops f s .cur).1 = p+s ∧ At g.bytes g.pos (lseek g.ops f s .cur).2 (p+s).toNat) ∨
      ((lseek g.ops f s .cur).1 = -1 ∧ At g.bytes g.pos (lseek g.ops f s .cur).2 p) := by
  have h₀ : f.ralen = 0 := by
    have hin := h.inside
    omega
  have hpos : g.pos f.fsdata = p := by rw [h.pos_eq,h₀,Nat.add_zero]
  have hat : ∀ t q, g.pos t = q → At g.bytes g.pos {f with ralen := 0, fsdata := t} q := fun t q hq =>
    ⟨h.canRead,h.regular,hq,Nat.zero_le _,by simp only [List.take_zero],.inl rfl⟩
  rw [lseek_empty h h₀]
  have htarget : seekTarget (g.pos f.fsdata) s .cur = p+s := by rw [hpos]; rfl
  rcases g.reads.past f.fsdata s .cur (by decide) (htarget ▸ hs) with ⟨hret,hnew⟩ | ⟨hret,hnew⟩
  · rw [htarget] at hret hnew
    exact .inl ⟨hret,hat _ _ (by omega)⟩
  · exact .inr ⟨hret,hat _ _ (hnew.trans hpos)⟩

/-- What the last part of a seek does: it goes to its target, or one past the end is refused. -/
theorem splitSeekRest_spec (h : SplitAt gs sf g f p) {s : ℤ} (hs : 0 ≤ p+s)
    (hlast : g.bytes.length < p+s → AtLast gs sf g p) :
    (∃ sf' f' p', splitSeekRest (slices gs) sf s = some (sf.totPos+s,sf') ∧ SplitAt gs sf' g f' p' ∧
      sf'.totPos = sf.totPos+s) ∨
    g.bytes.length < p+s ∧ ∃ sf' f', splitSeekRest (slices gs) sf s = some (-1,sf') ∧ SplitAt gs sf' g f' p ∧
      sf'.totPos = sf.totPos := by
  have hfile := h.filePos
  have htot := h.totPos
  by_cases hzero : s = 0
  · subst hzero
    rw [splitSeekRest,if_pos rfl,add_zero]
    exact .inl ⟨sf,f,p,rfl,h,rfl⟩
  have hrun : splitSeekRest (slices gs) sf s =
      if (lseek g.ops f s .cur).1 < 0 then some (-1,{sf with curfd := some (lseek g.ops f s .cur).2})
      else some (sf.totPos+((lseek g.ops f s .cur).1-sf.filePos),{sf with
        curfd := some (lseek g.ops f s .cur).2
        totPos := sf.totPos+((lseek g.ops f s .cur).1-sf.filePos)
        filePos := (lseek g.ops f s .cur).1}) := by
    rw [splitSeekRest,if_neg hzero,if_neg (by omega),h.fd,slices_get h.cur]
  have hgoes : (lseek g.ops f s .cur).1 = p+s → At g.bytes g.pos (lseek g.ops f s .cur).2 (p+s).toNat →
      ∃ sf' f' p', splitSeekRest (slices gs) sf s = some (sf.totPos+s,sf') ∧ SplitAt gs sf' g f' p' ∧
        sf'.totPos = sf.totPos+s := by
    intro hret hat
    have hdist : (p : ℤ)+s-sf.filePos = s := by omega
    rw [hrun,hret,if_neg (by omega),hdist]
    refine ⟨_,_,(p+s).toNat,rfl,⟨h.cur,rfl,hat,?_,?_,?_⟩,rfl⟩
    · exact (Int.toNat_of_nonneg hs).symm
    · dsimp only
      omega
    · intro hin
      by_contra hpast
      have hl := (hlast (by omega)).1
      dsimp only at hin
      omega
  by_cases hin : (p : ℤ)+s ≤ g.bytes.length
  · obtain ⟨hret,hat⟩ := lseek_slice h.held hs hin
    exact .inl (hgoes hret hat)
  · have hlt : (g.bytes.length : ℤ) < p+s := by omega
    rcases lseek_past h.held (hlast hlt).2 hlt with ⟨hret,hat⟩ | ⟨hret,hat⟩
    · exact .inl (hgoes hret hat)
    · rw [hrun,hret,if_pos (by decide)]
      exact .inr ⟨hlt,_,_,rfl,⟨h.cur,rfl,hat,h.filePos,h.totPos,h.inside⟩,rfl⟩

/-- Past the end of a slice is only past the end of the last. -/
theorem SplitAt.last (h : SplitAt gs sf g f p) (hp : g.bytes.length < p) : AtLast gs sf g p := by
  obtain ⟨hi,-⟩ := List.getElem?_eq_some_iff.mp h.cur
  have hin := h.inside
  exact ⟨by omega,by omega⟩

theorem AtLast.length (h : SplitAt gs sf g f p) (hl : AtLast gs sf g p) :
    (whole gs).length = before gs sf.curfile+g.bytes.length := by
  rw [← before_succ h.cur,hl.1,before,List.take_length]

/-- Whether a call may be made: reads are shorter than `2^31`, none is of no bytes before the end of its slice, and a seek
goes to an offset below `2^31` and not before the start of the slice. -/
def SplitOk (gs : List (GoodSlice τ)) (sf : SplitFile τ) : SplitCall → Prop
  | .read size => size < 2^31 ∧ (size = 0 → ∀ g, gs[sf.curfile]? = some g → (g.bytes.length : ℤ) ≤ sf.filePos)
  | .seek offset whence => whence ≠ .end ∧ offset < 2^31 ∧ 0 ≤ sf.filePos+seekBy sf offset whence

/-- `tot_pos` is `file_pos` and the length of the slices before. -/
def TotRight (gs : List (GoodSlice τ)) (sf : SplitFile τ) : Prop := sf.totPos = sf.filePos+before gs sf.curfile

/-- What a call does on the concatenation of the slices. A seek past its end may be refused. -/
def CallRight (gs : List (GoodSlice τ)) (fuel : ℕ) (sf : SplitFile τ) (call : SplitCall) : Prop :=
  let r := splitStep (slices gs) fuel sf call
  TotRight gs r.2 ∧
    match call with
    | .read size =>
      let got := ((whole gs).drop sf.totPos.toNat).take size
      r.1 = some (.read ⟨false,got,size-got.length⟩) ∧ r.2.totPos = sf.totPos+got.length
    | .seek offset whence =>
      let target := seekTarget sf.totPos.toNat offset whence
      (r.1 = some (.seek target) ∧ r.2.totPos = target) ∨
        (whole gs).length < target ∧ r.1 = some (.seek (-1)) ∧ r.2.totPos = max sf.totPos (whole gs).length

theorem SplitAt.totRight (h : SplitAt gs sf g f p) : TotRight gs sf := by
  have htot := h.totPos
  have hfile := h.filePos
  rw [TotRight]
  omega

theorem splitfsSeek_spec {fuel : ℕ} (hfuel : gs.length+2^31 ≤ fuel) (h : SplitAt gs sf g f p) {offset : ℤ} {whence : Whence}
    (hok : SplitOk gs sf (.seek offset whence)) :
    (∃ sf' g' f' p', splitfsSeek (slices gs) fuel sf offset whence = some (sf.totPos+seekBy sf offset whence,sf') ∧
      SplitAt gs sf' g' f' p' ∧ sf'.totPos = sf.totPos+seekBy sf offset whence) ∨
    (whole gs).length < sf.totPos+seekBy sf offset whence ∧ ∃ sf' g' f' p',
      splitfsSeek (slices gs) fuel sf offset whence = some (-1,sf') ∧ SplitAt gs sf' g' f' p' ∧
      sf'.totPos = max sf.totPos (whole gs).length := by
  obtain ⟨hw,hsmall,hback⟩ := hok
  have htot := h.totPos
  have hfile := h.filePos
  have hdist : seekBy sf offset whence < 2^31 := by
    rw [seekBy]
    split <;> omega
  rw [splitfsSeek,if_neg hw]
  dsimp only
  generalize seekBy sf offset whence = d at hback hdist ⊢
  by_cases hpos : 0 < d
  · obtain ⟨d,rfl⟩ := Int.eq_ofNat_of_zero_le hpos.le
    obtain ⟨sf₁,g₁,f₁,p₁,hrun,hat,hpos₁,hend⟩ :=
      splitSeekLoop_spec fuel fuel d (by omega) (by omega) (by omega) h
    generalize hm : min d ((whole gs).length-(before gs sf.curfile+p)) = m at hrun hpos₁ hend
    rw [if_pos hpos,hrun]
    dsimp only
    rw [if_neg (by decide : ¬false = true)]
    have hlast : (g₁.bytes.length : ℤ) < p₁+(d-m : ℕ) → AtLast gs sf₁ g₁ p₁ := by
      intro hlt
      by_cases hmd : m < d
      · exact hend hmd
      · exact hat.last (by omega)
    have htot₁ := hat.totPos
    rcases splitSeekRest_spec hat (s := (d-m : ℕ)) (by omega) hlast with ⟨sf₂,f₂,p₂,hrest,hat₂,hpos₂⟩ | ⟨hlt,sf₂,f₂,hrest,hat₂,hpos₂⟩
    · left
      refine ⟨sf₂,g₁,f₂,p₂,?_,hat₂,by omega⟩
      rw [hrest,hpos₁]
      congr 2
      omega
    · right
      have hlen := AtLast.length hat (hlast hlt)
      exact ⟨by omega,sf₂,g₁,f₂,p₁,hrest,hat₂,by omega⟩
  · rw [if_neg hpos]
    have hlast : (g.bytes.length : ℤ) < p+d → AtLast gs sf g p := fun hlt => h.last (by omega)
    rcases splitSeekRest_spec h (s := d) (by omega) hlast with ⟨sf₂,f₂,p₂,hrest,hat₂,hpos₂⟩ | ⟨hlt,sf₂,f₂,hrest,hat₂,hpos₂⟩
    · exact .inl ⟨sf₂,g,f₂,p₂,hrest,hat₂,hpos₂⟩
    · right
      have hlen := AtLast.length h (hlast hlt)
      exact ⟨by omega,sf₂,g,f₂,p,hrest,hat₂,by omega⟩

/-- One call that may be made does what it does on the concatenation, and leaves a split file. -/
theorem splitStep_spec {fuel : ℕ} (hfuel : gs.length+2^31 ≤ fuel) (h : SplitAt gs sf g f p) {call : SplitCall}
    (hok : SplitOk gs sf call) :
    CallRight gs fuel sf call ∧ ∃ g' f' p', SplitAt gs (splitStep (slices gs) fuel sf call).2 g' f' p' := by
  have htot := h.totPos
  have hnat : sf.totPos.toNat = before gs sf.curfile+p := by omega
  cases call with
  | read size =>
    have hz : size = 0 → g.bytes.length ≤ p := by
      intro h₀
      have hend := hok.2 h₀ g h.cur
      rw [h.filePos] at hend
      exact_mod_cast hend
    obtain ⟨sf₁,g₁,f₁,p₁,hrun,hat,hpos,-⟩ := splitfsRead_spec fuel (by omega) hok.1 h hz
    rw [List.nil_append] at hrun
    simp only [CallRight,splitStep,hrun,hnat]
    exact ⟨⟨hat.totRight,trivial,hpos⟩,g₁,f₁,p₁,hat⟩
  | seek offset whence =>
    have htarget : seekTarget sf.totPos.toNat offset whence = sf.totPos+seekBy sf offset whence := by
      rw [hnat]
      cases whence with
      | set => simp only [seekTarget,seekBy,if_true]; omega
      | cur => rw [seekBy,if_neg (by decide),htot]; rfl
      | «end» => exact absurd rfl hok.1
    simp only [CallRight,splitStep,htarget]
    rcases splitfsSeek_spec hfuel h hok with ⟨sf₁,g₁,f₁,p₁,hrun,hat,hpos⟩ | ⟨hlt,sf₁,g₁,f₁,p₁,hrun,hat,hpos⟩
    · rw [hrun]
      exact ⟨⟨hat.totRight,.inl ⟨rfl,hpos⟩⟩,g₁,f₁,p₁,hat⟩
    · rw [hrun]
      exact ⟨⟨hat.totRight,.inr ⟨hlt,rfl,hpos⟩⟩,g₁,f₁,p₁,hat⟩

/-- The split file reads as the concatenation of its slices, in every run whose calls meet `SplitOk`. -/
theorem splitfs_reads_whole (gs : List (GoodSlice τ)) (hgs : gs ≠ []) (fuel : ℕ) (hfuel : gs.length+2^31 ≤ fuel) :
    ∃ sf, splitfsOpen (slices gs) = some sf ∧ sf.totPos = 0 ∧ TotRight gs sf ∧
      ∀ calls, Along (splitStep (slices gs) fuel) (SplitOk gs) sf calls →
        Along (splitStep (slices gs) fuel) (CallRight gs fuel) sf calls := by
  have hlen : 0 < gs.length := List.length_pos_iff.mpr hgs
  obtain ⟨sf,hopen,htot,-,hat⟩ := splitOpenfile_spec ⟨0,none,0,0⟩ (List.getElem?_eq_getElem hlen) rfl
  refine ⟨sf,?_,htot,hat.totRight,fun calls hok => ?_⟩
  · rw [splitfsOpen,slices_length,if_neg hlen.ne',hopen]
    rfl
  · refine Along.of_invariant (fun sf => ∃ g f p, SplitAt gs sf g f p) ?_ calls sf ⟨_,_,_,hat⟩ hok
    rintro sf call ⟨g,f,p,h⟩ hcall
    exact splitStep_spec hfuel h hcall

end Slices
/-- A slice on a file system of its own. -/
def listSlice (bytes : List UInt8) : GoodSlice ℕ where
  attempt _ := .file (listFile 0)
  ops := listOps bytes
  close := true
  bytes := bytes
  pos := id
  reads := ⟨(listOps_serves bytes).at,fun t o whence hw ht _ => (listOps_serves bytes).seek t o whence hw ht,
    fun t o whence hw ht => .inl ((listOps_serves bytes).seek t o whence hw (by omega))⟩
  first := listFile 0
  opens := rfl
  start := ⟨rfl,rfl,rfl,Nat.zero_le _,by simp only [listFile,List.take_zero],.inl rfl⟩
  closes := rfl

theorem splitfs_reads_two :
    ∃ sf, splitfsOpen (slices [listSlice [1],listSlice [2,3]]) = some sf ∧
      Along (splitStep (slices [listSlice [1],listSlice [2,3]]) (2+2^31))
        (CallRight [listSlice [1],listSlice [2,3]] (2+2^31)) sf [.read 2,.read 5] := by
  obtain ⟨sf,hopen,-,-,hrun⟩ := splitfs_reads_whole [listSlice [1],listSlice [2,3]] (by simp) (2+2^31) le_rfl
  exact ⟨sf,hopen,hrun _ ⟨⟨by norm_num,fun h => absurd h (by decide)⟩,⟨by norm_num,fun h => absurd h (by decide)⟩,trivial⟩⟩

/-- A read of no bytes drops the first slice: the next read is of the second. -/
theorem splitfs_zero_skips :
    (splitfsOpen (slices [listSlice [1],listSlice [2]])).map (fun sf =>
      answers (splitStep (slices [listSlice [1],listSlice [2]]) 4) sf [.read 0,.read 1]) =
        some [some (.read ⟨false,[],0⟩),some (.read ⟨false,[2],0⟩)] ∧
    ((whole [listSlice [1],listSlice [2]]).drop 0).take 1 = [1] := by
  decide

end Blub.Stand
