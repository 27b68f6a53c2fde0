import Mathlib.Data.List.GetD
import Mathlib.Tactic

/-! The input buffer of a compressed file: `zf_fill` and `get_byte`, as `gzipfs.c` and `bzipfs.c` have them. -/
namespace Blub.Stand

/-- The file that is open as the raw descriptor. The `n`th `read` of it fails or gives what there is, up to the count. -/
structure RawFile where
  content : List UInt8
  fails : ℕ → Bool

/-- The buffer and the place in it, the descriptor's offset and its reads so far. `wrapped` records that `avail_in` has
gone below zero. -/
structure ZBuf where
  buf : List UInt8
  nextIn : ℕ
  availIn : ℕ
  pos : ℕ
  reads : ℕ
  wrapped : Bool

/-- `Z_BUFSIZE` and `BZ_BUFSIZE`. -/
def zBufsize : ℕ := 2048

/-- What `bzero` leaves. -/
def ZBuf.fresh : ZBuf := ⟨List.replicate zBufsize 0,0,0,0,0,false⟩

section Code
variable (raw : RawFile)

/-- `zf_fill` and `bzf_fill`, where no more than the buffer holds is available. -/
def zFill (z : ZBuf) : ℤ × ZBuf :=
  let req := zBufsize-z.availIn
  if req = 0 then (0,z)
  else
    let buf := if req < zBufsize then z.buf.drop req ++ z.buf.drop (zBufsize-req) else z.buf
    if raw.fails z.reads then (-1,{z with buf, nextIn := 0, reads := z.reads+1})
    else
      let got := (raw.content.drop z.pos).take req
      (got.length,{z with
        buf := buf.take z.availIn ++ got ++ buf.drop (z.availIn+got.length)
        nextIn := 0
        availIn := z.availIn+got.length
        pos := z.pos+got.length
        reads := z.reads+1})

/-- The common part of the two `get_byte`s. No byte for -1; no result where `next_in` has left the buffer. -/
def nextByte (z : ZBuf) : Option (Option UInt8 × ZBuf) :=
  let r := if z.availIn = 0 then zFill raw z else (0,z)
  if r.1 = -1 then some (none,r.2)
  else
    match r.2.buf[r.2.nextIn]? with
    | none => none
    | some b => some (some b,{r.2 with
        nextIn := r.2.nextIn+1
        availIn := (r.2.availIn+2^32-1)%2^32
        wrapped := r.2.wrapped || decide (r.2.availIn = 0)})

end Code

namespace ZBuf

/-- What the decompressor is given. -/
def input (z : ZBuf) : List UInt8 := (z.buf.drop z.nextIn).take z.availIn

variable (raw : RawFile)

/-- The bytes that are still to come, buffered or in the file. -/
structure Rest (z : ZBuf) (l : List UInt8) : Prop where
  size : z.buf.length = zBufsize
  inside : z.nextIn+z.availIn ≤ zBufsize
  unread : z.input ++ raw.content.drop z.pos = l
  sound : z.wrapped = false

variable {raw}

theorem fresh_rest : fresh.Rest raw raw.content where
  size := List.length_replicate
  inside := by decide
  unread := by simp [fresh,input]
  sound := rfl

theorem Rest.length_input {z : ZBuf} {l : List UInt8} (h : z.Rest raw l) : z.input.length = z.availIn := by
  have hsize := h.size
  have hinside := h.inside
  simp only [input,List.length_take,List.length_drop]
  omega

theorem zFill_nextIn {z : ZBuf} (h : z.availIn = 0) : (zFill raw z).2.nextIn = 0 := by
  have hpos : zBufsize ≠ 0 := by decide
  simp only [zFill,h,Nat.sub_zero,if_neg hpos]
  split_ifs <;> rfl

/-- A refill of the empty buffer. -/
theorem Rest.fill {z : ZBuf} {l : List UInt8} (h : z.Rest raw l) (hempty : z.availIn = 0) :
    (zFill raw z).2.Rest raw l ∧ ((zFill raw z).1 = -1 ↔ raw.fails z.reads = true) ∧
      (raw.fails z.reads = false → (zFill raw z).2.input = l.take zBufsize) := by
  have hrest : raw.content.drop z.pos = l := by
    have := h.unread
    rwa [input,hempty,List.take_zero,List.nil_append] at this
  have hsize := h.size
  have hpos : zBufsize ≠ 0 := by decide
  by_cases hfail : raw.fails z.reads = true
  · have heq : zFill raw z = (-1,{z with nextIn := 0, reads := z.reads+1}) := by
      simp [zFill,hempty,hpos,hfail]
    rw [heq]
    refine ⟨⟨hsize,by simp [hempty],?_,h.sound⟩,by simp [hfail],fun hno => absurd hfail (by simp [hno])⟩
    simp [input,hempty,hrest]
  · obtain ⟨got,hgot⟩ : ∃ got, got = l.take zBufsize := ⟨_,rfl⟩
    have heq : zFill raw z = ((got.length : ℤ),{z with
        buf := got ++ z.buf.drop got.length
        nextIn := 0
        availIn := got.length
        pos := z.pos+got.length
        reads := z.reads+1}) := by
      simp [zFill,hempty,hpos,hfail,hrest,hgot]
    have hinput : (zFill raw z).2.input = got := by
      simp [heq,input]
    have hle : got.length ≤ zBufsize := hgot ▸ List.length_take_le ..
    refine ⟨⟨?_,?_,?_,?_⟩,?_,fun _ => hinput.trans hgot⟩
    · rw [heq]
      simp only [List.length_append,List.length_drop]
      omega
    · rw [heq]
      dsimp only
      omega
    · rw [hinput,heq]
      dsimp only
      rw [← List.drop_drop,hrest,hgot,List.length_take]
      rcases Nat.le_total zBufsize l.length with hlen | hlen
      · rw [Nat.min_eq_left hlen,List.take_append_drop]
      · rw [Nat.min_eq_right hlen,List.take_of_length_le hlen,List.drop_length,List.append_nil]
    · rw [heq]
      exact h.sound
    · rw [heq]
      have hne : (got.length : ℤ) ≠ -1 := by omega
      simp [hfail,hne]

/-- The buffer as `get_byte` looks at it. -/
theorem Rest.load {z : ZBuf} {l : List UInt8} (h : z.Rest raw l) (hread : ∀ n, raw.fails n = false) :
    ∃ z', (∃ n, (if z.availIn = 0 then zFill raw z else (0,z)) = (n,z') ∧ n ≠ -1) ∧ z'.Rest raw l ∧
      (z'.availIn = 0 ↔ l = []) := by
  by_cases hempty : z.availIn = 0
  · obtain ⟨hrest,hfail,hinput⟩ := h.fill hempty
    refine ⟨(zFill raw z).2,⟨(zFill raw z).1,if_pos hempty,fun hneg => ?_⟩,hrest,?_⟩
    · rw [hfail,hread] at hneg
      cases hneg
    rw [← hrest.length_input,hinput (hread _),List.length_take]
    have hsize : zBufsize ≠ 0 := by decide
    rw [← List.length_eq_zero_iff]
    omega
  · refine ⟨z,⟨0,if_neg hempty,by decide⟩,h,fun h₀ => absurd h₀ hempty,?_⟩
    intro hl
    have hinput := h.length_input
    have hunread := h.unread
    rw [hl,List.append_eq_nil_iff] at hunread
    rw [hunread.1] at hinput
    exact hinput.symm

/-- A byte is taken from the buffer, or from the refilled buffer. -/
theorem nextByte_taken {z : ZBuf} {b : UInt8} {l : List UInt8} (h : z.Rest raw (b::l)) (hread : ∀ n, raw.fails n = false) :
    ∃ z' t, (if z.availIn = 0 then zFill raw z else (0,z)).2 = z' ∧ nextByte raw z = some (some b,t) ∧ t.Rest raw l ∧
      t.buf = z'.buf ∧ t.nextIn = z'.nextIn+1 ∧ z'.buf[z'.nextIn]? = some b ∧ z'.input = b::t.input := by
  obtain ⟨z',⟨n,hload,hn⟩,hz,hiff⟩ := h.load hread
  have hsome : z'.availIn ≠ 0 := fun h₀ => List.cons_ne_nil _ _ (hiff.mp h₀)
  have hlen := hz.length_input
  have hinside := hz.inside
  have hsize := hz.size
  obtain ⟨i,hi⟩ : ∃ i, z'.input = b::i := by
    have hunread := hz.unread
    cases hin : z'.input with
    | nil =>
      rw [hin] at hlen
      exact absurd hlen.symm hsome
    | cons c i =>
      rw [hin,List.cons_append,List.cons.injEq] at hunread
      exact ⟨i,by rw [hunread.1]⟩
  have hget : z'.buf[z'.nextIn]? = some b := by
    have h₀ := congrArg (·[0]?) hi
    simpa [input,List.getElem?_take,Nat.pos_of_ne_zero hsome] using h₀
  have havail : (z'.availIn+2^32-1)%2^32 = z'.availIn-1 := by
    have hbound : zBufsize = 2048 := rfl
    omega
  have hinput : (z'.buf.drop (z'.nextIn+1)).take (z'.availIn-1) = i := by
    rw [input,← Nat.succ_pred_eq_of_ne_zero hsome] at hi
    rw [← List.tail_drop]
    cases hdrop : z'.buf.drop z'.nextIn with
    | nil => simp [hdrop] at hi
    | cons c m =>
      rw [hdrop,List.take_succ_cons,List.cons.injEq] at hi
      exact hi.2
  refine ⟨z',{z' with
    nextIn := z'.nextIn+1
    availIn := (z'.availIn+2^32-1)%2^32
    wrapped := z'.wrapped || decide (z'.availIn = 0)},by rw [hload],by simp only [nextByte,hload,if_neg hn,hget],
    ⟨hsize,?_,?_,?_⟩,rfl,rfl,hget,?_⟩
  · dsimp only
    omega
  · have hunread := hz.unread
    rw [hi,List.cons_append,List.cons.injEq] at hunread
    simp only [input,havail,hinput]
    exact hunread.2
  · simp [hz.sound,hsome]
  · simp only [input,havail,hinput]
    exact hi

theorem nextByte_cons {z : ZBuf} {b : UInt8} {l : List UInt8} (h : z.Rest raw (b::l)) (hread : ∀ n, raw.fails n = false) :
    ∃ z', nextByte raw z = some (some b,z') ∧ z'.Rest raw l := by
  obtain ⟨_,z',_,hnext,hrest,_⟩ := nextByte_taken h hread
  exact ⟨z',hnext,hrest⟩

/-- At the end of the file the counter wraps. -/
theorem nextByte_nil {z : ZBuf} {r : Option UInt8 × ZBuf} (h : z.Rest raw []) (hread : ∀ n, raw.fails n = false)
    (hr : nextByte raw z = some r) : r.2.wrapped = true := by
  obtain ⟨z',⟨n,hload,hn⟩,_,hiff⟩ := h.load hread
  simp only [nextByte,hload,if_neg hn] at hr
  split at hr
  · cases hr
  · cases hr
    simp [hiff.mpr rfl]

theorem nextByte_wrapped {z : ZBuf} {r : Option UInt8 × ZBuf} (h : z.wrapped = true) (hr : nextByte raw z = some r) :
    r.2.wrapped = true := by
  have hfill : (if z.availIn = 0 then zFill raw z else (0,z)).2.wrapped = true := by
    simp only [zFill]
    split_ifs <;> exact h
  simp only [nextByte] at hr
  generalize (if z.availIn = 0 then zFill raw z else (0,z)) = loaded at hr hfill
  by_cases hneg : loaded.1 = -1
  · rw [if_pos hneg] at hr
    cases hr
    exact hfill
  · rw [if_neg hneg] at hr
    split at hr
    · cases hr
    · cases hr
      simp [hfill]

end ZBuf
end Blub.Stand
