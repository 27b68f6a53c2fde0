import Blub.Boot.Chdir

/-! What the loop of `chdir` does component by component. -/
namespace Blub.Boot.Dir
open Blub.Bytes Blub.Paths Blub.Scan

/-- The loop at the end of a component, and whether the test for `..` is about to succeed. -/
structure Run extends ChdirState where
  fires : Bool

/-- `..` behind a single slash. -/
def Piece.IsUp (x : Piece) : Prop := x.surplus = 0 ∧ x.comp = dotdot

/-- What is read as `..` where it has been overwritten by itself, one byte further left. -/
def Piece.LooksUp (drift : ℕ) (x : Piece) : Prop :=
  drift = 1 ∧ (x.surplus = 0 ∧ x.comp.length = 2 ∧ x.comp[1]? = some dot ∨ x.surplus = 1 ∧ x.comp = [dot])

instance (x : Piece) : Decidable x.IsUp := inferInstanceAs (Decidable (_ ∧ _))
instance (drift : ℕ) (x : Piece) : Decidable (x.LooksUp drift) := inferInstanceAs (Decidable (_ ∧ _))

section Defs

/-- Where the next slash is written. -/
def Run.next (r : Run) : ℕ := if r.fires then r.p else r.w

/-- From the end of one component to the end of the next. -/
def Run.step (r : Run) (x : Piece) : Run where
  base := blit r.base r.next (x.comp.length+1) (ofList (slash :: x.comp))
  p := if r.fires then r.p else r.b
  b := if r.fires then r.b else r.s+1
  w := r.next+(x.comp.length+1)
  s := r.s+x.text.length
  fires := !r.fires && decide (x.IsUp ∨ x.LooksUp (r.s+x.surplus-r.next))

def run (path : List UInt8) (l : List Piece) : Run := l.foldl Run.step ⟨⟨ofList path,0,0,0,0⟩,false⟩

/-- What the loop needs of its state, and keeps. -/
structure Sound (path : List UInt8) (r : Run) : Prop where
  p_le : r.p ≤ r.b
  b_le : r.b ≤ r.s
  w_le : r.w ≤ r.s
  unread : ∀ y, r.s ≤ y → r.base y = ofList path y
  nonzero : ∀ y < path.length, r.base y ≠ 0
  dots : r.AtDots ↔ r.fires = true

end Defs

section Step
variable {path : List UInt8} {r : Run} {x : Piece}

theorem length_text (x : Piece) : x.text.length = x.surplus+1+x.comp.length := by simp [Piece.text]

theorem ofList_mem {l : List UInt8} {j : ℕ} (h : j < l.length) : ofList l j ∈ l := by
  rw [ofList,List.getD_eq_getElem _ _ h]
  exact List.getElem_mem h

theorem Sound.next_le (h : Sound path r) : r.next ≤ r.s := by
  rw [Run.next]
  split_ifs
  · exact h.p_le.trans h.b_le
  · exact h.w_le

/-- The slashes and the component, as they are read. -/
theorem Sound.reads (h : Sound path r) (htext : ∀ j < x.text.length, ofList path (r.s+j) = ofList x.text j) :
    (∀ j ≤ x.surplus, r.base (r.s+j) = slash) ∧
    ∀ j < x.comp.length, r.base (r.s+x.surplus+1+j) = ofList x.comp j := by
  constructor
  · intro j hj
    rw [h.unread _ (by omega),htext j (by rw [length_text]; omega),Piece.text,ofList_append_left (by simp; omega),ofList]
    simp [List.getD,show j < x.surplus+1 by omega]
  · intro j hj
    have happ := ofList_append_right (List.replicate (x.surplus+1) slash) x.comp j
    rw [List.length_replicate] at happ
    rw [h.unread _ (by omega),show r.s+x.surplus+1+j = r.s+(x.surplus+1+j) by omega,htext _ (by rw [length_text]; omega)]
    exact happ

/-- What a step leaves at `y`. -/
theorem step_base (r : Run) (x : Piece) (y : ℕ) : (r.step x).base y =
    if y = r.next then slash
    else if r.next < y ∧ y < r.next+(x.comp.length+1) then ofList x.comp (y-r.next-1) else r.base y := by
  simp only [Run.step,blit]
  by_cases hy : y = r.next
  · subst hy
    rw [if_pos ⟨le_rfl,by omega⟩,if_pos rfl,Nat.sub_self]
    rfl
  · rw [if_neg hy]
    by_cases hin : r.next < y ∧ y < r.next+(x.comp.length+1)
    · rw [if_pos ⟨hin.1.le,hin.2⟩,if_pos hin]
      obtain ⟨k,hk⟩ := Nat.exists_eq_add_of_lt hin.1
      rw [show y-r.next = k+1 by omega,Nat.add_sub_cancel]
      rfl
    · rw [if_neg (by omega),if_neg hin]

/-- The component is read where it was, and where it has been written. -/
theorem step_last (h : Sound path r) (htext : ∀ j < x.text.length, ofList path (r.s+j) = ofList x.text j) :
    (r.step x).base ((r.step x).s-1) = ofList x.comp (x.comp.length-1) := by
  have hpos := List.length_pos_of_ne_nil x.nonempty
  have hnext := h.next_le
  have hs : (r.step x).s = r.s+(x.surplus+1+x.comp.length) := congrArg (r.s+·) (length_text x)
  have hread := (h.reads htext).2 (x.comp.length-1) (by omega)
  rw [step_base,hs,if_neg (by omega)]
  split_ifs with hin
  · congr 1
    omega
  · rw [← hread]
    congr 1
    omega

/-- The byte before the last is the one of the path, unless it has been overwritten by the last. -/
theorem step_second (h : Sound path r) (htext : ∀ j < x.text.length, ofList path (r.s+j) = ofList x.text j) :
    (r.step x).base ((r.step x).s-2) =
      if r.s+x.surplus-r.next = 1 then ofList x.comp (x.comp.length-1) else ofList x.text (x.text.length-2) := by
  have hpos := List.length_pos_of_ne_nil x.nonempty
  have hnext := h.next_le
  have hlen := length_text x
  have hs : (r.step x).s = r.s+x.text.length := rfl
  obtain ⟨hslash,hcomp⟩ := h.reads htext
  have hsource : r.base ((r.step x).s-2) = ofList x.text (x.text.length-2) := by
    rw [hs,← htext _ (by omega),h.unread _ (by omega)]
    congr 1
    omega
  rw [step_base]
  split_ifs with hslot hdrift hin hdrift hdrift
  · omega
  · -- nothing has moved
    rw [← hsource,← hslash 0 (by omega)]
    congr 1
    omega
  · congr 1
    omega
  · rw [← hsource,← hcomp _ (by omega)]
    congr 1
    omega
  · omega
  · exact hsource

theorem step_dots (h : Sound path r) (htext : ∀ j < x.text.length, ofList path (r.s+j) = ofList x.text j) :
    (r.step x).AtDots ↔ (r.step x).fires = true := by
  have hpos := List.length_pos_of_ne_nil x.nonempty
  have hlen := length_text x
  have hs : (r.step x).s = r.s+x.text.length := rfl
  by_cases hfires : r.fires = true
  · -- the start of the component is not kept
    have hold := (h.dots.mpr hfires).1
    have hb : (r.step x).b = r.b := if_pos hfires
    have hno : (r.step x).fires = false := by simp [Run.step,hfires]
    rw [hno,ChdirState.AtDots,hb,hs]
    refine ⟨fun hd => ?_,fun hd => by cases hd⟩
    omega
  have hb : (r.step x).b = r.s+1 := if_neg hfires
  have hfire : (r.step x).fires = true ↔ x.IsUp ∨ x.LooksUp (r.s+x.surplus-r.next) := by simp [Run.step,hfires]
  rw [hfire,ChdirState.AtDots,hb,hs]
  by_cases htwo : x.surplus+x.comp.length = 2
  · have hlast := step_last h htext
    have hsecond := step_second h htext
    rw [hs,show r.s+x.text.length-1 = r.s+1+1 by omega] at hlast
    rw [hs,show r.s+x.text.length-2 = r.s+1 by omega] at hsecond
    rw [hlast,hsecond,Piece.IsUp,Piece.LooksUp]
    have hlong : r.s+x.text.length = r.s+1+2 := by omega
    obtain hone | hzero : x.surplus = 1 ∨ x.surplus = 0 := by omega
    · -- a single byte behind two slashes
      obtain ⟨a,hc⟩ := List.length_eq_one_iff.mp (show x.comp.length = 1 by omega)
      have htext' : ofList x.text (x.text.length-2) = slash := by simp [Piece.text,hone,hc,ofList]
      have hlast' : ofList x.comp (x.comp.length-1) = a := by simp [hc,ofList]
      rw [htext',hlast',hone,hc]
      by_cases hdrift : r.s+1-r.next = 1
      · simp [hdrift,hlong,dotdot]
      · simp [hdrift,slash,dot]
    · obtain ⟨a,d,hc⟩ := List.length_eq_two.mp (show x.comp.length = 2 by omega)
      have htext' : ofList x.text (x.text.length-2) = a := by simp [Piece.text,hzero,hc,ofList]
      have hlast' : ofList x.comp (x.comp.length-1) = d := by simp [hc,ofList]
      rw [htext',hlast',hzero,hc]
      by_cases hdrift : r.s-r.next = 1
      · simp [hdrift,hlong,dotdot]
      · simp [hdrift,hlong,dotdot]
  · refine ⟨fun hd => absurd (show x.surplus+x.comp.length = 2 by omega) htwo,fun hd => absurd ?_ htwo⟩
    obtain ⟨hzero,hc⟩ | ⟨-,⟨hzero,hc,-⟩ | ⟨hone,hc⟩⟩ := hd
    · rw [hzero,hc]; rfl
    · rw [hzero,hc]
    · rw [hone,hc]; rfl

theorem Sound.step (h : Sound path r) (htext : ∀ j < x.text.length, ofList path (r.s+j) = ofList x.text j) :
    Sound path (r.step x) := by
  have hlen := length_text x
  have hnext := h.next_le
  have hs : (r.step x).s = r.s+x.text.length := rfl
  have hw : (r.step x).w = r.next+(x.comp.length+1) := rfl
  refine ⟨?_,?_,?_,fun y hy => ?_,fun y hy => ?_,step_dots h htext⟩
  · simp only [Run.step]
    split_ifs
    · exact h.p_le
    · exact h.b_le.trans (Nat.le_succ _)
  · simp only [Run.step]
    have hb := h.b_le
    split_ifs <;> omega
  · omega
  · rw [step_base,if_neg (by omega),if_neg (by omega)]
    exact h.unread y (by omega)
  · rw [step_base]
    split_ifs with hslot hin
    · decide
    · exact (x.clean _ (ofList_mem (by omega))).2
    · exact h.nonzero y hy

theorem sound_start (hzero : 0 ∉ path) : Sound path ⟨⟨ofList path,0,0,0,0⟩,false⟩ where
  p_le := le_rfl
  b_le := le_rfl
  w_le := le_rfl
  unread := fun _ _ => rfl
  nonzero := fun _ hy h => hzero (h ▸ ofList_mem hy)
  dots := by simp [ChdirState.AtDots]

end Step

section Loop
variable {path : List UInt8} {r : Run} {x : Piece}

theorem loop_skip {base : ℕ → UInt8} {s k : ℕ} (hslash : ∀ j < k, base (s+1+j) = slash) (hend : base (s+1+k) ≠ slash)
    {fuel : ℕ} (hfuel : k < fuel) : loop (skipTurn base) fuel s = some (s+k) := by
  induction k generalizing s fuel with
  | zero =>
    obtain ⟨fuel,rfl⟩ : ∃ n, fuel = n+1 := ⟨fuel-1,by omega⟩
    exact loop_end (by rw [skipTurn,if_neg hend]; rfl) fuel
  | succ k ih =>
    obtain ⟨fuel,rfl⟩ : ∃ n, fuel = n+1 := ⟨fuel-1,by omega⟩
    have hrest : loop (skipTurn base) fuel (s+1) = some (s+1+k) := by
      apply ih
      · intro j hj
        have hnext := hslash (j+1) (by omega)
        rwa [show s+1+(j+1) = s+1+1+j by omega] at hnext
      · rwa [show s+1+(k+1) = s+1+1+k by omega] at hend
      · omega
    have hturn : skipTurn base s = some (.inr (s+1)) := by rw [skipTurn,if_pos (hslash 0 (by omega))]
    rw [loop_next hturn,hrest,show s+1+k = s+(k+1) by omega]

/-- Bytes that are no slashes are copied. -/
theorem loop_copy {fuel : ℕ} {c : List UInt8} (hc : ∀ a ∈ c, a ≠ slash ∧ a ≠ 0) {st : ChdirState} (hw : st.w ≤ st.s)
    (hread : ∀ j < c.length, st.base (st.s+j) = ofList c j) (n : ℕ) :
    loop (compactTurn fuel) (n+c.length) st = loop (compactTurn fuel) n
      {st with base := blit st.base st.w c.length (ofList c), w := st.w+c.length, s := st.s+c.length} := by
  induction c generalizing st with
  | nil =>
    have hblit : blit st.base st.w ([] : List UInt8).length (ofList []) = st.base := by
      funext y
      exact if_neg (by simp)
    rw [hblit]
    rfl
  | cons a c ih =>
    have ha : st.base st.s = a := hread 0 (by simp)
    obtain ⟨hslash,hzero⟩ := hc a List.mem_cons_self
    have hturn : compactTurn fuel st = some (.inr st.copy) := by
      rw [compactTurn,if_neg (by rwa [ha]),if_neg (by rwa [ha])]
    rw [List.length_cons,← Nat.add_assoc,loop_next hturn,ih (fun d hd => hc d (List.mem_cons_of_mem _ hd))]
    · simp only [ChdirState.copy,ha,blit_update]
      congr 2 <;> omega
    · exact Nat.succ_le_succ hw
    · intro j hj
      have hne : st.s+1+j ≠ st.w := by omega
      rw [show st.copy.base (st.copy.s+j) = st.base (st.s+1+j) from Function.update_of_ne hne _ _,
        show st.s+1+j = st.s+(j+1) by omega,hread (j+1) (by simpa using hj)]
      rfl

/-- The slashes before a component and the component. -/
theorem loop_step (h : Sound path r) (htext : ∀ j < x.text.length, ofList path (r.s+j) = ofList x.text j) {fuel : ℕ}
    (hfuel : x.surplus < fuel) (n : ℕ) : loop (compactTurn fuel) (n+(x.comp.length+1)) r.toChdirState =
      loop (compactTurn fuel) n (r.step x).toChdirState := by
  obtain ⟨hslash,hcomp⟩ := h.reads htext
  have hpos := List.length_pos_of_ne_nil x.nonempty
  have hnext := h.next_le
  have hbase : r.base r.s = slash := hslash 0 (Nat.zero_le _)
  have hskip : loop (skipTurn r.base) fuel r.s = some (r.s+x.surplus) := by
    refine loop_skip (fun j hj => ?_) ?_ hfuel
    · rw [show r.s+1+j = r.s+(j+1) by omega]
      exact hslash (j+1) hj
    · rw [show r.s+1+x.surplus = r.s+x.surplus+1+0 by omega,hcomp 0 hpos]
      exact (x.clean _ (ofList_mem hpos)).1
  -- the state behind the slashes
  obtain ⟨st,hst⟩ : ∃ st : ChdirState, st = ⟨Function.update r.base r.next slash,(r.step x).p,(r.step x).b,r.next+1,
    r.s+x.surplus+1⟩ := ⟨_,rfl⟩
  have hturn : compactTurn fuel r.toChdirState = some (.inr st) := by
    rw [compactTurn,hbase,if_neg (by decide),if_pos rfl,hst]
    by_cases hfires : r.fires = true
    · simp only [h.dots.mpr hfires,if_true,hskip,ChdirState.copy,hslash x.surplus le_rfl,Run.next,Run.step,hfires]
    · have hno : ¬r.AtDots := fun hd => hfires (h.dots.mp hd)
      simp only [hno,if_false,hskip,ChdirState.copy,hslash x.surplus le_rfl,Run.next,Run.step,hfires]
      rfl
  have hw : st.w ≤ st.s := by
    rw [hst]
    show r.next+1 ≤ r.s+x.surplus+1
    omega
  have hread : ∀ j < x.comp.length, st.base (st.s+j) = ofList x.comp j := by
    intro j hj
    have hne : r.s+x.surplus+1+j ≠ r.next := by omega
    rw [← hcomp j hj,hst]
    exact Function.update_of_ne hne _ _
  rw [← Nat.add_assoc,loop_next hturn,loop_copy x.clean hw hread,hst]
  simp only [blit_update,Run.step,length_text]
  congr 2 <;> omega

/-- All components, one after the other. -/
theorem loop_steps {l : List Piece} (h : Sound path r)
    (htext : ∀ j < (source l).length, ofList path (r.s+j) = ofList (source l) j) {fuel : ℕ}
    (hfuel : (source l).length < fuel) :
    Sound path (l.foldl Run.step r) ∧ (l.foldl Run.step r).s = r.s+(source l).length ∧ ∀ n,
      loop (compactTurn fuel) (n+(render slash (comps l)).length) r.toChdirState =
        loop (compactTurn fuel) n (l.foldl Run.step r).toChdirState := by
  induction l generalizing r with
  | nil => exact ⟨h,rfl,fun n => rfl⟩
  | cons x l ih =>
    have hsource : source (x :: l) = x.text ++ source l := rfl
    rw [hsource,List.length_append] at htext hfuel
    have hlen := length_text x
    have hx : ∀ j < x.text.length, ofList path (r.s+j) = ofList x.text j := by
      intro j hj
      rw [htext j (by omega),ofList_append_left hj]
    have hl : ∀ j < (source l).length, ofList path ((r.step x).s+j) = ofList (source l) j := by
      intro j hj
      rw [show (r.step x).s+j = r.s+(x.text.length+j) from Nat.add_assoc _ _ _,htext _ (by omega),ofList_append_right]
    obtain ⟨hsound,hs,hloop⟩ := ih (h.step hx) hl (by omega)
    refine ⟨hsound,?_,fun n => ?_⟩
    · rw [List.foldl_cons,hs,hsource,List.length_append]
      exact Nat.add_assoc _ _ _
    · rw [List.foldl_cons,← hloop n,← loop_step h hx (by omega)]
      congr 1
      simp [comps]
      omega

end Loop

section Finish
variable {base base' : ℕ → UInt8} {w : ℕ}

theorem stripSlashes_le (base : ℕ → UInt8) (w : ℕ) : stripSlashes base w ≤ w := by
  induction w with
  | zero => exact le_rfl
  | succ w ih =>
    rw [stripSlashes]
    split_ifs
    · exact ih.trans (Nat.le_succ w)
    · exact le_rfl

theorem slice_stripSlashes (base : ℕ → UInt8) (w : ℕ) :
    slice base 0 (stripSlashes base w) = (slice base 0 w).rdropWhile (· = slash) := by
  induction w with
  | zero => rfl
  | succ w ih =>
    rw [stripSlashes,slice_append,Nat.zero_add,slice,slice,List.rdropWhile_concat]
    by_cases hw : base w = slash
    · rw [if_pos hw,if_pos (by simpa using hw),ih]
    · rw [if_neg hw,if_neg (by simpa using hw),slice_append,Nat.zero_add]
      rfl

/-- The string that is left in the buffer. -/
theorem takeWhile_finish (hzero : ∀ y < w, base y ≠ 0) :
    (slice (Function.update (Function.update base (stripSlashes base w) slash) (stripSlashes base w+1) 0) 0
      (stripSlashes base w+1)).takeWhile (· ≠ 0) = (slice base 0 w).rdropWhile (· = slash) ++ [slash] := by
  have hle := stripSlashes_le base w
  have hcut : slice (Function.update (Function.update base (stripSlashes base w) slash) (stripSlashes base w+1) 0) 0
      (stripSlashes base w+1) = slice base 0 (stripSlashes base w) ++ [slash] := by
    rw [slice_append,Nat.zero_add]
    congr 1
    · rw [slice_eq_iff]
      intro j hj
      rw [Function.update_of_ne (by omega),Function.update_of_ne (by omega)]
    · simp [slice]
  rw [hcut,slice_stripSlashes]
  refine List.takeWhile_eq_self_iff.mpr fun a ha => ?_
  obtain ha | ha := List.mem_append.mp ha
  · obtain ⟨j,hj,rfl⟩ := List.getElem_of_mem (List.rdropWhile_prefix _ _ |>.subset ha)
    rw [getElem_slice,Nat.zero_add]
    exact decide_eq_true (hzero j (by simpa using hj))
  · rw [List.mem_singleton.mp ha]
    decide

end Finish

section Whole

/-- What is left of the path before slashes at its end are taken off. -/
def Run.out (r : Run) : List UInt8 := slice r.base 0 r.next

/-- The end of the loop, at the last component or behind slashes that follow it. -/
theorem loop_finish {path : List UInt8} {r : Run} (h : Sound path r) {n : ℕ} (hlen : path.length = r.s+n)
    (hslash : ∀ j < n, ofList path (r.s+j) = slash) {fuel : ℕ} (hfuel : path.length < fuel) {m : ℕ} (hm : n ≠ 0 → 2 ≤ m)
    (hm' : 1 ≤ m) : ∃ st, loop (compactTurn fuel) m r.toChdirState = some st ∧
      (∀ y < (if st.AtDots then st.p else st.w), st.base y ≠ 0) ∧
      (slice st.base 0 (if st.AtDots then st.p else st.w)).rdropWhile (· = slash) = r.out.rdropWhile (· = slash) := by
  have hnext := h.next_le
  have hend : ofList path path.length = 0 := by simp [ofList]
  obtain rfl | hpos := Nat.eq_zero_or_pos n
  · obtain ⟨m,rfl⟩ : ∃ k, m = k+1 := ⟨m-1,by omega⟩
    have hbase : r.base r.s = 0 := by rw [h.unread _ le_rfl,← Nat.add_zero r.s,← hlen,hend]
    have hpick : (if r.AtDots then r.p else r.w) = r.next := by simp only [Run.next,h.dots]
    refine ⟨r.toChdirState,loop_end (by rw [compactTurn,if_pos hbase]) m,?_,?_⟩
    · rw [hpick]
      exact fun y hy => h.nonzero y (by omega)
    · rw [hpick]
      rfl
  obtain ⟨m,rfl⟩ : ∃ k, m = k+2 := ⟨m-2,by have := hm (by omega); omega⟩
  have hread : ∀ j < n, r.base (r.s+j) = slash := fun j hj => by rw [h.unread _ (by omega),hslash j hj]
  have hbase : r.base r.s = slash := hread 0 hpos
  have hstop : r.base (r.s+n) = 0 := by rw [h.unread _ (by omega),← hlen,hend]
  have hskip : loop (skipTurn r.base) fuel r.s = some (r.s+(n-1)) := by
    refine loop_skip (fun j hj => ?_) ?_ (by omega)
    · rw [show r.s+1+j = r.s+(j+1) by omega]
      exact hread (j+1) (by omega)
    · rw [show r.s+1+(n-1) = r.s+n by omega,hstop]
      decide
  obtain ⟨st,hst⟩ : ∃ st : ChdirState, st = ⟨Function.update r.base r.next slash,if r.fires then r.p else r.b,
    if r.fires then r.b else r.s+1,r.next+1,r.s+n⟩ := ⟨_,rfl⟩
  have hturn : compactTurn fuel r.toChdirState = some (.inr st) := by
    have hback : r.s+(n-1)+1 = r.s+n := by omega
    rw [compactTurn,hbase,if_neg (by decide),if_pos rfl,hst]
    by_cases hfires : r.fires = true
    · simp only [h.dots.mpr hfires,if_true,hskip,ChdirState.copy,hread (n-1) (by omega),Run.next,hfires,hback]
    · have hno : ¬r.AtDots := fun hd => hfires (h.dots.mp hd)
      simp only [hno,if_false,hskip,ChdirState.copy,hread (n-1) (by omega),Run.next,hfires,hback]
      rfl
  have hstop' : compactTurn fuel st = some (.inl st) := by
    rw [compactTurn,if_pos]
    rw [hst]
    exact (Function.update_of_ne (show r.s+n ≠ r.next by omega) _ _).trans hstop
  -- the slashes are not taken for dots
  have hno : ¬st.AtDots := by
    rintro ⟨hs,hb,-⟩
    rw [hst] at hs hb
    by_cases hfires : r.fires = true
    · have hold := (h.dots.mpr hfires).1
      simp only [hfires,if_true] at hs
      omega
    · simp only [hfires,Bool.false_eq_true,if_false] at hs hb
      rw [Function.update_of_ne (by omega),hread 1 (by omega)] at hb
      exact absurd hb (by decide)
  have hw : st.w = r.next+1 := by rw [hst]
  have hout : slice st.base 0 (r.next+1) = r.out ++ [slash] := by
    rw [slice_append,Nat.zero_add,hst]
    congr 1
    · exact slice_eq_iff.mpr fun j hj => Function.update_of_ne (by omega) _ _
    · simp [slice]
  refine ⟨st,?_,?_,?_⟩
  · rw [loop_next hturn,loop_end hstop']
  · rw [if_neg hno,hw,show st.base = Function.update r.base r.next slash by rw [hst]]
    intro y hy
    by_cases hy' : y = r.next
    · rw [hy',Function.update_self]
      decide
    · rw [Function.update_of_ne hy']
      exact h.nonzero y (by omega)
  · rw [if_neg hno,hw,hout]
    exact List.rdropWhile_concat_pos _ _ _ (by simp)

/-- The whole of `compact`, component by component. -/
theorem compact_eq {l : List Piece} {n : ℕ} (hzero : 0 ∉ source l ++ List.replicate n slash) {fuel : ℕ}
    (hfuel : (source l ++ List.replicate n slash).length < fuel) :
    compact fuel (source l ++ List.replicate n slash) =
      some ((run (source l ++ List.replicate n slash) l).out.rdropWhile (· = slash) ++ [slash]) := by
  obtain ⟨path,hpath⟩ : ∃ path, path = source l ++ List.replicate n slash := ⟨_,rfl⟩
  rw [← hpath] at hzero hfuel ⊢
  have hlen : path.length = (source l).length+n := by simp [hpath]
  obtain ⟨hsound,hs,hloop⟩ := loop_steps (l := l) (sound_start hzero) (fun j hj => by
    rw [Nat.zero_add,hpath,ofList_append_left hj]) (show (source l).length < fuel by omega)
  rw [← run] at hsound hs hloop
  have hs : (run path l).s = (source l).length := hs.trans (Nat.zero_add _)
  have htext := length_source l
  obtain ⟨st,hend,hnonzero,hout⟩ := loop_finish (n := n) (m := fuel-(render slash (comps l)).length) hsound (by omega)
    (fun j hj => by
      rw [hs,hpath,ofList_append_right,ofList]
      simp [List.getD,hj]) hfuel (by omega) (by omega)
  have hrun := hloop (fuel-(render slash (comps l)).length)
  rw [Nat.sub_add_cancel (by omega)] at hrun
  rw [compact,hrun,hend]
  simp only
  rw [takeWhile_finish hnonzero,hout]

end Whole

end Blub.Boot.Dir
