import Blub.Boot.ChdirRuns

/-! Where `chdir` goes back over components, and what is left of the path then. -/
namespace Blub.Boot.Dir
open Blub.Bytes Blub.Paths

section Defs
variable (path : List UInt8)

/-- The test for `..` has succeeded. -/
def Fired (l : List Piece) : Prop := ∃ a b, l = a ++ b ∧ (run path a).fires = true

/-- What is left is the normal form without its last slash. -/
def Exact (l : List Piece) : Prop := (run path l).out = render slash (reduce dotdot (comps l))

/-- It is, once slashes at its end are taken off. -/
def Right (l : List Piece) : Prop :=
  (run path l).out.rdropWhile (· = slash) = render slash (reduce dotdot (comps l))

end Defs

section Run
variable {path : List UInt8} {l : List Piece} {x : Piece}

theorem run_concat (path : List UInt8) (l : List Piece) (x : Piece) : run path (l ++ [x]) = (run path l).step x := by
  simp [run]

theorem comps_concat (l : List Piece) (x : Piece) : comps (l ++ [x]) = comps l ++ [x.comp] := by simp [comps]

theorem extra_concat (l : List Piece) (x : Piece) : extra (l ++ [x]) = extra l+x.surplus := by simp [extra]

theorem sound_run (hzero : 0 ∉ path) (hl : source l <+: path) :
    Sound path (run path l) ∧ (run path l).s = (source l).length := by
  obtain ⟨rest,rfl⟩ := hl
  obtain ⟨hsound,hs,-⟩ := loop_steps (l := l) (sound_start hzero) (fun j hj => by
    rw [Nat.zero_add,ofList_append_left hj]) (Nat.lt_succ_self _)
  exact ⟨hsound,hs.trans (Nat.zero_add _)⟩

theorem prefix_of_concat (hl : source (l ++ [x]) <+: path) : source l <+: path := by
  rw [source_concat] at hl
  exact (List.prefix_append _ _).trans hl

theorem reads_run (hzero : 0 ∉ path) (hl : source (l ++ [x]) <+: path) :
    ∀ j < x.text.length, ofList path ((run path l).s+j) = ofList x.text j := by
  intro j hj
  rw [(sound_run hzero (prefix_of_concat hl)).2]
  obtain ⟨rest,rfl⟩ := hl
  rw [source_concat,List.append_assoc,ofList_append_right,ofList_append_left hj]

theorem length_out (r : Run) : r.out.length = r.next := length_slice _ _ _

/-- The component is written behind what is left. -/
theorem slice_step (r : Run) (x : Piece) : slice (r.step x).base 0 (r.step x).w = r.out ++ slash :: x.comp := by
  rw [show (r.step x).w = r.next+(x.comp.length+1) from rfl,slice_append,Nat.zero_add]
  congr 1
  · refine slice_eq_iff.mpr fun j hj => ?_
    rw [step_base,if_neg (by omega),if_neg (by omega)]
  · apply List.ext_getElem
    · simp
    · intro j h₁ h₂
      rw [getElem_slice]
      rw [length_slice] at h₁
      show blit r.base r.next (x.comp.length+1) (ofList (slash :: x.comp)) (r.next+j) = _
      rw [blit_inside (by omega) (by omega),Nat.add_sub_cancel_left,ofList,List.getD_eq_getElem _ _ h₂]

theorem out_concat (h : (run path (l ++ [x])).fires = false) :
    (run path (l ++ [x])).out = (run path l).out ++ slash :: x.comp := by
  rw [Run.out,Run.next,h,run_concat]
  exact slice_step _ _

/-- What is left where the test succeeds. -/
theorem out_of_fires (h : (run path (l ++ [x])).fires = true)
    (hle : (run path (l ++ [x])).p ≤ (run path l).next+(x.comp.length+1)) :
    (run path (l ++ [x])).out = ((run path l).out ++ slash :: x.comp).take (run path (l ++ [x])).p := by
  rw [← slice_step,← run_concat,Run.out,Run.next,h,if_pos rfl]
  have hw : (run path (l ++ [x])).w = (run path l).next+(x.comp.length+1) := by rw [run_concat]; rfl
  obtain ⟨k,hk⟩ := Nat.exists_eq_add_of_le (hle.trans hw.ge)
  rw [hk,slice_append]
  exact (List.take_left' (length_slice _ _ _)).symm

theorem fires_concat : (run path (l ++ [x])).fires = true ↔ (run path l).fires = false ∧
    (x.IsUp ∨ x.LooksUp ((run path l).s+x.surplus-(run path l).next)) := by
  rw [run_concat]
  simp [Run.step]

theorem comp_of_looksUp {drift : ℕ} (h : x.IsUp ∨ x.LooksUp drift) : x.text.length = 3 := by
  rw [length_text]
  obtain ⟨hzero,hc⟩ | ⟨-,⟨hzero,hc,-⟩ | ⟨hone,hc⟩⟩ := h
  · rw [hzero,hc]; rfl
  · rw [hzero,hc]
  · rw [hone,hc]; rfl

end Run

section Fired
variable {path : List UInt8} {l : List Piece} {x : Piece}

theorem fired_concat : Fired path (l ++ [x]) ↔ Fired path l ∨ (run path (l ++ [x])).fires = true := by
  constructor
  · rintro ⟨a,b,hab,hfires⟩
    obtain rfl | ⟨b,y,rfl⟩ := List.eq_nil_or_concat' b
    · rw [List.append_nil] at hab
      exact .inr (hab ▸ hfires)
    · rw [← List.append_assoc] at hab
      exact .inl ⟨a,b,(List.append_inj' hab rfl).1,hfires⟩
  · rintro (⟨a,b,rfl,hfires⟩ | hfires)
    · exact ⟨a,b ++ [x],by simp,hfires⟩
    · exact ⟨l ++ [x],[],by simp,hfires⟩

theorem not_fired_nil : ¬Fired path [] := by
  rintro ⟨a,b,hab,hfires⟩
  obtain ⟨rfl,rfl⟩ := List.append_eq_nil_iff.mp hab.symm
  cases hfires

/-- Once it has gone back, the loop writes at least three bytes behind where it reads. -/
theorem drift_of_fired (hzero : 0 ∉ path) (hl : source l <+: path) (h : Fired path l) :
    (run path l).next+3 ≤ (run path l).s := by
  induction l using List.reverseRecOn with
  | nil => exact absurd h not_fired_nil
  | append_singleton l x ih =>
    have hsound := (sound_run hzero (prefix_of_concat hl)).1
    have hs : (run path (l ++ [x])).s = (run path l).s+x.text.length := by rw [run_concat]; rfl
    by_cases hfires : (run path (l ++ [x])).fires = true
    · obtain ⟨hlive,hlooks⟩ := fires_concat.mp hfires
      have hp : (run path (l ++ [x])).p = (run path l).b := by rw [run_concat]; exact if_neg (by simp [hlive])
      have hb := hsound.b_le
      rw [hs,comp_of_looksUp hlooks,Run.next,if_pos hfires]
      omega
    · have hold := ih (prefix_of_concat hl) ((fired_concat.mp h).resolve_right hfires)
      have hw : (run path (l ++ [x])).w = (run path l).next+(x.comp.length+1) := by rw [run_concat]; rfl
      rw [hs,length_text,Run.next,if_neg hfires]
      omega

theorem out_of_quiet (h : ¬Fired path l) : (run path l).out = render slash (comps l) := by
  induction l using List.reverseRecOn with
  | nil => rfl
  | append_singleton l x ih =>
    have hno : ¬(Fired path l ∨ (run path (l ++ [x])).fires = true) := fun hf => h (fired_concat.mpr hf)
    push Not at hno
    rw [out_concat (by simpa using hno.2),ih hno.1,comps_concat,render_concat]

theorem next_of_quiet (h : ¬Fired path l) : (run path l).next = (render slash (comps l)).length := by
  rw [← length_out,out_of_quiet h]

theorem fires_of_quiet (hzero : 0 ∉ path) (hl : source l <+: path) (h : ¬Fired path l) :
    (run path (l ++ [x])).fires = true ↔ x.IsUp ∨ x.LooksUp (extra (l ++ [x])) := by
  have hlive : (run path l).fires = false := by
    simpa using fun hfires => h ⟨l,[],(List.append_nil l).symm,hfires⟩
  have hdrift : (run path l).s+x.surplus-(run path l).next = extra (l ++ [x]) := by
    rw [(sound_run hzero hl).2,next_of_quiet h,length_source,extra_concat]
    omega
  rw [fires_concat,hdrift]
  exact and_iff_right hlive

/-- Later on only `..` itself is taken for `..`. -/
theorem isUp_of_fired (hzero : 0 ∉ path) (hl : source l <+: path) (h : Fired path l)
    (hfires : (run path (l ++ [x])).fires = true) : x.IsUp := by
  obtain hup | hlooks := (fires_concat.mp hfires).2
  · exact hup
  · have hdrift := drift_of_fired hzero hl h
    have hone := hlooks.1
    omega

theorem quiet_of_single (hzero : 0 ∉ path) (hl : source l <+: path) (hextra : extra l = 0) (hup : dotdot ∉ comps l) :
    ¬Fired path l := by
  induction l using List.reverseRecOn with
  | nil => exact not_fired_nil
  | append_singleton l x ih =>
    rw [extra_concat] at hextra
    rw [comps_concat] at hup
    have hquiet := ih (prefix_of_concat hl) (by omega) fun hmem => hup (List.mem_append_left _ hmem)
    rw [fired_concat,fires_of_quiet hzero (prefix_of_concat hl) hquiet,extra_concat]
    rintro (hfired | ⟨-,hc⟩ | ⟨hone,-⟩)
    · exact hquiet hfired
    · exact hup (by simp [hc])
    · omega

theorem not_mem_of_quiet (hzero : 0 ∉ path) (hl : source l <+: path) (h : ¬Fired path l) (hextra : extra l = 0) :
    dotdot ∉ comps l := by
  induction l using List.reverseRecOn with
  | nil => simp [comps]
  | append_singleton l x ih =>
    rw [extra_concat] at hextra
    rw [fired_concat] at h
    push Not at h
    rw [comps_concat]
    intro hmem
    obtain hmem | hmem := List.mem_append.mp hmem
    · exact ih (prefix_of_concat hl) h.1 (by omega) hmem
    · have hup : x.IsUp := ⟨by omega,(List.mem_singleton.mp hmem).symm⟩
      exact h.2 ((fires_of_quiet hzero (prefix_of_concat hl) h.1).mpr (.inl hup))

end Fired

section Bounds
variable {path : List UInt8} {l a : List Piece} {x : Piece}

/-- The two pointers to starts of components are behind the first slash after earlier ones, or at the start of the path. -/
theorem starts_run (hzero : 0 ∉ path) (hl : source l <+: path) :
    ((run path l).b = 0 ∨ ∃ a, a <+: l ∧ (run path l).b = (source a).length+1) ∧
    ((run path l).p = 0 ∨ ∃ a, a <+: l ∧ (run path l).p = (source a).length+1) := by
  induction l using List.reverseRecOn with
  | nil => exact ⟨.inl rfl,.inl rfl⟩
  | append_singleton l x ih =>
    have hwiden : ∀ {n : ℕ}, (n = 0 ∨ ∃ a, a <+: l ∧ n = (source a).length+1) →
        n = 0 ∨ ∃ a, a <+: l ++ [x] ∧ n = (source a).length+1 := by
      rintro n (h | ⟨a,ha,h⟩)
      · exact .inl h
      · exact .inr ⟨a,ha.trans (List.prefix_append _ _),h⟩
    obtain ⟨hb,hp⟩ := ih (prefix_of_concat hl)
    have hs := (sound_run hzero (prefix_of_concat hl)).2
    rw [run_concat]
    by_cases hfires : (run path l).fires = true
    · simp only [Run.step,hfires,if_true]
      exact ⟨hwiden hb,hwiden hp⟩
    · simp only [Run.step,hfires,Bool.false_eq_true,if_false]
      exact ⟨.inr ⟨l,List.prefix_append _ _,by rw [hs]⟩,hwiden hb⟩

theorem length_source_pos (h : l ≠ []) : 2 ≤ (source l).length := by
  cases l with
  | nil => exact absurd rfl h
  | cons x l =>
    have hpos := List.length_pos_of_ne_nil x.nonempty
    have hlen := length_text x
    rw [show source (x :: l) = x.text ++ source l from rfl,List.length_append]
    omega

/-- No component is as short as to end where the slash before it is. -/
theorem source_apart {a b : List Piece} (ha : a <+: l) (hb : b <+: l) : (source a).length ≠ (source b).length+1 := by
  obtain ⟨c,rfl⟩ | ⟨c,rfl⟩ := List.prefix_or_prefix_of_prefix ha hb
  · rw [source_append,List.length_append]
    omega
  · rw [source_append,List.length_append]
    by_cases hc : c = []
    · subst hc
      simp [source]
    · have := length_source_pos hc
      omega

theorem last_written :
    (run path (l ++ [x])).base ((run path (l ++ [x])).w-1) ≠ slash := by
  have hpos := List.length_pos_of_ne_nil x.nonempty
  have hw : ((run path l).step x).w = (run path l).next+(x.comp.length+1) := rfl
  rw [run_concat,step_base,hw,if_neg (by omega),if_pos (by omega)]
  exact (x.clean _ (ofList_mem (by omega))).1

/-- At the end of a component there is at most one slash, also where other render has been written over it. -/
theorem end_not_slashes (hzero : 0 ∉ path) (hl : source l <+: path) (ha : a <+: l) (hne : a ≠ []) :
    (run path l).base ((source a).length-1) ≠ slash ∨ (run path l).base (source a).length ≠ slash := by
  induction l using List.reverseRecOn with
  | nil => exact absurd (List.prefix_nil.mp ha) hne
  | append_singleton l x ih =>
    have hl' := prefix_of_concat hl
    obtain ⟨hsound,hs⟩ := sound_run hzero hl'
    have hpos := List.length_pos_of_ne_nil x.nonempty
    obtain rfl | ha := List.prefix_concat_iff.mp ha
    · -- the last component itself
      refine .inl ?_
      rw [← (sound_run hzero hl).2,run_concat,step_last hsound (reads_run hzero hl)]
      exact (x.clean _ (ofList_mem (by omega))).1
    have htwo := length_source_pos hne
    have hcomp : ∀ y, (run path l).next < y → y < (run path l).next+(x.comp.length+1) →
        ((run path l).step x).base y ≠ slash := by
      intro y hlo hhi
      rw [step_base,if_neg (by omega),if_pos ⟨hlo,hhi⟩]
      exact (x.clean _ (ofList_mem (by omega))).1
    rw [run_concat]
    by_cases hend : (run path l).next = (source a).length
    · -- a slash is written here, behind what is no slash
      refine .inl ?_
      rw [step_base,if_neg (by omega),if_neg (by omega)]
      by_cases hfires : (run path l).fires = true
      · have hnext : (run path l).next = (run path l).p := if_pos hfires
        obtain hp | ⟨b,hb,hp⟩ := (starts_run hzero hl').2
        · omega
        · exact absurd (by omega) (source_apart ha hb)
      · have hnext : (run path l).next = (run path l).w := if_neg hfires
        obtain rfl | ⟨k,z,rfl⟩ := List.eq_nil_or_concat' l
        · exact absurd (List.prefix_nil.mp ha) hne
        · rw [← hend,hnext]
          exact last_written
    by_cases hin : (run path l).next < (source a).length ∧ (source a).length < (run path l).next+(x.comp.length+1)
    · exact .inr (hcomp _ hin.1 hin.2)
    by_cases hin' : (run path l).next < (source a).length-1 ∧
        (source a).length-1 < (run path l).next+(x.comp.length+1)
    · exact .inl (hcomp _ hin'.1 hin'.2)
    have hkeep : ∀ y, y ≠ (run path l).next → ¬((run path l).next < y ∧ y < (run path l).next+(x.comp.length+1)) →
        ((run path l).step x).base y = (run path l).base y := by
      intro y hy hy'
      rw [step_base,if_neg hy,if_neg hy']
    rw [hkeep _ (by omega) hin',hkeep _ (fun h => hend h.symm) hin]
    exact ih hl' ha

/-- Where the loop has gone back to behind a component, what is left is as long as the path up to there. -/
theorem length_rdropWhile_out (hzero : 0 ∉ path) (hl : source l <+: path) (hfires : (run path l).fires = true) (ha : a <+: l)
    (hne : a ≠ []) (hp : (run path l).p = (source a).length+1) :
    (source a).length ≤ ((run path l).out.rdropWhile (· = slash)).length := by
  have htwo := length_source_pos hne
  obtain ⟨k,hk⟩ : ∃ k, (source a).length = k+1 := ⟨(source a).length-1,by omega⟩
  have hout : (run path l).out = slice (run path l).base 0 k ++ [(run path l).base k] ++ [(run path l).base (k+1)] := by
    rw [Run.out,Run.next,if_pos hfires,hp,hk,slice_append,slice_append]
    simp [slice]
  have hend := end_not_slashes hzero hl ha hne
  rw [hk,Nat.add_sub_cancel] at hend
  rw [hout,List.rdropWhile_concat,hk]
  split_ifs with hlast
  · rw [List.rdropWhile_concat_neg _ _ _ (by simpa using hend.resolve_right (not_not.mpr (of_decide_eq_true hlast)))]
    simp
  · simp

/-- A normal form that is shorter or longer than that is not what is left. -/
theorem not_right_of_length (hzero : 0 ∉ path) (hl : source l <+: path) (hfires : (run path l).fires = true) (ha : a <+: l)
    (hne : a ≠ []) (hp : (run path l).p = (source a).length+1)
    (hlen : (render slash (reduce dotdot (comps l))).length < (source a).length ∨
      (source a).length+1 < (render slash (reduce dotdot (comps l))).length) : ¬Exact path l ∧ ¬Right path l := by
  have hout : (run path l).out.length = (source a).length+1 := by
    rw [length_out,Run.next,if_pos hfires,hp]
  constructor
  · intro h
    have := congrArg List.length h
    omega
  · intro h
    have hlow := length_rdropWhile_out hzero hl hfires ha hne hp
    have hhigh := (List.rdropWhile_prefix (p := (· = slash)) (l := (run path l).out)).length_le
    rw [Right] at h
    rw [h] at hlow hhigh
    omega

end Bounds

end Blub.Boot.Dir
