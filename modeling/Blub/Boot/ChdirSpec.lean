import Blub.Boot.ChdirBack

/-! The paths that `chdir` brings into normal form. -/
namespace Blub.Boot.Dir
open Blub.Bytes Blub.Paths

/-- A component is taken for `..` because a single slash before it was dropped. -/
def Mistaken (l : List Piece) : Prop := ∃ a x b, l = a ++ x :: b ∧ x.LooksUp (extra (a ++ [x]))

/-- Nothing is gone back over, except at the root. -/
def Straight (l : List Piece) : Prop :=
  dotdot ∉ comps l ∧ ¬Mistaken l ∨ ∃ x rest, l = x :: rest ∧ x.IsUp ∧ dotdot ∉ comps rest

/-- What the loop goes back to is what `..` goes back to. -/
def BackRight (path : List UInt8) (l : List Piece) (y z : Piece) : Prop :=
  extra l = 0 ∧ dotdot ∉ comps l ∧ (z.comp = dotdot ∧ (y.comp ≠ dotdot ∨ l = []) ∨
    z.comp ≠ dotdot ∧ y.comp = dotdot ∧ ∃ k x, l = k ++ [x] ∧ x.comp = z.comp) ∨
  ∃ x, l = [x] ∧ (run path [x]).fires = true ∧ z.comp = dotdot ∧ (x.comp = dotdot ∨ y.comp = dotdot)

section Back
variable {path : List UInt8} {l : List Piece} {x y z : Piece}

theorem b_of_fires (h : (run path (l ++ [x])).fires = true) : (run path (l ++ [x])).b = (run path l).s+1 := by
  have hlive := (fires_concat.mp h).1
  rw [run_concat]
  exact if_neg (by simp [hlive])

theorem p_of_fires (h : (run path (l ++ [y] ++ [z])).fires = true) : (run path (l ++ [y] ++ [z])).p =
    if (run path l).fires then (run path l).b else (run path l).s+1 := by
  have hlive := (fires_concat.mp h).1
  have hp : (run path (l ++ [y] ++ [z])).p = (run path (l ++ [y])).b := by
    rw [run_concat (l := l ++ [y])]
    exact if_neg (by simp [hlive])
  rw [hp,run_concat]
  rfl

theorem comps_three (l : List Piece) (y z : Piece) : comps (l ++ [y] ++ [z]) = comps l ++ [y.comp,z.comp] := by simp [comps]

theorem reduce_mem {c : List UInt8} (h : c ∈ reduce dotdot (comps l)) : c ≠ [] ∧ slash ∉ c :=
  mem_comps (mem_of_mem_reduce h).1

theorem comp_ne_of_looksUp {drift : ℕ} (h : z.LooksUp drift) (hno : ¬z.IsUp) : z.comp ≠ dotdot := by
  intro hc
  obtain ⟨-,⟨hzero,-,-⟩ | ⟨-,hdot⟩⟩ := h
  · exact hno ⟨hzero,hc⟩
  · rw [hc] at hdot
    cases hdot

/-- With single slashes and no `..` before it, the loop goes back behind the slash of the last component but one. -/
theorem out_of_single (hzero : 0 ∉ path) (hl : source (l ++ [y] ++ [z]) <+: path) (hextra : extra l = 0)
    (hup : dotdot ∉ comps l) (hfires : (run path (l ++ [y] ++ [z])).fires = true) :
    (run path (l ++ [y] ++ [z])).out = render slash (comps l) ++ [slash] := by
  have hly := prefix_of_concat hl
  have hquiet := quiet_of_single hzero (prefix_of_concat hly) hextra hup
  have hlive : (run path l).fires = false := by simpa using fun h => hquiet ⟨l,[],(List.append_nil l).symm,h⟩
  have hquiet' : ¬Fired path (l ++ [y]) := by
    rw [fired_concat]
    rintro (h | h)
    · exact hquiet h
    · rw [(fires_concat.mp hfires).1] at h
      cases h
  have hp : (run path (l ++ [y] ++ [z])).p = (render slash (comps l)).length+1 := by
    rw [p_of_fires hfires,hlive,(sound_run hzero (prefix_of_concat hly)).2,length_source,hextra]
    rfl
  have hnext := next_of_quiet hquiet'
  rw [comps_concat,length_render_concat] at hnext
  rw [out_of_fires hfires (by omega),hp,out_of_quiet hquiet',comps_concat,render_concat,List.append_assoc,
    List.take_length_add_append]
  rfl

theorem right_of_single (hzero : 0 ∉ path) (hl : source (l ++ [y] ++ [z]) <+: path) (hextra : extra l = 0)
    (hup : dotdot ∉ comps l) (hfires : (run path (l ++ [y] ++ [z])).fires = true) :
    ¬Exact path (l ++ [y] ++ [z]) ∧ (Right path (l ++ [y] ++ [z]) ↔
      z.comp = dotdot ∧ (y.comp ≠ dotdot ∨ l = []) ∨
      z.comp ≠ dotdot ∧ y.comp = dotdot ∧ ∃ k x, l = k ++ [x] ∧ x.comp = z.comp) := by
  have hout := out_of_single hzero hl hextra hup hfires
  refine ⟨fun h => ?_,?_⟩
  · rw [Exact,hout] at h
    exact render_ne_concat_sep (fun _ hc => reduce_mem hc) h
  have hstrip := rdropWhile_render (fun _ hc => mem_comps (l := l) hc) 1
  rw [Right,hout,show [slash] = List.replicate 1 slash from rfl,hstrip]
  have hinj : render slash (comps l) = render slash (reduce dotdot (comps (l ++ [y] ++ [z]))) ↔
      comps l = reduce dotdot (comps (l ++ [y] ++ [z])) :=
    ⟨render_inj (fun _ hc => (mem_comps hc).2) fun _ hc => (reduce_mem hc).2,congrArg _⟩
  rw [hinj,comps_concat,comps_concat,reduce_concat,reduce_concat,reduce_of_not_mem hup,eq_push_push_iff,comps,
    List.map_eq_nil_iff]
  have hlast : (∃ k, l.map Piece.comp = k ++ [z.comp]) ↔ ∃ k x, l = k ++ [x] ∧ x.comp = z.comp := by
    constructor
    · rintro ⟨k,hk⟩
      obtain rfl | ⟨l,x,rfl⟩ := List.eq_nil_or_concat' l
      · simp at hk
      · rw [List.map_append] at hk
        exact ⟨l,x,rfl,(List.cons.inj (List.append_inj' hk rfl).2).1⟩
    · rintro ⟨k,x,rfl,hx⟩
      exact ⟨k.map Piece.comp,by simp [hx]⟩
  rw [hlast]

/-- The loop has gone back at the root before: it goes back there again. -/
theorem right_of_root (hzero : 0 ∉ path) (hl : source ([x] ++ [y] ++ [z]) <+: path) (hroot : (run path [x]).fires = true)
    (hfires : (run path ([x] ++ [y] ++ [z])).fires = true) :
    ¬Exact path ([x] ++ [y] ++ [z]) ∧ (Right path ([x] ++ [y] ++ [z]) ↔ x.comp = dotdot ∨ y.comp = dotdot) := by
  have hly := prefix_of_concat hl
  have hfired : Fired path ([x] ++ [y]) := ⟨[x],[y],rfl,hroot⟩
  have hz : z.comp = dotdot := (isUp_of_fired hzero hly hfired hfires).2
  have hout : (run path ([x] ++ [y] ++ [z])).out = [slash] := by
    have hp : (run path ([x] ++ [y] ++ [z])).p = 1 := by
      rw [p_of_fires hfires,hroot,if_pos rfl]
      exact b_of_fires (l := []) hroot
    have hone : (run path ([x] ++ [y])).out = slash :: y.comp := by
      rw [out_concat (fires_concat.mp hfires).1]
      have hstart : (run path [x]).out = [] := by
        rw [← List.length_eq_zero_iff,length_out,Run.next,if_pos hroot]
        rfl
      rw [hstart]
      rfl
    rw [out_of_fires hfires (by omega),hp,hone]
    rfl
  refine ⟨fun h => ?_,?_⟩
  · rw [Exact,hout] at h
    exact render_ne_concat_sep (a := []) (fun _ hc => reduce_mem hc) h
  have hempty : ∀ k : List (List UInt8), [] = render slash k ↔ k = [] := by
    intro k
    cases k <;> simp
  rw [Right,hout,List.rdropWhile_singleton,if_pos (by simp),hempty,comps_three,hz]
  by_cases hx : x.comp = dotdot
  · by_cases hy : y.comp = dotdot
    · simp [reduce,push,comps,hx,hy]
    · simp [reduce,push,comps,hx,hy]
  · by_cases hy : y.comp = dotdot
    · simp [reduce,push,comps,hx,hy]
    · simp [reduce,push,comps,hx,hy]

/-- The loop has gone back over the component but two. -/
theorem not_right_of_stale (hzero : 0 ∉ path) (hl : source (l ++ [x] ++ [y] ++ [z]) <+: path) (hne : l ≠ [])
    (hstale : (run path (l ++ [x])).fires = true) (hfires : (run path (l ++ [x] ++ [y] ++ [z])).fires = true) :
    ¬Exact path (l ++ [x] ++ [y] ++ [z]) ∧ ¬Right path (l ++ [x] ++ [y] ++ [z]) := by
  have hly := prefix_of_concat hl
  have hlx := prefix_of_concat hly
  have hl' := prefix_of_concat hlx
  have hfired : Fired path (l ++ [x] ++ [y]) := ⟨l ++ [x],[y],rfl,hstale⟩
  have hz : z.comp = dotdot := (isUp_of_fired hzero hly hfired hfires).2
  have hp : (run path (l ++ [x] ++ [y] ++ [z])).p = (source l).length+1 := by
    rw [p_of_fires hfires,hstale,if_pos rfl,b_of_fires hstale,(sound_run hzero hl').2]
  refine not_right_of_length hzero hl hfires (a := l) (by simp [List.append_assoc]) hne hp ?_
  have hnonempty : ∀ d ∈ comps l, d ≠ [] := fun d hd => (mem_comps hd).1
  have hcomps : comps l ≠ [] := by simpa [comps] using hne
  have hup := length_reduce_up slash dotdot hcomps hnonempty
  have hsource := length_source l
  rw [comps_three,comps_concat,hz,List.append_assoc]
  by_cases hx : x.IsUp
  · -- back over two segments
    have hpush := length_reduce_push_up slash dotdot (comps l ++ [x.comp]) y.comp
    rw [List.append_assoc,hx.2] at hpush
    rw [hx.2]
    omega
  have hquiet : ¬Fired path l := fun hf => hx (isUp_of_fired hzero hl' hf hstale)
  have hlooks := ((fires_of_quiet hzero hl' hquiet).mp hstale).resolve_left hx
  have hxc : x.comp ≠ dotdot := comp_ne_of_looksUp hlooks hx
  by_cases hy : y.comp = dotdot
  · have hreduce : reduce dotdot (comps l ++ ([x.comp] ++ [y.comp,dotdot])) = reduce dotdot (comps l ++ [dotdot]) := by
      rw [hy,show comps l ++ ([x.comp] ++ [dotdot,dotdot]) = comps l ++ [x.comp] ++ [dotdot] ++ [dotdot] by simp,
        reduce_concat_up,reduce_concat_up,reduce_concat_of_ne hxc,List.dropLast_concat,reduce_concat_up]
    rw [hreduce]
    omega
  · have hreduce : reduce dotdot (comps l ++ ([x.comp] ++ [y.comp,dotdot])) = reduce dotdot (comps l) ++ [x.comp] := by
      rw [show comps l ++ ([x.comp] ++ [y.comp,dotdot]) = comps l ++ [x.comp] ++ [y.comp] ++ [dotdot] by simp,
        reduce_concat_up,reduce_concat_of_ne hy,List.dropLast_concat,reduce_concat_of_ne hxc]
    rw [hreduce,length_render_concat]
    rw [extra_concat] at hlooks
    obtain ⟨hone,hforms⟩ := hlooks
    have hlong : x.comp.length+x.surplus = 2 := by
      obtain ⟨hzero,hc,-⟩ | ⟨hzero,hc⟩ := hforms
      · omega
      · rw [hc,hzero]
        rfl
    by_cases hmem : dotdot ∈ comps l
    · have hextra : extra l ≠ 0 := fun h => not_mem_of_quiet hzero hl' hquiet h hmem
      have hcut := length_reduce_of_mem slash hmem
      have htwo : dotdot.length = 2 := rfl
      omega
    · rw [reduce_of_not_mem hmem]
      omega

/-- Slashes too many, or `..`, come before the last two components. -/
theorem not_right_of_drift (hzero : 0 ∉ path) (hl : source (l ++ [y] ++ [z]) <+: path)
    (hdrift : ¬(extra l = 0 ∧ dotdot ∉ comps l)) (hlive : (run path l).fires = false)
    (hfires : (run path (l ++ [y] ++ [z])).fires = true) :
    ¬Exact path (l ++ [y] ++ [z]) ∧ ¬Right path (l ++ [y] ++ [z]) := by
  have hly := prefix_of_concat hl
  have hl' := prefix_of_concat hly
  have hne : l ≠ [] := by
    rintro rfl
    exact hdrift ⟨rfl,by simp [comps]⟩
  have hp : (run path (l ++ [y] ++ [z])).p = (source l).length+1 := by
    rw [p_of_fires hfires,hlive,(sound_run hzero hl').2]
    rfl
  have hsource := length_source l
  by_cases hz : z.IsUp
  · refine not_right_of_length hzero hl hfires (a := l) (by simp [List.append_assoc]) hne hp (.inl ?_)
    have hpush := length_reduce_push_up slash dotdot (comps l) y.comp
    have hle := length_reduce_le slash dotdot (comps l)
    rw [comps_three,hz.2]
    by_cases hmem : dotdot ∈ comps l
    · have hcut := length_reduce_of_mem slash hmem
      omega
    · have hextra : extra l ≠ 0 := fun h => hdrift ⟨h,hmem⟩
      omega
  -- a component that is not `..` is gone back over, with one byte of the one before it left
  have hquiet' : ¬Fired path (l ++ [y]) := fun hf => hz (isUp_of_fired hzero hly hf hfires)
  have hlooks := ((fires_of_quiet hzero hly hquiet').mp hfires).resolve_left hz
  have hzc := comp_ne_of_looksUp hlooks hz
  have hquiet : ¬Fired path l := fun hf => hquiet' (fired_concat.mpr (.inl hf))
  have hextra : extra l ≠ 0 := fun h => hdrift ⟨h,not_mem_of_quiet hzero hl' hquiet h⟩
  rw [extra_concat,extra_concat] at hlooks
  obtain ⟨hone,⟨hsz,hlen,-⟩ | ⟨hsz,-⟩⟩ := hlooks
  swap
  · omega
  obtain ⟨a,c,hy⟩ := List.exists_cons_of_ne_nil y.nonempty
  have ha : slash ∉ [a] := by
    have := (y.clean a (hy ▸ List.mem_cons_self)).1
    simpa using fun h : slash = a => this h.symm
  have hcut : (run path (l ++ [y] ++ [z])).out = render slash (comps l ++ [[a]]) := by
    have hnext := next_of_quiet hquiet'
    rw [comps_concat,length_render_concat] at hnext
    have hp' : (run path (l ++ [y] ++ [z])).p = (render slash (comps l)).length+2 := by omega
    rw [out_of_fires hfires (by omega),hp',out_of_quiet hquiet',comps_concat,render_concat,render_concat,hy,
      List.append_assoc,List.take_length_add_append]
    rfl
  have hmem : ∀ d ∈ comps l ++ [[a]], d ≠ [] ∧ slash ∉ d := by
    intro d hd
    obtain hd | hd := List.mem_append.mp hd
    · exact mem_comps hd
    · obtain rfl := List.mem_singleton.mp hd
      exact ⟨by simp,ha⟩
  have hno : render slash (comps l ++ [[a]]) ≠ render slash (reduce dotdot (comps (l ++ [y] ++ [z]))) := by
    intro h
    have heq := render_inj (fun d hd => (hmem d hd).2) (fun _ hc => (reduce_mem hc).2) h
    rw [comps_concat,reduce_concat_of_ne hzc] at heq
    have hlast := (List.cons.inj (List.append_inj' heq rfl).2).1
    rw [← hlast] at hlen
    cases hlen
  refine ⟨fun h => hno (hcut.symm.trans h),fun h => hno ?_⟩
  have hstrip := rdropWhile_render hmem 0
  rw [List.replicate_zero,List.append_nil] at hstrip
  rw [Right,hcut,hstrip] at h
  exact h

theorem back_right (hzero : 0 ∉ path) (hl : source (l ++ [y] ++ [z]) <+: path)
    (hfires : (run path (l ++ [y] ++ [z])).fires = true) :
    ¬Exact path (l ++ [y] ++ [z]) ∧ (Right path (l ++ [y] ++ [z]) ↔ BackRight path l y z) := by
  have hly := prefix_of_concat hl
  by_cases hsingle : extra l = 0 ∧ dotdot ∉ comps l
  · obtain ⟨hextra,hup⟩ := hsingle
    obtain ⟨hexact,hright⟩ := right_of_single hzero hl hextra hup hfires
    refine ⟨hexact,hright.trans ⟨fun h => .inl ⟨hextra,hup,h⟩,?_⟩⟩
    rintro (h | ⟨x,rfl,hroot,-⟩)
    · exact h.2.2
    · exact absurd ⟨[x],[],rfl,hroot⟩ (quiet_of_single hzero (prefix_of_concat hly) hextra hup)
  by_cases hstale : (run path l).fires = true
  · obtain rfl | ⟨k,x,rfl⟩ := List.eq_nil_or_concat' l
    · cases hstale
    obtain rfl | hne := Decidable.em (k = [])
    · obtain ⟨hexact,hright⟩ := right_of_root hzero hl hstale hfires
      have hz := (isUp_of_fired hzero hly ⟨[x],[y],rfl,hstale⟩ hfires).2
      refine ⟨hexact,hright.trans ⟨fun h => .inr ⟨x,rfl,hstale,hz,h⟩,?_⟩⟩
      rintro (h | ⟨x',hx,-,-,h⟩)
      · exact absurd ⟨h.1,h.2.1⟩ hsingle
      · obtain rfl := (List.cons.inj hx).1
        exact h
    · obtain ⟨hexact,hright⟩ := not_right_of_stale hzero hl hne hstale hfires
      refine ⟨hexact,iff_of_false hright ?_⟩
      rintro (h | ⟨x',hx,-⟩)
      · exact absurd ⟨h.1,h.2.1⟩ hsingle
      · have hlen := congrArg List.length hx
        simp only [List.length_append,List.length_singleton] at hlen
        exact hne (List.length_eq_zero_iff.mp (by omega))
  · obtain ⟨hexact,hright⟩ := not_right_of_drift hzero hl hsingle (by simpa using hstale) hfires
    refine ⟨hexact,iff_of_false hright ?_⟩
    rintro (h | ⟨x,rfl,hroot,-⟩)
    · exact absurd ⟨h.1,h.2.1⟩ hsingle
    · exact hstale hroot

end Back

section Straight
variable {path : List UInt8} {l : List Piece} {x : Piece}

theorem quiet_of_straight (hzero : 0 ∉ path) (hl : source l <+: path) (hup : dotdot ∉ comps l) (hm : ¬Mistaken l) :
    ¬Fired path l := by
  induction l using List.reverseRecOn with
  | nil => exact not_fired_nil
  | append_singleton l x ih =>
    rw [comps_concat] at hup
    have hquiet := ih (prefix_of_concat hl) (fun h => hup (List.mem_append_left _ h)) (by
      rintro ⟨a,y,b,rfl,h⟩
      exact hm ⟨a,y,b ++ [x],by simp,h⟩)
    rw [fired_concat,fires_of_quiet hzero (prefix_of_concat hl) hquiet]
    rintro (hfired | ⟨-,hc⟩ | hlooks)
    · exact hquiet hfired
    · exact hup (by simp [hc])
    · exact hm ⟨l,x,[],rfl,hlooks⟩

/-- A component that is not gone back over is added as it is. -/
theorem exact_concat (hfires : (run path (l ++ [x])).fires = false) :
    (Exact path (l ++ [x]) ↔ x.comp ≠ dotdot ∧ Exact path l) ∧ (Right path (l ++ [x]) ↔ Exact path (l ++ [x])) := by
  have hout := out_concat hfires
  have hx : x.comp ≠ [] ∧ slash ∉ x.comp := mem_comps (l := [x]) (by simp [comps])
  constructor
  · rw [Exact,hout]
    constructor
    · intro h
      obtain ⟨k,hk,hrest⟩ := render_eq_concat (fun _ hc => (reduce_mem hc).2) hx.2 h
      have hne : x.comp ≠ dotdot := (mem_of_mem_reduce (l := comps (l ++ [x])) (hk ▸ by simp)).2
      rw [comps_concat,reduce_concat_of_ne hne] at hk
      rw [← (List.append_inj' hk rfl).1] at hrest
      exact ⟨hne,hrest⟩
    · rintro ⟨hne,h⟩
      rw [comps_concat,reduce_concat_of_ne hne,render_concat,h]
  · obtain ⟨c,a,hc⟩ := (List.eq_nil_or_concat' x.comp).resolve_left hx.1
    have ha : a ≠ slash := (x.clean a (hc ▸ by simp)).1
    have hstrip : (run path (l ++ [x])).out.rdropWhile (· = slash) = (run path (l ++ [x])).out := by
      rw [hout,hc,← List.cons_append,← List.append_assoc]
      exact List.rdropWhile_concat_neg _ _ _ (by simpa using ha)
    rw [Right,hstrip]
    rfl

theorem exact_root (hfires : (run path ([] ++ [x])).fires = true) :
    (Exact path ([] ++ [x]) ↔ x.comp = dotdot) ∧ (Right path ([] ++ [x]) ↔ Exact path ([] ++ [x])) := by
  have hout : (run path ([] ++ [x])).out = [] := by
    rw [← List.length_eq_zero_iff,length_out,Run.next,if_pos hfires]
    rfl
  refine ⟨?_,by rw [Right,Exact,hout]; rfl⟩
  rw [Exact,hout]
  by_cases hx : x.comp = dotdot
  · simp [comps,reduce,push,hx]
  · simp [comps,reduce,push,hx]

theorem mistaken_concat : Mistaken (l ++ [x]) ↔ Mistaken l ∨ x.LooksUp (extra (l ++ [x])) := by
  constructor
  · rintro ⟨a,y,b,hab,h⟩
    obtain rfl | ⟨b,w,rfl⟩ := List.eq_nil_or_concat' b
    · obtain ⟨rfl,hxy⟩ := List.append_inj' hab rfl
      obtain rfl := (List.cons.inj hxy).1
      exact .inr h
    · rw [← List.cons_append,← List.append_assoc] at hab
      exact .inl ⟨a,y,b,(List.append_inj' hab rfl).1,h⟩
  · rintro (⟨a,y,b,rfl,h⟩ | h)
    · exact ⟨a,y,b ++ [x],by simp,h⟩
    · exact ⟨l,x,[],rfl,h⟩

theorem fires_root (hzero : 0 ∉ path) : (run path ([] ++ [x])).fires = true ↔ x.IsUp ∨ x.LooksUp x.surplus := by
  rw [fires_of_quiet hzero (show source [] <+: path from List.nil_prefix) not_fired_nil,extra_concat,
    show extra [] = 0 from rfl,Nat.zero_add]

theorem straight_concat (hzero : 0 ∉ path) (hl : source (l ++ [x]) <+: path) (hfires : (run path (l ++ [x])).fires = false) :
    Straight (l ++ [x]) ↔ x.comp ≠ dotdot ∧ Straight l := by
  have hl' := prefix_of_concat hl
  constructor
  · rintro (⟨hup,hm⟩ | ⟨y,rest,hsplit,hy,hrest⟩)
    · rw [comps_concat] at hup
      rw [mistaken_concat] at hm
      push Not at hm
      exact ⟨fun hc => hup (by simp [hc]),.inl ⟨fun h => hup (List.mem_append_left _ h),hm.1⟩⟩
    · cases l with
      | nil =>
        obtain rfl := (List.cons.inj hsplit).1
        rw [(fires_root hzero).mpr (.inl hy)] at hfires
        cases hfires
      | cons w l =>
        obtain ⟨rfl,rfl⟩ := List.cons.inj (show w :: (l ++ [x]) = y :: rest from hsplit)
        rw [comps_concat] at hrest
        exact ⟨fun hc => hrest (by simp [hc]),.inr ⟨w,l,rfl,hy,fun h => hrest (List.mem_append_left _ h)⟩⟩
  · rintro ⟨hx,⟨hup,hm⟩ | ⟨y,rest,rfl,hy,hrest⟩⟩
    · refine .inl ⟨?_,?_⟩
      · rw [comps_concat]
        intro hmem
        exact (List.mem_append.mp hmem).elim hup fun h => hx (List.mem_singleton.mp h).symm
      · rw [mistaken_concat]
        rintro (h | hlooks)
        · exact hm h
        · rw [(fires_of_quiet hzero hl' (quiet_of_straight hzero hl' hup hm)).mpr (.inr hlooks)] at hfires
          cases hfires
    · refine .inr ⟨y,rest ++ [x],rfl,hy,?_⟩
      rw [comps_concat]
      intro hmem
      exact (List.mem_append.mp hmem).elim hrest fun h => hx (List.mem_singleton.mp h).symm

theorem not_straight_of_fires (hzero : 0 ∉ path) (hl : source (l ++ [x]) <+: path) (hne : l ≠ [])
    (hfires : (run path (l ++ [x])).fires = true) : ¬Straight (l ++ [x]) := by
  rintro (⟨hup,hm⟩ | ⟨y,rest,hsplit,hy,hrest⟩)
  · exact quiet_of_straight hzero hl hup hm ⟨l ++ [x],[],by simp,hfires⟩
  · cases l with
    | nil => exact hne rfl
    | cons w l =>
      obtain ⟨rfl,rfl⟩ := List.cons.inj (show w :: (l ++ [x]) = y :: rest from hsplit)
      have hfired : Fired path (w :: l) := ⟨[w],l,rfl,(fires_root hzero).mpr (.inl hy)⟩
      have hx := (isUp_of_fired hzero (prefix_of_concat hl) hfired hfires).2
      rw [comps_concat] at hrest
      exact hrest (by simp [hx])

theorem straight_root (hzero : 0 ∉ path) (hfires : (run path ([] ++ [x])).fires = true) :
    Straight ([] ++ [x]) ↔ x.comp = dotdot := by
  have hlooks := (fires_root hzero).mp hfires
  constructor
  · rintro (⟨hup,hm⟩ | ⟨y,rest,hsplit,hy,-⟩)
    · obtain hx | hx := hlooks
      · exact absurd (by simp [comps,hx.2]) hup
      · refine absurd (mistaken_concat.mpr (.inr ?_)) hm
        rwa [extra_concat,show extra [] = 0 from rfl,Nat.zero_add]
    · obtain rfl := (List.cons.inj hsplit).1
      exact hy.2
  · intro hx
    obtain hup | hlooks := hlooks
    · exact .inr ⟨x,[],rfl,hup,by simp [comps]⟩
    · by_cases hup : x.IsUp
      · exact .inr ⟨x,[],rfl,hup,by simp [comps]⟩
      · exact absurd hx (comp_ne_of_looksUp hlooks hup)

theorem exact_iff (hzero : 0 ∉ path) (hl : source l <+: path) : Exact path l ↔ Straight l := by
  induction l using List.reverseRecOn with
  | nil =>
    refine iff_of_true rfl (.inl ⟨by simp [comps],?_⟩)
    rintro ⟨a,x,b,h,-⟩
    simp at h
  | append_singleton l x ih =>
    by_cases hfires : (run path (l ++ [x])).fires = true
    · obtain rfl | ⟨k,y,rfl⟩ := List.eq_nil_or_concat' l
      · rw [(exact_root hfires).1,straight_root hzero hfires]
      · exact iff_of_false (back_right hzero hl hfires).1 (not_straight_of_fires hzero hl (by simp) hfires)
    · have hfires : (run path (l ++ [x])).fires = false := by simpa using hfires
      rw [(exact_concat hfires).1,ih (prefix_of_concat hl),straight_concat hzero hl hfires]

theorem right_iff (hzero : 0 ∉ path) (hl : source l <+: path) : Right path l ↔
    Straight l ∨ ∃ k y z, l = k ++ [y] ++ [z] ∧ (run path l).fires = true ∧ BackRight path k y z := by
  obtain rfl | ⟨l,x,rfl⟩ := List.eq_nil_or_concat' l
  · exact iff_of_true rfl (.inl ((exact_iff hzero hl).mp rfl))
  by_cases hfires : (run path (l ++ [x])).fires = true
  · obtain rfl | ⟨k,y,rfl⟩ := List.eq_nil_or_concat' l
    · rw [(exact_root hfires).2,exact_iff hzero hl]
      refine ⟨.inl,fun h => h.elim id ?_⟩
      rintro ⟨k,y,z,h,-⟩
      have hlen := congrArg List.length h
      simp at hlen
    · rw [(back_right hzero hl hfires).2]
      constructor
      · exact fun h => .inr ⟨k,y,x,rfl,hfires,h⟩
      · rintro (h | ⟨k',y',z,hsplit,-,h⟩)
        · exact absurd h (not_straight_of_fires hzero hl (by simp) hfires)
        · obtain ⟨hky,hz⟩ := List.append_inj' hsplit rfl
          obtain ⟨rfl,hy⟩ := List.append_inj' hky rfl
          obtain rfl := (List.cons.inj hz).1
          obtain rfl := (List.cons.inj hy).1
          exact h
  · have hfires : (run path (l ++ [x])).fires = false := by simpa using hfires
    rw [(exact_concat hfires).2,exact_iff hzero hl]
    refine ⟨.inl,fun h => h.elim id ?_⟩
    rintro ⟨k,y,z,-,h,-⟩
    rw [hfires] at h
    cases h

end Straight

section Main

/-- The paths that come out right. In the last two constructors what is taken for `..` makes up for a `..` that is not. -/
inductive Normalizes : List Piece → Prop
  /-- No component is `..`, or taken for it. -/
  | plain {l : List Piece} : dotdot ∉ comps l → ¬Mistaken l → Normalizes l
  /-- The path goes up from the root, and no further. -/
  | root {x : Piece} {l : List Piece} : x.IsUp → dotdot ∉ comps l → Normalizes (x :: l)
  | rootAgain {x y z : Piece} : x.IsUp → z.IsUp → Normalizes [x,y,z]
  /-- Only the last component is `..`, and what is before the one that it takes away has single slashes. -/
  | last {l : List Piece} {y z : Piece} : extra l = 0 → dotdot ∉ comps l → y.comp ≠ dotdot → ¬y.LooksUp y.surplus →
      z.IsUp → Normalizes (l ++ [y,z])
  | twice {y z : Piece} : y.surplus ≠ 0 → y.comp = dotdot → z.IsUp → Normalizes [y,z]
  | dots {x y z : Piece} : x.surplus = 1 → x.comp = [dot] → y.comp = dotdot → z.IsUp → Normalizes [x,y,z]
  | sameName {l : List Piece} {x y z : Piece} : extra (l ++ [x]) = 0 → dotdot ∉ comps (l ++ [x]) → y.surplus = 1 →
      y.comp = dotdot → z.LooksUp (z.surplus+1) → x.comp = z.comp → Normalizes (l ++ [x,y,z])

variable {path : List UInt8} {l : List Piece} {x y z : Piece}

theorem not_taken_of_surplus {drift : ℕ} (hs : y.surplus ≠ 0) (hy : y.comp = dotdot) : ¬(y.IsUp ∨ y.LooksUp drift) := by
  rintro (h | h)
  · exact hs h.1
  · exact comp_ne_of_looksUp h (fun hup => hs hup.1) hy

theorem isUp_of_comp {drift : ℕ} (h : z.IsUp ∨ z.LooksUp drift) (hz : z.comp = dotdot) : z.IsUp :=
  h.elim id fun hlooks => by_contra fun hno => comp_ne_of_looksUp hlooks hno hz

/-- After a component that is not gone back over, `..` behind a single slash is. -/
theorem fires_of_isUp (hlive : (run path l).fires = false) (hz : z.IsUp) : (run path (l ++ [z])).fires = true :=
  fires_concat.mpr ⟨hlive,.inl hz⟩

/-- The component behind one that is gone back over is not. -/
theorem not_fires_of_fires (h : (run path l).fires = true) (y : Piece) : (run path (l ++ [y])).fires = false := by
  by_contra hno
  have hlive := (fires_concat.mp (by simpa using hno)).1
  rw [h] at hlive
  cases hlive

theorem not_fires_of_quiet (hzero : 0 ∉ path) (hl : source l <+: path) (hquiet : ¬Fired path l) (hextra : extra l = 0)
    (hy : ¬(y.IsUp ∨ y.LooksUp y.surplus)) : (run path (l ++ [y])).fires = false := by
  by_contra hno
  refine hy ?_
  have hfires := (fires_of_quiet (x := y) hzero hl hquiet).mp (by simpa using hno)
  rwa [extra_concat,hextra,Nat.zero_add] at hfires

theorem normalizes_of_back (hzero : 0 ∉ path) (hl : source (l ++ [y] ++ [z]) <+: path)
    (hfires : (run path (l ++ [y] ++ [z])).fires = true) (h : BackRight path l y z) : Normalizes (l ++ [y,z]) := by
  have hly := prefix_of_concat hl
  have hl' := prefix_of_concat hly
  have hlive := (fires_concat.mp hfires).1
  obtain ⟨hextra,hup,hcases⟩ | ⟨x,rfl,hroot,hz,hxy⟩ := h
  · have hquiet := quiet_of_single hzero hl' hextra hup
    have hy : ¬(y.IsUp ∨ y.LooksUp y.surplus) := by
      intro hy
      have hfire := (fires_of_quiet (x := y) hzero hl' hquiet).mpr (by rwa [extra_concat,hextra,Nat.zero_add])
      rw [hlive] at hfire
      cases hfire
    have hquiet' : ¬Fired path (l ++ [y]) := by
      rw [fired_concat,hlive]
      simpa using hquiet
    have hz := (fires_of_quiet hzero hly hquiet').mp hfires
    push Not at hy
    obtain ⟨hzc,hyc⟩ | ⟨hzc,hyc,k,x,rfl,hx⟩ := hcases
    · by_cases hyu : y.comp = dotdot
      · obtain rfl := hyc.resolve_left (not_not.mpr hyu)
        exact .twice (fun hs => hy.1 ⟨hs,hyu⟩) hyu (isUp_of_comp hz hzc)
      · exact .last hextra hup hyu hy.2 (isUp_of_comp hz hzc)
    · have hlooks := hz.resolve_left fun hup => hzc hup.2
      have hs : y.surplus ≠ 0 := fun hs => hy.1 ⟨hs,hyc⟩
      have hone := hlooks.1
      rw [extra_concat,extra_concat,hextra] at hone
      rw [List.append_assoc]
      refine .sameName hextra hup (by omega) hyc ?_ hx
      rw [extra_concat,extra_concat,hextra,show y.surplus = 1 by omega,Nat.zero_add,Nat.add_comm] at hlooks
      exact hlooks
  · have hz := isUp_of_fired hzero hly ⟨[x],[y],rfl,hroot⟩ hfires
    obtain hx | hx := (fires_root hzero).mp hroot
    · exact .rootAgain hx hz
    · obtain ⟨hone,⟨hs,-⟩ | ⟨-,hdot⟩⟩ := hx
      · omega
      · refine .dots hone hdot (hxy.resolve_left ?_) hz
        rw [hdot]
        decide

theorem right_of_normalizes (hzero : 0 ∉ path) (hl : source l <+: path) (h : Normalizes l) :
    Straight l ∨ ∃ k y z, l = k ++ [y] ++ [z] ∧ (run path l).fires = true ∧ BackRight path k y z := by
  cases h with
  | plain hup hm => exact .inl (.inl ⟨hup,hm⟩)
  | @root x l hx hup => exact .inl (.inr ⟨x,l,rfl,hx,hup⟩)
  | @rootAgain x y z hx hz =>
    have hroot : (run path ([] ++ [x])).fires = true := (fires_root hzero).mpr (.inl hx)
    have hfires : (run path ([x] ++ [y] ++ [z])).fires = true := fires_of_isUp (not_fires_of_fires hroot y) hz
    exact .inr ⟨[x],y,z,rfl,hfires,.inr ⟨x,rfl,hroot,hz.2,.inl hx.2⟩⟩
  | @last k y z hextra hup hy hlooks hz =>
    rw [source_append] at hl
    have hl' : source k <+: path := (List.prefix_append _ _).trans hl
    have hlive := not_fires_of_quiet hzero hl' (quiet_of_single hzero hl' hextra hup) hextra
      (fun h => h.elim (fun hu => hy hu.2) hlooks)
    have hfires : (run path (k ++ [y] ++ [z])).fires = true := fires_of_isUp hlive hz
    refine .inr ⟨k,y,z,by simp,?_,.inl ⟨hextra,hup,.inl ⟨hz.2,.inl hy⟩⟩⟩
    rwa [List.append_assoc] at hfires
  | @twice y z hs hy hz =>
    have hl' : source [] <+: path := List.nil_prefix
    have hlive := not_fires_of_quiet hzero hl' not_fired_nil rfl (not_taken_of_surplus hs hy)
    have hfires : (run path ([] ++ [y] ++ [z])).fires = true := fires_of_isUp hlive hz
    exact .inr ⟨[],y,z,rfl,hfires,.inl ⟨rfl,by simp [comps],.inl ⟨hz.2,.inr rfl⟩⟩⟩
  | @dots x y z hs hx hy hz =>
    have hroot : (run path ([] ++ [x])).fires = true := (fires_root hzero).mpr (.inr ⟨hs,.inr ⟨hs,hx⟩⟩)
    have hfires : (run path ([x] ++ [y] ++ [z])).fires = true := fires_of_isUp (not_fires_of_fires hroot y) hz
    exact .inr ⟨[x],y,z,rfl,hfires,.inr ⟨x,rfl,hroot,hz.2,.inr hy⟩⟩
  | @sameName k x y z hextra hup hs hy hz hxz =>
    have hsplit : k ++ [x,y,z] = k ++ [x] ++ [y] ++ [z] := by simp
    rw [hsplit] at hl ⊢
    have hly := prefix_of_concat hl
    have hl' := prefix_of_concat hly
    have hquiet := quiet_of_single hzero hl' hextra hup
    have hlive := not_fires_of_quiet hzero hl' hquiet hextra (not_taken_of_surplus (by omega) hy)
    have hquiet' : ¬Fired path (k ++ [x] ++ [y]) := by
      rw [fired_concat,hlive]
      simpa using hquiet
    have hfires : (run path (k ++ [x] ++ [y] ++ [z])).fires = true := by
      rw [fires_of_quiet hzero hly hquiet',extra_concat,extra_concat,hextra,hs,Nat.zero_add,Nat.add_comm]
      exact .inr hz
    have hzc : z.comp ≠ dotdot := by
      rw [← hxz]
      rintro hc
      exact hup (by simp [comps,hc])
    exact .inr ⟨k ++ [x],y,z,rfl,hfires,.inl ⟨hextra,hup,.inr ⟨hzc,hy,k,x,rfl,hxz⟩⟩⟩

theorem right_iff_normalizes (hzero : 0 ∉ path) (hl : source l <+: path) : Right path l ↔ Normalizes l := by
  rw [right_iff hzero hl]
  refine ⟨?_,right_of_normalizes hzero hl⟩
  rintro ((⟨hup,hm⟩ | ⟨x,rest,rfl,hx,hup⟩) | ⟨k,y,z,rfl,hfires,h⟩)
  · exact .plain hup hm
  · exact .root hx hup
  · rw [List.append_assoc]
    exact normalizes_of_back hzero hl hfires h

/-- `chdir` to a directory leaves the normal form of the path exactly for these, and one that is missing changes nothing. -/
theorem chdir_right_iff (isDir : List UInt8 → Bool) {dirBase path : List UInt8} (hhead : dirBase.head? = some slash)
    (hbase : 0 ∉ dirBase) (hpath : 0 ∉ path) : ChdirRight isDir dirBase path ↔
      (isDir (joined dirBase path) = true →
        ∃ l n, joined dirBase path = source l ++ List.replicate n slash ∧ Normalizes l) := by
  have hzero : 0 ∉ joined dirBase path := by
    rw [joined]
    split_ifs
    · exact hpath
    · intro h
      obtain h | h := List.mem_append.mp h
      · exact hbase h
      · exact hpath ((List.rdropWhile_prefix (p := (· = slash)) (l := path)).subset h)
  have hstart : (joined dirBase path).head? = some slash := by
    rw [joined]
    split_ifs with h
    · exact h
    · rw [List.head?_append,hhead]
      rfl
  -- what is left of a path in pieces
  have hpieces : ∀ l n, joined dirBase path = source l ++ List.replicate n slash →
      ∀ fuel, (joined dirBase path).length < fuel →
      (compact fuel (joined dirBase path) = some (lexical slash dotdot (joined dirBase path)) ↔ Normalizes l) := by
    intro l n hsplit fuel hfuel
    rw [hsplit] at hzero hfuel ⊢
    rw [← right_iff_normalizes hzero (List.prefix_append _ _),compact_eq hzero hfuel,lexical,segments_source,Right]
    simp
  constructor
  · intro h hdir
    obtain ⟨l,n,hsplit,-⟩ := exists_pieces hzero hstart
    refine ⟨l,n,hsplit,(hpieces l n hsplit _ (Nat.lt_succ_self _)).mp ?_⟩
    have hfound := h.found hdir _ (Nat.lt_succ_self _)
    simp only [chdir,Option.getD_some,hdir,if_true,Option.map_eq_some_iff] at hfound
    obtain ⟨d,hd,hpair⟩ := hfound
    rw [hd,(Prod.mk.inj hpair).1]
  · intro h
    constructor
    · intro hdir fuel hfuel
      obtain ⟨l,n,hsplit,hnorm⟩ := h hdir
      simp only [chdir,Option.getD_some,hdir,if_true]
      rw [(hpieces l n hsplit fuel hfuel).mpr hnorm]
      rfl
    · intro hdir fuel
      refine ⟨"Unable to find directory",?_⟩
      simp [chdir,hdir]

/-- `..` from `/a/`. -/
theorem chdir_goes_up : ChdirRight (fun _ => true) [slash,97,slash] dotdot := by
  refine (chdir_right_iff _ rfl (by decide) (by decide)).mpr fun _ => ?_
  let name : Piece := ⟨0,[97],by simp,by simp [slash]⟩
  let up : Piece := ⟨0,dotdot,by simp [dotdot],by simp [dotdot,dot,slash]⟩
  exact ⟨[name,up],0,rfl,.last (l := []) (y := name) (z := up) rfl (by decide) (by decide) (by decide) ⟨rfl,rfl⟩⟩

/-- `/a/../b` becomes `//b/`. -/
theorem chdir_doubles_slash : chdir 8 (fun _ => true) (some [slash]) [slash,97,slash,dot,dot,slash,98] =
      some ([slash,slash,98,slash],none) ∧
    ¬ChdirRight (fun _ => true) [slash] [slash,97,slash,dot,dot,slash,98] := by
  have heval : chdir 8 (fun _ => true) (some [slash]) [slash,97,slash,dot,dot,slash,98] =
      some ([slash,slash,98,slash],none) := by decide
  refine ⟨heval,fun h => ?_⟩
  have hfound := heval.symm.trans (h.found rfl 8 (by decide))
  exact absurd hfound (by decide)

end Main

end Blub.Boot.Dir
