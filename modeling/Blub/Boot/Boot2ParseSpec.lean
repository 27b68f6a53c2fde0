import Blub.Boot.Boot2Words

/-! `parse` of `boot2.c` on whole lines: when it accepts the words that are as they should be and no others, and keeps the
selection when it rejects one. -/
namespace Blub.Boot.Boot2Parse

section Lines
variable {wholeDiskSlice : ℕ} {kbd : Bool}

/-- The words of a line up to the 0 that ends it, and whether there is one. -/
def words : ℕ → List UInt8 → List Word × Bool
  | 0, _ => ([],false)
  | _, [] => ([],false)
  | fuel+1, c :: t =>
    if c = 0 then ([],true)
    else if blank c then words fuel t
    else
      match t.findIdx? wordEnd with
      | none => ([],false)
      | some k =>
        let next := if t[k]? = some 0 then ([],true) else words fuel (t.drop (k+1))
        (⟨c :: t.take k,t.drop (k+1)⟩ :: next.1,next.2)

def lineWords (cmd : List UInt8) : List Word × Bool := words (cmd.length+1) cmd

/-- What becomes of the selection. -/
inductive Fate
  | fault
  | rejected (before after : Dsk)
  | probe (d : Dsk)
  deriving DecidableEq

def Outcome.fate : Outcome → Fate
  | .fault => .fault
  | .rejected before s => .rejected before s.dsk
  | .probe s => .probe s.dsk

/-- `parse` word by word. -/
def fate (wholeDiskSlice : ℕ) (closed : Bool) : List Word → Dsk → Fate
  | [], d => if closed then .probe d else .fault
  | w :: ws, d =>
    match wordStep wholeDiskSlice d w with
    | none => .fault
    | some (false,d') => .rejected d d'
    | some (true,d') => fate wholeDiskSlice closed ws d'

attribute [local grind =] words Outcome.fate fate

theorem options_all {l : List UInt8} (hl : 0 ∉ l) (rest : List UInt8) (opts : ℕ) :
    ∃ opts', options (l ++ 0 :: rest) opts = some (l.all fun c => (optstr.lookup c).isSome,opts') := by
  induction l generalizing opts with
  | nil => exact ⟨opts,rfl⟩
  | cons c l ih =>
    obtain ⟨hc,hl⟩ := List.ne_and_not_mem_of_not_mem_cons hl
    rw [List.cons_append,options,if_neg hc.symm,List.all_cons]
    cases hflag : optstr.lookup c with
    | none => exact ⟨opts,rfl⟩
    | some flag => exact ih hl _

theorem find_name {l : List UInt8} (hl : 0 ∉ l) (rest : List UInt8) :
    (l ++ 0 :: rest).findIdx? nameEnd = some ((l.findIdx? (· = chParen)).getD l.length) ∧
      ((l ++ 0 :: rest)[(l.findIdx? (· = chParen)).getD l.length]? = some 0 ↔ l.findIdx? (· = chParen) = none) := by
  induction l with
  | nil => exact ⟨rfl,iff_of_true rfl rfl⟩
  | cons c l ih =>
    obtain ⟨hc,hl⟩ := List.ne_and_not_mem_of_not_mem_cons hl
    obtain ⟨hfind,hget⟩ := ih hl
    rw [List.cons_append,List.findIdx?_cons,List.findIdx?_cons]
    by_cases hparen : c = chParen
    · subst hparen
      rw [decide_eq_true rfl,if_pos rfl]
      exact ⟨rfl,iff_of_false (fun h => absurd (Option.some_inj.mp h) (by decide)) (by simp)⟩
    · have hend : nameEnd c = false := by
        rw [nameEnd,decide_eq_false hc.symm,decide_eq_false hparen]
        rfl
      rw [hend,decide_eq_false hparen,hfind]
      cases h : l.findIdx? (· = chParen) with
      | none =>
        rw [h] at hget
        exact ⟨rfl,hget⟩
      | some q =>
        rw [h] at hget
        exact ⟨rfl,hget.trans (by simp)⟩

section Cut
variable {cmd t : List UInt8} {arg k : ℕ} {c : UInt8}

/-- The line behind the first character of a word, with a 0 in the place of the byte that ends the word. -/
theorem cut_tail (ht : cmd.drop (arg+1) = t) (hk : k < t.length) :
    (cmd.set (arg+1+k) 0).drop (arg+1) = t.take k ++ 0 :: t.drop (k+1) := by
  rw [List.drop_set,if_neg (by omega),ht,Nat.add_sub_cancel_left,List.set_eq_take_append_cons_drop,if_pos hk]

theorem cut_word (ht : cmd.drop arg = c :: t) (hk : k < t.length) :
    (cmd.set (arg+1+k) 0).drop arg = c :: t.take k ++ 0 :: t.drop (k+1) := by
  rw [List.drop_set,if_neg (by omega),ht,Nat.add_assoc,Nat.add_sub_cancel_left,Nat.add_comm 1,List.set_cons_succ,
    List.set_eq_take_append_cons_drop,if_pos hk]
  rfl

theorem cut_end (ht : cmd.drop (arg+1) = t) (hk : k < t.length) : (cmd.set (arg+1+k) 0)[arg+1+k]? = some 0 := by
  have hlen : (t.take k).length = k := List.length_take_of_le hk.le
  have hat : (t.take k ++ 0 :: t.drop (k+1))[k]? = some 0 := by
    rw [List.getElem?_append_right hlen.le,hlen,Nat.sub_self]
    rfl
  rwa [← cut_tail ht hk,List.getElem?_drop] at hat

theorem word_nonzero (h : t.findIdx? wordEnd = some k) : 0 ∉ t.take k := by
  obtain ⟨hk,-,hword⟩ := List.findIdx?_eq_some_iff_getElem.mp h
  intro hmem
  obtain ⟨j,hj,hzero⟩ := List.mem_take_iff_getElem.mp hmem
  have hbad := hword j (by omega)
  rw [hzero] at hbad
  exact hbad rfl

end Cut

/-- With this fuel the loop makes of the selection what its words make of it. -/
def LoopFates (wholeDiskSlice : ℕ) (kbd : Bool) (fuel : ℕ) : Prop :=
  ∀ arg s, (s.cmd.drop arg).length < fuel → (parseLoop wholeDiskSlice kbd fuel arg s).fate =
    fate wholeDiskSlice (words fuel (s.cmd.drop arg)).2 (words fuel (s.cmd.drop arg)).1 s.dsk

/-- The words behind the one that ends after `k` more characters. -/
def wordsBehind (fuel k : ℕ) (t : List UInt8) : List Word × Bool :=
  if t[k]? = some 0 then ([],true) else words fuel (t.drop (k+1))

/-- Behind a word that was cut off the loop goes on with the others. -/
theorem loop_behind {fuel arg k : ℕ} {cmd t : List UInt8} (ih : LoopFates wholeDiskSlice kbd fuel) (hfuel : t.length < fuel)
    (ht : cmd.drop (arg+1) = t) (hk : k < t.length) (opts : ℕ) (kname : Option ℕ) (d : Dsk) :
    (parseLoop wholeDiskSlice kbd fuel (if cmd[arg+1+k]? = some 0 then arg+1+k else arg+1+k+1)
      ⟨cmd.set (arg+1+k) 0,opts,kname,d⟩).fate =
        fate wholeDiskSlice (wordsBehind fuel k t).2 (wordsBehind fuel k t).1 d := by
  have hdelim : cmd[arg+1+k]? = t[k]? := by
    rw [← ht,List.getElem?_drop]
  rw [hdelim,wordsBehind]
  split_ifs with hz
  · obtain ⟨f,rfl⟩ := Nat.exists_eq_succ_of_ne_zero (show fuel ≠ 0 by omega)
    rw [parseLoop]
    dsimp only
    rw [cut_end ht hk]
    rfl
  · have hdrop : (cmd.set (arg+1+k) 0).drop (arg+1+k+1) = t.drop (k+1) := by
      rw [List.drop_set_of_lt (by omega),← ht,List.drop_drop]
      rfl
    have hrest := ih (arg+1+k+1) ⟨cmd.set (arg+1+k) 0,opts,kname,d⟩ (by
      dsimp only
      rw [hdrop,List.length_drop]
      omega)
    dsimp only at hrest
    rwa [hdrop] at hrest

/-- The loop at a word. -/
theorem loop_word {fuel arg k : ℕ} {c : UInt8} {t : List UInt8} {s : State} (ih : LoopFates wholeDiskSlice kbd fuel)
    (hfuel : t.length < fuel) (htext : s.cmd.drop arg = c :: t) (hzero : c ≠ 0) (hblank : blank c ≠ true)
    (hend : t.findIdx? wordEnd = some k) : (parseLoop wholeDiskSlice kbd (fuel+1) arg s).fate =
      fate wholeDiskSlice (wordsBehind fuel k t).2 (⟨c :: t.take k,t.drop (k+1)⟩ :: (wordsBehind fuel k t).1) s.dsk := by
  obtain ⟨hk,-,-⟩ := List.findIdx?_eq_some_iff_getElem.mp hend
  have ht : s.cmd.drop (arg+1) = t := by
    rw [← List.drop_drop,htext]
    rfl
  have hfirst : s.cmd[arg]? = some c := by
    rw [← Nat.add_zero arg,← List.getElem?_drop,htext]
    rfl
  have hno := word_nonzero hend
  have hcont := loop_behind ih hfuel ht hk
  have hlast : ∀ q, (s.cmd.set (arg+1+k) 0)[arg+1+q]? = (t.take k ++ 0 :: t.drop (k+1))[q]? := by
    intro q
    rw [← cut_tail ht hk,List.getElem?_drop]
  rw [parseLoop,hfirst]
  dsimp only
  rw [if_neg hzero,if_neg hblank,ht,hend]
  dsimp only
  rw [cut_tail ht hk,cut_word htext hk,fate]
  by_cases hminus : c = chMinus
  · obtain ⟨opts,hopts⟩ := options_all hno (t.drop (k+1)) s.opts
    have hstep : wordStep wholeDiskSlice s.dsk ⟨c :: t.take k,t.drop (k+1)⟩ =
      some ((t.take k).all fun c => (optstr.lookup c).isSome,s.dsk) := if_pos hminus
    rw [if_pos hminus,hopts,hstep]
    cases (t.take k).all fun c => (optstr.lookup c).isSome with
    | false => rfl
    | true => exact hcont _ _ _
  · obtain ⟨hfind,hquit⟩ := find_name hno (t.drop (k+1))
    have hstep : wordStep wholeDiskSlice s.dsk ⟨c :: t.take k,t.drop (k+1)⟩ =
      match (t.take k).findIdx? (· = chParen) with
      | none => some (true,s.dsk)
      | some q => (device wholeDiskSlice s.dsk (c :: t.take k ++ 0 :: t.drop (k+1)) (q+1)).map
          fun x => (x.1,x.2.1) := if_neg hminus
    rw [if_neg hminus,hfind,hstep]
    dsimp only
    rw [hlast]
    cases hparen : (t.take k).findIdx? (· = chParen) with
    | none =>
      rw [hparen] at hquit
      rw [if_pos (hquit.mpr rfl)]
      exact hcont _ _ _
    | some q =>
      rw [hparen] at hquit
      rw [if_neg fun h => Option.some_ne_none q (hquit.mp h)]
      dsimp only [Option.getD_some]
      cases device wholeDiskSlice s.dsk (c :: t.take k ++ 0 :: t.drop (k+1)) (q+1) with
      | none => rfl
      | some x =>
        obtain ⟨ok,d,a⟩ := x
        cases ok with
        | false => rfl
        | true => exact hcont _ _ _

theorem loop_fate (fuel : ℕ) : LoopFates wholeDiskSlice kbd fuel := by
  induction fuel with
  | zero => exact fun arg s hfuel => absurd hfuel (Nat.not_lt_zero _)
  | succ fuel ih =>
    intro arg s hfuel
    cases htext : s.cmd.drop arg with
    | nil =>
      have hnone : s.cmd[arg]? = none := List.getElem?_eq_none (List.drop_eq_nil_iff.mp htext)
      rw [parseLoop,hnone]
      rfl
    | cons c t =>
      have hfirst : s.cmd[arg]? = some c := by
        rw [← Nat.add_zero arg,← List.getElem?_drop,htext]
        rfl
      have ht : s.cmd.drop (arg+1) = t := by
        rw [← List.drop_drop,htext]
        rfl
      rw [htext,List.length_cons,Nat.succ_lt_succ_iff] at hfuel
      rw [words]
      by_cases hzero : c = 0
      · rw [parseLoop,hfirst,if_pos hzero]
        dsimp only
        rw [if_pos hzero]
        rfl
      rw [if_neg hzero]
      by_cases hblank : blank c = true
      · rw [parseLoop,hfirst,if_pos hblank]
        dsimp only
        rw [if_neg hzero,if_pos hblank,ih (arg+1) s (by rwa [ht]),ht]
      rw [if_neg hblank]
      cases hend : t.findIdx? wordEnd with
      | none =>
        rw [parseLoop,hfirst]
        dsimp only
        rw [if_neg hzero,if_neg hblank,ht,hend]
        rfl
      | some k => exact loop_word ih hfuel htext hzero hblank hend

theorem words_clean (fuel : ℕ) (t : List UInt8) : ∀ w ∈ (words fuel t).1, 0 ∉ w.bytes ∧ w.bytes ≠ [] := by
  induction fuel generalizing t with
  | zero => simp [words]
  | succ fuel ih =>
    cases t with
    | nil => simp [words]
    | cons c t =>
      rw [words]
      split_ifs with hzero hblank
      · simp
      · exact ih t
      · cases hend : t.findIdx? wordEnd with
        | none => simp
        | some k =>
          obtain ⟨hk,-,hword⟩ := List.findIdx?_eq_some_iff_getElem.mp hend
          refine List.forall_mem_cons.mpr ⟨⟨?_,List.cons_ne_nil _ _⟩,?_⟩
          · rw [List.mem_cons,not_or]
            refine ⟨Ne.symm hzero,fun hmem => ?_⟩
            obtain ⟨j,hj,hzero'⟩ := List.mem_take_iff_getElem.mp hmem
            have hbad := hword j (by omega)
            rw [hzero'] at hbad
            exact hbad rfl
          · split_ifs
            · simp
            · exact ih _

end Lines

section Exact
variable {wholeDiskSlice : ℕ} {closed : Bool} {d : Dsk} {ws : List Word}

/-- The selection that the words of a line write: that of the last one with a selection, or the one before. -/
def Selects (wholeDiskSlice : ℕ) (d : Dsk) (ws : List Word) (d' : Dsk) : Prop :=
  ((∀ w ∈ ws, ∀ (x : Selection) path, x.Written → w.bytes ≠ x.text ++ path) ∧ d' = d) ∨
    ∃ us w vs, ∃ x : Selection, ∃ path, ws = us ++ w :: vs ∧ x.Written ∧ w.bytes = x.text ++ path ∧
      (∀ v ∈ vs, ∀ (y : Selection) path, y.Written → v.bytes ≠ y.text ++ path) ∧ d' = x.dsk wholeDiskSlice

/-- `parse` stays inside of the buffer. It comes to `dskprobe` if all words are as they should be, with the selection that
they write; and it rejects a word otherwise, with the selection that there was before it. -/
def Exact (wholeDiskSlice : ℕ) (d : Dsk) (ws : List Word) : Outcome → Prop
  | .fault => False
  | .rejected before s => (∃ w ∈ ws, ¬ WellFormed w.bytes) ∧ s.dsk = before
  | .probe s => (∀ w ∈ ws, WellFormed w.bytes) ∧ Selects wholeDiskSlice d ws s.dsk

/-- The words up to the first one that is rejected do not break off at the very end of the buffer, that one sets the
selection to what it is if it sets it at all, and without one the line ends in the buffer. -/
inductive Meets (wholeDiskSlice : ℕ) (closed : Bool) : Dsk → List Word → Prop
  | done (d : Dsk) (h : closed = true) : Meets wholeDiskSlice closed d []
  | plain {d : Dsk} {w : Word} {ws : List Word} (hw : Options w.bytes ∨ Plain w.bytes)
      (h : Meets wholeDiskSlice closed d ws) : Meets wholeDiskSlice closed d (w :: ws)
  | device {d : Dsk} {w : Word} {ws : List Word} (x : Selection) (path : List UInt8) (hx : x.Loose)
      (hw : w.bytes = x.text ++ path) (h : Meets wholeDiskSlice closed (x.sets wholeDiskSlice) ws) :
      Meets wholeDiskSlice closed d (w :: ws)
  | rejected {d : Dsk} {w : Word} {ws : List Word} (hw : ¬ Accepted w.bytes) (hin : ¬ Overruns w)
      (h : Keeps wholeDiskSlice d w) : Meets wholeDiskSlice closed d (w :: ws)

def Fate.Kept : Fate → Prop
  | .fault => False
  | .rejected before after => after = before
  | .probe _ => True

attribute [local grind =] Exact Fate.Kept

theorem not_accepted {w : Word} (h : ∀ d', wordStep wholeDiskSlice d w ≠ some (true,d')) : ¬ Accepted w.bytes := by
  intro hw
  obtain ⟨d',hd'⟩ := @accepted_step wholeDiskSlice d w.bytes hw w.rest
  exact h d' hd'

theorem meets_iff (hclean : ∀ w ∈ ws, 0 ∉ w.bytes ∧ w.bytes ≠ []) :
    Meets wholeDiskSlice closed d ws ↔ (fate wholeDiskSlice closed ws d).Kept := by
  induction ws generalizing d with
  | nil =>
    cases closed with
    | true => exact iff_of_true (.done d rfl) trivial
    | false =>
      refine iff_of_false (fun h => ?_) id
      cases h with
      | done _ h => cases h
  | cons w ws ih =>
    obtain ⟨⟨hzero,hne⟩,hrest⟩ := List.forall_mem_cons.mp hclean
    have hcons : ∀ d', wordStep wholeDiskSlice d w = some (true,d') →
        fate wholeDiskSlice closed (w :: ws) d = fate wholeDiskSlice closed ws d' := by
      intro d' hd'
      rw [fate,hd']
    obtain hacc | ⟨hover,hstep⟩ | ⟨d',hstep,hkeeps⟩ := @wordStep_cases wholeDiskSlice d w hzero hne
    · have hnot : Accepted w.bytes := hacc
      constructor
      · intro h
        cases h with
        | plain hw h =>
          obtain hw | hw := hw
          · rw [hcons d (options_step hw w.rest)]
            exact (ih hrest).mp h
          · rw [hcons d (plain_step hw w.rest)]
            exact (ih hrest).mp h
        | device x path hx hw h =>
          obtain ⟨bytes,rest⟩ := w
          obtain rfl : bytes = x.text ++ path := hw
          rw [hcons _ (text_step hx path rest)]
          exact (ih hrest).mp h
        | rejected hw => exact absurd hnot hw
      · intro h
        obtain hw | hw | ⟨x,path,hx,hw⟩ := hacc
        · rw [hcons d (options_step hw w.rest)] at h
          exact .plain (Or.inl hw) ((ih hrest).mpr h)
        · rw [hcons d (plain_step hw w.rest)] at h
          exact .plain (Or.inr hw) ((ih hrest).mpr h)
        · obtain ⟨bytes,rest⟩ := w
          obtain rfl : bytes = x.text ++ path := hw
          rw [hcons _ (text_step hx path rest)] at h
          exact .device x path hx rfl ((ih hrest).mpr h)
    · have hacc : ¬ Accepted w.bytes := not_accepted (d := d) fun d' h => by rw [hstep] at h; cases h
      rw [fate,hstep]
      refine iff_of_false (fun h => ?_) id
      cases h with
      | plain hw => exact hacc (hw.imp id Or.inl)
      | device x path hx hw => exact hacc (Or.inr (Or.inr ⟨x,path,hx,hw⟩))
      | rejected _ hin => exact hin hover
    · have hacc : ¬ Accepted w.bytes := not_accepted (d := d) fun d'' h => by rw [hstep] at h; cases h
      have hin : ¬ Overruns w := fun h => by
        have hnone := @overruns_step wholeDiskSlice d w h
        rw [hstep] at hnone
        cases hnone
      rw [fate,hstep]
      constructor
      · intro h
        cases h with
        | plain hw => exact absurd (hw.imp id Or.inl) hacc
        | device x path hx hw => exact absurd (Or.inr (Or.inr ⟨x,path,hx,hw⟩)) hacc
        | rejected _ _ h => exact hkeeps.mpr h
      · intro h
        exact .rejected hacc hin (hkeeps.mp h)

theorem text_shape {x : Selection} (hx : x.Loose) (path : List UInt8) :
    ∃ c m, x.text ++ path = c :: m ∧ c ≠ chMinus ∧ chParen ∈ m := by
  obtain ⟨c,m,hword,hminus,hfind⟩ := head_find hx.drive hx.type (x.tail ++ path)
  obtain ⟨hlt,hparen,-⟩ := List.findIdx?_eq_some_iff_getElem.mp hfind
  refine ⟨c,m,by rw [Selection.text,List.append_assoc,hword],hminus,?_⟩
  exact List.mem_of_getElem (of_decide_eq_true hparen)

theorem not_text {w : List UInt8} (h : Options w ∨ Plain w) (x : Selection) (path : List UInt8) (hx : x.Written) :
    w ≠ x.text ++ path := by
  rintro rfl
  obtain ⟨c,m,hword,hminus,hparen⟩ := text_shape (written_loose hx) path
  rw [hword] at h
  obtain ⟨l,hl,-⟩ | ⟨c',l,hl,-,hno⟩ := h
  · exact hminus (List.cons.inj hl).1
  · rw [(List.cons.inj hl).2] at hparen
    exact hno hparen

theorem selects_cons {w : Word} {d₁ d' : Dsk} (h : Selects wholeDiskSlice d₁ ws d')
    (hw : ((Options w.bytes ∨ Plain w.bytes) ∧ d₁ = d) ∨
      ∃ x : Selection, ∃ path, x.Written ∧ w.bytes = x.text ++ path ∧ d₁ = x.dsk wholeDiskSlice) :
    Selects wholeDiskSlice d (w :: ws) d' := by
  obtain ⟨hnone,rfl⟩ | ⟨us,v,vs,y,path,rfl,hy,hv,hvs,rfl⟩ := h
  · obtain ⟨hplain,rfl⟩ | ⟨x,path,hx,hw,rfl⟩ := hw
    · exact Or.inl ⟨List.forall_mem_cons.mpr ⟨not_text hplain,hnone⟩,rfl⟩
    · exact Or.inr ⟨[],w,ws,x,path,rfl,hx,hw,hnone,rfl⟩
  · exact Or.inr ⟨w :: us,v,vs,y,path,rfl,hy,hv,hvs,rfl⟩

theorem fate_probe {d' : Dsk} (h : fate wholeDiskSlice closed ws d = .probe d')
    (hwell : ∀ w ∈ ws, WellFormed w.bytes) : Selects wholeDiskSlice d ws d' := by
  induction ws generalizing d with
  | nil =>
    cases closed with
    | true =>
      cases h
      exact Or.inl ⟨by simp,rfl⟩
    | false => cases h
  | cons w ws ih =>
    obtain ⟨hw,hws⟩ := List.forall_mem_cons.mp hwell
    rw [fate] at h
    obtain hw | hw | ⟨x,path,hx,hw⟩ := hw
    · rw [options_step hw w.rest] at h
      exact selects_cons (ih h hws) (Or.inl ⟨Or.inl hw,rfl⟩)
    · rw [plain_step hw w.rest] at h
      exact selects_cons (ih h hws) (Or.inl ⟨Or.inr hw,rfl⟩)
    · obtain ⟨bytes,rest⟩ := w
      obtain rfl : bytes = x.text ++ path := hw
      rw [text_step (written_loose hx) path rest] at h
      exact selects_cons (ih h hws) (Or.inr ⟨x,path,hx,rfl,sets_written hx wholeDiskSlice⟩)

/-- The line comes to its end exactly if all words are accepted. -/
theorem fate_accepted (hclean : ∀ w ∈ ws, 0 ∉ w.bytes ∧ w.bytes ≠ []) :
    (∀ d', fate wholeDiskSlice closed ws d = .probe d' → ∀ w ∈ ws, Accepted w.bytes) ∧
      ∀ before after, fate wholeDiskSlice closed ws d = .rejected before after → ∃ w ∈ ws, ¬ Accepted w.bytes := by
  induction ws generalizing d with
  | nil =>
    refine ⟨fun _ _ => by simp,fun before after h => ?_⟩
    cases closed <;> cases h
  | cons w ws ih =>
    obtain ⟨⟨hzero,hne⟩,hrest⟩ := List.forall_mem_cons.mp hclean
    rw [fate]
    obtain hacc | ⟨-,hstep⟩ | ⟨d',hstep,-⟩ := @wordStep_cases wholeDiskSlice d w hzero hne
    · obtain ⟨d',hstep⟩ : ∃ d', wordStep wholeDiskSlice d w = some (true,d') := accepted_step hacc w.rest
      obtain ⟨hprobe,hrejected⟩ := @ih d' hrest
      rw [hstep]
      refine ⟨fun d'' h => List.forall_mem_cons.mpr ⟨hacc,hprobe d'' h⟩,fun before after h => ?_⟩
      obtain ⟨v,hv,hbad⟩ := hrejected before after h
      exact ⟨v,List.mem_cons_of_mem _ hv,hbad⟩
    · rw [hstep]
      refine ⟨fun d'' h => ?_,fun before after h => ?_⟩
      · cases h
      · cases h
    · have hacc : ¬ Accepted w.bytes := not_accepted (d := d) fun d'' h => by rw [hstep] at h; cases h
      rw [hstep]
      refine ⟨fun d'' h => ?_,fun before after _ => ⟨w,List.mem_cons_self,hacc⟩⟩
      cases h

/-- `parse` does exactly what it should if it meets a word that it rejects neither at the end of the buffer nor too late; and
if all words are accepted, they have to be well-formed. -/
theorem parse_exact_iff (wholeDiskSlice : ℕ) (kbd : Bool) (s : State) :
    Exact wholeDiskSlice s.dsk (lineWords s.cmd).1 (parse wholeDiskSlice kbd s) ↔
      Meets wholeDiskSlice (lineWords s.cmd).2 s.dsk (lineWords s.cmd).1 ∧
        ((∃ w ∈ (lineWords s.cmd).1, ¬ Accepted w.bytes) ∨ ∀ w ∈ (lineWords s.cmd).1, WellFormed w.bytes) := by
  have hclean : ∀ w ∈ (lineWords s.cmd).1, 0 ∉ w.bytes ∧ w.bytes ≠ [] := words_clean _ _
  have hfate : (parse wholeDiskSlice kbd s).fate =
      fate wholeDiskSlice (lineWords s.cmd).2 (lineWords s.cmd).1 s.dsk := by
    have h := @loop_fate wholeDiskSlice kbd (s.cmd.length+1) 0 s (by rw [List.drop_zero]; exact Nat.lt_succ_self _)
    rwa [List.drop_zero] at h
  obtain ⟨hprobe,hrejected⟩ := @fate_accepted wholeDiskSlice (lineWords s.cmd).2 s.dsk _ hclean
  rw [meets_iff hclean,← hfate]
  cases hparse : parse wholeDiskSlice kbd s with
  | fault => exact iff_of_false id fun h => h.1
  | rejected before s' =>
    rw [hparse] at hfate
    obtain ⟨w,hw,hbad⟩ := hrejected _ _ hfate.symm
    constructor
    · rintro ⟨-,h⟩
      exact ⟨h,Or.inl ⟨w,hw,hbad⟩⟩
    · rintro ⟨h,-⟩
      exact ⟨⟨w,hw,fun hwell => hbad (wellFormed_accepted hwell)⟩,h⟩
  | probe s' =>
    rw [hparse] at hfate
    have hacc := hprobe _ hfate.symm
    constructor
    · rintro ⟨hwell,-⟩
      exact ⟨trivial,Or.inr hwell⟩
    · rintro ⟨-,⟨w,hw,hbad⟩ | hwell⟩
      · exact absurd (hacc w hw) hbad
      · exact ⟨hwell,fate_probe hfate.symm hwell⟩

/-- A line without the closing parenthesis, typed when a floppy disk is selected. -/
def brokenLine : State := ⟨[97,100,40,48,44,97] ++ List.replicate 506 0,0,none,⟨0,2,0,1,0⟩⟩

theorem rejected_late : ¬ Exact 1 brokenLine.dsk (lineWords brokenLine.cmd).1 (parse 1 true brokenLine) := by
  have hfate : (parse 1 true brokenLine).fate = .rejected ⟨0,2,0,1,0⟩ ⟨0,0,0,1,0⟩ := by decide +kernel
  cases hparse : parse 1 true brokenLine with
  | fault => exact id
  | probe s =>
    rw [hparse] at hfate
    cases hfate
  | rejected before s =>
    rw [hparse,Outcome.fate,Fate.rejected.injEq] at hfate
    rintro ⟨-,h⟩
    rw [hfate.1,hfate.2] at h
    exact absurd h (by decide)

end Exact

end Blub.Boot.Boot2Parse
