import Mathlib.Tactic

/-! The conditional commands of the loader, from `commands.c`, the dispatch of `perform` and the loop
of `include`, from `do_dloader.c`. Ordinary commands act on a state that the conditions read. -/
namespace Blub.Boot

/-- What the interpreter needs of its surroundings: files, variables, and the ordinary commands. -/
structure World (σ : Type*) where
  relStat : σ → String → Bool
  getenv : σ → String → Bool
  command : String → Option (List String → σ → Bool × σ)

structure Cond where
  inherit : Bool
  current : Bool

/-- The static variables, the state of the surroundings, and the ordinary commands run so far. -/
structure Interp (σ : Type*) where
  condStack : ℕ → Cond
  condIndex : ℕ
  currentCondition : Bool
  env : σ
  ran : List (List String)

section Commands
variable {σ : Type*} (w : World σ)

def condStackSize : ℕ := 32

def Interp.top (s : Interp σ) : Cond := s.condStack (s.condIndex-1)

def Interp.setTop (s : Interp σ) (c : Cond) : Interp σ :=
  {s with condStack := Function.update s.condStack (s.condIndex-1) c}

/-- `command_ifexists` and `command_ifset`, with the test as a parameter. -/
def commandIf (name : String) (test : σ → String → Bool) (argv : List String) (s : Interp σ) :
    Except String Unit × Interp σ :=
  if s.condIndex+1 = condStackSize then (.error "if stack too deep",s)
  else
    match argv with
    | [_,arg] =>
      let cond : Cond := ⟨s.currentCondition,test s.env arg⟩
      (.ok (),{s with condStack := Function.update s.condStack s.condIndex cond,
                      condIndex := s.condIndex+1, currentCondition := cond.inherit && cond.current})
    | _ => (.error (name ++ " requires one argument"),s)

def commandIfexists (argv : List String) (s : Interp σ) : Except String Unit × Interp σ :=
  commandIf "ifexists" w.relStat argv s

def commandIfset (argv : List String) (s : Interp σ) : Except String Unit × Interp σ :=
  commandIf "ifset" w.getenv argv s

def commandElseifexists (argv : List String) (s : Interp σ) : Except String Unit × Interp σ :=
  if s.condIndex = 0 then (.error "elseifexists without if",s)
  else
    match argv with
    | [_,arg] =>
      let cond := s.top
      if cond.inherit = false then (.ok (),{s with currentCondition := false})
      else if cond.current then (.ok (),{s.setTop ⟨false,false⟩ with currentCondition := false})
      else
        let cond : Cond := ⟨cond.inherit,w.relStat s.env arg⟩
        (.ok (),{s.setTop cond with currentCondition := cond.inherit && cond.current})
    | _ => (.error "elseifexists requires one argument",s)

def commandElse (s : Interp σ) : Except String Unit × Interp σ :=
  if s.condIndex ≠ 0 then
    let cond : Cond := ⟨s.top.inherit,!s.top.current⟩
    (.ok (),{s.setTop cond with currentCondition := cond.inherit && cond.current})
  else (.error "else without if",s)

def commandEndif (s : Interp σ) : Except String Unit × Interp σ :=
  if s.condIndex ≠ 0 then
    let s := {s with condIndex := s.condIndex-1}
    (.ok (),{s with currentCondition := if s.condIndex ≠ 0 then s.top.inherit && s.top.current else true})
  else (.error "endif without if",s)

/-- The commands that are performed even where nothing else is. -/
def condCommand (name : String) : Option (List String → Interp σ → Except String Unit × Interp σ) :=
  if name = "ifexists" then some (commandIfexists w)
  else if name = "ifset" then some (commandIfset w)
  else if name = "elseifexists" then some (commandElseifexists w)
  else if name = "else" then some (fun _ => commandElse)
  else if name = "endif" then some (fun _ => commandEndif)
  else none

/-- An assignment is the command `local`. -/
def commandName (av0 : String) : String := if '=' ∈ av0.toList then "local" else av0

def perform (argv : List String) (s : Interp σ) : Except String Unit × Interp σ :=
  match argv with
  | [] => (.ok (),s)
  | av0 :: _ =>
    match condCommand w (commandName av0) with
    | some fn => fn argv s
    | none =>
      match w.command (commandName av0) with
      | some fn =>
        if s.currentCondition then
          let (ok,env) := fn argv s.env
          (if ok then .ok () else .error "no error message",{s with env := env, ran := s.ran ++ [argv]})
        else (.ok (),s)
      | none => (.error "unknown command",s)

structure IncludeLine where
  argv : List String
  ignoreErr : Bool

/-- The second loop of `include`. -/
def includeLines : List IncludeLine → Interp σ → Except String Unit × Interp σ
  | [], s => (.ok (),s)
  | l :: ls, s =>
    match perform w l.argv s with
    | (.ok _,s) => includeLines ls s
    | (.error e,s) => if l.ignoreErr then includeLines ls s else (.error e,s)

attribute [local grind =] perform includeLines

end Commands

/-- The condition after `ifexists` or `ifset`. -/
inductive Test
  | file (name : String)
  | var (name : String)

mutual
/-- A well-nested script. -/
inductive Script
  | done
  | cmd (argv : List String) (rest : Script)
  | cond (test : Test) (body : Script) (alts : Alts) (rest : Script)
/-- The branches behind the first one, up to `endif`. The arguments of `else` and `endif` are ignored. -/
inductive Alts
  | endif (args : List String)
  | orElse (args : List String) (body : Script) (args' : List String)
  | elseifexists (name : String) (body : Script) (alts : Alts)
end

def Test.line : Test → List String
  | .file name => ["ifexists",name]
  | .var name => ["ifset",name]

mutual
def Script.lines : Script → List (List String)
  | .done => []
  | .cmd argv rest => argv :: rest.lines
  | .cond test body alts rest => test.line :: (body.lines ++ (alts.lines ++ rest.lines))
def Alts.lines : Alts → List (List String)
  | .endif args => [("endif" :: args)]
  | .orElse args body args' => ("else" :: args) :: (body.lines ++ [("endif" :: args')])
  | .elseifexists name body alts => ["elseifexists",name] :: (body.lines ++ alts.lines)
end

mutual
def Script.depth : Script → ℕ
  | .done => 0
  | .cmd _ rest => rest.depth
  | .cond _ body alts rest => max (1+max body.depth alts.depth) rest.depth
def Alts.depth : Alts → ℕ
  | .endif _ => 0
  | .orElse _ body _ => body.depth
  | .elseifexists _ body alts => max body.depth alts.depth
end

section Semantics
variable {σ : Type*} (w : World σ)

def Test.holds (e : σ) : Test → Bool
  | .file name => w.relStat e name
  | .var name => w.getenv e name

/-- An ordinary command that exists and does not fail. -/
def Plain (argv : List String) : Prop :=
  ∃ av0 args fn, argv = av0 :: args ∧ condCommand w (commandName av0) = none ∧
    w.command (commandName av0) = some fn ∧ ∀ e, (fn argv e).1 = true

mutual
def Script.Plain : Script → Prop
  | .done => True
  | .cmd argv rest => Boot.Plain w argv ∧ rest.Plain
  | .cond _ body alts rest => body.Plain ∧ alts.Plain ∧ rest.Plain
def Alts.Plain : Alts → Prop
  | .endif _ => True
  | .orElse _ body _ => body.Plain
  | .elseifexists _ body alts => body.Plain ∧ alts.Plain
end

/-- What an ordinary command makes of the surroundings. -/
def effect (argv : List String) (e : σ) : σ :=
  match argv with
  | [] => e
  | av0 :: _ => match w.command (commandName av0) with
    | some fn => (fn argv e).2
    | none => e

attribute [local grind =] effect

mutual
/-- The structural meaning of a script: the commands it runs, in order, and the state they lead to. -/
def Script.exec : Script → σ → List (List String) × σ
  | .done, e => ([],e)
  | .cmd argv rest, e =>
    let r := rest.exec (effect w argv e)
    (argv :: r.1,r.2)
  | .cond test body alts rest, e =>
    let b := if test.holds w e then body.exec e else alts.exec e
    let r := rest.exec b.2
    (b.1 ++ r.1,r.2)
def Alts.exec : Alts → σ → List (List String) × σ
  | .endif _, e => ([],e)
  | .orElse _ body _, e => body.exec e
  | .elseifexists name body alts, e => if w.relStat e name then body.exec e else alts.exec e
end

attribute [local grind =] Script.exec

end Semantics

section Runs
variable {σ : Type*} {w : World σ} {s s₁ s' : Interp σ} {ls ls' : List (List String)}

/-- Performing the lines one after the other, without an error, leads from `s` to `s'`. -/
def Goes (w : World σ) (ls : List (List String)) (s s' : Interp σ) : Prop :=
  ∀ fs : List IncludeLine, fs.map (·.argv) = ls → includeLines w fs s = (.ok (),s')

theorem Goes.nil (w : World σ) (s : Interp σ) : Goes w [] s s := by
  intro fs hfs
  rw [List.map_eq_nil_iff] at hfs
  rw [hfs]
  rfl

theorem Goes.cons {l : List String} (h : perform w l s = (.ok (),s₁)) (h' : Goes w ls s₁ s') :
    Goes w (l :: ls) s s' := by
  intro fs hfs
  obtain ⟨f,fs,rfl,rfl,hrest⟩ := List.map_eq_cons_iff.mp hfs
  simp only [includeLines,h]
  exact h' fs hrest

theorem Goes.append (h : Goes w ls s s₁) (h' : Goes w ls' s₁ s') : Goes w (ls ++ ls') s s' := by
  induction ls generalizing s with
  | nil =>
    have := h [] rfl
    simp only [includeLines,Prod.mk.injEq,true_and] at this
    rwa [this]
  | cons l ls ih =>
    intro fs hfs
    obtain ⟨f,fs,rfl,rfl,hrest⟩ := List.map_eq_cons_iff.mp hfs
    obtain ⟨fs₁,fs₂,rfl,h₁,h₂⟩ := List.map_eq_append_iff.mp hrest
    have hall := h (f :: fs₁) (by rw [List.map_cons,h₁])
    -- a line that fails is passed over, or it would end the run
    cases hp : perform w f.argv s with
    | mk r s₂ =>
      have hgo : Goes w ls s₂ s₁ := by
        intro fs₁' hfs'
        have hall' := h (⟨f.argv,f.ignoreErr⟩ :: fs₁') (by rw [List.map_cons,hfs'])
        simp only [includeLines,hp] at hall'
        cases r with
        | ok _ => exact hall'
        | error e =>
          dsimp only at hall'
          split_ifs at hall'
          · exact hall'
          · cases hall'
      have hrun := ih hgo (fs₁ ++ fs₂) (by rw [List.map_append,h₁,h₂])
      simp only [includeLines,hp] at hall ⊢
      cases r with
      | ok _ => exact hrun
      | error e =>
        dsimp only at hall ⊢
        split_ifs at hall ⊢
        · exact hrun
        · cases hall

/-- The current condition is the one that the top of the stack stands for. -/
def Interp.Settled (s : Interp σ) : Prop :=
  s.currentCondition = if s.condIndex ≠ 0 then s.top.inherit && s.top.current else true

/-- Where a piece of a script leads: the level, the condition and the stack below are given, and
`r` says what was run. -/
structure Leads (s : Interp σ) (k : ℕ) (c : Bool) (r : List (List String) × σ) (s' : Interp σ) : Prop where
  condIndex : s'.condIndex = k
  currentCondition : s'.currentCondition = c
  below : ∀ j < k, s'.condStack j = s.condStack j
  ran : s'.ran = s.ran ++ r.1
  env : s'.env = r.2

theorem Leads.settled {k : ℕ} {c : Bool} {r : List (List String) × σ} (h : Leads s k c r s')
    (hk : s.condIndex = k) (hc : s.currentCondition = c) (hs : s.Settled) : s'.Settled := by
  unfold Interp.Settled Interp.top at hs ⊢
  rw [h.condIndex,h.currentCondition,← hc,hs,hk]
  split_ifs with h₀
  · rw [h.below (k-1) (by omega)]
  · rfl

/-- Nothing is run where the condition is off. -/
def gated (c : Bool) (e : σ) (r : List (List String) × σ) : List (List String) × σ := if c then r else ([],e)

theorem perform_plain {argv : List String} (h : Plain w argv) (s : Interp σ) :
    ∃ s', perform w argv s = (.ok (),s') ∧
      Leads s s.condIndex s.currentCondition (gated s.currentCondition s.env ([argv],effect w argv s.env)) s' := by
  obtain ⟨av0,args,fn,rfl,hcond,hfn,hok⟩ := h
  simp only [perform,hcond,hfn]
  cases hc : s.currentCondition with
  | true =>
    refine ⟨{s with env := (fn (av0 :: args) s.env).2, ran := s.ran ++ [av0 :: args]},?_,rfl,hc,fun _ _ => rfl,?_,?_⟩
    · simp only [if_true,hok,hc]
    · simp [gated]
    · simp [gated,effect,hfn]
  | false =>
    refine ⟨s,by simp,rfl,hc,fun _ _ => rfl,?_,?_⟩
    · simp [gated]
    · simp [gated]

theorem perform_test (test : Test) (s : Interp σ) (hk : s.condIndex < 31) :
    perform w test.line s = (.ok (),{s with
      condStack := Function.update s.condStack s.condIndex ⟨s.currentCondition,test.holds w s.env⟩,
      condIndex := s.condIndex+1, currentCondition := s.currentCondition && test.holds w s.env}) := by
  have hk' : s.condIndex+1 ≠ condStackSize := by
    simp only [condStackSize]
    omega
  cases test with
  | file name =>
    have hn : commandName "ifexists" = "ifexists" := by decide
    simp only [Test.line,perform,hn,condCommand,if_true,commandIfexists,commandIf,if_neg hk',Test.holds]
  | var name =>
    have hn : commandName "ifset" = "ifset" := by decide
    have hne : ("ifset" : String) ≠ "ifexists" := by decide
    simp only [Test.line,perform,hn,condCommand,if_neg hne,if_true,commandIfset,commandIf,if_neg hk',Test.holds]

/-- The top of the stack is replaced, and the current condition set from it. -/
def Interp.enter (s : Interp σ) (d : Cond) : Interp σ :=
  {s.setTop d with currentCondition := d.inherit && d.current}

theorem Interp.enter_settled (d : Cond) {k : ℕ} (hk : s.condIndex = k+1) : (s.enter d).Settled := by
  simp [Interp.Settled,Interp.enter,Interp.top,Interp.setTop,hk]

/-- A branch leaves its own level and those below as it found them. -/
theorem Leads.branch {d : Cond} {k : ℕ} {c : Bool} {r : List (List String) × σ}
    (h : Leads (s.enter d) (s.enter d).condIndex c r s') (hk : s.condIndex = k+1) :
    s'.condIndex = k+1 ∧ (∀ j < k, s'.condStack j = s.condStack j) ∧ s'.condStack k = d := by
  have hk' : (s.enter d).condIndex = k+1 := hk
  refine ⟨h.condIndex.trans hk',?_,?_⟩
  · intro j hj
    rw [h.below j (by omega)]
    simp [Interp.enter,Interp.setTop,hk,Function.update_of_ne (show j ≠ k by omega)]
  · rw [h.below k (by omega)]
    simp [Interp.enter,Interp.setTop,hk]

theorem perform_else (args : List String) (s : Interp σ) (hk : s.condIndex ≠ 0) :
    perform w ("else" :: args) s = (.ok (),s.enter ⟨s.top.inherit,!s.top.current⟩) := by
  have hn : commandName "else" = "else" := by decide
  have h₁ : ("else" : String) ≠ "ifexists" := by decide
  have h₂ : ("else" : String) ≠ "ifset" := by decide
  have h₃ : ("else" : String) ≠ "elseifexists" := by decide
  simp only [perform,hn,condCommand,if_neg h₁,if_neg h₂,if_neg h₃,if_true,commandElse,if_pos hk,
    Interp.enter]

theorem perform_endif (args : List String) (s : Interp σ) (hk : s.condIndex ≠ 0) :
    perform w ("endif" :: args) s = (.ok (),{s with
      condIndex := s.condIndex-1,
      currentCondition := if s.condIndex-1 ≠ 0 then (s.condStack (s.condIndex-1-1)).inherit &&
        (s.condStack (s.condIndex-1-1)).current else true}) := by
  have hn : commandName "endif" = "endif" := by decide
  have h₁ : ("endif" : String) ≠ "ifexists" := by decide
  have h₂ : ("endif" : String) ≠ "ifset" := by decide
  have h₃ : ("endif" : String) ≠ "elseifexists" := by decide
  have h₄ : ("endif" : String) ≠ "else" := by decide
  simp only [perform,hn,condCommand,if_neg h₁,if_neg h₂,if_neg h₃,if_neg h₄,if_true,commandEndif,if_pos hk,
    Interp.top]

/-- What `elseifexists` makes of the top of the stack. -/
def Cond.next (c : Cond) (test : Bool) : Cond :=
  if c.inherit = false then c else if c.current then ⟨false,false⟩ else ⟨c.inherit,test⟩

theorem perform_elseifexists (name : String) (s : Interp σ) (hk : s.condIndex ≠ 0) :
    perform w ["elseifexists",name] s = (.ok (),s.enter (s.top.next (w.relStat s.env name))) := by
  have hn : commandName "elseifexists" = "elseifexists" := by decide
  have h₁ : ("elseifexists" : String) ≠ "ifexists" := by decide
  have h₂ : ("elseifexists" : String) ≠ "ifset" := by decide
  simp only [perform,hn,condCommand,if_neg h₁,if_neg h₂,if_true,commandElseifexists,if_neg hk,Cond.next,
    Interp.enter]
  split_ifs with hi hc
  · simp only [Interp.top] at hi
    simp [Interp.setTop,Interp.top,hi]
  · simp
  · rfl

/-- Whether a branch behind `c` may still be taken. -/
def Cond.isOpen (c : Cond) : Bool := c.inherit && !c.current

mutual
theorem Script.leads (sc : Script) (s : Interp σ) (hp : sc.Plain w) (hd : s.condIndex+sc.depth ≤ 31)
    (hs : s.Settled) : ∃ s', Goes w sc.lines s s' ∧
      Leads s s.condIndex s.currentCondition (gated s.currentCondition s.env (sc.exec w s.env)) s' := by
  match sc with
  | .done =>
    refine ⟨s,Goes.nil w s,rfl,rfl,fun _ _ => rfl,?_,?_⟩
    · simp [gated,Script.exec]
    · simp [gated,Script.exec]
  | .cmd argv rest =>
    obtain ⟨s₁,hgo,l₁⟩ := perform_plain hp.1 s
    obtain ⟨s',hrest,l'⟩ := Script.leads rest s₁ hp.2 (by rw [l₁.condIndex]; exact hd)
      (l₁.settled rfl rfl hs)
    refine ⟨s',.cons hgo hrest,?_⟩
    rw [l₁.condIndex,l₁.currentCondition,l₁.env] at l'
    refine ⟨l'.condIndex,l'.currentCondition,fun j hj => (l'.below j hj).trans (l₁.below j hj),?_,?_⟩
    · rw [l'.ran,l₁.ran]
      cases hc : s.currentCondition <;> simp [gated,Script.exec]
    · rw [l'.env]
      cases hc : s.currentCondition <;> simp [gated,Script.exec]
  | .cond test body alts rest =>
    obtain ⟨hb,ha,hr⟩ := hp
    have hd' : s.condIndex+(1+max body.depth alts.depth) ≤ 31 ∧ s.condIndex+rest.depth ≤ 31 := by
      simp only [Script.depth] at hd
      omega
    have hif := perform_test (w := w) test s (by omega)
    obtain ⟨s₁,hs₁⟩ : ∃ s₁, s₁ = {s with
      condStack := Function.update s.condStack s.condIndex ⟨s.currentCondition,test.holds w s.env⟩,
      condIndex := s.condIndex+1, currentCondition := s.currentCondition && test.holds w s.env} := ⟨_,rfl⟩
    rw [← hs₁] at hif
    have hset : s₁.Settled := by
      rw [hs₁]
      simp [Interp.Settled,Interp.top]
    obtain ⟨s₂,hbody,l₂⟩ := Script.leads body s₁ hb (by rw [hs₁]; dsimp only; omega) hset
    have htop : s₂.condStack s.condIndex = ⟨s.currentCondition,test.holds w s.env⟩ := by
      rw [l₂.below _ (by rw [hs₁]; exact Nat.lt_succ_self _),hs₁]
      simp
    have hlow : ∀ j < s.condIndex, s₂.condStack j = s.condStack j := by
      intro j hj
      rw [l₂.below _ (by rw [hs₁]; exact Nat.lt_succ_of_lt hj),hs₁]
      simp [Function.update_of_ne (show j ≠ s.condIndex by omega)]
    obtain ⟨s₃,halts,l₃⟩ := Alts.leads alts s₂ s.condIndex s.currentCondition ha (by rw [l₂.condIndex,hs₁])
      (by omega) (by
        rw [hs,Interp.top]
        split_ifs with h₀
        · rw [hlow _ (by omega)]
        · rfl)
    have hset₃ : s₃.Settled := by
      unfold Interp.Settled Interp.top at hs ⊢
      rw [l₃.condIndex,l₃.currentCondition,hs]
      split_ifs with h₀
      · rw [l₃.below _ (by omega),hlow _ (by omega)]
      · rfl
    obtain ⟨s',hrest,l'⟩ := Script.leads rest s₃ hr (by rw [l₃.condIndex]; exact hd'.2) hset₃
    refine ⟨s',.cons hif (hbody.append (halts.append hrest)),?_⟩
    rw [l₃.condIndex,l₃.currentCondition] at l'
    have henv : s₁.env = s.env := by rw [hs₁]
    have hran : s₁.ran = s.ran := by rw [hs₁]
    have hcur : s₁.currentCondition = (s.currentCondition && test.holds w s.env) := by rw [hs₁]
    have hopen := l₃.env
    have hran₃ := l₃.ran
    have henv₂ := l₂.env
    have hran₂ := l₂.ran
    rw [henv,hcur] at henv₂ hran₂
    rw [htop,henv₂] at hopen hran₃
    refine ⟨l'.condIndex,l'.currentCondition,?_,?_,?_⟩
    · intro j hj
      rw [l'.below j hj,l₃.below j hj,hlow j hj]
    · rw [l'.ran,hran₃,hran₂,hran,hopen]
      cases hc : s.currentCondition <;> cases ht : test.holds w s.env <;> simp [gated,Script.exec,Cond.isOpen,ht]
    · rw [l'.env,hopen]
      cases hc : s.currentCondition <;> cases ht : test.holds w s.env <;> simp [gated,Script.exec,Cond.isOpen,ht]
theorem Alts.leads (al : Alts) (s : Interp σ) (k : ℕ) (c : Bool) (hp : al.Plain w) (hk : s.condIndex = k+1)
    (hd : k+1+al.depth ≤ 31)
    (hc : c = if k ≠ 0 then (s.condStack (k-1)).inherit && (s.condStack (k-1)).current else true) :
    ∃ s', Goes w al.lines s s' ∧ Leads s k c (gated (s.condStack k).isOpen s.env (al.exec w s.env)) s' := by
  match al with
  | .endif args =>
    refine ⟨_,.cons (perform_endif args s (by omega)) (Goes.nil w _),?_,?_,fun _ _ => rfl,?_,?_⟩
    · exact (congrArg (·-1) hk).trans (Nat.add_sub_cancel k 1)
    · rw [hk,Nat.add_sub_cancel]
      exact hc.symm
    · simp [gated,Alts.exec]
    · simp [gated,Alts.exec]
  | .orElse args body args' =>
    have helse := perform_else (w := w) args s (by omega)
    have htop : s.top = s.condStack k := by rw [Interp.top,hk,Nat.add_sub_cancel]
    obtain ⟨s₂,hbody,l₂⟩ := Script.leads body _ hp (hd.trans' (by rw [← hk]; rfl)) (Interp.enter_settled _ hk)
    obtain ⟨hk₂,hlow,-⟩ := l₂.branch hk
    refine ⟨_,.cons helse (hbody.append (.cons (perform_endif args' s₂ (by omega)) (Goes.nil w _))),?_,?_,hlow,?_,?_⟩
    · exact (congrArg (·-1) hk₂).trans (Nat.add_sub_cancel k 1)
    · rw [hc,hk₂,Nat.add_sub_cancel]
      dsimp only
      split_ifs with h₀
      · rw [hlow _ (by omega)]
      · rfl
    · refine l₂.ran.trans ?_
      simp [gated,Alts.exec,Cond.isOpen,Interp.enter,Interp.setTop,htop]
    · refine l₂.env.trans ?_
      simp [gated,Alts.exec,Cond.isOpen,Interp.enter,Interp.setTop,htop]
  | .elseifexists name body alts =>
    have helse := perform_elseifexists (w := w) name s (by omega)
    have htop : s.top = s.condStack k := by rw [Interp.top,hk,Nat.add_sub_cancel]
    rw [htop] at helse
    have hdep : k+1+body.depth ≤ 31 ∧ k+1+alts.depth ≤ 31 := by
      simp only [Alts.depth] at hd
      omega
    obtain ⟨s₂,hbody,l₂⟩ := Script.leads body _ hp.1 (hdep.1.trans' (by rw [← hk]; rfl))
      (Interp.enter_settled _ hk)
    obtain ⟨hk₂,hlow,hkept⟩ := l₂.branch hk
    obtain ⟨s',halts,l'⟩ := Alts.leads alts s₂ k c hp.2 hk₂ hdep.2 (by
      rw [hc]
      split_ifs with h₀
      · rw [hlow _ (by omega)]
      · rfl)
    rw [hkept,l₂.env] at l'
    refine ⟨s',.cons helse (hbody.append halts),l'.condIndex,l'.currentCondition,
      fun j hj => (l'.below j hj).trans (hlow j hj),?_,?_⟩
    · rw [l'.ran,l₂.ran]
      cases hi : (s.condStack k).inherit <;> cases hcur : (s.condStack k).current <;>
        cases ht : w.relStat s.env name <;>
        simp [gated,Alts.exec,Cond.isOpen,Cond.next,Interp.enter,Interp.setTop,hi,hcur,ht]
    · rw [l'.env]
      cases hi : (s.condStack k).inherit <;> cases hcur : (s.condStack k).current <;>
        cases ht : w.relStat s.env name <;>
        simp [gated,Alts.exec,Cond.isOpen,Cond.next,Interp.enter,Interp.setTop,hi,hcur,ht]
end

/-- A well-nested script runs the commands of the selected branches, in order, and leaves no level
open. -/
theorem includeLines_exec (sc : Script) (hp : sc.Plain w) (hd : sc.depth ≤ 31) (fs : List IncludeLine)
    (hfs : fs.map (·.argv) = sc.lines) (s : Interp σ) (hk : s.condIndex = 0) (hc : s.currentCondition = true) :
    ∃ s', includeLines w fs s = (.ok (),s') ∧ s'.ran = s.ran ++ (sc.exec w s.env).1 ∧
      s'.env = (sc.exec w s.env).2 ∧ s'.condIndex = 0 ∧ s'.currentCondition = true := by
  have hs : s.Settled := by simp [Interp.Settled,hk,hc]
  obtain ⟨s',hgo,l⟩ := Script.leads sc s hp (by rw [hk,Nat.zero_add]; exact hd) hs
  rw [hk,hc] at l
  exact ⟨s',hgo fs hfs,l.ran,l.env,l.condIndex,l.currentCondition⟩

end Runs

/-- Only the file `a` exists, and `load` is the one ordinary command. -/
def loadWorld : World Unit :=
  ⟨fun _ n => n = "a",fun _ _ => false,fun n => if n = "load" then some fun _ e => (true,e) else none⟩

theorem includeLines_exec_second : ∃ s' : Interp Unit,
    includeLines loadWorld [⟨["ifexists","b"],false⟩,⟨["load","b"],false⟩,⟨["elseifexists","a"],false⟩,
      ⟨["load","a"],false⟩,⟨["else"],false⟩,⟨["load"],false⟩,⟨["endif"],false⟩]
      ⟨fun _ => ⟨false,false⟩,0,true,(),[]⟩ = (.ok (),s') ∧
    s'.ran = [["load","a"]] ∧ s'.condIndex = 0 ∧ s'.currentCondition = true := by
  have hload : ∀ l, Plain loadWorld ("load" :: l) :=
    fun l => ⟨"load",l,fun _ e => (true,e),rfl,by decide,rfl,fun _ => rfl⟩
  obtain ⟨s',h,hran,-,hk,hc⟩ := includeLines_exec (w := loadWorld)
    (.cond (.file "b") (.cmd ["load","b"] .done) (.elseifexists "a" (.cmd ["load","a"] .done)
      (.orElse [] (.cmd ["load"] .done) [])) .done)
    ⟨⟨hload _,trivial⟩,⟨⟨hload _,trivial⟩,hload _,trivial⟩,trivial⟩ (by decide)
    [⟨["ifexists","b"],false⟩,⟨["load","b"],false⟩,⟨["elseifexists","a"],false⟩,
      ⟨["load","a"],false⟩,⟨["else"],false⟩,⟨["load"],false⟩,⟨["endif"],false⟩] rfl
    ⟨fun _ => ⟨false,false⟩,0,true,(),[]⟩ rfl rfl
  exact ⟨s',h,hran,hk,hc⟩

end Blub.Boot
