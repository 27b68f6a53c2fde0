import Blub.Boot.Include

/-! The levels of conditionals over a run of a script: what the conditional commands that it performs do to
`CondIndex`, to `CurrentCondition` and to the stack, and when `include` gives them back as they were. -/
namespace Blub.Boot
open Blub.Nesting

section Levels
variable {σ : Type*} {sh : Shell σ} {s s₁ s' : Interp σ} {ops ops' : List CondOp}

def brackets (ops : List CondOp) : List Bracket := ops.map (·.kind)

@[simp] theorem brackets_append (ops ops' : List CondOp) : brackets (ops ++ ops') = brackets ops ++ brackets ops' :=
  List.map_append

/-- The condition that the last command shows, or the one from before. -/
def lastShown (c : Bool) (ops : List CondOp) : Bool := ops.foldl (fun _ o => o.shows) c

@[simp] theorem lastShown_append (c : Bool) (ops ops' : List CondOp) :
    lastShown c (ops ++ ops') = lastShown (lastShown c ops) ops' := List.foldl_append

/-- `s'` is where `ops` leads from `s`. The levels that are not of the run's own stay as they are while it
touches none of them. -/
structure Tracks (s : Interp σ) (ops : List CondOp) (s' : Interp σ) : Prop where
  level : s'.condIndex+closed (brackets ops) = s.condIndex+opened (brackets ops)
  shown : s'.currentCondition = lastShown s.currentCondition ops
  settled : s.Settled → s'.Settled
  below : ∀ k d d', s.condIndex = k+d → nest d (brackets ops) = some d' → ∀ j < k, s'.condStack j = s.condStack j

theorem Tracks.append (h : Tracks s ops s₁) (h' : Tracks s₁ ops' s') : Tracks s (ops ++ ops') s' where
  level := by
    have hl := h.level
    have hl' := h'.level
    simp only [brackets_append,opened_append,closed_append]
    omega
  shown := by rw [h'.shown,h.shown,lastShown_append]
  settled hs := h'.settled (h.settled hs)
  below := by
    intro k d d' hk hn j hj
    rw [brackets_append,nest_append] at hn
    obtain ⟨d₁,hd₁,hd'⟩ := Option.bind_eq_some_iff.mp hn
    have hk₁ : s₁.condIndex = k+d₁ := by
      have hl := h.level
      have hc := nest_count hd₁
      omega
    rw [h'.below k d₁ d' hk₁ hd' j hj,h.below k d d₁ hk hd₁ j hj]

/-- Where no conditional command is performed. -/
theorem Tracks.same (hk : s'.condIndex = s.condIndex) (hc : s'.currentCondition = s.currentCondition)
    (hst : s'.condStack = s.condStack) : Tracks s [] s' where
  level := by
    rw [hk]
    rfl
  shown := hc
  settled hs := by
    unfold Interp.Settled Interp.top at hs ⊢
    rw [hc,hk,hst,hs]
  below _ _ _ _ _ j _ := congrFun hst j

theorem Tracks.refl (s : Interp σ) : Tracks s [] s := .same rfl rfl rfl

/-- A level is opened under `c`. -/
def Interp.push (s : Interp σ) (c : Cond) : Interp σ :=
  {s with condStack := Function.update s.condStack s.condIndex c,
          condIndex := s.condIndex+1, currentCondition := c.inherit && c.current}

theorem tracks_push (s : Interp σ) (c : Cond) : Tracks s [⟨.opens,(s.push c).currentCondition⟩] (s.push c) where
  level := rfl
  shown := rfl
  settled _ := by simp [Interp.Settled,Interp.push,Interp.top]
  below k d _ hk _ j hj := Function.update_of_ne (by omega) _ _

theorem tracks_enter (s : Interp σ) (c : Cond) (hk : s.condIndex ≠ 0) :
    Tracks s [⟨.alters,(s.enter c).currentCondition⟩] (s.enter c) where
  level := rfl
  shown := rfl
  settled _ := Interp.enter_settled c (Nat.succ_pred_eq_of_ne_zero hk).symm
  below k d _ hd hn j hj := by
    cases d with
    | zero => cases hn
    | succ d => exact Function.update_of_ne (by omega) _ _

/-- The level at the top is left. -/
def Interp.pop (s : Interp σ) : Interp σ :=
  {s with condIndex := s.condIndex-1,
          currentCondition := if s.condIndex-1 ≠ 0 then (s.condStack (s.condIndex-1-1)).inherit &&
            (s.condStack (s.condIndex-1-1)).current else true}

theorem tracks_pop (s : Interp σ) (hk : s.condIndex ≠ 0) : Tracks s [⟨.closes,s.pop.currentCondition⟩] s.pop where
  level := Nat.succ_pred_eq_of_ne_zero hk
  shown := rfl
  settled _ := rfl
  below _ _ _ _ _ _ _ := rfl

theorem commandIf_spec (name : String) (test : σ → String → Bool) (argv : List String) (s : Interp σ) :
    (∃ e, commandIf name test argv s = (.error e,s)) ∨ ∃ c, commandIf name test argv s = (.ok (),s.push c) := by
  unfold commandIf
  split_ifs
  · exact .inl ⟨_,rfl⟩
  · split
    · exact .inr ⟨_,rfl⟩
    · exact .inl ⟨_,rfl⟩

theorem commandElseifexists_spec (w : World σ) (argv : List String) (s : Interp σ) :
    (∃ e, commandElseifexists w argv s = (.error e,s)) ∨
      s.condIndex ≠ 0 ∧ ∃ c, commandElseifexists w argv s = (.ok (),s.enter c) := by
  unfold commandElseifexists
  split_ifs with hk
  · exact .inl ⟨_,rfl⟩
  · split
    · refine .inr ⟨hk,?_⟩
      dsimp only
      split_ifs with hi hc
      · refine ⟨s.top,?_⟩
        simp only [Interp.enter,Interp.setTop,hi,Bool.false_and]
        rw [Interp.top,Function.update_eq_self]
      · exact ⟨⟨false,false⟩,rfl⟩
      · exact ⟨_,rfl⟩
    · exact .inl ⟨_,rfl⟩

theorem commandElse_spec (s : Interp σ) : (∃ e, commandElse s = (.error e,s)) ∨
    s.condIndex ≠ 0 ∧ ∃ c, commandElse s = (.ok (),s.enter c) := by
  unfold commandElse
  split_ifs with hk
  · exact .inr ⟨hk,_,rfl⟩
  · exact .inl ⟨_,rfl⟩

theorem commandEndif_spec (s : Interp σ) : (∃ e, commandEndif s = (.error e,s)) ∨
    s.condIndex ≠ 0 ∧ commandEndif s = (.ok (),s.pop) := by
  unfold commandEndif
  split_ifs with hk
  · exact .inr ⟨hk,rfl⟩
  · exact .inl ⟨_,rfl⟩

/-- A conditional command fails and changes nothing, or is one step over the levels. -/
theorem condCommand_spec {w : World σ} {name : String}
    {fn : List String → Interp σ → Except String Unit × Interp σ} (h : condCommand w name = some fn)
    (argv : List String) (s : Interp σ) : (∃ e, fn argv s = (.error e,s)) ∨
      ∃ s', fn argv s = (.ok (),s') ∧ Tracks s [⟨condKind name,s'.currentCondition⟩] s' := by
  unfold condCommand at h
  split_ifs at h with h₁ h₂ h₃ h₄ h₅
  · cases h
    obtain he | ⟨c,hc⟩ := commandIf_spec "ifexists" w.relStat argv s
    · exact .inl he
    · rw [h₁]
      exact .inr ⟨_,hc,tracks_push s c⟩
  · cases h
    obtain he | ⟨c,hc⟩ := commandIf_spec "ifset" w.getenv argv s
    · exact .inl he
    · rw [h₂]
      exact .inr ⟨_,hc,tracks_push s c⟩
  · cases h
    obtain he | ⟨hk,c,hc⟩ := commandElseifexists_spec w argv s
    · exact .inl he
    · rw [h₃]
      exact .inr ⟨_,hc,tracks_enter s c hk⟩
  · cases h
    obtain he | ⟨hk,c,hc⟩ := commandElse_spec s
    · exact .inl he
    · rw [h₄]
      exact .inr ⟨_,hc,tracks_enter s c hk⟩
  · cases h
    obtain he | ⟨hk,hc⟩ := commandEndif_spec s
    · exact .inl he
    · rw [h₅]
      exact .inr ⟨_,hc,tracks_pop s hk⟩

end Levels

section Runs
variable {σ : Type*} {sh : Shell σ} {perf : List String → Interp σ → Option (Ran σ)} {r : Ran σ} {s : Interp σ}

/-- A command leads where the conditional commands do that were performed under it. -/
def Tracked (perf : List String → Interp σ → Option (Ran σ)) : Prop :=
  ∀ argv s r, perf argv s = some r → Tracks s r.ops r.state

/-- What is run behind `r` is tracked from there. -/
theorem Ran.tracks_after {o : Option (Ran σ)} {r r' : Ran σ} (h : o.map (·.after r.ops) = some r')
    (hr : Tracks s r.ops r.state) (ho : ∀ r'', o = some r'' → Tracks r.state r''.ops r''.state) :
    Tracks s r'.ops r'.state := by
  obtain ⟨r'',hr'',rfl⟩ := Option.map_eq_some_iff.mp h
  exact hr.append (ho r'' hr'')

theorem includeLoop_tracks (hp : Tracked perf) {ls : List ScriptLine} (h : includeLoop sh perf ls s = some r) :
    Tracks s r.ops r.state := by
  induction ls generalizing s r with
  | nil =>
    cases h
    exact .refl s
  | cons l ls ih =>
    unfold includeLoop at h
    split at h
    · cases h
    · cases h
      exact .refl s
    · exact ih h
    · split at h
      · cases h
      · rename_i r₁ hr₁
        split_ifs at h with hok
        · exact Ran.tracks_after h (hp _ _ _ hr₁) fun _ h' => ih h'
        · cases h
          exact hp _ _ _ hr₁

theorem includeFile_tracks (hp : Tracked perf) {filename : String} (h : includeFile sh perf filename s = some r) :
    Tracks s r.ops r.state := by
  unfold includeFile at h
  split at h
  · cases h
    exact .refl s
  · exact includeLoop_tracks hp h

theorem commandInclude_tracks (hp : Tracked perf) {args : List String} (h : commandInclude sh perf args s = some r) :
    Tracks s r.ops r.state := by
  induction args generalizing s r with
  | nil =>
    cases h
    exact .refl s
  | cons arg args ih =>
    unfold commandInclude at h
    split at h
    · cases h
    · rename_i r₁ hr₁
      split_ifs at h
      · exact Ran.tracks_after h (includeFile_tracks hp hr₁) fun _ h' => ih h'
      · cases h
        exact includeFile_tracks hp hr₁

theorem commandOptinclude_tracks (hp : Tracked perf) {args : List String}
    (h : commandOptinclude sh perf args s = some r) : Tracks s r.ops r.state := by
  induction args generalizing s r with
  | nil =>
    cases h
    exact .refl s
  | cons arg args ih =>
    unfold commandOptinclude at h
    split at h
    · cases h
    · rename_i r₁ hr₁
      exact Ran.tracks_after h (includeFile_tracks hp hr₁) fun _ h' => ih h'

theorem runAction_tracks (hp : Tracked perf) {a : Action σ} (h : runAction perf a s = some r) :
    Tracks s r.ops r.state := by
  induction a generalizing s r with
  | done ok env =>
    cases h
    exact .same rfl rfl rfl
  | perform argv env next ih =>
    unfold runAction at h
    split at h
    · cases h
    · rename_i r₁ hr₁
      have hsame : Tracks s [] {s with env := env} := .same rfl rfl rfl
      exact Ran.tracks_after h (hsame.append (hp _ _ _ hr₁)) fun _ h' => ih _ _ h'

theorem runCommand_tracks (hp : Tracked perf) {name : String} {argv : List String}
    (h : runCommand sh perf name argv s = some r) : Tracks s r.ops r.state := by
  unfold runCommand at h
  split_ifs at h
  · exact commandInclude_tracks hp h
  · exact commandOptinclude_tracks hp h
  · split at h
    · exact runAction_tracks hp h
    · cases h
      exact .refl s

theorem performShell_tracks (sh : Shell σ) (depth : ℕ) : Tracked (performShell sh depth) := by
  induction depth with
  | zero =>
    intro argv s r h
    cases h
  | succ depth ih =>
    intro argv s r h
    cases argv with
    | nil =>
      cases h
      exact .refl s
    | cons av0 args =>
      unfold performShell at h
      split at h
      · rename_i fn hfn
        obtain ⟨e,he⟩ | ⟨s',hs',ht⟩ := condCommand_spec hfn (av0 :: args) s
        · rw [he] at h
          cases h
          exact .refl s
        · rw [hs'] at h
          cases h
          exact ht
      · split_ifs at h
        · have hsame : Tracks s [] {s with ran := s.ran ++ [av0 :: args]} := .same rfl rfl rfl
          exact hsame.append (runCommand_tracks ih h)
        · cases h
          exact .refl s
        · cases h
          exact .refl s

/-- The states of the loader: the one that it starts in, and those behind commands and scripts. -/
inductive Loader (sh : Shell σ) : Interp σ → Prop
  | start (env : σ) (st : ℕ → Cond) : Loader sh ⟨st,0,true,env,[]⟩
  | perform {s argv r depth} (hs : Loader sh s) (h : performShell sh depth argv s = some r) : Loader sh r.state
  | script {s filename r depth} (hs : Loader sh s) (h : includeFile sh (performShell sh depth) filename s = some r) :
      Loader sh r.state

/-- `CurrentCondition` is always the one that the stack stands for. -/
theorem Loader.settled (h : Loader sh s) : s.Settled := by
  induction h with
  | start env st => rfl
  | perform hs h ih => exact (performShell_tracks sh _ _ _ _ h).settled ih
  | script hs h ih => exact (includeFile_tracks (performShell_tracks sh _) h).settled ih

/-- The conditionals are in `s'` as they were in `s`: where commands were executed, the next one is. -/
structure NoLeak (sh : Shell σ) (s s' : Interp σ) : Prop where
  condIndex : s'.condIndex = s.condIndex
  currentCondition : s'.currentCondition = s.currentCondition
  executed : s.currentCondition = true → ∀ depth av0 args, condCommand sh.world (commandName av0) = none →
    sh.hasCommand (commandName av0) = true → performShell sh (depth+1) (av0 :: args) s' =
      runCommand sh (performShell sh depth) (commandName av0) (av0 :: args) {s' with ran := s'.ran ++ [av0 :: args]}

theorem noLeak_iff {s' : Interp σ} : NoLeak sh s s' ↔
    s'.condIndex = s.condIndex ∧ s'.currentCondition = s.currentCondition := by
  constructor
  · exact fun h => ⟨h.condIndex,h.currentCondition⟩
  · intro h
    refine ⟨h.1,h.2,?_⟩
    intro hc depth av0 args hn hcmd
    simp only [performShell,hn,hcmd,h.2.trans hc,if_true]

/-- Levels are closed and opened as often, and the last command happens to show the condition `c` again. -/
def ShowsAgain (c : Bool) (ops : List CondOp) : Prop := opened (brackets ops) = closed (brackets ops) ∧ lastShown c ops = c

/-- The conditional commands of a run, from the condition `c`, close every level that they open, and touch no
other one, or leave it as it was by chance. -/
def ClosesOwn (c : Bool) (ops : List CondOp) : Prop :=
  match nest 0 (brackets ops) with
  | some d => d = 0
  | none => ShowsAgain c ops

theorem Tracks.noLeak_iff {ops : List CondOp} {s' : Interp σ} (h : Tracks s ops s') (hs : s.Settled) :
    NoLeak sh s s' ↔ ClosesOwn s.currentCondition ops := by
  have hl := h.level
  rw [Boot.noLeak_iff,ClosesOwn]
  split
  · rename_i d hd
    have hcount := nest_count hd
    constructor
    · intro hk
      omega
    · intro hd₀
      have hk : s'.condIndex = s.condIndex := by omega
      refine ⟨hk,?_⟩
      -- the level that was at the top still is, and it is as it was
      have hs' := h.settled hs
      unfold Interp.Settled Interp.top at hs hs'
      rw [hs',hs,hk]
      split_ifs with h₀
      · rw [h.below s.condIndex 0 d rfl hd _ (by omega)]
      · rfl
  · rw [h.shown,ShowsAgain]
    refine and_congr_left fun _ => ?_
    omega

/-- A script gives the conditionals back as they were exactly when the conditional commands that were performed
before it was left close what they opened; `optinclude` passes on what the script leaves. -/
theorem include_keeps_iff {depth : ℕ} {filename : String} (hs : s.Settled)
    (h : includeFile sh (performShell sh depth) filename s = some r) :
    (NoLeak sh s r.state ↔ ClosesOwn s.currentCondition r.ops) ∧
      commandOptinclude sh (performShell sh depth) [filename] s = some ⟨true,r.state,r.ops⟩ := by
  refine ⟨(includeFile_tracks (performShell_tracks sh depth) h).noLeak_iff hs,?_⟩
  simp [commandOptinclude,h,Ran.after]

end Runs

/-- The one file `f` is a script, and `load`, which never fails, is the one ordinary command. -/
def scriptShell (script : String) : Shell Unit :=
  ⟨fun _ _ => false,fun _ _ => none,fun _ f => if f = "f" then some ⟨textBytes script,false⟩ else none,
    fun n => if n = "load" then some fun _ _ => .done true () else none⟩

def startup : Interp Unit := ⟨fun _ => ⟨false,false⟩,0,true,(),[]⟩

/-- A script that fails, but behind its `endif`. -/
theorem include_keeps_behind : ∃ r, includeFile (scriptShell "ifexists b\nload\nendif\nbad\nload\n")
    (performShell (scriptShell "ifexists b\nload\nendif\nbad\nload\n") 1) "f" startup = some r ∧ r.ok = false ∧
    NoLeak (scriptShell "ifexists b\nload\nendif\nbad\nload\n") startup r.state := by
  have hs : startup.Settled := rfl
  obtain ⟨r,hr,hok,hc⟩ : ∃ r, includeFile (scriptShell "ifexists b\nload\nendif\nbad\nload\n")
      (performShell (scriptShell "ifexists b\nload\nendif\nbad\nload\n") 1) "f" startup = some r ∧ r.ok = false ∧
      ClosesOwn true r.ops := ⟨_,rfl,rfl,rfl⟩
  exact ⟨r,hr,hok,(include_keeps_iff hs hr).1.mpr hc⟩

/-- A script that fails between its `ifexists` and its `endif`: `optinclude` succeeds, and `load` is not executed
any more. -/
theorem include_leaks : ∃ r, includeFile (scriptShell "ifexists b\nbad\nendif\n")
    (performShell (scriptShell "ifexists b\nbad\nendif\n") 1) "f" startup = some r ∧ r.ok = false ∧
    r.state.condIndex = 1 ∧ r.state.currentCondition = false ∧
    (∃ r', performShell (scriptShell "ifexists b\nbad\nendif\n") 2 ["optinclude","f"] startup = some r' ∧ r'.ok = true ∧
      r'.state.ran = [["optinclude","f"]] ∧
      performShell (scriptShell "ifexists b\nbad\nendif\n") 2 ["load"] r'.state = some ⟨true,r'.state,[]⟩) ∧
    ¬NoLeak (scriptShell "ifexists b\nbad\nendif\n") startup r.state := by
  refine ⟨_,rfl,rfl,rfl,rfl,⟨_,rfl,rfl,rfl,rfl⟩,?_⟩
  intro h
  exact absurd h.condIndex Nat.one_ne_zero

end Blub.Boot
