import Blub.Lib.Fuel
import Blub.Lib.Nesting
import Blub.Boot.Conditionals
import Blub.Boot.Parse

/-! The scripts of the loader: `include` and `perform`, from `do_dloader.c`, with the commands `include` and
`optinclude`, and `fgets`, from `gets.c`. A script is left where a command fails, and the conditional commands
that it has performed stay performed. -/
namespace Blub.Boot
open Blub.Nesting

/-- What an ordinary command does: it returns, or has a command performed, as `menu` and `loadall` do, and goes
on from the result. -/
inductive Action (σ : Type*)
  | done (ok : Bool) (env : σ)
  | perform (argv : List String) (env : σ) (next : Bool → σ → Action σ)

/-- The bytes that can be read from a file, and whether it is an error that ends them. -/
structure ScriptFile where
  bytes : List UInt8
  readErr : Bool

/-- The surroundings of the interpreter, with the ordinary commands other than `include` and `optinclude`. -/
structure Shell (σ : Type*) where
  relStat : σ → String → Bool
  getenv : σ → List UInt8 → Option (List UInt8)
  relOpen : σ → String → Option ScriptFile
  command : String → Option (List String → σ → Action σ)

def text (s : List UInt8) : String := String.ofList (s.map fun c => Char.ofNat c.toNat)

def textBytes (s : String) : List UInt8 := s.toList.map fun c => UInt8.ofNat c.toNat

/-- What the conditional commands see of the surroundings. -/
def Shell.world {σ : Type*} (sh : Shell σ) : World σ :=
  ⟨sh.relStat,fun e name => (sh.getenv e (textBytes name)).isSome,fun _ => none⟩

section Reading

def iseol (c : UInt8) : Bool := c = 10 || c = 13

/-- The loop of `fgets`, with `len` characters kept and room for `size` more. -/
def fgetsLoop (readErr : Bool) : ℕ → ℕ → List UInt8 → Option (List UInt8 × List UInt8)
  | 0, _, fd => some ([],fd)
  | size+1, len, fd =>
    match fd with
    | [] => if readErr then none else if len = 0 then none else some ([],[])
    | c :: fd => if iseol c then some ([c],fd) else (fgetsLoop readErr size (len+1) fd).map fun r => (c :: r.1,r.2)

def fgets (readErr : Bool) (size : ℕ) (fd : List UInt8) : Option (List UInt8 × List UInt8) :=
  fgetsLoop readErr (size-1) 0 fd

def skipeol (fd : List UInt8) : List UInt8 := (fd.dropWhile (! iseol ·)).drop 1

def inputSize : ℕ := 1024

/-- The `struct includeline` of a line. -/
structure ScriptLine where
  text : List UInt8
  ignoreErr : Bool
  deriving DecidableEq

/-- `SL_QUIET` is never read. -/
def scriptLine (input : List UInt8) : Option ScriptLine :=
  let input := cstr input
  if (input.dropWhile (· = chSpace)).take 2 = [chBackslash,chSpace] then none
  else if input.head? = some 64 then some ⟨input.drop 1,false⟩
  else if input.head? = some 45 then some ⟨input.drop 1,true⟩
  else some ⟨input,false⟩

/-- The first loop of `include`; a turn takes at least one byte of the file. -/
def readScript (readErr : Bool) : ℕ → List UInt8 → List ScriptLine
  | 0, _ => []
  | fuel+1, fd =>
    match fgets readErr inputSize fd with
    | none => []
    | some (input,fd) =>
      let fd := if (cstr input).length = inputSize-1 ∧ ¬iseol (input.getD (inputSize-2) 0) then skipeol fd else fd
      (scriptLine input).toList ++ readScript readErr fuel fd

attribute [local grind =] fgetsLoop readScript

theorem fgetsLoop_length {e : Bool} {size len : ℕ} {fd : List UInt8} {r : List UInt8 × List UInt8}
    (h : fgetsLoop e size len fd = some r) : r.1.length+r.2.length = fd.length := by
  induction size generalizing len fd r with
  | zero =>
    cases h
    exact Nat.zero_add _
  | succ size ih =>
    cases fd with
    | nil =>
      simp only [fgetsLoop] at h
      split_ifs at h
      cases h
      rfl
    | cons c fd =>
      simp only [fgetsLoop] at h
      split_ifs at h
      · cases h
        exact Nat.add_comm _ _
      · obtain ⟨r',hr',rfl⟩ := Option.map_eq_some_iff.mp h
        have hlen := ih hr'
        simp only [List.length_cons]
        omega

theorem fgetsLoop_ne {e : Bool} {size : ℕ} {fd : List UInt8} {r : List UInt8 × List UInt8}
    (h : fgetsLoop e (size+1) 0 fd = some r) : r.1 ≠ [] := by
  cases fd with
  | nil => cases e <;> cases h
  | cons c fd =>
    simp only [fgetsLoop] at h
    split_ifs at h
    · cases h
      exact List.cons_ne_nil _ _
    · obtain ⟨r',-,rfl⟩ := Option.map_eq_some_iff.mp h
      exact List.cons_ne_nil _ _

theorem fgets_lt {e : Bool} {fd : List UInt8} {r : List UInt8 × List UInt8} (h : fgets e inputSize fd = some r) :
    r.2.length < fd.length := by
  have hlen := fgetsLoop_length h
  have hpos := List.length_pos_of_ne_nil (fgetsLoop_ne h)
  omega

/-- The whole file is read. -/
theorem readScript_fuel {e : Bool} {fuel : ℕ} {fd : List UInt8} (h : fd.length < fuel) :
    readScript e (fuel+1) fd = readScript e fuel fd := by
  induction fuel generalizing fd with
  | zero => exact absurd h (Nat.not_lt_zero _)
  | succ fuel ih =>
    rw [readScript,readScript]
    cases hr : fgets e inputSize fd with
    | none => rfl
    | some r =>
      have hlt := fgets_lt hr
      have hskip : (skipeol r.2).length ≤ r.2.length := by
        rw [skipeol,List.length_drop]
        exact (Nat.sub_le _ _).trans (List.length_dropWhile_le _ _)
      refine congrArg (_ ++ ·) (ih ?_)
      split_ifs
      · omega
      · omega

def ScriptFile.script (f : ScriptFile) : List ScriptLine := readScript f.readErr (f.bytes.length+1) f.bytes

end Reading

/-- A conditional command that succeeded: what it does to the levels, and the `CurrentCondition` behind it. -/
structure CondOp where
  kind : Bracket
  shows : Bool
  deriving DecidableEq

/-- Where a run ends, and the conditional commands that it performed, in order. -/
structure Ran (σ : Type*) where
  ok : Bool
  state : Interp σ
  ops : List CondOp

def Ran.after {σ : Type*} (r : Ran σ) (ops : List CondOp) : Ran σ := {r with ops := ops ++ r.ops}

def condKind (name : String) : Bracket :=
  if name = "ifexists" ∨ name = "ifset" then .opens else if name = "endif" then .closes else .alters

section Code
variable {σ : Type*} (sh : Shell σ) (perf : List String → Interp σ → Option (Ran σ))

/-- The second loop of `include`. There is no result where `parse` writes outside of its buffers. -/
def includeLoop : List ScriptLine → Interp σ → Option (Ran σ)
  | [], s => some ⟨true,s,[]⟩
  | l :: ls, s =>
    match parse (sh.getenv s.env) l.text with
    | .fault => none
    | .fail => some ⟨false,s,[]⟩
    | .ok [] => includeLoop ls s
    | .ok (av0 :: args) =>
      match perf ((av0 :: args).map text) s with
      | none => none
      | some r => if r.ok ∨ l.ignoreErr then (includeLoop ls r.state).map (·.after r.ops) else some r

def includeFile (filename : String) (s : Interp σ) : Option (Ran σ) :=
  match sh.relOpen s.env filename with
  | none => some ⟨false,s,[]⟩
  | some f => includeLoop sh perf f.script s

/-- `command_include`. -/
def commandInclude : List String → Interp σ → Option (Ran σ)
  | [], s => some ⟨true,s,[]⟩
  | arg :: args, s =>
    match includeFile sh perf arg s with
    | none => none
    | some r => if r.ok then (commandInclude args r.state).map (·.after r.ops) else some r

/-- `command_optinclude`. -/
def commandOptinclude : List String → Interp σ → Option (Ran σ)
  | [], s => some ⟨true,s,[]⟩
  | arg :: args, s =>
    match includeFile sh perf arg s with
    | none => none
    | some r => (commandOptinclude args r.state).map (·.after r.ops)

def runAction : Action σ → Interp σ → Option (Ran σ)
  | .done ok env, s => some ⟨ok,{s with env := env},[]⟩
  | .perform argv env next, s =>
    match perf argv {s with env := env} with
    | none => none
    | some r => (runAction (next r.ok r.state.env) r.state).map (·.after r.ops)

/-- The commands that are not conditional ones. -/
def runCommand (name : String) (argv : List String) (s : Interp σ) : Option (Ran σ) :=
  if name = "include" then commandInclude sh perf argv.tail s
  else if name = "optinclude" then commandOptinclude sh perf argv.tail s
  else
    match sh.command name with
    | some fn => runAction perf (fn argv s.env) s
    | none => some ⟨false,s,[]⟩

def Shell.hasCommand (name : String) : Bool := name = "include" || name = "optinclude" || (sh.command name).isSome

attribute [local grind =] includeLoop commandInclude commandOptinclude runAction

end Code

/-- `perform`, with `depth` levels of commands inside of commands to go. -/
def performShell {σ : Type*} (sh : Shell σ) : ℕ → List String → Interp σ → Option (Ran σ)
  | 0, _, _ => none
  | _+1, [], s => some ⟨true,s,[]⟩
  | depth+1, av0 :: args, s =>
    match condCommand sh.world (commandName av0) with
    | some fn =>
      match fn (av0 :: args) s with
      | (.ok _,s') => some ⟨true,s',[⟨condKind (commandName av0),s'.currentCondition⟩]⟩
      | (.error _,s') => some ⟨false,s',[]⟩
    | none =>
      if sh.hasCommand (commandName av0) then
        if s.currentCondition then
          runCommand sh (performShell sh depth) (commandName av0) (av0 :: args) {s with ran := s.ran ++ [av0 :: args]}
        else some ⟨true,s,[]⟩
      else some ⟨false,s,[]⟩

attribute [local grind =] performShell

section Depth
variable {σ : Type*} {sh : Shell σ} {perf perf' : List String → Interp σ → Option (Ran σ)} {r : Ran σ} {s : Interp σ}

/-- What `perf` returns, `perf'` returns as well. -/
def Extends (perf perf' : List String → Interp σ → Option (Ran σ)) : Prop :=
  ∀ argv s r, perf argv s = some r → perf' argv s = some r

theorem includeLoop_extends (hp : Extends perf perf') {ls : List ScriptLine} (h : includeLoop sh perf ls s = some r) :
    includeLoop sh perf' ls s = some r := by
  induction ls generalizing s r with
  | nil => exact h
  | cons l ls ih =>
    unfold includeLoop at h ⊢
    split at h
    · cases h
    · exact h
    · exact ih h
    · split at h
      · cases h
      · rename_i r₁ hr₁
        rw [hp _ _ _ hr₁]
        dsimp only
        split_ifs at h ⊢
        · obtain ⟨r',hr',rfl⟩ := Option.map_eq_some_iff.mp h
          rw [ih hr',Option.map_some]
        · exact h

theorem includeFile_extends (hp : Extends perf perf') {filename : String} (h : includeFile sh perf filename s = some r) :
    includeFile sh perf' filename s = some r := by
  unfold includeFile at h ⊢
  split at h
  · exact h
  · exact includeLoop_extends hp h

theorem commandInclude_extends (hp : Extends perf perf') {args : List String}
    (h : commandInclude sh perf args s = some r) : commandInclude sh perf' args s = some r := by
  induction args generalizing s r with
  | nil => exact h
  | cons arg args ih =>
    unfold commandInclude at h ⊢
    split at h
    · cases h
    · rename_i r₁ hr₁
      rw [includeFile_extends hp hr₁]
      dsimp only
      split_ifs at h ⊢
      · obtain ⟨r',hr',rfl⟩ := Option.map_eq_some_iff.mp h
        rw [ih hr',Option.map_some]
      · exact h

theorem commandOptinclude_extends (hp : Extends perf perf') {args : List String}
    (h : commandOptinclude sh perf args s = some r) : commandOptinclude sh perf' args s = some r := by
  induction args generalizing s r with
  | nil => exact h
  | cons arg args ih =>
    unfold commandOptinclude at h ⊢
    split at h
    · cases h
    · rename_i r₁ hr₁
      obtain ⟨r',hr',rfl⟩ := Option.map_eq_some_iff.mp h
      rw [includeFile_extends hp hr₁]
      dsimp only
      rw [ih hr',Option.map_some]

theorem runAction_extends (hp : Extends perf perf') {a : Action σ} (h : runAction perf a s = some r) :
    runAction perf' a s = some r := by
  induction a generalizing s r with
  | done ok env => exact h
  | perform argv env next ih =>
    unfold runAction at h ⊢
    split at h
    · cases h
    · rename_i r₁ hr₁
      obtain ⟨r',hr',rfl⟩ := Option.map_eq_some_iff.mp h
      rw [hp _ _ _ hr₁]
      dsimp only
      rw [ih _ _ hr',Option.map_some]

theorem runCommand_extends (hp : Extends perf perf') {name : String} {argv : List String}
    (h : runCommand sh perf name argv s = some r) : runCommand sh perf' name argv s = some r := by
  unfold runCommand at h ⊢
  split_ifs at h ⊢
  · exact commandInclude_extends hp h
  · exact commandOptinclude_extends hp h
  · split at h
    · exact runAction_extends hp h
    · exact h

theorem performShell_extends (sh : Shell σ) (depth : ℕ) : Extends (performShell sh depth) (performShell sh (depth+1)) := by
  induction depth with
  | zero =>
    intro argv s r h
    cases h
  | succ depth ih =>
    intro argv s r h
    cases argv with
    | nil => exact h
    | cons av0 args =>
      unfold performShell at h ⊢
      split at h
      · exact h
      · split_ifs at h ⊢
        · exact runCommand_extends ih h
        · exact h
        · exact h

/-- A script that returns has one result. -/
theorem includeFile_unique {filename : String} {n m : ℕ} {r' : Ran σ}
    (h : includeFile sh (performShell sh n) filename s = some r)
    (h' : includeFile sh (performShell sh m) filename s = some r') : r = r' :=
  Fuel.unique (fun n _ => includeFile_extends (performShell_extends sh n)) h h'

end Depth

section Plain
variable {σ : Type*} {sh : Shell σ} {w : World σ}

/-- Surroundings of scripts whose commands have no other command performed. -/
structure Shell.Simple (sh : Shell σ) (w : World σ) : Prop where
  relStat : sh.relStat = w.relStat
  getenv : ∀ e name, (sh.getenv e (textBytes name)).isSome = w.getenv e name
  command : ∀ name, sh.command name = (w.command name).map fun fn argv e => .done (fn argv e).1 (fn argv e).2

/-- A line that is no inclusion of another script. -/
def OwnCommand (argv : List String) : Prop :=
  ∀ av0 args, argv = av0 :: args → commandName av0 ≠ "include" ∧ commandName av0 ≠ "optinclude"

theorem Shell.Simple.condCommand (h : sh.Simple w) (name : String) : condCommand sh.world name = Boot.condCommand w name := by
  have hstat : sh.world.relStat = w.relStat := h.relStat
  have hget : sh.world.getenv = w.getenv := funext fun e => funext fun n => h.getenv e n
  have hif : commandIfexists sh.world = commandIfexists w := by
    funext argv s
    rw [commandIfexists,commandIfexists,hstat]
  have hset : commandIfset sh.world = commandIfset w := by
    funext argv s
    rw [commandIfset,commandIfset,hget]
  have helse : commandElseifexists sh.world = commandElseifexists w := by
    funext argv s
    unfold commandElseifexists
    rw [hstat]
  rw [Boot.condCommand,Boot.condCommand,hif,hset,helse]

/-- There `perform` is that of the conditional commands alone. -/
theorem performShell_simple (h : sh.Simple w) (depth : ℕ) {argv : List String} (hown : OwnCommand argv) (s : Interp σ) :
    ∃ ops, performShell sh (depth+1) argv s = some ⟨(perform w argv s).1.isOk,(perform w argv s).2,ops⟩ := by
  cases argv with
  | nil => exact ⟨_,rfl⟩
  | cons av0 args =>
    obtain ⟨hinclude,hopt⟩ := hown av0 args rfl
    rw [performShell,perform,h.condCommand]
    cases hcond : condCommand w (commandName av0) with
    | some fn =>
      dsimp only
      obtain ⟨res,s'⟩ := fn (av0 :: args) s
      cases res <;> exact ⟨_,rfl⟩
    | none =>
      have hhas : sh.hasCommand (commandName av0) = (w.command (commandName av0)).isSome := by
        rw [Shell.hasCommand,h.command,Option.isSome_map]
        simp [hinclude,hopt]
      dsimp only
      rw [hhas]
      cases hcmd : w.command (commandName av0) with
      | none => exact ⟨_,rfl⟩
      | some fn =>
        dsimp only [Option.isSome_some]
        by_cases hc : s.currentCondition = true
        · rw [if_pos rfl,if_pos hc,if_pos hc,runCommand,if_neg hinclude,if_neg hopt,h.command,hcmd]
          dsimp only [Option.map_some,runAction]
          cases (fn (av0 :: args) s.env).1 <;> exact ⟨_,rfl⟩
        · rw [if_pos rfl,if_neg hc,if_neg hc]
          exact ⟨_,rfl⟩

/-- The lines of a script that are parsed alike in every environment. -/
def LineOf (sh : Shell σ) (l : ScriptLine) (f : IncludeLine) : Prop :=
  l.ignoreErr = f.ignoreErr ∧ OwnCommand f.argv ∧
    ∃ args, f.argv = args.map text ∧ ∀ e, parse (sh.getenv e) l.text = .ok args

/-- And the loop of `include` is that over the parsed lines. -/
theorem includeLoop_simple (h : sh.Simple w) (depth : ℕ) {ls : List ScriptLine} {fs : List IncludeLine}
    (hl : List.Forall₂ (LineOf sh) ls fs) (s : Interp σ) : ∃ ops, includeLoop sh (performShell sh (depth+1)) ls s =
      some ⟨(includeLines w fs s).1.isOk,(includeLines w fs s).2,ops⟩ := by
  induction hl generalizing s with
  | nil => exact ⟨_,rfl⟩
  | @cons l f ls fs hline _ ih =>
    obtain ⟨hignore,hown,args,hargv,hparse⟩ := hline
    obtain ⟨ops,hperf⟩ := performShell_simple h depth hown s
    rw [includeLoop,hparse,includeLines]
    cases args with
    | nil =>
      rw [hargv]
      exact ih s
    | cons av0 args =>
      rw [hargv] at hperf
      dsimp only
      rw [hperf,← hargv]
      dsimp only
      obtain ⟨ops',hrest⟩ := ih (perform w f.argv s).2
      generalize perform w f.argv s = r at hrest ⊢
      obtain ⟨res,s'⟩ := r
      cases res with
      | ok _ =>
        rw [if_pos (.inl rfl),hrest]
        exact ⟨_,rfl⟩
      | error e =>
        dsimp only
        by_cases hi : f.ignoreErr = true
        · rw [if_pos (.inr (hignore.trans hi)),if_pos hi,hrest]
          exact ⟨_,rfl⟩
        · rw [if_neg (by rw [hignore]; simp [Except.isOk,Except.toBool,hi]),if_neg hi]
          exact ⟨_,rfl⟩

end Plain

end Blub.Boot
