import Blub.Lib.CStr
import Blub.Lib.DList
import Blub.Lib.Nodes

/-! The environment of libstand, from `environment.c`: a doubly linked list of variables, sorted by name, with
hooks that can take over an assignment or refuse a removal. -/
namespace Blub.Stand
open Blub.Nodes Blub.DList CStr

section Code

/-- `EV_DYNAMIC`, `EV_VOLATILE` and `EV_NOHOOK` -/
structure EnvFlags where
  dynamic : Bool
  volatile : Bool
  nohook : Bool

/-- What a variable is, apart from its links. Hooks are numbered. -/
structure EnvData where
  name : CStr
  value : Option CStr
  dynamic : Bool
  sethook : Option ℕ
  unsethook : Option ℕ

structure EnvVar extends EnvData where
  next : Option ℕ
  prev : Option ℕ

/-- What the hooks do when they are called for the `n`-th time: the assignments to their own variable that they
make themselves, past the hook, and the value they return. -/
structure EnvHooks where
  set : (n hook : ℕ) → CStr → EnvFlags → Option CStr → List (EnvFlags × CStr) × ℤ
  unset : (n hook : ℕ) → CStr → List (EnvFlags × CStr) × ℤ

structure Env where
  heap : Store EnvVar
  environ : Option ℕ
  hooked : ℕ

def emptyEnv : Env where
  heap := ⟨fun _ => ⟨⟨⟨[],List.not_mem_nil⟩,none,false,none,none⟩,none,none⟩,[],0⟩
  environ := none
  hooked := 0

def Env.modify (s : Env) (a : ℕ) (f : EnvVar → EnvVar) : Option Env := do
  let heap ← s.heap.modify a f
  return { s with heap := heap }

/-- The loop of `env_getenv`. A list has no more variables than are in use. -/
def Env.lookup (s : Env) (name : CStr) : ℕ → Option ℕ → Option (Option ℕ)
  | _, none => some none
  | 0, some _ => none
  | k+1, some a => do
    let ev ← s.heap.read a
    if strcmp ev.name name = 0 then return some a else s.lookup name k ev.next

def envGetenv (s : Env) (name : CStr) : Option (Option ℕ) := s.lookup name s.heap.live.length s.environ

/-- The loop that looks for the variable to insert before: the last one passed, and that one. -/
def Env.place (s : Env) (name : CStr) : ℕ → Option ℕ → Option ℕ → Option (Option ℕ × Option ℕ)
  | _, last, none => some (last,none)
  | 0, _, some _ => none
  | k+1, last, some curr => do
    let v ← s.heap.read curr
    if strcmp name v.name < 0 then return (last,some curr) else s.place name k (some curr) v.next

/-- The variable `ev` goes in before `curr`, or at the end behind `last`. -/
def envLink (s : Env) (ev : ℕ) (last : Option ℕ) : (curr : Option ℕ) → Option Env
  | some curr => do
    let prev := (← s.heap.read curr).prev
    let s ← match prev with
      | some p => s.modify p fun v => { v with next := some ev }
      | none => some { s with environ := some ev }
    let s ← s.modify ev fun v => { v with next := some curr, prev := prev }
    s.modify curr fun v => { v with prev := some ev }
  | none =>
    match last with
    | none => some { s with environ := some ev }
    | some last => do
      let s ← s.modify last fun v => { v with next := some ev }
      s.modify ev fun v => { v with prev := some last }

/-- A new variable without a value, sorted into the list. -/
def envInsert (m : Allocator) (s : Env) (name : CStr) (sethook unsethook : Option ℕ) : Option (ℕ × Env) := do
  let (ev,heap) := s.heap.alloc m ⟨⟨name,none,false,sethook,unsethook⟩,none,none⟩
  let s := { s with heap := heap }
  let (last,curr) ← s.place name s.heap.live.length none s.environ
  return (ev,← envLink s ev last curr)

/-- The value goes to a variable. `strdup` needs a string. -/
def envValue (s : Env) (ev : ℕ) (flags : EnvFlags) (value : Option CStr) : Option Env :=
  if flags.volatile then
    match value with
    | none => none
    | some x => s.modify ev fun v => { v with value := some x, dynamic := true }
  else s.modify ev fun v => { v with value := value, dynamic := flags.dynamic }

/-- `env_setenv` once it is clear that no hook does the work. -/
def envPut (m : Allocator) (s : Env) (name : CStr) (flags : EnvFlags) (value : Option CStr)
    (sethook unsethook : Option ℕ) : Option Env := do
  match ← envGetenv s name with
  | some ev => envValue s ev flags value
  | none =>
    let (ev,s) ← envInsert m s name sethook unsethook
    envValue s ev flags value

/-- The assignments that a hook makes. -/
def envNested (m : Allocator) (s : Env) (name : CStr) : List (EnvFlags × CStr) → Option Env
  | [] => some s
  | (flags,value) :: l => do
    envNested m (← envPut m s name { flags with nohook := true } (some value) none none) name l

def envSetenv (m : Allocator) (hooks : EnvHooks) (s : Env) (name : CStr) (flags : EnvFlags) (value : Option CStr)
    (sethook unsethook : Option ℕ) : Option (ℤ × Env) := do
  match ← envGetenv s name with
  | some a =>
    let ev ← s.heap.read a
    match ev.sethook, flags.nohook with
    | some hook, false =>
      let (l,r) := hooks.set s.hooked hook ev.name flags value
      return (r,← envNested m { s with hooked := s.hooked+1 } ev.name l)
    | _, _ => return (0,← envPut m s name flags value sethook unsethook)
  | none => return (0,← envPut m s name flags value sethook unsethook)

def emptyCStr : CStr := ⟨[],List.not_mem_nil⟩

/-- Set but no value gives an empty string. -/
def getenv (s : Env) (name : CStr) : Option (Option CStr) := do
  match ← envGetenv s name with
  | some a => return some ((← s.heap.read a).value.getD emptyCStr)
  | none => return none

def evVolatile : EnvFlags := ⟨false,true,false⟩

def setenv (m : Allocator) (hooks : EnvHooks) (s : Env) (name : CStr) (value : Option CStr) (overwrite : Bool) :
    Option (ℤ × Env) := do
  if overwrite ∨ (← envGetenv s name) = none then envSetenv m hooks s name evVolatile value none none
  else return (0,s)

/-- `'='` -/
def equals : UInt8 := 61

def envName (string : CStr) : CStr :=
  ⟨string.bytes.takeWhile (· ≠ equals),fun h => string.nonzero (List.takeWhile_subset _ h)⟩

/-- What stands behind the first `'='`. -/
def envRest (string : CStr) : CStr :=
  ⟨(string.bytes.dropWhile (· ≠ equals)).tail,
    fun h => string.nonzero ((List.dropWhile_suffix _).subset (List.mem_of_mem_tail h))⟩

def putenv (m : Allocator) (hooks : EnvHooks) (s : Env) (string : CStr) : Option (ℤ × Env) :=
  setenv m hooks s (envName string) (if equals ∈ string.bytes then some (envRest string) else none) true

def envDiscard (s : Env) (a : ℕ) : Option Env := do
  let ev ← s.heap.read a
  let s ← match ev.prev with
    | some p => s.modify p fun v => { v with next := ev.next }
    | none => some s
  let s ← match ev.next with
    | some n => s.modify n fun v => { v with prev := ev.prev }
    | none => some s
  let s := if s.environ = some a then { s with environ := ev.next } else s
  let heap ← s.heap.free a
  return { s with heap := heap }

def enoent : ℤ := 2

/-- A variable can be removed if its hook returns 0. -/
def envAsk (m : Allocator) (hooks : EnvHooks) (s : Env) (ev : EnvVar) : Option (ℤ × Env) :=
  match ev.unsethook with
  | none => some (0,s)
  | some hook => do
    let (l,r) := hooks.unset s.hooked hook ev.name
    return (r,← envNested m { s with hooked := s.hooked+1 } ev.name l)

def unsetenv (m : Allocator) (hooks : EnvHooks) (s : Env) (name : CStr) : Option (ℤ × Env) := do
  match ← envGetenv s name with
  | none => return (enoent,s)
  | some a =>
    let ev ← s.heap.read a
    let (err,s) ← envAsk m hooks s ev
    if err = 0 then return (0,← envDiscard s a) else return (err,s)

/-- A call with a value that is not null. -/
inductive EnvCall
  | envSetenv (name : CStr) (flags : EnvFlags) (value : CStr) (sethook unsethook : Option ℕ)
  | setenv (name value : CStr) (overwrite : Bool)
  | putenv (string : { string : CStr // equals ∈ string.bytes })
  | unsetenv (name : CStr)
  | getenv (name : CStr)

def EnvCall.exec (m : Allocator) (hooks : EnvHooks) (s : Env) : EnvCall → Option (ℤ × Env)
  | .envSetenv name flags value sethook unsethook =>
    Stand.envSetenv m hooks s name flags (some value) sethook unsethook
  | .setenv name value overwrite => Stand.setenv m hooks s name (some value) overwrite
  | .putenv string => Stand.putenv m hooks s string
  | .unsetenv name => Stand.unsetenv m hooks s name
  | .getenv name => (Stand.getenv s name).map fun _ => (0,s)

/-- The state after a run of calls. -/
def envRun (m : Allocator) (hooks : EnvHooks) (s : Env) : List EnvCall → Option Env
  | [] => some s
  | c :: cs => do envRun m hooks (← c.exec m hooks s).2 cs

attribute [local grind =] Env.lookup Env.place envLink envNested envSetenv envDiscard EnvCall.exec envRun

end Code

end Blub.Stand
