import Blub.Stand.Environment

/-! The environment of libstand is an ordered map: its list is sorted and well linked whatever the hooks do, and
a name has the value of the last assignment that was not intercepted, until it is removed. -/
namespace Blub.Stand
open Blub.Nodes Blub.DList CStr

section Map

/-- What a name is bound to. -/
structure Binding where
  value : CStr
  sethook : Option ℕ
  unsethook : Option ℕ

/-- What happens to the environment: assignments that no hook intercepts, and removals. -/
inductive EnvEvent
  | put (name value : CStr) (sethook unsethook : Option ℕ)
  | drop (name : CStr)

/-- An assignment keeps the hooks with which the variable was created. -/
def Binding.assign (b : Option Binding) (value : CStr) (sethook unsethook : Option ℕ) : Binding :=
  match b with
  | some b => { b with value := value }
  | none => ⟨value,sethook,unsethook⟩

def EnvEvent.apply (name : CStr) (b : Option Binding) : EnvEvent → Option Binding
  | .put n value sethook unsethook => if n = name then some (Binding.assign b value sethook unsethook) else b
  | .drop n => if n = name then none else b

def EnvEvent.name : EnvEvent → CStr
  | .put name _ _ _ => name
  | .drop name => name

/-- What a name is bound to after some events. -/
def binding (name : CStr) (log : List EnvEvent) : Option Binding := log.foldl (EnvEvent.apply name) none

/-- The assignments that a hook makes to its own variable. -/
def hookPuts (name : CStr) (l : List (EnvFlags × CStr)) : List EnvEvent :=
  l.map fun x => .put name x.2 none none

/-- What has happened so far: the events, and how often a hook was called. -/
structure EnvHistory where
  log : List EnvEvent
  hooked : ℕ

def EnvHistory.and (t : EnvHistory) (events : List EnvEvent) : EnvHistory := ⟨t.log ++ events,t.hooked⟩

def EnvHistory.hook (t : EnvHistory) : EnvHistory := ⟨t.log,t.hooked+1⟩

/-- A hook takes over the assignments to its variable, unless it is told not to. -/
def EnvHistory.envSetenv (hooks : EnvHooks) (t : EnvHistory) (name : CStr) (flags : EnvFlags) (value : CStr)
    (sethook unsethook : Option ℕ) : ℤ × EnvHistory :=
  match (binding name t.log).bind Binding.sethook, flags.nohook with
  | some hook, false =>
    let (l,r) := hooks.set t.hooked hook name flags (some value)
    (r,t.hook.and (hookPuts name l))
  | _, _ => (0,t.and [.put name value sethook unsethook])

/-- What is asked before a removal: the unset hook, if there is one. -/
def EnvHistory.asked (hooks : EnvHooks) (t : EnvHistory) (name : CStr) (b : Binding) : ℤ × EnvHistory :=
  match b.unsethook with
  | none => (0,t)
  | some hook =>
    let (l,r) := hooks.unset t.hooked hook name
    (r,t.hook.and (hookPuts name l))

def EnvHistory.unsetenv (hooks : EnvHooks) (t : EnvHistory) (name : CStr) : ℤ × EnvHistory :=
  match binding name t.log with
  | none => (enoent,t)
  | some b =>
    let (r,t) := t.asked hooks name b
    if r = 0 then (0,t.and [.drop name]) else (r,t)

/-- The name that a call is about. -/
def EnvCall.name : EnvCall → CStr
  | .envSetenv name _ _ _ _ => name
  | .setenv name _ _ => name
  | .putenv string => envName string
  | .unsetenv name => name
  | .getenv name => name

/-- What a call returns and what happens then. -/
def EnvHistory.call (hooks : EnvHooks) (t : EnvHistory) : EnvCall → ℤ × EnvHistory
  | .envSetenv name flags value sethook unsethook => t.envSetenv hooks name flags value sethook unsethook
  | .setenv name value overwrite =>
    if overwrite ∨ binding name t.log = none then t.envSetenv hooks name evVolatile value none none else (0,t)
  | .putenv string => t.envSetenv hooks (envName string) evVolatile (envRest string) none none
  | .unsetenv name => t.unsetenv hooks name
  | .getenv _ => (0,t)

/-- What has happened after a run of calls. -/
def envHistory (hooks : EnvHooks) (cs : List EnvCall) : EnvHistory :=
  cs.foldl (fun t c => (t.call hooks c).2) ⟨[],0⟩

attribute [local grind =] EnvEvent.name EnvCall.name EnvHistory.call

variable {name : CStr} {log events : List EnvEvent}

theorem binding_put (n value : CStr) (sethook unsethook : Option ℕ) :
    binding name (log ++ [.put n value sethook unsethook]) =
      if n = name then some (Binding.assign (binding name log) value sethook unsethook) else binding name log := by
  simp only [binding,List.foldl_append,List.foldl_cons,List.foldl_nil,EnvEvent.apply]

theorem binding_drop (n : CStr) :
    binding name (log ++ [.drop n]) = if n = name then none else binding name log := by
  simp only [binding,List.foldl_append,List.foldl_cons,List.foldl_nil,EnvEvent.apply]

/-- Events of other names do not matter. -/
theorem binding_append (h : ∀ e ∈ events, e.name ≠ name) : binding name (log ++ events) = binding name log := by
  induction events using List.reverseRecOn with
  | nil => rw [List.append_nil]
  | append_singleton events e ih =>
    have hi := ih fun d hd => h d (List.mem_append_left _ hd)
    have he := h e (by simp)
    rw [← List.append_assoc]
    cases e with
    | put n value sethook unsethook => rw [binding_put,if_neg (show n ≠ name from he),hi]
    | drop n => rw [binding_drop,if_neg (show n ≠ name from he),hi]

/-- The value of a name is that of its last assignment, unless a removal comes later. -/
theorem binding_value {value : CStr} : (binding name log).map Binding.value = some value ↔
    ∃ pre sethook unsethook post, log = pre ++ .put name value sethook unsethook :: post ∧
      ∀ e ∈ post, e.name ≠ name := by
  constructor
  · intro h
    induction log using List.reverseRecOn with
    | nil => cases h
    | append_singleton log e ih =>
      by_cases he : e.name = name
      · cases e with
        | put n v sethook unsethook =>
          rw [binding_put,if_pos (show n = name from he)] at h
          have hv : v = value := by
            cases hb : binding name log with
            | none => simpa [Binding.assign,hb] using h
            | some b => simpa [Binding.assign,hb] using h
          obtain rfl : n = name := he
          exact ⟨log,sethook,unsethook,[],by rw [hv],nofun⟩
        | drop n =>
          rw [binding_drop,if_pos (show n = name from he)] at h
          cases h
      · rw [binding_append (by simpa using he)] at h
        obtain ⟨pre,sethook,unsethook,post,rfl,hpost⟩ := ih h
        refine ⟨pre,sethook,unsethook,post ++ [e],by simp,fun d hd => ?_⟩
        obtain hd | hd := List.mem_append.mp hd
        · exact hpost d hd
        · rw [List.mem_singleton.mp hd]
          exact he
  · rintro ⟨pre,sethook,unsethook,post,rfl,hpost⟩
    rw [List.append_cons,binding_append hpost,binding_put,if_pos rfl]
    cases binding name pre <;> rfl

/-- More has happened, all of it to one name. -/
def EnvHistory.Extends (t t' : EnvHistory) (name : CStr) : Prop :=
  ∃ events, t'.log = t.log ++ events ∧ ∀ e ∈ events, e.name = name

variable {t : EnvHistory} {hooks : EnvHooks}

theorem extends_refl (t : EnvHistory) (name : CStr) : t.Extends t name := ⟨[],(List.append_nil _).symm,nofun⟩

theorem extends_hook (t : EnvHistory) (name : CStr) (l : List (EnvFlags × CStr)) :
    t.Extends (t.hook.and (hookPuts name l)) name := by
  refine ⟨hookPuts name l,rfl,fun e he => ?_⟩
  obtain ⟨x,-,rfl⟩ := List.mem_map.mp he
  rfl

theorem extends_envSetenv (name : CStr) (flags : EnvFlags) (value : CStr) (sethook unsethook : Option ℕ) :
    t.Extends (t.envSetenv hooks name flags value sethook unsethook).2 name := by
  have hput : t.Extends (t.and [.put name value sethook unsethook]) name :=
    ⟨_,rfl,by simp [EnvEvent.name]⟩
  unfold EnvHistory.envSetenv
  split
  · exact extends_hook t name _
  · exact hput

theorem extends_unsetenv (name : CStr) : t.Extends (t.unsetenv hooks name).2 name := by
  unfold EnvHistory.unsetenv
  cases binding name t.log with
  | none => exact extends_refl t name
  | some b =>
    have hasked : t.Extends (t.asked hooks name b).2 name := by
      unfold EnvHistory.asked
      cases b.unsethook with
      | none => exact extends_refl t name
      | some hook => exact extends_hook t name _
    obtain ⟨events,hlog,hname⟩ := hasked
    dsimp only
    split_ifs with hr
    · refine ⟨events ++ [.drop name],?_,?_⟩
      · rw [EnvHistory.and,hlog,List.append_assoc]
      · intro e he
        obtain he | he := List.mem_append.mp he
        · exact hname e he
        · rw [List.mem_singleton.mp he]
          rfl
    · exact ⟨events,hlog,hname⟩

theorem extends_call (c : EnvCall) : t.Extends (t.call hooks c).2 c.name := by
  cases c with
  | envSetenv name flags value sethook unsethook => exact extends_envSetenv name flags value sethook unsethook
  | setenv name value overwrite =>
    simp only [EnvHistory.call,EnvCall.name]
    split_ifs
    · exact extends_envSetenv name evVolatile value none none
    · exact extends_refl t name
  | putenv string => exact extends_envSetenv _ evVolatile _ none none
  | unsetenv name => exact extends_unsetenv name
  | getenv name => exact extends_refl t name

/-- A call does not change what other names are bound to. -/
theorem binding_call (c : EnvCall) (h : name ≠ c.name) :
    binding name (t.call hooks c).2.log = binding name t.log := by
  have hext : t.Extends (t.call hooks c).2 c.name := extends_call c
  obtain ⟨events,hlog,hname⟩ := hext
  rw [hlog,binding_append fun e he => by rw [hname e he]; exact h.symm]

/-- What makes a removal fail: there is nothing to remove, or the hook returned an error. -/
theorem unsetenv_fails : (t.unsetenv hooks name).1 ≠ 0 ↔ binding name t.log = none ∨
    ∃ b hook, binding name t.log = some b ∧ b.unsethook = some hook ∧ (hooks.unset t.hooked hook name).2 ≠ 0 := by
  unfold EnvHistory.unsetenv
  cases hb : binding name t.log with
  | none => simp [enoent]
  | some b =>
    unfold EnvHistory.asked
    cases hu : b.unsethook with
    | none => simp [hu]
    | some hook =>
      by_cases hr : (hooks.unset t.hooked hook name).2 = 0
      · simp [hu,hr]
      · simp [hu,hr]

theorem unsetenv_gone (h : (t.unsetenv hooks name).1 = 0) : binding name (t.unsetenv hooks name).2.log = none := by
  unfold EnvHistory.unsetenv at h ⊢
  cases hb : binding name t.log with
  | none =>
    rw [hb] at h
    cases h
  | some b =>
    rw [hb] at h
    dsimp only at h ⊢
    split_ifs at h ⊢ with hr
    · rw [EnvHistory.and,binding_drop,if_pos rfl]
    · exact absurd h hr

end Map

section Lists

/-- The memory holds the variables at `ids`, linked both ways from `environ` on and sorted by their names. -/
structure Env.Holds (s : Env) (ids : List ℕ) : Prop where
  head : s.environ = ids.head?
  linked : Linked (fun a => (s.heap.cell a).next) (fun a => (s.heap.cell a).prev) none ids none
  live : ∀ a ∈ ids, a ∈ s.heap.live
  sorted : ids.Pairwise fun a b => strcmp (s.heap.cell a).name (s.heap.cell b).name < 0

/-- Where the variable of a name is. -/
def Env.find (s : Env) (ids : List ℕ) (name : CStr) : Option ℕ := ids.find? fun a => (s.heap.cell a).name = name

variable {s s' : Env} {ids l₁ l₂ : List ℕ} {a : ℕ} {name other : CStr}

theorem Env.Holds.nodup (h : s.Holds ids) : ids.Nodup :=
  h.sorted.imp fun {a b} hlt => by
    rintro rfl
    exact strcmp_irrefl _ hlt

theorem Env.Holds.length_le (h : s.Holds ids) : ids.length ≤ s.heap.live.length :=
  (List.subperm_of_subset h.nodup h.live).length_le

theorem Env.find_mem (h : s.find ids name = some a) : a ∈ ids ∧ (s.heap.cell a).name = name :=
  ⟨List.mem_of_find?_eq_some h,by simpa using List.find?_some h⟩

theorem Env.find_none (h : s.find ids name = none) (ha : a ∈ ids) : (s.heap.cell a).name ≠ name := by
  simpa using List.find?_eq_none.mp h a ha

/-- Two variables have different names. -/
theorem Env.Holds.inj {b : ℕ} (h : s.Holds ids) (ha : a ∈ ids) (hb : b ∈ ids)
    (he : (s.heap.cell a).name = (s.heap.cell b).name) : a = b := by
  have hn : (ids.map fun a => (s.heap.cell a).name).Nodup := by
    rw [List.Nodup,List.pairwise_map]
    refine h.sorted.imp fun {a b} hlt heq => ?_
    rw [heq] at hlt
    exact strcmp_irrefl _ hlt
  exact List.inj_on_of_nodup_map hn ha hb he

theorem Env.Holds.find_of_mem (h : s.Holds ids) (ha : a ∈ ids) (hname : (s.heap.cell a).name = name) :
    s.find ids name = some a := by
  cases hf : s.find ids name with
  | none => exact absurd hname (Env.find_none hf ha)
  | some b =>
    obtain ⟨hb,hb'⟩ := Env.find_mem hf
    rw [h.inj ha hb (hname.trans hb'.symm)]

theorem lookup_linked {p : Option ℕ} (name : CStr)
    (hl : Linked (fun a => (s.heap.cell a).next) (fun a => (s.heap.cell a).prev) p ids none)
    (hlive : ∀ a ∈ ids, a ∈ s.heap.live) {k : ℕ} (hk : ids.length ≤ k) :
    s.lookup name k ids.head? = some (s.find ids name) := by
  induction ids generalizing p k with
  | nil => cases k <;> rfl
  | cons a ids ih =>
    obtain ⟨-,hn,ht⟩ := hl
    replace hn : (s.heap.cell a).next = ids.head? := hn.trans Option.or_none
    cases k with
    | zero => simp at hk
    | succ k =>
      have hrest := ih ht (fun b hb => hlive b (List.mem_cons_of_mem a hb)) (Nat.le_of_succ_le_succ hk)
      simp only [List.head?_cons,Env.lookup,Store.read_of_mem (hlive a List.mem_cons_self),Option.bind_eq_bind,
        Option.bind_some,strcmp_eq_zero]
      by_cases he : (s.heap.cell a).name = name
      · rw [if_pos he,Env.find,List.find?_cons_of_pos (by simpa using he)]
        rfl
      · rw [if_neg he,hn,hrest,Env.find,Env.find,List.find?_cons_of_neg (by simpa using he)]

theorem Env.Holds.getenv (h : s.Holds ids) (name : CStr) : envGetenv s name = some (s.find ids name) := by
  rw [envGetenv,h.head]
  exact lookup_linked name h.linked h.live h.length_le

/-- The loop stops at the first variable whose name comes later. -/
theorem place_linked {p : Option ℕ} (name : CStr) (pre : List ℕ)
    (hl : Linked (fun a => (s.heap.cell a).next) (fun a => (s.heap.cell a).prev) p ids none)
    (hlive : ∀ a ∈ ids, a ∈ s.heap.live) {k : ℕ} (hk : ids.length ≤ k) :
    ∃ l₁ l₂, ids = l₁ ++ l₂ ∧ s.place name k pre.getLast? ids.head? = some ((pre ++ l₁).getLast?,l₂.head?) ∧
      (∀ a ∈ l₁, ¬ strcmp name (s.heap.cell a).name < 0) ∧
      ∀ a ∈ l₂.head?, strcmp name (s.heap.cell a).name < 0 := by
  induction ids generalizing p k pre with
  | nil => exact ⟨[],[],rfl,by cases k <;> simp [Env.place],nofun,nofun⟩
  | cons a ids ih =>
    obtain ⟨-,hn,ht⟩ := hl
    replace hn : (s.heap.cell a).next = ids.head? := hn.trans Option.or_none
    cases k with
    | zero => simp at hk
    | succ k =>
      have hread := Store.read_of_mem (hlive a List.mem_cons_self)
      by_cases hlt : strcmp name (s.heap.cell a).name < 0
      · refine ⟨[],a :: ids,rfl,?_,nofun,?_⟩
        · simp [Env.place,hread,hlt]
        · intro b hb
          cases hb
          exact hlt
      · obtain ⟨l₁,l₂,rfl,hrun,h₁,h₂⟩ := ih (pre ++ [a]) ht (fun b hb => hlive b (List.mem_cons_of_mem a hb))
          (Nat.le_of_succ_le_succ hk)
        refine ⟨a :: l₁,l₂,rfl,?_,?_,h₂⟩
        · simp only [List.head?_cons,Env.place,hread,Option.bind_eq_bind,Option.bind_some,if_neg hlt,hn]
          simpa using hrun
        · intro b hb
          obtain rfl | hb := List.mem_cons.mp hb
          · exact hlt
          · exact h₁ b hb

/-- What an assignment to a variable that is there does not touch. -/
def EnvVar.frame (v : EnvVar) : CStr × Option ℕ × Option ℕ × Option ℕ × Option ℕ :=
  (v.name,v.sethook,v.unsethook,v.next,v.prev)

/-- The same list of the same variables, with other values perhaps. -/
structure Env.Same (s s' : Env) : Prop where
  environ : s'.environ = s.environ
  live : s'.heap.live = s.heap.live
  cell : ∀ a, (s'.heap.cell a).frame = (s.heap.cell a).frame

theorem Env.Same.names (h : s.Same s') (a : ℕ) : (s'.heap.cell a).name = (s.heap.cell a).name :=
  congrArg Prod.fst (h.cell a)

theorem Env.Same.links (h : s.Same s') (a : ℕ) :
    (s'.heap.cell a).next = (s.heap.cell a).next ∧ (s'.heap.cell a).prev = (s.heap.cell a).prev :=
  Prod.mk.inj (congrArg (fun x => x.2.2.2) (h.cell a))

theorem Env.Same.holds (h : s.Same s') (hh : s.Holds ids) : s'.Holds ids where
  head := h.environ.trans hh.head
  linked := hh.linked.congr fun a _ => h.links a
  live a ha := by
    rw [h.live]
    exact hh.live a ha
  sorted := hh.sorted.imp fun {a b} hlt => by
    rw [h.names a,h.names b]
    exact hlt

theorem Env.Same.find (h : s.Same s') (ids : List ℕ) (name : CStr) : s'.find ids name = s.find ids name := by
  unfold Env.find
  congr 1
  funext a
  rw [h.names a]

/-- Moreover, nothing has happened to variables other than `a`. -/
structure Env.Only (a : ℕ) (s s' : Env) : Prop extends s.Same s' where
  other : ∀ b, b ≠ a → s'.heap.cell b = s.heap.cell b

theorem Env.Only.refl (a : ℕ) (s : Env) : s.Only a s := ⟨⟨rfl,rfl,fun _ => rfl⟩,fun _ _ => rfl⟩

theorem Env.Only.trans {s'' : Env} (h₁ : s.Only a s') (h₂ : s'.Only a s'') : s.Only a s'' where
  environ := h₂.environ.trans h₁.environ
  live := h₂.live.trans h₁.live
  cell b := (h₂.cell b).trans (h₁.cell b)
  other b hb := (h₂.other b hb).trans (h₁.other b hb)

end Lists

section Calls
variable {s s' : Env} {ids l₁ l₂ : List ℕ} {a : ℕ} {name other : CStr} {t : EnvHistory}

/-- The variable `a` becomes `v`. -/
def Env.put (s : Env) (a : ℕ) (v : EnvVar) : Env :=
  { s with heap := { s.heap with cell := Function.update s.heap.cell a v } }

@[simp] theorem Env.put_environ (s : Env) (a : ℕ) (v : EnvVar) : (s.put a v).environ = s.environ := rfl

@[simp] theorem Env.put_hooked (s : Env) (a : ℕ) (v : EnvVar) : (s.put a v).hooked = s.hooked := rfl

@[simp] theorem Env.put_live (s : Env) (a : ℕ) (v : EnvVar) : (s.put a v).heap.live = s.heap.live := rfl

@[simp] theorem Env.put_cell (s : Env) (a : ℕ) (v : EnvVar) :
    (s.put a v).heap.cell = Function.update s.heap.cell a v := rfl

theorem Env.modify_of_mem (h : a ∈ s.heap.live) (f : EnvVar → EnvVar) :
    s.modify a f = some (s.put a (f (s.heap.cell a))) := by
  simp only [Env.modify,Store.modify_of_mem h,Option.bind_eq_bind,Option.bind_some]
  rfl

theorem Env.put_modify {b : ℕ} (h : a ∈ s.heap.live) (v : EnvVar) (f : EnvVar → EnvVar) :
    (s.put b v).modify a f = some ((s.put b v).put a (f (Function.update s.heap.cell b v a))) :=
  Env.modify_of_mem (s := s.put b v) h f

theorem Env.put_free {b : ℕ} (h : a ∈ s.heap.live) (v : EnvVar) : (s.put b v).heap.free a =
    some { (s.put b v).heap with live := s.heap.live.filter (· ≠ a) } :=
  Store.free_of_mem (s := (s.put b v).heap) h

/-- A variable goes in between `l₁` and `l₂`. -/
structure Env.Inserted (s s' : Env) (l₁ l₂ : List ℕ) (a : ℕ) (v : EnvData) : Prop where
  holds : s'.Holds (l₁ ++ a :: l₂)
  new : (s'.heap.cell a).toEnvData = v
  old : ∀ b ∈ l₁ ++ l₂, (s'.heap.cell b).toEnvData = (s.heap.cell b).toEnvData
  hooked : s'.hooked = s.hooked

/-- The links around a variable `a` that goes in between `l₁` and `l₂`. -/
def spliced (l₁ l₂ : List ℕ) (a b : ℕ) (v : EnvVar) : EnvVar :=
  { v with
    next := if b = a then l₂.head? else if l₁.getLast? = some b then some a else v.next
    prev := if b = a then l₁.getLast? else if l₂.head? = some b then some a else v.prev }

theorem Env.Holds.inserted {s₁ : Env} {v : EnvData} (h : s.Holds (l₁ ++ l₂)) (ha : a ∉ l₁ ++ l₂)
    (hnew : (s₁.heap.cell a).toEnvData = v) (hold : ∀ b ∈ l₁ ++ l₂, s₁.heap.cell b = s.heap.cell b)
    (h₁ : ∀ b ∈ l₁, strcmp (s.heap.cell b).name v.name < 0)
    (h₂ : ∀ b ∈ l₂, strcmp v.name (s.heap.cell b).name < 0)
    (henv : s'.environ = (l₁ ++ [a]).head?) (hlive : s'.heap.live = a :: s.heap.live)
    (hhooked : s'.hooked = s.hooked) (hcell : ∀ b, s'.heap.cell b = spliced l₁ l₂ a b (s₁.heap.cell b)) :
    s.Inserted s' l₁ l₂ a v := by
  have hdata : ∀ b, (s'.heap.cell b).toEnvData = (s₁.heap.cell b).toEnvData := by
    intro b
    rw [hcell b]
    rfl
  have hname : ∀ b ∈ l₁ ++ l₂, (s'.heap.cell b).name = (s.heap.cell b).name := by
    intro b hb
    rw [congrArg EnvData.name (hdata b),hold b hb]
  have hself : (s'.heap.cell a).name = v.name := congrArg EnvData.name ((hdata a).trans hnew)
  have hne : ∀ b ∈ l₁ ++ l₂, b ≠ a := by
    rintro b hb rfl
    exact ha hb
  obtain ⟨hd₁,hd₂,hd⟩ := List.nodup_append.mp h.nodup
  refine ⟨⟨?_,?_,?_,?_⟩,(hdata a).trans hnew,fun b hb => by rw [hdata b,hold b hb],hhooked⟩
  · rw [henv]
    cases l₁ <;> rfl
  · refine h.linked.splice h.nodup (List.cons_ne_nil a []) ?_ ?_ ⟨?_,?_,trivial⟩
    · intro b hb
      have hm : b ∈ l₁ ++ l₂ := List.mem_append_left l₂ hb
      have hl : l₂.head? ≠ some b := fun he => hd b hb b (List.mem_of_mem_head? he) rfl
      simp only [hcell b,spliced,if_neg (hne b hm),if_neg hl,hold b hm,List.head?_cons]
      exact ⟨trivial,trivial⟩
    · intro b hb
      have hm : b ∈ l₁ ++ l₂ := List.mem_append_right l₁ hb
      have hl : l₁.getLast? ≠ some b := fun he => hd b (List.mem_of_mem_getLast? he) b hb rfl
      simp only [hcell b,spliced,if_neg (hne b hm),if_neg hl,hold b hm,List.getLast?_singleton]
      exact ⟨trivial,trivial⟩
    · simp only [hcell a,spliced,if_true]
    · simp only [hcell a,spliced,if_true,List.head?_nil,Option.none_or]
  · intro b hb
    rw [hlive]
    by_cases he : b = a
    · exact he ▸ List.mem_cons_self
    · have hm : b ∈ l₁ ++ l₂ := by simpa [he] using hb
      exact List.mem_cons_of_mem a (h.live b hm)
  · have hs := List.pairwise_append.mp h.sorted
    have hsame : ∀ b ∈ l₁ ++ l₂, ∀ c ∈ l₁ ++ l₂, strcmp (s.heap.cell b).name (s.heap.cell c).name < 0 →
        strcmp (s'.heap.cell b).name (s'.heap.cell c).name < 0 := by
      intro b hb c hc hlt
      rw [hname b hb,hname c hc]
      exact hlt
    rw [List.pairwise_append,List.pairwise_cons]
    refine ⟨hs.1.imp_of_mem fun hb hc => hsame _ (by simp [hb]) _ (by simp [hc]),⟨fun c hc => ?_,
      hs.2.1.imp_of_mem fun hb hc => hsame _ (by simp [hb]) _ (by simp [hc])⟩,fun b hb c hc => ?_⟩
    · rw [hself,hname c (by simp [hc])]
      exact h₂ c hc
    · obtain rfl | hc := List.mem_cons.mp hc
      · rw [hself,hname b (by simp [hb])]
        exact h₁ b hb
      · exact hsame b (by simp [hb]) c (by simp [hc]) (hs.2.2 b hb c hc)

theorem envLink_cells
    (h : Linked (fun b => (s.heap.cell b).next) (fun b => (s.heap.cell b).prev) none (l₁ ++ l₂) none)
    (henv : s.environ = (l₁ ++ l₂).head?) (hlive : ∀ b ∈ l₁ ++ l₂, b ∈ s.heap.live) (ha : a ∈ s.heap.live)
    (hd : (l₁ ++ l₂).Nodup) (hfresh : a ∉ l₁ ++ l₂) (hnull : (s.heap.cell a).next = none ∧ (s.heap.cell a).prev = none) :
    ∃ s', envLink s a l₁.getLast? l₂.head? = some s' ∧ s'.environ = (l₁ ++ [a]).head? ∧
      s'.heap.live = s.heap.live ∧ s'.hooked = s.hooked ∧
      ∀ b, s'.heap.cell b = spliced l₁ l₂ a b (s.heap.cell b) := by
  have hne : ∀ b ∈ l₁ ++ l₂, b ≠ a := by
    rintro b hb rfl
    exact hfresh hb
  have hself : spliced [] [] a a (s.heap.cell a) = s.heap.cell a := by
    obtain ⟨hn,hp⟩ := hnull
    simp only [spliced,if_true,List.head?_nil,List.getLast?_nil]
    generalize s.heap.cell a = v at hn hp
    cases v
    cases hn
    cases hp
    rfl
  cases l₂ with
  | nil =>
    rw [List.append_nil] at henv hlive hne
    obtain rfl | ⟨l₁,p,rfl⟩ := l₁.eq_nil_or_concat
    · refine ⟨{ s with environ := some a },rfl,rfl,rfl,rfl,fun b => ?_⟩
      by_cases hb : b = a
      · subst hb
        exact hself.symm
      · simp [spliced,hb]
    · rw [List.concat_eq_append] at henv hlive hne ⊢
      have hp := hlive p (by simp)
      have hpa := hne p (by simp)
      refine ⟨(s.put p { s.heap.cell p with next := some a }).put a { s.heap.cell a with prev := some p },
        ?_,?_,rfl,rfl,fun b => ?_⟩
      · simp [envLink,Env.modify_of_mem,Env.put_modify,hp,ha,hpa.symm]
      · simp [henv]
      · by_cases hb : b = a
        · subst hb
          simp [spliced,hnull]
        · by_cases hbp : b = p
          · subst hbp
            simp [spliced,hb]
          · simp [spliced,hb,hbp,Ne.symm hbp]
  | cons c l₂ =>
    have hc := hlive c (by simp)
    have hca := hne c (by simp)
    have hprev : (s.heap.cell c).prev = l₁.getLast? := by
      have := ((linked_append _ _ _ _).mp h).2.1
      simpa using this
    obtain rfl | ⟨l₁,p,rfl⟩ := l₁.eq_nil_or_concat
    · refine ⟨({ s with environ := some a }.put a { s.heap.cell a with next := some c, prev := none }).put c
        { s.heap.cell c with prev := some a },?_,rfl,rfl,rfl,fun b => ?_⟩
      · simp [envLink,Store.read_of_mem hc,hprev,Env.modify_of_mem,Env.put_modify,ha,hc,hca]
      · by_cases hb : b = a
        · subst hb
          simp [spliced,hca.symm]
        · by_cases hbc : b = c
          · subst hbc
            simp [spliced,hb]
          · simp [spliced,hb,hbc,Ne.symm hbc]
    · rw [List.concat_eq_append] at *
      have hp := hlive p (by simp)
      have hpa := hne p (by simp)
      have hpc : p ≠ c := (List.nodup_append.mp hd).2.2 p (by simp) c (by simp) 
      refine ⟨((s.put p { s.heap.cell p with next := some a }).put a
        { s.heap.cell a with next := some c, prev := some p }).put c { s.heap.cell c with prev := some a },
        ?_,?_,rfl,rfl,fun b => ?_⟩
      · simp [envLink,Store.read_of_mem hc,hprev,Env.modify_of_mem,Env.put_modify,ha,hc,hca,hp,hpa.symm]
        refine (Env.put_modify (s := s.put p _) hc _ _).trans ?_
        simp [hca,hpc.symm]
      · simp [henv]
      · by_cases hb : b = a
        · subst hb
          simp [spliced,hca.symm]
        · by_cases hbc : b = c
          · subst hbc
            simp [spliced,hb,hpc]
          · by_cases hbp : b = p
            · subst hbp
              simp [spliced,hb,hbc,Ne.symm hbc]
            · simp [spliced,hb,hbc,hbp,Ne.symm hbc,Ne.symm hbp]

/-- A new variable goes behind the last one with a smaller name. -/
theorem envInsert_spec (m : Allocator) (sethook unsethook : Option ℕ) (h : s.Holds ids)
    (hf : s.find ids name = none) : ∃ a s' l₁ l₂, envInsert m s name sethook unsethook = some (a,s') ∧
      ids = l₁ ++ l₂ ∧ a ∉ ids ∧ s.Inserted s' l₁ l₂ a ⟨name,none,false,sethook,unsethook⟩ := by
  set a := m.pick s.heap.born s.heap.live with hadef
  set v : EnvVar := ⟨⟨name,none,false,sethook,unsethook⟩,none,none⟩ with hv
  set s₁ : Env := { s with heap := (s.heap.alloc m v).2 } with hs₁
  have hfresh : a ∉ ids := fun hm => m.fresh _ _ (h.live a hm)
  have hself : s₁.heap.cell a = v := Function.update_self _ _ _
  have hself' : (s₁.heap.cell a).next = none ∧ (s₁.heap.cell a).prev = none := by
    rw [hself]
    exact ⟨rfl,rfl⟩
  have hold : ∀ b ∈ ids, s₁.heap.cell b = s.heap.cell b := by
    intro b hb
    refine Function.update_of_ne ?_ _ _
    rintro rfl
    exact hfresh hb
  have hlive : ∀ b ∈ ids, b ∈ s₁.heap.live := fun b hb => List.mem_cons_of_mem a (h.live b hb)
  have ha : a ∈ s₁.heap.live := List.mem_cons_self
  have hsame : ∀ b ∈ ids, (s₁.heap.cell b).next = (s.heap.cell b).next ∧
      (s₁.heap.cell b).prev = (s.heap.cell b).prev := fun b hb => ⟨by rw [hold b hb],by rw [hold b hb]⟩
  have hlink := h.linked.congr hsame
  obtain ⟨l₁,l₂,rfl,hplace,hle,hlt⟩ := place_linked (s := s₁) name [] hlink hlive
    (h.length_le.trans (Nat.le_succ _))
  rw [List.nil_append] at hplace
  have hh : s₁.environ = (l₁ ++ l₂).head? := h.head
  have hbefore : ∀ b ∈ l₁, strcmp (s.heap.cell b).name name < 0 := by
    intro b hb
    have hm : b ∈ l₁ ++ l₂ := List.mem_append_left l₂ hb
    have hnot := hle b hb
    rw [hold b hm] at hnot
    exact strcmp_swap (Env.find_none hf hm).symm hnot
  have hbehind : ∀ b ∈ l₂, strcmp name (s.heap.cell b).name < 0 := by
    cases l₂ with
    | nil => nofun
    | cons c l₂ =>
      have hc : strcmp name (s.heap.cell c).name < 0 := by
        rw [← hold c (by simp)]
        exact hlt c rfl
      have hs := (List.pairwise_cons.mp (List.pairwise_append.mp h.sorted).2.1).1
      exact List.forall_mem_cons.mpr ⟨hc,fun b hb => strcmp_trans hc (hs b hb)⟩
  suffices hrun : ∃ s', envInsert m s name sethook unsethook = some (a,s') ∧ s'.environ = (l₁ ++ [a]).head? ∧
      s'.heap.live = a :: s.heap.live ∧ s'.hooked = s.hooked ∧
      ∀ b, s'.heap.cell b = spliced l₁ l₂ a b (s₁.heap.cell b) by
    obtain ⟨s',hrun,henv,hl,hhooked,hcell⟩ := hrun
    exact ⟨a,s',l₁,l₂,hrun,rfl,hfresh,h.inserted hfresh (by rw [hself]) hold hbefore hbehind henv hl hhooked hcell⟩
  obtain ⟨s',hrun,henv,hl,hhooked,hcell⟩ := envLink_cells hlink h.head hlive ha h.nodup hfresh hself'
  refine ⟨s',?_,henv,hl,hhooked,hcell⟩
  have halloc : s.heap.alloc m v = (a,s₁.heap) := rfl
  simp only [envInsert,← hv,halloc,Option.bind_eq_bind]
  have hfound : s₁.place name s₁.heap.live.length none s₁.environ = some (l₁.getLast?,l₂.head?) := by
    rw [hh]
    exact hplace
  show (s₁.place name s₁.heap.live.length none s₁.environ).bind _ = _
  rw [hfound,Option.bind_some]
  show (envLink s₁ a l₁.getLast? l₂.head?).bind _ = _
  rw [hrun]
  rfl

theorem Env.put_only (a : ℕ) (v : EnvVar) (hv : v.frame = (s.heap.cell a).frame) : s.Only a (s.put a v) where
  environ := rfl
  live := rfl
  cell b := by
    by_cases hb : b = a
    · subst hb
      simpa using hv
    · simp [hb]
  other b hb := by simp [hb]

/-- The new value is there, and nothing else has changed. -/
theorem envValue_spec (ha : a ∈ s.heap.live) (flags : EnvFlags) (x : CStr) : ∃ s', envValue s a flags (some x) = some s' ∧
    s.Only a s' ∧ s'.hooked = s.hooked ∧ (s'.heap.cell a).value = some x := by
  unfold envValue
  by_cases hv : flags.volatile
  · rw [if_pos hv]
    exact ⟨_,Env.modify_of_mem ha _,Env.put_only a _ rfl,rfl,by simp⟩
  · rw [if_neg hv]
    exact ⟨_,Env.modify_of_mem ha _,Env.put_only a _ rfl,rfl,by simp⟩

/-- The links around a variable that goes away from between `l₁` and `l₂`. -/
def cut (l₁ l₂ : List ℕ) (b : ℕ) (v : EnvVar) : EnvVar :=
  { v with
    next := if l₁.getLast? = some b then l₂.head? else v.next
    prev := if l₂.head? = some b then l₁.getLast? else v.prev }

theorem envDiscard_cells (h : s.Holds (l₁ ++ a :: l₂)) : ∃ s', envDiscard s a = some s' ∧
    s'.environ = (l₁ ++ l₂).head? ∧ s'.heap.live = s.heap.live.filter (· ≠ a) ∧ s'.hooked = s.hooked ∧
      ∀ b, s'.heap.cell b = cut l₁ l₂ b (s.heap.cell b) := by
  have ha := h.live a (by simp)
  obtain ⟨-,hprev,hnext,-⟩ := (linked_append _ _ _ _).mp h.linked
  rw [Option.or_none] at hprev hnext
  have hd := h.nodup
  have hhead := h.head
  have hlive := h.live
  unfold envDiscard
  rw [Store.read_of_mem ha]
  simp only [Option.bind_eq_bind,Option.bind_some,hprev,hnext]
  obtain rfl | ⟨l₁,p,rfl⟩ := l₁.eq_nil_or_concat
  · cases l₂ with
    | nil =>
      refine ⟨{ s with environ := none, heap := { s.heap with live := s.heap.live.filter (· ≠ a) } },?_,rfl,rfl,rfl,
        fun b => by simp [cut]⟩
      simp [hhead,Store.free_of_mem ha]
    | cons c l₂ =>
      have hc := hlive c (by simp)
      refine ⟨{ s.put c { s.heap.cell c with prev := none } with
        environ := some c
        heap := { (s.put c { s.heap.cell c with prev := none }).heap with live := s.heap.live.filter (· ≠ a) } },
        ?_,rfl,rfl,rfl,fun b => ?_⟩
      · simp [hhead,Env.modify_of_mem hc,Env.put_free ha]
      · by_cases hb : b = c
        · subst hb
          simp [cut]
        · simp [cut,hb,Ne.symm hb]
  · rw [List.concat_eq_append] at *
    have hp := hlive p (by simp)
    have hpa : p ≠ a := by
      have := (List.nodup_append.mp hd).2.2 p (by simp) a (by simp)
      exact this
    have hhp : (l₁ ++ [p] ++ a :: l₂).head? ≠ some a := by
      intro he
      cases l₁ with
      | nil => exact hpa (by simpa using he)
      | cons q l₁ =>
        have hqa : q = a := by simpa using he
        have := (List.nodup_append.mp hd).2.2 q (by simp) a (by simp)
        exact this hqa
    cases l₂ with
    | nil =>
      refine ⟨{ s.put p { s.heap.cell p with next := none } with
        heap := { (s.put p { s.heap.cell p with next := none }).heap with live := s.heap.live.filter (· ≠ a) } },
        ?_,?_,rfl,rfl,fun b => ?_⟩
      · rw [← hhead] at hhp
        simp [hhp,Env.modify_of_mem hp,Env.put_free ha]
      · show s.environ = _
        rw [hhead]
        simp
      · by_cases hb : b = p
        · subst hb
          simp [cut]
        · simp [cut,hb,Ne.symm hb]
    | cons c l₂ =>
      have hc := hlive c (by simp)
      have hpc : p ≠ c := (List.nodup_append.mp hd).2.2 p (by simp) c (by simp)
      refine ⟨{ (s.put p { s.heap.cell p with next := some c }).put c { s.heap.cell c with prev := some p } with
        heap := { ((s.put p { s.heap.cell p with next := some c }).put c { s.heap.cell c with prev := some p }).heap with
          live := s.heap.live.filter (· ≠ a) } },?_,?_,rfl,rfl,fun b => ?_⟩
      · rw [← hhead] at hhp
        simp only [Env.modify_of_mem hp,Env.put_modify hc,List.getLast?_concat,List.head?_cons,Option.bind_some,
          Env.put_environ,hhp,if_false,Function.update_of_ne hpc.symm]
        rw [Env.put_free (s := s.put p _) ha]
        rfl
      · show s.environ = _
        rw [hhead]
        simp
      · by_cases hb : b = p
        · subst hb
          simp [cut,hpc,hpc.symm]
        · by_cases hbc : b = c
          · subst hbc
            simp [cut,Ne.symm hb]
          · simp [cut,hb,hbc,Ne.symm hb,Ne.symm hbc]

/-- The variable goes, and the others keep their order and contents. -/
theorem envDiscard_spec (h : s.Holds (l₁ ++ a :: l₂)) : ∃ s', envDiscard s a = some s' ∧ s'.Holds (l₁ ++ l₂) ∧
    s'.hooked = s.hooked ∧ ∀ b, (s'.heap.cell b).toEnvData = (s.heap.cell b).toEnvData := by
  obtain ⟨s',hrun,henv,hlive,hhooked,hcell⟩ := envDiscard_cells h
  have hdata : ∀ b, (s'.heap.cell b).toEnvData = (s.heap.cell b).toEnvData := by
    intro b
    rw [hcell b]
    rfl
  have hname : ∀ b, (s'.heap.cell b).name = (s.heap.cell b).name := fun b => congrArg EnvData.name (hdata b)
  have hsub : (l₁ ++ l₂).Sublist (l₁ ++ a :: l₂) := (List.Sublist.refl l₁).append (List.sublist_cons_self a l₂)
  have hd : (l₁ ++ l₂).Nodup := h.nodup.sublist hsub
  have hdis := (List.nodup_append.mp hd).2.2
  have hna : a ∉ l₁ ++ l₂ := (List.nodup_cons.mp (List.nodup_middle.mp h.nodup)).1
  refine ⟨s',hrun,⟨henv,?_,?_,?_⟩,hhooked,hdata⟩
  · refine h.linked.remove hd (fun b hb => ?_) fun b hb => ?_
    · have hne : l₂.head? ≠ some b := fun he => hdis b hb b (List.mem_of_mem_head? he) rfl
      simp only [hcell b,cut,if_neg hne]
      exact ⟨trivial,trivial⟩
    · have hne : l₁.getLast? ≠ some b := fun he => hdis b (List.mem_of_mem_getLast? he) b hb rfl
      simp only [hcell b,cut,if_neg hne]
      exact ⟨trivial,trivial⟩
  · intro b hb
    have hba : b ≠ a := by
      rintro rfl
      exact hna hb
    rw [hlive,List.mem_filter]
    exact ⟨h.live b (hsub.subset hb),by simpa using hba⟩
  · refine (h.sorted.sublist hsub).imp fun {b c} hlt => ?_
    rw [hname b,hname c]
    exact hlt

end Calls

section Tells
variable {s s' : Env} {ids : List ℕ} {a : ℕ} {name other : CStr} {t : EnvHistory}

def EnvData.kept (v : EnvData) : Option CStr × Option ℕ × Option ℕ := (v.value,v.sethook,v.unsethook)

def Binding.stored (b : Binding) : Option CStr × Option ℕ × Option ℕ := (some b.value,b.sethook,b.unsethook)

/-- What the list has for a name. -/
def Env.bound (s : Env) (ids : List ℕ) (name : CStr) : Option (Option CStr × Option ℕ × Option ℕ) :=
  (s.find ids name).map fun a => (s.heap.cell a).kept

/-- The variables are what has happened so far. -/
structure Env.Tells (s : Env) (ids : List ℕ) (t : EnvHistory) : Prop extends s.Holds ids where
  hooked : s.hooked = t.hooked
  bound : ∀ name, s.bound ids name = (binding name t.log).map Binding.stored

theorem Env.Tells.of_find (h : s.Tells ids t) (hf : s.find ids name = some a) :
    ∃ b, binding name t.log = some b ∧ (s.heap.cell a).kept = b.stored := by
  have hb := h.bound name
  rw [Env.bound,hf,Option.map_some] at hb
  obtain ⟨b,hbind,hs⟩ := Option.map_eq_some_iff.mp hb.symm
  exact ⟨b,hbind,hs.symm⟩

theorem Env.Tells.find_none_iff (h : s.Tells ids t) : s.find ids name = none ↔ binding name t.log = none := by
  rw [← Option.map_eq_none_iff (f := Binding.stored),← h.bound name,Env.bound,Option.map_eq_none_iff]

/-- A variable that is there is assigned to. -/
theorem Env.Tells.assign (h : s.Tells ids t) (hf : s.find ids name = some a) (flags : EnvFlags) (x : CStr)
    (sethook unsethook : Option ℕ) : ∃ s', envValue s a flags (some x) = some s' ∧ s.Only a s' ∧
      s'.Tells ids (t.and [.put name x sethook unsethook]) := by
  obtain ⟨ha,hname⟩ := Env.find_mem hf
  obtain ⟨s',hrun,honly,hhooked,hvalue⟩ := envValue_spec (h.live a ha) flags x
  refine ⟨s',hrun,honly,honly.holds h.toHolds,hhooked.trans h.hooked,fun n => ?_⟩
  obtain ⟨b,hb,hs⟩ := h.of_find hf
  rw [EnvHistory.and,binding_put,Env.bound,honly.find]
  by_cases hn : name = n
  · subst hn
    have hframe := honly.cell a
    simp only [EnvVar.frame,Prod.mk.injEq] at hframe
    simp only [EnvData.kept,Binding.stored,Prod.mk.injEq] at hs
    rw [hf,if_pos rfl,hb]
    simp only [Option.map_some,EnvData.kept,Binding.stored,Binding.assign,hvalue,hframe.2.1,hframe.2.2.1,hs.2.1,hs.2.2]
  · rw [if_neg hn,← h.bound n,Env.bound]
    refine Option.map_congr fun b hb => ?_
    have hba : b ≠ a := by
      rintro rfl
      exact hn (hname.symm.trans (Env.find_mem hb).2)
    rw [honly.other b hba]

/-- In the longer list a name is found where it was, or it is the new one. -/
theorem Env.Inserted.find {l₁ l₂ : List ℕ} {v : EnvData} (hi : s.Inserted s' l₁ l₂ a v)
    (hf : s.find (l₁ ++ l₂) v.name = none) (n : CStr) :
    s'.find (l₁ ++ a :: l₂) n = if v.name = n then some a else s.find (l₁ ++ l₂) n := by
  have hname : ∀ b ∈ l₁ ++ l₂, (s'.heap.cell b).name = (s.heap.cell b).name :=
    fun b hb => congrArg EnvData.name (hi.old b hb)
  have hself : (s'.heap.cell a).name = v.name := congrArg EnvData.name hi.new
  have hcong : ∀ l, (∀ b ∈ l, b ∈ l₁ ++ l₂) → s'.find l n = s.find l n := by
    intro l hl
    refine List.find?_congr fun b hb => ?_
    rw [hname b (hl b hb)]
  have h₁ := hcong l₁ fun b hb => List.mem_append_left l₂ hb
  have h₂ := hcong l₂ fun b hb => List.mem_append_right l₁ hb
  simp only [Env.find,List.find?_append,Option.or_eq_none_iff] at hf h₁ h₂ ⊢
  by_cases hn : v.name = n
  · subst hn
    rw [h₁,hf.1,List.find?_cons_of_pos (by simpa using hself),if_pos rfl]
    rfl
  · rw [h₁,List.find?_cons_of_neg (by simpa [hself] using hn),h₂,if_neg hn]

/-- A variable that is not there is created. -/
theorem Env.Tells.create (m : Allocator) (h : s.Tells ids t) (hf : s.find ids name = none) (flags : EnvFlags)
    (x : CStr) (sethook unsethook : Option ℕ) : ∃ s' ids', s'.Tells ids' (t.and [.put name x sethook unsethook]) ∧
      (do let (ev,s) ← envInsert m s name sethook unsethook
          envValue s ev flags (some x)) = some s' := by
  obtain ⟨a,s₁,l₁,l₂,hrun,rfl,hfresh,hi⟩ := envInsert_spec m sethook unsethook h.toHolds hf
  have hlive := hi.holds.live a (by simp)
  obtain ⟨s₂,hrun',honly,hhooked,hvalue⟩ := envValue_spec hlive flags x
  refine ⟨s₂,l₁ ++ a :: l₂,⟨honly.holds hi.holds,?_,fun n => ?_⟩,?_⟩
  · rw [hhooked,hi.hooked,h.hooked]
    rfl
  · rw [EnvHistory.and,binding_put,Env.bound,honly.find,hi.find hf]
    by_cases hn : name = n
    · subst hn
      have hframe := honly.cell a
      simp only [EnvVar.frame,hi.new,Prod.mk.injEq] at hframe
      rw [if_pos rfl,if_pos rfl,h.find_none_iff.mp hf]
      simp only [Option.map_some,EnvData.kept,Binding.stored,Binding.assign,hvalue,hframe.2.1,hframe.2.2.1]
    · rw [if_neg hn,if_neg hn,← h.bound n,Env.bound]
      refine Option.map_congr fun b hb => ?_
      have hm := (Env.find_mem hb).1
      have hba : b ≠ a := by
        rintro rfl
        exact hfresh hm
      rw [honly.other b hba,hi.old b hm]
  · rw [hrun]
    exact hrun'

theorem Env.Tells.put (m : Allocator) (h : s.Tells ids t) (name : CStr) (flags : EnvFlags) (x : CStr)
    (sethook unsethook : Option ℕ) : ∃ s' ids', envPut m s name flags (some x) sethook unsethook = some s' ∧
      s'.Tells ids' (t.and [.put name x sethook unsethook]) ∧
      ∀ a, s.find ids name = some a → ids' = ids ∧ s.Only a s' := by
  unfold envPut
  rw [h.toHolds.getenv name,Option.bind_eq_bind,Option.bind_some]
  cases hf : s.find ids name with
  | none =>
    obtain ⟨s',ids',ht,hrun⟩ := h.create m hf flags x sethook unsethook
    exact ⟨s',ids',hrun,ht,nofun⟩
  | some a =>
    obtain ⟨s',hrun,honly,ht⟩ := h.assign hf flags x sethook unsethook
    refine ⟨s',ids,hrun,ht,?_⟩
    rintro b ⟨⟩
    exact ⟨rfl,honly⟩

/-- Whatever a hook does to its own variable, it stays the same variable. -/
theorem Env.Tells.nested (m : Allocator) (l : List (EnvFlags × CStr)) (h : s.Tells ids t)
    (hf : s.find ids name = some a) : ∃ s', envNested m s name l = some s' ∧ s'.Tells ids (t.and (hookPuts name l)) ∧
      s.Only a s' ∧ (l = [] → s' = s) := by
  induction l generalizing s t with
  | nil =>
    refine ⟨s,rfl,?_,Env.Only.refl a s,fun _ => rfl⟩
    rw [hookPuts,List.map_nil,EnvHistory.and,List.append_nil]
    exact h
  | cons e l ih =>
    obtain ⟨flags,x⟩ := e
    obtain ⟨s₁,ids',hrun,ht,hsame⟩ := h.put m name { flags with nohook := true } x none none
    obtain ⟨rfl,honly⟩ := hsame a hf
    obtain ⟨s₂,hrun',ht',honly',-⟩ := ih ht ((honly.find ids' name).trans hf)
    refine ⟨s₂,?_,?_,honly.trans honly',nofun⟩
    · simp only [envNested,hrun,Option.bind_eq_bind,Option.bind_some]
      exact hrun'
    · simpa [EnvHistory.and,hookPuts] using ht'

theorem Env.Tells.hook (h : s.Tells ids t) : Env.Tells { s with hooked := s.hooked+1 } ids t.hook :=
  ⟨⟨h.head,h.linked,h.live,h.sorted⟩,congrArg (·+1) h.hooked,h.bound⟩

theorem Env.Tells.discard (h : s.Tells ids t) (hf : s.find ids name = some a) :
    ∃ s' ids', envDiscard s a = some s' ∧ s'.Tells ids' (t.and [.drop name]) := by
  obtain ⟨ha,hname⟩ := Env.find_mem hf
  obtain ⟨l₁,l₂,rfl⟩ := List.append_of_mem ha
  obtain ⟨s',hrun,hh,hhooked,hdata⟩ := envDiscard_spec h.toHolds
  have hn : ∀ b, (s'.heap.cell b).name = (s.heap.cell b).name := fun b => congrArg EnvData.name (hdata b)
  refine ⟨s',l₁ ++ l₂,hrun,hh,hhooked.trans h.hooked,fun n => ?_⟩
  have hfind : ∀ l n, s'.find l n = s.find l n := by
    intro l n
    unfold Env.find
    congr 1
    funext b
    rw [hn b]
  rw [EnvHistory.and,binding_drop,Env.bound,hfind]
  by_cases he : name = n
  · subst he
    rw [if_pos rfl,Option.map_none,Option.map_eq_none_iff,Env.find,List.find?_eq_none]
    -- names are different, so no other variable has this one
    intro b hb
    rw [← hname]
    simp only [decide_eq_true_eq]
    intro hba
    have hs := List.pairwise_append.mp h.sorted
    obtain hb | hb := List.mem_append.mp hb
    · have hlt := hs.2.2 b hb a List.mem_cons_self
      rw [hba] at hlt
      exact strcmp_irrefl _ hlt
    · have hlt := (List.pairwise_cons.mp hs.2.1).1 b hb
      rw [hba] at hlt
      exact strcmp_irrefl _ hlt
  · rw [if_neg he,← h.bound n,Env.bound]
    have hsame : s.find (l₁ ++ l₂) n = s.find (l₁ ++ a :: l₂) n := by
      have hne : (s.heap.cell a).name ≠ n := hname ▸ he
      simp only [Env.find,List.find?_append]
      rw [List.find?_cons_of_neg (by simpa using hne)]
    rw [hsame]
    refine Option.map_congr fun b _ => ?_
    rw [hdata b]

theorem Env.Tells.setenv (m : Allocator) (hooks : EnvHooks) (h : s.Tells ids t) (name : CStr) (flags : EnvFlags)
    (x : CStr) (sethook unsethook : Option ℕ) : ∃ s' ids', envSetenv m hooks s name flags (some x) sethook unsethook =
      some ((t.envSetenv hooks name flags x sethook unsethook).1,s') ∧
        s'.Tells ids' (t.envSetenv hooks name flags x sethook unsethook).2 := by
  obtain ⟨s₁,ids₁,hput,ht₁,-⟩ := h.put m name flags x sethook unsethook
  unfold envSetenv EnvHistory.envSetenv
  rw [h.toHolds.getenv name]
  cases hf : s.find ids name with
  | none =>
    rw [h.find_none_iff.mp hf]
    simp only [Option.bind_eq_bind,Option.bind_some,Option.bind_none,hput]
    exact ⟨s₁,ids₁,rfl,ht₁⟩
  | some a =>
    obtain ⟨ha,hname⟩ := Env.find_mem hf
    obtain ⟨b,hb,hs⟩ := h.of_find hf
    have hsethook : (s.heap.cell a).sethook = b.sethook := congrArg (fun v => v.2.1) hs
    simp only [Option.bind_eq_bind,Option.bind_some,Store.read_of_mem (h.live a ha),hsethook,hb,hname,hput]
    cases b.sethook with
    | none => exact ⟨s₁,ids₁,rfl,ht₁⟩
    | some hook =>
      cases flags.nohook with
      | true => exact ⟨s₁,ids₁,rfl,ht₁⟩
      | false =>
        obtain ⟨s₂,hrun,ht₂,-⟩ := h.hook.nested m (hooks.set t.hooked hook name flags (some x)).1 hf
        simp only [h.hooked] at hrun ⊢
        rw [hrun]
        exact ⟨s₂,ids,rfl,ht₂⟩

/-- A removal that fails has changed nothing but for what the hook did. -/
structure Env.Kept (hooks : EnvHooks) (name : CStr) (s s' : Env) : Prop extends s.Same s' where
  others : ∀ b, (s.heap.cell b).name ≠ name → s'.heap.cell b = s.heap.cell b
  idle : (∀ hook, (hooks.unset s.hooked hook name).1 = []) → s'.heap = s.heap

theorem Env.Tells.asked (m : Allocator) (hooks : EnvHooks) (h : s.Tells ids t) (hf : s.find ids name = some a)
    {b : Binding} (hb : binding name t.log = some b) : ∃ s', envAsk m hooks s (s.heap.cell a) =
      some ((t.asked hooks name b).1,s') ∧ s'.Tells ids (t.asked hooks name b).2 ∧ s.Only a s' ∧
        s.Kept hooks name s' := by
  obtain ⟨-,hname⟩ := Env.find_mem hf
  obtain ⟨b',hb',hs⟩ := h.of_find hf
  obtain rfl : b = b' := Option.some.inj (hb.symm.trans hb')
  have hunsethook : (s.heap.cell a).unsethook = b.unsethook := congrArg (fun v => v.2.2) hs
  unfold envAsk EnvHistory.asked
  rw [hunsethook,hname]
  cases b.unsethook with
  | none => exact ⟨s,rfl,h,Env.Only.refl a s,⟨(Env.Only.refl a s).toSame,fun _ _ => rfl,fun _ => rfl⟩⟩
  | some hook =>
    obtain ⟨s',hrun,ht,honly,hidle⟩ := h.hook.nested m (hooks.unset t.hooked hook name).1 hf
    have honly' : s.Only a s' := ⟨⟨honly.environ,honly.live,honly.cell⟩,honly.other⟩
    simp only [h.hooked] at hrun ⊢
    rw [hrun]
    refine ⟨s',rfl,ht,honly',⟨honly'.toSame,fun c hc => ?_,fun hnone => ?_⟩⟩
    · refine honly'.other c ?_
      rintro rfl
      exact hc hname
    · have he := hnone hook
      rw [h.hooked] at he
      rw [hidle he]

theorem Env.Tells.unset (m : Allocator) (hooks : EnvHooks) (h : s.Tells ids t) (name : CStr) :
    ∃ s' ids', unsetenv m hooks s name = some ((t.unsetenv hooks name).1,s') ∧
      s'.Tells ids' (t.unsetenv hooks name).2 ∧
      ((t.unsetenv hooks name).1 ≠ 0 → ids' = ids ∧ s.Kept hooks name s') := by
  unfold unsetenv EnvHistory.unsetenv
  rw [h.toHolds.getenv name]
  cases hf : s.find ids name with
  | none =>
    rw [h.find_none_iff.mp hf]
    exact ⟨s,ids,rfl,h,fun _ => ⟨rfl,⟨⟨rfl,rfl,fun _ => rfl⟩,fun _ _ => rfl,fun _ => rfl⟩⟩⟩
  | some a =>
    obtain ⟨b,hb,-⟩ := h.of_find hf
    obtain ⟨s₁,hrun,ht,honly,hkept⟩ := h.asked m hooks hf hb
    simp only [Option.bind_eq_bind,Option.bind_some,Store.read_of_mem (h.live a (Env.find_mem hf).1),hrun,hb]
    by_cases hr : (t.asked hooks name b).1 = 0
    · obtain ⟨s₂,ids₂,hrun',ht'⟩ := ht.discard ((honly.find ids name).trans hf)
      rw [if_pos hr,if_pos hr,hrun']
      exact ⟨s₂,ids₂,rfl,ht',fun hne => absurd rfl hne⟩
    · rw [if_neg hr,if_neg hr]
      exact ⟨s₁,ids,rfl,ht,fun _ => ⟨rfl,hkept⟩⟩

theorem Env.Tells.value (h : s.Tells ids t) (name : CStr) :
    Stand.getenv s name = some ((binding name t.log).map Binding.value) := by
  unfold Stand.getenv
  rw [h.toHolds.getenv name]
  cases hf : s.find ids name with
  | none =>
    rw [h.find_none_iff.mp hf]
    rfl
  | some a =>
    obtain ⟨ha,-⟩ := Env.find_mem hf
    obtain ⟨b,hb,hs⟩ := h.of_find hf
    have hvalue : (s.heap.cell a).value = some b.value := congrArg Prod.fst hs
    simp only [Option.bind_eq_bind,Option.bind_some,Store.read_of_mem (h.live a ha),hvalue,hb]
    rfl

theorem Env.Tells.call (m : Allocator) (hooks : EnvHooks) (h : s.Tells ids t) (c : EnvCall) :
    ∃ s' ids', c.exec m hooks s = some ((t.call hooks c).1,s') ∧ s'.Tells ids' (t.call hooks c).2 ∧
      ∀ name, c = .unsetenv name → (t.call hooks c).1 ≠ 0 → ids' = ids ∧ s.Kept hooks name s' := by
  have hset : ∀ name flags value sethook unsethook, ∃ s' ids',
      envSetenv m hooks s name flags (some value) sethook unsethook =
        some ((t.envSetenv hooks name flags value sethook unsethook).1,s') ∧
          s'.Tells ids' (t.envSetenv hooks name flags value sethook unsethook).2 :=
    h.setenv m hooks
  cases c with
  | envSetenv name flags value sethook unsethook =>
    obtain ⟨s',ids',hrun,ht⟩ := hset name flags value sethook unsethook
    exact ⟨s',ids',hrun,ht,nofun⟩
  | setenv name value overwrite =>
    simp only [EnvCall.exec,Stand.setenv,EnvHistory.call,h.toHolds.getenv name,Option.bind_eq_bind,Option.bind_some,
      h.find_none_iff]
    obtain ⟨s',ids',hrun,ht⟩ := hset name evVolatile value none none
    split_ifs with hnew
    · exact ⟨s',ids',hrun,ht,nofun⟩
    · exact ⟨s,ids,rfl,h,nofun⟩
  | putenv string =>
    simp only [EnvCall.exec,putenv,Stand.setenv,EnvHistory.call,h.toHolds.getenv,Option.bind_eq_bind,Option.bind_some,
      if_pos string.property,true_or,if_true]
    obtain ⟨s',ids',hrun,ht⟩ := hset (envName string) evVolatile (envRest string) none none
    exact ⟨s',ids',hrun,ht,nofun⟩
  | unsetenv name =>
    obtain ⟨s',ids',hrun,ht,hkept⟩ := h.unset m hooks name
    refine ⟨s',ids',hrun,ht,?_⟩
    rintro n ⟨⟩
    exact hkept
  | getenv name =>
    refine ⟨s,ids,?_,h,nofun⟩
    simp only [EnvCall.exec,h.value name]
    rfl

theorem Env.Tells.fails {hooks : EnvHooks} (h : s.Tells ids t) : (t.unsetenv hooks name).1 ≠ 0 ↔
    Stand.getenv s name = some none ∨ ∃ a ∈ ids, ∃ hook, (s.heap.cell a).name = name ∧
      (s.heap.cell a).unsethook = some hook ∧ (hooks.unset s.hooked hook name).2 ≠ 0 := by
  rw [unsetenv_fails,h.value name,h.hooked,Option.some.injEq,Option.map_eq_none_iff]
  refine or_congr_right ⟨?_,?_⟩
  · rintro ⟨b,hook,hb,hhook,herr⟩
    cases hf : s.find ids name with
    | none => rw [h.find_none_iff.mp hf] at hb; cases hb
    | some a =>
      obtain ⟨ha,hname⟩ := Env.find_mem hf
      obtain ⟨b',hb',hs⟩ := h.of_find hf
      obtain rfl : b = b' := Option.some.inj (hb.symm.trans hb')
      have hunsethook : (s.heap.cell a).unsethook = b.unsethook := congrArg (fun v => v.2.2) hs
      exact ⟨a,ha,hook,hname,hunsethook.trans hhook,herr⟩
  · rintro ⟨a,ha,hook,hname,hhook,herr⟩
    have hf := h.toHolds.find_of_mem ha hname
    obtain ⟨b,hb,hs⟩ := h.of_find hf
    have hunsethook : (s.heap.cell a).unsethook = b.unsethook := congrArg (fun v => v.2.2) hs
    exact ⟨b,hook,hb,hunsethook.symm.trans hhook,herr⟩

theorem emptyEnv_tells : emptyEnv.Tells [] ⟨[],0⟩ :=
  ⟨⟨rfl,trivial,nofun,List.Pairwise.nil⟩,rfl,fun _ => rfl⟩

end Tells

section Runs
variable {cs : List EnvCall}

theorem envRun_append (m : Allocator) (hooks : EnvHooks) (s : Env) (cs : List EnvCall) (c : EnvCall) :
    envRun m hooks s (cs ++ [c]) = (envRun m hooks s cs).bind fun s => (c.exec m hooks s).map Prod.snd := by
  induction cs generalizing s with
  | nil =>
    simp only [List.nil_append,envRun,Option.bind_eq_bind,Option.bind_some]
    cases c.exec m hooks s <;> rfl
  | cons d cs ih =>
    simp only [List.cons_append,envRun,Option.bind_eq_bind,Option.bind_assoc,ih]

theorem envRun_tells (m : Allocator) (hooks : EnvHooks) (cs : List EnvCall) :
    ∃ s ids, envRun m hooks emptyEnv cs = some s ∧ s.Tells ids (envHistory hooks cs) := by
  induction cs using List.reverseRecOn with
  | nil => exact ⟨emptyEnv,[],rfl,emptyEnv_tells⟩
  | append_singleton cs c ih =>
    obtain ⟨s,ids,hrun,h⟩ := ih
    obtain ⟨s',ids',hcall,ht,-⟩ := h.call m hooks c
    refine ⟨s',ids',?_,?_⟩
    · rw [envRun_append,hrun,Option.bind_some,hcall]
      rfl
    · rw [envHistory,List.foldl_append]
      exact ht

/-- After any calls, whatever the hooks did: the list is sorted and linked both ways from `environ` on, a name has
the value of its last assignment that no hook took over, until it was removed, the next call leaves the other names
alone, and a removal fails exactly if there is nothing to remove or the hook returned an error. -/
theorem envRun_map (m : Allocator) (hooks : EnvHooks) (cs : List EnvCall) : ∃ s ids,
    envRun m hooks emptyEnv cs = some s ∧ s.Holds ids ∧
    (∀ a ∈ ids, ∀ b ∈ ids, (s.heap.cell a).next = some b ↔ (s.heap.cell b).prev = some a) ∧
    (∀ a ∈ ids, (s.heap.cell a).prev = none ↔ s.environ = some a) ∧
    (∀ name, ∃ found, getenv s name = some found ∧ ∀ value, found = some value ↔
      ∃ pre sethook unsethook post, (envHistory hooks cs).log = pre ++ .put name value sethook unsethook :: post ∧
        ∀ e ∈ post, e.name ≠ name) ∧
    ∀ c : EnvCall, ∃ r s' ids', c.exec m hooks s = some (r,s') ∧ s'.Holds ids' ∧
      (∀ name, name ≠ c.name → getenv s' name = getenv s name) ∧
      ∀ name, c = .unsetenv name →
        (r ≠ 0 ↔ getenv s name = some none ∨ ∃ a ∈ ids, ∃ hook, (s.heap.cell a).name = name ∧
          (s.heap.cell a).unsethook = some hook ∧ (hooks.unset s.hooked hook name).2 ≠ 0) ∧
        (r = 0 → getenv s' name = some none) ∧ (r ≠ 0 → ids' = ids ∧ s.Kept hooks name s') := by
  obtain ⟨s,ids,hrun,h⟩ := envRun_tells m hooks cs
  refine ⟨s,ids,hrun,h.toHolds,fun a ha b hb => h.linked.next_iff ha hb,fun a ha => ?_,fun name => ?_,fun c => ?_⟩
  · rw [h.head]
    exact h.linked.prev_none_iff ha
  · exact ⟨_,h.value name,fun value => binding_value⟩
  · obtain ⟨s',ids',hcall,ht,hkept⟩ := h.call m hooks c
    refine ⟨_,s',ids',hcall,ht.toHolds,fun name hne => ?_,?_⟩
    · rw [ht.value name,h.value name,binding_call c hne]
    · rintro name rfl
      refine ⟨h.fails,fun hr => ?_,hkept name rfl⟩
      rw [ht.value name,EnvHistory.call,unsetenv_gone hr]
      rfl

end Runs

end Blub.Stand
