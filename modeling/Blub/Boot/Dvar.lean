import Blub.Lib.Nodes

/-! The variables of dloader, from `subs.c`: a linked list, with a pointer to the link that ends it. -/
namespace Blub.Boot
open Blub.Nodes

section Code

/-- A variable with its `count` strings. -/
structure Dvar where
  name : List UInt8
  data : List (List UInt8)
  next : Option ℕ

/-- A `dvar_t *`: the head of the list, or the `next` field of a variable. -/
inductive DvarLink
  | base
  | next (a : ℕ)
  deriving DecidableEq, Repr

structure Dvars where
  heap : Store Dvar
  dvbase : Option ℕ
  dvlastp : DvarLink

def noDvars : Dvars where
  heap := ⟨fun _ => ⟨[],[],none⟩,[],0⟩
  dvbase := none
  dvlastp := .base

namespace Dvars

/-- `*lastp` -/
def deref (s : Dvars) : DvarLink → Option (Option ℕ)
  | .base => some s.dvbase
  | .next a => (s.heap.read a).map Dvar.next

/-- `*lastp = p` -/
def store (s : Dvars) (p : Option ℕ) : DvarLink → Option Dvars
  | .base => some { s with dvbase := p }
  | .next a => do
    let v ← s.heap.read a
    let heap ← s.heap.write a { v with next := p }
    return { s with heap := heap }

/-- The loop that looks for a name. A list has no more variables than are in use; more steps would mean that
it runs in a circle. -/
def find (s : Dvars) (name : List UInt8) : ℕ → Option ℕ → Option (Option ℕ)
  | _, none => some none
  | 0, some _ => none
  | k+1, some a => do
    let v ← s.heap.read a
    if v.name = name then return some a else s.find name k v.next

attribute [local grind =] find

end Dvars

def dvarGet (s : Dvars) (name : List UInt8) : Option (Option (List (List UInt8))) := do
  match ← s.find name s.heap.live.length s.dvbase with
  | none => return none
  | some a => return some (← s.heap.read a).data

def dvarSet (m : Allocator) (s : Dvars) (name : List UInt8) (data : List (List UInt8)) : Option Dvars := do
  match ← s.find name s.heap.live.length s.dvbase with
  | none =>
    let (a,heap) := s.heap.alloc m ⟨name,data,none⟩
    let s ← { s with heap := heap }.store (some a) s.dvlastp
    return { s with dvlastp := .next a }
  | some a =>
    let v ← s.heap.read a
    let heap ← s.heap.write a { v with data := data }
    return { s with heap := heap }

def dvarFree (s : Dvars) (lastp : DvarLink) : Option Dvars := do
  let a ← (← s.deref lastp)
  let dvar ← s.heap.read a
  let s := if s.dvlastp = .next a then { s with dvlastp := lastp } else s
  let s ← s.store dvar.next lastp
  let heap ← s.heap.free a
  return { s with heap := heap }

/-- `'*'` -/
def star : UInt8 := 42

/-- The part of a pattern before its `'*'`. -/
def patPrefix (name : List UInt8) : List UInt8 := name.takeWhile (· ≠ star)

/-- The loop of `dvar_unset` for a pattern with a `'*'`. -/
def unsetAll (pre : List UInt8) : ℕ → DvarLink → Dvars → Option Dvars
  | k, lastp, s => do
    match ← s.deref lastp with
    | none => return s
    | some a =>
      match k with
      | 0 => none
      | k+1 =>
        let var ← s.heap.read a
        if var.name.length ≥ pre.length ∧ var.name.take pre.length = pre then
          unsetAll pre k lastp (← dvarFree s lastp)
        else unsetAll pre k (.next a) s

/-- The loop of `dvar_unset` for a plain name. -/
def unsetOne (name : List UInt8) : ℕ → DvarLink → Dvars → Option Dvars
  | k, lastp, s => do
    match ← s.deref lastp with
    | none => return s
    | some a =>
      match k with
      | 0 => none
      | k+1 =>
        let var ← s.heap.read a
        if var.name = name then dvarFree s lastp else unsetOne name k (.next a) s

def dvarUnset (s : Dvars) (name : List UInt8) : Option Dvars :=
  if star ∈ name then unsetAll (patPrefix name) s.heap.live.length .base s
  else unsetOne name s.heap.live.length .base s

/-- A call that changes the list. -/
inductive DvarCall
  | set (name : List UInt8) (data : List (List UInt8))
  | unset (name : List UInt8)

def DvarCall.exec (m : Allocator) (s : Dvars) : DvarCall → Option Dvars
  | .set name data => dvarSet m s name data
  | .unset name => dvarUnset s name

def dvarRun (m : Allocator) (s : Dvars) : List DvarCall → Option Dvars
  | [] => some s
  | c :: cs => do dvarRun m (← c.exec m s) cs

attribute [local grind =] unsetAll unsetOne dvarRun

end Code

section Spec

/-- The names that `dvar_unset` removes. -/
def Matches (pattern name : List UInt8) : Prop :=
  if star ∈ pattern then patPrefix pattern <+: name else name = pattern

instance (pattern name : List UInt8) : Decidable (Matches pattern name) := by
  unfold Matches
  infer_instance

/-- What the last `dvar_set` of a name has left, unless a later `dvar_unset` has removed it. -/
def lastData (name : List UInt8) (cs : List DvarCall) : Option (List (List UInt8)) :=
  cs.foldl (fun d c => match c with
    | .set n data => if n = name then some data else d
    | .unset pattern => if Matches pattern name then none else d) none

/-- The number of the call that created the variable of a name, if there is one. -/
def birth (name : List UInt8) (cs : List DvarCall) : Option ℕ :=
  cs.zipIdx.foldl (fun b c => match c.1 with
    | .set n _ => if n = name then some (b.getD c.2) else b
    | .unset pattern => if Matches pattern name then none else b) none

end Spec

section Lists

/-- The link that ends the list of the variables at `ids`. -/
def lastLink (ids : List ℕ) : DvarLink :=
  match ids.getLast? with
  | none => .base
  | some a => .next a

theorem lastLink_append (ids : List ℕ) (a : ℕ) : lastLink (ids ++ [a]) = .next a := by
  simp [lastLink]

/-- The memory holds the variables at `ids`, linked in this order. -/
structure Dvars.Linked (s : Dvars) (ids : List ℕ) : Prop where
  thread : Threaded (fun a => (s.heap.cell a).next) s.dvbase ids none
  nodup : ids.Nodup
  live : ∀ a ∈ ids, a ∈ s.heap.live

/-- Moreover, `dvlastp` is the link that ends them. -/
structure Dvars.Holds (s : Dvars) (ids : List ℕ) : Prop extends s.Linked ids where
  last : s.dvlastp = lastLink ids

/-- The name and the strings of a variable. -/
def Dvars.var (s : Dvars) (a : ℕ) : List UInt8 × List (List UInt8) := ((s.heap.cell a).name,(s.heap.cell a).data)

variable {s s' : Dvars} {ids pre suf : List ℕ} {a : ℕ}

theorem Dvars.Linked.length_le (h : s.Linked ids) : ids.length ≤ s.heap.live.length :=
  (List.subperm_of_subset h.nodup h.live).length_le

theorem find_thread (name : List UInt8) {p : Option ℕ} (ht : Threaded (fun a => (s.heap.cell a).next) p ids none)
    (hl : ∀ a ∈ ids, a ∈ s.heap.live) {k : ℕ} (hk : ids.length ≤ k) :
    s.find name k p = some (ids.find? fun a => (s.heap.cell a).name = name) := by
  induction ids generalizing p k with
  | nil =>
    rw [ht]
    cases k <;> rfl
  | cons a ids ih =>
    obtain ⟨rfl,ht⟩ := ht
    cases k with
    | zero => simp at hk
    | succ k =>
      have hr := ih ht (fun b hb => hl b (List.mem_cons_of_mem a hb)) (Nat.le_of_succ_le_succ hk)
      simp only [Dvars.find,Store.read_of_mem (hl a List.mem_cons_self),Option.bind_eq_bind,Option.bind_some]
      by_cases hn : (s.heap.cell a).name = name
      · rw [if_pos hn,List.find?_cons_of_pos (by simpa using hn)]
        rfl
      · rw [if_neg hn,List.find?_cons_of_neg (by simpa using hn)]
        exact hr

theorem Dvars.Linked.find (h : s.Linked ids) (name : List UInt8) :
    s.find name s.heap.live.length s.dvbase = some (ids.find? fun a => (s.heap.cell a).name = name) :=
  find_thread name h.thread h.live h.length_le

/-- What the link behind the first variables points to. -/
theorem Dvars.Linked.deref (h : s.Linked (pre ++ suf)) : s.deref (lastLink pre) = some suf.head? := by
  obtain ⟨r,h₁,h₂⟩ := (threaded_append _ _ _ _).mp h.thread
  obtain rfl | ⟨pre,b,rfl⟩ := pre.eq_nil_or_concat
  · rw [threaded_nil] at h₁
    show some s.dvbase = _
    rw [h₁,h₂.head]
  · rw [List.concat_eq_append] at h h₁ ⊢
    obtain ⟨-,-,rfl,hb⟩ := (threaded_append _ _ _ _).mp h₁
    rw [lastLink_append]
    simp only [Dvars.deref]
    rw [Store.read_of_mem (h.live b (by simp)),Option.map_some,← h₂.head,← hb]

/-- Storing to the link behind the first variables leads them to another list. -/
theorem Dvars.Linked.store (h : s.Linked (pre ++ suf)) {q : Option ℕ} : ∃ s', s.store q (lastLink pre) = some s' ∧
    Threaded (fun a => (s'.heap.cell a).next) s'.dvbase pre q ∧ s'.heap.live = s.heap.live ∧
      s'.dvlastp = s.dvlastp ∧ (∀ b, s'.var b = s.var b) ∧
      ∀ b, b ∉ pre → (s'.heap.cell b).next = (s.heap.cell b).next := by
  obtain ⟨r,h₁,-⟩ := (threaded_append _ _ _ _).mp h.thread
  obtain rfl | ⟨pre,b,rfl⟩ := pre.eq_nil_or_concat
  · exact ⟨_,rfl,rfl,rfl,rfl,fun _ => rfl,fun _ _ => rfl⟩
  · rw [List.concat_eq_append] at h h₁ ⊢
    have hb := h.live b (by simp)
    have hnd := (List.nodup_append.mp h.nodup).1
    rw [lastLink_append]
    refine ⟨{ s with heap := { s.heap with cell := Function.update s.heap.cell b { s.heap.cell b with next := q } } },
      ?_,?_,rfl,rfl,?_,?_⟩
    · simp [Dvars.store,Store.read_of_mem hb,Store.write_of_mem hb]
    · refine h₁.retarget (by simp) fun c hc => ?_
      have hne : c ≠ b := by
        rintro rfl
        exact (List.nodup_append.mp hnd).2.2 c hc c (by simp) rfl
      simp [hne]
    · intro c
      simp only [Dvars.var]
      by_cases hc : c = b
      · subst hc
        simp
      · simp [hc]
    · intro c hc
      have hne : c ≠ b := by
        rintro rfl
        exact hc (by simp)
      simp [hne]

theorem lastLink_cons (pre suf : List ℕ) (a b : ℕ) :
    lastLink (pre ++ a :: b :: suf) = lastLink (pre ++ b :: suf) := by
  simp [lastLink,List.getLast?_append,List.getLast?_cons_cons]

/-- The variable behind the first ones goes, and `dvlastp` is put right if it was the last one. -/
theorem dvarFree_spec (h : s.Holds (pre ++ a :: suf)) : ∃ s', dvarFree s (lastLink pre) = some s' ∧
    s'.Holds (pre ++ suf) ∧ ∀ b, s'.var b = s.var b := by
  have hd := h.nodup
  have ha := h.live a (by simp)
  obtain ⟨-,hnd,hdis⟩ := List.nodup_append.mp hd
  obtain ⟨hsuf,-⟩ := List.nodup_cons.mp hnd
  have hpre : a ∉ pre := fun hm => hdis a hm a List.mem_cons_self rfl
  set s₁ : Dvars := if s.dvlastp = .next a then { s with dvlastp := lastLink pre } else s with hs₁
  have hheap : s₁.heap = s.heap ∧ s₁.dvbase = s.dvbase := by
    rw [hs₁]
    split_ifs <;> exact ⟨rfl,rfl⟩
  have hlast : s₁.dvlastp = lastLink (pre ++ suf) := by
    rw [hs₁]
    cases suf with
    | nil =>
      rw [if_pos (h.last.trans (lastLink_append pre a)),List.append_nil]
    | cons b suf =>
      have hl : s.dvlastp = lastLink (pre ++ b :: suf) := h.last.trans (lastLink_cons pre suf a b)
      rw [if_neg,hl]
      rw [hl]
      simp only [lastLink,List.getLast?_append,List.getLast?_cons,Option.some_or,DvarLink.next.injEq]
      rintro rfl
      exact hsuf (List.mem_of_getLast? (by rw [List.getLast?_cons]))
  have hlink : s₁.Linked (pre ++ a :: suf) := by
    refine ⟨?_,hd,?_⟩
    · rw [hheap.1,hheap.2]
      exact h.thread
    · rw [hheap.1]
      exact h.live
  obtain ⟨r,-,-,hrest⟩ := (threaded_append _ _ _ _).mp hlink.thread
  obtain ⟨s₂,hstore,hth,hlive,hlast₂,hvar,hnext⟩ := hlink.store (q := (s.heap.cell a).next)
  have hfree := Store.free_of_mem (s := s₂.heap) (a := a) (by rw [hlive,hheap.1]; exact ha)
  refine ⟨{ s₂ with heap := { s₂.heap with live := s₂.heap.live.filter (· ≠ a) } },?_,⟨⟨?_,?_,?_⟩,?_⟩,?_⟩
  · have hderef := h.deref
    simp only [dvarFree,hderef,Option.bind_eq_bind,Option.bind_some,List.head?_cons,Store.read_of_mem ha,← hs₁,hstore,
      hfree]
    rfl
  · refine (threaded_append _ _ _ _).mpr ⟨_,hth,?_⟩
    rw [hheap.1] at hrest hnext
    refine hrest.congr fun b hb => hnext b fun hbp => ?_
    exact hdis b hbp b (List.mem_cons_of_mem a hb) rfl
  · exact hd.sublist (List.Sublist.append_left (List.sublist_cons_self a suf) pre)
  · intro b hb
    show b ∈ s₂.heap.live.filter (· ≠ a)
    rw [hlive,hheap.1]
    have hm : b ∈ s.heap.live ∧ b ≠ a := by
      obtain hb | hb := List.mem_append.mp hb
      · exact ⟨h.live b (by simp [hb]),by rintro rfl; exact hpre hb⟩
      · exact ⟨h.live b (by simp [hb]),by rintro rfl; exact hsuf hb⟩
    simpa using hm
  · exact hlast₂.trans hlast
  · intro b
    have : s₁.var b = s.var b := by simp only [Dvars.var,hheap.1]
    exact (hvar b).trans this

end Lists

section Calls
variable {s : Dvars} {ids pre suf : List ℕ}

theorem unsetAll_spec (p : List UInt8) {k : ℕ} (h : s.Holds (pre ++ suf)) (hk : suf.length ≤ k) :
    ∃ s', unsetAll p k (lastLink pre) s = some s' ∧
      s'.Holds (pre ++ suf.filter fun a => ¬ p <+: (s.var a).1) ∧ ∀ b, s'.var b = s.var b := by
  induction suf generalizing s pre k with
  | nil =>
    refine ⟨s,?_,h,fun _ => rfl⟩
    unfold unsetAll
    simp [h.deref]
  | cons a suf ih =>
    cases k with
    | zero => simp at hk
    | succ k =>
      have hk' := Nat.le_of_succ_le_succ hk
      have hread := Store.read_of_mem (h.live a (by simp))
      unfold unsetAll
      simp only [h.deref,List.head?_cons,hread,Option.bind_eq_bind,Option.bind_some]
      by_cases hm : p <+: (s.var a).1
      · obtain ⟨s₁,hfree,h₁,hv₁⟩ := dvarFree_spec h
        obtain ⟨s',hrun,h',hv'⟩ := ih h₁ hk'
        have hc : (s.heap.cell a).name.length ≥ p.length ∧ (s.heap.cell a).name.take p.length = p :=
          ⟨hm.length_le,(List.prefix_iff_eq_take.mp hm).symm⟩
        refine ⟨s',?_,?_,fun b => (hv' b).trans (hv₁ b)⟩
        · rw [if_pos hc,hfree]
          exact hrun
        · rw [List.filter_cons_of_neg (by simpa using hm)]
          simpa only [hv₁] using h'
      · rw [List.append_cons] at h
        obtain ⟨s',hrun,h',hv'⟩ := ih h hk'
        rw [lastLink_append] at hrun
        refine ⟨s',?_,?_,hv'⟩
        · rw [if_neg fun hc => hm (List.prefix_iff_eq_take.mpr hc.2.symm)]
          exact hrun
        · rw [List.filter_cons_of_pos (by simpa using hm),List.append_cons]
          exact h'

theorem unsetOne_spec (name : List UInt8) {k : ℕ} (h : s.Holds (pre ++ suf)) (hk : suf.length ≤ k)
    (hn : (suf.map fun a => (s.var a).1).Nodup) : ∃ s', unsetOne name k (lastLink pre) s = some s' ∧
      s'.Holds (pre ++ suf.filter fun a => ¬ (s.var a).1 = name) ∧ ∀ b, s'.var b = s.var b := by
  induction suf generalizing pre k with
  | nil =>
    refine ⟨s,?_,h,fun _ => rfl⟩
    unfold unsetOne
    simp [h.deref]
  | cons a suf ih =>
    cases k with
    | zero => simp at hk
    | succ k =>
      obtain ⟨hna,hn⟩ := List.nodup_cons.mp hn
      have hread := Store.read_of_mem (h.live a (by simp))
      unfold unsetOne
      simp only [h.deref,List.head?_cons,hread,Option.bind_eq_bind,Option.bind_some]
      by_cases hm : (s.var a).1 = name
      · obtain ⟨s',hfree,h',hv'⟩ := dvarFree_spec h
        -- no other variable has the name
        have hrest : suf.filter (fun b => ¬ (s.var b).1 = name) = suf := by
          refine List.filter_eq_self.mpr fun b hb => ?_
          have hne : (s.var b).1 ≠ name := by
            intro he
            exact hna (List.mem_map.mpr ⟨b,hb,he.trans hm.symm⟩)
          simpa using hne
        refine ⟨s',by rw [if_pos (show (s.heap.cell a).name = name from hm),hfree],?_,hv'⟩
        rw [List.filter_cons_of_neg (by simpa using hm),hrest]
        exact h'
      · rw [List.append_cons] at h
        obtain ⟨s',hrun,h',hv'⟩ := ih h (Nat.le_of_succ_le_succ hk) hn
        rw [lastLink_append] at hrun
        refine ⟨s',?_,?_,hv'⟩
        · rw [if_neg (show ¬ (s.heap.cell a).name = name from hm)]
          exact hrun
        · rw [List.filter_cons_of_pos (by simpa using hm),List.append_cons]
          exact h'

/-- `dvar_unset` removes the variables whose names match, and no others. -/
theorem dvarUnset_spec (pattern : List UInt8) (h : s.Holds ids) (hn : (ids.map fun a => (s.var a).1).Nodup) :
    ∃ s', dvarUnset s pattern = some s' ∧ s'.Holds (ids.filter fun a => ¬ Matches pattern (s.var a).1) ∧
      ∀ b, s'.var b = s.var b := by
  unfold dvarUnset
  by_cases hs : star ∈ pattern
  · obtain ⟨s',hrun,h',hv⟩ := unsetAll_spec (patPrefix pattern) (show s.Holds ([] ++ ids) from h) h.length_le
    refine ⟨s',by rwa [if_pos hs],?_,hv⟩
    simpa only [Matches,if_pos hs,List.nil_append] using h'
  · obtain ⟨s',hrun,h',hv⟩ := unsetOne_spec pattern (show s.Holds ([] ++ ids) from h) h.length_le hn
    refine ⟨s',by rwa [if_neg hs],?_,hv⟩
    simpa only [Matches,if_neg hs,List.nil_append] using h'

theorem dvarGet_spec (name : List UInt8) (h : s.Holds ids) :
    dvarGet s name = some ((ids.find? fun a => (s.var a).1 = name).map fun a => (s.var a).2) := by
  have hf := h.find name
  unfold dvarGet
  simp only [hf,Option.bind_eq_bind,Option.bind_some]
  cases hc : ids.find? fun a => (s.heap.cell a).name = name with
  | none =>
    have hc' : ids.find? (fun a => (s.var a).1 = name) = none := hc
    rw [hc']
    rfl
  | some a =>
    have hc' : ids.find? (fun a => (s.var a).1 = name) = some a := hc
    dsimp only
    rw [hc',Store.read_of_mem (h.live a (List.mem_of_find?_eq_some hc))]
    rfl

/-- A variable that is there gets other strings and keeps its place. -/
theorem dvarSet_old (m : Allocator) {name : List UInt8} (data : List (List UInt8)) (h : s.Holds ids)
    (hn : name ∈ ids.map fun a => (s.var a).1) : ∃ s', dvarSet m s name data = some s' ∧ s'.Holds ids ∧
      ∃ a ∈ ids, (s.var a).1 = name ∧ s'.var a = (name,data) ∧ ∀ b, b ≠ a → s'.var b = s.var b := by
  obtain ⟨b,hb,hbn⟩ := List.mem_map.mp hn
  obtain ⟨a,ha⟩ := Option.isSome_iff_exists.mp (List.find?_isSome (p := fun a => decide ((s.heap.cell a).name = name))
    |>.mpr ⟨b,hb,decide_eq_true hbn⟩)
  have hmem := List.mem_of_find?_eq_some ha
  have hname : (s.heap.cell a).name = name := by simpa using List.find?_some ha
  have hlive := h.live a hmem
  have hnext : ∀ b, (Function.update s.heap.cell a { s.heap.cell a with data := data } b).next = (s.heap.cell b).next := by
    intro b
    by_cases hb : b = a
    · subst hb
      simp
    · simp [hb]
  refine ⟨{ s with heap := { s.heap with cell := Function.update s.heap.cell a { s.heap.cell a with data := data } } },
    ?_,⟨⟨?_,h.nodup,h.live⟩,h.last⟩,a,hmem,hname,?_,?_⟩
  · simp [dvarSet,h.find name,ha,Store.read_of_mem hlive,Store.write_of_mem hlive]
  · exact h.thread.congr fun b _ => hnext b
  · simp [Dvars.var,hname]
  · intro b hb
    simp [Dvars.var,hb]

/-- A new variable goes to the end. -/
theorem dvarSet_new (m : Allocator) {name : List UInt8} (data : List (List UInt8)) (h : s.Holds ids)
    (hn : name ∉ ids.map fun a => (s.var a).1) : ∃ s' a, dvarSet m s name data = some s' ∧ a ∉ ids ∧
      s'.Holds (ids ++ [a]) ∧ s'.var a = (name,data) ∧ ∀ b ∈ ids, s'.var b = s.var b := by
  set a := m.pick s.heap.born s.heap.live with ha
  have hfresh : a ∉ s.heap.live := m.fresh _ _
  have hne : ∀ b ∈ ids, b ≠ a := by
    rintro b hb rfl
    exact hfresh (h.live _ hb)
  have hnone : ids.find? (fun a => (s.heap.cell a).name = name) = none := by
    rw [List.find?_eq_none]
    intro b hb
    have hb' : (s.heap.cell b).name ≠ name := fun he => hn (List.mem_map.mpr ⟨b,hb,he⟩)
    simpa using hb'
  set s₁ : Dvars := { s with heap := (s.heap.alloc m ⟨name,data,none⟩).2 } with hs₁
  have hcell : ∀ b ∈ ids, s₁.heap.cell b = s.heap.cell b := fun b hb => Function.update_of_ne (hne b hb) _ _
  have hself : s₁.heap.cell a = ⟨name,data,none⟩ := Function.update_self _ _ _
  have hlink : s₁.Linked (ids ++ []) := by
    rw [List.append_nil]
    exact ⟨h.thread.congr fun b hb => by rw [hcell b hb],h.nodup,fun b hb => List.mem_cons_of_mem _ (h.live b hb)⟩
  obtain ⟨s₂,hstore,hth,hlive,-,hvar,hnext⟩ := hlink.store (q := some a)
  have hna : a ∉ ids := fun hm => hne a hm rfl
  refine ⟨{ s₂ with dvlastp := .next a },a,?_,hna,⟨⟨?_,?_,?_⟩,?_⟩,?_,?_⟩
  · have halloc : s.heap.alloc m ⟨name,data,none⟩ = (a,s₁.heap) := rfl
    simp only [dvarSet,h.find name,hnone,halloc,Option.bind_eq_bind,Option.bind_some]
    show (s₁.store (some a) s.dvlastp).bind _ = _
    rw [h.last,hstore]
    rfl
  · refine (threaded_append _ _ _ _).mpr ⟨_,hth,rfl,?_⟩
    show (s₂.heap.cell a).next = none
    rw [hnext a hna,hself]
  · exact List.nodup_append.mpr ⟨h.nodup,List.nodup_singleton a,fun b hb c hc => by
      rw [List.mem_singleton.mp hc]
      exact hne b hb⟩
  · intro b hb
    show b ∈ s₂.heap.live
    rw [hlive]
    obtain hb | hb := List.mem_append.mp hb
    · exact List.mem_cons_of_mem _ (h.live b hb)
    · rw [List.mem_singleton.mp hb]
      exact List.mem_cons_self
  · exact (lastLink_append ids a).symm
  · refine (hvar a).trans ?_
    simp only [Dvars.var,hself]
  · intro b hb
    refine (hvar b).trans ?_
    simp only [Dvars.var,hcell b hb]

end Calls

section Runs
variable {cs : List DvarCall} {c : DvarCall} {name : List UInt8}

theorem dvarRun_append (m : Allocator) (s : Dvars) (cs : List DvarCall) (c : DvarCall) :
    dvarRun m s (cs ++ [c]) = (dvarRun m s cs).bind fun s => c.exec m s := by
  induction cs generalizing s with
  | nil =>
    simp only [List.nil_append,dvarRun,Option.bind_eq_bind,Option.bind_some]
    exact Option.bind_fun_some _
  | cons d cs ih =>
    simp only [List.cons_append,dvarRun,Option.bind_eq_bind,Option.bind_assoc]
    congr 1
    funext s
    exact ih s

theorem lastData_set (n : List UInt8) (data : List (List UInt8)) :
    lastData name (cs ++ [.set n data]) = if n = name then some data else lastData name cs := by
  simp [lastData]

theorem lastData_unset (pattern : List UInt8) :
    lastData name (cs ++ [.unset pattern]) = if Matches pattern name then none else lastData name cs := by
  simp [lastData]

theorem birth_set (n : List UInt8) (data : List (List UInt8)) :
    birth name (cs ++ [.set n data]) = if n = name then some ((birth name cs).getD cs.length) else birth name cs := by
  simp [birth,List.zipIdx_append]

theorem birth_unset (pattern : List UInt8) :
    birth name (cs ++ [.unset pattern]) = if Matches pattern name then none else birth name cs := by
  simp [birth,List.zipIdx_append]

/-- One name was created before the other, and both are there. -/
def Older (cs : List DvarCall) (a b : List UInt8) : Prop :=
  ∃ i j, birth a cs = some i ∧ birth b cs = some j ∧ i < j

/-- The variables are those that the calls have left, in the order of their creation. -/
structure Dvars.Tells (s : Dvars) (ids : List ℕ) (cs : List DvarCall) : Prop extends s.Holds ids where
  names : (ids.map fun a => (s.var a).1).Nodup
  order : (ids.map fun a => (s.var a).1).Pairwise (Older cs)
  there : ∀ name, name ∈ ids.map (fun a => (s.var a).1) ↔ (birth name cs).isSome
  early : ∀ name i, birth name cs = some i → i < cs.length
  data : ∀ a ∈ ids, lastData (s.var a).1 cs = some (s.var a).2
  gone : ∀ name, birth name cs = none → lastData name cs = none

variable {s : Dvars} {ids : List ℕ}

theorem noDvars_tells : noDvars.Tells [] [] :=
  ⟨⟨⟨rfl,List.nodup_nil,nofun⟩,rfl⟩,List.nodup_nil,List.Pairwise.nil,by simp [birth],nofun,nofun,fun _ _ => rfl⟩

theorem Dvars.Tells.unset (h : s.Tells ids cs) (pattern : List UInt8) :
    ∃ s' ids', dvarUnset s pattern = some s' ∧ s'.Tells ids' (cs ++ [.unset pattern]) := by
  obtain ⟨s',hrun,hh,hv⟩ := dvarUnset_spec pattern h.toHolds h.names
  have hvar : (fun a => (s'.var a).1) = fun a => (s.var a).1 := by
    funext a
    rw [hv a]
  have hkept : (ids.filter fun a => ¬ Matches pattern (s.var a).1).map (fun a => (s.var a).1) =
      (ids.map fun a => (s.var a).1).filter fun n => ¬ Matches pattern n := by
    rw [List.filter_map]
    rfl
  have hsome : ∀ {name i}, birth name (cs ++ [.unset pattern]) = some i →
      ¬ Matches pattern name ∧ birth name cs = some i := by
    intro name i hb
    rw [birth_unset] at hb
    split_ifs at hb with hm
    exact ⟨hm,hb⟩
  refine ⟨s',_,hrun,hh,?_,?_,?_,?_,?_,?_⟩
  · rw [hvar,hkept]
    exact h.names.filter _
  · rw [hvar,hkept]
    refine (h.order.filter _).imp_of_mem fun ha hb hold => ?_
    obtain ⟨i,j,hi,hj,hij⟩ := hold
    have ha' := (List.mem_filter.mp ha).2
    have hb' := (List.mem_filter.mp hb).2
    simp only [decide_eq_true_eq] at ha' hb'
    exact ⟨i,j,by rwa [birth_unset,if_neg ha'],by rwa [birth_unset,if_neg hb'],hij⟩
  · intro name
    rw [hvar,hkept,birth_unset,List.mem_filter,h.there name]
    by_cases hm : Matches pattern name
    · simp [hm]
    · simp [hm]
  · intro name i hb
    have := h.early name i (hsome hb).2
    rw [List.length_append]
    omega
  · intro a ha
    obtain ⟨ha,hm⟩ := List.mem_filter.mp ha
    simp only [decide_eq_true_eq] at hm
    rw [hv a,lastData_unset,if_neg hm]
    exact h.data a ha
  · intro name hb
    rw [birth_unset] at hb
    rw [lastData_unset]
    split_ifs at hb ⊢ with hm
    · rfl
    · exact h.gone name hb

theorem Dvars.Tells.set (m : Allocator) (h : s.Tells ids cs) (name : List UInt8) (data : List (List UInt8)) :
    ∃ s' ids', dvarSet m s name data = some s' ∧ s'.Tells ids' (cs ++ [.set name data]) := by
  have hearly : ∀ n i, birth n (cs ++ [.set name data]) = some i → i < (cs ++ [DvarCall.set name data]).length := by
    intro n i hb
    rw [birth_set] at hb
    rw [List.length_append,List.length_singleton]
    split_ifs at hb
    · obtain hc | ⟨j,hc⟩ := Option.eq_none_or_eq_some (birth n cs)
      · rw [hc] at hb
        simp only [Option.getD_none,Option.some.injEq] at hb
        omega
      · rw [hc] at hb
        have := h.early n j hc
        simp only [Option.getD_some,Option.some.injEq] at hb
        omega
    · have := h.early n i hb
      omega
  have hgone : ∀ n, birth n (cs ++ [.set name data]) = none → lastData n (cs ++ [.set name data]) = none := by
    intro n hb
    rw [birth_set] at hb
    rw [lastData_set]
    split_ifs at hb ⊢ with he
    exact h.gone n hb
  by_cases hn : name ∈ ids.map fun a => (s.var a).1
  · obtain ⟨s',hrun,hh,a,ha,hname,hvar,hother⟩ := dvarSet_old m data h.toHolds hn
    have hnames : ids.map (fun a => (s'.var a).1) = ids.map fun a => (s.var a).1 := by
      refine List.map_congr_left fun b _ => ?_
      by_cases hb : b = a
      · rw [hb,hvar,hname]
      · rw [hother b hb]
    -- the name has been created before
    have hbirth : ∀ n, birth n (cs ++ [.set name data]) = birth n cs := by
      intro n
      rw [birth_set]
      split_ifs with he
      · obtain ⟨i,hi⟩ := Option.isSome_iff_exists.mp ((h.there name).mp hn)
        rw [← he,hi,Option.getD_some]
      · rfl
    refine ⟨s',ids,hrun,hh,hnames ▸ h.names,?_,?_,hearly,?_,hgone⟩
    · rw [hnames]
      refine h.order.imp fun hold => ?_
      obtain ⟨i,j,hi,hj,hij⟩ := hold
      exact ⟨i,j,(hbirth _).trans hi,(hbirth _).trans hj,hij⟩
    · intro n
      rw [hnames,hbirth]
      exact h.there n
    · intro b hb
      rw [lastData_set]
      by_cases hba : b = a
      · rw [hba,hvar,if_pos rfl]
      · have hne : name ≠ (s.var b).1 := by
          rw [← hname]
          intro he
          exact hba (List.inj_on_of_nodup_map h.names hb ha he.symm)
        rw [hother b hba,if_neg hne]
        exact h.data b hb
  · obtain ⟨s',a,hrun,hna,hh,hvar,hother⟩ := dvarSet_new m data h.toHolds hn
    have hnames : (ids ++ [a]).map (fun a => (s'.var a).1) = (ids.map fun a => (s.var a).1) ++ [name] := by
      rw [List.map_append,List.map_singleton,hvar,List.map_congr_left fun b hb => by rw [hother b hb]]
    have hnone : birth name cs = none := by
      rw [← Option.not_isSome_iff_eq_none,← h.there name]
      exact hn
    have hbirth : ∀ n ∈ ids.map (fun a => (s.var a).1), birth n (cs ++ [.set name data]) = birth n cs := by
      intro n hm
      rw [birth_set,if_neg]
      rintro rfl
      exact hn hm
    have hnew : birth name (cs ++ [.set name data]) = some cs.length := by
      rw [birth_set,if_pos rfl,hnone,Option.getD_none]
    refine ⟨s',ids ++ [a],hrun,hh,?_,?_,?_,hearly,?_,hgone⟩
    · rw [hnames]
      exact List.nodup_append.mpr ⟨h.names,List.nodup_singleton name,fun n hm k hk he => by
        rw [List.mem_singleton.mp hk] at he
        exact hn (he ▸ hm)⟩
    · rw [hnames,List.pairwise_append]
      refine ⟨h.order.imp_of_mem fun ha hb hold => ?_,List.pairwise_singleton _ _,fun n hm k hk => ?_⟩
      · obtain ⟨i,j,hi,hj,hij⟩ := hold
        exact ⟨i,j,(hbirth _ ha).trans hi,(hbirth _ hb).trans hj,hij⟩
      · obtain ⟨i,hi⟩ := Option.isSome_iff_exists.mp ((h.there n).mp hm)
        rw [List.mem_singleton.mp hk]
        exact ⟨i,cs.length,(hbirth n hm).trans hi,hnew,h.early n i hi⟩
    · intro n
      rw [hnames,List.mem_append,List.mem_singleton,birth_set,h.there n]
      split_ifs with he
      · simp [he]
      · simp [Ne.symm he]
    · intro b hb
      rw [lastData_set]
      obtain hb | hb := List.mem_append.mp hb
      · have hne : name ≠ (s.var b).1 := fun he => hn (List.mem_map.mpr ⟨b,hb,he.symm⟩)
        rw [hother b hb,if_neg hne]
        exact h.data b hb
      · rw [List.mem_singleton.mp hb,hvar,if_pos rfl]

theorem Dvars.Tells.get (h : s.Tells ids cs) (name : List UInt8) : dvarGet s name = some (lastData name cs) := by
  rw [dvarGet_spec name h.toHolds]
  cases hf : ids.find? fun a => (s.var a).1 = name with
  | none =>
    have hnot : name ∉ ids.map fun a => (s.var a).1 := by
      intro hm
      obtain ⟨a,ha,he⟩ := List.mem_map.mp hm
      exact absurd (decide_eq_true he) (List.find?_eq_none.mp hf a ha)
    rw [h.there name,Option.not_isSome_iff_eq_none] at hnot
    rw [h.gone name hnot]
    rfl
  | some a =>
    have hname : (s.var a).1 = name := by simpa using List.find?_some hf
    rw [← hname,h.data a (List.mem_of_find?_eq_some hf)]
    rfl

theorem dvarRun_tells (m : Allocator) (cs : List DvarCall) :
    ∃ s ids, dvarRun m noDvars cs = some s ∧ s.Tells ids cs := by
  induction cs using List.reverseRecOn with
  | nil => exact ⟨noDvars,[],rfl,noDvars_tells⟩
  | append_singleton cs c ih =>
    obtain ⟨s,ids,hrun,h⟩ := ih
    rw [dvarRun_append,hrun]
    cases c with
    | set name data => exact h.set m name data
    | unset pattern => exact h.unset pattern

/-- After any calls, the list holds each name that is set once, in the order of creation, `dvlastp` is the
null link that ends it, and `dvar_get` finds what was set last. -/
theorem dvarRun_list (m : Allocator) (cs : List DvarCall) : ∃ s ids, dvarRun m noDvars cs = some s ∧
    s.Holds ids ∧ s.deref s.dvlastp = some none ∧ (ids.map fun a => (s.var a).1).Nodup ∧
      (∀ name, name ∈ ids.map (fun a => (s.var a).1) ↔ (birth name cs).isSome) ∧
      (ids.map fun a => (s.var a).1).Pairwise (Older cs) ∧
      ∀ name, dvarGet s name = some (lastData name cs) := by
  obtain ⟨s,ids,hrun,h⟩ := dvarRun_tells m cs
  have hend : s.Linked (ids ++ []) := by
    rw [List.append_nil]
    exact h.toLinked
  refine ⟨s,ids,hrun,h.toHolds,?_,h.names,h.there,h.order,h.get⟩
  rw [h.last]
  exact hend.deref

end Runs

end Blub.Boot
