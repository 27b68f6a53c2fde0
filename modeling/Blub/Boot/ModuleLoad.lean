import Blub.Boot.Module

/-! Loading a module is all or nothing: where it fails, the files that were loaded on the way are gone, and the list
and `loadaddr` are as before; where it succeeds, what the new files require is there. -/
namespace Blub.Boot
open Blub.Nodes

namespace Mod

section Lists
variable {s s' : ModList} {ids new : List ℕ} {a : ℕ}

/-- The files `ids` are in memory, linked in this order. -/
structure ModList.Holds (s : ModList) (ids : List ℕ) : Prop where
  thread : Threaded (fun a => (s.heap.cell a).next) s.preloadedFiles ids none
  nodup : ids.Nodup
  live : ∀ a ∈ ids, a ∈ s.heap.live

/-- Moreover, `loadaddr` is the end of the last one. -/
structure ModList.Ready (s : ModList) (ids : List ℕ) : Prop extends s.Holds ids where
  ending : ∀ a, ids.getLast? = some a → s.loadaddr = (s.heap.cell a).addr+(s.heap.cell a).size

/-- A file but for its place in the list. -/
def body (fp : PreloadedFile) : PreloadedFile := {fp with next := none}

/-- A module is there, in a version that will do. -/
def ModList.provides (s : ModList) (ids : List ℕ) (modname : String) (verinfo : Option ModDepend) : Bool :=
  ids.any fun a => (findIn (s.heap.cell a) modname verinfo).isSome

theorem ModList.Holds.length_le (h : s.Holds ids) : ids.length ≤ s.heap.live.length :=
  (List.subperm_of_subset h.nodup h.live).length_le

theorem ModList.Holds.search (h : s.Holds ids) (p : PreloadedFile → Bool) :
    s.search p = some (ids.find? fun a => p (s.heap.cell a)) :=
  Store.search_threaded h.thread h.live h.length_le

theorem ModList.Holds.last (h : s.Holds ids) : s.last = some ids.getLast? := by
  rw [ModList.last,h.search,h.thread.find_last]

theorem ModList.Holds.fileFindmodule (h : s.Holds ids) (modname : String) (verinfo : Option ModDepend) :
    s.fileFindmodule modname verinfo = some (s.provides ids modname verinfo) := by
  rw [ModList.fileFindmodule,h.search,Option.map_some,ModList.provides,List.any_eq]
  congr 1
  rw [Bool.eq_iff_iff,List.find?_isSome,decide_eq_true_iff]

theorem ModList.Holds.congr (h : s.Holds ids) (hp : s'.preloadedFiles = s.preloadedFiles)
    (hc : ∀ a ∈ ids, (s'.heap.cell a).next = (s.heap.cell a).next) (hl : ∀ a ∈ ids, a ∈ s'.heap.live) : s'.Holds ids where
  thread := by
    rw [hp]
    exact h.thread.congr hc
  nodup := h.nodup
  live := hl

theorem body_congr {fp fp' : PreloadedFile} (h : body fp' = body fp) : fp'.addr = fp.addr ∧ fp'.size = fp.size ∧
    fp'.deplist = fp.deplist ∧ fp'.modules = fp.modules := by
  simp only [body,PreloadedFile.mk.injEq] at h
  exact ⟨h.2.2.1,h.2.2.2.1,h.2.2.2.2.1,h.2.2.2.2.2.1⟩

/-- A new file comes behind the others. -/
theorem ModList.Holds.insertTail (h : s.Holds ids) (ha : a ∈ s.heap.live) (hn : a ∉ ids) :
    ∃ s', s.fileInsertTail a = some s' ∧ s'.Holds (ids ++ [a]) ∧ (∀ b, body (s'.heap.cell b) = body (s.heap.cell b)) ∧
      s'.heap.live = s.heap.live ∧ s'.loadaddr = s.loadaddr := by
  obtain ⟨s₁,hs₁⟩ : ∃ s₁ : ModList, s₁ = {s with heap := {s.heap with
    cell := Function.update s.heap.cell a {s.heap.cell a with next := none}}} := ⟨_,rfl⟩
  have hcell : ∀ b ∈ ids, s₁.heap.cell b = s.heap.cell b := by
    intro b hb
    rw [hs₁]
    exact Function.update_of_ne (ne_of_mem_of_not_mem hb hn) _ _
  have hbody : ∀ b, body (s₁.heap.cell b) = body (s.heap.cell b) := by
    intro b
    rw [hs₁]
    by_cases hb : b = a
    · subst hb
      simp [body]
    · simp [Function.update_of_ne hb]
  have hend : (s₁.heap.cell a).next = none := by simp [hs₁]
  have hlive : s₁.heap.live = s.heap.live := by rw [hs₁]
  have h₁ : s₁.Holds ids := h.congr (by rw [hs₁]) (fun b hb => by rw [hcell b hb]) (fun b hb => hlive ▸ h.live b hb)
  have hmod : s.heap.modify a (fun fp => {fp with next := none}) = some s₁.heap := by
    rw [Store.modify_of_mem ha,hs₁]
  have hins : s.fileInsertTail a = s₁.preloadedFiles.elim (some {s₁ with preloadedFiles := some a})
    fun _ => s₁.last.bind fun cm => cm.bind fun cm =>
      (s₁.heap.modify cm fun fp => {fp with next := some a}).bind fun heap => some {s₁ with heap := heap} := by
    rw [ModList.fileInsertTail,hmod,hs₁]
    dsimp only [Option.bind_eq_bind,Option.bind_some]
    cases s.preloadedFiles <;> rfl
  rw [hins]
  obtain rfl | ⟨pre,c,rfl⟩ := ids.eq_nil_or_concat
  · have hp : s₁.preloadedFiles = none := h₁.thread
    rw [hp]
    refine ⟨_,rfl,⟨⟨rfl,hend⟩,List.nodup_singleton a,?_⟩,hbody,hlive,by rw [hs₁]⟩
    intro b hb
    rw [List.mem_singleton.mp hb]
    exact hlive ▸ ha
  · rw [List.concat_eq_append] at *
    obtain ⟨x,hx⟩ : ∃ x, s₁.preloadedFiles = some x := by
      rw [h₁.thread.head]
      cases pre <;> exact ⟨_,rfl⟩
    have hc : c ∈ s₁.heap.live := h₁.live c (by simp)
    have hca : c ≠ a := fun he => hn (by simp [he])
    rw [hx,Option.elim_some]
    rw [h₁.last,List.getLast?_concat,Option.bind_some,Option.bind_some,Store.modify_of_mem hc,Option.bind_some]
    refine ⟨_,rfl,⟨?_,?_,?_⟩,?_,hlive,by rw [hs₁]⟩
    · rw [threaded_append]
      refine ⟨some a,?_,rfl,?_⟩
      · have hthread := h₁.thread
        rw [hx] at hthread
        refine hthread.retarget ?_ fun b hb => ?_
        · dsimp only
          rw [Function.update_self]
        have hbc : b ≠ c := by
          rintro rfl
          exact (List.nodup_append.mp h₁.nodup).2.2 b hb b (by simp) rfl
        simp [Function.update_of_ne hbc]
      · simp [Function.update_of_ne hca.symm,hend]
    · rw [List.nodup_append]
      refine ⟨h₁.nodup,List.nodup_singleton a,?_⟩
      rintro b hb _ hb' rfl
      exact hn (List.mem_singleton.mp hb' ▸ hb)
    · intro b hb
      rcases List.mem_append.mp hb with hb | hb
      · exact h₁.live b hb
      · rw [List.mem_singleton.mp hb]
        exact hlive ▸ ha
    · intro b
      by_cases hb : b = c
      · subst hb
        rw [← hbody b]
        simp [body]
      · rw [← hbody b]
        simp [Function.update_of_ne hb]

/-- The files from a place on are discarded, and no other one. -/
theorem discardFrom_spec {heap : Store PreloadedFile} {p : Option ℕ} {l : List ℕ} {k : ℕ}
    (ht : Threaded (fun a => (heap.cell a).next) p l none) (hn : l.Nodup) (hl : ∀ a ∈ l, a ∈ heap.live) (hk : l.length ≤ k) :
    ∃ heap', discardFrom k p heap = some heap' ∧ heap'.cell = heap.cell ∧
      ∀ b, b ∈ heap.live → b ∉ l → b ∈ heap'.live := by
  induction l generalizing p k heap with
  | nil =>
    rw [show p = none from ht]
    refine ⟨heap,?_,rfl,fun _ hb _ => hb⟩
    cases k <;> rfl
  | cons a l ih =>
    obtain ⟨rfl,ht⟩ := ht
    obtain ⟨ha,hn⟩ := List.nodup_cons.mp hn
    cases k with
    | zero => exact absurd hk (Nat.not_succ_le_zero _)
    | succ k =>
      have hmem := hl a List.mem_cons_self
      obtain ⟨rest,hrest⟩ : ∃ rest : Store PreloadedFile, rest = {heap with live := heap.live.filter (· ≠ a)} := ⟨_,rfl⟩
      have hmemRest : ∀ b, b ∈ rest.live ↔ b ∈ heap.live ∧ b ≠ a := by
        intro b
        rw [hrest]
        simp only [List.mem_filter,decide_eq_true_eq]
      have ht' : Threaded (fun b => (rest.cell b).next) (heap.cell a).next l none := by
        rw [hrest]
        exact ht
      obtain ⟨heap',hdis,hcell,hlive⟩ := ih ht' hn
        (fun b hb => (hmemRest b).mpr ⟨hl b (List.mem_cons_of_mem a hb),ne_of_mem_of_not_mem hb ha⟩)
        (Nat.le_of_succ_le_succ hk)
      refine ⟨heap',?_,hcell.trans (by rw [hrest]),?_⟩
      · simp only [discardFrom,Store.read_of_mem hmem,Store.free_of_mem hmem,Option.bind_eq_bind,Option.bind_some]
        rw [← hrest]
        exact hdis
      · intro b hb hnb
        rw [List.mem_cons,not_or] at hnb
        exact hlive b ((hmemRest b).mpr ⟨hb,hnb.1⟩) hnb.2

end Lists

section Loaders
variable {w : ModWorld} {kfp : Option PreloadedFile} {filename : String} {s : ModList} {ids : List ℕ}

theorem fileAddmodule_deplist (fp : PreloadedFile) (modname : String) (version : ℤ) :
    (fileAddmodule fp modname version).deplist = fp.deplist := by
  unfold fileAddmodule
  split_ifs <;> rfl

/-- The kernel requires nothing. -/
theorem parseModmetadata_kernel (l : List Metadata) (fp : PreloadedFile) (modcnt : ℕ) :
    (parseModmetadata true l fp modcnt).1.deplist = fp.deplist := by
  induction l generalizing fp modcnt with
  | nil => rfl
  | cons m l ih =>
    cases m with
    | depend modname dep => exact ih fp modcnt
    | version modname version => exact (ih _ _).trans (fileAddmodule_deplist fp modname version)
    | other => exact ih fp modcnt

theorem loadAt_error {ef : ElfFile} {type : String} {kernel : Bool} {dest : ℕ} {e : ℤ}
    (h : loadAt ef filename type kernel dest = .error e) : e ≠ 0 := by
  unfold loadAt at h
  dsimp only at h
  split at h
  · cases h
    decide
  · split at h
    · cases h
      decide
    · cases h

theorem loadAt_kernel {ef : ElfFile} {type : String} {dest : ℕ} {r : PreloadedFile × ℕ}
    (h : loadAt ef filename type true dest = .ok r) : r.1.deplist = [] := by
  unfold loadAt at h
  dsimp only at h
  split at h
  · cases h
  · split at h
    · cases h
    · cases h
      exact parseModmetadata_kernel _ _ _

theorem elfLoadAt_error {fakeModname : String → String} {ef : ElfFile} {kernel : Bool} {dest : ℕ} {e : ℤ}
    (h : elfLoadAt fakeModname ef filename kernel dest = .error e) : e ≠ 0 := by
  unfold elfLoadAt at h
  split at h
  · rename_i e' he'
    cases h
    exact loadAt_error he'
  · cases h

theorem elfLoadfile_error {fakeModname : String → String} {ef : ElfFile} {dest : ℕ} {e : ℤ}
    (h : elfLoadfile fakeModname ef kfp filename dest = .error e) : e ≠ 0 := by
  unfold elfLoadfile at h
  split at h
  · rename_i e' _
    cases h
    exact e'.2
  · split at h
    · split at h
      · cases h
        decide
      · split at h
        · cases h
          decide
        · exact elfLoadAt_error h
    · split at h
      · cases h
        decide
      · exact elfLoadAt_error h
    · cases h
      decide

/-- Without a kernel, only a kernel is loaded. -/
theorem elfLoadfile_first {fakeModname : String → String} {ef : ElfFile} {dest : ℕ} {fp : PreloadedFile}
    (h : elfLoadfile fakeModname ef none filename dest = .ok fp) : fp.deplist = [] := by
  unfold elfLoadfile at h
  split at h
  · cases h
  · split at h
    · cases h
    · split at h
      · cases h
      · unfold elfLoadAt at h
        split at h
        · cases h
        · rename_i fp' modcnt hl
          cases h
          split
          · rw [fileAddmodule_deplist]
            exact loadAt_kernel hl
          · exact loadAt_kernel hl
    · cases h

theorem objLoadfile_error {ef : ElfFile} {dest : ℕ} {e : ℤ} (h : objLoadfile ef kfp filename dest = .error e) : e ≠ 0 := by
  unfold objLoadfile at h
  split at h
  · rename_i e' _
    cases h
    exact e'.2
  · split at h
    · cases h
      decide
    · split at h
      · cases h
        decide
      · split at h
        · cases h
          decide
        · cases hl : loadAt ef filename objModuletype false (pageAlign dest) with
          | error e' =>
            rw [hl] at h
            cases h
            exact loadAt_error hl
          | ok r =>
            rw [hl] at h
            cases h

theorem objLoadfile_first {ef : ElfFile} {dest : ℕ} {fp : PreloadedFile}
    (h : objLoadfile ef none filename dest = .ok fp) : False := by
  unfold objLoadfile at h
  split at h
  · cases h
  · split at h
    · cases h
    · cases h

theorem loadFormat_error {n dest i : ℕ} {f : Format} {e : ℤ} (h : loadFormat w n kfp filename dest i f = .error e) :
    e ≠ 0 := by
  cases f with
  | elf => exact elfLoadfile_error h
  | elfObj => exact objLoadfile_error h

theorem loadFormat_first {n dest i : ℕ} {f : Format} {fp : PreloadedFile}
    (h : loadFormat w n none filename dest i f = .ok fp) : fp.deplist = [] := by
  cases f with
  | elf =>
    have h' : elfLoadfile w.fakeModname (w.file n i filename) none filename dest = .ok fp := h
    exact elfLoadfile_first h'
  | elfObj =>
    have h' : objLoadfile (w.file n i filename) none filename dest = .ok fp := h
    exact (objLoadfile_first h').elim

theorem loadLoop_error {load : ℕ → Format → Except ℤ PreloadedFile} (hload : ∀ i f e, load i f = .error e → e ≠ 0)
    {fs : List Format} {i : ℕ} {e : ℤ} (h : loadLoop load i fs = .error e) : e ≠ 0 := by
  induction fs generalizing i with
  | nil =>
    cases h
    decide
  | cons f fs ih =>
    unfold loadLoop at h
    split at h
    · cases h
    · rename_i e' he'
      split_ifs at h
      · exact ih h
      · cases h
        exact hload _ _ _ he'

theorem loadLoop_ok {load : ℕ → Format → Except ℤ PreloadedFile} {P : PreloadedFile → Prop}
    (hload : ∀ i f fp, load i f = .ok fp → P fp) {fs : List Format} {i : ℕ} {r : ℕ × PreloadedFile}
    (h : loadLoop load i fs = .ok r) : P r.2 := by
  induction fs generalizing i with
  | nil => cases h
  | cons f fs ih =>
    unfold loadLoop at h
    split at h
    · rename_i fp hfp
      cases h
      exact hload _ _ _ hfp
    · split_ifs at h
      exact ih h

theorem loadFrom_error {e : ℤ} (h : loadFrom w kfp filename s = .error e) : e ≠ 0 := by
  unfold loadFrom at h
  split_ifs at h
  · exact loadLoop_error (fun _ _ _ => loadFormat_error) h
  · split at h
    · cases h
      decide
    · split at h
      · cases h
      · exact loadLoop_error (fun _ _ _ => loadFormat_error) h

theorem loadFrom_first {r : ℕ × PreloadedFile} (h : loadFrom w none filename s = .ok r) : r.2.deplist = [] := by
  unfold loadFrom at h
  split_ifs at h
  · exact loadLoop_ok (P := fun fp => fp.deplist = []) (fun _ _ _ => loadFormat_first) h
  · split at h
    · cases h
    · split at h
      · rename_i fp hfp
        cases h
        exact loadFormat_first hfp
      · exact loadLoop_ok (P := fun fp => fp.deplist = []) (fun _ _ _ => loadFormat_first) h

/-- The list, its files and `loadaddr` are the same in both. -/
structure SameList (s s' : ModList) (ids : List ℕ) : Prop where
  head : s'.preloadedFiles = s.preloadedFiles
  cells : ∀ a ∈ ids, s'.heap.cell a = s.heap.cell a
  live : ∀ a ∈ ids, a ∈ s'.heap.live
  loadaddr : s'.loadaddr = s.loadaddr

/-- A file that was loaded, and is not in the list yet. A first file requires nothing. -/
structure NewFile (s s' : ModList) (ids : List ℕ) (a : ℕ) : Prop extends SameList s s' ids where
  fresh : a ∉ ids
  mem : a ∈ s'.heap.live
  first : ids = [] → (s'.heap.cell a).deplist = []

theorem fileLoad_spec (h : s.Holds ids) (filename : String) :
    (∃ e s', fileLoad w filename s = .ok (.error e,s') ∧ e ≠ 0 ∧ SameList s s' ids) ∨
      ∃ a s', fileLoad w filename s = .ok (.ok a,s') ∧ NewFile s s' ids a := by
  obtain ⟨kfp,hkfp,hfirst⟩ : ∃ kfp, s.firstFile = some kfp ∧ (ids = [] → kfp = none) := by
    have hhead := h.thread.head
    unfold ModList.firstFile
    cases ids with
    | nil =>
      rw [hhead]
      exact ⟨none,rfl,fun _ => rfl⟩
    | cons a ids =>
      rw [hhead]
      dsimp only [List.head?]
      rw [Store.read_of_mem (h.live a List.mem_cons_self)]
      exact ⟨_,rfl,nofun⟩
  unfold fileLoad
  rw [hkfp]
  dsimp only [use,bind,Except.bind]
  cases hload : loadFrom w kfp filename s with
  | error e => exact .inl ⟨e,_,rfl,loadFrom_error hload,rfl,fun _ _ => rfl,h.live,rfl⟩
  | ok r =>
    have hfresh : w.alloc.pick s.heap.born s.heap.live ∉ s.heap.live := Store.alloc_notMem w.alloc
    refine .inr ⟨w.alloc.pick s.heap.born s.heap.live,_,rfl,⟨rfl,?_,?_,rfl⟩,fun ha => hfresh (h.live _ ha),?_,?_⟩
    · intro a ha
      exact Function.update_of_ne (ne_of_mem_of_not_mem (h.live a ha) hfresh) _ _
    · exact fun a ha => List.mem_cons_of_mem _ (h.live a ha)
    · exact List.mem_cons_self
    · intro hnil
      rw [hfirst hnil] at hload
      refine Eq.trans ?_ (loadFrom_first hload)
      exact congrArg PreloadedFile.deplist (Function.update_self _ _ _)

end Loaders

section Recursion
variable {w : ModWorld} {load : Loading} {s s₁ s' : ModList} {ids new more : List ℕ} {a base : ℕ}

/-- New files came behind the others, and what they require is there. -/
structure Grown (s s' : ModList) (ids new : List ℕ) : Prop where
  ready : s'.Ready (ids ++ new)
  kept : ∀ a ∈ ids, body (s'.heap.cell a) = body (s.heap.cell a)
  satisfied : ∀ a ∈ new, ∀ d ∈ (s'.heap.cell a).deplist, s'.provides (ids ++ new) d.1 (some d.2) = true

/-- A load fails and leaves the list as it was, or succeeds and the list grows. There is no fault. -/
def Atomic (s : ModList) (ids : List ℕ) (r : Except Stop (ℤ × ModList)) : Prop :=
  r = .error .deep ∨ ∃ rc s', r = .ok (rc,s') ∧ (rc ≠ 0 ∧ SameList s s' ids ∨ rc = 0 ∧ ∃ new, Grown s s' ids new)

theorem provides_mono {modname : String} {verinfo : Option ModDepend} (hk : ∀ a ∈ ids, body (s'.heap.cell a) = body (s.heap.cell a))
    (h : s.provides ids modname verinfo = true) : s'.provides (ids ++ new) modname verinfo = true := by
  rw [ModList.provides,List.any_eq_true] at h ⊢
  obtain ⟨a,ha,hfind⟩ := h
  refine ⟨a,List.mem_append_left _ ha,?_⟩
  rwa [findIn,(body_congr (hk a ha)).2.2.2]

theorem SameList.ready (h : SameList s s' ids) (hs : s.Ready ids) : s'.Ready ids where
  toHolds := hs.toHolds.congr h.head (fun a ha => by rw [h.cells a ha]) h.live
  ending a ha := by
    rw [h.loadaddr,h.cells a (List.mem_of_getLast? ha)]
    exact hs.ending a ha

theorem Grown.refl (h : s.Ready ids) : Grown s s ids [] where
  ready := by rwa [List.append_nil]
  kept _ _ := rfl
  satisfied _ ha := nomatch ha

theorem SameList.grown (h : SameList s s' ids) (hs : s.Ready ids) : Grown s s' ids [] where
  ready := by
    rw [List.append_nil]
    exact h.ready hs
  kept a ha := by rw [h.cells a ha]
  satisfied _ ha := nomatch ha

theorem Grown.trans (h : Grown s s₁ ids new) (h' : Grown s₁ s' (ids ++ new) more) : Grown s s' ids (new ++ more) where
  ready := by
    rw [← List.append_assoc]
    exact h'.ready
  kept a ha := (h'.kept a (List.mem_append_left _ ha)).trans (h.kept a ha)
  satisfied := by
    intro a ha d hd
    rw [← List.append_assoc]
    rcases List.mem_append.mp ha with ha | ha
    · have hk := h'.kept a (List.mem_append_right _ ha)
      rw [(body_congr hk).2.2.1] at hd
      exact provides_mono h'.kept (h.satisfied a ha d hd)
    · exact h'.satisfied a ha d hd

/-- The dependencies of a file are met one after the other, until one cannot be met. -/
theorem dependLoop_spec (hload : ∀ modname verinfo s ids, s.Ready ids → Atomic s ids (load modname verinfo s))
    (hbase : base ∈ ids) (l : List (String × ModDepend)) (hs : s.Ready ids) :
    dependLoop load base l s = .error .deep ∨ ∃ rc s' new, dependLoop load base l s = .ok (rc,s') ∧ Grown s s' ids new ∧
      (rc = 0 → ∀ d ∈ l, s'.provides (ids ++ new) d.1 (some d.2) = true) := by
  induction l generalizing s ids with
  | nil => exact .inr ⟨0,s,[],rfl,.refl hs,fun _ _ hd => nomatch hd⟩
  | cons d l ih =>
    obtain ⟨dmodname,verinfo⟩ := d
    unfold dependLoop
    rw [Store.read_of_mem (hs.live base hbase),hs.fileFindmodule]
    dsimp only [use,bind,Except.bind,pure,Except.pure]
    cases hp : s.provides ids dmodname (some verinfo) with
    | true =>
      rw [if_pos rfl]
      obtain hdeep | ⟨rc,s',new,hr,hg,hmet⟩ := ih hbase hs
      · exact .inl hdeep
      · refine .inr ⟨rc,s',new,hr,hg,fun hrc d hd => ?_⟩
        rcases List.mem_cons.mp hd with rfl | hd
        · exact provides_mono hg.kept hp
        · exact hmet hrc d hd
    | false =>
      rw [if_neg Bool.false_ne_true]
      obtain hdeep | ⟨rc,s₁,hr,⟨hrc,hsame⟩ | ⟨rfl,new,hg⟩⟩ := hload dmodname (some verinfo) s ids hs
      · rw [hdeep]
        exact .inl rfl
      · rw [hr]
        dsimp only
        rw [if_pos hrc]
        exact .inr ⟨rc,s₁,[],rfl,hsame.grown hs,fun h => absurd h hrc⟩
      · rw [hr]
        dsimp only
        rw [if_neg (not_not_intro rfl),hg.ready.fileFindmodule]
        dsimp only
        cases hp' : s₁.provides (ids ++ new) dmodname (some verinfo) with
        | true =>
          rw [if_pos rfl]
          obtain hdeep | ⟨rc,s',more,hr',hg',hmet⟩ := ih (List.mem_append_left new hbase) hg.ready
          · exact .inl hdeep
          · refine .inr ⟨rc,s',new ++ more,hr',hg.trans hg',fun hrc d hd => ?_⟩
            rw [← List.append_assoc]
            rcases List.mem_cons.mp hd with rfl | hd
            · exact provides_mono hg'.kept hp'
            · exact hmet hrc d hd
        | false =>
          rw [if_neg Bool.false_ne_true]
          exact .inr ⟨enoent,s₁,new,rfl,hg,fun h => absurd h (by decide)⟩

/-- Where the dependencies of the last file cannot be met, it and all behind it are discarded. -/
theorem fileLoadDependencies_spec (hload : ∀ modname verinfo s ids, s.Ready ids → Atomic s ids (load modname verinfo s))
    (hs : s.Ready (ids ++ [a])) : fileLoadDependencies load a s = .error .deep ∨
      ∃ rc s', fileLoadDependencies load a s = .ok (rc,s') ∧
        (rc = 0 ∧ (∃ new, Grown s s' (ids ++ [a]) new ∧
            ∀ d ∈ (s.heap.cell a).deplist, s'.provides (ids ++ [a] ++ new) d.1 (some d.2) = true) ∨
          rc ≠ 0 ∧ (s.heap.cell a).deplist ≠ [] ∧ (∀ b ∈ ids, b ∈ s'.heap.live ∧ body (s'.heap.cell b) = body (s.heap.cell b)) ∧
            Threaded (fun b => (s'.heap.cell b).next) s'.preloadedFiles ids (some a)) := by
  have hbase : a ∈ ids ++ [a] := List.mem_append_right _ (List.mem_singleton_self a)
  unfold fileLoadDependencies
  rw [Store.read_of_mem (hs.live a hbase)]
  dsimp only [use,bind,Except.bind,pure,Except.pure]
  obtain hdeep | ⟨rc,s₁,new,hr,hg,hmet⟩ := dependLoop_spec hload hbase (s.heap.cell a).deplist hs
  · rw [hdeep]
    exact .inl rfl
  · rw [hr]
    dsimp only
    by_cases hrc : rc = 0
    · rw [if_pos hrc]
      exact .inr ⟨0,s₁,rfl,.inl ⟨rfl,new,hg,hmet hrc⟩⟩
    · rw [if_neg hrc]
      have hall : ids ++ [a] ++ new = ids ++ a :: new := by rw [List.append_assoc,List.singleton_append]
      have hthread := hg.ready.thread
      have hnodup := hg.ready.nodup
      have hlive := hg.ready.live
      rw [hall] at hthread hnodup hlive
      obtain ⟨r,hids,hrest⟩ := (threaded_append _ _ _ _).mp hthread
      obtain rfl : r = some a := hrest.1
      obtain ⟨-,hnodup',hdisj⟩ := List.nodup_append.mp hnodup
      have hle : (a :: new).length ≤ s₁.heap.live.length := by
        have := hg.ready.length_le
        rw [hall,List.length_append] at this
        omega
      obtain ⟨heap,hdis,hcell,hleft⟩ := discardFrom_spec hrest hnodup' (fun b hb => hlive b (List.mem_append_right _ hb)) hle
      rw [hdis]
      refine .inr ⟨rc,_,rfl,.inr ⟨hrc,?_,?_,?_⟩⟩
      · intro hnil
        rw [hnil] at hr
        cases hr
        exact hrc rfl
      · intro b hb
        dsimp only
        refine ⟨hleft b (hlive b (List.mem_append_left _ hb)) fun hb' => hdisj b hb b hb' rfl,?_⟩
        rw [hcell]
        exact hg.kept b (List.mem_append_left _ hb)
      · dsimp only
        rw [hcell]
        exact hids

/-- The new file at the end of the list: it is ready for the dependencies. -/
theorem NewFile.insert (h : NewFile s s₁ ids a) (hs : s.Ready ids) :
    ∃ s', {s₁ with loadaddr := (s₁.heap.cell a).addr+(s₁.heap.cell a).size}.fileInsertTail a = some s' ∧
      s'.Ready (ids ++ [a]) ∧ ∀ b, body (s'.heap.cell b) = body (s₁.heap.cell b) := by
  have h₁ : s₁.Holds ids := (h.toSameList.ready hs).toHolds
  have h₂ : ({s₁ with loadaddr := (s₁.heap.cell a).addr+(s₁.heap.cell a).size} : ModList).Holds ids :=
    ⟨h₁.thread,h₁.nodup,h₁.live⟩
  obtain ⟨s',hs',hholds,hbody,-,haddr⟩ := h₂.insertTail h.mem h.fresh
  refine ⟨s',hs',⟨hholds,?_⟩,hbody⟩
  intro b hb
  rw [List.getLast?_concat,Option.some.injEq] at hb
  subst hb
  obtain ⟨haddr',hsize,-⟩ := body_congr (hbody a)
  rw [haddr,haddr',hsize]

/-- Where the last file's dependencies are met, it and what was loaded for them are the new files. -/
theorem Grown.append {s₂ : ModList} (h : NewFile s s₁ ids a) (hbody : ∀ b, body (s₂.heap.cell b) = body (s₁.heap.cell b))
    (hg : Grown s₂ s' (ids ++ [a]) new)
    (hmet : ∀ d ∈ (s₂.heap.cell a).deplist, s'.provides (ids ++ [a] ++ new) d.1 (some d.2) = true) :
    Grown s s' ids (a :: new) := by
  have hall : ids ++ a :: new = ids ++ [a] ++ new := by rw [List.append_assoc,List.singleton_append]
  refine ⟨hall ▸ hg.ready,?_,?_⟩
  · intro b hb
    rw [hg.kept b (List.mem_append_left _ hb),hbody b,h.cells b hb]
  · intro b hb d hd
    rw [hall]
    rcases List.mem_cons.mp hb with rfl | hb
    · rw [(body_congr (hg.kept b (List.mem_append_right _ (List.mem_singleton_self b)))).2.2.1] at hd
      exact hmet d hd
    · exact hg.satisfied b hb d hd

/-- The list is cut behind the file that was the last one: it is what it was. -/
theorem SameList.cut {c : ℕ} {p : Option ℕ} (hs : s.Ready (ids ++ [c]))
    (hlive : ∀ b ∈ ids ++ [c], b ∈ s'.heap.live ∧ body (s'.heap.cell b) = body (s.heap.cell b))
    (ht : Threaded (fun b => (s'.heap.cell b).next) s'.preloadedFiles (ids ++ [c]) p) :
    SameList s {s' with
      heap := {s'.heap with cell := Function.update s'.heap.cell c {s'.heap.cell c with next := none}},
      loadaddr := (s'.heap.cell c).addr+(s'.heap.cell c).size} (ids ++ [c]) := by
  obtain ⟨hhead,hnext⟩ := hs.thread.agree ht
  have hc : c ∈ ids ++ [c] := List.mem_append_right _ (List.mem_singleton_self c)
  have hend : (s.heap.cell c).next = none := by
    obtain ⟨r,-,-,hr⟩ := (threaded_append _ _ _ _).mp hs.thread
    exact hr
  refine ⟨hhead,?_,fun b hb => (hlive b hb).1,?_⟩
  · intro b hb
    dsimp only
    have hbody := (hlive b hb).2
    by_cases hbc : b = c
    · subst hbc
      rw [Function.update_self]
      refine hbody.trans ?_
      rw [body,← hend]
    · rw [Function.update_of_ne hbc]
      have hmem : b ∈ ids := (List.mem_append.mp hb).resolve_right fun h => hbc (List.mem_singleton.mp h)
      have hn : (s'.heap.cell b).next = (s.heap.cell b).next := hnext b hmem
      calc s'.heap.cell b = {body (s'.heap.cell b) with next := (s'.heap.cell b).next} := rfl
        _ = {body (s.heap.cell b) with next := (s.heap.cell b).next} := by rw [hbody,hn]
        _ = s.heap.cell b := rfl
  · obtain ⟨haddr,hsize,-⟩ := body_congr (hlive c hc).2
    dsimp only
    rw [haddr,hsize,hs.ending c List.getLast?_concat]

/-- `mod_loadkld` is all or nothing, if the loads inside of it are. -/
theorem loadkld_spec (hload : ∀ modname verinfo s ids, s.Ready ids → Atomic s ids (load modname verinfo s))
    (hs : s.Ready ids) (kldname : String) : Atomic s ids (loadkld w load kldname s) := by
  obtain ⟨s₀,hs₀⟩ : ∃ s₀, s₀ = {s with calls := s.calls+1} := ⟨_,rfl⟩
  have hsame : SameList s s₀ ids := by
    rw [hs₀]
    exact ⟨rfl,fun _ _ => rfl,hs.live,rfl⟩
  have h₀ := hsame.ready hs
  unfold loadkld
  rw [← hs₀]
  cases w.fileSearch s.calls kldname with
  | none => exact .inr ⟨enoent,s₀,rfl,.inl ⟨by decide,hsame⟩⟩
  | some filename =>
    dsimp only
    rw [ModList.fileFindfile,h₀.search]
    dsimp only [use,bind,Except.bind,pure,Except.pure]
    cases ids.find? fun a => decide ((s₀.heap.cell a).name = filename) with
    | some b => exact .inr ⟨0,s₀,rfl,.inr ⟨rfl,[],hsame.grown hs⟩⟩
    | none =>
      dsimp only
      rw [h₀.last]
      dsimp only
      obtain ⟨e,s₁,hr,he,hsame₁⟩ | ⟨a,s₁,hr,hnew⟩ := fileLoad_spec (w := w) h₀.toHolds filename
      · rw [hr]
        refine .inr ⟨e,s₁,rfl,.inl ⟨he,hsame₁.head.trans hsame.head,?_,hsame₁.live,hsame₁.loadaddr.trans hsame.loadaddr⟩⟩
        exact fun b hb => (hsame₁.cells b hb).trans (hsame.cells b hb)
      · rw [hr]
        dsimp only
        rw [Store.read_of_mem hnew.mem]
        dsimp only
        obtain ⟨s₂,hins,h₂,hbody⟩ := hnew.insert h₀
        rw [hins]
        dsimp only
        obtain hdeep | ⟨rc,s₃,hr₃,⟨rfl,new,hg,hmet⟩ | ⟨hrc,hdeps,hleft,ht⟩⟩ := fileLoadDependencies_spec hload h₂
        · rw [hdeep]
          exact .inl rfl
        · rw [hr₃]
          have hgrown := hg.append hnew hbody hmet
          refine .inr ⟨0,s₃,rfl,.inr ⟨rfl,a :: new,hgrown.ready,?_,hgrown.satisfied⟩⟩
          exact fun b hb => (hgrown.kept b hb).trans (congrArg body (hsame.cells b hb))
        · rw [hr₃]
          dsimp only
          rw [if_neg hrc]
          obtain rfl | ⟨pre,c,rfl⟩ := ids.eq_nil_or_concat
          · -- the first file is a kernel, which has no dependencies
            rw [(body_congr (hbody a)).2.2.1] at hdeps
            exact absurd (hnew.first rfl) hdeps
          · rw [List.concat_eq_append] at *
            have hlive : ∀ b ∈ pre ++ [c], b ∈ s₃.heap.live ∧ body (s₃.heap.cell b) = body (s.heap.cell b) := by
              intro b hb
              refine ⟨(hleft b hb).1,?_⟩
              rw [(hleft b hb).2,hbody b,hnew.cells b hb,hsame.cells b hb]
            have hc : c ∈ s₃.heap.live := (hlive c (by simp)).1
            rw [List.getLast?_concat]
            dsimp only
            rw [Store.modify_of_mem hc]
            dsimp only
            rw [Store.read_of_mem (by exact hc)]
            refine .inr ⟨enoent,_,rfl,.inl ⟨by decide,?_⟩⟩
            have hcut := SameList.cut hs hlive ht
            simpa using hcut

/-- With any number of levels of dependencies, `mod_load` is all or nothing. -/
theorem modLoad_spec (w : ModWorld) (depth : ℕ) (modname : String) (verinfo : Option ModDepend) (hs : s.Ready ids) :
    Atomic s ids (modLoad w depth modname verinfo s) := by
  induction depth generalizing modname verinfo s ids with
  | zero => exact .inl rfl
  | succ depth ih =>
    have hload : ∀ modname verinfo s ids, s.Ready ids → Atomic s ids (modLoad w depth modname verinfo s) :=
      fun modname verinfo _ _ h => ih modname verinfo h
    unfold modLoad
    split_ifs with hpath
    · exact loadkld_spec hload hs modname
    · rw [hs.fileFindmodule]
      dsimp only [use,bind,Except.bind,pure,Except.pure]
      split_ifs with hp
      · exact .inr ⟨0,s,rfl,.inr ⟨rfl,[],.refl hs⟩⟩
      · have hsame : SameList s {s with calls := s.calls+1} ids := ⟨rfl,fun _ _ => rfl,hs.live,rfl⟩
        cases w.searchmodule s.calls modname verinfo with
        | none => exact .inr ⟨enoent,_,rfl,.inl ⟨by decide,hsame⟩⟩
        | some filename =>
          -- the search leaves the list alone
          obtain hdeep | ⟨rc,s',hr,⟨hrc,h⟩ | ⟨rfl,new,hg⟩⟩ := loadkld_spec (w := w) hload (hsame.ready hs) filename
          · exact .inl hdeep
          · exact .inr ⟨rc,s',hr,.inl ⟨hrc,h.head,h.cells,h.live,h.loadaddr⟩⟩
          · exact .inr ⟨0,s',hr,.inr ⟨rfl,new,hg.ready,hg.kept,hg.satisfied⟩⟩

end Recursion

/-- Whatever the disk and the modules on it are, `mod_load` and `mod_loadkld` never follow a pointer to nothing or to a
discarded file. If they return an error, the list, its files and `loadaddr` are what they were, and if they return 0, the
new files are behind the old ones, and all that they require is there. -/
theorem mod_load_atomic (w : ModWorld) (depth : ℕ) {s : ModList} {ids : List ℕ} (hs : s.Ready ids) :
    (∀ modname verinfo, Atomic s ids (modLoad w depth modname verinfo s)) ∧
      ∀ kldname, Atomic s ids (modLoadkld w depth kldname s) :=
  ⟨fun modname verinfo => modLoad_spec w depth modname verinfo hs,
    fun kldname => loadkld_spec (fun modname verinfo _ _ => modLoad_spec w depth modname verinfo) hs kldname⟩

/-- A module `m` that requires `n`, of which there is no file. -/
def missingWorld : ModWorld where
  alloc := ⟨fun _ l => l.foldr max 0+1,fun _ l h => by
    have hle : l.foldr max 0+1 ≤ l.foldr max 0 := List.le_max_of_le' 0 h le_rfl
    omega⟩
  havepath _ := false
  fileSearch _ name := if name = "m" then some "/boot/m.ko" else none
  searchmodule _ _ _ := none
  formats := [.elf]
  file _ _ _ := ⟨none,.dyn,0,true,fun dest => (dest,64),[.version "m" 1,.depend "n" ⟨1,1,1⟩],true⟩
  fakeModname name := name

/-- A kernel is loaded. -/
def kernelList : ModList := ⟨⟨fun _ => ⟨"/boot/kernel",kerneltype,4096,8192,[],[],none⟩,[0],1⟩,some 0,12288,0,0⟩

theorem mod_load_atomic_missing : ∃ s', modLoadkld missingWorld 1 "m" kernelList = .ok (enoent,s') ∧
    SameList kernelList s' [0] := by
  have hready : kernelList.Ready [0] := by
    refine ⟨⟨⟨rfl,rfl⟩,List.nodup_singleton 0,fun a ha => ha⟩,fun a ha => ?_⟩
    cases ha
    rfl
  obtain ⟨s',hs'⟩ : ∃ s', modLoadkld missingWorld 1 "m" kernelList = .ok (enoent,s') := ⟨_,rfl⟩
  obtain h | ⟨rc,s'',h,h'⟩ := (mod_load_atomic missingWorld 1 hready).2 "m"
  · cases hs'.symm.trans h
  · cases hs'.symm.trans h
    exact ⟨s',hs',h'.elim (fun h => h.2) fun h => absurd h.1 (by decide)⟩

end Mod
end Blub.Boot
