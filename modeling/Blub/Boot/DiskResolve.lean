import Blub.Boot.DiskCache

/-! What a wildcard request for a partition comes to in `disk_open`, from the cache of open disks and without it. -/
namespace Blub.Boot
open Blub.Nodes

/-- Disks that do not change, by device and unit: their sizes, and what the partition table at an offset is read as. -/
structure Disks where
  geo : ℕ → ℤ → Geometry
  table : ℕ → ℤ → (offset sectors : ℤ) → (sectorsize : ℕ) → Option Ptable

namespace Disks
variable (D : Disks)

def world (alloc : Allocator) (malloc : ℕ → Bool) : DiskWorld where
  alloc := alloc
  malloc := malloc
  ptableOpen _ dev sectors sectorsize := D.table dev.dev dev.unit dev.offset sectors sectorsize

/-- The table of the whole disk. -/
def main (d : ℕ) (u : ℤ) : Option Ptable :=
  D.table d u 0 ((D.geo d u).mediasize/(D.geo d u).sectorsize) (D.geo d u).sectorsize

/-- The table at the start of a slice. -/
def label (d : ℕ) (u : ℤ) (part : PtableEntry) : Option Ptable :=
  D.table d u part.start ((part.stop : ℤ)-part.start+1) (D.geo d u).sectorsize

end Disks

/-- The slice that is asked for. -/
def slicePart (t : Ptable) (slice : ℤ) : Except ℤ PtableEntry :=
  if slice = 0 then ptableGetbestpart t else ptableGetpart t slice

/-- In a slice: 255 where the table is a GPT and only there, and a partition of its own unless there is no BSD label in the
slice or none is looked for. -/
def ConcreteIn (t : Ptable) (label : PtableEntry → Option Ptable) (partition : ℤ) (part : PtableEntry) : Prop :=
  if t.type = .gpt then partition = 255
  else partition ≠ 255 ∧ (partition < 0 → (partition = -1 ∧ part.type ≠ .dflyLegacy) ∨ ∀ l, label part = some l → ¬l.type.bsd)

/-- A request without wildcards: a partition of a BSD label, or no slice, or a slice by its number. -/
def Concrete (t : Ptable) (label : PtableEntry → Option Ptable) (slice partition : ℤ) : Prop :=
  (t.type.bsd ∧ 0 ≤ partition) ∨ slice < 0 ∨
    ∀ part, slicePart t slice = .ok part → part.index = slice ∧ ConcreteIn t label partition part

/-- The offset, the slice and the partition that a request for a slice stands for. -/
def resolveIn (t : Ptable) (label : PtableEntry → Option Ptable) (partition : ℤ) (part : PtableEntry) : Except ℤ (ℤ × ℤ × ℤ) :=
  if t.type = .gpt then .ok (part.start,part.index,255)
  else
    let q := if partition = 255 then -1 else partition
    if q = -1 ∧ part.type ≠ .dflyLegacy then .ok (part.start,part.index,q)
    else
      match label part with
      | none => .error enxioRc
      | some l =>
        if q < 0 ∧ ¬l.type.bsd then .ok (part.start,part.index,q)
        else
          let q := if q < 0 then 0 else q
          (ptableGetpart l q).map fun p => (part.start+p.start,part.index,q)

/-- The offset, the slice and the partition that a request stands for. -/
def resolve (t : Ptable) (label : PtableEntry → Option Ptable) (slice partition : ℤ) : Except ℤ (ℤ × ℤ × ℤ) :=
  if t.type.bsd ∧ 0 ≤ partition then (ptableGetpart t partition).map fun p => (p.start,slice,partition)
  else if slice < 0 then .ok (0,slice,partition)
  else (slicePart t slice).bind (resolveIn t label partition)

theorem map_ok {ε α β : Type*} {f : α → β} {x : Except ε α} {b : β} (h : x.map f = .ok b) : ∃ a, x = .ok a ∧ f a = b := by
  cases x with
  | error e => cases h
  | ok a =>
    cases h
    exact ⟨a,rfl,rfl⟩

section Part
variable (D : Disks) (alloc : Allocator) (malloc : ℕ → Bool)

/-- A result is the one of the request: an error, or the offset, the slice and the partition. -/
def PartResult.Is (r : PartResult) : Except ℤ (ℤ × ℤ × ℤ) → Prop
  | .error rc => r.rc = rc ∧ rc ≠ 0
  | .ok v => r.rc = 0 ∧ (r.dev.offset,r.slice,r.partition) = v

theorem ptableGetpart_error {t : Ptable} {index rc : ℤ} (h : ptableGetpart t index = .error rc) : rc ≠ 0 := by
  unfold ptableGetpart at h
  split at h
  · cases h
  · cases h
    decide

theorem slicePart_error {t : Ptable} {slice rc : ℤ} (h : slicePart t slice = .error rc) : rc ≠ 0 := by
  unfold slicePart at h
  split at h
  · unfold ptableGetbestpart at h
    split at h
    · cases h
    · cases h
      decide
  · exact ptableGetpart_error h

/-- `disk_open` from `opened` to `out` resolves the request. -/
theorem diskPart_resolve (reads : ℕ) {dev : DiskDevdesc} {od : OpenDisk} {t : Ptable} (hoff : dev.offset = 0)
    (hsize : od.sectorsize = (D.geo dev.dev dev.unit).sectorsize) :
    (diskPart (D.world alloc malloc) reads dev od t).Is (resolve t (D.label dev.dev dev.unit) dev.slice dev.partition) := by
  unfold diskPart resolve
  by_cases hbsd : t.type.bsd ∧ 0 ≤ dev.partition
  · rw [if_pos hbsd,if_pos hbsd]
    cases hp : ptableGetpart t dev.partition with
    | error rc => exact ⟨rfl,ptableGetpart_error hp⟩
    | ok p => exact ⟨rfl,rfl⟩
  · rw [if_neg hbsd,if_neg hbsd]
    by_cases hslice : dev.slice < 0
    · rw [if_neg (by omega),if_pos hslice]
      exact ⟨rfl,by rw [hoff]⟩
    · rw [if_pos (by omega),if_neg hslice]
      have hslicePart : (if dev.slice = 0 then ptableGetbestpart t else ptableGetpart t dev.slice) = slicePart t dev.slice := rfl
      rw [hslicePart]
      cases hp : slicePart t dev.slice with
      | error rc => exact ⟨rfl,slicePart_error hp⟩
      | ok part =>
        change PartResult.Is _ (resolveIn t _ dev.partition part)
        unfold resolveIn
        dsimp only
        by_cases hgpt : t.type = .gpt
        · rw [if_pos hgpt,if_pos hgpt]
          exact ⟨rfl,rfl⟩
        · rw [if_neg hgpt,if_neg hgpt]
          generalize (if dev.partition = 255 then (-1 : ℤ) else dev.partition) = q
          by_cases hraw : q = -1 ∧ part.type ≠ .dflyLegacy
          · rw [if_pos hraw,if_pos hraw]
            exact ⟨rfl,rfl⟩
          · rw [if_neg hraw,if_neg hraw]
            have hlabel : (D.world alloc malloc).ptableOpen reads {dev with offset := part.start}
                ((part.stop : ℤ)-part.start+1) od.sectorsize = D.label dev.dev dev.unit part := by
              rw [hsize]
              rfl
            rw [hlabel]
            cases D.label dev.dev dev.unit part with
            | none => exact ⟨rfl,by decide⟩
            | some l =>
              dsimp only
              by_cases hfs : q < 0 ∧ ¬l.type.bsd
              · rw [if_pos hfs,if_pos hfs]
                exact ⟨rfl,rfl⟩
              · rw [if_neg hfs,if_neg hfs]
                generalize (if q < 0 then (0 : ℤ) else q) = q'
                cases hp' : ptableGetpart l q' with
                | error rc => exact ⟨rfl,ptableGetpart_error hp'⟩
                | ok p => exact ⟨rfl,rfl⟩

theorem resolveIn_concrete_iff {t : Ptable} {label : PtableEntry → Option Ptable} {partition o s q : ℤ} {part : PtableEntry}
    (h : resolveIn t label partition part = .ok (o,s,q)) :
    s = part.index ∧ (q = partition ↔ ConcreteIn t label partition part) := by
  unfold resolveIn at h
  unfold ConcreteIn
  by_cases hgpt : t.type = .gpt
  · rw [if_pos hgpt] at h ⊢
    cases h
    exact ⟨rfl,eq_comm⟩
  · rw [if_neg hgpt] at h ⊢
    dsimp only at h
    obtain ⟨q',hq'⟩ : ∃ q', q' = if partition = 255 then (-1 : ℤ) else partition := ⟨_,rfl⟩
    rw [← hq'] at h
    have hsame : q' = partition ↔ partition ≠ 255 := by
      split_ifs at hq' <;> omega
    by_cases hraw : q' = -1 ∧ part.type ≠ .dflyLegacy
    · rw [if_pos hraw] at h
      cases h
      refine ⟨rfl,hsame.trans ⟨fun hp => ⟨hp,fun _ => .inl ⟨?_,hraw.2⟩⟩,fun hp => hp.1⟩⟩
      rw [← hsame.mpr hp,hraw.1]
    · rw [if_neg hraw] at h
      cases hlabel : label part with
      | none =>
        rw [hlabel] at h
        cases h
      | some l =>
        rw [hlabel] at h
        dsimp only at h
        by_cases hfs : q' < 0 ∧ ¬l.type.bsd
        · rw [if_pos hfs] at h
          cases h
          exact ⟨rfl,hsame.trans ⟨fun hp => ⟨hp,fun _ => .inr fun l' hl' => Option.some.inj hl' ▸ hfs.2⟩,fun hp => hp.1⟩⟩
        · rw [if_neg hfs] at h
          obtain ⟨p,hp,hv⟩ := map_ok h
          cases hv
          refine ⟨rfl,?_⟩
          by_cases hneg : q' < 0
          · rw [if_pos hneg]
            have hl : l.type.bsd := not_not.mp fun hn => hfs ⟨hneg,hn⟩
            constructor
            · intro h₀
              split_ifs at hq' <;> omega
            · rintro ⟨hne,hwhy⟩
              have hq := hsame.mpr hne
              rcases hwhy (hq ▸ hneg) with ⟨h₁,h₂⟩ | h₁
              · exact absurd ⟨hq.trans h₁,h₂⟩ hraw
              · exact absurd hl (h₁ l rfl)
          · rw [if_neg hneg]
            exact hsame.trans ⟨fun hp => ⟨hp,fun h₀ => absurd (hsame.mpr hp ▸ h₀) hneg⟩,fun hp => hp.1⟩

/-- A request is resolved to itself exactly if it has no wildcards. -/
theorem resolve_concrete_iff {t : Ptable} {label : PtableEntry → Option Ptable} {slice partition o s q : ℤ}
    (h : resolve t label slice partition = .ok (o,s,q)) : s = slice ∧ q = partition ↔ Concrete t label slice partition := by
  unfold resolve at h
  by_cases hbsd : t.type.bsd ∧ 0 ≤ partition
  · rw [if_pos hbsd] at h
    obtain ⟨p,hp,hv⟩ := map_ok h
    cases hv
    exact iff_of_true ⟨rfl,rfl⟩ (.inl hbsd)
  · rw [if_neg hbsd] at h
    by_cases hslice : slice < 0
    · rw [if_pos hslice] at h
      cases h
      exact iff_of_true ⟨rfl,rfl⟩ (.inr (.inl hslice))
    · rw [if_neg hslice] at h
      cases hp : slicePart t slice with
      | error rc =>
        rw [hp] at h
        cases h
      | ok part =>
        rw [hp] at h
        obtain ⟨rfl,hq⟩ := resolveIn_concrete_iff h
        simp [Concrete,hbsd,hslice,hp,hq]

end Part

section Runs
variable (D : Disks)

/-- An entry of the cache: the table of its disk is in memory, and its request stands for its offset. -/
structure Disks.Cached (heap : Store OpenDisk) (e : Dentry) : Prop where
  live : e.od ∈ heap.live
  size : (heap.cell e.od).sectorsize = (D.geo e.dev e.unit).sectorsize
  table : ∃ t s q, D.main e.dev e.unit = some t ∧ (heap.cell e.od).table = some t ∧
    resolve t (D.label e.dev e.unit) e.slice e.partition = .ok (e.offset,s,q)

variable {D} {w : DiskWorld} {s s' : DiskCache} {dev dev' : DiskDevdesc} {a flags : ℕ}

theorem Disks.Cached.congr {heap heap' : Store OpenDisk} {e : Dentry} (h : D.Cached heap e) (hlive : e.od ∈ heap'.live)
    (hcell : (heap'.cell e.od).table = (heap.cell e.od).table ∧ (heap'.cell e.od).sectorsize = (heap.cell e.od).sectorsize) :
    D.Cached heap' e := by
  refine ⟨hlive,hcell.2.trans h.size,?_⟩
  rw [hcell.1]
  exact h.table

/-- A hit has the request of the descriptor. -/
theorem diskLookup_hit {l : List Dentry} {rc : ℤ} (hrc : rc ≠ 0) (h : (diskLookup dev rc l).1 = 0) :
    ∃ e ∈ l, e.key = dev.key ∧ diskLookup dev rc l = (0,{dev with opendata := some e.od, offset := e.offset}) := by
  induction l generalizing dev rc with
  | nil => exact absurd h hrc
  | cons e l ih =>
    rw [diskLookup] at h ⊢
    by_cases hd : e.dev ≠ dev.dev ∨ e.unit ≠ dev.unit
    · rw [if_pos hd] at h ⊢
      obtain ⟨x,hx,hkey,hl⟩ := ih hrc h
      exact ⟨x,List.mem_cons_of_mem _ hx,hkey,hl⟩
    · rw [if_neg hd] at h ⊢
      dsimp only at h ⊢
      by_cases hp : e.slice = dev.slice ∧ e.partition = dev.partition
      · rw [if_pos hp]
        rw [not_or,not_not,not_not] at hd
        exact ⟨e,List.mem_cons_self,by rw [Dentry.key,DiskDevdesc.key,hd.1,hd.2,hp.1,hp.2],rfl⟩
      · rw [if_neg hp] at h ⊢
        obtain ⟨x,hx,hkey,hl⟩ := ih (by decide) h
        exact ⟨x,List.mem_cons_of_mem _ hx,hkey,hl⟩

/-- The heap after an insertion differs in the count of one structure. -/
theorem diskInsert_cached (ha : a ∈ s.heap.live) (hd : dev.opendata = some a) (hs : ∀ e ∈ s.openedDisks, D.Cached s.heap e)
    (hnew : D.Cached s.heap ⟨dev.dev,dev.unit,dev.slice,dev.partition,a,dev.offset⟩) (h : diskInsert w s dev = some s') :
    ∀ e ∈ s'.openedDisks, D.Cached s'.heap e := by
  unfold diskInsert at h
  split at h
  · cases h
    exact hs
  · simp only [hd,Store.modify_of_mem ha,Option.bind_eq_bind,Option.bind_some,Option.pure_def,Option.some.injEq] at h
    rw [← h]
    have hkeep {e : Dentry} (he : D.Cached s.heap e) : D.Cached
        {s.heap with cell := Function.update s.heap.cell a {s.heap.cell a with rcnt := (s.heap.cell a).rcnt+1}} e := by
      refine he.congr he.live ?_
      by_cases hea : e.od = a
      · simp [hea]
      · simp [Function.update_of_ne hea]
    intro e he
    rcases List.mem_append.mp he with hold | hnew'
    · exact hkeep (hs e hold)
    · rw [List.mem_singleton.mp hnew']
      exact hkeep hnew

theorem diskOut_rc {r : PartResult} {rc : ℤ} (h : diskOut w s a flags r = some (rc,dev',s')) : r.rc = rc := by
  unfold diskOut at h
  split at h
  · obtain ⟨od,_,h⟩ := Option.bind_eq_some_iff.mp h
    split at h
    · obtain ⟨heap,_,h⟩ := Option.bind_eq_some_iff.mp h
      cases h
      rfl
    · cases h
      rfl
  · rename_i hrc
    have hzero : rc = 0 := by
      split at h
      · cases h
        rfl
      · obtain ⟨s₁,_,h⟩ := Option.bind_eq_some_iff.mp h
        cases h
        rfl
    rw [hzero]
    exact not_not.mp hrc

/-- `disk_open` from `opened` on, of a disk whose table is in memory. -/
theorem diskOpened_resolve {alloc : Allocator} {malloc : ℕ → Bool} {t : Ptable}
    (h : diskOpened (D.world alloc malloc) s dev a flags = some (0,dev',s')) (ha : a ∈ s.heap.live)
    (ht : (s.heap.cell a).table = some t) (hmain : D.main dev.dev dev.unit = some t)
    (hsize : (s.heap.cell a).sectorsize = (D.geo dev.dev dev.unit).sectorsize) (hoff : dev.offset = 0)
    (hd : dev.opendata = some a) (hs : ∀ e ∈ s.openedDisks, D.Cached s.heap e) (hflags : nocache flags = false) :
    (∀ e ∈ s'.openedDisks, D.Cached s'.heap e) ∧
      resolve t (D.label dev.dev dev.unit) dev.slice dev.partition = .ok (dev'.offset,dev'.slice,dev'.partition) := by
  have hr := diskPart_resolve D alloc malloc s.reads (t := t) hoff hsize
  obtain ⟨o,ho⟩ := diskPart_dev (D.world alloc malloc) s.reads dev (s.heap.cell a) t
  simp only [diskOpened,Store.read_of_mem ha,ht,Option.bind_eq_bind,Option.bind_some] at h
  obtain ⟨r,hrdef⟩ : ∃ r, r = diskPart (D.world alloc malloc) s.reads dev (s.heap.cell a) t := ⟨_,rfl⟩
  rw [← hrdef] at hr ho h
  cases hres : resolve t (D.label dev.dev dev.unit) dev.slice dev.partition with
  | error rc =>
    rw [hres] at hr
    exact absurd (diskOut_rc h) (hr.1 ▸ hr.2)
  | ok v =>
    rw [hres] at hr
    obtain ⟨hrc,hv⟩ := hr
    unfold diskOut at h
    rw [if_neg (not_not_intro hrc)] at h
    simp only [hflags,Bool.false_eq_true,if_false,Option.bind_eq_bind] at h
    obtain ⟨s₁,hins,h⟩ := Option.bind_eq_some_iff.mp h
    simp only [Option.pure_def,Option.some.injEq,Prod.mk.injEq,true_and] at h
    obtain ⟨hdev,rfl⟩ := h
    refine ⟨?_,?_⟩
    · refine diskInsert_cached (by exact ha) (by rw [ho]; exact hd) (by exact hs) ?_ hins
      rw [ho]
      have hvo : o = v.1 := by
        rw [← hv,ho]
      exact ⟨ha,hsize,t,v.2.1,v.2.2,hmain,ht,by rw [hvo]; exact hres⟩
    · rw [← hv,← hdev]

/-- `disk_open` of a disk that has no structure yet. -/
theorem diskFresh_resolve {alloc : Allocator} {malloc : ℕ → Bool} (hoff : dev.offset = 0)
    (hs : ∀ e ∈ s.openedDisks, D.Cached s.heap e) (hflags : nocache flags = false)
    (h : diskFresh (D.world alloc malloc) s dev (D.geo dev.dev dev.unit) flags = some (0,dev',s')) :
    (∀ e ∈ s'.openedDisks, D.Cached s'.heap e) ∧ ∃ t, D.main dev.dev dev.unit = some t ∧
      resolve t (D.label dev.dev dev.unit) dev.slice dev.partition = .ok (dev'.offset,dev'.slice,dev'.partition) := by
  unfold diskFresh at h
  by_cases hmalloc : ¬(D.world alloc malloc).malloc s.mallocs
  · rw [if_pos hmalloc] at h
    simp only [Option.some.injEq,Prod.mk.injEq] at h
    exact absurd h.1 (by decide)
  · rw [if_neg hmalloc] at h
    have hmain : (D.world alloc malloc).ptableOpen s.reads
        {dev with opendata := some (alloc.pick s.heap.born s.heap.live)}
        ((D.geo dev.dev dev.unit).mediasize/(D.geo dev.dev dev.unit).sectorsize) (D.geo dev.dev dev.unit).sectorsize =
        D.main dev.dev dev.unit := by
      simp only [Disks.world,Disks.main,hoff]
    simp only [Store.alloc,Nat.add_sub_cancel] at h
    rw [show (D.world alloc malloc).alloc = alloc from rfl,hmain] at h
    cases ht : D.main dev.dev dev.unit with
    | none =>
      rw [ht] at h
      exact absurd (diskOut_rc h) (show enxioRc ≠ 0 by decide)
    | some t =>
      rw [ht] at h
      dsimp only at h
      have hnot : alloc.pick s.heap.born s.heap.live ∉ s.heap.live := alloc.fresh _ _
      obtain ⟨a,ha⟩ : ∃ a, a = alloc.pick s.heap.born s.heap.live := ⟨_,rfl⟩
      rw [← ha] at h hnot
      rw [Store.modify_of_mem List.mem_cons_self] at h
      obtain ⟨heap,hheap,h⟩ := Option.bind_eq_some_iff.mp h
      rw [Option.some.injEq] at hheap
      subst hheap
      obtain ⟨hkept,hres⟩ := diskOpened_resolve h List.mem_cons_self (by simp) ht (by simp) hoff rfl (fun e he => by
        have hold := hs e he
        have hne : e.od ≠ a := fun heq => hnot (heq ▸ hold.live)
        exact hold.congr (List.mem_cons_of_mem _ hold.live) (by simp [Function.update_of_ne hne])) hflags
      exact ⟨hkept,t,rfl,hres⟩

/-- A successful `disk_open` is answered from the cache, or resolves the request. -/
theorem diskOpen_resolve {alloc : Allocator} {malloc : ℕ → Bool} (hs : ∀ e ∈ s.openedDisks, D.Cached s.heap e)
    (hflags : nocache flags = false)
    (h : diskOpen (D.world alloc malloc) s dev (D.geo dev.dev dev.unit) flags = some (0,dev',s')) :
    (∀ e ∈ s'.openedDisks, D.Cached s'.heap e) ∧
      ((diskLookup dev enoentRc s.openedDisks).1 = 0 ∨ ∃ t, D.main dev.dev dev.unit = some t ∧
        resolve t (D.label dev.dev dev.unit) dev.slice dev.partition = .ok (dev'.offset,dev'.slice,dev'.partition)) := by
  unfold diskOpen at h
  simp only [hflags,Bool.false_eq_true,if_false,not_false_eq_true,true_and] at h
  by_cases hhit : (diskLookup dev enoentRc s.openedDisks).1 = 0
  · rw [if_pos hhit] at h
    cases h
    exact ⟨hs,.inl hhit⟩
  · rw [if_neg hhit] at h
    rcases diskLookup_cases s.openedDisks dev enoentRc with ⟨e,_,_,hl⟩ | ⟨e,he,⟨hdev,hunit⟩,_,hl⟩ | ⟨_,hl⟩
    · rw [hl] at hhit
      exact absurd rfl hhit
    · rw [hl] at h
      simp only [if_true,Option.bind_eq_bind,Option.bind_some] at h
      obtain ⟨hlive,hsize,t,_,_,hmain,ht,_⟩ := hs e he
      rw [hdev,hunit] at hmain hsize
      obtain ⟨hkept,hres⟩ := diskOpened_resolve h hlive ht hmain hsize rfl rfl hs hflags
      exact ⟨hkept,.inr ⟨t,hmain,hres⟩⟩
    · rw [hl] at h
      dsimp only at h
      rw [if_neg (by decide)] at h
      obtain ⟨hkept,hres⟩ := diskFresh_resolve (D := D) rfl hs hflags h
      exact ⟨hkept,.inr hres⟩

/-- With memory, a request that can be resolved is opened. -/
theorem diskOpened_opens (alloc : Allocator) {t : Ptable} {v : ℤ × ℤ × ℤ} (ha : a ∈ s.heap.live)
    (ht : (s.heap.cell a).table = some t) (hsize : (s.heap.cell a).sectorsize = (D.geo dev.dev dev.unit).sectorsize)
    (hoff : dev.offset = 0) (hd : dev.opendata = some a) (hflags : nocache flags = false)
    (hres : resolve t (D.label dev.dev dev.unit) dev.slice dev.partition = .ok v) :
    ∃ dev' s', diskOpened (D.world alloc fun _ => true) s dev a flags = some (0,dev',s') := by
  have hr := diskPart_resolve D alloc (fun _ => true) s.reads (t := t) hoff hsize
  obtain ⟨o,ho⟩ := diskPart_dev (D.world alloc fun _ => true) s.reads dev (s.heap.cell a) t
  rw [hres] at hr
  simp only [diskOpened,Store.read_of_mem ha,ht,Option.bind_eq_bind,Option.bind_some]
  obtain ⟨r,hrdef⟩ : ∃ r, r = diskPart (D.world alloc fun _ => true) s.reads dev (s.heap.cell a) t := ⟨_,rfl⟩
  rw [← hrdef] at hr ho ⊢
  have hdata : r.dev.opendata = some a := by rw [ho]; exact hd
  unfold diskOut
  rw [if_neg (not_not_intro hr.1)]
  simp only [hflags,Bool.false_eq_true,if_false,diskInsert,Disks.world,not_true_eq_false,hdata,Store.modify_of_mem ha,
    Option.bind_eq_bind,Option.bind_some,Option.pure_def]
  exact ⟨_,_,rfl⟩

theorem diskFresh_opens (alloc : Allocator) {t : Ptable} {v : ℤ × ℤ × ℤ} (hoff : dev.offset = 0)
    (hmain : D.main dev.dev dev.unit = some t)
    (hres : resolve t (D.label dev.dev dev.unit) dev.slice dev.partition = .ok v) (hflags : nocache flags = false) :
    ∃ dev' s', diskFresh (D.world alloc fun _ => true) s dev (D.geo dev.dev dev.unit) flags = some (0,dev',s') := by
  have htable : (D.world alloc fun _ => true).ptableOpen s.reads
      {dev with opendata := some (alloc.pick s.heap.born s.heap.live)}
      ((D.geo dev.dev dev.unit).mediasize/(D.geo dev.dev dev.unit).sectorsize) (D.geo dev.dev dev.unit).sectorsize = some t := by
    rw [← hmain]
    simp only [Disks.world,Disks.main,hoff]
  unfold diskFresh
  rw [if_neg (by simp [Disks.world])]
  simp only [Store.alloc,Nat.add_sub_cancel]
  rw [show (D.world alloc fun _ => true).alloc = alloc from rfl,htable]
  dsimp only
  rw [Store.modify_of_mem List.mem_cons_self,Option.bind_eq_bind,Option.bind_some]
  exact diskOpened_opens (D := D) (t := t) alloc List.mem_cons_self (by simp) (by simp) hoff rfl hflags hres

/-- The cache after opens that succeed, of disks that do not change. -/
inductive Disks.Opens (D : Disks) (alloc : Allocator) (malloc : ℕ → Bool) : DiskCache → Prop
  | empty : D.Opens alloc malloc noDisks.cache
  | open {s s' : DiskCache} (dev : DiskDevdesc) {dev' : DiskDevdesc} (flags : ℕ) (hs : D.Opens alloc malloc s)
      (hflags : nocache flags = false) (h : diskOpen (D.world alloc malloc) s dev (D.geo dev.dev dev.unit) flags = some (0,dev',s')) : D.Opens alloc malloc s'

theorem Disks.Opens.cached {alloc : Allocator} {malloc : ℕ → Bool} (hs : D.Opens alloc malloc s) :
    ∀ e ∈ s.openedDisks, D.Cached s.heap e := by
  induction hs with
  | empty => exact fun e he => absurd he List.not_mem_nil
  | «open» _ _ _ hflags h ih => exact (diskOpen_resolve ih hflags h).1

/-- An open that is answered from the cache agrees with one of the same request without a cache exactly if the request has no
wildcards. -/
theorem cached_open_agrees_iff {alloc : Allocator} {malloc : ℕ → Bool} (hs : D.Opens alloc malloc s) (dev : DiskDevdesc)
    (flags : ℕ) (hflags : nocache flags = false) (hhit : (diskLookup dev enoentRc s.openedDisks).1 = 0) :
    ∃ t cached fresh s₀, D.main dev.dev dev.unit = some t ∧
      diskOpen (D.world alloc malloc) s dev (D.geo dev.dev dev.unit) flags = some (0,cached,s) ∧
      diskOpen (D.world alloc fun _ => true) noDisks.cache dev (D.geo dev.dev dev.unit) flags = some (0,fresh,s₀) ∧
      (cached.offset = fresh.offset ∧ cached.slice = fresh.slice ∧ cached.partition = fresh.partition ↔
        Concrete t (D.label dev.dev dev.unit) dev.slice dev.partition) := by
  obtain ⟨e,he,hkey,hl⟩ := diskLookup_hit (by decide) hhit
  obtain ⟨_,_,t,sl,q,hmain,_,hres⟩ := hs.cached e he
  simp only [Dentry.key,DiskDevdesc.key,Prod.mk.injEq] at hkey
  obtain ⟨hdev,hunit,hslice,hpart⟩ := hkey
  rw [hdev,hunit] at hmain
  rw [hdev,hunit,hslice,hpart] at hres
  have hcached : diskOpen (D.world alloc malloc) s dev (D.geo dev.dev dev.unit) flags =
      some (0,{dev with opendata := some e.od, offset := e.offset},s) := by
    simp [diskOpen,hflags,hl]
  have hempty : diskOpen (D.world alloc fun _ => true) noDisks.cache dev (D.geo dev.dev dev.unit) flags =
      diskFresh (D.world alloc fun _ => true) noDisks.cache {dev with offset := 0} (D.geo dev.dev dev.unit) flags := by
    simp only [diskOpen,hflags,Bool.false_eq_true,if_false,noDisks,diskLookup]
    rfl
  obtain ⟨fresh,s₀,hfresh⟩ : ∃ fresh s₀, diskFresh (D.world alloc fun _ => true) noDisks.cache {dev with offset := 0}
      (D.geo dev.dev dev.unit) flags = some (0,fresh,s₀) := diskFresh_opens alloc rfl hmain hres hflags
  obtain ⟨_,t',hmain',hres'⟩ := diskFresh_resolve (by rfl) (fun e he => absurd he List.not_mem_nil) hflags hfresh
  rw [Option.some.inj (hmain'.symm.trans hmain),show resolve t _ _ _ = _ from hres,Except.ok.injEq,Prod.mk.injEq,
    Prod.mk.injEq] at hres'
  obtain ⟨hoff,hsl,hq⟩ := hres'
  refine ⟨t,_,fresh,s₀,hmain,hcached,hempty.trans hfresh,?_⟩
  rw [← resolve_concrete_iff hres,hsl,hq]
  simp only [hoff,true_and]
  exact and_congr eq_comm eq_comm

/-- Disks with one UFS partition each, in a GPT. -/
def ufsDisks : Disks where
  geo _ _ := thousand
  table _ _ _ _ _ := some ⟨.gpt,[⟨64,1063,1,.dflyUfs1⟩],some ⟨64,1063,1,.dflyUfs1⟩⟩

def ufsDesc (slice partition : ℤ) : DiskDevdesc := ⟨0,0,none,slice,partition,0⟩

/-- A partition of the GPT by its number. -/
theorem cached_open_agrees_number :
    ∃ s cached fresh s₀, ufsDisks.Opens gptDisks.alloc (fun _ => true) s ∧
      diskOpen (ufsDisks.world gptDisks.alloc fun _ => true) s (ufsDesc 1 255) thousand 0 = some (0,cached,s) ∧
      diskOpen (ufsDisks.world gptDisks.alloc fun _ => true) noDisks.cache (ufsDesc 1 255) thousand 0 = some (0,fresh,s₀) ∧
      cached.offset = fresh.offset ∧ cached.slice = fresh.slice ∧ cached.partition = fresh.partition := by
  obtain ⟨s,hs,hhit⟩ : ∃ s, ufsDisks.Opens gptDisks.alloc (fun _ => true) s ∧
      (diskLookup (ufsDesc 1 255) enoentRc s.openedDisks).1 = 0 :=
    ⟨_,.open (ufsDesc 1 255) 0 .empty rfl rfl,rfl⟩
  obtain ⟨t,cached,fresh,s₀,hmain,hcached,hfresh,hiff⟩ := cached_open_agrees_iff hs (ufsDesc 1 255) 0 rfl hhit
  cases hmain
  refine ⟨s,cached,fresh,s₀,hs,hcached,hfresh,hiff.mpr (.inr (.inr fun part hpart => ?_))⟩
  cases hpart
  exact ⟨rfl,rfl⟩

/-- The best partition: the second open leaves the wildcards. -/
theorem cached_open_wildcard :
    ∃ s cached fresh s₀, ufsDisks.Opens gptDisks.alloc (fun _ => true) s ∧
      diskOpen (ufsDisks.world gptDisks.alloc fun _ => true) s (ufsDesc 0 (-1)) thousand 0 = some (0,cached,s) ∧
      diskOpen (ufsDisks.world gptDisks.alloc fun _ => true) noDisks.cache (ufsDesc 0 (-1)) thousand 0 = some (0,fresh,s₀) ∧
      (fresh.slice = 1 ∧ fresh.partition = 255) ∧ cached.slice = 0 ∧ cached.partition = -1 :=
  ⟨_,_,_,_,.open (ufsDesc 0 (-1)) 0 .empty rfl rfl,rfl,rfl,⟨rfl,rfl⟩,rfl,rfl⟩

end Runs
end Blub.Boot
