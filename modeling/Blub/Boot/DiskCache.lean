import Blub.Boot.Disk

/-! Who owns an open disk: the cached entries that count themselves in it, or the one descriptor that was opened
past the cache. -/
namespace Blub.Boot
open Blub.Nodes

section Ownership

def Dentry.key (e : Dentry) : ℕ × ℤ × ℤ × ℤ := (e.dev,e.unit,e.slice,e.partition)

def DiskDevdesc.key (dev : DiskDevdesc) : ℕ × ℤ × ℤ × ℤ := (dev.dev,dev.unit,dev.slice,dev.partition)

/-- The number of entries that refer to an open disk. -/
def referred (l : List Dentry) (a : ℕ) : ℕ := l.countP fun e => e.od = a

/-- The entries `l` share the open disks in memory, but for those in `own`, which nobody has cached. -/
structure Kept (h : Store OpenDisk) (l : List Dentry) (own : List ℕ) : Prop where
  keys : (l.map Dentry.key).Nodup
  share : ∀ e ∈ l, ∀ e' ∈ l, e.dev = e'.dev → e.unit = e'.unit → e.od = e'.od
  live : ∀ e ∈ l, e.od ∈ h.live
  counted : ∀ a ∈ h.live, (h.cell a).rcnt = referred l a
  ownNodup : own.Nodup
  ownLive : ∀ a ∈ own, a ∈ h.live
  alone : ∀ a ∈ own, referred l a = 0
  needed : ∀ a ∈ h.live, a ∈ own ∨ 0 < referred l a

/-- The flags tell the open disks in `own` from the cached ones, and all have a partition table. -/
structure Marked (h : Store OpenDisk) (own : List ℕ) : Prop where
  flags : ∀ a ∈ h.live, nocache (h.cell a).flags = true ↔ a ∈ own
  table : ∀ a ∈ h.live, (h.cell a).table.isSome

/-- An open disk with another count. -/
def countBy (f : ℤ → ℤ) (h : Store OpenDisk) (a : ℕ) : Store OpenDisk :=
  { h with cell := Function.update h.cell a { h.cell a with rcnt := f (h.cell a).rcnt } }

/-- What is still in memory is what it was, but for the counts. -/
def Within (h h' : Store OpenDisk) : Prop :=
  ∀ a ∈ h'.live, a ∈ h.live ∧ (h'.cell a).flags = (h.cell a).flags ∧ (h'.cell a).table = (h.cell a).table

end Ownership

section Marks
variable {h h' : Store OpenDisk} {own : List ℕ}

theorem Within.refl (h : Store OpenDisk) : Within h h := fun _ ha => ⟨ha,rfl,rfl⟩

theorem Within.trans {h₁ h₂ h₃ : Store OpenDisk} (h12 : Within h₁ h₂) (h23 : Within h₂ h₃) : Within h₁ h₃ := by
  intro a ha
  obtain ⟨h2,hf,ht⟩ := h23 a ha
  obtain ⟨h1,hf',ht'⟩ := h12 a h2
  exact ⟨h1,hf.trans hf',ht.trans ht'⟩

theorem Within.marked (hw : Within h h') (hm : Marked h own) : Marked h' own := by
  refine ⟨fun a ha => ?_,fun a ha => ?_⟩
  · obtain ⟨ha',hf,-⟩ := hw a ha
    rw [hf]
    exact hm.flags a ha'
  · obtain ⟨ha',-,ht⟩ := hw a ha
    rw [ht]
    exact hm.table a ha'

theorem free_within (h : Store OpenDisk) (a : ℕ) : Within h { h with live := h.live.filter (· ≠ a) } :=
  fun _ hb => ⟨(List.mem_filter.mp hb).1,rfl,rfl⟩

theorem countBy_within (f : ℤ → ℤ) (h : Store OpenDisk) (a : ℕ) : Within h (countBy f h a) := by
  intro b hb
  by_cases hba : b = a
  · subst hba
    simp only [countBy,Function.update_self]
    exact ⟨hb,trivial,trivial⟩
  · simp only [countBy,Function.update_of_ne hba]
    exact ⟨hb,trivial,trivial⟩

end Marks

section Entries
variable {h : Store OpenDisk} {l : List Dentry} {own : List ℕ} {a : ℕ} {e : Dentry}

theorem referred_pos (he : e ∈ l) : 0 < referred l e.od :=
  List.countP_pos_iff.mpr ⟨e,he,decide_eq_true rfl⟩

theorem referred_pos_iff : 0 < referred l a ↔ ∃ e ∈ l, e.od = a := by
  simp [referred,List.countP_pos_iff]

theorem referred_snoc (l : List Dentry) (e : Dentry) (a : ℕ) :
    referred (l ++ [e]) a = referred l a + if e.od = a then 1 else 0 := by
  simp [referred,List.countP_append,List.countP_cons]

theorem referred_middle (l₁ l₂ : List Dentry) (e : Dentry) (a : ℕ) :
    referred (l₁ ++ e :: l₂) a = referred (l₁ ++ l₂) a + if e.od = a then 1 else 0 := by
  simp only [referred,List.countP_append,List.countP_cons,decide_eq_true_eq]
  omega

/-- A cached open disk is not one that a descriptor has for itself. -/
theorem Kept.notMem_own (hk : Kept h l own) (he : e ∈ l) : e.od ∉ own := by
  intro ho
  have h0 := hk.alone _ ho
  have hp := referred_pos he
  omega

theorem Kept.rcnt_pos (hk : Kept h l own) (he : e ∈ l) : 1 ≤ (h.cell e.od).rcnt := by
  have hp := referred_pos he
  rw [hk.counted _ (hk.live e he)]
  omega

/-- A new open disk belongs to the descriptor that it is for. -/
theorem Kept.alloc (hk : Kept h l own) (m : Allocator) (od : OpenDisk) (h0 : od.rcnt = 0) :
    Kept (h.alloc m od).2 l ((h.alloc m od).1 :: own) := by
  have hf := Store.alloc_notMem (s := h) m
  have hne : ∀ b ∈ h.live, b ≠ m.pick h.born h.live := fun b hb hab => hf (hab ▸ hb)
  have hfr : referred l (m.pick h.born h.live) = 0 := by
    by_contra hn
    obtain ⟨e,he,hea⟩ := referred_pos_iff.mp (Nat.pos_of_ne_zero hn)
    exact hf (hea ▸ hk.live e he)
  refine ⟨hk.keys,hk.share,fun e he => List.mem_cons_of_mem _ (hk.live e he),?_,?_,?_,?_,?_⟩
  · intro b hb
    rcases List.mem_cons.mp hb with rfl | hb
    · simp only [Store.alloc,Function.update_self,h0,hfr,Nat.cast_zero]
    · simp only [Store.alloc,Function.update_of_ne (hne b hb),hk.counted b hb]
  · exact List.nodup_cons.mpr ⟨fun ho => hf (hk.ownLive _ ho),hk.ownNodup⟩
  · intro b hb
    rcases List.mem_cons.mp hb with rfl | hb
    · exact List.mem_cons_self
    · exact List.mem_cons_of_mem _ (hk.ownLive b hb)
  · intro b hb
    rcases List.mem_cons.mp hb with rfl | hb
    · exact hfr
    · exact hk.alone b hb
  · intro b hb
    rcases List.mem_cons.mp hb with rfl | hb
    · exact .inl List.mem_cons_self
    · exact (hk.needed b hb).imp_left (List.mem_cons_of_mem _)

/-- Nothing but the counts matters. -/
theorem Kept.update (hk : Kept h l own) (a : ℕ) (od : OpenDisk) (hr : od.rcnt = (h.cell a).rcnt) :
    Kept { h with cell := Function.update h.cell a od } l own := by
  refine { hk with counted := fun b hb => ?_ }
  by_cases hab : b = a
  · subst hab
    simp only [Function.update_self,hr,hk.counted b hb]
  · simp only [Function.update_of_ne hab,hk.counted b hb]

/-- An open disk that a descriptor has for itself goes. -/
theorem Kept.free (hk : Kept h l (a :: own)) : Kept { h with live := h.live.filter (· ≠ a) } l own := by
  obtain ⟨hao,hod⟩ := List.nodup_cons.mp hk.ownNodup
  have hlive : ∀ b, b ∈ h.live → b ≠ a → b ∈ h.live.filter (· ≠ a) := fun b hb hba =>
    List.mem_filter.mpr ⟨hb,decide_eq_true hba⟩
  have hold : ∀ b, b ∈ h.live.filter (· ≠ a) → b ∈ h.live ∧ b ≠ a := fun b hb =>
    ⟨(List.mem_filter.mp hb).1,of_decide_eq_true (List.mem_filter.mp hb).2⟩
  refine ⟨hk.keys,hk.share,fun e he => hlive _ (hk.live e he) fun hea => ?_,?_,hod,?_,?_,?_⟩
  · exact hk.notMem_own he (hea ▸ List.mem_cons_self)
  · exact fun b hb => hk.counted b (hold b hb).1
  · exact fun b hb => hlive b (hk.ownLive b (List.mem_cons_of_mem _ hb)) fun hba => hao (hba ▸ hb)
  · exact fun b hb => hk.alone b (List.mem_cons_of_mem _ hb)
  · intro b hb
    rcases hk.needed b (hold b hb).1 with ho | ho
    · exact .inl ((List.mem_cons.mp ho).resolve_left (hold b hb).2)
    · exact .inr ho

/-- A new entry counts itself in its open disk, which from then on is a cached one. -/
theorem Kept.insert (hk : Kept h l own) (ha : e.od ∈ h.live) (hkey : ∀ e' ∈ l, e'.key ≠ e.key)
    (hsh : ∀ e' ∈ l, e'.dev = e.dev → e'.unit = e.unit → e'.od = e.od) :
    Kept (countBy (· + 1) h e.od) (l ++ [e]) (own.filter (· ≠ e.od)) := by
  have hold : ∀ b, b ∈ own.filter (· ≠ e.od) → b ∈ own ∧ b ≠ e.od := fun b hb =>
    ⟨(List.mem_filter.mp hb).1,of_decide_eq_true (List.mem_filter.mp hb).2⟩
  refine ⟨?_,?_,?_,?_,hk.ownNodup.filter _,?_,?_,?_⟩
  · rw [List.map_append,List.nodup_append]
    refine ⟨hk.keys,List.nodup_singleton _,?_⟩
    rintro x hx y hy rfl
    obtain ⟨e',he',rfl⟩ := List.mem_map.mp hx
    exact hkey e' he' (List.mem_singleton.mp hy)
  · intro x hx y hy hd hu
    rcases List.mem_append.mp hx with hx' | hx' <;> rcases List.mem_append.mp hy with hy' | hy'
    · exact hk.share x hx' y hy' hd hu
    · obtain rfl := List.mem_singleton.mp hy'
      exact hsh x hx' hd hu
    · obtain rfl := List.mem_singleton.mp hx'
      exact (hsh y hy' hd.symm hu.symm).symm
    · rw [List.mem_singleton.mp hx',List.mem_singleton.mp hy']
  · intro x hx
    rcases List.mem_append.mp hx with hx | hx
    · exact hk.live x hx
    · exact List.mem_singleton.mp hx ▸ ha
  · intro b hb
    rw [referred_snoc]
    by_cases hbe : b = e.od
    · subst hbe
      simp only [countBy,Function.update_self,if_true,Nat.cast_add,Nat.cast_one,hk.counted _ ha]
    · simp only [countBy,Function.update_of_ne hbe,if_neg (Ne.symm hbe),Nat.add_zero,hk.counted b hb]
  · exact fun b hb => hk.ownLive b (hold b hb).1
  · intro b hb
    rw [referred_snoc,if_neg (Ne.symm (hold b hb).2),hk.alone b (hold b hb).1]
  · intro b hb
    rw [referred_snoc]
    by_cases hbe : b = e.od
    · exact .inr (by rw [if_pos hbe.symm]; omega)
    · exact (hk.needed b hb).imp (fun ho => List.mem_filter.mpr ⟨ho,decide_eq_true hbe⟩) fun ho => by omega

end Entries

section Cleanup
variable {h h' : Store OpenDisk} {l l₁ l₂ : List Dentry} {own own' : List ℕ} {e : Dentry}

/-- An entry goes. Its open disk still has other entries, or is nobody's from then on. -/
theorem Kept.countOut (hk : Kept h (l₁ ++ e :: l₂) own) (hn : own'.Nodup) (hsub : ∀ b ∈ own, b ∈ own')
    (hnew : ∀ b ∈ own', b ∈ own ∨ b = e.od ∧ referred (l₁ ++ l₂) e.od = 0)
    (hlast : e.od ∈ own' ∨ 0 < referred (l₁ ++ l₂) e.od) : Kept (countBy (· - 1) h e.od) (l₁ ++ l₂) own' := by
  have he : e ∈ l₁ ++ e :: l₂ := List.mem_append_right _ List.mem_cons_self
  have hmem : ∀ x ∈ l₁ ++ l₂, x ∈ l₁ ++ e :: l₂ := fun x hx =>
    (List.mem_append.mp hx).elim (List.mem_append_left _) fun hx =>
      List.mem_append_right _ (List.mem_cons_of_mem _ hx)
  refine ⟨?_,fun x hx y hy => hk.share x (hmem x hx) y (hmem y hy),fun x hx => hk.live x (hmem x hx),?_,hn,
    ?_,?_,?_⟩
  · have hs : (l₁ ++ l₂).Sublist (l₁ ++ e :: l₂) := List.Sublist.append_left (List.sublist_cons_self _ _) _
    exact hk.keys.sublist (hs.map _)
  · intro b hb
    have hc := hk.counted b hb
    rw [referred_middle] at hc
    by_cases hbe : b = e.od
    · subst hbe
      simp only [if_true] at hc
      simp only [countBy,Function.update_self,hc]
      omega
    · simp only [if_neg (Ne.symm hbe),Nat.add_zero] at hc
      simp only [countBy,Function.update_of_ne hbe,hc]
  · intro b hb
    rcases hnew b hb with ho | ⟨rfl,-⟩
    · exact hk.ownLive b ho
    · exact hk.live e he
  · intro b hb
    rcases hnew b hb with ho | ⟨rfl,h0⟩
    · have h0 := hk.alone b ho
      rw [referred_middle] at h0
      omega
    · exact h0
  · intro b hb
    by_cases hbe : b = e.od
    · exact hbe ▸ hlast
    · have ho := hk.needed b hb
      rw [referred_middle,if_neg (Ne.symm hbe)] at ho
      exact ho.imp_left (hsub b)

/-- `disk_cleanup` takes out the entries of the device. An open disk goes with its last entry. -/
theorem cleanupLoop_spec (d : ℕ) (l : List Dentry) : ∀ (h : Store OpenDisk) (p : List Dentry),
    Kept h (p ++ l) own → ∃ h', cleanupLoop d h l = some (h',l.filter fun e => e.dev ≠ d) ∧
      Kept h' (p ++ l.filter fun e => e.dev ≠ d) own ∧ Within h h' := by
  induction l with
  | nil => exact fun h p hk => ⟨h,rfl,hk,Within.refl h⟩
  | cons e l ih =>
    intro h p hk
    by_cases hd : e.dev ≠ d
    · obtain ⟨h',hl,hk',hw⟩ := ih h (p ++ [e]) (by rwa [List.append_assoc,List.singleton_append])
      have hf : (e :: l).filter (fun e => e.dev ≠ d) = e :: l.filter fun e => e.dev ≠ d :=
        List.filter_cons_of_pos (decide_eq_true hd)
      rw [hf]
      refine ⟨h',?_,by rwa [List.append_assoc,List.singleton_append] at hk',hw⟩
      simp only [cleanupLoop,if_pos hd,hl,Option.bind_eq_bind,Option.bind_some,Option.pure_def]
    · rw [List.filter_cons_of_neg (by simpa using hd)]
      have hlive := hk.live e (List.mem_append_right _ List.mem_cons_self)
      have hnot := hk.notMem_own (List.mem_append_right _ List.mem_cons_self)
      have hcount : ((countBy (· - 1) h e.od).cell e.od).rcnt = referred (p ++ l) e.od := by
        have hc := hk.counted _ hlive
        rw [referred_middle,if_pos rfl] at hc
        simp only [countBy,Function.update_self,hc]
        omega
      have hmod : h.modify e.od (fun od => { od with rcnt := od.rcnt-1 }) = some (countBy (· - 1) h e.od) :=
        Store.modify_of_mem hlive _
      have hread : (countBy (· - 1) h e.od).read e.od = some ((countBy (· - 1) h e.od).cell e.od) :=
        Store.read_of_mem hlive
      rw [cleanupLoop,if_neg hd]
      simp only [hmod,hread,Option.bind_eq_bind,Option.bind_some,hcount]
      by_cases h0 : referred (p ++ l) e.od = 0
      · have hc : ((referred (p ++ l) e.od : ℕ) : ℤ) < 1 := by omega
        have hk₁ : Kept (countBy (· - 1) h e.od) (p ++ l) (e.od :: own) :=
          hk.countOut (List.nodup_cons.mpr ⟨hnot,hk.ownNodup⟩) (fun b hb => List.mem_cons_of_mem _ hb)
            (fun b hb => (List.mem_cons.mp hb).elim (fun hbe => .inr ⟨hbe,h0⟩) .inl) (.inl List.mem_cons_self)
        obtain ⟨h',hl,hk',hw⟩ := ih _ p hk₁.free
        have hfree := Store.free_of_mem (s := countBy (· - 1) h e.od) hlive
        refine ⟨h',?_,hk',(countBy_within _ h e.od).trans ((free_within _ _).trans hw)⟩
        simp only [if_pos hc,hfree,Option.bind_some]
        exact hl
      · have hc : ¬ ((referred (p ++ l) e.od : ℕ) : ℤ) < 1 := by omega
        have hk₁ : Kept (countBy (· - 1) h e.od) (p ++ l) own :=
          hk.countOut hk.ownNodup (fun b hb => hb) (fun b hb => .inl hb) (.inr (Nat.pos_of_ne_zero h0))
        obtain ⟨h',hl,hk',hw⟩ := ih _ p hk₁
        refine ⟨h',?_,hk',(countBy_within _ h e.od).trans hw⟩
        simp only [if_neg hc]
        exact hl

end Cleanup

section Opening
variable {w : DiskWorld} {s : DiskCache} {h h₁ : Store OpenDisk} {l : List Dentry} {own : List ℕ}
  {dev : DiskDevdesc} {a flags : ℕ}

def Dentry.sameDisk (e : Dentry) (dev : DiskDevdesc) : Prop := e.dev = dev.dev ∧ e.unit = dev.unit

/-- The lookup finds the entry itself, or another one of the disk, or none of the disk. -/
theorem diskLookup_cases (l : List Dentry) : ∀ (dev : DiskDevdesc) (rc : ℤ),
    (∃ e ∈ l, e.sameDisk dev ∧
      diskLookup dev rc l = (0,{ dev with opendata := some e.od, offset := e.offset })) ∨
    (∃ e ∈ l, e.sameDisk dev ∧ (∀ e' ∈ l, e'.key ≠ dev.key) ∧
      diskLookup dev rc l = (eagainRc,{ dev with opendata := some e.od })) ∨
    (∀ e ∈ l, ¬ e.sameDisk dev) ∧ diskLookup dev rc l = (rc,dev) := by
  induction l with
  | nil => exact fun dev rc => .inr (.inr ⟨fun _ he => absurd he List.not_mem_nil,rfl⟩)
  | cons e l ih =>
    intro dev rc
    rw [diskLookup]
    by_cases hd : e.dev ≠ dev.dev ∨ e.unit ≠ dev.unit
    · have hnot : ¬ e.sameDisk dev := fun h => hd.elim (· h.1) (· h.2)
      have hkey : e.key ≠ dev.key := by
        intro hk
        simp only [Dentry.key,DiskDevdesc.key,Prod.mk.injEq] at hk
        exact hnot ⟨hk.1,hk.2.1⟩
      rw [if_pos hd]
      rcases ih dev rc with ⟨x,hx,hs,hl⟩ | ⟨x,hx,hs,hk,hl⟩ | ⟨hn,hl⟩
      · exact .inl ⟨x,List.mem_cons_of_mem _ hx,hs,hl⟩
      · exact .inr (.inl ⟨x,List.mem_cons_of_mem _ hx,hs,List.forall_mem_cons.mpr ⟨hkey,hk⟩,hl⟩)
      · exact .inr (.inr ⟨List.forall_mem_cons.mpr ⟨hnot,hn⟩,hl⟩)
    · obtain ⟨h₁,h₂⟩ := not_or.mp hd
      have hs : e.sameDisk dev := ⟨not_not.mp h₁,not_not.mp h₂⟩
      rw [if_neg hd]
      by_cases hp : e.slice = dev.slice ∧ e.partition = dev.partition
      · exact .inl ⟨e,List.mem_cons_self,hs,if_pos hp⟩
      · have hkey : e.key ≠ dev.key := by
          intro hk
          simp only [Dentry.key,DiskDevdesc.key,Prod.mk.injEq] at hk
          exact hp hk.2.2
        have hl : ∀ x, (if e.slice = dev.slice ∧ e.partition = dev.partition then x
            else diskLookup { dev with opendata := some e.od } eagainRc l) =
            diskLookup { dev with opendata := some e.od } eagainRc l := fun _ => if_neg hp
        rcases ih { dev with opendata := some e.od } eagainRc with ⟨x,hx,hs',hl'⟩ | ⟨x,hx,hs',hk,hl'⟩ | ⟨hn,hl'⟩
        · exact .inl ⟨x,List.mem_cons_of_mem _ hx,hs',(hl _).trans hl'⟩
        · exact .inr (.inl ⟨x,List.mem_cons_of_mem _ hx,hs',List.forall_mem_cons.mpr ⟨hkey,hk⟩,(hl _).trans hl'⟩)
        · refine .inr (.inl ⟨e,List.mem_cons_self,hs,List.forall_mem_cons.mpr ⟨hkey,fun x hx hk => ?_⟩,
            (hl _).trans hl'⟩)
          simp only [Dentry.key,DiskDevdesc.key,Prod.mk.injEq] at hk
          exact hn x hx ⟨hk.1,hk.2.1⟩

/-- The partition tables only tell where the partition starts. -/
theorem diskPart_dev (w : DiskWorld) (reads : ℕ) (dev : DiskDevdesc) (od : OpenDisk) (table : Ptable) :
    ∃ o, (diskPart w reads dev od table).dev = { dev with offset := o } := by
  unfold diskPart
  split
  · split
    · exact ⟨_,rfl⟩
    · exact ⟨_,rfl⟩
  split
  · split
    · exact ⟨_,rfl⟩
    split
    · exact ⟨_,rfl⟩
    dsimp only
    generalize (if dev.partition = 255 then (-1 : ℤ) else dev.partition) = partition
    split
    · exact ⟨_,rfl⟩
    split
    · exact ⟨_,rfl⟩
    split
    · exact ⟨_,rfl⟩
    split
    · exact ⟨_,rfl⟩
    · exact ⟨_,rfl⟩
  · exact ⟨_,rfl⟩

/-- The disk of a descriptor gets one more entry. -/
theorem diskInsert_spec (hm : ∀ n, w.malloc n = true) (hk : Kept s.heap s.openedDisks own)
    (ha : a ∈ s.heap.live) (hd : dev.opendata = some a) (hkey : ∀ e ∈ s.openedDisks, e.key ≠ dev.key)
    (hsh : ∀ e ∈ s.openedDisks, e.sameDisk dev → e.od = a) : ∃ s' e, diskInsert w s dev = some s' ∧
      s'.openedDisks = s.openedDisks ++ [e] ∧ e.dev = dev.dev ∧ e.od = a ∧ Within s.heap s'.heap ∧
      Kept s'.heap s'.openedDisks (own.filter (· ≠ a)) := by
  let e : Dentry := ⟨dev.dev,dev.unit,dev.slice,dev.partition,a,dev.offset⟩
  have hi : Kept (countBy (· + 1) s.heap a) (s.openedDisks ++ [e]) (own.filter (· ≠ a)) :=
    hk.insert (e := e) ha hkey fun x hx h₁ h₂ => hsh x hx ⟨h₁,h₂⟩
  refine ⟨⟨countBy (· + 1) s.heap a,s.openedDisks ++ [e],s.reads,s.mallocs+1⟩,e,?_,rfl,rfl,rfl,
    countBy_within _ s.heap a,hi⟩
  rw [diskInsert,if_neg (not_not.mpr (hm _))]
  simp only [hd,Store.modify_of_mem ha,Option.bind_eq_bind,Option.bind_some,Option.pure_def]
  exact congrArg some rfl

/-- What an open comes to: an error that leaves the cache and the open disks as they are, a disk that the cache
has, or one for the descriptor alone. -/
inductive Opened (h : Store OpenDisk) (l : List Dentry) (own : List ℕ) (d flags : ℕ) :
    ℤ → DiskDevdesc → DiskCache → Prop
  | failed {rc : ℤ} {dev : DiskDevdesc} {s' : DiskCache} (error : rc ≠ 0) (entries : s'.openedDisks = l)
      (live : s'.heap.live = h.live) (cells : ∀ a ∈ h.live, s'.heap.cell a = h.cell a) :
      Opened h l own d flags rc dev s'
  | cached {dev : DiskDevdesc} {s' : DiskCache} (e : Dentry) (flag : nocache flags = false)
      (more : l ⊆ s'.openedDisks) (mem : e ∈ s'.openedDisks) (data : dev.opendata = some e.od)
      (here : e.dev = d) (same : dev.dev = d) (kept : Kept s'.heap s'.openedDisks own)
      (marked : Marked s'.heap own) : Opened h l own d flags 0 dev s'
  | alone {dev : DiskDevdesc} {s' : DiskCache} (a : ℕ) (flag : nocache flags = true) (entries : s'.openedDisks = l)
      (data : dev.opendata = some a) (same : dev.dev = d) (kept : Kept s'.heap s'.openedDisks (a :: own))
      (marked : Marked s'.heap (a :: own)) : Opened h l own d flags 0 dev s'

/-- A new open disk, which is not marked yet. -/
structure Fresh (h : Store OpenDisk) (l : List Dentry) (own : List ℕ) (a flags : ℕ) (h₁ : Store OpenDisk) : Prop where
  new : a ∉ h.live
  live : h₁.live = a :: h.live
  old : ∀ b ∈ h.live, h₁.cell b = h.cell b
  kept : Kept h₁ l (a :: own)
  rcnt : (h₁.cell a).rcnt = 0
  flag : (h₁.cell a).flags = flags

theorem Kept.fresh (hk : Kept h l own) (m : Allocator) (od : OpenDisk) (h0 : od.rcnt = 0) :
    Fresh h l own (h.alloc m od).1 od.flags (h.alloc m od).2 := by
  have hnew := Store.alloc_notMem (s := h) m
  refine ⟨hnew,rfl,fun b hb => ?_,hk.alloc m od h0,?_,?_⟩
  · have hba : b ≠ m.pick h.born h.live := fun hba => hnew (hba ▸ hb)
    exact Function.update_of_ne hba _ _
  · simp only [Store.alloc,Function.update_self,h0]
  · simp only [Store.alloc,Function.update_self]

theorem Fresh.setTable (hf : Fresh h l own a flags h₁) (table : Ptable) :
    Fresh h l own a flags { h₁ with cell := Function.update h₁.cell a { h₁.cell a with table := some table } } := by
  refine ⟨hf.new,hf.live,fun b hb => ?_,hf.kept.update a _ rfl,?_,?_⟩
  · have hba : b ≠ a := fun hba => hf.new (hba ▸ hb)
    exact (Function.update_of_ne hba _ _).trans (hf.old b hb)
  · simp only [Function.update_self,hf.rcnt]
  · simp only [Function.update_self,hf.flag]

theorem Fresh.marked (hf : Fresh h l own a flags h₁) (hk : Kept h l own) (ho : Marked h own)
    (ht : (h₁.cell a).table.isSome) : Marked h₁ (if nocache flags then a :: own else own) := by
  refine ⟨fun b hb => ?_,fun b hb => ?_⟩
  · rcases List.mem_cons.mp (hf.live ▸ hb) with rfl | hb
    · rw [hf.flag]
      split
      · exact iff_of_true ‹_› List.mem_cons_self
      · exact iff_of_false ‹_› fun ho => hf.new (hk.ownLive _ ho)
    · have hba : b ≠ a := fun hba => hf.new (hba ▸ hb)
      rw [hf.old b hb,ho.flags b hb]
      split
      · exact ⟨List.mem_cons_of_mem _,fun hb => (List.mem_cons.mp hb).resolve_left hba⟩
      · exact Iff.rfl
  · rcases List.mem_cons.mp (hf.live ▸ hb) with rfl | hb
    · exact ht
    · exact hf.old b hb ▸ ho.table b hb

theorem filter_ne_cons {l : List ℕ} (h : a ∉ l) : (a :: l).filter (· ≠ a) = l := by
  rw [List.filter_cons_of_neg (by simp)]
  exact List.filter_eq_self.mpr fun b hb => decide_eq_true fun hba => h (hba ▸ hb)

/-- A new open disk goes if the disk cannot be opened, and otherwise is the descriptor's or a cached one. -/
theorem Fresh.diskOut (hf : Fresh h s.openedDisks own a flags s.heap) (hm : ∀ n, w.malloc n = true)
    (hk : Kept h s.openedDisks own) (ho : Marked h own) (r : PartResult) (ht : r.rc = 0 → (s.heap.cell a).table.isSome)
    (hd : r.dev.opendata = some a) (hno : nocache flags = false → ∀ e ∈ s.openedDisks, ¬ e.sameDisk r.dev) :
    ∃ rc dev' s', diskOut w s a flags r = some (rc,dev',s') ∧
      Opened h s.openedDisks own r.dev.dev flags rc dev' s' := by
  have ha : a ∈ s.heap.live := hf.live ▸ List.mem_cons_self
  unfold Boot.diskOut
  by_cases hr : r.rc ≠ 0
  · rw [if_pos hr]
    refine ⟨r.rc,r.dev,{ s with heap := { s.heap with live := s.heap.live.filter (· ≠ a) } },?_,?_⟩
    · simp only [Store.read_of_mem ha,Store.free_of_mem ha,hf.rcnt,Option.bind_eq_bind,Option.bind_some,
        Option.pure_def,zero_lt_one,if_true]
    · exact .failed hr rfl (by rw [hf.live]; exact filter_ne_cons hf.new) hf.old
  · have hmk := hf.marked hk ho (ht (not_not.mp hr))
    rw [if_neg hr]
    by_cases hn : nocache flags = true
    · rw [if_pos hn] at hmk
      refine ⟨0,{ r.dev with slice := r.slice, partition := r.partition },s,?_,
        .alone a hn rfl hd rfl hf.kept hmk⟩
      simp only [if_pos hn,Option.bind_eq_bind,Option.bind_some,Option.pure_def]
    · rw [if_neg hn] at hmk
      have hno := hno (Bool.eq_false_iff.mpr hn)
      obtain ⟨s',x,hi,he,hx,hxa,hw,hk'⟩ := diskInsert_spec (w := w) (s := s) (a := a) hm
        hf.kept ha hd
        (fun e he hkey => by
          simp only [Dentry.key,DiskDevdesc.key,Prod.mk.injEq] at hkey
          exact hno e he ⟨hkey.1,hkey.2.1⟩)
        fun e he hs => absurd hs (hno e he)
      rw [filter_ne_cons fun h => hf.new (hk.ownLive a h)] at hk'
      refine ⟨0,{ r.dev with slice := r.slice, partition := r.partition },s',?_,?_⟩
      · simp only [if_neg hn,hi,Option.bind_eq_bind,Option.bind_some,Option.pure_def]
      · refine .cached x (Bool.eq_false_iff.mpr hn) ?_ (he ▸ List.mem_append_right _ List.mem_cons_self)
          (hxa ▸ hd) hx rfl hk' (hw.marked hmk)
        rw [he]
        exact List.subset_append_left _ _

/-- A cached open disk stays, and gets one more entry if the partition can be opened. -/
theorem diskOut_shared (hm : ∀ n, w.malloc n = true) (hk : Kept s.heap s.openedDisks own) (ho : Marked s.heap own)
    (hn : nocache flags = false) {e : Dentry} (he : e ∈ s.openedDisks) (r : PartResult)
    (hs : e.sameDisk r.dev) (hkey : ∀ e' ∈ s.openedDisks, e'.key ≠ r.dev.key)
    (hd : r.dev.opendata = some e.od) :
    ∃ rc dev' s', diskOut w s e.od flags r = some (rc,dev',s') ∧
      Opened s.heap s.openedDisks own r.dev.dev flags rc dev' s' := by
  have ha := hk.live e he
  have hf : ¬ nocache flags = true := Bool.eq_false_iff.mp hn
  unfold diskOut
  by_cases hr : r.rc ≠ 0
  · rw [if_pos hr]
    refine ⟨r.rc,r.dev,s,?_,.failed hr rfl rfl fun _ _ => rfl⟩
    have hc : ¬ (s.heap.cell e.od).rcnt < 1 := not_lt.mpr (hk.rcnt_pos he)
    simp only [Store.read_of_mem ha,Option.bind_eq_bind,Option.bind_some,Option.pure_def,if_neg hc]
  · rw [if_neg hr]
    obtain ⟨s',x,hi,hl,hx,hxa,hw,hk'⟩ := diskInsert_spec hm hk ha hd hkey fun x hx hxs =>
      hk.share x hx e he (hxs.1.trans hs.1.symm) (hxs.2.trans hs.2.symm)
    have hown : own.filter (· ≠ e.od) = own :=
      List.filter_eq_self.mpr fun b hb => decide_eq_true fun hbe => hk.notMem_own he (hbe ▸ hb)
    rw [hown] at hk'
    refine ⟨0,{ r.dev with slice := r.slice, partition := r.partition },s',?_,?_⟩
    · simp only [if_neg hf,hi,Option.bind_eq_bind,Option.bind_some,Option.pure_def]
    · exact .cached x hn (hl ▸ List.subset_append_left _ _) (hl ▸ List.mem_append_right _ List.mem_cons_self)
        (hxa ▸ hd) hx rfl hk' (hw.marked ho)

/-- From `opened` on, the descriptor keeps what it stands for. -/
theorem diskOpened_eq (w : DiskWorld) (dev : DiskDevdesc) (flags : ℕ) {table : Ptable} (ha : a ∈ s.heap.live) (ht : (s.heap.cell a).table = some table) :
    ∃ r n, diskOpened w s dev a flags = diskOut w { s with reads := n } a flags r ∧
      ∃ o, r.dev = { dev with offset := o } := by
  refine ⟨diskPart w s.reads dev (s.heap.cell a) table,(diskPart w s.reads dev (s.heap.cell a) table).reads,?_,
    diskPart_dev w s.reads dev (s.heap.cell a) table⟩
  simp only [diskOpened,Store.read_of_mem ha,ht,Option.bind_eq_bind,Option.bind_some]

theorem diskFresh_opened (hm : ∀ n, w.malloc n = true) (hk : Kept s.heap s.openedDisks own)
    (ho : Marked s.heap own) (geo : Geometry)
    (hno : nocache flags = false → ∀ e ∈ s.openedDisks, ¬ e.sameDisk dev) :
    ∃ rc dev' s', diskFresh w s dev geo flags = some (rc,dev',s') ∧
      Opened s.heap s.openedDisks own dev.dev flags rc dev' s' := by
  have hf := hk.fresh w.alloc ⟨none,geo.mediasize,geo.sectorsize,flags,0⟩ rfl
  rw [diskFresh,if_neg (not_not.mpr (hm _))]
  generalize s.heap.alloc w.alloc ⟨none,geo.mediasize,geo.sectorsize,flags,0⟩ = p at hf
  obtain ⟨a,h₁⟩ := p
  dsimp only at hf ⊢
  split
  · exact hf.diskOut (s := ⟨h₁,s.openedDisks,_,_⟩) hm hk ho ⟨enxioRc,_,_,_,_⟩
      (fun h => absurd (show enxioRc = 0 from h) (by decide)) rfl hno
  · rename_i table hpt
    have ha : a ∈ h₁.live := hf.live ▸ List.mem_cons_self
    have hf' := hf.setTable table
    obtain ⟨r,n,hd,o,hr⟩ := diskOpened_eq w { dev with opendata := some a } flags
      (s := ⟨{ h₁ with cell := Function.update h₁.cell a { h₁.cell a with table := some table } },s.openedDisks,
        s.reads+1,s.mallocs+1⟩) ha (show OpenDisk.table (Function.update h₁.cell a _ a) = some table by
        simp only [Function.update_self])
    obtain ⟨rc,dev',s',hout,hop⟩ := hf'.diskOut (w := w) (s := ⟨_,s.openedDisks,n,s.mallocs+1⟩) hm hk ho r
      (fun _ => by simp only [Function.update_self,Option.isSome_some]) (by rw [hr]) (by rw [hr]; exact hno)
    rw [hr] at hop
    refine ⟨rc,dev',s',?_,hop⟩
    rw [Store.modify_of_mem ha]
    exact hd.trans hout

/-- `disk_open` neither loses an open disk nor frees one that is still in use, and an error leaves the cache as it
was. -/
theorem diskOpen_opened (hm : ∀ n, w.malloc n = true) (hk : Kept s.heap s.openedDisks own) (ho : Marked s.heap own)
    (dev : DiskDevdesc) (geo : Geometry) (flags : ℕ) :
    ∃ rc dev' s', diskOpen w s dev geo flags = some (rc,dev',s') ∧
      Opened s.heap s.openedDisks own dev.dev flags rc dev' s' := by
  unfold diskOpen
  by_cases hn : nocache flags = true
  · simp only [hn,not_true,false_and,if_false]
    exact diskFresh_opened hm hk ho geo fun hf => absurd (hn.symm.trans hf) (by decide)
  have hf : nocache flags = false := Bool.eq_false_iff.mpr hn
  simp only [hf,Bool.false_eq_true,not_false_iff,true_and]
  rcases diskLookup_cases s.openedDisks dev enoentRc with ⟨e,he,hs,hl⟩ | ⟨e,he,hs,hkey,hl⟩ | ⟨hno,hl⟩
  · simp only [hl]
    exact ⟨0,_,s,rfl,.cached e hf (List.Subset.refl _) he rfl hs.1 rfl hk ho⟩
  · have hne : ¬ eagainRc = 0 := by decide
    simp only [hl,hne,if_false,if_true]
    obtain ⟨table,ht⟩ := Option.isSome_iff_exists.mp (ho.table e.od (hk.live e he))
    obtain ⟨r,n,hd,o,hr⟩ := diskOpened_eq w { dev with opendata := some e.od, offset := 0 } flags
      (hk.live e he) ht
    obtain ⟨rc,dev',s',hout,hop⟩ := diskOut_shared (w := w) (s := { s with reads := n }) hm hk ho hf he r
      (by rw [hr]; exact hs) (by rw [hr]; exact hkey) (by rw [hr])
    rw [hr] at hop
    exact ⟨rc,dev',s',hd.trans hout,hop⟩
  · have hne : ¬ enoentRc = 0 := by decide
    have hne' : ¬ enoentRc = eagainRc := by decide
    simp only [hl,hne,hne',if_false]
    exact diskFresh_opened hm hk ho geo fun _ => hno

end Opening

section Sessions
variable {w : DiskWorld} {s : DiskSession} {h h' : Store OpenDisk} {l : List Dentry} {own own' : List ℕ} {a : ℕ}

theorem Kept.perm (hk : Kept h l own) (hp : own.Perm own') : Kept h l own' where
  keys := hk.keys
  share := hk.share
  live := hk.live
  counted := hk.counted
  ownNodup := hp.nodup_iff.mp hk.ownNodup
  ownLive := fun b hb => hk.ownLive b (hp.mem_iff.mpr hb)
  alone := fun b hb => hk.alone b (hp.mem_iff.mpr hb)
  needed := fun b hb => (hk.needed b hb).imp_left hp.mem_iff.mp

theorem Marked.perm (ho : Marked h own) (hp : own.Perm own') : Marked h own' where
  flags := fun b hb => (ho.flags b hb).trans hp.mem_iff
  table := ho.table

theorem Kept.congr (hk : Kept h l own) (hl : h'.live = h.live) (hc : ∀ a ∈ h.live, h'.cell a = h.cell a) :
    Kept h' l own where
  keys := hk.keys
  share := hk.share
  live := fun e he => hl ▸ hk.live e he
  counted := fun b hb => by rw [hc b (hl ▸ hb)]; exact hk.counted b (hl ▸ hb)
  ownNodup := hk.ownNodup
  ownLive := fun b hb => hl ▸ hk.ownLive b hb
  alone := hk.alone
  needed := fun b hb => hk.needed b (hl ▸ hb)

theorem Marked.congr (ho : Marked h own) (hl : h'.live = h.live) (hc : ∀ a ∈ h.live, h'.cell a = h.cell a) :
    Marked h' own where
  flags := fun b hb => by rw [hc b (hl ▸ hb)]; exact ho.flags b (hl ▸ hb)
  table := fun b hb => by rw [hc b (hl ▸ hb)]; exact ho.table b (hl ▸ hb)

theorem Marked.free (ho : Marked h (a :: own)) :
    Marked { h with live := h.live.filter (· ≠ a) } own := by
  refine ⟨fun b hb => ?_,fun b hb => ho.table b (List.mem_filter.mp hb).1⟩
  have hba : b ≠ a := of_decide_eq_true (List.mem_filter.mp hb).2
  rw [ho.flags b (List.mem_filter.mp hb).1]
  exact ⟨fun h => (List.mem_cons.mp h).resolve_left hba,List.mem_cons_of_mem _⟩

/-- The open disks that descriptors have for themselves. -/
def ownDisks (l : List DiskDesc) : List ℕ :=
  l.filterMap fun x => if nocache x.flags then x.dev.opendata else none

theorem ownDisks_append (l₁ l₂ : List DiskDesc) : ownDisks (l₁ ++ l₂) = ownDisks l₁ ++ ownDisks l₂ :=
  List.filterMap_append

theorem ownDisks_middle {x : DiskDesc} (hx : nocache x.flags = true) (ha : x.dev.opendata = some a)
    (l₁ l₂ : List DiskDesc) : (ownDisks (l₁ ++ x :: l₂)).Perm (a :: ownDisks (l₁ ++ l₂)) := by
  have hcons : ownDisks (x :: l₂) = a :: ownDisks l₂ := by
    unfold ownDisks
    exact List.filterMap_cons_some (by rw [if_pos hx,ha])
  rw [ownDisks_append,ownDisks_append,hcons]
  exact List.perm_middle

theorem ownDisks_middle_cached {x : DiskDesc} (hx : nocache x.flags = false) (l₁ l₂ : List DiskDesc) :
    ownDisks (l₁ ++ x :: l₂) = ownDisks (l₁ ++ l₂) := by
  have hcons : ownDisks (x :: l₂) = ownDisks l₂ := by
    unfold ownDisks
    exact List.filterMap_cons_none (if_neg (Bool.eq_false_iff.mp hx))
  rw [ownDisks_append,ownDisks_append,hcons]

theorem ownDisks_stale (l : List DiskDesc) (f : DiskDesc → Bool) :
    ownDisks (l.map fun x => { x with stale := f x }) = ownDisks l := by
  simp only [ownDisks,List.filterMap_map,Function.comp_def]

/-- Every open disk in memory has its owner, and every descriptor its open disk unless the device was cleaned up
under it. -/
structure DiskSession.Inv (s : DiskSession) : Prop where
  kept : Kept s.cache.heap s.cache.openedDisks (ownDisks s.descs)
  marked : Marked s.cache.heap (ownDisks s.descs)
  alone : ∀ x ∈ s.descs, nocache x.flags = true → x.dev.opendata.isSome
  cached : ∀ x ∈ s.descs, nocache x.flags = false → x.stale = false →
    ∃ e ∈ s.cache.openedDisks, x.dev.opendata = some e.od ∧ e.dev = x.dev.dev

/-- A descriptor into the cache is not closed any more once its device has been cleaned up. -/
def DiskCall.Prudent (s : DiskSession) : DiskCall → Prop
  | .diskClose i => ∀ x ∈ s.descs[i]?, nocache x.flags = false → x.stale = false
  | _ => True

instance (s : DiskSession) : DecidablePred fun c : DiskCall => c.Prudent s
  | .diskClose _ => inferInstanceAs (Decidable (∀ x ∈ _, _ → _))
  | .diskOpen _ _ _ => isTrue trivial
  | .diskCleanup _ => isTrue trivial

def PrudentRun (w : DiskWorld) : DiskSession → List DiskCall → Prop
  | _, [] => True
  | s, c :: cs => c.Prudent s ∧ ∀ s' ∈ s.exec w c, PrudentRun w s' cs

attribute [local grind =] PrudentRun

instance prudentRunDecidable (w : DiskWorld) : ∀ (s : DiskSession) (cs : List DiskCall), Decidable (PrudentRun w s cs)
  | _, [] => isTrue trivial
  | _, _ :: cs =>
    have := fun s' => prudentRunDecidable w s' cs
    inferInstanceAs (Decidable (_ ∧ _))

theorem DiskSession.Inv.open (hm : ∀ n, w.malloc n = true) (hs : s.Inv) (dev : DiskDevdesc) (geo : Geometry)
    (flags : ℕ) : ∃ s', s.exec w (.diskOpen dev geo flags) = some s' ∧ s'.Inv := by
  obtain ⟨rc,dev',c,hd,ho⟩ := diskOpen_opened hm hs.kept hs.marked dev geo flags
  have hexec : s.exec w (.diskOpen dev geo flags) =
      some ⟨c,if rc = 0 then s.descs ++ [⟨dev',flags,false⟩] else s.descs⟩ := by
    simp only [DiskSession.exec,hd,Option.bind_eq_bind,Option.bind_some,Option.pure_def]
  refine ⟨_,hexec,?_⟩
  cases ho with
  | failed error entries live cells =>
    rw [if_neg error]
    refine ⟨?_,hs.marked.congr live cells,hs.alone,fun x hx hf ht => ?_⟩
    · rw [entries]
      exact hs.kept.congr live cells
    · rw [entries]
      exact hs.cached x hx hf ht
  | cached e flag more mem data here same kept marked =>
    have hown : ownDisks (s.descs ++ [⟨dev',flags,false⟩]) = ownDisks s.descs := by
      rw [ownDisks_middle_cached flag,List.append_nil]
    rw [if_pos rfl]
    refine ⟨hown ▸ kept,hown ▸ marked,fun x hx hf => ?_,fun x hx hf ht => ?_⟩
    · rcases List.mem_append.mp hx with hx | hx
      · exact hs.alone x hx hf
      · rw [List.mem_singleton.mp hx]
        exact Option.isSome_iff_exists.mpr ⟨_,data⟩
    · rcases List.mem_append.mp hx with hx | hx
      · obtain ⟨e',he',hd',hdev⟩ := hs.cached x hx hf ht
        exact ⟨e',more he',hd',hdev⟩
      · rw [List.mem_singleton.mp hx]
        exact ⟨e,mem,data,here.trans same.symm⟩
  | alone a flag entries data same kept marked =>
    have hown : (a :: ownDisks s.descs).Perm (ownDisks (s.descs ++ [⟨dev',flags,false⟩])) := by
      have := ownDisks_middle (x := ⟨dev',flags,false⟩) flag data s.descs []
      rw [List.append_nil] at this
      exact this.symm
    rw [if_pos rfl]
    refine ⟨kept.perm hown,marked.perm hown,fun x hx hf => ?_,fun x hx hf ht => ?_⟩
    · rcases List.mem_append.mp hx with hx | hx
      · exact hs.alone x hx hf
      · rw [List.mem_singleton.mp hx]
        exact Option.isSome_iff_exists.mpr ⟨_,data⟩
    · rcases List.mem_append.mp hx with hx | hx
      · rw [entries]
        exact hs.cached x hx hf ht
      · rw [List.mem_singleton.mp hx] at hf
        exact absurd (flag.symm.trans hf) (by decide)

theorem exec_close {i : ℕ} {x : DiskDesc} {c : DiskCache} (hx : s.descs[i]? = some x)
    (hc : diskClose s.cache x.dev = some c) : s.exec w (.diskClose i) = some ⟨c,s.descs.eraseIdx i⟩ := by
  simp only [DiskSession.exec,hx,hc,Option.bind_eq_bind,Option.bind_some,Option.pure_def]

theorem DiskSession.Inv.close (hs : s.Inv) (i : ℕ) (hp : (DiskCall.diskClose i).Prudent s) :
    ∃ s', s.exec w (.diskClose i) = some s' ∧ s'.Inv := by
  cases hx : s.descs[i]? with
  | none => exact ⟨s,by simp only [DiskSession.exec,hx],hs⟩
  | some x =>
    obtain ⟨hi,hget⟩ := List.getElem?_eq_some_iff.mp hx
    have hsplit : s.descs = s.descs.take i ++ x :: s.descs.drop (i+1) := by
      rw [← hget,← List.drop_eq_getElem_cons hi,List.take_append_drop]
    have herase : s.descs.eraseIdx i = s.descs.take i ++ s.descs.drop (i+1) := List.eraseIdx_eq_take_drop_succ _ _
    have hmem : x ∈ s.descs := List.mem_of_getElem? hx
    have hsub : ∀ y ∈ s.descs.eraseIdx i, y ∈ s.descs := fun y hy => List.mem_of_mem_eraseIdx hy
    cases hf : nocache x.flags with
    | true =>
      obtain ⟨a,ha⟩ := Option.isSome_iff_exists.mp (hs.alone x hmem hf)
      have hperm : (ownDisks s.descs).Perm (a :: ownDisks (s.descs.eraseIdx i)) := by
        rw [herase]
        conv_lhs => rw [hsplit]
        exact ownDisks_middle hf ha _ _
      have hk := hs.kept.perm hperm
      have hmk := hs.marked.perm hperm
      have hlive := hk.ownLive a List.mem_cons_self
      have hno : nocache (s.cache.heap.cell a).flags = true := (hmk.flags a hlive).mpr List.mem_cons_self
      have hclose : diskClose s.cache x.dev =
          some { s.cache with heap := { s.cache.heap with live := s.cache.heap.live.filter (· ≠ a) } } := by
        simp only [diskClose,ha,Store.read_of_mem hlive,Store.free_of_mem hlive,hno,if_true,Option.bind_eq_bind,
          Option.bind_some,Option.pure_def]
      exact ⟨_,exec_close hx hclose,hk.free,hmk.free,
        fun y hy => hs.alone y (hsub y hy),fun y hy => hs.cached y (hsub y hy)⟩
    | false =>
      obtain ⟨e,he,ha,-⟩ := hs.cached x hmem hf (hp x hx hf)
      have hlive := hs.kept.live e he
      have hno : ¬ nocache (s.cache.heap.cell e.od).flags = true := fun hn =>
        hs.kept.notMem_own he ((hs.marked.flags e.od hlive).mp hn)
      have hown : ownDisks (s.descs.eraseIdx i) = ownDisks s.descs := by
        rw [herase]
        conv_rhs => rw [hsplit]
        exact (ownDisks_middle_cached hf _ _).symm
      have hclose : diskClose s.cache x.dev = some s.cache := by
        simp only [diskClose,ha,Store.read_of_mem hlive,if_neg hno,Option.bind_eq_bind,Option.bind_some,
          Option.pure_def]
      exact ⟨_,exec_close hx hclose,hown ▸ hs.kept,hown ▸ hs.marked,fun y hy => hs.alone y (hsub y hy),
        fun y hy => hs.cached y (hsub y hy)⟩

theorem DiskSession.Inv.cleanup (hs : s.Inv) (d : ℕ) : ∃ s', s.exec w (.diskCleanup d) = some s' ∧ s'.Inv := by
  obtain ⟨h',hl,hk,hw⟩ := cleanupLoop_spec d s.cache.openedDisks s.cache.heap [] hs.kept
  rw [List.nil_append] at hk
  have hown := ownDisks_stale s.descs fun x => x.stale || x.dev.dev = d
  refine ⟨⟨{ s.cache with heap := h', openedDisks := s.cache.openedDisks.filter fun e => e.dev ≠ d },_⟩,?_,
    hown ▸ hk,hown ▸ hw.marked hs.marked,fun x hx => ?_,fun x hx hf ht => ?_⟩
  · simp only [DiskSession.exec,diskCleanup,hl,Option.bind_eq_bind,Option.bind_some,Option.pure_def]
  · obtain ⟨y,hy,rfl⟩ := List.mem_map.mp hx
    exact hs.alone y hy
  · obtain ⟨y,hy,rfl⟩ := List.mem_map.mp hx
    simp only [Bool.or_eq_false_iff,decide_eq_false_iff_not] at ht
    obtain ⟨e,he,hd,hdev⟩ := hs.cached y hy hf ht.1
    exact ⟨e,List.mem_filter.mpr ⟨he,decide_eq_true (hdev ▸ ht.2)⟩,hd,hdev⟩

theorem DiskSession.Inv.exec (hm : ∀ n, w.malloc n = true) (hs : s.Inv) (c : DiskCall) (hp : c.Prudent s) :
    ∃ s', s.exec w c = some s' ∧ s'.Inv := by
  cases c with
  | diskOpen dev geo flags => exact hs.open hm dev geo flags
  | diskClose i => exact hs.close i hp
  | diskCleanup d => exact hs.cleanup d

theorem diskRun_inv (hm : ∀ n, w.malloc n = true) (cs : List DiskCall) : ∀ (s : DiskSession), s.Inv →
    PrudentRun w s cs → ∃ s', diskRun w s cs = some s' ∧ s'.Inv := by
  induction cs with
  | nil => exact fun s hs _ => ⟨s,rfl,hs⟩
  | cons c cs ih =>
    rintro s hs ⟨hc,hcs⟩
    obtain ⟨s₁,he,hs₁⟩ := hs.exec hm c hc
    obtain ⟨s',hr,hs'⟩ := ih s₁ hs₁ (hcs s₁ he)
    exact ⟨s',by simp only [diskRun,he,Option.bind_eq_bind,Option.bind_some,hr],hs'⟩

theorem noDisks_inv : noDisks.Inv where
  kept := by constructor <;> simp [noDisks,ownDisks]
  marked := by constructor <;> simp [noDisks]
  alone := nofun
  cached := nofun

end Sessions

section Result

/-- The entries of a disk share one structure that counts them and is in memory, and nothing else is in memory than
these and those of the descriptors opened past the cache. -/
structure DiskSession.Sound (s : DiskSession) : Prop where
  keys : (s.cache.openedDisks.map Dentry.key).Nodup
  share : ∀ e ∈ s.cache.openedDisks, ∀ e' ∈ s.cache.openedDisks, e.dev = e'.dev → e.unit = e'.unit → e.od = e'.od
  live : ∀ e ∈ s.cache.openedDisks, e.od ∈ s.cache.heap.live
  counted : ∀ e ∈ s.cache.openedDisks, (s.cache.heap.cell e.od).rcnt = referred s.cache.openedDisks e.od
  needed : ∀ a ∈ s.cache.heap.live, (∃ e ∈ s.cache.openedDisks, e.od = a) ∨
    ∃ x ∈ s.descs, nocache x.flags = true ∧ x.dev.opendata = some a

variable {w : DiskWorld} {s : DiskSession}

theorem DiskSession.Inv.sound (hs : s.Inv) : s.Sound where
  keys := hs.kept.keys
  share := hs.kept.share
  live := hs.kept.live
  counted := fun e he => hs.kept.counted _ (hs.kept.live e he)
  needed := by
    intro a ha
    rcases hs.kept.needed a ha with ho | hr
    · right
      obtain ⟨x,hx,hxa⟩ := List.mem_filterMap.mp ho
      split_ifs at hxa with hf
      exact ⟨x,hx,hf,hxa⟩
    · exact .inl (referred_pos_iff.mp hr)

/-- No sequence of opens, closes and cleanups that leaves stale descriptors alone frees an open disk twice, or while
an entry refers to it, or loses one; and a failing open changes neither the entries nor a count. -/
theorem diskRun_sound (w : DiskWorld) (hm : ∀ n, w.malloc n = true) (cs : List DiskCall)
    (hp : PrudentRun w noDisks cs) : ∃ s, diskRun w noDisks cs = some s ∧ s.Sound ∧
      ∀ dev geo flags, ∃ rc dev' c, diskOpen w s.cache dev geo flags = some (rc,dev',c) ∧
        (rc ≠ 0 → c.openedDisks = s.cache.openedDisks ∧ c.heap.live = s.cache.heap.live ∧
          ∀ a ∈ s.cache.heap.live, c.heap.cell a = s.cache.heap.cell a) := by
  obtain ⟨s,hr,hs⟩ := diskRun_inv hm cs noDisks noDisks_inv hp
  refine ⟨s,hr,hs.sound,fun dev geo flags => ?_⟩
  obtain ⟨rc,dev',c,hd,ho⟩ := diskOpen_opened hm hs.kept hs.marked dev geo flags
  refine ⟨rc,dev',c,hd,fun hrc => ?_⟩
  cases ho with
  | failed error entries live cells => exact ⟨entries,live,cells⟩
  | cached e flag more mem data here same kept marked => exact absurd rfl hrc
  | alone a flag entries data same kept marked => exact absurd rfl hrc

/-- Two disks with a partition each, and memory that is used again. -/
def gptDisks : DiskWorld where
  alloc := ⟨fun _ l => l.foldr max 0+1,fun _ _ h =>
    absurd (List.le_max_of_le h le_rfl) (Nat.not_succ_le_self _)⟩
  malloc := fun _ => true
  ptableOpen := fun _ _ _ _ => some ⟨.gpt,[⟨64,1063,1,.dflyHammer2⟩],some ⟨64,1063,1,.dflyHammer2⟩⟩

def gptDisk (unit slice : ℤ) : DiskDevdesc := ⟨0,unit,none,slice,-1,0⟩

def thousand : Geometry := ⟨1024*512,512,by decide⟩

theorem diskRun_gptDisks : ∃ s, diskRun gptDisks noDisks [.diskOpen (gptDisk 0 1) thousand 0,
    .diskOpen (gptDisk 0 0) thousand 0, .diskOpen (gptDisk 1 1) thousand 1, .diskOpen (gptDisk 0 2) thousand 0,
    .diskClose 0, .diskCleanup 0, .diskClose 1] = some s ∧ s.Sound ∧
      ∀ dev geo flags, ∃ rc dev' c, diskOpen gptDisks s.cache dev geo flags = some (rc,dev',c) ∧
        (rc ≠ 0 → c.openedDisks = s.cache.openedDisks ∧ c.heap.live = s.cache.heap.live ∧
          ∀ a ∈ s.cache.heap.live, c.heap.cell a = s.cache.heap.cell a) :=
  diskRun_sound gptDisks (fun _ => rfl) _ (by decide)

/-- A cleanup takes the open disk from a descriptor. When the memory is used for another disk, closing that descriptor
frees it, and closing the one it belongs to frees it again. -/
theorem diskRun_stale : (∀ n, gptDisks.malloc n = true) ∧
    diskRun gptDisks noDisks [.diskOpen (gptDisk 0 1) thousand 0, .diskCleanup 0,
      .diskOpen (gptDisk 1 1) thousand 1, .diskClose 0] ≠ none ∧
    diskRun gptDisks noDisks [.diskOpen (gptDisk 0 1) thousand 0, .diskCleanup 0,
      .diskOpen (gptDisk 1 1) thousand 1, .diskClose 0, .diskClose 0] = none :=
  ⟨fun _ => rfl,nofun,rfl⟩

end Result

end Blub.Boot
