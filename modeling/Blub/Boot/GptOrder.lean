import Blub.Boot.GptSpec

/-! The order in which `gptfind` offers partitions when every one of them fails to boot. -/
namespace Blub.Boot
open Blub.Bytes Blub.Gpt

section Scan
variable {p : ℕ → Bool}

/-- The indices from `c` on, below `n`, that meet `p`. -/
def hits (p : ℕ → Bool) (n c : ℕ) : List ℕ := (List.range' c (n-c)).filter p

theorem hits_congr {q : ℕ → Bool} {n c : ℕ} (h : ∀ i, c ≤ i → i < n → p i = q i) :
    hits p n c = hits q n c := by
  apply List.filter_congr
  intro i hi
  rw [List.mem_range'_1] at hi
  exact h i hi.1 (by omega)

theorem mem_hits {n c i : ℕ} : i ∈ hits p n c ↔ c ≤ i ∧ i < n ∧ p i = true := by
  simp only [hits,List.mem_filter,List.mem_range'_1]
  constructor
  · exact fun h => ⟨h.1.1,by omega,h.2⟩
  · exact fun h => ⟨⟨h.1,by omega⟩,h.2.2⟩

theorem hits_of_le {n c : ℕ} (h : n ≤ c) : hits p n c = [] := by
  simp [hits,Nat.sub_eq_zero_of_le h]

theorem hits_succ {n c : ℕ} (h : c < n) :
    hits p n c = if p c then c :: hits p n (c+1) else hits p n (c+1) := by
  have hl : List.range' c (n-c) = c :: List.range' (c+1) (n-(c+1)) := by
    rw [show n-c = n-(c+1)+1 by omega]
    rfl
  simp only [hits,hl,List.filter_cons]

/-- A scan finds the first hit and leaves the others behind it. -/
theorem scan_hits (p : ℕ → Bool) (k c : ℕ) :
    (scan p k c = none ∧ hits p (c+k) c = []) ∨
      ∃ i, scan p k c = some i ∧ c ≤ i ∧ i < c+k ∧ p i = true ∧
        hits p (c+k) c = i :: hits p (c+k) (i+1) := by
  induction k generalizing c with
  | zero => exact Or.inl ⟨rfl,hits_of_le le_rfl⟩
  | succ k ih =>
    rw [scan,hits_succ (show c < c+(k+1) by omega)]
    cases hp : p c with
    | true => exact Or.inr ⟨c,rfl,le_rfl,by omega,hp,rfl⟩
    | false =>
      have h := ih (c+1)
      rw [show c+1+k = c+(k+1) by omega] at h
      cases h with
      | inl h => exact Or.inl h
      | inr h =>
        obtain ⟨i,hs,h₁,h₂,h₃,h₄⟩ := h
        exact Or.inr ⟨i,hs,by omega,by omega,h₃,h₄⟩

theorem scan_below (p : ℕ → Bool) {n c : ℕ} (h : c ≤ n) :
    (scan p (n-c) c = none ∧ hits p n c = []) ∨
      ∃ i, scan p (n-c) c = some i ∧ c ≤ i ∧ i < n ∧ p i = true ∧
        hits p n c = i :: hits p n (i+1) := by
  have := scan_hits p (n-c) c
  rwa [show c+(n-c) = n by omega] at this

end Scan

/-- What the search reads of a table. -/
structure Flags where
  typ : ℕ → Bool
  me : ℕ → Bool
  once : ℕ → Bool

namespace Flags
variable (f : Flags)

def both (i : ℕ) : Bool := f.typ i && f.me i && f.once i

def single (i : ℕ) : Bool := f.typ i && f.me i && !f.once i

/-- An entry that was tried and failed loses its flags if they were for one boot only. -/
def tried (i : ℕ) : Flags :=
  if f.once i then ⟨f.typ,Function.update f.me i false,Function.update f.once i false⟩ else f

theorem both_tried {i j : ℕ} (h : j ≠ i) : (f.tried i).both j = f.both j := by
  unfold tried both
  split_ifs
  · simp [Function.update_of_ne h]
  · rfl

theorem single_tried_of_ne {i j : ℕ} (h : j ≠ i) : (f.tried i).single j = f.single j := by
  unfold tried single
  split_ifs
  · simp [Function.update_of_ne h]
  · rfl

theorem single_tried_of_both {i : ℕ} (h : f.both i = true) (j : ℕ) :
    (f.tried i).single j = f.single j := by
  by_cases hj : j = i
  · subst hj
    simp only [both,Bool.and_eq_true] at h
    simp [tried,single,h]
  · exact f.single_tried_of_ne hj

end Flags

/-- The state of the enumeration: the cursor, whether it is in its first phase, the flags. -/
structure Cursor where
  cur : ℤ
  phase : Bool
  flags : Flags

namespace Cursor
variable (n : ℕ)

def take (s : Cursor) (i : ℕ) : Cursor := {s with cur := i, flags := s.flags.tried i}

/-- One round: what is offered, and the state after it failed to boot. -/
def next (s : Cursor) : Option ℕ × Cursor :=
  let cur := (s.cur+1).toNat
  if n ≤ cur then (none,{s with cur := n})
  else
    match if s.phase then scan s.flags.both (n-cur) cur else none with
    | some i => (some i,s.take i)
    | none =>
      let cur := if s.phase then 0 else cur
      let s' := {s with phase := false}
      match scan s.flags.single (n-cur) cur with
      | some i => (some i,s'.take i)
      | none =>
        match if s.cur = -1 then scan s.flags.typ n 0 else none with
        | some i => (some i,s'.take i)
        | none => (none,{s' with cur := n})

/-- What round `k` offers. -/
def offer (s : Cursor) : ℕ → Option ℕ
  | 0 => (s.next n).1
  | k+1 => (s.next n).2.offer k

/-- The rounds offer the list `l` and then nothing, for ever. -/
def Yields (s : Cursor) (l : List ℕ) : Prop := ∀ k, s.offer n k = l[k]?

attribute [local grind =] next offer

variable {n} {s s' : Cursor} {l l' : List ℕ}

theorem Yields.cons {i : ℕ} (h : s.next n = (some i,s')) (hl : s'.Yields n l) :
    s.Yields n (i :: l) := by
  intro k
  cases k with
  | zero => simp [offer,h]
  | succ k => simpa [offer,h] using hl k

theorem Yields.nil (h : s.next n = (none,s')) (hl : s'.Yields n []) : s.Yields n [] := by
  intro k
  cases k with
  | zero => simp [offer,h]
  | succ k => simpa [offer,h] using hl k

theorem Yields.unique (h : s.Yields n l) (h' : s.Yields n l') : l = l' := by
  apply List.ext_getElem?
  intro k
  rw [← h k,h' k]

theorem yields_done (h : n ≤ (s.cur+1).toNat) : s.Yields n [] := by
  intro k
  induction k generalizing s with
  | zero => simp [offer,next,h]
  | succ k ih =>
    have hs : s.next n = (none,{s with cur := n}) := if_pos h
    simp only [offer,hs]
    exact ih (by dsimp only; omega)

/-- The second phase goes through the entries to boot without a trial. -/
theorem yields_second (m : ℕ) (hm : n-(s.cur+1).toNat ≤ m) (hp : s.phase = false) (hc : 0 ≤ s.cur) :
    s.Yields n (hits s.flags.single n (s.cur+1).toNat) := by
  induction m generalizing s with
  | zero =>
    rw [hits_of_le (by omega)]
    exact yields_done (by omega)
  | succ m ih =>
    by_cases hd : n ≤ (s.cur+1).toNat
    · rw [hits_of_le hd]
      exact yields_done hd
    · have hne : s.cur ≠ -1 := by omega
      cases scan_below s.flags.single (show (s.cur+1).toNat ≤ n by omega) with
      | inl h =>
        rw [h.2]
        have hnext : s.next n = (none,{s with phase := false, cur := n}) := by simp [next,hd,hp,h.1,hne]
        exact Yields.nil hnext (yields_done (by dsimp only; omega))
      | inr h =>
        obtain ⟨i,hs,h₁,h₂,h₃,h₄⟩ := h
        have hnext : s.next n = (some i,{s with phase := false}.take i) := by simp [next,hd,hp,hs]
        rw [h₄]
        refine Yields.cons hnext ?_
        have hrest := ih (s := {s with phase := false}.take i) (by simp only [take]; omega) rfl
          (by simp only [take]; omega)
        have hcur : (({s with phase := false} : Cursor).take i).cur = i := rfl
        rw [hcur,show ((i : ℤ)+1).toNat = i+1 by omega] at hrest
        have hsame : hits s.flags.single n (i+1) =
            hits (({s with phase := false} : Cursor).take i).flags.single n (i+1) :=
          hits_congr fun j hj _ => (s.flags.single_tried_of_ne (by omega)).symm
        rwa [hsame]

/-- What is left when the first phase stands behind index `c`: the second phase is never reached
if the last entry of the table is offered in the first. -/
def leftOver (f : Flags) (n c : ℕ) : List ℕ :=
  hits f.both n c ++ if n ≤ c ∨ n-1 ∈ hits f.both n c then [] else hits f.single n 0

theorem leftOver_tried {f : Flags} {i : ℕ} (h : f.both i = true) :
    leftOver (f.tried i) n (i+1) = leftOver f n (i+1) := by
  have h₁ : hits (f.tried i).both n (i+1) = hits f.both n (i+1) :=
    hits_congr fun j hj _ => f.both_tried (by omega)
  have h₂ : hits (f.tried i).single n 0 = hits f.single n 0 :=
    hits_congr fun j _ _ => f.single_tried_of_both h j
  rw [leftOver,leftOver,h₁,h₂]

theorem leftOver_cons {f : Flags} {c i : ℕ} (hc : c < n) (hin : i < n)
    (h : hits f.both n c = i :: hits f.both n (i+1)) :
    leftOver f n c = i :: leftOver f n (i+1) := by
  have hiff : (n ≤ c ∨ n-1 ∈ hits f.both n c) ↔ (n ≤ i+1 ∨ n-1 ∈ hits f.both n (i+1)) := by
    have h₁ : ¬ n ≤ c := by omega
    have h₂ : n-1 = i ↔ n ≤ i+1 := by omega
    rw [h,List.mem_cons,h₂]
    simp [h₁]
  rw [leftOver,leftOver,if_congr hiff rfl rfl,h,List.cons_append]

/-- From the switch to the second phase on. -/
theorem yields_switch (hp : s.phase = true) (hd : (s.cur+1).toNat < n)
    (hnone : scan s.flags.both (n-(s.cur+1).toNat) (s.cur+1).toNat = none)
    (hnext : s.cur = -1 → hits s.flags.single n 0 ≠ []) :
    s.Yields n (hits s.flags.single n 0) := by
  cases scan_below s.flags.single (Nat.zero_le n) with
  | inl h =>
    have hne : s.cur ≠ -1 := fun he => hnext he h.2
    rw [Nat.sub_zero] at h
    rw [h.2]
    have hstep : s.next n = (none,{s with phase := false, cur := n}) := by
      simp [next,hd.not_ge,hp,hnone,h.1,hne]
    exact Yields.nil hstep (yields_done (by dsimp only; omega))
  | inr h =>
    obtain ⟨i,hs,-,h₂,h₃,h₄⟩ := h
    rw [Nat.sub_zero] at hs
    have hstep : s.next n = (some i,{s with phase := false}.take i) := by
      simp [next,hd.not_ge,hp,hnone,hs]
    rw [h₄]
    refine Yields.cons hstep ?_
    have hrest := yields_second (n := n) (s := {s with phase := false}.take i) n
      (by simp only [take]; omega) rfl (by simp only [take]; omega)
    have hcur : (({s with phase := false} : Cursor).take i).cur = i := rfl
    rw [hcur,show ((i : ℤ)+1).toNat = i+1 by omega] at hrest
    have hsame : hits s.flags.single n (i+1) =
        hits (({s with phase := false} : Cursor).take i).flags.single n (i+1) :=
      hits_congr fun j hj _ => (s.flags.single_tried_of_ne (by omega)).symm
    rwa [hsame]

/-- The first phase, unless it is the first round and nothing is marked for booting. -/
theorem yields_first (m : ℕ) (hm : n-(s.cur+1).toNat ≤ m) (hp : s.phase = true) (hc : -1 ≤ s.cur)
    (hnext : s.cur = -1 → leftOver s.flags n 0 ≠ [] ∨ n = 0) :
    s.Yields n (leftOver s.flags n (s.cur+1).toNat) := by
  induction m generalizing s with
  | zero =>
    have hd : n ≤ (s.cur+1).toNat := by omega
    rw [leftOver,hits_of_le hd,if_pos (Or.inl hd)]
    exact yields_done hd
  | succ m ih =>
    by_cases hd : n ≤ (s.cur+1).toNat
    · rw [leftOver,hits_of_le hd,if_pos (Or.inl hd)]
      exact yields_done hd
    · have hlt : (s.cur+1).toNat < n := by omega
      cases scan_below s.flags.both (show (s.cur+1).toNat ≤ n by omega) with
      | inl h =>
        have hleft : leftOver s.flags n (s.cur+1).toNat = hits s.flags.single n 0 := by
          rw [leftOver,h.2,if_neg (by simp [hd]),List.nil_append]
        rw [hleft]
        refine yields_switch hp hlt h.1 ?_
        intro he
        have h₀ : (s.cur+1).toNat = 0 := by omega
        rw [h₀] at hleft
        rw [← hleft]
        exact (hnext he).resolve_right (by omega)
      | inr h =>
        obtain ⟨i,hs,h₁,h₂,h₃,h₄⟩ := h
        have hstep : s.next n = (some i,s.take i) := by simp [next,hd,hp,hs]
        rw [leftOver_cons hlt h₂ h₄]
        refine Yields.cons hstep ?_
        have hrest := ih (s := s.take i) (by simp only [take]; omega) hp (by simp only [take]; omega)
          (by simp only [take]; omega)
        have hcur : (s.take i).cur = i := rfl
        rw [hcur,show ((i : ℤ)+1).toNat = i+1 by omega] at hrest
        rw [← leftOver_tried h₃]
        exact hrest

/-- Nothing is marked for booting: the first entry of the type is offered, once. -/
theorem yields_unmarked (hp : s.phase = true) (hc : s.cur = -1) (hb : hits s.flags.both n 0 = [])
    (hs : hits s.flags.single n 0 = []) : s.Yields n (scan s.flags.typ n 0).toList := by
  by_cases hn : n = 0
  · subst hn
    exact yields_done (by omega)
  · have hnone : ∀ {p : ℕ → Bool}, hits p n 0 = [] → scan p n 0 = none := by
      intro p h
      cases scan_below p (Nat.zero_le n) with
      | inl h' => exact h'.1
      | inr h' =>
        obtain ⟨i,-,-,-,-,he⟩ := h'
        rw [h] at he
        exact absurd he (by simp)
    have hnext : s.next n = match scan s.flags.typ n 0 with
        | some i => (some i,{s with phase := false}.take i)
        | none => (none,{s with phase := false, cur := n}) := by
      simp [next,hn,hp,hnone hb,hnone hs,hc]
    cases ht : scan s.flags.typ n 0 with
    | none =>
      rw [ht] at hnext
      exact Yields.nil hnext (yields_done (by dsimp only; omega))
    | some i =>
      rw [ht] at hnext
      refine Yields.cons hnext ?_
      have hrest := yields_second (n := n) (s := {s with phase := false}.take i) n
        (by simp only [take]; omega) rfl (by simp only [take]; omega)
      have hcur' : (({s with phase := false} : Cursor).take i).cur = i := rfl
      rw [hcur',show ((i : ℤ)+1).toNat = i+1 by omega] at hrest
      have hempty : hits (({s with phase := false} : Cursor).take i).flags.single n (i+1) = [] := by
        rw [List.eq_nil_iff_forall_not_mem]
        intro j hj
        rw [mem_hits] at hj
        obtain ⟨h₁,h₂,h₃⟩ := hj
        have h₄ : s.flags.single j = true := by
          rw [← s.flags.single_tried_of_ne (show j ≠ i by omega)]
          exact h₃
        have : j ∈ hits s.flags.single n 0 := mem_hits.mpr ⟨by omega,h₂,h₄⟩
        rw [hs] at this
        exact absurd this (by simp)
      rwa [hempty] at hrest

/-- The order the boot flags ask for. -/
def bootOrder (f : Flags) (n : ℕ) : List ℕ :=
  if ∃ i < n, f.typ i && f.me i then
    (List.range n).filter f.both ++ (List.range n).filter f.single
  else ((List.range n).find? f.typ).toList

theorem hits_zero (p : ℕ → Bool) (n : ℕ) : hits p n 0 = (List.range n).filter p := by
  rw [hits,List.range_eq_range',Nat.sub_zero]

theorem scan_zero (p : ℕ → Bool) (n : ℕ) : scan p n 0 = (List.range n).find? p := by
  rw [← List.head?_filter,← hits_zero]
  cases scan_below p (Nat.zero_le n) with
  | inl h =>
    rw [h.2]
    exact h.1
  | inr h =>
    obtain ⟨i,h₁,-,-,-,h₂⟩ := h
    rw [h₂]
    exact h₁

theorem marked_iff (f : Flags) (n : ℕ) : (∃ i < n, f.typ i && f.me i) ↔
    ¬ (hits f.both n 0 = [] ∧ hits f.single n 0 = []) := by
  constructor
  · rintro ⟨i,hi,hm⟩ ⟨hb,hs⟩
    cases ho : f.once i with
    | true =>
      have : i ∈ hits f.both n 0 := mem_hits.mpr ⟨by omega,hi,by simp [Flags.both,hm,ho]⟩
      simp [hb] at this
    | false =>
      have : i ∈ hits f.single n 0 := mem_hits.mpr ⟨by omega,hi,by simp [Flags.single,hm,ho]⟩
      simp [hs] at this
  · intro h
    by_contra hno
    apply h
    constructor
    · rw [List.eq_nil_iff_forall_not_mem]
      intro i hi
      rw [mem_hits,Flags.both,Bool.and_eq_true] at hi
      exact hno ⟨i,hi.2.1,hi.2.2.1⟩
    · rw [List.eq_nil_iff_forall_not_mem]
      intro i hi
      rw [mem_hits,Flags.single,Bool.and_eq_true] at hi
      exact hno ⟨i,hi.2.1,hi.2.2.1⟩

theorem bootOrder_nodup (f : Flags) (n : ℕ) : (bootOrder f n).Nodup := by
  unfold bootOrder
  split_ifs
  · apply List.Nodup.append
    · exact List.Nodup.filter _ List.nodup_range
    · exact List.Nodup.filter _ List.nodup_range
    · intro i hb hs
      rw [List.mem_filter] at hb hs
      simp only [Flags.both,Flags.single,Bool.and_eq_true,Bool.not_eq_true'] at hb hs
      rw [hb.2.2] at hs
      exact absurd hs.2.2 (by simp)
  · cases (List.range n).find? f.typ <;> simp

/-- The enumeration follows the boot order exactly if the last entry of the table does not end
the first phase in front of a second one. -/
theorem yields_bootOrder_iff (hp : s.phase = true) (hc : s.cur = -1) :
    s.Yields n (bootOrder s.flags n) ↔
      ¬ (0 < n ∧ s.flags.both (n-1) = true ∧ hits s.flags.single n 0 ≠ []) := by
  by_cases hm : ∃ i < n, s.flags.typ i && s.flags.me i
  · have horder : bootOrder s.flags n = hits s.flags.both n 0 ++ hits s.flags.single n 0 := by
      rw [bootOrder,if_pos hm,hits_zero,hits_zero]
    have hn : 0 < n := by
      obtain ⟨i,hi,-⟩ := hm
      omega
    have hlast : (n ≤ 0 ∨ n-1 ∈ hits s.flags.both n 0) ↔ s.flags.both (n-1) = true := by
      rw [mem_hits]
      constructor
      · exact fun h => (h.resolve_left (by omega)).2.2
      · exact fun h => Or.inr ⟨by omega,by omega,h⟩
    have hact : s.Yields n (leftOver s.flags n 0) := by
      have hne : leftOver s.flags n 0 ≠ [] := by
        intro he
        rw [leftOver,List.append_eq_nil_iff] at he
        have hb : ¬ (n ≤ 0 ∨ n-1 ∈ hits s.flags.both n 0) := by
          rw [he.1]
          simp
          omega
        rw [if_neg hb] at he
        exact (marked_iff _ _).mp hm he
      have := yields_first (n := n) (s := s) n (by omega) hp (by omega) (fun _ => Or.inl hne)
      rwa [show (s.cur+1).toNat = 0 by omega] at this
    rw [horder]
    constructor
    · rintro hy ⟨-,hb,hs⟩
      have he := hact.unique hy
      rw [leftOver,if_pos (hlast.mpr hb),List.append_right_inj] at he
      exact hs he.symm
    · intro hno
      rw [leftOver] at hact
      by_cases hb : s.flags.both (n-1) = true
      · have hs : hits s.flags.single n 0 = [] := by
          by_contra hs
          exact hno ⟨hn,hb,hs⟩
        rwa [if_pos (hlast.mpr hb),← hs] at hact
      · rwa [if_neg (mt hlast.mp hb)] at hact
  · have hnone := not_not.mp (mt (marked_iff _ _).mpr hm)
    rw [bootOrder,if_neg hm,← scan_zero]
    exact iff_of_true (yields_unmarked hp hc hnone.1 hnone.2) (fun h => h.2.2 hnone.2)

end Cursor

section Simulation

def tableFlags (t : ℕ → UInt8) (uuid : ℕ) : Flags := ⟨isType t uuid,isBootme t,isBootonce t⟩

theorem tableFlags_clearBootme (t : ℕ → UInt8) (uuid i : ℕ) :
    tableFlags (withAttr clearBootme t i) uuid =
      ⟨isType t uuid,Function.update (isBootme t) i false,isBootonce t⟩ := by
  simp only [tableFlags,Flags.mk.injEq]
  refine ⟨?_,?_,?_⟩
  · funext j
    simp only [isType,entType_withAttr]
  · funext j
    rw [isBootme_eq,entAttr_withAttr]
    by_cases h : j = i
    · subst h
      rw [if_pos rfl,getLsbD_clearBootme]
      simp
    · simp [h,isBootme_eq]
  · funext j
    rw [isBootonce_eq,isBootonce_eq,entAttr_withAttr]
    by_cases h : j = i
    · subst h
      rw [if_pos rfl,getLsbD_clearBootme]
      simp
    · rw [if_neg h]

theorem tableFlags_failBootonce (t : ℕ → UInt8) (uuid i : ℕ) :
    tableFlags (withAttr failBootonce t i) uuid =
      ⟨isType t uuid,isBootme t,Function.update (isBootonce t) i false⟩ := by
  simp only [tableFlags,Flags.mk.injEq]
  refine ⟨?_,?_,?_⟩
  · funext j
    simp only [isType,entType_withAttr]
  · funext j
    rw [isBootme_eq,isBootme_eq,entAttr_withAttr]
    by_cases h : j = i
    · subst h
      rw [if_pos rfl,getLsbD_failBootonce]
      simp
    · rw [if_neg h]
  · funext j
    rw [isBootonce_eq,entAttr_withAttr]
    by_cases h : j = i
    · subst h
      rw [if_pos rfl,getLsbD_failBootonce]
      simp
    · simp [h,isBootonce_eq]

/-- Found and then failed: an entry for one boot only loses both flags. -/
theorem tableFlags_tried (t : ℕ → UInt8) (uuid i : ℕ) (h : isBootonce t i = true) :
    tableFlags (withAttr failBootonce (withAttr clearBootme t i) i) uuid =
      (tableFlags t uuid).tried i := by
  have hc := tableFlags_clearBootme t uuid i
  simp only [tableFlags,Flags.mk.injEq] at hc
  rw [tableFlags_failBootonce,hc.1,hc.2.1,hc.2.2]
  simp only [Flags.tried,tableFlags,h,if_true]

def GptBoot.Usable (s : GptBoot) : Prop := ∀ c, (s.copy c).lba ≠ 0 → (s.copy c).Usable

/-- What a change of attributes does to the memory of one copy. -/
structure Changed (f : BitVec 64 → BitVec 64) (i : ℕ) (k k' : Copy) : Prop where
  lba : k'.lba = k.lba
  fields : SameFields k.hdr k'.hdr
  table : k'.table = if k.lba ≠ 0 then withAttr f k.table i else k.table

theorem changeAttr_mem {f : BitVec 64 → BitVec 64} {s : GptBoot} {i : ℕ} (hu : s.Usable)
    (hi : i < maxTblents) (hc : s.curent = i) (c : Which) :
    ∃ k d, changeAttr f s c = some {s.setCopy c k with drive := d} ∧ Changed f i (s.copy c) k := by
  have hi' : s.curent.toNat = i := by omega
  simp only [changeAttr,hi']
  by_cases h₀ : 0 < (s.copy c).lba
  · have hk : Copy.Usable {s.copy c with table := withAttr f (s.copy c).table i} :=
      (hu c h₀.ne').congr (SameFields.refl _)
    obtain ⟨hdr,d,hg,hf⟩ := gptupdate_mem hk s.drive hi
    refine ⟨⟨hdr,withAttr f (s.copy c).table i,(s.copy c).lba⟩,d,?_,rfl,hf,?_⟩
    · rw [if_pos h₀]
      simp only [withAttr] at hg ⊢
      rw [hg]
      rfl
    · rw [if_pos h₀.ne']
  · refine ⟨s.copy c,s.drive,?_,rfl,SameFields.refl _,?_⟩
    · rw [if_neg h₀]
      simp [GptBoot.setCopy]
    · rw [if_neg (by omega)]

theorem changeBoth_mem {f : BitVec 64 → BitVec 64} {s : GptBoot} {i : ℕ} (hu : s.Usable)
    (hi : i < maxTblents) (hc : s.curent = i) :
    ∃ cp d, changeBoth f s = some {s with copy := cp, drive := d} ∧
      ∀ c, Changed f i (s.copy c) (cp c) := by
  obtain ⟨k,d,h₁,hk⟩ := changeAttr_mem (f := f) hu hi hc .primary
  have hu₁ : GptBoot.Usable {s.setCopy .primary k with drive := d} := by
    intro c hl
    cases c with
    | primary =>
      simp only [GptBoot.setCopy,Function.update_self] at hl ⊢
      exact (hu .primary (hk.lba ▸ hl)).congr hk.fields
    | backup => exact hu .backup hl
  obtain ⟨k',d',h₂,hk'⟩ := changeAttr_mem (f := f) (s := {s.setCopy .primary k with drive := d}) hu₁ hi
    hc .backup
  refine ⟨Function.update (Function.update s.copy .primary k) .backup k',d',?_,?_⟩
  · simp only [changeBoth,h₁]
    exact h₂
  · intro c
    cases c with
    | primary => simpa using hk
    | backup => simpa [GptBoot.setCopy] using hk'

/-- The state of `gpt.c` between two rounds, as the enumeration sees it. -/
structure Sim (uuid n : ℕ) (g : Which) (s : GptBoot) (c : Cursor) : Prop where
  gpt : s.gpt = some g
  valid : (s.copy g).lba ≠ 0
  usable : s.Usable
  entries : hdrEntries (s.copy g).hdr = n
  cur : s.curent = c.cur
  phase : s.bootonce = c.phase
  flags : tableFlags (s.copy g).table uuid = c.flags

/-- Partitions are numbered from one. -/
def partNumber (i : ℕ) : ℤ := i+1

/-- One round: `gptfind`, and `gptbootfailed` if it found a partition, whose number it leaves in
`part`. -/
def bootRound (uuid : ℕ) (s : GptBoot) : Option (Option ℤ × GptBoot) := do
  let (r,s₁) ← gptfind uuid s (-1)
  if r = 0 then do return (some s₁.part,← gptbootfailed s₁) else return (none,s₁)

variable {uuid n : ℕ} {g : Which} {s : GptBoot} {c : Cursor}

theorem Sim.changed (h : Sim uuid n g s c) {f : BitVec 64 → BitVec 64} {i : ℕ} {cp : Which → Copy}
    (hk : ∀ c, Changed f i (s.copy c) (cp c)) :
    (cp g).lba ≠ 0 ∧ (∀ c, (cp c).lba ≠ 0 → (cp c).Usable) ∧ hdrEntries (cp g).hdr = n ∧
      (cp g).table = withAttr f (s.copy g).table i := by
  refine ⟨?_,?_,?_,?_⟩
  · rw [(hk g).lba]
    exact h.valid
  · intro c hl
    rw [(hk c).lba] at hl
    exact (h.usable c hl).congr (hk c).fields
  · rw [(hk g).fields.entries,h.entries]
  · rw [(hk g).table,if_pos h.valid]

theorem gptbootfailed_eq (hg : s.gpt = some g) {i : ℕ} (hi : i < maxTblents) (hc : s.curent = i) :
    gptbootfailed s = if isBootonce (s.copy g).table i then changeBoth failBootonce s else some s := by
  have hr : ¬ ((i : ℤ) < 0 ∨ (maxTblents : ℤ) ≤ i) := by
    have : (i : ℤ) < maxTblents := by exact_mod_cast hi
    omega
  simp only [gptbootfailed,hg,Option.bind_eq_bind,Option.bind_some,if_neg hr,hc,Int.toNat_natCast]

/-- An entry for one boot only is taken off the enumeration when it fails. -/
theorem gptfound_once (h : Sim uuid n g s c) {i : ℕ} (hi : i < maxTblents)
    (ho : isBootonce (s.copy g).table i = true) :
    ∃ s₁ s₂, gptfound s g i = some (0,s₁) ∧ s₁.part = i+1 ∧ gptbootfailed s₁ = some s₂ ∧
      Sim uuid n g s₂ (c.take i) := by
  obtain ⟨cp,d,h₁,hk₁⟩ := changeBoth_mem (f := clearBootme) (s := s.select g i) h.usable hi rfl
  obtain ⟨hl₁,hu₁,he₁,ht₁⟩ := h.changed hk₁
  obtain ⟨cp',d',h₂,hk₂⟩ := changeBoth_mem (f := failBootonce) (i := i)
    (s := {s.select g i with copy := cp, drive := d}) hu₁ hi rfl
  have hone : isBootonce (cp g).table i = true := by
    have := congrArg Flags.once (tableFlags_clearBootme (s.copy g).table uuid i)
    rw [← ht₁] at this
    exact (congrFun this i).trans ho
  have hflags : tableFlags (cp' g).table uuid = (c.take i).flags := by
    rw [(hk₂ g).table,if_pos hl₁,ht₁,tableFlags_tried _ _ _ ho,h.flags]
    rfl
  refine ⟨{s.select g i with copy := cp, drive := d},{s.select g i with copy := cp', drive := d'},
    ?_,rfl,?_,⟨h.gpt,?_,?_,?_,rfl,h.phase,hflags⟩⟩
  · simp only [gptfound,ho,if_true,h₁]
    rfl
  · exact (gptbootfailed_eq (s := {s.select g i with copy := cp, drive := d}) h.gpt hi rfl).trans
      ((if_pos hone).trans h₂)
  · rw [(hk₂ g).lba]
    exact hl₁
  · intro c hl
    rw [(hk₂ c).lba] at hl
    exact (hu₁ c hl).congr (hk₂ c).fields
  · rw [(hk₂ g).fields.entries]
    exact he₁

/-- Any other entry keeps its flags, the cursor moves on to it. -/
theorem gptfound_plain (h : Sim uuid n g s c) {i : ℕ} (hi : i < maxTblents)
    (ho : isBootonce (s.copy g).table i = false) :
    ∃ s₁ s₂, gptfound s g i = some (0,s₁) ∧ s₁.part = i+1 ∧ gptbootfailed s₁ = some s₂ ∧
      Sim uuid n g s₂ (c.take i) := by
  have htake : (c.take i).flags = c.flags := by
    have hc : c.flags.once i = false := by rw [← h.flags]; exact ho
    simp [Cursor.take,Flags.tried,hc]
  refine ⟨s.select g i,s.select g i,by simp [gptfound,ho],rfl,?_,
    ⟨h.gpt,h.valid,h.usable,h.entries,rfl,h.phase,h.flags.trans htake.symm⟩⟩
  exact (gptbootfailed_eq (s := s.select g i) h.gpt hi rfl).trans (if_neg (by
    rw [Bool.not_eq_true]
    exact ho))

theorem bootRound_of_found {s₀ : GptBoot} (h : Sim uuid n g s c) {i : ℕ} (hi : i < maxTblents)
    (hf : gptfind uuid s₀ (-1) = gptfound s g i) :
    ∃ s', bootRound uuid s₀ = some (some (partNumber i),s') ∧ Sim uuid n g s' (c.take i) := by
  have hround : ∃ s₁ s₂, gptfound s g i = some (0,s₁) ∧ s₁.part = i+1 ∧ gptbootfailed s₁ = some s₂ ∧
      Sim uuid n g s₂ (c.take i) := by
    cases ho : isBootonce (s.copy g).table i with
    | true => exact gptfound_once h hi ho
    | false => exact gptfound_plain h hi ho
  obtain ⟨s₁,s₂,h₁,hp,h₂,hs⟩ := hround
  refine ⟨s₂,?_,hs⟩
  simp only [bootRound,hf,h₁,Option.bind_eq_bind,Option.bind_some,if_true,h₂,hp]
  rfl

theorem bootRound_of_none {s' : GptBoot} (hf : gptfind uuid s (-1) = some (-1,s')) :
    bootRound uuid s = some (none,s') := by
  simp only [bootRound,hf]
  rfl

theorem gptfind_search (h : Sim uuid n g s c) (hn : n ≤ maxTblents) :
    gptfind uuid s (-1) = gptsearch uuid s g n := by
  simp only [gptfind,h.gpt,Option.bind_eq_bind,Option.bind_some,h.entries]
  rw [if_neg hn.not_gt,if_neg (by omega)]

theorem Sim.typ (h : Sim uuid n g s c) : isType (s.copy g).table uuid = c.flags.typ := by
  rw [← h.flags,tableFlags]

theorem Sim.both (h : Sim uuid n g s c) : (fun i => isType (s.copy g).table uuid i &&
    isBootme (s.copy g).table i && isBootonce (s.copy g).table i) = c.flags.both := by
  funext i
  rw [← h.flags,Flags.both,tableFlags]

theorem Sim.single (h : Sim uuid n g s c) : (fun i => isType (s.copy g).table uuid i &&
    isBootme (s.copy g).table i && !isBootonce (s.copy g).table i) = c.flags.single := by
  funext i
  rw [← h.flags,Flags.single,tableFlags]

theorem scan_lt {p : ℕ → Bool} {k i : ℕ} (hk : k ≤ n) (h : scan p (n-k) k = some i) : i < n := by
  cases scan_below p hk with
  | inl h' =>
    rw [h'.1] at h
    cases h
  | inr h' =>
    obtain ⟨j,hj,-,hjn,-,-⟩ := h'
    rw [hj] at h
    cases h
    exact hjn

/-- Each round of the source is one round of the enumeration. -/
theorem bootRound_next (h : Sim uuid n g s c) (hn : n ≤ maxTblents) :
    ∃ s', bootRound uuid s = some ((c.next n).1.map partNumber,s') ∧
      Sim uuid n g s' (c.next n).2 := by
  have hs := gptfind_search h hn
  rw [gptsearch,h.both,h.single,h.typ,h.cur] at hs
  dsimp only at hs
  have hmid : Sim uuid n g {s with bootonce := false} {c with phase := false} :=
    ⟨h.gpt,h.valid,h.usable,h.entries,h.cur,rfl,h.flags⟩
  unfold Cursor.next
  dsimp only
  by_cases hd : n ≤ (c.cur+1).toNat
  · rw [if_pos hd] at hs ⊢
    exact ⟨_,bootRound_of_none hs,h.gpt,h.valid,h.usable,h.entries,rfl,h.phase,h.flags⟩
  · rw [if_neg hd] at hs ⊢
    cases h₁ : (if c.phase then scan c.flags.both (n-(c.cur+1).toNat) (c.cur+1).toNat else none) with
    | some i =>
      rw [h.phase,h₁] at hs
      have hi : i < n := by
        cases hp : c.phase with
        | true =>
          rw [hp,if_pos rfl] at h₁
          exact scan_lt (by omega) h₁
        | false => simp [hp] at h₁
      exact bootRound_of_found h (by omega) hs
    | none =>
      rw [h.phase,h₁] at hs
      dsimp only at hs ⊢
      cases h₂ : scan c.flags.single (n-if c.phase then 0 else (c.cur+1).toNat)
          (if c.phase then 0 else (c.cur+1).toNat) with
      | some i =>
        rw [h₂] at hs
        have hi : i < n := scan_lt (by split_ifs <;> omega) h₂
        exact bootRound_of_found hmid (by omega) hs
      | none =>
        rw [h₂] at hs
        dsimp only at hs ⊢
        cases h₃ : (if c.cur = -1 then scan c.flags.typ n 0 else none) with
        | some i =>
          rw [h₃] at hs
          have hi : i < n := by
            split_ifs at h₃
            exact scan_lt (Nat.zero_le n) (by simpa using h₃)
          exact bootRound_of_found hmid (by omega) hs
        | none =>
          rw [h₃] at hs
          exact ⟨_,bootRound_of_none hs,h.gpt,h.valid,h.usable,h.entries,rfl,rfl,h.flags⟩

/-- The partition numbers of the first `k` rounds, `none` where `gptfind` returns `-1`. -/
def bootRounds (uuid : ℕ) : ℕ → GptBoot → Option (List (Option ℤ))
  | 0, _ => some []
  | k+1, s => do
    let (r,s') ← bootRound uuid s
    return r :: (← bootRounds uuid k s')

attribute [local grind =] bootRounds

theorem bootRounds_eq (h : Sim uuid n g s c) (hn : n ≤ maxTblents) (k : ℕ) :
    bootRounds uuid k s =
      some ((List.range k).map fun j => (c.offer n j).map partNumber) := by
  induction k generalizing s c with
  | zero => rfl
  | succ k ih =>
    obtain ⟨s',hs,hsim⟩ := bootRound_next h hn
    simp only [bootRounds,hs,Option.bind_eq_bind,Option.bind_some,ih hsim]
    rw [List.range_succ_eq_map,List.map_cons,List.map_map]
    rfl

end Simulation

section Reading
variable {s s' : GptBoot}

/-- The copy `gpthdr` and `gpttable` point into. -/
def GptBoot.selected (s : GptBoot) : Copy := s.copy (s.gpt.getD .primary)

def GptBoot.bootFlags (s : GptBoot) (uuid : ℕ) : Flags := tableFlags s.selected.table uuid

/-- Repeated calls offer the partitions in boot order, each once, and then none. -/
def BootsInOrder (uuid : ℕ) (s : GptBoot) : Prop :=
  let order := Cursor.bootOrder (s.bootFlags uuid) (hdrEntries s.selected.hdr)
  order.Nodup ∧ ∀ k, bootRounds uuid k s =
    some ((List.range k).map fun j => order[j]?.map partNumber)

theorem gptread_sim (h : gptread s = some (0,s'))
    (he : ∀ c, (s'.copy c).lba ≠ 0 → hdrEntsz (s'.copy c).hdr = entStructSize) (uuid : ℕ) :
    ∃ g, s'.gpt = some g ∧ hdrEntries (s'.copy g).hdr ≤ maxTblents ∧
      Sim uuid (hdrEntries (s'.copy g).hdr) g s' ⟨-1,true,tableFlags (s'.copy g).table uuid⟩ := by
  obtain ⟨s₁,s₂,h₁,h₂,h₃,hr⟩ := gptread_steps h
  have hf := readCopies_found h₁
  obtain ⟨kp,dp,rfl,hpl,hpf⟩ := convCopy_mem h₂
  obtain ⟨kb,db,rfl,hbl,hbf⟩ := convCopy_mem h₃
  have hcopy : ∀ c, ((Function.update (Function.update s₁.copy .primary kp) .backup kb) c).lba =
      (s₁.copy c).lba ∧ SameFields (s₁.copy c).hdr
        ((Function.update (Function.update s₁.copy .primary kp) .backup kb) c).hdr := by
    intro c
    cases c with
    | primary => exact ⟨hpl,hpf⟩
    | backup => exact ⟨hbl,hbf⟩
  simp only [GptBoot.setCopy] at he hr ⊢
  have hvalid : ∀ c, (s₁.copy c).lba ≠ 0 → HdrOk (s₁.copy c).hdr (s₁.copy c).lba := fun c hl =>
    (readCopy_true_lba (hf.valid c hl)).2
  have hent : ∀ c, (s₁.copy c).lba ≠ 0 → hdrEntries (s₁.copy c).hdr ≤ maxTblents := fun c hl =>
    (hvalid c hl).accepted.2.2.2.2.1
  have hany : (s₁.copy .primary).lba ≠ 0 ∨ (s₁.copy .backup).lba ≠ 0 := by
    by_contra hno
    rw [not_or,not_not,not_not,← (hcopy .primary).1,← (hcopy .backup).1] at hno
    exact absurd (hr.trans (if_pos hno)) (by decide)
  obtain ⟨g,hg,hgl⟩ := hf.gpt hany
  refine ⟨g,hg,?_,hg,?_,?_,rfl,hf.curent,hf.bootonce,rfl⟩
  · rw [(hcopy g).2.entries]
    exact hent g hgl
  · rw [(hcopy g).1]
    exact hgl
  · intro c hl
    have hl' : (s₁.copy c).lba ≠ 0 := by rwa [← (hcopy c).1]
    refine ⟨?_,?_,he c hl⟩
    · dsimp only
      rw [(hcopy c).2.entries]
      exact hent c hl'
    · dsimp only
      rw [(hcopy c).2.size]
      exact (hvalid c hl').size

theorem offers_eq_iff (c : Cursor) (n : ℕ) (l : List ℕ) : c.Yields n l ↔
    ∀ k, (List.range k).map (fun j => (c.offer n j).map partNumber) =
      (List.range k).map (fun j => l[j]?.map partNumber) := by
  constructor
  · intro h k
    apply List.map_congr_left
    intro j _
    rw [h j]
  · intro h j
    have hj := List.map_inj_left.mp (h (j+1)) j (by simp)
    apply Option.map_injective (f := partNumber) _ hj
    intro a b hab
    simp only [partNumber] at hab
    omega

/-- Partitions are offered in boot order exactly if the last entry of the table is not one to be
tried once while another is to be booted plainly: the cursor then leaves the table before the second
phase. -/
theorem gptfind_bootOrder_iff (s s' : GptBoot) (uuid : ℕ) (h : gptread s = some (0,s'))
    (he : ∀ c, (s'.copy c).lba ≠ 0 → hdrEntsz (s'.copy c).hdr = entStructSize) :
    BootsInOrder uuid s' ↔
      ¬ (0 < hdrEntries s'.selected.hdr ∧
        (s'.bootFlags uuid).both (hdrEntries s'.selected.hdr-1) = true ∧
        ∃ i < hdrEntries s'.selected.hdr, (s'.bootFlags uuid).single i = true) := by
  obtain ⟨g,hg,hn,hsim⟩ := gptread_sim h he uuid
  have hsel : s'.selected = s'.copy g := by simp [GptBoot.selected,hg]
  have hiff := Cursor.yields_bootOrder_iff (n := hdrEntries (s'.copy g).hdr)
    (s := ⟨-1,true,tableFlags (s'.copy g).table uuid⟩) rfl rfl
  have hs : hits (tableFlags (s'.copy g).table uuid).single (hdrEntries (s'.copy g).hdr) 0 ≠ [] ↔
      ∃ i < hdrEntries (s'.copy g).hdr, (tableFlags (s'.copy g).table uuid).single i = true := by
    constructor
    · intro hne
      obtain ⟨i,hi⟩ := List.exists_mem_of_ne_nil _ hne
      rw [mem_hits] at hi
      exact ⟨i,hi.2.1,hi.2.2⟩
    · rintro ⟨i,hi,hp⟩
      exact List.ne_nil_of_mem (mem_hits.mpr ⟨by omega,hi,hp⟩)
  rw [hs] at hiff
  simp only [BootsInOrder,GptBoot.bootFlags,hsel]
  rw [← hiff,offers_eq_iff]
  simp only [bootRounds_eq hsim hn,Option.some.injEq]
  exact and_iff_right (Cursor.bootOrder_nodup _ _)

end Reading

/-- A drive with a primary GPT of two entries of one type, for some attributes and the checksums of the header and the
entries. -/
def flagDrive (first second : UInt8) (hdrCrc arrayCrc : ℕ) : Drive where
  sectors := 3
  byte j :=
    if j < 512 then 0
    else if j < 1024 then
      lePut (lePut (lePut (lePut (lePut (lePut (lePut (lePut (lePut (fun _ => 0) 0 8 gptHdrSig) 8 4
        0x10000) 12 4 92) 16 4 hdrCrc) 24 8 1) 72 8 2) 80 4 2) 84 4 128) 88 4 arrayCrc (j-512)
    else if j = 1024 ∨ j = 1152 then 1 else if j = 1079 then first else if j = 1207 then second else 0
  readOk _ := true
  writeOk _ := true
  drvsize := 3
  fits := Drive.three_fits

/-- Both entries have `BOOTME`, and the first also has `BOOTONCE`. -/
def firstOnceDrive : Drive := flagDrive 12 8 0x0b3e5f3f 0xad8bd8ff

/-- Here the second has it. -/
def lastOnceDrive : Drive := flagDrive 8 12 0xa69eca92 0x08a54663

theorem gptread_single {d : Drive} (h : (gptread (freshBoot d)).map (fun r => (r.1,(r.2.copy .backup).lba,
    hdrEntsz (r.2.copy .primary).hdr)) = some (0,0,128)) : ∃ s, gptread (freshBoot d) = some (0,s) ∧
    ∀ c, (s.copy c).lba ≠ 0 → hdrEntsz (s.copy c).hdr = entStructSize := by
  obtain ⟨⟨r,s⟩,hs,he⟩ := Option.map_eq_some_iff.mp h
  simp only [Prod.mk.injEq] at he
  obtain ⟨rfl,hb,hp⟩ := he
  refine ⟨s,hs,?_⟩
  intro c hl
  cases c with
  | primary => exact hp
  | backup => exact absurd hb hl

/-- Of the first drive the entries are offered in order. -/
theorem gptfind_bootOrder_iff_firstOnce : ∃ s, gptread (freshBoot firstOnceDrive) = some (0,s) ∧ BootsInOrder 1 s := by
  obtain ⟨s,hs,he⟩ := gptread_single (d := firstOnceDrive) (by decide +kernel)
  have h : (gptread (freshBoot firstOnceDrive)).map (fun r => (r.2.bootFlags 1).both (hdrEntries r.2.selected.hdr-1)) =
      some false := by decide +kernel
  rw [hs] at h
  have hboth : (s.bootFlags 1).both (hdrEntries s.selected.hdr-1) = false := Option.some.inj h
  refine ⟨s,hs,(gptfind_bootOrder_iff _ s 1 hs he).mpr ?_⟩
  rintro ⟨-,hlast,-⟩
  rw [hboth] at hlast
  cases hlast

/-- After the second entry has failed the first one, still marked for booting, is never offered. -/
theorem gptfind_skips_second_phase : ∃ s, gptread (freshBoot lastOnceDrive) = some (0,s) ∧
    (∀ c, (s.copy c).lba ≠ 0 → hdrEntsz (s.copy c).hdr = entStructSize) ∧ ¬ BootsInOrder 1 s := by
  obtain ⟨s,hs,he⟩ := gptread_single (d := lastOnceDrive) (by decide +kernel)
  refine ⟨s,hs,he,?_⟩
  have h : (gptread (freshBoot lastOnceDrive)).map (fun r => (bootRounds 1 2 r.2,
      Cursor.bootOrder (r.2.bootFlags 1) (hdrEntries r.2.selected.hdr))) =
      some (some [some 2,none],[1,0]) := by decide +kernel
  rw [hs] at h
  simp only [Option.map_some,Option.some.injEq,Prod.mk.injEq] at h
  intro hb
  have h₂ := hb.2 2
  rw [h.1,h.2] at h₂
  exact absurd h₂ (by decide)

end Blub.Boot
