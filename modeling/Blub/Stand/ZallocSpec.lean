import Blub.Stand.Zalloc

/-! The list walks of `znalloc` and `zfree` compute first fit and coalescing insertion on the
spans of the free list. -/
namespace Blub.Stand
open Blub.Spans

/-- The nodes threaded through memory from `p` are the spans `l`. -/
def Chain (mem : ℕ → MemNode) : ℕ → List Span → Prop
  | p, [] => p = 0
  | p, t :: l => p = t.base ∧ (mem p).mrBytes = t.len ∧ Chain mem (mem p).mrNext l

attribute [local grind =] Chain

@[simp] theorem chain_nil (mem : ℕ → MemNode) (p : ℕ) : Chain mem p [] ↔ p = 0 := Iff.rfl

@[simp] theorem chain_cons (mem : ℕ → MemNode) (p : ℕ) (t : Span) (l : List Span) :
    Chain mem p (t :: l) ↔
      p = t.base ∧ (mem p).mrBytes = t.len ∧ Chain mem (mem p).mrNext l := Iff.rfl

theorem Chain.congr {mem mem' : ℕ → MemNode} {p : ℕ} {l : List Span} (h : Chain mem p l)
    (he : ∀ t ∈ l, mem' t.base = mem t.base) : Chain mem' p l := by
  induction l generalizing p with
  | nil => exact h
  | cons t l ih =>
    rw [List.forall_mem_cons] at he
    rw [chain_cons] at h ⊢
    obtain ⟨rfl,hb,hn⟩ := h
    rw [he.1]
    exact ⟨rfl,hb,ih hn he.2⟩

namespace Arena

@[simp] theorem set_mp (s : Arena) (n : ℕ) (m : MemNode) : (s.set n m).mp = s.mp := rfl

@[simp] theorem set_mem (s : Arena) (n : ℕ) (m : MemNode) :
    (s.set n m).mem = Function.update s.mem n m := rfl

@[simp] theorem setUsed_mem (s : Arena) (n : ℕ) : (s.setUsed n).mem = s.mem := rfl

@[simp] theorem setUsed_mp (s : Arena) (n : ℕ) :
    (s.setUsed n).mp = {s.mp with mpUsed := n} := rfl

@[simp] theorem get_setUsed (s : Arena) (n : ℕ) (pmn : Pmn) : (s.setUsed n).get pmn = s.get pmn := by
  cases pmn <;> rfl

@[simp] theorem get_setNext (s : Arena) (pmn : Pmn) (v : ℕ) : (s.setNext pmn v).get pmn = v := by
  cases pmn <;> simp [get,setNext]

theorem setNext_mem (s : Arena) (pmn : Pmn) (v a : ℕ) (h : pmn ≠ .next a) :
    (s.setNext pmn v).mem a = s.mem a := by
  cases pmn with
  | first => rfl
  | next b =>
    have : a ≠ b := by
      rintro rfl
      exact h rfl
    simp [setNext,Function.update_of_ne this]

theorem setNext_mrBytes (s : Arena) (pmn : Pmn) (v a : ℕ) :
    ((s.setNext pmn v).mem a).mrBytes = (s.mem a).mrBytes := by
  cases pmn with
  | first => rfl
  | next b =>
    by_cases h : a = b
    · simp [setNext,h]
    · simp [setNext,Function.update_of_ne h]

/-- Linking a cell in changes the head of the list and nothing else of the pool. -/
theorem setNext_mp (s : Arena) (pmn : Pmn) (v : ℕ) :
    (s.setNext pmn v).mp = {s.mp with mpFirst := (s.setNext pmn v).mp.mpFirst} := by
  cases pmn <;> rfl

end Arena

theorem wrap_of_lt {w n : ℕ} (h : n < 2^w) : wrap w n = n := Nat.mod_eq_of_lt h

theorem sub_of_le {w m n : ℕ} (hn : n ≤ m) (hm : m < 2^w) : sub w m n = m-n := by
  rw [sub,wrap_of_lt (hn.trans_lt hm),wrap,show m+(2^w-n) = m-n+2^w by omega,Nat.add_mod_right]
  exact Nat.mod_eq_of_lt (by omega)

theorem alignBytes_dvd (w n : ℕ) : 16 ∣ alignBytes w n := by
  exact Nat.dvd_sub_mod _

theorem alignBytes_of_dvd {w n : ℕ} (h : 16 ∣ n) (hn : n+15 < 2^w) : alignBytes w n = n := by
  simp only [alignBytes,mallocAlign,wrap_of_lt hn]
  omega

/-- What the loops rely on: a list of non-empty areas inside the address space, none at `NULL`. -/
structure Nodes (w : ℕ) (l : List Span) : Prop where
  gapped : Gapped l
  valid : ∀ t ∈ l, 0 < t.base ∧ 0 < t.len ∧ t.last < 2^w

theorem Nodes.cons {w : ℕ} {t : Span} {l : List Span} (h : Nodes w (t :: l)) :
    (∀ u ∈ l, t.last < u.base) ∧ (0 < t.base ∧ 0 < t.len ∧ t.last < 2^w) ∧ Nodes w l := by
  obtain ⟨hg,hv⟩ := h
  rw [gapped_cons] at hg
  rw [List.forall_mem_cons] at hv
  exact ⟨hg.1,hv.1,hg.2,hv.2⟩

theorem Nodes.head_not_covered {w : ℕ} {t : Span} {l : List Span} (h : Nodes w (t :: l)) :
    ¬ Covers l t.base := by
  rintro ⟨u,hu,hx⟩
  have := h.cons.1 u hu
  simp only [Span.Has,Span.last] at hx this
  omega

/-- The link `pmn` lies outside of the areas `l`. -/
def Pmn.Outside (pmn : Pmn) (l : List Span) : Prop := ∀ a, pmn = .next a → ¬ Covers l a

theorem Pmn.Outside.ne {pmn : Pmn} {l : List Span} (h : pmn.Outside l) {a : ℕ} (ha : Covers l a) :
    pmn ≠ .next a := fun he => h a he ha

theorem Pmn.Outside.tail {pmn : Pmn} {t : Span} {l : List Span} (h : pmn.Outside (t :: l)) :
    pmn.Outside l := fun a ha hc => h a ha ((covers_cons _ _ _).mpr (Or.inr hc))

theorem covers_base {l : List Span} {t : Span} (ht : t ∈ l) (hp : 0 < t.len) : Covers l t.base :=
  ⟨t,ht,le_rfl,by simp only [Span.last]; omega⟩

/-- What work at the link `pmn` on the areas `l` leaves alone. -/
structure Frame (pmn : Pmn) (l : List Span) (s s' : Arena) : Prop where
  mem : ∀ a, ¬ Covers l a → pmn ≠ .next a → s'.mem a = s.mem a
  bytes : ∀ a, ¬ Covers l a → (s'.mem a).mrBytes = (s.mem a).mrBytes
  first : pmn ≠ .first → s'.mp.mpFirst = s.mp.mpFirst

theorem Frame.get_eq {t : Span} {l : List Span} {s s' : Arena} (h : Frame (.next t.base) l s s')
    {pmn : Pmn} (ho : pmn.Outside (t :: l)) (ht : 0 < t.len) : s'.get pmn = s.get pmn := by
  cases pmn with
  | first => exact h.first (by simp)
  | next a =>
    have hne : Pmn.next a ≠ .next t.base := ho.ne (covers_base (by simp) ht)
    simp only [Arena.get]
    rw [h.mem a (ho.tail a rfl) hne.symm]

/-- Work behind the first area of a list leaves that area in place. -/
theorem Frame.cons {t : Span} {l : List Span} {s s' : Arena} (h : Frame (.next t.base) l s s')
    (pmn : Pmn) (ht : 0 < t.len) : Frame pmn (t :: l) s s' where
  mem a ha _ := by
    rw [covers_cons,not_or] at ha
    apply h.mem a ha.2
    rintro ⟨⟩
    exact ha.1 ⟨le_rfl,by simp only [Span.last]; omega⟩
  bytes a ha := by
    rw [covers_cons,not_or] at ha
    exact h.bytes a ha.2
  first _ := h.first (by simp)

section Alloc
variable {w bytes : ℕ}

theorem znallocLoop_none (l : List Span) (s : Arena) (pmn : Pmn) (fuel : ℕ) (hf : l.length < fuel)
    (hc : Chain s.mem (s.get pmn) l) (hn : Nodes w l) (ht : take bytes l = none) :
    znallocLoop w bytes fuel pmn s = .ok (0,s) := by
  induction l generalizing pmn fuel with
  | nil =>
    cases fuel with
    | zero => simp at hf
    | succ fuel =>
      rw [chain_nil] at hc
      simp [znallocLoop,hc]
  | cons t l ih =>
    cases fuel with
    | zero => simp at hf
    | succ fuel =>
      obtain ⟨-,⟨hp,-,-⟩,hn'⟩ := hn.cons
      rw [chain_cons] at hc
      obtain ⟨hb,hl,hc⟩ := hc
      unfold take at ht
      split_ifs at ht with h
      rw [Option.map_eq_none_iff] at ht
      rw [List.length_cons] at hf
      have := ih (.next t.base) fuel (by omega) (by simpa [Arena.get,← hb] using hc) hn' ht
      simp only [znallocLoop,hl]
      rw [if_neg (by omega),if_pos h,hb]
      exact this

/-- Unlinking the whole of an area. -/
theorem Chain.unlink {t : Span} {l : List Span} {s : Arena} {pmn : Pmn} (hn : Nodes w (t :: l))
    (ho : pmn.Outside (t :: l)) (hc : Chain s.mem (s.mem t.base).mrNext l) :
    Chain (s.setNext pmn (s.mem t.base).mrNext).mem
      ((s.setNext pmn (s.mem t.base).mrNext).get pmn) l := by
  rw [Arena.get_setNext]
  refine hc.congr fun u hu => s.setNext_mem _ _ _ ?_
  exact ho.ne ((covers_cons _ _ _).mpr (Or.inr (covers_base hu (hn.cons.2.2.valid u hu).2.1)))

/-- Moving the node of an area up by the bytes that are cut from its front. -/
theorem Chain.cutFront {t : Span} {l : List Span} {s : Arena} {pmn : Pmn} (hn : Nodes w (t :: l))
    (ho : pmn.Outside (t :: l)) (hc : Chain s.mem (s.mem t.base).mrNext l) (hb : bytes < t.len) :
    let s' := (s.set (t.base+bytes) ⟨(s.mem t.base).mrNext,t.len-bytes⟩).setNext pmn (t.base+bytes)
    Chain s'.mem (s'.get pmn) (⟨t.base+bytes,t.len-bytes⟩ :: l) := by
  intro s'
  have hcov : Covers (t :: l) (t.base+bytes) := by
    refine (covers_cons _ _ _).mpr (Or.inl ?_)
    simp only [Span.Has,Span.last]
    omega
  have hnew : s'.mem (t.base+bytes) = ⟨(s.mem t.base).mrNext,t.len-bytes⟩ := by
    rw [Arena.setNext_mem _ _ _ _ (ho.ne hcov)]
    simp
  have hget : s'.get pmn = t.base+bytes := Arena.get_setNext _ _ _
  rw [chain_cons,hget,hnew]
  refine ⟨rfl,rfl,hc.congr fun u hu => ?_⟩
  have hu' := hn.cons.1 u hu
  have hne : u.base ≠ t.base+bytes := by
    simp only [Span.last] at hu'
    omega
  rw [Arena.setNext_mem]
  · simp [Function.update_of_ne hne]
  · exact ho.ne ((covers_cons _ _ _).mpr (Or.inr (covers_base hu (hn.cons.2.2.valid u hu).2.1)))

theorem znallocLoop_some (l l' : List Span) (s : Arena) (pmn : Pmn) (fuel p : ℕ)
    (hf : l.length < fuel) (hc : Chain s.mem (s.get pmn) l) (hn : Nodes w l) (ho : pmn.Outside l)
    (ht : take bytes l = some (p,l')) :
    ∃ s', znallocLoop w bytes fuel pmn s = .ok (p,s') ∧ Chain s'.mem (s'.get pmn) l' ∧
      Frame pmn l s s' ∧
      s'.mp = {s.mp with mpFirst := s'.mp.mpFirst, mpUsed := wrap w (s.mp.mpUsed+bytes)} := by
  induction l generalizing pmn fuel l' with
  | nil => simp [take] at ht
  | cons t l ih =>
    cases fuel with
    | zero => simp at hf
    | succ fuel =>
      obtain ⟨-,⟨hp,hlen,hlast⟩,hn'⟩ := hn.cons
      rw [chain_cons] at hc
      obtain ⟨hb,hl,hc⟩ := hc
      rw [List.length_cons] at hf
      simp only [znallocLoop,hl]
      rw [if_neg (by omega)]
      unfold take at ht
      split_ifs at ht with h₁ h₂
      · obtain ⟨⟨q,r⟩,hr,he⟩ := Option.map_eq_some_iff.mp ht
        obtain ⟨rfl,rfl⟩ := Prod.mk.inj he
        have hout : (Pmn.next t.base).Outside l := by
          rintro a ⟨⟩
          exact hn.head_not_covered
        obtain ⟨s',hs,hc',hfr,hmp⟩ := ih r (.next t.base) fuel (by omega)
          (by simpa [Arena.get,← hb] using hc) hn' hout hr
        refine ⟨s',by rw [if_pos h₁,hb,hs],?_,hfr.cons pmn hlen,hmp⟩
        rw [hfr.get_eq ho hlen,chain_cons,hb]
        refine ⟨rfl,?_,hc'⟩
        rw [hfr.bytes _ hn.head_not_covered,← hb,hl]
      · obtain ⟨rfl,rfl⟩ := Prod.mk.inj (Option.some.inj ht)
        rw [if_neg h₁,if_pos h₂,hb]
        rw [hb] at hc
        refine ⟨_,rfl,by simpa using Chain.unlink hn ho hc,⟨?_,?_,?_⟩,?_⟩
        · intro a ha hne
          exact s.setNext_mem _ _ _ hne
        · intro a ha
          exact s.setNext_mrBytes _ _ _
        · intro hne
          cases pmn with
          | first => exact absurd rfl hne
          | next a => rfl
        · rw [Arena.setUsed_mp,Arena.setNext_mp]
      · obtain ⟨rfl,rfl⟩ := Prod.mk.inj (Option.some.inj ht)
        have hlt : bytes < t.len := by omega
        have hcov : Covers (t :: l) (t.base+bytes) := by
          refine (covers_cons _ _ _).mpr (Or.inl ?_)
          simp only [Span.Has,Span.last]
          omega
        simp only [Span.last] at hlast
        rw [hb] at hc
        rw [if_neg h₁,if_neg h₂,hb,wrap_of_lt (show t.base+bytes < 2^w by omega),
          sub_of_le hlt.le (by omega)]
        refine ⟨_,rfl,by simpa using Chain.cutFront hn ho hc hlt,⟨?_,?_,?_⟩,?_⟩
        · intro a ha hne
          rw [Arena.setUsed_mem,Arena.setNext_mem _ _ _ _ hne,Arena.set_mem,Function.update_of_ne]
          rintro rfl
          exact ha hcov
        · intro a ha
          rw [Arena.setUsed_mem,Arena.setNext_mrBytes,Arena.set_mem,Function.update_of_ne]
          rintro rfl
          exact ha hcov
        · intro hne
          cases pmn with
          | first => exact absurd rfl hne
          | next a => rfl
        · rw [Arena.setUsed_mp,Arena.setNext_mp]
          rfl

end Alloc

section Free
variable {w : ℕ}

/-- Linking a new area in front of `t`, merged with it where the two touch. -/
theorem Chain.linkIn {x t : Span} {l : List Span} {s : Arena} {pmn : Pmn} (hn : Nodes w (t :: l))
    (hc : Chain s.mem t.base (t :: l)) (hx : x.last ≤ t.base) (hxl : 0 < x.len)
    (ho : pmn.Outside (x :: t :: l)) :
    Chain ((s.set x.base (if x.last = t.base then ⟨(s.mem t.base).mrNext,x.len+t.len⟩
      else ⟨t.base,x.len⟩)).setNext pmn x.base).mem x.base (join x (t :: l)) := by
  set node : MemNode := if x.last = t.base then ⟨(s.mem t.base).mrNext,x.len+t.len⟩
    else ⟨t.base,x.len⟩ with hnode
  have hnew : ((s.set x.base node).setNext pmn x.base).mem x.base = node := by
    rw [Arena.setNext_mem _ _ _ _ (ho.ne (covers_base (by simp) hxl))]
    simp
  have hold : ∀ u ∈ t :: l, ((s.set x.base node).setNext pmn x.base).mem u.base = s.mem u.base := by
    intro u hu
    have hne : u.base ≠ x.base := by
      have : t.base ≤ u.base := by
        cases hu with
        | head => exact le_rfl
        | tail _ hu =>
          have := hn.cons.1 u hu
          simp only [Span.last] at this
          omega
      simp only [Span.last] at hx
      omega
    have hcov : Covers (x :: t :: l) u.base := covers_base (by simp [hu]) (hn.valid u hu).2.1
    rw [Arena.setNext_mem _ _ _ _ (ho.ne hcov),Arena.set_mem,Function.update_of_ne hne]
  rw [join_cons]
  split_ifs with h
  · rw [if_pos h] at hnode
    rw [chain_cons,hnew,congrArg MemNode.mrNext hnode,congrArg MemNode.mrBytes hnode]
    exact ⟨rfl,rfl,hc.2.2.congr (fun u hu => hold u (by simp [hu]))⟩
  · rw [if_neg h] at hnode
    rw [chain_cons,hnew,congrArg MemNode.mrNext hnode,congrArg MemNode.mrBytes hnode]
    exact ⟨rfl,rfl,hc.congr hold⟩

theorem mergePrev_mp (ptr : ℕ) (pmn : Pmn) (s : Arena) : (mergePrev w ptr pmn s).mp = s.mp := by
  cases pmn with
  | first => rfl
  | next a =>
    unfold mergePrev
    dsimp only
    split_ifs <;> rfl

theorem mergePrev_mem (ptr a b : ℕ) (s : Arena) (h : b ≠ a) :
    (mergePrev w ptr (.next a) s).mem b = s.mem b := by
  unfold mergePrev
  dsimp only
  split_ifs
  · simp [Function.update_of_ne h]
  · rfl

theorem Chain.mergePrev {q y : Span} {l : List Span} {s : Arena} (hc : Chain s.mem q.base (q :: y :: l))
    (hq : q.last ≤ y.base) (hl : ∀ t ∈ l, y.last ≤ t.base) (hlen : 0 < q.len) (hy : y.last < 2^w) :
    Chain (mergePrev w y.base (.next q.base) s).mem q.base (join q (y :: l)) := by
  simp only [chain_cons,true_and] at hc
  obtain ⟨hqb,hqn,hyb,hc⟩ := hc
  simp only [Span.last] at hq hy hl
  rw [hqn] at hyb hc
  rw [join_cons]
  have hw : wrap w (q.base+(s.mem q.base).mrBytes) = q.last := by
    rw [hqb]
    exact wrap_of_lt (by omega)
  simp only [Stand.mergePrev,hw]
  split_ifs with h
  · simp only [Span.last] at h
    rw [hqb,hyb,wrap_of_lt (show q.len+y.len < 2^w by omega)]
    simp only [Arena.set_mem,chain_cons,Function.update_self,true_and]
    refine hc.congr fun t ht => Function.update_of_ne ?_ _ _
    have := hl t ht
    omega
  · simp only [chain_cons,true_and]
    exact ⟨hqb,hqn,hqn ▸ hyb,hqn ▸ hc⟩

theorem join_eq_cons (x : Span) (l : List Span) :
    ∃ y r, join x l = y :: r ∧ y.base = x.base := by
  cases l with
  | nil => exact ⟨x,[],rfl,rfl⟩
  | cons t l =>
    rw [join_cons]
    split_ifs
    · exact ⟨_,_,rfl,rfl⟩
    · exact ⟨_,_,rfl,rfl⟩

theorem gapped_head {y : Span} {r : List Span} (h : Gapped (y :: r)) : ∀ t ∈ r, y.last ≤ t.base := by
  intro t ht
  exact (((gapped_cons _ _).mp h).1 t ht).le

/-- Freeing behind the last area. -/
theorem zfreeLoop_last (q x : Span) (s : Arena) (fuel : ℕ) (hc : Chain s.mem q.base [q])
    (hn : Nodes w [q]) (hq : q.last ≤ x.base) (hxw : x.last < 2^w) :
    ∃ s', zfreeLoop w x.base x.len (fuel+1) (.next q.base) s = .ok s' ∧ s'.mp = s.mp ∧
      Chain s'.mem q.base (join q [x]) ∧
      ∀ a, a ≠ x.base → ¬ Covers [q] a → s'.mem a = s.mem a := by
  obtain ⟨-,⟨-,hqlen,hqlast⟩,-⟩ := hn.cons
  simp only [chain_cons,chain_nil,true_and] at hc
  obtain ⟨hqb,hqn⟩ := hc
  have hw : wrap w (q.base+(s.mem q.base).mrBytes) = q.last := by
    rw [hqb]
    exact wrap_of_lt hqlast
  have hne : q.base ≠ x.base := by
    simp only [Span.last] at hq
    omega
  have hcov : ∀ a, ¬ Covers [q] a → a ≠ q.base := by
    rintro a ha rfl
    exact ha (covers_base (by simp) hqlen)
  simp only [zfreeLoop,Arena.get,hqn,if_true,hw,join_cons]
  by_cases h : q.last = x.base
  · rw [if_neg (not_not.mpr h),if_pos h]
    simp only [Span.last] at h hxw
    rw [hqb,wrap_of_lt (show q.len+x.len < 2^w by omega)]
    refine ⟨_,rfl,rfl,by simp,?_⟩
    intro a hax ha
    exact Function.update_of_ne (hcov a ha) _ _
  · rw [if_pos h,if_neg h]
    refine ⟨_,rfl,rfl,?_,?_⟩
    · simp [Arena.setNext,Function.update_of_ne hne,Function.update_of_ne hne.symm,hqb]
    · intro a hax ha
      simp [Arena.setNext,Function.update_of_ne (hcov a ha),Function.update_of_ne hax]

section Before
variable {x t : Span} {l : List Span} {s : Arena} (hn : Nodes w (t :: l))
  (hc : Chain s.mem t.base (t :: l)) (hx : x.last ≤ t.base) (hxl : 0 < x.len)
include hn hc hx hxl

/-- Freeing in front of `t`: the step of the loop, and what is linked at `pmn` before the bytes
are merged with the area in front of them. -/
theorem zfreeLoop_before (pmn : Pmn) (hget : s.get pmn = t.base) (ho : pmn.Outside (x :: t :: l))
    (fuel : ℕ) : ∃ s₁, zfreeLoop w x.base x.len (fuel+1) pmn s = .ok (mergePrev w x.base pmn s₁) ∧
      s₁.get pmn = x.base ∧ Chain s₁.mem x.base (join x (t :: l)) ∧
      s₁.mp = {s.mp with mpFirst := s₁.mp.mpFirst} ∧ (pmn ≠ .first → s₁.mp = s.mp) ∧
      (∀ a, a ≠ x.base → (s₁.mem a).mrBytes = (s.mem a).mrBytes) ∧
      ∀ a, a ≠ x.base → pmn ≠ .next a → s₁.mem a = s.mem a := by
  have ht := (hn.valid t (by simp))
  have hxe : wrap w (x.base+x.len) = x.last := wrap_of_lt (by
    have := ht.2.2
    simp only [Span.last] at hx this ⊢
    omega)
  have hxt : x.last = t.base → wrap w (x.len+t.len) = x.len+t.len := by
    intro h
    apply wrap_of_lt
    have := ht.2.2
    simp only [Span.last] at h this
    omega
  have hle : x.base ≤ t.base := by
    simp only [Span.last] at hx
    omega
  refine ⟨(s.set x.base (if x.last = t.base then ⟨(s.mem t.base).mrNext,x.len+t.len⟩
    else ⟨t.base,x.len⟩)).setNext pmn x.base,?_,Arena.get_setNext _ _ _,
    Chain.linkIn hn hc hx hxl ho,?_,?_,?_,?_⟩
  · simp only [zfreeLoop,hget,if_neg ht.1.ne',if_pos hle,hxe,if_neg hx.not_gt,hc.2.1]
    by_cases h : x.last = t.base
    · rw [if_pos h,if_pos h,hxt h]
    · rw [if_neg h,if_neg h]
  · rw [Arena.setNext_mp]
    rfl
  · intro hne
    cases pmn with
    | first => exact absurd rfl hne
    | next a => rfl
  · intro a ha
    rw [Arena.setNext_mrBytes,Arena.set_mem,Function.update_of_ne ha]
  · intro a ha hne
    rw [Arena.setNext_mem _ _ _ _ hne,Arena.set_mem,Function.update_of_ne ha]

end Before

/-- The walk of `zfree` behind an area `q` that ends before the bytes to be freed. -/
theorem zfreeLoop_next (l : List Span) (q x : Span) (s : Arena) (fuel : ℕ) (hf : l.length < fuel)
    (hc : Chain s.mem q.base (q :: l)) (hn : Nodes w (q :: l)) (hx : ∀ t ∈ l, x.Apart t)
    (hq : q.last ≤ x.base) (hxl : 0 < x.len) (hxw : x.last < 2^w) :
    ∃ s', zfreeLoop w x.base x.len fuel (.next q.base) s = .ok s' ∧ s'.mp = s.mp ∧
      Chain s'.mem q.base (join q (put x l)) ∧
      ∀ a, a ≠ x.base → ¬ Covers (q :: l) a → s'.mem a = s.mem a := by
  induction l generalizing q fuel with
  | nil =>
    cases fuel with
    | zero => simp at hf
    | succ fuel => exact zfreeLoop_last q x s fuel hc hn hq hxw
  | cons t l ih =>
    cases fuel with
    | zero => simp at hf
    | succ fuel =>
      obtain ⟨hqt,⟨-,hqlen,hqlast⟩,hnt⟩ := hn.cons
      rw [List.forall_mem_cons] at hx
      have hxt := hx.1
      obtain ⟨-,hqb,hct⟩ := hc
      have hget : s.get (.next q.base) = t.base := hct.1
      have hct' : Chain s.mem t.base (t :: l) := hget ▸ hct
      have hqlt : q.last < t.base := hqt t (by simp)
      have hcq : ∀ a, ¬ Covers (q :: t :: l) a → a ≠ q.base := by
        rintro a ha rfl
        exact ha (covers_base (by simp) hqlen)
      have hqx : q.base ≠ x.base := by
        simp only [Span.last] at hq
        omega
      by_cases hle : x.base ≤ t.base
      · have hxlt : x.last ≤ t.base := by
          have := (hnt.valid t (by simp)).2.1
          simp only [Span.Apart,Span.last] at hxt ⊢
          omega
        have ho : (Pmn.next q.base).Outside (x :: t :: l) := by
          rintro a ⟨⟩
          rw [covers_cons,not_or]
          refine ⟨?_,hn.head_not_covered⟩
          simp only [Span.Has,Span.last] at hq ⊢
          omega
        obtain ⟨s₁,hs,hg,hj,-,hmp,hby,hfr⟩ := zfreeLoop_before hnt hct' hxlt hxl _ hget ho fuel
        have hput : put x (t :: l) = join x (t :: l) := if_pos hle
        obtain ⟨y,r,hyr,hy⟩ := join_eq_cons x (t :: l)
        have hgap : Gapped (y :: r) := by
          rw [← hyr,← hput]
          exact gapped_put x (t :: l) hnt.gapped (by simpa using hx)
            (fun u hu => (hnt.valid u hu).2.1)
        have hylast : y.last < 2^w := by
          apply join_forall x (t :: l) (P := fun u => u.last < 2^w) ?_ hxw
            (fun u hu => (hnt.valid u hu).2.2) y (by simp [hyr])
          intro u v _ hv huv
          simp only [Span.last] at hv huv ⊢
          omega
        rw [hput,hyr]
        rw [hyr] at hj
        refine ⟨_,hs,?_,?_,?_⟩
        · rw [mergePrev_mp,hmp (by simp)]
        · rw [← hy]
          refine Chain.mergePrev ?_ (by rwa [hy]) (gapped_head hgap) hqlen hylast
          have hg' : (s₁.mem q.base).mrNext = x.base := hg
          rw [chain_cons,hby q.base hqx,hg']
          exact ⟨rfl,hqb,hj⟩
        · intro a hax ha
          have haq := hcq a ha
          rw [mergePrev_mem _ _ _ _ haq,hfr a hax (by simpa using haq.symm)]
      · have htx : t.last ≤ x.base := by
          simp only [Span.Apart,Span.last] at hxt ⊢
          omega
        have hte : wrap w (t.base+t.len) = t.last := wrap_of_lt (hnt.valid t (by simp)).2.2
        rw [List.length_cons] at hf
        obtain ⟨s',hs,hmp,hj,hfr⟩ := ih t fuel (by omega) hct' hnt hx.2 htx
        have hput : put x (t :: l) = join t (put x l) := if_neg hle
        have hfar : ∀ u ∈ join t (put x l), q.last < u.base := by
          apply join_forall t (put x l) (P := fun u => q.last < u.base) (fun _ _ h _ _ => h) hqlt
          apply put_forall x l (P := fun u => q.last < u.base) (fun _ _ h _ _ => h)
          · simp only [Span.last] at htx hqlt ⊢
            omega
          · exact fun u hu => hqt u (by simp [hu])
        refine ⟨s',?_,hmp,?_,?_⟩
        · simp only [zfreeLoop,hget,if_neg (hnt.valid t (by simp)).1.ne',if_neg hle,hct'.2.1,hte,
            if_neg htx.not_gt]
          exact hs
        · rw [hput,join_of_lt q _ hfar,chain_cons,hfr q.base hqx hn.head_not_covered]
          refine ⟨rfl,hqb,?_⟩
          have hg' : (s.mem q.base).mrNext = t.base := hget
          rwa [hg']
        · intro a hax ha
          rw [covers_cons,not_or] at ha
          exact hfr a hax ha.2

/-- The walk of `zfree` from the head of the list inserts the bytes at their place. -/
theorem zfreeLoop_first (l : List Span) (x : Span) (s : Arena) (fuel : ℕ) (hf : l.length < fuel)
    (hc : Chain s.mem s.mp.mpFirst l) (hn : Nodes w l) (hx : ∀ t ∈ l, x.Apart t) (hxl : 0 < x.len)
    (hxw : x.last < 2^w) :
    ∃ s', zfreeLoop w x.base x.len fuel .first s = .ok s' ∧
      s'.mp = {s.mp with mpFirst := s'.mp.mpFirst} ∧ Chain s'.mem s'.mp.mpFirst (put x l) ∧
      ∀ a, a ≠ x.base → ¬ Covers l a → s'.mem a = s.mem a := by
  cases fuel with
  | zero => simp at hf
  | succ fuel =>
    cases l with
    | nil =>
      rw [chain_nil] at hc
      refine ⟨(s.set x.base ⟨0,x.len⟩).setNext .first x.base,?_,rfl,?_,?_⟩
      · simp [zfreeLoop,Arena.get,hc]
      · simp [put,Arena.setNext]
      · intro a ha _
        exact Function.update_of_ne ha _ _
    | cons t l =>
      have hget : s.get .first = t.base := hc.1
      have hc' : Chain s.mem t.base (t :: l) := hget ▸ hc
      have hxt := hx t (by simp)
      have htv := hn.valid t (by simp)
      by_cases hle : x.base ≤ t.base
      · have hxlt : x.last ≤ t.base := by
          simp only [Span.Apart,Span.last] at hxt ⊢
          omega
        obtain ⟨s₁,hs,hg,hj,hmp,-,-,hfr⟩ :=
          zfreeLoop_before hn hc' hxlt hxl .first hget (by rintro a ⟨⟩) fuel
        refine ⟨s₁,hs,hmp,?_,fun a ha _ => hfr a ha fun ht => by cases ht⟩
        rw [show put x (t :: l) = join x (t :: l) from if_pos hle]
        have hg' : s₁.mp.mpFirst = x.base := hg
        rwa [hg']
      · have htx : t.last ≤ x.base := by
          simp only [Span.Apart,Span.last] at hxt ⊢
          omega
        have hte : wrap w (t.base+t.len) = t.last := wrap_of_lt htv.2.2
        rw [List.length_cons] at hf
        obtain ⟨s',hs,hmp,hj,hfr⟩ := zfreeLoop_next l t x s fuel (by omega) hc' hn
          (fun u hu => hx u (by simp [hu])) htx hxl hxw
        refine ⟨s',?_,by rw [hmp],?_,hfr⟩
        · simp only [zfreeLoop,hget,if_neg htv.1.ne',if_neg hle,hc'.2.1,hte,if_neg htx.not_gt]
          exact hs
        · rw [hmp,show put x (t :: l) = join t (put x l) from if_neg hle]
          have hg' : s.mp.mpFirst = t.base := hget
          rwa [hg']

end Free

end Blub.Stand
