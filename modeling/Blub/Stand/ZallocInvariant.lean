import Blub.Stand.ZallocSpec

/-! The free list over whole runs of a pool that is extended, allocated from and freed to. -/
namespace Blub.Stand
open Blub.Spans

def MemPool.Inside (mp : MemPool) (t : Span) : Prop := mp.mpBase ≤ t.base ∧ t.last ≤ mp.mpEnd

/-- The free areas of a pool, in list order. Gapped areas increase strictly, are disjoint and
never touch. -/
structure FreeList (s : Arena) (l : List Span) : Prop where
  chain : Chain s.mem s.mp.mpFirst l
  gapped : Gapped l
  aligned : ∀ t ∈ l, 16 ∣ t.base ∧ 16 ∣ t.len ∧ 0 < t.len
  inside : ∀ t ∈ l, s.mp.Inside t
  accounted : s.mp.mpSize = s.mp.mpUsed+total l

/-- Where a pool lies in the address space. -/
@[mk_iff] structure MemPool.Placed (w : ℕ) (mp : MemPool) : Prop where
  last : mp.mpEnd = mp.mpBase+mp.mpSize
  fits : mp.mpEnd < 2^w
  base : mp.mpSize ≠ 0 → 0 < mp.mpBase

section Calls
variable {w : ℕ} {s : Arena} {l : List Span}

theorem FreeList.nodes (h : FreeList s l) (hp : s.mp.Placed w) : Nodes w l where
  gapped := h.gapped
  valid t ht := by
    have ha := h.aligned t ht
    have hi := h.inside t ht
    have hl := hp.last
    have hf := hp.fits
    have hb := hp.base
    simp only [MemPool.Inside,Span.last] at hi ⊢
    omega

theorem FreeList.length_lt (h : FreeList s l) : l.length < walkFuel s := by
  have ha : ∀ t ∈ l, 16 ≤ t.len := fun t ht => by
    have := h.aligned t ht
    omega
  have := length_mul_le l 16 ha
  have := h.accounted
  simp only [walkFuel,mallocAlign]
  omega

theorem znalloc_ok (h : FreeList s l) (hp : s.mp.Placed w) (bytes : ℕ)
    (hb : alignBytes w bytes ≠ 0) :
    (take (alignBytes w bytes) l = none ∧ znalloc w s bytes = .ok (0,s)) ∨
      ∃ p l' s', take (alignBytes w bytes) l = some (p,l') ∧ znalloc w s bytes = .ok (p,s') ∧
        FreeList s' l' ∧ s'.mp.mpBase = s.mp.mpBase ∧ s'.mp.mpEnd = s.mp.mpEnd ∧
        s'.mp.mpSize = s.mp.mpSize ∧ ∀ a, ¬ Covers l a → s'.mem a = s.mem a := by
  set n := alignBytes w bytes with hn
  have hacc := h.accounted
  have hlast := hp.last
  have hfits := hp.fits
  have hsub : sub w s.mp.mpSize s.mp.mpUsed = total l := by
    rw [sub_of_le (by omega) (by omega)]
    omega
  simp only [znalloc,← hn,if_neg hb,hsub]
  cases ht : take n l with
  | none =>
    refine Or.inl ⟨rfl,?_⟩
    split_ifs
    · exact znallocLoop_none l s .first _ h.length_lt h.chain (h.nodes hp) ht
    · rfl
  | some r =>
    obtain ⟨p,l'⟩ := r
    right
    have htot := take_total ht
    obtain ⟨s',hs,hc,hfr,hmp⟩ := znallocLoop_some l l' s .first _ p h.length_lt h.chain (h.nodes hp)
      (by rintro a ⟨⟩) ht
    refine ⟨p,l',s',rfl,by rw [if_pos (by omega),hs],⟨hc,take_gapped ht h.gapped,?_,?_,?_⟩,
      by rw [hmp],by rw [hmp],by rw [hmp],fun a ha => hfr.mem a ha nofun⟩
    · apply take_forall ht h.aligned
      intro t ht hlt
      have := alignBytes_dvd w bytes
      dsimp only
      omega
    · apply take_forall ht (P := s'.mp.Inside)
      · intro t ht
        rw [hmp]
        exact h.inside t ht
      · intro t ht hlt
        simp only [MemPool.Inside,Span.last] at ht ⊢
        omega
    · rw [hmp]
      dsimp only
      rw [wrap_of_lt (by omega)]
      omega

theorem zfree_ok (h : FreeList s l) (hp : s.mp.Placed w) (ptr bytes : ℕ)
    (hb : alignBytes w bytes ≠ 0) (ha : 16 ∣ ptr) (hin : s.mp.Inside ⟨ptr,alignBytes w bytes⟩)
    (hd : ∀ x, Span.Has ⟨ptr,alignBytes w bytes⟩ x → ¬ Covers l x) :
    ∃ s', zfree w s ptr bytes = .ok s' ∧ FreeList s' (put ⟨ptr,alignBytes w bytes⟩ l) ∧
      s'.mp.mpBase = s.mp.mpBase ∧ s'.mp.mpEnd = s.mp.mpEnd ∧ s'.mp.mpSize = s.mp.mpSize ∧
      ∀ a, a ≠ ptr → ¬ Covers l a → s'.mem a = s.mem a := by
  set n := alignBytes w bytes with hn
  have hlast := hp.last
  have hfits := hp.fits
  have hacc := h.accounted
  obtain ⟨hlo,hhi⟩ := hin
  simp only [Span.last] at hlo hhi
  have hapart : ∀ t ∈ l, Span.Apart ⟨ptr,n⟩ t := by
    intro t ht
    apply Span.apart_of_disjoint _ _ (Nat.pos_of_ne_zero hb) (h.aligned t ht).2.2
    intro x hx hxt
    exact hd x hx ⟨t,ht,hxt⟩
  have hnp := h.nodes hp
  have hgap := gapped_put ⟨ptr,n⟩ l h.gapped hapart (fun t ht => (h.aligned t ht).2.2)
  have hins : ∀ t ∈ put ⟨ptr,n⟩ l, s.mp.Inside t := by
    apply put_forall ⟨ptr,n⟩ l (P := s.mp.Inside) ?_ ⟨hlo,hhi⟩ h.inside
    intro t u ht hu htu
    simp only [MemPool.Inside,Span.last] at ht hu htu ⊢
    omega
  have htot : total (put ⟨ptr,n⟩ l) = n+total l := total_put _ _
  -- the areas lie in the pool, so what is freed was counted as used
  have hroom := total_le _ hgap s.mp.mpBase s.mp.mpEnd (by omega) hins
  have hused : sub w s.mp.mpUsed n = s.mp.mpUsed-n := sub_of_le (by omega) (by omega)
  obtain ⟨s',hs,hmp,hc,hfr⟩ := zfreeLoop_first l ⟨ptr,n⟩ (s.setUsed (s.mp.mpUsed-n)) (walkFuel s)
    h.length_lt h.chain hnp hapart (Nat.pos_of_ne_zero hb) (by simp only [Span.last]; omega)
  have hwild : ¬ (ptr < s.mp.mpBase ∨ s.mp.mpEnd < wrap w (ptr+n) ∨ ptr%mallocAlign ≠ 0) := by
    rw [wrap_of_lt (by omega)]
    simp only [mallocAlign]
    omega
  refine ⟨s',?_,⟨hc,hgap,?_,?_,?_⟩,by rw [hmp]; rfl,by rw [hmp]; rfl,by rw [hmp]; rfl,hfr⟩
  · simp only [zfree,← hn,if_neg hb,if_neg hwild,hused]
    exact hs
  · apply put_forall ⟨ptr,n⟩ l (P := fun t => 16 ∣ t.base ∧ 16 ∣ t.len ∧ 0 < t.len) ?_
      ⟨ha,hn ▸ alignBytes_dvd w bytes,Nat.pos_of_ne_zero hb⟩ h.aligned
    intro t u ht hu _
    refine ⟨ht.1,Nat.dvd_add ht.2.1 hu.2.1,?_⟩
    dsimp only
    omega
  · rw [hmp]
    exact hins
  · rw [hmp]
    simp only [Arena.setUsed_mp,htot]
    omega

/-- A pool grows to cover the new bytes; size and use grow by the same amount. -/
theorem zextendPool_mp (hp : s.mp.Placed w) (hu : s.mp.mpUsed ≤ s.mp.mpSize) (base n : ℕ)
    (hb : 0 < base) (hf : base+n < 2^w) :
    (zextendPool w s base n).mp.Placed w ∧
      (zextendPool w s base n).mp.mpSize+s.mp.mpUsed =
        (zextendPool w s base n).mp.mpUsed+s.mp.mpSize ∧
      (zextendPool w s base n).mp.Inside ⟨base,n⟩ ∧
      ∀ t : Span, 0 < t.len → s.mp.Inside t → (zextendPool w s base n).mp.Inside t := by
  have hlast := hp.last
  have hfits := hp.fits
  have hbase := hp.base
  have hpend : wrap w (s.mp.mpBase+s.mp.mpSize) = s.mp.mpEnd := by
    rw [← hlast]
    exact wrap_of_lt hfits
  have htop : wrap w (base+n) = base+n := wrap_of_lt hf
  have hlow : base < s.mp.mpBase → sub w s.mp.mpBase base = s.mp.mpBase-base := fun h =>
    sub_of_le h.le (by omega)
  have hhigh : s.mp.mpEnd < base+n → sub w (base+n) s.mp.mpEnd = base+n-s.mp.mpEnd := fun h =>
    sub_of_le h.le hf
  by_cases h₀ : s.mp.mpSize = 0
  · simp only [zextendPool,if_pos h₀,htop]
    refine ⟨⟨rfl,hf,fun _ => hb⟩,by omega,⟨le_rfl,le_rfl⟩,?_⟩
    intro t ht hin
    simp only [MemPool.Inside,Span.last] at hin
    omega
  · simp only [zextendPool,if_neg h₀,hpend,htop]
    by_cases h₁ : base < s.mp.mpBase
    · by_cases h₂ : s.mp.mpEnd < base+n
      · simp only [if_pos h₁,if_pos h₂,hlow h₁,hhigh h₂]
        simp only [wrap_of_lt (show s.mp.mpSize+(s.mp.mpBase-base) < 2^w by omega),
          wrap_of_lt (show s.mp.mpUsed+(s.mp.mpBase-base) < 2^w by omega),
          wrap_of_lt (show s.mp.mpSize+(s.mp.mpBase-base)+(base+n-s.mp.mpEnd) < 2^w by omega),
          wrap_of_lt (show s.mp.mpUsed+(s.mp.mpBase-base)+(base+n-s.mp.mpEnd) < 2^w by omega)]
        simp only [MemPool.placed_iff,MemPool.Inside,Span.last]
        refine ⟨⟨?_,?_,?_⟩,?_,⟨?_,?_⟩,?_⟩ <;> omega
      · simp only [if_pos h₁,if_neg h₂,hlow h₁]
        simp only [wrap_of_lt (show s.mp.mpSize+(s.mp.mpBase-base) < 2^w by omega),
          wrap_of_lt (show s.mp.mpUsed+(s.mp.mpBase-base) < 2^w by omega)]
        simp only [MemPool.placed_iff,MemPool.Inside,Span.last]
        refine ⟨⟨?_,?_,?_⟩,?_,⟨?_,?_⟩,?_⟩ <;> omega
    · by_cases h₂ : s.mp.mpEnd < base+n
      · simp only [if_neg h₁,if_pos h₂,hhigh h₂]
        simp only [wrap_of_lt (show s.mp.mpSize+(base+n-s.mp.mpEnd) < 2^w by omega),
          wrap_of_lt (show s.mp.mpUsed+(base+n-s.mp.mpEnd) < 2^w by omega)]
        simp only [MemPool.placed_iff,MemPool.Inside,Span.last]
        refine ⟨⟨?_,?_,?_⟩,?_,⟨?_,?_⟩,?_⟩ <;> omega
      · simp only [if_neg h₁,if_neg h₂]
        refine ⟨hp,by omega,⟨?_,?_⟩,fun t _ ht => ht⟩ <;> simp only [Span.last] <;> omega

theorem zextendPool_list (s : Arena) (base n : ℕ) :
    (zextendPool w s base n).mem = s.mem ∧ (zextendPool w s base n).mp.mpFirst = s.mp.mpFirst := by
  unfold zextendPool
  dsimp only
  split_ifs <;> exact ⟨rfl,rfl⟩

theorem zextendPool_ok (h : FreeList s l) (hp : s.mp.Placed w) (base n : ℕ) (hb : 0 < base)
    (hf : base+n < 2^w) : FreeList (zextendPool w s base n) l := by
  have hacc := h.accounted
  obtain ⟨-,hsize,-,hin⟩ := zextendPool_mp hp (by omega) base n hb hf
  obtain ⟨hmem,hfirst⟩ := zextendPool_list (w := w) s base n
  refine ⟨?_,h.gapped,h.aligned,fun t ht => hin t (h.aligned t ht).2.2 (h.inside t ht),by omega⟩
  rw [hmem,hfirst]
  exact h.chain

end Calls

/-- A pool in use: the regions it was given and the blocks handed out and not yet freed, each
with the byte count it was requested with. -/
structure Session where
  arena : Arena
  regions : List Span
  live : List Span

inductive Op
  /-- `zextendPool(base, n); zfree(base, n)` -/
  | extend (base n : ℕ)
  | alloc (bytes : ℕ)
  | free (ptr bytes : ℕ)
  /-- the owner of a block writes to it -/
  | store (a : ℕ) (m : MemNode)

section Runs
variable (w : ℕ)

/-- The bytes a block takes. -/
def block (b : Span) : Span := ⟨b.base,alignBytes w b.len⟩

def Session.exec (s : Session) : Op → Except Panic Session
  | .extend base n => do
    let a ← zfree w (zextendPool w s.arena base n) base n
    return ⟨a,⟨base,n⟩ :: s.regions,s.live⟩
  | .alloc bytes => do
    let (p,a) ← znalloc w s.arena bytes
    return ⟨a,s.regions,if p = 0 then s.live else ⟨p,bytes⟩ :: s.live⟩
  | .free ptr bytes => do
    let a ← zfree w s.arena ptr bytes
    return ⟨a,s.regions,s.live.erase ⟨ptr,bytes⟩⟩
  | .store a m => return {s with arena := s.arena.set a m}

/-- What callers keep to. A region is aligned at both ends, lies in the address space without
`NULL`, and is apart from the regions given before. -/
def Session.Allowed (s : Session) : Op → Prop
  | .extend base n => 16 ∣ base ∧ 16 ∣ n ∧ 0 < base ∧ base+n < 2^w ∧
      ∀ r ∈ s.regions, Span.Apart ⟨base,n⟩ r
  | .alloc bytes => bytes+15 < 2^w
  | .free ptr bytes => ⟨ptr,bytes⟩ ∈ s.live
  | .store a _ => ∃ b ∈ s.live, (block w b).Has a

def Session.run (s : Session) : List Op → Except Panic Session
  | [] => .ok s
  | op :: ops => do (← s.exec w op).run ops

def Session.AllowedAll (s : Session) : List Op → Prop
  | [] => True
  | op :: ops => s.Allowed w op ∧
      match s.exec w op with
      | .ok s' => s'.AllowedAll ops
      | .error _ => True

attribute [local grind =] Session.exec Session.Allowed Session.run Session.AllowedAll

instance Session.decidableAllowed (s : Session) : (op : Op) → Decidable (s.Allowed w op)
  | .extend _ _ => inferInstanceAs (Decidable (_ ∧ _))
  | .alloc _ => inferInstanceAs (Decidable (_ < _))
  | .free _ _ => inferInstanceAs (Decidable (_ ∈ _))
  | .store a _ => inferInstanceAs (Decidable (∃ b ∈ s.live, (block w b).Has a))

instance Session.decidableAllowedAll (s : Session) : (ops : List Op) → Decidable (s.AllowedAll w ops)
  | [] => inferInstanceAs (Decidable True)
  | op :: ops =>
    @instDecidableAnd _ _ (s.decidableAllowed w op)
      (match s.exec w op with
        | .ok s' => s'.decidableAllowedAll ops
        | .error _ => inferInstanceAs (Decidable True))

/-- Live blocks and free areas are disjoint parts of the regions. -/
structure Session.Inv (s : Session) (l : List Span) : Prop where
  free : FreeList s.arena l
  placed : s.arena.mp.Placed w
  owned : ∀ x, Covers l x → Covers s.regions x
  inside : ∀ b ∈ s.live, alignBytes w b.len ≠ 0 →
    16 ∣ b.base ∧ s.arena.mp.Inside (block w b)
  apart : ∀ b ∈ s.live, ∀ x, (block w b).Has x → ¬ Covers l x ∧ Covers s.regions x
  distinct : s.live.Pairwise (fun b c => ∀ x, (block w b).Has x → ¬ (block w c).Has x)

end Runs

section Steps
variable {w : ℕ} {s : Session} {l : List Span}

theorem not_covers_of_apart {r : List Span} {t : Span} {x : ℕ} (h : ∀ u ∈ r, t.Apart u)
    (hx : Covers r x) : ¬ t.Has x := by
  obtain ⟨u,hu,hux⟩ := hx
  have := h u hu
  simp only [Span.Apart,Span.Has,Span.last] at this hux ⊢
  omega

/-- A region that is added to the pool and freed to it. -/
theorem Session.Inv.extend (h : s.Inv w l) (base n : ℕ) (ha : s.Allowed w (.extend base n)) (h₀ : n ≠ 0) :
    ∃ a, zfree w (zextendPool w s.arena base n) base n = .ok a ∧
      Session.Inv w ⟨a,⟨base,n⟩ :: s.regions,s.live⟩ (put ⟨base,n⟩ l) ∧
      ∀ x, x ≠ base → ¬ Covers l x → a.mem x = s.arena.mem x := by
  obtain ⟨hb,hn,hb₀,hf,hr⟩ := ha
  have hacc := h.free.accounted
  have hext := zextendPool_ok h.free h.placed base n hb₀ hf
  obtain ⟨hplaced,-,hin,hmono⟩ := zextendPool_mp h.placed (by omega) base n hb₀ hf
  have halign : alignBytes w n = n := alignBytes_of_dvd hn (by omega)
  have hfresh : ∀ x, Covers s.regions x → ¬ Span.Has ⟨base,n⟩ x := fun x =>
    not_covers_of_apart hr
  obtain ⟨a,hz,hfree,hbase,hend,hsize,hfr⟩ := zfree_ok hext hplaced base n (by rwa [halign]) hb
    (by rwa [halign]) (by
      rw [halign]
      intro x hx hc
      exact hfresh x (h.owned x hc) hx)
  rw [halign] at hfree
  refine ⟨a,hz,⟨hfree,?_,?_,?_,?_,h.distinct⟩,?_⟩
  · rw [MemPool.placed_iff] at hplaced ⊢
    rwa [hbase,hend,hsize]
  · intro x hx
    rw [covers_put] at hx
    exact (covers_cons _ _ _).mpr (hx.imp_right (h.owned x))
  · intro b hbl hne
    obtain ⟨h₁,h₂⟩ := h.inside b hbl hne
    have h₃ := hmono _ (Nat.pos_of_ne_zero hne) h₂
    refine ⟨h₁,?_⟩
    simpa only [MemPool.Inside,hbase,hend] using h₃
  · intro b hbl x hx
    obtain ⟨h₁,h₂⟩ := h.apart b hbl x hx
    rw [covers_put,not_or]
    exact ⟨⟨hfresh x h₂,h₁⟩,(covers_cons _ _ _).mpr (Or.inr h₂)⟩
  · intro x hx hc
    rw [hfr x hx hc,(zextendPool_list s.arena base n).1]

theorem exec_extend (h : s.Inv w l) (base n : ℕ) (ha : s.Allowed w (.extend base n)) :
    ∃ s' l', s.exec w (.extend base n) = .ok s' ∧ s'.Inv w l' := by
  by_cases h₀ : n = 0
  · obtain ⟨hb,hn,hb₀,hf,hr⟩ := ha
    have hacc := h.free.accounted
    obtain ⟨hplaced,-,-,hmono⟩ := zextendPool_mp h.placed (by omega) base n hb₀ hf
    refine ⟨⟨zextendPool w s.arena base n,⟨base,n⟩ :: s.regions,s.live⟩,l,?_,
      zextendPool_ok h.free h.placed base n hb₀ hf,hplaced,?_,?_,?_,h.distinct⟩
    · simp only [Session.exec,zfree,alignBytes_of_dvd hn (show n+15 < 2^w by omega),if_pos h₀]
      rfl
    · intro x hx
      exact (covers_cons _ _ _).mpr (Or.inr (h.owned x hx))
    · intro b hbl hne
      obtain ⟨h₁,h₂⟩ := h.inside b hbl hne
      exact ⟨h₁,hmono _ (Nat.pos_of_ne_zero hne) h₂⟩
    · intro b hbl x hx
      obtain ⟨h₁,h₂⟩ := h.apart b hbl x hx
      exact ⟨h₁,(covers_cons _ _ _).mpr (Or.inr h₂)⟩
  · obtain ⟨a,hz,hinv,-⟩ := h.extend base n ha h₀
    exact ⟨_,_,by simp only [Session.exec,hz]; rfl,hinv⟩

/-- A block cut from the free areas joins the live ones. -/
theorem Session.Inv.handOut (h : s.Inv w l) {a : Arena} {l' : List Span} {p bytes : ℕ}
    (hfree : FreeList a l') (hbase : a.mp.mpBase = s.arena.mp.mpBase)
    (hend : a.mp.mpEnd = s.arena.mp.mpEnd) (hsize : a.mp.mpSize = s.arena.mp.mpSize)
    (hin : alignBytes w bytes ≠ 0 → 16 ∣ p ∧ s.arena.mp.Inside (block w ⟨p,bytes⟩))
    (hcut : ∀ x, (block w ⟨p,bytes⟩).Has x → Covers l x)
    (hrest : ∀ x, Covers l' x → Covers l x ∧ ¬ (block w ⟨p,bytes⟩).Has x) :
    Session.Inv w ⟨a,s.regions,⟨p,bytes⟩ :: s.live⟩ l' where
  free := hfree
  placed := by
    have := h.placed
    rw [MemPool.placed_iff] at this ⊢
    rwa [hbase,hend,hsize]
  owned x hx := h.owned x (hrest x hx).1
  inside := by
    rw [List.forall_mem_cons]
    simp only [MemPool.Inside,hbase,hend]
    exact ⟨hin,h.inside⟩
  apart := by
    rw [List.forall_mem_cons]
    constructor
    · intro x hx
      exact ⟨fun hc => (hrest x hc).2 hx,h.owned x (hcut x hx)⟩
    · intro b hb x hx
      obtain ⟨h₁,h₂⟩ := h.apart b hb x hx
      exact ⟨fun hc => h₁ (hrest x hc).1,h₂⟩
  distinct := by
    refine List.Pairwise.cons ?_ h.distinct
    intro b hb x hx hbx
    exact (h.apart b hb x hbx).1 (hcut x hx)

theorem exec_alloc_eq {bytes p : ℕ} {a : Arena} (h : znalloc w s.arena bytes = .ok (p,a)) :
    s.exec w (.alloc bytes) = .ok ⟨a,s.regions,if p = 0 then s.live else ⟨p,bytes⟩ :: s.live⟩ := by
  simp only [Session.exec,h]
  rfl

/-- An allocation that cuts a block from the free areas, or finds none that is large enough. -/
theorem Session.Inv.alloc (h : s.Inv w l) (bytes : ℕ) (h₀ : alignBytes w bytes ≠ 0) :
    (take (alignBytes w bytes) l = none ∧ znalloc w s.arena bytes = .ok (0,s.arena)) ∨
      ∃ p a l', znalloc w s.arena bytes = .ok (p,a) ∧ p ≠ 0 ∧
        Session.Inv w ⟨a,s.regions,⟨p,bytes⟩ :: s.live⟩ l' ∧
        ∀ x, ¬ Covers l x → a.mem x = s.arena.mem x := by
  refine (znalloc_ok h.free h.placed bytes h₀).imp_right ?_
  rintro ⟨p,l',a,ht,hz,hfree,hbase,hend,hsize,hfr⟩
  obtain ⟨t,htl,rfl,hlen⟩ := take_source ht
  have hin := h.free.inside t htl
  have hal := h.free.aligned t htl
  refine ⟨t.base,a,l',hz,((h.free.nodes h.placed).valid t htl).1.ne',?_,hfr⟩
  refine h.handOut hfree hbase hend hsize (fun _ => ⟨hal.1,?_⟩) (fun x hx => ⟨t,htl,?_⟩)
    (take_covers ht h.free.gapped)
  · simp only [MemPool.Inside,block,Span.last] at hin ⊢
    omega
  · simp only [Span.Has,block,Span.last] at hx ⊢
    omega

theorem exec_alloc (h : s.Inv w l) (bytes : ℕ) :
    ∃ s' l', s.exec w (.alloc bytes) = .ok s' ∧ s'.Inv w l' := by
  by_cases h₀ : alignBytes w bytes = 0
  · have hz : znalloc w s.arena bytes = .ok (sub w 0 1,s.arena) := by simp [znalloc,h₀]
    refine ⟨_,l,exec_alloc_eq hz,?_⟩
    split_ifs
    · exact h
    · have hempty : ∀ x, ¬ (block w ⟨sub w 0 1,bytes⟩).Has x := by
        intro x
        simp only [block,h₀,Span.Has,Span.last]
        omega
      exact h.handOut h.free rfl rfl rfl (fun hne => absurd h₀ hne)
        (fun x hx => absurd hx (hempty x)) (fun x hx => ⟨hx,hempty x⟩)
  · cases h.alloc bytes h₀ with
    | inl hz =>
      refine ⟨_,l,exec_alloc_eq hz.2,?_⟩
      rw [if_pos rfl]
      exact h
    | inr hz =>
      obtain ⟨p,a,l',hz,hp,hinv,-⟩ := hz
      refine ⟨_,l',exec_alloc_eq hz,?_⟩
      rw [if_neg hp]
      exact hinv

/-- A live block that goes back to the free areas. -/
theorem Session.Inv.release (h : s.Inv w l) {b : Span} (hb : b ∈ s.live) (h₀ : alignBytes w b.len ≠ 0) :
    ∃ a, zfree w s.arena b.base b.len = .ok a ∧
      Session.Inv w ⟨a,s.regions,s.live.erase b⟩ (put (block w b) l) ∧
      ∀ x, x ≠ b.base → ¬ Covers l x → a.mem x = s.arena.mem x := by
  have hmem : ∀ c ∈ s.live.erase b, c ∈ s.live := fun c hc => List.mem_of_mem_erase hc
  have hdist : (s.live.erase b).Pairwise _ := h.distinct.sublist List.erase_sublist
  have hsym : Std.Symm (fun b c : Span => ∀ x, (block w b).Has x → ¬ (block w c).Has x) :=
    ⟨fun b c hbc x hc hb => hbc x hb hc⟩
  have hothers : ∀ c ∈ s.live.erase b, ∀ x, (block w b).Has x → ¬ (block w c).Has x := by
    have := ((List.perm_cons_erase hb).pairwise_iff (fun {b c} => hsym.symm b c)).mp h.distinct
    exact (List.pairwise_cons.mp this).1
  obtain ⟨hal,hin⟩ := h.inside _ hb h₀
  obtain ⟨a,hz,hfree,hbase,hend,hsize,hfr⟩ := zfree_ok h.free h.placed b.base b.len h₀ hal hin
    (fun x hx => (h.apart _ hb x hx).1)
  refine ⟨a,hz,⟨hfree,?_,?_,?_,?_,hdist⟩,hfr⟩
  · have := h.placed
    rw [MemPool.placed_iff] at this ⊢
    rwa [hbase,hend,hsize]
  · intro x hx
    rw [covers_put] at hx
    exact hx.elim (fun hx => (h.apart _ hb x hx).2) (h.owned x)
  · intro c hc hne
    simpa only [MemPool.Inside,hbase,hend] using h.inside c (hmem c hc) hne
  · intro c hc x hx
    obtain ⟨h₁,h₂⟩ := h.apart c (hmem c hc) x hx
    rw [covers_put,not_or]
    exact ⟨⟨fun hp => hothers c hc x hp hx,h₁⟩,h₂⟩

theorem exec_free (h : s.Inv w l) (ptr bytes : ℕ) (ha : s.Allowed w (.free ptr bytes)) :
    ∃ s' l', s.exec w (.free ptr bytes) = .ok s' ∧ s'.Inv w l' := by
  have ha' : ⟨ptr,bytes⟩ ∈ s.live := ha
  by_cases h₀ : alignBytes w bytes = 0
  · have hmem : ∀ b ∈ s.live.erase ⟨ptr,bytes⟩, b ∈ s.live := fun b hb => List.mem_of_mem_erase hb
    refine ⟨⟨s.arena,s.regions,s.live.erase ⟨ptr,bytes⟩⟩,l,?_,h.free,h.placed,h.owned,
      fun b hb => h.inside b (hmem b hb),fun b hb => h.apart b (hmem b hb),
      h.distinct.sublist List.erase_sublist⟩
    simp only [Session.exec,zfree,if_pos h₀]
    rfl
  · obtain ⟨a,hz,hinv,-⟩ := h.release ha' h₀
    exact ⟨_,_,by simp only [Session.exec,hz]; rfl,hinv⟩

theorem exec_store (h : s.Inv w l) (a : ℕ) (m : MemNode) (ha : s.Allowed w (.store a m)) :
    ∃ s' l', s.exec w (.store a m) = .ok s' ∧ s'.Inv w l' := by
  obtain ⟨b,hb,hba⟩ := ha
  refine ⟨_,l,rfl,⟨?_,h.free.gapped,h.free.aligned,h.free.inside,h.free.accounted⟩,h.placed,h.owned,
    h.inside,h.apart,h.distinct⟩
  refine h.free.chain.congr fun t ht => Function.update_of_ne ?_ _ _
  rintro rfl
  exact (h.apart b hb _ hba).1 (covers_base ht (h.free.aligned t ht).2.2)

theorem exec_inv (h : s.Inv w l) (op : Op) (ha : s.Allowed w op) :
    ∃ s' l', s.exec w op = .ok s' ∧ s'.Inv w l' := by
  cases op with
  | extend base n => exact exec_extend h base n ha
  | alloc bytes => exact exec_alloc h bytes
  | free ptr bytes => exact exec_free h ptr bytes ha
  | store a m => exact exec_store h a m ha

theorem run_inv (h : s.Inv w l) (ops : List Op) (ha : s.AllowedAll w ops) :
    ∃ s' l', s.run w ops = .ok s' ∧ s'.Inv w l' := by
  induction ops generalizing s l with
  | nil => exact ⟨s,l,rfl,h⟩
  | cons op ops ih =>
    obtain ⟨s₁,l₁,hs,h₁⟩ := exec_inv h op ha.1
    have hr : s₁.AllowedAll w ops := by
      have := ha.2
      rwa [hs] at this
    obtain ⟨s',l',hs',h'⟩ := ih h₁ hr
    refine ⟨s',l',?_,h'⟩
    simp only [Session.run,hs]
    exact hs'

end Steps

/-- An empty pool over any memory. -/
def emptySession (mem : ℕ → MemNode) : Session := ⟨⟨⟨0,0,0,0,0⟩,mem⟩,[],[]⟩

theorem emptySession_inv (w : ℕ) (mem : ℕ → MemNode) : (emptySession mem).Inv w [] where
  free := ⟨rfl,gapped_nil,by simp,by simp,rfl⟩
  placed := ⟨rfl,by simp [emptySession],fun h => absurd rfl h⟩
  owned := by simp
  inside := by simp [emptySession]
  apart := by simp [emptySession]
  distinct := List.Pairwise.nil

/-- Every run of permitted calls returns, without a panic and without an endless walk, and leaves
a free list of aligned, coalesced areas apart from all live blocks, in step with the accounting. -/
theorem pool_run_freeList (w : ℕ) (mem : ℕ → MemNode) (ops : List Op)
    (h : (emptySession mem).AllowedAll w ops) :
    ∃ s l, (emptySession mem).run w ops = .ok s ∧ FreeList s.arena l ∧
      ∀ b ∈ s.live, ∀ x, (block w b).Has x → ¬ Covers l x := by
  obtain ⟨s,l,hs,hi⟩ := run_inv (emptySession_inv w mem) ops h
  exact ⟨s,l,hs,hi.free,fun b hb x hx => (hi.apart b hb x hx).1⟩

/-- Two regions with a hole between them, and a block that is freed in front of a live one. -/
theorem pool_run_freeList_holes : ∃ s l, (emptySession (fun _ => ⟨7,7⟩)).run 32
      [.extend 4096 64,.alloc 20,.alloc 1,.extend 8192 32,.store 4096 ⟨1,2⟩,.free 4096 20] = .ok s ∧
    FreeList s.arena l ∧ ∀ b ∈ s.live, ∀ x, (block 32 b).Has x → ¬ Covers l x := by
  apply pool_run_freeList
  decide

end Blub.Stand
