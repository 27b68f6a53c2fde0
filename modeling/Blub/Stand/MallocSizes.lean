import Blub.Lib.Growing
import Blub.Stand.MallocContract

/-! The sizes that `malloc` and `calloc` pass on, for requests of any size: where each of them can leave its type,
and exactly when the caller gets the bytes that it asked for, or `NULL`. -/
namespace Blub.Stand.MallocSizes
open Blub.Spans Blub.Bytes

section Code
variable (k : ℕ)

def calloc (h : Heap) (n1 n2 : ℕ) : Except Fault (ℕ × Heap) :=
  let bytes := wrap (8*k) (n1*n2)
  match malloc k h bytes with
  | .error e => .error e
  | .ok (res,h) => .ok (res,if res = 0 then h else { h with byte := bzero h.byte res bytes })

/-- `sbrk` goes through with a size of the heap that has left its word. -/
def mallocOverruns (bytes : ℕ) : ℕ → Heap → Prop
  | 0, _ => False
  | fuel+1, h =>
    match znalloc (8*k) (h.arena k) bytes with
    | .error _ => False
    | .ok (res,a) =>
      let h := h.commit k a
      if res ≠ 0 then False
      else
        match sbrk k h (mallocIncr k bytes) with
        | none => False
        | some (base,h₁) =>
          let incr := mallocIncr k bytes
          2^(8*k) ≤ h.heapsize+incr ∨
            match zfree (8*k) (zextendPool (8*k) (h₁.arena k) base incr) base incr with
            | .error _ => False
            | .ok a => mallocOverruns bytes fuel (h₁.commit k a)

/-- A heap with these blocks, each with the size that the pool was asked for, and these free areas. -/
structure HeapInv (h : Heap) (live l : List Span) : Prop where
  pool : Session.Inv (8*k) ⟨h.arena k,h.region,live⟩ l
  bounds : h.Bounds k

/-- The `n` bytes from `r` on belong to a new block, and lie inside the heap. -/
def Gives (h : Heap) (live : List Span) (r n : ℕ) : Prop :=
  ∃ res len l, r = res+mallocAlign ∧ HeapInv k h (⟨res,len⟩ :: live) l ∧ r+n ≤ res+alignBytes (8*k) len ∧
    h.heapbase ≤ r ∧ r+n ≤ h.heapbase+h.heapsize

/-- A call that returns `NULL`, or a pointer to at least `n` bytes. -/
def Returns (live : List Span) (n : ℕ) (out : Except Fault (ℕ × Heap)) : Prop :=
  ∃ r h, out = .ok (r,h) ∧ ((r = 0 ∧ ∃ l, HeapInv k h live l) ∨ (r ≠ 0 ∧ Gives k h live r n))

def MallocRight (h : Heap) (live : List Span) (n : ℕ) : Prop :=
  ¬ mallocOverruns k (wrap (8*k) (n+(mallocAlign+1))) (h.maxheap+2) h ∧ Returns k live n (malloc k h n)

def CallocRight (h : Heap) (live : List Span) (n1 n2 : ℕ) : Prop :=
  ¬ mallocOverruns k (wrap (8*k) (wrap (8*k) (n1*n2)+(mallocAlign+1))) (h.maxheap+2) h ∧
    Returns k live (n1*n2) (calloc k h n1 n2)

attribute [local grind =] calloc mallocOverruns

end Code

section Conditions
variable (k : ℕ) (h : Heap) (l : List Span) (bytes : ℕ)

/-- No free area has room for what `znalloc` takes for `bytes`. -/
def NoArea : Prop := ∀ t ∈ l, t.len < alignBytes (8*k) bytes

/-- The heap has to grow for `bytes` and its size leaves the word. -/
def GrowthWraps : Prop :=
  NoArea k l bytes ∧ Wraps (8*k) (mallocIncr k bytes) (alignBytes (8*k) bytes) h.maxheap h.heapsize
    (tail l (h.heapbase+h.heapsize))

/-- The heap cannot be grown as far as `bytes` needs. -/
def NoRoom : Prop :=
  NoArea k l bytes ∧ NeverFits (mallocIncr k bytes) (alignBytes (8*k) bytes) h.maxheap h.heapsize
    (tail l (h.heapbase+h.heapsize))

/-- The loop of `malloc` gets to an end, and no size of the heap leaves its word. -/
def LoopEnds : Prop := (NoArea k l bytes → mallocIncr k bytes ≠ 0) ∧ ¬ GrowthWraps k h l bytes

/-- The request fails as it should. -/
def Refused (n : ℕ) : Prop :=
  (n+32 < 2^(8*k) ∧ LoopEnds k h l (n+17) ∧ NoRoom k h l (n+17)) ∨
    (2^(8*k) < n+17 ∧ LoopEnds k h l (n+17-2^(8*k)) ∧ NoRoom k h l (n+17-2^(8*k)))

def MallocFits (n : ℕ) : Prop := (n+32 < 2^(8*k) ∧ LoopEnds k h l (n+17)) ∨ Refused k h l n

def CallocFits (n1 n2 : ℕ) : Prop :=
  (n1*n2 < 2^(8*k) ∧ MallocFits k h l (n1*n2)) ∨ (2^(8*k) ≤ n1*n2 ∧ Refused k h l (n1*n2%2^(8*k)))

end Conditions

section Steps
variable {k : ℕ} {h : Heap} {live l : List Span} {bytes : ℕ}

/-- The heap grows by whole blocks. -/
theorem mallocIncr_dvd (hk : 4 ≤ k) (bytes : ℕ) : 4096 ∣ mallocIncr k bytes := by
  have h32 : 2^32 ≤ 2^(8*k) := Nat.pow_le_pow_right (by norm_num) (by omega)
  obtain ⟨m,hm⟩ : (2^32 : ℕ) ∣ 2^(8*k) := pow_dvd_pow 2 (by omega)
  unfold mallocIncr
  dsimp only
  generalize wrap (8*k) (bytes+(blkExtend-1)) = n
  rw [blkExtend]
  split_ifs with hi
  · omega
  · rw [wrap_of_lt (by omega)]
    omega

theorem HeapInv.areas (hi : HeapInv k h live l) :
    Gapped l ∧ (∀ t ∈ l, 0 < t.len) ∧ ∀ t ∈ l, t.last ≤ h.heapbase+h.heapsize := by
  refine ⟨hi.pool.free.gapped,fun t ht => (hi.pool.free.aligned t ht).2.2,fun t ht => ?_⟩
  have hpos := (hi.pool.free.aligned t ht).2.2
  have hlast : Covers l (t.last-1) := ⟨t,ht,by simp only [Span.last]; omega,by simp only [Span.last]; omega⟩
  have hin := hi.pool.owned _ hlast
  rw [covers_region] at hin
  omega

/-- Where a new block lies. -/
theorem HeapInv.block {res len : ℕ} (hi : HeapInv k h (⟨res,len⟩ :: live) l) (hlen : alignBytes (8*k) len ≠ 0) :
    h.heapbase ≤ res ∧ res+alignBytes (8*k) len ≤ h.heapbase+h.heapsize := by
  have hreg : ∀ x, res ≤ x → x < res+alignBytes (8*k) len → h.heapbase ≤ x ∧ x < h.heapbase+h.heapsize := by
    intro x hx hx'
    exact covers_region.mp (hi.pool.apart ⟨res,len⟩ List.mem_cons_self x ⟨hx,hx'⟩).2
  have hlo := hreg res le_rfl (by omega)
  have hhi := hreg (res+alignBytes (8*k) len-1) (by omega) (by omega)
  omega

variable (hk : 4 ≤ k) (hk' : k ≤ 8)
include hk'

/-- A block is cut from a free area, or there is none with room. -/
theorem HeapInv.serve (hi : HeapInv k h live l) (hb : alignBytes (8*k) bytes ≠ 0) :
    (NoArea k l bytes ∧ znalloc (8*k) (h.arena k) bytes = .ok (0,h.arena k)) ∨
    (¬ NoArea k l bytes ∧ ∃ res a l', znalloc (8*k) (h.arena k) bytes = .ok (res,a) ∧ res ≠ 0 ∧
      HeapInv k (h.commit k a) (⟨res,bytes⟩ :: live) l') := by
  obtain ⟨htake,hz⟩ | ⟨res,a,l',hz,hres,hinv,-⟩ := hi.pool.alloc bytes hb
  · exact .inl ⟨take_eq_none htake,hz⟩
  · refine .inr ⟨?_,res,a,l',hz,hres,hinv.commit hk' h,hi.bounds.commit a⟩
    obtain ⟨-,hz'⟩ | ⟨p,l',s',htake,-⟩ := znalloc_ok hi.pool.free hi.pool.placed bytes hb
    · rw [hz,Except.ok.injEq,Prod.mk.injEq] at hz'
      exact absurd hz'.1 hres
    · obtain ⟨t,ht,-,hle⟩ := take_source htake
      exact fun hno => absurd (hno t ht) (not_lt.mpr hle)

omit hk' in
/-- A pool that is extended by nothing. -/
theorem HeapInv.extend_zero (hi : HeapInv k h live l) :
    Session.Inv (8*k) ⟨zextendPool (8*k) (h.arena k) (h.heapbase+h.heapsize) 0,h.region,live⟩ l := by
  have hbase := hi.bounds.base_pos
  have htop := hi.bounds.top_lt
  have hle := hi.bounds.size_le
  have hacc := hi.pool.free.accounted
  obtain ⟨hplaced,-,-,hmono⟩ := zextendPool_mp hi.pool.placed (by omega) (h.heapbase+h.heapsize) 0 (by omega) (by omega)
  refine ⟨zextendPool_ok hi.pool.free hi.pool.placed _ 0 (by omega) (by omega),hplaced,hi.pool.owned,?_,hi.pool.apart,
    hi.pool.distinct⟩
  intro b hb hne
  obtain ⟨h₁,h₂⟩ := hi.pool.inside b hb hne
  exact ⟨h₁,hmono _ (Nat.pos_of_ne_zero hne) h₂⟩

include hk

/-- Steps of no bytes go on forever. -/
theorem mallocLoop_endless (hi : HeapInv k h live l) (hb : alignBytes (8*k) bytes ≠ 0) (hno : NoArea k l bytes)
    (hincr : mallocIncr k bytes = 0) (fuel : ℕ) : mallocLoop k bytes fuel h = .error .endless := by
  induction fuel generalizing h with
  | zero => rfl
  | succ fuel ih =>
    have hz := ((hi.serve hk' hb).resolve_right fun hserve => hserve.1 hno).2
    have h32 : 2^32 ≤ 2^(8*k) := Nat.pow_le_pow_right (by norm_num) (by omega)
    have htop := hi.bounds.top_lt
    have hle := hi.bounds.size_le
    have hsbrk : sbrk k h 0 = some (h.heapbase+h.heapsize,h) := by
      unfold sbrk
      rw [Nat.add_zero,wrap_of_lt (by omega),wrap_of_lt (by omega),if_pos hle]
      simp only [bzero,blit_none]
    have hzfree : ∀ a : Arena, zfree (8*k) a (h.heapbase+h.heapsize) 0 = .ok a := by
      intro a
      have hzero : alignBytes (8*k) 0 = 0 := alignBytes_of_dvd (dvd_zero 16) (by omega)
      simp only [zfree,hzero,if_true]
    rw [mallocLoop,hz]
    dsimp only
    rw [commit_arena,if_neg (not_not.mpr rfl),hincr,hsbrk]
    dsimp only
    rw [hzfree]
    dsimp only
    exact ih ⟨hi.extend_zero.commit hk' h,hi.bounds.commit _⟩

omit hk hk' in
/-- A round that cuts a block. -/
theorem round_serve (fuel : ℕ) {res : ℕ} {a : Arena} (hz : znalloc (8*k) (h.arena k) bytes = .ok (res,a)) (hres : res ≠ 0) :
    ¬ mallocOverruns k bytes (fuel+1) h ∧ mallocLoop k bytes (fuel+1) h = .ok (res,h.commit k a) := by
  rw [mallocOverruns,mallocLoop,hz]
  dsimp only
  rw [if_pos hres,if_pos hres]
  exact ⟨not_false,rfl⟩

omit hk hk' in
/-- A round at the limit of the heap. -/
theorem round_stop (fuel : ℕ) (hz : znalloc (8*k) (h.arena k) bytes = .ok (0,h.arena k))
    (hfail : h.maxheap < (h.heapsize+mallocIncr k bytes)%2^(8*k)) :
    ¬ mallocOverruns k bytes (fuel+1) h ∧ mallocLoop k bytes (fuel+1) h = .ok (0,h) := by
  have hsbrk : sbrk k h (mallocIncr k bytes) = none := if_neg (not_le_of_gt hfail)
  rw [mallocOverruns,mallocLoop,hz]
  dsimp only
  rw [commit_arena,if_neg (not_not.mpr rfl),if_neg (not_not.mpr rfl),hsbrk]
  exact ⟨not_false,rfl⟩

omit hk hk' in
/-- A round in which the size of the heap leaves its word. -/
theorem round_wrap (fuel : ℕ) (hz : znalloc (8*k) (h.arena k) bytes = .ok (0,h.arena k))
    (hmax : (h.heapsize+mallocIncr k bytes)%2^(8*k) ≤ h.maxheap) (hwrap : 2^(8*k) ≤ h.heapsize+mallocIncr k bytes) :
    mallocOverruns k bytes (fuel+1) h := by
  obtain ⟨base,h₁,hsbrk⟩ : ∃ base h₁, sbrk k h (mallocIncr k bytes) = some (base,h₁) := ⟨_,_,if_pos hmax⟩
  rw [mallocOverruns,hz]
  dsimp only
  rw [commit_arena,if_neg (not_not.mpr rfl),hsbrk]
  exact .inl hwrap

omit hk hk' in
/-- A round that makes the heap larger. -/
theorem round_grow (fuel : ℕ) {h₁ : Heap} {a : Arena} {base : ℕ}
    (hz : znalloc (8*k) (h.arena k) bytes = .ok (0,h.arena k))
    (hsbrk : sbrk k h (mallocIncr k bytes) = some (base,h₁)) (hlt : h.heapsize+mallocIncr k bytes < 2^(8*k))
    (hzf : zfree (8*k) (zextendPool (8*k) (h₁.arena k) base (mallocIncr k bytes)) base (mallocIncr k bytes) = .ok a) :
    (mallocOverruns k bytes (fuel+1) h ↔ mallocOverruns k bytes fuel (h₁.commit k a)) ∧
      mallocLoop k bytes (fuel+1) h = mallocLoop k bytes fuel (h₁.commit k a) := by
  rw [mallocOverruns,mallocLoop,hz]
  dsimp only
  rw [commit_arena,if_neg (not_not.mpr rfl),if_neg (not_not.mpr rfl),hsbrk]
  dsimp only
  rw [hzf]
  exact ⟨or_iff_right (not_le_of_gt hlt),rfl⟩

/-- All that the loop can come to, when its steps are not empty. -/
theorem mallocLoop_cases (hb : alignBytes (8*k) bytes ≠ 0) (hincr : mallocIncr k bytes ≠ 0) (fuel : ℕ)
    (hi : HeapInv k h live l) (hfuel : h.maxheap-h.heapsize < fuel) :
    (mallocOverruns k bytes fuel h ∧ GrowthWraps k h l bytes) ∨
    (¬ mallocOverruns k bytes fuel h ∧ ¬ GrowthWraps k h l bytes ∧ ∃ res h', mallocLoop k bytes fuel h = .ok (res,h') ∧
      ((res = 0 ∧ NoRoom k h l bytes ∧ ∃ l', HeapInv k h' live l') ∨
        (res ≠ 0 ∧ ¬ NoRoom k h l bytes ∧ ∃ l', HeapInv k h' (⟨res,bytes⟩ :: live) l'))) := by
  induction fuel generalizing h l with
  | zero => omega
  | succ fuel ih =>
    have htop := hi.bounds.top_lt
    have hle := hi.bounds.size_le
    obtain ⟨hno,hz⟩ | ⟨harea,res,a,l',hz,hres,hinv⟩ := hi.serve hk' hb
    · have htail : tail l (h.heapbase+h.heapsize) < alignBytes (8*k) bytes := tail_lt (Nat.pos_of_ne_zero hb) hno
      by_cases hmax : (h.heapsize+mallocIncr k bytes)%2^(8*k) ≤ h.maxheap
      · by_cases hwrap : 2^(8*k) ≤ h.heapsize+mallocIncr k bytes
        · refine .inl ⟨round_wrap fuel hz hmax hwrap,hno,0,?_⟩
          simp only [Nat.zero_mul,Nat.add_zero,Nat.zero_add,Nat.one_mul]
          exact ⟨hle,htail,hwrap,hmax⟩
        · rw [not_le] at hwrap
          have hfit : h.heapsize+mallocIncr k bytes ≤ h.maxheap := by rwa [Nat.mod_eq_of_lt hwrap] at hmax
          have hdvd : 16 ∣ mallocIncr k bytes := dvd_trans (by norm_num) (mallocIncr_dvd hk bytes)
          obtain ⟨h₁,a,hsbrk,hzf,hpool,hbounds,hsize,hsame,-⟩ := pool_grow hk' hi.pool hi.bounds hdvd hincr hfit
          obtain ⟨hover,hloop⟩ := round_grow fuel hz hsbrk hwrap hzf
          obtain ⟨hgapped,hpos,hends⟩ := hi.areas
          -- the region at the end of the heap is the only one that has changed
          have hnext : tail (put ⟨h.heapbase+h.heapsize,mallocIncr k bytes⟩ l)
              ((h₁.commit k a).heapbase+(h₁.commit k a).heapsize) = tail l (h.heapbase+h.heapsize)+mallocIncr k bytes := by
            rw [hsame.heapbase,hsize,← Nat.add_assoc]
            exact tail_put hgapped hpos hends
          have harea : NoArea k (put ⟨h.heapbase+h.heapsize,mallocIncr k bytes⟩ l) bytes ↔
              tail l (h.heapbase+h.heapsize)+mallocIncr k bytes < alignBytes (8*k) bytes := put_all_lt hgapped hpos hends hno
          have hwraps : GrowthWraps k h l bytes ↔
              GrowthWraps k (h₁.commit k a) (put ⟨h.heapbase+h.heapsize,mallocIncr k bytes⟩ l) bytes := by
            rw [GrowthWraps,GrowthWraps,hnext,hsame.maxheap,hsize,harea,← wraps_step hwrap,and_iff_right hno]
            refine (and_iff_right_of_imp fun hw => ?_).symm
            obtain ⟨j,-,hlt,-⟩ := (wraps_step hwrap).mp hw
            omega
          have hroom : NoRoom k h l bytes ↔
              NoRoom k (h₁.commit k a) (put ⟨h.heapbase+h.heapsize,mallocIncr k bytes⟩ l) bytes := by
            rw [NoRoom,NoRoom,hnext,hsame.maxheap,hsize,harea,← neverFits_step htail,and_iff_right hno]
            refine (and_iff_right_of_imp fun hnever => ?_).symm
            have hone := hnever 1 (by omega)
            omega
          rw [hover,hloop,hwraps,hroom]
          refine ih ⟨hpool,hbounds⟩ ?_
          rw [hsame.maxheap,hsize]
          omega
      · rw [not_le] at hmax
        obtain ⟨hfits,hwraps⟩ := stopped (show h.maxheap < 2^(8*k) by omega) htail hmax
        obtain ⟨hover,hloop⟩ := round_stop fuel hz hmax
        exact .inr ⟨hover,fun hg => hwraps hg.2,0,h,hloop,.inl ⟨rfl,⟨hno,hfits⟩,l,hi⟩⟩
    · obtain ⟨hover,hloop⟩ := round_serve fuel hz hres
      exact .inr ⟨hover,fun hg => harea hg.1,res,_,hloop,.inr ⟨hres,fun hr => harea hr.1,l',hinv⟩⟩

end Steps

section Calls
variable {k : ℕ} (hk : 4 ≤ k) (hk' : k ≤ 8) {h : Heap} {live l : List Span} {n : ℕ}

/-- What a request becomes. -/
theorem alignBytes_eq {w bytes : ℕ} (h : bytes+15 < 2^w) : alignBytes w bytes = (bytes+15)/16*16 := by
  simp only [alignBytes,mallocAlign]
  rw [show bytes+(16-1) = bytes+15 from rfl,wrap_of_lt h]
  omega

include hk in
/-- The rounding to 16 leaves its word, or there is nothing to round. -/
theorem alignBytes_eq_zero {bytes : ℕ} (hlt : bytes < 2^(8*k)) :
    alignBytes (8*k) bytes = 0 ↔ bytes = 0 ∨ 2^(8*k) ≤ bytes+15 := by
  have h32 : 2^32 ≤ 2^(8*k) := Nat.pow_le_pow_right (by norm_num) (by omega)
  by_cases hfit : bytes+15 < 2^(8*k)
  · rw [alignBytes_eq hfit]
    omega
  · simp only [alignBytes,mallocAlign,wrap]
    rw [show bytes+(16-1) = bytes+15 from rfl,Nat.mod_eq_sub_mod (by omega),Nat.mod_eq_of_lt (by omega)]
    omega

/-- What `malloc` makes of the result of its loop. -/
theorem malloc_of_loop {res : ℕ} {h' : Heap}
    (hloop : mallocLoop k (wrap (8*k) (n+17)) (h.maxheap+2) h = .ok (res,h')) :
    malloc k h n = if res = 0 then .ok (0,h') else .ok (wrap (8*k) (res+mallocAlign),
      { h' with byte := putGuards k h'.byte res (wrap (8*k) (n+17)) }) := by
  unfold malloc
  dsimp only
  rw [show n+(mallocAlign+1) = n+17 from rfl,hloop]

/-- A request of no bytes, for the pool, returns `-1`. -/
theorem malloc_none (hk : 4 ≤ k) (hz : alignBytes (8*k) (wrap (8*k) (n+17)) = 0) :
    ¬ mallocOverruns k (wrap (8*k) (n+17)) (h.maxheap+2) h ∧ ∃ h', malloc k h n = .ok (15,h') := by
  have h32 : 2^32 ≤ 2^(8*k) := Nat.pow_le_pow_right (by norm_num) (by omega)
  have hminus : sub (8*k) 0 1 = 2^(8*k)-1 := by
    rw [sub,wrap_of_lt (show 1 < 2^(8*k) by omega),Nat.zero_add]
    exact wrap_of_lt (by omega)
  have hzn : znalloc (8*k) (h.arena k) (wrap (8*k) (n+17)) = .ok (2^(8*k)-1,h.arena k) := by
    simp only [znalloc,hz,if_true,hminus]
  have hptr : wrap (8*k) (2^(8*k)-1+mallocAlign) = 15 := by
    rw [mallocAlign,show 2^(8*k)-1+16 = 15+2^(8*k) by omega,wrap,Nat.add_mod_right]
    exact Nat.mod_eq_of_lt (by omega)
  obtain ⟨hover,hloop⟩ := round_serve (h.maxheap+1) hzn (by omega)
  refine ⟨hover,?_⟩
  rw [malloc_of_loop hloop,if_neg (by omega),hptr]
  exact ⟨_,rfl⟩

/-- Writing into a block changes nothing else. -/
theorem HeapInv.write (hk' : k ≤ 8) {res len : ℕ} (hi : HeapInv k h (⟨res,len⟩ :: live) l) {byte : ℕ → UInt8}
    (hw : ∀ x, ¬ (res ≤ x ∧ x < res+alignBytes (8*k) len) → byte x = h.byte x) :
    HeapInv k { h with byte := byte } (⟨res,len⟩ :: live) l := by
  have hcovered : ∀ x, Covers l x → byte x = h.byte x := by
    intro x hx
    exact hw x fun hin => (hi.pool.apart ⟨res,len⟩ List.mem_cons_self x hin).1 hx
  have hpool : Session.Inv (8*k) ⟨({ h with byte := byte } : Heap).arena k,h.region,⟨res,len⟩ :: live⟩ l :=
    hi.pool.bytes hk' rfl hcovered
  exact ⟨hpool,hi.bounds.base_pos,hi.bounds.base_dvd,hi.bounds.size_dvd,hi.bounds.size_le,hi.bounds.top_lt⟩

/-- The pointer that is too low for any block, or from which the bytes do not fit into the address space. -/
theorem not_gives {h' : Heap} {r m : ℕ} (hbad : r = 15 ∨ 2^(8*k) ≤ r+m) (hmn : m ≤ n) : ¬ Gives k h' live r n := by
  rintro ⟨res,len,l',hr,hinv,-,-,htop⟩
  have hlt := hinv.bounds.top_lt
  have hle := hinv.bounds.size_le
  rw [mallocAlign] at hr
  omega

/-- A block that was cut for the bytes of a request, with its guards. -/
theorem gives_of_served (hk' : k ≤ 8) {res : ℕ} {h' : Heap} {l' : List Span} (hlt : n+32 < 2^(8*k))
    (hi : HeapInv k h' (⟨res,n+17⟩ :: live) l') :
    wrap (8*k) (res+mallocAlign) ≠ 0 ∧
      Gives k { h' with byte := putGuards k h'.byte res (n+17) } live (wrap (8*k) (res+mallocAlign)) n := by
  have hlen := alignBytes_eq (w := 8*k) (show n+17+15 < 2^(8*k) by omega)
  obtain ⟨hlo,hhi⟩ := hi.block (by omega)
  have htop := hi.bounds.top_lt
  have hle := hi.bounds.size_le
  have hin : res+n+17 < 2^(8*k) := by omega
  rw [mallocAlign,wrap_of_lt (show res+16 < 2^(8*k) by omega)]
  refine ⟨by omega,res,n+17,l',rfl,?_,by omega,by dsimp only; omega,by dsimp only; omega⟩
  refine hi.write hk' fun x hx => ?_
  rw [putGuards_eq (b := ⟨res,n⟩) hk' hin,Function.update_of_ne (by dsimp only; omega),lePut_outside (by dsimp only; omega),
    lePut_outside (by dsimp only; omega)]

include hk hk'

/-- The loop ends, with a block or without one, exactly when it should. -/
theorem mallocLoop_iff {bytes : ℕ} (hi : HeapInv k h live l) (hb : alignBytes (8*k) bytes ≠ 0) :
    (¬ LoopEnds k h l bytes ∧ (mallocOverruns k bytes (h.maxheap+2) h ∨
      mallocLoop k bytes (h.maxheap+2) h = .error .endless)) ∨
    (LoopEnds k h l bytes ∧ ¬ mallocOverruns k bytes (h.maxheap+2) h ∧
      ∃ res h', mallocLoop k bytes (h.maxheap+2) h = .ok (res,h') ∧
        ((res = 0 ∧ NoRoom k h l bytes ∧ ∃ l', HeapInv k h' live l') ∨
          (res ≠ 0 ∧ ¬ NoRoom k h l bytes ∧ ∃ l', HeapInv k h' (⟨res,bytes⟩ :: live) l'))) := by
  by_cases hincr : mallocIncr k bytes = 0
  · obtain ⟨hno,-⟩ | ⟨harea,res,a,l',hz,hres,hinv⟩ := hi.serve hk' hb
    · exact .inl ⟨fun hends => hends.1 hno hincr,.inr (mallocLoop_endless hk hk' hi hb hno hincr _)⟩
    · obtain ⟨hover,hloop⟩ := round_serve (h.maxheap+1) hz hres
      exact .inr ⟨⟨fun hno => absurd hno harea,fun hg => harea hg.1⟩,hover,res,_,hloop,
        .inr ⟨hres,fun hr => harea hr.1,l',hinv⟩⟩
  · obtain ⟨hover,hwraps⟩ | ⟨hover,hwraps,hrest⟩ := mallocLoop_cases hk hk' hb hincr (h.maxheap+2) hi (by omega)
    · exact .inl ⟨fun hends => hends.2 hwraps,.inl hover⟩
    · exact .inr ⟨⟨fun _ => hincr,hwraps⟩,hover,hrest⟩

/-- All that `malloc` can come to, when the size that it passes on can be rounded. -/
theorem malloc_plain (hi : HeapInv k h live l) (hround : n+32 < 2^(8*k)) :
    (¬ LoopEnds k h l (n+17) ∧ (mallocOverruns k (n+17) (h.maxheap+2) h ∨ malloc k h n = .error .endless)) ∨
    (LoopEnds k h l (n+17) ∧ ¬ mallocOverruns k (n+17) (h.maxheap+2) h ∧ ∃ r h', malloc k h n = .ok (r,h') ∧
      ((r = 0 ∧ NoRoom k h l (n+17) ∧ ∃ l', HeapInv k h' live l') ∨
        (r ≠ 0 ∧ ¬ NoRoom k h l (n+17) ∧ Gives k h' live r n))) := by
  have hw : wrap (8*k) (n+17) = n+17 := wrap_of_lt (by omega)
  have hb : alignBytes (8*k) (n+17) ≠ 0 := by
    rw [Ne,alignBytes_eq_zero hk (by omega)]
    omega
  obtain ⟨hends,hover | hloop⟩ | ⟨hends,hover,res,h',hloop,hrest⟩ := mallocLoop_iff hk hk' hi hb
  · exact .inl ⟨hends,.inl hover⟩
  · refine .inl ⟨hends,.inr ?_⟩
    unfold malloc
    dsimp only
    rw [show n+(mallocAlign+1) = n+17 from rfl,hw,hloop]
  · have hmalloc := malloc_of_loop (hw.symm ▸ hloop)
    rw [hw] at hmalloc
    refine .inr ⟨hends,hover,?_⟩
    obtain ⟨hres,hroom,hinv⟩ | ⟨hres,hroom,l',hinv⟩ := hrest
    · rw [if_pos hres] at hmalloc
      exact ⟨0,h',hmalloc,.inl ⟨rfl,hroom,hinv⟩⟩
    · rw [if_neg hres] at hmalloc
      obtain ⟨hne,hgives⟩ := gives_of_served hk' hround hinv
      exact ⟨_,_,hmalloc,.inr ⟨hne,hroom,hgives⟩⟩

/-- All that `malloc` can come to, when the size that it passes on has left its word. -/
theorem malloc_wrapped (hi : HeapInv k h live l) (hn : n < 2^(8*k)) (hwrap : 2^(8*k) < n+17) :
    (¬ LoopEnds k h l (n+17-2^(8*k)) ∧ (mallocOverruns k (n+17-2^(8*k)) (h.maxheap+2) h ∨
      malloc k h n = .error .endless)) ∨
    (LoopEnds k h l (n+17-2^(8*k)) ∧ ¬ mallocOverruns k (n+17-2^(8*k)) (h.maxheap+2) h ∧
      ∃ r h', malloc k h n = .ok (r,h') ∧
        ((r = 0 ∧ NoRoom k h l (n+17-2^(8*k)) ∧ ∃ l', HeapInv k h' live l') ∨
          (r ≠ 0 ∧ ¬ NoRoom k h l (n+17-2^(8*k)) ∧ 2^(8*k) ≤ r+n))) := by
  have h32 : 2^32 ≤ 2^(8*k) := Nat.pow_le_pow_right (by norm_num) (by omega)
  have hw : wrap (8*k) (n+17) = n+17-2^(8*k) := by
    rw [wrap,Nat.mod_eq_sub_mod (by omega),Nat.mod_eq_of_lt (by omega)]
  have hlen := @alignBytes_eq (8*k) (n+17-2^(8*k)) (by omega)
  have hb : alignBytes (8*k) (n+17-2^(8*k)) ≠ 0 := by omega
  obtain ⟨hends,hover | hloop⟩ | ⟨hends,hover,res,h',hloop,hrest⟩ := mallocLoop_iff hk hk' hi hb
  · exact .inl ⟨hends,.inl hover⟩
  · refine .inl ⟨hends,.inr ?_⟩
    unfold malloc
    dsimp only
    rw [show n+(mallocAlign+1) = n+17 from rfl,hw,hloop]
  · have hmalloc := malloc_of_loop (hw.symm ▸ hloop)
    refine .inr ⟨hends,hover,?_⟩
    obtain ⟨hres,hroom,hinv⟩ | ⟨hres,hroom,l',hinv⟩ := hrest
    · rw [if_pos hres] at hmalloc
      exact ⟨0,h',hmalloc,.inl ⟨rfl,hroom,hinv⟩⟩
    · -- the block of 16 bytes holds no more than the header
      obtain ⟨hlo,hhi⟩ := hinv.block hb
      have hbase := hinv.bounds.base_pos
      have htop := hinv.bounds.top_lt
      have hle := hinv.bounds.size_le
      rw [if_neg hres,mallocAlign,wrap_of_lt (by omega)] at hmalloc
      exact ⟨res+16,_,hmalloc,.inr ⟨by omega,hroom,by omega⟩⟩

/-- All that `malloc` can come to. -/
theorem malloc_cases (hi : HeapInv k h live l) (hn : n < 2^(8*k)) :
    (¬ MallocFits k h l n ∧ (mallocOverruns k (wrap (8*k) (n+17)) (h.maxheap+2) h ∨
      (∃ e, malloc k h n = .error e) ∨ ∃ r h', malloc k h n = .ok (r,h') ∧ r ≠ 0 ∧ (r = 15 ∨ 2^(8*k) ≤ r+n))) ∨
    (¬ mallocOverruns k (wrap (8*k) (n+17)) (h.maxheap+2) h ∧
      ((Refused k h l n ∧ ∃ h' l', malloc k h n = .ok (0,h') ∧ HeapInv k h' live l') ∨
        (MallocFits k h l n ∧ ¬ Refused k h l n ∧ ∃ r h', malloc k h n = .ok (r,h') ∧ r ≠ 0 ∧ Gives k h' live r n))) := by
  have h32 : 2^32 ≤ 2^(8*k) := Nat.pow_le_pow_right (by norm_num) (by omega)
  by_cases hround : n+32 < 2^(8*k)
  · have hw : wrap (8*k) (n+17) = n+17 := wrap_of_lt (by omega)
    have hrefused : Refused k h l n ↔ LoopEnds k h l (n+17) ∧ NoRoom k h l (n+17) := by
      rw [Refused,or_iff_left (by omega),and_iff_right hround]
    have hfits : MallocFits k h l n ↔ LoopEnds k h l (n+17) := by
      rw [MallocFits,hrefused,and_iff_right hround,or_iff_left_of_imp And.left]
    rw [hw,hrefused,hfits]
    obtain ⟨hends,hover | herr⟩ | ⟨hends,hover,r,h',hmalloc,⟨rfl,hroom,l',hinv⟩ | ⟨hr,hroom,hgives⟩⟩ :=
      malloc_plain hk hk' hi hround
    · exact .inl ⟨hends,.inl hover⟩
    · exact .inl ⟨hends,.inr (.inl ⟨_,herr⟩)⟩
    · exact .inr ⟨hover,.inl ⟨⟨hends,hroom⟩,h',l',hmalloc,hinv⟩⟩
    · exact .inr ⟨hover,.inr ⟨hends,fun h => hroom h.2,r,h',hmalloc,hr,hgives⟩⟩
  · by_cases hwrap : 2^(8*k) < n+17
    · have hw : wrap (8*k) (n+17) = n+17-2^(8*k) := by
        rw [wrap,Nat.mod_eq_sub_mod (by omega),Nat.mod_eq_of_lt (by omega)]
      have hrefused : Refused k h l n ↔ LoopEnds k h l (n+17-2^(8*k)) ∧ NoRoom k h l (n+17-2^(8*k)) := by
        rw [Refused,or_iff_right (fun h => hround h.1),and_iff_right hwrap]
      have hfits : MallocFits k h l n ↔ Refused k h l n := or_iff_right (fun h => hround h.1)
      rw [hw,hfits,hrefused]
      obtain ⟨hends,hover | herr⟩ | ⟨hends,hover,r,h',hmalloc,⟨rfl,hroom,l',hinv⟩ | ⟨hr,hroom,hout⟩⟩ :=
        malloc_wrapped hk hk' hi hn hwrap
      · exact .inl ⟨fun h => hends h.1,.inl hover⟩
      · exact .inl ⟨fun h => hends h.1,.inr (.inl ⟨_,herr⟩)⟩
      · exact .inr ⟨hover,.inl ⟨⟨hends,hroom⟩,h',l',hmalloc,hinv⟩⟩
      · exact .inl ⟨fun h => hroom h.2,.inr (.inr ⟨r,h',hmalloc,hr,.inr hout⟩)⟩
    · have hz : alignBytes (8*k) (wrap (8*k) (n+17)) = 0 := by
        have hlt : wrap (8*k) (n+17) < 2^(8*k) := Nat.mod_lt _ (by omega)
        rw [alignBytes_eq_zero hk hlt]
        by_cases hfit : n+17 < 2^(8*k)
        · rw [wrap_of_lt hfit]
          omega
        · rw [show n+17 = 2^(8*k) by omega,wrap,Nat.mod_self]
          exact .inl rfl
      obtain ⟨-,h',hmalloc⟩ := malloc_none (h := h) hk hz
      refine .inl ⟨?_,.inr (.inr ⟨15,h',hmalloc,by norm_num,.inl rfl⟩)⟩
      rintro (⟨hlt,-⟩ | ⟨hlt,-⟩ | ⟨hlt,-⟩)
      · exact hround hlt
      · exact hround hlt
      · exact hwrap hlt

omit hk hk' in
/-- A pointer from which the bytes do not fit, or no pointer at all. -/
theorem not_returns {out : Except Fault (ℕ × Heap)} {m : ℕ} (hmn : m ≤ n)
    (hbad : (∃ e, out = .error e) ∨ ∃ r h', out = .ok (r,h') ∧ r ≠ 0 ∧ (r = 15 ∨ 2^(8*k) ≤ r+m)) :
    ¬ Returns k live n out := by
  rintro ⟨r,h',rfl,hr⟩
  obtain ⟨e,he⟩ | ⟨r',h'',hout,hne,hout'⟩ := hbad
  · cases he
  · obtain ⟨rfl,rfl⟩ := Prod.mk.inj (Except.ok.inj hout)
    obtain ⟨hzero,-⟩ | ⟨-,hgives⟩ := hr
    · exact hne hzero
    · exact not_gives hout' hmn hgives

/-- `malloc` returns what was asked for, or `NULL`, exactly for these sizes. -/
theorem malloc_right_iff (hi : HeapInv k h live l) (hn : n < 2^(8*k)) :
    MallocRight k h live n ↔ MallocFits k h l n := by
  obtain ⟨hfits,hbad⟩ | ⟨hover,⟨hrefused,h',l',hmalloc,hinv⟩ | ⟨hfits,-,r,h',hmalloc,hr,hgives⟩⟩ :=
    malloc_cases hk hk' hi hn
  · refine iff_of_false ?_ hfits
    rintro ⟨hover,hreturns⟩
    exact not_returns le_rfl (hbad.resolve_left hover) hreturns
  · exact iff_of_true ⟨hover,0,h',hmalloc,.inl ⟨rfl,l',hinv⟩⟩ (.inr hrefused)
  · exact iff_of_true ⟨hover,r,h',hmalloc,.inr ⟨hr,hgives⟩⟩ hfits

omit hk in
/-- Writing into the bytes that were asked for. -/
theorem Gives.write {r : ℕ} (hg : Gives k h live r n) {byte : ℕ → UInt8}
    (hw : ∀ x, ¬ (r ≤ x ∧ x < r+n) → byte x = h.byte x) : Gives k { h with byte := byte } live r n := by
  obtain ⟨res,len,l',hr,hinv,hlen,hlo,hhi⟩ := hg
  rw [mallocAlign] at hr
  exact ⟨res,len,l',hr,hinv.write hk' fun x hx => hw x (by omega),hlen,hlo,hhi⟩

/-- `calloc` likewise, where the product may have left its word. -/
theorem calloc_right_iff (hi : HeapInv k h live l) (n1 n2 : ℕ) :
    CallocRight k h live n1 n2 ↔ CallocFits k h l n1 n2 := by
  have hpos : 0 < 2^(8*k) := Nat.pow_pos (by norm_num)
  have hmod : n1*n2%2^(8*k) < 2^(8*k) := Nat.mod_lt _ hpos
  have hle : n1*n2%2^(8*k) ≤ n1*n2 := Nat.mod_le _ _
  have herror : ∀ e, malloc k h (n1*n2%2^(8*k)) = .error e → calloc k h n1 n2 = .error e := by
    intro e he
    simp only [calloc,wrap,he]
  have hok : ∀ r h', malloc k h (n1*n2%2^(8*k)) = .ok (r,h') → calloc k h n1 n2 =
      .ok (r,if r = 0 then h' else { h' with byte := bzero h'.byte r (n1*n2%2^(8*k)) }) := by
    intro r h' hr
    simp only [calloc,wrap,hr]
  obtain ⟨hfits,hbad⟩ | ⟨hover,⟨hrefused,h',l',hmalloc,hinv⟩ | ⟨hfits,hrefused,r,h',hmalloc,hr,hgives⟩⟩ :=
    malloc_cases hk hk' hi hmod
  · refine iff_of_false ?_ ?_
    · rintro ⟨hover,hreturns⟩
      obtain ⟨e,he⟩ | ⟨r,h',hmalloc,hr,hout⟩ := hbad.resolve_left hover
      · exact not_returns hle (.inl ⟨e,herror e he⟩) hreturns
      · exact not_returns hle (.inr ⟨r,_,hok r h' hmalloc,hr,hout⟩) hreturns
    · rintro (⟨hlt,hfits'⟩ | ⟨-,hrefused⟩)
      · rw [Nat.mod_eq_of_lt hlt] at hfits
        exact hfits hfits'
      · exact hfits (.inr hrefused)
  · refine iff_of_true ⟨hover,0,h',hok 0 h' hmalloc,.inl ⟨rfl,l',hinv⟩⟩ ?_
    obtain hlt | hge := Nat.lt_or_ge (n1*n2) (2^(8*k))
    · rw [Nat.mod_eq_of_lt hlt] at hrefused
      exact .inl ⟨hlt,.inr hrefused⟩
    · exact .inr ⟨hge,hrefused⟩
  · have hcalloc := hok r h' hmalloc
    rw [if_neg hr] at hcalloc
    obtain hlt | hge := Nat.lt_or_ge (n1*n2) (2^(8*k))
    · rw [Nat.mod_eq_of_lt hlt] at hfits hgives hcalloc
      refine iff_of_true ⟨hover,r,_,hcalloc,.inr ⟨hr,hgives.write hk' fun x hx => ?_⟩⟩ (.inl ⟨hlt,hfits⟩)
      exact blit_outside (by omega)
    · -- the whole product does not fit into the address space
      refine iff_of_false ?_ ?_
      · rintro ⟨-,hreturns⟩
        exact not_returns (m := n1*n2) le_rfl (.inr ⟨r,_,hcalloc,hr,.inr (by omega)⟩) hreturns
      · rintro (⟨hlt,-⟩ | ⟨-,hrefused'⟩)
        · omega
        · exact hrefused hrefused'

end Calls

section Runs
variable {k : ℕ} (hk : 4 ≤ k) (hk' : k ≤ 8) {h : Heap} {live l : List Span}

inductive Request
  | malloc (n : ℕ)
  | calloc (n1 n2 : ℕ)

def Request.exec (k : ℕ) (h : Heap) : Request → Except Fault (ℕ × Heap)
  | .malloc n => Stand.malloc k h n
  | .calloc n1 n2 => MallocSizes.calloc k h n1 n2

/-- What is asked for. -/
def Request.size : Request → ℕ
  | .malloc n => n
  | .calloc n1 n2 => n1*n2

/-- The arguments are of type `size_t`, and the heap can serve or refuse the request. -/
def Request.Fits (k : ℕ) (h : Heap) (l : List Span) : Request → Prop
  | .malloc n => n < 2^(8*k) ∧ MallocFits k h l n
  | .calloc n1 n2 => CallocFits k h l n1 n2

def Request.run (k : ℕ) : Heap → List Request → Except Fault Heap
  | h, [] => .ok h
  | h, c :: cs =>
    match c.exec k h with
    | .error e => .error e
    | .ok (_,h) => run k h cs

/-- Each request fits when its turn comes. -/
def FitsAll (k : ℕ) : Heap → List Request → Prop
  | _, [] => True
  | h, c :: cs => (∀ l, FreeList (h.arena k) l → c.Fits k h l) ∧ ∀ r h', c.exec k h = .ok (r,h') → FitsAll k h' cs

attribute [local grind =] Request.run FitsAll

include hk hk'

/-- A request that fits. -/
theorem HeapInv.exec (hi : HeapInv k h live l) (c : Request) (hf : c.Fits k h l) :
    ∃ r h' live' l', c.exec k h = .ok (r,h') ∧ HeapInv k h' live' l' ∧
      ((r = 0 ∧ live' = live) ∨ (r ≠ 0 ∧ Gives k h' live r c.size)) := by
  have hreturns : Returns k live c.size (c.exec k h) := by
    cases c with
    | malloc n => exact ((malloc_right_iff hk hk' hi hf.1).mpr hf.2).2
    | calloc n1 n2 => exact ((calloc_right_iff hk hk' hi n1 n2).mpr hf).2
  obtain ⟨r,h',hexec,⟨hr,l',hinv⟩ | ⟨hr,hgives⟩⟩ := hreturns
  · exact ⟨r,h',live,l',hexec,hinv,.inl ⟨hr,rfl⟩⟩
  · obtain ⟨res,len,l',hinv⟩ : ∃ res len l', HeapInv k h' (⟨res,len⟩ :: live) l' := by
      obtain ⟨res,len,l',-,hinv,-⟩ := hgives
      exact ⟨res,len,l',hinv⟩
    exact ⟨r,h',_,l',hexec,hinv,.inr ⟨hr,hgives⟩⟩

/-- Any number of them, of any size. -/
theorem HeapInv.run (hi : HeapInv k h live l) (cs : List Request) (hf : FitsAll k h cs) :
    ∃ h' live' l', Request.run k h cs = .ok h' ∧ HeapInv k h' live' l' := by
  induction cs generalizing h live l with
  | nil => exact ⟨h,live,l,rfl,hi⟩
  | cons c cs ih =>
    obtain ⟨r,h₁,live₁,l₁,hexec,hi₁,-⟩ := hi.exec hk hk' c (hf.1 l hi.pool.free)
    obtain ⟨h',live',l',hrun,hi'⟩ := ih hi₁ (hf.2 r h₁ hexec)
    refine ⟨h',live',l',?_,hi'⟩
    simp only [Request.run,hexec]
    exact hrun

end Runs

/-- The heap of every run of calls that the client may make. -/
theorem client_heapInv {k : ℕ} {s : Client} {l : List Span} (hi : s.Inv k l) :
    HeapInv k s.heap (s.live.map Block.raw) l := ⟨hi.pool,hi.bounds⟩

/-- A new heap. -/
theorem setheap_heapInv {k base top : ℕ} (hb : 0 < base) (hr : base+15 < 2^(8*k)) (ht : alignBytes (8*k) base ≤ top)
    (htop : top < 2^(8*k)) (byte : ℕ → UInt8) : HeapInv k (setheap k byte base top) [] [] :=
  client_heapInv (setheap_inv hb hr ht htop byte).1

/-- On 32-bit and on 64-bit machines, on every heap and for requests of every size. -/
theorem malloc_calloc_right_iff {k : ℕ} (hk : k = 4 ∨ k = 8) {h : Heap} {live l : List Span} (hi : HeapInv k h live l)
    (n n1 n2 : ℕ) (hn : n < 2^(8*k)) :
    (MallocRight k h live n ↔ MallocFits k h l n) ∧ (CallocRight k h live n1 n2 ↔ CallocFits k h l n1 n2) := by
  have hk₁ : 4 ≤ k := by omega
  have hk₂ : k ≤ 8 := by omega
  exact ⟨malloc_right_iff hk₁ hk₂ hi hn,calloc_right_iff hk₁ hk₂ hi n1 n2⟩

/-- A new heap of four blocks. -/
def newHeap : Heap := setheap 8 (fun _ => 0) 4096 20480

theorem newHeap_inv : HeapInv 8 newHeap [] [] :=
  setheap_heapInv (by decide) (by decide) (by decide) (by decide) _

/-- A request for 100 bytes and one for ten times ten. -/
theorem malloc_calloc_right_hundred : MallocRight 8 newHeap [] 100 ∧ CallocRight 8 newHeap [] 10 10 := by
  have hfits : MallocFits 8 newHeap [] 100 := by
    refine .inl ⟨by decide,fun _ => by decide,?_⟩
    rintro ⟨-,j,hj,-,hwrap,-⟩
    rw [show mallocIncr 8 (100+17) = 4096 from rfl] at hj hwrap
    rw [show newHeap.maxheap = 16384 from rfl] at hj
    rw [show newHeap.heapsize = 0 from rfl] at hj hwrap
    omega
  obtain ⟨hmalloc,hcalloc⟩ := malloc_calloc_right_iff (.inr rfl) newHeap_inv 100 10 10 (by decide)
  exact ⟨hmalloc.mpr hfits,hcalloc.mpr (.inl ⟨by decide,hfits⟩)⟩

/-- For the largest size, and for a product that is the size of the address space, there is a block that is
far too small. -/
theorem malloc_calloc_fails : ¬ Returns 8 [] (2^64-1) (malloc 8 newHeap (2^64-1)) ∧
    ¬ Returns 8 [] (2^32*2^32) (calloc 8 newHeap (2^32) (2^32)) := by
  have hmalloc : (malloc 8 newHeap (2^64-1)).toOption.map Prod.fst = some 4112 := by decide
  have hcalloc : (calloc 8 newHeap (2^32) (2^32)).toOption.map Prod.fst = some 4112 := by decide
  obtain ⟨⟨r,h⟩,hr,hptr⟩ := Option.map_eq_some_iff.mp hmalloc
  obtain ⟨⟨r',h'⟩,hr',hptr'⟩ := Option.map_eq_some_iff.mp hcalloc
  dsimp only at hptr hptr'
  subst hptr hptr'
  have hout : 2^(8*8) ≤ 4112+(2^64-1) := by decide
  have hout' : 2^(8*8) ≤ 4112+2^32*2^32 := by decide
  exact ⟨not_returns le_rfl (.inr ⟨4112,h,toOption_eq_some hr,by decide,.inr hout⟩),
    not_returns le_rfl (.inr ⟨4112,h',toOption_eq_some hr',by decide,.inr hout'⟩)⟩

end Blub.Stand.MallocSizes
