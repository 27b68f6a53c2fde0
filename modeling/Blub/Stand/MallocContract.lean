import Blub.Stand.Malloc
import Blub.Stand.ZallocInvariant

/-! What `malloc`, `realloc` and `free` promise their callers, over whole runs of a heap: as long as the
size of the heap does not wrap, every call returns, blocks are aligned, lie apart inside the heap and keep
their contents, and no guard is ever found broken. -/
namespace Blub.Stand
open Blub.Spans Blub.Bytes

section Nodes
variable {k : ℕ} {b b' : ℕ → UInt8} {a : ℕ}

theorem two_pow_eq (k : ℕ) : 2^(8*k) = 256^k := by
  rw [pow_mul]
  norm_num

theorem node_putNode {m : MemNode} (h₁ : m.mrNext < 2^(8*k)) (h₂ : m.mrBytes < 2^(8*k)) :
    node k (putNode k b a m) a = m := by
  rw [two_pow_eq] at h₁ h₂
  unfold node putNode
  rw [leGet_lePut_apart (by omega),leGet_lePut_of_lt h₁,leGet_lePut_of_lt h₂]

theorem putNode_node (b : ℕ → UInt8) (a : ℕ) : putNode k b a (node k b a) = b := by
  unfold node putNode
  rw [lePut_leGet,lePut_leGet]

theorem node_congr (h : ∀ j, a ≤ j → j < a+2*k → b' j = b j) : node k b' a = node k b a := by
  unfold node
  rw [leGet_congr fun j h₁ h₂ => h j h₁ (by omega),leGet_congr fun j h₁ h₂ => h j (by omega) (by omega)]

/-- A byte keeps its value when the node at its aligned address does. -/
theorem commit_byte {h : Heap} {s : Arena} {j : ℕ} (he : s.mem (j-j%16) = node k h.byte (j-j%16)) :
    (h.commit k s).byte j = h.byte j := by
  show putNode k h.byte (j-j%16) (s.mem (j-j%16)) j = h.byte j
  rw [he,putNode_node]

theorem commit_node {h : Heap} {s : Arena} (hk : k ≤ 8) (ha : 16 ∣ a) (h₁ : (s.mem a).mrNext < 2^(8*k))
    (h₂ : (s.mem a).mrBytes < 2^(8*k)) : node k (h.commit k s).byte a = s.mem a := by
  have hcell : ∀ j, a ≤ j → j < a+2*k → (h.commit k s).byte j = putNode k h.byte a (s.mem a) j := by
    intro j hj hj'
    have : j-j%16 = a := by omega
    show putNode k h.byte (j-j%16) (s.mem (j-j%16)) j = _
    rw [this]
  rw [node_congr hcell,node_putNode h₁ h₂]

theorem commit_arena (h : Heap) : h.commit k (h.arena k) = h := by
  have hb : (h.commit k (h.arena k)).byte = h.byte := funext fun j => commit_byte rfl
  cases h
  simp only [Heap.commit] at hb ⊢
  rw [hb]
  rfl

/-- Links and lengths of a list of areas fit in a word. -/
theorem Chain.lt {mem : ℕ → MemNode} {w p : ℕ} {l : List Span} (h : Chain mem p l) (hn : Nodes w l) :
    p < 2^w ∧ ∀ t ∈ l, (mem t.base).mrNext < 2^w ∧ (mem t.base).mrBytes < 2^w := by
  induction l generalizing p with
  | nil =>
    rw [chain_nil] at h
    subst h
    exact ⟨Nat.two_pow_pos w,by simp⟩
  | cons t l ih =>
    obtain ⟨-,hv,hn'⟩ := hn.cons
    simp only [Span.last] at hv
    rw [chain_cons] at h
    obtain ⟨rfl,hb,hc⟩ := h
    obtain ⟨h₁,h₂⟩ := ih hc hn'
    refine ⟨by omega,List.forall_mem_cons.mpr ⟨⟨h₁,by omega⟩,h₂⟩⟩

end Nodes

section Pools
variable {k : ℕ} {h h' : Heap} {s : Arena} {l r r' live : List Span}

theorem FreeList.commit (hk : k ≤ 8) (hf : FreeList s l) (hp : s.mp.Placed (8*k)) (h : Heap) :
    FreeList ((h.commit k s).arena k) l := by
  obtain ⟨-,hlt⟩ := hf.chain.lt (hf.nodes hp)
  refine ⟨hf.chain.congr fun t ht => ?_,hf.gapped,hf.aligned,hf.inside,hf.accounted⟩
  exact commit_node hk (hf.aligned t ht).1 (hlt t ht).1 (hlt t ht).2

/-- The free list is not touched by writes outside of the free areas. -/
theorem FreeList.bytes (hk : k ≤ 8) (hf : FreeList (h.arena k) l) (hmp : h'.mp = h.mp)
    (hb : ∀ x, Covers l x → h'.byte x = h.byte x) : FreeList (h'.arena k) l := by
  have hmem : ∀ t ∈ l, (h'.arena k).mem t.base = (h.arena k).mem t.base := by
    intro t ht
    have ha := hf.aligned t ht
    apply node_congr
    intro j h₁ h₂
    refine hb j ⟨t,ht,h₁,?_⟩
    simp only [Span.last]
    omega
  refine ⟨?_,hf.gapped,hf.aligned,?_,?_⟩
  · have hfirst : (h'.arena k).mp.mpFirst = (h.arena k).mp.mpFirst := congrArg MemPool.mpFirst hmp
    rw [hfirst]
    exact hf.chain.congr hmem
  · show ∀ t ∈ l, h'.mp.Inside t
    rw [hmp]
    exact hf.inside
  · show h'.mp.mpSize = h'.mp.mpUsed+total l
    rw [hmp]
    exact hf.accounted

theorem Session.Inv.commit (hk : k ≤ 8) (hi : Session.Inv (8*k) ⟨s,r,live⟩ l) (h : Heap) :
    Session.Inv (8*k) ⟨(h.commit k s).arena k,r,live⟩ l :=
  ⟨hi.free.commit hk hi.placed h,hi.placed,hi.owned,hi.inside,hi.apart,hi.distinct⟩

theorem Session.Inv.bytes (hk : k ≤ 8) (hi : Session.Inv (8*k) ⟨h.arena k,r,live⟩ l) (hmp : h'.mp = h.mp)
    (hb : ∀ x, Covers l x → h'.byte x = h.byte x) : Session.Inv (8*k) ⟨h'.arena k,r,live⟩ l := by
  refine ⟨hi.free.bytes hk hmp hb,?_,hi.owned,?_,hi.apart,hi.distinct⟩
  · show h'.mp.Placed (8*k)
    rw [hmp]
    exact hi.placed
  · show ∀ c ∈ live, alignBytes (8*k) c.len ≠ 0 → 16 ∣ c.base ∧ h'.mp.Inside (block (8*k) c)
    rw [hmp]
    exact hi.inside

/-- Only the bytes that the regions cover matter. -/
theorem Session.Inv.regions_congr {w : ℕ} (hi : Session.Inv w ⟨s,r,live⟩ l) (hr : ∀ x, Covers r x → Covers r' x) :
    Session.Inv w ⟨s,r',live⟩ l :=
  ⟨hi.free,hi.placed,fun x hx => hr x (hi.owned x hx),hi.inside,
    fun b hb x hx => ⟨(hi.apart b hb x hx).1,hr x (hi.apart b hb x hx).2⟩,hi.distinct⟩

end Pools

section Sizes
variable {k n : ℕ}

/-- What a request below `2^30` takes from the pool. -/
theorem request_bounds (hk : 4 ≤ k) (hn : n < 2^30) : n+17+15 < 2^(8*k) ∧ 16 ∣ alignBytes (8*k) (n+17) ∧
    n+17 ≤ alignBytes (8*k) (n+17) ∧ alignBytes (8*k) (n+17) ≤ n+32 := by
  have h32 : 2^32 ≤ 2^(8*k) := Nat.pow_le_pow_right (by norm_num) (by omega)
  have hw : wrap (8*k) (n+17+15) = n+17+15 := wrap_of_lt (by omega)
  refine ⟨by omega,alignBytes_dvd _ _,?_⟩
  simp only [alignBytes,mallocAlign]
  rw [show n+17+(16-1) = n+17+15 from rfl,hw]
  omega

/-- The step of the heap is large enough for the request. -/
theorem mallocIncr_bounds (hk : 4 ≤ k) (hn : n < 2^30) : 16 ∣ mallocIncr k (n+17) ∧
    alignBytes (8*k) (n+17) ≤ mallocIncr k (n+17) ∧ mallocIncr k (n+17) ≠ 0 := by
  have h32 : 2^32 ≤ 2^(8*k) := Nat.pow_le_pow_right (by norm_num) (by omega)
  obtain ⟨-,h₁,h₂,h₃⟩ := request_bounds hk hn
  have hw : wrap (8*k) (n+17+4095) = n+17+4095 := wrap_of_lt (by omega)
  have he : mallocIncr k (n+17) = n+17+4095-(n+17+4095)%4096 := by
    have hi : (wrap (8*k) (n+17+(blkExtend-1))-wrap (8*k) (n+17+(blkExtend-1))%blkExtend)%2^32 =
        n+17+4095-(n+17+4095)%4096 := by
      rw [show n+17+(blkExtend-1) = n+17+4095 from rfl,hw]
      exact Nat.mod_eq_of_lt (by omega)
    unfold mallocIncr
    dsimp only
    rw [hi,if_pos (by omega)]
  rw [he]
  omega

end Sizes

section Invariant
variable (k : ℕ)

/-- Where the heap lies. -/
structure Heap.Bounds (h : Heap) : Prop where
  base_pos : 0 < h.heapbase
  base_dvd : 16 ∣ h.heapbase
  size_dvd : 16 ∣ h.heapsize
  size_le : h.heapsize ≤ h.maxheap
  top_lt : h.heapbase+h.maxheap < 2^(8*k)

/-- The bytes that belong to a block, guards included. -/
def Block.area (b : Block) : Span := block (8*k) b.raw

/-- The guards of a block are in place. -/
structure Guarded (byte : ℕ → UInt8) (b : Block) : Prop where
  bytes : leGet byte b.res k = b.n+17
  magic : leGet byte (b.res+k) k = gaMagic
  last : byte (b.res+b.n+16) = 0xfe

def Heap.region (h : Heap) : List Span := [⟨h.heapbase,h.heapsize⟩]

structure Client.Inv (s : Client) (l : List Span) : Prop where
  pool : Session.Inv (8*k) ⟨s.heap.arena k,s.heap.region,s.live.map Block.raw⟩ l
  bounds : s.heap.Bounds k
  small : ∀ b ∈ s.live, b.n < 2^30
  guarded : ∀ b ∈ s.live, Guarded k s.heap.byte b
  quiet : s.heap.said = []

/-- The bytes of some blocks are as they were. -/
def Keeps (live : List Block) (h h' : Heap) : Prop :=
  ∀ b ∈ live, ∀ x, (b.area k).Has x → h'.byte x = h.byte x

/-- What no call changes. -/
structure SameHeap (h h' : Heap) : Prop where
  heapbase : h'.heapbase = h.heapbase
  maxheap : h'.maxheap = h.maxheap
  said : h'.said = h.said

end Invariant

section Blocks
variable {k : ℕ} {s : Client} {l : List Span} {b c : Block}

theorem covers_region {h : Heap} {x : ℕ} : Covers h.region x ↔ h.heapbase ≤ x ∧ x < h.heapbase+h.heapsize := by
  simp [Heap.region,Covers,Span.Has,Span.last]

/-- Where a block of the pool lies. -/
theorem pool_block {h : Heap} {live : List Block} (hk : 4 ≤ k)
    (hp : Session.Inv (8*k) ⟨h.arena k,h.region,live.map Block.raw⟩ l) (hbd : h.Bounds k) (hb : b ∈ live)
    (hn : b.n < 2^30) : 16 ∣ b.res ∧ h.heapbase ≤ b.res ∧
      b.res+alignBytes (8*k) (b.n+17) ≤ h.heapbase+h.heapsize ∧ b.res+b.n+17 < 2^(8*k) := by
  obtain ⟨-,h₁,h₂,h₃⟩ := request_bounds hk hn
  have hmem : b.raw ∈ live.map Block.raw := List.mem_map_of_mem hb
  have hne : alignBytes (8*k) (b.n+17) ≠ 0 := by omega
  obtain ⟨hdvd,-⟩ := hp.inside b.raw hmem hne
  have hreg : ∀ x, b.res ≤ x → x < b.res+alignBytes (8*k) (b.n+17) →
      h.heapbase ≤ x ∧ x < h.heapbase+h.heapsize := by
    intro x hx hx'
    exact covers_region.mp (hp.apart b.raw hmem x ⟨hx,hx'⟩).2
  have hlo := hreg b.res le_rfl (by omega)
  have hhi := hreg (b.res+alignBytes (8*k) (b.n+17)-1) (by omega) (by omega)
  have htop := hbd.top_lt
  have hsize := hbd.size_le
  exact ⟨hdvd,hlo.1,by omega,by omega⟩

theorem Client.Inv.block (hk : 4 ≤ k) (hi : s.Inv k l) (hb : b ∈ s.live) : 16 ∣ b.res ∧ s.heap.heapbase ≤ b.res ∧
    b.res+alignBytes (8*k) (b.n+17) ≤ s.heap.heapbase+s.heap.heapsize ∧ b.res+b.n+17 < 2^(8*k) :=
  pool_block hk hi.pool hi.bounds hb (hi.small b hb)

theorem area_has {x : ℕ} : (b.area k).Has x ↔ b.res ≤ x ∧ x < b.res+alignBytes (8*k) (b.n+17) := Iff.rfl

/-- Live blocks share no byte. -/
theorem Client.Inv.distinct (hi : s.Inv k l) :
    s.live.Pairwise fun b c => ∀ x, (b.area k).Has x → ¬ (c.area k).Has x :=
  List.pairwise_map.mp hi.pool.distinct

theorem Client.Inv.apart_erase (hi : s.Inv k l) (hb : b ∈ s.live) (hc : c ∈ s.live.erase b) {x : ℕ}
    (hx : (b.area k).Has x) : ¬ (c.area k).Has x := by
  have hsym : Std.Symm (fun b c : Block => ∀ x, (b.area k).Has x → ¬ (c.area k).Has x) :=
    ⟨fun b c hbc x hc hb => hbc x hb hc⟩
  have hpair := ((List.perm_cons_erase hb).pairwise_iff (fun {b c} => hsym.symm b c)).mp hi.distinct
  exact (List.pairwise_cons.mp hpair).1 c hc x hx

theorem raw_injective : Function.Injective Block.raw := by
  rintro ⟨r,n⟩ ⟨r',n'⟩ h
  simp only [Block.raw,Span.mk.injEq,Nat.add_right_cancel_iff] at h
  rw [h.1,h.2]

theorem Guarded.congr {byte byte' : ℕ → UInt8} (hk : 4 ≤ k) (hk' : k ≤ 8) (hg : Guarded k byte b) (hn : b.n < 2^30)
    (h : ∀ x, (b.area k).Has x → byte' x = byte x) : Guarded k byte' b := by
  obtain ⟨-,-,h₂,-⟩ := request_bounds hk hn
  have hin : ∀ x, b.res ≤ x → x < b.res+b.n+17 → byte' x = byte x := fun x h₁ h₃ => h x (area_has.mpr ⟨h₁,by omega⟩)
  refine ⟨?_,?_,?_⟩
  · rw [leGet_congr fun j h₁ h₃ => hin j h₁ (by omega)]
    exact hg.bytes
  · rw [leGet_congr fun j h₁ h₃ => hin j (by omega) (by omega)]
    exact hg.magic
  · rw [hin _ (by omega) (by omega)]
    exact hg.last

/-- The aligned address of a byte of a block is a byte of the block. -/
theorem Client.Inv.cell (hk : 4 ≤ k) (hi : s.Inv k l) (hb : b ∈ s.live) {x : ℕ} (hx : (b.area k).Has x) :
    (b.area k).Has (x-x%16) := by
  obtain ⟨-,h₁,-⟩ := request_bounds hk (hi.small b hb)
  obtain ⟨h₂,-⟩ := hi.block hk hb
  rw [area_has] at hx ⊢
  omega

theorem Client.Inv.not_covers (hi : s.Inv k l) (hb : b ∈ s.live) {x : ℕ} (hx : (b.area k).Has x) : ¬ Covers l x :=
  (hi.pool.apart b.raw (List.mem_map_of_mem hb) x hx).1

/-- The pool allocator keeps what it does not find in its list. -/
theorem Client.Inv.keeps_commit (hk : 4 ≤ k) (hi : s.Inv k l) {a : Arena} {live : List Block}
    (hlive : ∀ b ∈ live, b ∈ s.live)
    (hmem : ∀ b ∈ live, ∀ x, (b.area k).Has x → a.mem x = (s.heap.arena k).mem x) :
    Keeps k live s.heap (s.heap.commit k a) := by
  intro b hb x hx
  exact commit_byte (hmem b hb _ (hi.cell hk (hlive b hb) hx))

end Blocks

section Keeping
variable {k : ℕ} {h h' h'' : Heap} {live live' : List Block}

theorem Keeps.refl (live : List Block) (h : Heap) : Keeps k live h h := fun _ _ _ _ => rfl

theorem Keeps.trans (h₁ : Keeps k live h h') (h₂ : Keeps k live h' h'') : Keeps k live h h'' :=
  fun b hb x hx => (h₂ b hb x hx).trans (h₁ b hb x hx)

theorem Keeps.mono (hs : ∀ b ∈ live', b ∈ live) (hl : Keeps k live h h') : Keeps k live' h h' :=
  fun b hb => hl b (hs b hb)

theorem SameHeap.trans (h₁ : SameHeap h h') (h₂ : SameHeap h' h'') : SameHeap h h'' :=
  ⟨h₂.heapbase.trans h₁.heapbase,h₂.maxheap.trans h₁.maxheap,h₂.said.trans h₁.said⟩

theorem Heap.Bounds.commit (hb : h.Bounds k) (a : Arena) : (h.commit k a).Bounds k :=
  ⟨hb.base_pos,hb.base_dvd,hb.size_dvd,hb.size_le,hb.top_lt⟩

theorem sameHeap_commit (h : Heap) (a : Arena) : SameHeap h (h.commit k a) := ⟨rfl,rfl,rfl⟩

theorem guarded_keeps {s : Client} {l : List Span} (hk : 4 ≤ k) (hk' : k ≤ 8) (hi : s.Inv k l)
    (hlive : ∀ b ∈ live, b ∈ s.live) (hl : Keeps k live s.heap h) : ∀ b ∈ live, Guarded k h.byte b :=
  fun b hb => (hi.guarded b (hlive b hb)).congr hk hk' (hi.small b (hlive b hb)) (hl b hb)

end Keeping

section Grow
variable {k : ℕ} (hk : 4 ≤ k) (hk' : k ≤ 8) {s : Client} {l : List Span}
include hk'

/-- The heap grows by a region that goes to the free list. What was in the heap and not free keeps its bytes. -/
theorem pool_grow {h : Heap} {live : List Span} (hp : Session.Inv (8*k) ⟨h.arena k,h.region,live⟩ l)
    (hbd : h.Bounds k) {incr : ℕ} (hd : 16 ∣ incr) (h₀ : incr ≠ 0) (hr : h.heapsize+incr ≤ h.maxheap) :
    ∃ h₁ a, sbrk k h incr = some (h.heapbase+h.heapsize,h₁) ∧
      zfree (8*k) (zextendPool (8*k) (h₁.arena k) (h.heapbase+h.heapsize) incr) (h.heapbase+h.heapsize) incr = .ok a ∧
      Session.Inv (8*k) ⟨(h₁.commit k a).arena k,(h₁.commit k a).region,live⟩ (put ⟨h.heapbase+h.heapsize,incr⟩ l) ∧
      (h₁.commit k a).Bounds k ∧ (h₁.commit k a).heapsize = h.heapsize+incr ∧ SameHeap h (h₁.commit k a) ∧
      ∀ x, Covers h.region x → Covers h.region (x-x%16) → ¬ Covers l (x-x%16) → (h₁.commit k a).byte x = h.byte x := by
  obtain ⟨hb₀,hbd,hsd,hle,htop⟩ := hbd
  set base := h.heapbase+h.heapsize with hbase
  set h₁ : Heap := { h with byte := bzero h.byte base incr, heapsize := h.heapsize+incr } with hh₁
  have hsbrk : sbrk k h incr = some (base,h₁) := by
    unfold sbrk
    rw [wrap_of_lt (show h.heapsize+incr < 2^(8*k) by omega),if_pos hr,
      wrap_of_lt (show h.heapbase+h.heapsize < 2^(8*k) by omega)]
  -- the new bytes lie behind everything that is in use
  have hzero : ∀ x, Covers h.region x → h₁.byte x = h.byte x := by
    intro x hx
    rw [covers_region] at hx
    show blit h.byte base incr (fun _ => 0) x = h.byte x
    exact blit_outside (Or.inl (by omega))
  have hpool : Session.Inv (8*k) ⟨h₁.arena k,h.region,live⟩ l :=
    hp.bytes hk' rfl fun x hx => hzero x (hp.owned x hx)
  have hallowed : Session.Allowed (8*k) ⟨h₁.arena k,h.region,live⟩ (.extend base incr) := by
    refine ⟨by omega,hd,by omega,by omega,?_⟩
    intro r hr
    obtain rfl := List.mem_singleton.mp hr
    simp only [Span.Apart,Span.last]
    omega
  obtain ⟨a,hz,hinv,hmem⟩ := hpool.extend base incr hallowed h₀
  refine ⟨h₁,a,hsbrk,hz,?_,⟨hb₀,hbd,(Nat.dvd_add hsd hd : 16 ∣ h.heapsize+incr),hr,htop⟩,rfl,⟨rfl,rfl,rfl⟩,?_⟩
  · apply (hinv.commit hk' h₁).regions_congr
    intro x hx
    rw [covers_cons,covers_region] at hx
    show Covers h₁.region x
    rw [covers_region]
    simp only [Span.Has,Span.last,hh₁] at hx ⊢
    omega
  · intro x hx hcell hfree
    have hne : x-x%16 ≠ base := by
      rw [covers_region] at hcell
      omega
    rw [commit_byte (hmem _ hne hfree)]
    exact hzero x hx

include hk

/-- Live blocks keep their bytes and their guards when the heap grows. -/
theorem Client.Inv.grow (hi : s.Inv k l) {incr : ℕ} (hd : 16 ∣ incr) (h₀ : incr ≠ 0)
    (hr : s.heap.heapsize+incr ≤ s.heap.maxheap) :
    ∃ h₁ a, sbrk k s.heap incr = some (s.heap.heapbase+s.heap.heapsize,h₁) ∧
      zfree (8*k) (zextendPool (8*k) (h₁.arena k) (s.heap.heapbase+s.heap.heapsize) incr)
        (s.heap.heapbase+s.heap.heapsize) incr = .ok a ∧
      Client.Inv k ⟨h₁.commit k a,s.live⟩ (put ⟨s.heap.heapbase+s.heap.heapsize,incr⟩ l) ∧
      Keeps k s.live s.heap (h₁.commit k a) ∧ SameHeap s.heap (h₁.commit k a) := by
  obtain ⟨h₁,a,hsbrk,hz,hpool,hbounds,-,hsame,hbytes⟩ := pool_grow hk' hi.pool hi.bounds hd h₀ hr
  have hkeeps : Keeps k s.live s.heap (h₁.commit k a) := by
    intro b hb x hx
    have hcell := hi.cell hk hb hx
    have hraw := hi.pool.apart b.raw (List.mem_map_of_mem hb)
    exact hbytes x (hraw x hx).2 (hraw _ hcell).2 (hi.not_covers hb hcell)
  exact ⟨h₁,a,hsbrk,hz,⟨hpool,hbounds,hi.small,guarded_keeps hk hk' hi (fun b hb => hb) hkeeps,
    hsame.said.trans hi.quiet⟩,hkeeps,hsame⟩

/-- A heap that has just cut a block for `n` bytes at `res`, without guards yet. -/
structure Served (k : ℕ) (s : Client) (n res : ℕ) (h : Heap) (l : List Span) : Prop where
  pool : Session.Inv (8*k) ⟨h.arena k,h.region,(⟨res,n⟩ :: s.live).map Block.raw⟩ l
  bounds : h.Bounds k
  keeps : Keeps k s.live s.heap h
  same : SameHeap s.heap h

theorem Client.Inv.serve (hi : s.Inv k l) {n : ℕ} (hn : n < 2^30) :
    (take (alignBytes (8*k) (n+17)) l = none ∧
      znalloc (8*k) (s.heap.arena k) (n+17) = .ok (0,s.heap.arena k)) ∨
    ∃ res a l', znalloc (8*k) (s.heap.arena k) (n+17) = .ok (res,a) ∧ res ≠ 0 ∧
      Served k s n res (s.heap.commit k a) l' := by
  obtain ⟨-,-,h₁,-⟩ := request_bounds hk hn
  refine (hi.pool.alloc (n+17) (by omega)).imp_right ?_
  rintro ⟨res,a,l',hz,hres,hinv,hmem⟩
  refine ⟨res,a,l',hz,hres,hinv.commit hk' s.heap,hi.bounds.commit a,?_,sameHeap_commit _ _⟩
  exact hi.keeps_commit hk (fun b hb => hb) fun b hb x hx => hmem x (hi.not_covers hb hx)

end Grow

/-- Where an area with room is reached, the list holds one. -/
theorem hasArea_chain {mem : ℕ → MemNode} {n p fuel : ℕ} {l : List Span} (hc : Chain mem p l)
    (h : hasArea mem n fuel p = true) : ∃ t ∈ l, n ≤ t.len := by
  induction l generalizing p fuel with
  | nil =>
    rw [chain_nil] at hc
    cases fuel with
    | zero => cases h
    | succ fuel => simp [hasArea,hc] at h
  | cons t l ih =>
    rw [chain_cons] at hc
    obtain ⟨-,hb,hc⟩ := hc
    cases fuel with
    | zero => cases h
    | succ fuel =>
      simp only [hasArea,decide_eq_true_eq] at h
      obtain ⟨-,h | h⟩ := h
      · exact ⟨t,List.mem_cons_self,hb ▸ h⟩
      · obtain ⟨u,hu,hn⟩ := ih hc h
        exact ⟨u,List.mem_cons_of_mem _ hu,hn⟩

/-- One round of `Malloc` when the free list has an area. -/
theorem mallocLoop_serve {k n fuel res : ℕ} {h : Heap} {a : Arena}
    (hz : znalloc (8*k) (h.arena k) (n+17) = .ok (res,a)) (hres : res ≠ 0) :
    mallocLoop k (n+17) (fuel+1) h = .ok (res,h.commit k a) := by
  unfold mallocLoop
  rw [hz]
  dsimp only
  rw [if_pos hres]

/-- The pool does not see what is written into a block. -/
theorem pool_write {k : ℕ} {l : List Span} {h h' : Heap} {r : List Span} {live : List Block} {b : Block} (hk' : k ≤ 8)
    (hp : Session.Inv (8*k) ⟨h.arena k,r,live.map Block.raw⟩ l) (hb : b ∈ live) (hmp : h'.mp = h.mp)
    (hw : ∀ x, ¬ (b.area k).Has x → h'.byte x = h.byte x) :
    Session.Inv (8*k) ⟨h'.arena k,r,live.map Block.raw⟩ l :=
  hp.bytes hk' hmp fun x hx => hw x fun hc => (hp.apart b.raw (List.mem_map_of_mem hb) x hc).1 hx

section Guards
variable {k : ℕ} (hk : 4 ≤ k) (hk' : k ≤ 8) {b : Block} {byte : ℕ → UInt8}
include hk'

theorem putGuards_eq (hb : b.res+b.n+17 < 2^(8*k)) : putGuards k byte b.res (b.n+17) =
    Function.update (lePut (lePut byte (b.res+k) k gaMagic) b.res k (b.n+17)) (b.res+b.n+16) 0xfe := by
  unfold putGuards
  rw [wrap_of_lt (show b.res+k < 2^(8*k) by omega),wrap_of_lt (show b.res+(b.n+17) < 2^(8*k) by omega),
    sub_of_le (by omega) (by omega),show b.res+(b.n+17)-1 = b.res+b.n+16 by omega]

include hk

theorem guarded_putGuards (hn : b.n < 2^30) (hb : b.res+b.n+17 < 2^(8*k)) :
    Guarded k (putGuards k byte b.res (b.n+17)) b := by
  have h32 : 256^4 ≤ 256^k := Nat.pow_le_pow_right (by norm_num) hk
  have hmagic : gaMagic < 256^k := lt_of_lt_of_le (by decide) h32
  have hbytes : b.n+17 < 256^k := by
    norm_num at h32
    omega
  rw [putGuards_eq hk' hb]
  refine ⟨?_,?_,Function.update_self _ _ _⟩
  · rw [leGet_congr fun j h₁ h₂ => Function.update_of_ne (show j ≠ b.res+b.n+16 by omega) _ _]
    exact leGet_lePut_of_lt hbytes
  · rw [leGet_congr fun j h₁ h₂ => Function.update_of_ne (show j ≠ b.res+b.n+16 by omega) _ _,
      leGet_lePut_apart (by omega)]
    exact leGet_lePut_of_lt hmagic

theorem putGuards_outside (hn : b.n < 2^30) (hb : b.res+b.n+17 < 2^(8*k)) {x : ℕ} (hx : ¬ (b.area k).Has x) :
    putGuards k byte b.res (b.n+17) x = byte x := by
  obtain ⟨-,-,h₂,-⟩ := request_bounds hk hn
  rw [area_has] at hx
  rw [putGuards_eq hk' hb,Function.update_of_ne (by omega),lePut_outside (by omega),lePut_outside (by omega)]

end Guards

section Malloc
variable {k : ℕ} (hk : 4 ≤ k) (hk' : k ≤ 8) {s : Client} {l : List Span} {n : ℕ}
include hk hk'

theorem mallocLoop_ok (hi : s.Inv k l) (hn : n < 2^30) (hfits : s.heap.Fits k n) :
    ∃ res h, mallocLoop k (n+17) (s.heap.maxheap+2) s.heap = .ok (res,h) ∧
      ((res = 0 ∧ h = s.heap) ∨ (res ≠ 0 ∧ ∃ l', Served k s n res h l')) := by
  obtain ⟨hid,hile,hi₀⟩ := mallocIncr_bounds hk hn
  cases hi.serve hk hk' hn with
  | inr hserve =>
    obtain ⟨res,a,l',hz,hres,hs⟩ := hserve
    exact ⟨res,_,mallocLoop_serve hz hres,Or.inr ⟨hres,l',hs⟩⟩
  | inl hnone =>
    obtain ⟨htake,hz⟩ := hnone
    -- nothing in the list is large enough, so the size of the heap is what must not wrap
    have hroom : s.heap.heapsize+mallocIncr k (n+17) < 2^(8*k) := by
      refine hfits.resolve_left fun harea => ?_
      obtain ⟨t,ht,hle⟩ := hasArea_chain hi.pool.free.chain harea
      exact absurd (take_eq_none htake t ht) (not_lt.mpr hle)
    by_cases hmax : s.heap.heapsize+mallocIncr k (n+17) ≤ s.heap.maxheap
    · obtain ⟨h₁,a,hsbrk,hzf,hinv,hkeeps,hsame⟩ := hi.grow hk hk' hid hi₀ hmax
      have hnext : mallocLoop k (n+17) (s.heap.maxheap+2) s.heap =
          mallocLoop k (n+17) (s.heap.maxheap+1) (h₁.commit k a) := by
        rw [mallocLoop,hz]
        dsimp only
        rw [commit_arena,if_neg (not_not.mpr rfl),hsbrk]
        dsimp only
        rw [hzf]
      rw [hnext]
      cases hinv.serve hk hk' hn with
      | inl hnone =>
        obtain ⟨t,ht,hle⟩ := exists_le_put ⟨s.heap.heapbase+s.heap.heapsize,mallocIncr k (n+17)⟩ l
        have hlt := take_eq_none hnone.1 t ht
        dsimp only at hle
        omega
      | inr hserve =>
        obtain ⟨res,a',l',hz',hres,hs⟩ := hserve
        exact ⟨res,_,mallocLoop_serve hz' hres,Or.inr ⟨hres,l',hs.pool,hs.bounds,
          hkeeps.trans hs.keeps,hsame.trans hs.same⟩⟩
    · refine ⟨0,s.heap,?_,Or.inl ⟨rfl,rfl⟩⟩
      rw [mallocLoop,hz]
      dsimp only
      have hsbrk : sbrk k s.heap (mallocIncr k (n+17)) = none := by
        unfold sbrk
        rw [wrap_of_lt hroom,if_neg hmax]
      rw [commit_arena,if_neg (not_not.mpr rfl),hsbrk]

/-- The guards complete a block that was cut. -/
theorem Served.guards {h : Heap} {res : ℕ} (hs : Served k s n res h l) {l₀ : List Span} (hi : s.Inv k l₀)
    (hn : n < 2^30) : Client.Inv k ⟨{ h with byte := putGuards k h.byte res (n+17) },⟨res,n⟩ :: s.live⟩ l ∧
      Keeps k s.live s.heap { h with byte := putGuards k h.byte res (n+17) } ∧ res+n+17 < 2^(8*k) := by
  obtain ⟨-,-,-,hlt⟩ := pool_block hk hs.pool hs.bounds List.mem_cons_self hn
  have hout : ∀ x, ¬ (Block.area k ⟨res,n⟩).Has x → putGuards k h.byte res (n+17) x = h.byte x :=
    fun x hx => putGuards_outside (b := ⟨res,n⟩) hk hk' hn hlt hx
  have hdist := (List.pairwise_cons.mp (List.pairwise_map.mp hs.pool.distinct)).1
  have hkeeps : Keeps k s.live s.heap { h with byte := putGuards k h.byte res (n+17) } := by
    intro b hb x hx
    exact (hout x fun hc => hdist b hb x hc hx).trans (hs.keeps b hb x hx)
  refine ⟨⟨pool_write hk' hs.pool List.mem_cons_self rfl hout,?_,?_,?_,?_⟩,hkeeps,hlt⟩
  · exact ⟨hs.bounds.base_pos,hs.bounds.base_dvd,hs.bounds.size_dvd,hs.bounds.size_le,hs.bounds.top_lt⟩
  · exact List.forall_mem_cons.mpr ⟨hn,hi.small⟩
  · exact List.forall_mem_cons.mpr ⟨guarded_putGuards (b := ⟨res,n⟩) hk hk' hn hlt,
      guarded_keeps hk hk' hi (fun b hb => hb) hkeeps⟩
  · exact hs.same.said.trans hi.quiet

theorem malloc_ok (hi : s.Inv k l) (hn : n < 2^30) (hfits : s.heap.Fits k n) :
    ∃ r h, malloc k s.heap n = .ok (r,h) ∧ ((r = 0 ∧ h = s.heap) ∨ ∃ res l', r = res+16 ∧
      Client.Inv k ⟨h,⟨res,n⟩ :: s.live⟩ l' ∧ Keeps k s.live s.heap h ∧ SameHeap s.heap h) := by
  obtain ⟨h₁,-,-,-⟩ := request_bounds hk hn
  obtain ⟨res,h,hloop,hcase⟩ := mallocLoop_ok hk hk' hi hn hfits
  have hw : wrap (8*k) (n+(mallocAlign+1)) = n+17 := wrap_of_lt (show n+17 < 2^(8*k) by omega)
  unfold malloc
  dsimp only
  rw [hw,hloop]
  dsimp only
  obtain ⟨rfl,rfl⟩ | ⟨hres,l',hs⟩ := hcase
  · exact ⟨0,s.heap,if_pos rfl,Or.inl ⟨rfl,rfl⟩⟩
  · obtain ⟨hinv,hkeeps,hlt⟩ := hs.guards hk hk' hi hn
    have hbd := hs.bounds.top_lt
    have hle := hs.bounds.size_le
    obtain ⟨-,-,hend,-⟩ := pool_block hk hs.pool hs.bounds List.mem_cons_self hn
    obtain ⟨-,-,hlen,-⟩ := request_bounds hk hn
    have hptr : wrap (8*k) (res+mallocAlign) = res+16 := wrap_of_lt (show res+16 < 2^(8*k) by omega)
    rw [if_neg hres,hptr]
    exact ⟨_,_,rfl,Or.inr ⟨res,l',rfl,hinv,hkeeps,hs.same.heapbase,hs.same.maxheap,hs.same.said⟩⟩

end Malloc

section Free
variable {k : ℕ} (hk : 4 ≤ k) (hk' : k ≤ 8) {s : Client} {l : List Span} {b : Block}
include hk hk'

/-- What `Free` writes over the guards of a block. -/
def freedGuards (k : ℕ) (byte : ℕ → UInt8) (b : Block) : ℕ → UInt8 :=
  Function.update (lePut byte (b.res+k) k gaFree) (b.res+b.n+16) 0xff

omit hk in
theorem free_eq {h : Heap} (hg : Guarded k h.byte b) (hlt : b.res+b.n+17 < 2^(8*k)) : free k h b.ptr =
    match zfree (8*k) (Heap.arena k { h with byte := freedGuards k h.byte b }) b.res (b.n+17) with
    | .error p => .error (.zalloc p)
    | .ok a => .ok (Heap.commit k { h with byte := freedGuards k h.byte b } a) := by
  have hres : sub (8*k) b.ptr mallocAlign = b.res := by
    have hle : mallocAlign ≤ b.ptr := Nat.le_add_left _ _
    have hptr : b.ptr < 2^(8*k) := show b.res+16 < 2^(8*k) by omega
    rw [sub_of_le hle hptr]
    exact Nat.add_sub_cancel b.res mallocAlign
  have hnull : b.ptr ≠ 0 := Nat.succ_ne_zero (b.res+15)
  have hmagic : wrap (8*k) (b.res+k) = b.res+k := wrap_of_lt (by omega)
  have hbytes : leGet (lePut h.byte (b.res+k) k gaFree) b.res k = b.n+17 := by
    rw [leGet_lePut_apart (by omega),hg.bytes]
  have hlast : sub (8*k) (wrap (8*k) (b.res+(b.n+17))) 1 = b.res+b.n+16 := by
    rw [wrap_of_lt (show b.res+(b.n+17) < 2^(8*k) by omega),sub_of_le (by omega) (by omega)]
    omega
  have hguard : lePut h.byte (b.res+k) k gaFree (b.res+b.n+16) = 0xfe := by
    rw [lePut_outside (by omega)]
    exact hg.last
  have hbytes' : leGet (freedGuards k h.byte b) b.res k = b.n+17 := by
    rw [freedGuards,leGet_congr fun j h₁ h₂ => Function.update_of_ne (show j ≠ b.res+b.n+16 by omega) _ _]
    exact hbytes
  unfold free
  rw [if_neg hnull]
  dsimp only
  rw [hres,hmagic,hg.magic,if_neg (by decide),if_neg (by decide),hbytes,hlast,hguard,if_neg (by decide),
    if_neg (by decide)]
  show (match zfree (8*k) (Heap.arena k { h with byte := freedGuards k h.byte b }) b.res
      (leGet (freedGuards k h.byte b) b.res k) with
    | .error p => .error (.zalloc p)
    | .ok a => .ok (Heap.commit k { h with byte := freedGuards k h.byte b } a) : Except Fault Heap) = _
  rw [hbytes']

theorem freedGuards_outside {byte : ℕ → UInt8} (hn : b.n < 2^30) {x : ℕ} (hx : ¬ (b.area k).Has x) :
    freedGuards k byte b x = byte x := by
  obtain ⟨-,-,h₂,-⟩ := request_bounds hk hn
  rw [area_has] at hx
  unfold freedGuards
  rw [Function.update_of_ne (by omega),lePut_outside (by omega)]

theorem free_ok (hi : s.Inv k l) (hb : b ∈ s.live) : ∃ h l', free k s.heap b.ptr = .ok h ∧
    Client.Inv k ⟨h,s.live.erase b⟩ l' ∧ Keeps k (s.live.erase b) s.heap h ∧ SameHeap s.heap h := by
  have hn := hi.small b hb
  obtain ⟨-,-,hlen,-⟩ := request_bounds hk hn
  obtain ⟨-,-,-,hlt⟩ := hi.block hk hb
  set h₁ : Heap := { s.heap with byte := freedGuards k s.heap.byte b } with hh₁
  have hpool : Session.Inv (8*k) ⟨h₁.arena k,s.heap.region,s.live.map Block.raw⟩ l :=
    pool_write hk' hi.pool hb rfl fun x hx => freedGuards_outside hk hk' hn hx
  have hraw : b.raw ∈ s.live.map Block.raw := List.mem_map_of_mem hb
  have hne : alignBytes (8*k) b.raw.len ≠ 0 := by
    show alignBytes (8*k) (b.n+17) ≠ 0
    omega
  obtain ⟨a,hz,hinv,hmem⟩ := hpool.release hraw hne
  rw [← List.map_erase raw_injective] at hinv
  have hkeeps : Keeps k (s.live.erase b) s.heap (h₁.commit k a) := by
    intro c hc x hx
    have hcl : c ∈ s.live := List.mem_of_mem_erase hc
    have hcell := hi.cell hk hcl hx
    have hres : x-x%16 ≠ b.res := by
      intro he
      rw [he] at hcell
      exact hi.apart_erase hb hc (area_has.mpr ⟨le_rfl,by omega⟩) hcell
    rw [commit_byte (hmem _ hres (hi.not_covers hcl hcell))]
    exact freedGuards_outside hk hk' hn fun hx' => hi.apart_erase hb hc hx' hx
  have hlive : ∀ c ∈ s.live.erase b, c ∈ s.live := fun c hc => List.mem_of_mem_erase hc
  refine ⟨h₁.commit k a,_,?_,⟨hinv.commit hk' h₁,?_,?_,?_,hi.quiet⟩,hkeeps,rfl,rfl,rfl⟩
  · rw [free_eq hk' (hi.guarded b hb) hlt]
    rw [show zfree (8*k) (h₁.arena k) b.res (b.n+17) = .ok a from hz]
  · exact ⟨hi.bounds.base_pos,hi.bounds.base_dvd,hi.bounds.size_dvd,hi.bounds.size_le,hi.bounds.top_lt⟩
  · exact fun c hc => hi.small c (hlive c hc)
  · exact guarded_keeps hk hk' hi hlive hkeeps

end Free

section Write
variable {k : ℕ} {s : Client} {l : List Span} {b c : Block}

theorem user_has {x : ℕ} : b.user.Has x ↔ b.res+16 ≤ x ∧ x < b.res+16+b.n := Iff.rfl

theorem user_area (hk : 4 ≤ k) (hn : b.n < 2^30) {x : ℕ} (hx : b.user.Has x) : (b.area k).Has x := by
  obtain ⟨-,-,h₂,-⟩ := request_bounds hk hn
  rw [user_has] at hx
  rw [area_has]
  omega

theorem Guarded.congr_user {byte byte' : ℕ → UInt8} (hk' : k ≤ 8) (hg : Guarded k byte b)
    (h : ∀ x, ¬ b.user.Has x → byte' x = byte x) : Guarded k byte' b := by
  have hout : ∀ x, x < b.res+16 ∨ b.res+16+b.n ≤ x → byte' x = byte x := by
    intro x hx
    apply h
    rw [user_has]
    omega
  refine ⟨?_,?_,?_⟩
  · rw [leGet_congr fun j h₁ h₂ => hout j (by omega)]
    exact hg.bytes
  · rw [leGet_congr fun j h₁ h₂ => hout j (by omega)]
    exact hg.magic
  · rw [hout _ (by omega)]
    exact hg.last

/-- Callers write inside the bytes they were given. -/
theorem Client.Inv.write (hk : 4 ≤ k) (hk' : k ≤ 8) (hi : s.Inv k l) (hb : b ∈ s.live) {byte : ℕ → UInt8}
    (hw : ∀ x, ¬ b.user.Has x → byte x = s.heap.byte x) :
    Client.Inv k ⟨{ s.heap with byte := byte },s.live⟩ l ∧
      Keeps k (s.live.erase b) s.heap { s.heap with byte := byte } := by
  have hout : ∀ x, ¬ (b.area k).Has x → byte x = s.heap.byte x := fun x hx =>
    hw x fun hu => hx (user_area hk (hi.small b hb) hu)
  have hkeeps : Keeps k (s.live.erase b) s.heap { s.heap with byte := byte } := fun c hc x hx =>
    hout x fun hx' => hi.apart_erase hb hc hx' hx
  refine ⟨⟨pool_write hk' hi.pool hb rfl hout,?_,hi.small,?_,hi.quiet⟩,hkeeps⟩
  · exact ⟨hi.bounds.base_pos,hi.bounds.base_dvd,hi.bounds.size_dvd,hi.bounds.size_le,hi.bounds.top_lt⟩
  · intro c hc
    by_cases hcb : c = b
    · subst hcb
      exact (hi.guarded c hc).congr_user hk' hw
    · have hce := (List.mem_erase_of_ne hcb).mpr hc
      exact (hi.guarded c hc).congr hk hk' (hi.small c hc) (hkeeps c hce)

theorem Client.Inv.ptr_unique (hk : 4 ≤ k) (hi : s.Inv k l) (hb : b ∈ s.live) (hc : c ∈ s.live) (h : b.ptr = c.ptr) :
    c = b := by
  by_contra hne
  have hres : b.res = c.res := Nat.add_right_cancel h
  obtain ⟨-,-,h₁,-⟩ := request_bounds hk (hi.small b hb)
  obtain ⟨-,-,h₂,-⟩ := request_bounds hk (hi.small c hc)
  exact hi.apart_erase hb ((List.mem_erase_of_ne hne).mpr hc) (area_has.mpr ⟨le_rfl,by omega⟩)
    (area_has.mpr ⟨hres.ge,by omega⟩)

theorem dropLive_zero (live : List Block) : dropLive live 0 = live := by
  have hnone : live.find? (fun b => b.ptr = 0) = none := by
    rw [List.find?_eq_none]
    intro b _
    simp [Block.ptr,mallocAlign]
  rw [dropLive,hnone]

theorem Client.Inv.dropLive_eq (hk : 4 ≤ k) (hi : s.Inv k l) (hb : b ∈ s.live) :
    dropLive s.live b.ptr = s.live.erase b := by
  unfold dropLive
  cases hf : s.live.find? (fun c => c.ptr = b.ptr) with
  | none =>
    have := List.find?_eq_none.mp hf b hb
    simp at this
  | some c =>
    have hp : c.ptr = b.ptr := by simpa using List.find?_some hf
    have hc := List.mem_of_find?_eq_some hf
    rw [hi.ptr_unique hk hb hc hp.symm]

end Write

section Realloc
variable {k : ℕ} (hk : 4 ≤ k) (hk' : k ≤ 8) {s : Client} {l : List Span} {n : ℕ} {b : Block}
include hk hk'

omit hk hk' in
/-- The size that `Realloc` finds in front of a block. -/
theorem old_size {h : Heap} (hg : Guarded k h.byte b) (hlt : b.res+b.n+17 < 2^(8*k)) :
    sub (8*k) (sub (8*k) (leGet h.byte (sub (8*k) b.ptr mallocAlign) k) mallocAlign) 1 = b.n := by
  have hres : sub (8*k) b.ptr mallocAlign = b.res := by
    have hle : mallocAlign ≤ b.ptr := Nat.le_add_left _ _
    have hptr : b.ptr < 2^(8*k) := show b.res+16 < 2^(8*k) by omega
    rw [sub_of_le hle hptr]
    exact Nat.add_sub_cancel b.res mallocAlign
  have h₁ : sub (8*k) (b.n+17) mallocAlign = b.n+1 := sub_of_le (show 16 ≤ b.n+17 by omega) (by omega)
  rw [hres,hg.bytes,h₁,sub_of_le (by omega) (by omega),Nat.add_sub_cancel]

/-- The copy into a new block, and the release of the old one. -/
theorem copy_free {h₁ : Heap} {res m : ℕ} (hi : Client.Inv k ⟨h₁,⟨res,n⟩ :: s.live⟩ l) (hb : b ∈ s.live) (hm : m ≤ n) :
    ∃ h l', free k { h₁ with byte := blit h₁.byte (res+16) m fun j => h₁.byte (b.ptr+j) } b.ptr = .ok h ∧
      Client.Inv k ⟨h,⟨res,n⟩ :: s.live.erase b⟩ l' ∧ Keeps k (s.live.erase b) h₁ h ∧ SameHeap h₁ h ∧
      ∀ j < m, h.byte (res+16+j) = h₁.byte (b.ptr+j) := by
  have hnew : (⟨res,n⟩ : Block) ∈ (⟨res,n⟩ : Block) :: s.live := List.mem_cons_self
  have hb' : b ∈ (⟨res,n⟩ : Block) :: s.live := List.mem_cons_of_mem _ hb
  have hsmall := hi.small b hb'
  obtain ⟨-,-,hlen,-⟩ := request_bounds hk hsmall
  have hne : ¬ ((⟨res,n⟩ : Block) == b) = true := by
    intro he
    have hx : (b.area k).Has b.res := area_has.mpr ⟨le_rfl,by omega⟩
    refine (List.pairwise_cons.mp hi.distinct).1 b hb b.res ?_ hx
    rw [eq_of_beq he]
    exact hx
  have hw : ∀ x, ¬ (Block.user ⟨res,n⟩).Has x →
      blit h₁.byte (res+16) m (fun j => h₁.byte (b.ptr+j)) x = h₁.byte x := by
    intro x hx
    rw [user_has] at hx
    dsimp only at hx
    exact blit_outside (by omega)
  obtain ⟨hinv,hkeeps⟩ := hi.write hk hk' hnew hw
  obtain ⟨h,l',hfree,hinv',hkeeps',hsame⟩ := free_ok hk hk' hinv hb'
  have herase : ((⟨res,n⟩ : Block) :: s.live).erase b = ⟨res,n⟩ :: s.live.erase b := List.erase_cons_tail hne
  dsimp only at hinv' hkeeps' hkeeps hfree
  rw [herase] at hinv' hkeeps'
  rw [List.erase_cons_head] at hkeeps
  refine ⟨h,l',hfree,hinv',?_,⟨hsame.heapbase,hsame.maxheap,hsame.said⟩,?_⟩
  · exact (hkeeps.mono fun c hc => List.mem_of_mem_erase hc).trans
      (hkeeps'.mono fun c hc => List.mem_cons_of_mem _ hc)
  · intro j hj
    have hu : (Block.user ⟨res,n⟩).Has (res+16+j) := user_has.mpr ⟨by dsimp only; omega,by dsimp only; omega⟩
    rw [hkeeps' ⟨res,n⟩ List.mem_cons_self _ (user_area hk (hi.small _ hnew) hu)]
    show blit h₁.byte (res+16) m (fun j => h₁.byte (b.ptr+j)) (res+16+j) = _
    rw [blit_inside (by omega) (by omega),Nat.add_sub_cancel_left]

theorem realloc_ok (hi : s.Inv k l) (hn : n < 2^30) (hfits : s.heap.Fits k n) {ptr : ℕ}
    (hptr : ptr = 0 ∨ ∃ b ∈ s.live, b.ptr = ptr) :
    ∃ r h, realloc k s.heap ptr n = .ok (r,h) ∧ ((r = 0 ∧ h = s.heap) ∨ ∃ res l', r = res+16 ∧
      Client.Inv k ⟨h,⟨res,n⟩ :: dropLive s.live ptr⟩ l' ∧ Keeps k (dropLive s.live ptr) s.heap h ∧
      SameHeap s.heap h ∧ ∀ b ∈ s.live, b.ptr = ptr → ∀ j < min b.n n, h.byte (r+j) = s.heap.byte (ptr+j)) := by
  obtain ⟨r,h₁,hmalloc,hcase⟩ := malloc_ok hk hk' hi hn hfits
  unfold realloc
  rw [hmalloc]
  dsimp only
  obtain ⟨rfl,rfl⟩ | ⟨res,l',rfl,hinv,hkeeps,hsame⟩ := hcase
  · exact ⟨0,s.heap,if_pos (Or.inl rfl),Or.inl ⟨rfl,rfl⟩⟩
  · obtain rfl | ⟨b,hb,rfl⟩ := hptr
    · refine ⟨res+16,h₁,if_pos (Or.inr rfl),Or.inr ⟨res,l',rfl,?_⟩⟩
      rw [dropLive_zero]
      refine ⟨hinv,hkeeps,hsame,?_⟩
      intro b _ h₀
      exact absurd h₀ (Nat.succ_ne_zero (b.res+15))
    · have hb' : b ∈ (⟨res,n⟩ : Block) :: s.live := List.mem_cons_of_mem _ hb
      obtain ⟨-,-,-,hlt⟩ := hinv.block hk hb'
      have hold := old_size (hinv.guarded b hb') hlt
      dsimp only at hold
      have hnull : ¬ (res+16 = 0 ∨ b.ptr = 0) := by
        simp [Block.ptr,mallocAlign]
      have hmin : (if b.n < n then b.n else n) = min b.n n := by
        split_ifs <;> omega
      obtain ⟨h,l'',hfree,hinv',hkeeps',hsame',hcopy⟩ := copy_free hk hk' hinv hb (min_le_right b.n n)
      rw [if_neg hnull,hold,hmin,hfree]
      refine ⟨res+16,h,rfl,Or.inr ⟨res,l'',rfl,?_⟩⟩
      rw [hi.dropLive_eq hk hb]
      refine ⟨hinv',(hkeeps.mono fun c hc => List.mem_of_mem_erase hc).trans hkeeps',hsame.trans hsame',?_⟩
      intro c hc hcp j hj
      obtain rfl := hi.ptr_unique hk hb hc hcp.symm
      rw [hcopy j hj]
      apply hkeeps c hc
      apply user_area hk (hi.small c hc)
      exact user_has.mpr ⟨Nat.le_add_right _ _,Nat.add_lt_add_left (lt_of_lt_of_le hj (min_le_left _ _)) _⟩

end Realloc

/-- The bytes that a call asks for. -/
def Call.asks : Call → Option ℕ
  | .malloc n => some n
  | .realloc _ n => some n
  | .free _ => none
  | .store _ _ => none

def Call.IsStore : Call → Prop
  | .store _ _ => True
  | _ => False

/-- What a call with result `r` promises. -/
structure Contract (s : Client) (c : Call) (r : ℕ) (s' : Client) : Prop where
  aligned : 16 ∣ r
  inside : ∀ n, c.asks = some n → r ≠ 0 → s.heap.heapbase ≤ r ∧ r+n ≤ s.heap.heapbase+s.heap.maxheap
  handed : ∀ n, c.asks = some n → r ≠ 0 → ⟨r-mallocAlign,n⟩ ∈ s'.live
  apart : s'.live.Pairwise fun b c => ∀ x, b.user.Has x → ¬ c.user.Has x
  kept : ¬ c.IsStore → ∀ b ∈ s.live, b ∈ s'.live → ∀ x, b.user.Has x → s'.heap.byte x = s.heap.byte x
  copied : ∀ ptr n, c = .realloc ptr n → r ≠ 0 → ∀ b ∈ s.live, b.ptr = ptr → ∀ j < min b.n n,
    s'.heap.byte (r+j) = s.heap.byte (ptr+j)
  quiet : s'.heap.said = []

attribute [local grind =] Call.asks

section Calls
variable {k : ℕ} (hk : 4 ≤ k) (hk' : k ≤ 8) {s : Client} {l : List Span}
include hk hk'

omit hk' in
/-- The user bytes of live blocks are apart. -/
theorem Client.Inv.users_apart (hi : s.Inv k l) :
    s.live.Pairwise fun b c => ∀ x, b.user.Has x → ¬ c.user.Has x := by
  refine hi.distinct.imp_of_mem ?_
  intro b c hb hc hbc x hx hx'
  exact hbc x (user_area hk (hi.small b hb) hx) (user_area hk (hi.small c hc) hx')

omit hk' in
/-- The block that was handed out last. -/
theorem Client.Inv.newest {h : Heap} {res n : ℕ} {live : List Block} (hi : Client.Inv k ⟨h,⟨res,n⟩ :: live⟩ l) :
    16 ∣ res+16 ∧ h.heapbase ≤ res+16 ∧ res+16+n ≤ h.heapbase+h.maxheap := by
  have hmem : (⟨res,n⟩ : Block) ∈ (⟨res,n⟩ : Block) :: live := List.mem_cons_self
  obtain ⟨-,-,h₁,-⟩ := request_bounds hk (hi.small _ hmem)
  obtain ⟨h₂,h₃,h₄,-⟩ := hi.block hk hmem
  have h₅ := hi.bounds.size_le
  dsimp only at h₁ h₂ h₃ h₄ h₅
  omega

omit hk' in
/-- A call that gave nothing has changed nothing. -/
theorem contract_null (hi : s.Inv k l) (c : Call) : Contract s c 0 s :=
  ⟨dvd_zero 16,fun _ _ h => absurd rfl h,fun _ _ h => absurd rfl h,hi.users_apart hk,fun _ _ _ _ _ _ => rfl,
    fun _ _ _ h => absurd rfl h,hi.quiet⟩

theorem malloc_call (hi : s.Inv k l) {n : ℕ} (ha : s.Allowed (.malloc n)) (hf : s.Fits k (.malloc n)) :
    ∃ r s' l', s.exec k (.malloc n) = .ok (r,s') ∧ s'.Inv k l' ∧ SameHeap s.heap s'.heap ∧
      Contract s (.malloc n) r s' := by
  obtain ⟨r,h,hm,hcase⟩ := malloc_ok hk hk' hi ha hf
  have hexec : s.exec k (.malloc n) = .ok (r,⟨h,if r = 0 then s.live else ⟨r-mallocAlign,n⟩ :: s.live⟩) := by
    simp only [Client.exec,hm]
    rfl
  obtain ⟨rfl,rfl⟩ | ⟨res,l',rfl,hinv,hkeeps,hsame⟩ := hcase
  · exact ⟨0,_,l,hexec,hi,⟨rfl,rfl,rfl⟩,contract_null hk hi _⟩
  · rw [if_neg (Nat.succ_ne_zero _),show res+16-mallocAlign = res from Nat.add_sub_cancel res 16] at hexec
    obtain ⟨hd,hlo,hhi⟩ := hinv.newest hk
    rw [hsame.heapbase,hsame.maxheap] at hhi
    rw [hsame.heapbase] at hlo
    refine ⟨_,_,l',hexec,hinv,hsame,hd,?_,?_,hinv.users_apart hk,?_,nofun,hinv.quiet⟩
    · rintro m ⟨⟩ -
      exact ⟨hlo,hhi⟩
    · rintro m ⟨⟩ -
      exact List.mem_cons_self
    · intro _ b hb _ x hx
      exact hkeeps b hb x (user_area hk (hi.small b hb) hx)

theorem realloc_call (hi : s.Inv k l) {ptr n : ℕ} (ha : s.Allowed (.realloc ptr n))
    (hf : s.Fits k (.realloc ptr n)) : ∃ r s' l', s.exec k (.realloc ptr n) = .ok (r,s') ∧ s'.Inv k l' ∧
      SameHeap s.heap s'.heap ∧ Contract s (.realloc ptr n) r s' := by
  obtain ⟨r,h,hm,hcase⟩ := realloc_ok hk hk' hi ha.1 hf ha.2
  have hexec : s.exec k (.realloc ptr n) =
      .ok (r,⟨h,if r = 0 then s.live else ⟨r-mallocAlign,n⟩ :: dropLive s.live ptr⟩) := by
    simp only [Client.exec,hm]
    rfl
  obtain ⟨rfl,rfl⟩ | ⟨res,l',rfl,hinv,hkeeps,hsame,hcopy⟩ := hcase
  · exact ⟨0,_,l,hexec,hi,⟨rfl,rfl,rfl⟩,contract_null hk hi _⟩
  · rw [if_neg (Nat.succ_ne_zero _),show res+16-mallocAlign = res from Nat.add_sub_cancel res 16] at hexec
    obtain ⟨hd,hlo,hhi⟩ := hinv.newest hk
    rw [hsame.heapbase,hsame.maxheap] at hhi
    rw [hsame.heapbase] at hlo
    refine ⟨_,_,l',hexec,hinv,hsame,hd,?_,?_,hinv.users_apart hk,?_,?_,hinv.quiet⟩
    · rintro m ⟨⟩ -
      exact ⟨hlo,hhi⟩
    · rintro m ⟨⟩ -
      exact List.mem_cons_self
    · intro _ b hb hb' x hx
      by_cases hbd : b ∈ dropLive s.live ptr
      · exact hkeeps b hbd x (user_area hk (hi.small b hb) hx)
      · -- the new block lies where the old one was
        have hnew : b = ⟨res,n⟩ := (List.mem_cons.mp hb').resolve_right hbd
        obtain rfl | ⟨c,hc,rfl⟩ := ha.2
        · exact absurd (by rw [dropLive_zero]; exact hb) hbd
        · rw [hi.dropLive_eq hk hc] at hbd
          have hbc : b = c := by
            by_contra hne
            exact hbd ((List.mem_erase_of_ne hne).mpr hb)
          subst hbc
          subst hnew
          rw [user_has] at hx
          dsimp only at hx
          obtain ⟨j,rfl⟩ := Nat.exists_eq_add_of_le hx.1
          have := hcopy _ hb rfl j (by rw [min_self]; dsimp only; omega)
          exact this
    · rintro p m ⟨⟩ - b hb hp j hj
      exact hcopy b hb hp j hj

theorem free_call (hi : s.Inv k l) {ptr : ℕ} (ha : s.Allowed (.free ptr)) : ∃ r s' l',
    s.exec k (.free ptr) = .ok (r,s') ∧ s'.Inv k l' ∧ SameHeap s.heap s'.heap ∧ Contract s (.free ptr) r s' := by
  obtain rfl | ⟨b,hb,rfl⟩ := ha
  · have hexec : s.exec k (.free 0) = .ok (0,⟨s.heap,dropLive s.live 0⟩) := rfl
    rw [dropLive_zero] at hexec
    exact ⟨0,_,l,hexec,hi,⟨rfl,rfl,rfl⟩,contract_null hk hi _⟩
  · obtain ⟨h,l',hfree,hinv,hkeeps,hsame⟩ := free_ok hk hk' hi hb
    have hexec : s.exec k (.free b.ptr) = .ok (0,⟨h,dropLive s.live b.ptr⟩) := by
      simp only [Client.exec,hfree]
      rfl
    rw [hi.dropLive_eq hk hb] at hexec
    refine ⟨0,_,l',hexec,hinv,hsame,dvd_zero 16,nofun,nofun,hinv.users_apart hk,?_,nofun,hinv.quiet⟩
    intro _ c hc hc' x hx
    exact hkeeps c hc' x (user_area hk (hi.small c hc) hx)

theorem store_call (hi : s.Inv k l) {a : ℕ} {v : UInt8} (ha : s.Allowed (.store a v)) : ∃ r s' l',
    s.exec k (.store a v) = .ok (r,s') ∧ s'.Inv k l' ∧ SameHeap s.heap s'.heap ∧ Contract s (.store a v) r s' := by
  obtain ⟨b,hb,hba⟩ := ha
  have hw : ∀ x, ¬ b.user.Has x → Function.update s.heap.byte a v x = s.heap.byte x := by
    intro x hx
    apply Function.update_of_ne
    rintro rfl
    exact hx hba
  obtain ⟨hinv,-⟩ := hi.write hk hk' hb hw
  exact ⟨0,_,l,rfl,hinv,⟨rfl,rfl,rfl⟩,dvd_zero 16,nofun,nofun,hinv.users_apart hk,fun h => absurd trivial h,nofun,
    hinv.quiet⟩

theorem Client.Inv.exec (hi : s.Inv k l) (c : Call) (ha : s.Allowed c) (hf : s.Fits k c) : ∃ r s' l',
    s.exec k c = .ok (r,s') ∧ s'.Inv k l' ∧ SameHeap s.heap s'.heap ∧ Contract s c r s' := by
  cases c with
  | malloc n => exact malloc_call hk hk' hi ha hf
  | realloc ptr n => exact realloc_call hk hk' hi ha hf
  | free ptr => exact free_call hk hk' hi ha
  | store a v => exact store_call hk hk' hi ha

theorem Client.Inv.run (hi : s.Inv k l) (cs : List Call) (h : s.AllowedAll k cs) :
    ∃ s' l', s.run k cs = .ok s' ∧ s'.Inv k l' ∧ SameHeap s.heap s'.heap := by
  induction cs generalizing s l with
  | nil => exact ⟨s,l,rfl,hi,rfl,rfl,rfl⟩
  | cons c cs ih =>
    obtain ⟨r,s₁,l₁,hexec,hi₁,hsame,-⟩ := hi.exec hk hk' c h.1.1 h.1.2
    have hrest : s₁.AllowedAll k cs := by
      have := h.2
      rwa [hexec] at this
    obtain ⟨s',l',hrun,hi',hsame'⟩ := ih hi₁ hrest
    refine ⟨s',l',?_,hi',hsame.trans hsame'⟩
    simp only [Client.run,hexec]
    exact hrun

end Calls

section Setheap
variable {k : ℕ} {base top : ℕ} (hb : 0 < base) (hr : base+15 < 2^(8*k)) (ht : alignBytes (8*k) base ≤ top)
  (htop : top < 2^(8*k))
include hb hr ht htop

/-- A new heap, and where it lies. -/
theorem setheap_inv (byte : ℕ → UInt8) : Client.Inv k ⟨setheap k byte base top,[]⟩ [] ∧
    base ≤ (setheap k byte base top).heapbase ∧
    (setheap k byte base top).heapbase+(setheap k byte base top).maxheap = top := by
  have hd : 16 ∣ alignBytes (8*k) base := alignBytes_dvd _ _
  have hle : base ≤ alignBytes (8*k) base := by
    simp only [alignBytes,mallocAlign]
    rw [show base+(16-1) = base+15 from rfl,wrap_of_lt hr]
    omega
  have hmax : sub (8*k) top (alignBytes (8*k) base) = top-alignBytes (8*k) base := sub_of_le ht htop
  have hsum : alignBytes (8*k) base+sub (8*k) top (alignBytes (8*k) base) = top := by omega
  refine ⟨⟨?_,⟨?_,hd,dvd_zero 16,Nat.zero_le _,?_⟩,fun a ha => absurd ha List.not_mem_nil,fun a ha => absurd ha List.not_mem_nil,rfl⟩,hle,hsum⟩
  · exact (emptySession_inv (8*k) (node k byte)).regions_congr fun x hx => absurd hx (covers_nil x)
  · show 0 < alignBytes (8*k) base
    omega
  · show alignBytes (8*k) base+sub (8*k) top (alignBytes (8*k) base) < 2^(8*k)
    omega

/-- In every run of permitted calls each call returns and keeps its promises, as long as no request makes
the size of the heap wrap. -/
theorem malloc_run_contract (hk : 4 ≤ k) (hk' : k ≤ 8) (byte : ℕ → UInt8) (cs : List Call)
    (h : Client.AllowedAll k ⟨setheap k byte base top,[]⟩ cs) :
    ∃ s, Client.run k ⟨setheap k byte base top,[]⟩ cs = .ok s ∧
      base ≤ s.heap.heapbase ∧ s.heap.heapbase+s.heap.maxheap = top ∧
      ∀ c, s.Allowed c → s.Fits k c → ∃ r s', s.exec k c = .ok (r,s') ∧ Contract s c r s' := by
  obtain ⟨hi,hlo,hhi⟩ := setheap_inv hb hr ht htop byte
  obtain ⟨s,l,hrun,hinv,hsame⟩ := hi.run hk hk' cs h
  refine ⟨s,hrun,by rwa [hsame.heapbase],by rwa [hsame.heapbase,hsame.maxheap],?_⟩
  intro c ha hf
  obtain ⟨r,s',-,hexec,-,-,hc⟩ := hinv.exec hk hk' c ha hf
  exact ⟨r,s',hexec,hc⟩

end Setheap

theorem toOption_eq_some {ε α : Type} {x : Except ε α} {a : α} (h : x.toOption = some a) : x = .ok a := by
  cases x with
  | error e => cases h
  | ok b => exact congrArg _ (Option.some.inj h)

/-- Two blocks, one of which is written to, moved and freed. -/
theorem malloc_run_contract_moved : ∃ s, Client.run 8 ⟨setheap 8 (fun _ => 0) 4100 20000,[]⟩
      [.malloc 10,.store 4130 7,.realloc 4128 40,.free 0] = .ok s ∧
    4100 ≤ s.heap.heapbase ∧ s.heap.heapbase+s.heap.maxheap = 20000 ∧
    ∀ c, s.Allowed c → s.Fits 8 c → ∃ r s', s.exec 8 c = .ok (r,s') ∧ Contract s c r s' := by
  apply malloc_run_contract (by decide) (by decide) (by decide) (by decide) (by decide) (by decide)
  decide

/-- On a machine with 32-bit words and a heap of more than 3 GiB, the fourth block of a run ends behind
the heap. -/
theorem malloc_run_wraps : ∃ s, Client.run 4 ⟨setheap 4 (fun _ => 0) 0x1000000 0xf0000000,[]⟩
      [.malloc (2^30-17),.malloc (2^30-17),.malloc (2^30-17)] = .ok s ∧
    ∃ r s', s.exec 4 (.malloc (2^30-17)) = .ok (r,s') ∧ r ≠ 0 ∧ 0xf0000000 < r+(2^30-17) := by
  have h : (Client.run 4 ⟨setheap 4 (fun _ => 0) 0x1000000 0xf0000000,[]⟩
      [.malloc (2^30-17),.malloc (2^30-17),.malloc (2^30-17)]).toOption.bind (fun s =>
        (s.exec 4 (.malloc (2^30-17))).toOption.map Prod.fst) = some 0xc1000010 := by decide
  obtain ⟨s,hs,hr⟩ := Option.bind_eq_some_iff.1 h
  obtain ⟨⟨r,s'⟩,hexec,rfl⟩ := Option.map_eq_some_iff.1 hr
  exact ⟨s,toOption_eq_some hs,_,s',toOption_eq_some hexec,by decide,by decide⟩

end Blub.Stand
