import Blub.Stand.HammerBtree
import Mathlib.Data.List.Find
import Mathlib.Tactic

/-! Which element `hfind` returns: the first live one that no boundary hides, if there is one. Otherwise the search does
not end, or uses a boundary that was not set. -/
namespace Blub.Stand

section Order
variable {a b c : BaseElm}

theorem record_lt_iff : a.record < b.record ↔ a.localization < b.localization ∨ a.localization = b.localization ∧
    (a.objId < b.objId ∨ a.objId = b.objId ∧ (a.recType < b.recType ∨ a.recType = b.recType ∧ a.key < b.key)) := by
  simp only [BaseElm.record,Prod.Lex.toLex_lt_toLex]

theorem record_eq_iff : a.record = b.record ↔ a.localization = b.localization ∧ a.objId = b.objId ∧
    a.recType = b.recType ∧ a.key = b.key := by
  simp only [BaseElm.record,EmbeddingLike.apply_eq_iff_eq,Prod.mk.injEq]

theorem tid_eq_iff : a.tid = b.tid ↔ a.createTid = b.createTid := by
  unfold BaseElm.tid
  split_ifs with ha hb hb <;> simp [ha,hb]
  exact Ne.symm hb

theorem tid_lt_iff : a.tid < b.tid ↔ a.createTid ≠ 0 ∧ (b.createTid = 0 ∨ a.createTid < b.createTid) := by
  unfold BaseElm.tid
  split_ifs with ha hb hb <;> simp [ha,hb]

/-- A comparison is by the record, and then by `create_tid`. -/
theorem hammerBtreeCmp_cases :
    a.record < b.record ∧ hammerBtreeCmp a b ≤ -2 ∨ b.record < a.record ∧ 2 ≤ hammerBtreeCmp a b ∨
    a.record = b.record ∧ (a.tid < b.tid ∧ hammerBtreeCmp a b = -1 ∨ a.tid = b.tid ∧ hammerBtreeCmp a b = 0 ∨
      b.tid < a.tid ∧ hammerBtreeCmp a b = 1) := by
  rw [record_lt_iff,record_lt_iff,record_eq_iff,tid_lt_iff,tid_lt_iff,tid_eq_iff]
  unfold hammerBtreeCmp
  rcases lt_trichotomy a.localization b.localization with h₁ | h₁ | h₁
  · rw [if_pos h₁]
    omega
  · rw [if_neg h₁.not_lt,if_neg h₁.not_gt]
    rcases lt_trichotomy a.objId b.objId with h₂ | h₂ | h₂
    · rw [if_pos h₂]
      omega
    · rw [if_neg h₂.not_lt,if_neg h₂.not_gt]
      rcases lt_trichotomy a.recType b.recType with h₃ | h₃ | h₃
      · rw [if_pos h₃]
        omega
      · rw [if_neg h₃.not_lt,if_neg h₃.not_gt]
        rcases lt_trichotomy a.key b.key with h₄ | h₄ | h₄
        · rw [if_pos h₄]
          omega
        · rw [if_neg h₄.not_lt,if_neg h₄.not_gt]
          refine Or.inr (Or.inr ⟨⟨h₁,h₂,h₃,h₄⟩,?_⟩)
          split_ifs <;> omega
        · rw [if_neg h₄.not_gt,if_pos h₄]
          omega
      · rw [if_neg h₃.not_gt,if_pos h₃]
        omega
    · rw [if_neg h₂.not_gt,if_pos h₂]
      omega
  · rw [if_neg h₁.not_gt,if_pos h₁]
    omega

theorem hammerBtreeCmp_neg : hammerBtreeCmp a b < 0 ↔ a.pos < b.pos := by
  rw [BaseElm.pos,BaseElm.pos,Prod.Lex.toLex_lt_toLex]
  rcases @hammerBtreeCmp_cases a b with ⟨h,hc⟩ | ⟨h,hc⟩ | ⟨h,⟨ht,hc⟩ | ⟨ht,hc⟩ | ⟨ht,hc⟩⟩
  · exact iff_of_true (by omega) (Or.inl h)
  · refine iff_of_false (by omega) ?_
    rintro (h' | ⟨h',-⟩)
    · exact absurd h' h.asymm
    · exact h.ne' h'
  · exact iff_of_true (by omega) (Or.inr ⟨h,ht⟩)
  · exact iff_of_false (by omega) (by simp [h,ht])
  · exact iff_of_false (by omega) (by simp [h,ht.le])

theorem hammerBtreeCmp_nonpos : hammerBtreeCmp a b ≤ 0 ↔ a.pos ≤ b.pos := by
  rw [← not_lt,not_iff_comm,BaseElm.pos,BaseElm.pos,not_le,Prod.Lex.toLex_lt_toLex]
  rcases @hammerBtreeCmp_cases a b with ⟨h,hc⟩ | ⟨h,hc⟩ | ⟨h,⟨ht,hc⟩ | ⟨ht,hc⟩ | ⟨ht,hc⟩⟩
  · exact iff_of_false (by simp [h.asymm,h.ne']) (by omega)
  · exact iff_of_true (Or.inl h) (by omega)
  · exact iff_of_false (by simp [h,ht.le]) (by omega)
  · exact iff_of_false (by simp [h,ht]) (by omega)
  · exact iff_of_true (Or.inr ⟨h.symm,ht⟩) (by omega)

theorem hammerBtreeCmp_far : 1 < hammerBtreeCmp a b ↔ b.record < a.record := by
  rcases @hammerBtreeCmp_cases a b with ⟨h,hc⟩ | ⟨h,hc⟩ | ⟨h,⟨ht,hc⟩ | ⟨ht,hc⟩ | ⟨ht,hc⟩⟩
  · exact iff_of_false (by omega) h.asymm
  · exact iff_of_true (by omega) h
  all_goals exact iff_of_false (by omega) (by rw [h]; exact lt_irrefl _)

theorem hammerBtreeCmp_near : hammerBtreeCmp a b < -1 ↔ a.record < b.record := by
  rcases @hammerBtreeCmp_cases a b with ⟨h,hc⟩ | ⟨h,hc⟩ | ⟨h,⟨ht,hc⟩ | ⟨ht,hc⟩ | ⟨ht,hc⟩⟩
  · exact iff_of_true (by omega) h
  · exact iff_of_false (by omega) h.asymm
  all_goals exact iff_of_false (by omega) (by rw [h]; exact lt_irrefl _)

theorem record_le_of_pos (h : a.pos ≤ b.pos) : a.record ≤ b.record := by
  rw [BaseElm.pos,BaseElm.pos,Prod.Lex.toLex_le_toLex] at h
  rcases h with h | ⟨h,-⟩
  · exact h.le
  · exact h.le

end Order

section Scan
variable {node : BtreeNode} {search : BaseElm}

/-- The range that is halved begins at the first element, or at one that is not behind the key. -/
theorem searchNodeLoop_spec {m : ℕ} (k b s : ℕ) (hb : b = 0 ∨ b < m ∧ (node.elms b).base.pos ≤ search.pos)
    (hs : s ≤ m) :
    searchNodeLoop search node k b s = 0 ∨ searchNodeLoop search node k b s < m ∧
      (node.elms (searchNodeLoop search node k b s)).base.pos ≤ search.pos := by
  induction k generalizing b s with
  | zero => exact hb
  | succ k ih =>
    rw [searchNodeLoop]
    by_cases hfew : 4 < s-b
    · rw [if_pos hfew]
      dsimp only
      by_cases hcmp : hammerBtreeCmp search (node.elms (b+(s-b)/2)).base ≤ 1
      · rw [if_pos hcmp]
        exact ih b _ hb (by omega)
      · rw [if_neg hcmp]
        have hlt := hammerBtreeCmp_far.mp (not_le.mp hcmp)
        exact ih _ s (Or.inr ⟨by omega,(Prod.Lex.toLex_lt_toLex.mpr (Or.inl hlt)).le⟩) hs
    · rw [if_neg hfew]
      exact hb

theorem scanNode_spec (k n : ℕ) : n ≤ scanNode search node k n ∧ scanNode search node k n ≤ n+k ∧
    (∀ i, n ≤ i → i < scanNode search node k n → (node.elms i).base.pos ≤ search.pos) ∧
      (scanNode search node k n < n+k → search.pos < (node.elms (scanNode search node k n)).base.pos) := by
  induction k generalizing n with
  | zero => exact ⟨le_rfl,le_rfl,fun i h₁ h₂ => absurd h₂ (by rw [scanNode]; omega),fun h => absurd h (lt_irrefl _)⟩
  | succ k ih =>
    rw [scanNode]
    by_cases hcmp : hammerBtreeCmp search (node.elms n).base < 0
    · rw [if_pos hcmp]
      exact ⟨le_rfl,by omega,fun i h₁ h₂ => absurd h₂ (by omega),fun _ => hammerBtreeCmp_neg.mp hcmp⟩
    · rw [if_neg hcmp]
      obtain ⟨h₁,h₂,h₃,h₄⟩ := ih (n+1)
      refine ⟨by omega,by omega,fun i hi hlt => ?_,fun h => h₄ (by omega)⟩
      obtain rfl | hn := Nat.eq_or_lt_of_le hi
      · exact not_lt.mp (mt hammerBtreeCmp_neg.mpr hcmp)
      · exact h₃ i hn hlt

/-- The scan of a node stops at the first element behind the key. -/
theorem findPlace_spec (hs : node.Sorted node.covered) : ∃ n ≤ node.covered, findPlace search node = n-1 ∧
    (∀ i < n, (node.elms i).base.pos ≤ search.pos) ∧ (n < node.covered → search.pos < (node.elms n).base.pos) := by
  have hcount : node.count ≤ node.covered := by
    unfold BtreeNode.covered
    omega
  have hb := @searchNodeLoop_spec node search node.count node.count 0 node.count (Or.inl rfl) le_rfl
  unfold findPlace hammerBtreeSearchNode
  dsimp only
  generalize searchNodeLoop search node node.count 0 node.count = b at *
  obtain ⟨h₁,h₂,h₃,h₄⟩ := @scanNode_spec node search (node.covered-b) b
  refine ⟨_,by omega,rfl,fun i hi => ?_,fun h => h₄ (by omega)⟩
  by_cases hlow : b ≤ i
  · exact h₃ i hlow hi
  · obtain hz | ⟨hbm,hpos⟩ := hb
    · omega
    · exact (hs i b (by omega) (by omega)).trans hpos

theorem searchNodeLoop_succ (k b s : ℕ) : searchNodeLoop search node (k+1) b s =
    if 4 < s-b then
      if hammerBtreeCmp search (node.elms (b+(s-b)/2)).base ≤ 1 then searchNodeLoop search node k b (b+(s-b)/2)
      else searchNodeLoop search node k (b+(s-b)/2) s
    else b := rfl

/-- The range is halved until it is short: more turns than there are elements change nothing. -/
theorem searchNodeLoop_enough {k b s : ℕ} (hk : s-b ≤ k) :
    searchNodeLoop search node (k+1) b s = searchNodeLoop search node k b s := by
  induction k generalizing b s with
  | zero => rw [searchNodeLoop_succ,if_neg (by omega),searchNodeLoop]
  | succ k ih =>
    rw [searchNodeLoop_succ (k+1) b s,searchNodeLoop_succ k b s]
    by_cases hfew : 4 < s-b
    · rw [if_pos hfew,if_pos hfew,ih (by omega),ih (by omega)]
    · rw [if_neg hfew,if_neg hfew]

theorem searchNodeLoop_ends (extra : ℕ) :
    searchNodeLoop search node (node.count+extra) 0 node.count = hammerBtreeSearchNode search node := by
  induction extra with
  | zero => rfl
  | succ extra ih => rw [← Nat.add_assoc,searchNodeLoop_enough (by omega),ih]

/-- Elements of which none is behind the next one are in the order of the tree. -/
theorem sorted_of_adjacent {m : ℕ} (h : ∀ i, i+1 < m → hammerBtreeCmp (node.elms i).base (node.elms (i+1)).base ≤ 0) :
    node.Sorted m := by
  intro i j hij hj
  induction hij with
  | refl => exact le_rfl
  | step hle ih => exact (ih (by omega)).trans (hammerBtreeCmp_nonpos.mp (h _ hj))

/-- Two indices up to which no element is behind the key, and that end there or at an element behind it, are one. -/
theorem first_behind_unique {m r r' : ℕ} (hr : r ≤ m) (hr' : r' ≤ m)
    (hlow : ∀ i < r, (node.elms i).base.pos ≤ search.pos) (hlow' : ∀ i < r', (node.elms i).base.pos ≤ search.pos)
    (hend : r < m → search.pos < (node.elms r).base.pos) (hend' : r' < m → search.pos < (node.elms r').base.pos) :
    r = r' := by
  rcases lt_trichotomy r r' with h | h | h
  · exact absurd (hlow' r h) (hend (by omega)).not_ge
  · exact h
  · exact absurd (hlow r' h) (hend' (by omega)).not_ge

/-- In a node whose elements are in order, the scan from the index that the halving gives stops where the scan from the
first element stops. -/
theorem scanNode_searchNode (node : BtreeNode) (search : BaseElm)
    (hs : ∀ i, i+1 < node.count → hammerBtreeCmp (node.elms i).base (node.elms (i+1)).base ≤ 0) :
    (∀ extra, searchNodeLoop search node (node.count+extra) 0 node.count = hammerBtreeSearchNode search node) ∧
      hammerBtreeSearchNode search node ≤ node.covered ∧
      scanNode search node (node.covered-hammerBtreeSearchNode search node) (hammerBtreeSearchNode search node) =
        scanNode search node node.covered 0 := by
  refine ⟨searchNodeLoop_ends,?_⟩
  have hcount : node.count ≤ node.covered := Nat.le_add_right _ _
  have hb := @searchNodeLoop_spec node search node.count node.count 0 node.count (Or.inl rfl) le_rfl
  rw [← hammerBtreeSearchNode] at hb
  generalize hammerBtreeSearchNode search node = b at *
  have hle : b ≤ node.covered := by omega
  obtain ⟨-,h₂,h₃,h₄⟩ := @scanNode_spec node search (node.covered-b) b
  obtain ⟨-,h₂',h₃',h₄'⟩ := @scanNode_spec node search node.covered 0
  refine ⟨hle,first_behind_unique (m := node.covered) (by omega) (by omega) (fun i hi => ?_)
    (fun i hi => h₃' i i.zero_le hi) (fun h => h₄ (by omega)) (fun h => h₄' (by omega))⟩
  -- an element before the start is not behind the one at the start
  by_cases hlow : b ≤ i
  · exact h₃ i hlow hi
  · obtain hz | ⟨hbm,hpos⟩ := hb
    · omega
    · exact (sorted_of_adjacent hs i b (by omega) hbm).trans hpos

/-- Four elements of a record and three of the next one, each with its own `create_tid`. -/
def runNode : BtreeNode := ⟨false,7,fun i => ⟨⟨1,5,1,if i < 4 then 0 else 1,i+1,0⟩,i⟩⟩

theorem scanNode_searchNode_run : hammerBtreeSearchNode ⟨1,5,1,1,6,0⟩ runNode = 3 ∧
    scanNode ⟨1,5,1,1,6,0⟩ runNode 4 3 = 6 ∧ scanNode ⟨1,5,1,1,6,0⟩ runNode 7 0 = 6 := by
  have hs : ∀ i < 6, hammerBtreeCmp (runNode.elms i).base (runNode.elms (i+1)).base ≤ 0 := by decide
  have h := scanNode_searchNode runNode ⟨1,5,1,1,6,0⟩ fun i hi => hs i (Nat.lt_of_succ_lt_succ hi)
  have hend : scanNode ⟨1,5,1,1,6,0⟩ runNode 7 0 = 6 := by decide
  exact ⟨by decide,h.2.2.trans hend,hend⟩

end Scan

section Turns
variable {img : ℕ → BtreeNode} {root : ℕ} {key : BaseElm} {fin : Option BaseElm}

/-- A number of turns of `hfind`, none of them the last. -/
inductive Turns (img : ℕ → BtreeNode) (root : ℕ) (key : BaseElm) (fin : Option BaseElm) : ℕ → Hsearch → Hsearch → Prop
  | refl (s : Hsearch) : Turns img root key fin 0 s s
  | step {k : ℕ} {s s' s'' : Hsearch} (h : hfindStep img root key fin s = .inr s')
      (hs : Turns img root key fin k s' s'') : Turns img root key fin (k+1) s s''

theorem Turns.loop {k : ℕ} {s s' : Hsearch} (h : Turns img root key fin k s s') (fuel : ℕ) :
    hfindLoop img root key fin (fuel+k) s = hfindLoop img root key fin fuel s' := by
  induction h with
  | refl => rfl
  | step h _ ih =>
    rw [← Nat.add_assoc,hfindLoop,h]
    exact ih

theorem Turns.short {k : ℕ} {s s' : Hsearch} (h : Turns img root key fin k s s') {fuel : ℕ} (hfuel : fuel ≤ k) :
    hfindLoop img root key fin fuel s = none := by
  induction h generalizing fuel with
  | refl =>
    obtain rfl := Nat.le_zero.mp hfuel
    rfl
  | step h _ ih =>
    cases fuel with
    | zero => rfl
    | succ fuel =>
      rw [hfindLoop,h]
      exact ih (by omega)

theorem flatMap_range_split {α : Type*} (f : ℕ → List α) {j c : ℕ} (h : j < c) :
    ∃ rest, (List.range c).flatMap f = (List.range j).flatMap f ++ f j ++ rest ∧
      ∀ x ∈ rest, ∃ i, j < i ∧ i < c ∧ x ∈ f i := by
  induction c with
  | zero => omega
  | succ c ih =>
    rw [List.range_succ,List.flatMap_append,List.flatMap_singleton]
    obtain rfl | hlt := Nat.eq_or_lt_of_le (Nat.lt_succ_iff.mp h)
    · exact ⟨[],by rw [List.append_nil],by simp⟩
    · obtain ⟨rest,heq,hrest⟩ := ih hlt
      refine ⟨rest ++ f c,by rw [heq,List.append_assoc],fun x hx => ?_⟩
      rcases List.mem_append.mp hx with hx | hx
      · obtain ⟨i,h₁,h₂,h₃⟩ := hrest x hx
        exact ⟨i,h₁,by omega,h₃⟩
      · exact ⟨c,hlt,by omega,hx⟩

/-- Where the way down a subtree ends: at the elements `mid` of a leaf, between those before and those behind. A boundary
is at the key or before it for all of the first, and the remembered one is behind the key and before all of the last. -/
structure Descent (img : ℕ → BtreeNode) (h off : ℕ) (search : BaseElm) (bt bt' : Option BaseElm)
    (pre mid post : List BtreeElm) : Prop where
  split : leaves img h off = pre ++ mid ++ post
  before : ∀ x ∈ pre, ∃ b ∈ bounds img h off, x.base.pos < b.pos ∧ b.pos ≤ search.pos
  clear : ∀ x ∈ mid, ∀ b ∈ bounds img h off, ¬(x.base.pos < b.pos ∧ b.pos ≤ search.pos)
  after : bt' = bt ∧ post = [] ∨ ∃ b ∈ bounds img h off, bt' = some b ∧ search.pos < b.pos ∧
    (∀ x ∈ mid, x.base.pos < b.pos) ∧ ∀ x ∈ post, b.pos ≤ x.base.pos

/-- The turns at the end of the way down: a leaf is at hand, or the search goes back to the root. -/
def Arrives (img : ℕ → BtreeNode) (root : ℕ) (key : BaseElm) (fin : Option BaseElm) (s : Hsearch)
    (mid : List BtreeElm) : Prop :=
  LeafOk (img s.nodeoff) ∧ mid = (img s.nodeoff).list ∨
    mid = [] ∧ ∃ e, hfindStep img root key fin s = backtrackStep root {s with e := e}

theorem leafOk_descent {h off : ℕ} (hl : LeafOk (img off)) (search : BaseElm) (bt : Option BaseElm) :
    Descent img h off search bt bt [] (img off).list [] := by
  have hleaves : leaves img h off = (img off).list ∧ bounds img h off = [] := by
    cases h with
    | zero => exact ⟨rfl,rfl⟩
    | succ h =>
      rw [leaves,bounds,hl.leaf]
      exact ⟨rfl,rfl⟩
  refine ⟨by rw [hleaves.1]; simp,by simp,?_,Or.inl ⟨rfl,rfl⟩⟩
  rw [hleaves.2]
  simp

theorem mem_bounds_iff {h off : ℕ} (hint : (img off).internal = true) {b : BaseElm} : b ∈ bounds img (h+1) off ↔
    (∃ i ≤ (img off).count, ((img off).elms i).base = b) ∨
      ∃ i < (img off).count, b ∈ bounds img h ((img off).elms i).offset := by
  rw [bounds,if_pos hint,List.mem_append,List.mem_map,List.mem_flatMap]
  simp only [List.mem_range,Nat.lt_succ_iff]

/-- The way down goes on in the child that the key falls in. -/
theorem Descent.child {h off j : ℕ} {search : BaseElm} {bt' : Option BaseElm} {pre mid post : List BtreeElm}
    (hd : Descent img h ((img off).elms j).offset search (some ((img off).elms (j+1)).base) bt' pre mid post)
    (hint : (img off).internal = true) (hsorted : (img off).Sorted ((img off).count+1))
    (hchild : ∀ j < (img off).count, ChildOk img h (img off) j) (hj : j < (img off).count)
    (hleft : 0 < j → ((img off).elms j).base.pos ≤ search.pos) (hright : search.pos < ((img off).elms (j+1)).base.pos)
    (bt : Option BaseElm) : ∃ pre' post', Descent img (h+1) off search bt bt' pre' mid post' := by
  obtain ⟨rest,hsplit,hrest⟩ := flatMap_range_split (fun j => leaves img h ((img off).elms j).offset) hj
  have hmid : ∀ x ∈ mid, x ∈ leaves img h ((img off).elms j).offset := by
    intro x hx
    rw [hd.split]
    simp [hx]
  -- the elements of the children behind the one that is taken
  have hfar : ∀ x ∈ rest, ((img off).elms (j+1)).base.pos ≤ x.base.pos := by
    intro x hx
    obtain ⟨i,hlt,hi,hx⟩ := hrest x hx
    exact (hsorted _ _ (by omega) (by omega)).trans ((hchild i hi).leaves x hx).1
  refine ⟨(List.range j).flatMap (fun j => leaves img h ((img off).elms j).offset) ++ pre,post ++ rest,
    ⟨?_,fun x hx => ?_,fun x hx b hb => ?_,?_⟩⟩
  · rw [leaves,if_pos hint,hsplit,hd.split]
    simp only [List.append_assoc]
  · rcases List.mem_append.mp hx with hx | hx
    · -- an element of a child before the one that is taken
      obtain ⟨i,hi,hx⟩ := List.mem_flatMap.mp hx
      rw [List.mem_range] at hi
      refine ⟨_,(mem_bounds_iff hint).mpr (Or.inl ⟨j,hj.le,rfl⟩),?_,hleft (by omega)⟩
      exact ((hchild i (by omega)).leaves x hx).2.trans_le (hsorted _ _ (by omega) (by omega))
    · obtain ⟨b,hb,hbx⟩ := hd.before x hx
      exact ⟨b,(mem_bounds_iff hint).mpr (Or.inr ⟨j,hj,hb⟩),hbx⟩
  · rintro ⟨hxb,hbs⟩
    have hx' := (hchild j hj).leaves x (hmid x hx)
    -- a boundary is at the left one of the child or before it, or at the right one or behind it
    have hout : ¬(b.pos ≤ ((img off).elms j).base.pos ∨ ((img off).elms (j+1)).base.pos ≤ b.pos) := by
      rintro (hle | hle)
      · exact absurd (hxb.trans_le hle) hx'.1.not_gt
      · exact absurd (hright.trans_le hle) hbs.not_gt
    rcases (mem_bounds_iff hint).mp hb with ⟨i,hi,rfl⟩ | ⟨i,hi,hb⟩
    · apply hout
      rcases Nat.lt_or_ge j i with h' | h'
      · exact Or.inr (hsorted _ _ h' (by omega))
      · exact Or.inl (hsorted _ _ h' (by omega))
    · have hbi := (hchild i hi).bounds b hb
      rcases lt_trichotomy i j with h' | rfl | h'
      · exact hout (Or.inl (hbi.2.trans (hsorted _ _ h' (by omega))))
      · exact hd.clear x hx b hb ⟨hxb,hbs⟩
      · exact hout (Or.inr ((hsorted _ _ h' (by omega)).trans hbi.1))
  · refine Or.inr ?_
    rcases hd.after with ⟨rfl,rfl⟩ | ⟨b,hb,rfl,hsb,hmb,hpost⟩
    · exact ⟨_,(mem_bounds_iff hint).mpr (Or.inl ⟨j+1,hj,rfl⟩),rfl,hright,
        fun x hx => ((hchild j hj).leaves x (hmid x hx)).2,by simpa using hfar⟩
    · refine ⟨b,(mem_bounds_iff hint).mpr (Or.inr ⟨j,hj,hb⟩),rfl,hsb,hmb,fun x hx => ?_⟩
      rcases List.mem_append.mp hx with hx | hx
      · exact hpost x hx
      · exact ((hchild j hj).bounds b hb).2.trans (hfar x hx)

/-- The way down, from a node to a leaf or to a right boundary. -/
theorem descend (h : ℕ) {off : ℕ} (hok : SubtreeOk img h off) (search : BaseElm) (bt : Option BaseElm)
    (e : Option ElmPtr) :
    ∃ k s' pre mid post, Turns img root key fin k ⟨search,bt,off,e⟩ s' ∧ s'.search = search ∧
      Descent img h off search bt s'.backtrack pre mid post ∧ Arrives img root key fin s' mid := by
  induction h generalizing off bt e with
  | zero => exact ⟨0,_,[],_,[],.refl _,rfl,leafOk_descent hok search bt,Or.inl ⟨hok,rfl⟩⟩
  | succ h ih =>
    obtain hl | ⟨hint,hsorted,hchild⟩ := hok
    · exact ⟨0,_,[],_,[],.refl _,rfl,leafOk_descent hl search bt,Or.inl ⟨hl,rfl⟩⟩
    have hcov : (img off).covered = (img off).count+1 := by
      rw [BtreeNode.covered,hint]
      rfl
    obtain ⟨n,hn,hplace,hlow,hhigh⟩ := @findPlace_spec (img off) search (hcov ▸ hsorted)
    have hstep : hfindStep img root key fin ⟨search,bt,off,e⟩ = if n-1 = (img off).count then
        backtrackStep root ⟨search,bt,off,some ⟨img off,n-1⟩⟩
      else .inr ⟨search,some ((img off).elms (n-1+1)).base,((img off).elms (n-1)).offset,some ⟨img off,n-1⟩⟩ := by
      rw [hfindStep]
      dsimp only
      have hpos : 0 < (img off).covered := by omega
      rw [hplace,if_pos hint,if_pos hpos]
    by_cases hend : n-1 = (img off).count
    · -- the key is at the right boundary or behind it
      rw [if_pos hend] at hstep
      refine ⟨0,_,leaves img (h+1) off,[],[],.refl _,rfl,⟨by simp,fun x hx => ?_,by simp,Or.inl ⟨rfl,rfl⟩⟩,
        Or.inr ⟨rfl,_,hstep⟩⟩
      rw [leaves,if_pos hint,List.mem_flatMap] at hx
      obtain ⟨i,hi,hx⟩ := hx
      rw [List.mem_range] at hi
      refine ⟨_,(mem_bounds_iff hint).mpr (Or.inl ⟨(img off).count,le_rfl,rfl⟩),?_,hlow _ (by omega)⟩
      exact ((hchild i hi).1.leaves x hx).2.trans_le (hsorted _ _ (by omega) (by omega))
    rw [if_neg hend] at hstep
    obtain ⟨j,hj⟩ : ∃ j, j = n-1 := ⟨_,rfl⟩
    rw [← hj] at hstep hend
    have hjc : j < (img off).count := by omega
    obtain ⟨hcj,hokj⟩ := hchild j hjc
    obtain ⟨k,s',pre,mid,post,hturns,hsearch,hd,harr⟩ := ih hokj (some ((img off).elms (j+1)).base) (some ⟨img off,j⟩)
    have hright : search.pos < ((img off).elms (j+1)).base.pos :=
      (hhigh (by omega)).trans_le (hsorted _ _ (by omega) (by omega))
    obtain ⟨pre',post',hd'⟩ := hd.child hint hsorted (fun i hi => (hchild i hi).1) hjc (fun h₀ => hlow j (by omega))
      hright bt
    exact ⟨k+1,s',pre',mid,post',.step hstep hturns,hsearch,hd',harr⟩

theorem skipDeleted_spec (k : ℕ) (node : BtreeNode) (i : ℕ) :
    ∃ i', skipDeleted k ⟨node,i⟩ = ⟨node,i'⟩ ∧ i ≤ i' ∧ i' ≤ i+k ∧
    (∀ a, i ≤ a → a < i' → (node.elms a).base.deleteTid ≠ 0) ∧ (i' < i+k → (node.elms i').base.deleteTid = 0) := by
  induction k generalizing i with
  | zero => exact ⟨i,rfl,le_rfl,le_rfl,fun a h₁ h₂ => absurd h₂ (by omega),fun h => absurd h (lt_irrefl _)⟩
  | succ k ih =>
    rw [skipDeleted]
    by_cases hdel : (node.elms i).base.deleteTid ≠ 0
    · obtain ⟨i',hrun,h₁,h₂,h₃,h₄⟩ := ih (i+1)
      rw [ElmPtr.elm,if_pos hdel]
      refine ⟨i',hrun,by omega,by omega,fun a ha hlt => ?_,fun h => h₄ (by omega)⟩
      obtain rfl | hia := Nat.eq_or_lt_of_le ha
      · exact hdel
      · exact h₃ a hia hlt
    · rw [ElmPtr.elm,if_neg hdel]
      exact ⟨i,rfl,le_rfl,by omega,fun a h₁ h₂ => absurd h₂ (by omega),fun _ => not_not.mp hdel⟩

theorem find_list {node : BtreeNode} {i : ℕ} {p : BtreeElm → Prop} [DecidablePred p] (hi : i < node.count)
    (hp : p (node.elms i)) (hlow : ∀ a < i, ¬p (node.elms a)) : node.list.find? p = some (node.elms i) := by
  rw [List.find?_eq_some_iff_getElem]
  refine ⟨decide_eq_true hp,i,by simpa [BtreeNode.list] using hi,by simp [BtreeNode.list],fun a ha => ?_⟩
  simpa [BtreeNode.list] using hlow a ha

/-- A search that is at the key, or at a boundary behind it. -/
def Seen (key : BaseElm) (bs : List BaseElm) (search : BaseElm) : Prop :=
  search.pos = key.pos ∨ search ∈ bs ∧ key.pos < search.pos

theorem Seen.le {key : BaseElm} {bs : List BaseElm} {search : BaseElm} (h : Seen key bs search) : key.pos ≤ search.pos := by
  rcases h with h | ⟨-,h⟩
  · exact h.ge
  · exact h.le

/-- From a search on, a boundary behind it is another one. -/
theorem Seen.next {key : BaseElm} {bs : List BaseElm} {search b : BaseElm} (h : Seen key bs search) (hb : b ∈ bs)
    (hlt : search.pos < b.pos) : Seen key bs b := Or.inr ⟨hb,h.le.trans_lt hlt⟩

/-- The element at which a leaf is entered: none before it fits. -/
theorem enter_leaf {node : BtreeNode} {bs : List BaseElm} {search : BaseElm} (hl : LeafOk node)
    (hseen : Seen key bs search) (hclear : ∀ x ∈ node.list, ∀ b ∈ bs, ¬(x.base.pos < b.pos ∧ b.pos ≤ search.pos))
    (hlast : node.list.Pairwise fun x y => x.base.record = y.base.record → x.base.deleteTid ≠ 0) :
    ∃ q, q = findPlace search node+(if hammerBtreeCmp key (node.elms (findPlace search node)).base > 1 then 1 else 0) ∧
      q ≤ node.count ∧ (∀ a < q, ¬Fits key (node.elms a)) ∧
        ∀ a, q ≤ a → a < node.count → key.record ≤ (node.elms a).base.record := by
  have hcov : node.covered = node.count := by
    rw [BtreeNode.covered,hl.leaf]
    rfl
  obtain ⟨n,hn,hplace,hlow,hhigh⟩ := @findPlace_spec node search (hcov ▸ hl.sorted)
  rw [hcov] at hn hhigh
  have hpair : ∀ a b, a < b → b < node.count → (node.elms a).base.record = (node.elms b).base.record →
      (node.elms a).base.deleteTid ≠ 0 := by
    intro a b hab hb
    rw [BtreeNode.list,List.pairwise_map,List.pairwise_iff_getElem] at hlast
    have h := hlast a b (by simp; omega) (by simpa using hb) hab
    simpa only [List.getElem_range] using h
  -- behind the key
  have hbehind : ∀ a, n ≤ a → a < node.count → key.record ≤ (node.elms a).base.record := fun a ha hac =>
    record_le_of_pos (hseen.le.trans ((hhigh (by omega)).le.trans (hl.sorted n a ha hac)))
  -- of two elements that are not behind the key, the first is not the last for its record
  have hbefore : ∀ a, a+1 < n → ¬Fits key (node.elms a) := by
    rintro a ha ⟨hlive,hrec⟩
    have hle := hl.sorted a (a+1) (by omega) (by omega)
    refine hpair a (a+1) (by omega) (by omega) (le_antisymm (record_le_of_pos hle) ?_) hlive
    rcases hseen with h | ⟨hmem,-⟩
    · have hnext := hlow (a+1) ha
      rw [h] at hnext
      exact (record_le_of_pos hnext).trans hrec
    · have hin : node.elms a ∈ node.list := List.mem_map.mpr ⟨a,List.mem_range.mpr (by omega),rfl⟩
      have hnot : ¬(node.elms a).base.pos < search.pos := fun h => hclear _ hin search hmem ⟨h,le_rfl⟩
      exact record_le_of_pos ((hlow (a+1) ha).trans (not_lt.mp hnot))
  have hpos := hl.count_pos
  rw [hplace]
  refine ⟨_,rfl,?_⟩
  by_cases hcmp : hammerBtreeCmp key (node.elms (n-1)).base > 1
  · have hlt := hammerBtreeCmp_far.mp hcmp
    have hn0 : n ≠ 0 := by
      rintro rfl
      exact absurd hlt (hbehind 0 le_rfl hpos).not_gt
    rw [if_pos hcmp,Nat.sub_add_cancel (by omega)]
    refine ⟨hn,fun a ha => ?_,hbehind⟩
    obtain rfl | hlast := Nat.eq_or_lt_of_le (Nat.le_sub_one_of_lt ha)
    · exact fun h => absurd hlt h.2.not_gt
    · exact hbefore a (by omega)
  · rw [if_neg hcmp,Nat.add_zero]
    refine ⟨by omega,fun a ha => hbefore a (by omega),fun a ha hac => ?_⟩
    obtain rfl | hlt := Nat.eq_or_lt_of_le ha
    · exact not_lt.mp (mt hammerBtreeCmp_far.mpr hcmp)
    · exact hbehind a (by omega) hac

/-- What is done at a leaf: the first element that fits is found, or there is none and the search goes back. -/
theorem leaf_step {bs : List BaseElm} {s : Hsearch} (hl : LeafOk (img s.nodeoff)) (hseen : Seen key bs s.search)
    (hclear : ∀ x ∈ (img s.nodeoff).list, ∀ b ∈ bs, ¬(x.base.pos < b.pos ∧ b.pos ≤ s.search.pos))
    (hlast : (img s.nodeoff).list.Pairwise fun x y => x.base.record = y.base.record → x.base.deleteTid ≠ 0) :
    ((∀ x ∈ (img s.nodeoff).list, ¬Fits key x) ∧
      ∃ e, hfindStep img root key fin s = backtrackStep root {s with e := e}) ∨
    ∃ e : ElmPtr, (img s.nodeoff).list.find? (Fits key) = some e.elm ∧
      hfindStep img root key fin s = .inl (endStep fin e) := by
  obtain ⟨q,hq,hqc,hbefore,hfrom⟩ := enter_leaf hl hseen hclear hlast
  obtain ⟨i,hskip,hi₁,hi₂,hdel,hlive⟩ := skipDeleted_spec ((img s.nodeoff).count-q) (img s.nodeoff) q
  have hstep : hfindStep img root key fin s = if i = (img s.nodeoff).count then
      backtrackStep root {s with e := some ⟨img s.nodeoff,i⟩}
    else .inl (endStep fin ⟨img s.nodeoff,i⟩) := by
    have hpos : 0 < (img s.nodeoff).covered := by
      have := hl.count_pos
      unfold BtreeNode.covered
      omega
    have hidx : findPlace s.search (img s.nodeoff)+(i-findPlace s.search (img s.nodeoff)) = i := by
      have hle : findPlace s.search (img s.nodeoff) ≤ q := by
        rw [hq]
        omega
      omega
    rw [hfindStep]
    dsimp only
    rw [if_pos hpos,hl.leaf,if_neg (by simp)]
    have hq' : q = findPlace s.search (img s.nodeoff)+
        (if hammerBtreeCmp key (ElmPtr.elm ⟨img s.nodeoff,findPlace s.search (img s.nodeoff)⟩).base > 1 then 1
        else 0) := hq
    dsimp only
    rw [← hq',hskip]
    dsimp only
    rw [hidx]
  have hlow : ∀ a < i, ¬Fits key ((img s.nodeoff).elms a) := by
    intro a ha
    by_cases haq : a < q
    · exact hbefore a haq
    · exact fun h => hdel a (by omega) ha h.1
  by_cases hend : i = (img s.nodeoff).count
  · rw [if_pos hend] at hstep
    refine Or.inl ⟨fun x hx => ?_,_,hstep⟩
    obtain ⟨a,ha,rfl⟩ := List.mem_map.mp hx
    rw [List.mem_range] at ha
    exact hlow a (by omega)
  · rw [if_neg hend] at hstep
    have hfind : (img s.nodeoff).list.find? (Fits key) = some ((img s.nodeoff).elms i) :=
      find_list (by omega) ⟨hlive (by omega),hfrom i hi₁ (by omega)⟩ hlow
    exact Or.inr ⟨⟨img s.nodeoff,i⟩,hfind,hstep⟩

end Turns

section Rounds
variable (t : HammerTree) (key : BaseElm) (fin : Option BaseElm)

/-- An element that the search can find. -/
def HammerTree.Cand (x : BtreeElm) : Prop := Fits key x ∧ ¬t.Hidden key x

instance : DecidablePred (t.Cand key) := fun _ => inferInstanceAs (Decidable (_ ∧ ¬_))

/-- No boundary up to the searched key hides an element that the search can find. -/
def Ahead (search : BaseElm) : Prop :=
  ∀ x ∈ t.elms, t.Cand key x → ∀ b ∈ bounds t.img t.height t.root, ¬(x.base.pos < b.pos ∧ b.pos ≤ search.pos)

variable {t key fin}

/-- From the root to a leaf: the first element is found, or the search goes on behind the leaf. -/
theorem round {s : Hsearch} (hroot : s.nodeoff = t.root) (hseen : Seen key (bounds t.img t.height t.root) s.search)
    (hahead : Ahead t key s.search) : ∃ k s', Turns t.img t.root key fin k s s' ∧
      ((∃ e : ElmPtr, t.elms.find? (t.Cand key) = some e.elm ∧
          hfindStep t.img t.root key fin s' = .inl (endStep fin e)) ∨
        (∃ e, hfindStep t.img t.root key fin s' = backtrackStep t.root {s' with e := e}) ∧
          (s'.backtrack = s.backtrack ∧ (∀ x ∈ t.elms, ¬t.Cand key x) ∨
            ∃ b ∈ bounds t.img t.height t.root, s'.backtrack = some b ∧ s.search.pos < b.pos ∧ Ahead t key b)) := by
  obtain ⟨k,s',pre,mid,post,hturns,hsearch,hd,harr⟩ :=
    @descend t.img t.root key fin t.height t.root t.ok s.search s.backtrack s.e
  have hs : (⟨s.search,s.backtrack,t.root,s.e⟩ : Hsearch) = s := by rw [← hroot]
  rw [hs] at hturns
  have helms : t.elms = pre ++ mid ++ post := hd.split
  have hpre : ∀ x ∈ pre, ¬t.Cand key x := by
    intro x hx hc
    obtain ⟨b,hb,hbx⟩ := hd.before x hx
    exact hahead x (by rw [helms]; simp [hx]) hc b hb hbx
  have hmid : ∀ x ∈ mid, t.Cand key x ↔ Fits key x := by
    intro x hx
    refine ⟨And.left,fun h => ⟨h,?_⟩⟩
    rintro ⟨b,hb,h₁,h₂⟩
    exact hd.clear x hx b hb ⟨h₁,h₂.trans hseen.le⟩
  have hgo : (∀ x ∈ mid, ¬Fits key x) → s'.backtrack = s.backtrack ∧ (∀ x ∈ t.elms, ¬t.Cand key x) ∨
      ∃ b ∈ bounds t.img t.height t.root, s'.backtrack = some b ∧ s.search.pos < b.pos ∧ Ahead t key b := by
    intro hno
    rcases hd.after with ⟨hbt,rfl⟩ | ⟨b,hb,hbt,hsb,-,hpost⟩
    · refine Or.inl ⟨hbt,fun x hx => ?_⟩
      rw [helms,List.append_nil] at hx
      rcases List.mem_append.mp hx with hx | hx
      · exact hpre x hx
      · exact fun h => hno x hx h.1
    · refine Or.inr ⟨b,hb,hbt,hsb,fun x hx hc b' _ hb' => ?_⟩
      rw [helms] at hx
      rcases List.mem_append.mp hx with hx | hx
      · rcases List.mem_append.mp hx with hx | hx
        · exact hpre x hx hc
        · exact hno x hx hc.1
      · exact absurd (hb'.1.trans_le hb'.2) (hpost x hx).not_gt
  refine ⟨k,s',hturns,?_⟩
  rcases harr with ⟨hl,rfl⟩ | ⟨rfl,he⟩
  · rw [← hsearch] at hseen
    have hclear := hd.clear
    rw [← hsearch] at hclear
    have hlast : (t.img s'.nodeoff).list.Pairwise fun x y => x.base.record = y.base.record → x.base.deleteTid ≠ 0 := by
      refine t.last.sublist ?_
      rw [hd.split]
      exact (List.sublist_append_right _ _).trans (List.sublist_append_left _ _)
    rcases @leaf_step t.img t.root key fin _ s' hl hseen hclear hlast with ⟨hno,he⟩ | ⟨e,hfind,hstep⟩
    · exact Or.inr ⟨he,hgo hno⟩
    · refine Or.inl ⟨e,?_,hstep⟩
      have hnone : pre.find? (t.Cand key) = none := List.find?_eq_none.mpr fun x hx => by simpa using hpre x hx
      have hsame : (t.img s'.nodeoff).list.find? (t.Cand key) = (t.img s'.nodeoff).list.find? (Fits key) :=
        List.find?_congr fun x hx => decide_eq_decide.mpr (hmid x hx)
      rw [helms,List.find?_append,List.find?_append,hnone,hsame,hfind]
      rfl
  · exact Or.inr ⟨he,hgo (by simp)⟩

/-- The number of boundaries behind the searched key. -/
def boundsLeft (t : HammerTree) (search : BaseElm) : ℕ :=
  ((bounds t.img t.height t.root).filter fun b => search.pos < b.pos).length

theorem boundsLeft_lt {search b : BaseElm} (hb : b ∈ bounds t.img t.height t.root) (h : search.pos < b.pos) :
    boundsLeft t b < boundsLeft t search := by
  unfold boundsLeft
  have hsub : ((bounds t.img t.height t.root).filter fun b' => b.pos < b'.pos).Sublist
      ((bounds t.img t.height t.root).filter fun b' => search.pos < b'.pos) := by
    apply List.monotone_filter_right
    intro b' hb'
    rw [decide_eq_true_iff] at hb' ⊢
    exact h.trans hb'
  refine lt_of_le_of_ne hsub.length_le fun heq => ?_
  have hin : b ∈ (bounds t.img t.height t.root).filter fun b' => search.pos < b'.pos :=
    List.mem_filter.mpr ⟨hb,decide_eq_true h⟩
  rw [← hsub.eq_of_length heq] at hin
  simpa using (List.mem_filter.mp hin).2

/-- The search goes on behind a boundary until it finds the element: each time there is one boundary less before it. -/
theorem hfindLoop_finds {s : Hsearch} (hroot : s.nodeoff = t.root)
    (hseen : Seen key (bounds t.img t.height t.root) s.search) (hahead : Ahead t key s.search)
    (hsome : ∃ x ∈ t.elms, t.Cand key x) : ∃ k, ∃ e : ElmPtr, t.elms.find? (t.Cand key) = some e.elm ∧
      ∀ fuel, hfindLoop t.img t.root key fin (fuel+k) s = some (endStep fin e) := by
  induction hm : boundsLeft t s.search using Nat.strong_induction_on generalizing s with
  | _ m ih =>
    obtain ⟨k,s',hturns,⟨e,hfind,hstep⟩ | ⟨⟨e',hstep⟩,⟨-,hno⟩ | ⟨b,hb,hbt,hlt,hahead'⟩⟩⟩ :=
      @round t key fin s hroot hseen hahead
    · refine ⟨k+1,e,hfind,fun fuel => ?_⟩
      rw [Nat.add_comm k,← Nat.add_assoc,hturns.loop,hfindLoop,hstep]
    · obtain ⟨x,hx,hc⟩ := hsome
      exact absurd hc (hno x hx)
    · obtain ⟨k',e,hfind,hrun⟩ := @ih (boundsLeft t b) (hm ▸ boundsLeft_lt hb hlt) ⟨b,some b,t.root,e'⟩ rfl
        (hseen.next hb hlt) hahead' rfl
      refine ⟨k'+(k+1),e,hfind,fun fuel => ?_⟩
      have hback : hfindStep t.img t.root key fin s' = .inr ⟨b,some b,t.root,e'⟩ := by
        rw [hstep,backtrackStep]
        dsimp only
        rw [hbt]
      rw [← Nat.add_assoc,Nat.add_comm k,← Nat.add_assoc,hturns.loop,hfindLoop,hback]
      exact hrun fuel

/-- If there is nothing to be found, the search ends only with a boundary that was not set. -/
theorem hfindLoop_lost (hno : ∀ x ∈ t.elms, ¬t.Cand key x) (fuel : ℕ) {s : Hsearch} (hroot : s.nodeoff = t.root)
    (hseen : Seen key (bounds t.img t.height t.root) s.search)
    (hbt : ∀ b, s.backtrack = some b → Seen key (bounds t.img t.height t.root) b) {r : Hfound}
    (hr : hfindLoop t.img t.root key fin fuel s = some r) : r = .unset := by
  induction fuel using Nat.strong_induction_on generalizing s with
  | _ fuel ih =>
    have hahead : Ahead t key s.search := fun x hx hc => absurd hc (hno x hx)
    obtain ⟨k,s',hturns,⟨e,hfind,-⟩ | ⟨⟨e',hstep⟩,hgo⟩⟩ := @round t key fin s hroot hseen hahead
    · have hc := List.find?_some hfind
      exact absurd (of_decide_eq_true hc) (hno _ (List.mem_of_find?_eq_some hfind))
    have hbt' : ∀ b, s'.backtrack = some b → Seen key (bounds t.img t.height t.root) b := by
      intro b hb
      rcases hgo with ⟨hsame,-⟩ | ⟨b',hb',hset,hlt,-⟩
      · exact hbt b (hsame ▸ hb)
      · obtain rfl := Option.some.inj (hset.symm.trans hb)
        exact hseen.next hb' hlt
    rcases Nat.lt_or_ge k fuel with hlt | hle
    · obtain ⟨m,rfl⟩ : ∃ m, fuel = m+1+k := ⟨fuel-k-1,by omega⟩
      rw [hturns.loop,hfindLoop,hstep,backtrackStep] at hr
      dsimp only at hr
      cases hs : s'.backtrack with
      | none =>
        rw [hs] at hr
        exact (Option.some.inj hr).symm
      | some b =>
        rw [hs] at hr
        exact @ih m (by omega) ⟨b,some b,t.root,e'⟩ rfl (hbt' b hs) (fun b' hb' => Option.some.inj hb' ▸ hbt' b hs) hr
    · rw [hturns.short hle] at hr
      simp at hr

end Rounds

section Sorted
variable {img : ℕ → BtreeNode}

theorem LeafOk.pairwise {node : BtreeNode} (hl : LeafOk node) :
    node.list.Pairwise fun x y => x.base.pos ≤ y.base.pos := by
  rw [BtreeNode.list,List.pairwise_map]
  refine (List.pairwise_lt_range).imp_of_mem fun ha hb hab => ?_
  exact hl.sorted _ _ hab.le (List.mem_range.mp hb)

/-- The elements of a subtree are in order. -/
theorem leaves_sorted (h : ℕ) {off : ℕ} (hok : SubtreeOk img h off) :
    (leaves img h off).Pairwise fun x y => x.base.pos ≤ y.base.pos := by
  induction h generalizing off with
  | zero => exact LeafOk.pairwise hok
  | succ h ih =>
    obtain hl | ⟨hint,hsorted,hchild⟩ := hok
    · rw [leaves,hl.leaf]
      exact hl.pairwise
    · rw [leaves,if_pos hint,List.pairwise_flatMap]
      refine ⟨fun j hj => ih (hchild j (List.mem_range.mp hj)).2,?_⟩
      refine (List.pairwise_lt_range).imp_of_mem fun {i j} ha hb hab x hx y hy => ?_
      rw [List.mem_range] at ha hb
      have hx' := ((hchild i ha).1.leaves x hx).2
      have hy' := ((hchild j hb).1.leaves y hy).1
      exact hx'.le.trans ((hsorted (i+1) j hab (by omega)).trans hy')

end Sorted

section Main

theorem hfindLoop_mono {img : ℕ → BtreeNode} {root : ℕ} {key : BaseElm} {fin : Option BaseElm} (fuel m : ℕ)
    {s : Hsearch} {r : Hfound} (h : hfindLoop img root key fin fuel s = some r) :
    hfindLoop img root key fin (fuel+m) s = some r := by
  induction fuel generalizing s with
  | zero => simp [hfindLoop] at h
  | succ fuel ih =>
    rw [Nat.add_right_comm,hfindLoop]
    rw [hfindLoop] at h
    cases hs : hfindStep img root key fin s with
    | inl r' =>
      rw [hs] at h
      exact h
    | inr s' =>
      rw [hs] at h
      exact ih h

/-- The first element that fits is before the others. -/
theorem HammerTree.find_le (t : HammerTree) {key : BaseElm} {e x : BtreeElm} (he : t.elms.find? (Fits key) = some e)
    (hx : x ∈ t.elms) (hfit : Fits key x) : e.base.record ≤ x.base.record := by
  obtain ⟨-,as,bs,heq,has⟩ := List.find?_eq_some_iff_append.mp he
  have hsorted := leaves_sorted t.height t.ok
  change t.elms.Pairwise _ at hsorted
  rw [heq] at hx hsorted
  rcases List.mem_append.mp hx with hx | hx
  · have hno := has x hx
    simp [hfit] at hno
  · rcases List.mem_cons.mp hx with rfl | hx
    · exact le_rfl
    · exact record_le_of_pos ((List.pairwise_cons.mp (List.pairwise_append.mp hsorted).2.1).1 x hx)

/-- At the start no boundary hides what the search can find. -/
theorem ahead_key {t : HammerTree} {key : BaseElm} : Ahead t key key := fun _ _ hc b hb hxb => hc.2 ⟨b,hb,hxb⟩

/-- With no live element hidden, an element that is returned is the first live one at the key or behind it, and is not
behind the end. If `NULL` is returned, all such elements are behind the end. -/
theorem hfind_first (t : HammerTree) (key : BaseElm) (fin : Option BaseElm)
    (hclear : ∀ x ∈ t.elms, Fits key x → ¬t.Hidden key x) (fuel : ℕ) {r : Hfound}
    (hr : hfind t.img t.root key fin fuel = some r) :
    (∀ e, r = .elm e → t.elms.find? (Fits key) = some e ∧ ∀ f, fin = some f → e.base.record ≤ f.record) ∧
      (r = .fail → ∀ x ∈ t.elms, Fits key x → ∃ f, fin = some f ∧ f.record < x.base.record) := by
  have hcand : ∀ x ∈ t.elms, (t.Cand key x ↔ Fits key x) := fun x hx => ⟨And.left,fun h => ⟨h,hclear x hx h⟩⟩
  by_cases hsome : ∃ x ∈ t.elms, t.Cand key x
  · obtain ⟨k,e,hfind,hrun⟩ := @hfindLoop_finds t key fin ⟨key,none,t.root,none⟩ rfl (Or.inl rfl)
      ahead_key hsome
    have hre : r = endStep fin e := Option.some.inj ((hfindLoop_mono fuel k hr).symm.trans (hrun fuel))
    rw [List.find?_congr fun x hx => decide_eq_decide.mpr (hcand x hx)] at hfind
    rw [hre]
    cases fin with
    | none =>
      refine ⟨fun e' he' => ?_,by simp [endStep]⟩
      rw [← Hfound.elm.inj he']
      exact ⟨hfind,by simp⟩
    | some f =>
      rw [endStep]
      by_cases hcmp : hammerBtreeCmp f e.elm.base < -1
      · rw [if_pos hcmp]
        refine ⟨by simp,fun _ x hx hfit => ⟨f,rfl,?_⟩⟩
        exact (hammerBtreeCmp_near.mp hcmp).trans_le (t.find_le hfind hx hfit)
      · rw [if_neg hcmp]
        refine ⟨fun e' he' => ?_,by simp⟩
        rw [← Hfound.elm.inj he']
        refine ⟨hfind,fun f' hf' => ?_⟩
        rw [← Option.some.inj hf']
        exact not_lt.mp (mt hammerBtreeCmp_near.mpr hcmp)
  · push Not at hsome
    have hunset := hfindLoop_lost hsome fuel rfl (Or.inl rfl) (fun b hb => by simp at hb) hr
    rw [hunset]
    simp

/-- The search ends, and uses no variable that was not set, just if there is a live element at the key or behind it
that no boundary hides. -/
theorem hfind_ends_iff (t : HammerTree) (key : BaseElm) (fin : Option BaseElm) :
    (∃ fuel r, hfind t.img t.root key fin fuel = some r ∧ r ≠ .unset) ↔ ∃ x ∈ t.elms, Fits key x ∧ ¬t.Hidden key x := by
  constructor
  · rintro ⟨fuel,r,hr,hne⟩
    by_contra hno
    push Not at hno
    exact hne (hfindLoop_lost (fun x hx hc => hc.2 (hno x hx hc.1)) fuel rfl (Or.inl rfl)
      (fun b hb => by simp at hb) hr)
  · intro hsome
    obtain ⟨k,e,-,hrun⟩ := @hfindLoop_finds t key fin ⟨key,none,t.root,none⟩ rfl (Or.inl rfl)
      ahead_key hsome
    refine ⟨0+k,_,hrun 0,?_⟩
    cases fin with
    | none => simp [endStep]
    | some f =>
      rw [endStep]
      split_ifs <;> simp

/-- An element of record type 0 of one object. -/
def elmAt (key : ℤ) (createTid deleteTid offset : ℕ) : BtreeElm := ⟨⟨0,0,0,key,createTid,deleteTid⟩,offset⟩

/-- Two leaves below a root, with a live element each. The boundary between them is for the record of the first one. -/
def twoLeaves : ℕ → BtreeNode
  | 0 => ⟨true,2,fun j => [elmAt 0 1 0 1,elmAt 5 7 0 2].getD j (elmAt 10 1 0 0)⟩
  | 1 => ⟨false,1,fun _ => elmAt 5 3 0 100⟩
  | _ => ⟨false,1,fun _ => elmAt 6 1 0 200⟩

attribute [local grind =] twoLeaves

theorem leafOk_one (f : ℕ → BtreeElm) : LeafOk ⟨false,1,f⟩ := by
  refine ⟨rfl,Nat.one_pos,fun i j hij hj => ?_⟩
  have hj' : j < 1 := hj
  obtain rfl : i = j := by omega
  exact le_rfl

def splitTree : HammerTree where
  img := twoLeaves
  root := 0
  height := 1
  ok := by
    refine Or.inr ⟨rfl,?_,?_⟩
    · intro i j hij hj
      have hj' : j < 3 := hj
      interval_cases j <;> interval_cases i <;> decide
    · intro j hj
      have hj' : j < 2 := hj
      interval_cases j
      · exact ⟨⟨by decide,by decide⟩,leafOk_one _⟩
      · exact ⟨⟨by decide,by decide⟩,leafOk_one _⟩
  last := by decide

/-- The search of a record behind the boundary. -/
theorem hfind_first_behind : splitTree.elms.find? (Fits (elmAt 6 0 0 0).base) = some (elmAt 6 1 0 200) :=
  ((hfind_first splitTree (elmAt 6 0 0 0).base none (by decide) 2 (by decide : _ = some (.elm (elmAt 6 1 0 200)))).1
    (elmAt 6 1 0 200) rfl).1

/-- The same tree, with nothing in its first leaf. -/
def emptyLeaf : ℕ → BtreeNode := Function.update twoLeaves 1 ⟨false,0,fun _ => elmAt 0 0 0 0⟩

/-- The live element is in the first leaf, and the search is in the second one. In an empty leaf, the search takes a
boundary for an element. -/
theorem hfind_hidden :
    (hfind splitTree.img splitTree.root (elmAt 5 0 0 0).base none 2 = some (.elm (elmAt 6 1 0 200)) ∧
      splitTree.elms.find? (Fits (elmAt 5 0 0 0).base) = some (elmAt 5 3 0 100)) ∧
    hfind emptyLeaf 0 (elmAt 3 0 0 0).base none 2 = some (.elm (elmAt 5 7 0 2)) ∧
      elmAt 5 7 0 2 ∉ leaves emptyLeaf 1 0 := by
  decide

/-- The search of the record that is found, with the end at another one. -/
theorem hfind_ends_six : ∃ fuel r,
    hfind splitTree.img splitTree.root (elmAt 6 0 0 0).base (some (elmAt 2 0 0 0).base) fuel = some r ∧ r ≠ .unset :=
  (hfind_ends_iff splitTree (elmAt 6 0 0 0).base (some (elmAt 2 0 0 0).base)).mpr (by decide)

/-- A tree of one leaf. -/
def oneLeaf : HammerTree where
  img := fun _ => ⟨false,1,fun _ => elmAt 5 3 0 100⟩
  root := 0
  height := 0
  ok := leafOk_one _
  last := by decide

/-- Behind the element of a single leaf, the search uses the boundary that was not set. Behind the last element of a
larger tree it has no end. -/
theorem hfind_behind_all : hfind oneLeaf.img oneLeaf.root (elmAt 6 0 0 0).base none 1 = some .unset ∧
    ¬∃ fuel r, hfind splitTree.img splitTree.root (elmAt 7 0 0 0).base none fuel = some r ∧ r ≠ .unset := by
  refine ⟨by decide,?_⟩
  rintro ⟨fuel,r,hr,hne⟩
  exact hne (@hfindLoop_lost splitTree (elmAt 7 0 0 0).base none (by decide) fuel ⟨_,none,_,none⟩ rfl (Or.inl rfl)
    (fun b hb => by simp at hb) r hr)

end Main

end Blub.Stand
