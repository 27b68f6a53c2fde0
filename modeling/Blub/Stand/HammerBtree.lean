import Mathlib

/-! The search of the B-tree of a HAMMER volume, from `hammer1.c`: `hfind`, while all reads of nodes succeed. -/
namespace Blub.Stand

/-- `struct hammer_base_elm`: what elements are compared by, and when the record was deleted. -/
structure BaseElm where
  localization : ℕ
  objId : ℤ
  recType : ℕ
  key : ℤ
  createTid : ℕ
  deleteTid : ℕ
  deriving DecidableEq

/-- An element of a node, with the offset of the subtree or of the data. -/
structure BtreeElm where
  base : BaseElm
  offset : ℕ
  deriving DecidableEq

/-- A node as it is on the disk. An internal node has one element more than its count, the right boundary. -/
structure BtreeNode where
  internal : Bool
  count : ℕ
  elms : ℕ → BtreeElm

section Code

def hammerBtreeCmp (key1 key2 : BaseElm) : ℤ :=
  if key1.localization < key2.localization then -5
  else if key1.localization > key2.localization then 5
  else if key1.objId < key2.objId then -4
  else if key1.objId > key2.objId then 4
  else if key1.recType < key2.recType then -3
  else if key1.recType > key2.recType then 3
  else if key1.key < key2.key then -2
  else if key1.key > key2.key then 2
  else if key1.createTid = 0 then
    if key2.createTid = 0 then 0 else 1
  else if key2.createTid = 0 then -1
  else if key1.createTid < key2.createTid then -1
  else if key1.createTid > key2.createTid then 1
  else 0

/-- The loop of `hammer_btree_search_node`, which halves the range at each turn. -/
def searchNodeLoop (elm : BaseElm) (node : BtreeNode) : ℕ → ℕ → ℕ → ℕ
  | 0, b, _ => b
  | k+1, b, s =>
    if 4 < s-b then
      let i := b+(s-b)/2
      if hammerBtreeCmp elm (node.elms i).base ≤ 1 then searchNodeLoop elm node k b i else searchNodeLoop elm node k i s
    else b

def hammerBtreeSearchNode (elm : BaseElm) (node : BtreeNode) : ℕ := searchNodeLoop elm node node.count 0 node.count

/-- The elements that the scan of a node looks at: the right boundary of an internal node is one of them. -/
def BtreeNode.covered (node : BtreeNode) : ℕ := node.count+if node.internal then 1 else 0

/-- The loop over the elements up to the first one behind the key, for `k` elements from `n` on. -/
def scanNode (search : BaseElm) (node : BtreeNode) : ℕ → ℕ → ℕ
  | 0, n => n
  | k+1, n => if hammerBtreeCmp search (node.elms n).base < 0 then n else scanNode search node k (n+1)

/-- A pointer to an element: a node in its buffer and an index. -/
structure ElmPtr where
  node : BtreeNode
  idx : ℕ

def ElmPtr.elm (e : ElmPtr) : BtreeElm := e.node.elms e.idx

/-- The loop over deleted elements, for `k` elements. -/
def skipDeleted : ℕ → ElmPtr → ElmPtr
  | 0, e => e
  | k+1, e => if e.elm.base.deleteTid ≠ 0 then skipDeleted k ⟨e.node,e.idx+1⟩ else e

/-- The variables of `hfind` at the label `loop`. A variable without a value was not set. -/
structure Hsearch where
  search : BaseElm
  backtrack : Option BaseElm
  nodeoff : ℕ
  e : Option ElmPtr

/-- How `hfind` ends: with an element, with `NULL`, or with the use of a variable that was not set. -/
inductive Hfound
  | elm (e : BtreeElm)
  | fail
  | unset
  deriving DecidableEq

attribute [local grind =] searchNodeLoop scanNode skipDeleted

variable (img : ℕ → BtreeNode) (root : ℕ) (key : BaseElm) (fin : Option BaseElm)

/-- The label `backtrack`. -/
def backtrackStep (s : Hsearch) : Hfound ⊕ Hsearch :=
  match s.backtrack with
  | none => .inl .unset
  | some b => .inr {s with search := b, nodeoff := root}

/-- What is done with the element that was found. -/
def endStep (e : ElmPtr) : Hfound :=
  match fin with
  | none => .elm e.elm
  | some fin => if hammerBtreeCmp fin e.elm.base < -1 then .fail else .elm e.elm

/-- The number of the element before the first one behind the key. -/
def findPlace (search : BaseElm) (node : BtreeNode) : ℕ :=
  let b := hammerBtreeSearchNode search node
  scanNode search node (node.covered-b) b-1

/-- One turn of `hfind`, from the label `loop` back to it or to the end. -/
def hfindStep (s : Hsearch) : Hfound ⊕ Hsearch :=
  let node := img s.nodeoff
  let n := findPlace s.search node
  -- the pointer is that of the last node if there is no element to look at
  let e := if 0 < node.covered then some ⟨node,n⟩ else s.e
  let s := {s with e := e}
  if node.internal then
    if n = node.count then backtrackStep root s
    else .inr {s with nodeoff := (node.elms n).offset, backtrack := some (node.elms (n+1)).base}
  else
    match e with
    | none => .inl .unset
    | some e =>
      let k := if hammerBtreeCmp key e.elm.base > 1 then 1 else 0
      let e' := skipDeleted (node.count-(n+k)) ⟨e.node,e.idx+k⟩
      if n+(e'.idx-e.idx) = node.count then backtrackStep root {s with e := some e'}
      else .inl (endStep fin e')

def hfindLoop : ℕ → Hsearch → Option Hfound
  | 0, _ => none
  | fuel+1, s =>
    match hfindStep img root key fin s with
    | .inl r => some r
    | .inr s => hfindLoop fuel s

/-- `hfind`, for at most `fuel` nodes. -/
def hfind (fuel : ℕ) : Option Hfound := hfindLoop img root key fin fuel ⟨key,none,root,none⟩

attribute [local grind =] hfindLoop

end Code

section Meaning

/-- What a record is found by: the fields of an element but for `create_tid`. -/
def BaseElm.record (k : BaseElm) : ℕ ×ₗ ℤ ×ₗ ℕ ×ₗ ℤ :=
  toLex (k.localization,toLex (k.objId,toLex (k.recType,k.key)))

/-- The order of `create_tid`, where 0 is infinity. -/
def BaseElm.tid (k : BaseElm) : WithTop ℕ := if k.createTid = 0 then ⊤ else (k.createTid : WithTop ℕ)

/-- The place of an element in the order of the tree. -/
def BaseElm.pos (k : BaseElm) : (ℕ ×ₗ ℤ ×ₗ ℕ ×ₗ ℤ) ×ₗ WithTop ℕ := toLex (k.record,k.tid)

/-- The first elements of a node are in order. -/
def BtreeNode.Sorted (node : BtreeNode) (m : ℕ) : Prop :=
  ∀ i j, i ≤ j → j < m → (node.elms i).base.pos ≤ (node.elms j).base.pos

def BtreeNode.list (node : BtreeNode) : List BtreeElm := (List.range node.count).map node.elms

structure LeafOk (node : BtreeNode) : Prop where
  leaf : node.internal = false
  count_pos : 0 < node.count
  sorted : node.Sorted node.count

variable (img : ℕ → BtreeNode)

/-- The elements of the leaves of a subtree, in the order of the tree. Its height is at most `h`. -/
def leaves : ℕ → ℕ → List BtreeElm
  | 0, off => (img off).list
  | h+1, off =>
    if (img off).internal then (List.range (img off).count).flatMap fun j => leaves h ((img off).elms j).offset
    else (img off).list

/-- The boundary elements of a subtree. -/
def bounds : ℕ → ℕ → List BaseElm
  | 0, _ => []
  | h+1, off =>
    if (img off).internal then
      (List.range ((img off).count+1)).map (fun j => ((img off).elms j).base) ++
        (List.range (img off).count).flatMap fun j => bounds h ((img off).elms j).offset
    else []

/-- A child of an internal node is between two boundary elements, with all of its own elements. -/
structure ChildOk (h : ℕ) (node : BtreeNode) (j : ℕ) : Prop where
  leaves : ∀ x ∈ leaves img h (node.elms j).offset,
    (node.elms j).base.pos ≤ x.base.pos ∧ x.base.pos < (node.elms (j+1)).base.pos
  bounds : ∀ b ∈ bounds img h (node.elms j).offset, (node.elms j).base.pos ≤ b.pos ∧ b.pos ≤ (node.elms (j+1)).base.pos

def SubtreeOk : ℕ → ℕ → Prop
  | 0, off => LeafOk (img off)
  | h+1, off => LeafOk (img off) ∨ (img off).internal = true ∧ (img off).Sorted ((img off).count+1) ∧
      ∀ j < (img off).count, ChildOk img h (img off) j ∧ SubtreeOk h ((img off).elms j).offset

/-- A B-tree on a volume. Of leaf elements for one record, only the last may be live. -/
structure HammerTree where
  img : ℕ → BtreeNode
  root : ℕ
  height : ℕ
  ok : SubtreeOk img height root
  last : (leaves img height root).Pairwise fun x y => x.base.record = y.base.record → x.base.deleteTid ≠ 0

attribute [local grind =] leaves bounds SubtreeOk

variable (t : HammerTree) (key : BaseElm)

def HammerTree.elms : List BtreeElm := leaves t.img t.height t.root

/-- A live element at the key or behind it, whatever its `create_tid`. -/
def Fits (x : BtreeElm) : Prop := x.base.deleteTid = 0 ∧ key.record ≤ x.base.record

instance : DecidablePred (Fits key) := fun _ => inferInstanceAs (Decidable (_ ∧ _))

/-- A boundary element separates an element from the place of the key, where the search goes at first. -/
def HammerTree.Hidden (x : BtreeElm) : Prop :=
  ∃ b ∈ bounds t.img t.height t.root, x.base.pos < b.pos ∧ b.pos ≤ key.pos

instance : DecidablePred (t.Hidden key) := fun _ => inferInstanceAs (Decidable (∃ b ∈ _, _))

end Meaning

end Blub.Stand
