/-
**The shape of a Merkle tree.**

`gen_helper` of `src/types/merkle.rs` works on one vector.  A round takes two nodes at the front and pushes
the node above them at the back, so that in the middle of a level the vector holds the rest of this level and
the beginning of the next; on a level of odd size the last node is paired with a copy that has neither
children nor index.  What comes out has as many levels as it takes to halve the list down to one element.
Its leaves are the elements in their order, and all other nodes without children are copies.

Main definitions:

* `BitcoinClient.MerkleTree.node` — the node at the end of a way down;
* `BitcoinClient.MerkleTree.depth`, `BitcoinClient.MerkleTree.indices`;
* `BitcoinClient.MerkleTree.Shape` — what the tree over a list of hashes looks like.

Main results:

* `BitcoinClient.Merkle.Complete.node` — the nodes of a complete tree are complete, or copies of the node on
  their left;
* `BitcoinClient.Merkle.genHelper_shape` — **the shape of the tree that is built**.
-/

import BitcoinClient.MalformedProofs

set_option relaxedAutoImplicit false
set_option autoImplicit false

namespace BitcoinClient

/-! ### Nodes, depth and indices -/

namespace MerkleTree

/-- The node at the end of a way down; `true` is the way to the right. -/
def node : MerkleTree → List Bool → Option MerkleTree
  | t, [] => some t
  | .mk left right _ _, side :: way => (if side then right else left).bind fun t => t.node way
termination_by structural _ way => way

/-- The length of the longest way down. -/
def depth : MerkleTree → ℕ
  | .mk none none _ _ => 0
  | .mk (some left) none _ _ => left.depth + 1
  | .mk none (some right) _ _ => right.depth + 1
  | .mk (some left) (some right) _ _ => max left.depth right.depth + 1
termination_by structural t => t

/-- The indices of the nodes that have one, from left to right. -/
def indices : MerkleTree → List ℕ
  | .mk none none _ index => index.toList
  | .mk (some left) none _ index => left.indices ++ index.toList
  | .mk none (some right) _ index => index.toList ++ right.indices
  | .mk (some left) (some right) _ index => left.indices ++ index.toList ++ right.indices
termination_by structural t => t

theorem node_nil (t : MerkleTree) : t.node [] = some t := by
  rw [node]

variable [Crypto]

/-- What the tree over a list of hashes looks like: its depth, the nodes with children, the nodes with an
index, in their order, and the other nodes without children. -/
structure Shape (hashes : List H256) (tree : MerkleTree) : Prop where
  depth_eq : tree.depth = Nat.clog 2 hashes.length
  children : ∀ way left right hash index, tree.node way = some (.mk left right hash index) →
    (left.isSome ↔ right.isSome)
  inner : ∀ way left right hash index,
    tree.node way = some (.mk (some left) (some right) hash index) →
      hash = Merkle.concatAndHash left.hash right.hash ∧ index = none
  indexed : ∀ way left right hash i, tree.node way = some (.mk left right hash (some i)) →
    left = none ∧ right = none ∧ hashes[i]? = some hash
  indices_eq : tree.indices = List.range hashes.length
  copies : ∀ way hash, tree.node way = some (.mk none none hash none) →
    ∃ above sibling, way = above ++ [true] ∧ tree.node (above ++ [false]) = some sibling ∧
      hash = sibling.hash

end MerkleTree

namespace Merkle

variable [Crypto]

/-! ### The nodes of a complete tree -/

section Nodes

variable {l r t s : MerkleTree}

theorem node_newNode (side : Bool) (way : List Bool) :
    (newNode l r).node (side :: way) = (if side then r else l).node way := by
  cases side <;> rfl

omit [Crypto] in
/-- Below a leaf or a copy there is no node. -/
theorem node_childless {hash : H256} {index : Option ℕ} {way : List Bool}
    (h : (MerkleTree.mk none none hash index).node way = some s) :
    way = [] ∧ s = .mk none none hash index := by
  match way, h with
  | [], h =>
      rw [MerkleTree.node_nil, Option.some_inj] at h
      exact ⟨rfl, h.symm⟩
  | side :: way, h => cases side <;> cases h

/-- A node of a tree is complete, or it is a copy of the node on its left. -/
def CompleteOrCopy (t s : MerkleTree) (way : List Bool) : Prop :=
  (∃ k, Complete k s) ∨
    ∃ above sibling, way = above ++ [true] ∧ t.node (above ++ [false]) = some sibling ∧
      s = dupNode sibling

/-- The nodes keep their places when the tree becomes a child. -/
theorem CompleteOrCopy.cons {side : Bool} {way : List Bool} (h : CompleteOrCopy (if side then r else l) s way) :
    CompleteOrCopy (newNode l r) s (side :: way) := by
  rcases h with hcomplete | ⟨above, sibling, rfl, hsibling, rfl⟩
  · exact Or.inl hcomplete
  · refine Or.inr ⟨side :: above, sibling, rfl, ?_, rfl⟩
    rw [List.cons_append, node_newNode, hsibling]

/-- **The nodes of a complete tree** are complete, or copies of the node on their left. -/
theorem Complete.node {k : ℕ} (h : Complete k t) :
    ∀ {way : List Bool} {s : MerkleTree}, t.node way = some s → CompleteOrCopy t s way := by
  induction h with
  | leaf index hash =>
      intro way s hs
      obtain ⟨-, rfl⟩ := node_childless hs
      exact Or.inl ⟨0, .leaf index hash⟩
  | @newNode k l r hl hr ihl ihr =>
      intro way s hs
      match way, hs with
      | [], hs =>
          rw [MerkleTree.node_nil, Option.some_inj] at hs
          exact Or.inl ⟨k + 1, hs ▸ .newNode hl hr⟩
      | true :: way, hs => exact .cons (ihr hs)
      | false :: way, hs => exact .cons (ihl hs)
  | @doubleNode k t ht ih =>
      intro way s hs
      match way, hs with
      | [], hs =>
          rw [MerkleTree.node_nil, Option.some_inj] at hs
          exact Or.inl ⟨k + 1, hs ▸ .doubleNode ht⟩
      | true :: way, hs =>
          -- the way to the right leads to the copy
          obtain ⟨rfl, rfl⟩ := node_childless hs
          exact Or.inr ⟨[], t, rfl, MerkleTree.node_nil t, rfl⟩
      | false :: way, hs => exact .cons (r := dupNode t) (ih hs)

theorem Complete.depth_eq {k : ℕ} (h : Complete k t) : t.depth = k := by
  induction h with
  | leaf index hash => rfl
  | newNode _ _ ihl ihr => rw [Merkle.newNode, MerkleTree.depth, ihl, ihr, Nat.max_self]
  | @doubleNode k t _ ih =>
      have hcopy : (dupNode t).depth = 0 := rfl
      rw [Merkle.doubleNode, Merkle.newNode, MerkleTree.depth, ih, hcopy, Nat.max_zero]

section Fields

variable {k : ℕ} {way : List Bool} {hash : H256} {index : Option ℕ}

/-- A node has two children or none. -/
theorem Complete.children (h : Complete k t) {left right : Option MerkleTree}
    (hs : t.node way = some (.mk left right hash index)) : left.isSome ↔ right.isSome := by
  rcases h.node hs with ⟨k, hk⟩ | ⟨above, sibling, -, -, heq⟩
  · cases hk <;> exact Iff.rfl
  · cases heq
    exact Iff.rfl

/-- A node with children has the hash of their hashes, and no index. -/
theorem Complete.inner (h : Complete k t) {left right : MerkleTree}
    (hs : t.node way = some (.mk (some left) (some right) hash index)) :
    hash = concatAndHash left.hash right.hash ∧ index = none := by
  rcases h.node hs with ⟨k, hk⟩ | ⟨above, sibling, -, -, heq⟩
  · cases hk <;> exact ⟨rfl, rfl⟩
  · cases heq

/-- A node with neither children nor index has the hash of the node on its left. -/
theorem Complete.copies (h : Complete k t) (hs : t.node way = some (.mk none none hash none)) :
    ∃ above sibling, way = above ++ [true] ∧ t.node (above ++ [false]) = some sibling ∧
      hash = sibling.hash := by
  rcases h.node hs with ⟨k, hk⟩ | ⟨above, sibling, hway, hsibling, heq⟩
  · cases hk
  · cases heq
    exact ⟨above, sibling, hway, hsibling, rfl⟩

end Fields

end Nodes

/-! ### The nodes with an index -/

section Indexed

variable {hashes : List H256} {l r t : MerkleTree}

/-- The nodes with an index have no children, and the hash that stands there in the list. -/
def Labelled (hashes : List H256) (t : MerkleTree) : Prop :=
  ∀ way left right hash i, t.node way = some (.mk left right hash (some i)) →
    left = none ∧ right = none ∧ hashes[i]? = some hash

omit [Crypto] in
theorem labelled_leaf {index : ℕ} {hash : H256} (h : hashes[index]? = some hash) :
    Labelled hashes (leaf index hash) := by
  intro way left right hash' i hs
  obtain ⟨-, heq⟩ := node_childless hs
  cases heq
  exact ⟨rfl, rfl, h⟩

omit [Crypto] in
theorem labelled_dupNode : Labelled hashes (dupNode t) := by
  intro way left right hash i hs
  obtain ⟨-, heq⟩ := node_childless hs
  cases heq

theorem labelled_newNode (hl : Labelled hashes l) (hr : Labelled hashes r) :
    Labelled hashes (newNode l r) := by
  intro way left right hash i hs
  match way, hs with
  | [], hs => cases hs
  | true :: way, hs => exact hr way left right hash i hs
  | false :: way, hs => exact hl way left right hash i hs

theorem indices_newNode : (newNode l r).indices = l.indices ++ r.indices := by
  rw [newNode, MerkleTree.indices, Option.toList_none, List.append_nil]

theorem indices_doubleNode : (doubleNode t).indices = t.indices := by
  have hcopy : (dupNode t).indices = [] := rfl
  rw [doubleNode, indices_newNode, hcopy, List.append_nil]

omit [Crypto] in
/-- The indices of the lowest level. -/
theorem flatMap_indices {T : Type} [Hashable T] (data : List T) :
    (data.zipIdx.map fun x => leaf x.2 (Hashable.hash x.1)).flatMap MerkleTree.indices =
      List.range data.length := by
  have hleaf : (fun x : T × ℕ => (leaf x.2 (Hashable.hash x.1)).indices) = fun x => [x.2] := rfl
  rw [List.flatMap_map, hleaf, ← List.map_eq_flatMap, List.range_eq_range']
  exact List.zipIdx_map_snd 0 data

theorem labelled_new {T : Type} [Hashable T] {data : List T} (htree : MerkleTree.new data = some t) :
    Labelled (data.map Hashable.hash) t := by
  rw [new_eq_top] at htree
  refine Levels.top_forall (P := Labelled (data.map Hashable.hash)) (fun _ _ => labelled_newNode)
    (fun _ ht => labelled_newNode ht labelled_dupNode) (fun t ht => ?_) htree
  obtain ⟨x, hx, rfl⟩ := List.mem_map.1 ht
  refine labelled_leaf ?_
  rw [List.getElem?_map, List.mk_mem_zipIdx_iff_getElem?.1 hx, Option.map_some]

/-- **From left to right the indices are those of the list.** -/
theorem indices_new {T : Type} [Hashable T] {data : List T} (htree : MerkleTree.new data = some t) :
    t.indices = List.range data.length := by
  rw [new_eq_top] at htree
  rw [Levels.flatMap_top (fun _ _ => indices_newNode) (fun _ => indices_doubleNode) _ _ htree,
    flatMap_indices]

end Indexed

/-! ### The shape -/

/-- **The shape of the tree that is built.**  For every list that is not empty: the depth is the binary
logarithm of the length, rounded up; a node has two children or none; a node with children has no index and
the hash of the two hashes below it; the nodes with an index have no children and the hash of the element
there, and from left to right their indices are those of the list; and every other node without children is
the copy of the node on its left, on the right below one node with it. -/
theorem genHelper_shape {T : Type} [Hashable T] (data : List T) (hne : data ≠ []) :
    ∃ tree, genHelper data = some tree ∧ tree.Shape (data.map Hashable.hash) := by
  obtain ⟨tree, htree, hcomplete⟩ := complete_new hne
  refine ⟨tree, htree, ?_⟩
  exact {
    depth_eq := by rw [hcomplete.depth_eq, List.length_map]
    children := fun _ _ _ _ _ => hcomplete.children
    inner := fun _ _ _ _ _ => hcomplete.inner
    indexed := labelled_new htree
    indices_eq := by rw [indices_new htree, List.length_map]
    copies := fun _ _ => hcomplete.copies }

omit [Crypto] in
/-- Three leaves. -/
theorem genHelper_shape_three :
    letI := mixingCrypto
    letI := sampleHashable
    ∃ tree, genHelper [5, 6, 7] = some tree ∧ tree.depth = 2 ∧ tree.indices = [0, 1, 2] := by
  let _ := mixingCrypto
  let _ := sampleHashable
  obtain ⟨tree, htree, hshape⟩ := genHelper_shape [5, 6, 7] (by decide)
  exact ⟨tree, htree, hshape.depth_eq.trans (by decide +kernel), hshape.indices_eq⟩

end Merkle

end BitcoinClient
