/-
**What a Merkle root commits to.**

The root of `src/types/merkle.rs` is the root of a complete tree: a level with an odd number of nodes is
filled up with a copy of its last one, and so the leaves under the last node are there twice.  The root
commits to the leaves that are written out in this way, and to nothing more: two lists of elements have the
same root exactly when the hashes of their elements are the same after the copies are written out, so a list
that ends with its own padding has the root of the shorter list.

As in `BitcoinClient.MerkleSoundness` the hash is assumed not to collide on the pairs that are hashed in the
two trees, and no leaf hash to be the hash of such a pair.

Main definitions:

* `BitcoinClient.Merkle.padLeaves` — the leaf hashes with the copies written out;
* `BitcoinClient.MerkleTree.combined` — the pairs hashed in a tree.

Main results:

* `BitcoinClient.Merkle.buildLoop_eq` — the queue of the source computes the levels;
* `BitcoinClient.Merkle.perfect_new` — the root is the value of the complete tree over the padded leaves;
* `BitcoinClient.Merkle.root_eq_iff` — **what a root commits to**.
-/

import BitcoinClient.Levels
import BitcoinClient.Merkle

set_option relaxedAutoImplicit false
set_option autoImplicit false

namespace BitcoinClient

/-- The pairs of hashes that are combined in a tree. -/
def MerkleTree.combined : MerkleTree → List (H256 × H256)
  | .mk (some left) (some right) _ _ =>
    (left.hash, right.hash) :: (left.combined ++ right.combined)
  | .mk _ _ _ _ => []
termination_by structural t => t

namespace Merkle

/-- The leaf hashes, with the copies of the last nodes written out on every level of odd size. -/
def padLeaves (hashes : List H256) : List H256 :=
  (Levels.top (· ++ ·) (fun l => l ++ l) (hashes.length + 1) (hashes.map fun h => [h])).getD []

/-- There are as many padded leaves as the smallest complete tree has that has room for the hashes. -/
theorem length_padLeaves {hashes : List H256} (hne : hashes ≠ []) :
    (padLeaves hashes).length = 2 ^ Nat.clog 2 hashes.length := by
  obtain ⟨ls, hls⟩ := Levels.top_eq_some (· ++ ·) (fun l => l ++ l) (hashes.length + 1)
    (hashes.map fun h => [h]) (by simpa using hne) (by simp)
  have hlevel : List.Forall₂ (fun l (_ : List H256) => l.length = 2 ^ 0)
      (hashes.map fun h => [h]) (hashes.map fun h => [h]) := by simp [List.forall₂_same]
  rw [padLeaves, hls, Option.getD_some]
  have htop := Levels.top_rel (R := fun k l _ => l.length = 2 ^ k) ?_ ?_ _ 0 _ _ hlevel hls hls
  · rwa [Nat.zero_add, List.length_map] at htop
  · intro k l l' _ _ hl hl'
    rw [List.length_append, hl, hl', Nat.pow_succ, Nat.mul_two]
  · intro k l _ hl
    rw [List.length_append, hl, Nat.pow_succ, Nat.mul_two]

/-- Padding adds copies only. -/
theorem mem_of_mem_padLeaves {hashes : List H256} {h : H256} (hmem : h ∈ padLeaves hashes) :
    h ∈ hashes := by
  unfold padLeaves at hmem
  cases htop : Levels.top (· ++ ·) (fun l => l ++ l) (hashes.length + 1)
      (hashes.map fun h => [h]) with
  | none =>
      rw [htop] at hmem
      cases hmem
  | some ls =>
      rw [htop, Option.getD_some] at hmem
      refine Levels.top_forall (P := fun l => ∀ h ∈ l, h ∈ hashes) ?_ ?_ ?_ htop h hmem
      · intro l l' hl hl'
        exact List.forall_mem_append.2 ⟨hl, hl'⟩
      · intro l hl
        exact List.forall_mem_append.2 ⟨hl, hl⟩
      · simp

variable [Crypto]

/-! ### The queue computes the levels -/

/-- The node above a node and its copy. -/
def doubleNode (t : MerkleTree) : MerkleTree := newNode t (dupNode t)

theorem pairs_pad (treeNodes : List MerkleTree) :
    pairs (pad treeNodes) = Levels.up newNode doubleNode treeNodes := by
  induction treeNodes using Levels.up.induct with
  | case1 => rfl
  | case2 t => rfl
  | case3 left right rest ih =>
      have hpad : pad (left :: right :: rest) = left :: right :: pad rest := by
        cases rest with
        | nil => simp [pad]
        | cons t rest =>
            rw [pad, pad, List.getLast?_cons_cons, List.getLast?_cons_cons]
            have hparity : (left :: right :: t :: rest).length % 2 = (t :: rest).length % 2 := by
              simp only [List.length_cons]
              omega
            rw [hparity]
            split <;> rfl
      rw [hpad, pairs, ih, Levels.up]

/-- **The loop computes the top of the levels.** -/
theorem buildLoop_eq : ∀ (fuel : ℕ) (treeNodes : List MerkleTree),
    buildLoop fuel treeNodes = Levels.top newNode doubleNode fuel treeNodes := by
  intro fuel
  induction fuel with
  | zero => intro treeNodes; rfl
  | succ fuel ih =>
      intro treeNodes
      rw [buildLoop, Levels.top, combine_pad, pairs_pad, Option.bind_some, ih]

/-- The tree over a list is the top of the levels above its leaves. -/
theorem new_eq_top {T : Type} [Hashable T] (data : List T) :
    MerkleTree.new data = Levels.top newNode doubleNode (data.length + 1)
      (data.zipIdx.map fun x => leaf x.2 (Hashable.hash x.1)) := by
  rw [MerkleTree.new, genHelper, buildLoop_eq]

theorem exists_new {T : Type} [Hashable T] {data : List T} (hne : data ≠ []) :
    ∃ tree, MerkleTree.new data = some tree := by
  rw [new_eq_top]
  exact Levels.top_eq_some _ _ _ _ (by simpa using hne) (by simp)

/-! ### The complete tree -/

/-- What a node of the level `k` stands for: the complete tree over the list of leaves. -/
def StandsFor (k : ℕ) (t : MerkleTree) (hashes : List H256) : Prop :=
  Levels.Perfect concatAndHash {p | p ∈ t.combined} k hashes t.hash

theorem standsFor_leaf (index : ℕ) (hash : H256) : StandsFor 0 (leaf index hash) [hash] :=
  Levels.Perfect.leaf hash

theorem standsFor_newNode (k : ℕ) (left right : MerkleTree) (ls rs : List H256)
    (hl : StandsFor k left ls) (hr : StandsFor k right rs) :
    StandsFor (k + 1) (newNode left right) (ls ++ rs) := by
  refine Levels.Perfect.node (hl.mono ?_) (hr.mono ?_) ?_ <;>
    simp +contextual [newNode, MerkleTree.combined]

/-- A copy has no children, so the leaves of the node are there twice. -/
theorem standsFor_doubleNode (k : ℕ) (t : MerkleTree) (ls : List H256) (h : StandsFor k t ls) :
    StandsFor (k + 1) (doubleNode t) (ls ++ ls) := by
  refine Levels.Perfect.node (h.mono ?_) (h.mono ?_) ?_ <;>
    simp +contextual [doubleNode, newNode, dupNode, MerkleTree.combined, MerkleTree.hash]

/-- The lowest level. -/
theorem forall₂_leaves {T : Type} [Hashable T] (data : List T) : ∀ index : ℕ,
    List.Forall₂ (StandsFor 0) ((data.zipIdx index).map fun x => leaf x.2 (Hashable.hash x.1))
      ((data.map Hashable.hash).map fun h => [h]) := by
  induction data with
  | nil => intro index; exact List.Forall₂.nil
  | cons x data ih =>
      intro index
      rw [List.zipIdx_cons]
      exact List.Forall₂.cons (standsFor_leaf index (Hashable.hash x)) (ih (index + 1))

/-- **The root is the value of the complete tree over the padded leaves**, and the leaves are at their
front. -/
theorem perfect_new {T : Type} [Hashable T] {data : List T} (hne : data ≠ []) :
    ∃ tree k, MerkleTree.new data = some tree ∧
      StandsFor k tree (padLeaves (data.map Hashable.hash)) ∧
      data.map Hashable.hash <+: padLeaves (data.map Hashable.hash) := by
  obtain ⟨tree, htree⟩ := exists_new hne
  have htop := htree
  rw [new_eq_top] at htop
  obtain ⟨ls, hls⟩ := Levels.top_eq_some (· ++ ·) (fun l => l ++ l) (data.length + 1)
    ((data.map Hashable.hash).map fun h => [h]) (by simpa using hne) (by simp)
  have hpad : padLeaves (data.map Hashable.hash) = ls := by
    rw [padLeaves, List.length_map, hls, Option.getD_some]
  have hk := Levels.top_rel standsFor_newNode standsFor_doubleNode _ 0 _ _
    (forall₂_leaves data 0) htop hls
  have hfront := Levels.prefix_top _ _ hls
  rw [← List.flatMap_def, List.flatMap_singleton'] at hfront
  rw [hpad]
  exact ⟨tree, _, htree, hk, hfront⟩

/-! ### What a root commits to -/

/-- **What a root commits to.**  For every two lists of elements that are not empty: when `concatAndHash`
does not collide on the pairs combined in their trees and no leaf hash is the hash of such a pair, the roots
are equal exactly when the padded leaves are, and lists of one length with equal roots have equal leaf
hashes. -/
theorem root_eq_iff {T : Type} [Hashable T] (xs ys : List T) (hxs : xs ≠ []) (hys : ys ≠ []) :
    ∃ tx ty, MerkleTree.new xs = some tx ∧ MerkleTree.new ys = some ty ∧
      (Set.InjOn (Function.uncurry concatAndHash) {p | p ∈ tx.combined ∨ p ∈ ty.combined} →
        (∀ x, x ∈ xs ∨ x ∈ ys → ∀ p, p ∈ tx.combined ∨ p ∈ ty.combined →
          Hashable.hash x ≠ Function.uncurry concatAndHash p) →
        (tx.root = ty.root ↔
          padLeaves (xs.map Hashable.hash) = padLeaves (ys.map Hashable.hash)) ∧
        (xs.length = ys.length → tx.root = ty.root →
          xs.map Hashable.hash = ys.map Hashable.hash)) := by
  obtain ⟨tx, kx, htx, hx, hfrontx⟩ := perfect_new hxs
  obtain ⟨ty, ky, hty, hy, hfronty⟩ := perfect_new hys
  refine ⟨tx, ty, htx, hty, ?_⟩
  intro hinj hleaf
  have hpx : Levels.Perfect concatAndHash {p | p ∈ tx.combined ∨ p ∈ ty.combined} kx
      (padLeaves (xs.map Hashable.hash)) tx.root := hx.mono fun _ h => Or.inl h
  have hpy : Levels.Perfect concatAndHash {p | p ∈ tx.combined ∨ p ∈ ty.combined} ky
      (padLeaves (ys.map Hashable.hash)) ty.root := hy.mono fun _ h => Or.inr h
  have hleafx : ∀ z ∈ padLeaves (xs.map Hashable.hash),
      ∀ p ∈ {p | p ∈ tx.combined ∨ p ∈ ty.combined}, z ≠ Function.uncurry concatAndHash p := by
    intro z hz p hp
    obtain ⟨x, hmem, rfl⟩ := List.mem_map.1 (mem_of_mem_padLeaves hz)
    exact hleaf x (Or.inl hmem) p hp
  have hleafy : ∀ z ∈ padLeaves (ys.map Hashable.hash),
      ∀ p ∈ {p | p ∈ tx.combined ∨ p ∈ ty.combined}, z ≠ Function.uncurry concatAndHash p := by
    intro z hz p hp
    obtain ⟨y, hmem, rfl⟩ := List.mem_map.1 (mem_of_mem_padLeaves hz)
    exact hleaf y (Or.inr hmem) p hp
  have hroot : tx.root = ty.root ↔
      padLeaves (xs.map Hashable.hash) = padLeaves (ys.map Hashable.hash) :=
    ⟨hpx.injective hinj hleafx hpy hleafy, hpx.unique hpy⟩
  refine ⟨hroot, ?_⟩
  intro hlen heq
  rw [← hroot.1 heq] at hfronty
  have hlen' : (xs.map Hashable.hash).length = (ys.map Hashable.hash).length := by
    rw [List.length_map, List.length_map, hlen]
  exact (List.prefix_of_prefix_length_le hfrontx hfronty hlen'.le).eq_of_length hlen'

omit [Crypto] in
/-- A primitive whose hashes depend on every byte. -/
@[reducible] def mixingCrypto : Crypto :=
  { sampleCrypto with
    sha256 := fun bytes => BitVec.ofNat 256 (bytes.foldl (fun n b => 257 * n + b.toNat + 1) 0) }

omit [Crypto] in
/-- Numbers that are their own hashes. -/
@[reducible] def sampleHashable : Hashable ℕ := ⟨fun n => BitVec.ofNat 256 n⟩

omit [Crypto] in
/-- A list with the root of a shorter one, whose padding it writes out. -/
theorem root_eq_iff_three :
    letI := mixingCrypto
    letI := sampleHashable
    ∃ tx ty, MerkleTree.new [5, 6, 7] = some tx ∧ MerkleTree.new [5, 6, 7, 7] = some ty ∧
      tx.root = ty.root := by
  let _ := mixingCrypto
  let _ := sampleHashable
  obtain ⟨tx, ty, htx, hty, hroot⟩ := root_eq_iff [5, 6, 7] [5, 6, 7, 7] (by decide) (by decide)
  have hcombined : (MerkleTree.new [5, 6, 7, 7]).map MerkleTree.combined =
      (MerkleTree.new [5, 6, 7]).map MerkleTree.combined := by decide +kernel
  rw [htx, hty, Option.map_some, Option.map_some, Option.some_inj] at hcombined
  have hdistinct : ∀ tree ∈ MerkleTree.new [5, 6, 7],
      ([5, 6, 7].map Hashable.hash ++ tree.combined.map (Function.uncurry concatAndHash)).Nodup := by
    decide +kernel
  obtain ⟨-, hnodup, hleaf⟩ := List.nodup_append.1 (hdistinct tx htx)
  have hinj := List.inj_on_of_nodup_map hnodup
  simp only [hcombined, or_self] at hroot
  refine ⟨tx, ty, htx, hty, (hroot (fun p hp q hq => hinj hp hq) ?_).1.2 (by decide +kernel)⟩
  intro x hx p hp
  exact hleaf _ (List.mem_map_of_mem (by simpa using hx)) _ (List.mem_map_of_mem hp)

end Merkle

end BitcoinClient
