/-
**Merkle trees.**

`src/types/merkle.rs`: the tree over a list of hashable elements, the proofs it gives, and their
verification.  The tree is built from the bottom up, level by level, in one vector that serves as a queue;
on a level with an odd number of nodes the last one is paired with a copy of its hash that has no children
and no index.  A proof is collected by a search for the index, from the leaf up; the verifier does not see
the tree and finds the sides by bisecting the smallest power of two that is not below the number of leaves.

The two agree on every list: the way from leaf `i` up comes from the right exactly at the levels at which
`i` has the bit 1.

Main definitions:

* `BitcoinClient.MerkleTree`, `BitcoinClient.Merkle.genHelper`, `BitcoinClient.Merkle.proofHelper`;
* `BitcoinClient.Merkle.orderProof`, `BitcoinClient.Merkle.verifyHelper`, `BitcoinClient.Merkle.verify`;
* `BitcoinClient.Merkle.Places`, `BitcoinClient.Merkle.Level` — a node covers the leaves of its position,
  and the nodes of a level.

Main results:

* `BitcoinClient.Merkle.genHelper_places` — the root covers all leaves;
* `BitcoinClient.Merkle.orderProof_eq` — the verifier reads the bits of the index;
* `BitcoinClient.Merkle.verify_proof` — **the proofs of the tree verify**.
-/

import BitcoinClient.BitPaths
import BitcoinClient.Types

set_option relaxedAutoImplicit false
set_option autoImplicit false

namespace BitcoinClient

/-- A hashable element. -/
class Hashable (T : Type) where
  hash : T → H256

/-- A node of a Merkle tree; only a leaf has an index. -/
inductive MerkleTree
  | mk (left right : Option MerkleTree) (hash : H256) (index : Option ℕ)

def MerkleTree.hash : MerkleTree → H256
  | mk _ _ hash _ => hash

/-- The bytes of a hash, most significant first. -/
def H256.toBytes (h : H256) : List UInt8 :=
  (List.range 32).map fun k => UInt8.ofNat (h.toNat / 256 ^ (31 - k))

instance H256.instHashable [Crypto] : Hashable H256 where
  hash h := Crypto.sha256 h.toBytes

namespace Merkle

variable [Crypto]

/-! ### The tree -/

/-- Concat left and right, and hash the output. -/
def concatAndHash (left right : H256) : H256 :=
  Crypto.sha256 (H256.toBytes left ++ H256.toBytes right)

def leaf (index : ℕ) (hash : H256) : MerkleTree := .mk none none hash (some index)

/-- The copy of a node that makes the number of nodes even. -/
def dupNode (nodeToDup : MerkleTree) : MerkleTree := .mk none none nodeToDup.hash none

def newNode (left right : MerkleTree) : MerkleTree :=
  .mk (some left) (some right) (concatAndHash left.hash right.hash) none

/-- The last node is duplicated when their number is odd. -/
def pad (treeNodes : List MerkleTree) : List MerkleTree :=
  if treeNodes.length % 2 ≠ 0 then treeNodes ++ (treeNodes.getLast?.map dupNode).toList
  else treeNodes

/-- One level: `count` times, two nodes are removed at the front and the node above them is pushed at the
back; `none` is the panic of a removal. -/
def combine : ℕ → List MerkleTree → Option (List MerkleTree)
  | 0, treeNodes => some treeNodes
  | count + 1, left :: right :: rest => combine count (rest ++ [newNode left right])
  | _ + 1, _ => none

/-- The loop over the levels, in at most `fuel` rounds. -/
def buildLoop : ℕ → List MerkleTree → Option MerkleTree
  | 0, _ => none
  | fuel + 1, treeNodes =>
    if treeNodes.length > 1 then
      (combine ((pad treeNodes).length / 2) (pad treeNodes)).bind (buildLoop fuel)
    else treeNodes.getLast?

/-- A level is shorter than the one below it, so the loop has at most as many rounds as there are
elements. -/
def genHelper {T : Type} [Hashable T] (data : List T) : Option MerkleTree :=
  buildLoop (data.length + 1) (data.zipIdx.map fun x => leaf x.2 (Hashable.hash x.1))

/-- The search for an index: whether it was found, and the hashes collected.  `none` is the `unwrap` of a
missing child. -/
def proofHelper : MerkleTree → List H256 → ℕ → Option (Bool × List H256)
  | .mk none none _ treeIndex, accum, index => some (treeIndex = some index, accum)
  | .mk (some left) (some right) _ _, accum, index =>
    match proofHelper left accum index with
    | none => none
    | some (indexInLeftSubtree, accum) =>
      match proofHelper right accum index with
      | none => none
      | some (indexInRightSubtree, accum) =>
        if indexInLeftSubtree then some (true, accum ++ [right.hash])
        else if indexInRightSubtree then some (true, accum ++ [left.hash])
        else some (false, accum)
  | .mk _ _ _ _, _, _ => none
termination_by structural t => t

end Merkle

namespace MerkleTree

variable [Crypto]

def new {T : Type} [Hashable T] (data : List T) : Option MerkleTree := Merkle.genHelper data

def root (tree : MerkleTree) : H256 := tree.hash

/-- The Merkle proof of the data at an index. -/
def proof (tree : MerkleTree) (index : ℕ) : Option (List H256) :=
  (Merkle.proofHelper tree [] index).map Prod.snd

end MerkleTree

namespace Merkle

variable [Crypto]

/-! ### Verification -/

/-- Rounding up to a power of two, from `high` on.  `none` is the overflow of a `usize`, which comes after
64 rounds at the latest. -/
def roundUp (leafSize : ℕ) : ℕ → ℕ → Option ℕ
  | 0, _ => none
  | fuel + 1, high =>
    if high < leafSize then
      if high * 2 < 2 ^ 64 then roundUp leafSize fuel (high * 2) else none
    else some high

/-- The bisection, which halves an interval of `usize` bounds and so has at most 64 rounds. -/
def bisect (index : ℕ) : ℕ → ℕ → ℕ → List UInt32 → Option (List UInt32)
  | 0, _, _, _ => none
  | fuel + 1, low, high, order =>
    if low ≠ high then
      if high + low < 2 ^ 64 then
        let middle := (high + low) / 2
        if index ≤ middle then bisect index fuel low middle (order ++ [0])
        else bisect index fuel (middle + 1) high (order ++ [1])
      else none
    else some order

/-- The order of each element of a proof, from the root down. -/
def orderProof (index leafSize : ℕ) : Option (List UInt32) :=
  (roundUp leafSize 65 1).bind fun high => bisect index 65 0 (high - 1) []

/-- The loop through the proof; `none` is the `unwrap` of a direction that is missing. -/
def hashLoop : List H256 → H256 → List UInt32 → Option H256
  | [], currhash, _ => some currhash
  | sib :: proof, currhash, hashingOrder =>
    match hashingOrder.getLast? with
    | none => none
    | some direction =>
      hashLoop proof
        (if direction = 0 then concatAndHash currhash sib else concatAndHash sib currhash)
        hashingOrder.dropLast

def verifyHelper (root datum : H256) (proof : List H256) (order : List UInt32) : Option Bool :=
  (hashLoop proof datum order).map fun currhash => currhash = root

/-- Verify that the datum hash with a vector of proofs will produce the Merkle root. -/
def verify (root datum : H256) (proof : List H256) (index leafSize : ℕ) : Option Bool :=
  (orderProof index leafSize).bind fun order => verifyHelper root datum proof order

/-! ### What a node covers -/

/-- The side of a level, as the verifier writes it. -/
def direction (right : Bool) : UInt32 := if right then 1 else 0

/-- The tree `t` stands at the position `p` of the level `j`: the search finds exactly the leaves whose
position on this level is `p`, and the hashes collected lead from the leaf to the hash of `t`. -/
structure Places (leafHash : ℕ → H256) (n j : ℕ) (t : MerkleTree) (p : ℕ) : Prop where
  inside : ∀ i < n, i / 2 ^ j = p → ∀ accum, ∃ sibs,
    proofHelper t accum i = some (true, accum ++ sibs) ∧ sibs.length = j ∧
      BitPaths.climb concatAndHash (leafHash i) ((BitPaths.bits j i).zip sibs) = t.hash
  outside : ∀ i < n, i / 2 ^ j ≠ p → ∀ accum, proofHelper t accum i = some (false, accum)

/-- The nodes of the level `j`: they stand at their positions, there are enough of them for the leaves but
not more, and the levels below were not enough. -/
structure Level (leafHash : ℕ → H256) (n j : ℕ) (treeNodes : List MerkleTree) : Prop where
  places : ∀ p t, treeNodes[p]? = some t → Places leafHash n j t p
  covers : n ≤ treeNodes.length * 2 ^ j
  tight : (treeNodes.length - 1) * 2 ^ j < n
  minimal : ∀ j' < j, 2 ^ j' < n

section Trees

variable {leafHash : ℕ → H256} {n j : ℕ}

/-- A leaf. -/
theorem places_leaf (p : ℕ) : Places leafHash n 0 (leaf p (leafHash p)) p where
  inside i _ hip accum := by
    rw [Nat.pow_zero, Nat.div_one] at hip
    exact ⟨[], by simp [leaf, proofHelper, hip], rfl, by rw [hip]; rfl⟩
  outside i _ hip accum := by
    rw [Nat.pow_zero, Nat.div_one] at hip
    simp [leaf, proofHelper, Ne.symm hip]

/-- A copy without children covers nothing, at a position beyond the leaves. -/
theorem places_dupNode {p : ℕ} (t : MerkleTree) (hp : n ≤ p * 2 ^ j) :
    Places leafHash n j (dupNode t) p where
  inside i hi hip accum := by
    have hlt : i / 2 ^ j < p := by
      rw [Nat.div_lt_iff_lt_mul (Nat.two_pow_pos j)]
      omega
    omega
  outside i _ _ accum := by simp [dupNode, proofHelper]

/-- **A new node covers what its two children cover.** -/
theorem places_newNode {l r : MerkleTree} {q : ℕ} (hl : Places leafHash n j l (2 * q))
    (hr : Places leafHash n j r (2 * q + 1)) : Places leafHash n (j + 1) (newNode l r) q where
  inside i hi hiq accum := by
    rw [BitPaths.div_pow_succ] at hiq
    have hzip : ∀ sibs : List H256, sibs.length = j → ∀ s : H256,
        (BitPaths.bits (j + 1) i).zip (sibs ++ [s]) =
          (BitPaths.bits j i).zip sibs ++ [(i.testBit j, s)] := by
      intro sibs hlen s
      rw [BitPaths.bits_succ, List.zip_append (by rw [BitPaths.length_bits, hlen])]
      rfl
    rcases Nat.mod_two_eq_zero_or_one (i / 2 ^ j) with hmod | hmod
    · -- the leaf is on the left
      have hpos : i / 2 ^ j = 2 * q := by omega
      obtain ⟨sibs, hfound, hlen, hclimb⟩ := hl.inside i hi hpos accum
      have hnot := hr.outside i hi (by omega) (accum ++ sibs)
      refine ⟨sibs ++ [r.hash], ?_, by simp [hlen], ?_⟩
      · simp [newNode, proofHelper, hfound, hnot]
      · rw [hzip sibs hlen, BitPaths.climb_snoc, hclimb, BitPaths.testBit_of_even hpos]
        rfl
    · -- the leaf is on the right
      have hpos : i / 2 ^ j = 2 * q + 1 := by omega
      have hnot := hl.outside i hi (by omega) accum
      obtain ⟨sibs, hfound, hlen, hclimb⟩ := hr.inside i hi hpos accum
      refine ⟨sibs ++ [l.hash], ?_, by simp [hlen], ?_⟩
      · simp [newNode, proofHelper, hfound, hnot]
      · rw [hzip sibs hlen, BitPaths.climb_snoc, hclimb, BitPaths.testBit_of_odd hpos]
        rfl
  outside i hi hiq accum := by
    rw [BitPaths.div_pow_succ] at hiq
    have hnotl := hl.outside i hi (by omega) accum
    have hnotr := hr.outside i hi (by omega) accum
    simp [newNode, proofHelper, hnotl, hnotr]

/-! ### One level -/

/-- The nodes above a list of nodes. -/
def pairs : List MerkleTree → List MerkleTree
  | left :: right :: rest => newNode left right :: pairs rest
  | _ => []

/-- **The queue computes the nodes above.**  What is not reached yet stays at the front. -/
theorem combine_eq : ∀ (count : ℕ) (treeNodes : List MerkleTree), 2 * count ≤ treeNodes.length →
    combine count treeNodes =
      some (treeNodes.drop (2 * count) ++ pairs (treeNodes.take (2 * count))) := by
  intro count
  induction count with
  | zero => intro treeNodes _; simp [combine, pairs]
  | succ count ih =>
      intro treeNodes hlen
      match treeNodes, hlen with
      | left :: right :: rest, hlen =>
          have hrest : 2 * count ≤ rest.length := by
            simp only [List.length_cons] at hlen
            omega
          have htwo : 2 * (count + 1) = 2 * count + 1 + 1 := by omega
          have hmore : 2 * count ≤ (rest ++ [newNode left right]).length := by
            rw [List.length_append]
            omega
          rw [combine, ih _ hmore, htwo, List.drop_succ_cons, List.drop_succ_cons,
            List.take_succ_cons, List.take_succ_cons, pairs, List.drop_append_of_le_length hrest,
            List.take_append_of_le_length hrest, List.append_assoc, List.singleton_append]

theorem length_pairs : ∀ (count : ℕ) (treeNodes : List MerkleTree),
    treeNodes.length = 2 * count → (pairs treeNodes).length = count := by
  intro count
  induction count with
  | zero =>
      intro treeNodes hlen
      rw [List.length_eq_zero_iff.1 hlen]
      rfl
  | succ count ih =>
      intro treeNodes hlen
      match treeNodes, hlen with
      | left :: right :: rest, hlen =>
          simp only [List.length_cons] at hlen
          rw [pairs, List.length_cons, ih rest (by omega)]

/-- The node above two neighbours. -/
theorem getElem?_pairs : ∀ (q : ℕ) (treeNodes : List MerkleTree) (t : MerkleTree),
    (pairs treeNodes)[q]? = some t → ∃ left right, treeNodes[2 * q]? = some left ∧
      treeNodes[2 * q + 1]? = some right ∧ t = newNode left right := by
  intro q
  induction q with
  | zero =>
      intro treeNodes t ht
      match treeNodes, ht with
      | left :: right :: rest, ht =>
          rw [pairs, List.getElem?_cons_zero, Option.some_inj] at ht
          exact ⟨left, right, rfl, rfl, ht.symm⟩
  | succ q ih =>
      intro treeNodes t ht
      match treeNodes, ht with
      | left :: right :: rest, ht =>
          rw [pairs, List.getElem?_cons_succ] at ht
          obtain ⟨l, r, hl, hr, rfl⟩ := ih rest t ht
          exact ⟨l, r, hl, hr, rfl⟩

omit [Crypto] in
/-- The padded level has an even number of nodes, at most one more than before. -/
theorem length_pad (treeNodes : List MerkleTree) :
    (pad treeNodes).length = 2 * ((treeNodes.length + 1) / 2) := by
  rw [pad]
  split
  · rename_i hodd
    cases hlast : treeNodes.getLast? with
    | none =>
        rw [List.getLast?_eq_none_iff] at hlast
        simp [hlast] at hodd
    | some t =>
        simp only [Option.map_some, Option.toList_some, List.length_append, List.length_singleton]
        omega
  · omega

/-- **One round of the loop** replaces the padded level by the nodes above it. -/
theorem combine_pad (treeNodes : List MerkleTree) :
    combine ((pad treeNodes).length / 2) (pad treeNodes) = some (pairs (pad treeNodes)) := by
  have hpad := length_pad treeNodes
  have hhalf : 2 * ((pad treeNodes).length / 2) = (pad treeNodes).length := by omega
  rw [combine_eq _ _ hhalf.le, hhalf, List.drop_length, List.take_length, List.nil_append]

/-- Padding keeps the nodes at their positions. -/
theorem places_pad {treeNodes : List MerkleTree} (h : Level leafHash n j treeNodes) :
    ∀ p t, (pad treeNodes)[p]? = some t → Places leafHash n j t p := by
  intro p t ht
  rw [pad] at ht
  split at ht
  · cases hlast : treeNodes.getLast? with
    | none =>
        simp only [hlast, Option.map_none, Option.toList_none, List.append_nil] at ht
        exact h.places p t ht
    | some x =>
        simp only [hlast, Option.map_some, Option.toList_some] at ht
        rcases Nat.lt_or_ge p treeNodes.length with hlt | hge
        · rw [List.getElem?_append_left hlt] at ht
          exact h.places p t ht
        · -- the copy stands beyond all leaves
          rw [List.getElem?_append_right hge] at ht
          have hp : p - treeNodes.length = 0 := by
            have hbound := (List.getElem?_eq_some_iff.1 ht).1
            rw [List.length_singleton] at hbound
            omega
          rw [hp, List.getElem?_cons_zero, Option.some_inj] at ht
          rw [← ht]
          exact places_dupNode x (h.covers.trans (Nat.mul_le_mul_right _ (by omega)))
  · exact h.places p t ht

/-- **The next level.** -/
theorem level_succ {treeNodes : List MerkleTree} (h : Level leafHash n j treeNodes)
    (hlen : 1 < treeNodes.length) :
    ∃ nodes, combine ((pad treeNodes).length / 2) (pad treeNodes) = some nodes ∧
      nodes.length = (treeNodes.length + 1) / 2 ∧ Level leafHash n (j + 1) nodes := by
  have hlength := length_pairs _ _ (length_pad treeNodes)
  have hpow : 2 ^ (j + 1) = 2 * 2 ^ j := by rw [Nat.pow_succ, Nat.mul_comm]
  have hcovers := h.covers
  have htight := h.tight
  refine ⟨pairs (pad treeNodes), combine_pad treeNodes, hlength, ?_, ?_, ?_, ?_⟩
  · intro q t ht
    obtain ⟨l, r, hl, hr, rfl⟩ := getElem?_pairs q _ t ht
    exact places_newNode (places_pad h _ l hl) (places_pad h _ r hr)
  · rw [hlength, hpow, ← Nat.mul_assoc]
    exact hcovers.trans (Nat.mul_le_mul_right _ (by omega))
  · rw [hlength, hpow, ← Nat.mul_assoc]
    exact lt_of_le_of_lt (Nat.mul_le_mul_right _ (by omega)) htight
  · intro j' hj'
    rcases Nat.lt_succ_iff_lt_or_eq.1 hj' with hlt | rfl
    · exact h.minimal j' hlt
    · refine lt_of_le_of_lt ?_ htight
      exact Nat.le_mul_of_pos_left _ (by omega)

/-- **The loop over the levels ends at one node** that covers all leaves. -/
theorem buildLoop_places : ∀ (fuel j : ℕ) (treeNodes : List MerkleTree),
    Level leafHash n j treeNodes → treeNodes.length < fuel → 0 < n →
      ∃ k t, buildLoop fuel treeNodes = some t ∧ Places leafHash n k t 0 ∧ n ≤ 2 ^ k ∧
        ∀ k' < k, 2 ^ k' < n := by
  intro fuel
  induction fuel with
  | zero => intro j treeNodes _ hlt; omega
  | succ fuel ih =>
      intro j treeNodes h hlt hn
      rw [buildLoop]
      split
      · rename_i hlen
        obtain ⟨nodes, hcomb, hnodes, hlevel⟩ := level_succ h hlen
        rw [hcomb, Option.bind_some]
        exact ih (j + 1) nodes hlevel (by omega) hn
      · rename_i hlen
        have hcovers := h.covers
        have hone : treeNodes.length = 1 := by
          rcases Nat.eq_zero_or_pos treeNodes.length with hzero | hpos
          · rw [hzero, Nat.zero_mul] at hcovers
            omega
          · omega
        obtain ⟨t, rfl⟩ := List.length_eq_one_iff.1 hone
        rw [List.length_singleton, Nat.one_mul] at hcovers
        exact ⟨j, t, rfl, h.places 0 t rfl, hcovers, h.minimal⟩

end Trees

/-- The leaves are the lowest level. -/
theorem level_zero {T : Type} [Hashable T] {data : List T} {leafHash : ℕ → H256}
    (hleaf : ∀ i x, data[i]? = some x → leafHash i = Hashable.hash x) (hne : data ≠ []) :
    Level leafHash data.length 0 (data.zipIdx.map fun x => leaf x.2 (Hashable.hash x.1)) := by
  have hpos : 0 < data.length := List.length_pos_iff.2 hne
  refine ⟨?_, ?_, ?_, ?_⟩
  · intro p t ht
    rw [List.getElem?_map, List.getElem?_zipIdx, Option.map_map, Option.map_eq_some_iff] at ht
    obtain ⟨x, hx, rfl⟩ := ht
    simp only [Function.comp_apply, Nat.zero_add]
    rw [← hleaf p x hx]
    exact places_leaf p
  · rw [List.length_map, List.length_zipIdx, Nat.pow_zero, Nat.mul_one]
  · rw [List.length_map, List.length_zipIdx, Nat.pow_zero, Nat.mul_one]
    omega
  · intro j' hj'
    omega

/-- **The root covers all leaves**, on the lowest level on which one node can. -/
theorem genHelper_places {T : Type} [Hashable T] {data : List T} {leafHash : ℕ → H256}
    (hleaf : ∀ i x, data[i]? = some x → leafHash i = Hashable.hash x) (hne : data ≠ []) :
    ∃ k t, genHelper data = some t ∧ Places leafHash data.length k t 0 ∧ data.length ≤ 2 ^ k ∧
      ∀ k' < k, 2 ^ k' < data.length := by
  have hlen : (data.zipIdx.map fun x => leaf x.2 (Hashable.hash x.1)).length <
      data.length + 1 := by
    rw [List.length_map, List.length_zipIdx]
    omega
  exact buildLoop_places (data.length + 1) 0 _ (level_zero hleaf hne) hlen
    (List.length_pos_iff.2 hne)

/-! ### The order -/

omit [Crypto] in
/-- The rounding ends at the smallest power of two that is not below the number of leaves. -/
theorem roundUp_eq {leafSize k : ℕ} (hle : leafSize ≤ 2 ^ k) (hlt : ∀ k' < k, 2 ^ k' < leafSize)
    (hk : k ≤ 63) : ∀ (d a fuel : ℕ), a + d = k → d < fuel →
      roundUp leafSize fuel (2 ^ a) = some (2 ^ k) := by
  intro d
  induction d with
  | zero =>
      intro a fuel ha hfuel
      obtain ⟨fuel, rfl⟩ := Nat.exists_eq_succ_of_ne_zero (Nat.ne_of_gt hfuel)
      rw [Nat.add_zero] at ha
      rw [roundUp, ha, if_neg (Nat.not_lt.2 hle)]
  | succ d ih =>
      intro a fuel ha hfuel
      obtain ⟨fuel, rfl⟩ := Nat.exists_eq_succ_of_ne_zero (Nat.ne_of_gt (by omega : 0 < fuel))
      have hfits : 2 ^ (a + 1) < 2 ^ 64 := Nat.pow_lt_pow_right (by omega) (by omega)
      rw [roundUp, if_pos (hlt a (by omega)), ← Nat.pow_succ, if_pos hfits]
      exact ih (a + 1) fuel (by omega) (by omega)

omit [Crypto] in
/-- **The bisection reads the bits of the index**, the highest first. -/
theorem bisect_eq {index : ℕ} : ∀ (k a fuel : ℕ) (order : List UInt32), index / 2 ^ k = a →
    (a + 1) * 2 ^ k ≤ 2 ^ 63 → k < fuel →
      bisect index fuel (a * 2 ^ k) (a * 2 ^ k + 2 ^ k - 1) order =
        some (order ++ (BitPaths.bits k index).reverse.map direction) := by
  intro k
  induction k with
  | zero =>
      intro a fuel order _ _ hfuel
      obtain ⟨fuel, rfl⟩ := Nat.exists_eq_succ_of_ne_zero (Nat.ne_of_gt hfuel)
      simp [bisect]
  | succ k ih =>
      intro a fuel order ha hbound hfuel
      obtain ⟨fuel, rfl⟩ := Nat.exists_eq_succ_of_ne_zero (Nat.ne_of_gt (by omega : 0 < fuel))
      have hpos : 0 < 2 ^ k := Nat.two_pow_pos k
      have hpow : 2 ^ (k + 1) = 2 * 2 ^ k := by rw [Nat.pow_succ, Nat.mul_comm]
      have hlow : a * 2 ^ (k + 1) = 2 * a * 2 ^ k := by rw [hpow, Nat.mul_left_comm, Nat.mul_assoc]
      have hhigh : (a + 1) * 2 ^ (k + 1) = 2 * a * 2 ^ k + 2 * 2 ^ k := by
        rw [Nat.add_mul, hlow, Nat.one_mul, hpow]
      have hsum : a * 2 ^ (k + 1) + 2 ^ (k + 1) - 1 + a * 2 ^ (k + 1) < 2 ^ 64 := by omega
      have hne : a * 2 ^ (k + 1) ≠ a * 2 ^ (k + 1) + 2 ^ (k + 1) - 1 := by omega
      have hbit := BitPaths.le_middle_iff ha
      have hodd : 2 * a * 2 ^ k + 2 ^ k - 1 + 1 = (2 * a + 1) * 2 ^ k := by
        rw [Nat.add_mul, Nat.one_mul]
        omega
      rw [bisect, if_pos hne, if_pos hsum, BitPaths.middle_eq, BitPaths.reverse_bits_succ,
        List.map_cons]
      dsimp only
      split
      · -- the lower half
        rename_i hle
        have hpos' := hbit.1 hle
        rw [hlow, ih (2 * a) fuel _ hpos' (by rw [Nat.add_mul]; omega) (by omega),
          BitPaths.testBit_of_even hpos', List.append_assoc]
        rfl
      · -- the upper half
        rename_i hgt
        have hpos' : index / 2 ^ k = 2 * a + 1 := by
          have hne' := mt hbit.2 hgt
          rw [BitPaths.div_pow_succ] at ha
          omega
        have hend : a * 2 ^ (k + 1) + 2 ^ (k + 1) - 1 = (2 * a + 1) * 2 ^ k + 2 ^ k - 1 := by
          rw [hlow, hpow, Nat.add_mul, Nat.one_mul]
          omega
        rw [hodd, hend, ih (2 * a + 1) fuel _ hpos' (by rw [Nat.add_mul, Nat.add_mul]; omega)
          (by omega), BitPaths.testBit_of_odd hpos', List.append_assoc]
        rfl

omit [Crypto] in
/-- **The verifier reads the bits of the index**, as many as the tree has levels. -/
theorem orderProof_eq {index leafSize k : ℕ} (hle : leafSize ≤ 2 ^ k)
    (hlt : ∀ k' < k, 2 ^ k' < leafSize) (hk : k ≤ 63) (hindex : index < 2 ^ k) :
    orderProof index leafSize = some ((BitPaths.bits k index).reverse.map direction) := by
  have hround := roundUp_eq hle hlt hk k 0 65 (Nat.zero_add k) (by omega)
  have hzero : index / 2 ^ k = 0 := Nat.div_eq_of_lt hindex
  have hbound : (0 + 1) * 2 ^ k ≤ 2 ^ 63 := by
    rw [Nat.zero_add, Nat.one_mul]
    exact Nat.pow_le_pow_right (by omega) hk
  have hbits := bisect_eq k 0 65 [] hzero hbound (by omega)
  rw [Nat.zero_mul, Nat.zero_add, List.nil_append] at hbits
  rw [Nat.pow_zero] at hround
  rw [orderProof, hround, Option.bind_some, hbits]

/-! ### The hashes -/

omit [Crypto] in
/-- The verifier tells the sides apart by comparing a direction with 0. -/
theorem ite_direction {α : Type} (right : Bool) (x y : α) :
    (if direction right = 0 then x else y) = if right then y else x := by
  cases right <;> rfl

/-- **The loop climbs**: it takes the directions from the end, as many as the proof is long. -/
theorem hashLoop_eq : ∀ (sides : List Bool) (proof : List H256) (currhash : H256),
    proof.length ≤ sides.length → hashLoop proof currhash (sides.reverse.map direction) =
      some (BitPaths.climb concatAndHash currhash (sides.zip proof)) := by
  intro sides
  induction sides with
  | nil =>
      intro proof currhash hlen
      rw [List.length_nil, Nat.le_zero, List.length_eq_zero_iff] at hlen
      subst hlen
      rfl
  | cons right sides ih =>
      intro proof currhash hlen
      match proof, hlen with
      | [], _ => rfl
      | sib :: proof, hlen =>
          rw [hashLoop, List.reverse_cons, List.map_append, List.map_singleton,
            List.getLast?_concat, List.dropLast_concat]
          simp only [ite_direction]
          rw [ih proof _ (Nat.le_of_succ_le_succ hlen), List.zip_cons_cons, BitPaths.climb_cons]

/-- **The proof that the tree gives** has a hash for each level, and they lead from the leaf to the root. -/
theorem exists_proof {T : Type} [Hashable T] (data : List T) {i : ℕ} (hi : i < data.length) :
    ∃ tree proof, MerkleTree.new data = some tree ∧ tree.proof i = some proof ∧
      BitPaths.climb concatAndHash (Hashable.hash data[i])
        ((BitPaths.bits proof.length i).zip proof) = tree.root ∧
      data.length ≤ 2 ^ proof.length ∧ ∀ k' < proof.length, 2 ^ k' < data.length := by
  have hne : data ≠ [] := by
    rintro rfl
    exact Nat.not_lt_zero i hi
  have hleaf : ∀ (j : ℕ) (x : T), data[j]? = some x →
      (fun j : ℕ => (data[j]?.map Hashable.hash).getD 0) j = Hashable.hash x := by
    intro j x hx
    simp [hx]
  obtain ⟨k, tree, htree, hplaces, hle, hlt⟩ := genHelper_places hleaf hne
  have hroot : i / 2 ^ k = 0 := Nat.div_eq_of_lt (hi.trans_le hle)
  obtain ⟨proof, hproof, rfl, hclimb⟩ := hplaces.inside i hi hroot []
  simp only [List.getElem?_eq_getElem hi, Option.map_some, Option.getD_some] at hclimb
  refine ⟨tree, proof, htree, ?_, hclimb, hle, hlt⟩
  rw [MerkleTree.proof, hproof]
  rfl

/-- **The proofs of the tree verify**, whatever the number of elements is: the root and the proof exist, and
the verifier accepts the element at its index. -/
theorem verify_proof {T : Type} [Hashable T] (data : List T) (hmax : data.length ≤ 2 ^ 63) :
    ∀ i (hi : i < data.length), ∃ tree proof, MerkleTree.new data = some tree ∧
      tree.proof i = some proof ∧
      verify tree.root (Hashable.hash data[i]) proof i data.length = some true := by
  intro i hi
  obtain ⟨tree, proof, htree, hproof, hclimb, hle, hlt⟩ := exists_proof data hi
  have hk : proof.length ≤ 63 := by
    by_contra hgt
    exact absurd (hlt 63 (by omega)) (Nat.not_lt.2 hmax)
  have hsides : (BitPaths.bits proof.length i).length = proof.length := BitPaths.length_bits _ i
  refine ⟨tree, proof, htree, hproof, ?_⟩
  rw [verify, orderProof_eq hle hlt hk (hi.trans_le hle), Option.bind_some, verifyHelper,
    hashLoop_eq _ _ _ hsides.ge, hclimb, Option.map_some]
  simp

omit [Crypto] in
/-- Three leaves: the proof of the last one has a copy of its own hash. -/
theorem verify_proof_three :
    letI := sampleCrypto
    let data : List H256 := [5, 6, 7]
    ∃ tree proof, MerkleTree.new data = some tree ∧ tree.proof 2 = some proof ∧
      verify tree.root (Hashable.hash (7 : H256)) proof 2 3 = some true :=
  @verify_proof sampleCrypto H256 (@H256.instHashable sampleCrypto) [5, 6, 7] (by decide) 2 (by decide)

end Merkle

end BitcoinClient
