/-
**Malformed Merkle proofs.**

The verifier of `src/types/merkle.rs` compares neither the length of a proof with the number of levels nor
the index with the number of leaves.  It takes one direction for each hash of the proof, the one of the
lowest bit first.  A proof that is too long runs out of directions, and the verifier panics.  A proof that is
too short ends at the root after fewer levels, so it begins at an inner node.  An index beyond the leaves
leads to a copy of a leaf or, beyond the copies, to the last of them.

What is accepted is therefore what the tree has at the end of a way down from the root, as many levels as
the proof has hashes, by the bits of the index that are read.

The directions come from bisecting a power of two that is found by doubling, and the doubling overflows when
the number of leaves is above `2 ^ 63`; up to there the directions are right for every index.

Main definitions:

* `BitcoinClient.MerkleTree.descend` — the end of a way down, with the hashes beside the way;
* `BitcoinClient.Merkle.Complete` — all ways down have the same length when copies stand for what they copy.

Main results:

* `BitcoinClient.Merkle.orderProof_min` — the directions for any index;
* `BitcoinClient.Merkle.orderProof_expansion_iff` — **when the directions are the bits of the index**;
* `BitcoinClient.Merkle.exists_descend` — the hashes beside a way down lead up to the root again;
* `BitcoinClient.Merkle.malformed_rejected_iff` — **which malformed proofs are rejected**;
* `BitcoinClient.Merkle.malformed_not_rejected` — a proof that is too long is fatal.
-/

import BitcoinClient.MerkleRoots
import BitcoinClient.MerkleSoundness

set_option relaxedAutoImplicit false
set_option autoImplicit false

namespace BitcoinClient

/-- A copy of a node has no children and no index. -/
def MerkleTree.isCopy : MerkleTree → Bool
  | .mk none none _ none => true
  | _ => false

/-- What the tree has at the end of a way down: the hash of the node there, and the hashes beside the way,
the lowest first.  A copy stands for the node on its left. -/
def MerkleTree.descend : MerkleTree → List Bool → Option (H256 × List H256)
  | t, [] => some (t.hash, [])
  | .mk (some left) (some right) _ _, true :: sides =>
    ((if right.isCopy then left else right).descend sides).map fun x => (x.1, x.2 ++ [left.hash])
  | .mk (some left) (some right) _ _, false :: sides =>
    (left.descend sides).map fun x => (x.1, x.2 ++ [right.hash])
  | .mk _ _ _ _, _ :: _ => none
termination_by structural _ sides => sides

namespace Merkle

/-! ### The directions -/

section Directions

variable {leafSize : ℕ}

/-- **A bisection takes an index beyond the interval for the last one of it.** -/
theorem bisect_min : ∀ (fuel index low high : ℕ) (order : List UInt32), low ≤ high →
    bisect index fuel low high order = bisect (min index high) fuel low high order := by
  intro fuel
  induction fuel with
  | zero => intro index low high order _; rfl
  | succ fuel ih =>
      intro index low high order hle
      rw [bisect, bisect]
      split
      · rename_i hne
        split
        · have hmiddle : (high + low) / 2 < high := by omega
          have hside : index ≤ (high + low) / 2 ↔ min index high ≤ (high + low) / 2 := by omega
          simp only [hside]
          split
          · -- both are cut off at the middle
            have hmin : min (min index high) ((high + low) / 2) = min index ((high + low) / 2) := by omega
            rw [ih index low _ _ (by omega), ih (min index high) low _ _ (by omega), hmin]
          · exact ih index _ high _ (by omega)
        · rfl
      · rfl

/-- **The directions for any index**: the bits of the index, or those of the last number with as many. -/
theorem orderProof_min (hsize : leafSize ≤ 2 ^ 63) (index : ℕ) :
    orderProof index leafSize = some ((BitPaths.bits (Nat.clog 2 leafSize)
      (min index (2 ^ Nat.clog 2 leafSize - 1))).reverse.map direction) := by
  have hk : Nat.clog 2 leafSize ≤ 63 := Nat.clog_le_of_le_pow hsize
  have hle : leafSize ≤ 2 ^ Nat.clog 2 leafSize := Nat.le_pow_clog Nat.one_lt_two leafSize
  have hlt : ∀ k' < Nat.clog 2 leafSize, 2 ^ k' < leafSize := fun k' => Nat.pow_lt_of_lt_clog
  have hround := roundUp_eq hle hlt hk _ 0 65 (Nat.zero_add _) (by omega)
  have hpos : 0 < 2 ^ Nat.clog 2 leafSize := Nat.two_pow_pos _
  rw [Nat.pow_zero] at hround
  rw [← orderProof_eq hle hlt hk (by omega), orderProof, orderProof, hround, Option.bind_some,
    Option.bind_some, bisect_min _ _ _ _ _ (Nat.zero_le _)]

theorem toNat_direction (right : Bool) : (direction right).toNat = right.toNat := by
  cases right <;> rfl

/-- **When the directions are right.**  For every index and number of leaves: `order_proof` returns as many
directions as the logarithm of the number of leaves says, rounded up, and for an index of a leaf these are
its binary digits, the highest first, exactly if the leaves can be rounded up to a power of two below
`2 ^ 64`. -/
theorem orderProof_expansion_iff (index leafSize : ℕ) :
    (∃ order, orderProof index leafSize = some order ∧ order.length = Nat.clog 2 leafSize ∧
      (index < leafSize → (∀ digit ∈ order, digit = 0 ∨ digit = 1) ∧
        Nat.ofDigits 2 (order.reverse.map UInt32.toNat) = index)) ↔ leafSize ≤ 2 ^ 63 := by
  constructor
  · rintro ⟨order, horder, -, -⟩
    exact le_of_orderProof horder
  · intro hsize
    refine ⟨_, orderProof_min hsize index, ?_, fun hindex => ⟨?_, ?_⟩⟩
    · rw [List.length_map, List.length_reverse, BitPaths.length_bits]
    · intro digit hdigit
      obtain ⟨right, -, rfl⟩ := List.mem_map.1 hdigit
      cases right with
      | false => exact Or.inl rfl
      | true => exact Or.inr rfl
    · have hlt : index < 2 ^ Nat.clog 2 leafSize :=
        hindex.trans_le (Nat.le_pow_clog Nat.one_lt_two leafSize)
      have hdigits : UInt32.toNat ∘ direction = Bool.toNat := funext toNat_direction
      rw [Nat.min_eq_left (Nat.le_sub_one_of_lt hlt), ← List.map_reverse, List.reverse_reverse,
        List.map_map, hdigits, BitPaths.ofDigits_bits, Nat.mod_eq_of_lt hlt]

/-- The doubling overflows from `2 ^ 63 + 1` leaves on. -/
theorem orderProof_overflow :
    ¬ ∀ index < 2 ^ 64, ∀ leafSize < 2 ^ 64, ∃ order, orderProof index leafSize = some order ∧
      order.length = Nat.clog 2 leafSize ∧
        (index < leafSize → (∀ digit ∈ order, digit = 0 ∨ digit = 1) ∧
          Nat.ofDigits 2 (order.reverse.map UInt32.toNat) = index) := by
  intro h
  obtain ⟨order, horder, -, -⟩ := h 0 (by omega) (2 ^ 63 + 1) (by omega)
  exact absurd (le_of_orderProof horder) (by omega)

variable [Crypto]

/-- The loop panics when the directions run out. -/
theorem hashLoop_eq_none : ∀ (sides : List Bool) (proof : List H256) (currhash : H256),
    sides.length < proof.length → hashLoop proof currhash (sides.reverse.map direction) = none := by
  intro sides
  induction sides with
  | nil =>
      intro proof currhash hlen
      obtain ⟨sib, proof, rfl⟩ := List.exists_cons_of_length_pos hlen
      rfl
  | cons right sides ih =>
      intro proof currhash hlen
      obtain ⟨sib, proof, rfl⟩ := List.exists_cons_of_length_pos (Nat.zero_lt_of_lt hlen)
      rw [hashLoop, List.reverse_cons, List.map_append, List.map_singleton, List.getLast?_concat,
        List.dropLast_concat]
      exact ih proof _ (Nat.lt_of_succ_lt_succ hlen)

end Directions

/-! ### The verification of any proof -/

section Verification

variable [Crypto] {root datum : H256} {p : List H256} {index leafSize : ℕ}

theorem verify_eq_none_of_lt (hsize : 2 ^ 63 < leafSize) : verify root datum p index leafSize = none := by
  cases horder : orderProof index leafSize with
  | none => rw [verify, horder, Option.bind_none]
  | some order => exact absurd (le_of_orderProof horder) (Nat.not_le.2 hsize)

/-- **A proof that is too long is fatal.** -/
theorem verify_eq_none_of_long (hsize : leafSize ≤ 2 ^ 63) (hlong : Nat.clog 2 leafSize < p.length) :
    verify root datum p index leafSize = none := by
  rw [verify, orderProof_min hsize, Option.bind_some, verifyHelper,
    hashLoop_eq_none _ _ _ (by rwa [BitPaths.length_bits]), Option.map_none]

/-- **Any other proof is climbed by its own length.** -/
theorem verify_eq_climb (hsize : leafSize ≤ 2 ^ 63) (hlen : p.length ≤ Nat.clog 2 leafSize) :
    verify root datum p index leafSize = some (decide (BitPaths.climb concatAndHash datum
      ((BitPaths.bits p.length (min index (2 ^ Nat.clog 2 leafSize - 1))).zip p) = root)) := by
  rw [verify, orderProof_min hsize, Option.bind_some, verifyHelper,
    hashLoop_eq _ _ _ (by rwa [BitPaths.length_bits]), Option.map_some, BitPaths.zip_bits hlen]

theorem verifyPairs_eq_climbPairs (hsize : leafSize ≤ 2 ^ 63) (hlen : p.length ≤ Nat.clog 2 leafSize) :
    verifyPairs datum p index leafSize = BitPaths.climbPairs concatAndHash datum
      ((BitPaths.bits p.length (min index (2 ^ Nat.clog 2 leafSize - 1))).zip p) := by
  rw [verifyPairs, orderProof_min hsize, Option.map_some, Option.getD_some,
    hashPairs_eq _ _ _ (by rwa [BitPaths.length_bits]), BitPaths.zip_bits hlen]

end Verification

/-! ### The ways down -/

section Descents

variable [Crypto]

/-- A tree of a height: all ways down have this length when copies stand for what they copy. -/
inductive Complete : ℕ → MerkleTree → Prop
  | leaf (index : ℕ) (hash : H256) : Complete 0 (leaf index hash)
  | newNode {k : ℕ} {l r : MerkleTree} : Complete k l → Complete k r → Complete (k + 1) (newNode l r)
  | doubleNode {k : ℕ} {t : MerkleTree} : Complete k t → Complete (k + 1) (doubleNode t)

/-- **The tree over a list is complete**, with as many levels as the proofs are expected to have. -/
theorem complete_new {T : Type} [Hashable T] {data : List T} (hne : data ≠ []) :
    ∃ tree, MerkleTree.new data = some tree ∧ Complete (Nat.clog 2 data.length) tree := by
  obtain ⟨tree, htree⟩ := exists_new hne
  have htop := htree
  rw [new_eq_top] at htop
  have hleaves : List.Forall₂ (fun t (_ : MerkleTree) => Complete 0 t)
      (data.zipIdx.map fun x => leaf x.2 (Hashable.hash x.1))
      (data.zipIdx.map fun x => leaf x.2 (Hashable.hash x.1)) := by
    rw [List.forall₂_same]
    intro t ht
    obtain ⟨x, -, rfl⟩ := List.mem_map.1 ht
    exact .leaf _ _
  have hcomplete := Levels.top_rel (R := fun k t _ => Complete k t)
    (fun _ _ _ _ _ hl hr => .newNode hl hr) (fun _ _ _ ht => .doubleNode ht) _ 0 _ _ hleaves htop htop
  rw [Nat.zero_add, List.length_map, List.length_zipIdx] at hcomplete
  exact ⟨tree, htree, hcomplete⟩

theorem Complete.not_isCopy {k : ℕ} {t : MerkleTree} (h : Complete k t) : t.isCopy = false := by
  cases h <;> rfl

/-- The way down `sides` has the end `x` and the hashes `s` beside it, and these lead up to the root. -/
structure Descent (t : MerkleTree) (sides : List Bool) (x : H256) (s : List H256) : Prop where
  eq_some : t.descend sides = some (x, s)
  length_eq : s.length = sides.length
  climb_eq : BitPaths.climb concatAndHash x (sides.reverse.zip s) = t.hash
  combined : ∀ z ∈ BitPaths.climbPairs concatAndHash x (sides.reverse.zip s), z ∈ t.combined

theorem descent_nil (t : MerkleTree) : Descent t [] t.hash [] where
  eq_some := by rw [MerkleTree.descend]
  length_eq := rfl
  climb_eq := rfl
  combined z hz := by cases hz

omit [Crypto] in
/-- One level more, at the upper end. -/
theorem zip_reverse_cons {sides : List Bool} {s : List H256} (h : s.length = sides.length) (right : Bool)
    (sib : H256) : (right :: sides).reverse.zip (s ++ [sib]) = sides.reverse.zip s ++ [(right, sib)] := by
  rw [List.reverse_cons, List.zip_append (by rw [List.length_reverse, h])]
  rfl

/-- A way down that begins on the left. -/
theorem Descent.left {l r : MerkleTree} {sides : List Bool} {x : H256} {s : List H256}
    (h : Descent l sides x s) : Descent (newNode l r) (false :: sides) x (s ++ [r.hash]) where
  eq_some := by rw [newNode, MerkleTree.descend, h.eq_some, Option.map_some]
  length_eq := by rw [List.length_append, h.length_eq]; rfl
  climb_eq := by
    rw [zip_reverse_cons h.length_eq, BitPaths.climb_snoc, h.climb_eq]
    rfl
  combined := by
    rw [zip_reverse_cons h.length_eq, BitPaths.climbPairs_snoc, h.climb_eq, List.forall_mem_append]
    refine ⟨fun z hz => ?_, fun z hz => ?_⟩
    · exact List.mem_cons_of_mem _ (List.mem_append_left _ (h.combined z hz))
    · rw [List.mem_singleton.1 hz]
      exact List.mem_cons_self ..

/-- A way down that begins on the right, at a node or at the node that is copied there. -/
theorem Descent.right {l r t : MerkleTree} (ht : (if r.isCopy then l else r) = t) (hhash : t.hash = r.hash)
    {sides : List Bool} {x : H256} {s : List H256} (h : Descent t sides x s) :
    Descent (newNode l r) (true :: sides) x (s ++ [l.hash]) where
  eq_some := by rw [newNode, MerkleTree.descend, ht, h.eq_some, Option.map_some]
  length_eq := by rw [List.length_append, h.length_eq]; rfl
  climb_eq := by
    rw [zip_reverse_cons h.length_eq, BitPaths.climb_snoc, h.climb_eq, hhash]
    rfl
  combined := by
    have hsub : ∀ z ∈ t.combined, z ∈ l.combined ++ r.combined := by
      rw [← ht]
      split
      · exact fun _ => List.mem_append_left _
      · exact fun _ => List.mem_append_right _
    rw [zip_reverse_cons h.length_eq, BitPaths.climbPairs_snoc, h.climb_eq, hhash, List.forall_mem_append]
    refine ⟨fun z hz => ?_, fun z hz => ?_⟩
    · exact List.mem_cons_of_mem _ (hsub z (h.combined z hz))
    · rw [List.mem_singleton.1 hz]
      exact List.mem_cons_self ..

/-- **Every way down that is not too long ends somewhere**, and the hashes beside it lead up again. -/
theorem exists_descend {k : ℕ} {t : MerkleTree} (h : Complete k t) :
    ∀ sides : List Bool, sides.length ≤ k → ∃ x s, Descent t sides x s := by
  induction h with
  | leaf index hash =>
      intro sides hlen
      rw [List.length_eq_zero_iff.1 (Nat.le_zero.1 hlen)]
      exact ⟨_, _, descent_nil _⟩
  | @newNode k l r _ hr ihl ihr =>
      intro sides hlen
      match sides, hlen with
      | [], _ => exact ⟨_, _, descent_nil _⟩
      | false :: sides, hlen =>
          obtain ⟨x, s, hdesc⟩ := ihl sides (Nat.le_of_succ_le_succ hlen)
          exact ⟨_, _, hdesc.left⟩
      | true :: sides, hlen =>
          obtain ⟨x, s, hdesc⟩ := ihr sides (Nat.le_of_succ_le_succ hlen)
          exact ⟨_, _, hdesc.right (if_neg (by rw [hr.not_isCopy]; exact Bool.false_ne_true)) rfl⟩
  | @doubleNode k t _ ih =>
      intro sides hlen
      match sides, hlen with
      | [], _ => exact ⟨_, _, descent_nil _⟩
      | false :: sides, hlen =>
          obtain ⟨x, s, hdesc⟩ := ih sides (Nat.le_of_succ_le_succ hlen)
          exact ⟨_, _, hdesc.left⟩
      | true :: sides, hlen =>
          obtain ⟨x, s, hdesc⟩ := ih sides (Nat.le_of_succ_le_succ hlen)
          exact ⟨_, _, Descent.right (l := t) (r := dupNode t) (if_pos rfl) rfl hdesc⟩

end Descents

/-! ### Malformed proofs -/

section Malformed

variable [Crypto]

/-- **Which proofs are accepted**: those that the tree has at the end of a way down. -/
theorem verify_eq_true_iff {tree : MerkleTree} {leafSize : ℕ}
    (hcomplete : Complete (Nat.clog 2 leafSize) tree) (hsize : leafSize ≤ 2 ^ 63) {datum : H256}
    {p : List H256} {index : ℕ} (hlen : p.length ≤ Nat.clog 2 leafSize)
    (hinj : Set.InjOn (Function.uncurry concatAndHash)
      {x | x ∈ verifyPairs datum p index leafSize ∨ x ∈ tree.combined}) :
    verify tree.root datum p index leafSize = some true ↔
      tree.descend (BitPaths.bits p.length (min index (2 ^ Nat.clog 2 leafSize - 1))).reverse =
        some (datum, p) := by
  obtain ⟨x, s, hdesc⟩ := exists_descend hcomplete
    (BitPaths.bits p.length (min index (2 ^ Nat.clog 2 leafSize - 1))).reverse
    (by rwa [List.length_reverse, BitPaths.length_bits])
  have hlength := hdesc.length_eq
  have hclimb := hdesc.climb_eq
  have hcombined := hdesc.combined
  rw [List.length_reverse] at hlength
  rw [List.reverse_reverse] at hclimb hcombined
  rw [verify_eq_climb hsize hlen, hdesc.eq_some, Option.some_inj, Option.some_inj, decide_eq_true_eq,
    Prod.mk.injEq, MerkleTree.root, ← hclimb]
  constructor
  · intro hmeet
    rw [verifyPairs_eq_climbPairs hsize hlen] at hinj
    obtain ⟨rfl, rfl⟩ := BitPaths.climb_injective concatAndHash hinj _ _ _ _ _
      (BitPaths.length_bits _ _).symm hlength (fun _ => Or.inl) (fun z hz => Or.inr (hcombined z hz)) hmeet
    exact ⟨rfl, rfl⟩
  · rintro ⟨rfl, rfl⟩
    rfl

/-- **Which malformed proofs are rejected.**  For every list that is not empty, and every element, index and
proof of which the index is beyond the leaves or the proof has not as many hashes as the tree has levels:
when `concatAndHash` does not collide on the pairs hashed in the verification and in the tree, the verifier
returns `false` exactly if the leaves can be rounded up to a power of two, the proof is not too long, and the
tree has not this element and proof at the end of the way down that the bits of the index take. -/
theorem malformed_rejected_iff {T : Type} [Hashable T] (data : List T) (hne : data ≠ []) :
    ∃ tree, MerkleTree.new data = some tree ∧ ∀ (datum : H256) (index : ℕ) (p : List H256),
      p.length ≠ Nat.clog 2 data.length ∨ data.length ≤ index →
      Set.InjOn (Function.uncurry concatAndHash)
        {x | x ∈ verifyPairs datum p index data.length ∨ x ∈ tree.combined} →
      (verify tree.root datum p index data.length = some false ↔
        data.length ≤ 2 ^ 63 ∧ p.length ≤ Nat.clog 2 data.length ∧
          tree.descend (BitPaths.bits p.length (min index (2 ^ Nat.clog 2 data.length - 1))).reverse ≠
            some (datum, p)) := by
  obtain ⟨tree, htree, hcomplete⟩ := complete_new hne
  refine ⟨tree, htree, fun datum index p _ hinj => ?_⟩
  rcases Nat.lt_or_ge (2 ^ 63) data.length with hlarge | hsize
  · rw [verify_eq_none_of_lt hlarge]
    exact ⟨nofun, fun h => absurd h.1 (Nat.not_le.2 hlarge)⟩
  rcases Nat.lt_or_ge (Nat.clog 2 data.length) p.length with hlong | hlen
  · rw [verify_eq_none_of_long hsize hlong]
    exact ⟨nofun, fun h => absurd h.2.1 (Nat.not_le.2 hlong)⟩
  · rw [and_iff_right hsize, and_iff_right hlen, ne_eq,
      ← verify_eq_true_iff hcomplete hsize hlen hinj, verify_eq_climb hsize hlen, Option.some_inj,
      Option.some_inj, decide_eq_false_iff_not, decide_eq_true_eq]

omit [Crypto]

/-- Three leaves: the last leaf is accepted again at the index of its copy, with the proof of the copy. -/
theorem malformed_rejected_iff_three :
    letI := mixingCrypto
    letI := sampleHashable
    ∃ tree p, MerkleTree.new [5, 6, 7] = some tree ∧ verify tree.root 7 p 3 3 ≠ some false := by
  let _ := mixingCrypto
  let _ := sampleHashable
  obtain ⟨tree, htree, hiff⟩ := malformed_rejected_iff [5, 6, 7] (by decide)
  have hdescend : (MerkleTree.new [5, 6, 7]).bind (fun tree => tree.descend
      (BitPaths.bits [7, concatAndHash 5 6].length
        (min 3 (2 ^ Nat.clog 2 [5, 6, 7].length - 1))).reverse) = some (7, [7, concatAndHash 5 6]) := by
    decide +kernel
  have hpairs : ∀ tree ∈ MerkleTree.new [5, 6, 7],
      (verifyPairs 7 [7, concatAndHash 5 6] 3 3).all fun x => decide (x ∈ tree.combined) := by
    decide +kernel
  have hdistinct : ∀ tree ∈ MerkleTree.new [5, 6, 7],
      (tree.combined.map (Function.uncurry concatAndHash)).Nodup := by decide +kernel
  have hinj := List.inj_on_of_nodup_map (hdistinct tree htree)
  have hmem : ∀ x, x ∈ verifyPairs 7 [7, concatAndHash 5 6] 3 3 ∨ x ∈ tree.combined →
      x ∈ tree.combined := fun x hx =>
    hx.elim (fun hx => of_decide_eq_true (List.all_eq_true.1 (hpairs tree htree) x hx)) id
  rw [htree, Option.bind_some] at hdescend
  refine ⟨tree, [7, concatAndHash 5 6], htree, fun hfalse => ?_⟩
  exact ((hiff 7 3 _ (Or.inr (Nat.le_refl 3)) fun x hx y hy => hinj (hmem x hx) (hmem y hy)).1
    hfalse).2.2 hdescend

/-- **A proof that is too long is fatal**: the verifier panics at a proof of one hash for the only leaf. -/
theorem malformed_not_rejected :
    letI := sampleCrypto
    ¬ ∀ (data : List H256), data ≠ [] → ∀ tree ∈ MerkleTree.new data,
      ∀ (datum : H256) (index : ℕ) (p : List H256),
        p.length ≠ Nat.clog 2 data.length ∨ data.length ≤ index →
        Set.InjOn (Function.uncurry concatAndHash)
          {x | x ∈ verifyPairs datum p index data.length ∨ x ∈ tree.combined} →
        verify tree.root datum p index data.length = some false := by
  let _ := sampleCrypto
  intro h
  have hfalse := h [5] (by decide) _ rfl 5 0 [6] (Or.inl (by decide)) ?_
  · exact absurd hfalse (by decide)
  · rintro x (hx | hx)
    · cases hx
    · cases hx

end Malformed

end Merkle

end BitcoinClient
