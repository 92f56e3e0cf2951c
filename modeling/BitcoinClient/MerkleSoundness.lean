/-
**Merkle soundness.**

A verifier of `src/types/merkle.rs` who knows a root accepts one element at an index, with one proof: the
element that the tree has there, and the proof that the tree gives.  The proof comes from somebody else and
may hold anything; what pins it down is that the two ways up, the one of the proof and the one of the tree,
take the same sides and meet at the root.

No function of 256 bits is injective on pairs of 256 bits, so what is assumed of the hash is that it does
not collide on the pairs that the two verifications hash.

Main definitions:

* `BitcoinClient.Merkle.hashPairs`, `BitcoinClient.Merkle.verifyPairs` — the pairs that a verification
  hashes.

Main results:

* `BitcoinClient.Merkle.roundUp_eq_none` — no proof is accepted for more than `2 ^ 63` leaves;
* `BitcoinClient.Merkle.eq_of_verify` — **only the proofs of the tree verify**.
-/

import BitcoinClient.Merkle
import Mathlib.Data.Nat.Log

set_option relaxedAutoImplicit false
set_option autoImplicit false

namespace BitcoinClient.Merkle

variable [Crypto]

/-! ### What is hashed -/

/-- The arguments of `concatAndHash` in the loop through a proof. -/
def hashPairs : List H256 → H256 → List UInt32 → List (H256 × H256)
  | [], _, _ => []
  | sib :: proof, currhash, hashingOrder =>
    match hashingOrder.getLast? with
    | none => []
    | some direction =>
      (if direction = 0 then (currhash, sib) else (sib, currhash)) ::
        hashPairs proof
          (if direction = 0 then concatAndHash currhash sib else concatAndHash sib currhash)
          hashingOrder.dropLast

/-- The arguments of `concatAndHash` in a verification. -/
def verifyPairs (datum : H256) (proof : List H256) (index leafSize : ℕ) : List (H256 × H256) :=
  ((orderProof index leafSize).map fun order => hashPairs proof datum order).getD []

/-- **The loop hashes the pairs of the climb.** -/
theorem hashPairs_eq : ∀ (sides : List Bool) (proof : List H256) (currhash : H256),
    proof.length ≤ sides.length → hashPairs proof currhash (sides.reverse.map direction) =
      BitPaths.climbPairs concatAndHash currhash (sides.zip proof) := by
  intro sides
  induction sides with
  | nil =>
      intro proof currhash hlen
      rw [List.length_nil, Nat.le_zero, List.length_eq_zero_iff] at hlen
      subst hlen
      rfl
  | cons right sides ih =>
      intro proof currhash hlen
      match proof, hlen with
      | [], _ => rfl
      | sib :: proof, hlen =>
          rw [hashPairs, List.reverse_cons, List.map_append, List.map_singleton,
            List.getLast?_concat, List.dropLast_concat]
          simp only [ite_direction]
          rw [ih proof _ (Nat.le_of_succ_le_succ hlen), List.zip_cons_cons, BitPaths.climbPairs_cons]

/-! ### Too many leaves -/

omit [Crypto] in
/-- The rounding overflows when the number of leaves is above the highest power of two. -/
theorem roundUp_eq_none {leafSize : ℕ} (hmax : 2 ^ 63 < leafSize) :
    ∀ (fuel a : ℕ), a ≤ 63 → roundUp leafSize fuel (2 ^ a) = none := by
  intro fuel
  induction fuel with
  | zero => intro a _; rfl
  | succ fuel ih =>
      intro a ha
      have hlow : 2 ^ a < leafSize := lt_of_le_of_lt (Nat.pow_le_pow_right (by omega) ha) hmax
      rw [roundUp, if_pos hlow, ← Nat.pow_succ]
      split
      · rename_i hfits
        exact ih (a + 1) (Nat.le_of_lt_succ ((Nat.pow_lt_pow_iff_right (by omega)).1 hfits))
      · rfl

omit [Crypto] in
/-- **A verifier whose order exists has few leaves.** -/
theorem le_of_orderProof {index leafSize : ℕ} {order : List UInt32}
    (h : orderProof index leafSize = some order) : leafSize ≤ 2 ^ 63 := by
  by_contra hgt
  have hnone := roundUp_eq_none (Nat.not_le.1 hgt) 65 0 (Nat.zero_le 63)
  rw [Nat.pow_zero] at hnone
  rw [orderProof, hnone] at h
  cases h

/-! ### The levels of a tree -/

omit [Crypto] in
/-- The number of levels. -/
theorem eq_clog {n k : ℕ} (hle : n ≤ 2 ^ k) (hlt : ∀ k' < k, 2 ^ k' < n) : k = Nat.clog 2 n := by
  refine Nat.le_antisymm ?_ (Nat.clog_le_of_le_pow hle)
  by_contra hgt
  exact absurd (hlt _ (Nat.not_le.1 hgt)) (Nat.not_lt.2 (Nat.le_pow_clog Nat.one_lt_two n))

/-! ### Soundness -/

/-- **Only the proofs of the tree verify.**  For every list, every index and whatever element and proof of
the length of the tree's proofs are presented: when the verifier accepts them for the root of the tree, and
`concatAndHash` does not collide on the pairs hashed on this way and on the tree's own, they are the
element at the index and the proof that the tree gives. -/
theorem eq_of_verify {T : Type} [Hashable T] (data : List T) (i : ℕ) (hi : i < data.length)
    (datum : H256) (p : List H256) (hp : p.length = Nat.clog 2 data.length) :
    ∃ tree proof, MerkleTree.new data = some tree ∧ tree.proof i = some proof ∧
      (Set.InjOn (Function.uncurry concatAndHash) {x | x ∈ verifyPairs datum p i data.length ∨
          x ∈ verifyPairs (Hashable.hash data[i]) proof i data.length} →
        verify tree.root datum p i data.length = some true →
          datum = Hashable.hash data[i] ∧ p = proof) := by
  obtain ⟨tree, proof, htree, hproof, hclimb, hle, hlt⟩ := exists_proof data hi
  refine ⟨tree, proof, htree, hproof, ?_⟩
  intro hinj hverify
  rw [verify, Option.bind_eq_some_iff] at hverify
  obtain ⟨order, horder, hverify⟩ := hverify
  have hk : proof.length ≤ 63 := by
    by_contra hgt
    exact absurd (hlt 63 (by omega)) (Nat.not_lt.2 (le_of_orderProof horder))
  have hbits := orderProof_eq hle hlt hk (hi.trans_le hle)
  have hsides : (BitPaths.bits proof.length i).length = p.length := by
    rw [BitPaths.length_bits, hp, ← eq_clog hle hlt]
  have hsides' : (BitPaths.bits proof.length i).length = proof.length := BitPaths.length_bits _ i
  -- the verifier takes the way of the bits, and so does the tree
  rw [hbits, Option.some_inj] at horder
  subst horder
  rw [verifyHelper, hashLoop_eq _ _ _ hsides.ge, Option.map_some, Option.some_inj,
    decide_eq_true_eq] at hverify
  simp only [verifyPairs, hbits, Option.map_some, Option.getD_some, hashPairs_eq _ _ _ hsides.ge,
    hashPairs_eq _ _ _ hsides'.ge] at hinj
  exact BitPaths.climb_injective concatAndHash hinj _ _ _ _ _ hsides.symm hsides'.symm
    (fun _ h => Or.inl h) (fun _ h => Or.inr h) (hverify.trans hclimb.symm)

omit [Crypto] in
/-- Three leaves: the proof that is accepted for the first one is the tree's. -/
theorem eq_of_verify_three :
    letI := sampleCrypto
    let data : List H256 := [5, 6, 7]
    let p := [Hashable.hash (6 : H256), Hashable.hash (7 : H256)]
    ∃ tree, MerkleTree.new data = some tree ∧
      verify tree.root (Hashable.hash (5 : H256)) p 0 3 = some true ∧ tree.proof 0 = some p := by
  let _ := sampleCrypto
  let p := [Hashable.hash (6 : H256), Hashable.hash (7 : H256)]
  obtain ⟨tree, proof, htree, hproof, hsound⟩ :=
    eq_of_verify ([5, 6, 7] : List H256) 0 (by decide) (Hashable.hash (5 : H256)) p (by decide)
  have hverify : (MerkleTree.new ([5, 6, 7] : List H256)).bind (fun tree =>
      verify tree.root (Hashable.hash (5 : H256)) p 0 3) = some true := by decide +kernel
  have hcomputed : (MerkleTree.new ([5, 6, 7] : List H256)).bind (fun tree => tree.proof 0) =
      some p := by decide +kernel
  rw [htree, Option.bind_some] at hverify hcomputed
  obtain rfl := Option.some.inj (hcomputed.symm.trans hproof)
  refine ⟨tree, htree, hverify, ?_⟩
  have hdistinct : ((verifyPairs (Hashable.hash (5 : H256)) p 0 3).map
      (Function.uncurry concatAndHash)).Nodup := by decide +kernel
  have hinj := List.inj_on_of_nodup_map hdistinct
  rw [hproof, (hsound (fun x hx y hy => hinj (or_self_iff.1 hx) (or_self_iff.1 hy)) hverify).2]

end BitcoinClient.Merkle
