/-
**Ties between the longest blocks.**

`tip` scans the blocks in the order in which the hash map happens to be iterated and keeps the last one of
maximal length.  So each of the longest blocks is the tip for some order, and the orders agree exactly if one
block is longer than all others.  There is no rule for ties, neither between two calls nor between the calls
before and after an insertion.

Main definitions:

* `BitcoinClient.Blockchain.Peak` — a block that is longer than all others.

Main results:

* `BitcoinClient.Blockchain.exists_order_tip` — each of the longest blocks is the tip for some order;
* `BitcoinClient.Blockchain.tips_agree_iff` — when two stores have the same tip for all orders;
* `BitcoinClient.tip_stable_iff` — **when the tip does not depend on the order**, and when an insertion
  leaves it.
-/

import BitcoinClient.Lengths
import BitcoinClient.StoredStates

set_option relaxedAutoImplicit false
set_option autoImplicit false

namespace BitcoinClient

variable [Crypto]

namespace Blockchain

/-! ### The longest blocks -/

/-- The block at `m` is stored, and no block is longer. -/
def LongestBlock (c : Blockchain) (m : H256) : Prop := m ∈ c.blocks ∧ ∀ k, c.lengthAt k ≤ c.lengthAt m

/-- The block at `m` is stored, and all others are shorter. -/
def Peak (c : Blockchain) (m : H256) : Prop :=
  m ∈ c.blocks ∧ ∀ k ∈ c.blocks, k ≠ m → c.lengthAt k < c.lengthAt m

section Tips

variable {c d : Blockchain} {m : H256} {order : List H256}

omit [Crypto] in
theorem longest_tip (hne : ∃ h, h ∈ c.blocks) (horder : IterOrder c.blocks order) :
    c.LongestBlock (c.tip order) := by
  obtain ⟨h₀, hmem⟩ := hne
  obtain ⟨b₀, hb₀⟩ := mem_blocks_iff.1 hmem
  obtain ⟨b, hb, hmax⟩ := tip_spec horder hb₀
  refine ⟨mem_blocks_of_getBlock hb, fun k => ?_⟩
  rw [lengthAt_of_getBlock hb]
  cases hk : c.getBlock k with
  | none =>
      rw [lengthAt_of_none hk]
      exact Nat.zero_le _
  | some b' =>
      rw [lengthAt_of_getBlock hk]
      exact hmax k b' hk

omit [Crypto] in
/-- A longest block that is visited last is the tip. -/
theorem tip_append_singleton (hm : c.LongestBlock m) {l : List H256} (hl : ∀ h ∈ l, h ∈ c.blocks) :
    c.tip (l ++ [m]) = m := by
  obtain ⟨b, hb⟩ := mem_blocks_iff.1 hm.1
  obtain ⟨-, -, hbest⟩ := foldl_tip c l (0, 0) fun h hh => Finmap.lookup_isSome.2 (hl h hh)
  rw [tip, List.foldl_append, List.foldl_cons, List.foldl_nil, hb]
  generalize l.foldl _ _ = best at hbest ⊢
  have hle : best.1 ≤ b.length := by
    rw [UInt32.le_iff_toNat_le]
    rcases hbest with rfl | ⟨b', hb', hlen⟩
    · exact Nat.zero_le _
    · have hmax := hm.2 best.2
      rwa [lengthAt_of_getBlock hb', lengthAt_of_getBlock hb, hlen] at hmax
  simp only [if_pos hle]

omit [Crypto] in
/-- **Each of the longest blocks is the tip**, for some order. -/
theorem exists_order_tip (hm : c.LongestBlock m) :
    ∃ order, IterOrder c.blocks order ∧ c.tip order = m := by
  have hmem : ∀ h, h ∈ c.blocks.keys.toList.erase m ↔ h ≠ m ∧ h ∈ c.blocks := by
    intro h
    rw [(Finset.nodup_toList _).mem_erase_iff, Finset.mem_toList, Finmap.mem_keys]
  refine ⟨c.blocks.keys.toList.erase m ++ [m], ⟨?_, fun h => ?_⟩, ?_⟩
  · rw [List.nodup_append]
    refine ⟨(Finset.nodup_toList _).erase m, List.nodup_singleton m, fun x hx y hy => ?_⟩
    rw [List.mem_singleton.1 hy]
    exact ((hmem x).1 hx).1
  · rw [List.mem_append, List.mem_singleton, hmem]
    by_cases hh : h = m
    · simp [hh, hm.1]
    · simp [hh]
  · exact tip_append_singleton hm fun h hh => ((hmem h).1 hh).2

omit [Crypto] in
/-- A block that is longer than all others is the tip. -/
theorem Peak.tip_eq (hm : c.Peak m) (horder : IterOrder c.blocks order) : c.tip order = m := by
  obtain ⟨htip, hmax⟩ := longest_tip ⟨m, hm.1⟩ horder
  by_contra hne
  exact absurd (hm.2 _ htip hne) (Nat.not_lt.2 (hmax m))

omit [Crypto] in
/-- When the only candidate for the longest block is `m`, it is longer than all others. -/
theorem peak_of_unique (hne : ∃ h, h ∈ c.blocks) (h : ∀ k, c.LongestBlock k → k = m) : c.Peak m := by
  have hm := longest_tip hne (iterOrder_keys c.blocks)
  rw [h _ hm] at hm
  refine ⟨hm.1, fun k hk hkm => ?_⟩
  by_contra hnot
  exact hkm (h k ⟨hk, fun k' => (hm.2 k').trans (Nat.not_lt.1 hnot)⟩)

omit [Crypto] in
/-- **Two stores have the same tip for all orders** exactly if one block is longer than all others in
both. -/
theorem tips_agree_iff (hc : ∃ h, h ∈ c.blocks) (hd : ∃ h, h ∈ d.blocks) :
    (∀ order order', IterOrder c.blocks order → IterOrder d.blocks order' →
      c.tip order = d.tip order') ↔ ∃ m, c.Peak m ∧ d.Peak m := by
  constructor
  · intro hagree
    have horder := iterOrder_keys c.blocks
    have horder' := iterOrder_keys d.blocks
    refine ⟨c.tip c.blocks.keys.toList, peak_of_unique hc fun k hk => ?_,
      peak_of_unique hd fun k hk => ?_⟩
    · obtain ⟨o, ho, rfl⟩ := exists_order_tip hk
      rw [hagree o _ ho horder', hagree _ _ horder horder']
    · obtain ⟨o, ho, rfl⟩ := exists_order_tip hk
      exact (hagree _ o horder ho).symm
  · rintro ⟨m, hcm, hdm⟩ order order' horder horder'
    rw [hcm.tip_eq horder, hdm.tip_eq horder']

/-- A block that is longer than all others stays so when a shorter block is stored, or when it is stored
again and is still longer. -/
theorem peak_put_iff {block : Block} {length : UInt32} (hm : c.Peak m) :
    (c.put block length).Peak m ↔ block.hash ≠ m ∧ length.toNat < c.lengthAt m ∨
      block.hash = m ∧ ∀ k ∈ c.blocks, k ≠ m → c.lengthAt k < length.toNat := by
  have hmem : m ∈ (c.put block length).blocks := mem_blocks_put.2 (Or.inr hm.1)
  by_cases hself : block.hash = m
  · subst hself
    rw [Peak, and_iff_right hmem]
    simp only [ne_eq, not_true_eq_false, false_and, true_and, false_or, mem_blocks_put, lengthAt_put,
      if_true]
    constructor
    · intro h k hk hne
      have hlt := h k (Or.inr hk) hne
      rwa [if_neg hne] at hlt
    · rintro h k (rfl | hk) hne
      · exact absurd rfl hne
      · rw [if_neg hne]
        exact h k hk hne
  · rw [Peak, and_iff_right hmem]
    simp only [ne_eq, hself, not_false_eq_true, true_and, false_and, or_false, mem_blocks_put,
      lengthAt_put, if_neg (Ne.symm hself)]
    constructor
    · intro h
      have hlt := h block.hash (Or.inl rfl) hself
      rwa [if_pos rfl] at hlt
    · rintro hlt k (rfl | hk) hne
      · rwa [if_pos rfl]
      · split
        · exact hlt
        · exact hm.2 k hk hne

end Tips

end Blockchain

/-! ### The tip under ties -/

/-- **When the tip does not depend on the order.**  In every reachable store the tip is one of the longest
blocks, whatever the order.  All orders give the same tip exactly if one block is longer than all others.
An insertion leaves the tip, for all orders before and after it, exactly if one block is longer than all
others before it, and the new block is another one and shorter, or is that block again and still longer than
the others. -/
theorem tip_stable_iff {g : GenesisDraw} {tr : List (Node × Event)} {n : Node}
    (hrun : Node.Run (Node.init g) tr n) :
    (∀ order, Blockchain.IterOrder n.blockchain.blocks order →
        n.blockchain.LongestBlock (n.blockchain.tip order)) ∧
      ((∀ order order', Blockchain.IterOrder n.blockchain.blocks order →
          Blockchain.IterOrder n.blockchain.blocks order' →
            n.blockchain.tip order = n.blockchain.tip order') ↔ ∃ m, n.blockchain.Peak m) ∧
      ∀ block length, Blockchain.StoredLength n.blockchain block length →
        ∃ chain', n.blockchain.insert block = some chain' ∧
          ((∀ order order', Blockchain.IterOrder n.blockchain.blocks order →
              Blockchain.IterOrder chain'.blocks order' →
                n.blockchain.tip order = chain'.tip order') ↔
            ∃ m, n.blockchain.Peak m ∧ (block.hash ≠ m ∧ length.toNat < n.blockchain.lengthAt m ∨
              block.hash = m ∧ ∀ k ∈ n.blockchain.blocks, k ≠ m →
                n.blockchain.lengthAt k < length.toNat)) := by
  have hne : ∃ h, h ∈ n.blockchain.blocks := (backed_of_run hrun).chain.nonempty
  refine ⟨fun order => Blockchain.longest_tip hne, ?_, ?_⟩
  · rw [Blockchain.tips_agree_iff hne hne]
    simp only [and_self]
  · intro block length hlength
    refine ⟨_, Blockchain.insert_eq_some_iff.2 ⟨length, hlength, rfl⟩, ?_⟩
    rw [Blockchain.tips_agree_iff hne ⟨block.hash, mem_blocks_put.2 (Or.inl rfl)⟩]
    exact exists_congr fun m => and_congr_right fun hm => Blockchain.peak_put_iff hm

omit [Crypto]

/-- A node receives two children of its genesis block. -/
def receiveTwins : List Event :=
  [.message (.blocks [sampleBlock 1 2 2 [], sampleBlock 1 3 2 []]), .worker, .worker, .worker, .worker,
    .worker]

/-- **Two blocks of the same length**: either is the tip, for some order. -/
theorem tip_not_stable :
    letI := sampleCrypto
    ¬ ∀ (g : GenesisDraw) (tr : List (Node × Event)) (n : Node), Node.Run (Node.init g) tr n →
      ∀ order order', Blockchain.IterOrder n.blockchain.blocks order →
        Blockchain.IterOrder n.blockchain.blocks order' →
          n.blockchain.tip order = n.blockchain.tip order' := by
  intro h
  obtain ⟨n, hrun, horder, horder', htip, htip'⟩ := @Lts.exists_run_of_replay _ _
    (@Node.step sampleCrypto) receiveTwins (@Node.init sampleCrypto sampleGenesis)
    (fun n => Blockchain.IterOrder n.blockchain.blocks [1, 2, 3] ∧
      Blockchain.IterOrder n.blockchain.blocks [1, 3, 2] ∧ n.blockchain.tip [1, 2, 3] = 3 ∧
      n.blockchain.tip [1, 3, 2] = 2) (by decide +kernel)
  have heq := h _ _ n hrun _ _ horder horder'
  rw [htip, htip'] at heq
  exact absurd heq (by decide)

/-- With one child of the genesis block, inserting the genesis block again leaves the tip. -/
theorem tip_stable_iff_child :
    letI := sampleCrypto
    ∃ (n : Node) (chain' : Blockchain), n.blockchain.insert sampleGenesis.block = some chain' ∧
      ∀ order order', Blockchain.IterOrder n.blockchain.blocks order →
        Blockchain.IterOrder chain'.blocks order' → n.blockchain.tip order = chain'.tip order' := by
  obtain ⟨n, hrun, horder, hgenesis, hchild⟩ := @Lts.exists_run_of_replay _ _
    (@Node.step sampleCrypto) [.message (.blocks [sampleBlock 1 2 2 []]), .worker, .worker, .worker]
    (@Node.init sampleCrypto sampleGenesis)
    (fun n => Blockchain.IterOrder n.blockchain.blocks [1, 2] ∧ n.blockchain.lengthAt 1 = 1 ∧
      n.blockchain.lengthAt 2 = 2) (by decide +kernel)
  obtain ⟨-, -, hinsert⟩ := @tip_stable_iff sampleCrypto _ _ _ hrun
  obtain ⟨chain', hchain', hiff⟩ := hinsert sampleGenesis.block 1 (Blockchain.storedLength_of_eq_one rfl)
  have hpeak : n.blockchain.Peak 2 := by
    refine ⟨(horder.2 2).1 (by decide), fun k hk hne => ?_⟩
    rcases List.mem_cons.1 ((horder.2 k).2 hk) with rfl | hk
    · rw [hgenesis, hchild]
      exact Nat.one_lt_two
    · exact absurd (List.mem_singleton.1 hk) hne
  refine ⟨n, chain', hchain', hiff.2 ⟨2, hpeak, Or.inl ⟨by decide +kernel, ?_⟩⟩⟩
  rw [hchild]
  exact Nat.one_lt_two

end BitcoinClient
