/-
**The order of the longest chain.**

`all_blocks_in_longest_chain` follows parent hashes from the tip and pushes every hash that it visits, so the
list begins with the tip; the comment above the function says that it is ordered from genesis to the tip.
`src/api/mod.rs` reads the list in three places.  `/blockchain/longest-chain` replies with it as it is, and
the other two take it from its end.

Main definitions:

* `BitcoinClient.OrderedFromGenesis` — a list of hashes from a block without stored parent to the tip;
* `BitcoinClient.Api.longestChain`, `BitcoinClient.Api.longestChainTx`, `BitcoinClient.Api.state`.

Main results:

* `BitcoinClient.Blockchain.exists_longestChain`, `BitcoinClient.Blockchain.isPath_longestChain` — without
  cycles of parents the walk ends, and what it has visited;
* `BitcoinClient.Api.counts_from_genesis` — two of the replies count from the genesis block;
* `BitcoinClient.longest_chain_order_iff` — **when the list is ordered from genesis to the tip**.
-/

import BitcoinClient.LongestChain

set_option relaxedAutoImplicit false
set_option autoImplicit false

namespace BitcoinClient

variable [Crypto]

/-! ### The walk from the tip -/

namespace Blockchain

variable {c : Blockchain} {order : List H256}

/-- No block is its own ancestor. -/
def AcyclicParents (c : Blockchain) : Prop := Pointers.Acyclic c.parentAt

omit [Crypto] in
/-- **Without cycles the walk ends**, and it visits each of the stored blocks once at most. -/
theorem exists_longestChain (hacyclic : c.AcyclicParents) (order : List H256) :
    ∃ l, c.allBlocksInLongestChain order (c.blocks.keys.card + 1) = some l ∧
      l.length ≤ c.blocks.keys.card ∧ l.Nodup := by
  have hstored : ∀ h, (c.parentAt h).isSome → h ∈ c.blocks.keys := by
    intro h hp
    rw [parentAt, Option.isSome_map] at hp
    rw [Finmap.mem_keys, ← Finmap.lookup_isSome]
    exact hp
  obtain ⟨l, hl, hbound⟩ := Pointers.exists_path_of_acyclic hacyclic hstored (c.tip order)
  exact ⟨l, by rw [allBlocksInLongestChain, chainFrom_eq, hl], hbound⟩

omit [Crypto] in
/-- **What the walk has visited.** -/
theorem isPath_longestChain {b : Block} (htip : c.getBlock (c.tip order) = some b) {fuel : ℕ}
    {l : List H256} (hl : c.allBlocksInLongestChain order fuel = some l) :
    Pointers.IsPath c.parentAt (c.tip order) l := by
  rw [allBlocksInLongestChain, chainFrom_eq] at hl
  exact Pointers.isPath_path (parentAt_of_getBlock htip) hl

omit [Crypto] in
theorem parentAt_eq_none {h : H256} : c.parentAt h = none ↔ c.getBlock h = none := by
  rw [parentAt, Option.map_eq_none_iff]

end Blockchain

/-! ### The order -/

/-- The list ends with the tip, it begins with a block whose parent is not stored, and each later element is
a stored block with the preceding one as its parent. -/
structure OrderedFromGenesis (c : Blockchain) (tip : H256) (l : List H256) : Prop where
  last : l.getLast? = some tip
  first : ∀ h ∈ l.head?, ∃ b, c.getBlock h = some b ∧ c.getBlock b.getParent = none
  linked : l.IsChain fun parent h => ∃ b, c.getBlock h = some b ∧ b.getParent = parent

section Order

variable {c : Blockchain} {tip : H256} {l : List H256}

omit [Crypto] in
theorem parentAt_eq_some {h p : H256} :
    c.parentAt h = some p ↔ ∃ b, c.getBlock h = some b ∧ b.getParent = p := by
  rw [Blockchain.parentAt, Option.map_eq_some_iff]

omit [Crypto] in
/-- **The reversed walk is ordered.** -/
theorem OrderedFromGenesis.of_reverse (h : Pointers.IsPath c.parentAt tip l) :
    OrderedFromGenesis c tip l.reverse where
  last := by rw [List.getLast?_reverse, h.head]
  first k hk := by
    rw [List.head?_reverse] at hk
    obtain ⟨p, hp, hnone⟩ := h.last k hk
    obtain ⟨b, hb, rfl⟩ := parentAt_eq_some.1 hp
    exact ⟨b, hb, Blockchain.parentAt_eq_none.1 hnone⟩
  linked := by
    rw [List.isChain_reverse]
    exact h.linked.imp fun x y hxy => parentAt_eq_some.1 hxy

omit [Crypto] in
/-- The walk itself is ordered exactly if it ends at once. -/
theorem orderedFromGenesis_iff (h : Pointers.IsPath c.parentAt tip l) {b : Block}
    (hb : c.getBlock tip = some b) :
    OrderedFromGenesis c tip l ↔ c.getBlock b.getParent = none := by
  constructor
  · intro hord
    obtain ⟨b', hb', hnone⟩ := hord.first tip h.head
    rw [hb, Option.some_inj] at hb'
    rw [hb']
    exact hnone
  · intro hnone
    obtain ⟨rest, rfl⟩ : ∃ rest, l = tip :: rest := List.head?_eq_some_iff.1 h.head
    cases rest with
    | nil =>
        exact ⟨rfl, fun k hk => ⟨b, Option.some_inj.1 hk ▸ hb, hnone⟩, List.isChain_singleton tip⟩
    | cons next rest =>
        -- the next element would be a stored block
        have hlink : c.parentAt tip = some next := (List.isChain_cons_cons.1 h.linked).1
        rw [Blockchain.parentAt_of_getBlock hb, Option.some_inj] at hlink
        have hsome := h.isSome next (List.mem_cons_of_mem _ (List.mem_cons_self ..))
        rw [← hlink, Blockchain.parentAt, hnone] at hsome
        cases hsome

end Order

/-! ### The replies -/

namespace Api

/-- `/blockchain/longest-chain`: the hashes of the longest chain. -/
def longestChain (c : Blockchain) (order : List H256) (fuel : ℕ) : Option (List H256) :=
  c.allBlocksInLongestChain order fuel

/-- `/blockchain/longest-chain-tx`: the hashes of the transactions of each block of the longest chain. -/
def longestChainTx (c : Blockchain) (order : List H256) (fuel : ℕ) : Option (List (List H256)) := do
  let v ← c.allBlocksInLongestChain order fuel
  v.reverse.mapM fun blockHash => do
    let block ← c.getBlock blockHash
    some (block.data.map SignedTransaction.hash)

/-- `/blockchain/state`: the state after the block with a number; inside, `none` for a reply without a
state. -/
def state (c : Blockchain) (order : List H256) (fuel : ℕ) (block : ℕ) : Option (Option State) := do
  let longestChainHashes ← c.allBlocksInLongestChain order fuel
  if longestChainHashes.length ≤ block then some none
  else
    let targetHash ← longestChainHashes[longestChainHashes.length - block - 1]?
    some (c.getBlockState targetHash)

omit [Crypto] in
theorem mapM_eq_some {α β : Type} {f : α → Option β} {f' : α → β} {l : List α}
    (h : ∀ x ∈ l, f x = some (f' x)) : l.mapM f = some (l.map f') := by
  induction l with
  | nil => rfl
  | cons x l ih =>
      obtain ⟨hx, hl⟩ := List.forall_mem_cons.1 h
      rw [List.mapM_cons, hx, ih hl]
      rfl

/-- **The other two replies count from the genesis block**: their lists are those of the reversed walk. -/
theorem counts_from_genesis {c : Blockchain} {order : List H256} {b : Block}
    (htip : c.getBlock (c.tip order) = some b) {fuel : ℕ} {l : List H256}
    (hl : c.allBlocksInLongestChain order fuel = some l) :
    longestChainTx c order fuel =
        some (l.reverse.map fun h => ((c.getBlock h).elim [] Block.data).map SignedTransaction.hash) ∧
      ∀ block, state c order fuel block = some (l.reverse[block]?.bind c.getBlockState) := by
  have hpath := Blockchain.isPath_longestChain htip hl
  constructor
  · rw [longestChainTx, hl, Option.bind_eq_bind, Option.bind_some]
    refine mapM_eq_some fun h hh => ?_
    have hsome := hpath.isSome h (List.mem_reverse.1 hh)
    rw [Blockchain.parentAt, Option.isSome_map] at hsome
    obtain ⟨block, hblock⟩ := Option.isSome_iff_exists.1 hsome
    rw [hblock]
    rfl
  · intro block
    rw [state, hl, Option.bind_eq_bind, Option.bind_some]
    split
    · rename_i hle
      rw [List.getElem?_eq_none (by rwa [List.length_reverse]), Option.bind_none]
    · rename_i hlt
      have hlast : l.length - block - 1 < l.length := by omega
      have hindex : l.length - 1 - block = l.length - block - 1 := by omega
      rw [List.getElem?_reverse (Nat.not_le.1 hlt), hindex, List.getElem?_eq_getElem hlast]
      rfl

end Api

/-! ### The order of the list -/

/-- **When the list is ordered from genesis to the tip.**  In every reachable store without cycles of
parents the walk ends; its list, which is the reply of `/blockchain/longest-chain`, is ordered exactly if the
parent of the tip is not stored, so that the tip is all of it; and read backwards it is always ordered. -/
theorem longest_chain_order_iff {g : GenesisDraw} {tr : List (Node × Event)} {n : Node}
    (hrun : Node.Run (Node.init g) tr n) (hacyclic : n.blockchain.AcyclicParents)
    {order : List H256} (horder : Blockchain.IterOrder n.blockchain.blocks order) :
    ∃ b, n.blockchain.getBlock (n.blockchain.tip order) = some b ∧
      (∃ fuel l, n.blockchain.allBlocksInLongestChain order fuel = some l) ∧
      ∀ fuel l, n.blockchain.allBlocksInLongestChain order fuel = some l →
        Api.longestChain n.blockchain order fuel = some l ∧
        (OrderedFromGenesis n.blockchain (n.blockchain.tip order) l ↔
          n.blockchain.getBlock b.getParent = none) ∧
        OrderedFromGenesis n.blockchain (n.blockchain.tip order) l.reverse := by
  obtain ⟨b, hb⟩ := mem_blocks_iff.1 ((backed_of_run hrun).chain.exists_tip horder).1
  obtain ⟨walked, hwalked, -⟩ := Blockchain.exists_longestChain hacyclic order
  refine ⟨b, hb, ⟨_, walked, hwalked⟩, fun fuel l hl => ⟨hl, ?_, ?_⟩⟩
  · exact orderedFromGenesis_iff (Blockchain.isPath_longestChain hb hl) hb
  · exact .of_reverse (Blockchain.isPath_longestChain hb hl)

omit [Crypto]

/-- A node receives a child of its genesis block. -/
def receiveGenesisChild : List Event :=
  [.message (.blocks [sampleBlock 1 2 2 []]), .worker, .worker, .worker]

/-- The store of that node. -/
theorem receiveGenesisChild_stored :
    letI := sampleCrypto
    ∃ n, Node.Run (Node.init sampleGenesis)
        (Lts.replayTrace Node.step (Node.init sampleGenesis) receiveGenesisChild) n ∧
      Blockchain.IterOrder n.blockchain.blocks [1, 2] ∧ n.blockchain.tip [1, 2] = 2 ∧
      n.blockchain.parentAt 1 = some 99 ∧ n.blockchain.parentAt 2 = some 1 ∧
      n.blockchain.allBlocksInLongestChain [1, 2] 3 = some [2, 1] :=
  Lts.exists_run_of_replay (by decide +kernel)

theorem acyclic_of_child {c : Blockchain} (horder : Blockchain.IterOrder c.blocks [1, 2])
    (hgenesis : c.parentAt 1 = some 99) (hchild : c.parentAt 2 = some 1) : c.AcyclicParents := by
  have hdescending : Pointers.Descending c.parentAt sampleRank := by
    intro a p hp
    obtain ⟨b, hb, rfl⟩ := parentAt_eq_some.1 hp
    have hmem := (horder.2 a).2 (mem_blocks_of_getBlock hb)
    rcases List.mem_cons.1 hmem with rfl | hmem
    · rw [hgenesis, Option.some_inj] at hp
      rw [← hp]
      decide
    · rw [List.mem_singleton.1 hmem] at hp ⊢
      rw [hchild, Option.some_inj] at hp
      rw [← hp]
      decide
  exact Pointers.acyclic_of_descending hdescending

/-- The genesis block comes last in the list, and first in the reversed one. -/
theorem longest_chain_order_iff_child :
    letI := sampleCrypto
    ∃ n : Node, n.blockchain.allBlocksInLongestChain [1, 2] 3 = some [2, 1] ∧
      ¬ OrderedFromGenesis n.blockchain 2 [2, 1] ∧ OrderedFromGenesis n.blockchain 2 [1, 2] := by
  obtain ⟨n, hrun, horder, htip, hgenesis, hchild, hlist⟩ := receiveGenesisChild_stored
  obtain ⟨b, hb, -, hall⟩ := @longest_chain_order_iff sampleCrypto _ _ _ hrun
    (acyclic_of_child horder hgenesis hchild) _ horder
  obtain ⟨-, hiff, hreverse⟩ := hall 3 _ hlist
  rw [htip] at hb hiff hreverse
  refine ⟨n, hlist, fun hord => ?_, hreverse⟩
  rw [Blockchain.parentAt_of_getBlock hb, Option.some_inj] at hchild
  have hnone := hiff.1 hord
  rw [hchild, ← Blockchain.parentAt_eq_none, hgenesis] at hnone
  cases hnone

/-- **The list begins with the tip**, and `/blockchain/longest-chain` replies with block 1 before block 0. -/
theorem longest_chain_not_ordered :
    letI := sampleCrypto
    ¬ ∀ (g : GenesisDraw) (tr : List (Node × Event)) (n : Node), Node.Run (Node.init g) tr n →
      n.blockchain.AcyclicParents → ∀ order, Blockchain.IterOrder n.blockchain.blocks order →
        ∀ fuel l, n.blockchain.allBlocksInLongestChain order fuel = some l →
          OrderedFromGenesis n.blockchain (n.blockchain.tip order) l := by
  intro h
  obtain ⟨n, hrun, horder, htip, hgenesis, hchild, hlist⟩ := receiveGenesisChild_stored
  have hord := h _ _ n hrun (acyclic_of_child horder hgenesis hchild) _ horder 3 _ hlist
  have hlast := hord.last
  rw [htip] at hlast
  exact absurd hlast (by decide)

end BitcoinClient
