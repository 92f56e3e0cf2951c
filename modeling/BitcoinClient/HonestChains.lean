/-
**Chains in a network of honest nodes.**

Under arbitrary peers a stored block may claim any length, skip transactions and stand on a cycle.
When all nodes run this code, and hashes and headers are as the agreement of the nodes assumes, none
of this happens: a stored block is a genesis block, or it was mined on a stored parent whose state
the miner had, and the miner dropped the transactions that do not execute.  So the chain of a stored
block goes down to a genesis block in as many steps as its length says, and executing the blocks of
the chain from the initial offering, one after the other, executes every transaction in them and
leaves the stored state.  Two nodes that both store a block have the same chain below it.

Main definitions:

* `BitcoinClient.Network.Audited` — a chain from a genesis block to a stored block, executed whole.

Main results:

* `BitcoinClient.Network.stored_cases` — a stored block is a genesis block, or the child of a stored
  one that executes whole;
* `BitcoinClient.Network.chain_replays` — **the chain of a stored block replays to its state**, and
  has as many blocks as its length says;
* `BitcoinClient.Network.chains_agree` — **two nodes have the same chain below a block that both
  store**;
* `BitcoinClient.Network.stores_converge` — nodes that store the same hashes have the same store, and
  their APIs give the same replies.
-/

import BitcoinClient.ChainOrder
import BitcoinClient.HonestNetwork
import BitcoinClient.Replay

set_option relaxedAutoImplicit false
set_option autoImplicit false

namespace BitcoinClient

variable [Crypto]

namespace Network

variable {ι : Type} [Fintype ι] {gs : ι → GenesisDraw} {tr : List (Network ι × (ι × Event))}
  {N : Network ι}

/-! ### Prefixes of a run -/

section Prefixes

variable {tr₁ tr₂ : List (Network ι × (ι × Event))}

/-- The assumptions hold of a prefix of a run. -/
theorem Assumptions.append_left (h : Assumptions gs (tr₁ ++ tr₂)) : Assumptions gs tr₁ := by
  induction tr₂ using List.reverseRecOn with
  | nil => rwa [List.append_nil] at h
  | append_singleton tr₂ x ih =>
      rw [← List.append_assoc] at h
      exact ih h.init

theorem registry_append_left {b : Block} (hb : b ∈ registry gs tr₁) :
    b ∈ registry gs (tr₁ ++ tr₂) := by
  rw [mem_registry] at hb ⊢
  refine hb.imp id fun hb => ?_
  rw [minedBlocks, List.flatMap_append]
  exact List.mem_append_left _ hb

end Prefixes

variable [DecidableEq ι]

/-! ### Stored blocks -/

/-- A stored block is the genesis block of a node, without a stored parent. -/
structure StoredGenesis (gs : ι → GenesisDraw) (c : Blockchain) (h : H256) (b : Block) : Prop where
  genesis : ∃ i, (gs i).block = b
  parent : c.getBlock b.getParent = none
  state : c.getBlockState h = some icoState

/-- A stored block is the child of a stored block, and its state is that after all its
transactions. -/
structure StoredChild (c : Blockchain) (h : H256) (b : Block) : Prop where
  long : 1 < b.length
  parent : ∃ p, c.getBlock b.getParent = some p ∧ b.length.toNat = p.length.toNat + 1
  state : ∃ sp s, c.getBlockState b.getParent = some sp ∧ executeTx sp b.data = some (s, b.data) ∧
    c.getBlockState h = some s

/-- The state that a miner computes is the one that every node has for the block: the miner and the
node have the same state for the parent. -/
theorem executes_whole (hrun : Network.Run (Network.init gs) tr N) (hassume : Assumptions gs tr)
    {i : ι} {b : Block} (hmined : b ∈ minedBlocks tr) {p : Block} {sp : State}
    (hp : (N i).blockchain.getBlock b.getParent = some p)
    (hsp : (N i).blockchain.getBlockState b.getParent = some sp) :
    ∃ s, executeTx sp b.data = some (s, b.data) := by
  have hsound := sound_of_run hrun hassume
  obtain ⟨⟨M, j, e⟩, hx, hb⟩ := List.mem_flatMap.1 hmined
  have hb' : (M j).mined e = some b := Option.mem_toList.1 hb
  obtain ⟨tr₁, M', tr₂, hrun₁, -, -, rfl⟩ := hrun.split_of_mem hx
  have hassume₁ : Assumptions gs tr₁ := hassume.append_left
  have hsound₁ := sound_of_run hrun₁ hassume₁
  obtain ⟨draw, g, q, block, sq, s, v, -, -, hpc, hblock, -, hsq, he, rfl⟩ := Node.mined_iff.1 hb'
  have hparent : ({ block with data := v } : Block).getParent = q.hash := by
    change block.getParent = q.hash
    exact MiningDraw.getParent_block hblock
  rw [hparent] at hp hsp
  -- the parent that the miner has read is the one that the node stores
  have hpcs := (hsound₁.node hrun₁ hassume₁ j).1.pc
  rw [hpc] at hpcs
  have hq := (hpcs q (List.mem_cons_of_mem _ (List.mem_singleton.2 rfl))).1
  have hqR : q ∈ registry gs (tr₁ ++ (M, j, e) :: tr₂) :=
    registry_append_left (hsound₁.seen j q (hsound₁.mem_of_stored hrun₁ hassume₁ hq).1)
  obtain ⟨hpi, hph⟩ := hsound.mem_of_stored hrun hassume hp
  have hpq : p = q := hassume.identical p (hsound.seen i p hpi) q hqR hph
  subst hpq
  -- and both have the same state for it
  have hB₁ : ∀ x ∈ introduced (gs j) (Lts.projection j tr₁),
      x ∈ registry gs (tr₁ ++ (M, j, e) :: tr₂) :=
    fun x hx => registry_append_left (hsound₁.seen j x hx)
  obtain ⟨hex₁, hg₁⟩ := hsound₁.node hrun₁ hassume₁ j
  obtain ⟨hex, hg⟩ := hsound.node hrun hassume i
  obtain ⟨t, ht₁, ht⟩ := states_agree hsound.linked hassume.identical hB₁ (hsound.seen i)
    hex₁.entries hex.entries hg₁ hg hq hp
  have hsp' : (N i).core.chain.getBlockState p.hash = some sp := hsp
  rw [hsq, Option.some_inj] at ht₁
  rw [hsp', Option.some_inj] at ht
  rw [ht, ← ht₁]
  exact ⟨s, executeTx_valid he⟩

/-- **A stored block** is a genesis block, or the child of a stored one that executes whole. -/
theorem stored_cases (hrun : Network.Run (Network.init gs) tr N) (hassume : Assumptions gs tr)
    {i : ι} {h : H256} {b : Block} (hb : (N i).blockchain.getBlock h = some b) :
    StoredGenesis gs (N i).blockchain h b ∨ StoredChild (N i).blockchain h b := by
  have hsound := sound_of_run hrun hassume
  obtain ⟨hex, hg⟩ := hsound.node hrun hassume i
  obtain ⟨hmem, rfl⟩ := hsound.mem_of_stored hrun hassume hb
  rcases mem_registry.1 (hsound.seen i b hmem) with ⟨j, rfl⟩ | hmined
  · refine Or.inl ⟨⟨j, rfl⟩, ?_, hg _ hmem rfl (by rw [hb]; rfl)⟩
    rw [Option.eq_none_iff_forall_ne_some]
    intro p hp
    obtain ⟨hpm, hph⟩ := hsound.mem_of_stored hrun hassume hp
    exact hassume.rootsUnknown j p (hsound.seen i p hpm) hph
  · refine Or.inr ?_
    have hident : Identical (introduced (gs i) (Lts.projection i tr)) :=
      fun x hx y hy => hassume.identical x (hsound.seen i x hx) y (hsound.seen i y hy)
    obtain ⟨-, hlen, hexec⟩ := hex.entries.of_mem hident hmem hb
    have hlong : 1 < b.length := by
      rcases hsound.linked b (hsound.seen i b hmem) with ⟨j, hj⟩ | ⟨hlt, -⟩
      · exact absurd (by rw [hj]) (hassume.freshRoots b hmined j)
      · exact hlt
    have hne : b.length ≠ 1 := by
      rintro hone
      rw [hone] at hlong
      exact absurd hlong (UInt32.lt_irrefl 1)
    obtain ⟨sp, s, v, hsp, he, hs⟩ := (hexec hne).state
    rcases hlen with ⟨hle, -⟩ | ⟨-, p, hp, hadd⟩
    · exact absurd hlong (UInt32.not_lt.2 hle)
    · obtain ⟨s', hwhole⟩ := executes_whole hrun hassume hmined hp hsp
      refine ⟨hlong, ⟨p, hp, toNat_of_checkedAdd hadd⟩, sp, s', hsp, hwhole, ?_⟩
      rw [he, Option.some_inj, Prod.mk.injEq] at hwhole
      rw [← hwhole.1]
      exact hs

/-! ### Chains -/

omit [Crypto] [Fintype ι] [DecidableEq ι] in
/-- One more block at the end of a chain. -/
theorem executeChain_concat : ∀ {blocks : List (List SignedTransaction)}
    {s m t : State} {v w data : List SignedTransaction}, executeChain s blocks = some (m, v) →
    executeTx m data = some (t, w) → executeChain s (blocks ++ [data]) = some (t, v ++ w) := by
  intro blocks
  induction blocks with
  | nil =>
      intro s m t v w data h hexec
      rw [executeChain, Option.some_inj, Prod.mk.injEq] at h
      obtain ⟨rfl, rfl⟩ := h
      simp [executeChain, hexec]
  | cons first rest ih =>
      intro s m t v w data h hexec
      obtain ⟨m', v', later, hfirst, hrest, rfl⟩ := executeChain_cons h
      simp [executeChain, hfirst, ih hrest hexec]

/-- A chain of stored blocks from a genesis block to the block at a hash, with the state after it:
each block has the length of the chain up to it, and executes whole on the state before it. -/
inductive Audited (gs : ι → GenesisDraw) (c : Blockchain) : H256 → List Block → State → Prop
  | genesis {i : ι} {h : H256} :
      c.getBlock h = some (gs i).block → c.getBlock (gs i).block.getParent = none →
      c.getBlockState h = some icoState → Audited gs c h [(gs i).block] icoState
  | child {h : H256} {b : Block} {chain : List Block} {sp s : State} :
      Audited gs c b.getParent chain sp → c.getBlock h = some b →
      b.length.toNat = chain.length + 1 → executeTx sp b.data = some (s, b.data) →
      c.getBlockState h = some s → Audited gs c h (chain ++ [b]) s

namespace Audited

variable {c : Blockchain} {h : H256} {chain : List Block} {s : State}

omit [Fintype ι] [DecidableEq ι] in
theorem stored (haudit : Audited gs c h chain s) :
    (∃ b, c.getBlock h = some b ∧ chain.getLast? = some b) ∧ c.getBlockState h = some s := by
  cases haudit with
  | genesis hb _ hs => exact ⟨⟨_, hb, rfl⟩, hs⟩
  | child _ hb _ _ hs => exact ⟨⟨_, hb, List.getLast?_concat⟩, hs⟩

omit [Fintype ι] [DecidableEq ι] in
theorem head (haudit : Audited gs c h chain s) : ∃ i, chain.head? = some (gs i).block := by
  induction haudit with
  | @genesis i _ _ _ _ => exact ⟨i, rfl⟩
  | child _ _ _ _ _ ih =>
      obtain ⟨i, hi⟩ := ih
      exact ⟨i, by rw [List.head?_append, hi, Option.some_or]⟩

omit [Fintype ι] [DecidableEq ι] in
/-- The walk from the block goes down its chain. -/
theorem walk (haudit : Audited gs c h chain s)
    (hkeys : ∀ k b, c.getBlock k = some b → b.hash = k) :
    c.chainFrom (chain.length + 1) h = some (chain.map Block.hash).reverse := by
  induction haudit with
  | @genesis i h hb hnone _ =>
      rw [Blockchain.chainFrom_eq, List.length_singleton,
        Pointers.path_of_some (Blockchain.parentAt_of_getBlock hb),
        Pointers.path_of_none (Blockchain.parentAt_eq_none.2 hnone), Option.map_some,
        ← hkeys _ _ hb]
      rfl
  | @child h b chain sp s haudit hb _ _ _ ih =>
      rw [Blockchain.chainFrom_eq] at ih ⊢
      rw [List.length_append, List.length_singleton,
        Pointers.path_of_some (Blockchain.parentAt_of_getBlock hb), ih, Option.map_some,
        List.map_append, List.reverse_append, ← hkeys _ _ hb]
      rfl

omit [Fintype ι] [DecidableEq ι] in
/-- **The chain replays to the state**, and every transaction in it is executed. -/
theorem replays (haudit : Audited gs c h chain s) :
    executeChain icoState (chain.map Block.data) = some (s, chain.flatMap Block.data) := by
  induction haudit with
  | genesis _ _ _ => rfl
  | child _ _ _ hexec _ ih =>
      rw [List.map_append, List.flatMap_append]
      exact executeChain_concat ih (by simpa using hexec)

end Audited

/-- **The chain of a stored block** is audited. -/
theorem exists_audited (hrun : Network.Run (Network.init gs) tr N) (hassume : Assumptions gs tr)
    {i : ι} {h : H256} {b : Block} (hb : (N i).blockchain.getBlock h = some b) :
    ∃ chain s, Audited gs (N i).blockchain h chain s ∧ b.length.toNat = chain.length := by
  -- by induction on the length of the block
  induction hk : b.length.toNat using Nat.strong_induction_on generalizing h b with
  | _ k ih =>
    subst hk
    rcases stored_cases hrun hassume hb with ⟨⟨j, rfl⟩, hparent, hstate⟩ | ⟨-, hparent, hstate⟩
    · exact ⟨_, _, .genesis hb hparent hstate, rfl⟩
    · obtain ⟨p, hp, hlen⟩ := hparent
      obtain ⟨sp, s, hsp, hexec, hs⟩ := hstate
      obtain ⟨chain, sp', haudit, hchain⟩ := ih _ (by omega) hp rfl
      have hsp' := haudit.stored.2
      rw [hsp, Option.some_inj] at hsp'
      subst hsp'
      have hlen' : b.length.toNat = chain.length + 1 := by omega
      refine ⟨_, _, .child haudit hb hlen' hexec hs, ?_⟩
      rw [hlen', List.length_append, List.length_singleton]

/-- The hash of a stored block is the one it is stored at. -/
theorem hash_of_stored (hrun : Network.Run (Network.init gs) tr N) (hassume : Assumptions gs tr)
    (i : ι) : ∀ k b, (N i).blockchain.getBlock k = some b → b.hash = k :=
  fun _ _ hb => ((sound_of_run hrun hassume).mem_of_stored hrun hassume hb).2

/-- Two nodes store the same block at a hash. -/
theorem same_block (hrun : Network.Run (Network.init gs) tr N) (hassume : Assumptions gs tr)
    {i j : ι} {h : H256} {b c : Block} (hb : (N i).blockchain.getBlock h = some b)
    (hc : (N j).blockchain.getBlock h = some c) : c = b := by
  have hsound := sound_of_run hrun hassume
  obtain ⟨hbm, hbh⟩ := hsound.mem_of_stored hrun hassume hb
  obtain ⟨hcm, hch⟩ := hsound.mem_of_stored hrun hassume hc
  exact hassume.identical c (hsound.seen j c hcm) b (hsound.seen i b hbm) (hch.trans hbh.symm)

namespace Audited

variable {c : Blockchain} {h : H256} {chain : List Block} {s : State}

omit [Fintype ι] [DecidableEq ι] in
theorem length_pos (haudit : Audited gs c h chain s) : 0 < chain.length := by
  cases haudit with
  | genesis _ _ _ => exact Nat.one_pos
  | child _ _ _ _ _ =>
      rw [List.length_append]
      exact Nat.succ_pos _

omit [Fintype ι] [DecidableEq ι] in
/-- Every block of the chain is stored, and has a part of the chain as its own. -/
theorem of_mem (haudit : Audited gs c h chain s) (hkeys : ∀ k b, c.getBlock k = some b → b.hash = k)
    {x : Block} (hx : x ∈ chain) :
    c.getBlock x.hash = some x ∧ ∃ chain' s', Audited gs c x.hash chain' s' := by
  induction haudit with
  | genesis hb hnone hs =>
      rw [List.mem_singleton.1 hx]
      have hhash := hkeys _ _ hb
      rw [← hhash] at hb hs
      exact ⟨hb, _, _, .genesis hb hnone hs⟩
  | child haudit hb hlen hexec hs ih =>
      rcases List.mem_append.1 hx with hx | hx
      · exact ih hx
      · rw [List.mem_singleton.1 hx]
        have hhash := hkeys _ _ hb
        rw [← hhash] at hb hs
        exact ⟨hb, _, _, .child haudit hb hlen hexec hs⟩

/-- **A chain that one node has is the chain of every node that stores its last block.** -/
theorem transfer (hrun : Network.Run (Network.init gs) tr N) (hassume : Assumptions gs tr) {i j : ι}
    (haudit : Audited gs (N i).blockchain h chain s)
    (hstored : ((N j).blockchain.getBlock h).isSome) : Audited gs (N j).blockchain h chain s := by
  induction haudit with
  | @genesis k h hb _ _ =>
      obtain ⟨b, hb'⟩ := Option.isSome_iff_exists.1 hstored
      obtain rfl := same_block hrun hassume hb hb'
      rcases stored_cases hrun hassume hb' with ⟨-, hparent, hstate⟩ | ⟨hlong, -, -⟩
      · exact .genesis hb' hparent hstate
      · exact absurd hlong (UInt32.lt_irrefl 1)
  | @child h b chain sp s haudit hb hlen hexec _ ih =>
      obtain ⟨b', hb'⟩ := Option.isSome_iff_exists.1 hstored
      obtain rfl := same_block hrun hassume hb hb'
      have hpos := haudit.length_pos
      rcases stored_cases hrun hassume hb' with ⟨⟨k, rfl⟩, -, -⟩ | ⟨-, hparent, hstate⟩
      · -- a genesis block has length 1
        change 1 = chain.length + 1 at hlen
        omega
      · obtain ⟨p, hp, -⟩ := hparent
        obtain ⟨sp', s', hsp', hexec', hs'⟩ := hstate
        have haudit' := ih (by rw [hp]; rfl)
        have hsp := haudit'.stored.2
        rw [hsp', Option.some_inj] at hsp
        rw [hsp, hexec, Option.some_inj, Prod.mk.injEq] at hexec'
        rw [← hexec'.1] at hs'
        exact .child haudit' hb' hlen hexec hs'

end Audited

/-! ### Main results -/

/-- **The chain of a stored block replays to its state.**  In a network of honest nodes, the walk
from a stored block along parent hashes ends at the genesis block of a node after as many blocks as
the length of the block says, and executing their transactions on the state of the initial offering,
from the genesis block on, executes every one of them and ends in the stored state. -/
theorem chain_replays (hrun : Network.Run (Network.init gs) tr N) (hassume : Assumptions gs tr)
    {i : ι} {h : H256} {b : Block} (hb : (N i).blockchain.getBlock h = some b) :
    ∃ (chain : List Block) (s : State), chain.length = b.length.toNat ∧ chain.getLast? = some b ∧
      (∃ j, chain.head? = some (gs j).block) ∧
      (∀ x ∈ chain, (N i).blockchain.getBlock x.hash = some x) ∧
      (N i).blockchain.chainFrom (chain.length + 1) h = some (chain.map Block.hash).reverse ∧
      executeChain icoState (chain.map Block.data) = some (s, chain.flatMap Block.data) ∧
      (N i).blockchain.getBlockState h = some s := by
  have hkeys := hash_of_stored hrun hassume i
  obtain ⟨chain, s, haudit, hlen⟩ := exists_audited hrun hassume hb
  obtain ⟨⟨b', hb', hlast⟩, hs⟩ := haudit.stored
  rw [hb, Option.some_inj] at hb'
  subst hb'
  exact ⟨chain, s, hlen.symm, hlast, haudit.head, fun x hx => (haudit.of_mem hkeys hx).1,
    haudit.walk hkeys, haudit.replays, hs⟩

/-- **Two nodes that both store a block have the same chain below it**: their walks from it visit the
same hashes, and they have the same block and the same state for each of them. -/
theorem chains_agree (hrun : Network.Run (Network.init gs) tr N) (hassume : Assumptions gs tr)
    {i j : ι} {h : H256} (hi : ((N i).blockchain.getBlock h).isSome)
    (hj : ((N j).blockchain.getBlock h).isSome) (fuel : ℕ) :
    (N i).blockchain.chainFrom fuel h = (N j).blockchain.chainFrom fuel h ∧
      ∀ l ∈ (N i).blockchain.chainFrom fuel h, ∀ k ∈ l,
        ((N i).blockchain.getBlock k).isSome ∧
        (N i).blockchain.getBlock k = (N j).blockchain.getBlock k ∧
        (N i).blockchain.getBlockState k = (N j).blockchain.getBlockState k := by
  obtain ⟨b, hb⟩ := Option.isSome_iff_exists.1 hi
  obtain ⟨chain, s, haudit, -⟩ := exists_audited hrun hassume hb
  have haudit' := haudit.transfer hrun hassume hj
  have hkeys := hash_of_stored hrun hassume i
  have hkeys' := hash_of_stored hrun hassume j
  have hwalk := haudit.walk hkeys
  have hwalk' := haudit'.walk hkeys'
  refine ⟨?_, fun l hl k hk => ?_⟩
  · rw [Blockchain.chainFrom_eq] at hwalk hwalk' ⊢
    rw [Blockchain.chainFrom_eq]
    exact Pointers.path_congr_of_eq hwalk hwalk' fuel
  · -- the walk has visited the chain
    have hl' : l = (chain.map Block.hash).reverse := by
      rw [Blockchain.chainFrom_eq] at hwalk hl
      exact Pointers.path_unique hl hwalk
    rw [hl', List.mem_reverse] at hk
    obtain ⟨x, hx, rfl⟩ := List.mem_map.1 hk
    obtain ⟨hxi, chain₁, s₁, hx₁⟩ := haudit.of_mem hkeys hx
    obtain ⟨hxj, -⟩ := haudit'.of_mem hkeys' hx
    have hx₂ := hx₁.transfer hrun hassume (j := j) (by rw [hxj]; rfl)
    rw [hxi, hxj, hx₁.stored.2, hx₂.stored.2]
    exact ⟨rfl, rfl, rfl⟩

omit [Crypto] [Fintype ι] [DecidableEq ι] in
/-- Stores with the same blocks have the same tip and the same walk from it. -/
theorem allBlocksInLongestChain_congr {c d : Blockchain} (h : ∀ k, c.getBlock k = d.getBlock k)
    (order : List H256) (fuel : ℕ) :
    c.allBlocksInLongestChain order fuel = d.allBlocksInLongestChain order fuel := by
  have hparent : c.parentAt = d.parentAt := by
    funext k
    rw [Blockchain.parentAt, Blockchain.parentAt, h]
  have htip : c.tip order = d.tip order := by simp only [Blockchain.tip, h]
  rw [Blockchain.allBlocksInLongestChain, Blockchain.allBlocksInLongestChain, htip,
    Blockchain.chainFrom_eq, Blockchain.chainFrom_eq, hparent]

/-- **Nodes that store the same hashes have the same store**, and their APIs give the same replies. -/
theorem stores_converge (hrun : Network.Run (Network.init gs) tr N) (hassume : Assumptions gs tr)
    {i j : ι} (hsame : ∀ k, k ∈ (N i).blockchain.blocks ↔ k ∈ (N j).blockchain.blocks) :
    (N i).blockchain.blocks = (N j).blockchain.blocks ∧
      (∀ k ∈ (N i).blockchain.blocks,
        (N i).blockchain.getBlockState k = (N j).blockchain.getBlockState k) ∧
      ∀ order fuel,
        Api.longestChain (N i).blockchain order fuel = Api.longestChain (N j).blockchain order fuel ∧
        Api.longestChainTx (N i).blockchain order fuel =
          Api.longestChainTx (N j).blockchain order fuel ∧
        ∀ block, Api.state (N i).blockchain order fuel block =
          Api.state (N j).blockchain order fuel block := by
  have hblock : ∀ k, (N i).blockchain.getBlock k = (N j).blockchain.getBlock k := by
    intro k
    cases hi : (N i).blockchain.getBlock k with
    | none =>
        have hnot : k ∉ (N j).blockchain.blocks := by
          rw [← hsame, ← Finmap.lookup_eq_none]
          exact hi
        exact (Finmap.lookup_eq_none.2 hnot).symm
    | some b =>
        have hmem := (hsame k).1 (Finmap.mem_of_lookup_eq_some hi)
        obtain ⟨c, hc⟩ := Finmap.mem_iff.1 hmem
        have hc' : (N j).blockchain.getBlock k = some c := hc
        rw [hc', same_block hrun hassume hi hc']
  have hstate : ∀ k ∈ (N i).blockchain.blocks,
      (N i).blockchain.getBlockState k = (N j).blockchain.getBlockState k := by
    intro k hk
    obtain ⟨b, hb⟩ := Finmap.mem_iff.1 hk
    have hb' : (N i).blockchain.getBlock k = some b := hb
    obtain ⟨chain, s, haudit, -⟩ := exists_audited hrun hassume hb'
    have haudit' := haudit.transfer hrun hassume (j := j) (by rw [← hblock, hb']; rfl)
    rw [haudit.stored.2, haudit'.stored.2]
  refine ⟨Finmap.ext_lookup hblock, hstate, fun order fuel => ?_⟩
  have hchain := allBlocksInLongestChain_congr hblock order fuel
  refine ⟨hchain, ?_, fun block => ?_⟩
  · simp only [Api.longestChainTx, hchain, hblock]
  · rw [Api.state, Api.state, hchain]
    cases hl : (N j).blockchain.allBlocksInLongestChain order fuel with
    | none => rfl
    | some l =>
        simp only [Option.bind_eq_bind, Option.bind_some]
        split
        · rfl
        · refine Option.bind_congr fun k hk => congrArg some (hstate k ?_)
          -- the walk visits stored blocks only
          rw [Blockchain.allBlocksInLongestChain, Blockchain.chainFrom_eq] at hl
          have hmem := List.mem_of_getElem? hk
          rw [← Pointers.walk_of_path hl] at hmem
          have hsome := Pointers.isSome_of_mem_walk hmem
          rw [Blockchain.parentAt, Option.isSome_map, ← hblock] at hsome
          exact Finmap.lookup_isSome.1 hsome

/-! ### Two nodes that exchange a block -/

omit [Crypto] [Fintype ι] [DecidableEq ι]

/-- The run of the two nodes meets the assumptions. -/
theorem assumptions_generateAndMine (gs : Bool → GenesisDraw)
    (hgs : gs = twoGenesis ∨ gs = fun _ => sampleGenesis) :
    letI := sampleCrypto
    Assumptions gs (Lts.replayTrace Network.step (Network.init gs) generateAndMine) := by
  rcases hgs with rfl | rfl
  · exact @Assumptions.mk sampleCrypto Bool _ _ _ (by decide +kernel) (by decide +kernel)
      (by decide +kernel) (by decide +kernel)
  · exact @Assumptions.mk sampleCrypto Bool _ _ _ (by decide +kernel) (by decide +kernel)
      (by decide +kernel) (by decide +kernel)

/-- The chain of the block with the payment, in the second node. -/
theorem chain_replays_payment :
    letI := sampleCrypto
    ∃ (N : Network Bool) (chain : List Block) (s : State), chain.length = 2 ∧
      executeChain icoState (chain.map Block.data) = some (s, chain.flatMap Block.data) ∧
      (N true).blockchain.getBlockState 2 = some s := by
  obtain ⟨N, hrun, hb, -⟩ := exists_generateAndMine
  obtain ⟨chain, s, hlen, -, -, -, -, hreplays, hs⟩ :=
    @chain_replays sampleCrypto Bool _ _ _ _ _ hrun
      (assumptions_generateAndMine twoGenesis (Or.inl rfl)) _ _ _ hb
  exact ⟨N, chain, s, hlen, hreplays, hs⟩

/-- The two nodes have the same chain below the block with the payment. -/
theorem chains_agree_payment :
    letI := sampleCrypto
    ∃ N : Network Bool, (N true).blockchain.getBlock 2 ≠ none ∧
      (N false).blockchain.chainFrom 3 2 = (N true).blockchain.chainFrom 3 2 := by
  obtain ⟨N, hrun, hi, hj⟩ := @Lts.exists_run_of_replay _ _ (@step sampleCrypto Bool _ _)
    generateAndMine (@init sampleCrypto Bool twoGenesis)
    (fun N => ((N false).blockchain.getBlock 2).isSome ∧ ((N true).blockchain.getBlock 2).isSome)
    (by decide +kernel)
  refine ⟨N, Option.isSome_iff_ne_none.1 hj, ?_⟩
  exact (@chains_agree sampleCrypto Bool _ _ _ _ _ hrun
    (assumptions_generateAndMine twoGenesis (Or.inl rfl)) _ _ _ hi hj 3).1

/-- Two nodes with the same genesis block, after they have exchanged a block. -/
theorem stores_converge_payment :
    letI := sampleCrypto
    ∃ N : Network Bool, 2 ∈ (N true).blockchain.blocks ∧
      (N false).blockchain.blocks = (N true).blockchain.blocks := by
  obtain ⟨N, hrun, hmem, hkeys⟩ := @Lts.exists_run_of_replay _ _ (@step sampleCrypto Bool _ _)
    generateAndMine (@init sampleCrypto Bool fun _ => sampleGenesis)
    (fun N => 2 ∈ (N true).blockchain.blocks ∧
      (N false).blockchain.blocks.keys = (N true).blockchain.blocks.keys) (by decide +kernel)
  refine ⟨N, hmem, ?_⟩
  exact (@stores_converge sampleCrypto Bool _ _ _ _ _ hrun
    (assumptions_generateAndMine _ (Or.inr rfl)) _ _ fun k => by
      rw [← Finmap.mem_keys, hkeys, Finmap.mem_keys]).1

end Network

end BitcoinClient
