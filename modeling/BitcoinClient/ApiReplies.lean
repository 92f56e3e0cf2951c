/-
**The replies of the API about the longest chain.**

Three requests ask for the longest chain: for its hashes, for the hashes of its transactions, and for the
state after a number of its blocks.  Each of them has the mutex of the store while its reply is made.  In a
network of nodes that all run this code, what they reply is one chain, read in three ways: the hashes of its
blocks from the tip down, their transactions from the genesis block up, and the states that replaying them
gives.  Replies at different nodes and at different moments agree: when two chains have a block in common,
they have the same blocks below it.

Main definitions:

* `BitcoinClient.Api.Describes` — the three replies are those for a chain;
* `BitcoinClient.ThreadedNetwork.ReadsStore` — the step in which a request reads the store.

Main results:

* `BitcoinClient.Network.Audited.unique` — two chains that end at one block are the same, in different
  stores as well;
* `BitcoinClient.Api.describes_of_audited` — what the replies are made from;
* `BitcoinClient.ThreadedNetwork.replies_agree` — **the replies of all nodes agree, whenever they are given**.
-/

import BitcoinClient.ApiRequests
import BitcoinClient.ThreadedNetwork

set_option relaxedAutoImplicit false
set_option autoImplicit false

namespace BitcoinClient

variable [Crypto]

/-! ### Parts of a chain -/

namespace Network.Audited

variable {ι : Type} {gs : ι → GenesisDraw} {c d : Blockchain} {h : H256} {chain chain' : List Block}
  {s s' : State}

/-- Every block of a chain has the part up to it for its own chain. -/
theorem of_append (haudit : Audited gs c h chain s)
    (hkeys : ∀ k b, c.getBlock k = some b → b.hash = k) : ∀ {pre suf : List Block} {b : Block},
    chain = pre ++ b :: suf → ∃ s', Audited gs c b.hash (pre ++ [b]) s' := by
  induction haudit with
  | genesis hb hnone hs =>
      intro pre suf b hchain
      have hlen := congrArg List.length hchain
      rw [List.length_append, List.length_cons, List.length_cons, List.length_nil] at hlen
      obtain rfl : pre = [] := List.eq_nil_of_length_eq_zero (by omega)
      rw [List.nil_append, List.cons.injEq] at hchain
      obtain ⟨rfl, -⟩ := hchain
      have hhash := hkeys _ _ hb
      rw [← hhash] at hb hs
      exact ⟨_, .genesis hb hnone hs⟩
  | @child h b' chain sp s haudit hb hlen hexec hs ih =>
      intro pre suf b hchain
      rcases List.eq_nil_or_concat suf with rfl | ⟨suf, x, rfl⟩
      · -- the last block
        obtain ⟨rfl, hlast⟩ := List.append_inj' hchain rfl
        rw [List.cons.injEq] at hlast
        obtain ⟨rfl, -⟩ := hlast
        have hhash := hkeys _ _ hb
        rw [← hhash] at hb hs
        exact ⟨_, .child haudit hb hlen hexec hs⟩
      · rw [List.concat_eq_append, ← List.cons_append, ← List.append_assoc] at hchain
        exact ih (List.append_inj' hchain rfl).1

/-- **Two chains that end at one block are the same**, in different stores as well, as long as these have
the same blocks at the same hashes. -/
theorem unique (haudit : Audited gs c h chain s) (haudit' : Audited gs d h chain' s')
    (hsame : ∀ k b b', c.getBlock k = some b → d.getBlock k = some b' → b = b') : chain = chain' := by
  induction haudit generalizing chain' s' with
  | genesis hb _ _ =>
      cases haudit' with
      | genesis hb' _ _ => rw [hsame _ _ _ hb hb']
      | child haudit' hb' hlen' _ _ =>
          -- a genesis block has length 1
          have hpos := haudit'.length_pos
          rw [← hsame _ _ _ hb hb'] at hlen'
          change 1 = _ at hlen'
          omega
  | child haudit hb hlen _ _ ih =>
      cases haudit' with
      | genesis hb' _ _ =>
          have hpos := haudit.length_pos
          rw [hsame _ _ _ hb hb'] at hlen
          change 1 = _ at hlen
          omega
      | child haudit' hb' _ _ _ =>
          obtain rfl := hsame _ _ _ hb hb'
          rw [ih haudit']

end Network.Audited

/-! ### The replies for a chain -/

namespace Api

/-- The entries of a state as the API writes them. -/
def stateStrings (s : State) (addrs : List Address) : List String :=
  addrs.map fun a => a.toJson ++ " " ++ (s.accNonce a).toNat.repr ++ " " ++ (s.balance a).toNat.repr

/-- The three replies are those for the chain, which starts with its oldest block. -/
structure Describes (c : Blockchain) (order : List H256) (rounds : ℕ) (chain : List Block) : Prop where
  longestChain : ∀ addrs, Call.longestChain.chainResponse c order rounds addrs =
    some (respondJson (.strings (chain.reverse.map fun b => b.hash.toString)))
  longestChainTx : ∀ addrs, Call.longestChainTx.chainResponse c order rounds addrs =
    some (respondJson (.stringLists (chain.map fun b => b.data.map fun tx => tx.hash.toString)))
  state : ∀ (block : UInt64) (addrs : State → List Address), (∀ s : State, s.IterOrder (addrs s)) →
    block.toNat < chain.length → ∃ s, executeChain icoState ((chain.take (block.toNat + 1)).map Block.data) =
        some (s, (chain.take (block.toNat + 1)).flatMap Block.data) ∧
      (Call.state block).chainResponse c order rounds addrs =
        some (respondJson (.strings (stateStrings s (addrs s))))
  tooLarge : ∀ (block : UInt64) addrs, chain.length ≤ block.toNat →
    (Call.state block).chainResponse c order rounds addrs =
      some (respondResult false "block count is too large")

omit [Crypto] in
/-- All accounts are written, and no others. -/
theorem filterMap_stateString {s : State} {addrs : List Address} (haddrs : s.IterOrder addrs) :
    addrs.filterMap (stateString s) = stateStrings s addrs := by
  have hentry : ∀ a ∈ addrs, stateString s a = some (a.toJson ++ " " ++ (s.accNonce a).toNat.repr ++ " " ++
      (s.balance a).toNat.repr) := by
    intro a ha
    obtain ⟨x, hx⟩ := Finmap.mem_iff.1 ((haddrs.2 a).1 ha)
    obtain ⟨nonce, balance⟩ := x
    simp only [stateString, State.accNonce, State.balance, hx, Option.map_some]
  rw [List.filterMap_congr hentry, stateStrings]
  exact congrFun (List.filterMap_eq_map (f := _)) addrs

variable {ι : Type} {gs : ι → GenesisDraw} {c : Blockchain} {order : List H256} {rounds : ℕ}
  {chain : List Block} {s : State} {v : List H256}

/-- The walk from the tip visits the chain. -/
theorem walk_of_audited (haudit : Network.Audited gs c (c.tip order) chain s)
    (hkeys : ∀ k b, c.getBlock k = some b → b.hash = k)
    (hv : c.allBlocksInLongestChain order rounds = some v) : v = (chain.map Block.hash).reverse := by
  have hwalk := haudit.walk hkeys
  rw [Blockchain.chainFrom_eq] at hwalk
  rw [Blockchain.allBlocksInLongestChain, Blockchain.chainFrom_eq] at hv
  exact Pointers.path_unique hv hwalk

/-- **What the replies are made from.** -/
theorem describes_of_audited (haudit : Network.Audited gs c (c.tip order) chain s)
    (hkeys : ∀ k b, c.getBlock k = some b → b.hash = k)
    (hv : c.allBlocksInLongestChain order rounds = some v) : Describes c order rounds chain := by
  obtain rfl := walk_of_audited haudit hkeys hv
  have hlength : (chain.map Block.hash).reverse.length = chain.length := by
    rw [List.length_reverse, List.length_map]
  refine ⟨fun addrs => ?_, fun addrs => ?_, fun block addrs haddrs hblock => ?_,
    fun block addrs hblock => ?_⟩
  · rw [Call.chainResponse, Api.longestChain, hv, Option.map_some, List.map_reverse, List.map_reverse,
      List.map_map]
    rfl
  · obtain ⟨b, hb, -⟩ := haudit.stored.1
    have htx := (counts_from_genesis hb hv).1
    rw [Call.chainResponse, htx, Option.map_some, List.reverse_reverse, List.map_map, List.map_map]
    refine congrArg some (congrArg respondJson (congrArg Body.stringLists ?_))
    refine List.map_congr_left fun x hx => ?_
    simp [(haudit.of_mem hkeys hx).1]
  · -- the part of the chain up to the block
    have hsplit : chain = chain.take block.toNat ++ chain[block.toNat] :: chain.drop (block.toNat + 1) := by
      rw [← List.drop_eq_getElem_cons hblock, List.take_append_drop]
    obtain ⟨s', hpart⟩ := haudit.of_append hkeys hsplit
    rw [← List.take_succ_eq_append_getElem hblock] at hpart
    refine ⟨s', hpart.replays, ?_⟩
    have htarget : (chain.map Block.hash).reverse[(chain.map Block.hash).reverse.length - block.toNat - 1]? =
        some chain[block.toNat].hash := by
      have hindex : (chain.map Block.hash).length - 1 -
          ((chain.map Block.hash).length - block.toNat - 1) = block.toNat := by
        rw [List.length_map]
        omega
      rw [List.length_reverse, List.getElem?_reverse (by rw [List.length_map]; omega), hindex,
        List.getElem?_map, List.getElem?_eq_getElem hblock, Option.map_some]
    rw [Call.chainResponse, hv, Option.bind_eq_bind, Option.bind_some, if_neg (by rw [hlength]; omega),
      htarget, Option.bind_eq_bind, Option.bind_some, hpart.stored.2]
    dsimp only
    rw [filterMap_stateString (haddrs s')]
  · rw [Call.chainResponse, hv, Option.bind_eq_bind, Option.bind_some, if_pos (by rwa [hlength])]

end Api

/-! ### The requests of a network -/

namespace ThreadedNetwork

open Locks

variable {ι : Type} [Fintype ι] [DecidableEq ι] {numWorker : ι → ℕ} {gs : ι → GenesisDraw}
  {S : ThreadedNetwork numWorker}
  {tr : List (ThreadedNetwork numWorker × ((i : ι) × (ThreadId (numWorker i) × Draw)))}

omit [Fintype ι] in
/-- In the step, a request to the node `i` reads the store. -/
def ReadsStore (x : ThreadedNetwork numWorker × ((i : ι) × (ThreadId (numWorker i) × Draw))) (i : ι)
    (order : List H256) (rounds : ℕ) : Prop :=
  ∃ k, x.2 = ⟨i, .api k, .chain order rounds⟩ ∧ (x.1 i).pc (.api k) = .api .readingChain

/-- The store that is read: the walk from its tip ends, it visits the chain of a genesis block, and all
blocks of the store are registered. -/
structure Snapshot (gs : ι → GenesisDraw) (R : Finset Block) (c : Blockchain) (order : List H256)
    (rounds : ℕ) (chain : List Block) : Prop where
  registered : ∀ k b, c.getBlock k = some b → b ∈ R ∧ b.hash = k
  audited : ∃ s, Network.Audited gs c (c.tip order) chain s
  walk : ∃ v, c.allBlocksInLongestChain order rounds = some v

omit [DecidableEq ι] in
theorem mem_registry_iff {b : Block} :
    b ∈ registry gs tr ↔ (∃ i, (gs i).block = b) ∨ b ∈ minedBlocks tr := by
  simp [registry]

omit [DecidableEq ι] in
/-- What a run registers is registered in a longer one. -/
theorem registry_subset
    (tr tr' : List (ThreadedNetwork numWorker × ((i : ι) × (ThreadId (numWorker i) × Draw)))) :
    registry gs tr ⊆ registry gs (tr ++ tr') := by
  intro b hb
  rw [mem_registry_iff] at hb ⊢
  refine hb.imp id fun hb => ?_
  rw [minedBlocks, List.filterMap_append]
  exact List.mem_append_left _ hb

omit [DecidableEq ι] in
/-- The assumptions hold of a prefix of a run. -/
theorem Assumptions.of_append
    {tr tr' : List (ThreadedNetwork numWorker × ((i : ι) × (ThreadId (numWorker i) × Draw)))}
    (h : Assumptions gs (tr ++ tr')) : Assumptions gs tr := by
  have hmined : minedBlocks (tr ++ tr') = minedBlocks tr ++ minedBlocks tr' := by
    rw [minedBlocks, List.filterMap_append]
    rfl
  have hfresh := h.fresh
  rw [hmined, List.map_append] at hfresh
  refine ⟨fun x hx y hy => ?_, hfresh.of_append_left, fun b hb => h.freshRoots b ?_, fun i x hx => ?_⟩
  · exact h.collisionFree x (registry_subset tr tr' hx) y (registry_subset tr tr' hy)
  · rw [hmined]
    exact List.mem_append_left _ hb
  · exact h.rootsUnknown i x (registry_subset tr tr' hx)

/-- Registered blocks with one hash are identical. -/
theorem identical_of_run (hrun : Run (init numWorker gs) tr S) (hassume : Assumptions gs tr) :
    ∀ b ∈ registry gs tr, ∀ c ∈ registry gs tr, b.hash = c.hash → b = c := by
  obtain ⟨N, hpictures⟩ := pictures_of_run hrun
  obtain ⟨tr', -, -, hmined, -⟩ := hpictures.exists_run
  have hidentical := (hassume.network hmined).identical
  rwa [Network.registry, hmined] at hidentical

/-- **What a request reads.** -/
theorem exists_snapshot (hrun : Run (init numWorker gs) tr S) (hassume : Assumptions gs tr)
    {x : ThreadedNetwork numWorker × ((i : ι) × (ThreadId (numWorker i) × Draw))} (hx : x ∈ tr) {i : ι}
    {order : List H256} {rounds : ℕ} (hread : ReadsStore x i order rounds) :
    ∃ chain, Snapshot gs (registry gs tr) (x.1 i).shared.blockchain order rounds chain := by
  obtain ⟨T, y⟩ := x
  obtain ⟨k, rfl, hpc⟩ := hread
  dsimp only at hpc
  obtain ⟨tr₁, T', tr₂, hrun₁, hs, -, rfl⟩ := hrun.split_of_mem hx
  obtain ⟨-, s, hstep, -⟩ := step_eq_some.1 hs
  obtain ⟨N, hpictures⟩ := pictures_of_run hrun₁
  obtain ⟨tr', N', hrun', hmined, hmore⟩ := hpictures.exists_run
  have hassume' := hassume.of_append.network hmined
  -- the request has the mutex, and the node has the store
  have hstore : (N' i).blockchain = (T i).shared.blockchain := by
    have hheld : .blockchain ∈ ((T i).pc (.api k)).held := by
      rw [hpc]
      simp [Stage.held, ApiStage.held]
    have hsection := (hpictures.simulates i).held (.api k) hheld
    rw [hpc] at hsection
    obtain ⟨hchain, -⟩ : Stores (T i).shared (N i) .free := hsection
    rw [(hmore i).eq]
    exact hchain
  -- the walk has ended
  obtain ⟨horder, hwalk⟩ : Blockchain.IterOrder (T i).shared.blockchain.blocks order ∧
      ((T i).shared.blockchain.allBlocksInLongestChain order rounds).isSome := by
    rcases step_pc hstep with ⟨⟨m, hwants, -⟩, -⟩ | ⟨-, hnext, hpc'⟩
    · dsimp only at hwants
      rw [hpc] at hwants
      cases hwants
    · dsimp only at hnext hpc'
      rw [hpc] at hnext hpc'
      obtain ⟨order', rounds', he, horder, hwalk, -⟩ := Threads.readingChain_next hnext hpc'
      cases he
      exact ⟨horder, hwalk⟩
  rw [← hstore] at horder hwalk ⊢
  have hsound := Network.sound_of_run hrun' hassume'
  have hback := backed_of_run (Lts.run_projection hrun' i)
  obtain ⟨b, hb⟩ := mem_blocks_iff.1 (hback.chain.exists_tip horder).1
  obtain ⟨chain, state, haudit, -⟩ := Network.exists_audited hrun' hassume' hb
  refine ⟨chain, fun k b hb => ?_, ⟨state, haudit⟩, Option.isSome_iff_exists.1 hwalk⟩
  obtain ⟨hmem, hhash⟩ := hsound.mem_of_stored hrun' hassume' hb
  refine ⟨registry_subset _ _ ?_, hhash⟩
  have hseen := hsound.seen i b hmem
  rwa [Network.registry, hmined] at hseen

/-- **The replies of all nodes agree, whenever they are given.**  What a request about the longest chain
reads is a chain from a genesis block, and the three replies are those for this chain.  When the chains that
two requests read, to any nodes and at any moments, have a block in common, they have the same blocks below
it. -/
theorem replies_agree (hrun : Run (init numWorker gs) tr S) (hassume : Assumptions gs tr)
    {x y : ThreadedNetwork numWorker × ((i : ι) × (ThreadId (numWorker i) × Draw))} (hx : x ∈ tr)
    (hy : y ∈ tr) {i j : ι} {order order' : List H256} {rounds rounds' : ℕ}
    (hxr : ReadsStore x i order rounds) (hyr : ReadsStore y j order' rounds') :
    ∃ chain chain', Api.Describes (x.1 i).shared.blockchain order rounds chain ∧
      Api.Describes (y.1 j).shared.blockchain order' rounds' chain' ∧
      (∃ k, chain.head? = some (gs k).block) ∧
      ∀ pre b suf pre' b' suf', chain = pre ++ b :: suf → chain' = pre' ++ b' :: suf' →
        b.hash.toString = b'.hash.toString → pre = pre' ∧ b = b' := by
  obtain ⟨chain, hregistered, ⟨s, haudit⟩, v, hv⟩ := exists_snapshot hrun hassume hx hxr
  obtain ⟨chain', hregistered', ⟨s', haudit'⟩, v', hv'⟩ := exists_snapshot hrun hassume hy hyr
  have hkeys := fun k b hb => (hregistered k b hb).2
  have hkeys' := fun k b hb => (hregistered' k b hb).2
  refine ⟨chain, chain', Api.describes_of_audited haudit hkeys hv,
    Api.describes_of_audited haudit' hkeys' hv', haudit.head, ?_⟩
  intro pre b suf pre' b' suf' hchain hchain' htext
  have hhash := H256.toString_injective htext
  obtain ⟨m, hpart⟩ := haudit.of_append hkeys hchain
  obtain ⟨m', hpart'⟩ := haudit'.of_append hkeys' hchain'
  rw [← hhash] at hpart'
  -- the stores have the same blocks at the same hashes
  have hunique := hpart.unique hpart' fun k z z' hz hz' => by
    obtain ⟨hmem, hk⟩ := hregistered k z hz
    obtain ⟨hmem', hk'⟩ := hregistered' k z' hz'
    exact identical_of_run hrun hassume z hmem z' hmem' (hk.trans hk'.symm)
  obtain ⟨hpre, hlast⟩ := List.append_inj' hunique rfl
  exact ⟨hpre, (List.cons.inj hlast).1⟩

/-! ### Two requests to two nodes -/

omit [Crypto] [Fintype ι] [DecidableEq ι]

/-- One node has mined a block, the other one has received it, and both are asked for the longest chain. -/
def mineAndAsk : List ((_ : Bool) × (ThreadId 1 × Draw)) :=
  mineAndReceive ++
    [⟨false, .api 1, .request .blockchain⟩, ⟨false, .api 1, .tau⟩, ⟨true, .api 0, .request .blockchain⟩,
      ⟨false, .api 1, .chain [1, 2] 3⟩, ⟨true, .api 0, .tau⟩, ⟨true, .api 0, .chain [5, 1, 2] 4⟩]

/-- The two replies agree. -/
theorem replies_agree_mined :
    letI := sampleCrypto
    ∃ (S T : ThreadedNetwork fun _ : Bool => 1) (chain chain' : List Block),
      Api.Describes (S false).shared.blockchain [1, 2] 3 chain ∧
      Api.Describes (T true).shared.blockchain [5, 1, 2] 4 chain' ∧
      ∀ pre b suf pre' b' suf', chain = pre ++ b :: suf → chain' = pre' ++ b' :: suf' →
        b.hash.toString = b'.hash.toString → pre = pre' ∧ b = b' := by
  let _ := sampleCrypto
  obtain ⟨U, hrun, -⟩ := @Lts.exists_run_of_replay _ _ (@step sampleCrypto Bool _ (fun _ => 1) _) mineAndAsk
    (@init sampleCrypto Bool (fun _ => 1) twoGenesis) (fun _ => True) (by decide +kernel)
  have hassume : Assumptions twoGenesis
      (Lts.replayTrace step (init (fun _ : Bool => 1) twoGenesis) mineAndAsk) :=
    ⟨by decide +kernel, by decide +kernel, by decide +kernel, by decide +kernel⟩
  have hfirst : ((Lts.replayTrace step (init (fun _ : Bool => 1) twoGenesis) mineAndAsk).any fun x =>
      x.2 = ⟨false, .api 1, .chain [1, 2] 3⟩ ∧ (x.1 false).pc (.api 1) = .api .readingChain) = true := by
    decide +kernel
  have hsecond : ((Lts.replayTrace step (init (fun _ : Bool => 1) twoGenesis) mineAndAsk).any fun x =>
      x.2 = ⟨true, .api 0, .chain [5, 1, 2] 4⟩ ∧ (x.1 true).pc (.api 0) = .api .readingChain) = true := by
    decide +kernel
  obtain ⟨x, hx, hxr⟩ := List.any_eq_true.1 hfirst
  obtain ⟨y, hy, hyr⟩ := List.any_eq_true.1 hsecond
  obtain ⟨hx₂, hx₁⟩ := of_decide_eq_true hxr
  obtain ⟨hy₂, hy₁⟩ := of_decide_eq_true hyr
  obtain ⟨chain, chain', hdescribes, hdescribes', -, hagree⟩ :=
    replies_agree hrun hassume hx hy ⟨1, hx₂, hx₁⟩ ⟨0, hy₂, hy₁⟩
  exact ⟨x.1, y.1, chain, chain', hdescribes, hdescribes', hagree⟩

end ThreadedNetwork

end BitcoinClient
