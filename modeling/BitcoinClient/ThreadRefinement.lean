/-
**The node is a faithful picture of its threads.**

`BitcoinClient.Node.step` does whole critical sections at once, and leaves out the mutexes of the mempool
and of the orphan buffer.  That is justified here: every run of the threads of `BitcoinClient.threads`, in
which each acquisition and each release of a mutex is a step, is matched by a run of the node that receives
no other messages.  Whenever the mutex of the store is free and not poisoned, the node has the store and the
orphan buffer of the threads; whenever that of the mempool is free, it has their mempool; and it has sent
all that the threads have sent.  So what is shown of the node in all its runs holds of the threads.

The threads do more than the node when they panic: then the node stays where it is, and what the thread had
in its hands is poisoned.

Main definitions:

* `BitcoinClient.Threads.Receives` — the step in which a network worker takes a message.

Main results:

* `BitcoinClient.MinerStage.simulated`, `BitcoinClient.MinerWorkerStage.simulated`,
  `BitcoinClient.ApiStage.simulated` — the node can follow every act of the other threads;
* `BitcoinClient.Threads.refines_node` — **the threads refine the node**.
-/

import BitcoinClient.MinerControl
import BitcoinClient.WorkerSections

set_option relaxedAutoImplicit false
set_option autoImplicit false

namespace BitcoinClient

variable [Crypto]

open Locks

/-! ### The miner -/

namespace MinerStage

variable {M : Message → Prop} {R R' : Node → Prop} {d : Shared} {n : Node} {a b : MinerStage}

omit [Crypto] in
theorem kind (k : ℕ) (t : ThreadId k) (h : (Stage.miner a).Of t) : (Stage.miner b).Of t := by
  cases t <;> exact h

/-- The miner goes on, and may take a signal. -/
theorem move {controlChan : List ControlSignal} {m : Miner} (h : Ready M R R' (.miner a) d n)
    (hfollows : Node.Follows M ((Stage.miner a).mined d) n { n with miner := m })
    (hheld : .mempool ∈ (Stage.miner a).holding ↔ .mempool ∈ b.held)
    (ha : (Stage.miner a).finished = [] ∧ ∀ mempool, (Stage.miner a).clears mempool = mempool)
    (hb : (Stage.miner b).finished = [] ∧ ∀ mempool, (Stage.miner b).clears mempool = mempool)
    (hinHand : b.InHand { d with controlChan := controlChan } { n with miner := m }) :
    LocalStep M R' (.miner a) d n (.miner b) { d with controlChan := controlChan }
      { n with miner := m } where
  kind := kind
  mempoolClean := h.mempoolClean
  servers := List.Subset.refl _
  server := h.server
  reaches := h.leads h.reaches hfollows
  follows _ := hfollows
  store := by
    by_cases hmem : .blockchain ∈ (Stage.miner a).holding
    · obtain ⟨hchain, horphans, hlock⟩ : Stores d n .free := h.store hmem
      exact Or.inl ⟨hmem, hchain, horphans, hlock⟩
    · exact Or.inr ⟨hmem, rfl, rfl, rfl, rfl, rfl, List.Subset.refl _⟩
  mempool := by
    by_cases hmem : .mempool ∈ (Stage.miner a).holding
    · refine Or.inl ⟨hmem, ?_⟩
      have hmempool := h.mempool hmem
      rw [ha.2] at hmempool
      rw [hb.2]
      exact hmempool
    · exact Or.inr ⟨hmem, rfl, rfl, fun hmem' => hmem (hheld.2 hmem')⟩
  inHand := hinHand
  miner := Or.inl ⟨a, rfl⟩
  closed := rfl
  controlClosed := Or.inl ⟨rfl, ne_dead _⟩
  chan l r _ _ := by
    rw [ha.1, hb.1]
    exact id

theorem simulated_readTip {use : TipUse} {operatingState : OperatingState} {e : Draw}
    (h : Ready M R R' (.miner (.readTip use operatingState)) d n) :
    Simulated M R' (.miner (.readTip use operatingState)) d n ((readTip use operatingState).next e d) := by
  have hmem : .blockchain ∈ (Stage.miner (.readTip use operatingState)).holding := by
    simp [Stage.mem_holding, Stage.held, held]
  obtain ⟨hchain, horphans, hlock⟩ : Stores d n .free := h.store hmem
  have hinHand : use.InHand d n operatingState := h.inHand
  cases e with
  | order order =>
      rw [next]
      split
      · rename_i horder
        split
        · exact .panic (.same h rfl rfl rfl)
        · rename_i tipBlock htip
          -- the node reads the same tip
          have hread : ∀ (m : Miner) (pc : Block → MinerPc),
              ({ n with miner := m } : Node).readTip order pc =
                some { n with miner := { m with pc := pc tipBlock } } := by
            intro m pc
            rw [Node.readTip]
            simp only [hlock, hchain, if_pos horder, htip]
            rfl
          cases use with
          | first =>
              have hminer : n.miner = { pc := .start, operatingState, controlChan := d.controlChan } :=
                hinHand
              have hstep : n.step (.minerStart order) = some { n with
                  miner := { pc := .loopHead tipBlock, operatingState,
                             controlChan := d.controlChan } } := by
                simp only [Node.step, hminer]
                refine (hread n.miner _).trans ?_
                rw [hminer]
              refine .release _ (move (b := .lockTip (.head tipBlock) operatingState) h
                (.of_step hstep (by simp) rfl) ?_ ⟨rfl, fun _ => rfl⟩ ⟨rfl, fun _ => rfl⟩ rfl)
              simp [Stage.mem_holding, Stage.held, held, Stage.wants, wants]
          | head genesisBlock =>
              have hminer : n.miner =
                  { pc := .loopHead genesisBlock, operatingState, controlChan := d.controlChan } := hinHand
              have hstep : n.step (.minerTip order) = some { n with
                  miner := { pc := .control genesisBlock tipBlock, operatingState,
                             controlChan := d.controlChan } } := by
                simp only [Node.step, hminer]
                refine (hread n.miner _).trans ?_
                rw [hminer]
              refine .release _ (move (b := .control operatingState genesisBlock tipBlock) h
                (.of_step hstep (by simp) rfl) ?_ ⟨rfl, fun _ => rfl⟩ ⟨rfl, fun _ => rfl⟩ rfl)
              simp [Stage.mem_holding, Stage.held, held, Stage.wants, wants]
          | update genesisBlock =>
              obtain ⟨lambda, parentBlock, rfl, hminer⟩ := hinHand
              have hstep : n.step (.minerControl order) = some { n with
                  miner := { pc := .mining genesisBlock tipBlock, operatingState := .run lambda,
                             controlChan := d.controlChan } } := by
                simp only [Node.step, hminer, Node.controlStep]
                exact hread _ _
              refine .release _ (move (b := .mining (.run lambda) genesisBlock tipBlock) h
                (.of_step hstep (by simp) rfl) ?_ ⟨rfl, fun _ => rfl⟩ ⟨rfl, fun _ => rfl⟩ rfl)
              simp [Stage.mem_holding, Stage.held, held, Stage.wants, wants]
      · exact .blocked
  | _ => exact .blocked

/-- The miner goes on, and nothing changes. -/
theorem stay (h : Ready M R R' (.miner a) d n)
    (hheld : .mempool ∈ (Stage.miner a).holding ↔ .mempool ∈ b.held)
    (ha : (Stage.miner a).finished = [] ∧ ∀ mempool, (Stage.miner a).clears mempool = mempool)
    (hb : (Stage.miner b).finished = [] ∧ ∀ mempool, (Stage.miner b).clears mempool = mempool)
    (hmined : (Stage.miner a).mined d = none) (hinHand : b.InHand d n) :
    LocalStep M R' (.miner a) d n (.miner b) d n :=
  move (m := n.miner) h (Or.inl ⟨rfl, hmined⟩) hheld ha hb hinHand

theorem simulated_control {operatingState : OperatingState} {genesisBlock parentBlock : Block}
    {e : Draw} (h : Ready M R R' (.miner (.control operatingState genesisBlock parentBlock)) d n) :
    Simulated M R' (.miner (.control operatingState genesisBlock parentBlock)) d n
      ((control operatingState genesisBlock parentBlock).next e d) := by
  have hminer : n.miner = { pc := .control genesisBlock parentBlock, operatingState,
                            controlChan := d.controlChan } := h.inHand
  have hnot : .mempool ∉ (Stage.miner (.control operatingState genesisBlock parentBlock)).holding := by
    simp [Stage.mem_holding, Stage.held, held, Stage.wants, wants]
  -- the miner of the node goes to `m`, in a step or by staying where it is
  have hgo : ∀ (b : MinerStage) (m : Miner) (controlChan : List ControlSignal),
      Node.Follows M none n { n with miner := m } → .mempool ∉ b.held →
      ((Stage.miner b).finished = [] ∧ ∀ mempool, (Stage.miner b).clears mempool = mempool) →
      b.InHand { d with controlChan := controlChan } { n with miner := m } →
      Simulated M R' (.miner (.control operatingState genesisBlock parentBlock)) d n
        (.go { d with controlChan := controlChan } (.miner b)) :=
    fun b m controlChan hfollows hheld hb hinHand =>
      .go _ (move h hfollows (iff_of_false hnot hheld) ⟨rfl, fun _ => rfl⟩ hb hinHand)
  have hlock : ∀ use state, Mutex.mempool ∉ (lockTip use state).held := fun _ _ => Finset.notMem_empty _
  cases operatingState with
  | paused =>
      cases hchan : d.controlChan with
      | nil =>
          rw [next, hchan]
          exact .blocked
      | cons signal controlChan =>
          have hstep : n.step (.minerControl []) = some { n with
              miner := { pc := .loopHead genesisBlock,
                         operatingState := OperatingState.react .paused signal, controlChan } } := by
            simp only [Node.step, hminer, Node.controlStep, hchan]
            cases signal <;> rfl
          have hfollows := Node.Follows.of_step (M := M) hstep (by simp) rfl
          rw [next, hchan]
          cases signal with
          | exit | start | update =>
              exact hgo _ _ controlChan hfollows (hlock _ _) ⟨rfl, fun _ => rfl⟩ rfl
  | shutDown =>
      have halive := ne_stopped (control .shutDown genesisBlock parentBlock) h.inHand
      exact .go _ (stay h (iff_of_false hnot (Finset.notMem_empty _)) ⟨rfl, fun _ => rfl⟩
        ⟨rfl, fun _ => rfl⟩ rfl halive)
  | run lambda =>
      rw [next]
      cases hchan : d.controlChan with
      | nil =>
          have hstep : n.step (.minerControl []) = some { n with
              miner := { pc := .mining genesisBlock parentBlock, operatingState := .run lambda,
                         controlChan := d.controlChan } } := by
            simp only [Node.step, hminer, Node.controlStep, hchan, Node.setPc]
          exact hgo (.mining (.run lambda) genesisBlock parentBlock) _ d.controlChan
            (.of_step hstep (by simp) rfl) (Finset.notMem_empty _) ⟨rfl, fun _ => rfl⟩ rfl
      | cons signal controlChan =>
          cases signal with
          | exit =>
              have halive := ne_stopped (control (.run lambda) genesisBlock parentBlock) h.inHand
              exact hgo .stopped n.miner controlChan .stay (Finset.notMem_empty _)
                ⟨rfl, fun _ => rfl⟩ halive
          | start i =>
              have hstep : n.step (.minerControl []) = some { n with
                  miner := { pc := .mining genesisBlock parentBlock, operatingState := .run i,
                             controlChan } } := by
                simp only [Node.step, hminer, Node.controlStep, hchan]
              exact hgo (.mining (.run i) genesisBlock parentBlock) _ controlChan
                (.of_step hstep (by simp) rfl) (Finset.notMem_empty _) ⟨rfl, fun _ => rfl⟩ rfl
          | update =>
              refine hgo (.lockTip (.update genesisBlock) (.run lambda)) n.miner controlChan
                .stay (hlock _ _) ⟨rfl, fun _ => rfl⟩ ⟨lambda, parentBlock, rfl, ?_⟩
              rw [← hchan]
              exact hminer

/-- A round whose hash is too large mines nothing. -/
theorem mined_eq_none {genesisBlock parentBlock block : Block} {draw : MiningDraw}
    (hpc : n.miner.pc = .mining genesisBlock parentBlock) (hblock : draw.block parentBlock = some block)
    (hgt : H256.cmp block.hash block.getDifficulty = .gt) : n.mined (.mine draw) = none := by
  refine Option.eq_none_iff_forall_ne_some.2 fun b hb => ?_
  obtain ⟨draw', g, p, block', sp, v, x, hdraw, -, hpc', hblock', hle, -⟩ := Node.mined_iff.1 hb
  cases hdraw
  have hp : MinerPc.mining genesisBlock parentBlock = .mining g p := hpc.symm.trans hpc'
  cases hp
  rw [hblock, Option.some_inj] at hblock'
  rw [hblock', H256.cmp_gt_iff, ← BitVec.not_le] at hgt
  exact hgt hle

theorem simulated_mining {operatingState : OperatingState} {genesisBlock parentBlock : Block}
    {e : Draw} (h : Ready M R R' (.miner (.mining operatingState genesisBlock parentBlock)) d n) :
    Simulated M R' (.miner (.mining operatingState genesisBlock parentBlock)) d n
      ((mining operatingState genesisBlock parentBlock).next e d) := by
  have hminer : n.miner = { pc := .mining genesisBlock parentBlock, operatingState,
                            controlChan := d.controlChan } := h.inHand
  have hnot : .mempool ∉ (Stage.miner (.mining operatingState genesisBlock parentBlock)).holding := by
    simp [Stage.mem_holding, Stage.held, held, Stage.wants, wants]
  cases e with
  | mining draw =>
      rw [next]
      cases hblock : draw.block parentBlock with
      | none => exact .panic (.same h rfl rfl rfl)
      | some block =>
          dsimp only
          split
          · rename_i hgt
            have hstep : n.step (.mine draw) = some { n with
                miner := { pc := .loopHead genesisBlock, operatingState,
                           controlChan := d.controlChan } } := by
              simp only [Node.step, hminer, Node.mineStep, hblock, if_pos hgt, Node.setPc]
            have hmined := mined_eq_none (congrArg Miner.pc hminer) hblock hgt
            exact .go _ (move (b := .lockTip (.head genesisBlock) operatingState) h
              (.of_step hstep (by simp) hmined) (iff_of_false hnot (Finset.notMem_empty _)) ⟨rfl, fun _ => rfl⟩
              ⟨rfl, fun _ => rfl⟩ rfl)
          · rename_i hle
            exact .go _ (stay h (iff_of_false hnot (Finset.notMem_empty _)) ⟨rfl, fun _ => rfl⟩
              ⟨rfl, fun _ => rfl⟩ rfl ⟨hminer, draw, hblock, hle⟩)
  | _ => exact .blocked

section Found

variable {operatingState : OperatingState} {genesisBlock parentBlock block : Block}
  {txData : List SignedTransaction} {e : Draw}

theorem simulated_lockMempool
    (h : Ready M R R' (.miner (.lockMempool operatingState genesisBlock parentBlock block)) d n) :
    Simulated M R' (.miner (.lockMempool operatingState genesisBlock parentBlock block)) d n
      ((lockMempool operatingState genesisBlock parentBlock block).next e d) := by
  obtain ⟨hminer, draw, hfound⟩ := h.inHand
  cases e with
  | order order =>
      rw [next]
      split
      · rename_i horder
        refine .go _ (stay h (iff_of_true ?_ ?_) ⟨rfl, fun _ => rfl⟩ ⟨rfl, fun _ => rfl⟩ rfl
          ⟨hminer, { draw with order := order }, hfound, horder, rfl⟩)
        · exact Stage.mem_holding.2 (Or.inr rfl)
        · exact Finset.mem_singleton_self _
      · exact .blocked
  | _ => exact .blocked

theorem simulated_lockBlockchain
    (h : Ready M R R' (.miner (.lockBlockchain operatingState genesisBlock parentBlock block txData)) d n) :
    Simulated M R' (.miner (.lockBlockchain operatingState genesisBlock parentBlock block txData)) d n
      ((lockBlockchain operatingState genesisBlock parentBlock block txData).next e d) := by
  refine .go _ (stay h (iff_of_true ?_ ?_) ⟨rfl, fun _ => rfl⟩ ⟨rfl, fun _ => rfl⟩ rfl h.inHand)
  · exact Stage.mem_holding.2 (Or.inl (Finset.mem_singleton_self _))
  · exact Finset.mem_insert_self _ _

/-- The node after it has mined a block, from the transactions `txData` of its mempool. -/
def afterMining (n : Node) (genesisBlock block : Block) (newState : State)
    (txData validTx : List SignedTransaction) : Node :=
  { n.setPc (.loopHead genesisBlock) with
    blockchain := n.blockchain.putState block.hash newState
    mempool := deleteTxFromMempool n.mempool txData
    finishedBlockChan := n.finishedBlockChan ++
      (if block.getParent = genesisBlock.hash then [genesisBlock] else []) ++
      [{ block with data := validTx }] }

/-- The node mines when the state after the block is stored. -/
theorem simulated_executing
    (h : Ready M R R' (.miner (.executing operatingState genesisBlock parentBlock block txData)) d n) :
    Simulated M R' (.miner (.executing operatingState genesisBlock parentBlock block txData)) d n
      ((executing operatingState genesisBlock parentBlock block txData).next e d) := by
  have hmem : .blockchain ∈
      (Stage.miner (.executing operatingState genesisBlock parentBlock block txData)).holding := by
    simp [Stage.mem_holding, Stage.held, held]
  have hmem' : .mempool ∈
      (Stage.miner (.executing operatingState genesisBlock parentBlock block txData)).holding := by
    simp [Stage.mem_holding, Stage.held, held]
  obtain ⟨hchain, horphans, hlock⟩ : Stores d n .free := h.store hmem
  have hmempool : n.mempool = d.mempool := h.mempool hmem'
  obtain ⟨hminer, draw, ⟨hblock, hle⟩, horder, rfl⟩ := h.inHand
  rw [next]
  cases hstate : d.blockchain.getBlockState parentBlock.hash with
  | none =>
      refine .panic (.same h rfl rfl ?_)
      rw [Stage.mined, mined, hstate, Option.bind_none]
  | some parentState =>
      dsimp only
      cases hexec : executeTx parentState (batch d.mempool draw.order) with
      | none =>
          refine .panic (.same h rfl rfl ?_)
          rw [Stage.mined, mined, hstate, Option.bind_some, hexec, Option.map_none]
      | some result =>
          obtain ⟨newState, validTx⟩ := result
          have hmined : n.mined (.mine draw) = (Stage.miner (.executing operatingState genesisBlock
              parentBlock block (batch d.mempool draw.order))).mined d := by
            rw [Stage.mined, mined, hstate, Option.bind_some, hexec, Option.map_some]
            rw [← hmempool] at hexec
            rw [← hchain] at hstate
            rw [H256.cmp_gt_iff, BitVec.not_lt] at hle
            exact Node.mined_iff.2 ⟨draw, genesisBlock, parentBlock, block, parentState, newState, validTx,
              rfl, hlock, congrArg Miner.pc hminer, hblock, hle, hstate, hexec, rfl⟩
          have hstep : n.step (.mine draw) = some
              (afterMining n genesisBlock block newState (batch n.mempool draw.order) validTx) := by
            rw [← hmempool] at horder hexec
            rw [← hchain] at hstate
            simp only [Node.step, hminer, Node.mineStep, hblock, if_neg hle, h.mempoolClean,
              Bool.false_eq_true, if_false, Node.miningSection, hlock, if_pos horder, hstate, hexec, afterMining]
          have hfollows := Node.Follows.of_step (M := M) hstep (by simp) hmined
          refine .release (afterMining n genesisBlock block newState _ validTx)
            ⟨kind, h.mempoolClean, hfollows.server_subset, h.server, h.leads h.reaches hfollows,
              fun _ => hfollows, Or.inl ⟨hmem, ?_, horphans, hlock⟩, Or.inl ⟨hmem', ?_⟩, ?_,
              Or.inl ⟨_, rfl⟩, rfl, Or.inl ⟨rfl, ne_dead _⟩, fun l r _ hr hchan => ?_⟩
          · change n.blockchain.putState _ _ = _
            rw [hchain]
          · change deleteTxFromMempool n.mempool (batch n.mempool draw.order) = _
            rw [hmempool]
            rfl
          · change ({ n.miner with pc := _ } : Miner) = _
            rw [hminer]
          · have hr' : r = [] := hr ⟨_, rfl⟩
            have hchan' : n.finishedBlockChan = l ++ d.finishedBlockChan := by
              simpa [Stage.received, Stage.finished, hr'] using hchan
            change n.finishedBlockChan ++ _ ++ _ = _
            simp only [hchan', hr', Stage.received, Stage.finished, List.nil_append, List.append_nil,
              List.append_assoc]
            rfl

theorem simulated_finishing
    (h : Ready M R R' (.miner (.finishing operatingState genesisBlock block txData)) d n) :
    Simulated M R' (.miner (.finishing operatingState genesisBlock block txData)) d n
      ((finishing operatingState genesisBlock block txData).next e d) := by
  have hmem' : .mempool ∈
      (Stage.miner (.finishing operatingState genesisBlock block txData)).holding := by
    simp [Stage.mem_holding, Stage.held, held]
  have hnot : .blockchain ∉
      (Stage.miner (.finishing operatingState genesisBlock block txData)).holding := by
    simp [Stage.mem_holding, Stage.held, held, Stage.wants, wants]
  rw [next]
  dsimp only
  split
  · rename_i hclosed
    exact .panic ⟨rfl, h.server, Or.inr ⟨rfl, rfl⟩, rfl, rfl, rfl, rfl, rfl, Or.inr hclosed⟩
  · refine .release n ⟨kind, h.mempoolClean, List.Subset.refl _, h.server, h.leads h.reaches .stay, fun _ => .stay,
      Or.inr ⟨hnot, rfl, rfl, rfl, rfl, rfl, List.Subset.refl _⟩, Or.inl ⟨hmem', h.mempool hmem'⟩,
      h.inHand, Or.inl ⟨_, rfl⟩, rfl, Or.inl ⟨rfl, ne_dead _⟩, fun l r _ _ hchan => ?_⟩
    rw [hchan]
    simp [Stage.received, Stage.finished]

end Found

/-- The miner ends. -/
theorem simulated_stopped {e : Draw} (h : Ready M R R' (.miner .stopped) d n) :
    Simulated M R' (.miner .stopped) d n (stopped.next e d) := by
  have hnot : ∀ m, m ∉ (Stage.miner .stopped).holding := by
    simp [Stage.mem_holding, Stage.held, held, Stage.wants, wants]
  exact .go n ⟨fun _ t _ => Stage.of_dead t, h.mempoolClean, List.Subset.refl _, h.server,
    h.leads h.reaches .stay, fun _ => .stay, Or.inr ⟨hnot _, rfl, rfl, rfl, rfl, rfl, List.Subset.refl _⟩,
    Or.inr ⟨hnot _, rfl, rfl, Finset.notMem_empty _⟩, trivial, Or.inl ⟨_, rfl⟩, rfl,
    Or.inr ⟨⟨_, rfl⟩, rfl, rfl⟩, fun _ _ _ _ => id⟩

/-- **The node can follow every act of the miner.** -/
theorem simulated (e : Draw) (h : Ready M R R' (.miner a) d n) :
    Simulated M R' (.miner a) d n (a.next e d) := by
  cases a with
  | lockTip use operatingState =>
      refine .go _ (stay h (iff_of_false ?_ ?_) ⟨rfl, fun _ => rfl⟩ ⟨rfl, fun _ => rfl⟩ rfl h.inHand)
      · simp [Stage.mem_holding, Stage.held, held, Stage.wants, wants]
      · simp [held]
  | readTip use operatingState => exact simulated_readTip h
  | control operatingState genesisBlock parentBlock => exact simulated_control h
  | mining operatingState genesisBlock parentBlock => exact simulated_mining h
  | lockMempool operatingState genesisBlock parentBlock block => exact simulated_lockMempool h
  | lockBlockchain operatingState genesisBlock parentBlock block txData =>
      exact simulated_lockBlockchain h
  | executing operatingState genesisBlock parentBlock block txData => exact simulated_executing h
  | finishing operatingState genesisBlock block txData => exact simulated_finishing h
  | stopped => exact simulated_stopped h

end MinerStage

/-! ### The miner worker -/

namespace MinerWorkerStage

variable {M : Message → Prop} {R R' : Node → Prop} {d : Shared} {n : Node} {a b : MinerWorkerStage}

omit [Crypto] in
theorem kind (k : ℕ) (t : ThreadId k) (h : (Stage.minerWorker a).Of t) :
    (Stage.minerWorker b).Of t := by
  cases t <;> exact h

/-- **The node can follow every act of the miner worker.** -/
theorem simulated (h : Ready M R R' (.minerWorker a) d n) :
    Simulated M R' (.minerWorker a) d n (a.next d) := by
  have hnot : .mempool ∉ (Stage.minerWorker a).holding := by
    cases a <;> simp [Stage.mem_holding, Stage.held, held, Stage.wants, wants]
  have hheld : ∀ {b : MinerWorkerStage}, .mempool ∉ b.held := by
    intro b
    cases b <;> simp [held]
  cases a with
  | receive =>
      cases hchan : d.finishedBlockChan with
      | nil =>
          rw [next, hchan]
          dsimp only
          split
          · exact .panic (.same h rfl rfl rfl)
          · exact .blocked
      | cons block finishedBlockChan =>
          rw [next, hchan]
          refine .go n ⟨kind, h.mempoolClean, List.Subset.refl _, h.server, h.leads h.reaches .stay, fun _ => .stay,
            Or.inr ⟨?_, rfl, rfl, rfl, rfl, rfl, List.Subset.refl _⟩,
            Or.inr ⟨hnot, rfl, rfl, hheld⟩, trivial, Or.inr ⟨[], ?_, ?_⟩, rfl, Or.inl ⟨rfl, ne_dead _⟩,
            fun l r hl _ heq => ?_⟩
          · simp [Stage.mem_holding, Stage.held, held, Stage.wants, wants]
          · rw [List.append_nil]
          · rw [List.append_nil]
          · rw [heq, hchan, hl ⟨_, rfl⟩]
            rfl
  | lockBlockchain block =>
      refine .go _ (.quiet h kind (ne_dead _) .stay h.server (fun hmem => h.store hmem)
        (fun hmem => absurd hmem hnot) (fun _ => hheld) trivial ⟨rfl, rfl⟩)
  | inserting block =>
      have hmem : .blockchain ∈ (Stage.minerWorker (.inserting block)).holding := by
        simp [Stage.mem_holding, Stage.held, held]
      obtain ⟨hchain, horphans, hlock⟩ : Stores d n .free := h.store hmem
      obtain ⟨rest, hrest⟩ := h.chan ⟨_, rfl⟩
      have hrest' : n.finishedBlockChan = block :: (d.finishedBlockChan ++ rest) := by
        simpa [Stage.received] using hrest
      rw [next]
      cases hinsert : d.blockchain.insert block with
      | none => exact .panic (.same h rfl rfl rfl)
      | some blockchain =>
          have hstep : n.step .minerWorker = some
              { n with blockchain, finishedBlockChan := d.finishedBlockChan ++ rest,
                       server := n.server ++ [.blocks [block]] } := by
            simp only [Node.step, Node.minerWorkerStep, hrest', hlock, if_true, hchain, hinsert]
          have hfollows := Node.Follows.of_step (M := M) hstep (by simp) rfl
          refine .release { n with blockchain, finishedBlockChan := d.finishedBlockChan ++ rest,
                                   server := n.server ++ [.blocks [block]] }
            ⟨kind, h.mempoolClean, hfollows.server_subset,
              List.subset_append_of_subset_left _ h.server, h.leads h.reaches hfollows,
              fun _ => hfollows, Or.inl ⟨hmem, rfl, horphans, hlock⟩, Or.inr ⟨hnot, rfl, rfl, hheld⟩,
              ?_, Or.inr ⟨[], ?_, ?_⟩, rfl, Or.inl ⟨rfl, ne_dead _⟩, fun l r hl _ heq => ?_⟩
          · exact List.mem_append_right _ (List.mem_singleton_self _)
          · rw [List.append_nil]
          · rw [List.append_nil]
          · rw [hrest', hl ⟨_, rfl⟩] at heq
            have heq' : d.finishedBlockChan ++ rest = d.finishedBlockChan ++ r := by
              simpa [Stage.received, Stage.finished] using heq
            rw [hl ⟨_, rfl⟩]
            simpa [Stage.received, Stage.finished] using heq'
  | broadcasting block =>
      have hsent : .blocks [block] ∈ n.server := h.inHand
      refine .go n (.quiet h kind (ne_dead _) .stay ?_ (fun hmem => h.store hmem)
        (fun hmem => absurd hmem hnot) (fun _ => hheld) trivial ⟨rfl, rfl⟩)
      exact List.append_subset.2 ⟨h.server, by simpa using hsent⟩

end MinerWorkerStage

/-! ### The API and the transaction generator -/

namespace ApiStage

variable {M : Message → Prop} {R R' : Node → Prop} {d : Shared} {n : Node} {a b : ApiStage} {e : Draw}

omit [Crypto] in
theorem kind (k : ℕ) (t : ThreadId k) (h : (Stage.api a).Of t) : (Stage.api b).Of t := by
  cases t <;> exact h

theorem mempool_notMem_holding : .mempool ∉ (Stage.api a).holding := by
  cases a <;> simp [Stage.mem_holding, Stage.held, held, Stage.wants, wants]

omit [Crypto] in
theorem mempool_notMem_held : .mempool ∉ a.held := by
  cases a <;> simp [held]

/-- A thread of the API goes on, and nothing changes. -/
theorem stay (h : Ready M R R' (.api a) d n) (hinHand : (Stage.api b).InHand M R' d n) :
    LocalStep M R' (.api a) d n (.api b) d n :=
  .quiet h kind (ne_dead _) .stay h.server (fun hmem => h.store hmem)
    (fun hmem => absurd hmem mempool_notMem_holding) (fun _ => mempool_notMem_held) hinHand ⟨rfl, rfl⟩

theorem simulated_idle (h : Ready M R R' (.api .idle) d n) :
    Simulated M R' (.api .idle) d n (idle.next e d) := by
  cases e with
  | request request =>
      cases request with
      | minerStart lambda =>
          unfold next
          dsimp only
          split
          · exact .panic (.same h rfl rfl rfl)
          · rename_i hopen
            have hstep : n.step (.signal (.start lambda)) = some { n with
                miner := { n.miner with controlChan := n.miner.controlChan ++ [.start lambda] } } :=
              if_neg (h.alive (Bool.eq_false_iff.2 hopen))
            have hfollows := Node.Follows.of_step (M := M) hstep (by simp) rfl
            refine .go { n with
                miner := { n.miner with controlChan := n.miner.controlChan ++ [.start lambda] } }
              ⟨kind, h.mempoolClean, List.Subset.refl _, h.server, h.leads h.reaches hfollows,
                fun _ => hfollows, Or.inr ⟨?_, rfl, rfl, rfl, rfl, rfl, List.Subset.refl _⟩,
                Or.inr ⟨mempool_notMem_holding, rfl, rfl, mempool_notMem_held⟩, trivial,
                Or.inr ⟨[.start lambda], rfl, rfl⟩, rfl, Or.inl ⟨rfl, ne_dead _⟩, fun _ _ _ _ => id⟩
            simp [Stage.mem_holding, Stage.held, held, Stage.wants, wants]
      | networkPing =>
          refine .go { n with server := n.server ++ [.ping "Test ping"] }
            (.quiet h kind (ne_dead _) (.of_step (e := .ping) rfl (by simp) rfl) ?_ (fun hmem => h.store hmem)
              (fun hmem => absurd hmem mempool_notMem_holding) (fun _ => mempool_notMem_held) trivial
              ⟨rfl, rfl⟩)
          exact List.append_subset.2 ⟨List.subset_append_of_subset_left _ h.server,
            List.subset_append_right _ _⟩
      | txGeneratorStart | blockchain | other => exact .go _ (stay h trivial)
  | _ => exact .blocked

/-- What the generator may broadcast is broadcast by the node when the state is read. -/
theorem simulated_readingState (h : Ready M R R' (.api .readingState) d n) :
    Simulated M R' (.api .readingState) d n (readingState.next e d) := by
  have hmem : .blockchain ∈ (Stage.api .readingState).holding := by
    simp [Stage.mem_holding, Stage.held, held]
  obtain ⟨hchain, horphans, hlock⟩ : Stores d n .free := h.store hmem
  cases e with
  | order order =>
      unfold next
      dsimp only
      split
      · rename_i horder
        split
        · exact .panic (.same h rfl rfl rfl)
        · rename_i parentState hstate
          refine .release _ (stay h ?_)
          rintro draw tx ⟨transaction, htransaction, hchecks, rfl⟩
          have hstep : n.step (.generate order draw) = some { n with
              server := n.server ++ [.transactions
                [{ transaction, signature := draw.signature, publicKey := draw.publicKey }]] } := by
            rw [← hchain] at horder hstate
            simp only [Node.step, Node.generateStep, if_pos (And.intro hlock horder), hstate,
              htransaction, if_pos hchecks]
          exact ⟨_, h.leads h.reaches (.of_step hstep (by simp) rfl), ⟨rfl, List.subset_append_left _ _⟩,
            List.mem_append_right _ (List.mem_singleton_self _)⟩
      · exact .blocked
  | _ => exact .blocked

theorem simulated_generating {parentState : State} (h : Ready M R R' (.api (.generating parentState)) d n) :
    Simulated M R' (.api (.generating parentState)) d n ((generating parentState).next e d) := by
  cases e with
  | tx draw =>
      unfold next
      dsimp only
      split
      · exact .panic (.same h rfl rfl rfl)
      · rename_i transaction htransaction
        split
        · rename_i hchecks
          obtain ⟨m, hreaches, hmore, htx⟩ := h.inHand draw _ ⟨transaction, htransaction, hchecks, rfl⟩
          rw [hmore.eq] at hreaches
          refine .go { n with server := m.server } (.sends h kind (ne_dead _) (h.leads hreaches .stay) ?_ hmore.subset ?_
            (fun hmem => h.store hmem) (fun hmem => absurd hmem mempool_notMem_holding)
            (fun _ => mempool_notMem_held) trivial ⟨rfl, rfl⟩)
          · intro hnot
            exact absurd (by simp [Stage.mem_holding, Stage.held, held]) hnot
          · exact List.append_subset.2
              ⟨List.Subset.trans h.server hmore.subset, by simpa using htx⟩
        · exact .blocked
  | _ => exact .blocked

/-- **The node can follow every act of the API and of the generator.** -/
theorem simulated (e : Draw) (h : Ready M R R' (.api a) d n) :
    Simulated M R' (.api a) d n (a.next e d) := by
  cases a with
  | idle => exact simulated_idle h
  | lockBlockchain | lockStarted | lockState => exact .go _ (stay h trivial)
  | readingChain =>
      cases e with
      | chain order rounds =>
          unfold next
          dsimp only
          split
          · exact .release _ (stay h trivial)
          · exact .blocked
      | _ => exact .blocked
  | starting =>
      unfold next
      dsimp only
      split
      · exact .release _ (stay h trivial)
      · exact .go n (.quiet h kind (ne_dead _) .stay h.server (fun hmem => h.store hmem)
          (fun hmem => absurd hmem mempool_notMem_holding) (fun _ => mempool_notMem_held) trivial
          ⟨rfl, rfl⟩)
  | readingState => exact simulated_readingState h
  | generating parentState => exact simulated_generating h
  | finished => exact .blocked

end ApiStage

/-! ### Runs -/

/-- **The node can follow every act of every thread.** -/
theorem Stage.simulated {M : Message → Prop} {R R' : Node → Prop} {d : Shared} {n : Node} {a : Stage}
    (e : Draw) (h : Ready M R R' a d n)
    (hM : a = .networkWorker .receive → ∀ m, e = .message m → M m) :
    Simulated M R' a d n (threads.next a e d) := by
  cases a with
  | networkWorker stage => exact stage.simulated e h fun hstage => hM (by rw [hstage])
  | miner stage => exact stage.simulated e h
  | minerWorker stage => exact MinerWorkerStage.simulated h
  | api stage => exact stage.simulated e h
  | dead => exact .blocked

theorem Stage.unfinished_of_wants {a : Stage} {m : Mutex} (h : a.wants = some m) :
    a.finished = [] ∧ (∀ mempool, a.clears mempool = mempool) ∧ ∀ d, a.mined d = none := by
  cases a with
  | miner stage =>
      cases stage with
      | finishing | executing => cases h
      | _ => exact ⟨rfl, fun _ => rfl, fun _ => rfl⟩
  | _ => exact ⟨rfl, fun _ => rfl, fun _ => rfl⟩

namespace Threads

variable {numWorker : ℕ} {M : Message → Prop} {R R' : Node → Prop} {g : GenesisDraw} {S S' : Threads numWorker} {n : Node}
  {tr : List (Threads numWorker × (ThreadId numWorker × Draw))}

/-- In the step `x` a network worker takes the message from its channel. -/
def Receives (S : Threads numWorker) (x : ThreadId numWorker × Draw) (m : Message) : Prop :=
  S.pc x.1 = .networkWorker .receive ∧ x.2 = .message m

/-- The block that is mined in the step `x`. -/
def mined (S : Threads numWorker) (x : ThreadId numWorker × Draw) : Option Block :=
  (S.pc x.1).mined S.shared

/-- The blocks that are mined in a run, in order. -/
def minedBlocks (tr : List (Threads numWorker × (ThreadId numWorker × Draw))) : List Block :=
  tr.filterMap fun x => mined x.1 x.2

theorem simulates_init : Simulates M R (init numWorker g) (Node.init g) where
  placed t := by cases t <;> trivial
  mempoolClean := rfl
  server := List.Subset.refl _
  mempool := rfl
  free _ _ := ⟨rfl, rfl, rfl⟩
  held t ht := by cases t <;> exact absurd ht (Finset.notMem_empty _)
  inHand t := by cases t <;> trivial
  closed h := absurd h Bool.false_ne_true
  controlClosed := iff_of_false Bool.false_ne_true (MinerStage.ne_dead _)
  chan _ := rfl

/-- **The step lemma.** -/
theorem Simulates.of_step {x : ThreadId numWorker × Draw} (h : Simulates M R S n)
    (hR : Node.Leads M (mined S x) R R') (hreaches : R n) (howned : S.Owned Stage.held)
    (hs : threads.step S x = some S') (hM : ∀ m, Receives S x m → M m) :
    ∃ n', R' n' ∧ Simulates M R' S' n' := by
  obtain ⟨t, e⟩ := x
  have howned' := owned_step threads_annotates howned hs
  have hpc : ∀ u, u ≠ t → S'.pc u = S.pc u := fun u hu => step_pc_of_ne hs hu
  cases stepCase_of_step howned hs with
  | acts henters hmoves hpoisoned =>
      have hsim := Stage.simulated e (h.ready hR hreaches howned henters) fun hstage m hm => hM m ⟨hstage, hm⟩
      have hkeeps := threads_annotates.subset_of_moves hmoves
      have halive : S.pc t ≠ .dead := by
        intro hdead
        rw [hdead] at hmoves
        rcases hmoves with hgo | ⟨m, hrelease⟩
        · cases hgo
        · cases hrelease
      rcases hmoves with hgo | ⟨m, hrelease⟩
      · rw [hgo] at hsim
        cases hsim with
        | go n' hlocal =>
            exact ⟨n', hlocal.reaches,
              h.step hR howned howned' hpc hpoisoned halive henters hkeeps hlocal⟩
      · rw [hrelease] at hsim
        cases hsim with
        | release n' hlocal =>
            exact ⟨n', hlocal.reaches,
              h.step hR howned howned' hpc hpoisoned halive henters hkeeps hlocal⟩
  | dies hcause hshared hdead hpoisoned =>
      rcases hcause with ⟨rfl, m, hwants, -⟩ | ⟨henters, hpanic⟩
      · obtain ⟨hfinished, hclears, hmined⟩ := Stage.unfinished_of_wants hwants
        rw [mined, hmined] at hR
        refine ⟨n, hR hreaches .stay, h.crash hR howned howned' hpc hdead hshared (fun m => (hpoisoned m).1)
          (fun _ => Or.inr rfl) ?_⟩
        exact ⟨hmined _, h.server, Or.inr ⟨rfl, rfl⟩, (hclears _).symm, rfl, rfl, rfl, rfl, Or.inl hfinished⟩
      · have hsim := Stage.simulated e (h.ready hR hreaches howned henters)
          fun hstage m hm => hM m ⟨hstage, hm⟩
        rw [hpanic] at hsim
        cases hsim with
        | panic hlocal =>
            rw [mined, hlocal.mined] at hR
            exact ⟨n, hR hreaches .stay, h.crash hR howned howned' hpc hdead hshared
              (fun m => (hpoisoned m).1) (fun _ => Or.inl henters) hlocal⟩

/-- The relation along a run that only receives messages in `M`. -/
theorem simulates_of_run (hrun : Run (init numWorker g) tr S)
    (hM : ∀ x ∈ tr, ∀ m, Receives x.1 x.2 m → M m) :
    S.Owned Stage.held ∧ ∃ n, Node.Reaches M g (minedBlocks tr) n ∧
      Simulates M (Node.Reaches M g (minedBlocks tr)) S n := by
  induction hrun with
  | nil =>
      have hinit : Run (init numWorker g) [] (init numWorker g) := .nil
      exact ⟨owned_of_run hinit, Node.init g, ⟨[], .nil, by simp, rfl⟩, simulates_init⟩
  | @snoc tr S S' x hrun hs ih =>
      obtain ⟨howned, n, hreaches, h⟩ := ih fun y hy => hM y (List.mem_append_left _ hy)
      have hx := hM (S, x) (List.mem_append_right _ (List.mem_singleton_self _))
      have hblocks : minedBlocks (tr ++ [(S, x)]) = minedBlocks tr ++ (mined S x).toList :=
        Lts.Run.filterMap_concat _ tr (S, x)
      rw [hblocks]
      exact ⟨owned_step threads_annotates howned hs, h.of_step Node.leads_reaches hreaches howned hs hx⟩

/-- The control channel is closed when the miner has ended. -/
theorem controlChanClosed_iff (hrun : Run (init numWorker g) tr S) :
    S.shared.controlChanClosed = true ↔ S.pc .miner = .dead := by
  obtain ⟨-, n, -, h⟩ := simulates_of_run (M := fun _ => True) hrun fun _ _ _ _ => trivial
  exact h.controlClosed

/-- **The threads refine the node.**  For every run of the threads there is one of the node, which receives
no message that the threads have not received and mines the same blocks, and in which the node has the
store and the orphan buffer of the threads when the mutex of the store is free and not poisoned, their
mempool when its mutex is free, and has sent all that they have sent. -/
theorem refines_node (hrun : Run (init numWorker g) tr S) :
    ∃ tr' n, Node.Run (Node.init g) tr' n ∧
      (∀ y ∈ tr', ∀ m, y.2 = .message m → ∃ x ∈ tr, Receives x.1 x.2 m) ∧
      tr'.filterMap (fun y => y.1.mined y.2) = minedBlocks tr ∧
      (S.owner .blockchain = none → S.poisoned .blockchain = false →
        n.blockchain = S.shared.blockchain ∧ n.orphanBuffer = S.shared.orphanBuffer ∧ n.lock = .free) ∧
      (S.owner .mempool = none → n.mempool = S.shared.mempool) ∧
      S.shared.server ⊆ n.server := by
  obtain ⟨howned, n, ⟨tr', hrun', hM, hmined⟩, h⟩ :=
    simulates_of_run (M := fun m => ∃ x ∈ tr, Receives x.1 x.2 m) hrun fun x hx m hm => ⟨x, hx, hm⟩
  refine ⟨tr', n, hrun', hM, hmined, fun hfree hclean => ?_, fun hfree => ?_, h.server⟩
  · obtain ⟨hchain, horphans, hlock⟩ := h.free hfree hclean
    exact ⟨hchain, horphans, hlock⟩
  · rw [h.mempool, Stage.clears_eq]
    intro hheld
    rw [(howned .miner .mempool).2 hheld] at hfree
    cases hfree

/-- A network worker inserts the genesis block of another node; a request to the API pings in between. -/
def insertWhilePinging : List (ThreadId 1 × Draw) :=
  let worker := ThreadId.networkWorker (Fin.last 0)
  [(worker, .message (.blocks [sampleBlock 98 5 1 []])), (worker, .tau), (worker, .tau), (worker, .tau),
    (.api 0, .request .networkPing), (worker, .tau), (worker, .tau), (worker, .tau)]

omit [Crypto] in
/-- The run of the node for it. -/
theorem refines_node_ping :
    letI := sampleCrypto
    ∃ tr n, Node.Run (Node.init sampleGenesis) tr n ∧
      (n.blockchain.getBlock (sampleBlock 98 5 1 []).hash).isSome ∧ .ping "Test ping" ∈ n.server := by
  let _ := sampleCrypto
  obtain ⟨S, hrun, ⟨hfree, hclean⟩, hget, hping⟩ := @Lts.exists_run_of_replay _ _
    (@threads sampleCrypto).step insertWhilePinging (@init sampleCrypto 1 sampleGenesis)
    (fun S => (S.owner .blockchain = none ∧ S.poisoned .blockchain = false) ∧
      (S.shared.blockchain.getBlock (sampleBlock 98 5 1 []).hash).isSome ∧
      .ping "Test ping" ∈ S.shared.server) (by decide +kernel)
  obtain ⟨tr, n, hrun', -, -, hstore, -, hserver⟩ := refines_node hrun
  refine ⟨tr, n, hrun', ?_, hserver hping⟩
  rwa [(hstore hfree hclean).1]

end Threads

end BitcoinClient
