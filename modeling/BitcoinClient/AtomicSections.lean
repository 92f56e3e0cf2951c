/-
**The critical sections of the threads, and the steps of the node.**

A step of the node does at once what a thread does between several acquisitions and releases of mutexes.
This module says what a thread has in hand at each stage of `BitcoinClient.threads`, compared with the node:
the data under a mutex may be ahead of the node or behind it only while the mutex is held, and only in the
way that the stage of its holder says.

A network worker does its treatment of a block when it has removed the transactions of the block from the
mempool: from there on the node is ahead of the store of the worker, until the block is attached or parked.
The miner mines when it has stored the state after its block, and the node is ahead of its mempool until
the transactions are removed from there, and ahead of the channel until the block is sent.  A signal to
update the tip is taken in the step that reads the tip.  The generator broadcasts what it has made from the
state it read before: the node may have done it at that moment.

Main definitions:

* `BitcoinClient.Node.Reaches`, `BitcoinClient.Node.Follows`, `BitcoinClient.Node.Leads` — runs and steps of
  the node that only receive some messages, with the blocks that they mine;
* `BitcoinClient.Stage.mined` — the block that a thread mines when it acts;
* `BitcoinClient.Stage.Section` — the store of a thread that holds its mutex, compared with the node;
* `BitcoinClient.Stage.InHand` — what a thread has read or received so far;
* `BitcoinClient.Threads.Simulates` — the relation between the threads and the node;
* `BitcoinClient.LocalStep`, `BitcoinClient.LocalPanic` — what a step of a thread has to establish.

Main results:

* `BitcoinClient.Threads.Simulates.step` — a step that establishes it keeps the relation;
* `BitcoinClient.Threads.Simulates.crash` — so does the death of a thread.
-/

import BitcoinClient.Core
import BitcoinClient.ServerLog
import BitcoinClient.Threads

set_option relaxedAutoImplicit false
set_option autoImplicit false

namespace BitcoinClient

variable [Crypto]

open Locks

/-! ### Runs of the node -/

section Reach

variable (M : Message → Prop)

/-- The node is reached by a run that only receives messages in `M` and mines the blocks `mined`. -/
def Node.Reaches (g : GenesisDraw) (mined : List Block) (n : Node) : Prop :=
  ∃ tr, Node.Run (Node.init g) tr n ∧ (∀ x ∈ tr, ∀ m, x.2 = .message m → M m) ∧
    tr.filterMap (fun x => x.1.mined x.2) = mined

/-- The node stays as it is, or takes a step; `mined` is the block that it mines, if any. -/
def Node.Follows (mined : Option Block) (n n' : Node) : Prop :=
  n' = n ∧ mined = none ∨
    ∃ e, n.step e = some n' ∧ (∀ m, e = .message m → M m) ∧ n.mined e = mined

/-- Such steps lead from the nodes in `R` to nodes in `R'`. -/
def Node.Leads (mined : Option Block) (R R' : Node → Prop) : Prop :=
  ∀ ⦃n n'⦄, R n → Node.Follows M mined n n' → R' n'

variable {M} {n n' m : Node} {mined : Option Block}

theorem Node.Follows.stay : Node.Follows M none n n := Or.inl ⟨rfl, rfl⟩

theorem Node.Follows.of_step {e : Event} (h : n.step e = some n')
    (he : ∀ m, e = .message m → M m) (hmined : n.mined e = mined) : Node.Follows M mined n n' :=
  Or.inr ⟨e, h, he, hmined⟩

theorem Node.leads_reaches {g : GenesisDraw} {blocks : List Block} :
    Node.Leads M mined (Node.Reaches M g blocks) (Node.Reaches M g (blocks ++ mined.toList)) := by
  rintro n n' ⟨tr, hrun, hM, rfl⟩ hfollows
  obtain ⟨rfl, rfl⟩ | ⟨e, hs, he, rfl⟩ := hfollows
  · refine ⟨tr, hrun, hM, ?_⟩
    rw [Option.toList_none, List.append_nil]
  · refine ⟨tr ++ [(n, e)], hrun.snoc hs, fun x hx => ?_, ?_⟩
    · rcases List.mem_append.1 hx with hx | hx
      · exact hM x hx
      · rw [List.mem_singleton.1 hx]
        exact he
    · exact Lts.Run.filterMap_concat (fun x : Node × Event => x.1.mined x.2) tr (n, e)

theorem Node.Follows.server_subset (h : Node.Follows M mined n n') : n.server ⊆ n'.server := by
  obtain ⟨rfl, -⟩ | ⟨e, hs, -⟩ := h
  · exact fun _ hm => hm
  · exact Node.server_subset hs

/-- What a node mines does not depend on what it has sent. -/
theorem Node.SentMore.mined_eq (hmore : n.SentMore m) (e : Event) : m.mined e = n.mined e := by
  rw [hmore.eq]
  rfl

theorem Node.SentMore.follows (hmore : n.SentMore m) (h : Node.Follows M mined n n') :
    ∃ m', Node.Follows M mined m m' ∧ n'.SentMore m' := by
  obtain ⟨rfl, rfl⟩ | ⟨e, hs, he, hmined⟩ := h
  · exact ⟨m, .stay, hmore⟩
  · obtain ⟨m', hm', hmore'⟩ := hmore.step hs
    exact ⟨m', .of_step hm' he ((hmore.mined_eq e).trans hmined), hmore'⟩

end Reach

/-! ### Computations on the store -/

/-- The store and the orphan buffer of a worker. -/
def Worker.bare (w : Worker) : Worker := { w with mempool := ∅, server := [] }

/-- A computation that only looks at the store and the orphan buffer. -/
structure StoreOnly {α : Type} (x : Worker → Exec Worker α) : Prop where
  inContext : ∀ f sent w, x (w.inContext f sent) = (x w).lift (Worker.inContext f sent)
  panicked : ∀ w w', x w = .panicked w' → w'.server = w.server

theorem storeOnly_handleWithoutParent (block : Block) :
    StoreOnly fun w => w.handleWithoutParent block where
  inContext f sent w := w.handleWithoutParent_inContext f sent block
  panicked w w' h := by
    rw [Worker.handleWithoutParent] at h
    split at h
    · split at h
      · cases h
        rfl
      · cases h
    · cases h

theorem storeOnly_attachIfValid (block parent : Block) :
    StoreOnly fun w => w.attachIfValid block parent where
  inContext f sent w := w.attachIfValid_inContext f sent block parent
  panicked w w' h := by
    rw [Worker.attachIfValid] at h
    split at h
    · cases ha : w.blockchain.attach block <;> rw [ha] at h <;> cases h
      rfl
    · cases h

omit [Crypto] in
theorem storeOnly_cleanup (idxToDelete : List ℕ) : StoreOnly fun w => w.cleanup idxToDelete where
  inContext f sent w := w.cleanup_inContext f sent idxToDelete
  panicked w w' h := by
    rw [Worker.cleanup] at h
    cases hr : removeAll idxToDelete w.orphanBuffer <;> rw [hr] at h <;> cases h
    rfl

section StoreOnly

variable {α : Type} {x : Worker → Exec Worker α} {w v w' : Worker} {a : α}

omit [Crypto] in
theorem StoreOnly.eq_lift (hx : StoreOnly x) (w : Worker) :
    x w = (x w.bare).lift (Worker.inContext (fun _ => w.mempool) w.server) := by
  rw [← hx.inContext]
  congr 1
  simp only [Worker.inContext, Worker.bare, List.append_nil]

omit [Crypto] in
/-- What the computation does, from what it does on the store alone. -/
theorem StoreOnly.eq_done (hx : StoreOnly x) (h : x w = .done w' a) :
    ∃ u, x w.bare = .done u a ∧
      w' = { u with mempool := w.mempool, server := w.server ++ u.server } := by
  rw [hx.eq_lift w] at h
  cases hu : x w.bare with
  | done u b =>
      rw [hu] at h
      cases h
      exact ⟨u, rfl, rfl⟩
  | panicked u | looping u =>
      rw [hu] at h
      cases h

omit [Crypto] in
theorem StoreOnly.eq_panicked (hx : StoreOnly x) (h : x w = .panicked w') :
    w'.mempool = w.mempool ∧ w'.server = w.server := by
  refine ⟨?_, hx.panicked w w' h⟩
  rw [hx.eq_lift w] at h
  cases hu : x w.bare with
  | panicked u =>
      rw [hu] at h
      cases h
      rfl
  | done u b | looping u =>
      rw [hu] at h
      cases h

end StoreOnly

/-! ### The store of a thread, compared with the node -/

/-- The node has the store of the threads, and its mutex is at `lock`. -/
structure Stores (d : Shared) (n : Node) (lock : ChainLock) : Prop where
  blockchain : n.blockchain = d.blockchain
  orphanBuffer : n.orphanBuffer = d.orphanBuffer
  lock : n.lock = lock

/-- The node has already done what a thread is about to do on the store. -/
def Ahead {α : Type} (n : Node) (x : Exec Worker α) (lock : α → ChainLock) : Prop :=
  ∀ u a, x = .done u a →
    n.blockchain = u.blockchain ∧ n.orphanBuffer = u.orphanBuffer ∧ u.server ⊆ n.server ∧
      n.lock = lock a

/-- A block that is attached to `parentBlock`, or has no parent in the store. -/
def AheadOfBlock (d : Shared) (n : Node) (block : Block) (rest : List Block) (newHashes : List H256) :
    Option Block → Prop
  | some parentBlock =>
    Ahead n (d.toWorker.bare.attachIfValid block parentBlock) fun _ =>
      .searching block block [] rest newHashes
  | none =>
    Ahead n (d.toWorker.bare.handleWithoutParent block) fun _ =>
      .held rest (newHashes ++ [block.hash])

def WorkerStage.Section (d : Shared) (n : Node) : WorkerStage → Prop
  | .blocks rest newHashes => Stores d n (.held rest newHashes)
  | .lockMempool block rest newHashes | .removing block rest newHashes =>
    Stores d n (.held (block :: rest) newHashes) ∧ d.blockchain.getBlock block.hash = none
  | .parentOf block rest newHashes =>
    AheadOfBlock d n block rest newHashes (d.blockchain.getParentBlock block)
  | .lockOrphans block parentBlock rest newHashes =>
    AheadOfBlock d n block rest newHashes parentBlock
  | .parking block rest newHashes => AheadOfBlock d n block rest newHashes none
  | .attaching block parentBlock rest newHashes =>
    AheadOfBlock d n block rest newHashes (some parentBlock)
  | .searching block newBlockInserted idxToDelete rest newHashes =>
    Stores d n (.searching block newBlockInserted idxToDelete rest newHashes)
  | _ => Stores d n .free

/-- **The store of a thread that holds its mutex**, compared with the node.  Elsewhere the two agree. -/
def Stage.Section (d : Shared) (n : Node) : Stage → Prop
  | .networkWorker stage => stage.Section d n
  | _ => Stores d n .free

/-- Nothing under the mutex of the store changes. -/
structure StoreFrame (d : Shared) (n : Node) (d' : Shared) (n' : Node) : Prop where
  blockchain : d'.blockchain = d.blockchain
  orphanBuffer : d'.orphanBuffer = d.orphanBuffer
  store : n'.blockchain = n.blockchain
  orphans : n'.orphanBuffer = n.orphanBuffer
  lock : n'.lock = n.lock
  server : n.server ⊆ n'.server

section Frame

variable {d d' : Shared} {n n' : Node}

omit [Crypto] in
theorem Stores.frame {lock : ChainLock} (h : Stores d n lock) (hframe : StoreFrame d n d' n') :
    Stores d' n' lock where
  blockchain := by rw [hframe.store, h.blockchain, hframe.blockchain]
  orphanBuffer := by rw [hframe.orphans, h.orphanBuffer, hframe.orphanBuffer]
  lock := by rw [hframe.lock, h.lock]

omit [Crypto] in
theorem Ahead.frame {α : Type} {x : Exec Worker α} {lock : α → ChainLock} (h : Ahead n x lock)
    (hframe : StoreFrame d n d' n') : Ahead n' x lock := by
  intro u a hx
  obtain ⟨hchain, horphans, hserver, hlock⟩ := h u a hx
  rw [hframe.store, hframe.orphans, hframe.lock]
  exact ⟨hchain, horphans, List.Subset.trans hserver hframe.server, hlock⟩

theorem AheadOfBlock.frame {block : Block} {rest : List Block} {newHashes : List H256}
    {parentBlock : Option Block} (h : AheadOfBlock d n block rest newHashes parentBlock)
    (hframe : StoreFrame d n d' n') : AheadOfBlock d' n' block rest newHashes parentBlock := by
  have hbare : d'.toWorker.bare = d.toWorker.bare := by
    simp only [Worker.bare, hframe.blockchain, hframe.orphanBuffer]
  cases parentBlock with
  | none =>
      rw [AheadOfBlock, hbare]
      exact Ahead.frame h hframe
  | some parentBlock =>
      rw [AheadOfBlock, hbare]
      exact Ahead.frame h hframe

theorem Stage.Section.frame {stage : Stage} (h : stage.Section d n)
    (hframe : StoreFrame d n d' n') : stage.Section d' n' := by
  cases stage with
  | networkWorker stage =>
      cases stage with
      | lockMempool block rest newHashes | removing block rest newHashes =>
          obtain ⟨hstores, hget⟩ := h
          refine ⟨hstores.frame hframe, ?_⟩
          rwa [hframe.blockchain]
      | parentOf block rest newHashes =>
          have hahead := AheadOfBlock.frame h hframe
          rw [← hframe.blockchain] at hahead
          exact hahead
      | lockOrphans block parentBlock rest newHashes => exact AheadOfBlock.frame h hframe
      | parking block rest newHashes =>
          exact (show AheadOfBlock d n block rest newHashes none from h).frame hframe
      | attaching block parentBlock rest newHashes =>
          exact (show AheadOfBlock d n block rest newHashes (some parentBlock) from h).frame hframe
      | _ => exact Stores.frame h hframe
  | _ => exact Stores.frame h hframe

end Frame

/-! ### What a thread has in hand -/

/-- The thread that a stage is one of; a dead thread may be any. -/
def Stage.Of {numWorker : ℕ} : Stage → ThreadId numWorker → Prop
  | .networkWorker _, .networkWorker _ => True
  | .miner _, .miner => True
  | .minerWorker _, .minerWorker => True
  | .api _, .api _ => True
  | .dead, _ => True
  | _, _ => False

/-- The block that the miner has mined when the state after it is stored. -/
def MinerStage.mined : MinerStage → Shared → Option Block
  | .executing _ _ parentBlock block txData, d =>
    (d.blockchain.getBlockState parentBlock.hash).bind fun parentState =>
      (executeTx parentState txData).map fun result => { block with data := result.2 }
  | _, _ => none

def Stage.mined : Stage → Shared → Option Block
  | .miner stage, d => stage.mined d
  | _, _ => none

/-- The transactions that the miner still has to remove from the mempool. -/
def Stage.clears : Stage → Mempool → Mempool
  | .miner (.finishing _ _ _ txData), mempool => deleteTxFromMempool mempool txData
  | _, mempool => mempool

/-- The blocks that the miner still has to send. -/
def Stage.finished : Stage → List Block
  | .miner (.finishing _ genesisBlock block _) =>
    (if block.getParent = genesisBlock.hash then [genesisBlock] else []) ++ [block]
  | _ => []

/-- The block that the miner worker has received and still has to insert. -/
def Stage.received : Stage → List Block
  | .minerWorker (.lockBlockchain block) | .minerWorker (.inserting block) => [block]
  | _ => []

/-- The block of a round with a small enough hash. -/
def FoundBlock (parentBlock block : Block) (draw : MiningDraw) : Prop :=
  draw.block parentBlock = some block ∧ ¬ H256.cmp block.hash block.getDifficulty = .gt

/-- The miner of the node, when that of the threads reads the tip. -/
def TipUse.InHand (d : Shared) (n : Node) (operatingState : OperatingState) : TipUse → Prop
  | .first => n.miner = { pc := .start, operatingState, controlChan := d.controlChan }
  | .head genesisBlock =>
    n.miner = { pc := .loopHead genesisBlock, operatingState, controlChan := d.controlChan }
  | .update genesisBlock =>
    -- the signal is still in the channel of the node
    ∃ lambda parentBlock, operatingState = .run lambda ∧
      n.miner = { pc := .control genesisBlock parentBlock, operatingState,
                  controlChan := .update :: d.controlChan }

/-- The miner of the node, at the stages of that of the threads. -/
def MinerStage.InHand (d : Shared) (n : Node) : MinerStage → Prop
  | .lockTip use operatingState | .readTip use operatingState => use.InHand d n operatingState
  | .control operatingState genesisBlock parentBlock =>
    n.miner = { pc := .control genesisBlock parentBlock, operatingState,
                controlChan := d.controlChan }
  | .mining operatingState genesisBlock parentBlock =>
    n.miner = { pc := .mining genesisBlock parentBlock, operatingState, controlChan := d.controlChan }
  | .lockMempool operatingState genesisBlock parentBlock block =>
    n.miner = { pc := .mining genesisBlock parentBlock, operatingState,
                controlChan := d.controlChan } ∧
      ∃ draw, FoundBlock parentBlock block draw
  | .lockBlockchain operatingState genesisBlock parentBlock block txData
  | .executing operatingState genesisBlock parentBlock block txData =>
    n.miner = { pc := .mining genesisBlock parentBlock, operatingState,
                controlChan := d.controlChan } ∧
      ∃ draw, FoundBlock parentBlock block draw ∧ Blockchain.IterOrder d.mempool draw.order ∧
        txData = batch d.mempool draw.order
  | .finishing operatingState genesisBlock _ _ =>
    n.miner = { pc := .loopHead genesisBlock, operatingState, controlChan := d.controlChan }
  | .stopped => n.miner.pc ≠ .stopped

/-- The generator may broadcast the transaction of `draw` on the state that it has read. -/
def Generates (parentState : State) (draw : TxDraw) (tx : SignedTransaction) : Prop :=
  ∃ transaction, doGenerateRandomTransaction parentState draw = some transaction ∧
    (draw.randTx < 10 ∧ draw.randRx < 10 ∧ draw.value < 100 ∧
      verify transaction draw.publicKey draw.signature = true) ∧
    tx = { transaction, signature := draw.signature, publicKey := draw.publicKey }

/-- **What a thread has read or received so far**, compared with the node.  Whatever the generator may
broadcast, the node may have broadcast before. -/
def Stage.InHand (M : Message → Prop) (R : Node → Prop) (d : Shared) (n : Node) : Stage → Prop
  | .networkWorker (.lockFor message) | .networkWorker (.holding message) => M message
  | .miner stage => stage.InHand d n
  | .minerWorker (.broadcasting block) => .blocks [block] ∈ n.server
  | .api (.generating parentState) =>
    ∀ draw tx, Generates parentState draw tx →
      ∃ m, R m ∧ n.SentMore m ∧ .transactions [tx] ∈ m.server
  | _ => True

/-- The miner does nothing; signals may be sent to it. -/
def MinerFrame (d : Shared) (n : Node) (d' : Shared) (n' : Node) : Prop :=
  ∃ signals, d'.controlChan = d.controlChan ++ signals ∧
    n'.miner = { n.miner with controlChan := n.miner.controlChan ++ signals }

section Frame

variable {M : Message → Prop} {R R' : Node → Prop} {d d' : Shared} {n n' : Node}

omit [Crypto] in
theorem TipUse.InHand.frame {use : TipUse} {operatingState : OperatingState}
    (h : use.InHand d n operatingState) (hminer : MinerFrame d n d' n') :
    use.InHand d' n' operatingState := by
  obtain ⟨signals, hchan, hminer⟩ := hminer
  cases use with
  | first | head =>
      rw [TipUse.InHand, hminer, h, hchan]
  | update =>
      obtain ⟨lambda, parentBlock, hstate, hm⟩ := h
      refine ⟨lambda, parentBlock, hstate, ?_⟩
      rw [hminer, hm, hchan, List.cons_append]

theorem MinerStage.InHand.frame {stage : MinerStage} (h : stage.InHand d n)
    (hminer : MinerFrame d n d' n') (hmempool : .mempool ∈ stage.held → d'.mempool = d.mempool) :
    stage.InHand d' n' := by
  cases stage with
  | lockTip use operatingState | readTip use operatingState => exact TipUse.InHand.frame h hminer
  | control | mining | finishing =>
      obtain ⟨signals, hchan, hminer⟩ := hminer
      rw [MinerStage.InHand, hminer, h, hchan]
  | lockMempool =>
      obtain ⟨signals, hchan, hminer⟩ := hminer
      refine ⟨?_, h.2⟩
      rw [hminer, h.1, hchan]
  | lockBlockchain | executing =>
      obtain ⟨signals, hchan, hminer⟩ := hminer
      refine ⟨?_, ?_⟩
      · rw [hminer, h.1, hchan]
      · rw [hmempool (by simp [MinerStage.held])]
        exact h.2
  | stopped =>
      obtain ⟨signals, hchan, hminer⟩ := hminer
      rw [MinerStage.InHand, hminer]
      exact h

theorem Stage.InHand.frame {stage : Stage} (h : stage.InHand M R d n) {mined : Option Block}
    (hR : Node.Leads M mined R R') (hserver : n.server ⊆ n'.server)
    (hminer : (∃ s, stage = .miner s) →
      MinerFrame d n d' n' ∧ (.mempool ∈ stage.held → d'.mempool = d.mempool))
    (hfollows : .startedTxGen ∈ stage.held → Node.Follows M mined n n') : stage.InHand M R' d' n' := by
  cases stage with
  | networkWorker stage => cases stage <;> exact h
  | miner stage => exact MinerStage.InHand.frame h (hminer ⟨stage, rfl⟩).1 (hminer ⟨stage, rfl⟩).2
  | minerWorker stage =>
      cases stage with
      | broadcasting block => exact hserver h
      | _ => trivial
  | api stage =>
      cases stage with
      | generating parentState =>
          intro draw tx hgenerates
          obtain ⟨m, hreaches, hmore, htx⟩ := h draw tx hgenerates
          obtain ⟨m', hm', hmore'⟩ := hmore.follows
            (hfollows (by simp [Stage.held, ApiStage.held]))
          exact ⟨m', hR hreaches hm', hmore', hm'.server_subset htx⟩
      | _ => trivial
  | dead => trivial

end Frame

/-! ### Stages -/

section Stages

variable {numWorker : ℕ} {stage : Stage} {t : ThreadId numWorker} {d : Shared} {n : Node}

omit [Crypto] in
theorem Stage.of_dead (t : ThreadId numWorker) : Stage.dead.Of t := by
  cases t <;> trivial

omit [Crypto] in
theorem WorkerStage.ne_dead (s : WorkerStage) : Stage.networkWorker s ≠ .dead := by simp

omit [Crypto] in
theorem MinerStage.ne_dead (s : MinerStage) : Stage.miner s ≠ .dead := by simp

omit [Crypto] in
theorem MinerWorkerStage.ne_dead (s : MinerWorkerStage) : Stage.minerWorker s ≠ .dead := by simp

omit [Crypto] in
theorem ApiStage.ne_dead (s : ApiStage) : Stage.api s ≠ .dead := by simp

omit [Crypto] in
theorem Stage.Of.eq_miner {s : MinerStage} (h : (Stage.miner s).Of t) : t = .miner := by
  cases t with
  | miner => rfl
  | _ => exact h.elim

omit [Crypto] in
theorem Stage.Of.eq_minerWorker {s : MinerWorkerStage} (h : (Stage.minerWorker s).Of t) :
    t = .minerWorker := by
  cases t with
  | minerWorker => rfl
  | _ => exact h.elim

theorem Stage.clears_eq (h : .mempool ∉ stage.held) (mempool : Mempool) :
    stage.clears mempool = mempool := by
  unfold clears
  split
  · simp [held, MinerStage.held] at h
  · rfl

theorem Stage.clears_of_ne (h : stage.Of t) (ht : t ≠ .miner) (mempool : Mempool) :
    stage.clears mempool = mempool := by
  unfold clears
  split
  · exact absurd h.eq_miner ht
  · rfl

theorem Stage.finished_of_ne (h : stage.Of t) (ht : t ≠ .miner) : stage.finished = [] := by
  unfold finished
  split
  · exact absurd h.eq_miner ht
  · rfl

omit [Crypto] in
theorem Stage.received_of_ne (h : stage.Of t) (ht : t ≠ .minerWorker) : stage.received = [] := by
  unfold received
  split
  · exact absurd h.eq_minerWorker ht
  · exact absurd h.eq_minerWorker ht
  · rfl

/-- A thread that does not hold the mutex of the store has nothing to do on it. -/
theorem Stage.Section.free (h : stage.Section d n) (hnot : .blockchain ∉ stage.held) :
    Stores d n .free := by
  cases stage with
  | networkWorker stage =>
      cases stage with
      | receive | lockFor | holding => exact h
      | _ => simp [held, WorkerStage.held] at hnot
  | _ => exact h

end Stages

/-! ### The relation -/

/-- The mutexes that a thread has when it acts. -/
abbrev Stage.holding (stage : Stage) : Finset Mutex := threads.holding Stage.held stage

/-- **The relation between the threads and the node.** -/
structure Threads.Simulates {numWorker : ℕ} (M : Message → Prop) (R : Node → Prop)
    (S : Threads numWorker) (n : Node) : Prop where
  placed : ∀ t, (S.pc t).Of t
  mempoolClean : n.mempoolPoisoned = false
  server : S.shared.server ⊆ n.server
  mempool : n.mempool = (S.pc .miner).clears S.shared.mempool
  free : S.owner .blockchain = none → S.poisoned .blockchain = false → Stores S.shared n .free
  held : ∀ t, .blockchain ∈ (S.pc t).held → (S.pc t).Section S.shared n
  inHand : ∀ t, (S.pc t).InHand M R S.shared n
  closed : S.shared.finishedBlockChanClosed = true → S.pc .minerWorker = .dead
  controlClosed : S.shared.controlChanClosed = true ↔ S.pc .miner = .dead
  chan : S.pc .minerWorker ≠ .dead → n.finishedBlockChan =
    (S.pc .minerWorker).received ++ S.shared.finishedBlockChan ++ (S.pc .miner).finished

/-- **What a step has to establish** that leads a thread from the stage `a` to `b`, with the node going from
`n` to `n'`. -/
structure LocalStep (M : Message → Prop) (R : Node → Prop) (a : Stage) (d : Shared) (n : Node)
    (b : Stage) (d' : Shared) (n' : Node) : Prop where
  kind : ∀ (k : ℕ) (t : ThreadId k), a.Of t → b.Of t
  mempoolClean : n'.mempoolPoisoned = false
  servers : n.server ⊆ n'.server
  server : d'.server ⊆ n'.server
  reaches : R n'
  follows : .startedTxGen ∉ a.holding → Node.Follows M (a.mined d) n n'
  store : .blockchain ∈ a.holding ∧ b.Section d' n' ∨
    .blockchain ∉ a.holding ∧ StoreFrame d n d' n'
  mempool : .mempool ∈ a.holding ∧ n'.mempool = b.clears d'.mempool ∨
    .mempool ∉ a.holding ∧ d'.mempool = d.mempool ∧ n'.mempool = n.mempool ∧ .mempool ∉ b.held
  inHand : b.InHand M R d' n'
  miner : (∃ s, a = .miner s) ∨ MinerFrame d n d' n'
  closed : d'.finishedBlockChanClosed = d.finishedBlockChanClosed
  controlClosed : d'.controlChanClosed = d.controlChanClosed ∧ b ≠ .dead ∨
    (∃ s, a = .miner s) ∧ d'.controlChanClosed = true ∧ b = .dead
  chan : ∀ l r, ((∃ s, a = .minerWorker s) → l = []) → ((∃ s, a = .miner s) → r = []) →
    n.finishedBlockChan = l ++ (a.received ++ d.finishedBlockChan ++ a.finished) ++ r →
    n'.finishedBlockChan = l ++ (b.received ++ d'.finishedBlockChan ++ b.finished) ++ r

/-- **What a panic has to establish** that leaves the data `d'` behind. -/
structure LocalPanic (a : Stage) (d : Shared) (n : Node) (d' : Shared) : Prop where
  mined : a.mined d = none
  server : d'.server ⊆ n.server
  store : .blockchain ∈ a.holding ∨
    d'.blockchain = d.blockchain ∧ d'.orphanBuffer = d.orphanBuffer
  mempool : d'.mempool = a.clears d.mempool
  controlChan : d'.controlChan = d.controlChan
  closed : d'.finishedBlockChanClosed = d.finishedBlockChanClosed
  controlClosed : d'.controlChanClosed = d.controlChanClosed
  chan : d'.finishedBlockChan = d.finishedBlockChan ∧
    (a.finished = [] ∨ d.finishedBlockChanClosed = true)

namespace Threads.Simulates

variable {numWorker : ℕ} {M : Message → Prop} {R R' : Node → Prop} {S S' : Threads numWorker}
  {n n' : Node} {t : ThreadId numWorker}

/-- **A step of a thread.** -/
theorem step (h : Simulates M R S n) (hR : Node.Leads M ((S.pc t).mined S.shared) R R')
    (howned : S.Owned Stage.held) (howned' : S'.Owned Stage.held)
    (hpc : ∀ u, u ≠ t → S'.pc u = S.pc u) (hpoisoned : S'.poisoned = S.poisoned)
    (halive : S.pc t ≠ .dead) (henters : threads.Enters S t) (hkeeps : (S'.pc t).held ⊆ (S.pc t).holding)
    (hlocal : LocalStep M R' (S.pc t) S.shared n (S'.pc t) S'.shared n') : Simulates M R' S' n' where
  placed u := by
    by_cases hu : u = t
    · rw [hu]
      exact hlocal.kind _ _ (h.placed t)
    · rw [hpc u hu]
      exact h.placed u
  mempoolClean := hlocal.mempoolClean
  server := hlocal.server
  mempool := by
    by_cases ht : t = .miner
    · subst ht
      rcases hlocal.mempool with ⟨-, hm⟩ | ⟨hnot, hd, hn, hb⟩
      · exact hm
      · have ha : .mempool ∉ (S.pc .miner).held := fun hheld => hnot (Finset.mem_union_left _ hheld)
        rw [hn, h.mempool, Stage.clears_eq ha, Stage.clears_eq hb, hd]
    · rw [hpc _ (Ne.symm ht)]
      rcases hlocal.mempool with ⟨hmem, hm⟩ | ⟨-, hd, hn, -⟩
      · -- the miner does not hold the mempool
        have hminer : .mempool ∉ (S.pc .miner).held :=
          fun hheld => howned.notMem_holding henters (Ne.symm ht) hheld hmem
        rw [Stage.clears_eq hminer, hm, Stage.clears_of_ne (hlocal.kind _ _ (h.placed t)) ht]
      · rw [hn, hd, h.mempool]
  free hfree hclean := by
    rcases hlocal.store with ⟨-, hsection⟩ | ⟨hnot, hframe⟩
    · refine hsection.free fun hheld => ?_
      rw [(howned' t .blockchain).2 hheld] at hfree
      cases hfree
    · rw [hpoisoned] at hclean
      exact (h.free (howned.owner_eq_none howned' hpc hnot hfree) hclean).frame hframe
  held u hu := by
    by_cases hut : u = t
    · subst hut
      rcases hlocal.store with ⟨-, hsection⟩ | ⟨hnot, -⟩
      · exact hsection
      · exact absurd (hkeeps hu) hnot
    · rw [hpc u hut] at hu ⊢
      rcases hlocal.store with ⟨hmem, -⟩ | ⟨-, hframe⟩
      · exact absurd hmem (howned.notMem_holding henters hut hu)
      · exact (h.held u hu).frame hframe
  inHand u := by
    by_cases hut : u = t
    · subst hut
      exact hlocal.inHand
    · rw [hpc u hut]
      refine (h.inHand u).frame hR hlocal.servers ?_ fun hheld =>
        hlocal.follows (howned.notMem_holding henters hut hheld)
      rintro ⟨s, hs⟩
      have hu := h.placed u
      rw [hs] at hu
      constructor
      · rcases hlocal.miner with ⟨s', hs'⟩ | hframe
        · have ht := h.placed t
          rw [hs'] at ht
          exact absurd (hu.eq_miner.trans ht.eq_miner.symm) hut
        · exact hframe
      · intro hheld
        rcases hlocal.mempool with ⟨hmem, -⟩ | ⟨-, hd, -, -⟩
        · exact absurd hmem (howned.notMem_holding henters hut hheld)
        · exact hd
  closed hclosed := by
    rw [hlocal.closed] at hclosed
    have hdead := h.closed hclosed
    by_cases ht : t = .minerWorker
    · rw [ht] at halive
      exact absurd hdead halive
    · rw [hpc _ (Ne.symm ht)]
      exact hdead
  controlClosed := by
    by_cases ht : t = .miner
    · rw [← ht]
      rcases hlocal.controlClosed with ⟨hsame, halive'⟩ | ⟨-, hclosed, hdead⟩
      · rw [hsame, h.controlClosed, ← ht]
        exact iff_of_false halive halive'
      · exact iff_of_true hclosed hdead
    · rw [hpc _ (Ne.symm ht)]
      rcases hlocal.controlClosed with ⟨hsame, -⟩ | ⟨⟨s, hs⟩, -⟩
      · rw [hsame, h.controlClosed]
      · have hof := h.placed t
        rw [hs] at hof
        exact absurd hof.eq_miner ht
  chan hworker := by
    have hof := h.placed t
    have hof' := hlocal.kind _ _ hof
    by_cases ht : t = .minerWorker
    · subst ht
      have hne : ThreadId.minerWorker ≠ (.miner : ThreadId numWorker) := by simp
      have hchan := hlocal.chan [] (S.pc .miner).finished (fun _ => rfl) ?_ ?_
      · rw [hpc _ hne.symm]
        simpa [Stage.finished_of_ne hof' hne] using hchan
      · rintro ⟨s, hs⟩
        rw [hs] at hof
        exact absurd hof.eq_miner hne
      · simpa [Stage.finished_of_ne hof hne] using h.chan halive
    · rw [hpc _ (Ne.symm ht)] at hworker ⊢
      have hchan := h.chan hworker
      have hone : (∃ s, S.pc t = .minerWorker s) → (S.pc .minerWorker).received = [] := by
        rintro ⟨s, hs⟩
        rw [hs] at hof
        exact absurd hof.eq_minerWorker ht
      by_cases hm : t = .miner
      · subst hm
        have hchan' := hlocal.chan (S.pc .minerWorker).received [] hone (fun _ => rfl) ?_
        · simpa [Stage.received_of_ne hof' ht] using hchan'
        · simpa [Stage.received_of_ne hof ht] using hchan
      · rw [hpc _ (Ne.symm hm)]
        have hchan' := hlocal.chan (S.pc .minerWorker).received (S.pc .miner).finished hone ?_ ?_
        · simpa [Stage.received_of_ne hof' ht, Stage.finished_of_ne hof' hm] using hchan'
        · rintro ⟨s, hs⟩
          rw [hs] at hof
          exact absurd hof.eq_miner hm
        · simpa [Stage.received_of_ne hof ht, Stage.finished_of_ne hof hm] using hchan

/-- **The death of a thread.**  What it leaves behind is either not touched or poisoned. -/
theorem crash {s : Shared} (h : Simulates M R S n) (hR : Node.Leads M none R R') (howned : S.Owned Stage.held)
    (howned' : S'.Owned Stage.held) (hpc : ∀ u, u ≠ t → S'.pc u = S.pc u)
    (hdead : S'.pc t = .dead) (hshared : S'.shared = (S.pc t).drops s)
    (hpoisoned : ∀ m, S'.poisoned m = false → m ∉ (S.pc t).holding ∧ S.poisoned m = false)
    (henters : .blockchain ∈ (S.pc t).holding → threads.Enters S t ∨ s = S.shared)
    (hlocal : LocalPanic (S.pc t) S.shared n s) : Simulates M R' S' n := by
  have hdrops : ∃ closed controlClosed,
      S'.shared = { s with finishedBlockChanClosed := closed, controlChanClosed := controlClosed } ∧
      (closed = s.finishedBlockChanClosed ∨ t = .minerWorker) ∧
      (controlClosed = true ↔ s.controlChanClosed = true ∨ t = .miner) := by
    rw [hshared]
    have hof := h.placed t
    cases hstage : S.pc t with
    | miner stage =>
        rw [hstage] at hof
        exact ⟨_, true, rfl, Or.inl rfl, iff_of_true rfl (Or.inr hof.eq_miner)⟩
    | minerWorker stage =>
        rw [hstage] at hof
        refine ⟨true, _, rfl, Or.inr hof.eq_minerWorker, (or_iff_left ?_).symm⟩
        simp [hof.eq_minerWorker]
    | dead =>
        refine ⟨_, _, rfl, Or.inl rfl, (or_iff_left_of_imp ?_).symm⟩
        rintro rfl
        rw [hlocal.controlClosed, h.controlClosed, hstage]
    | networkWorker stage | api stage =>
        refine ⟨_, _, rfl, Or.inl rfl, (or_iff_left ?_).symm⟩
        rintro rfl
        rw [hstage] at hof
        exact hof
  obtain ⟨closed, controlClosed, hshared, hclosed, hcontrol⟩ := hdrops
  -- nobody else has what the thread had
  have hsame : s.blockchain = S.shared.blockchain ∧ s.orphanBuffer = S.shared.orphanBuffer →
      StoreFrame S.shared n S'.shared n := by
    rintro ⟨hchain, horphans⟩
    rw [hshared]
    exact ⟨hchain, horphans, rfl, rfl, rfl, List.Subset.refl _⟩
  have hframe : ∀ u, u ≠ t → .blockchain ∈ (S.pc u).held → StoreFrame S.shared n S'.shared n := by
    intro u hu hheld
    rcases hlocal.store with hmem | hstore
    · rcases henters hmem with henters | rfl
      · exact absurd hmem (howned.notMem_holding henters hu hheld)
      · exact hsame ⟨rfl, rfl⟩
    · exact hsame hstore
  refine ⟨fun u => ?_, h.mempoolClean, ?_, ?_, fun hfree hclean => ?_, fun u hu => ?_, fun u => ?_,
    fun hclosed' => ?_, ?_, fun hworker => ?_⟩
  · by_cases hu : u = t
    · rw [hu, hdead]
      exact Stage.of_dead t
    · rw [hpc u hu]
      exact h.placed u
  · rw [hshared]
    exact hlocal.server
  · rw [hshared]
    by_cases ht : t = .miner
    · subst ht
      rw [hdead, h.mempool, ← hlocal.mempool]
      rfl
    · rw [hpc _ (Ne.symm ht), h.mempool]
      change _ = (S.pc .miner).clears s.mempool
      rw [hlocal.mempool, Stage.clears_of_ne (h.placed t) ht]
  · obtain ⟨hnot, hclean⟩ := hpoisoned _ hclean
    have hstore := hlocal.store.resolve_left hnot
    exact (h.free (howned.owner_eq_none howned' hpc hnot hfree) hclean).frame (hsame hstore)
  · by_cases hut : u = t
    · rw [hut, hdead] at hu
      exact absurd hu (Finset.notMem_empty _)
    · rw [hpc u hut] at hu ⊢
      exact (h.held u hu).frame (hframe u hut hu)
  · by_cases hut : u = t
    · rw [hut, hdead]
      trivial
    · rw [hpc u hut]
      refine (h.inHand u).frame hR (List.Subset.refl _) ?_ fun _ => .stay
      rintro ⟨stage, hstage⟩
      have hu := h.placed u
      rw [hstage] at hu
      have ht : t ≠ .miner := fun ht => hut (hu.eq_miner.trans ht.symm)
      rw [hshared]
      constructor
      · exact ⟨[], by rw [List.append_nil]; exact hlocal.controlChan, by rw [List.append_nil]⟩
      · intro _
        change s.mempool = _
        rw [hlocal.mempool, Stage.clears_of_ne (h.placed t) ht]
  · by_cases ht : t = .minerWorker
    · rw [← ht, hdead]
    · have heq := hclosed.resolve_right ht
      rw [hshared] at hclosed'
      change closed = true at hclosed'
      rw [heq, hlocal.closed] at hclosed'
      rw [hpc _ (Ne.symm ht)]
      exact h.closed hclosed'
  · rw [hshared]
    change controlClosed = true ↔ _
    rw [hcontrol, hlocal.controlClosed]
    by_cases ht : t = .miner
    · rw [← ht]
      exact iff_of_true (Or.inr rfl) hdead
    · rw [or_iff_left ht, hpc _ (Ne.symm ht), h.controlClosed]
  · have ht : t ≠ .minerWorker := by
      rintro rfl
      exact hworker hdead
    rw [hpc _ (Ne.symm ht)] at hworker ⊢
    rw [h.chan hworker, hshared]
    change _ = _ ++ s.finishedBlockChan ++ _
    rw [hlocal.chan.1]
    by_cases hm : t = .miner
    · subst hm
      rw [hdead]
      rcases hlocal.chan.2 with hfinished | hclosed'
      · rw [hfinished]
        rfl
      · exact absurd (h.closed hclosed') hworker
    · rw [hpc _ (Ne.symm hm)]

end Threads.Simulates

end BitcoinClient
