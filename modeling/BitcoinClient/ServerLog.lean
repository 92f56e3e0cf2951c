/-
**What a step does not look at.**

A node writes the log of its messages and never reads it.  So a step that is possible is possible with any
other log, and does the same; what a thread sends at some point of a run may as well be sent earlier.  In
the same way a network worker that attaches or parks a block, or clears the orphan buffer, does not look at
the mempool.

Main definitions:

* `BitcoinClient.Worker.inContext` — the same store and orphan buffer with another mempool and log;
* `BitcoinClient.Node.prepend` — the same node, which has sent more messages before;
* `BitcoinClient.Node.SentMore` — two nodes that only differ in what they have sent.

Main results:

* `BitcoinClient.Worker.attachIfValid_inContext`, `handleWithoutParent_inContext`, `cleanup_inContext`;
* `BitcoinClient.Node.step_prepend` — a step does not depend on what was sent;
* `BitcoinClient.Node.SentMore.step` — a step of a node is one of every node that has sent more.
-/

import BitcoinClient.Node

set_option relaxedAutoImplicit false
set_option autoImplicit false

namespace BitcoinClient

variable [Crypto]

/-! ### Network workers -/

namespace Worker

/-- The same store and orphan buffer, with another mempool and with messages sent before. -/
def inContext (f : Mempool → Mempool) (sent : List Message) (w : Worker) : Worker :=
  { w with mempool := f w.mempool, server := sent ++ w.server }

/-- The same worker, with messages sent before. -/
abbrev prepend (sent : List Message) (w : Worker) : Worker := w.inContext id sent

variable (f : Mempool → Mempool) (sent : List Message) (w : Worker)

theorem handleWithoutParent_inContext (block : Block) :
    (w.inContext f sent).handleWithoutParent block =
      (w.handleWithoutParent block).lift (inContext f sent) := by
  rw [handleWithoutParent, handleWithoutParent]
  split
  · rw [inContext]
    cases w.blockchain.insert block <;> rfl
  · rw [Exec.lift_done, inContext, inContext, List.append_assoc]

theorem attachIfValid_inContext (block parent : Block) :
    (w.inContext f sent).attachIfValid block parent =
      (w.attachIfValid block parent).lift (inContext f sent) := by
  rw [attachIfValid, attachIfValid]
  split
  · rw [inContext]
    cases w.blockchain.attach block <;> rfl
  · rfl

omit [Crypto] in
theorem cleanup_inContext (idxToDelete : List ℕ) :
    (w.inContext f sent).cleanup idxToDelete =
      (w.cleanup idxToDelete).lift (inContext f sent) := by
  rw [cleanup, cleanup, inContext]
  cases removeAll idxToDelete w.orphanBuffer <;> rfl

omit [Crypto] in
theorem announce_prepend (message : List H256 → Message) (hashes : List H256) :
    (w.prepend sent).announce message hashes = (w.announce message hashes).prepend sent := by
  rw [announce, announce]
  split
  · simp only [prepend, inContext, List.append_assoc, id]
  · rfl

theorem onTransactions_prepend :
    ∀ (txs : List SignedTransaction) (newHashes : List H256) (w : Worker),
      (w.prepend sent).onTransactions txs newHashes =
        ((w.onTransactions txs newHashes).1.prepend sent, (w.onTransactions txs newHashes).2) := by
  intro txs
  induction txs with
  | nil => exact fun _ _ => rfl
  | cons tx txs ih =>
      intro newHashes w
      have hlookup : (w.prepend sent).mempool.lookup tx.hash = w.mempool.lookup tx.hash := rfl
      rw [onTransactions, onTransactions, hlookup]
      cases w.mempool.lookup tx.hash with
      | some _ => exact ih _ _
      | none =>
          dsimp only
          split
          · exact ih _ { w with mempool := w.mempool.insert tx.hash tx }
          · exact ih _ _

theorem transactionsMessage_prepend (txs : List SignedTransaction) :
    (w.prepend sent).transactionsMessage txs = (w.transactionsMessage txs).prepend sent := by
  rw [transactionsMessage, transactionsMessage, onTransactions_prepend]
  exact announce_prepend sent _ _ _

omit [Crypto] in
theorem getBlocksMessage_prepend (hashes : List H256) :
    (w.prepend sent).getBlocksMessage hashes = (w.getBlocksMessage hashes).prepend sent := by
  have hchain : (w.prepend sent).blockchain = w.blockchain := rfl
  rw [getBlocksMessage, getBlocksMessage, hchain]
  split
  · simp only [prepend, inContext, List.append_assoc, id]
  · rfl

omit [Crypto] in
theorem getTransactionsMessage_prepend (hashes : List H256) :
    (w.prepend sent).getTransactionsMessage hashes =
      (w.getTransactionsMessage hashes).prepend sent := by
  have hmempool : (w.prepend sent).mempool = w.mempool := rfl
  rw [getTransactionsMessage, getTransactionsMessage, hmempool]
  split
  · simp only [prepend, inContext, List.append_assoc, id]
  · rfl

end Worker

/-! ### Nodes -/

namespace Node

/-- The same node, with messages sent before. -/
def prepend (sent : List Message) (n : Node) : Node := { n with server := sent ++ n.server }

variable (sent : List Message) (n : Node)

omit [Crypto] in
theorem resume_prepend {α : Type} (x : Exec Worker α) (lock : α → ChainLock) :
    (n.prepend sent).resume (x.lift (Worker.prepend sent)) lock = (n.resume x lock).prepend sent := by
  cases x <;> rfl

theorem messageStep_prepend (m : Message) :
    (n.prepend sent).messageStep m = (n.messageStep m).map (prepend sent) := by
  cases m with
  | ping nonce =>
      rw [messageStep, messageStep, Option.map_some, prepend, prepend, List.append_assoc]
  | pong nonce => rfl
  | newBlockHashes hashes =>
      rw [messageStep, messageStep, show (n.prepend sent).lock = n.lock from rfl]
      split
      · exact congrArg (fun w => some { n with toWorker := w }) (Worker.announce_prepend sent _ _ _)
      · rfl
  | getBlocks hashes =>
      rw [messageStep, messageStep, show (n.prepend sent).lock = n.lock from rfl]
      split
      · exact congrArg (fun w => some { n with toWorker := w })
          (Worker.getBlocksMessage_prepend sent _ _)
      · rfl
  | blocks blocks =>
      rw [messageStep, messageStep, show (n.prepend sent).lock = n.lock from rfl]
      split <;> rfl
  | newTransactionHashes hashes =>
      rw [messageStep, messageStep,
        show (n.prepend sent).mempoolPoisoned = n.mempoolPoisoned from rfl]
      split
      · rfl
      · exact congrArg (fun w => some { n with toWorker := w }) (Worker.announce_prepend sent _ _ _)
  | getTransactions hashes =>
      rw [messageStep, messageStep,
        show (n.prepend sent).mempoolPoisoned = n.mempoolPoisoned from rfl]
      split
      · rfl
      · exact congrArg (fun w => some { n with toWorker := w })
          (Worker.getTransactionsMessage_prepend sent _ _)
  | transactions txs =>
      rw [messageStep, messageStep,
        show (n.prepend sent).mempoolPoisoned = n.mempoolPoisoned from rfl]
      split
      · rfl
      · exact congrArg (fun w => some { n with toWorker := w })
          (Worker.transactionsMessage_prepend sent _ _)

theorem workerStep_prepend : (n.prepend sent).workerStep = n.workerStep.map (prepend sent) := by
  have hresume : ∀ {α : Type} {x x' : Exec Worker α} (lock : α → ChainLock),
      x' = x.lift (Worker.prepend sent) →
        some ((n.prepend sent).resume x' lock) = (some (n.resume x lock)).map (prepend sent) := by
    rintro α x _ lock rfl
    rw [resume_prepend]
    rfl
  have hlock' : (n.prepend sent).lock = n.lock := rfl
  cases hlock : n.lock with
  | free | poisoned => simp only [workerStep, hlock', hlock, Option.map_none]
  | held rest newHashes =>
      cases rest with
      | nil =>
          simp only [workerStep, hlock', hlock]
          exact congrArg (fun w => some { n with toWorker := w, lock := .free })
            (Worker.announce_prepend sent _ _ _)
      | cons block rest =>
          have hget : (n.prepend sent).blockchain.getBlock = n.blockchain.getBlock := rfl
          have hpoison : (n.prepend sent).mempoolPoisoned = n.mempoolPoisoned := rfl
          have hparent : ((n.prepend sent).toWorker.removeFromMempool block).blockchain.getParentBlock
              block = (n.toWorker.removeFromMempool block).blockchain.getParentBlock block := rfl
          simp only [workerStep, hlock', hlock, hget, hpoison, hparent]
          split
          · rfl
          · split
            · rfl
            · split
              · exact hresume _ (Worker.handleWithoutParent_inContext id sent (n.removeFromMempool block) _)
              · exact hresume _
                  (Worker.attachIfValid_inContext id sent (n.removeFromMempool block) _ _)
  | searching block newBlockInserted idxToDelete rest newHashes =>
      have hfind : findChild newBlockInserted.hash 0 (n.prepend sent).orphanBuffer =
          findChild newBlockInserted.hash 0 n.orphanBuffer := rfl
      simp only [workerStep, hlock', hlock, hfind]
      split
      · exact hresume _ (Worker.cleanup_inContext id sent _ _)
      · exact hresume _ (Worker.attachIfValid_inContext id sent _ _ _)

omit [Crypto] in
theorem readTip_prepend (order : List H256) (next : Block → MinerPc) :
    (n.prepend sent).readTip order next = (n.readTip order next).map (prepend sent) := by
  have hlock : (n.prepend sent).lock = n.lock := rfl
  have hchain : (n.prepend sent).blockchain = n.blockchain := rfl
  rw [readTip, readTip, hlock, hchain]
  split
  · split
    · split <;> rfl
    · rfl
  · rfl
  · rfl

omit [Crypto] in
theorem controlStep_prepend (order : List H256) (genesisBlock parentBlock : Block) :
    (n.prepend sent).controlStep order genesisBlock parentBlock =
      (n.controlStep order genesisBlock parentBlock).map (prepend sent) := by
  have hminer : (n.prepend sent).miner = n.miner := rfl
  rw [controlStep, controlStep, hminer]
  split
  · split <;> rfl
  · rfl
  · split
    · rfl
    · rfl
    · rfl
    · rename_i controlChan _
      exact readTip_prepend sent { n with miner := { n.miner with operatingState := _, controlChan } }
        order _

theorem mineStep_prepend (draw : MiningDraw) (genesisBlock parentBlock : Block) :
    (n.prepend sent).mineStep draw genesisBlock parentBlock =
      (n.mineStep draw genesisBlock parentBlock).map (prepend sent) := by
  have hlock : (n.prepend sent).lock = n.lock := rfl
  have hchain : (n.prepend sent).blockchain = n.blockchain := rfl
  have hmempool : (n.prepend sent).mempool = n.mempool := rfl
  have hpoison : (n.prepend sent).mempoolPoisoned = n.mempoolPoisoned := rfl
  rw [mineStep, mineStep, hpoison]
  split
  · rfl
  · split
    · rfl
    · split
      · rfl
      · rw [miningSection, miningSection, hlock, hchain, hmempool]
        split
        · split
          · dsimp only
            split
            · rfl
            · split <;> rfl
          · rfl
        · rfl
        · rfl

theorem minerWorkerStep_prepend :
    (n.prepend sent).minerWorkerStep = n.minerWorkerStep.map (prepend sent) := by
  have hchan : (n.prepend sent).finishedBlockChan = n.finishedBlockChan := rfl
  have hlock : (n.prepend sent).lock = n.lock := rfl
  have hchain : (n.prepend sent).blockchain = n.blockchain := rfl
  rw [minerWorkerStep, minerWorkerStep, hchan, hlock, hchain]
  split
  · rfl
  · split
    · split
      · rfl
      · simp only [prepend, Option.map_some, List.append_assoc]
    · rfl

theorem generateStep_prepend (order : List H256) (draw : TxDraw) :
    (n.prepend sent).generateStep order draw = (n.generateStep order draw).map (prepend sent) := by
  have hlock : (n.prepend sent).lock = n.lock := rfl
  have hchain : (n.prepend sent).blockchain = n.blockchain := rfl
  rw [generateStep, generateStep, hlock, hchain]
  split
  · split
    · rfl
    · split
      · rfl
      · split
        · simp only [prepend, Option.map_some, List.append_assoc]
        · rfl
  · rfl

/-- **A step does not depend on what was sent.** -/
theorem step_prepend (e : Event) : (n.prepend sent).step e = (n.step e).map (prepend sent) := by
  have hminer : (n.prepend sent).miner = n.miner := rfl
  cases e with
  | message m => exact messageStep_prepend sent n m
  | worker => exact workerStep_prepend sent n
  | minerStart order | minerTip order =>
      rw [step, step, hminer]
      split
      · exact readTip_prepend sent n order _
      · rfl
  | minerControl order =>
      rw [step, step, hminer]
      split
      · exact controlStep_prepend sent n order _ _
      · rfl
  | mine draw =>
      rw [step, step, hminer]
      split
      · exact mineStep_prepend sent n draw _ _
      · rfl
  | minerWorker => exact minerWorkerStep_prepend sent n
  | generate order draw => exact generateStep_prepend sent n order draw
  | signal s =>
      rw [step, step, hminer]
      split <;> rfl
  | ping => simp only [step, prepend, Option.map_some, List.append_assoc]

/-! ### Nodes that have sent more -/

/-- `m` is the node `n`, but may have sent more. -/
structure SentMore (n m : Node) : Prop where
  eq : m = { n with server := m.server }
  subset : n.server ⊆ m.server

variable {n} {m n' : Node} {e : Event}

/-- A step does not take anything from the log. -/
theorem server_subset (h : n.step e = some n') : n.server ⊆ n'.server := by
  have hprepend : n = ({ n with server := [] } : Node).prepend n.server := by
    simp only [prepend, List.append_nil]
  rw [hprepend, step_prepend] at h
  obtain ⟨n₀, -, rfl⟩ := Option.map_eq_some_iff.1 h
  exact List.subset_append_left _ _

/-- **A step of a node is one of every node that has sent more.** -/
theorem SentMore.step (hmore : SentMore n m) (h : n.step e = some n') :
    ∃ m', m.step e = some m' ∧ SentMore n' m' := by
  have hn : n = ({ n with server := [] } : Node).prepend n.server := by
    simp only [prepend, List.append_nil]
  have hm : m = ({ n with server := [] } : Node).prepend m.server := by
    rw [hmore.eq]
    simp only [prepend, List.append_nil]
  rw [hn, step_prepend] at h
  obtain ⟨n₀, hn₀, rfl⟩ := Option.map_eq_some_iff.1 h
  refine ⟨n₀.prepend m.server, ?_, rfl, ?_⟩
  · rw [hm, step_prepend, hn₀, ← hm]
    rfl
  · exact List.append_subset.2
      ⟨List.subset_append_of_subset_left _ hmore.subset, List.subset_append_right _ _⟩

end Node

end BitcoinClient
