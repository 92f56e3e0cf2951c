/-
**The mempool and the chain.**

The mempool is meant for the transactions that are not in a block of the chain yet.  A block takes its
transactions out of the mempool when it is received or mined, before it is attached, parked or put into the
channel; so at this moment none of its transactions is in the mempool.  But a transaction that is received is
admitted when the mempool does not have it, whatever the blocks have.  The mutex of the mempool is free again
before a received block is attached or parked, and a finished block passes through the hands of the miner worker
on its way from the channel to the store, so other threads may act while a block is in neither.  What the threads
do keeps the mempool and the blocks apart as long as no message brings back a transaction of a block that the
node has, be it in the hands of a thread.

Main definitions:

* `BitcoinClient.Blockchain.OnChain` — the hash is that of a transaction on the longest chain;
* `BitcoinClient.Threads.Pending` — no transaction of the mempool is;
* `BitcoinClient.Threads.Includes` — a transaction is in a block that is stored, parked, in the channel, or in the
  hands of a thread;
* `BitcoinClient.Threads.AdmitsNew` — a message admits no such transaction;
* `BitcoinClient.Leads` — where an act leads, and with which data.

Main results:

* `BitcoinClient.Stage.orderly` — what the act of a thread does to the mempool and the blocks;
* `BitcoinClient.Threads.apart_step` — **the step lemma**: the mempool and the blocks stay apart;
* `BitcoinClient.Threads.mempool_pending_iff` — the mempool has pending transactions only, along runs whose
  messages admit new transactions, and what one message that does not does;
* `BitcoinClient.Threads.mempool_not_pending` — a transaction that arrives after the block with it.
-/

import BitcoinClient.LongestChain
import BitcoinClient.MempoolSteps
import BitcoinClient.WorkerSections

set_option relaxedAutoImplicit false
set_option autoImplicit false

namespace BitcoinClient

variable [Crypto]

open Locks

/-! ### The transactions in blocks -/

/-- The hash is that of a transaction in a block on the longest chain, for some order in which the store is
iterated. -/
def Blockchain.OnChain (chain : Blockchain) (hash : H256) : Prop :=
  ∃ order fuel longestChain, IterOrder chain.blocks order ∧
    chain.allBlocksInLongestChain order fuel = some longestChain ∧
    ∃ k ∈ longestChain, ∃ b ∈ chain.getBlock k, ∃ tx ∈ b.data, tx.hash = hash

/-- The transaction is in a stored block. -/
def Blockchain.Includes (chain : Blockchain) (tx : SignedTransaction) : Prop :=
  ∃ h, ∃ b ∈ chain.getBlock h, tx ∈ b.data

/-- The transaction is in a block that is stored, parked, or in the channel of finished blocks. -/
def Shared.Includes (d : Shared) (tx : SignedTransaction) : Prop :=
  d.blockchain.Includes tx ∨ (∃ b ∈ d.orphanBuffer, tx ∈ b.data) ∨ ∃ b ∈ d.finishedBlockChan, tx ∈ b.data

def TipUse.carries : TipUse → List Block
  | .first => []
  | .head genesisBlock | .update genesisBlock => [genesisBlock]

/-- The block that the miner sends again before a child of it. -/
def MinerStage.carries : MinerStage → List Block
  | .lockTip use _ | .readTip use _ => use.carries
  | .control _ genesisBlock _ | .mining _ genesisBlock _ | .lockMempool _ genesisBlock _ _
  | .lockBlockchain _ genesisBlock _ _ _ | .executing _ genesisBlock _ _ _
  | .finishing _ genesisBlock _ _ => [genesisBlock]
  | .stopped => []

/-- The block whose transactions a network worker has taken out of the mempool, until it is attached or
parked. -/
def WorkerStage.carries : WorkerStage → List Block
  | .parentOf block _ _ | .lockOrphans block _ _ _ | .parking block _ _ | .attaching block _ _ _ => [block]
  | _ => []

/-- **The blocks in the hands of a thread** that may still get into the store, the orphan buffer or the
channel, and whose transactions have left the mempool. -/
def Stage.carries : Stage → List Block
  | .networkWorker stage => stage.carries
  | .miner stage => stage.carries
  | .minerWorker stage => (Stage.minerWorker stage).received
  | _ => []

def Stage.Includes (stage : Stage) (tx : SignedTransaction) : Prop := ∃ b ∈ stage.carries, tx ∈ b.data

/-- The transactions of a message that a network worker is about to put into the mempool: they are valid, and not
there yet. -/
def Stage.admits : Stage → Shared → List SignedTransaction
  | .networkWorker (.holding (.transactions transactions)), d =>
    transactions.filter fun tx => checkTxValidity tx && (d.mempool.lookup tx.hash).isNone
  | _, _ => []

theorem Stage.mem_admits {d : Shared} {txs : List SignedTransaction} {tx : SignedTransaction} :
    tx ∈ (Stage.networkWorker (.holding (.transactions txs))).admits d ↔
      tx ∈ txs ∧ checkTxValidity tx = true ∧ tx.hash ∉ d.mempool := by
  rw [admits, List.mem_filter, Bool.and_eq_true, Option.isNone_iff_eq_none, Finmap.lookup_eq_none]

section Blocks

variable {chain chain' : Blockchain} {block : Block} {tx : SignedTransaction}

theorem Blockchain.includes_of_put {length : UInt32} (h : (chain.put block length).Includes tx) :
    chain.Includes tx ∨ tx ∈ block.data := by
  obtain ⟨k, b, hb, htx⟩ := h
  rw [Option.mem_def, getBlock_put] at hb
  split at hb
  · rw [← Option.some_inj.1 hb] at htx
    exact Or.inr htx
  · exact Or.inl ⟨k, b, hb, htx⟩

theorem Blockchain.includes_of_insert (hins : chain.insert block = some chain')
    (h : chain'.Includes tx) : chain.Includes tx ∨ tx ∈ block.data := by
  obtain ⟨length, -, rfl⟩ := insert_eq_some_iff.1 hins
  exact includes_of_put h

theorem Blockchain.includes_of_attach (h : (chain.attach block).state.Includes tx) :
    chain.Includes tx ∨ tx ∈ block.data := by
  rcases attach_cases chain block with heq | ⟨_, _, _, -, -, heq | ⟨_, -, heq⟩⟩
  · rw [heq] at h
    exact Or.inl h
  · rw [heq] at h
    exact Or.inl h
  · rw [heq] at h
    exact includes_of_put h

end Blocks

/-! ### What the acts of the threads do -/

/-- The act leads to a stage and to data with the property; a panic is the end of the thread. -/
def Leads (P : Stage → Shared → Prop) : Acts → Prop
  | .blocked => True
  | .go d stage | .release _ d stage => P stage d
  | .panic d => P .dead d

section Leads

variable {P : Stage → Shared → Prop}

omit [Crypto] in
theorem leads_iff_of_moves {act : Acts} {d : Shared} {stage : Stage} (h : act.Moves d stage) :
    Leads P act ↔ P stage d := by
  rcases h with rfl | ⟨m, rfl⟩ <;> exact Iff.rfl

end Leads

/-- The transactions of the block that the miner is about to send are among those that it is about to take
out of the mempool. -/
def Stage.Taken : Stage → Prop
  | .miner (.finishing _ _ block txData) => block.data ⊆ txData
  | _ => True

/-- **What an act does to the mempool and the blocks.**  It takes transactions out of the mempool, or it admits
those of a message; and the transactions in blocks were in blocks before, or are not in the mempool. -/
structure Orderly (stage : Stage) (d : Shared) (stage' : Stage) (d' : Shared) : Prop where
  mempool : (∃ data, d'.mempool = deleteTxFromMempool d.mempool data) ∨
    ∃ txs, stage = .networkWorker (.holding (.transactions txs)) ∧
      d'.mempool = (d.toWorker.onTransactions txs []).1.mempool
  blocks : ∀ tx, d'.Includes tx ∨ stage'.Includes tx →
    (d.Includes tx ∨ stage.Includes tx) ∨ tx.hash ∉ d'.mempool
  taken : stage'.Taken

section Orderly

variable {stage stage' : Stage} {d d' : Shared}

/-- The blocks stay where they are, or go on. -/
theorem Orderly.keep (hmempool : ∃ data, d'.mempool = deleteTxFromMempool d.mempool data)
    (hblocks : ∀ tx, d'.Includes tx ∨ stage'.Includes tx → d.Includes tx ∨ stage.Includes tx)
    (htaken : stage'.Taken) : Orderly stage d stage' d' where
  mempool := Or.inl hmempool
  blocks tx h := Or.inl (hblocks tx h)
  taken := htaken

/-- Neither the mempool nor a block changes. -/
theorem Orderly.idle (hmempool : d'.mempool = d.mempool) (hstore : d'.blockchain.blocks = d.blockchain.blocks)
    (horphans : d'.orphanBuffer = d.orphanBuffer) (hchan : d'.finishedBlockChan = d.finishedBlockChan)
    (hcarries : stage'.carries ⊆ stage.carries) (htaken : stage'.Taken) : Orderly stage d stage' d' := by
  refine .keep ⟨[], hmempool⟩ (fun tx => Or.imp (fun h => ?_) fun ⟨b, hb, htx⟩ => ⟨b, hcarries hb, htx⟩) htaken
  simp only [Shared.Includes, Blockchain.Includes, Blockchain.getBlock, hstore, horphans, hchan] at h ⊢
  exact h

/-- The thread sends messages. -/
theorem Orderly.sends {w : Worker} {sent : List Message} (hw : w = { d.toWorker with server := d.server ++ sent })
    (hcarries : stage'.carries ⊆ stage.carries) (htaken : stage'.Taken) :
    Orderly stage d stage' { d with toWorker := w } := by
  subst hw
  exact .idle rfl rfl rfl rfl hcarries htaken

/-- The thread goes on. -/
theorem Orderly.go (hcarries : stage'.carries ⊆ stage.carries) (htaken : stage'.Taken) :
    Orderly stage d stage' d :=
  .idle rfl rfl rfl rfl hcarries htaken

theorem Orderly.dead : Orderly stage d .dead d := .go (List.nil_subset _) trivial

/-- What a thread drops when it dies is not in a block. -/
theorem Orderly.drops (h : Orderly stage d stage' d') : Orderly stage d stage' (stage.drops d') := by
  cases stage <;> exact ⟨h.mempool, h.blocks, h.taken⟩

end Orderly

/-! ### The computations of the network workers -/

/-- The data of a thread that has nothing in its hands any more. -/
def EmptyHanded (stage : Stage) (d d' : Shared) : Prop :=
  ∀ stage' : Stage, stage'.carries = [] → stage'.Taken → Orderly stage d stage' d'

theorem EmptyHanded.of_includes {stage : Stage} {d d' : Shared} (hmempool : d'.mempool = d.mempool)
    (hincludes : ∀ tx, d'.Includes tx → d.Includes tx ∨ stage.Includes tx) : EmptyHanded stage d d' := by
  intro stage' hcarries htaken
  refine .keep ⟨[], hmempool⟩ (fun tx => ?_) htaken
  rintro (h | ⟨b, hb, -⟩)
  · exact hincludes tx h
  · rw [hcarries] at hb
    exact absurd hb List.not_mem_nil

/-- After a computation a network worker has nothing in its hands. -/
theorem EmptyHanded.afterwards {α : Type} {d : Shared} {stage stage' : Stage} {x : Exec Worker α}
    {act : Shared → Acts} (h : EmptyHanded stage d { d with toWorker := x.state })
    (hact : ∀ d', (act d').Moves d' stage') (hcarries : stage'.carries = []) (htaken : stage'.Taken) :
    Leads (Orderly stage d) (d.afterwards x act) := by
  cases x with
  | done w a => exact (leads_iff_of_moves (hact _)).2 (h stage' hcarries htaken)
  | panicked w => exact h .dead rfl trivial
  | looping w => trivial

namespace Shared

variable {d : Shared} {stage : Stage} {block : Block}

/-- A block without parent is stored or parked. -/
theorem emptyHanded_handleWithoutParent (hcarried : block ∈ stage.carries) :
    EmptyHanded stage d { d with toWorker := (d.toWorker.handleWithoutParent block).state } := by
  refine .of_includes (Worker.handleWithoutParent_mempool _ _) fun tx h => ?_
  have hblock : tx ∈ block.data → d.Includes tx ∨ stage.Includes tx := fun htx => Or.inr ⟨block, hcarried, htx⟩
  rw [Worker.handleWithoutParent] at h
  split at h
  · split at h
    · exact Or.inl h
    · rename_i chain hins
      rcases h with h | h
      · exact (Blockchain.includes_of_insert hins h).elim (fun h => Or.inl (Or.inl h)) hblock
      · exact Or.inl (Or.inr h)
  · rcases h with h | ⟨b, hb, htx⟩ | h
    · exact Or.inl (Or.inl h)
    · rcases List.mem_append.1 hb with hb | hb
      · exact Or.inl (Or.inr (Or.inl ⟨b, hb, htx⟩))
      · rw [List.mem_singleton.1 hb] at htx
        exact hblock htx
    · exact Or.inl (Or.inr (Or.inr h))

/-- A block is stored when it is valid. -/
theorem emptyHanded_attachIfValid {parent : Block}
    (hblock : ∀ tx ∈ block.data, d.Includes tx ∨ stage.Includes tx) :
    EmptyHanded stage d { d with toWorker := (d.toWorker.attachIfValid block parent).state } := by
  refine .of_includes (Worker.attachIfValid_mempool _ _ _) fun tx h => ?_
  rw [Worker.attachIfValid] at h
  split at h
  · rw [Exec.state_lift] at h
    rcases h with h | h
    · exact (Blockchain.includes_of_attach h).elim (fun h => Or.inl (Or.inl h)) (hblock tx)
    · exact Or.inl (Or.inr h)
  · exact Or.inl h

/-- Orphans are removed from the buffer. -/
theorem emptyHanded_cleanup (idxToDelete : List ℕ) :
    EmptyHanded stage d { d with toWorker := (d.toWorker.cleanup idxToDelete).state } := by
  rw [Worker.cleanup, Exec.state_lift]
  refine .of_includes rfl fun tx h => ?_
  rcases h with h | ⟨b, hb, htx⟩ | h
  · exact Or.inl (Or.inl h)
  · exact Or.inl (Or.inr (Or.inl ⟨b, (removeAll_sublist _ _).subset hb, htx⟩))
  · exact Or.inl (Or.inr (Or.inr h))

end Shared

/-! ### Each kind of thread -/

theorem WorkerStage.orderly (stage : WorkerStage) (e : Draw) (d : Shared) :
    Leads (Orderly (.networkWorker stage) d) (stage.next e d) := by
  unfold next
  cases stage with
  | receive =>
      dsimp only
      cases e with
      | message message =>
          cases message with
          | ping => exact .idle rfl rfl rfl rfl (List.nil_subset _) trivial
          | _ => exact .go (List.nil_subset _) trivial
      | malformed => exact .dead
      | _ => trivial
  | lockFor message =>
      cases message with
      | ping | pong => trivial
      | _ => exact .go (List.nil_subset _) trivial
  | holding message =>
      cases message with
      | ping | pong | blocks => trivial
      | newBlockHashes hashes =>
          obtain ⟨sent, hsent⟩ := Worker.newBlockHashesMessage_eq d.blockchain hashes
          exact Orderly.sends (hsent d.toWorker rfl) (List.nil_subset _) trivial
      | getBlocks hashes =>
          obtain ⟨sent, hsent⟩ := Worker.getBlocksMessage_eq d.blockchain hashes
          exact Orderly.sends (hsent d.toWorker rfl) (List.nil_subset _) trivial
      | newTransactionHashes hashes =>
          obtain ⟨sent, hsent⟩ := Worker.newTransactionHashesMessage_eq d.mempool hashes
          exact Orderly.sends (hsent d.toWorker rfl) (List.nil_subset _) trivial
      | getTransactions hashes =>
          obtain ⟨sent, hsent⟩ := Worker.getTransactionsMessage_eq d.mempool hashes
          exact Orderly.sends (hsent d.toWorker rfl) (List.nil_subset _) trivial
      | transactions txs =>
          refine ⟨Or.inr ⟨txs, rfl, transactionsMessage_mempool d.toWorker txs⟩, fun tx h => ?_, trivial⟩
          obtain ⟨mempool, sent, hsent⟩ := Worker.transactionsMessage_eq d.mempool txs
          rw [hsent d.toWorker rfl] at h
          exact Or.inl h
  | blocks rest newHashes =>
      cases rest with
      | nil =>
          obtain ⟨sent, hsent⟩ := Worker.announce_eq .newBlockHashes newHashes
          exact Orderly.sends (hsent d.toWorker) (List.nil_subset _) trivial
      | cons block rest =>
          dsimp only
          split
          all_goals exact .go (List.nil_subset _) trivial
  | lockMempool block rest newHashes => exact .go (List.nil_subset _) trivial
  | removing block rest newHashes =>
      -- the block is in the hands of the worker, and its transactions are not in the mempool
      refine ⟨Or.inl ⟨block.data, rfl⟩, fun tx h => h.imp (fun h => Or.inl h) ?_, trivial⟩
      rintro ⟨b, hb, htx⟩ hmem
      rw [List.mem_singleton.1 hb] at htx
      exact (mem_deleteTxFromMempool.1 hmem).2 tx htx rfl
  | parentOf block rest newHashes =>
      dsimp only
      split
      · exact .go (List.Subset.refl _) trivial
      · split
        · exact (Shared.emptyHanded_handleWithoutParent (List.mem_singleton_self block)).afterwards
            (fun _ => Or.inl rfl) rfl trivial
        · exact .go (List.Subset.refl _) trivial
  | lockOrphans block parentBlock rest newHashes =>
      cases parentBlock <;> exact .go (List.Subset.refl _) trivial
  | parking block rest newHashes =>
      exact (Shared.emptyHanded_handleWithoutParent (List.mem_singleton_self block)).afterwards
        (fun _ => Or.inr ⟨_, rfl⟩) rfl trivial
  | attaching block parentBlock rest newHashes =>
      refine (Shared.emptyHanded_attachIfValid fun tx htx => ?_).afterwards (fun _ => Or.inl rfl) rfl trivial
      exact Or.inr ⟨block, List.mem_singleton_self block, htx⟩
  | searching block newBlockInserted idxToDelete rest newHashes =>
      dsimp only
      split
      · exact (Shared.emptyHanded_cleanup idxToDelete).afterwards (fun _ => Or.inr ⟨_, rfl⟩) rfl trivial
      · -- the child is parked
        rename_i idx child hchild
        refine (Shared.emptyHanded_attachIfValid fun tx htx => ?_).afterwards (fun _ => Or.inl rfl) rfl trivial
        exact Or.inl (Or.inr (Or.inl ⟨child, (mem_of_findChild hchild).1, htx⟩))

theorem MinerStage.orderly (stage : MinerStage) (htaken : (Stage.miner stage).Taken) (e : Draw) (d : Shared) :
    Leads (Orderly (.miner stage) d) (stage.next e d) := by
  unfold next
  cases stage with
  | lockTip use operatingState => exact .go (List.Subset.refl _) trivial
  | readTip use operatingState =>
      dsimp only
      split
      · split
        · split
          · exact .dead
          · rename_i tipBlock htip
            cases use with
            | first =>
                -- the tip is stored
                refine .keep ⟨[], rfl⟩ (fun tx => ?_) trivial
                rintro (h | ⟨b, hb, htx⟩)
                · exact Or.inl h
                · rw [List.mem_singleton.1 hb] at htx
                  exact Or.inl (Or.inl ⟨_, tipBlock, htip, htx⟩)
            | head | update => exact .go (List.Subset.refl _) trivial
        · trivial
      · trivial
  | control operatingState genesisBlock parentBlock =>
      cases operatingState with
      | paused =>
          dsimp only
          split
          · trivial
          all_goals exact .idle rfl rfl rfl rfl (List.Subset.refl _) trivial
      | run =>
          dsimp only
          split
          · exact .go (List.Subset.refl _) trivial
          · exact .idle rfl rfl rfl rfl (List.nil_subset _) trivial
          all_goals exact .idle rfl rfl rfl rfl (List.Subset.refl _) trivial
      | shutDown => exact .go (List.nil_subset _) trivial
  | mining operatingState genesisBlock parentBlock =>
      dsimp only
      split
      · split
        · exact .dead
        · split
          all_goals exact .go (List.Subset.refl _) trivial
      · trivial
  | lockMempool operatingState genesisBlock parentBlock block =>
      dsimp only
      split
      · split
        · exact .go (List.Subset.refl _) trivial
        · trivial
      · trivial
  | lockBlockchain operatingState genesisBlock parentBlock block txData =>
      exact .go (List.Subset.refl _) trivial
  | executing operatingState genesisBlock parentBlock block txData =>
      dsimp only
      split
      · exact .dead
      · split
        · exact .dead
        · rename_i newState validTx hexec
          refine .idle rfl rfl rfl rfl (List.Subset.refl _) fun tx htx => ?_
          rw [(executeTx_eq_some_iff.1 hexec).2.1] at htx
          exact List.mem_of_mem_filter htx
  | finishing operatingState genesisBlock block txData =>
      dsimp only
      split
      · exact .keep ⟨txData, rfl⟩ (fun tx => Or.imp id fun ⟨b, hb, _⟩ => absurd hb List.not_mem_nil) trivial
      · refine ⟨Or.inl ⟨txData, rfl⟩, fun tx => ?_, trivial⟩
        rintro ((h | h | ⟨b, hb, htx⟩) | h)
        · exact Or.inl (Or.inl (Or.inl h))
        · exact Or.inl (Or.inl (Or.inr (Or.inl h)))
        · rcases mem_chan_of_mined hb with hb | rfl | rfl
          · exact Or.inl (Or.inl (Or.inr (Or.inr ⟨b, hb, htx⟩)))
          · exact Or.inl (Or.inr ⟨b, List.mem_singleton_self b, htx⟩)
          · -- its transactions are among those taken out of the mempool
            exact Or.inr fun hmem => (mem_deleteTxFromMempool.1 hmem).2 tx (htaken htx) rfl
        · exact Or.inl (Or.inr h)
  | stopped => exact .idle rfl rfl rfl rfl (List.nil_subset _) trivial

theorem MinerWorkerStage.orderly (stage : MinerWorkerStage) (d : Shared) :
    Leads (Orderly (.minerWorker stage) d) (stage.next d) := by
  unfold next
  cases stage with
  | receive =>
      dsimp only
      split
      · split
        · exact .dead
        · trivial
      · rename_i block chan hchan
        refine .keep ⟨[], rfl⟩ (fun tx => ?_) trivial
        have hin : ∀ b ∈ block :: chan, tx ∈ b.data → d.Includes tx := by
          intro b hb htx
          rw [← hchan] at hb
          exact Or.inr (Or.inr ⟨b, hb, htx⟩)
        rintro ((h | h | ⟨b, hb, htx⟩) | ⟨b, hb, htx⟩)
        · exact Or.inl (Or.inl h)
        · exact Or.inl (Or.inr (Or.inl h))
        · exact Or.inl (hin b (List.mem_cons_of_mem _ hb) htx)
        · rw [List.mem_singleton.1 hb] at htx
          exact Or.inl (hin block (List.mem_cons_self ..) htx)
  | lockBlockchain block => exact .go (List.Subset.refl _) trivial
  | inserting block =>
      dsimp only
      split
      · exact .dead
      · rename_i chain hins
        refine .keep ⟨[], rfl⟩ (fun tx => ?_) trivial
        rintro ((h | h) | ⟨b, hb, -⟩)
        · rcases Blockchain.includes_of_insert hins h with h | htx
          · exact Or.inl (Or.inl h)
          · exact Or.inr ⟨block, List.mem_singleton_self block, htx⟩
        · exact Or.inl (Or.inr h)
        · exact absurd hb List.not_mem_nil
  | broadcasting block => exact .idle rfl rfl rfl rfl (List.nil_subset _) trivial

theorem ApiStage.orderly (stage : ApiStage) (e : Draw) (d : Shared) :
    Leads (Orderly (.api stage) d) (stage.next e d) := by
  -- nothing but the server, the control channel and the flag of the generator changes
  have hidle : ∀ {d' : Shared} {stage' : ApiStage}, d'.mempool = d.mempool →
      d'.blockchain = d.blockchain → d'.orphanBuffer = d.orphanBuffer →
      d'.finishedBlockChan = d.finishedBlockChan → Orderly (.api stage) d (.api stage') d' :=
    fun hmempool hstore horphans hchan =>
      .idle hmempool (congrArg Blockchain.blocks hstore) horphans hchan (List.nil_subset _) trivial
  unfold next
  cases stage with
  | idle =>
      cases e with
      | request request =>
          cases request with
          | minerStart lambda =>
              dsimp only
              split
              · exact .dead
              · exact hidle rfl rfl rfl rfl
          | _ => exact hidle rfl rfl rfl rfl
      | _ => trivial
  | lockBlockchain | lockStarted | lockState => exact hidle rfl rfl rfl rfl
  | readingChain =>
      dsimp only
      split
      · split
        · exact hidle rfl rfl rfl rfl
        · trivial
      · trivial
  | starting =>
      dsimp only
      split
      all_goals exact hidle rfl rfl rfl rfl
  | readingState =>
      dsimp only
      split
      · split
        · split
          · exact .dead
          · exact hidle rfl rfl rfl rfl
        · trivial
      · trivial
  | generating parentState =>
      dsimp only
      split
      · split
        · exact .dead
        · split
          · exact hidle rfl rfl rfl rfl
          · trivial
      · trivial
  | finished => trivial

/-- **The act of every thread is orderly.** -/
theorem Stage.orderly (stage : Stage) (htaken : stage.Taken) (e : Draw) (d : Shared) :
    Leads (Orderly stage d) (stage.next e d) := by
  cases stage with
  | networkWorker stage => exact stage.orderly e d
  | miner stage => exact stage.orderly htaken e d
  | minerWorker stage => exact stage.orderly d
  | api stage => exact stage.orderly e d
  | dead => trivial

/-! ### The mempool and the blocks -/

namespace Threads

variable {numWorker : ℕ} {g : GenesisDraw} {S S' : Threads numWorker} {x : ThreadId numWorker × Draw}

/-- The transaction is in a block that the node has: the block is stored, parked, in the channel of finished
blocks, or in the hands of a thread. -/
def Includes (S : Threads numWorker) (tx : SignedTransaction) : Prop :=
  S.shared.Includes tx ∨ ∃ t, (S.pc t).Includes tx

/-- **The mempool has pending transactions only.** -/
def Pending (S : Threads numWorker) : Prop :=
  ∀ k tx, S.shared.mempool.lookup k = some tx → ¬ S.shared.blockchain.OnChain tx.hash

/-- The transactions that the thread is about to put into the mempool are in no block that the node has. -/
def AdmitsNew (S : Threads numWorker) (t : ThreadId numWorker) : Prop :=
  ∀ tx ∈ (S.pc t).admits S.shared, ∀ included, S.Includes included → included.hash ≠ tx.hash

/-- The transactions of the mempool stand at their hashes, and those in the blocks of the node are not among
them. -/
structure Apart (S : Threads numWorker) : Prop where
  keyed : ∀ k tx, S.shared.mempool.lookup k = some tx → tx.hash = k
  blocks : ∀ tx, S.Includes tx → tx.hash ∉ S.shared.mempool
  taken : ∀ t, (S.pc t).Taken

theorem Apart.pending (h : Apart S) : S.Pending := by
  rintro k tx hk ⟨_, _, _, -, -, k', -, b, hb, t, ht, heq⟩
  refine h.blocks t (Or.inl (Or.inl ⟨k', b, hb, ht⟩)) ?_
  rw [heq, h.keyed k tx hk]
  exact Finmap.mem_of_lookup_eq_some hk

theorem apart_init : Apart (init numWorker g) where
  keyed _ _ hk := absurd (Finmap.mem_of_lookup_eq_some hk) Finmap.notMem_empty
  blocks _ _ := Finmap.notMem_empty
  taken t := by cases t <;> trivial

/-- The step of a thread is orderly. -/
theorem orderly_step (howned : S.Owned Stage.held) (htaken : (S.pc x.1).Taken)
    (hs : threads.step S x = some S') : Orderly (S.pc x.1) S.shared (S'.pc x.1) S'.shared := by
  have hact := (S.pc x.1).orderly htaken x.2 S.shared
  cases stepCase_of_step howned hs with
  | acts henters hmoves hpoisoned => exact (leads_iff_of_moves hmoves).1 hact
  | dies hcause hshared hdead hpoisoned =>
      rw [hshared, hdead]
      refine Orderly.drops ?_
      rcases hcause with ⟨rfl, -⟩ | ⟨-, hpanic⟩
      · exact .dead
      · rw [show (S.pc x.1).next x.2 S.shared = _ from hpanic] at hact
        exact hact

/-- Where an entry of the mempool comes from. -/
theorem lookup_mempool_step (howned : S.Owned Stage.held) (htaken : (S.pc x.1).Taken)
    (hs : threads.step S x = some S') {k : H256} {tx : SignedTransaction}
    (hk : S'.shared.mempool.lookup k = some tx) : S.shared.mempool.lookup k = some tx ∨
      ∃ txs, S.pc x.1 = .networkWorker (.holding (.transactions txs)) ∧ tx ∈ txs ∧ tx.hash = k ∧
        checkTxValidity tx = true ∧ k ∉ S.shared.mempool := by
  rcases (orderly_step howned htaken hs).mempool with ⟨data, heq⟩ | ⟨txs, hpc, heq⟩
  · rw [heq] at hk
    exact Or.inl (lookup_deleteTxFromMempool hk)
  · rw [heq] at hk
    exact (lookup_onTransactions hk).imp id fun h => ⟨txs, hpc, h⟩

/-- Where a transaction in a block comes from. -/
theorem includes_step (howned : S.Owned Stage.held) (htaken : (S.pc x.1).Taken)
    (hs : threads.step S x = some S') {tx : SignedTransaction} (h : S'.Includes tx) :
    S.Includes tx ∨ tx.hash ∉ S'.shared.mempool := by
  have hblocks := (orderly_step howned htaken hs).blocks tx
  have hold : S.shared.Includes tx ∨ (S.pc x.1).Includes tx → S.Includes tx := Or.imp id fun h => ⟨x.1, h⟩
  rcases h with h | ⟨t, h⟩
  · exact (hblocks (Or.inl h)).imp hold id
  · by_cases ht : t = x.1
    · rw [ht] at h
      exact (hblocks (Or.inr h)).imp hold id
    · rw [step_pc_of_ne hs ht] at h
      exact Or.inl (Or.inr ⟨t, h⟩)

/-- **The step lemma**: the mempool and the blocks stay apart. -/
theorem apart_step (howned : S.Owned Stage.held) (h : Apart S) (hadmits : S.AdmitsNew x.1)
    (hs : threads.step S x = some S') : Apart S' where
  keyed k tx hk := by
    rcases lookup_mempool_step howned (h.taken x.1) hs hk with hk | ⟨_, -, -, hhash, -⟩
    · exact h.keyed k tx hk
    · exact hhash
  blocks included hincluded := by
    rcases includes_step howned (h.taken x.1) hs hincluded with hincluded | hnot
    · -- the block was there, and the message does not bring its transaction back
      intro hmem
      obtain ⟨tx, hk⟩ := Finmap.mem_iff.1 hmem
      rcases lookup_mempool_step howned (h.taken x.1) hs hk with hk | ⟨txs, hpc, htx, hhash, hvalid, hnew⟩
      · exact h.blocks included hincluded (Finmap.mem_of_lookup_eq_some hk)
      · rw [AdmitsNew, hpc] at hadmits
        rw [← hhash] at hnew
        exact hadmits tx (Stage.mem_admits.2 ⟨htx, hvalid, hnew⟩) included hincluded hhash.symm
    · exact hnot
  taken t := by
    by_cases ht : t = x.1
    · rw [ht]
      exact (orderly_step howned (h.taken x.1) hs).taken
    · rw [step_pc_of_ne hs ht]
      exact h.taken t

/-- Along a run whose messages admit new transactions the mempool and the blocks are apart. -/
theorem apart_of_run {tr : List (Threads numWorker × (ThreadId numWorker × Draw))}
    (hrun : Run (init numWorker g) tr S) (hadmits : ∀ x ∈ tr, x.1.AdmitsNew x.2.1) : Apart S := by
  induction hrun with
  | nil => exact apart_init
  | snoc hrun hs ih =>
      obtain ⟨hbefore, hlast⟩ := List.forall_mem_append.1 hadmits
      exact apart_step (owned_of_run hrun) (ih hbefore) (hlast _ (List.mem_singleton_self _)) hs

/-- A network worker admits the transactions of a message. -/
theorem transactions_step {txs : List SignedTransaction}
    (hpc : S.pc x.1 = .networkWorker (.holding (.transactions txs))) (hs : threads.step S x = some S') :
    S'.shared.blockchain = S.shared.blockchain ∧
      S'.shared.mempool = (S.shared.toWorker.onTransactions txs []).1.mempool := by
  have hwants : threads.wants (S.pc x.1) = none := by rw [hpc]; rfl
  have hnext : threads.next (S.pc x.1) x.2 S.shared = .release .mempool
      { S.shared with toWorker := S.shared.toWorker.transactionsMessage txs } (.networkWorker .receive) := by
    rw [hpc]
    rfl
  rw [Program.step, hwants] at hs
  simp only [Program.perform, hnext, Option.some.injEq] at hs
  rw [← hs]
  exact ⟨(Node.transactionsMessage_core _ _).1, transactionsMessage_mempool _ txs⟩

/-- **One message**: the mempool keeps to pending transactions exactly if the message admits none of the
chain. -/
theorem pending_transactions_iff {txs : List SignedTransaction} (h : S.Pending)
    (hpc : S.pc x.1 = .networkWorker (.holding (.transactions txs))) (hs : threads.step S x = some S') :
    S'.Pending ↔ ∀ tx ∈ (S.pc x.1).admits S.shared, ¬ S.shared.blockchain.OnChain tx.hash := by
  obtain ⟨hchain, hpool⟩ := transactions_step hpc hs
  have hlookup : ∀ {k : H256} {tx : SignedTransaction}, S'.shared.mempool.lookup k = some tx →
      S.shared.mempool.lookup k = some tx ∨
        tx ∈ txs ∧ tx.hash = k ∧ checkTxValidity tx = true ∧ k ∉ S.shared.mempool := by
    intro k tx hk
    rw [hpool] at hk
    exact lookup_onTransactions hk
  rw [Pending, hchain, hpc]
  constructor
  · intro hpending tx hadmits hchained
    obtain ⟨htx, hvalid, hnot⟩ := Stage.mem_admits.1 hadmits
    have hmem : tx.hash ∈ S'.shared.mempool := by
      rw [hpool]
      exact mem_onTransactions.2 tx htx hvalid
    obtain ⟨tx', hk⟩ := Finmap.mem_iff.1 hmem
    rcases hlookup hk with hk' | ⟨-, hhash, -⟩
    · exact hnot (Finmap.mem_of_lookup_eq_some hk')
    · refine hpending _ tx' hk ?_
      rw [hhash]
      exact hchained
  · intro hnew k tx hk hchained
    rcases hlookup hk with hk | ⟨htx, hhash, hvalid, hnot⟩
    · exact h k tx hk hchained
    · rw [← hhash] at hnot
      exact hnew tx (Stage.mem_admits.2 ⟨htx, hvalid, hnot⟩) hchained

/-- **The mempool and the chain.**  Along a run of the threads whose messages admit no transaction of a block
that the node has, the mempool has pending transactions only; and when it has, it keeps to them under one message
with transactions exactly if this admits no transaction of the longest chain. -/
theorem mempool_pending_iff (S : Threads numWorker) :
    (∀ g tr, Run (init numWorker g) tr S → (∀ x ∈ tr, x.1.AdmitsNew x.2.1) → S.Pending) ∧
      ∀ t e txs (S' : Threads numWorker), S.Pending → S.pc t = .networkWorker (.holding (.transactions txs)) →
        threads.step S (t, e) = some S' →
        (S'.Pending ↔ ∀ tx ∈ (S.pc t).admits S.shared, ¬ S.shared.blockchain.OnChain tx.hash) := by
  refine ⟨fun g tr hrun hadmits => (apart_of_run hrun hadmits).pending, fun t e txs S' h hpc hs => ?_⟩
  exact pending_transactions_iff h hpc hs

omit [Crypto]

/-! ### Examples -/

def firstWorker : ThreadId 1 := .networkWorker ⟨0, Nat.one_pos⟩

/-- The network worker takes steps of its own. -/
def workerSteps (rounds : ℕ) : List (ThreadId 1 × Draw) := List.replicate rounds (firstWorker, .tau)

/-- A network worker receives a block, stores it, and receives a message with the transaction of the block. -/
def receiveAfterBlock : List (ThreadId 1 × Draw) :=
  (firstWorker, .message (.blocks [sampleBlock 1 2 2 [sampleTransaction 0 1 1 40]])) :: workerSteps 9 ++
    (firstWorker, .message (.transactions [sampleTransaction 0 1 1 40])) :: workerSteps 2

/-- **The mempool has a transaction of the chain**: the node has received it after the block with it. -/
theorem mempool_not_pending :
    letI := sampleCrypto
    ∃ S : Threads 1, Run (init 1 sampleGenesis)
        (Lts.replayTrace threads.step (init 1 sampleGenesis) receiveAfterBlock) S ∧
      (∀ m, S.owner m = none) ∧ (sampleTransaction 0 1 1 40).hash ∈ S.shared.mempool ∧
        S.shared.blockchain.OnChain (sampleTransaction 0 1 1 40).hash ∧ ¬ S.Pending := by
  let _ := sampleCrypto
  obtain ⟨S, hrun, hfree, hk, horder, hchain, hb⟩ :=
    @Lts.exists_run_of_replay _ _ threads.step receiveAfterBlock (init 1 sampleGenesis)
      (fun S => (S.owner .blockchain = none ∧ S.owner .mempool = none ∧ S.owner .orphanBuffer = none ∧
          S.owner .startedTxGen = none) ∧
        S.shared.mempool.lookup (sampleTransaction 0 1 1 40).hash = some (sampleTransaction 0 1 1 40) ∧
        Blockchain.IterOrder S.shared.blockchain.blocks [1, 2] ∧
        S.shared.blockchain.allBlocksInLongestChain [1, 2] 3 = some [2, 1] ∧
        S.shared.blockchain.getBlock 2 = some (sampleBlock 1 2 2 [sampleTransaction 0 1 1 40]))
      (by decide +kernel)
  have hon : S.shared.blockchain.OnChain (sampleTransaction 0 1 1 40).hash :=
    ⟨[1, 2], 3, [2, 1], horder, hchain, 2, List.mem_cons_self .., _, hb, _, List.mem_cons_self .., rfl⟩
  refine ⟨S, hrun, fun m => ?_, Finmap.mem_of_lookup_eq_some hk, hon, fun h => h _ _ hk hon⟩
  obtain ⟨hblockchain, hmempool, horphans, hstarted⟩ := hfree
  cases m <;> assumption

/-- The same messages in the other order, and the first one again. -/
def receiveBeforeBlock : List (ThreadId 1 × Draw) :=
  (firstWorker, .message (.transactions [sampleTransaction 0 1 1 40])) :: workerSteps 2 ++
    (firstWorker, .message (.blocks [sampleBlock 1 2 2 [sampleTransaction 0 1 1 40]])) :: workerSteps 9 ++
    (firstWorker, .message (.transactions [sampleTransaction 0 1 1 40])) :: workerSteps 1

/-- When the transaction is received first, no block has a transaction. -/
theorem not_includes_first :
    letI := sampleCrypto
    ∀ S ∈ Lts.replay threads.step (init 1 sampleGenesis) (receiveBeforeBlock.take 2),
      ∀ tx, ¬ Includes S tx := by
  let _ := sampleCrypto
  intro S hS tx hincluded
  have hcarries : ∀ t, (S.pc t).carries = [] := by
    obtain rfl := Option.some.inj hS
    intro t
    cases t with
    | networkWorker i =>
        obtain rfl : i = ⟨0, Nat.one_pos⟩ := Subsingleton.elim _ _
        rfl
    | _ => rfl
  obtain rfl := Option.some.inj hS
  rcases hincluded with (⟨h, b, hb, htx⟩ | ⟨b, hb, -⟩ | ⟨b, hb, -⟩) | ⟨t, b, hb, -⟩
  · -- the genesis block has none
    obtain ⟨-, rfl⟩ := Blockchain.getBlock_new_eq_some.1 hb
    exact absurd htx List.not_mem_nil
  · exact absurd hb List.not_mem_nil
  · exact absurd hb List.not_mem_nil
  · rw [hcarries t] at hb
    exact absurd hb List.not_mem_nil

/-- A node that receives the transaction before the block, and is about to admit it again. -/
theorem mempool_pending_iff_before :
    letI := sampleCrypto
    ∃ S : Threads 1, Run (init 1 sampleGenesis)
        (Lts.replayTrace threads.step (init 1 sampleGenesis) receiveBeforeBlock) S ∧
      S.shared.blockchain.OnChain (sampleTransaction 0 1 1 40).hash ∧ S.Pending ∧
      ∃ S' ∈ threads.step S (firstWorker, .tau), ¬ Pending S' := by
  let _ := sampleCrypto
  obtain ⟨S, hrun, hpc, hadmits, horder, hchain, hb, hsome⟩ :=
    @Lts.exists_run_of_replay _ _ threads.step receiveBeforeBlock (init 1 sampleGenesis)
      (fun S => S.pc firstWorker =
          .networkWorker (.holding (.transactions [sampleTransaction 0 1 1 40])) ∧
        (S.pc firstWorker).admits S.shared = [sampleTransaction 0 1 1 40] ∧
        Blockchain.IterOrder S.shared.blockchain.blocks [1, 2] ∧
        S.shared.blockchain.allBlocksInLongestChain [1, 2] 3 = some [2, 1] ∧
        S.shared.blockchain.getBlock 2 = some (sampleBlock 1 2 2 [sampleTransaction 0 1 1 40]) ∧
        (threads.step S (firstWorker, .tau)).isSome)
      (by decide +kernel)
  have hon : S.shared.blockchain.OnChain (sampleTransaction 0 1 1 40).hash :=
    ⟨[1, 2], 3, [2, 1], horder, hchain, 2, List.mem_cons_self .., _, hb, _, List.mem_cons_self .., rfl⟩
  have hnew : ∀ x ∈ Lts.replayTrace threads.step (init 1 sampleGenesis) receiveBeforeBlock,
      AdmitsNew x.1 x.2.1 := by
    rintro ⟨S, x⟩ hx
    obtain ⟨k, hreplay, hk⟩ := Lts.mem_replayTrace hx
    by_cases hfirst : k = 2
    · subst hfirst
      exact fun _ _ included hincluded => absurd hincluded (not_includes_first S hreplay included)
    · -- the other steps admit nothing
      have hothers : ∀ k < receiveBeforeBlock.length, k ≠ 2 →
          ∀ S ∈ Lts.replay threads.step (init 1 sampleGenesis) (receiveBeforeBlock.take k),
          ∀ x ∈ receiveBeforeBlock[k]?, (S.pc x.1).admits S.shared = [] := by decide +kernel
      have hnil := hothers k (List.getElem?_eq_some_iff.1 hk).1 hfirst S hreplay x hk
      rw [AdmitsNew, hnil]
      exact fun tx htx => absurd htx List.not_mem_nil
  obtain ⟨S', hstep⟩ := Option.isSome_iff_exists.1 hsome
  have hpending := (mempool_pending_iff S).1 _ _ hrun hnew
  refine ⟨S, hrun, hon, hpending, S', hstep, fun hpending' => ?_⟩
  have hall := ((mempool_pending_iff S).2 _ _ _ _ hpending hpc hstep).1 hpending'
  rw [hadmits] at hall
  exact hall _ (List.mem_singleton_self _) hon

end Threads

end BitcoinClient
