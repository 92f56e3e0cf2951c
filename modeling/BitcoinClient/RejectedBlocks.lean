/-
**Rejected blocks.**

A new block with a stored parent is checked against it, and a block that does not pass is not stored.  But
its transactions have left the mempool before the check, and the search of the orphan buffer after the check
starts from it as if it were stored: the orphans that name it as their parent are visited and removed.  So a
rejected block leaves no trace only when neither the mempool nor the orphan buffer knows it.

Main results:

* `BitcoinClient.rejected_unchanged_iff` — **when a rejected block has no effect**;
* `BitcoinClient.rejected_not_unchanged` — one that empties the mempool and the orphan buffer.
-/

import BitcoinClient.Crashes
import BitcoinClient.Delivery

set_option relaxedAutoImplicit false
set_option autoImplicit false

namespace BitcoinClient

variable [Crypto]

/-- The worker has the store, the mempool and the orphan buffer of another one. -/
structure Worker.SameStores (w w' : Worker) : Prop where
  blockchain : w'.blockchain = w.blockchain
  mempool : w'.mempool = w.mempool
  orphanBuffer : w'.orphanBuffer = w.orphanBuffer

/-- **A rejected block has no effect** exactly if the mempool has none of its transactions and no orphan has it
as its parent. -/
theorem rejected_unchanged_iff {w : Worker} {block parent : Block}
    (hpar : w.blockchain.getBlock block.getParent = some parent)
    (hcheck : checkBlockValidity block parent = false) :
    ((w.handleNewBlock block).Ends fun w' _ => w.SameStores w') ↔
      (∀ tx ∈ block.data, tx.hash ∉ w.mempool) ∧
        ∀ orphan ∈ w.orphanBuffer, orphan.getParent ≠ block.hash := by
  constructor
  · rintro ⟨w', _, h, hsame⟩
    obtain ⟨path, -, -, hpath, -, hremove, hmempool⟩ :=
      Worker.handleNewBlock_ensures_of_parent hpar w' () h
    refine ⟨?_, ?_⟩
    · rw [hsame.mempool] at hmempool
      exact deleteTxFromMempool_eq_self_iff.1 hmempool.symm
    · -- the cleanup has removed nothing, so the search has found nothing
      rw [hsame.orphanBuffer] at hremove
      have hlen := (removeAll_eq_done_iff.1 hremove).2
      rw [List.length_map] at hlen
      have hnil : path = [] := List.length_eq_zero_iff.1 (by omega)
      subst hnil
      rcases searchPath_cases hpath with ⟨hf, -⟩ | ⟨_, _, _, -, -, hcons⟩
      · exact findChild_eq_none.1 hf
      · cases hcons
  · rintro ⟨hmempool, horphans⟩
    have hsettle : Settles w.blockchain block parent w.blockchain := Or.inr ⟨hcheck, rfl⟩
    have hpath : searchPath (w.orphanBuffer.length + 1) block.hash w.orphanBuffer = some [] :=
      searchPath_none (findChild_eq_none.2 horphans)
    obtain ⟨w', _, h, hchain, hbuffer⟩ :=
      Worker.handleNewBlock_search hpar hsettle hpath rfl rfl
    obtain ⟨_, _, -, -, -, -, hpool⟩ := Worker.handleNewBlock_ensures_of_parent hpar w' () h
    exact ⟨w', (), h, hchain, by rw [hpool, deleteTxFromMempool_eq_self_iff.2 hmempool], hbuffer⟩

omit [Crypto]

/-! ### Examples -/

/-- A node receives a transaction, and a child of a block that it does not have. -/
def receiveBeforeRejected : List Event :=
  [.message (.transactions [sampleTransaction 0 1 1 40]),
    .message (.blocks [sampleBlock 2 3 3 []]), .worker, .worker]

/-- A child of the genesis block with another difficulty and the transaction. -/
def rejectedBlock : Block := { easyBlock 1 2 2 with data := [sampleTransaction 0 1 1 40] }

/-- **A rejected block has an effect**: the transaction leaves the mempool, and the child of the rejected block
the orphan buffer. -/
theorem rejected_not_unchanged :
    letI := sampleCrypto
    ∃ n, Node.Run (Node.init sampleGenesis)
        (Lts.replayTrace Node.step (Node.init sampleGenesis) receiveBeforeRejected) n ∧
      n.lock = .free ∧ n.blockchain.getBlock rejectedBlock.getParent = some sampleGenesis.block ∧
        checkBlockValidity rejectedBlock sampleGenesis.block = false ∧
        (sampleTransaction 0 1 1 40).hash ∈ n.mempool ∧
        n.orphanBuffer = [sampleBlock 2 3 3 []] ∧
        (n.toWorker.handleNewBlock rejectedBlock).Ends fun w' _ =>
          (sampleTransaction 0 1 1 40).hash ∉ w'.mempool ∧ w'.orphanBuffer = [] :=
  Lts.exists_run_of_replay (by decide +kernel)

/-- A node receives a transaction, and a child of a block that has nothing to do with the rejected ones. -/
def receiveUnrelated : List Event :=
  [.message (.transactions [sampleTransaction 0 1 1 40]),
    .message (.blocks [sampleBlock 7 8 3 []]), .worker, .worker]

/-- A child of the genesis block with another difficulty and another transaction. -/
def unrelatedBlock : Block := { easyBlock 1 2 2 with data := [sampleTransaction 0 2 1 30] }

/-- Neither the mempool nor the orphan buffer knows the rejected block, and both stay as they are. -/
theorem rejected_unchanged_iff_unrelated :
    letI := sampleCrypto
    ∃ n, Node.Run (Node.init sampleGenesis)
        (Lts.replayTrace Node.step (Node.init sampleGenesis) receiveUnrelated) n ∧
      (sampleTransaction 0 1 1 40).hash ∈ n.mempool ∧ n.orphanBuffer = [sampleBlock 7 8 3 []] ∧
        checkBlockValidity unrelatedBlock sampleGenesis.block = false ∧
        (n.toWorker.handleNewBlock unrelatedBlock).Ends fun w' _ => n.toWorker.SameStores w' := by
  let _ := sampleCrypto
  obtain ⟨n, hrun, hmem, horphans, hpar, hcheck, hknows⟩ :=
    @Lts.exists_run_of_replay _ _ Node.step receiveUnrelated (Node.init sampleGenesis)
      (fun n => (sampleTransaction 0 1 1 40).hash ∈ n.mempool ∧ n.orphanBuffer = [sampleBlock 7 8 3 []] ∧
        n.blockchain.getBlock unrelatedBlock.getParent = some sampleGenesis.block ∧
        checkBlockValidity unrelatedBlock sampleGenesis.block = false ∧
        (∀ tx ∈ unrelatedBlock.data, tx.hash ∉ n.mempool) ∧
          ∀ orphan ∈ n.orphanBuffer, orphan.getParent ≠ unrelatedBlock.hash) (by decide +kernel)
  exact ⟨n, hrun, hmem, horphans, hcheck, (rejected_unchanged_iff hpar hcheck).2 hknows⟩

end BitcoinClient
