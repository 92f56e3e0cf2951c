/-
**The network worker.**

`src/network/worker.rs`: what a network worker does with the messages of its peers.  The workers of
a node share the store, the orphan buffer and the mempool; `Worker` holds the three together with
the messages that were handed to the server or to a peer.

A block whose parent is not stored is accepted as a genesis block when its length is 1 and goes to
the orphan buffer otherwise.  A block whose parent is stored is checked, executed and inserted, and
then the orphan buffer is searched for a child of it, for a child of that child, and so on; the
positions that were visited are removed from the buffer at the end.

The search has no counter of its own.  It reads only the buffer, which it leaves as it is, so after
more rounds than the buffer is long it has come back to a position and never ends:
`Worker.handleNewBlock` gives the loop one round more than that.

Main definitions:

* `BitcoinClient.Message`, `BitcoinClient.Worker`;
* `BitcoinClient.checkBlockValidity`, `BitcoinClient.checkTxValidity` — the checks;
* `BitcoinClient.findChild` — one search of the orphan buffer;
* `BitcoinClient.Worker.handleNewBlock` — the treatment of a new block;
* `BitcoinClient.Worker.onBlocks`, `BitcoinClient.Worker.onTransactions` — the treatment of the
  messages that carry blocks and transactions.
-/

import BitcoinClient.Blockchain

set_option relaxedAutoImplicit false
set_option autoImplicit false

namespace BitcoinClient

variable [Crypto]

/-! ### Messages and shared state -/

inductive Message
  | ping (nonce : String)
  | pong (nonce : String)
  | newBlockHashes (hashes : List H256)
  | getBlocks (hashes : List H256)
  | blocks (blocks : List Block)
  | newTransactionHashes (hashes : List H256)
  | getTransactions (hashes : List H256)
  | transactions (transactions : List SignedTransaction)
  deriving DecidableEq

/-- The transactions that are not in a block yet, by their hash. -/
abbrev Mempool := Finmap fun _ : H256 => SignedTransaction

/-- What the network workers of a node share.  `server` is the list of the messages broadcast or
written to a peer so far. -/
structure Worker where
  blockchain : Blockchain
  orphanBuffer : List Block
  mempool : Mempool
  server : List Message
  deriving DecidableEq

def deleteTxFromMempool (mempool : Mempool) (toDelete : List SignedTransaction) : Mempool :=
  toDelete.foldl (fun mempool tx => mempool.erase tx.hash) mempool

theorem mem_deleteTxFromMempool {h : H256} : ∀ {toDelete : List SignedTransaction}
    {mempool : Mempool}, h ∈ deleteTxFromMempool mempool toDelete ↔
      h ∈ mempool ∧ ∀ tx ∈ toDelete, tx.hash ≠ h := by
  intro toDelete
  induction toDelete with
  | nil => intro mempool; simp [deleteTxFromMempool]
  | cons tx toDelete ih =>
      intro mempool
      have hrest : h ∈ deleteTxFromMempool (mempool.erase tx.hash) toDelete ↔ _ := ih
      rw [deleteTxFromMempool, List.foldl_cons, ← deleteTxFromMempool, hrest, Finmap.mem_erase,
        List.forall_mem_cons]
      constructor
      · rintro ⟨⟨hne, hmem⟩, hall⟩
        exact ⟨hmem, hne.symm, hall⟩
      · rintro ⟨hmem, hne, hall⟩
        exact ⟨⟨hne.symm, hmem⟩, hall⟩

/-- **Nothing leaves the mempool** exactly if it has none of the transactions. -/
theorem deleteTxFromMempool_eq_self_iff {toDelete : List SignedTransaction} {mempool : Mempool} :
    deleteTxFromMempool mempool toDelete = mempool ↔ ∀ tx ∈ toDelete, tx.hash ∉ mempool := by
  constructor
  · intro h tx htx hmem
    rw [← h, mem_deleteTxFromMempool] at hmem
    exact hmem.2 tx htx rfl
  · intro h
    induction toDelete with
    | nil => rfl
    | cons tx toDelete ih =>
        obtain ⟨hnot, hrest⟩ := List.forall_mem_cons.1 h
        have herase : mempool.erase tx.hash = mempool := by
          refine Finmap.ext_lookup fun k => ?_
          by_cases hk : k = tx.hash
          · rw [hk, Finmap.lookup_erase, Finmap.lookup_eq_none.2 hnot]
          · rw [Finmap.lookup_erase_ne hk]
        rw [deleteTxFromMempool, List.foldl_cons, herase]
        exact ih hrest

/-! ### Checks -/

/-- The signature check of a transaction; its sender is not compared with its public key. -/
def checkTxValidity (tx : SignedTransaction) : Bool :=
  verify tx.transaction tx.publicKey tx.signature

def checkBlockValidity (block parent : Block) : Bool :=
  !(H256.cmp block.hash block.getDifficulty = .gt || block.getDifficulty ≠ parent.getDifficulty)

/-- **The validity check**: enough work for its difficulty, and the difficulty of the parent. -/
theorem checkBlockValidity_iff {block parent : Block} :
    checkBlockValidity block parent = true ↔
      block.hash ≤ block.getDifficulty ∧ block.getDifficulty = parent.getDifficulty := by
  simp [checkBlockValidity, H256.cmp_gt_iff, BitVec.not_lt]

/-! ### The orphan buffer -/

/-- The first block of the buffer whose parent is `hash`, with its index; the search starts at the
index `idx`. -/
def findChild (hash : H256) : ℕ → List Block → Option (ℕ × Block)
  | _, [] => none
  | idx, block :: rest =>
    if block.getParent = hash then some (idx, block) else findChild hash (idx + 1) rest

/-- The cleanup of the buffer: the positions are removed one by one, as they stand, and a position
beyond the end of what is left panics. -/
def removeAll : List ℕ → List Block → Exec (List Block) Unit
  | [], orphanBuffer => .done orphanBuffer ()
  | i :: idxToDelete, orphanBuffer =>
    if i < orphanBuffer.length then removeAll idxToDelete (orphanBuffer.eraseIdx i)
    else .panicked orphanBuffer

namespace Worker

/-! ### A new block -/

/-- The transactions of a new block leave the mempool. -/
def removeFromMempool (w : Worker) (block : Block) : Worker :=
  { w with mempool := deleteTxFromMempool w.mempool block.data }

/-- A new block whose parent is not stored. -/
def handleWithoutParent (w : Worker) (block : Block) : Exec Worker Unit :=
  if block.length = 1 then
    -- new block is a genesis block, insert it
    match w.blockchain.insert block with
    | none => .panicked w
    | some chain => .done { w with blockchain := chain.putState block.hash icoState } ()
  else
    .done { w with orphanBuffer := w.orphanBuffer ++ [block],
                   server := w.server ++ [.getBlocks [block.getParent]] } ()

/-- A block is executed and inserted when it passes the check against `parent`. -/
def attachIfValid (w : Worker) (block parent : Block) : Exec Worker Unit :=
  if checkBlockValidity block parent then
    (w.blockchain.attach block).lift fun chain => { w with blockchain := chain }
  else .done w ()

/-- The search of the orphan buffer, from `newBlockInserted` on; the result is the list of the
positions visited. -/
def searchOrphans : ℕ → Block → List ℕ → Worker → Exec Worker (List ℕ)
  | 0, _, _, w => .looping w
  | fuel + 1, newBlockInserted, idxToDelete, w =>
    match findChild newBlockInserted.hash 0 w.orphanBuffer with
    | none => .done w idxToDelete
    | some (idx, block) =>
      (w.attachIfValid block newBlockInserted).bind fun w _ =>
        searchOrphans fuel block (idxToDelete ++ [idx]) w

def cleanup (w : Worker) (idxToDelete : List ℕ) : Exec Worker Unit :=
  (removeAll idxToDelete w.orphanBuffer).lift fun buffer => { w with orphanBuffer := buffer }

/-- **The treatment of a block whose hash is not stored.** -/
def handleNewBlock (w : Worker) (block : Block) : Exec Worker Unit :=
  let w := w.removeFromMempool block
  match w.blockchain.getParentBlock block with
  | none => w.handleWithoutParent block
  | some parentBlock =>
    (w.attachIfValid block parentBlock).bind fun w _ =>
      (w.searchOrphans (w.orphanBuffer.length + 1) block []).bind fun w idxToDelete =>
        w.cleanup idxToDelete

/-! ### Messages -/

/-- The loop over the blocks of a message; the result is the list of the hashes to announce. -/
def onBlocks : List Block → List H256 → Worker → Exec Worker (List H256)
  | [], newHashes, w => .done w newHashes
  | block :: rest, newHashes, w =>
    match w.blockchain.getBlock block.hash with
    | some _ => onBlocks rest newHashes w
    | none =>
      (w.handleNewBlock block).bind fun w _ => onBlocks rest (newHashes ++ [block.hash]) w

/-- A broadcast of hashes, when there are any. -/
def announce (w : Worker) (message : List H256 → Message) (hashes : List H256) : Worker :=
  if hashes.length > 0 then { w with server := w.server ++ [message hashes] } else w

/-- A message with blocks. -/
def blocksMessage (w : Worker) (blocks : List Block) : Exec Worker Unit :=
  (w.onBlocks blocks []).bind fun w newHashes => .done (w.announce .newBlockHashes newHashes) ()

/-- The loop over the transactions of a message. -/
def onTransactions : List SignedTransaction → List H256 → Worker → Worker × List H256
  | [], newHashes, w => (w, newHashes)
  | tx :: rest, newHashes, w =>
    match w.mempool.lookup tx.hash with
    | some _ => onTransactions rest newHashes w
    | none =>
      if checkTxValidity tx then
        onTransactions rest (newHashes ++ [tx.hash])
          { w with mempool := w.mempool.insert tx.hash tx }
      else onTransactions rest newHashes w

/-- A message with transactions. -/
def transactionsMessage (w : Worker) (transactions : List SignedTransaction) : Worker :=
  let (w, newHashes) := w.onTransactions transactions []
  w.announce .newTransactionHashes newHashes

/-- The hashes of blocks that a node does not have yet are asked for. -/
def newBlockHashesMessage (w : Worker) (hashes : List H256) : Worker :=
  w.announce .getBlocks (hashes.filter fun hash => (w.blockchain.getBlock hash).isNone)

/-- The stored blocks among those asked for are sent. -/
def getBlocksMessage (w : Worker) (hashes : List H256) : Worker :=
  let blocksInChain := hashes.filterMap fun hash => w.blockchain.getBlock hash
  if blocksInChain.length > 0 then { w with server := w.server ++ [.blocks blocksInChain] } else w

def newTransactionHashesMessage (w : Worker) (hashes : List H256) : Worker :=
  w.announce .getTransactions (hashes.filter fun hash => (w.mempool.lookup hash).isNone)

def getTransactionsMessage (w : Worker) (hashes : List H256) : Worker :=
  let txInMempool := hashes.filterMap fun hash => w.mempool.lookup hash
  if txInMempool.length > 0 then { w with server := w.server ++ [.transactions txInMempool] } else w

end Worker

end BitcoinClient
