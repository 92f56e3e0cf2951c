/-
**The mempool and the blocks of a node after a step.**

A block takes its transactions out of the mempool when it is received or mined, and a message with transactions
puts those into it that are valid and not there yet; no other step changes the mempool.  The blocks of a node are
stored, parked, in the channel or in a variable of the miner, and a step brings in a block that is received or
mined, or passes one on from one of these places to another.

Main definitions:

* `BitcoinClient.Node.Has` — a block is stored, parked, in the channel or in a variable of the miner.

Main results:

* `BitcoinClient.lookup_onTransactions`, `BitcoinClient.mem_onTransactions` — what a message admits;
* `BitcoinClient.Node.mempool_step`, `BitcoinClient.lookup_mempool_step` — what a step does to the mempool;
* `BitcoinClient.has_step` — **the step lemma** for a property of all blocks of a node.
-/

import BitcoinClient.Crashes
import BitcoinClient.Provenance

set_option relaxedAutoImplicit false
set_option autoImplicit false

namespace BitcoinClient

variable [Crypto]

/-! ### The mempool after a step -/

theorem lookup_deleteTxFromMempool {k : H256} {tx : SignedTransaction} :
    ∀ {toDelete : List SignedTransaction} {mempool : Mempool},
      (deleteTxFromMempool mempool toDelete).lookup k = some tx → mempool.lookup k = some tx := by
  intro toDelete
  induction toDelete with
  | nil => intro mempool h; exact h
  | cons t toDelete ih =>
      intro mempool h
      have hrest : (mempool.erase t.hash).lookup k = some tx := ih h
      by_cases hk : k = t.hash
      · rw [hk, Finmap.lookup_erase] at hrest
        cases hrest
      · rwa [Finmap.lookup_erase_ne hk] at hrest

/-- What the transactions of a message add: those that are valid and not there yet. -/
theorem lookup_onTransactions {k : H256} {tx : SignedTransaction} :
    ∀ {txs : List SignedTransaction} {hs : List H256} {w : Worker},
      (w.onTransactions txs hs).1.mempool.lookup k = some tx → w.mempool.lookup k = some tx ∨
        tx ∈ txs ∧ tx.hash = k ∧ checkTxValidity tx = true ∧ k ∉ w.mempool := by
  intro txs
  induction txs with
  | nil => intro hs w h; exact Or.inl h
  | cons t txs ih =>
      intro hs w h
      rw [Worker.onTransactions] at h
      split at h
      · exact (ih h).imp id fun hin => ⟨List.mem_cons_of_mem _ hin.1, hin.2⟩
      · rename_i hnone
        split at h
        · rename_i hvalid
          by_cases hk : k = t.hash
          · subst hk
            rcases ih h with hin | ⟨-, -, -, hnot⟩
            · rw [Finmap.lookup_insert, Option.some_inj] at hin
              subst hin
              exact Or.inr ⟨List.mem_cons_self .., rfl, hvalid, Finmap.lookup_eq_none.1 hnone⟩
            · exact absurd (Finmap.mem_insert.2 (Or.inl rfl)) hnot
          · rcases ih h with hin | ⟨hmem, hhash, hv, hnot⟩
            · rw [Finmap.lookup_insert_of_ne _ hk] at hin
              exact Or.inl hin
            · refine Or.inr ⟨List.mem_cons_of_mem _ hmem, hhash, hv, fun hin => hnot ?_⟩
              exact Finmap.mem_insert.2 (Or.inr hin)
        · exact (ih h).imp id fun hin => ⟨List.mem_cons_of_mem _ hin.1, hin.2⟩

theorem mem_onTransactions : ∀ {txs : List SignedTransaction} {hs : List H256} {w : Worker},
    (∀ k ∈ w.mempool, k ∈ (w.onTransactions txs hs).1.mempool) ∧
      ∀ tx ∈ txs, checkTxValidity tx = true → tx.hash ∈ (w.onTransactions txs hs).1.mempool := by
  intro txs
  induction txs with
  | nil => intro hs w; exact ⟨fun _ hk => hk, fun _ htx => absurd htx List.not_mem_nil⟩
  | cons t txs ih =>
      intro hs w
      rw [Worker.onTransactions]
      split
      · rename_i hsome
        refine ⟨ih.1, List.forall_mem_cons.2 ⟨fun _ => ih.1 _ ?_, ih.2⟩⟩
        exact Finmap.mem_of_lookup_eq_some hsome
      · split
        · refine ⟨fun k hk => ih.1 k (Finmap.mem_insert.2 (Or.inr hk)), List.forall_mem_cons.2
            ⟨fun _ => ih.1 _ (Finmap.mem_insert.2 (Or.inl rfl)), ih.2⟩⟩
        · rename_i hvalid
          exact ⟨ih.1, List.forall_mem_cons.2 ⟨fun hv => absurd hv hvalid, ih.2⟩⟩

omit [Crypto] in
theorem announce_mempool (w : Worker) (message : List H256 → Message) (hashes : List H256) :
    (w.announce message hashes).mempool = w.mempool := by
  rw [Worker.announce]
  split <;> rfl

theorem transactionsMessage_mempool (w : Worker) (txs : List SignedTransaction) :
    (w.transactionsMessage txs).mempool = (w.onTransactions txs []).1.mempool :=
  announce_mempool _ _ _

namespace Worker

theorem attachIfValid_mempool (w : Worker) (block parent : Block) :
    (w.attachIfValid block parent).state.mempool = w.mempool := by
  rw [Worker.attachIfValid]
  split
  · rw [Exec.state_lift]
  · rfl

theorem handleWithoutParent_mempool (w : Worker) (block : Block) :
    (w.handleWithoutParent block).state.mempool = w.mempool := by
  rw [Worker.handleWithoutParent]
  split
  · split <;> rfl
  · rfl

end Worker

namespace Node

variable {n n' : Node}

omit [Crypto] in
theorem resume_mempool {α : Type} (x : Exec Worker α) (lock : α → ChainLock) :
    (n.resume x lock).mempool = x.state.mempool := by
  cases x <;> rfl

/-- **A block that is received** takes its transactions out of the mempool. -/
theorem workerStep_mempool_of_new {block : Block} {rest : List Block} {hs : List H256}
    (hlock : n.lock = .held (block :: rest) hs) (hnew : n.blockchain.getBlock block.hash = none)
    (hpool : n.mempoolPoisoned = false) (h : n.workerStep = some n') :
    n'.mempool = deleteTxFromMempool n.mempool block.data := by
  simp only [workerStep, hlock, hnew, hpool, Bool.false_eq_true, if_false] at h
  split at h
  · rw [← Option.some_inj.1 h, resume_mempool, Worker.handleWithoutParent_mempool]
    rfl
  · rw [← Option.some_inj.1 h, resume_mempool, Worker.attachIfValid_mempool]
    rfl

/-- The network worker takes transactions out of the mempool, if it changes it. -/
theorem workerStep_mempool (h : n.workerStep = some n') :
    ∃ data, n'.mempool = deleteTxFromMempool n.mempool data := by
  rw [workerStep] at h
  split at h
  · cases h
  · cases h
  · exact ⟨[], by rw [← Option.some_inj.1 h, announce_mempool]; rfl⟩
  · rename_i block rest hs hlock
    cases hnew : n.blockchain.getBlock block.hash with
    | some b =>
        simp only [hnew, Option.some.injEq] at h
        exact ⟨[], by rw [← h]; rfl⟩
    | none =>
        cases hpool : n.mempoolPoisoned with
        | true =>
            simp only [hnew, hpool, if_true, Option.some.injEq] at h
            exact ⟨[], by rw [← h]; rfl⟩
        | false =>
            refine ⟨block.data, workerStep_mempool_of_new hlock hnew hpool ?_⟩
            simp only [workerStep, hlock]
            exact h
  · refine ⟨[], ?_⟩
    split at h
    · rw [← Option.some_inj.1 h, resume_mempool, Worker.cleanup, Exec.state_lift]
      rfl
    · rw [← Option.some_inj.1 h, resume_mempool, Worker.attachIfValid_mempool]
      rfl

/-- A message leaves the mempool as it is, or its transactions are admitted. -/
theorem messageStep_mempool {message : Message} (h : n.messageStep message = some n') :
    n'.mempool = n.mempool ∨ ∃ txs, message = .transactions txs ∧
      n'.mempool = (n.toWorker.onTransactions txs []).1.mempool := by
  cases messageStep_cases h with
  | ping nonce => exact Or.inl rfl
  | pong nonce => exact Or.inl rfl
  | newBlockHashes => exact Or.inl (announce_mempool _ _ _)
  | @getBlocks hashes =>
      rw [Worker.getBlocksMessage]
      exact Or.inl (by split <;> rfl)
  | blocks => exact Or.inl rfl
  | newTransactionHashes => exact Or.inl (announce_mempool _ _ _)
  | @getTransactions hashes =>
      rw [Worker.getTransactionsMessage]
      exact Or.inl (by split <;> rfl)
  | @transactions txs => exact Or.inr ⟨txs, rfl, transactionsMessage_mempool n.toWorker txs⟩

/-- **What a step does to the mempool**: it takes transactions out, or it admits those of a message. -/
theorem mempool_step {e : Event} (h : n.step e = some n') :
    (∃ data, n'.mempool = deleteTxFromMempool n.mempool data) ∨
      ∃ txs, e = .message (.transactions txs) ∧
        n'.mempool = (n.toWorker.onTransactions txs []).1.mempool := by
  cases e with
  | message message =>
      rcases messageStep_mempool h with heq | ⟨txs, rfl, heq⟩
      · exact Or.inl ⟨[], heq⟩
      · exact Or.inr ⟨txs, rfl, heq⟩
  | worker => exact Or.inl (workerStep_mempool h)
  | mine draw => exact Or.inl (mine_frame h).2.1
  | _ =>
      refine Or.inl ⟨[], (mempool_frame ?_ ?_ ?_ h).1⟩
      · exact fun _ he => nomatch he
      · exact fun he => nomatch he
      · exact fun _ he => nomatch he

end Node

variable {n n' : Node} {e : Event}

/-- Where an entry of the mempool comes from. -/
theorem lookup_mempool_step (hstep : n.step e = some n') {k : H256} {tx : SignedTransaction}
    (hk : n'.mempool.lookup k = some tx) : n.mempool.lookup k = some tx ∨
      ∃ txs, e = .message (.transactions txs) ∧ tx ∈ txs ∧ tx.hash = k ∧
        checkTxValidity tx = true ∧ k ∉ n.mempool := by
  rcases Node.mempool_step hstep with ⟨data, heq⟩ | ⟨txs, rfl, heq⟩
  · rw [heq] at hk
    exact Or.inl (lookup_deleteTxFromMempool hk)
  · rw [heq] at hk
    exact (lookup_onTransactions hk).imp id fun h => ⟨txs, rfl, h⟩

/-! ### The blocks of a node -/

/-- A block that the node has: it is stored, or in the channel of finished blocks, or the miner has it as its
genesis or parent block, or it is parked. -/
def Node.Has (n : Node) (b : Block) : Prop :=
  (∃ h, n.blockchain.getBlock h = some b) ∨ b ∈ n.finishedBlockChan ∨ b ∈ n.miner.pc.blocks ∨
    b ∈ n.orphanBuffer

variable {P : Block → Prop}

omit [Crypto] in
theorem forall_has_iff :
    (∀ b, n.Has b → P b) ↔ AllBlocks P n.core ∧ ∀ b ∈ n.orphanBuffer, P b := by
  constructor
  · intro h
    refine ⟨⟨fun k b hb => h b (Or.inl ⟨k, hb⟩), fun b hb => h b (Or.inr (Or.inl hb)), ?_⟩, ?_⟩
    · exact fun b hb => h b (Or.inr (Or.inr (Or.inl hb)))
    · exact fun b hb => h b (Or.inr (Or.inr (Or.inr hb)))
  · rintro ⟨hall, horphans⟩ b (⟨k, hb⟩ | hb | hb | hb)
    · exact hall.stored k b hb
    · exact hall.chan b hb
    · exact hall.pc b hb
    · exact horphans b hb

/-- A block is parked when it is received. -/
theorem orphans_of_step (hstep : n.step e = some n') : ∀ b ∈ n'.orphanBuffer,
    b ∈ n.orphanBuffer ∨ e = .worker ∧ ∃ rest hs, n.lock = .held (b :: rest) hs ∧
      n.blockchain.getBlock b.hash = none := by
  intro b hb
  have hc := Node.core_step hstep
  have hb' : b ∈ n'.core.orphans := hb
  generalize n'.core = c' at hc hb'
  cases hc with
  | park hlock hnew _ _ =>
      rcases List.mem_append.1 hb' with hb' | hb'
      · exact Or.inl hb'
      · rw [List.mem_singleton.1 hb']
        exact Or.inr ⟨rfl, _, _, hlock, hnew⟩
  | cleanup _ _ hremove =>
      have hr := hremove.imp And.left And.left
      exact Or.inl (subset_of_removeAll hr b hb')
  | _ => exact Or.inl hb'

/-- **The step lemma for a property of all blocks of a node**: it is enough that a received block and a mined
one have it. -/
theorem has_step (hP : ∀ b length, P b → P { b with length := length }) (h : ∀ b, n.Has b → P b)
    (hnew : ∀ block rest hs, e = .worker → n.lock = .held (block :: rest) hs →
      n.blockchain.getBlock block.hash = none → P block)
    (hmined : ∀ b ∈ n.mined e, P b) (hstep : n.step e = some n') : ∀ b, n'.Has b → P b := by
  obtain ⟨hall, horphans⟩ := forall_has_iff.1 h
  refine forall_has_iff.2 ⟨allBlocks_step hP hall ?_ ?_ hmined hstep, fun b hb => ?_⟩
  · intro b hb
    obtain ⟨he, rest, hs, hlock, hfresh, -, -⟩ := Node.acceptsGenesis_iff.1 hb
    exact hnew b rest hs he hlock hfresh
  · intro b hb _ _
    obtain ⟨he, parent, lock, hat, -⟩ := Node.attached_iff.1 hb
    cases hat with
    | direct hlock hfresh _ => exact hnew b _ _ he hlock hfresh
    | orphan _ hf => exact horphans b (mem_of_findChild hf).1
  · rcases orphans_of_step hstep b hb with hb | ⟨he, rest, hs, hlock, hfresh⟩
    · exact horphans b hb
    · exact hnew b rest hs he hlock hfresh

end BitcoinClient
