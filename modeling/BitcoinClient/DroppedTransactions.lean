/-
**The transactions that mining drops.**

The miner takes a batch of transactions from the mempool and executes it on the state of the parent block.
The block gets those that pass the checks; the mempool loses the whole batch.  So a transaction that is too
early, or that its sender cannot pay yet, is taken out of the mempool and is in no block.

Nothing is lost with a transaction that fails for good: its nonce is not above the nonce that its sender has
after the block.  That one is the nonce in the parent state, or the next one when the last transaction of the
block that names the account has it as its sender; a payment to the account resets the nonce to the one in the
parent state.

Main definitions:

* `BitcoinClient.Node.LosesNothing` — the transactions that a mining step takes out of the mempool are in the
  block, or fail for good on its state;
* `BitcoinClient.UsedUp` — the fate of a transaction in a batch, read off the parent state.

Main results:

* `BitcoinClient.le_accNonce_iff` — the nonces after a list of transactions;
* `BitcoinClient.mining_loses_nothing_iff` — **which batches lose no transaction**;
* `BitcoinClient.mining_loses` — a transaction that arrives before its predecessor is dropped.
-/

import BitcoinClient.Core
import BitcoinClient.Replay

set_option relaxedAutoImplicit false
set_option autoImplicit false

namespace BitcoinClient

/-! ### The nonces after a batch -/

/-- **A nonce is not above that of an account after a batch** if it is not above the one before, or is the next
one and the account is a sender of the batch that is not rewound. -/
theorem le_accNonce_iff {p s : State} {txData validTx : List SignedTransaction}
    (h : executeTx p txData = some (s, validTx)) {a : Address} {nonce : UInt32} :
    nonce ≤ s.accNonce a ↔ nonce ≤ p.accNonce a ∨
      nonce.toNat = (p.accNonce a).toNat + 1 ∧ a ∈ senders validTx ∧ a ∉ rewound validTx := by
  rw [UInt32.le_iff_toNat_le, UInt32.le_iff_toNat_le]
  by_cases hsends : a ∈ senders validTx
  · by_cases hrewound : a ∈ rewound validTx
    · rw [accNonce_of_rewound h hrewound]
      simp [hrewound]
    · have hnonce := accNonce_of_sender h hsends hrewound
      rw [hnonce, and_iff_left ⟨hsends, hrewound⟩]
      omega
  · rw [accNonce_of_not_sender h hsends]
    simp [hsends]

/-! ### Mining a batch -/

/-- The transaction is one of the batch that pass the checks against the parent state, or its nonce is not
above that of its sender there, or is the next one, and the sender sends a transaction of the batch and is not
rewound by it. -/
def UsedUp (p : State) (txData : List SignedTransaction) (tx : SignedTransaction) : Prop :=
  let validTx := txData.filter (executable p)
  tx ∈ txData ∧ executable p tx = true ∨
    tx.transaction.accountNonce ≤ p.accNonce tx.transaction.sender ∨
    tx.transaction.accountNonce.toNat = (p.accNonce tx.transaction.sender).toNat + 1 ∧
      tx.transaction.sender ∈ senders validTx ∧ tx.transaction.sender ∉ rewound validTx

variable [Crypto]

/-- **No transaction is lost**: what a mining step takes out of the mempool is in the block, or cannot become
valid on its state any more. -/
def Node.LosesNothing (n n' : Node) (b : Block) : Prop :=
  ∀ k tx, n.mempool.lookup k = some tx → k ∉ n'.mempool →
    tx ∈ b.data ∨ ∃ s, n'.blockchain.getBlockState b.hash = some s ∧
      tx.transaction.accountNonce ≤ s.accNonce tx.transaction.sender

/-- **Which batches lose no transaction.**  For every node that mines a block, whatever is in its mempool, in
whatever order this is iterated, and whatever the state `p` of the parent block is: the step loses no
transaction exactly if every transaction that the mempool has at the hash of one of the batch passes the
checks against `p`, or has a nonce that its sender has used, on `p` or by a transaction of the batch after
which no payment to the sender is executed. -/
theorem mining_loses_nothing_iff {n n' : Node} {draw : MiningDraw} {b : Block} {p : State}
    (hpool : n.mempoolPoisoned = false) (hmined : n.mined (.mine draw) = some b)
    (hparent : n.blockchain.getBlockState b.getParent = some p) (hstep : n.step (.mine draw) = some n') :
    n.LosesNothing n' b ↔ ∀ k tx, n.mempool.lookup k = some tx →
      (∃ t ∈ batch n.mempool draw.order, t.hash = k) → UsedUp p (batch n.mempool draw.order) tx := by
  obtain ⟨draw', g, parent, p', s, he, -, -, -, -, hp', hexec, rfl⟩ :=
    Node.step_of_mined hpool hmined hstep
  obtain rfl := Event.mine.inj he
  obtain rfl := Option.some_inj.1 (hparent.symm.trans hp')
  have hstate : (n.blockchain.putState b.hash s).getBlockState b.hash = some s := by
    rw [Blockchain.getBlockState_putState, if_pos rfl]
  have hdata : ∀ tx, tx ∈ b.data ↔ tx ∈ batch n.mempool draw.order ∧ executable p tx = true := by
    intro tx
    rw [(executeTx_eq_some_iff.1 hexec).2.1, List.mem_filter]
  have hused : ∀ tx, (tx ∈ b.data ∨ ∃ s', (n.blockchain.putState b.hash s).getBlockState b.hash =
      some s' ∧ tx.transaction.accountNonce ≤ s'.accNonce tx.transaction.sender) ↔
        UsedUp p (batch n.mempool draw.order) tx := by
    intro tx
    simp only [hstate, Option.some.injEq, exists_eq_left']
    rw [hdata, le_accNonce_iff hexec, (executeTx_eq_some_iff.1 hexec).2.1, UsedUp]
  refine forall_congr' fun k => forall_congr' fun tx => forall_congr' fun hk => ?_
  -- what leaves the mempool is what has the hash of one of the batch
  have hremoved : k ∉ deleteTxFromMempool n.mempool (batch n.mempool draw.order) ↔
      ∃ t ∈ batch n.mempool draw.order, t.hash = k := by
    rw [mem_deleteTxFromMempool, and_iff_right (Finmap.mem_of_lookup_eq_some hk)]
    simp only [not_forall, ne_eq, not_not, exists_prop]
  exact imp_congr hremoved (hused tx)

omit [Crypto]

/-- A node receives a transaction, and its miner starts on the genesis block. -/
def receiveAndStart (tx : SignedTransaction) : List Event :=
  [.message (.transactions [tx]), .minerStart [1], .signal (.start 0), .minerTip [1], .minerControl [1],
    .minerTip [1], .minerControl [1]]

/-- What a round draws for a block with the hash 2, when the mempool has one transaction. -/
def drawWith (tx : SignedTransaction) : MiningDraw :=
  letI := sampleCrypto
  { timestamp := 0, merkleRoot := 0, nonce := 2, order := [tx.hash] }

/-- The first transaction of an account is in the block that is mined. -/
theorem mining_loses_nothing_iff_first :
    letI := sampleCrypto
    let tx := sampleTransaction 0 1 1 40
    ∃ (n n' : Node) (b : Block), n.mined (.mine (drawWith tx)) = some b ∧
      n.step (.mine (drawWith tx)) = some n' ∧ tx.hash ∈ n.mempool ∧ tx.hash ∉ n'.mempool ∧
      n.LosesNothing n' b := by
  let _ := sampleCrypto
  intro tx
  obtain ⟨n, -, hpool, hk, hbatch, b, hmined, n', hstep, hnot, p, hp, hpasses⟩ :=
    @Lts.exists_run_of_replay _ _ Node.step (receiveAndStart tx) (Node.init sampleGenesis)
      (fun n => n.mempoolPoisoned = false ∧ n.mempool.lookup tx.hash = some tx ∧
        batch n.mempool [tx.hash] = [tx] ∧ ∃ b ∈ n.mined (.mine (drawWith tx)),
          ∃ n' ∈ n.step (.mine (drawWith tx)), tx.hash ∉ n'.mempool ∧
            ∃ p ∈ n.blockchain.getBlockState b.getParent, executable p tx = true) (by decide +kernel)
  refine ⟨n, n', b, hmined, hstep, Finmap.mem_of_lookup_eq_some hk, hnot,
    (mining_loses_nothing_iff hpool hmined hp hstep).2 ?_⟩
  rintro k tx' hk' ⟨t, ht, rfl⟩
  change t ∈ batch n.mempool [tx.hash] at ht
  rw [hbatch, List.mem_singleton] at ht
  subst ht
  obtain rfl := Option.some_inj.1 (hk.symm.trans hk')
  refine Or.inl ⟨?_, hpasses⟩
  change tx ∈ batch n.mempool [tx.hash]
  rw [hbatch]
  exact List.mem_singleton_self tx

/-- **A transaction that arrives before its predecessor is dropped**: it has the nonce 2, its sender has the
nonce 0, and the block that is mined is empty. -/
theorem mining_loses :
    letI := sampleCrypto
    ¬ ∀ (g : GenesisDraw) (tr : List (Node × Event)) (n n' : Node) (draw : MiningDraw) (b : Block),
      Node.Run (Node.init g) tr n → n.mined (.mine draw) = some b → n.step (.mine draw) = some n' →
        n.LosesNothing n' b := by
  let _ := sampleCrypto
  intro h
  let tx := sampleTransaction 0 1 2 40
  obtain ⟨n, hrun, hn⟩ := @Lts.exists_run_of_replay _ _ Node.step (receiveAndStart tx)
    (Node.init sampleGenesis) (fun n => n.mempool.lookup tx.hash = some tx ∧
      ∃ b ∈ n.mined (.mine (drawWith tx)), ∃ n' ∈ n.step (.mine (drawWith tx)), tx.hash ∉ n'.mempool ∧
        tx ∉ b.data ∧ ∀ s ∈ n'.blockchain.getBlockState b.hash,
          ¬ tx.transaction.accountNonce ≤ s.accNonce tx.transaction.sender) (by decide +kernel)
  obtain ⟨hk, b, hmined, n', hstep, hnot, hdata, hnonce⟩ := hn
  rcases h _ _ n n' _ b hrun hmined hstep _ _ hk hnot with hmem | ⟨s, hs, hle⟩
  · exact hdata hmem
  · exact hnonce s hs hle

end BitcoinClient
