/-
**Networks of honest nodes: where transactions and blocks come from.**

A peer may send a node anything: a transaction that nobody made, a block without work, one with
thousands of transactions.  When all nodes run this code, they only send what they have made
themselves or received before, so every transaction and every block in the network goes back to the
step of some node that made it.  The assume-guarantee rule turns that into statements about the whole
network: it is enough to say what a node makes, and that it passes on nothing but what it has.

What a node checks itself is weaker, and holds whatever the peers send: the transactions of the
mempool carry a valid signature and stand at their own hash, and so do those of the blocks it mines.

Main definitions:

* `BitcoinClient.Node.generated` — the transaction that a step of the generator makes;
* `BitcoinClient.Sends` — the messages that a step may send, each with what it carries;
* `BitcoinClient.FromGenerator` — what the generator makes sure of in a transaction;
* `BitcoinClient.WellMined` — what the miner makes sure of in a block;
* `BitcoinClient.Node.Holds` — the transactions that a node has.

Main results:

* `BitcoinClient.Node.server_step` — a step sends at most one message, one of those listed;
* `BitcoinClient.mined_blocks_verified` — **what a node mines or relays carries valid signatures**,
  for arbitrary peers;
* `BitcoinClient.Network.transactions_generated` — **every transaction in a network of honest nodes
  was made by a generator**;
* `BitcoinClient.Network.blocks_mined` — **every block in it was mined by a node**, with enough work
  and at most 300 transactions, all generated, or is the genesis block of one.
-/

import BitcoinClient.Network
import BitcoinClient.MempoolSteps

set_option relaxedAutoImplicit false
set_option autoImplicit false

namespace BitcoinClient

variable [Crypto]

/-! ### What a step sends -/

/-- The transaction that a step of the generator makes. -/
def Node.generated (n : Node) : Event → Option SignedTransaction
  | .generate order draw => do
    let parentState ← n.blockchain.getBlockState (n.blockchain.tip order)
    let transaction ← doGenerateRandomTransaction parentState draw
    some { transaction, signature := draw.signature, publicKey := draw.publicKey }
  | _ => none

/-- The address of one of the ten accounts of the generator. -/
def GeneratorAccount (a : Address) : Prop :=
  ∃ i : UInt32, i < 10 ∧ a = Address.fromPublicKeyBytes (toBeBytes i)

/-- What the generator makes sure of: a valid signature, two of its ten accounts and fewer than 100
coins. -/
structure FromGenerator (tx : SignedTransaction) : Prop where
  signed : checkTxValidity tx = true
  sender : GeneratorAccount tx.transaction.sender
  receiver : GeneratorAccount tx.transaction.receiver
  value : tx.transaction.value < 100

/-- `Sends n e m`: in the state `n` the step `e` may send the message `m`. -/
inductive Sends (n : Node) : Event → Message → Prop
  | pong (nonce : String) : Sends n (.message (.ping nonce)) (.pong nonce)
  | requestBlocks (hashes : List H256) :
      Sends n (.message (.newBlockHashes hashes))
        (.getBlocks (hashes.filter fun hash => (n.blockchain.getBlock hash).isNone))
  | serveBlocks (hashes : List H256) :
      Sends n (.message (.getBlocks hashes))
        (.blocks (hashes.filterMap fun hash => n.blockchain.getBlock hash))
  | announceBlocks {newHashes : List H256} :
      n.lock = .held [] newHashes → Sends n .worker (.newBlockHashes newHashes)
  | requestParent {block : Block} {rest : List Block} {newHashes : List H256} :
      n.lock = .held (block :: rest) newHashes → Sends n .worker (.getBlocks [block.getParent])
  | requestTransactions (hashes : List H256) :
      Sends n (.message (.newTransactionHashes hashes))
        (.getTransactions (hashes.filter fun hash => (n.mempool.lookup hash).isNone))
  | serveTransactions (hashes : List H256) :
      Sends n (.message (.getTransactions hashes))
        (.transactions (hashes.filterMap fun hash => n.mempool.lookup hash))
  | announceTransactions (txs : List SignedTransaction) :
      Sends n (.message (.transactions txs))
        (.newTransactionHashes (n.toWorker.onTransactions txs []).2)
  | minedBlock {block : Block} {chan : List Block} :
      n.finishedBlockChan = block :: chan → Sends n .minerWorker (.blocks [block])
  | generated {order : List H256} {draw : TxDraw} {tx : SignedTransaction} :
      n.generated (.generate order draw) = some tx → FromGenerator tx →
      Sends n (.generate order draw) (.transactions [tx])
  | ping : Sends n .ping (.ping "Test ping")

/-- A step of `n` to `n'` sends nothing, or one message. -/
def SendsOne (n : Node) (e : Event) (n' : Node) : Prop :=
  n'.server = n.server ∨ ∃ m, Sends n e m ∧ n'.server = n.server ++ [m]

/-- An announcement sends its message, if any. -/
theorem SendsOne.of_announce {n n' : Node} {e : Event} {w : Worker} {message : List H256 → Message}
    {hashes : List H256} (h : n'.server = (w.announce message hashes).server)
    (hw : w.server = n.server) (hsends : Sends n e (message hashes)) : SendsOne n e n' := by
  rw [Worker.announce] at h
  split at h
  · exact Or.inr ⟨_, hsends, by rw [h, hw]⟩
  · exact Or.inl (by rw [h, hw])

namespace Node

variable {n n' : Node}

private theorem sends_workerStep (h : n.workerStep = some n') : SendsOne n .worker n' := by
  rw [workerStep] at h
  split at h
  · cases h
  · cases h
  · rename_i newHashes hlock
    rw [← Option.some_inj.1 h]
    exact .of_announce rfl rfl (.announceBlocks hlock)
  · rename_i block rest newHashes hlock
    split at h
    · rw [← Option.some_inj.1 h]
      exact Or.inl rfl
    · split at h
      · rw [← Option.some_inj.1 h]
        exact Or.inl rfl
      · dsimp only at h
        split at h
        · rw [← Option.some_inj.1 h, SendsOne, server_resume]
          exact (server_handleWithoutParent _ _).imp id fun hw => ⟨_, .requestParent hlock, hw⟩
        · rw [← Option.some_inj.1 h, SendsOne, server_resume, server_attachIfValid]
          exact Or.inl rfl
  · split at h
    · rw [← Option.some_inj.1 h, SendsOne, server_resume, server_cleanup]
      exact Or.inl rfl
    · rw [← Option.some_inj.1 h, SendsOne, server_resume, server_attachIfValid]
      exact Or.inl rfl

private theorem sends_messageStep {m : Message} (h : n.messageStep m = some n') :
    SendsOne n (.message m) n' := by
  cases messageStep_cases h with
  | ping nonce => exact Or.inr ⟨_, .pong nonce, rfl⟩
  | pong nonce => exact Or.inl rfl
  | @newBlockHashes hashes => exact .of_announce rfl rfl (.requestBlocks hashes)
  | @getBlocks hashes =>
      rw [Worker.getBlocksMessage]
      split
      · exact Or.inr ⟨_, .serveBlocks hashes, rfl⟩
      · exact Or.inl rfl
  | blocks => exact Or.inl rfl
  | @newTransactionHashes hashes => exact .of_announce rfl rfl (.requestTransactions hashes)
  | @getTransactions hashes =>
      rw [Worker.getTransactionsMessage]
      split
      · exact Or.inr ⟨_, .serveTransactions hashes, rfl⟩
      · exact Or.inl rfl
  | @transactions txs =>
      exact .of_announce rfl (server_onTransactions _ _ _) (.announceTransactions txs)

private theorem sends_generateStep {order : List H256} {draw : TxDraw}
    (h : n.generateStep order draw = some n') : SendsOne n (.generate order draw) n' := by
  rw [generateStep] at h
  split at h
  · split at h
    · rw [← Option.some_inj.1 h]
      exact Or.inl rfl
    · rename_i parentState hstate
      split at h
      · cases h
      · rename_i transaction htransaction
        split at h
        · rename_i hdraw
          obtain ⟨htx, hrx, hvalue, hverify⟩ := hdraw
          rw [← Option.some_inj.1 h]
          refine Or.inr ⟨_, .generated ?_ ?_, rfl⟩
          · simp [generated, hstate, htransaction]
          · rw [doGenerateRandomTransaction] at htransaction
            split at htransaction
            · cases htransaction
            · rw [← Option.some_inj.1 htransaction] at hverify ⊢
              exact ⟨hverify, ⟨_, htx, rfl⟩, ⟨_, hrx, rfl⟩, hvalue⟩
        · cases h
  · cases h

/-- **A step sends at most one message.** -/
theorem server_step {e : Event} (h : n.step e = some n') : SendsOne n e n' := by
  cases e with
  | message m => exact sends_messageStep h
  | worker => exact sends_workerStep h
  | minerStart order =>
      obtain ⟨_, _, rfl⟩ := minerReads_frame (Or.inl rfl) h
      exact Or.inl rfl
  | minerTip order =>
      obtain ⟨_, _, rfl⟩ := minerReads_frame (Or.inr (Or.inl rfl)) h
      exact Or.inl rfl
  | minerControl order =>
      obtain ⟨_, _, rfl⟩ := minerReads_frame (Or.inr (Or.inr rfl)) h
      exact Or.inl rfl
  | mine draw => exact Or.inl (mine_frame h).1
  | minerWorker =>
      rw [step, minerWorkerStep] at h
      split at h
      · cases h
      · rename_i block chan hchan
        split at h
        · split at h
          · rw [← Option.some_inj.1 h]
            exact Or.inl rfl
          · rw [← Option.some_inj.1 h]
            exact Or.inr ⟨_, .minedBlock hchan, rfl⟩
        · cases h
  | generate order draw => exact sends_generateStep h
  | signal signal =>
      rw [← (Node.step_signal h).2]
      exact Or.inl rfl
  | ping =>
      rw [← Option.some_inj.1 h]
      exact Or.inr ⟨_, .ping, rfl⟩

end Node

/-! ### What a node screens -/

/-- The mempool has transactions with valid signatures only, each at its own hash. -/
structure Screened (n : Node) : Prop where
  keyed : ∀ k tx, n.mempool.lookup k = some tx → tx.hash = k
  signed : ∀ k tx, n.mempool.lookup k = some tx → checkTxValidity tx = true
  poisoned : n.mempoolPoisoned = true → n.lock = .poisoned

/-- What the miner makes sure of in a block: enough work, at most 300 transactions, none of them
twice, and all of them with a valid signature. -/
structure WellMined (b : Block) : Prop where
  work : b.hash ≤ b.getDifficulty
  size : b.data.length ≤ maxTxPerBlock
  nodup : (b.data.map SignedTransaction.hash).Nodup
  signed : ∀ tx ∈ b.data, checkTxValidity tx = true

theorem WellMined.setLength {b : Block} (h : WellMined b) (length : UInt32) :
    WellMined { b with length := length } where
  work := h.work
  size := h.size
  nodup := h.nodup
  signed := h.signed

omit [Crypto] in
theorem exists_lookup_of_mem_batch {mempool : Mempool} {order : List H256} {tx : SignedTransaction}
    (h : tx ∈ batch mempool order) : ∃ k, mempool.lookup k = some tx := by
  obtain ⟨k, -, hk⟩ := List.mem_filterMap.1 (List.mem_of_mem_take h)
  exact ⟨k, hk⟩

/-- The transactions of a mempool whose keys are their hashes have different hashes. -/
theorem nodup_batch {mempool : Mempool} {order : List H256} (hnodup : order.Nodup)
    (hkeyed : ∀ k tx, mempool.lookup k = some tx → tx.hash = k) :
    ((batch mempool order).map SignedTransaction.hash).Nodup := by
  have hkeys : ∀ k k' tx, tx ∈ mempool.lookup k → tx ∈ mempool.lookup k' → k = k' :=
    fun k k' tx hk hk' => (hkeyed k tx hk).symm.trans (hkeyed k' tx hk')
  have hall : (order.filterMap fun k => mempool.lookup k).Nodup := hnodup.filterMap hkeys
  refine List.Nodup.map_on ?_ (hall.sublist (List.take_sublist _ _))
  intro tx htx tx' htx' heq
  obtain ⟨k, hk⟩ := exists_lookup_of_mem_batch htx
  obtain ⟨k', hk'⟩ := exists_lookup_of_mem_batch htx'
  rw [← hkeyed k tx hk, heq, hkeyed k' tx' hk', hk', Option.some_inj] at hk
  exact hk.symm

section

variable {n n' : Node} {e : Event} {b : Block}

theorem screened_init (g : GenesisDraw) : Screened (Node.init g) where
  keyed _ _ hk := absurd (Finmap.mem_of_lookup_eq_some hk) Finmap.notMem_empty
  signed _ _ hk := absurd (Finmap.mem_of_lookup_eq_some hk) Finmap.notMem_empty
  poisoned h := nomatch h

/-- **The step lemma.** -/
theorem screened_step (h : Screened n) (hstep : n.step e = some n') : Screened n' where
  keyed k tx hk := by
    rcases lookup_mempool_step hstep hk with hk | ⟨_, -, -, hhash, -⟩
    · exact h.keyed k tx hk
    · exact hhash
  signed k tx hk := by
    rcases lookup_mempool_step hstep hk with hk | ⟨_, -, -, -, hvalid, -⟩
    · exact h.signed k tx hk
    · exact hvalid
  poisoned hp := by
    rcases mempoolPoisoned_step hstep with heq | hlock
    · rw [heq] at hp
      exact poisoned_step hstep (h.poisoned hp)
    · exact hlock

theorem screened_of_run {g : GenesisDraw} {tr : List (Node × Event)}
    (hrun : Node.Run (Node.init g) tr n) : Screened n :=
  hrun.invariant (C := fun _ _ => True) (screened_init g) (fun _ _ _ h _ => screened_step h)
    fun _ _ => trivial

/-- The transactions of a mined block were in the mempool. -/
theorem exists_lookup_of_mined (hmined : n.mined e = some b) {tx : SignedTransaction}
    (htx : tx ∈ b.data) : ∃ k, n.mempool.lookup k = some tx := by
  obtain ⟨draw, _, _, block, p, s, v, -, -, -, -, -, -, he, rfl⟩ := Node.mined_iff.1 hmined
  obtain ⟨-, hv, -⟩ := executeTx_eq_some_iff.1 he
  have htx' : tx ∈ v := htx
  rw [hv] at htx'
  exact exists_lookup_of_mem_batch (List.mem_of_mem_filter htx')

/-- The miner iterates the mempool. -/
theorem iterOrder_of_mine {draw : MiningDraw} (hpool : n.mempoolPoisoned = false)
    (hmined : n.mined (.mine draw) = some b) (hstep : n.step (.mine draw) = some n') :
    Blockchain.IterOrder n.mempool draw.order := by
  obtain ⟨_, g, p, block, s, s', v, he, hlock, hpc, hb, hle, hs, -, -⟩ := Node.mined_iff.1 hmined
  obtain rfl := Event.mine.inj he
  have hlock' : n.lock = .free := hlock
  have hpc' : n.miner.pc = .mining g p := hpc
  have hcmp : ¬ H256.cmp block.hash block.getDifficulty = .gt := by
    rw [H256.cmp_gt_iff, BitVec.not_lt]
    exact hle
  by_contra hnot
  simp [Node.step, hpc', Node.mineStep, hb, hcmp, hpool, Node.miningSection, hlock', hnot] at hstep

/-- A block that a node mines. -/
theorem wellMined_of_mined (h : Screened n) (hmined : n.mined e = some b)
    (hstep : n.step e = some n') : WellMined b := by
  obtain ⟨draw, _, _, block, p, s, v, rfl, hlock, -, -, hle, -, he, hb⟩ := Node.mined_iff.1 hmined
  have hfree : n.lock = .free := hlock
  have hpool : n.mempoolPoisoned = false := by
    rw [Bool.eq_false_iff]
    intro hp
    rw [h.poisoned hp] at hfree
    cases hfree
  have horder := iterOrder_of_mine hpool hmined hstep
  obtain ⟨-, hv, -⟩ := executeTx_eq_some_iff.1 he
  have hsub : b.data.Sublist (batch n.mempool draw.order) := by
    rw [hb]
    change v.Sublist _
    rw [hv]
    exact List.filter_sublist
  refine ⟨by rw [hb]; exact hle, ?_, ?_, fun tx htx => ?_⟩
  · exact hsub.length_le.trans (List.length_take_le _ _)
  · exact (nodup_batch horder.1 h.keyed).sublist (hsub.map _)
  · obtain ⟨k, hk⟩ := exists_lookup_of_mined hmined htx
    exact h.signed k tx hk

/-- The transactions that a step sends come from the mempool, or from the generator. -/
theorem transactions_of_sends {txs : List SignedTransaction} (h : Sends n e (.transactions txs)) :
    ∀ tx ∈ txs, (∃ k, n.mempool.lookup k = some tx) ∨ n.generated e = some tx ∧ FromGenerator tx := by
  intro tx htx
  cases h with
  | serveTransactions hashes =>
      obtain ⟨k, -, hk⟩ := List.mem_filterMap.1 htx
      exact Or.inl ⟨k, hk⟩
  | generated hgen hfrom =>
      rw [List.mem_singleton.1 htx]
      exact Or.inr ⟨hgen, hfrom⟩

/-- The transactions that a node has sent carry valid signatures. -/
theorem signed_sent_of_run {g : GenesisDraw} {tr : List (Node × Event)}
    (hrun : Node.Run (Node.init g) tr n) {txs : List SignedTransaction}
    (hm : Message.transactions txs ∈ n.server) : ∀ tx ∈ txs, checkTxValidity tx = true := by
  induction hrun with
  | nil => exact absurd hm List.not_mem_nil
  | @snoc tr m n e hrun hstep ih =>
      rcases Node.server_step hstep with heq | ⟨msg, hsends, heq⟩
      · rw [heq] at hm
        exact ih hm
      · rw [heq] at hm
        rcases List.mem_append.1 hm with hm | hm
        · exact ih hm
        · rw [← List.mem_singleton.1 hm] at hsends
          intro tx htx
          rcases transactions_of_sends hsends tx htx with ⟨k, hk⟩ | ⟨-, hfrom⟩
          · exact (screened_of_run hrun).signed k tx hk
          · exact hfrom.signed

end

/-- **What a node keeps, mines and relays carries valid signatures**, whatever its peers send: the
transactions of its mempool, each at its own hash, those of the blocks it mines, which have at most
300 transactions and none of them twice, and those of the messages it sends. -/
theorem mined_blocks_verified {g : GenesisDraw} {tr : List (Node × Event)} {n : Node}
    (hrun : Node.Run (Node.init g) tr n) :
    (∀ k tx, n.mempool.lookup k = some tx → tx.hash = k ∧ checkTxValidity tx = true) ∧
      (∀ x ∈ tr, ∀ b ∈ x.1.mined x.2, WellMined b) ∧
      ∀ txs, .transactions txs ∈ n.server → ∀ tx ∈ txs, checkTxValidity tx = true := by
  refine ⟨fun k tx hk => ?_, fun x hx b hb => ?_, fun txs hm => signed_sent_of_run hrun hm⟩
  · have hscreened := screened_of_run hrun
    exact ⟨hscreened.keyed k tx hk, hscreened.signed k tx hk⟩
  · obtain ⟨tr₁, m', tr₂, hrun₁, hstep, -, -⟩ := hrun.split_of_mem hx
    exact wellMined_of_mined (screened_of_run hrun₁) hb hstep

/-! ### What a node has -/

/-- The transactions that a message carries. -/
def Message.carriedTransactions : Message → List SignedTransaction
  | .transactions txs => txs
  | .blocks bs => bs.flatMap Block.data
  | _ => []

/-- A block that the node has, or is about to treat. -/
def Node.HoldsBlock (n : Node) (b : Block) : Prop := n.Has b ∨ b ∈ n.lock.blocks

/-- A transaction that the node has, in its mempool or in a block. -/
def Node.Holds (n : Node) (tx : SignedTransaction) : Prop :=
  (∃ k, n.mempool.lookup k = some tx) ∨ ∃ b, n.HoldsBlock b ∧ tx ∈ b.data

section

variable {n n' : Node} {e : Event}

/-- The blocks that the network worker is about to treat were received. -/
theorem lock_of_step (hstep : n.step e = some n') : ∀ b ∈ n'.lock.blocks,
    b ∈ n.lock.blocks ∨ b ∈ n.orphanBuffer ∨ b ∈ e.blocks := by
  intro b hb
  have hc := Node.core_step hstep
  have hb' : b ∈ n'.core.lock.blocks := hb
  have hlock : ∀ {lock}, n.core.lock = lock → b ∈ lock.blocks → b ∈ n.lock.blocks := by
    rintro _ rfl h
    exact h
  have hat : ∀ {block parent lock}, AtHand n.core block parent lock → b ∈ lock.blocks →
      b ∈ n.lock.blocks ∨ b ∈ n.orphanBuffer := by
    intro block parent lock hat hmem
    cases hat with
    | direct hl _ _ =>
        refine Or.inl (hlock hl ?_)
        simpa [ChainLock.blocks] using hmem
    | orphan hl hf =>
        simp only [ChainLock.blocks, List.mem_cons] at hmem
        rcases hmem with rfl | rfl | hmem
        · exact Or.inl (hlock hl (List.mem_cons_self ..))
        · exact Or.inr (mem_of_findChild hf).1
        · exact Or.inl (hlock hl (List.mem_cons_of_mem _ (List.mem_cons_of_mem _ hmem)))
  generalize n'.core = c' at hc hb'
  cases hc with
  | other | pcMove _ | readTip _ _ _ _ | mined _ _ _ _ _ _ | insertMined _ _ _ => exact Or.inl hb'
  | panic _ _ | halfAttach _ _ _ _ => exact absurd hb' List.not_mem_nil
  | take _ => exact Or.inr (Or.inr hb')
  | skip hl =>
      rcases hl with ⟨hs, -, rfl⟩ | ⟨block, rest, hs, hl, rfl, -⟩
      · exact absurd hb' List.not_mem_nil
      · exact Or.inl (hlock hl (List.mem_cons_of_mem _ hb'))
  | genesis hl _ _ _ => exact Or.inl (hlock hl (List.mem_cons_of_mem _ hb'))
  | park hl _ _ _ => exact Or.inl (hlock hl (List.mem_cons_of_mem _ hb'))
  | reject h _ => exact (hat h hb').imp id Or.inl
  | attach h _ _ _ _ => exact (hat h hb').imp id Or.inl
  | cleanup hl _ hremove =>
      rcases hremove with ⟨-, rfl⟩ | ⟨-, rfl⟩
      · exact Or.inl (hlock hl (List.mem_cons_of_mem _ (List.mem_cons_of_mem _ hb')))
      · exact absurd hb' List.not_mem_nil

/-- **The step lemma for the blocks that a node holds**: it is enough that the blocks of a message
and a mined one have the property. -/
theorem holdsBlock_step {P : Block → Prop} (hP : ∀ b length, P b → P { b with length := length })
    (h : ∀ b, n.HoldsBlock b → P b) (hreceived : ∀ b ∈ e.blocks, P b)
    (hmined : ∀ b ∈ n.mined e, P b) (hstep : n.step e = some n') : ∀ b, n'.HoldsBlock b → P b := by
  rintro b (hb | hb)
  · refine has_step hP (fun b hb => h b (Or.inl hb)) ?_ hmined hstep b hb
    intro block rest hs _ hlock _
    refine h block (Or.inr ?_)
    rw [hlock]
    exact List.mem_cons_self ..
  · rcases lock_of_step hstep b hb with hb | hb | hb
    · exact h b (Or.inr hb)
    · exact h b (Or.inl (Or.inr (Or.inr (Or.inr hb))))
    · exact hreceived b hb

/-- **The step lemma for the transactions that a node holds.** -/
theorem holds_step {P : SignedTransaction → Prop} (h : ∀ tx, n.Holds tx → P tx)
    (hreceived : ∀ m ∈ e.received, ∀ tx ∈ m.carriedTransactions, P tx) (hstep : n.step e = some n') :
    ∀ tx, n'.Holds tx → P tx := by
  rintro tx (⟨k, hk⟩ | ⟨b, hb, htx⟩)
  · rcases lookup_mempool_step hstep hk with hk | ⟨txs, rfl, htx, -⟩
    · exact h tx (Or.inl ⟨k, hk⟩)
    · exact hreceived _ rfl tx htx
  · refine holdsBlock_step (P := fun b => ∀ tx ∈ b.data, P tx) (fun b length hb => hb) ?_ ?_ ?_ hstep
      b hb tx htx
    · exact fun b hb tx htx => h tx (Or.inr ⟨b, hb, htx⟩)
    · intro b hb tx htx
      obtain ⟨m, hm, hbm⟩ := Event.mem_blocks hb
      refine hreceived m hm tx ?_
      cases m with
      | blocks bs => exact List.mem_flatMap.2 ⟨b, hbm, htx⟩
      | _ => exact absurd hbm List.not_mem_nil
    · intro b hb tx htx
      exact h tx (Or.inl (exists_lookup_of_mined hb htx))

/-- The blocks of a message that a step sends are blocks that the node has. -/
theorem has_of_sends {m : Message} {b : Block} (h : Sends n e m) (hb : b ∈ m.carried) : n.Has b := by
  cases h with
  | serveBlocks hashes =>
      obtain ⟨k, -, hk⟩ := List.mem_filterMap.1 hb
      exact Or.inl ⟨k, hk⟩
  | minedBlock hchan =>
      rw [List.mem_singleton.1 hb, Node.Has, hchan]
      exact Or.inr (Or.inl (List.mem_cons_self ..))
  | _ => exact absurd hb List.not_mem_nil

/-- The transactions of a message that a step sends are transactions that the node has, or the one
that the generator makes. -/
theorem holds_of_sends {m : Message} {tx : SignedTransaction} (h : Sends n e m)
    (htx : tx ∈ m.carriedTransactions) :
    n.Holds tx ∨ n.generated e = some tx ∧ FromGenerator tx := by
  cases m with
  | transactions txs => exact (transactions_of_sends h tx htx).imp Or.inl id
  | blocks bs =>
      obtain ⟨b, hb, htx⟩ := List.mem_flatMap.1 htx
      exact Or.inl (Or.inr ⟨b, Or.inl (has_of_sends h hb), htx⟩)
  | _ => exact absurd htx List.not_mem_nil

end

/-- The transactions of a block whose state is computed are transactions that the node has. -/
theorem holds_of_computed {n : Node} {e : Event} {b : Block} {p : State}
    (h : n.computed e = some (b, p)) {tx : SignedTransaction} (htx : tx ∈ b.data) : n.Holds tx := by
  rcases Node.attached_or_mined_of_computed h with hb | hb
  · obtain ⟨-, parent, lock, hat, -⟩ := Node.attached_iff.1 hb
    refine Or.inr ⟨b, ?_, htx⟩
    cases hat with
    | direct hlock _ _ =>
        have hlock' : n.lock = _ := hlock
        refine Or.inr ?_
        rw [hlock']
        exact List.mem_cons_self ..
    | orphan _ hf => exact Or.inl (Or.inr (Or.inr (Or.inr (mem_of_findChild hf).1)))
  · exact Or.inl (exists_lookup_of_mined hb htx)

omit [Crypto] in
/-- The accounts of a computed state are those of the parent state and of the transactions. -/
theorem mem_of_executeTx {p s : State} {l v : List SignedTransaction} {P : Address → Prop}
    (h : executeTx p l = some (s, v)) (hp : ∀ a ∈ p, P a)
    (hl : ∀ tx ∈ l, P tx.transaction.sender ∧ P tx.transaction.receiver) : ∀ a ∈ s, P a := by
  intro a ha
  obtain ⟨entry, hentry⟩ := Finmap.mem_iff.1 ha
  obtain ⟨-, hv, -⟩ := executeTx_eq_some_iff.1 h
  have hlookup := lookup_executeTx h a
  rw [hentry] at hlookup
  cases hlast : lastTouch v a with
  | none =>
      rw [hlast] at hlookup
      exact hp a (Finmap.mem_of_lookup_eq_some hlookup.symm)
  | some tx =>
      obtain ⟨hmem, htouches⟩ := lastTouch_mem hlast
      rw [hv] at hmem
      obtain ⟨hsender, hreceiver⟩ := hl tx (List.mem_of_mem_filter hmem)
      rcases touches_iff.1 htouches with rfl | rfl
      · exact hsender
      · exact hreceiver

/-- The account of the initial offering is one of the ten of the generator. -/
theorem forall_mem_icoState : ∀ a ∈ icoState, GeneratorAccount a := by
  intro a ha
  rcases Finmap.mem_insert.1 ha with rfl | ha
  · exact ⟨0, by decide, rfl⟩
  · exact absurd ha Finmap.notMem_empty

/-! ### Networks of honest nodes -/

namespace Network

variable {ι : Type} [Fintype ι]

/-- A step of the run has generated the transaction. -/
def Generated (tr : List (Network ι × (ι × Event))) (tx : SignedTransaction) : Prop :=
  (∃ x ∈ tr, (x.1 x.2.1).generated x.2.2 = some tx) ∧ FromGenerator tx

/-- The block is the genesis block of a node, up to its length. -/
def IsGenesis (gs : ι → GenesisDraw) (b : Block) : Prop :=
  ∃ i, b.header = (gs i).block.header ∧ b.data = []

/-- A step of the run has mined the block, up to its length. -/
def Mined (tr : List (Network ι × (ι × Event))) (b : Block) : Prop :=
  ∃ x ∈ tr, ∃ c ∈ (x.1 x.2.1).mined x.2.2, b.header = c.header ∧ b.data = c.data

/-- What holds of a block in a network of honest nodes: it has the fixed difficulty, and it is a
genesis block or was mined. -/
structure HonestBlock (gs : ι → GenesisDraw) (tr : List (Network ι × (ι × Event))) (b : Block) :
    Prop where
  difficulty : b.getDifficulty = fixedDifficulty
  origin : IsGenesis gs b ∨ Mined tr b ∧ WellMined b

omit [Fintype ι] in
/-- The length of the block does not matter. -/
theorem HonestBlock.setLength {gs : ι → GenesisDraw} {tr : List (Network ι × (ι × Event))}
    {b : Block} (h : HonestBlock gs tr b) (length : UInt32) :
    HonestBlock gs tr { b with length := length } where
  difficulty := h.difficulty
  origin := h.origin.imp id fun hmined => ⟨hmined.1, hmined.2.setLength length⟩

section

variable [DecidableEq ι] {gs : ι → GenesisDraw} {tr : List (Network ι × (ι × Event))}
  {N : Network ι}

/-- What a node has and what it has sent was made by a generator. -/
theorem generated_of_run (hrun : Network.Run (Network.init gs) tr N) (i : ι) :
    (∀ tx, (N i).Holds tx → Generated tr tx) ∧
      ∀ m ∈ (N i).server, ∀ tx ∈ m.carriedTransactions, Generated tr tx := by
  refine Lts.guarantee Event.received (fun n : Node => n.server)
    (I := fun n => ∀ tx, n.Holds tx → Generated tr tx)
    (P := fun m => ∀ tx ∈ m.carriedTransactions, Generated tr tx)
    (C := fun n e => ∀ tx, n.generated e = some tx → FromGenerator tx → Generated tr tx)
    (fun N e hd => hd) ?_ hrun ?_ ?_ ?_ i
  · intro n e n' hI hC hreceived hstep
    refine ⟨holds_step hI hreceived hstep, fun m hm => ?_⟩
    rcases Node.server_step hstep with heq | ⟨msg, hsends, heq⟩
    · rw [heq] at hm
      exact Or.inl hm
    · rw [heq] at hm
      refine (List.mem_append.1 hm).imp id fun hm tx htx => ?_
      rw [List.mem_singleton.1 hm] at htx
      rcases holds_of_sends hsends htx with htx | ⟨hgen, hfrom⟩
      · exact hI tx htx
      · exact hC tx hgen hfrom
  · -- a new node has its genesis block, which is empty
    rintro j tx (⟨k, hk⟩ | ⟨b, (⟨k, hb⟩ | hb | hb | hb) | hb, htx⟩)
    · exact absurd (Finmap.mem_of_lookup_eq_some hk) Finmap.notMem_empty
    · obtain ⟨-, rfl⟩ := Blockchain.getBlock_new_eq_some.1 hb
      exact absurd htx List.not_mem_nil
    all_goals exact absurd hb List.not_mem_nil
  · exact fun j m hm => absurd hm List.not_mem_nil
  · exact fun x hx tx hgen hfrom => ⟨⟨x, hx, hgen⟩, hfrom⟩

/-- The blocks that a node has and those that it has sent were mined by some node. -/
theorem honestBlock_of_run (hrun : Network.Run (Network.init gs) tr N) (i : ι) (b : Block)
    (hb : (N i).HoldsBlock b ∨ ∃ m ∈ (N i).server, b ∈ m.carried) : HonestBlock gs tr b := by
  have hall := Lts.guarantee Event.received (fun n : Node => n.server)
    (I := fun n => Screened n ∧ ∀ b, n.HoldsBlock b → HonestBlock gs tr b)
    (P := fun m => ∀ b ∈ m.carried, HonestBlock gs tr b)
    (C := fun n e => ∀ c ∈ n.mined e, Mined tr c) (fun N e hd => hd) ?_ hrun ?_ ?_ ?_ i
  · exact hb.elim (hall.1.2 b) fun ⟨m, hm, hbm⟩ => hall.2 m hm b hbm
  · rintro n e n' ⟨hscreened, hI⟩ hC hreceived hstep
    refine ⟨⟨screened_step hscreened hstep,
      holdsBlock_step (fun b length h => h.setLength length) hI ?_ ?_ hstep⟩, fun m hm => ?_⟩
    · intro b hb
      obtain ⟨m, hm, hbm⟩ := Event.mem_blocks hb
      exact hreceived m hm b hbm
    · -- the difficulty of a mined block is that of the tip
      intro b hb
      refine ⟨?_, Or.inr ⟨hC b hb, wellMined_of_mined hscreened hb hstep⟩⟩
      obtain ⟨draw, g, p, block, _, _, v, -, -, hpc, hblock, -, -, -, rfl⟩ := Node.mined_iff.1 hb
      have hpc' : n.miner.pc = .mining g p := hpc
      have hparent : n.HoldsBlock p := by
        refine Or.inl (Or.inr (Or.inr (Or.inl ?_)))
        rw [hpc']
        exact List.mem_cons_of_mem _ (List.mem_cons_self ..)
      rw [getDifficulty_mk, (MiningDraw.block_eq_some hblock).2.2]
      exact (hI p hparent).difficulty
    · rcases Node.server_step hstep with heq | ⟨msg, hsends, heq⟩
      · rw [heq] at hm
        exact Or.inl hm
      · rw [heq] at hm
        refine (List.mem_append.1 hm).imp id fun hm b hb => ?_
        rw [List.mem_singleton.1 hm] at hb
        exact hI b (Or.inl (has_of_sends hsends hb))
  · refine fun j => ⟨screened_init (gs j), ?_⟩
    rintro b ((⟨k, hb⟩ | hb | hb | hb) | hb)
    · obtain ⟨-, rfl⟩ := Blockchain.getBlock_new_eq_some.1 hb
      exact ⟨rfl, Or.inl ⟨j, rfl, rfl⟩⟩
    all_goals exact absurd hb List.not_mem_nil
  · exact fun j m hm => absurd hm List.not_mem_nil
  · exact fun x hx c hc => ⟨x, hx, c, hc, rfl, rfl⟩

/-- **Every transaction in a network of honest nodes was made by a generator** of the network: those
that the nodes have in their mempools and in their blocks, and those of the messages they have
sent. -/
theorem transactions_generated (hrun : Network.Run (Network.init gs) tr N) (i : ι) :
    (∀ tx, (N i).Holds tx → Generated tr tx) ∧
      ∀ m ∈ (N i).server, ∀ tx ∈ m.carriedTransactions, Generated tr tx :=
  generated_of_run hrun i

/-- **Every block in a network of honest nodes was mined by one of them**, or is the genesis block
of one: the blocks that the nodes have or are about to treat, and those of the messages they have
sent.  A mined block has the fixed difficulty, enough work for it, and at most 300 transactions, all
different and signed; and every transaction in a block was made by a generator. -/
theorem blocks_mined (hrun : Network.Run (Network.init gs) tr N) (i : ι) (b : Block)
    (hb : (N i).HoldsBlock b ∨ ∃ m ∈ (N i).server, b ∈ m.carried) :
    HonestBlock gs tr b ∧ ∀ tx ∈ b.data, Generated tr tx := by
  refine ⟨honestBlock_of_run hrun i b hb, fun tx htx => ?_⟩
  obtain ⟨hholds, hsent⟩ := generated_of_run hrun i
  rcases hb with hb | ⟨m, hm, hb⟩
  · exact hholds tx (Or.inr ⟨b, hb, htx⟩)
  · refine hsent m hm tx ?_
    cases m with
    | blocks bs => exact List.mem_flatMap.2 ⟨b, hb, htx⟩
    | _ => exact absurd hb List.not_mem_nil

/-- **The stored states are small**: in a network of honest nodes, none has an account but the ten of
the generator. -/
theorem states_bounded (hrun : Network.Run (Network.init gs) tr N) (i : ι) {h : H256} {s : State}
    (hs : (N i).blockchain.getBlockState h = some s) :
    (∀ a ∈ s, GeneratorAccount a) ∧ s.keys.card ≤ 10 := by
  have hall : ∀ a ∈ s, GeneratorAccount a := by
    induction hrun generalizing i h s with
    | nil =>
        obtain ⟨-, rfl⟩ := Blockchain.getBlockState_new_eq_some.1 hs
        exact forall_mem_icoState
    | @snoc tr M N x hrun hstep ih =>
        obtain ⟨-, n', hn', rfl⟩ := Lts.interleave_eq_some.1 hstep
        by_cases hi : i = x.1
        · subst hi
          rw [Function.update_self] at hs
          rcases Node.getBlockState_of_step hn' hs with hold | ⟨rfl, -⟩ | ⟨b, p, v, hb, -, hp, he⟩
          · exact ih x.1 hold
          · exact forall_mem_icoState
          · refine mem_of_executeTx he (ih x.1 hp) fun tx htx => ?_
            have hfrom := ((generated_of_run hrun x.1).1 tx (holds_of_computed hb htx)).2
            exact ⟨hfrom.sender, hfrom.receiver⟩
        · rw [Function.update_of_ne hi] at hs
          exact ih i hs
  refine ⟨hall, ?_⟩
  have hsub : s.keys ⊆ (Finset.range 10).image fun k =>
      Address.fromPublicKeyBytes (toBeBytes (UInt32.ofNat k)) := by
    intro a ha
    obtain ⟨k, hk, rfl⟩ := hall a (Finmap.mem_keys.1 ha)
    refine Finset.mem_image.2 ⟨k.toNat, Finset.mem_range.2 (UInt32.lt_iff_toNat_lt.1 hk), ?_⟩
    rw [UInt32.ofNat_toNat]
  exact (Finset.card_le_card hsub).trans Finset.card_image_le

end

omit [Crypto]

/-- The first node generates a payment and receives it back, mines a block with it, and sends the
block to the second node, after its genesis block. -/
def generateAndMine : List (Bool × Event) :=
  [(false, .generate [1] { randTx := 0, randRx := 1, value := 40, signature := [], publicKey := [] }),
    (false, .message (.transactions [sampleTransaction 0 1 1 40])), (false, .minerStart [1]),
    (false, .signal (.start 0)), (false, .minerTip [1]), (false, .minerControl []),
    (false, .minerTip [1]), (false, .minerControl []),
    (false, .mine { timestamp := 0, merkleRoot := 0, nonce := 2,
                    order := [letI := sampleCrypto; (sampleTransaction 0 1 1 40).hash] }),
    (false, .minerWorker), (false, .minerWorker),
    (true, .message (.blocks [sampleGenesis.block])), (true, .worker), (true, .worker),
    (true, .message (.blocks [sampleBlock 1 2 2 [sampleTransaction 0 1 1 40]])), (true, .worker),
    (true, .worker)]

/-- The genesis blocks of the two nodes. -/
def twoGenesis : Bool → GenesisDraw := fun i => if i then otherGenesis else sampleGenesis

/-- The second node stores the block with the payment. -/
theorem exists_generateAndMine :
    letI := sampleCrypto
    ∃ N, Network.Run (Network.init twoGenesis)
        (Lts.replayTrace Network.step (Network.init twoGenesis) generateAndMine) N ∧
      (N true).blockchain.getBlock 2 = some (sampleBlock 1 2 2 [sampleTransaction 0 1 1 40]) ∧
      ((N true).blockchain.getBlockState 2).isSome :=
  @Lts.exists_run_of_replay _ _ (@step sampleCrypto Bool _ _) generateAndMine
    (@init sampleCrypto Bool twoGenesis)
    (fun N => (N true).blockchain.getBlock 2 =
        some (sampleBlock 1 2 2 [sampleTransaction 0 1 1 40]) ∧
      ((N true).blockchain.getBlockState 2).isSome) (by decide +kernel)

/-- The payment is in the second node, and was generated by the first one. -/
theorem transactions_generated_payment :
    letI := sampleCrypto
    Generated (Lts.replayTrace Network.step (Network.init twoGenesis) generateAndMine)
      (sampleTransaction 0 1 1 40) := by
  obtain ⟨N, hrun, hb, -⟩ := exists_generateAndMine
  have hholds : @Node.Holds (N true) (sampleTransaction 0 1 1 40) :=
    Or.inr ⟨_, Or.inl (Or.inl ⟨2, hb⟩), List.mem_cons_self ..⟩
  exact (@transactions_generated sampleCrypto Bool _ _ _ _ _ hrun true).1 _ hholds

/-- The block of the second node was mined by the first one, which has generated the payment. -/
theorem blocks_mined_payment :
    letI := sampleCrypto
    let tr := Lts.replayTrace Network.step (Network.init twoGenesis) generateAndMine
    HonestBlock twoGenesis tr (sampleBlock 1 2 2 [sampleTransaction 0 1 1 40]) ∧
      ∀ tx ∈ (sampleBlock 1 2 2 [sampleTransaction 0 1 1 40]).data, Generated tr tx := by
  obtain ⟨N, hrun, hb, -⟩ := exists_generateAndMine
  exact @blocks_mined sampleCrypto Bool _ _ _ _ _ hrun true _ (Or.inl (Or.inl (Or.inl ⟨2, hb⟩)))

/-- The state after the payment. -/
theorem states_bounded_payment :
    letI := sampleCrypto
    ∃ N : Network Bool, ∃ s ∈ (N true).blockchain.getBlockState 2,
      (∀ a ∈ s, GeneratorAccount a) ∧ s.keys.card ≤ 10 := by
  obtain ⟨N, hrun, -, hsome⟩ := exists_generateAndMine
  obtain ⟨s, hs⟩ := Option.isSome_iff_exists.1 hsome
  exact ⟨N, s, hs, @states_bounded sampleCrypto Bool _ _ _ _ _ hrun true _ _ hs⟩

/-- The steps of the first node. -/
def generateAndMineAlone : List Event :=
  generateAndMine.filterMap fun x => if x.1 then none else some x.2

end Network

omit [Crypto] in
/-- The first node alone mines a block with the payment. -/
theorem mined_blocks_verified_payment :
    letI := sampleCrypto
    ∃ b, WellMined b ∧ b.data = [sampleTransaction 0 1 1 40] := by
  obtain ⟨n, hrun, -⟩ := @Lts.exists_run_of_replay _ _ (@Node.step sampleCrypto)
    Network.generateAndMineAlone (@Node.init sampleCrypto sampleGenesis) (fun _ => True)
    (by decide +kernel)
  have hmined : ∃ x ∈ Lts.replayTrace (@Node.step sampleCrypto)
      (@Node.init sampleCrypto sampleGenesis) Network.generateAndMineAlone,
      (@Node.mined sampleCrypto x.1 x.2).map Block.data = some [sampleTransaction 0 1 1 40] := by
    decide +kernel
  obtain ⟨x, hx, hdata⟩ := hmined
  obtain ⟨b, hb, hdata⟩ := Option.map_eq_some_iff.1 hdata
  exact ⟨b, (@mined_blocks_verified sampleCrypto _ _ _ hrun).2.1 x hx b hb, hdata⟩

end BitcoinClient
