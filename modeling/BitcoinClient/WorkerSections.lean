/-
**The sections of the network workers.**

The node can follow every act of a network worker.  A message about hashes or transactions is treated in one
section.  A message with blocks is a section of its own for the mutex of the store, in which the mempool and
the orphan buffer are locked and released again for each block; the node does all that concerns a block at
once, when its transactions leave the mempool, and each round of the search of the orphan buffer with the
worker.

Main definitions:

* `BitcoinClient.Ready` — what a thread finds when it acts;
* `BitcoinClient.Simulated` — the acts that the node can follow.

Main results:

* `BitcoinClient.WorkerStage.simulated_removing` — the node treats a block when its transactions leave the
  mempool;
* `BitcoinClient.WorkerStage.simulated` — **the node can follow every act of a network worker**.
-/

import BitcoinClient.AtomicSections

set_option relaxedAutoImplicit false
set_option autoImplicit false

namespace BitcoinClient

variable [Crypto]

open Locks

/-! ### What the treatment of a message adds -/

namespace Worker

omit [Crypto] in
theorem announce_eq (message : List H256 → Message) (hashes : List H256) :
    ∃ sent, ∀ w : Worker, w.announce message hashes = { w with server := w.server ++ sent } := by
  by_cases h : hashes.length > 0
  · exact ⟨[message hashes], fun w => by rw [announce, if_pos h]⟩
  · exact ⟨[], fun w => by rw [announce, if_neg h, List.append_nil]⟩

omit [Crypto] in
theorem newBlockHashesMessage_eq (c : Blockchain) (hashes : List H256) :
    ∃ sent, ∀ w : Worker, w.blockchain = c →
      w.newBlockHashesMessage hashes = { w with server := w.server ++ sent } := by
  obtain ⟨sent, hsent⟩ := announce_eq .getBlocks (hashes.filter fun hash => (c.getBlock hash).isNone)
  refine ⟨sent, fun w hw => ?_⟩
  rw [← hw] at hsent
  exact hsent w

omit [Crypto] in
theorem getBlocksMessage_eq (c : Blockchain) (hashes : List H256) :
    ∃ sent, ∀ w : Worker, w.blockchain = c →
      w.getBlocksMessage hashes = { w with server := w.server ++ sent } := by
  by_cases h : (hashes.filterMap fun hash => c.getBlock hash).length > 0
  · refine ⟨[.blocks (hashes.filterMap fun hash => c.getBlock hash)], fun w hw => ?_⟩
    rw [← hw] at h ⊢
    rw [getBlocksMessage, if_pos h]
  · refine ⟨[], fun w hw => ?_⟩
    rw [← hw] at h
    rw [getBlocksMessage, if_neg h, List.append_nil]

omit [Crypto] in
theorem newTransactionHashesMessage_eq (mempool : Mempool) (hashes : List H256) :
    ∃ sent, ∀ w : Worker, w.mempool = mempool →
      w.newTransactionHashesMessage hashes = { w with server := w.server ++ sent } := by
  obtain ⟨sent, hsent⟩ :=
    announce_eq .getTransactions (hashes.filter fun hash => (mempool.lookup hash).isNone)
  refine ⟨sent, fun w hw => ?_⟩
  rw [← hw] at hsent
  exact hsent w

omit [Crypto] in
theorem getTransactionsMessage_eq (mempool : Mempool) (hashes : List H256) :
    ∃ sent, ∀ w : Worker, w.mempool = mempool →
      w.getTransactionsMessage hashes = { w with server := w.server ++ sent } := by
  by_cases h : (hashes.filterMap fun hash => mempool.lookup hash).length > 0
  · refine ⟨[.transactions (hashes.filterMap fun hash => mempool.lookup hash)], fun w hw => ?_⟩
    rw [← hw] at h ⊢
    rw [getTransactionsMessage, if_pos h]
  · refine ⟨[], fun w hw => ?_⟩
    rw [← hw] at h
    rw [getTransactionsMessage, if_neg h, List.append_nil]

theorem onTransactions_eq : ∀ (txs : List SignedTransaction) (newHashes : List H256)
    (mempool : Mempool), ∃ mempool' newHashes', ∀ w : Worker, w.mempool = mempool →
      w.onTransactions txs newHashes = ({ w with mempool := mempool' }, newHashes') := by
  intro txs
  induction txs with
  | nil => exact fun newHashes mempool => ⟨mempool, newHashes, fun w hw => by rw [← hw]; rfl⟩
  | cons tx txs ih =>
      intro newHashes mempool
      cases hlookup : mempool.lookup tx.hash with
      | some _ =>
          obtain ⟨mempool', newHashes', hrest⟩ := ih newHashes mempool
          refine ⟨mempool', newHashes', fun w hw => ?_⟩
          rw [onTransactions, hw, hlookup]
          exact hrest w hw
      | none =>
          cases hvalid : checkTxValidity tx with
          | true =>
              obtain ⟨mempool', newHashes', hrest⟩ :=
                ih (newHashes ++ [tx.hash]) (mempool.insert tx.hash tx)
              refine ⟨mempool', newHashes', fun w hw => ?_⟩
              rw [onTransactions, hw, hlookup]
              dsimp only
              rw [if_pos hvalid]
              exact hrest { w with mempool := mempool.insert tx.hash tx } rfl
          | false =>
              obtain ⟨mempool', newHashes', hrest⟩ := ih newHashes mempool
              refine ⟨mempool', newHashes', fun w hw => ?_⟩
              rw [onTransactions, hw, hlookup]
              dsimp only
              rw [if_neg (by simp [hvalid])]
              exact hrest w hw

theorem transactionsMessage_eq (mempool : Mempool) (txs : List SignedTransaction) :
    ∃ mempool' sent, ∀ w : Worker, w.mempool = mempool →
      w.transactionsMessage txs = { w with mempool := mempool', server := w.server ++ sent } := by
  obtain ⟨mempool', newHashes, htxs⟩ := onTransactions_eq txs [] mempool
  obtain ⟨sent, hsent⟩ := announce_eq .newTransactionHashes newHashes
  refine ⟨mempool', sent, fun w hw => ?_⟩
  rw [transactionsMessage, htxs w hw]
  exact hsent _

end Worker

/-! ### What a thread finds when it acts -/

/-- **What a thread finds** when it has taken the mutex that it wants. -/
structure Ready (M : Message → Prop) (R R' : Node → Prop) (a : Stage) (d : Shared) (n : Node) : Prop where
  leads : Node.Leads M (a.mined d) R R'
  reaches : R n
  mempoolClean : n.mempoolPoisoned = false
  server : d.server ⊆ n.server
  store : .blockchain ∈ a.holding → a.Section d n
  mempool : .mempool ∈ a.holding → n.mempool = a.clears d.mempool
  inHand : a.InHand M R d n
  alive : d.controlChanClosed = false → n.miner.pc ≠ .stopped
  chan : (∃ s, a = .minerWorker s) → ∃ r, n.finishedBlockChan = a.received ++ d.finishedBlockChan ++ r

theorem Stage.mem_holding {stage : Stage} {m : Mutex} :
    m ∈ stage.holding ↔ m ∈ stage.held ∨ stage.wants = some m := by
  rw [holding, Program.holding, Finset.mem_union, Option.mem_toFinset]
  rfl

theorem Stage.section_of_free {stage : Stage} {d : Shared} {n : Node} (h : Stores d n .free)
    (hnot : .blockchain ∉ stage.held) : stage.Section d n := by
  cases stage with
  | networkWorker stage =>
      cases stage with
      | receive | lockFor | holding => exact h
      | _ => simp [held, WorkerStage.held] at hnot
  | _ => exact h

/-- The miner of the node has not stopped as long as that of the threads has not ended. -/
theorem MinerStage.ne_stopped {d : Shared} {n : Node} (stage : MinerStage) (h : stage.InHand d n) :
    n.miner.pc ≠ .stopped := by
  cases stage with
  | lockTip use | readTip use =>
      cases use with
      | first | head =>
          simp [show n.miner = _ from h]
      | update =>
          obtain ⟨lambda, parentBlock, -, hminer⟩ := h
          simp [hminer]
  | control | mining | finishing =>
      simp [show n.miner = _ from h]
  | lockMempool | lockBlockchain | executing =>
      simp [h.1]
  | stopped => exact h

theorem Threads.Simulates.ready {numWorker : ℕ} {M : Message → Prop} {R R' : Node → Prop}
    {S : Threads numWorker} {n : Node} {t : ThreadId numWorker} (h : Simulates M R S n)
    (hR : Node.Leads M ((S.pc t).mined S.shared) R R') (hreaches : R n) (howned : S.Owned Stage.held) (henters : threads.Enters S t) :
    Ready M R R' (S.pc t) S.shared n where
  leads := hR
  reaches := hreaches
  mempoolClean := h.mempoolClean
  server := h.server
  store hmem := by
    by_cases hheld : .blockchain ∈ (S.pc t).held
    · exact h.held t hheld
    · obtain ⟨hfree, hclean⟩ := henters _ ((Stage.mem_holding.1 hmem).resolve_left hheld)
      exact Stage.section_of_free (h.free hfree hclean) hheld
  mempool hmem := by
    rw [h.mempool]
    by_cases ht : t = .miner
    · rw [ht]
    · have hminer : .mempool ∉ (S.pc .miner).held :=
        fun hheld => howned.notMem_holding henters (Ne.symm ht) hheld hmem
      rw [Stage.clears_eq hminer, Stage.clears_of_ne (h.placed t) ht]
  inHand := h.inHand t
  alive hopen := by
    have hminer := h.inHand .miner
    have hplaced := h.placed .miner
    cases hpc : S.pc .miner with
    | miner stage =>
        rw [hpc] at hminer
        exact stage.ne_stopped hminer
    | dead =>
        rw [h.controlClosed.2 hpc] at hopen
        cases hopen
    | networkWorker | minerWorker | api =>
        rw [hpc] at hplaced
        exact hplaced.elim
  chan := by
    rintro ⟨s, hs⟩
    have hof := h.placed t
    rw [hs] at hof
    obtain rfl := hof.eq_minerWorker
    exact ⟨_, h.chan (by simp [hs])⟩

/-! ### Acts that the node can follow -/

/-- The node can follow the act of a thread. -/
inductive Simulated (M : Message → Prop) (R : Node → Prop) (a : Stage) (d : Shared) (n : Node) :
    Acts → Prop
  | blocked : Simulated M R a d n .blocked
  | go {d' : Shared} {b : Stage} (n' : Node) : LocalStep M R a d n b d' n' →
      Simulated M R a d n (.go d' b)
  | release {m : Mutex} {d' : Shared} {b : Stage} (n' : Node) : LocalStep M R a d n b d' n' →
      Simulated M R a d n (.release m d' b)
  | panic {d' : Shared} : LocalPanic a d n d' → Simulated M R a d n (.panic d')

theorem Simulated.of_moves {M : Message → Prop} {R : Node → Prop} {a b : Stage} {d d' : Shared}
    {n n' : Node} {act : Acts} (hact : act.Moves d' b) (h : LocalStep M R a d n b d' n') :
    Simulated M R a d n act := by
  obtain rfl | ⟨m, rfl⟩ := hact
  · exact .go n' h
  · exact .release n' h

section Steps

variable {M : Message → Prop} {R R' : Node → Prop} {d : Shared} {n : Node}

/-- Neither the store nor the mempool changes: the thread only goes on, or sends a message. -/
theorem LocalStep.sends {a b : Stage} {server sent : List Message} {started : Bool}
    (h : Ready M R R' a d n) (hkind : ∀ (k : ℕ) (t : ThreadId k), a.Of t → b.Of t) (halive : b ≠ .dead)
    (hreaches : R' { n with server := sent })
    (hfollows : .startedTxGen ∉ a.holding → Node.Follows M (a.mined d) n { n with server := sent })
    (hsent : n.server ⊆ sent) (hserver : server ⊆ sent)
    (hstore : .blockchain ∈ a.holding → b.Section d n)
    (hmempool : .mempool ∈ a.holding → n.mempool = b.clears d.mempool)
    (hheld : .mempool ∉ a.holding → .mempool ∉ b.held)
    (hinHand : b.InHand M R' { d with server := server, startedTxGen := started }
      { n with server := sent })
    (hchan : b.received = a.received ∧ b.finished = a.finished) :
    LocalStep M R' a d n b { d with server := server, startedTxGen := started }
      { n with server := sent } where
  kind := hkind
  mempoolClean := h.mempoolClean
  servers := hsent
  server := hserver
  reaches := hreaches
  follows := hfollows
  store := by
    have hframe : StoreFrame d n { d with server := server, startedTxGen := started }
        { n with server := sent } := ⟨rfl, rfl, rfl, rfl, rfl, hsent⟩
    by_cases hmem : .blockchain ∈ a.holding
    · exact Or.inl ⟨hmem, (hstore hmem).frame hframe⟩
    · exact Or.inr ⟨hmem, hframe⟩
  mempool := by
    by_cases hmem : .mempool ∈ a.holding
    · exact Or.inl ⟨hmem, hmempool hmem⟩
    · exact Or.inr ⟨hmem, rfl, rfl, hheld hmem⟩
  inHand := hinHand
  miner := Or.inr ⟨[], by rw [List.append_nil], by rw [List.append_nil]⟩
  closed := rfl
  controlClosed := Or.inl ⟨rfl, halive⟩
  chan l r _ _ := by
    rw [hchan.1, hchan.2]
    exact id

/-- The same, with a step of the node. -/
theorem LocalStep.quiet {a b : Stage} {server sent : List Message} {started : Bool}
    (h : Ready M R R' a d n) (hkind : ∀ (k : ℕ) (t : ThreadId k), a.Of t → b.Of t) (halive : b ≠ .dead)
    (hfollows : Node.Follows M (a.mined d) n { n with server := sent }) (hserver : server ⊆ sent)
    (hstore : .blockchain ∈ a.holding → b.Section d n)
    (hmempool : .mempool ∈ a.holding → n.mempool = b.clears d.mempool)
    (hheld : .mempool ∉ a.holding → .mempool ∉ b.held)
    (hinHand : b.InHand M R' { d with server := server, startedTxGen := started }
      { n with server := sent })
    (hchan : b.received = a.received ∧ b.finished = a.finished) :
    LocalStep M R' a d n b { d with server := server, startedTxGen := started }
      { n with server := sent } :=
  .sends h hkind halive (h.leads h.reaches hfollows) (fun _ => hfollows) hfollows.server_subset hserver
    hstore hmempool hheld hinHand hchan

/-- A panic that leaves everything as it was. -/
theorem LocalPanic.same {a : Stage} (h : Ready M R R' a d n) (hclears : a.clears d.mempool = d.mempool)
    (hfinished : a.finished = []) (hmined : a.mined d = none) : LocalPanic a d n d where
  mined := hmined
  server := h.server
  store := Or.inr ⟨rfl, rfl⟩
  mempool := hclears.symm
  controlChan := rfl
  closed := rfl
  controlClosed := rfl
  chan := ⟨rfl, Or.inl hfinished⟩

end Steps

/-! ### The network workers -/

namespace WorkerStage

variable {M : Message → Prop} {R R' : Node → Prop} {d : Shared} {n : Node} {a b : WorkerStage}

omit [Crypto] in
theorem kind (k : ℕ) (t : ThreadId k) (h : (Stage.networkWorker a).Of t) :
    (Stage.networkWorker b).Of t := by
  cases t <;> exact h

/-- A worker changes what the workers share, and the node the same and its lock. -/
theorem localStep {w v : Worker} {l : ChainLock} (h : Ready M R R' (.networkWorker a) d n)
    (hfollows : Node.Follows M none n { n with toWorker := v, lock := l })
    (hserver : w.server ⊆ v.server)
    (hstore : .blockchain ∈ (Stage.networkWorker a).holding ∧
        b.Section { d with toWorker := w } { n with toWorker := v, lock := l } ∨
      .blockchain ∉ (Stage.networkWorker a).holding ∧
        StoreFrame d n { d with toWorker := w } { n with toWorker := v, lock := l })
    (hmempool : .mempool ∈ (Stage.networkWorker a).holding ∧ v.mempool = w.mempool ∨
      .mempool ∉ (Stage.networkWorker a).holding ∧ w.mempool = d.mempool ∧
        v.mempool = n.mempool ∧ .mempool ∉ b.held)
    (hinHand : (Stage.networkWorker b).InHand M R' { d with toWorker := w }
      { n with toWorker := v, lock := l }) :
    LocalStep M R' (.networkWorker a) d n (.networkWorker b) { d with toWorker := w }
      { n with toWorker := v, lock := l } where
  kind := kind
  mempoolClean := h.mempoolClean
  servers := hfollows.server_subset
  server := hserver
  reaches := h.leads h.reaches hfollows
  follows _ := hfollows
  store := hstore
  mempool := hmempool
  inHand := hinHand
  miner := Or.inr ⟨[], by rw [List.append_nil], by rw [List.append_nil]⟩
  closed := rfl
  controlClosed := Or.inl ⟨rfl, ne_dead _⟩
  chan _ _ _ _ := id

/-- A computation of a worker on the store, which the node has done before or does now. -/
theorem simulated_afterwards {α : Type} {x : Worker → Exec Worker α} {lock : α → ChainLock}
    {act : Shared → Acts} {v : Worker} {l : ChainLock} (hx : StoreOnly x)
    (h : Ready M R R' (.networkWorker a) d n)
    (hmem : .blockchain ∈ (Stage.networkWorker a).holding)
    (hnot : .mempool ∉ (Stage.networkWorker a).holding)
    (hfollows : Node.Follows M none n { n with toWorker := v, lock := l }) (hv : v.mempool = n.mempool)
    (hahead : Ahead { n with toWorker := v, lock := l } (x d.toWorker.bare) lock)
    (hact : ∀ d', (act d').Moves d' (.networkWorker b))
    (hb : ∀ d' n' u, Stores d' n' (lock u) → b.Section d' n') (hheld : .mempool ∉ b.held)
    (hinHand : ∀ d' n', (Stage.networkWorker b).InHand M R' d' n') :
    Simulated M R' (.networkWorker a) d n (d.afterwards (x d.toWorker) act) := by
  unfold Shared.afterwards
  cases hxd : x d.toWorker with
  | done w y =>
      obtain ⟨u, hu, rfl⟩ := hx.eq_done hxd
      obtain ⟨hchain, horphans, hserver, hlock⟩ := hahead u y hu
      have hsection := hb { d with toWorker := { u with mempool := d.mempool, server := d.server ++ u.server } }
        { n with toWorker := v, lock := l } y ⟨hchain, horphans, hlock⟩
      refine .of_moves (hact _) (localStep h hfollows ?_ (Or.inl ⟨hmem, hsection⟩)
        (Or.inr ⟨hnot, rfl, hv, hheld⟩) (hinHand _ _))
      exact List.append_subset.2 ⟨List.Subset.trans h.server hfollows.server_subset, hserver⟩
  | panicked w =>
      obtain ⟨hmempool, hserver⟩ := hx.eq_panicked hxd
      refine .panic ⟨rfl, ?_, Or.inl hmem, hmempool, rfl, rfl, rfl, rfl, Or.inl rfl⟩
      change w.server ⊆ n.server
      rw [hserver]
      exact h.server
  | looping w => exact .blocked

/-- A worker goes on, and nothing changes. -/
theorem stay (h : Ready M R R' (.networkWorker a) d n)
    (hstore : .blockchain ∈ (Stage.networkWorker a).holding → b.Section d n)
    (hheld : .mempool ∉ (Stage.networkWorker a).holding → .mempool ∉ b.held)
    (hinHand : (Stage.networkWorker b).InHand M R' d n) :
    LocalStep M R' (.networkWorker a) d n (.networkWorker b) d n := by
  refine .quiet h kind (ne_dead _) .stay h.server hstore h.mempool hheld ?_ ⟨rfl, rfl⟩
  cases b <;> exact hinHand

/-- A worker sends messages. -/
theorem tells (sent : List Message) {m : Message} (h : Ready M R R' (.networkWorker a) d n)
    (hstep : n.step (.message m) = some { n with server := n.server ++ sent }) (hm : M m)
    (hstore : .blockchain ∈ (Stage.networkWorker a).holding → b.Section d n)
    (hheld : .mempool ∉ (Stage.networkWorker a).holding → .mempool ∉ b.held)
    (hinHand : (Stage.networkWorker b).InHand M R' d n) :
    LocalStep M R' (.networkWorker a) d n (.networkWorker b)
      { d with server := d.server ++ sent } { n with server := n.server ++ sent } := by
  refine .quiet h kind (ne_dead _) (.of_step hstep ?_ rfl) ?_ hstore h.mempool hheld ?_ ⟨rfl, rfl⟩
  · rintro _ ⟨⟩
    exact hm
  · exact List.append_subset.2 ⟨List.subset_append_of_subset_left _ h.server,
      List.subset_append_right _ _⟩
  · cases b <;> exact hinHand

omit [Crypto] in
/-- The node after a computation on the store. -/
theorem ahead_resume {α : Type} {x : Worker → Exec Worker α} (hx : StoreOnly x)
    (lock : α → ChainLock) {w : Worker} (hbare : w.bare = d.toWorker.bare) :
    ∃ v l, n.resume (x w) lock = { n with toWorker := v, lock := l } ∧ v.mempool = w.mempool ∧
      Ahead { n with toWorker := v, lock := l } (x d.toWorker.bare) lock := by
  rw [hx.eq_lift w, hbare]
  cases hu : x d.toWorker.bare with
  | done u y =>
      refine ⟨_, _, rfl, rfl, fun u' y' h => ?_⟩
      cases h
      exact ⟨rfl, rfl, List.subset_append_right _ _, rfl⟩
  | panicked u | looping u => exact ⟨_, _, rfl, rfl, fun _ _ h => by cases h⟩

theorem simulated_receive {e : Draw} (h : Ready M R R' (.networkWorker .receive) d n)
    (hM : ∀ m, e = .message m → M m) :
    Simulated M R' (.networkWorker .receive) d n (receive.next e d) := by
  have hnot : .blockchain ∉ (Stage.networkWorker .receive).holding := by
    simp [Stage.mem_holding, Stage.held, held, Stage.wants, wants]
  cases e with
  | message m =>
      have hm := hM m rfl
      cases m with
      | ping nonce =>
          exact .go _ (tells [.pong nonce] h rfl hm (fun hmem => absurd hmem hnot)
            (fun _ => Finset.notMem_empty _) trivial)
      | pong nonce =>
          exact .go _ (stay h (fun hmem => absurd hmem hnot) (fun _ => Finset.notMem_empty _) trivial)
      | _ =>
          exact .go _ (stay h (fun hmem => absurd hmem hnot) (fun _ => Finset.notMem_empty _) hm)
  | malformed => exact .panic (.same h rfl rfl rfl)
  | _ => exact .blocked

theorem simulated_lockFor {m : Message} {e : Draw} (h : Ready M R R' (.networkWorker (.lockFor m)) d n) :
    Simulated M R' (.networkWorker (.lockFor m)) d n ((lockFor m).next e d) := by
  have hm : M m := h.inHand
  have hstore : m.mutex = some .blockchain → Stores d n .free :=
    fun hmutex => h.store (Stage.mem_holding.2 (Or.inr hmutex))
  cases m with
  | ping nonce | pong nonce => exact .blocked
  | newBlockHashes hashes | getBlocks hashes =>
      refine .go _ (stay h (fun _ => hstore rfl) (fun _ => ?_) hm)
      simp [held, Message.mutex]
  | blocks received =>
      obtain ⟨hchain, horphans, hlock⟩ := hstore rfl
      have hstep : n.step (.message (.blocks received)) =
          some { n with toWorker := n.toWorker, lock := .held received [] } := if_pos hlock
      refine .go _ (localStep (w := d.toWorker) h (.of_step hstep ?_ rfl) h.server ?_ ?_ trivial)
      · rintro _ ⟨⟩
        exact hm
      · exact Or.inl ⟨Stage.mem_holding.2 (Or.inr rfl), hchain, horphans, rfl⟩
      · refine Or.inr ⟨?_, rfl, rfl, ?_⟩
        · simp [Stage.mem_holding, Stage.held, held, Stage.wants, wants, Message.mutex]
        · simp [held]
  | newTransactionHashes hashes | getTransactions hashes | transactions txs =>
      refine .go _ (stay h (fun hmem => absurd hmem ?_) (fun hmem => absurd ?_ hmem) hm)
      · simp [Stage.mem_holding, Stage.held, held, Stage.wants, wants, Message.mutex]
      · exact Stage.mem_holding.2 (Or.inr rfl)

theorem simulated_holding {m : Message} {e : Draw} (h : Ready M R R' (.networkWorker (.holding m)) d n) :
    Simulated M R' (.networkWorker (.holding m)) d n ((holding m).next e d) := by
  have hm : M m := h.inHand
  have hheld : ∀ {mutex}, m.mutex = some mutex → mutex ∈ (Stage.networkWorker (.holding m)).holding := by
    intro mutex hmutex
    refine Stage.mem_holding.2 (Or.inl ?_)
    rw [Stage.held, held, hmutex]
    exact Finset.mem_singleton_self _
  have hstore : m.mutex = some .blockchain → Stores d n .free := fun hmutex => h.store (hheld hmutex)
  have hmempool : m.mutex = some .mempool → n.mempool = d.mempool := fun hmutex => h.mempool (hheld hmutex)
  have hreceive : Mutex.mempool ∉ receive.held := Finset.notMem_empty _
  have hclean : ¬ n.mempoolPoisoned = true := by simp [h.mempoolClean]
  have hnot : m.mutex = some .mempool → .blockchain ∉ (Stage.networkWorker (.holding m)).holding := by
    intro hmutex
    simp [Stage.mem_holding, Stage.held, held, Stage.wants, wants, hmutex]
  cases m with
  | ping nonce | pong nonce | blocks received => exact .blocked
  | newBlockHashes hashes =>
      obtain ⟨hchain, horphans, hlock⟩ := hstore rfl
      obtain ⟨sent, hsent⟩ := Worker.newBlockHashesMessage_eq d.blockchain hashes
      have hstep : n.step (.message (.newBlockHashes hashes)) =
          some { n with server := n.server ++ sent } := by
        rw [Node.step, Node.messageStep, if_pos hlock, hsent _ hchain]
      have hlocal := tells (b := receive) sent h hstep hm (fun _ => ⟨hchain, horphans, hlock⟩)
        (fun _ => hreceive) trivial
      rw [next, hsent _ rfl]
      exact .release _ hlocal
  | getBlocks hashes =>
      obtain ⟨hchain, horphans, hlock⟩ := hstore rfl
      obtain ⟨sent, hsent⟩ := Worker.getBlocksMessage_eq d.blockchain hashes
      have hstep : n.step (.message (.getBlocks hashes)) =
          some { n with server := n.server ++ sent } := by
        rw [Node.step, Node.messageStep, if_pos hlock, hsent _ hchain]
      have hlocal := tells (b := receive) sent h hstep hm (fun _ => ⟨hchain, horphans, hlock⟩)
        (fun _ => hreceive) trivial
      rw [next, hsent _ rfl]
      exact .release _ hlocal
  | newTransactionHashes hashes =>
      obtain ⟨sent, hsent⟩ := Worker.newTransactionHashesMessage_eq d.mempool hashes
      have hstep : n.step (.message (.newTransactionHashes hashes)) =
          some { n with server := n.server ++ sent } := by
        rw [Node.step, Node.messageStep, if_neg hclean, hsent _ (hmempool rfl)]
      have hlocal := tells (b := receive) sent h hstep hm (fun hmem => absurd hmem (hnot rfl))
        (fun _ => hreceive) trivial
      rw [next, hsent _ rfl]
      exact .release _ hlocal
  | getTransactions hashes =>
      obtain ⟨sent, hsent⟩ := Worker.getTransactionsMessage_eq d.mempool hashes
      have hstep : n.step (.message (.getTransactions hashes)) =
          some { n with server := n.server ++ sent } := by
        rw [Node.step, Node.messageStep, if_neg hclean, hsent _ (hmempool rfl)]
      have hlocal := tells (b := receive) sent h hstep hm (fun hmem => absurd hmem (hnot rfl))
        (fun _ => hreceive) trivial
      rw [next, hsent _ rfl]
      exact .release _ hlocal
  | transactions txs =>
      obtain ⟨mempool', sent, hsent⟩ := Worker.transactionsMessage_eq d.mempool txs
      have hstep : n.step (.message (.transactions txs)) =
          some { n with toWorker := { n.toWorker with mempool := mempool',
                                                      server := n.server ++ sent } } := by
        rw [Node.step, Node.messageStep, if_neg hclean, hsent _ (hmempool rfl)]
      have hfollows := Node.Follows.of_step (M := M) hstep (by rintro _ ⟨⟩; exact hm) rfl
      rw [next, hsent _ rfl]
      refine .release _ (localStep (b := receive) (l := n.lock) h hfollows ?_
        (Or.inr ⟨hnot rfl, rfl, rfl, rfl, rfl, rfl, hfollows.server_subset⟩)
        (Or.inl ⟨hheld rfl, rfl⟩) trivial)
      exact List.append_subset.2 ⟨List.subset_append_of_subset_left _ h.server,
        List.subset_append_right _ _⟩

section Loop

variable {block newBlockInserted : Block} {idxToDelete : List ℕ} {rest : List Block}
  {newHashes : List H256} {e : Draw}

theorem simulated_blocks (h : Ready M R R' (.networkWorker (.blocks rest newHashes)) d n) :
    Simulated M R' (.networkWorker (.blocks rest newHashes)) d n ((blocks rest newHashes).next e d) := by
  have hmem : .blockchain ∈ (Stage.networkWorker (.blocks rest newHashes)).holding := by
    simp [Stage.mem_holding, Stage.held, held]
  have hnot : .mempool ∉ (Stage.networkWorker (.blocks rest newHashes)).holding := by
    simp [Stage.mem_holding, Stage.held, held, Stage.wants, wants]
  obtain ⟨hchain, horphans, hlock⟩ : Stores d n (.held rest newHashes) := h.store hmem
  cases rest with
  | nil =>
      obtain ⟨sent, hsent⟩ := Worker.announce_eq .newBlockHashes newHashes
      have hstep : n.step .worker =
          some { n with toWorker := { n.toWorker with server := n.server ++ sent },
                        lock := .free } := by
        simp only [Node.step, Node.workerStep, hlock, hsent]
      rw [next, hsent]
      refine .release _ (localStep (b := receive) h (.of_step hstep (by simp) rfl) ?_
        (Or.inl ⟨hmem, hchain, horphans, rfl⟩)
        (Or.inr ⟨hnot, rfl, rfl, Finset.notMem_empty _⟩) trivial)
      exact List.append_subset.2 ⟨List.subset_append_of_subset_left _ h.server,
        List.subset_append_right _ _⟩
  | cons block rest =>
      rw [next]
      cases hget : d.blockchain.getBlock block.hash with
      | some stored =>
          have hstep : n.step .worker =
              some { n with toWorker := n.toWorker, lock := .held rest newHashes } := by
            simp only [Node.step, Node.workerStep, hlock, hchain, hget]
          exact .go _ (localStep (w := d.toWorker) h (.of_step hstep (by simp) rfl) h.server
            (Or.inl ⟨hmem, hchain, horphans, rfl⟩)
            (Or.inr ⟨hnot, rfl, rfl, by simp [held]⟩) trivial)
      | none =>
          exact .go _ (stay h (fun _ => ⟨⟨hchain, horphans, hlock⟩, hget⟩)
            (fun _ => by simp [held]) trivial)

theorem simulated_lockMempool (h : Ready M R R' (.networkWorker (.lockMempool block rest newHashes)) d n) :
    Simulated M R' (.networkWorker (.lockMempool block rest newHashes)) d n
      ((lockMempool block rest newHashes).next e d) := by
  refine .go _ (stay h (fun hmem => h.store hmem) (fun hnot => absurd ?_ hnot) trivial)
  exact Stage.mem_holding.2 (Or.inr rfl)

/-- The node does the whole treatment of a block when its transactions leave the mempool. -/
theorem simulated_removing (h : Ready M R R' (.networkWorker (.removing block rest newHashes)) d n) :
    Simulated M R' (.networkWorker (.removing block rest newHashes)) d n
      ((removing block rest newHashes).next e d) := by
  have hmem : .blockchain ∈ (Stage.networkWorker (.removing block rest newHashes)).holding := by
    simp [Stage.mem_holding, Stage.held, held]
  have hmem' : .mempool ∈ (Stage.networkWorker (.removing block rest newHashes)).holding := by
    simp [Stage.mem_holding, Stage.held, held]
  obtain ⟨⟨hchain, horphans, hlock⟩, hget⟩ := h.store hmem
  have hmempool : n.mempool = d.mempool := h.mempool hmem'
  have hbare : (n.toWorker.removeFromMempool block).bare = d.toWorker.bare := by
    simp only [Worker.bare, Worker.removeFromMempool, hchain, horphans]
  -- the node steps to a state that is ahead of the thread
  obtain ⟨v, l, hstep, hv, hahead⟩ : ∃ v l, n.step .worker =
      some { n with toWorker := v, lock := l } ∧
      v.mempool = (n.toWorker.removeFromMempool block).mempool ∧
      AheadOfBlock d { n with toWorker := v, lock := l } block rest newHashes
        (d.blockchain.getParentBlock block) := by
    have hparent : (n.toWorker.removeFromMempool block).blockchain.getParentBlock block =
        d.blockchain.getParentBlock block := by
      rw [← hchain]
      rfl
    cases hp : d.blockchain.getParentBlock block with
    | none =>
        obtain ⟨v, l, hn, hv, hahead⟩ := ahead_resume (n := n)
          (storeOnly_handleWithoutParent block)
          (fun _ => ChainLock.held rest (newHashes ++ [block.hash])) hbare
        refine ⟨v, l, ?_, hv, hahead⟩
        rw [← hn]
        simp only [Node.step, Node.workerStep, hlock, hchain, hget, h.mempoolClean, hparent, hp,
          Bool.false_eq_true, if_false]
    | some parentBlock =>
        obtain ⟨v, l, hn, hv, hahead⟩ := ahead_resume (n := n)
          (storeOnly_attachIfValid block parentBlock)
          (fun _ => ChainLock.searching block block [] rest newHashes) hbare
        refine ⟨v, l, ?_, hv, hahead⟩
        rw [← hn]
        simp only [Node.step, Node.workerStep, hlock, hchain, hget, h.mempoolClean, hparent, hp,
          Bool.false_eq_true, if_false]
  have hfollows := Node.Follows.of_step (M := M) hstep (by simp) rfl
  refine .release _ (localStep (b := parentOf block rest newHashes)
    (w := d.toWorker.removeFromMempool block) h hfollows
    (List.Subset.trans h.server hfollows.server_subset) (Or.inl ⟨hmem, hahead⟩)
    (Or.inl ⟨hmem', ?_⟩) trivial)
  rw [hv, Worker.removeFromMempool, Worker.removeFromMempool, hmempool]

theorem simulated_parentOf (h : Ready M R R' (.networkWorker (.parentOf block rest newHashes)) d n) :
    Simulated M R' (.networkWorker (.parentOf block rest newHashes)) d n
      ((parentOf block rest newHashes).next e d) := by
  have hmem : .blockchain ∈ (Stage.networkWorker (.parentOf block rest newHashes)).holding := by
    simp [Stage.mem_holding, Stage.held, held]
  have hnot : .mempool ∉ (Stage.networkWorker (.parentOf block rest newHashes)).holding := by
    simp [Stage.mem_holding, Stage.held, held, Stage.wants, wants]
  have hahead : AheadOfBlock d n block rest newHashes (d.blockchain.getParentBlock block) :=
    h.store hmem
  rw [next]
  cases hp : d.blockchain.getParentBlock block with
  | some parentBlock =>
      rw [hp] at hahead
      exact .go _ (stay h (fun _ => hahead) (fun _ => by simp [held]) trivial)
  | none =>
      rw [hp] at hahead
      dsimp only
      split
      · refine simulated_afterwards (b := blocks rest (newHashes ++ [block.hash]))
          (storeOnly_handleWithoutParent block) h hmem hnot .stay rfl hahead
          (fun _ => Or.inl rfl) (fun _ _ _ hstores => hstores) ?_ fun _ _ => trivial
        simp [held]
      · exact .go _ (stay h (fun _ => hahead) (fun _ => by simp [held]) trivial)

theorem simulated_lockOrphans {parentBlock : Option Block}
    (h : Ready M R R' (.networkWorker (.lockOrphans block parentBlock rest newHashes)) d n) :
    Simulated M R' (.networkWorker (.lockOrphans block parentBlock rest newHashes)) d n
      ((lockOrphans block parentBlock rest newHashes).next e d) := by
  have hmem : .blockchain ∈
      (Stage.networkWorker (.lockOrphans block parentBlock rest newHashes)).holding := by
    simp [Stage.mem_holding, Stage.held, held]
  have hahead : AheadOfBlock d n block rest newHashes parentBlock := h.store hmem
  cases parentBlock with
  | none => exact .go _ (stay h (fun _ => hahead) (fun _ => by simp [held]) trivial)
  | some parentBlock => exact .go _ (stay h (fun _ => hahead) (fun _ => by simp [held]) trivial)

theorem simulated_parking (h : Ready M R R' (.networkWorker (.parking block rest newHashes)) d n) :
    Simulated M R' (.networkWorker (.parking block rest newHashes)) d n
      ((parking block rest newHashes).next e d) := by
  have hmem : .blockchain ∈ (Stage.networkWorker (.parking block rest newHashes)).holding := by
    simp [Stage.mem_holding, Stage.held, held]
  have hahead : AheadOfBlock d n block rest newHashes none := h.store hmem
  refine simulated_afterwards (b := blocks rest (newHashes ++ [block.hash]))
    (storeOnly_handleWithoutParent block) h hmem ?_ .stay rfl hahead
    (fun _ => Or.inr ⟨.orphanBuffer, rfl⟩) (fun _ _ _ hstores => hstores) ?_ fun _ _ => trivial
  · simp [Stage.mem_holding, Stage.held, held, Stage.wants, wants]
  · simp [held]

theorem simulated_attaching {parentBlock : Block}
    (h : Ready M R R' (.networkWorker (.attaching block parentBlock rest newHashes)) d n) :
    Simulated M R' (.networkWorker (.attaching block parentBlock rest newHashes)) d n
      ((attaching block parentBlock rest newHashes).next e d) := by
  have hmem : .blockchain ∈
      (Stage.networkWorker (.attaching block parentBlock rest newHashes)).holding := by
    simp [Stage.mem_holding, Stage.held, held]
  have hahead : AheadOfBlock d n block rest newHashes (some parentBlock) := h.store hmem
  refine simulated_afterwards (b := searching block block [] rest newHashes)
    (storeOnly_attachIfValid block parentBlock) h hmem ?_ .stay rfl hahead
    (fun _ => Or.inl rfl) (fun _ _ _ hstores => hstores) ?_ fun _ _ => trivial
  · simp [Stage.mem_holding, Stage.held, held, Stage.wants, wants]
  · simp [held]

/-- Each round of the search of the orphan buffer is a step of the node. -/
theorem simulated_searching
    (h : Ready M R R' (.networkWorker (.searching block newBlockInserted idxToDelete rest newHashes)) d n) :
    Simulated M R' (.networkWorker (.searching block newBlockInserted idxToDelete rest newHashes)) d n
      ((searching block newBlockInserted idxToDelete rest newHashes).next e d) := by
  have hmem : .blockchain ∈ (Stage.networkWorker
      (.searching block newBlockInserted idxToDelete rest newHashes)).holding := by
    simp [Stage.mem_holding, Stage.held, held]
  have hnot : .mempool ∉ (Stage.networkWorker
      (.searching block newBlockInserted idxToDelete rest newHashes)).holding := by
    simp [Stage.mem_holding, Stage.held, held, Stage.wants, wants]
  obtain ⟨hchain, horphans, hlock⟩ :
      Stores d n (.searching block newBlockInserted idxToDelete rest newHashes) := h.store hmem
  have hbare : n.toWorker.bare = d.toWorker.bare := by
    simp only [Worker.bare, hchain, horphans]
  rw [next]
  cases hfind : findChild newBlockInserted.hash 0 d.orphanBuffer with
  | none =>
      obtain ⟨v, l, hn, hv, hahead⟩ := ahead_resume (n := n) (storeOnly_cleanup idxToDelete)
        (fun _ => ChainLock.held rest (newHashes ++ [block.hash])) hbare
      have hstep : n.step .worker = some { n with toWorker := v, lock := l } := by
        rw [← hn]
        simp only [Node.step, Node.workerStep, hlock, horphans, hfind]
      refine simulated_afterwards (b := blocks rest (newHashes ++ [block.hash]))
        (storeOnly_cleanup idxToDelete) h hmem hnot (.of_step hstep (by simp) rfl) hv hahead
        (fun _ => Or.inr ⟨.orphanBuffer, rfl⟩) (fun _ _ _ hstores => hstores) ?_ fun _ _ => trivial
      simp [held]
  | some found =>
      obtain ⟨idx, child⟩ := found
      obtain ⟨v, l, hn, hv, hahead⟩ := ahead_resume (n := n)
        (storeOnly_attachIfValid child newBlockInserted)
        (fun _ => ChainLock.searching block child (idxToDelete ++ [idx]) rest newHashes) hbare
      have hstep : n.step .worker = some { n with toWorker := v, lock := l } := by
        rw [← hn]
        simp only [Node.step, Node.workerStep, hlock, horphans, hfind]
      refine simulated_afterwards (b := searching block child (idxToDelete ++ [idx]) rest newHashes)
        (storeOnly_attachIfValid child newBlockInserted) h hmem hnot (.of_step hstep (by simp) rfl) hv hahead
        (fun _ => Or.inl rfl) (fun _ _ _ hstores => hstores) ?_ fun _ _ => trivial
      simp [held]

end Loop

/-- **The node can follow every act of a network worker.** -/
theorem simulated (e : Draw) (h : Ready M R R' (.networkWorker a) d n)
    (hM : a = .receive → ∀ m, e = .message m → M m) :
    Simulated M R' (.networkWorker a) d n (a.next e d) := by
  cases a with
  | receive => exact simulated_receive h (hM rfl)
  | lockFor m => exact simulated_lockFor h
  | holding m => exact simulated_holding h
  | blocks rest newHashes => exact simulated_blocks h
  | lockMempool block rest newHashes => exact simulated_lockMempool h
  | removing block rest newHashes => exact simulated_removing h
  | parentOf block rest newHashes => exact simulated_parentOf h
  | lockOrphans block parentBlock rest newHashes => exact simulated_lockOrphans h
  | parking block rest newHashes => exact simulated_parking h
  | attaching block parentBlock rest newHashes => exact simulated_attaching h
  | searching block newBlockInserted idxToDelete rest newHashes => exact simulated_searching h

end WorkerStage

end BitcoinClient
