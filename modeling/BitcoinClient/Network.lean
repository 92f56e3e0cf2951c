/-
**Agreement of the nodes of a network.**

The nodes run the same code and deliver to each other what they have sent.  A delivery takes any
message that some node has sent and hands it to any node, so that messages arrive in any order, late,
more than once or never.

The nodes agree on a hash because every block in the network is one of the *registered* blocks: the
genesis blocks of the nodes, and the blocks that were mined, each with the length that the miner gave
it.  A registered block that is not a genesis block has a registered parent of the length below, so
the length that a node computes when it inserts the block is the length it has already, and the state
that a node computes for it depends on the registered blocks below it only.

Main definitions:

* `BitcoinClient.Network.step`, `BitcoinClient.Network.Run` — a network and its runs;
* `BitcoinClient.Network.registry` — the genesis blocks and the blocks mined in a run;
* `BitcoinClient.Network.Assumptions` — what is assumed of the hash function and of the values drawn;
* `BitcoinClient.Network.Linked`, `BitcoinClient.Network.Sound` — the invariant of a network.

Main results:

* `BitcoinClient.Node.says_of_step` — the blocks that a step sends are stored or finished;
* `BitcoinClient.Network.sound_step`, `BitcoinClient.Network.sound_of_run` — the step and the run
  lemma;
* `BitcoinClient.Network.nodes_agree` — **two nodes agree on every block that both store**.
-/

import BitcoinClient.ExecutedStates

set_option relaxedAutoImplicit false
set_option autoImplicit false

namespace BitcoinClient

variable [Crypto]

/-! ### What a node sends -/

/-- The blocks that a message carries. -/
def Message.carried : Message → List Block
  | .blocks bs => bs
  | _ => []

/-- The message that a network worker takes. -/
def Event.received : Event → Option Message
  | .message m => some m
  | _ => none

omit [Crypto] in
theorem Event.mem_blocks {e : Event} {b : Block} (h : b ∈ e.blocks) :
    ∃ m ∈ e.received, b ∈ m.carried := by
  cases e with
  | message m =>
      cases m with
      | blocks bs => exact ⟨_, rfl, h⟩
      | _ => exact absurd h List.not_mem_nil
  | _ => exact absurd h List.not_mem_nil

/-- A message of `n'` is a message of `n`, or it carries blocks that `n` has stored or finished. -/
def Says (n n' : Node) : Prop :=
  ∀ m ∈ n'.server, m ∈ n.server ∨
    ∀ b ∈ m.carried, (∃ h, n.blockchain.getBlock h = some b) ∨ b ∈ n.finishedBlockChan

namespace Says

variable {n n' : Node}

omit [Crypto] in
theorem of_eq (h : n'.server = n.server) : Says n n' := by
  intro m hm
  rw [h] at hm
  exact Or.inl hm

omit [Crypto] in
/-- One more message. -/
theorem of_append {msg : Message} (h : n'.server = n.server ++ [msg])
    (hmsg : ∀ b ∈ msg.carried, (∃ h, n.blockchain.getBlock h = some b) ∨ b ∈ n.finishedBlockChan) :
    Says n n' := by
  intro m hm
  rw [h] at hm
  rcases List.mem_append.1 hm with hm | hm
  · exact Or.inl hm
  · rw [List.mem_singleton.1 hm]
    exact Or.inr hmsg

omit [Crypto] in
/-- One more message, without blocks. -/
theorem of_append_nil {msg : Message} (h : n'.server = n.server ++ [msg]) (hmsg : msg.carried = []) :
    Says n n' := by
  refine of_append h fun b hb => ?_
  rw [hmsg] at hb
  exact absurd hb List.not_mem_nil

omit [Crypto] in
/-- An announcement of hashes carries no blocks. -/
theorem of_announce {w : Worker} {message : List H256 → Message} {hashes : List H256}
    (h : n'.server = (w.announce message hashes).server) (hw : w.server = n.server)
    (hmsg : (message hashes).carried = []) : Says n n' := by
  rw [Worker.announce] at h
  split at h
  · exact of_append_nil (by rw [h, hw]) hmsg
  · exact of_eq (by rw [h, hw])

end Says

namespace Node

variable {n n' : Node}

theorem server_attachIfValid (w : Worker) (block parent : Block) :
    (w.attachIfValid block parent).state.server = w.server := by
  rw [Worker.attachIfValid]
  split
  · rw [Exec.state_lift]
  · rfl

omit [Crypto] in
theorem server_cleanup (w : Worker) (idxs : List ℕ) : (w.cleanup idxs).state.server = w.server := by
  rw [Worker.cleanup, Exec.state_lift]

theorem server_handleWithoutParent (w : Worker) (block : Block) :
    (w.handleWithoutParent block).state.server = w.server ∨
      (w.handleWithoutParent block).state.server =
        w.server ++ [.getBlocks [block.getParent]] := by
  rw [Worker.handleWithoutParent]
  split
  · refine Or.inl ?_
    split <;> rfl
  · exact Or.inr rfl

omit [Crypto] in
theorem server_resume {α : Type} (x : Exec Worker α) (lock : α → ChainLock) :
    (n.resume x lock).server = x.state.server := by
  cases x <;> rfl

theorem server_onTransactions (txs : List SignedTransaction) (hs : List H256) (w : Worker) :
    (w.onTransactions txs hs).1.server = w.server := by
  induction txs generalizing hs w with
  | nil => rfl
  | cons tx txs ih =>
      rw [Worker.onTransactions]
      split
      · exact ih _ _
      · split
        · exact ih _ _
        · exact ih _ _

private theorem says_workerStep (h : n.workerStep = some n') : Says n n' := by
  rw [workerStep] at h
  split at h
  · simp at h
  · simp at h
  · rw [Option.some_inj] at h
    rw [← h]
    exact .of_announce rfl rfl rfl
  · split at h
    · rw [Option.some_inj] at h
      rw [← h]
      exact .of_eq rfl
    · split at h
      · rw [Option.some_inj] at h
        rw [← h]
        exact .of_eq rfl
      · dsimp only at h
        split at h
        · rw [Option.some_inj] at h
          have hserver := congrArg (fun n : Node => n.server) h.symm
          rw [server_resume] at hserver
          rcases server_handleWithoutParent _ _ with hw | hw
          · exact .of_eq (hserver.trans hw)
          · exact .of_append_nil (hserver.trans hw) rfl
        · rw [Option.some_inj] at h
          rw [← h]
          exact .of_eq (by rw [server_resume, server_attachIfValid]; rfl)
  · split at h
    · rw [Option.some_inj] at h
      rw [← h]
      exact .of_eq (by rw [server_resume, server_cleanup])
    · rw [Option.some_inj] at h
      rw [← h]
      exact .of_eq (by rw [server_resume, server_attachIfValid])

private theorem says_messageStep {m : Message} (h : n.messageStep m = some n') : Says n n' := by
  cases messageStep_cases h with
  | ping nonce => exact .of_append_nil rfl rfl
  | pong nonce => exact .of_eq rfl
  | newBlockHashes => exact .of_announce rfl rfl rfl
  | @getBlocks hashes =>
      rw [Worker.getBlocksMessage]
      split
      · -- only stored blocks are sent
        refine .of_append rfl fun b hb => Or.inl ?_
        obtain ⟨hash, -, hget⟩ := List.mem_filterMap.1 hb
        exact ⟨hash, hget⟩
      · exact .of_eq rfl
  | blocks => exact .of_eq rfl
  | newTransactionHashes => exact .of_announce rfl rfl rfl
  | @getTransactions hashes =>
      rw [Worker.getTransactionsMessage]
      split
      · exact .of_append_nil rfl rfl
      · exact .of_eq rfl
  | transactions => exact .of_announce rfl (server_onTransactions _ _ _) rfl

/-- **The blocks that a step sends are stored or finished**, in the node before the step. -/
theorem says_of_step {e : Event} (h : n.step e = some n') : Says n n' := by
  cases e with
  | message m => exact says_messageStep h
  | worker => exact says_workerStep h
  | minerStart order =>
      obtain ⟨_, _, rfl⟩ := minerReads_frame (Or.inl rfl) h
      exact .of_eq rfl
  | minerTip order =>
      obtain ⟨_, _, rfl⟩ := minerReads_frame (Or.inr (Or.inl rfl)) h
      exact .of_eq rfl
  | minerControl order =>
      obtain ⟨_, _, rfl⟩ := minerReads_frame (Or.inr (Or.inr rfl)) h
      exact .of_eq rfl
  | mine draw => exact .of_eq (mine_frame h).1
  | minerWorker =>
      rw [step, minerWorkerStep] at h
      split at h
      · simp at h
      · rename_i block chan hchan
        split at h
        · split at h
          · rw [Option.some_inj] at h
            rw [← h]
            exact .of_eq rfl
          · rw [Option.some_inj] at h
            rw [← h]
            refine .of_append rfl fun b hb => Or.inr ?_
            rw [hchan, List.mem_singleton.1 hb]
            exact List.mem_cons_self ..
        · simp at h
  | generate order draw =>
      rw [step, generateStep] at h
      split at h
      · split at h
        · rw [Option.some_inj] at h
          rw [← h]
          exact .of_eq rfl
        · split at h
          · simp at h
          · split at h
            · rw [Option.some_inj] at h
              rw [← h]
              exact .of_append_nil rfl rfl
            · simp at h
      · simp at h
  | signal signal =>
      rw [← (step_signal h).2]
      exact .of_eq rfl
  | ping =>
      rw [step, Option.some_inj] at h
      rw [← h]
      exact .of_append_nil rfl rfl

end Node

/-! ### Networks -/

/-- The nodes of a network. -/
abbrev Network (ι : Type) := ι → Node

namespace Network

variable {ι : Type} [Fintype ι]

/-- A message can be delivered when some node has sent it. -/
def Deliverable (N : Network ι) (e : Event) : Prop := ∀ m ∈ e.received, ∃ i, m ∈ (N i).server

instance (N : Network ι) (e : Event) : Decidable (Deliverable N e) :=
  inferInstanceAs (Decidable (∀ m ∈ e.received, _))

def init (gs : ι → GenesisDraw) : Network ι := fun i => Node.init (gs i)

/-- **One step of a network**: one of the nodes takes a step. -/
def step [DecidableEq ι] (N : Network ι) (x : ι × Event) : Option (Network ι) :=
  Lts.interleave Node.step Deliverable N x

/-- The runs of a network from the state `N`, with their traces. -/
abbrev Run [DecidableEq ι] (N : Network ι) : List (Network ι × (ι × Event)) → Network ι → Prop :=
  Lts.Run (fun M x M' => step M x = some M') N

/-- The blocks mined in a run. -/
def minedBlocks (tr : List (Network ι × (ι × Event))) : List Block :=
  tr.flatMap fun x => ((x.1 x.2.1).mined x.2.2).toList

/-- The genesis blocks of the nodes, and the blocks mined in a run. -/
def registry (gs : ι → GenesisDraw) (tr : List (Network ι × (ι × Event))) : Finset Block :=
  (Finset.univ.image fun i => (gs i).block) ∪ (minedBlocks tr).toFinset

/-- What is assumed of a run: the hash tells the headers of the registered blocks apart, the header
of a mined block is fresh, and the parent that a genesis block draws is not the hash of a block. -/
structure Assumptions (gs : ι → GenesisDraw) (tr : List (Network ι × (ι × Event))) : Prop where
  collisionFree : ∀ x ∈ registry gs tr, ∀ y ∈ registry gs tr, x.hash = y.hash → x.header = y.header
  fresh : ((minedBlocks tr).map Block.header).Nodup
  freshRoots : ∀ b ∈ minedBlocks tr, ∀ i, b.header ≠ (gs i).block.header
  rootsUnknown : ∀ i, ∀ x ∈ registry gs tr, x.hash ≠ (gs i).parent

section

variable {gs : ι → GenesisDraw} {tr : List (Network ι × (ι × Event))} {N : Network ι}
  {x : ι × Event}

theorem mem_registry {b : Block} :
    b ∈ registry gs tr ↔ (∃ i, (gs i).block = b) ∨ b ∈ minedBlocks tr := by
  simp [registry]

omit [Fintype ι] in
theorem minedBlocks_snoc :
    minedBlocks (tr ++ [(N, x)]) = minedBlocks tr ++ ((N x.1).mined x.2).toList := by
  simp [minedBlocks]

theorem registry_snoc {b : Block} :
    b ∈ registry gs (tr ++ [(N, x)]) ↔ b ∈ registry gs tr ∨ (N x.1).mined x.2 = some b := by
  rw [mem_registry, mem_registry, minedBlocks_snoc, List.mem_append, Option.mem_toList, or_assoc]

/-- The assumptions hold of the part of a run before its last step. -/
theorem Assumptions.init (h : Assumptions gs (tr ++ [(N, x)])) : Assumptions gs tr where
  collisionFree b hb c hc :=
    h.collisionFree b (registry_snoc.2 (Or.inl hb)) c (registry_snoc.2 (Or.inl hc))
  fresh := by
    have hall := h.fresh
    rw [minedBlocks_snoc, List.map_append] at hall
    exact hall.of_append_left
  freshRoots b hb := by
    refine h.freshRoots b ?_
    rw [minedBlocks_snoc]
    exact List.mem_append_left _ hb
  rootsUnknown i b hb := h.rootsUnknown i b (registry_snoc.2 (Or.inl hb))

/-- **Registered blocks with one hash are identical.** -/
theorem Assumptions.identical (h : Assumptions gs tr) :
    ∀ b ∈ registry gs tr, ∀ c ∈ registry gs tr, b.hash = c.hash → b = c := by
  intro b hb c hc hbc
  have hheader := h.collisionFree b hb c hc hbc
  rcases mem_registry.1 hb with ⟨i, rfl⟩ | hb <;> rcases mem_registry.1 hc with ⟨j, rfl⟩ | hc
  · -- a genesis block is determined by its header
    exact congrArg (fun header => Block.mk 1 header []) hheader
  · exact absurd hheader.symm (h.freshRoots c hc i)
  · exact absurd hheader (h.freshRoots b hb j)
  · exact List.inj_on_of_nodup_map h.fresh hb hc hheader

end

/-! ### The invariant -/

/-- A block of `R` is a genesis block, or it has a parent in `R` with the length below. -/
def Linked (gs : ι → GenesisDraw) (R : Finset Block) : Prop :=
  ∀ x ∈ R, (∃ i, (gs i).block = x) ∨
    (1 < x.length ∧ ∃ p ∈ R, p.hash = x.getParent ∧ checkedAdd p.length 1 = some x.length)

/-- The invariant of a network: registered blocks are linked, and no others have been sent by a node
or introduced in one. -/
structure Sound [DecidableEq ι] (gs : ι → GenesisDraw) (tr : List (Network ι × (ι × Event)))
    (N : Network ι) : Prop where
  linked : Linked gs (registry gs tr)
  server : ∀ i, ∀ m ∈ (N i).server, ∀ b ∈ m.carried, b ∈ registry gs tr
  seen : ∀ i, ∀ b ∈ introduced (gs i) (Lts.projection i tr), b ∈ registry gs tr

section

variable {gs : ι → GenesisDraw} {R : Finset Block} {B : List Block} {c : Blockchain}

omit [Fintype ι] in
/-- **A stored block is one of the linked blocks, with its length**: the length that the insertion
computes is the one that the block has. -/
theorem mem_of_stored (hlink : Linked gs R) (hR : ∀ b ∈ R, ∀ c ∈ R, b.hash = c.hash → b = c)
    (hB : ∀ b ∈ B, b ∈ R) (hentries : Entries B c) {h : H256} {b : Block}
    (hb : c.getBlock h = some b) : b ∈ B ∧ b.hash = h := by
  -- by induction on the length of the block
  induction hk : b.length.toNat using Nat.strong_induction_on generalizing h b with
  | _ k ih =>
    obtain ⟨x, hx, rfl, hbx, hlen, -⟩ := hentries h b hb
    have hxb : x.length = b.length := by
      rcases hlen with ⟨-, heq⟩ | ⟨hlt, p, hp, hadd⟩
      · exact heq.symm
      · have hsucc := toNat_of_checkedAdd hadd
        have hone : (1 : UInt32).toNat = 1 := rfl
        obtain ⟨hpB, hph⟩ := ih p.length.toNat (by omega) hp rfl
        rcases hlink x (hB x hx) with ⟨i, rfl⟩ | ⟨-, q, hq, hqh, hqadd⟩
        · exact absurd hlt (UInt32.lt_irrefl 1)
        · rw [hR q hq p (hB p hpB) (hqh.trans hph.symm), hadd, Option.some_inj] at hqadd
          exact hqadd.symm
    have hbx' : b = x := by rw [hbx, ← hxb]
    rw [hbx']
    exact ⟨hx, rfl⟩

end

section

variable [DecidableEq ι] {gs : ι → GenesisDraw} {tr : List (Network ι × (ι × Event))}
  {N N' : Network ι} {x : ι × Event}

/-- What the invariant says of one node. -/
theorem Sound.node (h : Sound gs tr N) (hrun : Network.Run (Network.init gs) tr N)
    (hassume : Assumptions gs tr) (i : ι) :
    Executed (gs i).block (introduced (gs i) (Lts.projection i tr)) (N i).core ∧
      GenesisStates (introduced (gs i) (Lts.projection i tr)) (N i).blockchain := by
  have hB := h.seen i
  have hrun' : Node.Run (Node.init (gs i)) (Lts.projection i tr) (N i) := Lts.run_projection hrun i
  refine genesisStates_of_run hrun' ?_ (List.Subset.refl _) ?_
  · exact fun b hb c hc => hassume.identical b (hB b hb) c (hB c hc)
  · intro b hb hone c hc
    rcases h.linked b (hB b hb) with ⟨j, rfl⟩ | ⟨hlt, -⟩
    · exact hassume.rootsUnknown j c (hB c hc)
    · rw [hone] at hlt
      exact absurd hlt (UInt32.lt_irrefl 1)

theorem Sound.mem_of_stored (h : Sound gs tr N) (hrun : Network.Run (Network.init gs) tr N)
    (hassume : Assumptions gs tr) {i : ι} {hash : H256} {b : Block}
    (hb : (N i).blockchain.getBlock hash = some b) :
    b ∈ introduced (gs i) (Lts.projection i tr) ∧ b.hash = hash :=
  Network.mem_of_stored h.linked hassume.identical (h.seen i) (h.node hrun hassume i).1.entries
    hb

/-- A mined block has the tip that it was mined on for its parent. -/
theorem Sound.linked_mined (h : Sound gs tr N) (hrun : Network.Run (Network.init gs) tr N)
    (hassume : Assumptions gs tr) {i : ι} {e : Event} {b : Block}
    (hb : (N i).mined e = some b) : 1 < b.length ∧
      ∃ p ∈ registry gs tr, p.hash = b.getParent ∧ checkedAdd p.length 1 = some b.length := by
  obtain ⟨draw, g, p, block, sp, s, v, -, -, hpc, hblock, -, -, -, rfl⟩ := Node.mined_iff.1 hb
  have hpcs := (h.node hrun hassume i).1.pc
  rw [hpc] at hpcs
  obtain ⟨hp, hlen⟩ := hpcs p (List.mem_cons_of_mem _ (List.mem_singleton.2 rfl))
  have hadd := (MiningDraw.block_eq_some hblock).1
  refine ⟨?_, p, h.seen i p (h.mem_of_stored hrun hassume hp).1, ?_, hadd⟩
  · have hsucc := toNat_of_checkedAdd hadd
    have hone : (1 : UInt32).toNat = 1 := rfl
    show 1 < block.length
    rw [UInt32.lt_iff_toNat_lt]
    omega
  · exact (MiningDraw.getParent_block hblock).symm

omit [DecidableEq ι] in
theorem linked_init : Linked gs (registry gs []) := by
  intro b hb
  rcases mem_registry.1 hb with hb | hb
  · exact Or.inl hb
  · exact absurd hb List.not_mem_nil

theorem sound_init (gs : ι → GenesisDraw) : Sound gs [] (Network.init gs) where
  linked := linked_init
  server i m hm := absurd hm List.not_mem_nil
  seen i b hb := by
    rw [List.mem_singleton.1 hb]
    exact mem_registry.2 (Or.inl ⟨i, rfl⟩)

/-- **The step lemma.** -/
theorem sound_step (h : Sound gs tr N) (hrun : Network.Run (Network.init gs) tr N)
    (hassume : Assumptions gs tr) (hstep : N.step x = some N') : Sound gs (tr ++ [(N, x)]) N' := by
  obtain ⟨i, e⟩ := x
  obtain ⟨hdeliver, n', hn', rfl⟩ := Lts.interleave_eq_some.1 hstep
  have hold : ∀ b ∈ registry gs tr, b ∈ registry gs (tr ++ [(N, (i, e))]) :=
    fun b hb => registry_snoc.2 (Or.inl hb)
  refine ⟨?_, ?_, ?_⟩
  · intro b hb
    rcases registry_snoc.1 hb with hb | hb
    · refine (h.linked b hb).imp id ?_
      rintro ⟨hlt, p, hp, hrest⟩
      exact ⟨hlt, p, hold p hp, hrest⟩
    · obtain ⟨hlt, p, hp, hrest⟩ := h.linked_mined hrun hassume hb
      exact Or.inr ⟨hlt, p, hold p hp, hrest⟩
  · intro j m hm b hb
    refine hold b ?_
    by_cases hj : j = i
    · subst hj
      rw [Function.update_self] at hm
      rcases Node.says_of_step hn' m hm with hm | hsays
      · exact h.server j m hm b hb
      · rcases hsays b hb with ⟨hash, hstored⟩ | hchan
        · exact h.seen j b (h.mem_of_stored hrun hassume hstored).1
        · rcases (h.node hrun hassume j).1.chan b hchan with hstored | hpend
          · exact h.seen j b (h.mem_of_stored hrun hassume hstored).1
          · exact h.seen j b hpend.mem
    · rw [Function.update_of_ne hj] at hm
      exact h.server j m hm b hb
  · intro j b hb
    rw [Lts.projection_snoc] at hb
    split at hb
    · rename_i hj
      subst hj
      rw [introduced_append] at hb
      rcases List.mem_append.1 hb with hb | hb
      · exact hold b (h.seen i b hb)
      · rcases List.mem_append.1 hb with hb | hb
        · -- a received block was sent by some node
          obtain ⟨m, hm, hbm⟩ := Event.mem_blocks hb
          obtain ⟨k, hk⟩ := hdeliver m hm
          exact hold b (h.server k m hk b hbm)
        · exact registry_snoc.2 (Or.inr (Option.mem_toList.1 hb))
    · rw [List.append_nil] at hb
      exact hold b (h.seen j b hb)

theorem sound_of_run (hrun : Network.Run (Network.init gs) tr N) (hassume : Assumptions gs tr) :
    Sound gs tr N := by
  induction hrun with
  | nil => exact sound_init gs
  | snoc hrun hstep ih => exact sound_step (ih hassume.init) hrun hassume.init hstep

end

/-! ### Agreement -/

omit [Fintype ι] in
/-- Two nodes have the same state for a linked block that both store: by induction on its length, as
its state is that of the initial coin offering or computed from the state of its parent. -/
theorem states_agree {gs : ι → GenesisDraw} {R : Finset Block} (hlink : Linked gs R)
    (hR : ∀ b ∈ R, ∀ c ∈ R, b.hash = c.hash → b = c) {B₁ B₂ : List Block} {c₁ c₂ : Blockchain}
    (hB₁ : ∀ b ∈ B₁, b ∈ R) (hB₂ : ∀ b ∈ B₂, b ∈ R) (he₁ : Entries B₁ c₁) (he₂ : Entries B₂ c₂)
    (hg₁ : GenesisStates B₁ c₁) (hg₂ : GenesisStates B₂ c₂) {h : H256} {b : Block}
    (hb₁ : c₁.getBlock h = some b) (hb₂ : c₂.getBlock h = some b) :
    ∃ s, c₁.getBlockState h = some s ∧ c₂.getBlockState h = some s := by
  have hstored₁ := fun {h b} => mem_of_stored (h := h) (b := b) hlink hR hB₁ he₁
  have hstored₂ := fun {h b} => mem_of_stored (h := h) (b := b) hlink hR hB₂ he₂
  induction hk : b.length.toNat using Nat.strong_induction_on generalizing h b with
  | _ k ih =>
    obtain ⟨hmem₁, rfl⟩ := hstored₁ hb₁
    obtain ⟨hmem₂, -⟩ := hstored₂ hb₂
    by_cases hone : b.length = 1
    · refine ⟨icoState, hg₁ b hmem₁ hone ?_, hg₂ b hmem₂ hone ?_⟩
      · rw [hb₁]
        rfl
      · rw [hb₂]
        rfl
    · have hident₁ : Identical B₁ := fun x hx y hy => hR x (hB₁ x hx) y (hB₁ y hy)
      have hident₂ : Identical B₂ := fun x hx y hy => hR x (hB₂ x hx) y (hB₂ y hy)
      obtain ⟨-, hlen₁, hex₁⟩ := he₁.of_mem hident₁ hmem₁ hb₁
      obtain ⟨-, -, hex₂⟩ := he₂.of_mem hident₂ hmem₂ hb₂
      obtain ⟨sp₁, s₁, v₁, hsp₁, hrun₁, hs₁⟩ := (hex₁ hone).state
      obtain ⟨sp₂, s₂, v₂, hsp₂, hrun₂, hs₂⟩ := (hex₂ hone).state
      -- the two stores hold the same parent
      obtain ⟨p₁, hp₁⟩ := (hex₁ hone).parent
      obtain ⟨p₂, hp₂⟩ := (hex₂ hone).parent
      obtain ⟨hpm₁, hph₁⟩ := hstored₁ hp₁
      obtain ⟨hpm₂, hph₂⟩ := hstored₂ hp₂
      have hpp : p₂ = p₁ := hR _ (hB₂ _ hpm₂) _ (hB₁ _ hpm₁) (hph₂.trans hph₁.symm)
      subst hpp
      have hshort : p₂.length.toNat < b.length.toNat := by
        rcases hlink b (hB₁ b hmem₁) with ⟨i, rfl⟩ | ⟨hlt, -⟩
        · exact absurd rfl hone
        · rcases hlen₁ with ⟨hle, -⟩ | ⟨-, p, hp, hadd⟩
          · exact absurd hlt (UInt32.not_lt.2 hle)
          · rw [hp₁, Option.some_inj] at hp
            rw [toNat_of_checkedAdd hadd, hp]
            exact Nat.lt_succ_self _
      obtain ⟨sp, hsp₁', hsp₂'⟩ := ih _ (by omega) hp₁ hp₂ rfl
      rw [hsp₁, Option.some_inj] at hsp₁'
      rw [hsp₂, Option.some_inj] at hsp₂'
      rw [hsp₁', ← hsp₂', hrun₂, Option.some_inj, Prod.mk.injEq] at hrun₁
      exact ⟨s₁, hs₁, hrun₁.1 ▸ hs₂⟩

/-- **Agreement**: two nodes that both store a block with the hash `h` have the same transactions
and the same length for it, and the same state. -/
theorem nodes_agree [DecidableEq ι] {gs : ι → GenesisDraw} {tr : List (Network ι × (ι × Event))}
    {N : Network ι} (hrun : Network.Run (Network.init gs) tr N) (hassume : Assumptions gs tr)
    {i j : ι} {h : H256} {b c : Block} (hb : (N i).blockchain.getBlock h = some b)
    (hc : (N j).blockchain.getBlock h = some c) :
    b.data = c.data ∧ b.length = c.length ∧
      ∃ s, (N i).blockchain.getBlockState h = some s ∧ (N j).blockchain.getBlockState h = some s := by
  have hsound := sound_of_run hrun hassume
  obtain ⟨hbm, hbh⟩ := hsound.mem_of_stored hrun hassume hb
  obtain ⟨hcm, hch⟩ := hsound.mem_of_stored hrun hassume hc
  have hbc : b = c :=
    hassume.identical b (hsound.seen i b hbm) c (hsound.seen j c hcm)
      (hbh.trans hch.symm)
  subst hbc
  obtain ⟨hex₁, hg₁⟩ := hsound.node hrun hassume i
  obtain ⟨hex₂, hg₂⟩ := hsound.node hrun hassume j
  exact ⟨rfl, rfl, states_agree hsound.linked hassume.identical (hsound.seen i)
    (hsound.seen j) hex₁.entries hex₂.entries hg₁ hg₂ hb hc⟩

omit [Crypto]

/-- One node mines a block and sends it to another one, after its genesis block. -/
def mineAndSend : List (Bool × Event) :=
  [(false, .minerStart [1]), (false, .signal (.start 0)), (false, .minerTip [1]),
    (false, .minerControl []), (false, .minerTip [1]), (false, .minerControl []),
    (false, .mine { timestamp := 0, merkleRoot := 0, nonce := 2, order := [] }),
    (false, .minerWorker), (false, .minerWorker),
    (true, .message (.blocks [sampleGenesis.block])), (true, .worker), (true, .worker),
    (true, .message (.blocks [sampleBlock 1 2 2 []])), (true, .worker)]

/-- Both nodes store the block that was mined. -/
theorem nodes_agree_mined :
    letI := sampleCrypto
    ∃ N : Network Bool, ∃ s, (N false).blockchain.getBlockState 2 = some s ∧
      (N true).blockchain.getBlockState 2 = some s := by
  obtain ⟨N, hrun, hb, hc⟩ := @Lts.exists_run_of_replay _ _ (@step sampleCrypto Bool _ _) mineAndSend
    (@init sampleCrypto Bool fun i => if i then otherGenesis else sampleGenesis)
    (fun N => (N false).blockchain.getBlock 2 = some (sampleBlock 1 2 2 []) ∧
      (N true).blockchain.getBlock 2 = some (sampleBlock 1 2 2 [])) (by decide +kernel)
  obtain ⟨-, -, s, hs, hs'⟩ := @nodes_agree sampleCrypto Bool _ _ _ _ _ hrun
    (@Assumptions.mk sampleCrypto Bool _ _ _ (by decide +kernel) (by decide +kernel)
      (by decide +kernel) (by decide +kernel)) _ _ _ _ _ hb hc
  exact ⟨N, s, hs, hs'⟩

end Network

end BitcoinClient
