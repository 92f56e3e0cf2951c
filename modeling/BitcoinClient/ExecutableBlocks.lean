/-
**Blocks whose transactions all pass the checks.**

The miner publishes the transactions of its batch that pass the balance and nonce checks, and only
these.  The network worker executes a block of a peer, drops the list of the valid transactions, and
inserts the block whatever was in it.  So a stored block contains only executable transactions when
every block of a peer does, as long as the state of a stored block does not change: the blocks that the
node has mined itself are in order without a condition.

Main definitions:

* `BitcoinClient.AllExecutable` — every transaction passes the checks on a state, and none overflows;
* `BitcoinClient.Node.inserted` — the block that a step inserts;
* `BitcoinClient.Node.KeepsStates`, `BitcoinClient.Node.ChecksAll` — the conditions on a step.

Main results:

* `BitcoinClient.executeTx_all_iff` — when a list is executed as a whole;
* `BitcoinClient.blockStates_kept` — the states of the stored blocks along a run;
* `BitcoinClient.executable_blocks_iff`, `BitcoinClient.failing_transaction_stored` — the runs whose
  blocks are executed as a whole, and a stored block with a transaction that fails the checks.
-/

import BitcoinClient.StoredStates

set_option relaxedAutoImplicit false
set_option autoImplicit false

namespace BitcoinClient

/-! ### Lists that are executed as a whole -/

/-- Every transaction passes the checks on the state, and none overflows. -/
def AllExecutable (s : State) (l : List SignedTransaction) : Prop :=
  ∀ tx ∈ l, executable s tx = true ∧ overflows s tx = false

instance (s : State) (l : List SignedTransaction) : Decidable (AllExecutable s l) :=
  inferInstanceAs (Decidable (∀ tx ∈ l, _))

/-- **The valid transactions are the whole list** when every one passes the checks. -/
theorem executeTx_all_iff {s : State} {l : List SignedTransaction} :
    (∃ s', executeTx s l = some (s', l)) ↔ AllExecutable s l := by
  constructor
  · rintro ⟨s', h⟩ tx htx
    obtain ⟨hover, hvalid, -⟩ := executeTx_eq_some_iff.1 h
    rw [hvalid] at htx
    exact ⟨(List.mem_filter.1 htx).2, hover tx (List.mem_of_mem_filter htx)⟩
  · intro h
    have hfilter : l = l.filter (executable s) :=
      (List.filter_eq_self.2 fun tx htx => (h tx htx).1).symm
    exact ⟨applyAll s s l, executeTx_eq_some_iff.2 ⟨fun tx htx => (h tx htx).2, hfilter, rfl⟩⟩

variable [Crypto]

/-! ### The conditions -/

/-- The block that a step inserts. -/
def Node.inserted (n : Node) : Event → Option Block
  | .worker => (n.attached .worker).filter fun b => (n.blockchain.attach b).Returns
  | .minerWorker =>
    if n.lock = .free then n.finishedBlockChan.head?.filter fun b => (n.blockchain.insert b).isSome
    else none
  | _ => none

/-- A state that a step computes for the hash of a stored block is the one that is stored. -/
def Node.KeepsStates (n : Node) (e : Event) : Prop :=
  ∀ x ∈ n.computed e, x.1.hash ∈ n.blockchain.blocks → ∀ r ∈ executeTx x.2 x.1.data,
    n.blockchain.getBlockState x.1.hash = some r.1

instance (n : Node) (e : Event) : Decidable (n.KeepsStates e) :=
  inferInstanceAs (Decidable (∀ x ∈ n.computed e, _ → ∀ r ∈ executeTx x.2 x.1.data, _))

/-- The transactions of a block that a step inserts on a stored parent all pass the checks on the state
of the parent.  A block that the miner worker inserts for the first time is exempt. -/
def Node.ChecksAll (n : Node) (e : Event) : Prop :=
  ∀ b ∈ n.inserted e, b.getParent ∈ n.blockchain.blocks →
    (e = .minerWorker → b.hash ∈ n.blockchain.blocks) →
      ∀ s ∈ n.blockchain.getBlockState b.getParent, AllExecutable s b.data

instance (n : Node) (e : Event) : Decidable (n.ChecksAll e) :=
  inferInstanceAs (Decidable (∀ b ∈ n.inserted e, _ → _ → ∀ s ∈ _, _))

/-- Executing the block on the stored state of its parent drops no transaction. -/
def ExecutedWhole (c : Blockchain) (b : Block) : Prop :=
  ∃ s s', c.getBlockState b.getParent = some s ∧ executeTx s b.data = some (s', b.data)

omit [Crypto] in
theorem executedWhole_congr {c d : Blockchain} {b : Block}
    (h : d.getBlockState b.getParent = c.getBlockState b.getParent) :
    ExecutedWhole d b ↔ ExecutedWhole c b := by
  rw [ExecutedWhole, ExecutedWhole, h]

/-- With a stored parent, it is the checks that decide. -/
theorem executedWhole_iff {c : Blockchain} (hc : Stocked c) {b : Block} (hpar : b.getParent ∈ c.blocks) :
    ExecutedWhole c b ↔ ∀ s ∈ c.getBlockState b.getParent, AllExecutable s b.data := by
  obtain ⟨s, hs⟩ := mem_blockStates_iff.1 (hc.stated _ hpar)
  rw [ExecutedWhole, hs]
  constructor
  · rintro ⟨s₁, s', hs₁, he⟩ t ht
    rw [Option.some_inj] at hs₁
    rw [Option.mem_some_iff] at ht
    rw [← ht, hs₁]
    exact executeTx_all_iff.1 ⟨s', he⟩
  · intro h
    obtain ⟨s', he⟩ := executeTx_all_iff.2 (h s rfl)
    exact ⟨s, s', rfl, he⟩

/-! ### Steps -/

section Steps

variable {n n' : Node} {e : Event}

/-- **The state of a stored block does not change** in a step that keeps the states. -/
theorem blockState_kept (hk : n.KeepsStates e) (hstep : n.step e = some n') :
    ∀ h ∈ n.blockchain.blocks, h ∈ n'.blockchain.blocks ∧
      n'.blockchain.getBlockState h = n.blockchain.getBlockState h := by
  have hc := Node.core_step hstep
  show ∀ h ∈ n.core.chain.blocks, h ∈ n'.core.chain.blocks ∧
    n'.core.chain.getBlockState h = n.core.chain.getBlockState h
  generalize n'.core = c' at hc
  -- writing the state of a hash that is not stored, or that has this state
  have hwrite : ∀ {k : H256} {s : State},
      (k ∈ n.core.chain.blocks → n.core.chain.getBlockState k = some s) →
        ∀ h ∈ n.core.chain.blocks,
          (n.core.chain.putState k s).getBlockState h = n.core.chain.getBlockState h := by
    intro k s hsame h hh
    rw [Blockchain.getBlockState_putState]
    split
    · rename_i hk
      subst hk
      exact (hsame hh).symm
    · rfl
  cases hc with
  | other => exact fun h hh => ⟨hh, rfl⟩
  | pcMove _ => exact fun h hh => ⟨hh, rfl⟩
  | readTip _ _ _ _ => exact fun h hh => ⟨hh, rfl⟩
  | panic _ _ => exact fun h hh => ⟨hh, rfl⟩
  | take _ => exact fun h hh => ⟨hh, rfl⟩
  | skip _ => exact fun h hh => ⟨hh, rfl⟩
  | park _ _ _ _ => exact fun h hh => ⟨hh, rfl⟩
  | reject _ _ => exact fun h hh => ⟨hh, rfl⟩
  | cleanup _ _ _ => exact fun h hh => ⟨hh, rfl⟩
  | insertMined _ _ _ => exact fun h hh => ⟨mem_blocks_put.2 (Or.inr hh), rfl⟩
  | genesis _ hnew _ _ =>
      refine fun h hh => ⟨mem_blocks_put.2 (Or.inr hh), ?_⟩
      exact hwrite (fun hmem => absurd hmem (not_mem_blocks_iff.2 hnew)) h hh
  | attach hat hv hp he _ =>
      refine fun h hh => ⟨mem_blocks_put.2 (Or.inr hh), ?_⟩
      exact hwrite (fun hmem => hk _ (hat.computed_eq hv hp) hmem _ he) h hh
  | halfAttach hat hv hp he =>
      refine fun h hh => ⟨hh, ?_⟩
      exact hwrite (fun hmem => hk _ (hat.computed_eq hv hp) hmem _ he) h hh
  | mined hlock hpc hb hle hp he =>
      refine fun h hh => ⟨hh, ?_⟩
      have hcomp := Node.computed_mine hlock hpc hb hle hp he
      exact hwrite (fun hmem => hk _ hcomp hmem _ (executeTx_valid he)) h hh

/-- A block in the channel is stored, or it is executed as a whole on its parent. -/
def Finished (c : Core) : Prop :=
  ∀ b ∈ c.chan, b.hash ∈ c.chain.blocks ∨ (b.getParent ∈ c.chain.blocks ∧ ExecutedWhole c.chain b)

theorem finished_step (hback : Backed n.core) (h : Finished n.core) (hk : n.KeepsStates e)
    (hstep : n.step e = some n') : Finished n'.core := by
  have hkept : ∀ k ∈ n.core.chain.blocks, k ∈ n'.core.chain.blocks ∧
      n'.core.chain.getBlockState k = n.core.chain.getBlockState k := blockState_kept hk hstep
  have hc := Node.core_step hstep
  -- what was in the channel before the step
  have hold : ∀ b ∈ n.core.chan, b.hash ∈ n'.core.chain.blocks ∨
      (b.getParent ∈ n'.core.chain.blocks ∧ ExecutedWhole n'.core.chain b) := by
    intro b hb
    rcases h b hb with hstored | ⟨hpar, hwhole⟩
    · exact Or.inl (hkept _ hstored).1
    · obtain ⟨hpar', hsame⟩ := hkept _ hpar
      exact Or.inr ⟨hpar', (executedWhole_congr hsame).2 hwhole⟩
  intro b hb
  generalize n'.core = c' at hc hold hb hkept
  cases hc with
  | other => exact hold b hb
  | pcMove _ => exact hold b hb
  | readTip _ _ _ _ => exact hold b hb
  | panic _ hchan => exact hold b (chan_subset_of_panic hchan hb)
  | take _ => exact hold b hb
  | skip _ => exact hold b hb
  | park _ _ _ _ => exact hold b hb
  | reject _ _ => exact hold b hb
  | cleanup _ _ _ => exact hold b hb
  | genesis _ _ _ _ => exact hold b hb
  | attach _ _ _ _ _ => exact hold b hb
  | halfAttach _ _ _ _ => exact hold b hb
  | insertMined _ hchan _ => exact hold b (hchan ▸ List.mem_cons_of_mem _ hb)
  | @mined draw g p block s s' v hlock hpc hblock hle hp he =>
      have hpcs := hback.pc
      rw [hpc] at hpcs
      obtain ⟨hg, -⟩ := hpcs g (List.mem_cons_self ..)
      obtain ⟨hpstored, -⟩ := hpcs p (List.mem_cons_of_mem _ (List.mem_cons_self ..))
      rcases mem_chan_of_mined hb with hb | rfl | rfl
      · exact hold b hb
      · exact Or.inl hg
      · -- the block that has just been mined
        have hpar := MiningDraw.getParent_block hblock
        have hstored : block.getParent ∈ n.core.chain.blocks := hpar ▸ hpstored
        obtain ⟨-, hsame⟩ := hkept _ hstored
        refine Or.inr ⟨hstored, s, s', ?_, executeTx_valid he⟩
        exact hsame.trans ((congrArg _ hpar).trans hp)

end Steps

/-! ### Runs -/

section Runs

variable {g : GenesisDraw} {tr : List (Node × Event)} {m n : Node}

/-- **The states of the stored blocks stay** along a run that keeps the states. -/
theorem blockStates_kept (hrun : Node.Run m tr n) (hk : ∀ x ∈ tr, x.1.KeepsStates x.2) :
    ∀ h ∈ m.blockchain.blocks, h ∈ n.blockchain.blocks ∧
      n.blockchain.getBlockState h = m.blockchain.getBlockState h :=
  hrun.relation (I := fun _ => True) (C := fun m e => m.KeepsStates e)
    (R := fun m n => ∀ h ∈ m.blockchain.blocks, h ∈ n.blockchain.blocks ∧
      n.blockchain.getBlockState h = m.blockchain.getBlockState h)
    trivial (fun _ _ _ _ _ _ => trivial) (fun _ _ hh => ⟨hh, rfl⟩)
    (fun a b c hab hbc h hh => by
      obtain ⟨hb, hs⟩ := hab h hh
      obtain ⟨hc, hs'⟩ := hbc h hb
      exact ⟨hc, hs'.trans hs⟩)
    (fun _ _ _ _ hk hs => blockState_kept hk hs) hk

theorem finished_of_run (hrun : Node.Run (Node.init g) tr n) (hk : ∀ x ∈ tr, x.1.KeepsStates x.2) :
    Finished n.core := by
  have hinv := hrun.invariant (I := fun m : Node => Backed m.core ∧ Finished m.core)
    (C := fun m e => m.KeepsStates e)
    ⟨backed_init g, fun b hb => absurd hb List.not_mem_nil⟩
    (fun _ _ _ h hk hs => ⟨backed_step h.1 hs, finished_step h.1 h.2 hk hs⟩) hk
  exact hinv.2

/-- **Stored blocks contain only executable transactions** if and only if the blocks of the peers do:
along a run that keeps the states of its stored blocks, every block inserted on a stored parent is
executed as a whole on the state that its parent has in the end exactly when every such block of a peer
passed the checks. -/
theorem executable_blocks_iff (hrun : Node.Run (Node.init g) tr n)
    (hk : ∀ x ∈ tr, x.1.KeepsStates x.2) :
    (∀ x ∈ tr, x.1.ChecksAll x.2) ↔
      ∀ x ∈ tr, ∀ b ∈ x.1.inserted x.2, b.getParent ∈ x.1.blockchain.blocks →
        ∃ s s', n.blockchain.getBlockState b.getParent = some s ∧
          executeTx s b.data = some (s', b.data) := by
  refine forall₂_congr fun x hx => ?_
  obtain ⟨tr₁, m', tr₂, hrun₁, hstep, hrun₂, rfl⟩ := hrun.split_of_mem hx
  have hback := backed_of_run hrun₁
  have hlater : ∀ h ∈ x.1.blockchain.blocks, h ∈ n.blockchain.blocks ∧
      n.blockchain.getBlockState h = x.1.blockchain.getBlockState h :=
    blockStates_kept ((Lts.Run.single hstep).trans hrun₂) fun y hy =>
      hk y (List.mem_append_right _ hy)
  have hfin := finished_of_run hrun₁ fun y hy => hk y (List.mem_append_left _ hy)
  -- the state of the parent is the same in the end
  have hwhole : ∀ b : Block, b.getParent ∈ x.1.blockchain.blocks →
      (ExecutedWhole n.blockchain b ↔
        ∀ s ∈ x.1.blockchain.getBlockState b.getParent, AllExecutable s b.data) :=
    fun b hpar => (executedWhole_congr (hlater _ hpar).2).trans (executedWhole_iff hback.chain hpar)
  constructor
  · intro hall b hb hpar
    refine (hwhole b hpar).2 ?_
    by_cases hexempt : x.2 = .minerWorker ∧ b.hash ∉ x.1.blockchain.blocks
    · obtain ⟨he, hnew⟩ := hexempt
      rw [he, Node.inserted, Option.mem_def, Option.ite_none_right_eq_some,
        Option.filter_eq_some_iff] at hb
      have hmem : b ∈ x.1.core.chan := List.mem_of_mem_head? hb.2.1
      rcases hfin b hmem with hstored | ⟨-, hb'⟩
      · exact absurd hstored hnew
      · exact (executedWhole_iff hback.chain hpar).1 hb'
    · refine hall b hb hpar fun he => ?_
      by_contra hnew
      exact hexempt ⟨he, hnew⟩
  · intro hall b hb hpar _
    exact (hwhole b hpar).1 (hall b hb hpar)

end Runs

omit [Crypto]

/-- A block on the genesis block with a payment of an account that has no coins. -/
def failingBlock : Block := sampleBlock 1 2 2 [sampleTransaction 7 8 1 40]

/-- **A failing transaction is stored**: the block of a peer is inserted on its parent, and none of its
transactions is valid. -/
theorem failing_transaction_stored :
    letI := sampleCrypto
    ∃ n, Node.Run (Node.init sampleGenesis) (Lts.replayTrace Node.step (Node.init sampleGenesis)
        [.message (.blocks [failingBlock]), .worker, .worker, .worker]) n ∧
      n.blockchain.getBlock 2 = some failingBlock ∧
      (n.blockchain.getBlock failingBlock.getParent).isSome ∧
      ∃ s ∈ n.blockchain.getBlockState failingBlock.getParent,
        executeTx s failingBlock.data = some (s, []) :=
  Lts.exists_run_of_replay (by decide +kernel)

/-- A node receives a block with a payment of the initial account. -/
def receiveTransfer : List Event :=
  [.message (.blocks [sampleBlock 1 2 2 [sampleTransaction 0 1 1 40]]), .worker, .worker]

/-- The payment is executed on the state of the genesis block. -/
theorem executable_blocks_iff_payment :
    letI := sampleCrypto
    ∃ n : Node, ∃ s s', n.blockchain.getBlockState 1 = some s ∧
      executeTx s [sampleTransaction 0 1 1 40] = some (s', [sampleTransaction 0 1 1 40]) := by
  obtain ⟨n, hrun, -⟩ := @Lts.exists_run_of_replay _ _ (@Node.step sampleCrypto) receiveTransfer
    (@Node.init sampleCrypto sampleGenesis) (fun n => (n.blockchain.getBlock 2).isSome)
    (by decide +kernel)
  have hall := (@executable_blocks_iff sampleCrypto _ _ _ hrun (by decide +kernel)).1
    (by decide +kernel)
  obtain ⟨x, hx, b, hb, hpar, rfl⟩ : ∃ x ∈ Lts.replayTrace (@Node.step sampleCrypto)
      (@Node.init sampleCrypto sampleGenesis) receiveTransfer,
      ∃ b ∈ @Node.inserted sampleCrypto x.1 x.2, b.getParent ∈ x.1.blockchain.blocks ∧
        b = sampleBlock 1 2 2 [sampleTransaction 0 1 1 40] := by
    decide +kernel
  exact ⟨n, hall x hx _ hb hpar⟩

end BitcoinClient
