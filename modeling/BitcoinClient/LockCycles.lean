/-
**Cycles of waiting threads.**

The network workers lock the store before the mempool and the mempool before the orphan buffer; the miner
locks the mempool before the store.  No other thread waits while it holds one of the three.  So the one
possible cycle is that of a network worker with the store, about to remove the transactions of a new block
from the mempool, and the miner with the mempool, about to compute the state after its block.

The cycle is closed by the later of two steps: the miner takes the mempool while a worker waits for it with
the store in its hands, or a worker comes to a block of its message that is not stored while the miner waits
for the store with the mempool in its hands.

Main definitions:

* `BitcoinClient.Stage.InNewBlock`, `BitcoinClient.Stage.InMinedBlock` — the two stages of the cycle;
* `BitcoinClient.Threads.LocksInOrder` — the steps that do not close it.

Main results:

* `BitcoinClient.Threads.deadlocked_iff` — the cycle is the only one;
* `BitcoinClient.Threads.no_lock_cycle_iff` — **no cycle occurs exactly in the runs whose steps all lock in
  order**.
-/

import BitcoinClient.Threads

set_option relaxedAutoImplicit false
set_option autoImplicit false

namespace BitcoinClient

open Locks

/-! ### The two stages -/

/-- A network worker that holds the store is about to lock the mempool. -/
def Stage.InNewBlock : Stage → Prop
  | .networkWorker (.lockMempool ..) => True
  | _ => False

/-- The miner, which holds the mempool, is about to lock the store. -/
def Stage.InMinedBlock : Stage → Prop
  | .miner (.lockBlockchain ..) => True
  | _ => False

instance : DecidablePred Stage.InNewBlock := fun stage => by
  unfold Stage.InNewBlock
  split <;> infer_instance

instance : DecidablePred Stage.InMinedBlock := fun stage => by
  unfold Stage.InMinedBlock
  split <;> infer_instance

theorem Stage.InNewBlock.wants_eq {stage : Stage} (h : stage.InNewBlock) :
    stage.wants = some .mempool ∧ Mutex.blockchain ∈ stage.held := by
  unfold Stage.InNewBlock at h
  split at h
  · exact ⟨rfl, by simp [Stage.held, WorkerStage.held]⟩
  · exact h.elim

theorem Stage.InNewBlock.not_inMinedBlock {stage : Stage} (h : stage.InNewBlock) :
    ¬ stage.InMinedBlock := by
  cases stage with
  | networkWorker stage => exact id
  | _ => exact h.elim

theorem Stage.InMinedBlock.wants_eq {stage : Stage} (h : stage.InMinedBlock) :
    stage.wants = some .blockchain ∧ Mutex.mempool ∈ stage.held := by
  unfold Stage.InMinedBlock at h
  split at h
  · exact ⟨rfl, by simp [Stage.held, MinerStage.held]⟩
  · exact h.elim

/-! ### Ranks -/

namespace Mutex

/-- The order in which the network workers lock. -/
def workerRank : Mutex → ℕ
  | startedTxGen => 0
  | blockchain => 1
  | mempool => 2
  | orphanBuffer => 3

/-- The order in which the miner locks. -/
def minerRank : Mutex → ℕ
  | startedTxGen => 0
  | mempool => 0
  | blockchain => 1
  | orphanBuffer => 2

end Mutex

/-- The mutexes that are held at a stage are below the one that is wanted there. -/
def Stage.Ordered (rank : Mutex → ℕ) (stage : Stage) : Prop :=
  ∀ m, stage.wants = some m → ∀ m' ∈ stage.held, rank m' < rank m

namespace Stage

variable {rank : Mutex → ℕ} {stage : Stage}

theorem ordered_of_wants (h : stage.wants = none) : stage.Ordered rank := by
  intro m hm
  rw [h] at hm
  cases hm

theorem ordered_of_held (h : stage.held = ∅) : stage.Ordered rank := by
  intro m _ m' hm'
  rw [h] at hm'
  exact absurd hm' (Finset.notMem_empty m')

/-- One mutex is held, and it is below the one that is wanted. -/
theorem ordered_of_lt {a b : Mutex} (hw : stage.wants = some b) (hh : stage.held = {a})
    (hlt : rank a < rank b) : stage.Ordered rank := by
  intro m hm m' hm'
  rw [hw, Option.some_inj] at hm
  rw [hh, Finset.mem_singleton] at hm'
  rw [← hm, hm']
  exact hlt

theorem ordered_minerWorker (stage : MinerWorkerStage) : (minerWorker stage).Ordered rank := by
  cases stage with
  | lockBlockchain => exact ordered_of_held rfl
  | _ => exact ordered_of_wants rfl

theorem ordered_api (stage : ApiStage) (h : rank .startedTxGen < rank .blockchain) :
    (api stage).Ordered rank := by
  cases stage with
  | lockBlockchain | lockStarted => exact ordered_of_held rfl
  | lockState => exact ordered_of_lt rfl rfl h
  | _ => exact ordered_of_wants rfl

/-- A network worker, except when it is about to lock the mempool for a new block. -/
theorem ordered_networkWorker {stage : WorkerStage}
    (hnew : (networkWorker stage).InNewBlock → rank .blockchain < rank .mempool)
    (h : rank .blockchain < rank .orphanBuffer) : (networkWorker stage).Ordered rank := by
  cases stage with
  | lockFor => exact ordered_of_held rfl
  | lockMempool => exact ordered_of_lt rfl rfl (hnew trivial)
  | lockOrphans => exact ordered_of_lt rfl rfl h
  | _ => exact ordered_of_wants rfl

/-- The miner, except when it is about to lock the store for a mined block. -/
theorem ordered_miner {stage : MinerStage}
    (hmined : (miner stage).InMinedBlock → rank .mempool < rank .blockchain) :
    (miner stage).Ordered rank := by
  cases stage with
  | lockTip | lockMempool => exact ordered_of_held rfl
  | lockBlockchain => exact ordered_of_lt rfl rfl (hmined trivial)
  | _ => exact ordered_of_wants rfl

/-- **All stages but the one of the miner** keep to the order of the workers. -/
theorem ordered_workerRank (h : ¬ stage.InMinedBlock) : stage.Ordered Mutex.workerRank := by
  cases stage with
  | networkWorker => exact ordered_networkWorker (fun _ => by decide) (by decide)
  | miner => exact ordered_miner fun hmined => absurd hmined h
  | minerWorker stage => exact ordered_minerWorker stage
  | api stage => exact ordered_api stage (by decide)
  | dead => exact ordered_of_wants rfl

/-- **All stages but the one of the workers** keep to the order of the miner. -/
theorem ordered_minerRank (h : ¬ stage.InNewBlock) : stage.Ordered Mutex.minerRank := by
  cases stage with
  | networkWorker => exact ordered_networkWorker (fun hnew => absurd hnew h) (by decide)
  | miner => exact ordered_miner fun _ => by decide
  | minerWorker stage => exact ordered_minerWorker stage
  | api stage => exact ordered_api stage (by decide)
  | dead => exact ordered_of_wants rfl

end Stage

/-! ### How the two stages are reached -/

/-- Neither of the two stages of the cycle. -/
def Stage.Plain (stage : Stage) : Prop := ¬ stage.InNewBlock ∧ ¬ stage.InMinedBlock

section Targets

variable [Crypto] {e : Draw} {d : Shared} {stage' : Stage}

omit [Crypto] in
theorem plain_afterwards {α : Type} {x : Exec Worker α} {act : Shared → Acts}
    (hact : ∀ d, (act d).target = some stage' → stage'.Plain)
    (h : (d.afterwards x act).target = some stage') : stage'.Plain := by
  cases x with
  | done w a => exact hact _ h
  | panicked w => cases h
  | looping w => cases h

/-- **A network worker** comes to a new block from its loop, when the block is not stored. -/
theorem WorkerStage.target_cases {stage : WorkerStage}
    (h : (stage.next e d).target = some stage') :
    stage'.Plain ∨ ∃ block rest newHashes, stage = .blocks (block :: rest) newHashes ∧
      d.blockchain.getBlock block.hash = none := by
  unfold next at h
  cases stage with
  | blocks rest newHashes =>
      cases rest with
      | nil =>
          cases h
          exact Or.inl ⟨id, id⟩
      | cons block rest =>
          dsimp only at h
          split at h
          · cases h
            exact Or.inl ⟨id, id⟩
          · rename_i hnone
            exact Or.inr ⟨block, rest, newHashes, rfl, hnone⟩
  | receive | lockFor | holding | lockOrphans =>
      dsimp only at h
      split at h <;> cases h <;> exact Or.inl ⟨id, id⟩
  | lockMempool | removing =>
      cases h
      exact Or.inl ⟨id, id⟩
  | parentOf =>
      dsimp only at h
      split at h
      · cases h
        exact Or.inl ⟨id, id⟩
      · split at h
        · refine Or.inl (plain_afterwards (fun d' hd' => ?_) h)
          cases hd'
          exact ⟨id, id⟩
        · cases h
          exact Or.inl ⟨id, id⟩
  | parking | attaching =>
      refine Or.inl (plain_afterwards (fun d' hd' => ?_) h)
      cases hd'
      exact ⟨id, id⟩
  | searching =>
      dsimp only at h
      split at h
      all_goals
        refine Or.inl (plain_afterwards (fun d' hd' => ?_) h)
        cases hd'
        exact ⟨id, id⟩

/-- **The miner** comes to its mined block from the mempool. -/
theorem MinerStage.target_cases {stage : MinerStage}
    (h : (stage.next e d).target = some stage') :
    stage'.Plain ∨ ∃ operatingState genesisBlock parentBlock block,
      stage = .lockMempool operatingState genesisBlock parentBlock block := by
  unfold next at h
  cases stage with
  | lockMempool operatingState genesisBlock parentBlock block =>
      exact Or.inr ⟨operatingState, genesisBlock, parentBlock, block, rfl⟩
  | lockTip | lockBlockchain =>
      cases h
      exact Or.inl ⟨id, id⟩
  | readTip use operatingState =>
      dsimp only at h
      split at h
      · split at h
        · split at h
          · cases h
          · cases h
            cases use <;> exact Or.inl ⟨id, id⟩
        · cases h
      · cases h
  | control operatingState genesisBlock parentBlock =>
      cases operatingState with
      | paused | run =>
          dsimp only at h
          split at h <;> cases h <;> exact Or.inl ⟨id, id⟩
      | shutDown =>
          cases h
          exact Or.inl ⟨id, id⟩
  | mining =>
      dsimp only at h
      split at h
      · split at h
        · cases h
        · split at h <;> cases h <;> exact Or.inl ⟨id, id⟩
      · cases h
  | executing =>
      dsimp only at h
      split at h
      · cases h
      · split at h <;> cases h
        exact Or.inl ⟨id, id⟩
  | finishing =>
      dsimp only at h
      split at h <;> cases h
      exact Or.inl ⟨id, id⟩
  | stopped =>
      cases h
      exact Or.inl ⟨id, id⟩

theorem MinerWorkerStage.target_plain {stage : MinerWorkerStage}
    (h : (stage.next d).target = some stage') : stage'.Plain := by
  unfold next at h
  cases stage with
  | receive =>
      dsimp only at h
      split at h
      · split at h <;> cases h
      · cases h
        exact ⟨id, id⟩
  | inserting =>
      dsimp only at h
      split at h <;> cases h
      exact ⟨id, id⟩
  | lockBlockchain | broadcasting =>
      cases h
      exact ⟨id, id⟩

theorem ApiStage.target_plain {stage : ApiStage} (h : (stage.next e d).target = some stage') :
    stage'.Plain := by
  unfold next at h
  cases stage with
  | idle =>
      cases e with
      | request request =>
          cases request with
          | minerStart lambda =>
              dsimp only at h
              split at h <;> cases h
              exact ⟨id, id⟩
          | _ =>
              cases h
              exact ⟨id, id⟩
      | _ => cases h
  | starting =>
      dsimp only at h
      split at h <;> cases h <;> exact ⟨id, id⟩
  | lockBlockchain | lockStarted | lockState =>
      cases h
      exact ⟨id, id⟩
  | readingChain =>
      dsimp only at h
      split at h
      · split at h <;> cases h
        exact ⟨id, id⟩
      · cases h
  | readingState =>
      dsimp only at h
      split at h
      · split at h
        · split at h <;> cases h
          exact ⟨id, id⟩
        · cases h
      · cases h
  | generating =>
      dsimp only at h
      split at h
      · split at h
        · cases h
        · split at h <;> cases h
          exact ⟨id, id⟩
      · cases h
  | finished => cases h

/-- **The two stages are reached in two ways.** -/
theorem Stage.target_cases {stage : Stage} (h : (stage.next e d).target = some stage') :
    stage'.Plain ∨
      (∃ block rest newHashes, stage = .networkWorker (.blocks (block :: rest) newHashes) ∧
        d.blockchain.getBlock block.hash = none) ∨
      ∃ operatingState genesisBlock parentBlock block,
        stage = .miner (.lockMempool operatingState genesisBlock parentBlock block) := by
  cases stage with
  | networkWorker stage =>
      rcases WorkerStage.target_cases h with hplain | ⟨block, rest, newHashes, rfl, hnone⟩
      · exact Or.inl hplain
      · exact Or.inr (Or.inl ⟨block, rest, newHashes, rfl, hnone⟩)
  | miner stage =>
      rcases MinerStage.target_cases h with hplain | ⟨state, genesis, parent, block, rfl⟩
      · exact Or.inl hplain
      · exact Or.inr (Or.inr ⟨state, genesis, parent, block, rfl⟩)
  | minerWorker stage => exact Or.inl (MinerWorkerStage.target_plain h)
  | api stage => exact Or.inl (ApiStage.target_plain h)
  | dead => cases h

/-- A worker at a block that is not stored goes to lock the mempool. -/
theorem WorkerStage.next_blocks {block : Block} {rest : List Block} {newHashes : List H256}
    (h : d.blockchain.getBlock block.hash = none) :
    (WorkerStage.blocks (block :: rest) newHashes).next e d =
      .go d (.networkWorker (.lockMempool block rest newHashes)) := by
  unfold next
  dsimp only
  rw [h]

/-- The miner that has taken the mempool goes to lock the store. -/
theorem MinerStage.next_lockMempool {operatingState : OperatingState}
    {genesisBlock parentBlock block : Block}
    (h : (MinerStage.lockMempool operatingState genesisBlock parentBlock block).next e d ≠
      .blocked) : ∃ txData,
    (MinerStage.lockMempool operatingState genesisBlock parentBlock block).next e d =
      .go d (.miner (.lockBlockchain operatingState genesisBlock parentBlock block txData)) := by
  unfold next at h ⊢
  dsimp only at h ⊢
  split at h
  · split at h
    · rename_i horder
      rw [if_pos horder]
      exact ⟨_, rfl⟩
    · exact absurd rfl h
  · exact absurd rfl h

end Targets

namespace Threads

variable [Crypto] {numWorker : ℕ} {S S' : Threads numWorker}

/-- A worker and the miner are in the two stages of the cycle. -/
def Clash (S : Threads numWorker) : Prop :=
  (∃ t, (S.pc t).InNewBlock) ∧ ∃ t, (S.pc t).InMinedBlock

/-- **The cycle of a worker and the miner is the only one.** -/
theorem deadlocked_iff (h : S.Owned Stage.held) : threads.Deadlocked S ↔ S.Clash := by
  constructor
  · intro hdead
    by_contra hclash
    rcases not_and_or.1 hclash with hnew | hmined
    · refine Program.not_deadlocked Mutex.minerRank (fun t m hm m' hm' => ?_) hdead
      exact Stage.ordered_minerRank (fun ht => hnew ⟨t, ht⟩) m hm m' ((h t m').1 hm')
    · refine Program.not_deadlocked Mutex.workerRank (fun t m hm m' hm' => ?_) hdead
      exact Stage.ordered_workerRank (fun ht => hmined ⟨t, ht⟩) m hm m' ((h t m').1 hm')
  · rintro ⟨⟨t, ht⟩, u, hu⟩
    obtain ⟨htw, hth⟩ := ht.wants_eq
    obtain ⟨huw, huh⟩ := hu.wants_eq
    exact Program.deadlocked_of_pair ⟨_, htw, (h u _).2 huh⟩ ⟨_, huw, (h t _).2 hth⟩

/-! ### The steps that close the cycle -/

/-- The step `x` locks in order: the miner does not take the mempool while a network worker with the store
waits for it, and no network worker comes to a block that is not stored while the miner with the mempool
waits for the store. -/
def LocksInOrder (S : Threads numWorker) (x : ThreadId numWorker × Draw) : Prop :=
  match S.pc x.1 with
  | .miner (.lockMempool ..) => S.poisoned .mempool = true ∨ ∀ t, ¬ (S.pc t).InNewBlock
  | .networkWorker (.blocks (block :: _) _) =>
    (S.shared.blockchain.getBlock block.hash).isSome = true ∨ ∀ t, ¬ (S.pc t).InMinedBlock
  | _ => True

variable {x : ThreadId numWorker × Draw}

/-- The step takes up a block that is not stored. -/
def TakesUpBlock (S : Threads numWorker) (x : ThreadId numWorker × Draw) : Prop :=
  ∃ block rest newHashes, S.pc x.1 = .networkWorker (.blocks (block :: rest) newHashes) ∧
    S.shared.blockchain.getBlock block.hash = none

/-- The step takes the mempool for a mined block. -/
def TakesMempool (S : Threads numWorker) (x : ThreadId numWorker × Draw) : Prop :=
  (∃ operatingState genesisBlock parentBlock block,
    S.pc x.1 = .miner (.lockMempool operatingState genesisBlock parentBlock block)) ∧
      S.poisoned .mempool = false

theorem locksInOrder_iff : S.LocksInOrder x ↔
    (S.TakesUpBlock x → ∀ t, ¬ (S.pc t).InMinedBlock) ∧
      (S.TakesMempool x → ∀ t, ¬ (S.pc t).InNewBlock) := by
  unfold LocksInOrder
  constructor
  · intro h
    constructor
    · rintro ⟨block, rest, newHashes, hpc, hnone⟩
      simpa [hpc, hnone] using h
    · rintro ⟨⟨state, genesis, parent, block, hpc⟩, hp⟩
      simpa [hpc, hp] using h
  · rintro ⟨hnew, hmined⟩
    split
    · rename_i hpc
      by_cases hp : S.poisoned .mempool = true
      · exact Or.inl hp
      · exact Or.inr (hmined ⟨⟨_, _, _, _, hpc⟩, by simpa using hp⟩)
    · rename_i block rest newHashes hpc
      cases hb : S.shared.blockchain.getBlock block.hash with
      | some b => exact Or.inl rfl
      | none => exact Or.inr (hnew ⟨block, rest, newHashes, hpc, hb⟩)
    · trivial

/-- A worker that takes up a block that is not stored is in the one stage. -/
theorem step_takesUpBlock (hs : threads.step S x = some S') (h : S.TakesUpBlock x) :
    (S'.pc x.1).InNewBlock := by
  obtain ⟨block, rest, newHashes, hpc, hnone⟩ := h
  rcases step_pc hs with ⟨⟨m, hm, -⟩, -⟩ | ⟨-, -, hpc'⟩
  · rw [hpc] at hm
    cases hm
  · have hnext : threads.next (S.pc x.1) x.2 S.shared =
        .go S.shared (.networkWorker (.lockMempool block rest newHashes)) := by
      rw [hpc]
      exact WorkerStage.next_blocks (e := x.2) hnone
    rw [hpc', hnext]
    exact trivial

/-- The miner that takes the mempool is in the other. -/
theorem step_takesMempool (hs : threads.step S x = some S') (h : S.TakesMempool x) :
    (S'.pc x.1).InMinedBlock := by
  obtain ⟨⟨state, genesis, parent, block, hpc⟩, hp⟩ := h
  rcases step_pc hs with ⟨⟨m, hm, hpoisoned⟩, -⟩ | ⟨-, hact, hpc'⟩
  · rw [hpc] at hm
    cases hm
    rw [hp] at hpoisoned
    cases hpoisoned
  · rw [hpc] at hact
    obtain ⟨txData, hnext⟩ := MinerStage.next_lockMempool hact
    have hnext' : threads.next (S.pc x.1) x.2 S.shared =
        .go S.shared (.miner (.lockBlockchain state genesis parent block txData)) := by
      rw [hpc]
      exact hnext
    rw [hpc', hnext']
    exact trivial

/-- Any other step keeps away from both. -/
theorem step_plain (hs : threads.step S x = some S') (hnew : ¬ S.TakesUpBlock x)
    (hmined : ¬ S.TakesMempool x) : (S'.pc x.1).Plain := by
  rcases step_pc hs with ⟨-, hpc'⟩ | ⟨hp, -, hpc'⟩
  · rw [hpc']
    exact ⟨id, id⟩
  · rw [hpc']
    cases htarget : (threads.next (S.pc x.1) x.2 S.shared).target with
    | none => exact ⟨id, id⟩
    | some stage =>
        rcases Stage.target_cases htarget with hplain | h | ⟨state, genesis, parent, block, hpc⟩
        · exact hplain
        · exact absurd h hnew
        · refine absurd ⟨⟨state, genesis, parent, block, hpc⟩, hp .mempool ?_⟩ hmined
          rw [hpc]
          rfl

/-- After a step, a stage with a property is that of the thread that took it, or was there before. -/
theorem exists_pc_step (hs : threads.step S x = some S') (P : Stage → Prop) :
    (∃ t, P (S'.pc t)) ↔ P (S'.pc x.1) ∨ ∃ t, t ≠ x.1 ∧ P (S.pc t) := by
  constructor
  · rintro ⟨t, ht⟩
    by_cases htx : t = x.1
    · rw [htx] at ht
      exact Or.inl ht
    · rw [step_pc_of_ne hs htx] at ht
      exact Or.inr ⟨t, htx, ht⟩
  · rintro (h | ⟨t, htx, ht⟩)
    · exact ⟨x.1, h⟩
    · rw [← step_pc_of_ne hs htx] at ht
      exact ⟨t, ht⟩

/-- **The step lemma**: a step closes the cycle exactly when it does not lock in order. -/
theorem clash_step (hclash : ¬ S.Clash) (hs : threads.step S x = some S') :
    ¬ S'.Clash ↔ S.LocksInOrder x := by
  rw [locksInOrder_iff, Clash, exists_pc_step hs Stage.InNewBlock,
    exists_pc_step hs Stage.InMinedBlock]
  by_cases hnew : S.TakesUpBlock x
  · -- the worker comes to the one stage, and only another thread can be in the other
    have hin := step_takesUpBlock hs hnew
    have hother := hin.not_inMinedBlock
    have hmined : ¬ S.TakesMempool x := by
      rintro ⟨⟨_, _, _, _, hpc⟩, -⟩
      obtain ⟨_, _, _, hpc', -⟩ := hnew
      rw [hpc] at hpc'
      cases hpc'
    have hself : ¬ (S.pc x.1).InMinedBlock := by
      obtain ⟨_, _, _, hpc, -⟩ := hnew
      rw [hpc]
      exact id
    simp only [hin, hother, hnew, hmined, true_or, false_or, true_and, true_implies, false_implies,
      and_true]
    constructor
    · intro h t ht
      refine h ⟨t, ?_, ht⟩
      rintro rfl
      exact hself ht
    · rintro h ⟨t, -, ht⟩
      exact h t ht
  · by_cases hmined : S.TakesMempool x
    · -- the miner comes to the other stage
      have hin := step_takesMempool hs hmined
      have hother : ¬ (S'.pc x.1).InNewBlock := fun h => h.not_inMinedBlock hin
      have hself : ¬ (S.pc x.1).InNewBlock := by
        obtain ⟨⟨_, _, _, _, hpc⟩, -⟩ := hmined
        rw [hpc]
        exact id
      simp only [hin, hother, hnew, hmined, true_or, false_or, true_and, true_implies,
        false_implies, and_true]
      constructor
      · intro h t ht
        refine h ⟨t, ?_, ht⟩
        rintro rfl
        exact hself ht
      · rintro h ⟨t, -, ht⟩
        exact h t ht
    · obtain ⟨hnot, hnot'⟩ := step_plain hs hnew hmined
      simp only [hnew, hmined, hnot, hnot', false_or, false_implies, and_self, iff_true]
      rintro ⟨⟨t, -, ht⟩, u, -, hu⟩
      exact hclash ⟨⟨t, ht⟩, u, hu⟩

/-! ### Runs -/

variable {g : GenesisDraw} {tr : List (Threads numWorker × (ThreadId numWorker × Draw))}

/-- **No lock cycle, exactly when all steps lock in order.**  For any number of network workers: no state
of a run has a cycle of threads, each waiting for a mutex that the next one holds, if and only if the miner
never takes the mempool while a network worker with the store waits for it, and no network worker ever
comes to a block that is not stored while the miner with the mempool waits for the store. -/
theorem no_lock_cycle_iff (hrun : Run (init numWorker g) tr S) :
    ((∀ p ∈ tr, ¬ threads.Deadlocked p.1) ∧ ¬ threads.Deadlocked S) ↔
      ∀ p ∈ tr, p.1.LocksInOrder p.2 := by
  have hinit : ¬ threads.Deadlocked (init numWorker g) := by
    rw [deadlocked_iff (owned_of_run .nil)]
    rintro ⟨⟨t, ht⟩, -⟩
    cases t <;> exact ht
  have howned : ∀ (S : Threads numWorker) x S', S.Owned Stage.held →
      threads.step S x = some S' → S'.Owned Stage.held :=
    fun S x S' h hs => owned_step threads_annotates h hs
  have hstep : ∀ (S : Threads numWorker) x S', S.Owned Stage.held → ¬ threads.Deadlocked S →
      threads.step S x = some S' → (¬ threads.Deadlocked S' ↔ S.LocksInOrder x) := by
    intro S x S' h hdead hs
    rw [deadlocked_iff h] at hdead
    rw [deadlocked_iff (howned S x S' h hs)]
    exact clash_step hdead hs
  exact hrun.always_iff (owned_of_run .nil) howned hinit hstep

/-! ### A cycle -/

/-- The miner mines a block while a network worker takes up another one. -/
def deadlockEvents : List (ThreadId 1 × Draw) :=
  let worker := ThreadId.networkWorker 0
  [(.miner, .tau), (.miner, .order [1]), (.api 0, .request (.minerStart 0)),
    (.miner, .tau), (.miner, .order [1]), (.miner, .tau),
    (.miner, .tau), (.miner, .order [1]), (.miner, .tau),
    (.miner, .mining { timestamp := 0, merkleRoot := 0, nonce := 2, order := [] }),
    (worker, .message (.blocks [sampleBlock 1 3 2 []])), (worker, .tau), (worker, .tau),
    (.miner, .order [])]

omit [Crypto]

/-- **A cycle.**  A network worker has the store and is about to lock the mempool for a block, and the miner
has the mempool and is about to lock the store for the block it has mined. -/
theorem miner_and_worker_deadlock :
    letI := sampleCrypto
    ∃ S, Run (init 1 sampleGenesis)
        (Lts.replayTrace threads.step (init 1 sampleGenesis) deadlockEvents) S ∧
      threads.Deadlocked S := by
  let _ := sampleCrypto
  obtain ⟨S, hrun, hnew, hmined⟩ : ∃ S, Run (init 1 sampleGenesis)
      (Lts.replayTrace threads.step (init 1 sampleGenesis) deadlockEvents) S ∧
        (S.pc (.networkWorker 0)).InNewBlock ∧ (S.pc .miner).InMinedBlock :=
    @Lts.exists_run_of_replay _ _ (@threads sampleCrypto).step deadlockEvents
      (@init sampleCrypto 1 sampleGenesis)
      (fun S => (S.pc (.networkWorker 0)).InNewBlock ∧ (S.pc .miner).InMinedBlock)
      (by decide +kernel)
  exact ⟨S, hrun, (deadlocked_iff (owned_of_run hrun)).2 ⟨⟨_, hnew⟩, _, hmined⟩⟩

/-- The run up to the last step. -/
theorem no_lock_cycle_iff_worker :
    letI := sampleCrypto
    ∃ S : Threads 1,
      ((∀ p ∈ Lts.replayTrace threads.step (init 1 sampleGenesis) (deadlockEvents.take 13),
          ¬ threads.Deadlocked p.1) ∧ ¬ threads.Deadlocked S ↔
        ∀ p ∈ Lts.replayTrace threads.step (init 1 sampleGenesis) (deadlockEvents.take 13),
          LocksInOrder p.1 p.2) := by
  let _ := sampleCrypto
  obtain ⟨S, hrun, -⟩ := @Lts.exists_run_of_replay _ _ (@threads sampleCrypto).step
    (deadlockEvents.take 13) (@init sampleCrypto 1 sampleGenesis) (fun _ => True) (by decide +kernel)
  exact ⟨S, no_lock_cycle_iff hrun⟩

end Threads

end BitcoinClient
