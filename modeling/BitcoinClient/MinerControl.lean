/-
**The control of the miner.**

The miner thread (`src/miner/mod.rs`) takes control signals from a channel: it starts to mine at a `Start`,
looks at the tip again at an `Update` and ends at an `Exit`.  A thread that holds its handle puts signals
into the channel at any time; the miner looks at the channel once in each round of its loop, and waits
there only as long as it is paused.

The signals are taken in the order in which they were sent, and what the miner does is decided by
those that it has taken: it mines only while the last of the `Start` and `Exit` signals among them is
a `Start`.  A signal that is behind `k` others is taken after `k + 1` rounds of mining at most.

Main definitions:

* `BitcoinClient.OperatingState.react` — what a signal does to the operating state;
* `BitcoinClient.Node.taken`, `BitcoinClient.sentSignals`, `BitcoinClient.takenSignals`;
* `BitcoinClient.MinerStep` — what a step of a node does to its miner.

Main results:

* `BitcoinClient.minerStep_of_step` — every step is one of those listed;
* `BitcoinClient.signals_in_order` — **no signal is lost, repeated or taken out of order**, and the
  operating state is what the signals taken so far make of it;
* `BitcoinClient.mines_after_start` — **the miner mines only after a `Start` and before an `Exit`**;
* `BitcoinClient.exit_stops_mining` — **an `Exit` ends the mining after as many rounds as there are
  signals before it, and one**.
-/

import BitcoinClient.Core

set_option relaxedAutoImplicit false
set_option autoImplicit false

namespace BitcoinClient

variable [Crypto]

/-! ### Signals -/

/-- The operating state after a signal. -/
def OperatingState.react : OperatingState → ControlSignal → OperatingState
  | .shutDown, _ => .shutDown
  | _, .exit => .shutDown
  | _, .start i => .run i
  | state, .update => state

/-- The signal that an event sends. -/
def Event.sentSignal : Event → Option ControlSignal
  | .signal s => some s
  | _ => none

/-- The signal that a step takes from the channel. -/
def Node.taken (n : Node) : Event → Option ControlSignal
  | .minerControl _ => if n.miner.operatingState = .shutDown then none else n.miner.controlChan.head?
  | _ => none

/-- A round of mining. -/
def Event.isMine : Event → Bool
  | .mine _ => true
  | _ => false

def sentSignals (tr : List (Node × Event)) : List ControlSignal :=
  tr.filterMap fun x => x.2.sentSignal

def takenSignals (tr : List (Node × Event)) : List ControlSignal :=
  tr.filterMap fun x => x.1.taken x.2

def miningRounds (tr : List (Node × Event)) : ℕ := tr.countP fun x => x.2.isMine

/-- The interval that a `Start` asks for. -/
def ControlSignal.lambda : ControlSignal → Option UInt64
  | .start i => some i
  | _ => none

/-- The operating state that signals ask for: the miner ends at an `Exit`, and runs at the interval of
the last `Start`. -/
def requestedState (signals : List ControlSignal) : OperatingState :=
  if .exit ∈ signals then .shutDown
  else
    match (signals.filterMap ControlSignal.lambda).getLast? with
    | some i => .run i
    | none => .paused

namespace OperatingState

omit [Crypto] in
@[simp] theorem react_exit (state : OperatingState) : state.react .exit = .shutDown := by
  cases state <;> rfl

omit [Crypto] in
@[simp] theorem react_update (state : OperatingState) : state.react .update = state := by
  cases state <;> rfl

omit [Crypto] in
theorem react_start {state : OperatingState} (h : state ≠ .shutDown) (i : UInt64) :
    state.react (.start i) = .run i := by
  cases state with
  | shutDown => exact absurd rfl h
  | _ => rfl

end OperatingState

omit [Crypto] in
theorem requestedState_ne {signals : List ControlSignal} (h : .exit ∉ signals) :
    requestedState signals ≠ .shutDown := by
  rw [requestedState, if_neg h]
  split <;> exact nofun

omit [Crypto] in
/-- One more signal. -/
theorem requestedState_snoc (signals : List ControlSignal) (s : ControlSignal) :
    requestedState (signals ++ [s]) = (requestedState signals).react s := by
  by_cases hexit : .exit ∈ signals
  · rw [requestedState, requestedState, if_pos hexit, if_pos (List.mem_append_left _ hexit)]
    rfl
  · cases s with
    | exit => rw [OperatingState.react_exit, requestedState, if_pos (by simp)]
    | start i =>
        rw [OperatingState.react_start (requestedState_ne hexit), requestedState, if_neg (by simp [hexit])]
        simp [ControlSignal.lambda]
    | update =>
        rw [OperatingState.react_update, requestedState, requestedState, if_neg (by simp [hexit]),
          if_neg hexit]
        simp [ControlSignal.lambda]

/-! ### What a step does to the miner -/

/-- The miner is about to try a nonce. -/
def MinerPc.mines : MinerPc → Bool
  | .mining _ _ => true
  | _ => false

inductive MinerStep (m : Miner) : Event → Miner → Prop
  /-- Another thread. -/
  | other {e : Event} : e.sentSignal = none → e.isMine = false →
      (∀ order, e ≠ .minerControl order) → MinerStep m e m
  | signal (signal : ControlSignal) :
      MinerStep m (.signal signal) { m with controlChan := m.controlChan ++ [signal] }
  /-- The miner reads the tip. -/
  | read {e : Event} {pc : MinerPc} : e.sentSignal = none → e.isMine = false →
      (∀ order, e ≠ .minerControl order) → m.pc.mines = false → pc.mines = false →
      MinerStep m e { m with pc }
  /-- A signal is taken. -/
  | take (order : List H256) (pc : MinerPc) {signal : ControlSignal} {rest : List ControlSignal} :
      m.pc.mines = false → m.operatingState ≠ .shutDown → m.controlChan = signal :: rest →
      (pc.mines = true → ∃ i, m.operatingState.react signal = .run i) →
      MinerStep m (.minerControl order)
        { pc, operatingState := m.operatingState.react signal, controlChan := rest }
  /-- There is no signal. -/
  | idle {order : List H256} {i : UInt64} {pc : MinerPc} : m.pc.mines = false →
      m.operatingState = .run i → m.controlChan = [] → MinerStep m (.minerControl order) { m with pc }
  | ended {order : List H256} {pc : MinerPc} : m.pc.mines = false → m.operatingState = .shutDown →
      pc.mines = false → MinerStep m (.minerControl order) { m with pc }
  | mine {draw : MiningDraw} {pc : MinerPc} : m.pc.mines = true → pc.mines = false →
      MinerStep m (.mine draw) { m with pc }

section Steps

variable {n n' : Node}

omit [Crypto] in
theorem miner_readTip {order : List H256} {next : Block → MinerPc}
    (h : n.readTip order next = some n') :
    ∃ pc, n'.miner = { n.miner with pc } ∧ (pc = .stopped ∨ ∃ tipBlock, pc = next tipBlock) := by
  rw [Node.readTip] at h
  split at h
  · split at h
    · split at h
      · exact ⟨_, by rw [← Option.some_inj.1 h]; rfl, Or.inl rfl⟩
      · exact ⟨_, by rw [← Option.some_inj.1 h]; rfl, Or.inr ⟨_, rfl⟩⟩
    · cases h
  · exact ⟨_, by rw [← Option.some_inj.1 h]; rfl, Or.inl rfl⟩
  · cases h

omit [Crypto] in
theorem minerStep_controlStep {order : List H256} {g p : Block} (hpc : n.miner.pc = .control g p)
    (h : n.controlStep order g p = some n') : MinerStep n.miner (.minerControl order) n'.miner := by
  have hmines : n.miner.pc.mines = false := by rw [hpc]; rfl
  rw [Node.controlStep] at h
  split at h
  · rename_i hstate
    split at h
    · cases h
    · rename_i signal rest hchan
      have hne : n.miner.operatingState ≠ .shutDown := by simp [hstate]
      rw [← Option.some_inj.1 h]
      have htake := MinerStep.take order (.loopHead g) hmines hne hchan
        fun hpc => absurd hpc Bool.false_ne_true
      rw [hstate] at htake
      cases signal <;> exact htake
  · rename_i hstate
    rw [← Option.some_inj.1 h]
    exact .ended hmines hstate rfl
  · rename_i i hstate
    have hne : n.miner.operatingState ≠ .shutDown := by simp [hstate]
    split at h
    · rename_i hchan
      rw [← Option.some_inj.1 h]
      exact .idle hmines hstate hchan
    · rename_i rest hchan
      rw [← Option.some_inj.1 h]
      have htake := MinerStep.take order .stopped hmines hne hchan
        fun hpc => absurd hpc Bool.false_ne_true
      rwa [hstate] at htake
    · rename_i j rest hchan
      rw [← Option.some_inj.1 h]
      have htake := MinerStep.take order (.mining g p) hmines hne hchan
        fun _ => ⟨j, by rw [hstate]; rfl⟩
      rwa [hstate] at htake
    · rename_i rest hchan
      obtain ⟨pc, hminer, -⟩ := miner_readTip h
      rw [hminer]
      have htake := MinerStep.take order pc hmines hne hchan
        fun _ => ⟨i, by rw [hstate]; rfl⟩
      rwa [hstate] at htake

theorem miner_mineStep {draw : MiningDraw} {g p : Block} (h : n.mineStep draw g p = some n') :
    ∃ pc : MinerPc, pc.mines = false ∧ n'.miner = { n.miner with pc } := by
  rw [Node.mineStep] at h
  split at h
  · exact ⟨.stopped, rfl, by rw [← Option.some_inj.1 h]; rfl⟩
  · split at h
    · exact ⟨.loopHead g, rfl, by rw [← Option.some_inj.1 h]; rfl⟩
    · split at h
      · exact ⟨.stopped, rfl, by rw [← Option.some_inj.1 h]; rfl⟩
      · rw [Node.miningSection] at h
        split at h
        · split at h
          · dsimp only at h
            split at h
            · exact ⟨.stopped, rfl, by rw [← Option.some_inj.1 h]; rfl⟩
            · split at h
              · exact ⟨.stopped, rfl, by rw [← Option.some_inj.1 h]; rfl⟩
              · exact ⟨.loopHead g, rfl, by rw [← Option.some_inj.1 h]; rfl⟩
          · cases h
        · exact ⟨.stopped, rfl, by rw [← Option.some_inj.1 h]; rfl⟩
        · cases h

omit [Crypto] in
theorem miner_resume {α : Type} (x : Exec Worker α) (lock : α → ChainLock) :
    (n.resume x lock).miner = n.miner := by
  cases x <;> rfl

theorem miner_workerStep (h : n.workerStep = some n') : n'.miner = n.miner := by
  rw [Node.workerStep] at h
  split at h
  · cases h
  · cases h
  · rw [← Option.some_inj.1 h]
  · split at h
    · rw [← Option.some_inj.1 h]
    · split at h
      · rw [← Option.some_inj.1 h]
      · dsimp only at h
        split at h <;> rw [← Option.some_inj.1 h, miner_resume]
  · split at h <;> rw [← Option.some_inj.1 h, miner_resume]

theorem miner_messageStep {m : Message} (h : n.messageStep m = some n') : n'.miner = n.miner := by
  cases Node.messageStep_cases h <;> rfl

theorem miner_minerWorkerStep (h : n.minerWorkerStep = some n') : n'.miner = n.miner := by
  rw [Node.minerWorkerStep] at h
  split at h
  · cases h
  · split at h
    · split at h <;> rw [← Option.some_inj.1 h]
    · cases h

theorem miner_generateStep {order : List H256} {draw : TxDraw} (h : n.generateStep order draw = some n') :
    n'.miner = n.miner := by
  rw [Node.generateStep] at h
  split at h
  · split at h
    · rw [← Option.some_inj.1 h]
    · split at h
      · cases h
      · split at h
        · rw [← Option.some_inj.1 h]
        · cases h
  · cases h

/-- **What a step of a node does to its miner.** -/
theorem minerStep_of_step {e : Event} (h : n.step e = some n') : MinerStep n.miner e n'.miner := by
  cases e with
  | message m =>
      rw [miner_messageStep h]
      exact .other rfl rfl (by simp)
  | worker =>
      rw [miner_workerStep h]
      exact .other rfl rfl (by simp)
  | minerStart order =>
      rw [Node.step] at h
      split at h
      · rename_i hpc
        obtain ⟨pc, hminer, hpc'⟩ := miner_readTip h
        rw [hminer]
        refine .read rfl rfl (by simp) (by rw [hpc]; rfl) ?_
        rcases hpc' with rfl | ⟨tipBlock, rfl⟩ <;> rfl
      · cases h
  | minerTip order =>
      rw [Node.step] at h
      split at h
      · rename_i g hpc
        obtain ⟨pc, hminer, hpc'⟩ := miner_readTip h
        rw [hminer]
        refine .read rfl rfl (by simp) (by rw [hpc]; rfl) ?_
        rcases hpc' with rfl | ⟨tipBlock, rfl⟩ <;> rfl
      · cases h
  | minerControl order =>
      rw [Node.step] at h
      split at h
      · rename_i g p hpc
        exact minerStep_controlStep hpc h
      · cases h
  | mine draw =>
      rw [Node.step] at h
      split at h
      · rename_i g p hpc
        obtain ⟨pc, hpc', hminer⟩ := miner_mineStep h
        rw [hminer]
        exact .mine (by rw [hpc]; rfl) hpc'
      · cases h
  | minerWorker =>
      rw [miner_minerWorkerStep h]
      exact .other rfl rfl (by simp)
  | generate order draw =>
      rw [miner_generateStep h]
      exact .other rfl rfl (by simp)
  | signal s =>
      rw [← (Node.step_signal h).2]
      exact .signal s
  | ping =>
      rw [← Option.some_inj.1 h]
      exact .other rfl rfl (by simp)

end Steps

/-! ### Signals over a run -/

section Runs

variable {n n' : Node} {tr : List (Node × Event)}

omit [Crypto] in
theorem takenSignals_snoc (n : Node) (e : Event) :
    takenSignals (tr ++ [(n, e)]) = takenSignals tr ++ (n.taken e).toList := by
  exact Lts.Run.filterMap_concat _ tr (n, e)

omit [Crypto] in
theorem sentSignals_snoc (n : Node) (e : Event) :
    sentSignals (tr ++ [(n, e)]) = sentSignals tr ++ e.sentSignal.toList := by
  exact Lts.Run.filterMap_concat _ tr (n, e)

/-- A step takes the first signal of the channel or none, and the operating state reacts to it. -/
theorem taken_step {e : Event} (h : n.step e = some n') :
    n.miner.controlChan ++ e.sentSignal.toList = (n.taken e).toList ++ n'.miner.controlChan ∧
      ∀ signals, n.miner.operatingState = requestedState signals →
        n'.miner.operatingState = requestedState (signals ++ (n.taken e).toList) := by
  have hnone : (∀ order, e ≠ .minerControl order) → n.taken e = none := by
    intro hne
    cases e with
    | minerControl order => exact absurd rfl (hne order)
    | _ => rfl
  generalize hm : n'.miner = m'
  cases hm ▸ minerStep_of_step h with
  | other hsent _ hne => simp [hsent, hnone hne]
  | signal s => simp [Event.sentSignal, Node.taken]
  | read hsent _ hne => simp [hsent, hnone hne]
  | @take order _ s rest _ hstate hchan =>
      have htaken : n.taken (.minerControl order) = some s := by
        rw [Node.taken, if_neg hstate, hchan]
        rfl
      rw [htaken, hchan]
      refine ⟨List.append_nil _, fun signals hsignals => ?_⟩
      exact (congrArg (·.react s) hsignals).trans (requestedState_snoc signals s).symm
  | idle _ hstate hchan => simp [Event.sentSignal, Node.taken, hstate, hchan]
  | ended _ hstate => simp [Event.sentSignal, Node.taken, hstate]
  | mine => simp [Event.sentSignal, Node.taken]

/-- The miner is started, and is about to try a nonce when two more signals are sent. -/
def startSignals : List Event :=
  [.minerStart [1], .signal (.start 7), .minerTip [1], .minerControl [], .minerTip [1], .minerControl [],
    .signal .update, .signal .exit]

/-- A round of mining, and the `Update`. -/
def roundAndUpdate : List Event :=
  [.mine { timestamp := 0, merkleRoot := 0, nonce := 2, order := [] }, .minerTip [1], .minerControl [1]]

omit [Crypto] in
theorem exists_startSignals :
    letI := sampleCrypto
    ∃ n, Node.Run (Node.init sampleGenesis)
        (Lts.replayTrace Node.step (Node.init sampleGenesis) startSignals) n ∧
      n.miner.controlChan = [.update, .exit] ∧ (Lts.replay Node.step n roundAndUpdate).isSome :=
  @Lts.exists_run_of_replay _ _ (@Node.step sampleCrypto) startSignals
    (@Node.init sampleCrypto sampleGenesis)
    (fun n => n.miner.controlChan = [.update, .exit] ∧
      (Lts.replay (@Node.step sampleCrypto) n roundAndUpdate).isSome) (by decide +kernel)

/-- **No signal is lost, repeated or taken out of order**, and the operating state is the one that the
signals taken so far ask for. -/
theorem signals_in_order {g : GenesisDraw} (hrun : Node.Run (Node.init g) tr n) :
    sentSignals tr = takenSignals tr ++ n.miner.controlChan ∧
      n.miner.operatingState = requestedState (takenSignals tr) := by
  induction hrun with
  | nil => exact ⟨rfl, rfl⟩
  | @snoc tr m n e _ hstep ih =>
      obtain ⟨hsent, hstate⟩ := ih
      obtain ⟨hchan, hreact⟩ := taken_step hstep
      constructor
      · rw [sentSignals_snoc, takenSignals_snoc, hsent, List.append_assoc, hchan, List.append_assoc]
      · rw [takenSignals_snoc, hreact _ hstate]

omit [Crypto] in
/-- The two signals that were sent last are in the channel. -/
theorem signals_in_order_two :
    letI := sampleCrypto
    let tr := Lts.replayTrace Node.step (Node.init sampleGenesis) startSignals
    sentSignals tr = takenSignals tr ++ [.update, .exit] := by
  obtain ⟨n, hrun, hchan, -⟩ := exists_startSignals
  have horder := (@signals_in_order sampleCrypto _ _ _ hrun).1
  rwa [hchan] at horder

/-- The miner is about to mine only when it runs. -/
theorem run_of_mines {g : GenesisDraw} (hrun : Node.Run (Node.init g) tr n)
    (hpc : n.miner.pc.mines = true) : ∃ i, n.miner.operatingState = .run i := by
  have hinv : n.miner.pc.mines = true → ∃ i, n.miner.operatingState = .run i := by
    refine hrun.invariant (I := fun n => n.miner.pc.mines = true → ∃ i, n.miner.operatingState = .run i)
      (C := fun _ _ => True) (fun hpc => absurd hpc Bool.false_ne_true) ?_ fun _ _ => trivial
    intro m e n' hI _ hstep
    generalize hm : n'.miner = m'
    cases hm ▸ minerStep_of_step hstep with
    | other => exact hI
    | signal => exact hI
    | read _ _ _ _ hpc => exact fun h => absurd (hpc.symm.trans h) Bool.false_ne_true
    | take _ _ _ _ _ hrun => exact hrun
    | @idle _ i _ _ hstate => exact fun _ => ⟨i, hstate⟩
    | ended _ _ hpc => exact fun h => absurd (hpc.symm.trans h) Bool.false_ne_true
    | mine _ hpc => exact fun h => absurd (hpc.symm.trans h) Bool.false_ne_true
  exact hinv hpc

/-- **The miner mines only after a `Start` and before an `Exit`**, at the interval of the last `Start` that it
has taken. -/
theorem mines_after_start {g : GenesisDraw} {tr₁ tr₂ : List (Node × Event)} {draw : MiningDraw}
    (hrun : Node.Run (Node.init g) (tr₁ ++ (n, .mine draw) :: tr₂) n') :
    .exit ∉ takenSignals tr₁ ∧ ∃ i, n.miner.operatingState = .run i ∧
      ((takenSignals tr₁).filterMap ControlSignal.lambda).getLast? = some i := by
  obtain ⟨m, hrun₁, hstep, -⟩ := hrun.split
  have hmines : n.miner.pc.mines = true := by
    generalize hm : m.miner = m'
    cases hm ▸ minerStep_of_step hstep with
    | other _ hmine => cases hmine
    | read _ hmine => cases hmine
    | mine hpc => exact hpc
  obtain ⟨i, hi⟩ := run_of_mines hrun₁ hmines
  have hstate := (signals_in_order hrun₁).2
  rw [hi, requestedState] at hstate
  split at hstate
  · cases hstate
  · rename_i hexit
    refine ⟨hexit, i, hi, ?_⟩
    split at hstate
    · rename_i j hlast
      rw [hlast, OperatingState.run.inj hstate]
    · cases hstate

omit [Crypto] in
/-- A round after the `Start`, with the `Exit` still in the channel. -/
theorem mines_after_start_round :
    letI := sampleCrypto
    let tr := Lts.replayTrace Node.step (Node.init sampleGenesis) startSignals
    .exit ∉ takenSignals tr ∧
      ∃ i, ((takenSignals tr).filterMap ControlSignal.lambda).getLast? = some i := by
  obtain ⟨n, hrun, -, hround⟩ := exists_startSignals
  obtain ⟨n', hround⟩ := Option.isSome_iff_exists.1 hround
  rw [roundAndUpdate, Lts.replay, Option.bind_eq_some_iff] at hround
  obtain ⟨m, hstep, -⟩ := hround
  obtain ⟨hexit, i, -, hi⟩ := @mines_after_start sampleCrypto _ _ _ _ [] _ (hrun.snoc hstep)
  exact ⟨hexit, i, hi⟩

/-! ### The end of the mining -/

/-- An `Exit` is in the channel behind `k` other signals, or the miner has taken one; `k` counts the round
under way, too. -/
def ExitPending (k : ℕ) (m : Miner) : Prop :=
  (∃ before after, m.controlChan = before ++ .exit :: after ∧ before.length + m.pc.mines.toNat ≤ k) ∨
    (m.operatingState = .shutDown ∧ m.pc.mines = false)

omit [Crypto] in
/-- **The step lemma**: a round of mining brings the miner closer to the `Exit`. -/
theorem exitPending_step {k : ℕ} {m m' : Miner} {e : Event} (hstep : MinerStep m e m')
    (h : ExitPending k m) : (e.isMine = false ∧ ExitPending k m') ∨
      ∃ k', k = k' + 1 ∧ ExitPending k' m' := by
  rcases h with ⟨before, after, hchan, hk⟩ | ⟨hstate, hpc⟩
  · cases hstep with
    | other _ hmine => exact Or.inl ⟨hmine, Or.inl ⟨before, after, hchan, hk⟩⟩
    | signal s =>
        refine Or.inl ⟨rfl, Or.inl ⟨before, after ++ [s], ?_, hk⟩⟩
        rw [hchan, List.append_assoc, List.cons_append]
    | read _ hmine _ hpc hpc' =>
        refine Or.inl ⟨hmine, Or.inl ⟨before, after, hchan, ?_⟩⟩
        rwa [hpc', ← hpc]
    | @take _ pc s rest hpc hstate hchan' hrun =>
        refine Or.inl ⟨rfl, ?_⟩
        rw [hchan'] at hchan
        cases before with
        | nil =>
            -- the signal is the `Exit`
            obtain ⟨rfl, rfl⟩ := List.cons.inj hchan
            have hreact : m.operatingState.react .exit = .shutDown := by
              cases m.operatingState <;> rfl
            refine Or.inr ⟨hreact, ?_⟩
            cases hmines : pc.mines with
            | false => rfl
            | true =>
                obtain ⟨i, hi⟩ := hrun hmines
                rw [hreact] at hi
                cases hi
        | cons s' before =>
            obtain ⟨rfl, rfl⟩ := List.cons.inj hchan
            refine Or.inl ⟨before, after, rfl, ?_⟩
            have hle := Bool.toNat_le pc.mines
            rw [List.length_cons] at hk
            change before.length + pc.mines.toNat ≤ k
            omega
    | idle _ _ hchan' =>
        rw [hchan'] at hchan
        exact absurd hchan.symm (by simp)
    | ended hpc _ hpc' =>
        refine Or.inl ⟨rfl, Or.inl ⟨before, after, hchan, ?_⟩⟩
        rwa [hpc', ← hpc]
    | mine hpc hpc' =>
        rw [hpc, Bool.toNat_true] at hk
        refine Or.inr ⟨k - 1, by omega, Or.inl ⟨before, after, hchan, ?_⟩⟩
        rw [hpc', Bool.toNat_false]
        omega
  · cases hstep with
    | other _ hmine => exact Or.inl ⟨hmine, Or.inr ⟨hstate, hpc⟩⟩
    | signal s => exact Or.inl ⟨rfl, Or.inr ⟨hstate, hpc⟩⟩
    | read _ hmine _ _ hpc' => exact Or.inl ⟨hmine, Or.inr ⟨hstate, hpc'⟩⟩
    | take _ _ _ hstate' => exact absurd hstate hstate'
    | idle _ hstate' =>
        rw [hstate] at hstate'
        cases hstate'
    | ended _ _ hpc' => exact Or.inl ⟨rfl, Or.inr ⟨hstate, hpc'⟩⟩
    | mine hpc' => exact absurd (hpc.symm.trans hpc') Bool.false_ne_true

/-- **An `Exit` ends the mining**: from then on there are at most as many rounds as there are signals
before it in the channel, and the one under way. -/
theorem exit_stops_mining {before after : List ControlSignal} (hrun : Node.Run n tr n')
    (hexit : n.miner.controlChan = before ++ .exit :: after) :
    miningRounds tr ≤ before.length + n.miner.pc.mines.toNat := by
  have hpending : ∃ k, ExitPending k n'.miner ∧
      miningRounds tr + k ≤ before.length + n.miner.pc.mines.toNat := by
    induction hrun with
    | nil => exact ⟨_, Or.inl ⟨before, after, hexit, le_rfl⟩, by simp [miningRounds]⟩
    | @snoc tr m n' e _ hstep ih =>
        obtain ⟨k, hk, hle⟩ := ih
        rw [miningRounds, List.countP_append, ← miningRounds, List.countP_singleton]
        rcases exitPending_step (minerStep_of_step hstep) hk with ⟨hmine, hk'⟩ | ⟨k', rfl, hk'⟩
        · refine ⟨k, hk', ?_⟩
          rw [hmine, if_neg Bool.false_ne_true]
          exact hle
        · refine ⟨k', hk', ?_⟩
          split <;> omega
  obtain ⟨k, -, hle⟩ := hpending
  omega

omit [Crypto] in
/-- Behind the `Update`, with a round under way: at most two rounds. -/
theorem exit_stops_mining_two :
    letI := sampleCrypto
    ∃ n tr n', Node.Run n tr n' ∧ tr ≠ [] ∧ miningRounds tr ≤ 1 + n.miner.pc.mines.toNat := by
  obtain ⟨n, -, hchan, hround⟩ := exists_startSignals
  obtain ⟨n', hround⟩ := Option.isSome_iff_exists.1 hround
  have hrun := Lts.run_of_replay hround
  exact ⟨n, _, n', hrun, nofun,
    @exit_stops_mining sampleCrypto _ _ _ [.update] [] hrun hchan⟩

end Runs

end BitcoinClient
