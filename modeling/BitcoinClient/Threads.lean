/-
**The threads of a node and their mutexes.**

The node of `BitcoinClient.Node` again, with each acquisition and each release of a mutex as a step of its
thread.  A thread is described by its *stage*, the place in its code with the local variables it still
needs.  A stage whose name starts with `lock` takes a mutex; the work of a section is done in the step that
ends it, or before the next mutex is taken inside of it.

The threads are the network workers, as many as the node was started with, the miner, the miner worker, and
one thread for each request to the API, one of which turns into the transaction generator.  The orphan
buffer is only locked under the mutex of the store, and so is the mempool when a block arrives; the miner
locks the store under the mutex of the mempool.

Main definitions:

* `BitcoinClient.Mutex`, `BitcoinClient.ThreadId`, `BitcoinClient.Shared`;
* `BitcoinClient.WorkerStage`, `BitcoinClient.MinerStage`, `BitcoinClient.MinerWorkerStage`,
  `BitcoinClient.ApiStage`, `BitcoinClient.Stage`;
* `BitcoinClient.Draw` — what a step draws;
* `BitcoinClient.threads`, `BitcoinClient.Threads.init`, `BitcoinClient.Threads.Run` — the program, the
  state in which `main` starts, and the runs.

Main results:

* `BitcoinClient.threads_annotates` — which mutexes are held at which stage;
* `BitcoinClient.Threads.owned_of_run` — the owners of the mutexes, in every run.
-/

import BitcoinClient.Locks
import BitcoinClient.LongestChain
import BitcoinClient.Node

set_option relaxedAutoImplicit false
set_option autoImplicit false

namespace BitcoinClient

variable [Crypto]

open Locks

/-! ### Threads and shared data -/

inductive Mutex
  | blockchain
  | mempool
  | orphanBuffer
  | startedTxGen
  deriving DecidableEq

/-- The threads of a node; each request to the API has a thread of its own. -/
inductive ThreadId (numWorker : ℕ)
  | networkWorker (i : Fin numWorker)
  | miner
  | minerWorker
  | api (request : ℕ)
  deriving DecidableEq

/-- The data that the threads share.  A channel is closed when the thread that receives from it has ended:
the channel of finished blocks with the miner worker, the control channel with the miner. -/
structure Shared extends Worker where
  finishedBlockChan : List Block
  finishedBlockChanClosed : Bool
  controlChan : List ControlSignal
  controlChanClosed : Bool
  startedTxGen : Bool
  deriving DecidableEq

/-- A request to the API; the three requests about the longest chain do the same to the store. -/
inductive Request
  | minerStart (lambda : UInt64)
  | txGeneratorStart
  | networkPing
  | blockchain
  | other
  deriving DecidableEq

/-- What a step draws: a message, a request, an iteration order, a mining round, or a transaction. -/
inductive Draw
  | tau
  | message (message : Message)
  | malformed
  | request (request : Request)
  | order (order : List H256)
  | chain (order : List H256) (rounds : ℕ)
  | mining (draw : MiningDraw)
  | tx (draw : TxDraw)
  deriving DecidableEq

/-! ### Stages -/

inductive WorkerStage
  | receive
  | lockFor (message : Message)
  | holding (message : Message)
  /-- In the loop over the blocks of a message. -/
  | blocks (rest : List Block) (newHashes : List H256)
  | lockMempool (block : Block) (rest : List Block) (newHashes : List H256)
  | removing (block : Block) (rest : List Block) (newHashes : List H256)
  | parentOf (block : Block) (rest : List Block) (newHashes : List H256)
  | lockOrphans (block : Block) (parentBlock : Option Block) (rest : List Block)
      (newHashes : List H256)
  | parking (block : Block) (rest : List Block) (newHashes : List H256)
  | attaching (block parentBlock : Block) (rest : List Block) (newHashes : List H256)
  | searching (block newBlockInserted : Block) (idxToDelete : List ℕ) (rest : List Block)
      (newHashes : List H256)
  deriving DecidableEq

/-- What the miner reads the tip for. -/
inductive TipUse
  | first
  | head (genesisBlock : Block)
  | update (genesisBlock : Block)
  deriving DecidableEq

inductive MinerStage
  | lockTip (use : TipUse) (operatingState : OperatingState)
  | readTip (use : TipUse) (operatingState : OperatingState)
  | control (operatingState : OperatingState) (genesisBlock parentBlock : Block)
  | mining (operatingState : OperatingState) (genesisBlock parentBlock : Block)
  | lockMempool (operatingState : OperatingState) (genesisBlock parentBlock block : Block)
  | lockBlockchain (operatingState : OperatingState) (genesisBlock parentBlock block : Block)
      (txData : List SignedTransaction)
  | executing (operatingState : OperatingState) (genesisBlock parentBlock block : Block)
      (txData : List SignedTransaction)
  | finishing (operatingState : OperatingState) (genesisBlock block : Block)
      (txData : List SignedTransaction)
  | stopped
  deriving DecidableEq

inductive MinerWorkerStage
  | receive
  | lockBlockchain (block : Block)
  | inserting (block : Block)
  | broadcasting (block : Block)
  deriving DecidableEq

inductive ApiStage
  | idle
  | lockBlockchain
  | readingChain
  | lockStarted
  | starting
  /-- The transaction generator, at the head of its loop. -/
  | lockState
  | readingState
  | generating (parentState : State)
  | finished
  deriving DecidableEq

/-- Where a thread is; a thread that has ended or panicked is dead. -/
inductive Stage
  | networkWorker (stage : WorkerStage)
  | miner (stage : MinerStage)
  | minerWorker (stage : MinerWorkerStage)
  | api (stage : ApiStage)
  | dead
  deriving DecidableEq

abbrev Acts := Act Mutex Shared Stage

/-- The act of a thread after a computation of a network worker; a computation that does not return keeps
the thread where it is. -/
def Shared.afterwards {α : Type} (d : Shared) (x : Exec Worker α) (act : Shared → Acts) : Acts :=
  match x with
  | .done w _ => act { d with toWorker := w }
  | .panicked w => .panic { d with toWorker := w }
  | .looping _ => .blocked

/-! ### The network workers -/

/-- The mutex that the treatment of a message takes first. -/
def Message.mutex : Message → Option Mutex
  | .ping _ | .pong _ => none
  | .newBlockHashes _ | .getBlocks _ | .blocks _ => some .blockchain
  | .newTransactionHashes _ | .getTransactions _ | .transactions _ => some .mempool

def WorkerStage.wants : WorkerStage → Option Mutex
  | .lockFor message => message.mutex
  | .lockMempool .. => some .mempool
  | .lockOrphans .. => some .orphanBuffer
  | _ => none

def WorkerStage.next (stage : WorkerStage) (e : Draw) (d : Shared) : Acts :=
  match stage with
  | .receive =>
    match e with
    | .message (.ping nonce) =>
      .go { d with server := d.server ++ [.pong nonce] } (.networkWorker .receive)
    | .message (.pong _) => .go d (.networkWorker .receive)
    | .message message => .go d (.networkWorker (.lockFor message))
    | .malformed => .panic d
    | _ => .blocked
  | .lockFor message =>
    match message with
    | .ping _ | .pong _ => .blocked
    | .blocks received => .go d (.networkWorker (.blocks received []))
    | message => .go d (.networkWorker (.holding message))
  | .holding message =>
    match message with
    | .newBlockHashes hashes =>
      .release .blockchain { d with toWorker := d.toWorker.newBlockHashesMessage hashes }
        (.networkWorker .receive)
    | .getBlocks hashes =>
      .release .blockchain { d with toWorker := d.toWorker.getBlocksMessage hashes }
        (.networkWorker .receive)
    | .newTransactionHashes hashes =>
      .release .mempool { d with toWorker := d.toWorker.newTransactionHashesMessage hashes }
        (.networkWorker .receive)
    | .getTransactions hashes =>
      .release .mempool { d with toWorker := d.toWorker.getTransactionsMessage hashes }
        (.networkWorker .receive)
    | .transactions transactions =>
      .release .mempool { d with toWorker := d.toWorker.transactionsMessage transactions }
        (.networkWorker .receive)
    | _ => .blocked
  | .blocks [] newHashes =>
    .release .blockchain { d with toWorker := d.toWorker.announce .newBlockHashes newHashes }
      (.networkWorker .receive)
  | .blocks (block :: rest) newHashes =>
    match d.blockchain.getBlock block.hash with
    | some _ => .go d (.networkWorker (.blocks rest newHashes))
    | none => .go d (.networkWorker (.lockMempool block rest newHashes))
  | .lockMempool block rest newHashes => .go d (.networkWorker (.removing block rest newHashes))
  | .removing block rest newHashes =>
    .release .mempool { d with toWorker := d.toWorker.removeFromMempool block }
      (.networkWorker (.parentOf block rest newHashes))
  | .parentOf block rest newHashes =>
    match d.blockchain.getParentBlock block with
    | some parentBlock =>
      .go d (.networkWorker (.lockOrphans block (some parentBlock) rest newHashes))
    | none =>
      if block.length = 1 then
        d.afterwards (d.toWorker.handleWithoutParent block) fun d =>
          .go d (.networkWorker (.blocks rest (newHashes ++ [block.hash])))
      else .go d (.networkWorker (.lockOrphans block none rest newHashes))
  | .lockOrphans block parentBlock rest newHashes =>
    match parentBlock with
    | none => .go d (.networkWorker (.parking block rest newHashes))
    | some parentBlock => .go d (.networkWorker (.attaching block parentBlock rest newHashes))
  | .parking block rest newHashes =>
    d.afterwards (d.toWorker.handleWithoutParent block) fun d =>
      .release .orphanBuffer d (.networkWorker (.blocks rest (newHashes ++ [block.hash])))
  | .attaching block parentBlock rest newHashes =>
    d.afterwards (d.toWorker.attachIfValid block parentBlock) fun d =>
      .go d (.networkWorker (.searching block block [] rest newHashes))
  | .searching block newBlockInserted idxToDelete rest newHashes =>
    match findChild newBlockInserted.hash 0 d.orphanBuffer with
    | none =>
      d.afterwards (d.toWorker.cleanup idxToDelete) fun d =>
        .release .orphanBuffer d (.networkWorker (.blocks rest (newHashes ++ [block.hash])))
    | some (idx, child) =>
      d.afterwards (d.toWorker.attachIfValid child newBlockInserted) fun d =>
        .go d (.networkWorker (.searching block child (idxToDelete ++ [idx]) rest newHashes))

/-! ### The miner -/

/-- Where the miner goes on with the tip block. -/
def TipUse.stage (operatingState : OperatingState) (tipBlock : Block) : TipUse → MinerStage
  | .first => .lockTip (.head tipBlock) operatingState
  | .head genesisBlock => .control operatingState genesisBlock tipBlock
  | .update genesisBlock => .mining operatingState genesisBlock tipBlock

def MinerStage.wants : MinerStage → Option Mutex
  | .lockTip .. | .lockBlockchain .. => some .blockchain
  | .lockMempool .. => some .mempool
  | _ => none

def MinerStage.next (stage : MinerStage) (e : Draw) (d : Shared) : Acts :=
  match stage with
  | .lockTip use operatingState => .go d (.miner (.readTip use operatingState))
  | .readTip use operatingState =>
    match e with
    | .order order =>
      if Blockchain.IterOrder d.blockchain.blocks order then
        match d.blockchain.getBlock (d.blockchain.tip order) with
        | none => .panic d
        | some tipBlock => .release .blockchain d (.miner (use.stage operatingState tipBlock))
      else .blocked
    | _ => .blocked
  | .control .paused genesisBlock _ =>
    match d.controlChan with
    | [] => .blocked
    | .exit :: controlChan =>
      .go { d with controlChan } (.miner (.lockTip (.head genesisBlock) .shutDown))
    | .start i :: controlChan =>
      .go { d with controlChan } (.miner (.lockTip (.head genesisBlock) (.run i)))
    | .update :: controlChan =>
      .go { d with controlChan } (.miner (.lockTip (.head genesisBlock) .paused))
  | .control .shutDown _ _ => .go d (.miner .stopped)
  | .control (.run lambda) genesisBlock parentBlock =>
    match d.controlChan with
    | [] => .go d (.miner (.mining (.run lambda) genesisBlock parentBlock))
    | .exit :: controlChan => .go { d with controlChan } (.miner .stopped)
    | .start i :: controlChan =>
      .go { d with controlChan } (.miner (.mining (.run i) genesisBlock parentBlock))
    | .update :: controlChan =>
      .go { d with controlChan } (.miner (.lockTip (.update genesisBlock) (.run lambda)))
  | .mining operatingState genesisBlock parentBlock =>
    match e with
    | .mining draw =>
      match draw.block parentBlock with
      | none => .panic d
      | some block =>
        if H256.cmp block.hash block.getDifficulty = .gt then
          .go d (.miner (.lockTip (.head genesisBlock) operatingState))
        else .go d (.miner (.lockMempool operatingState genesisBlock parentBlock block))
    | _ => .blocked
  | .lockMempool operatingState genesisBlock parentBlock block =>
    -- the transactions are collected as soon as the mempool is locked
    match e with
    | .order order =>
      if Blockchain.IterOrder d.mempool order then
        .go d (.miner (.lockBlockchain operatingState genesisBlock parentBlock block
          (batch d.mempool order)))
      else .blocked
    | _ => .blocked
  | .lockBlockchain operatingState genesisBlock parentBlock block txData =>
    .go d (.miner (.executing operatingState genesisBlock parentBlock block txData))
  | .executing operatingState genesisBlock parentBlock block txData =>
    match d.blockchain.getBlockState parentBlock.hash with
    | none => .panic d
    | some parentState =>
      match executeTx parentState txData with
      | none => .panic d
      | some (newState, validTx) =>
        .release .blockchain { d with blockchain := d.blockchain.putState block.hash newState }
          (.miner (.finishing operatingState genesisBlock { block with data := validTx } txData))
  | .finishing operatingState genesisBlock block txData =>
    let genesis := if block.getParent = genesisBlock.hash then [genesisBlock] else []
    let d := { d with mempool := deleteTxFromMempool d.mempool txData }
    if d.finishedBlockChanClosed then .panic d
    else
      .release .mempool { d with finishedBlockChan := d.finishedBlockChan ++ genesis ++ [block] }
        (.miner (.lockTip (.head genesisBlock) operatingState))
  | .stopped => .go { d with controlChanClosed := true } .dead

/-! ### The miner worker -/

def MinerWorkerStage.wants : MinerWorkerStage → Option Mutex
  | .lockBlockchain _ => some .blockchain
  | _ => none

def MinerWorkerStage.next (stage : MinerWorkerStage) (d : Shared) : Acts :=
  match stage with
  | .receive =>
    match d.finishedBlockChan with
    | [] =>
      -- the miner has an end of both channels
      if d.controlChanClosed then .panic d else .blocked
    | block :: finishedBlockChan =>
      .go { d with finishedBlockChan } (.minerWorker (.lockBlockchain block))
  | .lockBlockchain block => .go d (.minerWorker (.inserting block))
  | .inserting block =>
    match d.blockchain.insert block with
    | none => .panic d
    | some blockchain =>
      .release .blockchain { d with blockchain := blockchain } (.minerWorker (.broadcasting block))
  | .broadcasting block =>
    .go { d with server := d.server ++ [.blocks [block]] } (.minerWorker .receive)

/-! ### The API and the transaction generator -/

def ApiStage.wants : ApiStage → Option Mutex
  | .lockBlockchain | .lockState => some .blockchain
  | .lockStarted => some .startedTxGen
  | _ => none

def ApiStage.next (stage : ApiStage) (e : Draw) (d : Shared) : Acts :=
  match stage with
  | .idle =>
    match e with
    | .request (.minerStart lambda) =>
      if d.controlChanClosed then .panic d
      else .go { d with controlChan := d.controlChan ++ [.start lambda] } (.api .finished)
    | .request .txGeneratorStart => .go d (.api .lockStarted)
    | .request .networkPing =>
      .go { d with server := d.server ++ [.ping "Test ping"] } (.api .finished)
    | .request .blockchain => .go d (.api .lockBlockchain)
    | .request .other => .go d (.api .finished)
    | _ => .blocked
  | .lockBlockchain => .go d (.api .readingChain)
  | .readingChain =>
    match e with
    | .chain order rounds =>
      if Blockchain.IterOrder d.blockchain.blocks order ∧
          (d.blockchain.allBlocksInLongestChain order rounds).isSome then
        .release .blockchain d (.api .finished)
      else .blocked
    | _ => .blocked
  | .lockStarted => .go d (.api .starting)
  | .starting =>
    if d.startedTxGen then .release .startedTxGen d (.api .finished)
    else .go { d with startedTxGen := true } (.api .lockState)
  | .lockState => .go d (.api .readingState)
  | .readingState =>
    match e with
    | .order order =>
      if Blockchain.IterOrder d.blockchain.blocks order then
        match d.blockchain.getBlockState (d.blockchain.tip order) with
        | none => .panic d
        | some parentState => .release .blockchain d (.api (.generating parentState))
      else .blocked
    | _ => .blocked
  | .generating parentState =>
    match e with
    | .tx draw =>
      match doGenerateRandomTransaction parentState draw with
      | none => .panic d
      | some transaction =>
        if draw.randTx < 10 ∧ draw.randRx < 10 ∧ draw.value < 100 ∧
            verify transaction draw.publicKey draw.signature = true then
          let signedTx := { transaction, signature := draw.signature, publicKey := draw.publicKey }
          .go { d with server := d.server ++ [.transactions [signedTx]] } (.api .lockState)
        else .blocked
    | _ => .blocked
  | .finished => .blocked

/-! ### The program -/

def Stage.wants : Stage → Option Mutex
  | .networkWorker stage => stage.wants
  | .miner stage => stage.wants
  | .minerWorker stage => stage.wants
  | .api stage => stage.wants
  | .dead => none

def Stage.next (stage : Stage) (e : Draw) (d : Shared) : Acts :=
  match stage with
  | .networkWorker stage => stage.next e d
  | .miner stage => stage.next e d
  | .minerWorker stage => stage.next d
  | .api stage => stage.next e d
  | .dead => .blocked

/-- With the miner worker, the receiver of the channel of finished blocks is dropped, and with the miner that
of the control channel. -/
def Stage.drops : Stage → Shared → Shared
  | .miner _, d => { d with controlChanClosed := true }
  | .minerWorker _, d => { d with finishedBlockChanClosed := true }
  | _, d => d

/-- **What the threads do.** -/
def threads : Program Mutex Shared Stage Draw where
  wants := Stage.wants
  next := Stage.next
  drops := Stage.drops
  dead := .dead

abbrev Threads (numWorker : ℕ) := System (ThreadId numWorker) Mutex Shared Stage

namespace Threads

/-- The threads as `main` starts them. -/
def init (numWorker : ℕ) (g : GenesisDraw) : Threads numWorker where
  shared :=
    { blockchain := Blockchain.new g, orphanBuffer := [], mempool := ∅, server := [],
      finishedBlockChan := [], finishedBlockChanClosed := false, controlChan := [],
      controlChanClosed := false, startedTxGen := false }
  pc
    | .networkWorker _ => .networkWorker .receive
    | .miner => .miner (.lockTip .first .paused)
    | .minerWorker => .minerWorker .receive
    | .api _ => .api .idle
  owner _ := none
  poisoned _ := false

/-- The runs of the threads. -/
abbrev Run {numWorker : ℕ} :=
  Lts.Run fun (S : Threads numWorker) (x : ThreadId numWorker × Draw) S' =>
    threads.step S x = some S'

end Threads

/-! ### The mutexes held at a stage -/

def WorkerStage.held : WorkerStage → Finset Mutex
  | .receive | .lockFor _ => ∅
  | .holding message => message.mutex.toFinset
  | .blocks .. | .lockMempool .. | .parentOf .. | .lockOrphans .. => {.blockchain}
  | .removing .. => {.blockchain, .mempool}
  | .parking .. | .attaching .. | .searching .. => {.blockchain, .orphanBuffer}

def MinerStage.held : MinerStage → Finset Mutex
  | .readTip .. => {.blockchain}
  | .lockBlockchain .. | .finishing .. => {.mempool}
  | .executing .. => {.mempool, .blockchain}
  | _ => ∅

def MinerWorkerStage.held : MinerWorkerStage → Finset Mutex
  | .inserting _ => {.blockchain}
  | _ => ∅

def ApiStage.held : ApiStage → Finset Mutex
  | .readingChain => {.blockchain}
  | .starting | .lockState | .generating _ => {.startedTxGen}
  | .readingState => {.startedTxGen, .blockchain}
  | _ => ∅

def Stage.held : Stage → Finset Mutex
  | .networkWorker stage => stage.held
  | .miner stage => stage.held
  | .minerWorker stage => stage.held
  | .api stage => stage.held
  | .dead => ∅

/-- The act of a thread that has the mutexes `A` keeps to the annotation. -/
abbrev KeepsHeld (A : Finset Mutex) (act : Acts) : Prop := Program.Keeps Stage.held A act

omit [Crypto] in
theorem keeps_afterwards {α : Type} {A : Finset Mutex} {act : Shared → Acts}
    (h : ∀ d, KeepsHeld A (act d)) (d : Shared) (x : Exec Worker α) : KeepsHeld A (d.afterwards x act) := by
  cases x with
  | done w a => exact h _
  | panicked w => exact .panic
  | looping w => exact .blocked

omit [Crypto] in
/-- A mutex is released. -/
theorem keeps_release {A B : Finset Mutex} {m : Mutex} {s : Shared} {stage : Stage}
    (hstage : stage.held = B) (hA : A = insert m B ∧ m ∉ B) : KeepsHeld A (.release m s stage) := by
  obtain ⟨rfl, hm⟩ := hA
  exact .release (Finset.mem_insert_self m B) (hstage.trans (Finset.erase_insert hm).symm)

theorem WorkerStage.keeps (stage : WorkerStage) (e : Draw) (d : Shared) :
    KeepsHeld (stage.held ∪ stage.wants.toFinset) (stage.next e d) := by
  unfold next
  cases stage with
  | receive =>
      dsimp only
      cases e with
      | message message => cases message <;> exact .go rfl
      | malformed => exact .panic
      | _ => exact .blocked
  | lockFor message =>
      cases message with
      | ping | pong => exact .blocked
      | _ => exact .go rfl
  | holding message =>
      cases message with
      | ping | pong | blocks => exact .blocked
      | newBlockHashes | getBlocks =>
          refine keeps_release (A := {.blockchain} ∪ ∅) (B := ∅) ?_ ?_
          · rfl
          · decide
      | newTransactionHashes | getTransactions | transactions =>
          refine keeps_release (A := {.mempool} ∪ ∅) (B := ∅) ?_ ?_
          · rfl
          · decide
  | blocks rest newHashes =>
      cases rest with
      | nil =>
          refine keeps_release (A := {.blockchain} ∪ ∅) (B := ∅) ?_ ?_
          · rfl
          · decide
      | cons block rest =>
          dsimp only
          split
          all_goals exact .go rfl
  | lockMempool block rest newHashes => exact .go rfl
  | removing block rest newHashes =>
      refine keeps_release (A := {.blockchain, .mempool} ∪ ∅) (B := {.blockchain}) ?_ ?_
      · rfl
      · decide
  | parentOf block rest newHashes =>
      dsimp only
      split
      · exact .go rfl
      · split
        · refine keeps_afterwards (fun d => ?_) _ _
          exact .go rfl
        · exact .go rfl
  | lockOrphans block parentBlock rest newHashes => cases parentBlock <;> exact .go rfl
  | parking block rest newHashes =>
      refine keeps_afterwards (fun d => ?_) _ _
      refine keeps_release (A := {.blockchain, .orphanBuffer} ∪ ∅) (B := {.blockchain}) ?_ ?_
      · rfl
      · decide
  | attaching block parentBlock rest newHashes =>
      refine keeps_afterwards (fun d => ?_) _ _
      exact .go rfl
  | searching block newBlockInserted idxToDelete rest newHashes =>
      dsimp only
      split
      · refine keeps_afterwards (fun d => ?_) _ _
        refine keeps_release (A := {.blockchain, .orphanBuffer} ∪ ∅) (B := {.blockchain}) ?_ ?_
        · rfl
        · decide
      · refine keeps_afterwards (fun d => ?_) _ _
        exact .go rfl

omit [Crypto] in
theorem TipUse.held_stage (use : TipUse) (operatingState : OperatingState) (tipBlock : Block) :
    (use.stage operatingState tipBlock).held = ∅ := by
  cases use <;> rfl

theorem MinerStage.keeps (stage : MinerStage) (e : Draw) (d : Shared) :
    KeepsHeld (stage.held ∪ stage.wants.toFinset) (stage.next e d) := by
  unfold next
  cases stage with
  | lockTip use operatingState => exact .go rfl
  | readTip use operatingState =>
      dsimp only
      split
      · split
        · split
          · exact .panic
          · refine keeps_release (A := {.blockchain} ∪ ∅) (B := ∅) ?_ ?_
            · exact TipUse.held_stage _ _ _
            · decide
        · exact .blocked
      · exact .blocked
  | control operatingState genesisBlock parentBlock =>
      cases operatingState with
      | paused | run =>
          dsimp only
          split
          all_goals first | exact .go rfl | exact .blocked
      | shutDown => exact .go rfl
  | mining operatingState genesisBlock parentBlock =>
      dsimp only
      split
      · split
        · exact .panic
        · split
          all_goals exact .go rfl
      · exact .blocked
  | lockMempool operatingState genesisBlock parentBlock block =>
      dsimp only
      split
      · split
        · exact .go rfl
        · exact .blocked
      · exact .blocked
  | lockBlockchain operatingState genesisBlock parentBlock block txData => exact .go rfl
  | executing operatingState genesisBlock parentBlock block txData =>
      dsimp only
      split
      · exact .panic
      · split
        · exact .panic
        · refine keeps_release (A := {.mempool, .blockchain} ∪ ∅) (B := {.mempool}) ?_ ?_
          · rfl
          · decide
  | finishing operatingState genesisBlock block txData =>
      dsimp only
      split
      · exact .panic
      · refine keeps_release (A := {.mempool} ∪ ∅) (B := ∅) ?_ ?_
        · rfl
        · decide
  | stopped => exact .go rfl

theorem MinerWorkerStage.keeps (stage : MinerWorkerStage) (d : Shared) :
    KeepsHeld (stage.held ∪ stage.wants.toFinset) (stage.next d) := by
  unfold next
  cases stage with
  | receive =>
      dsimp only
      split
      · split
        · exact .panic
        · exact .blocked
      · exact .go rfl
  | lockBlockchain block => exact .go rfl
  | inserting block =>
      dsimp only
      split
      · exact .panic
      · refine keeps_release (A := {.blockchain} ∪ ∅) (B := ∅) ?_ ?_
        · rfl
        · decide
  | broadcasting block => exact .go rfl

theorem ApiStage.keeps (stage : ApiStage) (e : Draw) (d : Shared) :
    KeepsHeld (stage.held ∪ stage.wants.toFinset) (stage.next e d) := by
  unfold next
  cases stage with
  | idle =>
      cases e with
      | request request =>
          cases request with
          | minerStart lambda =>
              dsimp only
              split
              · exact .panic
              · exact .go rfl
          | _ => exact .go rfl
      | _ => exact .blocked
  | lockBlockchain | lockStarted | lockState => exact .go rfl
  | readingChain =>
      dsimp only
      split
      · split
        · refine keeps_release (A := {.blockchain} ∪ ∅) (B := ∅) ?_ ?_
          · rfl
          · decide
        · exact .blocked
      · exact .blocked
  | starting =>
      dsimp only
      split
      · refine keeps_release (A := {.startedTxGen} ∪ ∅) (B := ∅) ?_ ?_
        · rfl
        · decide
      · exact .go rfl
  | readingState =>
      dsimp only
      split
      · split
        · split
          · exact .panic
          · refine keeps_release (A := {.startedTxGen, .blockchain} ∪ ∅) (B := {.startedTxGen}) ?_ ?_
            · rfl
            · decide
        · exact .blocked
      · exact .blocked
  | generating parentState =>
      dsimp only
      split
      · split
        · exact .panic
        · split
          · exact .go rfl
          · exact .blocked
      · exact .blocked
  | finished => exact .blocked

/-- **The annotation fits the threads.** -/
theorem threads_annotates : threads.Annotates Stage.held where
  dead := rfl
  next pc e d := by
    cases pc with
    | networkWorker stage => exact stage.keeps e d
    | miner stage => exact stage.keeps e d
    | minerWorker stage => exact stage.keeps d
    | api stage => exact stage.keeps e d
    | dead => exact .blocked

namespace Threads

variable {numWorker : ℕ} {g : GenesisDraw}

/-- In every run, the stages of the threads say who holds the mutexes. -/
theorem owned_of_run {tr : List (Threads numWorker × (ThreadId numWorker × Draw))}
    {S : Threads numWorker} (hrun : Run (init numWorker g) tr S) : S.Owned Stage.held := by
  refine hrun.invariant (C := fun _ _ => True) ?_ ?_ fun _ _ => trivial
  · intro t m
    cases t <;> simp [init, Stage.held, WorkerStage.held, MinerStage.held, MinerWorkerStage.held,
      ApiStage.held]
  · intro S x S' h _ hs
    exact owned_step threads_annotates h hs

/-- In every run, no mutex that a thread holds is poisoned. -/
theorem clean_of_run {tr : List (Threads numWorker × (ThreadId numWorker × Draw))}
    {S : Threads numWorker} (hrun : Run (init numWorker g) tr S) : S.Clean := by
  induction hrun with
  | nil => exact fun _ _ _ => rfl
  | snoc hrun hs ih => exact clean_step threads_annotates (owned_of_run hrun) ih hs

end Threads

end BitcoinClient
