/-
**A node: its threads and their interleavings.**

A node runs the miner thread (`src/miner/mod.rs`), the miner worker (`src/miner/worker.rs`), the
network workers (`src/network/worker.rs`), the transaction generator (`src/types/transaction.rs`)
and the API, which share the store, the mempool, the orphan buffer and the channel of finished
blocks.  `Node.step` is one step of one of these threads, and an `Event` says which one and carries
the values that the step draws: random numbers, the clock, and the iteration order of a hash map.

Where the steps are cut.  A network worker holds the mutex of the store through a whole `Blocks`
message, so the treatment of such a message is cut at each block and at each round of the orphan
search, and the mutex records how far it is (`ChainLock`): meanwhile the other threads can only do
what does not need the store.  The mining section holds the mempool throughout and the store in its
middle, and what it does before and after concerns the mempool and the channel only, so it is one
step.  A panic of a thread that holds a mutex poisons it, and from then on no step that needs the
mutex is enabled.

Main definitions:

* `BitcoinClient.getBlockTemplate`, `BitcoinClient.doGenerateRandomTransaction`;
* `BitcoinClient.Node`, `BitcoinClient.ChainLock`, `BitcoinClient.Miner`;
* `BitcoinClient.Event`, `BitcoinClient.Node.step`;
* `BitcoinClient.Node.init`, `BitcoinClient.Node.Run` — the runs of a node.
-/

import BitcoinClient.Lts
import BitcoinClient.Worker

set_option relaxedAutoImplicit false
set_option autoImplicit false

namespace BitcoinClient

variable [Crypto]

/-! ### The miner and the transaction generator -/

def maxTxPerBlock : ℕ := 300

inductive ControlSignal
  | start (lambda : UInt64)
  | update
  | exit
  deriving DecidableEq

inductive OperatingState
  | paused
  | run (lambda : UInt64)
  | shutDown
  deriving DecidableEq

/-- Where the miner thread is, with the local variables it still needs. -/
inductive MinerPc
  | start
  | loopHead (genesisBlock : Block)
  | control (genesisBlock parentBlock : Block)
  | mining (genesisBlock parentBlock : Block)
  | stopped
  deriving DecidableEq

structure Miner where
  pc : MinerPc
  operatingState : OperatingState
  controlChan : List ControlSignal
  deriving DecidableEq

omit [Crypto] in
/-- The template of the next block on `parentHash`; `none` when the length overflows. -/
def getBlockTemplate (parentBlock : Block) (parentHash : H256) (timestamp : BitVec 128)
    (merkleRoot : H256) : Option Block :=
  match checkedAdd parentBlock.length 1 with
  | none => none
  | some length =>
    some
      { header :=
          { parent := parentHash, nonce := 0, difficulty := parentBlock.getDifficulty,
            timestamp := timestamp, merkleRoot := merkleRoot }
        length := length
        data := [] }

/-- What a round of the miner draws: the clock, the Merkle root, the nonce, and the order in which
the mempool is iterated. -/
structure MiningDraw where
  timestamp : BitVec 128
  merkleRoot : H256
  nonce : UInt32
  order : List H256
  deriving DecidableEq

/-- The block of a mining round, before its transactions are filled in. -/
def MiningDraw.block (d : MiningDraw) (parentBlock : Block) : Option Block :=
  (getBlockTemplate parentBlock parentBlock.hash d.timestamp d.merkleRoot).map fun block =>
    { block with header := { block.header with nonce := d.nonce } }

/-- The first transactions of the mempool, in its iteration order. -/
def batch (mempool : Mempool) (order : List H256) : List SignedTransaction :=
  (order.filterMap fun hash => mempool.lookup hash).take maxTxPerBlock

/-- What the transaction generator draws. -/
structure TxDraw where
  randTx : UInt32
  randRx : UInt32
  value : UInt32
  signature : List UInt8
  publicKey : List UInt8
  deriving DecidableEq

/-- A transaction between two of the ten accounts of the generator; `none` when the nonce
overflows. -/
def doGenerateRandomTransaction (parentState : State) (d : TxDraw) : Option Transaction :=
  let sender := Address.fromPublicKeyBytes (toBeBytes d.randTx)
  match checkedAdd (parentState.accNonce sender) 1 with
  | none => none
  | some accountNonce =>
    some
      { sender := sender, receiver := Address.fromPublicKeyBytes (toBeBytes d.randRx),
        accountNonce := accountNonce, value := d.value }

/-! ### The state of a node -/

/-- The mutex of the store.  A network worker that holds it is either in the loop over the blocks
of its message, or in the orphan search that the new block `block` started. -/
inductive ChainLock
  | free
  | held (rest : List Block) (newHashes : List H256)
  | searching (block newBlockInserted : Block) (idxToDelete : List ℕ) (rest : List Block)
      (newHashes : List H256)
  | poisoned
  deriving DecidableEq

structure Node extends Worker where
  lock : ChainLock
  mempoolPoisoned : Bool
  finishedBlockChan : List Block
  miner : Miner
  deriving DecidableEq

inductive Event
  /-- A network worker takes a message from its channel. -/
  | message (message : Message)
  /-- The network worker that holds the store goes on. -/
  | worker
  /-- The miner reads the tip for the first time. -/
  | minerStart (order : List H256)
  /-- The miner reads the tip at the head of its loop. -/
  | minerTip (order : List H256)
  /-- The miner looks at its control channel. -/
  | minerControl (order : List H256)
  /-- The miner tries one nonce, and mines a block if the hash is small enough. -/
  | mine (draw : MiningDraw)
  /-- The miner worker inserts and broadcasts a finished block. -/
  | minerWorker
  /-- The transaction generator broadcasts a transaction. -/
  | generate (order : List H256) (draw : TxDraw)
  /-- The API or another holder of the handle of the miner sends a control signal. -/
  | signal (signal : ControlSignal)
  /-- The API broadcasts a ping. -/
  | ping
  deriving DecidableEq

namespace Node

/-- A node as `main` starts it. -/
def init (g : GenesisDraw) : Node where
  blockchain := Blockchain.new g
  orphanBuffer := []
  mempool := ∅
  server := []
  lock := .free
  mempoolPoisoned := false
  finishedBlockChan := []
  miner := { pc := .start, operatingState := .paused, controlChan := [] }

/-! ### The network workers -/

/-- The node after a computation of the network worker that holds the store. -/
def resume {α : Type} (n : Node) (x : Exec Worker α) (lock : α → ChainLock) : Node :=
  match x with
  | .done w a => { n with toWorker := w, lock := lock a }
  | .panicked w => { n with toWorker := w, lock := .poisoned }
  | .looping w => { n with toWorker := w, lock := .poisoned }

/-- One step of the network worker that holds the store: `Worker.onBlocks` and
`Worker.handleNewBlock`, cut at each block and at each round of the search. -/
def workerStep (n : Node) : Option Node :=
  match n.lock with
  | .free => none
  | .poisoned => none
  | .held [] newHashes =>
    some { n with toWorker := n.toWorker.announce .newBlockHashes newHashes, lock := .free }
  | .held (block :: rest) newHashes =>
    match n.blockchain.getBlock block.hash with
    | some _ => some { n with lock := .held rest newHashes }
    | none =>
      if n.mempoolPoisoned then some { n with lock := .poisoned }
      else
        let w := n.toWorker.removeFromMempool block
        match w.blockchain.getParentBlock block with
        | none =>
          some (n.resume (w.handleWithoutParent block)
            fun _ => .held rest (newHashes ++ [block.hash]))
        | some parentBlock =>
          some (n.resume (w.attachIfValid block parentBlock)
            fun _ => .searching block block [] rest newHashes)
  | .searching block newBlockInserted idxToDelete rest newHashes =>
    match findChild newBlockInserted.hash 0 n.orphanBuffer with
    | none =>
      some (n.resume (n.toWorker.cleanup idxToDelete)
        fun _ => .held rest (newHashes ++ [block.hash]))
    | some (idx, child) =>
      some (n.resume (n.toWorker.attachIfValid child newBlockInserted)
        fun _ => .searching block child (idxToDelete ++ [idx]) rest newHashes)

/-- A network worker takes a message.  A message that needs a mutex that is not free has to wait. -/
def messageStep (n : Node) : Message → Option Node
  | .ping nonce => some { n with server := n.server ++ [.pong nonce] }
  | .pong _ => some n
  | .newBlockHashes hashes =>
    if n.lock = .free then some { n with toWorker := n.toWorker.newBlockHashesMessage hashes }
    else none
  | .getBlocks hashes =>
    if n.lock = .free then some { n with toWorker := n.toWorker.getBlocksMessage hashes }
    else none
  | .blocks blocks =>
    if n.lock = .free then some { n with lock := .held blocks [] } else none
  | .newTransactionHashes hashes =>
    if n.mempoolPoisoned then none
    else some { n with toWorker := n.toWorker.newTransactionHashesMessage hashes }
  | .getTransactions hashes =>
    if n.mempoolPoisoned then none
    else some { n with toWorker := n.toWorker.getTransactionsMessage hashes }
  | .transactions transactions =>
    if n.mempoolPoisoned then none
    else some { n with toWorker := n.toWorker.transactionsMessage transactions }

/-! ### The miner -/

def setPc (n : Node) (pc : MinerPc) : Node := { n with miner := { n.miner with pc := pc } }

/-- The miner reads the tip, under the mutex of the store, and goes on with the tip block. -/
def readTip (n : Node) (order : List H256) (next : Block → MinerPc) : Option Node :=
  match n.lock with
  | .free =>
    if Blockchain.IterOrder n.blockchain.blocks order then
      match n.blockchain.getBlock (n.blockchain.tip order) with
      | none => some { n.setPc .stopped with lock := .poisoned }
      | some tipBlock => some (n.setPc (next tipBlock))
    else none
  | .poisoned => some (n.setPc .stopped)
  | _ => none

/-- The miner reacts to a control signal. -/
def controlStep (n : Node) (order : List H256) (genesisBlock parentBlock : Block) : Option Node :=
  match n.miner.operatingState with
  | .paused =>
    match n.miner.controlChan with
    | [] => none
    | signal :: controlChan =>
      let operatingState :=
        match signal with
        | .exit => .shutDown
        | .start i => .run i
        | .update => .paused
      some { n with miner := { pc := .loopHead genesisBlock, operatingState, controlChan } }
  | .shutDown => some (n.setPc .stopped)
  | .run lambda =>
    match n.miner.controlChan with
    | [] => some (n.setPc (.mining genesisBlock parentBlock))
    | .exit :: controlChan =>
      some { n with miner := { pc := .stopped, operatingState := .shutDown, controlChan } }
    | .start i :: controlChan =>
      some { n with miner := { pc := .mining genesisBlock parentBlock, operatingState := .run i,
                               controlChan } }
    | .update :: controlChan =>
      { n with miner := { n.miner with operatingState := .run lambda, controlChan } }.readTip order
        fun tipBlock => .mining genesisBlock tipBlock

/-- The mining section for a block with a small enough hash: the transactions are taken from the
mempool, the state after them is stored, and the block goes to the miner worker, after the genesis
block if it is a child of that. -/
def miningSection (n : Node) (order : List H256) (genesisBlock parentBlock block : Block) :
    Option Node :=
  match n.lock with
  | .free =>
    if Blockchain.IterOrder n.mempool order then
      let txData := batch n.mempool order
      let crashed := { n.setPc .stopped with lock := .poisoned, mempoolPoisoned := true }
      match n.blockchain.getBlockState parentBlock.hash with
      | none => some crashed
      | some parentState =>
        match executeTx parentState txData with
        | none => some crashed
        | some (newState, validTx) =>
          let finished := { block with data := validTx }
          let genesis := if block.getParent = genesisBlock.hash then [genesisBlock] else []
          some
            { n.setPc (.loopHead genesisBlock) with
              blockchain := n.blockchain.putState block.hash newState
              mempool := deleteTxFromMempool n.mempool txData
              finishedBlockChan := n.finishedBlockChan ++ genesis ++ [finished] }
    else none
  | .poisoned => some { n.setPc .stopped with mempoolPoisoned := true }
  | _ => none

/-- One round of mining. -/
def mineStep (n : Node) (draw : MiningDraw) (genesisBlock parentBlock : Block) : Option Node :=
  match draw.block parentBlock with
  | none => some (n.setPc .stopped)
  | some block =>
    if H256.cmp block.hash block.getDifficulty = .gt then
      some (n.setPc (.loopHead genesisBlock))
    else if n.mempoolPoisoned then some (n.setPc .stopped)
    else n.miningSection draw.order genesisBlock parentBlock block

/-- The miner worker receives a finished block, inserts it and broadcasts it. -/
def minerWorkerStep (n : Node) : Option Node :=
  match n.finishedBlockChan with
  | [] => none
  | block :: finishedBlockChan =>
    if n.lock = .free then
      match n.blockchain.insert block with
      | none => some { n with lock := .poisoned, finishedBlockChan }
      | some blockchain =>
        some { n with blockchain, finishedBlockChan, server := n.server ++ [.blocks [block]] }
    else none

/-- The transaction generator reads the state at the tip and broadcasts a transaction, signed with
a key drawn for it. -/
def generateStep (n : Node) (order : List H256) (draw : TxDraw) : Option Node :=
  if n.lock = .free ∧ Blockchain.IterOrder n.blockchain.blocks order then
    match n.blockchain.getBlockState (n.blockchain.tip order) with
    | none => some { n with lock := .poisoned }
    | some parentState =>
      match doGenerateRandomTransaction parentState draw with
      | none => none
      | some transaction =>
        if draw.randTx < 10 ∧ draw.randRx < 10 ∧ draw.value < 100 ∧
            verify transaction draw.publicKey draw.signature = true then
          let signedTx := { transaction, signature := draw.signature, publicKey := draw.publicKey }
          some { n with server := n.server ++ [.transactions [signedTx]] }
        else none
  else none

/-! ### One step of a node -/

/-- **One step of a node**; `none` when the event is not enabled. -/
def step (n : Node) : Event → Option Node
  | .message message => n.messageStep message
  | .worker => n.workerStep
  | .minerStart order =>
    match n.miner.pc with
    | .start => n.readTip order fun tipBlock => .loopHead tipBlock
    | _ => none
  | .minerTip order =>
    match n.miner.pc with
    | .loopHead genesisBlock => n.readTip order fun tipBlock => .control genesisBlock tipBlock
    | _ => none
  | .minerControl order =>
    match n.miner.pc with
    | .control genesisBlock parentBlock => n.controlStep order genesisBlock parentBlock
    | _ => none
  | .mine draw =>
    match n.miner.pc with
    | .mining genesisBlock parentBlock => n.mineStep draw genesisBlock parentBlock
    | _ => none
  | .minerWorker => n.minerWorkerStep
  | .generate order draw => n.generateStep order draw
  | .signal signal =>
    -- the sender panics when the miner has ended
    if n.miner.pc = .stopped then none
    else some { n with miner := { n.miner with controlChan := n.miner.controlChan ++ [signal] } }
  | .ping => some { n with server := n.server ++ [.ping "Test ping"] }

/-- A signal is sent to a miner that has not ended. -/
theorem step_signal {n n' : Node} {signal : ControlSignal} (h : n.step (.signal signal) = some n') :
    n.miner.pc ≠ .stopped ∧
      { n with miner := { n.miner with controlChan := n.miner.controlChan ++ [signal] } } = n' := by
  rw [step] at h
  split at h
  · cases h
  · rename_i hpc
    exact ⟨hpc, Option.some_inj.1 h⟩

/-- The runs of a node from the state `n`, with their traces. -/
abbrev Run (n : Node) : List (Node × Event) → Node → Prop :=
  Lts.Run (fun m e m' => Node.step m e = some m') n

end Node

end BitcoinClient
