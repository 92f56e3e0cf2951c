/-
**What a step can do to the store.**

Most of what is proved about a node concerns the store, the orphan buffer, the channel of finished
blocks, the mutex of the store and the position of the miner.  `Core` is that part of a node, and
`CoreStep` lists what one step can do to it: sixteen cases, each with everything the step has checked
before it writes.  `Node.core_step` proves that the list is complete, and the invariants of the
later modules are case analyses on it.

Main definitions:

* `BitcoinClient.Core`, `BitcoinClient.Node.core`;
* `BitcoinClient.AtHand` — a block is about to be checked against a parent, either because it is new
  and its parent is stored, or because the search has found it in the orphan buffer;
* `BitcoinClient.CoreStep` — the changes of a step, the mempool before it being given;
* `BitcoinClient.Node.MessageStep` — what taking a message does to the whole node;
* `BitcoinClient.Node.attached`, `BitcoinClient.Node.mined`, `BitcoinClient.Node.acceptsGenesis`,
  `BitcoinClient.Node.computed` — the block that a step attaches, mines or accepts as a genesis
  block, and the block whose state it computes.

Main results:

* `BitcoinClient.Node.core_step` — **every step of a node is one of these changes**;
* `BitcoinClient.Node.getBlockState_of_step` — where a stored state comes from;
* `BitcoinClient.Node.mempool_frame` — the steps that leave the mempool.
-/

import BitcoinClient.Node

set_option relaxedAutoImplicit false
set_option autoImplicit false

namespace BitcoinClient

variable [Crypto]

structure Core where
  chain : Blockchain
  orphans : List Block
  lock : ChainLock
  chan : List Block
  pc : MinerPc

omit [Crypto] in
/-- The part of a node that the steps are listed for. -/
def Node.core (n : Node) : Core where
  chain := n.blockchain
  orphans := n.orphanBuffer
  lock := n.lock
  chan := n.finishedBlockChan
  pc := n.miner.pc

/-- `AtHand c block parent lock`: the network worker is about to check `block` against `parent`, and
goes on with the mutex in the state `lock`. -/
inductive AtHand (c : Core) : Block → Block → ChainLock → Prop
  | direct {block parent : Block} {rest : List Block} {hs : List H256} :
      c.lock = .held (block :: rest) hs → c.chain.getBlock block.hash = none →
      c.chain.getBlock block.getParent = some parent →
      AtHand c block parent (.searching block block [] rest hs)
  | orphan {block parent child : Block} {idx : ℕ} {idxs : List ℕ} {rest : List Block}
      {hs : List H256} :
      c.lock = .searching block parent idxs rest hs →
      findChild parent.hash 0 c.orphans = some (idx, child) →
      AtHand c child parent (.searching block child (idxs ++ [idx]) rest hs)

/-- The positions of the miner after it has read the tip. -/
inductive TipRead (tipBlock : Block) : MinerPc → MinerPc → Prop
  | start : TipRead tipBlock .start (.loopHead tipBlock)
  | loopHead (g : Block) : TipRead tipBlock (.loopHead g) (.control g tipBlock)
  | update (g p : Block) : TipRead tipBlock (.control g p) (.mining g tipBlock)

/-- The positions of the miner after a step that neither reads the tip nor mines a block. -/
inductive PcMove : MinerPc → MinerPc → Prop
  | wait (g p : Block) : PcMove (.control g p) (.loopHead g)
  | run (g p : Block) : PcMove (.control g p) (.mining g p)
  | miss (g p : Block) : PcMove (.mining g p) (.loopHead g)
  | stop (pc : MinerPc) : PcMove pc .stopped

inductive CoreStep (mempool : Mempool) (c : Core) : Event → Core → Prop
  /-- The mempool, the control channel or the server only. -/
  | other {e : Event} : CoreStep mempool c e c
  | pcMove {e : Event} {pc : MinerPc} : PcMove c.pc pc → CoreStep mempool c e { c with pc }
  | readTip {e : Event} {order : List H256} {tipBlock : Block} {pc : MinerPc} :
      c.lock = .free → Blockchain.IterOrder c.chain.blocks order →
      c.chain.getBlock (c.chain.tip order) = some tipBlock → TipRead tipBlock c.pc pc →
      CoreStep mempool c e { c with pc }
  /-- A panic that writes nothing. -/
  | panic {e : Event} {pc : MinerPc} {chan : List Block} :
      (pc = c.pc ∨ pc = .stopped) → (chan = c.chan ∨ chan = c.chan.tail) →
      CoreStep mempool c e { c with lock := .poisoned, pc, chan }
  | take {bs : List Block} :
      c.lock = .free → CoreStep mempool c (.message (.blocks bs)) { c with lock := .held bs [] }
  /-- The end of a message, or a block of it that is stored already. -/
  | skip {lock : ChainLock} :
      ((∃ hs, c.lock = .held [] hs ∧ lock = .free) ∨
        ∃ block rest hs, c.lock = .held (block :: rest) hs ∧ lock = .held rest hs ∧
          (c.chain.getBlock block.hash).isSome) →
      CoreStep mempool c .worker { c with lock }
  | genesis {block : Block} {rest : List Block} {hs : List H256} :
      c.lock = .held (block :: rest) hs → c.chain.getBlock block.hash = none →
      c.chain.getBlock block.getParent = none → block.length = 1 →
      CoreStep mempool c .worker
        { c with chain := (c.chain.put block block.length).putState block.hash icoState
                 lock := .held rest (hs ++ [block.hash]) }
  | park {block : Block} {rest : List Block} {hs : List H256} :
      c.lock = .held (block :: rest) hs → c.chain.getBlock block.hash = none →
      c.chain.getBlock block.getParent = none → block.length ≠ 1 →
      CoreStep mempool c .worker
        { c with orphans := c.orphans ++ [block], lock := .held rest (hs ++ [block.hash]) }
  | reject {block parent : Block} {lock : ChainLock} :
      AtHand c block parent lock → checkBlockValidity block parent = false →
      CoreStep mempool c .worker { c with lock }
  | attach {block parent : Block} {lock : ChainLock} {parentState newState : State}
      {validTx : List SignedTransaction} {length : UInt32} :
      AtHand c block parent lock → checkBlockValidity block parent = true →
      c.chain.getBlockState block.getParent = some parentState →
      executeTx parentState block.data = some (newState, validTx) →
      Blockchain.StoredLength c.chain block length →
      CoreStep mempool c .worker
        { c with chain := (c.chain.putState block.hash newState).put block length, lock }
  /-- A panic of the insertion, when the state is stored already. -/
  | halfAttach {block parent : Block} {lock : ChainLock} {parentState newState : State}
      {validTx : List SignedTransaction} :
      AtHand c block parent lock → checkBlockValidity block parent = true →
      c.chain.getBlockState block.getParent = some parentState →
      executeTx parentState block.data = some (newState, validTx) →
      CoreStep mempool c .worker
        { c with chain := c.chain.putState block.hash newState, lock := .poisoned }
  | cleanup {block newBlockInserted : Block} {idxs : List ℕ} {rest : List Block} {hs : List H256}
      {orphans : List Block} {lock : ChainLock} :
      c.lock = .searching block newBlockInserted idxs rest hs →
      findChild newBlockInserted.hash 0 c.orphans = none →
      ((removeAll idxs c.orphans = .done orphans () ∧ lock = .held rest (hs ++ [block.hash])) ∨
        (removeAll idxs c.orphans = .panicked orphans ∧ lock = .poisoned)) →
      CoreStep mempool c .worker { c with orphans, lock }
  | mined {draw : MiningDraw} {g p block : Block} {parentState newState : State}
      {validTx : List SignedTransaction} :
      c.lock = .free → c.pc = .mining g p → draw.block p = some block →
      block.hash ≤ block.getDifficulty →
      c.chain.getBlockState p.hash = some parentState →
      executeTx parentState (batch mempool draw.order) = some (newState, validTx) →
      CoreStep mempool c (.mine draw)
        { c with chain := c.chain.putState block.hash newState
                 chan := c.chan ++ (if block.getParent = g.hash then [g] else []) ++
                   [{ block with data := validTx }]
                 pc := .loopHead g }
  | insertMined {block : Block} {chan : List Block} {length : UInt32} :
      c.lock = .free → c.chan = block :: chan → Blockchain.StoredLength c.chain block length →
      CoreStep mempool c .minerWorker { c with chain := c.chain.put block length, chan }

/-- What the network worker goes on with after the block at hand. -/
theorem AtHand.lock_eq {c : Core} {block parent : Block} {lock : ChainLock}
    (h : AtHand c block parent lock) :
    c.lock ≠ .poisoned ∧ ∃ first idxs rest hs, lock = .searching first block idxs rest hs := by
  cases h with
  | direct hlock _ _ => exact ⟨by simp [hlock], _, _, _, _, rfl⟩
  | orphan hlock _ => exact ⟨by simp [hlock], _, _, _, _, rfl⟩

/-- A poisoned mutex stays poisoned. -/
theorem CoreStep.poisoned {mempool : Mempool} {c c' : Core} {e : Event}
    (h : CoreStep mempool c e c') (hl : c.lock = .poisoned) : c'.lock = .poisoned := by
  cases h with
  | other => exact hl
  | pcMove _ => exact hl
  | panic _ _ => rfl
  | halfAttach _ _ _ _ => rfl
  | readTip hlock _ _ _ => simp [hl] at hlock
  | take hlock => simp [hl] at hlock
  | skip hlock => simp [hl] at hlock
  | genesis hlock _ _ _ => simp [hl] at hlock
  | park hlock _ _ _ => simp [hl] at hlock
  | cleanup hlock _ _ => simp [hl] at hlock
  | mined hlock _ _ _ _ _ => simp [hl] at hlock
  | insertMined hlock _ _ => simp [hl] at hlock
  | reject hat _ => exact absurd hl hat.lock_eq.1
  | attach hat _ _ _ _ => exact absurd hl hat.lock_eq.1

/-- The block that the network worker is about to check, and the block that it is checked
against. -/
def Node.atHand (n : Node) : Option (Block × Block) :=
  match n.lock with
  | .held (block :: _) _ =>
    match n.blockchain.getBlock block.hash with
    | some _ => none
    | none => (n.blockchain.getParentBlock block).map fun parent => (block, parent)
  | .searching _ newBlockInserted _ _ _ =>
    (findChild newBlockInserted.hash 0 n.orphanBuffer).map fun r => (r.2, newBlockInserted)
  | _ => none

/-- The block that a step attaches, when the attachment does not panic: a block at hand that passes
the check. -/
def Node.attached (n : Node) : Event → Option Block
  | .worker =>
    match n.atHand with
    | none => none
    | some (block, parent) => if checkBlockValidity block parent then some block else none
  | _ => none

/-- The block whose state a step computes, with the state of its parent.  A block that is mined has
the valid transactions of the batch. -/
def Node.computed (n : Node) : Event → Option (Block × State)
  | .mine draw =>
    match n.miner.pc, n.lock with
    | .mining _ parentBlock, .free => do
      let block ← draw.block parentBlock
      let parentState ← n.blockchain.getBlockState parentBlock.hash
      let (_, validTx) ← executeTx parentState (batch n.mempool draw.order)
      if block.hash ≤ block.getDifficulty then some ({ block with data := validTx }, parentState)
      else none
    | _, _ => none
  | e => do
    let block ← n.attached e
    let parentState ← n.blockchain.getBlockState block.getParent
    some (block, parentState)

/-- The block that a step mines. -/
def Node.mined (n : Node) : Event → Option Block
  | .mine draw => (n.computed (.mine draw)).map Prod.fst
  | _ => none

/-- The block that a step accepts as a genesis block. -/
def Node.acceptsGenesis (n : Node) : Event → Option Block
  | .worker =>
    match n.lock with
    | .held (block :: _) _ =>
      if n.blockchain.getBlock block.hash = none ∧ n.blockchain.getBlock block.getParent = none ∧
          block.length = 1 then some block
      else none
    | _ => none
  | _ => none

theorem Node.atHand_iff {n : Node} {block parent : Block} :
    n.atHand = some (block, parent) ↔ ∃ lock, AtHand n.core block parent lock := by
  constructor
  · intro h
    rw [Node.atHand] at h
    cases hl : n.lock with
    | free => simp [hl] at h
    | poisoned => simp [hl] at h
    | held bs hs =>
        cases bs with
        | nil => simp [hl] at h
        | cons b rest =>
            cases hb : n.blockchain.getBlock b.hash with
            | some c => simp [hl, hb] at h
            | none =>
                simp only [hl, hb, Option.map_eq_some_iff, Prod.mk.injEq] at h
                obtain ⟨parent', hpar, rfl, rfl⟩ := h
                exact ⟨_, .direct hl hb hpar⟩
    | searching b x idxs rest hs =>
        simp only [hl, Option.map_eq_some_iff, Prod.mk.injEq] at h
        obtain ⟨⟨idx, child⟩, hf, rfl, rfl⟩ := h
        exact ⟨_, .orphan hl hf⟩
  · rintro ⟨lock, h⟩
    cases h with
    | direct hlock hnew hpar =>
        have hlock' : n.lock = _ := hlock
        have hnew' : n.blockchain.getBlock block.hash = none := hnew
        have hpar' : n.blockchain.getParentBlock block = some parent := hpar
        simp [Node.atHand, hlock', hnew', hpar']
    | orphan hlock hf =>
        have hlock' : n.lock = _ := hlock
        have hf' : findChild parent.hash 0 n.orphanBuffer = _ := hf
        simp [Node.atHand, hlock', hf']

theorem Node.attached_iff {n : Node} {e : Event} {block : Block} :
    n.attached e = some block ↔ e = .worker ∧ ∃ parent lock, AtHand n.core block parent lock ∧
      checkBlockValidity block parent = true := by
  constructor
  · intro h
    rw [Node.attached.eq_def] at h
    split at h
    · cases ha : n.atHand with
      | none => simp [ha] at h
      | some x =>
          obtain ⟨b, parent⟩ := x
          simp only [ha, Option.ite_none_right_eq_some, Option.some.injEq] at h
          obtain ⟨hv, rfl⟩ := h
          obtain ⟨lock, hat⟩ := Node.atHand_iff.1 ha
          exact ⟨rfl, parent, lock, hat, hv⟩
    · simp at h
  · rintro ⟨rfl, parent, lock, hat, hv⟩
    simp [Node.attached, Node.atHand_iff.2 ⟨lock, hat⟩, hv]

theorem AtHand.attached_eq {n : Node} {block parent : Block} {lock : ChainLock}
    (h : AtHand n.core block parent lock) (hv : checkBlockValidity block parent = true) :
    n.attached .worker = some block :=
  Node.attached_iff.2 ⟨rfl, parent, lock, h, hv⟩

theorem AtHand.computed_eq {n : Node} {block parent : Block} {lock : ChainLock} {p : State}
    (h : AtHand n.core block parent lock) (hv : checkBlockValidity block parent = true)
    (hp : n.core.chain.getBlockState block.getParent = some p) :
    n.computed .worker = some (block, p) := by
  have hp' : n.blockchain.getBlockState block.getParent = some p := hp
  simp [Node.computed, h.attached_eq hv, hp']

theorem Node.computed_mine {n : Node} {draw : MiningDraw} {g parent block : Block} {p s : State}
    {v : List SignedTransaction} (hlock : n.core.lock = .free) (hpc : n.core.pc = .mining g parent)
    (hb : draw.block parent = some block) (hle : block.hash ≤ block.getDifficulty)
    (hp : n.core.chain.getBlockState parent.hash = some p)
    (he : executeTx p (batch n.mempool draw.order) = some (s, v)) :
    n.computed (.mine draw) = some ({ block with data := v }, p) := by
  have hlock' : n.lock = .free := hlock
  have hpc' : n.miner.pc = .mining g parent := hpc
  have hp' : n.blockchain.getBlockState parent.hash = some p := hp
  simp [Node.computed, hlock', hpc', hb, hp', he, hle]

/-- A block whose state is computed is attached or mined. -/
theorem Node.attached_or_mined_of_computed {n : Node} {e : Event} {b : Block} {p : State}
    (h : n.computed e = some (b, p)) : n.attached e = some b ∨ n.mined e = some b := by
  cases e with
  | mine draw =>
      refine Or.inr ?_
      rw [Node.mined, h, Option.map_some]
  | _ =>
      simp only [Node.computed, bind, Option.bind_eq_some_iff, Option.some.injEq,
        Prod.mk.injEq] at h
      obtain ⟨b', hb, p', -, rfl, -⟩ := h
      exact Or.inl hb

theorem Node.mined_iff {n : Node} {e : Event} {b : Block} :
    n.mined e = some b ↔ ∃ draw g parent block p s v, e = .mine draw ∧ n.core.lock = .free ∧
      n.core.pc = .mining g parent ∧ draw.block parent = some block ∧
      block.hash ≤ block.getDifficulty ∧ n.core.chain.getBlockState parent.hash = some p ∧
      executeTx p (batch n.mempool draw.order) = some (s, v) ∧
      b = { block with data := v } := by
  constructor
  · intro h
    cases e with
    | mine draw =>
        rw [Node.mined, Option.map_eq_some_iff] at h
        obtain ⟨⟨b', p⟩, h, rfl⟩ := h
        rw [Node.computed] at h
        split at h
        · rename_i g parent hpc hlock
          simp only [bind, Option.bind_eq_some_iff, Option.ite_none_right_eq_some,
            Option.some.injEq, Prod.mk.injEq] at h
          obtain ⟨block, hb, p', hp, ⟨s, v⟩, he, hle, hb', rfl⟩ := h
          exact ⟨draw, g, parent, block, p', s, v, rfl, hlock, hpc, hb, hle, hp, he, hb'.symm⟩
        · simp at h
    | _ => simp [Node.mined] at h
  · rintro ⟨draw, g, parent, block, p, s, v, rfl, hlock, hpc, hb, hle, hp, he, rfl⟩
    rw [Node.mined, Node.computed_mine hlock hpc hb hle hp he, Option.map_some]

theorem Node.acceptsGenesis_iff {n : Node} {e : Event} {block : Block} :
    n.acceptsGenesis e = some block ↔ e = .worker ∧ ∃ rest hs,
      n.core.lock = .held (block :: rest) hs ∧ n.core.chain.getBlock block.hash = none ∧
      n.core.chain.getBlock block.getParent = none ∧ block.length = 1 := by
  constructor
  · intro h
    rw [Node.acceptsGenesis.eq_def] at h
    split at h
    · split at h
      · rename_i b rest hs hlock
        simp only [Option.ite_none_right_eq_some, Option.some.injEq] at h
        obtain ⟨⟨hnew, hpar, hlen⟩, rfl⟩ := h
        exact ⟨rfl, rest, hs, hlock, hnew, hpar, hlen⟩
      · simp at h
    · simp at h
  · rintro ⟨rfl, rest, hs, hlock, hnew, hpar, hlen⟩
    have hlock' : n.lock = .held (block :: rest) hs := hlock
    have hnew' : n.blockchain.getBlock block.hash = none := hnew
    have hpar' : n.blockchain.getBlock block.getParent = none := hpar
    simp [Node.acceptsGenesis, hlock', hnew', hpar', hlen]

/-- The header of a mined block. -/
theorem MiningDraw.block_eq_some {draw : MiningDraw} {parent block : Block}
    (h : draw.block parent = some block) :
    checkedAdd parent.length 1 = some block.length ∧ block.data = [] ∧
      block.header =
        { parent := parent.hash, nonce := draw.nonce, difficulty := parent.getDifficulty,
          timestamp := draw.timestamp, merkleRoot := draw.merkleRoot } := by
  rw [MiningDraw.block, getBlockTemplate] at h
  cases hl : checkedAdd parent.length 1 with
  | none => simp [hl] at h
  | some length =>
      simp only [hl, Option.map_some, Option.some.injEq] at h
      rw [← h]
      exact ⟨rfl, rfl, rfl⟩

theorem MiningDraw.getParent_block {draw : MiningDraw} {parent block : Block}
    (h : draw.block parent = some block) : block.getParent = parent.hash := by
  rw [Block.getParent, (MiningDraw.block_eq_some h).2.2]

/-- **A step that mines a block**, when the mempool is not poisoned. -/
theorem Node.step_of_mined {n n' : Node} {e : Event} {b : Block} (hpool : n.mempoolPoisoned = false)
    (hmined : n.mined e = some b) (hstep : n.step e = some n') :
    ∃ draw g p parentState newState, e = .mine draw ∧ n.lock = .free ∧ n.miner.pc = .mining g p ∧
      b.getParent = p.hash ∧ checkedAdd p.length 1 = some b.length ∧
      n.blockchain.getBlockState b.getParent = some parentState ∧
      executeTx parentState (batch n.mempool draw.order) = some (newState, b.data) ∧
      n' = { n.setPc (.loopHead g) with
        blockchain := n.blockchain.putState b.hash newState
        mempool := deleteTxFromMempool n.mempool (batch n.mempool draw.order)
        finishedBlockChan :=
          n.finishedBlockChan ++ (if b.getParent = g.hash then [g] else []) ++ [b] } := by
  obtain ⟨draw, g, p, block, s, s', v, rfl, hlock, hpc, hb, hle, hs, he, rfl⟩ := mined_iff.1 hmined
  have hlock' : n.lock = .free := hlock
  have hpc' : n.miner.pc = .mining g p := hpc
  have hs' : n.blockchain.getBlockState p.hash = some s := hs
  have hgt : ¬ H256.cmp block.hash block.getDifficulty = .gt := by
    rw [H256.cmp_gt_iff, BitVec.not_lt]
    exact hle
  simp only [step, hpc', mineStep, hb, if_neg hgt, hpool, miningSection, hlock', hs', he,
    Bool.false_eq_true, if_false, Option.ite_none_right_eq_some, Option.some.injEq] at hstep
  have hparent : block.getParent = p.hash := MiningDraw.getParent_block hb
  refine ⟨draw, g, p, s, s', rfl, hlock', hpc', hparent, (MiningDraw.block_eq_some hb).1, ?_, he,
    hstep.2.symm⟩
  change n.blockchain.getBlockState block.getParent = some s
  rw [hparent, hs']

/-! ### Searching and removing -/

omit [Crypto] in
/-- The search finds a block of the buffer, a child of the hash. -/
theorem findChild_eq_some {h : H256} {i : ℕ} {child : Block} : ∀ {k : ℕ} {buffer : List Block},
    findChild h k buffer = some (i, child) →
      k ≤ i ∧ buffer[i - k]? = some child ∧ child.getParent = h := by
  intro k buffer
  induction buffer generalizing k with
  | nil => intro hf; simp [findChild] at hf
  | cons b buffer ih =>
      intro hf
      rw [findChild] at hf
      by_cases hb : b.getParent = h
      · rw [if_pos hb] at hf
        obtain ⟨rfl, rfl⟩ := Prod.mk.inj (Option.some_inj.1 hf)
        exact ⟨le_rfl, by simp, hb⟩
      · rw [if_neg hb] at hf
        obtain ⟨hk, hget, hpar⟩ := ih hf
        obtain ⟨j, rfl⟩ : ∃ j, i = k + 1 + j := ⟨i - (k + 1), by omega⟩
        refine ⟨by omega, ?_, hpar⟩
        have h₁ : k + 1 + j - (k + 1) = j := by omega
        have h₂ : k + 1 + j - k = j + 1 := by omega
        rw [h₁] at hget
        rw [h₂, List.getElem?_cons_succ, hget]

omit [Crypto] in
theorem mem_of_findChild {h : H256} {k i : ℕ} {child : Block} {buffer : List Block}
    (hf : findChild h k buffer = some (i, child)) : child ∈ buffer ∧ child.getParent = h := by
  obtain ⟨-, hget, hpar⟩ := findChild_eq_some hf
  exact ⟨List.mem_of_getElem? hget, hpar⟩

omit [Crypto] in
theorem findChild_eq_none {h : H256} : ∀ {k : ℕ} {buffer : List Block},
    findChild h k buffer = none ↔ ∀ b ∈ buffer, b.getParent ≠ h := by
  intro k buffer
  induction buffer generalizing k with
  | nil => simp [findChild]
  | cons b buffer ih =>
      rw [findChild]
      by_cases hb : b.getParent = h
      · simp [hb]
      · simp [hb, ih]

omit [Crypto] in
/-- Removing positions leaves a sublist, also when it panics half way. -/
theorem removeAll_sublist : ∀ (idxs : List ℕ) (buffer : List Block),
    (removeAll idxs buffer).state.Sublist buffer := by
  intro idxs
  induction idxs with
  | nil => intro buffer; exact List.Sublist.refl _
  | cons i idxs ih =>
      intro buffer
      rw [removeAll]
      by_cases hi : i < buffer.length
      · rw [if_pos hi]
        exact (ih _).trans (List.eraseIdx_sublist buffer i)
      · rw [if_neg hi]
        exact List.Sublist.refl _

omit [Crypto] in
theorem removeAll_ne_looping (idxs : List ℕ) (buffer b : List Block) :
    removeAll idxs buffer ≠ .looping b := by
  induction idxs generalizing buffer with
  | nil => simp [removeAll]
  | cons i idxs ih =>
      rw [removeAll]
      by_cases hi : i < buffer.length
      · rw [if_pos hi]
        exact ih _
      · rw [if_neg hi]
        simp

omit [Crypto] in
theorem subset_of_removeAll {idxs : List ℕ} {buffer orphans : List Block}
    (h : removeAll idxs buffer = .done orphans () ∨ removeAll idxs buffer = .panicked orphans) :
    ∀ b ∈ orphans, b ∈ buffer := by
  intro b hb
  have hsub := (removeAll_sublist idxs buffer).subset
  rcases h with h | h
  · rw [h] at hsub
    exact hsub hb
  · rw [h] at hsub
    exact hsub hb

/-! ### Every step is in the list -/

namespace Node

variable {n n' : Node}

omit [Crypto] in
theorem core_congr {n n' : Node} (h₁ : n'.blockchain = n.blockchain)
    (h₂ : n'.orphanBuffer = n.orphanBuffer) (h₃ : n'.lock = n.lock)
    (h₄ : n'.finishedBlockChan = n.finishedBlockChan) (h₅ : n'.miner.pc = n.miner.pc) :
    n'.core = n.core := by
  simp only [core, h₁, h₂, h₃, h₄, h₅]

/-- A block at hand is rejected or attached. -/
private theorem core_attachIfValid {block parent : Block} {lock : ChainLock} (w : Worker)
    (hchain : w.blockchain = n.blockchain) (hbuf : w.orphanBuffer = n.orphanBuffer)
    (hat : AtHand n.core block parent lock) :
    CoreStep n.mempool n.core .worker (n.resume (w.attachIfValid block parent) fun _ => lock).core := by
  rw [Worker.attachIfValid]
  cases hv : checkBlockValidity block parent with
  | false =>
      rw [if_neg (by simp)]
      have hcore : (n.resume (.done w ()) fun _ => lock).core = { n.core with lock } := by
        simp [resume, core, hchain, hbuf]
      rw [hcore]
      exact .reject hat hv
  | true =>
      rw [if_pos rfl, hchain]
      rcases Blockchain.attach_cases n.blockchain block with
        h | ⟨parentState, newState, validTx, hs, he, h | ⟨length, hlen, h⟩⟩
      · rw [h, Exec.lift_panicked]
        have hcore : (n.resume (.panicked { w with blockchain := n.blockchain } : Exec Worker Unit)
            fun _ => lock).core = { n.core with lock := .poisoned } := by
          simp [resume, core, hbuf]
        rw [hcore]
        exact .panic (Or.inl rfl) (Or.inl rfl)
      · rw [h, Exec.lift_panicked]
        have hcore : (n.resume (.panicked
            { w with blockchain := n.blockchain.putState block.hash newState } : Exec Worker Unit)
            fun _ => lock).core =
              { n.core with chain := n.blockchain.putState block.hash newState
                            lock := .poisoned } := by
          simp [resume, core, hbuf]
        rw [hcore]
        exact .halfAttach hat hv hs he
      · rw [h, Exec.lift_done]
        have hcore : (n.resume
            (.done { w with blockchain := (n.blockchain.putState block.hash newState).put block length } ())
            fun _ => lock).core =
              { n.core with chain := (n.blockchain.putState block.hash newState).put block length
                            lock := lock } := by
          simp [resume, core, hbuf]
        rw [hcore]
        exact .attach hat hv hs he hlen

private theorem core_handleWithoutParent {block : Block} {rest : List Block} {hs : List H256}
    (w : Worker) (hchain : w.blockchain = n.blockchain) (hbuf : w.orphanBuffer = n.orphanBuffer)
    (hlock : n.lock = .held (block :: rest) hs) (hnew : n.blockchain.getBlock block.hash = none)
    (hpar : n.blockchain.getBlock block.getParent = none) :
    CoreStep n.mempool n.core .worker
      (n.resume (w.handleWithoutParent block) fun _ => .held rest (hs ++ [block.hash])).core := by
  rw [Worker.handleWithoutParent]
  by_cases hlen : block.length = 1
  · have hins : w.blockchain.insert block = some (n.blockchain.put block block.length) := by
      rw [Blockchain.insert, hlen, if_neg (by decide), hchain]
    rw [if_pos hlen, hins]
    have hcore : (n.resume (.done { w with
        blockchain := (n.blockchain.put block block.length).putState block.hash icoState } ())
        fun _ => .held rest (hs ++ [block.hash])).core =
          { n.core with chain := (n.blockchain.put block block.length).putState block.hash icoState
                        lock := .held rest (hs ++ [block.hash]) } := by
      simp [resume, core, hbuf]
    rw [hcore]
    exact .genesis hlock hnew hpar hlen
  · rw [if_neg hlen]
    have hcore : (n.resume (.done { w with orphanBuffer := w.orphanBuffer ++ [block],
                                           server := w.server ++ [.getBlocks [block.getParent]] } ())
        fun _ => .held rest (hs ++ [block.hash])).core =
          { n.core with orphans := n.orphanBuffer ++ [block]
                        lock := .held rest (hs ++ [block.hash]) } := by
      simp [resume, core, hbuf, hchain]
    rw [hcore]
    exact .park hlock hnew hpar hlen

private theorem core_cleanup {block newBlockInserted : Block} {idxs : List ℕ} {rest : List Block}
    {hs : List H256} (hlock : n.lock = .searching block newBlockInserted idxs rest hs)
    (hnone : findChild newBlockInserted.hash 0 n.orphanBuffer = none) :
    CoreStep n.mempool n.core .worker
      (n.resume (n.toWorker.cleanup idxs) fun _ => .held rest (hs ++ [block.hash])).core := by
  rw [Worker.cleanup]
  cases hr : removeAll idxs n.orphanBuffer with
  | done orphans u => exact .cleanup hlock hnone (Or.inl ⟨hr, rfl⟩)
  | panicked orphans => exact .cleanup hlock hnone (Or.inr ⟨hr, rfl⟩)
  | looping orphans => exact absurd hr (removeAll_ne_looping _ _ _)

omit [Crypto] in
theorem announce_core (n : Node) (message : List H256 → Message) (hashes : List H256) :
    ({ n with toWorker := n.toWorker.announce message hashes } : Node).core = n.core := by
  rw [Worker.announce]
  split <;> rfl

private theorem core_workerStep (h : n.workerStep = some n') :
    CoreStep n.mempool n.core .worker n'.core := by
  rw [workerStep] at h
  cases hlock : n.lock with
  | free => simp [hlock] at h
  | poisoned => simp [hlock] at h
  | held blocks hs =>
      cases blocks with
      | nil =>
          simp only [hlock, Option.some.injEq] at h
          have hcore : n'.core = { n.core with lock := .free } := by
            rw [← h]
            exact congrArg (fun c : Core => { c with lock := .free })
              (announce_core n .newBlockHashes hs)
          rw [hcore]
          exact .skip (Or.inl ⟨hs, hlock, rfl⟩)
      | cons block rest =>
          simp only [hlock] at h
          cases hb : n.blockchain.getBlock block.hash with
          | some b =>
              simp only [hb, Option.some.injEq] at h
              rw [← h]
              refine .skip (Or.inr ⟨block, rest, hs, hlock, rfl, ?_⟩)
              exact Option.isSome_iff_exists.2 ⟨b, hb⟩
          | none =>
              simp only [hb] at h
              split at h
              · rw [Option.some_inj] at h
                rw [← h]
                exact .panic (Or.inl rfl) (Or.inl rfl)
              · cases hp : (n.toWorker.removeFromMempool block).blockchain.getParentBlock block with
                | none =>
                    simp only [hp, Option.some.injEq] at h
                    rw [← h]
                    exact core_handleWithoutParent _ rfl rfl hlock hb hp
                | some parent =>
                    simp only [hp, Option.some.injEq] at h
                    rw [← h]
                    exact core_attachIfValid _ rfl rfl (.direct hlock hb hp)
  | searching block newBlockInserted idxs rest hs =>
      simp only [hlock] at h
      cases hf : findChild newBlockInserted.hash 0 n.orphanBuffer with
      | none =>
          simp only [hf, Option.some.injEq] at h
          rw [← h]
          exact core_cleanup hlock hf
      | some r =>
          obtain ⟨idx, child⟩ := r
          simp only [hf, Option.some.injEq] at h
          rw [← h]
          exact core_attachIfValid _ rfl rfl (.orphan hlock hf)

theorem transactionsMessage_core (w : Worker) (txs : List SignedTransaction) :
    (w.transactionsMessage txs).blockchain = w.blockchain ∧
      (w.transactionsMessage txs).orphanBuffer = w.orphanBuffer := by
  have hloop : ∀ (txs : List SignedTransaction) (hs : List H256) (w : Worker),
      (w.onTransactions txs hs).1.blockchain = w.blockchain ∧
        (w.onTransactions txs hs).1.orphanBuffer = w.orphanBuffer := by
    intro txs
    induction txs with
    | nil => intro hs w; exact ⟨rfl, rfl⟩
    | cons tx txs ih =>
        intro hs w
        rw [Worker.onTransactions]
        split
        · exact ih _ _
        · split
          · exact ih _ _
          · exact ih _ _
  simp only [Worker.transactionsMessage, Worker.announce]
  split
  · exact hloop txs [] w
  · exact hloop txs [] w

/-- What taking a message does, and what it waits for. -/
inductive MessageStep (n : Node) : Message → Node → Prop
  | ping (nonce : String) : MessageStep n (.ping nonce) { n with server := n.server ++ [.pong nonce] }
  | pong (nonce : String) : MessageStep n (.pong nonce) n
  | newBlockHashes {hashes : List H256} : n.lock = .free → MessageStep n (.newBlockHashes hashes)
      { n with toWorker := n.toWorker.newBlockHashesMessage hashes }
  | getBlocks {hashes : List H256} : n.lock = .free → MessageStep n (.getBlocks hashes)
      { n with toWorker := n.toWorker.getBlocksMessage hashes }
  | blocks {blocks : List Block} : n.lock = .free → MessageStep n (.blocks blocks)
      { n with lock := .held blocks [] }
  | newTransactionHashes {hashes : List H256} : ¬ n.mempoolPoisoned →
      MessageStep n (.newTransactionHashes hashes)
        { n with toWorker := n.toWorker.newTransactionHashesMessage hashes }
  | getTransactions {hashes : List H256} : ¬ n.mempoolPoisoned → MessageStep n (.getTransactions hashes)
      { n with toWorker := n.toWorker.getTransactionsMessage hashes }
  | transactions {transactions : List SignedTransaction} : ¬ n.mempoolPoisoned →
      MessageStep n (.transactions transactions)
        { n with toWorker := n.toWorker.transactionsMessage transactions }

theorem messageStep_cases {message : Message} (h : n.messageStep message = some n') :
    MessageStep n message n' := by
  cases message with
  | ping nonce =>
      rw [messageStep, Option.some_inj] at h
      exact h ▸ .ping nonce
  | pong nonce =>
      rw [messageStep, Option.some_inj] at h
      exact h ▸ .pong nonce
  | newBlockHashes hashes =>
      rw [messageStep, Option.ite_none_right_eq_some, Option.some_inj] at h
      exact h.2 ▸ .newBlockHashes h.1
  | getBlocks hashes =>
      rw [messageStep, Option.ite_none_right_eq_some, Option.some_inj] at h
      exact h.2 ▸ .getBlocks h.1
  | blocks blocks =>
      rw [messageStep, Option.ite_none_right_eq_some, Option.some_inj] at h
      exact h.2 ▸ .blocks h.1
  | newTransactionHashes hashes =>
      rw [messageStep, Option.ite_none_left_eq_some, Option.some_inj] at h
      exact h.2 ▸ .newTransactionHashes h.1
  | getTransactions hashes =>
      rw [messageStep, Option.ite_none_left_eq_some, Option.some_inj] at h
      exact h.2 ▸ .getTransactions h.1
  | transactions transactions =>
      rw [messageStep, Option.ite_none_left_eq_some, Option.some_inj] at h
      exact h.2 ▸ .transactions h.1

private theorem core_messageStep {message : Message} (h : n.messageStep message = some n') :
    CoreStep n.mempool n.core (.message message) n'.core := by
  cases messageStep_cases h with
  | ping nonce => exact .other
  | pong nonce => exact .other
  | @newBlockHashes hashes =>
      rw [Worker.newBlockHashesMessage, announce_core]
      exact .other
  | @getBlocks hashes =>
      rw [Worker.getBlocksMessage]
      split <;> exact .other
  | blocks hlock => exact .take hlock
  | @newTransactionHashes hashes =>
      rw [Worker.newTransactionHashesMessage, announce_core]
      exact .other
  | @getTransactions hashes =>
      rw [Worker.getTransactionsMessage]
      split <;> exact .other
  | @transactions transactions =>
      obtain ⟨hchain, hbuf⟩ := transactionsMessage_core n.toWorker transactions
      have hcore : Node.core { n with toWorker := n.toWorker.transactionsMessage transactions } = n.core :=
        core_congr hchain hbuf rfl rfl rfl
      rw [hcore]
      exact .other

omit [Crypto] in
private theorem setPc_core (n : Node) (pc : MinerPc) : (n.setPc pc).core = { n.core with pc } := rfl

private theorem core_readTip {e : Event} {order : List H256} {next : Block → MinerPc}
    {m : Node} (hm : m.core = n.core) (h : m.readTip order next = some n')
    (hnext : ∀ b, TipRead b n.core.pc (next b)) : CoreStep n.mempool n.core e n'.core := by
  rw [readTip] at h
  have hlock : m.lock = n.core.lock := by rw [← hm]; rfl
  have hchain : m.blockchain = n.core.chain := by rw [← hm]; rfl
  cases hl : n.core.lock with
  | held rest hs => simp [hlock, hl] at h
  | searching b x idxs rest hs => simp [hlock, hl] at h
  | poisoned =>
      simp only [hlock, hl, Option.some.injEq] at h
      rw [← h, setPc_core, hm]
      exact .pcMove (.stop _)
  | free =>
      simp only [hlock, hl, hchain] at h
      split at h
      · rename_i horder
        cases ht : n.core.chain.getBlock (n.core.chain.tip order) with
        | none =>
            simp only [ht, Option.some.injEq] at h
            have hcore : n'.core = { n.core with lock := .poisoned, pc := .stopped } := by
              rw [← h, ← hm]
              rfl
            rw [hcore]
            exact .panic (Or.inr rfl) (Or.inl rfl)
        | some tipBlock =>
            simp only [ht, Option.some.injEq] at h
            rw [← h, setPc_core, hm]
            exact .readTip hl horder ht (hnext tipBlock)
      · simp at h

private theorem core_controlStep {order : List H256} {g p : Block} (hpc : n.miner.pc = .control g p)
    (h : n.controlStep order g p = some n') :
    CoreStep n.mempool n.core (.minerControl order) n'.core := by
  have hcpc : n.core.pc = .control g p := hpc
  rw [controlStep] at h
  cases hs : n.miner.operatingState with
  | paused =>
      cases hc : n.miner.controlChan with
      | nil => simp [hs, hc] at h
      | cons signal chan =>
          simp only [hs, hc, Option.some.injEq] at h
          have hcore : n'.core = { n.core with pc := .loopHead g } := by rw [← h]; rfl
          rw [hcore]
          exact .pcMove (hcpc ▸ .wait g p)
  | shutDown =>
      simp only [hs, Option.some.injEq] at h
      rw [← h, setPc_core]
      exact .pcMove (.stop _)
  | run lambda =>
      cases hc : n.miner.controlChan with
      | nil =>
          simp only [hs, hc, Option.some.injEq] at h
          rw [← h, setPc_core]
          exact .pcMove (hcpc ▸ .run g p)
      | cons signal chan =>
          cases signal with
          | start i =>
              simp only [hs, hc, Option.some.injEq] at h
              have hcore : n'.core = { n.core with pc := .mining g p } := by rw [← h]; rfl
              rw [hcore]
              exact .pcMove (hcpc ▸ .run g p)
          | exit =>
              simp only [hs, hc, Option.some.injEq] at h
              have hcore : n'.core = { n.core with pc := .stopped } := by rw [← h]; rfl
              rw [hcore]
              exact .pcMove (.stop _)
          | update =>
              simp only [hs, hc] at h
              refine core_readTip (m := { n with miner := { n.miner with
                operatingState := .run lambda, controlChan := chan } }) rfl h fun b => ?_
              rw [hcpc]
              exact .update g p

private theorem core_mineStep {draw : MiningDraw} {g p : Block} (hpc : n.miner.pc = .mining g p)
    (h : n.mineStep draw g p = some n') : CoreStep n.mempool n.core (.mine draw) n'.core := by
  have hcpc : n.core.pc = .mining g p := hpc
  rw [mineStep] at h
  cases hb : draw.block p with
  | none =>
      simp only [hb, Option.some.injEq] at h
      rw [← h, setPc_core]
      exact .pcMove (.stop _)
  | some block =>
      simp only [hb] at h
      split at h
      · rw [Option.some_inj] at h
        rw [← h, setPc_core]
        exact .pcMove (hcpc ▸ .miss g p)
      · rename_i hgt
        rw [H256.cmp_gt_iff, BitVec.not_lt] at hgt
        split at h
        · rw [Option.some_inj] at h
          rw [← h, setPc_core]
          exact .pcMove (.stop _)
        · rw [miningSection] at h
          cases hl : n.lock with
          | held rest hs => simp [hl] at h
          | searching b x idxs rest hs => simp [hl] at h
          | poisoned =>
              simp only [hl, Option.some.injEq] at h
              have hcore : n'.core = { n.core with pc := .stopped } := by rw [← h]; rfl
              rw [hcore]
              exact .pcMove (.stop _)
          | free =>
              simp only [hl] at h
              split at h
              · cases hps : n.blockchain.getBlockState p.hash with
                | none =>
                    simp only [hps, Option.some.injEq] at h
                    have hcore : n'.core = { n.core with lock := .poisoned, pc := .stopped } := by
                      rw [← h]
                      rfl
                    rw [hcore]
                    exact .panic (Or.inr rfl) (Or.inl rfl)
                | some parentState =>
                    simp only [hps] at h
                    cases he : executeTx parentState (batch n.mempool draw.order) with
                    | none =>
                        simp only [he, Option.some.injEq] at h
                        have hcore : n'.core =
                            { n.core with lock := .poisoned, pc := .stopped } := by
                          rw [← h]
                          rfl
                        rw [hcore]
                        exact .panic (Or.inr rfl) (Or.inl rfl)
                    | some r =>
                        obtain ⟨newState, validTx⟩ := r
                        simp only [he, Option.some.injEq] at h
                        rw [← h]
                        exact .mined hl hcpc hb hgt hps he
              · simp at h

/-- **Every step of a node is one of the changes of `CoreStep`.** -/
theorem core_step {e : Event} (h : n.step e = some n') : CoreStep n.mempool n.core e n'.core := by
  cases e with
  | message message => exact core_messageStep h
  | worker => exact core_workerStep h
  | minerStart order =>
      rw [step] at h
      split at h
      · rename_i hpc
        exact core_readTip rfl h fun b => (show n.core.pc = _ from hpc) ▸ .start
      · simp at h
  | minerTip order =>
      rw [step] at h
      split at h
      · rename_i g hpc
        exact core_readTip rfl h fun b => (show n.core.pc = _ from hpc) ▸ .loopHead g
      · simp at h
  | minerControl order =>
      rw [step] at h
      split at h
      · rename_i g p hpc
        exact core_controlStep hpc h
      · simp at h
  | mine draw =>
      rw [step] at h
      split at h
      · rename_i g p hpc
        exact core_mineStep hpc h
      · simp at h
  | minerWorker =>
      rw [step, minerWorkerStep] at h
      split at h
      · simp at h
      · rename_i block chan hchan
        split at h
        · rename_i hlock
          cases hi : n.blockchain.insert block with
          | none =>
              simp only [hi, Option.some.injEq] at h
              rw [← h]
              refine .panic (Or.inl rfl) (Or.inr ?_)
              rw [show n.core.chan = block :: chan from hchan, List.tail_cons]
          | some chain =>
              simp only [hi, Option.some.injEq] at h
              obtain ⟨length, hlen, rfl⟩ := Blockchain.insert_eq_some_iff.1 hi
              rw [← h]
              exact .insertMined hlock hchan hlen
        · simp at h
  | generate order draw =>
      rw [step, generateStep] at h
      split at h
      · split at h
        · rw [Option.some_inj] at h
          rw [← h]
          exact .panic (Or.inl rfl) (Or.inl rfl)
        · split at h
          · simp at h
          · split at h
            · rw [Option.some_inj] at h
              rw [← h]
              exact .other
            · simp at h
      · simp at h
  | signal signal =>
      rw [← (Node.step_signal h).2]
      exact .other
  | ping =>
      rw [step, Option.some_inj] at h
      rw [← h]
      exact .other

/-- **Where a stored state comes from**: it was stored already, or it is the state of a genesis
block, or the step has computed it from the stored state of the parent. -/
theorem getBlockState_of_step {e : Event} {h : H256} {s : State} (hstep : n.step e = some n')
    (hs : n'.blockchain.getBlockState h = some s) :
    n.blockchain.getBlockState h = some s ∨
      (s = icoState ∧ ∃ b ∈ n.acceptsGenesis e, b.hash = h) ∨
      ∃ b p v, n.computed e = some (b, p) ∧ b.hash = h ∧
        n.blockchain.getBlockState b.getParent = some p ∧ executeTx p b.data = some (s, v) := by
  have hc := core_step hstep
  have hs' : n'.core.chain.getBlockState h = some s := hs
  generalize n'.core = c' at hc hs'
  cases hc with
  | other => exact Or.inl hs'
  | pcMove _ => exact Or.inl hs'
  | readTip _ _ _ _ => exact Or.inl hs'
  | panic _ _ => exact Or.inl hs'
  | take _ => exact Or.inl hs'
  | skip _ => exact Or.inl hs'
  | park _ _ _ _ => exact Or.inl hs'
  | reject _ _ => exact Or.inl hs'
  | cleanup _ _ _ => exact Or.inl hs'
  | insertMined _ _ _ => exact Or.inl hs'
  | genesis hlock hnew hpar hlen =>
      rw [Blockchain.getBlockState_putState] at hs'
      split at hs'
      · rename_i hh
        have hgen := acceptsGenesis_iff.2 ⟨rfl, _, _, hlock, hnew, hpar, hlen⟩
        exact Or.inr (Or.inl ⟨(Option.some_inj.1 hs').symm, _, hgen, hh.symm⟩)
      · exact Or.inl hs'
  | attach hat hv hp he _ =>
      rw [Blockchain.getBlockState_put, Blockchain.getBlockState_putState] at hs'
      split at hs'
      · rename_i hh
        rw [Option.some_inj] at hs'
        exact Or.inr (Or.inr ⟨_, _, _, hat.computed_eq hv hp, hh.symm, hp, hs' ▸ he⟩)
      · exact Or.inl hs'
  | halfAttach hat hv hp he =>
      rw [Blockchain.getBlockState_putState] at hs'
      split at hs'
      · rename_i hh
        rw [Option.some_inj] at hs'
        exact Or.inr (Or.inr ⟨_, _, _, hat.computed_eq hv hp, hh.symm, hp, hs' ▸ he⟩)
      · exact Or.inl hs'
  | mined hlock hpc hb hle hp he =>
      rw [Blockchain.getBlockState_putState] at hs'
      split at hs'
      · rename_i hh
        rw [Option.some_inj] at hs'
        -- the state of the batch is the state of the published transactions
        have hv := executeTx_valid he
        rw [hs'] at hv
        have hcomp := computed_mine hlock hpc hb hle hp he
        refine Or.inr (Or.inr ⟨_, _, _, hcomp, hh.symm, ?_, hv⟩)
        rw [← MiningDraw.getParent_block hb] at hp
        exact hp
      · exact Or.inl hs'

/-! ### What a step leaves -/

omit [Crypto] in
/-- Reading the tip changes the miner and the mutex of the store only. -/
theorem readTip_frame {order : List H256} {next : Block → MinerPc}
    (h : n.readTip order next = some n') : ∃ miner lock, n' = { n with miner, lock } := by
  rw [readTip] at h
  split at h
  · split at h
    · split at h
      · exact ⟨_, _, (Option.some_inj.1 h).symm⟩
      · exact ⟨_, _, (Option.some_inj.1 h).symm⟩
    · cases h
  · exact ⟨_, _, (Option.some_inj.1 h).symm⟩
  · cases h

omit [Crypto] in
theorem controlStep_frame {order : List H256} {g p : Block}
    (h : n.controlStep order g p = some n') : ∃ miner lock, n' = { n with miner, lock } := by
  rw [controlStep] at h
  split at h
  · split at h
    · cases h
    · exact ⟨_, _, (Option.some_inj.1 h).symm⟩
  · exact ⟨_, _, (Option.some_inj.1 h).symm⟩
  · split at h
    · exact ⟨_, _, (Option.some_inj.1 h).symm⟩
    · exact ⟨_, _, (Option.some_inj.1 h).symm⟩
    · exact ⟨_, _, (Option.some_inj.1 h).symm⟩
    · obtain ⟨miner, lock, rfl⟩ := readTip_frame h
      exact ⟨miner, lock, rfl⟩

/-- The same for the steps of the miner before it mines. -/
theorem minerReads_frame {e : Event} {order : List H256}
    (he : e = .minerStart order ∨ e = .minerTip order ∨ e = .minerControl order)
    (h : n.step e = some n') : ∃ miner lock, n' = { n with miner, lock } := by
  rcases he with rfl | rfl | rfl
  · rw [step] at h
    split at h
    · exact readTip_frame h
    · cases h
  · rw [step] at h
    split at h
    · exact readTip_frame h
    · cases h
  · rw [step] at h
    split at h
    · exact controlStep_frame h
    · cases h

/-- Mining sends nothing; it takes transactions out of the mempool, and poisons its mutex together with that of
the store only. -/
theorem mine_frame {draw : MiningDraw} (h : n.step (.mine draw) = some n') :
    n'.server = n.server ∧ (∃ data, n'.mempool = deleteTxFromMempool n.mempool data) ∧
      (n'.mempoolPoisoned = n.mempoolPoisoned ∨ n'.lock = .poisoned) := by
  rw [step] at h
  split at h
  · rw [mineStep] at h
    split at h
    · rw [← Option.some_inj.1 h]
      exact ⟨rfl, ⟨[], rfl⟩, Or.inl rfl⟩
    · split at h
      · rw [← Option.some_inj.1 h]
        exact ⟨rfl, ⟨[], rfl⟩, Or.inl rfl⟩
      · split at h
        · rw [← Option.some_inj.1 h]
          exact ⟨rfl, ⟨[], rfl⟩, Or.inl rfl⟩
        · rw [miningSection] at h
          split at h
          · split at h
            · simp only at h
              split at h
              · rw [← Option.some_inj.1 h]
                exact ⟨rfl, ⟨[], rfl⟩, Or.inr rfl⟩
              · split at h
                · rw [← Option.some_inj.1 h]
                  exact ⟨rfl, ⟨[], rfl⟩, Or.inr rfl⟩
                · rw [← Option.some_inj.1 h]
                  exact ⟨rfl, ⟨_, rfl⟩, Or.inl rfl⟩
            · cases h
          · rename_i hlock
            rw [← Option.some_inj.1 h]
            exact ⟨rfl, ⟨[], rfl⟩, Or.inr hlock⟩
          · cases h
  · cases h

/-- **The mempool is left** by every step but those of the network workers and the mining section. -/
theorem mempool_frame {e : Event} (hmessage : ∀ message, e ≠ .message message) (hworker : e ≠ .worker)
    (hmine : ∀ draw, e ≠ .mine draw) (h : n.step e = some n') :
    n'.mempool = n.mempool ∧ n'.mempoolPoisoned = n.mempoolPoisoned := by
  cases e with
  | message message => exact absurd rfl (hmessage message)
  | worker => exact absurd rfl hworker
  | mine draw => exact absurd rfl (hmine draw)
  | minerStart order =>
      obtain ⟨_, _, rfl⟩ := minerReads_frame (Or.inl rfl) h
      exact ⟨rfl, rfl⟩
  | minerTip order =>
      obtain ⟨_, _, rfl⟩ := minerReads_frame (Or.inr (Or.inl rfl)) h
      exact ⟨rfl, rfl⟩
  | minerControl order =>
      obtain ⟨_, _, rfl⟩ := minerReads_frame (Or.inr (Or.inr rfl)) h
      exact ⟨rfl, rfl⟩
  | minerWorker =>
      rw [step, minerWorkerStep] at h
      split at h
      · cases h
      · split at h
        · split at h <;> (rw [← Option.some_inj.1 h]; exact ⟨rfl, rfl⟩)
        · cases h
  | generate order draw =>
      rw [step, generateStep] at h
      split at h
      · split at h
        · rw [← Option.some_inj.1 h]
          exact ⟨rfl, rfl⟩
        · split at h
          · cases h
          · split at h
            · rw [← Option.some_inj.1 h]
              exact ⟨rfl, rfl⟩
            · cases h
      · cases h
  | signal signal =>
      rw [← (Node.step_signal h).2]
      exact ⟨rfl, rfl⟩
  | ping =>
      rw [← Option.some_inj.1 h]
      exact ⟨rfl, rfl⟩

end Node

end BitcoinClient
