/-
**Which steps crash a thread.**

A thread that panics while it holds a mutex poisons it, and from then on every `lock().unwrap()` on the
mutex panics too.  This module says exactly which steps do that.  The data is never at fault: by
`Backed`, every map that is indexed and every `Option` that is unwrapped for a stored block has its
entry.  What is left are the overflows of the `u32` additions, a position of the orphan buffer beyond
its end, and the orphan search, which goes on from a block that has just been rejected and then looks
for the state of a block that was never stored.

Main definitions:

* `BitcoinClient.Fits`, `BitcoinClient.Removable`, `BitcoinClient.Node.ParentReady` — no addition of an
  attachment overflows, the positions can be removed, and the parent of a block has its state;
* `BitcoinClient.Node.Careful` — the condition on a step;
* `BitcoinClient.Node.unwrapFails` — an `unwrap` or the indexing of a map fails in the step.

Main results:

* `BitcoinClient.Blockchain.attach_returns`, `BitcoinClient.removeAll_returns` — when the two
  computations of the network worker return;
* `BitcoinClient.poisons_iff` — **a step poisons the store if and only if it is not careful**;
* `BitcoinClient.stored_blocks_have_states`, `BitcoinClient.rejected_parent_crashes` — the invariants
  of the store, and what the careful runs are;
* `BitcoinClient.blocks_message_returns_iff`, `BitcoinClient.blocks_message_crashes` — when the
  treatment of a `Blocks` message returns.
-/

import BitcoinClient.StoredStates
import BitcoinClient.Delivery

set_option relaxedAutoImplicit false
set_option autoImplicit false

namespace BitcoinClient

variable [Crypto]

/-! ### When an attachment returns -/

/-- The successor of the length of the parent, when `insert` computes it, is a `u32`. -/
def LengthFits (c : Blockchain) (block : Block) : Prop :=
  1 < block.length → ∀ p ∈ c.getBlock block.getParent, p.length.toNat + 1 < 2 ^ 32

/-- Executing a block on the state of its parent and inserting it overflows no `u32`. -/
def Fits (c : Blockchain) (block : Block) : Prop :=
  (∀ s ∈ c.getBlockState block.getParent, ∀ tx ∈ block.data, overflows s tx = false) ∧
    LengthFits c block

omit [Crypto] in
/-- An insertion returns when the parent it needs is stored and its length has a successor. -/
theorem exists_storedLength {c : Blockchain} {block : Block} :
    (∃ length, Blockchain.StoredLength c block length) ↔ Linked c block ∧ LengthFits c block := by
  by_cases hlen : 1 < block.length
  · have hnot : ¬ block.length ≤ 1 := UInt32.not_le.2 hlen
    constructor
    · rintro ⟨length, ⟨hle, -⟩ | ⟨-, p, hp, hadd⟩⟩
      · exact absurd hle hnot
      · refine ⟨fun _ => mem_blocks_of_getBlock hp, fun _ q hq => ?_⟩
        rw [hp, Option.mem_some_iff] at hq
        rw [← hq]
        have hlt := length.toNat_lt
        rw [toNat_of_checkedAdd hadd] at hlt
        exact hlt
    · rintro ⟨hlink, hfits⟩
      obtain ⟨p, hp⟩ := mem_blocks_iff.1 (hlink hlen)
      have hlt : p.length.toNat + (1 : UInt32).toNat < 2 ^ 32 := hfits hlen p hp
      exact ⟨p.length + 1, Or.inr ⟨hlen, p, hp, by rw [checkedAdd, if_pos hlt]⟩⟩
  · exact ⟨fun _ => ⟨fun h => absurd h hlen, fun h => absurd h hlen⟩,
      fun _ => ⟨block.length, Or.inl ⟨UInt32.not_lt.1 hlen, rfl⟩⟩⟩

omit [Crypto] in
/-- The execution of a list returns when no transaction overflows. -/
theorem exists_executeTx {s : State} {l : List SignedTransaction} :
    (∃ r, executeTx s l = some r) ↔ ∀ tx ∈ l, overflows s tx = false := by
  constructor
  · rintro ⟨⟨s', v⟩, h⟩
    exact (executeTx_eq_some_iff.1 h).1
  · intro h
    exact ⟨(applyAll s s (l.filter (executable s)), l.filter (executable s)),
      executeTx_eq_some_iff.2 ⟨h, rfl, rfl⟩⟩

/-- **When an attachment returns.** -/
theorem Blockchain.attach_returns {c : Blockchain} {block : Block} :
    (c.attach block).Returns ↔ block.getParent ∈ c.blockStates ∧ Linked c block ∧ Fits c block := by
  constructor
  · rintro ⟨c', u, h⟩
    rcases attach_cases c block with hp | ⟨s, s', v, hs, he, hp | ⟨length, hlen, -⟩⟩
    · rw [hp] at h
      cases h
    · rw [hp] at h
      cases h
    · obtain ⟨hlink, hfits⟩ := exists_storedLength.1 ⟨length, hlen⟩
      refine ⟨mem_blockStates_of_getBlockState hs, hlink, fun t ht => ?_, hfits⟩
      rw [hs, Option.mem_some_iff] at ht
      rw [← ht]
      exact exists_executeTx.1 ⟨_, he⟩
  · rintro ⟨hstate, hlink, hover, hfits⟩
    obtain ⟨s, hs⟩ := mem_blockStates_iff.1 hstate
    obtain ⟨⟨s', v⟩, he⟩ := exists_executeTx.2 (hover s hs)
    obtain ⟨length, hlen⟩ := exists_storedLength.2 ⟨hlink, hfits⟩
    exact ⟨_, (), attach_eq_done hs he hlen⟩

/-! ### When the cleanup returns -/

/-- Each position is still within the buffer when those before it have been removed. -/
def Removable (idxs : List ℕ) (length : ℕ) : Prop := ∀ p ∈ idxs.zipIdx, p.1 + p.2 < length

instance (idxs : List ℕ) (length : ℕ) : Decidable (Removable idxs length) :=
  inferInstanceAs (Decidable (∀ p ∈ idxs.zipIdx, _))

omit [Crypto] in
/-- The cleanup after `k` removals. -/
private theorem removeAll_returns_from : ∀ (idxs : List ℕ) (k : ℕ) (buffer : List Block),
    (removeAll idxs buffer).Returns ↔ ∀ p ∈ idxs.zipIdx k, p.1 + p.2 < buffer.length + k := by
  intro idxs
  induction idxs with
  | nil => intro k buffer; simp [removeAll]
  | cons i idxs ih =>
      intro k buffer
      rw [removeAll, List.zipIdx_cons, List.forall_mem_cons]
      by_cases hi : i < buffer.length
      · have hlen : (buffer.eraseIdx i).length + (k + 1) = buffer.length + k := by
          rw [List.length_eraseIdx_of_lt hi]
          omega
        rw [if_pos hi, ih (k + 1), hlen]
        exact ⟨fun h => ⟨by omega, h⟩, fun h => h.2⟩
      · rw [if_neg hi]
        refine iff_of_false (Exec.not_returns_panicked _) ?_
        rintro ⟨hlt, -⟩
        omega

omit [Crypto] in
/-- **When the cleanup returns.** -/
theorem removeAll_returns {idxs : List ℕ} {buffer : List Block} :
    (removeAll idxs buffer).Returns ↔ Removable idxs buffer.length :=
  removeAll_returns_from idxs 0 buffer

/-! ### Careful steps -/

namespace Node

variable (n : Node)

/-- The parent of a block has its state: it is stored, or it has been mined and waits in the channel,
and the block keeps its own length. -/
def ParentReady (block : Block) : Prop :=
  block.getParent ∈ n.blockchain.blocks ∨
    (block.length ≤ 1 ∧ ∃ b ∈ n.finishedBlockChan, b.hash = block.getParent)

/-- The positions that the network worker is about to remove from the orphan buffer. -/
def cleansUp : Option (List ℕ) :=
  match n.lock with
  | .searching _ newBlockInserted idxToDelete _ _ =>
    match findChild newBlockInserted.hash 0 n.orphanBuffer with
    | none => some idxToDelete
    | some _ => none
  | _ => none

/-- A step of the network worker: a block at hand that passes the check has a parent with a state, and
no addition overflows; the positions visited can be removed one after the other. -/
def WorkerCareful : Prop :=
  (∀ x ∈ n.atHand, checkBlockValidity x.1 x.2 = true →
      n.ParentReady x.1 ∧ Fits n.blockchain x.1) ∧
    ∀ idxs ∈ n.cleansUp, Removable idxs n.orphanBuffer.length

/-- The state on which a mining round executes its batch. -/
def batchState (draw : MiningDraw) : Option State :=
  match n.miner.pc, n.lock with
  | .mining _ parentBlock, .free => do
    let block ← draw.block parentBlock
    if block.hash ≤ block.getDifficulty then n.blockchain.getBlockState parentBlock.hash else none
  | _, _ => none

/-- The condition on a step: that of the network worker, and no overflow in the batch of a mined block
or in the length of a block of the miner worker. -/
def Careful : Event → Prop
  | .worker => n.WorkerCareful
  | .mine draw =>
    ∀ s ∈ n.batchState draw, ∀ tx ∈ batch n.mempool draw.order, overflows s tx = false
  | .minerWorker =>
    n.lock = .free → ∀ b ∈ n.finishedBlockChan.head?, LengthFits n.blockchain b
  | _ => True

/-! ### Failing unwraps -/

/-- `blocks[&parent_hash]` in `insert`. -/
def indexFails (block : Block) : Bool :=
  1 < block.length && (n.blockchain.getBlock block.getParent).isNone

/-- `get_block_state(&block.get_parent()).unwrap()`, and then the indexing in `insert`. -/
def attachFails (block : Block) : Bool :=
  match n.blockchain.getBlockState block.getParent with
  | none => true
  | some parentState => (executeTx parentState block.data).isSome && n.indexFails block

/-- `blockchain.lock().unwrap()` and `get_block(&tip).unwrap()`. -/
def tipFails (order : List H256) : Bool :=
  n.lock = .poisoned ||
    (n.lock = .free && Blockchain.IterOrder n.blockchain.blocks order &&
      (n.blockchain.getBlock (n.blockchain.tip order)).isNone)

/-- The `unwrap`s of the mining section for a block with a small enough hash. -/
def miningFails (parentBlock : Block) : Bool :=
  n.mempoolPoisoned || n.lock = .poisoned ||
    (n.lock = .free && (n.blockchain.getBlockState parentBlock.hash).isNone)

/-- The network worker has come to a block that is not stored. -/
def takesNew : Bool :=
  match n.lock with
  | .held (block :: _) _ => (n.blockchain.getBlock block.hash).isNone
  | _ => false

/-- An `unwrap` or the indexing of a map fails in the step: in the loop of the miner, in the insertion
of the miner worker, in the transaction generator, or in the treatment of a new block. -/
def unwrapFails : Event → Bool
  | .worker =>
    (n.takesNew && n.mempoolPoisoned) ||
      n.atHand.any fun x => checkBlockValidity x.1 x.2 && n.attachFails x.1
  | .minerStart order =>
    match n.miner.pc with
    | .start => n.tipFails order
    | _ => false
  | .minerTip order =>
    match n.miner.pc with
    | .loopHead _ => n.tipFails order
    | _ => false
  | .minerControl order =>
    match n.miner.pc, n.miner.operatingState, n.miner.controlChan with
    | .control _ _, .run _, .update :: _ => n.tipFails order
    | _, _, _ => false
  | .mine draw =>
    match n.miner.pc with
    | .mining _ parentBlock =>
      (draw.block parentBlock).any fun block =>
        decide (block.hash ≤ block.getDifficulty) && n.miningFails parentBlock
    | _ => false
  | .minerWorker =>
    n.finishedBlockChan.head?.any fun block =>
      n.lock = .poisoned || (n.lock = .free && n.indexFails block)
  | .generate order _ =>
    n.lock = .poisoned ||
      (n.lock = .free && Blockchain.IterOrder n.blockchain.blocks order &&
        (n.blockchain.getBlockState (n.blockchain.tip order)).isNone)
  | _ => false

end Node

/-! ### A step poisons the store when it is not careful -/

section Steps

variable {n n' : Node}

omit [Crypto] in
/-- The mutex after a computation of the network worker. -/
theorem resume_lock_ne {α : Type} {x : Exec Worker α} {lock : α → ChainLock}
    (hlock : ∀ a, lock a ≠ .poisoned) : (n.resume x lock).lock ≠ .poisoned ↔ x.Returns := by
  cases x with
  | done w a => exact iff_of_true (hlock a) (Exec.returns_done w a)
  | panicked w => exact iff_of_false (fun h => h rfl) (Exec.not_returns_panicked w)
  | looping w => exact iff_of_false (fun h => h rfl) (Exec.not_returns_looping w)

theorem attachIfValid_returns {w : Worker} {block parent : Block} :
    (w.attachIfValid block parent).Returns ↔
      (checkBlockValidity block parent = true →
        block.getParent ∈ w.blockchain.blockStates ∧ Linked w.blockchain block ∧
          Fits w.blockchain block) := by
  rw [Worker.attachIfValid, ← Blockchain.attach_returns]
  cases hv : checkBlockValidity block parent with
  | false => simp
  | true => simp

omit [Crypto] in
theorem cleanup_returns {w : Worker} {idxs : List ℕ} :
    (w.cleanup idxs).Returns ↔ Removable idxs w.orphanBuffer.length := by
  rw [← removeAll_returns, Worker.cleanup, Exec.returns_lift]

/-- While the store is not poisoned, a block is ready when the state of its parent is stored and the
insertion finds the parent it needs. -/
theorem parentReady_iff (hback : Backed n.core) (hlock : n.lock ≠ .poisoned) {block : Block} :
    n.ParentReady block ↔
      block.getParent ∈ n.blockchain.blockStates ∧ Linked n.blockchain block := by
  constructor
  · rintro (hstored | ⟨hle, b, hb, hbp⟩)
    · exact ⟨hback.chain.stated _ hstored, fun _ => hstored⟩
    · obtain ⟨hstate, -⟩ := hback.chan b hb
      rw [hbp] at hstate
      exact ⟨hstate, fun hlt => absurd hle (UInt32.not_le.2 hlt)⟩
  · rintro ⟨hstate, hlink⟩
    rcases hback.states hlock _ hstate with hstored | hchan
    · exact Or.inl hstored
    · by_cases hlt : 1 < block.length
      · exact Or.inl (hlink hlt)
      · exact Or.inr ⟨UInt32.not_lt.1 hlt, hchan⟩

/-- A step of the network worker that attaches a block at hand, when the positions do not matter. -/
theorem resume_attach_lock (hback : Backed n.core) (hlock : n.lock ≠ .poisoned) {w : Worker}
    (hchain : w.blockchain = n.blockchain) {block parent : Block} {lock : Unit → ChainLock}
    (hne : ∀ u, lock u ≠ .poisoned) (hat : n.atHand = some (block, parent))
    (hclean : n.cleansUp = none) :
    (n.resume (w.attachIfValid block parent) lock).lock ≠ .poisoned ↔ n.WorkerCareful := by
  rw [resume_lock_ne hne, attachIfValid_returns, hchain, Node.WorkerCareful, hat, hclean]
  have hready : n.ParentReady block ↔
      block.getParent ∈ n.blockchain.blockStates ∧ Linked n.blockchain block :=
    parentReady_iff hback hlock
  constructor
  · intro h
    refine ⟨fun x hx hv => ?_, by simp⟩
    cases hx
    obtain ⟨hstate, hlink, hfits⟩ := h hv
    exact ⟨hready.2 ⟨hstate, hlink⟩, hfits⟩
  · rintro ⟨h, -⟩ hv
    obtain ⟨hr, hfits⟩ := h (block, parent) rfl hv
    obtain ⟨hstate, hlink⟩ := hready.1 hr
    exact ⟨hstate, hlink, hfits⟩

/-- **A step of the network worker poisons the store when it is not careful.** -/
theorem workerStep_lock_ne (hback : Backed n.core) (hlock : n.lock ≠ .poisoned)
    (hpool : n.mempoolPoisoned = false) (h : n.workerStep = some n') :
    n'.lock ≠ .poisoned ↔ n.WorkerCareful := by
  -- nothing is at hand and nothing is cleaned up
  have hidle : n.atHand = none → n.cleansUp = none → n'.lock ≠ .poisoned →
      (n'.lock ≠ .poisoned ↔ n.WorkerCareful) := by
    intro hat hclean hne
    refine iff_of_true hne ?_
    rw [Node.WorkerCareful, hat, hclean]
    simp
  rw [Node.workerStep] at h
  cases hl : n.lock with
  | free => simp [hl] at h
  | poisoned => exact absurd hl hlock
  | held bs hs =>
      have hclean : n.cleansUp = none := by rw [Node.cleansUp, hl]
      cases bs with
      | nil =>
          simp only [hl, Option.some.injEq] at h
          exact hidle (by rw [Node.atHand, hl]) hclean (by rw [← h]; simp)
      | cons block rest =>
          cases hb : n.blockchain.getBlock block.hash with
          | some b =>
              simp only [hl, hb, Option.some.injEq] at h
              exact hidle (by simp [Node.atHand, hl, hb]) hclean (by rw [← h]; simp)
          | none =>
              simp only [hl, hb, hpool, Bool.false_eq_true, if_false] at h
              cases hp : (n.toWorker.removeFromMempool block).blockchain.getParentBlock block with
              | none =>
                  have hp' : n.blockchain.getParentBlock block = none := hp
                  simp only [hp, Option.some.injEq] at h
                  refine hidle (by simp [Node.atHand, hl, hb, hp']) hclean ?_
                  rw [← h, resume_lock_ne (by simp), Worker.handleWithoutParent]
                  split
                  · rename_i hone
                    have hlen : Blockchain.StoredLength
                        (n.toWorker.removeFromMempool block).blockchain block block.length :=
                      Blockchain.storedLength_of_eq_one hone
                    rw [Blockchain.insert_eq_some_iff.2 ⟨_, hlen, rfl⟩]
                    exact Exec.returns_done _ _
                  · exact Exec.returns_done _ _
              | some parent =>
                  have hp' : n.blockchain.getParentBlock block = some parent := hp
                  simp only [hp, Option.some.injEq] at h
                  rw [← h]
                  have hat : n.atHand = some (block, parent) := by
                    simp [Node.atHand, hl, hb, hp']
                  exact resume_attach_lock (w := n.toWorker.removeFromMempool block) hback hlock rfl
                    (fun _ => by simp) hat hclean
  | searching block x idxs rest hs =>
      cases hf : findChild x.hash 0 n.orphanBuffer with
      | some r =>
          obtain ⟨idx, child⟩ := r
          simp only [hl, hf, Option.some.injEq] at h
          rw [← h]
          have hat : n.atHand = some (child, x) := by simp [Node.atHand, hl, hf]
          have hclean : n.cleansUp = none := by rw [Node.cleansUp, hl]; simp only [hf]
          exact resume_attach_lock hback hlock rfl (fun _ => by simp) hat hclean
      | none =>
          simp only [hl, hf, Option.some.injEq] at h
          have hat : n.atHand = none := by simp [Node.atHand, hl, hf]
          have hclean : n.cleansUp = some idxs := by rw [Node.cleansUp, hl]; simp only [hf]
          rw [← h, resume_lock_ne (by simp), cleanup_returns, Node.WorkerCareful, hat, hclean]
          simp

/-- The miner has no part in poisoning the store when it reads a stored tip. -/
theorem readTip_lock_ne (hchain : Stocked n.blockchain) (hlock : n.lock ≠ .poisoned) {order : List H256}
    {next : Block → MinerPc} (h : n.readTip order next = some n') : n'.lock ≠ .poisoned := by
  rw [Node.readTip] at h
  cases hl : n.lock with
  | held bs hs => simp [hl] at h
  | searching b x idxs rest hs => simp [hl] at h
  | poisoned => exact absurd hl hlock
  | free =>
      simp only [hl] at h
      split at h
      · rename_i horder
        obtain ⟨htip, -⟩ := hchain.exists_tip horder
        obtain ⟨b, hb⟩ := mem_blocks_iff.1 htip
        simp only [hb, Option.some.injEq] at h
        rw [← h, Node.setPc]
        exact hlock
      · simp at h

/-- The block that the miner works on is stored, so its state is. -/
theorem exists_state_of_mining (hback : Backed n.core) {g p : Block} (hpc : n.miner.pc = .mining g p) :
    ∃ s, n.blockchain.getBlockState p.hash = some s := by
  have hpcs := hback.pc
  rw [show n.core.pc = _ from hpc] at hpcs
  obtain ⟨hp, -⟩ := hpcs p (List.mem_cons_of_mem _ (List.mem_cons_self ..))
  exact mem_blockStates_iff.1 (hback.chain.stated _ hp)

theorem mineStep_lock_ne (hback : Backed n.core) (hlock : n.lock ≠ .poisoned)
    (hpool : n.mempoolPoisoned = false) {draw : MiningDraw} {g p : Block}
    (hpc : n.miner.pc = .mining g p) (h : n.mineStep draw g p = some n') :
    n'.lock ≠ .poisoned ↔ n.Careful (.mine draw) := by
  have hidle : n.batchState draw = none → n'.lock ≠ .poisoned →
      (n'.lock ≠ .poisoned ↔ n.Careful (.mine draw)) := by
    intro hnone hne
    refine iff_of_true hne ?_
    rw [Node.Careful, hnone]
    simp
  rw [Node.mineStep] at h
  cases hb : draw.block p with
  | none =>
      simp only [hb, Option.some.injEq] at h
      refine hidle ?_ (by rw [← h]; exact hlock)
      rw [Node.batchState, hpc]
      cases n.lock <;> simp [hb]
  | some block =>
      simp only [hb] at h
      split at h
      · rename_i hgt
        rw [H256.cmp_gt_iff, ← BitVec.not_le] at hgt
        rw [Option.some_inj] at h
        refine hidle ?_ (by rw [← h]; exact hlock)
        rw [Node.batchState, hpc]
        cases n.lock <;> simp [hb, hgt]
      · rename_i hle
        rw [H256.cmp_gt_iff, BitVec.not_lt] at hle
        rw [hpool, if_neg (by simp), Node.miningSection] at h
        cases hl : n.lock with
        | held bs hs => simp [hl] at h
        | searching b x idxs rest hs => simp [hl] at h
        | poisoned => exact absurd hl hlock
        | free =>
            simp only [hl] at h
            split at h
            · obtain ⟨s, hs⟩ := exists_state_of_mining hback hpc
              have hbatch : n.batchState draw = some s := by
                simp [Node.batchState, hpc, hl, hb, hle, hs]
              rw [Node.Careful, hbatch]
              simp only [hs] at h
              cases he : executeTx s (batch n.mempool draw.order) with
              | none =>
                  simp only [he, Option.some.injEq] at h
                  rw [← h]
                  refine iff_of_false (fun hne => hne rfl) fun hall => ?_
                  obtain ⟨r, hr⟩ := exists_executeTx.2 (hall s rfl)
                  rw [he] at hr
                  simp at hr
              | some r =>
                  simp only [he, Option.some.injEq] at h
                  rw [← h]
                  refine iff_of_true hlock fun t ht => ?_
                  cases ht
                  exact exists_executeTx.1 ⟨r, he⟩
            · simp at h

/-- The miner worker panics when the length of its block has no successor. -/
theorem minerWorkerStep_lock_ne (hback : Backed n.core) (h : n.minerWorkerStep = some n') :
    n'.lock ≠ .poisoned ↔ (n.lock = .free → ∀ b ∈ n.finishedBlockChan.head?,
      LengthFits n.blockchain b) := by
  rw [Node.minerWorkerStep] at h
  cases hchan : n.finishedBlockChan with
  | nil => simp [hchan] at h
  | cons block chan =>
      simp only [hchan] at h
      split at h
      · rename_i hl
        have hmem : block ∈ n.core.chan := by
          rw [show n.core.chan = _ from hchan]
          exact List.mem_cons_self ..
        have hlink : Linked n.blockchain block := (hback.chan block hmem).2
        have hiff : (n.lock = .free → ∀ b ∈ (block :: chan).head?, LengthFits n.blockchain b) ↔
            LengthFits n.blockchain block := by
          simp [hl]
        rw [hiff]
        cases hi : n.blockchain.insert block with
        | none =>
            simp only [hi, Option.some.injEq] at h
            rw [← h]
            refine iff_of_false (fun hne => hne rfl) fun hfits => ?_
            obtain ⟨length, hlen⟩ := exists_storedLength.2 ⟨hlink, hfits⟩
            rw [Blockchain.insert_eq_some_iff.2 ⟨length, hlen, rfl⟩] at hi
            simp at hi
        | some c =>
            simp only [hi, Option.some.injEq] at h
            obtain ⟨length, hlen, -⟩ := Blockchain.insert_eq_some_iff.1 hi
            rw [← h]
            exact iff_of_true (by simp [hl]) (exists_storedLength.1 ⟨length, hlen⟩).2
      · simp at h

/-- A message leaves the mutex of the mempool, and takes that of the store at most. -/
theorem messageStep_mutexes {message : Message} (h : n.messageStep message = some n') :
    n'.mempoolPoisoned = n.mempoolPoisoned ∧ (n'.lock = n.lock ∨ ∃ bs, n'.lock = .held bs []) := by
  cases Node.messageStep_cases h with
  | @blocks blocks => exact ⟨rfl, Or.inr ⟨blocks, rfl⟩⟩
  | _ => exact ⟨rfl, Or.inl rfl⟩

theorem controlStep_lock_ne (hback : Backed n.core) (hlock : n.lock ≠ .poisoned)
    {order : List H256} {g p : Block} (h : n.controlStep order g p = some n') :
    n'.lock ≠ .poisoned := by
  rw [Node.controlStep] at h
  split at h
  · split at h
    · simp at h
    · rw [← Option.some_inj.1 h]
      exact hlock
  · rw [← Option.some_inj.1 h]
    exact hlock
  · split at h
    · rw [← Option.some_inj.1 h]
      exact hlock
    · rw [← Option.some_inj.1 h]
      exact hlock
    · rw [← Option.some_inj.1 h]
      exact hlock
    · refine readTip_lock_ne ?_ ?_ h
      · exact hback.chain
      · exact hlock

theorem generateStep_lock_ne (hback : Backed n.core) (hlock : n.lock ≠ .poisoned)
    {order : List H256} {draw : TxDraw} (h : n.generateStep order draw = some n') :
    n'.lock ≠ .poisoned := by
  rw [Node.generateStep] at h
  split at h
  · rename_i horder
    obtain ⟨-, htip⟩ := hback.chain.exists_tip horder.2
    obtain ⟨s, hs⟩ := mem_blockStates_iff.1 htip
    have hs' : n.blockchain.getBlockState (n.blockchain.tip order) = some s := hs
    simp only [hs'] at h
    split at h
    · simp at h
    · split at h
      · rw [← Option.some_inj.1 h]
        exact hlock
      · simp at h
  · simp at h

/-- **A step poisons the store if and only if it is not careful.** -/
theorem poisons_iff {e : Event} (hback : Backed n.core) (hlock : n.lock ≠ .poisoned)
    (hpool : n.mempoolPoisoned = false) (h : n.step e = some n') :
    n'.lock ≠ .poisoned ↔ n.Careful e := by
  cases e with
  | worker => exact workerStep_lock_ne hback hlock hpool h
  | minerWorker => exact minerWorkerStep_lock_ne hback h
  | mine draw =>
      rw [Node.step] at h
      split at h
      · rename_i g p hpc
        exact mineStep_lock_ne hback hlock hpool hpc h
      · simp at h
  | message message =>
      refine iff_of_true ?_ trivial
      obtain ⟨-, hsame | ⟨bs, htaken⟩⟩ := messageStep_mutexes h
      · rw [hsame]
        exact hlock
      · rw [htaken]
        simp
  | minerStart order =>
      rw [Node.step] at h
      split at h
      · exact iff_of_true (readTip_lock_ne hback.chain hlock h) trivial
      · simp at h
  | minerTip order =>
      rw [Node.step] at h
      split at h
      · exact iff_of_true (readTip_lock_ne hback.chain hlock h) trivial
      · simp at h
  | minerControl order =>
      rw [Node.step] at h
      split at h
      · exact iff_of_true (controlStep_lock_ne hback hlock h) trivial
      · simp at h
  | generate order draw => exact iff_of_true (generateStep_lock_ne hback hlock h) trivial
  | signal signal =>
      rw [← (Node.step_signal h).2]
      exact iff_of_true hlock trivial
  | ping =>
      rw [← Option.some_inj.1 h]
      exact iff_of_true hlock trivial

/-! ### The mutex of the mempool -/

omit [Crypto] in
@[simp] theorem resume_mempoolPoisoned {α : Type} (x : Exec Worker α) (lock : α → ChainLock) :
    (n.resume x lock).mempoolPoisoned = n.mempoolPoisoned := by
  cases x <;> rfl

theorem workerStep_mempoolPoisoned (h : n.workerStep = some n') :
    n'.mempoolPoisoned = n.mempoolPoisoned := by
  rw [Node.workerStep] at h
  split at h
  · simp at h
  · simp at h
  · rw [← Option.some_inj.1 h]
  · split at h
    · rw [← Option.some_inj.1 h]
    · split at h
      · rw [← Option.some_inj.1 h]
      · simp only at h
        split at h
        · rw [← Option.some_inj.1 h, resume_mempoolPoisoned]
        · rw [← Option.some_inj.1 h, resume_mempoolPoisoned]
  · split at h
    · rw [← Option.some_inj.1 h, resume_mempoolPoisoned]
    · rw [← Option.some_inj.1 h, resume_mempoolPoisoned]

/-- The mutex of the mempool is poisoned together with that of the store only. -/
theorem mempoolPoisoned_step {e : Event} (h : n.step e = some n') :
    n'.mempoolPoisoned = n.mempoolPoisoned ∨ n'.lock = .poisoned := by
  cases e with
  | worker => exact Or.inl (workerStep_mempoolPoisoned h)
  | message message => exact Or.inl (messageStep_mutexes h).1
  | mine draw => exact (Node.mine_frame h).2.2
  | _ =>
      refine Or.inl (Node.mempool_frame ?_ ?_ ?_ h).2
      · exact fun _ he => nomatch he
      · exact fun he => nomatch he
      · exact fun _ he => nomatch he

/-- A poisoned mutex stays poisoned. -/
theorem poisoned_step {e : Event} (h : n.step e = some n') (hlock : n.lock = .poisoned) :
    n'.lock = .poisoned :=
  (Node.core_step h).poisoned hlock

end Steps

/-! ### Runs -/

section Runs

variable {g : GenesisDraw} {tr : List (Node × Event)} {n : Node}

/-- The mutex of the mempool is not poisoned alone. -/
theorem mempoolPoisoned_of_run (hrun : Node.Run (Node.init g) tr n) :
    n.mempoolPoisoned = true → n.lock = .poisoned := by
  refine hrun.invariant (I := fun m : Node => m.mempoolPoisoned = true → m.lock = .poisoned)
    (C := fun _ _ => True) (fun h => nomatch h) (fun m e m' h _ hs hm' => ?_) fun _ _ => trivial
  rcases mempoolPoisoned_step hs with heq | hp
  · rw [heq] at hm'
    exact poisoned_step hs (h hm')
  · exact hp

theorem mempoolPoisoned_eq_false (hrun : Node.Run (Node.init g) tr n) (hlock : n.lock ≠ .poisoned) :
    n.mempoolPoisoned = false := by
  cases hp : n.mempoolPoisoned with
  | false => rfl
  | true => exact absurd (mempoolPoisoned_of_run hrun hp) hlock

/-- **A run poisons the store if and only if one of its steps is not careful.** -/
theorem careful_iff (hrun : Node.Run (Node.init g) tr n) :
    (∀ x ∈ tr, x.1.Careful x.2) ↔ n.lock ≠ .poisoned := by
  induction hrun with
  | nil => exact iff_of_true (fun _ hx => absurd hx List.not_mem_nil) (by simp [Node.init])
  | @snoc tr m n' e hr hs ih =>
      rw [List.forall_mem_append, List.forall_mem_singleton, ih]
      constructor
      · rintro ⟨hlock, hcare⟩
        exact (poisons_iff (backed_of_run hr) hlock (mempoolPoisoned_eq_false hr hlock) hs).2 hcare
      · intro hlock'
        have hlock : m.lock ≠ .poisoned := fun h => hlock' (poisoned_step hs h)
        exact ⟨hlock,
          (poisons_iff (backed_of_run hr) hlock (mempoolPoisoned_eq_false hr hlock) hs).1 hlock'⟩

omit [Crypto] in
theorem indexFails_eq_false {block : Block} (hlink : Linked n.blockchain block) :
    n.indexFails block = false := by
  rw [Node.indexFails]
  by_cases hlt : 1 < block.length
  · obtain ⟨p, hp⟩ := mem_blocks_iff.1 (hlink hlt)
    rw [hp]
    simp
  · simp [hlt]

/-- A block at hand has its parent: the new block by the test of the worker, the released one by the
condition. -/
theorem attachFails_eq_false (hback : Backed n.core) (hlock : n.lock ≠ .poisoned) {block : Block}
    (hready : n.ParentReady block) : n.attachFails block = false := by
  obtain ⟨hstate, hlink⟩ := (parentReady_iff hback hlock).1 hready
  obtain ⟨s, hs⟩ := mem_blockStates_iff.1 hstate
  rw [Node.attachFails, hs]
  simp [indexFails_eq_false hlink]

/-- While the store is not poisoned, reading the tip does not fail. -/
theorem tipFails_eq_false (hchain : Stocked n.blockchain) (hlock : n.lock ≠ .poisoned)
    (order : List H256) : n.tipFails order = false := by
  by_cases horder : Blockchain.IterOrder n.blockchain.blocks order
  · obtain ⟨b, hb⟩ := mem_blocks_iff.1 (hchain.exists_tip horder).1
    simp [Node.tipFails, hlock, hb]
  · simp [Node.tipFails, hlock, horder]

/-- **While the store is not poisoned, no `unwrap` of a careful step fails.** -/
theorem unwrapFails_eq_false (hback : Backed n.core) (hlock : n.lock ≠ .poisoned)
    (hpool : n.mempoolPoisoned = false) {e : Event} (hcare : n.Careful e) :
    n.unwrapFails e = false := by
  cases e with
  | worker =>
      rw [Node.unwrapFails, hpool, Bool.and_false, Bool.false_or]
      cases hat : n.atHand with
      | none => rfl
      | some x =>
          cases hv : checkBlockValidity x.1 x.2 with
          | false => simp [hv]
          | true => simp [attachFails_eq_false hback hlock (hcare.1 x hat hv).1]
  | minerStart order =>
      rw [Node.unwrapFails]
      split
      · exact tipFails_eq_false hback.chain hlock order
      · rfl
  | minerTip order =>
      rw [Node.unwrapFails]
      split
      · exact tipFails_eq_false hback.chain hlock order
      · rfl
  | minerControl order =>
      rw [Node.unwrapFails]
      split
      · exact tipFails_eq_false hback.chain hlock order
      · rfl
  | mine draw =>
      rw [Node.unwrapFails]
      split
      · rename_i g p hpc
        obtain ⟨s, hs⟩ := exists_state_of_mining hback hpc
        simp [Node.miningFails, hpool, hlock, hs]
      · rfl
  | minerWorker =>
      rw [Node.unwrapFails]
      cases hchan : n.finishedBlockChan with
      | nil => rfl
      | cons block chan =>
          have hmem : block ∈ n.core.chan := by
            rw [show n.core.chan = _ from hchan]
            exact List.mem_cons_self ..
          simp [hlock, indexFails_eq_false (hback.chan block hmem).2]
  | generate order draw =>
      rw [Node.unwrapFails]
      by_cases horder : Blockchain.IterOrder n.blockchain.blocks order
      · obtain ⟨s, hs⟩ := mem_blockStates_iff.1 (hback.chain.exists_tip horder).2
        have hs' : n.blockchain.getBlockState (n.blockchain.tip order) = some s := hs
        simp [hlock, hs']
      · simp [hlock, horder]
  | _ => rfl

/-- **Every stored block has its state**, the tip is stored, and the parent of a block stored with
length at least 2 is stored.  The `unwrap`s and the indexings succeed in every careful step if and
only if every step so far was careful. -/
theorem stored_blocks_have_states (hrun : Node.Run (Node.init g) tr n) :
    (∀ h ∈ n.blockchain.blocks, h ∈ n.blockchain.blockStates) ∧
      (∀ order, Blockchain.IterOrder n.blockchain.blocks order →
        n.blockchain.tip order ∈ n.blockchain.blocks ∧
          n.blockchain.tip order ∈ n.blockchain.blockStates) ∧
      (∀ h b, n.blockchain.getBlock h = some b → 2 ≤ b.length → b.getParent ∈ n.blockchain.blocks) ∧
      ((∀ x ∈ tr, x.1.Careful x.2) ↔ ∀ e, n.Careful e → n.unwrapFails e = false) := by
  have hback := backed_of_run hrun
  refine ⟨hback.chain.stated, fun order => hback.chain.exists_tip, fun h b hb hlen => ?_, ?_⟩
  · refine hback.chain.linked h b hb ?_
    rw [UInt32.le_iff_toNat_le] at hlen
    exact UInt32.lt_iff_toNat_lt.2 hlen
  · rw [careful_iff hrun]
    constructor
    · intro hlock e
      exact unwrapFails_eq_false hback hlock (mempoolPoisoned_eq_false hrun hlock)
    · intro h hlock
      -- the transaction generator cannot lock a poisoned store
      have hgen := h (.generate []
        { randTx := 0, randRx := 0, value := 0, signature := [], publicKey := [] }) trivial
      simp [Node.unwrapFails, hlock] at hgen

end Runs

omit [Crypto]

/-- A block of another difficulty than the genesis block, which a node rejects, and a child of it. -/
def easyBlock (parent : H256) (nonce length : UInt32) : Block :=
  let block := sampleBlock parent nonce length []
  { block with header := { block.header with difficulty := BitVec.allOnes 256 } }

/-- A node receives the child first, which waits for its parent, and then the parent. -/
def receiveRejected : List Event :=
  [.message (.blocks [easyBlock 2 3 3, easyBlock 1 2 2]), .worker, .worker]

/-- **A rejected parent crashes the node**: the orphan search goes on with the rejected block, finds
the child, and looks for the state of its parent.  The miner cannot start any more. -/
theorem rejected_parent_crashes :
    letI := sampleCrypto
    ∃ n, Node.Run (Node.init sampleGenesis)
        (Lts.replayTrace Node.step (Node.init sampleGenesis) receiveRejected) n ∧
      n.unwrapFails .worker = true ∧
      ∃ n' ∈ n.step .worker, n'.lock = .poisoned ∧ n'.unwrapFails (.minerStart [1]) = true := by
  obtain ⟨n, hrun, h⟩ := @Lts.exists_run_of_replay _ _ (@Node.step sampleCrypto) receiveRejected
    (@Node.init sampleCrypto sampleGenesis)
    (fun n => @Node.unwrapFails sampleCrypto n .worker = true ∧
      ∃ n' ∈ @Node.step sampleCrypto n .worker, n'.lock = .poisoned ∧
        @Node.unwrapFails sampleCrypto n' (.minerStart [1]) = true) (by decide +kernel)
  exact ⟨n, hrun, h⟩

/-- The child of the genesis block gets its state, and the steps are careful. -/
theorem stored_blocks_have_states_child :
    letI := sampleCrypto
    ∃ n : Node, 2 ∈ n.blockchain.blockStates ∧ 1 ∈ n.blockchain.blocks ∧
      ∀ e, n.Careful e → n.unwrapFails e = false := by
  obtain ⟨n, hrun, hb, hlock⟩ := @Lts.exists_run_of_replay _ _ (@Node.step sampleCrypto)
    [.message (.blocks [sampleBlock 1 2 2 []]), .worker, .worker, .worker]
    (@Node.init sampleCrypto sampleGenesis)
    (fun n => n.blockchain.getBlock 2 = some (sampleBlock 1 2 2 []) ∧ n.lock ≠ .poisoned)
    (by decide +kernel)
  obtain ⟨hstates, -, hlinked, hcareful⟩ := @stored_blocks_have_states sampleCrypto _ _ _ hrun
  exact ⟨n, hstates 2 (mem_blocks_of_getBlock hb), hlinked 2 _ hb (by decide),
    hcareful.1 ((@careful_iff sampleCrypto _ _ _ hrun).2 hlock)⟩

end BitcoinClient
