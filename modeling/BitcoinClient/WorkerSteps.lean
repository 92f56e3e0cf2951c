/-
**The steps of the network worker.**

`Worker.blocksMessage` treats a `Blocks` message as the source does, in one piece; `Node.step` cuts the
same treatment at each block and at each round of the orphan search.  This module proves that the steps
of the network worker add up to the function: from the node that has taken the message, they lead to
what the function computes, and to a poisoned mutex when it panics.

Main definitions:

* `BitcoinClient.Node.WorksTo` — a node reaches another one by steps of the network worker.

Main results:

* `BitcoinClient.Node.worksTo_search`, `BitcoinClient.Node.worksTo_handleNewBlock`,
  `BitcoinClient.Node.worksTo_onBlocks` — the three loops;
* `BitcoinClient.Node.worksTo_blocksMessage` — **the steps compute `Worker.blocksMessage`**.
-/

import BitcoinClient.Node

set_option relaxedAutoImplicit false
set_option autoImplicit false

namespace BitcoinClient

variable [Crypto]

namespace Node

/-- The steps of the network worker lead from `n` to `n'`. -/
def WorksTo (n n' : Node) : Prop := ∃ tr, Node.Run n tr n' ∧ ∀ x ∈ tr, x.2 = .worker

namespace WorksTo

variable {n m n' : Node}

theorem refl (n : Node) : WorksTo n n := ⟨[], .nil, fun _ hx => absurd hx List.not_mem_nil⟩

theorem trans (h : WorksTo n m) (h' : WorksTo m n') : WorksTo n n' := by
  obtain ⟨tr, hrun, htr⟩ := h
  obtain ⟨tr', hrun', htr'⟩ := h'
  refine ⟨tr ++ tr', hrun.trans hrun', fun x hx => ?_⟩
  rcases List.mem_append.1 hx with hx | hx
  · exact htr x hx
  · exact htr' x hx

theorem step (h : n.workerStep = some m) (h' : WorksTo m n') : WorksTo n n' := by
  refine trans ⟨[(n, .worker)], Lts.Run.single h, fun x hx => ?_⟩ h'
  rw [List.mem_singleton.1 hx]

end WorksTo

variable {n : Node}

omit [Crypto] in
/-- Only the last of two results matters for the shared state and the mutex. -/
theorem resume_resume {α β : Type} (x : Exec Worker α) (f : α → ChainLock) (y : Exec Worker β)
    (g : β → ChainLock) : (n.resume x f).resume y g = n.resume y g := by
  cases x <;> cases y <;> rfl

/-- The orphan search and the cleanup after it. -/
theorem worksTo_search {block : Block} {rest : List Block} {hs : List H256} :
    ∀ (fuel : ℕ) (n : Node) (x : Block) (idxs : List ℕ),
      n.lock = .searching block x idxs rest hs →
      (∀ w, n.toWorker.searchOrphans fuel x idxs ≠ .looping w) →
      WorksTo n (n.resume
        ((n.toWorker.searchOrphans fuel x idxs).bind fun w idxs => w.cleanup idxs)
        fun _ => .held rest (hs ++ [block.hash])) := by
  intro fuel
  induction fuel with
  | zero => intro n x idxs _ hne; exact absurd rfl (hne n.toWorker)
  | succ fuel ih =>
      intro n x idxs hlock hne
      rw [Worker.searchOrphans] at hne ⊢
      cases hf : findChild x.hash 0 n.orphanBuffer with
      | none =>
          -- the search is over
          refine .step ?_ (.refl _)
          rw [workerStep, hlock]
          simp only [hf, Exec.bind_done]
      | some r =>
          obtain ⟨idx, child⟩ := r
          have hstep : n.workerStep = some (n.resume (n.toWorker.attachIfValid child x)
              fun _ => .searching block child (idxs ++ [idx]) rest hs) := by
            rw [workerStep, hlock]
            simp only [hf]
          refine .step hstep ?_
          simp only [hf] at hne ⊢
          cases ha : n.toWorker.attachIfValid child x with
          | done w u =>
              simp only [ha, Exec.bind_done] at hne ⊢
              exact ih (n.resume (.done w u) _) child (idxs ++ [idx]) rfl hne
          | panicked w => exact .refl _
          | looping w => exact absurd (by rw [ha]; rfl) (hne w)

/-- A new block. -/
theorem worksTo_handleNewBlock {block : Block} {rest : List Block} {hs : List H256}
    (hlock : n.lock = .held (block :: rest) hs) (hnew : n.blockchain.getBlock block.hash = none)
    (hpool : n.mempoolPoisoned = false) (hne : ∀ w, n.toWorker.handleNewBlock block ≠ .looping w) :
    WorksTo n (n.resume (n.toWorker.handleNewBlock block)
      fun _ => .held rest (hs ++ [block.hash])) := by
  simp only [Worker.handleNewBlock] at hne ⊢
  cases hp : (n.toWorker.removeFromMempool block).blockchain.getParentBlock block with
  | none =>
      refine .step ?_ (.refl _)
      rw [workerStep, hlock]
      simp only [hnew, hpool, hp, Bool.false_eq_true, if_false]
  | some parent =>
      have hstep : n.workerStep = some (n.resume
          ((n.toWorker.removeFromMempool block).attachIfValid block parent)
          fun _ => .searching block block [] rest hs) := by
        rw [workerStep, hlock]
        simp only [hnew, hpool, hp, Bool.false_eq_true, if_false]
      refine .step hstep ?_
      simp only [hp] at hne ⊢
      cases ha : (n.toWorker.removeFromMempool block).attachIfValid block parent with
      | done w u =>
          simp only [ha, Exec.bind_done] at hne ⊢
          have hsearch := worksTo_search (w.orphanBuffer.length + 1)
            (n.resume (.done w u) fun _ => .searching block block [] rest hs) block [] rfl
            fun w' hw' => hne w' (by rw [show w.searchOrphans _ _ _ = _ from hw']; rfl)
          rwa [resume_resume] at hsearch
      | panicked w => exact .refl _
      | looping w => exact absurd (by rw [ha]; rfl) (hne w)

/-- The loop over the blocks of a message. -/
theorem worksTo_onBlocks : ∀ (blocks : List Block) (hs : List H256) (n : Node),
    n.lock = .held blocks hs → n.mempoolPoisoned = false →
    (∀ w, n.toWorker.onBlocks blocks hs ≠ .looping w) →
    WorksTo n (n.resume (n.toWorker.onBlocks blocks hs) fun hs => .held [] hs) := by
  intro blocks
  induction blocks with
  | nil =>
      intro hs n hlock _ _
      have hn : n.resume (.done n.toWorker hs) (fun hs => .held [] hs) = n := by
        rw [resume, ← hlock]
      rw [Worker.onBlocks, hn]
      exact .refl n
  | cons block rest ih =>
      intro hs n hlock hpool hne
      rw [Worker.onBlocks] at hne ⊢
      cases hb : n.blockchain.getBlock block.hash with
      | some b =>
          simp only [hb] at hne ⊢
          have hstep : n.workerStep = some { n with lock := .held rest hs } := by
            rw [workerStep, hlock]
            simp only [hb]
          exact .step hstep (ih hs { n with lock := .held rest hs } rfl hpool hne)
      | none =>
          simp only [hb] at hne ⊢
          have hnew := worksTo_handleNewBlock hlock hb hpool fun w hw => hne w (by rw [hw]; rfl)
          refine hnew.trans ?_
          cases ha : n.toWorker.handleNewBlock block with
          | done w u =>
              simp only [ha, Exec.bind_done] at hne ⊢
              have hrest := ih (hs ++ [block.hash])
                (n.resume (.done w u) fun _ => .held rest (hs ++ [block.hash])) rfl hpool hne
              rwa [resume_resume] at hrest
          | panicked w => exact .refl _
          | looping w => exact absurd (by rw [ha]; rfl) (hne w)

/-- **The steps of the network worker compute `Worker.blocksMessage`**: when nothing holds the store
and the treatment of the message returns or panics, a run of the network worker from taking the
message reaches what it computes. -/
theorem worksTo_blocksMessage {blocks : List Block} (hlock : n.lock = .free)
    (hpool : n.mempoolPoisoned = false) (hne : ∀ w, n.toWorker.blocksMessage blocks ≠ .looping w) :
    ∃ m, n.step (.message (.blocks blocks)) = some m ∧
      WorksTo m (n.resume (n.toWorker.blocksMessage blocks) fun _ => .free) := by
  refine ⟨{ n with lock := .held blocks [] }, by rw [step, messageStep, if_pos hlock], ?_⟩
  rw [Worker.blocksMessage] at hne ⊢
  have hloop := worksTo_onBlocks blocks [] { n with lock := .held blocks [] } rfl hpool
    fun w hw => hne w (by rw [show n.toWorker.onBlocks _ _ = _ from hw]; rfl)
  refine hloop.trans ?_
  cases ho : n.toWorker.onBlocks blocks [] with
  | done w hs => exact .step rfl (.refl _)
  | panicked w => exact .refl _
  | looping w => exact absurd (by rw [ho]; rfl) (hne w)

end Node

end BitcoinClient
