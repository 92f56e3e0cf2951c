/-
**When the treatment of a `Blocks` message returns.**

The treatment of the blocks of a message is cut into the steps of the network worker, and each of them
returns when it is careful.  What the steps cannot see is whether there are finitely many of them: the
orphan search follows the first child of each block it comes to, and a chain of first children that runs
into a cycle is followed for ever.  So the treatment returns if and only if every step on its way is
careful and every search on its way ends.

Main definitions:

* `BitcoinClient.Node.SearchEnds` — the chain of first children of the new block ends.

Main results:

* `BitcoinClient.worksTo_final` — the steps of the network worker lead to one end at most;
* `BitcoinClient.endless_step` — an endless search stays endless;
* `BitcoinClient.blocks_message_returns_iff` — **when the treatment of a message returns**;
* `BitcoinClient.blocks_message_crashes` — two messages whose treatment panics.
-/

import BitcoinClient.Crashes
import BitcoinClient.WorkerSteps

set_option relaxedAutoImplicit false
set_option autoImplicit false

namespace BitcoinClient

variable [Crypto]

/-- The chain of first children in the orphan buffer, from the new block on, ends. -/
def Node.SearchEnds (n : Node) : Prop :=
  match n.lock with
  | .held (block :: _) _ =>
    n.blockchain.getBlock block.hash = none → (n.blockchain.getBlock block.getParent).isSome →
      (searchPath (n.orphanBuffer.length + 1) block.hash n.orphanBuffer).isSome
  | _ => True

/-! ### Loops -/

section Loops

variable {w : Worker} {block parent : Block}

theorem attachIfValid_ne_looping (w' : Worker) : w.attachIfValid block parent ≠ .looping w' := by
  rw [Worker.attachIfValid]
  cases hv : checkBlockValidity block parent with
  | false => simp
  | true =>
      rw [if_pos rfl]
      rcases Blockchain.attach_cases w.blockchain block with h | ⟨_, _, _, _, _, h | ⟨_, _, h⟩⟩
      · simp [h]
      · simp [h]
      · simp [h]

/-- A search that has not found its end follows an endless chain. -/
theorem searchPath_of_looping : ∀ {fuel : ℕ} {x : Block} {idxs : List ℕ} {w w' : Worker},
    w.searchOrphans fuel x idxs = .looping w' → searchPath fuel x.hash w.orphanBuffer = none := by
  intro fuel
  induction fuel with
  | zero => intro x idxs w w' _; rfl
  | succ fuel ih =>
      intro x idxs w w' h
      rw [Worker.searchOrphans] at h
      cases hf : findChild x.hash 0 w.orphanBuffer with
      | none => simp [hf] at h
      | some r =>
          obtain ⟨idx, child⟩ := r
          simp only [hf] at h
          rcases Exec.bind_eq_looping.1 h with ha | ⟨w₁, u, ha, h⟩
          · exact absurd ha (attachIfValid_ne_looping _)
          · obtain ⟨c, -, rfl⟩ := Worker.attachIfValid_ensures _ _ ha
            have hpath : searchPath fuel child.hash w.orphanBuffer = none :=
              ih (w := { w with blockchain := c }) h
            rw [searchPath_some hf, hpath, Option.map_none]

/-- The treatment of a new block loops in its search only. -/
theorem handleNewBlock_looping {w' : Worker} (h : w.handleNewBlock block = .looping w') :
    (w.blockchain.getBlock block.getParent).isSome ∧
      searchPath (w.orphanBuffer.length + 1) block.hash w.orphanBuffer = none := by
  simp only [Worker.handleNewBlock] at h
  cases hp : (w.removeFromMempool block).blockchain.getParentBlock block with
  | none =>
      simp only [hp, Worker.handleWithoutParent] at h
      split at h
      · split at h
        · simp at h
        · simp at h
      · simp at h
  | some parent =>
      have hp' : w.blockchain.getBlock block.getParent = some parent := hp
      refine ⟨by rw [hp']; rfl, ?_⟩
      simp only [hp] at h
      rcases Exec.bind_eq_looping.1 h with ha | ⟨w₁, u, ha, h⟩
      · exact absurd ha (attachIfValid_ne_looping _)
      · obtain ⟨c, -, rfl⟩ := Worker.attachIfValid_ensures _ _ ha
        rcases Exec.bind_eq_looping.1 h with hs | ⟨w₂, idxs, -, h⟩
        · exact searchPath_of_looping (w := { w.removeFromMempool block with blockchain := c }) hs
        · rw [Worker.cleanup] at h
          cases hr : removeAll idxs w₂.orphanBuffer with
          | panicked b => simp [hr] at h
          | looping b => exact absurd hr (removeAll_ne_looping _ _ _)
          | done b u => simp [hr] at h

end Loops

/-! ### The end of the steps -/

section Steps

variable {n n' m f : Node}

/-- The first of several steps. -/
theorem worksTo_cases (h : n.WorksTo f) :
    n = f ∨ ∃ m, n.workerStep = some m ∧ m.WorksTo f := by
  obtain ⟨tr, hrun, htr⟩ := h
  induction hrun with
  | nil => exact Or.inl rfl
  | @snoc tr m f e hr hs ih =>
      have he : e = .worker := htr (m, e) (List.mem_append_right _ (List.mem_singleton.2 rfl))
      rw [he] at hs
      have hlast : m.WorksTo f := .step hs (.refl f)
      rcases ih fun x hx => htr x (List.mem_append_left _ hx) with rfl | ⟨m₁, h₁, hrest⟩
      · exact Or.inr ⟨f, hs, .refl f⟩
      · exact Or.inr ⟨m₁, h₁, hrest.trans hlast⟩

/-- **The steps lead to one end at most**: what they pass on the way leads there. -/
theorem worksTo_final (hend : n.WorksTo f) (hf : f.workerStep = none) (h : n.WorksTo m) :
    m.WorksTo f := by
  obtain ⟨tr, hrun, htr⟩ := h
  induction hrun with
  | nil => exact hend
  | @snoc tr m m' e hr hs ih =>
      have he : e = .worker := htr (m, e) (List.mem_append_right _ (List.mem_singleton.2 rfl))
      rw [he] at hs
      have hs' : m.workerStep = some m' := hs
      rcases worksTo_cases (ih fun x hx => htr x (List.mem_append_left _ hx)) with
        rfl | ⟨m₁, h₁, hrest⟩
      · rw [hf] at hs'
        simp at hs'
      · rw [hs', Option.some_inj] at h₁
        rw [h₁]
        exact hrest

/-- The network worker follows an endless chain, or it has panicked. -/
def Endless (n : Node) : Prop :=
  n.lock = .poisoned ∨ ∃ block x idxs rest hs, n.lock = .searching block x idxs rest hs ∧
    ∀ k, searchPath k x.hash n.orphanBuffer = none

/-- After the attachment of a block whose chain of first children is endless. -/
theorem endless_resume {w : Worker} {b parent block x : Block} {idxs : List ℕ} {rest : List Block}
    {hs : List H256} (hbuf : w.orphanBuffer = n.orphanBuffer)
    (hpath : ∀ k, searchPath k x.hash n.orphanBuffer = none) :
    Endless (n.resume (w.attachIfValid b parent) fun _ => .searching block x idxs rest hs) := by
  cases ha : w.attachIfValid b parent with
  | panicked w' => exact Or.inl rfl
  | looping w' => exact Or.inl rfl
  | done w' u =>
      obtain ⟨c, -, rfl⟩ := Worker.attachIfValid_ensures _ _ ha
      refine Or.inr ⟨block, x, idxs, rest, hs, rfl, fun k => ?_⟩
      show searchPath k x.hash w.orphanBuffer = none
      rw [hbuf]
      exact hpath k

/-- **An endless search stays endless.** -/
theorem endless_step (hend : Endless n) (h : n.workerStep = some n') : Endless n' := by
  rw [Node.workerStep] at h
  rcases hend with hl | ⟨block, x, idxs, rest, hs, hl, hpath⟩
  · simp [hl] at h
  · cases hf : findChild x.hash 0 n.orphanBuffer with
    | none =>
        have hzero := hpath 1
        rw [searchPath_none hf] at hzero
        simp at hzero
    | some r =>
        obtain ⟨idx, child⟩ := r
        simp only [hl, hf, Option.some.injEq] at h
        rw [← h]
        refine endless_resume rfl fun k => ?_
        have hnext := hpath (k + 1)
        rw [searchPath_some hf] at hnext
        exact Option.map_eq_none_iff.1 hnext

theorem endless_of_worksTo (hend : Endless n) (h : n.WorksTo f) : Endless f := by
  obtain ⟨tr, hrun, htr⟩ := h
  refine hrun.invariant (I := Endless) (C := fun _ e => e = .worker) hend
    (fun m e m' hm he hs => ?_) htr
  rw [he] at hs
  exact endless_step hm hs

/-- A new block whose chain of first children does not end. -/
theorem endless_of_not_searchEnds (hpool : n.mempoolPoisoned = false) (h : n.workerStep = some n')
    (hends : ¬ n.SearchEnds) : Endless n' := by
  rw [Node.SearchEnds] at hends
  rw [Node.workerStep] at h
  split at hends
  · rename_i block rest hs hl
    simp only [Classical.not_imp, Bool.not_eq_true, Option.isSome_eq_false_iff,
      Option.isNone_iff_eq_none] at hends
    obtain ⟨hnew, hpar, hpath⟩ := hends
    obtain ⟨parent, hp⟩ := Option.isSome_iff_exists.1 hpar
    have hp' : (n.toWorker.removeFromMempool block).blockchain.getParentBlock block = some parent :=
      hp
    simp only [hl, hnew, hpool, hp', Bool.false_eq_true, if_false, Option.some.injEq] at h
    rw [← h]
    refine endless_resume rfl fun k => ?_
    cases hk : searchPath k block.hash n.orphanBuffer with
    | none => rfl
    | some path =>
        rw [searchPath_enough hk] at hpath
        simp at hpath
  · exact absurd trivial hends

/-- The steps of a message that loops come to a new block whose chain of first children does not
end. -/
theorem exists_not_searchEnds : ∀ (blocks : List Block) (hs : List H256) (n : Node) (w : Worker),
    n.lock = .held blocks hs → n.mempoolPoisoned = false →
      n.toWorker.onBlocks blocks hs = .looping w → ∃ m, n.WorksTo m ∧ ¬ m.SearchEnds := by
  intro blocks
  induction blocks with
  | nil => intro hs n w _ _ h; simp [Worker.onBlocks] at h
  | cons block rest ih =>
      intro hs n w hlock hpool h
      rw [Worker.onBlocks] at h
      cases hb : n.blockchain.getBlock block.hash with
      | some b =>
          simp only [hb] at h
          have hstep : n.workerStep = some { n with lock := .held rest hs } := by
            rw [Node.workerStep, hlock]
            simp only [hb]
          obtain ⟨m, hm, hends⟩ := ih hs { n with lock := .held rest hs } w rfl hpool h
          exact ⟨m, .step hstep hm, hends⟩
      | none =>
          simp only [hb] at h
          rcases Exec.bind_eq_looping.1 h with ha | ⟨w₁, u, ha, h⟩
          · obtain ⟨hpar, hpath⟩ := handleNewBlock_looping ha
            refine ⟨n, .refl n, ?_⟩
            rw [Node.SearchEnds, hlock]
            simp [hb, hpar, hpath]
          · have hnew := Node.worksTo_handleNewBlock hlock hb hpool fun w hw => by
              rw [ha] at hw
              simp at hw
            rw [ha] at hnew
            obtain ⟨m, hm, hends⟩ := ih (hs ++ [block.hash])
              (n.resume (.done w₁ u) fun _ => .held rest (hs ++ [block.hash])) w rfl hpool h
            exact ⟨m, hnew.trans hm, hends⟩

variable {g : GenesisDraw} {tr : List (Node × Event)}

/-- Where the store is free nothing is endless. -/
theorem not_endless_of_free (h : f.lock = .free) : ¬ Endless f := by
  rintro (hl | ⟨block, x, idxs, rest, hs, hl, -⟩)
  · rw [h] at hl
    cases hl
  · rw [h] at hl
    cases hl

/-- **On the way to a free store** every step is careful and every search ends. -/
theorem careful_of_worksTo_free (hrun : Node.Run (Node.init g) tr m) (h : m.WorksTo f)
    (hf : f.lock = .free) : m.WorkerCareful ∧ m.SearchEnds := by
  have hstop : f.workerStep = none := by
    rw [Node.workerStep]
    simp only [hf]
  rcases worksTo_cases h with rfl | ⟨m', hs, hrest⟩
  · -- the end itself
    refine ⟨⟨fun x hx => ?_, fun idxs hidxs => ?_⟩, ?_⟩
    · rw [Node.atHand, hf] at hx
      cases hx
    · rw [Node.cleansUp, hf] at hidxs
      cases hidxs
    · rw [Node.SearchEnds, hf]
      trivial
  · -- after a step that is not careful, or into an endless search, the store is never free again
    have hnot : ¬ Endless m' := fun hendless =>
      not_endless_of_free hf (endless_of_worksTo hendless hrest)
    have hlock : m.lock ≠ .poisoned := by
      intro hl
      rw [Node.workerStep, hl] at hs
      simp at hs
    have hpool := mempoolPoisoned_eq_false hrun hlock
    have hne : m'.lock ≠ .poisoned := fun hl => hnot (Or.inl hl)
    refine ⟨(poisons_iff (e := .worker) (backed_of_run hrun) hlock hpool hs).1 hne, ?_⟩
    by_contra hends
    exact hnot (endless_of_not_searchEnds hpool hs hends)

/-- **Careful steps do not poison the store.** -/
theorem lock_ne_of_careful (hrun : Node.Run (Node.init g) tr n) (hlock : n.lock ≠ .poisoned)
    (hcareful : ∀ m, n.WorksTo m → m.WorkerCareful) (h : n.WorksTo f) : f.lock ≠ .poisoned := by
  obtain ⟨tr', hrun', htr'⟩ := h
  refine (careful_iff (hrun.trans hrun')).1 fun x hx => ?_
  rcases List.mem_append.1 hx with hx | hx
  · exact (careful_iff hrun).2 hlock x hx
  · obtain ⟨tr₁, m', tr₂, hrun₁, -, -, rfl⟩ := hrun'.split_of_mem hx
    rw [htr' x hx]
    exact hcareful x.1 ⟨tr₁, hrun₁, fun y hy => htr' y (List.mem_append_left _ hy)⟩

end Steps

/-- **When the treatment of a `Blocks` message returns**: in any reachable node whose store is free,
if and only if every step of the network worker from taking the message on is careful and the chain of
first children of every new block ends. -/
theorem blocks_message_returns_iff {g : GenesisDraw} {tr : List (Node × Event)} {n : Node}
    (hrun : Node.Run (Node.init g) tr n) (hlock : n.lock = .free) (blocks : List Block) :
    (n.toWorker.blocksMessage blocks).Returns ↔
      ∀ m₀, n.step (.message (.blocks blocks)) = some m₀ →
        ∀ m, m₀.WorksTo m → m.WorkerCareful ∧ m.SearchEnds := by
  have hpool : n.mempoolPoisoned = false :=
    mempoolPoisoned_eq_false hrun (by rw [hlock]; simp)
  have htake : n.step (.message (.blocks blocks)) = some { n with lock := .held blocks [] } := by
    rw [Node.step, Node.messageStep, if_pos hlock]
  have hfirst : Node.Run (Node.init g) (tr ++ [(n, .message (.blocks blocks))])
      { n with lock := .held blocks [] } := hrun.snoc htake
  constructor
  · rintro ⟨w, u, hdone⟩ m₀ hm₀ m hm
    rw [htake, Option.some_inj] at hm₀
    subst hm₀
    obtain ⟨m₁, hm₁, hend⟩ := Node.worksTo_blocksMessage hlock hpool fun w' hw' => by
      rw [hdone] at hw'
      simp at hw'
    rw [htake, Option.some_inj] at hm₁
    subst hm₁
    rw [hdone] at hend
    obtain ⟨tr', hrun', -⟩ := id hm
    exact careful_of_worksTo_free (hfirst.trans hrun') (worksTo_final hend rfl hm) rfl
  · intro h
    have hall := h _ htake
    cases hres : n.toWorker.blocksMessage blocks with
    | done w u => exact Exec.returns_done w u
    | looping w =>
        rw [Worker.blocksMessage] at hres
        rcases Exec.bind_eq_looping.1 hres with hloop | ⟨w₁, hs, -, hdone⟩
        · obtain ⟨m, hm, hends⟩ := exists_not_searchEnds blocks [] { n with lock := .held blocks [] }
            w rfl hpool hloop
          exact absurd (hall m hm).2 hends
        · cases hdone
    | panicked w =>
        -- all steps are careful, but they end with a poisoned store
        obtain ⟨m₁, hm₁, hend⟩ := Node.worksTo_blocksMessage hlock hpool fun w' hw' => by
          rw [hres] at hw'
          simp at hw'
        rw [htake, Option.some_inj] at hm₁
        subst hm₁
        rw [hres] at hend
        exact absurd rfl (lock_ne_of_careful hfirst (by simp) (fun m hm => (hall m hm).1) hend)

omit [Crypto]

/-- **Two messages crash a new node.**  In the first, two parked blocks are released one after the
other, and the second position is beyond the end of what the first removal leaves; in the second, a
child of a rejected block is released, and the state of its parent is missing. -/
theorem blocks_message_crashes :
    letI := sampleCrypto
    Node.Run (Node.init sampleGenesis) [] (Node.init sampleGenesis) ∧
      ¬ ((Node.init sampleGenesis).toWorker.blocksMessage
        [sampleBlock 2 3 3 [], sampleBlock 3 4 4 [], sampleBlock 1 2 2 []]).Returns ∧
      ¬ ((Node.init sampleGenesis).toWorker.blocksMessage
        [easyBlock 2 3 3, easyBlock 1 2 2]).Returns :=
  ⟨.nil, by decide +kernel, by decide +kernel⟩

/-- A block and an orphan released by it. -/
theorem blocks_message_returns_iff_orphan :
    letI := sampleCrypto
    ((Node.init sampleGenesis).toWorker.blocksMessage
        [sampleBlock 2 3 3 [], sampleBlock 1 2 2 []]).Returns ∧
      (((Node.init sampleGenesis).toWorker.blocksMessage
          [sampleBlock 2 3 3 [], sampleBlock 1 2 2 []]).Returns ↔
        ∀ m₀, (Node.init sampleGenesis).step (.message (.blocks [sampleBlock 2 3 3 [],
          sampleBlock 1 2 2 []])) = some m₀ →
            ∀ m, m₀.WorksTo m → m.WorkerCareful ∧ m.SearchEnds) :=
  ⟨by decide +kernel, @blocks_message_returns_iff sampleCrypto _ _ _ Lts.Run.nil rfl _⟩

end BitcoinClient
