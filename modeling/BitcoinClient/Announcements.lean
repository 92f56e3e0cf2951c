/-
**The blocks that a node announces.**

After a message with blocks the network worker broadcasts the hashes of all its new blocks, that is of those
that it has treated.  A treated block need not be stored: it may have been rejected, or parked in the orphan
buffer.  A peer that asks for such a block gets no answer.

The worker holds the store throughout the message, so nothing but the treatment itself stores blocks.  An
announced block is therefore stored exactly if some step of the treatment has stored it: its own first step,
when it is accepted as a genesis block or passes the check against its parent, or a later one, when the search
of the orphan buffer has come back to it.

Main definitions:

* `BitcoinClient.ChainLock.hashes` — the hashes that are collected for the announcement;
* `BitcoinClient.Node.treats`, `BitcoinClient.Node.Stores` — a step treats a new block, and stores a block;
* `BitcoinClient.StoresTreated` — every block that is treated in the present message is stored in it.

Main results:

* `BitcoinClient.treatment_step` — **the step lemma**: what is collected, and what is stored;
* `BitcoinClient.mem_blocks_run`, `BitcoinClient.exists_treated` — what a treatment has stored and collected;
* `BitcoinClient.announces_stored_iff` — **when a node can serve what it announces**;
* `BitcoinClient.announces_not_stored` — an orphan that is announced.
-/

import BitcoinClient.Crashes

set_option relaxedAutoImplicit false
set_option autoImplicit false

namespace BitcoinClient

variable [Crypto]

/-- The hashes that are collected for the announcement, with that of the block under treatment. -/
def ChainLock.hashes : ChainLock → List H256
  | .held _ newHashes => newHashes
  | .searching block _ _ _ newHashes => newHashes ++ [block.hash]
  | _ => []

/-- The new block of the message that a step begins to treat. -/
def Node.treats (n : Node) : Event → Option Block
  | .worker =>
    match n.lock with
    | .held (block :: _) _ => if n.blockchain.getBlock block.hash = none then some block else none
    | _ => none
  | _ => none

/-- A step stores a block: it passes the check against its parent, or it is accepted as a genesis block. -/
def Node.Stores (n : Node) (e : Event) (b : Block) : Prop :=
  n.attached e = some b ∨ n.acceptsGenesis e = some b

/-! ### The steps of a treatment -/

section Steps

variable {n n' : Node} {e : Event} {w : Worker} {block parent : Block}

omit [Crypto] in
/-- A computation after which the store is not poisoned. -/
theorem resume_of_ne {α : Type} {x : Exec Worker α} {lock : α → ChainLock}
    (hne : (n.resume x lock).lock ≠ .poisoned) :
    ∃ w a, x = .done w a ∧ n.resume x lock = { n with toWorker := w, lock := lock a } := by
  cases x with
  | done w a => exact ⟨w, a, rfl, rfl⟩
  | panicked w => exact absurd rfl hne
  | looping w => exact absurd rfl hne

theorem Settles.mem_blocks {c c' : Blockchain} (h : Settles c block parent c') (k : H256) :
    k ∈ c'.blocks ↔ k ∈ c.blocks ∨ checkBlockValidity block parent = true ∧ block.hash = k := by
  rw [mem_blocks_iff, mem_blocks_iff, ← Option.isSome_iff_exists, ← Option.isSome_iff_exists,
    h.isSome_iff]

/-- What a step of the treatment does: it collects the hash of the block that it begins to treat, and the store
gets the block that it stores. -/
structure TreatmentStep (n : Node) (e : Event) (n' : Node) : Prop where
  hashes : n'.lock = .free ∧ n.treats e = none ∨
    n'.lock.hashes = n.lock.hashes ++ (n.treats e).toList.map Block.hash
  stored : ∀ k, k ∈ n'.blockchain.blocks ↔ k ∈ n.blockchain.blocks ∨ ∃ b, n.Stores e b ∧ b.hash = k

/-- A step that stores nothing. -/
theorem TreatmentStep.of_same (hhashes : n'.lock = .free ∧ n.treats e = none ∨
      n'.lock.hashes = n.lock.hashes ++ (n.treats e).toList.map Block.hash)
    (hchain : n'.blockchain = n.blockchain) (hnot : ∀ b, ¬ n.Stores e b) : TreatmentStep n e n' where
  hashes := hhashes
  stored k := by
    rw [hchain]
    simp [hnot]

/-- A step that checks a block and goes on with the search. -/
theorem TreatmentStep.of_attachIfValid {lock : ChainLock} (hat : n.atHand = some (block, parent))
    (hgenesis : n.acceptsGenesis .worker = none) (hw : w.blockchain = n.blockchain)
    (hhashes : lock.hashes = n.lock.hashes ++ (n.treats .worker).toList.map Block.hash)
    (hn' : n' = n.resume (w.attachIfValid block parent) fun _ => lock) (hne : n'.lock ≠ .poisoned) :
    TreatmentStep n .worker n' := by
  subst hn'
  obtain ⟨w', _, hdone, hres⟩ := resume_of_ne hne
  obtain ⟨c', hsettles, rfl⟩ := Worker.attachIfValid_ensures w' _ hdone
  have hstores : ∀ b, n.Stores .worker b ↔ checkBlockValidity block parent = true ∧ block = b := by
    intro b
    rw [Node.Stores, hgenesis, Node.attached, hat]
    simp
  rw [hres]
  refine ⟨Or.inr hhashes, fun k => ?_⟩
  simp only [hstores]
  rw [hw] at hsettles
  refine (hsettles.mem_blocks k).trans (or_congr_right ?_)
  constructor
  · rintro ⟨hv, hk⟩
    exact ⟨block, ⟨hv, rfl⟩, hk⟩
  · rintro ⟨_, ⟨hv, rfl⟩, hk⟩
    exact ⟨hv, hk⟩

/-- A new block whose parent is not stored is accepted as a genesis block, or parked. -/
theorem treatmentStep_withoutParent {rest : List Block} {hs : List H256}
    (hlock : n.lock = .held (block :: rest) hs) (hnew : n.blockchain.getBlock block.hash = none)
    (hpar : n.blockchain.getBlock block.getParent = none) (hw : w.blockchain = n.blockchain)
    (hn' : n' = n.resume (w.handleWithoutParent block) fun _ => .held rest (hs ++ [block.hash]))
    (hne : n'.lock ≠ .poisoned) : TreatmentStep n .worker n' := by
  have htreats : n.treats .worker = some block := by simp [Node.treats, hlock, hnew]
  have hnot : n.atHand = none := by simp [Node.atHand, hlock, hnew, Blockchain.getParentBlock, hpar]
  have hattached : n.attached .worker = none := by rw [Node.attached, hnot]
  have hhashes : (ChainLock.held rest (hs ++ [block.hash])).hashes =
      n.lock.hashes ++ (n.treats .worker).toList.map Block.hash := by
    rw [htreats, hlock]
    rfl
  subst hn'
  unfold Worker.handleWithoutParent at hne ⊢
  by_cases hlen : block.length = 1
  · have hgenesis : n.acceptsGenesis .worker = some block := by
      simp [Node.acceptsGenesis, hlock, hnew, hpar, hlen]
    rw [if_pos hlen] at hne ⊢
    cases hins : w.blockchain.insert block with
    | none =>
        rw [hins] at hne
        exact absurd rfl hne
    | some chain =>
        obtain ⟨length, -, rfl⟩ := Blockchain.insert_eq_some_iff.1 hins
        refine ⟨Or.inr hhashes, fun k => ?_⟩
        simp only [Node.Stores, hattached, hgenesis, reduceCtorEq, false_or, Option.some.injEq,
          exists_eq_left']
        rw [hw, or_comm, eq_comm]
        exact mem_blocks_put
  · rw [if_neg hlen]
    refine .of_same (Or.inr hhashes) hw fun b => ?_
    rw [Node.Stores, hattached, Node.acceptsGenesis, hlock]
    simp [hlen]

/-- **One step of the network worker.** -/
theorem treatmentStep_workerStep (h : n.workerStep = some n') (hne : n'.lock ≠ .poisoned) :
    TreatmentStep n .worker n' := by
  unfold Node.workerStep at h
  split at h
  · cases h
  · cases h
  · rename_i hs hlock
    rw [← Option.some_inj.1 h]
    refine .of_same (Or.inl ⟨rfl, by simp [Node.treats, hlock]⟩) (Worker.announce_store _ _).1 fun b => ?_
    simp [Node.Stores, Node.attached, Node.atHand, Node.acceptsGenesis, hlock]
  · rename_i block rest hs hlock
    cases hnew : n.blockchain.getBlock block.hash with
    | some b =>
        simp only [hnew, Option.some.injEq] at h
        rw [← h]
        refine .of_same (Or.inr ?_) rfl fun b' => ?_
        · simp [Node.treats, hlock, hnew, ChainLock.hashes]
        · simp [Node.Stores, Node.attached, Node.atHand, Node.acceptsGenesis, hlock, hnew]
    | none =>
        simp only [hnew] at h
        split at h
        · rw [← Option.some_inj.1 h] at hne
          exact absurd rfl hne
        · split at h
          · rename_i hpar
            exact treatmentStep_withoutParent (w := n.toWorker.removeFromMempool block) hlock hnew hpar
              rfl (Option.some_inj.1 h).symm hne
          · rename_i parent hpar
            have hpar' : n.blockchain.getParentBlock block = some parent := hpar
            refine .of_attachIfValid (w := n.toWorker.removeFromMempool block) ?_ ?_ rfl ?_
              (Option.some_inj.1 h).symm hne
            · simp [Node.atHand, hlock, hnew, hpar']
            · have hpar'' : n.blockchain.getBlock block.getParent = some parent := hpar
              simp [Node.acceptsGenesis, hlock, hpar'']
            · simp [Node.treats, hlock, hnew, ChainLock.hashes]
  · rename_i block x idxs rest hs hlock
    split at h
    · rename_i hnone
      have hn' := (Option.some_inj.1 h).symm
      subst hn'
      obtain ⟨w', _, hdone, hres⟩ := resume_of_ne hne
      have hsame : (n.toWorker.cleanup idxs).Ensures fun w' _ => w'.blockchain = n.blockchain := by
        rw [Worker.cleanup, Exec.ensures_lift]
        exact fun _ _ _ => rfl
      rw [hres]
      refine .of_same (Or.inr ?_) (hsame _ _ hdone) fun b => ?_
      · simp [Node.treats, hlock, ChainLock.hashes]
      · simp [Node.Stores, Node.attached, Node.atHand, Node.acceptsGenesis, hlock, hnone]
    · rename_i idx child hsome
      refine .of_attachIfValid (w := n.toWorker) ?_ ?_ rfl ?_ (Option.some_inj.1 h).symm hne
      · simp [Node.atHand, hlock, hsome]
      · simp [Node.acceptsGenesis, hlock]
      · simp [Node.treats, hlock, ChainLock.hashes]

/-- The other threads keep the mutex as it is, and cannot change the store while it is not free; or a worker
takes a message with blocks. -/
theorem lock_of_not_worker (he : e ≠ .worker) (h : n.step e = some n') (hne : n'.lock ≠ .poisoned) :
    n'.lock = n.lock ∧ (n.lock ≠ .free → n'.blockchain = n.blockchain) ∨
      n.lock = .free ∧ ∃ blocks, n'.lock = .held blocks [] := by
  have hc := Node.core_step h
  have hne' : n'.core.lock ≠ .poisoned := hne
  change n'.core.lock = n.core.lock ∧ (n.core.lock ≠ .free → n'.core.chain = n.core.chain) ∨
    n.core.lock = .free ∧ ∃ blocks, n'.core.lock = .held blocks []
  generalize n'.core = c' at hc hne'
  cases hc with
  | other => exact Or.inl ⟨rfl, fun _ => rfl⟩
  | pcMove _ => exact Or.inl ⟨rfl, fun _ => rfl⟩
  | readTip _ _ _ _ => exact Or.inl ⟨rfl, fun _ => rfl⟩
  | panic _ _ => exact absurd rfl hne'
  | take hfree => exact Or.inr ⟨hfree, _, rfl⟩
  | mined hfree _ _ _ _ _ => exact Or.inl ⟨rfl, fun hlock => absurd hfree hlock⟩
  | insertMined hfree _ _ => exact Or.inl ⟨rfl, fun hlock => absurd hfree hlock⟩
  | _ => exact absurd rfl he

/-- The other threads, while the network worker holds the store. -/
theorem treatmentStep_other (he : e ≠ .worker) (hlock : n.lock ≠ .free) (h : n.step e = some n')
    (hne : n'.lock ≠ .poisoned) : TreatmentStep n e n' := by
  rcases lock_of_not_worker he h hne with ⟨hsame, hchain⟩ | ⟨hfree, -⟩
  · have htreats : n.treats e = none := by
      cases e <;> first | rfl | exact absurd rfl he
    refine .of_same (Or.inr ?_) (hchain hlock) ?_
    · rw [hsame, htreats]
      exact (List.append_nil _).symm
    · rintro b (hb | hb)
      · exact he (Node.attached_iff.1 hb).1
      · exact he (Node.acceptsGenesis_iff.1 hb).1
  · exact absurd hfree hlock

/-- A worker that has just taken a message has collected nothing. -/
theorem hashes_of_free (hlock : n.lock = .free) (h : n.step e = some n') (hfree : n'.lock ≠ .free)
    (hne : n'.lock ≠ .poisoned) : n'.lock.hashes = [] := by
  by_cases he : e = .worker
  · subst he
    simp [Node.step, Node.workerStep, hlock] at h
  · rcases lock_of_not_worker he h hne with ⟨hsame, -⟩ | ⟨-, blocks, hheld⟩
    · exact absurd (hsame.trans hlock) hfree
    · rw [hheld]
      rfl

/-- **The step lemma**, while the network worker holds the store. -/
theorem treatment_step (hlock : n.lock ≠ .free) (h : n.step e = some n') (hne : n'.lock ≠ .poisoned) :
    TreatmentStep n e n' := by
  by_cases he : e = .worker
  · subst he
    exact treatmentStep_workerStep h hne
  · exact treatmentStep_other he hlock h hne

end Steps

/-! ### The runs of a treatment -/

section Runs

variable {g : GenesisDraw} {tr tr₁ tr₂ : List (Node × Event)} {m n : Node}

/-- A block that a step begins to treat is not stored, and the network worker holds the store. -/
theorem held_of_treats {e : Event} {block : Block} (h : m.treats e = some block) :
    m.lock ≠ .free ∧ block.hash ∉ m.blockchain.blocks := by
  rw [Node.treats.eq_def] at h
  split at h
  · split at h
    · rename_i hlock
      obtain ⟨hnew, hblock⟩ := Option.ite_none_right_eq_some.1 h
      obtain rfl := Option.some_inj.1 hblock
      exact ⟨by rw [hlock]; exact nofun, not_mem_blocks_iff.2 hnew⟩
    · cases h
  · cases h

theorem poisoned_of_run (hrun : Node.Run m tr n) (hlock : m.lock = .poisoned) : n.lock = .poisoned := by
  induction hrun with
  | nil => exact hlock
  | snoc _ hs ih => exact poisoned_step hs ih

/-- **What a treatment has stored** is what its steps store. -/
theorem mem_blocks_run (hrun : Node.Run m tr n) (hheld : ∀ x ∈ tr, x.1.lock ≠ .free)
    (hne : n.lock ≠ .poisoned) (k : H256) : k ∈ n.blockchain.blocks ↔
      k ∈ m.blockchain.blocks ∨ ∃ x ∈ tr, ∃ b, x.1.Stores x.2 b ∧ b.hash = k := by
  induction hrun with
  | nil => simp
  | @snoc tr m' n e hr hs ih =>
      rw [List.forall_mem_append, List.forall_mem_singleton] at hheld
      have hne' : m'.lock ≠ .poisoned := fun hl => hne (poisoned_step hs hl)
      rw [(treatment_step hheld.2 hs hne).stored k, ih hheld.1 hne', or_assoc]
      simp only [List.mem_append, List.mem_singleton, or_and_right, exists_or, exists_eq_left]

/-- What has been collected stays. -/
theorem hashes_run (hrun : Node.Run m tr n) (hheld : ∀ x ∈ tr, x.1.lock ≠ .free)
    (hfree : n.lock ≠ .free) (hne : n.lock ≠ .poisoned) : m.lock.hashes ⊆ n.lock.hashes := by
  induction hrun with
  | nil => exact List.Subset.refl _
  | @snoc tr m' n e hr hs ih =>
      rw [List.forall_mem_append, List.forall_mem_singleton] at hheld
      have hne' : m'.lock ≠ .poisoned := fun hl => hne (poisoned_step hs hl)
      have hhashes := (treatment_step hheld.2 hs hne).hashes.resolve_left fun h => hfree h.1
      rw [hhashes]
      exact List.subset_append_of_subset_left _ (ih hheld.1 hheld.2 hne')

/-- **What is collected has been treated**, and the store has been held since. -/
theorem exists_treated (hrun : Node.Run (Node.init g) tr n) (hfree : n.lock ≠ .free)
    (hne : n.lock ≠ .poisoned) {h : H256} (hmem : h ∈ n.lock.hashes) :
    ∃ tr₁ m e block tr₂, tr = tr₁ ++ (m, e) :: tr₂ ∧ m.treats e = some block ∧ block.hash = h ∧
      ∀ x ∈ tr₂, x.1.lock ≠ .free := by
  induction hrun with
  | nil => exact absurd rfl hfree
  | @snoc tr m n e hr hs ih =>
      have hne' : m.lock ≠ .poisoned := fun hl => hne (poisoned_step hs hl)
      by_cases hlock : m.lock = .free
      · rw [hashes_of_free hlock hs hfree hne] at hmem
        cases hmem
      · have hhashes := (treatment_step hlock hs hne).hashes.resolve_left fun h => hfree h.1
        rw [hhashes, List.mem_append] at hmem
        rcases hmem with hmem | hmem
        · obtain ⟨tr₁, m', e', block, tr₂, rfl, htreats, hhash, hheld⟩ := ih hlock hne' hmem
          refine ⟨tr₁, m', e', block, tr₂ ++ [(m, e)], by simp, htreats, hhash, ?_⟩
          rw [List.forall_mem_append, List.forall_mem_singleton]
          exact ⟨hheld, hlock⟩
        · obtain ⟨block, hblock, rfl⟩ := List.mem_map.1 hmem
          exact ⟨tr, m, e, block, [], rfl, Option.mem_toList.1 hblock, rfl,
            fun _ hx => absurd hx List.not_mem_nil⟩

end Runs

/-! ### Announcing -/

/-- **Every new block of the present message is stored in its treatment**: since the worker has come to it, some
step has accepted it as a genesis block, or has found that it passes the check against its parent. -/
def StoresTreated (tr : List (Node × Event)) : Prop :=
  ∀ tr₁ m e block tr₂, tr = tr₁ ++ (m, e) :: tr₂ → m.treats e = some block →
    (∀ x ∈ tr₂, x.1.lock ≠ .free) → ∃ x ∈ (m, e) :: tr₂, ∃ b, x.1.Stores x.2 b ∧ b.hash = block.hash

/-- **When a node can serve what it announces.**  In every run and at the end of every message with blocks, the
hashes that the network worker broadcasts are all keys of the store exactly if every new block of the message
has been stored in its treatment. -/
theorem announces_stored_iff {g : GenesisDraw} {tr : List (Node × Event)} {n : Node}
    (hrun : Node.Run (Node.init g) tr n) {newHashes : List H256} (hlock : n.lock = .held [] newHashes) :
    n.step .worker =
        some { n with toWorker := n.toWorker.announce .newBlockHashes newHashes, lock := .free } ∧
      ((∀ h ∈ newHashes, h ∈ n.blockchain.blocks) ↔ StoresTreated tr) := by
  have hfree : n.lock ≠ .free := by rw [hlock]; exact nofun
  have hne : n.lock ≠ .poisoned := by rw [hlock]; exact nofun
  have hhashes : n.lock.hashes = newHashes := by rw [hlock]; rfl
  refine ⟨by rw [Node.step, Node.workerStep, hlock], ?_, ?_⟩
  · rintro hstored tr₁ m e block tr₂ rfl htreats hheld
    obtain ⟨m', -, hs, hrun₂⟩ := hrun.split
    have hm := held_of_treats htreats
    have hstep := treatment_step hm.1 hs fun hl => hne (poisoned_of_run hrun₂ hl)
    have hcollected := hstep.hashes.resolve_left fun h => by rw [htreats] at h; cases h.2
    have hmem : block.hash ∈ newHashes := by
      rw [← hhashes]
      refine hashes_run hrun₂ hheld hfree hne ?_
      rw [hcollected, htreats]
      exact List.mem_append_right _ (List.mem_singleton_self _)
    have hblocks := mem_blocks_run ((Lts.Run.single hs).trans hrun₂)
      (List.forall_mem_cons.2 ⟨hm.1, hheld⟩) hne block.hash
    exact (hblocks.1 (hstored _ hmem)).resolve_left hm.2
  · intro hstores h hmem
    rw [← hhashes] at hmem
    obtain ⟨tr₁, m, e, block, tr₂, rfl, htreats, rfl, hheld⟩ := exists_treated hrun hfree hne hmem
    obtain ⟨m', -, hs, hrun₂⟩ := hrun.split
    have hblocks := mem_blocks_run ((Lts.Run.single hs).trans hrun₂)
      (List.forall_mem_cons.2 ⟨(held_of_treats htreats).1, hheld⟩) hne block.hash
    exact hblocks.2 (Or.inr (hstores tr₁ m e block tr₂ rfl htreats hheld))

omit [Crypto]

/-- A node receives a block before its parent, both in one message. -/
def receiveReleased : List Event :=
  [.message (.blocks [sampleBlock 2 3 3 [], sampleBlock 1 2 2 []]), .worker, .worker, .worker, .worker]

/-- The first block is parked, and stored in the treatment of the second. -/
theorem announces_stored_iff_released :
    letI := sampleCrypto
    let tr := Lts.replayTrace Node.step (Node.init sampleGenesis) receiveReleased
    ∃ n, Node.Run (Node.init sampleGenesis) tr n ∧ n.lock = .held [] [3, 2] ∧ StoresTreated tr := by
  let _ := sampleCrypto
  intro tr
  obtain ⟨n, hrun, hlock, hchild, hparent⟩ := @Lts.exists_run_of_replay _ _ Node.step receiveReleased
    (Node.init sampleGenesis) (fun n => n.lock = .held [] [3, 2] ∧ 3 ∈ n.blockchain.blocks ∧
      2 ∈ n.blockchain.blocks) (by decide +kernel)
  refine ⟨n, hrun, hlock, (announces_stored_iff hrun hlock).2.1 fun h hh => ?_⟩
  rcases List.mem_cons.1 hh with rfl | hh
  · exact hchild
  · rw [List.mem_singleton.1 hh]
    exact hparent

/-- A node receives a block whose parent it does not have. -/
def receiveOrphan : List Event := [.message (.blocks [sampleBlock 2 3 3 []]), .worker]

/-- **An orphan is announced**: it is parked, and its hash is broadcast. -/
theorem announces_not_stored :
    letI := sampleCrypto
    ¬ ∀ (g : GenesisDraw) (tr : List (Node × Event)) (n : Node) (newHashes : List H256),
      Node.Run (Node.init g) tr n → n.lock = .held [] newHashes →
        ∀ h ∈ newHashes, h ∈ n.blockchain.blocks := by
  let _ := sampleCrypto
  intro hall
  obtain ⟨n, hrun, hlock, hnot⟩ := @Lts.exists_run_of_replay _ _ Node.step receiveOrphan
    (Node.init sampleGenesis) (fun n => n.lock = .held [] [3] ∧ 3 ∉ n.blockchain.blocks)
    (by decide +kernel)
  exact hnot (hall _ _ n _ hrun hlock 3 (List.mem_singleton_self 3))

end BitcoinClient
