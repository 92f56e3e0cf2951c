/-
**Proof of work and difficulty in the store.**

A block of length 1 whose parent is not stored is accepted as a genesis block without any check, so
a node can store a block of any difficulty and any hash, and its parent may be stored later.  Every
other block that enters the store has passed the check against a parent, or was mined.  The parent
of a released orphan is the block treated before it, which may have been rejected; the orphan is
attached only when the hash of that block has a state all the same, and then the block has the
header of one whose difficulty was checked.

Main definitions:

* `BitcoinClient.foreignGeneses` — the blocks that a run accepts as genesis blocks;
* `BitcoinClient.HasWork` — a block whose header is exempt, or whose hash is small enough;
* `BitcoinClient.FixedDifficulty` — the blocks of a node, and the hashes with a state, have the
  fixed difficulty.

Main results:

* `BitcoinClient.work_of_stored` — **every stored block but the genesis blocks has its work**, and
  all have the fixed difficulty when the accepted genesis blocks do;
* `BitcoinClient.genesis_without_work` — a stored block of another difficulty, with a stored parent
  and a hash above its difficulty.
-/

import BitcoinClient.Provenance

set_option relaxedAutoImplicit false
set_option autoImplicit false

namespace BitcoinClient

variable [Crypto]

/-- The blocks that the steps of a run accept as genesis blocks. -/
def foreignGeneses (tr : List (Node × Event)) : List Block :=
  tr.filterMap fun x => x.1.acceptsGenesis x.2

theorem mem_foreignGeneses {tr : List (Node × Event)} {x : Node × Event} (hx : x ∈ tr) {b : Block}
    (hb : b ∈ x.1.acceptsGenesis x.2) : b ∈ foreignGeneses tr :=
  List.mem_filterMap.2 ⟨x, hx, hb⟩

/-! ### Proof of work -/

/-- The header is one of `exempt`, or the hash of the block is at most its difficulty. -/
def HasWork (exempt : List Header) (b : Block) : Prop :=
  b.header ∈ exempt ∨ b.hash ≤ b.getDifficulty

/-- **The step lemma for proof of work.** -/
theorem hasWork_step {exempt : List Header} {n n' : Node} {e : Event}
    (h : AllBlocks (HasWork exempt) n.core) (hgenesis : ∀ b ∈ n.acceptsGenesis e, b.header ∈ exempt)
    (hstep : n.step e = some n') : AllBlocks (HasWork exempt) n'.core := by
  refine allBlocks_step (fun b length hb => hb) h (fun b hb => Or.inl (hgenesis b hb)) ?_ ?_ hstep
  · intro b hb _ _
    obtain ⟨-, parent, lock, -, hv⟩ := Node.attached_iff.1 hb
    exact Or.inr (checkBlockValidity_iff.1 hv).1
  · intro b hb
    obtain ⟨draw, g, parent, block, p, s, v, -, -, -, -, hle, -, -, rfl⟩ := Node.mined_iff.1 hb
    exact Or.inr hle

theorem hasWork_of_run {g : GenesisDraw} {tr : List (Node × Event)} {n : Node}
    (hrun : Node.Run (Node.init g) tr n) :
    AllBlocks (HasWork (g.block.header :: (foreignGeneses tr).map Block.header)) n.core := by
  refine hrun.invariant
    (I := fun m : Node =>
      AllBlocks (HasWork (g.block.header :: (foreignGeneses tr).map Block.header)) m.core)
    (C := fun m e => ∀ b ∈ m.acceptsGenesis e,
      b.header ∈ g.block.header :: (foreignGeneses tr).map Block.header) ?_ ?_ ?_
  · exact allBlocks_init (Or.inl (List.mem_cons_self ..))
  · exact fun m e m' h hgenesis hstep => hasWork_step h hgenesis hstep
  · intro x hx b hb
    exact List.mem_cons_of_mem _ (List.mem_map.2 ⟨b, mem_foreignGeneses hx hb, rfl⟩)

/-! ### Difficulty -/

/-- The blocks of a node have the fixed difficulty, and a hash that has a state is that of a block
of `B` with the fixed difficulty. -/
structure FixedDifficulty (B : List Block) (c : Core) : Prop where
  all : AllBlocks (fun b => b.getDifficulty = fixedDifficulty) c
  states : ∀ h s, c.chain.getBlockState h = some s →
    ∃ x ∈ B, x.hash = h ∧ x.getDifficulty = fixedDifficulty

/-- A block that is attached has the fixed difficulty: the block it was checked against has it. -/
theorem FixedDifficulty.attached {B : List Block} {n : Node} (h : FixedDifficulty B n.core)
    (hknown : Known B n.core) (hfree : CollisionFree B) {e : Event} {b : Block}
    (hb : b ∈ n.attached e) {s : State}
    (hs : n.blockchain.getBlockState b.getParent = some s) :
    b ∈ B ∧ b.getDifficulty = fixedDifficulty := by
  obtain ⟨-, parent, lock, hat, hv⟩ := Node.attached_iff.1 hb
  refine ⟨(hknown.atHand hat).1, ?_⟩
  rw [(checkBlockValidity_iff.1 hv).2]
  cases hat with
  | direct _ _ hpar => exact h.all.stored _ _ hpar
  | orphan hlock hf =>
      -- the block treated before has a state, so it has the header of a block of that difficulty
      obtain ⟨x, hx, hhash, hfixed⟩ := h.states _ s hs
      have hlocal := hknown.lock
      rw [hlock] at hlocal
      have hparent := hlocal parent (List.mem_cons_of_mem _ (List.mem_cons_self ..))
      rw [(mem_of_findChild hf).2] at hhash
      have hheader := hfree x hx parent hparent hhash
      rw [Block.getDifficulty, ← hheader]
      exact hfixed

/-- **The step lemma for the difficulty.** -/
theorem fixedDifficulty_step {B : List Block} {n n' : Node} {e : Event}
    (h : FixedDifficulty B n.core) (hknown : Known B n.core) (hfree : CollisionFree B)
    (hin : n.introduces e ⊆ B)
    (hgenesis : ∀ b ∈ n.acceptsGenesis e, b.getDifficulty = fixedDifficulty)
    (hstep : n.step e = some n') : FixedDifficulty B n'.core := by
  have hmined : ∀ b ∈ n.mined e, b ∈ B ∧ b.getDifficulty = fixedDifficulty := by
    intro b hb
    have hmem : b ∈ n.introduces e := List.mem_append_right _ (Option.mem_toList.2 hb)
    refine ⟨hin hmem, ?_⟩
    obtain ⟨draw, g, parent, block, p, s, v, -, -, hpc, hblock, -, -, -, rfl⟩ :=
      Node.mined_iff.1 hb
    have hpcs := h.all.pc
    rw [hpc] at hpcs
    rw [getDifficulty_mk, (MiningDraw.block_eq_some hblock).2.2]
    exact hpcs parent (List.mem_cons_of_mem _ (List.mem_cons_self ..))
  constructor
  · refine allBlocks_step (fun b length hb => hb) h.all hgenesis ?_ ?_ hstep
    · exact fun b hb p hp => (h.attached hknown hfree hb hp).2
    · exact fun b hb => (hmined b hb).2
  · intro hash s hs
    rcases Node.getBlockState_of_step hstep hs with
      hold | ⟨-, b, hb, hh⟩ | ⟨b, p, v, hb, hh, hp, -⟩
    · exact h.states hash s hold
    · obtain ⟨-, rest, hs', hlock, -⟩ := Node.acceptsGenesis_iff.1 hb
      have hlocal := hknown.lock
      rw [hlock] at hlocal
      exact ⟨b, hlocal b (List.mem_cons_self ..), hh, hgenesis b hb⟩
    · rcases Node.attached_or_mined_of_computed hb with hb | hb
      · obtain ⟨hmem, hfixed⟩ := h.attached hknown hfree hb hp
        exact ⟨b, hmem, hh, hfixed⟩
      · obtain ⟨hmem, hfixed⟩ := hmined b hb
        exact ⟨b, hmem, hh, hfixed⟩

theorem fixedDifficulty_init {B : List Block} {g : GenesisDraw} (hg : g.block ∈ B) :
    FixedDifficulty B (Node.init g).core where
  all := allBlocks_init rfl
  states h s hs := by
    obtain ⟨rfl, -⟩ := Blockchain.getBlockState_new_eq_some.1 hs
    exact ⟨g.block, hg, rfl, rfl⟩

theorem fixedDifficulty_of_run {g : GenesisDraw} {tr : List (Node × Event)} {n : Node}
    (hrun : Node.Run (Node.init g) tr n) (hfree : CollisionFree (introduced g tr))
    (hgenesis : ∀ b ∈ foreignGeneses tr, b.getDifficulty = fixedDifficulty) :
    FixedDifficulty (introduced g tr) n.core := by
  refine hrun.invariant
    (I := fun m : Node => FixedDifficulty (introduced g tr) m.core)
    (C := fun m e => Known (introduced g tr) m.core ∧ m.introduces e ⊆ introduced g tr ∧
      ∀ b ∈ m.acceptsGenesis e, b.getDifficulty = fixedDifficulty) ?_ ?_ ?_
  · exact fixedDifficulty_init (List.mem_cons_self ..)
  · exact fun m e m' h hC hstep => fixedDifficulty_step h hC.1 hfree hC.2.1 hC.2.2 hstep
  · exact fun x hx => ⟨known_of_mem hrun hx, introduces_subset hx,
      fun b hb => hgenesis b (mem_foreignGeneses hx hb)⟩

/-! ### Stored blocks -/

/-- **Proof of work over the whole store**: the own genesis block and the blocks accepted as genesis
blocks aside, every stored block has a hash that is at most its difficulty; and all of them have the
fixed difficulty if the blocks accepted as genesis blocks have it. -/
theorem work_of_stored {g : GenesisDraw} {tr : List (Node × Event)} {n : Node}
    (hrun : Node.Run (Node.init g) tr n) (hfree : CollisionFree (introduced g tr)) :
    (∀ h b, n.blockchain.getBlock h = some b → b.header ≠ g.block.header →
      (∀ f ∈ foreignGeneses tr, f.header ≠ b.header) → b.hash ≤ b.getDifficulty) ∧
    ((∀ f ∈ foreignGeneses tr, f.getDifficulty = fixedDifficulty) →
      ∀ h b, n.blockchain.getBlock h = some b → b.getDifficulty = fixedDifficulty) := by
  refine ⟨fun h b hb hown hforeign => ?_, fun hgenesis h b hb => ?_⟩
  · rcases (hasWork_of_run hrun).stored h b hb with hexempt | hwork
    · rcases List.mem_cons.1 hexempt with hexempt | hexempt
      · exact absurd hexempt hown
      · obtain ⟨f, hf, hheader⟩ := List.mem_map.1 hexempt
        exact absurd hheader (hforeign f hf)
    · exact hwork
  · exact (fixedDifficulty_of_run hrun hfree hgenesis).all.stored h b hb

omit [Crypto]

/-- A block of length 1 and difficulty 0 with hash 3. -/
def easyGenesis : Block where
  header := { parent := 2, nonce := 3, difficulty := 0, timestamp := 0, merkleRoot := 0 }
  length := 1
  data := []

/-- A node receives `easyGenesis`, and then its parent. -/
def receiveEasyGenesis : List Event :=
  [.message (.blocks [easyGenesis, sampleBlock 1 2 2 []]), .worker, .worker, .worker, .worker]

/-- **A stored block without work**: it has another difficulty, its parent is stored, and its hash
is above its difficulty. -/
theorem genesis_without_work :
    letI := sampleCrypto
    ∃ n, Node.Run (Node.init sampleGenesis)
        (Lts.replayTrace Node.step (Node.init sampleGenesis) receiveEasyGenesis) n ∧
      n.blockchain.getBlock 3 = some easyGenesis ∧
      easyGenesis.getDifficulty ≠ fixedDifficulty ∧
      (n.blockchain.getBlock easyGenesis.getParent).isSome ∧
      ¬ easyGenesis.hash ≤ easyGenesis.getDifficulty :=
  Lts.exists_run_of_replay (by decide +kernel)

/-- A node that receives a block on its genesis block. -/
theorem work_of_stored_child :
    letI := sampleCrypto
    ∃ n : Node, ∃ b ∈ n.blockchain.getBlock 2, b.hash ≤ b.getDifficulty ∧
      b.getDifficulty = fixedDifficulty := by
  obtain ⟨n, hrun, hb⟩ := @Lts.exists_run_of_replay _ _ (@Node.step sampleCrypto) receiveEmpty
    (@Node.init sampleCrypto sampleGenesis)
    (fun n => n.blockchain.getBlock 2 = some (sampleBlock 1 2 2 [])) (by decide +kernel)
  obtain ⟨hwork, hfixed⟩ := @work_of_stored sampleCrypto _ _ _ hrun (by decide +kernel)
  exact ⟨n, _, hb, hwork 2 _ hb (by decide +kernel) (by decide +kernel),
    hfixed (by decide +kernel) 2 _ hb⟩

end BitcoinClient
