/-
**Where the blocks of a node come from.**

A block enters a node in a `Blocks` message or by being mined; the genesis block is there from the
start.  The node may change the length of a block when it stores it, and nothing else.  This module
carries that through a run: whatever block is in the store, in the orphan buffer, in the channel of
finished blocks or in the local variables of a thread, its header and its transactions are those of
a block that the run has introduced.

Main definitions:

* `BitcoinClient.Node.introduces`, `BitcoinClient.introduced` — the blocks that a step and a run
  introduce;
* `BitcoinClient.CollisionFree` — different headers of a list of blocks have different hashes;
* `BitcoinClient.AllBlocks` — the blocks of a node have a property;
* `BitcoinClient.Known` — every block of a node is one of a list, up to its length.

Main results:

* `BitcoinClient.allBlocks_step`, `BitcoinClient.known_step` — the step lemmas;
* `BitcoinClient.known_of_run` — **every block of a node was introduced by its run**;
* `BitcoinClient.same_hash_same_header`, `BitcoinClient.hash_not_binding` — what the hash of a stored
  block commits to, and what it does not.
-/

import BitcoinClient.Core

set_option relaxedAutoImplicit false
set_option autoImplicit false

namespace BitcoinClient

variable [Crypto]

/-! ### Introduced blocks -/

/-- The blocks of a `Blocks` message. -/
def Event.blocks : Event → List Block
  | .message (.blocks bs) => bs
  | _ => []

/-- The blocks that a step introduces: those of a message, or the one it mines. -/
def Node.introduces (n : Node) (e : Event) : List Block := e.blocks ++ (n.mined e).toList

/-- The blocks that a run introduces, with the genesis block of the node. -/
def introduced (g : GenesisDraw) (tr : List (Node × Event)) : List Block :=
  g.block :: tr.flatMap fun x => x.1.introduces x.2

theorem introduced_append (g : GenesisDraw) (tr : List (Node × Event)) (n : Node) (e : Event) :
    introduced g (tr ++ [(n, e)]) = introduced g tr ++ n.introduces e := by
  simp [introduced]

/-- Different headers of the list have different hashes. -/
def CollisionFree (B : List Block) : Prop :=
  ∀ x ∈ B, ∀ y ∈ B, x.hash = y.hash → x.header = y.header

instance (B : List Block) : Decidable (CollisionFree B) :=
  inferInstanceAs (Decidable (∀ x ∈ B, ∀ y ∈ B, _))

omit [Crypto] in
/-- The block is one of the list, up to its length. -/
def OneOf (B : List Block) (b : Block) : Prop := ∃ x ∈ B, b.header = x.header ∧ b.data = x.data

omit [Crypto] in
theorem OneOf.of_mem {B : List Block} {b : Block} (h : b ∈ B) : OneOf B b := ⟨b, h, rfl, rfl⟩

omit [Crypto] in
theorem OneOf.mono {B B' : List Block} {b : Block} (h : OneOf B b) (hB : B ⊆ B') : OneOf B' b := by
  obtain ⟨x, hx, hrest⟩ := h
  exact ⟨x, hB hx, hrest⟩

theorem CollisionFree.header_eq {B : List Block} (hB : CollisionFree B) {b c : Block}
    (hb : OneOf B b) (hc : OneOf B c) (h : b.hash = c.hash) : b.header = c.header := by
  obtain ⟨x, hx, hbx, -⟩ := hb
  obtain ⟨y, hy, hcy, -⟩ := hc
  rw [hbx, hcy]
  refine hB x hx y hy ?_
  rw [← Block.hash_congr hbx, ← Block.hash_congr hcy, h]

/-! ### The blocks of a node -/

/-- The blocks in the local variables of the network worker that holds the store. -/
def ChainLock.blocks : ChainLock → List Block
  | .held rest _ => rest
  | .searching block newBlockInserted _ rest _ => block :: newBlockInserted :: rest
  | _ => []

/-- The blocks in the local variables of the miner. -/
def MinerPc.blocks : MinerPc → List Block
  | .loopHead g => [g]
  | .control g p => [g, p]
  | .mining g p => [g, p]
  | _ => []

/-- Every block in the store, in the channel of finished blocks and in the variables of the miner
has the property `P`. -/
structure AllBlocks (P : Block → Prop) (c : Core) : Prop where
  stored : ∀ h b, c.chain.getBlock h = some b → P b
  chan : ∀ b ∈ c.chan, P b
  pc : ∀ b ∈ c.pc.blocks, P b

omit [Crypto] in
/-- The blocks of the miner after it has read the tip. -/
theorem TipRead.mem_blocks {tipBlock : Block} {pc pc' : MinerPc} (h : TipRead tipBlock pc pc') :
    ∀ b ∈ pc'.blocks, b = tipBlock ∨ b ∈ pc.blocks := by
  intro b hb
  cases h with
  | start => simpa [MinerPc.blocks] using hb
  | loopHead g =>
      simp only [MinerPc.blocks, List.mem_cons, List.not_mem_nil, or_false] at hb ⊢
      tauto
  | update g p =>
      simp only [MinerPc.blocks, List.mem_cons, List.not_mem_nil, or_false] at hb ⊢
      tauto

omit [Crypto] in
theorem PcMove.blocks_subset {pc pc' : MinerPc} (h : PcMove pc pc') : pc'.blocks ⊆ pc.blocks := by
  intro b hb
  cases h with
  | wait g p =>
      simp only [MinerPc.blocks, List.mem_cons, List.not_mem_nil, or_false] at hb ⊢
      exact Or.inl hb
  | run g p => exact hb
  | miss g p =>
      simp only [MinerPc.blocks, List.mem_cons, List.not_mem_nil, or_false] at hb ⊢
      exact Or.inl hb
  | stop pc => exact absurd hb List.not_mem_nil

omit [Crypto] in
/-- The channel after a panic. -/
theorem chan_subset_of_panic {c : Core} {chan : List Block}
    (h : chan = c.chan ∨ chan = c.chan.tail) : chan ⊆ c.chan := by
  rcases h with rfl | rfl
  · exact List.Subset.refl _
  · exact List.tail_subset _

omit [Crypto] in
/-- The blocks of the miner after a panic. -/
theorem pc_subset_of_panic {c : Core} {pc : MinerPc} (h : pc = c.pc ∨ pc = .stopped) :
    pc.blocks ⊆ c.pc.blocks := by
  rcases h with rfl | rfl
  · exact List.Subset.refl _
  · exact List.nil_subset _

omit [Crypto] in
/-- The channel after a block is mined. -/
theorem mem_chan_of_mined {chan : List Block} {P : Prop} [Decidable P] {b g mined : Block}
    (h : b ∈ chan ++ (if P then [g] else []) ++ [mined]) : b ∈ chan ∨ b = g ∨ b = mined := by
  rw [List.append_assoc, List.mem_append, List.mem_append, List.mem_singleton] at h
  refine h.imp id (Or.imp (fun hb => ?_) id)
  split at hb
  · exact List.mem_singleton.1 hb
  · exact absurd hb List.not_mem_nil

theorem AllBlocks.stored_put {P : Block → Prop} {c : Core} (h : AllBlocks P c) {block : Block}
    {length : UInt32} (hb : P { block with length := length }) :
    ∀ hash b, (c.chain.put block length).getBlock hash = some b → P b := by
  intro hash b hget
  rw [Blockchain.getBlock_put] at hget
  split at hget
  · rw [← Option.some_inj.1 hget]
    exact hb
  · exact h.stored hash b hget

theorem allBlocks_init {P : Block → Prop} {g : GenesisDraw} (h : P g.block) :
    AllBlocks P (Node.init g).core where
  stored hash b hb := by
    obtain ⟨-, rfl⟩ := Blockchain.getBlock_new_eq_some.1 hb
    exact h
  chan b hb := absurd hb List.not_mem_nil
  pc b hb := absurd hb List.not_mem_nil

/-- **The step lemma for a property that does not depend on the length**: it is enough that the
blocks that the step lets in have it. -/
theorem allBlocks_step {P : Block → Prop} {n n' : Node} {e : Event}
    (hP : ∀ b length, P b → P { b with length := length }) (h : AllBlocks P n.core)
    (hgenesis : ∀ b ∈ n.acceptsGenesis e, P b)
    (hattached : ∀ b ∈ n.attached e, ∀ p, n.blockchain.getBlockState b.getParent = some p → P b)
    (hmined : ∀ b ∈ n.mined e, P b) (hstep : n.step e = some n') : AllBlocks P n'.core := by
  have hc := Node.core_step hstep
  generalize n'.core = c' at hc
  cases hc with
  | other => exact h
  | take _ => exact { h with }
  | skip _ => exact { h with }
  | park _ _ _ _ => exact { h with }
  | reject _ _ => exact { h with }
  | cleanup _ _ _ => exact { h with }
  | halfAttach _ _ _ _ => exact { h with }
  | pcMove hpc => exact { h with pc := fun b hb => h.pc b (hpc.blocks_subset hb) }
  | readTip _ _ htip hpc =>
      refine { h with pc := fun b hb => ?_ }
      rcases hpc.mem_blocks b hb with rfl | hb
      · exact h.stored _ _ htip
      · exact h.pc b hb
  | panic hpc hchan =>
      exact { h with chan := fun b hb => h.chan b (chan_subset_of_panic hchan hb),
                     pc := fun b hb => h.pc b (pc_subset_of_panic hpc hb) }
  | genesis hlock hnew hpar hlen =>
      have hblock := hgenesis _ (Node.acceptsGenesis_iff.2 ⟨rfl, _, _, hlock, hnew, hpar, hlen⟩)
      exact { h with stored := h.stored_put (hP _ _ hblock) }
  | attach hat hv hp _ _ =>
      have hblock := hattached _ (hat.attached_eq hv) _ hp
      exact { h with stored := h.stored_put (hP _ _ hblock) }
  | @mined draw g p block parentState newState validTx hlock hpc hb hle hp he =>
      have hblock := hmined _ (Node.mined_iff.2
        ⟨_, _, _, _, _, _, _, rfl, hlock, hpc, hb, hle, hp, he, rfl⟩)
      have hpcs := h.pc
      rw [hpc] at hpcs
      have hg := hpcs g (List.mem_cons_self ..)
      refine { h with chan := fun b hb' => ?_, pc := fun b hb' => ?_ }
      · rcases mem_chan_of_mined hb' with hb' | rfl | rfl
        · exact h.chan b hb'
        · exact hg
        · exact hblock
      · rw [List.mem_singleton.1 hb']
        exact hg
  | @insertMined block chan length _ hchan _ =>
      have hall := h.chan
      rw [hchan] at hall
      have hblock := hall block (List.mem_cons_self ..)
      refine { h with stored := h.stored_put (hP _ _ hblock), chan := fun b hb => ?_ }
      exact hall b (List.mem_cons_of_mem _ hb)

/-- Every block of a node is one of the list `B`; only a stored block and a copy of one may differ
in length. -/
structure Known (B : List Block) (c : Core) : Prop where
  hash : ∀ h b, c.chain.getBlock h = some b → b.hash = h
  all : AllBlocks (OneOf B) c
  orphans : ∀ b ∈ c.orphans, b ∈ B
  lock : ∀ b ∈ c.lock.blocks, b ∈ B

namespace Known

variable {B B' : List Block} {c : Core}

theorem mono (h : Known B c) (hB : B ⊆ B') : Known B' c where
  hash := h.hash
  all :=
    { stored := fun hash b hb => (h.all.stored hash b hb).mono hB
      chan := fun b hb => (h.all.chan b hb).mono hB
      pc := fun b hb => (h.all.pc b hb).mono hB }
  orphans b hb := hB (h.orphans b hb)
  lock b hb := hB (h.lock b hb)

/-- The block that the network worker is about to check, and what it goes on with. -/
theorem atHand (h : Known B c) {block parent : Block} {lock : ChainLock}
    (hat : AtHand c block parent lock) : block ∈ B ∧ ∀ b ∈ lock.blocks, b ∈ B := by
  cases hat with
  | direct hlock _ _ =>
      have hall := h.lock
      rw [hlock] at hall
      have hblock := hall block (List.mem_cons_self ..)
      refine ⟨hblock, fun b hb => ?_⟩
      rcases List.mem_cons.1 hb with rfl | hb
      · exact hblock
      · exact hall b hb
  | orphan hlock hf =>
      have hall := h.lock
      rw [hlock] at hall
      have hchild := h.orphans block (mem_of_findChild hf).1
      refine ⟨hchild, fun b hb => ?_⟩
      rcases List.mem_cons.1 hb with rfl | hb
      · exact hall b (List.mem_cons_self ..)
      · rcases List.mem_cons.1 hb with rfl | hb
        · exact hchild
        · exact hall b (List.mem_cons_of_mem _ (List.mem_cons_of_mem _ hb))

theorem hash_put (h : Known B c) (block : Block) (length : UInt32) :
    ∀ hash b, (c.chain.put block length).getBlock hash = some b → b.hash = hash := by
  intro hash b hget
  rw [Blockchain.getBlock_put] at hget
  split at hget
  · rename_i hh
    rw [← Option.some_inj.1 hget]
    exact hh.symm
  · exact h.hash hash b hget

end Known

theorem known_init (g : GenesisDraw) : Known [g.block] (Node.init g).core where
  hash h b hb := by
    obtain ⟨rfl, rfl⟩ := Blockchain.getBlock_new_eq_some.1 hb
    rfl
  all := allBlocks_init (OneOf.of_mem (List.mem_singleton.2 rfl))
  orphans b hb := absurd hb List.not_mem_nil
  lock b hb := absurd hb List.not_mem_nil

/-- **The step lemma.** -/
theorem known_step {B : List Block} {n n' : Node} {e : Event} (h : Known B n.core)
    (hstep : n.step e = some n') : Known (B ++ n.introduces e) n'.core := by
  have hbig : Known (B ++ n.introduces e) n.core := h.mono (List.subset_append_left _ _)
  have hall : AllBlocks (OneOf (B ++ n.introduces e)) n'.core := by
    refine allBlocks_step (fun b length hb => hb) hbig.all ?_ ?_ ?_ hstep
    · intro b hb
      obtain ⟨rfl, rest, hs, hl, -⟩ := Node.acceptsGenesis_iff.1 hb
      refine OneOf.of_mem (hbig.lock b ?_)
      rw [hl]
      exact List.mem_cons_self ..
    · intro b hb _ _
      obtain ⟨rfl, parent, lock, hat, -⟩ := Node.attached_iff.1 hb
      exact OneOf.of_mem (hbig.atHand hat).1
    · intro b hb
      have hmem : b ∈ n.introduces e := List.mem_append_right _ (Option.mem_toList.2 hb)
      exact OneOf.of_mem (List.mem_append_right _ hmem)
  have hc := Node.core_step hstep
  generalize n'.core = c' at hc hall
  cases hc with
  | other => exact hbig
  | pcMove _ => exact { hbig with all := hall }
  | readTip _ _ _ _ => exact { hbig with all := hall }
  | mined _ _ _ _ _ _ => exact { hbig with all := hall }
  | panic _ _ => exact { hbig with all := hall, lock := fun b hb => absurd hb List.not_mem_nil }
  | halfAttach _ _ _ _ =>
      exact { hbig with all := hall, lock := fun b hb => absurd hb List.not_mem_nil }
  | take _ =>
      refine { hbig with all := hall, lock := fun b hb => ?_ }
      exact List.mem_append_right _ (List.mem_append_left _ hb)
  | skip hlock =>
      refine { hbig with all := hall, lock := fun b hb => ?_ }
      rcases hlock with ⟨hs, -, rfl⟩ | ⟨block, rest, hs, hl, rfl, -⟩
      · exact absurd hb List.not_mem_nil
      · have hlocal := hbig.lock
        rw [hl] at hlocal
        exact hlocal b (List.mem_cons_of_mem _ hb)
  | genesis hl _ _ _ =>
      have hlocal := hbig.lock
      rw [hl] at hlocal
      refine { hbig with hash := hbig.hash_put _ _, all := hall, lock := fun b hb => ?_ }
      exact hlocal b (List.mem_cons_of_mem _ hb)
  | @park block rest hs hl _ _ _ =>
      have hlocal := hbig.lock
      rw [hl] at hlocal
      refine { hbig with all := hall, orphans := fun b hb => ?_, lock := fun b hb => ?_ }
      · rcases List.mem_append.1 hb with hb | hb
        · exact hbig.orphans b hb
        · rw [List.mem_singleton.1 hb]
          exact hlocal block (List.mem_cons_self ..)
      · exact hlocal b (List.mem_cons_of_mem _ hb)
  | reject hat _ => exact { hbig with all := hall, lock := (hbig.atHand hat).2 }
  | attach hat _ _ _ _ =>
      exact { hbig with hash := hbig.hash_put _ _, all := hall, lock := (hbig.atHand hat).2 }
  | insertMined _ _ _ => exact { hbig with hash := hbig.hash_put _ _, all := hall }
  | @cleanup block x idxs rest hs orphans lock hl _ hclean =>
      have hlocal := hbig.lock
      rw [hl] at hlocal
      refine { hbig with all := hall, orphans := fun b hb => ?_, lock := fun b hb => ?_ }
      · exact hbig.orphans b (subset_of_removeAll (hclean.imp And.left And.left) b hb)
      · rcases hclean with ⟨-, rfl⟩ | ⟨-, rfl⟩
        · exact hlocal b (List.mem_cons_of_mem _ (List.mem_cons_of_mem _ hb))
        · exact absurd hb List.not_mem_nil

/-- **Every block of a node was introduced by its run.** -/
theorem known_of_run {g : GenesisDraw} {tr : List (Node × Event)} {n : Node}
    (hrun : Node.Run (Node.init g) tr n) : Known (introduced g tr) n.core := by
  induction hrun with
  | nil => exact known_init g
  | snoc _ hstep ih =>
      rw [introduced_append]
      exact known_step ih hstep

section

variable {g : GenesisDraw} {tr : List (Node × Event)} {n : Node} {x : Node × Event}

theorem introduces_subset (hx : x ∈ tr) : x.1.introduces x.2 ⊆ introduced g tr :=
  fun _ hb => List.mem_cons_of_mem _ (List.mem_flatMap.2 ⟨x, hx, hb⟩)

/-- The same for the states that a run passes. -/
theorem known_of_mem (hrun : Node.Run (Node.init g) tr n) (hx : x ∈ tr) :
    Known (introduced g tr) x.1.core := by
  obtain ⟨tr₁, m, tr₂, hrun₁, -, -, rfl⟩ := hrun.split_of_mem hx
  refine (known_of_run hrun₁).mono fun b hb => ?_
  rcases List.mem_cons.1 hb with rfl | hb
  · exact List.mem_cons_self ..
  · rw [introduced, List.flatMap_append]
    exact List.mem_cons_of_mem _ (List.mem_append_left _ hb)

end

/-! ### What a hash commits to -/

/-- **The hash of a stored block commits to its header**, and to its transactions as far as the
introduced blocks with that header agree on them. -/
theorem same_hash_same_header {g₁ g₂ : GenesisDraw} {tr₁ tr₂ : List (Node × Event)} {n₁ n₂ : Node}
    (hrun₁ : Node.Run (Node.init g₁) tr₁ n₁) (hrun₂ : Node.Run (Node.init g₂) tr₂ n₂)
    (hfree : CollisionFree (introduced g₁ tr₁ ++ introduced g₂ tr₂)) {h : H256} {b₁ b₂ : Block}
    (hb₁ : n₁.blockchain.getBlock h = some b₁) (hb₂ : n₂.blockchain.getBlock h = some b₂) :
    b₁.header = b₂.header ∧
      ((∀ x ∈ introduced g₁ tr₁ ++ introduced g₂ tr₂, ∀ y ∈ introduced g₁ tr₁ ++ introduced g₂ tr₂,
        x.header = b₁.header → y.header = b₁.header → x.data = y.data) → b₁.data = b₂.data) := by
  have hh₁ : b₁.hash = h := (known_of_run hrun₁).hash h b₁ hb₁
  have hh₂ : b₂.hash = h := (known_of_run hrun₂).hash h b₂ hb₂
  obtain ⟨x, hx, hbx, hdx⟩ := (known_of_run hrun₁).all.stored h b₁ hb₁
  obtain ⟨y, hy, hby, hdy⟩ := (known_of_run hrun₂).all.stored h b₂ hb₂
  have hx' := List.mem_append_left (introduced g₂ tr₂) hx
  have hy' := List.mem_append_right (introduced g₁ tr₁) hy
  have hheader : b₁.header = b₂.header :=
    hfree.header_eq ⟨x, hx', hbx, hdx⟩ ⟨y, hy', hby, hdy⟩ (by rw [hh₁, hh₂])
  refine ⟨hheader, fun hdata => ?_⟩
  rw [hdx, hdy]
  exact hdata x hx' y hy' hbx.symm (by rw [hheader, hby])

omit [Crypto]

/-- Another genesis block, with hash 5 under `sampleCrypto`. -/
def otherGenesis : GenesisDraw := { parent := 98, nonce := 5, timestamp := 0, merkleRoot := 0 }

/-- A node receives a child of the genesis block of `sampleGenesis` without transactions. -/
def receiveEmpty : List Event := [.message (.blocks [sampleBlock 1 2 2 []]), .worker, .worker]

/-- A node receives the genesis block of `sampleGenesis` and a child of it with a transaction. -/
def receiveGenesis (data : List SignedTransaction) : List Event :=
  [.message (.blocks [sampleGenesis.block, sampleBlock 1 2 2 data]), .worker, .worker, .worker]

/-- **The hash does not commit to the transactions**: two nodes store blocks with the same header
and different transactions, and no two headers that they have seen collide. -/
theorem hash_not_binding :
    letI := sampleCrypto
    CollisionFree
        (introduced sampleGenesis
            (Lts.replayTrace Node.step (Node.init sampleGenesis) receiveEmpty) ++
          introduced otherGenesis
            (Lts.replayTrace Node.step (Node.init otherGenesis)
              (receiveGenesis [sampleTransaction 0 1 1 40]))) ∧
      (∃ n, Node.Run (Node.init sampleGenesis)
          (Lts.replayTrace Node.step (Node.init sampleGenesis) receiveEmpty) n ∧
        (n.blockchain.getBlock 2).map Block.data = some []) ∧
      ∃ n, Node.Run (Node.init otherGenesis)
          (Lts.replayTrace Node.step (Node.init otherGenesis)
            (receiveGenesis [sampleTransaction 0 1 1 40])) n ∧
        (n.blockchain.getBlock 2).map Block.data = some [sampleTransaction 0 1 1 40] :=
  ⟨by decide +kernel, Lts.exists_run_of_replay (by decide +kernel),
    Lts.exists_run_of_replay (by decide +kernel)⟩

/-- Two nodes that have received the same block. -/
theorem same_hash_same_header_sample :
    letI := sampleCrypto
    ∃ n₁ n₂ : Node, ∃ b₁ ∈ n₁.blockchain.getBlock 2, ∃ b₂ ∈ n₂.blockchain.getBlock 2,
      b₁.header = b₂.header ∧ b₁.data = b₂.data := by
  obtain ⟨n₁, hrun₁, hb₁⟩ := @Lts.exists_run_of_replay _ _ (@Node.step sampleCrypto) receiveEmpty
    (@Node.init sampleCrypto sampleGenesis)
    (fun n => n.blockchain.getBlock 2 = some (sampleBlock 1 2 2 [])) (by decide +kernel)
  obtain ⟨n₂, hrun₂, hb₂⟩ := @Lts.exists_run_of_replay _ _ (@Node.step sampleCrypto)
    (receiveGenesis []) (@Node.init sampleCrypto otherGenesis)
    (fun n => n.blockchain.getBlock 2 = some (sampleBlock 1 2 2 [])) (by decide +kernel)
  obtain ⟨hheader, hdata⟩ := @same_hash_same_header sampleCrypto _ _ _ _ _ _ hrun₁ hrun₂
    (by decide +kernel) _ _ _ hb₁ hb₂
  exact ⟨n₁, n₂, _, hb₁, _, hb₂, hheader, hdata (by decide +kernel)⟩

end BitcoinClient
