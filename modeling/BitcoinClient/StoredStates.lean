/-
**Every stored block has its state.**

The miner stores the state of a block when it mines it, and the miner worker stores the block itself
in a later section of another thread; the network workers write both in one section.  `Backed` is what
the store, the channel of finished blocks and the variables of the miner have in common at every
moment: a stored block has a state and, unless it is stored with length at most 1, a stored parent; a
block in the channel has its state already; a block that the miner remembers is stored.  Conversely,
until a panic poisons the mutex, a state belongs to a stored block or to one in the channel.

Main definitions:

* `BitcoinClient.Linked` — the parent of a block of length at least 2 is stored;
* `BitcoinClient.Stocked`, `BitcoinClient.Backed` — the invariant of the store, and the one of a node.

Main results:

* `BitcoinClient.Stocked.put` — what an insertion keeps;
* `BitcoinClient.backed_step`, `BitcoinClient.backed_of_run` — **every reachable node is backed**;
* `BitcoinClient.Stocked.exists_tip` — the tip is stored, and it has a state.
-/

import BitcoinClient.Provenance

set_option relaxedAutoImplicit false
set_option autoImplicit false

namespace BitcoinClient

variable [Crypto]

/-! ### The store -/

/-- The parent of a block of length at least 2 is stored. -/
def Linked (c : Blockchain) (b : Block) : Prop := 1 < b.length → b.getParent ∈ c.blocks

/-- Every block is stored under its hash and has a state, and its parent is stored unless its length
is at most 1. -/
structure Stocked (c : Blockchain) : Prop where
  keyed : ∀ h b, c.getBlock h = some b → b.hash = h
  stated : ∀ h ∈ c.blocks, h ∈ c.blockStates
  linked : ∀ h b, c.getBlock h = some b → Linked c b
  nonempty : ∃ h, h ∈ c.blocks

omit [Crypto] in
theorem mem_blocks_iff {c : Blockchain} {h : H256} : h ∈ c.blocks ↔ ∃ b, c.getBlock h = some b :=
  Finmap.mem_iff

omit [Crypto] in
theorem not_mem_blocks_iff {c : Blockchain} {h : H256} : h ∉ c.blocks ↔ c.getBlock h = none :=
  Finmap.lookup_eq_none.symm

omit [Crypto] in
theorem mem_blocks_of_getBlock {c : Blockchain} {h : H256} {b : Block} (hb : c.getBlock h = some b) :
    h ∈ c.blocks :=
  mem_blocks_iff.2 ⟨b, hb⟩

omit [Crypto] in
theorem mem_blockStates_iff {c : Blockchain} {h : H256} :
    h ∈ c.blockStates ↔ ∃ s, c.getBlockState h = some s :=
  Finmap.mem_iff

omit [Crypto] in
theorem mem_blockStates_of_getBlockState {c : Blockchain} {h : H256} {s : State}
    (hs : c.getBlockState h = some s) : h ∈ c.blockStates :=
  mem_blockStates_iff.2 ⟨s, hs⟩

@[simp] theorem mem_blocks_put {c : Blockchain} {block : Block} {length : UInt32} {h : H256} :
    h ∈ (c.put block length).blocks ↔ h = block.hash ∨ h ∈ c.blocks :=
  Finmap.mem_insert

@[simp] theorem blockStates_put (c : Blockchain) (block : Block) (length : UInt32) :
    (c.put block length).blockStates = c.blockStates := rfl

omit [Crypto] in
@[simp] theorem blocks_putState (c : Blockchain) (h : H256) (s : State) :
    (c.putState h s).blocks = c.blocks := rfl

omit [Crypto] in
@[simp] theorem mem_blockStates_putState {c : Blockchain} {h h' : H256} {s : State} :
    h ∈ (c.putState h' s).blockStates ↔ h = h' ∨ h ∈ c.blockStates :=
  Finmap.mem_insert

omit [Crypto] in
theorem Linked.mono {c d : Blockchain} {b : Block} (h : Linked c b)
    (hcd : ∀ h ∈ c.blocks, h ∈ d.blocks) : Linked d b :=
  fun hlen => hcd _ (h hlen)

omit [Crypto] in
/-- A block that an insertion accepts with a length of at least 2 has a stored parent. -/
theorem linked_of_storedLength {c : Blockchain} {block : Block} {length : UInt32}
    (h : Blockchain.StoredLength c block length) : Linked c { block with length := length } := by
  intro hlen
  rcases h with ⟨hle, rfl⟩ | ⟨-, parent, hp, -⟩
  · exact absurd hlen (UInt32.not_lt.2 hle)
  · exact mem_blocks_of_getBlock hp

namespace Stocked

variable {c : Blockchain}

theorem putState (h : Stocked c) (hash : H256) (s : State) : Stocked (c.putState hash s) where
  keyed := h.keyed
  stated k hk := mem_blockStates_putState.2 (Or.inr (h.stated k hk))
  linked := h.linked
  nonempty := h.nonempty

/-- **Storing a block that has its state.** -/
theorem put (h : Stocked c) {block : Block} {length : UInt32} (hs : block.hash ∈ c.blockStates)
    (hlen : Blockchain.StoredLength c block length) : Stocked (c.put block length) where
  keyed k b hb := by
    rw [Blockchain.getBlock_put] at hb
    split at hb
    · rename_i hk
      rw [← Option.some_inj.1 hb]
      exact hk.symm
    · exact h.keyed k b hb
  stated k hk := by
    rcases mem_blocks_put.1 hk with rfl | hk
    · exact hs
    · exact h.stated k hk
  linked k b hb := by
    have hgrow : ∀ h ∈ c.blocks, h ∈ (c.put block length).blocks :=
      fun h hh => mem_blocks_put.2 (Or.inr hh)
    rw [Blockchain.getBlock_put] at hb
    split at hb
    · rw [← Option.some_inj.1 hb]
      exact (linked_of_storedLength hlen).mono hgrow
    · exact (h.linked k b hb).mono hgrow
  nonempty := ⟨block.hash, mem_blocks_put.2 (Or.inl rfl)⟩

/-- **The tip is stored, and it has a state.** -/
theorem exists_tip (h : Stocked c) {order : List H256}
    (horder : Blockchain.IterOrder c.blocks order) :
    c.tip order ∈ c.blocks ∧ c.tip order ∈ c.blockStates := by
  obtain ⟨h₀, hmem⟩ := h.nonempty
  obtain ⟨b₀, hb₀⟩ := mem_blocks_iff.1 hmem
  obtain ⟨b, hb, -⟩ := Blockchain.tip_spec horder hb₀
  have htip := mem_blocks_of_getBlock hb
  exact ⟨htip, h.stated _ htip⟩

theorem new (g : GenesisDraw) : Stocked (Blockchain.new g) where
  keyed k b hb := by
    obtain ⟨rfl, rfl⟩ := Blockchain.getBlock_new_eq_some.1 hb
    rfl
  stated k hk := by
    obtain ⟨b, hb⟩ := mem_blocks_iff.1 hk
    obtain ⟨hh, -⟩ := Blockchain.getBlock_new_eq_some.1 hb
    exact mem_blockStates_of_getBlockState (Blockchain.getBlockState_new_eq_some.2 ⟨hh, rfl⟩)
  linked k b hb := by
    obtain ⟨-, rfl⟩ := Blockchain.getBlock_new_eq_some.1 hb
    exact fun hlen => absurd hlen (by decide : ¬ (1 : UInt32) < 1)
  nonempty := ⟨g.block.hash, mem_blocks_of_getBlock (Blockchain.getBlock_new_self g)⟩

end Stocked

/-! ### The node -/

/-- The store of a node, with what the threads keep for later: the blocks in the channel have their
states, and the blocks of the miner are stored. -/
structure Backed (c : Core) : Prop where
  chain : Stocked c.chain
  chan : ∀ b ∈ c.chan, b.hash ∈ c.chain.blockStates ∧ Linked c.chain b
  pc : ∀ b ∈ c.pc.blocks, b.hash ∈ c.chain.blocks ∧ Linked c.chain b
  /-- A state belongs to a stored block or to one in the channel. -/
  states : c.lock ≠ .poisoned →
    ∀ h ∈ c.chain.blockStates, h ∈ c.chain.blocks ∨ ∃ b ∈ c.chan, b.hash = h

namespace Backed

variable {c : Core}

/-- A store with more blocks and more states serves the channel as well. -/
theorem chan_mono (h : Backed c) {d : Blockchain} (hblocks : ∀ k ∈ c.chain.blocks, k ∈ d.blocks)
    (hstates : ∀ k ∈ c.chain.blockStates, k ∈ d.blockStates) :
    ∀ b ∈ c.chan, b.hash ∈ d.blockStates ∧ Linked d b := by
  intro b hb
  obtain ⟨hs, hlink⟩ := h.chan b hb
  exact ⟨hstates _ hs, hlink.mono hblocks⟩

/-- A store with more blocks serves the miner as well. -/
theorem pc_mono (h : Backed c) {d : Blockchain} (hblocks : ∀ k ∈ c.chain.blocks, k ∈ d.blocks) :
    ∀ b ∈ c.pc.blocks, b.hash ∈ d.blocks ∧ Linked d b := by
  intro b hb
  obtain ⟨hmem, hlink⟩ := h.pc b hb
  exact ⟨hblocks _ hmem, hlink.mono hblocks⟩

/-- Storing a block together with its state. -/
theorem store (h : Backed c) {block : Block} {length : UInt32} {s : State} {lock : ChainLock}
    (hlock : c.lock ≠ .poisoned) (hlen : Blockchain.StoredLength c.chain block length) :
    Backed { c with chain := (c.chain.putState block.hash s).put block length, lock } where
  chain := (h.chain.putState block.hash s).put (mem_blockStates_putState.2 (Or.inl rfl)) hlen
  chan := h.chan_mono (fun k hk => mem_blocks_put.2 (Or.inr hk))
    fun k hk => mem_blockStates_putState.2 (Or.inr hk)
  pc := h.pc_mono fun k hk => mem_blocks_put.2 (Or.inr hk)
  states _ k hk := by
    rcases mem_blockStates_putState.1 hk with rfl | hk
    · exact Or.inl (mem_blocks_put.2 (Or.inl rfl))
    · exact (h.states hlock k hk).imp (fun hk => mem_blocks_put.2 (Or.inr hk)) id

/-- Mining a block: its state is stored, and it goes to the channel, after the genesis block when it
is a child of that. -/
theorem mined (h : Backed c) {g p block : Block} {s : State} {v : List SignedTransaction}
    (hlock : c.lock = .free) (hpc : c.pc = .mining g p) (hpar : block.getParent = p.hash) :
    Backed { c with chain := c.chain.putState block.hash s
                    chan := c.chan ++ (if block.getParent = g.hash then [g] else []) ++
                      [{ block with data := v }]
                    pc := .loopHead g } := by
  have hpcs := h.pc
  rw [hpc] at hpcs
  obtain ⟨hg, hglink⟩ := hpcs g (List.mem_cons_self ..)
  obtain ⟨hp, -⟩ := hpcs p (List.mem_cons_of_mem _ (List.mem_cons_self ..))
  have hstates : ∀ k ∈ c.chain.blockStates, k ∈ (c.chain.putState block.hash s).blockStates :=
    fun k hk => mem_blockStates_putState.2 (Or.inr hk)
  refine { chain := h.chain.putState _ _, chan := fun b hb => ?_, pc := fun b hb => ?_,
           states := fun _ k hk => ?_ }
  · rcases mem_chan_of_mined hb with hb | rfl | rfl
    · exact h.chan_mono (d := c.chain.putState block.hash s) (fun _ => id) hstates b hb
    · exact ⟨hstates _ (h.chain.stated _ hg), hglink⟩
    · refine ⟨mem_blockStates_putState.2 (Or.inl rfl), fun _ => ?_⟩
      show block.getParent ∈ c.chain.blocks
      rw [hpar]
      exact hp
  · rw [List.mem_singleton.1 hb]
    exact ⟨hg, hglink⟩
  · rcases mem_blockStates_putState.1 hk with rfl | hk
    · exact Or.inr ⟨_, List.mem_append_right _ (List.mem_singleton.2 rfl), rfl⟩
    · refine (h.states (by rw [hlock]; simp) k hk).imp id ?_
      rintro ⟨b, hb, hbk⟩
      exact ⟨b, List.mem_append_left _ (List.mem_append_left _ hb), hbk⟩

/-- The miner worker stores the first block of the channel. -/
theorem insertMined (h : Backed c) {block : Block} {chan : List Block} {length : UInt32}
    (hlock : c.lock = .free) (hchan : c.chan = block :: chan)
    (hlen : Blockchain.StoredLength c.chain block length) :
    Backed { c with chain := c.chain.put block length, chan } := by
  have hall := h.chan
  have hstates := h.states (by rw [hlock]; simp)
  rw [hchan] at hall hstates
  have hgrow : ∀ k ∈ c.chain.blocks, k ∈ (c.chain.put block length).blocks :=
    fun k hk => mem_blocks_put.2 (Or.inr hk)
  refine { chain := h.chain.put (hall block (List.mem_cons_self ..)).1 hlen, chan := fun b hb => ?_,
           pc := h.pc_mono hgrow, states := fun _ k hk => ?_ }
  · obtain ⟨hs, hlink⟩ := hall b (List.mem_cons_of_mem _ hb)
    exact ⟨hs, hlink.mono hgrow⟩
  · rcases hstates k hk with hk | ⟨b, hb, rfl⟩
    · exact Or.inl (hgrow k hk)
    · rcases List.mem_cons.1 hb with rfl | hb
      · exact Or.inl (mem_blocks_put.2 (Or.inl rfl))
      · exact Or.inr ⟨b, hb, rfl⟩

end Backed

/-- **The step lemma.** -/
theorem backed_step {n n' : Node} {e : Event} (h : Backed n.core) (hstep : n.step e = some n') :
    Backed n'.core := by
  have hc := Node.core_step hstep
  have hne : n'.core.lock ≠ .poisoned → n.core.lock ≠ .poisoned := mt hc.poisoned
  generalize n'.core = c' at hc hne
  cases hc with
  | other => exact h
  | pcMove hpc => exact { h with pc := fun b hb => h.pc b (hpc.blocks_subset hb) }
  | readTip hlock _ htip hpc =>
      refine { h with pc := fun b hb => ?_ }
      rcases hpc.mem_blocks b hb with rfl | hb
      · have hmem := mem_blocks_of_getBlock htip
        rw [← h.chain.keyed _ _ htip] at hmem
        exact ⟨hmem, h.chain.linked _ _ htip⟩
      · exact h.pc b hb
  | panic hpc hchan =>
      exact { chain := h.chain
              chan := fun b hb => h.chan b (chan_subset_of_panic hchan hb)
              pc := fun b hb => h.pc b (pc_subset_of_panic hpc hb)
              states := fun hl => absurd rfl hl }
  | take _ => exact { h with states := fun hl => h.states (hne hl) }
  | skip _ => exact { h with states := fun hl => h.states (hne hl) }
  | park _ _ _ _ => exact { h with states := fun hl => h.states (hne hl) }
  | reject _ _ => exact { h with states := fun hl => h.states (hne hl) }
  | genesis _ _ _ hlen => exact h.store (hne (by simp)) (Blockchain.storedLength_of_eq_one hlen)
  | attach hat _ _ _ hlen => exact h.store hat.lock_eq.1 hlen
  | halfAttach _ _ _ _ =>
      exact { chain := h.chain.putState _ _
              chan := h.chan_mono (fun _ => id) fun k hk => mem_blockStates_putState.2 (Or.inr hk)
              pc := h.pc
              states := fun hl => absurd rfl hl }
  | cleanup _ _ _ => exact { h with states := fun hl => h.states (hne hl) }
  | mined hlock hpc hb _ _ _ => exact h.mined hlock hpc (MiningDraw.getParent_block hb)
  | insertMined hlock hchan hlen => exact h.insertMined hlock hchan hlen

theorem backed_init (g : GenesisDraw) : Backed (Node.init g).core where
  chain := .new g
  chan b hb := absurd hb List.not_mem_nil
  pc b hb := absurd hb List.not_mem_nil
  states _ k hk := by
    obtain ⟨s, hs⟩ := mem_blockStates_iff.1 hk
    obtain ⟨rfl, -⟩ := Blockchain.getBlockState_new_eq_some.1 hs
    exact Or.inl (mem_blocks_of_getBlock (Blockchain.getBlock_new_self g))

/-- **Every reachable node is backed.** -/
theorem backed_of_run {g : GenesisDraw} {tr : List (Node × Event)} {n : Node}
    (hrun : Node.Run (Node.init g) tr n) : Backed n.core :=
  hrun.invariant (I := fun m : Node => Backed m.core) (C := fun _ _ => True) (backed_init g)
    (fun _ _ _ h _ hs => backed_step h hs) fun _ _ => trivial

end BitcoinClient
