/-
**When no parked block has a stored parent.**

A block leaves the orphan buffer when the search that its parent starts comes to it.  Three things go
wrong.  The search goes to the first child of a block and leaves the others.  Accepting a genesis block
and inserting a mined one start no search.  And the cleanup removes the positions that were visited one
by one, as they were found, which takes out other blocks than those visited unless the positions
decrease.  In a run in which none of this happens, no parked block has a stored parent whenever nothing
holds the store.

Main definitions:

* `BitcoinClient.Node.ReleasesAll` — the condition on a step;
* `BitcoinClient.NoneStranded`, `BitcoinClient.OnTheWay` — what holds between two blocks of a message, and
  within a search;
* `BitcoinClient.Accounted` — the invariant.

Main results:

* `BitcoinClient.removeAll_decreasing` — the cleanup of decreasing positions leaves the others;
* `BitcoinClient.accounted_step` — the step lemma;
* `BitcoinClient.no_stranded_orphan`, `BitcoinClient.sibling_stranded` — the runs without stranded blocks,
  and a second child that is left behind.
-/

import BitcoinClient.Crashes

set_option relaxedAutoImplicit false
set_option autoImplicit false

namespace BitcoinClient

/-! ### Decreasing positions -/

/-- **Removing decreasing positions leaves the blocks at the other ones.** -/
theorem removeAll_decreasing {idxs : List ℕ} {buffer orphans : List Block}
    (h : removeAll idxs buffer = .done orphans ()) (hdec : idxs.Pairwise fun i j => j < i) :
    ∀ z ∈ orphans, ∃ j, buffer[j]? = some z ∧ j ∉ idxs := by
  obtain ⟨rfl, hlen⟩ := removeAll_eq_done_iff.1 h
  exact fun z hz => Removal.exists_of_mem_eraseAll hdec hlen hz

variable [Crypto]

/-! ### The condition -/

/-- The parked children of a hash. -/
def parkedChildren (h : H256) (buffer : List Block) : List Block :=
  buffer.filter fun z => z.getParent = h

/-- A step of the network worker attaches a block with one parked child at most and accepts a genesis
block with none, and it removes decreasing positions; the miner worker inserts a block with no parked
child. -/
def Node.ReleasesAll (n : Node) : Event → Prop
  | .worker =>
    (∀ b ∈ n.attached .worker, (parkedChildren b.hash n.orphanBuffer).length ≤ 1) ∧
      (∀ b ∈ n.acceptsGenesis .worker, parkedChildren b.hash n.orphanBuffer = []) ∧
      ∀ idxs ∈ n.cleansUp, idxs.Pairwise fun i j => j < i
  | .minerWorker =>
    ∀ b ∈ n.finishedBlockChan.head?, parkedChildren b.hash n.orphanBuffer = []
  | _ => True

instance (n : Node) : (e : Event) → Decidable (n.ReleasesAll e)
  | .worker => inferInstanceAs (Decidable
      ((∀ b ∈ n.attached .worker, (parkedChildren b.hash n.orphanBuffer).length ≤ 1) ∧
        (∀ b ∈ n.acceptsGenesis .worker, parkedChildren b.hash n.orphanBuffer = []) ∧
        ∀ idxs ∈ n.cleansUp, idxs.Pairwise fun i j => j < i))
  | .minerWorker => inferInstanceAs (Decidable
      (∀ b ∈ n.finishedBlockChan.head?, parkedChildren b.hash n.orphanBuffer = []))
  | .message _ => inferInstanceAs (Decidable True)
  | .minerStart _ => inferInstanceAs (Decidable True)
  | .minerTip _ => inferInstanceAs (Decidable True)
  | .minerControl _ => inferInstanceAs (Decidable True)
  | .mine _ => inferInstanceAs (Decidable True)
  | .generate _ _ => inferInstanceAs (Decidable True)
  | .signal _ => inferInstanceAs (Decidable True)
  | .ping => inferInstanceAs (Decidable True)

omit [Crypto] in
theorem ne_of_parkedChildren_eq_nil {h : H256} {buffer : List Block}
    (hnil : parkedChildren h buffer = []) : ∀ z ∈ buffer, z.getParent ≠ h := by
  intro z hz
  simpa using List.filter_eq_nil_iff.1 hnil z hz

omit [Crypto] in
/-- The only child of a hash is the one that a search finds. -/
theorem eq_index_of_only_child {h : H256} {idx j : ℕ} {child z : Block} {buffer : List Block}
    (hone : (parkedChildren h buffer).length ≤ 1)
    (hf : findChild h 0 buffer = some (idx, child)) (hj : buffer[j]? = some z)
    (hz : z.getParent = h) : j = idx := by
  obtain ⟨-, hget, hpar⟩ := findChild_eq_some hf
  rw [Nat.sub_zero] at hget
  have herase := eraseIdx_findChild hf hone
  rw [Nat.sub_zero] at herase
  by_contra hne
  -- the block would still be there after the removal of the child
  have hmem : z ∈ buffer.eraseIdx idx := List.mem_eraseIdx_iff_getElem?.2 ⟨j, hne, hj⟩
  rw [herase] at hmem
  have hnot := (List.mem_filter.1 hmem).2
  simp [hz] at hnot

/-! ### The invariant -/

omit [Crypto] in
/-- No parked block has a stored parent. -/
def NoneStranded (c : Core) : Prop := ∀ z ∈ c.orphans, z.getParent ∉ c.chain.blocks

/-- A parked block with a stored parent stands at a visited position, or it is the only child of the
block that the search has come to. -/
def OnTheWay (c : Core) (x : Block) (idxs : List ℕ) : Prop :=
  ∀ j z, c.orphans[j]? = some z → z.getParent ∈ c.chain.blocks →
    j ∈ idxs ∨ (z.getParent = x.hash ∧ (parkedChildren x.hash c.orphans).length ≤ 1)

/-- Between two blocks no parked block has a stored parent, and within a search the others are on the
way. -/
structure Accounted (c : Core) : Prop where
  still : (c.lock = .free ∨ ∃ rest hs, c.lock = .held rest hs) → NoneStranded c
  onTheWay : ∀ block x idxs rest hs, c.lock = .searching block x idxs rest hs → OnTheWay c x idxs

namespace Accounted

variable {c : Core}

/-- With the mutex free or held between two blocks. -/
theorem of_still {d : Core} (hlock : d.lock = .free ∨ ∃ rest hs, d.lock = .held rest hs)
    (h : NoneStranded d) : Accounted d where
  still _ := h
  onTheWay block x idxs rest hs hl := by
    rcases hlock with hfree | ⟨rest', hs', hheld⟩
    · rw [hfree] at hl
      cases hl
    · rw [hheld] at hl
      cases hl

/-- Within a search. -/
theorem of_search {d : Core} {block x : Block} {idxs : List ℕ} {rest : List Block} {hs : List H256}
    (hlock : d.lock = .searching block x idxs rest hs) (h : OnTheWay d x idxs) : Accounted d where
  still hl := by
    rw [hlock] at hl
    rcases hl with hl | ⟨rest', hs', hl⟩
    · cases hl
    · cases hl
  onTheWay block' x' idxs' rest' hs' hl := by
    rw [hlock] at hl
    cases hl
    exact h

theorem of_poisoned {d : Core} (hlock : d.lock = .poisoned) : Accounted d where
  still hl := by
    rw [hlock] at hl
    rcases hl with hl | ⟨rest', hs', hl⟩
    · cases hl
    · cases hl
  onTheWay block x idxs rest hs hl := by
    rw [hlock] at hl
    cases hl

/-- The mutex of the block that comes next: a parked block whose parent was stored before is on the
way. -/
theorem onTheWay_next (h : Accounted c) {block parent : Block} {lock : ChainLock}
    (hat : AtHand c block parent lock) :
    ∃ b idxs rest hs, lock = .searching b block idxs rest hs ∧
      ∀ j z, c.orphans[j]? = some z → z.getParent ∈ c.chain.blocks → j ∈ idxs := by
  cases hat with
  | @direct _ _ rest hs hlock hnew hpar =>
      refine ⟨block, [], rest, hs, rfl, fun j z hz hmem => ?_⟩
      exact absurd hmem (h.still (Or.inr ⟨_, _, hlock⟩) z (List.mem_of_getElem? hz))
  | @orphan b _ _ idx idxs rest hs hlock hf =>
      refine ⟨b, idxs ++ [idx], rest, hs, rfl, fun j z hz hmem => ?_⟩
      rcases h.onTheWay _ _ _ _ _ hlock j z hz hmem with hvisited | ⟨hpar, hone⟩
      · exact List.mem_append_left _ hvisited
      · -- the search has just found it
        rw [eq_index_of_only_child hone hf hz hpar]
        exact List.mem_append_right _ (List.mem_singleton.2 rfl)

end Accounted

/-- **The step lemma.** -/
theorem accounted_step {n n' : Node} {e : Event} (h : Accounted n.core) (hrel : n.ReleasesAll e)
    (hstep : n.step e = some n') : Accounted n'.core := by
  have hc := Node.core_step hstep
  generalize n'.core = c' at hc
  cases hc with
  | other => exact h
  | pcMove _ => exact { h with }
  | readTip _ _ _ _ => exact { h with }
  | panic _ _ => exact .of_poisoned rfl
  | halfAttach _ _ _ _ => exact .of_poisoned rfl
  | take hlock => exact .of_still (Or.inr ⟨_, _, rfl⟩) (h.still (Or.inl hlock))
  | skip hlock =>
      rcases hlock with ⟨hs, hlock, rfl⟩ | ⟨block, rest, hs, hlock, rfl, -⟩
      · exact .of_still (Or.inl rfl) (h.still (Or.inr ⟨_, _, hlock⟩))
      · exact .of_still (Or.inr ⟨_, _, rfl⟩) (h.still (Or.inr ⟨_, _, hlock⟩))
  | @genesis block rest hs hlock hnew hpar hlen =>
      have hgen := Node.acceptsGenesis_iff.2 ⟨rfl, _, _, hlock, hnew, hpar, hlen⟩
      refine .of_still (Or.inr ⟨_, _, rfl⟩) fun z hz hmem => ?_
      rcases mem_blocks_put.1 hmem with heq | hmem
      · exact ne_of_parkedChildren_eq_nil (hrel.2.1 block hgen) z hz heq
      · exact h.still (Or.inr ⟨_, _, hlock⟩) z hz hmem
  | @park block rest hs hlock _ hpar _ =>
      refine .of_still (Or.inr ⟨_, _, rfl⟩) fun z hz => ?_
      rcases List.mem_append.1 hz with hz | hz
      · exact h.still (Or.inr ⟨_, _, hlock⟩) z hz
      · rw [List.mem_singleton.1 hz]
        exact not_mem_blocks_iff.2 hpar
  | reject hat _ =>
      obtain ⟨b, idxs, rest, hs, rfl, hway⟩ := h.onTheWay_next hat
      exact .of_search rfl fun j z hz hmem => Or.inl (hway j z hz hmem)
  | @attach block parent lock _ _ _ _ hat hv _ _ _ =>
      obtain ⟨b, idxs, rest, hs, rfl, hway⟩ := h.onTheWay_next hat
      refine .of_search rfl fun j z hz hmem => ?_
      rcases mem_blocks_put.1 hmem with heq | hmem
      · exact Or.inr ⟨heq, hrel.1 block (hat.attached_eq hv)⟩
      · exact Or.inl (hway j z hz hmem)
  | @cleanup block x idxs rest hs orphans lock hlock hf hres =>
      rcases hres with ⟨hdone, rfl⟩ | ⟨-, rfl⟩
      · have hlock' : n.lock = .searching block x idxs rest hs := hlock
        have hf' : findChild x.hash 0 n.orphanBuffer = none := hf
        have hdec := hrel.2.2 idxs (by rw [Node.cleansUp, hlock']; simp only [hf']; rfl)
        refine .of_still (Or.inr ⟨_, _, rfl⟩) fun z hz hmem => ?_
        obtain ⟨j, hj, hnot⟩ := removeAll_decreasing hdone hdec z hz
        rcases h.onTheWay _ _ _ _ _ hlock j z hj hmem with hvisited | ⟨hpar, -⟩
        · exact hnot hvisited
        · exact findChild_eq_none.1 hf z (List.mem_of_getElem? hj) hpar
      · exact .of_poisoned rfl
  | mined hlock _ _ _ _ _ =>
      exact .of_still (Or.inl hlock) (h.still (Or.inl hlock))
  | @insertMined block chan length hlock hchan hlen =>
      have hchan' : n.finishedBlockChan = block :: chan := hchan
      have hnil := hrel block (by rw [hchan']; rfl)
      refine .of_still (Or.inl hlock) fun z hz hmem => ?_
      rcases mem_blocks_put.1 hmem with heq | hmem
      · exact ne_of_parkedChildren_eq_nil hnil z hz heq
      · exact h.still (Or.inl hlock) z hz hmem

/-- **No stranded block**: when every step of a run releases all the children of the blocks it stores,
no parked block has a stored parent whenever nothing holds the store. -/
theorem no_stranded_orphan {g : GenesisDraw} {tr : List (Node × Event)} {n : Node}
    (hrun : Node.Run (Node.init g) tr n) (hrel : ∀ x ∈ tr, x.1.ReleasesAll x.2)
    (hlock : n.lock = .free) : ∀ z ∈ n.orphanBuffer, z.getParent ∉ n.blockchain.blocks := by
  have hacc : Accounted n.core :=
    hrun.invariant (I := fun m : Node => Accounted m.core) (C := fun m e => m.ReleasesAll e)
      (.of_still (Or.inl rfl) fun _ hz => absurd hz List.not_mem_nil)
      (fun _ _ _ h hr hs => accounted_step h hr hs) hrel
  exact hacc.still (Or.inl hlock)

omit [Crypto]

/-- A node receives two children of a block, which wait, and then the block. -/
def receiveSiblings : List Event :=
  [.message (.blocks [sampleBlock 2 3 3 [], sampleBlock 2 4 3 [], sampleBlock 1 2 2 []]), .worker,
    .worker, .worker, .worker, .worker, .worker]

/-- **The second child stays behind**, although its parent is stored. -/
theorem sibling_stranded :
    letI := sampleCrypto
    ∃ n, Node.Run (Node.init sampleGenesis)
        (Lts.replayTrace Node.step (Node.init sampleGenesis) receiveSiblings) n ∧
      n.lock = .free ∧ ∃ z ∈ n.orphanBuffer, z.getParent ∈ n.blockchain.blocks :=
  Lts.exists_run_of_replay (by decide +kernel)

/-- A node receives a child, which waits, and then its parent: nothing is left in the buffer. -/
theorem no_stranded_orphan_child :
    letI := sampleCrypto
    ∃ n : Node, n.blockchain.getBlock 3 = some (sampleBlock 2 3 3 []) ∧
      ∀ z ∈ n.orphanBuffer, z.getParent ∉ n.blockchain.blocks := by
  obtain ⟨n, hrun, hb, hlock⟩ := @Lts.exists_run_of_replay _ _ (@Node.step sampleCrypto)
    [.message (.blocks [sampleBlock 2 3 3 [], sampleBlock 1 2 2 []]), .worker, .worker, .worker,
      .worker, .worker]
    (@Node.init sampleCrypto sampleGenesis)
    (fun n => n.blockchain.getBlock 3 = some (sampleBlock 2 3 3 []) ∧ n.lock = .free)
    (by decide +kernel)
  exact ⟨n, hb, @no_stranded_orphan sampleCrypto _ _ _ hrun (by decide +kernel) hlock⟩

end BitcoinClient
