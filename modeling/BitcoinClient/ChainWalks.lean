/-
**The walks along the chain end.**

Two loops of the client follow the hashes of parents.  `all_blocks_in_longest_chain` of
`src/blockchain/mod.rs` goes from the tip down as long as it finds a stored block, and the orphan search of
`src/network/worker.rs` goes from a new block up, in each round to the first parked block with the current
one as its parent.  Neither counts its rounds, and the search begins at the front of the buffer each time and
takes nothing out of it while it runs.

What makes them end is that no block is its own ancestor.  A walk then never comes to a hash twice, and there
are only finitely many: the stored ones for the first loop, the parked ones for the second.

Main definitions:

* `BitcoinClient.HasParent` — a block of a list has a hash and a parent;
* `BitcoinClient.AcyclicLinks` — no block of a list is its own ancestor.

Main results:

* `BitcoinClient.isChain_searchPath` — a search goes from parents to children;
* `BitcoinClient.exists_searchPath_of_acyclic` — without cycles a search ends;
* `BitcoinClient.chain_walks_end` — **both walks end**.
-/

import BitcoinClient.BlocksMessages
import BitcoinClient.ChainOrder
import BitcoinClient.Delivery

set_option relaxedAutoImplicit false
set_option autoImplicit false

namespace BitcoinClient

variable [Crypto]

/-- A block of the list with the hash `h` has the parent `p`. -/
def HasParent (blocks : List Block) (h p : H256) : Prop := ∃ b ∈ blocks, b.hash = h ∧ b.getParent = p

/-- No block of the list is its own ancestor in it. -/
def AcyclicLinks (blocks : List Block) : Prop := ∀ h, ¬ Relation.TransGen (HasParent blocks) h h

/-! ### The search as a walk -/

section Search

variable {buffer : List Block}

/-- A round of the search: the hash of the first child in the buffer. -/
def nextChild (buffer : List Block) (h : H256) : Option H256 :=
  (findChild h 0 buffer).map fun found => found.2.hash

theorem hasParent_of_findChild {h : H256} {k idx : ℕ} {child : Block}
    (hf : findChild h k buffer = some (idx, child)) : HasParent buffer child.hash h := by
  obtain ⟨hmem, hpar⟩ := mem_of_findChild hf
  exact ⟨child, hmem, rfl, hpar⟩

/-- The search has as many rounds as the walk to the first children. -/
theorem isSome_searchPath (buffer : List Block) : ∀ (fuel : ℕ) (h : H256),
    (searchPath fuel h buffer).isSome = (Pointers.path (nextChild buffer) fuel h).isSome := by
  intro fuel
  induction fuel with
  | zero => intro h; rfl
  | succ fuel ih =>
      intro h
      cases hf : findChild h 0 buffer with
      | none =>
          have hnext : nextChild buffer h = none := by rw [nextChild, hf, Option.map_none]
          rw [searchPath_none hf, Pointers.path_of_none hnext]
          rfl
      | some found =>
          have hnext : nextChild buffer h = some found.2.hash := by
            rw [nextChild, hf, Option.map_some]
          rw [searchPath_some hf, Pointers.path_of_some hnext, Option.isSome_map, Option.isSome_map, ih]

theorem AcyclicLinks.nextChild (hacyclic : AcyclicLinks buffer) :
    Pointers.Acyclic (nextChild buffer) := by
  intro h hcycle
  refine hacyclic h (Relation.transGen_swap.1 (Relation.TransGen.mono ?_ h h hcycle))
  intro a b hab
  rw [BitcoinClient.nextChild, Option.map_eq_some_iff] at hab
  obtain ⟨⟨idx, child⟩, hf, rfl⟩ := hab
  exact hasParent_of_findChild hf

/-- **A search goes from parents to children.** -/
theorem isChain_searchPath : ∀ {fuel : ℕ} {h : H256} {path : List (ℕ × Block)},
    searchPath fuel h buffer = some path →
      (h :: path.map fun p => p.2.hash).IsChain (Function.swap (HasParent buffer)) := by
  intro fuel
  induction fuel with
  | zero => intro h path hs; cases hs
  | succ fuel ih =>
      intro h path hs
      rcases searchPath_cases hs with ⟨-, rfl⟩ | ⟨idx, child, tail, hf, htail, rfl⟩
      · exact List.isChain_singleton h
      · rw [List.map_cons, List.isChain_cons_cons]
        exact ⟨hasParent_of_findChild hf, ih htail⟩

/-- **Without cycles a search ends.**  It comes to each hash once, so it has no more rounds than there are
hashes in the buffer. -/
theorem exists_searchPath_of_acyclic (hacyclic : AcyclicLinks buffer) (h : H256) :
    ∃ path, searchPath ((buffer.map Block.hash).dedup.length + 1) h buffer = some path ∧
      path.length ≤ (buffer.map Block.hash).dedup.length ∧ (h :: path.map fun p => p.2.hash).Nodup := by
  have hparents : ∀ a, (nextChild buffer a).isSome → a ∈ (buffer.map Block.getParent).toFinset := by
    intro a ha
    rw [nextChild, Option.isSome_map, Option.isSome_iff_exists] at ha
    obtain ⟨⟨idx, child⟩, hf⟩ := ha
    obtain ⟨hmem, rfl⟩ := mem_of_findChild hf
    exact List.mem_toFinset.2 (List.mem_map_of_mem hmem)
  obtain ⟨l, hl, -⟩ := Pointers.exists_path_of_acyclic hacyclic.nextChild hparents h
  have hsome := isSome_searchPath buffer ((buffer.map Block.getParent).toFinset.card + 1) h
  rw [hl, Option.isSome_some, Option.isSome_iff_exists] at hsome
  obtain ⟨path, hpath⟩ := hsome
  have hnodup : (h :: path.map fun p => p.2.hash).Nodup :=
    Pointers.nodup_of_isChain (fun a ha => hacyclic a (Relation.transGen_swap.1 ha))
      (isChain_searchPath hpath)
  -- the hashes visited are different hashes of the buffer
  have hsub : (path.map fun p => p.2.hash) ⊆ (buffer.map Block.hash).dedup := by
    intro k hk
    obtain ⟨p, hp, rfl⟩ := List.mem_map.1 hk
    exact List.mem_dedup.2 (List.mem_map_of_mem (List.mem_of_getElem? (mem_searchPath hpath p hp).1))
  have hlen := (List.subperm_of_subset (List.nodup_cons.1 hnodup).2 hsub).length_le
  rw [List.length_map] at hlen
  exact ⟨path, searchPath_of_length_lt hpath (Nat.lt_succ_of_le hlen), hlen, hnodup⟩

end Search

/-! ### The search of the worker -/

namespace Worker

variable {w : Worker} {block : Block} {fuel : ℕ} {path : List (ℕ × Block)}

theorem searchOrphans_ne_looping {idxs : List ℕ}
    (hpath : searchPath fuel block.hash w.orphanBuffer = some path) (w' : Worker) :
    w.searchOrphans fuel block idxs ≠ .looping w' := by
  intro hloop
  rw [searchPath_of_looping hloop] at hpath
  cases hpath

/-- A search that is done has found what the path holds. -/
theorem searchOrphans_positions (hpath : searchPath fuel block.hash w.orphanBuffer = some path) :
    (w.searchOrphans fuel block []).Ensures fun _ idxs => idxs = path.map Prod.fst := by
  refine (searchOrphans_ensures fuel block [] w).mono fun w' idxs h => ?_
  obtain ⟨path', c', hpath', -, -, hidxs⟩ := h
  rw [hidxs, List.nil_append, searchPath_unique hpath hpath']

theorem handleNewBlock_ne_looping (hpath : searchPath fuel block.hash w.orphanBuffer = some path)
    (w' : Worker) : w.handleNewBlock block ≠ .looping w' := by
  intro hloop
  obtain ⟨-, hnone⟩ := handleNewBlock_looping hloop
  rw [searchPath_enough hpath] at hnone
  cases hnone

end Worker

/-! ### Both walks -/

/-- **Both walks end.**  For every store without cycles of parents and every order of iteration, the loop of
`all_blocks_in_longest_chain` ends after as many rounds as there are stored blocks or fewer, and its list has
no repetition.  For every orphan buffer without cycles of parents, every new block and every worker with this
buffer, the orphan search ends, at the latest in the round after as many rounds with a child as there are
different hashes in the buffer; the new block and the children have different hashes, and the treatment of
the new block never loops. -/
theorem chain_walks_end :
    (∀ (c : Blockchain) (order : List H256), c.AcyclicParents →
      ∃ l, c.allBlocksInLongestChain order (c.blocks.keys.card + 1) = some l ∧
        l.length ≤ c.blocks.keys.card ∧ l.Nodup) ∧
    ∀ (buffer : List Block) (block : Block), AcyclicLinks buffer →
      ∃ path, searchPath ((buffer.map Block.hash).dedup.length + 1) block.hash buffer = some path ∧
        path.length ≤ (buffer.map Block.hash).dedup.length ∧
        (block.hash :: path.map fun p => p.2.hash).Nodup ∧
        ∀ w : Worker, w.orphanBuffer = buffer →
          (∀ fuel > path.length, (∀ w', w.searchOrphans fuel block [] ≠ .looping w') ∧
            (w.searchOrphans fuel block []).Ensures fun _ idxs => idxs = path.map Prod.fst) ∧
          ((w.blockchain.getBlock block.getParent).isSome →
            ∀ w', w.handleNewBlock block ≠ .looping w') := by
  refine ⟨fun c order hacyclic => Blockchain.exists_longestChain hacyclic order, ?_⟩
  intro buffer block hacyclic
  obtain ⟨path, hpath, hlen, hnodup⟩ := exists_searchPath_of_acyclic hacyclic block.hash
  refine ⟨path, hpath, hlen, hnodup, ?_⟩
  rintro w rfl
  refine ⟨fun fuel hfuel => ?_, fun _ => Worker.handleNewBlock_ne_looping hpath⟩
  have hfound := searchPath_of_length_lt hpath hfuel
  exact ⟨Worker.searchOrphans_ne_looping hfound, Worker.searchOrphans_positions hfound⟩

omit [Crypto]

/-- Parked blocks with a duplicate, a sibling and one whose parent nobody knows. -/
def parkedSiblings : List Block :=
  [sampleBlock 6 9 5 [], sampleBlock 2 3 3 [], sampleBlock 2 3 3 [], sampleBlock 3 4 4 [],
    sampleBlock 2 5 3 []]

theorem acyclicLinks_parkedSiblings :
    letI := sampleCrypto
    AcyclicLinks parkedSiblings := by
  let _ := sampleCrypto
  refine Pointers.not_transGen_of_falling BitVec.toNat fun h p hlink => ?_
  obtain ⟨b, hb, rfl, rfl⟩ := hlink
  have hfalls : parkedSiblings.all fun b => b.getParent.toNat < b.hash.toNat := by decide +kernel
  exact of_decide_eq_true (List.all_eq_true.1 hfalls b hb)

/-- A store with two blocks, and a search that finds two of the four hashes in the buffer. -/
theorem chain_walks_end_siblings :
    letI := sampleCrypto
    (∃ c : Blockchain, c.parentAt 2 = some 1 ∧ c.parentAt 1 = some 99 ∧
      ∃ l, c.allBlocksInLongestChain [1, 2] (c.blocks.keys.card + 1) = some l ∧ l.Nodup) ∧
    ∃ path, searchPath 5 2 parkedSiblings = some path ∧ path.map Prod.fst = [1, 3] ∧
      ∀ w', ({ (Node.init sampleGenesis).toWorker with orphanBuffer := parkedSiblings }).handleNewBlock
        (sampleBlock 1 2 2 []) ≠ .looping w' := by
  let _ := sampleCrypto
  obtain ⟨hstore, hbuffer⟩ := chain_walks_end
  obtain ⟨n, -, horder, -, hgenesis, hchild, -⟩ := receiveGenesisChild_stored
  obtain ⟨l, hl, -, hnodup⟩ :=
    hstore n.blockchain [1, 2] (acyclic_of_child horder hgenesis hchild)
  obtain ⟨path, hpath, -, -, hworker⟩ :=
    hbuffer parkedSiblings (sampleBlock 1 2 2 []) acyclicLinks_parkedSiblings
  have hfound : (searchPath 5 2 parkedSiblings).map (List.map Prod.fst) = some [1, 3] := by decide +kernel
  have hhashes : (parkedSiblings.map Block.hash).dedup.length = 4 := by decide +kernel
  rw [hhashes] at hpath
  have hpath' : searchPath 5 2 parkedSiblings = some path := hpath
  rw [hpath', Option.map_some, Option.some_inj] at hfound
  refine ⟨⟨n.blockchain, hchild, hgenesis, l, hl, hnodup⟩, path, hpath', hfound, ?_⟩
  exact (hworker { (Node.init sampleGenesis).toWorker with orphanBuffer := parkedSiblings } rfl).2
    (by decide +kernel)

end BitcoinClient
