/-
**The cleanup of the orphan buffer.**

The orphans that a new block releases are found one after the other: the first child of the block in the
buffer, the first child of that one, and so on.  Their positions are collected while the buffer stays as it
is, and removed one by one afterwards, each from what is left by then.  So the cleanup removes what was
visited only if every orphan visited stands behind its own first child; otherwise it removes orphans that
were not visited, or nothing at all because the position is beyond the end, which is a panic.

Main definitions:

* `BitcoinClient.Searched` — the orphans that the search from a hash finds, with their positions;
* `BitcoinClient.ChildrenFirst` — the orphans visited stand behind their first children.

Main results:

* `BitcoinClient.searched_iff` — what the loop collects;
* `BitcoinClient.cleanup_exact_iff` — **the cleanup is exact** exactly if the children stand first;
* `BitcoinClient.cleanup_not_exact` — a buffer with a child behind its parent.
-/

import BitcoinClient.Delivery
import BitcoinClient.Removal

set_option relaxedAutoImplicit false
set_option autoImplicit false

namespace BitcoinClient

open Removal

variable [Crypto]

/-! ### What is visited -/

/-- The orphans that the search from a hash visits, with their positions: the first child of the hash, and
what the search from this one visits. -/
inductive Searched (buffer : List Block) : H256 → ℕ × Block → Prop
  | first {h : H256} {p : ℕ × Block} : findChild h 0 buffer = some p → Searched buffer h p
  | next {h : H256} {p q : ℕ × Block} : findChild h 0 buffer = some p →
      Searched buffer p.2.hash q → Searched buffer h q

/-- Every orphan that the search from a hash visits stands behind its first child. -/
def ChildrenFirst (buffer : List Block) (h : H256) : Prop :=
  ∀ p, Searched buffer h p → ∀ q ∈ findChild p.2.hash 0 buffer, q.1 < p.1

section

variable {buffer : List Block}

theorem visited_of_none {h : H256} (hf : findChild h 0 buffer = none) (p : ℕ × Block) :
    ¬ Searched buffer h p := by
  rintro (hp | ⟨hp, -⟩)
  · rw [hf] at hp
    cases hp
  · rw [hf] at hp
    cases hp

theorem visited_of_some {h : H256} {p q : ℕ × Block} (hf : findChild h 0 buffer = some p) :
    Searched buffer h q ↔ q = p ∨ Searched buffer p.2.hash q := by
  constructor
  · rintro (hq | ⟨hp, hq⟩)
    · rw [hf] at hq
      exact Or.inl (Option.some.inj hq).symm
    · rw [hf] at hp
      obtain rfl := Option.some.inj hp
      exact Or.inr hq
  · rintro (rfl | hq)
    · exact Searched.first hf
    · exact Searched.next hf hq

/-- **The loop collects what is visited.** -/
theorem searched_iff : ∀ {fuel : ℕ} {h : H256} {path : List (ℕ × Block)},
    searchPath fuel h buffer = some path → ∀ p, Searched buffer h p ↔ p ∈ path := by
  intro fuel
  induction fuel with
  | zero => intro h path hs; simp [searchPath] at hs
  | succ fuel ih =>
      intro h path hs p
      rcases searchPath_cases hs with ⟨hf, rfl⟩ | ⟨idx, child, path', hf, hs', rfl⟩
      · exact iff_of_false (visited_of_none hf p) List.not_mem_nil
      · rw [visited_of_some hf, List.mem_cons, ih hs']

/-- **The positions decrease** exactly if the children stand first. -/
theorem decreasing_iff : ∀ {fuel : ℕ} {h : H256} {path : List (ℕ × Block)},
    searchPath fuel h buffer = some path →
      ((path.map Prod.fst).Pairwise (fun i j => j < i) ↔ ChildrenFirst buffer h) := by
  intro fuel
  induction fuel with
  | zero => intro h path hs; simp [searchPath] at hs
  | succ fuel ih =>
      intro h path hs
      rcases searchPath_cases hs with ⟨hf, rfl⟩ | ⟨idx, child, path', hf, hs', rfl⟩
      · exact iff_of_true List.Pairwise.nil fun p hp => absurd hp (visited_of_none hf p)
      · rw [List.map_cons, List.pairwise_cons, ih hs']
        constructor
        · rintro ⟨hhead, hrest⟩ p hp q hq
          rcases (visited_of_some hf).1 hp with rfl | hp
          · have hmem := (searched_iff hs' q).1 (Searched.first hq)
            exact hhead q.1 (List.mem_map_of_mem hmem)
          · exact hrest p hp q hq
        · intro hall
          have hrest : ChildrenFirst buffer child.hash := fun p hp => hall p (Searched.next hf hp)
          refine ⟨fun i hi => ?_, hrest⟩
          -- the first child of the first orphan stands before it, and the others before that
          have hdec := (ih hs').2 hrest
          cases hchild : findChild child.hash 0 buffer with
          | none =>
              rw [eq_nil_of_searchPath hs' hchild] at hi
              exact absurd hi List.not_mem_nil
          | some q =>
              obtain ⟨k, tail, -, rfl⟩ := exists_tail_of_searchPath hs' hchild
              have hlt : q.1 < idx := hall (idx, child) (Searched.first hf) q hchild
              rw [List.map_cons] at hi hdec
              rcases List.mem_cons.1 hi with rfl | hi
              · exact hlt
              · exact lt_trans ((List.pairwise_cons.1 hdec).1 i hi) hlt

end

/-! ### The cleanup -/

/-- **The cleanup is exact** exactly if the children stand first.  For every node and every block whose parent
is stored: when the treatment of the block is done, `path` is what the search has visited, the orphan buffer
holds the orphans that stood at the positions `kept`, and these are all the positions that were not visited,
in their order, exactly if every orphan visited stands behind its first child. -/
theorem cleanup_exact_iff {w w' : Worker} {block parent : Block}
    (hpar : w.blockchain.getBlock block.getParent = some parent)
    (h : w.handleNewBlock block = .done w' ()) :
    ∃ (path : List (ℕ × Block)) (kept : List ℕ),
      searchPath (w.orphanBuffer.length + 1) block.hash w.orphanBuffer = some path ∧
        (∀ p, p ∈ path ↔ Searched w.orphanBuffer block.hash p) ∧
        (∀ p ∈ path, w.orphanBuffer[p.1]? = some p.2) ∧
        w'.orphanBuffer.map some = kept.map (w.orphanBuffer[·]?) ∧
        kept = eraseAll (path.map Prod.fst) (List.range w.orphanBuffer.length) ∧
        (kept = (List.range w.orphanBuffer.length).filter (· ∉ path.map Prod.fst) ↔
          ChildrenFirst w.orphanBuffer block.hash) := by
  obtain ⟨path, -, -, hpath, -, hremove, -⟩ :=
    Worker.handleNewBlock_ensures_of_parent hpar w' () h
  have hget := fun p hp => (mem_searchPath hpath p hp).1
  refine ⟨path, _, hpath, fun p => (searched_iff hpath p).symm, hget, ?_, rfl, ?_⟩
  · rw [(removeAll_eq_done_iff.1 hremove).1]
    exact map_some_eraseAll _ _
  · rw [← decreasing_iff hpath]
    refine eraseAll_range_iff (nodup_positions hpath) fun i hi => ?_
    obtain ⟨p, hp, rfl⟩ := List.mem_map.1 hi
    exact (List.getElem?_eq_some_iff.1 (hget p hp)).1

omit [Crypto]

/-! ### Examples -/

/-- A node receives a block, a child of it and a block of another chain, whose parents it does not have. -/
def receiveOrphans : List Event :=
  [.message (.blocks [sampleBlock 2 3 3 [], sampleBlock 3 4 4 [], sampleBlock 9 5 3 []]), .worker,
    .worker, .worker, .worker]

/-- **The cleanup is not exact**: when the parent of the first block arrives, the search visits the first two
orphans, and the cleanup removes the first one and the third. -/
theorem cleanup_not_exact :
    letI := sampleCrypto
    ∃ n, Node.Run (Node.init sampleGenesis)
        (Lts.replayTrace Node.step (Node.init sampleGenesis) receiveOrphans) n ∧
      n.lock = .free ∧ (n.blockchain.getBlock 1).isSome ∧ n.blockchain.getBlock 2 = none ∧
        n.orphanBuffer = [sampleBlock 2 3 3 [], sampleBlock 3 4 4 [], sampleBlock 9 5 3 []] ∧
        searchPath 4 2 n.orphanBuffer =
          some [(0, sampleBlock 2 3 3 []), (1, sampleBlock 3 4 4 [])] ∧
        (n.toWorker.handleNewBlock (sampleBlock 1 2 2 [])).Ends fun w' _ =>
          w'.orphanBuffer = [sampleBlock 3 4 4 []] :=
  Lts.exists_run_of_replay (by decide +kernel)

/-- A child that stands before its parent: both are removed, and nothing else. -/
theorem cleanup_exact_iff_decreasing :
    letI := sampleCrypto
    let orphans := [sampleBlock 3 4 4 [], sampleBlock 9 5 3 [], sampleBlock 2 3 3 []]
    let w : Worker := { (Node.init sampleGenesis).toWorker with orphanBuffer := orphans }
    (w.handleNewBlock (sampleBlock 1 2 2 [])).Ends fun w' _ =>
      w'.orphanBuffer = [sampleBlock 9 5 3 []] ∧ ChildrenFirst orphans 2 := by
  let _ := sampleCrypto
  let orphans := [sampleBlock 3 4 4 [], sampleBlock 9 5 3 [], sampleBlock 2 3 3 []]
  let w : Worker := { (Node.init sampleGenesis).toWorker with orphanBuffer := orphans }
  have hdone : (w.handleNewBlock (sampleBlock 1 2 2 [])).Ends fun w' _ =>
      w'.orphanBuffer = [sampleBlock 9 5 3 []] := by decide +kernel
  obtain ⟨w', _, h, horphans⟩ := hdone
  have hpar : w.blockchain.getBlock (sampleBlock 1 2 2 []).getParent = some sampleGenesis.block := by
    decide +kernel
  obtain ⟨path, kept, hpath, -, -, -, hkept, hiff⟩ := cleanup_exact_iff hpar h
  have hvisited : searchPath (w.orphanBuffer.length + 1) (sampleBlock 1 2 2 []).hash w.orphanBuffer =
      some [(2, sampleBlock 2 3 3 []), (0, sampleBlock 3 4 4 [])] := by decide +kernel
  rw [hvisited, Option.some_inj] at hpath
  subst hpath
  refine ⟨w', (), h, horphans, hiff.1 ?_⟩
  rw [hkept]
  decide +kernel

end BitcoinClient
