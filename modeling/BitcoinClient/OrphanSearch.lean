/-
**The search of the orphan buffer.**

A new block starts a search of the orphan buffer: for the first child of the block, for the first
child of that one, and so on, and the positions visited are removed at the end.  The search only
reads the buffer, so it can be studied apart from the store.  `searchPath` is the list of what it
visits.

The positions are removed one by one, as they were found.  That is right when each one is before the
one that it was found from, and nothing is left behind when no visited block has a second child in the
buffer.  A buffer with both properties is `Tidy`.

Main definitions:

* `BitcoinClient.searchPath` — the blocks that a search visits, with their positions;
* `BitcoinClient.Reaches` — the blocks that a search should visit;
* `BitcoinClient.Tidy` — a visited block has one child at most, at a smaller position.

Main results:

* `BitcoinClient.searchPath_closed`, `BitcoinClient.mem_searchPath`,
  `BitcoinClient.reaches_of_searchPath` — what a search visits;
* `BitcoinClient.searchPath_enough` — a search that ends visits each position once, so it ends after
  one round more than the buffer is long;
* `BitcoinClient.removeAll_searchPath` — removing decreasing positions removes the blocks visited;
* `BitcoinClient.Tidy.exists_searchPath` — **the search of a tidy buffer ends**, with decreasing
  positions.
-/

import BitcoinClient.Core
import BitcoinClient.Removal

set_option relaxedAutoImplicit false
set_option autoImplicit false

namespace BitcoinClient

/-! ### Removing positions -/

/-- **The removal does not panic** exactly if it removes one orphan for each position. -/
theorem removeAll_eq_done_iff : ∀ {idxs : List ℕ} {buffer orphans : List Block},
    removeAll idxs buffer = .done orphans () ↔
      orphans = Removal.eraseAll idxs buffer ∧ orphans.length + idxs.length = buffer.length := by
  intro idxs
  induction idxs with
  | nil =>
      intro buffer orphans
      rw [removeAll, Exec.done.injEq, Removal.eraseAll]
      constructor
      · rintro ⟨rfl, -⟩
        exact ⟨rfl, rfl⟩
      · rintro ⟨rfl, -⟩
        exact ⟨rfl, rfl⟩
  | cons i idxs ih =>
      intro buffer orphans
      rw [removeAll]
      split
      · rename_i hi
        have hlen := List.length_eraseIdx_of_lt hi
        rw [ih, Removal.eraseAll, List.length_cons]
        exact and_congr_right fun _ => by omega
      · rename_i hi
        constructor
        · intro h
          cases h
        · rintro ⟨rfl, hlen⟩
          exact absurd (Removal.lt_of_length_eraseAll hlen).1 hi

/-! ### Finding one child -/

/-- Removing the only child of a hash. -/
theorem eraseIdx_findChild {h : H256} {i : ℕ} {child : Block} : ∀ {k : ℕ} {buffer : List Block},
    findChild h k buffer = some (i, child) →
      (buffer.filter fun z => z.getParent = h).length ≤ 1 →
      buffer.eraseIdx (i - k) = buffer.filter fun z => z.getParent ≠ h := by
  intro k buffer
  induction buffer generalizing k with
  | nil => intro hf; simp [findChild] at hf
  | cons b buffer ih =>
      intro hf hlen
      rw [findChild] at hf
      by_cases hb : b.getParent = h
      · rw [if_pos hb] at hf
        obtain ⟨rfl, rfl⟩ := Prod.mk.inj (Option.some_inj.1 hf)
        rw [List.filter_cons_of_pos (by simpa using hb), List.length_cons] at hlen
        -- no other block of the buffer is a child
        have hnone : (buffer.filter fun z => z.getParent = h) = [] :=
          List.length_eq_zero_iff.1 (by omega)
        rw [List.filter_cons_of_neg (by simpa using hb), Nat.sub_self, List.eraseIdx_zero,
          List.tail_cons, eq_comm, List.filter_eq_self]
        intro z hz
        simpa using List.filter_eq_nil_iff.1 hnone z hz
      · rw [if_neg hb] at hf
        obtain ⟨hk, -, -⟩ := findChild_eq_some hf
        rw [List.filter_cons_of_neg (by simpa using hb)] at hlen
        obtain ⟨j, hj⟩ : ∃ j, i - k = j + 1 := ⟨i - k - 1, by omega⟩
        have hj' : i - (k + 1) = j := by omega
        rw [List.filter_cons_of_pos (by simpa using hb), hj, List.eraseIdx_cons_succ, ← ih hf hlen,
          hj']

/-- Removing a later position does not change what is found. -/
theorem findChild_eraseIdx {h : H256} {j : ℕ} {child : Block} :
    ∀ {k i : ℕ} {buffer : List Block}, findChild h k buffer = some (j, child) → j < k + i →
      findChild h k (buffer.eraseIdx i) = some (j, child) := by
  intro k i buffer
  induction buffer generalizing k i with
  | nil => intro hf; simp [findChild] at hf
  | cons b buffer ih =>
      intro hf hj
      obtain ⟨hk, -, -⟩ := findChild_eq_some hf
      obtain ⟨i', rfl⟩ : ∃ i', i = i' + 1 := ⟨i - 1, by omega⟩
      rw [List.eraseIdx_cons_succ, findChild]
      rw [findChild] at hf
      by_cases hb : b.getParent = h
      · rw [if_pos hb] at hf ⊢
        exact hf
      · rw [if_neg hb] at hf ⊢
        exact ih hf (by omega)

/-- The search passes over blocks that are no children of the hash. -/
theorem findChild_append {h : H256} {buffer' : List Block} : ∀ {k : ℕ} {buffer : List Block},
    (∀ z ∈ buffer, z.getParent ≠ h) →
      findChild h k (buffer ++ buffer') = findChild h (k + buffer.length) buffer' := by
  intro k buffer
  induction buffer generalizing k with
  | nil => intro _; rfl
  | cons b buffer ih =>
      intro hnone
      rw [List.cons_append, findChild, if_neg (hnone b (List.mem_cons_self ..)),
        ih fun z hz => hnone z (List.mem_cons_of_mem _ hz), List.length_cons]
      congr 1
      omega

theorem findChild_none_of_subset {h : H256} {k : ℕ} {buffer buffer' : List Block}
    (hf : findChild h k buffer = none) (hsub : ∀ z ∈ buffer', z ∈ buffer) :
    findChild h k buffer' = none :=
  findChild_eq_none.2 fun z hz => findChild_eq_none.1 hf z (hsub z hz)

/-! ### The whole search -/

variable [Crypto]

/-- What an orphan search visits from the hash `h` on: the blocks and their positions. -/
def searchPath : ℕ → H256 → List Block → Option (List (ℕ × Block))
  | 0, _, _ => none
  | fuel + 1, h, buffer =>
    match findChild h 0 buffer with
    | none => some []
    | some (idx, child) =>
      (searchPath fuel child.hash buffer).map fun path => (idx, child) :: path

theorem searchPath_none {fuel : ℕ} {h : H256} {buffer : List Block}
    (hf : findChild h 0 buffer = none) : searchPath (fuel + 1) h buffer = some [] := by
  rw [searchPath, hf]

theorem searchPath_some {fuel idx : ℕ} {h : H256} {child : Block} {buffer : List Block}
    (hf : findChild h 0 buffer = some (idx, child)) :
    searchPath (fuel + 1) h buffer =
      (searchPath fuel child.hash buffer).map fun path => (idx, child) :: path := by
  rw [searchPath, hf]

theorem exists_fuel {fuel : ℕ} {h : H256} {buffer : List Block} {path : List (ℕ × Block)}
    (hs : searchPath fuel h buffer = some path) : ∃ k, fuel = k + 1 := by
  cases fuel with
  | zero => simp [searchPath] at hs
  | succ k => exact ⟨k, rfl⟩

/-- The first round of a search. -/
theorem searchPath_cases {fuel : ℕ} {h : H256} {buffer : List Block} {path : List (ℕ × Block)}
    (hs : searchPath (fuel + 1) h buffer = some path) :
    (findChild h 0 buffer = none ∧ path = []) ∨
      ∃ idx child path', findChild h 0 buffer = some (idx, child) ∧
        searchPath fuel child.hash buffer = some path' ∧ path = (idx, child) :: path' := by
  cases hf : findChild h 0 buffer with
  | none =>
      rw [searchPath_none hf, Option.some_inj] at hs
      exact Or.inl ⟨rfl, hs.symm⟩
  | some r =>
      obtain ⟨idx, child⟩ := r
      rw [searchPath_some hf, Option.map_eq_some_iff] at hs
      obtain ⟨path', hs, rfl⟩ := hs
      exact Or.inr ⟨idx, child, path', rfl, hs, rfl⟩

/-- A search that finds nothing in its first round. -/
theorem eq_nil_of_searchPath {fuel : ℕ} {h : H256} {buffer : List Block} {path : List (ℕ × Block)}
    (hs : searchPath fuel h buffer = some path) (hf : findChild h 0 buffer = none) : path = [] := by
  obtain ⟨fuel, rfl⟩ := exists_fuel hs
  rw [searchPath_none hf, Option.some_inj] at hs
  exact hs.symm

/-- A search that finds a child in its first round. -/
theorem exists_tail_of_searchPath {fuel idx : ℕ} {h : H256} {child : Block} {buffer : List Block}
    {path : List (ℕ × Block)} (hs : searchPath fuel h buffer = some path)
    (hf : findChild h 0 buffer = some (idx, child)) :
    ∃ k path', searchPath k child.hash buffer = some path' ∧ path = (idx, child) :: path' := by
  obtain ⟨fuel, rfl⟩ := exists_fuel hs
  rw [searchPath_some hf, Option.map_eq_some_iff] at hs
  obtain ⟨path', hs, rfl⟩ := hs
  exact ⟨fuel, path', hs, rfl⟩

/-- **The induction rule for the blocks visited**: a property of the children of `h` in the buffer
that is handed on from a block to its children. -/
theorem searchPath_closed {X : Block → Prop} {buffer : List Block}
    (hX : ∀ a z, X a → z ∈ buffer → z.getParent = a.hash → X z) :
    ∀ {fuel : ℕ} {h : H256} {path : List (ℕ × Block)}, searchPath fuel h buffer = some path →
      (∀ z ∈ buffer, z.getParent = h → X z) → ∀ p ∈ path, X p.2 := by
  intro fuel
  induction fuel with
  | zero => intro h path hs; simp [searchPath] at hs
  | succ fuel ih =>
      intro h path hs hstart p hp
      rcases searchPath_cases hs with ⟨-, rfl⟩ | ⟨idx, child, path', hf, hs', rfl⟩
      · exact absurd hp List.not_mem_nil
      · obtain ⟨hmem, hpar⟩ := mem_of_findChild hf
        have hchild := hstart child hmem hpar
        rcases List.mem_cons.1 hp with rfl | hp
        · exact hchild
        · exact ih hs' (fun z hz hzc => hX child z hchild hz hzc) p hp

/-- A visited block stands in the buffer, and it is a child of `h` or of a visited block. -/
theorem mem_searchPath {buffer : List Block} : ∀ {fuel : ℕ} {h : H256} {path : List (ℕ × Block)},
    searchPath fuel h buffer = some path → ∀ p ∈ path, buffer[p.1]? = some p.2 ∧
      p.2.getParent ∈ h :: path.map fun q => q.2.hash := by
  intro fuel
  induction fuel with
  | zero => intro h path hs; simp [searchPath] at hs
  | succ fuel ih =>
      intro h path hs p hp
      rcases searchPath_cases hs with ⟨-, rfl⟩ | ⟨idx, child, path', hf, hs', rfl⟩
      · exact absurd hp List.not_mem_nil
      · rcases List.mem_cons.1 hp with rfl | hp
        · obtain ⟨-, hget, hpar⟩ := findChild_eq_some hf
          exact ⟨hget, hpar ▸ List.mem_cons_self ..⟩
        · obtain ⟨hget, hpar⟩ := ih hs' p hp
          exact ⟨hget, List.mem_cons_of_mem _ hpar⟩

/-- What a search visits does not depend on the fuel. -/
theorem searchPath_unique {buffer : List Block} : ∀ {fuel fuel' : ℕ} {h : H256}
    {path path' : List (ℕ × Block)}, searchPath fuel h buffer = some path →
      searchPath fuel' h buffer = some path' → path = path' := by
  intro fuel
  induction fuel with
  | zero => intro fuel' h path path' hs; simp [searchPath] at hs
  | succ fuel ih =>
      intro fuel' h path path' hs hs'
      rcases searchPath_cases hs with ⟨hf, rfl⟩ | ⟨idx, child, tail, hf, htail, rfl⟩
      · exact (eq_nil_of_searchPath hs' hf).symm
      · obtain ⟨k, tail', htail', rfl⟩ := exists_tail_of_searchPath hs' hf
        rw [ih htail htail']

/-- The search goes on from a visited block, for fewer rounds. -/
theorem searchPath_from_visited {buffer : List Block} : ∀ {fuel : ℕ} {h : H256}
    {path : List (ℕ × Block)}, searchPath fuel h buffer = some path → ∀ p ∈ path,
      ∃ k path', searchPath k p.2.hash buffer = some path' ∧ path'.length < path.length := by
  intro fuel
  induction fuel with
  | zero => intro h path hs; simp [searchPath] at hs
  | succ fuel ih =>
      intro h path hs p hp
      rcases searchPath_cases hs with ⟨-, rfl⟩ | ⟨idx, child, tail, hf, htail, rfl⟩
      · exact absurd hp List.not_mem_nil
      · rcases List.mem_cons.1 hp with rfl | hp
        · exact ⟨fuel, tail, htail, by simp⟩
        · obtain ⟨k, path', hs', hlt⟩ := ih htail p hp
          exact ⟨k, path', hs', lt_trans hlt (by simp)⟩

/-- A search that ends visits no position twice: it would go on from there as it did before. -/
theorem nodup_positions {buffer : List Block} : ∀ {fuel : ℕ} {h : H256} {path : List (ℕ × Block)},
    searchPath fuel h buffer = some path → (path.map Prod.fst).Nodup := by
  intro fuel
  induction fuel with
  | zero => intro h path hs; simp [searchPath] at hs
  | succ fuel ih =>
      intro h path hs
      rcases searchPath_cases hs with ⟨-, rfl⟩ | ⟨idx, child, tail, hf, htail, rfl⟩
      · exact List.nodup_nil
      · rw [List.map_cons, List.nodup_cons]
        refine ⟨fun hmem => ?_, ih htail⟩
        obtain ⟨q, hq, hqidx⟩ := List.mem_map.1 hmem
        obtain ⟨hget, -⟩ := mem_searchPath hs (idx, child) (List.mem_cons_self ..)
        obtain ⟨hget', -⟩ := mem_searchPath htail q hq
        have hchild : q.2 = child := by
          rw [hqidx, hget] at hget'
          exact (Option.some_inj.1 hget').symm
        obtain ⟨k, path', hs', hlt⟩ := searchPath_from_visited htail q hq
        rw [hchild] at hs'
        rw [searchPath_unique htail hs'] at hlt
        exact absurd hlt (lt_irrefl _)

/-- One round more than the visited blocks is enough. -/
theorem searchPath_of_length_lt {buffer : List Block} : ∀ {fuel k : ℕ} {h : H256}
    {path : List (ℕ × Block)}, searchPath fuel h buffer = some path → path.length < k →
      searchPath k h buffer = some path := by
  intro fuel
  induction fuel with
  | zero => intro k h path hs; simp [searchPath] at hs
  | succ fuel ih =>
      intro k h path hs hlt
      obtain ⟨k, rfl⟩ : ∃ j, k = j + 1 := ⟨k - 1, by omega⟩
      rcases searchPath_cases hs with ⟨hf, rfl⟩ | ⟨idx, child, tail, hf, htail, rfl⟩
      · exact searchPath_none hf
      · rw [searchPath_some hf, ih htail (by rw [List.length_cons] at hlt; omega), Option.map_some]

/-- **One round more than the buffer is long is enough** for every search that ends. -/
theorem searchPath_enough {fuel : ℕ} {h : H256} {buffer : List Block} {path : List (ℕ × Block)}
    (hs : searchPath fuel h buffer = some path) :
    searchPath (buffer.length + 1) h buffer = some path := by
  refine searchPath_of_length_lt hs (Nat.lt_succ_of_le ?_)
  have hsub : path.map Prod.fst ⊆ List.range buffer.length := by
    intro i hi
    obtain ⟨q, hq, rfl⟩ := List.mem_map.1 hi
    obtain ⟨hget, -⟩ := mem_searchPath hs q hq
    exact List.mem_range.2 (List.getElem?_eq_some_iff.1 hget).1
  have hle := (List.subperm_of_subset (nodup_positions hs) hsub).length_le
  rwa [List.length_map, List.length_range] at hle

/-- With one child at most for each hash, every child of `h` or of a visited block is visited. -/
theorem mem_searchPath_of_child {buffer : List Block} {z : Block} (hz : z ∈ buffer) :
    ∀ {fuel : ℕ} {h : H256} {path : List (ℕ × Block)}, searchPath fuel h buffer = some path →
      (∀ k ∈ h :: path.map fun q => q.2.hash,
        (buffer.filter fun z => z.getParent = k).length ≤ 1) →
      z.getParent ∈ (h :: path.map fun q => q.2.hash) → ∃ p ∈ path, p.2 = z := by
  intro fuel
  induction fuel with
  | zero => intro h path hs; simp [searchPath] at hs
  | succ fuel ih =>
      intro h path hs hone hpar
      rcases searchPath_cases hs with ⟨hf, rfl⟩ | ⟨idx, child, path', hf, hs', rfl⟩
      · rw [List.map_nil, List.mem_singleton] at hpar
        exact absurd hpar (findChild_eq_none.1 hf z hz)
      · rcases List.mem_cons.1 hpar with hpar | hpar
        · -- the child found first is the only one
          have hle := hone h (List.mem_cons_self ..)
          obtain ⟨hmem, hcpar⟩ := mem_of_findChild hf
          have hz' : z ∈ buffer.filter fun z => z.getParent = h :=
            List.mem_filter.2 ⟨hz, by simpa using hpar⟩
          have hc' : child ∈ buffer.filter fun z => z.getParent = h :=
            List.mem_filter.2 ⟨hmem, by simpa using hcpar⟩
          obtain ⟨a, ha⟩ := List.length_eq_one_iff.1
            (le_antisymm hle (List.length_pos_of_mem hz'))
          rw [ha, List.mem_singleton] at hz' hc'
          exact ⟨_, List.mem_cons_self .., hc'.trans hz'.symm⟩
        · obtain ⟨p, hp, hpz⟩ := ih hs' (fun k hk => hone k (List.mem_cons_of_mem _ hk)) hpar
          exact ⟨p, List.mem_cons_of_mem _ hp, hpz⟩

/-- Removing a position after all that are visited does not change the search. -/
theorem searchPath_eraseIdx {i : ℕ} {buffer : List Block} : ∀ {fuel : ℕ} {h : H256}
    {path : List (ℕ × Block)}, searchPath fuel h buffer = some path → (∀ p ∈ path, p.1 < i) →
      searchPath fuel h (buffer.eraseIdx i) = some path := by
  intro fuel
  induction fuel with
  | zero => intro h path hs; simp [searchPath] at hs
  | succ fuel ih =>
      intro h path hs hlt
      rcases searchPath_cases hs with ⟨hf, rfl⟩ | ⟨idx, child, path', hf, hs', rfl⟩
      · refine searchPath_none (findChild_none_of_subset hf fun z hz => ?_)
        exact (List.eraseIdx_sublist buffer i).subset hz
      · have hidx : idx < 0 + i := by
          rw [Nat.zero_add]
          exact hlt (idx, child) (List.mem_cons_self ..)
        rw [searchPath_some (findChild_eraseIdx hf hidx),
          ih hs' fun p hp => hlt p (List.mem_cons_of_mem _ hp), Option.map_some]

/-- **Removing the positions visited removes the blocks visited**, when the positions decrease and
each hash has one child at most. -/
theorem removeAll_searchPath : ∀ {fuel : ℕ} {h : H256} {buffer : List Block}
    {path : List (ℕ × Block)}, searchPath fuel h buffer = some path →
      path.Pairwise (fun p q => q.1 < p.1) →
      (∀ k ∈ h :: path.map fun q => q.2.hash,
        (buffer.filter fun z => z.getParent = k).length ≤ 1) →
      removeAll (path.map Prod.fst) buffer =
        .done (buffer.filter fun z => z.getParent ∉ h :: path.map fun q => q.2.hash) () := by
  intro fuel
  induction fuel with
  | zero => intro h buffer path hs; simp [searchPath] at hs
  | succ fuel ih =>
      intro h buffer path hs hdec hone
      rcases searchPath_cases hs with ⟨hf, rfl⟩ | ⟨idx, child, path', hf, hs', rfl⟩
      · rw [List.map_nil, removeAll, eq_comm]
        congr 1
        rw [List.filter_eq_self]
        intro z hz
        simpa using findChild_eq_none.1 hf z hz
      · obtain ⟨-, hget, -⟩ := findChild_eq_some hf
        have hidx : idx < buffer.length := (List.getElem?_eq_some_iff.1 hget).1
        obtain ⟨hlt, hdec'⟩ := List.pairwise_cons.1 hdec
        have herase := eraseIdx_findChild hf (hone h (List.mem_cons_self ..))
        rw [Nat.sub_zero] at herase
        have hsub : (buffer.eraseIdx idx).Sublist buffer := List.eraseIdx_sublist buffer idx
        rw [List.map_cons, removeAll, if_pos hidx,
          ih (searchPath_eraseIdx hs' fun p hp => hlt p hp) hdec' fun k hk =>
            le_trans (hsub.filter _).length_le (hone k (List.mem_cons_of_mem _ hk)),
          herase, List.filter_filter]
        congr 1
        refine List.filter_congr fun z _ => ?_
        simp only [List.map_cons, List.mem_cons, not_or, Bool.decide_and, Bool.and_comm, ne_eq]

theorem mem_hashes_searchPath {x : Block} {path : List (ℕ × Block)} {k : H256} :
    k ∈ (x.hash :: path.map fun q => q.2.hash) ↔
      ∃ a ∈ [x] ++ path.map Prod.snd, k = a.hash := by
  constructor
  · intro h
    rcases List.mem_cons.1 h with rfl | h
    · exact ⟨x, List.mem_cons_self .., rfl⟩
    · obtain ⟨q, hq, rfl⟩ := List.mem_map.1 h
      exact ⟨q.2, List.mem_append_right _ (List.mem_map.2 ⟨q, hq, rfl⟩), rfl⟩
  · rintro ⟨a, ha, rfl⟩
    rcases List.mem_append.1 ha with ha | ha
    · rw [List.mem_singleton.1 ha]
      exact List.mem_cons_self ..
    · obtain ⟨q, hq, rfl⟩ := List.mem_map.1 ha
      exact List.mem_cons_of_mem _ (List.mem_map.2 ⟨q, hq, rfl⟩)

/-- `P` is the least list of blocks with `x` and the parked children of its members. -/
structure Reaches (buffer : List Block) (x : Block) (P : List Block) : Prop where
  start : x ∈ P
  closed : ∀ z ∈ buffer, ∀ a ∈ P, z.getParent = a.hash → z ∈ P
  least : ∀ X : Block → Prop, X x →
    (∀ a z, X a → z ∈ buffer → z.getParent = a.hash → X z) → ∀ z ∈ P, X z

/-- **A search visits the least list of blocks that contains the children of its members.** -/
theorem reaches_of_searchPath {fuel : ℕ} {x : Block} {buffer : List Block} {path : List (ℕ × Block)}
    (hs : searchPath fuel x.hash buffer = some path)
    (hone : ∀ k ∈ x.hash :: path.map fun q => q.2.hash,
      (buffer.filter fun z => z.getParent = k).length ≤ 1) :
    Reaches buffer x ([x] ++ path.map Prod.snd) where
  start := List.mem_cons_self ..
  closed z hz a ha hza := by
    obtain ⟨q, hq, rfl⟩ :=
      mem_searchPath_of_child hz hs hone (mem_hashes_searchPath.2 ⟨a, ha, hza⟩)
    exact List.mem_append_right _ (List.mem_map.2 ⟨q, hq, rfl⟩)
  least X hX hchild z hz := by
    rcases List.mem_append.1 hz with hz | hz
    · rw [List.mem_singleton.1 hz]
      exact hX
    · obtain ⟨q, hq, rfl⟩ := List.mem_map.1 hz
      exact searchPath_closed hchild hs (fun z hz hzx => hchild x z hX hz hzx) q hq

/-- The blocks that a search from a block outside the buffer leaves in it. -/
theorem mem_filter_searchPath {fuel : ℕ} {x z : Block} {buffer : List Block}
    {path : List (ℕ × Block)} (hs : searchPath fuel x.hash buffer = some path)
    (hone : ∀ k ∈ x.hash :: path.map fun q => q.2.hash,
      (buffer.filter fun z => z.getParent = k).length ≤ 1) (hx : x ∉ buffer) :
    z ∈ (buffer.filter fun z => z.getParent ∉ x.hash :: path.map fun q => q.2.hash) ↔
      z ∈ buffer ∧ z ∉ [x] ++ path.map Prod.snd := by
  rw [List.mem_filter, decide_eq_true_iff, mem_hashes_searchPath]
  refine and_congr_right fun hz => not_congr ⟨?_, fun hmem => ?_⟩
  · rintro ⟨a, ha, hza⟩
    exact (reaches_of_searchPath hs hone).closed z hz a ha hza
  · rcases List.mem_append.1 hmem with hmem | hmem
    · exact absurd hz (List.mem_singleton.1 hmem ▸ hx)
    · obtain ⟨q, hq, rfl⟩ := List.mem_map.1 hmem
      exact mem_hashes_searchPath.1 (mem_searchPath hs q hq).2

/-! ### Tidy buffers -/

/-- For the hashes in `K`, which contains the hash of a parked block with the hash of its parent: each
has one child at most in the buffer, and a parked child stands before its parked parent. -/
structure Tidy (K : H256 → Prop) (buffer : List Block) : Prop where
  closed : ∀ z ∈ buffer, K z.getParent → K z.hash
  oneChild : ∀ k, K k → (buffer.filter fun z => z.getParent = k).length ≤ 1
  before : ∀ (i j : ℕ) (a z : Block), buffer[i]? = some a → buffer[j]? = some z → K a.getParent →
    z.getParent = a.hash → j < i

namespace Tidy

variable {K : H256 → Prop} {buffer : List Block}

/-- The hashes visited are in `K`. -/
theorem mem_of_searchPath (hT : Tidy K buffer) {fuel : ℕ} {h : H256} {path : List (ℕ × Block)}
    (hh : K h) (hs : searchPath fuel h buffer = some path) :
    ∀ k ∈ h :: path.map fun q => q.2.hash, K k := by
  have hpath := searchPath_closed (X := fun z => K z.hash)
    (fun a z ha hz hza => hT.closed z hz (hza ▸ ha)) hs
    fun z hz hzh => hT.closed z hz (hzh ▸ hh)
  intro k hk
  rcases List.mem_cons.1 hk with rfl | hk
  · exact hh
  · obtain ⟨q, hq, rfl⟩ := List.mem_map.1 hk
    exact hpath q hq

/-- **The search of a tidy buffer ends**, with decreasing positions: each round goes to a smaller
position than the one before. -/
theorem exists_searchPath (hT : Tidy K buffer) : ∀ (fuel : ℕ) {h : H256} {k : ℕ}, K h →
    (∀ i z, buffer[i]? = some z → z.getParent = h → i < k) → k < fuel →
    ∃ path, searchPath fuel h buffer = some path ∧ path.Pairwise (fun p q => q.1 < p.1) ∧
      ∀ p ∈ path, p.1 < k := by
  intro fuel
  induction fuel with
  | zero => intro h k _ _ hk; omega
  | succ fuel ih =>
      intro h k hh hbound hk
      cases hf : findChild h 0 buffer with
      | none => exact ⟨[], searchPath_none hf, List.Pairwise.nil, by simp⟩
      | some r =>
          obtain ⟨idx, child⟩ := r
          obtain ⟨-, hget, hpar⟩ := findChild_eq_some hf
          have hidx := hbound idx child hget hpar
          have hchild : K child.hash :=
            hT.closed child (List.mem_of_getElem? hget) (hpar.symm ▸ hh)
          obtain ⟨path, hs, hdec, hlt⟩ := ih hchild
            (fun i z hz hzc => hT.before idx i child z hget hz (hpar.symm ▸ hh) hzc) (by omega)
          refine ⟨(idx, child) :: path, ?_, List.pairwise_cons.2 ⟨hlt, hdec⟩, fun p hp => ?_⟩
          · rw [searchPath_some hf, hs, Option.map_some]
          · rcases List.mem_cons.1 hp with rfl | hp
            · exact hidx
            · exact lt_trans (hlt p hp) hidx

/-- A block whose parent has a hash in `K` stands at one position only. -/
theorem index_inj (hT : Tidy K buffer) {i j : ℕ} {z : Block} (hi : buffer[i]? = some z)
    (hj : buffer[j]? = some z) (hz : K z.getParent) : i = j := by
  have hle := hT.oneChild _ hz
  -- two positions would give two children
  have htwo : ∀ {i j : ℕ}, buffer[i]? = some z → buffer[j]? = some z → ¬ i < j := by
    intro i j hi hj hij
    have htake : z ∈ (buffer.take j).filter fun y => y.getParent = z.getParent := by
      refine List.mem_filter.2 ⟨List.mem_of_getElem? (i := i) ?_, by simp⟩
      rw [List.getElem?_take_of_lt hij, hi]
    have hdrop : z ∈ (buffer.drop j).filter fun y => y.getParent = z.getParent := by
      refine List.mem_filter.2 ⟨List.mem_of_getElem? (i := 0) ?_, by simp⟩
      rw [List.getElem?_drop, Nat.add_zero, hj]
    have hlen := congrArg (fun l : List Block =>
      (l.filter fun y => y.getParent = z.getParent).length) (List.take_append_drop j buffer)
    simp only [List.filter_append, List.length_append] at hlen
    have h₁ := List.length_pos_of_mem htake
    have h₂ := List.length_pos_of_mem hdrop
    omega
  rcases Nat.lt_trichotomy i j with h | h | h
  · exact absurd h (htwo hi hj)
  · exact h
  · exact absurd h (htwo hj hi)

/-- The blocks visited are different. -/
theorem nodup_searchPath (hT : Tidy K buffer) {fuel : ℕ} {h : H256} {path : List (ℕ × Block)}
    (hh : K h) (hs : searchPath fuel h buffer = some path)
    (hdec : path.Pairwise fun p q => q.1 < p.1) : (path.map Prod.snd).Nodup := by
  refine List.pairwise_map.2 (hdec.imp_of_mem fun hp hq hlt heq => ?_)
  obtain ⟨hgp, hpar⟩ := mem_searchPath hs _ hp
  obtain ⟨hgq, -⟩ := mem_searchPath hs _ hq
  rw [← heq] at hgq
  have hidx := hT.index_inj hgp hgq (hT.mem_of_searchPath hh hs _ hpar)
  omega

end Tidy

end BitcoinClient
