/-
**Delivering blocks to a node.**

What a new block does to the store and to the orphan buffer, and the induction over the blocks of a
message and over the messages.  A new block is parked, or it is checked and attached and starts an
orphan search; `searchPath` gives the blocks that the search visits, and each of them is checked and
attached in turn.

Main definitions:

* `BitcoinClient.Settles`, `BitcoinClient.SettlesAll` — what checking a block against its parent does
  to the store, and checking the blocks of a path one after the other;
* `BitcoinClient.Worker.deliver` — the treatment of several `Blocks` messages, one after the other.

Main results:

* `BitcoinClient.Worker.handleNewBlock_park`, `BitcoinClient.Worker.handleNewBlock_search` — what a
  new block does;
* `BitcoinClient.Worker.handleNewBlock_ensures` — and that it does nothing else;
* `BitcoinClient.Worker.deliver_ends`, `BitcoinClient.Worker.onBlocks_ensures` — the rules for total
  and partial correctness of a delivery;
* `BitcoinClient.Node.run_deliver` — **the steps of a node compute a delivery**.
-/

import BitcoinClient.OrphanSearch
import BitcoinClient.WorkerSteps

set_option relaxedAutoImplicit false
set_option autoImplicit false

namespace BitcoinClient

variable [Crypto]

/-! ### A new block -/

/-- A block checked against `parent`: it is attached when it passes, and nothing changes when it
does not. -/
def Settles (chain : Blockchain) (block parent : Block) (chain' : Blockchain) : Prop :=
  (checkBlockValidity block parent = true ∧ chain.attach block = .done chain' ()) ∨
    (checkBlockValidity block parent = false ∧ chain' = chain)

/-- The blocks of a path, each checked against the one before it. -/
def SettlesAll : Blockchain → Block → List (ℕ × Block) → Blockchain → Prop
  | chain, _, [], chain' => chain' = chain
  | chain, parent, (_, block) :: path, chain' =>
    ∃ chain₁, Settles chain block parent chain₁ ∧ SettlesAll chain₁ block path chain'

/-- **A check stores the block if it passes**, and nothing else. -/
theorem Settles.isSome_iff {c c' : Blockchain} {block parent : Block} (h : Settles c block parent c')
    (hash : H256) : (c'.getBlock hash).isSome ↔
      (c.getBlock hash).isSome ∨ checkBlockValidity block parent = true ∧ block.hash = hash := by
  rcases h with ⟨hv, ha⟩ | ⟨hv, rfl⟩
  · obtain ⟨_, _, _, _, -, -, -, rfl⟩ := Blockchain.of_attach_done ha
    rw [and_iff_right hv, Blockchain.getBlock_put]
    split
    · rename_i hh
      exact iff_of_true rfl (Or.inr hh.symm)
    · rename_i hh
      rw [or_iff_left (Ne.symm hh)]
      rfl
  · simp [hv]

theorem Settles.isSome {c c' : Blockchain} {block parent : Block} (h : Settles c block parent c')
    {hash : H256} (hs : (c.getBlock hash).isSome) : (c'.getBlock hash).isSome :=
  (h.isSome_iff hash).2 (Or.inl hs)

theorem SettlesAll.isSome {path : List (ℕ × Block)} : ∀ {c c' : Blockchain} {parent : Block},
    SettlesAll c parent path c' → ∀ {hash : H256}, (c.getBlock hash).isSome →
      (c'.getBlock hash).isSome := by
  induction path with
  | nil =>
      rintro c c' parent h hash hs
      rw [SettlesAll] at h
      rw [h]
      exact hs
  | cons p path ih =>
      rintro c c' parent ⟨c₁, h₁, h₂⟩ hash hs
      exact ih h₂ (h₁.isSome hs)

namespace Worker

variable {w : Worker} {block parent : Block}

theorem attachIfValid_of_settles {c' : Blockchain} (h : Settles w.blockchain block parent c') :
    w.attachIfValid block parent = .done { w with blockchain := c' } () := by
  rcases h with ⟨hv, ha⟩ | ⟨hv, rfl⟩
  · rw [attachIfValid, if_pos hv, ha, Exec.lift_done]
  · rw [attachIfValid, if_neg (by simp [hv])]

theorem attachIfValid_ensures : (w.attachIfValid block parent).Ensures fun w' _ =>
    ∃ c', Settles w.blockchain block parent c' ∧ w' = { w with blockchain := c' } := by
  rw [attachIfValid]
  cases hv : checkBlockValidity block parent with
  | true =>
      rw [if_pos rfl, Exec.ensures_lift]
      exact fun c' _ ha => ⟨c', Or.inl ⟨hv, ha⟩, rfl⟩
  | false =>
      rw [if_neg (by simp), Exec.ensures_done]
      exact ⟨w.blockchain, Or.inr ⟨hv, rfl⟩, rfl⟩

/-- **The search of the worker follows `searchPath`.** -/
theorem searchOrphans_eq : ∀ {fuel : ℕ} {x : Block} {idxs : List ℕ} {w : Worker}
    {path : List (ℕ × Block)} {c' : Blockchain},
    searchPath fuel x.hash w.orphanBuffer = some path → SettlesAll w.blockchain x path c' →
      w.searchOrphans fuel x idxs = .done { w with blockchain := c' } (idxs ++ path.map Prod.fst) := by
  intro fuel
  induction fuel with
  | zero => intro x idxs w path c' hs; simp [searchPath] at hs
  | succ fuel ih =>
      intro x idxs w path c' hs hsettles
      rw [searchOrphans]
      rcases searchPath_cases hs with ⟨hf, rfl⟩ | ⟨idx, child, path', hf, hs', rfl⟩
      · rw [SettlesAll] at hsettles
        rw [hf, hsettles, List.map_nil, List.append_nil]
      · obtain ⟨c₁, h₁, h₂⟩ := hsettles
        rw [hf]
        simp only
        rw [attachIfValid_of_settles h₁, Exec.bind_done,
          ih (w := { w with blockchain := c₁ }) hs' h₂, List.append_assoc]
        rfl

theorem searchOrphans_ensures : ∀ (fuel : ℕ) (x : Block) (idxs : List ℕ) (w : Worker),
    (w.searchOrphans fuel x idxs).Ensures fun w' idxs' =>
      ∃ path c', searchPath fuel x.hash w.orphanBuffer = some path ∧
        SettlesAll w.blockchain x path c' ∧ w' = { w with blockchain := c' } ∧
        idxs' = idxs ++ path.map Prod.fst := by
  intro fuel
  induction fuel with
  | zero => intro x idxs w s a h; simp [searchOrphans] at h
  | succ fuel ih =>
      intro x idxs w
      rw [searchOrphans]
      cases hf : findChild x.hash 0 w.orphanBuffer with
      | none =>
          rw [Exec.ensures_done]
          exact ⟨[], w.blockchain, searchPath_none hf, rfl, rfl, (List.append_nil _).symm⟩
      | some r =>
          obtain ⟨idx, child⟩ := r
          rw [Exec.ensures_bind]
          refine attachIfValid_ensures.mono fun w₁ _ h₁ => ?_
          obtain ⟨c₁, hsettle, rfl⟩ := h₁
          refine (ih child (idxs ++ [idx]) _).mono fun w₂ idxs₂ h₂ => ?_
          obtain ⟨path, c₂, hpath, hall, rfl, rfl⟩ := h₂
          refine ⟨(idx, child) :: path, c₂, ?_, ⟨c₁, hsettle, hall⟩, rfl, by simp⟩
          rw [searchPath_some hf, show searchPath fuel child.hash w.orphanBuffer = _ from hpath,
            Option.map_some]

/-- The search and the cleanup after it. -/
theorem search_cleanup {path : List (ℕ × Block)} {c' : Blockchain} {buffer : List Block}
    (hpath : searchPath (w.orphanBuffer.length + 1) block.hash w.orphanBuffer = some path)
    (hall : SettlesAll w.blockchain block path c')
    (hremove : removeAll (path.map Prod.fst) w.orphanBuffer = .done buffer ()) :
    ((w.searchOrphans (w.orphanBuffer.length + 1) block []).bind fun w idxs => w.cleanup idxs) =
      .done { w with blockchain := c', orphanBuffer := buffer } () := by
  rw [searchOrphans_eq hpath hall, Exec.bind_done, cleanup, List.nil_append, hremove,
    Exec.lift_done]

/-- A block whose parent is not stored is parked. -/
theorem handleNewBlock_park (hpar : w.blockchain.getBlock block.getParent = none)
    (hlen : block.length ≠ 1) : (w.handleNewBlock block).Ends fun w' _ =>
      w'.blockchain = w.blockchain ∧ w'.orphanBuffer = w.orphanBuffer ++ [block] := by
  have hp : (w.removeFromMempool block).blockchain.getParentBlock block = none := hpar
  simp only [handleNewBlock, hp]
  rw [handleWithoutParent, if_neg hlen, Exec.ends_done]
  exact ⟨rfl, rfl⟩

/-- A block whose parent is stored is checked and starts a search, and the positions visited are
removed. -/
theorem handleNewBlock_search {path : List (ℕ × Block)} {c₁ c₂ : Blockchain} {buffer : List Block}
    (hpar : w.blockchain.getBlock block.getParent = some parent)
    (hsettle : Settles w.blockchain block parent c₁)
    (hpath : searchPath (w.orphanBuffer.length + 1) block.hash w.orphanBuffer = some path)
    (hall : SettlesAll c₁ block path c₂)
    (hremove : removeAll (path.map Prod.fst) w.orphanBuffer = .done buffer ()) :
    (w.handleNewBlock block).Ends fun w' _ =>
      w'.blockchain = c₂ ∧ w'.orphanBuffer = buffer := by
  have hp : (w.removeFromMempool block).blockchain.getParentBlock block = some parent := hpar
  have hattach : (w.removeFromMempool block).attachIfValid block parent = _ :=
    attachIfValid_of_settles hsettle
  have hsearch := search_cleanup (w := { w.removeFromMempool block with blockchain := c₁ })
    hpath hall hremove
  simp only [handleNewBlock, hp]
  rw [hattach, Exec.bind_done, hsearch]
  exact ⟨_, (), rfl, rfl, rfl⟩

/-- What a new block with a stored parent has done when its treatment is done. -/
theorem handleNewBlock_ensures_of_parent
    (hpar : w.blockchain.getBlock block.getParent = some parent) :
    (w.handleNewBlock block).Ensures fun w' _ => ∃ path c₁,
      Settles w.blockchain block parent c₁ ∧
        searchPath (w.orphanBuffer.length + 1) block.hash w.orphanBuffer = some path ∧
        SettlesAll c₁ block path w'.blockchain ∧
        removeAll (path.map Prod.fst) w.orphanBuffer = .done w'.orphanBuffer () ∧
        w'.mempool = deleteTxFromMempool w.mempool block.data := by
  have hp : (w.removeFromMempool block).blockchain.getParentBlock block = some parent := hpar
  simp only [handleNewBlock, hp]
  rw [Exec.ensures_bind]
  refine attachIfValid_ensures.mono fun w₁ _ h₁ => ?_
  obtain ⟨c₁, hsettle, rfl⟩ := h₁
  rw [Exec.ensures_bind]
  refine (searchOrphans_ensures _ _ _ _).mono fun w₂ idxs h₂ => ?_
  obtain ⟨path, c₂, hpath, hall, rfl, rfl⟩ := h₂
  rw [cleanup, Exec.ensures_lift]
  exact fun buffer _ hremove => ⟨path, c₁, hsettle, hpath, hall, hremove, rfl⟩

/-- **What a new block has done when its treatment is done.** -/
theorem handleNewBlock_ensures (hlen : block.length ≠ 1) :
    (w.handleNewBlock block).Ensures fun w' _ =>
      (w.blockchain.getBlock block.getParent = none ∧ w'.blockchain = w.blockchain ∧
          w'.orphanBuffer = w.orphanBuffer ++ [block]) ∨
        ∃ parent path c₁, w.blockchain.getBlock block.getParent = some parent ∧
          Settles w.blockchain block parent c₁ ∧
          searchPath (w.orphanBuffer.length + 1) block.hash w.orphanBuffer = some path ∧
          SettlesAll c₁ block path w'.blockchain ∧
          removeAll (path.map Prod.fst) w.orphanBuffer = .done w'.orphanBuffer () := by
  cases hp : w.blockchain.getBlock block.getParent with
  | none =>
      refine (handleNewBlock_park hp hlen).ensures.mono fun w' _ h => ?_
      exact Or.inl ⟨rfl, h⟩
  | some parent =>
      refine (handleNewBlock_ensures_of_parent hp).mono fun w' _ h => ?_
      obtain ⟨path, c₁, hsettle, hpath, hall, hremove, -⟩ := h
      exact Or.inr ⟨parent, path, c₁, rfl, hsettle, hpath, hall, hremove⟩

/-! ### The loops -/

/-- The treatment of several messages, one after the other. -/
def deliver : List (List Block) → Worker → Exec Worker Unit
  | [], w => .done w ()
  | blocks :: messages, w => (w.blocksMessage blocks).bind fun w _ => deliver messages w

/-- The loop over two lists of blocks. -/
theorem onBlocks_append : ∀ (blocks blocks' : List Block) (hs : List H256) (w : Worker),
    w.onBlocks (blocks ++ blocks') hs =
      (w.onBlocks blocks hs).bind fun w hs => w.onBlocks blocks' hs := by
  intro blocks blocks'
  induction blocks with
  | nil => intro hs w; rfl
  | cons x blocks ih =>
      intro hs w
      rw [List.cons_append, onBlocks, onBlocks]
      cases hb : w.blockchain.getBlock x.hash with
      | some b => exact ih hs w
      | none =>
          simp only
          cases w.handleNewBlock x with
          | done w' u => exact ih _ w'
          | panicked w' => rfl
          | looping w' => rfl

omit [Crypto] in
theorem announce_store (message : List H256 → Message) (hashes : List H256) :
    (w.announce message hashes).blockchain = w.blockchain ∧
      (w.announce message hashes).orphanBuffer = w.orphanBuffer := by
  rw [announce]
  split <;> exact ⟨rfl, rfl⟩

section

variable {T : List Block} {I : List Block → Blockchain → List Block → Prop}

/-- **The rule for the loop over blocks, total correctness.**  `I L` holds of the store and the buffer
after the blocks of `L`, and `T` is the list of all the blocks delivered. -/
theorem onBlocks_ends
    (hskip : ∀ L x rest (w : Worker), T = L ++ x :: rest → I L w.blockchain w.orphanBuffer →
      (w.blockchain.getBlock x.hash).isSome → I (L ++ [x]) w.blockchain w.orphanBuffer)
    (hnew : ∀ L x rest (w : Worker), T = L ++ x :: rest → I L w.blockchain w.orphanBuffer →
      w.blockchain.getBlock x.hash = none →
      (w.handleNewBlock x).Ends fun w' _ => I (L ++ [x]) w'.blockchain w'.orphanBuffer) :
    ∀ (blocks L rest : List Block) (hs : List H256) (w : Worker), T = L ++ blocks ++ rest →
      I L w.blockchain w.orphanBuffer →
      (w.onBlocks blocks hs).Ends fun w' _ => I (L ++ blocks) w'.blockchain w'.orphanBuffer := by
  intro blocks
  induction blocks with
  | nil =>
      intro L rest hs w _ h
      rw [onBlocks, Exec.ends_done, List.append_nil]
      exact h
  | cons x blocks ih =>
      intro L rest hs w hT h
      have hT' : T = L ++ x :: (blocks ++ rest) := by simp [hT]
      have hT'' : T = L ++ [x] ++ blocks ++ rest := by simp [hT]
      have happ : L ++ x :: blocks = L ++ [x] ++ blocks := by simp
      rw [onBlocks, happ]
      cases hb : w.blockchain.getBlock x.hash with
      | some b => exact ih (L ++ [x]) rest hs w hT'' (hskip L x _ w hT' h (by rw [hb]; rfl))
      | none =>
          simp only
          rw [Exec.ends_bind]
          exact (hnew L x _ w hT' h hb).mono fun w' _ h' => ih (L ++ [x]) rest _ w' hT'' h'

/-- The rule for several messages. -/
theorem deliver_ends
    (hskip : ∀ L x rest (w : Worker), T = L ++ x :: rest → I L w.blockchain w.orphanBuffer →
      (w.blockchain.getBlock x.hash).isSome → I (L ++ [x]) w.blockchain w.orphanBuffer)
    (hnew : ∀ L x rest (w : Worker), T = L ++ x :: rest → I L w.blockchain w.orphanBuffer →
      w.blockchain.getBlock x.hash = none →
      (w.handleNewBlock x).Ends fun w' _ => I (L ++ [x]) w'.blockchain w'.orphanBuffer) :
    ∀ (messages : List (List Block)) (L : List Block) (w : Worker), T = L ++ messages.flatten →
      I L w.blockchain w.orphanBuffer →
      (w.deliver messages).Ends fun w' _ => I T w'.blockchain w'.orphanBuffer := by
  intro messages
  induction messages with
  | nil =>
      intro L w hT h
      rw [deliver, Exec.ends_done, hT, List.flatten_nil, List.append_nil]
      exact h
  | cons blocks messages ih =>
      intro L w hT h
      have hT' : T = L ++ blocks ++ messages.flatten := by simp [hT]
      rw [deliver, Exec.ends_bind, blocksMessage, Exec.ends_bind]
      refine (onBlocks_ends hskip hnew blocks L _ [] w hT' h).mono fun w' hs h' => ?_
      rw [Exec.ends_done]
      refine ih (L ++ blocks) _ hT' ?_
      rw [(announce_store _ _).1, (announce_store _ _).2]
      exact h'

/-- **The rule for the loop over blocks, partial correctness.** -/
theorem onBlocks_ensures
    (hskip : ∀ L x rest (w : Worker), T = L ++ x :: rest → I L w.blockchain w.orphanBuffer →
      (w.blockchain.getBlock x.hash).isSome → I (L ++ [x]) w.blockchain w.orphanBuffer)
    (hnew : ∀ L x rest (w : Worker), T = L ++ x :: rest → I L w.blockchain w.orphanBuffer →
      w.blockchain.getBlock x.hash = none →
      (w.handleNewBlock x).Ensures fun w' _ => I (L ++ [x]) w'.blockchain w'.orphanBuffer) :
    ∀ (blocks L rest : List Block) (hs : List H256) (w : Worker), T = L ++ blocks ++ rest →
      I L w.blockchain w.orphanBuffer →
      (w.onBlocks blocks hs).Ensures fun w' _ =>
        I (L ++ blocks) w'.blockchain w'.orphanBuffer := by
  intro blocks
  induction blocks with
  | nil =>
      intro L rest hs w _ h
      rw [onBlocks, Exec.ensures_done, List.append_nil]
      exact h
  | cons x blocks ih =>
      intro L rest hs w hT h
      have hT' : T = L ++ x :: (blocks ++ rest) := by simp [hT]
      have hT'' : T = L ++ [x] ++ blocks ++ rest := by simp [hT]
      have happ : L ++ x :: blocks = L ++ [x] ++ blocks := by simp
      rw [onBlocks, happ]
      cases hb : w.blockchain.getBlock x.hash with
      | some b => exact ih (L ++ [x]) rest hs w hT'' (hskip L x _ w hT' h (by rw [hb]; rfl))
      | none =>
          simp only
          rw [Exec.ensures_bind]
          exact (hnew L x _ w hT' h hb).mono fun w' _ h' => ih (L ++ [x]) rest _ w' hT'' h'

end

end Worker

/-! ### The steps of a delivery -/

/-- **The steps of a node compute a delivery**: a delivery that is done is a run in which the node
takes the messages in turn, and only the network worker does anything in between. -/
theorem Node.run_deliver : ∀ (messages : List (List Block)) (n : Node) (w : Worker),
    n.lock = .free → n.mempoolPoisoned = false → n.toWorker.deliver messages = .done w () →
      ∃ tr, Node.Run n tr { n with toWorker := w } ∧
        (tr.map Prod.snd).filter (· ≠ .worker) =
          messages.map fun blocks => .message (.blocks blocks) := by
  intro messages
  induction messages with
  | nil =>
      intro n w _ _ hd
      rw [Worker.deliver, Exec.done.injEq] at hd
      obtain ⟨rfl, -⟩ := hd
      exact ⟨[], .nil, rfl⟩
  | cons blocks messages ih =>
      intro n w hlock hpool hd
      rw [Worker.deliver, Exec.bind_eq_done] at hd
      obtain ⟨w₁, ⟨⟩, hfirst, hrest⟩ := hd
      have hne : ∀ w', n.toWorker.blocksMessage blocks ≠ .looping w' := by
        intro w' h
        rw [hfirst] at h
        simp at h
      obtain ⟨m, hm, tr₁, hrun₁, htr₁⟩ := worksTo_blocksMessage hlock hpool hne
      rw [hfirst] at hrun₁
      obtain ⟨tr₂, hrun₂, htr₂⟩ := ih { n with toWorker := w₁, lock := .free } w rfl hpool hrest
      have hend : ({ n with toWorker := w, lock := .free } : Node) = { n with toWorker := w } := by
        rw [← hlock]
      have hnone : (tr₁.map Prod.snd).filter (· ≠ .worker) = [] := by
        refine List.filter_eq_nil_iff.2 fun e he => ?_
        obtain ⟨x, hx, rfl⟩ := List.mem_map.1 he
        simp [htr₁ x hx]
      refine ⟨[(n, .message (.blocks blocks))] ++ tr₁ ++ tr₂,
        ((Lts.Run.single hm).trans hrun₁).trans (hend ▸ hrun₂), ?_⟩
      rw [List.map_append, List.map_append, List.filter_append, List.filter_append, hnone, htr₂,
        List.append_nil]
      rfl

end BitcoinClient
