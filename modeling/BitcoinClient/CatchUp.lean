/-
**A node that lags behind catches up.**

A node that hears of a block asks for it, parks it when it does not have the parent, and asks for the
parent; when it has come down to a block whose parent it stores, it attaches that block and the orphan
search attaches the others.  So a chain that is fetched from its newest block down to its oldest one is
attached from the oldest one up.

The exchange is a run of the network: an announcement is delivered to the follower, and then, for each
missing block from the newest to the oldest, the request of the follower to the leader and the reply of the
leader to the follower.  Nothing else is delivered, and no block is asked for twice.

Main definitions:

* `BitcoinClient.AttachAll` — attaching the blocks of a list, one after the other;
* `BitcoinClient.Missing` — a chain of blocks, newest first, that a node does not have;
* `BitcoinClient.Network.deliveries` — the messages delivered in a run, with their receivers.

Main results:

* `BitcoinClient.searchPath_parked`, `BitcoinClient.removeAll_parked` — the search through the parked chain,
  and its removal;
* `BitcoinClient.Network.run_of_node` — a run of one node that receives what has been sent is a run of the
  network;
* `BitcoinClient.Network.catches_up` — **the follower has the chain after one request for each block**.
-/

import BitcoinClient.Delivery
import BitcoinClient.Network
import BitcoinClient.ServerLog

set_option relaxedAutoImplicit false
set_option autoImplicit false

namespace BitcoinClient

variable [Crypto]

/-! ### Attaching a chain -/

/-- The blocks of a list are valid and are attached one after the other, each one checked against the one
before it. -/
def AttachAll : Blockchain → Block → List Block → Blockchain → Prop
  | c, _, [], c' => c' = c
  | c, parent, block :: blocks, c' =>
    checkBlockValidity block parent = true ∧
      ∃ c₁, c.attach block = .done c₁ () ∧ AttachAll c₁ block blocks c'

theorem AttachAll.settlesAll : ∀ {path : List (ℕ × Block)} {c c' : Blockchain} {parent : Block},
    AttachAll c parent (path.map Prod.snd) c' → SettlesAll c parent path c' := by
  intro path
  induction path with
  | nil => exact fun h => h
  | cons x path ih =>
      rintro c c' parent ⟨hvalid, c₁, hattach, hrest⟩
      exact ⟨c₁, Or.inl ⟨hvalid, hattach⟩, ih hrest⟩

/-- The blocks are stored in the end. -/
theorem AttachAll.isSome {blocks : List Block} : ∀ {c c' : Blockchain} {parent : Block},
    AttachAll c parent blocks c' → ∀ {hash : H256},
      (c.getBlock hash).isSome ∨ hash ∈ blocks.map Block.hash → (c'.getBlock hash).isSome := by
  induction blocks with
  | nil =>
      rintro c c' parent h hash (hs | hs)
      · rw [AttachAll] at h
        rwa [h]
      · cases hs
  | cons block blocks ih =>
      rintro c c' parent ⟨hvalid, c₁, hattach, hrest⟩ hash hs
      have hsettles : Settles c block parent c₁ := Or.inl ⟨hvalid, hattach⟩
      refine ih hrest ?_
      rcases hs with hs | hs
      · exact Or.inl (hsettles.isSome hs)
      · rw [List.map_cons] at hs
        rcases List.mem_cons.1 hs with rfl | hs
        · exact Or.inl ((hsettles.isSome_iff _).2 (Or.inr ⟨hvalid, rfl⟩))
        · exact Or.inr hs

/-! ### The parked chain -/

/-- The parent of a block of a chain, newest first, is in the chain. -/
theorem exists_parent_of_isChain {x z : Block} : ∀ {newer : List Block},
    (newer ++ [x]).IsChain (fun a b => a.getParent = b.hash) → z ∈ newer →
      ∃ y ∈ newer ++ [x], z.getParent = y.hash := by
  intro newer
  induction newer with
  | nil => exact fun _ hz => by cases hz
  | cons a newer ih =>
      intro hchain hz
      rcases List.mem_cons.1 hz with rfl | hz
      · cases newer with
        | nil => exact ⟨x, by simp, hchain.rel⟩
        | cons y newer => exact ⟨y, by simp, hchain.rel⟩
      · obtain ⟨y, hy, hparent⟩ := ih hchain.tail hz
        exact ⟨y, List.mem_cons_of_mem _ hy, hparent⟩

/-- The oldest block of a chain has a hash of its own. -/
theorem hash_ne_of_nodup {newer : List Block} {x y : Block} (hnodup : ((newer ++ [x]).map Block.hash).Nodup)
    (hy : y ∈ newer) : y.hash ≠ x.hash := by
  rw [List.map_append] at hnodup
  intro hyx
  refine (List.disjoint_of_nodup_append hnodup) (List.mem_map_of_mem hy) ?_
  rw [hyx]
  exact List.mem_singleton_self _

/-- No block of a chain but the next newer one is a child of its oldest block. -/
theorem getParent_ne_of_isChain {newer : List Block} {x y z : Block}
    (hchain : (newer ++ [y] ++ [x]).IsChain fun a b => a.getParent = b.hash)
    (hnodup : ((newer ++ [y] ++ [x]).map Block.hash).Nodup) (hz : z ∈ newer) :
    z.getParent ≠ x.hash := by
  obtain ⟨v, hv, hparent⟩ := exists_parent_of_isChain hchain.left_of_append hz
  rw [hparent]
  exact hash_ne_of_nodup hnodup hv

/-- **The search through a parked chain** goes from its oldest block up, whatever else is in the buffer. -/
theorem searchPath_parked {buffer : List Block} : ∀ (newer : List Block) (x : Block) (tail : List Block),
    (newer ++ [x]).IsChain (fun a b => a.getParent = b.hash) → ((newer ++ [x]).map Block.hash).Nodup →
    (∀ z ∈ buffer ++ tail, ∀ y ∈ newer ++ [x], z.getParent ≠ y.hash) →
    ∃ path, searchPath (newer.length + 1) x.hash (buffer ++ newer ++ tail) = some path ∧
      path.map Prod.snd = newer.reverse ∧
      path.map Prod.fst = (List.range' buffer.length newer.length).reverse := by
  intro newer
  induction newer using List.reverseRecOn with
  | nil =>
      intro x tail _ _ hapart
      refine ⟨[], searchPath_none (findChild_eq_none.2 fun z hz => ?_), rfl, rfl⟩
      rw [List.append_nil] at hz
      exact hapart z hz x (List.mem_singleton_self _)
  | append_singleton newer y ih =>
      intro x tail hchain hnodup hapart
      have hyx : y.getParent = x.hash := by
        rw [List.append_assoc, List.singleton_append] at hchain
        exact hchain.right_of_append.rel
      have hbuffer : buffer ++ (newer ++ [y]) ++ tail = buffer ++ newer ++ (y :: tail) := by
        simp only [List.append_assoc, List.singleton_append]
      -- the first child of `x` is `y`
      have hfind : findChild x.hash 0 (buffer ++ (newer ++ [y]) ++ tail) =
          some (buffer.length + newer.length, y) := by
        rw [hbuffer, findChild_append, List.length_append, Nat.zero_add, findChild, if_pos hyx]
        intro z hz
        rcases List.mem_append.1 hz with hz | hz
        · exact hapart z (List.mem_append_left _ hz) x (by simp)
        · exact getParent_ne_of_isChain hchain hnodup hz
      have hchain' : (newer ++ [y]).IsChain fun a b => a.getParent = b.hash := hchain.left_of_append
      have hnodup' : ((newer ++ [y]).map Block.hash).Nodup := by
        rw [List.map_append] at hnodup
        exact hnodup.of_append_left
      obtain ⟨path, hpath, hblocks, hidxs⟩ := ih y (y :: tail) hchain' hnodup' (by
        intro z hz v hv
        rcases List.mem_append.1 hz with hz | hz
        · exact hapart z (List.mem_append_left _ hz) v (List.mem_append_left _ hv)
        · rcases List.mem_cons.1 hz with rfl | hz
          · -- the parent of `y` is none of the newer blocks
            rw [hyx]
            exact (hash_ne_of_nodup hnodup hv).symm
          · exact hapart z (List.mem_append_right _ hz) v (List.mem_append_left _ hv))
      refine ⟨(buffer.length + newer.length, y) :: path, ?_, ?_, ?_⟩
      · rw [searchPath_some hfind, List.length_append, List.length_singleton, hbuffer, hpath,
          Option.map_some]
      · rw [List.map_cons, hblocks, List.reverse_append]
        rfl
      · rw [List.map_cons, hidxs, List.length_append, List.length_singleton, List.range'_concat,
          List.reverse_append, Nat.one_mul]
        rfl

omit [Crypto] in
/-- **The parked chain is removed** and nothing else. -/
theorem removeAll_parked {buffer : List Block} : ∀ (parked : List Block),
    removeAll (List.range' buffer.length parked.length).reverse (buffer ++ parked) = .done buffer () := by
  intro parked
  induction parked using List.reverseRecOn with
  | nil =>
      rw [List.append_nil]
      rfl
  | append_singleton parked x ih =>
      have hlast : (buffer ++ (parked ++ [x])).eraseIdx (buffer.length + parked.length) =
          buffer ++ parked := by
        rw [← List.append_assoc, ← List.length_append, List.eraseIdx_append_of_length_le (le_refl _),
          Nat.sub_self, List.eraseIdx_cons_zero, List.append_nil]
      rw [List.length_append, List.length_singleton, List.range'_concat, List.reverse_append, Nat.one_mul]
      change removeAll ((buffer.length + parked.length) :: _) _ = _
      rw [removeAll, if_pos (by simp), hlast]
      exact ih

/-! ### One block -/

namespace Worker

variable {w : Worker} {b : Block}

/-- A block that is not stored, and neither is its parent: it is parked, and the parent is asked for. -/
theorem blocksMessage_park (hnew : w.blockchain.getBlock b.hash = none)
    (hparent : w.blockchain.getBlock b.getParent = none) (hlen : b.length ≠ 1) :
    w.blocksMessage [b] = .done { w with
      mempool := deleteTxFromMempool w.mempool b.data
      orphanBuffer := w.orphanBuffer ++ [b]
      server := w.server ++ [.getBlocks [b.getParent]] ++ [.newBlockHashes [b.hash]] } () := by
  have hp : (w.removeFromMempool b).blockchain.getParentBlock b = none := hparent
  have hhandle : w.handleNewBlock b = .done { w with
      mempool := deleteTxFromMempool w.mempool b.data
      orphanBuffer := w.orphanBuffer ++ [b]
      server := w.server ++ [.getBlocks [b.getParent]] } () := by
    simp only [handleNewBlock, hp]
    rw [handleWithoutParent, if_neg hlen]
    rfl
  rw [blocksMessage, onBlocks, hnew]
  dsimp only
  rw [hhandle, Exec.bind_done, onBlocks, Exec.bind_done]
  rfl

/-- A message with one block that is treated as `I` says. -/
theorem blocksMessage_single {I : Blockchain → List Block → Prop}
    (hnew : w.blockchain.getBlock b.hash = none)
    (h : (w.handleNewBlock b).Ends fun w' _ => I w'.blockchain w'.orphanBuffer) :
    (w.blocksMessage [b]).Ends fun w' _ => I w'.blockchain w'.orphanBuffer := by
  rw [blocksMessage, Exec.ends_bind, onBlocks, hnew]
  dsimp only
  rw [Exec.ends_bind]
  refine h.mono fun w' _ h' => ?_
  rw [onBlocks, Exec.ends_done, Exec.ends_done, (announce_store _ _).1, (announce_store _ _).2]
  exact h'

end Worker

/-! ### The steps of the two nodes -/

namespace Node

variable {n : Node} {h : H256} {b : Block}

/-- Nobody holds the store, and no thread has died with the mempool. -/
structure Idle (n : Node) : Prop where
  lock : n.lock = .free
  pool : n.mempoolPoisoned = false

/-- A block that is announced and not stored is asked for. -/
theorem step_newBlockHashes (hlock : n.lock = .free) (hnew : n.blockchain.getBlock h = none) :
    n.step (.message (.newBlockHashes [h])) =
      some { n with server := n.server ++ [.getBlocks [h]] } := by
  rw [step, messageStep, if_pos hlock, Worker.newBlockHashesMessage, List.filter_cons_of_pos (by simp [hnew])]
  rfl

/-- A stored block that is asked for is sent. -/
theorem step_getBlocks (hlock : n.lock = .free) (hstored : n.blockchain.getBlock h = some b) :
    n.step (.message (.getBlocks [h])) = some { n with server := n.server ++ [.blocks [b]] } := by
  rw [step, messageStep, if_pos hlock, Worker.getBlocksMessage, List.filterMap_cons_some hstored]
  rfl

/-- A message with one block is received, and nothing else. -/
theorem exists_run_blocks {w : Worker} (hidle : n.Idle)
    (hdone : n.toWorker.blocksMessage [b] = .done w ()) :
    ∃ tr, Node.Run n tr { n with toWorker := w } ∧
      (tr.filterMap fun x => x.2.received) = [.blocks [b]] := by
  have hdeliver : n.toWorker.deliver [[b]] = .done w () := by
    rw [Worker.deliver, hdone, Exec.bind_done, Worker.deliver]
  obtain ⟨tr, hrun, htr⟩ := run_deliver [[b]] n w hidle.lock hidle.pool hdeliver
  refine ⟨tr, hrun, ?_⟩
  have hreceived : ∀ es : List Event,
      es.filterMap Event.received = (es.filter (· ≠ .worker)).filterMap Event.received := by
    intro es
    rw [List.filterMap_filter]
    congr 1
    funext e
    cases e <;> rfl
  change tr.filterMap (Event.received ∘ Prod.snd) = _
  rw [← List.filterMap_map, hreceived, htr]
  rfl

end Node

/-! ### Runs of one node in the network -/

namespace Network

variable {ι : Type} [Fintype ι] [DecidableEq ι] {N N' : Network ι} {i j : ι}

/-- The messages that are delivered in a run, with their receivers. -/
def deliveries (tr : List (Network ι × (ι × Event))) : List (ι × Message) :=
  tr.filterMap fun x => x.2.2.received.map fun m => (x.2.1, m)

omit [Crypto] [Fintype ι] [DecidableEq ι] in
theorem deliveries_append (tr tr' : List (Network ι × (ι × Event))) :
    deliveries (tr ++ tr') = deliveries tr ++ deliveries tr' := List.filterMap_append

/-- **A run of one node is a run of the network**, when what the node receives has been sent. -/
theorem run_of_node {tr : List (Node × Event)} {n : Node} (hrun : Node.Run (N i) tr n)
    (hsent : ∀ x ∈ tr, ∀ m ∈ x.2.received, ∃ k, m ∈ (N k).server) :
    ∃ tr', Network.Run N tr' (Function.update N i n) ∧ (N i).server ⊆ n.server ∧
      deliveries tr' = (tr.filterMap fun x => x.2.received).map fun m => (i, m) := by
  induction hrun with
  | nil =>
      refine ⟨[], ?_, List.Subset.refl _, rfl⟩
      rw [Function.update_eq_self]
      exact .nil
  | @snoc tr m n e hrun hs ih =>
      obtain ⟨tr', hrun', hserver, hdeliveries⟩ := ih fun x hx => hsent x (List.mem_append_left _ hx)
      have hdeliver : Deliverable (Function.update N i m) e := by
        intro msg hmsg
        obtain ⟨k, hk⟩ := hsent (m, e) (List.mem_append_right _ (List.mem_singleton_self _)) msg hmsg
        refine ⟨k, ?_⟩
        by_cases hki : k = i
        · subst hki
          rw [Function.update_self]
          exact hserver hk
        · rwa [Function.update_of_ne hki]
      have hstep : Network.step (Function.update N i m) (i, e) = some (Function.update N i n) := by
        refine Lts.interleave_eq_some.2 ⟨hdeliver, n, ?_, ?_⟩
        · rw [Function.update_self]
          exact hs
        · rw [Function.update_idem]
      refine ⟨tr' ++ [(Function.update N i m, (i, e))], hrun'.snoc hstep,
        List.Subset.trans hserver (Node.server_subset hs), ?_⟩
      rw [deliveries_append, hdeliveries, List.filterMap_append, List.map_append]
      cases hreceived : e.received <;> simp [deliveries, hreceived]

/-- **A request and its reply**, treated by the node that has asked. -/
theorem exchange (hij : i ≠ j) {b : Block} {w : Worker} (hrequest : .getBlocks [b.hash] ∈ (N i).server)
    (hidle : (N i).Idle) (hdone : (N i).toWorker.blocksMessage [b] = .done w ())
    (hlock : (N j).lock = .free) (hstored : (N j).blockchain.getBlock b.hash = some b) :
    ∃ tr N', Network.Run N tr N' ∧ deliveries tr = [(j, .getBlocks [b.hash]), (i, .blocks [b])] ∧
      N' i = { N i with toWorker := w } ∧ (N j).SentMore (N' j) ∧ ∀ k, k ≠ i → k ≠ j → N' k = N k := by
  obtain ⟨tr₁, hrun₁, -, hdeliveries₁⟩ := run_of_node (Lts.Run.single (Node.step_getBlocks hlock hstored))
    (by
      intro x hx m hm
      rw [List.mem_singleton.1 hx] at hm
      cases hm
      exact ⟨i, hrequest⟩)
  have hi : Function.update N j { N j with server := (N j).server ++ [.blocks [b]] } i = N i :=
    Function.update_of_ne hij _ _
  obtain ⟨tr, hrun, htr⟩ := Node.exists_run_blocks hidle hdone
  obtain ⟨tr₂, hrun₂, -, hdeliveries₂⟩ := run_of_node (i := i)
    (N := Function.update N j { N j with server := (N j).server ++ [.blocks [b]] }) (by rwa [hi]) (by
      intro x hx m hm
      have hmem : m ∈ tr.filterMap fun x => x.2.received := List.mem_filterMap.2 ⟨x, hx, hm⟩
      rw [htr, List.mem_singleton] at hmem
      refine ⟨j, ?_⟩
      rw [Function.update_self, hmem]
      exact List.mem_append_right _ (List.mem_singleton_self _))
  refine ⟨tr₁ ++ tr₂, _, hrun₁.trans hrun₂, ?_, ?_, ?_, fun k hki hkj => ?_⟩
  · rw [deliveries_append, hdeliveries₁, hdeliveries₂, htr]
    rfl
  · rw [Function.update_self]
  · rw [Function.update_of_ne hij.symm, Function.update_self]
    exact ⟨rfl, List.subset_append_left _ _⟩
  · rw [Function.update_of_ne hki, Function.update_of_ne hkj]

end Network

/-! ### The whole chain -/

/-- A chain of blocks, newest first, that are neither stored nor parents of parked blocks. -/
structure Missing (c : Blockchain) (buffer bs : List Block) : Prop where
  descends : bs.IsChain fun a b => a.getParent = b.hash
  distinct : (bs.map Block.hash).Nodup
  unknown : ∀ b ∈ bs, c.getBlock b.hash = none
  apart : ∀ z ∈ buffer, ∀ b ∈ bs, z.getParent ≠ b.hash
  long : ∀ b ∈ bs, b.length ≠ 1

/-- When the newer blocks of a chain are parked, its oldest block is attached and the others after it. -/
theorem Worker.blocksMessage_oldest {w : Worker} {c c' : Blockchain} {buffer parked : List Block}
    {b p : Block} (hmissing : Missing c buffer (parked ++ [b])) (hc : w.blockchain = c)
    (hbuffer : w.orphanBuffer = buffer ++ parked) (hparent : c.getBlock b.getParent = some p)
    (hattach : AttachAll c p (parked ++ [b]).reverse c') :
    (w.blocksMessage [b]).Ends fun w' _ => w'.blockchain = c' ∧ w'.orphanBuffer = buffer := by
  subst hc
  rw [List.reverse_append, List.reverse_singleton, List.singleton_append] at hattach
  obtain ⟨hvalid, c₁, hfirst, hrest⟩ := hattach
  have hapart : ∀ z ∈ buffer ++ [], ∀ y ∈ parked ++ [b], z.getParent ≠ y.hash := by
    rw [List.append_nil]
    exact hmissing.apart
  obtain ⟨path, hpath, hblocks, hidxs⟩ :=
    searchPath_parked parked b [] hmissing.descends hmissing.distinct hapart
  rw [List.append_nil, ← hbuffer] at hpath
  refine blocksMessage_single (I := fun c o => c = c' ∧ o = buffer) (hmissing.unknown b (by simp)) ?_
  refine handleNewBlock_search hparent (Or.inl ⟨hvalid, hfirst⟩) (searchPath_enough hpath)
    (AttachAll.settlesAll ?_) ?_
  · rwa [hblocks]
  · rw [hidxs, hbuffer]
    exact removeAll_parked parked

namespace Network

variable {ι : Type} [Fintype ι] [DecidableEq ι]

/-- The node `i` has got the store `c` and the orphans `buffer`; meanwhile the node `j` has only sent
messages, and the others have done nothing. -/
structure Fetched (i j : ι) (N N' : Network ι) (c : Blockchain) (buffer : List Block) : Prop where
  idle : (N' i).Idle
  store : (N' i).blockchain = c
  orphans : (N' i).orphanBuffer = buffer
  leader : (N j).SentMore (N' j)
  others : ∀ k, k ≠ i → k ≠ j → N' k = N k

/-- The requests and the replies for the blocks of a list. -/
def exchanges (i j : ι) (bs : List Block) : List (ι × Message) :=
  bs.flatMap fun b => [(j, .getBlocks [b.hash]), (i, .blocks [b])]

/-- **The rest of a chain is fetched**: by induction on what is missing, when the newer blocks are parked and
the next one has been asked for. -/
theorem exists_fetched {i j : ι} {c c' : Blockchain} {buffer : List Block} {p : Block} (hij : i ≠ j) :
    ∀ (rest parked : List Block) (b : Block) (N : Network ι),
      Missing c buffer (parked ++ b :: rest) →
      (∀ x ∈ (b :: rest).getLast?, c.getBlock x.getParent = some p) →
      AttachAll c p (parked ++ b :: rest).reverse c' →
      (N i).Idle → (N i).blockchain = c → (N i).orphanBuffer = buffer ++ parked →
      .getBlocks [b.hash] ∈ (N i).server → (N j).lock = .free →
      (∀ x ∈ b :: rest, (N j).blockchain.getBlock x.hash = some x) →
      ∃ tr N', Network.Run N tr N' ∧ deliveries tr = exchanges i j (b :: rest) ∧
        Fetched i j N N' c' buffer := by
  intro rest
  induction rest with
  | nil =>
      intro parked b N hmissing hbase hattach hidle hc hbuffer hrequest hlock hstored
      obtain ⟨w, ⟨⟩, hdone, hstore, horphans⟩ :=
        Worker.blocksMessage_oldest hmissing hc hbuffer (hbase b rfl) hattach
      obtain ⟨tr, N', hrun, htr, hi, hj, hothers⟩ :=
        exchange hij hrequest hidle hdone hlock (hstored b (List.mem_singleton_self _))
      refine ⟨tr, N', hrun, htr, ⟨?_, ?_⟩, ?_, ?_, hj, hothers⟩
      · rw [hi]
        exact hidle.lock
      · rw [hi]
        exact hidle.pool
      · rw [hi]
        exact hstore
      · rw [hi]
        exact horphans
  | cons b' rest ih =>
      intro parked b N hmissing hbase hattach hidle hc hbuffer hrequest hlock hstored
      have hparent : b.getParent = b'.hash := (hmissing.descends.right_of_append).rel
      have hdone := Worker.blocksMessage_park (w := (N i).toWorker) (b := b)
        (by rw [hc]; exact hmissing.unknown b (by simp))
        (by rw [hc, hparent]; exact hmissing.unknown b' (by simp)) (hmissing.long b (by simp))
      obtain ⟨tr, N', hrun, htr, hi, hj, hothers⟩ :=
        exchange hij hrequest hidle hdone hlock (hstored b (List.mem_cons_self ..))
      have hassoc : parked ++ [b] ++ b' :: rest = parked ++ b :: b' :: rest := by
        rw [List.append_assoc, List.singleton_append]
      -- the block is parked and its parent asked for
      obtain ⟨tr', N'', hrun', htr', hfetched⟩ := ih (parked ++ [b]) b' N' (by rwa [hassoc]) hbase
        (by rwa [hassoc])
        (by rw [hi]; exact ⟨hidle.lock, hidle.pool⟩) (by rw [hi]; exact hc)
        (by rw [hi, ← List.append_assoc, ← hbuffer])
        (by rw [hi, hparent]; simp) (by rw [hj.eq]; exact hlock)
        (fun x hx => by rw [hj.eq]; exact hstored x (List.mem_cons_of_mem _ hx))
      refine ⟨tr ++ tr', N'', hrun.trans hrun', ?_, hfetched.idle, hfetched.store, hfetched.orphans,
        ⟨?_, ?_⟩, fun k hki hkj => ?_⟩
      · rw [deliveries_append, htr, htr', exchanges, exchanges, List.flatMap_cons]
        rfl
      · rw [hfetched.leader.eq, hj.eq]
      · exact List.Subset.trans hj.subset hfetched.leader.subset
      · rw [hfetched.others k hki hkj, hothers k hki hkj]

/-- **A node that lags behind catches up.**  When it hears of the newest block of a chain that it does not
have, down to a block whose parent it stores, and another node stores the chain, then asking for each block
and being sent it, one after the other, leaves it with the store that attaching the chain from its oldest
block up gives, and with the orphan buffer that it had. -/
theorem catches_up {N : Network ι} {i j : ι} {c' : Blockchain} {newest p : Block} {older : List Block}
    (hij : i ≠ j) (hidle : (N i).Idle) (hlock : (N j).lock = .free)
    (hmissing : Missing (N i).blockchain (N i).orphanBuffer (newest :: older))
    (hbase : ∀ b ∈ (newest :: older).getLast?, (N i).blockchain.getBlock b.getParent = some p)
    (hattach : AttachAll (N i).blockchain p (newest :: older).reverse c')
    (hstored : ∀ b ∈ newest :: older, (N j).blockchain.getBlock b.hash = some b)
    (hannounced : ∃ k, .newBlockHashes [newest.hash] ∈ (N k).server) :
    ∃ tr N', Network.Run N tr N' ∧
      deliveries tr = (i, .newBlockHashes [newest.hash]) :: exchanges i j (newest :: older) ∧
      Fetched i j N N' c' (N i).orphanBuffer ∧
      ∀ b ∈ newest :: older, ((N' i).blockchain.getBlock b.hash).isSome := by
  have hask := Node.step_newBlockHashes hidle.lock (hmissing.unknown newest (List.mem_cons_self ..))
  obtain ⟨tr, hrun, -, htr⟩ := run_of_node (Lts.Run.single hask) (by
    intro x hx m hm
    rw [List.mem_singleton.1 hx] at hm
    cases hm
    exact hannounced)
  obtain ⟨tr', N', hrun', htr', hfetched⟩ := exists_fetched hij older [] newest
    (Function.update N i { N i with server := (N i).server ++ [.getBlocks [newest.hash]] }) hmissing
    hbase hattach (by rw [Function.update_self]; exact ⟨hidle.lock, hidle.pool⟩)
    (by rw [Function.update_self]) (by rw [Function.update_self, List.append_nil])
    (by rw [Function.update_self]; simp) (by rwa [Function.update_of_ne hij.symm])
    (by rwa [Function.update_of_ne hij.symm])
  refine ⟨tr ++ tr', N', hrun.trans hrun', ?_, ⟨hfetched.idle, hfetched.store, hfetched.orphans, ?_,
    fun k hki hkj => ?_⟩, fun b hb => ?_⟩
  · rw [deliveries_append, htr, htr']
    rfl
  · have hleader := hfetched.leader
    rwa [Function.update_of_ne hij.symm] at hleader
  · rw [hfetched.others k hki hkj, Function.update_of_ne hki]
  · rw [hfetched.store]
    refine hattach.isSome (Or.inr ?_)
    rw [List.map_reverse, List.mem_reverse]
    exact List.mem_map_of_mem hb

omit [Crypto] [Fintype ι] [DecidableEq ι]

/-- A node has two blocks on the genesis block of both nodes, and has announced the second one. -/
def leaderAndFollower (i : Bool) : Node :=
  letI := sampleCrypto
  let follower := Node.init sampleGenesis
  if i then
    let first := (follower.blockchain.attach (sampleBlock 1 2 2 [])).state
    { follower with blockchain := (first.attach (sampleBlock 2 3 3 [])).state
                    server := [.newBlockHashes [3]] }
  else follower

/-- The follower gets both blocks, the second one first. -/
theorem catches_up_two :
    letI := sampleCrypto
    ∃ tr N', Network.Run leaderAndFollower tr N' ∧
      deliveries tr = [(false, .newBlockHashes [3]), (true, .getBlocks [3]),
        (false, .blocks [sampleBlock 2 3 3 []]), (true, .getBlocks [2]),
        (false, .blocks [sampleBlock 1 2 2 []])] ∧
      ((N' false).blockchain.getBlock 3).isSome := by
  let _ := sampleCrypto
  have hchain : AttachAll (leaderAndFollower false).blockchain sampleGenesis.block
      [sampleBlock 1 2 2 [], sampleBlock 2 3 3 []] (leaderAndFollower true).blockchain :=
    ⟨by decide +kernel, _, rfl, by decide +kernel, _, rfl, rfl⟩
  have hmissing : Missing (leaderAndFollower false).blockchain (leaderAndFollower false).orphanBuffer
      [sampleBlock 2 3 3 [], sampleBlock 1 2 2 []] :=
    ⟨by decide +kernel, by decide +kernel, by decide +kernel, by decide +kernel, by decide +kernel⟩
  obtain ⟨tr, N', hrun, htr, -, hsome⟩ := catches_up (i := false) (j := true) (by decide)
    ⟨rfl, rfl⟩ rfl hmissing (by decide +kernel) hchain (by decide +kernel) ⟨true, by decide +kernel⟩
  exact ⟨tr, N', hrun, htr, hsome _ (List.mem_cons_self ..)⟩

end Network

end BitcoinClient
