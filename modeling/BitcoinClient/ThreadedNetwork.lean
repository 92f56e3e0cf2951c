/-
**A network of nodes made of threads.**

The network of `BitcoinClient.Network` consists of nodes that do whole critical sections at once.  Here
every node is a system of threads that acquire and release mutexes, and the threads of all nodes are
interleaved.  It refines the network of nodes: what is shown of that in all its runs holds of the network of
threads, whenever the mutexes are free.

A transaction generator broadcasts what it has made from a state that it read before, and in between other
nodes may do anything.  The node may only have broadcast it while the state was at hand, when it was not yet
known which transaction it would be.  So the network is kept in a state that *may* have been reached, up to
what was sent: for every choice of one transaction for each generator that is about to broadcast, the network
has been reached with just these transactions sent.

Main definitions:

* `BitcoinClient.ThreadedNetwork`, `BitcoinClient.ThreadedNetwork.step` — the network of threads;
* `BitcoinClient.Network.ReachedSending` — the network has been reached, and has sent more;
* `BitcoinClient.ThreadedNetwork.Pictures` — the relation between the two networks.

Main results:

* `BitcoinClient.ThreadedNetwork.Pictures.of_step` — the step lemma;
* `BitcoinClient.ThreadedNetwork.threads_refine_network` — **the network of threads refines the network**;
* `BitcoinClient.ThreadedNetwork.threads_agree` — **two nodes agree on the blocks below one that both
  store**, whenever the mutexes of their stores are free.
-/

import BitcoinClient.HonestChains
import BitcoinClient.ThreadRefinement

set_option relaxedAutoImplicit false
set_option autoImplicit false

namespace BitcoinClient

variable [Crypto]

open Locks

/-- The nodes of a network, each with its number of network workers. -/
abbrev ThreadedNetwork {ι : Type} (numWorker : ι → ℕ) := (i : ι) → Threads (numWorker i)

/-- The message that a step may deliver. -/
def Draw.received : Draw → Option Message
  | .message m => some m
  | _ => none

namespace ThreadedNetwork

section Steps

variable {ι : Type} [Fintype ι] {numWorker : ι → ℕ}

/-- A message can be delivered when some node has sent it. -/
def Deliverable (S : ThreadedNetwork numWorker) (e : Draw) : Prop :=
  ∀ m ∈ e.received, ∃ i, m ∈ (S i).shared.server

instance (S : ThreadedNetwork numWorker) (e : Draw) : Decidable (Deliverable S e) :=
  inferInstanceAs (Decidable (∀ m ∈ e.received, _))

def init (numWorker : ι → ℕ) (gs : ι → GenesisDraw) : ThreadedNetwork numWorker :=
  fun i => Threads.init (numWorker i) (gs i)

/-- **One step**: a thread of one of the nodes takes a step. -/
def step [DecidableEq ι] (S : ThreadedNetwork numWorker)
    (x : (i : ι) × (ThreadId (numWorker i) × Draw)) : Option (ThreadedNetwork numWorker) :=
  if Deliverable S x.2.2 then (threads.step (S x.1) x.2).map (Function.update S x.1) else none

/-- The runs of a network of threads from the state `S`, with their traces. -/
abbrev Run [DecidableEq ι] (S : ThreadedNetwork numWorker) :=
  Lts.Run (fun T x T' => step T x = some T') S

/-- The blocks that are mined in a run, in order. -/
def minedBlocks (tr : List (ThreadedNetwork numWorker × ((i : ι) × (ThreadId (numWorker i) × Draw)))) :
    List Block :=
  tr.filterMap fun x => Threads.mined (x.1 x.2.1) x.2.2

theorem step_eq_some [DecidableEq ι] {S S' : ThreadedNetwork numWorker}
    {x : (i : ι) × (ThreadId (numWorker i) × Draw)} :
    step S x = some S' ↔ Deliverable S x.2.2 ∧
      ∃ s, threads.step (S x.1) x.2 = some s ∧ S' = Function.update S x.1 s := by
  rw [step]
  split
  · rename_i h
    simp [h, eq_comm]
  · rename_i h
    simp [h]

end Steps

end ThreadedNetwork

/-! ### The network that has sent more -/

omit [Crypto] in
theorem Node.SentMore.refl (n : Node) : n.SentMore n := ⟨rfl, List.Subset.refl _⟩

omit [Crypto] in
theorem Node.SentMore.trans {n m k : Node} (h : n.SentMore m) (h' : m.SentMore k) : n.SentMore k where
  eq := by rw [h'.eq, h.eq]
  subset := List.Subset.trans h.subset h'.subset

namespace Network

variable {ι : Type} [Fintype ι] [DecidableEq ι]

/-- Every node of `N'` is that of `N`, but may have sent more. -/
def SentMore (N N' : Network ι) : Prop := ∀ i, (N i).SentMore (N' i)

/-- The network has been reached in a run that mines the blocks `mined`, up to what was sent: `txs` lists
transactions that have been broadcast in addition. -/
def ReachedSending (gs : ι → GenesisDraw) (mined : List Block) (N : Network ι)
    (txs : ι → Option SignedTransaction) : Prop :=
  ∃ tr N', Network.Run (Network.init gs) tr N' ∧ Network.minedBlocks tr = mined ∧ SentMore N N' ∧
    ∀ i, ∀ tx ∈ txs i, .transactions [tx] ∈ (N' i).server

/-- Some node has sent the message. -/
def Sent (N : Network ι) (m : Message) : Prop := ∃ i, m ∈ (N i).server

variable {gs : ι → GenesisDraw} {mined : List Block} {N : Network ι} {txs : ι → Option SignedTransaction}
  {i : ι} {n n' : Node}

omit [Crypto] [Fintype ι] in
theorem sentMore_update_iff {N' : Network ι} :
    SentMore (Function.update N i n) N' ↔ n.SentMore (N' i) ∧ ∀ j, j ≠ i → (N j).SentMore (N' j) := by
  constructor
  · intro h
    refine ⟨?_, fun j hj => ?_⟩
    · have hi := h i
      rwa [Function.update_self] at hi
    · have hj' := h j
      rwa [Function.update_of_ne hj] at hj'
  · rintro ⟨hi, hne⟩ j
    by_cases hj : j = i
    · subst hj
      rwa [Function.update_self]
    · rw [Function.update_of_ne hj]
      exact hne j hj

/-- **A node goes on**, in a network that has been reached up to what was sent. -/
theorem ReachedSending.follows {b : Option Block} (h : ReachedSending gs mined (Function.update N i n) txs)
    (hserver : (N i).server ⊆ n.server) (hfollows : Node.Follows (Sent N) b n n') :
    ReachedSending gs (mined ++ b.toList) (Function.update N i n') txs := by
  obtain ⟨tr, N', hrun, rfl, hmore, htxs⟩ := h
  obtain ⟨hmore_i, hmore_j⟩ := sentMore_update_iff.1 hmore
  obtain ⟨rfl, rfl⟩ | ⟨e, hs, he, rfl⟩ := hfollows
  · refine ⟨tr, N', hrun, ?_, hmore, htxs⟩
    rw [Option.toList_none, List.append_nil]
  · obtain ⟨m, hm, hnm⟩ := hmore_i.step hs
    -- what is delivered to the node has been sent in the larger network
    have hdeliver : Deliverable N' e := by
      intro msg hmsg
      obtain ⟨j, hj⟩ : Sent N msg := by
        cases e with
        | message m' =>
            cases hmsg
            exact he msg rfl
        | _ => cases hmsg
      by_cases hji : j = i
      · rw [hji] at hj
        exact ⟨i, hmore_i.subset (hserver hj)⟩
      · exact ⟨j, (hmore_j j hji).subset hj⟩
    refine ⟨tr ++ [(N', (i, e))], Function.update N' i m, hrun.snoc ?_, ?_,
      sentMore_update_iff.2 ⟨?_, fun j hj => ?_⟩, fun j tx htx => ?_⟩
    · exact Lts.interleave_eq_some.2 ⟨hdeliver, m, hm, rfl⟩
    · rw [minedBlocks_snoc, hmore_i.mined_eq]
    · rwa [Function.update_self]
    · rw [Function.update_of_ne hj]
      exact hmore_j j hj
    · -- the transactions are still in the log
      by_cases hj : j = i
      · subst hj
        rw [Function.update_self]
        exact Node.server_subset hm (htxs j tx htx)
      · rw [Function.update_of_ne hj]
        exact htxs j tx htx

/-- A network that has sent less has been reached as well, up to what was sent. -/
theorem ReachedSending.mono {N₁ : Network ι} {txs₁ : ι → Option SignedTransaction}
    (h : ReachedSending gs mined N₁ txs₁)
    (hN : ∀ N', SentMore N₁ N' → (∀ i, ∀ tx ∈ txs₁ i, .transactions [tx] ∈ (N' i).server) →
      SentMore N N' ∧ ∀ i, ∀ tx ∈ txs i, .transactions [tx] ∈ (N' i).server) :
    ReachedSending gs mined N txs := by
  obtain ⟨tr, N', hrun, hmined, hmore, htxs⟩ := h
  obtain ⟨hmore', htxs'⟩ := hN N' hmore htxs
  exact ⟨tr, N', hrun, hmined, hmore', htxs'⟩

end Network

/-! ### The relation between the networks -/

/-- A generator of the node is about to broadcast, and the transaction is one that it may broadcast. -/
def Threads.Promises {numWorker : ℕ} (S : Threads numWorker) (tx : SignedTransaction) : Prop :=
  ∃ t parentState draw, S.pc t = .api (.generating parentState) ∧ Generates parentState draw tx

namespace Threads.Simulates

variable {numWorker : ℕ} {M M' : Message → Prop} {R R' : Node → Prop} {S : Threads numWorker} {n : Node}

/-- The relation with other sets of messages and nodes. -/
theorem imp (h : Simulates M R S n) (hM : ∀ m, M m → M' m)
    (hR : ∀ tx, S.Promises tx → ∃ m, R' m ∧ n.SentMore m ∧ .transactions [tx] ∈ m.server) :
    Simulates M' R' S n where
  placed := h.placed
  mempoolClean := h.mempoolClean
  server := h.server
  mempool := h.mempool
  free := h.free
  held := h.held
  inHand t := by
    have hold := h.inHand t
    cases hstage : S.pc t with
    | networkWorker stage =>
        rw [hstage] at hold
        cases stage with
        | lockFor m | holding m => exact hM m hold
        | _ => trivial
    | miner stage =>
        rw [hstage] at hold
        exact hold
    | minerWorker stage =>
        rw [hstage] at hold
        cases stage with
        | broadcasting block => exact hold
        | _ => trivial
    | api stage =>
        cases stage with
        | generating parentState =>
            exact fun draw tx hgenerates => hR tx ⟨t, parentState, draw, hstage, hgenerates⟩
        | _ => trivial
    | dead => trivial
  closed := h.closed
  controlClosed := h.controlClosed
  chan := h.chan

/-- What a generator may broadcast has been broadcast in a node that may have been reached. -/
theorem exists_of_promises (h : Simulates M R S n) {tx : SignedTransaction} (htx : S.Promises tx) :
    ∃ m, R m ∧ n.SentMore m ∧ .transactions [tx] ∈ m.server := by
  obtain ⟨t, parentState, draw, hstage, hgenerates⟩ := htx
  have hinHand := h.inHand t
  rw [hstage] at hinHand
  exact hinHand draw tx hgenerates

end Threads.Simulates

namespace ThreadedNetwork

variable {ι : Type} [Fintype ι] [DecidableEq ι] {numWorker : ι → ℕ} {gs : ι → GenesisDraw}
  {S S' : ThreadedNetwork numWorker} {N : Network ι}
  {tr : List (ThreadedNetwork numWorker × ((i : ι) × (ThreadId (numWorker i) × Draw)))}

/-- **The relation between the network of threads and the network of nodes**, where the blocks `mined` have
been mined. -/
structure Pictures (gs : ι → GenesisDraw) (mined : List Block) (S : ThreadedNetwork numWorker)
    (N : Network ι) : Prop where
  owned : ∀ i, (S i).Owned Stage.held
  simulates : ∀ i, (S i).Simulates (Network.Sent N) (fun _ => True) (N i)
  reached : ∀ txs, (∀ i, ∀ tx ∈ txs i, (S i).Promises tx) → Network.ReachedSending gs mined N txs

/-- What the node `i` may have become, while the others are where they are. -/
def MayBe (gs : ι → GenesisDraw) (mined : List Block) (S : ThreadedNetwork numWorker) (N : Network ι)
    (i : ι) (n : Node) : Prop :=
  (N i).server ⊆ n.server ∧ ∀ txs : ι → Option SignedTransaction, txs i = none →
    (∀ j, ∀ tx ∈ txs j, (S j).Promises tx) →
    Network.ReachedSending gs mined (Function.update N i n) txs

theorem leads_mayBe {mined : List Block} {b : Option Block} (i : ι) :
    Node.Leads (Network.Sent N) b (MayBe gs mined S N i) (MayBe gs (mined ++ b.toList) S N i) := by
  rintro n n' ⟨hserver, hreached⟩ hfollows
  exact ⟨List.Subset.trans hserver hfollows.server_subset,
    fun txs hi htxs => (hreached txs hi htxs).follows hserver hfollows⟩

theorem init_pictures : Pictures gs [] (init numWorker gs) (Network.init gs) where
  owned i := Threads.owned_of_run Lts.Run.nil
  simulates i := Threads.simulates_init
  reached txs htxs := by
    refine ⟨[], _, .nil, rfl, fun _ => .refl _, fun i tx htx => ?_⟩
    obtain ⟨t, parentState, draw, hstage, -⟩ := htxs i tx htx
    cases t <;> cases hstage

/-- The relation of one node, with the nodes that it may have become. -/
theorem Pictures.node {mined : List Block} (h : Pictures gs mined S N) (i : ι) :
    (S i).Simulates (Network.Sent N) (MayBe gs mined S N i) (N i) := by
  refine (h.simulates i).imp (fun _ => id) fun tx htx => ?_
  refine ⟨{ N i with server := (N i).server ++ [.transactions [tx]] },
    ⟨List.subset_append_left _ _, fun txs hi htxs => ?_⟩, ⟨rfl, List.subset_append_left _ _⟩,
    List.mem_append_right _ (List.mem_singleton_self _)⟩
  -- the network has been reached with this transaction and the others
  refine (h.reached (Function.update txs i (some tx)) ?_).mono ?_
  · intro j tx' htx'
    by_cases hj : j = i
    · subst hj
      rw [Function.update_self] at htx'
      cases htx'
      exact htx
    · rw [Function.update_of_ne hj] at htx'
      exact htxs j tx' htx'
  · intro N' hmore hsent
    have htx' := hsent i tx (by rw [Function.update_self]; rfl)
    refine ⟨Network.sentMore_update_iff.2 ⟨⟨?_, ?_⟩, fun j _ => hmore j⟩, fun j tx' hj => ?_⟩
    · exact (hmore i).eq
    · exact List.append_subset.2 ⟨(hmore i).subset, by simpa using htx'⟩
    · refine hsent j tx' ?_
      rw [Function.update_of_ne]
      · exact hj
      · rintro rfl
        rw [hi] at hj
        cases hj

theorem Pictures.mayBe {mined : List Block} (h : Pictures gs mined S N) (i : ι) :
    MayBe gs mined S N i (N i) := by
  refine ⟨List.Subset.refl _, fun txs _ htxs => ?_⟩
  rw [Function.update_eq_self]
  exact h.reached txs htxs

/-- **The step lemma.** -/
theorem Pictures.of_step {mined : List Block} {x : (i : ι) × (ThreadId (numWorker i) × Draw)}
    (h : Pictures gs mined S N) (hdelivered : ∀ m, Threads.Receives (S x.1) x.2 m → Network.Sent N m)
    {s : Threads (numWorker x.1)} (hs : threads.step (S x.1) x.2 = some s) :
    ∃ n, Pictures gs (mined ++ (Threads.mined (S x.1) x.2).toList) (Function.update S x.1 s)
      (Function.update N x.1 n) := by
  obtain ⟨i, x⟩ := x
  dsimp only at hdelivered hs ⊢
  obtain ⟨n, ⟨hserver, hreached⟩, hsim⟩ :=
    (h.node i).of_step (leads_mayBe i) (h.mayBe i) (h.owned i) hs hdelivered
  have hsent : ∀ m, Network.Sent N m → Network.Sent (Function.update N i n) m := by
    rintro m ⟨j, hj⟩
    refine ⟨j, ?_⟩
    by_cases hji : j = i
    · subst hji
      rw [Function.update_self]
      exact hserver hj
    · rwa [Function.update_of_ne hji]
  -- whatever the other generators may broadcast
  have hothers : ∀ txs : ι → Option SignedTransaction,
      (∀ j, ∀ tx ∈ txs j, (Function.update S i s j).Promises tx) →
      ∀ j, j ≠ i → ∀ tx ∈ txs j, (S j).Promises tx := by
    intro txs htxs j hj tx htx
    have hpromise := htxs j tx htx
    rwa [Function.update_of_ne hj] at hpromise
  refine ⟨n, fun j => ?_, fun j => ?_, fun txs htxs => ?_⟩
  · by_cases hj : j = i
    · subst hj
      rw [Function.update_self]
      exact owned_step threads_annotates (h.owned j) hs
    · rw [Function.update_of_ne hj]
      exact h.owned j
  · by_cases hj : j = i
    · subst hj
      rw [Function.update_self, Function.update_self]
      refine hsim.imp hsent fun tx htx => ?_
      obtain ⟨m, -, hm⟩ := hsim.exists_of_promises htx
      exact ⟨m, trivial, hm⟩
    · rw [Function.update_of_ne hj, Function.update_of_ne hj]
      exact (h.simulates j).imp hsent fun tx htx => (h.simulates j).exists_of_promises htx
  · cases hi : txs i with
    | none =>
        refine hreached txs hi fun j tx htx => ?_
        refine hothers txs htxs j ?_ tx htx
        rintro rfl
        rw [hi] at htx
        cases htx
    | some tx =>
        have hpromise := htxs i tx hi
        rw [Function.update_self] at hpromise
        obtain ⟨m, ⟨-, hm⟩, hmore, htx⟩ := hsim.exists_of_promises hpromise
        refine (hm (Function.update txs i none) (Function.update_self ..) ?_).mono ?_
        · intro j tx' htx'
          by_cases hj : j = i
          · subst hj
            rw [Function.update_self] at htx'
            cases htx'
          · rw [Function.update_of_ne hj] at htx'
            exact hothers txs htxs j hj tx' htx'
        · intro N' hN' htxs'
          obtain ⟨hmore', hrest⟩ := Network.sentMore_update_iff.1 hN'
          refine ⟨Network.sentMore_update_iff.2 ⟨hmore.trans hmore', hrest⟩, fun j tx' hj' => ?_⟩
          by_cases hj : j = i
          · subst hj
            rw [hi] at hj'
            cases hj'
            exact hmore'.subset htx
          · refine htxs' j tx' ?_
            rwa [Function.update_of_ne hj]

/-- **The run lemma.** -/
theorem pictures_of_run (hrun : Run (init numWorker gs) tr S) : ∃ N, Pictures gs (minedBlocks tr) S N := by
  induction hrun with
  | nil => exact ⟨_, init_pictures⟩
  | @snoc tr S S' x hrun hs ih =>
      obtain ⟨N, h⟩ := ih
      obtain ⟨hdeliver, s, hstep, rfl⟩ := step_eq_some.1 hs
      have hblocks : minedBlocks (tr ++ [(S, x)]) =
          minedBlocks tr ++ (Threads.mined (S x.1) x.2).toList := Lts.Run.filterMap_concat _ tr (S, x)
      rw [hblocks]
      -- what is delivered has been sent by the threads of some node
      have hsent : ∀ m, Threads.Receives (S x.1) x.2 m → Network.Sent N m := by
        intro m hm
        obtain ⟨j, hj⟩ := hdeliver m (by rw [hm.2]; rfl)
        exact ⟨j, (h.simulates j).server hj⟩
      obtain ⟨n, hn⟩ := h.of_step hsent hstep
      exact ⟨_, hn⟩

/-- The network that is pictured has been reached, but for what was sent besides. -/
theorem Pictures.exists_run {mined : List Block} (h : Pictures gs mined S N) :
    ∃ tr' N', Network.Run (Network.init gs) tr' N' ∧ Network.minedBlocks tr' = mined ∧
      Network.SentMore N N' := by
  obtain ⟨tr', N', hrun', hmined, hmore, -⟩ := h.reached (fun _ => none) fun i tx htx => by cases htx
  exact ⟨tr', N', hrun', hmined, hmore⟩

/-- The node has what its threads have. -/
structure Agrees {k : ℕ} (S : Threads k) (n : Node) : Prop where
  store : S.owner .blockchain = none → S.poisoned .blockchain = false →
    n.blockchain = S.shared.blockchain ∧ n.orphanBuffer = S.shared.orphanBuffer ∧ n.lock = .free
  mempool : S.owner .mempool = none → n.mempool = S.shared.mempool
  server : S.shared.server ⊆ n.server

/-- **The network of threads refines the network.**  For every run of the network of threads there is one of
the network of nodes that mines the same blocks, in which every node has the store, the orphan buffer and the
mempool of its threads when the mutexes are free, and has sent all that they have sent. -/
theorem threads_refine_network (hrun : Run (init numWorker gs) tr S) :
    ∃ tr' N, Network.Run (Network.init gs) tr' N ∧ Network.minedBlocks tr' = minedBlocks tr ∧
      ∀ i, Agrees (S i) (N i) := by
  obtain ⟨N, h⟩ := pictures_of_run hrun
  obtain ⟨tr', N', hrun', hmined, hmore⟩ := h.exists_run
  refine ⟨tr', N', hrun', hmined, fun i => ⟨fun hfree hclean => ?_, fun hfree => ?_, ?_⟩⟩
  · obtain ⟨hchain, horphans, hlock⟩ := (h.simulates i).free hfree hclean
    rw [(hmore i).eq]
    exact ⟨hchain, horphans, hlock⟩
  · rw [(hmore i).eq]
    refine ((h.simulates i).mempool).trans (Stage.clears_eq ?_ _)
    intro hheld
    rw [(h.owned i .miner .mempool).2 hheld] at hfree
    cases hfree
  · exact List.Subset.trans (h.simulates i).server (hmore i).subset

/-! ### Agreement -/

/-- The genesis blocks of the nodes, and the blocks mined in a run. -/
def registry (gs : ι → GenesisDraw)
    (tr : List (ThreadedNetwork numWorker × ((i : ι) × (ThreadId (numWorker i) × Draw)))) : Finset Block :=
  (Finset.univ.image fun i => (gs i).block) ∪ (minedBlocks tr).toFinset

/-- What `BitcoinClient.Network.Assumptions` assumes, of a run of the threads. -/
structure Assumptions (gs : ι → GenesisDraw)
    (tr : List (ThreadedNetwork numWorker × ((i : ι) × (ThreadId (numWorker i) × Draw)))) : Prop where
  collisionFree : ∀ x ∈ registry gs tr, ∀ y ∈ registry gs tr, x.hash = y.hash → x.header = y.header
  fresh : ((minedBlocks tr).map Block.header).Nodup
  freshRoots : ∀ b ∈ minedBlocks tr, ∀ i, b.header ≠ (gs i).block.header
  rootsUnknown : ∀ i, ∀ x ∈ registry gs tr, x.hash ≠ (gs i).parent

omit [DecidableEq ι] in
theorem Assumptions.network (h : Assumptions gs tr) {tr' : List (Network ι × (ι × Event))}
    (hmined : Network.minedBlocks tr' = minedBlocks tr) : Network.Assumptions gs tr' := by
  have hregistry : Network.registry gs tr' = registry gs tr := by
    rw [Network.registry, registry, hmined]
  refine ⟨?_, ?_, ?_, ?_⟩
  · rw [hregistry]
    exact h.collisionFree
  · rw [hmined]
    exact h.fresh
  · rw [hmined]
    exact h.freshRoots
  · rw [hregistry]
    exact h.rootsUnknown

/-- The mutex of the store is free, and no thread has died with it. -/
def StoreFree {k : ℕ} (S : Threads k) : Prop := S.owner .blockchain = none ∧ S.poisoned .blockchain = false

/-- **Agreement of the threads.**  When the mutexes of their stores are free, two nodes that both store a
block walk along the same chain from it, they have the same blocks in it, as many as its length says, and
executing their transactions from the initial offering executes every one of them and gives the state that
both nodes have stored. -/
theorem threads_agree (hrun : Run (init numWorker gs) tr S) (hassume : Assumptions gs tr) {i j : ι}
    (hi : StoreFree (S i)) (hj : StoreFree (S j)) {h : H256} {b : Block}
    (hb : (S i).shared.blockchain.getBlock h = some b)
    (hc : ((S j).shared.blockchain.getBlock h).isSome) :
    ∃ (chain : List Block) (s : State), chain.length = b.length.toNat ∧
      executeChain icoState (chain.map Block.data) = some (s, chain.flatMap Block.data) ∧
      ∀ c, c = (S i).shared.blockchain ∨ c = (S j).shared.blockchain →
        c.chainFrom (chain.length + 1) h = some (chain.map Block.hash).reverse ∧
        (∀ x ∈ chain, c.getBlock x.hash = some x) ∧ c.getBlockState h = some s := by
  obtain ⟨N, hpictures⟩ := pictures_of_run hrun
  obtain ⟨tr', N', hrun', hmined, hmore⟩ := hpictures.exists_run
  have hassume' := hassume.network hmined
  -- the stores of the nodes are those of the threads
  have hstore : ∀ k, StoreFree (S k) → (N' k).blockchain = (S k).shared.blockchain := by
    intro k hk
    rw [(hmore k).eq]
    exact ((hpictures.simulates k).free hk.1 hk.2).blockchain
  rw [← hstore i hi] at hb
  rw [← hstore j hj] at hc
  obtain ⟨chain, s, haudit, hlen⟩ := Network.exists_audited hrun' hassume' hb
  have haudit' := haudit.transfer hrun' hassume' hc
  have hkeys := Network.hash_of_stored hrun' hassume'
  refine ⟨chain, s, hlen.symm, haudit.replays, ?_⟩
  rintro c (rfl | rfl)
  · rw [← hstore i hi]
    exact ⟨haudit.walk (hkeys i), fun x hx => (haudit.of_mem (hkeys i) hx).1, haudit.stored.2⟩
  · rw [← hstore j hj]
    exact ⟨haudit'.walk (hkeys j), fun x hx => (haudit'.of_mem (hkeys j) hx).1, haudit'.stored.2⟩

/-! ### A run of two nodes -/

omit [Crypto] [Fintype ι] [DecidableEq ι]

/-- One node mines a block and sends it to the other, after its genesis block. -/
def mineAndReceive : List ((_ : Bool) × (ThreadId 1 × Draw)) :=
  let miner e := ⟨false, .miner, e⟩
  let minerWorker := ⟨false, .minerWorker, .tau⟩
  let worker e := ⟨true, .networkWorker (Fin.last 0), e⟩
  [miner .tau, miner (.order [1]), ⟨false, .api 0, .request (.minerStart 0)⟩, miner .tau,
    miner (.order [1]), miner .tau, miner .tau, miner (.order [1]), miner .tau,
    miner (.mining { timestamp := 0, merkleRoot := 0, nonce := 2, order := [] }), miner (.order []),
    miner .tau, miner .tau, miner .tau] ++ List.replicate 8 minerWorker ++
    [worker (.message (.blocks [sampleGenesis.block]))] ++ List.replicate 6 (worker .tau) ++
    [worker (.message (.blocks [sampleBlock 1 2 2 []]))] ++ List.replicate 9 (worker .tau)

/-- The genesis blocks of the two nodes. -/
def twoGenesis (i : Bool) : GenesisDraw := if i then otherGenesis else sampleGenesis

theorem exists_mineAndReceive :
    letI := sampleCrypto
    ∃ S : ThreadedNetwork fun _ : Bool => 1,
      Run (init (fun _ => 1) twoGenesis) (Lts.replayTrace step (init (fun _ => 1) twoGenesis) mineAndReceive) S ∧
      (∀ i, StoreFree (S i)) ∧
      (S true).shared.blockchain.getBlock 2 = some (sampleBlock 1 2 2 []) ∧
      ((S false).shared.blockchain.getBlock 2).isSome := by
  obtain ⟨S, hrun, ⟨hfree, hclean⟩, ⟨hfree', hclean'⟩, hb, hc⟩ := @Lts.exists_run_of_replay _ _
    (@step sampleCrypto Bool _ (fun _ => 1) _) mineAndReceive
    (@init sampleCrypto Bool (fun _ => 1) twoGenesis)
    (fun S => ((S true).owner .blockchain = none ∧ (S true).poisoned .blockchain = false) ∧
      ((S false).owner .blockchain = none ∧ (S false).poisoned .blockchain = false) ∧
      (S true).shared.blockchain.getBlock 2 = some (sampleBlock 1 2 2 []) ∧
      ((S false).shared.blockchain.getBlock 2).isSome) (by decide +kernel)
  refine ⟨S, hrun, fun i => ?_, hb, hc⟩
  cases i with
  | true => exact ⟨hfree, hclean⟩
  | false => exact ⟨hfree', hclean'⟩

/-- The network of nodes has the block as well. -/
theorem threads_refine_network_mined :
    letI := sampleCrypto
    ∃ (tr : List (Network Bool × (Bool × Event))) (N : Network Bool),
      Network.Run (Network.init twoGenesis) tr N ∧
      (N true).blockchain.getBlock 2 = some (sampleBlock 1 2 2 []) := by
  let _ := sampleCrypto
  obtain ⟨S, hrun, hfree, hb, -⟩ := exists_mineAndReceive
  obtain ⟨tr, N, hrun', -, hagrees⟩ := threads_refine_network hrun
  refine ⟨tr, N, hrun', ?_⟩
  rw [((hagrees true).store (hfree true).1 (hfree true).2).1]
  exact hb

/-- Both nodes have the chain of the block. -/
theorem threads_agree_mined :
    letI := sampleCrypto
    ∃ S : ThreadedNetwork fun _ : Bool => 1, ∃ chain : List Block, chain.length = 2 ∧
      (S true).shared.blockchain.chainFrom 3 2 = some (chain.map Block.hash).reverse ∧
      (S false).shared.blockchain.chainFrom 3 2 = some (chain.map Block.hash).reverse := by
  let _ := sampleCrypto
  obtain ⟨S, hrun, hfree, hb, hc⟩ := exists_mineAndReceive
  have hassume : Assumptions twoGenesis
      (Lts.replayTrace step (init (fun _ : Bool => 1) twoGenesis) mineAndReceive) :=
    ⟨by decide +kernel, by decide +kernel, by decide +kernel, by decide +kernel⟩
  obtain ⟨chain, s, hlen, -, hboth⟩ := threads_agree hrun hassume (hfree true) (hfree false) hb hc
  have hlen' : chain.length = 2 := hlen
  have htrue := (hboth _ (Or.inl rfl)).1
  have hfalse := (hboth _ (Or.inr rfl)).1
  rw [hlen'] at htrue hfalse
  exact ⟨S, chain, hlen', htrue, hfalse⟩

end ThreadedNetwork

end BitcoinClient
