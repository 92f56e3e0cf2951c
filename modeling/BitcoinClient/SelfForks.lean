/-
**The blocks that a node mines.**

The miner reads the tip of the store, and what it mines goes through a channel to the miner worker, which
inserts it.  So the miner may read the tip, or mine on a tip that it has read, while blocks that it has mined
itself are still in the channel, or have left it and wait for the miner worker to get the mutex of the store.
When no blocks arrive from the network, the store has the blocks that have been inserted, in the order in
which they were mined, and every block of a chain is longer than those before it.  This is shown of the node,
for which a block leaves the channel when it is inserted, and then carried over to its threads.

Main definitions:

* `BitcoinClient.minedInOrder` — the blocks that a run mines, in their order;
* `BitcoinClient.Follows` — a block has the other as its parent;
* `BitcoinClient.Fed` — what is in the store and what is in the channel;
* `BitcoinClient.Threads.UpToDate` — nothing is on the way to the store, and no stored block is longer than the
  one mined on.

Main results:

* `BitcoinClient.fed_step` — **the step lemma**: a block is mined, put into the channel, and inserted;
* `BitcoinClient.Fed.last_iff` — the miner works on the block mined last exactly if it is up to date;
* `BitcoinClient.Threads.mined_chain_iff` — every mined block follows the one before it, along runs of the threads
  that mine up to date only, and only along these;
* `BitcoinClient.Threads.mined_fork` — a miner that mines two children of the genesis block.
-/

import BitcoinClient.Crashes
import BitcoinClient.Lengths
import BitcoinClient.ThreadRefinement

set_option relaxedAutoImplicit false
set_option autoImplicit false

namespace BitcoinClient

variable [Crypto]

/-- The blocks that a run mines, in their order. -/
def minedInOrder (tr : List (Node × Event)) : List Block := tr.filterMap fun x => x.1.mined x.2

theorem minedInOrder_snoc (tr : List (Node × Event)) (n : Node) (e : Event) :
    minedInOrder (tr ++ [(n, e)]) = minedInOrder tr ++ (n.mined e).toList := by
  cases h : n.mined e <;> simp [minedInOrder, h]

/-- The block `b` has `a` as its parent. -/
def Follows (a b : Block) : Prop := b.getParent = a.hash

instance : DecidableRel Follows := fun a b => inferInstanceAs (Decidable (b.getParent = a.hash))

omit [Crypto] in
/-- No stored block is longer. -/
def Blockchain.Longest (chain : Blockchain) (length : UInt32) : Prop :=
  ∀ h b, chain.getBlock h = some b → b.length ≤ length

omit [Crypto] in
instance (chain : Blockchain) (length : UInt32) : Decidable (chain.Longest length) :=
  @decidable_of_iff _ (∀ h ∈ chain.blocks.keys, ∀ b ∈ chain.getBlock h, b.length ≤ length)
    ⟨fun hall h b hb => hall h (Finmap.mem_keys.2 (Finmap.mem_of_lookup_eq_some hb)) b hb,
      fun hall h _ b hb => hall h b hb⟩
    Finset.decidableDforallFinset

/-! ### The store and the channel -/

/-- Storing a block at a new hash leaves the others. -/
theorem Blockchain.getBlock_put_of_stored {chain : Blockchain} {block b : Block} (length : UInt32) {h : H256}
    (hnew : chain.getBlock block.hash = none) (hb : chain.getBlock h = some b) :
    (chain.put block length).getBlock h = some b := by
  rw [getBlock_put, if_neg (ne_of_getBlock hb hnew).symm]
  exact hb

theorem Blockchain.lengthAt_put_of_stored {chain : Blockchain} {block : Block} (length : UInt32) {h : H256}
    (hnew : chain.getBlock block.hash = none) (hh : (chain.getBlock h).isSome) :
    (chain.put block length).lengthAt h = chain.lengthAt h ∧
      ((chain.put block length).getBlock h).isSome := by
  obtain ⟨b, hb⟩ := Option.isSome_iff_exists.1 hh
  have hput := getBlock_put_of_stored length hnew hb
  rw [lengthAt_of_getBlock hb, lengthAt_of_getBlock hput, hput]
  exact ⟨rfl, rfl⟩

/-- The mutex of the store while no blocks arrive. -/
def ChainLock.Idle (lock : ChainLock) : Prop := lock = .free ∨ ∃ hs, lock = .held [] hs

omit [Crypto] in
theorem ChainLock.Idle.ne_held {lock : ChainLock} (h : lock.Idle) (block : Block) (rest : List Block)
    (hs : List H256) : lock ≠ .held (block :: rest) hs := by
  rintro rfl
  rcases h with h | ⟨_, h⟩ <;> cases h

omit [Crypto] in
theorem ChainLock.Idle.ne_searching {lock : ChainLock} (h : lock.Idle) (block x : Block) (idxs : List ℕ)
    (rest : List Block) (hs : List H256) : lock ≠ .searching block x idxs rest hs := by
  rintro rfl
  rcases h with h | ⟨_, h⟩ <;> cases h

/-- No block is about to be checked. -/
theorem ChainLock.Idle.not_atHand {c : Core} (h : c.lock.Idle) {block parent : Block} {lock : ChainLock} :
    ¬ AtHand c block parent lock := by
  rintro (⟨hl, -, -⟩ | ⟨hl, -⟩)
  · exact h.ne_held _ _ _ hl
  · exact h.ne_searching _ _ _ _ _ hl

/-- The miner re-sends the genesis block `g`, and works on a block that is stored. -/
def WorksOn (g : Block) (mined : List Block) (chain : Blockchain) : MinerPc → Prop
  | .start => mined = []
  | .loopHead b => b = g
  | .control b p => b = g ∧ chain.getBlock p.hash = some p
  | .mining b p => b = g ∧ chain.getBlock p.hash = some p
  | .stopped => True

theorem WorksOn.move {g : Block} {mined : List Block} {chain : Blockchain} {pc pc' : MinerPc}
    (h : WorksOn g mined chain pc) (hpc : PcMove pc pc') : WorksOn g mined chain pc' := by
  cases hpc with
  | wait g' p => exact h.1
  | run g' p => exact h
  | miss g' p => exact h.1
  | stop pc => trivial

/-- Of the blocks that have been mined, `inserted` have been inserted, and the others are in the channel, with
copies of the genesis block `g` between them. -/
structure Fed (g : Block) (inserted mined : List Block) (c : Core) : Prop where
  fifo : mined = inserted ++ c.chan.filter fun b => b.hash ≠ g.hash
  chan : ∀ b ∈ c.chan, b = g ∨ (b.hash ≠ g.hash ∧ 1 < b.length)
  last : ∀ b ∈ c.chan.getLast?, b.hash ≠ g.hash
  first : ∀ b ∈ mined.head?, b.getParent = g.hash
  own : c.chain.getBlock g.hash = some g
  stored : ∀ h b, c.chain.getBlock h = some b → b.hash = h ∧ (b = g ∨ ∃ m ∈ inserted, m.hash = h)
  lengths : ∀ m ∈ inserted, ∃ length, c.chain.getBlock m.hash = some { m with length := length } ∧
    length.toNat = c.chain.lengthAt m.getParent + 1 ∧ (c.chain.getBlock m.getParent).isSome
  pc : WorksOn g mined c.chain c.pc
  idle : c.lock.Idle

namespace Fed

variable {g : Block} {inserted mined : List Block} {c : Core}

theorem new (d : GenesisDraw) : Fed d.block [] [] (Node.init d).core where
  fifo := rfl
  chan b hb := absurd hb List.not_mem_nil
  last b hb := nomatch hb
  first b hb := nomatch hb
  own := Blockchain.getBlock_new_self d
  stored h b hb := by
    obtain ⟨rfl, rfl⟩ := Blockchain.getBlock_new_eq_some.1 hb
    exact ⟨rfl, Or.inl rfl⟩
  lengths m hm := absurd hm List.not_mem_nil
  pc := rfl
  idle := Or.inl rfl

/-- Every stored block has a positive length. -/
theorem one_le_length (h : Fed g inserted mined c) (hone : g.length = 1) {k : H256} {b : Block}
    (hb : c.chain.getBlock k = some b) : 1 ≤ b.length.toNat := by
  obtain ⟨-, rfl | ⟨m, hm, rfl⟩⟩ := h.stored k b hb
  · rw [hone]
    exact le_rfl
  · obtain ⟨length, hl, hadd, -⟩ := h.lengths m hm
    rw [hb, Option.some_inj] at hl
    rw [hl]
    show 1 ≤ length.toNat
    omega

/-- Before a block is mined the store has the genesis block only. -/
theorem eq_genesis (h : Fed g inserted [] c) {k : H256} {b : Block} (hb : c.chain.getBlock k = some b) :
    b = g := by
  obtain ⟨-, heq | ⟨m, hm, -⟩⟩ := h.stored k b hb
  · exact heq
  · rw [(List.append_eq_nil_iff.1 h.fifo.symm).1] at hm
    exact absurd hm List.not_mem_nil

/-- The miner is at another position. -/
theorem move (h : Fed g inserted mined c) {pc : MinerPc} (hpc : WorksOn g mined c.chain pc) :
    Fed g inserted mined { c with pc } := { h with pc := hpc }

/-- The miner reads the tip. -/
theorem tip (h : Fed g inserted mined c) {order : List H256} {tipBlock : Block} {pc : MinerPc}
    (htip : c.chain.getBlock (c.chain.tip order) = some tipBlock) (hpc : TipRead tipBlock c.pc pc) :
    WorksOn g mined c.chain pc := by
  have hp := h.pc
  have hown : c.chain.getBlock tipBlock.hash = some tipBlock := by rw [(h.stored _ _ htip).1, htip]
  generalize c.pc = pc₀ at hp hpc
  cases hpc with
  | start =>
      have hnil : mined = [] := hp
      subst hnil
      exact h.eq_genesis htip
  | loopHead g' => exact ⟨hp, hown⟩
  | update g' p => exact ⟨hp.1, hown⟩

/-- **A block is mined.** -/
theorem mine (h : Fed g inserted mined c) (hone : g.length = 1) {g' p b : Block} {newState : State}
    (hpc : c.pc = .mining g' p) (hpar : b.getParent = p.hash)
    (hadd : checkedAdd p.length 1 = some b.length) (hne : b.hash ≠ g.hash) :
    Fed g inserted (mined ++ [b])
      { c with
        chain := c.chain.putState b.hash newState
        chan := c.chan ++ (if b.getParent = g'.hash then [g'] else []) ++ [b]
        pc := .loopHead g' } := by
  have hp := h.pc
  rw [hpc] at hp
  obtain ⟨rfl, hstored⟩ := hp
  have hlong : 1 < b.length := by
    rw [UInt32.lt_iff_toNat_lt, toNat_of_checkedAdd hadd]
    have := h.one_le_length hone hstored
    show 1 < p.length.toNat + 1
    omega
  refine { h with fifo := ?_, chan := ?_, last := ?_, first := ?_, pc := rfl }
  · have hmid : (if b.getParent = g'.hash then [g'] else []).filter (fun b => b.hash ≠ g'.hash) = [] := by
      split <;> simp
    rw [List.filter_append, List.filter_append, hmid, List.append_nil, ← List.append_assoc, ← h.fifo]
    simp [hne]
  · intro x hx
    rcases mem_chan_of_mined hx with hx | rfl | rfl
    · exact h.chan x hx
    · exact Or.inl rfl
    · exact Or.inr ⟨hne, hlong⟩
  · intro x hx
    rw [List.getLast?_concat, Option.mem_some] at hx
    rw [← hx]
    exact hne
  · cases mined with
    | nil =>
        intro x hx
        rw [List.nil_append, List.head?_cons, Option.mem_some] at hx
        rw [← hx, hpar, h.eq_genesis hstored]
    | cons first rest => exact h.first

/-- The miner worker inserts a copy of the genesis block. -/
theorem resend (h : Fed g inserted mined c) (hone : g.length = 1) {chan : List Block} {length : UInt32}
    (hchan : c.chan = g :: chan) (hlen : Blockchain.StoredLength c.chain g length) :
    Fed g inserted mined { c with chain := c.chain.put g length, chan } := by
  have hput : c.chain.put g length = c.chain := by
    refine Blockchain.put_eq_self ?_
    rcases hlen with ⟨-, rfl⟩ | ⟨hlt, -⟩
    · exact h.own
    · rw [hone] at hlt
      exact absurd hlt (UInt32.lt_irrefl 1)
  rw [hput]
  have hfifo := h.fifo
  have hlast := h.last
  have hall := h.chan
  rw [hchan] at hfifo hlast hall
  refine { h with fifo := ?_, chan := fun b hb => hall b (List.mem_cons_of_mem _ hb), last := ?_ }
  · rwa [List.filter_cons_of_neg (by simp)] at hfifo
  · intro b hb
    refine hlast b ?_
    cases chan with
    | nil => cases hb
    | cons x xs => exact hb

/-- A mined block at the head of the channel is not stored yet. -/
theorem not_stored (h : Fed g inserted mined c) (hnodup : (mined.map Block.hash).Nodup) {b : Block}
    {chan : List Block} (hchan : c.chan = b :: chan) (hne : b.hash ≠ g.hash) :
    c.chain.getBlock b.hash = none := by
  have hfifo := h.fifo
  rw [hchan, List.filter_cons_of_pos (by simpa using hne)] at hfifo
  rw [hfifo, List.map_append, List.nodup_append] at hnodup
  refine Option.eq_none_iff_forall_not_mem.2 fun x hx => ?_
  obtain ⟨hxb, rfl | ⟨m, hm, heq⟩⟩ := h.stored _ _ hx
  · exact hne hxb.symm
  · have hb : b.hash ∈ (b :: chan.filter fun b => b.hash ≠ g.hash).map Block.hash :=
      List.mem_map_of_mem (List.mem_cons_self ..)
    exact hnodup.2.2 _ (List.mem_map_of_mem hm) _ hb heq

/-- **The miner worker inserts a block that has been mined.** -/
theorem insert (h : Fed g inserted mined c) (hnodup : (mined.map Block.hash).Nodup) {b : Block}
    {chan : List Block} {length : UInt32} (hchan : c.chan = b :: chan) (hne : b.hash ≠ g.hash)
    (hlen : Blockchain.StoredLength c.chain b length) :
    Fed g (inserted ++ [b]) mined { c with chain := c.chain.put b length, chan } := by
  have hnew := h.not_stored hnodup hchan hne
  have hfifo := h.fifo
  have hlast := h.last
  have hall := h.chan
  rw [hchan] at hfifo hlast hall
  rw [List.filter_cons_of_pos (by simpa using hne)] at hfifo
  have hlong : 1 < b.length := by
    rcases hall b (List.mem_cons_self ..) with rfl | ⟨-, hlong⟩
    · exact absurd rfl hne
    · exact hlong
  refine { h with
    fifo := ?_
    chan := fun x hx => hall x (List.mem_cons_of_mem _ hx)
    last := ?_
    own := Blockchain.getBlock_put_of_stored length hnew h.own
    stored := ?_
    lengths := ?_
    pc := ?_ }
  · rw [List.append_assoc]
    exact hfifo
  · intro x hx
    refine hlast x ?_
    cases chan with
    | nil => cases hx
    | cons y ys => exact hx
  · intro k x hx
    rw [Blockchain.getBlock_put] at hx
    split at hx
    · rename_i hk
      rw [← Option.some_inj.1 hx, hk]
      exact ⟨rfl, Or.inr ⟨b, List.mem_append_right _ (List.mem_singleton.2 rfl), rfl⟩⟩
    · obtain ⟨hhash, hsource⟩ := h.stored k x hx
      exact ⟨hhash, hsource.imp id fun ⟨m, hm, heq⟩ => ⟨m, List.mem_append_left _ hm, heq⟩⟩
  · intro m hm
    rcases List.mem_append.1 hm with hm | hm
    · obtain ⟨l, hl, hadd, hpar⟩ := h.lengths m hm
      obtain ⟨hsame, hpar'⟩ := Blockchain.lengthAt_put_of_stored length hnew hpar
      exact ⟨l, Blockchain.getBlock_put_of_stored length hnew hl, by rw [hsame, hadd], hpar'⟩
    · rw [List.mem_singleton.1 hm]
      have hpar : (c.chain.getBlock b.getParent).isSome := by
        rcases hlen with ⟨hle, -⟩ | ⟨-, parent, hpar, -⟩
        · exact absurd hlong (UInt32.not_lt.2 hle)
        · rw [hpar]
          rfl
      obtain ⟨hsame, hpar'⟩ := Blockchain.lengthAt_put_of_stored length hnew hpar
      refine ⟨length, ?_, by rw [hsame, hlen.eq_lengthAt hlong], hpar'⟩
      rw [Blockchain.getBlock_put, if_pos rfl]
  · have hp := h.pc
    generalize c.pc = pc at hp
    cases pc with
    | start => exact hp
    | loopHead g' => exact hp
    | control g' p => exact ⟨hp.1, Blockchain.getBlock_put_of_stored length hnew hp.2⟩
    | mining g' p => exact ⟨hp.1, Blockchain.getBlock_put_of_stored length hnew hp.2⟩
    | stopped => trivial

/-! ### The block mined last -/

/-- A stored block has the hash of the genesis block or of one that has been inserted. -/
theorem exists_of_stored (h : Fed g inserted mined c) {k : H256} {b : Block}
    (hb : c.chain.getBlock k = some b) : ∃ m ∈ g :: inserted, m.hash = k := by
  obtain ⟨hk, rfl | ⟨m, hm, heq⟩⟩ := h.stored k b hb
  · exact ⟨b, List.mem_cons_self .., hk⟩
  · exact ⟨m, List.mem_cons_of_mem _ hm, heq⟩

/-- **Along a chain every inserted block is longer than those before it.** -/
theorem increasing (h : Fed g inserted mined c) (hchain : (g :: inserted).IsChain Follows) :
    (g :: inserted).Pairwise fun a b => c.chain.lengthAt a.hash < c.chain.lengthAt b.hash := by
  have htrans : Trans (fun a b : Block => c.chain.lengthAt a.hash < c.chain.lengthAt b.hash)
      (fun a b : Block => c.chain.lengthAt a.hash < c.chain.lengthAt b.hash)
      (fun a b : Block => c.chain.lengthAt a.hash < c.chain.lengthAt b.hash) := ⟨Nat.lt_trans⟩
  refine List.IsChain.pairwise (hchain.imp_of_mem_tail_imp fun a b _ hb hab => ?_)
  obtain ⟨length, hl, hadd, -⟩ := h.lengths b hb
  have hab' : b.getParent = a.hash := hab
  rw [Blockchain.lengthAt_of_getBlock hl, ← hab']
  show c.chain.lengthAt b.getParent < length.toNat
  omega

/-- The block mined last is the longest one, when the channel is empty. -/
theorem lt_last (h : Fed g mined mined c) (hchain : (g :: mined).IsChain Follows) {m : Block}
    (hm : m ∈ g :: mined) : m = mined.getLastD g ∨
      c.chain.lengthAt m.hash < c.chain.lengthAt (mined.getLastD g).hash := by
  rw [← List.getLast_eq_getLastD (List.cons_ne_nil g mined)]
  have hsplit := List.dropLast_append_getLast (List.cons_ne_nil g mined)
  rw [← hsplit, List.mem_append, List.mem_singleton] at hm
  exact hm.symm.imp id (h.increasing hchain).rel_dropLast_getLast

/-- **All blocks are inserted** when the block mined last is stored. -/
theorem chan_eq_nil (h : Fed g inserted mined c) (hnodup : (mined.map Block.hash).Nodup)
    (hne : ∀ b ∈ mined, b.hash ≠ g.hash) {b : Block}
    (hb : c.chain.getBlock (mined.getLastD g).hash = some b) : c.chan = [] := by
  obtain ⟨m, hm, heq⟩ := h.exists_of_stored hb
  have hpending : c.chan.filter (fun b => b.hash ≠ g.hash) = [] := by
    rcases List.eq_nil_or_concat' (c.chan.filter fun b => b.hash ≠ g.hash) with hnil | ⟨front, x, hx⟩
    · exact hnil
    · have hfifo := h.fifo
      rw [hx, ← List.append_assoc] at hfifo
      have hlast : mined.getLastD g = x := by rw [hfifo, List.getLastD_concat]
      rw [hlast] at heq
      rcases List.mem_cons.1 hm with rfl | hm
      · have hmem : x ∈ mined := by simp [hfifo]
        exact absurd heq.symm (hne x hmem)
      · rw [hfifo, List.map_append, List.nodup_append] at hnodup
        have hm' : m.hash ∈ (inserted ++ front).map Block.hash :=
          List.mem_map_of_mem (List.mem_append_left _ hm)
        exact absurd heq (hnodup.2.2 _ hm' _ (List.mem_singleton.2 rfl))
  -- the channel has no copy of the genesis block without a mined block behind it
  rcases List.eq_nil_or_concat' c.chan with hnil | ⟨front, x, hx⟩
  · exact hnil
  · have hlast := h.last
    rw [hx, List.getLast?_concat] at hlast
    rw [hx, List.filter_append, List.append_eq_nil_iff] at hpending
    simpa [hlast x rfl] using hpending.2

/-- **The miner works on the block mined last** exactly if the channel is empty and no stored block is longer
than its own. -/
theorem last_iff (h : Fed g inserted mined c) (hnodup : (mined.map Block.hash).Nodup)
    (hne : ∀ b ∈ mined, b.hash ≠ g.hash) (hchain : (g :: mined).IsChain Follows) {p : Block}
    (hp : c.chain.getBlock p.hash = some p) :
    p.hash = (mined.getLastD g).hash ↔ c.chan = [] ∧ c.chain.Longest p.length := by
  have hall : c.chan = [] → Fed g mined mined c := by
    intro hnil
    have hfifo := h.fifo
    rw [hnil, List.filter_nil, List.append_nil] at hfifo
    rwa [← hfifo] at h
  constructor
  · intro hlast
    have hnil : c.chan = [] := h.chan_eq_nil hnodup hne (by rw [← hlast, hp])
    refine ⟨hnil, fun k b hb => ?_⟩
    obtain ⟨m, hm, rfl⟩ := (hall hnil).exists_of_stored hb
    rw [UInt32.le_iff_toNat_le, ← Blockchain.lengthAt_of_getBlock hb, ← Blockchain.lengthAt_of_getBlock hp,
      hlast]
    rcases (hall hnil).lt_last hchain hm with heq | hlt
    · rw [heq]
    · exact hlt.le
  · rintro ⟨hnil, hlong⟩
    obtain ⟨m, hm, heq⟩ := (hall hnil).exists_of_stored hp
    rcases (hall hnil).lt_last hchain hm with hm | hlt
    · rw [← heq, hm]
    · -- the block mined last is stored and not longer than `p`
      exfalso
      rw [heq, Blockchain.lengthAt_of_getBlock hp] at hlt
      cases hb : c.chain.getBlock (mined.getLastD g).hash with
      | none =>
          rw [Blockchain.lengthAt_of_none hb] at hlt
          omega
      | some b =>
          have hle := UInt32.le_iff_toNat_le.1 (hlong _ b hb)
          rw [Blockchain.lengthAt_of_getBlock hb] at hlt
          omega

end Fed

/-- **The step lemma**, for a step that brings no blocks. -/
theorem fed_step {g : Block} {inserted mined : List Block} {n n' : Node} {e : Event}
    (h : Fed g inserted mined n.core) (hone : g.length = 1) (hblocks : e.blocks = [])
    (hnodup : (mined.map Block.hash).Nodup) (hne : ∀ b ∈ n.mined e, b.hash ≠ g.hash)
    (hpool : n.mempoolPoisoned = false) (hstep : n.step e = some n') :
    (n'.core.lock = .poisoned ∧ n.mined e = none) ∨
      ∃ inserted', Fed g inserted' (mined ++ (n.mined e).toList) n'.core := by
  cases hm : n.mined e with
  | some b =>
      obtain ⟨draw, g', p, s, s', -, -, hpc, hpar, hadd, -, -, rfl⟩ :=
        Node.step_of_mined hpool hm hstep
      exact Or.inr ⟨inserted, h.mine hone hpc hpar hadd (hne b hm)⟩
  | none =>
      rw [Option.toList_none, List.append_nil]
      have hc := Node.core_step hstep
      generalize n'.core = c' at hc
      cases hc with
      | other => exact Or.inr ⟨inserted, h⟩
      | pcMove hpc => exact Or.inr ⟨inserted, h.move (h.pc.move hpc)⟩
      | readTip _ _ htip hpc => exact Or.inr ⟨inserted, h.move (h.tip htip hpc)⟩
      | panic _ _ => exact Or.inl ⟨rfl, rfl⟩
      | take hl =>
          have hbs := hblocks
          rw [Event.blocks] at hbs
          rw [hbs]
          exact Or.inr ⟨inserted, { h with idle := Or.inr ⟨_, rfl⟩ }⟩
      | skip hlock =>
          rcases hlock with ⟨hs, -, rfl⟩ | ⟨block, rest, hs, hl, -⟩
          · exact Or.inr ⟨inserted, { h with idle := Or.inl rfl }⟩
          · exact absurd hl (h.idle.ne_held _ _ _)
      | genesis hl _ _ _ => exact absurd hl (h.idle.ne_held _ _ _)
      | park hl _ _ _ => exact absurd hl (h.idle.ne_held _ _ _)
      | reject hat _ => exact absurd hat h.idle.not_atHand
      | attach hat _ _ _ _ => exact absurd hat h.idle.not_atHand
      | halfAttach hat _ _ _ => exact absurd hat h.idle.not_atHand
      | cleanup hl _ _ => exact absurd hl (h.idle.ne_searching _ _ _ _ _)
      | mined hl hpc hb hle hs he =>
          have hsome := Node.mined_iff.2 ⟨_, _, _, _, _, _, _, rfl, hl, hpc, hb, hle, hs, he, rfl⟩
          rw [hm] at hsome
          cases hsome
      | @insertMined b chan length _ hchan hlen =>
          have hb : b ∈ n.core.chan := by
            rw [hchan]
            exact List.mem_cons_self ..
          rcases h.chan b hb with rfl | ⟨hbne, -⟩
          · exact Or.inr ⟨inserted, h.resend hone hchan hlen⟩
          · exact Or.inr ⟨_, h.insert hnodup hchan hbne hlen⟩

/-! ### Runs -/

section

variable {g : GenesisDraw} {tr : List (Node × Event)} {n : Node}

/-- **The run lemma**: when no blocks arrive, the store and the channel have what has been mined, until a thread
panics with the mutex. -/
theorem fed_of_run (hrun : Node.Run (Node.init g) tr n) (hblocks : ∀ x ∈ tr, x.2.blocks = [])
    (hnodup : ((minedInOrder tr).map Block.hash).Nodup)
    (hne : ∀ b ∈ minedInOrder tr, b.hash ≠ g.block.hash) :
    (n.core.lock = .poisoned ∧ ∀ b ∈ (minedInOrder tr).head?, b.getParent = g.block.hash) ∨
      ∃ inserted, Fed g.block inserted (minedInOrder tr) n.core := by
  induction hrun with
  | nil => exact Or.inr ⟨[], Fed.new g⟩
  | @snoc tr m n e hr hs ih =>
      rw [minedInOrder_snoc] at hnodup hne ⊢
      obtain ⟨hblocks, he⟩ := List.forall_mem_append.1 hblocks
      rw [List.map_append] at hnodup
      have hnodup' := (List.nodup_append.1 hnodup).1
      rcases ih hblocks hnodup' fun b hb => hne b (List.mem_append_left _ hb) with
        ⟨hlock, hfirst⟩ | ⟨inserted, h⟩
      · -- a poisoned mutex stays poisoned, and nothing is mined any more
        have hnone : m.mined e = none := by
          refine Option.eq_none_iff_forall_not_mem.2 fun b hb => ?_
          obtain ⟨_, _, _, _, _, _, _, -, hfree, -⟩ := Node.mined_iff.1 hb
          rw [hlock] at hfree
          cases hfree
        rw [hnone, Option.toList_none, List.append_nil]
        exact Or.inl ⟨(Node.core_step hs).poisoned hlock, hfirst⟩
      · have hfree : m.lock ≠ .poisoned := by
          intro hp
          have hidle : m.lock.Idle := h.idle
          rw [hp] at hidle
          rcases hidle with heq | ⟨_, heq⟩ <;> cases heq
        have hmine : ∀ b ∈ m.mined e, b.hash ≠ g.block.hash := fun b hb =>
          hne b (List.mem_append_right _ (Option.mem_toList.2 hb))
        have hpool := mempoolPoisoned_eq_false hr hfree
        rcases fed_step h rfl (he _ (List.mem_singleton.2 rfl)) hnodup' hmine hpool hs with
          ⟨hp, hnone⟩ | h'
        · rw [hnone, Option.toList_none, List.append_nil]
          exact Or.inl ⟨hp, h.first⟩
        · exact Or.inr h'

end

/-! ### The threads -/

/-- The block on which the miner is about to mine, when it has the store. -/
def Stage.parentBlock : Stage → Option Block
  | .miner (.executing _ _ parentBlock _ _) => some parentBlock
  | _ => none

open Locks

/-- The miner worker goes on until it panics. -/
theorem MinerWorkerStage.ne_dead_of_moves {stage : MinerWorkerStage} {d d' : Shared} {next : Stage}
    (h : (stage.next d).Moves d' next) : next ≠ .dead := by
  rintro rfl
  rcases h with h | ⟨m, h⟩
  all_goals
    unfold MinerWorkerStage.next at h
    split at h
    · split at h
      · split at h <;> cases h
      · cases h
    · cases h
    · split at h <;> cases h
    · cases h

/-- It panics when it cannot insert a block, or when it waits for a miner that has ended. -/
theorem MinerWorkerStage.held_of_panic {stage : MinerWorkerStage} {d d' : Shared}
    (h : stage.next d = .panic d') : stage.held = {.blockchain} ∨ d.controlChanClosed = true := by
  cases stage with
  | receive =>
      rw [next] at h
      split at h
      · split at h
        · rename_i hclosed
          exact Or.inr hclosed
        · cases h
      · cases h
  | inserting block => exact Or.inl rfl
  | lockBlockchain | broadcasting => cases h

namespace Threads

variable {numWorker : ℕ} {g : GenesisDraw} {S S' : Threads numWorker}
  {tr : List (Threads numWorker × (ThreadId numWorker × Draw))} {x : ThreadId numWorker × Draw}

/-- The blocks that a network worker takes from its channel in a step. -/
def arriving (S : Threads numWorker) (x : ThreadId numWorker × Draw) : List Block :=
  match S.pc x.1, x.2 with
  | .networkWorker .receive, .message message => (Event.message message).blocks
  | _, _ => []

/-- No finished block is in the hands of the miner worker or in the channel, and no stored block is longer than
the one that is about to be mined on. -/
def UpToDate (S : Threads numWorker) : Prop :=
  ∀ p ∈ (S.pc .miner).parentBlock, (S.pc .minerWorker).received = [] ∧ S.shared.finishedBlockChan = [] ∧
    S.shared.blockchain.Longest p.length

instance (S : Threads numWorker) : Decidable S.UpToDate :=
  inferInstanceAs (Decidable (∀ p ∈ (S.pc .miner).parentBlock, _))

/-- The miner worker only dies of the store, or when the miner has ended. -/
theorem minerWorker_dead_of_run (hrun : Run (init numWorker g) tr S) (hdead : S.pc .minerWorker = .dead) :
    S.poisoned .blockchain = true ∨ S.pc .miner = .dead := by
  induction hrun with
  | nil => cases hdead
  | @snoc tr S S' x hrun hs ih =>
      obtain ⟨howned, n, -, hsim⟩ := simulates_of_run (M := fun _ => True) hrun fun _ _ _ _ => trivial
      have hstays : S.poisoned .blockchain = true ∨ S.pc .miner = .dead →
          S'.poisoned .blockchain = true ∨ S'.pc .miner = .dead :=
        Or.imp (Locks.poisoned_step howned hs) (dead_step rfl (fun _ _ => rfl) hs)
      by_cases ht : x.1 = .minerWorker
      · obtain ⟨t, e⟩ := x
        obtain rfl : t = .minerWorker := ht
        have hof := hsim.placed .minerWorker
        cases hpc : S.pc .minerWorker with
        | dead => exact hstays (ih hpc)
        | networkWorker | miner | api =>
            rw [hpc] at hof
            exact hof.elim
        | minerWorker stage =>
            cases stepCase_of_step howned hs with
            | acts henters hmoves hpoisoned =>
                rw [hpc] at hmoves
                exact absurd hdead (MinerWorkerStage.ne_dead_of_moves hmoves)
            | dies hcause hshared hdead' hpoisoned =>
                rw [hpc] at hcause hpoisoned
                rcases hcause with ⟨-, m, hwants, hm⟩ | ⟨-, hpanic⟩
                · -- the mutex of the store is poisoned
                  cases stage with
                  | lockBlockchain block =>
                      cases hwants
                      exact hstays (Or.inl hm)
                  | receive | inserting | broadcasting => cases hwants
                · rcases MinerWorkerStage.held_of_panic hpanic with hheld | hclosed
                  · left
                    by_contra hclean
                    refine ((hpoisoned .blockchain).1 (Bool.eq_false_iff.2 hclean)).1 ?_
                    refine Stage.mem_holding.2 (Or.inl ?_)
                    rw [Stage.held, hheld]
                    exact Finset.mem_singleton_self _
                  · exact hstays (Or.inr (hsim.controlClosed.1 hclosed))
      · rw [step_pc_of_ne hs (Ne.symm ht)] at hdead
        exact hstays (ih hdead)

/-- The miner that is about to mine, compared with that of the node: both have the same store, and what is on
the way to it is in the channel of the node. -/
theorem Simulates.mining {M : Message → Prop} {R : Node → Prop} {n : Node} (h : Simulates M R S n)
    (hworker : S.pc .minerWorker ≠ .dead) {operatingState : OperatingState} {g' p block : Block}
    {txData : List SignedTransaction}
    (hpc : S.pc .miner = .miner (.executing operatingState g' p block txData)) :
    n.blockchain = S.shared.blockchain ∧ n.lock = .free ∧ n.miner.pc = .mining g' p ∧
      n.finishedBlockChan = (S.pc .minerWorker).received ++ S.shared.finishedBlockChan ∧
      block.getParent = p.hash := by
  have hstores := h.held .miner
  have hinHand := h.inHand .miner
  have hchan := h.chan hworker
  rw [hpc] at hstores hinHand hchan
  obtain ⟨hchain, -, hlock⟩ := hstores (Finset.mem_insert_of_mem (Finset.mem_singleton_self _))
  obtain ⟨hminer, draw, ⟨hblock, -⟩, -⟩ := hinHand
  refine ⟨hchain, hlock, congrArg Miner.pc hminer, ?_, MiningDraw.getParent_block hblock⟩
  simpa [Stage.finished] using hchan

theorem mined_eq_some_iff {b : Block} : mined S x = some b ↔
    ∃ operatingState g' p block txData parentState newState validTx,
      S.pc x.1 = .miner (.executing operatingState g' p block txData) ∧
      S.shared.blockchain.getBlockState p.hash = some parentState ∧
      executeTx parentState txData = some (newState, validTx) ∧ { block with data := validTx } = b := by
  unfold mined Stage.mined
  cases hpc : S.pc x.1 with
  | miner stage =>
      cases stage with
      | executing operatingState g' p block txData =>
          simp [MinerStage.mined, Option.bind_eq_some_iff]
      | _ => simp [MinerStage.mined]
  | _ => simp

/-- No blocks arrive in a run of the node that the threads refine. -/
theorem exists_fed (hrun : Run (init numWorker g) tr S) (hblocks : ∀ x ∈ tr, arriving x.1 x.2 = [])
    (hnodup : ((minedBlocks tr).map Block.hash).Nodup)
    (hne : ∀ b ∈ minedBlocks tr, b.hash ≠ g.block.hash) :
    ∃ n, Simulates (fun m => (Event.message m).blocks = [])
        (Node.Reaches (fun m => (Event.message m).blocks = []) g (minedBlocks tr)) S n ∧
      ((n.lock = .poisoned ∧ ∀ b ∈ (minedBlocks tr).head?, b.getParent = g.block.hash) ∨
        ∃ inserted, Fed g.block inserted (minedBlocks tr) n.core) := by
  obtain ⟨-, n, ⟨tr', hrun', hM, hmined⟩, hsim⟩ :=
    simulates_of_run (M := fun m => (Event.message m).blocks = []) hrun fun x hx m hm => by
      have hx' := hblocks x hx
      rw [arriving, hm.1, hm.2] at hx'
      exact hx'
  have hmined' : minedInOrder tr' = minedBlocks tr := hmined
  refine ⟨n, hsim, ?_⟩
  rw [← hmined'] at hnodup hne ⊢
  refine fed_of_run hrun' (fun y hy => ?_) hnodup hne
  cases he : y.2 with
  | message m => exact hM y hy m he
  | _ => rfl

/-- Every mined block follows the one before it, the first one the genesis block. -/
theorem chain_iff_of_run (hrun : Run (init numWorker g) tr S) (hblocks : ∀ x ∈ tr, arriving x.1 x.2 = [])
    (hnodup : ((minedBlocks tr).map Block.hash).Nodup)
    (hne : ∀ b ∈ minedBlocks tr, b.hash ≠ g.block.hash) :
    (g.block :: minedBlocks tr).IsChain Follows ↔ ∀ x ∈ tr, ∀ b ∈ mined x.1 x.2, x.1.UpToDate := by
  induction hrun with
  | nil => exact iff_of_true (List.isChain_singleton _) fun x hx => absurd hx List.not_mem_nil
  | @snoc tr S S' x hrun hs ih =>
      have hconcat : minedBlocks (tr ++ [(S, x)]) = minedBlocks tr ++ (mined S x).toList :=
        Lts.Run.filterMap_concat _ tr (S, x)
      rw [hconcat] at hnodup hne ⊢
      have hblocks' := (List.forall_mem_append.1 hblocks).1
      rw [List.map_append] at hnodup
      have hnodup' := (List.nodup_append.1 hnodup).1
      have hne' : ∀ b ∈ minedBlocks tr, b.hash ≠ g.block.hash :=
        fun b hb => hne b (List.mem_append_left _ hb)
      rw [List.forall_mem_append, List.forall_mem_singleton, ← ih hblocks' hnodup' hne',
        ← List.cons_append, List.isChain_append]
      refine and_congr_right fun hchain => ?_
      cases hm : mined S x with
      | none => simp
      | some b =>
          obtain ⟨n, hsim, hfed⟩ := exists_fed hrun hblocks' hnodup' hne'
          obtain ⟨os, g', p, block, txData, s, s', v, hpc, -, -, rfl⟩ := mined_eq_some_iff.1 hm
          obtain ⟨t, e⟩ := x
          have hof := hsim.placed t
          dsimp only at hpc
          rw [hpc] at hof
          obtain rfl := hof.eq_miner
          have hown : S.owner .blockchain = some .miner := by
            refine (owned_of_run hrun _ _).2 ?_
            rw [hpc]
            simp [Stage.held, MinerStage.held]
          have hworker : S.pc .minerWorker ≠ .dead := by
            intro hdead
            rcases minerWorker_dead_of_run hrun hdead with hpoisoned | hended
            · rw [clean_of_run hrun _ _ hown] at hpoisoned
              cases hpoisoned
            · rw [hpc] at hended
              cases hended
          obtain ⟨hstore, hlock, hpc', hchan, hpar⟩ := hsim.mining hworker hpc
          rcases hfed with ⟨hp, -⟩ | ⟨inserted, h⟩
          · rw [hlock] at hp
            cases hp
          · have hworks := h.pc
            rw [show n.core.pc = _ from hpc'] at hworks
            have hlast := h.last_iff hnodup' hne' hchain hworks.2
            have hupToDate : S.UpToDate ↔ n.core.chan = [] ∧ n.core.chain.Longest p.length := by
              rw [show n.core.chan = _ from hchan, show n.core.chain = _ from hstore,
                List.append_eq_nil_iff, and_assoc]
              simp only [UpToDate, hpc, Stage.parentBlock, Option.mem_some_iff, forall_eq']
            have hfollows : Follows ((minedBlocks tr).getLastD g.block) { block with data := v } ↔
                p.hash = ((minedBlocks tr).getLastD g.block).hash := by
              rw [← hpar]
              rfl
            rw [List.getLast?_cons, ← List.getLastD_eq_getLast?]
            simp only [Option.toList_some, List.isChain_singleton, true_and, List.head?_cons,
              Option.mem_some_iff, forall_eq']
            rw [hfollows, hlast, hupToDate]

/-- **A node that mines up to date does not fork against itself**, and one that does not fork mines up to date:
when no blocks arrive and the mined blocks have distinct hashes, whatever the order in which its threads act. -/
theorem mined_chain_iff (hrun : Run (init numWorker g) tr S) (hblocks : ∀ x ∈ tr, arriving x.1 x.2 = [])
    (hdistinct : ((minedBlocks tr).map Block.hash).Nodup) :
    ((∀ x ∈ tr, ∀ b ∈ mined x.1 x.2, x.1.UpToDate ∧ b.hash ≠ g.block.hash) →
        (minedBlocks tr).IsChain Follows) ∧
      ((∀ b ∈ minedBlocks tr, b.hash ≠ g.block.hash) → (minedBlocks tr).IsChain Follows →
        ∀ x ∈ tr, ∀ b ∈ mined x.1 x.2, x.1.UpToDate) := by
  constructor
  · intro h
    have hne : ∀ b ∈ minedBlocks tr, b.hash ≠ g.block.hash := by
      intro b hb
      obtain ⟨x, hx, hmined⟩ := List.mem_filterMap.1 hb
      exact (h x hx b hmined).2
    have hchain := (chain_iff_of_run hrun hblocks hdistinct hne).2 fun x hx b hb => (h x hx b hb).1
    exact hchain.tail
  · intro hne hchain
    refine (chain_iff_of_run hrun hblocks hdistinct hne).1 (hchain.cons ?_)
    obtain ⟨n, -, ⟨-, hfirst⟩ | ⟨inserted, h⟩⟩ := exists_fed hrun hblocks hdistinct hne
    · exact hfirst
    · exact h.first

omit [Crypto]

/-- What a round draws for a block with the hash `nonce`, at a node without transactions. -/
def drawNonce (nonce : UInt32) : Draw := .mining { timestamp := 0, merkleRoot := 0, nonce, order := [] }

/-- The miner reads the tip and goes on. -/
def readTip (order : List H256) : List (ThreadId 1 × Draw) :=
  [(.miner, .tau), (.miner, .order order), (.miner, .tau)]

/-- It tries the nonce, and takes the mutexes of the mempool and of the store. -/
def tryNonce (nonce : UInt32) : List (ThreadId 1 × Draw) :=
  [(.miner, drawNonce nonce), (.miner, .order []), (.miner, .tau)]

/-- It stores the state after the block and sends the block. -/
def sendBlock : List (ThreadId 1 × Draw) := [(.miner, .tau), (.miner, .tau)]

/-- The miner worker takes a block from the channel. -/
def receiveBlock : List (ThreadId 1 × Draw) := [(.minerWorker, .tau)]

/-- It inserts the block and broadcasts it. -/
def insertBlock : List (ThreadId 1 × Draw) :=
  [(.minerWorker, .tau), (.minerWorker, .tau), (.minerWorker, .tau)]

/-- The miner starts, and mines on the genesis block. -/
def mineOnce : List (ThreadId 1 × Draw) :=
  [(.miner, .tau), (.miner, .order [1]), (.api 0, .request (.minerStart 0))] ++ readTip [1] ++
    readTip [1] ++ tryNonce 2 ++ sendBlock

/-- The miner worker has received the block when the miner mines again, but has not inserted it yet. -/
def mineAhead : List (ThreadId 1 × Draw) :=
  mineOnce ++ receiveBlock ++ insertBlock ++ receiveBlock ++ readTip [1] ++ tryNonce 3 ++ sendBlock

/-- **A node forks against itself**: both blocks that it mines are children of the genesis block, although the
channel is empty when the second one is mined. -/
theorem mined_fork :
    letI := sampleCrypto
    let tr := Lts.replayTrace threads.step (init 1 sampleGenesis) mineAhead
    (∃ S, Run (init 1 sampleGenesis) tr S ∧ S.owner .blockchain = none) ∧
      (∀ x ∈ tr, arriving x.1 x.2 = []) ∧
      (sampleGenesis.block.hash :: (minedBlocks tr).map Block.hash).Nodup ∧
      (minedBlocks tr).map Block.getParent = [sampleGenesis.block.hash, sampleGenesis.block.hash] ∧
      ¬ (minedBlocks tr).IsChain Follows :=
  ⟨Lts.exists_run_of_replay (by decide +kernel), by decide +kernel, by decide +kernel,
    by decide +kernel, by decide +kernel⟩

/-- The miner worker inserts the block before the miner goes on. -/
def mineInserted : List (ThreadId 1 × Draw) :=
  mineOnce ++ receiveBlock ++ insertBlock ++ receiveBlock ++ insertBlock ++ readTip [1, 2] ++ tryNonce 3 ++
    sendBlock

/-- Then the second block follows the first. -/
theorem mined_chain_iff_inserted :
    letI := sampleCrypto
    let tr := Lts.replayTrace threads.step (init 1 sampleGenesis) mineInserted
    (minedBlocks tr).map Block.hash = [2, 3] ∧ (minedBlocks tr).IsChain Follows := by
  let _ := sampleCrypto
  obtain ⟨S, hrun, -⟩ := @Lts.exists_run_of_replay _ _ (@threads sampleCrypto).step mineInserted
    (@init sampleCrypto 1 sampleGenesis) (fun S => S.owner .blockchain = none) (by decide +kernel)
  refine ⟨by decide +kernel, (mined_chain_iff hrun (by decide +kernel) (by decide +kernel)).1 ?_⟩
  decide +kernel

end Threads

end BitcoinClient
