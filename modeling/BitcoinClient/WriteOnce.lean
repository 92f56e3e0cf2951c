/-
**When the store is write-once.**

A new block is looked up before it is treated, but an orphan that the search releases is not, and
its hash may have been stored in the meantime: a peer can send a header first with a large length,
so that the block waits for its parent, and then with length 1, so that it is accepted as a genesis
block.  When the parent arrives the orphan replaces the stored block and its state.  This module
proves that nothing else changes an entry, apart from a mined block whose hash is stored already.

Main definitions:

* `BitcoinClient.WritesNew` — a step attaches or mines no block whose hash is stored, and hands no
  block to the store in place of another one;
* `BitcoinClient.Settled` — the stored lengths are those that an insertion would compute again;
* `BitcoinClient.Extends` — the entries of one store are entries of another one.

Main results:

* `BitcoinClient.extends_step` — the step lemma;
* `BitcoinClient.stored_once` — **along such steps no entry changes**;
* `BitcoinClient.orphan_overwrites` — an orphan replaces a stored block.
-/

import BitcoinClient.Provenance

set_option relaxedAutoImplicit false
set_option autoImplicit false

namespace BitcoinClient

variable [Crypto]

/-! ### The condition and the invariant -/

/-- The block that a step attaches, and the one that it mines, has a hash that is not stored; the
block that the miner worker inserts is not stored, or stored as it is. -/
def WritesNew (n : Node) : Event → Prop
  | .worker => ∀ b ∈ n.attached .worker, n.blockchain.getBlock b.hash = none
  | .mine draw => ∀ x ∈ n.computed (.mine draw), n.blockchain.getBlock x.1.hash = none
  | .minerWorker => ∀ b ∈ n.finishedBlockChan.head?,
      n.blockchain.getBlock b.hash = none ∨ n.blockchain.getBlock b.hash = some b
  | _ => True

instance (n : Node) : (e : Event) → Decidable (WritesNew n e)
  | .worker =>
    inferInstanceAs (Decidable (∀ b ∈ n.attached .worker, n.blockchain.getBlock b.hash = none))
  | .mine draw => inferInstanceAs (Decidable
      (∀ x ∈ n.computed (.mine draw), n.blockchain.getBlock x.1.hash = none))
  | .minerWorker => inferInstanceAs (Decidable (∀ b ∈ n.finishedBlockChan.head?,
      n.blockchain.getBlock b.hash = none ∨ n.blockchain.getBlock b.hash = some b))
  | .message _ => inferInstanceAs (Decidable True)
  | .minerStart _ => inferInstanceAs (Decidable True)
  | .minerTip _ => inferInstanceAs (Decidable True)
  | .minerControl _ => inferInstanceAs (Decidable True)
  | .generate _ _ => inferInstanceAs (Decidable True)
  | .signal _ => inferInstanceAs (Decidable True)
  | .ping => inferInstanceAs (Decidable True)

/-- The entries of `c` are entries of `d`. -/
def Extends (c d : Blockchain) : Prop :=
  ∀ h b, c.getBlock h = some b → d.getBlock h = some b ∧ d.getBlockState h = c.getBlockState h

omit [Crypto] in
theorem Extends.refl (c : Blockchain) : Extends c c := fun _ _ hb => ⟨hb, rfl⟩

omit [Crypto] in
theorem Extends.trans {c d e : Blockchain} (h : Extends c d) (h' : Extends d e) : Extends c e := by
  intro hash b hb
  obtain ⟨hd, hs⟩ := h hash b hb
  obtain ⟨he, hs'⟩ := h' hash b hd
  exact ⟨he, hs'.trans hs⟩

/-- Every stored block has the length that inserting it again would compute. -/
def Settled (c : Blockchain) : Prop :=
  ∀ h b, c.getBlock h = some b → 1 < b.length →
    ∃ p, c.getBlock b.getParent = some p ∧ checkedAdd p.length 1 = some b.length

omit [Crypto] in
theorem Settled.eq_length {c : Blockchain} (hc : Settled c) {h : H256} {b : Block} {length : UInt32}
    (hb : c.getBlock h = some b) (hlen : Blockchain.StoredLength c b length) : length = b.length := by
  rcases hlen with ⟨-, hlen⟩ | ⟨hlt, p, hp, hlen⟩
  · exact hlen
  · obtain ⟨p', hp', hlen'⟩ := hc h b hb hlt
    rw [hp, Option.some_inj] at hp'
    rw [← hp', hlen, Option.some_inj] at hlen'
    exact hlen'

/-! ### The writes -/

omit [Crypto] in
theorem extends_putState {c : Blockchain} {h : H256} (hnew : c.getBlock h = none) (s : State) :
    Extends c (c.putState h s) := by
  intro hash b hb
  refine ⟨hb, ?_⟩
  rw [Blockchain.getBlockState_putState, if_neg]
  rintro rfl
  rw [hnew] at hb
  simp at hb

theorem extends_put {c : Blockchain} {block : Block} (hnew : c.getBlock block.hash = none)
    (length : UInt32) : Extends c (c.put block length) := by
  intro hash b hb
  refine ⟨?_, rfl⟩
  rw [Blockchain.getBlock_put, if_neg]
  · exact hb
  · rintro rfl
    rw [hnew] at hb
    simp at hb

/-- Storing a new block. -/
theorem Settled.put {c : Blockchain} (hc : Settled c) {block : Block} {length : UInt32}
    (hnew : c.getBlock block.hash = none) (hlen : Blockchain.StoredLength c block length) :
    Settled (c.put block length) := by
  -- a stored parent is another block than the new one
  have hkeep : ∀ h p, c.getBlock h = some p → (c.put block length).getBlock h = some p :=
    fun h p hp => (extends_put hnew length h p hp).1
  intro h b hb hlt
  rw [Blockchain.getBlock_put] at hb
  split at hb
  · rw [← Option.some_inj.1 hb] at hlt ⊢
    rcases hlen with ⟨hle, rfl⟩ | ⟨-, p, hp, hadd⟩
    · exact absurd hlt (UInt32.not_lt.2 hle)
    · exact ⟨p, hkeep _ p hp, hadd⟩
  · obtain ⟨p, hp, hadd⟩ := hc h b hb hlt
    exact ⟨p, hkeep _ p hp, hadd⟩

theorem settled_new (g : GenesisDraw) : Settled (Blockchain.new g) := by
  intro h b hb hlt
  obtain ⟨-, rfl⟩ := Blockchain.getBlock_new_eq_some.1 hb
  exact absurd hlt (by decide : ¬ (1 : UInt32) < 1)

/-! ### Steps and runs -/

/-- **The step lemma.** -/
theorem extends_step {n n' : Node} {e : Event} (hs : Settled n.blockchain) (hw : WritesNew n e)
    (hstep : n.step e = some n') :
    Settled n'.blockchain ∧ Extends n.blockchain n'.blockchain := by
  have hc := Node.core_step hstep
  have hs' : Settled n.core.chain := hs
  have hsame : Settled n.core.chain ∧ Extends n.core.chain n.core.chain := ⟨hs', Extends.refl _⟩
  show Settled n'.core.chain ∧ Extends n.core.chain n'.core.chain
  generalize n'.core = c' at hc
  cases hc with
  | other => exact hsame
  | pcMove _ => exact hsame
  | readTip _ _ _ _ => exact hsame
  | panic _ _ => exact hsame
  | take _ => exact hsame
  | skip _ => exact hsame
  | park _ _ _ _ => exact hsame
  | reject _ _ => exact hsame
  | cleanup _ _ _ => exact hsame
  | @genesis block rest hs _ hnew _ hlen =>
      refine ⟨hs'.put hnew (Blockchain.storedLength_of_eq_one hlen), ?_⟩
      intro h b hb
      obtain ⟨hput, -⟩ := extends_put hnew block.length h b hb
      refine ⟨hput, ?_⟩
      exact (extends_putState hnew icoState h b hb).2
  | @attach block parent lock p newState v length hat hv hp he hlen =>
      have hnew : n.core.chain.getBlock block.hash = none := hw block (hat.attached_eq hv)
      have hset : Settled (n.core.chain.putState block.hash newState) := hs'
      have hnew' : (n.core.chain.putState block.hash newState).getBlock block.hash = none := hnew
      refine ⟨hset.put hnew hlen, ?_⟩
      exact (extends_putState hnew newState).trans (extends_put hnew' length)
  | halfAttach hat hv _ _ =>
      have hnew := hw _ (hat.attached_eq hv)
      exact ⟨hs', extends_putState hnew _⟩
  | mined hlock hpc hb hle hp he =>
      have hnew := hw _ (Node.computed_mine hlock hpc hb hle hp he)
      exact ⟨hs', extends_putState hnew _⟩
  | @insertMined block chan length _ hchan hlen =>
      have hchan' : n.finishedBlockChan = block :: chan := hchan
      have hcase := hw block (by rw [hchan']; rfl)
      rcases hcase with hnew | hold
      · exact ⟨hs'.put hnew hlen, extends_put hnew length⟩
      · -- the stored block is written once more
        rw [Blockchain.put_eq_self (hs'.eq_length hold hlen ▸ hold)]
        exact ⟨hs', Extends.refl _⟩

/-- **No entry of the store changes** along steps that write new entries only. -/
theorem stored_once {g : GenesisDraw} {tr₁ tr₂ : List (Node × Event)} {m n : Node}
    (hrun₁ : Node.Run (Node.init g) tr₁ m) (hrun₂ : Node.Run m tr₂ n)
    (hw : ∀ x ∈ tr₁ ++ tr₂, WritesNew x.1 x.2) {h : H256} {b : Block}
    (hb : m.blockchain.getBlock h = some b) :
    n.blockchain.getBlock h = some b ∧
      n.blockchain.getBlockState h = m.blockchain.getBlockState h := by
  have hinv : Settled m.blockchain := by
    refine hrun₁.invariant (settled_new g) (fun _ _ _ hs hw hstep => (extends_step hs hw hstep).1) ?_
    exact fun x hx => hw x (List.mem_append_left _ hx)
  have hext : Extends m.blockchain n.blockchain := by
    refine hrun₂.relation (R := fun m n : Node => Extends m.blockchain n.blockchain) hinv
      (fun _ _ _ hs hw hstep => (extends_step hs hw hstep).1)
      (fun _ => Extends.refl _) (fun _ _ _ => Extends.trans)
      (fun _ _ _ hs hw hstep => (extends_step hs hw hstep).2) ?_
    exact fun x hx => hw x (List.mem_append_right _ hx)
  exact hext h b hb

/-! ### An orphan in place of a stored block -/

omit [Crypto]

/-- Two blocks with one header: one with length 5 and a transaction, one with length 1 and none. -/
def lateChild : Block := sampleBlock 2 3 5 [sampleTransaction 0 1 1 40]

def earlyChild : Block := sampleBlock 2 3 1 []

/-- A node receives `lateChild`, which waits for its parent, and then `earlyChild`, which it accepts
as a genesis block. -/
def receiveChildren : List Event :=
  [.message (.blocks [lateChild]), .worker, .worker, .message (.blocks [earlyChild]), .worker,
    .worker]

/-- The node receives the parent of the two. -/
def receiveParent : List Event := [.message (.blocks [sampleBlock 1 2 2 []]), .worker, .worker]

/-- **An orphan replaces a stored block**, its length, its transactions and its state; the headers
that the node has seen have different hashes. -/
theorem orphan_overwrites :
    letI := sampleCrypto
    CollisionFree (introduced sampleGenesis
        (Lts.replayTrace Node.step (Node.init sampleGenesis) (receiveChildren ++ receiveParent))) ∧
      ∃ m, Node.Run (Node.init sampleGenesis)
          (Lts.replayTrace Node.step (Node.init sampleGenesis) receiveChildren) m ∧
        m.blockchain.getBlock 3 = some earlyChild ∧
        m.blockchain.getBlockState 3 = some icoState ∧
        ∃ n, Node.Run m (Lts.replayTrace Node.step m receiveParent) n ∧
          n.blockchain.getBlock 3 = some { lateChild with length := 3 } ∧
          n.blockchain.getBlockState 3 ≠ some icoState := by
  refine ⟨by decide +kernel, ?_⟩
  obtain ⟨m, hrun, hb, hs, n, hn, hb', hs'⟩ := @Lts.exists_run_of_replay _ _
    (@Node.step sampleCrypto) receiveChildren (@Node.init sampleCrypto sampleGenesis)
    (fun m => m.blockchain.getBlock 3 = some earlyChild ∧
      m.blockchain.getBlockState 3 = some (@icoState sampleCrypto) ∧
      ∃ n ∈ Lts.replay (@Node.step sampleCrypto) m receiveParent,
        n.blockchain.getBlock 3 = some { lateChild with length := 3 } ∧
        n.blockchain.getBlockState 3 ≠ some (@icoState sampleCrypto)) (by decide +kernel)
  exact ⟨m, hrun, hb, hs, n, Lts.run_of_replay hn, hb', hs'⟩

/-- A node receives a block whose parent is stored. -/
def receiveChild (b : Block) : List Event := [.message (.blocks [b]), .worker, .worker, .worker]

/-- A node that receives the parent and then the child. -/
theorem stored_once_child :
    letI := sampleCrypto
    ∃ m, m.blockchain.getBlock 2 = some (sampleBlock 1 2 2 []) ∧
      ∃ n, Node.Run m (Lts.replayTrace Node.step m (receiveChild lateChild)) n ∧
        n.blockchain.getBlock 2 = some (sampleBlock 1 2 2 []) := by
  obtain ⟨m, hrun, hb, n, hn, hw⟩ := @Lts.exists_run_of_replay _ _
    (@Node.step sampleCrypto) (receiveChild (sampleBlock 1 2 2 []))
    (@Node.init sampleCrypto sampleGenesis)
    (fun m => m.blockchain.getBlock 2 = some (sampleBlock 1 2 2 []) ∧
      ∃ n ∈ Lts.replay (@Node.step sampleCrypto) m (receiveChild lateChild),
        ∀ x ∈ Lts.replayTrace (@Node.step sampleCrypto) (@Node.init sampleCrypto sampleGenesis)
            (receiveChild (sampleBlock 1 2 2 [])) ++
              Lts.replayTrace (@Node.step sampleCrypto) m (receiveChild lateChild),
          @WritesNew sampleCrypto x.1 x.2) (by decide +kernel)
  exact ⟨m, hb, n, Lts.run_of_replay hn,
    (@stored_once sampleCrypto _ _ _ _ _ hrun (Lts.run_of_replay hn) hw _ _ hb).1⟩

end BitcoinClient
