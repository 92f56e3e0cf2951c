/-
**Lengths and the longest chain.**

The length of a block is not part of its header, and a peer can put any number there.  The store
recomputes a length above 1 from the parent, and keeps 0 and 1.  So no stored block ever claims more
than the number of stored blocks below it, whatever is received.  But a stored length can go down:
a header that was stored with length 1 can be released from the orphan buffer once more with length
0, and then its descendants are recomputed to less when they are released again.  This module proves
that this is the only way.

Main definitions:

* `BitcoinClient.Blockchain.lengthAt` — the length stored at a hash, zero when there is none;
* `BitcoinClient.Deep` — every stored block has as many stored blocks below it as it claims;
* `BitcoinClient.Lengths` — the invariant of the lengths of a node;
* `BitcoinClient.KeepsLengths` — a step releases no orphan with length 0 whose hash is stored.

Main results:

* `BitcoinClient.deep_of_run`, `BitcoinClient.lengths_step` — the two invariants;
* `BitcoinClient.lengths_honest` — **no length is inflated**, and the length of the tip never goes
  down along steps that meet `KeepsLengths`;
* `BitcoinClient.tip_shrinks` — a step after which the tip is shorter.
-/

import BitcoinClient.Pointers
import BitcoinClient.Provenance

set_option relaxedAutoImplicit false
set_option autoImplicit false

namespace BitcoinClient

variable [Crypto]

/-! ### Walks and lengths -/

namespace Blockchain

/-- The parent hash of the block stored at a hash. -/
def parentAt (c : Blockchain) (h : H256) : Option H256 := (c.getBlock h).map Block.getParent

/-- The length of the block stored at a hash. -/
def lengthAt (c : Blockchain) (h : H256) : ℕ := ((c.getBlock h).map fun b => b.length.toNat).getD 0

omit [Crypto] in
theorem walk_eq (c : Blockchain) : ∀ (k : ℕ) (h : H256), c.walk k h = Pointers.walk c.parentAt k h := by
  intro k
  induction k with
  | zero => intro h; rfl
  | succ k ih =>
      intro h
      rw [walk, Pointers.walk, parentAt]
      cases c.getBlock h with
      | none => rfl
      | some b => simp only [Option.map_some, ih]

omit [Crypto] in
theorem parentAt_of_getBlock {c : Blockchain} {h : H256} {b : Block} (hb : c.getBlock h = some b) :
    c.parentAt h = some b.getParent := by
  rw [parentAt, hb, Option.map_some]

omit [Crypto] in
theorem lengthAt_of_getBlock {c : Blockchain} {h : H256} {b : Block} (hb : c.getBlock h = some b) :
    c.lengthAt h = b.length.toNat := by
  rw [lengthAt, hb, Option.map_some, Option.getD_some]

omit [Crypto] in
theorem lengthAt_of_none {c : Blockchain} {h : H256} (hb : c.getBlock h = none) :
    c.lengthAt h = 0 := by
  rw [lengthAt, hb, Option.map_none, Option.getD_none]

theorem lengthAt_put (c : Blockchain) (block : Block) (length : UInt32) (h : H256) :
    (c.put block length).lengthAt h = if h = block.hash then length.toNat else c.lengthAt h := by
  rw [lengthAt, getBlock_put]
  split
  · rfl
  · rfl

omit [Crypto] in
/-- A stored length is at most one more than that of the parent. -/
theorem StoredLength.le_lengthAt {c : Blockchain} {block : Block} {length : UInt32}
    (h : StoredLength c block length) : length.toNat ≤ c.lengthAt block.getParent + 1 := by
  rcases h with ⟨hle, rfl⟩ | ⟨-, p, hp, hadd⟩
  · have hle' : block.length.toNat ≤ 1 := UInt32.le_iff_toNat_le.1 hle
    omega
  · rw [lengthAt_of_getBlock hp, toNat_of_checkedAdd hadd]
    exact le_rfl

omit [Crypto] in
/-- A length that is recomputed is one more than that of the parent. -/
theorem StoredLength.eq_lengthAt {c : Blockchain} {block : Block} {length : UInt32}
    (h : StoredLength c block length) (hlt : 1 < block.length) :
    length.toNat = c.lengthAt block.getParent + 1 := by
  rcases h with ⟨hle, -⟩ | ⟨-, p, hp, hadd⟩
  · exact absurd hlt (UInt32.not_lt.2 hle)
  · rw [lengthAt_of_getBlock hp, toNat_of_checkedAdd hadd]
    rfl

end Blockchain

/-! ### No inflation -/

/-- Every stored block has as many stored blocks on the walk from it as its length says. -/
def Deep (c : Blockchain) : Prop :=
  ∀ h b, c.getBlock h = some b →
    (Pointers.walk c.parentAt b.length.toNat h).length = b.length.toNat

/-- Storing a block, in place of one with the same header if its hash is stored. -/
theorem Deep.put {c : Blockchain} (hc : Deep c) {block : Block} {length : UInt32}
    (hsame : ∀ b, c.getBlock block.hash = some b → b.getParent = block.getParent)
    (hlen : Blockchain.StoredLength c block length) : Deep (c.put block length) := by
  have hext : ∀ h p, c.parentAt h = some p → (c.put block length).parentAt h = some p := by
    intro h p hp
    rw [Blockchain.parentAt, Option.map_eq_some_iff] at hp
    obtain ⟨b, hb, rfl⟩ := hp
    rw [Blockchain.parentAt, Blockchain.getBlock_put]
    split
    · rename_i hh
      rw [hh] at hb
      rw [Option.map_some, hsame b hb]
      rfl
    · rw [hb, Option.map_some]
  have hkeep : ∀ h b, c.getBlock h = some b →
      (Pointers.walk (c.put block length).parentAt b.length.toNat h).length = b.length.toNat := by
    intro h b hb
    exact Pointers.length_walk_of_extends hext (hc h b hb)
  have hself : (c.put block length).parentAt block.hash = some block.getParent := by
    refine Blockchain.parentAt_of_getBlock (b := { block with length := length }) ?_
    rw [Blockchain.getBlock_put, if_pos rfl]
  intro h b hb
  rw [Blockchain.getBlock_put] at hb
  split at hb
  · rename_i hh
    rw [← Option.some_inj.1 hb, hh]
    rcases hlen with ⟨hle, rfl⟩ | ⟨-, p, hp, hadd⟩
    · have hle' : block.length.toNat ≤ 1 := UInt32.le_iff_toNat_le.1 hle
      rcases Nat.lt_or_ge 0 block.length.toNat with hpos | hzero
      · have hone : block.length.toNat = 1 := by omega
        rw [hone, Pointers.walk_succ_of_some hself]
        rfl
      · have hnil : block.length.toNat = 0 := by omega
        rw [hnil]
        rfl
    · -- the walk from the parent, and one more
      have hsucc : length.toNat = p.length.toNat + 1 := toNat_of_checkedAdd hadd
      have hp' := hkeep _ p hp
      show (Pointers.walk _ length.toNat block.hash).length = length.toNat
      rw [hsucc, Pointers.walk_succ_of_some hself, List.length_cons, hp']
  · exact hkeep h b hb

theorem deep_new (g : GenesisDraw) : Deep (Blockchain.new g) := by
  intro h b hb
  obtain ⟨-, rfl⟩ := Blockchain.getBlock_new_eq_some.1 hb
  show (Pointers.walk _ 1 h).length = 1
  rw [Pointers.walk_succ_of_some (Blockchain.parentAt_of_getBlock hb)]
  rfl

/-- A block of the list has the parent of the stored block with its hash. -/
theorem Known.getParent_eq {B : List Block} {c : Core} (hknown : Known B c)
    (hfree : CollisionFree B) {block b : Block} (hblock : OneOf B block)
    (hb : c.chain.getBlock block.hash = some b) : b.header = block.header :=
  hfree.header_eq (hknown.all.stored _ b hb) hblock (hknown.hash _ b hb)

theorem deep_step {B : List Block} {n n' : Node} {e : Event} (h : Deep n.blockchain)
    (hknown : Known B n.core) (hfree : CollisionFree B) (hstep : n.step e = some n') :
    Deep n'.blockchain := by
  have hc := Node.core_step hstep
  have h' : Deep n.core.chain := h
  show Deep n'.core.chain
  generalize n'.core = c' at hc
  cases hc with
  | @genesis block rest hs hlock hnew hpar hlen =>
      have hsame : ∀ b, n.core.chain.getBlock block.hash = some b →
          b.getParent = block.getParent := by
        intro b hb
        rw [hnew] at hb
        simp at hb
      have hput := Deep.put h' hsame (Blockchain.storedLength_of_eq_one hlen)
      exact hput
  | @attach block parent lock p newState v length hat hv hp he hlen =>
      have hset : Deep (n.core.chain.putState block.hash newState) := h'
      refine Deep.put hset (fun b hb => ?_) hlen
      exact Block.getParent_congr
        (hknown.getParent_eq hfree (OneOf.of_mem (hknown.atHand hat).1) hb)
  | @insertMined block chan length _ hchan hlen =>
      have hall := hknown.all.chan
      rw [hchan] at hall
      refine Deep.put h' (fun b hb => ?_) hlen
      exact Block.getParent_congr (hknown.getParent_eq hfree (hall block (List.mem_cons_self ..)) hb)
  | halfAttach _ _ _ _ => exact h'
  | mined _ _ _ _ _ _ => exact h'
  | _ => exact h'

/-- **No stored block claims more than the stored blocks below it.** -/
theorem deep_of_run {g : GenesisDraw} {tr : List (Node × Event)} {n : Node}
    (hrun : Node.Run (Node.init g) tr n) (hfree : CollisionFree (introduced g tr)) :
    Deep n.blockchain := by
  refine hrun.invariant (I := fun m : Node => Deep m.blockchain)
    (C := fun m _ => Known (introduced g tr) m.core) (deep_new g) ?_ ?_
  · exact fun m e m' h hknown hstep => deep_step h hknown hfree hstep
  · exact fun x hx => known_of_mem hrun hx

/-! ### The genesis block of a node -/

/-- The block that the miner re-sends is the genesis block `g`, and the block it mines on has a
positive length. -/
def MinesOn (g : Block) : MinerPc → Prop
  | .loopHead b => b = g
  | .control b p => b = g ∧ 1 ≤ p.length.toNat
  | .mining b p => b = g ∧ 1 ≤ p.length.toNat
  | _ => True

/-- A step takes no `Blocks` message before the miner has read the tip, and mines no block with the
header of the genesis block `g`. -/
def StartsMining (g : Block) (n : Node) (e : Event) : Prop :=
  (e.blocks ≠ [] → n.miner.pc ≠ .start) ∧ ∀ b ∈ n.mined e, b.header ≠ g.header

/-- A mined block has another header than the genesis block when no block of the run has the hash
of the genesis block's parent. -/
theorem startsMining_of_parent {g : Block} {B : List Block} {n : Node} {e : Event}
    (hknown : Known B n.core) (hparent : ∀ x ∈ B, x.hash ≠ g.getParent)
    (hstart : e.blocks ≠ [] → n.miner.pc ≠ .start) : StartsMining g n e := by
  refine ⟨hstart, fun b hb hheader => ?_⟩
  obtain ⟨draw, g', parent, block, p, s, v, -, -, hpc, hblock, -, -, -, rfl⟩ := Node.mined_iff.1 hb
  have hpcs := hknown.all.pc
  rw [hpc] at hpcs
  obtain ⟨x, hx, hxh, -⟩ := hpcs parent (List.mem_cons_of_mem _ (List.mem_cons_self ..))
  refine hparent x hx ?_
  rw [← Block.hash_congr hxh, ← MiningDraw.getParent_block hblock]
  exact Block.getParent_congr hheader

/-- The genesis block `g` of a node stays as it is, and is the one that the miner re-sends. -/
structure OwnGenesis (g : Block) (c : Core) : Prop where
  own : c.chain.getBlock g.hash = some g
  orphans : ∀ b ∈ c.orphans, b.length ≠ 1 ∧ b.hash ≠ g.hash
  chan : ∀ b ∈ c.chan, b = g ∨ (1 < b.length ∧ b.header ≠ g.header)
  pc : MinesOn g c.pc
  fresh : c.pc = .start → (∀ h b, c.chain.getBlock h = some b → b = g) ∧ c.chan = [] ∧
    c.lock.blocks = []

namespace OwnGenesis

variable {g : Block} {c : Core}

theorem own_put (h : OwnGenesis g c) {block : Block} (hne : block.hash ≠ g.hash)
    (length : UInt32) : (c.chain.put block length).getBlock g.hash = some g := by
  rw [Blockchain.getBlock_put, if_neg (fun hh => hne hh.symm)]
  exact h.own

/-- The hash of a block at hand is not that of the genesis block. -/
theorem hash_ne_of_atHand (h : OwnGenesis g c) {block parent : Block} {lock : ChainLock}
    (hat : AtHand c block parent lock) : block.hash ≠ g.hash := by
  cases hat with
  | direct _ hnew _ => exact Blockchain.ne_of_getBlock h.own hnew
  | orphan _ hf => exact (h.orphans block (mem_of_findChild hf).1).2

/-- A network worker only holds the store when the miner has started. -/
theorem pc_ne_start_of_atHand (h : OwnGenesis g c) {block parent : Block} {lock : ChainLock}
    (hat : AtHand c block parent lock) : c.pc ≠ .start := by
  intro hpc
  have hlock := (h.fresh hpc).2.2
  cases hat with
  | direct hl _ _ => simp [hl, ChainLock.blocks] at hlock
  | orphan hl _ => simp [hl, ChainLock.blocks] at hlock

/-- While the miner has not started the mutex holds no blocks. -/
theorem pc_ne_start_of_lock (h : OwnGenesis g c) {block : Block} {rest : List Block}
    {hs : List H256} (hlock : c.lock = .held (block :: rest) hs) : c.pc ≠ .start := by
  intro hpc
  have hempty := (h.fresh hpc).2.2
  simp [hlock, ChainLock.blocks] at hempty

/-- The tip has a positive length, and is the genesis block as long as the miner has not started. -/
theorem tip (h : OwnGenesis g c) (hone : g.length = 1) {order : List H256}
    (horder : Blockchain.IterOrder c.chain.blocks order) {tipBlock : Block}
    (htip : c.chain.getBlock (c.chain.tip order) = some tipBlock) :
    1 ≤ tipBlock.length.toNat ∧ (c.pc = .start → tipBlock = g) :=
  ⟨Blockchain.one_le_length_tip horder h.own hone htip, fun hpc => (h.fresh hpc).1 _ _ htip⟩

/-- A panic that writes nothing. -/
theorem panic (h : OwnGenesis g c) {pc : MinerPc} {chan : List Block}
    (hpc : pc = c.pc ∨ pc = .stopped) (hchan : chan = c.chan ∨ chan = c.chan.tail) :
    OwnGenesis g { c with lock := .poisoned, pc, chan } := by
  have hsub := chan_subset_of_panic hchan
  have hmines : MinesOn g pc := by
    rcases hpc with rfl | rfl
    · exact h.pc
    · trivial
  refine { h with pc := hmines, chan := fun b hb => h.chan b (hsub hb), fresh := ?_ }
  intro hstart
  rcases hpc with hpc | hpc
  · obtain ⟨hstored, hempty, -⟩ := h.fresh (hpc ▸ hstart)
    rw [hempty] at hsub
    exact ⟨hstored, List.subset_nil.1 hsub, rfl⟩
  · exact absurd (hpc.symm.trans hstart) (by simp)

/-- Mining a block whose header is not that of the genesis block. -/
theorem mined (h : OwnGenesis g c) {draw : MiningDraw} {b p block : Block} {s : State}
    {v : List SignedTransaction} (hpc : c.pc = .mining b p) (hblock : draw.block p = some block)
    (hheader : block.header ≠ g.header) :
    OwnGenesis g
      { c with chain := c.chain.putState block.hash s
               chan := c.chan ++ (if block.getParent = b.hash then [b] else []) ++
                 [{ block with data := v }]
               pc := .loopHead b } := by
  have hmines := h.pc
  rw [hpc] at hmines
  obtain ⟨rfl, hlen⟩ := hmines
  have hlong : 1 < block.length := by
    have hadd := toNat_of_checkedAdd (MiningDraw.block_eq_some hblock).1
    rw [UInt32.lt_iff_toNat_lt, hadd]
    show 1 < p.length.toNat + 1
    omega
  refine { h with chan := fun b' hb' => ?_, pc := rfl, fresh := fun hstart => by simp at hstart }
  rcases mem_chan_of_mined hb' with hb' | rfl | rfl
  · exact h.chan b' hb'
  · exact Or.inl rfl
  · exact Or.inr ⟨hlong, hheader⟩

/-- The miner worker inserts a block: the genesis block, with its own length, or another one. -/
theorem insertMined (h : OwnGenesis g c) (hone : g.length = 1) {block : Block} {chan : List Block}
    {length : UInt32} (hchan : c.chan = block :: chan)
    (hheader : block.hash = g.hash → block.header = g.header)
    (hlen : Blockchain.StoredLength c.chain block length) :
    OwnGenesis g { c with chain := c.chain.put block length, chan } := by
  have hall := h.chan
  rw [hchan] at hall
  have hfresh : c.pc ≠ .start := by
    intro hstart
    have hempty := (h.fresh hstart).2.1
    simp [hchan] at hempty
  have hown : (c.chain.put block length).getBlock g.hash = some g := by
    rcases hall block (List.mem_cons_self ..) with rfl | ⟨-, hne⟩
    · have hkeep : length = block.length := by
        rcases hlen with ⟨-, hlen⟩ | ⟨hlt, -⟩
        · exact hlen
        · rw [hone] at hlt
          exact absurd hlt (by decide)
      rw [Blockchain.getBlock_put, if_pos rfl, hkeep]
    · exact h.own_put (fun hh => hne (hheader hh)) _
  exact { h with own := hown, chan := fun b hb => hall b (List.mem_cons_of_mem _ hb),
                 fresh := fun hstart => absurd hstart hfresh }

end OwnGenesis

omit [Crypto] in
theorem MinesOn.tipRead {g tipBlock : Block} {pc pc' : MinerPc} (h : MinesOn g pc)
    (hlen : 1 ≤ tipBlock.length.toNat) (hstart : pc = .start → tipBlock = g)
    (hpc : TipRead tipBlock pc pc') : MinesOn g pc' := by
  cases hpc with
  | start => exact hstart rfl
  | loopHead b => exact ⟨h, hlen⟩
  | update b p => exact ⟨h.1, hlen⟩

omit [Crypto] in
theorem MinesOn.move {g : Block} {pc pc' : MinerPc} (h : MinesOn g pc) (hpc : PcMove pc pc') :
    MinesOn g pc' := by
  cases hpc with
  | wait b p => exact h.1
  | run b p => exact h
  | miss b p => exact h.1
  | stop pc => trivial

omit [Crypto] in
theorem TipRead.ne_start {tipBlock : Block} {pc pc' : MinerPc} (h : TipRead tipBlock pc pc') :
    pc' ≠ .start := by
  cases h <;> simp

omit [Crypto] in
theorem PcMove.ne_start {pc pc' : MinerPc} (h : PcMove pc pc') : pc' ≠ .start := by
  cases h <;> simp

/-- **The step lemma for the genesis block.** -/
theorem ownGenesis_step {g : Block} {B : List Block} {n n' : Node} {e : Event}
    (h : OwnGenesis g n.core) (hone : g.length = 1) (hknown : Known B n.core)
    (hfree : CollisionFree B) (hg : g ∈ B) (hs : StartsMining g n e)
    (hstep : n.step e = some n') : OwnGenesis g n'.core := by
  have hc := Node.core_step hstep
  generalize n'.core = c' at hc
  cases hc with
  | other => exact h
  | pcMove hpc =>
      exact { h with pc := h.pc.move hpc, fresh := fun hstart => absurd hstart hpc.ne_start }
  | readTip hlock horder htip hpc =>
      obtain ⟨hlen, hstart⟩ := h.tip hone horder htip
      exact { h with pc := h.pc.tipRead hlen hstart hpc,
                     fresh := fun hstart => absurd hstart hpc.ne_start }
  | panic hpc hchan => exact h.panic hpc hchan
  | @take bs hlock =>
      refine { h with fresh := fun hstart => ⟨(h.fresh hstart).1, (h.fresh hstart).2.1, ?_⟩ }
      by_contra hne
      exact hs.1 hne hstart
  | skip hlock =>
      refine { h with fresh := fun hstart => ⟨(h.fresh hstart).1, (h.fresh hstart).2.1, ?_⟩ }
      rcases hlock with ⟨hs', -, rfl⟩ | ⟨block, rest, hs', hl, -, -⟩
      · rfl
      · exact absurd hstart (h.pc_ne_start_of_lock hl)
  | @genesis block rest hs' hlock hnew _ _ =>
      have hne := Blockchain.ne_of_getBlock h.own hnew
      exact { h with own := h.own_put hne _,
                     fresh := fun hstart => absurd hstart (h.pc_ne_start_of_lock hlock) }
  | @park block rest hs' hlock hnew _ hlen =>
      have hne := Blockchain.ne_of_getBlock h.own hnew
      refine { h with orphans := fun b hb => ?_,
                      fresh := fun hstart => absurd hstart (h.pc_ne_start_of_lock hlock) }
      rcases List.mem_append.1 hb with hb | hb
      · exact h.orphans b hb
      · rw [List.mem_singleton.1 hb]
        exact ⟨hlen, hne⟩
  | reject hat _ =>
      exact { h with fresh := fun hstart => absurd hstart (h.pc_ne_start_of_atHand hat) }
  | attach hat _ _ _ _ =>
      exact { h with own := h.own_put (h.hash_ne_of_atHand hat) _,
                     fresh := fun hstart => absurd hstart (h.pc_ne_start_of_atHand hat) }
  | halfAttach hat _ _ _ =>
      exact { h with fresh := fun hstart => absurd hstart (h.pc_ne_start_of_atHand hat) }
  | cleanup hlock _ hclean =>
      refine { h with orphans := fun b hb => ?_, fresh := fun hstart => ?_ }
      · exact h.orphans b (subset_of_removeAll (hclean.imp And.left And.left) b hb)
      · have hempty := (h.fresh hstart).2.2
        simp [hlock, ChainLock.blocks] at hempty
  | @mined draw b p block parentState newState validTx hlock hpc hb hle hp he =>
      have hheader := hs.2 _ (Node.mined_iff.2
        ⟨_, _, _, _, _, _, _, rfl, hlock, hpc, hb, hle, hp, he, rfl⟩)
      exact h.mined hpc hb hheader
  | @insertMined block chan length _ hchan hlen =>
      have hones := hknown.all.chan
      rw [hchan] at hones
      exact h.insertMined hone hchan
        (hfree.header_eq (hones block (List.mem_cons_self ..)) (OneOf.of_mem hg)) hlen

theorem ownGenesis_init (g : GenesisDraw) : OwnGenesis g.block (Node.init g).core where
  own := Blockchain.getBlock_new_self g
  orphans _ hb := absurd hb List.not_mem_nil
  chan _ hb := absurd hb List.not_mem_nil
  pc := trivial
  fresh _ := ⟨fun _ _ hb => (Blockchain.getBlock_new_eq_some.1 hb).2.symm, rfl, rfl⟩

/-! ### Lengths that go up -/

/-- A step releases no orphan of length 0 whose hash is stored. -/
def KeepsLengths (n : Node) (e : Event) : Prop :=
  ∀ b ∈ n.attached e, b.length = 0 → n.blockchain.getBlock b.hash = none

instance (n : Node) (e : Event) : Decidable (KeepsLengths n e) :=
  inferInstanceAs (Decidable (∀ b ∈ n.attached e, _))

/-- A stored length is at most one more than that of the parent, or at most 1 when the parent is
not stored. -/
def Lengths (c : Blockchain) : Prop :=
  ∀ h b, c.getBlock h = some b → b.length.toNat ≤ c.lengthAt b.getParent + 1

/-- No stored length goes down. -/
def LengthsGrow (c d : Blockchain) : Prop := ∀ h, c.lengthAt h ≤ d.lengthAt h

/-- Storing a block with a length that is not below the one stored before. -/
theorem Lengths.put {c : Blockchain} (hc : Lengths c) {block : Block} {length : UInt32}
    (hle : c.lengthAt block.hash ≤ length.toNat)
    (hparent : length.toNat ≤ c.lengthAt block.getParent + 1) :
    Lengths (c.put block length) ∧ LengthsGrow c (c.put block length) := by
  have hgrow : LengthsGrow c (c.put block length) := by
    intro h
    rw [Blockchain.lengthAt_put]
    split
    · rename_i hh
      rw [hh]
      exact hle
    · exact le_rfl
  refine ⟨fun h b hb => ?_, hgrow⟩
  rw [Blockchain.getBlock_put] at hb
  split at hb
  · rw [← Option.some_inj.1 hb]
    have hup := hgrow block.getParent
    show length.toNat ≤ (c.put block length).lengthAt block.getParent + 1
    omega
  · have hup := hgrow b.getParent
    have hbound := hc h b hb
    omega

/-- A length that is recomputed is not below the one stored before. -/
theorem Lengths.le_recomputed {c : Blockchain} (hc : Lengths c) {block : Block} {length : UInt32}
    (hsame : ∀ b, c.getBlock block.hash = some b → b.getParent = block.getParent)
    (hlen : Blockchain.StoredLength c block length) (hlt : 1 < block.length) :
    c.lengthAt block.hash ≤ length.toNat := by
  rw [hlen.eq_lengthAt hlt]
  cases hb : c.getBlock block.hash with
  | none =>
      rw [Blockchain.lengthAt_of_none hb]
      exact Nat.zero_le _
  | some b =>
      have hbound := hc _ b hb
      rw [hsame b hb] at hbound
      rw [Blockchain.lengthAt_of_getBlock hb]
      exact hbound

omit [Crypto] in
theorem one_lt_of_ne {l : UInt32} (hzero : l ≠ 0) (hone : l ≠ 1) : 1 < l := by
  have hzero' : l.toNat ≠ 0 := fun h => hzero (UInt32.toNat_inj.1 h)
  have hone' : l.toNat ≠ 1 := fun h => hone (UInt32.toNat_inj.1 h)
  rw [UInt32.lt_iff_toNat_lt]
  show 1 < l.toNat
  omega

/-- **The step lemma for the lengths.** -/
theorem lengths_step {g : Block} {B : List Block} {n n' : Node} {e : Event}
    (h : Lengths n.blockchain) (hown : OwnGenesis g n.core) (hone : g.length = 1)
    (hknown : Known B n.core) (hfree : CollisionFree B) (hk : KeepsLengths n e)
    (hstep : n.step e = some n') :
    Lengths n'.blockchain ∧ LengthsGrow n.blockchain n'.blockchain := by
  have hc := Node.core_step hstep
  have h' : Lengths n.core.chain := h
  have hsame : Lengths n.core.chain ∧ LengthsGrow n.core.chain n.core.chain :=
    ⟨h', fun _ => le_rfl⟩
  show Lengths n'.core.chain ∧ LengthsGrow n.core.chain n'.core.chain
  generalize n'.core = c' at hc
  cases hc with
  | @genesis block rest hs _ hnew _ hlen =>
      have hzero : n.core.chain.lengthAt block.hash ≤ block.length.toNat := by
        rw [Blockchain.lengthAt_of_none hnew]
        exact Nat.zero_le _
      have hput := h'.put hzero (Blockchain.storedLength_of_eq_one hlen).le_lengthAt
      exact hput
  | @attach block parent lock p newState v length hat hv hp he hlen =>
      have hlen' : Blockchain.StoredLength n.core.chain block length := hlen
      have hle : n.core.chain.lengthAt block.hash ≤ length.toNat := by
        cases hb : n.core.chain.getBlock block.hash with
        | none =>
            rw [Blockchain.lengthAt_of_none hb]
            exact Nat.zero_le _
        | some b =>
            -- the hash is stored, so the block comes from the orphan buffer
            have hzero : block.length ≠ 0 := by
              intro hzero
              have hnone := hk block (hat.attached_eq hv) hzero
              have hb' : n.blockchain.getBlock block.hash = some b := hb
              rw [hnone] at hb'
              simp at hb'
            have hone' : block.length ≠ 1 := by
              cases hat with
              | direct _ hnew _ =>
                  rw [hnew] at hb
                  simp at hb
              | orphan _ hf => exact (hown.orphans block (mem_of_findChild hf).1).1
            refine h'.le_recomputed (fun b hb => ?_) hlen' (one_lt_of_ne hzero hone')
            exact Block.getParent_congr
              (hknown.getParent_eq hfree (OneOf.of_mem (hknown.atHand hat).1) hb)
      have hput := h'.put hle hlen'.le_lengthAt
      exact hput
  | @insertMined block chan length _ hchan hlen =>
      have hall := hown.chan
      rw [hchan] at hall
      have hones := hknown.all.chan
      rw [hchan] at hones
      have hle : n.core.chain.lengthAt block.hash ≤ length.toNat := by
        rcases hall block (List.mem_cons_self ..) with rfl | ⟨hlong, -⟩
        · rw [Blockchain.lengthAt_of_getBlock hown.own]
          rcases hlen with ⟨-, hlen⟩ | ⟨hlt, -⟩
          · rw [hlen]
          · rw [hone] at hlt
            exact absurd hlt (by decide)
        · refine h'.le_recomputed (fun b hb => ?_) hlen hlong
          exact Block.getParent_congr
            (hknown.getParent_eq hfree (hones block (List.mem_cons_self ..)) hb)
      exact h'.put hle hlen.le_lengthAt
  | halfAttach _ _ _ _ => exact hsame
  | mined _ _ _ _ _ _ => exact hsame
  | _ => exact hsame

theorem lengths_new (g : GenesisDraw) : Lengths (Blockchain.new g) := by
  intro h b hb
  obtain ⟨-, rfl⟩ := Blockchain.getBlock_new_eq_some.1 hb
  exact Nat.le_add_left 1 _

/-! ### The tip -/

omit [Crypto] in
/-- The tip is not shorter when no length goes down. -/
theorem LengthsGrow.tip_le {c d : Blockchain} (hgrow : LengthsGrow c d) {order order' : List H256}
    (horder : Blockchain.IterOrder c.blocks order) (horder' : Blockchain.IterOrder d.blocks order')
    {h : H256} {g : Block} (hc : c.getBlock h = some g) (hd : d.getBlock h = some g) :
    ∃ b b', c.getBlock (c.tip order) = some b ∧ d.getBlock (d.tip order') = some b' ∧
      b.length ≤ b'.length := by
  obtain ⟨b, hb, -⟩ := Blockchain.tip_spec horder hc
  obtain ⟨b', hb', hmax⟩ := Blockchain.tip_spec horder' hd
  refine ⟨b, b', hb, hb', UInt32.le_iff_toNat_le.2 ?_⟩
  have hup := hgrow (c.tip order)
  rw [Blockchain.lengthAt_of_getBlock hb] at hup
  cases ht : d.getBlock (c.tip order) with
  | none =>
      rw [Blockchain.lengthAt_of_none ht] at hup
      omega
  | some b'' =>
      rw [Blockchain.lengthAt_of_getBlock ht] at hup
      exact hup.trans (hmax _ _ ht)

/-- The invariant of the second half of `lengths_honest`. -/
theorem ownGenesis_lengths_of_run {g : GenesisDraw} {B : List Block} {tr : List (Node × Event)}
    {n : Node} (hrun : Node.Run (Node.init g) tr n) (hfree : CollisionFree B) (hg : g.block ∈ B)
    (hC : ∀ x ∈ tr, Known B x.1.core ∧ StartsMining g.block x.1 x.2 ∧ KeepsLengths x.1 x.2) :
    OwnGenesis g.block n.core ∧ Lengths n.blockchain := by
  refine hrun.invariant
    (I := fun m : Node => OwnGenesis g.block m.core ∧ Lengths m.blockchain)
    (C := fun m e => Known B m.core ∧ StartsMining g.block m e ∧ KeepsLengths m e)
    ⟨ownGenesis_init g, lengths_new g⟩ ?_ hC
  rintro m e m' ⟨hown, hlen⟩ ⟨hknown, hs, hk⟩ hstep
  exact ⟨ownGenesis_step hown rfl hknown hfree hg hs hstep,
    (lengths_step hlen hown rfl hknown hfree hk hstep).1⟩

/-- **Lengths are honest and the tip does not shrink**: a stored length is at most the number of
stored blocks on the walk from the block; and no step of a run makes the tip shorter, if none
releases an orphan of length 0 whose hash is stored. -/
theorem lengths_honest {g : GenesisDraw} {tr : List (Node × Event)} {n : Node}
    (hrun : Node.Run (Node.init g) tr n) (hfree : CollisionFree (introduced g tr))
    (hacyclic : ∃ rank : H256 → ℕ, ∀ x ∈ introduced g tr, rank x.getParent < rank x.hash)
    (hparent : ∀ x ∈ introduced g tr, x.hash ≠ g.parent)
    (hstart : ∀ x ∈ tr, x.2.blocks ≠ [] → x.1.miner.pc ≠ .start) :
    (∀ h b, n.blockchain.getBlock h = some b → b.length.toNat ≤
      (n.blockchain.walk n.blockchain.blocks.keys.card h).length) ∧
    ((∀ x ∈ tr, KeepsLengths x.1 x.2) → ∀ m e m', (m, e) ∈ tr → m.step e = some m' →
      ∀ order order', Blockchain.IterOrder m.blockchain.blocks order →
        Blockchain.IterOrder m'.blockchain.blocks order' →
        ∃ b b', m.blockchain.getBlock (m.blockchain.tip order) = some b ∧
          m'.blockchain.getBlock (m'.blockchain.tip order') = some b' ∧ b.length ≤ b'.length) := by
  have hg : g.block ∈ introduced g tr := List.mem_cons_self ..
  constructor
  · intro h b hb
    obtain ⟨rank, hrank⟩ := hacyclic
    have hknown := known_of_run hrun
    have hdesc : Pointers.Descending n.blockchain.parentAt rank := by
      intro h p hp
      rw [Blockchain.parentAt, Option.map_eq_some_iff] at hp
      obtain ⟨c, hc, rfl⟩ := hp
      obtain ⟨x, hx, hheader, -⟩ := hknown.all.stored h c hc
      rw [← hknown.hash h c hc, Block.getParent_congr hheader, Block.hash_congr hheader]
      exact hrank x hx
    have hstored : ∀ h, (n.blockchain.parentAt h).isSome → h ∈ n.blockchain.blocks.keys := by
      intro h hp
      rw [Blockchain.parentAt, Option.isSome_map] at hp
      rw [Finmap.mem_keys, ← Finmap.lookup_isSome]
      exact hp
    have hdeep := deep_of_run hrun hfree h b hb
    rw [Blockchain.walk_eq]
    calc b.length.toNat = _ := hdeep.symm
      _ ≤ _ := Pointers.length_walk_le_card hdesc hstored b.length.toNat h
  · intro hk m e m' hx hstep order order' horder horder'
    obtain ⟨tr₁, m₁, tr₂, hrun₁, hstep₁, -, htr⟩ := hrun.split_of_mem hx
    have hbefore : ∀ y ∈ tr₁, y ∈ tr := fun y hy => htr ▸ List.mem_append_left _ hy
    have hmines : ∀ y ∈ tr, StartsMining g.block y.1 y.2 := fun y hy =>
      startsMining_of_parent (known_of_mem hrun hy) hparent (hstart y hy)
    obtain ⟨hown, hlen⟩ := ownGenesis_lengths_of_run hrun₁ hfree hg fun y hy =>
      ⟨known_of_mem hrun (hbefore y hy), hmines y (hbefore y hy), hk y (hbefore y hy)⟩
    have hknown := known_of_mem hrun hx
    have hown' := ownGenesis_step hown rfl hknown hfree hg (hmines _ hx) hstep
    have hgrow := (lengths_step hlen hown rfl hknown hfree (hk _ hx) hstep).2
    exact hgrow.tip_le horder horder' hown.own hown'.own

omit [Crypto]

/-- Two blocks that wait for their parents, the parent of the first one as a genesis block, and the
first one again. -/
def waitingBlocks : List Block :=
  [sampleBlock 3 4 5 [], sampleBlock 2 3 0 [], sampleBlock 2 3 1 [], sampleBlock 3 4 2 []]

/-- The miner reads the tip, and then a network worker treats `waitingBlocks`.  It gets the parent of
the second block next, and the orphan search that follows is about to attach the first block. -/
def beforeShrinking : List Event :=
  [.minerStart [1], .message (.blocks waitingBlocks), .worker, .worker, .worker, .worker, .worker,
    .worker, .message (.blocks [sampleBlock 1 2 0 []]), .worker, .worker]

/-- The hashes of the example are ordered by their numbers, with the parent of the genesis block
below them. -/
def sampleRank (h : H256) : ℕ := if h = 99 then 0 else h.toNat

/-- **A step makes the tip shorter**: from length 2 to length 1. -/
theorem tip_shrinks :
    letI := sampleCrypto
    let tr := Lts.replayTrace Node.step (Node.init sampleGenesis) beforeShrinking
    CollisionFree (introduced sampleGenesis tr) ∧
      (∀ x ∈ introduced sampleGenesis tr, sampleRank x.getParent < sampleRank x.hash) ∧
      (∀ x ∈ introduced sampleGenesis tr, x.hash ≠ sampleGenesis.parent) ∧
      (∀ x ∈ tr, x.2.blocks ≠ [] → x.1.miner.pc ≠ .start) ∧
      ∃ m, Node.Run (Node.init sampleGenesis) tr m ∧
        Blockchain.IterOrder m.blockchain.blocks [1, 2, 3, 4] ∧
        (m.blockchain.getBlock (m.blockchain.tip [1, 2, 3, 4])).map Block.length = some 2 ∧
        ∃ n ∈ m.step .worker, Blockchain.IterOrder n.blockchain.blocks [1, 2, 3, 4] ∧
          (n.blockchain.getBlock (n.blockchain.tip [1, 2, 3, 4])).map Block.length = some 1 :=
  ⟨by decide +kernel, by decide +kernel, by decide +kernel, by decide +kernel,
    Lts.exists_run_of_replay (by decide +kernel)⟩

/-- The miner reads the tip, and then the node receives a block with a length that is too large. -/
def receiveLong : List Event :=
  [.minerStart [1], .message (.blocks [sampleBlock 1 2 7 []]), .worker, .worker, .worker]

/-- The block is stored with length 2. -/
theorem lengths_honest_long :
    letI := sampleCrypto
    ∃ n : Node, n.blockchain.getBlock 2 = some (sampleBlock 1 2 2 []) ∧
      2 ≤ (n.blockchain.walk n.blockchain.blocks.keys.card 2).length ∧
      ∀ m e m', (m, e) ∈ Lts.replayTrace Node.step (Node.init sampleGenesis) receiveLong →
        m.step e = some m' → ∀ order order', Blockchain.IterOrder m.blockchain.blocks order →
          Blockchain.IterOrder m'.blockchain.blocks order' →
          ∃ b b', m.blockchain.getBlock (m.blockchain.tip order) = some b ∧
            m'.blockchain.getBlock (m'.blockchain.tip order') = some b' ∧
            b.length ≤ b'.length := by
  obtain ⟨n, hrun, hb⟩ := @Lts.exists_run_of_replay _ _ (@Node.step sampleCrypto) receiveLong
    (@Node.init sampleCrypto sampleGenesis)
    (fun n => n.blockchain.getBlock 2 = some (sampleBlock 1 2 2 [])) (by decide +kernel)
  obtain ⟨hwalk, htip⟩ := @lengths_honest sampleCrypto _ _ _ hrun (by decide +kernel)
    ⟨sampleRank, by decide +kernel⟩ (by decide +kernel) (by decide +kernel)
  exact ⟨n, hb, hwalk 2 _ hb, htip (by decide +kernel)⟩

end BitcoinClient
