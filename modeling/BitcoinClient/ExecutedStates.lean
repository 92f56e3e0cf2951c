/-
**Stored states are executed states.**

When blocks with one hash are identical, every stored block above length 1 has a stored parent, the
successor of its length, and the state that results from executing it on the state of the parent.
The state and the block are written at different times by different threads: the miner stores the
state when it mines a block and the miner worker the block later; a released orphan is attached
without looking whether it is stored; and a rejected block still starts an orphan search.  The
invariant below holds all of these together.  Its point is that writing a block that is stored
already, or a state that is computed again, changes nothing.

Main definitions:

* `BitcoinClient.Identical` — blocks of a list with the same hash are identical;
* `BitcoinClient.ExecutedOn` — the parent of a block is stored, and the state of the block is the
  result of executing it on the state of the parent;
* `BitcoinClient.Entries` — the stored blocks are blocks of a list, with the length that an insertion
  computes, and executed;
* `BitcoinClient.Pending` — a mined block that has not been inserted yet;
* `BitcoinClient.Executed` — the invariant of a node.

Main results:

* `BitcoinClient.Entries.write_state`, `BitcoinClient.Entries.put` — the two writes;
* `BitcoinClient.executed_step` — the step lemma;
* `BitcoinClient.stored_states_executed` — **stored states are executed states**;
* `BitcoinClient.genesisStates_of_run` — the blocks that were given length 1 have the initial state.
-/

import BitcoinClient.Provenance

set_option relaxedAutoImplicit false
set_option autoImplicit false

namespace BitcoinClient

variable [Crypto]

/-! ### Writes to the store -/

/-- Blocks of the list with the same hash are identical. -/
def Identical (B : List Block) : Prop := ∀ x ∈ B, ∀ y ∈ B, x.hash = y.hash → x = y

instance (B : List Block) : Decidable (Identical B) :=
  inferInstanceAs (Decidable (∀ x ∈ B, ∀ y ∈ B, _))

/-- The parent of `x` is stored, and the state of `x` is the result of executing it on the state of
the parent. -/
structure ExecutedOn (c : Blockchain) (x : Block) : Prop where
  parent : ∃ p, c.getBlock x.getParent = some p
  state : ∃ sp s v, c.getBlockState x.getParent = some sp ∧ executeTx sp x.data = some (s, v) ∧
    c.getBlockState x.hash = some s

/-- Every stored block is a block of `B` with the length that an insertion computes; and it is
executed, unless it was given length 1. -/
def Entries (B : List Block) (c : Blockchain) : Prop :=
  ∀ h b, c.getBlock h = some b → ∃ x ∈ B, x.hash = h ∧ b = { x with length := b.length } ∧
    Blockchain.StoredLength c x b.length ∧ (x.length ≠ 1 → ExecutedOn c x)

/-- The blocks of one store are blocks of another one. -/
def Keeps (c d : Blockchain) : Prop := ∀ h b, c.getBlock h = some b → d.getBlock h = some b

omit [Crypto] in
theorem storedLength_unique {c : Blockchain} {x : Block} {l l' : UInt32}
    (h : Blockchain.StoredLength c x l) (h' : Blockchain.StoredLength c x l') : l = l' := by
  rcases h with ⟨hle, rfl⟩ | ⟨hlt, p, hp, hl⟩ <;> rcases h' with ⟨hle', rfl⟩ | ⟨hlt', p', hp', hl'⟩
  · rfl
  · exact absurd hlt' (UInt32.not_lt.2 hle)
  · exact absurd hlt (UInt32.not_lt.2 hle')
  · rw [hp, Option.some_inj] at hp'
    rw [← hp', hl, Option.some_inj] at hl'
    exact hl'

omit [Crypto] in
theorem StoredLength.mono {c d : Blockchain} (hcd : Keeps c d) {x : Block} {l : UInt32}
    (h : Blockchain.StoredLength c x l) : Blockchain.StoredLength d x l := by
  rcases h with h | ⟨hlt, p, hp, hl⟩
  · exact Or.inl h
  · exact Or.inr ⟨hlt, p, hcd _ _ hp, hl⟩

omit [Crypto] in
theorem putState_eq_self {c : Blockchain} {h : H256} {s : State}
    (hs : c.getBlockState h = some s) : c.putState h s = c := by
  refine Blockchain.ext_get (fun _ => rfl) fun h' => ?_
  rw [Blockchain.getBlockState_putState]
  split
  · rename_i hh
    rw [hh, hs]
  · rfl

/-- The store `d` has the entries of `c`, and the blocks executed on `c` are executed on `d`. -/
structure Improves (B : List Block) (c d : Blockchain) : Prop where
  entries : Entries B d
  keeps : Keeps c d
  executed : ∀ y ∈ B, ExecutedOn c y → ExecutedOn d y

theorem Improves.trans {B : List Block} {c d e : Blockchain} (h : Improves B c d)
    (h' : Improves B d e) : Improves B c e where
  entries := h'.entries
  keeps hash b hb := h'.keeps hash b (h.keeps hash b hb)
  executed y hy hex := h'.executed y hy (h.executed y hy hex)

namespace Entries

variable {B : List Block} {c : Blockchain}

theorem improves_refl (h : Entries B c) : Improves B c c :=
  ⟨h, fun _ _ hb => hb, fun _ _ hex => hex⟩

/-- The entry of a block of the list. -/
theorem of_mem (h : Entries B c) (hB : Identical B) {x b : Block} (hx : x ∈ B)
    (hb : c.getBlock x.hash = some b) :
    b = { x with length := b.length } ∧ Blockchain.StoredLength c x b.length ∧
      (x.length ≠ 1 → ExecutedOn c x) := by
  obtain ⟨y, hy, hyh, hrest⟩ := h _ _ hb
  rw [hB y hy x hx hyh] at hrest
  exact hrest

/-- Writing a state that no block depends on. -/
theorem write_unused (h : Entries B c) {hash : H256} (hnone : c.getBlock hash = none)
    (hunused : ∀ y ∈ B, y.hash = hash → ¬ ExecutedOn c y) (s : State) :
    Improves B c (c.putState hash s) := by
  have hexec : ∀ y ∈ B, ExecutedOn c y → ExecutedOn (c.putState hash s) y := by
    intro y hy hex
    obtain ⟨p, hp⟩ := hex.parent
    obtain ⟨sp, s', v, hsp, he, hs'⟩ := hex.state
    have hparent : y.getParent ≠ hash := by
      rintro hh
      rw [hh, hnone] at hp
      simp at hp
    refine ⟨⟨p, hp⟩, sp, s', v, ?_, he, ?_⟩
    · rw [Blockchain.getBlockState_putState, if_neg hparent]
      exact hsp
    · rw [Blockchain.getBlockState_putState, if_neg fun hh => hunused y hy hh hex]
      exact hs'
  refine ⟨fun h' b' hb' => ?_, fun _ _ hb' => hb', hexec⟩
  obtain ⟨y, hy, hyh, hby, hlen, hex⟩ := h h' b' hb'
  exact ⟨y, hy, hyh, hby, hlen, fun hne => hexec y hy (hex hne)⟩

/-- **Writing a state that is computed**: nothing changes if the block is stored, and no other block
depends on the state if it is not. -/
theorem write_state (h : Entries B c) (hB : Identical B) {x : Block} (hx : x ∈ B)
    (hone : x.length = 1 → c.getBlock x.hash = none) {p : Block}
    (hp : c.getBlock x.getParent = some p) {sp s : State} {v : List SignedTransaction}
    (hsp : c.getBlockState x.getParent = some sp) (he : executeTx sp x.data = some (s, v)) :
    Improves B c (c.putState x.hash s) ∧ ExecutedOn (c.putState x.hash s) x := by
  by_cases hex : ExecutedOn c x
  · -- the state was computed before
    obtain ⟨sp', s', v', hsp', he', hs'⟩ := hex.state
    rw [hsp, Option.some_inj] at hsp'
    rw [← hsp', he, Option.some_inj, Prod.mk.injEq] at he'
    rw [putState_eq_self (he'.1 ▸ hs')]
    exact ⟨h.improves_refl, hex⟩
  · have hnone : c.getBlock x.hash = none := by
      cases hb : c.getBlock x.hash with
      | none => rfl
      | some b =>
          by_cases hlen : x.length = 1
          · rw [hone hlen] at hb
            simp at hb
          · exact absurd ((h.of_mem hB hx hb).2.2 hlen) hex
    refine ⟨h.write_unused hnone (fun y hy hyh => ?_) s, ⟨p, hp⟩, sp, s, v, ?_, he, ?_⟩
    · rw [hB y hy x hx hyh]
      exact hex
    · rw [Blockchain.getBlockState_putState, if_neg]
      · exact hsp
      · intro hh
        rw [hh, hnone] at hp
        simp at hp
    · rw [Blockchain.getBlockState_putState, if_pos rfl]

/-- **Storing a block**: nothing changes if it is stored, and it does not touch the others if it is
not. -/
theorem put (h : Entries B c) (hB : Identical B) {x : Block} (hx : x ∈ B) {l : UInt32}
    (hlen : Blockchain.StoredLength c x l) (hex : x.length ≠ 1 → ExecutedOn c x) :
    Improves B c (c.put x l) ∧ (c.put x l).getBlock x.hash = some { x with length := l } := by
  have hget : (c.put x l).getBlock x.hash = some { x with length := l } := by
    rw [Blockchain.getBlock_put, if_pos rfl]
  cases hb : c.getBlock x.hash with
  | some b =>
      obtain ⟨hbx, hlen', -⟩ := h.of_mem hB hx hb
      rw [← storedLength_unique hlen hlen'] at hbx
      rw [Blockchain.put_eq_self (hbx ▸ hb)] at hget ⊢
      exact ⟨h.improves_refl, hget⟩
  | none =>
      have hkeep : Keeps c (c.put x l) := by
        intro h' b' hb'
        rw [Blockchain.getBlock_put, if_neg]
        · exact hb'
        · rintro rfl
          rw [hb] at hb'
          simp at hb'
      have hexec : ∀ y, ExecutedOn c y → ExecutedOn (c.put x l) y := by
        rintro y ⟨⟨p, hp⟩, hstate⟩
        exact ⟨⟨p, hkeep _ _ hp⟩, hstate⟩
      refine ⟨⟨?_, hkeep, fun y _ hy => hexec y hy⟩, hget⟩
      intro h' b' hb'
      rw [Blockchain.getBlock_put] at hb'
      split at hb'
      · rename_i hh
        rw [← Option.some_inj.1 hb']
        exact ⟨x, hx, hh.symm, rfl, StoredLength.mono hkeep hlen, fun hne => hexec x (hex hne)⟩
      · obtain ⟨y, hy, hyh, hby, hylen, hyex⟩ := h h' b' hb'
        exact ⟨y, hy, hyh, hby, StoredLength.mono hkeep hylen, fun hne => hexec y (hyex hne)⟩

/-- A stored block is inserted with the length that it has. -/
theorem put_stored (h : Entries B c) {b : Block} {l : UInt32} (hb : c.getBlock b.hash = some b)
    (hlen : Blockchain.StoredLength c b l) : c.put b l = c := by
  have hl : l = b.length := by
    rcases hlen with ⟨-, hl⟩ | ⟨hlt, p, hp, hl⟩
    · exact hl
    · obtain ⟨x, -, -, hbx, hlen', -⟩ := h _ _ hb
      have hpar : b.getParent = x.getParent := Block.getParent_congr (by rw [hbx])
      rcases hlen' with ⟨hle, heq⟩ | ⟨-, p', hp', hl'⟩
      · rw [heq] at hlt
        exact absurd hlt (UInt32.not_lt.2 hle)
      · rw [← hpar, hp, Option.some_inj] at hp'
        rw [← hp', hl, Option.some_inj] at hl'
        exact hl'
  exact Blockchain.put_eq_self (hl ▸ hb)

end Entries

/-! ### The invariant of a node -/

/-- A block that was mined and waits for the miner worker: it has passed the check against its
parent, and it is executed. -/
structure Pending (B : List Block) (c : Blockchain) (b : Block) : Prop where
  mem : b ∈ B
  long : b.length ≠ 1
  work : b.hash ≤ b.getDifficulty
  parent : ∃ p, c.getBlock b.getParent = some p ∧ b.getDifficulty = p.getDifficulty
  executed : ExecutedOn c b

/-- The invariant of a node with the genesis block `g`. -/
structure Executed (g : Block) (B : List Block) (c : Core) : Prop where
  entries : Entries B c.chain
  own : c.chain.getBlock g.hash = some g
  orphans : ∀ b ∈ c.orphans, b ∈ B ∧ b.length ≠ 1
  chan : ∀ b ∈ c.chan, c.chain.getBlock b.hash = some b ∨ Pending B c.chain b
  pc : ∀ b ∈ c.pc.blocks, c.chain.getBlock b.hash = some b ∧ 1 ≤ b.length.toNat
  states : c.lock ≠ .poisoned → ∀ h s, c.chain.getBlockState h = some s →
    (c.chain.getBlock h).isSome ∨ ∃ b ∈ c.chan, b.hash = h
  search : ∀ block x idxs rest hs, c.lock = .searching block x idxs rest hs →
    x ∈ B ∧ ((c.chain.getBlock x.hash).isSome ∨ c.chain.getBlockState x.hash = none)

theorem Pending.improves {B : List Block} {c d : Blockchain} {b : Block} (h : Pending B c b)
    (hcd : Improves B c d) : Pending B d b where
  mem := h.mem
  long := h.long
  work := h.work
  parent := by
    obtain ⟨p, hp, hdiff⟩ := h.parent
    exact ⟨p, hcd.keeps _ _ hp, hdiff⟩
  executed := hcd.executed b h.mem h.executed

namespace Executed

variable {g : Block} {B : List Block} {c : Core}

/-- The parts of the invariant that a write to the store keeps. -/
theorem chan_improves (h : Executed g B c) {d : Blockchain} (hcd : Improves B c.chain d) :
    ∀ b ∈ c.chan, d.getBlock b.hash = some b ∨ Pending B d b :=
  fun b hb => (h.chan b hb).imp (hcd.keeps _ _) fun hpend => hpend.improves hcd

theorem pc_improves (h : Executed g B c) {d : Blockchain} (hcd : Improves B c.chain d) :
    ∀ b ∈ c.pc.blocks, d.getBlock b.hash = some b ∧ 1 ≤ b.length.toNat :=
  fun b hb => ⟨hcd.keeps _ _ (h.pc b hb).1, (h.pc b hb).2⟩

/-- When the state of the parent of a block at hand is stored, so is the parent. -/
theorem parent_stored (h : Executed g B c) {block parent : Block} {lock : ChainLock}
    (hat : AtHand c block parent lock) {sp : State}
    (hsp : c.chain.getBlockState block.getParent = some sp) :
    ∃ p, c.chain.getBlock block.getParent = some p := by
  cases hat with
  | direct _ _ hpar => exact ⟨parent, hpar⟩
  | orphan hlock hf =>
      rcases (h.search _ _ _ _ _ hlock).2 with hstored | hnone
      · rw [(mem_of_findChild hf).2]
        exact Option.isSome_iff_exists.1 hstored
      · rw [(mem_of_findChild hf).2, hnone] at hsp
        simp at hsp

/-- A block of length 1 at hand is not stored. -/
theorem not_stored_of_atHand (h : Executed g B c) {block parent : Block} {lock : ChainLock}
    (hat : AtHand c block parent lock) (hone : block.length = 1) :
    c.chain.getBlock block.hash = none := by
  cases hat with
  | direct _ hnew _ => exact hnew
  | orphan _ hf => exact absurd hone (h.orphans block (mem_of_findChild hf).1).2

/-- The block at hand is one of the list. -/
theorem mem_of_atHand (h : Executed g B c)
    (hlocal : ∀ b ∈ c.lock.blocks, b.hash ≠ g.hash → b ∈ B) {block parent : Block}
    {lock : ChainLock} (hat : AtHand c block parent lock) : block ∈ B := by
  cases hat with
  | direct hlock hnew _ =>
      refine hlocal block ?_ (Blockchain.ne_of_getBlock h.own hnew)
      rw [hlock]
      exact List.mem_cons_self ..
  | orphan _ hf => exact (h.orphans block (mem_of_findChild hf).1).1

/-- **A rejected block that is not stored has no state**: a mined block passes the check. -/
theorem search_of_reject (h : Executed g B c) (hB : Identical B) {block parent : Block}
    (hblock : block ∈ B) {lock : ChainLock} (hat : AtHand c block parent lock)
    (hv : checkBlockValidity block parent = false) :
    (c.chain.getBlock block.hash).isSome ∨ c.chain.getBlockState block.hash = none := by
  cases hs : c.chain.getBlockState block.hash with
  | none => exact Or.inr rfl
  | some s =>
      refine Or.inl ?_
      rcases h.states hat.lock_eq.1 _ _ hs with hstored | ⟨m, hm, hmh⟩
      · exact hstored
      · rcases h.chan m hm with hstored | hpend
        · rw [← hmh, hstored]
          rfl
        · -- a pending block with that hash is the block at hand, and would have passed
          rw [hB m hpend.mem block hblock hmh] at hpend
          obtain ⟨p, hp, hdiff⟩ := hpend.parent
          have hparent : p.getDifficulty = parent.getDifficulty := by
            cases hat with
            | direct _ _ hpar =>
                rw [hp, Option.some_inj] at hpar
                rw [hpar]
            | orphan hlock hf =>
                have hmem := (h.search _ _ _ _ _ hlock).1
                rw [(mem_of_findChild hf).2] at hp
                rw [(h.entries.of_mem hB hmem hp).1]
                rfl
          have hvalid : checkBlockValidity block parent = true :=
            checkBlockValidity_iff.2 ⟨hpend.work, hdiff.trans hparent⟩
          rw [hvalid] at hv
          simp at hv

end Executed

namespace Executed

variable {g : Block} {B : List Block} {c : Core}

/-- After a write, a state belongs to a stored block or to one that waits in the channel. -/
theorem states_write (h : Executed g B c) (hlock : c.lock ≠ .poisoned) {d : Blockchain} {k : H256}
    (hkeep : Keeps c.chain d) (hk : (d.getBlock k).isSome)
    (hother : ∀ hash s, hash ≠ k → d.getBlockState hash = some s →
      c.chain.getBlockState hash = some s) {hash : H256} {s : State}
    (hs : d.getBlockState hash = some s) :
    (d.getBlock hash).isSome ∨ ∃ b ∈ c.chan, b.hash = hash := by
  by_cases hh : hash = k
  · exact Or.inl (hh ▸ hk)
  · refine (h.states hlock hash s (hother hash s hh hs)).imp (fun hstored => ?_) id
    obtain ⟨b, hb⟩ := Option.isSome_iff_exists.1 hstored
    exact Option.isSome_iff_exists.2 ⟨b, hkeep _ _ hb⟩

/-- Accepting a genesis block. -/
theorem genesis (h : Executed g B c) (hB : Identical B) {block : Block} {rest : List Block}
    {hs : List H256} (hlock : c.lock ≠ .poisoned) (hblock : block ∈ B)
    (hnew : c.chain.getBlock block.hash = none) (hpar : c.chain.getBlock block.getParent = none)
    (hlen : block.length = 1) :
    Executed g B { c with chain := (c.chain.put block block.length).putState block.hash icoState
                          lock := .held rest (hs ++ [block.hash]) } := by
  have hunused : ∀ y ∈ B, y.hash = block.hash → ¬ ExecutedOn c.chain y := by
    intro y hy hyh hex
    obtain ⟨p, hp⟩ := hex.parent
    rw [hB y hy block hblock hyh, hpar] at hp
    simp at hp
  have hstate := h.entries.write_unused hnew hunused icoState
  have hlen' : Blockchain.StoredLength (c.chain.putState block.hash icoState) block block.length :=
    Blockchain.storedLength_of_eq_one hlen
  obtain ⟨hput, hget⟩ := hstate.entries.put hB hblock hlen' fun hne => absurd hlen hne
  have himp := hstate.trans hput
  refine ⟨himp.entries, himp.keeps _ _ h.own, h.orphans, h.chan_improves himp,
    h.pc_improves himp, fun _ hash s hs => ?_, by simp⟩
  refine h.states_write hlock himp.keeps (Option.isSome_iff_exists.2 ⟨_, hget⟩) ?_ hs
  intro hash s hne hs
  rwa [Blockchain.getBlockState_put, Blockchain.getBlockState_putState, if_neg hne] at hs

/-- Attaching a block. -/
theorem attach (h : Executed g B c) (hB : Identical B)
    (hlocal : ∀ b ∈ c.lock.blocks, b.hash ≠ g.hash → b ∈ B) {block parent : Block}
    {lock : ChainLock} {sp s : State} {v : List SignedTransaction} {length : UInt32}
    (hat : AtHand c block parent lock) (hsp : c.chain.getBlockState block.getParent = some sp)
    (he : executeTx sp block.data = some (s, v))
    (hlen : Blockchain.StoredLength c.chain block length) :
    Executed g B
      { c with chain := (c.chain.putState block.hash s).put block length, lock } := by
  obtain ⟨hne, first, idxs, rest, hs, rfl⟩ := hat.lock_eq
  have hblock := h.mem_of_atHand hlocal hat
  obtain ⟨p, hp⟩ := h.parent_stored hat hsp
  obtain ⟨hstate, hex⟩ := h.entries.write_state hB hblock (h.not_stored_of_atHand hat) hp hsp he
  obtain ⟨hput, hget⟩ := hstate.entries.put hB hblock hlen fun _ => hex
  have himp := hstate.trans hput
  have hstored := Option.isSome_iff_exists.2 ⟨_, hget⟩
  refine ⟨himp.entries, himp.keeps _ _ h.own, h.orphans, h.chan_improves himp,
    h.pc_improves himp, fun _ hash s' hs' => ?_, fun _ x _ _ _ hl => ?_⟩
  · refine h.states_write hne himp.keeps hstored ?_ hs'
    intro hash s hne hs
    rwa [Blockchain.getBlockState_put, Blockchain.getBlockState_putState, if_neg hne] at hs
  · obtain ⟨-, rfl, -⟩ := ChainLock.searching.inj hl
    exact ⟨hblock, Or.inl hstored⟩

/-- A mined block is written to the store as a pending block. -/
theorem write_mined (h : Executed g B c) (hB : Identical B) {draw : MiningDraw} {g' p block : Block}
    {sp s : State} {v : List SignedTransaction} (hpc : c.pc = .mining g' p)
    (hblock : draw.block p = some block) (hle : block.hash ≤ block.getDifficulty)
    (hmem : { block with data := v } ∈ B) (hsp : c.chain.getBlockState p.hash = some sp)
    (he : executeTx sp v = some (s, v)) :
    Improves B c.chain (c.chain.putState block.hash s) ∧
      Pending B (c.chain.putState block.hash s) { block with data := v } := by
  have hpcs := h.pc
  rw [hpc] at hpcs
  obtain ⟨hp, hplen⟩ := hpcs p (List.mem_cons_of_mem _ (List.mem_cons_self ..))
  have hlong : block.length ≠ 1 := by
    intro hone
    have hadd := toNat_of_checkedAdd (MiningDraw.block_eq_some hblock).1
    rw [hone] at hadd
    have hadd' : 1 = p.length.toNat + 1 := hadd
    omega
  have hpar : block.getParent = p.hash := MiningDraw.getParent_block hblock
  rw [← hpar] at hp hsp
  obtain ⟨himp, hex⟩ := h.entries.write_state hB hmem (fun hone => absurd hone hlong) hp hsp he
  refine ⟨himp, hmem, hlong, hle, ⟨p, hp, ?_⟩, hex⟩
  rw [getDifficulty_mk, (MiningDraw.block_eq_some hblock).2.2]

/-- Mining a block. -/
theorem mined (h : Executed g B c) (hB : Identical B) {draw : MiningDraw} {g' p block : Block}
    {sp s : State} {v : List SignedTransaction} (hlock : c.lock = .free)
    (hpc : c.pc = .mining g' p) (hblock : draw.block p = some block)
    (hle : block.hash ≤ block.getDifficulty) (hmem : { block with data := v } ∈ B)
    (hsp : c.chain.getBlockState p.hash = some sp) (he : executeTx sp v = some (s, v)) :
    Executed g B
      { c with chain := c.chain.putState block.hash s
               chan := c.chan ++ (if block.getParent = g'.hash then [g'] else []) ++
                 [{ block with data := v }]
               pc := .loopHead g' } := by
  obtain ⟨himp, hpend⟩ := h.write_mined hB hpc hblock hle hmem hsp he
  have hpcs := h.pc_improves himp
  rw [hpc] at hpcs
  have hg' := hpcs g' (List.mem_cons_self ..)
  refine ⟨himp.entries, himp.keeps _ _ h.own, h.orphans, fun b hb => ?_, fun b hb => ?_,
    fun _ hash s' hs' => ?_, by simp [hlock]⟩
  · rcases mem_chan_of_mined hb with hb | rfl | rfl
    · exact h.chan_improves himp b hb
    · exact Or.inl hg'.1
    · exact Or.inr hpend
  · rw [List.mem_singleton.1 hb]
    exact hg'
  · rw [Blockchain.getBlockState_putState] at hs'
    split at hs'
    · rename_i hh
      refine Or.inr ⟨_, List.mem_append_right _ (List.mem_singleton.2 rfl), ?_⟩
      exact hh.symm
    · refine (h.states (by simp [hlock]) hash s' hs').imp id fun ⟨b, hb, hbh⟩ => ?_
      exact ⟨b, List.mem_append_left _ (List.mem_append_left _ hb), hbh⟩

/-- The miner worker inserts a block: it is stored already, or it is the pending one. -/
theorem insertMined (h : Executed g B c) (hB : Identical B) {block : Block} {chan : List Block}
    {length : UInt32} (hlock : c.lock = .free) (hchan : c.chan = block :: chan)
    (hlen : Blockchain.StoredLength c.chain block length) :
    Executed g B { c with chain := c.chain.put block length, chan } := by
  have hall := h.chan
  rw [hchan] at hall
  have hsub : ∀ b ∈ chan, b ∈ c.chan := fun b hb => hchan ▸ List.mem_cons_of_mem _ hb
  obtain ⟨himp, hget⟩ : Improves B c.chain (c.chain.put block length) ∧
      ((c.chain.put block length).getBlock block.hash).isSome := by
    rcases hall block (List.mem_cons_self ..) with hstored | hpend
    · rw [h.entries.put_stored hstored hlen, hstored]
      exact ⟨h.entries.improves_refl, rfl⟩
    · obtain ⟨himp, hget⟩ := h.entries.put hB hpend.mem hlen fun _ => hpend.executed
      exact ⟨himp, by rw [hget]; rfl⟩
  refine ⟨himp.entries, himp.keeps _ _ h.own, h.orphans,
    fun b hb => h.chan_improves himp b (hsub b hb), h.pc_improves himp,
    fun _ hash s hs => ?_, by simp [hlock]⟩
  rcases h.states_write (by simp [hlock]) himp.keeps hget (fun _ _ _ hs => hs) hs with
    hstored | ⟨b, hb, hbh⟩
  · exact Or.inl hstored
  · rw [hchan] at hb
    rcases List.mem_cons.1 hb with rfl | hb
    · rw [← hbh]
      exact Or.inl hget
    · exact Or.inr ⟨b, hb, hbh⟩

/-- The miner reads a tip, which is at least as long as the genesis block. -/
theorem readTip (h : Executed g B c) (hg : g.length = 1)
    (hkey : ∀ h b, c.chain.getBlock h = some b → b.hash = h) {order : List H256} {tipBlock : Block}
    {pc : MinerPc} (horder : Blockchain.IterOrder c.chain.blocks order)
    (htip : c.chain.getBlock (c.chain.tip order) = some tipBlock) (hpc : TipRead tipBlock c.pc pc) :
    Executed g B { c with pc } := by
  have htip' : c.chain.getBlock tipBlock.hash = some tipBlock := by
    rw [hkey _ _ htip]
    exact htip
  have hlen := Blockchain.one_le_length_tip horder h.own hg htip
  refine { h with pc := fun b hb => ?_ }
  rcases hpc.mem_blocks b hb with rfl | hb
  · exact ⟨htip', hlen⟩
  · exact h.pc b hb

end Executed

/-- **The step lemma.** -/
theorem executed_step {g : Block} {B : List Block} {n n' : Node} {e : Event}
    (h : Executed g B n.core) (hg : g.length = 1) (hB : Identical B)
    (hkey : ∀ h b, n.core.chain.getBlock h = some b → b.hash = h)
    (hlocal : ∀ b ∈ n.core.lock.blocks, b.hash ≠ g.hash → b ∈ B)
    (hmined : ∀ b ∈ n.mined e, b ∈ B) (hstep : n.step e = some n') : Executed g B n'.core := by
  have hc := Node.core_step hstep
  have hne : n'.core.lock ≠ .poisoned → n.core.lock ≠ .poisoned := mt hc.poisoned
  generalize n'.core = c' at hc hne
  cases hc with
  | other => exact h
  | pcMove hpc => exact { h with pc := fun b hb => h.pc b (hpc.blocks_subset hb) }
  | readTip _ horder htip hpc => exact h.readTip hg hkey horder htip hpc
  | @panic _ pc chan hpc hchan =>
      exact { h with chan := fun b hb => h.chan b (chan_subset_of_panic hchan hb),
                     pc := fun b hb => h.pc b (pc_subset_of_panic hpc hb),
                     states := fun hne => absurd rfl hne, search := by simp }
  | take _ => exact { h with states := fun hl => h.states (hne hl), search := by simp }
  | skip hlock =>
      refine { h with states := fun hl => h.states (hne hl),
                      search := fun block x idxs rest hs hl => ?_ }
      rcases hlock with ⟨hs', -, rfl⟩ | ⟨block', rest', hs', -, rfl, -⟩ <;> simp at hl
  | @genesis block rest hs hlock hnew hpar hlen =>
      rw [hlock] at hlocal
      have hblock := hlocal block (List.mem_cons_self ..) (Blockchain.ne_of_getBlock h.own hnew)
      exact h.genesis hB (by simp [hlock]) hblock hnew hpar hlen
  | @park block rest hs hlock hnew _ hlen =>
      rw [hlock] at hlocal
      have hblock := hlocal block (List.mem_cons_self ..) (Blockchain.ne_of_getBlock h.own hnew)
      refine { h with orphans := fun b hb => ?_, states := fun hl => h.states (hne hl),
                      search := by simp }
      rcases List.mem_append.1 hb with hb | hb
      · exact h.orphans b hb
      · rw [List.mem_singleton.1 hb]
        exact ⟨hblock, hlen⟩
  | @reject block parent lock hat hv =>
      obtain ⟨-, first, idxs, rest, hs, rfl⟩ := hat.lock_eq
      refine { h with states := fun hl => h.states (hne hl), search := fun _ x _ _ _ hl => ?_ }
      obtain ⟨-, rfl, -⟩ := ChainLock.searching.inj hl
      have hblock := h.mem_of_atHand hlocal hat
      exact ⟨hblock, h.search_of_reject hB hblock hat hv⟩
  | attach hat _ hsp he hlen => exact h.attach hB hlocal hat hsp he hlen
  | @halfAttach block parent lock sp s v hat hv hsp he =>
      have hblock := h.mem_of_atHand hlocal hat
      obtain ⟨p, hp⟩ := h.parent_stored hat hsp
      obtain ⟨himp, -⟩ := h.entries.write_state hB hblock (h.not_stored_of_atHand hat) hp hsp he
      exact ⟨himp.entries, himp.keeps _ _ h.own, h.orphans, h.chan_improves himp,
        h.pc_improves himp, fun hne => absurd rfl hne, by simp⟩
  | @cleanup block x idxs rest hs orphans lock hlock _ hclean =>
      refine { h with orphans := fun b hb => ?_, states := fun hl => h.states (hne hl),
                      search := fun _ _ _ _ _ hl => ?_ }
      · exact h.orphans b (subset_of_removeAll (hclean.imp And.left And.left) b hb)
      · rcases hclean with ⟨-, rfl⟩ | ⟨-, rfl⟩ <;> simp at hl
  | @mined draw g' p block sp s v hlock hpc hblock hle hsp he =>
      have hmem : { block with data := v } ∈ B := hmined _ (Node.mined_iff.2
        ⟨_, _, _, _, _, _, _, rfl, hlock, hpc, hblock, hle, hsp, he, rfl⟩)
      exact h.mined hB hlock hpc hblock hle hmem hsp (executeTx_valid he)
  | insertMined hlock hchan hlen => exact h.insertMined hB hlock hchan hlen

theorem executed_init {B : List Block} {g : GenesisDraw} (hg : g.block ∈ B) :
    Executed g.block B (Node.init g).core where
  entries h b hb := by
    obtain ⟨rfl, rfl⟩ := Blockchain.getBlock_new_eq_some.1 hb
    exact ⟨g.block, hg, rfl, rfl, Blockchain.storedLength_of_eq_one rfl, fun hne => absurd rfl hne⟩
  own := Blockchain.getBlock_new_self g
  orphans b hb := absurd hb List.not_mem_nil
  chan b hb := absurd hb List.not_mem_nil
  pc b hb := absurd hb List.not_mem_nil
  states _ h s hs := by
    obtain ⟨rfl, -⟩ := Blockchain.getBlockState_new_eq_some.1 hs
    exact Or.inl (Option.isSome_of_eq_some (Blockchain.getBlock_new_self g))
  search block x idxs rest hs hl := by
    have hl' : ChainLock.free = .searching block x idxs rest hs := hl
    simp at hl'

/-- The blocks that a run delivers to the node or mines.  The genesis block stands for every block
with its hash: the node has it from the start and skips what is delivered with that hash. -/
def distinct (g : GenesisDraw) (tr : List (Node × Event)) : List Block :=
  g.block :: (tr.flatMap fun x => x.1.introduces x.2).filter fun b => b.hash ≠ g.block.hash

theorem identical_distinct {g : GenesisDraw} {tr : List (Node × Event)}
    (hB : Identical (tr.flatMap fun x => x.1.introduces x.2)) : Identical (distinct g tr) := by
  intro x hx y hy hxy
  rcases List.mem_cons.1 hx with rfl | hx <;> rcases List.mem_cons.1 hy with rfl | hy
  · rfl
  · exact absurd hxy.symm (by simpa using (List.mem_filter.1 hy).2)
  · exact absurd hxy (by simpa using (List.mem_filter.1 hx).2)
  · exact hB x (List.mem_of_mem_filter hx) y (List.mem_of_mem_filter hy) hxy

theorem mem_distinct {g : GenesisDraw} {tr : List (Node × Event)} {b : Block}
    (hb : b ∈ introduced g tr) (hne : b.hash ≠ g.block.hash) : b ∈ distinct g tr := by
  rcases List.mem_cons.1 hb with rfl | hb
  · exact absurd rfl hne
  · exact List.mem_cons_of_mem _ (List.mem_filter.2 ⟨hb, by simpa using hne⟩)

theorem executed_of_run {g : GenesisDraw} {tr : List (Node × Event)} {n : Node}
    (hrun : Node.Run (Node.init g) tr n) (hB : Identical (tr.flatMap fun x => x.1.introduces x.2))
    (hown : ∀ x ∈ tr, ∀ b ∈ x.1.mined x.2, b.hash = g.block.hash → b = g.block) :
    Executed g.block (distinct g tr) n.core := by
  refine hrun.invariant
    (I := fun m : Node => Executed g.block (distinct g tr) m.core)
    (C := fun m e => Known (introduced g tr) m.core ∧ ∀ b ∈ m.mined e, b ∈ distinct g tr)
    (executed_init (List.mem_cons_self ..)) ?_ ?_
  · rintro m e m' h ⟨hknown, hmined⟩ hstep
    exact executed_step h rfl (identical_distinct hB) hknown.hash
      (fun b hb hne => mem_distinct (hknown.lock b hb) hne) hmined hstep
  · refine fun x hx => ⟨known_of_mem hrun hx, fun b hb => ?_⟩
    by_cases hh : b.hash = g.block.hash
    · rw [hown x hx b hb hh]
      exact List.mem_cons_self ..
    · refine mem_distinct (introduces_subset hx ?_) hh
      exact List.mem_append_right _ (Option.mem_toList.2 hb)

/-- **Stored states are executed states**: a stored block of length 2 or more has a stored parent of
the length below, and its state is the result of executing it on the state of the parent. -/
theorem stored_states_executed {g : GenesisDraw} {tr : List (Node × Event)} {n : Node}
    (hrun : Node.Run (Node.init g) tr n) (hB : Identical (tr.flatMap fun x => x.1.introduces x.2))
    (hown : ∀ x ∈ tr, ∀ b ∈ x.1.mined x.2, b.hash = g.block.hash → b = g.block)
    {h : H256} {b : Block} (hb : n.blockchain.getBlock h = some b) (hlen : 2 ≤ b.length.toNat) :
    ∃ p sp s v, n.blockchain.getBlock b.getParent = some p ∧ p.hash = b.getParent ∧
      b.length.toNat = p.length.toNat + 1 ∧ n.blockchain.getBlockState p.hash = some sp ∧
      executeTx sp b.data = some (s, v) ∧ n.blockchain.getBlockState h = some s := by
  obtain ⟨x, -, hxh, hbx, hstored, hex⟩ := (executed_of_run hrun hB hown).entries h b hb
  have hpar : b.getParent = x.getParent := Block.getParent_congr (by rw [hbx])
  have hdata : b.data = x.data := by rw [hbx]
  rcases hstored with ⟨hle, heq⟩ | ⟨hlt, p, hp, hadd⟩
  · -- a block that keeps its length has length at most 1
    have hle' : x.length.toNat ≤ 1 := UInt32.le_iff_toNat_le.1 hle
    rw [heq] at hlen
    omega
  · have hne : x.length ≠ 1 := by
      rintro hone
      rw [hone] at hlt
      exact absurd hlt (by decide)
    obtain ⟨sp, s, v, hsp, he, hs⟩ := (hex hne).state
    have hph : p.hash = b.getParent := by
      rw [hpar]
      exact (known_of_run hrun).hash _ p hp
    refine ⟨p, sp, s, v, hpar ▸ hp, hph, ?_, ?_, hdata ▸ he, hxh ▸ hs⟩
    · rw [toNat_of_checkedAdd hadd]
      rfl
    · rw [hph, hpar]
      exact hsp

/-! ### Genesis states -/

/-- A stored block that was given length 1 has the state of the initial coin offering. -/
def GenesisStates (B : List Block) (c : Blockchain) : Prop :=
  ∀ x ∈ B, x.length = 1 → (c.getBlock x.hash).isSome → c.getBlockState x.hash = some icoState

/-- The step lemma, when no block of the list is a child of another block and has length 1. -/
theorem genesisStates_step {g : Block} {B : List Block} {n n' : Node} {e : Event}
    (h : GenesisStates B n.core.chain) (hex : Executed g B n.core) (hB : Identical B)
    (hlocal : ∀ b ∈ n.core.lock.blocks, b.hash ≠ g.hash → b ∈ B) (hmined : ∀ b ∈ n.mined e, b ∈ B)
    (hparent : ∀ x ∈ B, x.length = 1 → ∀ y ∈ B, y.hash ≠ x.getParent)
    (hstep : n.step e = some n') : GenesisStates B n'.core.chain := by
  have hhand : ∀ {block parent : Block} {lock : ChainLock}, AtHand n.core block parent lock →
      ∀ x ∈ B, x.length = 1 → x.hash ≠ block.hash := by
    intro block parent lock hat x hx hone hh
    have hblock := hex.mem_of_atHand hlocal hat
    rw [hB x hx block hblock hh] at hone
    cases hat with
    | direct _ _ hpar =>
        obtain ⟨y, hy, hyh, -⟩ := hex.entries _ _ hpar
        exact hparent block hblock hone y hy hyh
    | orphan _ hf => exact (hex.orphans block (mem_of_findChild hf).1).2 hone
  have hc := Node.core_step hstep
  generalize n'.core = c' at hc
  cases hc with
  | @genesis block rest hs hlock hnew _ _ =>
      intro x hx hone hstored
      rw [Blockchain.getBlockState_putState]
      split
      · rfl
      · rename_i hh
        rw [Blockchain.getBlock_putState, Blockchain.getBlock_put, if_neg hh] at hstored
        exact h x hx hone hstored
  | @attach block parent lock sp s v length hat hv hsp he hlen =>
      intro x hx hone hstored
      have hh := hhand hat x hx hone
      rw [Blockchain.getBlock_put, if_neg hh] at hstored
      rw [Blockchain.getBlockState_put, Blockchain.getBlockState_putState, if_neg hh]
      exact h x hx hone hstored
  | @halfAttach block parent lock sp s v hat hv hsp he =>
      intro x hx hone hstored
      rw [Blockchain.getBlockState_putState, if_neg (hhand hat x hx hone)]
      exact h x hx hone hstored
  | @mined draw g' p block sp s v hlock hpc hblock hle hsp he =>
      have hmem : { block with data := v } ∈ B := hmined _ (Node.mined_iff.2
        ⟨_, _, _, _, _, _, _, rfl, hlock, hpc, hblock, hle, hsp, he, rfl⟩)
      obtain ⟨-, hpend⟩ := hex.write_mined hB hpc hblock hle hmem hsp (executeTx_valid he)
      intro x hx hone hstored
      rw [Blockchain.getBlockState_putState, if_neg]
      · exact h x hx hone hstored
      · intro hh
        rw [hB x hx _ hmem hh] at hone
        exact hpend.long hone
  | @insertMined block chan length hlock hchan hlen =>
      have hall := hex.chan
      rw [hchan] at hall
      intro x hx hone hstored
      rw [Blockchain.getBlockState_put]
      rw [Blockchain.getBlock_put] at hstored
      refine h x hx hone ?_
      split at hstored
      · rename_i hh
        rcases hall block (List.mem_cons_self ..) with hold | hpend
        · rw [hh, hold]
          rfl
        · rw [hB x hx block hpend.mem hh] at hone
          exact absurd hone hpend.long
      · exact hstored
  | _ => exact h

theorem genesisStates_of_run {g : GenesisDraw} {B : List Block} {tr : List (Node × Event)} {n : Node}
    (hrun : Node.Run (Node.init g) tr n) (hB : Identical B) (hsub : introduced g tr ⊆ B)
    (hparent : ∀ x ∈ B, x.length = 1 → ∀ y ∈ B, y.hash ≠ x.getParent) :
    Executed g.block B n.core ∧ GenesisStates B n.blockchain := by
  refine hrun.invariant
    (I := fun m : Node => Executed g.block B m.core ∧ GenesisStates B m.blockchain)
    (C := fun m e => Known B m.core ∧ m.introduces e ⊆ B) ⟨?_, ?_⟩ ?_ ?_
  · exact executed_init (hsub (List.mem_cons_self ..))
  · intro x hx hone hstored
    obtain ⟨b, hb⟩ := Option.isSome_iff_exists.1 hstored
    obtain ⟨hh, -⟩ := Blockchain.getBlock_new_eq_some.1 hb
    exact Blockchain.getBlockState_new_eq_some.2 ⟨hh, rfl⟩
  · rintro m e m' ⟨hex, hgen⟩ ⟨hknown, hin⟩ hstep
    have hlocal : ∀ b ∈ m.core.lock.blocks, b.hash ≠ g.block.hash → b ∈ B :=
      fun b hb _ => hknown.lock b hb
    have hmined : ∀ b ∈ m.mined e, b ∈ B :=
      fun b hb => hin (List.mem_append_right _ (Option.mem_toList.2 hb))
    exact ⟨executed_step hex rfl hB hknown.hash hlocal hmined hstep,
      genesisStates_step hgen hex hB hlocal hmined hparent hstep⟩
  · exact fun x hx => ⟨(known_of_mem hrun hx).mono hsub,
      fun _ hb => hsub (introduces_subset hx hb)⟩

omit [Crypto]

/-- A node that receives two blocks, the child first. -/
theorem stored_states_executed_child :
    letI := sampleCrypto
    ∃ n : Node, ∃ p sp s v, n.blockchain.getBlock 2 = some p ∧
      n.blockchain.getBlockState p.hash = some sp ∧
      executeTx sp [sampleTransaction 0 1 1 40] = some (s, v) ∧
      n.blockchain.getBlockState 3 = some s := by
  obtain ⟨n, hrun, hb⟩ := @Lts.exists_run_of_replay _ _ (@Node.step sampleCrypto)
    [.message (.blocks [sampleBlock 2 3 3 [sampleTransaction 0 1 1 40], sampleBlock 1 2 2 []]),
      .worker, .worker, .worker]
    (@Node.init sampleCrypto sampleGenesis)
    (fun n => n.blockchain.getBlock 3 = some (sampleBlock 2 3 3 [sampleTransaction 0 1 1 40]))
    (by decide +kernel)
  obtain ⟨p, sp, s, v, hp, -, -, hsp, he, hs⟩ :=
    @stored_states_executed sampleCrypto _ _ _ hrun (by decide +kernel) (by decide +kernel) _ _ hb
      (by decide)
  exact ⟨n, p, sp, s, v, hp, hsp, he, hs⟩

end BitcoinClient
