/-
**When the arrival order of blocks does not matter.**

A set of blocks whose parents are stored or in the set is delivered to a node, in any order and cut
into any messages.  A block may arrive before its parent and is then parked; when the parent arrives,
the orphan search releases the first parked child that it finds, and goes on from that child.

What the delivery should compute does not depend on the order: each new block gets the successor of
its parent's length, and the state after its transactions.  That is the relation `Outcome`.  When a
search never has a second child to choose from, and always goes on to an earlier position, every
delivery ends with the outcomes of all new blocks, and of the parked blocks below them.  The proof is
an invariant that gives the store and the buffer after any prefix of the delivery.

Main definitions:

* `BitcoinClient.Admissible` — the sets of blocks that are delivered;
* `BitcoinClient.OrderIndependent` — every two deliveries end, in the same store, and leave no block
  of the set in the orphan buffer;
* `BitcoinClient.Outcome`, `BitcoinClient.HasOutcomes` — the length and the state that a block should
  get, and a store with the outcomes of some blocks;
* `BitcoinClient.Visited`, `BitcoinClient.Attached` — the blocks that a delivery reaches, and those
  that it attaches;
* `BitcoinClient.Unentangled` — the condition on the blocks and the orphan buffer;
* `BitcoinClient.Delivered` — the invariant.

Main results:

* `BitcoinClient.Outcome.unique`, `BitcoinClient.HasOutcomes.unique` — outcomes determine the store;
* `BitcoinClient.delivered_step`, `BitcoinClient.delivered_deliver` — the step and the run lemma;
* `BitcoinClient.orderIndependent_of_unentangled` — **unentangled blocks may arrive in any order**.
-/

import BitcoinClient.Delivery

set_option relaxedAutoImplicit false
set_option autoImplicit false

namespace BitcoinClient

variable [Crypto]

/-! ### Deliveries -/

/-- The blocks of the list whose hash is not stored. -/
def fresh (w : Worker) (S : List Block) : List Block :=
  S.filter fun x => (w.blockchain.getBlock x.hash).isNone

theorem mem_fresh {w : Worker} {S : List Block} {x : Block} :
    x ∈ fresh w S ↔ x ∈ S ∧ w.blockchain.getBlock x.hash = none := by
  simp [fresh]

/-- Delivering one more new block. -/
theorem fresh_snoc {w : Worker} {S L : List Block} {x : Block} (hx : x ∈ fresh w S) :
    fresh w (L ++ [x]) = fresh w L ++ [x] := by
  rw [fresh, List.filter_append, ← fresh]
  simp [(mem_fresh.1 hx).2]

/-- The blocks of `S` have different hashes, each is longer than a genesis block and passes the check
against its parent, which is stored or else in `S`, and no hash is its own ancestor. -/
structure Admissible (w : Worker) (S : List Block) : Prop where
  distinct : (S.map Block.hash).Nodup
  long : ∀ x ∈ S, 1 < x.length
  parent : ∀ x ∈ S,
    (∃ p, w.blockchain.getBlock x.getParent = some p ∧ checkBlockValidity x p = true) ∨
      (w.blockchain.getBlock x.getParent = none ∧
        ∃ p ∈ S, p.hash = x.getParent ∧ checkBlockValidity x p = true)
  acyclic : ∃ rank : H256 → ℕ, ∀ x ∈ S, rank x.getParent < rank x.hash

/-- **Arrival order does not matter**: whatever the order in which the blocks of `S` arrive and
whatever the messages they arrive in, the delivery ends, with the same store, and no block of `S` is
left in the orphan buffer. -/
def OrderIndependent (w : Worker) (S : List Block) : Prop :=
  ∀ messages messages' : List (List Block), messages.flatten.Perm S → messages'.flatten.Perm S →
    ∃ w₁ w₂, w.deliver messages = .done w₁ () ∧ w.deliver messages' = .done w₂ () ∧
      w₁.blockchain = w₂.blockchain ∧ ∀ x ∈ S, x ∉ w₁.orphanBuffer ∧ x ∉ w₂.orphanBuffer

/-! ### Outcomes -/

omit [Crypto] in
/-- The length that an insertion gives to a child of a block of length `l`. -/
def childLength (x : Block) (l : UInt32) : Option UInt32 :=
  if 1 < x.length then checkedAdd l 1 else some x.length

omit [Crypto] in
theorem storedLength_iff {c : Blockchain} {x p : Block} {l : UInt32}
    (hp : c.getBlock x.getParent = some p) :
    Blockchain.StoredLength c x l ↔ childLength x p.length = some l := by
  rw [Blockchain.StoredLength, childLength]
  by_cases hlt : 1 < x.length
  · simp [hlt, hp, UInt32.not_le.2 hlt]
  · simp [hlt, UInt32.not_lt.1 hlt, eq_comm]

/-- `Outcome c A x l s`: on the store `c` and after the new blocks in `A`, the block `x` gets the
length `l` and the state `s`. -/
inductive Outcome (c : Blockchain) (A : Block → Prop) : Block → UInt32 → State → Prop
  | stored {x p : Block} {sp s : State} {v : List SignedTransaction} {l : UInt32} :
      c.getBlock x.getParent = some p → c.getBlockState x.getParent = some sp →
      executeTx sp x.data = some (s, v) → childLength x p.length = some l → Outcome c A x l s
  | new {x p : Block} {sp s : State} {v : List SignedTransaction} {lp l : UInt32} :
      A p → p.hash = x.getParent → Outcome c A p lp sp →
      executeTx sp x.data = some (s, v) → childLength x lp = some l → Outcome c A x l s

/-- The blocks in `A` are new to the store `c`, and their hashes are different. -/
structure New (c : Blockchain) (A : Block → Prop) : Prop where
  notStored : ∀ x, A x → c.getBlock x.hash = none
  distinct : ∀ x y, A x → A y → x.hash = y.hash → x = y

/-- What the outcome of a block comes from when its parent is stored. -/
theorem Outcome.of_stored_parent {c : Blockchain} {A : Block → Prop} (hA : New c A) {x p : Block}
    {l : UInt32} {s : State} (hp : c.getBlock x.getParent = some p) (h : Outcome c A x l s) :
    ∃ sp v, c.getBlockState x.getParent = some sp ∧ executeTx sp x.data = some (s, v) ∧
      childLength x p.length = some l := by
  cases h with
  | stored hp' hsp he hl =>
      rw [hp, Option.some_inj] at hp'
      subst hp'
      exact ⟨_, _, hsp, he, hl⟩
  | new hpA hph _ _ _ =>
      rw [← hph, hA.notStored _ hpA] at hp
      cases hp

/-- What the outcome of a block comes from when its parent is new. -/
theorem Outcome.of_new_parent {c : Blockchain} {A : Block → Prop} (hA : New c A) {x p : Block}
    {l : UInt32} {s : State} (hpA : A p) (hph : p.hash = x.getParent) (h : Outcome c A x l s) :
    ∃ lp sp v, Outcome c A p lp sp ∧ executeTx sp x.data = some (s, v) ∧ childLength x lp = some l := by
  cases h with
  | stored hp _ _ _ =>
      rw [← hph, hA.notStored _ hpA] at hp
      cases hp
  | new hpA' hph' hout he hl =>
      obtain rfl := hA.distinct _ _ hpA hpA' (hph.trans hph'.symm)
      exact ⟨_, _, _, hout, he, hl⟩

theorem Outcome.unique {c : Blockchain} {A : Block → Prop} (hA : New c A) {x : Block} {l l' : UInt32}
    {s s' : State} (h : Outcome c A x l s) (h' : Outcome c A x l' s') : l = l' ∧ s = s' := by
  induction h generalizing l' s' with
  | stored hp hsp he hl =>
      obtain ⟨sp', v', hsp', he', hl'⟩ := h'.of_stored_parent hA hp
      rw [hsp, Option.some_inj] at hsp'
      subst hsp'
      rw [hl, Option.some_inj] at hl'
      rw [he, Option.some_inj, Prod.mk.injEq] at he'
      exact ⟨hl', he'.1⟩
  | new hpA hph _ he hl ih =>
      obtain ⟨lp', sp', v', hout', he', hl'⟩ := h'.of_new_parent hA hpA hph
      obtain ⟨rfl, rfl⟩ := ih hout'
      rw [hl, Option.some_inj] at hl'
      rw [he, Option.some_inj, Prod.mk.injEq] at he'
      exact ⟨hl', he'.1⟩

/-- The store `c'` is `c` with the outcomes of the blocks in `D`. -/
structure HasOutcomes (c : Blockchain) (A : Block → Prop) (D : Block → Prop) (c' : Blockchain) :
    Prop where
  new : ∀ z, D z → ∃ l s, Outcome c A z l s ∧ c'.getBlock z.hash = some { z with length := l } ∧
    c'.getBlockState z.hash = some s
  old : ∀ h, (∀ z, D z → z.hash ≠ h) →
    c'.getBlock h = c.getBlock h ∧ c'.getBlockState h = c.getBlockState h

namespace HasOutcomes

variable {c c' : Blockchain} {A : Block → Prop} {D : Block → Prop}

theorem refl (c : Blockchain) (A : Block → Prop) : HasOutcomes c A (fun _ => False) c :=
  ⟨fun _ h => h.elim, fun _ _ => ⟨rfl, rfl⟩⟩

theorem congr {D' : Block → Prop} (h : HasOutcomes c A D c') (hD : ∀ z, D' z ↔ D z) :
    HasOutcomes c A D' c' where
  new z hz := h.new z ((hD z).1 hz)
  old hash hz := h.old hash fun z hDz => hz z ((hD z).2 hDz)

/-- **The outcomes determine the store.** -/
theorem unique {c'' : Blockchain} (hA : New c A) (h : HasOutcomes c A D c')
    (h' : HasOutcomes c A D c'') : c' = c'' := by
  have hget : ∀ hash, c'.getBlock hash = c''.getBlock hash ∧
      c'.getBlockState hash = c''.getBlockState hash := by
    intro hash
    by_cases hD : ∃ z, D z ∧ z.hash = hash
    · obtain ⟨z, hz, rfl⟩ := hD
      obtain ⟨l, s, hout, hb, hs⟩ := h.new z hz
      obtain ⟨l', s', hout', hb', hs'⟩ := h'.new z hz
      obtain ⟨rfl, rfl⟩ := hout.unique hA hout'
      exact ⟨hb.trans hb'.symm, hs.trans hs'.symm⟩
    · have hne : ∀ z, D z → z.hash ≠ hash := fun z hz hh => hD ⟨z, hz, hh⟩
      obtain ⟨hb, hs⟩ := h.old hash hne
      obtain ⟨hb', hs'⟩ := h'.old hash hne
      exact ⟨hb.trans hb'.symm, hs.trans hs'.symm⟩
  exact Blockchain.ext_get (fun hash => (hget hash).1) fun hash => (hget hash).2

/-- Where the parent of a block is: in the old store, or among the blocks in `D`. -/
def Parent (c : Blockchain) (A : Block → Prop) (D : Block → Prop) (x : Block) : Prop :=
  ((∃ p, c.getBlock x.getParent = some p) ∧ ∀ z, D z → z.hash ≠ x.getParent) ∨
    ∃ p, A p ∧ D p ∧ p.hash = x.getParent

/-- Reading the entries of the parent. -/
theorem parent_eq (h : HasOutcomes c A D c') {x : Block} (hx : Parent c A D x) :
    ∃ p sp, c'.getBlock x.getParent = some p ∧
      (∀ sp' s v l, c'.getBlockState x.getParent = some sp' → executeTx sp' x.data = some (s, v) →
        childLength x p.length = some l → Outcome c A x l s) ∧
      (New c A → ∀ l s, Outcome c A x l s → c'.getBlockState x.getParent = some sp ∧
        (∃ v, executeTx sp x.data = some (s, v)) ∧ childLength x p.length = some l) := by
  rcases hx with ⟨⟨p, hp⟩, hne⟩ | ⟨p, hpA, hDp, hph⟩
  · obtain ⟨hb, hs⟩ := h.old _ hne
    refine ⟨p, (c.getBlockState x.getParent).getD ∅, hb.trans hp, ?_, ?_⟩
    · intro sp' s v l hsp he hl
      exact .stored hp (hs ▸ hsp) he hl
    · intro hA l s hout
      obtain ⟨sp, v, hsp, he, hl⟩ := hout.of_stored_parent hA hp
      rw [hs, hsp, Option.getD_some]
      exact ⟨rfl, ⟨v, he⟩, hl⟩
  · obtain ⟨lp, sp, hout, hb, hs⟩ := h.new p hDp
    rw [hph] at hb hs
    refine ⟨{ p with length := lp }, sp, hb, ?_, ?_⟩
    · intro sp' s v l hsp he hl
      rw [hs, Option.some_inj] at hsp
      subst hsp
      exact .new hpA hph hout he hl
    · intro hA l s hout'
      obtain ⟨lp', sp', v, hparent, he, hl⟩ := hout'.of_new_parent hA hpA hph
      obtain ⟨rfl, rfl⟩ := hout.unique hA hparent
      exact ⟨hs, ⟨v, he⟩, hl⟩

/-- **Attaching a block adds its outcome**, when the attachment is done. -/
theorem attach_of_done (h : HasOutcomes c A D c') {x : Block} {c'' : Blockchain}
    (hx : Parent c A D x) (hne : ∀ z, D z → z.hash ≠ x.hash) (ha : c'.attach x = .done c'' ()) :
    HasOutcomes c A (fun z => D z ∨ z = x) c'' := by
  obtain ⟨p, -, hp, hout, -⟩ := h.parent_eq hx
  obtain ⟨sp, s, v, l, hsp, he, hl, rfl⟩ := Blockchain.of_attach_done ha
  refine ⟨?_, ?_⟩
  · rintro z (hz | rfl)
    · obtain ⟨l', s', hz', hb, hs⟩ := h.new z hz
      refine ⟨l', s', hz', ?_, ?_⟩
      · rw [Blockchain.getBlock_put, if_neg (hne z hz)]
        exact hb
      · rw [Blockchain.getBlockState_put, Blockchain.getBlockState_putState, if_neg (hne z hz)]
        exact hs
    · refine ⟨l, s, hout sp s v l hsp he ((storedLength_iff hp).1 hl), ?_, ?_⟩
      · rw [Blockchain.getBlock_put, if_pos rfl]
      · rw [Blockchain.getBlockState_put, Blockchain.getBlockState_putState, if_pos rfl]
  · intro hash hD
    have hxh : hash ≠ x.hash := (hD x (Or.inr rfl)).symm
    rw [Blockchain.getBlock_put, if_neg hxh, Blockchain.getBlockState_put,
      Blockchain.getBlockState_putState, if_neg hxh]
    exact h.old hash fun z hz => hD z (Or.inl hz)

/-- A block with an outcome can be attached. -/
theorem attach (h : HasOutcomes c A D c') (hA : New c A) {x : Block} {l : UInt32} {s : State}
    (hx : Parent c A D x) (hne : ∀ z, D z → z.hash ≠ x.hash) (hout : Outcome c A x l s) :
    ∃ c'', c'.attach x = .done c'' () ∧ HasOutcomes c A (fun z => D z ∨ z = x) c'' := by
  obtain ⟨p, sp, hp, -, hrest⟩ := h.parent_eq hx
  obtain ⟨hsp, ⟨v, he⟩, hl⟩ := hrest hA l s hout
  have ha := Blockchain.attach_eq_done hsp he ((storedLength_iff hp).2 hl)
  exact ⟨_, ha, h.attach_of_done hx hne ha⟩

end HasOutcomes

/-! ### What a delivery reaches -/

/-- The blocks that the delivery of `L` reaches: a new block with a stored parent, and every parked or
delivered child of a block that is reached. -/
inductive Visited (w : Worker) (L : List Block) : Block → Prop
  | stored {z : Block} : z ∈ fresh w L → (w.blockchain.getBlock z.getParent).isSome → Visited w L z
  | child {y z : Block} : Visited w L y → z ∈ w.orphanBuffer ++ fresh w L →
      z.getParent = y.hash → Visited w L z

/-- The blocks that the delivery of `L` attaches: those reached through valid blocks. -/
inductive Attached (w : Worker) (L : List Block) : Block → Prop
  | stored {z : Block} : z ∈ fresh w L → (w.blockchain.getBlock z.getParent).isSome →
      Attached w L z
  | child {y z : Block} : Attached w L y → z ∈ w.orphanBuffer ++ fresh w L →
      z.getParent = y.hash → checkBlockValidity z y = true → Attached w L z

/-- **The blocks of `S` and the parked blocks are not entangled**: a block that the delivery reaches
has one child at most among the new and the parked blocks; no new block has a new grandchild; a parked
child of a parked block that is reached stands before it; no block of `S` is parked already; and the
blocks that are reached are new, have hashes of their own, and can be executed unless they are
invalid. -/
structure Unentangled (w : Worker) (S : List Block) : Prop where
  oneChild : ∀ x, Visited w S x →
    ((fresh w S ++ w.orphanBuffer).filter fun z => z.getParent = x.hash).length ≤ 1
  short : ∀ x ∈ fresh w S, ∀ y ∈ fresh w S, y.getParent = x.hash → ∀ z ∈ fresh w S,
    z.getParent ≠ y.hash
  before : w.orphanBuffer.Pairwise fun a b => Visited w S a → b.getParent ≠ a.hash
  apart : ∀ x ∈ S, x ∉ w.orphanBuffer
  notStored : ∀ z, Visited w S z → w.blockchain.getBlock z.hash = none
  distinct : ∀ y z, Visited w S y → Visited w S z → y.hash = z.hash → y = z
  executes : ∀ z, Attached w S z → ∃ l s, Outcome w.blockchain (Attached w S) z l s
  rejected : ∀ y, Visited w S y → ¬ Attached w S y → ∀ z ∈ w.orphanBuffer,
    z.getParent = y.hash → checkBlockValidity z y = false

section

variable {w : Worker} {S L L' : List Block} {x y z : Block}

theorem fresh_mono (hL : L ⊆ L') (hx : x ∈ fresh w L) : x ∈ fresh w L' :=
  mem_fresh.2 ⟨hL (mem_fresh.1 hx).1, (mem_fresh.1 hx).2⟩

theorem mem_parked_or_fresh (hL : fresh w L ⊆ fresh w L') (hx : x ∈ w.orphanBuffer ++ fresh w L) :
    x ∈ w.orphanBuffer ++ fresh w L' := by
  rcases List.mem_append.1 hx with hx | hx
  · exact List.mem_append_left _ hx
  · exact List.mem_append_right _ (hL hx)

theorem mem_parked_or_fresh_mono (hL : L ⊆ L') (hx : x ∈ w.orphanBuffer ++ fresh w L) :
    x ∈ w.orphanBuffer ++ fresh w L' :=
  mem_parked_or_fresh (fun _ hz => fresh_mono hL hz) hx

/-- What is reached depends on the new blocks delivered only. -/
theorem Visited.of_fresh (hL : fresh w L ⊆ fresh w L') (h : Visited w L z) : Visited w L' z := by
  induction h with
  | stored hz hp => exact .stored (hL hz) hp
  | child _ hz hzy ih => exact .child ih (mem_parked_or_fresh hL hz) hzy

theorem Attached.of_fresh (hL : fresh w L ⊆ fresh w L') (h : Attached w L z) :
    Attached w L' z := by
  induction h with
  | stored hz hp => exact .stored (hL hz) hp
  | child _ hz hzy hv ih => exact .child ih (mem_parked_or_fresh hL hz) hzy hv

theorem Visited.mono (hL : L ⊆ L') (h : Visited w L z) : Visited w L' z :=
  h.of_fresh fun _ hx => fresh_mono hL hx

theorem Attached.mono (hL : L ⊆ L') (h : Attached w L z) : Attached w L' z :=
  h.of_fresh fun _ hx => fresh_mono hL hx

theorem Attached.visited (h : Attached w L z) : Visited w L z := by
  induction h with
  | stored hz hp => exact .stored hz hp
  | child _ hz hzy _ ih => exact .child ih hz hzy

theorem Visited.mem (h : Visited w L z) : z ∈ w.orphanBuffer ++ fresh w L := by
  cases h with
  | stored hz _ => exact List.mem_append_right _ hz
  | child _ hz _ => exact hz

namespace Admissible

/-- Checking that blocks can be delivered. -/
theorem of_checks (rank : H256 → ℕ) (hdistinct : (S.map Block.hash).Nodup)
    (hlong : ∀ x ∈ S, 1 < x.length)
    (hstored : ∀ x ∈ S, ∀ p ∈ w.blockchain.getBlock x.getParent, checkBlockValidity x p = true)
    (hnew : ∀ x ∈ S, w.blockchain.getBlock x.getParent = none →
      ∃ p ∈ S, p.hash = x.getParent ∧ checkBlockValidity x p = true)
    (hrank : ∀ x ∈ S, rank x.getParent < rank x.hash) : Admissible w S where
  distinct := hdistinct
  long := hlong
  parent x hx := by
    cases hpar : w.blockchain.getBlock x.getParent with
    | none => exact Or.inr ⟨rfl, hnew x hx hpar⟩
    | some p => exact Or.inl ⟨p, rfl, hstored x hx p hpar⟩
  acyclic := ⟨rank, hrank⟩

/-- The parent of a new block that is not stored is a new block. -/
theorem parent_new (hS : Admissible w S) (hx : x ∈ fresh w S)
    (hpar : w.blockchain.getBlock x.getParent = none) :
    ∃ p ∈ fresh w S, p.hash = x.getParent ∧ checkBlockValidity x p = true := by
  rcases hS.parent x (mem_fresh.1 hx).1 with ⟨p, hp, -⟩ | ⟨-, p, hpS, hph, hv⟩
  · rw [hpar] at hp
    simp at hp
  · exact ⟨p, mem_fresh.2 ⟨hpS, by rw [hph, hpar]⟩, hph, hv⟩

theorem valid_of_stored (hS : Admissible w S) (hx : x ∈ fresh w S) {p : Block}
    (hp : w.blockchain.getBlock x.getParent = some p) : checkBlockValidity x p = true := by
  rcases hS.parent x (mem_fresh.1 hx).1 with ⟨p', hp', hv⟩ | ⟨hnone, -⟩
  · rw [hp, Option.some_inj] at hp'
    rw [hp']
    exact hv
  · rw [hp] at hnone
    simp at hnone

theorem length_ne_one (hS : Admissible w S) (hx : x ∈ S) : x.length ≠ 1 := by
  intro h
  have hlong := hS.long x hx
  rw [h] at hlong
  exact absurd hlong (UInt32.lt_irrefl 1)

end Admissible

namespace Unentangled

/-- The parent of a new block, when it is new itself, has a stored parent. -/
theorem isSome_grandparent (hU : Unentangled w S) (hS : Admissible w S) {t : Block} (hx : x ∈ fresh w S)
    (ht : t ∈ fresh w S) (htx : t.hash = x.getParent) :
    (w.blockchain.getBlock t.getParent).isSome := by
  cases htpar : w.blockchain.getBlock t.getParent with
  | some p => rfl
  | none =>
      obtain ⟨t', ht', htt', -⟩ := hS.parent_new ht htpar
      exact absurd htx.symm (hU.short t' ht' t ht htt'.symm x hx)

/-- Every new block is attached in the end: its parent is stored, or has a stored parent. -/
theorem attached_of_fresh (hU : Unentangled w S) (hS : Admissible w S) (hx : x ∈ fresh w S) :
    Attached w S x := by
  cases hpar : w.blockchain.getBlock x.getParent with
  | some p => exact .stored hx (by rw [hpar]; rfl)
  | none =>
      obtain ⟨t, ht, htx, hv⟩ := hS.parent_new hx hpar
      have hatt : Attached w S t := .stored ht (hU.isSome_grandparent hS hx ht htx)
      exact .child hatt (List.mem_append_right _ hx) htx.symm hv

theorem visited_of_fresh (hU : Unentangled w S) (hS : Admissible w S) (hx : x ∈ fresh w S) :
    Visited w S x :=
  (hU.attached_of_fresh hS hx).visited

theorem new (hU : Unentangled w S) : New w.blockchain (Attached w S) where
  notStored z hz := hU.notStored z hz.visited
  distinct y z hy hz := hU.distinct y z hy.visited hz.visited

/-- No block that is reached is its own parent. -/
theorem getParent_ne (hU : Unentangled w S) (hz : Visited w S z) : z.getParent ≠ z.hash := by
  intro h
  induction hz with
  | stored hz hp =>
      rw [h, (mem_fresh.1 hz).2] at hp
      simp at hp
  | child hy hz hzy ih =>
      obtain rfl := hU.distinct _ _ hy (.child hy hz hzy) (hzy.symm.trans h)
      exact ih h

/-- The only attached parent of an attached block. -/
theorem attached_child (hU : Unentangled w S) (hy : Visited w S y) (hzy : z.getParent = y.hash)
    (hz : Attached w S z) : Attached w S y ∧ checkBlockValidity z y = true := by
  cases hz with
  | stored hz hp =>
      rw [hzy, hU.notStored y hy] at hp
      simp at hp
  | child hy' _ hzy' hv =>
      obtain rfl := hU.distinct _ _ hy'.visited hy (hzy'.symm.trans hzy)
      exact ⟨hy', hv⟩

/-- Nothing is reached that is neither delivered nor parked. -/
theorem not_visited (hU : Unentangled w S) (hx : x ∈ fresh w S) (hxL : x ∉ L) :
    ¬ Visited w L x := by
  intro h
  rcases List.mem_append.1 h.mem with h | h
  · exact hU.apart x (mem_fresh.1 hx).1 h
  · exact hxL (mem_fresh.1 h).1

end Unentangled

/-- The invariant of a delivery: the store has the outcomes of the blocks that were attached, and the
buffer holds the parked and the delivered blocks that have not been reached. -/
structure Delivered (w : Worker) (S L : List Block) (c' : Blockchain) (buffer' : List Block) :
    Prop where
  store : HasOutcomes w.blockchain (Attached w S) (Attached w L) c'
  sublist : buffer'.Sublist (w.orphanBuffer ++ fresh w L)
  mem : ∀ z, z ∈ buffer' ↔ z ∈ w.orphanBuffer ++ fresh w L ∧ ¬ Visited w L z

/-! ### The buffer of a delivery is tidy -/

/-- Among the parked and the delivered blocks, the parent of a block that waits never stands before
it. -/
theorem pairwise_waiting (hS : Admissible w S) (hU : Unentangled w S) (hL : L ⊆ S) :
    (w.orphanBuffer ++ fresh w L).Pairwise fun a b =>
      ¬ Visited w L a → Visited w S a → b.getParent ≠ a.hash := by
  refine List.pairwise_append.2 ⟨?_, ?_, ?_⟩
  · exact hU.before.imp fun h _ ha => h ha
  · refine List.pairwise_of_forall_mem_list fun a ha b hb hwait hvisit hba => ?_
    -- both are new, so the parent of `a` is stored and `a` does not wait
    have haS := fresh_mono hL ha
    cases hpar : w.blockchain.getBlock a.getParent with
    | some p => exact hwait (.stored ha (by rw [hpar]; rfl))
    | none =>
        obtain ⟨t, ht, hta, -⟩ := hS.parent_new haS hpar
        exact hU.short t ht a haS hta.symm b (fresh_mono hL hb) hba
  · intro a ha b hb _ hvisit hba
    -- the parent of a new block is stored or new
    have hpar : w.blockchain.getBlock b.getParent = none := by
      rw [hba]
      exact hU.notStored a hvisit
    obtain ⟨t, ht, htb, -⟩ := hS.parent_new (fresh_mono hL hb) hpar
    obtain rfl := hU.distinct t a (hU.visited_of_fresh hS ht) hvisit (htb.trans hba)
    exact hU.apart t (mem_fresh.1 ht).1 ha

variable {c' : Blockchain} {buffer' : List Block}

theorem Delivered.tidy (hD : Delivered w S L c' buffer') (hS : Admissible w S)
    (hU : Unentangled w S) (hL : L ⊆ S) (hLnodup : L.Nodup) :
    Tidy (fun h => ∃ a, Visited w S a ∧ a.hash = h) buffer' := by
  have hclosed : ∀ z ∈ buffer', ∀ a, Visited w S a → a.hash = z.getParent → Visited w S z :=
    fun z hz a ha haz =>
      .child ha (mem_parked_or_fresh_mono hL ((hD.mem z).1 hz).1) haz.symm
  refine ⟨?_, ?_, ?_⟩
  · rintro z hz ⟨a, ha, haz⟩
    exact ⟨z, hclosed z hz a ha haz, rfl⟩
  · rintro k ⟨a, ha, rfl⟩
    refine le_trans ?_ (hU.oneChild a ha)
    -- the buffer has no more copies of a block than the new and the parked blocks together
    have hfresh : (fresh w L).Subperm (fresh w S) :=
      List.Nodup.subperm (hLnodup.filter _) fun z hz => fresh_mono hL hz
    have hsub : buffer'.Subperm (fresh w S ++ w.orphanBuffer) :=
      (hD.sublist.subperm.trans ((List.subperm_append_left _).2 hfresh)).trans
        List.perm_append_comm.subperm
    exact (hsub.filter _).length_le
  · rintro i j a z hi hj ⟨b, hb, hba⟩ hza
    have hamem := List.mem_of_getElem? hi
    have ha : Visited w S a := hclosed a hamem b hb hba
    obtain ⟨hilt, hia⟩ := List.getElem?_eq_some_iff.1 hi
    obtain ⟨hjlt, hjz⟩ := List.getElem?_eq_some_iff.1 hj
    rcases Nat.lt_trichotomy i j with hij | rfl | hij
    · have hpair := List.pairwise_iff_getElem.1
        ((pairwise_waiting hS hU hL).sublist hD.sublist) i j hilt hjlt hij
      rw [hia, hjz] at hpair
      exact absurd hza (hpair ((hD.mem a).1 hamem).2 ha)
    · rw [hi, Option.some_inj] at hj
      rw [← hj] at hza
      exact absurd hza (hU.getParent_ne ha)
    · exact hij

/-! ### The step of a delivery -/

/-- A child of a block that is reached is attached when it should be, and rejected otherwise. -/
theorem exists_settles (hS : Admissible w S) (hU : Unentangled w S) {D : Block → Prop} {a : Block}
    {c₁ : Blockchain} (hout : HasOutcomes w.blockchain (Attached w S) D c₁) (ha : Visited w S a)
    (haD : Attached w S a → D a) (hz : z ∈ w.orphanBuffer ++ fresh w S)
    (hza : z.getParent = a.hash) (hne : ∀ y, D y → y.hash ≠ z.hash) :
    ∃ c₂, Settles c₁ z a c₂ ∧
      HasOutcomes w.blockchain (Attached w S) (fun y => D y ∨ (y = z ∧ Attached w S y)) c₂ := by
  by_cases hA : Attached w S z
  · obtain ⟨haA, hv⟩ := hU.attached_child ha hza hA
    obtain ⟨l, s, hzout⟩ := hU.executes z hA
    obtain ⟨c₂, hattach, hout'⟩ :=
      hout.attach hU.new (Or.inr ⟨a, haA, haD haA, hza.symm⟩) hne hzout
    refine ⟨c₂, Or.inl ⟨hv, hattach⟩, hout'.congr fun y => or_congr_right ?_⟩
    exact ⟨And.left, fun h => ⟨h, h ▸ hA⟩⟩
  · have hv : checkBlockValidity z a = false := by
      by_cases haA : Attached w S a
      · rw [← Bool.not_eq_true]
        exact fun hv => hA (.child haA hz hza hv)
      · rcases List.mem_append.1 hz with hzQ | hzF
        · exact hU.rejected a ha haA z hzQ hza
        · exact absurd (hU.attached_of_fresh hS hzF) hA
    refine ⟨c₁, Or.inr ⟨hv, rfl⟩, hout.congr fun y => or_iff_left ?_⟩
    rintro ⟨rfl, hy⟩
    exact hA hy

/-- The blocks of a search are attached one after the other, as far as they are valid.  `P` is the list
of the blocks visited before. -/
theorem exists_settlesAll (hD : Delivered w S L c' buffer') (hS : Admissible w S)
    (hU : Unentangled w S) (hL : L ⊆ S) : ∀ {fuel : ℕ} {path : List (ℕ × Block)} {a : Block}
    {P : List Block} {c₁ : Blockchain}, searchPath fuel a.hash buffer' = some path →
      Visited w S a → a ∈ P → (P ++ path.map Prod.snd).Nodup →
      HasOutcomes w.blockchain (Attached w S)
        (fun z => Attached w L z ∨ (z ∈ P ∧ Attached w S z)) c₁ →
      ∃ c₂, SettlesAll c₁ a path c₂ ∧ HasOutcomes w.blockchain (Attached w S)
        (fun z => Attached w L z ∨ (z ∈ P ++ path.map Prod.snd ∧ Attached w S z)) c₂ := by
  intro fuel
  induction fuel with
  | zero => intro path a P c₁ hs; simp [searchPath] at hs
  | succ fuel ih =>
      intro path a P c₁ hs ha haP hnodup hout
      rcases searchPath_cases hs with ⟨-, rfl⟩ | ⟨idx, z, path', hf, hs', rfl⟩
      · rw [List.map_nil, List.append_nil]
        exact ⟨c₁, rfl, hout⟩
      · obtain ⟨hzmem, hza⟩ := mem_of_findChild hf
        obtain ⟨hzfrom, hwait⟩ := (hD.mem z).1 hzmem
        have hzS := mem_parked_or_fresh_mono hL hzfrom
        have hz : Visited w S z := .child ha hzS hza
        have hzP : z ∉ P := by
          intro hzP
          exact (List.nodup_append.1 hnodup).2.2 z hzP z (List.mem_cons_self ..) rfl
        have hne : ∀ y, Attached w L y ∨ (y ∈ P ∧ Attached w S y) → y.hash ≠ z.hash := by
          rintro y (hy | ⟨hyP, hy⟩) hyz
          · rw [hU.distinct y z (hy.visited.mono hL) hz hyz] at hy
            exact hwait hy.visited
          · rw [hU.distinct y z hy.visited hz hyz] at hyP
            exact hzP hyP
        have happ : P ++ ((idx, z) :: path').map Prod.snd = P ++ [z] ++ path'.map Prod.snd := by
          simp
        -- the block itself, and then the rest of the path
        obtain ⟨c₂, hsettle, hout'⟩ :=
          exists_settles hS hU hout ha (fun haA => Or.inr ⟨haP, haA⟩) hzS hza hne
        have hout' : HasOutcomes w.blockchain (Attached w S)
            (fun y => Attached w L y ∨ (y ∈ P ++ [z] ∧ Attached w S y)) c₂ := by
          refine hout'.congr fun y => ?_
          rw [List.mem_append, List.mem_singleton, or_and_right, ← or_assoc]
        rw [happ] at hnodup
        obtain ⟨c₃, hall, hout''⟩ := ih hs' hz (List.mem_append_right _ (List.mem_singleton.2 rfl))
          hnodup hout'
        rw [happ]
        exact ⟨c₃, ⟨c₂, hsettle, hall⟩, hout''⟩

theorem visited_snoc (hD : Delivered w S L c' buffer') (hx : x ∈ fresh w S)
    (hthere : Visited w (L ++ [x]) x) {P : List Block} (hP : Reaches buffer' x P) :
    Visited w (L ++ [x]) z ↔ Visited w L z ∨ z ∈ P := by
  have hsnoc : ∀ y, y ∈ w.orphanBuffer ++ fresh w (L ++ [x]) →
      y ∈ w.orphanBuffer ++ fresh w L ∨ y = x := by
    intro y hy
    rw [fresh_snoc hx, ← List.append_assoc] at hy
    exact (List.mem_append.1 hy).imp id List.mem_singleton.1
  constructor
  · intro h
    induction h with
    | @stored z hz hp =>
        rw [fresh_snoc hx] at hz
        rcases List.mem_append.1 hz with hz | hz
        · exact Or.inl (.stored hz hp)
        · rw [List.mem_singleton.1 hz]
          exact Or.inr hP.start
    | @child y z hy hz hzy ih =>
        rcases hsnoc z hz with hz | rfl
        · rcases ih with ih | ih
          · exact Or.inl (.child ih hz hzy)
          · by_cases hzL : Visited w L z
            · exact Or.inl hzL
            · exact Or.inr (hP.closed z ((hD.mem z).2 ⟨hz, hzL⟩) y ih hzy)
        · exact Or.inr hP.start
  · rintro (h | h)
    · exact h.mono (List.subset_append_left _ _)
    · refine hP.least _ hthere (fun a z ha hz hza => ?_) z h
      exact .child ha (mem_parked_or_fresh_mono (List.subset_append_left _ _) ((hD.mem z).1 hz).1)
        hza

theorem attached_snoc (hD : Delivered w S L c' buffer') (hU : Unentangled w S) (hL : L ⊆ S)
    (hx : x ∈ fresh w S) (hxL : x ∉ L) (hxA : Attached w S x) (hthere : Attached w (L ++ [x]) x)
    {P : List Block} (hP : Reaches buffer' x P) :
    Attached w (L ++ [x]) z ↔ Attached w L z ∨ (z ∈ P ∧ Attached w S z) := by
  have hLx : L ++ [x] ⊆ S := by
    intro y hy
    rcases List.mem_append.1 hy with hy | hy
    · exact hL hy
    · rw [List.mem_singleton.1 hy]
      exact (mem_fresh.1 hx).1
  have hwait : ∀ y ∈ P, ¬ Visited w L y := by
    refine hP.least _ (hU.not_visited hx hxL) fun a z _ hz _ => ((hD.mem z).1 hz).2
  constructor
  · intro h
    by_cases hzL : Attached w L z
    · exact Or.inl hzL
    · refine Or.inr ⟨?_, h.mono hLx⟩
      rcases (visited_snoc hD hx hthere.visited hP).1 h.visited with hz | hz
      · -- a block that was reached before keeps the parent that it was reached from
        exfalso
        induction hz with
        | stored hz hp => exact hzL (.stored hz hp)
        | @child y z hy hz hzy ih =>
            obtain ⟨hyA, hv⟩ := hU.attached_child (hy.mono hL) hzy (h.mono hLx)
            have hyL : Attached w L y := by
              by_contra hyL
              cases h with
              | stored hz' hp' =>
                  rw [hzy, hU.notStored y (hy.mono hL)] at hp'
                  simp at hp'
              | child hy' _ hzy' _ =>
                  obtain rfl := hU.distinct _ _ (hy'.visited.mono hLx) (hy.mono hL)
                    (hzy'.symm.trans hzy)
                  exact ih hy' hyL
            exact hzL (.child hyL hz hzy hv)
      · exact hz
  · rintro (h | ⟨hzP, hzA⟩)
    · exact h.mono (List.subset_append_left _ _)
    · have hreach : ∀ y ∈ P, Visited w S y ∧ (Attached w S y → Attached w (L ++ [x]) y) := by
        refine hP.least _ ⟨hxA.visited, fun _ => hthere⟩ ?_
        rintro a y ⟨haV, ha⟩ hy hya
        have hfrom := ((hD.mem y).1 hy).1
        refine ⟨.child haV (mem_parked_or_fresh_mono hL hfrom) hya, fun hyA => ?_⟩
        obtain ⟨haA, hv⟩ := hU.attached_child haV hya hyA
        exact .child (ha haA) (mem_parked_or_fresh_mono (List.subset_append_left _ _) hfrom) hya hv
      exact (hreach z hzP).2 hzA

theorem Delivered.not_mem (hD : Delivered w S L c' buffer') (hU : Unentangled w S)
    (hx : x ∈ fresh w S) (hxL : x ∉ L) : x ∉ buffer' := by
  intro hmem
  rcases List.mem_append.1 ((hD.mem x).1 hmem).1 with h | h
  · exact hU.apart x (mem_fresh.1 hx).1 h
  · exact hxL (mem_fresh.1 h).1

/-- The search that a new block starts: its cleanup removes the blocks that it visits. -/
theorem Delivered.exists_search (hD : Delivered w S L c' buffer') (hS : Admissible w S)
    (hU : Unentangled w S) (hL : L ⊆ S) (hLnodup : L.Nodup) (hx : x ∈ fresh w S) (hxL : x ∉ L) :
    ∃ path buffer'', searchPath (buffer'.length + 1) x.hash buffer' = some path ∧
      removeAll (path.map Prod.fst) buffer' = .done buffer'' () ∧ buffer''.Sublist buffer' ∧
      (∀ z, z ∈ buffer'' ↔ z ∈ buffer' ∧ z ∉ [x] ++ path.map Prod.snd) ∧
      Reaches buffer' x ([x] ++ path.map Prod.snd) ∧ ([x] ++ path.map Prod.snd).Nodup := by
  have htidy := hD.tidy hS hU hL hLnodup
  have hnot := hD.not_mem hU hx hxL
  have hK : ∃ a, Visited w S a ∧ a.hash = x.hash := ⟨x, hU.visited_of_fresh hS hx, rfl⟩
  obtain ⟨path, hpath, hdec, -⟩ := htidy.exists_searchPath (buffer'.length + 1) hK
    (fun i z hz _ => (List.getElem?_eq_some_iff.1 hz).1) (Nat.lt_succ_self _)
  have hone : ∀ k ∈ x.hash :: path.map fun q => q.2.hash,
      (buffer'.filter fun z => z.getParent = k).length ≤ 1 :=
    fun k hk => htidy.oneChild k (htidy.mem_of_searchPath hK hpath k hk)
  refine ⟨path, _, hpath, removeAll_searchPath hpath hdec hone, List.filter_sublist,
    fun z => mem_filter_searchPath hpath hone hnot, reaches_of_searchPath hpath hone, ?_⟩
  refine List.nodup_cons.2 ⟨fun hmem => ?_, htidy.nodup_searchPath hK hpath hdec⟩
  obtain ⟨q, hq, hqx⟩ := List.mem_map.1 hmem
  exact hnot (hqx ▸ List.mem_of_getElem? (mem_searchPath hpath q hq).1)

variable {m : Worker}

/-- Delivering a block whose parent is there. -/
theorem delivered_attach (hD : Delivered w S L m.blockchain m.orphanBuffer) (hS : Admissible w S)
    (hU : Unentangled w S) (hL : L ⊆ S) (hLnodup : L.Nodup) (hx : x ∈ fresh w S) (hxL : x ∉ L)
    {p : Block} (hp : m.blockchain.getBlock x.getParent = some p)
    (hv : checkBlockValidity x p = true)
    (hparent : HasOutcomes.Parent w.blockchain (Attached w S) (Attached w L) x)
    (hthere : Attached w (L ++ [x]) x) :
    (m.handleNewBlock x).Ends fun m' _ =>
      Delivered w S (L ++ [x]) m'.blockchain m'.orphanBuffer := by
  have hxA := hU.attached_of_fresh hS hx
  have hxnot := hU.not_visited hx hxL
  obtain ⟨path, buffer'', hpath, hremove, hsub, hmem, hreaches, hnodup⟩ :=
    hD.exists_search hS hU hL hLnodup hx hxL
  -- the store
  obtain ⟨l, s, hxout⟩ := hU.executes x hxA
  have hne : ∀ z, Attached w L z → z.hash ≠ x.hash := by
    intro z hz hzx
    rw [hU.distinct z x (hz.visited.mono hL) hxA.visited hzx] at hz
    exact hxnot hz.visited
  obtain ⟨c₁, hattach, hout⟩ := hD.store.attach hU.new hparent hne hxout
  have hout' : HasOutcomes w.blockchain (Attached w S)
      (fun z => Attached w L z ∨ (z ∈ [x] ∧ Attached w S z)) c₁ := by
    refine hout.congr fun z => or_congr_right ?_
    rw [List.mem_singleton]
    exact ⟨And.left, fun h => ⟨h, h ▸ hxA⟩⟩
  obtain ⟨c₂, hall, hout''⟩ := exists_settlesAll hD hS hU hL hpath hxA.visited
    (List.mem_singleton.2 rfl) hnodup hout'
  refine (Worker.handleNewBlock_search hp (Or.inl ⟨hv, hattach⟩) hpath hall hremove).mono ?_
  rintro m' - ⟨hchain, hbuf⟩
  rw [hchain, hbuf]
  refine ⟨?_, ?_, fun z => ?_⟩
  · exact hout''.congr fun z => attached_snoc hD hU hL hx hxL hxA hthere hreaches
  · rw [fresh_snoc hx, ← List.append_assoc]
    exact (hsub.trans hD.sublist).trans (List.sublist_append_left _ _)
  · rw [visited_snoc hD hx hthere.visited hreaches, hmem, hD.mem, fresh_snoc hx,
      ← List.append_assoc, List.mem_append (t := [x]), List.mem_singleton, not_or, and_assoc]
    refine ⟨fun ⟨hz, hrest⟩ => ⟨Or.inl hz, hrest⟩, fun ⟨hz, hrest⟩ => ⟨?_, hrest⟩⟩
    exact hz.resolve_right fun h => hrest.2 (h ▸ hreaches.start)

/-- Delivering a block that is stored already. -/
theorem delivered_skip (hD : Delivered w S L m.blockchain m.orphanBuffer) (hS : Admissible w S)
    (hU : Unentangled w S) (hL : L ⊆ S) (hxS : x ∈ S) (hxL : x ∉ L)
    (hs : (m.blockchain.getBlock x.hash).isSome) :
    Delivered w S (L ++ [x]) m.blockchain m.orphanBuffer := by
  have hstored : w.blockchain.getBlock x.hash ≠ none := by
    intro hnone
    have hx : x ∈ fresh w S := mem_fresh.2 ⟨hxS, hnone⟩
    have hne : ∀ z, Attached w L z → z.hash ≠ x.hash := by
      intro z hz hzx
      rw [hU.distinct z x (hz.visited.mono hL) (hU.visited_of_fresh hS hx) hzx] at hz
      exact hU.not_visited hx hxL hz.visited
    rw [(hD.store.old _ hne).1, hnone] at hs
    simp at hs
  -- a stored block is not counted among the delivered ones
  have hfresh : fresh w (L ++ [x]) = fresh w L := by
    rw [fresh, List.filter_append, ← fresh]
    simpa using hstored
  have hsub : fresh w (L ++ [x]) ⊆ fresh w L := hfresh ▸ List.Subset.refl _
  refine ⟨hD.store.congr fun z => ⟨.of_fresh hsub, .mono (List.subset_append_left _ _)⟩,
    hfresh ▸ hD.sublist, fun z => ?_⟩
  rw [hD.mem, hfresh]
  exact and_congr_right fun _ => not_congr ⟨.mono (List.subset_append_left _ _), .of_fresh hsub⟩

/-- Delivering a block whose parent is new and has not been delivered: it is parked. -/
theorem delivered_park (hD : Delivered w S L m.blockchain m.orphanBuffer) (hS : Admissible w S)
    (hU : Unentangled w S) (hL : L ⊆ S) (hx : x ∈ fresh w S) (hxL : x ∉ L) {t : Block}
    (ht : t ∈ fresh w S) (htx : t.hash = x.getParent) (htL : t ∉ L) :
    (m.handleNewBlock x).Ends fun m' _ =>
      Delivered w S (L ++ [x]) m'.blockchain m'.orphanBuffer := by
  have htV := hU.visited_of_fresh hS ht
  have hpar : w.blockchain.getBlock x.getParent = none := by
    rw [← htx]
    exact (mem_fresh.1 ht).2
  have hpar' : m.blockchain.getBlock x.getParent = none := by
    have hne : ∀ z, Attached w L z → z.hash ≠ x.getParent := by
      intro z hz hzx
      rw [hU.distinct z t (hz.visited.mono hL) htV (hzx.trans htx.symm)] at hz
      exact hU.not_visited ht htL hz.visited
    rw [(hD.store.old _ hne).1, hpar]
  -- nothing that was reached is a parent of `x`
  have hnot : ∀ y, Visited w L y → x.getParent ≠ y.hash := by
    intro y hy hxy
    rw [hU.distinct y t (hy.mono hL) htV (hxy.symm.trans htx.symm)] at hy
    exact hU.not_visited ht htL hy
  have hsnoc : ∀ z, z ∈ w.orphanBuffer ++ fresh w (L ++ [x]) ↔
      z ∈ w.orphanBuffer ++ fresh w L ∨ z = x := by
    intro z
    rw [fresh_snoc hx, ← List.append_assoc, List.mem_append (t := [x]), List.mem_singleton]
  have hstored : ∀ z, z ∈ fresh w (L ++ [x]) → (w.blockchain.getBlock z.getParent).isSome →
      z ∈ fresh w L := by
    intro z hz hp
    rw [fresh_snoc hx] at hz
    rcases List.mem_append.1 hz with hz | hz
    · exact hz
    · rw [List.mem_singleton.1 hz, hpar] at hp
      simp at hp
  have hvisited : ∀ z, Visited w (L ++ [x]) z ↔ Visited w L z := by
    refine fun z => ⟨fun h => ?_, fun h => h.mono (List.subset_append_left _ _)⟩
    induction h with
    | stored hz hp => exact .stored (hstored _ hz hp) hp
    | @child y z hy hz hzy ih =>
        rcases (hsnoc z).1 hz with hz | rfl
        · exact .child ih hz hzy
        · exact absurd hzy (hnot y ih)
  have hattached : ∀ z, Attached w (L ++ [x]) z ↔ Attached w L z := by
    refine fun z => ⟨fun h => ?_, fun h => h.mono (List.subset_append_left _ _)⟩
    induction h with
    | stored hz hp => exact .stored (hstored _ hz hp) hp
    | @child y z hy hz hzy hv ih =>
        rcases (hsnoc z).1 hz with hz | rfl
        · exact .child ih hz hzy hv
        · exact absurd hzy (hnot y ih.visited)
  refine (Worker.handleNewBlock_park hpar' (hS.length_ne_one (mem_fresh.1 hx).1)).mono ?_
  rintro m' - ⟨hchain, hbuf⟩
  rw [hchain, hbuf]
  refine ⟨hD.store.congr hattached, ?_, fun z => ?_⟩
  · rw [fresh_snoc hx, ← List.append_assoc]
    exact hD.sublist.append (List.Sublist.refl _)
  · rw [List.mem_append, hD.mem, List.mem_singleton, hsnoc, hvisited, or_and_right]
    refine or_congr_right ⟨fun h => ⟨h, ?_⟩, And.left⟩
    rw [h]
    exact hU.not_visited hx hxL

/-- **The step lemma**: the delivery of one more block. -/
theorem delivered_step (hD : Delivered w S L m.blockchain m.orphanBuffer) (hS : Admissible w S)
    (hU : Unentangled w S) (hL : L ⊆ S) (hLnodup : L.Nodup) (hxS : x ∈ S) (hxL : x ∉ L)
    (hnone : m.blockchain.getBlock x.hash = none) :
    (m.handleNewBlock x).Ends fun m' _ =>
      Delivered w S (L ++ [x]) m'.blockchain m'.orphanBuffer := by
  -- what was stored before the delivery still is
  have hkeep : ∀ h b, w.blockchain.getBlock h = some b → m.blockchain.getBlock h = some b ∧
      ∀ z, Attached w L z → z.hash ≠ h := by
    intro h b hb
    have hne : ∀ z, Attached w L z → z.hash ≠ h := by
      rintro z hz rfl
      rw [hU.notStored z (hz.visited.mono hL)] at hb
      simp at hb
    exact ⟨(hD.store.old _ hne).1.trans hb, hne⟩
  have hnew : w.blockchain.getBlock x.hash = none := by
    cases hb : w.blockchain.getBlock x.hash with
    | none => rfl
    | some b =>
        rw [(hkeep _ b hb).1] at hnone
        simp at hnone
  have hx : x ∈ fresh w S := mem_fresh.2 ⟨hxS, hnew⟩
  have hxsnoc : x ∈ fresh w (L ++ [x]) := by
    rw [fresh_snoc hx]
    exact List.mem_append_right _ (List.mem_singleton.2 rfl)
  cases hpar : w.blockchain.getBlock x.getParent with
  | some p =>
      obtain ⟨hp, hne⟩ := hkeep _ p hpar
      refine delivered_attach hD hS hU hL hLnodup hx hxL hp (hS.valid_of_stored hx hpar)
        (Or.inl ⟨⟨p, hpar⟩, hne⟩) (.stored hxsnoc ?_)
      rw [hpar]
      rfl
  | none =>
      obtain ⟨t, ht, htx, hv⟩ := hS.parent_new hx hpar
      by_cases htL : t ∈ L
      · -- the parent has a stored parent, so it is attached
        have hatt : Attached w L t :=
          .stored (mem_fresh.2 ⟨htL, (mem_fresh.1 ht).2⟩) (hU.isSome_grandparent hS hx ht htx)
        obtain ⟨l, s, -, hb, -⟩ := hD.store.new t hatt
        rw [htx] at hb
        refine delivered_attach hD hS hU hL hLnodup hx hxL hb hv
          (Or.inr ⟨t, hatt.mono hL, hatt, htx⟩) ?_
        exact .child (hatt.mono (List.subset_append_left _ _)) (List.mem_append_right _ hxsnoc)
          htx.symm hv
      · exact delivered_park hD hS hU hL hx hxL ht htx htL

/-! ### Whole deliveries -/

theorem delivered_nil : Delivered w S [] w.blockchain w.orphanBuffer := by
  have hnone : ∀ z, ¬ Visited w [] z := by
    intro z h
    induction h with
    | stored hz _ => exact absurd hz List.not_mem_nil
    | child _ _ _ ih => exact ih
  refine ⟨(HasOutcomes.refl _ _).congr fun z => ?_, List.sublist_append_left _ _, fun z => ?_⟩
  · exact ⟨fun h => hnone z h.visited, False.elim⟩
  · rw [show fresh w [] = [] from rfl, List.append_nil]
    exact ⟨fun h => ⟨h, hnone z⟩, And.left⟩

/-- **The run lemma**: the store and the buffer after a delivery. -/
theorem delivered_deliver (hS : Admissible w S) (hU : Unentangled w S)
    {messages : List (List Block)} (hperm : messages.flatten.Perm S) :
    (w.deliver messages).Ends fun w' _ =>
      Delivered w S messages.flatten w'.blockchain w'.orphanBuffer := by
  have hnodup : messages.flatten.Nodup := hperm.nodup_iff.2 hS.distinct.of_map
  -- what is known of a prefix of the delivery and the block after it
  have hfacts : ∀ L x rest, messages.flatten = L ++ x :: rest →
      L ⊆ S ∧ L.Nodup ∧ x ∈ S ∧ x ∉ L := by
    intro L x rest hT
    rw [hT] at hnodup hperm
    have hmem : ∀ z ∈ L ++ x :: rest, z ∈ S := fun z hz => hperm.mem_iff.1 hz
    obtain ⟨hL, -, hdisj⟩ := List.nodup_append.1 hnodup
    refine ⟨fun z hz => hmem z (List.mem_append_left _ hz), hL, ?_, fun hx => ?_⟩
    · exact hmem x (List.mem_append_right _ (List.mem_cons_self ..))
    · exact hdisj x hx x (List.mem_cons_self ..) rfl
  refine Worker.deliver_ends (T := messages.flatten)
    (I := fun L c' buffer' => Delivered w S L c' buffer') ?_ ?_ messages [] w rfl delivered_nil
  · intro L x rest m hT hD hs
    obtain ⟨hL, -, hxS, hxL⟩ := hfacts L x rest hT
    exact delivered_skip hD hS hU hL hxS hxL hs
  · intro L x rest m hT hD hnone
    obtain ⟨hL, hLnodup, hxS, hxL⟩ := hfacts L x rest hT
    exact delivered_step hD hS hU hL hLnodup hxS hxL hnone

/-- **Unentangled blocks may arrive in any order.** -/
theorem orderIndependent_of_unentangled (hS : Admissible w S) (hU : Unentangled w S) :
    OrderIndependent w S := by
  -- the whole delivery attaches what the delivery of `S` attaches
  have hend : ∀ messages : List (List Block), messages.flatten.Perm S →
      (w.deliver messages).Ends fun w' _ =>
        HasOutcomes w.blockchain (Attached w S) (Attached w S) w'.blockchain ∧
          ∀ x ∈ S, x ∉ w'.orphanBuffer := by
    intro messages hperm
    refine (delivered_deliver hS hU hperm).mono fun w' _ hD => ⟨hD.store.congr fun z => ?_, ?_⟩
    · exact ⟨fun h => h.mono hperm.symm.subset, fun h => h.mono hperm.subset⟩
    · intro x hx hmem
      obtain ⟨hfrom, hwait⟩ := (hD.mem x).1 hmem
      rcases List.mem_append.1 hfrom with hxQ | hxF
      · exact hU.apart x hx hxQ
      · have hxS : x ∈ fresh w S := mem_fresh.2 ⟨hx, (mem_fresh.1 hxF).2⟩
        exact hwait ((hU.visited_of_fresh hS hxS).mono hperm.symm.subset)
  intro messages messages' hperm hperm'
  obtain ⟨w₁, ⟨⟩, hd₁, hout₁, hnot₁⟩ := hend messages hperm
  obtain ⟨w₂, ⟨⟩, hd₂, hout₂, hnot₂⟩ := hend messages' hperm'
  exact ⟨w₁, w₂, hd₁, hd₂, hout₁.unique hU.new hout₂, fun x hx => ⟨hnot₁ x hx, hnot₂ x hx⟩⟩

end

end BitcoinClient
