/-
**Double spends and replays.**

A transaction must carry the successor of its sender's nonce, and executing it writes that nonce to
the sender's entry.  This is no protection inside a block, where every nonce is read from the
parent state, and it is lost when a later credit of the same block replaces the sender's entry: the
nonce goes back, and what the account sends next reuses one that was spent already.  This module
proves that these two are the only ways to spend a nonce twice.

Main definitions:

* `BitcoinClient.executeChain` — the execution of the blocks of a chain, one after the other;
* `BitcoinClient.spends` — the senders and nonces of a list of transactions;
* `BitcoinClient.rewound` — the senders of a block whose entry a later credit replaces;
* `BitcoinClient.NoReplay` — no block has two transactions of one sender, and a sender that was
  rewound sends nothing in a later block.

Main results:

* `BitcoinClient.nodup_spends_executeChain` — the induction over a chain;
* `BitcoinClient.no_double_spend_iff` — **the nonces of a chain are spent once** exactly when its
  blocks meet `NoReplay`;
* `BitcoinClient.replayed_transactions` — a transaction executed twice, in one block and in two.
-/

import BitcoinClient.ExecuteTx
import BitcoinClient.Blockchain

set_option relaxedAutoImplicit false
set_option autoImplicit false

namespace BitcoinClient

/-! ### Chains -/

/-- The execution of the blocks of a chain on the state `s`: the state after the last one, and the
valid transactions of all of them. -/
def executeChain : State → List (List SignedTransaction) →
    Option (State × List SignedTransaction)
  | s, [] => some (s, [])
  | s, data :: rest =>
    match executeTx s data with
    | none => none
    | some (newState, validTx) =>
      match executeChain newState rest with
      | none => none
      | some (last, later) => some (last, validTx ++ later)

/-- The accounts that send the transactions of a list. -/
def senders (v : List SignedTransaction) : List Address := v.map fun tx => tx.transaction.sender

/-- The nonces that a list spends, with their accounts. -/
def spends (v : List SignedTransaction) : List (Address × UInt32) :=
  v.map fun tx => (tx.transaction.sender, tx.transaction.accountNonce)

/-- The senders of a list whose entry is written last by a credit. -/
def rewound (v : List SignedTransaction) : List Address :=
  (senders v).filter fun a => (lastTouch v a).any fun tx => tx.transaction.sender ≠ a

/-- In every block the executable transactions have different senders, and none of these is
`frozen` or was rewound by an earlier block. -/
def NoReplay : List Address → State → List (List SignedTransaction) → Prop
  | _, _, [] => True
  | frozen, s, data :: rest =>
    (senders (data.filter (executable s))).Nodup ∧
      (∀ tx ∈ data.filter (executable s), tx.transaction.sender ∉ frozen) ∧
      NoReplay (frozen ++ rewound (data.filter (executable s)))
        (applyAll s s (data.filter (executable s))) rest

instance decidableNoReplay : (frozen : List Address) → (s : State) →
    (blocks : List (List SignedTransaction)) → Decidable (NoReplay frozen s blocks)
  | _, _, [] => inferInstanceAs (Decidable True)
  | frozen, s, data :: rest =>
    have := decidableNoReplay (frozen ++ rewound (data.filter (executable s)))
      (applyAll s s (data.filter (executable s))) rest
    inferInstanceAs (Decidable (_ ∧ _ ∧ _))

theorem executeChain_cons {s t : State} {data : List SignedTransaction}
    {rest : List (List SignedTransaction)} {valid : List SignedTransaction}
    (h : executeChain s (data :: rest) = some (t, valid)) :
    ∃ m v later, executeTx s data = some (m, v) ∧ executeChain m rest = some (t, later) ∧
      valid = v ++ later := by
  rw [executeChain] at h
  cases he : executeTx s data with
  | none => simp [he] at h
  | some r =>
      obtain ⟨m, v⟩ := r
      cases hr : executeChain m rest with
      | none => simp [he, hr] at h
      | some q =>
          obtain ⟨last, later⟩ := q
          simp only [he, hr, Option.some.injEq, Prod.mk.injEq] at h
          exact ⟨m, v, later, rfl, h.1 ▸ hr, h.2.symm⟩

theorem mem_senders {v : List SignedTransaction} {a : Address} :
    a ∈ senders v ↔ ∃ tx ∈ v, tx.transaction.sender = a := by
  simp [senders]

theorem mem_rewound {v : List SignedTransaction} {a : Address} :
    a ∈ rewound v ↔
      a ∈ senders v ∧ ∃ tx, lastTouch v a = some tx ∧ tx.transaction.sender ≠ a := by
  rw [rewound, List.mem_filter]
  cases h : lastTouch v a with
  | none => simp
  | some tx => simp

/-! ### Nonces after a block -/

section

variable {p s : State} {l v : List SignedTransaction}

theorem accNonce_executeTx (h : executeTx p l = some (s, v)) {a : Address} :
    s.accNonce a =
      match lastTouch v a with
      | none => p.accNonce a
      | some tx => (entryAfter p tx a).1 := by
  have hlookup := lookup_executeTx h a
  cases ht : lastTouch v a with
  | none =>
      rw [ht] at hlookup
      rw [State.accNonce, State.accNonce, hlookup]
  | some tx =>
      rw [ht] at hlookup
      exact State.accNonce_of_lookup hlookup

/-- An account that sends nothing keeps its nonce. -/
theorem accNonce_of_not_sender (h : executeTx p l = some (s, v)) {a : Address}
    (ha : a ∉ senders v) : s.accNonce a = p.accNonce a := by
  rw [accNonce_executeTx h]
  cases ht : lastTouch v a with
  | none => rfl
  | some tx =>
      have hne : tx.transaction.sender ≠ a :=
        fun hs => ha (mem_senders.2 ⟨tx, (lastTouch_mem ht).1, hs⟩)
      exact Payable.accNonce_of_credit hne

/-- So does a sender that is rewound. -/
theorem accNonce_of_rewound (h : executeTx p l = some (s, v)) {a : Address}
    (ha : a ∈ rewound v) : s.accNonce a = p.accNonce a := by
  obtain ⟨-, tx, ht, hne⟩ := mem_rewound.1 ha
  rw [accNonce_executeTx h, ht]
  exact Payable.accNonce_of_credit hne

/-- The nonce of any other sender goes up by one. -/
theorem accNonce_of_sender (h : executeTx p l = some (s, v)) {a : Address}
    (ha : a ∈ senders v) (hr : a ∉ rewound v) :
    (s.accNonce a).toNat = (p.accNonce a).toNat + 1 := by
  obtain ⟨tx, htx, hs⟩ := mem_senders.1 ha
  rw [accNonce_executeTx h]
  cases ht : lastTouch v a with
  | none =>
      have htouch := lastTouch_eq_none.1 ht tx htx
      rw [← Bool.not_eq_true, touches_iff] at htouch
      exact absurd (Or.inl hs) htouch
  | some tx' =>
      have hs' : tx'.transaction.sender = a := by
        by_contra hne
        exact hr (mem_rewound.2 ⟨ha, tx', ht, hne⟩)
      exact (payable_of_mem_valid h (lastTouch_mem ht).1).accNonce_of_sender hs'

theorem nonce_of_mem_valid (h : executeTx p l = some (s, v)) {tx : SignedTransaction}
    (htx : tx ∈ v) : tx.transaction.accountNonce.toNat =
      (p.accNonce tx.transaction.sender).toNat + 1 :=
  (payable_of_mem_valid h htx).nonce

/-- Inside a block the sender determines the nonce. -/
theorem nodup_spends_valid (h : executeTx p l = some (s, v)) :
    (spends v).Nodup ↔ (senders v).Nodup := by
  have hmap : spends v =
      (senders v).map fun a => (a, UInt32.ofNat ((p.accNonce a).toNat + 1)) := by
    rw [spends, senders, List.map_map]
    refine List.map_congr_left fun tx htx => ?_
    rw [Function.comp_apply, ← nonce_of_mem_valid h htx, UInt32.ofNat_toNat]
  rw [hmap]
  refine ⟨List.Nodup.of_map _, fun hnodup => hnodup.map ?_⟩
  intro a b hab
  exact (Prod.mk.inj hab).1

end

/-! ### The invariant of a chain -/

/-- What the transactions `V` executed so far say about the nonces of the state `s`: an account
that is not frozen has spent no larger one, and a frozen account has spent its next one already. -/
structure Spent (V : List SignedTransaction) (frozen : List Address) (s : State) : Prop where
  nonce_le : ∀ tx ∈ V, tx.transaction.sender ∉ frozen →
    tx.transaction.accountNonce.toNat ≤ (s.accNonce tx.transaction.sender).toNat
  next_spent : ∀ a ∈ frozen, ∃ tx ∈ V, tx.transaction.sender = a ∧
    tx.transaction.accountNonce.toNat = (s.accNonce a).toNat + 1

theorem Spent.nil (s : State) : Spent [] [] s :=
  ⟨fun _ h => absurd h List.not_mem_nil, fun _ h => absurd h List.not_mem_nil⟩

section

variable {p s : State} {l v V : List SignedTransaction} {frozen : List Address}

/-- **The step lemma**: a block that no frozen account sends in. -/
theorem Spent.executeTx (hV : Spent V frozen p) (h : executeTx p l = some (s, v))
    (hfrozen : ∀ tx ∈ v, tx.transaction.sender ∉ frozen) : Spent (V ++ v) (frozen ++ rewound v) s := by
  constructor
  · intro tx htx hnot
    rw [List.mem_append, not_or] at hnot
    obtain ⟨hf, hr⟩ := hnot
    by_cases hs : tx.transaction.sender ∈ senders v
    · have hnext := accNonce_of_sender h hs hr
      rcases List.mem_append.1 htx with htx | htx
      · have hle := hV.nonce_le tx htx hf
        omega
      · have hnonce := nonce_of_mem_valid h htx
        omega
    · rw [accNonce_of_not_sender h hs]
      rcases List.mem_append.1 htx with htx | htx
      · exact hV.nonce_le tx htx hf
      · exact absurd (mem_senders.2 ⟨tx, htx, rfl⟩) hs
  · intro a ha
    rcases List.mem_append.1 ha with ha | ha
    · -- a frozen account has sent nothing, so its nonce is what it was
      have hs : a ∉ senders v := by
        intro hs
        obtain ⟨tx, htx, rfl⟩ := mem_senders.1 hs
        exact hfrozen tx htx ha
      obtain ⟨tx, htx, hsend, hnonce⟩ := hV.next_spent a ha
      rw [accNonce_of_not_sender h hs]
      exact ⟨tx, List.mem_append_left _ htx, hsend, hnonce⟩
    · obtain ⟨tx, htx, hsend⟩ := mem_senders.1 (mem_rewound.1 ha).1
      refine ⟨tx, List.mem_append_right _ htx, hsend, ?_⟩
      rw [accNonce_of_rewound h ha, nonce_of_mem_valid h htx, hsend]

/-- The nonces of a block are new exactly when its senders are different and not frozen. -/
theorem Spent.nodup_spends_append (hV : Spent V frozen p)
    (h : BitcoinClient.executeTx p l = some (s, v)) :
    (spends (V ++ v)).Nodup ↔
      (spends V).Nodup ∧ (senders v).Nodup ∧ ∀ tx ∈ v, tx.transaction.sender ∉ frozen := by
  rw [spends, List.map_append, List.nodup_append, ← spends, ← spends, nodup_spends_valid h]
  refine and_congr_right fun _ => and_congr_right fun _ => ⟨fun hdisj tx' htx' hf => ?_, ?_⟩
  · obtain ⟨tx, htx, hsend, hnonce⟩ := hV.next_spent _ hf
    have hnonce' := nonce_of_mem_valid h htx'
    rw [← hnonce] at hnonce'
    refine hdisj _ (List.mem_map.2 ⟨tx, htx, rfl⟩) _ (List.mem_map.2 ⟨tx', htx', rfl⟩) ?_
    rw [hsend, UInt32.toNat_inj.1 hnonce']
  · intro hfrozen x hx y hy hxy
    obtain ⟨tx, htx, rfl⟩ := List.mem_map.1 hx
    obtain ⟨tx', htx', rfl⟩ := List.mem_map.1 hy
    obtain ⟨hsend, hnonce⟩ := Prod.mk.inj hxy
    have hf := hfrozen tx' htx'
    rw [← hsend] at hf
    have hle := hV.nonce_le tx htx hf
    have hnonce' := nonce_of_mem_valid h htx'
    rw [← hsend, ← hnonce] at hnonce'
    omega

end

/-- **The induction over a chain.** -/
theorem nodup_spends_executeChain : ∀ {blocks : List (List SignedTransaction)} {s t : State}
    {V valid : List SignedTransaction} {frozen : List Address}, Spent V frozen s →
      executeChain s blocks = some (t, valid) →
        ((spends (V ++ valid)).Nodup ↔ (spends V).Nodup ∧ NoReplay frozen s blocks) := by
  intro blocks
  induction blocks with
  | nil =>
      intro s t V valid frozen _ h
      rw [executeChain, Option.some_inj, Prod.mk.injEq] at h
      rw [← h.2, List.append_nil, NoReplay, and_true]
  | cons data rest ih =>
      intro s t V valid frozen hV h
      obtain ⟨m, v, later, he, hrest, rfl⟩ := executeChain_cons h
      obtain ⟨-, hv, hm⟩ := executeTx_eq_some_iff.1 he
      rw [NoReplay, ← hv, ← hm, ← List.append_assoc]
      have hblock := hV.nodup_spends_append he
      by_cases hfrozen : ∀ tx ∈ v, tx.transaction.sender ∉ frozen
      · rw [ih (hV.executeTx he hfrozen) hrest, hblock]
        exact ⟨fun h => ⟨h.1.1, h.1.2.1, hfrozen, h.2⟩, fun h => ⟨⟨h.1, h.2.1, hfrozen⟩, h.2.2.2⟩⟩
      · have hnot : ¬ (spends (V ++ v ++ later)).Nodup := by
          intro hnodup
          rw [spends, List.map_append, List.nodup_append] at hnodup
          exact hfrozen (hblock.1 hnodup.1).2.2
        simp only [hnot, hfrozen, false_and, and_false]

/-! ### Chains from the initial state -/

variable [Crypto]

/-- **Every nonce is spent once, exactly when the blocks meet `NoReplay`.** -/
theorem no_double_spend_iff {blocks : List (List SignedTransaction)} {s : State}
    {valid : List SignedTransaction} (h : executeChain icoState blocks = some (s, valid)) :
    (spends valid).Nodup ↔ NoReplay [] icoState blocks := by
  have hchain := nodup_spends_executeChain (Spent.nil icoState) h
  rw [List.nil_append] at hchain
  rw [hchain]
  exact and_iff_right List.nodup_nil

omit [Crypto]

/-- Two blocks with payments of different senders. -/
def paymentChain : List (List SignedTransaction) :=
  [[sampleTransaction 0 1 1 40], [sampleTransaction 0 2 2 10, sampleTransaction 1 2 1 5]]

theorem no_double_spend_iff_payments :
    letI := sampleCrypto
    ∃ s valid, executeChain icoState paymentChain = some (s, valid) ∧ valid.length = 3 ∧
      (spends valid).Nodup := by
  have hdone : ((@executeChain (@icoState sampleCrypto) paymentChain).map fun r => r.2.length) =
      some 3 := by decide +kernel
  obtain ⟨⟨s, valid⟩, h, hlen⟩ := Option.map_eq_some_iff.1 hdone
  exact ⟨s, valid, h, hlen, (@no_double_spend_iff sampleCrypto _ _ _ h).2 (by decide +kernel)⟩

/-- A payment out of the initial account, twice in one block. -/
def doublePayment : List (List SignedTransaction) :=
  [[sampleTransaction 0 1 1 40, sampleTransaction 0 1 1 40]]

/-- A payment out of the initial account, followed in its block by a credit, and again in the next
block. -/
def replayedPayment : List (List SignedTransaction) :=
  [[sampleTransaction 0 1 1 40], [sampleTransaction 0 2 2 10, sampleTransaction 1 0 1 5],
    [sampleTransaction 0 2 2 10]]

/-- **A transaction is executed twice**: in one block, and in two blocks of a chain. -/
theorem replayed_transactions :
    letI := sampleCrypto
    (executeChain icoState doublePayment).map Prod.snd = some doublePayment.flatten ∧
      (executeChain icoState replayedPayment).map Prod.snd = some replayedPayment.flatten ∧
      ¬ (spends doublePayment.flatten).Nodup ∧ ¬ (spends replayedPayment.flatten).Nodup := by
  decide +kernel

end BitcoinClient
