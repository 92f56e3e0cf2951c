/-
**What an execution keeps.**

`executeTx` checks every transaction against the parent state, so a transaction that is skipped leaves no
trace, and the list of the valid ones, which is all that a block carries, leads to the state that the miner
has stored.  It writes the entries of the senders and receivers of valid transactions only; of what it
writes, a nonce is that of the parent entry or the next one, and a balance below that of the parent entry is
a debit of the account.

Main results:

* `BitcoinClient.sublist_executeTx` — **the valid transactions again give the same state**;
* `BitcoinClient.frame_executeTx` — **the frame of an execution**.
-/

import BitcoinClient.Blockchain

set_option relaxedAutoImplicit false
set_option autoImplicit false

namespace BitcoinClient

/-! ### The valid transactions -/

/-- **Miner and validators compute the same state.**  The valid transactions are transactions of the list
in their order, and executing them gives the same state and drops none of them. -/
theorem sublist_executeTx {p s : State} {l v : List SignedTransaction}
    (h : executeTx p l = some (s, v)) : v.Sublist l ∧ executeTx p v = some (s, v) := by
  obtain ⟨-, hv, -⟩ := executeTx_eq_some_iff.1 h
  refine ⟨?_, executeTx_valid h⟩
  rw [hv]
  exact List.filter_sublist

/-- A batch of which the second transaction is skipped. -/
theorem sublist_executeTx_batch :
    letI := sampleCrypto
    ∃ s, executeTx icoState [sampleTransaction 0 1 1 40, sampleTransaction 1 0 1 5] =
        some (s, [sampleTransaction 0 1 1 40]) ∧
      executeTx icoState [sampleTransaction 0 1 1 40] = some (s, [sampleTransaction 0 1 1 40]) := by
  let _ := sampleCrypto
  have hvalid : (executeTx icoState [sampleTransaction 0 1 1 40, sampleTransaction 1 0 1 5]).map
      Prod.snd = some [sampleTransaction 0 1 1 40] := by decide +kernel
  obtain ⟨⟨s, v⟩, h, rfl⟩ := Option.map_eq_some_iff.1 hvalid
  exact ⟨s, h, (sublist_executeTx h).2⟩

/-! ### The frame -/

section

variable {p s : State} {l v : List SignedTransaction}

/-- An account keeps its entry or has the one that a valid transaction writes for it. -/
theorem entry_cases (h : executeTx p l = some (s, v)) (a : Address) :
    s.lookup a = p.lookup a ∨
      ∃ tx ∈ v, touches tx a = true ∧ s.lookup a = some (entryAfter p tx a) := by
  have hlookup := lookup_executeTx h a
  cases hlast : lastTouch v a with
  | none =>
      rw [hlast] at hlookup
      exact Or.inl hlookup
  | some tx =>
      rw [hlast] at hlookup
      obtain ⟨hmem, htouches⟩ := lastTouch_mem hlast
      exact Or.inr ⟨tx, hmem, htouches, hlookup⟩

/-- Accounts do not disappear. -/
theorem mem_executeTx (h : executeTx p l = some (s, v)) {a : Address} (ha : a ∈ p) : a ∈ s := by
  rcases entry_cases h a with heq | ⟨tx, -, -, heq⟩
  · rw [← Finmap.lookup_isSome] at ha ⊢
    rw [heq]
    exact ha
  · exact Finmap.mem_of_lookup_eq_some heq

/-- An account that no valid transaction names keeps its entry, or stays absent. -/
theorem lookup_executeTx_of_not_touched (h : executeTx p l = some (s, v)) {a : Address}
    (ha : ∀ tx ∈ v, tx.transaction.sender ≠ a ∧ tx.transaction.receiver ≠ a) :
    s.lookup a = p.lookup a := by
  rcases entry_cases h a with heq | ⟨tx, hmem, htouches, -⟩
  · exact heq
  · rcases touches_iff.1 htouches with hs | hr
    · exact absurd hs (ha tx hmem).1
    · exact absurd hr (ha tx hmem).2

/-- Nonces do not fall. -/
theorem accNonce_le_executeTx (h : executeTx p l = some (s, v)) (a : Address) :
    p.accNonce a ≤ s.accNonce a := by
  rcases entry_cases h a with heq | ⟨tx, hmem, -, heq⟩
  · have hsame : s.accNonce a = p.accNonce a := by rw [State.accNonce, State.accNonce, heq]
    exact UInt32.le_of_eq hsame.symm
  · rw [State.accNonce_of_lookup heq]
    by_cases hs : tx.transaction.sender = a
    · have hnonce := (payable_of_mem_valid h hmem).accNonce_of_sender hs
      rw [UInt32.le_iff_toNat_le]
      omega
    · exact UInt32.le_of_eq (Payable.accNonce_of_credit hs).symm

/-- Only senders pay. -/
theorem sender_of_balance_lt (h : executeTx p l = some (s, v)) {a : Address}
    (hlt : s.balance a < p.balance a) : ∃ tx ∈ v, tx.transaction.sender = a := by
  rw [UInt32.lt_iff_toNat_lt] at hlt
  rcases entry_cases h a with heq | ⟨tx, hmem, htouches, heq⟩
  · rw [State.balance, State.balance, heq] at hlt
    exact absurd hlt (Nat.lt_irrefl _)
  · by_cases hs : tx.transaction.sender = a
    · exact ⟨tx, hmem, hs⟩
    · -- a credit raises the balance
      have hr := (touches_iff.1 htouches).resolve_left hs
      have hcredit := (payable_of_mem_valid h hmem).entryAfter_of_credit hs hr
      rw [State.balance_of_lookup heq] at hlt
      omega

/-- **The frame of an execution.**  Every account of the parent state is in the new one; an account that no
valid transaction names has the entry it had, or none as before; nonces do not fall; and an account whose
balance has fallen is the sender of a valid transaction. -/
theorem frame_executeTx (h : executeTx p l = some (s, v)) :
    (∀ a ∈ p, a ∈ s) ∧
      (∀ a, (∀ tx ∈ v, tx.transaction.sender ≠ a ∧ tx.transaction.receiver ≠ a) →
        s.lookup a = p.lookup a) ∧
      (∀ a, p.accNonce a ≤ s.accNonce a) ∧
      ∀ a, s.balance a < p.balance a → ∃ tx ∈ v, tx.transaction.sender = a :=
  ⟨fun _ => mem_executeTx h, fun _ => lookup_executeTx_of_not_touched h, accNonce_le_executeTx h,
    fun _ => sender_of_balance_lt h⟩

end

/-- A payment of the initial account to account 1: account 2 stays absent, and the account that has less
has paid. -/
theorem frame_executeTx_payment :
    letI := sampleCrypto
    ∃ s v, executeTx icoState [sampleTransaction 0 1 1 40] = some (s, v) ∧ 2 ∉ s ∧
      ∃ tx ∈ v, tx.transaction.sender = 0 := by
  let _ := sampleCrypto
  have hdone : (executeTx icoState [sampleTransaction 0 1 1 40]).map
      (fun r => (r.2, r.1.balance 0)) = some ([sampleTransaction 0 1 1 40], 60) := by decide +kernel
  obtain ⟨⟨s, v⟩, h, hr⟩ := Option.map_eq_some_iff.1 hdone
  obtain ⟨rfl, hbal⟩ := Prod.mk.inj hr
  obtain ⟨-, hsame, -, hpaid⟩ := frame_executeTx h
  refine ⟨s, _, h, ?_, hpaid 0 ?_⟩
  · rw [← Finmap.lookup_eq_none, hsame 2 (by decide)]
    decide +kernel
  · rw [hbal]
    decide +kernel

end BitcoinClient
