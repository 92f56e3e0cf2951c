/-
**Executing a list of transactions.**

`executeTx` runs the transactions of a block on the state of the parent block.  Its loop keeps two
states: `newState`, which it writes, and `parentState`, from which every nonce and every balance is
read.  So whether a transaction is executed depends on the parent state alone, and the entry it
writes for an account is computed from the parent entry of that account: a later write to the same
account replaces an earlier one.

The results below say this once, and everything that is proved about states elsewhere uses them.

Main definitions:

* `BitcoinClient.State`, `BitcoinClient.executeTx` — the ledger state and its execution;
* `BitcoinClient.executable`, `BitcoinClient.overflows` — the transactions that pass the checks
  against a state, and those on which a `u32` addition panics;
* `BitcoinClient.entryAfter`, `BitcoinClient.applyTx` — what an executed transaction writes;
* `BitcoinClient.lastTouch` — the last transaction of a list that writes an account.

Main results:

* `BitcoinClient.executeTx_eq_some_iff` — **the specification of the loop**: no transaction
  overflows, the valid ones are those that are executable on the parent state, and the new state
  is their writes one after the other;
* `BitcoinClient.lookup_executeTx` — an account ends with the entry its last valid transaction
  writes;
* `BitcoinClient.executeTx_valid` — executing the valid transactions again gives the same state.
-/

import BitcoinClient.Types

set_option relaxedAutoImplicit false
set_option autoImplicit false

namespace BitcoinClient

/-! ### States -/

/-- The state of the ledger: the account nonce and the balance of each address. -/
abbrev State := Finmap fun _ : Address => UInt32 × UInt32

/-- The balance of an account, zero when it has none. -/
def State.balance (s : State) (a : Address) : UInt32 :=
  match s.lookup a with
  | none => 0
  | some (_, balance) => balance

/-- The nonce of an account, zero when it has none. -/
def State.accNonce (s : State) (a : Address) : UInt32 :=
  match s.lookup a with
  | none => 0
  | some (accNonce, _) => accNonce

theorem State.balance_of_lookup {s : State} {a : Address} {e : UInt32 × UInt32}
    (h : s.lookup a = some e) : s.balance a = e.2 := by
  rw [State.balance, h]

theorem State.accNonce_of_lookup {s : State} {a : Address} {e : UInt32 × UInt32}
    (h : s.lookup a = some e) : s.accNonce a = e.1 := by
  rw [State.accNonce, h]

/-! ### The loop -/

/-- The body of the loop of `executeTx`; `none` is an overflow panic. -/
def executeOne (parentState : State) (acc : State × List SignedTransaction)
    (tx : SignedTransaction) : Option (State × List SignedTransaction) :=
  let (newState, validTx) := acc
  let receiver := tx.transaction.receiver
  let receiverBalance := parentState.balance receiver
  let receiverAccNonce := parentState.accNonce receiver
  let sender := tx.transaction.sender
  match parentState.lookup sender with
  | none => some (newState, validTx)
  | some (senderAccNonce, senderBalance) =>
    if senderBalance < tx.transaction.value then some (newState, validTx)
    else
      match checkedAdd senderAccNonce 1 with
      | none => none
      | some nextNonce =>
        if tx.transaction.accountNonce ≠ nextNonce then some (newState, validTx)
        else
          let validTx := validTx ++ [tx]
          let newState := newState.insert sender
            (tx.transaction.accountNonce, senderBalance - tx.transaction.value)
          if sender = receiver then
            some (newState.insert sender (tx.transaction.accountNonce, senderBalance), validTx)
          else
            match checkedAdd receiverBalance tx.transaction.value with
            | none => none
            | some balance => some (newState.insert receiver (receiverAccNonce, balance), validTx)

/-- Execute the transactions, also performing necessary checks. -/
def executeTx (parentState : State) (txList : List SignedTransaction) :
    Option (State × List SignedTransaction) :=
  txList.foldlM (executeOne parentState) (parentState, [])

/-! ### What the loop does with one transaction -/

/-- The balance check and the nonce check of a transaction against a state. -/
def executable (p : State) (tx : SignedTransaction) : Bool :=
  match p.lookup tx.transaction.sender with
  | none => false
  | some (accNonce, balance) =>
    tx.transaction.value ≤ balance && checkedAdd accNonce 1 = some tx.transaction.accountNonce

/-- One of the `u32` additions of the loop panics on the transaction. -/
def overflows (p : State) (tx : SignedTransaction) : Bool :=
  match p.lookup tx.transaction.sender with
  | none => false
  | some (accNonce, balance) =>
    tx.transaction.value ≤ balance &&
      ((checkedAdd accNonce 1).isNone ||
        (executable p tx && tx.transaction.sender ≠ tx.transaction.receiver &&
          (checkedAdd (p.balance tx.transaction.receiver) tx.transaction.value).isNone))

/-- A transaction writes the entries of its sender and of its receiver. -/
def touches (tx : SignedTransaction) (a : Address) : Bool :=
  tx.transaction.sender = a || tx.transaction.receiver = a

/-- A transaction takes its value from the sender, unless it is sent to the sender itself. -/
def debits (tx : SignedTransaction) (a : Address) : Bool :=
  tx.transaction.sender = a && tx.transaction.receiver ≠ a

/-- The entry that an executed transaction writes for an account it touches. -/
def entryAfter (p : State) (tx : SignedTransaction) (a : Address) : UInt32 × UInt32 :=
  if tx.transaction.sender = a then
    (tx.transaction.accountNonce,
      if tx.transaction.receiver = a then p.balance a else p.balance a - tx.transaction.value)
  else (p.accNonce a, p.balance a + tx.transaction.value)

/-- The writes of an executed transaction. -/
def applyTx (p s : State) (tx : SignedTransaction) : State :=
  (s.insert tx.transaction.sender (entryAfter p tx tx.transaction.sender)).insert
    tx.transaction.receiver (entryAfter p tx tx.transaction.receiver)

theorem executable_iff {p : State} {tx : SignedTransaction} :
    executable p tx = true ↔ ∃ e, p.lookup tx.transaction.sender = some e ∧
      tx.transaction.value ≤ e.2 ∧ checkedAdd e.1 1 = some tx.transaction.accountNonce := by
  rw [executable]
  cases h : p.lookup tx.transaction.sender with
  | none => simp
  | some e => simp

/-- **One round of the loop.** -/
theorem executeOne_eq (p s : State) (v : List SignedTransaction) (tx : SignedTransaction) :
    executeOne p (s, v) tx =
      if overflows p tx then none
      else if executable p tx then some (applyTx p s tx, v ++ [tx]) else some (s, v) := by
  cases hl : p.lookup tx.transaction.sender with
  | none => simp [executeOne, overflows, executable, hl]
  | some e =>
      obtain ⟨accNonce, balance⟩ := e
      have hbal : p.balance tx.transaction.sender = balance := State.balance_of_lookup hl
      by_cases hlt : balance < tx.transaction.value
      · have hle : ¬ tx.transaction.value ≤ balance := UInt32.not_le.2 hlt
        simp [executeOne, overflows, executable, hl, hlt, hle]
      · have hle : tx.transaction.value ≤ balance := UInt32.not_lt.1 hlt
        cases hn : checkedAdd accNonce 1 with
        | none => simp [executeOne, overflows, hl, hlt, hle, hn]
        | some nextNonce =>
            by_cases hnonce : tx.transaction.accountNonce = nextNonce
            · by_cases hself : tx.transaction.sender = tx.transaction.receiver
              · simp [executeOne, overflows, executable, applyTx, entryAfter, hl, hlt, hle, hn,
                  ← hnonce, ← hself, hbal]
              · have hself' : ¬ tx.transaction.receiver = tx.transaction.sender :=
                  fun h => hself h.symm
                cases hc : checkedAdd (p.balance tx.transaction.receiver) tx.transaction.value with
                | none => simp [executeOne, overflows, executable, hl, hlt, hle, hn, hnonce, hself, hc]
                | some b =>
                    have hb : b = p.balance tx.transaction.receiver + tx.transaction.value := by
                      rw [checkedAdd] at hc
                      split at hc
                      · exact (Option.some_inj.1 hc).symm
                      · simp at hc
                    simp [executeOne, overflows, executable, applyTx, entryAfter, hl, hlt, hle, hn,
                      hnonce, hself, hself', hc, hbal, hb]
            · have hne : ¬ nextNonce = tx.transaction.accountNonce := fun h => hnonce h.symm
              simp [executeOne, overflows, executable, hl, hlt, hn, hnonce, hne]

/-! ### The specification of the loop -/

/-- The writes of a list of transactions, one after the other, over the state `s`. -/
def applyAll (p s : State) (v : List SignedTransaction) : State := v.foldl (applyTx p) s

@[simp] theorem applyAll_nil (p s : State) : applyAll p s [] = s := rfl

@[simp] theorem applyAll_cons (p s : State) (tx : SignedTransaction)
    (v : List SignedTransaction) : applyAll p s (tx :: v) = applyAll p (applyTx p s tx) v := rfl

@[simp] theorem applyAll_append (p s : State) (v w : List SignedTransaction) :
    applyAll p s (v ++ w) = applyAll p (applyAll p s v) w := List.foldl_append

private theorem foldlM_executeOne (p : State) : ∀ (l : List SignedTransaction) (s : State)
    (v : List SignedTransaction), l.foldlM (executeOne p) (s, v) =
      if l.any (overflows p) then none
      else some (applyAll p s (l.filter (executable p)), v ++ l.filter (executable p)) := by
  intro l
  induction l with
  | nil => intro s v; simp
  | cons tx l ih =>
      intro s v
      rw [List.foldlM_cons, executeOne_eq]
      cases ho : overflows p tx with
      | true => simp [ho]
      | false =>
          cases he : executable p tx with
          | true => simp [ho, he, ih]
          | false => simp [ho, he, ih]

/-- The loop returns or panics as its transactions, one by one, do. -/
theorem executeTx_eq (p : State) (l : List SignedTransaction) :
    executeTx p l =
      if l.any (overflows p) then none
      else some (applyAll p p (l.filter (executable p)), l.filter (executable p)) := by
  rw [executeTx, foldlM_executeOne, List.nil_append]

/-- **The specification of the loop.** -/
theorem executeTx_eq_some_iff {p s : State} {l v : List SignedTransaction} :
    executeTx p l = some (s, v) ↔ (∀ tx ∈ l, overflows p tx = false) ∧
      v = l.filter (executable p) ∧ s = applyAll p p v := by
  rw [executeTx_eq]
  by_cases h : l.any (overflows p) = true
  · rw [if_pos h]
    obtain ⟨tx, htx, ho⟩ := List.any_eq_true.1 h
    simp only [reduceCtorEq, false_iff, not_and]
    intro hall
    rw [hall tx htx] at ho
    simp at ho
  · rw [if_neg h]
    have hall : ∀ tx ∈ l, overflows p tx = false := by simpa using h
    simp only [Option.some.injEq, Prod.mk.injEq]
    constructor
    · rintro ⟨rfl, rfl⟩
      exact ⟨hall, rfl, rfl⟩
    · rintro ⟨-, rfl, rfl⟩
      exact ⟨rfl, rfl⟩

theorem executeTx_eq_none_iff {p : State} {l : List SignedTransaction} :
    executeTx p l = none ↔ ∃ tx ∈ l, overflows p tx = true := by
  rw [executeTx_eq]
  simp

/-- Executing the valid transactions again gives the same state and drops nothing. -/
theorem executeTx_valid {p s : State} {l v : List SignedTransaction}
    (h : executeTx p l = some (s, v)) : executeTx p v = some (s, v) := by
  obtain ⟨ho, rfl, rfl⟩ := executeTx_eq_some_iff.1 h
  refine executeTx_eq_some_iff.2 ⟨fun tx htx => ho tx (List.mem_of_mem_filter htx), ?_, rfl⟩
  rw [List.filter_filter]
  simp

/-! ### The checks in terms of nonces and balances -/

/-- The checks in terms of the nonce and the balance of the sender. -/
theorem executable_iff_balance {p : State} {tx : SignedTransaction} :
    executable p tx = true ↔ tx.transaction.sender ∈ p ∧
      tx.transaction.value ≤ p.balance tx.transaction.sender ∧
      checkedAdd (p.accNonce tx.transaction.sender) 1 = some tx.transaction.accountNonce := by
  rw [executable_iff]
  constructor
  · rintro ⟨e, hl, hle, hn⟩
    rw [State.balance_of_lookup hl, State.accNonce_of_lookup hl]
    exact ⟨Finmap.mem_of_lookup_eq_some hl, hle, hn⟩
  · rintro ⟨hmem, hle, hn⟩
    obtain ⟨e, hl⟩ := Finmap.mem_iff.1 hmem
    rw [State.balance_of_lookup hl] at hle
    rw [State.accNonce_of_lookup hl] at hn
    exact ⟨e, hl, hle, hn⟩

/-- The panics in terms of nonces and balances: the nonce of a sender who has the coins cannot be raised, or
the transaction passes the checks and the receiver has no room for its value. -/
theorem overflows_iff {p : State} {tx : SignedTransaction} :
    overflows p tx = true ↔ tx.transaction.sender ∈ p ∧
      tx.transaction.value ≤ p.balance tx.transaction.sender ∧
      (checkedAdd (p.accNonce tx.transaction.sender) 1 = none ∨
        executable p tx = true ∧ tx.transaction.sender ≠ tx.transaction.receiver ∧
          checkedAdd (p.balance tx.transaction.receiver) tx.transaction.value = none) := by
  rw [overflows]
  cases hl : p.lookup tx.transaction.sender with
  | none =>
      have hmem : tx.transaction.sender ∉ p := Finmap.lookup_eq_none.1 hl
      simp [hmem]
  | some e =>
      have hmem : tx.transaction.sender ∈ p := Finmap.mem_of_lookup_eq_some hl
      rw [State.balance_of_lookup hl, State.accNonce_of_lookup hl]
      simp [hmem, and_assoc]

/-! ### The entries that are written -/

theorem touches_iff {tx : SignedTransaction} {a : Address} :
    touches tx a = true ↔ tx.transaction.sender = a ∨ tx.transaction.receiver = a := by
  simp [touches]

theorem debits_iff {tx : SignedTransaction} {a : Address} :
    debits tx a = true ↔ tx.transaction.sender = a ∧ tx.transaction.receiver ≠ a := by
  simp [debits]

theorem lookup_applyTx (p s : State) (tx : SignedTransaction) (a : Address) :
    (applyTx p s tx).lookup a = if touches tx a then some (entryAfter p tx a) else s.lookup a := by
  rw [applyTx]
  by_cases hr : a = tx.transaction.receiver
  · rw [hr, Finmap.lookup_insert, if_pos (touches_iff.2 (Or.inr rfl))]
  · rw [Finmap.lookup_insert_of_ne _ hr]
    by_cases hs : a = tx.transaction.sender
    · rw [hs, Finmap.lookup_insert, if_pos (touches_iff.2 (Or.inl rfl))]
    · rw [Finmap.lookup_insert_of_ne _ hs, if_neg]
      rw [touches_iff]
      rintro (h | h)
      · exact hs h.symm
      · exact hr h.symm

/-- The last transaction of a list that writes the entry of an account. -/
def lastTouch (v : List SignedTransaction) (a : Address) : Option SignedTransaction :=
  (v.filter (touches · a)).getLast?

@[simp] theorem lastTouch_nil (a : Address) : lastTouch [] a = none := rfl

theorem lastTouch_append_single (v : List SignedTransaction) (tx : SignedTransaction)
    (a : Address) : lastTouch (v ++ [tx]) a = if touches tx a then some tx else lastTouch v a := by
  rw [lastTouch, List.filter_append]
  by_cases h : touches tx a = true
  · simp [h]
  · simp [h, lastTouch]

theorem lastTouch_mem {v : List SignedTransaction} {a : Address} {tx : SignedTransaction}
    (h : lastTouch v a = some tx) : tx ∈ v ∧ touches tx a = true := by
  have hmem := List.mem_of_getLast? h
  exact ⟨List.mem_of_mem_filter hmem, (List.mem_filter.1 hmem).2⟩

theorem lastTouch_eq_none {v : List SignedTransaction} {a : Address} :
    lastTouch v a = none ↔ ∀ tx ∈ v, touches tx a = false := by
  simp [lastTouch]

/-- **An account ends with the entry that its last transaction writes.** -/
theorem lookup_applyAll (p s : State) (v : List SignedTransaction) (a : Address) :
    (applyAll p s v).lookup a =
      match lastTouch v a with
      | none => s.lookup a
      | some tx => some (entryAfter p tx a) := by
  induction v using List.reverseRecOn with
  | nil => rfl
  | append_singleton v tx ih =>
      rw [applyAll_append, applyAll_cons, applyAll_nil, lookup_applyTx, lastTouch_append_single]
      by_cases h : touches tx a = true
      · rw [if_pos h, if_pos h]
      · rw [if_neg h, if_neg h, ih]

/-- The entry of an account after executing a list. -/
theorem lookup_executeTx {p s : State} {l v : List SignedTransaction}
    (h : executeTx p l = some (s, v)) (a : Address) :
    s.lookup a =
      match lastTouch v a with
      | none => p.lookup a
      | some tx => some (entryAfter p tx a) := by
  obtain ⟨-, -, rfl⟩ := executeTx_eq_some_iff.1 h
  exact lookup_applyAll p p v a

/-- The arithmetic of a valid transaction: the balance covers the value, the nonce is the next
one, and the receiver's balance has room for the value. -/
structure Payable (p : State) (tx : SignedTransaction) : Prop where
  mem : tx.transaction.sender ∈ p
  le_balance : tx.transaction.value.toNat ≤ (p.balance tx.transaction.sender).toNat
  nonce : tx.transaction.accountNonce.toNat = (p.accNonce tx.transaction.sender).toNat + 1
  room : tx.transaction.sender ≠ tx.transaction.receiver →
    (p.balance tx.transaction.receiver).toNat + tx.transaction.value.toNat < 2 ^ 32

theorem payable_of_executable {p : State} {tx : SignedTransaction} (he : executable p tx = true)
    (ho : overflows p tx = false) : Payable p tx := by
  obtain ⟨e, hl, hle, hn⟩ := executable_iff.1 he
  have hbal : p.balance tx.transaction.sender = e.2 := State.balance_of_lookup hl
  have hnonce : p.accNonce tx.transaction.sender = e.1 := State.accNonce_of_lookup hl
  refine ⟨Finmap.mem_of_lookup_eq_some hl, ?_, ?_, ?_⟩
  · rw [hbal]
    exact UInt32.le_iff_toNat_le.1 hle
  · rw [hnonce, toNat_of_checkedAdd hn]
    rfl
  · intro hne
    have hroom : checkedAdd (p.balance tx.transaction.receiver) tx.transaction.value ≠ none := by
      intro hc
      obtain ⟨accNonce, balance⟩ := e
      simp [overflows, hl, hle, he, hne, hc] at ho
    rw [Ne, checkedAdd_eq_none, Nat.not_le] at hroom
    exact hroom

theorem payable_of_mem_valid {p s : State} {l v : List SignedTransaction}
    (h : executeTx p l = some (s, v)) {tx : SignedTransaction} (htx : tx ∈ v) : Payable p tx := by
  obtain ⟨ho, rfl, -⟩ := executeTx_eq_some_iff.1 h
  obtain ⟨hmem, he⟩ := List.mem_filter.1 htx
  exact payable_of_executable he (ho tx hmem)

namespace Payable

variable {p : State} {tx : SignedTransaction} {a : Address}

theorem entryAfter_of_debits (h : Payable p tx) (hd : debits tx a = true) :
    (entryAfter p tx a).2.toNat + tx.transaction.value.toNat = (p.balance a).toNat := by
  obtain ⟨rfl, hr⟩ := debits_iff.1 hd
  have hle := h.le_balance
  rw [entryAfter, if_pos rfl, if_neg hr]
  rw [UInt32.toNat_sub_of_le _ _ (UInt32.le_iff_toNat_le.2 hle)]
  omega

theorem entryAfter_of_self (hs : tx.transaction.sender = a) (hr : tx.transaction.receiver = a) :
    (entryAfter p tx a).2 = p.balance a := by
  rw [entryAfter, if_pos hs, if_pos hr]

theorem entryAfter_of_credit (h : Payable p tx) (hs : tx.transaction.sender ≠ a)
    (hr : tx.transaction.receiver = a) :
    (entryAfter p tx a).2.toNat = (p.balance a).toNat + tx.transaction.value.toNat := by
  have hroom := h.room (by rw [hr]; exact hs)
  rw [hr] at hroom
  rw [entryAfter, if_neg hs]
  rw [UInt32.toNat_add, Nat.mod_eq_of_lt hroom]

theorem accNonce_of_sender (h : Payable p tx) (hs : tx.transaction.sender = a) :
    (entryAfter p tx a).1.toNat = (p.accNonce a).toNat + 1 := by
  rw [entryAfter, if_pos hs]
  rw [h.nonce, hs]

theorem accNonce_of_credit (hs : tx.transaction.sender ≠ a) :
    (entryAfter p tx a).1 = p.accNonce a := by
  rw [entryAfter, if_neg hs]

end Payable

end BitcoinClient
