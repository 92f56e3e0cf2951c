/-
**Bounds on balances.**

The subtraction of `executeTx` is guarded by the balance check; its addition, the balance of the receiver and
the value, is guarded by nothing.  A payment that passes the checks moves at most what its sender has, so the
addition is safe as long as no two accounts have `2 ^ 32` coins together, and it is not safe any more when an
account that can still send and another one have.

With the 100 coins of the initial state this would never happen if executing a list kept the supply.  But a
debit that a later transaction of a list replaces creates coins, and three accounts that pay each other in
turn reach `2 ^ 32` coins after 37 blocks.

Main definitions:

* `BitcoinClient.balanceFails`, `BitcoinClient.nonceFails` — a `u32` operation of the loop on balances, or on
  nonces, fails on a transaction;
* `BitcoinClient.BalanceFails` — one on balances fails in the execution of a list;
* `BitcoinClient.Roomy` — no payment can fail;
* `BitcoinClient.Ledger.Run` — executing lists one after the other.

Main results:

* `BitcoinClient.executeTx_eq_none_iff_fails` — an execution panics in one of the two ways;
* `BitcoinClient.not_balanceFails_iff` — **no list fails on a state exactly if it is roomy**;
* `BitcoinClient.no_balance_overflow_iff` — the same along runs from the initial state;
* `BitcoinClient.balance_overflow` — the run that overflows.
-/

import BitcoinClient.Supply

set_option relaxedAutoImplicit false
set_option autoImplicit false

namespace BitcoinClient

/-! ### The operations of the loop -/

/-- On a transaction that passes the checks, the subtraction from the balance of the sender underflows or the
addition to the balance of the receiver overflows. -/
def balanceFails (p : State) (tx : SignedTransaction) : Bool :=
  executable p tx &&
    (p.balance tx.transaction.sender < tx.transaction.value ||
      tx.transaction.sender ≠ tx.transaction.receiver &&
        (checkedAdd (p.balance tx.transaction.receiver) tx.transaction.value).isNone)

/-- On a transaction that passes the balance check, the addition to the nonce of the sender overflows. -/
def nonceFails (p : State) (tx : SignedTransaction) : Bool :=
  tx.transaction.sender ∈ p && tx.transaction.value ≤ p.balance tx.transaction.sender &&
    (checkedAdd (p.accNonce tx.transaction.sender) 1).isNone

/-- A failure of the kind `fails` is the first one in the execution of a list. -/
def FirstFails (fails : State → SignedTransaction → Bool) (p : State)
    (l : List SignedTransaction) : Prop :=
  ∃ before tx after, l = before ++ tx :: after ∧ (executeTx p before).isSome ∧ fails p tx = true

/-- An operation on balances fails in the execution of a list. -/
def BalanceFails (p : State) (l : List SignedTransaction) : Prop := FirstFails balanceFails p l

/-- What passes the checks can be subtracted. -/
theorem balanceFails_iff {p : State} {tx : SignedTransaction} :
    balanceFails p tx = true ↔ executable p tx = true ∧
      tx.transaction.sender ≠ tx.transaction.receiver ∧
        checkedAdd (p.balance tx.transaction.receiver) tx.transaction.value = none := by
  rw [balanceFails]
  simp only [Bool.and_eq_true, Bool.or_eq_true, decide_eq_true_eq, Option.isNone_iff_eq_none]
  constructor
  · rintro ⟨he, hlt | hroom⟩
    · obtain ⟨-, hle, -⟩ := executable_iff_balance.1 he
      exact absurd hle (UInt32.not_le.2 hlt)
    · exact ⟨he, hroom⟩
  · rintro ⟨he, hroom⟩
    exact ⟨he, Or.inr hroom⟩

theorem overflows_eq (p : State) (tx : SignedTransaction) :
    overflows p tx = (balanceFails p tx || nonceFails p tx) := by
  rw [Bool.eq_iff_iff, Bool.or_eq_true, overflows_iff, balanceFails_iff, nonceFails]
  simp only [Bool.and_eq_true, decide_eq_true_eq, Option.isNone_iff_eq_none]
  constructor
  · rintro ⟨hmem, hle, hmax | hroom⟩
    · exact Or.inr ⟨⟨hmem, hle⟩, hmax⟩
    · exact Or.inl hroom
  · rintro (⟨he, hroom⟩ | ⟨⟨hmem, hle⟩, hmax⟩)
    · obtain ⟨hmem, hle, -⟩ := executable_iff_balance.1 he
      exact ⟨hmem, hle, Or.inr ⟨he, hroom⟩⟩
    · exact ⟨hmem, hle, Or.inl hmax⟩

/-- **An execution panics** by an operation on balances or by one on nonces. -/
theorem executeTx_eq_none_iff_fails {p : State} {l : List SignedTransaction} :
    executeTx p l = none ↔ BalanceFails p l ∨ FirstFails nonceFails p l := by
  constructor
  · intro h
    rw [executeTx_eq_none_iff, ← List.find?_isSome, Option.isSome_iff_exists] at h
    obtain ⟨tx, h⟩ := h
    obtain ⟨ho, before, after, hl, hbefore⟩ := List.find?_eq_some_iff_append.1 h
    have hsome : (executeTx p before).isSome := by
      rw [← Option.ne_none_iff_isSome, Ne, executeTx_eq_none_iff]
      rintro ⟨tx', hmem, ho'⟩
      simpa [ho'] using hbefore tx' hmem
    rw [overflows_eq, Bool.or_eq_true] at ho
    rcases ho with ho | ho
    · exact Or.inl ⟨before, tx, after, hl, hsome, ho⟩
    · exact Or.inr ⟨before, tx, after, hl, hsome, ho⟩
  · intro h
    rw [executeTx_eq_none_iff]
    rcases h with ⟨before, tx, after, rfl, -, hf⟩ | ⟨before, tx, after, rfl, -, hf⟩
    · exact ⟨tx, by simp, by rw [overflows_eq, hf, Bool.true_or]⟩
    · exact ⟨tx, by simp, by rw [overflows_eq, hf, Bool.or_true]⟩

/-! ### Roomy states -/

/-- An account that can still send and another account have less than `2 ^ 32` coins together. -/
def Roomy (p : State) : Prop :=
  ∀ a b, a ≠ b → a ∈ p → checkedAdd (p.accNonce a) 1 ≠ none →
    (p.balance a).toNat + (p.balance b).toNat < 2 ^ 32

/-- **No list fails on a state exactly if it is roomy.** -/
theorem not_balanceFails_iff {p : State} : (∀ l, ¬ BalanceFails p l) ↔ Roomy p := by
  constructor
  · intro h a b hne hmem hnonce
    by_contra hfull
    obtain ⟨next, hnext⟩ := Option.ne_none_iff_exists'.1 hnonce
    -- the first account pays all it has to the second
    have hexec : executable p (sampleTransaction a b next (p.balance a)) = true :=
      executable_iff_balance.2 ⟨hmem, UInt32.le_refl _, hnext⟩
    refine h [sampleTransaction a b next (p.balance a)] ⟨[], _, [], rfl, rfl, ?_⟩
    rw [balanceFails_iff, checkedAdd_eq_none]
    refine ⟨hexec, hne, ?_⟩
    change 2 ^ 32 ≤ (p.balance b).toNat + (p.balance a).toNat
    omega
  · rintro h l ⟨before, tx, after, -, -, hf⟩
    obtain ⟨he, hne, hroom⟩ := balanceFails_iff.1 hf
    obtain ⟨hmem, hle, hnonce⟩ := executable_iff_balance.1 he
    have hlt := h _ _ hne hmem (by rw [hnonce]; exact Option.some_ne_none _)
    rw [checkedAdd_eq_none] at hroom
    rw [UInt32.le_iff_toNat_le] at hle
    omega

/-! ### The supply -/

theorem balance_le_supply (s : State) (a : Address) : (s.balance a).toNat ≤ s.supply := by
  have h := State.supply_insert s a (0, 0)
  change _ = s.supply + 0 at h
  omega

/-- Two accounts have at most all coins. -/
theorem balance_add_le_supply (s : State) {a b : Address} (hne : a ≠ b) :
    (s.balance a).toNat + (s.balance b).toNat ≤ s.supply := by
  have h := State.supply_insert s a (0, 0)
  have hb := balance_le_supply (s.insert a (0, 0)) b
  rw [State.balance_insert_of_ne s _ hne.symm] at hb
  change _ = s.supply + 0 at h
  omega

/-- **A state with less than `2 ^ 32` coins is roomy.** -/
theorem roomy_of_supply_lt {s : State} (h : s.supply < 2 ^ 32) : Roomy s :=
  fun _ _ hne _ _ => lt_of_le_of_lt (balance_add_le_supply s hne) h

/-! ### Executing lists one after the other -/

namespace Ledger

/-- The state after a list; `none` when the execution panics. -/
def step (p : State) (l : List SignedTransaction) : Option State := (executeTx p l).map Prod.fst

/-- The runs of a ledger, with their traces. -/
abbrev Run (p : State) : List (State × List SignedTransaction) → State → Prop :=
  Lts.Run (fun p l s => step p l = some s) p

end Ledger

variable [Crypto]

/-- Lists that replace debits and credits of the same value keep the 100 coins. -/
theorem supply_of_run {tr : List (State × List SignedTransaction)} {s : State}
    (h : Ledger.Run icoState tr s) (hc : ∀ x ∈ tr, Conserving x.1 x.2) : s.supply = 100 := by
  refine h.invariant (I := fun s => s.supply = 100) (C := Conserving) supply_icoState ?_ hc
  intro p l s hp hcons hstep
  obtain ⟨⟨s', v⟩, he, rfl⟩ := Option.map_eq_some_iff.1 hstep
  rw [(supply_executeTx_iff he).2 hcons, hp]

/-- The states that a run passes, with the one it ends in. -/
def Ledger.Passes (tr : List (State × List SignedTransaction)) (s p : State) : Prop :=
  p ∈ tr.map Prod.fst ∨ p = s

/-- **No balance overflows, exactly in roomy states.**  In the states of a run from the initial state, the
operations on balances fail for no list of transactions exactly if all these states are roomy; and they are
when the lists of the run replace debits and credits of the same value. -/
theorem no_balance_overflow_iff {tr : List (State × List SignedTransaction)} {s : State}
    (h : Ledger.Run icoState tr s) :
    ((∀ p, Ledger.Passes tr s p → ∀ l, ¬ BalanceFails p l) ↔
        ∀ p, Ledger.Passes tr s p → Roomy p) ∧
      ((∀ x ∈ tr, Conserving x.1 x.2) → ∀ p, Ledger.Passes tr s p → Roomy p) := by
  refine ⟨forall₂_congr fun p _ => not_balanceFails_iff, ?_⟩
  intro hc p hp
  have hsupply : p.supply = 100 := by
    rcases hp with hp | rfl
    · obtain ⟨⟨p, l⟩, hmem, rfl⟩ := List.mem_map.1 hp
      obtain ⟨tr₁, -, tr₂, hrun, -, -, rfl⟩ := h.split_of_mem hmem
      exact supply_of_run hrun fun x hx => hc x (List.mem_append_left _ hx)
    · exact supply_of_run h hc
  refine roomy_of_supply_lt ?_
  rw [hsupply]
  decide

/-! ### Examples -/

omit [Crypto] in
/-- Accounts 0, 1 and 2 pay in turn, from the round `i` on; the account whose turn it is has `a` coins, the
next one `b` coins and the one after it none.  Each pays all it has to both others, in one list. -/
def payInTurn : ℕ → ℕ → UInt32 → UInt32 → List (List SignedTransaction)
  | 0, _, _, _ => []
  | count + 1, i, a, b =>
    let account (k : ℕ) : Address := BitVec.ofNat 160 (k % 3)
    let accountNonce := UInt32.ofNat (i / 3 + 1)
    [sampleTransaction (account i) (account (i + 1)) accountNonce a,
      sampleTransaction (account i) (account (i + 2)) accountNonce a] ::
        payInTurn count (i + 1) (a + b) a

omit [Crypto] in
/-- **A balance overflows**: after 37 rounds the account whose turn it is has 3908816900 coins and another one
2415781700. -/
theorem balance_overflow :
    letI := sampleCrypto
    ∃ s, Ledger.Run icoState (Lts.replayTrace Ledger.step icoState (payInTurn 37 0 100 0)) s ∧
      BalanceFails s [sampleTransaction 1 2 13 3908816900] := by
  let _ := sampleCrypto
  obtain ⟨s, hrun, hfails⟩ := @Lts.exists_run_of_replay _ _ Ledger.step (payInTurn 37 0 100 0) icoState
    (fun s => balanceFails s (sampleTransaction 1 2 13 3908816900) = true) (by decide +kernel)
  exact ⟨s, hrun, [], _, [], rfl, rfl, hfails⟩

omit [Crypto] in
/-- After one payment nothing can overflow. -/
theorem no_balance_overflow_iff_payment :
    letI := sampleCrypto
    ∃ s, Ledger.Run icoState
        (Lts.replayTrace Ledger.step icoState [[sampleTransaction 0 1 1 40]]) s ∧
      s.balance 1 = 40 ∧ ∀ l, ¬ BalanceFails s l := by
  let _ := sampleCrypto
  obtain ⟨s, hrun, hbal⟩ := @Lts.exists_run_of_replay _ _ Ledger.step
    [[sampleTransaction 0 1 1 40]] icoState (fun s => s.balance 1 = 40) (by decide +kernel)
  obtain ⟨hiff, hroomy⟩ := no_balance_overflow_iff hrun
  exact ⟨s, hrun, hbal, hiff.2 (hroomy (by decide +kernel)) s (Or.inr rfl)⟩

end BitcoinClient
