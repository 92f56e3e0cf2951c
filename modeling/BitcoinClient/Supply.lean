/-
**The supply of coins.**

`executeTx` reads balances from the parent state and writes them to the new one, so when two
transactions of a block share an account the later write replaces the earlier one.  A debit that is
replaced creates coins, and a credit that is replaced destroys coins.  This module does the
accounting: the sum of the balances after a list, plus the credits that were replaced, is the sum
before it, plus the debits that were replaced.  So the supply is conserved exactly by the lists for
which the two amounts agree, and along every run that only executes such lists it stays at the 100
coins of the initial offering.

Main definitions:

* `BitcoinClient.State.supply` — the sum of the balances;
* `BitcoinClient.replacedDebits`, `BitcoinClient.replacedCredits` — the value of the debits and of
  the credits of a list that a later transaction of the list replaces;
* `BitcoinClient.Conserving` — the two amounts agree for the executable transactions of a list.

Main results:

* `BitcoinClient.supply_applyAll` — **the accounting identity**;
* `BitcoinClient.supply_not_conserved` — two payments out of the initial account double the supply;
* `BitcoinClient.supply_conserved_iff` — the supply is conserved exactly by the conserving lists.
-/

import BitcoinClient.Core
import BitcoinClient.FinmapTotal

set_option relaxedAutoImplicit false
set_option autoImplicit false

namespace BitcoinClient

/-! ### The sum of the balances -/

/-- The balance of an entry, as a number. -/
def balanceWeight (e : UInt32 × UInt32) : ℕ := e.2.toNat

/-- The sum of all balances. -/
def State.supply (s : State) : ℕ := Finmap.total balanceWeight s

theorem weightAt_balanceWeight (s : State) (a : Address) :
    Finmap.weightAt balanceWeight a s = (s.balance a).toNat := by
  rw [Finmap.weightAt, State.balance]
  cases s.lookup a with
  | none => rfl
  | some e => rfl

theorem State.supply_insert (s : State) (a : Address) (e : UInt32 × UInt32) :
    State.supply (s.insert a e) + (s.balance a).toNat = s.supply + e.2.toNat := by
  have h := Finmap.total_insert balanceWeight s a e
  rw [weightAt_balanceWeight] at h
  exact h

theorem State.balance_insert_of_ne (s : State) {a b : Address} (e : UInt32 × UInt32) (h : b ≠ a) :
    State.balance (s.insert a e) b = s.balance b := by
  rw [State.balance, State.balance, Finmap.lookup_insert_of_ne _ h]

/-! ### Replaced debits and credits -/

/-- A later transaction writes the account. -/
def writtenBy (v : List SignedTransaction) (a : Address) : Bool := v.any (touches · a)

/-- The value of the debits that a later transaction of the list replaces. -/
def replacedDebits : List SignedTransaction → ℕ
  | [] => 0
  | tx :: v =>
    (if tx.transaction.sender ≠ tx.transaction.receiver ∧ writtenBy v tx.transaction.sender then
      tx.transaction.value.toNat else 0) + replacedDebits v

/-- The value of the credits that a later transaction of the list replaces. -/
def replacedCredits : List SignedTransaction → ℕ
  | [] => 0
  | tx :: v =>
    (if tx.transaction.sender ≠ tx.transaction.receiver ∧ writtenBy v tx.transaction.receiver then
      tx.transaction.value.toNat else 0) + replacedCredits v

/-- The transactions of `l` that are executable on `p` replace debits and credits of the same
value. -/
def Conserving (p : State) (l : List SignedTransaction) : Prop :=
  replacedDebits (l.filter (executable p)) = replacedCredits (l.filter (executable p))

instance (p : State) (l : List SignedTransaction) : Decidable (Conserving p l) :=
  inferInstanceAs (Decidable (_ = _))

theorem writtenBy_eq_true {v : List SignedTransaction} {a : Address} :
    writtenBy v a = true ↔ ∃ tx, lastTouch v a = some tx := by
  rw [← Option.ne_none_iff_exists', Ne, lastTouch_eq_none]
  simp [writtenBy]

/-! ### The accounting identity -/

/-- An entry written before `v` survives `v` when `v` does not write its account, and leaves no
trace otherwise. -/
theorem applyAll_insert (p s : State) (v : List SignedTransaction) (a : Address)
    (e : UInt32 × UInt32) : applyAll p (s.insert a e) v =
      if writtenBy v a then applyAll p s v else (applyAll p s v).insert a e := by
  refine Finmap.ext_lookup fun x => ?_
  rw [lookup_applyAll]
  by_cases hw : writtenBy v a = true
  · rw [if_pos hw, lookup_applyAll]
    by_cases hx : x = a
    · obtain ⟨tx, htx⟩ := writtenBy_eq_true.1 (hx ▸ hw)
      rw [htx]
    · rw [Finmap.lookup_insert_of_ne _ hx]
  · rw [if_neg hw]
    have hnone : lastTouch v a = none := by
      rw [← Option.not_isSome_iff_eq_none, Option.isSome_iff_exists, ← writtenBy_eq_true]
      exact hw
    by_cases hx : x = a
    · rw [hx, hnone, Finmap.lookup_insert, Finmap.lookup_insert]
    · rw [Finmap.lookup_insert_of_ne _ hx, Finmap.lookup_insert_of_ne _ hx, lookup_applyAll]

/-- The balance of an account that `v` does not write. -/
theorem balance_applyAll_of_not_written {p s : State} {v : List SignedTransaction} {a : Address}
    (h : writtenBy v a = false) : (applyAll p s v).balance a = s.balance a := by
  have hnone : lastTouch v a = none := by
    rw [← Option.not_isSome_iff_eq_none, Option.isSome_iff_exists, ← writtenBy_eq_true, h]
    simp
  rw [State.balance, State.balance, lookup_applyAll, hnone]

/-- The write of one entry below `v`, in numbers. -/
theorem supply_applyAll_insert (p s : State) (v : List SignedTransaction) (a : Address)
    (e : UInt32 × UInt32) :
    (applyAll p (s.insert a e) v).supply + (if writtenBy v a then 0 else (s.balance a).toNat) =
      (applyAll p s v).supply + (if writtenBy v a then 0 else e.2.toNat) := by
  rw [applyAll_insert]
  cases hw : writtenBy v a with
  | true => simp
  | false =>
      have h := State.supply_insert (applyAll p s v) a e
      rw [balance_applyAll_of_not_written hw] at h
      simpa using h

/-- **The accounting identity.** -/
theorem supply_applyAll {p : State} : ∀ {v : List SignedTransaction}, (∀ tx ∈ v, Payable p tx) →
    (applyAll p p v).supply + replacedCredits v = p.supply + replacedDebits v := by
  intro v
  induction v with
  | nil => intro _; rfl
  | cons tx v ih =>
      intro hpay
      have htx : Payable p tx := hpay tx (List.mem_cons_self ..)
      have hv := ih fun t ht => hpay t (List.mem_cons_of_mem _ ht)
      -- the two writes of `tx`, below the writes of the transactions after it
      have hr := supply_applyAll_insert p
        (p.insert tx.transaction.sender (entryAfter p tx tx.transaction.sender)) v
        tx.transaction.receiver (entryAfter p tx tx.transaction.receiver)
      have hs := supply_applyAll_insert p p v tx.transaction.sender
        (entryAfter p tx tx.transaction.sender)
      rw [applyAll_cons, applyTx, replacedCredits, replacedDebits]
      by_cases hself : tx.transaction.sender = tx.transaction.receiver
      · -- a self-transfer writes one entry twice, with the balance it had
        have hbal : (entryAfter p tx tx.transaction.sender).2 =
            p.balance tx.transaction.sender := Payable.entryAfter_of_self rfl hself.symm
        have hsame : State.balance (p.insert tx.transaction.sender
            (entryAfter p tx tx.transaction.sender)) tx.transaction.receiver =
              p.balance tx.transaction.sender := by
          rw [← hself, State.balance, Finmap.lookup_insert]
          exact hbal
        rw [hsame, ← hself, hbal] at hr
        rw [hbal] at hs
        rw [← hself]
        simp only [ne_eq, not_true_eq_false, false_and, if_false, Nat.zero_add]
        omega
      · have hdebit := htx.entryAfter_of_debits (a := tx.transaction.sender)
          (debits_iff.2 ⟨rfl, fun h => hself h.symm⟩)
        have hcredit := htx.entryAfter_of_credit (a := tx.transaction.receiver) hself rfl
        have hother := State.balance_insert_of_ne p
          (entryAfter p tx tx.transaction.sender) (fun h => hself (Eq.symm h))
        rw [hother, hcredit] at hr
        simp only [ne_eq, hself, not_false_eq_true, true_and]
        cases hws : writtenBy v tx.transaction.sender <;>
          cases hwr : writtenBy v tx.transaction.receiver <;>
          simp only [hws, hwr, if_true, if_false, Bool.false_eq_true] at hr hs ⊢ <;> omega

theorem supply_executeTx {p s : State} {l v : List SignedTransaction}
    (h : executeTx p l = some (s, v)) :
    s.supply + replacedCredits (l.filter (executable p)) =
      p.supply + replacedDebits (l.filter (executable p)) := by
  obtain ⟨-, hv, hs⟩ := executeTx_eq_some_iff.1 h
  have hpay : ∀ tx ∈ v, Payable p tx := fun tx htx => payable_of_mem_valid h htx
  have hsupply := supply_applyAll hpay
  rw [← hs, hv] at hsupply
  exact hsupply

theorem supply_executeTx_iff {p s : State} {l v : List SignedTransaction}
    (h : executeTx p l = some (s, v)) : s.supply = p.supply ↔ Conserving p l := by
  have hsupply := supply_executeTx h
  rw [Conserving]
  omega

/-! ### Lists that conserve the supply -/

/-- **One list**: it conserves the supply exactly when it replaces debits and credits of the same
value. -/
theorem supply_eq_iff {p : State} {l : List SignedTransaction} :
    (∃ s v, executeTx p l = some (s, v) ∧ s.supply = p.supply) ↔
      (∀ tx ∈ l, overflows p tx = false) ∧ Conserving p l := by
  constructor
  · rintro ⟨s, v, h, hs⟩
    exact ⟨(executeTx_eq_some_iff.1 h).1, (supply_executeTx_iff h).1 hs⟩
  · rintro ⟨ho, hc⟩
    have h := executeTx_eq_some_iff.2 ⟨ho, rfl, rfl⟩
    exact ⟨_, _, h, (supply_executeTx_iff h).2 hc⟩

/-! ### Runs -/

variable [Crypto]

theorem supply_icoState : icoState.supply = 100 := by
  have h := State.supply_insert ∅ icoAddr (0, 100)
  have hempty : State.supply ∅ = 0 := Finmap.total_empty balanceWeight
  have hzero : (State.balance ∅ icoAddr).toNat = 0 := by
    rw [State.balance, Finmap.lookup_empty]
    rfl
  rw [hempty, hzero] at h
  exact h

/-- The state that a step computes, if it does, is that of a conserving list. -/
def ConservingStep (n : Node) (e : Event) : Prop :=
  ∀ x ∈ n.computed e, (∀ tx ∈ x.1.data, overflows x.2 tx = false) → Conserving x.2 x.1.data

instance (n : Node) (e : Event) : Decidable (ConservingStep n e) :=
  inferInstanceAs (Decidable (∀ x ∈ n.computed e, _))

/-- Every stored state has the 100 coins of the initial offering. -/
def SupplyInvariant (n : Node) : Prop :=
  ∀ h s, n.blockchain.getBlockState h = some s → s.supply = 100

theorem supplyInvariant_init (g : GenesisDraw) : SupplyInvariant (Node.init g) := by
  intro h s hs
  obtain ⟨-, rfl⟩ := Blockchain.getBlockState_new_eq_some.1 hs
  exact supply_icoState

theorem supplyInvariant_step {n n' : Node} {e : Event} (hinv : SupplyInvariant n)
    (hc : ConservingStep n e) (hstep : n.step e = some n') : SupplyInvariant n' := by
  intro h s hs
  rcases Node.getBlockState_of_step hstep hs with hold | ⟨rfl, -⟩ | ⟨b, p, v, hb, -, hp, he⟩
  · exact hinv h s hold
  · exact supply_icoState
  · have hcons : Conserving p b.data := hc (b, p) hb (executeTx_eq_some_iff.1 he).1
    rw [(supply_executeTx_iff he).2 hcons]
    exact hinv _ p hp

/-- **The supply is conserved exactly by the conserving lists**: by one list, and along the runs
that execute conserving lists only. -/
theorem supply_conserved_iff :
    (∀ (p : State) (l : List SignedTransaction),
      (∃ s v, executeTx p l = some (s, v) ∧ s.supply = p.supply) ↔
        (∀ tx ∈ l, overflows p tx = false) ∧ Conserving p l) ∧
    ∀ (g : GenesisDraw) (tr : List (Node × Event)) (n : Node), Node.Run (Node.init g) tr n →
      (∀ x ∈ tr, ConservingStep x.1 x.2) → SupplyInvariant n :=
  ⟨fun _ _ => supply_eq_iff, fun g _ _ hrun hc =>
    hrun.invariant (supplyInvariant_init g) (fun _ _ _ => supplyInvariant_step) hc⟩

/-! ### Payments out of the initial account -/

omit [Crypto]

/-- A node receives a block on its genesis block with the given transactions. -/
def receiveBlock (data : List SignedTransaction) : List Event :=
  [.message (.blocks [sampleBlock 1 2 2 data]), .worker, .worker]

/-- Two payments of the whole balance of the initial account. -/
def twoPayments : List SignedTransaction :=
  [sampleTransaction 0 1 1 100, sampleTransaction 0 2 1 100]

/-- **The supply is not conserved**: both payments are executed, and each receiver has the 100 coins
afterwards. -/
theorem supply_not_conserved :
    letI := sampleCrypto
    (∃ r ∈ executeTx icoState twoPayments, r.1.supply = 200) ∧
      ∃ n, Node.Run (Node.init sampleGenesis)
          (Lts.replayTrace Node.step (Node.init sampleGenesis) (receiveBlock twoPayments)) n ∧
        ∃ s ∈ n.blockchain.getBlockState 2, s.supply = 200 :=
  ⟨by decide +kernel, Lts.exists_run_of_replay (by decide +kernel)⟩

/-- The supply after one payment. -/
theorem supply_conserved_iff_payment :
    letI := sampleCrypto
    ∃ n, Node.Run (Node.init sampleGenesis)
        (Lts.replayTrace Node.step (Node.init sampleGenesis)
          (receiveBlock [sampleTransaction 0 1 1 40])) n ∧
      (n.blockchain.getBlockState 2).isSome ∧ SupplyInvariant n := by
  obtain ⟨n, hrun, hstored⟩ := @Lts.exists_run_of_replay _ _ (@Node.step sampleCrypto)
    (receiveBlock [sampleTransaction 0 1 1 40]) (@Node.init sampleCrypto sampleGenesis)
    (fun n => (n.blockchain.getBlockState 2).isSome) (by decide +kernel)
  exact ⟨n, hrun, hstored, (@supply_conserved_iff sampleCrypto).2 _ _ _ hrun (by decide +kernel)⟩

end BitcoinClient
