/-
**Sequential execution.**

Executing a list in two parts, the second on the state that the first leaves, is what a ledger means by
executing it.  `executeTx` reads the parent state for every transaction of the list, so the two differ as
soon as the second part depends on what the first has written: a payment with the next nonce but one is
skipped, a payment of coins received in the list is skipped, and a second write of an account replaces the
first.  This module says exactly when the second part does not depend on the first.

Main definitions:

* `BitcoinClient.passes` — the two checks of a transaction against an entry;
* `BitcoinClient.Independent` — the second part does not depend on what the first writes.

Main results:

* `BitcoinClient.keeps_iff` — the writes after which an account has the nonce and the balance it had;
* `BitcoinClient.executeTx_append_iff` — **executing in two parts is executing at once** exactly for
  independent parts;
* `BitcoinClient.executeTx_not_sequential` — two payments of one account.
-/

import BitcoinClient.ExecutionFrame

set_option relaxedAutoImplicit false
set_option autoImplicit false

namespace BitcoinClient

/-! ### Checks against an entry -/

/-- The transaction passes the balance check and the nonce check on an entry of its sender. -/
def passes (e : UInt32 × UInt32) (tx : SignedTransaction) : Bool :=
  tx.transaction.value ≤ e.2 && checkedAdd e.1 1 = some tx.transaction.accountNonce

theorem executable_of_lookup {p : State} {tx : SignedTransaction} {e : UInt32 × UInt32}
    (h : p.lookup tx.transaction.sender = some e) : executable p tx = passes e tx := by
  simp [executable, passes, h]

theorem executable_congr {p s : State} {tx : SignedTransaction}
    (h : s.lookup tx.transaction.sender = p.lookup tx.transaction.sender) :
    executable s tx = executable p tx := by
  rw [executable, executable, h]

/-- What a transaction writes depends on the nonce and the balance of the account. -/
theorem entryAfter_congr {p s : State} {a : Address} (tx : SignedTransaction)
    (hnonce : s.accNonce a = p.accNonce a) (hbal : s.balance a = p.balance a) :
    entryAfter s tx a = entryAfter p tx a := by
  rw [entryAfter, entryAfter, hnonce, hbal]

/-- What a transaction that passes the checks writes determines the nonce and the balance of the account. -/
theorem eq_of_entryAfter_eq {p s : State} {tx : SignedTransaction} {a : Address}
    (hp : executable p tx = true) (hs : executable s tx = true)
    (h : entryAfter s tx a = entryAfter p tx a) :
    s.accNonce a = p.accNonce a ∧ s.balance a = p.balance a := by
  rw [entryAfter, entryAfter] at h
  by_cases hsender : tx.transaction.sender = a
  · obtain ⟨-, -, hnonce⟩ := executable_iff_balance.1 hp
    obtain ⟨-, -, hnonce'⟩ := executable_iff_balance.1 hs
    have hnext := toNat_of_checkedAdd hnonce
    have hnext' := toNat_of_checkedAdd hnonce'
    rw [hsender] at hnext hnext'
    rw [if_pos hsender, if_pos hsender, Prod.mk.injEq] at h
    refine ⟨UInt32.toNat_inj.1 (by omega), ?_⟩
    by_cases hreceiver : tx.transaction.receiver = a
    · rw [if_pos hreceiver, if_pos hreceiver] at h
      exact h.2
    · rw [if_neg hreceiver, if_neg hreceiver] at h
      exact (UInt32.sub_left_inj _).1 h.2
  · rw [if_neg hsender, if_neg hsender, Prod.mk.injEq] at h
    exact ⟨h.1, (UInt32.add_left_inj _).1 h.2⟩

theorem exists_lastTouch {v : List SignedTransaction} {tx : SignedTransaction} {a : Address}
    (hmem : tx ∈ v) (htouches : touches tx a = true) : ∃ t, lastTouch v a = some t := by
  rw [← Option.ne_none_iff_exists', Ne, lastTouch_eq_none]
  intro hnone
  rw [hnone tx hmem] at htouches
  exact Bool.false_ne_true htouches

/-! ### Independence -/

/-- An account is not written by `v`, or last by a transfer of nothing from another account. -/
def Unchanged (v : List SignedTransaction) (a : Address) : Prop :=
  ∀ t ∈ lastTouch v a, t.transaction.sender ≠ a ∧ t.transaction.value = 0

instance (v : List SignedTransaction) (a : Address) : Decidable (Unchanged v a) :=
  inferInstanceAs (Decidable (∀ t ∈ lastTouch v a, _))

/-- The transactions of `ys` do not depend on what the transactions of `xs` write when both are executed on
`s`. -/
structure Independent (s : State) (xs ys : List SignedTransaction) : Prop where
  /-- What fails the checks on `s` fails them on the entry that `xs` leaves to the sender. -/
  fails : ∀ tx ∈ ys, executable s tx = false →
    ∀ t ∈ lastTouch (xs.filter (executable s)) tx.transaction.sender,
      passes (entryAfter s t tx.transaction.sender) tx = false
  /-- The accounts of what passes are as they were. -/
  kept : ∀ tx ∈ ys, executable s tx = true → ∀ a, touches tx a = true →
    Unchanged (xs.filter (executable s)) a

section

variable {s s₁ s₂ : State} {xs ys v₁ v₂ : List SignedTransaction}

/-- **An account has the nonce and the balance it had** exactly when it is not written, or last by a
transfer of nothing from another account. -/
theorem keeps_iff (hx : executeTx s xs = some (s₁, v₁)) (a : Address) :
    (s₁.accNonce a = s.accNonce a ∧ s₁.balance a = s.balance a) ↔ Unchanged v₁ a := by
  have hlookup := lookup_executeTx hx a
  cases hlast : lastTouch v₁ a with
  | none =>
      rw [hlast] at hlookup
      simp [Unchanged, hlast, State.accNonce, State.balance, hlookup]
  | some t =>
      rw [hlast] at hlookup
      obtain ⟨hmem, htouches⟩ := lastTouch_mem hlast
      have hpay := payable_of_mem_valid hx hmem
      rw [State.accNonce_of_lookup hlookup, State.balance_of_lookup hlookup]
      simp only [Unchanged, hlast, Option.mem_some_iff, forall_eq']
      by_cases hs : t.transaction.sender = a
      · -- the nonce of a sender changes
        have hnonce := hpay.accNonce_of_sender hs
        have hne : (entryAfter s t a).1 ≠ s.accNonce a := by
          intro heq
          rw [heq] at hnonce
          omega
        simp [hs, hne]
      · have hr := (touches_iff.1 htouches).resolve_left hs
        have hcredit := hpay.entryAfter_of_credit hs hr
        have hzero : (entryAfter s t a).2 = s.balance a ↔ t.transaction.value = 0 := by
          rw [← UInt32.toNat_inj, hcredit, ← UInt32.toNat_inj, UInt32.toNat_zero]
          omega
        simp [hs, Payable.accNonce_of_credit hs, hzero]

/-- The accounts of what passes the checks keep their nonce and balance. -/
theorem Independent.keeps (h : Independent s xs ys) (hx : executeTx s xs = some (s₁, v₁))
    {tx : SignedTransaction} (hmem : tx ∈ ys) (he : executable s tx = true) {a : Address}
    (ha : touches tx a = true) : s₁.accNonce a = s.accNonce a ∧ s₁.balance a = s.balance a := by
  obtain ⟨-, hv, -⟩ := executeTx_eq_some_iff.1 hx
  rw [keeps_iff hx, hv]
  exact h.kept tx hmem he a ha

/-- The checks have the same result on the state that `xs` leaves. -/
theorem Independent.executable_eq (h : Independent s xs ys) (hx : executeTx s xs = some (s₁, v₁))
    {tx : SignedTransaction} (hmem : tx ∈ ys) : executable s₁ tx = executable s tx := by
  obtain ⟨-, hv, -⟩ := executeTx_eq_some_iff.1 hx
  cases he : executable s tx with
  | true =>
      obtain ⟨hnonce, hbal⟩ := h.keeps hx hmem he (touches_iff.2 (Or.inl rfl))
      rw [executable_iff_balance] at he ⊢
      rw [hnonce, hbal]
      exact ⟨mem_executeTx hx he.1, he.2⟩
  | false =>
      have hlookup := lookup_executeTx hx tx.transaction.sender
      cases hlast : lastTouch v₁ tx.transaction.sender with
      | none =>
          rw [hlast] at hlookup
          rw [executable_congr hlookup, he]
      | some t =>
          rw [hlast] at hlookup
          rw [executable_of_lookup hlookup]
          rw [hv] at hlast
          exact h.fails tx hmem he t hlast

/-- An account whose nonce cannot be raised has not sent anything. -/
theorem accNonce_eq_of_max (hx : executeTx s xs = some (s₁, v₁)) {a : Address}
    (hmax : checkedAdd (s.accNonce a) 1 = none) : s₁.accNonce a = s.accNonce a := by
  rw [checkedAdd_eq_none] at hmax
  have hle := UInt32.le_iff_toNat_le.1 (accNonce_le_executeTx hx a)
  have hlt := (s₁.accNonce a).toNat_lt
  rw [← UInt32.toNat_inj]
  change 2 ^ 32 ≤ (s.accNonce a).toNat + 1 at hmax
  omega

/-- An account whose nonce is as before has not paid. -/
theorem balance_le_of_accNonce_eq (hx : executeTx s xs = some (s₁, v₁)) {a : Address}
    (hnonce : s₁.accNonce a = s.accNonce a) : s.balance a ≤ s₁.balance a := by
  rcases entry_cases hx a with heq | ⟨t, hmem, htouches, heq⟩
  · have hsame : s₁.balance a = s.balance a := by rw [State.balance, State.balance, heq]
    exact UInt32.le_of_eq hsame.symm
  · have hpay := payable_of_mem_valid hx hmem
    rw [State.accNonce_of_lookup heq] at hnonce
    have hs : t.transaction.sender ≠ a := by
      intro hs
      have hnext := hpay.accNonce_of_sender hs
      rw [hnonce] at hnext
      omega
    have hcredit := hpay.entryAfter_of_credit hs ((touches_iff.1 htouches).resolve_left hs)
    rw [State.balance_of_lookup heq, UInt32.le_iff_toNat_le]
    omega

/-- What overflows on `s` overflows on the state that `xs` leaves. -/
theorem Independent.overflows_of (h : Independent s xs ys) (hx : executeTx s xs = some (s₁, v₁))
    {tx : SignedTransaction} (hmem : tx ∈ ys) (ho : overflows s tx = true) :
    overflows s₁ tx = true := by
  obtain ⟨hsender, hle, hcase⟩ := overflows_iff.1 ho
  rcases hcase with hmax | ⟨he, hne, hroom⟩
  · have hnonce := accNonce_eq_of_max hx hmax
    have hmore := balance_le_of_accNonce_eq hx hnonce
    rw [overflows_iff, hnonce]
    exact ⟨mem_executeTx hx hsender, UInt32.le_trans hle hmore, Or.inl hmax⟩
  · obtain ⟨hnonce, hbal⟩ := h.keeps hx hmem he (touches_iff.2 (Or.inl rfl))
    obtain ⟨-, hbal'⟩ := h.keeps hx hmem he (touches_iff.2 (Or.inr rfl))
    have he' := (h.executable_eq hx hmem).trans he
    rw [overflows_iff, hbal, hbal']
    exact ⟨mem_executeTx hx hsender, hle, Or.inr ⟨he', hne, hroom⟩⟩

/-- When the second part executes and writes the same on the state before the first part, it does not depend on
what the first writes. -/
theorem independent_of_append (hx : executeTx s xs = some (s₁, v₁)) (hy : executeTx s₁ ys = some (s₂, v₂))
    (hfilter : v₂ = ys.filter (executable s)) (hstate : s₂ = applyAll s s₁ v₂) :
    Independent s xs ys := by
  obtain ⟨-, hv₁, -⟩ := executeTx_eq_some_iff.1 hx
  obtain ⟨-, hv₂, hs₂⟩ := executeTx_eq_some_iff.1 hy
  have heq : ∀ tx ∈ ys, executable s₁ tx = executable s tx := by
    intro tx hmem
    have hiff : tx ∈ ys.filter (executable s₁) ↔ tx ∈ ys.filter (executable s) := by
      rw [← hv₂, hfilter]
    simp only [List.mem_filter, hmem, true_and] at hiff
    exact Bool.eq_iff_iff.2 hiff
  refine ⟨?_, ?_⟩
  · intro tx hmem he t ht
    have hlookup := lookup_executeTx hx tx.transaction.sender
    rw [hv₁, ht] at hlookup
    rw [← executable_of_lookup hlookup, heq tx hmem, he]
  · intro tx hmem he a ha
    rw [← hv₁, ← keeps_iff hx]
    have hmem₂ : tx ∈ v₂ := by rw [hfilter]; exact List.mem_filter.2 ⟨hmem, he⟩
    -- the entry that is written last is computed from `s` and from the state that `xs` leaves
    obtain ⟨t, ht⟩ := exists_lastTouch hmem₂ ha
    have hentry : entryAfter s₁ t a = entryAfter s t a := by
      have hl := lookup_applyAll s₁ s₁ v₂ a
      have hr := lookup_applyAll s s₁ v₂ a
      rw [← hs₂, hstate, hr, ht] at hl
      exact (Option.some.inj hl).symm
    obtain ⟨hmem', -⟩ := lastTouch_mem ht
    have hes : executable s t = true := by
      rw [hfilter] at hmem'
      exact (List.mem_filter.1 hmem').2
    have hes₁ : executable s₁ t = true := by
      rw [hv₂] at hmem'
      exact (List.mem_filter.1 hmem').2
    exact eq_of_entryAfter_eq hes hes₁ hentry

/-- **Executing in two parts is executing at once** exactly when the second part does not depend on what the
first writes. -/
theorem executeTx_append_iff (hx : executeTx s xs = some (s₁, v₁))
    (hy : executeTx s₁ ys = some (s₂, v₂)) :
    executeTx s (xs ++ ys) = some (s₂, v₁ ++ v₂) ↔ Independent s xs ys := by
  obtain ⟨hox, hv₁, hs₁⟩ := executeTx_eq_some_iff.1 hx
  obtain ⟨hoy, hv₂, hs₂⟩ := executeTx_eq_some_iff.1 hy
  rw [executeTx_eq_some_iff, List.filter_append, ← hv₁, List.append_cancel_left_eq, applyAll_append,
    ← hs₁]
  constructor
  · rintro ⟨-, hfilter, hstate⟩
    exact independent_of_append hx hy hfilter hstate
  · intro h
    have hfilter : v₂ = ys.filter (executable s) := by
      rw [hv₂]
      exact List.filter_congr fun tx hmem => h.executable_eq hx hmem
    refine ⟨?_, hfilter, ?_⟩
    · intro tx hmem
      rcases List.mem_append.1 hmem with hmem | hmem
      · exact hox tx hmem
      · rw [Bool.eq_false_iff]
        intro ho
        have ho₁ := h.overflows_of hx hmem ho
        rw [hoy tx hmem] at ho₁
        cases ho₁
    · rw [hs₂]
      refine Finmap.ext_lookup fun a => ?_
      rw [lookup_applyAll, lookup_applyAll]
      cases hlast : lastTouch v₂ a with
      | none => rfl
      | some t =>
          obtain ⟨hmem, htouches⟩ := lastTouch_mem hlast
          rw [hfilter, List.mem_filter] at hmem
          obtain ⟨hnonce, hbal⟩ := h.keeps hx hmem.1 hmem.2 htouches
          exact congrArg some (entryAfter_congr t hnonce hbal)

end

/-! ### Examples -/

instance (s : State) (xs ys : List SignedTransaction) : Decidable (Independent s xs ys) :=
  decidable_of_iff
    ((∀ tx ∈ ys, executable s tx = false →
        ∀ t ∈ lastTouch (xs.filter (executable s)) tx.transaction.sender,
          passes (entryAfter s t tx.transaction.sender) tx = false) ∧
      ∀ tx ∈ ys, executable s tx = true →
        Unchanged (xs.filter (executable s)) tx.transaction.sender ∧
          Unchanged (xs.filter (executable s)) tx.transaction.receiver) <| by
    constructor
    · rintro ⟨hfails, hkept⟩
      refine ⟨hfails, fun tx hmem he a ha => ?_⟩
      rcases touches_iff.1 ha with rfl | rfl
      · exact (hkept tx hmem he).1
      · exact (hkept tx hmem he).2
    · intro h
      refine ⟨h.fails, fun tx hmem he => ⟨h.kept tx hmem he _ ?_, h.kept tx hmem he _ ?_⟩⟩
      · exact touches_iff.2 (Or.inl rfl)
      · exact touches_iff.2 (Or.inr rfl)

/-- Two accounts with coins. -/
def twoAccounts : State :=
  ((∅ : State).insert (0 : Address) ((0, 100) : UInt32 × UInt32)).insert (1 : Address) (0, 100)

/-- Payments of different accounts to different accounts. -/
theorem executeTx_append_iff_payments :
    ∃ s v, executeTx twoAccounts ([sampleTransaction 0 2 1 40] ++ [sampleTransaction 1 3 1 10]) =
      some (s, v) ∧ v.length = 2 := by
  have hdone : (executeTx twoAccounts [sampleTransaction 0 2 1 40]).bind (fun r =>
      (executeTx r.1 [sampleTransaction 1 3 1 10]).map fun q => (r.2 ++ q.2).length) = some 2 := by
    decide +kernel
  obtain ⟨⟨s₁, v₁⟩, hx, hy⟩ := Option.bind_eq_some_iff.1 hdone
  obtain ⟨⟨s₂, v₂⟩, hy, hlen⟩ := Option.map_eq_some_iff.1 hy
  have hind : Independent twoAccounts [sampleTransaction 0 2 1 40] [sampleTransaction 1 3 1 10] := by
    decide +kernel
  exact ⟨s₂, v₁ ++ v₂, (executeTx_append_iff hx hy).2 hind, hlen⟩

/-- **Execution is not sequential**: of two payments of one account, the second with the nonce after that of
the first, both are executed in two parts and only the first at once. -/
theorem executeTx_not_sequential :
    ∃ s₁ v₁ s₂ v₂, executeTx twoAccounts [sampleTransaction 0 2 1 40] = some (s₁, v₁) ∧
      executeTx s₁ [sampleTransaction 0 3 2 10] = some (s₂, v₂) ∧
      executeTx twoAccounts ([sampleTransaction 0 2 1 40] ++ [sampleTransaction 0 3 2 10]) ≠
        some (s₂, v₁ ++ v₂) := by
  have hdone : (executeTx twoAccounts [sampleTransaction 0 2 1 40]).bind (fun r =>
      (executeTx r.1 [sampleTransaction 0 3 2 10]).map fun q => (r.2 ++ q.2).length) = some 2 := by
    decide +kernel
  obtain ⟨⟨s₁, v₁⟩, hx, hy⟩ := Option.bind_eq_some_iff.1 hdone
  obtain ⟨⟨s₂, v₂⟩, hy, hlen⟩ := Option.map_eq_some_iff.1 hy
  refine ⟨s₁, v₁, s₂, v₂, hx, hy, ?_⟩
  intro h
  have hone : (executeTx twoAccounts
      ([sampleTransaction 0 2 1 40] ++ [sampleTransaction 0 3 2 10])).map (fun r => r.2.length) =
        some 1 := by decide +kernel
  rw [h, Option.map_some, hlen] at hone
  cases hone

end BitcoinClient
