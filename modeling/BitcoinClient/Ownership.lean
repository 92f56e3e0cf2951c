/-
**Who can spend the coins of an account.**

The signature of a transaction is checked when the transaction enters the mempool, its sender is
never compared with its public key, and the transactions of a received block are not checked at
all.  So a block can debit an account whose owner signed nothing.  This module says exactly when it
does not: the account ends with the entry that its last executed transaction writes, and if that
transaction is a debit then the list must hold a transaction signed by the owner.

Main definitions:

* `BitcoinClient.OwnerSigned` — a transaction of an account that its owner has signed;
* `BitcoinClient.OwnersOnly` — the accounts whose balance is smaller in the new state have such a
  transaction in the list;
* `BitcoinClient.Authorizes` — the accounts whose last executable transaction is a debit have one;
* `BitcoinClient.ComputedIn` — the state of a block was computed by a step of a run.

Main results:

* `BitcoinClient.ownersOnly_iff` — **the two conditions are equivalent** for an executed list;
* `BitcoinClient.stored_state_computed` — every stored state is that of a genesis block or was
  computed by a step of the run;
* `BitcoinClient.only_owner_spends_iff` — the states of the blocks of a node;
* `BitcoinClient.unsigned_debit` — a received block spends without a signature.
-/

import BitcoinClient.Core

set_option relaxedAutoImplicit false
set_option autoImplicit false

namespace BitcoinClient

variable [Crypto]

/-! ### One list of transactions -/

/-- The transaction is sent by the account `a`, carries the public key of that account, and its
signature verifies. -/
def OwnerSigned (tx : SignedTransaction) (a : Address) : Prop :=
  tx.transaction.sender = a ∧ verify tx.transaction tx.publicKey tx.signature = true ∧
    Address.fromPublicKeyBytes tx.publicKey = a

instance (tx : SignedTransaction) (a : Address) : Decidable (OwnerSigned tx a) :=
  inferInstanceAs (Decidable (_ ∧ _))

/-- An account that is poorer in `s` than in `p` has a transaction in `l` signed by its owner. -/
def OwnersOnly (p s : State) (l : List SignedTransaction) : Prop :=
  ∀ a, s.balance a < p.balance a → ∃ tx ∈ l, OwnerSigned tx a

/-- An executable transaction that takes coins from its sender, and is the last one to write the
entry of its sender, is accompanied by a transaction signed by the owner of that account. -/
def Authorizes (p : State) (l : List SignedTransaction) : Prop :=
  ∀ tx ∈ l.filter (executable p), tx.transaction.receiver ≠ tx.transaction.sender →
    0 < tx.transaction.value →
    lastTouch (l.filter (executable p)) tx.transaction.sender = some tx →
      ∃ tx' ∈ l, OwnerSigned tx' tx.transaction.sender

instance (p : State) (l : List SignedTransaction) : Decidable (Authorizes p l) :=
  inferInstanceAs (Decidable (∀ tx ∈ l.filter (executable p), _))

omit [Crypto] in
/-- An account is poorer after a list exactly when its last executed transaction takes coins from
it. -/
theorem balance_lt_iff {p s : State} {l v : List SignedTransaction}
    (h : executeTx p l = some (s, v)) (a : Address) :
    s.balance a < p.balance a ↔
      ∃ tx, lastTouch v a = some tx ∧ debits tx a = true ∧ 0 < tx.transaction.value := by
  have hlookup := lookup_executeTx h a
  rw [UInt32.lt_iff_toNat_lt]
  cases ht : lastTouch v a with
  | none =>
      rw [ht] at hlookup
      have hsame : s.balance a = p.balance a := by rw [State.balance, State.balance, hlookup]
      simp [hsame]
  | some tx =>
      rw [ht] at hlookup
      obtain ⟨hmem, htouch⟩ := lastTouch_mem ht
      have hpay : Payable p tx := payable_of_mem_valid h hmem
      have hbal : s.balance a = (entryAfter p tx a).2 := State.balance_of_lookup hlookup
      simp only [Option.some.injEq, exists_eq_left']
      rw [hbal]
      by_cases hd : debits tx a = true
      · have hdebit := hpay.entryAfter_of_debits hd
        rw [UInt32.lt_iff_toNat_lt]
        simp only [hd, true_and, UInt32.toNat_zero]
        omega
      · simp only [hd, false_and, iff_false, Nat.not_lt, Bool.false_eq_true]
        by_cases hsend : tx.transaction.sender = a
        · -- a transfer to the sender itself
          have hrecv : tx.transaction.receiver = a := by
            by_contra hne
            exact hd (debits_iff.2 ⟨hsend, hne⟩)
          rw [Payable.entryAfter_of_self hsend hrecv]
        · have hrecv : tx.transaction.receiver = a :=
            (touches_iff.1 htouch).resolve_left hsend
          have hcredit := hpay.entryAfter_of_credit hsend hrecv
          omega

/-- **One list**: only owners spend exactly when the list authorizes its debits. -/
theorem ownersOnly_iff {p s : State} {l v : List SignedTransaction}
    (h : executeTx p l = some (s, v)) : OwnersOnly p s l ↔ Authorizes p l := by
  have hv : v = l.filter (executable p) := (executeTx_eq_some_iff.1 h).2.1
  constructor
  · intro ho tx _ hne hpos hlast
    refine ho _ ((balance_lt_iff h _).2 ⟨tx, hv ▸ hlast, ?_, hpos⟩)
    exact debits_iff.2 ⟨rfl, hne⟩
  · intro ha a hlt
    obtain ⟨tx, hlast, hd, hpos⟩ := (balance_lt_iff h a).1 hlt
    obtain ⟨rfl, hne⟩ := debits_iff.1 hd
    rw [hv] at hlast
    exact ha tx (lastTouch_mem hlast).1 hne hpos hlast

/-! ### Where the states of a run come from -/

/-- A step of the run with the trace `tr` has computed the state `s` of the hash `h`, by executing
the transactions `l` of a block with that hash on the state `p` of its parent. -/
def ComputedIn (tr : List (Node × Event)) (h : H256) (l : List SignedTransaction) (p s : State) :
    Prop :=
  ∃ x ∈ tr, ∃ b v, x.1.computed x.2 = some (b, p) ∧ b.hash = h ∧ b.data = l ∧
    executeTx p l = some (s, v)

/-- **Every stored state was computed**, unless it is that of a genesis block. -/
theorem stored_state_computed {g : GenesisDraw} {tr : List (Node × Event)} {n : Node}
    (hrun : Node.Run (Node.init g) tr n) {h : H256} {s : State}
    (hs : n.blockchain.getBlockState h = some s) :
    s = icoState ∨ ∃ l p, ComputedIn tr h l p s := by
  induction hrun generalizing h s with
  | nil =>
      exact Or.inl (Blockchain.getBlockState_new_eq_some.1 hs).2.symm
  | snoc _ hstep ih =>
      rcases Node.getBlockState_of_step hstep hs with hold | ⟨rfl, -⟩ | ⟨b, p, v, hb, hh, hp, he⟩
      · rcases ih hold with rfl | ⟨l, p, x, hx, hrest⟩
        · exact Or.inl rfl
        · exact Or.inr ⟨l, p, x, List.mem_append_left _ hx, hrest⟩
      · exact Or.inl rfl
      · refine Or.inr ⟨b.data, p, _, List.mem_append_right _ (List.mem_singleton.2 rfl), ?_⟩
        exact ⟨b, v, hb, hh, rfl, he⟩

/-! ### The blocks of a node -/

/-- The block whose state a step computes, if it computes one, authorizes its debits. -/
def AuthorizingStep (n : Node) (e : Event) : Prop :=
  ∀ x ∈ n.computed e, (∀ tx ∈ x.1.data, overflows x.2 tx = false) → Authorizes x.2 x.1.data

instance (n : Node) (e : Event) : Decidable (AuthorizingStep n e) :=
  inferInstanceAs (Decidable (∀ x ∈ n.computed e, _))

theorem ownersOnly_computedIn_iff {tr : List (Node × Event)} :
    (∀ h l p s, ComputedIn tr h l p s → OwnersOnly p s l) ↔
      ∀ x ∈ tr, AuthorizingStep x.1 x.2 := by
  constructor
  · rintro ho x hx ⟨b, p⟩ hb hroom
    have he := executeTx_eq_some_iff.2 ⟨hroom, rfl, rfl⟩
    exact (ownersOnly_iff he).1 (ho _ _ _ _ ⟨x, hx, b, _, hb, rfl, rfl, he⟩)
  · rintro hc h l p s ⟨x, hx, b, v, hb, -, rfl, he⟩
    exact (ownersOnly_iff he).2 (hc x hx (b, p) hb (executeTx_eq_some_iff.1 he).1)

/-- **Only the owner can spend, exactly when debits are authorized**: for a stored block whose state
is that of its transactions on the state of its parent; and for everything that a run computes,
which is every stored state but that of a genesis block. -/
theorem only_owner_spends_iff (g : GenesisDraw) (tr : List (Node × Event)) (n : Node)
    (hrun : Node.Run (Node.init g) tr n) :
    (∀ h b s p v, n.blockchain.getBlock h = some b → n.blockchain.getBlockState h = some s →
      n.blockchain.getBlockState b.getParent = some p → executeTx p b.data = some (s, v) →
        (OwnersOnly p s b.data ↔ Authorizes p b.data)) ∧
    ((∀ h l p s, ComputedIn tr h l p s → OwnersOnly p s l) ↔
      ∀ x ∈ tr, AuthorizingStep x.1 x.2) ∧
    ∀ h s, n.blockchain.getBlockState h = some s → s = icoState ∨ ∃ l p, ComputedIn tr h l p s :=
  ⟨fun _ _ _ _ _ _ _ _ he => ownersOnly_iff he, ownersOnly_computedIn_iff,
    fun _ _ hs => stored_state_computed hrun hs⟩

/-! ### Payments with and without a signature -/

omit [Crypto]

/-- A block on the genesis block of `sampleGenesis` with one payment out of the initial account. -/
def paymentBlock (signature : List UInt8) : Block :=
  sampleBlock 1 2 2 [{ sampleTransaction 0 1 1 40 with signature := signature }]

/-- A node receives such a block. -/
def receivePayment (signature : List UInt8) : List Event :=
  [.message (.blocks [paymentBlock signature]), .worker, .worker]

/-- **A received block spends without a signature**: the signature of the only transaction does not
verify, and the initial account has 40 coins less. -/
theorem unsigned_debit :
    letI := sampleCrypto
    ∃ n, Node.Run (Node.init sampleGenesis)
        (Lts.replayTrace Node.step (Node.init sampleGenesis) (receivePayment [7])) n ∧
      ∃ s ∈ n.blockchain.getBlockState 2, ∃ p ∈ n.blockchain.getBlockState 1,
        n.blockchain.getBlock 2 = some (paymentBlock [7]) ∧
          (executeTx p (paymentBlock [7]).data).map Prod.fst = some s ∧
          s.balance icoAddr < p.balance icoAddr ∧
            ¬ ∃ tx ∈ (paymentBlock [7]).data, OwnerSigned tx icoAddr :=
  Lts.exists_run_of_replay (by decide +kernel)

/-- A received block with a payment signed by the owner. -/
theorem only_owner_spends_iff_signed :
    letI := sampleCrypto
    ∃ n, Node.Run (Node.init sampleGenesis)
        (Lts.replayTrace Node.step (Node.init sampleGenesis) (receivePayment [])) n ∧
      n.blockchain.getBlock 2 = some (paymentBlock []) ∧
      ∀ h l p s, ComputedIn
        (Lts.replayTrace Node.step (Node.init sampleGenesis) (receivePayment [])) h l p s →
          OwnersOnly p s l := by
  obtain ⟨n, hrun, hstored⟩ := @Lts.exists_run_of_replay _ _ (@Node.step sampleCrypto)
    (receivePayment []) (@Node.init sampleCrypto sampleGenesis)
    (fun n => n.blockchain.getBlock 2 = some (paymentBlock [])) (by decide +kernel)
  exact ⟨n, hrun, hstored,
    (@only_owner_spends_iff sampleCrypto _ _ _ hrun).2.1.2 (by decide +kernel)⟩

end BitcoinClient
