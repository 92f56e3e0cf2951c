/-
**What every account has.**

The token contracts move amounts between accounts, and `Mint` moves them between an account and the
positions of the account.  So what an account has of the collateral token, together with the collateral
of its positions, is what it had at the start and what was transferred to it, less what was transferred
away; and what it has of an asset that only `Mint` mints and burns is what it owes in its positions, and
what was transferred.  What `Mint` has beyond the collateral of the positions was transferred to it
directly, and stays there.

Main definitions:

* `Synthetics.Transfer`, `Synthetics.received`, `Synthetics.spent` — the transfers of a run, and their
  sums for an account;
* `Synthetics.World.collateralOf`, `Synthetics.World.debtOf` — the collateral and the debt of an account.

Main results:

* `Synthetics.balanceOf_call` — a call of a token contract does what its transfers say;
* `Synthetics.Settles.collateral`, `Synthetics.Settles.debt` — the step lemmas;
* `Synthetics.eusd_accounted` — **the collateral token**, of every account and of `Mint`;
* `Synthetics.sAsset_accounted` — **the synthetic assets**, of every account.
-/

import BitcoinClient.Solvency
import BitcoinClient.Backing

set_option relaxedAutoImplicit false
set_option autoImplicit false

namespace Synthetics

open ERC20 (balanceOf totalSupply)

/-! ### Transfers -/

/-- An amount that a call of a token contract moves. -/
structure Transfer where
  sender : Address
  recipient : Address
  amount : ℕ
  deriving DecidableEq

def TokenCall.transfers (caller : Address) : TokenCall → List Transfer
  | .transfer recipient amount => [{ sender := caller, recipient, amount }]
  | .transferFrom sender recipient amount => [{ sender, recipient, amount }]
  | _ => []

def received (x : Address) (l : List Transfer) : ℕ :=
  (l.map fun m => if x = m.recipient then m.amount else 0).sum

def spent (x : Address) (l : List Transfer) : ℕ :=
  (l.map fun m => if x = m.sender then m.amount else 0).sum

@[simp] theorem received_nil (x : Address) : received x [] = 0 := rfl

@[simp] theorem spent_nil (x : Address) : spent x [] = 0 := rfl

@[simp] theorem received_append (x : Address) (l l' : List Transfer) :
    received x (l ++ l') = received x l + received x l' := by
  simp [received]

@[simp] theorem spent_append (x : Address) (l l' : List Transfer) :
    spent x (l ++ l') = spent x l + spent x l' := by
  simp [spent]

variable {T : Type} [ERC20 T]

/-- **A call of a token contract does what its transfers say.** -/
theorem balanceOf_call [ERC20.Standard T] {caller : Address} {c : TokenCall} {t t' : T}
    (h : ERC20.call caller c t = some t') (x : Address) :
    balanceOf t' x + spent x (c.transfers caller) = balanceOf t x + received x (c.transfers caller) := by
  cases c with
  | transfer recipient amount =>
      simpa [TokenCall.transfers, spent, received] using (ERC20.Standard.transfer_moves h).1.balance x
  | transferFrom sender recipient amount =>
      simpa [TokenCall.transfers, spent, received] using (ERC20.Standard.transferFrom_moves h).1.balance x
  | approve => exact (ERC20.Standard.approve_allows h).balance x
  | increaseAllowance => exact (ERC20.Standard.increaseAllowance_allows h).balance x
  | decreaseAllowance => exact (ERC20.Standard.decreaseAllowance_allows h).balance x

/-- The call of the collateral token that a call is. -/
def Call.eusdCall : Call → Option TokenCall
  | .eusd c => some c
  | _ => none

/-- The call of the asset at `a` that a call is. -/
def Call.sAssetCall (a : Address) : Call → Option TokenCall
  | .sAsset b c => if b = a then some c else none
  | _ => none

variable {mintAddr s : Address} {w w' w₀ : World T} {tr : List (World T × Tx mintAddr)}

/-- What a transaction transfers, of the token whose calls are selected; a call that reverts transfers
nothing. -/
def World.transfers (select : Call → Option TokenCall) (w : World T) (tx : Tx mintAddr) : List Transfer :=
  if (w.call tx.sender tx.prices tx.call).isSome then
    ((select tx.call).map fun c => c.transfers tx.sender.address).getD []
  else []

/-- The transfers of a run. -/
def transfers (select : Call → Option TokenCall) (tr : List (World T × Tx mintAddr)) : List Transfer :=
  tr.flatMap fun x => x.1.transfers select x.2

theorem transfers_snoc (select : Call → Option TokenCall) (w : World T) (tx : Tx mintAddr) :
    transfers select (tr ++ [(w, tx)]) = transfers select tr ++ w.transfers select tx := by
  simp [transfers]

/-! ### The positions of an account -/

/-- A weight of the positions of `x`. -/
def Position.weightOf (x : Address) (v : Position → ℕ) (p : Position) : ℕ :=
  if p.owner = x then v p else 0

/-- The collateral in the positions of an account. -/
def World.collateralOf (x : Address) (w : World T) : ℕ :=
  total (Position.weightOf x Position.collateralAmount) w

/-- What an account owes of the asset at `a` in its positions. -/
def World.debtOf (x a : Address) (w : World T) : ℕ := total (Position.weightOf x fun p => p.amountOf a) w

omit [ERC20 T] in
/-- What a write does to a weight: it changes for the account that writes. -/
theorem Writes.weightOf {i paidIn paidOut : ℕ} {a : Address} {issued retired plus minus : ℕ}
    (h : Writes s w w' i paidIn paidOut a issued retired) {v : Position → ℕ} (hv : v .empty = 0)
    (hchange : v (w'.position i) + minus = v (w.position i) + plus) (x : Address) :
    (w'.position i).weightOf x v + (if x = s then minus else 0) =
      (w.position i).weightOf x v + if x = s then plus else 0 := by
  have hbefore : w.position i = .empty ∨ (w.position i).owner = s :=
    h.index.imp And.left And.left
  have hafter : w'.position i = .empty ∨ (w'.position i).owner = s := h.position.imp id And.left
  have hweight : ∀ p : Position, p = .empty ∨ p.owner = s →
      p.weightOf x v = if x = s then v p else 0 := by
    rintro p (rfl | rfl)
    · simp [Position.weightOf, hv]
    · simp only [Position.weightOf, eq_comm]
  rw [hweight _ hbefore, hweight _ hafter]
  split
  · exact hchange
  · rfl

/-- **The step lemma for the collateral**: what an account other than `Mint` has together with its collateral
does not change in a settlement. -/
theorem Settles.collateral {i : ℕ} (h : Settles mintAddr s w w' i) (hw : Consistent mintAddr w)
    (hs : s ≠ 0) {x : Address} (hx : x ≠ mintAddr) :
    balanceOf w'.eusd x + w'.collateralOf x = balanceOf w.eusd x + w.collateralOf x := by
  obtain ⟨paidIn, paidOut, a, issued, retired, hpays, -, hwrites⟩ := h
  have hbalance := hpays.balance x
  rw [if_neg hx, if_neg hx] at hbalance
  have hweight := hwrites.weightOf collateralAmount_empty hwrites.collateral x
  have hsum := total_writes (v := Position.weightOf x Position.collateralAmount) (ite_self 0) hw hs hwrites
  rw [World.collateralOf, World.collateralOf]
  omega

/-- **The step lemma for the assets**: what an account has of an asset and what it owes change by the same
amount. -/
theorem Settles.debt {i : ℕ} (h : Settles mintAddr s w w' i) (hw : Consistent mintAddr w)
    (hs : s ≠ 0) {a : Address} {y : SAsset T} (hy : w.sAssets a = some y) :
    ∃ y', w'.sAssets a = some y' ∧ y'.minterRole = y.minterRole ∧ y'.burnerRole = y.burnerRole ∧
      ∀ x, balanceOf y'.token x + w.debtOf x a = balanceOf y.token x + w'.debtOf x a := by
  obtain ⟨paidIn, paidOut, b, issued, retired, -, hissues, hwrites⟩ := h
  obtain ⟨y', hy', hminter, hburner, -, hbalance⟩ := hissues.asset a y hy
  refine ⟨y', hy', hminter, hburner, fun x => ?_⟩
  have hweight := hwrites.weightOf (v := fun p => p.amountOf a) (amountOf_empty a) (hwrites.amount a) x
  have hsum := total_writes (v := Position.weightOf x fun p => p.amountOf a)
    ((if_congr Iff.rfl (amountOf_empty a) rfl).trans (ite_self 0)) hw hs hwrites
  have hbal := hbalance x
  rw [World.debtOf, World.debtOf]
  by_cases hxs : x = s
  · simp only [hxs, and_true, if_true] at hbal hweight hsum ⊢
    omega
  · simp only [hxs, and_false, if_false] at hbal hweight
    omega

/-! ### The collateral token -/

omit [ERC20 T] in
/-- A sum over the positions does not see anything else. -/
theorem total_congr (v : Position → ℕ) (hpos : ∀ i, w'.position i = w.position i)
    (hcur : w'.minting.currentPositionIndex = w.minting.currentPositionIndex) :
    total v w' = total v w := by
  simp only [total, hcur, hpos]

omit [ERC20 T] in
/-- A call of an asset does not change the positions. -/
theorem total_withAsset (v : Position → ℕ) {a : Address} {f : SAsset T → Option (SAsset T)}
    (h : w.withAsset a f = some w') : total v w' = total v w := by
  obtain ⟨hminting, -, -⟩ := withAsset_keeps h
  refine total_congr v (fun i => ?_) (by rw [hminting])
  rw [World.position, hminting, World.position]

/-- The transfers of a call that does not revert. -/
theorem transfers_of_call {select : Call → Option TokenCall} {tx : Tx mintAddr}
    (h : w.call tx.sender tx.prices tx.call = some w') :
    w.transfers select tx = ((select tx.call).map fun c => c.transfers tx.sender.address).getD [] := by
  rw [World.transfers, h, Option.isSome_some, if_pos rfl]

/-- A transaction that changes nothing, or does what its call does. -/
theorem exec_spec (w : World T) (tx : Tx mintAddr) :
    (w.call tx.sender tx.prices tx.call = some (w.exec tx)) ∨
      (w.exec tx = w ∧ ∀ select, w.transfers select tx = []) := by
  rw [World.exec]
  cases h : w.call tx.sender tx.prices tx.call with
  | none => exact Or.inr ⟨rfl, fun select => by rw [World.transfers, h]; rfl⟩
  | some w' => exact Or.inl rfl

variable [ERC20.Standard T]

/-- What a call does to what an account has of the collateral token. -/
theorem eusd_call {tx : Tx mintAddr} (hw : Consistent mintAddr w)
    (h : w.call tx.sender tx.prices tx.call = some w') {x : Address} (hx : x ≠ mintAddr) :
    balanceOf w'.eusd x + w'.collateralOf x + spent x (w.transfers Call.eusdCall tx) =
      balanceOf w.eusd x + w.collateralOf x + received x (w.transfers Call.eusdCall tx) := by
  rw [transfers_of_call h]
  cases hc : tx.call with
  | registerAsset =>
      rw [hc] at h
      obtain ⟨hpos, hcur, heusd, -⟩ := registerAsset_keeps h
      rw [heusd, World.collateralOf, total_congr _ hpos hcur]
      rfl
  | position =>
      rw [hc] at h
      exact (settles_of_callPosition hw h).collateral hw tx.sender.address_ne_zero hx
  | eusd c =>
      rw [hc] at h
      obtain ⟨eusd, heusd, rfl⟩ := Option.map_eq_some_iff.1 h
      have hbalance := balanceOf_call heusd x
      change balanceOf eusd x + w.collateralOf x + spent x (c.transfers _) =
        balanceOf w.eusd x + w.collateralOf x + received x (c.transfers _)
      omega
  | sAsset | sAssetMint | sAssetBurn =>
      rw [hc] at h
      obtain ⟨-, heusd, -⟩ := withAsset_keeps h
      rw [heusd, World.collateralOf, total_withAsset _ h]
      rfl

omit [ERC20.Standard T] in
/-- Nobody transfers anything away from a guarded account. -/
theorem spent_guarded [ERC20.Standard T] {x caller : Address} {c : TokenCall} {t t' : T}
    (hg : ERC20.Guarded x t) (h : ERC20.call caller c t = some t') (hx : x ≠ caller) :
    spent x (c.transfers caller) = 0 := by
  cases c with
  | transfer => simp [TokenCall.transfers, spent, hx]
  | transferFrom sender recipient amount =>
      obtain ⟨-, hle, -⟩ := ERC20.Standard.transferFrom_moves h
      by_cases hxs : x = sender
      · rw [← hxs, hg caller] at hle
        simpa [TokenCall.transfers, spent, hxs] using hle
      · simp [TokenCall.transfers, spent, hxs]
  | approve | increaseAllowance | decreaseAllowance => rfl

/-- What a call does to what `Mint` has. -/
theorem eusd_call_mint {tx : Tx mintAddr} (hw : Consistent mintAddr w)
    (h : w.call tx.sender tx.prices tx.call = some w') :
    balanceOf w'.eusd mintAddr + total Position.collateralAmount w =
      balanceOf w.eusd mintAddr + total Position.collateralAmount w' +
        received mintAddr (w.transfers Call.eusdCall tx) := by
  rw [transfers_of_call h]
  cases hc : tx.call with
  | registerAsset =>
      rw [hc] at h
      obtain ⟨hpos, hcur, heusd, -⟩ := registerAsset_keeps h
      rw [heusd, total_congr _ hpos hcur]
      rfl
  | position =>
      rw [hc] at h
      obtain ⟨paidIn, paidOut, a, issued, retired, hpays, -, hwrites⟩ := settles_of_callPosition hw h
      have hsum := total_writes collateralAmount_empty hw tx.sender.address_ne_zero hwrites
      have hcollateral := hwrites.collateral
      have hne := tx.sender.address_ne_mint
      have hbalance := hpays.balance mintAddr
      rw [if_neg hne.symm, if_pos rfl, if_pos rfl, if_neg hne.symm] at hbalance
      change _ = _ + 0
      omega
  | eusd c =>
      rw [hc] at h
      obtain ⟨eusd, heusd, rfl⟩ := Option.map_eq_some_iff.1 h
      have hbalance := balanceOf_call heusd mintAddr
      have hspent := spent_guarded hw.guarded heusd (Ne.symm tx.sender.address_ne_mint)
      change balanceOf eusd mintAddr + total Position.collateralAmount w =
        balanceOf w.eusd mintAddr + total Position.collateralAmount w + received mintAddr (c.transfers _)
      omega
  | sAsset | sAssetMint | sAssetBurn =>
      rw [hc] at h
      obtain ⟨-, heusd, -⟩ := withAsset_keeps h
      rw [heusd, total_withAsset _ h]
      rfl

omit [ERC20 T] [ERC20.Standard T] in
theorem total_deployed [ERC20 T] (hdeployed : World.Deployed mintAddr w₀) (v : Position → ℕ) :
    total v w₀ = 0 := by
  obtain ⟨deployer, hminting⟩ := hdeployed.minting
  rw [total, hminting]
  rfl

/-- **The collateral token is accounted for.**  In every run, what an account has and the collateral of its
positions are what it had at the start and was transferred to it, less what was transferred away; and
what `Mint` has beyond the collateral of all positions was transferred to it directly. -/
theorem eusd_accounted (hdeployed : World.Deployed mintAddr w₀) (hrun : World.Run w₀ tr w) :
    (∀ x, x ≠ mintAddr →
      balanceOf w.eusd x + w.collateralOf x + spent x (transfers Call.eusdCall tr) =
        balanceOf w₀.eusd x + received x (transfers Call.eusdCall tr)) ∧
      balanceOf w.eusd mintAddr =
        balanceOf w₀.eusd mintAddr + w.totalCollateral +
          received mintAddr (transfers Call.eusdCall tr) := by
  rw [totalCollateral_eq (consistent_of_run hdeployed hrun)]
  induction hrun with
  | nil =>
      refine ⟨fun x _ => ?_, ?_⟩
      · rw [World.collateralOf, total_deployed hdeployed]
        rfl
      · rw [total_deployed hdeployed]
        rfl
  | @snoc tr w w' tx hprev hstep ih =>
      subst hstep
      have hw := consistent_of_run hdeployed hprev
      obtain ⟨haccounts, hmint⟩ := ih
      rw [transfers_snoc]
      simp only [spent_append, received_append]
      rcases exec_spec w tx with hcall | ⟨hexec, hnone⟩
      · refine ⟨fun x hx => ?_, ?_⟩
        · have hprev := haccounts x hx
          have hstep := eusd_call hw hcall hx
          omega
        · have hstep := eusd_call_mint hw hcall
          omega
      · rw [hexec, hnone]
        exact ⟨haccounts, hmint⟩

omit [ERC20 T] [ERC20.Standard T] in
/-- The account 1 has opened a position. -/
theorem eusd_accounted_opened :
    let w := sampleTxs.foldl World.exec sampleWorld
    w.collateralOf 1 = 300000000000 ∧ ∃ tr : List (World Ledger × Tx 100), World.Run sampleWorld tr w ∧
      balanceOf w.eusd 1 + w.collateralOf 1 + spent 1 (transfers Call.eusdCall tr) =
        balanceOf sampleWorld.eusd 1 + received 1 (transfers Call.eusdCall tr) := by
  intro w
  obtain ⟨tr, hrun⟩ := World.exists_run sampleTxs sampleWorld
  exact ⟨by decide +kernel, tr, hrun, (eusd_accounted deployed_sampleWorld hrun).1 1 (by decide)⟩

/-! ### The synthetic assets -/

/-- What a call does to what the accounts have of an asset. -/
theorem sAsset_call {tx : Tx mintAddr} (hw : Consistent mintAddr w)
    (h : w.call tx.sender tx.prices tx.call = some w') {a : Address} {y : SAsset T}
    (hy : w.sAssets a = some y) (honly : y.OnlyMint mintAddr) :
    ∃ y', w'.sAssets a = some y' ∧ y'.OnlyMint mintAddr ∧ ∀ x,
      balanceOf y'.token x + w.debtOf x a + spent x (w.transfers (Call.sAssetCall a) tx) =
        balanceOf y.token x + w'.debtOf x a + received x (w.transfers (Call.sAssetCall a) tx) := by
  rw [transfers_of_call h]
  cases hc : tx.call with
  | registerAsset =>
      rw [hc] at h
      obtain ⟨hpos, hcur, -, hassets⟩ := registerAsset_keeps h
      refine ⟨y, by rw [hassets, hy], honly, fun x => ?_⟩
      rw [World.debtOf, World.debtOf, total_congr _ hpos hcur]
      rfl
  | position =>
      rw [hc] at h
      obtain ⟨y', hy', hminter, hburner, hdebt⟩ :=
        (settles_of_callPosition hw h).debt hw tx.sender.address_ne_zero hy
      refine ⟨y', hy', ?_, hdebt⟩
      rw [SAsset.OnlyMint, hminter, hburner]
      exact honly
  | eusd c =>
      rw [hc] at h
      obtain ⟨eusd, heusd, rfl⟩ := Option.map_eq_some_iff.1 h
      exact ⟨y, hy, honly, fun x => rfl⟩
  | sAsset b c =>
      rw [hc] at h
      have hdebt : ∀ x, w'.debtOf x a = w.debtOf x a := fun x => total_withAsset _ h
      obtain ⟨z, z', hz, hz', rfl⟩ := withAsset_eq_some.1 h
      rcases eq_or_ne b a with rfl | hba
      · obtain rfl := Option.some_inj.1 (hy.symm.trans hz)
        obtain ⟨token, htoken, rfl⟩ := SAsset.call_eq_some.1 hz'
        refine ⟨_, Function.update_self _ _ _, honly, fun x => ?_⟩
        have hbalance := balanceOf_call htoken x
        rw [hdebt, Call.sAssetCall, if_pos rfl]
        change balanceOf token x + w.debtOf x b + spent x (c.transfers _) =
          balanceOf y.token x + w.debtOf x b + received x (c.transfers _)
        omega
      · refine ⟨y, (Function.update_of_ne hba.symm _ _).trans hy, honly, fun x => ?_⟩
        rw [hdebt, Call.sAssetCall, if_neg hba]
        rfl
  | sAssetMint b toAddr amount =>
      rw [hc] at h
      have hdebt : ∀ x, w'.debtOf x a = w.debtOf x a := fun x => total_withAsset _ h
      obtain ⟨z, z', hz, hz', rfl⟩ := withAsset_eq_some.1 h
      rcases eq_or_ne b a with rfl | hba
      · -- the sender has no role
        obtain rfl := Option.some_inj.1 (hy.symm.trans hz)
        exact absurd (honly _ (Or.inl (SAsset.mint_eq_some.1 hz').1)) tx.sender.address_ne_mint
      · refine ⟨y, (Function.update_of_ne hba.symm _ _).trans hy, honly, fun x => ?_⟩
        rw [hdebt]
        rfl
  | sAssetBurn b fromAddr amount =>
      rw [hc] at h
      have hdebt : ∀ x, w'.debtOf x a = w.debtOf x a := fun x => total_withAsset _ h
      obtain ⟨z, z', hz, hz', rfl⟩ := withAsset_eq_some.1 h
      rcases eq_or_ne b a with rfl | hba
      · obtain rfl := Option.some_inj.1 (hy.symm.trans hz)
        exact absurd (honly _ (Or.inr (SAsset.burn_eq_some.1 hz').1)) tx.sender.address_ne_mint
      · refine ⟨y, (Function.update_of_ne hba.symm _ _).trans hy, honly, fun x => ?_⟩
        rw [hdebt]
        rfl

/-- **The synthetic assets are accounted for.**  In every run, what an account has of an asset that only
`Mint` may mint and burn is what it had at the start and what it owes in its positions, and what was
transferred to it, less what was transferred away. -/
theorem sAsset_accounted (hdeployed : World.Deployed mintAddr w₀) (hrun : World.Run w₀ tr w)
    {a : Address} {y₀ : SAsset T} (hy₀ : w₀.sAssets a = some y₀) (honly : y₀.OnlyMint mintAddr) :
    ∃ y, w.sAssets a = some y ∧ ∀ x,
      balanceOf y.token x + spent x (transfers (Call.sAssetCall a) tr) =
        balanceOf y₀.token x + w.debtOf x a + received x (transfers (Call.sAssetCall a) tr) := by
  have hinv : ∃ y, w.sAssets a = some y ∧ y.OnlyMint mintAddr ∧ ∀ x,
      balanceOf y.token x + spent x (transfers (Call.sAssetCall a) tr) =
        balanceOf y₀.token x + w.debtOf x a + received x (transfers (Call.sAssetCall a) tr) := by
    induction hrun with
    | nil =>
        refine ⟨y₀, hy₀, honly, fun x => ?_⟩
        rw [World.debtOf, total_deployed hdeployed]
        rfl
    | @snoc tr w w' tx hprev hstep ih =>
        subst hstep
        obtain ⟨y, hy, honly, hbalance⟩ := ih
        rw [transfers_snoc]
        simp only [spent_append, received_append]
        rcases exec_spec w tx with hcall | ⟨hexec, hnone⟩
        · obtain ⟨y', hy', honly', hbalance'⟩ :=
            sAsset_call (consistent_of_run hdeployed hprev) hcall hy honly
          refine ⟨y', hy', honly', fun x => ?_⟩
          have hprev := hbalance x
          have hstep := hbalance' x
          omega
        · rw [hexec, hnone]
          exact ⟨y, hy, honly, hbalance⟩
  obtain ⟨y, hy, -, hbalance⟩ := hinv
  exact ⟨y, hy, hbalance⟩

omit [ERC20 T] [ERC20.Standard T] in
/-- The account 1 has opened a position, and has given a part of the asset to the account 2. -/
theorem sAsset_accounted_given :
    let txs := sampleTxs ++ [sampleTx 0 (.sAsset 200 (.transfer 2 50000000))]
    let w := txs.foldl World.exec sampleWorld
    w.debtOf 1 200 = 150000000 ∧ ∃ (tr : List (World Ledger × Tx 100)) (y : SAsset Ledger),
        World.Run sampleWorld tr w ∧ w.sAssets 200 = some y ∧
      balanceOf y.token 1 + spent 1 (transfers (Call.sAssetCall 200) tr) =
        0 + w.debtOf 1 200 + received 1 (transfers (Call.sAssetCall 200) tr) := by
  intro txs w
  obtain ⟨tr, hrun⟩ := World.exists_run txs sampleWorld
  obtain ⟨y, hy, hbalance⟩ := sAsset_accounted deployed_sampleWorld hrun (a := 200) rfl
    (fun x hx => by simpa using hx)
  exact ⟨by decide +kernel, tr, y, hrun, hy, hbalance 1⟩

end Synthetics
