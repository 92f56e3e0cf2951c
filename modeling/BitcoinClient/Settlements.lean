/-
**What a call of `Mint` settles.**

Every call of `Mint` that changes a position has three legs: an amount of the collateral token moves between
the sender and `Mint`, an amount of an asset is minted or burnt for the sender, and the position at one index
is written.  The amounts of the three legs are the same, whichever call it was.

Main definitions:

* `Synthetics.Pays`, `Synthetics.Issues`, `Synthetics.Writes` — the legs;
* `Synthetics.Settles` — a call with its three legs;
* `Synthetics.Consistent` — the positions and the allowances in a reachable state.

Main results:

* `Synthetics.settles_of_callPosition` — **a call that does not revert settles**;
* `Synthetics.invariant_of_run` — the invariant, in every run;
* `Synthetics.total_writes` — what a settlement does to a sum over all positions.
-/

import BitcoinClient.Mint
import Mathlib.Algebra.BigOperators.Group.Finset.Piecewise
import Mathlib.Algebra.Order.BigOperators.Group.Finset

set_option relaxedAutoImplicit false
set_option autoImplicit false

namespace Synthetics

open ERC20 (balanceOf totalSupply Guarded)

variable {T : Type} [ERC20 T] {mintAddr s : Address}

/-! ### The collateral -/

/-- The collateral token moves between the account `s` and `Mint`. -/
structure Pays (mintAddr s : Address) (t t' : T) (paidIn paidOut : ℕ) : Prop where
  guarded : Guarded mintAddr t → Guarded mintAddr t'
  balance : ∀ x, balanceOf t' x + (if x = s then paidIn else 0) +
      (if x = mintAddr then paidOut else 0) =
    balanceOf t x + (if x = mintAddr then paidIn else 0) + if x = s then paidOut else 0

theorem pays_refl (t : T) : Pays mintAddr s t t 0 0 := ⟨id, fun x => by simp⟩

section Collateral

variable [ERC20.Standard T] {t t' : T} {amount : ℕ}

theorem pays_in (h : ERC20.transferFrom mintAddr s mintAddr amount t = some t') :
    Pays mintAddr s t t' amount 0 := by
  obtain ⟨hmoves, -, hallow⟩ := ERC20.Standard.transferFrom_moves h
  refine ⟨fun hg y => Nat.le_zero.1 ((hallow mintAddr y).trans (hg y).le), fun x => ?_⟩
  have hbal := hmoves.balance x
  simp only [ite_self, Nat.add_zero]
  exact hbal

theorem pays_out (h : ERC20.transfer mintAddr s amount t = some t') :
    Pays mintAddr s t t' 0 amount := by
  obtain ⟨hmoves, hallow⟩ := ERC20.Standard.transfer_moves h
  refine ⟨fun hg y => (hallow mintAddr y).trans (hg y), fun x => ?_⟩
  have hbal := hmoves.balance x
  simp only [ite_self, Nat.add_zero]
  exact hbal

end Collateral

/-! ### The assets -/

/-- An amount of the asset at `a` is minted or burnt for the account `s`. -/
structure Issues (s : Address) (f f' : Address → Option (SAsset T)) (a : Address)
    (issued retired : ℕ) : Prop where
  asset : ∀ b x, f b = some x → ∃ x', f' b = some x' ∧ x'.minterRole = x.minterRole ∧
    x'.burnerRole = x.burnerRole ∧
    totalSupply x'.token + (if b = a then retired else 0) =
      totalSupply x.token + (if b = a then issued else 0) ∧
    ∀ y, balanceOf x'.token y + (if b = a ∧ y = s then retired else 0) =
      balanceOf x.token y + if b = a ∧ y = s then issued else 0

theorem issues_refl (f : Address → Option (SAsset T)) (a : Address) : Issues s f f a 0 0 :=
  ⟨fun b x hx => ⟨x, hx, rfl, rfl, by simp, by simp⟩⟩

omit [ERC20 T] in
theorem withAsset_eq_some {w w' : World T} {a : Address} {f : SAsset T → Option (SAsset T)} :
    w.withAsset a f = some w' ↔ ∃ x x', w.sAssets a = some x ∧ f x = some x' ∧
      w' = { w with sAssets := Function.update w.sAssets a (some x') } := by
  simp only [World.withAsset, Option.bind_eq_bind, Option.bind_eq_some_iff, Option.some.injEq,
    eq_comm (a := w')]
  constructor
  · rintro ⟨x, hx, x', hx', h⟩
    exact ⟨x, x', hx, hx', h⟩
  · rintro ⟨x, x', hx, hx', h⟩
    exact ⟨x, hx, x', hx', h⟩

omit [ERC20 T] in
/-- A call of an asset leaves everything else as it is. -/
theorem withAsset_keeps {w w' : World T} {a : Address} {f : SAsset T → Option (SAsset T)}
    (h : w.withAsset a f = some w') :
    w'.minting = w.minting ∧ w'.eusd = w.eusd ∧ ∃ x, w.sAssets a = some x := by
  obtain ⟨x, x', hx, -, rfl⟩ := withAsset_eq_some.1 h
  exact ⟨rfl, rfl, x, hx⟩

/-- One asset changes, and keeps its roles. -/
theorem issues_update {f : Address → Option (SAsset T)} {a : Address} {issued retired : ℕ}
    {x x' : SAsset T} (hx : f a = some x)
    (hroles : x'.minterRole = x.minterRole ∧ x'.burnerRole = x.burnerRole)
    (hsupply : totalSupply x'.token + retired = totalSupply x.token + issued)
    (hbalance : ∀ y, balanceOf x'.token y + (if y = s then retired else 0) =
      balanceOf x.token y + if y = s then issued else 0) :
    Issues s f (Function.update f a (some x')) a issued retired := by
  refine ⟨fun b y hy => ?_⟩
  by_cases hba : b = a
  · subst hba
    rw [hx, Option.some_inj] at hy
    subst hy
    exact ⟨x', Function.update_self _ _ _, hroles.1, hroles.2, by simpa using hsupply,
      by simpa using hbalance⟩
  · exact ⟨y, by rw [Function.update_of_ne hba, hy], rfl, rfl, by simp [hba], by simp [hba]⟩

section Assets

variable [ERC20.Standard T] {w w' : World T} {a : Address} {amount : ℕ}

theorem issues_mint (h : w.withAsset a (SAsset.mint mintAddr s amount) = some w') :
    Issues s w.sAssets w'.sAssets a amount 0 := by
  obtain ⟨x, x', hx, hmint, rfl⟩ := withAsset_eq_some.1 h
  obtain ⟨-, token, htoken, rfl⟩ := SAsset.mint_eq_some.1 hmint
  obtain ⟨hsupply, hbalance, -⟩ := ERC20.Standard.mint_eq htoken
  refine issues_update hx ⟨rfl, rfl⟩ hsupply fun y => ?_
  rw [ite_self, Nat.add_zero]
  exact hbalance y

theorem issues_burn (h : w.withAsset a (SAsset.burn mintAddr s amount) = some w') :
    Issues s w.sAssets w'.sAssets a 0 amount := by
  obtain ⟨x, x', hx, hburn, rfl⟩ := withAsset_eq_some.1 h
  obtain ⟨-, token, htoken, rfl⟩ := SAsset.burn_eq_some.1 hburn
  obtain ⟨hsupply, hbalance, -⟩ := ERC20.Standard.burn_eq htoken
  refine issues_update hx ⟨rfl, rfl⟩ hsupply fun y => ?_
  rw [ite_self, Nat.add_zero]
  exact hbalance y

end Assets

/-! ### The positions -/

/-- The amount of the asset at `a` in a position. -/
def Position.amountOf (p : Position) (a : Address) : ℕ :=
  if p.assetToken = a then p.assetAmount else 0

@[simp] theorem collateralAmount_empty : Position.empty.collateralAmount = 0 := rfl

@[simp] theorem amountOf_empty (a : Address) : Position.empty.amountOf a = 0 := ite_self _

/-- The position at the index `i`, which is the next one or belongs to the account `s`, is written. -/
structure Writes (s : Address) (w w' : World T) (i paidIn paidOut : ℕ) (a : Address)
    (issued retired : ℕ) : Prop where
  others : ∀ j, j ≠ i → w'.position j = w.position j
  index : (w.position i = .empty ∧ i = w.minting.currentPositionIndex ∧
      w'.minting.currentPositionIndex = i + 1) ∨
    ((w.position i).owner = s ∧
      w'.minting.currentPositionIndex = w.minting.currentPositionIndex)
  position : w'.position i = .empty ∨
    ((w'.position i).owner = s ∧
      ((w'.position i).assetToken = (w.position i).assetToken ∧ (w.position i).owner = s ∨
        ∃ x, w.sAssets (w'.position i).assetToken = some x))
  collateral : (w'.position i).collateralAmount + paidOut = (w.position i).collateralAmount + paidIn
  amount : ∀ b, (w'.position i).amountOf b + (if b = a then retired else 0) =
    (w.position i).amountOf b + if b = a then issued else 0

/-- A call of the account `s` that writes the position `i`, with its three legs. -/
def Settles (mintAddr s : Address) (w w' : World T) (i : ℕ) : Prop :=
  ∃ paidIn paidOut a issued retired, Pays mintAddr s w.eusd w'.eusd paidIn paidOut ∧
    Issues s w.sAssets w'.sAssets a issued retired ∧
    Writes s w w' i paidIn paidOut a issued retired

/-! ### The calls -/

section Calls

variable [ERC20.Standard T] {w w' : World T} {prices : Prices} {i amount : ℕ}

omit [ERC20 T] [ERC20.Standard T] in
/-- Writing a position of the sender, with the same owner and asset. -/
theorem writes_setPosition {w₁ : World T} {p : Position} {paidIn paidOut : ℕ} {a : Address}
    {issued retired : ℕ} (hw₁ : w₁.minting = w.minting) (howner : s = (w.position i).owner)
    (hp : p = .empty ∨ p.owner = (w.position i).owner ∧ p.assetToken = (w.position i).assetToken)
    (hcollateral : p.collateralAmount + paidOut = (w.position i).collateralAmount + paidIn)
    (hamount : ∀ b, p.amountOf b + (if b = a then retired else 0) =
      (w.position i).amountOf b + if b = a then issued else 0) :
    Writes s w (w₁.setPosition i p) i paidIn paidOut a issued retired where
  others j hj := by
    rw [World.position_setPosition_of_ne w₁ p hj, World.position, hw₁, World.position]
  index := Or.inr ⟨howner.symm, by rw [World.currentPositionIndex_setPosition, hw₁]⟩
  position := by
    rw [World.position_setPosition_self]
    refine hp.imp id fun h => ⟨h.1.trans howner.symm, Or.inl ⟨h.2, howner.symm⟩⟩
  collateral := by rw [World.position_setPosition_self, hcollateral]
  amount b := by rw [World.position_setPosition_self, hamount b]

theorem settles_openPosition {a : Address} {ratio : ℕ}
    (hnext : w.position w.minting.currentPositionIndex = .empty)
    (h : w.openPosition mintAddr s prices amount a ratio = some w') :
    Settles mintAddr s w w' w.minting.currentPositionIndex := by
  simp only [World.openPosition, Option.bind_eq_bind, Option.bind_eq_some_iff, require_eq_some,
    checkedAdd_eq_some, Option.some.injEq] at h
  obtain ⟨-, hreg, -, -, eusd, hpay, assetAmount, -, w₁, hissue, next, ⟨-, rfl⟩, rfl⟩ := h
  have haddr : (w.minting.assetMap a).token = a := by simpa [World.checkRegistered] using hreg
  rw [World.minting_setEusd, haddr] at hissue
  obtain ⟨hminting, heusd, x, hx⟩ := withAsset_keeps hissue
  rw [World.minting_setEusd] at hminting
  have hidx : w₁.minting.currentPositionIndex = w.minting.currentPositionIndex := by rw [hminting]
  have hpos : ∀ j, w₁.position j = w.position j := fun j => by
    rw [World.position, hminting, World.position]
  have hissues := issues_mint hissue
  refine ⟨amount, 0, a, assetAmount, 0, ?_, hissues, ?_⟩
  · simpa [heusd] using pays_in hpay
  · rw [hidx]
    refine ⟨fun j hj => ?_, Or.inl ⟨hnext, rfl, rfl⟩, Or.inr ⟨?_, Or.inr ⟨x, ?_⟩⟩, ?_, fun b => ?_⟩
    · rw [World.position_setCurrentPositionIndex, World.position_setPosition_of_ne _ _ hj, hpos]
    · simp
    · simpa using hx
    · simp [hnext]
    · rw [hnext, amountOf_empty]
      simp [Position.amountOf, eq_comm]

omit [ERC20.Standard T] in
/-- When a position can be closed, and what is left then. -/
theorem closePosition_eq_some : w.closePosition mintAddr s i = some w' ↔
    s = (w.position i).owner ∧ ∃ eusd w₁,
      ERC20.transfer mintAddr s (w.position i).collateralAmount w.eusd = some eusd ∧
      (w.setEusd eusd).withAsset (w.position i).assetToken
        (SAsset.burn mintAddr s (w.position i).assetAmount) = some w₁ ∧
      w' = w₁.setPosition i .empty := by
  simp only [World.closePosition, Option.bind_eq_bind, Option.bind_eq_some_iff, require_eq_some,
    Option.some.injEq, World.position_setEusd]
  constructor
  · rintro ⟨-, howner, eusd, hpay, w₁, hissue, rfl⟩
    rw [← howner] at hissue
    exact ⟨howner, eusd, w₁, hpay, hissue, rfl⟩
  · rintro ⟨howner, eusd, w₁, hpay, hissue, rfl⟩
    rw [← howner]
    exact ⟨(), rfl, eusd, hpay, w₁, hissue, rfl⟩

theorem settles_closePosition (h : w.closePosition mintAddr s i = some w') :
    Settles mintAddr s w w' i := by
  obtain ⟨howner, eusd, w₁, hpay, hissue, rfl⟩ := closePosition_eq_some.1 h
  obtain ⟨hminting, heusd, -⟩ := withAsset_keeps hissue
  have hissues := issues_burn hissue
  refine ⟨0, (w.position i).collateralAmount, (w.position i).assetToken, 0,
    (w.position i).assetAmount, ?_, hissues, ?_⟩
  · simpa [heusd] using pays_out hpay
  · refine writes_setPosition hminting howner (Or.inl rfl) ?_ fun b => ?_
    · simp
    · rw [amountOf_empty]
      simp [Position.amountOf, eq_comm]

theorem settles_deposit (h : w.deposit mintAddr s i amount = some w') :
    Settles mintAddr s w w' i := by
  simp only [World.deposit, Option.bind_eq_bind, Option.bind_eq_some_iff, require_eq_some,
    checkedAdd_eq_some, Option.some.injEq] at h
  obtain ⟨-, howner, eusd, hpay, total, ⟨-, rfl⟩, rfl⟩ := h
  refine ⟨amount, 0, 0, 0, 0, pays_in hpay, issues_refl _ _, ?_⟩
  exact writes_setPosition rfl howner (Or.inr ⟨rfl, rfl⟩) rfl fun _ => rfl

theorem settles_withdraw (h : w.withdraw mintAddr s i amount = some w') :
    Settles mintAddr s w w' i := by
  simp only [World.withdraw, Option.bind_eq_bind, Option.bind_eq_some_iff, require_eq_some,
    checkedSub_eq_some, Option.some.injEq] at h
  obtain ⟨-, howner, share, -, rest, -, -, -, eusd, hpay, total, htotal, rfl⟩ := h
  refine ⟨0, amount, 0, 0, 0, pays_out hpay, issues_refl _ _, ?_⟩
  exact writes_setPosition rfl howner (Or.inr ⟨rfl, rfl⟩) htotal fun _ => rfl

theorem settles_mint (h : w.mint mintAddr s i amount = some w') : Settles mintAddr s w w' i := by
  simp only [World.mint, Option.bind_eq_bind, Option.bind_eq_some_iff, require_eq_some,
    checkedAdd_eq_some, Option.some.injEq] at h
  obtain ⟨-, howner, total, -, ratio, -, -, -, w₁, hissue, total', ⟨-, rfl⟩, rfl⟩ := h
  obtain ⟨hminting, heusd, -⟩ := withAsset_keeps hissue
  have hpos : w₁.position i = w.position i := by rw [World.position, hminting, World.position]
  have hissues := issues_mint hissue
  refine ⟨0, 0, (w.position i).assetToken, amount, 0, ?_, hissues, ?_⟩
  · simpa [heusd] using pays_refl w.eusd
  · rw [hpos]
    refine writes_setPosition hminting howner (Or.inr ⟨rfl, rfl⟩) rfl fun b => ?_
    by_cases hb : b = (w.position i).assetToken <;> simp [Position.amountOf, hb, eq_comm]

theorem settles_burn (h : w.burn mintAddr s i amount = some w') : Settles mintAddr s w w' i := by
  simp only [World.burn, Option.bind_eq_bind, Option.bind_eq_some_iff, require_eq_some,
    checkedSub_eq_some, Option.some.injEq] at h
  obtain ⟨-, howner, w₁, hissue, total, htotal, rfl⟩ := h
  obtain ⟨hminting, heusd, -⟩ := withAsset_keeps hissue
  have hpos : w₁.position i = w.position i := by rw [World.position, hminting, World.position]
  rw [hpos] at htotal
  have hissues := issues_burn hissue
  refine ⟨0, 0, (w.position i).assetToken, 0, amount, ?_, hissues, ?_⟩
  · simpa [heusd] using pays_refl w.eusd
  · rw [hpos]
    refine writes_setPosition hminting howner (Or.inr ⟨rfl, rfl⟩) rfl fun b => ?_
    by_cases hb : b = (w.position i).assetToken
    · simp [Position.amountOf, hb, htotal]
    · simp [Position.amountOf, hb, Ne.symm hb]

end Calls

/-! ### The invariant -/

/-- What holds of the positions in a reachable state: nothing is stored from the next index on, and nothing
in a position without an owner; the asset of a position exists; and `Mint` allows nobody to spend its
collateral. -/
structure Consistent (mintAddr : Address) (w : World T) : Prop where
  beyond : ∀ i, w.minting.currentPositionIndex ≤ i → w.position i = .empty
  vacant : ∀ i, (w.position i).owner = 0 → w.position i = .empty
  asset : ∀ i, (w.position i).owner ≠ 0 → ∃ x, w.sAssets (w.position i).assetToken = some x
  guarded : Guarded mintAddr w.eusd

section Invariant

variable [ERC20.Standard T] {w w' : World T}

/-- The index that a call writes. -/
def PositionCall.target (w : World T) : PositionCall → ℕ
  | .openPosition .. => w.minting.currentPositionIndex
  | .closePosition i => i
  | .deposit i _ => i
  | .withdraw i _ => i
  | .mint i _ => i
  | .burn i _ => i

/-- **A call that does not revert settles**, at its index. -/
theorem settles_of_callPosition {a : Account mintAddr} {prices : Prices} {c : PositionCall}
    (hw : Consistent mintAddr w) (h : w.callPosition a prices c = some w') :
    Settles mintAddr a.address w w' (c.target w) := by
  cases c with
  | openPosition => exact settles_openPosition (hw.beyond _ (Nat.le_refl _)) h
  | closePosition => exact settles_closePosition h
  | deposit => exact settles_deposit h
  | withdraw => exact settles_withdraw h
  | mint => exact settles_mint h
  | burn => exact settles_burn h

omit [ERC20.Standard T] in
theorem Issues.exists_asset {f f' : Address → Option (SAsset T)} {a b : Address}
    {issued retired : ℕ} (h : Issues s f f' a issued retired) (hb : ∃ x, f b = some x) :
    ∃ x', f' b = some x' := by
  obtain ⟨x, hx⟩ := hb
  obtain ⟨x', hx', -⟩ := h.asset b x hx
  exact ⟨x', hx'⟩

omit [ERC20.Standard T] in
/-- A settlement keeps the invariant. -/
theorem Consistent.settles (hw : Consistent mintAddr w) (hs : s ≠ 0) {i : ℕ}
    (h : Settles mintAddr s w w' i) : Consistent mintAddr w' := by
  obtain ⟨paidIn, paidOut, a, issued, retired, hpays, hissues, hwrites⟩ := h
  have hcur : i < w'.minting.currentPositionIndex ∧
      w.minting.currentPositionIndex ≤ w'.minting.currentPositionIndex := by
    rcases hwrites.index with ⟨-, hi, hnext⟩ | ⟨howner, hnext⟩
    · omega
    · refine ⟨?_, hnext.ge⟩
      by_contra hle
      rw [hw.beyond i (by omega)] at howner
      exact hs howner.symm
  refine ⟨fun j hj => ?_, fun j hj => ?_, fun j hj => ?_, hpays.guarded hw.guarded⟩
  · rw [hwrites.others j (by omega)]
    exact hw.beyond j (by omega)
  · by_cases hji : j = i
    · subst hji
      rcases hwrites.position with hempty | ⟨howner, -⟩
      · exact hempty
      · rw [howner] at hj
        exact absurd hj hs
    · rw [hwrites.others j hji] at hj ⊢
      exact hw.vacant j hj
  · by_cases hji : j = i
    · subst hji
      rcases hwrites.position with hempty | ⟨-, ⟨hsame, howner⟩ | hasset⟩
      · rw [hempty] at hj
        exact absurd rfl hj
      · rw [hsame]
        refine hissues.exists_asset (hw.asset j ?_)
        rw [howner]
        exact hs
      · exact hissues.exists_asset hasset
    · rw [hwrites.others j hji] at hj ⊢
      exact hissues.exists_asset (hw.asset j hj)

omit [ERC20.Standard T] in
/-- The invariant does not see what happens to the assets, as long as they exist. -/
theorem Consistent.congr (hw : Consistent mintAddr w)
    (hpos : ∀ i, w'.position i = w.position i)
    (hcur : w'.minting.currentPositionIndex = w.minting.currentPositionIndex)
    (hassets : ∀ b, (∃ x, w.sAssets b = some x) → ∃ x, w'.sAssets b = some x)
    (hguarded : Guarded mintAddr w'.eusd) : Consistent mintAddr w' := by
  refine ⟨fun i hi => ?_, fun i hi => ?_, fun i hi => ?_, hguarded⟩
  · rw [hpos i]
    exact hw.beyond i (hcur ▸ hi)
  · rw [hpos i] at hi ⊢
    exact hw.vacant i hi
  · rw [hpos i] at hi ⊢
    exact hassets _ (hw.asset i hi)

theorem guarded_constructor {deployer : Address} {t : T}
    (h : EUSD.constructor deployer = some t) (x : Address) : Guarded x t := by
  intro y
  rw [(ERC20.Standard.mint_eq h).2.2 x y]
  exact ERC20.Standard.allowance_empty x y

theorem consistent_deployed (h : World.Deployed mintAddr w) : Consistent mintAddr w := by
  obtain ⟨deployer, hminting⟩ := h.minting
  obtain ⟨deployer', heusd⟩ := h.eusd
  have hempty : ∀ i, w.position i = .empty := fun i => by rw [World.position, hminting]; rfl
  refine ⟨fun i _ => hempty i, fun i _ => hempty i, fun i hi => ?_,
    guarded_constructor heusd mintAddr⟩
  rw [hempty i] at hi
  exact absurd rfl hi

omit [ERC20 T] [ERC20.Standard T] in
theorem exists_withAsset {a : Address} {f : SAsset T → Option (SAsset T)}
    (h : w.withAsset a f = some w') (b : Address) (hb : ∃ x, w.sAssets b = some x) :
    ∃ x, w'.sAssets b = some x := by
  obtain ⟨x, x', hx, -, rfl⟩ := withAsset_eq_some.1 h
  by_cases hba : b = a
  · subst hba
    exact ⟨x', Function.update_self _ _ _⟩
  · obtain ⟨y, hy⟩ := hb
    exact ⟨y, (Function.update_of_ne hba _ _).trans hy⟩

omit [ERC20.Standard T] in
/-- A call of an asset keeps the invariant. -/
theorem Consistent.withAsset (hw : Consistent mintAddr w) {a : Address}
    {f : SAsset T → Option (SAsset T)} (h : w.withAsset a f = some w') :
    Consistent mintAddr w' := by
  obtain ⟨hminting, heusd, -⟩ := withAsset_keeps h
  refine hw.congr (fun i => ?_) ?_ (exists_withAsset h) (heusd ▸ hw.guarded)
  · rw [World.position, hminting, World.position]
  · rw [hminting]

omit [ERC20 T] [ERC20.Standard T] in
/-- A registration changes no position and no token. -/
theorem registerAsset_keeps {sender a priceFeed : Address} {ratio : ℕ}
    (h : w.registerAsset sender a ratio priceFeed = some w') :
    (∀ i, w'.position i = w.position i) ∧
      w'.minting.currentPositionIndex = w.minting.currentPositionIndex ∧ w'.eusd = w.eusd ∧
        w'.sAssets = w.sAssets := by
  simp only [World.registerAsset, Option.bind_eq_bind, Option.bind_eq_some_iff, require_eq_some,
    Option.some.injEq] at h
  obtain ⟨-, -, -, -, -, -, -, -, rfl⟩ := h
  exact ⟨fun _ => rfl, rfl, rfl, rfl⟩

/-- **The invariant, after a call.** -/
theorem consistent_call {a : Account mintAddr} {prices : Prices} {c : Call}
    (hw : Consistent mintAddr w) (h : w.call a prices c = some w') : Consistent mintAddr w' := by
  cases c with
  | registerAsset =>
      obtain ⟨hpos, hcur, heusd, hassets⟩ := registerAsset_keeps h
      exact hw.congr hpos hcur (fun b hb => hassets ▸ hb) (heusd ▸ hw.guarded)
  | position => exact hw.settles a.address_ne_zero (settles_of_callPosition hw h)
  | eusd =>
      obtain ⟨eusd, heusd, rfl⟩ := Option.map_eq_some_iff.1 h
      have hguarded := (hw.guarded.call heusd (Ne.symm a.address_ne_mint)).1
      exact hw.congr (fun _ => rfl) rfl (fun _ hb => hb) hguarded
  | sAsset | sAssetMint | sAssetBurn => exact hw.withAsset h

omit [ERC20.Standard T] in
/-- A transaction does what its call does, or nothing. -/
theorem exec_cases (w : World T) (tx : Tx mintAddr) :
    w.call tx.sender tx.prices tx.call = some (w.exec tx) ∨ w.exec tx = w := by
  rw [World.exec]
  cases w.call tx.sender tx.prices tx.call with
  | none => exact Or.inr rfl
  | some w' => exact Or.inl rfl

theorem consistent_exec (hw : Consistent mintAddr w) (tx : Tx mintAddr) :
    Consistent mintAddr (w.exec tx) := by
  rcases exec_cases w tx with h | h
  · exact consistent_call hw h
  · rw [h]
    exact hw

variable {tr : List (World T × Tx mintAddr)}

/-- **The invariant, in every run**, with any other condition that the calls keep. -/
theorem invariant_of_run {I : World T → Prop} (hdeployed : World.Deployed mintAddr w) (hI : I w)
    (hcall : ∀ (a : Account mintAddr) prices c w w', Consistent mintAddr w → I w →
      w.call a prices c = some w' → I w')
    (hrun : World.Run w tr w') : Consistent mintAddr w' ∧ I w' := by
  refine hrun.invariant (I := fun w => Consistent mintAddr w ∧ I w) (C := fun _ _ => True)
    ⟨consistent_deployed hdeployed, hI⟩ ?_ fun _ _ => trivial
  rintro w₁ tx _ ⟨hw₁, hI₁⟩ - rfl
  refine ⟨consistent_exec hw₁ tx, ?_⟩
  rcases exec_cases w₁ tx with h | h
  · exact hcall tx.sender tx.prices tx.call w₁ _ hw₁ hI₁ h
  · rw [h]
    exact hI₁

theorem consistent_of_run (hdeployed : World.Deployed mintAddr w) (hrun : World.Run w tr w') :
    Consistent mintAddr w' :=
  (invariant_of_run (I := fun _ => True) hdeployed trivial (fun _ _ _ _ _ _ _ _ => trivial) hrun).1

/-! ### Sums over the positions -/

/-- The sum of a weight over all positions. -/
def total (v : Position → ℕ) (w : World T) : ℕ :=
  ∑ i ∈ Finset.range w.minting.currentPositionIndex, v (w.position i)

omit [ERC20.Standard T] in
/-- **What a settlement does to a sum**: the weight of the new position comes in, the weight of the old one
goes out. -/
theorem total_writes {v : Position → ℕ} (hv : v .empty = 0) (hw : Consistent mintAddr w)
    (hs : s ≠ 0) {i paidIn paidOut : ℕ} {a : Address} {issued retired : ℕ}
    (h : Writes s w w' i paidIn paidOut a issued retired) :
    total v w' + v (w.position i) = total v w + v (w'.position i) := by
  rcases h.index with ⟨hempty, hi, hcur⟩ | ⟨howner, hcur⟩
  · have hothers : ∀ j ∈ Finset.range i, v (w'.position j) = v (w.position j) := by
      intro j hj
      rw [h.others j (Finset.mem_range.1 hj).ne]
    rw [total, total, hcur, ← hi, Finset.sum_range_succ, Finset.sum_congr rfl hothers, hempty, hv,
      Nat.add_zero]
  · have hmem : i ∈ Finset.range w.minting.currentPositionIndex := by
      rw [Finset.mem_range]
      by_contra hle
      rw [hw.beyond i (Nat.not_lt.1 hle)] at howner
      exact hs howner.symm
    have hothers : ∀ j ∈ (Finset.range w.minting.currentPositionIndex).erase i,
        v (w'.position j) = v (w.position j) := by
      intro j hj
      rw [h.others j (Finset.ne_of_mem_erase hj)]
    rw [total, total, hcur, ← Finset.add_sum_erase _ _ hmem, ← Finset.add_sum_erase _ _ hmem,
      Finset.sum_congr rfl hothers]
    omega

omit [ERC20.Standard T] in
theorem mem_existing (hw : Consistent mintAddr w) {i : ℕ} :
    i ∈ w.existing ↔ (w.position i).owner ≠ 0 := by
  rw [World.existing, Finset.mem_filter, Finset.mem_range, and_iff_right_iff_imp]
  intro howner
  by_contra hle
  rw [hw.beyond i (Nat.not_lt.1 hle)] at howner
  exact howner rfl

omit [ERC20.Standard T] in
theorem totalCollateral_eq (hw : Consistent mintAddr w) :
    w.totalCollateral = total Position.collateralAmount w := by
  refine Finset.sum_filter_of_ne fun i _ hne howner => hne ?_
  rw [hw.vacant i howner]
  rfl

omit [ERC20.Standard T] in
theorem totalAssetAmount_eq (hw : Consistent mintAddr w) (a : Address) :
    w.totalAssetAmount a = total (fun p => p.amountOf a) w := by
  rw [World.totalAssetAmount, Finset.sum_filter]
  refine Finset.sum_filter_of_ne fun i _ hne howner => hne ?_
  rw [hw.vacant i howner]
  exact amountOf_empty a

end Invariant

end Synthetics
