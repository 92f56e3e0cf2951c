/-
**The minimum collateral ratio.**

`openPosition` values the debt of a position at the price of the asset: an amount of the asset is worth that
many units of the collateral, up to the decimals of the asset.  By this measure the collateral of a new
position is at least the requested multiple of its debt, and the debt is the largest with that property.

The checks of `withdraw` and `mint` do not read the price.  `withdraw` compares the collateral, less the
withdrawn amount *divided by* the debt, with the ratio, and `mint` the quotient of the two amounts.  So each
of them goes wrong between two limits: the one it checks, and the one that the ratio sets.

Main definitions:

* `Synthetics.MeetsRatio`, `Synthetics.leastCollateral` — the ratio at a price;
* `Synthetics.World.Registered` — the assets that have been registered;
* `Synthetics.Position.withdrawLimit`, `Synthetics.Position.ratioLimit` — the limits of a withdrawal.

Main results:

* `Synthetics.openPosition_exact` — **opening a position** is safe and exact;
* `Synthetics.withdraw_keeps_ratio_iff` — when `withdraw` keeps the ratio and blocks nothing else;
* `Synthetics.mint_keeps_ratio_iff` — when `mint` keeps the ratio.
-/

import BitcoinClient.Solvency
import Mathlib.Algebra.Order.Floor.Div
import Mathlib.Tactic.Linarith

set_option relaxedAutoImplicit false
set_option autoImplicit false

namespace Synthetics

open ERC20 (balanceOf totalSupply)

/-! ### The ratio -/

/-- The collateral is at least `ratio` times the debt, at a price for `10 ^ decimals` units of the asset. -/
def MeetsRatio (ratio collateral debt price : ℕ) : Prop :=
  ratio * debt * price ≤ collateral * 10 ^ SAsset.decimals

instance (ratio collateral debt price : ℕ) : Decidable (MeetsRatio ratio collateral debt price) :=
  inferInstanceAs (Decidable (_ ≤ _))

/-- The least collateral for a debt. -/
def leastCollateral (ratio debt price : ℕ) : ℕ := (ratio * debt * price) ⌈/⌉ 10 ^ SAsset.decimals

theorem leastCollateral_le {ratio collateral debt price : ℕ} :
    leastCollateral ratio debt price ≤ collateral ↔ MeetsRatio ratio collateral debt price := by
  have hpos : 0 < 10 ^ SAsset.decimals := by decide
  rw [leastCollateral, MeetsRatio, ceilDiv_le_iff_le_mul hpos, Nat.mul_comm collateral]

/-- A smaller ratio is met as well. -/
theorem MeetsRatio.mono {ratio ratio' collateral debt price : ℕ}
    (h : MeetsRatio ratio collateral debt price) (hle : ratio' ≤ ratio) :
    MeetsRatio ratio' collateral debt price := by
  unfold MeetsRatio at h ⊢
  exact (Nat.mul_le_mul_right _ (Nat.mul_le_mul_right _ hle)).trans h

/-- Two limits admit the same numbers, outside of the numbers between them. -/
theorem lt_iff_lt_iff {x a b : ℕ} : (x < a ↔ x < b) ↔ x < min a b ∨ max a b ≤ x := by
  omega

/-- Dividing twice gives the largest amount: it meets the ratio, and no larger one does. -/
theorem meetsRatio_div {collateral ratio price : ℕ} (hprice : 0 < price) (hratio : 0 < ratio)
    (amount : ℕ) : MeetsRatio ratio collateral amount price ↔
      amount ≤ collateral * 10 ^ SAsset.decimals / price / ratio := by
  rw [MeetsRatio, Nat.le_div_iff_mul_le hratio, Nat.le_div_iff_mul_le hprice, Nat.mul_comm ratio]

variable {T : Type} [ERC20 T] {mintAddr s : Address} {w w' : World T}

/-! ### Registered assets -/

/-- The asset at `a` has been registered. -/
def World.Registered (w : World T) (a : Address) : Prop := (w.minting.assetMap a).token ≠ 0

/-- A registered asset is stored at its own address, with a ratio of at least one. -/
def SoundAssets (w : World T) : Prop :=
  ∀ a, w.Registered a →
    (w.minting.assetMap a).token = a ∧ 1 ≤ (w.minting.assetMap a).minCollateralRatio

omit [ERC20 T] in
theorem SoundAssets.congr (h : SoundAssets w) (hmap : w'.minting.assetMap = w.minting.assetMap) :
    SoundAssets w' := by
  intro a ha
  rw [World.Registered, hmap] at ha
  rw [hmap]
  exact h a ha

omit [ERC20 T] in
/-- A registration checks the ratio. -/
theorem SoundAssets.registerAsset (h : SoundAssets w) {sender assetToken priceFeed : Address}
    {ratio : ℕ} (hcall : w.registerAsset sender assetToken ratio priceFeed = some w') :
    SoundAssets w' := by
  simp only [World.registerAsset, Option.bind_eq_bind, Option.bind_eq_some_iff, require_eq_some,
    Option.some.injEq] at hcall
  obtain ⟨-, -, -, -, -, hratio, -, -, rfl⟩ := hcall
  intro a ha
  by_cases hself : a = assetToken
  · subst hself
    simpa using hratio
  · simp only [World.Registered, Function.update_of_ne hself] at ha ⊢
    exact h a ha

omit [ERC20 T] in
theorem assetMap_withAsset {a : Address} {f : SAsset T → Option (SAsset T)}
    (h : w.withAsset a f = some w') : w'.minting.assetMap = w.minting.assetMap :=
  congrArg Mint.assetMap (withAsset_keeps h).1

/-- A call that changes a position does not touch the assets. -/
theorem assetMap_callPosition {a : Account mintAddr} {prices : Prices} {c : PositionCall}
    (h : w.callPosition a prices c = some w') : w'.minting.assetMap = w.minting.assetMap := by
  cases c with
  | openPosition =>
      simp only [World.callPosition, World.openPosition, Option.bind_eq_bind,
        Option.bind_eq_some_iff, Option.some.injEq] at h
      obtain ⟨-, -, -, -, eusd, -, amount, -, w₁, hissue, next, -, rfl⟩ := h
      simpa using assetMap_withAsset hissue
  | closePosition =>
      obtain ⟨-, eusd, w₁, -, hissue, rfl⟩ := closePosition_eq_some.1 h
      simpa using assetMap_withAsset hissue
  | deposit =>
      simp only [World.callPosition, World.deposit, Option.bind_eq_bind, Option.bind_eq_some_iff,
        Option.some.injEq] at h
      obtain ⟨-, -, eusd, -, amount, -, rfl⟩ := h
      rfl
  | withdraw =>
      simp only [World.callPosition, World.withdraw, Option.bind_eq_bind, Option.bind_eq_some_iff,
        Option.some.injEq] at h
      obtain ⟨-, -, share, -, rest, -, -, -, eusd, -, amount, -, rfl⟩ := h
      rfl
  | mint =>
      simp only [World.callPosition, World.mint, Option.bind_eq_bind, Option.bind_eq_some_iff,
        Option.some.injEq] at h
      obtain ⟨-, -, total, -, ratio, -, -, -, w₁, hissue, amount, -, rfl⟩ := h
      simpa using assetMap_withAsset hissue
  | burn =>
      simp only [World.callPosition, World.burn, Option.bind_eq_bind, Option.bind_eq_some_iff,
        Option.some.injEq] at h
      obtain ⟨-, -, w₁, hissue, amount, -, rfl⟩ := h
      simpa using assetMap_withAsset hissue

theorem SoundAssets.call (h : SoundAssets w) {a : Account mintAddr} {prices : Prices} {c : Call}
    (hcall : w.call a prices c = some w') : SoundAssets w' := by
  cases c with
  | registerAsset => exact h.registerAsset hcall
  | position => exact h.congr (assetMap_callPosition hcall)
  | eusd =>
      obtain ⟨eusd, -, rfl⟩ := Option.map_eq_some_iff.1 hcall
      exact h
  | sAsset | sAssetMint | sAssetBurn =>
      exact h.congr (assetMap_withAsset hcall)

section Runs

variable [ERC20.Standard T] {w₀ : World T} {tr : List (World T × Tx mintAddr)}

/-- **Every registered asset has a ratio of at least one**, in every run. -/
theorem soundAssets_of_run (hdeployed : World.Deployed mintAddr w₀) (hrun : World.Run w₀ tr w) :
    SoundAssets w := by
  have h₀ : SoundAssets w₀ := by
    obtain ⟨deployer, hminting⟩ := hdeployed.minting
    intro a ha
    rw [World.Registered, hminting] at ha
    exact absurd rfl ha
  exact (invariant_of_run hdeployed h₀ (fun _ _ _ _ _ _ h => h.call) hrun).2

/-! ### Opening a position -/

omit [ERC20 T] [ERC20.Standard T] in
theorem getMintAmount_eq_some {prices : Prices} {collateral ratio amount : ℕ} {a : Address} :
    w.getMintAmount prices collateral a ratio = some amount ↔
      ∃ price x, prices (w.minting.assetMap a).priceFeed = some price ∧ w.sAssets a = some x ∧
        collateral * 10 ^ SAsset.decimals < 2 ^ 256 ∧ price.toNat ≠ 0 ∧ ratio ≠ 0 ∧
        amount = collateral * 10 ^ SAsset.decimals / price.toNat / ratio := by
  simp only [World.getMintAmount, Option.bind_eq_bind, Option.bind_eq_some_iff,
    checkedMul_eq_some, checkedDiv_eq_some]
  constructor
  · rintro ⟨price, hprice, x, hx, -, ⟨hfits, rfl⟩, -, ⟨hne, rfl⟩, hratio, rfl⟩
    exact ⟨price, x, hprice, hx, hfits, hne, hratio, rfl⟩
  · rintro ⟨price, x, hprice, hx, hfits, hne, hratio, rfl⟩
    exact ⟨price, hprice, x, hx, _, ⟨hfits, rfl⟩, _, ⟨hne, rfl⟩, hratio, rfl⟩

omit [ERC20.Standard T] in
/-- What an opened position is: the checks, the two transfers and the record. -/
theorem openPosition_cases {prices : Prices} {collateral ratio : ℕ} {a : Address}
    (h : w.openPosition mintAddr s prices collateral a ratio = some w') :
    (w.minting.assetMap a).token = a ∧ (w.minting.assetMap a).minCollateralRatio ≤ ratio ∧
      ∃ amount x token, w.getMintAmount prices collateral a ratio = some amount ∧
        w.sAssets a = some x ∧ ERC20.mint s amount x.token = some token ∧
        w'.sAssets a = some { x with token } ∧
        w'.position w.minting.currentPositionIndex =
          { idx := w.minting.currentPositionIndex, owner := s, collateralAmount := collateral
            assetToken := a, assetAmount := amount } := by
  simp only [World.openPosition, Option.bind_eq_bind, Option.bind_eq_some_iff, require_eq_some,
    checkedAdd_eq_some, Option.some.injEq] at h
  obtain ⟨-, hreg, -, hratio, eusd, -, amount, hamount, w₁, hissue, next, ⟨-, rfl⟩, rfl⟩ := h
  have haddr : (w.minting.assetMap a).token = a := by simpa [World.checkRegistered] using hreg
  rw [World.minting_setEusd, haddr] at hissue
  obtain ⟨x, x', hx, hmint, rfl⟩ := withAsset_eq_some.1 hissue
  obtain ⟨-, token, htoken, rfl⟩ := SAsset.mint_eq_some.1 hmint
  refine ⟨haddr, hratio, amount, x, token, hamount, hx, htoken, ?_, ?_⟩
  · exact Function.update_self _ _ _
  · rw [World.position_setCurrentPositionIndex]
    exact World.position_setPosition_self ..

/-- The price feed answers with a signed number, which is read as an unsigned one. -/
theorem toNat_of_toInt {price : BitVec 256} {P : ℕ} (h : price.toInt = P) : price.toNat = P := by
  have hlt := price.isLt
  rw [BitVec.toInt_eq_toNat_cond] at h
  split at h <;> omega

/-- **Opening a position is safe and exact.**  In every state that any transactions lead to, when a position
with a registered asset is opened at the price `P`, the ratio asked for is at least the minimum, which is at
least one; the amount recorded and minted for the sender meets the ratio, and no larger amount does.  A
collateral that does not fit when it is scaled makes the call revert. -/
theorem openPosition_exact (hdeployed : World.Deployed mintAddr w₀) (hrun : World.Run w₀ tr w)
    {a : Address} (hreg : w.Registered a) {prices : Prices} {price : BitVec 256} {P : ℕ}
    (hprice : prices (w.minting.assetMap a).priceFeed = some price) (hP : price.toInt = P)
    (hpos : 0 < P) (sender : Account mintAddr) (collateral ratio : ℕ) :
    (∀ w', w.openPosition mintAddr sender.address prices collateral a ratio = some w' →
      1 ≤ (w.minting.assetMap a).minCollateralRatio ∧
        (w.minting.assetMap a).minCollateralRatio ≤ ratio ∧
        ∃ amount x x',
          w'.position w.minting.currentPositionIndex =
            { idx := w.minting.currentPositionIndex, owner := sender.address
              collateralAmount := collateral, assetToken := a, assetAmount := amount } ∧
          w.sAssets a = some x ∧ w'.sAssets a = some x' ∧
          totalSupply x'.token = totalSupply x.token + amount ∧
          balanceOf x'.token sender.address = balanceOf x.token sender.address + amount ∧
          amount * P * ratio ≤ collateral * 10 ^ SAsset.decimals ∧
          collateral * 10 ^ SAsset.decimals < (amount + 1) * P * ratio ∧
          MeetsRatio (w.minting.assetMap a).minCollateralRatio collateral amount P ∧
          ∀ larger, amount < larger → ¬ MeetsRatio ratio collateral larger P) ∧
      (2 ^ 256 ≤ collateral * 10 ^ SAsset.decimals →
        w.openPosition mintAddr sender.address prices collateral a ratio = none) := by
  constructor
  · intro w' hopen
    obtain ⟨-, hratio, amount, x, token, hamount, hx, htoken, hx', hposition⟩ :=
      openPosition_cases hopen
    have hmin := (soundAssets_of_run hdeployed hrun a hreg).2
    obtain ⟨price', -, hprice', -, -, -, -, rfl⟩ := getMintAmount_eq_some.1 hamount
    obtain rfl : price = price' := Option.some_inj.1 (hprice.symm.trans hprice')
    rw [toNat_of_toInt hP] at hposition htoken
    obtain ⟨hsupply, hbalance, -⟩ := ERC20.Standard.mint_eq htoken
    have hlargest : ∀ amount, MeetsRatio ratio collateral amount P ↔
        amount ≤ collateral * 10 ^ SAsset.decimals / P / ratio :=
      meetsRatio_div hpos (hmin.trans hratio)
    have hmeets := (hlargest _).2 (Nat.le_refl _)
    have hlarger := fun larger => mt (hlargest larger).1 ∘ Nat.not_le.2
    refine ⟨hmin, hratio, _, x, _, hposition, hx, hx', hsupply, ?_, ?_, ?_, hmeets.mono hratio,
      hlarger⟩
    · rw [hbalance, if_pos rfl]
    · rw [MeetsRatio] at hmeets
      linarith
    · have hnext := hlarger _ (Nat.lt_succ_self _)
      rw [MeetsRatio, Nat.not_le] at hnext
      linarith
  · intro hlarge
    cases hopen : w.openPosition mintAddr sender.address prices collateral a ratio with
    | none => rfl
    | some w' =>
        obtain ⟨-, -, amount, x, token, hamount, -⟩ := openPosition_cases hopen
        obtain ⟨-, -, -, -, hfits, -⟩ := getMintAmount_eq_some.1 hamount
        exact absurd hfits (Nat.not_lt.2 hlarge)

/-- The account 1 opens a position at the price 1000. -/
theorem openPosition_exact_opened :
    let w := (sampleTxs.take 2).foldl World.exec sampleWorld
    let prices : Prices := fun a => if a = 300 then some 100000000000 else none
    ∃ w', w.openPosition 100 1 prices 300000000000 200 2 = some w' ∧
      1 ≤ (w.minting.assetMap 200).minCollateralRatio ∧
      ∃ amount, (w'.position 0).assetAmount = amount ∧
        amount * 100000000000 * 2 ≤ 300000000000 * 10 ^ SAsset.decimals ∧
        300000000000 * 10 ^ SAsset.decimals < (amount + 1) * 100000000000 * 2 := by
  intro w prices
  obtain ⟨tr, hrun⟩ := World.exists_run (sampleTxs.take 2) sampleWorld
  have hreg : w.Registered 200 := by
    rw [World.Registered]
    decide +kernel
  obtain ⟨w', hopen⟩ : ∃ w', w.openPosition 100 1 prices 300000000000 200 2 = some w' :=
    Option.isSome_iff_exists.1 (by decide +kernel)
  have hnext : w.minting.currentPositionIndex = 0 := by decide +kernel
  have hprice : prices (w.minting.assetMap 200).priceFeed = some 100000000000 := by decide +kernel
  have hexact := openPosition_exact deployed_sampleWorld hrun hreg hprice (P := 100000000000)
    (by decide) (by decide) (sampleTx 0 (.position (.closePosition 0))).sender 300000000000 2
  obtain ⟨hmin, -, amount, -, -, hposition, -, -, -, -, hle, hlt, -⟩ := hexact.1 w' hopen
  rw [hnext] at hposition
  exact ⟨w', hopen, hmin, amount, congrArg Position.assetAmount hposition, hle, hlt⟩

/-! ### Withdrawing -/

/-- The first amount that `withdraw` refuses. -/
def Position.withdrawLimit (p : Position) (ratio : ℕ) : ℕ :=
  min (p.collateralAmount + 1) (p.assetAmount * (p.collateralAmount + 1 - ratio))

/-- The first amount that leaves less collateral than the ratio needs. -/
def Position.ratioLimit (p : Position) (ratio price : ℕ) : ℕ :=
  p.collateralAmount + 1 - leastCollateral ratio p.assetAmount price

theorem lt_ratioLimit {p : Position} {ratio price amount : ℕ} :
    amount < p.ratioLimit ratio price ↔ amount ≤ p.collateralAmount ∧
      MeetsRatio ratio (p.collateralAmount - amount) p.assetAmount price := by
  rw [← leastCollateral_le, Position.ratioLimit]
  omega

/-- The check of `withdraw`, as a limit. -/
theorem lt_withdrawLimit {p : Position} {ratio amount : ℕ} :
    amount < p.withdrawLimit ratio ↔ amount ≤ p.collateralAmount ∧ p.assetAmount ≠ 0 ∧
      ∃ rest, rest + amount / p.assetAmount = p.collateralAmount ∧ ratio ≤ rest := by
  rw [Position.withdrawLimit, Nat.lt_min, Nat.lt_succ_iff]
  refine and_congr_right fun hle => ?_
  rcases Nat.eq_zero_or_pos p.assetAmount with hzero | hpos
  · simp [hzero]
  · rw [Nat.mul_comm, ← Nat.div_lt_iff_lt_mul hpos]
    have hshare := Nat.div_le_self amount p.assetAmount
    generalize amount / p.assetAmount = share at hshare ⊢
    constructor
    · intro hlt
      exact ⟨hpos.ne', p.collateralAmount - share, by omega, by omega⟩
    · rintro ⟨-, rest, hrest, hratio⟩
      omega

omit [ERC20.Standard T] in
/-- `Mint` has the collateral of every single position. -/
theorem Solvent.collateral_le (h : Solvent mintAddr w) (hw : Consistent mintAddr w) (i : ℕ) :
    (w.position i).collateralAmount ≤ balanceOf w.eusd mintAddr := by
  rcases Nat.lt_or_ge i w.minting.currentPositionIndex with hi | hi
  · exact (Finset.single_le_sum (f := fun i => (w.position i).collateralAmount)
      (fun _ _ => Nat.zero_le _) (Finset.mem_range.2 hi)).trans h
  · rw [hw.beyond i hi]
    exact Nat.zero_le _

omit [ERC20.Standard T] in
theorem withdraw_eq_some {i amount : ℕ} : w.withdraw mintAddr s i amount = some w' ↔
    s = (w.position i).owner ∧
      amount < (w.position i).withdrawLimit
        (w.minting.assetMap (w.position i).assetToken).minCollateralRatio ∧
      ∃ eusd, ERC20.transfer mintAddr s amount w.eusd = some eusd ∧
        w' = (w.setEusd eusd).setPosition i { w.position i with
          collateralAmount := (w.position i).collateralAmount - amount } := by
  rw [lt_withdrawLimit]
  simp only [World.withdraw, Option.bind_eq_bind, Option.bind_eq_some_iff, require_eq_some,
    checkedDiv_eq_some, checkedSub_eq_some, Option.some.injEq, World.position_setEusd]
  constructor
  · rintro ⟨-, howner, share, ⟨hdebt, rfl⟩, rest, hrest, -, hratio, eusd, hpay, left, hleft, rfl⟩
    obtain rfl : (w.position i).collateralAmount - amount = left := by omega
    exact ⟨howner, ⟨by omega, hdebt, rest, hrest, hratio⟩, eusd, hpay, rfl⟩
  · rintro ⟨howner, ⟨hle, hdebt, rest, hrest, hratio⟩, eusd, hpay, rfl⟩
    exact ⟨(), howner, _, ⟨hdebt, rfl⟩, rest, hrest, (), hratio, eusd, hpay, _,
      Nat.sub_add_cancel hle, rfl⟩

/-- In a reachable state the check decides alone: the transfer does not fail. -/
theorem isSome_withdraw_iff (hmint : mintAddr ≠ 0) (hs : s ≠ 0) {i amount : ℕ}
    (howner : (w.position i).owner = s)
    (hbalance : (w.position i).collateralAmount ≤ balanceOf w.eusd mintAddr) :
    (w.withdraw mintAddr s i amount).isSome = true ↔ amount < (w.position i).withdrawLimit
      (w.minting.assetMap (w.position i).assetToken).minCollateralRatio := by
  rw [Option.isSome_iff_exists]
  constructor
  · rintro ⟨w', hw'⟩
    exact (withdraw_eq_some.1 hw').2.1
  · intro hlt
    have hle := (lt_withdrawLimit.1 hlt).1.trans hbalance
    obtain ⟨eusd, hpay⟩ := Option.isSome_iff_exists.1
      ((ERC20.Standard.transfer_isSome w.eusd mintAddr s amount).2 ⟨hmint, hs, hle⟩)
    exact ⟨_, withdraw_eq_some.2 ⟨howner.symm, hlt, eusd, hpay, rfl⟩⟩

/-- **When `withdraw` keeps the ratio and blocks nothing else.**  In every state that any transactions lead
to, the owner of a position can withdraw exactly the amounts that leave it at its ratio, unless the amount
is between the two limits.  Without debt these are 0 and the whole collateral. -/
theorem withdraw_keeps_ratio_iff (hdeployed : World.Deployed mintAddr w₀)
    (hrun : World.Run w₀ tr w) (sender : Account mintAddr) {i : ℕ}
    (howner : (w.position i).owner = sender.address) (amount P : ℕ) :
    let p := w.position i
    let ratio := (w.minting.assetMap p.assetToken).minCollateralRatio
    (((w.withdraw mintAddr sender.address i amount).isSome = true ↔
        amount ≤ p.collateralAmount ∧
          MeetsRatio ratio (p.collateralAmount - amount) p.assetAmount P) ↔
      amount < min (p.withdrawLimit ratio) (p.ratioLimit ratio P) ∨
        max (p.withdrawLimit ratio) (p.ratioLimit ratio P) ≤ amount) ∧
      ∀ w', w.withdraw mintAddr sender.address i amount = some w' →
        w'.position i = { p with collateralAmount := p.collateralAmount - amount } := by
  intro p ratio
  have hbalance := (solvent_of_run hdeployed hrun).collateral_le (consistent_of_run hdeployed hrun) i
  constructor
  · rw [isSome_withdraw_iff hdeployed.address_ne_zero sender.address_ne_zero howner hbalance,
      ← lt_ratioLimit]
    exact lt_iff_lt_iff
  · intro w' hw'
    obtain ⟨-, -, eusd, -, rfl⟩ := withdraw_eq_some.1 hw'
    exact World.position_setPosition_self ..

omit [ERC20.Standard T] in
/-- The account 1 has opened a position at its ratio, and withdraws one unit of its collateral. -/
theorem withdraw_keeps_ratio_iff_opened :
    let w := sampleTxs.foldl World.exec sampleWorld
    ((w.withdraw 100 1 0 1).isSome = true ↔
        1 ≤ 300000000000 ∧ MeetsRatio 2 (300000000000 - 1) 150000000 100000000000) ↔
      1 < min ((w.position 0).withdrawLimit 2) ((w.position 0).ratioLimit 2 100000000000) ∨
        max ((w.position 0).withdrawLimit 2) ((w.position 0).ratioLimit 2 100000000000) ≤ 1 := by
  intro w
  obtain ⟨tr, hrun⟩ := World.exists_run sampleTxs sampleWorld
  have hposition : w.position 0 = ⟨0, 1, 300000000000, 200, 150000000⟩ := by decide +kernel
  have hratio : (w.minting.assetMap 200).minCollateralRatio = 2 := by decide +kernel
  have hiff := (withdraw_keeps_ratio_iff deployed_sampleWorld hrun
    (sampleTx 0 (.position (.closePosition 0))).sender (i := 0)
    (congrArg Position.owner hposition) 1 100000000000).1
  change _ ↔ 1 < min ((w.position 0).withdrawLimit
    (w.minting.assetMap (w.position 0).assetToken).minCollateralRatio) _ ∨ _ at hiff
  have hasset : (w.position 0).assetToken = 200 := congrArg Position.assetToken hposition
  rw [hasset, hratio] at hiff
  rw [congrArg Position.collateralAmount hposition, congrArg Position.assetAmount hposition] at hiff
  exact hiff

/-- One unit can be withdrawn from a position that has no more collateral than its ratio needs. -/
theorem withdraw_not_keeps_ratio :
    ¬ ∀ (w : World Ledger) (tr : List (World Ledger × Tx 100)), World.Run sampleWorld tr w →
      ∀ (sender : Account 100) (prices : Prices) (price : BitVec 256) (i amount P : ℕ),
        (w.position i).owner = sender.address → w.Registered (w.position i).assetToken →
        prices (w.minting.assetMap (w.position i).assetToken).priceFeed = some price →
        price.toInt = P → 0 < P →
        (w.minting.assetMap (w.position i).assetToken).minCollateralRatio *
          (w.position i).assetAmount * P < 2 ^ 256 →
        (w.position i).collateralAmount * 10 ^ SAsset.decimals < 2 ^ 256 →
          ((w.withdraw 100 sender.address i amount).isSome = true ↔
            amount ≤ (w.position i).collateralAmount ∧
              MeetsRatio (w.minting.assetMap (w.position i).assetToken).minCollateralRatio
                ((w.position i).collateralAmount - amount) (w.position i).assetAmount P) := by
  intro h
  obtain ⟨tr, hrun⟩ := World.exists_run sampleTxs sampleWorld
  have hcall := h _ tr hrun (sampleTx 0 (.position (.closePosition 0))).sender
    (sampleTx 0 (.position (.closePosition 0))).prices 100000000000 0 1 100000000000
    (by decide +kernel) (by rw [World.Registered]; decide +kernel) (by decide +kernel)
    (by decide) (by decide) (by decide +kernel) (by decide +kernel)
  have hmeets := (hcall.1 (by decide +kernel)).2
  exact absurd hmeets (by decide +kernel)

/-! ### Minting -/

/-- The amount by which `mint` enlarges the debt of a position can be minted for its owner. -/
def World.Mintable (mintAddr s : Address) (i amount : ℕ) (w : World T) : Prop :=
  s = (w.position i).owner ∧ (w.position i).assetAmount + amount < 2 ^ 256 ∧
    ∃ x token, w.sAssets (w.position i).assetToken = some x ∧ x.minterRole mintAddr = true ∧
      ERC20.mint s amount x.token = some token

omit [ERC20.Standard T] in
/-- What `mint` does: it compares the quotient of the two amounts with the ratio. -/
theorem mint_cases {i amount : ℕ} (h : w.mint mintAddr s i amount = some w') :
    w.Mintable mintAddr s i amount ∧
      (w.minting.assetMap (w.position i).assetToken).minCollateralRatio *
          ((w.position i).assetAmount + amount) ≤ (w.position i).collateralAmount ∧
      w'.minting.assetMap = w.minting.assetMap ∧
      w'.position i = { w.position i with assetAmount := (w.position i).assetAmount + amount } := by
  simp only [World.mint, Option.bind_eq_bind, Option.bind_eq_some_iff, require_eq_some,
    checkedAdd_eq_some, checkedDiv_eq_some, Option.some.injEq] at h
  obtain ⟨-, howner, total, ⟨hfits, rfl⟩, quotient, ⟨hne, rfl⟩, -, hratio, w₁, hissue, total',
    ⟨-, rfl⟩, rfl⟩ := h
  obtain ⟨x, x', hx, hmint, hw₁⟩ := withAsset_eq_some.1 hissue
  obtain ⟨hrole, token, htoken, -⟩ := SAsset.mint_eq_some.1 hmint
  have hposition : w₁.position i = w.position i := by rw [hw₁]; rfl
  refine ⟨⟨howner, hfits, x, token, hx, hrole, htoken⟩, ?_, ?_, ?_⟩
  · exact (Nat.le_div_iff_mul_le (Nat.pos_of_ne_zero hne)).1 hratio
  · rw [World.assetMap_setPosition, assetMap_withAsset hissue]
  · rw [World.position_setPosition_self, hposition]

omit [ERC20.Standard T] in
theorem exists_mint {i amount : ℕ} (h : w.Mintable mintAddr s i amount)
    (hpos : 0 < (w.position i).assetAmount + amount)
    (hratio : (w.minting.assetMap (w.position i).assetToken).minCollateralRatio *
      ((w.position i).assetAmount + amount) ≤ (w.position i).collateralAmount) :
    ∃ w', w.mint mintAddr s i amount = some w' := by
  obtain ⟨howner, hfits, x, token, hx, hrole, htoken⟩ := h
  have hissue := withAsset_eq_some.2
    ⟨x, _, hx, SAsset.mint_eq_some.2 ⟨hrole, token, htoken, rfl⟩, rfl⟩
  simp only [World.mint, Option.bind_eq_bind, Option.bind_eq_some_iff, require_eq_some,
    checkedAdd_eq_some, checkedDiv_eq_some, Option.some.injEq]
  exact ⟨_, (), howner, _, ⟨hfits, rfl⟩, _, ⟨hpos.ne', rfl⟩, (),
    (Nat.le_div_iff_mul_le hpos).2 hratio, _, hissue, _, ⟨hfits, rfl⟩, rfl⟩

/-- When the call of `mint` goes through, the position meets its ratio afterwards, at a price. -/
def World.MintKeepsRatio (mintAddr s : Address) (i amount price : ℕ) (w : World T) : Prop :=
  ∀ w', w.mint mintAddr s i amount = some w' →
    MeetsRatio (w'.minting.assetMap (w'.position i).assetToken).minCollateralRatio
      (w'.position i).collateralAmount (w'.position i).assetAmount price

omit [ERC20.Standard T] in
/-- **What `mint` misses**: the price may lift the collateral that is needed above the one that is there,
which is enough without the price. -/
theorem mintKeepsRatio_iff {i amount price : ℕ} :
    let p := w.position i
    let ratio := (w.minting.assetMap p.assetToken).minCollateralRatio
    w.MintKeepsRatio mintAddr s i amount price ↔
      (w.Mintable mintAddr s i amount → ratio * (p.assetAmount + amount) ≤ p.collateralAmount →
        ratio * (p.assetAmount + amount) * price ≤ p.collateralAmount * 10 ^ SAsset.decimals) := by
  intro p ratio
  constructor
  · intro hkeeps hmintable hratio
    rcases Nat.eq_zero_or_pos (p.assetAmount + amount) with hzero | hpos
    · simp [hzero]
    · obtain ⟨w', hw'⟩ := exists_mint hmintable hpos hratio
      obtain ⟨-, -, hmap, hposition⟩ := mint_cases hw'
      have hmeets := hkeeps w' hw'
      rw [hmap, hposition] at hmeets
      exact hmeets
  · intro hcovered w' hw'
    obtain ⟨hmintable, hratio, hmap, hposition⟩ := mint_cases hw'
    rw [hmap, hposition]
    exact hcovered hmintable hratio

omit [ERC20.Standard T] in
/-- Where a unit of the asset is worth at most a unit of the collateral, `mint` keeps the ratio. -/
theorem mintKeepsRatio_of_le {i amount price : ℕ} (hprice : price ≤ 10 ^ SAsset.decimals) :
    w.MintKeepsRatio mintAddr s i amount price :=
  mintKeepsRatio_iff.2 fun _ hratio => Nat.mul_le_mul hratio hprice

end Runs

/-- In that position one unit of the asset can be minted, at whatever price. -/
theorem not_mintKeepsRatio_dust {price : ℕ} (hprice : 10 ^ SAsset.decimals < price) :
    ¬ (dustTxs.foldl World.exec sampleWorld).MintKeepsRatio 100 1 0 1 price := by
  intro hkeeps
  obtain ⟨w', hw'⟩ : ∃ w', (dustTxs.foldl World.exec sampleWorld).mint 100 1 0 1 = some w' :=
    Option.isSome_iff_exists.1 (by decide +kernel)
  obtain ⟨-, -, hmap, hposition⟩ := mint_cases hw'
  have hmeets := hkeeps w' hw'
  have hbefore : (dustTxs.foldl World.exec sampleWorld).position 0 = ⟨0, 1, 2, 200, 0⟩ := by
    decide +kernel
  have hratio : ((dustTxs.foldl World.exec sampleWorld).minting.assetMap 200).minCollateralRatio = 2 := by
    decide +kernel
  rw [hmap, hposition, hbefore, hratio] at hmeets
  change 2 * 1 * price ≤ 2 * 10 ^ SAsset.decimals at hmeets
  omega

/-- **When `mint` keeps the ratio.**  At a price of the feed, the calls of `mint` that go through, of any
account in any state that any transactions lead to, all leave the position at its ratio exactly if the price
is at most one unit of the collateral for one unit of the asset; no product needs to overflow for that.  For
a single call, the ratio is kept exactly if the collateral is not between what the check asks for and what
the ratio needs at the price. -/
theorem mint_keeps_ratio_iff {price : BitVec 256} {P : ℕ} (hP : price.toInt = P) (hpos : 0 < P) :
    ((∀ (T : Type) [ERC20 T] [ERC20.Standard T] (mintAddr : Address) (w₀ w : World T)
        (tr : List (World T × Tx mintAddr)) (sender : Account mintAddr) (prices : Prices)
        (i amount : ℕ), World.Deployed mintAddr w₀ → World.Run w₀ tr w →
        w.Registered (w.position i).assetToken →
        prices (w.minting.assetMap (w.position i).assetToken).priceFeed = some price →
        (w.minting.assetMap (w.position i).assetToken).minCollateralRatio *
          ((w.position i).assetAmount + amount) * P < 2 ^ 256 →
        (w.position i).collateralAmount * 10 ^ SAsset.decimals < 2 ^ 256 →
          w.MintKeepsRatio mintAddr sender.address i amount P) ↔
      P ≤ 10 ^ SAsset.decimals) ∧
    ∀ (T : Type) [ERC20 T] [ERC20.Standard T] (mintAddr : Address) (w : World T)
      (sender : Account mintAddr) (i amount : ℕ),
      let p := w.position i
      let ratio := (w.minting.assetMap p.assetToken).minCollateralRatio
      w.MintKeepsRatio mintAddr sender.address i amount P ↔
        (w.Mintable mintAddr sender.address i amount →
          ratio * (p.assetAmount + amount) ≤ p.collateralAmount →
            ratio * (p.assetAmount + amount) * P ≤ p.collateralAmount * 10 ^ SAsset.decimals) := by
  refine ⟨⟨fun h => ?_, fun hle _ _ _ _ _ _ _ _ _ _ _ _ _ _ _ _ _ => mintKeepsRatio_of_le hle⟩,
    fun _ _ _ _ _ _ _ _ => mintKeepsRatio_iff⟩
  by_contra hlt
  obtain ⟨tr, hrun⟩ := World.exists_run dustTxs sampleWorld
  have hbefore : (dustTxs.foldl World.exec sampleWorld).position 0 = ⟨0, 1, 2, 200, 0⟩ := by
    decide +kernel
  have hasset : (dustTxs.foldl World.exec sampleWorld).minting.assetMap 200 = ⟨200, 2, 300⟩ := by
    decide +kernel
  have hfits : P < 2 ^ 255 := by
    have hbound := BitVec.two_mul_toInt_lt (x := price)
    omega
  refine not_mintKeepsRatio_dust (Nat.not_le.1 hlt) (h Ledger 100 sampleWorld _ tr
    (sampleTx 0 (.position (.closePosition 0))).sender (fun _ => some price) 0 1
    deployed_sampleWorld hrun ?_ rfl ?_ ?_)
  · rw [hbefore, World.Registered, hasset]
    decide
  · rw [hbefore, hasset]
    change 2 * 1 * P < 2 ^ 256
    omega
  · rw [hbefore]
    decide

/-- Below that price the account 1 can mint what it likes. -/
theorem mint_keeps_ratio_iff_opened :
    (sampleTxs.foldl World.exec sampleWorld).MintKeepsRatio 100 1 0 149850000000 50000000 := by
  obtain ⟨tr, hrun⟩ := World.exists_run sampleTxs sampleWorld
  have hprice : (50000000 : BitVec 256).toInt = (50000000 : ℕ) := by decide
  have hkeeps := (mint_keeps_ratio_iff hprice (by decide)).1.2 (by decide) Ledger 100 sampleWorld
    (sampleTxs.foldl World.exec sampleWorld) tr
    (sampleTx 0 (.position (.closePosition 0))).sender (fun _ => some 50000000) 0 149850000000
  exact hkeeps deployed_sampleWorld hrun (by rw [World.Registered]; decide +kernel) rfl
    (by decide +kernel) (by decide +kernel)

/-- At the price of the deployment a position opened at its ratio can be given a thousand times the debt. -/
theorem mint_not_keeps_ratio :
    ¬ ∀ (w : World Ledger) (tr : List (World Ledger × Tx 100)), World.Run sampleWorld tr w →
      ∀ (sender : Account 100) (prices : Prices) (price : BitVec 256) (i amount P : ℕ),
        w.Registered (w.position i).assetToken →
        prices (w.minting.assetMap (w.position i).assetToken).priceFeed = some price →
        price.toInt = P → 0 < P →
        (w.minting.assetMap (w.position i).assetToken).minCollateralRatio *
          ((w.position i).assetAmount + amount) * P < 2 ^ 256 →
        (w.position i).collateralAmount * 10 ^ SAsset.decimals < 2 ^ 256 →
          w.MintKeepsRatio 100 sender.address i amount P := by
  intro h
  obtain ⟨tr, hrun⟩ := World.exists_run sampleTxs sampleWorld
  have hkeeps := h _ tr hrun (sampleTx 0 (.position (.closePosition 0))).sender
    (sampleTx 0 (.position (.closePosition 0))).prices 100000000000 0 149850000000 100000000000
    (by rw [World.Registered]; decide +kernel) (by decide +kernel) (by decide) (by decide)
    (by decide +kernel) (by decide +kernel)
  obtain ⟨w', hw'⟩ : ∃ w', (sampleTxs.foldl World.exec sampleWorld).mint 100 1 0 149850000000 =
      some w' := Option.isSome_iff_exists.1 (by decide +kernel)
  obtain ⟨-, -, hmap, hposition⟩ := mint_cases hw'
  have hmeets := hkeeps w' hw'
  have hbefore : (sampleTxs.foldl World.exec sampleWorld).position 0 =
      ⟨0, 1, 300000000000, 200, 150000000⟩ := by decide +kernel
  have hratio : ((sampleTxs.foldl World.exec sampleWorld).minting.assetMap 200).minCollateralRatio =
      2 := by decide +kernel
  rw [hmap, hposition, hbefore, hratio] at hmeets
  exact absurd hmeets (by decide)

end Synthetics
