/-
**Mint is solvent.**

A settlement changes the collateral of the positions and the balance of `Mint` by the same amount, and no
other call lessens the balance of `Mint`, which allows nobody to spend it.  So `Mint` always has the
collateral of all positions, and whoever closes a position is paid its collateral.

Main results:

* `Synthetics.solvent_of_run` — the balance of `Mint` covers the collateral of all positions;
* `Synthetics.mint_solvent` — **solvency**, and what it means for closing a position.
-/

import BitcoinClient.Settlements

set_option relaxedAutoImplicit false
set_option autoImplicit false

namespace Synthetics

open ERC20 (balanceOf totalSupply)

variable {T : Type} [ERC20 T] {mintAddr s : Address} {w w' : World T}

/-- `Mint` has the collateral of all positions. -/
def Solvent (mintAddr : Address) (w : World T) : Prop :=
  total Position.collateralAmount w ≤ balanceOf w.eusd mintAddr

/-- A settlement keeps the difference between the balance and the collateral. -/
theorem Solvent.settles (h : Solvent mintAddr w) (hw : Consistent mintAddr w) (hs : s ≠ 0)
    (hne : s ≠ mintAddr) {i : ℕ} (hset : Settles mintAddr s w w' i) : Solvent mintAddr w' := by
  obtain ⟨paidIn, paidOut, a, issued, retired, hpays, -, hwrites⟩ := hset
  have hsum := total_writes collateralAmount_empty hw hs hwrites
  have hcollateral := hwrites.collateral
  have hbalance := hpays.balance mintAddr
  rw [if_neg hne.symm, if_pos rfl, if_pos rfl, if_neg hne.symm] at hbalance
  rw [Solvent] at h ⊢
  omega

/-- A state with the same positions, in which `Mint` has not less. -/
theorem Solvent.congr (h : Solvent mintAddr w) (hpos : ∀ i, w'.position i = w.position i)
    (hcur : w'.minting.currentPositionIndex = w.minting.currentPositionIndex)
    (hle : balanceOf w.eusd mintAddr ≤ balanceOf w'.eusd mintAddr) : Solvent mintAddr w' := by
  have hsum : total Position.collateralAmount w' = total Position.collateralAmount w := by
    simp only [total, hcur, hpos]
  rw [Solvent, hsum]
  exact h.trans hle

variable [ERC20.Standard T]

theorem solvent_call {a : Account mintAddr} {prices : Prices} {c : Call}
    (hw : Consistent mintAddr w) (h : Solvent mintAddr w)
    (hcall : w.call a prices c = some w') : Solvent mintAddr w' := by
  cases c with
  | registerAsset =>
      obtain ⟨hpos, hcur, heusd, -⟩ := registerAsset_keeps hcall
      exact h.congr hpos hcur (by rw [heusd])
  | position =>
      exact h.settles hw a.address_ne_zero a.address_ne_mint (settles_of_callPosition hw hcall)
  | eusd =>
      obtain ⟨eusd, heusd, rfl⟩ := Option.map_eq_some_iff.1 hcall
      exact h.congr (fun _ => rfl) rfl (hw.guarded.call heusd (Ne.symm a.address_ne_mint)).2
  | sAsset | sAssetMint | sAssetBurn =>
      obtain ⟨hminting, heusd, -⟩ := withAsset_keeps hcall
      refine h.congr (fun i => ?_) (by rw [hminting]) (by rw [heusd])
      rw [World.position, hminting, World.position]

variable {w₀ : World T} {tr : List (World T × Tx mintAddr)}

/-- **The balance of `Mint` covers the collateral of all positions**, in every run. -/
theorem solvent_of_run (hdeployed : World.Deployed mintAddr w₀) (hrun : World.Run w₀ tr w) :
    Solvent mintAddr w := by
  have h₀ : Solvent mintAddr w₀ := by
    obtain ⟨deployer, hminting⟩ := hdeployed.minting
    rw [Solvent, total, hminting]
    exact Nat.zero_le _
  exact (invariant_of_run hdeployed h₀ (fun _ _ _ _ _ => solvent_call) hrun).2

/-- The owner of a position that has enough of its asset can close it. -/
theorem exists_closePosition (hmint : mintAddr ≠ 0) (hs : s ≠ 0) {i : ℕ} {x : SAsset T}
    (howner : (w.position i).owner = s)
    (hcollateral : (w.position i).collateralAmount ≤ balanceOf w.eusd mintAddr)
    (hx : w.sAssets (w.position i).assetToken = some x) (hrole : x.burnerRole mintAddr = true)
    (henough : (w.position i).assetAmount ≤ balanceOf x.token s) :
    ∃ w', w.closePosition mintAddr s i = some w' := by
  obtain ⟨eusd, heusd⟩ := Option.isSome_iff_exists.1
    ((ERC20.Standard.transfer_isSome w.eusd mintAddr s _).2 ⟨hmint, hs, hcollateral⟩)
  obtain ⟨token, htoken⟩ := Option.isSome_iff_exists.1
    ((ERC20.Standard.burn_isSome x.token s _).2 ⟨hs, henough⟩)
  have hburn : x.burn mintAddr s (w.position i).assetAmount = some { x with token } :=
    SAsset.burn_eq_some.2 ⟨hrole, token, htoken, rfl⟩
  exact ⟨_, closePosition_eq_some.2 ⟨howner.symm, eusd, _, heusd,
    withAsset_eq_some.2 ⟨x, _, hx, hburn, rfl⟩, rfl⟩⟩

/-- Closing a position pays its collateral, from `Mint` to the owner. -/
theorem closePosition_pays (hne : s ≠ mintAddr) {i : ℕ}
    (h : w.closePosition mintAddr s i = some w') :
    balanceOf w'.eusd s = balanceOf w.eusd s + (w.position i).collateralAmount ∧
      balanceOf w'.eusd mintAddr + (w.position i).collateralAmount = balanceOf w.eusd mintAddr := by
  obtain ⟨-, eusd, w₁, hpay, hissue, rfl⟩ := closePosition_eq_some.1 h
  obtain ⟨-, heusd, -⟩ := withAsset_keeps hissue
  obtain ⟨hmoves, -⟩ := ERC20.Standard.transfer_moves hpay
  have hself := hmoves.balance s
  have hmint := hmoves.balance mintAddr
  rw [if_neg hne, if_pos rfl, Nat.add_zero] at hself
  rw [if_pos rfl, if_neg hne.symm, Nat.add_zero] at hmint
  rw [World.eusd_setPosition, heusd, World.eusd_setEusd]
  exact ⟨hself, hmint⟩

/-- **Mint is solvent.**  In every state that any transactions lead to, the balance of `Mint` is at least
the sum of the collateral of all positions that exist; and when the owner of a position has at least its
amount of the asset, which `Mint` may burn, closing the position does not revert and pays exactly its
collateral. -/
theorem mint_solvent (hdeployed : World.Deployed mintAddr w₀) (hrun : World.Run w₀ tr w) :
    (∀ i, i ∈ w.existing ↔ (w.position i).owner ≠ 0) ∧
      w.totalCollateral ≤ balanceOf w.eusd mintAddr ∧
      ∀ (a : Account mintAddr) i, (w.position i).owner = a.address →
        ∃ x, w.sAssets (w.position i).assetToken = some x ∧
          (x.burnerRole mintAddr = true →
            (w.position i).assetAmount ≤ balanceOf x.token a.address →
              ∃ w', w.closePosition mintAddr a.address i = some w' ∧
                balanceOf w'.eusd a.address =
                  balanceOf w.eusd a.address + (w.position i).collateralAmount ∧
                balanceOf w'.eusd mintAddr + (w.position i).collateralAmount =
                  balanceOf w.eusd mintAddr) := by
  have hw := consistent_of_run hdeployed hrun
  have hsolvent : w.totalCollateral ≤ balanceOf w.eusd mintAddr := by
    rw [totalCollateral_eq hw]
    exact solvent_of_run hdeployed hrun
  refine ⟨fun i => mem_existing hw, hsolvent, fun a i howner => ?_⟩
  have hexists : (w.position i).owner ≠ 0 := by
    rw [howner]
    exact a.address_ne_zero
  obtain ⟨x, hx⟩ := hw.asset i hexists
  refine ⟨x, hx, fun hrole henough => ?_⟩
  have hcollateral : (w.position i).collateralAmount ≤ w.totalCollateral :=
    Finset.single_le_sum (f := fun i => (w.position i).collateralAmount) (fun _ _ => Nat.zero_le _)
      ((mem_existing hw).2 hexists)
  obtain ⟨w', hclose⟩ := exists_closePosition hdeployed.address_ne_zero a.address_ne_zero howner
    (hcollateral.trans hsolvent) hx hrole henough
  exact ⟨w', hclose, closePosition_pays a.address_ne_mint hclose⟩

/-- The account 1 has opened a position, and can close it. -/
theorem mint_solvent_opened :
    let w := sampleTxs.foldl World.exec sampleWorld
    w.totalCollateral = 300000000000 ∧ w.totalCollateral ≤ balanceOf w.eusd 100 ∧
      ∃ w', w.closePosition 100 1 0 = some w' ∧
        balanceOf w'.eusd 1 = balanceOf w.eusd 1 + 300000000000 := by
  intro w
  obtain ⟨tr, hrun⟩ := World.exists_run sampleTxs sampleWorld
  obtain ⟨-, hsolvent, hclose⟩ := mint_solvent deployed_sampleWorld hrun
  have hposition : w.position 0 = ⟨0, 1, 300000000000, 200, 150000000⟩ := by decide +kernel
  refine ⟨by decide +kernel, hsolvent, ?_⟩
  have howner : (w.position 0).owner = (sampleTx 0 (.position (.closePosition 0))).sender.address := by
    rw [hposition]
    rfl
  obtain ⟨x, hx, hpaid⟩ := hclose _ 0 howner
  change w.sAssets (w.position 0).assetToken = some x at hx
  rw [hposition] at hx
  have henough : (w.sAssets 200).any fun x =>
      x.burnerRole 100 && decide (150000000 ≤ balanceOf x.token 1) := by decide +kernel
  rw [hx, Option.any_some, Bool.and_eq_true, decide_eq_true_eq] at henough
  have hamount : (w.position 0).assetAmount ≤ balanceOf x.token 1 := by
    rw [hposition]
    exact henough.2
  obtain ⟨w', hcalled, hbalance, -⟩ := hpaid henough.1 hamount
  refine ⟨w', hcalled, ?_⟩
  rw [hposition] at hbalance
  exact hbalance

end Synthetics
