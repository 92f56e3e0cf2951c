/-
**The synthetic assets are backed by positions.**

When only `Mint` may mint and burn an asset, its supply changes in settlements only, and there by the same
amount as the sum of the amounts in the positions with that asset.

Main results:

* `Synthetics.supply_backed` — **the supply of every asset** is the sum of its amounts in the positions.
-/

import BitcoinClient.Settlements

set_option relaxedAutoImplicit false
set_option autoImplicit false

namespace Synthetics

open ERC20 (totalSupply)

variable {T : Type} [ERC20 T] {mintAddr s : Address} {w w' : World T} {a : Address}

/-- Only `Mint` may mint and burn the asset. -/
def SAsset.OnlyMint (mintAddr : Address) (x : SAsset T) : Prop :=
  ∀ y, x.minterRole y = true ∨ x.burnerRole y = true → y = mintAddr

/-- The asset at `a`, which only `Mint` may mint and burn, is backed by the positions. -/
def Backed (mintAddr a : Address) (w : World T) : Prop :=
  ∃ x, w.sAssets a = some x ∧ x.OnlyMint mintAddr ∧
    totalSupply x.token = total (fun p => p.amountOf a) w

/-- A settlement mints and burns what it writes. -/
theorem Backed.settles (h : Backed mintAddr a w) (hw : Consistent mintAddr w) (hs : s ≠ 0) {i : ℕ}
    (hset : Settles mintAddr s w w' i) : Backed mintAddr a w' := by
  obtain ⟨paidIn, paidOut, b, issued, retired, -, hissues, hwrites⟩ := hset
  obtain ⟨x, hx, honly, hsupply⟩ := h
  obtain ⟨x', hx', hminter, hburner, hsupply', -⟩ := hissues.asset a x hx
  have hsum := total_writes (v := fun p => p.amountOf a) (amountOf_empty a) hw hs hwrites
  have hamount := hwrites.amount a
  refine ⟨x', hx', ?_, ?_⟩
  · rw [SAsset.OnlyMint, hminter, hburner]
    exact honly
  · omega

/-- A state with the same positions, in which the asset has the same supply and roles. -/
theorem Backed.congr (h : Backed mintAddr a w) (hpos : ∀ i, w'.position i = w.position i)
    (hcur : w'.minting.currentPositionIndex = w.minting.currentPositionIndex)
    (hasset : ∀ x, w.sAssets a = some x → x.OnlyMint mintAddr →
      ∃ x', w'.sAssets a = some x' ∧ x'.OnlyMint mintAddr ∧
        totalSupply x'.token = totalSupply x.token) : Backed mintAddr a w' := by
  obtain ⟨x, hx, honly, hsupply⟩ := h
  obtain ⟨x', hx', honly', hsupply'⟩ := hasset x hx honly
  refine ⟨x', hx', honly', ?_⟩
  rw [hsupply', hsupply]
  simp only [total, hcur, hpos]

/-- A call of an asset that keeps its supply and its roles, unless somebody with a role makes it. -/
theorem Backed.withAsset (h : Backed mintAddr a w) {b : Address}
    {f : SAsset T → Option (SAsset T)} (hcall : w.withAsset b f = some w')
    (hf : ∀ x x', f x = some x' → x.OnlyMint mintAddr →
      x'.OnlyMint mintAddr ∧ totalSupply x'.token = totalSupply x.token) :
    Backed mintAddr a w' := by
  obtain ⟨x, x', hx, hx', rfl⟩ := withAsset_eq_some.1 hcall
  refine h.congr (fun _ => rfl) rfl fun y hy honly => ?_
  by_cases hab : a = b
  · subst hab
    rw [hx, Option.some_inj] at hy
    subst hy
    obtain ⟨honly', hsupply⟩ := hf x x' hx' honly
    exact ⟨x', Function.update_self _ _ _, honly', hsupply⟩
  · exact ⟨y, (Function.update_of_ne hab _ _).trans hy, honly, rfl⟩

variable [ERC20.Standard T]

theorem backed_call {c : Account mintAddr} {prices : Prices} {call : Call}
    (hw : Consistent mintAddr w) (h : Backed mintAddr a w)
    (hcall : w.call c prices call = some w') : Backed mintAddr a w' := by
  cases call with
  | registerAsset =>
      obtain ⟨hpos, hcur, -, hassets⟩ := registerAsset_keeps hcall
      refine h.congr hpos hcur fun x hx honly => ⟨x, ?_, honly, rfl⟩
      rw [hassets, hx]
  | position => exact h.settles hw c.address_ne_zero (settles_of_callPosition hw hcall)
  | eusd =>
      obtain ⟨eusd, -, rfl⟩ := Option.map_eq_some_iff.1 hcall
      exact h.congr (fun _ => rfl) rfl fun x hx honly => ⟨x, hx, honly, rfl⟩
  | sAsset b call =>
      refine h.withAsset hcall fun x x' hx' honly => ?_
      obtain ⟨token, htoken, rfl⟩ := SAsset.call_eq_some.1 hx'
      exact ⟨honly, ERC20.totalSupply_call htoken⟩
  | sAssetMint b toAddr amount =>
      -- the sender has no role
      refine h.withAsset hcall fun x x' hx' honly => ?_
      obtain ⟨hrole, -⟩ := SAsset.mint_eq_some.1 hx'
      exact absurd (honly _ (Or.inl hrole)) c.address_ne_mint
  | sAssetBurn b fromAddr amount =>
      refine h.withAsset hcall fun x x' hx' honly => ?_
      obtain ⟨hrole, -⟩ := SAsset.burn_eq_some.1 hx'
      exact absurd (honly _ (Or.inr hrole)) c.address_ne_mint

/-- A token without initial supply. -/
theorem totalSupply_constructor {deployer : Address} {t : T}
    (h : SAsset.constructor deployer 0 = some t) : totalSupply t = 0 := by
  have hmint : ERC20.mint deployer 0 ERC20.empty = some t := by
    simpa [SAsset.constructor, checkedMul] using h
  rw [(ERC20.Standard.mint_eq hmint).1, ERC20.Standard.totalSupply_empty]

variable {w₀ : World T} {tr : List (World T × Tx mintAddr)}

/-- **Every synthetic asset is backed.**  An asset that is deployed without an initial supply, and that only
`Mint` may mint and burn, has in every state that any transactions lead to the supply that is the sum of its
amounts in all positions that exist. -/
theorem supply_backed (hdeployed : World.Deployed mintAddr w₀) (hrun : World.Run w₀ tr w) :
    (∀ i, i ∈ w.existing ↔ (w.position i).owner ≠ 0) ∧
      ∀ a x₀, w₀.sAssets a = some x₀ →
        (∃ deployer, SAsset.constructor deployer 0 = some x₀.token) → x₀.OnlyMint mintAddr →
          ∃ x, w.sAssets a = some x ∧ totalSupply x.token = w.totalAssetAmount a := by
  refine ⟨fun i => mem_existing (consistent_of_run hdeployed hrun), fun a x₀ hx₀ hsupply honly => ?_⟩
  have h₀ : Backed mintAddr a w₀ := by
    obtain ⟨deployer, hminting⟩ := hdeployed.minting
    obtain ⟨deployer', hconstructor⟩ := hsupply
    refine ⟨x₀, hx₀, honly, ?_⟩
    rw [totalSupply_constructor hconstructor, total, hminting]
    rfl
  obtain ⟨hw, x, hx, -, htotal⟩ :=
    invariant_of_run hdeployed h₀ (fun _ _ _ _ _ => backed_call) hrun
  refine ⟨x, hx, ?_⟩
  rw [htotal, totalAssetAmount_eq hw]

omit [ERC20.Standard T] in
/-- An account has opened a position. -/
theorem supply_backed_opened :
    let w := sampleTxs.foldl World.exec sampleWorld
    w.totalAssetAmount 200 = 150000000 ∧
      ∃ x, w.sAssets 200 = some x ∧ totalSupply x.token = w.totalAssetAmount 200 := by
  obtain ⟨tr, hrun⟩ := World.exists_run sampleTxs sampleWorld
  refine ⟨by decide +kernel, (supply_backed deployed_sampleWorld hrun).2 200 _ rfl ⟨1, rfl⟩ ?_⟩
  intro y hy
  simpa using hy

end Synthetics
