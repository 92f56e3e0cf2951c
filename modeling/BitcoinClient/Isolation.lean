/-
**The accounts are isolated from each other.**

A call of `Mint` writes one position, which belongs to the sender or is the next one, and moves tokens
between the sender and `Mint` only.

Main definitions:

* `Synthetics.PositionCall.positionIndex` — the position that a call addresses.

Main results:

* `Synthetics.Settles.position_eq`, `Synthetics.Settles.spares` — what a settlement leaves as it is;
* `Synthetics.positions_isolated` — **the accounts are isolated**.
-/

import BitcoinClient.Settlements

set_option relaxedAutoImplicit false
set_option autoImplicit false

namespace Synthetics

open ERC20 (balanceOf)

variable {T : Type} [ERC20 T] {mintAddr s : Address} {w w' : World T}

/-- The position that a call addresses; `openPosition` addresses none. -/
def PositionCall.positionIndex : PositionCall → Option ℕ
  | .openPosition .. => none
  | .closePosition i => some i
  | .deposit i _ => some i
  | .withdraw i _ => some i
  | .mint i _ => some i
  | .burn i _ => some i

/-- An existing position that a call does not address is not the one it writes. -/
theorem ne_target (hw : Consistent mintAddr w) {c : PositionCall} {i : ℕ}
    (hexists : (w.position i).owner ≠ 0) (hne : c.positionIndex ≠ some i) : i ≠ c.target w := by
  cases c with
  | openPosition =>
      -- nothing is stored at the next index
      rintro rfl
      exact hexists (congrArg Position.owner (hw.beyond _ (Nat.le_refl _)))
  | closePosition | deposit | withdraw | mint | burn => exact fun h => hne (congrArg some h.symm)

/-- Nothing of what others have gets less. -/
structure Spares (mintAddr s : Address) (w w' : World T) : Prop where
  eusd : ∀ x, x ≠ s → x ≠ mintAddr → balanceOf w.eusd x ≤ balanceOf w'.eusd x
  sAssets : ∀ b y, w.sAssets b = some y → ∃ y', w'.sAssets b = some y' ∧
    ∀ x, x ≠ s → x ≠ mintAddr → balanceOf y.token x ≤ balanceOf y'.token x

theorem spares_refl (w : World T) : Spares mintAddr s w w :=
  ⟨fun _ _ _ => Nat.le_refl _, fun _ y hy => ⟨y, hy, fun _ _ _ => Nat.le_refl _⟩⟩

/-- A settlement is between the sender and `Mint`. -/
theorem Settles.spares {i : ℕ} (h : Settles mintAddr s w w' i) : Spares mintAddr s w w' := by
  obtain ⟨paidIn, paidOut, a, issued, retired, hpays, hissues, -⟩ := h
  constructor
  · intro x hxs hxm
    have hbalance := hpays.balance x
    rw [if_neg hxs, if_neg hxm, if_neg hxm, if_neg hxs] at hbalance
    exact hbalance.ge
  · intro b y hy
    obtain ⟨y', hy', -, -, -, hbalance⟩ := hissues.asset b y hy
    refine ⟨y', hy', fun x hxs _ => ?_⟩
    have hbal := hbalance x
    rw [if_neg fun h => hxs h.2, if_neg fun h => hxs h.2] at hbal
    exact hbal.ge

/-- **A settlement leaves the existing positions of others as they are**, and all but the one at its
index. -/
theorem Settles.position_eq {i j : ℕ} (h : Settles mintAddr s w w' i)
    (hexists : (w.position j).owner ≠ 0) (hother : (w.position j).owner ≠ s ∨ j ≠ i) :
    w'.position j = w.position j := by
  obtain ⟨paidIn, paidOut, a, issued, retired, -, -, hwrites⟩ := h
  refine hwrites.others j (hother.elim (fun howner => ?_) id)
  rintro rfl
  rcases hwrites.index with ⟨hempty, -⟩ | ⟨hsame, -⟩
  · rw [hempty] at hexists
    exact hexists rfl
  · exact howner hsame

variable [ERC20.Standard T] {w₀ : World T} {tr : List (World T × Tx mintAddr)}

/-- **The accounts are isolated from each other.**  In every state that any transactions lead to, a call of
an account leaves the existing positions of others as they are, and those of its own that it does not
address; and nothing of what an account other than the sender and `Mint` has of a token gets less. -/
theorem positions_isolated (hdeployed : World.Deployed mintAddr w₀) (hrun : World.Run w₀ tr w)
    (a : Account mintAddr) (prices : Prices) (c : PositionCall) :
    let w' := (w.callPosition a prices c).getD w
    (∀ i, (w.position i).owner ≠ 0 →
        (w.position i).owner ≠ a.address ∨ c.positionIndex ≠ some i →
          w'.position i = w.position i) ∧
      (∀ x, x ≠ a.address → x ≠ mintAddr → balanceOf w.eusd x ≤ balanceOf w'.eusd x) ∧
      ∀ b y, w.sAssets b = some y → ∃ y', w'.sAssets b = some y' ∧
        ∀ x, x ≠ a.address → x ≠ mintAddr → balanceOf y.token x ≤ balanceOf y'.token x := by
  intro w'
  have hw := consistent_of_run hdeployed hrun
  cases hcall : w.callPosition a prices c with
  | none =>
      -- the call reverts
      have hw' : w' = w := congrArg (Option.getD · w) hcall
      have hspares : Spares mintAddr a.address w w' := by
        rw [hw']
        exact spares_refl w
      exact ⟨fun i _ _ => by rw [hw'], hspares.eusd, hspares.sAssets⟩
  | some w₁ =>
      have hw' : w' = w₁ := congrArg (Option.getD · w) hcall
      have hsettles := settles_of_callPosition hw hcall
      have hspares : Spares mintAddr a.address w w' := hw' ▸ hsettles.spares
      refine ⟨fun i hexists hother => ?_, hspares.eusd, hspares.sAssets⟩
      rw [hw']
      exact hsettles.position_eq hexists (hother.imp id (ne_target hw hexists))

omit [ERC20.Standard T] in
/-- The account 2 opens a position next to the one of the account 1. -/
theorem positions_isolated_opened :
    let txs := sampleTxs ++ [sampleTx 0 (.eusd (.transfer 2 300000000000)),
      sampleTx 1 (.eusd (.approve 100 300000000000))]
    let w := txs.foldl World.exec sampleWorld
    let tx := sampleTx 1 (.position (.openPosition 300000000000 200 2))
    let w' := (w.callPosition tx.sender tx.prices (.openPosition 300000000000 200 2)).getD w
    (w'.position 1).owner = 2 ∧ (w.position 0).owner = 1 ∧ w'.position 0 = w.position 0 ∧
      balanceOf w.eusd 1 ≤ balanceOf w'.eusd 1 := by
  intro txs w tx w'
  obtain ⟨tr, hrun⟩ := World.exists_run txs sampleWorld
  have howner : (w.position 0).owner = 1 := by decide +kernel
  obtain ⟨hpositions, heusd, -⟩ := positions_isolated deployed_sampleWorld hrun tx.sender tx.prices
    (.openPosition 300000000000 200 2)
  refine ⟨by decide +kernel, howner, hpositions 0 ?_ (Or.inr (Option.some_ne_none 0).symm), ?_⟩
  · rw [howner]
    decide
  · exact heusd 1 (by decide) (by decide)

end Synthetics
