/-
**Fungible tokens.**

The token contracts of `FinalProject/Part2` extend the `ERC20` contract of a library.  A token is given by
the state of that contract and its functions; a call that reverts is `none`, so that it changes nothing.
What the standard promises of the functions is stated as laws: which amounts move, who must have allowed it,
and when a call does not revert.

Amounts are numbers below `2 ^ 256`, and the arithmetic on them is checked: an overflow, an underflow and a
division by zero revert.

Main definitions:

* `Synthetics.require`, `Synthetics.checkedAdd`, `Synthetics.checkedSub`, `Synthetics.checkedMul`,
  `Synthetics.checkedDiv`;
* `Synthetics.ERC20`, `Synthetics.ERC20.Standard` — the functions of a token, and the laws;
* `Synthetics.TokenCall`, `Synthetics.ERC20.call` — the calls that everybody can make;
* `Synthetics.Ledger` — a token that satisfies the laws.

Main results:

* `Synthetics.ERC20.Guarded.call` — what an account has is out of the reach of others.
-/

import BitcoinClient.FinmapTotal
import Mathlib.Data.BitVec
import Mathlib.Logic.Function.Basic
import Mathlib.Tactic.Common

set_option relaxedAutoImplicit false
set_option autoImplicit false

namespace Synthetics

/-! ### Checked arithmetic -/

/-- A call goes on only when the condition holds. -/
def require (p : Prop) [Decidable p] : Option Unit := if p then some () else none

def checkedAdd (a b : ℕ) : Option ℕ := if a + b < 2 ^ 256 then some (a + b) else none

def checkedSub (a b : ℕ) : Option ℕ := if b ≤ a then some (a - b) else none

def checkedMul (a b : ℕ) : Option ℕ := if a * b < 2 ^ 256 then some (a * b) else none

def checkedDiv (a b : ℕ) : Option ℕ := if b = 0 then none else some (a / b)

@[simp] theorem require_eq_some {p : Prop} [Decidable p] {u : Unit} : require p = some u ↔ p := by
  simp [require]

@[simp] theorem checkedAdd_eq_some {a b c : ℕ} :
    checkedAdd a b = some c ↔ a + b < 2 ^ 256 ∧ c = a + b := by
  simp [checkedAdd, eq_comm]

@[simp] theorem checkedSub_eq_some {a b c : ℕ} : checkedSub a b = some c ↔ c + b = a := by
  rw [checkedSub]
  split
  · rw [Option.some_inj]
    omega
  · simp only [reduceCtorEq, false_iff]
    omega

@[simp] theorem checkedMul_eq_some {a b c : ℕ} :
    checkedMul a b = some c ↔ a * b < 2 ^ 256 ∧ c = a * b := by
  simp [checkedMul, eq_comm]

@[simp] theorem checkedDiv_eq_some {a b c : ℕ} :
    checkedDiv a b = some c ↔ b ≠ 0 ∧ c = a / b := by
  simp [checkedDiv, eq_comm]

/-! ### Tokens -/

abbrev Address := BitVec 160

/-- The functions of a token, on the states `T` of its contract. -/
class ERC20 (T : Type) where
  /-- The state before the constructor has minted. -/
  empty : T
  totalSupply : T → ℕ
  balanceOf : T → Address → ℕ
  allowance : T → Address → Address → ℕ
  transfer (sender recipient : Address) (amount : ℕ) : T → Option T
  transferFrom (caller sender recipient : Address) (amount : ℕ) : T → Option T
  approve (owner spender : Address) (amount : ℕ) : T → Option T
  increaseAllowance (owner spender : Address) (addedValue : ℕ) : T → Option T
  decreaseAllowance (owner spender : Address) (subtractedValue : ℕ) : T → Option T
  mint (account : Address) (amount : ℕ) : T → Option T
  burn (account : Address) (amount : ℕ) : T → Option T

namespace ERC20

variable {T : Type} [ERC20 T]

/-- An amount moves from `sender` to `recipient`. -/
structure Moves (t t' : T) (sender recipient : Address) (amount : ℕ) : Prop where
  enough : amount ≤ balanceOf t sender
  supply : totalSupply t' = totalSupply t
  balance : ∀ x, balanceOf t' x + (if x = sender then amount else 0) =
    balanceOf t x + if x = recipient then amount else 0

/-- Only the allowances that `owner` has given change. -/
structure Allows (t t' : T) (owner : Address) : Prop where
  supply : totalSupply t' = totalSupply t
  balance : ∀ x, balanceOf t' x = balanceOf t x
  others : ∀ x, x ≠ owner → ∀ y, allowance t' x y = allowance t x y

/-- What the standard promises. -/
class Standard (T : Type) [ERC20 T] : Prop where
  totalSupply_empty : totalSupply (empty : T) = 0
  balanceOf_empty : ∀ x, balanceOf (empty : T) x = 0
  allowance_empty : ∀ x y, allowance (empty : T) x y = 0
  transfer_isSome : ∀ (t : T) sender recipient amount,
    (transfer sender recipient amount t).isSome = true ↔
      sender ≠ 0 ∧ recipient ≠ 0 ∧ amount ≤ balanceOf t sender
  transfer_moves : ∀ {t t' : T} {sender recipient amount},
    transfer sender recipient amount t = some t' →
      Moves t t' sender recipient amount ∧ ∀ x y, allowance t' x y = allowance t x y
  transferFrom_isSome : ∀ (t : T) caller sender recipient amount,
    (transferFrom caller sender recipient amount t).isSome = true ↔
      caller ≠ 0 ∧ sender ≠ 0 ∧ recipient ≠ 0 ∧ amount ≤ balanceOf t sender ∧
        amount ≤ allowance t sender caller
  transferFrom_moves : ∀ {t t' : T} {caller sender recipient amount},
    transferFrom caller sender recipient amount t = some t' →
      Moves t t' sender recipient amount ∧ amount ≤ allowance t sender caller ∧
        ∀ x y, allowance t' x y ≤ allowance t x y
  approve_allows : ∀ {t t' : T} {owner spender amount},
    approve owner spender amount t = some t' → Allows t t' owner
  increaseAllowance_allows : ∀ {t t' : T} {owner spender addedValue},
    increaseAllowance owner spender addedValue t = some t' → Allows t t' owner
  decreaseAllowance_allows : ∀ {t t' : T} {owner spender subtractedValue},
    decreaseAllowance owner spender subtractedValue t = some t' → Allows t t' owner
  mint_isSome : ∀ (t : T) account amount, (mint account amount t).isSome = true ↔
    account ≠ 0 ∧ totalSupply t + amount < 2 ^ 256
  mint_eq : ∀ {t t' : T} {account amount}, mint account amount t = some t' →
    totalSupply t' = totalSupply t + amount ∧
      (∀ x, balanceOf t' x = balanceOf t x + if x = account then amount else 0) ∧
        ∀ x y, allowance t' x y = allowance t x y
  burn_isSome : ∀ (t : T) account amount, (burn account amount t).isSome = true ↔
    account ≠ 0 ∧ amount ≤ balanceOf t account
  burn_eq : ∀ {t t' : T} {account amount}, burn account amount t = some t' →
    totalSupply t' + amount = totalSupply t ∧
      (∀ x, balanceOf t' x + (if x = account then amount else 0) = balanceOf t x) ∧
        ∀ x y, allowance t' x y = allowance t x y

end ERC20

/-! ### Calls of the token contracts -/

/-- The calls of a token contract that everybody can make. -/
inductive TokenCall
  | transfer (recipient : Address) (amount : ℕ)
  | transferFrom (sender recipient : Address) (amount : ℕ)
  | approve (spender : Address) (amount : ℕ)
  | increaseAllowance (spender : Address) (addedValue : ℕ)
  | decreaseAllowance (spender : Address) (subtractedValue : ℕ)
  deriving DecidableEq

namespace ERC20

variable {T : Type} [ERC20 T]

def call (caller : Address) : TokenCall → T → Option T
  | .transfer recipient amount => transfer caller recipient amount
  | .transferFrom sender recipient amount => transferFrom caller sender recipient amount
  | .approve spender amount => approve caller spender amount
  | .increaseAllowance spender addedValue => increaseAllowance caller spender addedValue
  | .decreaseAllowance spender subtractedValue => decreaseAllowance caller spender subtractedValue

variable [Standard T] {t t' : T} {caller : Address} {c : TokenCall}

/-- **The supply** is moved around by the calls. -/
theorem totalSupply_call (h : call caller c t = some t') : totalSupply t' = totalSupply t := by
  cases c with
  | transfer => exact (Standard.transfer_moves h).1.supply
  | transferFrom => exact (Standard.transferFrom_moves h).1.supply
  | approve => exact (Standard.approve_allows h).supply
  | increaseAllowance => exact (Standard.increaseAllowance_allows h).supply
  | decreaseAllowance => exact (Standard.decreaseAllowance_allows h).supply

/-- Nobody may move what `x` has. -/
def Guarded (x : Address) (t : T) : Prop := ∀ y, allowance t x y = 0

omit [Standard T] in
/-- An amount that moves from another account does not lessen the balance. -/
theorem Moves.le {sender recipient : Address} {amount : ℕ} (h : Moves t t' sender recipient amount)
    {x : Address} (hx : x = sender → amount = 0) : balanceOf t x ≤ balanceOf t' x := by
  have hbal := h.balance x
  split at hbal
  · rename_i hxs
    rw [hx hxs] at hbal
    omega
  · omega

omit [Standard T] in
theorem Guarded.allows {x : Address} (hg : Guarded x t) (h : Allows t t' caller) (hx : x ≠ caller) :
    Guarded x t' ∧ balanceOf t x ≤ balanceOf t' x := by
  refine ⟨fun y => ?_, (h.balance x).ge⟩
  rw [h.others x hx y]
  exact hg y

/-- **What a guarded account has is out of the reach of others**, and it stays guarded. -/
theorem Guarded.call {x : Address} (hg : Guarded x t) (h : call caller c t = some t')
    (hx : x ≠ caller) : Guarded x t' ∧ balanceOf t x ≤ balanceOf t' x := by
  cases c with
  | transfer =>
      obtain ⟨hmoves, hallow⟩ := Standard.transfer_moves h
      refine ⟨fun y => ?_, hmoves.le fun hxs => absurd hxs hx⟩
      rw [hallow x y]
      exact hg y
  | transferFrom sender recipient amount =>
      obtain ⟨hmoves, hle, hallow⟩ := Standard.transferFrom_moves h
      refine ⟨fun y => Nat.le_zero.1 ((hallow x y).trans (hg y).le), hmoves.le fun hxs => ?_⟩
      rw [← hxs, hg caller] at hle
      exact Nat.le_zero.1 hle
  | approve => exact hg.allows (Standard.approve_allows h) hx
  | increaseAllowance => exact hg.allows (Standard.increaseAllowance_allows h) hx
  | decreaseAllowance => exact hg.allows (Standard.decreaseAllowance_allows h) hx

end ERC20

/-! ### A ledger -/

/-- A token that keeps its balances and allowances in two tables; its supply is the sum of the
balances. -/
structure Ledger where
  balances : Finmap fun _ : Address => ℕ
  allowances : Address → Address → ℕ

namespace Ledger

def balanceOf (t : Ledger) (x : Address) : ℕ := t.balances.weightAt id x

def totalSupply (t : Ledger) : ℕ := t.balances.total id

def setBalance (t : Ledger) (x : Address) (amount : ℕ) : Ledger :=
  { t with balances := t.balances.insert x amount }

def setAllowance (t : Ledger) (owner spender : Address) (amount : ℕ) : Ledger :=
  { t with
    allowances :=
      Function.update t.allowances owner (Function.update (t.allowances owner) spender amount) }

/-- An amount leaves the one balance and comes to the other. -/
def move (t : Ledger) (sender recipient : Address) (amount : ℕ) : Ledger :=
  let t := t.setBalance sender (t.balanceOf sender - amount)
  t.setBalance recipient (t.balanceOf recipient + amount)

def transfer (sender recipient : Address) (amount : ℕ) (t : Ledger) : Option Ledger :=
  if sender ≠ 0 ∧ recipient ≠ 0 ∧ amount ≤ t.balanceOf sender then
    some (t.move sender recipient amount)
  else none

def transferFrom (caller sender recipient : Address) (amount : ℕ) (t : Ledger) : Option Ledger :=
  if caller ≠ 0 ∧ sender ≠ 0 ∧ recipient ≠ 0 ∧ amount ≤ t.balanceOf sender ∧
      amount ≤ t.allowances sender caller then
    some ((t.move sender recipient amount).setAllowance sender caller
      (t.allowances sender caller - amount))
  else none

def approve (owner spender : Address) (amount : ℕ) (t : Ledger) : Option Ledger :=
  if owner ≠ 0 ∧ spender ≠ 0 then some (t.setAllowance owner spender amount) else none

def increaseAllowance (owner spender : Address) (addedValue : ℕ) (t : Ledger) : Option Ledger :=
  (checkedAdd (t.allowances owner spender) addedValue).bind fun amount =>
    t.approve owner spender amount

def decreaseAllowance (owner spender : Address) (subtractedValue : ℕ) (t : Ledger) :
    Option Ledger :=
  (checkedSub (t.allowances owner spender) subtractedValue).bind fun amount =>
    t.approve owner spender amount

def mint (account : Address) (amount : ℕ) (t : Ledger) : Option Ledger :=
  if account ≠ 0 ∧ t.totalSupply + amount < 2 ^ 256 then
    some (t.setBalance account (t.balanceOf account + amount))
  else none

def burn (account : Address) (amount : ℕ) (t : Ledger) : Option Ledger :=
  if account ≠ 0 ∧ amount ≤ t.balanceOf account then
    some (t.setBalance account (t.balanceOf account - amount))
  else none

instance : ERC20 Ledger where
  empty := { balances := ∅, allowances := fun _ _ => 0 }
  totalSupply := totalSupply
  balanceOf := balanceOf
  allowance := allowances
  transfer := transfer
  transferFrom := transferFrom
  approve := approve
  increaseAllowance := increaseAllowance
  decreaseAllowance := decreaseAllowance
  mint := mint
  burn := burn

/-! ### The laws -/

theorem balanceOf_setBalance (t : Ledger) (x : Address) (amount : ℕ) (y : Address) :
    (t.setBalance x amount).balanceOf y = if y = x then amount else t.balanceOf y :=
  Finmap.weightAt_insert id t.balances x y amount

theorem totalSupply_setBalance (t : Ledger) (x : Address) (amount : ℕ) :
    (t.setBalance x amount).totalSupply + t.balanceOf x = t.totalSupply + amount :=
  Finmap.total_insert id t.balances x amount

theorem moves_move {t : Ledger} {sender recipient : Address} {amount : ℕ}
    (h : amount ≤ t.balanceOf sender) :
    ERC20.Moves t (t.move sender recipient amount) sender recipient amount := by
  refine ⟨h, ?_, fun x => ?_⟩
  · have hout := totalSupply_setBalance t sender (t.balanceOf sender - amount)
    have hin := totalSupply_setBalance (t.setBalance sender (t.balanceOf sender - amount)) recipient
      ((t.setBalance sender (t.balanceOf sender - amount)).balanceOf recipient + amount)
    change (t.move sender recipient amount).totalSupply = t.totalSupply
    simp only [move]
    omega
  · change (t.move sender recipient amount).balanceOf x + _ = t.balanceOf x + _
    simp only [move, balanceOf_setBalance]
    by_cases hr : x = recipient <;> by_cases hs : x = sender <;> simp_all

theorem allows_setAllowance (t : Ledger) (owner spender : Address) (amount : ℕ) :
    ERC20.Allows t (t.setAllowance owner spender amount) owner := by
  refine ⟨rfl, fun _ => rfl, fun x hx y => ?_⟩
  change Function.update t.allowances owner _ x y = t.allowances x y
  rw [Function.update_of_ne hx]

theorem allows_approve {t t' : Ledger} {owner spender : Address} {amount : ℕ}
    (h : approve owner spender amount t = some t') : ERC20.Allows t t' owner := by
  rw [approve] at h
  split at h
  · rw [Option.some_inj] at h
    rw [← h]
    exact allows_setAllowance t owner spender amount
  · cases h

theorem isSome_ite {p : Prop} [Decidable p] {t : Ledger} :
    (if p then some t else none).isSome = true ↔ p := by
  split <;> simp_all

/-- **The ledger satisfies the laws.** -/
instance : ERC20.Standard Ledger where
  totalSupply_empty := rfl
  balanceOf_empty _ := rfl
  allowance_empty _ _ := rfl
  transfer_isSome _ _ _ _ := isSome_ite
  transfer_moves {t t' sender recipient amount} h := by
    change Ledger.transfer sender recipient amount t = some t' at h
    rw [Ledger.transfer, Option.ite_none_right_eq_some, Option.some_inj] at h
    obtain ⟨⟨-, -, henough⟩, rfl⟩ := h
    exact ⟨moves_move henough, fun _ _ => rfl⟩
  transferFrom_isSome _ _ _ _ _ := isSome_ite
  transferFrom_moves {t t' caller sender recipient amount} h := by
    change Ledger.transferFrom caller sender recipient amount t = some t' at h
    rw [Ledger.transferFrom, Option.ite_none_right_eq_some, Option.some_inj] at h
    obtain ⟨⟨-, -, -, henough, hallowed⟩, rfl⟩ := h
    have hmoves : ERC20.Moves t (t.move sender recipient amount) sender recipient amount :=
      moves_move henough
    refine ⟨⟨henough, hmoves.supply, hmoves.balance⟩, hallowed, fun x y => ?_⟩
    change Function.update t.allowances sender (Function.update (t.allowances sender) caller
      (t.allowances sender caller - amount)) x y ≤ t.allowances x y
    by_cases hx : x = sender
    · subst hx
      rw [Function.update_self]
      by_cases hy : y = caller
      · subst hy
        rw [Function.update_self]
        exact Nat.sub_le _ _
      · rw [Function.update_of_ne hy]
    · rw [Function.update_of_ne hx]
  approve_allows h := allows_approve h
  increaseAllowance_allows {t t' owner spender amount} h := by
    obtain ⟨amount', -, h'⟩ := Option.bind_eq_some_iff.1 h
    exact allows_approve h'
  decreaseAllowance_allows {t t' owner spender amount} h := by
    obtain ⟨amount', -, h'⟩ := Option.bind_eq_some_iff.1 h
    exact allows_approve h'
  mint_isSome _ _ _ := isSome_ite
  mint_eq {t t' account amount} h := by
    change Ledger.mint account amount t = some t' at h
    rw [Ledger.mint, Option.ite_none_right_eq_some, Option.some_inj] at h
    obtain ⟨-, rfl⟩ := h
    have hsupply := totalSupply_setBalance t account (t.balanceOf account + amount)
    refine ⟨?_, fun x => ?_, fun _ _ => rfl⟩
    · change (t.setBalance account (t.balanceOf account + amount)).totalSupply =
        t.totalSupply + amount
      omega
    · change (t.setBalance account (t.balanceOf account + amount)).balanceOf x = t.balanceOf x + _
      rw [balanceOf_setBalance]
      by_cases hx : x = account <;> simp [hx]
  burn_isSome _ _ _ := isSome_ite
  burn_eq {t t' account amount} h := by
    change Ledger.burn account amount t = some t' at h
    rw [Ledger.burn, Option.ite_none_right_eq_some, Option.some_inj] at h
    obtain ⟨⟨-, henough⟩, rfl⟩ := h
    have hsupply := totalSupply_setBalance t account (t.balanceOf account - amount)
    refine ⟨?_, fun x => ?_, fun _ _ => rfl⟩
    · change (t.setBalance account (t.balanceOf account - amount)).totalSupply + amount =
        t.totalSupply
      omega
    · change (t.setBalance account (t.balanceOf account - amount)).balanceOf x + _ = t.balanceOf x
      rw [balanceOf_setBalance]
      by_cases hx : x = account
      · rw [if_pos hx, if_pos hx, hx]
        omega
      · rw [if_neg hx, if_neg hx, Nat.add_zero]

end Ledger

end Synthetics
