/-
**The contracts of the synthetic assets.**

`FinalProject/Part2/contracts`: `EUSD` is the collateral token, an `sAsset` is a synthetic asset that
accounts with a role may mint and burn, and `Mint` keeps the positions.  A position is opened by depositing
collateral, against which an amount of an asset is minted for its owner.

A call that reverts is `none` and changes nothing.  The calls of a price feed cannot change anything either;
what they return is drawn with the transaction, for each address, with `none` for an address that does not
answer.  The word a price feed returns is an `int256`, which `Mint` converts to a `uint256`.

The address of `Mint` and the tokens deployed are fixed, and the roles of each asset stay what they are.

Main definitions:

* `Synthetics.EUSD.constructor`, `Synthetics.SAsset`, `Synthetics.SAsset.mint`,
  `Synthetics.SAsset.burn`;
* `Synthetics.Mint`, `Synthetics.World` — the storage of `Mint`, and of all contracts;
* `Synthetics.World.openPosition`, `Synthetics.World.closePosition`, `Synthetics.World.deposit`,
  `Synthetics.World.withdraw`, `Synthetics.World.mint`, `Synthetics.World.burn`;
* `Synthetics.Tx`, `Synthetics.World.exec`, `Synthetics.World.Run` — transactions and their runs;
* `Synthetics.World.Deployed` — the contracts as they are deployed.
-/

import BitcoinClient.Erc20
import BitcoinClient.Lts
import Mathlib.Algebra.BigOperators.Group.Finset.Basic
import Mathlib.Data.Finset.Range

set_option relaxedAutoImplicit false
set_option autoImplicit false

namespace Synthetics

/-! ### The tokens -/

section Tokens

variable {T : Type} [ERC20 T]

def EUSD.decimals : ℕ := 8

/-- The deployer gets all of the existing tokens. -/
def EUSD.constructor (deployer : Address) : Option T :=
  ERC20.mint deployer (100000000 * 10 ^ EUSD.decimals) ERC20.empty

/-- A synthetic asset: the token, and the accounts with the roles. -/
structure SAsset (T : Type) where
  token : T
  minterRole : Address → Bool
  burnerRole : Address → Bool

namespace SAsset

def decimals : ℕ := 8

/-- The token after the constructor: the deployer gets the initial supply. -/
def constructor (deployer : Address) (initialSupply : ℕ) : Option T :=
  (checkedMul initialSupply (10 ^ decimals)).bind fun amount =>
    ERC20.mint deployer amount ERC20.empty

def mint (caller toAddr : Address) (amount : ℕ) (x : SAsset T) : Option (SAsset T) := do
  require (x.minterRole caller = true)
  let token ← ERC20.mint toAddr amount x.token
  some { x with token }

def burn (caller fromAddr : Address) (amount : ℕ) (x : SAsset T) : Option (SAsset T) := do
  require (x.burnerRole caller = true)
  let token ← ERC20.burn fromAddr amount x.token
  some { x with token }

def call (caller : Address) (c : TokenCall) (x : SAsset T) : Option (SAsset T) := do
  let token ← ERC20.call caller c x.token
  some { x with token }

section Calls

variable {caller account : Address} {amount : ℕ} {x x' : SAsset T}

theorem mint_eq_some : x.mint caller account amount = some x' ↔ x.minterRole caller = true ∧
    ∃ token, ERC20.mint account amount x.token = some token ∧ x' = { x with token } := by
  simp only [mint, Option.bind_eq_bind, Option.bind_eq_some_iff, require_eq_some, exists_const,
    Option.some.injEq, eq_comm (a := x')]

theorem burn_eq_some : x.burn caller account amount = some x' ↔ x.burnerRole caller = true ∧
    ∃ token, ERC20.burn account amount x.token = some token ∧ x' = { x with token } := by
  simp only [burn, Option.bind_eq_bind, Option.bind_eq_some_iff, require_eq_some, exists_const,
    Option.some.injEq, eq_comm (a := x')]

theorem call_eq_some {c : TokenCall} : x.call caller c = some x' ↔
    ∃ token, ERC20.call caller c x.token = some token ∧ x' = { x with token } := by
  simp only [call, Option.bind_eq_bind, Option.bind_eq_some_iff, Option.some.injEq,
    eq_comm (a := x')]

end Calls

end SAsset

end Tokens

/-! ### The storage -/

structure Asset where
  token : Address
  minCollateralRatio : ℕ
  priceFeed : Address
  deriving DecidableEq

structure Position where
  idx : ℕ
  owner : Address
  collateralAmount : ℕ
  assetToken : Address
  assetAmount : ℕ
  deriving DecidableEq

/-- What is stored where nothing has been written, or where it has been deleted. -/
def Asset.empty : Asset := { token := 0, minCollateralRatio := 0, priceFeed := 0 }

def Position.empty : Position :=
  { idx := 0, owner := 0, collateralAmount := 0, assetToken := 0, assetAmount := 0 }

structure Mint where
  owner : Address
  assetMap : Address → Asset
  currentPositionIndex : ℕ
  idxPositionMap : ℕ → Position

def Mint.constructor (deployer : Address) : Mint where
  owner := deployer
  assetMap _ := .empty
  currentPositionIndex := 0
  idxPositionMap _ := .empty

/-- The state of all contracts; `sAssets` are the synthetic assets, by their address. -/
structure World (T : Type) where
  minting : Mint
  eusd : T
  sAssets : Address → Option (SAsset T)

/-- The answers of the price feeds. -/
abbrev Prices := Address → Option (BitVec 256)

namespace World

variable {T : Type} [ERC20 T] (mintAddr : Address)

def position (w : World T) (i : ℕ) : Position := w.minting.idxPositionMap i

def setEusd (w : World T) (eusd : T) : World T := { w with eusd }

def setPosition (w : World T) (i : ℕ) (p : Position) : World T :=
  { w with minting :=
      { w.minting with idxPositionMap := Function.update w.minting.idxPositionMap i p } }

def setCurrentPositionIndex (w : World T) (i : ℕ) : World T :=
  { w with minting := { w.minting with currentPositionIndex := i } }

/-- A function of the asset at an address is called; without an asset there the call reverts. -/
def withAsset (w : World T) (a : Address) (f : SAsset T → Option (SAsset T)) :
    Option (World T) := do
  let x ← w.sAssets a
  let x ← f x
  some { w with sAssets := Function.update w.sAssets a (some x) }

section Updates

omit [ERC20 T]

variable (w : World T) (eusd : T) (i j : ℕ) (p : Position)

@[simp] theorem minting_setEusd : (w.setEusd eusd).minting = w.minting := rfl

@[simp] theorem eusd_setEusd : (w.setEusd eusd).eusd = eusd := rfl

@[simp] theorem sAssets_setEusd : (w.setEusd eusd).sAssets = w.sAssets := rfl

@[simp] theorem position_setEusd : (w.setEusd eusd).position i = w.position i := rfl

@[simp] theorem eusd_setPosition : (w.setPosition i p).eusd = w.eusd := rfl

@[simp] theorem sAssets_setPosition : (w.setPosition i p).sAssets = w.sAssets := rfl

@[simp] theorem currentPositionIndex_setPosition :
    (w.setPosition i p).minting.currentPositionIndex = w.minting.currentPositionIndex := rfl

@[simp] theorem assetMap_setPosition :
    (w.setPosition i p).minting.assetMap = w.minting.assetMap := rfl

@[simp] theorem position_setPosition_self : (w.setPosition i p).position i = p :=
  Function.update_self _ _ _

variable {i j} in
theorem position_setPosition_of_ne (h : j ≠ i) :
    (w.setPosition i p).position j = w.position j := Function.update_of_ne h _ _

@[simp] theorem eusd_setCurrentPositionIndex : (w.setCurrentPositionIndex i).eusd = w.eusd := rfl

@[simp] theorem sAssets_setCurrentPositionIndex :
    (w.setCurrentPositionIndex i).sAssets = w.sAssets := rfl

@[simp] theorem currentPositionIndex_setCurrentPositionIndex :
    (w.setCurrentPositionIndex i).minting.currentPositionIndex = i := rfl

@[simp] theorem assetMap_setCurrentPositionIndex :
    (w.setCurrentPositionIndex i).minting.assetMap = w.minting.assetMap := rfl

@[simp] theorem position_setCurrentPositionIndex :
    (w.setCurrentPositionIndex i).position j = w.position j := rfl

end Updates

/-! ### The functions of `Mint` -/

def registerAsset (sender assetToken : Address) (minCollateralRatio : ℕ) (priceFeed : Address)
    (w : World T) : Option (World T) := do
  require (sender = w.minting.owner)
  require (assetToken ≠ 0)
  require (1 ≤ minCollateralRatio)
  require ((w.minting.assetMap assetToken).token = 0)
  let asset := { token := assetToken, minCollateralRatio, priceFeed }
  some { w with minting :=
    { w.minting with assetMap := Function.update w.minting.assetMap assetToken asset } }

def getMintAmount (prices : Prices) (collateralAmount : ℕ) (assetToken : Address)
    (collateralRatio : ℕ) (w : World T) : Option ℕ := do
  let relativeAssetPrice ← prices (w.minting.assetMap assetToken).priceFeed
  let _ ← w.sAssets assetToken
  let scaled ← checkedMul collateralAmount (10 ^ SAsset.decimals)
  let quotient ← checkedDiv scaled relativeAssetPrice.toNat
  checkedDiv quotient collateralRatio

def checkRegistered (assetToken : Address) (w : World T) : Bool :=
  (w.minting.assetMap assetToken).token = assetToken

def openPosition (sender : Address) (prices : Prices) (collateralAmount : ℕ) (assetToken : Address)
    (collateralRatio : ℕ) (w : World T) : Option (World T) := do
  require (w.checkRegistered assetToken = true)
  require ((w.minting.assetMap assetToken).minCollateralRatio ≤ collateralRatio)
  -- transfer collateral amount to the contract
  let eusd ← ERC20.transferFrom mintAddr sender mintAddr collateralAmount w.eusd
  let w := w.setEusd eusd
  -- mint the sender asset
  let assetAmount ← w.getMintAmount prices collateralAmount assetToken collateralRatio
  let assetAddr := (w.minting.assetMap assetToken).token
  let w ← w.withAsset assetAddr (SAsset.mint mintAddr sender assetAmount)
  -- insert into the position map
  let idx := w.minting.currentPositionIndex
  let w := w.setPosition idx { idx, owner := sender, collateralAmount, assetToken, assetAmount }
  let next ← checkedAdd idx 1
  some (w.setCurrentPositionIndex next)

def closePosition (sender : Address) (i : ℕ) (w : World T) : Option (World T) := do
  require (sender = (w.position i).owner)
  let eusd ← ERC20.transfer mintAddr sender (w.position i).collateralAmount w.eusd
  let w := w.setEusd eusd
  let w ← w.withAsset (w.position i).assetToken
    (SAsset.burn mintAddr (w.position i).owner (w.position i).assetAmount)
  some (w.setPosition i .empty)

def deposit (sender : Address) (i collateralAmount : ℕ) (w : World T) : Option (World T) := do
  require (sender = (w.position i).owner)
  let eusd ← ERC20.transferFrom mintAddr sender mintAddr collateralAmount w.eusd
  let w := w.setEusd eusd
  let amount ← checkedAdd (w.position i).collateralAmount collateralAmount
  some (w.setPosition i { w.position i with collateralAmount := amount })

def withdraw (sender : Address) (i withdrawAmount : ℕ) (w : World T) : Option (World T) := do
  require (sender = (w.position i).owner)
  let share ← checkedDiv withdrawAmount (w.position i).assetAmount
  let rest ← checkedSub (w.position i).collateralAmount share
  require ((w.minting.assetMap (w.position i).assetToken).minCollateralRatio ≤ rest)
  let eusd ← ERC20.transfer mintAddr sender withdrawAmount w.eusd
  let w := w.setEusd eusd
  let amount ← checkedSub (w.position i).collateralAmount withdrawAmount
  some (w.setPosition i { w.position i with collateralAmount := amount })

def mint (sender : Address) (i mintAmount : ℕ) (w : World T) : Option (World T) := do
  require (sender = (w.position i).owner)
  let total ← checkedAdd (w.position i).assetAmount mintAmount
  let ratio ← checkedDiv (w.position i).collateralAmount total
  require ((w.minting.assetMap (w.position i).assetToken).minCollateralRatio ≤ ratio)
  let w ← w.withAsset (w.position i).assetToken (SAsset.mint mintAddr sender mintAmount)
  let amount ← checkedAdd (w.position i).assetAmount mintAmount
  some (w.setPosition i { w.position i with assetAmount := amount })

def burn (sender : Address) (i burnAmount : ℕ) (w : World T) : Option (World T) := do
  require (sender = (w.position i).owner)
  let w ← w.withAsset (w.position i).assetToken (SAsset.burn mintAddr sender burnAmount)
  let amount ← checkedSub (w.position i).assetAmount burnAmount
  some (w.setPosition i { w.position i with assetAmount := amount })

end World

/-! ### Transactions -/

/-- The calls that change a position. -/
inductive PositionCall
  | openPosition (collateralAmount : ℕ) (assetToken : Address) (collateralRatio : ℕ)
  | closePosition (positionIndex : ℕ)
  | deposit (positionIndex collateralAmount : ℕ)
  | withdraw (positionIndex withdrawAmount : ℕ)
  | mint (positionIndex mintAmount : ℕ)
  | burn (positionIndex burnAmount : ℕ)
  deriving DecidableEq

/-- The calls of the contracts. -/
inductive Call
  | registerAsset (assetToken : Address) (minCollateralRatio : ℕ) (priceFeed : Address)
  | position (call : PositionCall)
  | eusd (call : TokenCall)
  | sAsset (token : Address) (call : TokenCall)
  | sAssetMint (token toAddr : Address) (amount : ℕ)
  | sAssetBurn (token fromAddr : Address) (amount : ℕ)
  deriving DecidableEq

/-- An account that can send a transaction: not the zero address, and not `Mint`, which makes no calls of
its own. -/
structure Account (mintAddr : Address) where
  address : Address
  address_ne_zero : address ≠ 0
  address_ne_mint : address ≠ mintAddr

/-- A transaction, with the answers of the price feeds during it. -/
structure Tx (mintAddr : Address) where
  sender : Account mintAddr
  call : Call
  prices : Prices

namespace World

variable {T : Type} [ERC20 T] {mintAddr : Address}

/-- A call that changes a position; `none` when it reverts. -/
def callPosition (s : Account mintAddr) (prices : Prices) :
    PositionCall → World T → Option (World T)
  | .openPosition collateralAmount assetToken collateralRatio =>
    openPosition mintAddr s.address prices collateralAmount assetToken collateralRatio
  | .closePosition i => closePosition mintAddr s.address i
  | .deposit i collateralAmount => deposit mintAddr s.address i collateralAmount
  | .withdraw i withdrawAmount => withdraw mintAddr s.address i withdrawAmount
  | .mint i mintAmount => mint mintAddr s.address i mintAmount
  | .burn i burnAmount => burn mintAddr s.address i burnAmount

/-- A call of one of the contracts; `none` when it reverts. -/
def call (s : Account mintAddr) (prices : Prices) (w : World T) : Call → Option (World T)
  | .registerAsset assetToken minCollateralRatio priceFeed =>
    w.registerAsset s.address assetToken minCollateralRatio priceFeed
  | .position c => w.callPosition s prices c
  | .eusd c => (ERC20.call s.address c w.eusd).map w.setEusd
  | .sAsset a c => w.withAsset a (SAsset.call s.address c)
  | .sAssetMint a toAddr amount => w.withAsset a (SAsset.mint s.address toAddr amount)
  | .sAssetBurn a fromAddr amount => w.withAsset a (SAsset.burn s.address fromAddr amount)

/-- **A transaction**, which changes nothing when it reverts. -/
def exec (w : World T) (tx : Tx mintAddr) : World T := (w.call tx.sender tx.prices tx.call).getD w

/-- The runs of the contracts: any transactions one after the other. -/
abbrev Run : World T → List (World T × Tx mintAddr) → World T → Prop :=
  Lts.Run fun w tx w' => w' = w.exec tx

/-- A list of transactions is a run. -/
theorem exists_run (txs : List (Tx mintAddr)) : ∀ w : World T,
    ∃ tr : List (World T × Tx mintAddr), Run w tr (txs.foldl exec w) := by
  induction txs with
  | nil => exact fun w => ⟨[], .nil⟩
  | cons tx txs ih =>
      intro w
      obtain ⟨tr, hrun⟩ := ih (w.exec tx)
      exact ⟨(w, tx) :: tr, Lts.Run.trans (.single rfl) hrun⟩

/-- The contracts as they are deployed: the tokens after their constructors, and `Mint` without assets and
positions. -/
structure Deployed (mintAddr : Address) (w : World T) : Prop where
  address_ne_zero : mintAddr ≠ 0
  eusd : ∃ deployer, EUSD.constructor deployer = some w.eusd
  sAssets : ∀ a x, w.sAssets a = some x →
    ∃ deployer initialSupply, SAsset.constructor deployer initialSupply = some x.token
  minting : ∃ deployer, w.minting = Mint.constructor deployer

/-- The positions that exist. -/
def existing (w : World T) : Finset ℕ :=
  (Finset.range w.minting.currentPositionIndex).filter fun i => (w.position i).owner ≠ 0

/-- The sum of the collateral of all existing positions. -/
def totalCollateral (w : World T) : ℕ := ∑ i ∈ w.existing, (w.position i).collateralAmount

/-- The sum of the amounts of an asset in all existing positions. -/
def totalAssetAmount (w : World T) (a : Address) : ℕ :=
  ∑ i ∈ w.existing.filter fun i => (w.position i).assetToken = a, (w.position i).assetAmount

end World

/-! ### A small deployment -/

/-- `Mint` at the address 100 and one asset at the address 200, all deployed by the account 1. -/
def sampleWorld : World Ledger where
  minting := Mint.constructor 1
  eusd := (EUSD.constructor 1).getD ERC20.empty
  sAssets a :=
    if a = 200 then
      some
        { token := (SAsset.constructor 1 0).getD ERC20.empty
          minterRole := fun x => x = 100
          burnerRole := fun x => x = 100 }
    else none

theorem deployed_sampleWorld : World.Deployed 100 sampleWorld where
  address_ne_zero := by decide
  eusd := ⟨1, rfl⟩
  sAssets a x hx := by
    rw [sampleWorld, Option.ite_none_right_eq_some, Option.some_inj] at hx
    obtain ⟨-, rfl⟩ := hx
    exact ⟨1, 0, rfl⟩
  minting := ⟨1, rfl⟩

/-- A transaction of the account `x + 1`, with one price feed, at the address 300. -/
def sampleTx (x : Fin 10) (call : Call) : Tx 100 where
  sender :=
    { address := BitVec.ofNat 160 (x + 1)
      address_ne_zero := by revert x; decide
      address_ne_mint := by revert x; decide }
  call := call
  prices a := if a = 300 then some 100000000000 else none

/-- The asset is registered, and the account 1 opens a position. -/
def sampleTxs : List (Tx 100) :=
  [sampleTx 0 (.registerAsset 200 2 300), sampleTx 0 (.eusd (.approve 100 300000000000)),
    sampleTx 0 (.position (.openPosition 300000000000 200 2))]

/-- The account 1 opens a position with two units of collateral, too little for any debt. -/
def dustTxs : List (Tx 100) :=
  [sampleTx 0 (.registerAsset 200 2 300), sampleTx 0 (.eusd (.approve 100 2)),
    sampleTx 0 (.position (.openPosition 2 200 2))]

end Synthetics
