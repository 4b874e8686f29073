import Arxium.Storage.Updates

/-!
# Circuits/Token — permissionless tokens

Tokens share the regulated assets' ledger but none of their gates.  An operation returns the asset
record as it leaves it, beside the balances it sets.
-/

namespace Arxium

open ReadProg

inductive TokenError
  | storage (e : StorageError)
  | notAToken (asset : AssetRef)
  | notCreator (asset : AssetRef) (creator sender : Address)
  | mintRenounced (asset : AssetRef)
  | zeroAmount
  | emptyFixedSupply
  | supplyCapExceeded (asset : AssetRef) (cap resulting amount : Nat)
  | supplyOverflow (asset : AssetRef)
  | insufficientBalance (asset : AssetRef) (holder : Address) (balance amount : Nat)
  | cannotPayCreateFee (creator : Address) (balance fee : Nat)
  | panic
deriving DecidableEq, Repr

instance : Errors TokenError := ⟨.storage, .panic⟩

/-- What an owner holds of an asset. -/
def balanceOf {ε : Type} [Errors ε] (asset : AssetRef) (owner : Address) : Read ε Nat := do
  return (← getRow (.assetBalance asset owner)).getD (0 : Nat)

/-- The largest `u32`. -/
def u32Max : Nat := 2 ^ 32 - 1

/-- The number of holders after one balance moved from `before` to `after`. -/
def Asset.countHolder (asset : Asset) (before after : Nat) : Asset :=
  if before = 0 ∧ after ≠ 0 then { asset with holderCount := min (asset.holderCount + 1) u32Max }
  else if before ≠ 0 ∧ after = 0 then { asset with holderCount := asset.holderCount - 1 }
  else asset

namespace Token

def requireToken (asset : Asset) : Read TokenError Unit :=
  .ensure (asset.assetClass = .token) (.notAToken asset.assetRef)

def requireCreator (asset : Asset) (sender : Address) : Read TokenError Unit :=
  .ensure (sender = asset.issuer) (.notCreator asset.assetRef asset.issuer sender)

/-- Supply check and credit shared by creation and minting. -/
def mintInto (asset : Asset) (recipient : Address) (amount : Nat) :
    Read TokenError (Asset × AssetBalanceUpdates) := do
  let resulting ← .orFail (checkedAdd asset.totalSupply amount) (.supplyOverflow asset.assetRef)
  .ensure (asset.maxSupply.all (resulting ≤ ·))
    (.supplyCapExceeded asset.assetRef (asset.maxSupply.getD 0) resulting amount)
  let before ← balanceOf asset.assetRef recipient
  let after ← .orFail (checkedAdd before amount) (.supplyOverflow asset.assetRef)
  return ({ asset with totalSupply := resulting }.countHolder before after,
    [((asset.assetRef, recipient), after)])

/-- Charges the creation fee to the treasury and mints the initial supply to the creator. -/
def applyCreate [Crypto] (asset : Asset) (initialSupply createFee : Nat) :
    Read TokenError (Asset × AccountUpdates × AssetBalanceUpdates) := do
  requireToken asset
  .ensure (!(initialSupply = 0 && asset.issuanceLocked)) .emptyFixedSupply
  let creator := asset.issuer
  let (asset, assets) ← if 0 < initialSupply then mintInto asset creator initialSupply
    else pure (asset, [])
  if 0 < createFee then
    let payer ← getAccount creator
    let left ← .orFail (checkedSub payer.balance createFee)
      (.cannotPayCreateFee creator payer.balance createFee)
    let sink ← getAccount treasuryAccount
    return (asset, [(creator, { payer with balance := left }),
      (treasuryAccount, { sink with balance := saturatingAdd sink.balance createFee })], assets)
  else return (asset, [], assets)

def applyMint (asset : Asset) (sender recipient : Address) (amount : Nat) :
    Read TokenError (Asset × AssetBalanceUpdates) := do
  requireToken asset
  requireCreator asset sender
  .ensure (!asset.issuanceLocked) (.mintRenounced asset.assetRef)
  .ensure (amount ≠ 0) .zeroAmount
  mintInto asset recipient amount

/-- A plain transfer; to oneself it changes nothing. -/
def applyTransfer (asset : Asset) (sender recipient : Address) (amount : Nat) :
    Read TokenError (Asset × AssetBalanceUpdates) := do
  requireToken asset
  .ensure (amount ≠ 0) .zeroAmount
  let fromBalance ← balanceOf asset.assetRef sender
  .ensure (amount ≤ fromBalance) (.insufficientBalance asset.assetRef sender fromBalance amount)
  if sender = recipient then return (asset, [])
  let toBalance ← balanceOf asset.assetRef recipient
  let toAfter ← .orFail (checkedAdd toBalance amount) (.supplyOverflow asset.assetRef)
  return ((asset.countHolder fromBalance (fromBalance - amount)).countHolder toBalance toAfter,
    [((asset.assetRef, sender), fromBalance - amount), ((asset.assetRef, recipient), toAfter)])

def applyBurn (asset : Asset) (holder : Address) (amount : Nat) :
    Read TokenError (Asset × AssetBalanceUpdates) := do
  requireToken asset
  .ensure (amount ≠ 0) .zeroAmount
  let balance ← balanceOf asset.assetRef holder
  .ensure (amount ≤ balance) (.insufficientBalance asset.assetRef holder balance amount)
  return ({ asset with totalSupply := asset.totalSupply - amount }.countHolder balance
      (balance - amount), [((asset.assetRef, holder), balance - amount)])

def applyRenounceMint (asset : Asset) (sender : Address) : Read TokenError Asset := do
  requireToken asset
  requireCreator asset sender
  return { asset with issuanceLocked := true }

end Token

end Arxium
