import Arxium.Circuits.Rwa

/-!
# Circuits/CorporateActions — snapshots, distributions, redemptions and splits

One signed action that moves many balances.  Each move reads through the moves staged before it; at
the end the staged rows are decoded back into balances, which fails on a row whose names do not
parse.
-/

namespace Arxium

namespace Rwa

open ReadProg Writes

variable [Crypto]

/-- Moves staged so far, and what they left of the asset and of the holders' locks. -/
structure Staging where
  asset : Asset
  balances : AssetBalanceUpdates := []
  states : HolderStateUpdates := []

/-- A step of a corporate action, reading through what is staged. -/
def Staging.through {α : Type} (s : Staging) (p : Read RwaError α) : Read RwaError α :=
  staged (assetBalanceWrites s.balances) p

/-- `into_updates`: every staged row decodes back to its asset and owner. -/
def intoUpdates (balances : AssetBalanceUpdates) : Read RwaError AssetBalanceUpdates :=
  if balances.all fun p => (AssetRef.parse p.1.1.text).isOk && (Address.parse p.1.2.text).isOk then
    return balances
  else .fail (.storage .corruptedMeta)

/-- The positive balances of the listed holders other than the issuer, and their sum. -/
def capTable (asset : Asset) : List Address → Nat → Read RwaError (Nat × List (Address × Nat))
  | [], total => return (total, [])
  | holder :: rest, total => do
    if holder = asset.issuer then capTable asset rest total
    else
      let balance ← balanceOf asset.assetRef holder
      if balance = 0 then capTable asset rest total
      else
        let total ← credit asset.assetRef total balance
        let (total, holders) ← capTable asset rest total
        return (total, (holder, balance) :: holders)

/-- `apply_snapshot`: the cap table as of now, from the holders index. -/
def applySnapshot (asset : Asset) (currentHeight : Nat) : Read RwaError Asset := do
  let index : List Address := (← getRow (.assetHolders asset.assetRef)).getD []
  let (total, holders) ← capTable asset index 0
  let sorted := holders.insertionSort fun a b => a.1 < b.1 ∨ a.1 = b.1 ∧ a.2 ≤ b.2
  return { asset with snapshot := some ⟨currentHeight, total, sorted⟩ }

/-- The floor of a holder's share of `total`. -/
def proRata (asset : AssetRef) (table : CapTable) (holding total : Nat) : Read RwaError Nat := do
  let product ← .orFail (checkedMul holding total) (.shareOverflow asset)
  return product / table.total

/-- One payment of a distribution.  A holder the payout asset refuses is passed over; any other
failure ends the action. -/
def distributeOne (issuer : Address) (table : CapTable) (total currentHeight : Nat) (s : Staging)
    (entry : Address × Nat) : Read RwaError Staging := do
  let share ← proRata s.asset.assetRef table entry.2 total
  if share = 0 then return s
  match ← (s.through (applyCompliantMove s.asset issuer entry.1 share currentHeight)).attempt with
  | .ok (asset, updates) => return { s with asset := asset, balances := s.balances ++ updates }
  | .error e => if e.ineligibleParty = some entry.1 then return s else .fail e

def applyDistribution (payout : Asset) (issuer : Address) (table : CapTable)
    (total currentHeight : Nat) : Read RwaError (Asset × AssetBalanceUpdates) := do
  let s ← table.holders.foldlM (distributeOne issuer table total currentHeight) { asset := payout }
  return (s.asset, ← intoUpdates s.balances)

/-- Adds a move to the staging, and the lock it leaves the holder with. -/
def Staging.settle (s : Staging) (holder : Address) (moved : Asset × AssetBalanceUpdates)
    (numerator denominator currentHeight : Nat) : Read RwaError Staging := do
  let s := { s with asset := moved.1, balances := s.balances ++ moved.2 }
  let after ← s.through (balanceOf s.asset.assetRef holder)
  let state ← adjustedLock s.asset holder after numerator denominator currentHeight
  return { s with
    states := s.states ++ state.elim [] fun h => [((s.asset.assetRef, holder), h)] }

/-- Pulls one snapshot balance back to the issuer. -/
def redeemOne (currentHeight : Nat) (s : Staging) (entry : Address × Nat) :
    Read RwaError Staging := do
  let moved ← s.through (applyForcedTransfer s.asset entry.1 s.asset.issuer entry.2)
  s.settle entry.1 moved 1 1 currentHeight

def applyRedemption (asset : Asset) (table : CapTable) (currentHeight : Nat) :
    Read RwaError (Asset × AssetBalanceUpdates × HolderStateUpdates) := do
  let s ← table.holders.foldlM (redeemOne currentHeight) { asset := asset }
  return ({ s.asset with snapshot := none }, ← intoUpdates s.balances, s.states)

/-- Scales one snapshot holding: growth is minted to the holder, shrinkage goes to the issuer. -/
def splitOne (numerator denominator currentHeight : Nat) (s : Staging) (entry : Address × Nat) :
    Read RwaError Staging := do
  let product ← .orFail (checkedMul entry.2 numerator) (.shareOverflow s.asset.assetRef)
  let scaled := product / denominator
  let moved ← if entry.2 < scaled then
      s.through (applyIssueTo s.asset entry.1 (scaled - entry.2) currentHeight)
    else s.through (applyForcedTransfer s.asset entry.1 s.asset.issuer (entry.2 - scaled))
  s.settle entry.1 moved numerator denominator currentHeight

def applySplit (asset : Asset) (table : CapTable) (numerator denominator currentHeight : Nat) :
    Read RwaError (Asset × AssetBalanceUpdates × HolderStateUpdates) := do
  let s ← table.holders.foldlM (splitOne numerator denominator currentHeight) { asset := asset }
  return ({ s.asset with snapshot := none }, ← intoUpdates s.balances, s.states)

end Rwa

end Arxium
