import Arxium.Circuits.Token
import Arxium.Circuits.Identity

/-!
# Circuits/Rwa — regulated assets

Issuance, compliant and forced transfers, locks, recovery and the corporate actions.  Who may hold
an asset is `checkParty`; what one credit may raise a holder to is `checkRecipient`.  The corporate
actions make several moves in one action, each reading through the ones before it (`staged`).
-/

namespace Arxium

open ReadProg Writes

inductive RwaError
  | storage (e : StorageError)
  | notIssuer (issuer sender : Address)
  | invalidNonce (sender : Address) (expected got : Nat)
  | notCompliant (address : Address)
  | insufficientBalance (asset : AssetRef) (sender : Address) (balance amount : Nat)
  | supplyCapExceeded (asset : AssetRef) (cap resulting amount : Nat)
  | supplyOverflow (asset : AssetRef)
  | assetFrozen (asset : AssetRef)
  | holderFrozen (asset : AssetRef) (address : Address)
  | amountLocked (asset : AssetRef) (sender : Address) (balance locked available amount : Nat)
  | lockExceedsBalance (asset : AssetRef) (holder : Address) (balance locked amount : Nat)
  | unlockExceedsLocked (asset : AssetRef) (holder : Address) (locked amount : Nat)
  | issuanceLocked (asset : AssetRef)
  | burnExceedsBalance (asset : AssetRef) (balance amount : Nat)
  | burnExceedsSupply (asset : AssetRef) (totalSupply amount : Nat)
  | missingClaim (asset : AssetRef) (address : Address) (topic : ClaimTopic)
  | jurisdictionNotAllowed (asset : AssetRef) (address : Address)
      (jurisdiction : Option CountryCode)
  | attestationExpired (asset : AssetRef) (address : Address) (age maxAge : Nat)
  | holderCapReached (asset : AssetRef) (address : Address) (holders : Nat)
  | holderLimitExceeded (asset : AssetRef) (address : Address) (resulting limit : Nat)
  | shareOverflow (asset : AssetRef)
  | attestedThisBlock (address : Address)
  | panic
deriving DecidableEq, Repr

instance : Errors RwaError := ⟨.storage, .panic⟩

/-- The party a compliance error is about: what a distribution withholds on. -/
def RwaError.ineligibleParty : RwaError → Option Address
  | notCompliant a | holderFrozen _ a | missingClaim _ a _ | jurisdictionNotAllowed _ a _
  | attestationExpired _ a _ _ | holderCapReached _ a _ | holderLimitExceeded _ a _ _ => some a
  | _ => none

def claimProofTtlSecs : Nat := 90 * 86400

def maxAssetHolders : Nat := 1000

namespace Rwa

def credit (asset : AssetRef) (balance amount : Nat) : Read RwaError Nat :=
  .orFail (checkedAdd balance amount) (.supplyOverflow asset)

/-- The holder count follows one balance; the issuer is not a holder. -/
def trackHolder (asset : Asset) (who : Address) (before after : Nat) : Asset :=
  if who = asset.issuer then asset else asset.countHolder before after

/-- The stored state of a holder. -/
def rawHolderState {ε : Type} [Errors ε] (asset : AssetRef) (holder : Address) :
    Read ε HolderState := do
  return (← getRow (.assetHolderState asset holder)).getD {}

/-- A holder's state as it binds now: an expired lock is no lock. -/
def holderState {ε : Type} [Errors ε] (asset : Asset) (holder : Address) (currentHeight : Nat) :
    Read ε HolderState := do
  let state ← rawHolderState asset.assetRef holder
  if state.lockExpiresAt.any (· ≤ currentHeight) then
    return { state with frozenAmount := 0, lockExpiresAt := none }
  else return state

/-- Whether an accepted claim proof still vouches for `party`. -/
def claimProofLive {ε : Type} [Errors ε] (party : Address) (entry : Option AccountEntry)
    (state : HolderState) (currentHeight : Nat) : Read ε Bool := do
  match state.claimVerifiedAt with
  | none => return false
  | some verifiedAt =>
    if (entry.bind (·.attestedAt)).all (verifiedAt ≤ ·) then return false
    else if !(← isAttested party) then return false
    else
      let interval := max (← getParams).blockIntervalSecs 1
      return currentHeight < saturatingAdd64 verifiedAt (claimProofTtlSecs / interval)

/-- The claims half of `check_party`, for a party without a live proof. -/
def checkClaims (asset : Asset) (party : Address) (entry : Option AccountEntry) :
    Read RwaError Unit := do
  if !asset.requiredClaims.isEmpty then
    .ensure (← isAttested party) (.notCompliant party)
    let held := entry.elim [] (·.claims)
    match asset.requiredClaims.find? fun t => !held.contains t with
    | some missing => .fail (.missingClaim asset.assetRef party missing)
    | none => return ()
  else if asset.complianceRequired then
    .ensure (← isAttested party) (.notCompliant party)

/-- An asset with an age limit takes no older attestation, and none of unknown age. -/
def checkAge (asset : Asset) (party : Address) (entry : Option AccountEntry)
    (currentHeight : Nat) : Read RwaError Unit :=
  match asset.maxAttestationAge with
  | none => return ()
  | some maxAge =>
    match entry.bind (·.attestedAt) with
    | none => .fail (.attestationExpired asset.assetRef party u64Max maxAge)
    | some at_ =>
      .ensure (currentHeight - at_ ≤ maxAge)
        (.attestationExpired asset.assetRef party (currentHeight - at_) maxAge)

/-- Whether one party may hold the asset; the same check for sender and recipient. -/
def checkParty (asset : Asset) (party : Address) (currentHeight : Nat) : Read RwaError Unit := do
  let entry : Option AccountEntry ← getRow (.account party)
  let state ← holderState asset party currentHeight
  .ensure (!state.frozen) (.holderFrozen asset.assetRef party)
  let proven ← if asset.privateClaims then claimProofLive party entry state currentHeight
    else pure false
  if !proven then checkClaims asset party entry
  checkAge asset party entry currentHeight
  match asset.allowedJurisdictions with
  | none => return ()
  | some allowed =>
    if proven then return ()
    else
      let held := entry.bind (·.jurisdiction)
      .ensure (held.any allowed.contains) (.jurisdictionNotAllowed asset.assetRef party held)

/-- What is left of `checkParty` once it is known whether a live proof stands in for the claims. -/
def checkPartyRest (asset : Asset) (party : Address) (currentHeight : Nat) (entry : Option AccountEntry)
    (proven : Bool) : Read RwaError Unit := do
  checkAge asset party entry currentHeight
  match asset.allowedJurisdictions with
  | none => return ()
  | some allowed =>
    if proven then return ()
    else
      let held := entry.bind (·.jurisdiction)
      .ensure (held.any allowed.contains) (.jurisdictionNotAllowed asset.assetRef party held)

/-- Records an accepted claim proof, unless the attestation is from this very block. -/
def applyRecordClaimProof (asset : Asset) (holder : Address) (currentHeight : Nat) :
    Read RwaError HolderStateUpdates := do
  let entry : Option AccountEntry ← getRow (.account holder)
  .ensure (!(entry.bind (·.attestedAt)).any (currentHeight ≤ ·)) (.attestedThisBlock holder)
  let state ← rawHolderState asset.assetRef holder
  return [((asset.assetRef, holder), { state with claimVerifiedAt := some currentHeight })]

/-- The recipient side of a credit; returns the recipient's balance. -/
def checkRecipient (asset : Asset) (recipient : Address) (amount currentHeight : Nat) :
    Read RwaError Nat := do
  checkParty asset recipient currentHeight
  let balance ← balanceOf asset.assetRef recipient
  if recipient = asset.issuer then return balance
  let cap := asset.maxHolders.elim maxAssetHolders (min · maxAssetHolders)
  .ensure (!(balance = 0 && 0 < amount && cap ≤ asset.holderCount))
    (.holderCapReached asset.assetRef recipient asset.holderCount)
  match asset.maxBalancePerHolder with
  | none => return balance
  | some limit =>
    let resulting ← credit asset.assetRef balance amount
    .ensure (resulting ≤ limit) (.holderLimitExceeded asset.assetRef recipient resulting limit)
    return balance

/-- The supply after issuing `amount`, within the cap. -/
def issuedSupply (asset : Asset) (amount : Nat) : Read RwaError Nat := do
  let resulting ← credit asset.assetRef asset.totalSupply amount
  .ensure (asset.maxSupply.all (resulting ≤ ·))
    (.supplyCapExceeded asset.assetRef (asset.maxSupply.getD 0) resulting amount)
  return resulting

/-- Mints into the issuer's own balance and consumes its nonce. -/
def applyIssue (asset : Asset) (sender : Address) (nonce amount : Nat) :
    Read RwaError (Asset × AccountUpdates × AssetBalanceUpdates) := do
  .ensure (sender = asset.issuer) (.notIssuer asset.issuer sender)
  .ensure (!asset.issuanceLocked) (.issuanceLocked asset.assetRef)
  let resulting ← issuedSupply asset amount
  let entry ← getAccount sender
  .ensure (nonce = entry.nonce) (.invalidNonce sender entry.nonce nonce)
  let bumped ← addOrPanic64 entry.nonce 1
  let existing ← balanceOf asset.assetRef sender
  let credited ← credit asset.assetRef existing amount
  return ({ asset with totalSupply := resulting }, [(sender, { entry with nonce := bumped })],
    [((asset.assetRef, sender), credited)])

/-! ## Moves -/

/-- Moves with no gate but the balance; to oneself it changes nothing. -/
def applyForcedTransfer (asset : Asset) (sender recipient : Address) (amount : Nat) :
    Read RwaError (Asset × AssetBalanceUpdates) := do
  let fromBalance ← balanceOf asset.assetRef sender
  .ensure (amount ≤ fromBalance) (.insufficientBalance asset.assetRef sender fromBalance amount)
  if recipient = sender then return (asset, [])
  let toBalance ← balanceOf asset.assetRef recipient
  let toAfter ← credit asset.assetRef toBalance amount
  return (trackHolder (trackHolder asset sender fromBalance (fromBalance - amount)) recipient
      toBalance toAfter,
    [((asset.assetRef, sender), fromBalance - amount), ((asset.assetRef, recipient), toAfter)])

/-- The compliance half of a transfer; the freeze comes first. -/
def checkMove (asset : Asset) (sender recipient : Address) (amount currentHeight : Nat) :
    Read RwaError Unit := do
  .ensure (!asset.frozen) (.assetFrozen asset.assetRef)
  checkParty asset sender currentHeight
  let _ ← checkRecipient asset recipient amount currentHeight

/-- The balance half: locked units stay put. -/
def moveChecked (asset : Asset) (sender recipient : Address) (amount currentHeight : Nat) :
    Read RwaError (Asset × AssetBalanceUpdates) := do
  let locked := (← holderState asset sender currentHeight).frozenAmount
  if 0 < locked then
    let balance ← balanceOf asset.assetRef sender
    .ensure (amount ≤ balance - locked)
      (.amountLocked asset.assetRef sender balance locked (balance - locked) amount)
  applyForcedTransfer asset sender recipient amount

def applyCompliantTransfer (asset : Asset) (sender : Address) (nonce : Nat) (recipient : Address)
    (amount currentHeight : Nat) : Read RwaError (Asset × AccountUpdates × AssetBalanceUpdates) := do
  checkMove asset sender recipient amount currentHeight
  let entry ← getAccount sender
  .ensure (nonce = entry.nonce) (.invalidNonce sender entry.nonce nonce)
  let bumped ← addOrPanic64 entry.nonce 1
  let (asset, assets) ← moveChecked asset sender recipient amount currentHeight
  return (asset, [(sender, { entry with nonce := bumped })], assets)

def applyCompliantMove (asset : Asset) (sender recipient : Address) (amount currentHeight : Nat) :
    Read RwaError (Asset × AssetBalanceUpdates) := do
  checkMove asset sender recipient amount currentHeight
  moveChecked asset sender recipient amount currentHeight

/-- Mints straight into a verified investor's balance. -/
def applyIssueTo (asset : Asset) (recipient : Address) (amount currentHeight : Nat) :
    Read RwaError (Asset × AssetBalanceUpdates) := do
  .ensure (!asset.issuanceLocked) (.issuanceLocked asset.assetRef)
  .ensure (!asset.frozen) (.assetFrozen asset.assetRef)
  let existing ← checkRecipient asset recipient amount currentHeight
  let resulting ← issuedSupply asset amount
  let credited ← credit asset.assetRef existing amount
  return (trackHolder { asset with totalSupply := resulting } recipient existing credited,
    [((asset.assetRef, recipient), credited)])

/-- Burns the issuer's own units. -/
def applyBurn (asset : Asset) (issuer : Address) (amount : Nat) :
    Read RwaError (Asset × AssetBalanceUpdates) := do
  let balance ← balanceOf asset.assetRef issuer
  .ensure (amount ≤ balance) (.burnExceedsBalance asset.assetRef balance amount)
  let supply ← .orFail (checkedSub asset.totalSupply amount)
    (.burnExceedsSupply asset.assetRef asset.totalSupply amount)
  return ({ asset with totalSupply := supply }, [((asset.assetRef, issuer), balance - amount)])

/-! ## Locks -/

/-- A holder's lock after units moved without its signature: scaled, then clamped to the balance. -/
def adjustedLock (asset : Asset) (holder : Address) (balanceAfter numerator denominator : Nat)
    (currentHeight : Nat) : Read RwaError (Option HolderState) := do
  let state ← holderState asset holder currentHeight
  if state.frozenAmount = 0 then return none
  let product ← .orFail (checkedMul state.frozenAmount numerator) (.shareOverflow asset.assetRef)
  let locked := min (product / denominator) balanceAfter
  if locked = state.frozenAmount then return none
  return some { state with
    frozenAmount := locked
    lockExpiresAt := if locked = 0 then none else state.lockExpiresAt }

def applySetHolderFrozen (asset : Asset) (holder : Address) (frozen : Bool) :
    Read RwaError HolderStateUpdates := do
  let state ← rawHolderState asset.assetRef holder
  return [((asset.assetRef, holder), { state with frozen := frozen })]

/-- Locks or releases part of a holder's balance; one expiry covers the whole lock. -/
def applyLockAmount (asset : Asset) (holder : Address) (amount : Nat) (lock : Bool)
    (expiresAt : Option Nat) (currentHeight : Nat) : Read RwaError HolderStateUpdates := do
  let state ← holderState asset holder currentHeight
  if lock then
    let balance ← balanceOf asset.assetRef holder
    let resulting := saturatingAdd state.frozenAmount amount
    .ensure (resulting ≤ balance)
      (.lockExceedsBalance asset.assetRef holder balance state.frozenAmount amount)
    return [((asset.assetRef, holder),
      { state with frozenAmount := resulting, lockExpiresAt := expiresAt })]
  else
    .ensure (amount ≤ state.frozenAmount)
      (.unlockExceedsLocked asset.assetRef holder state.frozenAmount amount)
    let left := state.frozenAmount - amount
    return [((asset.assetRef, holder), { state with
      frozenAmount := left
      lockExpiresAt := if left = 0 then none else state.lockExpiresAt })]

/-- The expiry of two merged locks: the later one. -/
def laterExpiry : Option Nat → Option Nat → Option Nat
  | some a, some b => some (max a b)
  | a, b => a.or b

/-- Moves everything a lost wallet holds, its locks and freeze included. -/
def applyRecover (asset : Asset) (lost replacement : Address) (currentHeight : Nat) :
    Read RwaError (Asset × AssetBalanceUpdates × HolderStateUpdates) := do
  let lostBalance ← balanceOf asset.assetRef lost
  let replacementBalance ← checkRecipient asset replacement lostBalance currentHeight
  let lostState ← holderState asset lost currentHeight
  let state ← holderState asset replacement currentHeight
  let recovered := saturatingAdd replacementBalance lostBalance
  return (trackHolder (trackHolder asset lost lostBalance 0) replacement replacementBalance
      recovered,
    [((asset.assetRef, lost), 0), ((asset.assetRef, replacement), recovered)],
    [((asset.assetRef, lost), {}), ((asset.assetRef, replacement), { state with
      frozenAmount := saturatingAdd state.frozenAmount lostState.frozenAmount
      lockExpiresAt := laterExpiry state.lockExpiresAt lostState.lockExpiresAt
      frozen := state.frozen || lostState.frozen })])

/-- A forced transfer, with the sender's lock clamped to what it has left. -/
def applyForcedTransferWithLock (asset : Asset) (sender recipient : Address)
    (amount currentHeight : Nat) :
    Read RwaError (Asset × AssetBalanceUpdates × HolderStateUpdates) := do
  let (asset, balances) ← applyForcedTransfer asset sender recipient amount
  match Updates.get? balances (asset.assetRef, sender) with
  | none => return (asset, balances, [])
  | some after =>
    let state ← adjustedLock asset sender after 1 1 currentHeight
    return (asset, balances, state.elim [] fun s => [((asset.assetRef, sender), s)])

end Rwa

end Arxium
