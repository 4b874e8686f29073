import Arxium.Runtime.Staking

/-!
# Runtime/Assets — assets, tokens and attestations

Every handler that changes an asset's record hands it back through `assetRegistration`: despite the
name it is an upsert of the record.
-/

namespace Arxium

namespace Runtime

open ReadProg

def maxAssetIdLen : Nat := 64
def maxSymbolLen : Nat := 12
def maxNameLen : Nat := 64
def maxMetadataUriLen : Nat := 2048
def maxDecimals : Nat := 18
def maxReasonLen : Nat := 512

/-- `char::is_whitespace`. -/
def isWhitespace (c : Char) : Bool :=
  let n := c.toNat
  (9 ≤ n && n ≤ 13) || n == 0x20 || n == 0x85 || n == 0xA0 || n == 0x1680 ||
    (0x2000 ≤ n && n ≤ 0x200A) || n == 0x2028 || n == 0x2029 || n == 0x202F || n == 0x205F ||
    n == 0x3000

/-- A privileged action carries a reason that is neither blank nor overlong. -/
def checkReason (reason what : String) : Read Err Unit := do
  require (!reason.toList.all isWhitespace) s!"{what} needs a non-empty reason"
  require (reason.utf8ByteSize ≤ maxReasonLen)
    s!"reason is {reason.utf8ByteSize} bytes, over the {maxReasonLen}-byte limit"

/-! ## What a registration may say -/

def isAsciiLower (c : Char) : Bool := 'a' ≤ c && c ≤ 'z'
def isAsciiUpper (c : Char) : Bool := 'A' ≤ c && c ≤ 'Z'
def isAsciiDigit (c : Char) : Bool := '0' ≤ c && c ≤ '9'

def validateAssetId (assetId : String) : Read Err Unit := do
  require (assetId ≠ "") "asset_id must not be empty"
  require (assetId.utf8ByteSize ≤ maxAssetIdLen)
    s!"asset_id is {assetId.utf8ByteSize} bytes, over the {maxAssetIdLen}-byte limit"
  match assetId.toList.find? fun c =>
      !(isAsciiLower c || isAsciiDigit c || c == '-' || c == '_') with
  | some bad => bail s!"asset_id {assetId.quote} contains {bad.quote}: only lowercase ascii, digits, '-' and '_' are allowed"
  | none => return ()

def validateSymbol (symbol : String) : Read Err Unit := do
  require (symbol ≠ "" && symbol.utf8ByteSize ≤ maxSymbolLen)
    s!"symbol must be 1–{maxSymbolLen} bytes, got {symbol.utf8ByteSize}"
  match symbol.toList.find? fun c => !(isAsciiUpper c || isAsciiDigit c) with
  | some bad =>
    bail s!"symbol {symbol.quote} contains {bad.quote}: only A-Z and 0-9 are allowed"
  | none => return ()

def validateMetadataUri (uri : Option String) : Read Err Unit :=
  require (uri.all (·.utf8ByteSize ≤ maxMetadataUriLen))
    s!"metadata_uri is {(uri.getD default).utf8ByteSize} bytes, over the {maxMetadataUriLen}-byte limit"

def validateMetadata (metadata : AssetMetadata) : Read Err Unit := do
  validateSymbol metadata.symbol
  require (metadata.name ≠ "" && metadata.name.utf8ByteSize ≤ maxNameLen)
    s!"name must be 1–{maxNameLen} bytes, got {metadata.name.utf8ByteSize}"
  require (metadata.decimals ≤ maxDecimals)
    s!"decimals is {metadata.decimals}, over the maximum of {maxDecimals}"
  validateMetadataUri metadata.metadataUri
  (metadata.allowedJurisdictions.getD []).forM fun code =>
    check Err.identity (validateJurisdictionCode code)

variable [Crypto]

def registerAsset (action : ChainAction) (assetId : String) (complianceRequired : Bool)
    (metadata : AssetMetadata) (currentHeight : Nat) : Read Err BlockUpdates := do
  validateAssetId assetId
  validateMetadata metadata
  require (metadata.assetClass ≠ .token)
    "tokens are created with TokenAction::Create, not RegisterAsset"
  let assetRef ← check Err.address (AssetRef.derive action.sender assetId)
  require (← getRow (.asset assetRef)).isNone
    s!"{action.sender.text} already has an asset with id {assetId} ({assetRef.text})"
  let asset :=
    Asset.register assetRef assetId action.sender complianceRequired metadata currentHeight
  return { assetRegistration := some asset }

/-- An unknown reference is refused, and so is a token. -/
def resolveAsset (asset : AssetRef) : Read Err Asset := do
  let found : Asset ← .orFail (← getRow (.asset asset)) (.message s!"unknown asset {asset.text}")
  require (found.assetClass ≠ .token) s!"{asset.text} is a token: use the Token actions"
  return found

def requireIssuer (action : ChainAction) (asset : AssetRef) : Read Err Asset := do
  let asset ← resolveAsset asset
  require (action.sender = asset.issuer)
    s!"only the issuer ({asset.issuer.text}) of {asset.assetRef.text} may do this, got {action.sender.text}"
  return asset

/-! ## Moving balances -/

def issueAsset (action : ChainAction) (asset : AssetRef) (amount : Nat) :
    Read Err BlockUpdates := do
  let asset ← resolveAsset asset
  let (asset, accounts, assets) ←
    circuit (Rwa.applyIssue asset action.sender action.nonce amount)
  return { accounts := accounts, assets := assets, assetRegistration := some asset }

def transferAsset (action : ChainAction) (asset : AssetRef) (recipient : Address)
    (amount currentHeight : Nat) : Read Err BlockUpdates := do
  let asset ← resolveAsset asset
  let (asset, accounts, assets) ← circuit
    (Rwa.applyCompliantTransfer asset action.sender action.nonce recipient amount currentHeight)
  return { accounts := accounts, assets := assets, assetRegistration := some asset }

def burnAsset (action : ChainAction) (asset : AssetRef) (amount : Nat) :
    Read Err BlockUpdates := do
  let asset ← requireIssuer action asset
  require (amount ≠ 0) "burn amount must be positive"
  let (asset, assets) ← circuit (Rwa.applyBurn asset action.sender amount)
  return { assets := assets, assetRegistration := some asset }

/-- Moves a holder's balance on the issuer's authority alone. -/
def issuerForcedTransfer (action : ChainAction) (asset : AssetRef) (sender recipient : Address)
    (amount : Nat) (reason : String) (currentHeight : Nat) : Read Err BlockUpdates := do
  checkReason reason "a forced transfer"
  let asset ← requireIssuer action asset
  let (asset, assets, holderStates) ← circuit
    (Rwa.applyForcedTransferWithLock asset sender recipient amount currentHeight)
  return { assets := assets, holderStates := holderStates, assetRegistration := some asset }

def issueAssetTo (action : ChainAction) (asset : AssetRef) (recipient : Address)
    (amount currentHeight : Nat) : Read Err BlockUpdates := do
  let asset ← requireIssuer action asset
  require (amount ≠ 0) "issue amount must be positive"
  let (asset, assets) ← circuit (Rwa.applyIssueTo asset recipient amount currentHeight)
  return { assets := assets, assetRegistration := some asset }

def recoverHolder (action : ChainAction) (asset : AssetRef) (lost replacement : Address)
    (currentHeight : Nat) : Read Err BlockUpdates := do
  require (lost ≠ replacement) "recovery needs a different replacement address"
  let asset ← requireIssuer action asset
  let (asset, assets, holderStates) ←
    circuit (Rwa.applyRecover asset lost replacement currentHeight)
  return { assets := assets, holderStates := holderStates, assetRegistration := some asset }

/-! ## Holders -/

def setHolderFrozen (action : ChainAction) (asset : AssetRef) (holder : Address) (frozen : Bool) :
    Read Err BlockUpdates := do
  let asset ← requireIssuer action asset
  let holderStates ← circuit (Rwa.applySetHolderFrozen asset holder frozen)
  return { holderStates := holderStates }

def lockHolderAmount (action : ChainAction) (asset : AssetRef) (holder : Address) (amount : Nat)
    (lock : Bool) (expiresAt : Option Nat) (currentHeight : Nat) : Read Err BlockUpdates := do
  let asset ← requireIssuer action asset
  require (amount ≠ 0) "lock amount must be positive"
  require (expiresAt.all (currentHeight < ·))
    s!"lock expiry {expiresAt.getD default} is not after the current height {currentHeight}"
  let holderStates ←
    circuit (Rwa.applyLockAmount asset holder amount lock expiresAt currentHeight)
  return { holderStates := holderStates }

/-! ## The record

An issuer's change of the asset record that moves no balance. -/

/-- Writes back the issuer's asset with a change made to it. -/
def amendAsset (action : ChainAction) (asset : AssetRef) (amend : Asset → Asset) :
    Read Err BlockUpdates := do
  let asset ← requireIssuer action asset
  return { assetRegistration := some (amend asset) }

def setFrozen (action : ChainAction) (asset : AssetRef) (frozen : Bool) (reason : String) :
    Read Err BlockUpdates := do
  checkReason reason (if frozen then "a freeze" else "an unfreeze")
  amendAsset action asset fun a => { a with frozen := frozen }

/-- One way; the cap a reader sees becomes what is outstanding. -/
def lockIssuance (action : ChainAction) (asset : AssetRef) : Read Err BlockUpdates :=
  amendAsset action asset fun a =>
    { a with issuanceLocked := true, maxSupply := some a.totalSupply }

def transferIssuer (action : ChainAction) (asset : AssetRef) (newIssuer : Address) :
    Read Err BlockUpdates := do
  let asset ← requireIssuer action asset
  require newIssuer.pubkeyBytes.isOk s!"new issuer {newIssuer.text} is not a valid address"
  return { assetRegistration := some { asset with issuer := newIssuer } }

def setMetadataUri (action : ChainAction) (asset : AssetRef) (metadataUri : Option String) :
    Read Err BlockUpdates := do
  validateMetadataUri metadataUri
  amendAsset action asset fun a => { a with metadataUri := metadataUri }

def setLimits (action : ChainAction) (asset : AssetRef)
    (maxHolders maxBalancePerHolder maxAttestationAge : Option Nat) : Read Err BlockUpdates := do
  let asset ← requireIssuer action asset
  require (maxBalancePerHolder ≠ some 0)
    "max_balance_per_holder of 0 would make the asset unholdable"
  let asset := { asset with
    maxHolders := maxHolders
    maxBalancePerHolder := maxBalancePerHolder
    maxAttestationAge := maxAttestationAge }
  return { assetRegistration := some asset }

def setPrivateClaims (action : ChainAction) (asset : AssetRef) (enabled : Bool) :
    Read Err BlockUpdates :=
  amendAsset action asset fun a => { a with privateClaims := enabled }

def verifyClaimProof [Zk] (action : ChainAction) (asset : AssetRef) (sub : Bytes)
    (todayDays : Nat) (proof : Bytes) (currentHeight blockTimestamp : Nat) :
    Read Err BlockUpdates := do
  let asset ← resolveAsset asset
  require asset.privateClaims s!"{asset.assetRef.text} does not accept claim proofs"
  circuit (Arxium.verifyClaimProof action.sender asset sub todayDays blockTimestamp proof)
  let holderStates ← circuit (Rwa.applyRecordClaimProof asset action.sender currentHeight)
  return { holderStates := holderStates }

/-! ## Corporate actions -/

def snapshotHolders (action : ChainAction) (asset : AssetRef) (currentHeight : Nat) :
    Read Err BlockUpdates := do
  let asset ← requireIssuer action asset
  let asset ← circuit (Rwa.applySnapshot asset currentHeight)
  return { assetRegistration := some asset }

/-- The snapshot taken at the height the action names. -/
def snapshotAt (asset : Asset) (height : Nat) : Read Err CapTable :=
  match asset.snapshot with
  | some table =>
    if table.height = height then return table
    else bail s!"{asset.assetRef.text}'s snapshot is at height {table.height}, not {height}"
  | none => bail s!"{asset.assetRef.text} has no holder snapshot"

/-- The record a payout is made in.  A dividend in the asset itself works on the one record, not on
a second copy of it. -/
def payoutRecord (asset : Asset) (payoutAsset : AssetRef) : Read Err Asset :=
  if payoutAsset = asset.assetRef then return asset else resolveAsset payoutAsset

def distribute (action : ChainAction) (asset : AssetRef) (snapshotHeight : Nat)
    (payoutAsset : AssetRef) (total currentHeight : Nat) : Read Err BlockUpdates := do
  let asset ← requireIssuer action asset
  let table ← snapshotAt asset snapshotHeight
  require (total ≠ 0 && table.total ≠ 0) "nothing to distribute"
  let payout ← payoutRecord asset payoutAsset
  let (payout, assets) ←
    circuit (Rwa.applyDistribution payout action.sender table total currentHeight)
  return { assets := assets, assetRegistration := some payout }

def redeem (action : ChainAction) (asset : AssetRef) (snapshotHeight currentHeight : Nat) :
    Read Err BlockUpdates := do
  let asset ← requireIssuer action asset
  let table ← snapshotAt asset snapshotHeight
  require (table.total ≠ 0) "nothing to redeem"
  let (asset, assets, holderStates) ← circuit (Rwa.applyRedemption asset table currentHeight)
  return { assets := assets, holderStates := holderStates, assetRegistration := some asset }

def split (action : ChainAction) (asset : AssetRef)
    (snapshotHeight numerator denominator currentHeight : Nat) : Read Err BlockUpdates := do
  let asset ← requireIssuer action asset
  require (numerator ≠ 0 && denominator ≠ 0)
    "split ratio needs a positive numerator and denominator"
  let table ← snapshotAt asset snapshotHeight
  let (asset, assets, holderStates) ←
    circuit (Rwa.applySplit asset table numerator denominator currentHeight)
  return { assets := assets, holderStates := holderStates, assetRegistration := some asset }

/-! ## Tokens -/

def resolveToken (token : AssetRef) : Read Err Asset := do
  .orFail (← getRow (.asset token)) (.message s!"unknown token {token.text}")

/-- A new token's record, before anything is minted. -/
def newToken (sender : Address) (symbol name : String) (decimals : Nat) (maxSupply : Option Nat)
    (mintable : Bool) (currentHeight : Nat) : Read Err Asset := do
  let metadata : AssetMetadata :=
    { assetClass := .token, decimals := decimals, maxSupply := maxSupply, symbol := symbol,
      name := name }
  validateMetadata metadata
  let assetId := symbol.toLower
  let assetRef ← check Err.address (AssetRef.derive sender assetId)
  require (← getRow (.asset assetRef)).isNone
    s!"{sender.text} already has an asset with id {assetId} ({assetRef.text})"
  return { Asset.register assetRef assetId sender false metadata currentHeight with
    issuanceLocked := !mintable }

def dispatchToken (action : ChainAction) (tokenAction : TokenAction) (currentHeight : Nat) :
    Read Err BlockUpdates :=
  match tokenAction with
  | .create symbol name decimals initialSupply maxSupply mintable => do
    let token ← newToken action.sender symbol name decimals maxSupply mintable currentHeight
    let fee := (← getParams).tokenCreateFee
    let (token, accounts, assets) ← circuit (Token.applyCreate token initialSupply fee)
    return { accounts := accounts, assets := assets, assetRegistration := some token }
  | .mint token recipient amount => do
    let token ← resolveToken token
    let (token, assets) ← circuit (Token.applyMint token action.sender recipient amount)
    return { assets := assets, assetRegistration := some token }
  | .transfer token recipient amount => do
    let token ← resolveToken token
    let (token, assets) ← circuit (Token.applyTransfer token action.sender recipient amount)
    return { assets := assets, assetRegistration := some token }
  | .burn token amount => do
    let token ← resolveToken token
    let (token, assets) ← circuit (Token.applyBurn token action.sender amount)
    return { assets := assets, assetRegistration := some token }
  | .renounceMint token => do
    let token ← resolveToken token
    let token ← circuit (Token.applyRenounceMint token action.sender)
    return { assetRegistration := some token }

/-! ## Attestations -/

/-- A registered attestor stops its own new grants; lifting that takes a vote. -/
def blockAttestor (action : ChainAction) : Read Err BlockUpdates := do
  let governance ← circuit (applySetSelfBlocked action.sender true)
  return { governance := governance }

def grantAttestation (action : ChainAction) (subject : Address) (hash : String)
    (topics : List ClaimTopic) (jurisdiction : Option CountryCode) (currentHeight : Nat) :
    Read Err BlockUpdates := do
  let accounts ← circuit
    (applyGrantAttestation action.sender subject hash topics jurisdiction currentHeight)
  return { accounts := accounts }

def revokeAttestation (action : ChainAction) (subject : Address) : Read Err BlockUpdates := do
  let accounts ← circuit (applyRevokeAttestation action.sender subject)
  return { accounts := accounts }

def verifyIdentityCredential [Zk] (action : ChainAction) (proof : Bytes) :
    Read Err BlockUpdates := do
  let accounts ← circuit (applyVerifyCredential action.sender proof)
  return { accounts := accounts }

end Runtime

end Arxium
