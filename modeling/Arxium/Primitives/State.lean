import Arxium.Primitives.Crypto
import Arxium.Lib.Writes

/-!
# Primitives/State — the records the chain stores

Accounts with their optional spending policy, stake allocations, assets and their holders,
attestors, the governed parameters and the proposals that change them.  Amounts are `u128` and
heights `u64` in the source; here they are natural numbers, and every operation of the source that
can leave the range says what it does there (`checked`, `saturating`, or a panic: the release
profile keeps overflow checks on).
-/

namespace Arxium

/-- A sorted finite map, the source's `BTreeMap`. -/
abbrev TreeMap (α β : Type) [LinearOrder α] := Std.ExtTreeMap α β

/-- The largest `u128`. -/
def u128Max : Nat := 2 ^ 128 - 1

/-- The largest `u64`. -/
def u64Max : Nat := 2 ^ 64 - 1

/-- `checked_add` on `u128`. -/
def checkedAdd (a b : Nat) : Option Nat := if a + b ≤ u128Max then some (a + b) else none

/-- `checked_sub`. -/
def checkedSub (a b : Nat) : Option Nat := if b ≤ a then some (a - b) else none

/-- `checked_mul` on `u128`. -/
def checkedMul (a b : Nat) : Option Nat := if a * b ≤ u128Max then some (a * b) else none

/-- `saturating_add` on `u128`. -/
def saturatingAdd (a b : Nat) : Nat := min (a + b) u128Max

/-- `saturating_mul` on `u128`. -/
def saturatingMul (a b : Nat) : Nat := min (a * b) u128Max

/-- `saturating_add` on `u64`. -/
def saturatingAdd64 (a b : Nat) : Nat := min (a + b) u64Max

/-! ## Programmable accounts -/

def maxPolicyRecipients : Nat := 64
def maxPolicyLimits : Nat := 16
def maxSessionKeys : Nat := 16

structure ThresholdPolicy where
  threshold : Nat
  members : List Bytes
deriving DecidableEq, Repr

inductive SpendAsset
  | native
  | asset (r : AssetRef)
deriving DecidableEq, Repr

structure SpendingLimit where
  asset : SpendAsset
  periodBlocks : Nat
  amount : Nat
deriving DecidableEq, Repr

structure SpendCounter where
  asset : SpendAsset
  window : Nat
  spent : Nat
deriving DecidableEq, Repr

structure SessionKey where
  publicKey : Bytes
  expiresAt : Nat
  asset : SpendAsset
  allowance : Nat
  recipients : List Address
deriving DecidableEq, Repr

structure RecoveryPolicy where
  guardians : ThresholdPolicy
  delayBlocks : Nat
deriving DecidableEq, Repr

structure PendingRecovery where
  owners : ThresholdPolicy
  executeAfter : Nat
deriving DecidableEq, Repr

structure AccountPolicy where
  owners : ThresholdPolicy
  limits : List SpendingLimit
  recipients : Option (List Address)
  sessions : List SessionKey
  recovery : Option RecoveryPolicy
deriving DecidableEq, Repr

structure ProgrammableAccount where
  policy : AccountPolicy
  counters : List SpendCounter
  pendingRecovery : Option PendingRecovery
deriving DecidableEq, Repr

inductive AccountPolicyAction
  | setPolicy (policy : AccountPolicy)
  | rotateMembers (owners : ThresholdPolicy)
  | addSession (session : SessionKey)
  | revokeSession (publicKey : Bytes)
  | startRecovery (owners : ThresholdPolicy)
  | cancelRecovery
  | executeRecovery
deriving DecidableEq, Repr

/-- Who signed an action of a programmable account. -/
inductive PolicyAuthorization
  | owner
  | session (i : Nat)
  | guardian
deriving DecidableEq, Repr

section Validate

variable [Crypto]

open Crypto

/-- `validate_account_address`: a canonical address of one key or one multisig. -/
def validateAccountAddress (address : Address) : Except SignatureError Unit := do
  if address.text.utf8ByteSize ≠ 62 ∧ address.text.utf8ByteSize ≠ 63 then
    .error (.badMultisig "account address has invalid length")
  let bytes ← (address.pubkeyBytes).mapError SignatureError.badPubkey
  if !(bytes.length == 32 || (bytes.length == 33 && bytes.head? == some 1)) ||
      Address.fromPubkeyBytes bytes != address then
    .error (.badMultisig "account address must be canonical")
  return ()

namespace ThresholdPolicy

def validate (p : ThresholdPolicy) : Except SignatureError Unit := do
  if !ascending bytesLt p.members then
    .error (.badMultisig "members must be unique and ascending")
  let _ ← multisigAddress p.threshold p.members
  p.members.forM fun member =>
    if !ed25519IsKey member || ed25519IsWeak member then .error .invalid else .ok ()

end ThresholdPolicy

namespace SpendAsset

def validate : SpendAsset → Except SignatureError Unit
  | native => .ok ()
  | asset r => do
    if r.text.utf8ByteSize ≠ 67 then .error (.badMultisig "asset ref has invalid length")
    match AssetRef.parse r.text with
    | .error _ => .error (.badMultisig "invalid spending asset ref")
    | .ok parsed =>
      if AssetRef.fromBytes parsed.bytes ≠ r then
        .error (.badMultisig "asset ref must be canonical")
      else .ok ()

end SpendAsset

/-- The recipient list check of `AccountPolicy::validate`. -/
def validateRecipients (v : List Address) : Except SignatureError Unit := do
  if v.length > maxPolicyRecipients || !ascending (fun a b => decide (a < b)) v then
    .error (.badMultisig "recipients must be bounded, unique and ascending")
  v.forM validateAccountAddress

/-- The limits, each checked against those before it. -/
def validateLimits : List SpendingLimit → List SpendingLimit → Except SignatureError Unit
  | _, [] => .ok ()
  | before, limit :: rest => do
    limit.asset.validate
    if limit.periodBlocks == 0 || before.any (·.asset == limit.asset) then
      .error (.badMultisig "invalid or duplicate spending limit")
    validateLimits (before ++ [limit]) rest

/-- The session keys, each checked against those before it. -/
def validateSessions : List SessionKey → List SessionKey → Except SignatureError Unit
  | _, [] => .ok ()
  | before, session :: rest => do
    session.asset.validate
    validateRecipients session.recipients
    (ThresholdPolicy.mk 1 [session.publicKey]).validate
    if before.any (·.publicKey == session.publicKey) then
      .error (.badMultisig "duplicate session key")
    validateSessions (before ++ [session]) rest

namespace AccountPolicy

def validate (p : AccountPolicy) : Except SignatureError Unit := do
  p.owners.validate
  if p.limits.length > maxPolicyLimits || p.sessions.length > maxSessionKeys then
    .error (.badMultisig "policy exceeds bounded menu")
  validateLimits [] p.limits
  match p.recipients with
  | some v => validateRecipients v
  | none => pure ()
  validateSessions [] p.sessions
  if !p.sessions.isEmpty && !p.limits.any (·.asset == .native) then
    .error (.badMultisig "session keys require a native spending limit to bound fees")
  match p.recovery with
  | some recovery => do
    recovery.guardians.validate
    if recovery.delayBlocks == 0 then .error (.badMultisig "recovery delay must be positive")
  | none => pure ()

end AccountPolicy

end Validate

/-! ## Accounts and stake -/

inductive ClaimTopic
  | kyc
  | aml
  | accredited
  | jurisdiction
deriving DecidableEq, Repr

/-- A two-letter country code. -/
abbrev CountryCode := String

structure AccountEntry where
  balance : Nat := 0
  nonce : Nat := 0
  identityHash : Option String := none
  zkIdentityVerified : Bool := false
  attestedBy : Option Address := none
  claims : List ClaimTopic := []
  jurisdiction : Option CountryCode := none
  attestedAt : Option Nat := none
  programmable : Option ProgrammableAccount := none
deriving DecidableEq, Repr

instance : Inhabited AccountEntry := ⟨{}⟩

structure Unbonding where
  amount : Nat
  unlockAtHeight : Nat
deriving DecidableEq, Repr

structure StakeAllocation where
  master : Address
  validator : Address
  activeAmount : Nat
  unbonding : Option Unbonding
  createdAt : Nat
  updatedAt : Nat
deriving DecidableEq, Repr

/-- A genesis validator. -/
structure ValidatorEntry where
  stake : Nat
  blsPubkey : Option String := none
  blsPop : Option String := none
deriving DecidableEq, Repr

/-! ## Assets -/

inductive AssetClass
  | other
  | realEstate
  | equity
  | bond
  | stablecoin
  | commodity
  | token
deriving DecidableEq, Repr

instance : Inhabited AssetClass := ⟨.other⟩

/-- The holders of an asset at one height. -/
structure CapTable where
  height : Nat
  total : Nat
  holders : List (Address × Nat)
deriving DecidableEq, Repr

structure Asset where
  assetId : String
  issuer : Address
  complianceRequired : Bool
  assetClass : AssetClass
  decimals : Nat
  requiredClaims : List ClaimTopic
  allowedJurisdictions : Option (List CountryCode)
  maxSupply : Option Nat
  totalSupply : Nat
  frozen : Bool
  metadataUri : Option String
  registeredAt : Nat
  symbol : String
  name : String
  assetRef : AssetRef
  issuanceLocked : Bool
  maxHolders : Option Nat
  maxBalancePerHolder : Option Nat
  maxAttestationAge : Option Nat
  holderCount : Nat
  snapshot : Option CapTable
  privateClaims : Bool
deriving DecidableEq, Repr

structure AssetMetadata where
  assetClass : AssetClass := .other
  decimals : Nat := 0
  requiredClaims : List ClaimTopic := []
  allowedJurisdictions : Option (List CountryCode) := none
  maxSupply : Option Nat := none
  metadataUri : Option String := none
  symbol : String := ""
  name : String := ""
deriving DecidableEq, Repr

/-- `Asset::register`: a new asset has no supply, no limits and no holders. -/
def Asset.register (assetRef : AssetRef) (assetId : String) (issuer : Address)
    (complianceRequired : Bool) (metadata : AssetMetadata) (registeredAt : Nat) : Asset where
  assetId := assetId
  issuer := issuer
  complianceRequired := complianceRequired
  assetClass := metadata.assetClass
  decimals := metadata.decimals
  requiredClaims := metadata.requiredClaims
  allowedJurisdictions := metadata.allowedJurisdictions
  maxSupply := metadata.maxSupply
  totalSupply := 0
  frozen := false
  metadataUri := metadata.metadataUri
  registeredAt := registeredAt
  symbol := metadata.symbol
  name := metadata.name
  assetRef := assetRef
  issuanceLocked := false
  maxHolders := none
  maxBalancePerHolder := none
  maxAttestationAge := none
  holderCount := 0
  snapshot := none
  privateClaims := false

structure HolderState where
  frozen : Bool := false
  frozenAmount : Nat := 0
  lockExpiresAt : Option Nat := none
  claimVerifiedAt : Option Nat := none
deriving DecidableEq, Repr

instance : Inhabited HolderState := ⟨{}⟩

/-! ## Attestors -/

structure AttestorRecord where
  name : String
  registeredAt : Nat
  owners : List Address
  threshold : Nat
  selfBlocked : Bool := false
  removalPending : Bool := false
  removalCooldownUntil : Nat := 0
deriving DecidableEq, Repr

def AttestorRecord.blocked (r : AttestorRecord) : Bool := r.selfBlocked || r.removalPending

end Arxium
