import Arxium.Primitives.Block

/-!
# Runtime/Payload — what an action can ask for, and what it weighs

The variants of the chain's payload, the root of a block's action list, and the metering that
prices an action.  The weight of an action is a function of the action alone; its fee also depends
on the parameters it is computed from.
-/

namespace Arxium

open Crypto

inductive TokenAction
  | create (symbol name : String) (decimals initialSupply : Nat) (maxSupply : Option Nat)
      (mintable : Bool)
  | mint (token : AssetRef) (recipient : Address) (amount : Nat)
  | transfer (token : AssetRef) (recipient : Address) (amount : Nat)
  | burn (token : AssetRef) (amount : Nat)
  | renounceMint (token : AssetRef)

inductive ActionPayload
  | transfer (recipient : Address) (amount : Nat)
  | joinValidator (validator : Address) (stake : Nat) (blsPubkey blsPop : Bytes)
  | leaveValidator (validator : Address)
  | stake (validator : Address) (amount : Nat)
  | unstake (validator : Address) (amount : Nat)
  | submitEquivocationEvidence (blockA blockB : Block ActionPayload)
  | registerBlsKey (validator : Address) (pubkey pop : Bytes)
  | verifyIdentityCredential (proof : Bytes)
  | authorizeOperator (operator : Address)
  | revokeOperator
  | grantAttestation (subject : Address) (hash : String) (topics : List ClaimTopic)
      (jurisdiction : Option CountryCode)
  | revokeAttestation (subject : Address)
  | registerAsset (assetId : String) (complianceRequired : Bool) (metadata : AssetMetadata)
  | issueAsset (asset : AssetRef) (amount : Nat)
  | transferAsset (asset : AssetRef) (recipient : Address) (amount : Nat)
  | submitExecutionFault (artifactJson : String)
  | freezeAsset (asset : AssetRef) (reason : String)
  | unfreezeAsset (asset : AssetRef) (reason : String)
  | burnAsset (asset : AssetRef) (amount : Nat)
  | setHolderFrozen (asset : AssetRef) (holder : Address) (frozen : Bool)
  | lockHolderAmount (asset : AssetRef) (holder : Address) (amount : Nat)
  | unlockHolderAmount (asset : AssetRef) (holder : Address) (amount : Nat)
  | issuerForcedTransfer (asset : AssetRef) (sender recipient : Address) (amount : Nat)
      (reason : String)
  | recoverHolder (asset : AssetRef) (lost replacement : Address)
  | issueAssetTo (asset : AssetRef) (recipient : Address) (amount : Nat)
  | lockIssuance (asset : AssetRef)
  | transferIssuer (asset : AssetRef) (newIssuer : Address)
  | setAssetMetadataUri (asset : AssetRef) (metadataUri : Option String)
  | setAssetLimits (asset : AssetRef) (maxHolders maxBalancePerHolder maxAttestationAge : Option Nat)
  | lockHolderAmountUntil (asset : AssetRef) (holder : Address) (amount untilHeight : Nat)
  | submitProposal (action : GovernanceAction) (description : String)
  | voteProposal (proposal : Nat) (approve : Bool)
  | executeProposal (proposal : Nat)
  | snapshotHolders (asset : AssetRef)
  | distributeToHolders (asset : AssetRef) (snapshotHeight : Nat) (payoutAsset : AssetRef)
      (total : Nat)
  | redeemHolders (asset : AssetRef) (snapshotHeight : Nat)
  | splitAsset (asset : AssetRef) (snapshotHeight numerator denominator : Nat)
  | verifyClaimProof (asset : AssetRef) (sub : Bytes) (todayDays : Nat) (proof : Bytes)
  | setPrivateClaims (asset : AssetRef) (enabled : Bool)
  | token (action : TokenAction)
  | accountPolicy (action : AccountPolicyAction)
  | applyAttestor (name : String) (owners : List Address) (threshold : Nat)
      (evidenceHash evidenceUri : String)
  | blockAttestor

abbrev ChainAction := Action ActionPayload

abbrev ChainBlock := Block ActionPayload

/-- The two variants a dispute cannot replay. -/
def ActionPayload.isFaultSubmission : ActionPayload → Bool
  | submitExecutionFault _ | submitEquivocationEvidence _ _ => true
  | _ => false

/-! ## The root of an action list -/

section TxRoot

variable [Crypto] {P : Type} [Wire P]

def actionHash (a : Action P) : Bytes := sha256 (0 :: Wire.action a)

def nodeHash (left right : Bytes) : Bytes := sha256 (1 :: (left ++ right))

/-- One level of the tree: pairs are hashed, an odd last node is promoted. -/
def hashPairs : List Bytes → List Bytes
  | a :: b :: rest => nodeHash a b :: hashPairs rest
  | l => l

/-- Halves the level until one node is left; as many rounds as nodes are enough. -/
def reduceLevels : Nat → List Bytes → Bytes
  | _, [] => List.replicate 32 0
  | _, [h] => h
  | 0, h :: _ => h
  | fuel + 1, level => reduceLevels fuel (hashPairs level)

def txRoot (actions : List (Action P)) : Bytes :=
  reduceLevels actions.length (actions.map actionHash)

end TxRoot

/-! ## Metering -/

def policyAuthorizationWeight : Nat := 5000

/-- Fixed cost per variant. -/
def baseWeight : ActionPayload → Nat
  | .transfer .. => 50
  | .stake .. | .unstake .. => 100
  | .joinValidator .. | .registerBlsKey .. => 1500
  | .leaveValidator .. => 150
  | .authorizeOperator .. | .revokeOperator => 100
  | .verifyIdentityCredential .. | .verifyClaimProof .. => 5000
  | .grantAttestation .. | .revokeAttestation .. => 100
  | .applyAttestor .. | .blockAttestor => 150
  | .registerAsset .. => 150
  | .issueAsset .. | .issueAssetTo .. | .transferAsset .. | .issuerForcedTransfer ..
  | .burnAsset .. | .recoverHolder .. => 150
  | .freezeAsset .. | .unfreezeAsset .. | .setHolderFrozen .. | .lockHolderAmount ..
  | .lockHolderAmountUntil .. | .unlockHolderAmount .. | .setAssetLimits ..
  | .setPrivateClaims .. | .lockIssuance .. | .transferIssuer .. | .setAssetMetadataUri .. => 100
  | .snapshotHolders .. => 2000
  | .distributeToHolders .. => 15000
  | .redeemHolders .. | .splitAsset .. => 10000
  | .submitProposal .. | .voteProposal .. | .executeProposal .. => 150
  | .submitEquivocationEvidence .. => 2000
  | .submitExecutionFault .. => 500000
  | .token (.create ..) => 150
  | .token _ => 100
  | .accountPolicy _ => 1000

/-- The three tags of a policy witness, in any case. -/
def hasPolicyTag (signature : String) : Bool :=
  128 < signature.utf8ByteSize &&
    ["a700", "a701", "a702"].contains
      (String.ofList ((signature.toList.take 4).map Char.toLower))

def actionWeight [Wire ActionPayload] (action : ChainAction) : Nat :=
  let policy := if action.signature.any hasPolicyTag then policyAuthorizationWeight else 0
  saturatingAdd64 (saturatingAdd64 (baseWeight action.payload) policy) (Wire.action action).length

/-- The fee of a weight under the given parameters. -/
def actionFeeFor (params : ChainParams) (weight : Nat) : Nat :=
  saturatingAdd params.actionFee (saturatingMul weight params.weightFee)

end Arxium
