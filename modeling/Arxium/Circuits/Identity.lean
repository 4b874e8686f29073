import Arxium.Storage.Updates

/-!
# Circuits/Identity — the attestor registry, attestations and credential proofs

Attestors enter and leave the registry by governance; an attestation counts as long as the attestor
that gave it is registered.  The registry rows of one attestor are written through three different
update categories: its registration, its deregistration, and — for its flags — raw governance rows.

The proof systems are libraries; `Zk` carries their verifiers.
-/

namespace Arxium

open ReadProg Writes

/-- The Groth16 verifiers, over encoded inputs. -/
class Zk where
  /-- The bytes decode to a field element. -/
  isFieldElement : Bytes → Bool
  /-- The bytes decode to a proof. -/
  isProof : Bytes → Bool
  /-- Credential hash, sender key, proof. -/
  verifyCredential : Bytes → Bytes → Bytes → Bool
  /-- Leaf, sender key, asset, claims mask, countries, `sub`, day, proof. -/
  verifyPredicate : Bytes → Bytes → String → Nat → List Nat → Bytes → Nat → Bytes → Bool

inductive IdentityError
  | storage (e : StorageError)
  | notAttestor (a : Address)
  | alreadyAttestor (a : Address)
  | attestorBlocked (a : Address)
  | invalidName (reason : String)
  | nameTaken (name : String)
  | invalidMultisig (reason : String)
  | removalPending (a : Address)
  | removalCooldown (a : Address) (untilHeight : Nat)
  | invalidJurisdiction (code : String)
  | accountNotFound (a : Address)
  | noIdentityHash
  | malformedIdentityHash
  | malformedProof
  | malformedSender
  | proofRejected
  | notAttested (a : Address)
  | nothingToProve
  | unprovableJurisdictions
  | malformedSub
  | wrongDate (claimed blockDay : Nat)
  | panic
deriving DecidableEq, Repr

instance : Errors IdentityError := ⟨.storage, .panic⟩

/-- Two upper-case ASCII letters. -/
def validateJurisdictionCode (code : String) : Except IdentityError Unit :=
  let bytes := strBytes code
  if bytes.length ≠ 2 ∨ bytes.any (fun b => b < 65 || 90 < b) then
    .error (.invalidJurisdiction code)
  else .ok ()

def requireAttestor (who : Address) : Read IdentityError AttestorRecord := do
  .orFail (← getRow (.attestorRecord who)) (.notAttestor who)

/-- A live attestation: an identity hash whose attestor is still registered. -/
def isAttested {ε : Type} [Errors ε] (address : Address) : Read ε Bool := do
  let entry : Option AccountEntry ← getRow (.account address)
  match entry with
  | none => return false
  | some entry =>
    if entry.identityHash.isNone then return false
    else match entry.attestedBy with
      | some attestor => do
        let record ← getRow (.attestorRecord attestor)
        return record.isSome
      | none => return true

section Registry

variable [Crypto]

/-- The record of a new attestor, and the row that guards its name. -/
def applyRegisterAttestor (attestor : Address) (name : String) (owners : List Address)
    (threshold currentHeight : Nat) :
    Read IdentityError (AttestorRegistration × GovernanceUpdates) := do
  .ofExcept ((validateAttestorName name).mapError .invalidName)
  .ofExcept ((validateAttestorMultisig attestor owners threshold).mapError .invalidMultisig)
  .ensure (← getRow (.attestorRecord attestor)).isNone (.alreadyAttestor attestor)
  let skeleton := attestorNameSkeleton name
  .ensure (← getRow (.attestorName skeleton)).isNone (.nameTaken name)
  let record : AttestorRecord :=
    { name := name, registeredAt := currentHeight, owners := owners, threshold := threshold }
  return (⟨attestor, record⟩, [put (.attestorName skeleton) attestor])

/-- Deletes the record and frees the name. -/
def applyDeregisterAttestor (attestor : Address) :
    Read IdentityError (Address × GovernanceUpdates) := do
  let record ← requireAttestor attestor
  return (attestor, [del (.attestorName (attestorNameSkeleton record.name))])

def applySetSelfBlocked (attestor : Address) (blocked : Bool) :
    Read IdentityError GovernanceUpdates := do
  let record ← requireAttestor attestor
  return [put (.attestorRecord attestor) ({ record with selfBlocked := blocked } : AttestorRecord)]

/-- A removal vote opens: one at a time, and not within the cooldown of a failed one. -/
def applyOpenRemoval (attestor : Address) (currentHeight : Nat) :
    Read IdentityError GovernanceUpdates := do
  let record ← requireAttestor attestor
  .ensure (!record.removalPending) (.removalPending attestor)
  .ensure (record.removalCooldownUntil ≤ currentHeight)
    (.removalCooldown attestor record.removalCooldownUntil)
  return [put (.attestorRecord attestor) ({ record with removalPending := true } : AttestorRecord)]

/-- A removal vote that did not remove: the block lifts and the cooldown starts. -/
def applyCloseFailedRemoval (attestor : Address) (currentHeight cooldownBlocks : Nat) :
    Read IdentityError GovernanceUpdates := do
  let record : Option AttestorRecord ← getRow (.attestorRecord attestor)
  match record with
  | none => return []
  | some record =>
    return [put (.attestorRecord attestor) ({ record with
      removalPending := false
      removalCooldownUntil := saturatingAdd64 currentHeight cooldownBlocks } : AttestorRecord)]

end Registry

/-! ## Attestations -/

/-- The topics without repeats, first occurrences kept. -/
def uniqueTopics (topics : List ClaimTopic) : List ClaimTopic :=
  topics.foldl (fun unique t => if unique.contains t then unique else unique ++ [t]) []

/-- Replaces what the attestor vouches for about `subject`. -/
def applyGrantAttestation (attestor subject : Address) (hash : String) (topics : List ClaimTopic)
    (jurisdiction : Option String) (currentHeight : Nat) : Read IdentityError AccountUpdates := do
  let record ← requireAttestor attestor
  .ensure (!record.blocked) (.attestorBlocked attestor)
  match jurisdiction with
  | some code => .ofExcept (validateJurisdictionCode code)
  | none => pure ()
  let entry ← getAccount subject
  let verified := entry.zkIdentityVerified && entry.identityHash == some hash
  return [(subject, { entry with
    zkIdentityVerified := verified
    identityHash := some hash
    attestedBy := some attestor
    attestedAt := some currentHeight
    claims := uniqueTopics topics
    jurisdiction := jurisdiction })]

/-- Clears everything an attestation set, except who gave it. -/
def applyRevokeAttestation (attestor subject : Address) : Read IdentityError AccountUpdates := do
  let _ ← requireAttestor attestor
  let entry : AccountEntry ← .orFail (← getRow (.account subject)) (.accountNotFound subject)
  return [(subject, { entry with
    identityHash := none
    zkIdentityVerified := false
    attestedAt := none
    claims := []
    jurisdiction := none })]

/-! ## Credential proofs -/

variable [Crypto] [Zk]

/-- A proof for the sender's own identity hash, bound to the sender's key. -/
def applyVerifyCredential (sender : Address) (proof : Bytes) :
    Read IdentityError AccountUpdates := do
  let entry : AccountEntry ← .orFail (← getRow (.account sender)) (.accountNotFound sender)
  let hashHex ← .orFail entry.identityHash .noIdentityHash
  let hash ← .orFail (hexDecode hashHex) .malformedIdentityHash
  .ensure (Zk.isFieldElement hash) .malformedIdentityHash
  .ensure (Zk.isProof proof) .malformedProof
  let key ← .ofExcept (sender.pubkeyBytes.mapError fun _ => IdentityError.malformedSender)
  .ensure (Zk.verifyCredential hash key proof) .proofRejected
  return [(sender, { entry with zkIdentityVerified := true })]

def credentialEpochOffsetDays : Nat := 25567

/-- The assigned ISO 3166-1 alpha-2 codes. -/
def iso3166Alpha2 : List String :=
  ["AD", "AE", "AF", "AG", "AI", "AL", "AM", "AO", "AQ", "AR", "AS", "AT", "AU", "AW", "AX", "AZ",
    "BA", "BB", "BD", "BE", "BF", "BG", "BH", "BI", "BJ", "BL", "BM", "BN", "BO", "BQ", "BR", "BS",
    "BT", "BV", "BW", "BY", "BZ", "CA", "CC", "CD", "CF", "CG", "CH", "CI", "CK", "CL", "CM", "CN",
    "CO", "CR", "CU", "CV", "CW", "CX", "CY", "CZ", "DE", "DJ", "DK", "DM", "DO", "DZ", "EC", "EE",
    "EG", "EH", "ER", "ES", "ET", "FI", "FJ", "FK", "FM", "FO", "FR", "GA", "GB", "GD", "GE", "GF",
    "GG", "GH", "GI", "GL", "GM", "GN", "GP", "GQ", "GR", "GS", "GT", "GU", "GW", "GY", "HK", "HM",
    "HN", "HR", "HT", "HU", "ID", "IE", "IL", "IM", "IN", "IO", "IQ", "IR", "IS", "IT", "JE", "JM",
    "JO", "JP", "KE", "KG", "KH", "KI", "KM", "KN", "KP", "KR", "KW", "KY", "KZ", "LA", "LB", "LC",
    "LI", "LK", "LR", "LS", "LT", "LU", "LV", "LY", "MA", "MC", "MD", "ME", "MF", "MG", "MH", "MK",
    "ML", "MM", "MN", "MO", "MP", "MQ", "MR", "MS", "MT", "MU", "MV", "MW", "MX", "MY", "MZ", "NA",
    "NC", "NE", "NF", "NG", "NI", "NL", "NO", "NP", "NR", "NU", "NZ", "OM", "PA", "PE", "PF", "PG",
    "PH", "PK", "PL", "PM", "PN", "PR", "PS", "PT", "PW", "PY", "QA", "RE", "RO", "RS", "RU", "RW",
    "SA", "SB", "SC", "SD", "SE", "SG", "SH", "SI", "SJ", "SK", "SL", "SM", "SN", "SO", "SR", "SS",
    "ST", "SV", "SX", "SY", "SZ", "TC", "TD", "TF", "TG", "TH", "TJ", "TK", "TL", "TM", "TN", "TO",
    "TR", "TT", "TV", "TW", "TZ", "UA", "UG", "UM", "US", "UY", "UZ", "VA", "VC", "VE", "VG", "VI",
    "VN", "VU", "WF", "WS", "YE", "YT", "ZA", "ZM", "ZW"]

/-- A country code as the number the proof is about. -/
def countryNumber (code : String) : Nat :=
  (strBytes code).foldl (fun n b => n * 256 + b.toNat) 0

/-- `country_set`: the codes as sorted numbers without repeats. -/
def countrySet (codes : List String) : Option (List Nat) :=
  if codes.isEmpty ∨ codes.any (fun c => !iso3166Alpha2.contains c) then none
  else some ((codes.map countryNumber).dedup.insertionSort (· ≤ ·))

/-- The claim bit a topic asks for. -/
def ClaimTopic.bit : ClaimTopic → Nat
  | kyc => 1
  | aml => 2
  | accredited => 4
  | jurisdiction => 0

def residencyBit : Nat := 16

/-- Checks that the sender's attested credential satisfies the asset's gate on the block's day. -/
def verifyClaimProof (sender : Address) (asset : Asset) (sub : Bytes)
    (todayDays blockTimestamp : Nat) (proof : Bytes) : Read IdentityError Unit := do
  let blockDay := blockTimestamp / 86400 + credentialEpochOffsetDays
  .ensure (todayDays ≤ blockDay + 1 && blockDay ≤ todayDays + 1) (.wrongDate todayDays blockDay)
  .ensure (← isAttested sender) (.notAttested sender)
  let entry : AccountEntry ← .orFail (← getRow (.account sender)) (.accountNotFound sender)
  let hashHex ← .orFail entry.identityHash .noIdentityHash
  let leaf ← .orFail ((hexDecode hashHex).filter Zk.isFieldElement) .malformedIdentityHash
  let claims := asset.requiredClaims.foldl (fun mask t => mask ||| t.bit) 0
  let (mask, countries) ← match asset.allowedJurisdictions with
    | some allowed => do
      let countries ← .orFail (countrySet allowed) .unprovableJurisdictions
      pure (claims ||| residencyBit, countries)
    | none => pure (claims, [])
  .ensure (mask ≠ 0) .nothingToProve
  let key ← .ofExcept (sender.pubkeyBytes.mapError fun _ => IdentityError.malformedSender)
  .ensure (Zk.isFieldElement sub) .malformedSub
  .ensure (Zk.isProof proof) .malformedProof
  .ensure (Zk.verifyPredicate leaf key asset.assetRef.text mask countries sub todayDays proof)
    .proofRejected

end Arxium
