import Arxium.Primitives.Validators

/-!
# Primitives/Block — actions, blocks and what their signatures cover

A block is identified by the hash of its whole encoding, while its proposer signs only the fields of
`BlockSigningPayload`: the action list enters the signature through `txRoot` alone, and the round
certificate and the text of the signature do not enter it at all.

The encoding itself (bincode) is a library; `Wire` carries its functions.
-/

namespace Arxium

/-- A signed request: who asks, the sender's counter, and what for. -/
structure Action (P : Type) where
  sender : Address
  nonce : Nat
  signature : Option String
  payload : P

/-- What an action's signature covers. -/
structure ActionSigningPayload (P : Type) where
  genesis : Bytes
  sender : Address
  nonce : Nat
  payload : P

/-- A quorum of round-timeout votes: the certificate that moves a height to its next round. -/
structure RoundCertificate where
  height : Nat
  round : Nat
  signers : List Address
  aggregateSignature : Bytes
deriving DecidableEq, Repr

structure Block (P : Type) where
  height : Nat
  parentHash : String
  timestamp : Nat
  actions : List (Action P)
  txRoot : Bytes
  proposer : Option Address
  signature : Option String
  parentStateRoot : String
  stateRoot : String
  round : Nat
  roundCertificate : Option RoundCertificate
  buildId : String

/-- What a proposer's signature covers. -/
structure BlockSigningPayload where
  genesisHash : Bytes
  height : Nat
  parentHash : String
  timestamp : Nat
  txRoot : Bytes
  proposer : Address
  parentStateRoot : String
  stateRoot : String
  round : Nat
  buildId : String
deriving DecidableEq, Repr

def maxBuildIdLen : Nat := 64

/-- The binary encoding of the values that are hashed, signed or measured. -/
class Wire (P : Type) where
  block : Block P → Bytes
  blockSigning : BlockSigningPayload → Bytes
  action : Action P → Bytes
  actionSigning : ActionSigningPayload P → Bytes
  payload : P → Bytes

/-- Different headers are signed as different messages.  That no two different blocks or action lists
*in play* encode alike is assumed where it is used, about those values. -/
structure Wire.Laws (P : Type) [Wire P] : Prop where
  blockSigning_injective : Function.Injective (Wire.blockSigning (P := P))

/-- The text of a 32-byte hash. -/
def hashText (h : Bytes) : String := "0x" ++ hexEncode h

theorem hashText_injective : Function.Injective hashText := by
  intro a b h
  have := congrArg String.toList h
  simp only [hashText, String.toList_append, List.append_cancel_left_eq] at this
  exact hexEncode_injective (String.toList_inj.mp this)

variable [Crypto] {P : Type} [Wire P]

open Crypto

/-- `Hash32::parse`: the hex of a digest, with or without its `0x`. -/
def parseHash (s : String) : Option Bytes := do
  let digits := match s.toList with
    | '0' :: 'x' :: rest => rest
    | '0' :: 'X' :: rest => rest
    | l => l
  let bytes ← hexDecodeChars digits
  if isDigest bytes then some bytes else none

/-- A digest is read back from its text. -/
theorem parseHash_hashText {h : Bytes} (hd : isDigest h = true) : parseHash (hashText h) = some h := by
  have hchars : (hashText h).toList = '0' :: 'x' :: (hexEncode h).toList := by
    rw [hashText, String.toList_append]
    rfl
  have hdecode := hexDecode_hexEncode h
  rw [hexDecode] at hdecode
  unfold parseHash
  rw [hchars]
  simp only [hdecode]
  exact if_pos hd

namespace Block

/-- The hash of the whole encoded block. -/
def hash (b : Block P) : Bytes := sha256 (Wire.block b)

def signingPayload (b : Block P) (genesisHash : Bytes) (proposer : Address) :
    BlockSigningPayload where
  genesisHash := genesisHash
  height := b.height
  parentHash := b.parentHash
  timestamp := b.timestamp
  txRoot := b.txRoot
  proposer := proposer
  parentStateRoot := b.parentStateRoot
  stateRoot := b.stateRoot
  round := b.round
  buildId := b.buildId

def signingBytes (b : Block P) (genesisHash : Bytes) (proposer : Address) : Bytes :=
  Wire.blockSigning P (b.signingPayload genesisHash proposer)

def verifyProposerSignature (b : Block P) (genesisHash : Bytes) :
    Except SignatureError Unit := do
  let some proposer := b.proposer | .error .missing
  let some sigHex := b.signature | .error .missing
  let some sigBytes := hexDecode sigHex | .error .invalidHex
  if sigBytes.length ≠ 64 then .error (.wrongLength sigBytes.length)
  let pubkeyBytes ← proposer.pubkeyBytes.mapError SignatureError.badPubkey
  if pubkeyBytes.length ≠ 32 then .error (.wrongLength pubkeyBytes.length)
  if !ed25519IsKey pubkeyBytes then .error .invalid
  if ed25519Verify pubkeyBytes (b.signingBytes genesisHash proposer) sigBytes then .ok ()
  else .error .invalid

/-- The block a chain starts from. -/
def genesis (timestamp : Nat) : Block P where
  height := 0
  parentHash := "0x0000000000000000000000000000000000000000000000000000000000000000"
  timestamp := timestamp
  actions := []
  txRoot := List.replicate 32 0
  proposer := none
  signature := none
  parentStateRoot := "0x0000000000000000000000000000000000000000000000000000000000000000"
  stateRoot := "0x0000000000000000000000000000000000000000000000000000000000000000"
  round := 0
  roundCertificate := none
  buildId := ""

end Block

namespace Action

def signingBytes (a : Action P) (genesis : Bytes) : Bytes :=
  Wire.actionSigning ⟨genesis, a.sender, a.nonce, a.payload⟩

/-- `verify_signature`: one key, or a multisig when the sender's key carries the tag. -/
def verifySignature (a : Action P) (genesis : Bytes) : Except SignatureError Unit := do
  let some sigHex := a.signature | .error .missing
  let some sigBytes := hexDecode sigHex | .error .invalidHex
  let senderBytes ← a.sender.pubkeyBytes.mapError SignatureError.badPubkey
  if senderBytes.length == 33 && senderBytes.head? == some multisigTag then
    verifyMultisig senderBytes.tail sigBytes (a.signingBytes genesis)
  else verifyOne senderBytes sigBytes (a.signingBytes genesis)

/-- A threshold policy's own multisig check, over a witness. -/
def verifyThreshold (policy : ThresholdPolicy) (witness message : Bytes) :
    Except SignatureError Unit := do
  let address ← multisigAddress policy.threshold policy.members
  let bytes ← address.pubkeyBytes.mapError SignatureError.badPubkey
  verifyMultisig bytes.tail witness message

/-- `verify_account_signature`: a plain signature, or one of the three modes of a policy. -/
def verifyAccountSignature (a : Action P) (account : Option ProgrammableAccount)
    (genesis : Bytes) : Except SignatureError PolicyAuthorization :=
  match account with
  | none => do
    a.verifySignature genesis
    return .owner
  | some account => do
    account.policy.validate
    validateAccountAddress a.sender
    let some sigHex := a.signature | .error .missing
    let some bytes := hexDecode sigHex | .error .invalidHex
    let message := a.signingBytes genesis
    match bytes with
    | 0xa7 :: 0 :: witness =>
      verifyThreshold account.policy.owners witness message
      return .owner
    | 0xa7 :: 1 :: witness =>
      if witness.length ≠ 96 then .error .invalid
      match account.policy.sessions.findIdx? (·.publicKey == witness.take 32) with
      | none => .error .invalid
      | some i =>
        verifyOne (witness.take 32) (witness.drop 32) message
        return .session i
    | 0xa7 :: 2 :: witness =>
      match account.policy.recovery with
      | none => .error .invalid
      | some recovery =>
        verifyThreshold recovery.guardians witness message
        return .guardian
    | _ => .error .invalid

end Action

end Arxium
