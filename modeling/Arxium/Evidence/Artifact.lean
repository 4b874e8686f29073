import Arxium.Runtime.Payload
import Arxium.Storage.Trie

/-!
# Evidence/Artifact — proofs of misbehaviour

Two forms of equivocation evidence stand side by side.  `verifyEquivocation` takes two whole blocks
and asks that their hashes differ; the artifact form takes two signed headers and asks that the
signed bytes differ.  The other artifacts are checked here as far as signatures and state proofs go;
who is wrong in an execution dispute is for the replay to say.
-/

namespace Arxium

open Crypto SparseMerkle

/-- `strip_prefix("0x")`. -/
def stripHexPrefix (s : String) : List Char :=
  match s.toList with
  | '0' :: 'x' :: rest => rest
  | l => l

/-- Hex with an optional `0x`. -/
def decodeHex (s : String) : Option Bytes := hexDecodeChars (stripHexPrefix s)

/-! ## Two blocks -/

inductive EvidenceError
  | heightMismatch (a b : Nat)
  | roundMismatch (a b : Nat)
  | proposerMismatch
  | sameBlock
  | signature (e : SignatureError)
deriving DecidableEq, Repr

structure EquivocationEvidence (P : Type) where
  blockA : Block P
  blockB : Block P

section Blocks

variable [Crypto] {P : Type} [Wire P]

/-- Two different blocks of one height and round, signed by one proposer: returns the proposer. -/
def verifyEquivocation (genesisHash : Bytes) (evidence : EquivocationEvidence P) :
    Except EvidenceError Address := do
  let a := evidence.blockA
  let b := evidence.blockB
  if a.height ≠ b.height then .error (.heightMismatch a.height b.height)
  if a.round ≠ b.round then .error (.roundMismatch a.round b.round)
  let some proposerA := a.proposer | .error (.signature .missing)
  let some proposerB := b.proposer | .error (.signature .missing)
  if proposerA ≠ proposerB then .error .proposerMismatch
  if a.hash = b.hash then .error .sameBlock
  (a.verifyProposerSignature genesisHash).mapError EvidenceError.signature
  (b.verifyProposerSignature genesisHash).mapError EvidenceError.signature
  return proposerA

end Blocks

/-! ## Artifacts -/

def artifactVersion : Nat := 6

/-- The signed fields of a block, as text. -/
structure CanonicalHeader where
  height : Nat
  parentHash : String
  timestamp : Nat
  txRoot : String
  proposer : String
  parentStateRoot : String
  stateRoot : String
  round : Nat
  buildId : String
deriving DecidableEq, Repr

structure BlockAttestation where
  header : CanonicalHeader
  signature : String
deriving DecidableEq, Repr

/-- A proof that a path of the state tree holds a value, or none. -/
abbrev StateProof := InclusionProof Bytes Bytes

structure BlockDissentClaim where
  computedStateRoot : String
  proofs : List StateProof
  signature : String

structure PrecommitAttestation where
  height : Nat
  round : Nat
  blockHash : String
  ep : String
  signature : String
deriving DecidableEq, Repr

structure PrevoteAttestation where
  height : Nat
  round : Nat
  blockHash : String
  signature : String
deriving DecidableEq, Repr

/-- The fault kinds.  The two the chain only ever refuses carry no data here. -/
inductive Fault
  | equivocation (proposerPubkey : String) (height : Nat) (a b : BlockAttestation)
  | executionDisagreement
  | actionDivergence
  | blockDivergence (proposerPubkey voterPubkey : String) (height : Nat)
      (attestation : BlockAttestation) (actions : List String) (claim : BlockDissentClaim)
  | precommitEquivocation (voterPubkey : String) (height : Nat) (a b : PrecommitAttestation)
  | prevoteEquivocation (voterPubkey : String) (height : Nat) (a b : PrevoteAttestation)

structure EvidenceArtifact where
  version : Nat
  genesisHash : String
  fault : Fault

inductive VerifyError
  | unsupportedVersion (n : Nat)
  | badHex (field : String)
  | badTxRootLength (n : Nat)
  | badPubkeyLength (n : Nat)
  | badPubkey
  | badSignatureLength (n : Nat)
  | heightMismatch (a b : Nat)
  | faultHeightMismatch (claimed actual : Nat)
  | roundMismatch (a b : Nat)
  | sameBlock
  | signatureInvalid (i : Nat)
  | badBlsPubkeyLength (n : Nat)
  | badBlsSignatureLength (n : Nat)
  | badEpLength (n : Nat)
  | badFixedLength (field : String) (len expected : Nat)
  | stateProofDoesNotVerify
  | blockDivergenceHeightMismatch (claimed actual : Nat)
  | blockAttestationSignatureInvalid
  | blockDissentSignatureInvalid
  | blockDivergenceNoDisagreement
  | voteSignatureInvalid (i : Nat)
  | sameVote
  | voteRoundMismatch (a b : Nat)
deriving DecidableEq, Repr

inductive Verdict
  | culpable (fault : String) (culpablePubkey : String)
  | disagreement (fault : String) (parties : List String)
deriving DecidableEq, Repr

section Artifact

variable [Crypto]

def decodeField (field s : String) : Except VerifyError Bytes :=
  match decodeHex s with
  | some b => .ok b
  | none => .error (.badHex field)

/-- A field that holds a digest. -/
def decodeField32 (field s : String) : Except VerifyError Bytes := do
  let b ← decodeField field s
  if isDigest b then return b else .error (.badFixedLength field b.length 32)

/-- `signing_bytes_for`: the same encoding a block's proposer signs. -/
def signingBytesFor [Wire ActionPayload] (genesis : Bytes) (header : CanonicalHeader) :
    Except VerifyError Bytes := do
  let txRoot ← decodeField "tx_root" header.txRoot
  if !isDigest txRoot then .error (.badTxRootLength txRoot.length)
  return Wire.blockSigning ActionPayload
    { genesisHash := genesis, height := header.height, parentHash := header.parentHash,
      timestamp := header.timestamp, txRoot := txRoot, proposer := ⟨header.proposer⟩,
      parentStateRoot := header.parentStateRoot, stateRoot := header.stateRoot,
      round := header.round, buildId := header.buildId }

/-- The Ed25519 key of a hex field. -/
def verifyingKey (field s : String) : Except VerifyError Bytes := do
  let b ← decodeField field s
  if b.length ≠ 32 then .error (.badPubkeyLength b.length)
  if !ed25519IsKey b then .error .badPubkey
  return b

def checkSig (key : Bytes) (sig : String) (message : Bytes) (invalid : VerifyError) :
    Except VerifyError Unit := do
  let b ← decodeField "signature" sig
  if b.length ≠ 64 then .error (.badSignatureLength b.length)
  if ed25519Verify key message b then return () else .error invalid

/-- The artifact form of equivocation: the signed bytes themselves must differ. -/
def verifyArtifactEquivocation [Wire ActionPayload] (genesis : Bytes) (proposerPubkey : String)
    (height : Nat) (a b : BlockAttestation) : Except VerifyError Verdict := do
  let key ← verifyingKey "proposer_pubkey" proposerPubkey
  if a.header.height ≠ b.header.height then
    .error (.heightMismatch a.header.height b.header.height)
  if a.header.height ≠ height then .error (.faultHeightMismatch height a.header.height)
  if a.header.round ≠ b.header.round then .error (.roundMismatch a.header.round b.header.round)
  let bytesA ← signingBytesFor genesis a.header
  checkSig key a.signature bytesA (.signatureInvalid 0)
  let bytesB ← signingBytesFor genesis b.header
  checkSig key b.signature bytesB (.signatureInvalid 1)
  if bytesA = bytesB then .error .sameBlock
  return .culpable "equivocation" proposerPubkey

/-- `to_le_bytes` of an integer of the given width in bytes. -/
def leBytes : Nat → Nat → Bytes
  | 0, _ => []
  | w + 1, n => UInt8.ofNat (n % 256) :: leBytes w (n / 256)

/-- A length-prefixed field of a message. -/
def pushField (bytes : Bytes) : Bytes := leBytes 8 bytes.length ++ bytes

def precommitSigningBytes (genesis : Bytes) (height round : Nat) (blockHash : String)
    (ep : Bytes) : Bytes :=
  ([strBytes "arxium/precommit/v3", genesis, leBytes 8 height, leBytes 4 round,
    strBytes blockHash, ep].map pushField).flatten

def prevoteSigningBytes (genesis : Bytes) (height round : Nat) (blockHash : String) : Bytes :=
  ([strBytes "arxium/prevote/v1", genesis, leBytes 8 height, leBytes 4 round,
    strBytes blockHash].map pushField).flatten

def roundTimeoutSigningBytes (genesis : Bytes) (height round : Nat) (parentHash : String) : Bytes :=
  ([strBytes "arxium/round_timeout/v3", genesis, leBytes 8 height, leBytes 4 round,
    strBytes parentHash].map pushField).flatten

def blockDivergenceSigningBytes (genesis : Bytes) (height : Nat) (headerCommitment : Bytes)
    (parentStateRoot computedStateRoot : String) : Bytes :=
  ([strBytes "arxium/block_divergence/v2", genesis, leBytes 8 height, headerCommitment,
    strBytes parentStateRoot, strBytes computedStateRoot].map pushField).flatten

/-- A vote as the shared check sees it. -/
structure SignedVote where
  height : Nat
  round : Nat
  message : Bytes
  signature : String

def checkVoteSig (voter : Bytes) (i : Nat) (vote : SignedVote) : Except VerifyError Unit := do
  let sig ← decodeField "signature" vote.signature
  if sig.length ≠ 96 then .error (.badBlsSignatureLength sig.length)
  if blsVerify vote.message voter sig then return () else .error (.voteSignatureInvalid i)

/-- Two different messages of one voter at one height and round. -/
def verifyVoteEquivocation (fault voterPubkey : String) (height : Nat) (a b : SignedVote) :
    Except VerifyError Verdict := do
  let voter ← decodeField "voter_pubkey" voterPubkey
  if voter.length ≠ 48 then .error (.badBlsPubkeyLength voter.length)
  if a.height ≠ b.height then .error (.heightMismatch a.height b.height)
  if a.height ≠ height then .error (.faultHeightMismatch height a.height)
  if a.round ≠ b.round then .error (.voteRoundMismatch a.round b.round)
  checkVoteSig voter 0 a
  checkVoteSig voter 1 b
  if a.message = b.message then .error .sameVote
  return .culpable fault voterPubkey

/-- A precommit with the message its fields sign. -/
def PrecommitAttestation.signed (genesis : Bytes) (v : PrecommitAttestation) :
    Except VerifyError SignedVote := do
  let ep ← decodeField "ep" v.ep
  if !isDigest ep then .error (.badEpLength ep.length)
  return ⟨v.height, v.round, precommitSigningBytes genesis v.height v.round v.blockHash ep,
    v.signature⟩

/-- A prevote with the message its fields sign. -/
def PrevoteAttestation.signed (genesis : Bytes) (v : PrevoteAttestation) : SignedVote :=
  ⟨v.height, v.round, prevoteSigningBytes genesis v.height v.round v.blockHash, v.signature⟩

theorem checkVoteSig_eq_ok {voter : Bytes} {i : Nat} {vote : SignedVote} :
    checkVoteSig voter i vote = .ok () ↔ ∃ sig, decodeHex vote.signature = some sig ∧
      sig.length = 96 ∧ blsVerify vote.message voter sig = true := by
  unfold checkVoteSig decodeField
  cases decodeHex vote.signature with
  | none => simp
  | some sig =>
    by_cases hlen : sig.length = 96
    · by_cases hsig : blsVerify vote.message voter sig = true
      · simp [hlen, hsig, bind, Except.bind, pure, Except.pure]
      · simp [hlen, hsig, bind, Except.bind]
    · simp [hlen, bind, Except.bind]

/-- **Two different messages of one voter at one height and round**, and nothing else. -/
theorem verifyVoteEquivocation_eq_ok {fault voterPubkey : String} {height : Nat}
    {a b : SignedVote} {v : Verdict} :
    verifyVoteEquivocation fault voterPubkey height a b = .ok v ↔
      ∃ voter, decodeHex voterPubkey = some voter ∧ voter.length = 48 ∧ a.height = b.height ∧
        a.height = height ∧ a.round = b.round ∧ checkVoteSig voter 0 a = .ok () ∧
        checkVoteSig voter 1 b = .ok () ∧ a.message ≠ b.message ∧ v = .culpable fault voterPubkey := by
  unfold verifyVoteEquivocation decodeField
  cases decodeHex voterPubkey with
  | none => simp
  | some voter =>
    by_cases hlen : voter.length = 48
    swap
    · simp [hlen, bind, Except.bind]
    by_cases hheight : a.height = b.height
    swap
    · simp [hlen, hheight, bind, Except.bind]
    by_cases hfault : a.height = height
    swap
    · have hfault' : b.height ≠ height := fun he => hfault (hheight.trans he)
      simp [hlen, hheight, hfault', bind, Except.bind]
    by_cases hround : a.round = b.round
    swap
    · simp [hlen, hheight, hround, hfault ▸ hheight.symm, bind, Except.bind]
    cases ha : checkVoteSig voter 0 a with
    | error e => simp [hlen, hheight, hround, hfault ▸ hheight.symm, ha, bind, Except.bind]
    | ok u =>
      cases hb : checkVoteSig voter 1 b with
      | error e => simp [hlen, hheight, hround, hfault ▸ hheight.symm, ha, hb, bind, Except.bind]
      | ok u =>
        by_cases hmsg : a.message = b.message
        · simp [hlen, hheight, hround, hfault ▸ hheight.symm, ha, hb, hmsg, bind, Except.bind]
        · simp [hlen, hheight, hround, hfault ▸ hheight.symm, ha, hb, hmsg, bind, Except.bind, pure,
            Except.pure, eq_comm]

variable [Wire ActionPayload] [StateTrie]

/-- A dissenter's claim against a signed block: both signatures and every state proof hold, and the
two final roots differ as text. -/
def verifyBlockDivergence (genesis : Bytes) (proposerPubkey voterPubkey : String) (height : Nat)
    (attestation : BlockAttestation) (claim : BlockDissentClaim) :
    Except VerifyError Verdict := do
  let header := attestation.header
  let key ← verifyingKey "proposer_pubkey" proposerPubkey
  let voter ← decodeField "voter_pubkey" voterPubkey
  if voter.length ≠ 48 then .error (.badBlsPubkeyLength voter.length)
  if header.height ≠ height then .error (.blockDivergenceHeightMismatch height header.height)
  let headerBytes ← signingBytesFor genesis header
  checkSig key attestation.signature headerBytes .blockAttestationSignatureInvalid
  if header.stateRoot = claim.computedStateRoot then .error .blockDivergenceNoDisagreement
  let message := blockDivergenceSigningBytes genesis height (sha256 headerBytes)
    header.parentStateRoot claim.computedStateRoot
  let sig ← decodeField "dissent_claim signature" claim.signature
  if sig.length ≠ 96 then .error (.badBlsSignatureLength sig.length)
  if !blsVerify message voter sig then .error .blockDissentSignatureInvalid
  let parentRoot ← decodeField32 "parent_state_root" header.parentStateRoot
  if !claim.proofs.all (verifyProof StateTrie.hasher StateTrie.depth parentRoot) then
    .error .stateProofDoesNotVerify
  return .disagreement "block_divergence" [proposerPubkey, voterPubkey]

/-- `xc_artifact::verify`, for the kinds the chain acts on. -/
def verifyArtifact (artifact : EvidenceArtifact) : Except VerifyError Verdict := do
  if artifact.version ≠ artifactVersion then .error (.unsupportedVersion artifact.version)
  let genesis ← decodeField32 "genesis_hash" artifact.genesisHash
  match artifact.fault with
  | .equivocation proposerPubkey height a b =>
    verifyArtifactEquivocation genesis proposerPubkey height a b
  | .precommitEquivocation voterPubkey height a b =>
    let a ← a.signed genesis
    let b ← b.signed genesis
    verifyVoteEquivocation "precommit_equivocation" voterPubkey height a b
  | .prevoteEquivocation voterPubkey height a b =>
    verifyVoteEquivocation "prevote_equivocation" voterPubkey height (a.signed genesis)
      (b.signed genesis)
  | .blockDivergence proposerPubkey voterPubkey height attestation _ claim =>
    verifyBlockDivergence genesis proposerPubkey voterPubkey height attestation claim
  | .executionDisagreement => return .disagreement "execution_disagreement" []
  | .actionDivergence => return .disagreement "action_divergence" []

end Artifact

end Arxium
