import Arxium.Runtime.Assets

/-!
# Runtime/Consensus — evidence, slashing and governance

Evidence of double signing slashes and tombstones at once.  An execution fault upheld against a
proposer slashes no one: it marks the disputed header and leaves the verdict to governance.

Naming the culprit of an execution fault means replaying a whole block, and the replay dispatches
actions itself.  The handler therefore takes the adjudicator as an argument; `Runtime/Adjudicate`
ties the knot, which is sound because a replay refuses fault submissions before dispatching them.
-/

namespace Arxium

open ReadProg Crypto

/-- The decoders of what arrives as text or bytes. -/
class Decode where
  /-- A JSON evidence artifact. -/
  artifact : String → Option EvidenceArtifact
  /-- An encoded action, with no bytes left over. -/
  action : Bytes → Option ChainAction

inductive AdjudicateError
  | wrongFaultKind
  | invalidArtifact (e : VerifyError)
  | badHex
  | badAction
  | badRoot (text : String)
  | replay (e : StorageError)
  | panic
deriving DecidableEq, Repr

inductive AdjudicationOutcome
  | culpable (pubkey : String)
  | disagreement (reason : String)
deriving DecidableEq, Repr

/-- What names the culprit of an execution fault. -/
abbrev Adjudicator := EvidenceArtifact → Except AdjudicateError AdjudicationOutcome

namespace Runtime

variable [Crypto]

/-! ## Slashing -/

/-- `xc_evidence::slash_amount`. -/
def slashAmount {ε : Type} [Errors ε] (total bps : Nat) : Read ε Nat := do
  return (← mulOrPanic total bps) / 10000

/-- Moves the challenger's reward out of what a slash put into the pool. -/
def payChallenger (challenger : Address) (accounts : AccountUpdates) (rewardBps : Nat) :
    Read Err AccountUpdates := do
  let poolBefore := (← getAccount rewardPoolAccount).balance
  let poolEntry ← .orFail (accounts.get? rewardPoolAccount)
    (.message "slash did not credit the reward pool")
  let credited ← subOrPanic poolEntry.balance poolBefore
  let reward ← slashAmount credited rewardBps
  if reward = 0 then return accounts
  let poolBalance ← subOrPanic poolEntry.balance reward
  let accounts := accounts ++ [(rewardPoolAccount, { poolEntry with balance := poolBalance })]
  let entry ← overlayAccount accounts challenger
  let balance ← .orFail (checkedAdd entry.balance reward)
    (.message s!"challenger reward overflows {challenger.text}'s balance")
  return accounts ++ [(challenger, { entry with balance := balance })]

/-- The one slash for a tombstoning fault; a validator already tombstoned is not slashed again. -/
def faultSlash (culprit : Address) (reason : SlashReason) (currentHeight : Nat)
    (challenger : Address) : Read Err BlockUpdates := do
  if (← getStatus culprit) = some .tombstoned then return {}
  let masters ← getMasters culprit
  let master ← .orFail masters.head?
    (.message s!"{culprit.text} has no stake to slash for {repr reason}")
  let allocation ← .orFail (← getAllocation master culprit)
    (.message s!"{culprit.text} has no active stake allocation to slash")
  let total ← addOrPanic allocation.activeAmount allocation.unbondingAmount
  let params ← getParams
  let amount ← slashAmount total params.equivocationSlashBps
  let (accounts, stakes) ← circuit (applySlash culprit amount reason currentHeight)
  let accounts ← payChallenger challenger accounts params.challengerRewardBps
  return { accounts := accounts, stakes := stakes,
           validatorStatuses := [(culprit, some .tombstoned)] }

/-! ## Evidence -/

section Evidence

variable [Wire ActionPayload]

/-- This chain's genesis hash, as its row spells it. -/
def chainGenesis (what : String) : Read Err String := do
  .orFail (← getRow .genesisHash)
    (.message s!"this chain has no seeded genesis hash to check the {what} against")

/-- No fault of this culprit at this height was acted on before. -/
def requireUnprocessed (height : Nat) (culprit : Address) (what : String) : Read Err Unit := do
  require (← getRow (.evidenceMarker height culprit)).isNone
    s!"{what} evidence for {culprit.text} at height {height} already processed"

def submitEquivocationEvidence (blockA blockB : ChainBlock) (currentHeight : Nat)
    (challenger : Address) : Read Err BlockUpdates := do
  require (blockA.round = blockB.round)
    s!"invalid equivocation evidence: blocks are for different rounds ({blockA.round} and {blockB.round}) of height {blockA.height}"
  let genesisText ← chainGenesis "evidence"
  let genesis ← .orFail (parseHash genesisText)
    (.message "this chain's genesis hash is malformed")
  let equivocator ← check Err.evidence (verifyEquivocation genesis ⟨blockA, blockB⟩)
  requireUnprocessed blockA.height equivocator "equivocation"
  let updates ← faultSlash equivocator .doubleSign currentHeight challenger
  return { updates with evidence := some ⟨blockA.height, equivocator, none, none, none⟩ }

/-- Both texts are hashes, and of the same bytes. -/
def genesisHashMatches (a b : String) : Bool :=
  (parseHash a).any fun x => parseHash b = some x

/-- What a fault submission is about, once a culprit has been named. -/
structure FaultFinding where
  outcome : AdjudicationOutcome
  height : Nat
  proposerPubkey : String
  voterPubkey : String
  reason : SlashReason

variable [StateTrie]

/-- An upheld dispute is open for `challengeWindowBlocks` after the block. -/
def checkChallengeWindow (fault : Fault) (currentHeight : Nat) : Read Err Unit :=
  match fault with
  | .blockDivergence _ _ height _ _ _ => do
    let closes := saturatingAdd64 height (← getParams).challengeWindowBlocks
    require (currentHeight ≤ closes)
      s!"challenge window for height {height} closed at height {closes}"
  | _ => return ()

/-- A vote equivocation names its culprit by its two signatures. -/
def findVoteEquivocation (artifact : EvidenceArtifact) (voterPubkey : String) (height : Nat) :
    Read Err FaultFinding := do
  match ← check Err.artifact (verifyArtifact artifact) with
  | .culpable _ culpablePubkey =>
    return ⟨.culpable culpablePubkey, height, "", voterPubkey, .doubleSign⟩
  | .disagreement _ _ => bail "vote equivocation did not name a culprit"

def findFault (adjudicator : Adjudicator) (artifact : EvidenceArtifact) :
    Read Err FaultFinding :=
  match artifact.fault with
  | .blockDivergence proposerPubkey voterPubkey height _ _ _ =>
    match adjudicator artifact with
    | .ok outcome => return ⟨outcome, height, proposerPubkey, voterPubkey, .executionFault⟩
    | .error .panic => panic
    | .error e => bail s!"adjudication failed: {repr e}"
  | .prevoteEquivocation voterPubkey height _ _
  | .precommitEquivocation voterPubkey height _ _ =>
    findVoteEquivocation artifact voterPubkey height
  | .equivocation .. => bail
    "Equivocation evidence must be submitted via SubmitEquivocationEvidence, not SubmitExecutionFault"
  | .executionDisagreement => bail "ExecutionDisagreement has no on-chain adjudication path"
  | .actionDivergence =>
    bail "ActionDivergence has no on-chain adjudication path; submit a BlockDivergence"

/-- The address of the named key: a proposer's own, or whoever registered a voter's. -/
def findCulprit (finding : FaultFinding) (culpable : Bytes) : Read Err Address :=
  if decodeHex finding.proposerPubkey = some culpable then
    return .fromPubkeyBytes culpable
  else if decodeHex finding.voterPubkey = some culpable then do
    require (culpable.length = 48) "BLS public key must be 48 bytes"
    .orFail (← blsPubkeyOwnerLookup culpable)
      (.message "no registered owner for the culpable BLS pubkey")
  else bail "adjudicator named a pubkey that matches neither party in the artifact"

/-- The header whose block was shown wrong, and what the chain makes of its build. -/
def disputedHeader (artifact : EvidenceArtifact) (finding : FaultFinding) (culpable : Bytes)
    (genesisText : String) : Read Err (Option (Bytes × DisputeCause)) :=
  match artifact.fault with
  | .blockDivergence _ _ _ attestation _ _ =>
    if finding.reason ≠ .doubleSign ∧ decodeHex finding.proposerPubkey = some culpable then do
      let genesis ← .orFail (parseHash genesisText) (.message "malformed hash")
      let bytes ← check Err.artifact (signingBytesFor genesis attestation.header)
      let params ← getParams
      return some (sha256 bytes, params.classifyBuild attestation.header.buildId)
    else return none
  | _ => return none

/-- The key an adjudication named. -/
def culpablePubkey : AdjudicationOutcome → Read Err String
  | .culpable pubkey => return pubkey
  | .disagreement reason => bail s!"adjudication could not name a culprit: {reason}"

/-- An upheld dispute slashes no one yet. -/
def slashUnlessDisputed (disputed : Bool) (culprit : Address) (reason : SlashReason)
    (currentHeight : Nat) (challenger : Address) : Read Err BlockUpdates :=
  if disputed then return {} else faultSlash culprit reason currentHeight challenger

def submitExecutionFault [Decode] (adjudicator : Adjudicator) (artifactJson : String)
    (currentHeight : Nat) (challenger : Address) : Read Err BlockUpdates := do
  let artifact ← .orFail (Decode.artifact artifactJson)
    (.message "malformed evidence artifact JSON")
  let genesisText ← chainGenesis "artifact"
  require (genesisHashMatches genesisText artifact.genesisHash)
    s!"evidence artifact was produced against genesis {artifact.genesisHash}, this chain's genesis is {genesisText}"
  checkChallengeWindow artifact.fault currentHeight
  let finding ← findFault adjudicator artifact
  let culpablePubkey ← culpablePubkey finding.outcome
  let culpable ← .orFail (decodeHex culpablePubkey)
    (.message "adjudicator named a malformed pubkey")
  let culprit ← findCulprit finding culpable
  requireUnprocessed finding.height culprit "execution fault"
  let disputed ← disputedHeader artifact finding culpable genesisText
  let updates ← slashUnlessDisputed disputed.isSome culprit finding.reason currentHeight challenger
  let marker : EvidenceMarker := ⟨finding.height, culprit, disputed.map Prod.fst,
    disputed.map fun _ => challenger, disputed.map Prod.snd⟩
  return { updates with evidence := some marker }

end Evidence

/-! ## Governance -/

def submitProposal (action : ChainAction) (proposed : GovernanceAction) (description : String)
    (currentHeight : Nat) : Read Err BlockUpdates := do
  checkReason description "a proposal"
  let governance ←
    circuit (Governance.applySubmit action.sender proposed description currentHeight)
  return { governance := governance }

def applyAttestor (action : ChainAction) (name : String) (owners : List Address)
    (threshold : Nat) (evidenceHash evidenceUri : String) (currentHeight : Nat) :
    Read Err BlockUpdates := do
  let (governance, accounts) ← circuit (Governance.applyAttestorApplication action.sender name
    owners threshold evidenceHash evidenceUri currentHeight)
  return { governance := governance, accounts := accounts }

def voteProposal (action : ChainAction) (proposal : Nat) (approve : Bool) (currentHeight : Nat) :
    Read Err BlockUpdates := do
  let governance ← circuit (Governance.applyVote action.sender proposal approve currentHeight)
  return { governance := governance }

/-- Executes a proposal.  On an attack verdict the culprit is slashed; whatever makes the slash
fail, the proposal still closes. -/
def executeProposal (proposal currentHeight : Nat) : Read Err BlockUpdates := do
  let result ← circuit (Governance.applyExecute proposal currentHeight)
  let updates : BlockUpdates :=
    { governance := result.rows, accounts := result.accounts,
      attestorRegistration := result.attestors.registration,
      attestorDeregistration := result.attestors.deregistration }
  match result.slash with
  | none => return updates
  | some dispute =>
    let slash := faultSlash dispute.culprit .executionFault currentHeight dispute.challenger
    match ← slash.attempt with
    | .ok slashed =>
      return { updates with
        accounts := slashed.accounts
        stakes := slashed.stakes
        validatorStatuses := slashed.validatorStatuses }
    | .error .panic => panic
    | .error _ => return updates

end Runtime

end Arxium
