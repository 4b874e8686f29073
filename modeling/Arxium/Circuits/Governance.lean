import Arxium.Circuits.Identity

/-!
# Circuits/Governance — proposals, votes and their execution

The validator set in force votes with its power; anyone closes a proposal once its window has
ended.  An action that cannot be applied any more rejects its proposal instead of failing, so
several branches of `applyExecute` hand the outcome of a circuit to the proposal's status.
-/

namespace Arxium

open ReadProg Writes

inductive GovernanceError
  | storage (e : StorageError)
  | notValidator (a : Address)
  | unknownProposal (id : Nat)
  | notOpen (id : Nat)
  | votingClosed (id endsAt : Nat)
  | votingStillOpen (id endsAt : Nat)
  | alreadyVoted (id : Nat) (voter : Address)
  | identity (e : IdentityError)
  | invalidEvidence
  | unknownAttestor (a : Address)
  | cannotPayBond (bond balance : Nat)
  | treasuryInsufficient (amount balance : Nat)
  | zeroSpend
  | invalidAddress (a : Address)
  | forkedWithCorrections
  | attackWithPayouts
  | invalidParams (reason : String)
  | panic
deriving DecidableEq, Repr

instance : Errors GovernanceError := ⟨.storage, .panic⟩

/-- `?` on an identity error. -/
def GovernanceError.ofIdentity : IdentityError → GovernanceError
  | .panic => .panic
  | e => .identity e

/-- The attestor-registry writes of an executed proposal. -/
structure AttestorChange where
  registration : Option AttestorRegistration := none
  deregistration : Option Address := none

namespace Governance

def maxEvidenceHashLen : Nat := 128
def maxEvidenceUriLen : Nat := 512
def maxCanonicalBuilds : Nat := 32

/-- `who`'s power in the set in force. -/
def votingPower (who : Address) (currentHeight : Nat) : Read GovernanceError Nat := do
  let epochLength := (← getParams).epochLength
  let set : Option ValidatorSet ←
    getRow (.validatorSet (validatorSetEffectiveHeight currentHeight epochLength))
  .orFail (set.bind (·[who]?)) (.notValidator who)

def getProposal (id : Nat) : Read GovernanceError Proposal := do
  .orFail (← getRow (.proposal id)) (.unknownProposal id)

def changesEpochLength {ε : Type} [Errors ε] (proposed : ChainParams) : Read ε Bool := do
  return proposed.epochLength ≠ (← getParams).epochLength

/-- The checks of `validate_action` on new parameters, in order. -/
def validateParams (p : ChainParams) : Except GovernanceError Unit :=
  if p.blockIntervalSecs = 0 then .error (.invalidParams "block_interval_secs must be positive")
  else if p.epochLength = 0 then .error (.invalidParams "epoch_length must be positive")
  else if p.minValidatorSet = 0 ∨ p.maxValidatorSet < p.minValidatorSet then
    .error (.invalidParams "need 0 < min_validator_set <= max_validator_set")
  else if maxCanonicalBuilds < p.canonicalBuilds.length ∨
      p.canonicalBuilds.any (fun b => b.isEmpty || maxBuildIdLen < b.utf8ByteSize) then
    .error (.invalidParams "canonical_builds: at most 32 non-empty ids of at most 64 bytes")
  else if p.maxBlockWeight = 0 then .error (.invalidParams "max_block_weight must be positive")
  else if p.votingPeriodBlocks = 0 then
    .error (.invalidParams "voting_period_blocks must be positive")
  else if totalVotingPower < p.proposalQuorumBps then
    .error (.invalidParams "proposal_quorum_bps is over 10_000")
  else if p.actionFee = 0 then .error (.invalidParams "action_fee must be positive")
  else if p.minValidatorStake = 0 then
    .error (.invalidParams "min_validator_stake must be positive")
  else if 10000 < p.equivocationSlashBps ∨ 10000 < p.downtimeSlashBps then
    .error (.invalidParams "a slash rate is over 100%")
  else if 10000 < p.feeProposerBps + p.feeTreasuryBps then
    .error (.invalidParams "fee_proposer_bps + fee_treasury_bps is over 100%")
  else if p.challengeWindowBlocks = 0 ∨ p.unbondingBlocks ≤ p.challengeWindowBlocks then
    .error (.invalidParams "challenge_window_blocks must be positive and below unbonding_blocks")
  else if 1000 < p.challengerRewardBps then
    .error (.invalidParams "challenger_reward_bps is over 10%")
  else .ok ()

section Circuit

variable [Crypto]

/-- An address whose text decodes. -/
def validateAddress (a : Address) : Except GovernanceError Unit :=
  match a.pubkeyBytes with
  | .ok _ => .ok ()
  | .error _ => .error (.invalidAddress a)

/-- The checks on a proposed action that need no state. -/
def validateAction : GovernanceAction → Except GovernanceError Unit
  | .setChainParams p => validateParams p
  | .addAttestor attestor name owners threshold evidenceHash evidenceUri => do
    (validateAttestorName name).mapError fun r => GovernanceError.identity (.invalidName r)
    (validateAttestorMultisig attestor owners threshold).mapError
      fun r => GovernanceError.identity (.invalidMultisig r)
    if evidenceHash.isEmpty ∨ maxEvidenceHashLen < evidenceHash.utf8ByteSize ∨
        evidenceUri.isEmpty ∨ maxEvidenceUriLen < evidenceUri.utf8ByteSize then
      .error .invalidEvidence
  | .removeAttestor attestor => validateAddress attestor
  | .unblockAttestor attestor => validateAddress attestor
  | .treasurySpend recipient amount => do
    if amount = 0 then .error .zeroSpend
    if recipient = treasuryAccount then .error (.invalidAddress recipient)
    validateAddress recipient
  | .reinstateValidator validator => validateAddress validator
  | .resolveDispute _ _ resolution corrections cause bounty => do
    if resolution = .forked ∧ corrections ≠ [] then .error .forkedWithCorrections
    if cause = .attack ∧ (corrections ≠ [] ∨ 0 < bounty) then .error .attackWithPayouts
    corrections.forM fun c => validateAddress c.1

/-- What an attestor action needs from the state before it is worth a vote: the rows it writes at
once, and how long the vote runs. -/
def openAttestorAction (action : GovernanceAction) (params : ChainParams) (currentHeight : Nat) :
    Read GovernanceError (GovernanceUpdates × Nat) :=
  match action with
  | .addAttestor attestor name owners threshold _ _ => do
    let _ ← (applyRegisterAttestor attestor name owners threshold currentHeight).mapError
      GovernanceError.ofIdentity
    return ([], params.votingPeriodBlocks)
  | .removeAttestor attestor => do
    let rows ← (applyOpenRemoval attestor currentHeight).mapError GovernanceError.ofIdentity
    return (rows, params.attestorRemovalVotingBlocks)
  | .unblockAttestor attestor => do
    -- Any failure here, a storage error included, reads as "not an attestor".
    match ← (requireAttestor attestor).attempt with
    | .ok _ => return ([], params.votingPeriodBlocks)
    | .error .panic => panic
    | .error _ => .fail (.unknownAttestor attestor)
  | _ => return ([], params.votingPeriodBlocks)

def openProposal (proposer : Address) (action : GovernanceAction) (description : String)
    (currentHeight bond : Nat) : Read GovernanceError GovernanceUpdates := do
  let params ← getParams
  let (rows, votingBlocks) ← openAttestorAction action params currentHeight
  let id : Nat := (← getRow .nextProposalId).getD (0 : Nat)
  let next ← addOrPanic64 id 1
  let proposal : Proposal :=
    { id := id, proposer := proposer, action := action, description := description,
      createdAt := currentHeight, votingEndsAt := saturatingAdd64 currentHeight votingBlocks,
      yesPower := 0, noPower := 0, status := .opened, bond := bond }
  return rows ++ [put (.proposal id) proposal, put .nextProposalId next]

/-- Opens a proposal of an active validator. -/
def applySubmit (proposer : Address) (action : GovernanceAction) (description : String)
    (currentHeight : Nat) : Read GovernanceError GovernanceUpdates := do
  let _ ← votingPower proposer currentHeight
  .ofExcept (validateAction action)
  match action with
  | .setChainParams p =>
    if ← changesEpochLength p then
      .fail (.invalidParams "epoch_length can't be changed by governance")
  | _ => pure ()
  openProposal proposer action description currentHeight 0

/-- An attestor's own application: it pays the bond to the treasury. -/
def applyAttestorApplication (applicant : Address) (name : String) (owners : List Address)
    (threshold : Nat) (evidenceHash evidenceUri : String) (currentHeight : Nat) :
    Read GovernanceError (GovernanceUpdates × AccountUpdates) := do
  let action : GovernanceAction :=
    .addAttestor applicant name owners threshold evidenceHash evidenceUri
  .ofExcept (validateAction action)
  let _ ← (applyRegisterAttestor applicant name owners threshold currentHeight).mapError
    GovernanceError.ofIdentity
  let bond := (← getParams).attestorApplyBond
  let payer ← getAccount applicant
  let rest ← .orFail (checkedSub payer.balance bond) (.cannotPayBond bond payer.balance)
  let treasury ← getAccount treasuryAccount
  let rows ← openProposal applicant action ("Attestor application: " ++ name) currentHeight bond
  return (rows, [(applicant, { payer with balance := rest }),
    (treasuryAccount, { treasury with balance := saturatingAdd treasury.balance bond })])

/-- Pays an application's bond back, as far as the treasury holds it. -/
def refundBond (proposal : Proposal) : Read GovernanceError AccountUpdates := do
  if proposal.bond = 0 then return []
  let treasury ← getAccount treasuryAccount
  let refund := min proposal.bond treasury.balance
  let payee ← getAccount proposal.proposer
  return [(treasuryAccount, { treasury with balance := treasury.balance - refund }),
    (proposal.proposer, { payee with balance := saturatingAdd payee.balance refund })]

/-- `saturating_add` on `u32`. -/
def saturatingAdd32 (a b : Nat) : Nat := min (a + b) (2 ^ 32 - 1)

/-- One vote per validator, with its power now. -/
def applyVote (voter : Address) (id : Nat) (approve : Bool) (currentHeight : Nat) :
    Read GovernanceError GovernanceUpdates := do
  let power ← votingPower voter currentHeight
  let proposal ← getProposal id
  .ensure (proposal.status = .opened) (.notOpen id)
  .ensure (currentHeight < proposal.votingEndsAt) (.votingClosed id proposal.votingEndsAt)
  .ensure (← getRow (.vote id voter)).isNone (.alreadyVoted id voter)
  let counted := if approve then
      { proposal with yesPower := saturatingAdd32 proposal.yesPower power }
    else { proposal with noPower := saturatingAdd32 proposal.noPower power }
  return [put (.proposal id) counted, put (.vote id voter) approve]

/-! ## Execution -/

/-- What a passed proposal does. -/
structure Execution where
  executed : Bool := false
  rows : GovernanceUpdates := []
  accounts : AccountUpdates := []
  /-- An executed attack verdict: the caller slashes. -/
  slash : Option OpenDispute := none
  attestors : AttestorChange := {}

/-- `if let Ok(..)`: every failure but a panic leaves the proposal rejected. -/
def orRejected {α : Type} (p : Read IdentityError α) (f : α → Read GovernanceError Execution) :
    Read GovernanceError Execution := do
  match ← p.attempt with
  | .ok a => f a
  | .error .panic => panic
  | .error _ => return {}

/-- The bounty of a resolved dispute, paid by the treasury; `none` when it cannot be. -/
def payBounty (challenger : Address) (bounty : Nat) :
    Read GovernanceError (Option AccountUpdates) := do
  if bounty = 0 then return some []
  let treasury ← getAccount treasuryAccount
  match checkedSub treasury.balance bounty with
  | none => return none
  | some rest =>
    if challenger = treasuryAccount then return none
    let payee ← getAccount challenger
    return some [(treasuryAccount, { treasury with balance := rest }),
      (challenger, { payee with balance := saturatingAdd payee.balance bounty })]

/-- Sets one corrected balance, over whatever the bounty left there. -/
def correctOne (accounts : AccountUpdates) (correction : Address × Nat) :
    Read GovernanceError AccountUpdates := do
  let entry ← match accounts.get? correction.1 with
    | some entry => pure entry
    | none => getAccount correction.1
  return accounts ++ [(correction.1, { entry with balance := correction.2 })]

/-- What each action of a passed proposal does. -/
def executeAction (proposal : Proposal) (currentHeight : Nat) : Read GovernanceError Execution :=
  match proposal.action with
  | .setChainParams params => do
    if ← changesEpochLength params then return {}
    return { executed := true, rows := [put .chainParams params] }
  | .addAttestor attestor name owners threshold _ _ =>
    orRejected (applyRegisterAttestor attestor name owners threshold currentHeight)
      fun (registration, nameRow) => do
        let accounts ← refundBond proposal
        return { executed := true, rows := nameRow, accounts := accounts,
                 attestors := { registration := some registration } }
  | .removeAttestor attestor =>
    orRejected (applyDeregisterAttestor attestor) fun (deregistration, nameRow) =>
      return { executed := true, rows := nameRow,
               attestors := { deregistration := some deregistration } }
  | .unblockAttestor attestor =>
    orRejected (applySetSelfBlocked attestor false) fun rows =>
      return { executed := true, rows := rows }
  | .treasurySpend recipient amount => do
    let treasury ← getAccount treasuryAccount
    if recipient = treasuryAccount then return {}
    match checkedSub treasury.balance amount with
    | none => return {}
    | some rest =>
      let payee ← getAccount recipient
      let accounts : AccountUpdates := [(treasuryAccount, { treasury with balance := rest }),
        (recipient, { payee with balance := saturatingAdd payee.balance amount })]
      return { executed := true, accounts := accounts }
  | .resolveDispute height header _ corrections cause bounty => do
    let dispute : Option OpenDispute ← getRow (.disputeOpen height header)
    match dispute with
    | none => return {}
    | some dispute =>
      -- The chain's own verdict `bug` cannot be raised to `attack`.
      if dispute.cause = .bug ∧ cause = .attack then return {}
      match ← payBounty dispute.challenger bounty with
      | none => return {}
      | some accounts =>
        let accounts ← corrections.foldlM correctOne accounts
        let slash := if cause = .attack then some dispute else none
        return { executed := true, rows := [del (.disputeOpen height header)],
                 accounts := accounts, slash := slash }
  | .reinstateValidator validator => do
    let status ← getStatus validator
    if status = some .tombstoned then
      return { executed := true, rows := [del (.validatorStatus validator)] }
    else return {}

/-- A removal vote that did not remove lifts the block it raised. -/
def closeRemoval (action : GovernanceAction) (executed : Bool) (currentHeight : Nat) :
    Read GovernanceError GovernanceUpdates :=
  match action with
  | .removeAttestor attestor => do
    if executed then return []
    let params ← getParams
    (applyCloseFailedRemoval attestor currentHeight params.attestorRemovalCooldownBlocks).mapError
      GovernanceError.ofIdentity
  | _ => return []

/-- A proposal that did not pass does nothing. -/
def executePassed (proposal : Proposal) (quorum currentHeight : Nat) :
    Read GovernanceError Execution :=
  let passed := proposal.noPower < proposal.yesPower && quorum ≤ proposal.yesPower
  if passed then executeAction proposal currentHeight else return {}

/-- Marks the proposal executed or rejected. -/
def closeProposal (id : Nat) (proposal : Proposal) (result : Execution) (currentHeight : Nat) :
    Read GovernanceError Execution := do
  let closing ← closeRemoval proposal.action result.executed currentHeight
  let status : ProposalStatus := if result.executed then .executed else .rejected
  return { result with
    rows := result.rows ++ closing ++ [put (.proposal id) { proposal with status := status }] }

/-- Closes a proposal whose window has ended. -/
def applyExecute (id currentHeight : Nat) : Read GovernanceError Execution := do
  let proposal ← getProposal id
  .ensure (proposal.status = .opened) (.notOpen id)
  .ensure (proposal.votingEndsAt ≤ currentHeight) (.votingStillOpen id proposal.votingEndsAt)
  let quorum := (← getParams).proposalQuorumBps
  let result ← executePassed proposal quorum currentHeight
  closeProposal id proposal result currentHeight

end Circuit

end Governance

end Arxium
