import Arxium.Executor.Categories
import Arxium.Runtime.Adjudicate

/-!
# Executor/Accept — taking over a block from a peer

`acceptBlock` checks the header against what the node holds, runs the seed, the actions and the seal on
the committed rows, compares the state root with the one the header claims, and commits.  A block that
a later round's certificate proves dead is unwound first.

The keys a run touched, which the source reports with a disagreement, are not returned here: a proof of
divergence is given by its submitter.
-/

namespace Arxium

open ReadProg Writes Crypto

inductive AcceptBlockError
  | signature (e : SignatureError)
  | txRootMismatch (height : Nat) (expected claimed : String)
  | wrongProposer (height : Nat) (expected actual : Option Address)
  | missingRoundCertificate (height round : Nat)
  | unexpectedRoundCertificate (height : Nat)
  | roundCertificateMismatch (height round certHeight certRound : Nat)
  | roundCertificateBelowQuorum (height round signers power needed : Nat)
  | roundCertificateOversized (height round signers validators : Nat)
  | roundCertificateUnknownSigner (height round : Nat) (signer : Address)
  | roundCertificateInvalid (height round : Nat)
  | notNextHeight (blockHeight tipHeight : Nat)
  | contradictsCertificate (height : Nat) (certified offered : Bytes)
  | contradictsLock (height : Nat) (locked offered : Bytes)
  | deadRound (height round currentRound : Nat)
  | parentMismatch (localHash : Bytes) (expected : String)
  | buildIdTooLong (height len : Nat)
  | parentStateRootMismatch (height : Nat) (localRoot claimed : String)
  | nonMonotonicTimestamp (height timestamp parentTimestamp : Nat)
  | timestampTooFarAhead (height timestamp drift maxDrift : Nat)
  | storage (e : StorageError)
  | execution (e : ExecutorError)
  | blockOverWeight (height maxBlockWeight excess : Nat)
  | actionMismatch (blockHeight claimed executed : Nat) (localStateRoot : String)
  | stateRootMismatch (height : Nat) (expected claimed : String)
  | blockSealed (e : Err)
  | panic
deriving DecidableEq, Repr

def maxFutureDriftSecs : Nat := 30

/-- What the node brings along: its clock, and the scan that lists an asset's holders from its balance
rows where there is no index row. -/
structure NodeEnv where
  now : Nat
  scan : Rows → AssetRef → List Address

/-- Goes on unless the condition holds. -/
def rejectIf (b : Bool) (e : AcceptBlockError) : Except AcceptBlockError Unit :=
  if b then .error e else .ok ()

theorem rejectIf_eq_ok {b : Bool} {e : AcceptBlockError} {u : Unit} :
    rejectIf b e = .ok u ↔ b = false := by
  cases b <;> simp [rejectIf]

/-- `current` and its fee, as the executor wants them. -/
def meter [Wire ActionPayload] (params : ChainParams) (action : ChainAction) : Nat × Nat :=
  (actionWeight action, actionFeeFor params (actionWeight action))

section Checks

variable [Crypto] (db : Db)

/-! ## Round certificates -/

/-- The keys of the signers of a certificate, each a member not listed before. -/
def signerKeys (set : ValidatorSet) (height round : Nat) :
    List Address → List Address → Except AcceptBlockError (List Bytes)
  | _, [] => .ok []
  | seen, signer :: rest => do
    rejectIf (seen.contains signer || !set.contains signer)
      (.roundCertificateUnknownSigner height round signer)
    let some key := db.getBlsPubkeyAt signer height
      | .error (.roundCertificateUnknownSigner height round signer)
    return key :: (← signerKeys set height round (seen ++ [signer]) rest)

def verifyRoundCertificate (cert : RoundCertificate) (height round : Nat) (parentHash : String)
    (set : ValidatorSet) : Except AcceptBlockError Unit := do
  rejectIf (cert.height ≠ height || cert.round ≠ round - 1)
    (.roundCertificateMismatch height round cert.height cert.round)
  let power := signedPower set cert.signers
  rejectIf (power < quorumPower)
    (.roundCertificateBelowQuorum height round cert.signers.length power quorumPower)
  rejectIf (set.size < cert.signers.length)
    (.roundCertificateOversized height round cert.signers.length set.size)
  let keys ← signerKeys db set height round [] cert.signers
  let genesis ← db.genesisHashBytes.mapError .storage
  rejectIf (!blsVerifyAggregate (roundTimeoutSigningBytes genesis height (round - 1) parentHash) keys
    cert.aggregateSignature) (.roundCertificateInvalid height round)

/-- Round zero needs no certificate, and a later round needs one. -/
def checkRound (block : ChainBlock) (set : ValidatorSet) : Except AcceptBlockError Unit :=
  match block.roundCertificate with
  | none => rejectIf (block.round ≠ 0) (.missingRoundCertificate block.height block.round)
  | some cert =>
    if block.round = 0 then .error (.unexpectedRoundCertificate block.height)
    else verifyRoundCertificate db cert block.height block.round block.parentHash set

variable [Wire ActionPayload]

/-! ## The header -/

/-- The proposer signed this header, and the header names these actions. -/
def checkSigned (block : ChainBlock) : Except AcceptBlockError Unit := do
  let genesis ← db.genesisHashBytes.mapError .storage
  (block.verifyProposerSignature genesis).mapError .signature
  rejectIf (block.txRoot ≠ Arxium.txRoot block.actions)
    (.txRootMismatch block.height (hashText (Arxium.txRoot block.actions)) (hashText block.txRoot))

/-- The block is next, and neither certificate nor lock nor round of its height speaks against it. -/
def checkGates (block : ChainBlock) : Except AcceptBlockError Unit := do
  rejectIf (block.height ≠ db.tipHeight + 1) (.notNextHeight block.height db.tipHeight)
  match db.finality block.height with
  | some certified =>
    rejectIf (certified ≠ block.hash) (.contradictsCertificate block.height certified block.hash)
  | none =>
    match db.locks block.height with
    | some locked =>
      rejectIf (locked ≠ block.hash) (.contradictsLock block.height locked block.hash)
    | none =>
      rejectIf (block.round < db.currentRound block.height)
        (.deadRound block.height block.round (db.currentRound block.height))

/-- The parent is the one held, and the pre-state the one it left. -/
def checkParent (block parent : ChainBlock) : Except AcceptBlockError Unit := do
  rejectIf (parseHash block.parentHash ≠ some parent.hash)
    (.parentMismatch parent.hash block.parentHash)
  rejectIf (block.parentStateRoot ≠ parent.stateRoot)
    (.parentStateRootMismatch block.height parent.stateRoot block.parentStateRoot)
  rejectIf (maxBuildIdLen < block.buildId.utf8ByteSize)
    (.buildIdTooLong block.height block.buildId.utf8ByteSize)

/-- Time moves on, and not far ahead of the clock; genesis has no real time. -/
def checkTime (env : NodeEnv) (block parent : ChainBlock) : Except AcceptBlockError Unit :=
  if parent.height = 0 then .ok () else do
    rejectIf (block.timestamp ≤ parent.timestamp)
      (.nonMonotonicTimestamp block.height block.timestamp parent.timestamp)
    rejectIf (saturatingAdd64 env.now maxFutureDriftSecs < block.timestamp)
      (.timestampTooFarAhead block.height block.timestamp (block.timestamp - env.now)
        maxFutureDriftSecs)

/-- The set in force at the block, whose eligible member proposed it. -/
def checkProposer (block : ChainBlock) : Except AcceptBlockError (List Address) := do
  let set := db.getValidatorSetAt block.height
  checkRound db block set
  let expected := eligibleProposer set.keys block.height block.round
  rejectIf (block.proposer ≠ expected) (.wrongProposer block.height expected block.proposer)
  return set.keys

variable [StateTrie]

/-- `supersede_dead_tip`. -/
def supersedeDeadTip (block : ChainBlock) : Except AcceptBlockError Db :=
  match db.state.tip with
  | none => .ok db
  | some tipHeight =>
    if block.height ≠ tipHeight ∨ tipHeight = 0 ∨ (db.finality tipHeight).isSome then .ok db
    else
      match db.state.blocks tipHeight, block.roundCertificate with
      | some tip, some cert =>
        if block.round ≤ tip.round ∨ db.locks tipHeight = some tip.hash then .ok db
        else do
          verifyRoundCertificate db cert block.height block.round block.parentHash
            (db.getValidatorSetAt block.height)
          (db.revertTo (tipHeight - 1)).mapError .storage
      | _, _ => .ok db

/-- A block for another height than the tip's supersedes nothing. -/
theorem supersedeDeadTip_eq_self {db : Db} {block : ChainBlock} {tip : Nat}
    (htip : db.state.tip = some tip) (h : block.height ≠ tip) : supersedeDeadTip db block = .ok db := by
  rw [supersedeDeadTip, htip]
  exact if_pos (Or.inl h)

end Checks

/-! ## The run of a block -/

/-- Seed, actions and seal of a block. -/
structure Executed where
  seed : BlockUpdates
  outcome : ExecutionOutcome
  sealed : BlockUpdates

namespace Executed

/-- The categories before the seal. -/
def unsealed (ex : Executed) : Categories := .ofUpdates (ex.seed :: ex.outcome.updates)

/-- The categories of the whole block. -/
def categories (ex : Executed) : Categories := ex.unsealed.addSeal ex.sealed

end Executed

section Run

variable [Crypto] [Wire ActionPayload] [Zk] [StateTrie] [Decode]

/-- What the action loop is run with. -/
def execEnv (db : Db) (genesis : Bytes) (params : ChainParams) (validators : List Address)
    (height timestamp : Nat) : ExecEnv where
  genesis := genesis
  maxWeight := db.chainParams.maxBlockWeight
  meter := meter params
  dispatch := Runtime.dispatch ⟨validators, height, timestamp, genesis⟩

/-- The rows the first action reads. -/
def seededRows (db : Db) (seed : BlockUpdates) : Rows :=
  Writes.apply (Categories.ofUpdates [seed]).viewWrites db.state.rows

/-- The seed, and the actions on top of it. -/
def runActions (db : Db) (genesis : Bytes) (params : ChainParams) (validators : List Address)
    (height timestamp : Nat) (actions : List ChainAction) :
    Except ExecutorError (BlockUpdates × ExecutionOutcome) := do
  let seed ← (resolveMaturedUnbonding height).run db.state.rows.view
  let outcome ← executeActions (execEnv db genesis params validators height timestamp)
    { rows := seededRows db seed } actions
  return (seed, outcome)

/-- `on_block_sealed` on what the actions left. -/
def runSeal (db : Db) (c : Categories) (proposer : Address) (feesCollected : Nat)
    (validators : List Address) (height : Nat) : Except AcceptBlockError BlockUpdates :=
  match (Runtime.sealBlock c.writtenStatuses proposer feesCollected validators height).run
      (overlay c.viewWrites db.state.rows.view) with
  | .ok updates => .ok updates
  | .error .panic => .error .panic
  | .error e => .error (.blockSealed e)

/-- Runs an offered block: every action has to land. -/
def executeBlock (db : Db) (params : ChainParams) (validators : List Address) (block : ChainBlock) :
    Except AcceptBlockError Executed := do
  let genesis ← db.genesisHashBytes.mapError .storage
  let (seed, outcome) ← (runActions db genesis params validators block.height block.timestamp
    block.actions).mapError .execution
  let c := Categories.ofUpdates (seed :: outcome.updates)
  rejectIf (!outcome.deferred.isEmpty)
    (.blockOverWeight block.height db.chainParams.maxBlockWeight outcome.deferred.length)
  rejectIf (outcome.applied.length ≠ block.actions.length)
    (.actionMismatch block.height block.actions.length outcome.applied.length
      (db.state.computeStateRoot (accountWrites c.accounts ++ c.stakes.writes ++
        assetBalanceWrites c.assets ++ holderStateWrites c.holderStates)))
  let some proposer := block.proposer | .error .panic
  let sealed ← runSeal db c proposer outcome.feesCollected validators block.height
  return ⟨seed, outcome, sealed⟩

/-- What an accepted block commits. -/
def acceptedBatch (env : NodeEnv) (db : Db) (block : ChainBlock) (ex : Executed) : Batch where
  writes := ex.categories.commitWrites block.height
    (assetIndexWrites env.scan db.state.rows ex.categories.assetRegistrations ex.categories.assets)
  blsKeys := ex.categories.blsKeys
  weight := ex.outcome.weightUsed
  block := block
  index := indexWrites block

/-- `accept_block`, with the parameters the caller read for the meter. -/
def acceptBlock (env : NodeEnv) (params : ChainParams) (block : ChainBlock) (db : Db) :
    Except AcceptBlockError Db := do
  checkSigned db block
  let db ← supersedeDeadTip db block
  checkGates db block
  let some parent := db.state.blocks db.tipHeight | .error .panic
  checkParent block parent
  checkTime env block parent
  let validators ← checkProposer db block
  let ex ← executeBlock db params validators block
  let expected := db.state.computeStateRoot (ex.categories.rootWrites block.height)
  rejectIf (block.stateRoot ≠ expected) (.stateRootMismatch block.height expected block.stateRoot)
  return db.writeBlock (acceptedBatch env db block ex)

/-- The node's own call: the fees are metered with the parameters before any unwinding. -/
def onBlock (env : NodeEnv) (block : ChainBlock) (db : Db) : Except AcceptBlockError Db :=
  acceptBlock env db.chainParams block db

/-! ## What acceptance amounts to -/

/-- Seed, actions and seal ran through, and every action landed. -/
structure Ran (db : Db) (params : ChainParams) (validators : List Address) (block : ChainBlock)
    (genesis : Bytes) (proposer : Address) (ex : Executed) : Prop where
  genesisHash : db.genesisHashBytes = .ok genesis
  proposedBy : block.proposer = some proposer
  seed : (resolveMaturedUnbonding block.height : Read ExecutorError _).run db.state.rows.view =
    .ok ex.seed
  lands : LandsAll (execEnv db genesis params validators block.height block.timestamp)
    { rows := seededRows db ex.seed } block.actions ex.outcome
  sealed : (Runtime.sealBlock ex.unsealed.writtenStatuses proposer ex.outcome.feesCollected validators
    block.height).run (overlay ex.unsealed.viewWrites db.state.rows.view) = .ok ex.sealed

variable {env : NodeEnv} {params : ChainParams} {block : ChainBlock} {db db' : Db}
  {validators : List Address} {ex : Executed}

omit [Wire ActionPayload] [Zk] [StateTrie] [Decode] in
theorem runSeal_eq_ok {c : Categories} {proposer : Address} {fees height : Nat} {u : BlockUpdates} :
    runSeal db c proposer fees validators height = .ok u ↔
      (Runtime.sealBlock c.writtenStatuses proposer fees validators height).run
        (overlay c.viewWrites db.state.rows.view) = .ok u := by
  unfold runSeal
  cases (Runtime.sealBlock c.writtenStatuses proposer fees validators height).run
      (overlay c.viewWrites db.state.rows.view) with
  | ok u => simp
  | error e => cases e <;> simp

theorem runActions_eq_ok {genesis : Bytes} {height timestamp : Nat} {actions : List ChainAction}
    {seed : BlockUpdates} {outcome : ExecutionOutcome} :
    runActions db genesis params validators height timestamp actions = .ok (seed, outcome) ↔
      (resolveMaturedUnbonding height : Read ExecutorError _).run db.state.rows.view = .ok seed ∧
      executeActions (execEnv db genesis params validators height timestamp)
        { rows := seededRows db seed } actions = .ok outcome := by
  constructor
  · intro h
    obtain ⟨seed', hseed, h⟩ := bind_eq_ok.mp h
    obtain ⟨outcome', houtcome, h⟩ := bind_eq_ok.mp h
    obtain ⟨rfl, rfl⟩ := Prod.mk.inj (Except.ok.inj h)
    exact ⟨hseed, houtcome⟩
  · rintro ⟨hseed, houtcome⟩
    exact bind_eq_ok.mpr ⟨seed, hseed, bind_eq_ok.mpr ⟨outcome, houtcome, rfl⟩⟩

/-- **A block's run succeeds exactly when it ran.** -/
theorem executeBlock_eq_ok : executeBlock db params validators block = .ok ex ↔
    ∃ genesis proposer, Ran db params validators block genesis proposer ex := by
  constructor
  · intro h
    obtain ⟨genesis, hgenesis, h⟩ := bind_eq_ok.mp h
    obtain ⟨⟨seed, outcome⟩, hrun, h⟩ := bind_eq_ok.mp h
    obtain ⟨_, hdeferred, h⟩ := bind_eq_ok.mp h
    obtain ⟨_, happlied, h⟩ := bind_eq_ok.mp h
    rw [rejectIf_eq_ok] at hdeferred happlied
    cases hproposer : block.proposer with
    | none =>
      rw [hproposer] at h
      cases h
    | some proposer =>
      rw [hproposer] at h
      obtain ⟨sealed, hsealed, h⟩ := bind_eq_ok.mp h
      obtain rfl : _ = ex := Except.ok.inj h
      obtain ⟨hseed, houtcome⟩ := runActions_eq_ok.mp (mapError_eq_ok.mp hrun)
      refine ⟨genesis, proposer, mapError_eq_ok.mp hgenesis, hproposer, hseed,
        landsAll_of_executeActions houtcome (by simpa using hdeferred) ?_,
        runSeal_eq_ok.mp hsealed⟩
      simpa using happlied
  · rintro ⟨genesis, proposer, h⟩
    have happlied : ex.outcome.applied.length = block.actions.length := by
      simpa using h.lands.applied_length
    refine bind_eq_ok.mpr ⟨genesis, mapError_eq_ok.mpr h.genesisHash, ?_⟩
    refine bind_eq_ok.mpr ⟨(ex.seed, ex.outcome), mapError_eq_ok.mpr
      (runActions_eq_ok.mpr ⟨h.seed, executeActions_of_landsAll h.lands⟩), ?_⟩
    refine bind_eq_ok.mpr ⟨(), rejectIf_eq_ok.mpr (by simp [h.lands.deferred_eq]), ?_⟩
    refine bind_eq_ok.mpr ⟨(), rejectIf_eq_ok.mpr (by simp [happlied]), ?_⟩
    rw [h.proposedBy]
    exact bind_eq_ok.mpr ⟨ex.sealed, runSeal_eq_ok.mpr h.sealed, rfl⟩

/-- The block passed every check on `db`, was run on `db₀`, which is `db` without a superseded tip, and
was committed there. -/
structure Accepted (env : NodeEnv) (params : ChainParams) (block : ChainBlock) (db db₀ : Db)
    (ex : Executed) (db' : Db) : Prop where
  signed : checkSigned db block = .ok ()
  superseded : supersedeDeadTip db block = .ok db₀
  gates : checkGates db₀ block = .ok ()
  parent : ∃ parent, db₀.state.blocks db₀.tipHeight = some parent ∧
    checkParent block parent = .ok () ∧ checkTime env block parent = .ok ()
  proposer : checkProposer db₀ block = .ok (db₀.getValidatorSetAt block.height).keys
  executed : executeBlock db₀ params (db₀.getValidatorSetAt block.height).keys block = .ok ex
  root : block.stateRoot = db₀.state.computeStateRoot (ex.categories.rootWrites block.height)
  committed : db' = db₀.writeBlock (acceptedBatch env db₀ block ex)

omit [Wire ActionPayload] [Zk] [StateTrie] [Decode] in
theorem checkProposer_eq_ok (h : checkProposer db block = .ok validators) :
    validators = (db.getValidatorSetAt block.height).keys := by
  obtain ⟨-, -, h⟩ := bind_eq_ok.mp h
  obtain ⟨-, -, h⟩ := bind_eq_ok.mp h
  exact (Except.ok.inj h).symm

/-- **Acceptance.** -/
theorem acceptBlock_eq_ok : acceptBlock env params block db = .ok db' ↔
    ∃ db₀ ex, Accepted env params block db db₀ ex db' := by
  constructor
  · intro h
    obtain ⟨_, hsigned, h⟩ := bind_eq_ok.mp h
    obtain ⟨db₀, hsuper, h⟩ := bind_eq_ok.mp h
    obtain ⟨_, hgates, h⟩ := bind_eq_ok.mp h
    cases hblock : db₀.state.blocks db₀.tipHeight with
    | none =>
      rw [hblock] at h
      cases h
    | some parent =>
      rw [hblock] at h
      obtain ⟨_, hparent, h⟩ := bind_eq_ok.mp h
      obtain ⟨_, htime, h⟩ := bind_eq_ok.mp h
      obtain ⟨validators, hproposer, h⟩ := bind_eq_ok.mp h
      obtain rfl := checkProposer_eq_ok hproposer
      obtain ⟨ex, hex, h⟩ := bind_eq_ok.mp h
      obtain ⟨_, hroot, h⟩ := bind_eq_ok.mp h
      rw [rejectIf_eq_ok] at hroot
      exact ⟨db₀, ex, hsigned, hsuper, hgates, ⟨parent, hblock, hparent, htime⟩, hproposer, hex,
        by simpa using hroot, (Except.ok.inj h).symm⟩
  · rintro ⟨db₀, ex, h⟩
    obtain ⟨parent, hblock, hparent, htime⟩ := h.parent
    refine bind_eq_ok.mpr ⟨(), h.signed, bind_eq_ok.mpr ⟨db₀, h.superseded, ?_⟩⟩
    refine bind_eq_ok.mpr ⟨(), h.gates, ?_⟩
    rw [hblock]
    refine bind_eq_ok.mpr ⟨(), hparent, bind_eq_ok.mpr ⟨(), htime, ?_⟩⟩
    refine bind_eq_ok.mpr ⟨_, h.proposer, bind_eq_ok.mpr ⟨ex, h.executed, ?_⟩⟩
    refine bind_eq_ok.mpr ⟨(), rejectIf_eq_ok.mpr (by simp [h.root]), ?_⟩
    rw [h.committed]
    rfl

/-- What an accepted block leaves is its writes on the rows it ran on. -/
theorem Accepted.rows_eq {db₀ : Db} (h : Accepted env params block db db₀ ex db') :
    db'.state.rows = Writes.apply (acceptedBatch env db₀ block ex).writes db₀.state.rows := by
  rw [h.committed, Db.state_writeBlock, ChainState.rows_write]

end Run

end Arxium
