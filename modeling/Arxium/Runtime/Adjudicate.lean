import Arxium.Runtime.Dispatch
import Arxium.Executor.Execute

/-!
# Runtime/Adjudicate — replaying a disputed block from proofs

A dissenter submits the block's actions and proofs of single rows against the parent state root the
proposer signed.  The adjudicator rebuilds the part of the state tree those proofs show and runs the
block on it: the unbonding release, the actions one by one, the seal.  Whatever the proofs do not
cover is refused with `unprovenRead`, and the replay is meant to end in a `disagreement` there.  An
action that fails for any other reason names the proposer.
-/

namespace Arxium

open ReadProg Writes SparseMerkle Crypto StateTrie

namespace Adjudicate

def maxAdjudicatedActions : Nat := 4096

/-- The part of the state tree the proofs show. -/
abbrev Trie := Partial Bytes Bytes

section View

variable [StateTrie]

/-- `ProofBackedView`: rows outside the state tree are refused before the tree is asked. -/
def proofView (t : Trie) : KvView := fun k =>
  if k.isStateKey then
    match t.get hasher (keyPath k) with
    | none => .error .unprovenRead
    | some none => .ok none
    | some (some bytes) =>
      match decodeValue k bytes with
      | some value => .ok (some value)
      | none => .error .decode
  else .error .unprovenRead

/-- `apply_entries`: `none` when a write touches a row the proofs do not cover. -/
def applyEntries (t : Trie) (ws : List RowWrite) : Option Trie :=
  (ws.filter (·.key.isStateKey)).foldlM (fun t w => t.apply hasher (keyPath w.key) (leafValue w)) t

end View

/-- A replay that stops early stops with an outcome or with an error. -/
abbrev Replay := Except (Except AdjudicateError AdjudicationOutcome)

def disagree {α : Type} (reason : String) : Replay α := .error (.ok (.disagreement reason))

def invalid {α : Type} (e : AdjudicateError) : Replay α := .error (.error e)

def blame {α : Type} (pubkey : String) : Replay α := .error (.ok (.culpable pubkey))

def notProven (phase : String) : String :=
  s!"this block's {phase} needs unprovable state; the proof set is incomplete"

/-- A read of the adjudicator's own: a missing proof ends the replay without a culprit. -/
def readOrDisagree {α : Type} (phase : String) (x : Except ExecutorError α) : Replay α :=
  match x with
  | .ok a => .ok a
  | .error (.storage .unprovenRead) => disagree (notProven phase)
  | .error (.storage e) => invalid (.replay e)
  | .error .panic => invalid .panic

/-- `decode_root`. -/
def decodeRoot [Crypto] (root : String) : Replay Bytes :=
  match decodeHex root with
  | none => invalid .badHex
  | some bytes => if isDigest bytes then .ok bytes else invalid (.badRoot root)

variable [Crypto] [Wire ActionPayload] [Zk] [StateTrie] [Decode]

/-- The actions of a claim. -/
def decodeActions : List String → Replay (List ChainAction)
  | [] => .ok []
  | text :: rest => do
    let some bytes := decodeHex text | invalid .badHex
    let some action := Decode.action bytes | invalid .badAction
    return action :: (← decodeActions rest)

/-- The validator set in force, from its one row. -/
def provenValidators (t : Trie) (height : Nat) : Replay (List Address) :=
  let unproven := fun (what : String) =>
    s!"the validator set at height {height} is not provable: {what} not in the proof set"
  match (getParams : Read ExecutorError ChainParams).run (proofView t) with
  | .error _ => disagree (unproven "chain_params")
  | .ok params =>
    let effective := validatorSetEffectiveHeight height params.epochLength
    match (getRow (.validatorSet effective) : Read ExecutorError _).run (proofView t) with
    | .error _ => disagree (unproven s!"validator_set:{effective}")
    | .ok set => .ok (Option.getD (α := ValidatorSet) set ∅).keys

/-- What stays fixed while a block is replayed. -/
structure ReplayEnv where
  proposerPubkey : String
  proposer : Address
  ctx : DispatchCtx
  params : ChainParams

/-- What the replay has done so far. -/
structure ReplayState where
  trie : Trie
  writtenStatuses : List Address := []
  weightUsed : Nat := 0
  feesCollected : Nat := 0

/-- Fault submissions never reach this adjudicator. -/
def noAdjudicator : Adjudicator := fun _ => .error .wrongFaultKind

/-- The updates of one replayed action.  Only a storage error the handler met itself is recognised
as a missing proof. -/
def replayDispatch (env : ReplayEnv) (t : Trie) (action : ChainAction) : Replay BlockUpdates :=
  match (Runtime.dispatchWith noAdjudicator env.ctx action).run (proofView t) with
  | .ok updates => .ok updates
  | .error .panic => invalid .panic
  | .error e => if e.isUnprovenRead then disagree (notProven "actions") else blame env.proposerPubkey

def replayAction (env : ReplayEnv) (s : ReplayState) (action : ChainAction) :
    Replay ReplayState := do
  if action.payload.isFaultSubmission then
    disagree "a fault-submission action (SubmitExecutionFault/SubmitEquivocationEvidence) cannot itself be replayed during adjudication"
  let account ← readOrDisagree "account policy"
    ((getRow (.account action.sender)).run (proofView s.trie))
  let programmable := (account : Option AccountEntry).bind (·.programmable)
  if !(action.verifyAccountSignature programmable env.ctx.genesis).isOk then
    blame env.proposerPubkey
  let weight := actionWeight action
  let weightUsed := saturatingAdd64 s.weightUsed weight
  if env.params.maxBlockWeight < weightUsed then blame env.proposerPubkey
  let updates ← replayDispatch env s.trie action
  match applyEntries s.trie updates.stateWrites with
  | none => disagree (notProven "actions")
  | some trie =>
    return { trie := trie
             writtenStatuses := s.writtenStatuses ++ updates.validatorStatuses.map Prod.fst
             weightUsed := weightUsed
             feesCollected := saturatingAdd s.feesCollected (actionFeeFor env.params weight) }

/-- The seal, from the statuses the replay itself saw written. -/
def replaySeal (env : ReplayEnv) (s : ReplayState) : Replay Trie := do
  let program := Runtime.sealBlock s.writtenStatuses env.proposer s.feesCollected
    env.ctx.validators env.ctx.height
  let updates ← match program.run (proofView s.trie) with
    | .ok updates => pure updates
    | .error .panic => invalid .panic
    | .error e =>
      if e.isUnprovenRead then disagree (notProven "seal")
      else disagree s!"the seal failed on replay: {repr e}"
  let snapshot := (updates.validatorSet.map fun set =>
    put (.validatorSet (env.ctx.height + 1)) set).toList
  match applyEntries s.trie (updates.stateWrites ++ snapshot) with
  | none => disagree (notProven "seal")
  | some trie => return trie

/-- The whole block on the proven state: the tree it ends in. -/
def replayBlock (trie : Trie) (header : CanonicalHeader) (height : Nat) (genesis : Bytes)
    (proposerPubkey : String) (proposer : Address) (actions : List ChainAction) :
    Replay Trie := do
  let seed ← readOrDisagree "unbonding release"
    ((resolveMaturedUnbonding height).run (proofView trie))
  let some trie := applyEntries trie seed.stateWrites
    | disagree (notProven "unbonding release")
  let validators ← provenValidators trie height
  let params ← match (getParams : Read ExecutorError ChainParams).run (proofView trie) with
    | .ok params => pure params
    | .error _ => disagree (notProven "metering")
  let env : ReplayEnv :=
    ⟨proposerPubkey, proposer, ⟨validators, height, header.timestamp, genesis⟩, params⟩
  let s ← actions.foldlM (replayAction env) { trie := trie }
  replaySeal env s

/-- The proposer is the address of the key that signed the header. -/
def headerProposer (proposerPubkey : String) (header : CanonicalHeader) : Replay Address :=
  match decodeHex proposerPubkey with
  | some bytes =>
    if (Address.fromPubkeyBytes bytes).text = header.proposer then .ok (.fromPubkeyBytes bytes)
    else disagree "the header's proposer is not the address of the key that signed it"
  | none => disagree "the header's proposer is not the address of the key that signed it"

/-- Who is wrong, given the root the replay reached. -/
def judge (computed proposed dissent : Bytes) (proposerPubkey voterPubkey : String) :
    AdjudicationOutcome :=
  if computed = proposed then
    if computed = dissent then
      .disagreement "both parties' claimed final state roots match the replay"
    else .culpable voterPubkey
  else .culpable proposerPubkey

/-- `replay_block_divergence`. -/
def replayBlockDivergence (artifact : EvidenceArtifact) : Replay AdjudicationOutcome := do
  match verifyArtifact artifact with
  | .error e => invalid (.invalidArtifact e)
  | .ok _ => pure ()
  match artifact.fault with
  | .blockDivergence proposerPubkey voterPubkey height attestation actions claim =>
    let header := attestation.header
    if maxAdjudicatedActions < actions.length then
      disagree s!"action list ({actions.length} actions) exceeds MAX_ADJUDICATED_ACTIONS ({maxAdjudicatedActions}), refusing to replay"
    let decoded ← decodeActions actions
    if txRoot decoded ≠ (← decodeRoot header.txRoot) then
      disagree "the supplied action list doesn't hash to the block header's signed tx_root"
    let proposer ← headerProposer proposerPubkey header
    let genesis ← decodeRoot artifact.genesisHash
    let parentRoot ← decodeRoot header.parentStateRoot
    let some trie := Partial.ofProofs hasher depth parentRoot claim.proofs
      | disagree "a supplied proof does not verify"
    let final ← replayBlock trie header height genesis proposerPubkey proposer decoded
    let proposed ← decodeRoot header.stateRoot
    let dissent ← decodeRoot claim.computedStateRoot
    return judge final.root proposed dissent proposerPubkey voterPubkey
  | _ => invalid .wrongFaultKind

/-- `adjudicate_block_divergence`. -/
def adjudicateBlockDivergence : Adjudicator := fun artifact =>
  match replayBlockDivergence artifact with
  | .ok outcome => .ok outcome
  | .error stopped => stopped

end Adjudicate

namespace Runtime

variable [Crypto] [Wire ActionPayload] [Zk] [StateTrie] [Decode]

/-- One action, as the chain runs it. -/
def dispatch (ctx : DispatchCtx) (action : ChainAction) : Read Err BlockUpdates :=
  dispatchWith Adjudicate.adjudicateBlockDivergence ctx action

end Runtime

end Arxium
