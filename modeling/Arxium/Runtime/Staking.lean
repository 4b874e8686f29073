import Arxium.Circuits.Staking
import Arxium.Circuits.Identity
import Arxium.Circuits.CorporateActions
import Arxium.Circuits.Governance
import Arxium.Evidence.Artifact

/-!
# Runtime/Staking — accounts, operators and validator membership

The runtime's own errors, and the handlers that move native stake.  A handler reads rows and returns
a `BlockUpdates`; nothing here writes.

An error of a circuit crosses into the runtime inside its own type.  Only a storage error that a
handler met *itself* stays a bare storage error (`Err.storage`): the dispute replay recognises a
missing proof by that, and by nothing else.
-/

namespace Arxium

open ReadProg Writes

/-- The runtime's errors: `anyhow` with the type of what it wraps. -/
inductive Err
  | storage (e : StorageError)
  | account (e : AccountError)
  | staking (e : StakingError)
  | token (e : TokenError)
  | rwa (e : RwaError)
  | identity (e : IdentityError)
  | governance (e : GovernanceError)
  | signature (e : SignatureError)
  | address (e : AddressError)
  | evidence (e : EvidenceError)
  | artifact (e : VerifyError)
  | message (text : String)
  | panic
deriving DecidableEq, Repr

instance : Errors Err := ⟨.storage, .panic⟩

/-- `downcast_ref::<StorageError>() == Some(UnprovenRead)`. -/
def Err.isUnprovenRead : Err → Bool
  | storage .unprovenRead => true
  | _ => false

/-- `?` on a circuit's error. -/
class CircuitError (ε : Type) where
  toErr : ε → Err

instance : CircuitError AccountError where
  toErr
    | .panic => .panic
    | e => .account e

instance : CircuitError StakingError where
  toErr
    | .panic => .panic
    | e => .staking e

instance : CircuitError TokenError where
  toErr
    | .panic => .panic
    | e => .token e

instance : CircuitError RwaError where
  toErr
    | .panic => .panic
    | e => .rwa e

instance : CircuitError IdentityError where
  toErr
    | .panic => .panic
    | e => .identity e

instance : CircuitError GovernanceError where
  toErr
    | .panic => .panic
    | e => .governance e

/-- Runs a circuit inside a handler. -/
def circuit {ε α : Type} [CircuitError ε] (p : Read ε α) : Read Err α :=
  p.mapError CircuitError.toErr

@[simp] theorem yields_circuit {ε α : Type} [CircuitError ε] {p : Read ε α} {Q : α → Prop} :
    (circuit p).Yields Q ↔ p.Yields Q := Prog.yields_mapError

@[simp] theorem ensures_circuit {ε α : Type} [CircuitError ε] {p : Read ε α} {v : KvView}
    {Q : α → Prop} : (circuit p).Ensures v Q ↔ p.Ensures v Q := Prog.ensures_mapError

/-- `anyhow::bail!`. -/
def bail {α : Type} (text : String) : Read Err α := .fail (.message text)

/-- Bails unless the condition holds. -/
def require (b : Bool) (text : String) : Read Err Unit := .ensure b (.message text)

/-- A pure check, its error converted. -/
def check {ε α : Type} (f : ε → Err) (x : Except ε α) : Read Err α := .ofExcept (x.mapError f)

theorem run_check_eq_ok {ε α : Type} {f : ε → Err} {x : Except ε α} {v : KvView} {a : α} :
    (check f x).run v = .ok a ↔ x = .ok a := by
  simp [check]

theorem circuit_ok {ε α : Type} [CircuitError ε] {p : Read ε α} {v : KvView} {a : α} :
    (circuit p).run v = .ok a ↔ p.run v = .ok a := by
  simp [circuit]

namespace Runtime

variable [Crypto]

open Crypto

/-! ## Accounts and operators -/

def transfer (action : ChainAction) (recipient : Address) (amount : Nat) :
    Read Err BlockUpdates := do
  let accounts ← circuit (applyTransfer action.sender action.nonce recipient amount)
  return { accounts := accounts }

/-- Whom a validator authorized to act for it. -/
def operatorLookup (validator : Address) : Read Err (Option Address) := getRow (.operator validator)

/-- The validators an operator acts for. -/
def operatorValidatorsLookup (operator : Address) : Read Err (List Address) := do
  return (← getRow (.operatorIndex operator)).getD []

def blsPubkeyOwnerLookup (pubkey : Bytes) : Read Err (Option Address) :=
  getRow (.blsPubkeyOwner pubkey)

/-- Takes a validator off the list of the operator it had before. -/
def releaseValidator (previous : Option Address) (operator validator : Address) :
    Read Err (Updates Address (List Address)) :=
  match previous with
  | none => return []
  | some previous =>
    if previous = operator then return []
    else do
      let list ← operatorValidatorsLookup previous
      return [(previous, list.filter (· ≠ validator))]

def authorizeOperator (action : ChainAction) (operator : Address) : Read Err BlockUpdates := do
  let validator := action.sender
  let previous ← operatorLookup validator
  let released ← releaseValidator previous operator validator
  let list ← operatorValidatorsLookup operator
  let list := if list.contains validator then list else list ++ [validator]
  return { operator := ⟨[(validator, some operator)], released ++ [(operator, list)]⟩ }

def revokeOperator (action : ChainAction) : Read Err BlockUpdates := do
  let validator := action.sender
  let previous ← .orFail (← operatorLookup validator)
    (.message s!"{validator.text} has no authorized operator to revoke")
  let list ← operatorValidatorsLookup previous
  return { operator := ⟨[(validator, none)], [(previous, list.filter (· ≠ validator))]⟩ }

/-- The validator itself, or the operator it authorized. -/
def isAuthorized (sender validator : Address) : Read Err Bool := do
  if sender = validator then return true
  return (← operatorLookup validator) = some sender

def requireAuthorized (sender validator : Address) : Read Err Unit := do
  require (← isAuthorized sender validator)
    s!"{sender.text} is not authorized to manage {validator.text}"

/-! ## BLS keys -/

/-- Key and proof of possession have their sizes and match. -/
def validatedBlsPubkey (pubkey pop : Bytes) : Read Err Bytes := do
  require (pubkey.length = 48) "BLS public key must be 48 bytes"
  require (pop.length = 96) "BLS proof of possession must be 96 bytes"
  require (blsIsKey pubkey) "invalid BLS public key"
  require (blsVerifyPossession pubkey pop) "invalid BLS proof of possession"
  return pubkey

/-- The first height of the next epoch. -/
def nextEpochStart (currentHeight : Nat) : Read Err Nat := do
  let epochLength := (← getParams).epochLength
  return (epochOf currentHeight epochLength + 1) * max epochLength 1

/-- A validated key that no other validator has registered. -/
def claimBlsKey (validator : Address) (pubkey pop : Bytes) (currentHeight : Nat) :
    Read Err BlsKeyRegistration := do
  let bytes ← validatedBlsPubkey pubkey pop
  let owner ← blsPubkeyOwnerLookup bytes
  require (owner.all (· = validator))
    s!"BLS pubkey already registered to {(owner.getD default).text}"
  let previous ← getRow (.blsKey validator)
  let effective ← nextEpochStart currentHeight
  return ⟨validator, bytes, effective, previous⟩

def registerBlsKey (action : ChainAction) (validator : Address) (pubkey pop : Bytes)
    (currentHeight : Nat) : Read Err BlockUpdates := do
  requireAuthorized action.sender validator
  let registration ← claimBlsKey validator pubkey pop currentHeight
  return { blsKey := some registration }

/-! ## Membership -/

/-- A tombstoned validator never joins again; on some chains it must be attested. -/
def checkJoinAdmission (validator : Address) : Read Err Unit := do
  let status ← getStatus validator
  require (status ≠ some .tombstoned)
    s!"{validator.text} is tombstoned and can never rejoin the validator set"
  let params ← getParams
  if params.validatorAttestationRequired then
    require (← isAttested validator)
      s!"{validator.text} has no attestation from a registered attestor, and this chain requires one to validate"

/-- A member stays active and a jailed validator jailed; anyone else waits for the boundary. -/
def statusAfterJoin (validator : Address) : Read Err ValidatorStatus := do
  match ← getStatus validator with
  | some .active => return .active
  | some (.jailed untilEpoch) => return .jailed untilEpoch
  | _ => return .pending

def joinValidator (action : ChainAction) (validator : Address) (stake : Nat)
    (blsPubkey blsPop : Bytes) (currentHeight : Nat) : Read Err BlockUpdates := do
  requireAuthorized action.sender validator
  checkJoinAdmission validator
  let existing ← getAllocation action.sender validator
  let minStake := (← getParams).minValidatorStake
  require (minStake ≤ saturatingAdd (existing.elim 0 (·.activeAmount)) stake)
    s!"stake {stake} is below the minimum validator stake {minStake}"
  let (accounts, stakes) ←
    circuit (applyStake action.sender action.nonce validator stake currentHeight)
  let registration ← claimBlsKey validator blsPubkey blsPop currentHeight
  let status ← statusAfterJoin validator
  return { accounts := accounts, stakes := stakes, blsKey := some registration,
           validatorStatuses := [(validator, some status)] }

def getUnbondingBlocks : Read Err Nat := do return (← getParams).unbondingBlocks

/-- The nonce `applyUnstake` is to check for the staker: its own action's, or the stored one. -/
def masterNonce (action : ChainAction) (master : Address) : Read Err Nat := do
  if master = action.sender then return action.nonce else return (← getAccount master).nonce

/-- Starts unbonding the validator's whole active stake and announces leaving at the next boundary.
The unbonding is *not* indexed here. -/
def leaveValidator (action : ChainAction) (validator : Address) (validators : List Address)
    (currentHeight : Nat) : Read Err BlockUpdates := do
  requireAuthorized action.sender validator
  require (validators.contains validator) s!"{validator.text} is not a current validator"
  require (1 < validators.length) "cannot remove the last validator, chain would stall forever"
  let master := (← getMasters validator).head?.getD action.sender
  let selfStake ← .orFail (← getAllocation master validator)
    (.message s!"{master.text} has no stake in {validator.text} to unstake")
  let nonce ← masterNonce action master
  let unbondingBlocks ← getUnbondingBlocks
  let (accounts, stakes) ← circuit
    (applyUnstake master nonce validator selfStake.activeAmount currentHeight unbondingBlocks)
  -- The master's nonce is not the operator's to consume.
  let accounts := if master = action.sender then accounts else []
  let epochLength := (← getParams).epochLength
  return { accounts := accounts, stakes := stakes,
           validatorStatuses :=
             [(validator, some (.leaving (epochOf currentHeight epochLength + 1)))] }

/-- Only the validator or its operator may become its first master. -/
def checkStakeConsent (sender validator : Address) : Read Err Unit := do
  let masters ← getMasters validator
  if masters.isEmpty then
    require (← isAuthorized sender validator)
      s!"{validator.text} has not authorized {sender.text} to stake to it"

def stake (action : ChainAction) (validator : Address) (amount currentHeight : Nat) :
    Read Err BlockUpdates := do
  checkStakeConsent action.sender validator
  let (accounts, stakes) ←
    circuit (applyStake action.sender action.nonce validator amount currentHeight)
  return { accounts := accounts, stakes := stakes }

/-- Starts an unbonding and lists it under the height it unlocks at. -/
def unstake (action : ChainAction) (validator : Address) (amount currentHeight : Nat) :
    Read Err BlockUpdates := do
  let unbondingBlocks ← getUnbondingBlocks
  let (accounts, stakes) ← circuit
    (applyUnstake action.sender action.nonce validator amount currentHeight unbondingBlocks)
  let rows ← indexUnbonding (currentHeight + unbondingBlocks) action.sender validator
  return { accounts := accounts, stakes := stakes, governance := rows }

end Runtime

end Arxium
