import Arxium.Runtime.Consensus

/-!
# Runtime/Epoch — the end of a block

After the last action a block is sealed: the reward is paid, a primary proposer that missed its slot
is slashed and jailed, at the end of an epoch the next validator set is picked, and the list of
candidates is brought up to date.  Each step reads through what the steps before it produced.

The seal cannot enumerate the status rows a block wrote, so it is told (`written`).  Its two callers
collect that list in different ways.
-/

namespace Arxium

namespace Runtime

open ReadProg Writes

/-! ## The epoch boundary -/

/-- The active stake of a validator; `none` when nothing is staked at all. -/
def totalStake {ε : Type} [Errors ε] (validator : Address) : Read ε (Option Nat) := do
  let masters ← getMasters validator
  if masters.isEmpty then return none
  let total ← masters.foldlM (fun (total : Nat) master => do
    return (← getAllocation master validator).elim total
      fun a => saturatingAdd total a.activeAmount) 0
  return some total

/-- The stored status of each address that has one. -/
def readStatuses {ε : Type} [Errors ε] : List Address → Read ε (List (Address × ValidatorStatus))
  | [] => return []
  | a :: rest => do
    let status ← getStatus a
    let statuses ← readStatuses rest
    return status.elim statuses fun s => (a, s) :: statuses

/-- The stake an address may enter the next set with, if it qualifies. -/
def eligibleStake {ε : Type} [Errors ε] (params : ChainParams) (nextEpoch : Nat)
    (entry : Address × ValidatorStatus) : Read ε (Option Nat) := do
  if !entry.2.eligibleFor nextEpoch then return none
  let some stake ← totalStake entry.1 | return none
  if stake < params.minValidatorStake then return none
  if params.validatorAttestationRequired then
    if ← isAttested entry.1 then return some stake else return none
  else return some stake

def eligibleStakes {ε : Type} [Errors ε] (params : ChainParams) (nextEpoch : Nat) :
    List (Address × ValidatorStatus) → Read ε (List (Address × Nat))
  | [] => return []
  | entry :: rest => do
    let stake ← eligibleStake params nextEpoch entry
    let stakes ← eligibleStakes params nextEpoch rest
    return stake.elim stakes fun s => (entry.1, s) :: stakes

/-- Largest stake first, ties by address. -/
def byStake (a b : Address × Nat) : Bool := b.2 < a.2 || (a.2 == b.2 && decide (a.1 ≤ b.1))

/-- The status row of an address after the boundary, where it changes. -/
def boundaryStatus (set : ValidatorSet) (nextEpoch : Nat) (entry : Address × ValidatorStatus) :
    Option (Option ValidatorStatus) :=
  if set.contains entry.1 then
    if entry.2 = .active then none else some (some .active)
  else
    match entry.2 with
    | .leaving fromEpoch => if fromEpoch ≤ nextEpoch then some none else none
    | .active => some (some .pending)
    | _ => none

/-- Picks the next epoch's set in the last block of an epoch; with too few eligible validators it
writes the set in force again. -/
def boundaryHook (written : List Address) (height : Nat) : Read Err BlockUpdates := do
  let params ← getParams
  if !isBoundary height params.epochLength then return {}
  let nextEpoch := epochOf height params.epochLength + 1
  let listed : List Address := (← getRow .validatorCandidates).getD []
  let candidates := (listed ++ written).dedup.insertionSort (· ≤ ·)
  let statuses ← readStatuses candidates
  let eligible ← eligibleStakes params nextEpoch statuses
  let eligible := (eligible.insertionSort (byStake · ·)).take (max params.maxValidatorSet 1)
  if eligible.length < params.minValidatorSet then
    let effective := validatorSetEffectiveHeight height params.epochLength
    let current : ValidatorSet := (← getRow (.validatorSet effective)).getD (∅ : ValidatorSet)
    return { validatorSet := some current }
  else
    match assignVotingPower (Std.ExtTreeMap.ofList eligible) with
    | none => panic
    | some set =>
      let changes := statuses.filterMap fun entry =>
        (boundaryStatus set nextEpoch entry).map fun next => (entry.1, next)
      return { validatorStatuses := changes, validatorSet := some set }

/-! ## The seal -/

variable [Crypto]

/-- A slash that took stake also jails, unless the validator is tombstoned or jailed already. -/
def jailPrimary (primary : Address) (untilEpoch : Nat) (slashed : StakeUpdates) :
    Read Err ValidatorStatusUpdates := do
  if slashed.allocations.isEmpty then return []
  match ← getStatus primary with
  | some .tombstoned | some (.jailed _) => return []
  | _ => return [(primary, some (.jailed untilEpoch))]

/-- Slashes a primary proposer that missed its slot, and jails it if that cost it stake. -/
def sealDowntime (params : ChainParams) (updates : BlockUpdates) (primary proposer : Address)
    (height : Nat) : Read Err BlockUpdates := do
  let (accounts, stakes) ← staged updates.sealWrites
    (applyDowntimeSlash primary proposer height params.downtimeSlashBps)
  let jailed ← jailPrimary primary (epochOf height params.epochLength + 2) stakes
  return { updates with
    accounts := updates.accounts ++ accounts
    stakes := ⟨updates.stakes.allocations ++ stakes.allocations,
      updates.stakes.validatorIndex ++ stakes.validatorIndex⟩
    validatorStatuses := updates.validatorStatuses ++ jailed }

/-- Every address goes in if it has a status row and out if it has none. -/
def updateCandidates {ε : Type} [Errors ε] (after : List Address) :
    List Address → Read ε (List Address)
  | [] => return after.dedup.insertionSort (· ≤ ·)
  | a :: rest => do
    let status ← getStatus a
    updateCandidates (if status.isSome then a :: after else after.filter (· ≠ a)) rest

/-- The rewards and the downtime slash: what the boundary reads through. -/
def sealEconomics (proposer : Address) (feesCollected : Nat) (validators : List Address)
    (height : Nat) : Read Err BlockUpdates := do
  let params ← getParams
  let reward ← applyBlockReward proposer feesCollected params.rewardPerBlock
    params.feeProposerBps params.feeTreasuryBps
  match expectedProposer validators height with
  | none => return { accounts := reward }
  | some primary => sealDowntime params { accounts := reward } primary proposer height

/-- Brings the candidate list in line with the status rows written by the block and its seal. -/
def sealCandidates (written : List Address) (updates : BlockUpdates) : Read Err BlockUpdates := do
  let before : List Address := (← getRow .validatorCandidates).getD []
  let after ← staged updates.sealWrites
    (updateCandidates before (written ++ updates.validatorStatuses.map Prod.fst))
  if after = before then return updates
  else return { updates with governance := [put .validatorCandidates after] }

/-- The whole-block economics, over the state the actions left. -/
def sealBlock (written : List Address) (proposer : Address) (feesCollected : Nat)
    (validators : List Address) (height : Nat) : Read Err BlockUpdates := do
  let updates ← sealEconomics proposer feesCollected validators height
  let boundary ← staged updates.sealWrites (boundaryHook written height)
  sealCandidates written { updates with
    validatorStatuses := updates.validatorStatuses ++ boundary.validatorStatuses
    validatorSet := boundary.validatorSet }

end Runtime

end Arxium
