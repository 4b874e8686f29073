import Arxium.Circuits.Account

/-!
# Circuits/Staking — stake, unbonding, slashing and block rewards

A stake lives in the validator's sub-account; the allocation row says how much of it is active and
how much is unbonding until when.  Unbonding amounts are found again at their height through an
index row that the *callers* of `applyUnstake` write (`indexUnbonding`), not the circuit.
-/

namespace Arxium

open ReadProg

def maxDelegationPerValidator : Nat := 10000000 * 1000000000

inductive SlashReason
  | doubleSign
  | downtime
  | executionFault
deriving DecidableEq, Repr

def SlashReason.tombstones : SlashReason → Bool
  | downtime => false
  | _ => true

inductive StakingError
  | storage (e : StorageError)
  | invalidNonce (master : Address) (expected got : Nat)
  | zeroAmount
  | insufficientBalance (master : Address) (balance amount : Nat)
  | validatorHasOtherMaster (validator : Address)
  | noActiveAllocation (master validator : Address)
  | alreadyUnbonding (master validator : Address)
  | insufficientStake (master validator : Address) (active amount : Nat)
  | noStakeForValidator (validator : Address)
  | delegationCapExceeded (validator : Address) (newTotal : Nat)
  | overflow (account : Address)
  | panic
deriving DecidableEq, Repr

instance : Errors StakingError := ⟨.storage, .panic⟩

def credit (balance amount : Nat) (account : Address) : Read StakingError Nat :=
  .orFail (checkedAdd balance amount) (.overflow account)

/-- What an allocation has in flight. -/
def StakeAllocation.unbondingAmount (a : StakeAllocation) : Nat := a.unbonding.elim 0 (·.amount)

section Circuit

variable [Crypto]

/-- Pays the block reward out of the pool, and the proposer's and the treasury's share of the fees
the caller says were collected. -/
def applyBlockReward {ε : Type} [Errors ε] (proposer : Address)
    (feesCollected rewardPerBlock feeProposerBps feeTreasuryBps : Nat) : Read ε AccountUpdates := do
  let poolEntry ← getAccount rewardPoolAccount
  let blockReward := min rewardPerBlock poolEntry.balance
  let proposerFee ← mulOrPanic feesCollected feeProposerBps
  let treasuryFee ← mulOrPanic feesCollected feeTreasuryBps
  let proposerEntry ← getAccount proposer
  let due ← addOrPanic blockReward (proposerFee / 10000)
  let proposerBalance ← addOrPanic proposerEntry.balance due
  let treasuryEntry ← getAccount treasuryAccount
  let treasuryBalance ← addOrPanic treasuryEntry.balance (treasuryFee / 10000)
  return [(rewardPoolAccount, { poolEntry with balance := poolEntry.balance - blockReward }),
    (proposer, { proposerEntry with balance := proposerBalance }),
    (treasuryAccount, { treasuryEntry with balance := treasuryBalance })]

/-- Moves `amount` from the master to the validator's sub-account.  A validator has one master, and
an allocation with an unbonding batch takes no more stake. -/
def applyStake (master : Address) (nonce : Nat) (validator : Address) (amount nowHeight : Nat) :
    Read StakingError (AccountUpdates × StakeUpdates) := do
  .ensure (amount ≠ 0) .zeroAmount
  let masterEntry ← getAccount master
  .ensure (nonce = masterEntry.nonce) (.invalidNonce master masterEntry.nonce nonce)
  .ensure (amount ≤ masterEntry.balance) (.insufficientBalance master masterEntry.balance amount)
  let masters ← getMasters validator
  .ensure (masters.all (· = master)) (.validatorHasOtherMaster validator)
  let existing ← getAllocation master validator
  .ensure (existing.all (·.unbonding.isNone)) (.alreadyUnbonding master validator)
  let newTotal ← addOrPanic (existing.elim 0 (·.activeAmount)) amount
  .ensure (newTotal ≤ maxDelegationPerValidator) (.delegationCapExceeded validator newTotal)
  let subEntry ← getAccount (stakeSubaccount validator)
  let bumped ← addOrPanic64 masterEntry.nonce 1
  let subBalance ← credit subEntry.balance amount (stakeSubaccount validator)
  let allocation : StakeAllocation := match existing with
    | some existing => { existing with activeAmount := newTotal, updatedAt := nowHeight }
    | none => ⟨master, validator, amount, none, nowHeight, nowHeight⟩
  return ([(master, { masterEntry with balance := masterEntry.balance - amount, nonce := bumped }),
      (stakeSubaccount validator, { subEntry with balance := subBalance })],
    { allocations := [((master, validator), some allocation)],
      validatorIndex := [(validator, [master])] })

/-- Turns part of an allocation into its one unbonding batch; the coins stay slashable. -/
def applyUnstake (master : Address) (nonce : Nat) (validator : Address)
    (amount nowHeight unbondingBlocks : Nat) :
    Read StakingError (AccountUpdates × StakeUpdates) := do
  .ensure (amount ≠ 0) .zeroAmount
  let masterEntry ← getAccount master
  .ensure (nonce = masterEntry.nonce) (.invalidNonce master masterEntry.nonce nonce)
  let existing ← .orFail (← getAllocation master validator) (.noActiveAllocation master validator)
  .ensure existing.unbonding.isNone (.alreadyUnbonding master validator)
  .ensure (amount ≤ existing.activeAmount)
    (.insufficientStake master validator existing.activeAmount amount)
  let unlock ← addOrPanic64 nowHeight unbondingBlocks
  let bumped ← addOrPanic64 masterEntry.nonce 1
  return ([(master, { masterEntry with nonce := bumped })],
    { allocations := [((master, validator), some { existing with
        activeAmount := existing.activeAmount - amount,
        unbonding := some ⟨amount, unlock⟩, updatedAt := nowHeight })] })

/-- The allocation after `slash` is taken from it, active stake first. -/
def StakeAllocation.slashed (a : StakeAllocation) (slash nowHeight : Nat) : StakeAllocation :=
  let fromActive := min slash a.activeAmount
  let remaining := slash - fromActive
  { a with
    activeAmount := a.activeAmount - fromActive
    unbonding := if remaining = 0 then a.unbonding else a.unbonding.bind fun u =>
      if u.amount - remaining = 0 then none else some { u with amount := u.amount - remaining }
    updatedAt := nowHeight }

/-- Moves up to `amount` of a validator's stake into the reward pool. -/
def applySlash (validator : Address) (amount : Nat) (_reason : SlashReason) (nowHeight : Nat) :
    Read StakingError (AccountUpdates × StakeUpdates) := do
  let masters ← getMasters validator
  let master ← .orFail masters.head? (.noStakeForValidator validator)
  let existing ← .orFail (← getAllocation master validator) (.noStakeForValidator validator)
  let total ← addOrPanic existing.activeAmount existing.unbondingAmount
  let slash := min amount total
  let left := existing.slashed slash nowHeight
  let subEntry ← getAccount (stakeSubaccount validator)
  let debited := min subEntry.balance slash
  let poolEntry ← getAccount rewardPoolAccount
  let poolBalance ← credit poolEntry.balance debited rewardPoolAccount
  let accounts : AccountUpdates :=
    [(stakeSubaccount validator, { subEntry with balance := subEntry.balance - debited }),
      (rewardPoolAccount, { poolEntry with balance := poolBalance })]
  if left.activeAmount = 0 ∧ left.unbonding = none then
    return (accounts, ⟨[((master, validator), none)], [(validator, [])]⟩)
  else return (accounts, { allocations := [((master, validator), some left)] })

/-- The automatic slash of a primary proposer that let its slot pass.  It never fails a block: with
nothing to slash it does nothing. -/
def applyDowntimeSlash {ε : Type} [Errors ε] (primary actualProposer : Address)
    (nowHeight downtimeSlashBps : Nat) : Read ε (AccountUpdates × StakeUpdates) := do
  if primary = actualProposer then return ([], {})
  let masters ← getMasters primary
  let some master := masters.head? | return ([], {})
  let some existing ← getAllocation master primary | return ([], {})
  let total ← addOrPanic existing.activeAmount existing.unbondingAmount
  let scaled ← mulOrPanic total downtimeSlashBps
  if scaled / 10000 = 0 then return ([], {})
  match ← (applySlash primary (scaled / 10000) .downtime nowHeight).attempt with
  | .ok result => return result
  | .error (.storage e) => .fail (Errors.storage e)
  | .error .panic => panic
  | .error _ => return ([], {})

/-- Lists a pair under the height its unbonding unlocks at. -/
def indexUnbonding {ε : Type} [Errors ε] (unlock : Nat) (master validator : Address) :
    Read ε GovernanceUpdates := do
  let due : List (Address × Address) := (← getRow (.unbondingDue unlock)).getD []
  let due := if due.contains (master, validator) then due else due ++ [(master, validator)]
  return [Writes.put (.unbondingDue unlock) due]

/-- The account entry a sequence of releases has reached, or the stored one. -/
def overlayAccount {ε : Type} [Errors ε] (accounts : AccountUpdates) (a : Address) :
    Read ε AccountEntry :=
  match accounts.get? a with
  | some entry => return entry
  | none => getAccount a

/-- Releases one due allocation: its batch leaves the sub-account for the master. -/
def releaseOne {ε : Type} [Errors ε] (acc : AccountUpdates × StakeUpdates)
    (allocation : StakeAllocation) : Read ε (AccountUpdates × StakeUpdates) := do
  let some unbonding := allocation.unbonding | return acc
  let masterEntry ← overlayAccount acc.1 allocation.master
  let masterBalance ← addOrPanic masterEntry.balance unbonding.amount
  let accounts := acc.1 ++ [(allocation.master, { masterEntry with balance := masterBalance })]
  let sub := stakeSubaccount allocation.validator
  let subEntry ← overlayAccount accounts sub
  let subBalance ← subOrPanic subEntry.balance unbonding.amount
  let accounts := accounts ++ [(sub, { subEntry with balance := subBalance })]
  let pair := (allocation.master, allocation.validator)
  if allocation.activeAmount = 0 then
    return (accounts, ⟨acc.2.allocations ++ [(pair, none)],
      acc.2.validatorIndex ++ [(allocation.validator, [])]⟩)
  else
    return (accounts, { acc.2 with allocations := acc.2.allocations ++
      [(pair, some { allocation with unbonding := none })] })

/-- The allocations of the listed pairs that unlock at `height`. -/
def dueAllocations {ε : Type} [Errors ε] (height : Nat) :
    List (Address × Address) → Read ε (List StakeAllocation)
  | [] => return []
  | (master, validator) :: pairs => do
    let allocation ← getAllocation master validator
    let rest ← dueAllocations height pairs
    match allocation with
    | some allocation =>
      if allocation.unbonding.any (·.unlockAtHeight == height) then return allocation :: rest
      else return rest
    | none => return rest

/-- Returns every unbonding batch that unlocks at `height` to its master and drops the height's
index row. -/
def resolveDueUnbonding {ε : Type} [Errors ε] (height : Nat) :
    Read ε (AccountUpdates × StakeUpdates × GovernanceUpdates) := do
  let some pairs ← getRow (.unbondingDue height) | return ([], {}, [])
  let due ← dueAllocations height pairs
  let (accounts, stakes) ← due.foldlM releaseOne ([], {})
  return (accounts, stakes, [Writes.del (.unbondingDue height)])

end Circuit

end Arxium
