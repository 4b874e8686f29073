import Arxium.Primitives.State

/-!
# Primitives/Validators — voting power, epochs, governed parameters

The pure arithmetic of the validator set: how stakes become voting power summing to
`totalVotingPower`, when a quorum of it has signed, who may propose at a height and round, and the
parameters and proposals governance works on.
-/

namespace Arxium

def totalVotingPower : Nat := 10000

def quorumPower : Nat := 6667

/-- A validator set: the voting power of each member. -/
abbrev ValidatorSet := TreeMap Address Nat

/-- The power of the distinct members of the set among the signers. -/
def signedPower (set : ValidatorSet) (signers : List Address) : Nat :=
  (signers.dedup.filterMap (set[·]?)).sum

def quorumReached (set : ValidatorSet) (signers : List Address) : Bool :=
  quorumPower ≤ signedPower set signers

/-! ## Epochs -/

def epochOf (height epochLength : Nat) : Nat := height / max epochLength 1

/-- The first height of the epoch `height` is in: where the set in force was written for. -/
def validatorSetEffectiveHeight (height epochLength : Nat) : Nat :=
  epochOf height epochLength * max epochLength 1

def isBoundary (height epochLength : Nat) : Bool := (height + 1) % max epochLength 1 == 0

/-! ## Voting power -/

/-- The largest power one of `n` validators may hold. -/
def powerCap (n : Nat) : Nat :=
  let n := max n 1
  max (min (max (2 * totalVotingPower / n) (totalVotingPower / 10)) 3333)
    ((totalVotingPower + n - 1) / n)

/-- One unit more for the first `leftover` entries. -/
def bumpFirst : Nat → List (Address × Nat) → List (Address × Nat)
  | 0, l => l
  | _, [] => []
  | leftover + 1, (a, p) :: l => (a, p + 1) :: bumpFirst leftover l

/-- The proportional shares of one pass over the uncapped; `none` where the product overflows. -/
def proportionalShares (remaining : Nat) (pool : List (Address × Nat)) :
    Option (List (Address × Nat)) :=
  let poolTotal := (pool.map Prod.snd).sum
  if u128Max < poolTotal then none
  else pool.mapM fun (a, stake) =>
    if poolTotal == 0 then some (a, remaining / pool.length)
    else (checkedMul remaining stake).map fun x => (a, x / poolTotal)

/-- The redistribution loop.  Each pass either ends or fixes at least one validator at the cap, so
as many passes as validators are enough. -/
def assignLoop (cap : Nat) :
    Nat → Nat → List (Address × Nat) → ValidatorSet → Option ValidatorSet
  | 0, _, _, powers => some powers
  | fuel + 1, remaining, pool, powers => do
    let shares ← proportionalShares remaining pool
    let assigned := bumpFirst (remaining - (shares.map Prod.snd).sum) shares
    let capped := assigned.filter (cap < ·.2)
    if capped.isEmpty then
      return powers.insertMany assigned
    let powers := powers.insertMany (capped.map fun p => (p.1, cap))
    let pool := pool.filter fun p => !(capped.map Prod.fst).contains p.1
    let remaining := remaining - cap * capped.length
    if pool.isEmpty then
      return Std.ExtTreeMap.ofList (bumpFirst remaining powers.toList)
    assignLoop cap fuel remaining pool powers

/-- `assign_voting_power`; `none` is an overflow panic. -/
def assignVotingPower (stakes : TreeMap Address Nat) : Option ValidatorSet :=
  if stakes.isEmpty then some ∅
  else assignLoop (powerCap stakes.size) (stakes.size + 1) totalVotingPower stakes.toList ∅

/-! ## Proposers -/

/-- `eligible_proposer`: rotation over the sorted set, shifted by the round. -/
def eligibleProposer (validators : List Address) (height round : Nat) : Option Address :=
  let sorted := validators.insertionSort (· ≤ ·)
  if sorted.isEmpty then none else sorted[(height + round) % 2 ^ 64 % sorted.length]?

def expectedProposer (validators : List Address) (height : Nat) : Option Address :=
  eligibleProposer validators height 0

/-! ## Status -/

inductive ValidatorStatus
  | active
  | pending
  | jailed (untilEpoch : Nat)
  | leaving (fromEpoch : Nat)
  | tombstoned
deriving DecidableEq, Repr

def ValidatorStatus.eligibleFor (nextEpoch : Nat) : ValidatorStatus → Bool
  | active | pending => true
  | jailed untilEpoch => untilEpoch ≤ nextEpoch
  | leaving fromEpoch => nextEpoch < fromEpoch
  | tombstoned => false

/-! ## Parameters -/

inductive DisputeCause
  | bug
  | attack
deriving DecidableEq, Repr

inductive DisputeResolution
  | accept
  | forked
deriving DecidableEq, Repr

/-- The governed parameters, with the source's defaults. -/
structure ChainParams where
  blockIntervalSecs : Nat := 2
  epochLength : Nat := 1800
  validatorAttestationRequired : Bool := false
  minValidatorSet : Nat := 4
  maxValidatorSet : Nat := 100
  maxBlockWeight : Nat := 1000000
  rewardPerBlock : Nat := 4300000000
  unbondingBlocks : Nat := 14 * 24 * 60 * 60 / 2
  votingPeriodBlocks : Nat := 7 * 24 * 60 * 60 / 2
  proposalQuorumBps : Nat := 5000
  actionFee : Nat := 1000000
  weightFee : Nat := 10000
  minValidatorStake : Nat := 100000 * 1000000000
  equivocationSlashBps : Nat := 10000
  downtimeSlashBps : Nat := 1
  feeProposerBps : Nat := 3000
  feeTreasuryBps : Nat := 2000
  challengeWindowBlocks : Nat := 12 * 60 * 60 / 2
  challengerRewardBps : Nat := 500
  tokenCreateFee : Nat := 100 * 1000000000
  accountExtensionsEnabled : Bool := false
  attestorApplyBond : Nat := 100 * 1000000000
  attestorRemovalVotingBlocks : Nat := 24 * 60 * 60 / 2
  attestorRemovalCooldownBlocks : Nat := 3 * 24 * 60 * 60 / 2
  canonicalBuilds : List String := []
deriving DecidableEq, Repr

instance : Inhabited ChainParams := ⟨{}⟩

/-- `classify_build`: a listed build other than the current one is a bug, anything else an attack. -/
def ChainParams.classifyBuild (params : ChainParams) (buildId : String) : DisputeCause :=
  match params.canonicalBuilds.getLast? with
  | some current =>
    if buildId == current || !params.canonicalBuilds.contains buildId then .attack else .bug
  | none => .bug

/-! ## Proposals -/

inductive GovernanceAction
  | setChainParams (params : ChainParams)
  | treasurySpend (recipient : Address) (amount : Nat)
  | resolveDispute (height : Nat) (header : Bytes) (resolution : DisputeResolution)
      (corrections : List (Address × Nat)) (cause : DisputeCause) (bounty : Nat)
  | reinstateValidator (validator : Address)
  | addAttestor (attestor : Address) (name : String) (owners : List Address) (threshold : Nat)
      (evidenceHash evidenceUri : String)
  | removeAttestor (attestor : Address)
  | unblockAttestor (attestor : Address)
deriving DecidableEq, Repr

inductive ProposalStatus
  | opened
  | executed
  | rejected
deriving DecidableEq, Repr

structure Proposal where
  id : Nat
  proposer : Address
  action : GovernanceAction
  description : String
  createdAt : Nat
  votingEndsAt : Nat
  yesPower : Nat
  noPower : Nat
  status : ProposalStatus
  bond : Nat
deriving DecidableEq, Repr

/-- An upheld execution dispute governance has not resolved yet. -/
structure OpenDispute where
  culprit : Address
  challenger : Address
  cause : DisputeCause
deriving DecidableEq, Repr

/-! ## Attestor registrations -/

def minAttestorNameLen : Nat := 3
def maxAttestorNameLen : Nat := 64
def minAttestorThreshold : Nat := 2

/-- `is_ascii_alphanumeric`. -/
def isAsciiAlphanumeric (b : UInt8) : Bool :=
  (48 ≤ b && b ≤ 57) || (65 ≤ b && b ≤ 90) || (97 ≤ b && b ≤ 122)

/-- `to_ascii_lowercase`. -/
def toAsciiLowercase (b : UInt8) : UInt8 := if 65 ≤ b && b ≤ 90 then b + 32 else b

/-- Two spaces stand next to each other. -/
def hasDoubleSpace : Bytes → Bool
  | a :: b :: rest => (a == 32 && b == 32) || hasDoubleSpace (b :: rest)
  | _ => false

def validateAttestorName (name : String) : Except String Unit :=
  let bytes := strBytes name
  if bytes.length < minAttestorNameLen || maxAttestorNameLen < bytes.length then
    .error "attestor name must be 3 to 64 characters"
  else if !bytes.all fun b => isAsciiAlphanumeric b || (strBytes " .-&'()").contains b then
    .error "attestor name allows only ASCII letters, digits, space and . - & ' ( )"
  else if bytes.head? == some 32 || bytes.getLast? == some 32 || hasDoubleSpace bytes then
    .error "attestor name has stray spaces"
  else if !bytes.any isAsciiAlphanumeric then .error "attestor name needs a letter or digit"
  else .ok ()

/-- The letters and digits of a name, with look-alikes folded together. -/
def attestorNameSkeleton (name : String) : String :=
  String.ofList (((strBytes name).filter isAsciiAlphanumeric).map fun b =>
    let l := toAsciiLowercase b
    if l == 48 then 'o' else if l == 49 || l == 105 then 'l' else if l == 53 then 's'
    else Char.ofNat l.toNat)

/-- `validate_attestor_multisig`: the address is the multisig of its owners. -/
def validateAttestorMultisig [Crypto] (attestor : Address) (owners : List Address)
    (threshold : Nat) : Except String Unit := do
  if threshold < minAttestorThreshold then
    .error "attestor multisig threshold must be at least 2"
  let members ← owners.mapM fun o =>
    match o.pubkeyBytes with
    | .ok b => if b.length == 32 then .ok b
        else .error "attestor owners must be single-key addresses"
    | .error _ => .error "attestor owners must be single-key addresses"
  match multisigAddress threshold members with
  | .error _ =>
    .error "attestor owners must be 2 to 16 unique keys, at least `threshold` of them"
  | .ok derived =>
    if derived ≠ attestor then
      .error "attestor address is not the multisig of its owners and threshold"
    else .ok ()

end Arxium
