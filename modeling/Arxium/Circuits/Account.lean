import Arxium.Storage.Updates

/-!
# Circuits/Account — transfers and programmable accounts

`applyTransfer` moves a native amount; `applyPolicyAction` administers an account's policy and
`enforceSpending` holds what an action spends against it.
-/

namespace Arxium

open ReadProg

inductive AccountError
  | storage (e : StorageError)
  | invalidNonce (sender : Address) (expected got : Nat)
  | insufficientBalance (sender : Address) (balance amount : Nat)
  | overflow (account : Address)
  | panic
deriving DecidableEq, Repr

instance : Errors AccountError := ⟨.storage, .panic⟩

/-- Moves `amount` from `sender` to `recipient` and consumes the sender's nonce.  A transfer to
oneself only consumes the nonce. -/
def applyTransfer (sender : Address) (nonce : Nat) (recipient : Address) (amount : Nat) :
    Read AccountError AccountUpdates := do
  let senderEntry ← getAccount sender
  if nonce ≠ senderEntry.nonce then
    .fail (.invalidNonce sender senderEntry.nonce nonce)
  else if senderEntry.balance < amount then
    .fail (.insufficientBalance sender senderEntry.balance amount)
  else if recipient = sender then do
    let bumped ← addOrPanic64 senderEntry.nonce 1
    return [(sender, { senderEntry with nonce := bumped })]
  else do
    let receiverEntry ← getAccount recipient
    let bumped ← addOrPanic64 senderEntry.nonce 1
    match checkedAdd receiverEntry.balance amount with
    | none => .fail (.overflow recipient)
    | some credited =>
      return [(sender, { senderEntry with balance := senderEntry.balance - amount, nonce := bumped }),
        (recipient, { receiverEntry with balance := credited })]

/-! ## Account policies -/

variable [Crypto]

/-- The counters that survive a new policy: those of limits it keeps unchanged. -/
def keptCounters (old : Option ProgrammableAccount) (policy : AccountPolicy) :
    List SpendCounter :=
  match old with
  | none => []
  | some old => old.counters.filter fun c =>
      old.policy.limits.any fun l => l.asset == c.asset && policy.limits.any (· == l)

/-- The part of `apply_policy_action` that changes an existing policy. -/
def changePolicy (state : ProgrammableAccount) (action : AccountPolicyAction)
    (auth : PolicyAuthorization) (height : Nat) : Except SignatureError ProgrammableAccount :=
  match action with
  | .setPolicy _ => .ok state
  | .rotateMembers owners => do
    owners.validate
    return { state with
      policy := { state.policy with owners := owners, sessions := [] }, pendingRecovery := none }
  | .addSession session => do
    if session.expiresAt ≤ height then .error (.badMultisig "session already expired")
    if state.policy.sessions.any (·.publicKey == session.publicKey) then
      .error (.badMultisig "session already exists; revoke before replacing")
    let policy := { state.policy with sessions := state.policy.sessions ++ [session] }
    policy.validate
    return { state with policy := policy }
  | .revokeSession publicKey =>
    .ok { state with policy := { state.policy with
      sessions := state.policy.sessions.filter (·.publicKey != publicKey) } }
  | .startRecovery owners => do
    if auth ≠ .guardian then .error (.badMultisig "recovery requires guardians")
    owners.validate
    if state.pendingRecovery.isSome then .error (.badMultisig "recovery already pending")
    match state.policy.recovery with
    | none => .error (.badMultisig "recovery disabled")
    | some recovery =>
      if u64Max < height + recovery.delayBlocks then
        .error (.badMultisig "recovery height overflow")
      return { state with pendingRecovery := some ⟨owners, height + recovery.delayBlocks⟩ }
  | .cancelRecovery => .ok { state with pendingRecovery := none }
  | .executeRecovery => do
    if auth ≠ .guardian then .error (.badMultisig "recovery requires guardians")
    match state.pendingRecovery with
    | none => .error (.badMultisig "no pending recovery")
    | some pending =>
      if height < pending.executeAfter then
        .error (.badMultisig "recovery timelock has not elapsed")
      return { state with
        policy := { state.policy with owners := pending.owners, sessions := [] },
        pendingRecovery := none }

/-- Owners administer everything; guardians only start and finish a recovery. -/
def applyPolicyAction (account : AccountEntry) (action : AccountPolicyAction)
    (auth : PolicyAuthorization) (height : Nat) : Except SignatureError AccountEntry :=
  let recovering := match action with
    | .startRecovery _ | .executeRecovery => true
    | _ => false
  if auth ≠ .owner ∧ ¬ (auth = .guardian ∧ recovering = true) then
    .error (.badMultisig "capability cannot manage account policy")
  else match action with
    | .setPolicy policy => do
      policy.validate
      let counters := keptCounters account.programmable policy
      return { account with programmable := some ⟨policy, counters, none⟩ }
    | action =>
      match account.programmable with
      | none => .error (.badMultisig "account has no policy")
      | some state => do
        let state ← changePolicy state action auth height
        return { account with programmable := some state }

/-- `checked_add` over the spends of one asset. -/
def totalSpend (asset : SpendAsset) (spends : List (SpendAsset × Nat)) : Option Nat :=
  (spends.filter (·.1 == asset)).foldlM (fun total s => checkedAdd total s.2) 0

/-- Counts one limit's spend against its window, moving the window forward when it has passed. -/
def countSpend (counters : List SpendCounter) (limit : SpendingLimit) (height amount : Nat) :
    Except SignatureError (List SpendCounter) :=
  let window := height / limit.periodBlocks
  let counters := if counters.any (·.asset == limit.asset) then counters
    else counters ++ [⟨limit.asset, window, 0⟩]
  let i := counters.findIdx (·.asset == limit.asset)
  match counters[i]? with
  | none => .ok counters
  | some counter =>
    if window < counter.window then .error (.badMultisig "spending clock moved backwards")
    else
      let spent := if counter.window ≠ window then 0 else counter.spent
      match checkedAdd spent amount with
      | none => .error (.badMultisig "spending counter overflow")
      | some spent =>
        if limit.amount < spent then .error (.badMultisig "period spending limit exceeded")
        else .ok (counters.set i { counter with window := window, spent := spent })

/-- The limit loop of `enforce_spending`. -/
def countLimits (height : Nat) (spends : List (SpendAsset × Nat)) :
    List SpendingLimit → List SpendCounter → Except SignatureError (List SpendCounter)
  | [], counters => .ok counters
  | limit :: rest, counters =>
    match totalSpend limit.asset spends with
    | none => .error (.badMultisig "spending amount overflow")
    | some amount => do
      let counters ← countSpend counters limit height amount
      countLimits height spends rest counters

/-- The session's own scope: one asset, its recipients, an allowance that only shrinks. -/
def spendSession (sessions : List SessionKey) (i height : Nat)
    (transfer : Option (SpendAsset × Address × Nat)) : Except SignatureError (List SessionKey) :=
  match transfer with
  | none => .error (.badMultisig "sessions are transfer-only")
  | some (asset, recipient, amount) =>
    match sessions[i]? with
    | none => .error (.badMultisig "session revoked")
    | some session =>
      if session.expiresAt ≤ height ∨ asset ≠ session.asset ∨ recipient ∉ session.recipients then
        .error (.badMultisig "session expired or transfer outside scope")
      else match checkedSub session.allowance amount with
        | none => .error (.badMultisig "session allowance exceeded")
        | some allowance => .ok (sessions.set i { session with allowance := allowance })

def enforceSpending (state : ProgrammableAccount) (auth : PolicyAuthorization) (height : Nat)
    (spends : List (SpendAsset × Nat)) (recipients : List Address)
    (sessionTransfer : Option (SpendAsset × Address × Nat)) :
    Except SignatureError ProgrammableAccount := do
  if auth = .guardian then .error (.badMultisig "guardians cannot authorize spending")
  match state.policy.recipients with
  | some allowlist =>
    if recipients.any fun r => !allowlist.contains r then
      .error (.badMultisig "recipient is not allowed by account policy")
  | none => pure ()
  let counters ← countLimits height spends state.policy.limits state.counters
  match auth with
  | .session i =>
    let sessions ← spendSession state.policy.sessions i height sessionTransfer
    return { state with policy := { state.policy with sessions := sessions }, counters := counters }
  | _ => return { state with counters := counters }

end Arxium
