import Arxium.Runtime.Epoch

/-!
# Runtime/Dispatch — running one action

An action is authorized under its sender's policy, run by the handler of its payload, made to
consume one nonce, charged its fee, and held to the sender's spending limits.  The fee is priced
from the parameters the action itself sees, while the executor meters the block's fees from the
parameters the block started with.
-/

namespace Arxium

open ReadProg Writes

/-- The distinct entries of a map of updates, in the order of its keys. -/
def Updates.entries {α β : Type} [DecidableEq α] (le : α → α → Bool) (u : Updates α β) :
    List (α × β) :=
  ((u.map Prod.fst).dedup.insertionSort (le · ·)).filterMap fun a =>
    (u.get? a).map fun b => (a, b)

/-- What an action is run in. -/
structure DispatchCtx where
  validators : List Address
  height : Nat
  timestamp : Nat
  genesis : Bytes

namespace Runtime

variable [Crypto] [Wire ActionPayload]

/-! ## Account policies -/

/-- The transfer an action makes, of whatever asset. -/
def transferOf (action : ChainAction) : Option (SpendAsset × Address × Nat) :=
  match action.payload with
  | .transfer recipient amount => some (.native, recipient, amount)
  | .transferAsset asset recipient amount => some (.asset asset, recipient, amount)
  | .token (.transfer token recipient amount) => some (.asset token, recipient, amount)
  | _ => none

/-- Policy actions only guardians take. -/
def isRecovery : ActionPayload → Bool
  | .accountPolicy (.startRecovery _) | .accountPolicy .executeRecovery => true
  | _ => false

def notActivated : String := "session keys and recovery are not activated"

/-- What may be asked for while the account extensions are off. -/
def checkExtensions (extensions : Bool) (payload : ActionPayload) : Read Err Unit := do
  match payload with
  | .accountPolicy (.addSession _) | .accountPolicy (.startRecovery _)
  | .accountPolicy .executeRecovery => require extensions notActivated
  | .accountPolicy (.setPolicy policy) => do
    check Err.signature policy.validate
    require (extensions || (policy.sessions.isEmpty && policy.recovery.isNone)) notActivated
  | _ => return ()

/-- A session signs transfers inside its scope and nothing else. -/
def checkSession (session : SessionKey) (action : ChainAction) (height : Nat) :
    Read Err Unit := do
  let (asset, recipient, amount) ←
    .orFail (transferOf action) (.message "sessions are transfer-only")
  require (height < session.expiresAt && session.asset = asset &&
      session.recipients.contains recipient && amount ≤ session.allowance)
    "session expired or transfer outside scope/allowance"

/-- Who signed for a programmable account, and whether that signer may ask for this. -/
def authorization (action : ChainAction) (height : Nat) (genesis : Bytes) :
    Read Err PolicyAuthorization := do
  let extensions := (← getParams).accountExtensionsEnabled
  checkExtensions extensions action.payload
  let account ← getAccount action.sender
  match account.programmable with
  | none => return .owner
  | some state =>
    let auth ← check Err.signature (action.verifyAccountSignature (some state) genesis)
    require (extensions || auth = .owner) notActivated
    match auth with
    | .guardian =>
      require (isRecovery action.payload) "guardians can only start or execute recovery"
    | .session i =>
      match state.policy.sessions[i]? with
      | none => panic
      | some session => checkSession session action height
    | .owner => pure ()
    return auth

/-- An account's first policy is signed for by its own key. -/
def checkEnrollment (entry : AccountEntry) (action : ChainAction) (genesis : Bytes) :
    Read Err Unit :=
  if entry.programmable.isNone then check Err.signature (action.verifySignature genesis)
  else return ()

/-- `account_policy::apply`. -/
def accountPolicy (action : ChainAction) (policyAction : AccountPolicyAction) (height : Nat)
    (genesis : Bytes) : Read Err BlockUpdates := do
  let auth ← authorization action height genesis
  let entry ← getAccount action.sender
  checkEnrollment entry action genesis
  let entry ← check Err.signature (applyPolicyAction entry policyAction auth height)
  return { accounts := [(action.sender, entry)] }

/-- The accounts other than the sender's that an action's entries leave richer. -/
def creditedAccounts (sender : Address) :
    List (Address × AccountEntry) → Read Err (List Address)
  | [] => return []
  | (address, entry) :: rest => do
    if address = sender then creditedAccounts sender rest
    else
      let before ← getAccount address
      let recipients ← creditedAccounts sender rest
      return if before.balance < entry.balance then address :: recipients else recipients

/-- What the sender spends of each asset, and whom the asset entries leave richer. -/
def assetSpends (sender : Address) :
    List ((AssetRef × Address) × Nat) → Read Err (List (SpendAsset × Nat) × List Address)
  | [] => return ([], [])
  | ((asset, owner), balance) :: rest => do
    let previous ← balanceOf asset owner
    let (spends, recipients) ← assetSpends sender rest
    if owner = sender then return ((.asset asset, previous - balance) :: spends, recipients)
    else return (spends, if previous < balance then owner :: recipients else recipients)

def assetKeyLe (a b : AssetRef × Address) : Bool := a.1 < b.1 || (a.1 = b.1 && a.2 ≤ b.2)

/-- `account_policy::enforce`: the spending limits of a programmable sender, over what the action
and its fee do to its balances. -/
def enforce (action : ChainAction) (height : Nat) (auth : PolicyAuthorization)
    (updates : BlockUpdates) : Read Err BlockUpdates := do
  let before ← getAccount action.sender
  match before.programmable, action.payload with
  | none, _ | _, .accountPolicy _ => return updates
  | some state, _ =>
    let after ← .orFail (updates.accounts.get? action.sender) (.message "missing sender update")
    let params ← getParams
    let fee := actionFeeFor params (actionWeight action)
    let credited ←
      creditedAccounts action.sender (updates.accounts.entries fun a b => decide (a ≤ b))
    let (spends, receivers) ←
      assetSpends action.sender (updates.assets.entries assetKeyLe)
    let spends := (SpendAsset.native, max (before.balance - after.balance) fee) :: spends
    let recipients := credited ++ receivers ++ ((transferOf action).map (·.2.1)).toList
    let state ← check Err.signature
      (enforceSpending state auth height spends recipients (transferOf action))
    return { updates with
      accounts := updates.accounts ++ [(action.sender, { after with programmable := some state })] }

/-! ## Handlers -/

variable [Zk] [StateTrie] [Decode]

/-- `dispatch_inner`: the handler of the payload. -/
def dispatchInner (adjudicator : Adjudicator) (ctx : DispatchCtx) (action : ChainAction) :
    Read Err BlockUpdates :=
  match action.payload with
  | .accountPolicy policyAction => accountPolicy action policyAction ctx.height ctx.genesis
  | .transfer recipient amount => transfer action recipient amount
  | .joinValidator validator amount blsPubkey blsPop =>
    joinValidator action validator amount blsPubkey blsPop ctx.height
  | .leaveValidator validator => leaveValidator action validator ctx.validators ctx.height
  | .stake validator amount => stake action validator amount ctx.height
  | .unstake validator amount => unstake action validator amount ctx.height
  | .submitEquivocationEvidence blockA blockB =>
    submitEquivocationEvidence blockA blockB ctx.height action.sender
  | .registerBlsKey validator pubkey pop => registerBlsKey action validator pubkey pop ctx.height
  | .verifyIdentityCredential proof => verifyIdentityCredential action proof
  | .authorizeOperator operator => authorizeOperator action operator
  | .revokeOperator => revokeOperator action
  | .grantAttestation subject hash topics jurisdiction =>
    grantAttestation action subject hash topics jurisdiction ctx.height
  | .revokeAttestation subject => revokeAttestation action subject
  | .registerAsset assetId complianceRequired metadata =>
    registerAsset action assetId complianceRequired metadata ctx.height
  | .issueAsset asset amount => issueAsset action asset amount
  | .transferAsset asset recipient amount =>
    transferAsset action asset recipient amount ctx.height
  | .submitExecutionFault artifactJson =>
    submitExecutionFault adjudicator artifactJson ctx.height action.sender
  | .freezeAsset asset reason => setFrozen action asset true reason
  | .unfreezeAsset asset reason => setFrozen action asset false reason
  | .burnAsset asset amount => burnAsset action asset amount
  | .setHolderFrozen asset holder frozen => setHolderFrozen action asset holder frozen
  | .lockHolderAmount asset holder amount =>
    lockHolderAmount action asset holder amount true none ctx.height
  | .unlockHolderAmount asset holder amount =>
    lockHolderAmount action asset holder amount false none ctx.height
  | .issuerForcedTransfer asset sender recipient amount reason =>
    issuerForcedTransfer action asset sender recipient amount reason ctx.height
  | .recoverHolder asset lost replacement =>
    recoverHolder action asset lost replacement ctx.height
  | .issueAssetTo asset recipient amount => issueAssetTo action asset recipient amount ctx.height
  | .lockIssuance asset => lockIssuance action asset
  | .transferIssuer asset newIssuer => transferIssuer action asset newIssuer
  | .setAssetMetadataUri asset metadataUri => setMetadataUri action asset metadataUri
  | .setAssetLimits asset maxHolders maxBalancePerHolder maxAttestationAge =>
    setLimits action asset maxHolders maxBalancePerHolder maxAttestationAge
  | .lockHolderAmountUntil asset holder amount untilHeight =>
    lockHolderAmount action asset holder amount true (some untilHeight) ctx.height
  | .submitProposal proposed description => submitProposal action proposed description ctx.height
  | .voteProposal proposal approve => voteProposal action proposal approve ctx.height
  | .executeProposal proposal => executeProposal proposal ctx.height
  | .snapshotHolders asset => snapshotHolders action asset ctx.height
  | .distributeToHolders asset snapshotHeight payoutAsset total =>
    distribute action asset snapshotHeight payoutAsset total ctx.height
  | .redeemHolders asset snapshotHeight => redeem action asset snapshotHeight ctx.height
  | .splitAsset asset snapshotHeight numerator denominator =>
    split action asset snapshotHeight numerator denominator ctx.height
  | .verifyClaimProof asset sub todayDays proof =>
    verifyClaimProof action asset sub todayDays proof ctx.height ctx.timestamp
  | .setPrivateClaims asset enabled => setPrivateClaims action asset enabled
  | .token tokenAction => dispatchToken action tokenAction ctx.height
  | .applyAttestor name owners threshold evidenceHash evidenceUri =>
    applyAttestor action name owners threshold evidenceHash evidenceUri ctx.height
  | .blockAttestor => blockAttestor action

/-! ## Nonce and fee -/

/-- A handler whose circuit already bumped the nonce is left alone; any other action's nonce is
checked and bumped here. -/
def consumeNonce (action : ChainAction) (updates : BlockUpdates) : Read Err BlockUpdates := do
  let current := (← getAccount action.sender).nonce
  let entry ← overlayAccount updates.accounts action.sender
  if entry.nonce ≠ current then return updates
  require (action.nonce = current)
    s!"invalid nonce for {action.sender.text}: expected {current}, got {action.nonce}"
  let bumped ← addOrPanic64 current 1
  return { updates with
    accounts := updates.accounts ++ [(action.sender, { entry with nonce := bumped })] }

/-- The sender's entry as the handler left it, or its stored one. -/
def chargedEntry (action : ChainAction) (updates : BlockUpdates) : Read Err AccountEntry :=
  match updates.accounts.get? action.sender with
  | some entry => return entry
  | none => do
    .orFail (← getRow (.account action.sender))
      (.message s!"{action.sender.text} has no account to charge the action fee against")

/-- The metered fee at the parameters the action sees. -/
def chargeActionFee (action : ChainAction) (updates : BlockUpdates) : Read Err BlockUpdates := do
  let entry ← chargedEntry action updates
  let params ← getParams
  let fee := actionFeeFor params (actionWeight action)
  let balance ← .orFail (checkedSub entry.balance fee)
    (.message s!"insufficient balance for the action fee ({fee} IUM)")
  return { updates with
    accounts := updates.accounts ++ [(action.sender, { entry with balance := balance })] }

/-- One action, with the adjudicator its fault submissions are judged by. -/
def dispatchWith (adjudicator : Adjudicator) (ctx : DispatchCtx) (action : ChainAction) :
    Read Err BlockUpdates := do
  let auth ← authorization action ctx.height ctx.genesis
  let updates ← dispatchInner adjudicator ctx action
  let updates ← consumeNonce action updates
  let updates ← chargeActionFee action updates
  enforce action ctx.height auth updates

end Runtime

end Arxium
