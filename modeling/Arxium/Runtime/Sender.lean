import Arxium.Runtime.Footprint

/-!
# Runtime/Sender — what the sender of a fault submission must bring

A handler that leaves its sender's account alone is followed by the nonce, the fee and the account's
own policy.  For a fault submission the three come down to conditions on the sender's row: the nonce is
the next one, the balance covers the fee, and a programmable account was signed for by its owner and
may spend the fee (`dispatchWith_fault_iff`).
-/

namespace Arxium

open ReadProg Writes

/-! ## Rows that are always there -/

namespace Rows

variable (rows : Rows)

def account (a : Address) : AccountEntry := Option.getD (α := AccountEntry) (rows (.account a)) {}

def params : ChainParams := Option.getD (α := ChainParams) (rows .chainParams) {}

variable {rows} {ε : Type} [Errors ε]

@[simp] theorem run_getRow (k : Key) : (getRow k : Read ε _).run rows.view = .ok (rows k) := rfl

@[simp] theorem run_getAccount (a : Address) :
    (getAccount a : Read ε _).run rows.view = .ok (rows.account a) := rfl

@[simp] theorem run_getParams : (getParams : Read ε _).run rows.view = .ok rows.params := rfl

end Rows

/-! ## The latest entry -/

section Latest

variable {α β : Type} [DecidableEq α]

theorem Updates.get?_append (u w : Updates α β) (a : α) :
    (u ++ w : Updates α β).get? a = (Updates.get? w a).or (Updates.get? u a) := by
  induction u with
  | nil => exact (Option.or_none).symm
  | cons p u ih =>
    change (Updates.get? (u ++ w) a).or _ = _
    rw [ih, Option.or_assoc]
    rfl

theorem Updates.get?_snoc (u : Updates α β) (a : α) (b : β) :
    (u ++ [(a, b)] : Updates α β).get? a = some b := by
  rw [get?_append]
  simp [Updates.get?]

end Latest

namespace Runtime

variable [Wire ActionPayload] {rows : Rows} {ctx : DispatchCtx} {action : ChainAction}

/-- What an action costs where it runs. -/
def feeAt (rows : Rows) (action : ChainAction) : Nat := actionFeeFor rows.params (actionWeight action)

section Charging

variable {u u' : BlockUpdates} {entry : AccountEntry}

/-- The updates with the nonce consumed. -/
def consumed (u : BlockUpdates) (sender : Address) (entry : AccountEntry) : BlockUpdates :=
  { u with accounts := u.accounts ++ [(sender, { entry with nonce := entry.nonce + 1 })] }

/-- The updates with the nonce consumed and the fee charged. -/
def charged (u : BlockUpdates) (sender : Address) (entry : AccountEntry) (fee : Nat) : BlockUpdates :=
  { u with
    accounts := u.accounts ++ [(sender, { entry with nonce := entry.nonce + 1 })] ++
      [(sender, { entry with nonce := entry.nonce + 1, balance := entry.balance - fee })] }

omit [Wire ActionPayload] in
theorem run_overlayAccount {ε : Type} [Errors ε] (accounts : AccountUpdates) (a : Address) :
    (overlayAccount accounts a : Read ε _).run rows.view =
      .ok ((accounts.get? a).getD (rows.account a)) := by
  unfold overlayAccount
  cases accounts.get? a <;> rfl

omit [Wire ActionPayload] in
/-- A handler that left the sender's nonce alone has it checked and bumped. -/
theorem run_consumeNonce (hentry : (u.accounts.get? action.sender).getD (rows.account action.sender) =
      entry) (hsame : entry.nonce = (rows.account action.sender).nonce)
    (hnonce : action.nonce = entry.nonce) :
    (consumeNonce action u).run rows.view = .ok u' ↔ entry.nonce < u64Max ∧
      u' = consumed u action.sender entry := by
  unfold consumeNonce consumed
  simp only [bind_ok, Rows.run_getAccount, run_overlayAccount, hentry]
  simp only [Except.ok.injEq, exists_eq_left', hsame, ne_eq, not_true_eq_false, if_false, hnonce]
  rw [bind_ok]
  simp only [require, ensure_ok, decide_true, true_and, exists_const, addOrPanic64,
    bind_ok, run_ite]
  by_cases hroom : (rows.account action.sender).nonce < u64Max
  · have hroom' : (rows.account action.sender).nonce + 1 ≤ u64Max := hroom
    simp [hroom, hroom', eq_comm]
  · have hroom' : ¬ (rows.account action.sender).nonce + 1 ≤ u64Max := hroom
    simp [hroom, hroom', panic]

/-- The fee comes off the latest entry of the sender. -/
theorem run_chargeActionFee (u : BlockUpdates) (entry : AccountEntry) (hentry : u.accounts.get? action.sender = some entry)
    (hfee : feeAt rows action ≤ entry.balance) :
    (chargeActionFee action u).run rows.view = .ok { u with
      accounts := u.accounts ++
        [(action.sender, { entry with balance := entry.balance - feeAt rows action })] } := by
  have hsub : checkedSub entry.balance (actionFeeFor rows.params (actionWeight action)) =
      some (entry.balance - feeAt rows action) := if_pos hfee
  unfold chargeActionFee chargedEntry
  rw [hentry]
  refine bind_ok.mpr ⟨entry, rfl, bind_ok.mpr ⟨rows.params, rfl, ?_⟩⟩
  exact bind_ok.mpr ⟨_, orFail_ok.mpr hsub, rfl⟩

end Charging

/-! ## Fault submissions

No session and no guardian may sign for one, and it makes no transfer. -/

section Fault

variable [Crypto] [Zk] [StateTrie] [Decode] {adjudicator : Adjudicator} {u u' : BlockUpdates}

omit [Wire ActionPayload] [Crypto] [Zk] [StateTrie] [Decode] in
theorem fault_cases {payload : ActionPayload} (h : payload.isFaultSubmission = true) :
    (∃ blockA blockB, payload = .submitEquivocationEvidence blockA blockB) ∨
      ∃ artifactJson, payload = .submitExecutionFault artifactJson := by
  cases payload <;> simp_all [ActionPayload.isFaultSubmission]

omit [Wire ActionPayload] [Crypto] [Zk] [StateTrie] [Decode] in
theorem transferOf_fault (h : action.payload.isFaultSubmission = true) : transferOf action = none := by
  rcases fault_cases h with ⟨_, _, hp⟩ | ⟨_, hp⟩ <;> simp [transferOf, hp]

omit [Zk] [StateTrie] [Decode] in
/-- **A fault submission is signed for by the account's owner.** -/
theorem run_authorization_fault (h : action.payload.isFaultSubmission = true)
    {auth : PolicyAuthorization} :
    (authorization action ctx.height ctx.genesis).run rows.view = .ok auth ↔ auth = .owner ∧
      ∀ state, (rows.account action.sender).programmable = some state →
        action.verifyAccountSignature (some state) ctx.genesis = .ok .owner := by
  have hext : checkExtensions rows.params.accountExtensionsEnabled action.payload = .ret () := by
    rcases fault_cases h with ⟨_, _, hp⟩ | ⟨_, hp⟩ <;> simp [checkExtensions, hp]
  have hrecovery : isRecovery action.payload = false := by
    rcases fault_cases h with ⟨_, _, hp⟩ | ⟨_, hp⟩ <;> simp [isRecovery, hp]
  unfold authorization
  simp only [bind_ok, Rows.run_getParams, Except.ok.injEq, exists_eq_left', hext,
    run_ret, Rows.run_getAccount, exists_const, true_and]
  cases hprog : (rows.account action.sender).programmable with
  | none => simp [eq_comm]
  | some state =>
    simp only [bind_ok, run_check_eq_ok, require, ensure_ok]
    constructor
    · rintro ⟨a, ha, -, -, hauth⟩
      cases a with
      | owner => exact ⟨(Except.ok.inj hauth).symm, fun s hs => Option.some.inj hs ▸ ha⟩
      | guardian => simp [hrecovery, Except.bind] at hauth
      | session i =>
        exfalso
        dsimp only at hauth
        split at hauth
        · exact absurd hauth (by simp [panic])
        · obtain ⟨_, hsession, -⟩ := bind_ok.mp hauth
          obtain ⟨_, ht, -⟩ := bind_ok.mp hsession
          rw [transferOf_fault h] at ht
          cases ht
    · rintro ⟨rfl, hsig⟩
      exact ⟨.owner, hsig state rfl, (), by simp, rfl⟩

/-- The sender's account lets a fault submission through: its nonce is not used up, and if it is
programmable its owner signed and its policy lets it spend the fee. -/
def FeeAllowed (rows : Rows) (ctx : DispatchCtx) (action : ChainAction) : Prop :=
  (rows.account action.sender).nonce < u64Max ∧
    ∀ state, (rows.account action.sender).programmable = some state →
      action.verifyAccountSignature (some state) ctx.genesis = .ok .owner ∧
        (enforceSpending state .owner ctx.height [(.native, feeAt rows action)] [] none).isOk = true

omit [Wire ActionPayload] [Zk] [StateTrie] [Decode] [Crypto] in
/-- Charging alone touches one account. -/
theorem entries_charged (haccounts : u.accounts = []) {sender : Address} (entry : AccountEntry)
    (fee : Nat) : (charged u sender entry fee).accounts.entries (fun a b => decide (a ≤ b)) =
      [(sender, { entry with nonce := entry.nonce + 1, balance := entry.balance - fee })] := by
  simp [charged, haccounts, Updates.entries, Updates.get?]

omit [Zk] [StateTrie] [Decode] [Crypto] in
/-- The policy of a programmable sender decides, from what the updates did to the balances. -/
theorem run_enforce {auth : PolicyAuthorization} {state : ProgrammableAccount} {after : AccountEntry}
    {credited receivers : List Address} {spends : List (SpendAsset × Nat)}
    (hprog : (rows.account action.sender).programmable = some state)
    (hpolicy : ∀ p, action.payload ≠ .accountPolicy p)
    (hafter : u.accounts.get? action.sender = some after)
    (hcredited : (creditedAccounts action.sender
      (u.accounts.entries fun a b => decide (a ≤ b))).run rows.view = .ok credited)
    (hspends : (assetSpends action.sender (u.assets.entries assetKeyLe)).run rows.view =
      .ok (spends, receivers)) :
    (∃ u', (enforce action ctx.height auth u).run rows.view = .ok u') ↔
      (enforceSpending state auth ctx.height
        ((.native, max ((rows.account action.sender).balance - after.balance) (feeAt rows action)) ::
          spends)
        (credited ++ receivers ++ ((transferOf action).map (·.2.1)).toList)
        (transferOf action)).isOk = true := by
  unfold enforce
  simp only [bind_ok, Rows.run_getAccount, Except.ok.injEq, exists_eq_left', hprog,
    hafter, Prog.run_orFail_some, Rows.run_getParams, hcredited, hspends, run_check_eq_ok, pure_eq,
    run_ret, feeAt]
  generalize enforceSpending _ _ _ _ _ _ = result
  cases result <;> simp [Except.isOk, Except.toBool]

omit [Zk] [StateTrie] [Decode] [Crypto] in
/-- Where only the fee is spent, the policy is asked about the fee. -/
theorem run_enforce_fault (ctx : DispatchCtx) (h : action.payload.isFaultSubmission = true)
    (haccounts : u.accounts = []) (hassets : u.assets = []) (hfee : feeAt rows action ≤ (rows.account action.sender).balance) :
    (∃ u', (enforce action ctx.height .owner (charged u action.sender (rows.account action.sender)
        (feeAt rows action))).run rows.view = .ok u') ↔
      ∀ state, (rows.account action.sender).programmable = some state →
        (enforceSpending state .owner ctx.height [(.native, feeAt rows action)] [] none).isOk = true := by
  cases hprog : (rows.account action.sender).programmable with
  | none =>
    unfold enforce
    simp [hprog, Except.bind]
  | some state =>
    have hpolicy : ∀ p, action.payload ≠ .accountPolicy p := by
      intro p hp
      rw [hp] at h
      cases h
    have hspends : (assetSpends action.sender ((charged u action.sender (rows.account action.sender)
        (feeAt rows action)).assets.entries assetKeyLe)).run rows.view = .ok ([], []) := by
      simp [charged, hassets, Updates.entries, assetSpends]
    have hcredited : (creditedAccounts action.sender ((charged u action.sender
        (rows.account action.sender) (feeAt rows action)).accounts.entries
          fun a b => decide (a ≤ b))).run rows.view = .ok [] := by
      rw [entries_charged haccounts]
      simp [creditedAccounts]
    have hspent : max ((rows.account action.sender).balance -
        ((rows.account action.sender).balance - feeAt rows action)) (feeAt rows action) =
          feeAt rows action := by omega
    rw [run_enforce hprog hpolicy (Updates.get?_snoc _ _ _) hcredited hspends, hspent,
      transferOf_fault h]
    simp

/-- **A fault submission whose handler leaves the accounts alone goes through exactly when its sender
may pay for it.** -/
theorem dispatchWith_fault_iff (h : action.payload.isFaultSubmission = true)
    (hinner : (dispatchInner adjudicator ctx action).run rows.view = .ok u)
    (haccounts : u.accounts = []) (hassets : u.assets = [])
    (hnonce : action.nonce = (rows.account action.sender).nonce)
    (hfee : feeAt rows action ≤ (rows.account action.sender).balance) :
    (∃ u', (dispatchWith adjudicator ctx action).run rows.view = .ok u') ↔
      FeeAllowed rows ctx action := by
  have hentry : (u.accounts.get? action.sender).getD (rows.account action.sender) =
      rows.account action.sender := by rw [haccounts]; rfl
  have hpaid : (chargeActionFee action (consumed u action.sender (rows.account action.sender))).run
      rows.view = .ok (charged u action.sender (rows.account action.sender) (feeAt rows action)) :=
    run_chargeActionFee (consumed u action.sender (rows.account action.sender))
      { rows.account action.sender with nonce := (rows.account action.sender).nonce + 1 }
      (Updates.get?_snoc _ _ _) hfee
  unfold dispatchWith FeeAllowed
  simp only [bind_ok, run_authorization_fault h, hinner, Except.ok.injEq, exists_eq_left',
    run_consumeNonce hentry rfl hnonce]
  constructor
  · rintro ⟨u', auth, ⟨rfl, hsig⟩, consumed, ⟨hroom, rfl⟩, paid, hcharge, henforce⟩
    obtain rfl := Except.ok.inj (hpaid.symm.trans hcharge)
    have hspend := (run_enforce_fault ctx h haccounts hassets hfee).mp ⟨u', henforce⟩
    exact ⟨hroom, fun state hstate => ⟨hsig state hstate, hspend state hstate⟩⟩
  · rintro ⟨hroom, hpolicy⟩
    obtain ⟨u', henforce⟩ := (run_enforce_fault ctx h haccounts hassets hfee).mpr
      fun state hstate => (hpolicy state hstate).2
    exact ⟨u', .owner, ⟨rfl, fun state hstate => (hpolicy state hstate).1⟩, _, ⟨hroom, rfl⟩, _, hpaid,
      henforce⟩

end Fault

end Runtime

end Arxium
