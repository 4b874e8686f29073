import Arxium.Runtime.Adjudicate

/-!
# Runtime/Footprint — which rows an action can write

An action fills in a few parts of an update (`ActionPayload.parts`), and its handler leaves the others
empty (`yields_fills`).  Charging the fee, consuming the nonce and enforcing a policy only
add account entries, so what a handler writes elsewhere is what the whole action writes elsewhere
(`yields_dispatchWith`).

The raw rows of the governance category are the ones that can name a row another category also
writes.  `Key.isGovernanceRow` lists the families they stay in.
-/

namespace Arxium

open ReadProg Writes

/-- What an action may ask for besides its fee and its nonce. -/
inductive UpdatePart
  | accounts | statuses | stakes | evidence | blsKey | operator | assets | holders | record | attestors
  | governance
  deriving DecidableEq

/-- The parts an action's handler fills in. -/
def ActionPayload.parts : ActionPayload → List UpdatePart
  | accountPolicy .. | transfer .. | verifyIdentityCredential .. | grantAttestation ..
  | revokeAttestation .. => [.accounts]
  | joinValidator .. => [.accounts, .statuses, .stakes, .blsKey]
  | leaveValidator .. => [.accounts, .statuses, .stakes]
  | stake .. => [.accounts, .stakes]
  | unstake .. => [.accounts, .stakes, .governance]
  | submitEquivocationEvidence .. | submitExecutionFault .. =>
    [.accounts, .statuses, .stakes, .evidence]
  | registerBlsKey .. => [.blsKey]
  | authorizeOperator .. | revokeOperator => [.operator]
  | issueAsset .. | transferAsset .. | token .. => [.accounts, .assets, .record]
  | burnAsset .. | issueAssetTo .. | distributeToHolders .. => [.assets, .record]
  | issuerForcedTransfer .. | recoverHolder .. | redeemHolders .. | splitAsset .. =>
    [.assets, .holders, .record]
  | setHolderFrozen .. | lockHolderAmount .. | unlockHolderAmount .. | lockHolderAmountUntil ..
  | verifyClaimProof .. => [.holders]
  | registerAsset .. | freezeAsset .. | unfreezeAsset .. | lockIssuance .. | transferIssuer ..
  | setAssetMetadataUri .. | setAssetLimits .. | snapshotHolders .. | setPrivateClaims .. => [.record]
  | submitProposal .. | voteProposal .. | blockAttestor => [.governance]
  | applyAttestor .. => [.accounts, .governance]
  | executeProposal .. => [.accounts, .statuses, .stakes, .attestors, .governance]

def ActionPayload.fills (payload : ActionPayload) (part : UpdatePart) : Bool :=
  payload.parts.contains part

/-- **Only these parts are filled in**, and no validator set: the seal writes that. -/
structure BlockUpdates.Fills (fills : UpdatePart → Bool) (u : BlockUpdates) : Prop where
  validatorSet : u.validatorSet = none
  accounts : fills .accounts = false → u.accounts = []
  validatorStatuses : fills .statuses = false → u.validatorStatuses = []
  stakes : fills .stakes = false → u.stakes = {}
  evidence : fills .evidence = false → u.evidence = none
  blsKey : fills .blsKey = false → u.blsKey = none
  operator : fills .operator = false → u.operator = {}
  assets : fills .assets = false → u.assets = []
  holderStates : fills .holders = false → u.holderStates = []
  assetRegistration : fills .record = false → u.assetRegistration = none
  attestorRegistration : fills .attestors = false → u.attestorRegistration = none
  attestorDeregistration : fills .attestors = false → u.attestorDeregistration = none
  governance : fills .governance = false → u.governance = []

/-- The families the governance category writes. -/
def Key.isGovernanceRow : Key → Bool
  | .unbondingDue _ | .validatorCandidates | .attestorRecord _ | .attestorName _
  | .disputeOpen _ _ | .validatorStatus _ | .chainParams | .proposal _ | .vote _ _
  | .nextProposalId => true
  | _ => false

/-- Every raw row is of a governance family. -/
def GovernanceRows (ws : GovernanceUpdates) : Prop := ∀ w ∈ ws, w.key.isGovernanceRow = true

@[simp] theorem governanceRows_nil : GovernanceRows [] := by simp [GovernanceRows]

/-- The rows that only an executed proposal writes: the parameters, open disputes and, in this
category, validator statuses. -/
def Key.isReserved : Key → Bool
  | .disputeOpen _ _ | .validatorStatus _ | .chainParams => true
  | _ => false

/-- Every raw row is of a governance family anyone may write. -/
def OrdinaryRows (ws : GovernanceUpdates) : Prop :=
  ∀ w ∈ ws, w.key.isGovernanceRow = true ∧ w.key.isReserved = false

@[simp] theorem ordinaryRows_nil : OrdinaryRows [] := by simp [OrdinaryRows]

theorem OrdinaryRows.governanceRows {ws : GovernanceUpdates} (h : OrdinaryRows ws) :
    GovernanceRows ws := fun w hw => (h w hw).1

/-- The rows that list maturing unbondings. -/
def Key.isDue : Key → Bool
  | .unbondingDue _ => true
  | _ => false

/-- The rows of proposals, votes and attestors. -/
def Key.isVotingRow : Key → Bool
  | .attestorRecord _ | .attestorName _ | .proposal _ | .vote _ _ | .nextProposalId => true
  | _ => false

/-- Every raw row is about a vote or an attestor. -/
def VotingRows (ws : GovernanceUpdates) : Prop := ∀ w ∈ ws, w.key.isVotingRow = true

@[simp] theorem votingRows_append {ws us : GovernanceUpdates} :
    VotingRows (ws ++ us) ↔ VotingRows ws ∧ VotingRows us := List.forall_mem_append

theorem VotingRows.ordinaryRows {ws : GovernanceUpdates} (h : VotingRows ws) : OrdinaryRows ws := by
  intro w hw
  have hrow := h w hw
  revert hrow
  cases w.key <;> simp [Key.isVotingRow, Key.isGovernanceRow, Key.isReserved]

theorem VotingRows.not_due {ws : GovernanceUpdates} (h : VotingRows ws) :
    ∀ w ∈ ws, w.key.isDue = false := by
  intro w hw
  have hrow := h w hw
  revert hrow
  cases w.key <;> simp [Key.isVotingRow, Key.isDue]

/-- The rows of attestors. -/
def Key.isAttestorRow : Key → Bool
  | .attestorRecord _ | .attestorName _ => true
  | _ => false

/-- Every raw row is about an attestor. -/
def AttestorRows (ws : GovernanceUpdates) : Prop := ∀ w ∈ ws, w.key.isAttestorRow = true

@[simp] theorem attestorRows_nil : AttestorRows [] := by simp [AttestorRows]

theorem AttestorRows.votingRows {ws : GovernanceUpdates} (h : AttestorRows ws) : VotingRows ws := by
  intro w hw
  have hrow := h w hw
  revert hrow
  cases w.key <;> simp [Key.isVotingRow, Key.isAttestorRow]

/-- **The rows an executed proposal may write**: the ordinary ones, and the one its action is about. -/
def GovernanceAction.Writes (action : GovernanceAction) (w : RowWrite) : Prop :=
  (w.key.isGovernanceRow = true ∧ w.key.isReserved = false) ∨
  (∃ params, action = .setChainParams params ∧ w = put .chainParams params) ∨
  (∃ height header resolution corrections cause bounty,
    action = .resolveDispute height header resolution corrections cause bounty ∧
      w = del (.disputeOpen height header)) ∨
  (∃ validator, action = .reinstateValidator validator ∧ w = del (.validatorStatus validator))

theorem GovernanceAction.Writes.isGovernanceRow {action : GovernanceAction} {w : RowWrite}
    (h : action.Writes w) : w.key.isGovernanceRow = true := by
  rcases h with h | ⟨_, -, rfl⟩ | ⟨_, _, _, _, _, _, -, rfl⟩ | ⟨_, -, rfl⟩
  · exact h.1
  · rfl
  · rfl
  · rfl

/-- The one reserved row an executed proposal writes. -/
def GovernanceAction.Reserves (action : GovernanceAction) (w : RowWrite) : Prop :=
  w.key.isReserved = true ∧ action.Writes w

/-- What an executed proposal may write; none of it lists an unbonding. -/
def GovernanceAction.Executes (action : GovernanceAction) (ws : GovernanceUpdates) : Prop :=
  ∀ w ∈ ws, action.Writes w ∧ w.key.isDue = false

theorem GovernanceAction.executes_nil (action : GovernanceAction) : action.Executes [] :=
  List.forall_mem_nil _

theorem VotingRows.executes {ws : GovernanceUpdates} (h : VotingRows ws) (action : GovernanceAction) :
    action.Executes ws := fun w hw => ⟨.inl (h.ordinaryRows w hw), h.not_due w hw⟩

/-! ## Programs -/

theorem yields_of_forall {ε α : Type} {p : Read ε α} {Q : α → Prop} (h : ∀ a, Q a) :
    p.Yields Q := (Prog.yields_true p).mono fun a _ => h a

/-- Whatever a program reads first, what follows decides. -/
theorem yields_after {ε α β : Type} {p : Read ε α} {f : α → Read ε β} {Q : β → Prop}
    (h : ∀ a, (f a).Yields Q) : (p >>= f).Yields Q := yields_bind.mpr (yields_of_forall h)

theorem yields_attempt {ε ε' α : Type} {p : Read ε α} {Q : α → Prop} (h : p.Yields Q) :
    (p.attempt : Read ε' _).Yields fun r => ∀ a, r = .ok a → Q a := by
  induction p with
  | ret a => simpa [Prog.attempt] using h
  | fail e => simp [Prog.attempt]
  | get k next ih => exact fun r => ih r (h r)

/-! ## Governance rows of the circuits -/

theorem ordinaryRows_of_all {ws : GovernanceUpdates}
    (h : (ws.all fun w => w.key.isGovernanceRow && !w.key.isReserved) = true) : OrdinaryRows ws := by
  intro w hw
  simpa using List.all_eq_true.mp h w hw

theorem votingRows_of_all {ws : GovernanceUpdates}
    (h : (ws.all fun w => w.key.isVotingRow) = true) : VotingRows ws :=
  List.all_eq_true.mp h

theorem attestorRows_of_all {ws : GovernanceUpdates}
    (h : (ws.all fun w => w.key.isAttestorRow) = true) : AttestorRows ws :=
  List.all_eq_true.mp h

section Circuits

theorem yields_setSelfBlocked (attestor : Address) (blocked : Bool) :
    (applySetSelfBlocked attestor blocked).Yields AttestorRows :=
  yields_after fun _ => attestorRows_of_all rfl

theorem yields_openRemoval (attestor : Address) (height : Nat) :
    (applyOpenRemoval attestor height).Yields AttestorRows :=
  yields_after fun _ => yields_after fun _ => yields_after fun _ => attestorRows_of_all rfl

theorem yields_closeFailedRemoval (attestor : Address) (height cooldown : Nat) :
    (applyCloseFailedRemoval attestor height cooldown).Yields AttestorRows := by
  refine yields_after fun record => ?_
  cases record with
  | none => exact attestorRows_nil
  | some record => exact attestorRows_of_all rfl

theorem yields_indexUnbonding {ε : Type} [Errors ε] (unlock : Nat) (master validator : Address) :
    (indexUnbonding unlock master validator : Read ε _).Yields OrdinaryRows :=
  yields_after fun _ => ordinaryRows_of_all rfl

theorem yields_deregisterAttestor (attestor : Address) :
    (applyDeregisterAttestor attestor).Yields fun r => AttestorRows r.2 :=
  yields_after fun _ => attestorRows_of_all rfl

namespace Governance

theorem yields_applyVote (voter : Address) (id : Nat) (approve : Bool) (height : Nat) :
    (applyVote voter id approve height).Yields VotingRows := by
  unfold applyVote
  repeat (first | exact votingRows_of_all rfl | refine yields_after fun _ => ?_)

theorem yields_orRejected {α : Type} {p : Read IdentityError α}
    {f : α → Read GovernanceError Execution} {Q : α → Prop} {R : Execution → Prop}
    (hp : p.Yields Q) (hf : ∀ a, Q a → (f a).Yields R) (hnone : R {}) :
    (orRejected p f).Yields R := by
  refine yields_bind.mpr ((yields_attempt hp).mono fun r hr => ?_)
  rcases r with e | a
  · cases e <;> first | exact hnone | trivial
  · exact hf a (hr a rfl)

theorem yields_closeRemoval (action : GovernanceAction) (executed : Bool) (height : Nat) :
    (closeRemoval action executed height).Yields AttestorRows := by
  cases action with
  | removeAttestor attestor =>
    cases executed with
    | true => exact attestorRows_nil
    | false =>
      refine yields_after fun params => ?_
      rw [Prog.yields_mapError]
      exact yields_closeFailedRemoval attestor height _
  | _ => exact attestorRows_nil

theorem yields_closeProposal (id : Nat) (proposal : Proposal) {result : Execution}
    (height : Nat) (h : proposal.action.Executes result.rows) :
    (closeProposal id proposal result height).Yields fun e => proposal.action.Executes e.rows := by
  refine yields_bind.mpr ((yields_closeRemoval _ _ _).mono fun closing hclose w hw => ?_)
  rcases List.mem_append.mp hw with hw | hw
  · rcases List.mem_append.mp hw with hw | hw
    · exact h w hw
    · exact hclose.votingRows.executes _ w hw
  · obtain rfl := List.mem_singleton.mp hw
    exact ⟨.inl ⟨rfl, rfl⟩, rfl⟩

end Governance

variable [Crypto]

theorem yields_registerAttestor (attestor : Address) (name : String) (owners : List Address)
    (threshold height : Nat) :
    (applyRegisterAttestor attestor name owners threshold height).Yields
      fun r => AttestorRows r.2 := by
  unfold applyRegisterAttestor
  repeat (first | exact attestorRows_of_all rfl | refine yields_after fun _ => ?_)

namespace Governance

theorem yields_openAttestorAction (action : GovernanceAction) (params : ChainParams)
    (height : Nat) :
    (openAttestorAction action params height).Yields fun r => AttestorRows r.1 := by
  cases action with
  | addAttestor => exact yields_after fun _ => attestorRows_nil
  | removeAttestor attestor =>
    rw [openAttestorAction, yields_bind, Prog.yields_mapError]
    exact yields_openRemoval attestor height
  | unblockAttestor attestor =>
    refine yields_after fun r => ?_
    rcases r with e | _
    · cases e <;> trivial
    · exact attestorRows_nil
  | _ => exact attestorRows_nil

theorem yields_openProposal (proposer : Address) (action : GovernanceAction)
    (description : String) (height bond : Nat) :
    (openProposal proposer action description height bond).Yields VotingRows := by
  refine yields_after fun params => yields_bind.mpr ?_
  refine (yields_openAttestorAction action params height).mono fun r hr => ?_
  refine yields_after fun id => yields_after fun next => ?_
  exact votingRows_append.mpr ⟨hr.votingRows, votingRows_of_all rfl⟩

theorem yields_applySubmit (proposer : Address) (action : GovernanceAction)
    (description : String) (height : Nat) :
    (applySubmit proposer action description height).Yields VotingRows := by
  refine yields_after fun _ => yields_after fun _ => ?_
  have hopen := yields_openProposal proposer action description height 0
  cases action with
  | setChainParams p =>
    refine yields_after fun changes => ?_
    cases changes
    · exact hopen
    · trivial
  | _ => exact hopen

theorem yields_applyAttestorApplication (applicant : Address) (name : String)
    (owners : List Address) (threshold : Nat) (evidenceHash evidenceUri : String)
    (height : Nat) :
    (applyAttestorApplication applicant name owners threshold evidenceHash evidenceUri
      height).Yields fun r => VotingRows r.1 := by
  refine yields_after fun _ => yields_after fun _ => yields_after fun _ => yields_after fun _ =>
    yields_after fun _ => yields_after fun _ => yields_bind.mpr ?_
  exact (yields_openProposal _ _ _ _ _).mono fun _ h => h

/-- What the action of a passed proposal writes: rows of an attestor, or the one row it is about. -/
theorem yields_executeAction_rows (proposal : Proposal) (height : Nat) :
    (executeAction proposal height).Yields fun e =>
      AttestorRows e.rows ∨ ∃ w, e.rows = [w] ∧ proposal.action.Reserves w := by
  unfold executeAction
  split
  · rename_i params haction
    refine yields_after fun changes => ?_
    cases changes
    · exact .inr ⟨_, rfl, rfl, .inr (.inl ⟨params, haction, rfl⟩)⟩
    · exact .inl attestorRows_nil
  · exact yields_orRejected (yields_registerAttestor _ _ _ _ _)
      (fun a h => yields_after fun _ => .inl h) (.inl attestorRows_nil)
  · exact yields_orRejected (yields_deregisterAttestor _) (fun a h => .inl h) (.inl attestorRows_nil)
  · exact yields_orRejected (yields_setSelfBlocked _ _) (fun a h => .inl h) (.inl attestorRows_nil)
  · repeat (first | exact .inl attestorRows_nil | refine yields_after fun _ => ?_ | split)
  · rename_i haction
    refine yields_after fun dispute => ?_
    split
    · exact .inl attestorRows_nil
    · split
      · exact .inl attestorRows_nil
      · refine yields_after fun paid => ?_
        split
        · exact .inl attestorRows_nil
        · exact yields_after fun accounts => .inr ⟨_, rfl, rfl,
            .inr (.inr (.inl ⟨_, _, _, _, _, _, haction, rfl⟩))⟩
  · rename_i validator haction
    refine yields_after fun status => ?_
    split
    · exact .inr ⟨_, rfl, rfl, .inr (.inr (.inr ⟨validator, haction, rfl⟩))⟩
    · exact .inl attestorRows_nil

theorem yields_executeAction (proposal : Proposal) (height : Nat) :
    (executeAction proposal height).Yields fun e => proposal.action.Executes e.rows := by
  refine (yields_executeAction_rows proposal height).mono fun e he => ?_
  rcases he with he | ⟨w, hw, hreserved, hwrites⟩
  · exact he.votingRows.executes _
  · rw [hw]
    refine List.forall_mem_singleton.mpr ⟨hwrites, ?_⟩
    revert hreserved
    cases w.key <;> simp [Key.isReserved, Key.isDue]

theorem yields_executePassed (proposal : Proposal) (quorum height : Nat) :
    (executePassed proposal quorum height).Yields fun e => proposal.action.Executes e.rows := by
  refine Prog.yields_ite.mpr ⟨fun _ => yields_executeAction proposal height, fun _ => ?_⟩
  exact proposal.action.executes_nil

theorem yields_applyExecute (id height : Nat) :
    (applyExecute id height).Yields fun e =>
      GovernanceRows e.rows ∧ ∀ w ∈ e.rows, w.key.isDue = false := by
  refine yields_after fun proposal => yields_after fun _ => yields_after fun _ =>
    yields_after fun params => yields_bind.mpr ?_
  refine (yields_executePassed proposal _ height).mono fun result h => ?_
  exact (yields_closeProposal id proposal height h).mono fun e he =>
    ⟨fun w hw => (he w hw).1.isGovernanceRow, fun w hw => (he w hw).2⟩

/-- **An executed proposal writes what its action may write.** -/
theorem ensures_applyExecute (id height : Nat) (v : KvView) :
    (applyExecute id height).Ensures v fun e => ∃ proposal : Proposal,
      v (.proposal id) = .ok (some proposal) ∧ ∀ w ∈ e.rows, proposal.action.Writes w := by
  refine ensures_bind.mpr fun proposal hproposal => Prog.Yields.ensures ?_ v
  obtain ⟨row, hrow, hproposal⟩ := bind_ok.mp hproposal
  obtain rfl := orFail_ok.mp hproposal
  have hrow := run_getRow_eq_ok.mp hrow
  refine yields_after fun _ => yields_after fun _ => yields_after fun params =>
    yields_bind.mpr ?_
  refine (yields_executePassed proposal _ height).mono fun result h => ?_
  exact (yields_closeProposal id proposal height h).mono fun e he =>
    ⟨proposal, hrow, fun w hw => (he w hw).1⟩

end Governance

end Circuits

/-! ## Rows of the actions -/

namespace Runtime

/-- A slash fills in accounts, stakes and statuses. -/
theorem fills_of_slash {u : BlockUpdates}
    (hu : u = { accounts := u.accounts, stakes := u.stakes, validatorStatuses := u.validatorStatuses })
    (evidence : Option EvidenceMarker) :
    BlockUpdates.Fills [UpdatePart.accounts, .statuses, .stakes, .evidence].contains
      { u with evidence := evidence } := by
  rw [hu]
  constructor <;> first | rfl | exact fun _ => rfl | exact fun h => Bool.noConfusion h

section Slash

variable [Crypto]

/-- A slash writes accounts, stakes and statuses. -/
theorem yields_faultSlash (culprit : Address) (reason : SlashReason) (height : Nat)
    (challenger : Address) :
    (faultSlash culprit reason height challenger).Yields fun u =>
      u = { accounts := u.accounts, stakes := u.stakes,
            validatorStatuses := u.validatorStatuses } := by
  unfold faultSlash
  refine yields_after fun status => ?_
  split
  · rfl
  · repeat (first | rfl | refine yields_after fun _ => ?_)

theorem yields_applySlash (validator : Address) (amount : Nat) (reason : SlashReason)
    (height : Nat) :
    (applySlash validator amount reason height).Yields fun r =>
      ∀ e ∈ r.2.allocations, e.1.2 = validator := by
  unfold applySlash
  refine yields_after fun _ => yields_after fun master => yields_after fun _ =>
    yields_after fun _ => yields_after fun _ => yields_after fun _ => yields_after fun _ =>
    yields_after fun _ => ?_
  dsimp only
  split
  · exact List.forall_mem_singleton.mpr rfl
  · exact List.forall_mem_singleton.mpr rfl

/-- **A fault slash names its culprit and no one else**, and leaves a tombstoned one alone. -/
theorem ensures_faultSlash (culprit : Address) (reason : SlashReason) (height : Nat)
    (challenger : Address) (v : KvView) :
    (faultSlash culprit reason height challenger).Ensures v fun u =>
      (v (.validatorStatus culprit) = .ok (some ValidatorStatus.tombstoned) ∧ u = {}) ∨
      (v (.validatorStatus culprit) ≠ .ok (some ValidatorStatus.tombstoned) ∧
        u.validatorStatuses = [(culprit, some .tombstoned)] ∧
        ∀ e ∈ u.stakes.allocations, e.1.2 = culprit) := by
  refine ensures_bind.mpr (ensures_getRow.mpr fun status hstatus => ?_)
  split
  · rename_i htomb
    refine (ensures_ret _).mpr (.inl ⟨?_, rfl⟩)
    rw [hstatus, htomb]
    rfl
  · rename_i htomb
    have hne : v (.validatorStatus culprit) ≠ .ok (some ValidatorStatus.tombstoned) := by
      rw [hstatus]
      exact fun he => htomb (Except.ok.inj he)
    refine Prog.Yields.ensures ?_ v
    refine yields_after fun _ => yields_after fun _ => yields_after fun _ => yields_after fun _ =>
      yields_after fun _ => yields_after fun _ => yields_after fun _ =>
      yields_bind.mpr (yields_circuit.mpr ?_)
    refine (yields_applySlash _ _ _ _).mono fun r hr => yields_after fun _ => ?_
    exact .inr ⟨hne, rfl, hr⟩

theorem yields_executeProposal (id height : Nat) :
    (executeProposal id height).Yields fun u =>
      GovernanceRows u.governance ∧ u.validatorSet = none := by
  refine yields_bind.mpr (yields_circuit.mpr ?_)
  refine (Governance.yields_applyExecute id height).mono fun result hrows => ?_
  have h := hrows.1
  dsimp only
  split
  · exact ⟨h, rfl⟩
  · refine yields_after fun r => ?_
    rcases r with e | slashed
    · cases e <;> first | exact ⟨h, rfl⟩ | trivial
    · exact ⟨h, rfl⟩

theorem yields_executeProposal_due (id height : Nat) :
    (executeProposal id height).Yields fun u => ∀ w ∈ u.governance, w.key.isDue = false := by
  refine yields_bind.mpr (yields_circuit.mpr ?_)
  refine (Governance.yields_applyExecute id height).mono fun result hrows => ?_
  have h := hrows.2
  dsimp only
  split
  · exact h
  · refine yields_after fun r => ?_
    rcases r with e | slashed
    · cases e <;> first | exact h | trivial
    · exact h

/-- …and what the handler hands back of it is the same. -/
theorem ensures_executeProposal (id height : Nat) (v : KvView) :
    (executeProposal id height).Ensures v fun u => ∃ proposal : Proposal,
      v (.proposal id) = .ok (some proposal) ∧ ∀ w ∈ u.governance, proposal.action.Writes w := by
  refine ensures_bind.mpr (ensures_circuit.mpr ?_)
  refine (Governance.ensures_applyExecute id height v).mono fun result h => Prog.Yields.ensures ?_ v
  dsimp only
  split
  · exact h
  · refine yields_after fun r => ?_
    rcases r with e | slashed
    · cases e <;> first | exact h | trivial
    · exact h

end Slash


/-- The same updates but for the account entries. -/
def SameButAccounts (u u' : BlockUpdates) : Prop := ∃ accounts, u' = { u with accounts := accounts }

theorem SameButAccounts.refl (u : BlockUpdates) : SameButAccounts u u := ⟨u.accounts, rfl⟩

theorem SameButAccounts.trans {u u' u'' : BlockUpdates} (h : SameButAccounts u u')
    (h' : SameButAccounts u' u'') : SameButAccounts u u'' := by
  obtain ⟨accounts, rfl⟩ := h
  obtain ⟨accounts', rfl⟩ := h'
  exact ⟨accounts', rfl⟩

theorem yields_consumeNonce (action : ChainAction) (u : BlockUpdates) :
    (consumeNonce action u).Yields (SameButAccounts u) := by
  refine yields_after fun _ => yields_after fun _ => ?_
  split
  · exact .refl u
  · exact yields_after fun _ => yields_after fun _ => ⟨_, rfl⟩

section Wrapping

variable [Wire ActionPayload]

theorem yields_chargeActionFee (action : ChainAction) (u : BlockUpdates) :
    (chargeActionFee action u).Yields (SameButAccounts u) :=
  yields_after fun _ => yields_after fun _ => yields_after fun _ => ⟨_, rfl⟩

theorem yields_enforce (action : ChainAction) (height : Nat) (auth : PolicyAuthorization)
    (u : BlockUpdates) : (enforce action height auth u).Yields (SameButAccounts u) := by
  refine yields_after fun before => ?_
  split
  · exact .refl u
  · exact .refl u
  · exact yields_after fun _ => yields_after fun _ => yields_after fun _ => yields_after fun _ =>
      yields_after fun _ => ⟨_, rfl⟩

end Wrapping

variable [Crypto] [Wire ActionPayload] [Zk] [StateTrie] [Decode] {adjudicator : Adjudicator} {ctx : DispatchCtx}
  {action : ChainAction} {v : KvView} {u : BlockUpdates}

/-- **The account entries aside, what the handler writes is what the action writes.** -/
theorem run_dispatchWith (h : (dispatchWith adjudicator ctx action).run v = .ok u) :
    ∃ inner, (dispatchInner adjudicator ctx action).run v = .ok inner ∧
      SameButAccounts inner u := by
  obtain ⟨auth, h⟩ := run_rest h
  obtain ⟨inner, hinner, h⟩ := bind_ok.mp h
  obtain ⟨consumed, hconsumed, h⟩ := bind_ok.mp h
  obtain ⟨charged, hcharged, h⟩ := bind_ok.mp h
  have h₁ := (yields_consumeNonce action inner).ensures v consumed hconsumed
  have h₂ := (yields_chargeActionFee action consumed).ensures v charged hcharged
  have h₃ := (yields_enforce action ctx.height auth charged).ensures v u h
  exact ⟨inner, hinner, (h₁.trans h₂).trans h₃⟩

/-- …so what holds of the handler's updates whatever their account entries holds of the action's. -/
theorem yields_dispatchWith {P : BlockUpdates → Prop}
    (hP : ∀ u accounts, P u → P { u with accounts := accounts })
    (h : (dispatchInner adjudicator ctx action).Yields P) :
    (dispatchWith adjudicator ctx action).Yields P := by
  refine yields_after fun auth => yields_bind.mpr (h.mono fun u hu => yields_bind.mpr ?_)
  refine (yields_consumeNonce action u).mono fun u₁ h₁ => yields_bind.mpr ?_
  refine (yields_chargeActionFee action u₁).mono fun u₂ h₂ => ?_
  refine (yields_enforce action ctx.height auth u₂).mono fun u₃ h₃ => ?_
  obtain ⟨accounts, rfl⟩ := (h₁.trans h₂).trans h₃
  exact hP u accounts hu

/-- **A handler fills in the parts of its action.** -/
theorem yields_fills : (dispatchInner adjudicator ctx action).Yields
    (BlockUpdates.Fills action.payload.fills) := by
  unfold dispatchInner
  cases hp : action.payload with
  | submitEquivocationEvidence blockA blockB =>
    refine yields_after fun _ => yields_after fun _ => yields_after fun _ => yields_after fun _ =>
      yields_after fun _ => yields_bind.mpr ?_
    exact (yields_faultSlash _ _ _ _).mono fun u hu => fills_of_slash hu _
  | submitExecutionFault artifact =>
    refine yields_after fun _ => yields_after fun _ => yields_after fun _ => yields_after fun _ =>
      yields_after fun _ => yields_after fun _ => yields_after fun _ => yields_after fun _ =>
      yields_after fun _ => yields_after fun disputed => yields_bind.mpr ?_
    refine Prog.yields_ite.mpr ⟨fun _ => fills_of_slash rfl _, fun _ => ?_⟩
    exact (yields_faultSlash _ _ _ _).mono fun u hu => fills_of_slash hu _
  | executeProposal id =>
    refine yields_after fun result => ?_
    dsimp only
    split
    · constructor <;> first | rfl | exact fun _ => rfl | exact fun h => Bool.noConfusion h
    · refine yields_after fun r => ?_
      rcases r with e | slashed
      · cases e
        all_goals first
          | trivial
          | constructor <;> first | rfl | exact fun _ => rfl | exact fun h => Bool.noConfusion h
      · constructor <;> first | rfl | exact fun _ => rfl | exact fun h => Bool.noConfusion h
  | token t =>
    cases t
    all_goals repeat (first
      | refine yields_after fun _ => ?_
      | constructor <;> first | rfl | exact fun _ => rfl | exact fun h => Bool.noConfusion h)
  | _ =>
    repeat (first
      | refine yields_after fun _ => ?_
      | constructor <;> first | rfl | exact fun _ => rfl | exact fun h => Bool.noConfusion h)

/-- **Only an executed proposal writes reserved rows**, and no action writes a validator set: the seal
does. -/
theorem yields_ordinaryRows (hx : ∀ id, action.payload ≠ .executeProposal id) :
    (dispatchInner adjudicator ctx action).Yields fun u =>
      OrdinaryRows u.governance ∧ u.validatorSet = none := by
  by_cases hg : action.payload.fills .governance = false
  · refine yields_fills.mono fun u hu => ⟨?_, hu.validatorSet⟩
    rw [hu.governance hg]
    exact ordinaryRows_nil
  unfold dispatchInner
  cases hp : action.payload with
  | unstake validator amount =>
    refine yields_after fun _ => yields_after fun _ => yields_bind.mpr ?_
    exact (yields_indexUnbonding _ _ _).mono fun _ h => ⟨h, rfl⟩
  | submitProposal proposed description =>
    refine yields_after fun _ => yields_bind.mpr (yields_circuit.mpr ?_)
    exact (Governance.yields_applySubmit _ _ _ _).mono fun _ h => ⟨h.ordinaryRows, rfl⟩
  | voteProposal id approve =>
    refine yields_bind.mpr (yields_circuit.mpr ?_)
    exact (Governance.yields_applyVote _ _ _ _).mono fun _ h => ⟨h.ordinaryRows, rfl⟩
  | executeProposal id => exact absurd hp (hx id)
  | applyAttestor name owners threshold evidenceHash evidenceUri =>
    refine yields_bind.mpr (yields_circuit.mpr ?_)
    exact (Governance.yields_applyAttestorApplication _ _ _ _ _ _ _).mono fun _ h => ⟨h.ordinaryRows, rfl⟩
  | blockAttestor =>
    refine yields_bind.mpr (yields_circuit.mpr ?_)
    exact (yields_setSelfBlocked _ _).mono fun _ h => ⟨h.votingRows.ordinaryRows, rfl⟩
  | _ =>
    rw [hp] at hg
    exact absurd rfl hg

/-- **Only an unstake lists an unbonding.** -/
theorem yields_not_due (hx : ∀ validator amount, action.payload ≠ .unstake validator amount) :
    (dispatchInner adjudicator ctx action).Yields fun u => ∀ w ∈ u.governance, w.key.isDue = false := by
  by_cases hg : action.payload.fills .governance = false
  · refine yields_fills.mono fun u hu => ?_
    rw [hu.governance hg]
    exact List.forall_mem_nil _
  unfold dispatchInner
  cases hp : action.payload with
  | unstake validator amount => exact absurd hp (hx validator amount)
  | submitProposal proposed description =>
    refine yields_after fun _ => yields_bind.mpr (yields_circuit.mpr ?_)
    exact (Governance.yields_applySubmit _ _ _ _).mono fun _ h => h.not_due
  | voteProposal id approve =>
    refine yields_bind.mpr (yields_circuit.mpr ?_)
    exact (Governance.yields_applyVote _ _ _ _).mono fun _ h => h.not_due
  | executeProposal id => exact yields_executeProposal_due id ctx.height
  | applyAttestor name owners threshold evidenceHash evidenceUri =>
    refine yields_bind.mpr (yields_circuit.mpr ?_)
    exact (Governance.yields_applyAttestorApplication _ _ _ _ _ _ _).mono fun _ h => h.not_due
  | blockAttestor =>
    refine yields_bind.mpr (yields_circuit.mpr ?_)
    exact (yields_setSelfBlocked _ _).mono fun _ h => h.votingRows.not_due
  | _ =>
    rw [hp] at hg
    exact absurd rfl hg

/-- **The raw rows of an action are of the governance families.** -/
theorem yields_governanceRows :
    (dispatchInner adjudicator ctx action).Yields fun u =>
      GovernanceRows u.governance ∧ u.validatorSet = none := by
  by_cases hx : ∃ id, action.payload = .executeProposal id
  · obtain ⟨id, hp⟩ := hx
    rw [dispatchInner, hp]
    exact yields_executeProposal id ctx.height
  · refine (yields_ordinaryRows (not_exists.mp hx)).mono fun u hu => ⟨hu.1.governanceRows, hu.2⟩

/-- **A reserved row is written by the proposal that is about it.** -/
theorem ensures_governed :
    (dispatchInner adjudicator ctx action).Ensures v fun u => ∀ w ∈ u.governance,
      w.key.isReserved = true → ∃ id, ∃ proposal : Proposal, action.payload = .executeProposal id ∧
        v (.proposal id) = .ok (some proposal) ∧ proposal.action.Writes w := by
  by_cases hx : ∃ id, action.payload = .executeProposal id
  · obtain ⟨id, hp⟩ := hx
    rw [dispatchInner, hp]
    refine (ensures_executeProposal id ctx.height v).mono fun u hu w hw _ => ?_
    obtain ⟨proposal, hrow, hwrites⟩ := hu
    exact ⟨id, proposal, rfl, hrow, hwrites w hw⟩
  · refine ((yields_ordinaryRows (not_exists.mp hx)).ensures v).mono fun u hu w hw hres => ?_
    rw [(hu.1 w hw).2] at hres
    cases hres

/-- Only a fault submission leaves an evidence marker. -/
theorem yields_evidence (h : action.payload.isFaultSubmission = false) :
    (dispatchInner adjudicator ctx action).Yields fun u => u.evidence = none := by
  refine yields_fills.mono fun u hu => hu.evidence ?_
  cases hp : action.payload <;> rw [hp] at h <;> first | rfl | cases h

omit [Wire ActionPayload] [Zk] [StateTrie] [Decode] in
/-- A claimed key takes effect later than the block that registers it. -/
theorem yields_claimBlsKey (validator : Address) (pubkey pop : Bytes) (height : Nat) :
    (claimBlsKey validator pubkey pop height).Yields fun r =>
      r.address = validator ∧ height < r.effectiveHeight := by
  refine yields_after fun _ => yields_after fun _ => yields_after fun _ => yields_after fun _ =>
    yields_bind.mpr ?_
  refine yields_after fun params => ⟨rfl, ?_⟩
  exact Nat.lt_div_mul_add (lt_max_of_lt_right Nat.one_pos) |>.trans_eq
    (by rw [Nat.add_mul, Nat.one_mul]; rfl)

/-- **No key is registered for the block's own height or an earlier one.** -/
theorem yields_blsKey : (dispatchInner adjudicator ctx action).Yields fun u =>
    ∀ r, u.blsKey = some r → ctx.height < r.effectiveHeight := by
  by_cases hk : action.payload.fills .blsKey = false
  · refine yields_fills.mono fun u hu r hr => ?_
    rw [hu.blsKey hk] at hr
    cases hr
  unfold dispatchInner
  cases hp : action.payload with
  | joinValidator validator amount pubkey pop =>
    refine yields_after fun _ => yields_after fun _ => yields_after fun _ => yields_after fun _ =>
      yields_after fun _ => yields_after fun _ => yields_bind.mpr ?_
    refine (yields_claimBlsKey _ _ _ _).mono fun registration h => yields_after fun _ r hr => ?_
    exact Option.some.inj hr ▸ h.2
  | registerBlsKey validator pubkey pop =>
    refine yields_after fun _ => yields_bind.mpr ?_
    refine (yields_claimBlsKey _ _ _ _).mono fun registration h r hr => ?_
    exact Option.some.inj hr ▸ h.2
  | _ =>
    rw [hp] at hk
    exact absurd rfl hk

end Runtime

end Arxium
