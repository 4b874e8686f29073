import Arxium.Runtime.Sender

/-!
# Runtime/Proposals — where the governed parameters come from

A proposal's action is checked when it is submitted and never changed after: votes and closing rewrite
the row with the same action (`proposes_dispatchInner`).  So parameters set by governance are
parameters that `validate_action` let through, whatever the chain did in between.
-/

namespace Arxium

open ReadProg Writes

variable [Crypto]

/-- The proposals among the rows: with an action that passed the checks, or that of the proposal stored
there. -/
def ProposesFrom (rows : Rows) (ws : GovernanceUpdates) : Prop :=
  ∀ w ∈ ws, ∀ id, w.key = .proposal id → ∃ p : Proposal, w = put (.proposal id) p ∧
    (Governance.validateAction p.action = .ok () ∨
      ∃ old : Proposal, rows (.proposal id) = some old ∧ old.action = p.action)

variable {rows : Rows} {ws us : GovernanceUpdates}

theorem ProposesFrom.append (h : ProposesFrom rows ws) (h' : ProposesFrom rows us) :
    ProposesFrom rows (ws ++ us) := List.forall_mem_append.mpr ⟨h, h'⟩

theorem ProposesFrom.cons {w : RowWrite} (h : ProposesFrom rows [w]) (h' : ProposesFrom rows ws) :
    ProposesFrom rows (w :: ws) := h.append h'

theorem proposesFrom_of_not_proposal (h : ∀ w ∈ ws, ∀ id, w.key ≠ .proposal id) : ProposesFrom rows ws :=
  fun w hw id hk => absurd hk (h w hw id)

theorem AttestorRows.proposesFrom (h : AttestorRows ws) : ProposesFrom rows ws :=
  proposesFrom_of_not_proposal fun w hw id hk => by
    have hrow := h w hw
    rw [hk] at hrow
    cases hrow

theorem proposesFrom_put {id : Nat} {p : Proposal}
    (h : Governance.validateAction p.action = .ok () ∨
      ∃ old : Proposal, rows (.proposal id) = some old ∧ old.action = p.action) :
    ProposesFrom rows [put (.proposal id) p] := by
  refine List.forall_mem_singleton.mpr fun id' hk => ?_
  obtain rfl := Key.proposal.inj hk
  exact ⟨p, rfl, h⟩

namespace Governance

omit [Crypto] in
theorem run_getProposal {id : Nat} {p : Proposal} (h : (getProposal id).run rows.view = .ok p) :
    rows (.proposal id) = some p := by
  obtain ⟨row, hrow, h⟩ := bind_ok.mp h
  obtain rfl := orFail_ok.mp h
  exact Except.ok.inj (run_getRow_eq_ok.mp hrow)

theorem proposes_openProposal {action : GovernanceAction} (hvalid : validateAction action = .ok ())
    (proposer : Address) (description : String) (height bond : Nat) :
    (openProposal proposer action description height bond).Ensures rows.view (ProposesFrom rows) := by
  refine Prog.Yields.ensures (yields_after fun params => yields_bind.mpr ?_) _
  refine (yields_openAttestorAction action params height).mono fun r hr => ?_
  refine yields_after fun id => yields_after fun next => hr.proposesFrom.append ?_
  refine (proposesFrom_put (.inl hvalid)).cons (proposesFrom_of_not_proposal ?_)
  exact List.forall_mem_singleton.mpr fun _ hk => by cases hk

theorem proposes_applySubmit (proposer : Address) (action : GovernanceAction) (description : String)
    (height : Nat) :
    (applySubmit proposer action description height).Ensures rows.view (ProposesFrom rows) := by
  refine ensures_bind.mpr fun _ _ => ensures_bind.mpr fun _ hvalid => ?_
  rw [Prog.run_ofExcept] at hvalid
  have hopen : (openProposal proposer action description height 0).Ensures rows.view (ProposesFrom rows) :=
    proposes_openProposal hvalid proposer description height 0
  cases action with
  | setChainParams p =>
    refine ensures_bind.mpr fun changes _ => ?_
    cases changes
    · exact hopen
    · exact fun _ h => by cases h
  | _ => exact hopen

theorem proposes_applyAttestorApplication (applicant : Address) (name : String) (owners : List Address)
    (threshold : Nat) (evidenceHash evidenceUri : String) (height : Nat) :
    (applyAttestorApplication applicant name owners threshold evidenceHash evidenceUri
      height).Ensures rows.view fun r => ProposesFrom rows r.1 := by
  refine ensures_bind.mpr fun _ hvalid => ?_
  rw [Prog.run_ofExcept] at hvalid
  refine ensures_bind.mpr fun _ _ => ensures_bind.mpr fun _ _ => ensures_bind.mpr fun _ _ =>
    ensures_bind.mpr fun _ _ => ensures_bind.mpr fun _ _ => ensures_bind.mpr ?_
  exact (proposes_openProposal hvalid _ _ _ _).mono fun _ h => (ensures_ret _).mpr h

theorem proposes_applyVote (voter : Address) (id : Nat) (approve : Bool) (height : Nat) :
    (applyVote voter id approve height).Ensures rows.view (ProposesFrom rows) := by
  refine ensures_bind.mpr fun power _ => ensures_bind.mpr fun proposal hproposal => ?_
  have hstored := run_getProposal hproposal
  refine Prog.Yields.ensures (yields_after fun _ => yields_after fun _ => yields_after fun _ =>
    yields_after fun _ => ?_) _
  have hvote : ∀ w ∈ [(put (.vote id voter) approve : RowWrite)], ∀ id, w.key ≠ .proposal id :=
    List.forall_mem_singleton.mpr fun _ hk => by cases hk
  refine (proposesFrom_put (.inr ⟨proposal, hstored, ?_⟩)).cons (proposesFrom_of_not_proposal hvote)
  cases approve <;> rfl

theorem proposes_executePassed (rows : Rows) (proposal : Proposal) (quorum height : Nat) :
    (executePassed proposal quorum height).Yields fun e => ProposesFrom rows e.rows := by
  refine Prog.yields_ite.mpr ⟨fun _ => ?_, fun _ => attestorRows_nil.proposesFrom⟩
  refine (yields_executeAction_rows proposal height).mono fun e he => ?_
  rcases he with he | ⟨w, hw, hreserved, -⟩
  · exact he.proposesFrom
  · rw [hw]
    refine proposesFrom_of_not_proposal (List.forall_mem_singleton.mpr fun id hk => ?_)
    rw [hk] at hreserved
    cases hreserved

theorem proposes_applyExecute (id height : Nat) :
    (applyExecute id height).Ensures rows.view fun e => ProposesFrom rows e.rows := by
  refine ensures_bind.mpr fun proposal hproposal => Prog.Yields.ensures ?_ _
  have hstored := run_getProposal hproposal
  refine yields_after fun _ => yields_after fun _ => yields_after fun params => yields_bind.mpr ?_
  refine (proposes_executePassed rows proposal _ height).mono fun result hresult => ?_
  refine yields_bind.mpr ((yields_closeRemoval _ _ _).mono fun closing hclosing => ?_)
  exact (hresult.append hclosing.proposesFrom).append (proposesFrom_put (.inr ⟨proposal, hstored, rfl⟩))

end Governance

namespace Runtime

theorem proposes_executeProposal (id height : Nat) :
    (executeProposal id height).Ensures rows.view fun u => ProposesFrom rows u.governance := by
  refine ensures_bind.mpr (ensures_circuit.mpr ?_)
  refine (Governance.proposes_applyExecute id height).mono fun result h => Prog.Yields.ensures ?_ _
  dsimp only
  split
  · exact h
  · refine yields_after fun r => ?_
    rcases r with e | slashed
    · cases e <;> first | exact h | trivial
    · exact h

variable [Wire ActionPayload] [Zk] [StateTrie] [Decode] {adjudicator : Adjudicator} {ctx : DispatchCtx}
  {action : ChainAction} {u : BlockUpdates}

/-- **A proposal is stored with a valid action, which it keeps.** -/
theorem proposes_dispatchInner :
    (dispatchInner adjudicator ctx action).Ensures rows.view fun u => ProposesFrom rows u.governance := by
  have hnil : ProposesFrom rows [] := attestorRows_nil.proposesFrom
  by_cases hg : action.payload.fills .governance = false
  · refine (yields_fills.mono fun u hu => ?_).ensures _
    rw [hu.governance hg]
    exact hnil
  unfold dispatchInner
  cases hp : action.payload with
  | unstake validator amount =>
    refine Prog.Yields.ensures (yields_after fun _ => yields_after fun _ => yields_bind.mpr ?_) _
    refine yields_after fun _ => proposesFrom_of_not_proposal ?_
    exact List.forall_mem_singleton.mpr fun _ hk => by cases hk
  | submitProposal proposed description =>
    refine ensures_bind.mpr fun _ _ => ensures_bind.mpr (ensures_circuit.mpr ?_)
    exact (Governance.proposes_applySubmit _ _ _ _).mono fun _ h => (ensures_ret _).mpr h
  | voteProposal id approve =>
    refine ensures_bind.mpr (ensures_circuit.mpr ?_)
    exact (Governance.proposes_applyVote _ _ _ _).mono fun _ h => (ensures_ret _).mpr h
  | executeProposal id => exact proposes_executeProposal id ctx.height
  | applyAttestor name owners threshold evidenceHash evidenceUri =>
    refine ensures_bind.mpr (ensures_circuit.mpr ?_)
    exact (Governance.proposes_applyAttestorApplication _ _ _ _ _ _ _).mono fun _ h =>
      (ensures_ret _).mpr h
  | blockAttestor =>
    refine Prog.Yields.ensures (yields_bind.mpr (yields_circuit.mpr ?_)) _
    exact (yields_setSelfBlocked _ _).mono fun _ h => h.proposesFrom
  | _ =>
    rw [hp] at hg
    exact absurd rfl hg

end Runtime

end Arxium
