import Arxium.Lib.Listing
import Arxium.Node.Applied

/-!
# Node/Operators — whom an operator acts for

A validator may authorize one operator, and for each operator a second row lists the validators that
authorized it.  Both rows are rewritten from what the action reads, so a validator that changes operators
several times in a block leaves the list it was on each time.  In the state after every block the lists
are the other side of the authorizations (`operators_listed`).
-/

namespace Arxium

open ReadProg Writes Listing

/-! ## The rows -/

/-- Authorizations, and the lists that go with them. -/
def Key.isOperatorRow : Key → Bool
  | .operator _ | .operatorIndex _ => true
  | _ => false

namespace Rows

/-- The operator a validator authorized. -/
def operator (rows : Rows) (validator : Address) : Option Address := rows (.operator validator)

/-- The validators an operator is listed for. -/
def managed (rows : Rows) (operator : Address) : List Address :=
  Option.getD (α := List Address) (rows (.operatorIndex operator)) []

/-- **Every list is the other side of the authorizations.** -/
def OperatorsListed (rows : Rows) : Prop :=
  ∀ o, Lists (rows.managed o) fun v => rows.operator v = some o

/-- Nobody has authorized anyone yet. -/
def NoOperators (rows : Rows) : Prop := ∀ k : Key, k.isOperatorRow = true → rows k = none

theorem NoOperators.listed {rows : Rows} (h : rows.NoOperators) : rows.OperatorsListed := by
  intro o
  have hlist : rows.managed o = [] := congrArg (Option.getD · []) (h (.operatorIndex o) rfl)
  rw [hlist]
  exact lists_nil fun v hv => absurd ((h (.operator v) rfl).symm.trans hv) nofun

end Rows

/-- The same operators, whatever else changed. -/
def SameOperators (s s' : Rows) : Prop := ∀ k : Key, k.isOperatorRow = true → s' k = s k

section Apply

variable {u : BlockUpdates} {s s' : Rows}

theorem operator_apply (hgov : GovernanceRows u.governance) (v : Address) :
    Rows.operator (Writes.apply u.viewWrites s) v =
      (u.operator.authorization.get? v).getD (s.operator v) := by
  have hentries := lookup_entries Key.operator (fun _ o => o) (fun _ _ => Key.operator.inj)
    (fun _ => rfl) u.operator.authorization v
  rw [Rows.operator, apply_apply, lookup_viewWrites hgov (c := .authorization) rfl, Category.writes,
    hentries]
  exact congrArg (Option.getD · _) Option.map_id'

theorem managed_apply (hgov : GovernanceRows u.governance) (o : Address) :
    Rows.managed (Writes.apply u.viewWrites s) o =
      (u.operator.operatorIndex.get? o).getD (s.managed o) := by
  have hentries := lookup_entries Key.operatorIndex (fun _ l => if l.isEmpty then none else some l)
    (fun _ _ => Key.operatorIndex.inj) operatorIndexWrite_eq u.operator.operatorIndex o
  rw [Rows.managed, apply_apply, lookup_viewWrites hgov (c := .operatorIndex) rfl, Category.writes,
    hentries]
  cases u.operator.operatorIndex.get? o with
  | none => rfl
  | some l => cases l <;> rfl

theorem SameOperators.listed (h : SameOperators s s') (hs : s.OperatorsListed) : s'.OperatorsListed := by
  intro o
  have hlist : s'.managed o = s.managed o := congrArg (Option.getD · []) (h (.operatorIndex o) rfl)
  have hoperator : ∀ v, s'.operator v = s.operator v := fun v => h (.operator v) rfl
  rw [hlist]
  exact (hs o).congr fun v => by rw [hoperator]

end Apply

/-! ## What an action does -/

namespace Runtime

variable {rows : Rows} {action : ChainAction} {u : BlockUpdates}

/-- A validator gets another operator, or none, and moves from one list to the other. -/
structure Reassigns (rows : Rows) (u : BlockUpdates) (who : Address) (target : Option Address) : Prop where
  authorization : u.operator.authorization = [(who, target)]
  lists : ∀ o, (u.operator.operatorIndex.get? o).getD (rows.managed o) =
    mark (rows.managed o) who (decide (target = some o))

theorem run_operatorValidatorsLookup (o : Address) :
    (operatorValidatorsLookup o).run rows.view = .ok (rows.managed o) := rfl

/-- Who is not with an operator is not on its list. -/
theorem mark_of_operator_ne (hlisted : rows.OperatorsListed) {who o : Address}
    (h : rows.operator who ≠ some o) : mark (rows.managed o) who false = rows.managed o :=
  mark_of_not_mem fun hmem => h (((hlisted o).mem_iff who).mp hmem)

/-- The list of the operator before, without the validator that leaves it. -/
theorem getD_released (hlisted : rows.OperatorsListed) {who previous : Address}
    (h : rows.operator who = some previous) (o : Address) :
    (Updates.get? [(previous, (rows.managed previous).filter (· ≠ who))] o).getD (rows.managed o) =
      mark (rows.managed o) who false := by
  by_cases ho : previous = o
  · subst ho
    rw [mark_false (hlisted previous).nodup]
    simp [Updates.get?]
  · rw [mark_of_operator_ne hlisted (by rw [h]; exact fun he => ho (Option.some.inj he))]
    simp [Updates.get?, ho]

theorem run_authorizeOperator [Crypto] (hlisted : rows.OperatorsListed) {operator : Address}
    (h : (authorizeOperator action operator).run rows.view = .ok u) :
    Reassigns rows u action.sender (some operator) := by
  obtain ⟨previous, hprevious, h⟩ := bind_ok.mp h
  obtain rfl : rows.operator action.sender = previous := Except.ok.inj hprevious
  obtain ⟨released, hreleased, h⟩ := bind_ok.mp h
  rw [run_bind, run_operatorValidatorsLookup] at h
  obtain rfl := Except.ok.inj h
  refine ⟨rfl, fun o => ?_⟩
  dsimp only
  rw [Updates.get?_append]
  by_cases ho : operator = o
  · subst ho
    simp [Updates.get?, mark]
  · rw [Updates.get?, Updates.get?, Option.none_or, if_neg ho, Option.none_or]
    unfold releaseValidator at hreleased
    rw [decide_eq_false fun he => ho (Option.some.inj he)]
    split at hreleased
    · next hnone =>
      obtain rfl := Except.ok.inj hreleased
      rw [mark_of_operator_ne hlisted (by rw [hnone]; exact (Option.some_ne_none _).symm)]
      rfl
    · next previous hsome =>
      split at hreleased
      · next hsame =>
        obtain rfl := Except.ok.inj hreleased
        rw [mark_of_operator_ne hlisted (by rw [hsome, hsame]; exact fun he => ho (Option.some.inj he))]
        rfl
      · rw [run_bind, run_operatorValidatorsLookup] at hreleased
        obtain rfl := Except.ok.inj hreleased
        exact getD_released hlisted hsome o

theorem run_revokeOperator [Crypto] (hlisted : rows.OperatorsListed)
    (h : (revokeOperator action).run rows.view = .ok u) :
    Reassigns rows u action.sender none := by
  obtain ⟨found, hfound, h⟩ := bind_ok.mp h
  obtain ⟨previous, hprevious, h⟩ := bind_ok.mp h
  have hwith : rows.operator action.sender = some previous :=
    (Except.ok.inj hfound).trans (orFail_ok.mp hprevious)
  rw [run_bind, run_operatorValidatorsLookup] at h
  obtain rfl := Except.ok.inj h
  refine ⟨rfl, fun o => ?_⟩
  rw [decide_eq_false nofun]
  exact getD_released hlisted hwith o

/-- What an action does to the operators. -/
inductive OperatorEffect (rows : Rows) (u : BlockUpdates) : Prop
  | untouched (operator : u.operator = {})
  | reassigns (who : Address) (target : Option Address) (reassigns : Reassigns rows u who target)

section Dispatch

variable [Crypto] [Wire ActionPayload] [Zk] [StateTrie] [Decode] {adjudicator : Adjudicator}
  {ctx : DispatchCtx}

theorem operatorEffect_dispatchInner (hlisted : rows.OperatorsListed)
    (h : (dispatchInner adjudicator ctx action).run rows.view = .ok u) : OperatorEffect rows u := by
  by_cases ho : action.payload.fills .operator = false
  · exact .untouched ((yields_fills.ensures _ u h).operator ho)
  unfold dispatchInner at h
  cases hp : action.payload with
  | authorizeOperator operator =>
    rw [hp] at h
    exact .reassigns _ _ (run_authorizeOperator hlisted h)
  | revokeOperator =>
    rw [hp] at h
    exact .reassigns _ _ (run_revokeOperator hlisted h)
  | _ =>
    rw [hp] at ho
    exact absurd rfl ho

end Dispatch

end Runtime

/-! ## Runs -/

theorem Runtime.OperatorEffect.listed {s : Rows} {u : BlockUpdates} (h : Runtime.OperatorEffect s u)
    (hgov : GovernanceRows u.governance) (hs : s.OperatorsListed) :
    Rows.OperatorsListed (Writes.apply u.viewWrites s) := by
  intro o
  rw [managed_apply hgov]
  cases h with
  | untouched hnone =>
    rw [hnone]
    refine (hs o).congr fun v => ?_
    rw [operator_apply hgov, hnone]
    rfl
  | reassigns who target reassigns =>
    rw [reassigns.lists]
    refine (lists_mark (hs o) who _).congr fun v => ?_
    rw [operator_apply hgov, reassigns.authorization, decide_eq_true_iff]
    by_cases hv : v = who
    · rw [if_pos hv, Updates.get?, Updates.get?, Option.none_or, if_pos hv.symm, Option.getD_some]
    · rw [if_neg hv, Updates.get?, Updates.get?, Option.none_or, if_neg (Ne.symm hv), Option.getD_none]

section Runs

variable [Crypto] [Wire ActionPayload] [Zk] [StateTrie] [Decode]

/-- **One applied action keeps the lists.** -/
theorem Applied.Valid.operatorsListed {e : Applied} {u : BlockUpdates} (h : e.Valid u)
    (hs : e.before.OperatorsListed) : e.after.OperatorsListed := by
  obtain ⟨inner, hinner, accounts, rfl⟩ := Runtime.run_dispatchWith h.ran
  have hgov : GovernanceRows inner.governance := (Runtime.yields_governanceRows.ensures _ inner hinner).1
  have heffect : Runtime.OperatorEffect e.before { inner with accounts := accounts } := by
    cases Runtime.operatorEffect_dispatchInner hs hinner with
    | untouched hnone => exact .untouched hnone
    | reassigns who target reassigns => exact .reassigns who target ⟨reassigns.1, reassigns.2⟩
  rw [h.written]
  exact heffect.listed hgov hs

/-- Neither the seed nor the seal of a block touches an operator. -/
theorem Commits.sameOperators {env : NodeEnv} {params : ChainParams} {db db' : Db} {block : ChainBlock}
    {ex : Executed} (h : Commits env params db block ex db') :
    SameOperators db.state.rows (seededRows db ex.seed) ∧
      SameOperators ex.outcome.rows db'.state.rows := by
  have hex := h.shaped
  constructor
  all_goals
    intro k hk
    obtain ⟨v, rfl⟩ | ⟨o, rfl⟩ : (∃ v, k = .operator v) ∨ ∃ o, k = .operatorIndex o := by
      cases k <;> simp [Key.isOperatorRow] at hk ⊢
  · rw [seededRows_eq hex (c := .authorization) rfl, hex.seed]
    rfl
  · rw [seededRows_eq hex (c := .operatorIndex) rfl, hex.seed]
    rfl
  · rw [h.row_eq_sealed rfl (c := .authorization) rfl (by decide), Category.writes, hex.sealed.operator]
    rfl
  · rw [h.row_eq_sealed rfl (c := .operatorIndex) rfl (by decide), Category.writes, hex.sealed.operator]
    rfl

/-- **The operator lists.**  After every sequence of blocks, with any authorizations and revocations in
them, every operator is listed for exactly those validators whose operator it is, once each. -/
theorem operators_listed {c₀ c : ChainState} {blocks : List (ChainBlock × Executed)}
    (h₀ : c₀.rows.NoOperators) (h : Chain c₀ blocks c) (o : Address) :
    (c.rows.managed o).Nodup ∧ ∀ v, v ∈ c.rows.managed o ↔ c.rows.operator v = some o := by
  obtain ⟨acts, hrun, -⟩ := h.appliedRun fun hcommit => hcommit.sameOperators
  have hlisted : c.rows.OperatorsListed := hrun.induct h₀.listed
    (fun e u _ valid => valid.operatorsListed) fun s s' keeps => keeps.listed
  exact ⟨(hlisted o).nodup, (hlisted o).mem_iff⟩

end Runs

/-! ## A block with a change of operators -/

namespace PlainChain

attribute [local instance] crypto wire Plain.zk Plain.trie Plain.decoders

/-- Two accounts. -/
def operatorsGenesis : Db := PlainChain.db [put (.account (address 1)) { balance := 10, nonce := 0 },
  put (.account (address 3)) { balance := 10, nonce := 0 }]

/-- Both authorize the same operator, and then the first one another. -/
def operatorsChanged : ChainBlock := block 1 [action 1 0 (.authorizeOperator (address 2)),
  action 3 0 (.authorizeOperator (address 2)), action 1 1 (.authorizeOperator (address 4))]

set_option maxRecDepth 20000 in
theorem operatorsChanged_accepted : ∃ db, onBlock env operatorsChanged operatorsGenesis = .ok db ∧
    (db.state.rows.operator (address 1) == some (address 4)) = true := by
  have hchanged : (onBlock env operatorsChanged operatorsGenesis).toOption.any
      (fun db => db.state.rows.operator (address 1) == some (address 4)) = true := by decide +kernel
  exact exists_ok_of_any hchanged

theorem noOperators_operatorsGenesis : operatorsGenesis.state.rows.NoOperators := by
  intro k hk
  cases k <;> simp [Key.isOperatorRow] at hk <;> rfl

/-- The first account has left its first operator's list. -/
theorem operators_listed_changed : ∃ db, onBlock env operatorsChanged operatorsGenesis = .ok db ∧
    address 1 ∈ db.state.rows.managed (address 4) ∧ address 1 ∉ db.state.rows.managed (address 2) := by
  obtain ⟨db, haccept, hoperator⟩ := operatorsChanged_accepted
  obtain ⟨hist, hchain⟩ := ((isGenesis_db _).onChain.step (.accept haccept)).holds.chain
  have hlisted := fun o => (operators_listed noOperators_operatorsGenesis hchain o).2 (address 1)
  rw [beq_iff_eq] at hoperator
  exact ⟨db, haccept, (hlisted _).mpr hoperator, fun hmem =>
    absurd (hoperator.symm.trans ((hlisted _).mp hmem)) (by decide)⟩

end PlainChain

end Arxium
