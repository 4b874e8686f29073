import Arxium.Node.Run
import Arxium.Executor.Order

/-!
# Node/Committed — what a committed block does to a row

A committed state row holds the last write of its categories.  Each update of a block was returned by
one of its actions, run on the rows as the actions before it left them (`Landed`); rows that only
evidence writes are not shown to later actions, so every action of a block reads them as the block
found them.
-/

namespace Arxium

open ReadProg Writes

/-! ## The rows an action reads -/

/-- The categories the next action sees. -/
def seenOrder : List Category :=
  [.accounts, .statuses, .allocations, .validatorIndex, .blsKeys, .authorization, .operatorIndex,
    .assets, .holderStates, .assetRegistrations, .attestorRegistrations, .attestorDeregistrations,
    .governance]

theorem BlockUpdates.viewWrites_eq (u : BlockUpdates) :
    u.viewWrites = seenOrder.flatMap (Category.writes 0 u) := by
  simp [viewWrites, seenOrder, Category.writes, StakeUpdates.writes, OperatorUpdates.writes]

/-- Rows that only evidence markers write. -/
def Key.isHidden (k : Key) : Bool := k.writers = [.evidence]

/-- …and with them the index rows, which no update writes. -/
def Key.isUnseen (k : Key) : Bool := k.writers.all (· = .evidence)

theorem Key.isUnseen_of_isHidden {k : Key} (hk : k.isHidden = true) : k.isUnseen = true := by
  rw [isUnseen, of_decide_eq_true hk]
  rfl

theorem Key.eq_evidence_of_isUnseen {k : Key} (hk : k.isUnseen = true) {c : Category}
    (hc : c ∈ k.writers) : c = .evidence := of_decide_eq_true (List.all_eq_true.mp hk c hc)

theorem BlockUpdates.lookup_viewWrites_unseen {u : BlockUpdates} (hu : GovernanceRows u.governance)
    {k : Key} (hk : k.isUnseen = true) : lookup u.viewWrites k = none := by
  rw [u.viewWrites_eq]
  refine lookup_flatMap_eq_none fun c hc => ?_
  refine lookup_eq_none fun w hw he => ?_
  have hmem := Category.mem_writers hu hw
  rw [he] at hmem
  obtain rfl := Key.eq_evidence_of_isUnseen hk hmem
  simp [seenOrder] at hc

/-- What an action writes to a row of one category. -/
theorem lookup_viewWrites {u : BlockUpdates} (hgov : GovernanceRows u.governance) {k : Key}
    {c : Category} (hc : seenOrder.filter (· ∈ k.writers) = [c]) :
    lookup u.viewWrites k = lookup (c.writes 0 u) k := by
  have hother : ∀ d ∈ seenOrder, decide (d ∈ k.writers) = false →
      lookup (Category.writes 0 u d) k = none := by
    intro d _ hd
    refine lookup_eq_none fun w hw he => of_decide_eq_false hd ?_
    rw [← he]
    exact Category.mem_writers hgov hw
  rw [u.viewWrites_eq, lookup_flatMap_filter hother, hc, List.flatMap_singleton]

section Landing

variable [Crypto] [Wire ActionPayload]

/-- **Every update of a run was returned by an action on the rows the earlier updates left.** -/
theorem LandsAll.landed {env : ExecEnv} {s s' : ExecutionOutcome} {actions : List ChainAction}
    (h : LandsAll env s actions s') : ∃ us, s'.updates = s.updates ++ us ∧
      ∀ earlier u later, us = earlier ++ u :: later → ∃ action ∈ actions, (env.dispatch action).run
        (Rows.view (Writes.apply (earlier.flatMap BlockUpdates.viewWrites) s.rows)) = .ok u := by
  induction h with
  | nil s => exact ⟨[], by simp, fun earlier u later he => by simp at he⟩
  | @cons s s₁ s₂ action rest head tail ih =>
    obtain ⟨-, -, u₀, hu₀, rfl⟩ := head
    obtain ⟨us, hus, hall⟩ := ih
    refine ⟨u₀ :: us, by simp [hus, ExecutionOutcome.land], fun earlier u later he => ?_⟩
    cases earlier with
    | nil =>
      obtain ⟨rfl, -⟩ := List.cons.inj he
      exact ⟨action, List.mem_cons_self, hu₀⟩
    | cons v earlier =>
      obtain ⟨rfl, hrest⟩ := List.cons.inj he
      obtain ⟨a, ha, hrun⟩ := hall earlier u later hrest
      refine ⟨a, List.mem_cons_of_mem _ ha, ?_⟩
      rw [List.flatMap_cons, Writes.apply_append]
      exact hrun

/-- …and every action of a run returned one of its updates. -/
theorem LandsAll.landed_of_mem {env : ExecEnv} {s s' : ExecutionOutcome} {actions : List ChainAction}
    (h : LandsAll env s actions s') {action : ChainAction} (ha : action ∈ actions) :
    ∃ earlier u later, s'.updates = s.updates ++ (earlier ++ u :: later) ∧ (env.dispatch action).run
        (Rows.view (Writes.apply (earlier.flatMap BlockUpdates.viewWrites) s.rows)) = .ok u := by
  induction h with
  | nil s => cases ha
  | @cons s s₁ s₂ first rest head tail ih =>
    obtain ⟨-, -, u₀, hu₀, rfl⟩ := head
    rcases List.mem_cons.mp ha with rfl | ha
    · obtain ⟨us, hus, -⟩ := tail.landed
      exact ⟨[], u₀, us, by simp [hus, ExecutionOutcome.land], hu₀⟩
    · obtain ⟨earlier, u, later, hupdates, hrun⟩ := ih ha
      refine ⟨u₀ :: earlier, u, later, by simp [hupdates, ExecutionOutcome.land], ?_⟩
      rw [List.flatMap_cons, Writes.apply_append]
      exact hrun

variable [Zk] [StateTrie] [Decode]

/-- An action of a block was run on these rows and returned this update. -/
structure Landed (db : Db) (block : ChainBlock) (ex : Executed) (action : ChainAction) (rows : Rows)
    (u : BlockUpdates) : Prop where
  mem : action ∈ block.actions
  reads : ∃ earlier later, ex.outcome.updates = earlier ++ u :: later ∧
    rows = Writes.apply (earlier.flatMap BlockUpdates.viewWrites) (seededRows db ex.seed)
  dispatched : ∃ validators genesis, (Runtime.dispatch
    ⟨validators, block.height, block.timestamp, genesis⟩ action).run rows.view = .ok u

variable {env : NodeEnv} {params : ChainParams} {db db' : Db} {block : ChainBlock} {ex : Executed}
  {action : ChainAction} {rows : Rows} {u : BlockUpdates}

theorem Commits.shaped (h : Commits env params db block ex db') : ex.Shaped := by
  obtain ⟨_, _, hran⟩ := h.ran
  exact hran.shaped

theorem Commits.landed (h : Commits env params db block ex db') (hu : u ∈ ex.outcome.updates) :
    ∃ action rows, Landed db block ex action rows u := by
  obtain ⟨genesis, _, hran⟩ := h.ran
  obtain ⟨us, hus, hall⟩ := hran.lands.landed
  rw [List.nil_append] at hus
  obtain ⟨earlier, later, he⟩ := List.append_of_mem hu
  obtain ⟨action, ha, hrun⟩ := hall earlier u later (hus.symm.trans he)
  exact ⟨action, _, ha, ⟨earlier, later, he, rfl⟩, _, genesis, hrun⟩

/-- **Every action of a committed block landed.** -/
theorem Commits.landed_of_mem (h : Commits env params db block ex db') (ha : action ∈ block.actions) :
    ∃ rows u, Landed db block ex action rows u := by
  obtain ⟨genesis, _, hran⟩ := h.ran
  obtain ⟨earlier, u, later, hupdates, hrun⟩ := hran.lands.landed_of_mem ha
  exact ⟨_, u, ha, ⟨earlier, later, hupdates, rfl⟩, _, genesis, hrun⟩

/-- **A committed state row holds the last write of its categories.** -/
theorem Commits.row_eq (h : Commits env params db block ex db') {k : Key}
    (hk : k.isStateKey = true) : db'.state.rows k =
      (lookup (byCategory block.height k.writers ex.updates) k).getD (db.state.rows k) := by
  have hindex : ∀ w ∈ assetIndexWrites env.scan db.state.rows ex.categories.assetRegistrations
      ex.categories.assets, w.key.isStateKey = false :=
    fun w hw => isStateKey_of_mem_assetIndexWrites _ _ hw
  rw [h.written, Db.state_writeBlock, ChainState.rows_write, apply_apply, acceptedBatch,
    h.shaped.lookup_commitWrites block.height hindex hk]

omit [Crypto] [Wire ActionPayload] [Zk] [StateTrie] [Decode] in
/-- The first action reads a row of one category as the seed left it. -/
theorem seededRows_eq (hex : ex.Shaped) {k : Key} {c : Category} (hk : k.writers = [c]) :
    seededRows db ex.seed k = (lookup (c.writes 0 ex.seed) k).getD (db.state.rows k) := by
  have hgov : GovernanceRows ex.seed.governance := hex.governance _ (by simp [Executed.updates])
  have hset : ∀ u ∈ [ex.seed], u.validatorSet = none :=
    List.forall_mem_singleton.mpr (by rw [hex.seed])
  have hother : ∀ d ∈ viewOrder, decide (d = c) = false →
      lookup ((Categories.ofUpdates [ex.seed]).part 0 d) k = none := by
    intro d _ hd
    rw [Categories.part_ofUpdates 0 _ hset, List.flatMap_singleton]
    refine lookup_eq_none fun w hw he => of_decide_eq_false hd (List.mem_singleton.mp ?_)
    rw [← hk, ← he]
    exact Category.mem_writers hgov hw
  rw [seededRows, apply_apply, Categories.viewWrites_eq 0, lookup_flatMap_filter hother]
  congr 1
  by_cases hc : c ∈ viewOrder
  · have hfilter : viewOrder.filter (fun d => decide (d = c)) = [c] := by
      revert hc
      cases c <;> decide
    rw [hfilter, List.flatMap_singleton, Categories.part_ofUpdates 0 _ hset, List.flatMap_singleton]
  · -- The seed writes nothing in a category the view does not show.
    have hfilter : viewOrder.filter (fun d => decide (d = c)) = [] := by
      revert hc
      cases c <;> decide
    have hnone : c.writes 0 ex.seed = [] := by
      rw [hex.seed]
      revert hc
      cases c <;> first | exact fun _ => rfl | exact fun hc => absurd (by decide) hc
    rw [hfilter, hnone]
    rfl

omit [Zk] [StateTrie] [Decode] in
/-- Later actions read it as the actions before them left it. -/
theorem LandsAll.row_eq {env : ExecEnv} {s s' : ExecutionOutcome} {actions : List ChainAction}
    (h : LandsAll env s actions s') {k : Key} {c : Category} (hc : seenOrder.filter (· ∈ k.writers) = [c])
    (hgov : ∀ u ∈ s'.updates, GovernanceRows u.governance) : ∃ us, s'.updates = s.updates ++ us ∧
      s'.rows k = (lookup (us.flatMap (c.writes 0)) k).getD (s.rows k) := by
  obtain ⟨us, hus, hrows⟩ := h.rows_eq
  refine ⟨us, hus, ?_⟩
  rw [hrows, apply_apply]
  congr 1
  refine lookup_flatMap_congr fun u hu => lookup_viewWrites (hgov u ?_) hc
  rw [hus]
  exact List.mem_append_right _ hu

/-- **A row of one category is committed as the actions left it and the seal then wrote it.** -/
theorem Commits.row_eq_sealed (h : Commits env params db block ex db') {k : Key}
    (hk : k.isStateKey = true) {c : Category} (hw : k.writers = [c]) (hc : c ∈ seenOrder) :
    db'.state.rows k = (lookup (c.writes 0 ex.sealed) k).getD (ex.outcome.rows k) := by
  have hex := h.shaped
  obtain ⟨_, _, hran⟩ := h.ran
  have hne : c ≠ .snapshot := by
    rintro rfl
    revert hc
    decide
  have hheight : ∀ u : BlockUpdates, c.writes block.height u = c.writes 0 u := by
    intro u
    revert hne
    cases c <;> first | exact fun _ => rfl | exact fun hne => absurd rfl hne
  have hfilter : seenOrder.filter (· ∈ k.writers) = [c] := by
    rw [hw]
    revert hc
    cases c <;> decide
  obtain ⟨us, hus, hrows⟩ := hran.lands.row_eq hfilter fun u hu =>
    hex.governance u (by simp [Executed.updates, hu])
  rw [List.nil_append] at hus
  change _ = Option.getD _ (seededRows db ex.seed k) at hrows
  rw [h.row_eq hk, hw, hrows, seededRows_eq hex hw, byCategory, List.flatMap_singleton, Executed.updates,
    hus, List.cons_append, List.flatMap_cons, List.flatMap_append, List.flatMap_singleton,
    lookup_append, lookup_append]
  simp only [hheight]
  cases lookup (c.writes 0 ex.sealed) k with
  | some x => rfl
  | none => cases lookup (us.flatMap fun u => c.writes 0 u) k <;> rfl

/-- An action reads a row no action can change as the block found it. -/
theorem Landed.unseen_eq (hl : Landed db block ex action rows u) (hex : ex.Shaped) {k : Key}
    (hk : k.isUnseen = true) : rows k = db.state.rows k := by
  obtain ⟨earlier, later, he, rfl⟩ := hl.reads
  have hearlier : lookup (earlier.flatMap BlockUpdates.viewWrites) k = none := by
    refine lookup_flatMap_eq_none fun v hv => BlockUpdates.lookup_viewWrites_unseen ?_ hk
    exact hex.governance v (by simp [Executed.updates, he, hv])
  have hseed : lookup (Categories.ofUpdates [ex.seed]).viewWrites k = none := by
    have hset : ∀ v ∈ [ex.seed], v.validatorSet = none :=
      List.forall_mem_singleton.mpr (by rw [hex.seed])
    rw [Categories.viewWrites_eq 0]
    refine lookup_flatMap_eq_none fun c hc => ?_
    rw [Categories.part_ofUpdates 0 _ hset, List.flatMap_singleton]
    refine lookup_category_eq_none hex.governance (by simp [Executed.updates]) fun hmem => ?_
    obtain rfl := Key.eq_evidence_of_isUnseen hk hmem
    simp [viewOrder] at hc
  rw [apply_apply, hearlier, Option.getD_none, seededRows, apply_apply, hseed, Option.getD_none]

theorem Landed.hidden_eq (hl : Landed db block ex action rows u) (hex : ex.Shaped) {k : Key}
    (hk : k.isHidden = true) : rows k = db.state.rows k := hl.unseen_eq hex (Key.isUnseen_of_isHidden hk)

/-- **Inside a block**: what the seed leaves and every action keeps holds where an action runs. -/
theorem Landed.induct {I : Rows → Prop} (hl : Landed db block ex action rows u)
    (h : Commits env params db block ex db') (hs : I (seededRows db ex.seed))
    (hact : ∀ ctx action s u, (Runtime.dispatch ctx action).run s.view = .ok u → I s →
      I (Writes.apply u.viewWrites s)) : I rows := by
  obtain ⟨genesis, proposer, hran⟩ := h.ran
  obtain ⟨us, hus, hall⟩ := hran.lands.landed
  rw [List.nil_append] at hus
  obtain ⟨earlier, later, he, rfl⟩ := hl.reads
  rw [hus] at he
  clear hl
  -- the updates before the action, taken away one by one from the last
  induction earlier using List.reverseRecOn generalizing u later with
  | nil => exact hs
  | append_singleton earlier v ih =>
    rw [List.append_assoc, List.singleton_append] at he
    obtain ⟨action, -, hrun⟩ := hall earlier v (u :: later) he
    rw [List.flatMap_append, List.flatMap_singleton, Writes.apply_append]
    exact hact _ action _ v hrun (ih _ he)

/-- **A reserved row is written by the proposal that is about it**, in the raw rows of an action. -/
theorem Commits.governed (h : Commits env params db block ex db') (hu : u ∈ ex.updates)
    {w : RowWrite} (hw : w ∈ u.governance) (hres : w.key.isReserved = true) :
    ∃ action rows u, ∃ id, ∃ proposal : Proposal, Landed db block ex action rows u ∧
      action.payload = .executeProposal id ∧ rows (.proposal id) = some proposal ∧
      proposal.action.Writes w := by
  obtain ⟨genesis, proposer, hran⟩ := h.ran
  have hordinary : ∀ ws, OrdinaryRows ws → w ∉ ws := by
    intro ws hws hmem
    rw [(hws w hmem).2] at hres
    cases hres
  simp only [Executed.updates, List.cons_append, List.mem_cons, List.mem_append,
    List.not_mem_nil, or_false] at hu
  rcases hu with rfl | hu | rfl
  · exact absurd hw (hordinary _ ((yields_resolveMaturedUnbonding _).ensures _ _ hran.seed).2)
  · obtain ⟨action, rows, hl⟩ := h.landed hu
    obtain ⟨validators, genesis, hrun⟩ := hl.dispatched
    obtain ⟨inner, hinner, accounts, rfl⟩ := Runtime.run_dispatchWith hrun
    obtain ⟨id, proposal, hp, hrow, hwrites⟩ := Runtime.ensures_governed inner hinner w hw hres
    exact ⟨action, rows, _, id, proposal, hl, hp, Except.ok.inj hrow, hwrites⟩
  · exact absurd hw (hordinary _ h.shaped.sealed.ordinaryRows)

end Landing

end Arxium
