import Arxium.Node.Applied

/-!
# Node/Stages — a chain, one part of a block at a time

A block is its matured unbondings, its actions, and its seal.  Each reads rows and returns updates, so a
chain is a sequence of such turns (`Turns`, `Chain.turns`) and an invariant of it is one step lemma for
each of the three.

A turn is exact on the *plain* rows, those a single category writes and the seal can see: between the
stages of a block rows of several categories are folded in an order of their own.
-/

namespace Arxium

open ReadProg Writes

/-! ## Plain rows -/

/-- State rows of one category, which the seal sees too. -/
def Key.isPlain (k : Key) : Bool := k.isStateKey && viewOrder.any fun c => k.writers = [c]

theorem Key.isPlain.writers {k : Key} (h : k.isPlain = true) :
    k.isStateKey = true ∧ ∃ c ∈ viewOrder, k.writers = [c] := by
  simpa [isPlain] using h

theorem mem_seenOrder_of_mem_viewOrder {c : Category} (h : c ∈ viewOrder) : c ∈ seenOrder := by
  revert h
  cases c <;> decide

theorem filter_seenOrder {c : Category} (h : c ∈ viewOrder) :
    seenOrder.filter (· ∈ [c]) = [c] := by
  revert h
  cases c <;> decide

theorem filter_viewOrder {c : Category} (h : c ∈ viewOrder) :
    viewOrder.filter (fun d => decide (d = c)) = [c] := by
  revert h
  cases c <;> decide

/-- The same plain rows. -/
def SamePlain (s s' : Rows) : Prop := ∀ k : Key, k.isPlain = true → s' k = s k

/-! ## Turns -/

/-- A part of a block. -/
inductive Stage
  | matured (height : Nat)
  | acted (ctx : DispatchCtx) (action : ChainAction)
  | closed (written : List Address) (proposer : Address) (fees : Nat) (validators : List Address)
      (height : Nat)

/-- The height of the block. -/
def Stage.height : Stage → Nat
  | matured height => height
  | acted ctx _ => ctx.height
  | closed _ _ _ _ height => height

/-- The action, where there is one. -/
def Stage.action : Stage → Option ChainAction
  | acted _ action => some action
  | _ => none

/-- A part of a block that was run: the rows before and after. -/
structure Turn where
  stage : Stage
  before : Rows
  after : Rows

section Run

variable [Crypto] [Wire ActionPayload] [Zk] [StateTrie] [Decode]

/-- **What a part of a block returns on the rows it reads.**  An action runs only if its signature
verifies against the rows it meets; the seal reads through the categories of the block. -/
def Stage.Returns (stage : Stage) (rows : Rows) (u : BlockUpdates) : Prop :=
  match stage with
  | .matured height => (resolveMaturedUnbonding height : Read ExecutorError _).run rows.view = .ok u
  | .acted ctx action =>
    (action.verifyAccountSignature (rows.programmable action.sender) ctx.genesis).isOk = true ∧
      (Runtime.dispatch ctx action).run rows.view = .ok u
  | .closed written proposer fees validators height => ∃ seen, SamePlain rows seen ∧
      (Runtime.sealBlock written proposer fees validators height).run (Rows.view seen) = .ok u

/-- The stage ran on the rows before it, and what it returned was written. -/
structure Turn.Valid (t : Turn) (u : BlockUpdates) : Prop where
  returned : t.stage.Returns t.before u
  governance : GovernanceRows u.governance
  written : SamePlain (Writes.apply u.viewWrites t.before) t.after

/-- **A sequence of turns.** -/
inductive Turns (s₀ : Rows) : List Turn → Rows → Prop
  | nil : Turns s₀ [] s₀
  | snoc {hist : List Turn} {t : Turn} {u : BlockUpdates} (h : Turns s₀ hist t.before)
      (valid : t.Valid u) : Turns s₀ (hist ++ [t]) t.after

/-- **The invariant rule**: what every turn keeps holds throughout. -/
theorem Turns.induct {I : Rows → Prop} {s₀ s : Rows} {hist : List Turn} (h : Turns s₀ hist s)
    (hs : I s₀) (hturn : ∀ t u, t ∈ hist → Turn.Valid t u → I t.before → I t.after) : I s := by
  induction h with
  | nil => exact hs
  | snoc h valid ih =>
    exact hturn _ _ (by simp) valid (ih fun t u ht => hturn t u (List.mem_append_left _ ht))

/-- …and before every turn of it. -/
theorem Turns.induct_mem {I : Rows → Prop} {s₀ s : Rows} {hist : List Turn} (h : Turns s₀ hist s)
    (hs : I s₀) (hturn : ∀ t u, t ∈ hist → Turn.Valid t u → I t.before → I t.after) :
    ∀ t ∈ hist, (∃ u, t.Valid u) ∧ I t.before := by
  induction h with
  | nil => exact fun t ht => by cases ht
  | snoc h valid ih =>
    have hturn' := fun t u ht => hturn t u (List.mem_append_left _ ht)
    rw [List.forall_mem_append, List.forall_mem_singleton]
    exact ⟨ih hturn', ⟨_, valid⟩, h.induct hs hturn'⟩

/-- One more action that goes through. -/
theorem Turns.act {s₀ s : Rows} {hist : List Turn} (h : Turns s₀ hist s) {ctx : DispatchCtx}
    {action : ChainAction}
    (hverified : (action.verifyAccountSignature (s.programmable action.sender) ctx.genesis).isOk = true)
    (hok : ((Runtime.dispatch ctx action).run s.view).isOk = true) :
    Turns s₀ (hist ++ [⟨.acted ctx action, s, s.after ctx action⟩]) (s.after ctx action) := by
  obtain ⟨u, hu, hwritten⟩ := Rows.valid_after hok
  obtain ⟨inner, hinner, accounts, rfl⟩ := Runtime.run_dispatchWith hu
  have hgov : GovernanceRows inner.governance :=
    (Runtime.yields_governanceRows.ensures _ inner hinner).1
  exact .snoc (t := ⟨.acted ctx action, s, s.after ctx action⟩) h
    ⟨⟨hverified, hu⟩, hgov, fun k _ => congrFun hwritten k⟩

/-! ## The turns of a chain -/

variable {s₀ : Rows} {hist : List Turn} {env : NodeEnv} {params : ChainParams} {db db' : Db}
  {block : ChainBlock} {ex : Executed}

omit [Crypto] [Wire ActionPayload] [Zk] [StateTrie] [Decode] in
/-- The first action reads the plain rows as the seed's updates leave them. -/
theorem samePlain_seededRows (hex : ex.Shaped) :
    SamePlain (Writes.apply ex.seed.viewWrites db.state.rows) (seededRows db ex.seed) := by
  intro k hk
  obtain ⟨-, c, hc, hw⟩ := Key.isPlain.writers hk
  have hgov : GovernanceRows ex.seed.governance := hex.governance _ (by simp [Executed.updates])
  rw [seededRows_eq hex hw, apply_apply,
    lookup_viewWrites hgov (by rw [hw]; exact filter_seenOrder hc)]

omit [Zk] [StateTrie] [Decode] in
/-- The seal sees the plain rows as the last action left them. -/
theorem samePlain_sealView (hex : ex.Shaped) {env : ExecEnv} {actions : List ChainAction}
    (hlands : LandsAll env { rows := seededRows db ex.seed } actions ex.outcome) :
    SamePlain ex.outcome.rows (Writes.apply ex.unsealed.viewWrites db.state.rows) := by
  intro k hk
  obtain ⟨-, c, hc, hw⟩ := Key.isPlain.writers hk
  obtain ⟨us, hus, hrows⟩ := hlands.row_eq (by rw [hw]; exact filter_seenOrder hc) fun u hu =>
    hex.governance u (by simp [Executed.updates, hu])
  rw [List.nil_append] at hus
  have hset : ∀ u ∈ ex.seed :: ex.outcome.updates, u.validatorSet = none :=
    List.forall_mem_cons.mpr ⟨by rw [hex.seed], hex.validatorSet⟩
  have hother : ∀ d ∈ viewOrder, decide (d = c) = false →
      lookup (ex.unsealed.part 0 d) k = none := by
    intro d _ hd
    rw [Executed.unsealed, Categories.part_ofUpdates 0 _ hset]
    refine lookup_flatMap_eq_none fun u hu => lookup_category_eq_none hex.governance ?_ fun hmem => ?_
    · simp only [Executed.updates, List.cons_append, List.mem_cons, List.mem_append] at hu ⊢
      tauto
    · rw [hw] at hmem
      exact of_decide_eq_false hd (List.mem_singleton.mp hmem)
  rw [apply_apply, Categories.viewWrites_eq 0, lookup_flatMap_filter hother, filter_viewOrder hc,
    List.flatMap_singleton, Executed.unsealed, Categories.part_ofUpdates 0 _ hset, hus,
    List.flatMap_cons, lookup_append, hrows]
  change _ = Option.getD _ (seededRows db ex.seed k)
  rw [seededRows_eq hex hw]
  cases lookup (us.flatMap (c.writes 0)) k <;> rfl

/-- The actions of a block, one turn each. -/
theorem LandsAll.turns {genesis : Bytes} {validators : List Address} {height timestamp : Nat}
    {s s' : ExecutionOutcome} {actions : List ChainAction}
    (h : LandsAll (execEnv db genesis params validators height timestamp) s actions s')
    (hrun : Turns s₀ hist s.rows) :
    ∃ more, Turns s₀ (hist ++ more) s'.rows ∧ more.filterMap (·.stage.action) = actions ∧
      ∀ t ∈ more, t.stage.height = height := by
  induction h generalizing hist with
  | nil s => exact ⟨[], by simpa using hrun, rfl, by simp⟩
  | @cons s s₁ s₂ action rest head tail ih =>
    obtain ⟨hverified, -, u, hu, rfl⟩ := head
    obtain ⟨inner, hinner, accounts, rfl⟩ := Runtime.run_dispatchWith hu
    have hgov : GovernanceRows inner.governance :=
      (Runtime.yields_governanceRows.ensures _ inner hinner).1
    let t : Turn := ⟨.acted ⟨validators, height, timestamp, genesis⟩ action, s.rows,
      Writes.apply { inner with accounts := accounts : BlockUpdates }.viewWrites s.rows⟩
    have hturn : Turns s₀ (hist ++ [t]) t.after :=
      .snoc (t := t) hrun ⟨⟨hverified, hu⟩, hgov, fun _ _ => rfl⟩
    obtain ⟨more, hmore, hactions, hheights⟩ := ih hturn
    rw [List.append_assoc, List.singleton_append] at hmore
    refine ⟨t :: more, hmore, ?_, List.forall_mem_cons.mpr ⟨rfl, hheights⟩⟩
    rw [List.filterMap_cons, hactions]
    rfl

/-- The matured unbondings of a block are a turn, -/
theorem Commits.valid_seed (h : Commits env params db block ex db') :
    Turn.Valid ⟨.matured block.height, db.state.rows, seededRows db ex.seed⟩ ex.seed := by
  have hex := h.shaped
  obtain ⟨genesis, proposer, hran⟩ := h.ran
  exact ⟨hran.seed, hex.governance _ (by simp [Executed.updates]), samePlain_seededRows hex⟩

/-- and so is its seal. -/
theorem Commits.valid_sealed (h : Commits env params db block ex db') :
    ∃ written proposer fees validators, Turn.Valid
      ⟨.closed written proposer fees validators block.height, ex.outcome.rows, db'.state.rows⟩
      ex.sealed := by
  have hex := h.shaped
  obtain ⟨genesis, proposer, hran⟩ := h.ran
  have hgov : GovernanceRows ex.sealed.governance := hex.governance _ (by simp [Executed.updates])
  refine ⟨ex.unsealed.writtenStatuses, proposer, ex.outcome.feesCollected,
    (db.getValidatorSetAt block.height).keys, ⟨_, samePlain_sealView hex hran.lands, ?_⟩, hgov, ?_⟩
  · rw [← overlay_view]
    exact hran.sealed
  · intro k hk
    obtain ⟨hstate, c, hc, hw⟩ := Key.isPlain.writers hk
    change db'.state.rows k = _
    rw [h.row_eq_sealed hstate hw (mem_seenOrder_of_mem_viewOrder hc), apply_apply,
      lookup_viewWrites hgov (by rw [hw]; exact filter_seenOrder hc)]

/-- The turns of a block before its seal: the matured unbondings and the actions. -/
theorem Commits.turns_unsealed (h : Commits env params db block ex db')
    (hrun : Turns s₀ hist db.state.rows) :
    ∃ more, Turns s₀ (hist ++ more) ex.outcome.rows ∧
      more.filterMap (·.stage.action) = block.actions ∧ ∀ t ∈ more, t.stage.height = block.height := by
  obtain ⟨genesis, proposer, hran⟩ := h.ran
  let seed : Turn := ⟨.matured block.height, db.state.rows, seededRows db ex.seed⟩
  have hseed : Turns s₀ (hist ++ [seed]) seed.after := .snoc (t := seed) hrun h.valid_seed
  obtain ⟨acts, hacts, hactions, hheights⟩ := hran.lands.turns hseed
  refine ⟨seed :: acts, by simpa only [List.append_assoc, List.singleton_append] using hacts, ?_,
    List.forall_mem_cons.mpr ⟨rfl, hheights⟩⟩
  rw [List.filterMap_cons, hactions]
  rfl

/-- **A committed block is its turns**: the matured unbondings, the actions, the seal. -/
theorem Commits.turns (h : Commits env params db block ex db') (hrun : Turns s₀ hist db.state.rows) :
    ∃ more, Turns s₀ (hist ++ more) db'.state.rows ∧
      more.filterMap (·.stage.action) = block.actions ∧ ∀ t ∈ more, t.stage.height = block.height := by
  obtain ⟨acts, hacts, hactions, hheights⟩ := h.turns_unsealed hrun
  obtain ⟨written, proposer, fees, validators, hsealed⟩ := h.valid_sealed
  let last : Turn :=
    ⟨.closed written proposer fees validators block.height, ex.outcome.rows, db'.state.rows⟩
  refine ⟨acts ++ [last], ?_, ?_, List.forall_mem_append.mpr ⟨hheights, List.forall_mem_singleton.mpr rfl⟩⟩
  · rw [← List.append_assoc]
    exact .snoc (t := last) hacts hsealed
  · rw [List.filterMap_append, hactions]
    simp [last, Stage.action]

/-- **A chain is a sequence of turns.** -/
theorem Chain.turns {c₀ c : ChainState} {blocks : List (ChainBlock × Executed)}
    (h : Chain c₀ blocks c) : ∃ hist, Turns c₀.rows hist c.rows ∧
      hist.filterMap (·.stage.action) = blocks.flatMap (·.1.actions) := by
  induction h with
  | nil => exact ⟨[], .nil, rfl⟩
  | snoc hchain hcommit ih =>
    obtain ⟨hist, hrun, hacts⟩ := ih
    obtain ⟨more, hmore, hactions, -⟩ := hcommit.turns hrun
    refine ⟨hist ++ more, hmore, ?_⟩
    rw [List.filterMap_append, hacts, hactions, List.flatMap_append, List.flatMap_singleton]

end Run

end Arxium
