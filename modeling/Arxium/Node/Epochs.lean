import Arxium.Node.Committed
import Arxium.Node.Rounds
import Arxium.Runtime.Sender

/-!
# Node/Epochs — the length of an epoch never changes, and every epoch has its set

Validator sets are rows of the heights they take effect at.  Governance cannot change the length of an
epoch, and the seal of the last block of an epoch always writes the set of the next one; so on a chain the
set rows are exactly those of the first heights of epochs (`Chain.setsAtEpochs`), and the set in force at a
height is in the row of its epoch (`getValidatorSetAt_eq`).
-/

namespace Arxium

open ReadProg Writes

/-! ## Governance keeps the length of an epoch -/

/-- Parameters among the rows have this epoch length. -/
def EpochLengthIs (length : Nat) (ws : GovernanceUpdates) : Prop :=
  ∀ w ∈ ws, w.key = .chainParams → ∃ params, w = put .chainParams params ∧ params.epochLength = length

theorem OrdinaryRows.epochLengthIs {length : Nat} {ws : GovernanceUpdates} (h : OrdinaryRows ws) :
    EpochLengthIs length ws := fun w hw hk => by
  have hres := (h w hw).2
  rw [hk] at hres
  cases hres

theorem EpochLengthIs.append {length : Nat} {ws us : GovernanceUpdates} (h : EpochLengthIs length ws)
    (h' : EpochLengthIs length us) : EpochLengthIs length (ws ++ us) :=
  List.forall_mem_append.mpr ⟨h, h'⟩

/-- Only the action that sets the parameters writes them. -/
theorem GovernanceAction.Writes.eq_setChainParams {action : GovernanceAction} {w : RowWrite}
    (h : action.Writes w) (hk : w.key = .chainParams) :
    ∃ params, action = .setChainParams params ∧ w = put .chainParams params := by
  rcases h with ⟨-, hres⟩ | h | ⟨_, _, _, _, _, _, -, rfl⟩ | ⟨_, -, rfl⟩
  · rw [hk] at hres
    cases hres
  · exact h
  · cases hk
  · cases hk

namespace Governance

variable [Crypto] {rows : Rows}

theorem ensures_executeAction (proposal : Proposal) (height : Nat) :
    (executeAction proposal height).Ensures rows.view fun e =>
      EpochLengthIs rows.params.epochLength e.rows := by
  intro e he w hw hk
  have hwrites := (yields_executeAction proposal height).ensures rows.view e he w hw |>.1
  obtain ⟨params, haction, rfl⟩ := hwrites.eq_setChainParams hk
  rw [executeAction, haction] at he
  obtain ⟨changes, hchanges, he⟩ := bind_ok.mp he
  cases changes with
  | true =>
    obtain rfl := Except.ok.inj he
    cases hw
  | false =>
    have hsame : decide (params.epochLength ≠ rows.params.epochLength) = false := Except.ok.inj hchanges
    exact ⟨params, rfl, by simpa using hsame⟩

theorem ensures_applyExecute_epoch (id height : Nat) :
    (applyExecute id height).Ensures rows.view fun e =>
      EpochLengthIs rows.params.epochLength e.rows := by
  refine ensures_bind.mpr fun proposal _ => ensures_bind.mpr fun _ _ =>
    ensures_bind.mpr fun _ _ => ensures_bind.mpr fun params _ =>
    ensures_bind.mpr fun result hresult => ?_
  have hkeeps : EpochLengthIs rows.params.epochLength result.rows := by
    rw [executePassed] at hresult
    split_ifs at hresult
    · exact ensures_executeAction proposal height result hresult
    · obtain rfl := Except.ok.inj hresult
      exact fun w hw => by cases hw
  refine ensures_bind.mpr fun closing hclosing => ?_
  have hordinary := ((yields_closeRemoval _ _ _).ensures _ closing hclosing).votingRows.ordinaryRows
  intro e he
  obtain rfl := Except.ok.inj he
  exact (hkeeps.append hordinary.epochLengthIs).append (ordinaryRows_of_all rfl).epochLengthIs

end Governance

namespace Runtime

variable [Crypto] {rows : Rows} {ctx : DispatchCtx} {action : ChainAction} {u : BlockUpdates}

theorem ensures_executeProposal_epoch (id height : Nat) :
    (executeProposal id height).Ensures rows.view fun u =>
      EpochLengthIs rows.params.epochLength u.governance := by
  refine ensures_bind.mpr (ensures_circuit.mpr ?_)
  refine (Governance.ensures_applyExecute_epoch id height).mono fun result h => Prog.Yields.ensures ?_ _
  dsimp only
  split
  · exact h
  · refine yields_after fun r => ?_
    rcases r with e | slashed
    · cases e <;> first | exact h | trivial
    · exact h

/-- **No action changes the length of an epoch.** -/
theorem epochLengthIs_of_dispatch [Wire ActionPayload] [Zk] [StateTrie] [Decode]
    (h : (dispatch ctx action).run rows.view = .ok u) :
    EpochLengthIs rows.params.epochLength u.governance := by
  obtain ⟨inner, hinner, accounts, rfl⟩ := run_dispatchWith h
  by_cases hx : ∃ id, action.payload = .executeProposal id
  · obtain ⟨id, hp⟩ := hx
    rw [dispatchInner, hp] at hinner
    exact ensures_executeProposal_epoch id ctx.height inner hinner
  · exact ((yields_ordinaryRows (not_exists.mp hx)).ensures _ inner hinner).1.epochLengthIs

end Runtime

/-! ## A block keeps the length of an epoch -/

/-- Only governance writes the parameters. -/
theorem mem_governance_chainParams {u : BlockUpdates} {height : Nat} {c : Category} {w : RowWrite}
    (hu : GovernanceRows u.governance) (hw : w ∈ c.writes height u) (hk : w.key = .chainParams) :
    w ∈ u.governance := by
  have hc := Category.mem_writers hu hw
  rw [hk] at hc
  obtain rfl := List.mem_singleton.mp hc
  exact hw

/-- Rows written with parameters of this epoch length only. -/
theorem Rows.epochLength_apply {rows : Rows} {ws : List RowWrite} {length : Nat}
    (h : rows.params.epochLength = length)
    (hws : ∀ w ∈ ws, w.key = .chainParams →
      ∃ params : ChainParams, w = put .chainParams params ∧ params.epochLength = length) :
    (Rows.params (Writes.apply ws rows)).epochLength = length := by
  rw [Rows.params, apply_apply]
  cases hl : lookup ws .chainParams with
  | none => exact h
  | some r =>
    obtain ⟨params, he, hparams⟩ := hws _ (mem_of_lookup hl) rfl
    injection he with _ hr
    rw [hr]
    exact hparams

section Chain

variable [Crypto] [Wire ActionPayload] [Zk] [StateTrie] [Decode] {env : NodeEnv} {params : ChainParams}
  {db db' : Db} {block : ChainBlock} {ex : Executed}

/-- The length of an epoch in the rows an action reads, and in what the actions so far wrote. -/
structure ExecutionOutcome.EpochLengthIs (length : Nat) (s : ExecutionOutcome) : Prop where
  rows : s.rows.params.epochLength = length
  updates : ∀ u ∈ s.updates, Arxium.EpochLengthIs length u.governance

theorem ExecutionOutcome.EpochLengthIs.land {genesis : Bytes} {validators : List Address}
    {height timestamp length : Nat} {s s' : ExecutionOutcome} {action : ChainAction}
    (h : Lands (execEnv db genesis params validators height timestamp) s action s')
    (hs : s.EpochLengthIs length) : s'.EpochLengthIs length := by
  obtain ⟨u, hu, rfl⟩ := h.dispatched
  have hgov := ((Runtime.yields_dispatchWith (fun _ _ hP => hP)
    Runtime.yields_governanceRows).ensures _ u hu).1
  have hlength : Arxium.EpochLengthIs length u.governance := by
    rw [← hs.rows]
    exact Runtime.epochLengthIs_of_dispatch hu
  constructor
  · refine Rows.epochLength_apply hs.rows fun w hw hk => ?_
    rw [u.viewWrites_eq] at hw
    obtain ⟨c, -, hw⟩ := List.mem_flatMap.mp hw
    exact hlength w (mem_governance_chainParams hgov hw hk) hk
  · intro u' hu'
    rcases List.mem_append.mp hu' with hu' | hu'
    · exact hs.updates u' hu'
    · obtain rfl := List.mem_singleton.mp hu'
      exact hlength

omit [Crypto] [Wire ActionPayload] [Zk] [StateTrie] [Decode] in
/-- What the seal and the first action see of updates that keep the length. -/
theorem Rows.epochLength_view {rows : Rows} {us : List BlockUpdates} {length : Nat}
    (h : rows.params.epochLength = length) (hset : ∀ u ∈ us, u.validatorSet = none)
    (hgov : ∀ u ∈ us, GovernanceRows u.governance)
    (hus : ∀ u ∈ us, Arxium.EpochLengthIs length u.governance) :
    (Rows.params (Writes.apply (Categories.ofUpdates us).viewWrites rows)).epochLength = length := by
  refine Rows.epochLength_apply h fun w hw hk => ?_
  rw [Categories.viewWrites_eq 0] at hw
  obtain ⟨c, -, hw⟩ := List.mem_flatMap.mp hw
  rw [Categories.part_ofUpdates 0 us hset] at hw
  obtain ⟨u, hu, hw⟩ := List.mem_flatMap.mp hw
  exact hus u hu w (mem_governance_chainParams (hgov u hu) hw hk) hk

/-- **No update of a block changes the length of an epoch.** -/
theorem Commits.epochLengthIs (h : Commits env params db block ex db') :
    ∀ u ∈ ex.updates, Arxium.EpochLengthIs db.state.rows.params.epochLength u.governance := by
  obtain ⟨genesis, proposer, hran⟩ := h.ran
  have hshaped := h.shaped
  have hseed : Arxium.EpochLengthIs db.state.rows.params.epochLength ex.seed.governance :=
    ((yields_resolveMaturedUnbonding _).ensures _ _ hran.seed).2.epochLengthIs
  have hfirst : (seededRows db ex.seed).params.epochLength = db.state.rows.params.epochLength := by
    refine Rows.epochLength_view rfl (List.forall_mem_singleton.mpr ?_)
      (List.forall_mem_singleton.mpr (hshaped.governance _ List.mem_cons_self))
      (List.forall_mem_singleton.mpr hseed)
    rw [hshaped.seed]
  have hrun := hran.lands.induct
    (I := ExecutionOutcome.EpochLengthIs db.state.rows.params.epochLength)
    ⟨hfirst, fun u hu => by cases hu⟩ fun s action s' _ hl hs => hs.land hl
  intro u hu
  simp only [Executed.updates, List.cons_append, List.mem_cons, List.mem_append,
    List.not_mem_nil, or_false] at hu
  rcases hu with rfl | hu | rfl
  · exact hseed
  · exact hrun.updates u hu
  · exact hshaped.sealed.ordinaryRows.epochLengthIs

/-- **A block keeps the length of an epoch.** -/
theorem Commits.epochLength_eq (h : Commits env params db block ex db') :
    db'.state.rows.params.epochLength = db.state.rows.params.epochLength := by
  rw [Rows.params, h.row_eq rfl]
  cases hl : lookup (byCategory block.height (Key.writers .chainParams) ex.updates) .chainParams with
  | none => rfl
  | some r =>
    have hmem := mem_of_lookup hl
    simp only [byCategory, Key.writers, List.flatMap_cons, List.flatMap_nil, List.append_nil,
      List.mem_flatMap] at hmem
    obtain ⟨u, hu, hw⟩ := hmem
    obtain ⟨next, he, hnext⟩ := h.epochLengthIs u hu _ hw rfl
    injection he with _ hr
    rw [hr]
    exact hnext

/-! ## The set of every epoch -/

omit [Crypto] [Wire ActionPayload] [Zk] [StateTrie] [Decode] in
/-- What the seal stages is of four categories. -/
theorem BlockUpdates.mem_sealWrites {u : BlockUpdates} {w : RowWrite} (hw : w ∈ u.sealWrites) :
    ∃ c ∈ [Category.accounts, .allocations, .validatorIndex, .statuses], c ∈ w.key.writers := by
  have hcategory : ∃ c ∈ [Category.accounts, .allocations, .validatorIndex, .statuses],
      w ∈ c.writes 0 { u with governance := [] } := by
    simp only [sealWrites, StakeUpdates.writes, List.mem_append] at hw
    rcases hw with (hw | hw | hw) | hw
    · exact ⟨.accounts, by simp, hw⟩
    · exact ⟨.allocations, by simp, hw⟩
    · exact ⟨.validatorIndex, by simp, hw⟩
    · exact ⟨.statuses, by simp, hw⟩
  obtain ⟨c, hc, hw⟩ := hcategory
  exact ⟨c, hc, Category.mem_writers ordinaryRows_nil.governanceRows hw⟩

omit [Crypto] [Wire ActionPayload] [Zk] [StateTrie] [Decode] in
theorem BlockUpdates.sealWrites_key_ne {u : BlockUpdates} {k : Key}
    (hk : k.writers = [.governance] ∨ k.writers = [.snapshot]) : ∀ w ∈ u.sealWrites, w.key ≠ k := by
  intro w hw he
  obtain ⟨c, hc, hmem⟩ := mem_sealWrites hw
  rw [he] at hmem
  rcases hk with hk | hk <;>
  · rw [hk] at hmem
    obtain rfl := List.mem_singleton.mp hmem
    simp at hc

namespace Runtime

omit [Crypto] [Wire ActionPayload] [Zk] [StateTrie] [Decode] in
/-- A set is picked in the last block of an epoch and in no other. -/
theorem ensures_boundaryHook (rows : Rows) (written : List Address) (height : Nat) :
    (boundaryHook written height).Ensures rows.view fun u =>
      u.validatorSet.isSome = isBoundary height rows.params.epochLength := by
  refine ensures_bind.mpr fun params hparams => ?_
  obtain rfl : rows.params = params := Except.ok.inj hparams
  cases hboundary : isBoundary height rows.params.epochLength with
  | false =>
    intro u hu
    obtain rfl := Except.ok.inj hu
    rfl
  | true =>
    refine Prog.Yields.ensures (yields_after fun listed => yields_after fun statuses =>
      yields_after fun eligible => ?_) _
    dsimp only
    split_ifs
    · exact yields_after fun current => rfl
    · split
      · trivial
      · rfl

omit [Wire ActionPayload] [Zk] [StateTrie] [Decode] in
theorem ensures_sealBlock_set (rows : Rows) (written : List Address) (proposer : Address) (fees : Nat)
    (validators : List Address) (height : Nat) :
    (sealBlock written proposer fees validators height).Ensures rows.view fun u =>
      u.validatorSet.isSome = isBoundary height rows.params.epochLength := by
  refine ensures_bind.mpr fun u _ => ensures_bind.mpr fun boundary hboundary => ?_
  rw [run_staged, overlay_view] at hboundary
  have hparams : Rows.params (Writes.apply u.sealWrites rows) = rows.params := by
    rw [Rows.params, apply_of_not_mem (BlockUpdates.sealWrites_key_ne (.inl rfl))]
    rfl
  have hset := ensures_boundaryHook _ written height boundary hboundary
  rw [hparams] at hset
  refine Prog.Yields.ensures (yields_after fun before => yields_after fun after => ?_) _
  split_ifs <;> exact hset

end Runtime

/-- The seal sees the length of an epoch as it was before the block. -/
theorem Commits.epochLength_sealView (h : Commits env params db block ex db') :
    (Rows.params (Writes.apply ex.unsealed.viewWrites db.state.rows)).epochLength =
      db.state.rows.params.epochLength := by
  have hshaped := h.shaped
  have hunsealed : ∀ u ∈ ex.seed :: ex.outcome.updates, u ∈ ex.updates := fun u hu => by
    simp only [Executed.updates, List.mem_append]
    exact .inl hu
  refine Rows.epochLength_view rfl (List.forall_mem_cons.mpr ⟨?_, hshaped.validatorSet⟩)
    (fun u hu => hshaped.governance u (hunsealed u hu)) fun u hu => h.epochLengthIs u (hunsealed u hu)
  rw [hshaped.seed]

/-- **The last block of an epoch picks a set, and no other block does.** -/
theorem Commits.sealed_validatorSet (h : Commits env params db block ex db') :
    ex.sealed.validatorSet.isSome = isBoundary block.height db.state.rows.params.epochLength := by
  obtain ⟨genesis, proposer, hran⟩ := h.ran
  have hsealed := hran.sealed
  rw [overlay_view] at hsealed
  have hset := Runtime.ensures_sealBlock_set _ _ _ _ _ _ _ hsealed
  rwa [h.epochLength_sealView] at hset

/-- The stored set of a height. -/
def Rows.setRow (rows : Rows) (k : Nat) : Option ValidatorSet := rows (.validatorSet k)

/-- **The set rows after a block**: the seal may write the one of the next height. -/
theorem Commits.setRow_eq (h : Commits env params db block ex db') (k : Nat) :
    db'.state.rows.setRow k =
      if k = block.height + 1 then ex.sealed.validatorSet.or (db.state.rows.setRow k)
      else db.state.rows.setRow k := by
  have hshaped := h.shaped
  have hwrites : byCategory block.height (Key.writers (.validatorSet k)) ex.updates =
      Category.writes block.height ex.sealed .snapshot := by
    have hactions : ex.outcome.updates.flatMap (Category.writes block.height · .snapshot) = [] := by
      refine List.flatMap_eq_nil_iff.mpr fun u hu => ?_
      simp [Category.writes, hshaped.validatorSet u hu]
    have hseed : Category.writes block.height ex.seed .snapshot = [] := by
      rw [hshaped.seed]
      rfl
    simp only [byCategory, Key.writers, Executed.updates, List.flatMap_cons, List.flatMap_nil,
      List.append_nil, List.cons_append, List.flatMap_append, hactions, hseed, List.nil_append]
  have hrow := h.row_eq (k := .validatorSet k) rfl
  rw [hwrites] at hrow
  cases hset : ex.sealed.validatorSet with
  | none =>
    have hnil : Category.writes block.height ex.sealed .snapshot = [] := by simp [Category.writes, hset]
    rw [hnil] at hrow
    rw [Option.none_or, ite_self]
    exact hrow
  | some set =>
    have hput : Category.writes block.height ex.sealed .snapshot =
        [put (.validatorSet (block.height + 1)) set] := by simp [Category.writes, hset]
    rw [hput] at hrow
    by_cases hk : k = block.height + 1
    · subst hk
      have hlookup : lookup [(put (.validatorSet (block.height + 1)) set : RowWrite)]
          (Key.validatorSet (block.height + 1)) = some (some set) := by
        rw [lookup_cons, lookup_nil, Option.none_or]
        exact Write.effect_self _
      rw [hlookup] at hrow
      rw [if_pos rfl]
      exact hrow
    · have hlookup : lookup [(put (.validatorSet (block.height + 1)) set : RowWrite)]
          (Key.validatorSet k) = none :=
        lookup_eq_none (List.forall_mem_singleton.mpr fun he => hk (Key.validatorSet.inj he).symm)
      rw [hlookup] at hrow
      rw [if_neg hk]
      exact hrow

/-- **Which set rows there are after a block**: the last block of an epoch adds one. -/
theorem Commits.validatorSet_isSome (h : Commits env params db block ex db') (k : Nat) :
    (db'.state.rows (.validatorSet k)).isSome = true ↔ (db.state.rows (.validatorSet k)).isSome = true ∨
      k = block.height + 1 ∧ isBoundary block.height db.state.rows.params.epochLength = true := by
  rw [← h.sealed_validatorSet]
  change (db'.state.rows.setRow k).isSome = true ↔ (db.state.rows.setRow k).isSome = true ∨ _
  rw [h.setRow_eq k]
  by_cases hk : k = block.height + 1
  · rw [if_pos hk, Option.isSome_or, Bool.or_eq_true, or_comm]
    exact or_congr_right (and_iff_right hk).symm
  · rw [if_neg hk]
    exact (or_iff_left fun h => hk h.1).symm

/-- The set rows up to a height are those of genesis and of the first heights of epochs.  Genesis writes no
set for height one, be it the first of an epoch or not. -/
structure ChainState.SetsAtEpochs (length height : Nat) (s : ChainState) : Prop where
  epochLength : s.rows.params.epochLength = length
  sets : ∀ k, (s.rows (.validatorSet k)).isSome = true ↔
    k = 0 ∨ k ≠ 1 ∧ k ≤ height + 1 ∧ k % max length 1 = 0

theorem Commits.setsAtEpochs {length : Nat} (h : Commits env params db block ex db')
    (hs : db.state.SetsAtEpochs length db.tipHeight) : db'.state.SetsAtEpochs length db'.tipHeight := by
  have htip : db'.tipHeight = block.height := by
    rw [h.written]
    rfl
  refine ⟨h.epochLength_eq.trans hs.epochLength, fun k => ?_⟩
  rw [h.validatorSet_isSome k, hs.sets k, hs.epochLength, htip, h.height, isBoundary, beq_iff_eq]
  constructor
  · rintro ((hk | ⟨hk₁, hk, hmod⟩) | ⟨rfl, hmod⟩)
    · exact .inl hk
    · exact .inr ⟨hk₁, by omega, hmod⟩
    · exact .inr ⟨by omega, le_rfl, hmod⟩
  · rintro (hk | ⟨hk₁, hk, hmod⟩)
    · exact .inl (.inl hk)
    · rcases Nat.lt_or_ge (db.tipHeight + 1) k with hlt | hge
      · obtain rfl : k = db.tipHeight + 1 + 1 := by omega
        exact .inr ⟨rfl, hmod⟩
      · exact .inl (.inr ⟨hk₁, hge, hmod⟩)

theorem Chain.setsAtEpochs {length : Nat} {s₀ s : ChainState} {hist : List (ChainBlock × Executed)}
    (h : Chain s₀ hist s) (h₀ : s₀.SetsAtEpochs length (s₀.tip.getD 0)) :
    s.SetsAtEpochs length (s.tip.getD 0) := by
  induction h with
  | nil => exact h₀
  | snoc _ hcommit ih => exact hcommit.setsAtEpochs ih

omit [Crypto] [Wire ActionPayload] [Zk] [StateTrie] [Decode] in
/-- **The set in force is in the row of its epoch**, but for height one of a chain with epochs of length one. -/
theorem getValidatorSetAt_eq {length height h : Nat} {set : ValidatorSet} {db : Db}
    (hs : db.state.SetsAtEpochs length height)
    (hset : db.state.rows (.validatorSet (validatorSetEffectiveHeight h length)) = some set) :
    db.getValidatorSetAt h = set := by
  have hnone : ∀ j, validatorSetEffectiveHeight h length < j → j ≤ h →
      (db.state.rows (.validatorSet j) : Option ValidatorSet) = none := by
    intro j hj hjh
    by_contra hsome
    rcases (hs.sets j).mp (Option.isSome_iff_ne_none.mpr hsome) with rfl | ⟨-, -, hmod⟩
    · omega
    · obtain ⟨q, rfl⟩ := Nat.dvd_of_mod_eq_zero hmod
      rw [validatorSetEffectiveHeight, epochOf, Nat.mul_comm] at hj
      have hlt : h / max length 1 < q := Nat.lt_of_mul_lt_mul_left hj
      have hle : q ≤ h / max length 1 :=
        (Nat.le_div_iff_mul_le (by omega)).mpr (by rwa [Nat.mul_comm])
      omega
  rw [Db.getValidatorSetAt, newestAt_eq_some hset (LookupChain.effectiveHeight_le h) hnone, Option.getD_some]

omit [Crypto] [Wire ActionPayload] [Zk] [StateTrie] [Decode] in
/-- The row of a height's epoch is there up to the next height, with the one exception. -/
theorem ChainState.SetsAtEpochs.isSome_effective {length height h : Nat} {s : ChainState}
    (hs : s.SetsAtEpochs length height) (hle : h ≤ height + 1) :
    (s.rows (.validatorSet (validatorSetEffectiveHeight h length))).isSome = true ↔
      ¬ (h = 1 ∧ length ≤ 1) := by
  rw [hs.sets]
  have hmod : validatorSetEffectiveHeight h length % max length 1 = 0 := Nat.mul_mod_left ..
  have heff : validatorSetEffectiveHeight h length ≤ h := LookupChain.effectiveHeight_le h
  rcases Nat.lt_or_ge 1 length with hlt | hge
  · -- The first epoch is longer than a block, so no epoch starts at height one.
    have hne : validatorSetEffectiveHeight h length ≠ 1 := by
      intro he
      rw [he, Nat.max_eq_left (by omega), Nat.mod_eq_of_lt hlt] at hmod
      omega
    exact iff_of_true (.inr ⟨hne, by omega, hmod⟩) (by omega)
  · have hone : validatorSetEffectiveHeight h length = h := by
      rw [validatorSetEffectiveHeight, epochOf, Nat.max_eq_right hge, Nat.div_one, Nat.mul_one]
    rw [hone] at hmod ⊢
    constructor
    · rintro (rfl | ⟨hne, -⟩) <;> omega
    · intro hnot
      by_cases h0 : h = 0
      · exact .inl h0
      · exact .inr ⟨by omega, by omega, hmod⟩

end Chain

end Arxium
