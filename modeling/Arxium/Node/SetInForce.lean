import Arxium.Genesis.Snapshot
import Arxium.Node.Epochs
import Arxium.Node.Stages
import Arxium.Primitives.Power
import Arxium.Runtime.Proposals

/-!
# Node/SetInForce — the set in force is the one its key names

The set in force at a height is found by a reverse seek over all set rows; a proof names one key, the
first height of the epoch.  Along a chain from a plain genesis the two agree, the row is there, and its
powers are the whole: genesis writes the first set, the last block of every epoch writes the next, and a
boundary with too few candidates writes the set in force again (`setInForce_iff`).

Genesis is a boundary too when epochs have length one, and writes no set for height one.
-/

namespace Arxium

open ReadProg Writes

/-! ## Governed parameters -/

/-- The parameters in force, and those proposed, meet a condition. -/
structure Rows.Governed (P : ChainParams → Prop) (rows : Rows) : Prop where
  params : P rows.params
  proposals : ∀ (id : Nat) (p : Proposal) (q : ChainParams), rows (.proposal id) = some p →
    p.action = .setChainParams q → P q

section Turns

variable [Crypto] [Wire ActionPayload] [Zk] [StateTrie] [Decode] {P : ChainParams → Prop} {t : Turn}
  {u : BlockUpdates} {s : Rows}

omit [Wire ActionPayload] [Zk] [StateTrie] [Decode] in
/-- Rows written on governed rows: the parameters of a stored proposal, and valid proposals. -/
theorem Rows.Governed.write {rows rows' : Rows} (h : rows.Governed P)
    (hP : ∀ q, Governance.validateParams q = .ok () → P q)
    (hplain : SamePlain (Writes.apply u.viewWrites rows) rows') (hgov : GovernanceRows u.governance)
    (hproposes : ProposesFrom rows u.governance)
    (hparams : ∀ w ∈ u.governance, w.key = .chainParams →
      ∃ q : ChainParams, w = put .chainParams q ∧ P q) : rows'.Governed P := by
  have hrow : ∀ k : Key, k.isPlain = true → k.writers = [.governance] →
      rows' k = (lookup u.governance k).getD (rows k) := by
    intro k hk hw
    rw [hplain k hk, apply_apply, lookup_viewWrites (c := .governance) hgov (by rw [hw]; decide)]
    rfl
  constructor
  · have hrow := hrow .chainParams rfl rfl
    rw [Rows.params, hrow]
    cases hl : lookup u.governance .chainParams with
    | none => exact h.params
    | some r =>
      obtain ⟨q, he, hq⟩ := hparams _ (mem_of_lookup hl) rfl
      injection he with _ hr
      rw [hr]
      exact hq
  · intro id p q hp haction
    rw [hrow (.proposal id) rfl rfl] at hp
    cases hl : lookup u.governance (.proposal id) with
    | none =>
      rw [hl] at hp
      exact h.proposals id p q hp haction
    | some r =>
      rw [hl] at hp
      obtain ⟨p', he, hp'⟩ := hproposes _ (mem_of_lookup hl) id rfl
      injection he with _ hr
      rw [hr] at hp
      obtain rfl : p' = p := Option.some.inj hp
      rw [haction] at hp'
      rcases hp' with hvalid | ⟨old, hold, hsame⟩
      · exact hP q hvalid
      · exact h.proposals id old q hold hsame

omit [Wire ActionPayload] [Zk] [StateTrie] [Decode] in
theorem yields_resolveMaturedUnbonding_due (height : Nat) :
    (resolveMaturedUnbonding height : Read ExecutorError _).Yields fun u =>
      ∀ w ∈ u.governance, w.key.isDue = true := by
  refine yields_bind.mpr (yields_bind.mpr (yields_of_forall fun row => ?_))
  cases row with
  | none => exact List.forall_mem_nil _
  | some pairs => exact yields_after fun due => yields_after fun r => List.forall_mem_singleton.mpr rfl

/-- **A turn keeps the parameters governed.** -/
theorem Turn.Valid.governed (hP : ∀ q, Governance.validateParams q = .ok () → P q) (h : t.Valid u)
    (hs : t.before.Governed P) : t.after.Governed P := by
  obtain ⟨hreturned, hgov, hwritten⟩ := h
  obtain ⟨stage, before, after⟩ := t
  cases stage with
  | matured height =>
    have hdue := (yields_resolveMaturedUnbonding_due height).ensures _ u hreturned
    refine hs.write hP hwritten hgov (fun w hw id hk => ?_) fun w hw hk => ?_ <;>
    · have := hdue w hw
      rw [hk] at this
      cases this
  | acted ctx action =>
    obtain ⟨inner, hinner, accounts, rfl⟩ := Runtime.run_dispatchWith hreturned.2
    refine hs.write hP hwritten hgov (Runtime.proposes_dispatchInner inner hinner) fun w hw hk => ?_
    obtain ⟨id, proposal, -, hrow, hwrites⟩ := Runtime.ensures_governed inner hinner w hw (by rw [hk]; rfl)
    obtain ⟨q, haction, rfl⟩ := hwrites.eq_setChainParams hk
    exact ⟨q, rfl, hs.proposals id proposal q (Except.ok.inj hrow) haction⟩
  | closed written proposer fees validators height =>
    obtain ⟨seen, -, hseal⟩ := hreturned
    have honly := (Runtime.yields_sealBlock written proposer fees validators height).ensures _ u hseal
    have hkeys : ∀ w ∈ u.governance, w.key = .validatorCandidates := by
      rcases honly.governance with hnil | ⟨list, hlist⟩
      · rw [hnil]
        exact List.forall_mem_nil _
      · rw [hlist]
        exact List.forall_mem_singleton.mpr rfl
    refine hs.write hP hwritten hgov (fun w hw id hk => ?_) fun w hw hk => ?_ <;>
    · rw [hkeys w hw] at hk
      cases hk

/-- **A block keeps the parameters governed**, before its seal and after. -/
theorem Commits.governs {env : NodeEnv} {params : ChainParams} {db db' : Db} {block : ChainBlock}
    {ex : Executed} (h : Commits env params db block ex db')
    (hP : ∀ q, Governance.validateParams q = .ok () → P q) (hs : db.state.rows.Governed P) :
    ex.outcome.rows.Governed P ∧ db'.state.rows.Governed P := by
  have hnil : Turns db.state.rows [] db.state.rows := .nil
  obtain ⟨acts, hacts, -⟩ := h.turns_unsealed hnil
  obtain ⟨all, hall, -⟩ := h.turns hnil
  exact ⟨hacts.induct hs fun t u _ hvalid => hvalid.governed hP,
    hall.induct hs fun t u _ hvalid => hvalid.governed hP⟩

end Turns

/-! ## What a boundary writes -/

/-- A set that can vote: somebody is in it, and the powers are the whole. -/
structure ValidatorSet.Whole (set : ValidatorSet) : Prop where
  nonempty : set ≠ ∅
  sum : (set.toList.map Prod.snd).sum = totalVotingPower

theorem FairPowers.whole {stakes : TreeMap Address Nat} {powers : ValidatorSet}
    (h : FairPowers stakes powers) : powers.Whole := by
  refine ⟨fun hempty => ?_, h.sum⟩
  have hsum := h.sum
  rw [hempty] at hsum
  cases hsum

namespace Runtime

/-- **The set of a boundary**: assigned to somebody, or the one in force again. -/
theorem run_boundaryHook {rows : Rows} {written : List Address} {height : Nat} {u : BlockUpdates}
    {set : ValidatorSet} (hmin : rows.params.minValidatorSet ≠ 0)
    (h : (boundaryHook written height).run rows.view = .ok u) (hset : u.validatorSet = some set) :
    set.Whole ∨
      set = (rows.setRow (validatorSetEffectiveHeight height rows.params.epochLength)).getD ∅ := by
  obtain ⟨params, hparams, h⟩ := bind_ok.mp h
  obtain rfl : rows.params = params := Except.ok.inj hparams
  dsimp only at h
  split at h
  · obtain rfl := Except.ok.inj h
    cases hset
  obtain ⟨listed, h⟩ := run_rest h
  obtain ⟨statuses, h⟩ := run_rest h
  obtain ⟨eligible, h⟩ := run_rest h
  split at h
  · obtain ⟨current, hcurrent, h⟩ := bind_ok.mp h
    obtain rfl := Except.ok.inj h
    obtain rfl := Option.some.inj hset
    obtain rfl := Except.ok.inj (run_getRow_eq_ok.mp hcurrent)
    exact .inr rfl
  · rename_i hlength
    split at h
    · cases h
    · rename_i powers hpowers
      obtain rfl := Except.ok.inj h
      obtain rfl := Option.some.inj hset
      have hne : Std.ExtTreeMap.ofList ((eligible.insertionSort (byStake · ·)).take
          (max rows.params.maxValidatorSet 1)) ≠ (∅ : TreeMap Address Nat) := by
        intro hempty
        rw [Std.ExtTreeMap.ofList_eq_empty_iff.mp hempty, List.length_nil] at hlength
        omega
      exact .inl (fairPowers_of_assignVotingPower hne hpowers).whole

/-- …and the seal hands it back. -/
theorem run_sealBlock_set [Crypto] {rows : Rows} {written validators : List Address} {proposer : Address}
    {fees height : Nat} {u : BlockUpdates} {set : ValidatorSet} (hmin : rows.params.minValidatorSet ≠ 0)
    (h : (sealBlock written proposer fees validators height).run rows.view = .ok u)
    (hset : u.validatorSet = some set) :
    set.Whole ∨
      set = (rows.setRow (validatorSetEffectiveHeight height rows.params.epochLength)).getD ∅ := by
  obtain ⟨economics, h⟩ := run_rest h
  obtain ⟨boundary, hboundary, h⟩ := bind_ok.mp h
  rw [run_staged, overlay_view] at hboundary
  have hparams : Rows.params (Writes.apply economics.sealWrites rows) = rows.params := by
    rw [Rows.params, apply_of_not_mem (BlockUpdates.sealWrites_key_ne (.inl rfl))]
    rfl
  have hrow : ∀ k, Rows.setRow (Writes.apply economics.sealWrites rows) k = rows.setRow k := fun k =>
    apply_of_not_mem (BlockUpdates.sealWrites_key_ne (k := .validatorSet k) (.inr rfl)) rows
  have hsame : boundary.validatorSet = some set := by
    obtain ⟨before, h⟩ := run_rest h
    obtain ⟨after, h⟩ := run_rest h
    split_ifs at h <;>
    · obtain rfl := Except.ok.inj h
      exact hset
  have hwhole := run_boundaryHook (by rwa [hparams]) hboundary hsame
  rwa [hparams, hrow] at hwhole

end Runtime

/-- Somebody has to be in a set. -/
abbrev NeedsValidators (q : ChainParams) : Prop := q.minValidatorSet ≠ 0

theorem needsValidators_of_validateParams {q : ChainParams} (h : Governance.validateParams q = .ok ()) :
    NeedsValidators q := by
  intro hzero
  rw [Governance.validateParams] at h
  by_cases hinterval : q.blockIntervalSecs = 0
  · rw [if_pos hinterval] at h
    cases h
  rw [if_neg hinterval] at h
  by_cases hlength : q.epochLength = 0
  · rw [if_pos hlength] at h
    cases h
  rw [if_neg hlength, if_pos (.inl hzero)] at h
  cases h

section Chain

variable [Crypto] [Wire ActionPayload] [Zk] [StateTrie] [Decode] {env : NodeEnv} {params : ChainParams}
  {db db' : Db} {block : ChainBlock} {ex : Executed}

omit [Crypto] [Wire ActionPayload] [Zk] [StateTrie] [Decode] in
/-- Rows of no visible category are not seen by the seal as written. -/
theorem Executed.Shaped.lookup_sealView (hex : ex.Shaped) {k : Key} (hk : ∀ c ∈ viewOrder, c ∉ k.writers) :
    lookup ex.unsealed.viewWrites k = none := by
  have hset : ∀ u ∈ ex.seed :: ex.outcome.updates, u.validatorSet = none :=
    List.forall_mem_cons.mpr ⟨by rw [hex.seed], hex.validatorSet⟩
  rw [Categories.viewWrites_eq 0]
  refine lookup_flatMap_eq_none fun c hc => ?_
  rw [Executed.unsealed, Categories.part_ofUpdates 0 _ hset]
  refine lookup_flatMap_eq_none fun u hu => lookup_category_eq_none hex.governance ?_ (hk c hc)
  rw [Executed.updates, List.mem_append]
  exact .inl hu

/-- **The set a block writes**: a whole one, or the one in force again. -/
theorem Commits.sealed_whole (h : Commits env params db block ex db')
    (hs : db.state.rows.Governed NeedsValidators) {set : ValidatorSet}
    (hset : ex.sealed.validatorSet = some set) :
    set.Whole ∨ set = (db.state.rows.setRow
      (validatorSetEffectiveHeight block.height db.state.rows.params.epochLength)).getD ∅ := by
  have hshaped := h.shaped
  have hgoverned := (h.governs (fun q => needsValidators_of_validateParams) hs).1
  obtain ⟨genesis, proposer, hran⟩ := h.ran
  have hplain := samePlain_sealView hshaped hran.lands
  have hsealed := hran.sealed
  rw [overlay_view] at hsealed
  have hmin : (Rows.params (Writes.apply ex.unsealed.viewWrites db.state.rows)).minValidatorSet ≠ 0 := by
    rw [Rows.params, hplain .chainParams rfl]
    exact hgoverned.params
  have hlength : (Rows.params (Writes.apply ex.unsealed.viewWrites db.state.rows)).epochLength =
      db.state.rows.params.epochLength := h.epochLength_sealView
  have hrow : ∀ k, Rows.setRow (Writes.apply ex.unsealed.viewWrites db.state.rows) k =
      db.state.rows.setRow k := by
    intro k
    have hnone : lookup ex.unsealed.viewWrites (.validatorSet k) = none :=
      hshaped.lookup_sealView (by simp [Key.writers, viewOrder])
    rw [Rows.setRow, apply_apply, hnone]
    rfl
  have hwhole := Runtime.run_sealBlock_set hmin hsealed hset
  rwa [hlength, hrow] at hwhole

/-! ## The rows of a chain -/

/-- **The set in force at a height**: what the seek finds is the row of the height's epoch, the row is
there and whole, genesis or the boundary block just before it wrote it, and no other block did. -/
structure SetInForce (c₀ : ChainState) (hist : List (ChainBlock × Executed)) (c : ChainState)
    (height : Nat) (set : ValidatorSet) : Prop where
  inForce : ∀ db : Db, db.state = c → db.getValidatorSetAt height = set
  stored : c.rows.setRow (validatorSetEffectiveHeight height c.rows.params.epochLength) = some set
  whole : set.Whole
  writer : validatorSetEffectiveHeight height c.rows.params.epochLength = 0 ∧ c₀.rows.setRow 0 = some set ∨
    ∃ e ∈ hist, e.1.height + 1 = validatorSetEffectiveHeight height c.rows.params.epochLength ∧
      isBoundary e.1.height c.rows.params.epochLength = true ∧ e.2.sealed.validatorSet = some set
  alone : ∀ e ∈ hist, e.1.height + 1 ≠ validatorSetEffectiveHeight height c.rows.params.epochLength →
    ∀ env db, ∀ w ∈ (acceptedBatch env db e.1 e.2).writes,
      w.key ≠ .validatorSet (validatorSetEffectiveHeight height c.rows.params.epochLength)

/-- What holds of the set rows all along a chain with epochs of a length. -/
structure SetRows (c₀ : ChainState) (length : Nat) (hist : List (ChainBlock × Executed)) (c : ChainState) :
    Prop where
  governed : c.rows.Governed NeedsValidators
  atEpochs : c.SetsAtEpochs length (c.tip.getD 0)
  whole : ∀ k set, c.rows.setRow k = some set → set.Whole
  writer : ∀ k set, c.rows.setRow k = some set → k = 0 ∧ c₀.rows.setRow 0 = some set ∨
    ∃ e ∈ hist, e.1.height + 1 = k ∧ isBoundary e.1.height length = true ∧
      e.2.sealed.validatorSet = some set
  alone : ∀ e ∈ hist, ∀ env db, ∀ w ∈ (acceptedBatch env db e.1 e.2).writes, ∀ k,
    w.key = .validatorSet k → k = e.1.height + 1

omit [Zk] [StateTrie] [Decode] in
/-- A block writes no set but that of the next height. -/
theorem Executed.Shaped.eq_of_mem_writes (hex : ex.Shaped) {w : RowWrite}
    (hw : w ∈ (acceptedBatch env db block ex).writes) {k : Nat} (hk : w.key = .validatorSet k) :
    k = block.height + 1 := by
  rcases hex.mem_commitWrites hw with hindex | ⟨cat, hcat, u, -, hw⟩
  · have hrow := isIndexRow_of_mem_assetIndexWrites _ _ hindex
    rw [hk] at hrow
    cases hrow
  · rw [hk] at hcat
    obtain rfl := List.mem_singleton.mp hcat
    obtain ⟨set, -, rfl⟩ := Option.mem_toList.mp hw |> Option.map_eq_some_iff.mp
    exact (Key.validatorSet.inj hk).symm

/-- The step lemma: a block adds a row at most, of a whole set. -/
theorem Commits.setRows {c₀ : ChainState} {length : Nat} {hist : List (ChainBlock × Executed)}
    (h : Commits env params db block ex db') (hlength : 1 < length) (hs : SetRows c₀ length hist db.state) :
    SetRows c₀ length (hist ++ [(block, ex)]) db'.state := by
  have hnew : ∀ set, ex.sealed.validatorSet = some set → set.Whole := by
    intro set hset
    rcases h.sealed_whole hs.governed hset with hwhole | rfl
    · exact hwhole
    · have hle : block.height ≤ db.state.tip.getD 0 + 1 := h.height.le
      obtain ⟨current, hcurrent⟩ := Option.isSome_iff_exists.mp
        ((hs.atEpochs.isSome_effective hle).mpr (by omega))
      have hrow : db.state.rows.setRow (validatorSetEffectiveHeight block.height
          db.state.rows.params.epochLength) = some current := by
        rw [hs.atEpochs.epochLength]
        exact hcurrent
      rw [hrow]
      exact hs.whole _ _ hrow
  have hold : ∀ k set, db'.state.rows.setRow k = some set →
      (k = block.height + 1 ∧ ex.sealed.validatorSet = some set) ∨ db.state.rows.setRow k = some set := by
    intro k set hset
    rw [h.setRow_eq k] at hset
    split_ifs at hset with hk
    · rcases Option.or_eq_some_iff.mp hset with hset | ⟨-, hset⟩
      · exact .inl ⟨hk, hset⟩
      · exact .inr hset
    · exact .inr hset
  refine ⟨(h.governs (fun q => needsValidators_of_validateParams) hs.governed).2,
    h.setsAtEpochs hs.atEpochs, fun k set hset => ?_, fun k set hset => ?_, ?_⟩
  · rcases hold k set hset with ⟨-, hset⟩ | hset
    · exact hnew set hset
    · exact hs.whole k set hset
  · rcases hold k set hset with ⟨hk, hset⟩ | hset
    · refine .inr ⟨(block, ex), by simp, hk.symm, ?_, hset⟩
      have hboundary := h.sealed_validatorSet
      rw [hset, Option.isSome_some, hs.atEpochs.epochLength] at hboundary
      exact hboundary.symm
    · rcases hs.writer k set hset with hgenesis | ⟨e, he, hrest⟩
      · exact .inl hgenesis
      · exact .inr ⟨e, List.mem_append_left _ he, hrest⟩
  · refine List.forall_mem_append.mpr ⟨hs.alone, List.forall_mem_singleton.mpr ?_⟩
    exact fun env db w hw k hk => h.shaped.eq_of_mem_writes hw hk

theorem Chain.setRows {c₀ c : ChainState} {length : Nat} {hist : List (ChainBlock × Executed)}
    (h : Chain c₀ hist c) (hlength : 1 < length) (h₀ : SetRows c₀ length [] c₀) :
    SetRows c₀ length hist c := by
  induction h with
  | nil => exact h₀
  | snoc _ hcommit ih => exact hcommit.setRows hlength ih

omit [Zk] [StateTrie] [Decode] in
theorem SetRows.setInForce {c₀ c : ChainState} {length height : Nat}
    {hist : List (ChainBlock × Executed)} (h : SetRows c₀ length hist c) (hlength : 1 < length)
    (hle : height ≤ c.tip.getD 0 + 1) : ∃ set, SetInForce c₀ hist c height set := by
  obtain ⟨set, hset⟩ := Option.isSome_iff_exists.mp ((h.atEpochs.isSome_effective hle).mpr (by omega))
  obtain rfl := h.atEpochs.epochLength
  refine ⟨set, fun db hdb => ?_, hset, h.whole _ _ hset, h.writer _ _ hset,
    fun e he hne env db w hw hk => hne (h.alone e he env db w hw _ hk).symm⟩
  subst hdb
  exact getValidatorSetAt_eq h.atEpochs hset

end Chain

/-! ## Chains from a plain genesis -/

section Genesis

variable [Crypto] {s : Snapshot} {root : String} {rows : Rows}

theorem Snapshot.setRow_install (h : s.install root = .ok rows) :
    ∃ set, assignVotingPower (s.validators.map fun _ entry => entry.stake) = some set ∧
      rows.setRow 0 = some set ∧ ∀ k, k ≠ 0 → rows.setRow k = none := by
  obtain ⟨set, hset, ws, rfl, hfirst, -, hother⟩ := consensus_install h
  refine ⟨set, hset, apply_of_unique hfirst (fun u hu hk => ?_) _, fun k hk => ?_⟩
  · rcases hother u hu (by rw [hk]; rfl) with he | rfl
    · exact he
    · cases hk
  · refine apply_of_not_mem (k := Key.validatorSet k) (fun w hw he => ?_) _
    rcases hother w hw (by rw [he]; rfl) with rfl | rfl
    · exact hk (Key.validatorSet.inj he).symm
    · cases he

theorem Snapshot.params_install (h : s.install root = .ok rows) : rows.params = s.params := by
  obtain ⟨set, -, ws, rfl, -, hparams, hother⟩ := consensus_install h
  have hrow := apply_of_unique hparams (fun u hu hk => ?_) fun _ => none
  · rw [Rows.params]
    exact congrArg (Option.getD (α := ChainParams) · {}) hrow
  · rcases hother u hu (by rw [hk]; rfl) with rfl | he
    · cases hk
    · exact he

theorem Snapshot.proposal_install (h : s.install root = .ok rows) (id : Nat) :
    rows (.proposal id) = none := by
  obtain ⟨set, -, ws, rfl, -, -, hother⟩ := consensus_install h
  rw [apply_apply, lookup_eq_none fun w hw hk => ?_]
  · rfl
  · rcases hother w hw (by rw [hk]; rfl) with rfl | rfl <;> cases hk

/-- The set rows of genesis. -/
theorem Snapshot.setRows_install [Wire ActionPayload] (h : s.install root = .ok rows) (hmin : NeedsValidators s.params)
    (hne : s.validators ≠ ∅) {c₀ : ChainState} (hrows : c₀.rows = rows) (htip : c₀.tip = some 0) :
    SetRows c₀ s.params.epochLength [] c₀ := by
  subst hrows
  obtain ⟨set, hset, hfirst, hother⟩ := setRow_install h
  have hzero : ∀ k set', c₀.rows.setRow k = some set' → k = 0 ∧ set' = set := by
    intro k set' hset'
    by_cases hk : k = 0
    · subst hk
      exact ⟨rfl, (Option.some.inj (hfirst.symm.trans hset')).symm⟩
    · rw [hother k hk] at hset'
      cases hset'
  have hstakes : (s.validators.map fun _ entry => entry.stake) ≠ ∅ :=
    mt Std.ExtTreeMap.map_eq_empty_iff.mp hne
  refine ⟨⟨?_, fun id p q hp => ?_⟩, ⟨?_, fun k => ?_⟩, fun k set' hset' => ?_, fun k set' hset' => ?_, ?_⟩
  · rw [params_install h]
    exact hmin
  · rw [proposal_install h] at hp
    cases hp
  · rw [params_install h]
  · rw [htip, Option.getD_some]
    change (c₀.rows.setRow k).isSome = true ↔ _
    by_cases hk : k = 0
    · subst hk
      simp [hfirst]
    · simp only [hother k hk, Option.isSome_none, hk, false_or, Bool.false_eq_true, false_iff]
      omega
  · obtain ⟨-, rfl⟩ := hzero k set' hset'
    exact (fairPowers_of_assignVotingPower hstakes hset).whole
  · obtain ⟨rfl, rfl⟩ := hzero k set' hset'
    exact .inl ⟨rfl, hfirst⟩
  · exact List.forall_mem_nil _

theorem Snapshot.epochLength_ne_zero (h : s.install root = .ok rows) : s.params.epochLength ≠ 0 := by
  obtain ⟨_, hvalid, -⟩ := bind_eq_ok.mp h
  obtain ⟨_, -, hvalid⟩ := bind_eq_ok.mp hvalid
  obtain ⟨_, -, hvalid⟩ := bind_eq_ok.mp hvalid
  obtain ⟨_, -, hvalid⟩ := bind_eq_ok.mp hvalid
  obtain ⟨_, -, hvalid⟩ := bind_eq_ok.mp hvalid
  obtain ⟨_, hlength, -⟩ := bind_eq_ok.mp hvalid
  unfold demand at hlength
  split at hlength
  · exact of_decide_eq_true ‹_›
  · cases hlength

variable [Wire ActionPayload] [Zk] [StateTrie] [Decode]

/-- **The set in force is the provable one**, on every chain from a genesis that has a validator and wants
one in every set, exactly if epochs are longer than one block. -/
theorem setInForce_iff (h : s.install root = .ok rows) (hmin : s.params.minValidatorSet ≠ 0)
    {c₀ : ChainState} (hrows : c₀.rows = rows) (htip : c₀.tip = some 0) :
    (∀ hist c, Chain c₀ hist c → ∀ height ≤ c.tip.getD 0 + 1, ∃ set, SetInForce c₀ hist c height set) ↔
      s.params.epochLength ≠ 1 ∧ s.validators ≠ ∅ := by
  obtain ⟨first, hfirst, hrow, hother⟩ := Snapshot.setRow_install h
  constructor
  · intro hall
    constructor
    · intro hone
      obtain ⟨set, hset⟩ := hall [] c₀ .nil 1 (by rw [htip]; exact le_rfl)
      have hstored := hset.stored
      rw [hrows, Snapshot.params_install h, hone] at hstored
      rw [show validatorSetEffectiveHeight 1 1 = 1 from rfl, hother 1 (by decide)] at hstored
      cases hstored
    · intro hempty
      obtain ⟨set, hset⟩ := hall [] c₀ .nil 0 (Nat.zero_le _)
      have hstored := hset.stored
      have hzero : validatorSetEffectiveHeight 0 c₀.rows.params.epochLength = 0 := by
        rw [validatorSetEffectiveHeight, epochOf, Nat.zero_div, Nat.zero_mul]
      rw [hzero, hrows, hrow] at hstored
      obtain rfl := Option.some.inj hstored
      rw [hempty] at hfirst
      exact hset.whole.nonempty (Option.some.inj hfirst).symm
  · rintro ⟨hone, hne⟩ hist c hchain height hle
    have hlength : 1 < s.params.epochLength := by
      have := Snapshot.epochLength_ne_zero h
      omega
    exact (hchain.setRows hlength (Snapshot.setRows_install h hmin hne hrows htip)).setInForce hlength hle

end Genesis

/-! ### A chain of one validator -/

namespace PlainChain

attribute [local instance] crypto wire Plain.zk Plain.trie Plain.decoders

set_option maxRecDepth 20000

/-- The validator of `PlainChain`, in epochs of some length. -/
def spec (length : Nat) : Snapshot where
  chainName := "plain"
  accounts := ∅
  validators := Std.ExtTreeMap.ofList [(proposer, ({ stake := 100 } : ValidatorEntry))]
  params := { params with epochLength := length }

/-- The chain's rows and its genesis block. -/
def installed (length : Nat) : Db :=
  { db [] with state :=
    { (db []).state with rows := ((spec length).install "0x").toOption.getD fun _ => none } }

theorem install_spec {length : Nat} (h : ((spec length).install "0x").isOk = true) :
    (spec length).install "0x" = .ok (installed length).state.rows := by
  obtain ⟨rows, hrows⟩ := exists_ok_of_isOk h
  rw [installed, hrows]
  rfl

theorem setInForce_two :
    (∃ set, SetInForce (installed 2).state [] (installed 2).state 0 set) ∧
      ∃ set, SetInForce (installed 2).state [] (installed 2).state 1 set := by
  have hne : (spec 2).validators ≠ ∅ := fun h =>
    absurd (congrArg Std.ExtTreeMap.size h) (by decide +kernel)
  have hall := (setInForce_iff (install_spec (by decide +kernel)) (by decide) rfl rfl).mpr
    ⟨by decide, hne⟩ [] _ .nil
  exact ⟨hall 0 (Nat.zero_le _), hall 1 le_rfl⟩

/-- What the first block of a chain with epochs of one block leaves: no set for its own height, whatever
the seek finds, and the empty one for the next. -/
def firstSets (db : Db) : Bool :=
  db.state.rows.params.epochLength == 1 && (db.state.rows.setRow 1).isNone &&
    (db.getValidatorSetAt 1).keys == [proposer] && (db.state.rows.setRow 2).any (·.isEmpty)

theorem firstSets_installed : (match onBlock env (block 1 []) (installed 1) with
    | .ok db => firstSets db
    | .error _ => false) = true := by decide +kernel

/-- **With epochs of one block** the first block has no set row, and the second an empty one. -/
theorem first_block_empties_set : (spec 1).install "0x" = .ok (installed 1).state.rows ∧
    ∃ (ex : Executed) (db' : Db), Chain (installed 1).state [(block 1 [], ex)] db'.state ∧
      db'.state.rows.setRow 1 = none ∧ (db'.getValidatorSetAt 1).keys = [proposer] ∧
      db'.state.rows.setRow 2 = some ∅ ∧
      ∀ set, ¬ SetInForce (installed 1).state [(block 1 [], ex)] db'.state 1 set ∧
        ¬ SetInForce (installed 1).state [(block 1 [], ex)] db'.state 2 set := by
  refine ⟨install_spec (by decide +kernel), ?_⟩
  have hsets := firstSets_installed
  cases haccept : onBlock env (block 1 []) (installed 1) with
  | error e =>
    rw [haccept] at hsets
    cases hsets
  | ok db' =>
    rw [haccept] at hsets
    simp only [firstSets, Bool.and_eq_true, beq_iff_eq, Option.isNone_iff_eq_none] at hsets
    obtain ⟨⟨⟨hlength, hnone⟩, hkeys⟩, hempty⟩ := hsets
    have htwo : db'.state.rows.setRow 2 = some ∅ := by
      cases hset : db'.state.rows.setRow 2 with
      | none =>
        rw [hset] at hempty
        cases hempty
      | some set =>
        rw [hset] at hempty
        rw [Std.ExtTreeMap.isEmpty_iff.mp hempty]
    obtain ⟨db₀, ex, hacc⟩ := acceptBlock_eq_ok.mp haccept
    obtain ⟨hunwinds, hcommit⟩ := hacc.commits
    have hsame : db₀ = installed 1 := by
      rcases hunwinds with h | ⟨height, h⟩
      · exact h
      · rcases Db.revertTo_eq_ok h with h | ⟨h, -⟩
        · exact h
        · exact absurd h (Nat.not_lt_zero _)
    subst hsame
    refine ⟨ex, db', Chain.nil.snoc hcommit, hnone, hkeys, htwo, fun set => ⟨fun h => ?_, fun h => ?_⟩⟩
    · have hstored := h.stored
      rw [hlength, show validatorSetEffectiveHeight 1 1 = 1 from rfl, hnone] at hstored
      cases hstored
    · have hstored := h.stored
      rw [hlength, show validatorSetEffectiveHeight 2 1 = 2 from rfl, htwo] at hstored
      exact h.whole.nonempty (Option.some.inj hstored).symm

end PlainChain

end Arxium
