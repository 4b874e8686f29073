import Arxium.Executor.PlainChain
import Arxium.Runtime.Footprint

/-!
# Executor/Order — commit order against execution order

Executing a block in order means applying the seed's updates, then each action's, then the seal's; for
every row the last write wins.  The commit sorts the same writes by category first.  The two can only
differ on a row that more than one category writes, and `Key.writers` lists the categories of a row:
there are three families with more than one.  On those, and only on those, a block has to be looked at
(`OrderSafe`).
-/

namespace Arxium

open ReadProg Writes

/-- The categories of update; the two maps of stakes and of operators are apart. -/
inductive Category
  | accounts | allocations | validatorIndex | assets | holderStates | statuses | snapshot | evidence
  | blsKeys | assetRegistrations | attestorRegistrations | attestorDeregistrations | authorization
  | operatorIndex | governance
deriving DecidableEq

/-- What one update writes in a category; a validator set is for the height after the block's. -/
def Category.writes (height : Nat) (u : BlockUpdates) : Category → List RowWrite
  | accounts => accountWrites u.accounts
  | allocations => u.stakes.allocations.map fun p => ⟨.stake p.1.1 p.1.2, p.2⟩
  | validatorIndex => u.stakes.validatorIndex.map validatorIndexWrite
  | assets => assetBalanceWrites u.assets
  | holderStates => holderStateWrites u.holderStates
  | statuses => statusWrites u.validatorStatuses
  | snapshot => (u.validatorSet.map fun set => put (.validatorSet (height + 1)) set).toList
  | evidence => u.evidence.elim [] EvidenceMarker.writes
  | blsKeys => u.blsKey.elim [] BlsKeyRegistration.writes
  | assetRegistrations => (u.assetRegistration.map assetWrite).toList
  | attestorRegistrations => (u.attestorRegistration.map AttestorRegistration.write).toList
  | attestorDeregistrations => (u.attestorDeregistration.map attestorDeregistrationWrite).toList
  | authorization => u.operator.authorization.map fun p => ⟨.operator p.1, p.2⟩
  | operatorIndex => u.operator.operatorIndex.map operatorIndexWrite
  | governance => u.governance

/-- The order of the commit. -/
def commitOrder : List Category :=
  [.accounts, .allocations, .validatorIndex, .assets, .holderStates, .statuses, .snapshot, .evidence,
    .blsKeys, .assetRegistrations, .attestorRegistrations, .attestorDeregistrations, .authorization,
    .operatorIndex, .governance]

/-- The order inside one update, as a dispute replay applies it. -/
def updateOrder : List Category :=
  [.accounts, .statuses, .allocations, .validatorIndex, .authorization, .operatorIndex, .assets,
    .holderStates, .evidence, .blsKeys, .assetRegistrations, .attestorRegistrations,
    .attestorDeregistrations, .governance, .snapshot]

/-- The categories that write a row, in the order both lists have them. -/
def Key.writers : Key → List Category
  | .account _ => [.accounts]
  | .stake _ _ => [.allocations]
  | .stakeByValidator _ => [.validatorIndex]
  | .blsKey _ | .blsPubkeyOwner _ => [.blsKeys]
  | .operator _ => [.authorization]
  | .operatorIndex _ => [.operatorIndex]
  | .validatorSet _ => [.snapshot]
  | .asset _ => [.assetRegistrations]
  | .assetBalance _ _ => [.assets]
  | .assetHolderState _ _ => [.holderStates]
  | .attestorRecord _ => [.attestorRegistrations, .attestorDeregistrations, .governance]
  | .evidenceMarker _ _ | .disputedBlock _ _ => [.evidence]
  | .disputeOpen _ _ => [.evidence, .governance]
  | .validatorStatus _ => [.statuses, .governance]
  | .unbondingDue _ | .validatorCandidates | .attestorName _ | .chainParams | .proposal _
  | .vote _ _ | .nextProposalId => [.governance]
  | .assetHolders _ | .assetIndex | .accountAssets _ | .genesisHash => []

/-- **A row is written by its categories only.** -/
theorem Category.mem_writers {height : Nat} {u : BlockUpdates} (hgov : GovernanceRows u.governance)
    {c : Category} {w : RowWrite} (h : w ∈ c.writes height u) : c ∈ w.key.writers := by
  cases c with
  | accounts | allocations | assets | holderStates | statuses | authorization =>
    obtain ⟨p, -, rfl⟩ := List.mem_map.mp h
    exact List.mem_cons_self
  | validatorIndex =>
    obtain ⟨p, -, rfl⟩ := List.mem_map.mp h
    rw [validatorIndexWrite_eq]
    exact List.mem_cons_self
  | operatorIndex =>
    obtain ⟨p, -, rfl⟩ := List.mem_map.mp h
    rw [operatorIndexWrite_eq]
    exact List.mem_cons_self
  | snapshot | assetRegistrations | attestorRegistrations =>
    simp only [writes, Option.mem_toList, Option.map_eq_some_iff] at h
    obtain ⟨x, -, rfl⟩ := h
    exact List.mem_cons_self
  | attestorDeregistrations =>
    simp only [writes, Option.mem_toList, Option.map_eq_some_iff] at h
    obtain ⟨x, -, rfl⟩ := h
    exact List.mem_cons_of_mem _ List.mem_cons_self
  | evidence =>
    cases hu : u.evidence with
    | none => simp [writes, hu] at h
    | some m =>
      rw [writes, hu, Option.elim_some, EvidenceMarker.writes] at h
      rcases List.mem_cons.mp h with rfl | h
      · exact List.mem_cons_self
      · cases hd : m.disputed with
        | none => simp [hd] at h
        | some header =>
          rw [hd] at h
          rcases List.mem_cons.mp h with rfl | h
          · exact List.mem_cons_self
          · obtain rfl := List.mem_singleton.mp h
            exact List.mem_cons_self
  | blsKeys =>
    cases hu : u.blsKey with
    | none => simp [writes, hu] at h
    | some r =>
      rw [writes, hu, Option.elim_some, BlsKeyRegistration.writes] at h
      rcases List.mem_append.mp h with h | h
      · simp only [List.mem_cons, List.not_mem_nil, or_false] at h
        rcases h with rfl | rfl <;> exact List.mem_cons_self
      · split at h
        · split at h
          · obtain rfl := List.mem_singleton.mp h
            exact List.mem_cons_self
          · exact absurd h List.not_mem_nil
        · exact absurd h List.not_mem_nil
  | governance =>
    have hrow := hgov w h
    revert hrow
    cases w.key <;> simp [Key.isGovernanceRow, Key.writers]

/-- What a list of updates writes in the given categories, sorted by category. -/
def byCategory (height : Nat) (cats : List Category) (us : List BlockUpdates) : List RowWrite :=
  cats.flatMap fun c => us.flatMap (c.writes height ·)

/-- …and in the order of the updates. -/
def byExecution (height : Nat) (cats : List Category) (us : List BlockUpdates) : List RowWrite :=
  us.flatMap fun u => cats.flatMap (Category.writes height u)

section Lookup

variable {height : Nat} {us : List BlockUpdates} (hgov : ∀ u ∈ us, GovernanceRows u.governance)

include hgov

theorem lookup_category_eq_none {k : Key} {u : BlockUpdates} (hu : u ∈ us) {c : Category}
    (hc : c ∉ k.writers) : lookup (c.writes height u) k = none :=
  lookup_eq_none fun _ hw he => hc (he ▸ Category.mem_writers (hgov u hu) hw)

/-- Only a row's own categories matter for it. -/
theorem lookup_byCategory (cats : List Category) (k : Key) :
    lookup (byCategory height cats us) k =
      lookup (byCategory height (cats.filter (· ∈ k.writers)) us) k := by
  refine lookup_flatMap_filter fun c _ hc => ?_
  exact lookup_flatMap_eq_none fun u hu => lookup_category_eq_none hgov hu (by simpa using hc)

theorem lookup_byExecution (cats : List Category) (k : Key) :
    lookup (byExecution height cats us) k =
      lookup (byExecution height (cats.filter (· ∈ k.writers)) us) k := by
  refine lookup_flatMap_congr fun u hu => lookup_flatMap_filter fun c _ hc => ?_
  exact lookup_category_eq_none hgov hu (by simpa using hc)

end Lookup

/-- Both orders list a row's categories alike. -/
theorem filter_commitOrder (k : Key) : commitOrder.filter (· ∈ k.writers) = k.writers := by
  cases k <;> rfl

theorem filter_updateOrder (k : Key) : updateOrder.filter (· ∈ k.writers) = k.writers := by
  cases k <;> rfl

/-- A row that more than one category writes. -/
def Key.contested (k : Key) : Bool := 1 < k.writers.length

theorem byCategory_eq_byExecution {height : Nat} {cats : List Category} (hcats : cats.length ≤ 1)
    (us : List BlockUpdates) : byCategory height cats us = byExecution height cats us := by
  match cats with
  | [] => simp [byCategory, byExecution]
  | [c] => simp [byCategory, byExecution]
  | _ :: _ :: _ => simp at hcats

/-- For every attestor record, validator status and open dispute: the last write of the latest category
that writes it leaves what the last write in execution order leaves. -/
def OrderSafe (height : Nat) (us : List BlockUpdates) : Prop :=
  ∀ k : Key, k.contested = true →
    lookup (byCategory height k.writers us) k = lookup (byExecution height k.writers us) k

/-! ## The writes of a block -/

/-- What the seal may hand back: balances, stakes, statuses, the next set and the candidate list. -/
structure BlockUpdates.SealOnly (u : BlockUpdates) : Prop where
  evidence : u.evidence = none
  blsKey : u.blsKey = none
  operator : u.operator = {}
  assets : u.assets = []
  holderStates : u.holderStates = []
  assetRegistration : u.assetRegistration = none
  attestorRegistration : u.attestorRegistration = none
  attestorDeregistration : u.attestorDeregistration = none
  governance : u.governance = [] ∨ ∃ list : List Address, u.governance = [put .validatorCandidates list]

namespace Runtime

variable [Crypto]

theorem yields_sealEconomics (proposer : Address) (fees : Nat) (validators : List Address)
    (height : Nat) : (sealEconomics proposer fees validators height).Yields fun u =>
      u = { accounts := u.accounts, stakes := u.stakes,
            validatorStatuses := u.validatorStatuses } := by
  refine yields_after fun params => yields_after fun reward => ?_
  split
  · rfl
  · exact yields_after fun _ => yields_after fun _ => rfl

omit [Crypto] in
theorem yields_sealCandidates (written : List Address) {u : BlockUpdates} (honly : u.SealOnly) :
    (sealCandidates written u).Yields BlockUpdates.SealOnly := by
  refine yields_after fun before => yields_after fun after => ?_
  split
  · exact honly
  · exact { honly with governance := .inr ⟨after, rfl⟩ }

/-- **The seal stays in its categories.** -/
theorem yields_sealBlock (written : List Address) (proposer : Address) (fees : Nat)
    (validators : List Address) (height : Nat) :
    (sealBlock written proposer fees validators height).Yields BlockUpdates.SealOnly := by
  refine yields_bind.mpr ((yields_sealEconomics proposer fees validators height).mono
    fun u hu => yields_after fun boundary => yields_sealCandidates written ?_)
  rw [hu]
  exact ⟨rfl, rfl, rfl, rfl, rfl, rfl, rfl, rfl, .inl rfl⟩

end Runtime

theorem BlockUpdates.SealOnly.ordinaryRows {u : BlockUpdates} (h : u.SealOnly) :
    OrdinaryRows u.governance := by
  rcases h.governance with h | ⟨list, h⟩ <;> rw [h]
  · exact ordinaryRows_nil
  · exact ordinaryRows_of_all rfl

namespace Executed

/-- Every update of the block, in execution order. -/
def updates (ex : Executed) : List BlockUpdates := ex.seed :: ex.outcome.updates ++ [ex.sealed]

/-- **Executing in order**: the seed's writes, each action's, the seal's, and the next set. -/
def sequentialWrites (height : Nat) (ex : Executed) : List RowWrite :=
  ex.updates.flatMap fun u =>
    u.stateWrites ++ (u.validatorSet.map fun set => put (.validatorSet (height + 1)) set).toList

theorem sequentialWrites_eq (height : Nat) (ex : Executed) :
    ex.sequentialWrites height = byExecution height updateOrder ex.updates := by
  refine List.flatMap_congr fun u _ => ?_
  simp [BlockUpdates.stateWrites, updateOrder, Category.writes, StakeUpdates.writes,
    OperatorUpdates.writes]

end Executed

/-- What the seed may hand back. -/
def BlockUpdates.SeedOnly (u : BlockUpdates) : Prop :=
  u = { accounts := u.accounts, stakes := u.stakes, governance := u.governance }

/-- What the updates of a run are like. -/
structure Executed.Shaped (ex : Executed) : Prop where
  seed : ex.seed.SeedOnly
  governance : ∀ u ∈ ex.updates, GovernanceRows u.governance
  validatorSet : ∀ u ∈ ex.outcome.updates, u.validatorSet = none
  sealed : ex.sealed.SealOnly

/-! ## The orders of the executor as lists of categories -/

/-- What the categories of a whole block hold of one. -/
def Categories.part (height : Nat) (c : Categories) : Category → List RowWrite
  | .accounts => accountWrites c.accounts
  | .allocations => c.stakes.allocations.map fun p => ⟨.stake p.1.1 p.1.2, p.2⟩
  | .validatorIndex => c.stakes.validatorIndex.map validatorIndexWrite
  | .assets => assetBalanceWrites c.assets
  | .holderStates => holderStateWrites c.holderStates
  | .statuses => statusWrites c.statuses
  | .snapshot => c.snapshotWrites height
  | .evidence => c.evidenceWrites
  | .blsKeys => c.blsKeyWrites
  | .assetRegistrations => c.assetWrites
  | .attestorRegistrations => c.attestorRegistrations.map AttestorRegistration.write
  | .attestorDeregistrations => c.attestorDeregistrations.map attestorDeregistrationWrite
  | .authorization => c.operator.authorization.map fun p => ⟨.operator p.1, p.2⟩
  | .operatorIndex => c.operator.operatorIndex.map operatorIndexWrite
  | .governance => c.governance

/-- The order of the root preview. -/
def rootOrder : List Category :=
  [.accounts, .allocations, .validatorIndex, .assets, .holderStates, .statuses, .snapshot,
    .attestorRegistrations, .attestorDeregistrations, .assetRegistrations, .evidence, .blsKeys,
    .authorization, .operatorIndex, .governance]

/-- The order of the seal's view, which shows only some categories. -/
def viewOrder : List Category :=
  [.accounts, .allocations, .validatorIndex, .assets, .holderStates, .statuses,
    .attestorRegistrations, .attestorDeregistrations, .governance]

theorem Categories.rootWrites_eq (height : Nat) (c : Categories) :
    c.rootWrites height = rootOrder.flatMap (c.part height) := by
  simp [rootWrites, balanceWrites, attestorWrites, rootOrder, part, StakeUpdates.writes,
    OperatorUpdates.writes]

theorem Categories.viewWrites_eq (height : Nat) (c : Categories) :
    c.viewWrites = viewOrder.flatMap (c.part height) := by
  simp [viewWrites, balanceWrites, attestorWrites, viewOrder, part, StakeUpdates.writes]

/-- The index rows of assets aside, the commit is its order. -/
theorem Categories.lookup_commitWrites (height : Nat) (c : Categories) {index : List RowWrite}
    (hindex : ∀ w ∈ index, w.key.isStateKey = false) {k : Key} (hk : k.isStateKey = true) :
    lookup (c.commitWrites height index) k = lookup (commitOrder.flatMap (c.part height)) k := by
  have hnone : lookup index k = none := lookup_eq_none fun w hw he => by
    rw [← he, hindex w hw] at hk
    cases hk
  simp [commitWrites, balanceWrites, attestorWrites, commitOrder, part, StakeUpdates.writes,
    OperatorUpdates.writes, hnone]

theorem Categories.part_ofUpdates (height : Nat) (us : List BlockUpdates)
    (hset : ∀ u ∈ us, u.validatorSet = none) (cat : Category) :
    (Categories.ofUpdates us).part height cat = us.flatMap (cat.writes height ·) := by
  have hsome : ∀ {α : Type} (f : BlockUpdates → Option α) (g : α → RowWrite),
      (us.filterMap f).map g = us.flatMap fun u => ((f u).map g).toList := by
    intro α f g
    induction us with
    | nil => rfl
    | cons u us ih =>
      rw [List.flatMap_cons, ← ih fun v hv => hset v (List.mem_cons_of_mem u hv), List.filterMap_cons]
      cases f u <;> rfl
  have hmany : ∀ {α : Type} (f : BlockUpdates → Option α) (g : α → List RowWrite),
      (us.filterMap f).flatMap g = us.flatMap fun u => (f u).elim [] g := by
    intro α f g
    clear hsome
    induction us with
    | nil => rfl
    | cons u us ih =>
      rw [List.flatMap_cons, ← ih fun v hv => hset v (List.mem_cons_of_mem u hv), List.filterMap_cons]
      cases f u <;> rfl
  cases cat with
  | accounts | allocations | validatorIndex | assets | holderStates | statuses | authorization
  | operatorIndex => exact List.map_flatMap
  | evidence | blsKeys => exact hmany _ _
  | assetRegistrations | attestorRegistrations | attestorDeregistrations => exact hsome _ _
  | governance => rfl
  | snapshot =>
    refine (List.flatMap_eq_nil_iff.mpr fun u hu => ?_).symm
    rw [Category.writes, hset u hu]
    rfl

/-- **The categories of a block hold what its updates wrote.** -/
theorem Executed.Shaped.part_categories {ex : Executed} (h : ex.Shaped) (height : Nat)
    (cat : Category) : ex.categories.part height cat = ex.updates.flatMap (cat.writes height ·) := by
  have hset : ∀ u ∈ ex.seed :: ex.outcome.updates, u.validatorSet = none := by
    intro u hu
    rcases List.mem_cons.mp hu with rfl | hu
    · rw [h.seed]
    · exact h.validatorSet u hu
  have hpart := Categories.part_ofUpdates height _ hset cat
  rw [Executed.updates, List.cons_append, ← List.cons_append, List.flatMap_append, ← hpart,
    List.flatMap_singleton]
  have hs := h.sealed
  cases cat with
  | accounts | allocations | validatorIndex | assets | statuses => exact List.map_append
  | governance => rfl
  | holderStates =>
    rw [Category.writes, hs.holderStates]
    exact (List.append_nil _).symm
  | evidence =>
    rw [Category.writes, hs.evidence]
    exact (List.append_nil _).symm
  | blsKeys =>
    rw [Category.writes, hs.blsKey]
    exact (List.append_nil _).symm
  | assetRegistrations =>
    rw [Category.writes, hs.assetRegistration]
    exact (List.append_nil _).symm
  | attestorRegistrations =>
    rw [Category.writes, hs.attestorRegistration]
    exact (List.append_nil _).symm
  | attestorDeregistrations =>
    rw [Category.writes, hs.attestorDeregistration]
    exact (List.append_nil _).symm
  | authorization | operatorIndex =>
    rw [Category.writes, hs.operator]
    exact (List.append_nil _).symm
  | snapshot => rfl

/-- **The last write to a state row, as committed.** -/
theorem Executed.Shaped.lookup_commitWrites {ex : Executed} (h : ex.Shaped) (height : Nat)
    {index : List RowWrite} (hindex : ∀ w ∈ index, w.key.isStateKey = false) {k : Key}
    (hk : k.isStateKey = true) : lookup (ex.categories.commitWrites height index) k =
      lookup (byCategory height k.writers ex.updates) k := by
  have hparts : commitOrder.flatMap (ex.categories.part height) =
      byCategory height commitOrder ex.updates :=
    List.flatMap_congr fun cat _ => h.part_categories height cat
  rw [Categories.lookup_commitWrites height _ hindex hk, hparts, lookup_byCategory h.governance,
    filter_commitOrder]

/-- **…and as previewed for the state root**, whatever the preview's order. -/
theorem Executed.Shaped.lookup_order {ex : Executed} (h : ex.Shaped) (height : Nat)
    (order : List Category) (k : Key) : lookup (order.flatMap (ex.categories.part height)) k =
      lookup (byCategory height (order.filter (· ∈ k.writers)) ex.updates) k := by
  have hparts : order.flatMap (ex.categories.part height) = byCategory height order ex.updates :=
    List.flatMap_congr fun cat _ => h.part_categories height cat
  rw [hparts, lookup_byCategory h.governance]

/-- **…and in execution order.** -/
theorem Executed.Shaped.lookup_sequentialWrites {ex : Executed} (h : ex.Shaped) (height : Nat)
    (k : Key) : lookup (ex.sequentialWrites height) k =
      lookup (byExecution height k.writers ex.updates) k := by
  rw [Executed.sequentialWrites_eq, lookup_byExecution h.governance, filter_updateOrder]

section Ran

variable [Crypto] [Wire ActionPayload]

omit [Wire ActionPayload] in
theorem yields_resolveMaturedUnbonding (height : Nat) :
    (resolveMaturedUnbonding height : Read ExecutorError _).Yields fun u =>
      u.SeedOnly ∧ OrdinaryRows u.governance := by
  refine yields_bind.mpr (yields_bind.mpr (yields_of_forall fun row => ?_))
  cases row with
  | none => exact ⟨rfl, ordinaryRows_nil⟩
  | some pairs =>
    exact yields_after fun due => yields_after fun r => ⟨rfl, ordinaryRows_of_all rfl⟩

/-- Every landed update is what its action was dispatched to. -/
theorem LandsAll.updates_of {env : ExecEnv} {P : BlockUpdates → Prop}
    (hP : ∀ action, (env.dispatch action).Yields P) {s s' : ExecutionOutcome}
    {actions : List ChainAction} (h : LandsAll env s actions s') (hs : ∀ u ∈ s.updates, P u) :
    ∀ u ∈ s'.updates, P u := by
  induction h with
  | nil s => exact hs
  | @cons s s₁ s₂ action rest head tail ih =>
    obtain ⟨-, -, u, hu, rfl⟩ := head
    refine ih fun v hv => ?_
    rcases List.mem_append.mp hv with hv | hv
    · exact hs v hv
    · obtain rfl := List.mem_singleton.mp hv
      exact (hP action).ensures _ _ hu

variable [Zk] [StateTrie] [Decode] {db db₀ db' : Db} {env : NodeEnv} {params : ChainParams}
  {validators : List Address} {block : ChainBlock} {genesis : Bytes} {proposer : Address} {ex : Executed}

theorem yields_dispatch_governanceRows (ctx : DispatchCtx) (action : ChainAction) :
    (Runtime.dispatch ctx action).Yields fun u =>
      GovernanceRows u.governance ∧ u.validatorSet = none :=
  Runtime.yields_dispatchWith (fun _ _ hu => hu) Runtime.yields_governanceRows

theorem Ran.shaped (h : Ran db params validators block genesis proposer ex) : ex.Shaped := by
  have hseed := (yields_resolveMaturedUnbonding block.height).ensures _ _ h.seed
  have hsealed := (Runtime.yields_sealBlock _ _ _ _ _).ensures _ _ h.sealed
  have hactions := h.lands.updates_of (yields_dispatch_governanceRows _) (by simp)
  refine ⟨hseed.1, fun u hu => ?_, fun u hu => (hactions u hu).2, hsealed⟩
  simp only [Executed.updates, List.cons_append, List.mem_cons, List.mem_append,
    List.not_mem_nil, or_false] at hu
  rcases hu with rfl | hu | rfl
  · exact hseed.2.governanceRows
  · exact (hactions u hu).1
  · exact hsealed.ordinaryRows.governanceRows

/-- A key a block registers takes effect after it. -/
theorem Ran.effectiveHeight (h : Ran db params validators block genesis proposer ex)
    {r : BlsKeyRegistration} (hr : r ∈ ex.categories.blsKeys) : block.height < r.effectiveHeight := by
  have hactions := h.lands.updates_of
    (fun action => Runtime.yields_dispatchWith (fun _ _ hu => hu) Runtime.yields_blsKey) (by simp)
  obtain ⟨u, hu, hr⟩ := List.mem_filterMap.mp (show r ∈ ex.unsealed.blsKeys from hr)
  rcases List.mem_cons.mp hu with rfl | hu
  · rw [h.shaped.seed] at hr
    cases hr
  · exact hactions u hu r hr

omit [Crypto] [Wire ActionPayload] [Zk] [StateTrie] [Decode] in
/-- A write of the commit is an index row or belongs to one of the row's categories. -/
theorem Executed.Shaped.mem_commitWrites (h : ex.Shaped) {height : Nat} {index : List RowWrite}
    {w : RowWrite} (hw : w ∈ ex.categories.commitWrites height index) :
    w ∈ index ∨ ∃ cat ∈ w.key.writers, ∃ u ∈ ex.updates, w ∈ cat.writes height u := by
  by_cases hi : w ∈ index
  · exact .inl hi
  have hpart : ∃ cat, w ∈ ex.categories.part height cat := by
    have horder : w ∈ commitOrder.flatMap (ex.categories.part height) := by
      simp only [Categories.commitWrites, Categories.balanceWrites, Categories.attestorWrites,
        StakeUpdates.writes, OperatorUpdates.writes, List.mem_append] at hw
      simp only [commitOrder, List.flatMap_cons, List.flatMap_nil, List.mem_append, Categories.part]
      tauto
    obtain ⟨cat, -, hcat⟩ := List.mem_flatMap.mp horder
    exact ⟨cat, hcat⟩
  obtain ⟨cat, hcat⟩ := hpart
  rw [h.part_categories] at hcat
  obtain ⟨u, hu, hcat⟩ := List.mem_flatMap.mp hcat
  exact .inr ⟨cat, Category.mem_writers (h.governance u hu) hcat, u, hu, hcat⟩

/-! ## Commit order and execution order agree where it matters -/

omit [Crypto] [Wire ActionPayload] [Zk] [StateTrie] [Decode] in
theorem lookup_byCategory_isSome (height : Nat) (cats : List Category) (us : List BlockUpdates)
    (k : Key) : (lookup (byCategory height cats us) k).isSome =
      (lookup (byExecution height cats us) k).isSome := by
  have hmem : ∀ w, w ∈ byCategory height cats us ↔ w ∈ byExecution height cats us := by
    intro w
    simp only [byCategory, byExecution, List.mem_flatMap]
    constructor
    · rintro ⟨c, hc, u, hu, hw⟩
      exact ⟨u, hu, c, hc, hw⟩
    · rintro ⟨u, hu, c, hc, hw⟩
      exact ⟨c, hc, u, hu, hw⟩
  rw [Bool.eq_iff_iff, lookup_isSome_iff, lookup_isSome_iff]
  simp only [hmem]

/-- A committed state row holds the last write in commit order. -/
theorem Accepted.row_eq (h : Accepted env params block db db₀ ex db') {k : Key}
    (hk : k.isStateKey = true) : db'.state.rows k =
      (lookup (byCategory block.height k.writers ex.updates) k).getD (db₀.state.rows k) := by
  obtain ⟨genesis, proposer, hran⟩ := executeBlock_eq_ok.mp h.executed
  have hindex : ∀ w ∈ assetIndexWrites env.scan db₀.state.rows ex.categories.assetRegistrations
      ex.categories.assets, w.key.isStateKey = false :=
    fun w hw => isStateKey_of_mem_assetIndexWrites _ _ hw
  rw [h.rows_eq, apply_apply, acceptedBatch, hran.shaped.lookup_commitWrites block.height hindex hk]

/-- …so it is the row of the execution in order when the last writes are the same. -/
theorem Accepted.row_eq_sequential_iff (h : Accepted env params block db db₀ ex db') {k : Key}
    (hk : k.isStateKey = true) :
    db'.state.rows k = Writes.apply (ex.sequentialWrites block.height) db₀.state.rows k ↔
      lookup (byCategory block.height k.writers ex.updates) k =
        lookup (byExecution block.height k.writers ex.updates) k := by
  obtain ⟨genesis, proposer, hran⟩ := executeBlock_eq_ok.mp h.executed
  rw [h.row_eq hk, apply_apply, hran.shaped.lookup_sequentialWrites]
  have hsome := lookup_byCategory_isSome block.height k.writers ex.updates k
  generalize lookup (byCategory block.height k.writers ex.updates) k = a at hsome ⊢
  generalize lookup (byExecution block.height k.writers ex.updates) k = b at hsome ⊢
  cases a <;> cases b <;> simp_all

omit [Crypto] [Wire ActionPayload] [Zk] [StateTrie] [Decode] in
theorem Key.isStateKey_of_contested {k : Key} (h : k.contested = true) : k.isStateKey = true := by
  cases k <;> first | rfl | cases h

end Ran

/-! ## An attestor blocks itself and is removed -/

namespace BlockedThenRemoved

open PlainChain

attribute [local instance] crypto wire Plain.zk Plain.trie Plain.decoders

set_option maxRecDepth 20000

def attestor : Address := address 3

def record : AttestorRecord := { name := "a", registeredAt := 0, owners := [], threshold := 0 }

/-- The vote to remove the attestor has passed. -/
def removal : Proposal where
  id := 0
  proposer := proposer
  action := .removeAttestor attestor
  description := ""
  createdAt := 0
  votingEndsAt := 0
  yesPower := 10000
  noPower := 0
  status := .opened
  bond := 0

def before : Db := db [put (.attestorRecord attestor) record, put (.proposal 0) removal]

/-- The attestor blocks itself, and the vote is executed. -/
def removes : ChainBlock := block 1 [action 3 0 .blockAttestor, action 8 0 (.executeProposal 0)]

def recordIn (rows : Rows) : Option AttestorRecord := rows (.attestorRecord attestor)

theorem accepts_removes : (match acceptBlock env params removes before with
    | .ok db' => decide (recordIn db'.state.rows = some { record with selfBlocked := true })
    | .error _ => false) = true := by decide +kernel

theorem sequential_removes :
    (match executeBlock before params (before.getValidatorSetAt 1).keys removes with
    | .ok ex => decide (recordIn (Writes.apply (ex.sequentialWrites 1) before.state.rows) = none)
    | .error _ => false) = true := by decide +kernel

theorem accepts_empty : (acceptBlock env params (block 1 []) before).isOk = true := by decide +kernel

end BlockedThenRemoved

end Arxium
