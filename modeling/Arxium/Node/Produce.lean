import Arxium.Executor.Order

/-!
# Node/Produce — building a block

`produceBlockReporting` is the other pipeline: it takes whatever actions are pending, applies the ones
that go through, seals, previews the state root, signs the header and commits.  Nobody checks its block
on the way in, so it has to come out as one `acceptBlock` would take.  What it shares with acceptance is
the action loop and the seal; its list of overlays for the root is its own, and so is where it takes the
round from.
-/

namespace Arxium

open ReadProg Writes Crypto

inductive ProduceError
  | storage (e : StorageError)
  | execution (e : ExecutorError)
  | blockSealed (e : Err)
  | panic
deriving DecidableEq, Repr

/-- `CARGO_PKG_VERSION` of the node. -/
def nodeVersion : String := "0.4.0"

theorem nodeVersion_fits : nodeVersion.utf8ByteSize ≤ maxBuildIdLen := by decide

/-- Who proposes, and what its key makes of a message. -/
structure ProposerKey where
  address : Address
  sign : Bytes → Bytes

/-- The key belongs to the address, and what it signs verifies. -/
structure ProposerKey.Laws [Crypto] (key : ProposerKey) (pubkey : Bytes) : Prop where
  pubkeyBytes : key.address.pubkeyBytes = .ok pubkey
  length_pubkey : pubkey.length = 32
  isKey : ed25519IsKey pubkey = true
  length_sign : ∀ m, (key.sign m).length = 64
  verifies : ∀ m, ed25519Verify pubkey m (key.sign m) = true

/-- `state_root_overlay` of a produced block. -/
def Categories.producedRootWrites (c : Categories) (height : Nat) : List RowWrite :=
  c.balanceWrites ++ c.snapshotWrites height ++ c.attestorWrites ++ c.assetWrites ++
    c.evidenceWrites ++ c.governance ++ c.blsKeyWrites ++ c.operator.writes

structure Produced where
  block : ChainBlock
  dropped : List ChainAction
  deferred : List ChainAction

section Produce

variable [Crypto] [Wire ActionPayload]

def Block.sign (b : ChainBlock) (genesis : Bytes) (key : ProposerKey) : ChainBlock :=
  { b with
    proposer := some key.address
    signature := some (hexEncode (key.sign (b.signingBytes genesis key.address))) }

variable [Zk] [StateTrie] [Decode]

/-- `on_block_sealed`, for a block somebody proposes. -/
def sealProduced (db : Db) (c : Categories) (fees : Nat) (validators : List Address) (height : Nat) :
    Option ProposerKey → Except ProduceError BlockUpdates
  | none => .ok {}
  | some key => ((Runtime.sealBlock c.writtenStatuses key.address fees validators height).run
      (overlay c.viewWrites db.state.rows.view)).mapError .blockSealed

/-- The header of the next block, before it is signed. -/
def produceHeader (db : Db) (parent : ChainBlock) (timestamp : Nat) (ex : Executed) : ChainBlock where
  height := db.tipHeight + 1
  parentHash := hashText parent.hash
  timestamp := timestamp
  actions := ex.outcome.applied
  txRoot := Arxium.txRoot ex.outcome.applied
  proposer := none
  signature := none
  parentStateRoot := parent.stateRoot
  stateRoot := db.state.computeStateRoot (ex.categories.producedRootWrites (db.tipHeight + 1))
  round := db.currentRound (db.tipHeight + 1)
  roundCertificate :=
    if db.currentRound (db.tipHeight + 1) = 0 then none
    else db.getRoundCertificate (db.tipHeight + 1) (db.currentRound (db.tipHeight + 1) - 1)
  buildId := nodeVersion

/-- Runs the pending actions on the tip. -/
def produceRun (db : Db) (parent : ChainBlock) (genesis : Bytes) (actions : List ChainAction)
    (timestamp : Nat) (proposer : Option ProposerKey) : Except ProduceError (ChainBlock × Executed) := do
  let height := db.tipHeight + 1
  let validators := (db.getValidatorSetAt height).keys
  let (seed, outcome) ←
    (runActions db genesis db.chainParams validators height timestamp actions).mapError .execution
  let sealed ← sealProduced db (.ofUpdates (seed :: outcome.updates)) outcome.feesCollected validators
    height proposer
  let ex : Executed := ⟨seed, outcome, sealed⟩
  let header := produceHeader db parent timestamp ex
  return (proposer.elim header (header.sign genesis), ex)

/-- `produce_block_reporting`, and the database it leaves.  The clock is moved past the parent. -/
def produceBlockReporting (env : NodeEnv) (db : Db) (actions : List ChainAction)
    (proposer : Option ProposerKey) : Except ProduceError (Produced × Db) := do
  let some parent := db.state.blocks db.tipHeight | .error .panic
  let genesis ← db.genesisHashBytes.mapError .storage
  let (block, ex) ←
    produceRun db parent genesis actions (max env.now (parent.timestamp + 1)) proposer
  return (⟨block, ex.outcome.dropped, ex.outcome.deferred⟩, db.writeBlock (acceptedBatch env db block ex))

/-! ## What production amounts to -/

/-- A block built on the tip of `db` by its proposer: its actions ran one after the other, nothing else
did, and the header says what they left. -/
structure Built (env : NodeEnv) (db : Db) (key : ProposerKey) (block : ChainBlock) (parent : ChainBlock)
    (genesis : Bytes) (ex : Executed) (db' : Db) : Prop where
  held : db.state.blocks db.tipHeight = some parent
  ran : Ran db db.chainParams (db.getValidatorSetAt (db.tipHeight + 1)).keys block genesis key.address ex
  header : block =
    (produceHeader db parent (max env.now (parent.timestamp + 1)) ex).sign genesis key
  written : db' = db.writeBlock (acceptedBatch env db block ex)

variable {env : NodeEnv} {db db' : Db} {key : ProposerKey} {actions : List ChainAction} {p : Produced}

omit [Zk] [Decode] in
/-- What was left out leaves no trace in header and commit. -/
theorem produceHeader_clean (parent : ChainBlock) (timestamp : Nat) (seed sealed : BlockUpdates)
    (outcome : ExecutionOutcome) :
    produceHeader db parent timestamp ⟨seed, outcome.clean, sealed⟩ =
      produceHeader db parent timestamp ⟨seed, outcome, sealed⟩ := rfl

omit [Zk] [StateTrie] [Decode] in
theorem acceptedBatch_clean (block : ChainBlock) (seed sealed : BlockUpdates)
    (outcome : ExecutionOutcome) :
    acceptedBatch env db block ⟨seed, outcome.clean, sealed⟩ =
      acceptedBatch env db block ⟨seed, outcome, sealed⟩ := rfl

/-- **A production is a run of the loop and a seal**, and reports what the loop left out. -/
theorem run_produce (h : produceBlockReporting env db actions (some key) = .ok (p, db')) :
    ∃ parent genesis seed outcome sealed, db.state.blocks db.tipHeight = some parent ∧
      db.genesisHashBytes = .ok genesis ∧
      (resolveMaturedUnbonding (db.tipHeight + 1) : Read ExecutorError _).run db.state.rows.view = .ok seed ∧
      executeActions (execEnv db genesis db.chainParams (db.getValidatorSetAt (db.tipHeight + 1)).keys
        (db.tipHeight + 1) (max env.now (parent.timestamp + 1))) { rows := seededRows db seed } actions =
          .ok outcome ∧
      sealProduced db (.ofUpdates (seed :: outcome.updates)) outcome.feesCollected
        (db.getValidatorSetAt (db.tipHeight + 1)).keys (db.tipHeight + 1) (some key) = .ok sealed ∧
      p = ⟨(produceHeader db parent (max env.now (parent.timestamp + 1)) ⟨seed, outcome, sealed⟩).sign
        genesis key, outcome.dropped, outcome.deferred⟩ ∧
      db' = db.writeBlock (acceptedBatch env db p.block ⟨seed, outcome, sealed⟩) := by
  unfold produceBlockReporting at h
  cases hparent : db.state.blocks db.tipHeight with
  | none =>
    rw [hparent] at h
    cases h
  | some parent =>
    rw [hparent] at h
    obtain ⟨genesis, hgenesis, h⟩ := bind_eq_ok.mp h
    obtain ⟨⟨block, ex⟩, hrun, h⟩ := bind_eq_ok.mp h
    obtain ⟨rfl, rfl⟩ := Prod.mk.inj (Except.ok.inj h)
    obtain ⟨⟨seed, outcome⟩, hactions, hrun⟩ := bind_eq_ok.mp hrun
    obtain ⟨sealed, hsealed, hrun⟩ := bind_eq_ok.mp hrun
    obtain ⟨rfl, rfl⟩ := Prod.mk.inj (Except.ok.inj hrun)
    obtain ⟨hseed, houtcome⟩ := runActions_eq_ok.mp (mapError_eq_ok.mp hactions)
    exact ⟨parent, genesis, seed, outcome, sealed, rfl, mapError_eq_ok.mp hgenesis, hseed, houtcome,
      hsealed, rfl, rfl⟩

/-- **Production builds a block.** -/
theorem built_of_produce
    (h : produceBlockReporting env db actions (some key) = .ok (p, db')) :
    ∃ parent genesis ex, Built env db key p.block parent genesis ex db' := by
  obtain ⟨parent, genesis, seed, outcome, sealed, hparent, hgenesis, hseed, houtcome, hsealed, rfl, rfl⟩ :=
    run_produce h
  obtain ⟨landed, happlied, hlands, -⟩ := landsAll_clean houtcome
  obtain rfl : outcome.applied = landed := happlied
  refine ⟨parent, genesis, ⟨seed, outcome.clean, sealed⟩, hparent,
    ⟨hgenesis, rfl, hseed, hlands, mapError_eq_ok.mp hsealed⟩, ?_, ?_⟩
  · rw [produceHeader_clean]
  · rw [acceptedBatch_clean]

/-! ## The two previews of the state root -/

/-- The order of a produced block's overlay. -/
def producedRootOrder : List Category :=
  [.accounts, .allocations, .validatorIndex, .assets, .holderStates, .statuses, .snapshot,
    .attestorRegistrations, .attestorDeregistrations, .assetRegistrations, .evidence, .governance,
    .blsKeys, .authorization, .operatorIndex]

omit [Crypto] [Wire ActionPayload] [Zk] [StateTrie] [Decode] in
theorem Categories.producedRootWrites_eq (height : Nat) (c : Categories) :
    c.producedRootWrites height = producedRootOrder.flatMap (c.part height) := by
  simp [producedRootWrites, balanceWrites, attestorWrites, producedRootOrder, part,
    StakeUpdates.writes, OperatorUpdates.writes]

omit [Crypto] [Wire ActionPayload] [Zk] [StateTrie] [Decode] in
/-- No row is written both by a governance category and by a key or operator category. -/
theorem filter_producedRootOrder (k : Key) :
    producedRootOrder.filter (· ∈ k.writers) = rootOrder.filter (· ∈ k.writers) := by
  cases k <;> rfl

omit [Crypto] [Wire ActionPayload] [Zk] [StateTrie] [Decode] in
theorem Executed.Shaped.lookup_producedRootWrites {ex : Executed} (h : ex.Shaped) (height : Nat)
    (k : Key) : lookup (ex.categories.producedRootWrites height) k =
      lookup (ex.categories.rootWrites height) k := by
  rw [Categories.producedRootWrites_eq, Categories.rootWrites_eq, h.lookup_order, h.lookup_order,
    filter_producedRootOrder]

omit [Crypto] [Wire ActionPayload] [Zk] [Decode] in
/-- **Both previews give one root**, as long as the written keys are at different paths. -/
theorem Executed.Shaped.producedRoot_eq {ex : Executed} (h : ex.Shaped) (height : Nat) (s : ChainState)
    (hpaths : Set.InjOn StateTrie.keyPath {k | ∃ w ∈ ex.categories.rootWrites height, w.key = k}) :
    s.computeStateRoot (ex.categories.producedRootWrites height) =
      s.computeStateRoot (ex.categories.rootWrites height) := by
  have hperm : ∀ w, w ∈ ex.categories.producedRootWrites height →
      w ∈ ex.categories.rootWrites height := by
    intro w hw
    simp only [Categories.producedRootWrites, Categories.rootWrites, List.mem_append] at hw ⊢
    tauto
  rw [ChainState.computeStateRoot, ChainState.computeStateRoot,
    writeLeaves_congr hpaths (fun w hw => ⟨w, hperm w hw, rfl⟩) (fun w hw => ⟨w, hw, rfl⟩)
      fun k _ => h.lookup_producedRootWrites height k]

end Produce

end Arxium
