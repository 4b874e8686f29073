import Arxium.Runtime.Dispatch
import Arxium.Storage.Db

/-!
# Executor/Categories — a block's updates, sorted by category

The executor does not keep what each action wrote.  It extends one map per category of update over
the whole block — balances, stakes, statuses, registrations, raw governance rows — and three readers
then fold the categories in three fixed orders: the view the seal reads through, the preview of the
state root, and the commit.  Which action wrote a row plays no role there; for a row that two
categories write, the later *category* wins.
-/

namespace Arxium

open Writes

structure Categories where
  accounts : AccountUpdates
  stakes : StakeUpdates
  assets : AssetBalanceUpdates
  holderStates : HolderStateUpdates
  statuses : ValidatorStatusUpdates
  /-- The set for the next height. -/
  snapshot : Option ValidatorSet
  evidence : List EvidenceMarker
  blsKeys : List BlsKeyRegistration
  assetRegistrations : List Asset
  attestorRegistrations : List AttestorRegistration
  attestorDeregistrations : List Address
  operator : OperatorUpdates
  governance : GovernanceUpdates

namespace Categories

/-- The categories of the seed and the actions. -/
def ofUpdates (us : List BlockUpdates) : Categories where
  accounts := us.flatMap (·.accounts)
  stakes := ⟨us.flatMap (·.stakes.allocations), us.flatMap (·.stakes.validatorIndex)⟩
  assets := us.flatMap (·.assets)
  holderStates := us.flatMap (·.holderStates)
  statuses := us.flatMap (·.validatorStatuses)
  snapshot := none
  evidence := us.filterMap (·.evidence)
  blsKeys := us.filterMap (·.blsKey)
  assetRegistrations := us.filterMap (·.assetRegistration)
  attestorRegistrations := us.filterMap (·.attestorRegistration)
  attestorDeregistrations := us.filterMap (·.attestorDeregistration)
  operator := ⟨us.flatMap (·.operator.authorization), us.flatMap (·.operator.operatorIndex)⟩
  governance := us.flatMap (·.governance)

/-- …and what the seal adds to them. -/
def addSeal (c : Categories) (u : BlockUpdates) : Categories :=
  { c with
    governance := c.governance ++ u.governance
    accounts := c.accounts ++ u.accounts
    stakes := ⟨c.stakes.allocations ++ u.stakes.allocations,
      c.stakes.validatorIndex ++ u.stakes.validatorIndex⟩
    assets := c.assets ++ u.assets
    statuses := c.statuses ++ u.validatorStatuses
    snapshot := u.validatorSet }

/-! ## The three orders -/

def snapshotWrites (c : Categories) (height : Nat) : List RowWrite :=
  (c.snapshot.map fun set => put (.validatorSet (height + 1)) set).toList

def evidenceWrites (c : Categories) : List RowWrite := c.evidence.flatMap EvidenceMarker.writes

def blsKeyWrites (c : Categories) : List RowWrite := c.blsKeys.flatMap BlsKeyRegistration.writes

def assetWrites (c : Categories) : List RowWrite := c.assetRegistrations.map assetWrite

def attestorWrites (c : Categories) : List RowWrite :=
  c.attestorRegistrations.map AttestorRegistration.write ++
    c.attestorDeregistrations.map attestorDeregistrationWrite

/-- The categories every order starts with. -/
def balanceWrites (c : Categories) : List RowWrite :=
  accountWrites c.accounts ++ c.stakes.writes ++ assetBalanceWrites c.assets ++
    holderStateWrites c.holderStates ++ statusWrites c.statuses

/-- `seal_view`. -/
def viewWrites (c : Categories) : List RowWrite :=
  c.balanceWrites ++ c.attestorWrites ++ c.governance

/-- `state_root_overlay` of an accepted block. -/
def rootWrites (c : Categories) (height : Nat) : List RowWrite :=
  c.balanceWrites ++ c.snapshotWrites height ++ c.attestorWrites ++ c.assetWrites ++
    c.evidenceWrites ++ c.blsKeyWrites ++ c.operator.writes ++ c.governance

/-- `writables` of an accepted block, with the index rows of its assets. -/
def commitWrites (c : Categories) (height : Nat) (index : List RowWrite) : List RowWrite :=
  c.balanceWrites ++ index ++ c.snapshotWrites height ++ c.evidenceWrites ++ c.blsKeyWrites ++
    c.assetWrites ++ c.attestorWrites ++ c.operator.writes ++ c.governance

/-- `written_validator_statuses`: the addresses whose status row the view holds a write for, the
deletions of governance included.  The source lists them in no particular order. -/
def writtenStatuses [Crypto] (c : Categories) : List Address :=
  c.viewWrites.filterMap fun w =>
    match w.key with
    | .validatorStatus a => if (Address.parse a.text).isOk then some a else none
    | _ => none

end Categories

/-! ## Index rows

Which assets there are, what an account holds and who holds an asset: rows for readers, outside the
state tree. -/

def Key.isIndexRow : Key → Bool
  | .assetHolders _ | .assetIndex | .accountAssets _ => true
  | _ => false

/-- Appends what is not there yet. -/
def addMissing {α : Type} [DecidableEq α] (held new : List α) : List α :=
  new.foldl (fun l a => if a ∈ l then l else l ++ [a]) held

/-- An index row is written when it changed. -/
def writeIf (changed : Bool) (w : RowWrite) : List RowWrite := if changed then [w] else []

theorem eq_of_mem_writeIf {changed : Bool} {w w' : RowWrite} (h : w' ∈ writeIf changed w) : w' = w := by
  cases changed with
  | true => exact List.mem_singleton.mp h
  | false => exact absurd h List.not_mem_nil

section Index

variable (scan : Rows → AssetRef → List Address) (rows : Rows)

def registryWrites (registrations : List Asset) : List RowWrite :=
  let before : List AssetRef := (rows .assetIndex).getD []
  let after := addMissing before (registrations.map (·.assetRef))
  writeIf (after.length ≠ before.length) (put .assetIndex after)

def ownerWrites (entries : List ((AssetRef × Address) × Nat)) (owner : Address) : List RowWrite :=
  let before : List AssetRef := (rows (.accountAssets owner)).getD []
  let after := addMissing before ((entries.filter (·.1.2 = owner)).map (·.1.1))
  writeIf (after.length ≠ before.length) (put (.accountAssets owner) after)

/-- A holder is listed while its balance is not zero. -/
def updateHolder (holders : List Address) (entry : Address × Nat) : List Address :=
  if entry.1 ∈ holders then if entry.2 = 0 then holders.erase entry.1 else holders
  else if entry.2 = 0 then holders else holders ++ [entry.1]

/-- An asset without an index row gets the scanned one, changed or not. -/
def holderWrites (entries : List ((AssetRef × Address) × Nat)) (asset : AssetRef) :
    List RowWrite :=
  let indexed : Option (List Address) := rows (.assetHolders asset)
  let after := ((entries.filter (·.1.1 = asset)).map fun e => (e.1.2, e.2)).foldl updateHolder
    (indexed.getD (scan rows asset))
  writeIf (indexed ≠ some after) (put (.assetHolders asset) after)

/-- `asset_index_updates`. -/
def assetIndexWrites (registrations : List Asset) (balances : AssetBalanceUpdates) :
    List RowWrite :=
  let entries := balances.entries Runtime.assetKeyLe
  let owners := (entries.map (·.1.2)).dedup.insertionSort (· ≤ ·)
  let assets := (entries.map (·.1.1)).dedup.insertionSort (· ≤ ·)
  registryWrites rows registrations ++ owners.flatMap (ownerWrites rows entries) ++
    assets.flatMap (holderWrites scan rows entries)

theorem isIndexRow_of_mem_assetIndexWrites {registrations : List Asset}
    {balances : AssetBalanceUpdates} {w : RowWrite}
    (h : w ∈ assetIndexWrites scan rows registrations balances) : w.key.isIndexRow = true := by
  simp only [assetIndexWrites, List.mem_append, List.mem_flatMap] at h
  rcases h with (h | ⟨owner, -, h⟩) | ⟨asset, -, h⟩
  all_goals
    obtain rfl := eq_of_mem_writeIf h
    rfl

/-- None of them is a state row. -/
theorem isStateKey_of_mem_assetIndexWrites {registrations : List Asset}
    {balances : AssetBalanceUpdates} {w : RowWrite}
    (h : w ∈ assetIndexWrites scan rows registrations balances) : w.key.isStateKey = false := by
  have hrow := isIndexRow_of_mem_assetIndexWrites scan rows h
  revert hrow
  cases w.key <;> simp [Key.isIndexRow, Key.isStateKey]

end Index

end Arxium
