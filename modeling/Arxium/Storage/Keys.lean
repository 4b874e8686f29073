import Arxium.Primitives.Block
import Arxium.Lib.ReadProg

/-!
# Storage/Keys — the typed rows of the database

One constructor of `Key` per key family of the source, with the type of the value its row holds.
The encoded keys of different families have different prefixes, and the addresses and references
inside one are separated by a character neither contains, so two rows are the same row exactly when
their typed keys are equal.
-/

namespace Arxium

open ReadProg Writes

inductive Key
  | account (a : Address)
  | stake (master validator : Address)
  | stakeByValidator (validator : Address)
  | unbondingDue (height : Nat)
  | validatorCandidates
  | blsKey (a : Address)
  | blsPubkeyOwner (pubkey : Bytes)
  | operator (validator : Address)
  | operatorIndex (operator : Address)
  | validatorSet (effectiveHeight : Nat)
  | asset (r : AssetRef)
  | assetBalance (r : AssetRef) (owner : Address)
  | assetHolderState (r : AssetRef) (holder : Address)
  | assetHolders (r : AssetRef)
  | assetIndex
  | accountAssets (a : Address)
  | attestorRecord (a : Address)
  | attestorName (skeleton : String)
  | evidenceMarker (height : Nat) (proposer : Address)
  | disputedBlock (height : Nat) (header : Bytes)
  | disputeOpen (height : Nat) (header : Bytes)
  | genesisHash
  | validatorStatus (a : Address)
  | chainParams
  | proposal (id : Nat)
  | vote (proposal : Nat) (voter : Address)
  | nextProposalId
deriving DecidableEq, Repr

/-- The type of the value a row holds. -/
def Value : Key → Type
  | .account _ => AccountEntry
  | .stake _ _ => StakeAllocation
  | .stakeByValidator _ => List Address
  | .unbondingDue _ => List (Address × Address)
  | .validatorCandidates => List Address
  | .blsKey _ => Bytes
  | .blsPubkeyOwner _ => Address
  | .operator _ => Address
  | .operatorIndex _ => List Address
  | .validatorSet _ => ValidatorSet
  | .asset _ => Asset
  | .assetBalance _ _ => Nat
  | .assetHolderState _ _ => HolderState
  | .assetHolders _ => List Address
  | .assetIndex => List AssetRef
  | .accountAssets _ => List AssetRef
  | .attestorRecord _ => AttestorRecord
  | .attestorName _ => Address
  | .evidenceMarker _ _ => Unit
  | .disputedBlock _ _ => Unit
  | .disputeOpen _ _ => OpenDispute
  | .genesisHash => String
  | .validatorStatus _ => ValidatorStatus
  | .chainParams => ChainParams
  | .proposal _ => Proposal
  | .vote _ _ => Bool
  | .nextProposalId => Nat

/-- `is_state_key`: the rows under the state root.  The derived indexes and the genesis hash live in
the meta column family and are not. -/
def Key.isStateKey : Key → Bool
  | .assetHolders _ | .assetIndex | .accountAssets _ | .genesisHash => false
  | _ => true

/-- The rows of a database. -/
abbrev Rows := Writes.State Value

/-- A write to one row. -/
abbrev RowWrite := Writes.Write Value

/-- The errors of the storage layer. -/
inductive StorageError
  | decode
  | corruptedMeta
  | missingGenesisHash
  | unprovenRead
  | invalidRoot (root : String)
  | missingBlock (height : Nat)
  | missingUndoRecord (height : Nat)
  | revertBelowWatermark (height watermark : Nat)
  | revertRootMismatch (height : Nat) (expected actual : String)
deriving DecidableEq, Repr

/-- What a reader of the state sees. -/
abbrev KvView := ReadProg.View Value StorageError

/-- A computation that reads rows one at a time and ends in `α` or in an error `ε`. -/
abbrev Read (ε α : Type) := Prog Value StorageError ε α

export Prog (bind_ok run_rest run_rest₂ run_rest₃ run_next run_bind run_ite run_ret run_ensure
  run_attempt ensure_ok orFail_ok pure_ok₂ pure_ok₃ pure_eq ensures_bind ensures_ret ensures_ite ensures_foldlM yields_bind)

/-! ## Reading rows

A function of the source that only fails on storage errors is generic in the error type, as `?`
converts its error to whatever the caller returns.  An arithmetic overflow, underflow or `expect`
is a panic: no handler catches it. -/

/-- The error types a read can end in. -/
class Errors (ε : Type) where
  storage : StorageError → ε
  panic : ε

section Reading

variable {ε : Type} [Errors ε]

def panic {α : Type} : Read ε α := .fail Errors.panic

def getRow (k : Key) : Read ε (Option (Value k)) := .read Errors.storage k

/-- An account that was never written is the default one. -/
def getAccount (a : Address) : Read ε AccountEntry := do return (← getRow (.account a)).getD {}

def getParams : Read ε ChainParams := do return (← getRow .chainParams).getD {}

/-- Who stakes to a validator. -/
def getMasters (validator : Address) : Read ε (List Address) := do
  return (← getRow (.stakeByValidator validator)).getD []

def getAllocation (master validator : Address) : Read ε (Option StakeAllocation) :=
  getRow (.stake master validator)

def getStatus (validator : Address) : Read ε (Option ValidatorStatus) :=
  getRow (.validatorStatus validator)

/-- `+` on `u128`. -/
def addOrPanic (a b : Nat) : Read ε Nat := if a + b ≤ u128Max then .ret (a + b) else panic

/-- `+` on `u64`. -/
def addOrPanic64 (a b : Nat) : Read ε Nat := if a + b ≤ u64Max then .ret (a + b) else panic

/-- `-` on an unsigned type. -/
def subOrPanic (a b : Nat) : Read ε Nat := if b ≤ a then .ret (a - b) else panic

/-- `*` on `u128`. -/
def mulOrPanic (a b : Nat) : Read ε Nat := if a * b ≤ u128Max then .ret (a * b) else panic

variable {v : KvView}

@[simp] theorem ensures_getRow {k : Key} {Q : Option (Value k) → Prop} :
    (getRow k : Read ε _).Ensures v Q ↔ ∀ x, v k = .ok x → Q x := Prog.ensures_read

theorem run_getRow_eq_ok {k : Key} {x : Option (Value k)} :
    (getRow k : Read ε _).run v = .ok x ↔ v k = .ok x := by
  simp only [getRow, Prog.read, Prog.run_get]
  cases v k <;> simp

@[simp] theorem ensures_panic {α : Type} {Q : α → Prop} : (panic : Read ε α).Ensures v Q ↔ True :=
  Prog.ensures_fail _

end Reading

/-- A database whose reads succeed. -/
def Rows.view (s : Rows) : KvView := fun k => .ok (s k)

@[simp] theorem Rows.view_apply (s : Rows) (k : Key) : s.view k = .ok (s k) := rfl

/-- A view with writes on top: reads of written rows see the last write. -/
def overlay (ws : List RowWrite) (v : KvView) : KvView := fun k =>
  match lookup ws k with
  | some x => .ok x
  | none => v k

/-- **Writing on top of a database view is viewing the written database.** -/
theorem overlay_view (ws : List RowWrite) (s : Rows) :
    overlay ws s.view = Rows.view (Writes.apply ws s) := by
  funext k
  change _ = Except.ok (Writes.apply ws s k)
  rw [overlay, Rows.view_apply, Writes.apply_apply]
  cases lookup ws k <;> rfl

/-- A program that reads through its own staged writes. -/
def staged {ε α : Type} (ws : List RowWrite) : Read ε α → Read ε α
  | .ret a => .ret a
  | .fail e => .fail e
  | .get k next =>
    match lookup ws k with
    | some x => staged ws (next (.ok x))
    | none => .get k fun r => staged ws (next r)

@[simp] theorem run_staged {ε α : Type} (ws : List RowWrite) (p : Read ε α) (v : KvView) :
    (staged ws p).run v = p.run (overlay ws v) := by
  induction p with
  | ret a => rfl
  | fail e => rfl
  | get k next ih =>
    rw [staged, Prog.run_get, overlay]
    cases lookup ws k with
    | some x => exact ih (.ok x)
    | none => exact ih (v k)

end Arxium
