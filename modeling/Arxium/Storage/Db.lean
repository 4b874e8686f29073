import Arxium.Storage.Trie
import Arxium.Storage.Lookups
import Arxium.Runtime.Payload
import Arxium.Evidence.Artifact
import Arxium.Lib.UndoLog

/-!
# Storage/Db — the chain database

The state rows with their tree, the blocks, and what is kept beside them: the history of voting keys,
the weight of each block, an undo record per block, and what the finality side writes (certificates,
locks, finality records, the final watermark).

A block is committed in one batch together with its undo record, the prior value of everything the
batch writes.  `revertTo` applies the records of the blocks above a height, newest first; it refuses to
go below the watermark.  `undo_write` is why it ends where it should.
-/

namespace Arxium

open Writes Crypto

/-- Voting keys under the heights they take effect at. -/
abbrev KeyHistory := Writes.State fun _ : Address × Nat => Bytes

/-- The rows that find a block: by its hash, or by the signature of an action in it. -/
inductive IndexKey
  | blockHash (hash : Bytes)
  | action (signature : String)
deriving DecidableEq

/-- Heights of blocks, by what they are looked up with. -/
abbrev BlockIndex := Writes.State fun _ : IndexKey => Nat

abbrev IndexWrite := Writes.Write fun _ : IndexKey => Nat

/-- What a block changes. -/
structure ChainState where
  rows : Rows
  trie : Contents
  blocks : Nat → Option ChainBlock
  tip : Option Nat
  blsHistory : KeyHistory
  weights : Nat → Option Nat
  index : BlockIndex := fun _ => none

/-- What the commit of a block writes. -/
structure Batch where
  writes : List RowWrite
  blsKeys : List BlsKeyRegistration
  weight : Nat
  block : ChainBlock
  index : List IndexWrite := []

/-- The index rows of a block. -/
def indexWrites [Crypto] [Wire ActionPayload] (b : ChainBlock) : List IndexWrite :=
  put (.blockHash b.hash) b.height ::
    b.actions.filterMap fun action => action.signature.map fun s => put (.action s) b.height

/-- The history rows of key registrations. -/
def historyWrites (keys : List BlsKeyRegistration) :
    List (Writes.Write fun _ : Address × Nat => Bytes) :=
  keys.map fun r => put (r.address, r.effectiveHeight) r.pubkey

/-- The prior values of everything a block wrote; the old tree stands for its root. -/
structure Undo where
  rows : List RowWrite
  trie : Contents
  height : Nat
  block : Option ChainBlock
  tip : Option Nat
  blsHistory : List (Writes.Write fun _ : Address × Nat => Bytes)
  weight : Option Nat
  index : List IndexWrite

/-- Puts the prior values back. -/
def Undo.apply (u : Undo) (s : ChainState) : ChainState where
  rows := Writes.apply u.rows s.rows
  trie := u.trie
  blocks := Function.update s.blocks u.height u.block
  tip := u.tip
  blsHistory := Writes.apply u.blsHistory s.blsHistory
  weights := Function.update s.weights u.height u.weight
  index := Writes.apply u.index s.index

namespace ChainState

/-- The prior values a batch is about to overwrite. -/
def undoOf (b : Batch) (s : ChainState) : Undo where
  rows := prior s.rows b.writes
  trie := s.trie
  height := b.block.height
  block := s.blocks b.block.height
  tip := s.tip
  blsHistory := prior s.blsHistory (historyWrites b.blsKeys)
  weight := s.weights b.block.height
  index := prior s.index b.index

variable [StateTrie]

def write (b : Batch) (s : ChainState) : ChainState where
  rows := Writes.apply b.writes s.rows
  trie := writeLeaves b.writes s.trie
  blocks := Function.update s.blocks b.block.height (some b.block)
  tip := some b.block.height
  blsHistory := Writes.apply (historyWrites b.blsKeys) s.blsHistory
  weights := Function.update s.weights b.block.height (some b.weight)
  index := Writes.apply b.index s.index

@[simp] theorem rows_write (b : Batch) (s : ChainState) :
    (s.write b).rows = Writes.apply b.writes s.rows := rfl

@[simp] theorem blocks_write (b : Batch) (s : ChainState) :
    (s.write b).blocks = Function.update s.blocks b.block.height (some b.block) := rfl

@[simp] theorem tip_write (b : Batch) (s : ChainState) : (s.write b).tip = some b.block.height := rfl

@[simp] theorem blsHistory_write (b : Batch) (s : ChainState) :
    (s.write b).blsHistory = Writes.apply (historyWrites b.blsKeys) s.blsHistory := rfl

/-- **The undo record of a batch takes it back.** -/
theorem undo_write (b : Batch) (s : ChainState) : (s.undoOf b).apply (s.write b) = s := by
  simp only [Undo.apply, undoOf, write, apply_prior, Function.update_idem, Function.update_eq_self]

/-- `compute_state_root`: the root as if the writes were committed. -/
def computeStateRoot (s : ChainState) (ws : List RowWrite) : String :=
  hashText (stateRoot (writeLeaves ws s.trie))

end ChainState

/-- The votes a node keeps over a restart, until their height is decided. -/
inductive VoteKey
  | precommit (height round : Nat) (hash : Bytes) (voter : Address)
  | roundTimeout (height round : Nat) (voter : Address)
deriving DecidableEq

def VoteKey.height : VoteKey → Nat
  | precommit height _ _ _ | roundTimeout height _ _ => height

/-- The database. -/
structure Db where
  state : ChainState
  undo : Nat → Option Undo
  /-- The certified block of a height. -/
  finality : Nat → Option Bytes
  /-- The block of the highest lock of a height. -/
  locks : Nat → Option Bytes
  certificates : List RoundCertificate
  watermark : Nat
  /-- Signatures of votes. -/
  votes : VoteKey → Option Bytes := fun _ => none
  /-- Who disagreed with a block, under its height. -/
  dissents : Nat → Address → Option Bytes := fun _ _ => none

namespace Db

/-! ## Reading -/

def tipHeight (db : Db) : Nat := db.state.tip.getD 0

def chainParams (db : Db) : ChainParams := Option.getD (α := ChainParams) (db.state.rows .chainParams) {}

/-- `get_validator_set_at`: the newest set at or below a height. -/
def getValidatorSetAt (db : Db) (height : Nat) : ValidatorSet :=
  (newestAt (fun k => (db.state.rows (.validatorSet k) : Option ValidatorSet)) height).getD
    (∅ : ValidatorSet)

/-- `get_bls_pubkey_at`: the newest key of an address at or below a height. -/
def getBlsPubkeyAt (db : Db) (a : Address) (height : Nat) : Option Bytes :=
  newestAt (fun k => db.state.blsHistory (a, k)) height

/-- `current_round`: one past the highest certified round. -/
def currentRound (db : Db) (height : Nat) : Nat :=
  ((db.certificates.filter (·.height = height)).map (·.round + 1)).foldl max 0

def getRoundCertificate (db : Db) (height round : Nat) : Option RoundCertificate :=
  db.certificates.find? fun c => c.height = height ∧ c.round = round

/-- The power that signs for a height, among validators with a registered key. -/
def keyedPower (db : Db) (set : ValidatorSet) : Nat :=
  signedPower set (set.keys.filter fun v => (db.state.rows (.blsKey v)).isSome)

section

variable [Crypto]

/-- `genesis_hash_bytes`. -/
def genesisHashBytes (db : Db) : Except StorageError Bytes :=
  match (db.state.rows .genesisHash : Option String) with
  | none => .error .missingGenesisHash
  | some text =>
    match decodeHex text with
    | some bytes => if isDigest bytes then .ok bytes else .error (.invalidRoot text)
    | none => .error (.invalidRoot text)

/-! ## The watermark -/

variable [Wire ActionPayload]

/-- Climbs over heights whose certified block is the one held. -/
def climb (certified : Nat → Option Bytes) (blocks : Nat → Option ChainBlock) : Nat → Nat → Nat
  | 0, w => w
  | fuel + 1, w =>
    if (blocks (w + 1)).any fun b => certified (w + 1) = some b.hash then
      climb certified blocks fuel (w + 1)
    else w

/-- `stage_watermark_advance`, over what is on disk before the batch; no block is above the tip, so the
climb ends there. -/
def advancedWatermark (db : Db) (certified : Nat → Option Bytes) : Nat :=
  climb certified db.state.blocks (db.tipHeight + 1) db.watermark

/-! ## Writing -/

/-- Writes a finality record. -/
def writeFinality (height : Nat) (hash : Bytes) (db : Db) : Db :=
  let certified := Function.update db.finality height (some hash)
  { db with finality := certified, watermark := db.advancedWatermark certified }

variable [StateTrie]

/-- `write_block_batches`. -/
def writeBlock (b : Batch) (db : Db) : Db :=
  { db with
    state := db.state.write b
    undo := Function.update db.undo b.block.height (some (db.state.undoOf b))
    watermark := db.advancedWatermark db.finality }

@[simp] theorem state_writeBlock (b : Batch) (db : Db) :
    (db.writeBlock b).state = db.state.write b := rfl

@[simp] theorem undo_writeBlock (b : Batch) (db : Db) : (db.writeBlock b).undo =
    Function.update db.undo b.block.height (some (db.state.undoOf b)) := rfl

@[simp] theorem tipHeight_writeBlock (b : Batch) (db : Db) :
    (db.writeBlock b).tipHeight = b.block.height := rfl

@[simp] theorem certificates_writeBlock (b : Batch) (db : Db) :
    (db.writeBlock b).certificates = db.certificates := rfl

/-- What is left when the blocks above a height are taken back: no locks, certificates and votes past the
height after it. -/
def unwound (height : Nat) (state : ChainState) (db : Db) : Db :=
  { db with
    state := state
    undo := fun h => if height < h ∧ h ≤ db.tipHeight then none else db.undo h
    locks := fun h => if h < height + 2 then db.locks h else none
    certificates := db.certificates.filter (·.height < height + 2)
    votes := fun k => if k.height < height + 2 then db.votes k else none }

/-- `revert_to`. -/
def revertTo (height : Nat) (db : Db) : Except StorageError Db :=
  if db.tipHeight ≤ height then .ok db
  else if height < db.watermark then .error (.revertBelowWatermark height db.watermark)
  else
    match db.state.blocks height with
    | none => .error (.missingBlock height)
    | some target =>
      match UndoLog.unwindTo Undo.apply db.undo (db.tipHeight - height) db.tipHeight db.state with
      | none => .error (.missingUndoRecord height)
      | some state =>
        let actual := hashText (stateRoot state.trie)
        if actual ≠ target.stateRoot then
          .error (.revertRootMismatch height target.stateRoot actual)
        else .ok (db.unwound height state)

omit [Crypto] [Wire ActionPayload] in
/-- A revert changes nothing, or unwinds the log to a height above the watermark. -/
theorem revertTo_eq_ok {height : Nat} {db db' : Db} (h : db.revertTo height = .ok db') :
    db' = db ∨ height < db.tipHeight ∧ db.watermark ≤ height ∧ ∃ s,
      UndoLog.unwindTo Undo.apply db.undo (db.tipHeight - height) db.tipHeight db.state = some s ∧
      db' = db.unwound height s := by
  unfold revertTo at h
  split at h
  · exact .inl (Except.ok.inj h).symm
  rename_i htip
  split at h
  · cases h
  rename_i hfloor
  split at h
  · cases h
  split at h
  · cases h
  rename_i s hs
  dsimp only at h
  split at h
  · cases h
  exact .inr ⟨Nat.lt_of_not_le htip, Nat.le_of_not_lt hfloor, s, hs, (Except.ok.inj h).symm⟩

end

end Db

end Arxium
