import Arxium.Storage.Keys

/-!
# Storage/Updates — what an action asks to be written

A handler reads rows and returns a `BlockUpdates`: one component per category of row (balances,
validator statuses, stakes, …).  A category that is a map in the source is kept here as the list of
its insertions in order, so a later insertion for the same key replaces an earlier one, exactly as
in the map.

Three consumers turn a `BlockUpdates` into writes, each in its own category order: the overlay the
executor reads through (`viewWrites`), the seal's overlay (`sealWrites`), and the dispute replay
(`stateWrites`).  The database commit orders whole blocks of them by category; it is in
`Executor/Accept`.
-/

namespace Arxium

open Writes

/-- A map of updates, as its insertions in order. -/
abbrev Updates (α β : Type) := List (α × β)

/-- The current entry of a key: its last insertion. -/
def Updates.get? {α β : Type} [DecidableEq α] : Updates α β → α → Option β
  | [], _ => none
  | (a', b) :: l, a => (Updates.get? l a).or (if a' = a then some b else none)

abbrev AccountUpdates := Updates Address AccountEntry

/-- `none` deletes the row. -/
abbrev ValidatorStatusUpdates := Updates Address (Option ValidatorStatus)

structure StakeUpdates where
  allocations : Updates (Address × Address) (Option StakeAllocation) := []
  validatorIndex : Updates Address (List Address) := []

structure OperatorUpdates where
  authorization : Updates Address (Option Address) := []
  operatorIndex : Updates Address (List Address) := []

abbrev AssetBalanceUpdates := Updates (AssetRef × Address) Nat

abbrev HolderStateUpdates := Updates (AssetRef × Address) HolderState

/-- A fault that was acted on, and for an execution fault the disputed header. -/
structure EvidenceMarker where
  height : Nat
  proposer : Address
  disputed : Option Bytes
  challenger : Option Address
  cause : Option DisputeCause

structure BlsKeyRegistration where
  address : Address
  pubkey : Bytes
  effectiveHeight : Nat
  previousPubkey : Option Bytes

structure AttestorRegistration where
  attestor : Address
  record : AttestorRecord

/-- Raw rows, written by governance and by the indexes the staking circuit keeps. -/
abbrev GovernanceUpdates := List RowWrite

structure BlockUpdates where
  accounts : AccountUpdates := []
  validatorStatuses : ValidatorStatusUpdates := []
  validatorSet : Option ValidatorSet := none
  stakes : StakeUpdates := {}
  evidence : Option EvidenceMarker := none
  blsKey : Option BlsKeyRegistration := none
  operator : OperatorUpdates := {}
  assets : AssetBalanceUpdates := []
  holderStates : HolderStateUpdates := []
  assetRegistration : Option Asset := none
  attestorRegistration : Option AttestorRegistration := none
  attestorDeregistration : Option Address := none
  governance : GovernanceUpdates := []

instance : Inhabited BlockUpdates := ⟨{}⟩

/-! ## The writes of each category -/

/-- **The writes of a map leave its current entries.** -/
theorem lookup_entries {α β : Type} [DecidableEq α] (key : α → Key)
    (value : (a : α) → β → Option (Value (key a))) (hkey : Function.Injective key)
    {write : α × β → RowWrite} (hwrite : ∀ p, write p = ⟨key p.1, value p.1 p.2⟩) (u : Updates α β)
    (a : α) : lookup (u.map write) (key a) = (u.get? a).map (value a) := by
  induction u with
  | nil => rfl
  | cons p u ih =>
    rw [List.map_cons, lookup_cons, ih, hwrite, Updates.get?, Option.map_or]
    congr 1
    by_cases hp : p.1 = a
    · obtain ⟨_, b⟩ := p
      obtain rfl := hp
      rw [if_pos rfl]
      exact Write.effect_self _
    · rw [Write.effect_of_ne fun he => hp (hkey he), if_neg hp]
      rfl

def accountWrites (u : AccountUpdates) : List RowWrite :=
  u.map fun p => put (.account p.1) p.2

def statusWrites (u : ValidatorStatusUpdates) : List RowWrite :=
  u.map fun p => ⟨.validatorStatus p.1, p.2⟩

/-- A list row that is deleted when it becomes empty. -/
def listWrite (k : Key) (h : Value k = List Address) (l : List Address) : RowWrite :=
  if l.isEmpty then del k else put k (h ▸ l)

theorem listWrite_eq (k : Key) (h : Value k = List Address) (l : List Address) :
    listWrite k h l = ⟨k, if l.isEmpty then none else some (h ▸ l)⟩ := by
  unfold listWrite
  split <;> rfl

theorem listWrite_key (k : Key) (h : Value k = List Address) (l : List Address) :
    (listWrite k h l).key = k := by rw [listWrite_eq]

def validatorIndexWrite (p : Address × List Address) : RowWrite :=
  listWrite (.stakeByValidator p.1) rfl p.2

theorem validatorIndexWrite_eq (p : Address × List Address) : validatorIndexWrite p =
    ⟨.stakeByValidator p.1, (if p.2.isEmpty then none else some p.2 : Option (List Address))⟩ :=
  listWrite_eq _ rfl p.2

def operatorIndexWrite (p : Address × List Address) : RowWrite :=
  listWrite (.operatorIndex p.1) rfl p.2

theorem operatorIndexWrite_eq (p : Address × List Address) : operatorIndexWrite p =
    ⟨.operatorIndex p.1, (if p.2.isEmpty then none else some p.2 : Option (List Address))⟩ :=
  listWrite_eq _ rfl p.2

def StakeUpdates.writes (u : StakeUpdates) : List RowWrite :=
  (u.allocations.map fun p => ⟨.stake p.1.1 p.1.2, p.2⟩) ++
    u.validatorIndex.map validatorIndexWrite

def OperatorUpdates.writes (u : OperatorUpdates) : List RowWrite :=
  (u.authorization.map fun p => ⟨.operator p.1, p.2⟩) ++
    u.operatorIndex.map operatorIndexWrite

def assetBalanceWrites (u : AssetBalanceUpdates) : List RowWrite :=
  u.map fun p => put (.assetBalance p.1.1 p.1.2) p.2

def holderStateWrites (u : HolderStateUpdates) : List RowWrite :=
  u.map fun p => put (.assetHolderState p.1.1 p.1.2) p.2

/-- The marker row, and for a disputed header its two rows. -/
def EvidenceMarker.writes (m : EvidenceMarker) : List RowWrite :=
  put (.evidenceMarker m.height m.proposer) () ::
    match m.disputed with
    | none => []
    | some header =>
      [put (.disputedBlock m.height header) (),
        put (.disputeOpen m.height header)
          (⟨m.proposer, m.challenger.getD m.proposer, m.cause.getD .bug⟩ : OpenDispute)]

/-- The key, its owner row, and the owner row of the key it replaces. -/
def BlsKeyRegistration.writes (r : BlsKeyRegistration) : List RowWrite :=
  [put (.blsKey r.address) r.pubkey, put (.blsPubkeyOwner r.pubkey) r.address] ++
    match r.previousPubkey with
    | some previous => if previous ≠ r.pubkey then [del (.blsPubkeyOwner previous)] else []
    | none => []

def assetWrite (a : Asset) : RowWrite := put (.asset a.assetRef) a

def AttestorRegistration.write (r : AttestorRegistration) : RowWrite :=
  put (.attestorRecord r.attestor) r.record

def attestorDeregistrationWrite (a : Address) : RowWrite := del (.attestorRecord a)

namespace BlockUpdates

/-- What the executor folds into its view after an action, in its order.  Evidence markers are not
part of it. -/
def viewWrites (u : BlockUpdates) : List RowWrite :=
  accountWrites u.accounts ++ statusWrites u.validatorStatuses ++ u.stakes.writes ++
    u.blsKey.elim [] BlsKeyRegistration.writes ++ u.operator.writes ++
    assetBalanceWrites u.assets ++ holderStateWrites u.holderStates ++
    (u.assetRegistration.map assetWrite).toList ++
    (u.attestorRegistration.map AttestorRegistration.write).toList ++
    (u.attestorDeregistration.map attestorDeregistrationWrite).toList ++ u.governance

/-- What the seal folds into its own overlay. -/
def sealWrites (u : BlockUpdates) : List RowWrite :=
  accountWrites u.accounts ++ u.stakes.writes ++ statusWrites u.validatorStatuses

/-- Everything an action writes, in the order a dispute replay applies it. -/
def stateWrites (u : BlockUpdates) : List RowWrite :=
  accountWrites u.accounts ++ statusWrites u.validatorStatuses ++ u.stakes.writes ++
    u.operator.writes ++ assetBalanceWrites u.assets ++ holderStateWrites u.holderStates ++
    u.evidence.elim [] EvidenceMarker.writes ++ u.blsKey.elim [] BlsKeyRegistration.writes ++
    (u.assetRegistration.map assetWrite).toList ++
    (u.attestorRegistration.map AttestorRegistration.write).toList ++
    (u.attestorDeregistration.map attestorDeregistrationWrite).toList ++ u.governance

end BlockUpdates

end Arxium
