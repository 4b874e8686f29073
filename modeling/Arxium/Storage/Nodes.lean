import Arxium.Storage.Trie
import Arxium.Runtime.Plain
import Arxium.Lib.ShortcutTrie

/-!
# Storage/Nodes — the stored tree of a database, over every commit it ever made

Below the typed rows the database is a map from byte keys to byte values in column families.  The rows of
some families are state rows; with each batch the database updates the tree over them, whose nodes are kept
under their hashes (`Lib/ShortcutTrie`) and never removed, and moves the pointer to its root.  Unwinding
puts rows and pointer back and leaves the nodes.

* `Run.commits` — no commit fails, and its root is the one a preview gave and `root_of` gives.
* `Run.proves` — every root the database ever had can be proved against.
-/

namespace Arxium

open SparseMerkle

/-! ## Raw keys -/

/-- The column families. -/
inductive ColumnFamily
  | metadata
  | blocks
  | accounts
  | validators
  | merkle
  | assets
  | attestors
  | evidence
  | governance
deriving DecidableEq, Repr

/-- `starts_with`, for a text. -/
def startsWith (key : Bytes) (text : String) : Bool := (strBytes text).isPrefixOf key

/-- `cf_for_key`. -/
def cfForKey (key : Bytes) : ColumnFamily :=
  if startsWith key "account:" then .accounts
  else if startsWith key "block:" || startsWith key "block_hash:" || startsWith key "action:" then .blocks
  else if startsWith key "validator" || startsWith key "stake" then .validators
  else if startsWith key "asset_balance:" || startsWith key "asset_record:" ||
      startsWith key "asset_holder:" then .assets
  else if startsWith key "attestor_record:" || startsWith key "attestor_name:" then .attestors
  else if startsWith key "evidence:" then .evidence
  else if startsWith key "operator:" || startsWith key "operator_index:" ||
      key == strBytes "chain_params" || startsWith key "proposal" || startsWith key "blskey:" ||
      startsWith key "blskey_owner:" then .governance
  else if key.length == 32 then .merkle
  else .metadata

/-- `is_state_key`. -/
def isStateKey (key : Bytes) : Bool :=
  match cfForKey key with
  | .accounts | .validators | .assets | .attestors | .evidence | .governance => true
  | .metadata | .blocks | .merkle => false

/-! ## The tree over raw keys -/

/-- The hash functions of the tree. -/
class RawTrie where
  /-- The number of levels; 256 in the source. -/
  depth : Nat
  /-- The bits of `hash_key`. -/
  hashKey : Bytes → List Bool
  hasher : Hasher Bytes Bytes

/-- Key hashes have one length, and hashes do not collide. -/
structure RawTrie.Laws [RawTrie] : Prop where
  depth_pos : 0 < depth
  length_hashKey : ∀ k, (hashKey k).length = depth
  hasher : RawTrie.hasher.Laws
  separated : RawTrie.hasher.Separated

/-- What one item of a batch stages: puts, then deletes. -/
structure Writable where
  entries : List (Bytes × Bytes)
  deletes : List Bytes

/-- The changes of a list of items in the order they are staged. -/
def changesOf (items : List Writable) : List (Bytes × Option Bytes) :=
  items.flatMap fun w => w.entries.map (fun e => (e.1, some e.2)) ++ w.deletes.map fun k => (k, none)

/-- The rows after a batch. -/
def rowsAfter (changes : List (Bytes × Option Bytes)) (rows : Bytes → Option Bytes) : Bytes → Option Bytes :=
  changes.foldl (fun rows c => Function.update rows c.1 c.2) rows

section Database

variable [RawTrie]

open RawTrie

instance transCmpPath : Std.TransCmp (@compare (List Bool) LinearOrder.toOrd) := inferInstance

/-- `state_changes`: the last change of each state row, under the hash of its key. -/
def stateChanges (items : List Writable) : TreeMap (List Bool) (Option Bytes) :=
  ((changesOf items).filter fun c => isStateKey c.1).foldl (fun m c => m.insert (hashKey c.1) c.2) ∅

/-- The database: its rows, the tree's nodes, and the pointer to its root. -/
structure RawDb where
  rows : Bytes → Option Bytes
  nodes : NodeMap Bytes Bytes
  merkleRootKey : Option Bytes

namespace RawDb

/-- Nothing is stored. -/
def empty : RawDb := ⟨fun _ => none, fun _ => none, none⟩

/-- `merkle_root`. -/
def merkleRoot (db : RawDb) : Bytes := db.merkleRootKey.getD (empties hasher depth)

/-- `trie_root_after`: the root and the nodes, or the error of a node that is missing. -/
def trieRootAfter (db : RawDb) (changes : TreeMap (List Bool) (Option Bytes)) :
    Except StorageError (Bytes × NodeMap Bytes Bytes) :=
  match SparseMerkle.trieRootAfter hasher db.nodes db.merkleRoot changes.toList with
  | some result => .ok result
  | none => .error .corruptedMeta

/-- `compute_state_root`: the root after writes that are not committed yet. -/
def computeStateRoot (db : RawDb) (overlay : List Writable) : Except StorageError Bytes := do
  let (root, _) ← db.trieRootAfter (stateChanges overlay)
  return root

/-- `write_batches`. -/
def writeBatches (db : RawDb) (items : List Writable) : Except StorageError RawDb := do
  let rows := rowsAfter (changesOf items) db.rows
  if (stateChanges items).isEmpty then return { db with rows := rows }
  else
    let (root, nodes) ← db.trieRootAfter (stateChanges items)
    return ⟨rows, nodes, some root⟩

/-- `prove`, for a root that parsed. -/
def prove (db : RawDb) (key root : Bytes) : Except StorageError (InclusionProof Bytes Bytes) :=
  match proveStored hasher db.nodes root (hashKey key) with
  | some proof => .ok proof
  | none => .error .corruptedMeta

/-- The row as the tree has it. -/
def stateRow (db : RawDb) (k : Bytes) : Option Bytes := if isStateKey k then db.rows k else none

/-- The map a reader of the rows would build: the state rows under the hashes of their keys. -/
def IsLeafMap (db : RawDb) (m : TreeMap (List Bool) Bytes) : Prop :=
  ∀ p v, m[p]? = some v ↔ ∃ k, hashKey k = p ∧ isStateKey k = true ∧ db.rows k = some v

end RawDb

/-- `root_of`. -/
def rootOfLeaves (leaves : TreeMap (List Bool) Bytes) : Bytes := rootOfMap hasher depth leaves.toList

/-! ## What the changes do to the contents of the tree -/

section Contents

variable {f : Contents} {p : List Bool} {v : Option Bytes} {l : List (List Bool × Option Bytes)}

omit [RawTrie]

theorem changed_cons {c : List Bool × Option Bytes} :
    changed f (c :: l) = changed (Function.update f c.1 c.2) l := rfl

theorem changed_of_forall_ne (h : ∀ c ∈ l, c.1 ≠ p) : changed f l p = f p := by
  induction l generalizing f with
  | nil => rfl
  | cons c l ih =>
    rw [changed_cons, ih fun d hd => h d (List.mem_cons_of_mem c hd)]
    exact Function.update_of_ne (h c List.mem_cons_self).symm ..

/-- Of changes to different paths, each is where it says. -/
theorem changed_of_mem (hl : l.Pairwise fun a b => a.1 ≠ b.1) (h : (p, v) ∈ l) : changed f l p = v := by
  induction l generalizing f with
  | nil => cases h
  | cons c l ih =>
    obtain ⟨hc, hl⟩ := List.pairwise_cons.mp hl
    rw [changed_cons]
    rcases List.mem_cons.mp h with rfl | h
    · rw [changed_of_forall_ne fun d hd => (hc d hd).symm]
      exact Function.update_self ..
    · exact ih hl h

theorem changed_toList (m : TreeMap (List Bool) (Option Bytes)) : changed f m.toList p = m[p]?.getD (f p) := by
  have hdistinct : m.toList.Pairwise fun a b => a.1 ≠ b.1 :=
    m.distinct_keys_toList.imp fun h he => h (compare_eq_iff_eq.mpr he)
  cases hm : m[p]? with
  | some v => exact changed_of_mem hdistinct (Std.ExtTreeMap.mem_toList_iff_getElem?_eq_some.mpr hm)
  | none =>
    refine changed_of_forall_ne fun c hc he => ?_
    have hsome := Std.ExtTreeMap.mem_toList_iff_getElem?_eq_some.mp hc
    rw [he, hm] at hsome
    cases hsome

/-- **Collecting changes in a map loses none that matters.** -/
theorem changed_collect (l : List (List Bool × Option Bytes)) (m : TreeMap (List Bool) (Option Bytes)) :
    changed f (l.foldl (fun m c => m.insert c.1 c.2) m).toList = changed (changed f m.toList) l := by
  induction l generalizing m with
  | nil => rfl
  | cons c l ih =>
    rw [List.foldl_cons, ih, changed_cons]
    congr 1
    funext q
    rw [changed_toList, Std.ExtTreeMap.getElem?_insert]
    by_cases hq : c.1 = q
    · subst hq
      simp
    · rw [if_neg (mt compare_eq_iff_eq.mp hq), ← changed_toList, Function.update_of_ne (Ne.symm hq)]

end Contents

/-- The leaves after raw changes. -/
def leavesAfter (changes : List (Bytes × Option Bytes)) (m : TreeMap (List Bool) Bytes) :
    TreeMap (List Bool) Bytes :=
  changes.foldl (fun m c =>
    if isStateKey c.1 then
      match c.2 with
      | some v => m.insert (hashKey c.1) v
      | none => m.erase (hashKey c.1)
    else m) m

/-- One change of a state row. -/
theorem leavesAfter_singleton {k : Bytes} {v : Option Bytes} {m : TreeMap (List Bool) Bytes}
    (hk : isStateKey k = true) (p : List Bool) :
    (leavesAfter [(k, v)] m)[p]? = Function.update (fun p => m[p]?) (hashKey k) v p := by
  by_cases hp : hashKey k = p
  · subst hp
    cases v <;> simp [leavesAfter, hk]
  · rw [Function.update_of_ne (Ne.symm hp)]
    cases v <;> simp [leavesAfter, hk, hp, Std.ExtTreeMap.getElem?_insert, Std.ExtTreeMap.getElem?_erase]

theorem leavesAfter_cons {c : Bytes × Option Bytes} {changes : List (Bytes × Option Bytes)}
    {m : TreeMap (List Bool) Bytes} : leavesAfter (c :: changes) m = leavesAfter changes (leavesAfter [c] m) :=
  rfl

theorem leavesAfter_singleton_of_not {k : Bytes} {v : Option Bytes} {m : TreeMap (List Bool) Bytes}
    (hk : isStateKey k = false) : leavesAfter [(k, v)] m = m := by
  simp [leavesAfter, hk]

theorem changed_filter (changes : List (Bytes × Option Bytes)) (m : TreeMap (List Bool) Bytes) :
    changed (fun p => m[p]?) ((changes.filter fun c => isStateKey c.1).map fun c => (hashKey c.1, c.2)) =
      fun p => (leavesAfter changes m)[p]? := by
  induction changes generalizing m with
  | nil => rfl
  | cons c changes ih =>
    rw [leavesAfter_cons, ← ih]
    cases hk : isStateKey c.1 with
    | false => rw [List.filter_cons_of_neg (by simp [hk]), leavesAfter_singleton_of_not hk]
    | true =>
      rw [List.filter_cons_of_pos (by exact hk), List.map_cons, changed_cons]
      congr 1
      funext p
      exact (leavesAfter_singleton hk p).symm

/-- **The collected changes take the tree over the leaves to the tree over the leaves after them.** -/
theorem changed_stateChanges (items : List Writable) (m : TreeMap (List Bool) Bytes) :
    changed (fun p => m[p]?) (stateChanges items).toList =
      fun p => (leavesAfter (changesOf items) m)[p]? := by
  have hcollect := changed_collect (f := fun p => m[p]?)
    (((changesOf items).filter fun c => isStateKey c.1).map fun c => (hashKey c.1, c.2)) ∅
  rw [List.foldl_map] at hcollect
  exact hcollect.trans (changed_filter _ m)

/-! ## The tree follows the rows -/

section Follows

variable {U : Set Bytes} {db db' : RawDb} {m : TreeMap (List Bool) Bytes}

/-- The leaves are the state rows, all under keys of `U`. -/
structure RawDb.Mirrored (U : Set Bytes) (rows : Bytes → Option Bytes) (m : TreeMap (List Bool) Bytes) :
    Prop where
  value : ∀ k ∈ U, m[hashKey k]? = if isStateKey k then rows k else none
  key : ∀ p v, m[p]? = some v → ∃ k ∈ U, hashKey k = p
  used : ∀ k v, rows k = some v → k ∈ U

/-- One change keeps it. -/
theorem RawDb.Mirrored.change (hU : Set.InjOn hashKey U) {rows : Bytes → Option Bytes}
    (h : Mirrored U rows m) {c : Bytes × Option Bytes} (hc : c.1 ∈ U) :
    Mirrored U (rowsAfter [c] rows) (leavesAfter [c] m) := by
  obtain ⟨k₀, v₀⟩ := c
  have hrows : rowsAfter [(k₀, v₀)] rows = Function.update rows k₀ v₀ := rfl
  rw [hrows]
  have hused : ∀ k v, Function.update rows k₀ v₀ k = some v → k ∈ U := by
    intro k v hv
    by_cases hk : k = k₀
    · exact hk ▸ hc
    · rw [Function.update_of_ne hk] at hv
      exact h.used k v hv
  cases hstate : isStateKey k₀ with
  | false =>
    rw [leavesAfter_singleton_of_not hstate]
    refine ⟨fun k hk => ?_, h.key, hused⟩
    rw [h.value k hk]
    by_cases hkk : k = k₀
    · simp [hkk, hstate]
    · rw [Function.update_of_ne hkk]
  | true =>
    refine ⟨fun k hk => ?_, fun p v hv => ?_, hused⟩
    · rw [leavesAfter_singleton hstate]
      by_cases hkk : k = k₀
      · simp [hkk, hstate]
      · have hpath : hashKey k ≠ hashKey k₀ := fun he => hkk (hU hk hc he)
        rw [Function.update_of_ne hpath, Function.update_of_ne hkk, h.value k hk]
    · rw [leavesAfter_singleton hstate] at hv
      by_cases hp : p = hashKey k₀
      · exact ⟨k₀, hc, hp.symm⟩
      · rw [Function.update_of_ne hp] at hv
        exact h.key p v hv

theorem RawDb.Mirrored.changes (hU : Set.InjOn hashKey U) {rows : Bytes → Option Bytes}
    (h : Mirrored U rows m) {changes : List (Bytes × Option Bytes)} (hc : ∀ c ∈ changes, c.1 ∈ U) :
    Mirrored U (rowsAfter changes rows) (leavesAfter changes m) := by
  induction changes generalizing rows m with
  | nil => exact h
  | cons c changes ih =>
    exact ih (h.change hU (hc c List.mem_cons_self)) fun d hd => hc d (List.mem_cons_of_mem c hd)

/-- **What a database keeps**: its root is that of the leaves, whose tree can be walked, and the leaves are
its state rows. -/
structure RawDb.Holds (U : Set Bytes) (db : RawDb) (m : TreeMap (List Bool) Bytes) : Prop where
  root : db.merkleRoot = rootAt hasher (fun p => m[p]?) [] depth
  stored : Stored hasher db.nodes (fun p => m[p]?) depth []
  mirrored : RawDb.Mirrored U db.rows m

theorem RawDb.holds_empty : RawDb.empty.Holds U ∅ := by
  have hempty : EmptyBelow (fun p => (∅ : TreeMap (List Bool) Bytes)[p]?) [] depth := by
    intro p _
    simp
  refine ⟨?_, stored_of_empty hempty, fun k _ => ?_, fun p v hv => ?_, fun k v hv => by cases hv⟩
  · rw [rootAt_of_empty hempty]
    rfl
  · simp [RawDb.empty]
  · simp at hv

/-- What holds of a database holds of it with the nodes of a later one. -/
theorem RawDb.Holds.keeps (h : db.Holds U m) {nodes : NodeMap Bytes Bytes}
    (hk : Keeps hasher db.nodes nodes) : RawDb.Holds U { db with nodes := nodes } m :=
  ⟨h.root, hk _ _ _ h.stored, h.mirrored⟩

/-- The leaves are those a reader of the rows would collect. -/
theorem RawDb.Mirrored.isLeafMap (h : Mirrored U db.rows m) : db.IsLeafMap m := by
  intro p v
  constructor
  · intro hv
    obtain ⟨k, hk, rfl⟩ := h.key p v hv
    rw [h.value k hk] at hv
    split_ifs at hv with hstate
    exact ⟨k, rfl, hstate, hv⟩
  · rintro ⟨k, rfl, hstate, hv⟩
    rw [h.value k (h.used k v hv), if_pos hstate, hv]

variable (laws : RawTrie.Laws)

include laws

theorem length_of_mem_stateChanges (items : List Writable) :
    ∀ c ∈ (stateChanges items).toList, c.1.length = depth := by
  have hkeys : ∀ (p : List Bool) v, (stateChanges items)[p]? = some v → p.length = depth := by
    refine List.foldlRecOn (motive := fun m : TreeMap (List Bool) (Option Bytes) =>
      ∀ (p : List Bool) v, m[p]? = some v → p.length = depth) _ _ (fun p v hv => by simp at hv) ?_
    intro m hm c _ p v hv
    rw [Std.ExtTreeMap.getElem?_insert] at hv
    split_ifs at hv with hp
    · rw [← compare_eq_iff_eq.mp hp]
      exact laws.length_hashKey c.1
    · exact hm p v hv
  intro c hc
  exact hkeys c.1 c.2 (Std.ExtTreeMap.mem_toList_iff_getElem?_eq_some.mp hc)

/-- **A commit succeeds**, with the previewed root, and keeps every tree. -/
theorem RawDb.Holds.writeBatches (hU : Set.InjOn hashKey U) (h : db.Holds U m) {items : List Writable}
    (hitems : ∀ c ∈ changesOf items, c.1 ∈ U) :
    ∃ db', db.writeBatches items = .ok db' ∧ db.computeStateRoot items = .ok db'.merkleRoot ∧
      Keeps hasher db.nodes db'.nodes ∧ db'.Holds U (leavesAfter (changesOf items) m) := by
  obtain ⟨nodes', hafter, hkeeps, hstored⟩ := trieRootAfter_stored laws.hasher laws.separated
    laws.depth_pos h.stored (length_of_mem_stateChanges laws items)
  rw [changed_stateChanges, ← h.root] at hafter
  rw [changed_stateChanges] at hstored
  have hmirrored := h.mirrored.changes hU hitems
  have htrie : db.trieRootAfter (stateChanges items) =
      .ok (rootAt hasher (fun p => (leavesAfter (changesOf items) m)[p]?) [] depth, nodes') := by
    rw [RawDb.trieRootAfter, hafter]
  rw [RawDb.writeBatches, RawDb.computeStateRoot, htrie]
  cases hempty : (stateChanges items).isEmpty with
  | true =>
    -- No state row changes, so the tree is left alone.
    have hroot : (db.merkleRoot, db.nodes) =
        (rootAt hasher (fun p => (leavesAfter (changesOf items) m)[p]?) [] depth, nodes') := by
      have hnil : (stateChanges items).toList = [] := by
        rw [Std.ExtTreeMap.isEmpty_iff.mp hempty]
        rfl
      rw [hnil] at hafter
      exact Option.some.inj hafter
    obtain ⟨hroot, hnodes⟩ := Prod.mk.inj hroot
    refine ⟨_, rfl, congrArg Except.ok hroot.symm, Keeps.refl _, hroot, ?_, hmirrored⟩
    rwa [hnodes]
  | false => exact ⟨_, rfl, rfl, hkeeps, rfl, hstored, hmirrored⟩

/-- Each key can be proved, with its leaf or its absence. -/
theorem RawDb.Holds.prove (h : db.Holds U m) (k : Bytes) : ∃ sibs,
    db.prove k db.merkleRoot = .ok ⟨hashKey k, m[hashKey k]?, sibs⟩ ∧
      verifyProof hasher depth db.merkleRoot ⟨hashKey k, m[hashKey k]?, sibs⟩ = true := by
  have hlen := laws.length_hashKey k
  have hstored := h.stored
  rw [h.root]
  rw [← hlen] at hstored ⊢
  refine ⟨_, ?_, verifyProof_siblings (fun p => m[p]?) (hashKey k)⟩
  rw [RawDb.prove, proveStored_stored laws.hasher laws.separated hstored]

end Follows

/-! ## Runs -/

/-- **The databases of one node, the present one first**: it commits batches that touch keys of `U`, and it
unwinds to what it was. -/
inductive RawDb.Run (U : Set Bytes) : List RawDb → Prop
  | fresh : Run U [RawDb.empty]
  | commit {db db' : RawDb} {dbs : List RawDb} {items : List Writable} : Run U (db :: dbs) →
      (∀ c ∈ changesOf items, c.1 ∈ U) → db.writeBatches items = .ok db' → Run U (db' :: db :: dbs)
  | revert {db old : RawDb} {dbs : List RawDb} : Run U (db :: dbs) → old ∈ dbs →
      Run U ({ old with nodes := db.nodes } :: db :: dbs)

namespace RawDb.Run

variable {U : Set Bytes} {db : RawDb} {dbs : List RawDb}

/-- **With its present nodes, a database holds all it ever held.** -/
theorem holds (laws : RawTrie.Laws) (hU : Set.InjOn hashKey U) (h : RawDb.Run U (db :: dbs)) :
    ∀ old ∈ db :: dbs, ∃ m, RawDb.Holds U { old with nodes := db.nodes } m := by
  generalize hrun : db :: dbs = run at h
  induction h generalizing db dbs with
  | fresh =>
    obtain ⟨rfl, rfl⟩ := List.cons.inj hrun
    intro old hold
    obtain rfl := List.mem_singleton.mp hold
    exact ⟨∅, RawDb.holds_empty⟩
  | @commit last next past items _ hitems hwrite ih =>
    obtain ⟨rfl, rfl⟩ := List.cons.inj hrun
    have hpast := ih rfl
    obtain ⟨m, hm⟩ := hpast last List.mem_cons_self
    obtain ⟨next, hwrite', -, hkeeps, hnext⟩ := RawDb.Holds.writeBatches laws hU hm hitems
    obtain rfl := Except.ok.inj (hwrite.symm.trans hwrite')
    intro old hold
    rcases List.mem_cons.mp hold with rfl | hold
    · exact ⟨_, hnext⟩
    · obtain ⟨m, hm⟩ := hpast old hold
      exact ⟨m, hm.keeps hkeeps⟩
  | @revert last back past _ hmem ih =>
    obtain ⟨rfl, rfl⟩ := List.cons.inj hrun
    intro old hold
    rcases List.mem_cons.mp hold with rfl | hold
    · exact ih rfl back (List.mem_cons_of_mem _ hmem)
    · exact ih rfl old hold

theorem rows_writeBatches {db' : RawDb} {items : List Writable} (h : db.writeBatches items = .ok db') :
    db'.rows = rowsAfter (changesOf items) db.rows := by
  rw [RawDb.writeBatches] at h
  split_ifs at h
  · obtain rfl := Except.ok.inj h
    rfl
  · obtain ⟨x, -, h⟩ := ReadProg.bind_eq_ok.mp h
    obtain rfl := Except.ok.inj h
    rfl

/-- The root is `root_of` of the leaves. -/
theorem rootOfLeaves_eq (laws : RawTrie.Laws) {m : TreeMap (List Bool) Bytes} (h : db.Holds U m) :
    db.merkleRoot = rootOfLeaves m := by
  have hlists : Lists (fun p => m[p]?) [] depth m.toList := by
    refine ⟨fun e he => ⟨e.1, ?_, rfl⟩, fun q v _ => Std.ExtTreeMap.mem_toList_iff_getElem?_eq_some⟩
    obtain ⟨k, -, hk⟩ := h.mirrored.key e.1 e.2 (Std.ExtTreeMap.mem_toList_iff_getElem?_eq_some.mp he)
    rw [← hk]
    exact laws.length_hashKey k
  have hsorted : SortedPaths m.toList := m.ordered_keys_toList.imp compare_lt_iff_lt.mp
  rw [h.root, rootOfLeaves, rootOfMap_eq hlists hsorted]

/-- **The incremental tree has the canonical root.**  In every database a node reaches, the root is that of
the map from key hashes to state rows, so it does not depend on how the rows came to be; and the next batch,
whatever is in it, commits without missing a node, with the root the preview gives. -/
theorem commits_canonical_root (laws : RawTrie.Laws) (hU : Set.InjOn hashKey U)
    (h : RawDb.Run U (db :: dbs)) :
    (∃ m, db.IsLeafMap m ∧ db.merkleRoot = rootOfLeaves m) ∧
    (∀ other others, RawDb.Run U (other :: others) →
      (∀ k, isStateKey k = true → other.rows k = db.rows k) → other.merkleRoot = db.merkleRoot) ∧
    ∀ items, (∀ c ∈ changesOf items, c.1 ∈ U) → ∃ db', db.writeBatches items = .ok db' ∧
      db'.rows = rowsAfter (changesOf items) db.rows ∧
      db.computeStateRoot items = .ok db'.merkleRoot ∧
      ∃ m, db'.IsLeafMap m ∧ db'.merkleRoot = rootOfLeaves m := by
  have hall := h.holds laws hU
  obtain ⟨m, hm⟩ := hall db List.mem_cons_self
  refine ⟨⟨m, hm.mirrored.isLeafMap, rootOfLeaves_eq laws hm⟩, fun other others h' hrows => ?_,
    fun items hitems => ?_⟩
  · obtain ⟨m', hm'⟩ := h'.holds laws hU other List.mem_cons_self
    have hsame : m' = m := by
      refine Std.ExtTreeMap.ext_getElem? fun p => Option.ext fun v => ?_
      rw [hm'.mirrored.isLeafMap p v, hm.mirrored.isLeafMap p v]
      refine exists_congr fun k => and_congr_right fun _ => and_congr_right fun hk => ?_
      rw [hrows k hk]
    rw [rootOfLeaves_eq laws hm', rootOfLeaves_eq laws hm, hsame]
  · obtain ⟨db', hwrite, hpreview, -, hm'⟩ := hm.writeBatches laws hU hitems
    refine ⟨db', hwrite, ?_, hpreview, _, hm'.mirrored.isLeafMap, rootOfLeaves_eq laws hm'⟩
    exact rows_writeBatches hwrite

/-- **State proofs are sound and complete**, against every root a node ever committed. -/
theorem proves_every_root (laws : RawTrie.Laws) (hU : Set.InjOn hashKey U)
    (h : RawDb.Run U (db :: dbs)) {old : RawDb} (hold : old ∈ db :: dbs) {k : Bytes} (hk : k ∈ U) :
    (∃ proof, db.prove k old.merkleRoot = .ok proof ∧ proof.path = hashKey k ∧
      verifyProof hasher depth old.merkleRoot proof = true ∧ proof.value = old.stateRow k) ∧
    ∀ proof, proof.path = hashKey k → verifyProof hasher depth old.merkleRoot proof = true →
      proof.value = old.stateRow k := by
  obtain ⟨m, hm⟩ := h.holds laws hU old hold
  have hvalue : m[hashKey k]? = old.stateRow k := hm.mirrored.value k hk
  have hroot : old.merkleRoot = rootAt hasher (fun p => m[p]?) [] depth := hm.root
  rw [← hvalue]
  obtain ⟨sibs, hprove, hverify⟩ := hm.prove laws k
  refine ⟨⟨_, hprove, rfl, hverify, rfl⟩, fun proof hpath hv => ?_⟩
  rw [hroot] at hv
  rw [value_of_verifyProof laws.hasher hv, hpath]

end RawDb.Run

/-! ## The typed tree

`Storage/Trie` has the same tree over typed rows, as a function of paths.  With the keys and values encoded
it is the tree a database stores. -/

section Typed

variable (encodeKey : Key → Bytes) (encodeValue : (k : Key) → Value k → Bytes)
  (decodeValue : (k : Key) → Bytes → Option (Value k))

/-- The typed tree over encoded rows. -/
@[reducible] def RawTrie.typed : StateTrie where
  depth := depth
  keyPath k := hashKey (encodeKey k)
  hasher := hasher
  encodeValue := encodeValue
  decodeValue := decodeValue

/-- A typed write as a batch stages it. -/
def rawChange (w : RowWrite) : Bytes × Option Bytes := (encodeKey w.key, w.value.map (encodeValue w.key))

variable {encodeKey encodeValue decodeValue} {U : Set Bytes} {db db' : RawDb} {m : TreeMap (List Bool) Bytes}

/-- Typed writes do to the contents what their encodings do to the leaves. -/
theorem writeLeaves_rawChange (hkey : ∀ k, isStateKey (encodeKey k) = k.isStateKey) (ws : List RowWrite) :
    @writeLeaves (RawTrie.typed encodeKey encodeValue decodeValue) ws (fun p => m[p]?) =
      fun p => (leavesAfter (ws.map (rawChange encodeKey encodeValue)) m)[p]? := by
  induction ws generalizing m with
  | nil => rfl
  | cons w ws ih =>
    rw [List.map_cons, leavesAfter_cons, ← ih]
    let _ := RawTrie.typed encodeKey encodeValue decodeValue
    have hstep : writeLeaf (fun p => m[p]?) w =
        fun p => (leavesAfter [rawChange encodeKey encodeValue w] m)[p]? := by
      rw [writeLeaf]
      split_ifs with hw
      · funext p
        exact (leavesAfter_singleton ((hkey _).trans hw) p).symm
      · rw [rawChange, leavesAfter_singleton_of_not ((hkey _).trans (Bool.eq_false_iff.mpr hw))]
    exact congrArg (writeLeaves ws) hstep

/-- **The typed state root is the root the database commits.** -/
theorem stateRoot_writeBatches (laws : RawTrie.Laws) (hkey : ∀ k, isStateKey (encodeKey k) = k.isStateKey)
    (hU : Set.InjOn hashKey U) (h : db.Holds U m) {items : List Writable} {ws : List RowWrite}
    (hws : changesOf items = ws.map (rawChange encodeKey encodeValue))
    (hkeys : ∀ w ∈ ws, encodeKey w.key ∈ U) (hwrite : db.writeBatches items = .ok db') :
    db'.merkleRoot = @stateRoot (RawTrie.typed encodeKey encodeValue decodeValue)
      (@writeLeaves (RawTrie.typed encodeKey encodeValue decodeValue) ws fun p => m[p]?) := by
  have hitems : ∀ c ∈ changesOf items, c.1 ∈ U := by
    rw [hws]
    intro c hc
    obtain ⟨w, hw, rfl⟩ := List.mem_map.mp hc
    exact hkeys w hw
  obtain ⟨db₁, hwrite₁, -, -, hholds⟩ := h.writeBatches laws hU hitems
  obtain rfl := Except.ok.inj (hwrite.symm.trans hwrite₁)
  rw [hholds.root, writeLeaves_rawChange hkey, hws]
  rfl

end Typed

end Database

/-! ## A small tree

Two levels, keys told apart by their length, and hashes that spell out what they hash. -/

namespace SmallTree

open RawTrie (hashKey)

def hasher : Hasher Bytes Bytes where
  leaf p v := 0 :: (Plain.frame (p.map fun b => if b then 1 else 0) ++ v)
  node l r := 1 :: (Plain.frame l ++ r)
  empty := []

@[reducible] def trie : RawTrie where
  depth := 2
  hashKey k := [k.length % 4 / 2 == 1, k.length % 2 == 1]
  hasher := hasher

attribute [local instance] trie

theorem hasher_laws : hasher.Laws where
  leaf_inj {p q v w} h := by
    obtain ⟨hp, hv⟩ := Plain.frame_append_inj (List.cons.inj h).2
    have hbits : Function.Injective fun b : Bool => if b then (1 : UInt8) else 0 := by decide
    exact ⟨List.map_injective_iff.mpr hbits hp, hv⟩
  node_inj h := Plain.frame_append_inj (List.cons.inj h).2
  leaf_ne_empty := List.cons_ne_nil _ _

theorem hasher_separated : hasher.Separated where
  node_ne_leaf h := absurd (List.cons.inj h).1 (by decide)
  node_ne_empty := List.cons_ne_nil _ _

theorem laws : RawTrie.Laws := ⟨by decide, fun _ => rfl, hasher_laws, hasher_separated⟩

def alice : Bytes := strBytes "account:a"

def bob : Bytes := strBytes "account:bo"

def keys : Set Bytes := {alice, bob}

theorem injOn_keys : Set.InjOn hashKey keys := by
  have hne : hashKey alice ≠ hashKey bob := by decide +kernel
  rintro k (rfl | rfl) l (rfl | rfl) h
  · rfl
  · exact absurd h hne
  · exact absurd h.symm hne
  · rfl

/-- Both accounts are put, and the first is deleted and put again. -/
def items : List Writable := [⟨[(alice, [5]), (bob, [6])], [alice]⟩, ⟨[(alice, [7])], []⟩]

theorem items_keys : ∀ c ∈ changesOf items, c.1 ∈ keys := by
  intro c hc
  have hall : ∀ c ∈ changesOf items, c.1 = alice ∨ c.1 = bob := by decide +kernel
  exact hall c hc

/-- The batch commits, with the root of the two leaves it leaves behind. -/
theorem items_canonical_root : ∃ db', RawDb.empty.writeBatches items = .ok db' ∧
    RawDb.empty.computeStateRoot items = .ok db'.merkleRoot ∧
    ∃ m, db'.IsLeafMap m ∧ db'.merkleRoot = rootOfLeaves m := by
  obtain ⟨-, -, hnext⟩ := RawDb.Run.commits_canonical_root laws injOn_keys RawDb.Run.fresh
  obtain ⟨db', hwrite, -, hpreview, hroot⟩ := hnext items items_keys
  exact ⟨db', hwrite, hpreview, hroot⟩

/-- After it, and after it is unwound, the second account's value is still proved against its root. -/
theorem bob_proved_after_unwinding : ∃ db db' : RawDb,
    RawDb.Run keys [{ RawDb.empty with nodes := db'.nodes }, db', RawDb.empty] ∧
      RawDb.empty.writeBatches items = .ok db' ∧ db = { RawDb.empty with nodes := db'.nodes } ∧
      ∃ proof, db.prove bob db'.merkleRoot = .ok proof ∧
        verifyProof hasher 2 db'.merkleRoot proof = true ∧ proof.value = some [6] := by
  obtain ⟨db', hwrite, -⟩ := (RawDb.holds_empty (U := keys)).writeBatches laws injOn_keys items_keys
  have hrun := (RawDb.Run.fresh.commit items_keys hwrite).revert (List.mem_singleton.mpr rfl)
  refine ⟨_, db', hrun, hwrite, rfl, ?_⟩
  obtain ⟨⟨proof, hprove, -, hverify, hvalue⟩, -⟩ := RawDb.Run.proves_every_root laws injOn_keys hrun
    (List.mem_cons_of_mem _ List.mem_cons_self) (show bob ∈ keys from .inr rfl)
  refine ⟨proof, hprove, hverify, hvalue.trans ?_⟩
  rw [RawDb.stateRow, RawDb.Run.rows_writeBatches hwrite]
  decide +kernel

end SmallTree

end Arxium
