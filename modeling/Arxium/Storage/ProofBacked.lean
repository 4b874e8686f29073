import Arxium.Storage.Nodes
import Arxium.Lib.ProvenPaths

/-!
# Storage/ProofBacked — a trie rebuilt from proofs does what the full one does

`ProofBackedTrie` is what a party without a database replays a block on: the nodes and leaves that proofs
against one root show.  Reads and writes go down by hash, through nodes the proofs gave and nodes earlier
writes made, and stop with an error where a node is missing.

`ProofBackedTrie.simulates` compares it, over any sequence of operations, with the map from key hashes to
values whose root it started from.
-/

namespace Arxium

open SparseMerkle

section ProofBacked

variable [RawTrie]

open RawTrie

/-- A hashed key. -/
abbrev KeyHash := {p : List Bool // p.length = depth}

/-- No supplied proof covers the key. -/
inductive UnprovenKey
  | unprovenKey
deriving DecidableEq, Repr

/-- What proofs show of a trie. -/
abbrev ProofBackedTrie := Partial Bytes Bytes

namespace ProofBackedTrie

/-- `from_proofs`. -/
def fromProofs (root : Bytes) (proofs : List (InclusionProof Bytes Bytes)) :
    Except UnprovenKey ProofBackedTrie :=
  match Partial.ofProofs hasher depth root proofs with
  | some t => .ok t
  | none => .error .unprovenKey

end ProofBackedTrie

/-! ## Operations -/

/-- A read or a write; a write of nothing deletes. -/
inductive TrieOp
  | get (key : KeyHash)
  | apply (key : KeyHash) (value : Option Bytes)

/-- What an operation returns: the value read, or the root written. -/
inductive TrieAnswer
  | value (v : Option Bytes)
  | root (r : Bytes)
deriving DecidableEq

/-- The state: values under hashed keys. -/
structure StateMap where
  leaves : TreeMap (List Bool) Bytes
  length : ∀ (p : List Bool) v, leaves[p]? = some v → p.length = depth

namespace StateMap

/-- `root_of`. -/
def root (m : StateMap) : Bytes := rootOfLeaves m.leaves

def contents (m : StateMap) : Contents := fun p => m.leaves[p]?

/-- A key is put or deleted. -/
def set (m : StateMap) (key : KeyHash) (v : Option Bytes) : StateMap where
  leaves := v.elim (m.leaves.erase key.1) (m.leaves.insert key.1)
  length p w hw := by
    cases v with
    | none =>
      rw [Option.elim_none, Std.ExtTreeMap.getElem?_erase] at hw
      split_ifs at hw
      exact m.length p w hw
    | some v =>
      rw [Option.elim_some, Std.ExtTreeMap.getElem?_insert] at hw
      split_ifs at hw with hp
      · rw [← compare_eq_iff_eq.mp hp]
        exact key.2
      · exact m.length p w hw

theorem contents_set (m : StateMap) (key : KeyHash) (v : Option Bytes) :
    (m.set key v).contents = Function.update m.contents key.1 v := by
  funext p
  by_cases hp : p = key.1
  · subst hp
    cases v <;> simp [contents, set]
  · rw [Function.update_of_ne hp]
    cases v <;> simp [contents, set, Std.ExtTreeMap.getElem?_insert, Std.ExtTreeMap.getElem?_erase,
      Ne.symm hp]

/-- The map's root is that of the tree with its contents. -/
theorem root_eq (m : StateMap) : m.root = rootAt hasher m.contents [] depth := by
  refine rootOfMap_eq ⟨fun e he => ⟨e.1, ?_, rfl⟩, fun q v _ => ?_⟩
    (m.leaves.ordered_keys_toList.imp compare_lt_iff_lt.mp)
  · exact m.length e.1 e.2 (Std.ExtTreeMap.mem_toList_iff_getElem?_eq_some.mp he)
  · exact Std.ExtTreeMap.mem_toList_iff_getElem?_eq_some

end StateMap

namespace TrieOp

def key : TrieOp → KeyHash
  | get key => key
  | apply key _ => key

/-- The operation on the copy, and the copy after it. -/
def run (t : ProofBackedTrie) : TrieOp → Except UnprovenKey TrieAnswer × ProofBackedTrie
  | get key =>
    match t.get hasher key.1 with
    | some v => (.ok (.value v), t)
    | none => (.error .unprovenKey, t)
  | apply key v =>
    match t.apply hasher key.1 v with
    | some t' => (.ok (.root t'.root), t')
    | none => (.error .unprovenKey, t)

/-- The operation on the full map, and the map after it. -/
def onMap (m : StateMap) : TrieOp → TrieAnswer × StateMap
  | get key => (.value (m.contents key.1), m)
  | apply key v => (.root (m.set key v).root, m.set key v)

/-- One operation on both; what the copy refuses is not done. -/
def both (s : ProofBackedTrie × StateMap) (op : TrieOp) : ProofBackedTrie × StateMap :=
  match op.run s.1 with
  | (.ok _, t) => (t, (op.onMap s.2).2)
  | (.error _, t) => (t, s.2)

end TrieOp

/-! ## The copy follows the map -/

variable {m m₀ : StateMap} {t : ProofBackedTrie} {proofs : List (InclusionProof Bytes Bytes)}

/-- The copy is in step with the map, ever since both had the root `m₀` has. -/
def ProofBackedTrie.Follows (m₀ : StateMap) (proofs : List (InclusionProof Bytes Bytes))
    (t : ProofBackedTrie) (m : StateMap) : Prop :=
  Partial.InStep hasher depth m₀.root proofs m.contents t

namespace ProofBackedTrie.Follows

theorem root_eq (h : Follows m₀ proofs t m) : t.root = m.root := by
  rw [m.root_eq]
  exact h.sound.root

/-- **An answer is the full map's**, and both are in step after it. -/
theorem answer (laws : RawTrie.Laws) (h : Follows m₀ proofs t m) (op : TrieOp) {a : TrieAnswer}
    {t' : ProofBackedTrie} (hop : op.run t = (.ok a, t')) :
    a = (op.onMap m).1 ∧ Follows m₀ proofs t' (op.onMap m).2 := by
  cases op with
  | get key =>
    cases hget : t.get hasher key.1 with
    | none => simp [TrieOp.run, hget] at hop
    | some v =>
      obtain ⟨rfl, rfl⟩ : TrieAnswer.value v = a ∧ t = t' := by simpa [TrieOp.run, hget] using hop
      rw [TrieOp.onMap, h.sound.get laws.hasher key.2 hget]
      exact ⟨rfl, h⟩
  | apply key v =>
    cases happly : t.apply hasher key.1 v with
    | none => simp [TrieOp.run, happly] at hop
    | some t₁ =>
      obtain ⟨rfl, rfl⟩ : TrieAnswer.root t₁.root = a ∧ t₁ = t' := by simpa [TrieOp.run, happly] using hop
      have hstep : Follows m₀ proofs t₁ (m.set key v) := by
        rw [Follows, StateMap.contents_set]
        exact h.apply laws.hasher laws.separated key.2 happly
      exact ⟨by rw [TrieOp.onMap, hstep.root_eq], hstep⟩

/-- A key with a proof can be read and written. -/
theorem succeeds (laws : RawTrie.Laws) (h : Follows m₀ proofs t m) (op : TrieOp)
    {proof : InclusionProof Bytes Bytes} (hmem : proof ∈ proofs) (hkey : proof.path = op.key.1) :
    ∃ a t', op.run t = (.ok a, t') := by
  obtain ⟨hlen, hcovers⟩ := h.covers proof hmem
  cases op with
  | get key =>
    rw [hkey] at hcovers
    have hget := hcovers.get laws.hasher h.sound key.2
    exact ⟨_, t, by rw [TrieOp.run, show t.get hasher key.1 = _ from hget]⟩
  | apply key v =>
    rw [hkey] at hcovers
    obtain ⟨t', ht'⟩ := Option.isSome_iff_exists.mp (hcovers.isSome_apply h.sound key.2 v)
    exact ⟨_, t', by rw [TrieOp.run, show t.apply hasher key.1 v = _ from ht']⟩

/-- A key the proofs do not determine can be neither read nor written. -/
theorem refuses (h : Follows m₀ proofs t m) (op : TrieOp)
    (hkey : ¬ Determined hasher m₀.root proofs op.key.1) : op.run t = (.error .unprovenKey, t) := by
  cases op with
  | get key =>
    cases hget : t.get hasher key.1 with
    | none => simp [TrieOp.run, hget]
    | some v => exact absurd (h.determined_of_get key.2 hget) hkey
  | apply key v =>
    cases happly : t.apply hasher key.1 v with
    | none => simp [TrieOp.run, happly]
    | some t' => exact absurd ((h.isSome_apply key.2 v).mp (by rw [happly]; rfl)) hkey

/-- **Any sequence of operations keeps the two in step.** -/
theorem run (laws : RawTrie.Laws) (h : Follows m₀ proofs t m) (ops : List TrieOp) :
    Follows m₀ proofs (ops.foldl TrieOp.both (t, m)).1 (ops.foldl TrieOp.both (t, m)).2 := by
  induction ops generalizing t m with
  | nil => exact h
  | cons op ops ih =>
    rw [List.foldl_cons]
    match hrun : op.run t with
    | (.ok a, t') =>
      have hboth : TrieOp.both (t, m) op = (t', (op.onMap m).2) := by rw [TrieOp.both, hrun]
      rw [hboth]
      exact ih (h.answer laws op hrun).2
    | (.error e, t') =>
      obtain rfl : t' = t := by
        cases op with
        | get key => cases hget : t.get hasher key.1 <;> simp_all [TrieOp.run]
        | apply key v => cases happly : t.apply hasher key.1 v <;> simp_all [TrieOp.run]
      have hboth : TrieOp.both (t', m) op = (t', m) := by rw [TrieOp.both, hrun]
      rw [hboth]
      exact ih h

end ProofBackedTrie.Follows

theorem StateMap.follows_fromProofs (laws : RawTrie.Laws) (m : StateMap)
    (hproofs : ∀ proof ∈ proofs, verifyProof hasher depth m.root proof = true) :
    ∃ t, ProofBackedTrie.fromProofs m.root proofs = .ok t ∧ ProofBackedTrie.Follows m proofs t m := by
  obtain ⟨t, ht⟩ : ∃ t, Partial.ofProofs hasher depth m.root proofs = some t := by
    rw [Partial.ofProofs, if_pos (List.all_eq_true.mpr hproofs)]
    exact ⟨_, rfl⟩
  refine ⟨t, by rw [ProofBackedTrie.fromProofs, ht], ?_⟩
  rw [m.root_eq] at ht
  rw [ProofBackedTrie.Follows, m.root_eq]
  exact Partial.inStep_ofProofs laws.hasher laws.separated ht

/-- **The proof-backed trie simulates the full trie.**  From proofs that verify against a map's root, through
any sequence of reads, writes and deletes, the copy has the map's root; an operation that succeeds returns
what it returns on the map and leaves its root; a key of one of the proofs can be read and written; and a key
the proofs do not determine is refused, with the copy left as it was. -/
theorem ProofBackedTrie.simulates (laws : RawTrie.Laws) (m : StateMap)
    (proofs : List (InclusionProof Bytes Bytes))
    (hproofs : ∀ proof ∈ proofs, verifyProof hasher depth m.root proof = true) :
    ∃ t, ProofBackedTrie.fromProofs m.root proofs = .ok t ∧ ∀ ops : List TrieOp,
      let s := ops.foldl TrieOp.both (t, m)
      s.1.root = s.2.root ∧ ∀ op : TrieOp,
        (∀ a t', op.run s.1 = (.ok a, t') → a = (op.onMap s.2).1 ∧ t'.root = (op.onMap s.2).2.root) ∧
        ((∃ proof ∈ proofs, proof.path = op.key.1) → ∃ a t', op.run s.1 = (.ok a, t')) ∧
        (¬ Determined hasher m.root proofs op.key.1 → op.run s.1 = (.error .unprovenKey, s.1)) := by
  obtain ⟨t, ht, hfollows⟩ := m.follows_fromProofs laws hproofs
  refine ⟨t, ht, fun ops => ?_⟩
  have hrun := hfollows.run laws ops
  refine ⟨hrun.root_eq, fun op => ⟨fun a t' hop => ?_, ?_, hrun.refuses op⟩⟩
  · obtain ⟨hanswer, hnext⟩ := hrun.answer laws op hop
    exact ⟨hanswer, hnext.root_eq⟩
  · rintro ⟨proof, hmem, hkey⟩
    exact hrun.succeeds laws op hmem hkey

end ProofBacked

/-! ## One proof of two keys -/

namespace SmallTree

open RawTrie (hashKey)

attribute [local instance] trie

def carol : Bytes := strBytes "account:car"

def keyHash (k : Bytes) : KeyHash := ⟨hashKey k, rfl⟩

/-- Two accounts. -/
def accounts : StateMap :=
  (StateMap.set (StateMap.set ⟨∅, by simp⟩ (keyHash alice) (some [5])) (keyHash bob) (some [6]))

/-- The first account's proof: beside its path are the second account's subtree and an empty leaf. -/
def aliceProof : InclusionProof Bytes Bytes :=
  ⟨hashKey alice, some [5], [hasher.node (hasher.leaf (hashKey bob) [6]) hasher.empty, hasher.empty]⟩

theorem aliceProof_verifies : ∀ proof ∈ [aliceProof],
    SparseMerkle.verifyProof hasher 2 accounts.root proof = true := by decide +kernel

/-- Nothing says what the third account holds: it would be beside the second. -/
theorem carol_undetermined : ¬ Determined hasher accounts.root [aliceProof] (keyHash carol).1 := by
  rintro ⟨pre, rest, h, hpath, hshows, hrest⟩
  have hcarol : (keyHash carol).1 = [true, true] := by decide +kernel
  rw [hcarol] at hpath
  cases hshows with
  | root =>
    rw [List.nil_append] at hpath
    subst hpath
    have hroot : accounts.root ≠ empties hasher 2 := by decide +kernel
    rcases hrest with hrest | hrest
    · cases hrest
    · exact hroot hrest
  | @beside proof pre' rest' b _ hmem hproof hs =>
    obtain rfl := List.mem_singleton.mp hmem
    have halice : aliceProof.path = [false, true] := by decide +kernel
    rw [halice] at hproof
    match pre', hproof with
    | [], hproof =>
      obtain ⟨rfl, -⟩ := List.cons.inj hproof
      obtain rfl : rest = [true] := by simpa using hpath.symm
      obtain rfl : hasher.node (hasher.leaf (hashKey bob) [6]) hasher.empty = h := Option.some.inj hs
      rcases hrest with hrest | hrest
      · cases hrest
      · exact absurd hrest (by decide +kernel)
    | c :: pre', hproof =>
      obtain ⟨rfl, -⟩ := List.cons.inj hproof
      cases (List.cons.inj hpath).1
  | leaf hmem =>
    obtain rfl := List.mem_singleton.mp hmem
    have halice : aliceProof.path = [false, true] := by decide +kernel
    rw [halice] at hpath
    cases (List.cons.inj hpath).1

/-- After the first account is deleted from the copy, it reads as absent, with the root of the map without
it, and the third account is still refused. -/
theorem alice_replayed : ∃ t, ProofBackedTrie.fromProofs accounts.root [aliceProof] = .ok t ∧
    let s := [TrieOp.apply (keyHash alice) none].foldl TrieOp.both (t, accounts)
    s.1.root = s.2.root ∧ (∃ a t', (TrieOp.get (keyHash alice)).run s.1 = (.ok a, t')) ∧
      (TrieOp.get (keyHash carol)).run s.1 = (.error .unprovenKey, s.1) := by
  obtain ⟨t, ht, hops⟩ := ProofBackedTrie.simulates laws accounts [aliceProof] aliceProof_verifies
  obtain ⟨hroot, hop⟩ := hops [.apply (keyHash alice) none]
  exact ⟨t, ht, hroot, (hop (.get (keyHash alice))).2.1 ⟨aliceProof, List.mem_singleton.mpr rfl, rfl⟩,
    (hop (.get (keyHash carol))).2.2 carol_undetermined⟩

end SmallTree

end Arxium
