import Arxium.Storage.Updates
import Arxium.Lib.SparseMerkle

/-!
# Storage/Trie — the state rows under one root

The state rows are the leaves of a sparse Merkle tree, each at the path its key hashes to, and the
database keeps that tree beside the rows.  The key hash, the leaf and node hashes and the encoding
of the values are `StateTrie`.

Paths have a fixed length, so keys are not all at different paths; what collision freeness gives is
that no two of the keys *in use* are at one path.  `Mirrors U` says the tree holds the rows of the
keys in `U`, and `mirrors_apply` that it keeps doing so as long as only keys in `U` are written.
-/

namespace Arxium

open Writes SparseMerkle

/-- The tree over the state rows. -/
class StateTrie where
  /-- The number of levels; 256 in the source. -/
  depth : Nat
  /-- The bits of the hashed key. -/
  keyPath : Key → List Bool
  hasher : Hasher Bytes Bytes
  encodeValue : (k : Key) → Value k → Bytes
  decodeValue : (k : Key) → Bytes → Option (Value k)

/-- What the tree holds: a value or nothing per path. -/
abbrev Contents := List Bool → Option Bytes

variable [StateTrie]

open StateTrie

/-- The root over the given contents. -/
def stateRoot (f : Contents) : Bytes := rootOf hasher depth (leaves hasher f)

/-- The value a write leaves at its path. -/
def leafValue (w : RowWrite) : Option Bytes := w.value.map (encodeValue w.key)

/-- One write to the tree; rows that are not state rows do not enter it. -/
def writeLeaf (f : Contents) (w : RowWrite) : Contents :=
  if w.key.isStateKey then Function.update f (keyPath w.key) (leafValue w) else f

/-- The tree after a list of writes. -/
def writeLeaves (ws : List RowWrite) (f : Contents) : Contents := ws.foldl writeLeaf f

/-- The tree holds the state rows of the keys in `U`. -/
def Mirrors (U : Set Key) (f : Contents) (s : Rows) : Prop :=
  ∀ k ∈ U, k.isStateKey = true → f (keyPath k) = (s k).map (encodeValue k)

theorem mirrors_writeLeaf {U : Set Key} (hU : Set.InjOn keyPath U) {f : Contents} {s : Rows}
    (h : Mirrors U f s) {w : RowWrite} (hw : w.key ∈ U) :
    Mirrors U (writeLeaf f w) (Writes.apply [w] s) := by
  intro k hk hstate
  rw [writeLeaf, Writes.apply_apply, lookup_cons, lookup_nil, Option.none_or]
  by_cases hkey : w.key = k
  · subst hkey
    rw [if_pos hstate, Function.update_self, Write.effect_self, Option.getD_some, leafValue]
  · have hpath : keyPath k ≠ keyPath w.key := fun he => hkey (hU hw hk he.symm)
    rw [Write.effect_of_ne hkey, Option.getD_none]
    split
    · rw [Function.update_of_ne hpath]
      exact h k hk hstate
    · exact h k hk hstate

/-- **The tree follows the rows.** -/
theorem mirrors_apply {U : Set Key} (hU : Set.InjOn keyPath U) {f : Contents} {s : Rows}
    (h : Mirrors U f s) {ws : List RowWrite} (hws : ∀ w ∈ ws, w.key ∈ U) :
    Mirrors U (writeLeaves ws f) (Writes.apply ws s) := by
  induction ws generalizing f s with
  | nil => exact h
  | cons w ws ih =>
    have hstep := mirrors_writeLeaf hU h (hws w List.mem_cons_self)
    have hrest := ih hstep fun u hu => hws u (List.mem_cons_of_mem w hu)
    rwa [← apply_append, List.singleton_append] at hrest

/-- No write changes what is at a path of none of its keys. -/
theorem writeLeaves_of_ne {f : Contents} {p : List Bool} {ws : List RowWrite}
    (h : ∀ w ∈ ws, w.key.isStateKey = true → keyPath w.key ≠ p) : writeLeaves ws f p = f p := by
  induction ws generalizing f with
  | nil => rfl
  | cons w ws ih =>
    change writeLeaves ws (writeLeaf f w) p = f p
    rw [ih fun u hu => h u (List.mem_cons_of_mem w hu), writeLeaf]
    split
    · rename_i hstate
      exact Function.update_of_ne (h w List.mem_cons_self hstate).symm ..
    · rfl

/-- The tree holds the last write to a key in use. -/
theorem writeLeaves_keyPath {U : Set Key} (hU : Set.InjOn keyPath U) {ws : List RowWrite}
    (hws : ∀ w ∈ ws, w.key ∈ U) (f : Contents) {k : Key} (hk : k ∈ U) (hstate : k.isStateKey = true) :
    writeLeaves ws f (keyPath k) =
      ((lookup ws k).map (·.map (encodeValue k))).getD (f (keyPath k)) := by
  induction ws generalizing f with
  | nil => rfl
  | cons w ws ih =>
    change writeLeaves ws (writeLeaf f w) (keyPath k) = _
    rw [ih (fun u hu => hws u (List.mem_cons_of_mem w hu)), lookup_cons]
    cases lookup ws k with
    | some x => rfl
    | none =>
      rw [Option.none_or, Option.map_none, Option.getD_none, writeLeaf]
      by_cases hkey : w.key = k
      · subst hkey
        rw [if_pos hstate, Function.update_self, Write.effect_self]
        rfl
      · have hpath : keyPath k ≠ keyPath w.key := fun he =>
          hkey (hU (hws w List.mem_cons_self) hk he.symm)
        rw [Write.effect_of_ne hkey, Option.map_none, Option.getD_none]
        split
        · exact Function.update_of_ne hpath ..
        · rfl

/-- **Only the last write to each key matters**, whatever the order of the others. -/
theorem writeLeaves_congr {U : Set Key} (hU : Set.InjOn keyPath U) {ws us : List RowWrite}
    (hws : ∀ w ∈ ws, w.key ∈ U) (hus : ∀ w ∈ us, w.key ∈ U)
    (h : ∀ k, k.isStateKey = true → lookup ws k = lookup us k) (f : Contents) :
    writeLeaves ws f = writeLeaves us f := by
  funext p
  by_cases hp : ∃ k ∈ U, k.isStateKey = true ∧ keyPath k = p
  · obtain ⟨k, hk, hstate, rfl⟩ := hp
    rw [writeLeaves_keyPath hU hws f hk hstate, writeLeaves_keyPath hU hus f hk hstate, h k hstate]
  · push Not at hp
    rw [writeLeaves_of_ne fun w hw hstate => hp _ (hws w hw) hstate,
      writeLeaves_of_ne fun w hw hstate => hp _ (hus w hw) hstate]

end Arxium
