import Mathlib.Tactic.Common
import Mathlib.Logic.Function.Basic
import Mathlib.Data.List.Basic

/-!
# Lib/SparseMerkle — a sparse Merkle tree and a partial copy of it built from proofs

The tree has one leaf per bit path of a fixed length.  Its root is defined from *all* leaves
(`rootOf`), so what a root commits to is a function of paths, with no structure to keep well formed.
`Partial` is the copy a verifier builds from proofs against a root: the children of the nodes it has
seen, and the values of the leaves it has seen.

* `climb_eq_rootOf` — a proof against a root has the leaf and the siblings of the tree.
* `Partial.Sound.get`, `Partial.Sound.apply` — whatever a partial copy answers is true of the tree
  whose root it has, and a write takes it to the copy of the written tree.
* `Partial.covers_ofProofs`, `Partial.Covers.apply` — a path with a proof can be read and written,
  and stays so through writes to other such paths.
-/

namespace SparseMerkle

/-- The hash functions of a tree with values `L` and hashes `H`. -/
structure Hasher (L H : Type) where
  leaf : List Bool → L → H
  node : H → H → H
  empty : H

/-- The hash functions do not collide. -/
structure Hasher.Laws {L H : Type} (X : Hasher L H) : Prop where
  leaf_inj : ∀ {p q v w}, X.leaf p v = X.leaf q w → p = q ∧ v = w
  node_inj : ∀ {l r l' r'}, X.node l r = X.node l' r' → l = l' ∧ r = r'
  leaf_ne_empty : ∀ {p v}, X.leaf p v ≠ X.empty

variable {L H : Type} (X : Hasher L H)

/-- The hash of an empty subtree of each depth. -/
def empties : Nat → H
  | 0 => X.empty
  | d + 1 => X.node (empties d) (empties d)

/-- The leaf hashes below the child `b`. -/
def child (g : List Bool → H) (b : Bool) : List Bool → H := fun p => g (b :: p)

/-- The root over all leaf hashes with paths of length `d`. -/
def rootOf : Nat → (List Bool → H) → H
  | 0, g => g []
  | d + 1, g => X.node (rootOf d (child g false)) (rootOf d (child g true))

/-- A node from the child on a path and its sibling. -/
def join (b : Bool) (inner sibling : H) : H :=
  if b then X.node sibling inner else X.node inner sibling

/-- The root a leaf hash and its siblings lead to, siblings listed from the top. -/
def climb : List Bool → List H → H → H
  | b :: p, s :: sibs, h => join X b (climb p sibs h) s
  | _, _, h => h

/-- The siblings along a path of the tree. -/
def siblings (g : List Bool → H) : List Bool → List H
  | [] => []
  | b :: p => rootOf X p.length (child g !b) :: siblings (child g b) p

@[simp] theorem length_siblings (g : List Bool → H) (p : List Bool) :
    (siblings X g p).length = p.length := by
  induction p generalizing g with
  | nil => rfl
  | cons b p ih => simp [siblings, ih]

theorem rootOf_succ (d : Nat) (g : List Bool → H) (b : Bool) :
    rootOf X (d + 1) g = join X b (rootOf X d (child g b)) (rootOf X d (child g !b)) := by
  cases b <;> rfl

theorem child_update_same (g : List Bool → H) (b : Bool) (p : List Bool) (h : H) :
    child (Function.update g (b :: p) h) b = Function.update (child g b) p h := by
  funext q
  simp [child, Function.update_apply]

theorem child_update_other (g : List Bool → H) {b c : Bool} (hbc : b ≠ c) (p : List Bool) (h : H) :
    child (Function.update g (b :: p) h) c = child g c := by
  funext q
  simp [child, Ne.symm hbc]

/-- **The root after writing one leaf is climbed from it along the old siblings.** -/
theorem rootOf_update (g : List Bool → H) (p : List Bool) (h : H) :
    rootOf X p.length (Function.update g p h) = climb X p (siblings X g p) h := by
  induction p generalizing g with
  | nil => simp [rootOf, climb]
  | cons b p ih =>
    have hb : b ≠ !b := by simp
    rw [List.length_cons, rootOf_succ X p.length _ b, siblings, climb, child_update_same,
      child_update_other g hb, ih]

theorem rootOf_eq_climb (g : List Bool → H) (p : List Bool) :
    rootOf X p.length g = climb X p (siblings X g p) (g p) := by
  rw [← rootOf_update, Function.update_eq_self]

/-! ## What a root commits to -/

section Commit

variable {X} (laws : X.Laws)

include laws

theorem join_inj {b : Bool} {i s i' s' : H} (h : join X b i s = join X b i' s') :
    i = i' ∧ s = s' := by
  cases b with
  | true =>
    obtain ⟨hs, hi⟩ := laws.node_inj h
    exact ⟨hi, hs⟩
  | false => exact laws.node_inj h

/-- A proof against the root of a tree has the tree's own leaf and siblings. -/
theorem climb_eq_rootOf {g : List Bool → H} {p : List Bool} {sibs : List H} {h : H}
    (hlen : sibs.length = p.length) (hroot : climb X p sibs h = rootOf X p.length g) :
    h = g p ∧ sibs = siblings X g p := by
  induction p generalizing g sibs with
  | nil =>
    obtain rfl := List.length_eq_zero_iff.mp hlen
    exact ⟨hroot, rfl⟩
  | cons b p ih =>
    match sibs, hlen with
    | s :: sibs, hlen =>
      rw [List.length_cons, rootOf_succ X p.length g b, climb] at hroot
      obtain ⟨hinner, hs⟩ := join_inj laws hroot
      obtain ⟨hh, hsibs⟩ := ih (by simpa using hlen) hinner
      exact ⟨hh, by rw [siblings, hs, hsibs]⟩

/-- A child of an empty subtree is empty. -/
theorem child_of_empties {g : List Bool → H} {d : Nat} (h : rootOf X (d + 1) g = empties X (d + 1))
    (b : Bool) : rootOf X d (child g b) = empties X d := by
  obtain ⟨hl, hr⟩ := laws.node_inj h
  cases b <;> assumption

end Commit

/-! ## Partial copies -/

/-- A proof that a path holds a value, or that it holds none. -/
structure InclusionProof (L H : Type) where
  path : List Bool
  value : Option L
  siblings : List H

/-- The hash of a leaf, present or not. -/
def leafHash (p : List Bool) (v : Option L) : H := v.elim X.empty (X.leaf p)

/-- `verify_proof`. -/
def verifyProof [DecidableEq H] (depth : Nat) (root : H) (proof : InclusionProof L H) : Bool :=
  proof.path.length = depth && proof.siblings.length = depth &&
    climb X proof.path proof.siblings (leafHash X proof.path proof.value) = root

/-- The nodes and leaves a verifier has seen, under its current root. -/
structure Partial (L H : Type) where
  root : H
  nodes : H → Option (H × H)
  leaves : H → Option L

section Ops

variable [DecidableEq H]

/-- Walks down a path: its siblings and its leaf hash.  An empty subtree needs no nodes. -/
def descend (nodes : H → Option (H × H)) : List Bool → H → Option (List H × H)
  | [], h => some ([], h)
  | b :: p, h =>
    if h = empties X (p.length + 1) then do
      let (sibs, leaf) ← descend nodes p (empties X p.length)
      return (empties X p.length :: sibs, leaf)
    else do
      let (l, r) ← nodes h
      let (sibs, leaf) ← descend nodes p (if b then r else l)
      return ((if b then l else r) :: sibs, leaf)

/-- Adds the nodes from a leaf hash up to the root it leads to. -/
def record (nodes : H → Option (H × H)) : List Bool → List H → H → H → Option (H × H)
  | b :: p, s :: sibs, h =>
    let inner := climb X p sibs h
    Function.update (record nodes p sibs h) (join X b inner s)
      (some (if b then (s, inner) else (inner, s)))
  | _, _, _ => nodes

/-- Adds the value of a leaf. -/
def recordLeaf (leaves : H → Option L) (p : List Bool) (v : Option L) : H → Option L :=
  match v with
  | some v => Function.update leaves (X.leaf p v) (some v)
  | none => leaves

namespace Partial

/-- `record_path`. -/
def recordProof (t : Partial L H) (proof : InclusionProof L H) : Partial L H where
  root := t.root
  nodes := record X t.nodes proof.path proof.siblings (leafHash X proof.path proof.value)
  leaves := recordLeaf X t.leaves proof.path proof.value

/-- `from_proofs`: `none` when a proof does not verify. -/
def ofProofs (depth : Nat) (root : H) (proofs : List (InclusionProof L H)) :
    Option (Partial L H) :=
  if proofs.all (verifyProof X depth root) then
    some (proofs.foldl (recordProof X) ⟨root, fun _ => none, fun _ => none⟩)
  else none

/-- The value at a path, its proven absence, or `none` where no proof covers it. -/
def get (t : Partial L H) (p : List Bool) : Option (Option L) := do
  let (_, leaf) ← descend X t.nodes p t.root
  if leaf = X.empty then return none
  else (t.leaves leaf).map some

/-- Writes a path; `none` where no proof covers it. -/
def apply (t : Partial L H) (p : List Bool) (v : Option L) : Option (Partial L H) := do
  let (sibs, _) ← descend X t.nodes p t.root
  return ⟨climb X p sibs (leafHash X p v), record X t.nodes p sibs (leafHash X p v),
    recordLeaf X t.leaves p v⟩

end Partial

end Ops

/-! ## A partial copy answers truly -/

/-- The leaf hashes of a tree with the given contents. -/
def leaves (f : List Bool → Option L) : List Bool → H := fun p => leafHash X p (f p)

theorem leaves_update (f : List Bool → Option L) (p : List Bool) (v : Option L) :
    leaves X (Function.update f p v) = Function.update (leaves X f) p (leafHash X p v) := by
  funext q
  by_cases hq : q = p
  · subst hq
    simp [leaves]
  · simp [leaves, hq]

/-- The recorded nodes are real: a hash is recorded with the children it hashes. -/
def NodesSound (nodes : H → Option (H × H)) : Prop :=
  ∀ h l r, nodes h = some (l, r) → h = X.node l r

section Soundness

variable [DecidableEq H]

theorem record_sound {nodes : H → Option (H × H)} (hn : NodesSound X nodes) (p : List Bool)
    (sibs : List H) (h : H) : NodesSound X (record X nodes p sibs h) := by
  induction p generalizing sibs with
  | nil => exact hn
  | cons b p ih =>
    match sibs with
    | [] => exact hn
    | s :: sibs =>
      intro k l r hk
      rw [record, Function.update_apply] at hk
      by_cases hkey : k = join X b (climb X p sibs h) s
      · rw [if_pos hkey] at hk
        subst hkey
        cases b with
        | true =>
          obtain ⟨rfl, rfl⟩ : s = l ∧ climb X p sibs h = r := by simpa using hk
          rfl
        | false =>
          obtain ⟨rfl, rfl⟩ : climb X p sibs h = l ∧ s = r := by simpa using hk
          rfl
      · rw [if_neg hkey] at hk
        exact ih sibs k l r hk

variable {X} (laws : X.Laws)

include laws

/-- **A walk that succeeds sees the tree's own siblings and leaf.** -/
theorem descend_sound {nodes : H → Option (H × H)} (hn : NodesSound X nodes)
    {g : List Bool → H} {p : List Bool} {sibs : List H} {leaf : H}
    (h : descend X nodes p (rootOf X p.length g) = some (sibs, leaf)) :
    sibs = siblings X g p ∧ leaf = g p := by
  induction p generalizing g sibs with
  | nil =>
    obtain ⟨rfl, rfl⟩ : [] = sibs ∧ g [] = leaf := by simpa [descend, rootOf] using h
    exact ⟨rfl, rfl⟩
  | cons b p ih =>
    rw [descend, List.length_cons] at h
    split at h
    · rename_i hempty
      have hb := child_of_empties laws hempty b
      have hnb := child_of_empties laws hempty !b
      rw [← hb] at h
      simp only [Option.bind_eq_bind, Option.bind_eq_some_iff, Option.pure_def,
        Option.some.injEq, Prod.mk.injEq] at h
      obtain ⟨⟨sibs', leaf'⟩, hrec, rfl, rfl⟩ := h
      obtain ⟨rfl, rfl⟩ := ih hrec
      exact ⟨by rw [siblings, hb, hnb], rfl⟩
    · simp only [Option.bind_eq_bind, Option.bind_eq_some_iff, Option.pure_def,
        Option.some.injEq, Prod.mk.injEq] at h
      obtain ⟨⟨l, r⟩, hnode, ⟨sibs', leaf'⟩, hrec, rfl, rfl⟩ := h
      obtain ⟨rfl, rfl⟩ := laws.node_inj (hn _ l r hnode)
      have hchild : (if b then rootOf X p.length (child g true)
          else rootOf X p.length (child g false)) = rootOf X p.length (child g b) := by
        cases b <;> rfl
      rw [hchild] at hrec
      obtain ⟨rfl, rfl⟩ := ih hrec
      refine ⟨?_, rfl⟩
      cases b <;> rfl

end Soundness

/-- A partial copy of the tree with contents `f`. -/
structure Partial.Sound (depth : Nat) (f : List Bool → Option L) (t : Partial L H) : Prop where
  root : t.root = rootOf X depth (SparseMerkle.leaves X f)
  nodes : NodesSound X t.nodes
  leaves : ∀ h v, t.leaves h = some v → ∃ p, h = X.leaf p v

namespace Partial

variable {X} {depth : Nat} {f : List Bool → Option L} {t t' : Partial L H}

theorem recordLeaf_sound [DecidableEq H] {seen : H → Option L}
    (hs : ∀ h v, seen h = some v → ∃ p, h = X.leaf p v) (p : List Bool) (v : Option L) :
    ∀ h w, recordLeaf X seen p v h = some w → ∃ q, h = X.leaf q w := by
  intro h w hw
  match v with
  | none => exact hs h w hw
  | some v =>
    rw [recordLeaf, Function.update_apply] at hw
    by_cases hh : h = X.leaf p v
    · rw [if_pos hh] at hw
      obtain rfl : v = w := by simpa using hw
      exact ⟨p, hh⟩
    · rw [if_neg hh] at hw
      exact hs h w hw

variable [DecidableEq H]

theorem recordProof_sound (h : t.Sound X depth f) (proof : InclusionProof L H) :
    (t.recordProof X proof).Sound X depth f where
  root := h.root
  nodes := record_sound X h.nodes _ _ _
  leaves := recordLeaf_sound h.leaves _ _

/-- **Proofs against a tree's root build a partial copy of it.** -/
theorem sound_ofProofs {proofs : List (InclusionProof L H)}
    (h : ofProofs X depth (rootOf X depth (SparseMerkle.leaves X f)) proofs = some t) :
    t.Sound X depth f := by
  rw [ofProofs] at h
  split at h
  · obtain rfl := Option.some.inj h
    have hinit : (⟨rootOf X depth (SparseMerkle.leaves X f), fun _ => none, fun _ => none⟩ :
        Partial L H).Sound X depth f :=
      ⟨rfl, fun _ _ _ h => absurd h (by simp), fun _ _ h => absurd h (by simp)⟩
    exact List.foldlRecOn proofs _ hinit fun t ht proof _ => recordProof_sound ht proof
  · exact absurd h (by simp)

variable (laws : X.Laws)

include laws

/-- **What a partial copy answers is true.** -/
theorem Sound.get (h : t.Sound X depth f) {p : List Bool} (hp : p.length = depth) {v : Option L}
    (hv : t.get X p = some v) : f p = v := by
  simp only [Partial.get, Option.bind_eq_bind, Option.bind_eq_some_iff] at hv
  obtain ⟨⟨sibs, leaf⟩, hwalk, hv⟩ := hv
  rw [h.root, ← hp] at hwalk
  obtain ⟨-, rfl⟩ := descend_sound laws h.nodes hwalk
  cases hf : f p with
  | none => simpa [SparseMerkle.leaves, leafHash, hf] using hv
  | some w =>
    simp only [SparseMerkle.leaves, leafHash, hf, Option.elim_some, if_neg laws.leaf_ne_empty,
      Option.map_eq_some_iff] at hv
    obtain ⟨u, hu, rfl⟩ := hv
    obtain ⟨q, hq⟩ := h.leaves _ u hu
    rw [(laws.leaf_inj hq).2]

/-- **A write takes a partial copy to one of the written tree.** -/
theorem Sound.apply (h : t.Sound X depth f) {p : List Bool} (hp : p.length = depth)
    {v : Option L} (ht' : t.apply X p v = some t') :
    t'.Sound X depth (Function.update f p v) := by
  simp only [Partial.apply, Option.bind_eq_bind, Option.bind_eq_some_iff, Option.pure_def,
    Option.some.injEq] at ht'
  obtain ⟨⟨sibs, leaf⟩, hwalk, rfl⟩ := ht'
  rw [h.root, ← hp] at hwalk
  obtain ⟨rfl, -⟩ := descend_sound laws h.nodes hwalk
  refine ⟨?_, record_sound X h.nodes _ _ _, recordLeaf_sound h.leaves _ _⟩
  rw [leaves_update, ← hp, rootOf_update]

end Partial

/-! ## Paths with a proof can be read and written -/

section Walks

variable {X} [DecidableEq H]

/-- The walk down `p` in the tree with leaf hashes `g` succeeds. -/
def Walks (X : Hasher L H) (nodes : H → Option (H × H)) (g : List Bool → H) (p : List Bool) :
    Prop := (descend X nodes p (rootOf X p.length g)).isSome

theorem descend_empties (nodes : H → Option (H × H)) (p : List Bool) :
    (descend X nodes p (empties X p.length)).isSome := by
  induction p with
  | nil => rfl
  | cons b p ih =>
    obtain ⟨⟨sibs, leaf⟩, h⟩ := Option.isSome_iff_exists.mp ih
    simp [descend, h]

/-- The second map knows every node the first one knows. -/
def Extends (nodes nodes' : H → Option (H × H)) : Prop := ∀ h, (nodes h).isSome → (nodes' h).isSome

theorem extends_update (nodes : H → Option (H × H)) (k : H) (c : H × H) :
    Extends nodes (Function.update nodes k (some c)) := by
  intro h hh
  by_cases hk : h = k
  · simp [hk]
  · simpa [hk] using hh

theorem extends_record (nodes : H → Option (H × H)) (p : List Bool) (sibs : List H) (h : H) :
    Extends nodes (record X nodes p sibs h) := by
  induction p generalizing sibs with
  | nil => exact fun _ hh => hh
  | cons b p ih =>
    match sibs with
    | [] => exact fun _ hh => hh
    | s :: sibs => exact fun k hk => extends_update _ _ _ k (ih sibs k hk)

variable (laws : X.Laws)

include laws

/-- A walk step: below an empty subtree nothing is needed, below any other node its children. -/
theorem walks_cons {nodes : H → Option (H × H)} (hn : NodesSound X nodes) {g : List Bool → H}
    {b : Bool} {p : List Bool} :
    Walks X nodes g (b :: p) ↔ Walks X nodes (child g b) p ∧
      (rootOf X (p.length + 1) g = empties X (p.length + 1) ∨
        (nodes (rootOf X (p.length + 1) g)).isSome) := by
  rw [Walks, Walks, descend, List.length_cons]
  by_cases hempty : rootOf X (p.length + 1) g = empties X (p.length + 1)
  · rw [if_pos hempty, child_of_empties laws hempty b]
    obtain ⟨⟨sibs, leaf⟩, h⟩ := Option.isSome_iff_exists.mp (descend_empties (X := X) nodes p)
    simp [h, hempty]
  · rw [if_neg hempty]
    cases hnode : nodes (rootOf X (p.length + 1) g) with
    | none => simp [hempty]
    | some c =>
      obtain ⟨hl, hr⟩ := laws.node_inj (hn _ c.1 c.2 hnode)
      have hchild : (if b then c.2 else c.1) = rootOf X p.length (child g b) := by
        cases b
        · exact hl.symm
        · exact hr.symm
      cases hrec : descend X nodes p (rootOf X p.length (child g b)) <;>
        simp [hchild, hrec]

theorem Walks.mono {nodes nodes' : H → Option (H × H)} (hn : NodesSound X nodes)
    (hn' : NodesSound X nodes') (hext : Extends nodes nodes') {g : List Bool → H} {p : List Bool}
    (h : Walks X nodes g p) : Walks X nodes' g p := by
  induction p generalizing g with
  | nil => rfl
  | cons b p ih =>
    obtain ⟨hrest, hnode⟩ := (walks_cons laws hn).mp h
    exact (walks_cons laws hn').mpr ⟨ih hrest, hnode.imp_right (hext _)⟩

/-- **Writing one path keeps every walk that succeeded.** -/
theorem Walks.update {nodes : H → Option (H × H)} (hn : NodesSound X nodes) {g : List Bool → H}
    {p q : List Bool} (hlen : p.length = q.length) (h : Walks X nodes g p) (x : H) :
    Walks X (record X nodes q (siblings X g q) x) (Function.update g q x) p := by
  induction p generalizing g q with
  | nil => rfl
  | cons b p ih =>
    match q, hlen with
    | c :: q, hlen =>
      have hpq : p.length = q.length := by simpa using hlen
      have hnew := record_sound X hn (c :: q) (siblings X g (c :: q)) x
      obtain ⟨hrest, -⟩ := (walks_cons laws hn).mp h
      refine (walks_cons laws hnew).mpr ⟨?_, .inr ?_⟩
      · by_cases hbc : c = b
        · subst hbc
          rw [child_update_same]
          exact (ih hpq hrest).mono laws (record_sound X hn _ _ _) hnew (extends_update _ _ _)
        · rw [child_update_other g hbc]
          exact hrest.mono laws hn hnew (extends_record nodes _ _ _)
      · rw [hpq, ← List.length_cons (a := c), rootOf_update]
        simp [siblings, record, climb]

end Walks

namespace Partial

variable {X} [DecidableEq H] {depth : Nat} {f : List Bool → Option L} {t t' : Partial L H}

/-- The copy can read and write the path. -/
structure Covers (X : Hasher L H) (f : List Bool → Option L) (t : Partial L H) (p : List Bool) :
    Prop where
  walk : Walks X t.nodes (SparseMerkle.leaves X f) p
  leaf : ∀ v, f p = some v → (t.leaves (X.leaf p v)).isSome

theorem recordLeaf_isSome (seen : H → Option L) (p : List Bool) (v : Option L) {h : H}
    (hh : (seen h).isSome) : (recordLeaf X seen p v h).isSome := by
  match v with
  | none => exact hh
  | some v =>
    by_cases hk : h = X.leaf p v
    · simp [recordLeaf, hk]
    · simpa [recordLeaf, hk] using hh

variable (laws : X.Laws)

include laws

/-- A covered path reads its value. -/
theorem Covers.get (h : t.Sound X depth f) {p : List Bool} (hp : p.length = depth)
    (hc : t.Covers X f p) : t.get X p = some (f p) := by
  obtain ⟨⟨sibs, leaf⟩, hwalk⟩ := Option.isSome_iff_exists.mp hc.walk
  obtain ⟨-, rfl⟩ := descend_sound laws h.nodes hwalk
  rw [hp, ← h.root] at hwalk
  cases hf : f p with
  | none => simp [Partial.get, hwalk, SparseMerkle.leaves, leafHash, hf]
  | some v =>
    obtain ⟨w, hw⟩ := Option.isSome_iff_exists.mp (hc.leaf v hf)
    obtain ⟨q, hq⟩ := h.leaves _ w hw
    obtain rfl := (laws.leaf_inj hq).2
    simp [Partial.get, hwalk, SparseMerkle.leaves, leafHash, hf, laws.leaf_ne_empty, hw]

omit laws in
/-- A covered path can be written. -/
theorem Covers.isSome_apply (h : t.Sound X depth f) {p : List Bool} (hp : p.length = depth)
    (hc : t.Covers X f p) (v : Option L) : (t.apply X p v).isSome := by
  obtain ⟨⟨sibs, leaf⟩, hwalk⟩ := Option.isSome_iff_exists.mp hc.walk
  rw [hp, ← h.root] at hwalk
  simp [Partial.apply, hwalk]

/-- **Covered paths stay covered through writes.** -/
theorem Covers.apply (h : t.Sound X depth f) {p q : List Bool} (hp : p.length = depth)
    (hq : q.length = depth) (hc : t.Covers X f p) {v : Option L}
    (ht' : t.apply X q v = some t') : t'.Covers X (Function.update f q v) p := by
  simp only [Partial.apply, Option.bind_eq_bind, Option.bind_eq_some_iff, Option.pure_def,
    Option.some.injEq] at ht'
  obtain ⟨⟨sibs, leaf⟩, hwalk, rfl⟩ := ht'
  rw [h.root, ← hq] at hwalk
  obtain ⟨rfl, -⟩ := descend_sound laws h.nodes hwalk
  refine ⟨?_, ?_⟩
  · rw [leaves_update]
    exact hc.walk.update laws h.nodes (hp.trans hq.symm) _
  · intro w hw
    by_cases hpq : p = q
    · subst hpq
      obtain rfl : v = some w := by simpa using hw
      simp [recordLeaf]
    · exact recordLeaf_isSome _ _ _ (hc.leaf w (by simpa [hpq] using hw))

/-- Recording a proof keeps what was covered. -/
theorem Covers.recordProof (h : t.Sound X depth f) {p : List Bool} (hc : t.Covers X f p)
    (proof : InclusionProof L H) : (t.recordProof X proof).Covers X f p where
  walk := hc.walk.mono laws h.nodes (recordProof_sound h proof).nodes (extends_record _ _ _ _)
  leaf v hv := recordLeaf_isSome _ _ _ (hc.leaf v hv)

/-- A verified proof is a walk of the tree itself. -/
theorem walks_record {nodes : H → Option (H × H)} (hn : NodesSound X nodes) (g : List Bool → H)
    (p : List Bool) : Walks X (record X nodes p (siblings X g p) (g p)) g p := by
  induction p generalizing g with
  | nil => rfl
  | cons b p ih =>
    have hnew := record_sound X hn (b :: p) (siblings X g (b :: p)) (g (b :: p))
    refine (walks_cons laws hnew).mpr ⟨?_, .inr ?_⟩
    · exact (ih (child g b)).mono laws (record_sound X hn _ _ _) hnew (extends_update _ _ _)
    · rw [← List.length_cons (a := b), rootOf_eq_climb]
      simp [siblings, record, climb]

/-- Recording a verified proof covers its path. -/
theorem covers_recordProof (h : t.Sound X depth f) {proof : InclusionProof L H}
    (hv : verifyProof X depth (rootOf X depth (SparseMerkle.leaves X f)) proof = true) :
    (t.recordProof X proof).Covers X f proof.path := by
  simp only [verifyProof, Bool.and_eq_true, decide_eq_true_eq] at hv
  obtain ⟨⟨hp, hs⟩, hroot⟩ := hv
  rw [← hp] at hroot
  obtain ⟨hleaf, hsibs⟩ := climb_eq_rootOf laws (hs.trans hp.symm) hroot
  refine ⟨?_, ?_⟩
  · rw [Partial.recordProof, hleaf, hsibs]
    exact walks_record laws h.nodes _ _
  · intro v hv
    have hval : proof.value = some v := by
      rw [SparseMerkle.leaves, hv] at hleaf
      cases hpv : proof.value with
      | none => exact absurd hleaf (by simp [leafHash, hpv, Ne.symm laws.leaf_ne_empty])
      | some w =>
        rw [leafHash, leafHash, hpv] at hleaf
        rw [(laws.leaf_inj hleaf).2]
    simp [Partial.recordProof, recordLeaf, hval]

/-- **A partial copy covers every path it was given a proof for.** -/
theorem covers_ofProofs {proofs : List (InclusionProof L H)} {proof : InclusionProof L H}
    (h : ofProofs X depth (rootOf X depth (SparseMerkle.leaves X f)) proofs = some t)
    (hmem : proof ∈ proofs) : t.Covers X f proof.path := by
  rw [ofProofs] at h
  split at h
  · rename_i hall
    obtain rfl := Option.some.inj h
    have hinit : (⟨rootOf X depth (SparseMerkle.leaves X f), fun _ => none, fun _ => none⟩ :
        Partial L H).Sound X depth f :=
      ⟨rfl, fun _ _ _ h => absurd h (by simp), fun _ _ h => absurd h (by simp)⟩
    -- Along the fold: once the proof is recorded its path stays covered.
    have hfold : ∀ (l : List (InclusionProof L H)) (s : Partial L H), s.Sound X depth f →
        (∀ x ∈ l, verifyProof X depth (rootOf X depth (SparseMerkle.leaves X f)) x = true) →
        (proof ∈ l ∨ s.Covers X f proof.path) →
        (l.foldl (Partial.recordProof X) s).Covers X f proof.path := by
      intro l
      induction l with
      | nil => exact fun s _ _ hs => hs.resolve_left List.not_mem_nil
      | cons x l ih =>
        intro s hs hver hor
        refine ih _ (recordProof_sound hs x) (fun y hy => hver y (List.mem_cons_of_mem x hy)) ?_
        rcases hor with hmem | hc
        · rcases List.mem_cons.mp hmem with rfl | hmem
          · exact .inr (covers_recordProof laws hs (hver _ List.mem_cons_self))
          · exact .inl hmem
        · exact .inr (hc.recordProof laws hs x)
    exact hfold proofs _ hinit (fun x hx => List.all_eq_true.mp hall x hx) (.inl hmem)
  · exact absurd h (by simp)

end Partial

end SparseMerkle
