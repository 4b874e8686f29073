import Arxium.Lib.SparseMerkle

/-!
# Lib/ShortcutTrie — a sparse Merkle tree kept by hash, with lone keys cut short

The tree is stored as records under the hashes of its nodes, for every root it ever had, and no record is
ever taken out.  A subtree that holds one key is one record, from which the walk rebuilds the chain below:

    node l r             two children
    lone q leaf level    the subtree at `level` that holds only the key `q`
    leaf q v             the value of a key

Writing a key walks down to it, gives the siblings that were rebuilt a record of their own, and climbs
back up.  `Stored` says that a tree can be walked from its root; a write keeps every stored tree stored
(`update_stored`), because a hash says which subtree it is of, and at which level.
-/

namespace SparseMerkle

variable {L H : Type} (X : Hasher L H)

/-- Leaves, nodes and the empty leaf are told apart by their hashes. -/
structure Hasher.Separated (X : Hasher L H) : Prop where
  node_ne_leaf : ∀ {l r p v}, X.node l r ≠ X.leaf p v
  node_ne_empty : ∀ {l r}, X.node l r ≠ X.empty

/-! ## Records and walks -/

/-- What is stored under a hash. -/
inductive Record (L H : Type)
  | node (left right : H)
  | lone (path : List Bool) (leaf : H) (level : Nat)
  | leaf (path : List Bool) (value : L)

abbrev NodeMap (L H : Type) := H → Option (Record L H)

/-- The nodes a walk rebuilt: each with the record it would have and its children. -/
abbrev Expanded (L H : Type) := H → Option (Record L H × (H × H))

/-- The root of a subtree that holds one key, from its path and leaf hash. -/
def lone : List Bool → H → H
  | [], leaf => leaf
  | b :: p, leaf => join X b (lone p leaf) (empties X p.length)

/-- The children of a node, by the child on a path and its sibling. -/
def sides (b : Bool) (inner sibling : H) : H × H := if b then (sibling, inner) else (inner, sibling)

section Operations

variable [DecidableEq H]

/-- Rebuilds the chain of a lone key from a level down. -/
def expand (path : List Bool) (leaf : H) : Nat → List Bool → Expanded L H → Expanded L H
  | _, [], e => e
  | level, b :: p, e => expand path leaf (level + 1) p
      (Function.update e (lone X (b :: p) leaf)
        (some (.lone path leaf level, sides b (lone X p leaf) (empties X p.length))))

/-- `node_children`: the children of a node, rebuilt or read, and what is rebuilt by then. -/
def nodeChildren (nodes : NodeMap L H) (e : Expanded L H) (h : H) :
    Option ((H × H) × Expanded L H) :=
  match e h with
  | some (_, children) => some (children, e)
  | none =>
    match nodes h with
    | some (.node l r) => some ((l, r), e)
    | some (.lone path leaf level) =>
      let e := expand X path leaf level (path.drop level) e
      (e h).map fun entry => (entry.2, e)
    | _ => none

/-- `descend`: the siblings along a path, the leaf hash at its end, and what was rebuilt. -/
def descendStored (nodes : NodeMap L H) :
    List Bool → H → Expanded L H → Option (List H × H × Expanded L H)
  | [], h, e => some ([], h, e)
  | b :: p, h, e =>
    if h = empties X (p.length + 1) then do
      let (sibs, leaf, e) ← descendStored nodes p (empties X p.length) e
      return (empties X p.length :: sibs, leaf, e)
    else do
      let ((l, r), e) ← nodeChildren X nodes e h
      let (sibs, leaf, e) ← descendStored nodes p (if b then r else l) e
      return ((if b then l else r) :: sibs, leaf, e)

/-- Walks with nothing rebuilt yet. -/
def walk (nodes : NodeMap L H) (root : H) (p : List Bool) : Option (List H × H × Expanded L H) :=
  descendStored X nodes p root fun _ => none

/-- `prove`, without the key's hashing: the siblings, and the value of the leaf if there is one. -/
def proveStored (nodes : NodeMap L H) (root : H) (p : List Bool) : Option (InclusionProof L H) := do
  let (sibs, leaf, _) ← walk X nodes root p
  if leaf = X.empty then return ⟨p, none, sibs⟩
  else
    match nodes leaf with
    | some (.leaf _ v) => return ⟨p, some v, sibs⟩
    | _ => none

/-! ## Writing a key -/

/-- A record for a sibling, if the walk rebuilt it. -/
def keepSibling (e : Expanded L H) (nodes : NodeMap L H) (s : H) : NodeMap L H :=
  match e s with
  | some (record, _) => Function.update nodes s (some record)
  | none => nodes

/-- A record for every sibling the walk rebuilt. -/
def keepSiblings (e : Expanded L H) (sibs : List H) (nodes : NodeMap L H) : NodeMap L H :=
  sibs.foldl (keepSibling e) nodes

/-- The climb so far: the node reached, whether its subtree holds only the written key, and the records. -/
structure Climb (L H : Type) where
  current : H
  alone : Bool
  nodes : NodeMap L H

/-- The chain of a lone key ends: its top gets the record that stands for all of it. -/
def closeChain (path : List Bool) (v : Option L) (level : Nat) (p : List Bool) (c : Climb L H) :
    NodeMap L H :=
  if c.alone ∧ p ≠ [] then
    Function.update c.nodes c.current (some (.lone path (leafHash X path v) level))
  else c.nodes

/-- A record for a node, unless its subtree is empty. -/
def keepNode (n : Nat) (h : H) (children : H × H) (nodes : NodeMap L H) : NodeMap L H :=
  if h = empties X n then nodes else Function.update nodes h (some (.node children.1 children.2))

/-- One step of the climb: from the child on the path, with the path `p` below it, to its parent. -/
def climbStep (path : List Bool) (v : Option L) (level : Nat) (b : Bool) (p : List Bool) (s : H)
    (c : Climb L H) : Climb L H :=
  if c.alone ∧ s = empties X p.length then { c with current := lone X (b :: p) (leafHash X path v) }
  else
    let parent := join X b c.current s
    ⟨parent, false, keepNode X (p.length + 1) parent (sides b c.current s)
      (closeChain X path v (level + 1) p c)⟩

/-- The climb from the leaf up to a level, along the rest of the path below it. -/
def climbStored (path : List Bool) (v : Option L) (nodes : NodeMap L H) :
    Nat → List Bool → List H → Climb L H
  | level, b :: p, s :: sibs =>
    climbStep X path v level b p s (climbStored path v nodes (level + 1) p sibs)
  | _, _, _ =>
    match v with
    | some v => ⟨X.leaf path v, true, Function.update nodes (X.leaf path v) (some (.leaf path v))⟩
    | none => ⟨X.empty, false, nodes⟩

/-- Writes or deletes one key: the new root, and the records. -/
def updateStored (nodes : NodeMap L H) (root : H) (path : List Bool) (v : Option L) :
    Option (H × NodeMap L H) := do
  let (sibs, _, e) ← walk X nodes root path
  let c := climbStored X path v (keepSiblings e sibs nodes) 0 path sibs
  return (c.current, if c.alone then
    Function.update c.nodes c.current (some (.lone path (leafHash X path v) 0)) else c.nodes)

/-- `trie_root_after`: the changes one after the other.  What a commit writes is what the later changes
read, so one map stands for the database and what is pending. -/
def trieRootAfter (nodes : NodeMap L H) (root : H) :
    List (List Bool × Option L) → Option (H × NodeMap L H)
  | [] => some (root, nodes)
  | (path, v) :: changes => do
    let (root, nodes) ← updateStored X nodes root path v
    trieRootAfter nodes root changes

end Operations

/-! ## Subtrees and their hashes -/

section Subtrees

/-- The hash of the subtree below a path, of the tree with contents `f`. -/
def rootAt (f : List Bool → Option L) (pre : List Bool) (n : Nat) : H :=
  rootOf X n fun q => leaves X f (pre ++ q)

/-- The siblings along a path below another. -/
def siblingsAt (f : List Bool → Option L) (pre p : List Bool) : List H :=
  siblings X (fun q => leaves X f (pre ++ q)) p

/-- No key is below the path. -/
def EmptyBelow (f : List Bool → Option L) (pre : List Bool) (n : Nat) : Prop :=
  ∀ q, q.length = n → f (pre ++ q) = none

/-- One key is below the path. -/
structure LoneBelow (f : List Bool → Option L) (pre q : List Bool) (v : L) : Prop where
  here : f (pre ++ q) = some v
  only : ∀ p, p.length = q.length → p ≠ q → f (pre ++ p) = none

/-- Two trees agree below a path. -/
def SameBelow (f f' : List Bool → Option L) (pre : List Bool) (n : Nat) : Prop :=
  ∀ q, q.length = n → f (pre ++ q) = f' (pre ++ q)

variable {X} {f f' : List Bool → Option L} {pre pre' p q : List Bool} {n n' : Nat} {v : L} {b : Bool}

theorem child_leaves (f : List Bool → Option L) (pre : List Bool) (b : Bool) :
    child (fun q => leaves X f (pre ++ q)) b = fun q => leaves X f ((pre ++ [b]) ++ q) := by
  funext q
  simp [child]

theorem rootAt_zero : rootAt X f pre 0 = leaves X f pre := by simp [rootAt, rootOf]

theorem rootAt_succ : rootAt X f pre (n + 1) =
    X.node (rootAt X f (pre ++ [false]) n) (rootAt X f (pre ++ [true]) n) := by
  rw [rootAt, rootOf, child_leaves, child_leaves, rootAt, rootAt]

theorem rootAt_join (b : Bool) : rootAt X f pre (n + 1) =
    join X b (rootAt X f (pre ++ [b]) n) (rootAt X f (pre ++ [!b]) n) := by
  rw [rootAt_succ]
  cases b <;> rfl

theorem siblingsAt_cons : siblingsAt X f pre (b :: p) =
    rootAt X f (pre ++ [!b]) p.length :: siblingsAt X f (pre ++ [b]) p := by
  rw [siblingsAt, siblings, child_leaves, child_leaves, rootAt, siblingsAt]

theorem SameBelow.mono (h : SameBelow f f' pre (n + 1)) (b : Bool) : SameBelow f f' (pre ++ [b]) n := by
  intro q hq
  simpa using h (b :: q) (by simp [hq])

theorem EmptyBelow.mono (h : EmptyBelow f pre (n + 1)) (b : Bool) : EmptyBelow f (pre ++ [b]) n := by
  intro q hq
  simpa using h (b :: q) (by simp [hq])

theorem LoneBelow.mono (h : LoneBelow f pre (b :: q) v) : LoneBelow f (pre ++ [b]) q v := by
  refine ⟨by simpa using h.here, fun p hp hne => ?_⟩
  simpa using h.only (b :: p) (by simp [hp]) (by simpa using hne)

theorem LoneBelow.suffix {q₁ q₂ : List Bool} (h : LoneBelow f pre (q₁ ++ q₂) v) :
    LoneBelow f (pre ++ q₁) q₂ v := by
  induction q₁ generalizing pre with
  | nil => simpa using h
  | cons b q₁ ih => simpa using ih h.mono

/-- Off the way of a lone key there is nothing. -/
theorem LoneBelow.empty (h : LoneBelow f pre (b :: q) v) : EmptyBelow f (pre ++ [!b]) q.length := by
  intro p hp
  simpa using h.only ((!b) :: p) (by simp [hp]) (by cases b <;> simp)

theorem LoneBelow.not_empty (h : LoneBelow f pre q v) : ¬ EmptyBelow f pre q.length := by
  intro he
  have hhere := h.here
  rw [he q rfl] at hhere
  cases hhere

theorem LoneBelow.cons (h : LoneBelow f (pre ++ [b]) q v) (he : EmptyBelow f (pre ++ [!b]) q.length) :
    LoneBelow f pre (b :: q) v := by
  refine ⟨by simpa using h.here, fun p hp hne => ?_⟩
  match p, hp with
  | c :: p, hp =>
    have hlen : p.length = q.length := by simpa using hp
    by_cases hc : c = b
    · subst hc
      simpa using h.only p hlen (by simpa using hne)
    · obtain rfl : c = !b := by cases b <;> cases c <;> simp_all
      simpa using he p hlen

theorem LoneBelow.congr (h : LoneBelow f pre q v) (hs : SameBelow f f' pre q.length) :
    LoneBelow f' pre q v :=
  ⟨(hs q rfl).symm.trans h.here, fun p hp hne => (hs p hp).symm.trans (h.only p hp hne)⟩

theorem EmptyBelow.congr (h : EmptyBelow f pre n) (hs : SameBelow f f' pre n) : EmptyBelow f' pre n :=
  fun q hq => (hs q hq).symm.trans (h q hq)

theorem rootAt_congr (hs : SameBelow f f' pre n) : rootAt X f pre n = rootAt X f' pre n := by
  induction n generalizing pre with
  | zero =>
    have := hs [] rfl
    rw [List.append_nil] at this
    rw [rootAt_zero, rootAt_zero, leaves, leaves, this]
  | succ n ih => rw [rootAt_succ, rootAt_succ, ih (hs.mono false), ih (hs.mono true)]

theorem rootAt_of_empty (h : EmptyBelow f pre n) : rootAt X f pre n = empties X n := by
  induction n generalizing pre with
  | zero =>
    have := h [] rfl
    rw [List.append_nil] at this
    rw [rootAt_zero, leaves, this]
    rfl
  | succ n ih => rw [rootAt_succ, ih (h.mono false), ih (h.mono true), empties]

theorem rootAt_of_lone (h : LoneBelow f pre q v) :
    rootAt X f pre q.length = lone X q (X.leaf (pre ++ q) v) := by
  induction q generalizing pre with
  | nil =>
    have := h.here
    rw [List.append_nil] at this
    rw [List.length_nil, rootAt_zero, leaves, this, lone, List.append_nil]
    rfl
  | cons b q ih =>
    rw [List.length_cons, rootAt_join b, ih h.mono, rootAt_of_empty h.empty, lone]
    simp

variable (laws : X.Laws)

include laws

theorem rootAt_eq_empties_iff : rootAt X f pre n = empties X n ↔ EmptyBelow f pre n := by
  refine ⟨fun h => ?_, rootAt_of_empty⟩
  induction n generalizing pre with
  | zero =>
    intro q hq
    obtain rfl := List.length_eq_zero_iff.mp hq
    rw [rootAt_zero, leaves] at h
    rw [List.append_nil]
    cases hf : f pre with
    | none => rfl
    | some v =>
      rw [hf] at h
      exact absurd h laws.leaf_ne_empty
  | succ n ih =>
    rw [rootAt_succ, empties] at h
    obtain ⟨hl, hr⟩ := laws.node_inj h
    intro q hq
    obtain ⟨b, q, rfl⟩ := List.exists_cons_of_length_eq_add_one hq
    cases b with
    | false => simpa using ih hl q (by simpa using hq)
    | true => simpa using ih hr q (by simpa using hq)

variable (sep : X.Separated)

include sep

omit laws in
theorem leaves_ne_node {l r : H} : leaves X f p ≠ X.node l r := by
  rw [leaves]
  cases f p with
  | none => exact sep.node_ne_empty.symm
  | some v => exact sep.node_ne_leaf.symm

/-- A hash has one depth, and one hash per leaf. -/
theorem rootAt_inj (h : rootAt X f pre n = rootAt X f' pre' n') :
    n = n' ∧ ∀ q, q.length = n → leaves X f (pre ++ q) = leaves X f' (pre' ++ q) := by
  induction n generalizing pre pre' n' with
  | zero =>
    cases n' with
    | zero =>
      refine ⟨rfl, fun q hq => ?_⟩
      obtain rfl := List.length_eq_zero_iff.mp hq
      rw [rootAt_zero, rootAt_zero] at h
      rwa [List.append_nil, List.append_nil]
    | succ n' =>
      rw [rootAt_zero, rootAt_succ] at h
      exact absurd h (leaves_ne_node sep)
  | succ n ih =>
    cases n' with
    | zero =>
      rw [rootAt_zero, rootAt_succ] at h
      exact absurd h.symm (leaves_ne_node sep)
    | succ n' =>
      rw [rootAt_succ, rootAt_succ] at h
      obtain ⟨hl, hr⟩ := laws.node_inj h
      obtain ⟨rfl, hleft⟩ := ih hl
      refine ⟨rfl, fun q hq => ?_⟩
      match q, hq with
      | false :: q, hq => simpa using hleft q (by simpa using hq)
      | true :: q, hq => simpa using (ih hr).2 q (by simpa using hq)

/-- **The hash of a subtree with a key in it says which subtree it is, and of which contents.** -/
theorem subtree_eq (hne : ¬ EmptyBelow f pre n) (h : rootAt X f pre n = rootAt X f' pre' n') :
    pre' = pre ∧ n' = n ∧ SameBelow f' f pre n := by
  obtain ⟨rfl, hleaves⟩ := rootAt_inj laws sep h
  have hvalue : ∀ q v, q.length = n → f (pre ++ q) = some v →
      pre' = pre ∧ f' (pre' ++ q) = some v := by
    intro q v hq hv
    have hleaf := hleaves q hq
    rw [leaves, leaves, hv] at hleaf
    cases hv' : f' (pre' ++ q) with
    | none =>
      rw [hv'] at hleaf
      exact absurd hleaf laws.leaf_ne_empty
    | some w =>
      rw [hv'] at hleaf
      obtain ⟨hp, rfl⟩ := laws.leaf_inj hleaf
      exact ⟨(List.append_cancel_right hp).symm, rfl⟩
  obtain ⟨q, hq, v, hv⟩ : ∃ q, q.length = n ∧ ∃ v, f (pre ++ q) = some v := by
    by_contra hnone
    refine hne fun q hq => ?_
    by_contra hsome
    exact hnone ⟨q, hq, Option.ne_none_iff_exists'.mp hsome⟩
  obtain ⟨rfl, -⟩ := hvalue q v hq hv
  refine ⟨rfl, rfl, fun r hr => ?_⟩
  cases hfr : f (pre' ++ r) with
  | some w => exact (hvalue r w hr hfr).2
  | none =>
    have hleaf := hleaves r hr
    rw [leaves, leaves, hfr] at hleaf
    cases hfr' : f' (pre' ++ r) with
    | none => rfl
    | some w =>
      rw [hfr'] at hleaf
      exact absurd hleaf.symm laws.leaf_ne_empty

end Subtrees

/-! ## Trees that can be walked -/

/-- **The subtree below a path can be walked**: it is empty, or its children are stored and can, or it
holds one key and the record that stands for the chain. -/
def Stored (nodes : NodeMap L H) (f : List Bool → Option L) : Nat → List Bool → Prop
  | 0, pre => ∀ v, f pre = some v → nodes (X.leaf pre v) = some (.leaf pre v)
  | n + 1, pre => EmptyBelow f pre (n + 1) ∨
      (nodes (rootAt X f pre (n + 1)) =
          some (.node (rootAt X f (pre ++ [false]) n) (rootAt X f (pre ++ [true]) n)) ∧
        ∀ b, Stored nodes f n (pre ++ [b])) ∨
      ∃ q v, q.length = n + 1 ∧ LoneBelow f pre q v ∧
        nodes (rootAt X f pre (n + 1)) = some (.lone (pre ++ q) (X.leaf (pre ++ q) v) pre.length) ∧
        nodes (X.leaf (pre ++ q) v) = some (.leaf (pre ++ q) v)

/-- Every subtree that could be walked still can. -/
def Keeps (nodes nodes' : NodeMap L H) : Prop :=
  ∀ f n pre, Stored X nodes f n pre → Stored X nodes' f n pre

section Keeping

variable {X} {nodes nodes' nodes'' : NodeMap L H} {f f' : List Bool → Option L} {pre p q : List Bool}
  {n : Nat} {v : L}

theorem Keeps.refl (nodes : NodeMap L H) : Keeps X nodes nodes := fun _ _ _ h => h

theorem Keeps.trans (h : Keeps X nodes nodes') (h' : Keeps X nodes' nodes'') : Keeps X nodes nodes'' :=
  fun f n pre hs => h' f n pre (h f n pre hs)

theorem stored_of_empty (h : EmptyBelow f pre n) : Stored X nodes f n pre := by
  cases n with
  | zero =>
    intro v hv
    have := h [] rfl
    rw [List.append_nil, hv] at this
    cases this
  | succ n => exact .inl h

theorem Stored.congr (h : Stored X nodes f n pre) (hs : SameBelow f f' pre n) :
    Stored X nodes f' n pre := by
  induction n generalizing pre with
  | zero =>
    intro v hv
    have := hs [] rfl
    rw [List.append_nil] at this
    exact h v (this.trans hv)
  | succ n ih =>
    rcases h with he | ⟨hnode, hchildren⟩ | ⟨q, v, hq, hlone, hrecord, hleaf⟩
    · exact .inl (he.congr hs)
    · refine .inr (.inl ⟨?_, fun b => ih (hchildren b) (hs.mono b)⟩)
      rw [← rootAt_congr hs, ← rootAt_congr (hs.mono false), ← rootAt_congr (hs.mono true)]
      exact hnode
    · refine .inr (.inr ⟨q, v, hq, hlone.congr (hq ▸ hs), ?_, hleaf⟩)
      rw [← rootAt_congr hs]
      exact hrecord

/-- The value of every key of a stored tree is stored. -/
theorem Stored.leaf (h : Stored X nodes f n pre) (hp : p.length = n) (hv : f (pre ++ p) = some v) :
    nodes (X.leaf (pre ++ p) v) = some (.leaf (pre ++ p) v) := by
  induction n generalizing pre p with
  | zero =>
    obtain rfl := List.length_eq_zero_iff.mp hp
    rw [List.append_nil] at hv ⊢
    exact h v hv
  | succ n ih =>
    match p, hp with
    | b :: p, hp =>
      rcases h with he | ⟨-, hchildren⟩ | ⟨q, w, hq, hlone, -, hleaf⟩
      · rw [he _ hp] at hv
        cases hv
      · have := ih (hchildren b) (p := p) (by simpa using hp) (by simpa using hv)
        simpa using this
      · by_cases hpq : b :: p = q
        · subst hpq
          obtain rfl := Option.some.inj (hv.symm.trans hlone.here)
          exact hleaf
        · rw [hlone.only _ (hp.trans hq.symm) hpq] at hv
          cases hv

variable [DecidableEq H] (laws : X.Laws) (sep : X.Separated)

include laws sep

/-- Storing a leaf keeps every tree. -/
theorem keeps_leaf (nodes : NodeMap L H) (q : List Bool) (v : L) :
    Keeps X nodes (Function.update nodes (X.leaf q v) (some (.leaf q v))) := by
  have hnode : ∀ {f pre n}, rootAt X f pre (n + 1) ≠ X.leaf q v := fun {f pre n} => by
    rw [rootAt_succ]
    exact sep.node_ne_leaf
  have hleaf : ∀ p w, nodes (X.leaf p w) = some (.leaf p w) →
      Function.update nodes (X.leaf q v) (some (.leaf q v)) (X.leaf p w) = some (.leaf p w) := by
    intro p w hw
    by_cases he : X.leaf p w = X.leaf q v
    · obtain ⟨rfl, rfl⟩ := laws.leaf_inj he
      exact Function.update_self ..
    · rw [Function.update_of_ne he, hw]
  intro f n
  induction n with
  | zero => exact fun pre h w hw => hleaf pre w (h w hw)
  | succ n ih =>
    rintro pre (he | ⟨hrecord, hchildren⟩ | ⟨p, w, hp, hlone, hrecord, hw⟩)
    · exact .inl he
    · exact .inr (.inl ⟨by rw [Function.update_of_ne hnode, hrecord], fun b => ih _ (hchildren b)⟩)
    · exact .inr (.inr ⟨p, w, hp, hlone, by rw [Function.update_of_ne hnode, hrecord], hleaf _ _ hw⟩)

/-- Storing a record for a subtree with a key in it keeps every tree, if the record fits every tree with
that subtree. -/
theorem keeps_record {record : Record L H} (hne : ¬ EmptyBelow f pre (n + 1))
    (hfits : ∀ g nodes', SameBelow f g pre (n + 1) → nodes' (rootAt X g pre (n + 1)) = some record →
      (∀ p w, nodes (X.leaf p w) = some (.leaf p w) → nodes' (X.leaf p w) = some (.leaf p w)) →
      (∀ pre, Stored X nodes g n pre → Stored X nodes' g n pre) → Stored X nodes' g (n + 1) pre) :
    Keeps X nodes (Function.update nodes (rootAt X f pre (n + 1)) (some record)) := by
  have hleaf : ∀ p w, nodes (X.leaf p w) = some (.leaf p w) → Function.update nodes
      (rootAt X f pre (n + 1)) (some record) (X.leaf p w) = some (.leaf p w) := by
    intro p w hw
    rw [Function.update_of_ne, hw]
    rw [rootAt_succ]
    exact sep.node_ne_leaf.symm
  intro g m
  induction m with
  | zero => exact fun pre' h w hw => hleaf _ _ (h w hw)
  | succ m ih =>
    intro pre' h
    by_cases heq : rootAt X f pre (n + 1) = rootAt X g pre' (m + 1)
    · -- The same hash is the same subtree, so the record fits it too.
      obtain ⟨rfl, hnm, hsame⟩ := subtree_eq laws sep hne heq
      obtain rfl : m = n := by omega
      refine hfits g _ (fun q hq => (hsame q hq).symm) ?_ hleaf ih
      rw [← heq, Function.update_self]
    · have hother := Function.update_of_ne (Ne.symm heq) (some record) nodes
      rcases h with he | ⟨hrecord, hc⟩ | ⟨p, w, hp, hlone, hrecord, hw⟩
      · exact .inl he
      · exact .inr (.inl ⟨hother.trans hrecord, fun b => ih _ (hc b)⟩)
      · exact .inr (.inr ⟨p, w, hp, hlone, hother.trans hrecord, hleaf _ _ hw⟩)

/-- So does storing a node whose children can be walked, -/
theorem keeps_node (hne : ¬ EmptyBelow f pre (n + 1)) (hchildren : ∀ b, Stored X nodes f n (pre ++ [b])) :
    Keeps X nodes (Function.update nodes (rootAt X f pre (n + 1))
      (some (.node (rootAt X f (pre ++ [false]) n) (rootAt X f (pre ++ [true]) n)))) := by
  refine keeps_record laws sep hne fun g nodes' hsame hrecord _ ih => ?_
  rw [rootAt_congr (hsame.mono false), rootAt_congr (hsame.mono true)] at hrecord
  exact .inr (.inl ⟨hrecord, fun b => ih _ ((hchildren b).congr (hsame.mono b))⟩)

/-- and the record of a lone key. -/
theorem keeps_lone (hlone : LoneBelow f pre q v) (hq : q.length = n + 1)
    (hleaf : nodes (X.leaf (pre ++ q) v) = some (.leaf (pre ++ q) v)) :
    Keeps X nodes (Function.update nodes (rootAt X f pre (n + 1))
      (some (.lone (pre ++ q) (X.leaf (pre ++ q) v) pre.length))) :=
  keeps_record laws sep (hq ▸ hlone.not_empty) fun _ _ hsame hrecord hleaves _ =>
    .inr (.inr ⟨q, v, hq, hlone.congr (hq ▸ hsame), hrecord, hleaves _ _ hleaf⟩)

end Keeping

/-! ## Walking a stored tree -/

section Walking

variable {X} {nodes : NodeMap L H} {f : List Bool → Option L} {pre p q : List Bool} {n : Nat} {v : L}
  {e e' : Expanded L H}

/-- The chain of a lone key is rebuilt: every node on it is there with its record and children. -/
def Chained (X : Hasher L H) (e : Expanded L H) (path : List Bool) (leaf : H) (level : Nat)
    (q : List Bool) : Prop :=
  ∀ q₁ b q₂, q = q₁ ++ b :: q₂ → e (lone X (b :: q₂) leaf) =
    some (.lone path leaf (level + q₁.length), sides b (lone X q₂ leaf) (empties X q₂.length))

/-- What was rebuilt are nodes of lone keys whose value is stored. -/
def Rebuilt (X : Hasher L H) (nodes : NodeMap L H) (f : List Bool → Option L) (e : Expanded L H) : Prop :=
  ∀ h r c, e h = some (r, c) → ∃ pre q v, q ≠ [] ∧ LoneBelow f pre q v ∧
    h = rootAt X f pre q.length ∧ r = .lone (pre ++ q) (X.leaf (pre ++ q) v) pre.length ∧
    Stored X nodes f 0 (pre ++ q)

/-- Each sibling of the path can be walked, or was rebuilt. -/
def SiblingsKnown (X : Hasher L H) (nodes : NodeMap L H) (f : List Bool → Option L) (e : Expanded L H)
    (pre p : List Bool) : Prop :=
  ∀ p₁ b p₂, p = p₁ ++ b :: p₂ → Stored X nodes f p₂.length (pre ++ p₁ ++ [!b]) ∨
    ∃ x, e (rootAt X f (pre ++ p₁ ++ [!b]) p₂.length) = some x

theorem rebuilt_none : Rebuilt X nodes f fun _ => none := fun _ _ _ h => by cases h

theorem SiblingsKnown.cons {b : Bool} (h : SiblingsKnown X nodes f e (pre ++ [b]) p)
    (hs : Stored X nodes f p.length (pre ++ [!b])) : SiblingsKnown X nodes f e pre (b :: p) := by
  intro p₁ c p₂ hp
  cases p₁ with
  | nil =>
    obtain ⟨rfl, rfl⟩ := List.cons.inj hp
    exact .inl (by simpa using hs)
  | cons _ p₁ =>
    rw [List.cons_append, List.cons.injEq] at hp
    obtain ⟨rfl, rfl⟩ := hp
    simpa using h p₁ c p₂ rfl

theorem Chained.tail {path : List Bool} {leaf : H} {level : Nat} {b : Bool}
    (h : Chained X e path leaf level (b :: q)) : Chained X e path leaf (level + 1) q := by
  intro q₁ c q₂ hq
  have := h (b :: q₁) c q₂ (by rw [hq]; rfl)
  rw [this, List.length_cons, Nat.add_assoc, Nat.add_comm 1]

theorem EmptyBelow.siblingsKnown (he : EmptyBelow f pre p.length) : SiblingsKnown X nodes f e pre p := by
  rintro p₁ b p₂ rfl
  refine .inl (stored_of_empty fun r hr => ?_)
  have := he (p₁ ++ (!b) :: r) (by simp [hr])
  simpa using this

/-- Beside a lone key every subtree is empty, or is part of its chain. -/
theorem LoneBelow.siblingsKnown (hlone : LoneBelow f pre q v) (hp : p.length = q.length)
    (hleaf : Stored X nodes f 0 (pre ++ q))
    (hchain : ∀ q₁ b q₂, q = q₁ ++ b :: q₂ → ∃ x, e (rootAt X f (pre ++ q₁) (q₂.length + 1)) = some x) :
    SiblingsKnown X nodes f e pre p := by
  rintro p₁ b p₂ rfl
  by_cases hon : ∃ q₂, q = p₁ ++ (!b) :: q₂
  · obtain ⟨q₂, rfl⟩ := hon
    have hlen : p₂.length = q₂.length := by simpa using hp
    cases q₂ with
    | nil => exact .inl (by simpa [hlen] using hleaf)
    | cons c q₂ =>
      obtain ⟨x, hx⟩ := hchain (p₁ ++ [!b]) c q₂ (by simp)
      exact .inr ⟨x, by simpa [hlen] using hx⟩
  · refine .inl (stored_of_empty fun r hr => ?_)
    have := hlone.only (p₁ ++ (!b) :: r) (by rw [← hp]; simp [hr]) fun h => hon ⟨r, h.symm⟩
    simpa using this

variable (laws : X.Laws) (sep : X.Separated)

include laws sep in
/-- The nodes of a chain have different hashes: each is less deep than those above it. -/
theorem lone_ne {b : Bool} {q₁ q₂ : List Bool} (hq₁ : q₁ ≠ []) (hlone : LoneBelow f pre (q₁ ++ b :: q₂) v)
    {leaf : H} (hleaf : leaf = X.leaf (pre ++ (q₁ ++ b :: q₂)) v) :
    lone X (q₁ ++ b :: q₂) leaf ≠ lone X (b :: q₂) leaf := by
  intro he
  have hbelow := rootAt_of_lone (X := X) hlone.suffix
  rw [List.append_assoc] at hbelow
  rw [hleaf, ← rootAt_of_lone hlone, ← hbelow] at he
  have hlen := (rootAt_inj laws sep he).1
  have := List.length_pos_iff.mpr hq₁
  rw [List.length_append] at hlen
  omega

variable [DecidableEq H]

/-- An entry is an old one or one of the chain. -/
theorem expand_eq_some {path : List Bool} {leaf : H} {level : Nat} {h : H} {x : Record L H × (H × H)}
    (hx : expand X path leaf level q e h = some x) : e h = some x ∨
      ∃ q₁ b q₂, q = q₁ ++ b :: q₂ ∧ h = lone X (b :: q₂) leaf ∧
        x.1 = .lone path leaf (level + q₁.length) := by
  induction q generalizing level e with
  | nil => exact .inl hx
  | cons b q ih =>
    rcases ih hx with hx | ⟨q₁, c, q₂, rfl, rfl, hr⟩
    · by_cases hh : h = lone X (b :: q) leaf
      · rw [hh, Function.update_self] at hx
        refine .inr ⟨[], b, q, rfl, hh, ?_⟩
        rw [← Option.some.inj hx]
        rfl
      · rw [Function.update_of_ne hh] at hx
        exact .inl hx
    · refine .inr ⟨b :: q₁, c, q₂, rfl, rfl, ?_⟩
      rw [hr, List.length_cons, Nat.add_assoc, Nat.add_comm 1]

/-- What is not on the chain is left. -/
theorem expand_of_ne {path : List Bool} {leaf : H} {level : Nat} {h : H}
    (hne : ∀ q₁ b q₂, q = q₁ ++ b :: q₂ → h ≠ lone X (b :: q₂) leaf) :
    expand X path leaf level q e h = e h := by
  induction q generalizing level e with
  | nil => rfl
  | cons b q ih =>
    rw [expand, ih fun q₁ c q₂ hq => hne (b :: q₁) c q₂ (by rw [hq]; rfl)]
    exact Function.update_of_ne (hne [] b q rfl) ..

/-- Below an empty subtree nothing is read. -/
theorem descendStored_empties (p : List Bool) (he : EmptyBelow f pre p.length) :
    descendStored X nodes p (empties X p.length) e =
      some (siblingsAt X f pre p, leaves X f (pre ++ p), e) := by
  induction p generalizing pre with
  | nil =>
    have hnone := he [] rfl
    rw [List.append_nil] at hnone ⊢
    rw [leaves, hnone]
    rfl
  | cons b p ih =>
    have hchild := ih (he.mono b)
    have hsib := rootAt_of_empty (X := X) (he.mono !b)
    rw [descendStored, List.length_cons, if_pos rfl, hchild, siblingsAt_cons, hsib]
    simp

/-- A lone record is expanded where it is met. -/
theorem descendStored_expand {path : List Bool} {leaf h : H} {level : Nat} {b : Bool}
    {x : Record L H × (H × H)} (hrecord : nodes h = some (.lone path leaf level))
    (hdrop : path.drop level = q) (hx : expand X path leaf level q (fun _ => none) h = some x)
    (hne : h ≠ empties X (p.length + 1)) : descendStored X nodes (b :: p) h (fun _ => none) =
      descendStored X nodes (b :: p) h (expand X path leaf level q fun _ => none) := by
  subst hdrop
  rw [descendStored, descendStored, if_neg hne, if_neg hne, nodeChildren, nodeChildren, hrecord, hx]
  simp [hx]

/-- What a lone record rebuilds. -/
theorem rebuilt_expand (hlone : LoneBelow f pre q v) (hleaf : Stored X nodes f 0 (pre ++ q)) :
    Rebuilt X nodes f (expand X (pre ++ q) (X.leaf (pre ++ q) v) pre.length q fun _ => none) := by
  intro h r c hx
  rcases expand_eq_some hx with hx | ⟨q₁, b, q₂, rfl, rfl, rfl⟩
  · cases hx
  · have hbelow := rootAt_of_lone (X := X) hlone.suffix
    rw [List.append_assoc] at hbelow
    refine ⟨pre ++ q₁, b :: q₂, v, by simp, hlone.suffix, hbelow.symm, ?_, ?_⟩
    · rw [List.append_assoc, List.length_append]
    · rwa [List.append_assoc]

include laws in
/-- A walk through a rebuilt chain. -/
theorem descendStored_lone {path : List Bool} {leaf : H} {level : Nat} (hlone : LoneBelow f pre q v)
    (hleaf : leaf = X.leaf (pre ++ q) v) (hchain : Chained X e path leaf level q)
    (hp : p.length = q.length) : descendStored X nodes p (lone X q leaf) e =
      some (siblingsAt X f pre p, leaves X f (pre ++ p), e) := by
  induction q generalizing pre p level with
  | nil =>
    obtain rfl := List.length_eq_zero_iff.mp hp
    have hhere := hlone.here
    rw [List.append_nil] at hhere hleaf ⊢
    rw [leaves, hhere, lone, hleaf]
    rfl
  | cons c q ih =>
    obtain ⟨b, p, rfl⟩ := List.exists_cons_of_length_eq_add_one hp
    have hpq : p.length = q.length := by simpa using hp
    have hleaf' : leaf = X.leaf ((pre ++ [c]) ++ q) v := by rw [hleaf]; simp
    have hroot : lone X (c :: q) leaf = rootAt X f pre (p.length + 1) := by
      rw [hleaf, ← rootAt_of_lone hlone, List.length_cons, hpq]
    have hne : lone X (c :: q) leaf ≠ empties X (p.length + 1) := by
      rw [hroot, Ne, rootAt_eq_empties_iff laws, hpq]
      exact hlone.not_empty
    have hentry := hchain [] c q rfl
    rw [descendStored, if_neg hne, nodeChildren, hentry, siblingsAt_cons]
    by_cases hbc : b = c
    · subst hbc
      have hchild := ih hlone.mono hleaf' hchain.tail hpq
      have hsib := rootAt_of_empty (X := X) hlone.empty
      rw [← hpq] at hsib
      rw [hsib]
      cases b <;> simp [sides, hchild, ← hpq]
    · obtain rfl : b = !c := by cases b <;> cases c <;> simp_all
      have hchild : descendStored X nodes p _ e = _ := descendStored_empties p (hpq ▸ hlone.empty)
      have hsib : rootAt X f (pre ++ [c]) p.length = lone X q leaf := by
        rw [hpq, rootAt_of_lone hlone.mono, hleaf']
      cases c <;> simp_all [sides]

include laws sep

/-- The chain of a lone key is all there once it is rebuilt. -/
theorem chained_expand (path : List Bool) (level : Nat) (e : Expanded L H) {leaf : H}
    (hlone : LoneBelow f pre q v) (hleaf : leaf = X.leaf (pre ++ q) v) :
    Chained X (expand X path leaf level q e) path leaf level q := by
  induction q generalizing pre level e with
  | nil =>
    intro q₁ b q₂ hq
    simp at hq
  | cons b q ih =>
    intro q₁ c q₂ hq
    cases q₁ with
    | nil =>
      obtain ⟨rfl, rfl⟩ := List.cons.inj hq
      rw [expand, expand_of_ne, Function.update_self]
      · rfl
      · rintro r₁ d r₂ rfl
        exact lone_ne laws sep (List.cons_ne_nil b r₁) hlone hleaf
    | cons _ q₁ =>
      rw [List.cons_append, List.cons.injEq] at hq
      obtain ⟨rfl, rfl⟩ := hq
      have := ih (level + 1) (Function.update e
        (lone X (b :: (q₁ ++ c :: q₂)) leaf) (some (.lone path leaf level,
          sides b (lone X (q₁ ++ c :: q₂) leaf) (empties X (q₁ ++ c :: q₂).length))))
        hlone.mono (by rw [hleaf]; simp) q₁ c q₂ rfl
      rw [expand, this, List.length_cons, Nat.add_assoc, Nat.add_comm 1]

/-- **A stored tree can be walked**: the walk gives the siblings and the leaf of the path, and knows each
of the siblings. -/
theorem descendStored_stored (h : Stored X nodes f n pre) (hp : p.length = n) :
    ∃ e, descendStored X nodes p (rootAt X f pre n) (fun _ => none) =
        some (siblingsAt X f pre p, leaves X f (pre ++ p), e) ∧
      Rebuilt X nodes f e ∧ SiblingsKnown X nodes f e pre p := by
  induction n generalizing pre p with
  | zero =>
    obtain rfl := List.length_eq_zero_iff.mp hp
    refine ⟨_, ?_, rebuilt_none, fun p₁ b p₂ hp => by simp at hp⟩
    rw [rootAt_zero, List.append_nil]
    rfl
  | succ n ih =>
    by_cases he : EmptyBelow f pre (n + 1)
    · rw [← hp] at he ⊢
      refine ⟨_, ?_, rebuilt_none, he.siblingsKnown⟩
      rw [rootAt_of_empty he]
      exact descendStored_empties p he
    have hne : rootAt X f pre (n + 1) ≠ empties X (n + 1) := mt (rootAt_eq_empties_iff laws).mp he
    match p, hp with
    | b :: p, hp =>
      obtain rfl : p.length = n := by simpa using hp
      rcases h with h | ⟨hrecord, hchildren⟩ | ⟨q, v, hq, hlone, hrecord, hleaf⟩
      · exact absurd h he
      · obtain ⟨e, hwalk, hrebuilt, hknown⟩ := ih (hchildren b) rfl
        refine ⟨e, ?_, hrebuilt, hknown.cons (hchildren !b)⟩
        rw [descendStored, if_neg hne, nodeChildren, hrecord, siblingsAt_cons]
        cases b <;> simp [hwalk]
      · have hpq : (b :: p).length = q.length := hp.trans hq.symm
        have hstored : Stored X nodes f 0 (pre ++ q) := by
          intro w hw
          obtain rfl := Option.some.inj (hlone.here.symm.trans hw)
          exact hleaf
        have hroot : rootAt X f pre (p.length + 1) = lone X q (X.leaf (pre ++ q) v) := by
          rw [← rootAt_of_lone hlone, hq]
        have hchain := chained_expand laws sep (pre ++ q) pre.length (fun _ => none) hlone rfl
        have hentry : ∀ q₁ c q₂, q = q₁ ++ c :: q₂ → ∃ x, expand X (pre ++ q) (X.leaf (pre ++ q) v)
            pre.length q (fun _ => none) (rootAt X f (pre ++ q₁) (q₂.length + 1)) = some x := by
          rintro q₁ c q₂ rfl
          have hbelow := rootAt_of_lone (X := X) hlone.suffix
          rw [List.append_assoc] at hbelow
          exact ⟨_, hbelow ▸ hchain q₁ c q₂ rfl⟩
        refine ⟨_, ?_, rebuilt_expand hlone hstored, hlone.siblingsKnown hpq hstored hentry⟩
        obtain ⟨c, q', rfl⟩ := List.exists_cons_of_length_eq_add_one hq
        obtain ⟨x, hx⟩ := hentry [] c q' rfl
        have hq' : q'.length = p.length := by simpa using hpq.symm
        rw [List.append_nil, hq'] at hx
        rw [← descendStored_lone laws hlone rfl hchain hpq, ← hroot]
        exact descendStored_expand hrecord List.drop_left hx hne

end Walking

/-! ## Writing keeps every tree -/

section Writing

variable {X} {nodes nodes' : NodeMap L H} {f : List Bool → Option L} {pre p q path : List Bool} {n : Nat}
  {v : Option L} {e : Expanded L H}

/-- Every sibling of the path can be walked. -/
def SiblingsStored (X : Hasher L H) (nodes : NodeMap L H) (f : List Bool → Option L) (pre p : List Bool) :
    Prop :=
  ∀ p₁ b p₂, p = p₁ ++ b :: p₂ → Stored X nodes f p₂.length (pre ++ p₁ ++ [!b])

theorem SiblingsStored.head {b : Bool} (h : SiblingsStored X nodes f pre (b :: p)) :
    Stored X nodes f p.length (pre ++ [!b]) := by
  simpa using h [] b p rfl

theorem SiblingsStored.tail {b : Bool} (h : SiblingsStored X nodes f pre (b :: p)) :
    SiblingsStored X nodes f (pre ++ [b]) p := by
  intro p₁ c p₂ hp
  simpa using h (b :: p₁) c p₂ (by rw [hp]; rfl)

theorem rootAt_mem_siblingsAt {p₁ p₂ : List Bool} {b : Bool} :
    rootAt X f (pre ++ p₁ ++ [!b]) p₂.length ∈ siblingsAt X f pre (p₁ ++ b :: p₂) := by
  induction p₁ generalizing pre with
  | nil => simp [siblingsAt_cons]
  | cons c p₁ ih =>
    rw [List.cons_append, siblingsAt_cons]
    refine List.mem_cons_of_mem _ ?_
    have : rootAt X f ((pre ++ [c]) ++ p₁ ++ [!b]) p₂.length ∈ _ := ih
    simpa using this

theorem Rebuilt.keeps (h : Rebuilt X nodes f e) (hk : Keeps X nodes nodes') : Rebuilt X nodes' f e := by
  intro r x c hx
  obtain ⟨pre, q, v, hq, hlone, hr, hrec, hleaf⟩ := h r x c hx
  exact ⟨pre, q, v, hq, hlone, hr, hrec, hk _ _ _ hleaf⟩

variable [DecidableEq H]

theorem keepSibling_of_some {s : H} {x : Record L H × (H × H)} (hx : e s = some x) :
    keepSibling e nodes s = Function.update nodes s (some x.1) := by
  rw [keepSibling, hx]

theorem keepSibling_entry {s t : H} {x : Record L H × (H × H)} (hx : e s = some x)
    (h : nodes s = some x.1) : keepSibling e nodes t s = some x.1 := by
  cases ht : e t with
  | none => rwa [keepSibling, ht]
  | some y =>
    rw [keepSibling_of_some ht]
    by_cases hst : s = t
    · subst hst
      rw [Function.update_self, Option.some.inj (ht.symm.trans hx)]
    · rwa [Function.update_of_ne hst]

/-- A sibling that was rebuilt has its record. -/
theorem keepSiblings_entry {sibs : List H} {s : H} {x : Record L H × (H × H)} (nodes : NodeMap L H)
    (hs : s ∈ sibs) (hx : e s = some x) : keepSiblings e sibs nodes s = some x.1 := by
  have hlater : ∀ (sibs : List H) (nodes : NodeMap L H), nodes s = some x.1 →
      keepSiblings e sibs nodes s = some x.1 := by
    intro sibs
    induction sibs with
    | nil => exact fun _ h => h
    | cons t sibs ih => exact fun nodes h => ih _ (keepSibling_entry hx h)
  induction sibs generalizing nodes with
  | nil => cases hs
  | cons t sibs ih =>
    rcases List.mem_cons.mp hs with rfl | hs
    · exact hlater sibs _ (by rw [keepSibling_of_some hx, Function.update_self])
    · exact ih _ hs

variable (laws : X.Laws) (sep : X.Separated)

include laws sep

theorem keeps_keepSiblings (h : Rebuilt X nodes f e) (sibs : List H) :
    Keeps X nodes (keepSiblings e sibs nodes) := by
  induction sibs generalizing nodes with
  | nil => exact Keeps.refl nodes
  | cons s sibs ih =>
    have hone : Keeps X nodes (keepSibling e nodes s) := by
      cases hs : e s with
      | none =>
        rw [keepSibling, hs]
        exact Keeps.refl nodes
      | some x =>
        obtain ⟨pre, q, v, hq, hlone, rfl, hrec, hleaf⟩ := h s x.1 x.2 hs
        obtain ⟨b, q', rfl⟩ := List.exists_cons_of_ne_nil hq
        rw [keepSibling_of_some hs, hrec]
        exact keeps_lone laws sep hlone rfl (hleaf v hlone.here)
    exact hone.trans (ih (h.keeps hone))

/-- **After the walk's siblings are kept, each can be walked.** -/
theorem siblingsStored_keepSiblings (h : Rebuilt X nodes f e) (hknown : SiblingsKnown X nodes f e pre p) :
    SiblingsStored X (keepSiblings e (siblingsAt X f pre p) nodes) f pre p := by
  rintro p₁ b p₂ rfl
  have hkeeps := keeps_keepSiblings laws sep h (siblingsAt X f pre (p₁ ++ b :: p₂))
  rcases hknown p₁ b p₂ rfl with hs | ⟨x, hx⟩
  · exact hkeeps _ _ _ hs
  · obtain ⟨pre', q, v, hq, hlone, hroot, hrec, hleaf⟩ := h _ x.1 x.2 hx
    obtain ⟨hpre, hlen, -⟩ := subtree_eq laws sep hlone.not_empty hroot.symm
    obtain ⟨c, q', rfl⟩ := List.exists_cons_of_ne_nil hq
    have hentry := keepSiblings_entry nodes rootAt_mem_siblingsAt hx
    rw [hpre, hlen] at hentry ⊢
    exact .inr (.inr ⟨_, v, rfl, hlone, hentry.trans (congrArg some hrec),
      hkeeps _ _ _ hleaf v hlone.here⟩)

/-- **What the climb has built up to a path**: the hash of the new subtree, which holds one key and has no
record for it yet, or can be walked. -/
structure Climbed (X : Hasher L H) (nodes : NodeMap L H) (f : List Bool → Option L) (pre p : List Bool)
    (v : Option L) (c : Climb L H) : Prop where
  current : c.current = rootAt X f pre p.length
  keeps : Keeps X nodes c.nodes
  alone : c.alone = true → ∃ w, v = some w ∧ LoneBelow f pre p w ∧ Stored X c.nodes f 0 (pre ++ p)
  stored : c.alone = false → Stored X c.nodes f p.length pre

/-- A lone key's subtree can be walked once its top has a record. -/
theorem Climbed.closed {c : Climb L H} (h : Climbed X nodes f pre p v c) (hpath : path = pre ++ p) :
    Keeps X c.nodes (closeChain X path v pre.length p c) ∧
      Stored X (closeChain X path v pre.length p c) f p.length pre := by
  subst hpath
  rw [closeChain]
  cases ha : c.alone with
  | false => simpa using ⟨Keeps.refl c.nodes, h.stored ha⟩
  | true =>
    obtain ⟨w, rfl, hlone, hleaf⟩ := h.alone ha
    cases p with
    | nil => simpa using ⟨Keeps.refl c.nodes, by simpa using hleaf⟩
    | cons b p =>
      rw [if_pos ⟨rfl, by simp⟩, h.current]
      have hkeeps := keeps_lone laws sep hlone rfl (hleaf w hlone.here)
      exact ⟨hkeeps, .inr (.inr ⟨_, w, rfl, hlone, Function.update_self ..,
        hkeeps _ _ _ hleaf w hlone.here⟩)⟩

/-- A subtree can be walked once its children can and it has a record. -/
theorem stored_keepNode (hchildren : ∀ b, Stored X nodes f n (pre ++ [b])) {nodes' : NodeMap L H}
    (hnodes' : keepNode X (n + 1) (rootAt X f pre (n + 1))
      (rootAt X f (pre ++ [false]) n, rootAt X f (pre ++ [true]) n) nodes = nodes') :
    Keeps X nodes nodes' ∧ Stored X nodes' f (n + 1) pre := by
  subst hnodes'
  rw [keepNode]
  split_ifs with he
  · exact ⟨Keeps.refl nodes, .inl ((rootAt_eq_empties_iff laws).mp he)⟩
  · have hkeeps := keeps_node laws sep (mt (rootAt_eq_empties_iff laws).mpr he) hchildren
    exact ⟨hkeeps, .inr (.inl ⟨Function.update_self .., fun b => hkeeps _ _ _ (hchildren b)⟩)⟩

/-- One step up. -/
theorem Climbed.step {c : Climb L H} {b : Bool} (hpath : path = pre ++ b :: p)
    (h : Climbed X nodes f (pre ++ [b]) p v c) (hs : Stored X nodes f p.length (pre ++ [!b])) :
    Climbed X nodes f pre (b :: p) v
      (climbStep X path v pre.length b p (rootAt X f (pre ++ [!b]) p.length) c) := by
  rw [climbStep]
  split_ifs with halone
  · -- The sibling is empty, so the key is still alone.
    obtain ⟨ha, he⟩ := halone
    obtain ⟨w, rfl, hlone, hleaf⟩ := h.alone ha
    have hlone' := hlone.cons ((rootAt_eq_empties_iff laws).mp he)
    refine ⟨?_, h.keeps, fun _ => ⟨w, rfl, hlone', by simpa using hleaf⟩, fun hf => ?_⟩
    · rw [rootAt_of_lone hlone', ← hpath]
      rfl
    · rw [ha] at hf
      cases hf
  · have hparent : join X b c.current (rootAt X f (pre ++ [!b]) p.length) =
        rootAt X f pre (p.length + 1) := by rw [h.current, ← rootAt_join]
    have hsides : sides b c.current (rootAt X f (pre ++ [!b]) p.length) =
        (rootAt X f (pre ++ [false]) p.length, rootAt X f (pre ++ [true]) p.length) := by
      rw [h.current]
      cases b <;> rfl
    obtain ⟨hclosed, hbelow⟩ := h.closed laws sep (hpath.trans (by simp))
    rw [List.length_append] at hclosed hbelow
    have hchildren : ∀ d, Stored X (closeChain X path v (pre.length + 1) p c) f p.length (pre ++ [d]) := by
      intro d
      by_cases hd : d = b
      · rwa [hd]
      · obtain rfl : d = !b := by cases b <;> cases d <;> simp_all
        exact hclosed _ _ _ (h.keeps _ _ _ hs)
    rw [hparent, hsides]
    obtain ⟨hkeeps, hstored⟩ := stored_keepNode laws sep hchildren rfl
    exact ⟨rfl, (h.keeps.trans hclosed).trans hkeeps, nofun, fun _ => hstored⟩

/-- **The climb builds the tree with the key written.** -/
theorem climbed_climbStored (hpath : path = pre ++ p) (hs : SiblingsStored X nodes f pre p) :
    Climbed X nodes (Function.update f path v) pre p v
      (climbStored X path v nodes pre.length p (siblingsAt X f pre p)) := by
  induction p generalizing pre with
  | nil =>
    rw [List.append_nil] at hpath
    subst hpath
    cases v with
    | none =>
      refine ⟨?_, Keeps.refl nodes, Bool.noConfusion, fun _ w hw => ?_⟩
      · rw [List.length_nil, rootAt_zero, leaves, Function.update_self]
        rfl
      · rw [Function.update_self] at hw
        cases hw
    | some v =>
      refine ⟨?_, keeps_leaf laws sep nodes path v, fun _ => ⟨v, rfl, ⟨?_, ?_⟩, fun w hw => ?_⟩,
        Bool.noConfusion⟩
      · rw [List.length_nil, rootAt_zero, leaves, Function.update_self]
        rfl
      · rw [List.append_nil, Function.update_self]
      · exact fun q hq hne => absurd (List.length_eq_zero_iff.mp hq) hne
      · rw [List.append_nil] at hw ⊢
        rw [Function.update_self] at hw
        obtain rfl := Option.some.inj hw
        exact Function.update_self ..
  | cons b p ih =>
    have hsame : SameBelow f (Function.update f path v) (pre ++ [!b]) p.length := by
      intro q _
      rw [Function.update_of_ne]
      rw [hpath, List.append_assoc]
      intro h
      have := List.append_cancel_left h
      cases b <;> simp at this
    have hc := ih (by rw [hpath]; simp) hs.tail
    rw [List.length_append] at hc
    rw [siblingsAt_cons, rootAt_congr hsame]
    exact hc.step laws sep hpath (hs.head.congr hsame)

/-- **Writing a key of a stored tree**: it succeeds, with the root of the written tree, which can be
walked, as can every tree that could. -/
theorem updateStored_stored (h : Stored X nodes f path.length []) (hp : path ≠ []) (v : Option L) :
    ∃ nodes', updateStored X nodes (rootAt X f [] path.length) path v =
        some (rootAt X (Function.update f path v) [] path.length, nodes') ∧
      Keeps X nodes nodes' ∧ Stored X nodes' (Function.update f path v) path.length [] := by
  obtain ⟨e, hwalk, hrebuilt, hknown⟩ := descendStored_stored laws sep h (p := path) rfl
  have hkeep := keeps_keepSiblings laws sep hrebuilt (siblingsAt X f [] path)
  have hc : Climbed X _ (Function.update f path v) [] path v _ :=
    climbed_climbStored laws sep rfl (siblingsStored_keepSiblings laws sep hrebuilt hknown)
  obtain ⟨hclosed, hstored⟩ := hc.closed laws sep rfl
  refine ⟨_, ?_, (hkeep.trans hc.keeps).trans hclosed, hstored⟩
  rw [updateStored, walk, hwalk, ← hc.current, closeChain]
  simp [hp]

/-- The contents after a list of changes. -/
def changed (f : List Bool → Option L) (changes : List (List Bool × Option L)) : List Bool → Option L :=
  changes.foldl (fun f c => Function.update f c.1 c.2) f

/-- **So does a list of changes.** -/
theorem trieRootAfter_stored {depth : Nat} (hd : 0 < depth) (h : Stored X nodes f depth [])
    {changes : List (List Bool × Option L)} (hp : ∀ c ∈ changes, c.1.length = depth) :
    ∃ nodes', trieRootAfter X nodes (rootAt X f [] depth) changes =
        some (rootAt X (changed f changes) [] depth, nodes') ∧
      Keeps X nodes nodes' ∧ Stored X nodes' (changed f changes) depth [] := by
  induction changes generalizing nodes f with
  | nil => exact ⟨nodes, rfl, Keeps.refl nodes, h⟩
  | cons c changes ih =>
    obtain rfl := hp c List.mem_cons_self
    obtain ⟨nodes₁, hupdate, hkeeps₁, hstored₁⟩ :=
      updateStored_stored laws sep h (List.length_pos_iff.mp hd) c.2
    obtain ⟨nodes₂, hrest, hkeeps₂, hstored₂⟩ :=
      ih hstored₁ fun d hd => hp d (List.mem_cons_of_mem c hd)
    refine ⟨nodes₂, ?_, hkeeps₁.trans hkeeps₂, hstored₂⟩
    rw [trieRootAfter, hupdate]
    exact hrest

/-! ## Proofs from a stored tree -/

/-- **A stored tree proves each of its paths**, with the value there or its absence. -/
theorem proveStored_stored (h : Stored X nodes f path.length []) :
    proveStored X nodes (rootAt X f [] path.length) path =
      some ⟨path, f path, siblings X (leaves X f) path⟩ := by
  obtain ⟨e, hwalk, -, -⟩ := descendStored_stored laws sep h (p := path) rfl
  have hsibs : siblingsAt X f [] path = siblings X (leaves X f) path := rfl
  rw [proveStored, walk, hwalk, hsibs, List.nil_append, leaves]
  cases hf : f path with
  | none => simp [leafHash]
  | some v =>
    have hleaf := h.leaf rfl hf
    rw [List.nil_append] at hleaf
    simp [leafHash, laws.leaf_ne_empty, hleaf]

end Writing

section Proofs

variable {X} {f : List Bool → Option L}

theorem leafHash_inj (laws : X.Laws) {p : List Bool} {v w : Option L} (h : leafHash X p v = leafHash X p w) : v = w := by
  match v, w, h with
  | none, none, _ => rfl
  | none, some w, h => exact absurd h laws.leaf_ne_empty.symm
  | some v, none, h => exact absurd h laws.leaf_ne_empty
  | some v, some w, h => rw [(laws.leaf_inj h).2]

variable [DecidableEq H]

/-- The proof verifies. -/
theorem verifyProof_siblings (f : List Bool → Option L) (path : List Bool) :
    verifyProof X path.length (rootAt X f [] path.length)
      ⟨path, f path, siblings X (leaves X f) path⟩ = true := by
  have hclimb := (rootOf_eq_climb X (leaves X f) path).symm
  rw [leaves] at hclimb
  simp only [verifyProof, length_siblings, decide_true, Bool.and_self, Bool.true_and, decide_eq_true_eq]
  exact hclimb

/-- **No proof that verifies says anything else.** -/
theorem value_of_verifyProof (laws : X.Laws) {depth : Nat} {proof : InclusionProof L H}
    (h : verifyProof X depth (rootAt X f [] depth) proof = true) : proof.value = f proof.path := by
  simp only [verifyProof, Bool.and_eq_true, decide_eq_true_eq] at h
  obtain ⟨⟨hp, hs⟩, hroot⟩ := h
  rw [← hp] at hroot
  obtain ⟨hleaf, -⟩ := climb_eq_rootOf laws (hs.trans hp.symm) hroot
  exact leafHash_inj laws hleaf

end Proofs

/-! ## The root of a sorted map -/

/-- `bit_at`. -/
def bitAt (p : List Bool) (level : Nat) : Bool := p.getD level false

/-- `subtree_root`: the root of the subtree of depth `n` at a level, from the leaf hashes in it, sorted by
their paths. -/
def subtreeRoot : Nat → Nat → List (List Bool × H) → H
  | n, _, [] => empties X n
  | 0, _, (_, leaf) :: _ => leaf
  | n + 1, level, e :: sorted =>
    X.node (subtreeRoot n (level + 1) ((e :: sorted).takeWhile fun e => !bitAt e.1 level))
      (subtreeRoot n (level + 1) ((e :: sorted).dropWhile fun e => !bitAt e.1 level))

/-- `root_of`. -/
def rootOfMap (depth : Nat) (map : List (List Bool × L)) : H :=
  subtreeRoot X depth 0 (map.map fun e => (e.1, X.leaf e.1 e.2))

section Canonical

variable {X} {f : List Bool → Option L} {pre : List Bool} {n : Nat}

/-- The entries are in the order of their paths, with none twice. -/
def SortedPaths (map : List (List Bool × L)) : Prop := map.Pairwise fun a b => a.1 < b.1

/-- The entries are the contents of the subtree below a path. -/
structure Lists (f : List Bool → Option L) (pre : List Bool) (n : Nat) (map : List (List Bool × L)) :
    Prop where
  below : ∀ e ∈ map, ∃ q, q.length = n ∧ e.1 = pre ++ q
  mem_iff : ∀ q v, q.length = n → ((pre ++ q, v) ∈ map ↔ f (pre ++ q) = some v)

theorem bitAt_append {b : Bool} {q : List Bool} : bitAt (pre ++ b :: q) pre.length = b := by simp [bitAt]

/-- Where a predicate never goes back to false, the first entries without it are all of them. -/
theorem span_of_monotone {α : Type} {P : α → Bool} {l : List α}
    (h : l.Pairwise fun a b => P a = true → P b = true) :
    l.takeWhile (fun a => !P a) = l.filter (fun a => !P a) ∧ l.dropWhile (fun a => !P a) = l.filter P := by
  induction l with
  | nil => exact ⟨rfl, rfl⟩
  | cons a l ih =>
    obtain ⟨ha, hl⟩ := List.pairwise_cons.mp h
    cases hP : P a with
    | false =>
      obtain ⟨htake, hdrop⟩ := ih hl
      simp [hP, htake, hdrop]
    | true =>
      have hall : ∀ b ∈ l, P b = true := fun b hb => ha b hb hP
      simpa [hP] using ⟨hall, (List.filter_eq_self.mpr hall).symm⟩

theorem lt_append_cancel {p q : List Bool} (h : pre ++ p < pre ++ q) : p < q := by
  induction pre with
  | nil => exact h
  | cons b pre ih =>
    rcases List.cons_lt_cons_iff.mp h with h | ⟨-, h⟩
    · exact absurd h (by simp)
    · exact ih h

/-- Below a path, the sorted entries with the next bit clear come first. -/
theorem Lists.monotone {map : List (List Bool × L)} (h : Lists f pre (n + 1) map) (hs : SortedPaths map) :
    map.Pairwise fun a b => bitAt a.1 pre.length = true → bitAt b.1 pre.length = true := by
  refine hs.imp_of_mem fun {a b} ha hb hlt hbit => ?_
  obtain ⟨p, hp, hpa⟩ := h.below a ha
  obtain ⟨q, hq, hqb⟩ := h.below b hb
  match p, q, hp, hq with
  | c :: p, d :: q, _, _ =>
    rw [hpa, bitAt_append] at hbit
    subst hbit
    rw [hpa, hqb] at hlt
    rw [hqb, bitAt_append]
    rcases List.cons_lt_cons_iff.mp (lt_append_cancel hlt) with hcd | ⟨rfl, -⟩
    · exact absurd hcd (by cases d <;> decide)
    · rfl

/-- The entries of one child. -/
theorem Lists.child {map : List (List Bool × L)} (h : Lists f pre (n + 1) map) (b : Bool) :
    Lists f (pre ++ [b]) n (map.filter fun e => bitAt e.1 pre.length == b) := by
  refine ⟨fun e he => ?_, fun q v hq => ?_⟩
  · obtain ⟨hmem, hbit⟩ := List.mem_filter.mp he
    obtain ⟨q, hq, hpath⟩ := h.below e hmem
    match q, hq with
    | c :: q, hq =>
      rw [hpath, bitAt_append, beq_iff_eq] at hbit
      subst hbit
      exact ⟨q, by simpa using hq, by simpa using hpath⟩
  · have := h.mem_iff (b :: q) v (by simp [hq])
    rw [List.append_assoc, List.singleton_append, List.mem_filter, this, bitAt_append]
    simp

theorem Lists.empty (h : Lists f pre n []) : EmptyBelow f pre n := by
  intro q hq
  cases hf : f (pre ++ q) with
  | none => rfl
  | some v => cases (h.mem_iff q v hq).mpr hf

theorem subtreeRoot_succ {level : Nat} {l : List (List Bool × H)} (hl : l ≠ []) :
    subtreeRoot X (n + 1) level l =
      X.node (subtreeRoot X n (level + 1) (l.takeWhile fun e => !bitAt e.1 level))
        (subtreeRoot X n (level + 1) (l.dropWhile fun e => !bitAt e.1 level)) := by
  obtain ⟨e, l, rfl⟩ := List.exists_cons_of_ne_nil hl
  rw [subtreeRoot]

/-- **`subtree_root` is the hash of the subtree.** -/
theorem subtreeRoot_eq {map : List (List Bool × L)} (h : Lists f pre n map) (hs : SortedPaths map) :
    subtreeRoot X n pre.length (map.map fun e => (e.1, X.leaf e.1 e.2)) = rootAt X f pre n := by
  induction n generalizing pre map with
  | zero =>
    cases map with
    | nil => rw [rootAt_of_empty h.empty, List.map_nil, subtreeRoot]
    | cons e map =>
      obtain ⟨p, v⟩ := e
      obtain ⟨q, hq, hp⟩ := h.below (p, v) List.mem_cons_self
      obtain rfl := List.length_eq_zero_iff.mp hq
      obtain rfl : p = pre := by simpa using hp
      have hv := (h.mem_iff [] v rfl).mp (by simp)
      rw [List.append_nil] at hv
      rw [rootAt_zero, leaves, hv, List.map_cons, subtreeRoot]
      rfl
  | succ n ih =>
    cases map with
    | nil => rw [rootAt_of_empty h.empty, List.map_nil, subtreeRoot]
    | cons e map =>
      obtain ⟨htake, hdrop⟩ := span_of_monotone (h.monotone hs)
      have hleft := ih (h.child false) (List.Pairwise.filter _ hs)
      have hright := ih (h.child true) (List.Pairwise.filter _ hs)
      rw [List.length_append] at hleft hright
      rw [rootAt_succ, subtreeRoot_succ (by simp), List.takeWhile_map, List.dropWhile_map]
      simp only [Function.comp_def, htake, hdrop]
      simp only [beq_false, beq_true] at hleft hright
      exact congrArg₂ X.node hleft hright

/-- **`root_of` is the root over the map's contents.** -/
theorem rootOfMap_eq {depth : Nat} {map : List (List Bool × L)} (h : Lists f [] depth map)
    (hs : SortedPaths map) : rootOfMap X depth map = rootAt X f [] depth := subtreeRoot_eq h hs

end Canonical

end SparseMerkle
