import Arxium.Lib.LevelTree

/-!
# Circuits/AttestedTree — the tree over the attested credentials

`circuits/identity-zk`'s Merkle tree of depth twenty over the credential leaves.  The node builds it
once (`fromLeaves`) and then only rehashes the twenty ancestors of a leaf that changed
(`replaceLeaf`), while a wallet proves a leaf by the siblings on its way up (`path`,
`rootFromPath`).  The levels are stored without their empty right parts; `Lib/LevelTree` says what
such a level holds, and here the loops of the source are shown to keep the stored levels those of
the current leaves.

The field and its sponge are a parameter.  An index out of range is a panic in the source and `none`
here, so the results below also say that none of these loops panics.
-/

namespace Arxium

open LevelTree

/-- What a hash is used for; it is part of what is hashed. -/
inductive Domain
  | credentialHash
  | credentialLeaf
  | scope
  | sub
  | idCommitment
  | treeNode

/-- The scalar field's zero and the tagged sponge over it. -/
class Poseidon (Fr : Type) where
  zero : Fr
  taggedHash : Domain → List Fr → Fr

def attestedTreeDepth : ℕ := 20

section

variable {Fr : Type} [Poseidon Fr]

def poseidonPair (left right : Fr) : Fr := Poseidon.taggedHash .treeNode [left, right]

structure AttestedTree (Fr : Type) where
  levels : List (List Fr)
  zeros : List Fr

namespace AttestedTree

/-- The loop of `fromLeaves` that hashes the empty subtrees. -/
def emptyRoots : Option (List Fr) :=
  (List.range attestedTreeDepth).foldlM (fun zeros depth => do
    let zero ← zeros[depth]?
    return zeros ++ [poseidonPair zero zero]) [Poseidon.zero]

/-- The loop of `fromLeaves` that hashes each level into the next. -/
def buildLevels (zeros leaves : List Fr) : Option (List (List Fr)) :=
  (List.range attestedTreeDepth).foldlM (fun levels depth => do
    let current ← levels[depth]?
    let zero ← zeros[depth]?
    return levels ++ [parents poseidonPair zero current]) [leaves]

def fromLeaves (leaves : List Fr) : Option (AttestedTree Fr) :=
  if leaves.length > 2 ^ attestedTreeDepth then none
  else do
    let zeros ← emptyRoots
    let levels ← buildLevels zeros leaves
    return ⟨levels, zeros⟩

variable (t : AttestedTree Fr)

def root : Option Fr := do
  let top ← t.levels[attestedTreeDepth]?
  let zero ← t.zeros[attestedTreeDepth]?
  return top.head?.getD zero

/-- One turn of `replaceLeaf`'s loop: hashes the pair that `index` belongs to into the level above,
and goes there. -/
def rehash : AttestedTree Fr × ℕ → ℕ → Option (AttestedTree Fr × ℕ) := fun (t, index) depth => do
  let leftIndex := index / 2 * 2 -- `index & !1`
  let level ← t.levels[depth]?
  let left ← level[leftIndex]?
  let zero ← t.zeros[depth]?
  let right := level[leftIndex + 1]?.getD zero
  let above ← t.levels[depth + 1]?
  if index / 2 < above.length then
    return (⟨t.levels.set (depth + 1) (above.set (index / 2) (poseidonPair left right)), t.zeros⟩,
      index / 2)
  else none

/-- The tree after the call, and whether the call found the leaf. -/
def replaceLeaf (index : ℕ) (value : Fr) : Option (AttestedTree Fr × Bool) := do
  let leaves ← t.levels[0]?
  if index ≥ leaves.length then return (t, false)
  let (t, _) ← (List.range attestedTreeDepth).foldlM rehash
    (⟨t.levels.set 0 (leaves.set index value), t.zeros⟩, index)
  return (t, true)

/-- A sequence of calls. -/
def replaceLeaves (calls : List (ℕ × Fr)) : Option (AttestedTree Fr) :=
  calls.foldlM (fun t call => (t.replaceLeaf call.1 call.2).map Prod.fst) t

/-- One turn of `path`'s loop: adds the sibling of `index` and goes up. -/
def addSibling : List Fr × ℕ → ℕ → Option (List Fr × ℕ) := fun (path, index) depth => do
  let level ← t.levels[depth]?
  let zero ← t.zeros[depth]?
  return (path ++ [level[index ^^^ 1]?.getD zero], index / 2)

/-- The siblings on the way up; the inner `none` is the source's answer for no such leaf. -/
def path (index : ℕ) : Option (Option (List Fr)) := do
  let leaves ← t.levels[0]?
  if index ≥ leaves.length then return none
  let (path, _) ← (List.range attestedTreeDepth).foldlM t.addSibling ([], index)
  return some path

end AttestedTree

def rootFromPath (leaf : Fr) (index : ℕ) (path : List Fr) : Fr :=
  (path.foldl (fun (leaf, index) sibling =>
    (if index % 2 = 0 then poseidonPair leaf sibling else poseidonPair sibling leaf, index / 2))
    (leaf, index)).1

/-! ## The tree of a list of leaves -/

section

variable (leaves : List Fr)

/-- The stored nodes of a depth, the empty subtree of a depth, and any node of a depth. -/
abbrev treeLevel (d : ℕ) : List Fr := levelAt poseidonPair Poseidon.zero leaves d

abbrev emptyRoot (d : ℕ) : Fr := zeroAt poseidonPair Poseidon.zero d

abbrev treeNode (d i : ℕ) : Fr := nodeAt poseidonPair Poseidon.zero leaves d i

theorem treeNode_succ (d i : ℕ) : treeNode leaves (d + 1) i =
    poseidonPair (treeNode leaves d (2 * i)) (treeNode leaves d (2 * i + 1)) :=
  nodeAt_succ _ _ leaves d i

/-- **What a tree over these leaves stores.** -/
def AttestedTree.holding : AttestedTree Fr :=
  ⟨(List.range (attestedTreeDepth + 1)).map (treeLevel leaves),
    (List.range (attestedTreeDepth + 1)).map emptyRoot⟩

namespace AttestedTree

theorem emptyRoots_eq :
    emptyRoots = some ((List.range (attestedTreeDepth + 1)).map (emptyRoot : ℕ → Fr)) := by
  refine foldlM_range (fun d => (List.range (d + 1)).map emptyRoot) fun d _ => ?_
  rw [getElem?_table _ (Nat.lt_succ_self d), table_succ _ (n := d + 1)]
  rfl

theorem buildLevels_eq :
    buildLevels ((List.range (attestedTreeDepth + 1)).map emptyRoot) leaves =
      some ((List.range (attestedTreeDepth + 1)).map (treeLevel leaves)) := by
  refine foldlM_range (fun d => (List.range (d + 1)).map (treeLevel leaves)) fun d hd => ?_
  rw [getElem?_table _ (Nat.lt_succ_self d), getElem?_table _ (Nat.lt_succ_of_lt hd),
    table_succ _ (n := d + 1)]
  rfl

/-- **A tree can be built over any list that fits.** -/
theorem fromLeaves_eq (h : leaves.length ≤ 2 ^ attestedTreeDepth) :
    fromLeaves leaves = some (holding leaves) := by
  rw [fromLeaves, if_neg (by omega), emptyRoots_eq]
  rw [Option.bind_eq_bind, Option.bind_some, buildLevels_eq]
  rfl

/-- The root is the node over everything. -/
theorem root_holding : (holding leaves).root = some (treeNode leaves attestedTreeDepth 0) := by
  rw [root, holding, getElem?_table _ (Nat.lt_succ_self _), getElem?_table _ (Nat.lt_succ_self _)]
  simp only [Option.bind_eq_bind, Option.bind_some, treeNode, nodeAt, List.getD_eq_getElem?_getD,
    List.head?_eq_getElem?]
  rfl

/-! ## Replacing a leaf -/

/-- A tree whose levels up to `d` are rehashed for the new leaves. -/
def rehashed (new : List Fr) (d : ℕ) : AttestedTree Fr :=
  ⟨(List.range (attestedTreeDepth + 1)).map fun e =>
      if e ≤ d then treeLevel new e else treeLevel leaves e,
    (List.range (attestedTreeDepth + 1)).map emptyRoot⟩

variable {leaves} {i : ℕ} (hi : i < leaves.length) (v : Fr)

include hi in
/-- **One turn rehashes one more level.** -/
theorem rehash_rehashed {d : ℕ} (hd : d < attestedTreeDepth) :
    rehash (rehashed leaves (leaves.set i v) d, i / 2 ^ d) d =
      some (rehashed leaves (leaves.set i v) (d + 1), i / 2 ^ (d + 1)) := by
  have hup : i / 2 ^ d / 2 = i / 2 ^ (d + 1) := by rw [pow_succ, Nat.div_div_eq_div_mul]
  have hmem : i / 2 ^ d / 2 * 2 < (treeLevel (leaves.set i v) d).length :=
    (Nat.div_mul_le_self _ 2).trans_lt (div_lt_length_levelAt _ _ _ (by simpa using hi) d)
  have hleft : (treeLevel (leaves.set i v) d)[i / 2 ^ d / 2 * 2]? =
      some (treeNode (leaves.set i v) d (2 * (i / 2 ^ (d + 1)))) := by
    rw [treeNode, nodeAt, ← hup, Nat.mul_comm 2, List.getD_eq_getElem _ _ hmem,
      List.getElem?_eq_getElem hmem]
  have hright : (treeLevel (leaves.set i v) d)[i / 2 ^ d / 2 * 2 + 1]?.getD (emptyRoot d) =
      treeNode (leaves.set i v) d (2 * (i / 2 ^ (d + 1)) + 1) := by
    rw [treeNode, nodeAt, ← hup, Nat.mul_comm 2, List.getD_eq_getElem?_getD]
  have habove : i / 2 ^ (d + 1) < (treeLevel leaves (d + 1)).length :=
    div_lt_length_levelAt _ _ _ hi (d + 1)
  have hlevels : Function.update
      (fun e => if e ≤ d then treeLevel (leaves.set i v) e else treeLevel leaves e) (d + 1)
      (treeLevel (leaves.set i v) (d + 1)) =
      fun e => if e ≤ d + 1 then treeLevel (leaves.set i v) e else treeLevel leaves e := by
    funext e
    rw [Function.update_apply]
    split
    next h => rw [h, if_pos le_rfl]
    next h => simp only [show e ≤ d ↔ e ≤ d + 1 by omega]
  rw [rehash, rehashed, getElem?_table _ (by omega), getElem?_table _ (by omega),
    getElem?_table _ (by omega), if_pos le_rfl, if_neg (by omega)]
  change ((treeLevel (leaves.set i v) d)[i / 2 ^ d / 2 * 2]?).bind _ = _
  rw [hleft]
  change (if i / 2 ^ d / 2 < (treeLevel leaves (d + 1)).length then _ else _) = _
  rw [hright, hup, if_pos habove, table_set, ← treeNode_succ, ← levelAt_set _ _ _ hi, hlevels]
  rfl

/-- **A call keeps the tree the one of its leaves.** -/
theorem replaceLeaf_holding (leaves : List Fr) (i : ℕ) (v : Fr) :
    (holding leaves).replaceLeaf i v =
      some (holding (leaves.set i v), decide (i < leaves.length)) := by
  have hleaves : (holding leaves).levels[0]? = some leaves := getElem?_table _ (Nat.succ_pos _)
  rw [replaceLeaf, hleaves]
  change (if i ≥ leaves.length then _ else _) = _
  split
  next hi => rw [List.set_eq_of_length_le hi, decide_eq_false (by omega)]; rfl
  next hi =>
    rw [ge_iff_le, not_le] at hi
    have hstart : (⟨(holding leaves).levels.set 0 (leaves.set i v), (holding leaves).zeros⟩ :
        AttestedTree Fr) = rehashed leaves (leaves.set i v) 0 := by
      rw [holding, table_set, rehashed]
      congr 2
      exact funext fun e => by cases e <;> rfl
    have hend : rehashed leaves (leaves.set i v) attestedTreeDepth = holding (leaves.set i v) := by
      have hlevels (e : ℕ) (he : e ∈ List.range (attestedTreeDepth + 1)) : e ≤ attestedTreeDepth :=
        Nat.lt_succ_iff.mp (List.mem_range.mp he)
      rw [rehashed, holding, List.map_congr_left fun e he => if_pos (hlevels e he)]
    have hloop := foldlM_range (fun d => (rehashed leaves (leaves.set i v) d, i / 2 ^ d))
      fun d (hd : d < attestedTreeDepth) => rehash_rehashed hi v hd
    rw [pow_zero, Nat.div_one] at hloop
    rw [hstart, decide_eq_true hi, ← hend, hloop]
    rfl

/-- **Any sequence of calls** leaves the tree of the updated list. -/
theorem replaceLeaves_holding (leaves : List Fr) (calls : List (ℕ × Fr)) :
    (holding leaves).replaceLeaves calls =
      some (holding (calls.foldl (fun leaves call => leaves.set call.1 call.2) leaves)) := by
  induction calls generalizing leaves with
  | nil => rfl
  | cons call calls ih =>
    rw [replaceLeaves, List.foldlM_cons, replaceLeaf_holding]
    exact ih _

/-! ## Paths -/

/-- The siblings on the way up from a leaf. -/
def siblings (leaves : List Fr) (i n : ℕ) : List Fr :=
  (List.range n).map fun d => treeNode leaves d (i / 2 ^ d ^^^ 1)

theorem path_holding {leaves : List Fr} {i : ℕ} (hi : i < leaves.length) :
    (holding leaves).path i = some (some (siblings leaves i attestedTreeDepth)) := by
  have hleaves : (holding leaves).levels[0]? = some leaves := getElem?_table _ (Nat.succ_pos _)
  have hloop := foldlM_range (f := (holding leaves).addSibling)
    (fun d => (siblings leaves i d, i / 2 ^ d)) fun d (hd : d < attestedTreeDepth) => by
      rw [addSibling, holding, getElem?_table _ (by omega), getElem?_table _ (by omega), siblings,
        siblings, table_succ, pow_succ, ← Nat.div_div_eq_div_mul, treeNode, nodeAt,
        List.getD_eq_getElem?_getD]
      rfl
  rw [pow_zero, Nat.div_one] at hloop
  rw [path, hleaves]
  change (if i ≥ leaves.length then _ else _) = _
  rw [if_neg (by omega)]
  change Option.bind ((List.range attestedTreeDepth).foldlM _ (siblings leaves i 0, i)) _ = _
  rw [hloop]
  rfl

end AttestedTree

/-- **Climbing along the siblings** passes through the nodes over the leaf. -/
theorem foldl_siblings (leaves : List Fr) (i : ℕ) (n : ℕ) :
    (AttestedTree.siblings leaves i n).foldl (fun (leaf, index) sibling =>
      (if index % 2 = 0 then poseidonPair leaf sibling else poseidonPair sibling leaf, index / 2))
      (treeNode leaves 0 i, i) = (treeNode leaves n (i / 2 ^ n), i / 2 ^ n) := by
  induction n with
  | zero => simp [AttestedTree.siblings]
  | succ n ih =>
    rw [AttestedTree.siblings, table_succ, List.foldl_append, ← AttestedTree.siblings, ih, pow_succ,
      ← Nat.div_div_eq_div_mul, treeNode_succ, List.foldl_cons, List.foldl_nil]
    dsimp only
    rcases Nat.even_or_odd (i / 2 ^ n) with h | h
    · have hmod := Nat.even_iff.mp h
      rw [if_pos hmod, Nat.xor_one_of_even h, show 2 * (i / 2 ^ n / 2) = i / 2 ^ n by omega]
    · have hmod := Nat.odd_iff.mp h
      rw [if_neg (by omega), Nat.xor_one_of_odd h,
        show 2 * (i / 2 ^ n / 2) = i / 2 ^ n - 1 by omega, Nat.sub_add_cancel h.pos]

end

/-- **Replacing leaves is rebuilding, and every path leads to the root.**  After any calls on a tree
that was built over a list, its root is the one a tree built over the updated list has, and the path
of any leaf of that list proves the leaf against it. -/
theorem attestedTree_replaceLeaves (leaves : List Fr) (h : leaves.length ≤ 2 ^ attestedTreeDepth)
    (calls : List (ℕ × Fr)) :
    ∃ built t rebuilt root, AttestedTree.fromLeaves leaves = some built ∧
      built.replaceLeaves calls = some t ∧
      AttestedTree.fromLeaves (calls.foldl (fun leaves call => leaves.set call.1 call.2) leaves) =
        some rebuilt ∧
      t.root = some root ∧ rebuilt.root = some root ∧
      ∀ i leaf, (calls.foldl (fun leaves call => leaves.set call.1 call.2) leaves)[i]? = some leaf →
        ∃ path, t.path i = some (some path) ∧ rootFromPath leaf i path = root := by
  set updated := calls.foldl (fun leaves call => leaves.set call.1 call.2) leaves with hupdated
  have hlength : updated.length = leaves.length := by
    rw [hupdated]
    exact List.foldlRecOn calls _ (motive := fun l : List Fr => l.length = leaves.length) rfl
      fun l hl call _ => (List.length_set ..).trans hl
  refine ⟨_, _, _, _, AttestedTree.fromLeaves_eq leaves h, AttestedTree.replaceLeaves_holding leaves calls,
    AttestedTree.fromLeaves_eq updated (hlength.trans_le h), AttestedTree.root_holding updated,
    AttestedTree.root_holding updated, fun i leaf hleaf => ?_⟩
  obtain ⟨hi, -⟩ := List.getElem?_eq_some_iff.mp hleaf
  refine ⟨_, AttestedTree.path_holding hi, ?_⟩
  rw [rootFromPath, ← nodeAt_zero poseidonPair Poseidon.zero updated hleaf, foldl_siblings,
    Nat.div_eq_of_lt (hi.trans_le (hlength.trans_le h))]

end

/-- A small field to run the tree over. -/
local instance : Poseidon ℕ := ⟨0, fun _ inputs => inputs.foldl (fun h x => (h * 31 + x + 7) % 1009) 1⟩

/-- Three leaves, the middle one removed, and a call past the end. -/
theorem attestedTree_replaceLeaves_three :
    ∃ built t rebuilt root, AttestedTree.fromLeaves [5, 8, 13] = some built ∧
      built.replaceLeaves [(1, 0), (3, 9)] = some t ∧
      AttestedTree.fromLeaves [5, 0, 13] = some rebuilt ∧ t.root = some root ∧
      rebuilt.root = some root ∧ ∀ i leaf, [5, 0, 13][i]? = some leaf →
        ∃ path, t.path i = some (some path) ∧ rootFromPath leaf i path = root :=
  attestedTree_replaceLeaves [5, 8, 13] (by decide) [(1, 0), (3, 9)]

end Arxium
