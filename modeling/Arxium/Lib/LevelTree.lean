import Mathlib

/-!
# Lib/LevelTree — a fixed-depth binary tree stored level by level

A list of leaves fills the left of a tree of fixed depth, and everything to its right is empty.  The
tree keeps, for each depth, only the nodes over some leaf (`levelAt`); a node past the end of its
level stands over empty leaves only, so its value depends on the depth alone (`zeroAt`).  `nodeAt`
reads a node either way, and then every node is the pair of its two children (`nodeAt_succ`).
-/

namespace LevelTree

variable {α : Type} (pair : α → α → α) (zero : α)

/-- The value of a subtree of this depth without leaves. -/
def zeroAt : ℕ → α
  | 0 => zero
  | d + 1 => pair (zeroAt d) (zeroAt d)

/-- The parents of a level: its nodes two by two, a missing right one replaced by `z`. -/
def parents (z : α) : List α → List α
  | [] => []
  | [a] => [pair a z]
  | a :: b :: l => pair a b :: parents z l

/-- The nodes of each depth that stand over some leaf. -/
def levelAt (leaves : List α) : ℕ → List α
  | 0 => leaves
  | d + 1 => parents pair (zeroAt pair zero d) (levelAt leaves d)

/-- Any node of a depth, stored or empty. -/
def nodeAt (leaves : List α) (d i : ℕ) : α := (levelAt pair zero leaves d).getD i (zeroAt pair zero d)

section Parents

variable (z : α) (l : List α)

theorem length_parents : (parents pair z l).length = (l.length + 1) / 2 := by
  induction l using parents.induct with
  | case1 => simp [parents]
  | case2 a => simp [parents]
  | case3 a b l ih =>
    rw [parents, List.length_cons, ih, List.length_cons, List.length_cons]
    omega

/-- **A parent is the pair of its children**, also past the end of the level. -/
theorem getD_parents (i : ℕ) :
    (parents pair z l).getD i (pair z z) = pair (l.getD (2 * i) z) (l.getD (2 * i + 1) z) := by
  induction l using parents.induct generalizing i with
  | case1 => rfl
  | case2 a => cases i <;> rfl
  | case3 a b l ih =>
    cases i with
    | zero => rfl
    | succ i => exact ih i

/-- **Changing one node of a level changes one parent.** -/
theorem parents_set (i : ℕ) (v : α) :
    parents pair z (l.set i v) = (parents pair z l).set (i / 2)
      (pair ((l.set i v).getD (i / 2 * 2) z) ((l.set i v).getD (i / 2 * 2 + 1) z)) := by
  refine List.ext_getElem (by simp [length_parents]) fun j hj hj' => ?_
  have hget (l : List α) (h : j < (parents pair z l).length) :
      (parents pair z l)[j] = pair (l.getD (2 * j) z) (l.getD (2 * j + 1) z) := by
    rw [← getD_parents pair z l j, List.getD_eq_getElem _ _ h]
  rw [hget, List.getElem_set]
  split
  next h => rw [h, Nat.mul_comm]
  next h =>
    -- neither child of another parent is the node that changed
    rw [hget, List.getD_eq_getElem?_getD, List.getD_eq_getElem?_getD, List.getElem?_set_ne (by omega),
      List.getElem?_set_ne (by omega)]
    rfl

end Parents

/-! ## The levels of a list of leaves -/

variable (leaves : List α)

/-- A level has a node for every leaf and no more than the tree has room for. -/
theorem div_lt_length_levelAt {i : ℕ} (hi : i < leaves.length) (d : ℕ) :
    i / 2 ^ d < (levelAt pair zero leaves d).length := by
  induction d with
  | zero => simpa [levelAt] using hi
  | succ d ih =>
    rw [levelAt, length_parents, pow_succ, ← Nat.div_div_eq_div_mul]
    omega

theorem nodeAt_zero {i : ℕ} {leaf : α} (h : leaves[i]? = some leaf) :
    nodeAt pair zero leaves 0 i = leaf := by
  rw [nodeAt, levelAt, List.getD_eq_getElem?_getD, h, Option.getD_some]

/-- **Every node is the pair of its children.** -/
theorem nodeAt_succ (d i : ℕ) : nodeAt pair zero leaves (d + 1) i =
    pair (nodeAt pair zero leaves d (2 * i)) (nodeAt pair zero leaves d (2 * i + 1)) :=
  getD_parents pair _ _ i

/-- **Changing one leaf changes one node of each level**, the one over it. -/
theorem levelAt_set {i : ℕ} (hi : i < leaves.length) (v : α) (d : ℕ) :
    levelAt pair zero (leaves.set i v) d =
      (levelAt pair zero leaves d).set (i / 2 ^ d) (nodeAt pair zero (leaves.set i v) d (i / 2 ^ d)) := by
  induction d with
  | zero => simp [levelAt, nodeAt, hi]
  | succ d ih =>
    rw [levelAt, ih, parents_set, ← ih,
      nodeAt_succ, pow_succ, ← Nat.div_div_eq_div_mul, Nat.mul_comm 2]
    rfl

/-! ## Loops over the depths -/

/-- **A loop whose state is known at every turn** ends in the last of these states. -/
theorem foldlM_range {σ : Type} {f : σ → ℕ → Option σ} (state : ℕ → σ) {n : ℕ}
    (h : ∀ d < n, f (state d) d = some (state (d + 1))) :
    (List.range n).foldlM f (state 0) = some (state n) := by
  induction n with
  | zero => rfl
  | succ n ih =>
    rw [List.range_succ, List.foldlM_append, ih fun d hd => h d (by omega), Option.bind_eq_bind,
      Option.bind_some, List.foldlM_cons, h n (by omega)]
    rfl

section Table

variable {β : Type} (f : ℕ → β) {n d : ℕ}

@[simp] theorem getElem?_table (h : d < n) : ((List.range n).map f)[d]? = some (f d) := by
  rw [List.getElem?_map, List.getElem?_range h, Option.map_some]

theorem table_succ : (List.range (n + 1)).map f = (List.range n).map f ++ [f n] := by
  rw [List.range_succ, List.map_append, List.map_singleton]

theorem table_set (b : β) :
    ((List.range n).map f).set d b = (List.range n).map (Function.update f d b) := by
  refine List.ext_getElem (by simp) fun j hj hj' => ?_
  rw [List.getElem_set, List.getElem_map, List.getElem_map, List.getElem_range, Function.update_apply]
  simp only [eq_comm]

end Table

end LevelTree
