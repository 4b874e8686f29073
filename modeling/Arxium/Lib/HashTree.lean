import Mathlib

/-!
# Lib/HashTree — a binary tree over a list of any length

A level is shortened by joining neighbours; an odd last node is promoted as it is.  Repeated until one
node is left, this builds a tree over the list (`climb`), and over hashes it computes the tree's hash
without building it.  The shape depends on the length of the list only through that process, so what a
hash says about the list is read off the tree: `leaves_climb` gives the list back, and `LeafTree.fold_inj`
says when two trees of one hash are one tree.
-/

namespace HashTree

variable {α β γ : Type*}

/-! ## Trees -/

/-- A binary tree with its data at the leaves. -/
inductive LeafTree (α : Type*)
  | leaf (a : α)
  | node (left right : LeafTree α)

namespace LeafTree

def leaves : LeafTree α → List α
  | leaf a => [a]
  | node l r => l.leaves ++ r.leaves

/-- The hash of a tree, from the hash of a leaf and that of two hashes. -/
def fold (leafHash : α → β) (nodeHash : β → β → β) : LeafTree α → β
  | leaf a => leafHash a
  | node l r => nodeHash (l.fold leafHash nodeHash) (r.fold leafHash nodeHash)

/-- The tree and everything below. -/
def subtrees : LeafTree α → List (LeafTree α)
  | leaf a => [leaf a]
  | node l r => node l r :: (l.subtrees ++ r.subtrees)

theorem self_mem_subtrees (t : LeafTree α) : t ∈ t.subtrees := by
  cases t <;> exact List.mem_cons_self

theorem leaf_mem_subtrees {t : LeafTree α} {a : α} (h : leaf a ∈ t.subtrees) : a ∈ t.leaves := by
  induction t with
  | leaf b =>
    obtain rfl : a = b := by simpa [subtrees] using h
    exact List.mem_singleton_self a
  | node l r ihl ihr =>
    obtain h | h : leaf a ∈ l.subtrees ∨ leaf a ∈ r.subtrees := by simpa [subtrees] using h
    · exact List.mem_append_left _ (ihl h)
    · exact List.mem_append_right _ (ihr h)

variable {leafHash : α → β} {nodeHash : β → β → β}

/-- Two trees were hashed from one input: one datum, or one pair of hashes. -/
def Alike (leafHash : α → β) (nodeHash : β → β → β) : LeafTree α → LeafTree α → Prop
  | leaf a, leaf b => a = b
  | node l r, node l' r' => l.fold leafHash nodeHash = l'.fold leafHash nodeHash ∧
      r.fold leafHash nodeHash = r'.fold leafHash nodeHash
  | _, _ => False

/-- **A hash has one tree**, if no two subtrees hash alike from different inputs. -/
theorem fold_inj {t t' : LeafTree α}
    (hfree : ∀ u ∈ t.subtrees, ∀ u' ∈ t'.subtrees,
      u.fold leafHash nodeHash = u'.fold leafHash nodeHash → u.Alike leafHash nodeHash u')
    (h : t.fold leafHash nodeHash = t'.fold leafHash nodeHash) : t = t' := by
  induction t generalizing t' with
  | leaf a =>
    have halike := hfree _ (self_mem_subtrees _) _ (self_mem_subtrees t') h
    cases t' with
    | leaf b => exact congrArg leaf halike
    | node l r => exact halike.elim
  | node l r ihl ihr =>
    have halike := hfree _ (self_mem_subtrees _) _ (self_mem_subtrees t') h
    cases t' with
    | leaf b => exact halike.elim
    | node l' r' =>
      have hleft : l = l' := ihl (fun u hu u' hu' => hfree u (.tail _ (List.mem_append_left _ hu)) u'
        (.tail _ (List.mem_append_left _ hu'))) halike.1
      have hright : r = r' := ihr (fun u hu u' hu' => hfree u (.tail _ (List.mem_append_right _ hu)) u'
        (.tail _ (List.mem_append_right _ hu'))) halike.2
      rw [hleft, hright]

end LeafTree

/-! ## Levels -/

/-- One level up: neighbours are joined, an odd last node is promoted. -/
def pairUp (node : β → β → β) : List β → List β
  | a :: b :: rest => node a b :: pairUp node rest
  | l => l

/-- The neighbours that are joined. -/
def pairs : List β → List (β × β)
  | a :: b :: rest => (a, b) :: pairs rest
  | _ => []

/-- Up until one node is left, if there is one. -/
def climb (node : β → β → β) (none : β) : Nat → List β → β
  | _, [] => none
  | _, [b] => b
  | 0, b :: _ => b
  | n + 1, level => climb node none n (pairUp node level)

/-- All that is joined on the way. -/
def joined (node : β → β → β) : Nat → List β → List (β × β)
  | 0, _ => []
  | n + 1, level => pairs level ++ joined node n (pairUp node level)

theorem pairUp_ne_nil (node : β → β → β) {l : List β} (h : l ≠ []) : pairUp node l ≠ [] := by
  match l, h with
  | [_], _ | _ :: _ :: _, _ => exact List.cons_ne_nil _ _

theorem length_pairUp (node : β → β → β) (l : List β) :
    (pairUp node l).length = (l.length + 1) / 2 := by
  induction l using List.twoStepInduction with
  | nil | singleton => simp [pairUp]
  | cons_cons a b rest ih =>
    simp only [pairUp, List.length_cons, ih]
    omega

section Hom

variable (f : β → γ) (node : β → β → β) (node' : γ → γ → γ)
  (hom : ∀ a b, f (node a b) = node' (f a) (f b))

include hom

theorem map_pairUp (l : List β) : (pairUp node l).map f = pairUp node' (l.map f) := by
  induction l using List.twoStepInduction with
  | nil | singleton => rfl
  | cons_cons a b rest ih => simp only [pairUp, List.map_cons, hom, ih]

omit hom in
theorem map_pairs (l : List β) : (pairs l).map (Prod.map f f) = pairs (l.map f) := by
  induction l using List.twoStepInduction with
  | nil | singleton => rfl
  | cons_cons a b rest ih => simp only [pairs, List.map_cons, Prod.map, ih]

theorem map_joined (n : Nat) (l : List β) :
    (joined node n l).map (Prod.map f f) = joined node' n (l.map f) := by
  induction n generalizing l with
  | zero => rfl
  | succ n ih => rw [joined, joined, List.map_append, map_pairs, ih, map_pairUp f node node' hom]

/-- Climbing over the images is the image of climbing. -/
theorem map_climb (none : β) (none' : γ) (n : Nat) {l : List β} (hne : l ≠ []) :
    f (climb node none n l) = climb node' none' n (l.map f) := by
  induction n generalizing l with
  | zero =>
    match l, hne with
    | [_], _ | _ :: _ :: _, _ => rfl
  | succ n ih =>
    match l, hne with
    | [_], _ => rfl
    | a :: b :: rest, hne =>
      have hup := ih (pairUp_ne_nil node hne)
      rw [map_pairUp f node node' hom] at hup
      exact hup

end Hom

/-! ## The tree over a list -/

theorem flatMap_leaves_pairUp (ts : List (LeafTree α)) :
    (pairUp .node ts).flatMap LeafTree.leaves = ts.flatMap LeafTree.leaves := by
  induction ts using List.twoStepInduction with
  | nil | singleton => rfl
  | cons_cons a b rest ih =>
    simp only [pairUp, List.flatMap_cons, LeafTree.leaves, ih, List.append_assoc]

/-- **The tree has the list at its leaves**, in order. -/
theorem leaves_climb {t₀ : LeafTree α} {n : Nat} {ts : List (LeafTree α)} (hne : ts ≠ [])
    (hn : ts.length ≤ n + 1) : (climb .node t₀ n ts).leaves = ts.flatMap LeafTree.leaves := by
  induction n generalizing ts with
  | zero =>
    match ts, hne, hn with
    | [t], _, _ => simp [climb]
  | succ n ih =>
    match ts, hne, hn with
    | [t], _, _ => simp [climb]
    | a :: b :: rest, hne, hn =>
      have hlength := length_pairUp LeafTree.node (a :: b :: rest)
      simp only [List.length_cons] at hn hlength
      rw [← flatMap_leaves_pairUp]
      exact ih (pairUp_ne_nil _ hne) (by omega)

theorem mem_pairUp {ts : List (LeafTree α)} {t : LeafTree α} (h : t ∈ pairUp .node ts) :
    t ∈ ts ∨ ∃ p ∈ pairs ts, t = .node p.1 p.2 ∧ p.1 ∈ ts ∧ p.2 ∈ ts := by
  induction ts using List.twoStepInduction with
  | nil => cases h
  | singleton => exact .inl h
  | cons_cons a b rest ih =>
    rw [pairUp] at h
    obtain rfl | h := List.mem_cons.mp h
    · exact .inr ⟨(a, b), List.mem_cons_self, rfl, List.mem_cons_self, .tail _ List.mem_cons_self⟩
    · obtain hmem | ⟨p, hp, rfl, hl, hr⟩ := ih h
      · exact .inl (.tail _ (.tail _ hmem))
      · exact .inr ⟨p, .tail _ hp, rfl, .tail _ (.tail _ hl), .tail _ (.tail _ hr)⟩

/-- Every node of the tree was joined on the way, or was there before. -/
theorem node_mem_climb {t₀ l r : LeafTree α} {n : Nat} {ts : List (LeafTree α)} (hne : ts ≠ [])
    (h : LeafTree.node l r ∈ (climb .node t₀ n ts).subtrees) :
    (l, r) ∈ joined .node n ts ∨ ∃ t ∈ ts, .node l r ∈ t.subtrees := by
  induction n generalizing ts with
  | zero =>
    match ts, hne with
    | [t], _ | t :: _ :: _, _ => exact .inr ⟨t, List.mem_cons_self, h⟩
  | succ n ih =>
    match ts, hne with
    | [t], _ => exact .inr ⟨t, List.mem_cons_self, h⟩
    | a :: b :: rest, hne =>
      obtain hjoined | ⟨t, ht, hmem⟩ := ih (pairUp_ne_nil _ hne) h
      · exact .inl (List.mem_append_right _ hjoined)
      obtain hold | ⟨p, hp, rfl, hleft, hright⟩ := mem_pairUp ht
      · exact .inr ⟨t, hold, hmem⟩
      -- A tree of the next level is a pair of this one, or lies below it.
      obtain hself | hmem | hmem : LeafTree.node l r = .node p.1 p.2 ∨ .node l r ∈ p.1.subtrees ∨
          .node l r ∈ p.2.subtrees := by simpa [LeafTree.subtrees] using hmem
      · obtain ⟨rfl, rfl⟩ := LeafTree.node.inj hself
        exact .inl (List.mem_append_left _ hp)
      · exact .inr ⟨p.1, hleft, hmem⟩
      · exact .inr ⟨p.2, hright, hmem⟩

end HashTree
