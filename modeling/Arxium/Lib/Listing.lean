import Mathlib

/-!
# Lib/Listing — a list kept in step with a property

`Lists l p` says that `l` names, once each, what `p` holds of.  An index keeps such a list without going
over everything: for each thing that was touched it is told whether it belongs on the list now (`mark`).
-/

namespace Listing

variable {α : Type}

/-- The list names, once each, exactly what the property holds of. -/
structure Lists (l : List α) (p : α → Prop) : Prop where
  nodup : l.Nodup
  mem_iff : ∀ a, a ∈ l ↔ p a

theorem lists_nil {p : α → Prop} (h : ∀ a, ¬ p a) : Lists [] p :=
  ⟨List.nodup_nil, fun a => iff_of_false List.not_mem_nil (h a)⟩

variable {l : List α} {p q : α → Prop}

theorem Lists.congr (h : Lists l p) (hiff : ∀ a, p a ↔ q a) : Lists l q :=
  ⟨h.nodup, fun a => (h.mem_iff a).trans (hiff a)⟩

section Mark

variable [DecidableEq α] {a b : α}

/-- Puts an element on the list, or takes it off. -/
def mark (l : List α) (a : α) (listed : Bool) : List α :=
  if a ∈ l then if listed then l else l.erase a else if listed then l ++ [a] else l

theorem nodup_mark (h : l.Nodup) (a : α) (listed : Bool) : (mark l a listed).Nodup := by
  unfold mark
  split_ifs with hmem
  · exact h
  · exact h.erase a
  · exact List.nodup_append.mpr ⟨h, List.nodup_singleton a, fun c hc d hd he => hmem (by
      rw [← List.mem_singleton.mp hd, ← he]
      exact hc)⟩
  · exact h

theorem mem_mark_self (h : l.Nodup) (listed : Bool) : a ∈ mark l a listed ↔ listed = true := by
  unfold mark
  cases listed with
  | true => by_cases hmem : a ∈ l <;> simp [hmem]
  | false => by_cases hmem : a ∈ l <;> simp [hmem, h.not_mem_erase]

theorem mem_mark_of_ne (hne : b ≠ a) (listed : Bool) : b ∈ mark l a listed ↔ b ∈ l := by
  unfold mark
  split_ifs
  · rfl
  · exact List.mem_erase_of_ne hne
  · simp [hne]
  · rfl

theorem lists_mark (h : Lists l p) (a : α) (listed : Bool) :
    Lists (mark l a listed) fun b => if b = a then listed = true else p b := by
  refine ⟨nodup_mark h.nodup a listed, fun b => ?_⟩
  split_ifs with hb
  · subst hb
    exact mem_mark_self h.nodup listed
  · exact (mem_mark_of_ne hb listed).trans (h.mem_iff b)

/-- What is not on the list is not taken off it. -/
theorem mark_of_not_mem (h : a ∉ l) : mark l a false = l := by
  rw [mark, if_neg h, if_neg Bool.false_ne_true]

/-- Taking an element off a list without repetitions. -/
theorem mark_false (h : l.Nodup) (a : α) : mark l a false = l.filter (· ≠ a) := by
  by_cases hmem : a ∈ l
  · rw [mark, if_pos hmem, if_neg Bool.false_ne_true, h.erase_eq_filter]
    exact List.filter_congr fun b _ => by simp [bne, beq_eq_decide]
  · rw [mark_of_not_mem hmem, List.filter_eq_self.mpr]
    exact fun b hb => decide_eq_true fun he => hmem (he ▸ hb)

/-- **An index that was told of every change is right**: `es` says of each touched element whether it
belongs on the list. -/
theorem Lists.foldl_mark {es : List (α × Bool)} (hdistinct : (es.map Prod.fst).Nodup)
    (h : Lists l p) : Lists (es.foldl (fun l e => mark l e.1 e.2) l) fun a =>
      (a, true) ∈ es ∨ a ∉ es.map Prod.fst ∧ p a := by
  induction es generalizing l p with
  | nil => exact h.congr fun a => by simp
  | cons e es ih =>
    obtain ⟨a, listed⟩ := e
    rw [List.map_cons, List.nodup_cons] at hdistinct
    refine (ih hdistinct.2 (lists_mark h a listed)).congr fun b => ?_
    by_cases hb : b = a
    · -- the head is the only entry about `a`
      subst hb
      have hnot : (b, true) ∉ es := fun hmem => hdistinct.1 (List.mem_map.mpr ⟨_, hmem, rfl⟩)
      simp [hdistinct.1, hnot, eq_comm]
    · simp [hb]

end Mark

end Listing
