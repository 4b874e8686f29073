import Mathlib.Algebra.BigOperators.Finprod
import Mathlib.Data.Set.Card

/-!
# Lib/Tally — totals of finitely many amounts

A ledger gives every owner an amount, all but finitely many of them zero, and keeps two figures about
them: their total and the number of owners that have some.  Setting one amount changes the total by the
difference (`Totals.update`) and the number by at most one (`Numbers.insert`, `Numbers.remove`).
-/

namespace Tally

variable {α : Type} {f : α → ℕ} {n : ℕ}

/-! ## Totals -/

/-- **The amounts come to `n`**: all but finitely many are zero, and `n` is their sum. -/
structure Totals (f : α → ℕ) (n : ℕ) : Prop where
  finite : (Function.support f).Finite
  sum_eq : ∑ᶠ a, f a = n

theorem totals_zero (h : ∀ a, f a = 0) : Totals f 0 := by
  obtain rfl : f = fun _ => 0 := funext h
  exact ⟨by simp, finsum_zero⟩

theorem Totals.le (h : Totals f n) (a : α) : f a ≤ n := by
  obtain ⟨hfin, rfl⟩ := h
  exact single_le_finsum a hfin fun _ => Nat.zero_le _

theorem Totals.unique {m : ℕ} (h : Totals f n) (h' : Totals f m) : n = m :=
  h.sum_eq.symm.trans h'.sum_eq

section Update

variable [DecidableEq α]

/-- Amounts that are all on a list come to its sum. -/
theorem totals_list {l : List α} (hnodup : l.Nodup) (h : ∀ a ∉ l, f a = 0) :
    Totals f (l.map f).sum := by
  have hsub : Function.support f ⊆ ↑l.toFinset := fun a ha => by
    simpa using of_not_not fun hmem => ha (h a hmem)
  refine ⟨(Finset.finite_toSet _).subset hsub, ?_⟩
  rw [finsum_eq_sum_of_support_subset _ hsub, List.sum_toFinset f hnodup]

/-- **Setting one amount changes the total by the difference.** -/
theorem Totals.update (h : Totals f n) {a : α} {x m : ℕ} (hm : m + f a = n + x) :
    Totals (Function.update f a x) m := by
  classical
  obtain ⟨hfin, rfl⟩ := h
  have hsub : Function.support f ⊆ ↑(insert a hfin.toFinset) := by simp
  have hsub' : Function.support (Function.update f a x) ⊆ ↑(insert a hfin.toFinset) := by
    intro b hb
    by_cases hba : b = a
    · simp [hba]
    · rw [Function.mem_support, Function.update_of_ne hba] at hb
      simp [hb]
  refine ⟨(Finset.finite_toSet _).subset hsub', ?_⟩
  rw [finsum_eq_sum_of_support_subset _ hsub] at hm
  rw [finsum_eq_sum_of_support_subset _ hsub',
    Finset.sum_update_of_mem (Finset.mem_insert_self a _)]
  rw [← Finset.sum_sdiff (Finset.singleton_subset_iff.mpr (Finset.mem_insert_self a _)),
    Finset.sum_singleton] at hm
  omega

theorem Totals.add_le (h : Totals f n) {a b : α} (hab : a ≠ b) : f a + f b ≤ n := by
  have hcleared : Totals (Function.update f a 0) (n - f a) := h.update (by have := h.le a; omega)
  have hb := hcleared.le b
  rw [Function.update_of_ne hab.symm] at hb
  have := h.le a
  omega

end Update

/-! ## Numbers -/

/-- **There are `n` of them.** -/
structure Numbers (s : Set α) (n : ℕ) : Prop where
  finite : s.Finite
  ncard_eq : s.ncard = n

variable {s s' : Set α} {a : α}

theorem numbers_empty (h : ∀ a, a ∉ s) : Numbers s 0 := by
  obtain rfl := Set.eq_empty_iff_forall_notMem.mpr h
  exact ⟨Set.finite_empty, Set.ncard_empty α⟩

/-- One more. -/
theorem Numbers.insert (h : Numbers s n) (hne : ∀ b ≠ a, b ∈ s' ↔ b ∈ s) (ha : a ∉ s)
    (ha' : a ∈ s') : Numbers s' (n + 1) := by
  obtain ⟨hfin, rfl⟩ := h
  obtain rfl : s' = Insert.insert a s := by
    ext b
    by_cases hb : b = a
    · simp [hb, ha']
    · simp [hb, hne b hb]
  exact ⟨hfin.insert a, Set.ncard_insert_of_notMem ha hfin⟩

/-- One less. -/
theorem Numbers.remove (h : Numbers s n) (hne : ∀ b ≠ a, b ∈ s' ↔ b ∈ s) (ha : a ∈ s)
    (ha' : a ∉ s') : Numbers s' (n - 1) := by
  obtain ⟨hfin, rfl⟩ := h
  obtain rfl : s' = s \ {a} := by
    ext b
    by_cases hb : b = a
    · simp [hb, ha']
    · simp [hb, hne b hb]
  exact ⟨hfin.sdiff, Set.ncard_sdiff_singleton_of_mem ha⟩

/-- The same ones. -/
theorem Numbers.congr (h : Numbers s n) (hiff : ∀ b, b ∈ s' ↔ b ∈ s) : Numbers s' n := by
  obtain rfl : s' = s := Set.ext hiff
  exact h

theorem Numbers.unique {m : ℕ} (h : Numbers s n) (h' : Numbers s m) : n = m :=
  h.ncard_eq.symm.trans h'.ncard_eq

theorem Numbers.pos (h : Numbers s n) (ha : a ∈ s) : 0 < n :=
  h.ncard_eq ▸ (Set.ncard_pos h.finite).mpr ⟨a, ha⟩

end Tally
