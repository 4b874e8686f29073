import Mathlib.Data.List.Induction

/-!
# Lib/Latest — the last element with a property

A history grows at its end, so what a state remembers of it is often its last entry of some kind.
-/

namespace Latest

variable {α : Type*} {p : α → Prop} {l : List α} {a b : α}

/-- `a` is the last element of the list with the property. -/
def IsLatest (p : α → Prop) (l : List α) (a : α) : Prop :=
  ∃ pre post, l = pre ++ a :: post ∧ p a ∧ ∀ b ∈ post, ¬ p b

theorem isLatest_snoc (h : p a) : IsLatest p (l ++ [a]) a := ⟨l, [], rfl, h, by simp⟩

theorem IsLatest.snoc (h : IsLatest p l b) (ha : ¬ p a) : IsLatest p (l ++ [a]) b := by
  obtain ⟨pre, post, rfl, hb, hpost⟩ := h
  exact ⟨pre, post ++ [a], by simp, hb,
    List.forall_mem_append.mpr ⟨hpost, List.forall_mem_singleton.mpr ha⟩⟩

/-- The last one in a tail is the last one of all. -/
theorem IsLatest.append_left (h : IsLatest p l a) (pre : List α) : IsLatest p (pre ++ l) a := by
  obtain ⟨before, post, rfl, ha, hpost⟩ := h
  exact ⟨pre ++ before, post, by simp, ha, hpost⟩

/-- …and so is the last one before a tail without any. -/
theorem IsLatest.append_right (h : IsLatest p l a) {post : List α} (hpost : ∀ b ∈ post, ¬ p b) :
    IsLatest p (l ++ post) a := by
  obtain ⟨before, rest, rfl, ha, hrest⟩ := h
  exact ⟨before, rest ++ post, by simp, ha, List.forall_mem_append.mpr ⟨hrest, hpost⟩⟩

theorem isLatest_snoc_iff : IsLatest p (l ++ [a]) b ↔ (p a ∧ b = a) ∨ (¬ p a ∧ IsLatest p l b) := by
  constructor
  · rintro ⟨pre, post, hsplit, hb, hpost⟩
    rcases List.eq_nil_or_concat post with rfl | ⟨post, c, rfl⟩
    · obtain ⟨rfl, hlast⟩ := List.append_inj' hsplit rfl
      obtain rfl := List.singleton_inj.mp hlast
      exact .inl ⟨hb, rfl⟩
    · rw [List.concat_eq_append, ← List.cons_append, ← List.append_assoc] at hsplit
      obtain ⟨rfl, hlast⟩ := List.append_inj' hsplit rfl
      obtain rfl := List.singleton_inj.mp hlast
      rw [List.concat_eq_append, List.forall_mem_append, List.forall_mem_singleton] at hpost
      exact .inr ⟨hpost.2, pre, post, rfl, hb, hpost.1⟩
  · rintro (⟨ha, rfl⟩ | ⟨ha, h⟩)
    · exact isLatest_snoc ha
    · exact h.snoc ha

/-- Where there is one, there is a last one. -/
theorem exists_isLatest (h : ∃ a ∈ l, p a) : ∃ a, IsLatest p l a := by
  induction l using List.reverseRecOn with
  | nil => simp at h
  | append_singleton l a ih =>
    by_cases ha : p a
    · exact ⟨a, isLatest_snoc ha⟩
    · obtain ⟨b, hb, hpb⟩ := h
      rcases List.mem_append.mp hb with hb | hb
      · obtain ⟨c, hc⟩ := ih ⟨b, hb, hpb⟩
        exact ⟨c, hc.snoc ha⟩
      · exact absurd (List.mem_singleton.mp hb ▸ hpb) ha

end Latest
