import Mathlib

/-!
# Lib/Moves — many payments of one account

Balances are a function from owners to amounts.  One owner pays a list of others (`Pays`); or amounts are
granted to some owners out of nothing while others hand amounts in to one (`Settles`).  Both compose along
lists, so a loop that makes one move after the other is described by its list of moves.
-/

namespace Moves

variable {α : Type} [DecidableEq α]

/-- What a list of amounts comes to for one owner. -/
def toward (cs : List (α × ℕ)) (o : α) : ℕ := ((cs.filter (·.1 = o)).map Prod.snd).sum

section Toward

variable {cs : List (α × ℕ)} {o : α}

@[simp] theorem toward_append (cs cs' : List (α × ℕ)) (o : α) :
    toward (cs ++ cs') o = toward cs o + toward cs' o := by
  simp [toward, List.filter_append]

@[simp] theorem toward_singleton (c : α × ℕ) : toward [c] o = if c.1 = o then c.2 else 0 := by
  by_cases h : c.1 = o <;> simp [toward, h]

theorem toward_eq_zero (h : o ∉ cs.map Prod.fst) : toward cs o = 0 := by
  have hnone : cs.filter (·.1 = o) = [] :=
    List.filter_eq_nil_iff.mpr fun c hc he => h (List.mem_map.mpr ⟨c, hc, of_decide_eq_true he⟩)
  rw [toward, hnone]
  rfl

/-- An owner listed once gets the one amount. -/
theorem toward_of_mem {n : ℕ} (hnodup : (cs.map Prod.fst).Nodup) (h : (o, n) ∈ cs) :
    toward cs o = n := by
  obtain ⟨pre, post, rfl⟩ := List.append_of_mem h
  rw [List.map_append, List.map_cons, List.nodup_middle, List.nodup_cons, List.mem_append,
    not_or] at hnodup
  rw [← List.singleton_append, toward_append, toward_append, toward_eq_zero hnodup.1.1,
    toward_eq_zero hnodup.1.2]
  simp

theorem toward_map {β : Type} (l : List β) (owner : β → α) (amount : β → ℕ) (o : α) :
    toward (l.map fun b => (owner b, amount b)) o = ((l.filter (owner · = o)).map amount).sum := by
  rw [toward, List.filter_map, List.map_map]
  rfl

theorem toward_map_zero {β : Type} (l : List β) (owner : β → α) (o : α) :
    toward (l.map fun b => (owner b, 0)) o = 0 := by
  rw [toward_map]
  simp

omit [DecidableEq α] in
/-- Amounts that count for some only. -/
theorem sum_map_ite {β : Type} (l : List β) (q : β → Prop) [DecidablePred q] (amount : β → ℕ) :
    (l.map fun b => if q b then 0 else amount b).sum = ((l.filter (¬ q ·)).map amount).sum := by
  induction l with
  | nil => rfl
  | cons b l ih =>
    by_cases hq : q b <;> simp [hq, ih]

end Toward

variable {p : α} {cs cs' : List (α × ℕ)} {f f' f'' : α → ℕ}

/-! ## Payments -/

/-- **`p` pays the listed amounts**: it has that much less, and everyone else what is meant for them more. -/
structure Pays (p : α) (cs : List (α × ℕ)) (f f' : α → ℕ) : Prop where
  payer : f' p + (cs.map Prod.snd).sum = f p
  others : ∀ o ≠ p, f' o = f o + toward cs o

namespace Pays

theorem nil (p : α) (f : α → ℕ) : Pays p [] f f := ⟨rfl, fun _ _ => rfl⟩

/-- Nothing is paid. -/
theorem zero (p r : α) (f : α → ℕ) : Pays p [(r, 0)] f f := ⟨rfl, fun o _ => by simp⟩

/-- **One payment.** -/
theorem single {r : α} {n : ℕ} (hne : r ≠ p) (hle : n ≤ f p) :
    Pays p [(r, n)] f (Function.update (Function.update f p (f p - n)) r (f r + n)) := by
  refine ⟨?_, fun o ho => ?_⟩
  · rw [Function.update_of_ne hne.symm, Function.update_self]
    simp [Nat.sub_add_cancel hle]
  · by_cases hr : o = r
    · subst hr
      simp
    · simp [hr, Ne.symm hr, ho]

theorem append (h : Pays p cs f f') (h' : Pays p cs' f' f'') : Pays p (cs ++ cs') f f'' := by
  refine ⟨?_, fun o ho => ?_⟩
  · rw [List.map_append, List.sum_append, ← h.payer, ← h'.payer]
    omega
  · rw [toward_append, h'.others o ho, h.others o ho, Nat.add_assoc]

end Pays

/-! ## Grants and collections -/

/-- **Amounts are granted to some owners, and some hand amounts in to `p`.** -/
structure Settles (p : α) (granted handedIn : List (α × ℕ)) (f f' : α → ℕ) : Prop where
  collector : f' p = f p + toward granted p + (handedIn.map Prod.snd).sum
  others : ∀ o ≠ p, f' o + toward handedIn o = f o + toward granted o

namespace Settles

variable {gs gs' hs hs' : List (α × ℕ)}

theorem nil (p : α) (f : α → ℕ) : Settles p [] [] f f := ⟨rfl, fun _ _ => rfl⟩

/-- Nothing is granted and nothing handed in. -/
theorem zero (p r : α) (f : α → ℕ) : Settles p [(r, 0)] [(r, 0)] f f :=
  ⟨by simp, fun o _ => by simp⟩

/-- **One grant.** -/
theorem grant (p r : α) (n : ℕ) (f : α → ℕ) :
    Settles p [(r, n)] [(r, 0)] f (Function.update f r (f r + n)) := by
  refine ⟨?_, fun o ho => ?_⟩
  · by_cases hr : p = r
    · subst hr
      simp
    · simp [hr, Ne.symm hr]
  · by_cases hr : o = r
    · subst hr
      simp
    · simp [hr, Ne.symm hr]

/-- **One collection.** -/
theorem collect {r : α} {n : ℕ} (hne : r ≠ p) (hle : n ≤ f r) :
    Settles p [(r, 0)] [(r, n)] f (Function.update (Function.update f r (f r - n)) p (f p + n)) := by
  refine ⟨by simp, fun o ho => ?_⟩
  by_cases hr : o = r
  · subst hr
    simp [ho, Nat.sub_add_cancel hle]
  · simp [hr, Ne.symm hr, ho]

theorem append (h : Settles p gs hs f f') (h' : Settles p gs' hs' f' f'') :
    Settles p (gs ++ gs') (hs ++ hs') f f'' := by
  refine ⟨?_, fun o ho => ?_⟩
  · rw [toward_append, List.map_append, List.sum_append, h'.collector, h.collector]
    omega
  · have hfirst := h.others o ho
    have hrest := h'.others o ho
    rw [toward_append, toward_append]
    omega

end Settles

end Moves
