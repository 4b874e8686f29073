import Mathlib

/-!
# Lib/Writes — finite lists of writes to a keyed store

A store gives each key at most one value; a write puts or deletes the value of one key.  A list of
writes acts on a store in order, so for every key the last write wins (`lookup`), and appending
lists composes their actions (`apply_append`).  Two lists act alike exactly when they agree on
`lookup`, which is how two executors that order their writes differently are compared.
-/

namespace Writes

variable {K : Type} {V : K → Type}

/-- What a store holds. -/
abbrev State (V : K → Type) := (k : K) → Option (V k)

/-- One write: the key, and its new value or its deletion. -/
structure Write (V : K → Type) where
  key : K
  value : Option (V key)

/-- Sets the value of a key. -/
def put (k : K) (v : V k) : Write V := ⟨k, some v⟩

/-- Deletes a key. -/
def del (k : K) : Write V := ⟨k, none⟩

@[simp] theorem put_key (k : K) (v : V k) : (put k v).key = k := rfl

@[simp] theorem del_key (k : K) : (del k : Write V).key = k := rfl

variable [DecidableEq K]

/-- What a write does to a key: nothing, or the value it leaves there. -/
def Write.effect (w : Write V) (k : K) : Option (Option (V k)) :=
  if h : w.key = k then some (h ▸ w.value) else none

@[simp] theorem Write.effect_self (w : Write V) : w.effect w.key = some w.value := by
  simp [Write.effect]

theorem Write.effect_of_ne {w : Write V} {k : K} (h : w.key ≠ k) : w.effect k = none :=
  dif_neg h

@[simp] theorem put_effect_self (k : K) (v : V k) : (put k v).effect k = some (some v) :=
  (put k v).effect_self

@[simp] theorem del_effect_self (k : K) : (del k : Write V).effect k = some none :=
  (del k : Write V).effect_self

/-- The last write to a key, if there is one. -/
def lookup : List (Write V) → (k : K) → Option (Option (V k))
  | [], _ => none
  | w :: ws, k => (lookup ws k).or (w.effect k)

@[simp] theorem lookup_nil (k : K) : lookup ([] : List (Write V)) k = none := rfl

theorem lookup_cons (w : Write V) (ws : List (Write V)) (k : K) :
    lookup (w :: ws) k = (lookup ws k).or (w.effect k) := rfl

@[simp] theorem lookup_append (ws us : List (Write V)) (k : K) :
    lookup (ws ++ us) k = (lookup us k).or (lookup ws k) := by
  induction ws with
  | nil => simp
  | cons w ws ih => rw [List.cons_append, lookup_cons, ih, lookup_cons, Option.or_assoc]

/-- **A key no write names is untouched.** -/
theorem lookup_eq_none {ws : List (Write V)} {k : K} (h : ∀ w ∈ ws, w.key ≠ k) :
    lookup ws k = none := by
  induction ws with
  | nil => rfl
  | cons w ws ih =>
    rw [lookup_cons, ih fun u hu => h u (List.mem_cons_of_mem w hu),
      Write.effect_of_ne (h w List.mem_cons_self), Option.or_none]

theorem lookup_map_eq_none {α : Type*} {l : List α} {f : α → Write V} {k : K} (h : ∀ a, (f a).key ≠ k) :
    lookup (l.map f) k = none :=
  lookup_eq_none (List.forall_mem_map.mpr fun a _ => h a)

/-- …and conversely a key some write names is touched. -/
theorem lookup_isSome {ws : List (Write V)} {w : Write V} (h : w ∈ ws) :
    (lookup ws w.key).isSome := by
  induction ws with
  | nil => exact absurd h List.not_mem_nil
  | cons u ws ih =>
    rw [lookup_cons, Option.isSome_or]
    rcases List.mem_cons.mp h with rfl | hmem
    · simp
    · simp [ih hmem]

/-- The write that no later one follows at its key is the last. -/
theorem lookup_last (ws : List (Write V)) (w : Write V) {us : List (Write V)}
    (h : ∀ u ∈ us, u.key ≠ w.key) : lookup (ws ++ w :: us) w.key = some w.value := by
  rw [lookup_append, lookup_cons, lookup_eq_none h, Write.effect_self, Option.none_or, Option.some_or]

theorem lookup_isSome_iff {ws : List (Write V)} {k : K} :
    (lookup ws k).isSome = true ↔ ∃ w ∈ ws, w.key = k := by
  constructor
  · contrapose!
    intro h
    rw [lookup_eq_none h]
    exact Bool.false_ne_true
  · rintro ⟨w, hw, rfl⟩
    exact lookup_isSome hw

/-- The last write to a key is one of the writes. -/
theorem mem_of_lookup {ws : List (Write V)} {k : K} {x : Option (V k)}
    (h : lookup ws k = some x) : (⟨k, x⟩ : Write V) ∈ ws := by
  induction ws with
  | nil => exact absurd h (by simp)
  | cons w ws ih =>
    rw [lookup_cons] at h
    cases hl : lookup ws k with
    | some y =>
      rw [hl, Option.some_or] at h
      exact List.mem_cons_of_mem w (ih (hl.trans h))
    | none =>
      rw [hl, Option.none_or] at h
      by_cases hk : w.key = k
      · subst hk
        rw [Write.effect_self] at h
        obtain rfl : w.value = x := Option.some.inj h
        exact List.mem_cons_self
      · rw [Write.effect_of_ne hk] at h
        exact absurd h (by simp)

section FlatMap

variable {α : Type} {l : List α} {f g : α → List (Write V)} {k : K}

theorem lookup_flatMap_congr (h : ∀ a ∈ l, lookup (f a) k = lookup (g a) k) :
    lookup (l.flatMap f) k = lookup (l.flatMap g) k := by
  induction l with
  | nil => rfl
  | cons a l ih =>
    rw [List.flatMap_cons, List.flatMap_cons, lookup_append, lookup_append,
      h a List.mem_cons_self, ih fun b hb => h b (List.mem_cons_of_mem a hb)]

theorem lookup_flatMap_eq_none (h : ∀ a ∈ l, lookup (f a) k = none) :
    lookup (l.flatMap f) k = none := by
  induction l with
  | nil => rfl
  | cons a l ih =>
    rw [List.flatMap_cons, lookup_append, h a List.mem_cons_self,
      ih fun b hb => h b (List.mem_cons_of_mem a hb)]
    rfl

/-- Parts that do not touch a key may be left out. -/
theorem lookup_flatMap_filter {p : α → Bool} (h : ∀ a ∈ l, p a = false → lookup (f a) k = none) :
    lookup (l.flatMap f) k = lookup ((l.filter p).flatMap f) k := by
  induction l with
  | nil => rfl
  | cons a l ih =>
    have ih := ih fun b hb => h b (List.mem_cons_of_mem a hb)
    rw [List.flatMap_cons, lookup_append, ih]
    cases hp : p a with
    | true => rw [List.filter_cons_of_pos hp, List.flatMap_cons, lookup_append]
    | false =>
      rw [List.filter_cons_of_neg (by simp [hp]), h a List.mem_cons_self hp, Option.or_none]

end FlatMap

/-! ## Acting on a store -/

/-- The store after a list of writes. -/
def apply (ws : List (Write V)) (s : State V) : State V := fun k => (lookup ws k).getD (s k)

@[simp] theorem apply_nil (s : State V) : apply [] s = s := rfl

theorem apply_apply (ws : List (Write V)) (s : State V) (k : K) :
    apply ws s k = (lookup ws k).getD (s k) := rfl

/-- **Appending lists composes their actions.** -/
theorem apply_append (ws us : List (Write V)) (s : State V) :
    apply (ws ++ us) s = apply us (apply ws s) := by
  funext k
  rw [apply, apply, apply, lookup_append]
  cases lookup us k <;> rfl

theorem apply_of_not_mem {ws : List (Write V)} {k : K} (h : ∀ w ∈ ws, w.key ≠ k) (s : State V) :
    apply ws s k = s k := by
  rw [apply, lookup_eq_none h]
  rfl

/-- What a list of writes is about to overwrite. -/
def prior (s : State V) (ws : List (Write V)) : List (Write V) :=
  ws.map fun w => ⟨w.key, s w.key⟩

theorem lookup_prior (s : State V) (ws : List (Write V)) (k : K) :
    lookup (prior s ws) k = if (lookup ws k).isSome then some (s k) else none := by
  induction ws with
  | nil => rfl
  | cons w ws ih =>
    rw [prior, List.map_cons, lookup_cons, lookup_cons]
    rw [prior] at ih
    rw [ih]
    by_cases hk : w.key = k
    · subst hk
      cases lookup ws w.key <;> simp [Write.effect]
    · simp [Write.effect, hk]

/-- **Writing back what was overwritten restores the store.** -/
theorem apply_prior (s : State V) (ws : List (Write V)) : apply (prior s ws) (apply ws s) = s := by
  funext k
  rw [apply_apply, apply_apply, lookup_prior]
  cases lookup ws k <;> rfl

instance lawfulEqOrd {α : Type} [LinearOrder α] : Std.LawfulEqOrd α :=
  ⟨fun h => compare_eq_iff_eq.mp h⟩

end Writes
