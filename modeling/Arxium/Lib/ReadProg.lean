import Mathlib.Tactic.Common
import Mathlib.Logic.Function.Basic

/-!
# Lib/ReadProg — programs that touch a store only by reading single keys

A program over a keyed store is a tree of reads: `Prog V ρ ε α` asks for a key, continues with the
answer (which may itself be a read error in `ρ`), and ends in a value or a failure in `ε`.  Writes
are not part of it — a program *returns* what it wants written — so what a program computes is a
function of the answers it got, and nothing else.
-/

namespace ReadProg

/-! ## Outcomes -/

section Outcome

variable {ε ε' α β : Type} {x : Except ε α}

theorem bind_eq_ok {f : α → Except ε β} {b : β} :
    (x >>= f) = .ok b ↔ ∃ a, x = .ok a ∧ f a = .ok b := by
  cases x <;> simp [bind, Except.bind]

@[simp] theorem error_bind (e : ε) (f : α → Except ε β) : (Except.error e >>= f) = .error e := rfl

@[simp] theorem mapError_eq_ok {f : ε → ε'} {a : α} : x.mapError f = .ok a ↔ x = .ok a := by
  cases x <;> simp [Except.mapError]

theorem bind_eq_error {f : α → Except ε β} {e : ε} :
    (x >>= f) = .error e ↔ x = .error e ∨ ∃ a, x = .ok a ∧ f a = .error e := by
  cases x <;> simp [bind, Except.bind]

/-- An early return with an error is not taken by a run that succeeds. -/
theorem guard_eq_ok {c : Prop} [Decidable c] {e : ε} {f : β → Except ε α} {a : α} :
    (if c then (Except.error e >>= f) else x) = .ok a ↔ ¬ c ∧ x = .ok a := by
  by_cases h : c <;> simp [h]

theorem exists_ok_of_isOk (h : x.isOk = true) : ∃ a, x = .ok a := by
  cases x with
  | ok a => exact ⟨a, rfl⟩
  | error e => cases h

theorem exists_ok_of_any {p : α → Bool} (h : x.toOption.any p = true) : ∃ a, x = .ok a ∧ p a = true := by
  cases x with
  | ok a => exact ⟨a, rfl, h⟩
  | error e => cases h

theorem exists_ok_of_map {f : α → β} {b : β} (h : x.map f = .ok b) : ∃ a, x = .ok a ∧ f a = b := by
  cases x with
  | ok a => exact ⟨a, rfl, Except.ok.inj h⟩
  | error e => cases h

end Outcome

variable {K : Type} {V : K → Type} {ρ ε ε' α β γ : Type}

/-- What a store answers: for each key a value, its absence, or a read error. -/
abbrev View (V : K → Type) (ρ : Type) := (k : K) → Except ρ (Option (V k))

/-- A program that reads keys one at a time. -/
inductive Prog {K : Type} (V : K → Type) (ρ ε α : Type) : Type
  | ret (a : α)
  | fail (e : ε)
  | get (k : K) (next : Except ρ (Option (V k)) → Prog V ρ ε α)

namespace Prog

/-- Sequencing: the failure of the first program ends the whole. -/
def bind : Prog V ρ ε α → (α → Prog V ρ ε β) → Prog V ρ ε β
  | ret a, f => f a
  | fail e, _ => fail e
  | get k next, f => get k fun r => (next r).bind f

instance : Monad (Prog V ρ ε) where
  pure := ret
  bind := bind

@[simp] theorem pure_eq (a : α) : (pure a : Prog V ρ ε α) = ret a := rfl

@[simp] theorem ret_bind (a : α) (f : α → Prog V ρ ε β) : (ret a >>= f) = f a := rfl

@[simp] theorem fail_bind (e : ε) (f : α → Prog V ρ ε β) : (fail e >>= f) = fail e := rfl

@[simp] theorem get_bind (k : K) (next : Except ρ (Option (V k)) → Prog V ρ ε α)
    (f : α → Prog V ρ ε β) : (get k next >>= f) = get k fun r => next r >>= f := rfl

instance : LawfulMonad (Prog V ρ ε) := LawfulMonad.mk' (Prog V ρ ε)
  (fun x => by
    induction x with
    | ret a => rfl
    | fail e => rfl
    | get k next ih => exact congrArg (get k) (funext ih))
  (fun _ _ => rfl)
  (fun x f g => by
    induction x with
    | ret a => rfl
    | fail e => rfl
    | get k next ih => exact congrArg (get k) (funext ih))

/-- Reads a key, turning a read error into a failure of the program. -/
def read (lift : ρ → ε) (k : K) : Prog V ρ ε (Option (V k)) :=
  get k fun
    | .ok v => ret v
    | .error e => fail (lift e)

/-- Fails with `e` unless `b`. -/
def ensure (b : Bool) (e : ε) : Prog V ρ ε Unit := if b then ret () else fail e

/-- A computation that reads nothing. -/
def ofExcept : Except ε α → Prog V ρ ε α
  | .ok a => ret a
  | .error e => fail e

/-- The value of an option, or a failure. -/
def orFail (o : Option α) (e : ε) : Prog V ρ ε α := o.elim (fail e) ret

/-- Renames the failures of a program. -/
def mapError (f : ε → ε') : Prog V ρ ε α → Prog V ρ ε' α
  | ret a => ret a
  | fail e => fail (f e)
  | get k next => get k fun r => (next r).mapError f

/-- Hands the outcome of a program to its caller instead of failing with it. -/
def attempt : Prog V ρ ε α → Prog V ρ ε' (Except ε α)
  | ret a => ret (.ok a)
  | fail e => ret (.error e)
  | get k next => get k fun r => (next r).attempt

/-! ## Running a program -/

/-- The outcome of a program on the answers of a view. -/
def run (v : View V ρ) : Prog V ρ ε α → Except ε α
  | ret a => .ok a
  | fail e => .error e
  | get k next => (next (v k)).run v

@[simp] theorem run_ret (v : View V ρ) (a : α) : (ret a : Prog V ρ ε α).run v = .ok a := rfl

@[simp] theorem run_fail (v : View V ρ) (e : ε) : (fail e : Prog V ρ ε α).run v = .error e := rfl

@[simp] theorem run_get (v : View V ρ) (k : K) (next : Except ρ (Option (V k)) → Prog V ρ ε α) :
    (get k next).run v = (next (v k)).run v := rfl

@[simp] theorem run_bind (v : View V ρ) (p : Prog V ρ ε α) (f : α → Prog V ρ ε β) :
    (p >>= f).run v = (p.run v).bind fun a => (f a).run v := by
  induction p with
  | ret a => rfl
  | fail e => rfl
  | get k next ih => exact ih (v k)

/-- **A bind succeeds exactly when both halves do.** -/
theorem bind_ok {v : View V ρ} {p : Prog V ρ ε α} {f : α → Prog V ρ ε β} {b : β} :
    (p >>= f).run v = .ok b ↔ ∃ a, p.run v = .ok a ∧ (f a).run v = .ok b := by
  rw [run_bind]
  cases p.run v with
  | ok a => simp [Except.bind]
  | error e => simp [Except.bind]

/-- What follows a bind succeeds where the bind does. -/
theorem run_rest {v : View V ρ} {p : Prog V ρ ε α} {f : α → Prog V ρ ε β} {b : β}
    (h : (p >>= f).run v = .ok b) : ∃ a, (f a).run v = .ok b :=
  (bind_ok.mp h).imp fun _ => And.right

theorem run_rest₂ {v : View V ρ} {p : Prog V ρ ε α} {q : α → Prog V ρ ε β} {f : α → β → Prog V ρ ε γ}
    {c : γ} (h : (p >>= fun a => q a >>= f a).run v = .ok c) : ∃ a b, (f a b).run v = .ok c :=
  (run_rest h).imp fun _ => run_rest

theorem run_rest₃ {δ : Type} {v : View V ρ} {p : Prog V ρ ε α} {q : α → Prog V ρ ε β}
    {r : α → β → Prog V ρ ε γ} {f : α → β → γ → Prog V ρ ε δ} {d : δ}
    (h : (p >>= fun a => q a >>= fun b => r a b >>= f a b).run v = .ok d) :
    ∃ a b c, (f a b c).run v = .ok d :=
  (run_rest h).imp fun _ => run_rest₂

/-- …and with the answer of the first half, where that is known. -/
theorem run_next {v : View V ρ} {p : Prog V ρ ε α} {f : α → Prog V ρ ε β} {a : α} {b : β}
    (h : (p >>= f).run v = .ok b) (hp : p.run v = .ok a) : (f a).run v = .ok b := by
  rwa [run_bind, hp] at h

@[simp] theorem run_ite (v : View V ρ) (c : Prop) [Decidable c] (p q : Prog V ρ ε α) :
    (if c then p else q).run v = if c then p.run v else q.run v := by
  split <;> rfl

@[simp] theorem run_ensure (v : View V ρ) (b : Bool) (e : ε) :
    (ensure b e : Prog V ρ ε Unit).run v = if b then .ok () else .error e := by
  cases b <;> rfl

@[simp] theorem run_ofExcept (v : View V ρ) (x : Except ε α) :
    (ofExcept x : Prog V ρ ε α).run v = x := by
  cases x <;> rfl

@[simp] theorem run_orFail_some (v : View V ρ) (a : α) (e : ε) :
    (orFail (some a) e : Prog V ρ ε α).run v = .ok a := rfl

@[simp] theorem run_orFail_none (v : View V ρ) (e : ε) :
    (orFail none e : Prog V ρ ε α).run v = .error e := rfl

theorem orFail_ok {v : View V ρ} {o : Option α} {e : ε} {a : α} :
    (orFail o e : Prog V ρ ε α).run v = .ok a ↔ o = some a := by
  cases o <;> simp

theorem pure_ok₂ {v : View V ρ} {a a' : α} {b b' : β} :
    (pure (a, b) : Prog V ρ ε (α × β)).run v = .ok (a', b') ↔ a = a' ∧ b = b' := by
  rw [pure_eq, run_ret, Except.ok.injEq, Prod.mk.injEq]

theorem pure_ok₃ {v : View V ρ} {a a' : α} {b b' : β} {c c' : γ} :
    (pure (a, b, c) : Prog V ρ ε (α × β × γ)).run v = .ok (a', b', c') ↔ a = a' ∧ b = b' ∧ c = c' := by
  rw [pure_ok₂, Prod.mk.injEq]

theorem ensure_ok {v : View V ρ} {b : Bool} {e : ε} {u : Unit} :
    (ensure b e : Prog V ρ ε Unit).run v = .ok u ↔ b = true := by
  cases b <;> simp

@[simp] theorem run_mapError (v : View V ρ) (f : ε → ε') (p : Prog V ρ ε α) :
    (p.mapError f).run v = (p.run v).mapError f := by
  induction p with
  | ret a => rfl
  | fail e => rfl
  | get k next ih => exact ih (v k)

@[simp] theorem run_attempt (v : View V ρ) (p : Prog V ρ ε α) :
    (p.attempt : Prog V ρ ε' (Except ε α)).run v = .ok (p.run v) := by
  induction p with
  | ret a => rfl
  | fail e => rfl
  | get k next ih => exact ih (v k)

/-! ## What a program can return

`Ensures` speaks of the run on one view, `Yields` of every run there is.  Both are pushed through
the program text by `simp`, so a fact about all the values a program can return reduces to its
`ret` leaves. -/

/-- `Q` holds of the value the run on `v` returns, if it returns one. -/
def Ensures (v : View V ρ) (p : Prog V ρ ε α) (Q : α → Prop) : Prop := ∀ a, p.run v = .ok a → Q a

/-- `Q` holds of every value the program can return, whatever its reads are answered. -/
def Yields (Q : α → Prop) : Prog V ρ ε α → Prop
  | ret a => Q a
  | fail _ => True
  | get _ next => ∀ r, (next r).Yields Q

section Outcomes

variable {v : View V ρ} {p : Prog V ρ ε α} {Q R : α → Prop}

theorem Yields.ensures (h : p.Yields Q) (v : View V ρ) : p.Ensures v Q := by
  intro a ha
  induction p with
  | ret b =>
    obtain rfl : b = a := Except.ok.inj ha
    exact h
  | fail e => exact absurd ha (by simp)
  | get k next ih => exact ih (v k) (h (v k)) ha

@[simp] theorem ensures_ret (a : α) : (ret a : Prog V ρ ε α).Ensures v Q ↔ Q a := by
  simp [Ensures]

@[simp] theorem ensures_fail (e : ε) : (fail e : Prog V ρ ε α).Ensures v Q ↔ True := by
  simp [Ensures]

@[simp] theorem ensures_bind {q : Prog V ρ ε β} {f : β → Prog V ρ ε α} :
    (q >>= f).Ensures v Q ↔ q.Ensures v fun b => (f b).Ensures v Q := by
  constructor
  · intro h b hb a ha
    exact h a (bind_ok.mpr ⟨b, hb, ha⟩)
  · intro h a ha
    obtain ⟨b, hb, ha⟩ := bind_ok.mp ha
    exact h b hb a ha

@[simp] theorem ensures_ite {c : Prop} [Decidable c] {q : Prog V ρ ε α} :
    (if c then p else q).Ensures v Q ↔ (c → p.Ensures v Q) ∧ (¬ c → q.Ensures v Q) := by
  by_cases h : c <;> simp [h]

@[simp] theorem ensures_read {lift : ρ → ε} {k : K} {Q : Option (V k) → Prop} :
    (read lift k : Prog V ρ ε _).Ensures v Q ↔ ∀ x, v k = .ok x → Q x := by
  simp only [Ensures, read, run_get]
  cases v k <;> simp

@[simp] theorem ensures_mapError {f : ε → ε'} : (p.mapError f).Ensures v Q ↔ p.Ensures v Q := by
  simp only [Ensures, run_mapError]
  cases p.run v <;> simp [Except.mapError]

@[simp] theorem ensures_attempt {Q : Except ε α → Prop} :
    (p.attempt : Prog V ρ ε' _).Ensures v Q ↔ Q (p.run v) := by
  simp [Ensures]

theorem Ensures.mono (h : p.Ensures v Q) (hQR : ∀ a, Q a → R a) : p.Ensures v R :=
  fun a ha => hQR a (h a ha)

@[simp] theorem yields_ret (a : α) : (ret a : Prog V ρ ε α).Yields Q ↔ Q a := Iff.rfl

@[simp] theorem yields_fail (e : ε) : (fail e : Prog V ρ ε α).Yields Q ↔ True := Iff.rfl

@[simp] theorem yields_get {k : K} {next : Except ρ (Option (V k)) → Prog V ρ ε α} :
    (get k next).Yields Q ↔ ∀ r, (next r).Yields Q := Iff.rfl

@[simp] theorem yields_bind {q : Prog V ρ ε β} {f : β → Prog V ρ ε α} :
    (q >>= f).Yields Q ↔ q.Yields fun b => (f b).Yields Q := by
  induction q with
  | ret b => rfl
  | fail e => rfl
  | get k next ih => exact forall_congr' ih

@[simp] theorem yields_ite {c : Prop} [Decidable c] {q : Prog V ρ ε α} :
    (if c then p else q).Yields Q ↔ (c → p.Yields Q) ∧ (¬ c → q.Yields Q) := by
  by_cases h : c <;> simp [h]

@[simp] theorem yields_mapError {f : ε → ε'} : (p.mapError f).Yields Q ↔ p.Yields Q := by
  induction p with
  | ret a => rfl
  | fail e => rfl
  | get k next ih => exact forall_congr' ih

theorem yields_true (p : Prog V ρ ε α) : p.Yields fun _ => True := by
  induction p with
  | ret a => trivial
  | fail e => trivial
  | get k next ih => exact ih

theorem Yields.mono (h : p.Yields Q) (hQR : ∀ a, Q a → R a) : p.Yields R := by
  induction p with
  | ret a => exact hQR a h
  | fail e => trivial
  | get k next ih => exact fun r => ih r (h r)

/-- **The rule for loops that keeps track of the part done**: `I` speaks of the elements gone through and
the state they left. -/
theorem run_foldlM_induct {σ : Type} {v : View V ρ} {I : List β → σ → Prop} {f : σ → β → Prog V ρ ε σ}
    (hstep : ∀ done b s s', I done s → (f s b).run v = .ok s' → I (done ++ [b]) s') {l : List β}
    {s s' : σ} {done : List β} (hs : I done s) (h : (l.foldlM f s).run v = .ok s') : I (done ++ l) s' := by
  induction l generalizing s done with
  | nil =>
    obtain rfl : s = s' := Except.ok.inj h
    rwa [List.append_nil]
  | cons b l ih =>
    rw [List.foldlM_cons] at h
    obtain ⟨s₁, hone, hrest⟩ := bind_ok.mp h
    have := ih (hstep done b s s₁ hs hone) hrest
    rwa [List.append_assoc, List.singleton_append] at this

theorem ensures_foldlM {σ : Type} {I : σ → Prop} {f : σ → β → Prog V ρ ε σ}
    (hf : ∀ s b, I s → (f s b).Ensures v I) (l : List β) (s : σ) (hs : I s) :
    (l.foldlM f s).Ensures v I := by
  induction l generalizing s with
  | nil => simpa using hs
  | cons b l ih =>
    rw [List.foldlM_cons, ensures_bind]
    exact (hf s b hs).mono fun s' hs' => ih s' hs'

end Outcomes

/-! ## The keys a run reads -/

/-- Whatever it is answered, the program reads keys of `P` only. -/
def ReadsOnly (P : K → Prop) : Prog V ρ ε α → Prop
  | ret _ => True
  | fail _ => True
  | get k next => P k ∧ ∀ r, (next r).ReadsOnly P

theorem ReadsOnly.bind {P : K → Prop} {p : Prog V ρ ε α} {f : α → Prog V ρ ε β} (h : p.ReadsOnly P)
    (hf : ∀ a, (f a).ReadsOnly P) : (p >>= f).ReadsOnly P := by
  induction p with
  | ret a => exact hf a
  | fail e => trivial
  | get k next ih => exact ⟨h.1, fun r => ih r (h.2 r)⟩

theorem readsOnly_read {P : K → Prop} {lift : ρ → ε} {k : K} (h : P k) :
    (read lift k : Prog V ρ ε _).ReadsOnly P :=
  ⟨h, fun r => by cases r <;> trivial⟩

theorem readsOnly_pure {P : K → Prop} {a : α} : (pure a : Prog V ρ ε α).ReadsOnly P := trivial

theorem readsOnly_ensure {P : K → Prop} {b : Bool} {e : ε} :
    (ensure b e : Prog V ρ ε Unit).ReadsOnly P := by
  cases b <;> trivial

/-- **Views that agree on what a program may read give the same run.** -/
theorem ReadsOnly.run_eq {P : K → Prop} {v w : View V ρ} {p : Prog V ρ ε α} (h : p.ReadsOnly P)
    (hvw : ∀ k, P k → w k = v k) : p.run w = p.run v := by
  induction p with
  | ret a => rfl
  | fail e => rfl
  | get k next ih =>
    rw [run_get, run_get, hvw k h.1]
    exact ih (v k) (h.2 (v k))

end Prog

end ReadProg
