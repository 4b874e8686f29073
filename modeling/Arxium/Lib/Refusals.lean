import Arxium.Lib.ReadProg

/-!
# Lib/Refusals — what a reading program can fail with

`Prog.Refuses` is for errors what `Prog.Ensures` is for values: it speaks of the run on one view and is
pushed through the program text by `simp`, down to the `fail` leaves.
-/

namespace ReadProg

namespace Prog

variable {K : Type} {V : K → Type} {ρ ε ε' α β : Type}

/-- `Q` holds of the error the run on `v` ends with, if it ends with one. -/
def Refuses (v : View V ρ) (p : Prog V ρ ε α) (Q : ε → Prop) : Prop := ∀ e, p.run v = .error e → Q e

section Refusals

variable {v : View V ρ} {p : Prog V ρ ε α} {Q R : ε → Prop}

theorem Refuses.mono (h : p.Refuses v Q) (hQR : ∀ e, Q e → R e) : p.Refuses v R :=
  fun e he => hQR e (h e he)

/-- A program that returned a value refuses with nothing. -/
theorem refuses_of_run {a : α} (h : p.run v = .ok a) : p.Refuses v Q := by
  intro e he
  rw [h] at he
  cases he

@[simp] theorem refuses_ret (a : α) : (ret a : Prog V ρ ε α).Refuses v Q ↔ True := by
  simp [Refuses]

@[simp] theorem refuses_fail (e : ε) : (fail e : Prog V ρ ε α).Refuses v Q ↔ Q e := by
  simp [Refuses]

@[simp] theorem refuses_bind {q : Prog V ρ ε β} {f : β → Prog V ρ ε α} :
    (q >>= f).Refuses v Q ↔ q.Refuses v Q ∧ q.Ensures v fun b => (f b).Refuses v Q := by
  unfold Refuses Ensures
  rw [run_bind]
  cases q.run v <;> simp [Except.bind]

@[simp] theorem refuses_ite {c : Prop} [Decidable c] {q : Prog V ρ ε α} :
    (if c then p else q).Refuses v Q ↔ (c → p.Refuses v Q) ∧ (¬ c → q.Refuses v Q) := by
  by_cases h : c <;> simp [h]

@[simp] theorem refuses_ensure {b : Bool} {e : ε} :
    (ensure b e : Prog V ρ ε Unit).Refuses v Q ↔ (b = false → Q e) := by
  cases b <;> simp [ensure]

@[simp] theorem refuses_orFail {o : Option α} {e : ε} :
    (orFail o e : Prog V ρ ε α).Refuses v Q ↔ (o = none → Q e) := by
  cases o <;> simp [orFail]

end Refusals

end Prog

end ReadProg
