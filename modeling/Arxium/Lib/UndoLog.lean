import Mathlib

/-!
# Lib/UndoLog — a store that can be unwound, down to a floor

A store commits one numbered entry after the other and logs for each how to undo it.  Unwinding takes
back the last entries one by one; entries at or below a floor are never taken back, and the floor only
rises.  What holds of the state after every entry above the floor therefore holds of every state the
store can be unwound to: `Covers` is that fact, and its three lemmas are the three things that can
happen to the store.
-/

namespace UndoLog

variable {σ U : Type} (unwind : U → σ → σ)

/-- The state after taking back the last `count` entries; `none` when one has no undo record. -/
def unwindTo (undo : Nat → Option U) : Nat → Nat → σ → Option σ
  | 0, _, s => some s
  | count + 1, tip, s => (undo tip).bind fun u => unwindTo undo count (tip - 1) (unwind u s)

/-- **Unwinding along known states**: records that lead from each state to the one before lead to any. -/
theorem unwindTo_states {unwind : U → σ → σ} {undo : Nat → Option U} {states : Nat → σ} {n tip : Nat}
    (hle : n ≤ tip) (hback : ∀ k, n ≤ k → k < tip → ∃ u, undo (k + 1) = some u ∧
      unwind u (states (k + 1)) = states k) :
    unwindTo unwind undo (tip - n) tip (states tip) = some (states n) := by
  induction tip, hle using Nat.le_induction with
  | base => rw [Nat.sub_self, unwindTo]
  | succ tip hle ih =>
    obtain ⟨u, hu, hstate⟩ := hback tip hle (Nat.lt_succ_self tip)
    rw [Nat.sub_add_comm hle, unwindTo, hu, Option.bind_some, hstate, Nat.add_sub_cancel]
    exact ih fun k hk hlt => hback k hk (Nat.lt_succ_of_lt hlt)

/-- `I` holds of the state `s` after entry `tip`, and of every state down to the floor that the log
leads back to. -/
inductive Covers (undo : Nat → Option U) (I : Nat → σ → Prop) (floor : Nat) : Nat → σ → Prop
  | base {s : σ} (hs : I floor s) : Covers undo I floor floor s
  | entry {h : Nat} {s : σ} {u : U} (hundo : undo (h + 1) = some u) (hs : I (h + 1) s)
      (hback : Covers undo I floor h (unwind u s)) : Covers undo I floor (h + 1) s

namespace Covers

variable {unwind} {undo undo' : Nat → Option U} {I : Nat → σ → Prop} {floor tip : Nat} {s s' : σ}

theorem holds (h : Covers unwind undo I floor tip s) : I tip s := by
  cases h with
  | base hs => exact hs
  | entry _ hs _ => exact hs

theorem floor_le (h : Covers unwind undo I floor tip s) : floor ≤ tip := by
  induction h with
  | base => exact le_rfl
  | entry _ _ _ ih => exact Nat.le_succ_of_le ih

theorem imp {J : Nat → σ → Prop} (h : Covers unwind undo I floor tip s)
    (hIJ : ∀ k s, I k s → J k s) : Covers unwind undo J floor tip s := by
  induction h with
  | base hs => exact .base (hIJ _ _ hs)
  | entry hu hs _ ih => exact .entry hu (hIJ _ _ hs) ih

/-- Records above the tip do not matter. -/
theorem congr (h : Covers unwind undo I floor tip s) (hundo : ∀ k ≤ tip, undo' k = undo k) :
    Covers unwind undo' I floor tip s := by
  induction h with
  | base hs => exact .base hs
  | entry hu hs _ ih =>
    exact .entry ((hundo _ le_rfl).trans hu) hs (ih fun k hk => hundo k (Nat.le_succ_of_le hk))

/-- **One more entry.** -/
theorem commit (h : Covers unwind undo I floor tip s) {u : U} (hback : unwind u s' = s)
    (hs : I (tip + 1) s') : Covers unwind (Function.update undo (tip + 1) (some u)) I floor (tip + 1) s' := by
  refine .entry (Function.update_self ..) hs (hback ▸ h.congr fun k hk => ?_)
  exact Function.update_of_ne (by omega) ..

/-- **The floor rises.** -/
theorem raise (h : Covers unwind undo I floor tip s) {floor' : Nat} (hle : floor ≤ floor')
    (htip : floor' ≤ tip) : Covers unwind undo I floor' tip s := by
  induction h with
  | base hs =>
    obtain rfl := Nat.le_antisymm hle htip
    exact .base hs
  | entry hu hs _ ih =>
    rcases Nat.lt_or_eq_of_le htip with hlt | rfl
    · exact .entry hu hs (ih (Nat.le_of_lt_succ hlt))
    · exact .base hs

/-- **Unwinding.** -/
theorem unwindTo (h : Covers unwind undo I floor tip s) {count : Nat} (hcount : floor + count ≤ tip) :
    ∃ s', UndoLog.unwindTo unwind undo count tip s = some s' ∧
      Covers unwind undo I floor (tip - count) s' := by
  induction count generalizing tip s with
  | zero => exact ⟨s, rfl, h⟩
  | succ count ih =>
    cases h with
    | base => omega
    | @entry tip s u hu hs hback =>
      obtain ⟨s', hs', hcovers⟩ := ih hback (by omega)
      refine ⟨s', ?_, by rwa [Nat.add_sub_add_right]⟩
      rw [UndoLog.unwindTo, hu, Option.bind_some, Nat.add_sub_cancel, hs']

end Covers

end UndoLog
