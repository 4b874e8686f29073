import Mathlib.Algebra.Group.Action.Defs
import Mathlib.Algebra.Order.BigOperators.Group.List
import Mathlib.Tactic.Ring

/-!
# Lib/Apportion — whole units divided in proportion

`r` units are divided among claims in proportion to their weights.  Rounding down loses fewer units than
there are claims (`sum_share_le`, `le_sum_share`), and a larger weight never gets less (`share_mono`).
When claims whose part reaches a cap leave with the cap, those that stay are no worse off
(`cap_mul_le_of_leave`).
-/

namespace Apportion

/-- What a weight gets of `r` units among `n` claims of some total weight, rounded down; claims without
any weight get equal parts. -/
def share (r total n weight : Nat) : Nat := if total = 0 then r / n else r * weight / total

theorem share_mono {r total n s t : Nat} (h : s ≤ t) : share r total n s ≤ share r total n t := by
  unfold share
  split_ifs
  · exact le_rfl
  · exact Nat.div_le_div_right (Nat.mul_le_mul_left r h)

theorem le_share {r total n s cap : Nat} (htotal : total ≠ 0) :
    cap ≤ share r total n s ↔ cap * total ≤ r * s := by
  rw [share, if_neg htotal, Nat.le_div_iff_mul_le (Nat.pos_of_ne_zero htotal)]

theorem sum_map_const_div (r n : Nat) (ws : List Nat) :
    (ws.map fun _ => r / n).sum = ws.length * (r / n) := by
  rw [List.map_const', List.sum_replicate, smul_eq_mul]

/-- Quotients and remainders, summed over the weights. -/
theorem sum_div_mod (r total : Nat) (ws : List Nat) :
    total * (ws.map fun w => r * w / total).sum + (ws.map fun w => r * w % total).sum = r * ws.sum := by
  induction ws with
  | nil => simp
  | cons w ws ih =>
    have hw := Nat.div_add_mod (r * w) total
    simp only [List.map_cons, List.sum_cons, Nat.mul_add]
    omega

variable {ws : List Nat}

/-- No more is given than there is. -/
theorem sum_share_le (r : Nat) (ws : List Nat) :
    (ws.map fun w => share r ws.sum ws.length w).sum ≤ r := by
  by_cases htotal : ws.sum = 0
  · simp only [share, if_pos htotal, sum_map_const_div]
    exact Nat.mul_div_le r ws.length
  · simp only [share, if_neg htotal]
    have hsum := sum_div_mod r ws.sum ws
    rw [Nat.mul_comm r] at hsum
    exact Nat.le_of_mul_le_mul_left (by omega) (Nat.pos_of_ne_zero htotal)

/-- What is left over is at most one unit for each claim. -/
theorem le_sum_share (r : Nat) (hne : ws ≠ []) :
    r ≤ (ws.map fun w => share r ws.sum ws.length w).sum + ws.length := by
  have hlength : 0 < ws.length := List.length_pos_iff.mpr hne
  by_cases htotal : ws.sum = 0
  · simp only [share, if_pos htotal, sum_map_const_div]
    have hmod := Nat.div_add_mod r ws.length
    have hlt := Nat.mod_lt r hlength
    omega
  · simp only [share, if_neg htotal]
    have hpos := Nat.pos_of_ne_zero htotal
    have hsum := sum_div_mod r ws.sum ws
    have hmods : (ws.map fun w => r * w % ws.sum).sum ≤ ws.sum * ws.length := by
      have hle : ∀ x ∈ ws.map fun w => r * w % ws.sum, x ≤ ws.sum := by
        intro x hx
        obtain ⟨w, -, rfl⟩ := List.mem_map.mp hx
        exact (Nat.mod_lt _ hpos).le
      have hbound := List.sum_le_card_nsmul _ _ hle
      rwa [List.length_map, smul_eq_mul, Nat.mul_comm] at hbound
    rw [Nat.mul_comm r] at hsum
    refine Nat.le_of_mul_le_mul_left ?_ hpos
    rw [Nat.mul_add]
    omega

/-- **Those that stay are no worse off.**  Claims of total weight `gone` leave with `taken` units, each
unit at the going rate or better; a weight whose part reached the cap still reaches it. -/
theorem cap_mul_le_of_leave {r total gone stay taken cap s : Nat} (htotal : total = gone + stay)
    (hpos : 0 < total) (hrate : taken * total ≤ r * gone)
    (hs : cap * total ≤ r * s) : cap * stay ≤ (r - taken) * s := by
  have hbetter : r * stay ≤ (r - taken) * total := by
    rw [Nat.sub_mul, htotal, Nat.mul_add]
    rw [htotal] at hrate
    omega
  refine Nat.le_of_mul_le_mul_right ?_ hpos
  calc cap * stay * total = cap * total * stay := by ring
    _ ≤ r * s * stay := Nat.mul_le_mul_right _ hs
    _ = r * stay * s := by ring
    _ ≤ (r - taken) * total * s := Nat.mul_le_mul_right _ hbetter
    _ = (r - taken) * s * total := by ring

end Apportion
