import Arxium.Primitives.Validators
import Arxium.Lib.Apportion

/-!
# Primitives/Power — what the assignment of voting power guarantees

Each pass of `assign_voting_power` divides the remaining power in proportion to stake, fixes whoever is
above the cap at the cap, and goes on with the others.  A validator fixed at the cap leaves with no more
than its part, so the others' parts only grow: who reached the cap once ends at the cap.  That keeps a
larger stake from ending more than one unit below a smaller one (`Fair`, `exists_fair`).

The number of validators is cast to `u32` in the source; it is a natural number here.
-/

namespace Arxium

open Apportion

/-! ## The parts of a pass -/

/-- The stakes of a pool. -/
abbrev stakesOf (pool : List (Address × Nat)) : List Nat := pool.map Prod.snd

/-- What an entry of the pool gets in a pass, before the remainder is handed out. -/
def poolShare (remaining : Nat) (pool : List (Address × Nat)) (e : Address × Nat) : Nat :=
  share remaining (stakesOf pool).sum pool.length e.2

/-- A pass over the pool does not overflow. -/
structure PoolFits (remaining : Nat) (pool : List (Address × Nat)) : Prop where
  sum : (stakesOf pool).sum ≤ u128Max
  product : ∀ e ∈ pool, remaining * e.2 ≤ u128Max

theorem PoolFits.mono {remaining remaining' : Nat} {pool pool' : List (Address × Nat)}
    (h : PoolFits remaining pool) (hle : remaining' ≤ remaining) (hsub : pool'.Sublist pool) :
    PoolFits remaining' pool' where
  sum := ((hsub.map Prod.snd).sum_le_sum fun _ _ => Nat.zero_le _).trans h.sum
  product e he := (Nat.mul_le_mul_right _ hle).trans (h.product e (hsub.subset he))

/-- A list mapped by a function that is guarded entry by entry. -/
theorem mapM_eq_some_of_guard {α β : Type} {p : α → Prop} [DecidablePred p] {f : α → Option β}
    {g : α → β} {l : List α} (hf : ∀ x ∈ l, f x = if p x then some (g x) else none) {out : List β} :
    l.mapM f = some out ↔ (∀ x ∈ l, p x) ∧ out = l.map g := by
  induction l generalizing out with
  | nil => simp [eq_comm]
  | cons x l ih =>
    have ih : ∀ out, l.mapM f = some out ↔ (∀ x ∈ l, p x) ∧ out = l.map g := fun _ =>
      ih fun y hy => hf y (List.mem_cons_of_mem _ hy)
    rw [List.mapM_cons, hf x List.mem_cons_self, List.forall_mem_cons]
    by_cases hx : p x
    · rw [if_pos hx]
      constructor
      · intro h
        obtain ⟨y, hy, h⟩ := Option.bind_eq_some_iff.mp h
        obtain ⟨ys, hys, h⟩ := Option.bind_eq_some_iff.mp h
        obtain rfl := Option.some.inj hy
        obtain ⟨hl, rfl⟩ := (ih ys).mp hys
        exact ⟨⟨hx, hl⟩, (Option.some.inj h).symm⟩
      · rintro ⟨⟨-, hl⟩, rfl⟩
        exact Option.bind_eq_some_iff.mpr ⟨_, rfl, Option.bind_eq_some_iff.mpr ⟨_, (ih _).mpr ⟨hl, rfl⟩, rfl⟩⟩
    · rw [if_neg hx]
      exact ⟨nofun, fun h => absurd h.1.1 hx⟩

/-- **The shares of a pass**, where nothing overflows. -/
theorem proportionalShares_eq_some {remaining : Nat} {pool shares : List (Address × Nat)} :
    proportionalShares remaining pool = some shares ↔ PoolFits remaining pool ∧
      shares = pool.map fun e => (e.1, poolShare remaining pool e) := by
  rw [proportionalShares]
  dsimp only
  by_cases hsum : (stakesOf pool).sum ≤ u128Max
  · rw [if_neg (Nat.not_lt.mpr hsum)]
    refine (mapM_eq_some_of_guard (p := fun e => remaining * e.2 ≤ u128Max)
      (g := fun e => (e.1, poolShare remaining pool e)) fun e he => ?_).trans
      (and_congr_left' ⟨fun h => ⟨hsum, h⟩, PoolFits.product⟩)
    have hle : e.2 ≤ (stakesOf pool).sum := List.le_sum_of_mem (List.mem_map_of_mem he)
    rw [poolShare, share, checkedMul, beq_eq_decide]
    by_cases htotal : (stakesOf pool).sum = 0
    · rw [htotal] at hle
      have hzero : remaining * e.2 = 0 := by rw [Nat.le_zero.mp hle, Nat.mul_zero]
      simp [htotal, hzero]
    · by_cases hfits : remaining * e.2 ≤ u128Max <;> simp [htotal, hfits]
  · rw [if_pos (Nat.lt_of_not_le hsum)]
    exact ⟨fun h => absurd h.symm (Option.some_ne_none _), fun h => absurd h.1.sum hsum⟩

/-! ## The remainder -/

theorem forall₂_bumpFirst (leftover : Nat) (l : List (Address × Nat)) :
    List.Forall₂ (fun e e' => e'.1 = e.1 ∧ e.2 ≤ e'.2 ∧ e'.2 ≤ e.2 + 1) l (bumpFirst leftover l) := by
  induction l generalizing leftover with
  | nil => cases leftover <;> exact .nil
  | cons e l ih =>
    cases leftover with
    | zero => exact List.forall₂_same.mpr fun e _ => ⟨rfl, le_rfl, Nat.le_succ _⟩
    | succ leftover => exact .cons ⟨rfl, Nat.le_succ _, le_rfl⟩ (ih leftover)

theorem sum_bumpFirst {leftover : Nat} {l : List (Address × Nat)} (h : leftover ≤ l.length) :
    ((bumpFirst leftover l).map Prod.snd).sum = (l.map Prod.snd).sum + leftover := by
  induction l generalizing leftover with
  | nil =>
    obtain rfl : leftover = 0 := Nat.le_zero.mp h
    rfl
  | cons e l ih =>
    cases leftover with
    | zero => rfl
    | succ leftover =>
      have ih := ih (Nat.le_of_succ_le_succ h)
      simp only [bumpFirst, List.map_cons, List.sum_cons, ih]
      omega

/-- What every entry of a pass is assigned. -/
theorem exists_power_of_forall₂ {Q : Address × Nat → Nat → Prop} {l l' : List (Address × Nat)}
    (h : List.Forall₂ (fun e e' => e'.1 = e.1 ∧ Q e e'.2) l l') (hnodup : l.Nodup) :
    ∃ p : Address × Nat → Nat, l' = l.map (fun e => (e.1, p e)) ∧ ∀ e ∈ l, Q e (p e) := by
  induction h with
  | nil => exact ⟨fun _ => 0, rfl, fun e he => by cases he⟩
  | @cons e e' l l' hee' _ ih =>
    obtain ⟨he, hl⟩ := List.nodup_cons.mp hnodup
    obtain ⟨p, rfl, hp⟩ := ih hl
    have hne : ∀ x ∈ l, Function.update p e e'.2 x = p x := fun x hx =>
      Function.update_of_ne (ne_of_mem_of_not_mem hx he) _ _
    refine ⟨Function.update p e e'.2, ?_, List.forall_mem_cons.mpr ⟨?_, fun x hx => ?_⟩⟩
    · rw [List.map_cons, Function.update_self, ← hee'.1]
      exact congrArg _ (List.map_congr_left fun x hx => by rw [hne x hx])
    · rw [Function.update_self]
      exact hee'.2
    · rw [hne x hx]
      exact hp x hx

/-! ## A pass -/

/-- The powers a pass assigns: to each its part or one unit more, and all that remains together. -/
structure PassPowers (remaining : Nat) (pool : List (Address × Nat)) (p : Address × Nat → Nat) :
    Prop where
  part : ∀ e ∈ pool, poolShare remaining pool e ≤ p e ∧ p e ≤ poolShare remaining pool e + 1
  sum : (pool.map p).sum = remaining

/-- Who leaves after a pass, and who stays. -/
def overCap (cap : Nat) (p : Address × Nat → Nat) (pool : List (Address × Nat)) :
    List (Address × Nat) := pool.filter fun e => cap < p e

def underCap (cap : Nat) (p : Address × Nat → Nat) (pool : List (Address × Nat)) :
    List (Address × Nat) := pool.filter fun e => !decide (cap < p e)

variable {cap remaining : Nat} {pool : List (Address × Nat)} {p : Address × Nat → Nat}

theorem perm_overCap_underCap (cap : Nat) (p : Address × Nat → Nat) (pool : List (Address × Nat)) :
    (overCap cap p pool ++ underCap cap p pool).Perm pool :=
  List.filter_append_perm _ _

theorem lt_of_mem_overCap {e : Address × Nat} (h : e ∈ overCap cap p pool) : e ∈ pool ∧ cap < p e := by
  simpa [overCap] using h

theorem le_of_mem_underCap {e : Address × Nat} (h : e ∈ underCap cap p pool) : e ∈ pool ∧ p e ≤ cap := by
  simpa [underCap] using h

/-- Those above the cap hold at least the cap each. -/
theorem PassPowers.cap_mul_le (h : PassPowers remaining pool p) :
    cap * (overCap cap p pool).length ≤ remaining := by
  have hle : ∀ x ∈ (overCap cap p pool).map p, cap ≤ x := by
    intro x hx
    obtain ⟨e, he, rfl⟩ := List.mem_map.mp hx
    exact (lt_of_mem_overCap he).2.le
  have hover := List.card_nsmul_le_sum _ _ hle
  rw [List.length_map, smul_eq_mul, Nat.mul_comm] at hover
  refine hover.trans ?_
  rw [← h.sum]
  exact (List.filter_sublist.map p).sum_le_sum fun _ _ => Nat.zero_le _

/-- Not everybody is above the cap. -/
theorem PassPowers.underCap_ne_nil (h : PassPowers remaining pool p) (hne : pool ≠ [])
    (hcap : remaining ≤ cap * pool.length) : underCap cap p pool ≠ [] := by
  intro hnil
  have hlt : ∀ x ∈ pool.map p, cap + 1 ≤ x := by
    intro x hx
    obtain ⟨e, he, rfl⟩ := List.mem_map.mp hx
    have hover := (perm_overCap_underCap cap p pool).mem_iff.mpr he
    rw [hnil, List.append_nil] at hover
    exact (lt_of_mem_overCap hover).2
  have hsum := List.card_nsmul_le_sum _ _ hlt
  rw [List.length_map, smul_eq_mul, h.sum, Nat.mul_comm, Nat.add_mul, Nat.one_mul] at hsum
  have hlength := List.length_pos_iff.mpr hne
  omega

/-- **What a pass does**: it ends the loop, or fixes those above the cap and goes on with the others. -/
theorem assignLoop_pass (hnodup : (pool.map Prod.fst).Nodup) (hne : pool ≠ [])
    (hfits : PoolFits remaining pool) (hcap : remaining ≤ cap * pool.length) :
    ∃ p, PassPowers remaining pool p ∧ ∀ fuel powers, assignLoop cap (fuel + 1) remaining pool powers =
      if overCap cap p pool = [] then some (powers.insertMany (pool.map fun e => (e.1, p e)))
      else assignLoop cap fuel (remaining - cap * (overCap cap p pool).length) (underCap cap p pool)
        (powers.insertMany ((overCap cap p pool).map fun e => (e.1, cap))) := by
  set shares := pool.map fun e => (e.1, poolShare remaining pool e) with hshares
  have hsum : (shares.map Prod.snd).sum =
      ((stakesOf pool).map fun s => share remaining (stakesOf pool).sum (stakesOf pool).length s).sum := by
    rw [hshares, List.map_map, List.map_map, stakesOf, List.length_map]
    rfl
  have hlength : (stakesOf pool).length = shares.length := by
    rw [hshares, List.length_map, List.length_map]
  have hle : (shares.map Prod.snd).sum ≤ remaining := hsum ▸ sum_share_le remaining (stakesOf pool)
  have hleft : remaining ≤ (shares.map Prod.snd).sum + shares.length := by
    rw [hsum, ← hlength]
    exact le_sum_share remaining (mt List.map_eq_nil_iff.mp hne)
  obtain ⟨p, hassigned, hp⟩ := exists_power_of_forall₂ (l := pool)
    (Q := fun e q => poolShare remaining pool e ≤ q ∧ q ≤ poolShare remaining pool e + 1)
    (List.forall₂_map_left_iff.mp (forall₂_bumpFirst (remaining - (shares.map Prod.snd).sum) shares))
    hnodup.of_map
  have hpass : PassPowers remaining pool p := by
    refine ⟨hp, ?_⟩
    have hbumped := sum_bumpFirst (Nat.sub_le_iff_le_add'.mpr hleft)
    rw [hassigned, List.map_map, Nat.add_sub_cancel' hle] at hbumped
    exact hbumped
  refine ⟨p, hpass, fun fuel powers => ?_⟩
  have hcapped : (pool.map fun e => (e.1, p e)).filter (cap < ·.2) =
      (overCap cap p pool).map fun e => (e.1, p e) := by
    rw [List.filter_map]
    rfl
  have hstay : (pool.filter fun e => !((((overCap cap p pool).map fun e => (e.1, p e)).map
      Prod.fst).contains e.1)) = underCap cap p pool := by
    refine List.filter_congr fun e he => congrArg _ (Bool.eq_iff_iff.mpr ?_)
    rw [List.map_map, List.contains_iff_mem, decide_eq_true_iff]
    constructor
    · intro hmem
      obtain ⟨e', he', heq⟩ := List.mem_map.mp hmem
      obtain ⟨hpool, hlt⟩ := lt_of_mem_overCap he'
      rwa [← List.inj_on_of_nodup_map hnodup hpool he heq]
    · intro hlt
      exact List.mem_map.mpr ⟨e, List.mem_filter.mpr ⟨he, by simpa using hlt⟩, rfl⟩
  rw [assignLoop, proportionalShares_eq_some.mpr ⟨hfits, rfl⟩]
  change (if ((bumpFirst (remaining - (shares.map Prod.snd).sum) shares).filter (cap < ·.2)).isEmpty = true
    then _ else _) = _
  rw [hassigned, hcapped, List.isEmpty_map]
  refine if_congr List.isEmpty_iff rfl ?_
  rw [hstay, if_neg (by simpa using hpass.underCap_ne_nil hne hcap), List.map_map, List.length_map]
  rfl

/-! ## The loop -/

/-- **What the loop ends with**: all of the remaining power, nobody above the cap, who reached the cap at
the outset at the cap, and a larger stake at most one unit below a smaller one. -/
structure Fair (cap remaining : Nat) (pool : List (Address × Nat)) (f : Address × Nat → Nat) : Prop where
  sum : (pool.map f).sum = remaining
  le_cap : ∀ e ∈ pool, f e ≤ cap
  filled : ∀ e ∈ pool, (stakesOf pool).sum ≠ 0 → cap * (stakesOf pool).sum ≤ remaining * e.2 → f e = cap
  monotone : ∀ e ∈ pool, ∀ e' ∈ pool, e'.2 < e.2 → f e' ≤ f e + 1

theorem stake_le_sum {e : Address × Nat} (h : e ∈ pool) : e.2 ≤ (stakesOf pool).sum :=
  List.le_sum_of_mem (List.mem_map_of_mem h)

theorem PassPowers.cap_le (h : PassPowers remaining pool p) {e : Address × Nat} (he : e ∈ pool)
    (htotal : (stakesOf pool).sum ≠ 0) (hcap : cap * (stakesOf pool).sum ≤ remaining * e.2) :
    cap ≤ p e :=
  ((le_share htotal).mpr hcap).trans (h.part e he).1

theorem PassPowers.cap_mul_le_of_lt (h : PassPowers remaining pool p) {e : Address × Nat} (he : e ∈ pool)
    (htotal : (stakesOf pool).sum ≠ 0) (hlt : cap < p e) :
    cap * (stakesOf pool).sum ≤ remaining * e.2 :=
  (le_share htotal).mp (Nat.le_of_lt_succ (hlt.trans_le (h.part e he).2))

/-- The last pass. -/
theorem PassPowers.fair (h : PassPowers remaining pool p) (hover : overCap cap p pool = []) :
    Fair cap remaining pool p := by
  have hle : ∀ e ∈ pool, p e ≤ cap := fun e he => by
    have hnot := List.filter_eq_nil_iff.mp hover e he
    simpa using hnot
  refine ⟨h.sum, hle, fun e he htotal hcap => ?_, fun e he e' he' hlt => ?_⟩
  · exact (hle e he).antisymm (h.cap_le he htotal hcap)
  · exact (h.part e' he').2.trans (Nat.succ_le_succ ((share_mono hlt.le).trans (h.part e he).1))

/-- The stakes of those who leave and of those who stay. -/
theorem sum_overCap_underCap :
    (stakesOf pool).sum = (stakesOf (overCap cap p pool)).sum + (stakesOf (underCap cap p pool)).sum := by
  rw [← List.sum_append, ← List.map_append]
  exact (((perm_overCap_underCap cap p pool).map Prod.snd).sum_eq).symm

/-- **Who reaches the cap still does when others have left with it.** -/
theorem PassPowers.filled_underCap (h : PassPowers remaining pool p) {s : Nat}
    (htotal : (stakesOf pool).sum ≠ 0) (hs : cap * (stakesOf pool).sum ≤ remaining * s) :
    cap * (stakesOf (underCap cap p pool)).sum ≤
      (remaining - cap * (overCap cap p pool).length) * s := by
  refine cap_mul_le_of_leave sum_overCap_underCap (Nat.pos_of_ne_zero htotal) ?_ hs
  have hle : ∀ x ∈ (stakesOf (overCap cap p pool)).map (remaining * ·),
      cap * (stakesOf pool).sum ≤ x := by
    intro x hx
    obtain ⟨t, ht, rfl⟩ := List.mem_map.mp hx
    obtain ⟨e, he, rfl⟩ := List.mem_map.mp ht
    obtain ⟨hpool, hlt⟩ := lt_of_mem_overCap he
    exact h.cap_mul_le_of_lt hpool htotal hlt
  have hsum := List.card_nsmul_le_sum _ _ hle
  rw [List.length_map, List.length_map, smul_eq_mul, List.sum_map_mul_left, List.map_id'] at hsum
  calc cap * (overCap cap p pool).length * (stakesOf pool).sum
      = (overCap cap p pool).length * (cap * (stakesOf pool).sum) := by ring
    _ ≤ _ := hsum

/-- A pass that is not the last. -/
theorem PassPowers.fair_of_underCap (h : PassPowers remaining pool p) (hcap : 0 < cap)
    {f : Address × Nat → Nat}
    (hf : Fair cap (remaining - cap * (overCap cap p pool).length) (underCap cap p pool) f) :
    Fair cap remaining pool fun e => if cap < p e then cap else f e := by
  have hunder : ∀ e ∈ pool, ¬ cap < p e → e ∈ underCap cap p pool := fun e he hlt =>
    List.mem_filter.mpr ⟨he, by simpa using hlt⟩
  -- Who stays has no more stake than all who stay, so a cap reached before is reached again.
  have hfilled : ∀ e ∈ pool, ¬ cap < p e → (stakesOf pool).sum ≠ 0 →
      cap * (stakesOf pool).sum ≤ remaining * e.2 → f e = cap := by
    intro e he hlt htotal hs
    refine hf.filled e (hunder e he hlt) (fun hzero => ?_) (h.filled_underCap htotal hs)
    have hstake := stake_le_sum (hunder e he hlt)
    rw [hzero, Nat.le_zero] at hstake
    rw [hstake, Nat.mul_zero, Nat.le_zero, Nat.mul_eq_zero] at hs
    omega
  refine ⟨?_, fun e he => ?_, fun e he htotal hs => ?_, fun e he e' he' hlt => ?_⟩
  · rw [← (perm_overCap_underCap cap p pool).map _ |>.sum_eq, List.map_append, List.sum_append]
    have hover : (overCap cap p pool).map (fun e => if cap < p e then cap else f e) =
        (overCap cap p pool).map fun _ => cap :=
      List.map_congr_left fun e he => if_pos (lt_of_mem_overCap he).2
    have hstay : (underCap cap p pool).map (fun e => if cap < p e then cap else f e) =
        (underCap cap p pool).map f :=
      List.map_congr_left fun e he => if_neg (le_of_mem_underCap he).2.not_gt
    rw [hover, hstay, hf.sum, List.map_const', List.sum_replicate, smul_eq_mul, Nat.mul_comm,
      Nat.add_sub_cancel' h.cap_mul_le]
  · split_ifs with hover
    · exact le_rfl
    · exact hf.le_cap e (hunder e he hover)
  · split_ifs with hover
    · rfl
    · exact hfilled e he hover htotal hs
  · split_ifs with hover' hover hover
    · exact Nat.le_succ cap
    · have htotal : (stakesOf pool).sum ≠ 0 := by
        have := stake_le_sum he
        omega
      rw [hfilled e he hover htotal
        ((h.cap_mul_le_of_lt he' htotal hover').trans (Nat.mul_le_mul_left _ hlt.le))]
      exact Nat.le_succ cap
    · exact (hf.le_cap e' (hunder e' he' hover')).trans (Nat.le_succ cap)
    · exact hf.monotone e (hunder e he hover) e' (hunder e' he' hover') hlt

/-- **The loop ends, however many passes it is allowed beyond one for each validator**, and what it adds to
the powers fixed before is fair. -/
theorem exists_fair (hcap : 0 < cap) (hnodup : (pool.map Prod.fst).Nodup) (hne : pool ≠ [])
    (hfits : PoolFits remaining pool) (hle : remaining ≤ cap * pool.length) :
    ∃ f, Fair cap remaining pool f ∧ ∃ out : List (Address × Nat), out.Perm (pool.map fun e => (e.1, f e)) ∧
      ∀ fuel, pool.length < fuel → ∀ powers,
        assignLoop cap fuel remaining pool powers = some (powers.insertMany out) := by
  -- By induction on the size of the pool: a pass that is not the last makes it smaller.
  induction hn : pool.length using Nat.strong_induction_on generalizing pool remaining with
  | _ n ih =>
    obtain ⟨p, hpass, hloop⟩ := assignLoop_pass hnodup hne hfits hle
    by_cases hover : overCap cap p pool = []
    · refine ⟨p, hpass.fair hover, _, List.Perm.refl _, fun fuel hfuel powers => ?_⟩
      obtain ⟨fuel, rfl⟩ := Nat.exists_eq_add_one_of_ne_zero (Nat.ne_zero_of_lt hfuel)
      rw [hloop, if_pos hover]
    · have hlength : (overCap cap p pool).length + (underCap cap p pool).length = n := by
        rw [← List.length_append, (perm_overCap_underCap cap p pool).length_eq, hn]
      have hpos := List.length_pos_iff.mpr hover
      have hsub : (underCap cap p pool).Sublist pool := List.filter_sublist
      obtain ⟨f, hf, out, hout, hrest⟩ := ih (underCap cap p pool).length (by omega)
        ((hsub.map Prod.fst).nodup hnodup) (hpass.underCap_ne_nil hne hle)
        (hfits.mono (Nat.sub_le _ _) hsub)
        (by
          rw [Nat.sub_le_iff_le_add, ← Nat.mul_add, Nat.add_comm _ (overCap cap p pool).length, hlength, ← hn]
          exact hle) rfl
      refine ⟨_, hpass.fair_of_underCap hcap hf,
        (overCap cap p pool).map (fun e => (e.1, cap)) ++ out, ?_, fun fuel hfuel powers => ?_⟩
      · refine ((List.Perm.append_left _ hout).trans ?_).trans
          ((perm_overCap_underCap cap p pool).map _)
        rw [List.map_append]
        refine .of_eq (congrArg₂ _ (List.map_congr_left fun e he => ?_) (List.map_congr_left fun e he => ?_))
        · rw [if_pos (lt_of_mem_overCap he).2]
        · rw [if_neg (le_of_mem_underCap he).2.not_gt]
      · obtain ⟨fuel, rfl⟩ := Nat.exists_eq_add_one_of_ne_zero (Nat.ne_zero_of_lt hfuel)
        rw [hloop, if_neg hover, hrest fuel (by omega), Std.ExtTreeMap.insertMany_append]

/-! ## The assignment -/

theorem le_powerCap_mul (n : Nat) (hn : 0 < n) : totalVotingPower ≤ powerCap n * n := by
  have hdiv : totalVotingPower ≤ (totalVotingPower + n - 1) / n * n := by
    have hmod := Nat.div_add_mod (totalVotingPower + n - 1) n
    have hlt := Nat.mod_lt (totalVotingPower + n - 1) hn
    rw [Nat.mul_comm] at hmod
    omega
  refine hdiv.trans (Nat.mul_le_mul_right n ?_)
  rw [powerCap, Nat.max_eq_left hn]
  exact Nat.le_max_right _ _

theorem powerCap_pos (n : Nat) : 0 < powerCap n :=
  lt_of_lt_of_le (by decide : 0 < min (totalVotingPower / 10) 3333)
    ((min_le_min_right _ (Nat.le_max_right _ _)).trans (Nat.le_max_left _ _))

/-- **The powers of a set of stakes**: exactly its addresses, all the power there is, nobody above the
cap, and a larger stake at most one unit below a smaller one. -/
structure FairPowers (stakes : TreeMap Address Nat) (powers : ValidatorSet) : Prop where
  mem_iff : ∀ a, a ∈ powers ↔ a ∈ stakes
  sum : (powers.toList.map Prod.snd).sum = totalVotingPower
  le_cap : ∀ (a : Address) (q : Nat), powers[a]? = some q → q ≤ powerCap stakes.size
  monotone : ∀ (a b : Address) (s t q r : Nat), stakes[a]? = some s → stakes[b]? = some t → t < s →
    powers[a]? = some q → powers[b]? = some r → r ≤ q + 1

variable {stakes : TreeMap Address Nat}

theorem nodup_keys_toList (m : TreeMap Address Nat) : (m.toList.map Prod.fst).Nodup := by
  rw [List.Nodup, List.pairwise_map]
  exact m.distinct_keys_toList.imp fun h he => h (compare_eq_iff_eq.mpr he)

/-- What the loop leaves on an empty map of powers. -/
theorem Fair.fairPowers {f : Address × Nat → Nat} {out : List (Address × Nat)}
    (hf : Fair (powerCap stakes.size) totalVotingPower stakes.toList f)
    (hout : out.Perm (stakes.toList.map fun e => (e.1, f e))) :
    FairPowers stakes ((∅ : ValidatorSet).insertMany out) := by
  have hkeys : out.Pairwise fun e e' => ¬ compare e.1 e'.1 = .eq := by
    have hperm := hout.map Prod.fst
    rw [List.map_map] at hperm
    have hnodup := hperm.nodup_iff.mpr (nodup_keys_toList stakes)
    rw [List.Nodup, List.pairwise_map] at hnodup
    exact hnodup.imp fun h he => h (compare_eq_iff_eq.mp he)
  have hget : ∀ (a : Address) (q : Nat),
      ((∅ : ValidatorSet).insertMany out)[a]? = some q ↔ (a, q) ∈ out := by
    intro a q
    refine ⟨fun h => ?_, Std.ExtTreeMap.getElem?_insertMany_list_of_mem (compare_eq_iff_eq.mpr rfl) hkeys⟩
    have hmem : a ∈ (∅ : ValidatorSet).insertMany out := by
      rw [Std.ExtTreeMap.mem_iff_isSome_getElem?, h, Option.isSome_some]
    rw [Std.ExtTreeMap.mem_insertMany_list, List.contains_iff_mem] at hmem
    obtain ⟨e, he, rfl⟩ := List.mem_map.mp (hmem.resolve_left Std.ExtTreeMap.not_mem_empty)
    have hvalue := Std.ExtTreeMap.getElem?_insertMany_list_of_mem (t := (∅ : ValidatorSet))
      (compare_eq_iff_eq.mpr rfl) hkeys he
    rwa [← Option.some.inj (hvalue.symm.trans h)]
  have hentry : ∀ (a : Address) (q : Nat), ((∅ : ValidatorSet).insertMany out)[a]? = some q ↔
      ∃ s, stakes[a]? = some s ∧ q = f (a, s) := by
    intro a q
    rw [hget, hout.mem_iff, List.mem_map]
    constructor
    · rintro ⟨⟨a', s⟩, he, heq⟩
      injection heq with h₁ h₂
      subst h₁
      exact ⟨s, Std.ExtTreeMap.mem_toList_iff_getElem?_eq_some.mp he, h₂.symm⟩
    · rintro ⟨s, hs, rfl⟩
      exact ⟨(a, s), Std.ExtTreeMap.mem_toList_iff_getElem?_eq_some.mpr hs, rfl⟩
  refine ⟨fun a => ?_, ?_, fun a q hq => ?_, fun a b s t q r hs ht hlt hq hr => ?_⟩
  · rw [Std.ExtTreeMap.mem_iff_isSome_getElem?, Std.ExtTreeMap.mem_iff_isSome_getElem?,
      Option.isSome_iff_exists, Option.isSome_iff_exists]
    simp only [hentry]
    exact ⟨fun ⟨_, s, hs, _⟩ => ⟨s, hs⟩, fun ⟨s, hs⟩ => ⟨_, s, hs, rfl⟩⟩
  · have hperm : ((∅ : ValidatorSet).insertMany out).toList.Perm out := by
      refine (List.perm_ext_iff_of_nodup (nodup_keys_toList _).of_map ?_).mpr fun e => ?_
      · exact hkeys.imp fun h he => h (by rw [he]; exact compare_eq_iff_eq.mpr rfl)
      · rw [← hget]
        exact Std.ExtTreeMap.mem_toList_iff_getElem?_eq_some
    rw [((hperm.trans hout).map Prod.snd).sum_eq, List.map_map]
    exact hf.sum
  · obtain ⟨s, hs, rfl⟩ := (hentry a q).mp hq
    exact hf.le_cap _ (Std.ExtTreeMap.mem_toList_iff_getElem?_eq_some.mpr hs)
  · obtain ⟨s', hs', rfl⟩ := (hentry a q).mp hq
    obtain ⟨t', ht', rfl⟩ := (hentry b r).mp hr
    obtain rfl := Option.some.inj (hs.symm.trans hs')
    obtain rfl := Option.some.inj (ht.symm.trans ht')
    exact hf.monotone _ (Std.ExtTreeMap.mem_toList_iff_getElem?_eq_some.mpr hs) _
      (Std.ExtTreeMap.mem_toList_iff_getElem?_eq_some.mpr ht) hlt

/-- **The assignment on stakes that do not overflow.** -/
theorem exists_fairPowers (hne : stakes ≠ ∅) (hfits : PoolFits totalVotingPower stakes.toList) :
    ∃ powers, assignVotingPower stakes = some powers ∧ FairPowers stakes powers ∧
      ∀ fuel, stakes.size < fuel →
        assignLoop (powerCap stakes.size) fuel totalVotingPower stakes.toList ∅ = some powers := by
  have hnil : stakes.toList ≠ [] := mt Std.ExtTreeMap.toList_eq_nil_iff.mp hne
  have hle := le_powerCap_mul stakes.toList.length (List.length_pos_iff.mpr hnil)
  rw [Std.ExtTreeMap.length_toList] at hle
  obtain ⟨f, hf, out, hout, hloop⟩ := exists_fair (powerCap_pos stakes.size) (nodup_keys_toList stakes) hnil
    hfits (by rwa [Std.ExtTreeMap.length_toList])
  rw [Std.ExtTreeMap.length_toList] at hloop
  refine ⟨_, ?_, hf.fairPowers hout, fun fuel hfuel => hloop fuel hfuel ∅⟩
  rw [assignVotingPower, if_neg (mt Std.ExtTreeMap.isEmpty_iff.mp hne)]
  exact hloop _ (Nat.lt_succ_self _) ∅

/-- Powers that were assigned to stakes are fair. -/
theorem fairPowers_of_assignVotingPower (hne : stakes ≠ ∅) {powers : ValidatorSet}
    (h : assignVotingPower stakes = some powers) : FairPowers stakes powers := by
  have hfits : PoolFits totalVotingPower stakes.toList := by
    have hfirst := h
    rw [assignVotingPower, if_neg (mt Std.ExtTreeMap.isEmpty_iff.mp hne), assignLoop] at hfirst
    obtain ⟨shares, hshares, -⟩ := Option.bind_eq_some_iff.mp hfirst
    exact (proportionalShares_eq_some.mp hshares).1
  obtain ⟨powers', h', hfair, -⟩ := exists_fairPowers hne hfits
  rwa [← Option.some.inj (h'.symm.trans h)]

/-- **Voting power**: for stakes whose total times the whole power fits, the assignment ends, allowed any
number of passes above the number of validators, and its powers are fair. -/
theorem assignVotingPower_fair (hne : stakes ≠ ∅)
    (hfits : (stakes.toList.map Prod.snd).sum * totalVotingPower ≤ u128Max) :
    ∃ powers, assignVotingPower stakes = some powers ∧ FairPowers stakes powers ∧
      ∀ fuel, stakes.size < fuel →
        assignLoop (powerCap stakes.size) fuel totalVotingPower stakes.toList ∅ = some powers := by
  refine exists_fairPowers hne ⟨(Nat.le_mul_of_pos_right _ (by decide)).trans hfits, fun e he => ?_⟩
  rw [Nat.mul_comm]
  exact (Nat.mul_le_mul_right _ (stake_le_sum he)).trans hfits

/-- Three validators, one without stake. -/
def threeStakes : TreeMap Address Nat :=
  Std.ExtTreeMap.ofList [(Address.mk "a", 2), (Address.mk "b", 5), (Address.mk "c", 0)]

theorem assignVotingPower_fair_three :
    ∃ powers, assignVotingPower threeStakes = some powers ∧ FairPowers threeStakes powers := by
  have hne : threeStakes ≠ ∅ := fun h => absurd (congrArg Std.ExtTreeMap.size h) (by decide +kernel)
  obtain ⟨powers, hpowers, hfair, -⟩ := assignVotingPower_fair hne (by decide +kernel)
  exact ⟨powers, hpowers, hfair⟩

end Arxium
