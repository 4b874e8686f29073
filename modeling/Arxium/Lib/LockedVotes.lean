import Mathlib

/-!
# Lib/LockedVotes — two-phase voting with locks decides one value

Voters prevote and precommit values in rounds.  A value is *locked* at a round by a quorum of
prevotes (`Polka`) and *decided* by a quorum of precommits.  An honest voter precommits only what is
locked at that round, never votes in a round below one it voted in, and once it precommitted it
prevotes another value only for a lock at or after its own (`MayPrevote`, `MayPrecommit`).

Time is the list of honest votes, the newest first; what a vote may rest on is what stands behind
it.  The induction is over that list and not over rounds: a quorum at a round is excluded because
every honest voter it needs voted when no such quorum existed yet.

* `Legal.polka_eq_of_decided` — after a decision no other value is locked at its round or later.
* `Legal.agreement` — two decisions have one value.
-/

namespace LockedVotes

variable {V R H : Type}

/-! ## Quorums -/

/-- Which sets of voters are enough, and which voters follow the rules. -/
structure QuorumSystem (V : Type) where
  quorum : Set V → Prop
  honest : Set V
  mono : ∀ {A B : Set V}, A ⊆ B → quorum A → quorum B
  /-- Two quorums share an honest voter. -/
  inter : ∀ {A B : Set V}, quorum A → quorum B → ∃ v ∈ honest, v ∈ A ∧ v ∈ B

section Weighted

open scoped Classical in
/-- The weight of a set, in a list of weighted voters. -/
noncomputable def weight (members : List (V × ℕ)) (A : Set V) : ℕ :=
  (members.map fun m => if m.1 ∈ A then m.2 else 0).sum

variable {members : List (V × ℕ)} {A B : Set V}

theorem weight_cons (m : V × ℕ) (members : List (V × ℕ)) (A : Set V) [Decidable (m.1 ∈ A)] :
    weight (m :: members) A = (if m.1 ∈ A then m.2 else 0) + weight members A := by
  simp only [weight, List.map_cons, List.sum_cons]
  congr

theorem weight_mono (h : A ⊆ B) : weight members A ≤ weight members B := by
  classical
  induction members with
  | nil => exact le_refl _
  | cons m members ih =>
    rw [weight_cons, weight_cons]
    by_cases hA : m.1 ∈ A
    · rw [if_pos hA, if_pos (h hA)]
      omega
    · rw [if_neg hA]
      omega

/-- Two sets and those who are in neither or not honest leave the rest to be honest in both. -/
theorem weight_add_le (members : List (V × ℕ)) (A B honest : Set V) :
    weight members A + weight members B ≤
      (members.map Prod.snd).sum + weight members honestᶜ + weight members (honest ∩ (A ∩ B)) := by
  classical
  induction members with
  | nil => exact le_refl _
  | cons m members ih =>
    simp only [weight_cons, List.map_cons, List.sum_cons, Set.mem_inter_iff, Set.mem_compl_iff]
    by_cases hA : m.1 ∈ A <;> by_cases hB : m.1 ∈ B <;> by_cases hh : m.1 ∈ honest <;>
      simp only [hA, hB, hh, and_true, and_false, not_true_eq_false, not_false_eq_true, if_true,
        if_false] <;> omega

theorem exists_mem_of_weight_pos (h : 0 < weight members A) : ∃ v, v ∈ A := by
  classical
  by_contra hnone
  have hzero : weight members A = 0 := by
    induction members with
    | nil => rfl
    | cons m members ih =>
      rw [weight_cons, if_neg fun hm => hnone ⟨m.1, hm⟩, Nat.zero_add]
      by_contra hne
      exact hne (ih (Nat.pos_of_ne_zero hne))
  omega

/-- **Weighted quorums**: with less than twice the threshold minus the total in dishonest hands, two
quorums share an honest voter. -/
noncomputable def weightedQuorums (members : List (V × ℕ)) (threshold : ℕ) (honest : Set V)
    (h : (members.map Prod.snd).sum + weight members honestᶜ < 2 * threshold) :
    QuorumSystem V where
  quorum A := threshold ≤ weight members A
  honest := honest
  mono hAB hA := hA.trans (weight_mono hAB)
  inter {A B} hA hB := by
    have hadd := weight_add_le members A B honest
    have hpos : 0 < weight members (honest ∩ (A ∩ B)) := by omega
    obtain ⟨v, hv, hvA, hvB⟩ := exists_mem_of_weight_pos hpos
    exact ⟨v, hv, hvA, hvB⟩

end Weighted

/-! ## Votes -/

inductive Phase
  | prevote
  | precommit
deriving DecidableEq, Repr

/-- One vote of an honest voter. -/
structure Vote (V R H : Type) where
  voter : V
  phase : Phase
  round : R
  value : H
deriving DecidableEq

variable (S : QuorumSystem V)

/-- Who may be seen to have cast a vote: those who did, and whoever does not follow the rules. -/
def support (L : List (Vote V R H)) (phase : Phase) (r : R) (x : H) : Set V :=
  {v | v ∈ S.honest → ⟨v, phase, r, x⟩ ∈ L}

theorem support_mono {L L' : List (Vote V R H)} (h : L ⊆ L') (phase : Phase) (r : R) (x : H) :
    support S L phase r x ⊆ support S L' phase r x := fun _ hv hh => h (hv hh)

/-- The value is locked at the round. -/
def Polka (L : List (Vote V R H)) (r : R) (x : H) : Prop := S.quorum (support S L .prevote r x)

/-- The value is decided at the round. -/
def Decided (L : List (Vote V R H)) (r : R) (x : H) : Prop :=
  S.quorum (support S L .precommit r x)

variable {S}

theorem Polka.mono {L L' : List (Vote V R H)} {r : R} {x : H} (h : Polka S L r x)
    (hL : L ⊆ L') : Polka S L' r x := S.mono (support_mono S hL _ r x) h

theorem Decided.mono {L L' : List (Vote V R H)} {r : R} {x : H} (h : Decided S L r x)
    (hL : L ⊆ L') : Decided S L' r x := S.mono (support_mono S hL _ r x) h

/-! ## The rules -/

variable [LinearOrder R]

variable (S)

/-- The voter has not voted past the round, and has cast no other vote of the phase in it. -/
structure MayVote (L : List (Vote V R H)) (w : Vote V R H) : Prop where
  honest : w.voter ∈ S.honest
  unique : ∀ u ∈ L, u.voter = w.voter → u.phase = w.phase → u.round = w.round → u.value = w.value
  later : ∀ u ∈ L, u.voter = w.voter → u.round ≤ w.round

/-- A lock that covers every precommit of the voter, and is not in the way of `x` at `r`. -/
structure Unlocked (L : List (Vote V R H)) (v : V) (r : R) (x : H) (lockRound : R) (locked : H) :
    Prop where
  covers : ∀ u ∈ L, u.voter = v → u.phase = .precommit →
    u.round ≤ lockRound ∧ (u.round = lockRound → u.value = locked)
  polka : Polka S L lockRound locked
  yields : locked = x ∨ ∃ p, lockRound ≤ p ∧ p ≤ r ∧ Polka S L p x

/-- What an honest voter checks before it votes. -/
inductive Allowed (L : List (Vote V R H)) : Vote V R H → Prop
  | prevote {v : V} {r : R} {x : H} (hvote : MayVote S L ⟨v, .prevote, r, x⟩)
      (hlock : (∀ u ∈ L, u.voter = v → u.phase ≠ .precommit) ∨
        ∃ lockRound locked, Unlocked S L v r x lockRound locked) : Allowed L ⟨v, .prevote, r, x⟩
  | precommit {v : V} {r : R} {x : H} (hvote : MayVote S L ⟨v, .precommit, r, x⟩)
      (hpolka : Polka S L r x) : Allowed L ⟨v, .precommit, r, x⟩

/-- A history in which every vote was allowed when it was cast. -/
inductive Legal : List (Vote V R H) → Prop
  | nil : Legal []
  | cons {w : Vote V R H} {L : List (Vote V R H)} (hlegal : Legal L) (hallowed : Allowed S L w) :
      Legal (w :: L)

variable {S} {L : List (Vote V R H)} {r r' : R} {x y : H}

theorem Allowed.mayVote {w : Vote V R H} (h : Allowed S L w) : MayVote S L w := by
  cases h with
  | prevote hvote _ => exact hvote
  | precommit hvote _ => exact hvote

theorem Legal.of_suffix (h : Legal S L) {past : List (Vote V R H)} (hsuffix : past <:+ L) :
    Legal S past := by
  induction h with
  | nil => exact List.suffix_nil.mp hsuffix ▸ .nil
  | @cons w L hlegal hallowed ih =>
    rcases List.suffix_cons_iff.mp hsuffix with rfl | hsuffix'
    · exact .cons hlegal hallowed
    · exact ih hsuffix'

/-- **Each vote was allowed by the history behind it.** -/
theorem Legal.exists_allowed (h : Legal S L) {w : Vote V R H} (hw : w ∈ L) :
    ∃ past, Legal S past ∧ Allowed S past w ∧ (w :: past) <:+ L := by
  induction h with
  | nil => exact absurd hw List.not_mem_nil
  | @cons u L hlegal hallowed ih =>
    rcases List.mem_cons.mp hw with rfl | hmem
    · exact ⟨L, hlegal, hallowed, List.suffix_refl _⟩
    · obtain ⟨past, hpast, hall, hsuffix⟩ := ih hmem
      exact ⟨past, hpast, hall, hsuffix.trans (List.suffix_cons u L)⟩

/-- One vote per voter, phase and round. -/
theorem Legal.value_eq (h : Legal S L) {u w : Vote V R H} (hu : u ∈ L) (hw : w ∈ L)
    (hvoter : u.voter = w.voter) (hphase : u.phase = w.phase) (hround : u.round = w.round) :
    u.value = w.value := by
  induction h with
  | nil => exact absurd hu List.not_mem_nil
  | @cons a L hlegal hallowed ih =>
    have hunique := hallowed.mayVote.unique
    rcases List.mem_cons.mp hu with rfl | hu'
    · rcases List.mem_cons.mp hw with rfl | hw'
      · rfl
      · exact (hunique w hw' hvoter.symm hphase.symm hround.symm).symm
    · rcases List.mem_cons.mp hw with rfl | hw'
      · exact hunique u hu' hvoter hphase hround
      · exact ih hu' hw'

/-- A voter's lower-round vote is behind its higher-round ones. -/
theorem Legal.mem_past (h : Legal S L) {past : List (Vote V R H)} {u w : Vote V R H}
    (hsuffix : (w :: past) <:+ L) (hu : u ∈ L) (hvoter : u.voter = w.voter)
    (hround : u.round < w.round) : u ∈ past := by
  induction h with
  | nil => exact absurd hu List.not_mem_nil
  | @cons a L hlegal hallowed ih =>
    rcases List.suffix_cons_iff.mp hsuffix with heq | hsuffix'
    · obtain ⟨rfl, rfl⟩ := List.cons.inj heq
      rcases List.mem_cons.mp hu with rfl | hu'
      · exact absurd hround (lt_irrefl _)
      · exact hu'
    · rcases List.mem_cons.mp hu with rfl | hu'
      · -- `u` came last, when `w` with its higher round was cast already
        have hw : w ∈ L := hsuffix'.subset List.mem_cons_self
        exact absurd (hallowed.mayVote.later w hw hvoter.symm) (not_le.mpr hround)
      · exact ih hsuffix' hu'

/-! ## Agreement -/

/-- One value is locked per round. -/
theorem Legal.polka_unique (h : Legal S L) (hx : Polka S L r x) (hy : Polka S L r y) :
    x = y := by
  obtain ⟨v, hv, hvx, hvy⟩ := S.inter hx hy
  exact h.value_eq (hvx hv) (hvy hv) rfl rfl rfl

/-- **Above a decision no other value gets locked**, at any time `past` of the history. -/
theorem Legal.polka_eq_of_decided (h : Legal S L) (hdecided : Decided S L r x)
    {past : List (Vote V R H)} (hsuffix : past <:+ L) (hround : r < r')
    (hpolka : Polka S past r' y) : y = x := by
  induction hn : past.length using Nat.strong_induction_on generalizing past r' y with
  | _ n ih =>
    by_contra hne
    obtain ⟨v, hv, hvote, hcommit⟩ := S.inter hpolka hdecided
    -- what stood behind this voter's prevote for the other value
    obtain ⟨before, hbefore, hallowed, hpast⟩ := (h.of_suffix hsuffix).exists_allowed (hvote hv)
    have hlen : before.length < n := by
      have := hpast.length_le
      rw [List.length_cons] at this
      omega
    have hL : (⟨v, .prevote, r', y⟩ :: before) <:+ L := hpast.trans hsuffix
    have hbeforeL : before <:+ L := (List.suffix_cons _ _).trans hL
    have hlower : ∀ {q z}, r < q → Polka S before q z → z = x :=
      fun hq hz => ih before.length hlen hbeforeL hq hz rfl
    have hprecommit := h.mem_past hL (hcommit hv) rfl hround
    obtain ⟨-, hlock⟩ : MayVote S before ⟨v, .prevote, r', y⟩ ∧
        ((∀ u ∈ before, u.voter = v → u.phase ≠ .precommit) ∨
          ∃ lockRound locked, Unlocked S before v r' y lockRound locked) := by
      cases hallowed with
      | prevote hvote hlock => exact ⟨hvote, hlock⟩
    rcases hlock with hnone | ⟨lockRound, locked, hlock⟩
    · exact hnone _ hprecommit rfl rfl
    -- the lock is on the decided value, since it is at the decision's round or above it
    obtain ⟨hle, hat⟩ := hlock.covers _ hprecommit rfl rfl
    have hlocked : locked = x := by
      rcases lt_or_eq_of_le hle with hlt | heq
      · exact hlower hlt hlock.polka
      · exact (hat heq).symm
    rcases hlock.yields with hsame | ⟨p, hlp, hpr, hp⟩
    · exact hne (hsame.symm.trans hlocked)
    · rcases lt_or_eq_of_le (hle.trans hlp) with hlt | heq
      · exact hne (hlower hlt hp)
      · -- a lock of both values at the decision's own round
        obtain rfl : lockRound = p := le_antisymm hlp (heq ▸ hle)
        exact hne ((hbefore.polka_unique hp hlock.polka).trans hlocked)

/-- A precommit rests on a lock, -/
theorem Legal.polka_of_precommit (h : Legal S L) {v : V} (hvote : ⟨v, .precommit, r, x⟩ ∈ L) :
    Polka S L r x := by
  obtain ⟨before, -, hallowed, hsuffix⟩ := h.exists_allowed hvote
  cases hallowed with
  | precommit _ hpolka =>
    exact hpolka.mono fun u hu => hsuffix.subset (List.mem_cons_of_mem _ hu)

/-- so a decision does. -/
theorem Legal.polka_of_decided (h : Legal S L) (hdecided : Decided S L r x) : Polka S L r x := by
  obtain ⟨v, hv, hvote, -⟩ := S.inter hdecided hdecided
  exact h.polka_of_precommit (hvote hv)

/-- **Two decisions have one value.** -/
theorem Legal.agreement (h : Legal S L) (hx : Decided S L r x) (hy : Decided S L r' y) :
    x = y := by
  rcases lt_trichotomy r r' with hlt | rfl | hlt
  · exact (h.polka_eq_of_decided hx (List.suffix_refl L) hlt (h.polka_of_decided hy)).symm
  · exact h.polka_unique (h.polka_of_decided hx) (h.polka_of_decided hy)
  · exact h.polka_eq_of_decided hy (List.suffix_refl L) hlt (h.polka_of_decided hx)

end LockedVotes
