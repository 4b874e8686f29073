import Arxium.Finality.SignedVotes
import Arxium.Primitives.Validators
import Arxium.Lib.LockedVotes

/-!
# Finality/History — a validator's record and the history of a height

The votes that honest validators cast at one height, in the order they were cast, are a history of
`Lib/LockedVotes`.  Here the record a validator keeps is tied to it: what the record admits, the
rules allow (`FileOk.mayVote`), and a claim, a restart or a pruning keeps the two in step.

A vote counts as cast from the moment it is on record in memory, not from the moment it is signed.
The difference is a vote whose write to the file was reported as failed but is in the file: memory
does not hold it and it is not signed, but the next restart loads it, and from then on it is this
validator's lock like any other.
-/

namespace Arxium

namespace Finality

open LockedVotes

/-! ## Votes of a height -/

/-- A recorded entry as a vote at the height. -/
def voteOf (h : Height) (a : Address) (e : Entry Hash32) : Option (Vote Address Round Hash32) :=
  if e.height = h then
    match e.kind with
    | .prevote => some ⟨a, .prevote, e.round, e.hash⟩
    | .precommit => some ⟨a, .precommit, e.round, e.hash⟩
    | .timeout => none
  else none

/-- The kind a phase is recorded under. -/
def kindOf : Phase → Kind
  | .prevote => .prevote
  | .precommit => .precommit

/-- The entry of a vote. -/
def entryOf (h : Height) (w : Vote Address Round Hash32) : Entry Hash32 :=
  ⟨kindOf w.phase, h, w.round, w.value⟩

theorem voteOf_eq_some {h : Height} {a : Address} {e : Entry Hash32} {w : Vote Address Round Hash32} :
    voteOf h a e = some w ↔ w.voter = a ∧ entryOf h w = e := by
  obtain ⟨kind, height, round, hash⟩ := e
  obtain ⟨voter, phase, round', value⟩ := w
  by_cases hh : height = h
  · subst hh
    cases kind <;> cases phase <;> simp [voteOf, entryOf, kindOf, eq_comm]
  · have hh' : h ≠ height := fun he => hh he.symm
    simp [voteOf, entryOf, hh, hh']

theorem voteOf_prevote {h k : Height} {a : Address} {r : Round} {x : Hash32}
    {w : Vote Address Round Hash32} (hw : voteOf h a ⟨.prevote, k, r, x⟩ = some w) :
    k = h ∧ w = ⟨a, .prevote, r, x⟩ := by
  by_cases hk : k = h <;> simp_all [voteOf]

theorem voteOf_precommit {h k : Height} {a : Address} {r : Round} {x : Hash32}
    {w : Vote Address Round Hash32} (hw : voteOf h a ⟨.precommit, k, r, x⟩ = some w) :
    k = h ∧ w = ⟨a, .precommit, r, x⟩ := by
  by_cases hk : k = h <;> simp_all [voteOf]

/-! ## Quorums of a validator set -/

theorem signedPower_le_weight (set : ValidatorSet) (signers : List Address) {A : Set Address}
    (hA : ∀ a ∈ signers, a ∈ A) : signedPower set signers ≤ weight set.toList A := by
  classical
  -- the members that signed, each once
  let chosen := signers.dedup.filterMap fun a => set[a]?.map fun p => (a, p)
  have hpower : signedPower set signers = (chosen.map Prod.snd).sum := by
    rw [signedPower, List.map_filterMap]
    congr 2
    funext a
    cases set[a]? <;> rfl
  have hnodup : chosen.Nodup := by
    refine signers.nodup_dedup.filterMap ?_
    intro a b m ha hb
    simp only [Option.mem_def, Option.map_eq_some_iff] at ha hb
    obtain ⟨p, -, rfl⟩ := ha
    obtain ⟨q, -, hq⟩ := hb
    exact (congrArg Prod.fst hq).symm
  have hsub : chosen ⊆ set.toList.filter fun m => m.1 ∈ A := by
    intro m hm
    obtain ⟨a, ha, hset⟩ := List.mem_filterMap.mp hm
    obtain ⟨p, hp, rfl⟩ := Option.map_eq_some_iff.mp hset
    refine List.mem_filter.mpr ⟨?_, by simpa using hA a (List.mem_dedup.mp ha)⟩
    exact Std.ExtTreeMap.mem_toList_iff_getElem?_eq_some.mpr hp
  obtain ⟨l, hperm, hsublist⟩ := hnodup.subperm hsub
  have hle : (chosen.map Prod.snd).sum ≤ ((set.toList.filter fun m => m.1 ∈ A).map Prod.snd).sum := by
    rw [← (hperm.map Prod.snd).sum_eq]
    exact (hsublist.map Prod.snd).sum_le_sum fun _ _ => Nat.zero_le _
  have hweight : weight set.toList A = ((set.toList.filter fun m => m.1 ∈ A).map Prod.snd).sum := by
    induction set.toList with
    | nil => rfl
    | cons m l ih =>
      rw [weight_cons, ih, List.filter_cons]
      by_cases hm : m.1 ∈ A <;> simp [hm]
  omega
/-- All the power there is, and less than one third of it in dishonest hands. -/
structure FaultBound (set : ValidatorSet) (honest : Set Address) : Prop where
  total : (set.toList.map Prod.snd).sum = totalVotingPower
  byzantine : weight set.toList honestᶜ ≤ 3333

/-- The quorums of the set. -/
noncomputable def FaultBound.quorums {set : ValidatorSet} {honest : Set Address}
    (h : FaultBound set honest) : QuorumSystem Address :=
  weightedQuorums set.toList quorumPower honest (by
    rw [h.total]
    exact lt_of_le_of_lt (Nat.add_le_add_left h.byzantine _) (by decide))

theorem FaultBound.quorum_of_reached {set : ValidatorSet} {honest : Set Address}
    (h : FaultBound set honest) {signers : List Address} {A : Set Address}
    (hreached : quorumReached set signers = true) (hA : ∀ a ∈ signers, a ∈ A) :
    h.quorums.quorum A := by
  have hpower : quorumPower ≤ signedPower set signers := by simpa [quorumReached] using hreached
  exact hpower.trans (signedPower_le_weight set signers hA)

/-! ## Records and histories

The history `L` of the height holds every vote an honest validator has on record in memory, signed
or not.  A vote that only the file holds is not part of it yet, but could be cast: a restart casts
it. -/

section Backed

variable {setAt : Height → ValidatorSet} {honest : Set Address} {h : Height}
  (hb : FaultBound (setAt h) honest)

/-- The record of validator `a` and the history agree. -/
structure FileOk (L : List (Vote Address Round Hash32)) (a : Address) (f : VoteFile Hash32) : Prop where
  memory : ∀ e ∈ f.memory.entries, ∀ w, voteOf h a e = some w → w ∈ L
  remembered : ∀ w ∈ L, w.voter = a → h ≤ f.memory.floor ∨ entryOf h w ∈ f.memory.entries
  saved : ∀ w ∈ L, w.voter = a → h ≤ (f.disk.getD {}).floor ∨
    entryOf h w ∈ (f.disk.getD {}).entries
  /-- At most one vote in the file is not in the history. -/
  disk : ∃ stray : Option (Vote Address Round Hash32),
    (∀ w, stray = some w → w.voter = a ∧ Allowed hb.quorums L w ∧
      entryOf h w ∈ (f.disk.getD {}).entries) ∧
    ∀ e ∈ (f.disk.getD {}).entries, ∀ w, voteOf h a e = some w → w ∈ L ∨ stray = some w

/-- A history grown by votes of `a`. -/
structure Grows (a : Address) (L L' : List (Vote Address Round Hash32)) : Prop where
  subset : L ⊆ L'
  legal : Legal hb.quorums L'
  own : ∀ w ∈ L', w ∈ L ∨ w.voter = a

variable {hb} {L L' L'' : List (Vote Address Round Hash32)} {a b : Address} {f : VoteFile Hash32}

theorem Grows.refl (hlegal : Legal hb.quorums L) : Grows hb a L L :=
  ⟨fun _ hw => hw, hlegal, fun _ hw => .inl hw⟩

theorem Grows.trans (h₁ : Grows hb a L L') (h₂ : Grows hb a L' L'') : Grows hb a L L'' := by
  refine ⟨fun w hw => h₂.subset (h₁.subset hw), h₂.legal, fun w hw => ?_⟩
  rcases h₂.own w hw with hw' | hw'
  · exact h₁.own w hw'
  · exact .inr hw'

theorem Grows.cons {w : Vote Address Round Hash32} (hlegal : Legal hb.quorums L)
    (hw : Allowed hb.quorums L w) (hvoter : w.voter = a) : Grows hb a L (w :: L) := by
  refine ⟨fun u hu => List.mem_cons_of_mem w hu, .cons hlegal hw, fun u hu => ?_⟩
  rcases List.mem_cons.mp hu with rfl | hu
  · exact .inr hvoter
  · exact .inl hu

/-- What one validator may cast, no vote of another forbids. -/
theorem Grows.allowed (hg : Grows hb a L L') {w : Vote Address Round Hash32} (hw : w.voter ≠ a)
    (hallowed : Allowed hb.quorums L w) : Allowed hb.quorums L' w := by
  have hown : ∀ u ∈ L', u.voter = w.voter → u ∈ L := fun u hu hv =>
    (hg.own u hu).resolve_right fun he => hw (hv.symm.trans he)
  have hmay : ∀ {w' : Vote Address Round Hash32}, w'.voter = w.voter →
      MayVote hb.quorums L w' → MayVote hb.quorums L' w' := fun hv hm =>
    ⟨hm.honest, fun u hu huv => hm.unique u (hown u hu (huv.trans hv)) huv,
      fun u hu huv => hm.later u (hown u hu (huv.trans hv)) huv⟩
  cases hallowed with
  | prevote hvote hlock =>
    refine .prevote (hmay rfl hvote) ?_
    rcases hlock with hnone | ⟨lockRound, locked, hl⟩
    · exact .inl fun u hu hv => hnone u (hown u hu hv) hv
    · refine .inr ⟨lockRound, locked, fun u hu hv => hl.covers u (hown u hu hv) hv,
        hl.polka.mono hg.subset, ?_⟩
      rcases hl.yields with he | ⟨p, h₁, h₂, hp⟩
      · exact .inl he
      · exact .inr ⟨p, h₁, h₂, hp.mono hg.subset⟩
  | precommit hvote hpolka => exact .precommit (hmay rfl hvote) (hpolka.mono hg.subset)

/-- Votes of others leave a record as it is. -/
theorem FileOk.grows (hf : FileOk hb L b f) (hg : Grows hb a L L') (hab : b ≠ a) :
    FileOk hb L' b f := by
  have hown : ∀ w ∈ L', w.voter = b → w ∈ L := fun w hw hv =>
    (hg.own w hw).resolve_right fun he => hab (hv.symm.trans he)
  obtain ⟨stray, hstray, hdisk⟩ := hf.disk
  refine ⟨fun e he w hw => hg.subset (hf.memory e he w hw),
    fun w hw hv => hf.remembered w (hown w hw hv) hv,
    fun w hw hv => hf.saved w (hown w hw hv) hv, stray, fun w hw => ?_, fun e he w hw => ?_⟩
  · obtain ⟨hv, hallowed, hmem⟩ := hstray w hw
    exact ⟨hv, hg.allowed (fun he => hab (hv.symm.trans he)) hallowed, hmem⟩
  · exact (hdisk e he w hw).imp_left fun hmem => hg.subset hmem

/-- **A vote the record admits is one the validator may cast.** -/
theorem FileOk.mayVote (hf : FileOk hb L a f) (ha : a ∈ honest) {e : Entry Hash32}
    (hadmits : f.memory.Admits e) {w : Vote Address Round Hash32} (hw : voteOf h a e = some w) :
    MayVote hb.quorums L w := by
  obtain ⟨hvoter, rfl⟩ := voteOf_eq_some.mp hw
  have hmem : ∀ u ∈ L, u.voter = w.voter → entryOf h u ∈ f.memory.entries := fun u hu hv =>
    (hf.remembered u hu (hv.trans hvoter)).resolve_left (not_le.mpr hadmits.floor)
  refine ⟨hvoter ▸ ha, fun u hu hv hphase hround => ?_, fun u hu hv => ?_⟩
  · have hkind : (entryOf h u).kind = (entryOf h w).kind := congrArg kindOf hphase
    exact absurd hround (hadmits.fresh _ (hmem u hu hv) hkind rfl)
  · refine hadmits.entered ?_ _ (hmem u hu hv) rfl
    obtain ⟨_, phase, _, _⟩ := w
    cases phase <;> simp [entryOf, kindOf]

/-- **A prevote past the recorded lock is allowed.** -/
theorem FileOk.prevoteAllowed (hf : FileOk hb L a f) (hlegal : Legal hb.quorums L)
    (ha : a ∈ honest) {r : Round} {block : Hash32} {polRound : Option Round}
    (hadmits : f.memory.Admits ⟨.prevote, h, r, block⟩)
    (hlock : ∀ lockRound locked, f.memory.lock h = some (lockRound, locked) →
      locked = block ∨ ∃ pol, polRound = some pol ∧ lockRound ≤ pol ∧ pol ≤ r)
    (hpol : ∀ p, polRound = some p → Polka hb.quorums L p block) :
    Allowed hb.quorums L ⟨a, .prevote, r, block⟩ := by
  refine .prevote (hf.mayVote ha hadmits (voteOf_eq_some.mpr ⟨rfl, rfl⟩)) ?_
  have hmem : ∀ u ∈ L, u.voter = a → entryOf h u ∈ f.memory.entries := fun u hu hv =>
    (hf.remembered u hu hv).resolve_left (not_le.mpr hadmits.floor)
  have hkind : ∀ {u : Vote Address Round Hash32}, u.phase = .precommit →
      (entryOf h u).kind = .precommit := fun hphase => congrArg kindOf hphase
  cases hcase : f.memory.lock h with
  | none =>
    exact .inl fun u hu hv hphase =>
      SignedVotes.lock_eq_none hcase _ (hmem u hu hv) rfl (hkind hphase)
  | some l =>
    obtain ⟨lockRound, locked⟩ := l
    obtain ⟨hentry, hhighest⟩ := SignedVotes.lock_eq_some hcase
    have hvote : ⟨a, .precommit, lockRound, locked⟩ ∈ L :=
      hf.memory _ hentry _ (voteOf_eq_some.mpr ⟨rfl, rfl⟩)
    refine .inr ⟨lockRound, locked, fun u hu hv hphase => ⟨?_, fun hround => ?_⟩,
      hlegal.polka_of_precommit hvote, ?_⟩
    · exact hhighest _ (hmem u hu hv) rfl (hkind hphase)
    · exact hlegal.value_eq hu hvote hv hphase hround
    · rcases hlock lockRound locked hcase with he | ⟨p, hp, hle, hle'⟩
      · exact .inl he
      · exact .inr ⟨p, hle, hle', hpol p hp⟩

/-- **A claim for an allowed vote keeps record and history in step.** -/
theorem FileOk.claim (hf : FileOk hb L a f) (hlegal : Legal hb.quorums L) {e : Entry Hash32}
    {r : Except (Refusal Hash32) Unit × VoteFile Hash32} (hr : f.ClaimResult e r)
    (hallowed : f.memory.Admits e → ∀ w, voteOf h a e = some w → Allowed hb.quorums L w) :
    ∃ L', Grows hb a L L' ∧ FileOk hb L' a r.2 ∧
      (r.1 = .ok () → ∀ w, voteOf h a e = some w → w ∈ L') := by
  cases hr with
  | refused refusal => exact ⟨L, .refl hlegal, hf, fun hok => by cases hok⟩
  | again _ hmem => exact ⟨L, .refl hlegal, hf, fun _ w hw => hf.memory e hmem w hw⟩
  | recorded hadmits =>
    obtain ⟨L', hg, hnew, hold⟩ : ∃ L', Grows hb a L L' ∧
        (∀ w, voteOf h a e = some w → w ∈ L') ∧
        ∀ w ∈ L', w ∈ L ∨ voteOf h a e = some w := by
      cases hw : voteOf h a e with
      | none => exact ⟨L, .refl hlegal, by simp, fun w hw => .inl hw⟩
      | some w =>
        refine ⟨w :: L, .cons hlegal (hallowed hadmits w hw) (voteOf_eq_some.mp hw).1, ?_, ?_⟩
        · rintro _ ⟨⟩
          exact List.mem_cons_self
        · intro u hu
          rcases List.mem_cons.mp hu with rfl | hu
          · exact .inr rfl
          · exact .inl hu
    have hmemory : ∀ x ∈ (f.memory.push e).entries, ∀ w, voteOf h a x = some w → w ∈ L' := by
      intro x hx w hw
      rcases List.mem_append.mp hx with hx | hx
      · exact hg.subset (hf.memory x hx w hw)
      · obtain rfl := List.mem_singleton.mp hx
        exact hnew w hw
    have hremembered : ∀ w ∈ L', w.voter = a →
        h ≤ (f.memory.push e).floor ∨ entryOf h w ∈ (f.memory.push e).entries := by
      intro w hw hv
      rcases hold w hw with hw | hw
      · exact (hf.remembered w hw hv).imp_right fun hmem => List.mem_append_left _ hmem
      · rw [(voteOf_eq_some.mp hw).2]
        exact .inr (List.mem_append_right _ (List.mem_singleton_self e))
    exact ⟨L', hg, ⟨hmemory, hremembered, hremembered, none, by simp,
      fun x hx w hw => .inl (hmemory x hx w hw)⟩, fun _ => hnew⟩
  | stray hadmits refusal =>
    refine ⟨L, .refl hlegal, ⟨hf.memory, hf.remembered, ?_, voteOf h a e, ?_, ?_⟩,
      fun hok => by cases hok⟩
    · intro w hw hv
      exact (hf.remembered w hw hv).imp_right fun hmem => List.mem_append_left _ hmem
    · intro w hw
      obtain ⟨hvoter, he⟩ := voteOf_eq_some.mp hw
      refine ⟨hvoter, hallowed hadmits w hw, ?_⟩
      rw [he]
      exact List.mem_append_right _ (List.mem_singleton_self e)
    · intro x hx w hw
      rcases List.mem_append.mp hx with hx | hx
      · exact .inl (hf.memory x hx w hw)
      · obtain rfl := List.mem_singleton.mp hx
        exact .inr hw

/-- A restart casts the vote that only the file held. -/
theorem FileOk.load (hf : FileOk hb L a f) (hlegal : Legal hb.quorums L) :
    ∃ L', Grows hb a L L' ∧ FileOk hb L' a f.load := by
  obtain ⟨stray, hstray, hdisk⟩ := hf.disk
  cases stray with
  | none =>
    have hmemory : ∀ e ∈ (f.disk.getD {}).entries, ∀ w, voteOf h a e = some w → w ∈ L :=
      fun e he w hw => (hdisk e he w hw).resolve_right (by simp)
    exact ⟨L, .refl hlegal, hmemory, hf.saved, hf.saved, none, by simp,
      fun e he w hw => .inl (hmemory e he w hw)⟩
  | some u =>
    obtain ⟨hvoter, hallowed, hmem⟩ := hstray u rfl
    have hmemory : ∀ e ∈ (f.disk.getD {}).entries, ∀ w, voteOf h a e = some w → w ∈ u :: L := by
      intro e he w hw
      rcases hdisk e he w hw with hL | hu
      · exact List.mem_cons_of_mem u hL
      · exact Option.some.inj hu ▸ List.mem_cons_self
    have hsaved : ∀ w ∈ u :: L, w.voter = a →
        h ≤ (f.disk.getD {}).floor ∨ entryOf h w ∈ (f.disk.getD {}).entries := by
      intro w hw hv
      rcases List.mem_cons.mp hw with rfl | hw
      · exact .inr hmem
      · exact hf.saved w hw hv
    exact ⟨u :: L, .cons hlegal hallowed hvoter, hmemory, hsaved, hsaved, none, by simp,
      fun e he w hw => .inl (hmemory e he w hw)⟩

/-- Pruning forgets only what the floor refuses from then on. -/
theorem FileOk.pruneBelow (hf : FileOk hb L a f) (cutoff : Height) (p : Persist) :
    FileOk hb L a (f.pruneBelow cutoff p) := by
  unfold VoteFile.pruneBelow
  dsimp only
  split
  · exact hf
  rename_i hfloor
  generalize VoteFile.floorBelow cutoff = floor at hfloor ⊢
  have hmemory : ∀ e ∈ f.memory.entries.filter (floor < ·.height), ∀ w,
      voteOf h a e = some w → w ∈ L :=
    fun e he w hw => hf.memory e (List.mem_of_mem_filter he) w hw
  have hremembered : ∀ w ∈ L, w.voter = a →
      h ≤ floor ∨ entryOf h w ∈ f.memory.entries.filter (floor < ·.height) := by
    intro w hw hv
    rcases le_or_gt h floor with hle | hgt
    · exact .inl hle
    · have hmem := (hf.remembered w hw hv).resolve_left fun hle =>
        hfloor (hgt.le.trans hle)
      exact .inr (List.mem_filter.mpr ⟨hmem, decide_eq_true hgt⟩)
  rcases p with _ | landed
  · exact ⟨hmemory, hremembered, hremembered, none, by simp,
      fun e he w hw => .inl (hmemory e he w hw)⟩
  · cases landed
    · exact ⟨hmemory, hremembered, hf.saved, hf.disk⟩
    · exact ⟨hmemory, hremembered, hremembered, none, by simp,
        fun e he w hw => .inl (hmemory e he w hw)⟩

end Backed

end Finality

end Arxium
