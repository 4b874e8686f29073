import Arxium.Finality.Engine

/-!
# Finality/Rules — what an event can do to a node

    tally:  ignored ──▸ counted ──▸ stored ──▸ certified ──▸ (reverted)

Each function of the engine is a cascade of early exits.  The rules here go through a cascade once: a
property of nodes survives the function if it survives the few changes the function makes, under the
checks passed on the way to each.  Which votes a tally replaces is left open, only that nothing but the
vote is added.
-/

namespace Arxium

namespace Finality

variable {N : Network} {n : Node} {st : Storage} {I : Node → Prop}

/-! ## Reverts -/

theorem enforceCertificate_eq (st : Storage) (record : FinalityRecord) (n : Node) :
    enforceCertificate st record n = n ∨
      enforceCertificate st record n = { n with db := n.db.revertTo (below record.height) } := by
  unfold enforceCertificate
  split
  · exact .inl rfl
  · split
    · exact .inl rfl
    · exact .inr rfl

theorem unwindDeadTip_eq (st : Storage) (k : Height) (r : Round) (n : Node) :
    unwindDeadTip st k r n = n ∨ unwindDeadTip st k r n = { n with db := n.db.revertTo (below k) } := by
  unfold unwindDeadTip
  split
  · exact .inl rfl
  · split
    · exact .inl rfl
    · exact .inr rfl

/-- The block to vote on is the held one, and a lock's block if there is a lock. -/
theorem heldBlock_eq (st : Storage) (h : Height) (pol : Option PolRecord) (n : Node) :
    (∃ block, heldBlock st h pol n = (n, block) ∧ ∀ b, block = some b →
      n.db.blocks h = some b ∧ ∀ p, pol = some p → p.block = b.hash) ∨
    heldBlock st h pol n = ({ n with db := n.db.revertTo (below h) }, none) := by
  unfold heldBlock
  split
  · rename_i p held hheld
    split
    · rename_i hhash
      refine .inl ⟨_, rfl, fun b hb => ?_⟩
      obtain rfl := Option.some.inj hb
      exact ⟨hheld, fun q hq => Option.some.inj hq ▸ hhash.symm⟩
    · split
      · exact .inr rfl
      · exact .inl ⟨none, rfl, nofun⟩
  · rename_i hnone
    exact .inl ⟨_, rfl, fun b hb => ⟨hb, fun p hp => absurd hb (hnone p b hp)⟩⟩

/-! ## Tallies -/

theorem upsert_subset {α : Type} (same : α → α → Bool) (a : α) (l : List α) :
    upsert same a l ⊆ a :: l := fun _ h => List.mem_cons.mpr (mem_upsert h)

/-- What holds of the vote and of the tally before holds of the tally after. -/
theorem forall_of_subset {α : Type} {p : α → Prop} {a : α} {l l' : List α} (hl : ∀ x ∈ l, p x)
    (ha : p a) (hsub : l' ⊆ a :: l) : ∀ x ∈ l', p x := fun x hx =>
  List.forall_mem_cons.mpr ⟨ha, hl⟩ x (hsub hx)

variable [Crypto]

/-- A prevote is counted, and may make a lock. -/
theorem tallyPrevote_rule {vote : PrevoteVote} (hn : I n)
    (h : authentic N vote.height vote.voter vote.message vote.signature = true →
      ∀ votes ⊆ vote :: n.prevotes, I { n with prevotes := votes } ∧
      ∀ signers agg, (∀ s ∈ signers, ∃ w ∈ votes, w.voter = s.1 ∧ w.message = vote.message) →
        quorumReached (N.setAt vote.height) (signers.map Prod.fst) = true →
        aggregateOf N vote.height vote.message signers = some agg →
        ∀ pols ⊆ ⟨vote.height, vote.round, vote.block, signers.map Prod.fst, agg⟩ :: n.db.pols,
          I { n with prevotes := votes, db := { n.db with pols := pols } }) :
    I (tallyPrevote N st vote n) := by
  unfold tallyPrevote
  dsimp only
  split
  · exact hn
  split
  · exact hn
  rename_i hauth
  obtain ⟨hcounted, hlocked⟩ := h (by simpa using hauth) _ (upsert_subset PrevoteVote.sameEntry _ _)
  split
  · exact hcounted
  rename_i hquorum
  split
  · exact hcounted
  split
  · exact hcounted
  rename_i agg hagg
  split
  · exact hcounted
  refine hlocked _ agg (fun s hs => ?_) (by simpa using hquorum) hagg _ (upsert_subset _ _ _)
  obtain ⟨w, hw, rfl⟩ := List.mem_map.mp hs
  obtain ⟨hmem, hcond⟩ := List.mem_filter.mp hw
  obtain ⟨hheight, hround, hblock⟩ :
      w.height = vote.height ∧ w.round = vote.round ∧ w.block = vote.block := by simpa using hcond
  exact ⟨w, hmem, rfl, by rw [PrevoteVote.message, hheight, hround, hblock]; rfl⟩

/-- A precommit is counted, stored, and may make a finality record. -/
theorem tallyVote_rule {vote : PrecommitVote} (hn : I n)
    (hrevert : ∀ n, I n → I { n with db := n.db.revertTo (below vote.height) })
    (h : authentic N vote.height vote.voter vote.message vote.signature = true →
      ∀ votes ⊆ vote :: n.precommits, I { n with precommits := votes } ∧
      ∀ stored ⊆ vote :: n.db.precommitVotes,
        I { n with precommits := votes, db := { n.db with precommitVotes := stored } } ∧
        ∀ signers agg, (∀ s ∈ signers, ∃ w ∈ votes, w.voter = s.1 ∧ w.message = vote.message) →
          quorumReached (N.setAt vote.height) (signers.map Prod.fst) = true →
          aggregateOf N vote.height vote.message signers = some agg →
          I (writeFinality ⟨vote.height, vote.round, vote.block, signers.map Prod.fst, agg, vote.ep⟩
            { n with precommits := votes, db := { n.db with precommitVotes := stored } })) :
    I (tallyVote N st vote n) := by
  unfold tallyVote
  dsimp only
  split
  · exact hn
  split
  · exact hn
  rename_i hauth
  obtain ⟨hcounted, h⟩ := h (by simpa using hauth) _ (upsert_subset PrecommitVote.sameEntry _ _)
  obtain ⟨hstored, hfinal⟩ := h _ (upsert_subset PrecommitVote.sameRow _ _)
  split
  · exact hcounted
  split
  · exact hstored
  rename_i hquorum
  split
  · exact hstored
  rename_i agg hagg
  split
  · exact hstored
  have henforced : ∀ signers agg n, I n → I (enforceCertificate st
      ⟨vote.height, vote.round, vote.block, signers, agg, vote.ep⟩ n) := fun _ _ n hn =>
    (enforceCertificate_eq st _ n).elim (congrArg I · |>.mpr hn) (congrArg I · |>.mpr (hrevert n hn))
  refine henforced _ _ _ (hfinal _ agg (fun s hs => ?_) (by simpa using hquorum) hagg)
  obtain ⟨w, hw, rfl⟩ := List.mem_map.mp hs
  obtain ⟨hmem, hcond⟩ := List.mem_filter.mp hw
  obtain ⟨hheight, hround, hblock, hep⟩ : w.height = vote.height ∧ w.round = vote.round ∧
      w.block = vote.block ∧ w.ep = vote.ep := by simpa using hcond
  exact ⟨w, hmem, rfl, by rw [PrecommitVote.message, hheight, hround, hblock, hep]; rfl⟩

/-- A round timeout is counted, stored, and may make a round certificate. -/
theorem tallyRoundTimeout_rule {vote : RoundTimeoutVote} (hn : I n)
    (hrevert : ∀ n, I n → I { n with db := n.db.revertTo (below vote.height) })
    (h : ∀ parent, authentic N vote.height vote.voter (.timeout vote.height vote.round parent)
        vote.signature = true →
      ∀ votes ⊆ vote :: n.timeouts, I { n with timeouts := votes } ∧
      ∀ stored ⊆ vote :: n.db.timeoutVotes,
        I { n with timeouts := votes, db := { n.db with timeoutVotes := stored } } ∧
        ∀ signers agg, (∀ s ∈ signers, ∃ w ∈ vote :: n.timeouts, w.voter = s.1 ∧
            w.height = vote.height ∧ w.round = vote.round) →
          quorumReached (N.setAt vote.height) (signers.map Prod.fst) = true →
          aggregateOf N vote.height (.timeout vote.height vote.round parent) signers = some agg →
          I { n with timeouts := votes, db := { n.db with
            timeoutVotes := stored
            certificates :=
              ⟨vote.height, vote.round, signers.map Prod.fst, agg⟩ :: n.db.certificates } }) :
    I (tallyRoundTimeout N st vote n) := by
  unfold tallyRoundTimeout
  dsimp only
  split
  · exact hn
  split
  · exact hn
  rename_i parent _
  split
  · exact hn
  rename_i hauth
  have h := h parent.hash (by simpa using hauth)
  generalize hsame : (fun v w : RoundTimeoutVote =>
    (decide (v.height = w.height ∧ v.round = w.round ∧ v.voter = w.voter))) = same
  have hvotes := upsert_subset same vote n.timeouts
  have hrows := upsert_subset same vote n.db.timeoutVotes
  split
  · exact (h _ hvotes).1
  have hstored := ((h _ hvotes).2 _ hrows).1
  split
  · exact hstored
  rename_i hquorum
  split
  · exact hstored
  rename_i agg hagg
  split
  · exact hstored
  have hunwound : ∀ n, I n → I (unwindDeadTip st vote.height vote.round n) := fun n hn =>
    (unwindDeadTip_eq st vote.height vote.round n).elim (congrArg I · |>.mpr hn)
      (congrArg I · |>.mpr (hrevert n hn))
  refine hunwound _ (((h _ fun w hw => hvotes (List.mem_of_mem_filter hw)).2 _ hrows).2 _ agg
    (fun s hs => ?_) (by simpa using hquorum) hagg)
  obtain ⟨w, hw, rfl⟩ := List.mem_map.mp hs
  obtain ⟨hmem, hcond⟩ := List.mem_filter.mp hw
  exact ⟨w, hvotes hmem, rfl, by simpa using hcond⟩

/-! ## A step -/

/-- **What a step does**: it keeps a held block's certificate, reverts, precommits the block of a lock,
prevotes, and times out, in this order.  What it signs is collected, newest first. -/
theorem tryStep_rule {i : StepInputs} {J K : Node × List Message → Prop} {h : Height}
    (hh : n.db.watermark + 1 = h) (hstart : J (n, []))
    (hkeep : ∀ held c, n.db.blocks h = some held → held.certificate = some c →
      J ({ n with db := { n.db with certificates := c :: n.db.certificates } }, []))
    (hrevert : ∀ n, J (n, []) → J ({ n with db := n.db.revertTo (below h) }, []))
    (hprecommit : ∀ n' pol block, J (n', []) → pol ∈ n.db.pols → pol.height = h →
      n.db.blocks h = some block → pol.block = block.hash → J (precommit N i h pol.round block n'))
    (hprevote : ∀ n' ms r block polRound, J (n', ms) →
      (∀ r', polRound = some r' → ∃ pol ∈ n.db.pols, pol.height = h ∧ pol.round = r' ∧
        pol.block = block) →
      J ((prevote N i h r block polRound n').1, (prevote N i h r block polRound n').2 ++ ms))
    (htimeout : ∀ n' ms r parent, J (n', ms) →
      K ((timeout N i h r parent n').1, (timeout N i h r parent n').2 ++ ms))
    (hdone : ∀ p, J p → K p) : K (tryStep N i n) := by
  unfold tryStep
  dsimp only
  rw [hh]
  split
  · exact hdone _ hstart
  split
  · exact hdone _ hstart
  rename_i parent _
  have hkept : J ((keepCertificate h n).1, []) ∧ (keepCertificate h n).1.db.blocks = n.db.blocks ∧
      (keepCertificate h n).1.db.pols = n.db.pols := by
    unfold keepCertificate
    dsimp only
    split
    · rename_i held hheld
      split
      · rename_i certificate hcert
        split
        · exact ⟨hkeep held certificate hheld hcert, rfl, rfl⟩
        · exact ⟨hstart, rfl, rfl⟩
      · exact ⟨hstart, rfl, rfl⟩
    · exact ⟨hstart, rfl, rfl⟩
  generalize keepCertificate h n = kept at hkept ⊢
  obtain ⟨hkept, hblocks, hpols⟩ := hkept
  have hpol : ∀ p, kept.1.db.highestPol h = some p → p ∈ n.db.pols ∧ p.height = h := by
    intro p hp
    obtain ⟨hmem, hheight⟩ := List.mem_filter.mp (List.argmax_mem hp)
    exact ⟨hpols ▸ hmem, by simpa using hheight⟩
  generalize kept.1.db.highestPol h = pol at hpol ⊢
  have hvoted : J (voteOn N i h kept.2 pol (heldBlock i.storage h pol kept.1).2
      (heldBlock i.storage h pol kept.1).1) := by
    rcases heldBlock_eq i.storage h pol kept.1 with ⟨block, heq, hblock⟩ | heq
    swap
    · rw [heq]
      exact hrevert _ hkept
    rw [heq]
    cases block with
    | none => exact hkept
    | some block =>
      obtain ⟨hheld, hlock⟩ := hblock block rfl
      unfold voteOn
      cases pol with
      | none =>
        dsimp only
        split
        · exact hprevote _ _ _ _ _ hkept nofun
        · exact hkept
      | some pol =>
        obtain ⟨hmem, hheight⟩ := hpol pol rfl
        have hcommitted := hprecommit _ pol block hkept hmem hheight (hblocks ▸ hheld) (hlock pol rfl)
        dsimp only
        rw [if_pos (hlock pol rfl), if_pos (.inl rfl)]
        refine hprevote _ _ _ _ _ hcommitted fun r' hr' => ?_
        exact ⟨pol, hmem, hheight, Option.some.inj hr', hlock pol rfl⟩
  split
  · exact htimeout _ _ _ _ hvoted
  · exact hdone _ hvoted

end Finality

end Arxium
