import Arxium.Node.Run

/-!
# Node/Rounds — the round certificates a node keeps go on verifying

A certificate is checked against the set and the keys in force at its height and against the parent it
was voted on.  A block changes none of these for its own height or an earlier one, and neither does
taking it back (`SameLookups`).  So a certificate that verified when it was written verifies for as long
as the node keeps it, and a producer that puts one into its header puts in a valid one.
-/

namespace Arxium

open ReadProg Writes Crypto

/-- What a certificate of a height is checked against is the same in both states. -/
structure SameLookups (height : Nat) (s s' : ChainState) : Prop where
  genesis : s'.rows .genesisHash = s.rows .genesisHash
  parent : s'.blocks (height - 1) = s.blocks (height - 1)
  sets : ∀ k ≤ height, s'.rows (.validatorSet k) = s.rows (.validatorSet k)
  keys : ∀ a, ∀ k ≤ height, s'.blsHistory (a, k) = s.blsHistory (a, k)

theorem SameLookups.refl (height : Nat) (s : ChainState) : SameLookups height s s :=
  ⟨rfl, rfl, fun _ _ => rfl, fun _ _ _ => rfl⟩

theorem SameLookups.trans {height : Nat} {s s' s'' : ChainState} (h : SameLookups height s s')
    (h' : SameLookups height s' s'') : SameLookups height s s'' where
  genesis := h'.genesis.trans h.genesis
  parent := h'.parent.trans h.parent
  sets k hk := (h'.sets k hk).trans (h.sets k hk)
  keys a k hk := (h'.keys a k hk).trans (h.keys a k hk)

/-- The writes leave alone what is in force at or below a height. -/
structure Above (height : Nat) (rows : List RowWrite)
    (history : List (Writes.Write fun _ : Address × Nat => Bytes)) : Prop where
  genesis : ∀ w ∈ rows, w.key ≠ .genesisHash
  sets : ∀ w ∈ rows, ∀ k, w.key = .validatorSet k → height < k
  keys : ∀ w ∈ history, height < w.key.2

theorem Above.sameLookups {height n : Nat} {rows : List RowWrite}
    {history : List (Writes.Write fun _ : Address × Nat => Bytes)} (h : Above n rows history)
    (hpos : 0 < n) (hle : height ≤ n) {s s' : ChainState} (hrows : s'.rows = Writes.apply rows s.rows)
    (hhistory : s'.blsHistory = Writes.apply history s.blsHistory) {b : Option ChainBlock}
    (hblocks : s'.blocks = Function.update s.blocks n b) : SameLookups height s s' where
  genesis := by rw [hrows, apply_of_not_mem h.genesis]
  parent := by rw [hblocks, Function.update_of_ne (by omega)]
  sets k hk := by
    rw [hrows, apply_of_not_mem fun w hw he => absurd (h.sets w hw k he) (by omega)]
  keys a k hk := by
    have hne : ∀ w ∈ history, w.key ≠ (a, k) := by
      intro w hw he
      have hlt := h.keys w hw
      rw [he] at hlt
      exact absurd hlt (by omega)
    rw [hhistory, apply_of_not_mem hne]

/-- A record that takes back the block of its height. -/
def Undo.Takes (height : Nat) (u : Undo) : Prop := u.height = height ∧ Above height u.rows u.blsHistory

section Run

variable [Crypto]

omit [Crypto] in
/-- What a certificate is checked against decides how the check ends. -/
theorem signerKeys_congr {db db' : Db} {height : Nat} (h : SameLookups height db.state db'.state)
    (set : ValidatorSet) (round : Nat) (signers seen : List Address) :
    signerKeys db' set height round seen signers = signerKeys db set height round seen signers := by
  have hkey : ∀ a, db'.getBlsPubkeyAt a height = db.getBlsPubkeyAt a height := fun a =>
    newestAt_congr fun k hk => h.keys a k hk
  induction signers generalizing seen with
  | nil => rfl
  | cons signer rest ih =>
    simp only [signerKeys, hkey, ih]

variable [Wire ActionPayload]

theorem Db.Certifies.congr {db db' : Db} {c : RoundCertificate} (hc : db.Certifies c)
    (h : SameLookups c.height db.state db'.state) : db'.Certifies c := by
  obtain ⟨parent, hparent, hverify⟩ := hc
  have hset : db'.getValidatorSetAt c.height = db.getValidatorSetAt c.height := by
    unfold Db.getValidatorSetAt
    rw [newestAt_congr fun k hk => h.sets k hk]
  have hgenesis : db'.genesisHashBytes = db.genesisHashBytes := by
    rw [Db.genesisHashBytes, Db.genesisHashBytes, h.genesis]
  refine ⟨parent, h.parent.trans hparent, ?_⟩
  rw [← hverify, hset]
  simp only [verifyRoundCertificate, signerKeys_congr h, hgenesis]

/-- The rest of the database plays no part. -/
theorem Db.Certifies.of_state {db db' : Db} {c : RoundCertificate} (hc : db.Certifies c)
    (h : db'.state = db.state) : db'.Certifies c := hc.congr (h ▸ .refl ..)

variable [Zk] [StateTrie] [Decode] {env : NodeEnv} {params : ChainParams} {db db' : Db}
  {block : ChainBlock} {ex : Executed}

/-- **A block writes no set and no key for its own height or an earlier one.** -/
theorem Commits.above (h : Commits env params db block ex db') :
    Above block.height (acceptedBatch env db block ex).writes
      (historyWrites (acceptedBatch env db block ex).blsKeys) := by
  obtain ⟨genesis, proposer, hran⟩ := h.ran
  have hwrite : ∀ w ∈ (acceptedBatch env db block ex).writes, w.key.isIndexRow = true ∨
      ∃ cat ∈ w.key.writers, ∃ u ∈ ex.updates, w ∈ cat.writes block.height u := by
    intro w hw
    exact (hran.shaped.mem_commitWrites hw).imp_left fun hi =>
      isIndexRow_of_mem_assetIndexWrites _ _ hi
  refine ⟨fun w hw he => ?_, fun w hw k he => ?_, fun w hw => ?_⟩
  · rcases hwrite w hw with hi | ⟨cat, hcat, -⟩
    · rw [he] at hi
      cases hi
    · rw [he] at hcat
      cases hcat
  · rcases hwrite w hw with hi | ⟨cat, hcat, u, -, hmem⟩
    · rw [he] at hi
      cases hi
    · rw [he] at hcat
      obtain rfl := List.mem_singleton.mp hcat
      simp only [Category.writes, Option.mem_toList, Option.map_eq_some_iff] at hmem
      obtain ⟨set, -, rfl⟩ := hmem
      obtain rfl : block.height + 1 = k := Key.validatorSet.inj he
      exact Nat.lt_succ_self _
  · obtain ⟨r, hr, rfl⟩ := List.mem_map.mp hw
    exact hran.effectiveHeight hr

theorem Commits.sameLookups (h : Commits env params db block ex db') {height : Nat}
    (hle : height ≤ db.tipHeight + 1) : SameLookups height db.state db'.state := by
  have habove := h.above
  rw [h.height] at habove
  rw [h.written, Db.state_writeBlock]
  refine habove.sameLookups (by omega) hle (ChainState.rows_write ..) (ChainState.blsHistory_write ..)
    (b := some block) ?_
  rw [ChainState.blocks_write, acceptedBatch, h.height]

omit [Crypto] [Wire ActionPayload] [Zk] [StateTrie] [Decode] in
theorem above_prior {n : Nat} {rows : List RowWrite}
    {history : List (Writes.Write fun _ : Address × Nat => Bytes)} (h : Above n rows history)
    (s : Rows) (t : KeyHistory) : Above n (prior s rows) (prior t history) := by
  constructor
  · intro w hw
    obtain ⟨u, hu, rfl⟩ := List.mem_map.mp hw
    exact h.genesis u hu
  · intro w hw
    obtain ⟨u, hu, rfl⟩ := List.mem_map.mp hw
    exact h.sets u hu
  · intro w hw
    obtain ⟨u, hu, rfl⟩ := List.mem_map.mp hw
    exact h.keys u hu

omit [Crypto] [Wire ActionPayload] [Zk] [StateTrie] [Decode] in
theorem takes_undoOf {b : Batch} (h : Above b.block.height b.writes (historyWrites b.blsKeys))
    (s : ChainState) : (s.undoOf b).Takes b.block.height :=
  ⟨rfl, above_prior h s.rows s.blsHistory⟩

omit [Crypto] [Wire ActionPayload] [Zk] [StateTrie] [Decode] in
/-- Unwinding down to a height changes no lookup of the height after it. -/
theorem sameLookups_unwindTo {undo : Nat → Option Undo}
    (hundo : ∀ n u, undo n = some u → u.Takes n) {height count tip : Nat} {s s' : ChainState}
    (hcount : count ≤ tip) (hheight : height + count ≤ tip + 1)
    (h : UndoLog.unwindTo Undo.apply undo count tip s = some s') : SameLookups height s s' := by
  induction count generalizing tip s with
  | zero =>
    obtain rfl := Option.some.inj h
    exact .refl ..
  | succ count ih =>
    obtain ⟨u, hu, h⟩ := Option.bind_eq_some_iff.mp h
    obtain ⟨hn, habove⟩ := hundo tip u hu
    have hfirst : SameLookups height s (u.apply s) :=
      habove.sameLookups (by omega) (by omega) rfl rfl (by rw [← hn]; rfl)
    exact hfirst.trans (ih (by omega) (by omega) h)

/-- What a node's rounds rest on. -/
structure Db.RoundsOk (db : Db) : Prop where
  undo : ∀ n u, db.undo n = some u → u.Takes n
  certified : ∀ c ∈ db.certificates, db.Certifies c ∧ c.height ≤ db.tipHeight + 1

variable {s₀ : ChainState}

theorem Db.RoundsOk.commit (h : db.RoundsOk) (hc : Commits env params db block ex db') :
    db'.RoundsOk := by
  have hheight : (acceptedBatch env db block ex).block.height = block.height := by rw [acceptedBatch]
  refine ⟨fun n u hu => ?_, fun c hmem => ?_⟩
  · rw [hc.written, Db.undo_writeBlock] at hu
    by_cases hn : n = (acceptedBatch env db block ex).block.height
    · rw [hn, Function.update_self] at hu
      rw [← Option.some.inj hu, hn]
      exact takes_undoOf (hheight ▸ hc.above) db.state
    · rw [Function.update_of_ne hn] at hu
      exact h.undo n u hu
  · have htip : db'.tipHeight = db.tipHeight + 1 := by
      rw [hc.written, Db.tipHeight_writeBlock]
      exact hc.height
    have hmem' : c ∈ db.certificates := by
      rwa [hc.written, Db.certificates_writeBlock] at hmem
    obtain ⟨hcert, hle⟩ := h.certified c hmem'
    exact ⟨hcert.congr (hc.sameLookups hle), by omega⟩

theorem Db.RoundsOk.unwind (h : db.RoundsOk) (hchain : db.OnChain s₀) (hu : db.Unwinds db') :
    db'.RoundsOk := by
  have htip' := (hchain.unwind hu).tipHeight_eq
  rcases hu with rfl | ⟨height, hrevert⟩
  · exact h
  rcases Db.revertTo_eq_ok hrevert with rfl | ⟨htip, hfloor, s, hs, rfl⟩
  · exact h
  refine ⟨fun n u hu => ?_, fun c hmem => ?_⟩
  · simp only [Db.unwound] at hu
    split at hu
    · cases hu
    · exact h.undo n u hu
  · obtain ⟨hmem, hlt⟩ := List.mem_filter.mp hmem
    have hlt := of_decide_eq_true hlt
    obtain ⟨hcert, -⟩ := h.certified c hmem
    have hcount : db.watermark + (db.tipHeight - height) ≤ db.tipHeight := by omega
    obtain ⟨s', hs', hcovers⟩ := UndoLog.Covers.unwindTo hchain hcount
    obtain rfl : s' = s := Option.some.inj (hs'.symm.trans hs)
    refine ⟨hcert.congr (sameLookups_unwindTo h.undo (Nat.sub_le ..) (by omega) hs), ?_⟩
    rw [Db.tipHeight, Db.unwound, hcovers.holds.tip_eq, Option.getD_some]
    omega

theorem Db.RoundsOk.step (h : db.RoundsOk) (hchain : db.OnChain s₀) (hstep : db.Step db') :
    db'.RoundsOk := by
  cases hstep with
  | accept haccept =>
    obtain ⟨db₀, ex, hacc⟩ := acceptBlock_eq_ok.mp haccept
    exact (h.unwind hchain hacc.commits.1).commit hacc.commits.2
  | produce hproduce =>
    obtain ⟨parent, genesis, ex, hbuilt⟩ := built_of_produce hproduce
    exact h.commit hbuilt.commits
  | revert hrevert => exact h.unwind hchain (.inr ⟨_, hrevert⟩)
  | finality height hash =>
    exact ⟨h.undo, fun c hmem => (h.certified c hmem).imp_left fun hc => hc.of_state rfl⟩
  | locks locks =>
    exact ⟨h.undo, fun c hmem => (h.certified c hmem).imp_left fun hc => hc.of_state rfl⟩
  | @certificate c hc =>
    refine ⟨h.undo, fun c' hmem => ?_⟩
    rcases List.mem_cons.mp hmem with rfl | hmem
    · -- The parent is held, and no block above the tip is.
      refine ⟨hc.of_state rfl, Nat.le_of_not_lt fun hlt => ?_⟩
      change db.tipHeight + 1 < c'.height at hlt
      obtain ⟨parent, hparent, -⟩ := hc
      rw [hchain.holds.blocks_above (c'.height - 1) (by omega)] at hparent
      cases hparent
    · exact (h.certified c' hmem).imp_left fun hc => hc.of_state rfl

/-- **Every certificate a node keeps verifies.** -/
theorem Db.Reachable.roundsOk (h : db.Reachable) : db.RoundsOk := by
  induction h with
  | genesis hg =>
    refine ⟨fun n u hu => ?_, fun c hmem => ?_⟩
    · rw [hg.undo] at hu
      cases hu
    · rw [hg.certificates] at hmem
      cases hmem
  | step hr hstep ih =>
    obtain ⟨g, -, hchain⟩ := hr.chain
    exact ih.step hchain hstep

end Run

end Arxium
