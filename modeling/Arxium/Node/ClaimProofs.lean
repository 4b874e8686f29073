import Arxium.Node.Locks
import Arxium.Node.Nonces
import Arxium.Lib.Latest

/-!
# Node/ClaimProofs — a claim proof dies with its attestation

A holder's state remembers the height of its last accepted claim proof, and its account the height of its
last attestation; neither remembers an order inside a block.  What the two say about a history is its last
proof (`AppliedRun.proven`) and its last grant or revocation (`AppliedRun.attested`), and a proof lives
only if the attestation is strictly older.
-/

namespace Arxium

open ReadProg Writes Latest

/-! ## Proofs in the holders' states -/

/-- **No proof is made up**: whoever is marked keeps the proof they have, or loses it. -/
def HolderStateUpdates.KeepProofs (rows : Rows) (states : HolderStateUpdates) : Prop :=
  ∀ p ∈ states, p.2.claimVerifiedAt = none ∨
    p.2.claimVerifiedAt = (rows.holderState p.1.1 p.1.2).claimVerifiedAt

theorem HolderState.claimVerifiedAt_inForce (st : HolderState) (height : Nat) :
    (st.inForce height).claimVerifiedAt = st.claimVerifiedAt := by
  unfold inForce
  split <;> rfl

section Handlers

variable {rows : Rows} {a : Asset} {holder : Address} {height : Nat} {states : HolderStateUpdates}

theorem keepProofs_single {asset : AssetRef} {st : HolderState}
    (h : st.claimVerifiedAt = (rows.holderState asset holder).claimVerifiedAt) :
    HolderStateUpdates.KeepProofs rows [((asset, holder), st)] :=
  List.forall_mem_singleton.mpr (.inr h)

/-- An adjusted lock is the old state with another lock. -/
theorem keepProofs_adjustedLock {after numerator denominator : Nat} {st : Option HolderState}
    (h : (Rwa.adjustedLock a holder after numerator denominator height).run rows.view = .ok st) :
    HolderStateUpdates.KeepProofs rows (st.elim [] fun s => [((a.assetRef, holder), s)]) := by
  obtain ⟨rfl, -⟩ | ⟨left, -, rfl⟩ := run_adjustedLock h
  · exact fun _ hp => absurd hp List.not_mem_nil
  · exact keepProofs_single (HolderState.claimVerifiedAt_inForce _ _)

namespace Rwa

variable {s s' : Staging} {entry : Address × Nat}

theorem keepProofs_settle {moved : Asset × AssetBalanceUpdates} {numerator denominator : Nat}
    (h : HolderStateUpdates.KeepProofs rows s.states)
    (hrun : (s.settle holder moved numerator denominator height).run rows.view = .ok s') :
    HolderStateUpdates.KeepProofs rows s'.states := by
  obtain ⟨_, hrun⟩ := run_rest hrun
  obtain ⟨state, hstate, hrun⟩ := bind_ok.mp hrun
  obtain rfl := Except.ok.inj hrun
  exact List.forall_mem_append.mpr ⟨h, keepProofs_adjustedLock hstate⟩

theorem keepProofs_redeemOne (h : HolderStateUpdates.KeepProofs rows s.states) :
    (redeemOne height s entry).Ensures rows.view fun s' => HolderStateUpdates.KeepProofs rows s'.states := by
  intro s' hrun
  obtain ⟨_, hrun⟩ := run_rest hrun
  exact keepProofs_settle h hrun

theorem keepProofs_splitOne {numerator denominator : Nat}
    (h : HolderStateUpdates.KeepProofs rows s.states) :
    (splitOne numerator denominator height s entry).Ensures rows.view
      fun s' => HolderStateUpdates.KeepProofs rows s'.states := by
  intro s' hrun
  obtain ⟨_, hrun⟩ := run_rest hrun
  dsimp only at hrun
  split at hrun
  all_goals
    obtain ⟨_, hrun⟩ := run_rest hrun
    exact keepProofs_settle h hrun

end Rwa

end Handlers

namespace Runtime

variable [Crypto] [Wire ActionPayload] [Zk] [StateTrie] [Decode] {adjudicator : Adjudicator}
  {ctx : DispatchCtx} {rows : Rows} {action : ChainAction} {u : BlockUpdates}

/-- **Only a claim proof makes one.** -/
theorem keepProofs_dispatchInner
    (hp : ∀ asset sub days proof, action.payload ≠ .verifyClaimProof asset sub days proof)
    (h : (dispatchInner adjudicator ctx action).run rows.view = .ok u) :
    HolderStateUpdates.KeepProofs rows u.holderStates := by
  by_cases hm : action.payload.marksHolders = false
  · rw [(yields_unmarked hm).ensures _ u h]
    exact fun _ hp => absurd hp List.not_mem_nil
  unfold dispatchInner at h
  cases hpay : action.payload with
  | verifyClaimProof => exact absurd hpay (hp _ _ _ _)
  | setHolderFrozen =>
    rw [hpay] at h
    obtain ⟨_, h⟩ := run_rest h
    obtain ⟨_, hstates, h⟩ := bind_ok.mp h
    obtain rfl := Except.ok.inj h
    obtain rfl := Except.ok.inj (circuit_ok.mp hstates)
    exact keepProofs_single rfl
  | lockHolderAmount | unlockHolderAmount | lockHolderAmountUntil =>
    rw [hpay] at h
    obtain ⟨a, h⟩ := run_rest h
    obtain ⟨_, _, h⟩ := run_rest₂ h
    obtain ⟨_, hstates, h⟩ := bind_ok.mp h
    obtain rfl := Except.ok.inj h
    obtain ⟨_, hstate, hstates⟩ := bind_ok.mp (circuit_ok.mp hstates)
    obtain rfl := Except.ok.inj ((run_holderState_inForce rows a _ ctx.height).symm.trans hstate)
    dsimp only at hstates
    split at hstates
    · rw [Rows.run_balanceOf_bind] at hstates
      obtain ⟨_, hstates⟩ := run_rest hstates
      obtain rfl := Except.ok.inj hstates
      exact keepProofs_single (HolderState.claimVerifiedAt_inForce _ _)
    · obtain ⟨_, hstates⟩ := run_rest hstates
      obtain rfl := Except.ok.inj hstates
      exact keepProofs_single (HolderState.claimVerifiedAt_inForce _ _)
  | issuerForcedTransfer =>
    rw [hpay] at h
    obtain ⟨_, _, h⟩ := run_rest₂ h
    obtain ⟨⟨_, _, states⟩, hmove, h⟩ := bind_ok.mp h
    obtain rfl := Except.ok.inj h
    obtain ⟨_, -, hmove⟩ := bind_ok.mp (circuit_ok.mp hmove)
    dsimp only at hmove
    split at hmove
    · obtain ⟨-, -, rfl⟩ := pure_ok₃.mp hmove
      exact fun _ hp => absurd hp List.not_mem_nil
    · obtain ⟨_, hstate, hmove⟩ := bind_ok.mp hmove
      obtain ⟨-, -, rfl⟩ := pure_ok₃.mp hmove
      exact keepProofs_adjustedLock hstate
  | recoverHolder =>
    rw [hpay] at h
    obtain ⟨_, _, h⟩ := run_rest₂ h
    obtain ⟨⟨_, _, states⟩, hmove, h⟩ := bind_ok.mp h
    obtain rfl := Except.ok.inj h
    obtain ⟨-, rfl⟩ := run_applyRecover (circuit_ok.mp hmove)
    exact List.forall_mem_cons.mpr
      ⟨.inl rfl, keepProofs_single (HolderState.claimVerifiedAt_inForce _ _)⟩
  | redeemHolders =>
    rw [hpay] at h
    obtain ⟨_, _, _, h⟩ := run_rest₃ h
    obtain ⟨⟨_, _, states⟩, hmoved, h⟩ := bind_ok.mp h
    obtain rfl := Except.ok.inj h
    obtain ⟨s, hs, hmoved⟩ := bind_ok.mp (circuit_ok.mp hmoved)
    obtain ⟨_, hmoved⟩ := run_rest hmoved
    obtain ⟨-, -, rfl⟩ := pure_ok₃.mp hmoved
    exact ensures_foldlM (fun s entry hs => Rwa.keepProofs_redeemOne hs) _ _
      (fun _ hp => absurd hp List.not_mem_nil) s hs
  | splitAsset =>
    rw [hpay] at h
    obtain ⟨_, _, _, h⟩ := run_rest₃ h
    obtain ⟨⟨_, _, states⟩, hmoved, h⟩ := bind_ok.mp h
    obtain rfl := Except.ok.inj h
    obtain ⟨s, hs, hmoved⟩ := bind_ok.mp (circuit_ok.mp hmoved)
    obtain ⟨_, hmoved⟩ := run_rest hmoved
    obtain ⟨-, -, rfl⟩ := pure_ok₃.mp hmoved
    exact ensures_foldlM (fun s entry hs => Rwa.keepProofs_splitOne hs) _ _
      (fun _ hp => absurd hp List.not_mem_nil) s hs
  | _ =>
    rw [hpay] at hm
    exact absurd rfl hm

/-- **An accepted claim proof is recorded** with its height, for its sender and the asset it names. -/
theorem run_verifyClaimProof (hnamed : rows.AssetsNamed) {asset : AssetRef} {sub proof : Bytes}
    {days : Nat} (hp : action.payload = .verifyClaimProof asset sub days proof)
    (h : (dispatchInner adjudicator ctx action).run rows.view = .ok u) :
    u.holderStates = [((asset, action.sender), { rows.holderState asset action.sender with
      claimVerifiedAt := some ctx.height })] := by
  unfold dispatchInner at h
  rw [hp] at h
  obtain ⟨a, ha, h⟩ := bind_ok.mp h
  obtain ⟨_, _, h⟩ := run_rest₂ h
  obtain ⟨states, hstates, h⟩ := bind_ok.mp h
  obtain rfl := Except.ok.inj h
  obtain ⟨_, -, hstates⟩ := bind_ok.mp (circuit_ok.mp hstates)
  obtain ⟨_, hstates⟩ := run_rest hstates
  obtain rfl := hnamed asset a (run_resolveAsset.mp ha).1
  exact (Except.ok.inj hstates).symm

end Runtime

/-! ## What a history leaves -/

/-- The same holdings and the same attestations, whatever else changed. -/
structure SameStanding (s s' : Rows) : Prop extends SameHoldings s s' where
  attested : ∀ x, (s.account x).SameAttestation (s'.account x)

/-- An accepted claim proof of a party for an asset. -/
def Applied.Proves (asset : AssetRef) (party : Address) (e : Applied) : Prop :=
  e.action.sender = party ∧ ∃ sub days proof, e.action.payload = .verifyClaimProof asset sub days proof

/-- A grant or a revocation of a party's attestation. -/
def Applied.Attests (party : Address) (e : Applied) : Prop := e.action.payload.attests = some party

/-- When the party last proved its claims for the asset, as far as the state remembers. -/
def Rows.claimVerifiedAt (s : Rows) (asset : AssetRef) (party : Address) : Option Nat :=
  (s.holderState asset party).claimVerifiedAt

/-- **What the account remembers of its last grant or revocation.** -/
def Rows.AttestedAs (s : Rows) (party : Address) (e : Applied) : Prop :=
  (s.account party).attestedAt = none ∨
    ((s.account party).attestedAt = some e.ctx.height ∧
      (s.account party).attestedBy = some e.action.sender ∧
      ∃ hash topics jurisdiction,
        e.action.payload = .grantAttestation party hash topics jurisdiction)

/-- Whether a claim proof vouches for the party, as `check_party` asks. -/
def Rows.ClaimProofLive (s : Rows) (asset : AssetRef) (party : Address) (height : Nat) : Prop :=
  (Rwa.claimProofLive party (s (.account party)) ((s.holderState asset party).inForce height) height :
    Read RwaError Bool).run s.view = .ok true

/-- How many blocks a proof lasts. -/
def Rows.claimProofTtl (s : Rows) : Nat := claimProofTtlSecs / max s.params.blockIntervalSecs 1

theorem run_isAttested {s : Rows} {party : Address}
    (h : (isAttested party : Read RwaError Bool).run s.view = .ok true) {attestor : Address}
    (hby : (s.account party).attestedBy = some attestor) :
    (s (.attestorRecord attestor)).isSome = true := by
  unfold isAttested at h
  obtain ⟨row, hrow, h⟩ := bind_ok.mp h
  obtain rfl := Except.ok.inj ((Rows.run_getRow _).symm.trans hrow)
  unfold Rows.account at hby
  cases hentry : (s (.account party) : Option AccountEntry) with
  | none =>
    rw [hentry] at h
    cases h
  | some entry =>
    rw [hentry] at h hby
    dsimp only at h
    split at h
    · cases h
    · rw [show entry.attestedBy = some attestor from hby] at h
      obtain ⟨record, hrecord, h⟩ := bind_ok.mp h
      obtain rfl := Except.ok.inj ((Rows.run_getRow _).symm.trans hrecord)
      exact Except.ok.inj h

/-- **What a live proof asks for.** -/
theorem Rows.ClaimProofLive.asks {s : Rows} {asset : AssetRef} {party : Address} {height : Nat}
    (h : s.ClaimProofLive asset party height) :
    ∃ v since, s.claimVerifiedAt asset party = some v ∧ (s.account party).attestedAt = some since ∧
      since < v ∧ height < v + s.claimProofTtl ∧
      ∀ attestor, (s.account party).attestedBy = some attestor →
        (s (.attestorRecord attestor)).isSome = true := by
  unfold ClaimProofLive Rwa.claimProofLive at h
  rw [HolderState.claimVerifiedAt_inForce] at h
  cases hv : (s.holderState asset party).claimVerifiedAt with
  | none =>
    rw [hv] at h
    cases h
  | some v =>
    rw [hv] at h
    dsimp only at h
    split at h
    · cases h
    next hnewer =>
    obtain ⟨attested, hattested, h⟩ := bind_ok.mp h
    split at h
    · cases h
    next hlive =>
    obtain rfl : attested = true := by simpa using hlive
    rw [run_bind, Rows.run_getParams] at h
    have hbefore := of_decide_eq_true (Except.ok.inj h)
    obtain ⟨since, hsince, hlt⟩ : ∃ since, (s.account party).attestedAt = some since ∧ since < v := by
      have hrow : Option.bind (s (.account party) : Option AccountEntry) (·.attestedAt) =
          (s.account party).attestedAt := by
        unfold Rows.account
        cases (s (.account party) : Option AccountEntry) <;> rfl
      replace hnewer : ¬ (s.account party).attestedAt.all (v ≤ ·) = true :=
        fun hall => hnewer ((congrArg (Option.all (v ≤ ·)) hrow).trans hall)
      cases hat : (s.account party).attestedAt with
      | none =>
        rw [hat] at hnewer
        exact absurd rfl hnewer
      | some since =>
        rw [hat] at hnewer
        exact ⟨since, rfl, by simpa using hnewer⟩
    refine ⟨v, since, hv, hsince, hlt, hbefore.trans_le ?_, fun attestor hby => run_isAttested hattested hby⟩
    exact min_le_left _ _

section Runs

variable [Crypto] [Wire ActionPayload] [Zk] [StateTrie] [Decode] {s₀ s : Rows} {hist : List Applied}
  {e : Applied} {u : BlockUpdates} {asset : AssetRef} {party : Address}

theorem Applied.Valid.account_eq (h : e.Valid u) (x : Address) :
    e.after.account x = (u.accounts.get? x).getD (e.before.account x) := by
  obtain ⟨inner, hinner, accounts, rfl⟩ := Runtime.run_dispatchWith h.ran
  have hgov : GovernanceRows inner.governance := (Runtime.yields_governanceRows.ensures _ inner hinner).1
  rw [h.written]
  exact account_viewWrites (u := { inner with accounts := accounts }) hgov x

/-- **Whoever is not attested anew keeps the attestation they have.** -/
theorem Applied.Valid.sameAttestation (h : e.Valid u) (he : ¬ e.Attests party) :
    (e.before.account party).SameAttestation (e.after.account party) := by
  obtain ⟨inner, hinner, hsame⟩ := Runtime.run_dispatchWith_attested h.ran
  rw [h.account_eq]
  refine .trans ?_ (hsame party)
  cases hget : inner.accounts.get? party with
  | none => exact .refl _
  | some entry => exact Runtime.attested_dispatchInner he hinner hget

/-- **A grant or a revocation is remembered.** -/
theorem Applied.Valid.attestedAs (h : e.Valid u) (he : e.Attests party) : e.after.AttestedAs party e := by
  obtain ⟨inner, hinner, hsame⟩ := Runtime.run_dispatchWith_attested h.ran
  obtain ⟨entry, haccounts, -, -, hattested⟩ := Runtime.run_attests he hinner
  have hsame := hsame party
  rw [haccounts, show Updates.get? [(party, entry)] party = some entry by simp [Updates.get?],
    Option.getD_some, ← h.account_eq] at hsame
  unfold Rows.AttestedAs
  rw [hsame.attestedAt, hsame.attestedBy]
  exact hattested

/-- **The last grant or revocation of a party is the one its account remembers.** -/
theorem AppliedRun.attested (h : AppliedRun SameStanding s₀ hist s) :
    ∀ e, IsLatest (Applied.Attests party) hist e → s.AttestedAs party e := by
  induction h with
  | nil => exact fun e ⟨_, _, hsplit, _⟩ => absurd hsplit (by simp)
  | @act hist e u h valid ih =>
    intro e' he'
    obtain ⟨he, rfl⟩ | ⟨he, hlatest⟩ := isLatest_snoc_iff.mp he'
    · exact valid.attestedAs he
    · have hsame := valid.sameAttestation he
      unfold Rows.AttestedAs
      rw [hsame.attestedAt, hsame.attestedBy]
      exact ih e' hlatest
  | rest h keeps ih =>
    intro e he
    unfold Rows.AttestedAs
    rw [(keeps.attested party).attestedAt, (keeps.attested party).attestedBy]
    exact ih e he

theorem Applied.Valid.holderState_eq (h : e.Valid u) : ∃ adjudicator inner,
    (Runtime.dispatchInner adjudicator e.ctx e.action).run e.before.view = .ok inner ∧
      ∀ asset party, e.after.holderState asset party =
        (Updates.get? inner.holderStates (asset, party)).getD (e.before.holderState asset party) := by
  obtain ⟨inner, hinner, accounts, rfl⟩ := Runtime.run_dispatchWith h.ran
  have hgov : GovernanceRows inner.governance := (Runtime.yields_governanceRows.ensures _ inner hinner).1
  refine ⟨_, inner, hinner, fun asset party => ?_⟩
  rw [h.written, holderState_apply (u := { inner with accounts := accounts }) hgov, holderState_mark]

/-- An accepted proof is remembered, -/
theorem Applied.Valid.proves (h : e.Valid u) (hnamed : e.before.AssetsNamed)
    (he : e.Proves asset party) : e.after.claimVerifiedAt asset party = some e.ctx.height := by
  obtain ⟨rfl, sub, days, proof, hp⟩ := he
  obtain ⟨_, inner, hinner, hstate⟩ := h.holderState_eq
  rw [Rows.claimVerifiedAt, hstate, Runtime.run_verifyClaimProof hnamed hp hinner]
  simp [Updates.get?]

/-- and nothing else is taken for one. -/
theorem Applied.Valid.proven_before (h : e.Valid u) (hnamed : e.before.AssetsNamed)
    (he : ¬ e.Proves asset party) {v : Nat} (hv : e.after.claimVerifiedAt asset party = some v) :
    e.before.claimVerifiedAt asset party = some v := by
  obtain ⟨_, inner, hinner, hstate⟩ := h.holderState_eq
  rw [Rows.claimVerifiedAt, hstate] at hv
  cases hget : Updates.get? inner.holderStates (asset, party) with
  | none =>
    rw [hget] at hv
    exact hv
  | some st =>
    rw [hget, Option.getD_some] at hv
    by_cases hp : ∃ asset sub days proof, e.action.payload = .verifyClaimProof asset sub days proof
    · obtain ⟨asset', sub, days, proof, hp⟩ := hp
      rw [Runtime.run_verifyClaimProof hnamed hp hinner] at hget
      have hmem := List.mem_singleton.mp (Updates.mem_of_get? hget)
      obtain ⟨rfl, rfl⟩ := Prod.mk.inj (Prod.mk.inj hmem).1
      exact absurd ⟨rfl, sub, days, proof, hp⟩ he
    · push Not at hp
      obtain hnone | hsame := Runtime.keepProofs_dispatchInner hp hinner _ (Updates.mem_of_get? hget)
      · exact absurd (hnone.symm.trans hv) nofun
      · exact hsame.symm.trans hv

/-- **A state remembers no proof but the last one.** -/
theorem AppliedRun.proven (h : AppliedRun SameStanding s₀ hist s) (hs : s₀.NoHolders) :
    s.AssetsNamed ∧ ∀ v, s.claimVerifiedAt asset party = some v →
      ∃ e, IsLatest (Applied.Proves asset party) hist e ∧ e.ctx.height = v := by
  induction h with
  | nil =>
    refine ⟨fun asset a ha => absurd ((hs.assets asset).1.symm.trans ha) nofun, fun v hv => ?_⟩
    rw [Rows.claimVerifiedAt, Rows.holderState, hs.unmarked] at hv
    cases hv
  | @act hist e u h valid ih =>
    obtain ⟨hnamed, ih⟩ := ih
    refine ⟨fun asset a ha => (valid.change hnamed asset).named hnamed ha, fun v hv => ?_⟩
    by_cases he : e.Proves asset party
    · exact ⟨e, isLatest_snoc he, Option.some.inj ((valid.proves hnamed he).symm.trans hv)⟩
    · obtain ⟨e', hlatest, hheight⟩ := ih v (valid.proven_before hnamed he hv)
      exact ⟨e', hlatest.snoc he, hheight⟩
  | rest h keeps ih =>
    obtain ⟨hnamed, ih⟩ := ih
    refine ⟨fun asset a ha => hnamed asset a (keeps.assets.asset_eq asset ▸ ha), fun v hv => ih v ?_⟩
    rw [← hv, Rows.claimVerifiedAt, Rows.claimVerifiedAt, Rows.holderState, Rows.holderState,
      keeps.states]

/-- **A claim proof dies with the attestation.**  In every run from a state without assets, a party whose
claim proof is live has proved its claims for the asset less than the proof's lifetime ago; since that
proof, in its own block or later, nobody granted or revoked the party's attestation; and whoever granted
the attestation it proved is still an attestor. -/
theorem claim_proof_current (hs : s₀.NoHolders) (h : AppliedRun SameStanding s₀ hist s)
    (hheights : Ascending hist) {height : Nat} (hlive : s.ClaimProofLive asset party height) :
    ∃ pre proof post, hist = pre ++ proof :: post ∧ proof.Proves asset party ∧
      (∀ e ∈ post, ¬ e.Proves asset party) ∧
      height < proof.ctx.height + s.claimProofTtl ∧
      (∀ e ∈ post, ¬ e.Attests party) ∧
      ∀ last, IsLatest (Applied.Attests party) pre last →
        (∃ hash topics jurisdiction,
          last.action.payload = .grantAttestation party hash topics jurisdiction) ∧
        (s (.attestorRecord last.action.sender)).isSome = true := by
  obtain ⟨v, since, hv, hsince, hlt, hbefore, hregistered⟩ := hlive.asks
  obtain ⟨proof, ⟨pre, post, rfl, hproves, hlast⟩, rfl⟩ := (h.proven hs).2 v hv
  have hattested : ∀ last, IsLatest (Applied.Attests party) (pre ++ proof :: post) last →
      last.ctx.height = since ∧ (s.account party).attestedBy = some last.action.sender ∧
        ∃ hash topics jurisdiction,
          last.action.payload = .grantAttestation party hash topics jurisdiction := by
    intro last hlatest
    obtain hnone | ⟨hat, hby, hgrant⟩ := h.attested last hlatest
    · exact absurd (hnone.symm.trans hsince) nofun
    · exact ⟨Option.some.inj (hat.symm.trans hsince), hby, hgrant⟩
  -- a grant after the proof would be of the proof's height at least
  have hnone : ∀ e ∈ post, ¬ e.Attests party := by
    intro e he hattests
    obtain ⟨last, hlatest⟩ := exists_isLatest ⟨e, he, hattests⟩
    obtain ⟨hheight, -, -⟩ := hattested last (by
      rw [← List.singleton_append, ← List.append_assoc]
      exact hlatest.append_left _)
    obtain ⟨_, _, rfl, -, -⟩ := hlatest
    have hordered := (List.pairwise_append.mp hheights).2.1
    have hle := (List.pairwise_cons.mp hordered).1 last (by simp)
    omega
  have hown : ¬ proof.Attests party := by
    obtain ⟨-, sub, days, bytes, hp⟩ := hproves
    unfold Applied.Attests
    rw [hp]
    nofun
  refine ⟨pre, proof, post, rfl, hproves, hlast, hbefore, hnone, fun last hlatest => ?_⟩
  obtain ⟨-, hby, hgrant⟩ := hattested last
    (hlatest.append_right (List.forall_mem_cons.mpr ⟨hown, hnone⟩))
  exact ⟨hgrant, hregistered _ hby⟩

/-- Neither the seed nor the seal of a block touches an attestation. -/
theorem Commits.sameStanding {env : NodeEnv} {params : ChainParams} {db db' : Db} {block : ChainBlock}
    {ex : Executed} (h : Commits env params db block ex db') :
    SameStanding db.state.rows (seededRows db ex.seed) ∧
      SameStanding ex.outcome.rows db'.state.rows := by
  obtain ⟨hseed, hseal⟩ := h.sameHoldings
  obtain ⟨_, _, _, _, hsealed⟩ := h.valid_sealed
  exact ⟨⟨hseed, fun x => (h.valid_seed.rebalanced rfl x).sameAttestation⟩,
    hseal, fun x => (hsealed.rebalanced rfl x).sameAttestation⟩

/-- **A chain is such a run.** -/
theorem Chain.standing {c₀ c : ChainState} {blocks : List (ChainBlock × Executed)}
    (h : Chain c₀ blocks c) : ∃ acts, AppliedRun SameStanding c₀.rows acts c.rows ∧
      acts.map (·.action) = blocks.flatMap (·.1.actions) ∧ Ascending acts := by
  obtain ⟨acts, hrun, hactions, hascending, -⟩ := h.appliedRun fun hcommit => hcommit.sameStanding
  exact ⟨acts, hrun, hactions, hascending⟩

end Runs

/-! ## A proof on a small ledger -/

namespace SmallLedger

open PlainChain

attribute [local instance] crypto wire Plain.zk Plain.trie Plain.decoders

/-- The third account is an attestor. -/
def overseen : Rows := Writes.apply [put .chainParams params,
  put (.attestorRecord (address 3)) ⟨"Notary", 0, [], 0, false, false, 0⟩] fun _ => none

/-- A bond for those who passed a check of their identity, -/
def registerChecked : ChainAction := action 1 0 (.registerAsset "bond" true
  { assetClass := .bond, symbol := "BND", name := "Bond", requiredClaims := [.kyc] })

/-- which may be proved without being shown. -/
def acceptProofs : ChainAction := action 1 1 (.setPrivateClaims bond true)

def attest : ChainAction := action 3 0 (.grantAttestation (address 2) "00" [.kyc] none)

def prove : ChainAction := action 2 0 (.verifyClaimProof bond [] credentialEpochOffsetDays [])

def checked : Rows := overseen.after (ctx 1) registerChecked
def accepting : Rows := checked.after (ctx 1) acceptProofs
def attested : Rows := accepting.after (ctx 1) attest
def proved : Rows := attested.after (ctx 2) prove

theorem overseen_noHolders : overseen.NoHolders := ⟨fun _ => ⟨rfl, fun _ => rfl⟩, fun _ _ => rfl⟩

set_option maxRecDepth 20000 in
theorem proved_ok : ((Runtime.dispatch (ctx 1) registerChecked).run overseen.view).isOk = true ∧
    ((Runtime.dispatch (ctx 1) acceptProofs).run checked.view).isOk = true ∧
    ((Runtime.dispatch (ctx 1) attest).run accepting.view).isOk = true ∧
    ((Runtime.dispatch (ctx 2) prove).run attested.view).isOk = true ∧
    (Rwa.claimProofLive (address 2) (proved (.account (address 2)))
      ((proved.holderState bond (address 2)).inForce 3) 3 : Read RwaError Bool).run proved.view =
        .ok true := by
  decide +kernel

def provedHistory : List Applied :=
  [⟨ctx 1, registerChecked, overseen, checked⟩, ⟨ctx 1, acceptProofs, checked, accepting⟩,
    ⟨ctx 1, attest, accepting, attested⟩, ⟨ctx 2, prove, attested, proved⟩]

/-- The proof of the second block is live in the third. -/
theorem claim_proof_current_proved : ∃ pre proof post, provedHistory = pre ++ proof :: post ∧
    proof.Proves bond (address 2) ∧ 3 < proof.ctx.height + proved.claimProofTtl := by
  obtain ⟨hregister, haccept, hattest, hprove, hlive⟩ := proved_ok
  have hrun : AppliedRun SameStanding overseen provedHistory proved :=
    AppliedRun.after (AppliedRun.after (AppliedRun.after (AppliedRun.after .nil hregister) haccept)
      hattest) hprove
  have hheights : Ascending provedHistory := by
    simp [provedHistory, Ascending, ctx]
  obtain ⟨pre, proof, post, hsplit, hproves, -, hbefore, -, -⟩ :=
    claim_proof_current overseen_noHolders hrun hheights hlive
  exact ⟨pre, proof, post, hsplit, hproves, hbefore⟩

end SmallLedger

end Arxium
