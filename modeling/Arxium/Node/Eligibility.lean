import Arxium.Node.Locks
import Arxium.Lib.Refusals

/-!
# Node/Eligibility — the preview of a transfer

A wallet listing asks `transferEligibility` whether an account could send any of an asset, before there
is a recipient or a nonce.  The preview runs the gates of `applyCompliantTransfer` in their order on its
own, so it is worth comparing: in every state the ledger reaches it names the refusal of the transfer.
-/

namespace Arxium

open ReadProg Writes

export Prog (refuses_of_run refuses_bind refuses_ite refuses_ensure)

/-! ## The preview -/

inductive TransferEligibility
  | eligible
  | assetFrozen
  | holderFrozen
  | missingAttestation
  | missingRequiredClaim
  | jurisdictionNotAllowed
  | attestationExpired
  | noTransferableBalance
deriving DecidableEq, Repr

namespace Rwa

/-- What the preview makes of a refused party; an error the check is not known to end with is a
panic. -/
def partyEligibility : RwaError → Read RwaError TransferEligibility
  | .storage e => .fail (.storage e)
  | .holderFrozen .. => return .holderFrozen
  | .notCompliant _ => return .missingAttestation
  | .missingClaim .. => return .missingRequiredClaim
  | .jurisdictionNotAllowed .. => return .jurisdictionNotAllowed
  | .attestationExpired .. => return .attestationExpired
  | _ => panic

/-- Whether `sender` could send something of the asset to someone who may receive it. -/
def transferEligibility (asset : Asset) (sender : Address) (balance currentHeight : Nat) :
    Read RwaError TransferEligibility := do
  if asset.frozen then return .assetFrozen
  match ← (checkParty asset sender currentHeight).attempt with
  | .error e => partyEligibility e
  | .ok () =>
    let locked := (← holderState asset sender currentHeight).frozenAmount
    if balance - locked = 0 then return .noTransferableBalance
    return .eligible

end Rwa

/-- Which errors of a transfer a preview announces. -/
def TransferEligibility.Announces : TransferEligibility → RwaError → Prop
  | eligible, _ => False
  | assetFrozen, e => ∃ asset, e = .assetFrozen asset
  | holderFrozen, e => ∃ asset party, e = .holderFrozen asset party
  | missingAttestation, e => ∃ party, e = .notCompliant party
  | missingRequiredClaim, e => ∃ asset party topic, e = .missingClaim asset party topic
  | jurisdictionNotAllowed, e => ∃ asset party held, e = .jurisdictionNotAllowed asset party held
  | attestationExpired, e => ∃ asset party age maxAge, e = .attestationExpired asset party age maxAge
  | noTransferableBalance, e =>
    (∃ asset sender balance locked available amount,
      e = .amountLocked asset sender balance locked available amount) ∨
    ∃ asset sender balance amount, e = .insufficientBalance asset sender balance amount

/-! ## The refusals of a party -/

/-- The errors a party is refused with. -/
inductive PartyRefusal (a : Asset) (party : Address) : RwaError → Prop
  | frozen : PartyRefusal a party (.holderFrozen a.assetRef party)
  | notCompliant : PartyRefusal a party (.notCompliant party)
  | missingClaim (topic : ClaimTopic) : PartyRefusal a party (.missingClaim a.assetRef party topic)
  | expired (age maxAge : Nat) : PartyRefusal a party (.attestationExpired a.assetRef party age maxAge)
  | jurisdiction (held : Option CountryCode) :
    PartyRefusal a party (.jurisdictionNotAllowed a.assetRef party held)

section Party

variable {rows : Rows} {a : Asset} {party : Address} {height : Nat} {entry : Option AccountEntry}
  {Q : RwaError → Prop}

theorem refuses_getRow {k : Key} : (getRow k : Read RwaError _).Refuses rows.view Q :=
  refuses_of_run (Rows.run_getRow k)

theorem refuses_holderState :
    (Rwa.holderState a party height : Read RwaError _).Refuses rows.view Q := by
  obtain ⟨state, hstate, -⟩ := run_holderState (ε := RwaError) rows a party height
  exact refuses_of_run hstate

theorem refuses_isAttested : (isAttested party : Read RwaError _).Refuses rows.view Q := by
  unfold isAttested
  refine refuses_bind.mpr ⟨refuses_getRow, fun entry _ => ?_⟩
  cases entry with
  | none => simp
  | some entry =>
    refine refuses_ite.mpr ⟨fun _ => by simp, fun _ => ?_⟩
    cases entry.attestedBy with
    | none => simp
    | some attestor => exact refuses_bind.mpr ⟨refuses_getRow, fun _ _ => by simp⟩

theorem refuses_claimProofLive {state : HolderState} :
    (Rwa.claimProofLive party entry state height : Read RwaError _).Refuses rows.view Q := by
  unfold Rwa.claimProofLive
  cases state.claimVerifiedAt with
  | none => simp
  | some verifiedAt =>
    refine refuses_ite.mpr ⟨fun _ => by simp, fun _ => ?_⟩
    refine refuses_bind.mpr ⟨refuses_isAttested, fun _ _ => ?_⟩
    refine refuses_ite.mpr ⟨fun _ => by simp, fun _ => ?_⟩
    exact refuses_bind.mpr ⟨refuses_of_run Rows.run_getParams, fun _ _ => by simp⟩

theorem refuses_checkClaims :
    (Rwa.checkClaims a party entry).Refuses rows.view (PartyRefusal a party) := by
  unfold Rwa.checkClaims
  refine refuses_ite.mpr ⟨fun _ => ?_, fun _ => ?_⟩
  · refine refuses_bind.mpr ⟨refuses_isAttested, fun _ _ => ?_⟩
    refine refuses_bind.mpr ⟨refuses_ensure.mpr fun _ => .notCompliant, fun _ _ => ?_⟩
    dsimp only
    split
    · exact (Prog.refuses_fail _).mpr (.missingClaim _)
    · simp
  · refine refuses_ite.mpr ⟨fun _ => ?_, fun _ => by simp⟩
    exact refuses_bind.mpr
      ⟨refuses_isAttested, fun _ _ => refuses_ensure.mpr fun _ => .notCompliant⟩

theorem refuses_checkAge :
    (Rwa.checkAge a party entry height).Refuses rows.view (PartyRefusal a party) := by
  unfold Rwa.checkAge
  split
  · simp
  · split
    · exact (Prog.refuses_fail _).mpr (.expired _ _)
    · exact refuses_ensure.mpr fun _ => .expired _ _

/-- **A party is refused for one of five reasons**, never for a read or an arithmetic one. -/
theorem refuses_checkParty :
    (Rwa.checkParty a party height).Refuses rows.view (PartyRefusal a party) := by
  unfold Rwa.checkParty
  refine refuses_bind.mpr ⟨refuses_getRow, fun entry _ => ?_⟩
  refine refuses_bind.mpr ⟨refuses_holderState, fun state _ => ?_⟩
  refine refuses_bind.mpr ⟨refuses_ensure.mpr fun _ => .frozen, fun _ _ => ?_⟩
  have hrest (proven : Bool) : (Rwa.checkPartyRest a party height entry proven).Refuses rows.view
      (PartyRefusal a party) := by
    unfold Rwa.checkPartyRest
    refine refuses_bind.mpr ⟨refuses_checkAge, fun _ _ => ?_⟩
    split
    · simp
    · exact refuses_ite.mpr
        ⟨fun _ => by simp, fun _ => refuses_ensure.mpr fun _ => .jurisdiction _⟩
  have hchecked : (Rwa.checkClaims a party entry).Refuses rows.view (PartyRefusal a party) :=
    refuses_checkClaims
  have hclaims (proven : Bool) := refuses_ite.mpr ⟨fun (_ : (!proven) = true) =>
    refuses_bind.mpr ⟨hchecked, fun _ _ => hrest proven⟩, fun _ => hrest proven⟩
  exact refuses_ite.mpr
    ⟨fun _ => refuses_bind.mpr ⟨refuses_claimProofLive, fun proven _ => hclaims proven⟩,
      fun _ => hclaims false⟩

/-- **Every refusal has its preview**, and the preview of a refused party is that one. -/
theorem PartyRefusal.announced {e : RwaError} (h : PartyRefusal a party e) (rows : Rows) :
    ∃ preview : TransferEligibility, (Rwa.partyEligibility e).run rows.view = .ok preview ∧
      preview ≠ .eligible ∧ preview.Announces e := by
  cases h with
  | frozen => exact ⟨.holderFrozen, rfl, nofun, _, _, rfl⟩
  | notCompliant => exact ⟨.missingAttestation, rfl, nofun, _, rfl⟩
  | missingClaim topic => exact ⟨.missingRequiredClaim, rfl, nofun, _, _, _, rfl⟩
  | expired age maxAge => exact ⟨.attestationExpired, rfl, nofun, _, _, _, _, rfl⟩
  | jurisdiction held => exact ⟨.jurisdictionNotAllowed, rfl, nofun, _, _, _, rfl⟩

end Party

/-! ## The transfer of one unit -/

section Transfer

variable {rows : Rows} {a : Asset} {sender recipient : Address} {height : Nat}

/-- A forced transfer of what is there goes through where it fits. -/
theorem isOk_applyForcedTransfer {amount : Nat}
    (hfits : recipient ≠ sender → rows.balance a.assetRef recipient + amount ≤ u128Max)
    (hheld : amount ≤ rows.balance a.assetRef sender) :
    ((Rwa.applyForcedTransfer a sender recipient amount).run rows.view).isOk = true := by
  unfold Rwa.applyForcedTransfer
  rw [Rows.run_balanceOf_bind, run_bind, run_ensure, if_pos (decide_eq_true hheld)]
  change Except.isOk (Prog.run _ (if recipient = sender then _ else _)) = _
  split
  · rfl
  · next hne =>
    have hcredit : (Rwa.credit a.assetRef (rows.balance a.assetRef recipient) amount).run rows.view =
        .ok (rows.balance a.assetRef recipient + amount) := Rwa.run_credit.mpr ⟨hfits hne, rfl⟩
    rw [Rows.run_balanceOf_bind, run_bind, hcredit]
    rfl

/-- …and a checked one of what is there unlocked. -/
theorem isOk_moveChecked {amount : Nat}
    (hfits : recipient ≠ sender → rows.balance a.assetRef recipient + amount ≤ u128Max)
    (hfree : rows.lockedAmount a.assetRef sender height + amount ≤ rows.balance a.assetRef sender) :
    ((Rwa.moveChecked a sender recipient amount height).run rows.view).isOk = true := by
  obtain ⟨state, hstate, hlocked⟩ := run_holderState (ε := RwaError) rows a sender height
  have hheld : amount ≤ rows.balance a.assetRef sender := by omega
  unfold Rwa.moveChecked
  rw [run_bind, hstate]
  dsimp only [Except.bind]
  split
  · rw [Rows.run_balanceOf_bind, run_bind, run_ensure, if_pos (decide_eq_true (by omega))]
    exact isOk_applyForcedTransfer hfits hheld
  · exact isOk_applyForcedTransfer hfits hheld

/-- **One unit moves exactly when one is free**, and otherwise the refusal says which of the two is
short. -/
theorem run_moveChecked_one (a : Asset) (height : Nat)
    (hfits : 1 ≤ rows.balance a.assetRef sender → rows.balance a.assetRef recipient + 1 ≤ u128Max) :
    if rows.balance a.assetRef sender - rows.lockedAmount a.assetRef sender height = 0 then
      ∃ e, (Rwa.moveChecked a sender recipient 1 height).run rows.view = .error e ∧
        TransferEligibility.noTransferableBalance.Announces e
    else ((Rwa.moveChecked a sender recipient 1 height).run rows.view).isOk = true := by
  split
  swap
  · next hfree => exact isOk_moveChecked (fun _ => hfits (by omega)) (by omega)
  next hnone =>
  obtain ⟨state, hstate, hlocked⟩ := run_holderState (ε := RwaError) rows a sender height
  unfold Rwa.moveChecked
  rw [run_bind, hstate]
  dsimp only [Except.bind]
  by_cases hlock : 0 < state.frozenAmount
  · have hshort : ¬ 1 ≤ rows.balance a.assetRef sender - state.frozenAmount := by omega
    rw [if_pos hlock, Rows.run_balanceOf_bind, run_bind, run_ensure,
      if_neg (by simpa using hshort)]
    exact ⟨_, rfl, .inl ⟨_, _, _, _, _, _, rfl⟩⟩
  · have hshort : ¬ 1 ≤ rows.balance a.assetRef sender := by omega
    unfold Rwa.applyForcedTransfer
    rw [if_neg hlock, Rows.run_balanceOf_bind, run_bind, run_ensure,
      if_neg (by simpa using hshort)]
    exact ⟨_, rfl, .inr ⟨_, _, _, _, rfl⟩⟩

/-- The transfer ends as its move does, once the parties are checked and the nonce is the next one. -/
theorem run_applyCompliantTransfer_of_checked {existing : Nat} (hfrozen : a.frozen = false)
    (hsender : rows.Eligible a sender height)
    (hrecipient : (Rwa.checkRecipient a recipient 1 height).run rows.view = .ok existing)
    (hnonce : (rows.account sender).nonce < u64Max) :
    (Rwa.applyCompliantTransfer a sender (rows.account sender).nonce recipient 1 height).run rows.view =
      ((Rwa.moveChecked a sender recipient 1 height).run rows.view).map fun moved =>
        (moved.1, [(sender, { rows.account sender with nonce := (rows.account sender).nonce + 1 })],
          moved.2) := by
  have hmove : (Rwa.checkMove a sender recipient 1 height).run rows.view = .ok () := by
    unfold Rwa.checkMove
    have hsender : (Rwa.checkParty a sender height).run rows.view = .ok () := hsender
    simp [hfrozen, hsender, hrecipient, Except.bind]
  have hbump : (addOrPanic64 (rows.account sender).nonce 1 : Read RwaError Nat).run rows.view =
      .ok ((rows.account sender).nonce + 1) := by
    unfold addOrPanic64
    rw [if_pos (Nat.succ_le_of_lt hnonce)]
    rfl
  unfold Rwa.applyCompliantTransfer
  simp only [run_bind, hmove, Except.bind, Rows.run_getAccount, run_ensure, decide_true,
    if_true, hbump]
  cases (Rwa.moveChecked a sender recipient 1 height).run rows.view with
  | error e => rfl
  | ok moved => rfl

/-- **The preview against the transfer**, in a state where a unit that can be taken can be put. -/
theorem preview_truthful (a : Asset) (sender : Address) (height : Nat)
    (hfits : ∀ recipient ≠ sender, 1 ≤ rows.balance a.assetRef sender →
      rows.balance a.assetRef recipient + 1 ≤ u128Max) :
    ∃ preview, (Rwa.transferEligibility a sender (rows.balance a.assetRef sender) height).run rows.view =
        .ok preview ∧
      ∀ recipient ≠ sender, ((Rwa.checkRecipient a recipient 1 height).run rows.view).isOk = true →
        (rows.account sender).nonce < u64Max →
        if preview = .eligible then ((Rwa.applyCompliantTransfer a sender (rows.account sender).nonce
          recipient 1 height).run rows.view).isOk = true
        else ∃ e, (Rwa.applyCompliantTransfer a sender (rows.account sender).nonce recipient 1
          height).run rows.view = .error e ∧ preview.Announces e := by
  unfold Rwa.transferEligibility
  by_cases hfrozen : a.frozen = true
  · refine ⟨.assetFrozen, by simp [hfrozen], fun recipient _ _ _ => ?_⟩
    rw [if_neg nofun]
    exact ⟨.assetFrozen a.assetRef, by simp [Rwa.applyCompliantTransfer, Rwa.checkMove, hfrozen,
      Except.bind], _, rfl⟩
  cases hparty : (Rwa.checkParty a sender height).run rows.view with
  | error e =>
    obtain ⟨preview, hpreview, hne, hannounced⟩ := (refuses_checkParty e hparty).announced rows
    refine ⟨preview, by simp [hfrozen, hparty, hpreview, Except.bind], fun recipient _ _ _ => ?_⟩
    rw [if_neg hne]
    exact ⟨e, by simp [Rwa.applyCompliantTransfer, Rwa.checkMove, hfrozen, hparty, Except.bind],
      hannounced⟩
  | ok _ =>
    obtain ⟨state, hstate, hlocked⟩ := run_holderState (ε := RwaError) rows a sender height
    refine ⟨if rows.balance a.assetRef sender - state.frozenAmount = 0 then .noTransferableBalance
      else .eligible, ?_, fun recipient hne hcheck hnonce => ?_⟩
    · simp only [hfrozen, run_bind, run_attempt, hparty, hstate, Except.bind, run_ite,
        Bool.false_eq_true, if_false]
      split <;> rfl
    obtain ⟨existing, hcheck⟩ := exists_ok_of_isOk hcheck
    have hmove := run_moveChecked_one a height (hfits recipient hne)
    rw [run_applyCompliantTransfer_of_checked (by simpa using hfrozen) hparty hcheck hnonce]
    rw [← hlocked] at hmove
    split at hmove
    · next hzero =>
      obtain ⟨e, he, hannounced⟩ := hmove
      rw [if_pos hzero, if_neg nofun, he]
      exact ⟨e, rfl, hannounced⟩
    · next hfree =>
      obtain ⟨moved, hmoved⟩ := exists_ok_of_isOk hmove
      rw [if_neg hfree, if_pos rfl, hmoved]
      rfl

end Transfer

/-! ## Over runs -/

section Runs

variable [Crypto] [Wire ActionPayload] [Zk] [StateTrie] [Decode] {s₀ s : Rows} {hist : List Applied}

/-- **The preview is truthful.**  In every state a run of actions reaches, the preview of a sender's
stored balance returns a verdict.  Against every other account that may receive a unit, and for a sender
whose nonce is not the last one, that verdict is `eligible` exactly when the transfer of one unit
succeeds, and otherwise announces the error the transfer fails with. -/
theorem eligibility_preview (h₀ : s₀.NoAssets) (h : AppliedRun SameAssets s₀ hist s) {asset : AssetRef}
    {a : Asset} (ha : s.asset asset = some a) (sender : Address) (height : Nat) :
    ∃ preview, (Rwa.transferEligibility a sender (s.balance asset sender) height).run s.view =
        .ok preview ∧
      ∀ recipient ≠ sender, ((Rwa.checkRecipient a recipient 1 height).run s.view).isOk = true →
        (s.account sender).nonce < u64Max →
        (preview = .eligible ↔ ((Rwa.applyCompliantTransfer a sender (s.account sender).nonce recipient 1
          height).run s.view).isOk = true) ∧
        ∀ e, (Rwa.applyCompliantTransfer a sender (s.account sender).nonce recipient 1 height).run s.view =
          .error e → preview.Announces e := by
  have hsupplied := h.supplied h₀.supplied asset
  have hbacked := hsupplied.backed a ha
  obtain rfl := hsupplied.named a ha
  have hroom : ∀ recipient ≠ sender, 1 ≤ s.balance a.assetRef sender →
      s.balance a.assetRef recipient + 1 ≤ u128Max := fun recipient hne hone => by
    -- both balances are part of the supply, so the unit taken from one fits the other
    have hboth := hbacked.totals.add_le hne
    have hfits := hbacked.fits
    dsimp only at hboth hfits
    omega
  obtain ⟨preview, hpreview, htruth⟩ := preview_truthful a sender height hroom
  refine ⟨preview, hpreview, fun recipient hne hcheck hnonce => ?_⟩
  have htruth := htruth recipient hne hcheck hnonce
  split at htruth
  · next heligible =>
    obtain ⟨r, hr⟩ := exists_ok_of_isOk htruth
    exact ⟨iff_of_true heligible htruth, fun e he => absurd (hr.symm.trans he) nofun⟩
  · next hrefused =>
    obtain ⟨e, he, hannounced⟩ := htruth
    refine ⟨iff_of_false hrefused (by simp [he, Except.isOk, Except.toBool]), fun e' he' => ?_⟩
    rw [he] at he'
    obtain rfl := Except.error.inj he'
    exact hannounced

end Runs

/-! ## Previews on a small ledger -/

namespace SmallLedger

open PlainChain

attribute [local instance] crypto wire Plain.zk Plain.trie Plain.decoders

set_option maxRecDepth 20000

/-- The issuer may send, and the transfer goes through. -/
theorem eligibility_preview_issuer : ∃ a, issued.asset bond = some a ∧
    (Rwa.transferEligibility a (address 1) (issued.balance bond (address 1)) 3).run issued.view =
      .ok .eligible ∧
    ((Rwa.applyCompliantTransfer a (address 1) 2 (address 2) 1 3).run issued.view).isOk = true := by
  obtain ⟨a, ha⟩ := Option.isSome_iff_exists.mp
    (by decide +kernel : (issued.asset bond).isSome = true)
  have hchecked : ((issued.asset bond).any fun a =>
      ((Rwa.checkRecipient a (address 2) 1 3).run issued.view).isOk &&
      (Rwa.transferEligibility a (address 1) (issued.balance bond (address 1)) 3).run issued.view =
        .ok .eligible) = true := by decide +kernel
  rw [ha, Option.any_some, Bool.and_eq_true, decide_eq_true_eq] at hchecked
  obtain ⟨preview, hpreview, htruth⟩ :=
    eligibility_preview start_noAssets run_issued ha (address 1) 3
  obtain rfl := Except.ok.inj (hpreview.symm.trans hchecked.2)
  have hnonce : (issued.account (address 1)).nonce = 2 := by decide +kernel
  have hsent := (htruth (address 2) (by decide) hchecked.1 (by rw [hnonce]; decide)).1.mp rfl
  rw [hnonce] at hsent
  exact ⟨a, ha, hchecked.2, hsent⟩

/-- A ledger with an account that used up its nonces. -/
def spentStart : Rows := Writes.apply
  [put .chainParams params, put (.account (address 1)) { balance := 10, nonce := 0 },
    put (.account (address 2)) { balance := 0, nonce := u64Max }] fun _ => none

def spentRegistered : Rows := spentStart.after (ctx 1) register

/-- It is issued ten units. -/
def issueToSpent : ChainAction := action 1 1 (.issueAssetTo bond (address 2) 10)

def spentIssued : Rows := spentRegistered.after (ctx 2) issueToSpent

/-- **A nonce the preview does not look at.**  An account at the last nonce holds ten units and is
announced as eligible; its transfer cannot bump the nonce. -/
theorem preview_ignores_nonce : spentStart.NoAssets ∧
    (∃ hist, AppliedRun SameAssets spentStart hist spentIssued) ∧
    ∃ a, spentIssued.asset bond = some a ∧
      (Rwa.transferEligibility a (address 2) (spentIssued.balance bond (address 2)) 3).run
        spentIssued.view = .ok .eligible ∧
      ((Rwa.checkRecipient a (address 3) 1 3).run spentIssued.view).isOk = true ∧
      ((Rwa.applyCompliantTransfer a (address 2) (spentIssued.account (address 2)).nonce (address 3) 1
        3).run spentIssued.view).isOk = false := by
  have hregister : ((Runtime.dispatch (ctx 1) register).run spentStart.view).isOk = true := by
    decide +kernel
  have hissue : ((Runtime.dispatch (ctx 2) issueToSpent).run spentRegistered.view).isOk = true := by
    decide +kernel
  have houtcome : ((spentIssued.asset bond).any fun a =>
      ((Rwa.transferEligibility a (address 2) (spentIssued.balance bond (address 2)) 3).run
        spentIssued.view = .ok .eligible) &&
      (((Rwa.checkRecipient a (address 3) 1 3).run spentIssued.view).isOk &&
      !((Rwa.applyCompliantTransfer a (address 2) (spentIssued.account (address 2)).nonce (address 3) 1
        3).run spentIssued.view).isOk)) = true := by decide +kernel
  obtain ⟨a, ha, houtcome⟩ := (Option.any_eq_true _ _).mp houtcome
  rw [Bool.and_eq_true, Bool.and_eq_true, decide_eq_true_eq, Bool.not_eq_true'] at houtcome
  exact ⟨fun _ => ⟨rfl, fun _ => rfl⟩,
    ⟨_, AppliedRun.after (AppliedRun.after .nil hregister) hissue⟩, a, ha, houtcome⟩

end SmallLedger

end Arxium
