import Arxium.Node.Supply

/-!
# Node/Compliance — who may come to hold a regulated asset

A compliant action changes the balances of a regulated asset by moves that each pass the gate
(`Gated`): the asset is not frozen, whoever receives units is eligible and within the limits as the
state stands just then, and whoever gives some up is eligible too and keeps what is locked.  A
distribution or a split makes many such moves, each judged on the balances the ones before it left
(`GatedPath`).  Eligibility itself reads no balance, so it is the same before the action and in the
middle of it.
-/

namespace Arxium

open ReadProg Writes

/-! ## The gate -/

/-- What of a holder's balance is locked now. -/
def Rows.lockedAmount (rows : Rows) (asset : AssetRef) (holder : Address) (height : Nat) : Nat :=
  let state : HolderState := (rows (.assetHolderState asset holder)).getD ({} : HolderState)
  if state.lockExpiresAt.any (· ≤ height) then 0 else state.frozenAmount

/-- How many holders an asset may have. -/
def Asset.holderCap (a : Asset) : Nat := min (a.maxHolders.getD maxAssetHolders) maxAssetHolders

/-- Whether someone may hold the asset. -/
def Rows.Eligible (rows : Rows) (a : Asset) (party : Address) (height : Nat) : Prop :=
  (Rwa.checkParty a party height).run rows.view = .ok ()

/-- **The gate**: one change of the balances of a regulated asset, from one state to the next. -/
structure Gated (height : Nat) (a : Asset) (s s' : Rows) : Prop where
  notFrozen : a.frozen = false
  rising : ∀ o, o ≠ a.issuer → s.balance a.assetRef o < s'.balance a.assetRef o →
    s.Eligible a o height ∧
      (∀ limit, a.maxBalancePerHolder = some limit → s'.balance a.assetRef o ≤ limit) ∧
      (s.balance a.assetRef o = 0 → a.holderCount < a.holderCap)
  falling : ∀ o, s'.balance a.assetRef o < s.balance a.assetRef o →
    s.Eligible a o height ∧ s.lockedAmount a.assetRef o height ≤ s'.balance a.assetRef o

/-- The next state and record in the middle of an action: balances of the asset were set, and of the
record only the supply and the count changed. -/
structure Continues (a : Asset) (s : Rows) (a' : Asset) (s' : Rows) : Prop where
  posted : ∃ balances : AssetBalanceUpdates, s' = s.post balances ∧ ∀ p ∈ balances, p.1.1 = a.assetRef
  record : a' = { a with totalSupply := a'.totalSupply, holderCount := a'.holderCount }

/-- **Gated changes one after the other**, and steps that change no balance. -/
inductive GatedPath (height : Nat) (a : Asset) (s : Rows) : Asset → Rows → Prop
  | refl : GatedPath height a s a s
  | idle {b b' : Asset} {t t' : Rows} (h : GatedPath height a s b t) (continues : Continues b t b' t')
      (same : t'.balance b.assetRef = t.balance b.assetRef) : GatedPath height a s b' t'
  | gated {b b' : Asset} {t t' : Rows} (h : GatedPath height a s b t) (continues : Continues b t b' t')
      (gate : Gated height b t t') : GatedPath height a s b' t'

section Gate

variable {rows s t : Rows} {a b : Asset} {balances : AssetBalanceUpdates} {holder : Address}
  {height amount : Nat}

theorem run_holderState {ε : Type} [Errors ε] (rows : Rows) (a : Asset) (holder : Address)
    (height : Nat) :
    ∃ state : HolderState, (Rwa.holderState a holder height : Read ε _).run rows.view = .ok state ∧
      state.frozenAmount = rows.lockedAmount a.assetRef holder height := by
  unfold Rwa.holderState Rows.lockedAmount
  have hraw : (Rwa.rawHolderState a.assetRef holder : Read ε _).run rows.view =
      .ok ((rows (.assetHolderState a.assetRef holder)).getD ({} : HolderState)) := rfl
  simp only [run_bind, hraw, Except.bind, run_ite]
  split
  · exact ⟨_, rfl, rfl⟩
  · exact ⟨_, rfl, rfl⟩

/-- Every row but the balances of assets. -/
def Key.isNoBalance (k : Key) : Prop := ∀ asset owner, k ≠ .assetBalance asset owner

theorem readsOnly_isAttested {ε : Type} [Errors ε] (party : Address) :
    (isAttested party : Read ε Bool).ReadsOnly Key.isNoBalance := by
  refine (Prog.readsOnly_read fun _ _ => nofun).bind fun entry => ?_
  cases entry with
  | none => trivial
  | some entry =>
    dsimp only
    split
    · trivial
    · split
      · exact (Prog.readsOnly_read fun _ _ => nofun).bind fun _ => Prog.readsOnly_pure
      · trivial

theorem readsOnly_holderState {ε : Type} [Errors ε] :
    (Rwa.holderState a holder height : Read ε _).ReadsOnly Key.isNoBalance := by
  refine Prog.ReadsOnly.bind ?_ fun state => ?_
  · exact (Prog.readsOnly_read fun _ _ => nofun).bind fun _ => Prog.readsOnly_pure
  · split <;> trivial

theorem readsOnly_claimProofLive {ε : Type} [Errors ε] (entry : Option AccountEntry)
    (state : HolderState) :
    (Rwa.claimProofLive holder entry state height : Read ε _).ReadsOnly Key.isNoBalance := by
  unfold Rwa.claimProofLive
  split
  · trivial
  · split
    · trivial
    · refine (readsOnly_isAttested holder).bind fun attested => ?_
      split
      · trivial
      · refine Prog.ReadsOnly.bind ?_ fun _ => Prog.readsOnly_pure
        exact (Prog.readsOnly_read fun _ _ => nofun).bind fun _ => Prog.readsOnly_pure

theorem readsOnly_checkClaims (entry : Option AccountEntry) :
    (Rwa.checkClaims a holder entry).ReadsOnly Key.isNoBalance := by
  unfold Rwa.checkClaims
  split
  · refine (readsOnly_isAttested holder).bind fun _ => Prog.readsOnly_ensure.bind fun _ => ?_
    dsimp only
    split <;> trivial
  · split
    · exact (readsOnly_isAttested holder).bind fun _ => Prog.readsOnly_ensure
    · trivial

theorem readsOnly_checkAge (entry : Option AccountEntry) :
    (Rwa.checkAge a holder entry height).ReadsOnly Key.isNoBalance := by
  unfold Rwa.checkAge
  split
  · trivial
  · split
    · trivial
    · exact Prog.readsOnly_ensure

/-- **Eligibility reads no balance.** -/
theorem readsOnly_checkParty : (Rwa.checkParty a holder height).ReadsOnly Key.isNoBalance := by
  unfold Rwa.checkParty
  refine (Prog.readsOnly_read fun _ _ => nofun).bind fun entry => ?_
  refine readsOnly_holderState.bind fun state => Prog.readsOnly_ensure.bind fun _ => ?_
  have hrest (proven : Bool) : (Rwa.checkPartyRest a holder height entry proven).ReadsOnly Key.isNoBalance := by
    unfold Rwa.checkPartyRest
    refine (readsOnly_checkAge entry).bind fun _ => ?_
    split
    · trivial
    · split
      · trivial
      · exact Prog.readsOnly_ensure
  dsimp only
  split
  · refine (readsOnly_claimProofLive entry state).bind fun proven => ?_
    split
    · exact (readsOnly_checkClaims entry).bind fun _ => hrest proven
    · exact hrest proven
  · exact (readsOnly_checkClaims entry).bind fun _ => hrest false

theorem eligible_post : (s.post balances).Eligible a holder height ↔ s.Eligible a holder height := by
  unfold Rows.Eligible
  rw [readsOnly_checkParty.run_eq fun k hk => ?_]
  exact congrArg Except.ok (Rows.post_apply_of_ne s balances hk)

theorem lockedAmount_post {asset : AssetRef} :
    (s.post balances).lockedAmount asset holder height = s.lockedAmount asset holder height := by
  unfold Rows.lockedAmount
  rw [Rows.post_apply_of_ne s balances (k := .assetHolderState asset holder) fun _ _ => nofun]

/-- What the recipient check asks for. -/
theorem run_checkRecipient {recipient : Address} {existing : Nat}
    (h : (Rwa.checkRecipient a recipient amount height).run rows.view = .ok existing) :
    rows.Eligible a recipient height ∧ (recipient ≠ a.issuer →
      (rows.balance a.assetRef recipient = 0 → 0 < amount → a.holderCount < a.holderCap) ∧
      ∀ limit, a.maxBalancePerHolder = some limit →
        rows.balance a.assetRef recipient + amount ≤ limit) := by
  obtain ⟨_, hparty, h⟩ := bind_ok.mp h
  refine ⟨hparty, fun hne => ?_⟩
  rw [Rows.run_balanceOf_bind] at h
  dsimp only at h
  rw [if_neg hne] at h
  obtain ⟨_, hcap, h⟩ := bind_ok.mp h
  have hcap := ensure_ok.mp hcap
  refine ⟨fun hzero hpos => ?_, fun limit hlimit => ?_⟩
  · simp only [hzero, hpos, decide_true, Bool.and_true, Bool.true_and, Bool.not_eq_true',
      decide_eq_false_iff_not, Nat.not_le] at hcap
    unfold Asset.holderCap
    cases hmax : a.maxHolders with
    | none => simpa [hmax] using hcap
    | some m => simpa [hmax] using hcap
  · rw [hlimit] at h
    obtain ⟨_, hcredit, h⟩ := bind_ok.mp h
    obtain ⟨-, rfl⟩ := Rwa.run_credit.mp hcredit
    obtain ⟨_, hle, -⟩ := bind_ok.mp h
    exact of_decide_eq_true (ensure_ok.mp hle)

/-- The count is all of a record that a balance changes. -/
theorem trackHolder_eq (who : Address) (before after : Nat) : Rwa.trackHolder a who before after =
    { a with holderCount := (Rwa.trackHolder a who before after).holderCount } := by
  unfold Rwa.trackHolder
  split
  · rfl
  · exact a.countHolder_eq _ _

theorem run_checkMove {sender recipient : Address}
    (h : (Rwa.checkMove a sender recipient amount height).run rows.view = .ok ()) :
    a.frozen = false ∧ rows.Eligible a sender height ∧
      (Rwa.checkRecipient a recipient amount height).run rows.view =
        .ok (rows.balance a.assetRef recipient) := by
  obtain ⟨_, hfrozen, h⟩ := bind_ok.mp h
  obtain ⟨_, hparty, h⟩ := bind_ok.mp h
  obtain ⟨_, hcheck, -⟩ := bind_ok.mp h
  obtain rfl := Rwa.balance_of_checkRecipient hcheck
  exact ⟨by simpa using ensure_ok.mp hfrozen, hparty, hcheck⟩

/-- Locked units stay put. -/
theorem locked_of_moveChecked {sender recipient : Address} {a' : Asset}
    (h : (Rwa.moveChecked a sender recipient amount height).run rows.view = .ok (a', balances)) :
    0 < amount → rows.lockedAmount a.assetRef sender height + amount ≤
      rows.balance a.assetRef sender := by
  intro hpos
  have hheld := (Rwa.run_applyForcedTransfer (Rwa.run_moveChecked h)).1
  obtain ⟨state, hstate, hlocked⟩ := run_holderState (ε := RwaError) rows a sender height
  unfold Rwa.moveChecked at h
  rw [run_bind, hstate] at h
  change Prog.run _ (if 0 < state.frozenAmount then _ else _) = _ at h
  split at h
  · rw [Rows.run_balanceOf_bind] at h
    obtain ⟨_, hfits, -⟩ := bind_ok.mp h
    have hfits := of_decide_eq_true (ensure_ok.mp hfits)
    omega
  · omega

/-- **A compliant move passes the gate.** -/
theorem gated_applyCompliantMove {sender recipient : Address} {a' : Asset}
    (h : (Rwa.applyCompliantMove a sender recipient amount height).run rows.view =
      .ok (a', balances)) :
    Continues a rows a' (rows.post balances) ∧ Gated height a rows (rows.post balances) := by
  obtain ⟨_, hcheck, hmove⟩ := bind_ok.mp h
  obtain ⟨hfrozen, hsender, hrecipient⟩ := run_checkMove hcheck
  obtain ⟨hparty, hlimits⟩ := run_checkRecipient hrecipient
  have hlocked := locked_of_moveChecked hmove
  obtain ⟨hheld, ⟨-, rfl, rfl⟩ | ⟨hne, -, ha', rfl⟩⟩ := Rwa.run_applyForcedTransfer (Rwa.run_moveChecked hmove)
  · exact ⟨⟨⟨[], rfl, by simp⟩, rfl⟩, hfrozen, fun o _ ho => absurd ho (lt_irrefl _),
      fun o ho => absurd ho (lt_irrefl _)⟩
  have hrecord : a' = { a with totalSupply := a'.totalSupply, holderCount := a'.holderCount } := by
    rw [ha', trackHolder_eq, trackHolder_eq]
  refine ⟨⟨⟨_, rfl, by simp⟩, hrecord⟩, hfrozen, fun o hissuer ho => ?_, fun o ho => ?_⟩
  all_goals rw [Rows.balance_post_pair] at ho ⊢
  · obtain rfl : o = recipient := by
      by_contra hor
      rw [Function.update_of_ne hor, Function.update_apply] at ho
      split at ho
      · rename_i hos
        rw [hos] at ho
        omega
      · exact lt_irrefl _ ho
    rw [Function.update_self] at ho ⊢
    obtain ⟨hcap, hlimit⟩ := hlimits hissuer
    exact ⟨hparty, hlimit, fun hzero => hcap hzero (by omega)⟩
  · obtain rfl : o = sender := by
      by_contra hos
      rw [Function.update_apply] at ho
      split at ho
      · rename_i hor
        rw [hor] at ho
        omega
      · rw [Function.update_of_ne hos] at ho
        exact lt_irrefl _ ho
    rw [Function.update_of_ne hne.symm, Function.update_self] at ho ⊢
    have := hlocked (by omega)
    exact ⟨hsender, by omega⟩

/-- **Issuance to a holder passes the gate.** -/
theorem gated_applyIssueTo {recipient : Address} {a' : Asset}
    (h : (Rwa.applyIssueTo a recipient amount height).run rows.view = .ok (a', balances)) :
    Continues a rows a' (rows.post balances) ∧ Gated height a rows (rows.post balances) := by
  obtain ⟨-, hfrozen, hcheck, -, -, ha', rfl⟩ := Rwa.run_applyIssueTo h
  obtain ⟨hparty, hlimits⟩ := run_checkRecipient hcheck
  have hrecord : a' = { a with totalSupply := a'.totalSupply, holderCount := a'.holderCount } := by
    rw [ha', trackHolder_eq]
  refine ⟨⟨⟨_, rfl, by simp⟩, hrecord⟩, hfrozen, fun o hissuer ho => ?_, fun o ho => ?_⟩
  all_goals rw [Rows.balance_post_single, Function.update_apply] at ho
  · split at ho
    · rename_i ho'
      subst ho'
      obtain ⟨hcap, hlimit⟩ := hlimits hissuer
      rw [Rows.balance_post_single, Function.update_self]
      exact ⟨hparty, hlimit, fun hzero => hcap hzero (by omega)⟩
    · exact absurd ho (lt_irrefl _)
  · split at ho
    · rename_i ho'
      subst ho'
      omega
    · exact absurd ho (lt_irrefl _)

end Gate

/-! ## Along a path -/

section Path

variable {rows s t : Rows} {a b : Asset} {height : Nat}

theorem GatedPath.continues (h : GatedPath height a s b t) : Continues a s b t := by
  have step : ∀ {b b' : Asset} {t t' : Rows}, Continues a s b t → Continues b t b' t' →
      Continues a s b' t' := by
    rintro b b' _ _ ⟨⟨balances, rfl, hown⟩, hb⟩ ⟨⟨more, rfl, hown'⟩, hb'⟩
    have hname : b.assetRef = a.assetRef := by rw [hb]
    refine ⟨⟨balances ++ more, (s.post_append _ _).symm, ?_⟩, ?_⟩
    · exact List.forall_mem_append.mpr ⟨hown, fun p hp => (hown' p hp).trans hname⟩
    · rw [hb', hb]
  induction h with
  | refl => exact ⟨⟨[], rfl, by simp⟩, rfl⟩
  | idle _ continues _ ih => exact step ih continues
  | gated _ continues _ ih => exact step ih continues

theorem Continues.assetRef_eq (h : Continues a s b t) : b.assetRef = a.assetRef := by
  rw [h.record]

/-- Who is eligible, and what is locked, is not changed on the way. -/
theorem Continues.eligible_iff (h : Continues a s b t) {party : Address} :
    t.Eligible b party height ↔ s.Eligible a party height := by
  obtain ⟨⟨balances, rfl, -⟩, hb⟩ := h
  rw [eligible_post, hb]
  rfl

theorem Continues.lockedAmount_eq (h : Continues a s b t) {asset : AssetRef} {holder : Address} :
    t.lockedAmount asset holder height = s.lockedAmount asset holder height := by
  obtain ⟨⟨balances, rfl, -⟩, -⟩ := h
  exact lockedAmount_post

/-- **A path that changes a balance has passed the gate**, so the asset is not frozen. -/
theorem GatedPath.notFrozen (h : GatedPath height a s b t) :
    t.balance a.assetRef = s.balance a.assetRef ∨ a.frozen = false := by
  induction h with
  | refl => exact .inl rfl
  | idle h _ same ih =>
    rw [h.continues.assetRef_eq] at same
    exact ih.imp_left same.trans
  | gated h _ gate _ =>
    refine .inr ?_
    have hfrozen := gate.notFrozen
    rwa [h.continues.record] at hfrozen

/-- Whoever has more at the end was let in, and ends within the limit. -/
theorem GatedPath.rising (h : GatedPath height a s b t) {o : Address} (ho : o ≠ a.issuer)
    (hrise : s.balance a.assetRef o < t.balance a.assetRef o) : s.Eligible a o height ∧
      ∀ limit, a.maxBalancePerHolder = some limit → t.balance a.assetRef o ≤ limit := by
  induction h with
  | refl => exact absurd hrise (lt_irrefl _)
  | idle h _ same ih =>
    rw [h.continues.assetRef_eq] at same
    rw [same] at hrise ⊢
    exact ih hrise
  | @gated b b' t t' h _ gate ih =>
    have hname := h.continues.assetRef_eq
    have hrecord := h.continues.record
    -- It rose in the last step, or it had risen before.
    by_cases hlast : t.balance a.assetRef o < t'.balance a.assetRef o
    · rw [← hname] at hlast
      obtain ⟨heligible, hlimit, -⟩ := gate.rising o (by rw [hrecord]; exact ho) hlast
      refine ⟨h.continues.eligible_iff.mp heligible, fun limit hl => hname ▸ hlimit limit ?_⟩
      rw [hrecord]
      exact hl
    · have hle := Nat.le_of_not_lt hlast
      obtain ⟨heligible, hlimit⟩ := ih (hrise.trans_le hle)
      exact ⟨heligible, fun limit hl => hle.trans (hlimit limit hl)⟩

/-- Whoever has less at the end may deal in the asset, and keeps what is locked. -/
theorem GatedPath.falling (h : GatedPath height a s b t) {o : Address}
    (hfall : t.balance a.assetRef o < s.balance a.assetRef o) : s.Eligible a o height ∧
      s.lockedAmount a.assetRef o height ≤ t.balance a.assetRef o := by
  induction h with
  | refl => exact absurd hfall (lt_irrefl _)
  | idle h _ same ih =>
    rw [h.continues.assetRef_eq] at same
    rw [same] at hfall ⊢
    exact ih hfall
  | @gated b b' t t' h _ gate ih =>
    have hname := h.continues.assetRef_eq
    by_cases hlast : t'.balance a.assetRef o < t.balance a.assetRef o
    · rw [← hname] at hlast
      obtain ⟨heligible, hlocked⟩ := gate.falling o hlast
      rw [h.continues.lockedAmount_eq, hname] at hlocked
      exact ⟨h.continues.eligible_iff.mp heligible, hlocked⟩
    · have hle := Nat.le_of_not_lt hlast
      obtain ⟨heligible, hlocked⟩ := ih (hle.trans_lt hfall)
      exact ⟨heligible, hlocked.trans hle⟩

end Path

/-! ## The corporate actions -/

namespace Rwa

section Corporate

variable [Crypto] {rows : Rows} {a a' : Asset} {balances : AssetBalanceUpdates} {height : Nat} {s : Staging}

/-- What is staged so far was reached through the gate. -/
def Staging.Passed (rows : Rows) (height : Nat) (a : Asset) (s : Staging) : Prop :=
  GatedPath height a rows s.asset (rows.post s.balances)

omit [Crypto] in
theorem Staging.passed_start : Staging.Passed rows height a { asset := a } := .refl

omit [Crypto] in
theorem Staging.Passed.settle {s' : Staging} {holder : Address} {moved : Asset × AssetBalanceUpdates}
    {numerator denominator : Nat}
    (hpassed : GatedPath height a rows moved.1 ((rows.post s.balances).post moved.2))
    (hrun : (s.settle holder moved numerator denominator height).run rows.view = .ok s') :
    s'.Passed rows height a := by
  obtain ⟨_, _, hrun⟩ := run_rest₂ hrun
  obtain rfl := Except.ok.inj hrun
  rw [Staging.Passed, Rows.post_append]
  exact hpassed

omit [Crypto] in
theorem passed_distributeOne {issuer : Address} {table : CapTable} {total : Nat}
    (h : s.Passed rows height a) (entry : Address × Nat) :
    (distributeOne issuer table total height s entry).Ensures rows.view
      (Staging.Passed rows height a) := by
  refine ensures_bind.mpr fun share _ => ?_
  refine ensures_ite.mpr ⟨fun _ => (ensures_ret _).mpr h, fun _ => ?_⟩
  refine ensures_bind.mpr (Prog.ensures_attempt.mpr ?_)
  rw [run_through]
  split
  · rename_i asset updates hmove
    refine (ensures_ret _).mpr ?_
    obtain ⟨hcontinues, hgate⟩ := gated_applyCompliantMove hmove
    rw [Staging.Passed, Rows.post_append]
    exact h.gated hcontinues hgate
  · exact ensures_ite.mpr ⟨fun _ => (ensures_ret _).mpr h,
      fun _ => (Prog.ensures_fail _).mpr trivial⟩

omit [Crypto] in
/-- A growing split takes nothing from anyone. -/
theorem passed_splitOne {numerator denominator : Nat} (hpos : 0 < denominator)
    (hgrow : denominator ≤ numerator) (h : s.Passed rows height a) (entry : Address × Nat) :
    (splitOne numerator denominator height s entry).Ensures rows.view
      (Staging.Passed rows height a) := by
  intro s' hs'
  obtain ⟨product, hproduct, hs'⟩ := bind_ok.mp hs'
  obtain ⟨-, rfl⟩ := checkedMul_eq_some.mp (orFail_ok.mp hproduct)
  dsimp only at hs'
  split at hs'
  · obtain ⟨moved, hmoved, hs'⟩ := bind_ok.mp hs'
    rw [run_through] at hmoved
    obtain ⟨hcontinues, hgate⟩ := gated_applyIssueTo hmoved
    exact .settle (h.gated hcontinues hgate) hs'
  · obtain ⟨moved, hmoved, hs'⟩ := bind_ok.mp hs'
    have hzero : entry.2 - entry.2 * numerator / denominator = 0 :=
      Nat.sub_eq_zero_of_le ((Nat.le_div_iff_mul_le hpos).mpr (Nat.mul_le_mul_left _ hgrow))
    rw [run_through, hzero] at hmoved
    obtain ⟨-, ⟨-, hasset, hbal⟩ | ⟨hne, -, hasset, hbal⟩⟩ := run_applyForcedTransfer hmoved
    · refine .settle ?_ hs'
      rw [hbal, hasset, Rows.post_nil]
      exact h
    · refine .settle (h.idle ⟨⟨_, rfl, by simp [hbal]⟩, ?_⟩ ?_) hs'
      · rw [hasset, trackHolder_eq, trackHolder_eq]
      · rw [hbal, Rows.balance_post_pair, Nat.sub_zero, Nat.add_zero, Function.update_eq_self,
          Function.update_eq_self]

theorem passed_applyDistribution {issuer : Address} {table : CapTable} {total : Nat}
    (h : (applyDistribution a issuer table total height).run rows.view = .ok (a', balances)) :
    ∃ b, GatedPath height a rows b (rows.post balances) := by
  obtain ⟨s, hs, h⟩ := bind_ok.mp h
  obtain ⟨_, hinto, h⟩ := bind_ok.mp h
  obtain rfl := run_intoUpdates hinto
  obtain ⟨rfl, rfl⟩ := Prod.mk.inj (Except.ok.inj h)
  exact ⟨_, ensures_foldlM (fun s entry hs => passed_distributeOne hs entry) _ _
    Staging.passed_start s hs⟩

theorem passed_applySplit {table : CapTable} {numerator denominator : Nat} (hpos : 0 < denominator)
    (hgrow : denominator ≤ numerator) {states : HolderStateUpdates}
    (h : (applySplit a table numerator denominator height).run rows.view =
      .ok (a', balances, states)) : ∃ b, GatedPath height a rows b (rows.post balances) := by
  obtain ⟨s, hs, h⟩ := bind_ok.mp h
  obtain ⟨_, hinto, h⟩ := bind_ok.mp h
  obtain rfl := run_intoUpdates hinto
  obtain ⟨rfl, rfl, -⟩ := pure_ok₃.mp h
  exact ⟨_, ensures_foldlM (fun s entry hs => passed_splitOne hpos hgrow hs entry) _ _
    Staging.passed_start s hs⟩

end Corporate

end Rwa

/-! ## Any action -/

/-- The actions that are not held to the gate: the issuer's own powers over what others hold, issuance
to itself and burning. -/
def ActionPayload.bypassesGate : ActionPayload → Bool
  | .issueAsset .. | .issuerForcedTransfer .. | .recoverHolder .. | .redeemHolders .. | .burnAsset .. => true
  | .splitAsset _ _ numerator denominator => numerator < denominator
  | _ => false

/-- **What any other action does to balances.** -/
inductive GateEffect (rows : Rows) (height : Nat) (u : BlockUpdates) : Prop
  | unmoved (assets : u.assets = [])
  | token (a : Asset) (record : u.assetRegistration = some a) (unregulated : a.assetClass = .token)
      (own : ∀ p ∈ u.assets, p.1.1 = a.assetRef)
  | path (a b : Asset) (stored : rows.asset a.assetRef = some a) (regulated : a.assetClass ≠ .token)
      (path : GatedPath height a rows b (rows.post u.assets))

namespace Runtime

section Handlers

variable [Crypto] {rows : Rows} {action : ChainAction} {u : BlockUpdates} {asset : AssetRef} {height : Nat}

theorem gate_dispatchToken {tokenAction : TokenAction}
    (h : (dispatchToken action tokenAction height).run rows.view = .ok u) :
    GateEffect rows height u := by
  cases tokenAction with
  | create symbol name decimals initialSupply maxSupply mintable =>
    obtain ⟨token, h⟩ := run_rest h
    obtain ⟨_, h⟩ := run_rest h
    obtain ⟨⟨a', accounts, assets⟩, hcreate, h⟩ := bind_ok.mp h
    obtain rfl := Except.ok.inj h
    obtain ⟨htoken, ⟨-, rfl⟩ | ⟨⟨_, _, hminted⟩, hname, hown⟩⟩ :=
      Token.mints_applyCreate (circuit_ok.mp hcreate)
    · exact .unmoved rfl
    · refine .token a' rfl ?_ (hname ▸ hown)
      rw [← htoken]
      exact congrArg (·.asset.assetClass) hminted.eq
  | mint token recipient amount =>
    obtain ⟨a, ha, h⟩ := bind_ok.mp h
    obtain ⟨⟨a', assets⟩, hmint, h⟩ := bind_ok.mp h
    obtain rfl := Except.ok.inj h
    obtain ⟨htoken, hposts⟩ := Token.posts_applyMint (circuit_ok.mp hmint)
    exact .token a' rfl (hposts.assetClass_eq.trans htoken) (hposts.assetRef_eq ▸ hposts.own)
  | transfer token recipient amount =>
    obtain ⟨a, ha, h⟩ := bind_ok.mp h
    obtain ⟨⟨a', assets⟩, hmove, h⟩ := bind_ok.mp h
    obtain rfl := Except.ok.inj h
    obtain ⟨htoken, hposts⟩ := Token.posts_applyTransfer (circuit_ok.mp hmove)
    exact .token a' rfl (hposts.assetClass_eq.trans htoken) (hposts.assetRef_eq ▸ hposts.own)
  | burn token amount =>
    obtain ⟨a, ha, h⟩ := bind_ok.mp h
    obtain ⟨⟨a', assets⟩, hburn, h⟩ := bind_ok.mp h
    obtain rfl := Except.ok.inj h
    obtain ⟨htoken, hposts⟩ := Token.posts_applyBurn (circuit_ok.mp hburn)
    exact .token a' rfl (hposts.assetClass_eq.trans htoken) (hposts.assetRef_eq ▸ hposts.own)
  | renounceMint token =>
    obtain ⟨a, ha, h⟩ := bind_ok.mp h
    obtain ⟨a', -, h⟩ := bind_ok.mp h
    obtain rfl := Except.ok.inj h
    exact .unmoved rfl

end Handlers

section Dispatch

variable [Crypto] [Wire ActionPayload] [Zk] [StateTrie] [Decode] {adjudicator : Adjudicator}
  {ctx : DispatchCtx} {rows : Rows} {action : ChainAction} {u : BlockUpdates}

/-- **Balances of regulated assets change through the gate only.** -/
theorem gate_dispatchInner (hnamed : rows.AssetsNamed) (hgate : action.payload.bypassesGate = false)
    (h : (dispatchInner adjudicator ctx action).run rows.view = .ok u) :
    GateEffect rows ctx.height u := by
  by_cases hmoves : action.payload.movesUnits = true
  swap
  · exact .unmoved ((yields_unmoved (Bool.eq_false_of_not_eq_true hmoves)).ensures _ u h)
  unfold dispatchInner at h
  cases hp : action.payload with
  | transferAsset =>
    rw [hp] at h
    obtain ⟨a, a', hrebooks, hmove⟩ := run_transferAsset hnamed h
    obtain ⟨hcontinues, hgate⟩ := gated_applyCompliantMove hmove
    exact .path a a' hrebooks.stored hrebooks.regulated (.gated .refl hcontinues hgate)
  | issueAssetTo =>
    rw [hp] at h
    obtain ⟨a, a', hrebooks, hissue⟩ := run_issueAssetTo hnamed h
    obtain ⟨hcontinues, hgate⟩ := gated_applyIssueTo hissue
    exact .path a a' hrebooks.stored hrebooks.regulated (.gated .refl hcontinues hgate)
  | distributeToHolders =>
    rw [hp] at h
    obtain ⟨payout, a', _, hrebooks, hpaid⟩ := run_distribute hnamed h
    obtain ⟨b, hpath⟩ := Rwa.passed_applyDistribution hpaid
    exact .path payout b hrebooks.stored hrebooks.regulated hpath
  | splitAsset =>
    rw [hp] at h hgate
    obtain ⟨hpos, a, a', _, hrebooks, hmoved⟩ := run_split hnamed h
    have hgrow := Nat.le_of_not_lt (of_decide_eq_false hgate)
    obtain ⟨b, hpath⟩ := Rwa.passed_applySplit hpos hgrow hmoved
    exact .path a b hrebooks.stored hrebooks.regulated hpath
  | token => rw [hp] at h; exact gate_dispatchToken h
  | issueAsset | issuerForcedTransfer | recoverHolder | redeemHolders | burnAsset =>
    rw [hp] at hgate
    cases hgate
  | _ =>
    rw [hp] at hmoves
    cases hmoves

end Dispatch

end Runtime

/-! ## Every applied action -/

/-- A regulated asset is there. -/
def Rows.Regulated (rows : Rows) (asset : AssetRef) : Prop :=
  ∃ a, rows.asset asset = some a ∧ a.assetClass ≠ .token

theorem AssetChange.named {action : ChainAction} {asset : AssetRef} {s s' : Rows}
    (h : AssetChange action asset s s') (hs : s.AssetsNamed) {a' : Asset}
    (ha' : s'.asset asset = some a') : a'.assetRef = asset := by
  cases h with
  | same record => exact hs asset a' (record ▸ ha')
  | registered a named _ record | launched _ a named _ record =>
    obtain rfl := Option.some.inj (record.symm.trans ha')
    exact named
  | posted a b D stored record entries =>
    obtain rfl := Option.some.inj (record.symm.trans ha')
    exact entries.assetRef_eq.trans (hs asset a stored)
  | handedOver a newIssuer _ stored _ record =>
    obtain rfl := Option.some.inj (record.symm.trans ha')
    exact hs asset a stored

section Runs

variable [Crypto] [Wire ActionPayload] [Zk] [StateTrie] [Decode] {s₀ s : Rows} {hist : List Applied}
  {e : Applied} {u : BlockUpdates}

/-- Records keep standing under their own references. -/
theorem AppliedRun.assetsNamed (h : AppliedRun SameAssets s₀ hist s) (hs : s₀.AssetsNamed) :
    ∀ e ∈ hist, (∃ u, e.Valid u) ∧ e.before.AssetsNamed := by
  refine h.induct_mem (I := Rows.AssetsNamed) hs (fun e u _ valid hnamed asset a ha => ?_)
    fun s s' hsame hnamed asset a ha => ?_
  · exact (valid.change hnamed asset).named hnamed ha
  · exact hnamed asset a (hsame.asset_eq asset ▸ ha)

theorem Applied.Valid.gate (h : e.Valid u) (hnamed : e.before.AssetsNamed)
    (hgate : e.action.payload.bypassesGate = false) {asset : AssetRef} (hreg : e.after.Regulated asset) :
    e.after.balance asset = e.before.balance asset ∨
      ∃ a b t, e.before.asset asset = some a ∧ a.assetRef = asset ∧
        GatedPath e.ctx.height a e.before b t ∧ t.balance asset = e.after.balance asset := by
  obtain ⟨inner, hinner, accounts, rfl⟩ := Runtime.run_dispatchWith h.ran
  have hgov : GovernanceRows inner.governance := (Runtime.yields_governanceRows.ensures _ inner hinner).1
  have hbalance : e.after.balance asset = (e.before.post inner.assets).balance asset := by
    rw [h.written]
    exact balance_apply (u := { inner with accounts := accounts }) hgov asset
  cases Runtime.gate_dispatchInner hnamed hgate hinner with
  | unmoved assets =>
    refine .inl ?_
    rw [hbalance, assets, Rows.post_nil]
  | token a record unregulated own =>
    have hrecord := asset_apply (s := e.before) (u := { inner with accounts := accounts }) hgov asset
    rw [← h.written] at hrecord
    dsimp only at hrecord
    rw [record] at hrecord
    by_cases ha : a.assetRef = asset
    · obtain ⟨a', ha', hclass⟩ := hreg
      obtain rfl := Option.some.inj ((hrecord.trans (if_pos ha)).symm.trans ha')
      exact absurd unregulated hclass
    · exact .inl (hbalance.trans (balance_post_other own ha))
  | path a b stored regulated path =>
    by_cases ha : a.assetRef = asset
    · exact .inr ⟨a, b, _, ha ▸ stored, ha, path, hbalance.symm⟩
    · obtain ⟨balances, hpost, hown⟩ := path.continues.posted
      rw [hpost] at hbalance
      exact .inl (hbalance.trans (balance_post_other hown ha))

end Runs

/-! ## A transfer on a small ledger -/

namespace SmallLedger

open PlainChain

attribute [local instance] crypto wire Plain.zk Plain.trie Plain.decoders

/-- Four units go to a holder. -/
def transfer : ChainAction := action 1 2 (.transferAsset bond (address 2) 4)

def transferred : Rows := issued.after (ctx 3) transfer

end SmallLedger

end Arxium
