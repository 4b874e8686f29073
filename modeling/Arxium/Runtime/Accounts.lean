import Arxium.Runtime.Stakes

/-!
# Runtime/Accounts — what an action does to accounts, its sender's and others'

An account's nonce and policy are its own: whatever an action, the seed or the seal of a block writes to
another account, these two stay (`AccountUpdates.Keeps`).  Its balance can be raised by anyone, and is
lowered by a slash, by the payments of the reward pool and the treasury, or by the correction of a
dispute.  The sender's own account comes out with the nonce the action named used up, once, whether the
handler or the runtime does it (`Runtime.Settles`).
-/

namespace Arxium

open ReadProg Writes

/-- The same nonce and policy. -/
structure AccountEntry.SameOwner (old new : AccountEntry) : Prop where
  nonce : new.nonce = old.nonce
  programmable : new.programmable = old.programmable

theorem AccountEntry.SameOwner.refl (e : AccountEntry) : e.SameOwner e := ⟨rfl, rfl⟩

/-- The same attestation, by the same attestor at the same height. -/
structure AccountEntry.SameAttestation (old new : AccountEntry) : Prop where
  identityHash : new.identityHash = old.identityHash
  attestedBy : new.attestedBy = old.attestedBy
  attestedAt : new.attestedAt = old.attestedAt

theorem AccountEntry.SameAttestation.refl (e : AccountEntry) : e.SameAttestation e := ⟨rfl, rfl, rfl⟩

theorem AccountEntry.SameAttestation.trans {e e' e'' : AccountEntry} (h : e.SameAttestation e')
    (h' : e'.SameAttestation e'') : e.SameAttestation e'' :=
  ⟨h'.identityHash.trans h.identityHash, h'.attestedBy.trans h.attestedBy,
    h'.attestedAt.trans h.attestedAt⟩

/-- Nothing but the balance differs. -/
def AccountEntry.Rebalanced (old new : AccountEntry) : Prop := ∃ b, new = { old with balance := b }

namespace AccountEntry.Rebalanced

variable {e e' e'' : AccountEntry}

theorem refl (e : AccountEntry) : e.Rebalanced e := ⟨e.balance, rfl⟩

theorem trans (h : e.Rebalanced e') (h' : e'.Rebalanced e'') : e.Rebalanced e'' := by
  obtain ⟨_, rfl⟩ := h
  obtain ⟨b, rfl⟩ := h'
  exact ⟨b, rfl⟩

theorem sameOwner (h : e.Rebalanced e') : e.SameOwner e' := by
  obtain ⟨_, rfl⟩ := h
  exact ⟨rfl, rfl⟩

theorem sameAttestation (h : e.Rebalanced e') : e.SameAttestation e' := by
  obtain ⟨_, rfl⟩ := h
  exact ⟨rfl, rfl, rfl⟩

end AccountEntry.Rebalanced

/-- A balance that is only added to; balances are 128 bits wide. -/
def Grows (b b' : Nat) : Prop := b ≤ u128Max → b ≤ b' ∧ b' ≤ u128Max

theorem Grows.refl (b : Nat) : Grows b b := fun h => ⟨le_rfl, h⟩

theorem grows_add {b x : Nat} (h : b + x ≤ u128Max) : Grows b (b + x) :=
  fun _ => ⟨Nat.le_add_right b x, h⟩

theorem grows_saturatingAdd (b x : Nat) : Grows b (saturatingAdd b x) := by
  intro h
  unfold saturatingAdd
  omega

/-- **Accounts other than one's own keep their nonce and policy**, and their balances change as `P`
allows. -/
def AccountUpdates.Keeps (rows : Rows) (own : Address → Prop) (P : Address → Nat → Nat → Prop)
    (accounts : AccountUpdates) : Prop :=
  ∀ x e, ¬ own x → accounts.get? x = some e →
    (rows.account x).SameOwner e ∧ P x (rows.account x).balance e.balance

namespace AccountUpdates

variable {rows : Rows} {own : Address → Prop} {P Q : Address → Nat → Nat → Prop} {accounts : AccountUpdates}

theorem keeps_nil : Keeps rows own P [] := fun _ _ _ h => by cases h

theorem Keeps.mono (h : Keeps rows own P accounts) (hPQ : ∀ x b b', P x b b' → Q x b b') :
    Keeps rows own Q accounts :=
  fun x e hx he => ⟨(h x e hx he).1, hPQ _ _ _ (h x e hx he).2⟩

/-- One more entry. -/
theorem Keeps.snoc (h : Keeps rows own P accounts) {x : Address} {e : AccountEntry}
    (he : ¬ own x → (rows.account x).SameOwner e ∧ P x (rows.account x).balance e.balance) :
    Keeps rows own P (accounts ++ [(x, e)]) := by
  intro y e' hy hget
  rw [Updates.get?_append] at hget
  by_cases hxy : x = y
  · subst hxy
    rw [show Updates.get? [(x, e)] x = some e by simp [Updates.get?], Option.some_or] at hget
    exact Option.some.inj hget ▸ he hy
  · rw [show Updates.get? [(x, e)] y = none by simp [Updates.get?, hxy], Option.none_or] at hget
    exact h y e' hy hget

theorem keeps_single {x : Address} {e : AccountEntry}
    (he : ¬ own x → (rows.account x).SameOwner e ∧ P x (rows.account x).balance e.balance) :
    Keeps rows own P [(x, e)] := keeps_nil.snoc he

end AccountUpdates

/-- Every other balance is only added to. -/
abbrev OnlyGrow : Address → Nat → Nat → Prop := fun _ => Grows

/-- Balances change in any way. -/
abbrev AnyChange : Address → Nat → Nat → Prop := fun _ _ _ => True

/-- **Only balances are written**, and they change as `P` allows. -/
def AccountUpdates.Rebalances (rows : Rows) (P : Address → Nat → Nat → Prop) (accounts : AccountUpdates) :
    Prop :=
  ∀ x e, accounts.get? x = some e →
    (rows.account x).Rebalanced e ∧ P x (rows.account x).balance e.balance

namespace AccountUpdates

variable {rows : Rows} {P Q : Address → Nat → Nat → Prop} {accounts : AccountUpdates}

theorem rebalances_nil : Rebalances rows P [] := fun _ _ h => by cases h

theorem Rebalances.mono (h : Rebalances rows P accounts) (hPQ : ∀ x b b', P x b b' → Q x b b') :
    Rebalances rows Q accounts :=
  fun x e he => ⟨(h x e he).1, hPQ _ _ _ (h x e he).2⟩

theorem Rebalances.keeps (h : Rebalances rows P accounts) {own : Address → Prop} :
    Keeps rows own P accounts :=
  fun x e _ he => ⟨(h x e he).1.sameOwner, (h x e he).2⟩

/-- One more entry. -/
theorem Rebalances.snoc (h : Rebalances rows P accounts) {x : Address} {e : AccountEntry}
    (he : (rows.account x).Rebalanced e) (hP : P x (rows.account x).balance e.balance) :
    Rebalances rows P (accounts ++ [(x, e)]) := by
  intro y e' hget
  rw [Updates.get?_append] at hget
  by_cases hxy : x = y
  · subst hxy
    rw [show Updates.get? [(x, e)] x = some e by simp [Updates.get?], Option.some_or] at hget
    exact Option.some.inj hget ▸ ⟨he, hP⟩
  · rw [show Updates.get? [(x, e)] y = none by simp [Updates.get?, hxy], Option.none_or] at hget
    exact h y e' hget

theorem rebalances_pair {x y : Address} {e e' : AccountEntry}
    (he : (rows.account x).Rebalanced e) (hP : P x (rows.account x).balance e.balance)
    (he' : (rows.account y).Rebalanced e') (hP' : P y (rows.account y).balance e'.balance) :
    Rebalances rows P [(x, e), (y, e')] := (rebalances_nil.snoc he hP).snoc he' hP'

/-- What is written last is the stored entry with another balance. -/
theorem Rebalances.latest (h : Rebalances rows P accounts) (x : Address) :
    (rows.account x).Rebalanced ((accounts.get? x).getD (rows.account x)) := by
  cases hget : accounts.get? x with
  | none => exact .refl _
  | some e => exact (h x e hget).1

/-- Updates made to the rows that earlier updates left. -/
theorem Rebalances.append {rows' : Rows} {accounts' : AccountUpdates}
    (h : Rebalances rows AnyChange accounts) (h' : Rebalances rows' AnyChange accounts')
    (hrows : ∀ x, rows'.account x = (accounts.get? x).getD (rows.account x)) :
    Rebalances rows AnyChange (accounts ++ accounts') := by
  intro x e hget
  rw [Updates.get?_append] at hget
  cases hlast : accounts'.get? x with
  | none =>
    rw [hlast, Option.none_or] at hget
    exact h x e hget
  | some e' =>
    rw [hlast, Option.some_or] at hget
    obtain rfl := Option.some.inj hget
    have hsame := (h' x e' hlast).1
    rw [hrows] at hsame
    exact ⟨(h.latest x).trans hsame, trivial⟩

end AccountUpdates

/-- The same policy, and a nonce that is as it was or was the one named and is used up. -/
def AccountEntry.Uses (old : AccountEntry) (nonce : Nat) (new : AccountEntry) : Prop :=
  new.programmable = old.programmable ∧
    (new.nonce = old.nonce ∨ nonce = old.nonce ∧ new.nonce = old.nonce + 1)

theorem AccountEntry.SameOwner.uses {old new : AccountEntry} (h : old.SameOwner new) (nonce : Nat) :
    old.Uses nonce new := ⟨h.programmable, .inl h.nonce⟩

/-- **A sender's updates**: its own account keeps its policy and uses up at most the nonce it named;
the accounts of others keep nonce and policy, and only gain. -/
structure AccountUpdates.ActsFor (rows : Rows) (sender : Address) (nonce : Nat)
    (accounts : AccountUpdates) : Prop where
  others : Keeps rows (· = sender) OnlyGrow accounts
  own : ∀ e, accounts.get? sender = some e → (rows.account sender).Uses nonce e

/-- …and every attestation stays as it is. -/
structure AccountUpdates.ActsPlainly (rows : Rows) (sender : Address) (nonce : Nat)
    (accounts : AccountUpdates) : Prop extends ActsFor rows sender nonce accounts where
  attested : ∀ x e, accounts.get? x = some e → (rows.account x).SameAttestation e

namespace AccountUpdates

variable {rows : Rows} {sender x : Address} {nonce : Nat} {e : AccountEntry} {accounts : AccountUpdates}

theorem actsPlainly_nil : ActsPlainly rows sender nonce [] :=
  ⟨⟨keeps_nil, fun _ h => by cases h⟩, fun _ _ h => by cases h⟩

theorem actsPlainly_own (h : (rows.account sender).Uses nonce e)
    (hattested : (rows.account sender).SameAttestation e) :
    ActsPlainly rows sender nonce [(sender, e)] := by
  refine ⟨⟨keeps_single fun hx => absurd rfl hx, fun e' he' => ?_⟩, fun x e' he' => ?_⟩
  · rw [show Updates.get? [(sender, e)] sender = some e by simp [Updates.get?]] at he'
    exact Option.some.inj he' ▸ h
  · by_cases hx : sender = x
    · subst hx
      rw [show Updates.get? [(sender, e)] sender = some e by simp [Updates.get?]] at he'
      exact Option.some.inj he' ▸ hattested
    · rw [show Updates.get? [(sender, e)] x = none by simp [Updates.get?, hx]] at he'
      cases he'

/-- An account credited last, be it the sender's. -/
theorem ActsPlainly.credit (h : ActsPlainly rows sender nonce accounts)
    (hsame : (rows.account x).Rebalanced e) (hgrows : Grows (rows.account x).balance e.balance) :
    ActsPlainly rows sender nonce (accounts ++ [(x, e)]) := by
  have hlast : ∀ y, Updates.get? (accounts ++ [(x, e)]) y = if x = y then some e else accounts.get? y := by
    intro y
    rw [Updates.get?_append]
    by_cases hy : x = y <;> simp [Updates.get?, hy]
  refine ⟨⟨h.others.snoc fun _ => ⟨hsame.sameOwner, hgrows⟩, fun e' he' => ?_⟩, fun y e' he' => ?_⟩
  · rw [hlast] at he'
    split at he'
    · next hx =>
      subst hx
      exact Option.some.inj he' ▸ hsame.sameOwner.uses nonce
    · exact h.own e' he'
  · rw [hlast] at he'
    split at he'
    · next hx =>
      subst hx
      exact Option.some.inj he' ▸ hsame.sameAttestation
    · exact h.attested y e' he'

theorem actsPlainly_pair {e' : AccountEntry} (h : (rows.account sender).Uses nonce e)
    (hattested : (rows.account sender).SameAttestation e) (hsame : (rows.account x).Rebalanced e')
    (hgrows : Grows (rows.account x).balance e'.balance) :
    ActsPlainly rows sender nonce [(sender, e), (x, e')] :=
  (actsPlainly_own h hattested).credit hsame hgrows

/-- What is no account's own is nobody's to use. -/
theorem Keeps.actsFor (h : Keeps rows (fun _ => False) OnlyGrow accounts) :
    ActsFor rows sender nonce accounts :=
  ⟨fun x e _ he => h x e not_false he, fun e he => (h sender e not_false he).1.uses nonce⟩

end AccountUpdates

/-! ## The circuits -/

section Circuits

open AccountUpdates

variable {rows : Rows} {accounts : AccountUpdates} {sender recipient validator : Address}
  {nonce amount height : Nat} {own : Address → Prop}

theorem actsPlainly_applyTransfer
    (h : (applyTransfer sender nonce recipient amount).run rows.view = .ok accounts) :
    ActsPlainly rows sender nonce accounts := by
  unfold applyTransfer at h
  replace h := run_next h rfl
  rw [run_ite] at h
  split at h
  · cases h
  rename_i hnonce
  have hnonce : nonce = (rows.account sender).nonce := not_not.mp hnonce
  rw [run_ite] at h
  split at h
  · cases h
  rw [run_ite] at h
  split at h
  · obtain ⟨_, hbump, h⟩ := bind_ok.mp h
    obtain ⟨-, rfl⟩ := run_addOrPanic64.mp hbump
    obtain rfl := Except.ok.inj h
    exact actsPlainly_own ⟨rfl, .inr ⟨hnonce, rfl⟩⟩ ⟨rfl, rfl, rfl⟩
  · replace h := run_next h rfl
    obtain ⟨_, hbump, h⟩ := bind_ok.mp h
    obtain ⟨-, rfl⟩ := run_addOrPanic64.mp hbump
    split at h
    · cases h
    · rename_i credited hcredited
      obtain ⟨hfits, rfl⟩ := checkedAdd_eq_some.mp hcredited
      obtain rfl := Except.ok.inj h
      exact actsPlainly_pair ⟨rfl, .inr ⟨hnonce, rfl⟩⟩ ⟨rfl, rfl, rfl⟩ ⟨_, rfl⟩ (grows_add hfits)

theorem actsPlainly_applyIssue {a a' : Asset} {balances : AssetBalanceUpdates}
    (h : (Rwa.applyIssue a sender nonce amount).run rows.view = .ok (a', accounts, balances)) :
    ActsPlainly rows sender nonce accounts := by
  obtain ⟨_, _, _, h⟩ := run_rest₃ h
  replace h := run_next h rfl
  obtain ⟨_, hnonce, h⟩ := bind_ok.mp h
  obtain ⟨_, hbump, h⟩ := bind_ok.mp h
  obtain ⟨-, rfl⟩ := run_addOrPanic64.mp hbump
  obtain ⟨_, _, h⟩ := run_rest₂ h
  obtain ⟨-, rfl, -⟩ := pure_ok₃.mp h
  exact actsPlainly_own ⟨rfl, .inr ⟨of_decide_eq_true (ensure_ok.mp hnonce), rfl⟩⟩
    ⟨rfl, rfl, rfl⟩

theorem actsPlainly_applyCompliantTransfer {a a' : Asset} {balances : AssetBalanceUpdates}
    (h : (Rwa.applyCompliantTransfer a sender nonce recipient amount height).run rows.view =
      .ok (a', accounts, balances)) : ActsPlainly rows sender nonce accounts := by
  obtain ⟨_, h⟩ := run_rest h
  replace h := run_next h rfl
  obtain ⟨_, hnonce, h⟩ := bind_ok.mp h
  obtain ⟨_, hbump, h⟩ := bind_ok.mp h
  obtain ⟨-, rfl⟩ := run_addOrPanic64.mp hbump
  obtain ⟨⟨asset, assets⟩, -, h⟩ := bind_ok.mp h
  obtain ⟨-, rfl, -⟩ := pure_ok₃.mp h
  exact actsPlainly_own ⟨rfl, .inr ⟨of_decide_eq_true (ensure_ok.mp hnonce), rfl⟩⟩
    ⟨rfl, rfl, rfl⟩

/-- **A grant writes what the attestor now vouches for.** -/
theorem run_applyGrantAttestation {attestor subject : Address} {hash : String}
    {topics : List ClaimTopic} {jurisdiction : Option CountryCode}
    (h : (applyGrantAttestation attestor subject hash topics jurisdiction height).run rows.view =
      .ok accounts) :
    ∃ verified topics', accounts = [(subject, { rows.account subject with
      zkIdentityVerified := verified, identityHash := some hash, attestedBy := some attestor,
      attestedAt := some height, claims := topics', jurisdiction := jurisdiction })] := by
  obtain ⟨_, _, h⟩ := run_rest₂ h
  dsimp only at h
  split at h
  · obtain ⟨_, h⟩ := run_rest h
    replace h := run_next h rfl
    exact ⟨_, _, (Except.ok.inj h).symm⟩
  · replace h := run_next h rfl
    exact ⟨_, _, (Except.ok.inj h).symm⟩

/-- **A revocation clears it**, but for the attestor's name. -/
theorem run_applyRevokeAttestation {attestor subject : Address}
    (h : (applyRevokeAttestation attestor subject).run rows.view = .ok accounts) :
    accounts = [(subject, { rows.account subject with
      identityHash := none, zkIdentityVerified := false, attestedAt := none, claims := [],
      jurisdiction := none })] := by
  obtain ⟨_, h⟩ := run_rest h
  replace h := run_next h rfl
  obtain ⟨entry, hentry, h⟩ := bind_ok.mp h
  obtain rfl : rows.account subject = entry :=
    congrArg (Option.getD · ({} : AccountEntry)) (orFail_ok.mp hentry)
  exact (Except.ok.inj h).symm

theorem ensures_orRejected {α : Type} {Q : Governance.Execution → Prop} {p : Read IdentityError α}
    {f : α → Read GovernanceError Governance.Execution} (hQ : Q {})
    (hf : ∀ a, (f a).Ensures rows.view Q) : (Governance.orRejected p f).Ensures rows.view Q := by
  refine ensures_bind.mpr (Prog.ensures_attempt.mpr ?_)
  cases p.run rows.view with
  | ok a => exact hf a
  | error e =>
    cases e with
    | panic => exact ensures_panic.mpr trivial
    | _ => exact (ensures_ret _).mpr hQ

variable [Crypto]

theorem actsPlainly_applyVerifyCredential [Zk] {proof : Bytes}
    (h : (applyVerifyCredential sender proof).run rows.view = .ok accounts) :
    ActsPlainly rows sender nonce accounts := by
  unfold applyVerifyCredential at h
  replace h := run_next h rfl
  obtain ⟨entry, hentry, h⟩ := bind_ok.mp h
  obtain rfl : rows.account sender = entry :=
    congrArg (Option.getD · ({} : AccountEntry)) (orFail_ok.mp hentry)
  obtain ⟨_, _, _, h⟩ := run_rest₃ h
  obtain ⟨_, _, _, h⟩ := run_rest₃ h
  obtain rfl := Except.ok.inj h
  exact actsPlainly_own ⟨rfl, .inl rfl⟩ ⟨rfl, rfl, rfl⟩

theorem actsPlainly_applyCreate {a a' : Asset} {fee : Nat} {balances : AssetBalanceUpdates}
    (h : (Token.applyCreate a amount fee).run rows.view = .ok (a', accounts, balances)) :
    ActsPlainly rows a.issuer nonce accounts := by
  obtain ⟨_, _, h⟩ := run_rest₂ h
  dsimp only at h
  split at h
  all_goals
    obtain ⟨_, h⟩ := run_rest h
    split at h
    · replace h := run_next h rfl
      obtain ⟨_, h⟩ := run_rest h
      replace h := run_next h rfl
      obtain ⟨-, rfl, -⟩ := pure_ok₃.mp h
      exact actsPlainly_pair ⟨rfl, .inl rfl⟩ ⟨rfl, rfl, rfl⟩ ⟨_, rfl⟩ (grows_saturatingAdd _ _)
    · obtain ⟨-, rfl, -⟩ := pure_ok₃.mp h
      exact actsPlainly_nil

theorem actsPlainly_applyAttestorApplication {applicant : Address} {name evidenceHash evidenceUri : String}
    {owners : List Address} {threshold : Nat} {ws : GovernanceUpdates}
    (h : (Governance.applyAttestorApplication applicant name owners threshold evidenceHash evidenceUri
      height).run rows.view = .ok (ws, accounts)) : ActsPlainly rows applicant nonce accounts := by
  unfold Governance.applyAttestorApplication at h
  obtain ⟨_, _, _, h⟩ := run_rest₃ h
  replace h := run_next h rfl
  obtain ⟨_, h⟩ := run_rest h
  replace h := run_next h rfl
  obtain ⟨_, h⟩ := run_rest h
  obtain ⟨-, rfl⟩ := pure_ok₂.mp h
  exact actsPlainly_pair ⟨rfl, .inl rfl⟩ ⟨rfl, rfl, rfl⟩ ⟨_, rfl⟩ (grows_saturatingAdd _ _)

/-- The accounts whose balances a resolution of a dispute sets. -/
def GovernanceAction.Corrects (action : GovernanceAction) (x : Address) : Prop :=
  ∃ height header resolution corrections cause bounty,
    action = .resolveDispute height header resolution corrections cause bounty ∧
      x ∈ corrections.map Prod.fst

/-- How the payments of a proposal change others' balances: the treasury pays, an executed correction
sets, and whoever else is paid only gains. -/
def Proposal.Pays (proposal : Proposal) (executed : Bool) (x : Address) (b b' : Nat) : Prop :=
  x = treasuryAccount ∨ (executed = true ∧ proposal.action.Corrects x) ∨ Grows b b'

/-- A proposal with its vote closed. -/
def Proposal.closed (proposal : Proposal) (executed : Bool) : Proposal :=
  { proposal with status := if executed then .executed else .rejected }

/-- What a payment out of the treasury does: the payee's balance only grows. -/
theorem rebalances_payment {P : Address → Nat → Nat → Prop} (hP : ∀ x b b', x = treasuryAccount ∨ Grows b b' → P x b b')
    {payee : Address} {left paid : Nat} :
    Rebalances rows P [(treasuryAccount, { rows.account treasuryAccount with balance := left }),
      (payee, { rows.account payee with
        balance := saturatingAdd (rows.account payee).balance paid })] :=
  rebalances_pair ⟨_, rfl⟩ (hP _ _ _ (.inl rfl)) ⟨_, rfl⟩ (hP _ _ _ (.inr (grows_saturatingAdd _ _)))

omit [Crypto] in
theorem rebalances_correctOne {P : Address → Nat → Nat → Prop} {correction : Address × Nat}
    (hP : ∀ b b', P correction.1 b b') (h : Rebalances rows P accounts) :
    (Governance.correctOne accounts correction).Ensures rows.view (Rebalances rows P) := by
  intro after hafter
  unfold Governance.correctOne at hafter
  split at hafter
  · rename_i e he
    replace hafter := run_next hafter rfl
    obtain rfl := Except.ok.inj hafter
    refine h.snoc ?_ (hP _ _)
    have hlatest := h.latest correction.1
    rw [he] at hlatest
    exact hlatest.trans ⟨_, rfl⟩
  · replace hafter := run_next hafter rfl
    obtain rfl := Except.ok.inj hafter
    exact h.snoc ⟨_, rfl⟩ (hP _ _)

omit [Crypto] in
/-- The corrections, one after the other. -/
theorem rebalances_corrections {P : Address → Nat → Nat → Prop} {corrections : List (Address × Nat)}
    (hP : ∀ c ∈ corrections, ∀ b b', P c.1 b b') (h : Rebalances rows P accounts) :
    (corrections.foldlM Governance.correctOne accounts).Ensures rows.view (Rebalances rows P) := by
  induction corrections generalizing accounts with
  | nil => exact (ensures_ret _).mpr h
  | cons c rest ih =>
    rw [List.foldlM_cons]
    refine ensures_bind.mpr fun next hnext => ih (fun c' hc' => hP c' (List.mem_cons_of_mem c hc')) ?_
    exact rebalances_correctOne (hP c List.mem_cons_self) h next hnext

theorem rebalances_payBounty {P : Address → Nat → Nat → Prop}
    (hP : ∀ x b b', x = treasuryAccount ∨ Grows b b' → P x b b') {challenger : Address} {bounty : Nat}
    (h : (Governance.payBounty challenger bounty).run rows.view = .ok (some accounts)) :
    Rebalances rows P accounts := by
  unfold Governance.payBounty at h
  rw [run_ite] at h
  split at h
  · obtain rfl := Option.some.inj (Except.ok.inj h)
    exact rebalances_nil
  · replace h := run_next h rfl
    split at h
    · cases h
    · rw [run_ite] at h
      split at h
      · cases h
      · replace h := run_next h rfl
        obtain rfl := Option.some.inj (Except.ok.inj h)
        exact rebalances_payment hP

/-- **What an executed proposal pays**: out of the treasury, and what the corrections say. -/
theorem rebalances_executeAction (proposal : Proposal) :
    (Governance.executeAction proposal height).Ensures rows.view fun r =>
      Rebalances rows (proposal.Pays r.executed) r.accounts := by
  have hpay : ∀ (executed : Bool) (x : Address) (b b' : Nat), x = treasuryAccount ∨ Grows b b' →
      proposal.Pays executed x b b' := fun _ _ _ _ h => h.imp_right .inr
  unfold Governance.executeAction
  cases hact : proposal.action with
  | setChainParams params =>
    refine ensures_bind.mpr fun _ _ => ensures_ite.mpr ⟨fun _ => ?_, fun _ => ?_⟩
    all_goals exact (ensures_ret _).mpr rebalances_nil
  | addAttestor =>
    refine ensures_orRejected rebalances_nil fun a => ensures_bind.mpr fun accounts haccounts => ?_
    refine (ensures_ret _).mpr ?_
    unfold Governance.refundBond at haccounts
    rw [run_ite] at haccounts
    split at haccounts
    · obtain rfl := Except.ok.inj haccounts
      exact rebalances_nil
    · replace haccounts := run_next haccounts rfl
      replace haccounts := run_next haccounts rfl
      obtain rfl := Except.ok.inj haccounts
      exact rebalances_payment (hpay _)
  | removeAttestor => exact ensures_orRejected rebalances_nil fun a => (ensures_ret _).mpr rebalances_nil
  | unblockAttestor => exact ensures_orRejected rebalances_nil fun a => (ensures_ret _).mpr rebalances_nil
  | treasurySpend recipient amount =>
    intro r hr
    replace hr := run_next hr rfl
    dsimp only at hr
    split at hr
    · obtain rfl := Except.ok.inj hr
      exact rebalances_nil
    · split at hr
      · obtain rfl := Except.ok.inj hr
        exact rebalances_nil
      · replace hr := run_next hr rfl
        obtain rfl := Except.ok.inj hr
        exact rebalances_payment (hpay _)
  | resolveDispute disputed header resolution corrections cause bounty =>
    intro r hr
    obtain ⟨row, hr⟩ := run_rest hr
    split at hr
    · obtain rfl := Except.ok.inj hr
      exact rebalances_nil
    · rw [run_ite] at hr
      split at hr
      · obtain rfl := Except.ok.inj hr
        exact rebalances_nil
      · obtain ⟨paid, hpaid, hr⟩ := bind_ok.mp hr
        split at hr
        · obtain rfl := Except.ok.inj hr
          exact rebalances_nil
        · rename_i accounts
          obtain ⟨after, hafter, hr⟩ := bind_ok.mp hr
          obtain rfl := Except.ok.inj hr
          refine rebalances_corrections (fun c hc b b' => ?_) ?_ _ hafter
          · exact .inr (.inl ⟨rfl, _, _, _, _, _, _, hact, List.mem_map_of_mem hc⟩)
          · exact rebalances_payBounty (hpay _) hpaid
  | reinstateValidator =>
    refine ensures_bind.mpr fun _ _ => ensures_ite.mpr ⟨fun _ => ?_, fun _ => ?_⟩
    all_goals exact (ensures_ret _).mpr rebalances_nil

theorem actsPlainly_applyStake {stakes : StakeUpdates}
    (h : (applyStake sender nonce validator amount height).run rows.view = .ok (accounts, stakes)) :
    ActsPlainly rows sender nonce accounts := by
  have hstakes := run_applyStake h
  rw [hstakes.accounts]
  exact actsPlainly_pair ⟨rfl, .inr ⟨hstakes.next, rfl⟩⟩ ⟨rfl, rfl, rfl⟩ ⟨_, rfl⟩ (grows_add hstakes.fits)

omit [Crypto] in
theorem actsPlainly_applyUnstake {unbondingBlocks : Nat} {stakes : StakeUpdates}
    (h : (applyUnstake sender nonce validator amount height unbondingBlocks).run rows.view =
      .ok (accounts, stakes)) : ActsPlainly rows sender nonce accounts := by
  obtain ⟨_, -, hnonce, -, -, -, rfl, -⟩ := run_applyUnstake h
  exact actsPlainly_own ⟨rfl, .inr ⟨hnonce, rfl⟩⟩ ⟨rfl, rfl, rfl⟩

theorem rebalances_applySlash {reason : SlashReason} {stakes : StakeUpdates}
    (h : (applySlash validator amount reason height).run rows.view = .ok (accounts, stakes)) :
    Rebalances rows AnyChange accounts := by
  obtain ⟨_, _, hslashes⟩ := run_applySlash h
  rw [hslashes.accounts]
  exact rebalances_pair ⟨_, rfl⟩ trivial ⟨_, rfl⟩ trivial

end Circuits

/-! ## The handlers -/

/-- The actions that may leave others poorer: evidence, and the execution of a proposal. -/
def ActionPayload.mayDebit : ActionPayload → Bool
  | .submitEquivocationEvidence .. | .submitExecutionFault .. | .executeProposal .. => true
  | _ => false

/-- The payloads whose handlers touch allocations. -/
def ActionPayload.movesStake : ActionPayload → Bool
  | .joinValidator .. | .leaveValidator .. | .stake .. | .unstake .. | .submitEquivocationEvidence ..
  | .submitExecutionFault .. | .executeProposal .. => true
  | _ => false

/-- The account whose attestation an action gives or takes. -/
def ActionPayload.attests : ActionPayload → Option Address
  | .grantAttestation subject .. | .revokeAttestation subject .. => some subject
  | _ => none

namespace Runtime

open AccountUpdates

variable [Crypto] {rows : Rows} {u : BlockUpdates} {own : Address → Prop}

/-- What a challenger is paid comes out of the reward pool. -/
theorem run_payChallenger {challenger : Address} {accounts paid : AccountUpdates} {rewardBps : Nat}
    (h : (payChallenger challenger accounts rewardBps).run rows.view = .ok paid) :
    paid = accounts ∨ ∃ pool debited entry left reward, accounts.get? rewardPoolAccount = some pool ∧
      debited = accounts ++ [(rewardPoolAccount, { pool with balance := left })] ∧
      entry = (debited.get? challenger).getD (rows.account challenger) ∧
      entry.balance + reward ≤ u128Max ∧
      paid = debited ++ [(challenger, { entry with balance := entry.balance + reward })] := by
  obtain ⟨_, h⟩ := run_rest h
  obtain ⟨pool, hpool, h⟩ := bind_ok.mp h
  obtain ⟨_, h⟩ := run_rest h
  obtain ⟨reward, h⟩ := run_rest h
  rw [run_ite] at h
  split at h
  · exact .inl (Except.ok.inj h).symm
  obtain ⟨left, h⟩ := run_rest h
  replace h := run_next h (run_overlayAccount _ _)
  obtain ⟨_, hbalance, h⟩ := bind_ok.mp h
  obtain ⟨hfits, rfl⟩ := checkedAdd_eq_some.mp (orFail_ok.mp hbalance)
  exact .inr ⟨pool, _, _, left, reward, orFail_ok.mp hpool, rfl, rfl, hfits,
    (Except.ok.inj h).symm⟩

/-- A fault's slash is one of the staking circuit, its challenger paid, or nothing. -/
theorem run_faultSlash {culprit challenger : Address} {reason : SlashReason} {height : Nat}
    (h : (faultSlash culprit reason height challenger).run rows.view = .ok u) :
    (u.accounts = [] ∧ u.stakes = {}) ∨ ∃ amount accounts rewardBps,
      (applySlash culprit amount reason height).run rows.view = .ok (accounts, u.stakes) ∧
      (payChallenger challenger accounts rewardBps).run rows.view = .ok u.accounts := by
  unfold faultSlash at h
  obtain ⟨_, h⟩ := run_rest h
  rw [run_ite] at h
  split at h
  · obtain rfl := Except.ok.inj h
    exact .inl ⟨rfl, rfl⟩
  obtain ⟨_, _, _, h⟩ := run_rest₃ h
  obtain ⟨_, _, h⟩ := run_rest₂ h
  obtain ⟨_, _, h⟩ := run_rest₂ h
  obtain ⟨⟨accounts, stakes⟩, hslash, h⟩ := bind_ok.mp h
  obtain ⟨paid, hpaid, h⟩ := bind_ok.mp h
  obtain rfl := Except.ok.inj h
  exact .inr ⟨_, accounts, _, circuit_ok.mp hslash, hpaid⟩

theorem rebalances_faultSlash {culprit challenger : Address} {reason : SlashReason} {height : Nat}
    (h : (faultSlash culprit reason height challenger).run rows.view = .ok u) :
    Rebalances rows AnyChange u.accounts := by
  obtain ⟨hnone, -⟩ | ⟨amount, accounts, rewardBps, hslash, hpaid⟩ := run_faultSlash h
  · rw [hnone]
    exact rebalances_nil
  have hkeeps := rebalances_applySlash hslash
  obtain hsame | ⟨pool, debited, entry, left, reward, hpool, rfl, rfl, -, hpaid⟩ := run_payChallenger hpaid
  · rwa [hsame]
  · have hdebited := hkeeps.snoc ((hkeeps _ _ hpool).1.trans ⟨left, rfl⟩) trivial
    rw [hpaid]
    exact hdebited.snoc ((hdebited.latest challenger).trans ⟨_, rfl⟩) trivial

/-- **What closing a proposal pays is what its action pays**, and the last row it writes is the
proposal's own. -/
theorem run_applyExecute {id height : Nat} {result : Governance.Execution}
    (h : (Governance.applyExecute id height).run rows.view = .ok result) :
    ∃ proposal : Proposal, rows (.proposal id) = some proposal ∧
      Rebalances rows (proposal.Pays result.executed) result.accounts ∧
      lookup result.rows (.proposal id) = some (some (proposal.closed result.executed)) := by
  obtain ⟨proposal, hproposal, h⟩ := bind_ok.mp h
  replace hproposal := run_next hproposal rfl
  refine ⟨proposal, orFail_ok.mp hproposal, ?_⟩
  obtain ⟨_, _, _, h⟩ := run_rest₃ h
  obtain ⟨passed, hpassed, h⟩ := bind_ok.mp h
  obtain ⟨closing, h⟩ := run_rest h
  obtain rfl := Except.ok.inj h
  constructor
  · unfold Governance.executePassed at hpassed
    dsimp only at hpassed
    rw [run_ite] at hpassed
    split at hpassed
    · exact rebalances_executeAction proposal passed hpassed
    · obtain rfl := Except.ok.inj hpassed
      exact rebalances_nil
  · rw [lookup_append, lookup_cons, lookup_nil, Option.none_or]
    exact congrArg (Option.or · _) (put_effect_self _ _)

theorem rebalances_executeProposal {id height : Nat}
    (h : (executeProposal id height).run rows.view = .ok u) : Rebalances rows AnyChange u.accounts := by
  obtain ⟨result, hresult, h⟩ := bind_ok.mp h
  obtain ⟨proposal, -, hkeeps, -⟩ := run_applyExecute (circuit_ok.mp hresult)
  have hkeeps : Rebalances rows AnyChange result.accounts := hkeeps.mono fun _ _ _ _ => trivial
  dsimp only at h
  split at h
  · obtain rfl := Except.ok.inj h
    exact hkeeps
  · obtain ⟨slashed, hslashed, h⟩ := bind_ok.mp h
    rw [run_attempt] at hslashed
    obtain rfl := Except.ok.inj hslashed
    split at h
    · rename_i slashed hslash
      obtain rfl := Except.ok.inj h
      have hkept : Rebalances rows AnyChange slashed.accounts := rebalances_faultSlash hslash
      exact hkept
    · cases h
    · obtain rfl := Except.ok.inj h
      exact hkeeps

section Dispatch

variable [Wire ActionPayload] [Zk] [StateTrie] [Decode] {adjudicator : Adjudicator} {ctx : DispatchCtx}
  {action : ChainAction}

omit [Wire ActionPayload] [Zk] [StateTrie] [Decode] in
theorem issuer_newToken {sender : Address} {symbol name : String} {decimals height : Nat}
    {maxSupply : Option Nat} {mintable : Bool} {token : Asset}
    (h : (newToken sender symbol name decimals maxSupply mintable height).run rows.view = .ok token) :
    token.issuer = sender := by
  obtain ⟨_, _, h⟩ := run_rest₂ h
  obtain ⟨_, _, h⟩ := run_rest₂ h
  obtain rfl := Except.ok.inj h
  rfl

/-- **How an action moves stake**: through the staking circuit, as a slash, or by closing a vote. -/
inductive StakeMove (rows : Rows) (ctx : DispatchCtx) (action : ChainAction) (u : BlockUpdates) : Prop
  | stake {validator : Address} {amount : Nat} (ordinary : action.payload.mayDebit = false)
      (run : (applyStake action.sender action.nonce validator amount ctx.height).run rows.view =
        .ok (u.accounts, u.stakes))
  | unstake {master validator : Address} {nonce amount blocks : Nat} {accounts : AccountUpdates}
      (ordinary : action.payload.mayDebit = false)
      (run : (applyUnstake master nonce validator amount ctx.height blocks).run rows.view =
        .ok (accounts, u.stakes))
      (own : (master = action.sender ∧ nonce = action.nonce ∧ u.accounts = accounts) ∨ u.accounts = [])
  | slash {culprit : Address} {reason : SlashReason} {slashed : BlockUpdates}
      (debits : action.payload.mayDebit = true)
      (run : (faultSlash culprit reason ctx.height action.sender).run rows.view = .ok slashed)
      (accounts : u.accounts = slashed.accounts) (stakes : u.stakes = slashed.stakes)
  | disputed (debits : action.payload.mayDebit = true) (accounts : u.accounts = [])
      (stakes : u.stakes = {})
  | vote {id : Nat} (payload : action.payload = .executeProposal id)
      (run : (executeProposal id ctx.height).run rows.view = .ok u)

theorem run_movesStake (hp : action.payload.movesStake = true)
    (h : (dispatchInner adjudicator ctx action).run rows.view = .ok u) :
    StakeMove rows ctx action u := by
  unfold dispatchInner at h
  cases hpay : action.payload with
  | joinValidator =>
    rw [hpay] at h
    obtain ⟨_, _, _, h⟩ := run_rest₃ h
    obtain ⟨_, _, h⟩ := run_rest₂ h
    obtain ⟨⟨accounts, stakes⟩, hstake, h⟩ := bind_ok.mp h
    obtain ⟨_, _, h⟩ := run_rest₂ h
    obtain rfl := Except.ok.inj h
    exact .stake (by rw [hpay]; rfl) (circuit_ok.mp hstake)
  | stake =>
    rw [hpay] at h
    obtain ⟨_, h⟩ := run_rest h
    obtain ⟨⟨accounts, stakes⟩, hstake, h⟩ := bind_ok.mp h
    obtain rfl := Except.ok.inj h
    exact .stake (by rw [hpay]; rfl) (circuit_ok.mp hstake)
  | leaveValidator =>
    rw [hpay] at h
    obtain ⟨_, _, _, h⟩ := run_rest₃ h
    obtain ⟨masters, h⟩ := run_rest h
    obtain ⟨_, _, h⟩ := run_rest₂ h
    obtain ⟨_, hnonce, h⟩ := bind_ok.mp h
    obtain ⟨_, h⟩ := run_rest h
    obtain ⟨⟨accounts, stakes⟩, hunstake, h⟩ := bind_ok.mp h
    obtain ⟨_, h⟩ := run_rest h
    obtain rfl := Except.ok.inj h
    refine .unstake (by rw [hpay]; rfl) (circuit_ok.mp hunstake) ?_
    by_cases hmaster : masters.head?.getD action.sender = action.sender
    · unfold masterNonce at hnonce
      rw [run_ite, if_pos hmaster] at hnonce
      exact .inl ⟨hmaster, (Except.ok.inj hnonce).symm, if_pos hmaster⟩
    · exact .inr (if_neg hmaster)
  | unstake =>
    rw [hpay] at h
    obtain ⟨_, h⟩ := run_rest h
    obtain ⟨⟨accounts, stakes⟩, hunstake, h⟩ := bind_ok.mp h
    obtain ⟨_, h⟩ := run_rest h
    obtain rfl := Except.ok.inj h
    exact .unstake (by rw [hpay]; rfl) (circuit_ok.mp hunstake) (.inl ⟨rfl, rfl, rfl⟩)
  | submitEquivocationEvidence blockA blockB =>
    rw [hpay] at h
    obtain ⟨_, _, _, h⟩ := run_rest₃ h
    obtain ⟨_, _, h⟩ := run_rest₂ h
    obtain ⟨slashed, hslash, h⟩ := bind_ok.mp h
    obtain rfl := Except.ok.inj h
    exact .slash (by rw [hpay]; rfl) hslash rfl rfl
  | submitExecutionFault artifact =>
    rw [hpay] at h
    obtain ⟨_, _, _, h⟩ := run_rest₃ h
    obtain ⟨_, _, _, h⟩ := run_rest₃ h
    obtain ⟨_, _, h⟩ := run_rest₂ h
    obtain ⟨_, _, h⟩ := run_rest₂ h
    obtain ⟨slashed, hslash, h⟩ := bind_ok.mp h
    obtain rfl := Except.ok.inj h
    unfold slashUnlessDisputed at hslash
    split at hslash
    · obtain rfl := Except.ok.inj hslash
      exact .disputed (by rw [hpay]; rfl) rfl rfl
    · exact .slash (by rw [hpay]; rfl) hslash rfl rfl
  | executeProposal id =>
    rw [hpay] at h
    exact .vote hpay h
  | _ =>
    rw [hpay] at hp
    cases hp

/-- **An ordinary action acts for its sender**, and leaves all attestations alone. -/
theorem actsPlainly_dispatchInner (hp : action.payload.mayDebit = false)
    (hpolicy : ∀ p, action.payload ≠ .accountPolicy p) (hattests : action.payload.attests = none)
    (h : (dispatchInner adjudicator ctx action).run rows.view = .ok u) :
    ActsPlainly rows action.sender action.nonce u.accounts := by
  have hnone : ∀ {p : Read Err BlockUpdates}, p.Yields (fun u => u.accounts = []) →
      p.run rows.view = .ok u → ActsPlainly rows action.sender action.nonce u.accounts := by
    intro p hy hrun
    rw [hy.ensures _ u hrun]
    exact actsPlainly_nil
  by_cases hmoves : action.payload.movesStake = true
  · cases run_movesStake hmoves h with
    | stake _ run => exact actsPlainly_applyStake run
    | unstake _ run own =>
      obtain ⟨rfl, rfl, haccounts⟩ | haccounts := own
      · rw [haccounts]
        exact actsPlainly_applyUnstake run
      · rw [haccounts]
        exact actsPlainly_nil
    | slash debits | disputed debits => cases hp.symm.trans debits
    | vote payload =>
      rw [payload] at hp
      cases hp
  unfold dispatchInner at h
  cases hpay : action.payload with
  | submitEquivocationEvidence | submitExecutionFault | executeProposal | joinValidator | stake
  | leaveValidator | unstake =>
    rw [hpay] at hmoves
    exact absurd rfl hmoves
  | accountPolicy => exact absurd hpay (hpolicy _)
  | transfer =>
    rw [hpay] at h
    obtain ⟨_, haccounts, h⟩ := bind_ok.mp h
    obtain rfl := Except.ok.inj h
    exact actsPlainly_applyTransfer (circuit_ok.mp haccounts)
  | verifyIdentityCredential =>
    rw [hpay] at h
    obtain ⟨_, haccounts, h⟩ := bind_ok.mp h
    obtain rfl := Except.ok.inj h
    exact actsPlainly_applyVerifyCredential (circuit_ok.mp haccounts)
  | grantAttestation | revokeAttestation =>
    rw [hpay] at hattests
    cases hattests
  | issueAsset =>
    rw [hpay] at h
    obtain ⟨_, h⟩ := run_rest h
    obtain ⟨⟨a', accounts, assets⟩, hissue, h⟩ := bind_ok.mp h
    obtain rfl := Except.ok.inj h
    exact actsPlainly_applyIssue (circuit_ok.mp hissue)
  | transferAsset =>
    rw [hpay] at h
    obtain ⟨_, h⟩ := run_rest h
    obtain ⟨⟨a', accounts, assets⟩, hmove, h⟩ := bind_ok.mp h
    obtain rfl := Except.ok.inj h
    exact actsPlainly_applyCompliantTransfer (circuit_ok.mp hmove)
  | token t =>
    rw [hpay] at h
    cases t with
    | create =>
      obtain ⟨token, htoken, h⟩ := bind_ok.mp h
      obtain ⟨_, h⟩ := run_rest h
      obtain ⟨⟨a', accounts, assets⟩, hcreate, h⟩ := bind_ok.mp h
      obtain rfl := Except.ok.inj h
      rw [← issuer_newToken htoken]
      exact actsPlainly_applyCreate (circuit_ok.mp hcreate)
    | _ =>
      refine hnone ?_ h
      repeat (first | exact rfl | refine yields_after fun _ => ?_)
  | applyAttestor =>
    rw [hpay] at h
    obtain ⟨⟨rows, accounts⟩, happly, h⟩ := bind_ok.mp h
    obtain rfl := Except.ok.inj h
    exact actsPlainly_applyAttestorApplication (circuit_ok.mp happly)
  | _ =>
    rw [hpay] at h
    refine hnone ?_ h
    repeat (first | exact rfl | refine yields_after fun _ => ?_)

/-- **What giving or taking an attestation writes** is its subject's account, nonce and policy left. -/
theorem run_attests {subject : Address} (hattests : action.payload.attests = some subject)
    (h : (dispatchInner adjudicator ctx action).run rows.view = .ok u) :
    ∃ e, u.accounts = [(subject, e)] ∧ (rows.account subject).SameOwner e ∧
      e.balance = (rows.account subject).balance ∧
      (e.attestedAt = none ∨ (e.attestedAt = some ctx.height ∧ e.attestedBy = some action.sender ∧
        ∃ hash topics jurisdiction,
          action.payload = .grantAttestation subject hash topics jurisdiction)) := by
  unfold dispatchInner at h
  cases hpay : action.payload with
  | grantAttestation =>
    rw [hpay] at h hattests
    obtain ⟨_, haccounts, h⟩ := bind_ok.mp h
    obtain rfl := Except.ok.inj h
    obtain rfl := Option.some.inj hattests
    obtain ⟨_, _, rfl⟩ := run_applyGrantAttestation (circuit_ok.mp haccounts)
    exact ⟨_, rfl, ⟨rfl, rfl⟩, rfl, .inr ⟨rfl, rfl, _, _, _, rfl⟩⟩
  | revokeAttestation =>
    rw [hpay] at h hattests
    obtain ⟨_, haccounts, h⟩ := bind_ok.mp h
    obtain rfl := Except.ok.inj h
    obtain rfl := Option.some.inj hattests
    obtain rfl := run_applyRevokeAttestation (circuit_ok.mp haccounts)
    exact ⟨_, rfl, ⟨rfl, rfl⟩, rfl, .inl rfl⟩
  | _ =>
    rw [hpay] at hattests
    cases hattests

/-- Giving or taking an attestation is nobody's own affair. -/
theorem actsFor_dispatchInner (hp : action.payload.mayDebit = false)
    (hpolicy : ∀ p, action.payload ≠ .accountPolicy p)
    (h : (dispatchInner adjudicator ctx action).run rows.view = .ok u) :
    ActsFor rows action.sender action.nonce u.accounts := by
  cases hattests : action.payload.attests with
  | none => exact (actsPlainly_dispatchInner hp hpolicy hattests h).toActsFor
  | some subject =>
    obtain ⟨e, haccounts, hsame, hbalance, -⟩ := run_attests hattests h
    rw [haccounts]
    refine Keeps.actsFor (keeps_single fun _ => ⟨hsame, ?_⟩)
    rw [hbalance]
    exact .refl _

/-- A policy action writes its sender's account, with the nonce left as it was. -/
theorem run_accountPolicy {policy : AccountPolicyAction} (hp : action.payload = .accountPolicy policy)
    (h : (dispatchInner adjudicator ctx action).run rows.view = .ok u) :
    ∃ auth e, (authorization action ctx.height ctx.genesis).run rows.view = .ok auth ∧
      applyPolicyAction (rows.account action.sender) policy auth ctx.height = .ok e ∧
      u = { accounts := [(action.sender, e)] } := by
  unfold dispatchInner at h
  rw [hp] at h
  obtain ⟨auth, hauth, h⟩ := bind_ok.mp h
  replace h := run_next h rfl
  obtain ⟨_, h⟩ := run_rest h
  obtain ⟨e, he, h⟩ := bind_ok.mp h
  exact ⟨auth, e, hauth, run_check_eq_ok.mp he, (Except.ok.inj h).symm⟩

/-- **No ordinary action leaves anyone but its sender poorer.** -/
theorem grows_dispatchInner (hp : action.payload.mayDebit = false)
    (h : (dispatchInner adjudicator ctx action).run rows.view = .ok u) :
    Keeps rows (· = action.sender) OnlyGrow u.accounts := by
  by_cases hpolicy : ∃ p, action.payload = .accountPolicy p
  · obtain ⟨policy, hpolicy⟩ := hpolicy
    obtain ⟨_, _, -, -, rfl⟩ := run_accountPolicy hpolicy h
    exact keeps_single fun hx => absurd rfl hx
  · exact (actsFor_dispatchInner hp (not_exists.mp hpolicy) h).others

/-- An action that debits others keeps every nonce and policy, its sender's included. -/
theorem rebalances_debiting (hp : action.payload.mayDebit = true)
    (h : (dispatchInner adjudicator ctx action).run rows.view = .ok u) :
    Rebalances rows AnyChange u.accounts := by
  have hmoves : action.payload.movesStake = true := by
    cases hpay : action.payload <;> rw [hpay] at hp <;> first | rfl | cases hp
  cases run_movesStake hmoves h with
  | stake ordinary | unstake ordinary => cases ordinary.symm.trans hp
  | slash _ run accounts =>
    rw [accounts]
    exact rebalances_faultSlash run
  | disputed _ accounts =>
    rw [accounts]
    exact rebalances_nil
  | vote _ run => exact rebalances_executeProposal run

/-- **Another's nonce and policy are left alone by every action.** -/
theorem keeps_dispatchInner (h : (dispatchInner adjudicator ctx action).run rows.view = .ok u) :
    Keeps rows (· = action.sender) AnyChange u.accounts := by
  by_cases hp : action.payload.mayDebit = true
  · exact (rebalances_debiting hp h).keeps
  · exact (grows_dispatchInner (Bool.eq_false_of_not_eq_true hp) h).mono fun _ _ _ _ => trivial

/-- **Only a policy action touches its sender's policy**; any other uses up at most the nonce it names. -/
theorem uses_dispatchInner (hpolicy : ∀ p, action.payload ≠ .accountPolicy p)
    (h : (dispatchInner adjudicator ctx action).run rows.view = .ok u) {e : AccountEntry}
    (he : u.accounts.get? action.sender = some e) :
    (rows.account action.sender).Uses action.nonce e := by
  by_cases hp : action.payload.mayDebit = true
  · exact (rebalances_debiting hp h _ e he).1.sameOwner.uses _
  · exact (actsFor_dispatchInner (Bool.eq_false_of_not_eq_true hp) hpolicy h).own e he

omit [Wire ActionPayload] [Zk] [StateTrie] [Decode] in
/-- A policy action changes the policy and nothing else of the account. -/
theorem applyPolicyAction_eq_ok {old e : AccountEntry} {policy : AccountPolicyAction}
    {auth : PolicyAuthorization} {height : Nat}
    (h : applyPolicyAction old policy auth height = .ok e) :
    ∃ state, e = { old with programmable := some state } := by
  unfold applyPolicyAction at h
  dsimp only at h
  rw [ite_eq_iff] at h
  obtain ⟨-, h⟩ | ⟨-, h⟩ := h
  · cases h
  have hchanged : ∀ {p : Except SignatureError ProgrammableAccount},
      (p >>= fun state => pure { old with programmable := some state }) = .ok e →
        ∃ state, e = { old with programmable := some state } := by
    intro p hp
    obtain ⟨state, -, hp⟩ := bind_eq_ok.mp hp
    exact ⟨state, (Except.ok.inj hp).symm⟩
  cases policy with
  | setPolicy policy =>
    obtain ⟨_, -, h⟩ := bind_eq_ok.mp h
    exact ⟨_, (Except.ok.inj h).symm⟩
  | _ =>
    dsimp only at h
    split at h
    · cases h
    · exact hchanged h

/-- **Whose attestation an action does not give or take keeps it.** -/
theorem attested_dispatchInner {x : Address} (hx : action.payload.attests ≠ some x)
    (h : (dispatchInner adjudicator ctx action).run rows.view = .ok u) {e : AccountEntry}
    (he : u.accounts.get? x = some e) : (rows.account x).SameAttestation e := by
  cases hattests : action.payload.attests with
  | some subject =>
    obtain ⟨_, haccounts, -⟩ := run_attests hattests h
    have hne : subject ≠ x := fun hs => hx (hattests.trans (congrArg some hs))
    simp [haccounts, Updates.get?, hne] at he
  | none =>
    by_cases hp : action.payload.mayDebit = true
    · exact (rebalances_debiting hp h x e he).1.sameAttestation
    · by_cases hpolicy : ∃ p, action.payload = .accountPolicy p
      · obtain ⟨policy, hpolicy⟩ := hpolicy
        obtain ⟨_, e', -, hpol, rfl⟩ := run_accountPolicy hpolicy h
        obtain ⟨_, rfl⟩ := applyPolicyAction_eq_ok hpol
        by_cases hs : action.sender = x
        · subst hs
          obtain rfl : _ = e := by simpa [Updates.get?] using he
          exact ⟨rfl, rfl, rfl⟩
        · simp [Updates.get?, hs] at he
      · exact (actsPlainly_dispatchInner (Bool.eq_false_of_not_eq_true hp) (not_exists.mp hpolicy)
          hattests h).attested x e he

/-- **A handler leaves its sender's nonce alone, or has checked it and used it up.** -/
theorem nonce_dispatchInner (h : (dispatchInner adjudicator ctx action).run rows.view = .ok u)
    {e : AccountEntry} (he : u.accounts.get? action.sender = some e) :
    e.nonce = (rows.account action.sender).nonce ∨
      action.nonce = (rows.account action.sender).nonce ∧
        e.nonce = (rows.account action.sender).nonce + 1 := by
  by_cases hpolicy : ∃ p, action.payload = .accountPolicy p
  · obtain ⟨policy, hpolicy⟩ := hpolicy
    obtain ⟨_, e', -, hpol, rfl⟩ := run_accountPolicy hpolicy h
    obtain rfl : e' = e := by simpa [Updates.get?] using he
    obtain ⟨_, rfl⟩ := applyPolicyAction_eq_ok hpol
    exact .inl rfl
  · exact (uses_dispatchInner (not_exists.mp hpolicy) h he).2

omit [Crypto] [Zk] [StateTrie] [Decode] in
/-- Nonce, fee and policy only add entries of the sender. -/
theorem accounts_of_wrapper {auth : PolicyAuthorization} {inner consumed charged : BlockUpdates}
    (hconsumed : (consumeNonce action inner).run rows.view = .ok consumed)
    (hcharged : (chargeActionFee action consumed).run rows.view = .ok charged)
    (h : (enforce action ctx.height auth charged).run rows.view = .ok u) {x : Address}
    (hx : x ≠ action.sender) : u.accounts.get? x = inner.accounts.get? x := by
  have hown : ∀ (w : AccountUpdates) (e : AccountEntry),
      Updates.get? (w ++ [(action.sender, e)]) x = Updates.get? w x := by
    intro w e
    rw [Updates.get?_append]
    simp [Updates.get?, Ne.symm hx]
  have hcharge : charged.accounts.get? x = consumed.accounts.get? x := by
    obtain ⟨_, _, _, hcharged⟩ := run_rest₃ hcharged
    obtain rfl := Except.ok.inj hcharged
    exact hown _ _
  have hconsume : consumed.accounts.get? x = inner.accounts.get? x := by
    obtain ⟨_, _, hconsumed⟩ := run_rest₂ hconsumed
    split at hconsumed
    · obtain rfl := Except.ok.inj hconsumed
      rfl
    · obtain ⟨_, _, hconsumed⟩ := run_rest₂ hconsumed
      obtain rfl := Except.ok.inj hconsumed
      exact hown _ _
  rw [← hconsume, ← hcharge]
  obtain ⟨_, h⟩ := run_rest h
  split at h
  · obtain rfl := Except.ok.inj h
    rfl
  · obtain rfl := Except.ok.inj h
    rfl
  · obtain ⟨_, _, _, h⟩ := run_rest₃ h
    obtain ⟨_, _, h⟩ := run_rest₂ h
    obtain rfl := Except.ok.inj h
    exact hown _ _

/-- The sender's account as the handler of its action left it. -/
def handled (rows : Rows) (action : ChainAction) (inner : BlockUpdates) : AccountEntry :=
  (inner.accounts.get? action.sender).getD (rows.account action.sender)

/-- **What comes of the sender's account**: what the handler left, with the nonce used up and the fee
paid. -/
structure Settles (rows : Rows) (action : ChainAction) (inner u : BlockUpdates)
    (e : AccountEntry) : Prop where
  entry : u.accounts.get? action.sender = some e
  next : action.nonce = (rows.account action.sender).nonce
  nonce : e.nonce = (rows.account action.sender).nonce + 1
  affordable : feeAt rows action ≤ (handled rows action inner).balance
  balance : e.balance = (handled rows action inner).balance - feeAt rows action

omit [Crypto] [Zk] [StateTrie] [Decode] [Wire ActionPayload] in
/-- The nonce is used up exactly once, by the handler or after it. -/
theorem consumeNonce_handled {inner consumed : BlockUpdates}
    (hinner : ∀ e, inner.accounts.get? action.sender = some e →
      e.nonce = (rows.account action.sender).nonce ∨
        action.nonce = (rows.account action.sender).nonce ∧
          e.nonce = (rows.account action.sender).nonce + 1)
    (h : (consumeNonce action inner).run rows.view = .ok consumed) :
    action.nonce = (rows.account action.sender).nonce ∧
      consumed.accounts.get? action.sender = some { handled rows action inner with
        nonce := (rows.account action.sender).nonce + 1 } := by
  replace h := run_next h rfl
  obtain ⟨entry, hentry, h⟩ := bind_ok.mp h
  rw [run_overlayAccount] at hentry
  obtain rfl : handled rows action inner = entry := Except.ok.inj hentry
  rw [run_ite] at h
  split at h
  · rename_i hbumped
    obtain rfl := Except.ok.inj h
    -- A nonce that moved is one the handler wrote.
    cases hget : inner.accounts.get? action.sender with
    | none =>
      unfold handled at hbumped
      rw [hget] at hbumped
      exact absurd rfl hbumped
    | some e =>
      unfold handled at hbumped ⊢
      rw [hget] at hbumped ⊢
      obtain hsame | ⟨hnext, hnonce⟩ := hinner e hget
      · exact absurd hsame hbumped
      · refine ⟨hnext, congrArg some ?_⟩
        rw [← hnonce]
        rfl
  · obtain ⟨_, hnext, h⟩ := bind_ok.mp h
    obtain ⟨_, hbump, h⟩ := bind_ok.mp h
    obtain ⟨-, rfl⟩ := run_addOrPanic64.mp hbump
    obtain rfl := Except.ok.inj h
    exact ⟨of_decide_eq_true (ensure_ok.mp hnext), Updates.get?_snoc _ _ _⟩

omit [Crypto] [Zk] [StateTrie] [Decode] in
/-- The fee is taken from the account the action leaves. -/
theorem chargeActionFee_handled {consumed charged : BlockUpdates} {e : AccountEntry}
    (he : consumed.accounts.get? action.sender = some e)
    (h : (chargeActionFee action consumed).run rows.view = .ok charged) :
    feeAt rows action ≤ e.balance ∧ charged.accounts.get? action.sender =
      some { e with balance := e.balance - feeAt rows action } := by
  unfold chargeActionFee chargedEntry at h
  rw [he] at h
  replace h := run_next h rfl
  replace h := run_next h rfl
  obtain ⟨left, hleft, h⟩ := bind_ok.mp h
  obtain ⟨hle, rfl⟩ := checkedSub_eq_some.mp (orFail_ok.mp hleft)
  obtain rfl := Except.ok.inj h
  exact ⟨hle, Updates.get?_snoc _ _ _⟩

omit [Crypto] [Zk] [StateTrie] [Decode] in
/-- All the policy writes is itself. -/
theorem enforce_entry {auth : PolicyAuthorization} {charged : BlockUpdates} {after : AccountEntry}
    (hafter : charged.accounts.get? action.sender = some after)
    (h : (enforce action ctx.height auth charged).run rows.view = .ok u) :
    ∃ programmable, u.accounts.get? action.sender = some { after with programmable := programmable } := by
  obtain ⟨_, h⟩ := run_rest h
  split at h
  · obtain rfl := Except.ok.inj h
    exact ⟨_, hafter⟩
  · obtain rfl := Except.ok.inj h
    exact ⟨_, hafter⟩
  · obtain ⟨_, hentry, h⟩ := bind_ok.mp h
    obtain rfl := Option.some.inj (hafter.symm.trans (orFail_ok.mp hentry))
    obtain ⟨_, _, h⟩ := run_rest₂ h
    obtain ⟨_, _, h⟩ := run_rest₂ h
    obtain rfl := Except.ok.inj h
    exact ⟨_, Updates.get?_snoc _ _ _⟩

/-- **The sender's account after an action**: as its handler left it, but for the nonce, the fee and the
policy. -/
theorem run_dispatchWith_entry (h : (dispatchWith adjudicator ctx action).run rows.view = .ok u) :
    ∃ inner programmable, (dispatchInner adjudicator ctx action).run rows.view = .ok inner ∧
      action.nonce = (rows.account action.sender).nonce ∧
      feeAt rows action ≤ (handled rows action inner).balance ∧
      u.accounts.get? action.sender = some { handled rows action inner with
        nonce := (rows.account action.sender).nonce + 1
        balance := (handled rows action inner).balance - feeAt rows action
        programmable := programmable } := by
  obtain ⟨auth, h⟩ := run_rest h
  obtain ⟨inner, hinner, h⟩ := bind_ok.mp h
  obtain ⟨consumed, hconsumed, h⟩ := bind_ok.mp h
  obtain ⟨charged, hcharged, h⟩ := bind_ok.mp h
  obtain ⟨hnext, hbumped⟩ := consumeNonce_handled (fun _ he => nonce_dispatchInner hinner he) hconsumed
  obtain ⟨haffordable, hpaid⟩ := chargeActionFee_handled hbumped hcharged
  obtain ⟨programmable, hentry⟩ := enforce_entry hpaid h
  exact ⟨inner, programmable, hinner, hnext, haffordable, hentry⟩

/-- **Every action settles with its sender.** -/
theorem run_dispatchWith_own (h : (dispatchWith adjudicator ctx action).run rows.view = .ok u) :
    ∃ inner e, (dispatchInner adjudicator ctx action).run rows.view = .ok inner ∧
      Settles rows action inner u e := by
  obtain ⟨inner, _, hinner, hnext, haffordable, hentry⟩ := run_dispatchWith_entry h
  exact ⟨inner, _, hinner, hentry, hnext, rfl, haffordable, rfl⟩

/-- **The accounts of others after an action are those its handler left.** -/
theorem run_dispatchWith_others (h : (dispatchWith adjudicator ctx action).run rows.view = .ok u) :
    ∃ inner, (dispatchInner adjudicator ctx action).run rows.view = .ok inner ∧
      SameButAccounts inner u ∧
      ∀ x, x ≠ action.sender → u.accounts.get? x = inner.accounts.get? x := by
  obtain ⟨auth, h⟩ := run_rest h
  obtain ⟨inner, hinner, h⟩ := bind_ok.mp h
  obtain ⟨consumed, hconsumed, h⟩ := bind_ok.mp h
  obtain ⟨charged, hcharged, h⟩ := bind_ok.mp h
  have h₁ := (yields_consumeNonce action inner).ensures _ consumed hconsumed
  have h₂ := (yields_chargeActionFee action consumed).ensures _ charged hcharged
  have h₃ := (yields_enforce action ctx.height auth charged).ensures _ u h
  exact ⟨inner, hinner, (h₁.trans h₂).trans h₃,
    fun x hx => accounts_of_wrapper hconsumed hcharged h hx⟩

/-- **Attestations after an action are those its handler left.** -/
theorem run_dispatchWith_attested (h : (dispatchWith adjudicator ctx action).run rows.view = .ok u) :
    ∃ inner, (dispatchInner adjudicator ctx action).run rows.view = .ok inner ∧
      ∀ x, ((inner.accounts.get? x).getD (rows.account x)).SameAttestation
        ((u.accounts.get? x).getD (rows.account x)) := by
  obtain ⟨inner, _, hinner, -, -, hentry⟩ := run_dispatchWith_entry h
  obtain ⟨inner', hinner', -, hothers⟩ := run_dispatchWith_others h
  obtain rfl := Except.ok.inj (hinner.symm.trans hinner')
  refine ⟨inner, hinner, fun x => ?_⟩
  by_cases hx : x = action.sender
  · subst hx
    rw [hentry]
    exact ⟨rfl, rfl, rfl⟩
  · rw [hothers x hx]
    exact .refl _

end Dispatch

end Runtime

end Arxium
