import Arxium.Runtime.Vaults
import Arxium.Runtime.AssetEffect

/-!
# Runtime/VaultEffect — what actions, matured unbondings and the seal do to the vaults

Whatever a part of a block returns takes every vault along a path of steps (`VaultsMove`).  An action
takes from a vault only what the staking circuit says, as long as it is not sent by a sub-account itself
and executes no correction of one.
-/

namespace Arxium

open ReadProg Writes Crypto

/-! ## Derived addresses -/

section Derived

variable [Crypto]

theorem Crypto.Laws.fromPubkeyBytes_injective (laws : Crypto.Laws) :
    Function.Injective Address.fromPubkeyBytes := by
  intro b c h
  exact laws.bech32Encode_injective Address.hrp (congrArg Address.text h)

theorem Crypto.Laws.stakeSubaccount_injective (laws : Crypto.Laws) :
    Function.Injective stakeSubaccount := by
  intro v v' h
  have hbytes := laws.sha256_injective (laws.fromPubkeyBytes_injective h)
  exact Address.ext (strBytes_injective (List.append_cancel_left hbytes))

/-- A sub-account is no account of the chain's own: their names differ in the fourth letter. -/
theorem Crypto.Laws.stakeSubaccount_ne (laws : Crypto.Laws) (v : Address) {tag : Bytes}
    (htag : tag[3]? ≠ some 115) :
    stakeSubaccount v ≠ .fromPubkeyBytes (sha256 tag) := by
  intro h
  have hbytes := laws.sha256_injective (laws.fromPubkeyBytes_injective h)
  rw [← hbytes, List.getElem?_append_left (by decide)] at htag
  exact htag (by decide)

theorem Crypto.Laws.stakeSubaccount_ne_pool (laws : Crypto.Laws) (v : Address) :
    stakeSubaccount v ≠ rewardPoolAccount := laws.stakeSubaccount_ne v (by decide)

theorem Crypto.Laws.stakeSubaccount_ne_treasury (laws : Crypto.Laws) (v : Address) :
    stakeSubaccount v ≠ treasuryAccount := laws.stakeSubaccount_ne v (by decide)

end Derived

section Effects

variable [Crypto] {rows : Rows} {accounts accounts' : AccountUpdates} {stakes stakes' : StakeUpdates}
  {master validator : Address} {nonce amount height : Nat}

/-- **Every vault moves along its steps.** -/
def VaultsMove (rows : Rows) (accounts : AccountUpdates) (stakes : StakeUpdates) : Prop :=
  ∀ v, Vault.Path v (rows.vault v) ((rows.vault v).after v accounts stakes)

/-- Updates that take from no sub-account and change no stake. -/
theorem vaultsMove_of_grows (hgrows : ∀ v e, accounts.get? (stakeSubaccount v) = some e →
      Grows (rows.account (stakeSubaccount v)).balance e.balance) :
    VaultsMove rows accounts {} :=
  fun v => Vault.path_deposit rfl (fun _ => rfl) (hgrows v)

theorem vaultsMove_of_keeps {own : Address → Prop} (hown : ∀ v, ¬ own (stakeSubaccount v))
    (h : AccountUpdates.Keeps rows own OnlyGrow accounts) : VaultsMove rows accounts {} :=
  vaultsMove_of_grows fun v e he => (h _ e (hown v) he).2

/-- What is written after, if it only adds to sub-accounts. -/
theorem VaultsMove.append (h : VaultsMove rows accounts stakes)
    (hgrows : ∀ v e, accounts'.get? (stakeSubaccount v) = some e →
      Grows ((rows.vault v).after v accounts stakes).balance e.balance) :
    VaultsMove rows (accounts ++ accounts') stakes := by
  intro v
  rw [Vault.after_append_accounts]
  exact (h v).trans (Vault.path_deposit rfl (fun _ => rfl) (hgrows v))

/-- Only what is written to sub-accounts matters. -/
theorem VaultsMove.congr (h : VaultsMove rows accounts stakes)
    (heq : ∀ v, accounts'.get? (stakeSubaccount v) = accounts.get? (stakeSubaccount v)) :
    VaultsMove rows accounts' stakes := by
  intro v
  have hafter : (rows.vault v).after v accounts' stakes = (rows.vault v).after v accounts stakes := by
    rw [Vault.after, heq]
    rfl
  rw [hafter]
  exact h v

/-! ## The circuit -/

theorem vaultsMove_applyStake (laws : Crypto.Laws) (hmaster : ∀ v, stakeSubaccount v ≠ master)
    (h : (applyStake master nonce validator amount height).run rows.view = .ok (accounts, stakes)) :
    VaultsMove rows accounts stakes := by
  have hs := run_applyStake h
  rw [hs.accounts, hs.stakes]
  intro v
  by_cases hv : validator = v
  · subst hv
    have hstep := Vault.Step.stake (v := validator) (w := rows.vault validator) hs.masters hs.free
      hs.capped hs.fits
    rw [Vault.after_single]
    refine .single ?_
    simpa [Updates.get?, Rows.vault] using hstep
  · have hsub : stakeSubaccount validator ≠ stakeSubaccount v :=
      fun he => hv (laws.stakeSubaccount_injective he)
    refine Vault.path_deposit ?_ (fun m => ?_) fun e he => ?_
    · simp [Updates.get?, hv]
    · simp [Updates.get?, hv]
    · simp [Updates.get?, hsub, Ne.symm (hmaster v)] at he

omit [Crypto] in
theorem get?_single {α β : Type} [DecidableEq α] (a b : α) (x : β) :
    Updates.get? [(a, x)] b = if a = b then some x else none := rfl

theorem vaultsMove_applyUnstake {unbondingBlocks : Nat}
    (h : (applyUnstake master nonce validator amount height unbondingBlocks).run rows.view =
      .ok (accounts, stakes)) : VaultsMove rows accounts stakes ∧ VaultsMove rows [] stakes := by
  obtain ⟨a, hpos, -, hstored, hfree, hheld, rfl, rfl⟩ := run_applyUnstake h
  have hpath : VaultsMove rows [] { allocations := [((master, validator),
      some (a.unstaked amount (height + unbondingBlocks) height))] } := by
    intro v
    by_cases hv : validator = v
    · subst hv
      have hstep := Vault.Step.unstake (v := validator) (w := rows.vault validator)
        (height + unbondingBlocks) height hstored hfree hpos hheld
      rw [Vault.after_single]
      exact .single hstep
    · exact Vault.path_deposit rfl (fun m => by simp [Updates.get?, hv]) (fun e he => by cases he)
  refine ⟨?_, hpath⟩
  rw [← List.nil_append [(master, _)]]
  refine hpath.append fun v e he => ?_
  rw [get?_single] at he
  split at he
  · rename_i hm
    obtain rfl := Option.some.inj he
    rw [hm]
    exact .refl _
  · cases he

theorem vaultsMove_applySlash (laws : Crypto.Laws) {reason : SlashReason}
    (h : (applySlash validator amount reason height).run rows.view = .ok (accounts, stakes)) :
    VaultsMove rows accounts stakes := by
  obtain ⟨master, a, hs⟩ := run_applySlash h
  intro v
  by_cases hv : validator = v
  · subst hv
    have hpool := laws.stakeSubaccount_ne_pool validator
    have hstep := Vault.Step.slash (v := validator) (w := rows.vault validator) height hs.first
      hs.stored (Nat.min_le_right amount a.total)
    refine .single ?_
    convert hstep using 1
    rw [hs.accounts, hs.stakes, Vault.settle]
    split <;> rw [Vault.after_single] <;> simp [Updates.get?, Rows.vault, Ne.symm hpool]
  · have hsub : stakeSubaccount validator ≠ stakeSubaccount v :=
      fun he => hv (laws.stakeSubaccount_injective he)
    have hpool := laws.stakeSubaccount_ne_pool v
    rw [hs.accounts, hs.stakes]
    refine Vault.path_deposit ?_ (fun m => ?_) fun e he => ?_
    · split <;> simp [Updates.get?, hv]
    · split <;> simp [Updates.get?, hv]
    · simp [Updates.get?, hsub, Ne.symm hpool] at he

theorem balance_vault_after (v : Address) : ((rows.vault v).after v accounts stakes).balance =
    ((accounts.get? (stakeSubaccount v)).getD (rows.account (stakeSubaccount v))).balance := by
  unfold Vault.after
  cases accounts.get? (stakeSubaccount v) <;> rfl

/-! ## The handlers -/

namespace Runtime

variable {u : BlockUpdates}

/-- The challenger is paid out of the pool, which is nobody's vault. -/
theorem vaultsMove_payChallenger (laws : Crypto.Laws) {challenger : Address} {rewardBps : Nat}
    {paid : AccountUpdates} (hmove : VaultsMove rows accounts stakes)
    (h : (payChallenger challenger accounts rewardBps).run rows.view = .ok paid) :
    VaultsMove rows paid stakes := by
  obtain rfl | ⟨pool, _, entry, left, reward, -, rfl, rfl, hfits, rfl⟩ := run_payChallenger h
  · exact hmove
  have hdebited : VaultsMove rows
      (accounts ++ [(rewardPoolAccount, { pool with balance := left })]) stakes := by
    refine hmove.append fun v e he => ?_
    rw [get?_single, if_neg (Ne.symm (laws.stakeSubaccount_ne_pool v))] at he
    cases he
  refine hdebited.append fun v e he => ?_
  rw [get?_single] at he
  split at he
  · rename_i hv
    obtain rfl := Option.some.inj he
    rw [balance_vault_after, ← hv]
    exact fun _ => ⟨Nat.le_add_right _ _, hfits⟩
  · cases he

theorem vaultsMove_nil : VaultsMove rows [] {} := fun v =>
  Vault.path_deposit rfl (fun _ => rfl) (fun _ he => by cases he)

theorem vaultsMove_faultSlash (laws : Crypto.Laws) {culprit challenger : Address} {reason : SlashReason}
    (h : (faultSlash culprit reason height challenger).run rows.view = .ok u) :
    VaultsMove rows u.accounts u.stakes := by
  obtain ⟨haccounts, hstakes⟩ | ⟨amount, accounts, rewardBps, hslash, hpaid⟩ := run_faultSlash h
  · rw [haccounts, hstakes]
    exact vaultsMove_nil
  · exact vaultsMove_payChallenger laws (vaultsMove_applySlash laws hslash) hpaid

/-- **A closed vote** moves the vaults, unless it executed a correction of a sub-account.  A slash
replaces what the proposal itself would have paid. -/
theorem vaultsMove_executeProposal (laws : Crypto.Laws) {id : Nat}
    (h : (executeProposal id height).run rows.view = .ok u) :
    ∃ (proposal : Proposal) (executed : Bool), rows (.proposal id) = some proposal ∧
      lookup u.governance (.proposal id) = some (some (proposal.closed executed)) ∧
      ((executed = true → ∀ v, ¬ proposal.action.Corrects (stakeSubaccount v)) →
        VaultsMove rows u.accounts u.stakes) := by
  obtain ⟨result, hresult, h⟩ := bind_ok.mp h
  obtain ⟨proposal, hstored, hkeeps, hclosed⟩ := run_applyExecute (circuit_ok.mp hresult)
  have hpaid : (result.executed = true → ∀ v, ¬ proposal.action.Corrects (stakeSubaccount v)) →
      VaultsMove rows result.accounts {} := by
    intro hspared
    refine vaultsMove_of_grows fun v e he => ?_
    obtain htreasury | ⟨hexecuted, hcorrects⟩ | hgrows := (hkeeps _ e he).2
    · exact absurd htreasury (laws.stakeSubaccount_ne_treasury v)
    · exact absurd hcorrects (hspared hexecuted v)
    · exact hgrows
  dsimp only at h
  split at h
  · obtain rfl := Except.ok.inj h
    exact ⟨proposal, result.executed, hstored, hclosed, hpaid⟩
  · obtain ⟨slashed, hslashed, h⟩ := bind_ok.mp h
    rw [run_attempt] at hslashed
    obtain rfl := Except.ok.inj hslashed
    split at h
    · rename_i slashed hslash
      obtain rfl := Except.ok.inj h
      have hmove : VaultsMove rows slashed.accounts slashed.stakes := vaultsMove_faultSlash laws hslash
      exact ⟨proposal, result.executed, hstored, hclosed, fun _ => hmove⟩
    · cases h
    · obtain rfl := Except.ok.inj h
      exact ⟨proposal, result.executed, hstored, hclosed, hpaid⟩

section Dispatch

variable [Wire ActionPayload] [Zk] [StateTrie] [Decode] {adjudicator : Adjudicator} {ctx : DispatchCtx}
  {action : ChainAction}

theorem yields_noStakes (h : action.payload.movesStake = false) :
    (dispatchInner adjudicator ctx action).Yields fun u => u.stakes = {} := by
  refine yields_fills.mono fun u hu => hu.stakes ?_
  cases hp : action.payload <;> rw [hp] at h <;> first | rfl | cases h

/-- **What the handler of an action does to the vaults.**  Two kinds of action could take from a
sub-account without the staking circuit: one the sub-account signs, and one that executes a correction
of it. -/
theorem vaultsMove_dispatchInner (laws : Crypto.Laws) (hsender : ∀ v, stakeSubaccount v ≠ action.sender)
    (hspared : ∀ id (proposal : Proposal), action.payload = .executeProposal id →
      rows (.proposal id) = some proposal →
      lookup u.governance (.proposal id) = some (some (proposal.closed true)) →
      ∀ v, ¬ proposal.action.Corrects (stakeSubaccount v))
    (h : (dispatchInner adjudicator ctx action).run rows.view = .ok u) :
    VaultsMove rows u.accounts u.stakes := by
  by_cases hp : action.payload.movesStake = true
  swap
  · have hp := Bool.eq_false_of_not_eq_true hp
    have hdebit : action.payload.mayDebit = false := by
      cases hpay : action.payload <;> rw [hpay] at hp <;> first | rfl | cases hp
    rw [(yields_noStakes hp).ensures _ u h]
    have hkept : AccountUpdates.Keeps rows (· = action.sender) OnlyGrow u.accounts :=
      grows_dispatchInner hdebit h
    exact vaultsMove_of_keeps hsender hkept
  cases run_movesStake hp h with
  | stake _ run => exact vaultsMove_applyStake laws hsender run
  | unstake _ run own =>
    obtain ⟨hfull, hstakes⟩ := vaultsMove_applyUnstake run
    obtain ⟨-, -, haccounts⟩ | haccounts := own <;> rw [haccounts]
    · exact hfull
    · exact hstakes
  | slash _ run accounts stakes =>
    rw [accounts, stakes]
    exact vaultsMove_faultSlash laws run
  | disputed _ accounts stakes =>
    rw [accounts, stakes]
    exact vaultsMove_nil
  | @vote id payload run =>
    obtain ⟨proposal, executed, hstored, hclosed, hmove⟩ := vaultsMove_executeProposal laws run
    refine hmove fun hexecuted => ?_
    obtain rfl := hexecuted
    exact hspared id proposal payload hstored hclosed

/-- **What an applied action does to the vaults.** -/
theorem vaultsMove_dispatchWith (laws : Crypto.Laws) (hsender : ∀ v, stakeSubaccount v ≠ action.sender)
    (hspared : ∀ id (proposal : Proposal), action.payload = .executeProposal id →
      rows (.proposal id) = some proposal →
      lookup u.governance (.proposal id) = some (some (proposal.closed true)) →
      ∀ v, ¬ proposal.action.Corrects (stakeSubaccount v))
    (h : (dispatchWith adjudicator ctx action).run rows.view = .ok u) :
    VaultsMove rows u.accounts u.stakes := by
  obtain ⟨inner, hinner, ⟨accounts, rfl⟩, hothers⟩ := run_dispatchWith_others h
  have hmove : VaultsMove rows inner.accounts inner.stakes :=
    vaultsMove_dispatchInner laws hsender hspared hinner
  exact hmove.congr fun v => hothers _ (hsender v)

end Dispatch

/-! ## The seal -/

omit [Crypto] in
theorem lookup_sealWrites_account (u : BlockUpdates) (x : Address) :
    lookup u.sealWrites (.account x) = lookup (accountWrites u.accounts) (.account x) := by
  have hstatus : lookup (statusWrites u.validatorStatuses) (.account x) = none :=
    lookup_map_eq_none fun _ => nofun
  have hstakes : lookup u.stakes.writes (.account x) = none := by
    refine (lookup_append _ _ _).trans (Option.or_eq_none_iff.mpr ⟨?_, ?_⟩)
    · exact lookup_map_eq_none fun p => (listWrite_key _ rfl p.2).trans_ne nofun
    · exact lookup_map_eq_none fun _ => nofun
  rw [BlockUpdates.sealWrites, lookup_append, lookup_append, hstatus, hstakes]
  rfl

theorem vault_sealWrites (u : BlockUpdates) (v : Address) :
    Rows.vault (Writes.apply u.sealWrites rows) v = (rows.vault v).after v u.accounts u.stakes := by
  have hstatus : ∀ k : Key, (∀ a, k ≠ .validatorStatus a) →
      lookup (statusWrites u.validatorStatuses) k = none :=
    fun k hk => lookup_map_eq_none fun p => (hk p.1).symm
  have haccount : ∀ k : Key, (∀ a, k ≠ .account a) → lookup (accountWrites u.accounts) k = none :=
    fun k hk => lookup_map_eq_none fun p => (hk p.1).symm
  have hwrites : u.stakes.writes = allocationWrites u.stakes ++ mastersWrites u.stakes := rfl
  refine Rows.vault_apply (lookup_sealWrites_account u _) (fun m => ?_) ?_
  all_goals
    rw [BlockUpdates.sealWrites, lookup_append, lookup_append, hwrites, lookup_append,
      hstatus _ (by simp), haccount _ (by simp), Option.none_or, Option.or_none]
  · have hmasters : lookup (mastersWrites u.stakes) (.stake m v) = none :=
      lookup_map_eq_none fun p => (listWrite_key _ rfl p.2).trans_ne nofun
    rw [hmasters, Option.none_or]
  · have halloc : lookup (allocationWrites u.stakes) (.stakeByValidator v) = none :=
      lookup_map_eq_none fun _ => nofun
    rw [halloc, Option.or_none]

/-- What the reward pool, the proposer and the treasury have after the block reward. -/
theorem run_applyBlockReward {ε : Type} [Errors ε] {proposer : Address}
    {fees reward proposerBps treasuryBps : Nat}
    (h : (applyBlockReward proposer fees reward proposerBps treasuryBps : Read ε _).run rows.view =
      .ok accounts) : ∃ left due paid, (rows.account proposer).balance + due ≤ u128Max ∧
        accounts = [(rewardPoolAccount, { rows.account rewardPoolAccount with balance := left }),
          (proposer, { rows.account proposer with balance := (rows.account proposer).balance + due }),
          (treasuryAccount, { rows.account treasuryAccount with balance := paid })] := by
  replace h := run_next h rfl
  obtain ⟨_, _, h⟩ := run_rest₂ h
  replace h := run_next h rfl
  obtain ⟨due, h⟩ := run_rest h
  obtain ⟨_, hbalance, h⟩ := bind_ok.mp h
  obtain ⟨hfits, rfl⟩ := run_addOrPanic.mp hbalance
  replace h := run_next h rfl
  obtain ⟨_, h⟩ := run_rest h
  exact ⟨_, due, _, hfits, (Except.ok.inj h).symm⟩

theorem vaultsMove_applyBlockReward (laws : Crypto.Laws) {ε : Type} [Errors ε] {proposer : Address}
    {fees reward proposerBps treasuryBps : Nat}
    (h : (applyBlockReward proposer fees reward proposerBps treasuryBps : Read ε _).run rows.view =
      .ok accounts) : VaultsMove rows accounts {} := by
  obtain ⟨left, due, paid, hfits, rfl⟩ := run_applyBlockReward h
  refine vaultsMove_of_grows fun v e he => ?_
  have hpool := laws.stakeSubaccount_ne_pool v
  have htreasury := laws.stakeSubaccount_ne_treasury v
  simp only [Updates.get?, Ne.symm hpool, Ne.symm htreasury, if_false, Option.none_or,
    Option.or_none] at he
  split at he
  · rename_i hv
    obtain rfl := Option.some.inj he
    rw [← hv]
    exact grows_add hfits
  · cases he

/-- A downtime slash is a slash, or nothing. -/
theorem run_applyDowntimeSlash {ε : Type} [Errors ε] {primary proposer : Address} {bps : Nat}
    (h : (applyDowntimeSlash primary proposer height bps : Read ε _).run rows.view =
      .ok (accounts, stakes)) : (accounts = [] ∧ stakes = {}) ∨
        ∃ amount, (applySlash primary amount .downtime height).run rows.view = .ok (accounts, stakes) := by
  have hidle : (([], {}) : AccountUpdates × StakeUpdates) = (accounts, stakes) →
      accounts = [] ∧ stakes = {} := by
    intro he
    obtain ⟨rfl, rfl⟩ := Prod.mk.inj he
    exact ⟨rfl, rfl⟩
  unfold applyDowntimeSlash at h
  rw [run_ite] at h
  split at h
  · exact .inl (hidle (Except.ok.inj h))
  obtain ⟨masters, h⟩ := run_rest h
  split at h
  swap
  · exact .inl (hidle (Except.ok.inj h))
  obtain ⟨existing, h⟩ := run_rest h
  split at h
  swap
  · exact .inl (hidle (Except.ok.inj h))
  obtain ⟨_, _, h⟩ := run_rest₂ h
  rw [run_ite] at h
  split at h
  · exact .inl (hidle (Except.ok.inj h))
  obtain ⟨slashed, hslashed, h⟩ := bind_ok.mp h
  rw [run_attempt] at hslashed
  obtain rfl := Except.ok.inj hslashed
  split at h
  · rename_i result hresult
    obtain rfl := Except.ok.inj h
    exact .inr ⟨_, hresult⟩
  · cases h
  · cases h
  · exact .inl (hidle (Except.ok.inj h))

theorem vaultsMove_applyDowntimeSlash (laws : Crypto.Laws) {ε : Type} [Errors ε]
    {primary proposer : Address} {bps : Nat}
    (h : (applyDowntimeSlash primary proposer height bps : Read ε _).run rows.view =
      .ok (accounts, stakes)) : VaultsMove rows accounts stakes := by
  obtain ⟨rfl, rfl⟩ | ⟨amount, hslash⟩ := run_applyDowntimeSlash h
  · exact vaultsMove_nil
  · exact vaultsMove_applySlash laws hslash

/-- Updates computed on the vaults that earlier updates left. -/
theorem VaultsMove.staged {u : BlockUpdates} (h : VaultsMove rows u.accounts u.stakes)
    (h' : VaultsMove (Writes.apply u.sealWrites rows) accounts' stakes') :
    VaultsMove rows (u.accounts ++ accounts') ⟨u.stakes.allocations ++ stakes'.allocations,
      u.stakes.validatorIndex ++ stakes'.validatorIndex⟩ := by
  intro v
  rw [Vault.after_append]
  have hpath := h' v
  rw [vault_sealWrites] at hpath
  exact (h v).trans hpath

/-- What a seal does to accounts and stakes: the block reward, and a slash for downtime on top of it.  The
boundary and the candidate list touch neither. -/
theorem run_sealBlock {written : List Address} {proposer : Address} {fees : Nat}
    {validators : List Address}
    (h : (sealBlock written proposer fees validators height).run rows.view = .ok u) :
    ∃ r p t accounts, (applyBlockReward proposer fees r p t : Read Err _).run rows.view = .ok accounts ∧
      ((u.accounts = accounts ∧ u.stakes = {}) ∨ ∃ primary bps accounts' stakes,
        (applyDowntimeSlash primary proposer height bps : Read Err _).run
          (Rows.view (Writes.apply { accounts := accounts : BlockUpdates }.sealWrites rows)) =
            .ok (accounts', stakes) ∧ u.accounts = accounts ++ accounts' ∧ u.stakes = stakes) := by
  obtain ⟨paid, hpaid, h⟩ := bind_ok.mp h
  obtain ⟨_, h⟩ := run_rest h
  obtain ⟨haccounts, hstakes⟩ : u.accounts = paid.accounts ∧ u.stakes = paid.stakes := by
    obtain ⟨_, _, h⟩ := run_rest₂ h
    rw [run_ite] at h
    split at h
    all_goals
      obtain rfl := Except.ok.inj h
      exact ⟨rfl, rfl⟩
  rw [haccounts, hstakes]
  unfold sealEconomics at hpaid
  obtain ⟨params, hpaid⟩ := run_rest hpaid
  obtain ⟨accounts, hreward, hpaid⟩ := bind_ok.mp hpaid
  refine ⟨_, _, _, accounts, hreward, ?_⟩
  split at hpaid
  · obtain rfl := Except.ok.inj hpaid
    exact .inl ⟨rfl, rfl⟩
  · obtain ⟨⟨accounts', stakes⟩, hslash, hpaid⟩ := bind_ok.mp hpaid
    obtain ⟨_, hpaid⟩ := run_rest hpaid
    obtain rfl := Except.ok.inj hpaid
    rw [run_staged, overlay_view] at hslash
    exact .inr ⟨_, _, accounts', stakes, hslash, rfl, rfl⟩

/-- **What the seal of a block does to the vaults.** -/
theorem vaultsMove_sealBlock (laws : Crypto.Laws) {written : List Address} {proposer : Address}
    {fees : Nat} {validators : List Address}
    (h : (sealBlock written proposer fees validators height).run rows.view = .ok u) :
    VaultsMove rows u.accounts u.stakes := by
  obtain ⟨_, _, _, accounts, hreward, hslashed⟩ := run_sealBlock h
  have hpaid : VaultsMove rows accounts {} := vaultsMove_applyBlockReward laws hreward
  obtain ⟨haccounts, hstakes⟩ | ⟨_, _, accounts', stakes, hslash, haccounts, hstakes⟩ := hslashed
  all_goals rw [haccounts, hstakes]
  · exact hpaid
  · exact VaultsMove.staged (u := { accounts := accounts }) hpaid
      (vaultsMove_applyDowntimeSlash laws hslash)

end Runtime

/-! ## Matured unbondings -/

/-- The pair an allocation belongs to. -/
def StakeAllocation.pair (a : StakeAllocation) : Address × Address := (a.master, a.validator)

/-- What a release writes to the stake rows. -/
def StakeAllocation.released (a : StakeAllocation) : StakeUpdates :=
  if a.activeAmount = 0 then ⟨[(a.pair, none)], [(a.validator, [])]⟩
  else ⟨[(a.pair, some { a with unbonding := none })], []⟩

/-- On its own vault a release settles the allocation. -/
theorem Vault.after_released (a : StakeAllocation) (w : Vault) (e : AccountEntry) :
    w.after a.validator [(stakeSubaccount a.validator, e)] a.released =
      w.settle a.master { a with unbonding := none } e.balance := by
  unfold StakeAllocation.released Vault.settle
  by_cases hactive : a.activeAmount = 0
  all_goals
    simp only [hactive, if_true, if_false, true_and, false_and]
    rw [StakeAllocation.pair, Vault.after_single]
    simp [Updates.get?]

/-- What `releaseOne` did, when it released something. -/
theorem run_releaseOne {ε : Type} [Errors ε] {a : StakeAllocation} {batch : Unbonding}
    (hbatch : a.unbonding = some batch)
    (h : (releaseOne (accounts, stakes) a : Read ε _).run rows.view = .ok (accounts', stakes')) :
    ∃ master sub : AccountEntry,
      master = (accounts.get? a.master).getD (rows.account a.master) ∧
      master.balance + batch.amount ≤ u128Max ∧
      sub = ((accounts ++ [(a.master, { master with balance := master.balance + batch.amount })]).get?
        (stakeSubaccount a.validator)).getD (rows.account (stakeSubaccount a.validator)) ∧
      batch.amount ≤ sub.balance ∧
      accounts' = (accounts ++ [(a.master, { master with balance := master.balance + batch.amount })]) ++
        [(stakeSubaccount a.validator, { sub with balance := sub.balance - batch.amount })] ∧
      stakes' = ⟨stakes.allocations ++ a.released.allocations,
        stakes.validatorIndex ++ a.released.validatorIndex⟩ := by
  unfold releaseOne at h
  rw [hbatch] at h
  obtain ⟨master, hmaster, h⟩ := bind_ok.mp h
  rw [Runtime.run_overlayAccount] at hmaster
  obtain ⟨_, hbalance, h⟩ := bind_ok.mp h
  obtain ⟨hfits, rfl⟩ := run_addOrPanic.mp hbalance
  obtain ⟨sub, hsub, h⟩ := bind_ok.mp h
  rw [Runtime.run_overlayAccount] at hsub
  obtain ⟨_, hleft, h⟩ := bind_ok.mp h
  obtain ⟨hle, rfl⟩ := run_subOrPanic.mp hleft
  refine ⟨master, sub, (Except.ok.inj hmaster).symm, hfits, (Except.ok.inj hsub).symm, hle, ?_⟩
  unfold StakeAllocation.released
  rw [run_ite] at h
  split at h
  · rename_i hactive
    obtain ⟨rfl, rfl⟩ := Prod.mk.inj (Except.ok.inj h)
    rw [if_pos hactive]
    exact ⟨rfl, rfl⟩
  · rename_i hactive
    obtain ⟨rfl, rfl⟩ := Prod.mk.inj (Except.ok.inj h)
    rw [if_neg hactive, List.append_nil]
    exact ⟨rfl, rfl⟩

/-- **Releasing an allocation that the vaults still hold.** -/
theorem vaultsMove_releaseOne (laws : Crypto.Laws) {ε : Type} [Errors ε] {a : StakeAllocation}
    (hmove : VaultsMove rows accounts stakes)
    (hheld : ((rows.vault a.validator).after a.validator accounts stakes).allocation a.master = some a)
    (h : (releaseOne (accounts, stakes) a : Read ε _).run rows.view = .ok (accounts', stakes')) :
    VaultsMove rows accounts' stakes' := by
  cases hbatch : a.unbonding with
  | none =>
    unfold releaseOne at h
    rw [hbatch] at h
    obtain ⟨rfl, rfl⟩ := Prod.mk.inj (Except.ok.inj h)
    exact hmove
  | some batch =>
    obtain ⟨master, sub, hmaster, hfits, hsub, hle, rfl, rfl⟩ := run_releaseOne hbatch h
    -- The master may itself be a sub-account; for its vault that is a deposit.
    have hcredited : VaultsMove rows
        (accounts ++ [(a.master, { master with balance := master.balance + batch.amount })]) stakes := by
      refine hmove.append fun v e he => ?_
      rw [get?_single] at he
      split at he
      · rename_i hv
        obtain rfl := Option.some.inj he
        rw [balance_vault_after, ← hv, ← hmaster]
        exact grows_add hfits
      · cases he
    intro v
    rw [Vault.after_append]
    refine (hcredited v).trans ?_
    by_cases hv : a.validator = v
    · subst hv
      rw [Vault.after_released]
      have hbalance : ((rows.vault a.validator).after a.validator
          (accounts ++ [(a.master, { master with balance := master.balance + batch.amount })])
          stakes).balance = sub.balance := by rw [balance_vault_after, ← hsub]
      rw [← hbalance] at hle ⊢
      exact .single (.release hheld hbatch hle)
    · have hother : stakeSubaccount a.validator ≠ stakeSubaccount v :=
        fun he => hv (laws.stakeSubaccount_injective he)
      unfold StakeAllocation.released
      refine Vault.path_deposit ?_ (fun m => ?_) fun e he => ?_
      · split <;> simp [Updates.get?, hv]
      · split <;> simp [Updates.get?, StakeAllocation.pair, hv]
      · rw [get?_single, if_neg hother] at he
        cases he

omit [Crypto] in
/-- What `dueAllocations` collects: stored allocations of listed pairs, in their order. -/
theorem run_dueAllocations {ε : Type} [Errors ε] {pairs : List (Address × Address)}
    {due : List StakeAllocation}
    (hnamed : ∀ m v a, rows.allocation m v = some a → a.master = m ∧ a.validator = v)
    (h : (dueAllocations height pairs : Read ε _).run rows.view = .ok due) :
    (due.map StakeAllocation.pair).Sublist pairs ∧
      ∀ a ∈ due, rows.allocation a.master a.validator = some a := by
  induction pairs generalizing due with
  | nil =>
    obtain rfl := Except.ok.inj h
    exact ⟨List.Sublist.refl _, by simp⟩
  | cons p pairs ih =>
    obtain ⟨m, v⟩ := p
    obtain ⟨allocation, hallocation, h⟩ := bind_ok.mp h
    rw [Rows.run_getAllocation] at hallocation
    obtain ⟨rest, hrest, h⟩ := bind_ok.mp h
    obtain ⟨hsub, hstored⟩ := ih hrest
    have hskip : (rest.map StakeAllocation.pair).Sublist ((m, v) :: pairs) ∧
        ∀ a ∈ rest, rows.allocation a.master a.validator = some a := ⟨hsub.cons _, hstored⟩
    cases allocation with
    | some a =>
      rw [run_ite] at h
      split at h
      · obtain rfl := Except.ok.inj h
        have ha : rows.allocation m v = some a := Except.ok.inj hallocation
        obtain ⟨rfl, rfl⟩ := hnamed m v a ha
        exact ⟨hsub.cons_cons _, List.forall_mem_cons.mpr ⟨ha, hstored⟩⟩
      · obtain rfl := Except.ok.inj h
        exact hskip
    | none =>
      obtain rfl := Except.ok.inj h
      exact hskip

theorem get?_released {ε : Type} [Errors ε] {a : StakeAllocation} {p : Address × Address}
    (hp : p ≠ a.pair)
    (h : (releaseOne (accounts, stakes) a : Read ε _).run rows.view = .ok (accounts', stakes')) :
    stakes'.allocations.get? p = stakes.allocations.get? p := by
  cases hbatch : a.unbonding with
  | none =>
    unfold releaseOne at h
    rw [hbatch] at h
    obtain ⟨-, rfl⟩ := Prod.mk.inj (Except.ok.inj h)
    rfl
  | some batch =>
    obtain ⟨_, _, -, -, -, -, -, rfl⟩ := run_releaseOne hbatch h
    rw [Updates.get?_append]
    unfold StakeAllocation.released
    split <;> simp [Updates.get?, Ne.symm hp]

/-- The releases one after the other.  What is still due is still stored: the pairs are distinct. -/
theorem vaultsMove_releases (laws : Crypto.Laws) {ε : Type} [Errors ε] {due : List StakeAllocation}
    (hnodup : (due.map StakeAllocation.pair).Nodup)
    (hstored : ∀ a ∈ due, rows.allocation a.master a.validator = some a)
    (hfresh : ∀ a ∈ due, stakes.allocations.get? a.pair = none)
    (hmove : VaultsMove rows accounts stakes)
    (h : (due.foldlM releaseOne (accounts, stakes) : Read ε _).run rows.view =
      .ok (accounts', stakes')) : VaultsMove rows accounts' stakes' := by
  induction due generalizing accounts stakes with
  | nil =>
    obtain ⟨rfl, rfl⟩ := Prod.mk.inj (Except.ok.inj h)
    exact hmove
  | cons a due ih =>
    rw [List.foldlM_cons] at h
    obtain ⟨⟨accounts₁, stakes₁⟩, hone, h⟩ := bind_ok.mp h
    rw [List.map_cons, List.nodup_cons] at hnodup
    have hheld : ((rows.vault a.validator).after a.validator accounts stakes).allocation a.master =
        some a := by
      have hnone : stakes.allocations.get? (a.master, a.validator) = none :=
        hfresh a List.mem_cons_self
      change (stakes.allocations.get? (a.master, a.validator)).getD _ = _
      rw [hnone]
      exact hstored a List.mem_cons_self
    refine ih hnodup.2 (fun b hb => hstored b (List.mem_cons_of_mem _ hb)) (fun b hb => ?_)
      (vaultsMove_releaseOne laws hmove hheld hone) h
    have hne : b.pair ≠ a.pair := fun he => hnodup.1 (he ▸ List.mem_map_of_mem hb)
    rw [get?_released hne hone]
    exact hfresh b (List.mem_cons_of_mem _ hb)

/-- The matured unbondings are released one after the other, if any are listed. -/
theorem run_resolveMaturedUnbonding {ε : Type} [Errors ε] {u : BlockUpdates}
    (h : (resolveMaturedUnbonding height : Read ε _).run rows.view = .ok u) :
    (u.accounts = [] ∧ u.stakes = {}) ∨ ∃ (pairs : List (Address × Address)) (due : List StakeAllocation),
      rows (.unbondingDue height) = some pairs ∧
      (dueAllocations height pairs : Read ε _).run rows.view = .ok due ∧
      (due.foldlM releaseOne ([], {}) : Read ε _).run rows.view = .ok (u.accounts, u.stakes) := by
  obtain ⟨⟨accounts, stakes, governance⟩, hdue, h⟩ := bind_ok.mp h
  obtain rfl := Except.ok.inj h
  unfold resolveDueUnbonding at hdue
  obtain ⟨row, hrow, hdue⟩ := bind_ok.mp hdue
  rw [Rows.run_getRow] at hrow
  split at hdue
  · rename_i pairs
    obtain ⟨due, hcollect, hdue⟩ := bind_ok.mp hdue
    obtain ⟨⟨accounts₁, stakes₁⟩, hfold, hdue⟩ := bind_ok.mp hdue
    injection hdue with hdue
    injection hdue with haccounts hdue
    injection hdue with hstakes hgovernance
    rw [haccounts, hstakes] at hfold
    exact .inr ⟨pairs, due, Except.ok.inj hrow, hcollect, hfold⟩
  · injection hdue with hdue
    injection hdue with haccounts hdue
    injection hdue with hstakes hgovernance
    exact .inl ⟨haccounts.symm, hstakes.symm⟩

/-- **What the matured unbondings do to the vaults.** -/
theorem vaultsMove_resolveMaturedUnbonding (laws : Crypto.Laws) {ε : Type} [Errors ε]
    {u : BlockUpdates}
    (hnodup : ∀ pairs : List (Address × Address), rows (.unbondingDue height) = some pairs → pairs.Nodup)
    (hnamed : ∀ m v a, rows.allocation m v = some a → a.master = m ∧ a.validator = v)
    (h : (resolveMaturedUnbonding height : Read ε _).run rows.view = .ok u) :
    VaultsMove rows u.accounts u.stakes := by
  obtain ⟨haccounts, hstakes⟩ | ⟨pairs, due, hrow, hcollect, hfold⟩ := run_resolveMaturedUnbonding h
  · rw [haccounts, hstakes]
    exact Runtime.vaultsMove_nil
  · obtain ⟨hsub, hstored⟩ := run_dueAllocations hnamed hcollect
    exact vaultsMove_releases laws ((hnodup pairs hrow).sublist hsub) hstored (fun _ _ => rfl)
      Runtime.vaultsMove_nil hfold

/-! ## Owners

Neither the seal nor a matured unbonding touches anything of an account but its balance. -/

open AccountUpdates

variable {own : Address → Prop} {u : BlockUpdates}

theorem rebalances_applyDowntimeSlash {ε : Type} [Errors ε] {primary proposer : Address} {bps : Nat}
    (h : (applyDowntimeSlash primary proposer height bps : Read ε _).run rows.view =
      .ok (accounts, stakes)) : Rebalances rows AnyChange accounts := by
  obtain ⟨rfl, -⟩ | ⟨amount, hslash⟩ := Runtime.run_applyDowntimeSlash h
  · exact rebalances_nil
  · exact rebalances_applySlash hslash

theorem rebalances_sealBlock {written : List Address} {proposer : Address} {fees : Nat}
    {validators : List Address}
    (h : (Runtime.sealBlock written proposer fees validators height).run rows.view = .ok u) :
    Rebalances rows AnyChange u.accounts := by
  obtain ⟨_, _, _, accounts, hreward, hslashed⟩ := Runtime.run_sealBlock h
  obtain ⟨left, due, paid, -, hpays⟩ := Runtime.run_applyBlockReward hreward
  have hkept : Rebalances rows AnyChange accounts := by
    rw [hpays]
    change Rebalances rows AnyChange ([_, _] ++ [_])
    exact (rebalances_pair ⟨_, rfl⟩ trivial ⟨_, rfl⟩ trivial).snoc ⟨_, rfl⟩ trivial
  obtain ⟨haccounts, -⟩ | ⟨_, _, accounts', stakes, hslash, haccounts, -⟩ := hslashed
  all_goals rw [haccounts]
  · exact hkept
  · exact hkept.append (rebalances_applyDowntimeSlash hslash) fun x =>
      Rows.account_apply (Runtime.lookup_sealWrites_account { accounts := accounts } x)

theorem rebalances_releases {ε : Type} [Errors ε] {due : List StakeAllocation}
    (hkeeps : Rebalances rows AnyChange accounts)
    (h : (due.foldlM releaseOne (accounts, stakes) : Read ε _).run rows.view =
      .ok (accounts', stakes')) : Rebalances rows AnyChange accounts' := by
  induction due generalizing accounts stakes with
  | nil =>
    obtain ⟨rfl, rfl⟩ := Prod.mk.inj (Except.ok.inj h)
    exact hkeeps
  | cons a due ih =>
    rw [List.foldlM_cons] at h
    obtain ⟨⟨accounts₁, stakes₁⟩, hone, h⟩ := bind_ok.mp h
    refine ih ?_ h
    cases hbatch : a.unbonding with
    | none =>
      unfold releaseOne at hone
      rw [hbatch] at hone
      obtain ⟨rfl, -⟩ := Prod.mk.inj (Except.ok.inj hone)
      exact hkeeps
    | some batch =>
      obtain ⟨master, sub, hmaster, -, hsub, -, rfl, -⟩ := run_releaseOne hbatch hone
      have hcredited : Rebalances rows AnyChange
          (accounts ++ [(a.master, { master with balance := master.balance + batch.amount })]) := by
        refine hkeeps.snoc ?_ trivial
        have hlatest := hkeeps.latest a.master
        rw [← hmaster] at hlatest
        exact hlatest.trans ⟨_, rfl⟩
      refine hcredited.snoc ?_ trivial
      have hlatest := hcredited.latest (stakeSubaccount a.validator)
      rw [← hsub] at hlatest
      exact hlatest.trans ⟨_, rfl⟩

theorem rebalances_resolveMaturedUnbonding {ε : Type} [Errors ε]
    (h : (resolveMaturedUnbonding height : Read ε _).run rows.view = .ok u) :
    Rebalances rows AnyChange u.accounts := by
  obtain ⟨haccounts, -⟩ | ⟨pairs, due, -, -, hfold⟩ := run_resolveMaturedUnbonding h
  · rw [haccounts]
    exact rebalances_nil
  · exact rebalances_releases rebalances_nil hfold

end Effects

end Arxium
