import Arxium.Node.Nonces
import Arxium.Genesis.Snapshot
import Arxium.Runtime.Plain

/-!
# Node/Stake — staked coins are there

Every part of a block takes the vaults along their steps, so whatever a chain does to a vault, it stays
sound (`Backed`, `stake_backed`).  Two things could empty a sub-account past the staking circuit: a
dispute's correction, and whoever can sign for it.  No key belongs to a derived address; a policy given
to one in the genesis spec does let its owners sign.
-/

namespace Arxium

open ReadProg Writes

/-! ## Rows after a turn -/

section Vaults

variable [Crypto] {s s' : Rows} {u : BlockUpdates}

/-- A vault is made of plain rows. -/
theorem SamePlain.vault (h : SamePlain s s') (v : Address) : s'.vault v = s.vault v := by
  refine Vault.ext ?_ (funext fun m => h (.stake m v) rfl) ?_
  · exact congrArg (Option.getD (α := List Address) · []) (h (.stakeByValidator v) rfl)
  · exact congrArg (fun row => (Option.getD (α := AccountEntry) row default).balance)
      (h (.account (stakeSubaccount v)) rfl)

theorem vault_viewWrites (hgov : GovernanceRows u.governance) (v : Address) :
    Rows.vault (Writes.apply u.viewWrites s) v = (s.vault v).after v u.accounts u.stakes := by
  refine Rows.vault_apply ?_ (fun m => ?_) ?_
  · exact lookup_viewWrites hgov (c := .accounts) rfl
  · exact lookup_viewWrites hgov (c := .allocations) rfl
  · exact lookup_viewWrites hgov (c := .validatorIndex) rfl

omit [Crypto] in
theorem programmable_eq (x : Address) : s.programmable x = (s.account x).programmable := by
  unfold Rows.programmable Rows.account
  cases (s (.account x) : Option AccountEntry) <;> rfl

end Vaults

/-! ## Active stake -/

/-- What a master has staked and not taken back. -/
def Vault.active (w : Vault) (m : Address) : Nat := (w.allocation m).elim 0 (·.activeAmount)

/-- What a master has staked to a validator and not taken back. -/
def Rows.activeStake (s : Rows) (m v : Address) : Nat := (s.allocation m v).elim 0 (·.activeAmount)

theorem active_update (f : Address → Option StakeAllocation) (master m : Address)
    (a : Option StakeAllocation) :
    (Function.update f master a m).elim 0 StakeAllocation.activeAmount =
      if m = master then a.elim 0 (·.activeAmount) else (f m).elim 0 (·.activeAmount) := by
  by_cases hm : m = master
  · subst hm
    rw [Function.update_self, if_pos rfl]
  · rw [Function.update_of_ne hm, if_neg hm]

theorem Vault.active_settle (w : Vault) {master : Address} {a left : StakeAllocation} {balance : Nat}
    (hstored : w.allocation master = some a) (hle : left.activeAmount ≤ a.activeAmount) (m : Address) :
    (w.settle master left balance).active m ≤ w.active m := by
  have hmaster : m = master → w.active m = a.activeAmount := by
    rintro rfl
    rw [Vault.active, hstored]
    rfl
  unfold Vault.settle
  split
  all_goals
    rw [Vault.active, active_update]
    split
    · rename_i hm
      rw [hmaster hm]
      first | exact Nat.zero_le _ | exact hle
    · exact le_rfl

/-- **Only staking raises an active amount**, and not above the cap. -/
theorem Vault.Step.active {v : Address} {w w' : Vault} (h : w.Step v w') (m : Address) :
    w'.active m ≤ w.active m ∨ w'.active m ≤ maxDelegationPerValidator := by
  cases h with
  | deposit => exact .inl le_rfl
  | @stake master amount height masters free capped fits =>
    rw [Vault.active, active_update]
    split
    · exact .inr capped
    · exact .inl le_rfl
  | @unstake master a amount unlock height stored free positive held =>
    refine .inl ?_
    rw [Vault.active, active_update]
    split
    · rename_i hm
      rw [Vault.active, hm, stored]
      exact Nat.sub_le _ _
    · exact le_rfl
  | slash height first stored held =>
    refine .inl (w.active_settle stored ?_ m)
    exact Nat.sub_le _ _
  | release stored unbonding held =>
    refine .inl (w.active_settle stored ?_ m)
    exact le_rfl

theorem Vault.Path.active {v : Address} {w w' : Vault} (h : Vault.Path v w w') (m : Address) :
    w'.active m ≤ w.active m ∨ w'.active m ≤ maxDelegationPerValidator := by
  induction h with
  | refl => exact .inl le_rfl
  | tail _ step ih =>
    obtain hle | hcap := step.active m
    · exact ih.imp hle.trans hle.trans
    · exact .inr hcap

/-! ## The invariant -/

/-- **What every state of a chain keeps**: sound vaults, no policy on a sub-account, and no unbonding
listed twice. -/
structure Backed [Crypto] (s : Rows) : Prop where
  sound : ∀ v, (s.vault v).Sound v
  unowned : ∀ v, s.programmable (stakeSubaccount v) = none
  due : ∀ height (pairs : List (Address × Address)), s (.unbondingDue height) = some pairs → pairs.Nodup

section Turn

variable [Crypto] [Wire ActionPayload] [Zk] [StateTrie] [Decode] {t : Turn} {u : BlockUpdates}

/-- Nobody signs with the key of a sub-account: its address is a digest, not a key. -/
def Turn.Unforged (t : Turn) : Prop :=
  ∀ ctx action, t.stage = .acted ctx action → ∀ v, action.sender = stakeSubaccount v →
    action.verifySignature ctx.genesis ≠ .ok ()

/-- The turn executes no dispute correction of a sub-account. -/
def Turn.SparesStake (t : Turn) : Prop :=
  ∀ ctx action id, ∀ proposal closed : Proposal, t.stage = .acted ctx action →
    action.payload = .executeProposal id → t.before (.proposal id) = some proposal →
    t.after (.proposal id) = some closed → closed.status = .executed →
    ∀ v, ¬ proposal.action.Corrects (stakeSubaccount v)

/-- Without a policy, only a key can sign. -/
theorem Turn.Valid.sender_ne (h : t.Valid u) (hb : Backed t.before) (hkeys : t.Unforged)
    {ctx : DispatchCtx} {action : ChainAction} (hstage : t.stage = .acted ctx action) (v : Address) :
    stakeSubaccount v ≠ action.sender := by
  intro hv
  have hreturned := h.returned
  rw [hstage] at hreturned
  have hverified := hreturned.1
  rw [← hv, hb.unowned v] at hverified
  obtain ⟨auth, hauth⟩ := exists_ok_of_isOk hverified
  obtain ⟨_, hsigned, -⟩ := bind_eq_ok.mp hauth
  exact hkeys ctx action hstage v hv.symm hsigned

/-- The row of a proposal after a turn. -/
theorem Turn.Valid.proposal_eq (h : t.Valid u) (id : Nat) {closed : Proposal}
    (hclosed : lookup u.governance (.proposal id) = some (some closed)) :
    t.after (.proposal id) = some closed := by
  rw [h.written (.proposal id) rfl, apply_apply,
    lookup_viewWrites h.governance (c := .governance) rfl]
  exact congrArg (Option.getD · _) hclosed

/-- **Every turn takes the vaults along their steps.** -/
theorem Turn.Valid.vaultsMove (laws : Crypto.Laws) (h : t.Valid u) (hb : Backed t.before)
    (hkeys : t.Unforged) (hspared : t.SparesStake) : VaultsMove t.before u.accounts u.stakes := by
  have hreturned := h.returned
  cases hstage : t.stage with
  | matured height =>
    rw [hstage] at hreturned
    exact vaultsMove_resolveMaturedUnbonding laws (hb.due height)
      (fun m v => (hb.sound v).named m) hreturned
  | acted ctx action =>
    rw [hstage] at hreturned
    refine Runtime.vaultsMove_dispatchWith laws (h.sender_ne hb hkeys hstage)
      (fun id proposal hp hstored hclosed => ?_) hreturned.2
    exact hspared ctx action id proposal _ hstage hp hstored (h.proposal_eq id hclosed) rfl
  | closed written proposer fees validators height =>
    rw [hstage] at hreturned
    obtain ⟨seen, hsame, hran⟩ := hreturned
    intro v
    have hpath := Runtime.vaultsMove_sealBlock laws hran v
    rwa [hsame.vault v] at hpath

theorem Turn.Valid.vault_eq (h : t.Valid u) (v : Address) :
    t.after.vault v = (t.before.vault v).after v u.accounts u.stakes := by
  rw [h.written.vault v, vault_viewWrites h.governance]

/-- Nobody but the sender of an action gets a policy. -/
theorem Turn.Valid.programmable_eq (h : t.Valid u) {x : Address}
    (hx : ∀ ctx action, t.stage = .acted ctx action → x ≠ action.sender) :
    t.after.programmable x = t.before.programmable x := by
  rw [Arxium.programmable_eq, Arxium.programmable_eq]
  exact (h.sameOwner hx).programmable

omit [Crypto] [Wire ActionPayload] [Zk] [StateTrie] [Decode] in
theorem nodup_listed {pairs : List (Address × Address)} (h : pairs.Nodup) (p : Address × Address) :
    (if pairs.contains p then pairs else pairs ++ [p]).Nodup := by
  split
  · exact h
  · rename_i hnew
    refine List.nodup_append.mpr ⟨h, List.nodup_singleton p, fun q hq r hr he => ?_⟩
    obtain rfl := List.mem_singleton.mp hr
    subst he
    exact hnew (List.contains_iff_mem.mpr hq)

omit [Crypto] [Wire ActionPayload] [Zk] [StateTrie] [Decode] in
/-- What `indexUnbonding` lists is listed once. -/
theorem nodup_indexUnbonding {ε : Type} [Errors ε] {s : Rows} {unlock : Nat} {master validator : Address}
    {ws : GovernanceUpdates} (hdue : ∀ pairs : List (Address × Address),
      s (.unbondingDue unlock) = some pairs → pairs.Nodup)
    (h : (indexUnbonding unlock master validator : Read ε _).run s.view = .ok ws) :
    ∃ pairs : List (Address × Address), pairs.Nodup ∧ ws = [put (.unbondingDue unlock) pairs] := by
  obtain ⟨row, hrow, h⟩ := bind_ok.mp h
  rw [Rows.run_getRow] at hrow
  obtain rfl := Except.ok.inj hrow
  obtain rfl := Except.ok.inj h
  have hstored : (Option.getD (α := List (Address × Address)) (s (.unbondingDue unlock)) []).Nodup := by
    cases hrow : s (.unbondingDue unlock) with
    | none => exact List.nodup_nil
    | some pairs => exact hdue pairs hrow
  exact ⟨_, nodup_listed hstored _, rfl⟩

omit [Crypto] [Wire ActionPayload] [Zk] [StateTrie] [Decode] in
theorem eq_of_lookup_due {unlock height : Nat} {listed pairs : List (Address × Address)}
    (h : lookup [(put (.unbondingDue unlock) listed : RowWrite)] (.unbondingDue height) =
      some (some pairs)) : listed = pairs := by
  rw [lookup_cons, lookup_nil, Option.none_or] at h
  by_cases hheight : unlock = height
  · subst hheight
    exact Option.some.inj (Option.some.inj ((put_effect_self _ _).symm.trans h))
  · have hkey : (put (.unbondingDue unlock) listed : RowWrite).key ≠ .unbondingDue height := by
      intro he
      injection he with he
      exact hheight he
    rw [Write.effect_of_ne hkey] at h
    cases h

/-- What a turn writes to a list of unbondings is without duplicates. -/
theorem Turn.Valid.due_nodup (h : t.Valid u) (hb : Backed t.before) (height : Nat)
    {pairs : List (Address × Address)}
    (hw : lookup u.governance (.unbondingDue height) = some (some pairs)) : pairs.Nodup := by
  have hfree : (∀ w ∈ u.governance, w.key.isDue = false) → False := by
    intro hnone
    rw [lookup_eq_none fun w hmem he => ?_] at hw
    · cases hw
    · have hdue := hnone w hmem
      rw [he] at hdue
      cases hdue
  have hreturned := h.returned
  cases hstage : t.stage with
  | matured maturing =>
    rw [hstage] at hreturned
    obtain ⟨⟨accounts, stakes, governance⟩, hresolve, hret⟩ := bind_ok.mp hreturned
    obtain rfl := Except.ok.inj hret
    -- All a matured unbonding does to the lists is to delete one.
    have hrows : governance = [] ∨ governance = [del (.unbondingDue maturing)] := by
      unfold resolveDueUnbonding at hresolve
      obtain ⟨row, hresolve⟩ := run_rest hresolve
      split at hresolve
      · obtain ⟨_, _, hresolve⟩ := run_rest₂ hresolve
        injection hresolve with hresolve
        injection hresolve with _ hresolve
        injection hresolve with _ hgovernance
        exact .inr hgovernance.symm
      · injection hresolve with hresolve
        injection hresolve with _ hresolve
        injection hresolve with _ hgovernance
        exact .inl hgovernance.symm
    obtain rfl | rfl := hrows
    · cases hw
    · by_cases hheight : maturing = height
      · subst hheight
        rw [lookup_cons, lookup_nil, Option.none_or] at hw
        have hdeleted : (none : Option (List (Address × Address))) = some pairs :=
          Option.some.inj ((del (.unbondingDue maturing) : RowWrite).effect_self.symm.trans hw)
        cases hdeleted
      · rw [lookup_eq_none fun w hmem he => ?_] at hw
        · cases hw
        · obtain rfl := List.mem_singleton.mp hmem
          injection he with he
          exact hheight he
  | acted ctx action =>
    rw [hstage] at hreturned
    obtain ⟨inner, hinner, accounts, rfl⟩ := Runtime.run_dispatchWith hreturned.2
    by_cases hunstake : ∃ validator amount, action.payload = .unstake validator amount
    · obtain ⟨validator, amount, hp⟩ := hunstake
      rw [Runtime.dispatchInner, hp] at hinner
      obtain ⟨unbondingBlocks, hinner⟩ := run_rest hinner
      obtain ⟨⟨_, _⟩, -, hinner⟩ := bind_ok.mp hinner
      obtain ⟨ws, hws, hinner⟩ := bind_ok.mp hinner
      obtain rfl := Except.ok.inj hinner
      obtain ⟨listed, hnodup, rfl⟩ := nodup_indexUnbonding (hb.due _) hws
      obtain rfl := eq_of_lookup_due hw
      exact hnodup
    · have hnot : ∀ validator amount, action.payload ≠ .unstake validator amount :=
        fun validator amount hp => hunstake ⟨validator, amount, hp⟩
      exact (hfree ((Runtime.yields_not_due hnot).ensures _ inner hinner)).elim
  | closed written proposer fees validators closing =>
    rw [hstage] at hreturned
    obtain ⟨seen, -, hran⟩ := hreturned
    refine (hfree fun w hmem => ?_).elim
    have honly := (Runtime.yields_sealBlock written proposer fees validators closing).ensures _ u hran
    rcases honly.governance with hnone | ⟨list, hlist⟩
    · rw [hnone] at hmem
      cases hmem
    · rw [hlist] at hmem
      obtain rfl := List.mem_singleton.mp hmem
      rfl

/-- **Every turn keeps the invariant.** -/
theorem Turn.Valid.backed (laws : Crypto.Laws) (h : t.Valid u) (hb : Backed t.before)
    (hkeys : t.Unforged) (hspared : t.SparesStake) : Backed t.after where
  sound v := by
    rw [h.vault_eq v]
    exact (h.vaultsMove laws hb hkeys hspared v).sound (hb.sound v)
  unowned v := by
    rw [h.programmable_eq fun ctx action hstage => h.sender_ne hb hkeys hstage v]
    exact hb.unowned v
  due height pairs hpairs := by
    rw [h.written (.unbondingDue height) rfl, apply_apply,
      lookup_viewWrites h.governance (c := .governance) rfl] at hpairs
    change (lookup u.governance (.unbondingDue height)).getD _ = _ at hpairs
    cases hw : lookup u.governance (.unbondingDue height) with
    | none =>
      rw [hw] at hpairs
      exact hb.due height pairs hpairs
    | some row =>
      rw [hw] at hpairs
      obtain rfl : row = some pairs := hpairs
      exact h.due_nodup hb height hw

end Turn

/-! ## The theorem -/

/-- The balances of a spec are 128 bits wide. -/
def Snapshot.Typed (snapshot : Snapshot) : Prop :=
  ∀ (a : Address) (e : AccountEntry), snapshot.accounts[a]? = some e → e.balance ≤ u128Max

/-- No stake sub-account is given a policy. -/
def Snapshot.NoStakePolicy [Crypto] (snapshot : Snapshot) : Prop :=
  ∀ (v : Address) (e : AccountEntry), snapshot.accounts[stakeSubaccount v]? = some e →
    e.programmable = none

/-- What all masters together have allocated to a validator, unbonding or not. -/
noncomputable def Rows.allocated (s : Rows) (v : Address) : Nat :=
  ∑ᶠ m, (s.allocation m v).elim 0 StakeAllocation.total

/-- **Stake is backed**: the sub-account covers the allocations, the list of masters is exactly those
with an allocation, and there is at most one. -/
structure Rows.StakeBacked [Crypto] (s : Rows) (v : Address) : Prop where
  covered : s.allocated v ≤ (s.account (stakeSubaccount v)).balance
  listed : ∀ m, m ∈ s.masters v ↔ (s.allocation m v).isSome = true
  one : (s.masters v).length ≤ 1

theorem Vault.Sound.stakeBacked [Crypto] {s : Rows} {v : Address} (h : (s.vault v).Sound v) :
    s.StakeBacked v where
  listed := h.listed
  one := h.one
  covered := by
    by_cases hsome : ∃ m, (s.allocation m v).isSome = true
    · obtain ⟨m, hm⟩ := hsome
      have hother : ∀ m', m' ≠ m → (s.allocation m' v).elim 0 StakeAllocation.total = 0 := by
        intro m' hne
        have hnone : s.allocation m' v = none := h.allocation_eq_none hm hne
        rw [hnone]
        rfl
      rw [Rows.allocated, finsum_eq_single _ m hother]
      obtain ⟨a, ha⟩ := Option.isSome_iff_exists.mp hm
      rw [ha]
      exact h.backed m a ha
    · have hzero : ∀ m, (s.allocation m v).elim 0 StakeAllocation.total = 0 := by
        intro m
        rw [Option.not_isSome_iff_eq_none.mp fun hm => hsome ⟨m, hm⟩]
        rfl
      rw [Rows.allocated, finsum_eq_zero_of_forall_eq_zero hzero]
      exact Nat.zero_le _

section Genesis

variable [Crypto]

theorem Snapshot.backed_install (laws : Crypto.Laws) {snapshot : Snapshot} {root : String} {rows : Rows}
    (h : snapshot.install root = .ok rows) (htyped : snapshot.Typed)
    (hpolicy : snapshot.NoStakePolicy) : Backed rows where
  sound := snapshot.sound_install laws h htyped
  unowned v := by
    have hsub : (snapshot.subAccount v).programmable = none := by
      unfold Snapshot.subAccount
      cases hget : snapshot.accounts[stakeSubaccount v]? with
      | none => rfl
      | some e => exact hpolicy v e hget
    rw [programmable_eq, Snapshot.account_install laws h v]
    cases snapshot.validators[v]? <;> exact hsub
  due height pairs hpairs := by
    rw [Snapshot.due_install h height] at hpairs
    cases hpairs

variable [Wire ActionPayload] [Zk] [StateTrie] [Decode]

/-- **In every state a chain reaches, stake is backed**, and no turn raised an active amount above the
cap, provided the genesis spec gave no sub-account a policy. -/
theorem stake_backed (laws : Crypto.Laws) {snapshot : Snapshot} {root : String} {rows s : Rows}
    {hist : List Turn} (hgenesis : snapshot.install root = .ok rows) (htyped : snapshot.Typed)
    (hpolicy : snapshot.NoStakePolicy) (hrun : Turns rows hist s) (hkeys : ∀ t ∈ hist, t.Unforged)
    (hspared : ∀ t ∈ hist, t.SparesStake) :
    (∀ v, s.StakeBacked v) ∧ ∀ t ∈ hist, ∀ m v,
      t.before.activeStake m v < t.after.activeStake m v →
        t.after.activeStake m v ≤ maxDelegationPerValidator := by
  have hstart := snapshot.backed_install laws hgenesis htyped hpolicy
  have hstep : ∀ t u, t ∈ hist → Turn.Valid t u → Backed t.before → Backed t.after :=
    fun t u ht valid hb => valid.backed laws hb (hkeys t ht) (hspared t ht)
  refine ⟨fun v => ((hrun.induct hstart hstep).sound v).stakeBacked, fun t ht m v hraised => ?_⟩
  obtain ⟨⟨u, valid⟩, hb⟩ := hrun.induct_mem hstart hstep t ht
  have hpath := valid.vaultsMove laws hb (hkeys t ht) (hspared t ht) v
  rw [← valid.vault_eq v] at hpath
  exact (hpath.active m).resolve_left (Nat.not_le.mpr hraised)

end Genesis

section After

variable [Crypto] [Wire ActionPayload] [Zk] [StateTrie] [Decode]

/-- An action that writes no allocation leaves them all. -/
theorem allocation_after {s : Rows} {ctx : DispatchCtx} {action : ChainAction}
    (h : ((Runtime.dispatch ctx action).run s.view).toOption.all
      (fun u => u.stakes.allocations.isEmpty && u.governance.isEmpty) = true) (v m : Address) :
    (s.after ctx action).allocation m v = s.allocation m v := by
  unfold Rows.after
  cases hrun : (Runtime.dispatch ctx action).run s.view with
  | error e => rfl
  | ok u =>
    rw [hrun] at h
    simp only [Except.toOption, Option.all_some, Bool.and_eq_true, List.isEmpty_iff] at h
    have hgov : GovernanceRows u.governance := by
      rw [h.2]
      exact governanceRows_nil
    have hlookup : lookup u.viewWrites (.stake m v) = none := by
      rw [lookup_viewWrites hgov (c := .allocations) rfl, Category.writes, h.1]
      rfl
    exact (apply_apply u.viewWrites s (.stake m v)).trans (congrArg (Option.getD · _) hlookup)

end After

/-! ## One validator

A spec with one validator, whose sub-account's digest is as long as a key. -/

namespace OneValidator

def key (n : UInt8) : Bytes := List.replicate 32 n

/-- As in `Runtime/Plain`, with the length real addresses have. -/
def bech32Encode (hrp : String) (b : Bytes) : String :=
  String.ofList (List.replicate 23 'p' ++ (Plain.bech32Encode hrp b).toList)

def bech32Decode (text : String) : Option (String × Bytes) :=
  Plain.bech32Decode (String.ofList (text.toList.drop 23))

theorem bech32_roundtrip (hrp : String) (b : Bytes) :
    bech32Decode (bech32Encode hrp b) = some (hrp, b) := by
  rw [bech32Decode, bech32Encode, String.toList_ofList, List.drop_left' (by simp), String.ofList_toList]
  exact Plain.bech32_roundtrip hrp b

def address (n : UInt8) : Address := ⟨bech32Encode "arx" (key n)⟩

def validator : Address := address 7

/-- What the address of the validator's sub-account is the digest of. -/
def preimage : Bytes := strBytes "xc-stake-subaccount:" ++ strBytes validator.text

/-- Hashing changes only that, to 32 bytes. -/
@[reducible] def crypto : Crypto :=
  { Plain.crypto fun _ _ _ => true with
    bech32Encode := bech32Encode
    bech32Decode := bech32Decode
    sha256 := Equiv.swap preimage (key 9) }

theorem crypto_laws : @Crypto.Laws crypto :=
  @Crypto.Laws.mk crypto (Equiv.swap preimage (key 9)).injective (fun _ => rfl) bech32_roundtrip

attribute [local instance] crypto Plain.wire Plain.zk Plain.trie Plain.decoders

set_option maxRecDepth 20000

theorem stakeSubaccount_validator : stakeSubaccount validator = address 9 := by
  change (⟨bech32Encode "arx" (Equiv.swap preimage (key 9) preimage)⟩ : Address) = _
  rw [Equiv.swap_apply_left]
  rfl

/-- Nothing costs anything. -/
def params : ChainParams := { actionFee := 0, weightFee := 0 }

/-- The validator staked 100 and has 50 left; more accounts may be given. -/
def spec (more : List (Address × AccountEntry)) : Snapshot where
  chainName := "one"
  accounts := Std.ExtTreeMap.ofList ((validator, ({ balance := 50 } : AccountEntry)) :: more)
  validators := Std.ExtTreeMap.ofList [(validator, ({ stake := 100 } : ValidatorEntry))]
  params := params

/-- The rows it is installed as. -/
def rows (more : List (Address × AccountEntry)) : Rows :=
  ((spec more).install "0x").toOption.getD fun _ => none

theorem install_eq {more : List (Address × AccountEntry)}
    (h : ((spec more).install "0x").isOk = true) : (spec more).install "0x" = .ok (rows more) := by
  obtain ⟨installed, hinstalled⟩ := exists_ok_of_isOk h
  rw [rows, hinstalled]
  rfl

def ctx : DispatchCtx := ⟨[validator], 1, 1, []⟩

theorem install_none : ((spec []).install "0x").isOk = true := by decide +kernel

theorem key_of_address {n : UInt8} {v : Address} (h : stakeSubaccount v = address n) :
    Equiv.swap preimage (key 9) (strBytes "xc-stake-subaccount:" ++ strBytes v.text) = key n :=
  crypto_laws.bech32Encode_injective "arx" (congrArg Address.text h)

theorem stakeSubaccount_ne_validator (v : Address) : stakeSubaccount v ≠ validator := by
  intro h
  have hkey := key_of_address h
  rw [Equiv.swap_apply_eq_iff, Equiv.swap_apply_of_ne_of_ne (by decide +kernel) (by decide +kernel)] at hkey
  have hfirst : (strBytes "xc-stake-subaccount:" ++ strBytes v.text)[0]? = (key 7)[0]? := by rw [hkey]
  rw [List.getElem?_append_left (by decide)] at hfirst
  exact absurd hfirst (by decide)

/-- The validator stakes ten more. -/
def selfStake : ChainAction :=
  ⟨validator, 0, some (String.ofList (List.replicate 128 'a')), .stake validator 10⟩

theorem stake_backed_self_stake :
    ((rows []).after ctx selfStake).activeStake validator validator = 110 ∧
      ∀ v, ((rows []).after ctx selfStake).StakeBacked v := by
  have hrun : Turns (rows []) _ ((rows []).after ctx selfStake) :=
    Turns.nil.act (by decide +kernel) (by decide +kernel)
  have hbalances : ∀ p ∈ (spec []).accounts.toList, p.2.balance ≤ u128Max ∧ p.2.programmable = none := by
    decide +kernel
  refine ⟨by decide +kernel, (stake_backed crypto_laws (install_eq install_none) (fun a e he => ?_)
    (fun v e he => ?_) hrun ?_ ?_).1⟩
  · exact (hbalances (a, e) (Std.ExtTreeMap.mem_toList_iff_getElem?_eq_some.mpr he)).1
  · exact (hbalances (_, e) (Std.ExtTreeMap.mem_toList_iff_getElem?_eq_some.mpr he)).2
  · refine List.forall_mem_singleton.mpr fun _ _ hstage v hv => ?_
    obtain ⟨rfl, rfl⟩ := Stage.acted.inj hstage
    exact absurd hv.symm (stakeSubaccount_ne_validator v)
  · refine List.forall_mem_singleton.mpr fun _ _ id _ _ hstage hp => ?_
    obtain ⟨rfl, rfl⟩ := Stage.acted.inj hstage
    cases hp

/-- A spec that hands the validator's sub-account to the owner of key 3. -/
def owned : List (Address × AccountEntry) :=
  [(address 9, { programmable := some ⟨⟨⟨1, [key 3]⟩, [], none, [], none⟩, [], none⟩ })]

/-- That owner moves forty of the staked coins to an account of its own. -/
def withdrawal : ChainAction :=
  ⟨address 9, 0, some (hexEncode ([0xa7, 0, 1, 1] ++ key 3 ++ 0 :: List.replicate 64 3)),
    .transfer (address 5) 40⟩

theorem install_owned : ((spec owned).install "0x").isOk = true := by decide +kernel

/-- The allocation is still the whole stake. -/
theorem allocated_withdrawal : ((rows owned).after ctx withdrawal).allocated validator = 100 := by
  have hsame : ∀ m, ((rows owned).after ctx withdrawal).allocation m validator =
      (rows owned).allocation m validator := allocation_after (by decide +kernel) validator
  have hentry : (spec owned).validators[validator]? = some { stake := 100 } := by decide +kernel
  have hrows : ∀ m, (rows owned).allocation m validator =
      if m = validator then some ((spec owned).allocation validator { stake := 100 }) else none := by
    intro m
    rw [Snapshot.allocation_install (install_eq install_owned), hentry]
    rfl
  rw [Rows.allocated, finsum_eq_single _ validator fun m hm => by rw [hsame, hrows, if_neg hm]; rfl,
    hsame, hrows, if_pos rfl]
  rfl

/-- **A policy in the spec empties a vault**: everything else `stake_backed` asks for holds. -/
theorem policy_empties_vault : (spec owned).install "0x" = .ok (rows owned) ∧ (spec owned).Typed ∧
    ∃ hist, Turns (rows owned) hist ((rows owned).after ctx withdrawal) ∧
      (∀ t ∈ hist, t.Unforged) ∧ (∀ t ∈ hist, t.SparesStake) ∧
      ¬ ((rows owned).after ctx withdrawal).StakeBacked validator := by
  have hbalances : ∀ p ∈ (spec owned).accounts.toList, p.2.balance ≤ u128Max := by decide +kernel
  refine ⟨install_eq install_owned,
    fun a e he => hbalances (a, e) (Std.ExtTreeMap.mem_toList_iff_getElem?_eq_some.mpr he),
    _, Turns.nil.act (by decide +kernel) (by decide +kernel), ?_, ?_, fun hbacked => ?_⟩
  · refine List.forall_mem_singleton.mpr fun _ _ hstage v _ => ?_
    obtain ⟨rfl, rfl⟩ := Stage.acted.inj hstage
    decide +kernel
  · refine List.forall_mem_singleton.mpr fun _ _ id _ _ hstage hp => ?_
    obtain ⟨rfl, rfl⟩ := Stage.acted.inj hstage
    cases hp
  · have hcovered := hbacked.covered
    have hbalance : (((rows owned).after ctx withdrawal).account (stakeSubaccount validator)).balance = 60 := by
      rw [stakeSubaccount_validator]
      decide +kernel
    rw [allocated_withdrawal, hbalance] at hcovered
    exact absurd hcovered (by decide)

end OneValidator

end Arxium
