import Arxium.Runtime.Accounts

/-!
# Runtime/Vaults — what is staked to one validator

A validator's vault is its list of masters, what each of them has allocated, and the balance of the
sub-account that holds the coins.  These are three kinds of rows, written by different functions; a
vault puts them together.  Whatever happens to a vault is one of five steps (`Vault.Step`), and every
step keeps it sound: at most one master, listed exactly while it has an allocation, and never more
allocated than the sub-account holds (`Vault.Step.sound`).
-/

namespace Arxium

open ReadProg Writes

/-! ## Vaults -/

/-- What is staked to one validator. -/
@[ext] structure Vault where
  masters : List Address
  allocation : Address → Option StakeAllocation
  balance : Nat

namespace Vault

/-- One master's allocation after something was taken out of it: an empty one goes, and its master with
it. -/
def settle (w : Vault) (master : Address) (left : StakeAllocation) (balance : Nat) : Vault :=
  if left.activeAmount = 0 ∧ left.unbonding = none then
    ⟨[], Function.update w.allocation master none, balance⟩
  else ⟨w.masters, Function.update w.allocation master (some left), balance⟩

/-- **One step of a vault.** -/
inductive Step (v : Address) (w : Vault) : Vault → Prop
  | deposit {balance : Nat} (grows : Grows w.balance balance) : Step v w { w with balance := balance }
  | stake {master : Address} {amount height : Nat} (masters : ∀ m ∈ w.masters, m = master)
      (free : ∀ a, w.allocation master = some a → a.unbonding = none)
      (capped : (stakedAllocation (w.allocation master) master v amount height).activeAmount ≤
        maxDelegationPerValidator)
      (fits : w.balance + amount ≤ u128Max) :
      Step v w ⟨[master], Function.update w.allocation master
        (some (stakedAllocation (w.allocation master) master v amount height)), w.balance + amount⟩
  | unstake {master : Address} {a : StakeAllocation} {amount : Nat} (unlock height : Nat)
      (stored : w.allocation master = some a) (free : a.unbonding = none) (positive : amount ≠ 0)
      (held : amount ≤ a.activeAmount) :
      Step v w { w with
        allocation := Function.update w.allocation master (some (a.unstaked amount unlock height)) }
  | slash {master : Address} {a : StakeAllocation} {amount : Nat} (height : Nat)
      (first : w.masters.head? = some master) (stored : w.allocation master = some a)
      (held : amount ≤ a.total) :
      Step v w (w.settle master (a.slashed amount height) (w.balance - min w.balance amount))
  | release {master : Address} {a : StakeAllocation} {batch : Unbonding}
      (stored : w.allocation master = some a) (unbonding : a.unbonding = some batch)
      (held : batch.amount ≤ w.balance) :
      Step v w (w.settle master { a with unbonding := none } (w.balance - batch.amount))

/-- **A sound vault.** -/
structure Sound (v : Address) (w : Vault) : Prop where
  one : w.masters.length ≤ 1
  listed : ∀ m, m ∈ w.masters ↔ (w.allocation m).isSome = true
  named : ∀ m a, w.allocation m = some a → a.master = m ∧ a.validator = v
  backed : ∀ m a, w.allocation m = some a → a.total ≤ w.balance
  fits : w.balance ≤ u128Max

variable {v : Address} {w w' : Vault}

/-- All stake is one master's. -/
theorem Sound.eq_of_some (h : w.Sound v) {m m' : Address} (hm : (w.allocation m).isSome = true)
    (hm' : (w.allocation m').isSome = true) : m = m' := by
  have h₁ := (h.listed m).mpr hm
  have h₂ := (h.listed m').mpr hm'
  match hw : w.masters with
  | [] => rw [hw] at h₁; cases h₁
  | [x] =>
    rw [hw] at h₁ h₂
    exact (List.mem_singleton.mp h₁).trans (List.mem_singleton.mp h₂).symm
  | _ :: _ :: _ =>
    have := h.one
    simp [hw] at this

/-- With one master left, every allocation but its own is gone. -/
theorem Sound.allocation_eq_none (h : w.Sound v) {master m : Address}
    (hmaster : (w.allocation master).isSome = true) (hne : m ≠ master) : w.allocation m = none := by
  rw [← Option.not_isSome_iff_eq_none]
  exact fun hm => hne (h.eq_of_some hm hmaster)

theorem Sound.settle (h : w.Sound v) {master : Address} {a left : StakeAllocation} {balance : Nat}
    (hstored : w.allocation master = some a) (hname : left.master = a.master)
    (hvalidator : left.validator = a.validator) (htotal : left.total ≤ balance)
    (hbalance : balance ≤ w.balance) : (w.settle master left balance).Sound v := by
  have hsome : (w.allocation master).isSome = true := by rw [hstored]; rfl
  have hother : ∀ m, m ≠ master → w.allocation m = none := fun m => h.allocation_eq_none hsome
  have hmasters : w.masters = [master] := by
    have hmem := (h.listed master).mpr hsome
    match hw : w.masters with
    | [] => rw [hw] at hmem; cases hmem
    | [x] => rw [hw, List.mem_singleton] at hmem; rw [hmem]
    | _ :: _ :: _ => have := h.one; simp [hw] at this
  have hfits := hbalance.trans h.fits
  unfold Vault.settle
  split
  · refine ⟨Nat.zero_le _, fun m => ?_, fun m b hb => ?_, fun m b hb => ?_, hfits⟩
    all_goals by_cases hm : m = master
    · simp [hm]
    · simp [hm, hother m hm]
    · simp [hm] at hb
    · simp [hm, hother m hm] at hb
    · simp [hm] at hb
    · simp [hm, hother m hm] at hb
  · refine ⟨h.one, fun m => ?_, fun m b hb => ?_, fun m b hb => ?_, hfits⟩
    all_goals by_cases hm : m = master
    · simp [hm, hmasters]
    · simp [hm, hmasters, hother m hm]
    · simp only [hm, Function.update_self, Option.some.injEq] at hb
      rw [← hb, hname, hvalidator, hm]
      exact h.named master a hstored
    · simp [hm, hother m hm] at hb
    · simp only [hm, Function.update_self, Option.some.injEq] at hb
      rw [← hb]
      exact htotal
    · simp [hm, hother m hm] at hb

theorem total_unstaked {a : StakeAllocation} {amount : Nat} (hfree : a.unbonding = none)
    (hheld : amount ≤ a.activeAmount) (unlock height : Nat) :
    (a.unstaked amount unlock height).total = a.total := by
  simp only [StakeAllocation.total, StakeAllocation.unstaked, StakeAllocation.unbondingAmount, hfree,
    Option.elim_some, Option.elim_none]
  omega

/-- A slash takes what it takes out of the two parts together. -/
theorem total_slashed {a : StakeAllocation} {slash : Nat} (hheld : slash ≤ a.total) (height : Nat) :
    (a.slashed slash height).total = a.total - slash := by
  unfold StakeAllocation.total StakeAllocation.slashed StakeAllocation.unbondingAmount at *
  dsimp only
  cases hu : a.unbonding with
  | none =>
    rw [hu] at hheld
    simp only [Option.elim_none, Nat.add_zero, Option.bind_none, ite_self] at hheld ⊢
    omega
  | some u =>
    rw [hu] at hheld
    simp only [Option.elim_some, Option.bind_some] at hheld ⊢
    split
    · simp only [Option.elim_some]
      omega
    · split
      · simp only [Option.elim_none]
        omega
      · simp only [Option.elim_some]
        omega

theorem total_released {a : StakeAllocation} {batch : Unbonding} (h : a.unbonding = some batch) :
    { a with unbonding := none : StakeAllocation }.total = a.total - batch.amount := by
  simp [StakeAllocation.total, StakeAllocation.unbondingAmount, h]

/-- **Every step keeps a vault sound.** -/
theorem Step.sound (h : w.Step v w') (hw : w.Sound v) : w'.Sound v := by
  cases h with
  | deposit grows =>
    obtain ⟨hle, hfits⟩ := grows hw.fits
    exact ⟨hw.one, hw.listed, hw.named, fun m a ha => (hw.backed m a ha).trans hle, hfits⟩
  | @stake master amount height masters free capped fits =>
    -- Nobody else has an allocation: it would be listed.
    have hother : ∀ m, m ≠ master → w.allocation m = none := by
      intro m hm
      rw [← Option.not_isSome_iff_eq_none]
      exact fun hsome => hm (masters m ((hw.listed m).mpr hsome))
    refine ⟨le_rfl, fun m => ?_, fun m b hb => ?_, fun m b hb => ?_, fits⟩
    all_goals by_cases hm : m = master
    · simp [hm]
    · simp [hm, hother m hm]
    · simp only [hm, Function.update_self, Option.some.injEq] at hb
      rw [← hb, hm]
      unfold stakedAllocation
      split
      · rename_i a ha
        exact hw.named master a ha
      · exact ⟨rfl, rfl⟩
    · simp [hm, hother m hm] at hb
    · simp only [hm, Function.update_self, Option.some.injEq] at hb
      rw [← hb]
      unfold stakedAllocation
      split
      · rename_i a ha
        have hle := hw.backed master a ha
        simp only [StakeAllocation.total, StakeAllocation.unbondingAmount] at hle ⊢
        omega
      · simp [StakeAllocation.total, StakeAllocation.unbondingAmount]
    · simp [hm, hother m hm] at hb
  | @unstake master a amount unlock height stored free positive held =>
    have hsettled : (w.settle master (a.unstaked amount unlock height) w.balance).Sound v :=
      hw.settle stored rfl rfl
        (by rw [total_unstaked free held]; exact hw.backed master a stored) le_rfl
    rwa [Vault.settle, if_neg (by simp [StakeAllocation.unstaked])] at hsettled
  | @slash master a amount height first stored held =>
    have hle := hw.backed master a stored
    refine hw.settle stored rfl rfl ?_ (Nat.sub_le _ _)
    rw [total_slashed held]
    omega
  | @release master a batch stored unbonding held =>
    have hle := hw.backed master a stored
    refine hw.settle stored rfl rfl ?_ (Nat.sub_le _ _)
    rw [total_released unbonding]
    omega

end Vault

/-! ## The vault in the rows -/

section Lookups

theorem lookup_accountWrites (accounts : AccountUpdates) (x : Address) :
    lookup (accountWrites accounts) (.account x) = (accounts.get? x).map some :=
  lookup_entries Key.account (fun _ => some) (fun _ _ => Key.account.inj) (fun _ => rfl) accounts x

/-- The writes of the allocations, and of the lists of masters. -/
def allocationWrites (stakes : StakeUpdates) : List RowWrite :=
  stakes.allocations.map fun p => ⟨.stake p.1.1 p.1.2, p.2⟩

def mastersWrites (stakes : StakeUpdates) : List RowWrite :=
  stakes.validatorIndex.map validatorIndexWrite

theorem lookup_allocationWrites (stakes : StakeUpdates) (m v : Address) :
    lookup (allocationWrites stakes) (.stake m v) = stakes.allocations.get? (m, v) := by
  have hentries := lookup_entries (fun p : Address × Address => Key.stake p.1 p.2) (fun _ a => a)
    (fun _ _ h => Prod.ext (Key.stake.inj h).1 (Key.stake.inj h).2) (fun _ => rfl)
    stakes.allocations (m, v)
  exact hentries.trans Option.map_id'

/-- The masters a row lists; a deleted row lists none. -/
def mastersOf {v : Address} (row : Option (Value (.stakeByValidator v))) : List Address :=
  Option.getD (α := List Address) row []

theorem lookup_mastersWrites (stakes : StakeUpdates) (v : Address) :
    (lookup (mastersWrites stakes) (.stakeByValidator v)).map mastersOf =
      stakes.validatorIndex.get? v := by
  have hentries := lookup_entries Key.stakeByValidator
    (fun _ masters => if masters.isEmpty then none else some masters)
    (fun _ _ => Key.stakeByValidator.inj) validatorIndexWrite_eq stakes.validatorIndex v
  rw [mastersWrites, hentries, Option.map_map]
  refine (Option.map_congr fun masters _ => ?_).trans Option.map_id'
  cases masters <;> rfl

end Lookups

theorem Rows.account_apply {rows : Rows} {ws : List RowWrite} {accounts : AccountUpdates} {x : Address}
    (h : lookup ws (.account x) = lookup (accountWrites accounts) (.account x)) :
    Rows.account (Writes.apply ws rows) x = (accounts.get? x).getD (rows.account x) := by
  rw [Rows.account, apply_apply, h, lookup_accountWrites]
  cases accounts.get? x <;> rfl

/-- Steps of a vault, one after the other. -/
abbrev Vault.Path (v : Address) : Vault → Vault → Prop := Relation.ReflTransGen (Vault.Step v)

theorem Vault.Path.sound {v : Address} {w w' : Vault} (h : Vault.Path v w w') (hw : w.Sound v) :
    w'.Sound v := by
  induction h with
  | refl => exact hw
  | tail _ step ih => exact step.sound ih

section InRows

variable [Crypto]

/-- A validator's vault. -/
def Rows.vault (rows : Rows) (v : Address) : Vault :=
  ⟨rows.masters v, fun m => rows.allocation m v, (rows.account (stakeSubaccount v)).balance⟩

/-- A vault with some updates made. -/
def Vault.after (w : Vault) (v : Address) (accounts : AccountUpdates) (stakes : StakeUpdates) : Vault where
  masters := (stakes.validatorIndex.get? v).getD w.masters
  allocation m := (stakes.allocations.get? (m, v)).getD (w.allocation m)
  balance := ((accounts.get? (stakeSubaccount v)).map (·.balance)).getD w.balance

/-- **Writing the updates is updating the vault.** -/
theorem Rows.vault_apply {rows : Rows} {ws : List RowWrite} {accounts : AccountUpdates}
    {stakes : StakeUpdates} {v : Address}
    (haccount : lookup ws (.account (stakeSubaccount v)) =
      lookup (accountWrites accounts) (.account (stakeSubaccount v)))
    (hstake : ∀ m, lookup ws (.stake m v) = lookup (allocationWrites stakes) (.stake m v))
    (hmasters : lookup ws (.stakeByValidator v) =
      lookup (mastersWrites stakes) (.stakeByValidator v)) :
    Rows.vault (Writes.apply ws rows) v = (rows.vault v).after v accounts stakes := by
  refine Vault.ext ?_ (funext fun m => ?_) ?_
  · change Option.getD (α := List Address) (Writes.apply ws rows (.stakeByValidator v)) [] =
      (stakes.validatorIndex.get? v).getD (rows.masters v)
    rw [apply_apply, hmasters, ← lookup_mastersWrites]
    cases lookup (mastersWrites stakes) (.stakeByValidator v) <;> rfl
  · change Writes.apply ws rows (.stake m v) =
      (stakes.allocations.get? (m, v)).getD (rows.allocation m v)
    rw [apply_apply, hstake, lookup_allocationWrites]
    rfl
  · change (Rows.account (Writes.apply ws rows) (stakeSubaccount v)).balance = _
    rw [account_apply haccount]
    change _ = ((accounts.get? (stakeSubaccount v)).map (·.balance)).getD
      (rows.account (stakeSubaccount v)).balance
    cases accounts.get? (stakeSubaccount v) <;> rfl

namespace Vault

variable {w : Vault} {v : Address} {accounts accounts' : AccountUpdates} {stakes stakes' : StakeUpdates}

theorem after_append : w.after v (accounts ++ accounts')
    ⟨stakes.allocations ++ stakes'.allocations, stakes.validatorIndex ++ stakes'.validatorIndex⟩ =
      (w.after v accounts stakes).after v accounts' stakes' := by
  refine Vault.ext ?_ (funext fun m => ?_) ?_
  all_goals simp only [after, Updates.get?_append]
  · cases stakes'.validatorIndex.get? v <;> rfl
  · cases stakes'.allocations.get? (m, v) <;> rfl
  · cases accounts'.get? (stakeSubaccount v) <;> rfl

theorem after_append_accounts :
    w.after v (accounts ++ accounts') stakes = (w.after v accounts stakes).after v accounts' {} := by
  rw [← after_append, List.append_nil, List.append_nil]

/-- Updates of one master's allocation. -/
theorem after_single {master : Address} {a : Option StakeAllocation}
    {index : Updates Address (List Address)} : w.after v accounts ⟨[((master, v), a)], index⟩ =
      ⟨(index.get? v).getD w.masters, Function.update w.allocation master a,
        ((accounts.get? (stakeSubaccount v)).map (·.balance)).getD w.balance⟩ := by
  refine Vault.ext rfl (funext fun m => ?_) rfl
  by_cases hm : m = master
  · simp [after, Updates.get?, hm]
  · simp [after, Updates.get?, hm, Ne.symm hm]

/-- Where only the balance may change, and only grows, that is a deposit. -/
theorem path_deposit (hindex : stakes.validatorIndex.get? v = none)
    (halloc : ∀ m, stakes.allocations.get? (m, v) = none)
    (hgrows : ∀ e, accounts.get? (stakeSubaccount v) = some e → Grows w.balance e.balance) :
    Path v w (w.after v accounts stakes) := by
  have hafter : w.after v accounts stakes =
      { w with balance := ((accounts.get? (stakeSubaccount v)).map (·.balance)).getD w.balance } := by
    refine Vault.ext ?_ (funext fun m => ?_) rfl
    · simp [after, hindex]
    · simp [after, halloc]
  rw [hafter]
  refine .single (.deposit ?_)
  cases he : accounts.get? (stakeSubaccount v) with
  | none => exact .refl _
  | some e => exact hgrows e he

end Vault

end InRows

end Arxium
