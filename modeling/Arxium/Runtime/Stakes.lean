import Arxium.Runtime.Books

/-!
# Runtime/Stakes — what the staking circuit asks for and returns

One lemma for each operation on a stake: what held when it went through, and exactly what it returns.
-/

namespace Arxium

open ReadProg Writes

namespace Rows

variable (rows : Rows)

/-- Who stakes to a validator. -/
def masters (validator : Address) : List Address :=
  Option.getD (α := List Address) (rows (.stakeByValidator validator)) []

/-- What one master has staked to a validator. -/
def allocation (master validator : Address) : Option StakeAllocation := rows (.stake master validator)

variable {rows} {ε : Type} [Errors ε]

@[simp] theorem run_getAllocation (master validator : Address) :
    (getAllocation master validator : Read ε _).run rows.view =
      .ok (rows.allocation master validator) := rfl

end Rows

section Arithmetic

variable {ε : Type} [Errors ε] {v : KvView} {x y z : Nat}

theorem run_addOrPanic : (addOrPanic x y : Read ε Nat).run v = .ok z ↔ x + y ≤ u128Max ∧ z = x + y := by
  unfold addOrPanic
  split <;> simp [*, panic, eq_comm]

theorem run_addOrPanic64 : (addOrPanic64 x y : Read ε Nat).run v = .ok z ↔
    x + y ≤ u64Max ∧ z = x + y := by
  unfold addOrPanic64
  split <;> simp [*, panic, eq_comm]

theorem run_subOrPanic : (subOrPanic x y : Read ε Nat).run v = .ok z ↔ y ≤ x ∧ z = x - y := by
  unfold subOrPanic
  split <;> simp [*, panic, eq_comm]

theorem run_stakingCredit {account : Address} :
    (credit x y account).run v = .ok z ↔ x + y ≤ u128Max ∧ z = x + y :=
  orFail_ok.trans checkedAdd_eq_some

end Arithmetic

/-- Everything an allocation holds, active or on its way out. -/
def StakeAllocation.total (a : StakeAllocation) : Nat := a.activeAmount + a.unbondingAmount

/-- An allocation with more stake in it, or a new one. -/
def stakedAllocation (existing : Option StakeAllocation) (master validator : Address)
    (amount height : Nat) : StakeAllocation :=
  match existing with
  | some a => { a with activeAmount := a.activeAmount + amount, updatedAt := height }
  | none => ⟨master, validator, amount, none, height, height⟩

/-- An allocation with an unbonding batch taken out of it. -/
def StakeAllocation.unstaked (a : StakeAllocation) (amount unlock height : Nat) : StakeAllocation :=
  { a with
    activeAmount := a.activeAmount - amount, unbonding := some ⟨amount, unlock⟩, updatedAt := height }

section Circuit

variable [Crypto] {rows : Rows} {accounts : AccountUpdates} {stakes : StakeUpdates}
  {master validator : Address} {nonce amount height : Nat}

/-- What it takes to stake, and what comes of it. -/
structure Stakes (rows : Rows) (master : Address) (nonce : Nat) (validator : Address) (amount height : Nat)
    (accounts : AccountUpdates) (stakes : StakeUpdates) : Prop where
  positive : amount ≠ 0
  next : nonce = (rows.account master).nonce
  masters : ∀ m ∈ rows.masters validator, m = master
  free : ∀ a, rows.allocation master validator = some a → a.unbonding = none
  capped : (stakedAllocation (rows.allocation master validator) master validator amount
    height).activeAmount ≤ maxDelegationPerValidator
  fits : (rows.account (stakeSubaccount validator)).balance + amount ≤ u128Max
  accounts : accounts = [(master, { rows.account master with
      balance := (rows.account master).balance - amount, nonce := (rows.account master).nonce + 1 }),
    (stakeSubaccount validator, { rows.account (stakeSubaccount validator) with
      balance := (rows.account (stakeSubaccount validator)).balance + amount })]
  stakes : stakes = ⟨[((master, validator), some (stakedAllocation
    (rows.allocation master validator) master validator amount height))], [(validator, [master])]⟩

theorem run_applyStake
    (h : (applyStake master nonce validator amount height).run rows.view = .ok (accounts, stakes)) :
    Stakes rows master nonce validator amount height accounts stakes := by
  unfold applyStake at h
  obtain ⟨_, hpositive, h⟩ := bind_ok.mp h
  replace h := run_next h rfl
  obtain ⟨_, hnonce, h⟩ := bind_ok.mp h
  obtain ⟨_, h⟩ := run_rest h
  replace h := run_next h rfl
  obtain ⟨_, hsame, h⟩ := bind_ok.mp h
  obtain ⟨existing, hexisting, h⟩ := bind_ok.mp h
  obtain rfl : rows.allocation master validator = existing := Except.ok.inj hexisting
  obtain ⟨_, hfree, h⟩ := bind_ok.mp h
  obtain ⟨_, hadd, h⟩ := bind_ok.mp h
  obtain ⟨-, rfl⟩ := run_addOrPanic.mp hadd
  obtain ⟨_, hcap, h⟩ := bind_ok.mp h
  replace h := run_next h rfl
  obtain ⟨_, hbump, h⟩ := bind_ok.mp h
  obtain ⟨-, rfl⟩ := run_addOrPanic64.mp hbump
  obtain ⟨_, hcredit, h⟩ := bind_ok.mp h
  obtain ⟨hfits, rfl⟩ := run_stakingCredit.mp hcredit
  obtain ⟨rfl, rfl⟩ := pure_ok₂.mp h
  have hcap := of_decide_eq_true (ensure_ok.mp hcap)
  have hfree := ensure_ok.mp hfree
  have hsame := ensure_ok.mp hsame
  refine ⟨of_decide_eq_true (ensure_ok.mp hpositive),
    of_decide_eq_true (ensure_ok.mp hnonce), fun m hm => ?_, fun a ha => ?_, ?_, hfits, rfl, ?_⟩
  · exact of_decide_eq_true (List.all_eq_true.mp hsame m hm)
  · rw [ha] at hfree
    exact Option.isNone_iff_eq_none.mp hfree
  · unfold stakedAllocation
    cases ha : rows.allocation master validator with
    | none =>
      rw [ha] at hcap
      exact (Nat.le_add_left _ _).trans hcap
    | some a =>
      rw [ha] at hcap
      exact hcap
  · unfold stakedAllocation
    cases ha : rows.allocation master validator with
    | none => rfl
    | some a => rfl

omit [Crypto] in
/-- What it takes to unstake, and what comes of it. -/
theorem run_applyUnstake {unbondingBlocks : Nat}
    (h : (applyUnstake master nonce validator amount height unbondingBlocks).run rows.view =
      .ok (accounts, stakes)) :
    ∃ a, amount ≠ 0 ∧ nonce = (rows.account master).nonce ∧
      rows.allocation master validator = some a ∧ a.unbonding = none ∧ amount ≤ a.activeAmount ∧
      accounts = [(master, { rows.account master with nonce := (rows.account master).nonce + 1 })] ∧
      stakes = { allocations := [((master, validator),
        some (a.unstaked amount (height + unbondingBlocks) height))] } := by
  unfold applyUnstake at h
  obtain ⟨_, hpositive, h⟩ := bind_ok.mp h
  replace h := run_next h rfl
  obtain ⟨_, hnonce, h⟩ := bind_ok.mp h
  replace h := run_next h rfl
  obtain ⟨a, ha, h⟩ := bind_ok.mp h
  obtain ⟨_, hfree, h⟩ := bind_ok.mp h
  obtain ⟨_, hheld, h⟩ := bind_ok.mp h
  obtain ⟨_, hunlock, h⟩ := bind_ok.mp h
  obtain ⟨-, rfl⟩ := run_addOrPanic64.mp hunlock
  obtain ⟨_, hbump, h⟩ := bind_ok.mp h
  obtain ⟨-, rfl⟩ := run_addOrPanic64.mp hbump
  obtain ⟨rfl, rfl⟩ := pure_ok₂.mp h
  exact ⟨a, of_decide_eq_true (ensure_ok.mp hpositive),
    of_decide_eq_true (ensure_ok.mp hnonce), orFail_ok.mp ha,
    Option.isNone_iff_eq_none.mp (ensure_ok.mp hfree),
    of_decide_eq_true (ensure_ok.mp hheld), rfl, rfl⟩

/-- What a slash takes out of which allocation, and what comes of it. -/
structure Slashes (rows : Rows) (validator : Address) (amount height : Nat) (master : Address)
    (a : StakeAllocation) (accounts : AccountUpdates) (stakes : StakeUpdates) : Prop where
  first : (rows.masters validator).head? = some master
  stored : rows.allocation master validator = some a
  accounts : accounts = [(stakeSubaccount validator, { rows.account (stakeSubaccount validator) with
      balance := (rows.account (stakeSubaccount validator)).balance -
        min (rows.account (stakeSubaccount validator)).balance (min amount a.total) }),
    (rewardPoolAccount, { rows.account rewardPoolAccount with
      balance := (rows.account rewardPoolAccount).balance +
        min (rows.account (stakeSubaccount validator)).balance (min amount a.total) })]
  stakes : stakes = if (a.slashed (min amount a.total) height).activeAmount = 0 ∧
      (a.slashed (min amount a.total) height).unbonding = none then
        ⟨[((master, validator), none)], [(validator, [])]⟩
      else { allocations := [((master, validator), some (a.slashed (min amount a.total) height))] }

theorem run_applySlash {reason : SlashReason}
    (h : (applySlash validator amount reason height).run rows.view = .ok (accounts, stakes)) :
    ∃ master a, Slashes rows validator amount height master a accounts stakes := by
  unfold applySlash at h
  replace h := run_next h rfl
  obtain ⟨master, hmaster, h⟩ := bind_ok.mp h
  replace h := run_next h rfl
  obtain ⟨a, ha, h⟩ := bind_ok.mp h
  obtain ⟨_, htotal, h⟩ := bind_ok.mp h
  obtain ⟨-, rfl⟩ := run_addOrPanic.mp htotal
  replace h := run_next h rfl
  replace h := run_next h rfl
  obtain ⟨_, hcredit, h⟩ := bind_ok.mp h
  obtain ⟨-, rfl⟩ := run_stakingCredit.mp hcredit
  have hmaster := orFail_ok.mp hmaster
  have ha := orFail_ok.mp ha
  dsimp only at h
  split at h
  all_goals
    rename_i hleft
    obtain ⟨rfl, rfl⟩ := pure_ok₂.mp h
  · exact ⟨master, a, hmaster, ha, rfl, (if_pos hleft).symm⟩
  · exact ⟨master, a, hmaster, ha, rfl, (if_neg hleft).symm⟩

end Circuit

end Arxium
