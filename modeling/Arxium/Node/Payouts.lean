import Arxium.Node.CapTable
import Arxium.Node.Eligibility
import Arxium.Lib.Apportion
import Arxium.Lib.Moves

/-!
# Node/Payouts — what the corporate actions pay

A distribution, a redemption and a split are loops over a cap table that stage one move after the other.
Each is the list of its moves: a distribution pays every holder its share at its turn, as the payout
asset's rules see it after the payments before (`Payout.pay`), a redemption hands every holding in, and a
split grants what a holding grows by or hands in what it shrinks by.
-/

namespace Arxium

open ReadProg Writes Tally Moves

/-! ## The payments of a distribution -/

/-- The ledger in the middle of a distribution: the rows so far, and the record of the payout asset. -/
structure Payout where
  rows : Rows
  asset : Asset

namespace Payout

section Pay

variable (payer : Address) (table : CapTable) (amount height : Nat)

/-- **What a table holder is paid at its turn**: the floor of its share, unless it is the payer itself or
the asset's rules refuse it. -/
def credit (p : Payout) (entry : Address × Nat) : Nat :=
  let share := entry.2 * amount / table.total
  if entry.1 = payer then 0
  else if ((Rwa.checkRecipient p.asset entry.1 share height).run p.rows.view).isOk then share else 0

/-- What the payer has. -/
def funds (p : Payout) : Nat := p.rows.balance p.asset.assetRef payer

/-- One payment. -/
def pay (p : Payout) (entry : Address × Nat) : Payout :=
  let c := p.credit payer table amount height entry
  let has := p.rows.balance p.asset.assetRef entry.1
  if c = 0 then p
  else
    { rows := p.rows.post [((p.asset.assetRef, payer), p.funds payer - c),
        ((p.asset.assetRef, entry.1), has + c)]
      asset := Rwa.trackHolder (Rwa.trackHolder p.asset payer (p.funds payer) (p.funds payer - c)) entry.1
        has (has + c) }

/-- The balance rows a payment writes. -/
def paidRows (asset : AssetRef) (c : Address × Nat) : List (AssetRef × Address) :=
  if c.2 = 0 then [] else [(asset, payer), (asset, c.1)]

/-- The payments along a table. -/
def credits : Payout → List (Address × Nat) → List (Address × Nat)
  | _, [] => []
  | p, entry :: rest =>
    (entry.1, p.credit payer table amount height entry) ::
      credits (p.pay payer table amount height entry) rest

end Pay

variable {payer : Address} {table : CapTable} {amount height : Nat} {p : Payout}
  {l : List (Address × Nat)}

theorem map_fst_credits : (p.credits payer table amount height l).map Prod.fst = l.map Prod.fst := by
  induction l generalizing p with
  | nil => rfl
  | cons entry rest ih => rw [credits, List.map_cons, List.map_cons, ih]

/-- The payment of an entry is made on the ledger the entries before it left. -/
theorem mem_credits {pre post : List (Address × Nat)} {entry : Address × Nat} :
    (entry.1, (pre.foldl (pay payer table amount height) p).credit payer table amount height entry) ∈
      p.credits payer table amount height (pre ++ entry :: post) := by
  induction pre generalizing p with
  | nil => exact List.mem_cons_self
  | cons first pre ih => exact List.mem_cons_of_mem _ ih

theorem credit_le (entry : Address × Nat) :
    p.credit payer table amount height entry ≤ entry.2 * amount / table.total := by
  unfold credit
  dsimp only
  split_ifs
  · exact Nat.zero_le _
  · exact le_rfl
  · exact Nat.zero_le _

theorem sum_credits_le : ((p.credits payer table amount height l).map Prod.snd).sum ≤
    (l.map fun entry => entry.2 * amount / table.total).sum := by
  induction l generalizing p with
  | nil => exact le_rfl
  | cons entry rest ih =>
    rw [credits, List.map_cons, List.map_cons, List.sum_cons, List.sum_cons]
    exact Nat.add_le_add (credit_le entry) ih

/-- Of the record only the count of holders changes. -/
theorem asset_pay (entry : Address × Nat) : (p.pay payer table amount height entry).asset =
    { p.asset with holderCount := (p.pay payer table amount height entry).asset.holderCount } := by
  unfold pay
  dsimp only
  split_ifs
  · rfl
  · refine (trackHolder_eq _ _ _).trans ?_
    generalize (Rwa.trackHolder (Rwa.trackHolder _ _ _ _) _ _ _).holderCount = n
    rw [trackHolder_eq]

theorem asset_foldl : (l.foldl (pay payer table amount height) p).asset =
    { p.asset with
      holderCount := (l.foldl (pay payer table amount height) p).asset.holderCount } := by
  induction l generalizing p with
  | nil => rfl
  | cons entry rest ih =>
    rw [List.foldl_cons, ih, asset_pay]

theorem assetRef_pay (entry : Address × Nat) :
    (p.pay payer table amount height entry).asset.assetRef = p.asset.assetRef := by
  rw [asset_pay]

/-- Payments write balances of the one asset. -/
theorem own_of_paidRows {asset : AssetRef} {moves : AssetBalanceUpdates} {cs : List (Address × Nat)}
    (h : moves.map Prod.fst = cs.flatMap (paidRows payer asset)) : ∀ m ∈ moves, m.1.1 = asset := by
  intro m hm
  have hkey := h ▸ List.mem_map_of_mem (f := Prod.fst) hm
  obtain ⟨c, -, hc⟩ := List.mem_flatMap.mp hkey
  unfold paidRows at hc
  split at hc
  · cases hc
  · rcases List.mem_pair.mp hc with hm | hm <;> rw [hm]

/-- **A payment the payer can afford is a payment.** -/
theorem pays_pay {entry : Address × Nat}
    (hfunded : p.credit payer table amount height entry ≤ p.funds payer) :
    Pays payer [(entry.1, p.credit payer table amount height entry)] (p.rows.balance p.asset.assetRef)
      ((p.pay payer table amount height entry).rows.balance p.asset.assetRef) := by
  unfold pay
  dsimp only
  split_ifs with hzero
  · rw [hzero]
    exact .zero payer entry.1 _
  · have hne : entry.1 ≠ payer := fun hown => hzero (if_pos hown)
    rw [Rows.balance_post_pair]
    exact .single hne hfunded

end Payout

/-! ## The code's loop makes these payments -/

namespace Rwa

section Refusals

variable {rows : Rows} {a : Asset} {sender recipient : Address} {amount height : Nat}

theorem refuses_balanceOf {asset : AssetRef} {owner : Address} {Q : RwaError → Prop} :
    (balanceOf asset owner : Read RwaError Nat).Refuses rows.view Q :=
  refuses_of_run (Rows.run_balanceOf asset owner)

theorem refuses_credit {asset : AssetRef} {x y : Nat} :
    (credit asset x y).Refuses rows.view fun e => e.ineligibleParty = none :=
  Prog.refuses_orFail.mpr fun _ => rfl

/-- What stops a move is not a matter of anyone's eligibility. -/
theorem refuses_applyForcedTransfer : (applyForcedTransfer a sender recipient amount).Refuses rows.view
    fun e => e.ineligibleParty = none := by
  unfold applyForcedTransfer
  refine refuses_bind.mpr ⟨refuses_balanceOf, fun _ _ => ?_⟩
  refine refuses_bind.mpr ⟨refuses_ensure.mpr fun _ => rfl, fun _ _ => ?_⟩
  refine refuses_ite.mpr ⟨fun _ => by simp, fun _ => ?_⟩
  refine refuses_bind.mpr ⟨refuses_balanceOf, fun _ _ => ?_⟩
  exact refuses_bind.mpr ⟨refuses_credit, fun _ _ => by simp⟩

theorem refuses_moveChecked : (moveChecked a sender recipient amount height).Refuses rows.view
    fun e => e.ineligibleParty = none := by
  unfold moveChecked
  refine refuses_bind.mpr ⟨refuses_holderState, fun _ _ => ?_⟩
  refine refuses_ite.mpr ⟨fun _ => ?_, fun _ => refuses_applyForcedTransfer⟩
  refine refuses_bind.mpr ⟨refuses_balanceOf, fun _ _ => ?_⟩
  exact refuses_bind.mpr
    ⟨refuses_ensure.mpr fun _ => rfl, fun _ _ => refuses_applyForcedTransfer⟩

/-- **A move is refused for its recipient's sake only by the recipient's check.** -/
theorem checkRecipient_refused {e : RwaError} (hne : recipient ≠ sender)
    (h : (applyCompliantMove a sender recipient amount height).run rows.view = .error e)
    (he : e.ineligibleParty = some recipient) :
    ((checkRecipient a recipient amount height).run rows.view).isOk = false := by
  by_contra hok
  obtain ⟨existing, hchecked⟩ := exists_ok_of_isOk (Bool.eq_true_of_not_eq_false hok)
  have hother : (applyCompliantMove a sender recipient amount height).Refuses rows.view
      fun e => e.ineligibleParty = none ∨ e.ineligibleParty = some sender := by
    refine refuses_bind.mpr ⟨?_, fun _ _ => refuses_moveChecked.mono fun _ => .inl⟩
    refine refuses_bind.mpr ⟨refuses_ensure.mpr fun _ => .inl rfl, fun _ _ => ?_⟩
    refine refuses_bind.mpr ⟨refuses_checkParty.mono fun e he => .inr ?_, fun _ _ => ?_⟩
    · cases he <;> rfl
    · exact refuses_bind.mpr ⟨refuses_of_run hchecked, fun _ _ => by simp⟩
  rcases hother e h with hnone | hsender
  · rw [he] at hnone
    cases hnone
  · exact hne (Option.some.inj (he.symm.trans hsender))

end Refusals

/-- The ledger as far as the staged moves go. -/
def Staging.payout (rows : Rows) (s : Staging) : Payout := ⟨rows.post s.balances, s.asset⟩

section Distribution

variable {rows : Rows} {payer : Address} {table : CapTable} {amount height : Nat} {s s' : Staging}
  {l : List (Address × Nat)}

/-- **One turn of the loop is one payment**, and the payer could afford it. -/
theorem run_distributeOne {entry : Address × Nat}
    (h : (distributeOne payer table amount height s entry).run rows.view = .ok s') :
    (s.payout rows).credit payer table amount height entry ≤ (s.payout rows).funds payer ∧
      s'.payout rows = (s.payout rows).pay payer table amount height entry ∧
      ∃ moves, s'.balances = s.balances ++ moves ∧ moves.map Prod.fst = Payout.paidRows payer
        s.asset.assetRef (entry.1, (s.payout rows).credit payer table amount height entry) := by
  have hidle : (s.payout rows).credit payer table amount height entry = 0 → s' = s →
      (s.payout rows).credit payer table amount height entry ≤ (s.payout rows).funds payer ∧
        s'.payout rows = (s.payout rows).pay payer table amount height entry ∧
        ∃ moves, s'.balances = s.balances ++ moves ∧ moves.map Prod.fst = Payout.paidRows payer
          s.asset.assetRef (entry.1, (s.payout rows).credit payer table amount height entry) := by
    rintro hzero rfl
    exact ⟨hzero ▸ Nat.zero_le _, (if_pos hzero).symm, [], by simp, (if_pos hzero).symm⟩
  obtain ⟨share, hshare, h⟩ := bind_ok.mp h
  obtain ⟨product, hproduct, hshare⟩ := bind_ok.mp hshare
  obtain ⟨-, rfl⟩ := checkedMul_eq_some.mp (orFail_ok.mp hproduct)
  obtain rfl := Except.ok.inj hshare
  split at h
  · next hzero =>
    refine hidle (Nat.le_zero.mp ?_) (Except.ok.inj h).symm
    exact hzero ▸ Payout.credit_le entry
  · next hpositive =>
    rw [run_bind, run_attempt, run_through] at h
    dsimp only [Except.bind] at h
    cases hmove : (applyCompliantMove s.asset payer entry.1 (entry.2 * amount / table.total) height).run
        (rows.post s.balances).view with
    | error e =>
      rw [hmove] at h
      dsimp only at h
      split at h
      · next hparty =>
        refine hidle ?_ (Except.ok.inj h).symm
        unfold Payout.credit
        dsimp only
        split_ifs with hown hok
        · rfl
        · have hrefused := checkRecipient_refused hown hmove hparty
          exact absurd (hok.symm.trans hrefused) Bool.true_eq_false_eq_False
        · rfl
      · cases h
    | ok moved =>
      obtain ⟨asset, updates⟩ := moved
      rw [hmove] at h
      obtain rfl := Except.ok.inj h
      obtain ⟨_, hchecked, hmoved⟩ := bind_ok.mp hmove
      obtain ⟨-, -, hrecipient⟩ := run_checkMove hchecked
      obtain ⟨hheld, hsame | ⟨hne, -, rfl, rfl⟩⟩ := run_applyForcedTransfer (run_moveChecked hmoved)
      · obtain ⟨hown, rfl, rfl⟩ := hsame
        refine hidle ?_ (by simp)
        exact if_pos hown
      · have hcredit : (s.payout rows).credit payer table amount height entry =
            entry.2 * amount / table.total := by
          have hok : ((checkRecipient s.asset entry.1 (entry.2 * amount / table.total) height).run
              (rows.post s.balances).view).isOk = true := by
            rw [hrecipient]
            rfl
          exact (if_neg hne).trans (if_pos hok)
        refine ⟨hcredit ▸ hheld, ?_, _, rfl, (if_neg (hcredit ▸ hpositive)).symm⟩
        rw [Payout.pay, hcredit, if_neg hpositive, Staging.payout, Rows.post_append]
        rfl

/-- **The loop makes the payments of the table**, in its order. -/
theorem run_distributeAll
    (h : (l.foldlM (distributeOne payer table amount height) s).run rows.view = .ok s') :
    s'.payout rows = l.foldl (Payout.pay payer table amount height) (s.payout rows) ∧
      Pays payer ((s.payout rows).credits payer table amount height l)
        ((rows.post s.balances).balance s.asset.assetRef)
        ((rows.post s'.balances).balance s.asset.assetRef) ∧
      ∃ moves, s'.balances = s.balances ++ moves ∧ moves.map Prod.fst =
        ((s.payout rows).credits payer table amount height l).flatMap
          (Payout.paidRows payer s.asset.assetRef) := by
  induction l generalizing s with
  | nil =>
    obtain rfl := Except.ok.inj h
    exact ⟨rfl, .nil payer _, [], by simp, rfl⟩
  | cons entry rest ih =>
    rw [List.foldlM_cons] at h
    obtain ⟨s₁, hone, hrest⟩ := bind_ok.mp h
    obtain ⟨hfunded, hpay, moves, hmoves, hkeys⟩ := run_distributeOne hone
    obtain ⟨hfold, hpays, moves', hmoves', hkeys'⟩ := ih hrest
    have hasset : s₁.asset.assetRef = s.asset.assetRef :=
      (congrArg (fun p : Payout => p.asset.assetRef) hpay).trans (Payout.assetRef_pay entry)
    have hrows : rows.post s₁.balances = ((s.payout rows).pay payer table amount height entry).rows :=
      congrArg Payout.rows hpay
    rw [hasset] at hpays hkeys'
    have hfirst : Pays payer [(entry.1, (s.payout rows).credit payer table amount height entry)]
        ((rows.post s.balances).balance s.asset.assetRef)
        ((rows.post s₁.balances).balance s.asset.assetRef) := by
      rw [hrows]
      exact Payout.pays_pay hfunded
    refine ⟨by rw [hfold, hpay]; rfl, ?_, moves ++ moves', ?_, ?_⟩
    · rw [Payout.credits, ← List.singleton_append, ← hpay]
      exact hfirst.append hpays
    · rw [hmoves', hmoves, List.append_assoc]
    · rw [List.map_append, hkeys, hkeys', hpay]
      rfl

end Distribution

section Settlement

variable {rows : Rows} {a a' : Asset} {height : Nat} {balances : AssetBalanceUpdates} {s s' : Staging}
  {done : List (Address × Nat)} {entry : Address × Nat}

/-- A forced transfer to the issuer hands an amount in; the issuer's own does nothing. -/
theorem settles_applyForcedTransfer {holder : Address} {n : Nat}
    (h : (applyForcedTransfer a holder a.issuer n).run rows.view = .ok (a', balances)) :
    Settles a.issuer [(holder, 0)] [(holder, if holder = a.issuer then 0 else n)]
        (rows.balance a.assetRef) ((rows.post balances).balance a.assetRef) ∧
      a' = { a with holderCount := a'.holderCount } ∧ ∀ m ∈ balances, m.1.1 = a.assetRef := by
  obtain ⟨hheld, ⟨hown, rfl, rfl⟩ | ⟨hne, -, rfl, rfl⟩⟩ := run_applyForcedTransfer h
  · rw [if_pos hown.symm]
    exact ⟨.zero _ _ _, rfl, by simp⟩
  · rw [if_neg hne.symm, Rows.balance_post_pair]
    refine ⟨.collect hne.symm hheld, ?_, by simp⟩
    refine (trackHolder_eq _ _ _).trans ?_
    generalize (trackHolder (trackHolder _ _ _ _) _ _ _).holderCount = count
    rw [trackHolder_eq]

theorem run_settle {holder : Address} {moved : Asset × AssetBalanceUpdates}
    {numerator denominator : Nat}
    (h : (s.settle holder moved numerator denominator height).run rows.view = .ok s') :
    s'.asset = moved.1 ∧ s'.balances = s.balances ++ moved.2 := by
  obtain ⟨_, _, h⟩ := run_rest₂ h
  obtain rfl := Except.ok.inj h
  exact ⟨rfl, rfl⟩

/-- **Where a redemption or a split stands** after some entries: each was granted what it grows by, and
all but the issuer's handed in what they shrink by. -/
structure Staging.Settled (rows : Rows) (a : Asset) (grow shrink : Nat → Nat)
    (done : List (Address × Nat)) (s : Staging) : Prop where
  moves : Settles a.issuer (done.map fun e => (e.1, grow e.2))
    (done.map fun e => (e.1, if e.1 = a.issuer then 0 else shrink e.2)) (rows.balance a.assetRef)
    ((rows.post s.balances).balance a.assetRef)
  own : ∀ m ∈ s.balances, m.1.1 = a.assetRef
  record : s.asset = { a with
    totalSupply := a.totalSupply + (done.map fun e => grow e.2).sum
    holderCount := s.asset.holderCount }

theorem Staging.settled_start (rows : Rows) (a : Asset) (grow shrink : Nat → Nat) :
    Staging.Settled rows a grow shrink [] { asset := a } := ⟨.nil _ _, by simp, rfl⟩

/-- One more entry. -/
theorem Staging.Settled.step {grow shrink : Nat → Nat} (h : s.Settled rows a grow shrink done)
    {moved : Asset × AssetBalanceUpdates} (hasset : s'.asset = moved.1)
    (hbalances : s'.balances = s.balances ++ moved.2)
    (hmoves : Settles s.asset.issuer [(entry.1, grow entry.2)]
      [(entry.1, if entry.1 = s.asset.issuer then 0 else shrink entry.2)]
      ((rows.post s.balances).balance s.asset.assetRef)
      (((rows.post s.balances).post moved.2).balance s.asset.assetRef))
    (hown : ∀ m ∈ moved.2, m.1.1 = s.asset.assetRef)
    (hrecord : moved.1 = { s.asset with
      totalSupply := s.asset.totalSupply + grow entry.2
      holderCount := moved.1.holderCount }) : s'.Settled rows a grow shrink (done ++ [entry]) := by
  have hissuer : s.asset.issuer = a.issuer := by rw [h.record]
  have href : s.asset.assetRef = a.assetRef := by rw [h.record]
  rw [hissuer, href] at hmoves
  rw [href] at hown
  refine ⟨?_, ?_, ?_⟩
  · rw [List.map_append, List.map_append, hbalances, Rows.post_append]
    exact h.moves.append hmoves
  · rw [hbalances]
    exact List.forall_mem_append.mpr ⟨h.own, hown⟩
  · rw [hasset, hrecord, h.record, List.map_append, List.sum_append, List.map_singleton,
      List.sum_singleton, Nat.add_assoc]

/-- **One turn of a redemption.** -/
theorem settled_redeemOne (h : s.Settled rows a (fun _ => 0) id done)
    (hrun : (redeemOne height s entry).run rows.view = .ok s') :
    s'.Settled rows a (fun _ => 0) id (done ++ [entry]) := by
  obtain ⟨moved, hmoved, hrun⟩ := bind_ok.mp hrun
  obtain ⟨hasset, hbalances⟩ := run_settle hrun
  rw [run_through] at hmoved
  obtain ⟨hmoves, hrecord, hown⟩ := settles_applyForcedTransfer hmoved
  exact h.step hasset hbalances hmoves hown hrecord

/-- **One turn of a split.** -/
theorem settled_splitOne {numerator denominator : Nat}
    (h : s.Settled rows a (fun x => x * numerator / denominator - x)
      (fun x => x - x * numerator / denominator) done)
    (hrun : (splitOne numerator denominator height s entry).run rows.view = .ok s') :
    s'.Settled rows a (fun x => x * numerator / denominator - x)
      (fun x => x - x * numerator / denominator) (done ++ [entry]) := by
  obtain ⟨product, hproduct, hrun⟩ := bind_ok.mp hrun
  obtain ⟨-, rfl⟩ := checkedMul_eq_some.mp (orFail_ok.mp hproduct)
  dsimp only at hrun
  split at hrun
  · next hgrow =>
    obtain ⟨moved, hmoved, hrun⟩ := bind_ok.mp hrun
    obtain ⟨hasset, hbalances⟩ := run_settle hrun
    rw [run_through] at hmoved
    obtain ⟨-, -, -, -, -, hrecord, hposted⟩ := run_applyIssueTo hmoved
    refine h.step hasset hbalances ?_ (by simp [hposted]) ?_
    · rw [hposted, Rows.balance_post_single, Nat.sub_eq_zero_of_le hgrow.le, ite_self]
      exact .grant _ _ _ _
    · rw [hrecord]
      exact trackHolder_eq _ _ _
  · next hshrink =>
    obtain ⟨moved, hmoved, hrun⟩ := bind_ok.mp hrun
    obtain ⟨hasset, hbalances⟩ := run_settle hrun
    rw [run_through] at hmoved
    obtain ⟨hmoves, hrecord, hown⟩ := settles_applyForcedTransfer hmoved
    have hzero : entry.2 * numerator / denominator - entry.2 = 0 :=
      Nat.sub_eq_zero_of_le (Nat.le_of_not_lt hshrink)
    refine h.step hasset hbalances ?_ hown ?_
    · rw [hzero]
      exact hmoves
    · rw [hzero]
      exact hrecord

end Settlement

end Rwa

/-! ## What each action comes to -/

/-- A table as snapshots record them: no holder twice, and the total is the sum. -/
structure CapTable.Formed (table : CapTable) : Prop where
  nodup : (table.holders.map Prod.fst).Nodup
  total_eq : table.total = (table.holders.map Prod.snd).sum

/-- **A distribution is exact**: `credit` is what each owner received. -/
structure DistributionExact (rows : Rows) (payout : Asset) (payer : Address) (table : CapTable)
    (amount height : Nat) (after : Rows) (payout' : Asset) (credit : Address → Nat) : Prop where
  /-- At its turn a holder gets the floor of its share, or nothing if that is zero or it is refused. -/
  atTurn : ∀ pre holder x post, table.holders = pre ++ (holder, x) :: post → holder ≠ payer →
    ∀ turn, turn = pre.foldl (Payout.pay payer table amount height) ⟨rows, payout⟩ →
    credit holder = if x * amount / table.total = 0 ∨ ((Rwa.checkRecipient turn.asset holder
        (x * amount / table.total) height).run turn.rows.view).isOk = false then 0
      else x * amount / table.total
  unlisted : ∀ o, o = payer ∨ o ∉ table.holders.map Prod.fst → credit o = 0
  credited : ∀ o, o ≠ payer →
    after.balance payout.assetRef o = rows.balance payout.assetRef o + credit o
  debited : after.balance payout.assetRef payer + (table.holders.map fun e => credit e.1).sum =
    rows.balance payout.assetRef payer
  within : (table.holders.map fun e => credit e.1).sum ≤ amount
  otherAssets : ∀ asset, asset ≠ payout.assetRef → after.balance asset = rows.balance asset
  /-- No lock and no other row changes. -/
  otherRows : ∀ k : Key, (∀ asset owner, k ≠ .assetBalance asset owner) → after k = rows k
  record : payout' = { payout with holderCount := payout'.holderCount }

/-- **A redemption is exact.** -/
structure RedemptionExact (rows : Rows) (a : Asset) (table : CapTable) (after : Rows) (a' : Asset) :
    Prop where
  handedIn : ∀ o x, (o, x) ∈ table.holders → o ≠ a.issuer →
    after.balance a.assetRef o + x = rows.balance a.assetRef o
  collected : after.balance a.assetRef a.issuer = rows.balance a.assetRef a.issuer +
    ((table.holders.filter (·.1 ≠ a.issuer)).map Prod.snd).sum
  others : ∀ o, o ≠ a.issuer → o ∉ table.holders.map Prod.fst →
    after.balance a.assetRef o = rows.balance a.assetRef o
  otherAssets : ∀ asset, asset ≠ a.assetRef → after.balance asset = rows.balance asset
  supply : a'.totalSupply = a.totalSupply

/-- **A split is exact.**  The issuer's row of the table aside, which grows like any other. -/
structure SplitExact (rows : Rows) (a : Asset) (table : CapTable) (numerator denominator : Nat)
    (after : Rows) (a' : Asset) : Prop where
  scaled : ∀ o x, (o, x) ∈ table.holders → o ≠ a.issuer → (after.balance a.assetRef o : Int) =
    rows.balance a.assetRef o + ((x * numerator / denominator : Nat) - x)
  grown : a'.totalSupply = a.totalSupply +
    (table.holders.map fun e => e.2 * numerator / denominator - e.2).sum
  collected : after.balance a.assetRef a.issuer = rows.balance a.assetRef a.issuer +
    ((table.holders.filter (·.1 ≠ a.issuer)).map fun e => e.2 - e.2 * numerator / denominator).sum +
    ((table.holders.filter (·.1 = a.issuer)).map fun e => e.2 * numerator / denominator - e.2).sum
  others : ∀ o, o ≠ a.issuer → o ∉ table.holders.map Prod.fst →
    after.balance a.assetRef o = rows.balance a.assetRef o
  otherAssets : ∀ asset, asset ≠ a.assetRef → after.balance asset = rows.balance asset

section Exact

variable [Crypto] {rows : Rows} {a a' : Asset} {payer : Address} {table : CapTable}
  {amount height : Nat} {balances : AssetBalanceUpdates} {states : HolderStateUpdates}

theorem distribution_exact (htable : table.Formed) (hpos : 0 < table.total)
    (h : (Rwa.applyDistribution a payer table amount height).run rows.view = .ok (a', balances)) :
    ∃ credit, DistributionExact rows a payer table amount height (rows.post balances) a' credit := by
  obtain ⟨s, hs, h⟩ := bind_ok.mp h
  obtain ⟨_, hinto, h⟩ := bind_ok.mp h
  obtain rfl := Rwa.run_intoUpdates hinto
  obtain ⟨rfl, rfl⟩ := Prod.mk.inj (Except.ok.inj h)
  obtain ⟨hfold, hpays, moves, hmoves, hpaid⟩ := Rwa.run_distributeAll hs
  obtain rfl : s.balances = moves := hmoves
  have hown := Payout.own_of_paidRows hpaid
  generalize hcs : Payout.credits payer table amount height
    (Rwa.Staging.payout rows { asset := a }) table.holders = cs at hpays
  have hkeys : cs.map Prod.fst = table.holders.map Prod.fst := hcs ▸ Payout.map_fst_credits
  have hnodup : (cs.map Prod.fst).Nodup := hkeys ▸ htable.nodup
  have hsum : (table.holders.map fun e => toward cs e.1).sum = (cs.map Prod.snd).sum := by
    have hmap : (table.holders.map fun e => toward cs e.1) = (cs.map Prod.fst).map (toward cs) := by
      rw [hkeys, List.map_map]
      rfl
    rw [hmap, List.map_map]
    exact congrArg List.sum (List.map_congr_left fun c hc => toward_of_mem hnodup hc)
  have hturn : ∀ pre holder x post, table.holders = pre ++ (holder, x) :: post →
      toward cs holder = (pre.foldl (Payout.pay payer table amount height) ⟨rows, a⟩).credit payer table
        amount height (holder, x) := by
    intro pre holder x post hsplit
    refine toward_of_mem hnodup ?_
    rw [← hcs, hsplit]
    exact Payout.mem_credits
  refine ⟨toward cs, ⟨?_, ?_, hpays.others, hsum ▸ hpays.payer, ?_, ?_, ?_, ?_⟩⟩
  · rintro pre holder x post hsplit hne turn rfl
    rw [hturn pre holder x post hsplit]
    refine (if_neg hne).trans ?_
    by_cases hrefused : ((Rwa.checkRecipient (pre.foldl (Payout.pay payer table amount height)
        ⟨rows, a⟩).asset holder (x * amount / table.total) height).run (pre.foldl (Payout.pay payer table
        amount height) ⟨rows, a⟩).rows.view).isOk = true
    · rw [if_pos hrefused]
      by_cases hzero : x * amount / table.total = 0
      · rw [if_pos (.inl hzero), hzero]
      · rw [if_neg]
        rintro (hz | hr)
        · exact hzero hz
        · rw [hrefused] at hr
          cases hr
    · rw [if_neg hrefused, if_pos (.inr (Bool.eq_false_of_not_eq_true hrefused))]
  · rintro o (rfl | hout)
    · by_cases hmem : o ∈ table.holders.map Prod.fst
      · obtain ⟨⟨_, x⟩, hx, rfl⟩ := List.mem_map.mp hmem
        obtain ⟨pre, post, hsplit⟩ := List.append_of_mem hx
        exact (hturn pre _ x post hsplit).trans (if_pos rfl)
      · exact toward_eq_zero (hkeys ▸ hmem)
    · exact toward_eq_zero (hkeys ▸ hout)
  · rw [hsum, ← hcs]
    refine Payout.sum_credits_le.trans ?_
    have hbound := Apportion.sum_share_le amount (table.holders.map Prod.snd)
    rw [← htable.total_eq, List.map_map] at hbound
    refine le_trans (le_of_eq ?_) hbound
    refine congrArg List.sum (List.map_congr_left fun e _ => ?_)
    rw [Function.comp_apply, Apportion.share, if_neg hpos.ne', Nat.mul_comm]
  · exact fun asset hne => balance_post_other hown hne.symm
  · exact fun k hk => Rows.post_apply_of_ne rows s.balances hk
  · have hasset := congrArg Payout.asset hfold
    exact hasset.trans (Payout.asset_foldl.trans (by rw [← hasset]; rfl))

omit [Crypto] in
/-- What the settled entries come to for a listed holder. -/
theorem Rwa.Staging.Settled.holder {s : Rwa.Staging} {grow shrink : Nat → Nat}
    (hs : s.Settled rows a grow shrink table.holders) (htable : table.Formed) {o : Address} {x : Nat}
    (hmem : (o, x) ∈ table.holders) (hne : o ≠ a.issuer) :
    (rows.post s.balances).balance a.assetRef o + shrink x = rows.balance a.assetRef o + grow x := by
  have hgranted : toward (table.holders.map fun e => (e.1, grow e.2)) o = grow x :=
    toward_of_mem (by rw [List.map_map]; exact htable.nodup) (List.mem_map.mpr ⟨_, hmem, rfl⟩)
  have hhanded : toward (table.holders.map fun e =>
      (e.1, if e.1 = a.issuer then 0 else shrink e.2)) o = shrink x :=
    toward_of_mem (by rw [List.map_map]; exact htable.nodup)
      (List.mem_map.mpr ⟨_, hmem, by rw [if_neg hne]⟩)
  have hmoves := hs.moves.others o hne
  rwa [hgranted, hhanded] at hmoves

omit [Crypto] in
theorem Rwa.Staging.Settled.outsider {s : Rwa.Staging} {grow shrink : Nat → Nat}
    (hs : s.Settled rows a grow shrink table.holders) {o : Address} (hne : o ≠ a.issuer)
    (hout : o ∉ table.holders.map Prod.fst) :
    (rows.post s.balances).balance a.assetRef o = rows.balance a.assetRef o := by
  have hmoves := hs.moves.others o hne
  rwa [toward_eq_zero (by rwa [List.map_map]), toward_eq_zero (by rwa [List.map_map])] at hmoves

theorem redemption_exact (htable : table.Formed)
    (h : (Rwa.applyRedemption a table height).run rows.view = .ok (a', balances, states)) :
    RedemptionExact rows a table (rows.post balances) a' := by
  obtain ⟨s, hs, h⟩ := bind_ok.mp h
  obtain ⟨_, hinto, h⟩ := bind_ok.mp h
  obtain rfl := Rwa.run_intoUpdates hinto
  obtain ⟨rfl, rfl, -⟩ := pure_ok₃.mp h
  have hsettled := Prog.run_foldlM_induct (fun _ _ _ _ => Rwa.settled_redeemOne)
    (Rwa.Staging.settled_start rows a _ _) hs
  rw [List.nil_append] at hsettled
  refine ⟨fun o x hmem hne => hsettled.holder htable hmem hne, ?_,
    fun o hne hout => hsettled.outsider hne hout,
    fun asset hne => balance_post_other hsettled.own hne.symm, ?_⟩
  · rw [hsettled.moves.collector, toward_map_zero, List.map_map]
    exact congrArg (rows.balance a.assetRef a.issuer + ·) (sum_map_ite _ _ _)
  · rw [hsettled.record]
    simp

theorem split_exact (htable : table.Formed) {numerator denominator : Nat}
    (h : (Rwa.applySplit a table numerator denominator height).run rows.view =
      .ok (a', balances, states)) :
    SplitExact rows a table numerator denominator (rows.post balances) a' := by
  obtain ⟨s, hs, h⟩ := bind_ok.mp h
  obtain ⟨_, hinto, h⟩ := bind_ok.mp h
  obtain rfl := Rwa.run_intoUpdates hinto
  obtain ⟨rfl, rfl, -⟩ := pure_ok₃.mp h
  have hsettled := Prog.run_foldlM_induct (fun _ _ _ _ => Rwa.settled_splitOne)
    (Rwa.Staging.settled_start rows a _ _) hs
  rw [List.nil_append] at hsettled
  refine ⟨fun o x hmem hne => ?_, ?_, ?_, fun o hne hout => hsettled.outsider hne hout,
    fun asset hne => balance_post_other hsettled.own hne.symm⟩
  · have := hsettled.holder htable hmem hne
    omega
  · rw [hsettled.record]
  · rw [hsettled.moves.collector, toward_map, List.map_map, Nat.add_right_comm]
    exact congrArg (rows.balance a.assetRef a.issuer + · + _) (sum_map_ite _ _ _)

end Exact

/-! ## Recorded tables -/

section Recorded

variable [Crypto] [Wire ActionPayload] [Zk] [StateTrie] [Decode] {table : CapTable}

/-- **A snapshot action of some block of some node recorded the table.** -/
def CapTable.Recorded (table : CapTable) : Prop :=
  ∃ (scan : Rows → AssetRef → List Address) (g db db' : Db) (now : Nat) (params : ChainParams)
    (block : ChainBlock) (ex : Executed) (action : ChainAction) (rows : Rows) (u : BlockUpdates)
    (asset : AssetRef) (a : Asset),
    g.BareGenesis ∧ ScansRows scan ∧ Db.RunsWith scan g db ∧
    Commits ⟨now, scan⟩ params db block ex db' ∧ Landed db block ex action rows u ∧
    action.payload = .snapshotHolders asset ∧ u.assetRegistration = some a ∧ a.snapshot = some table

theorem CapTable.Recorded.formed (h : table.Recorded) : table.Formed := by
  obtain ⟨scan, g, db, db', now, params, block, ex, action, rows, u, asset, a, hg, hscan, hrun, hcommits,
    hl, hp, hu, htable⟩ := h
  have hsupplied := hl.supplied hcommits (hrun.supplied hg)
  obtain ⟨a₀, table', -, rfl, hu', -, -, hcovers⟩ :=
    hl.snapshot hp (Rows.assetsNamed_of_supplied hsupplied)
  obtain rfl := Option.some.inj (hu.symm.trans hu')
  obtain rfl := Option.some.inj htable
  rw [hl.holders_eq hcommits] at hcovers
  have hlists :=
    (hrun.indexed hg.genesis hg.indexed (fun _ _ => hg.untouched _) hscan).1.holders a₀.assetRef
  exact ⟨hcovers.nodup hlists.nodup, hcovers.total_eq⟩

/-- **Corporate actions are exact**, for every recorded table with something on it and every state they
are run in: a distribution pays each holder the floor of its share or, if that is zero or the payout
asset refuses the holder at its turn, nothing; a redemption hands every holding in; a split scales every
holding. -/
theorem corporate_actions_exact (htable : table.Recorded) (hpos : 0 < table.total) (rows : Rows)
    (a : Asset) (height : Nat) :
    (∀ payer amount a' balances,
      (Rwa.applyDistribution a payer table amount height).run rows.view = .ok (a', balances) →
      ∃ credit, DistributionExact rows a payer table amount height (rows.post balances) a' credit) ∧
    (∀ a' balances states,
      (Rwa.applyRedemption a table height).run rows.view = .ok (a', balances, states) →
      RedemptionExact rows a table (rows.post balances) a') ∧
    ∀ numerator denominator a' balances states, 0 < denominator →
      (Rwa.applySplit a table numerator denominator height).run rows.view = .ok (a', balances, states) →
      SplitExact rows a table numerator denominator (rows.post balances) a' :=
  ⟨fun _ _ _ _ h => distribution_exact htable.formed hpos h,
    fun _ _ _ h => redemption_exact htable.formed h,
    fun _ _ _ _ _ _ h => split_exact htable.formed h⟩

/-- A record that some action of a block wrote is committed as one of them wrote it. -/
theorem Commits.landed_of_record {env : NodeEnv} {params : ChainParams} {db db' : Db} {block : ChainBlock}
    {ex : Executed} (h : Commits env params db block ex db') {action : ChainAction} {rows : Rows}
    {u : BlockUpdates} (hl : Landed db block ex action rows u) {b a : Asset} {asset : AssetRef}
    (hu : u.assetRegistration = some b) (hb : b.assetRef = asset)
    (hrow : db'.state.rows.asset asset = some a) :
    ∃ action rows u, Landed db block ex action rows u ∧ u.assetRegistration = some a := by
  have hex := h.shaped
  have hwritten : assetWrite b ∈ byCategory block.height (Key.asset b.assetRef).writers ex.updates := by
    obtain ⟨earlier, later, he, -⟩ := hl.reads
    refine List.mem_flatMap.mpr ⟨.assetRegistrations, List.mem_singleton_self _,
      List.mem_flatMap.mpr ⟨u, by simp [Executed.updates, he], ?_⟩⟩
    rw [Category.writes, hu]
    exact List.mem_singleton_self _
  have hsome : (lookup (byCategory block.height (Key.asset asset).writers ex.updates)
      (.asset asset)).isSome = true := hb ▸ lookup_isSome hwritten
  rw [Rows.asset, h.row_eq (k := .asset asset) rfl] at hrow
  cases hlast : lookup (byCategory block.height (Key.asset asset).writers ex.updates)
      (.asset asset) with
  | none =>
    rw [hlast] at hsome
    cases hsome
  | some row =>
    rw [hlast, Option.getD_some] at hrow
    subst hrow
    obtain ⟨cat, hcat, hmem⟩ := List.mem_flatMap.mp (mem_of_lookup hlast)
    obtain rfl := List.mem_singleton.mp hcat
    obtain ⟨u, hu, hwrite⟩ := List.mem_flatMap.mp hmem
    obtain ⟨a', ha', he⟩ := Option.map_eq_some_iff.mp (Option.mem_toList.mp hwrite)
    obtain ⟨hkey, hvalue⟩ := Writes.Write.mk.inj he
    obtain rfl := Key.asset.inj hkey
    obtain rfl := Option.some.inj (eq_of_heq hvalue)
    rcases List.mem_append.mp hu with hu | hu
    · rcases List.mem_cons.mp hu with rfl | hu
      · rw [hex.seed] at ha'
        cases ha'
      · obtain ⟨action, rows, hl⟩ := h.landed hu
        exact ⟨action, rows, u, hl, ha'⟩
    · obtain rfl := List.mem_singleton.mp hu
      rw [hex.sealed.assetRegistration] at ha'
      cases ha'

end Recorded

/-! ## A redemption on a small ledger -/

namespace SmallLedger

open PlainChain

attribute [local instance] crypto wire Plain.zk Plain.trie Plain.decoders

set_option maxRecDepth 20000

/-- The bond is registered and ten units are issued to the second account, -/
def issuedFirst : ChainBlock := block 1 [register, issueToSecond]

/-- and in the next block its holders are recorded. -/
def recordedThen : ChainBlock := block 2 [snapshot]

def tableOfTen : CapTable := ⟨2, 10, [(address 2, 10)]⟩

theorem tableOfTen_recorded : tableOfTen.Recorded := by
  have hstored : (onBlock env issuedFirst genesis).toOption.any (fun db =>
      (onBlock env recordedThen db).toOption.any fun db' =>
        (db'.state.rows.asset bond).any (·.snapshot = some tableOfTen)) = true := by decide +kernel
  obtain ⟨db, hfirst, hstored⟩ := exists_ok_of_any hstored
  obtain ⟨db', hthen, hstored⟩ := exists_ok_of_any hstored
  obtain ⟨a, ha, hsnapshot⟩ := (Option.any_eq_true _ _).mp hstored
  have hsnapshot := of_decide_eq_true hsnapshot
  obtain ⟨params, db₀, ex, hrun, hcommits⟩ := Db.RunsWith.commits_of_accept
    (.step .start (.accept hfirst)) hthen
  obtain ⟨rows, u, hl⟩ := hcommits.landed_of_mem (by simp [recordedThen, block] : snapshot ∈ _)
  obtain ⟨b, table, -, hnamed, hu, -⟩ := hl.snapshot rfl
    (Rows.assetsNamed_of_supplied (hl.supplied hcommits (hrun.supplied bareGenesis)))
  obtain ⟨action, rows', u', hl', hu'⟩ := hcommits.landed_of_record hl hu hnamed ha
  obtain rfl : action = snapshot := by simpa [recordedThen, block] using hl'.mem
  exact ⟨env.scan, genesis, db₀, db', env.now, params, recordedThen, ex, snapshot, rows', u', bond, a,
    bareGenesis, scansRows_env, hrun, hcommits, hl', rfl, hu', hsnapshot⟩

/-- Ten units of the bond, all with the second account. -/
def held : Rows := Writes.apply [put .chainParams params, put (.asset bond) bondRecord,
  put (.assetBalance bond (address 2)) (10 : Nat)] fun _ => none

/-- A redemption hands the ten units in. -/
theorem corporate_actions_exact_redeemed : ∃ a' balances states,
    (Rwa.applyRedemption bondRecord tableOfTen 3).run held.view = .ok (a', balances, states) ∧
      RedemptionExact held bondRecord tableOfTen (held.post balances) a' := by
  obtain ⟨⟨a', balances, states⟩, hrun⟩ := exists_ok_of_isOk
    (by decide +kernel : ((Rwa.applyRedemption bondRecord tableOfTen 3).run held.view).isOk = true)
  exact ⟨a', balances, states, hrun, (corporate_actions_exact tableOfTen_recorded (by decide) held
    bondRecord 3).2.1 a' balances states hrun⟩

end SmallLedger

end Arxium
