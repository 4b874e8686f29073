import Arxium.Node.Payouts

/-!
# Node/Veto — who can stop a distribution

A distribution withholds what the payout asset's rules refuse and pays the rest, so as long as the payer
is entitled and funded no turn of its loop fails (`distributeAll_ok`).  The loop is not all of it: the
staged balances are written back through the texts of their keys, and there an address that is none stops
everyone's payment.
-/

namespace Arxium

open ReadProg Writes Tally Moves

/-! ## A payer that can go on -/

namespace Payout

section Solvent

variable (payer : Address) (table : CapTable) (amount height : Nat)

/-- **The payer can make the payments of the remaining entries**, whoever of them is refused. -/
structure Solvent (p : Payout) (rest : List (Address × Nat)) : Prop where
  notFrozen : p.asset.frozen = false
  compliant : p.rows.Eligible p.asset payer height
  funded : p.rows.lockedAmount p.asset.assetRef payer height +
    (rest.map fun entry => entry.2 * amount / table.total).sum ≤ p.funds payer
  room : ∀ o, o ≠ payer → p.rows.balance p.asset.assetRef o + p.funds payer ≤ u128Max
  products : ∀ entry ∈ rest, entry.2 * amount ≤ u128Max
  /-- Its own share, were it on the table, would fit as well. -/
  ownRoom : ∀ entry ∈ rest, entry.1 = payer →
    p.funds payer + entry.2 * amount / table.total ≤ u128Max

end Solvent

variable {payer : Address} {table : CapTable} {amount height : Nat} {p : Payout}
  {entry : Address × Nat} {rest : List (Address × Nat)}

theorem forall_paidRows {asset : AssetRef} {cs : List (Address × Nat)} {P : AssetRef × Address → Prop} :
    (∀ k ∈ cs.flatMap (paidRows payer asset), P k) ↔
      ∀ c ∈ cs, c.2 ≠ 0 → P (asset, payer) ∧ P (asset, c.1) := by
  simp only [List.mem_flatMap, forall_exists_index, and_imp]
  rw [forall_comm]
  refine forall_congr' fun c => ?_
  rw [forall_comm]
  refine forall_congr' fun _ => ?_
  unfold paidRows
  split
  · next hzero => exact iff_of_true nofun (absurd hzero)
  · next hpositive => simp [hpositive]

/-- A payment leaves the rules and the locks of the asset as they are. -/
theorem continues_pay : Continues p.asset p.rows (p.pay payer table amount height entry).asset
    (p.pay payer table amount height entry).rows := by
  constructor
  · unfold pay
    dsimp only
    split
    · exact ⟨[], rfl, by simp⟩
    · exact ⟨_, rfl, by simp⟩
  · rw [asset_pay]

/-- **One payment, and the payer can go on.** -/
theorem Solvent.pay (h : p.Solvent payer table amount height (entry :: rest)) :
    (p.pay payer table amount height entry).Solvent payer table amount height rest := by
  have hfunded := h.funded
  rw [List.map_cons, List.sum_cons] at hfunded
  have hcredit : p.credit payer table amount height entry ≤ entry.2 * amount / table.total :=
    credit_le entry
  have hpays : Pays payer [(entry.1, p.credit payer table amount height entry)]
      (p.rows.balance p.asset.assetRef)
      ((p.pay payer table amount height entry).rows.balance p.asset.assetRef) := pays_pay (by omega)
  have hpayer : (p.pay payer table amount height entry).funds payer +
      p.credit payer table amount height entry = p.funds payer := by
    have hsum := hpays.payer
    rw [List.map_singleton, List.sum_singleton] at hsum
    rw [funds, assetRef_pay]
    exact hsum
  constructor
  · rw [asset_pay]
    exact h.notFrozen
  · exact continues_pay.eligible_iff.mpr h.compliant
  · rw [continues_pay.lockedAmount_eq, assetRef_pay]
    omega
  · intro o ho
    have hroom := h.room o ho
    rw [assetRef_pay, hpays.others o ho, toward_singleton]
    split <;> omega
  · exact fun e he => h.products e (List.mem_cons_of_mem _ he)
  · intro e he hown
    have := h.ownRoom e (List.mem_cons_of_mem _ he) hown
    omega

end Payout

/-! ## No turn fails -/

namespace Rwa

section Turns

variable {rows : Rows} {a : Asset} {payer recipient : Address} {table : CapTable} {amount height : Nat}
  {s : Staging} {entry : Address × Nat} {rest : List (Address × Nat)}

/-- A credit that fits is refused for the recipient's sake only. -/
theorem refuses_checkRecipient (hfits : rows.balance a.assetRef recipient + amount ≤ u128Max) :
    (checkRecipient a recipient amount height).Refuses rows.view
      fun e => e.ineligibleParty = some recipient := by
  unfold checkRecipient
  refine refuses_bind.mpr ⟨refuses_checkParty.mono fun e he => by cases he <;> rfl, fun _ _ => ?_⟩
  refine refuses_bind.mpr ⟨refuses_balanceOf, fun balance hbalance => ?_⟩
  obtain rfl := Except.ok.inj ((Rows.run_balanceOf _ _).symm.trans hbalance)
  refine refuses_ite.mpr ⟨fun _ => by simp, fun _ => ?_⟩
  refine refuses_bind.mpr ⟨refuses_ensure.mpr fun _ => rfl, fun _ _ => ?_⟩
  split
  · simp
  · refine refuses_bind.mpr ⟨refuses_of_run (run_credit.mpr ⟨hfits, rfl⟩), fun _ _ => ?_⟩
    exact refuses_bind.mpr ⟨refuses_ensure.mpr fun _ => rfl, fun _ _ => by simp⟩

/-- **A payer that can make the move is refused for the recipient's sake only.** -/
theorem refuses_applyCompliantMove (hfrozen : a.frozen = false) (hpayer : rows.Eligible a payer height)
    (hfree : rows.lockedAmount a.assetRef payer height + amount ≤ rows.balance a.assetRef payer)
    (hfits : rows.balance a.assetRef recipient + amount ≤ u128Max) :
    (applyCompliantMove a payer recipient amount height).Refuses rows.view
      fun e => e.ineligibleParty = some recipient := by
  obtain ⟨moved, hmoved⟩ := exists_ok_of_isOk (isOk_moveChecked (fun _ => hfits) hfree)
  refine refuses_bind.mpr ⟨?_, fun _ _ => refuses_of_run hmoved⟩
  refine refuses_bind.mpr ⟨refuses_ensure.mpr fun h => ?_, fun _ _ => ?_⟩
  · simp [hfrozen] at h
  · refine refuses_bind.mpr ⟨refuses_of_run hpayer, fun _ _ => ?_⟩
    exact refuses_bind.mpr ⟨refuses_checkRecipient hfits, fun _ _ => by simp⟩

/-- **One turn of a payer that can go on does not fail.** -/
theorem distributeOne_ok (h : (s.payout rows).Solvent payer table amount height (entry :: rest)) :
    ∃ s', (distributeOne payer table amount height s entry).run rows.view = .ok s' := by
  have hfunded := h.funded
  rw [List.map_cons, List.sum_cons] at hfunded
  have hfits : (rows.post s.balances).balance s.asset.assetRef entry.1 +
      entry.2 * amount / table.total ≤ u128Max := by
    by_cases hown : entry.1 = payer
    · rw [hown]
      exact h.ownRoom entry List.mem_cons_self hown
    · have hroom : (rows.post s.balances).balance s.asset.assetRef entry.1 +
        (s.payout rows).funds payer ≤ u128Max := h.room entry.1 hown
      omega
  have hshare : (proRata s.asset.assetRef table entry.2 amount).run rows.view =
      .ok (entry.2 * amount / table.total) := by
    have hproduct : checkedMul entry.2 amount = some (entry.2 * amount) :=
      checkedMul_eq_some.mpr ⟨h.products entry List.mem_cons_self, rfl⟩
    rw [proRata, hproduct]
    rfl
  have hmove : (applyCompliantMove s.asset payer entry.1 (entry.2 * amount / table.total) height).Refuses
      (rows.post s.balances).view fun e => e.ineligibleParty = some entry.1 :=
    refuses_applyCompliantMove h.notFrozen h.compliant
      ((Nat.add_le_add_left (Nat.le_add_right _ _) _).trans hfunded) hfits
  rw [distributeOne, run_bind, hshare]
  dsimp only [Except.bind]
  split
  · exact ⟨s, rfl⟩
  · rw [run_bind, run_attempt, run_through]
    dsimp only [Except.bind]
    cases hrun : (applyCompliantMove s.asset payer entry.1 (entry.2 * amount / table.total) height).run
        (rows.post s.balances).view with
    | ok moved => exact ⟨_, rfl⟩
    | error e =>
      dsimp only
      rw [if_pos (hmove e hrun)]
      exact ⟨s, rfl⟩

/-- **No turn of the loop fails**, and the payments are those of the table. -/
theorem distributeAll_ok {l : List (Address × Nat)}
    (h : (s.payout rows).Solvent payer table amount height l) :
    ∃ s', (l.foldlM (distributeOne payer table amount height) s).run rows.view = .ok s' := by
  induction l generalizing s with
  | nil => exact ⟨s, rfl⟩
  | cons entry rest ih =>
    obtain ⟨s₁, hone⟩ := distributeOne_ok h
    have hnext := h.pay
    rw [← (run_distributeOne hone).2.1] at hnext
    obtain ⟨s', hrest⟩ := ih hnext
    rw [List.foldlM_cons]
    exact ⟨s', bind_ok.mpr ⟨s₁, hone, hrest⟩⟩

/-- Staged rows read back when all of their texts do. -/
theorem intoUpdates_ok [Crypto] {v : KvView} {balances : AssetBalanceUpdates} :
    (∃ updates, (intoUpdates balances).run v = .ok updates) ↔ ∀ k ∈ balances.map Prod.fst,
      (AssetRef.parse k.1.text).isOk = true ∧ (Address.parse k.2.text).isOk = true := by
  unfold intoUpdates
  simp only [List.forall_mem_map, ← Bool.and_eq_true]
  rw [← List.all_eq_true]
  split
  · next hall => exact ⟨fun _ => hall, fun _ => ⟨_, rfl⟩⟩
  · next hall => exact ⟨fun ⟨_, h⟩ => (nomatch h), fun h => absurd h hall⟩

end Turns

end Rwa

/-! ## Entitled and funded -/

section Entitled

variable [Crypto] (rows : Rows) (action : ChainAction) (asset : AssetRef) (snapshotHeight : Nat)
  (payoutAsset : AssetRef) (amount height : Nat)

/-- **The sender may distribute, and can pay for it**: its own asset has the table it names, there is
something to share out, the payout asset is not frozen and lets the sender pay, and the sender's unlocked
balance covers all shares. -/
structure Entitled (a payout : Asset) (table : CapTable) : Prop where
  record : rows.asset asset = some a
  regulated : a.assetClass ≠ .token
  issuer : action.sender = a.issuer
  taken : a.snapshot = some table
  dated : table.height = snapshotHeight
  something : amount ≠ 0 ∧ table.total ≠ 0
  payoutRecord : rows.asset payoutAsset = some payout
  payoutRegulated : payout.assetClass ≠ .token
  notFrozen : payout.frozen = false
  compliant : rows.Eligible payout action.sender height
  funded : rows.lockedAmount payoutAsset action.sender height +
    (table.holders.map fun entry => entry.2 * amount / table.total).sum ≤
      rows.balance payoutAsset action.sender
  products : ∀ entry ∈ table.holders, entry.2 * amount ≤ u128Max
  ownRoom : ∀ entry ∈ table.holders, entry.1 = action.sender →
    rows.balance payoutAsset action.sender + entry.2 * amount / table.total ≤ u128Max

variable {rows action asset snapshotHeight payoutAsset amount height} {a payout : Asset}
  {table : CapTable}

omit [Crypto] in
/-- In a state where all balances add up to the supply, such a payer can go on to the end. -/
theorem Entitled.solvent (h : Entitled rows action asset snapshotHeight payoutAsset amount height a
    payout table) (hs : rows.Supplied payoutAsset) :
    (⟨rows, payout⟩ : Payout).Solvent action.sender table amount height table.holders := by
  have hbacked := hs.backed payout h.payoutRecord
  have hnamed := hs.named payout h.payoutRecord
  have hfits : payout.totalSupply ≤ u128Max := hbacked.fits
  subst hnamed
  exact ⟨h.notFrozen, h.compliant, h.funded, fun o ho => (hbacked.totals.add_le ho).trans hfits,
    h.products, h.ownRoom⟩

/-- The handler comes to the circuit's loop. -/
theorem Entitled.run_distribute (h : Entitled rows action asset snapshotHeight payoutAsset amount height a
    payout table) (hs : rows.Supplied asset) {u : BlockUpdates} :
    (Runtime.distribute action asset snapshotHeight payoutAsset amount height).run rows.view = .ok u ↔
      ∃ payout' balances, (Rwa.applyDistribution payout action.sender table amount height).run rows.view =
        .ok (payout', balances) ∧ u = { assets := balances, assetRegistration := some payout' } := by
  have hissuer : (Runtime.requireIssuer action asset).run rows.view = .ok a :=
    bind_ok.mpr ⟨a, Runtime.run_resolveAsset.mpr ⟨h.record, h.regulated⟩,
      bind_ok.mpr ⟨(), ensure_ok.mpr (decide_eq_true h.issuer), rfl⟩⟩
  have hsnapshot : (Runtime.snapshotAt a snapshotHeight).run rows.view = .ok table := by
    rw [Runtime.snapshotAt, h.taken]
    dsimp only
    rw [if_pos h.dated]
    rfl
  have hpayout : (Runtime.payoutRecord a payoutAsset).run rows.view = .ok payout := by
    unfold Runtime.payoutRecord
    split
    · next hsame =>
      obtain rfl := hsame.trans (hs.named a h.record)
      obtain rfl := Option.some.inj (h.record.symm.trans h.payoutRecord)
      rfl
    · exact Runtime.run_resolveAsset.mpr ⟨h.payoutRecord, h.payoutRegulated⟩
  have hsomething : (decide (amount ≠ 0) && decide (table.total ≠ 0)) = true := by
    simpa using h.something
  unfold Runtime.distribute
  rw [run_bind, hissuer]
  dsimp only [Except.bind]
  rw [run_bind, hsnapshot]
  dsimp only [Except.bind]
  rw [run_bind, require, run_ensure, if_pos hsomething]
  dsimp only [Except.bind]
  rw [run_bind, hpayout]
  dsimp only [Except.bind]
  rw [bind_ok]
  simp only [circuit_ok, Prod.exists]
  refine exists_congr fun payout' => exists_congr fun balances => and_congr_right fun _ => ?_
  exact ⟨fun hu => (Except.ok.inj hu).symm, fun hu => congrArg Except.ok hu.symm⟩

end Entitled

section Veto

variable [Crypto] [Wire ActionPayload] [Zk] [StateTrie] [Decode] {s₀ s : Rows} {hist : List Applied} {action : ChainAction}
  {asset payoutAsset : AssetRef} {snapshotHeight amount height : Nat} {a payout : Asset}
  {table : CapTable}

/-- **Whom an entitled and funded distribution depends on**: it pays everyone whom the rules admit at
its turn exactly when the addresses of all of them read back. -/
theorem distribution_unvetoed (h₀ : s₀.NoAssets) (h : AppliedRun SameAssets s₀ hist s)
    (hentitled : Entitled s action asset snapshotHeight payoutAsset amount height a payout table)
    (cs : List (Address × Nat))
    (hcs : cs = (⟨s, payout⟩ : Payout).credits action.sender table amount height table.holders) :
    (∃ u, (Runtime.distribute action asset snapshotHeight payoutAsset amount height).run s.view = .ok u ∧
      Pays action.sender cs (s.balance payoutAsset) ((s.post u.assets).balance payoutAsset)) ↔
    ∀ c ∈ cs, c.2 ≠ 0 → (AssetRef.parse payoutAsset.text).isOk = true ∧
      (Address.parse action.sender.text).isOk = true ∧ (Address.parse c.1.text).isOk = true := by
  have hsupplied := h.supplied h₀.supplied
  have hnamed := (hsupplied payoutAsset).named payout hentitled.payoutRecord
  obtain ⟨staged, hloop⟩ := Rwa.distributeAll_ok (s := { asset := payout })
    (hentitled.solvent (hsupplied payoutAsset))
  obtain ⟨-, hpays, moves, hmoves, hkeys⟩ := Rwa.run_distributeAll hloop
  obtain rfl : staged.balances = moves := hmoves
  have hreads : (∃ updates, (Rwa.intoUpdates staged.balances).run s.view = .ok updates) ↔
      ∀ c ∈ cs, c.2 ≠ 0 → (AssetRef.parse payoutAsset.text).isOk = true ∧
        (Address.parse action.sender.text).isOk = true ∧ (Address.parse c.1.text).isOk = true := by
    rw [Rwa.intoUpdates_ok, hkeys, Payout.forall_paidRows, hcs, ← hnamed]
    refine forall_congr' fun c => forall_congr' fun _ => forall_congr' fun _ => ?_
    exact (and_and_left ..).symm
  rw [← hreads]
  constructor
  · rintro ⟨u, hu, -⟩
    obtain ⟨payout', balances, hrun, -⟩ := (hentitled.run_distribute (hsupplied asset)).mp hu
    obtain ⟨staged', hloop', hrun⟩ := bind_ok.mp hrun
    obtain rfl := Except.ok.inj (hloop.symm.trans hloop')
    obtain ⟨updates, hinto, -⟩ := bind_ok.mp hrun
    exact ⟨updates, hinto⟩
  · rintro ⟨updates, hinto⟩
    obtain rfl := Rwa.run_intoUpdates hinto
    refine ⟨_, (hentitled.run_distribute (hsupplied asset)).mpr ⟨staged.asset, staged.balances,
      bind_ok.mpr ⟨staged, hloop, bind_ok.mpr ⟨_, hinto, rfl⟩⟩, rfl⟩, ?_⟩
    rw [hcs, ← hnamed]
    exact hpays

end Veto

/-! ## A holder that is no address -/

namespace SmallLedger

open PlainChain

attribute [local instance] crypto wire Plain.zk Plain.trie Plain.decoders

set_option maxRecDepth 20000

/-- A text that no address has. -/
def junk : Address := ⟨"junk"⟩

def issueToSecondAgain : ChainAction := action 1 2 (.issueAssetTo bond (address 2) 10)

/-- The second account sends one of its ten units there. -/
def sendToJunk : ChainAction := action 2 0 (.transferAsset bond junk 1)

def sentToJunk : ChainBlock := block 1 [register, issue, issueToSecondAgain, sendToJunk]

def snapshotThird : ChainAction := action 1 3 (.snapshotHolders bond)

def recordedJunk : ChainBlock := block 2 [snapshotThird]

/-- A dividend of ten units in the bond itself. -/
def dividend : ChainAction := action 1 4 (.distributeToHolders bond 2 bond 10)

def tableWithJunk : CapTable := ⟨2, 10, [(junk, 1), (address 2, 9)]⟩

def bondWithJunk : Asset :=
  { bondRecord with totalSupply := 20, holderCount := 2, snapshot := some tableWithJunk }

/-- The issuer is entitled and funded, and its dividend fails. -/
def vetoed (db : Db) : Bool :=
  decide (db.state.rows.asset bond = some bondWithJunk) &&
  ((Rwa.checkParty bondWithJunk (address 1) 3).run db.state.rows.view).isOk &&
  decide (db.state.rows.lockedAmount bond (address 1) 3 + 10 ≤ db.state.rows.balance bond (address 1)) &&
  !((Runtime.distribute dividend bond 2 bond 10 3).run db.state.rows.view).isOk

theorem recordedJunk_accepted : ∃ db db', onBlock env sentToJunk genesis = .ok db ∧
    onBlock env recordedJunk db = .ok db' ∧ vetoed db' = true := by
  have hvetoed : (onBlock env sentToJunk genesis).toOption.any (fun db =>
      (onBlock env recordedJunk db).toOption.any vetoed) = true := by decide +kernel
  obtain ⟨db, hfirst, hvetoed⟩ := exists_ok_of_any hvetoed
  obtain ⟨db', hthen, hvetoed⟩ := exists_ok_of_any hvetoed
  exact ⟨db, db', hfirst, hthen, hvetoed⟩

/-- **One unit sent to no address stops the dividend.** -/
theorem junk_vetoes : ∃ db, genesis.BareGenesis ∧ Db.RunsWith env.scan genesis db ∧
    Entitled db.state.rows dividend bond 2 bond 10 3 bondWithJunk bondWithJunk tableWithJunk ∧
    ((Runtime.distribute dividend bond 2 bond 10 3).run db.state.rows.view).isOk = false := by
  obtain ⟨db, db', hfirst, hthen, hvetoed⟩ := recordedJunk_accepted
  simp only [vetoed, Bool.and_eq_true, decide_eq_true_eq, Bool.not_eq_true'] at hvetoed
  obtain ⟨⟨⟨hrecord, hparty⟩, hfunded⟩, hfails⟩ := hvetoed
  obtain ⟨⟨⟩, hparty⟩ := exists_ok_of_isOk hparty
  have hothers : ∀ entry ∈ tableWithJunk.holders, entry.1 ≠ dividend.sender := by decide
  refine ⟨db', bareGenesis, .step (.step .start (.accept hfirst)) (.accept hthen), ?_, hfails⟩
  exact ⟨hrecord, by decide, rfl, rfl, rfl, by decide, hrecord, by decide, rfl, hparty, hfunded,
    by decide, fun entry hentry hown => absurd hown (hothers entry hentry)⟩

/-- Ten units are with the issuer and ten with the second account, -/
def shared : Rows := issued.after (ctx 3) issueToSecondAgain

/-- which the block lists as a holder; -/
def listed : Rows := Writes.apply [put (.assetHolders bond) [address 2]] shared

/-- then the holders are recorded. -/
def dated : Rows := listed.after (ctx 4) snapshotThird

def bondWithTen : Asset :=
  { bondRecord with totalSupply := 20, holderCount := 1, snapshot := some ⟨4, 10, [(address 2, 10)]⟩ }

def dividendLater : ChainAction := action 1 4 (.distributeToHolders bond 4 bond 10)

theorem dated_ok : ((Runtime.dispatch (ctx 3) issueToSecondAgain).run issued.view).isOk = true ∧
    ((Runtime.dispatch (ctx 4) snapshotThird).run listed.view).isOk = true ∧
    dated.asset bond = some bondWithTen ∧
    (Rwa.checkParty bondWithTen (address 1) 5).run dated.view = .ok () ∧
    dated.lockedAmount bond (address 1) 5 + 10 ≤ dated.balance bond (address 1) := by
  decide +kernel

theorem dated_credits : [(address 2, 10)] = (⟨dated, bondWithTen⟩ : Payout).credits dividendLater.sender
    ⟨4, 10, [(address 2, 10)]⟩ 10 5 [(address 2, 10)] := by decide +kernel

/-- With a holder that is an address the dividend is paid. -/
theorem distribution_unvetoed_dated :
    ∃ u, (Runtime.distribute dividendLater bond 4 bond 10 5).run dated.view = .ok u ∧
      Pays (address 1) [(address 2, 10)] (dated.balance bond) ((dated.post u.assets).balance bond) := by
  obtain ⟨hissue, hsnapshot, hrecord, hparty, hfunded⟩ := dated_ok
  have hothers : ∀ entry ∈ [(address 2, 10)], entry.1 ≠ dividendLater.sender := by decide
  have hlisted : SameAssets shared listed := fun k hk => apply_of_not_mem (fun w hw hkey => by
    obtain rfl := List.mem_singleton.mp hw
    subst hkey
    cases hk) shared
  have hrun := AppliedRun.after (.rest (AppliedRun.after run_issued hissue) hlisted) hsnapshot
  have hentitled : Entitled dated dividendLater bond 4 bond 10 5 bondWithTen bondWithTen
      ⟨4, 10, [(address 2, 10)]⟩ :=
    ⟨hrecord, by decide, rfl, rfl, rfl, by decide, hrecord, by decide, rfl, hparty, hfunded, by decide,
      fun entry hentry hown => absurd hown (hothers entry hentry)⟩
  exact (distribution_unvetoed start_noAssets hrun hentitled _ dated_credits).mpr (by decide +kernel)

end SmallLedger

end Arxium
