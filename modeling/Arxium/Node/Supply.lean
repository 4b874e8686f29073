import Arxium.Node.Applied
import Arxium.Executor.PlainChain

/-!
# Node/Supply — an asset's supply and its holders

Two figures of a record follow its balances: `totalSupply` is their sum and `holderCount` the number of
those who hold some.  Every entry in a book keeps the first (`Book.Entry.backed`) and, until the count
runs into its bound, the second (`Book.Entry.counted`).  What breaks the second is no entry at all: a
new issuer stops being a holder and the old one becomes one, and the count does not follow.
-/

namespace Arxium

open Writes Tally

/-! ## Supply -/

/-- The balances come to the supply, which is within its bounds. -/
structure Book.Backed (b : Book) : Prop where
  totals : Totals b.balance b.asset.totalSupply
  fits : b.asset.totalSupply ≤ u128Max
  capped : ∀ cap, b.asset.maxSupply = some cap → b.asset.totalSupply ≤ cap

namespace Book

variable {D : Set Address} {b b' : Book}

theorem Mints.backed {who : Address} {amount : Nat} (h : b.Mints who amount b') (hb : b.Backed) :
    b'.Backed := by
  obtain ⟨hfits, hcap, rfl⟩ := h
  refine ⟨hb.totals.update ?_, hfits, fun cap hc => ?_⟩
  · change b.asset.totalSupply + amount + b.balance who = _
    omega
  · have hc : b.asset.maxSupply = some cap := hc
    rw [hc] at hcap
    exact of_decide_eq_true hcap

/-- **Every entry keeps the supply.** -/
theorem Entry.backed (h : b.Entry b') (hb : b.Backed) : b'.Backed := by
  cases h with
  | mint _ mints => exact mints.backed hb
  | @burn who amount held =>
    have hle := hb.totals.le who
    refine ⟨hb.totals.update ?_, ?_, fun cap hc => ?_⟩
    · change b.asset.totalSupply - amount + b.balance who = _
      omega
    · exact (Nat.sub_le _ _).trans hb.fits
    · exact (Nat.sub_le _ _).trans (hb.capped cap hc)
  | @move sender recipient amount held ne =>
    have hle := hb.totals.le sender
    have hboth := hb.totals.add_le ne
    have hfits := hb.fits
    have hdebited : Totals (Function.update b.balance sender (b.balance sender - amount))
        (b.asset.totalSupply - amount) := hb.totals.update (by omega)
    refine ⟨hdebited.update ?_, hb.fits, hb.capped⟩
    rw [Function.update_of_ne ne, saturatingAdd_eq (by omega)]
    change b.asset.totalSupply + b.balance recipient = _
    omega
  | amend amends =>
    refine ⟨?_, ?_, fun cap hc => ?_⟩
    · rw [amends.totalSupply]
      exact hb.totals
    · rw [amends.totalSupply]
      exact hb.fits
    · rw [amends.totalSupply]
      rcases amends.maxSupply with hsame | hpinned
      · exact hb.capped cap (hsame.symm.trans hc)
      · exact (Option.some.inj (hpinned.symm.trans hc)).le

/-- **No entry lifts a lock on issuance or gets round it.** -/
theorem Entry.locked (h : b.Entry b') (hlocked : b.asset.issuanceLocked = true) :
    b'.asset.issuanceLocked = true ∧ b'.asset.totalSupply ≤ b.asset.totalSupply := by
  cases h with
  | mint unlocked mints => exact absurd (hlocked.symm.trans unlocked) (by simp)
  | burn => exact ⟨hlocked, Nat.sub_le _ _⟩
  | move => exact ⟨hlocked, le_rfl⟩
  | amend amends => exact ⟨amends.issuanceLocked hlocked, amends.totalSupply.le⟩

theorem Entries.backed (h : b.Entries D b') (hb : b.Backed) : b'.Backed := by
  induction h with
  | refl => exact hb
  | tail _ h ih => exact h.1.backed ih

theorem Entries.locked (h : b.Entries D b') (hlocked : b.asset.issuanceLocked = true) :
    b'.asset.issuanceLocked = true ∧ b'.asset.totalSupply ≤ b.asset.totalSupply := by
  induction h with
  | refl => exact ⟨hlocked, le_rfl⟩
  | tail _ h ih =>
    obtain ⟨hlocked', hle⟩ := h.1.locked ih.1
    exact ⟨hlocked', hle.trans ih.2⟩

end Book

/-- An asset's record is backed by its balances; without a record there are none. -/
structure Rows.Supplied (rows : Rows) (asset : AssetRef) : Prop where
  absent : rows.asset asset = none → ∀ owner, rows.balance asset owner = 0
  named : ∀ a, rows.asset asset = some a → a.assetRef = asset
  backed : ∀ a, rows.asset asset = some a → Book.Backed ⟨a, rows.balance asset⟩

theorem Rows.Supplied.of_eq {s s' : Rows} {asset : AssetRef} (h : s.Supplied asset)
    (record : s'.asset asset = s.asset asset) (balances : s'.balance asset = s.balance asset) :
    s'.Supplied asset := by
  constructor
  · rw [record, balances]
    exact h.absent
  · rw [record]
    exact h.named
  · rw [record, balances]
    exact h.backed

theorem Rows.assetsNamed_of_supplied {s : Rows} (h : ∀ asset, s.Supplied asset) : s.AssetsNamed :=
  fun asset a ha => (h asset).named a ha

/-- A state with no assets. -/
def Rows.NoAssets (rows : Rows) : Prop :=
  ∀ asset, rows.asset asset = none ∧ ∀ owner, rows.balance asset owner = 0

theorem Rows.NoAssets.supplied {rows : Rows} (h : rows.NoAssets) (asset : AssetRef) :
    rows.Supplied asset := by
  refine ⟨fun _ => (h asset).2, fun a ha => ?_, fun a ha => ?_⟩
  all_goals
    rw [(h asset).1] at ha
    cases ha

section Change

variable {action : ChainAction} {asset : AssetRef} {s s' : Rows}

theorem AssetChange.supplied (h : AssetChange action asset s s') (hs : s.Supplied asset) :
    s'.Supplied asset := by
  have hrecorded : ∀ a', s'.asset asset = some a' → a'.assetRef = asset →
      Book.Backed ⟨a', s'.balance asset⟩ → s'.Supplied asset := by
    intro a' ha' hname hbacked
    refine ⟨fun hnone => ?_, fun a ha => ?_, fun a ha => ?_⟩
    · rw [ha'] at hnone
      cases hnone
    all_goals
      obtain rfl := Option.some.inj (ha'.symm.trans ha)
      assumption
  have hfresh : s.asset asset = none → ∀ a : Asset, a.totalSupply = 0 →
      Book.Backed ⟨a, s.balance asset⟩ := by
    intro hnone a hsupply
    refine ⟨?_, hsupply.le.trans (Nat.zero_le _), fun _ _ => hsupply.le.trans (Nat.zero_le _)⟩
    rw [hsupply]
    exact totals_zero (hs.absent hnone)
  cases h with
  | same record balances =>
    exact hs.of_eq record balances
  | registered a named fresh record supply holders balances =>
    exact hrecorded a record named (balances ▸ hfresh fresh a supply)
  | launched a a' named fresh record supply holders who amount minted =>
    exact hrecorded a' record named (minted.backed (hfresh fresh a supply))
  | posted a a' D stored record entries =>
    exact hrecorded a' record (entries.assetRef_eq.trans (hs.named a stored))
      (entries.backed (hs.backed a stored))
  | handedOver a newIssuer payload stored regulated record balances =>
    have hb := hs.backed a stored
    refine hrecorded _ record (hs.named a stored) ?_
    rw [balances]
    exact ⟨hb.totals, hb.fits, hb.capped⟩

theorem AssetChange.locked (h : AssetChange action asset s s') {a : Asset}
    (ha : s.asset asset = some a) (hlocked : a.issuanceLocked = true) :
    ∃ a', s'.asset asset = some a' ∧ a'.issuanceLocked = true ∧ a'.totalSupply ≤ a.totalSupply := by
  cases h with
  | same record => exact ⟨a, record.trans ha, hlocked, le_rfl⟩
  | registered b named fresh =>
    rw [ha] at fresh
    cases fresh
  | launched b b' named fresh =>
    rw [ha] at fresh
    cases fresh
  | posted b b' D stored record entries =>
    obtain rfl := Option.some.inj (ha.symm.trans stored)
    exact ⟨b', record, entries.locked hlocked⟩
  | handedOver b newIssuer payload stored regulated record =>
    obtain rfl := Option.some.inj (ha.symm.trans stored)
    exact ⟨_, record, hlocked, le_rfl⟩

end Change

theorem SameAssets.asset_eq {s s' : Rows} (h : SameAssets s s') (asset : AssetRef) :
    s'.asset asset = s.asset asset := h (.asset asset) rfl

theorem SameAssets.balance_eq {s s' : Rows} (h : SameAssets s s') (asset : AssetRef) :
    s'.balance asset = s.balance asset := by
  funext owner
  exact congrArg (Option.getD (α := Nat) · 0) (h (.assetBalance asset owner) rfl)

theorem Rows.Supplied.congr {s s' : Rows} {asset : AssetRef} (h : s.Supplied asset)
    (hsame : SameAssets s s') : s'.Supplied asset :=
  h.of_eq (hsame.asset_eq asset) (hsame.balance_eq asset)

section Runs

variable [Crypto] [Wire ActionPayload] [Zk] [StateTrie] [Decode] {s₀ s t : Rows}
  {hist hist' : List Applied}

/-- **Every sequence of applied actions keeps every asset backed.** -/
theorem AppliedRun.supplied (h : AppliedRun SameAssets s₀ hist s)
    (hs : ∀ asset, s₀.Supplied asset) : ∀ asset, s.Supplied asset :=
  h.induct (I := fun s => ∀ asset, s.Supplied asset) hs
    (fun _ _ _ valid hs asset => (valid.change (Rows.assetsNamed_of_supplied hs) asset).supplied (hs asset))
    fun _ _ hsame hs asset => (hs asset).congr hsame

theorem AppliedRun.locked (h : AppliedRun SameAssets s hist' t) (hs : ∀ asset, s.Supplied asset)
    {asset : AssetRef} {a : Asset} (ha : s.asset asset = some a) (hlocked : a.issuanceLocked = true) :
    ∃ a', t.asset asset = some a' ∧ a'.issuanceLocked = true ∧ a'.totalSupply ≤ a.totalSupply := by
  induction h with
  | nil => exact ⟨a, ha, hlocked, le_rfl⟩
  | act h valid ih =>
    obtain ⟨a₁, ha₁, hlocked₁, hle₁⟩ := ih
    have hnamed := Rows.assetsNamed_of_supplied (h.supplied hs)
    obtain ⟨a₂, ha₂, hlocked₂, hle₂⟩ := (valid.change hnamed asset).locked ha₁ hlocked₁
    exact ⟨a₂, ha₂, hlocked₂, hle₂.trans hle₁⟩
  | rest h keeps ih =>
    rw [keeps.asset_eq]
    exact ih

/-- **Supply.**  After any sequence of applied actions from a state with no assets, every asset's
balances come to its supply, which is within its cap; and once its issuance is locked it stays locked
and the supply never rises, whatever actions follow. -/
theorem supply_conserved (h₀ : s₀.NoAssets) (h : AppliedRun SameAssets s₀ hist s)
    (h' : AppliedRun SameAssets s hist' t) (asset : AssetRef) (a : Asset)
    (ha : s.asset asset = some a) :
    Totals (s.balance asset) a.totalSupply ∧
      (∀ cap, a.maxSupply = some cap → a.totalSupply ≤ cap) ∧
      (a.issuanceLocked = true → ∃ a', t.asset asset = some a' ∧ a'.issuanceLocked = true ∧
        a'.totalSupply ≤ a.totalSupply) := by
  have hs := h.supplied h₀.supplied
  have hbacked := (hs asset).backed a ha
  exact ⟨hbacked.totals, hbacked.capped, h'.locked hs ha⟩

/-- The same on a chain of blocks: supply is conserved in the state after every block. -/
theorem Chain.supplied {c₀ c : ChainState} {blocks : List (ChainBlock × Executed)}
    (h : Chain c₀ blocks c) (h₀ : c₀.rows.NoAssets) (asset : AssetRef) : c.rows.Supplied asset := by
  obtain ⟨acts, hrun, -⟩ := h.appliedRun fun hcommit => hcommit.sameAssets
  exact hrun.supplied h₀.supplied asset

end Runs

/-! ## Holders -/

/-- Those who hold some of an asset and count. -/
def Book.holders (b : Book) : Set Address := {o | b.asset.Counts o ∧ b.balance o ≠ 0}

/-- The record counts its holders. -/
def Book.Counted (b : Book) : Prop := Numbers b.holders b.asset.holderCount

namespace Book

variable {D P : Set Address} {b b' : Book}

theorem mem_holders_set (b : Book) {who o : Address} (h : o ≠ who) (amount : Nat) :
    o ∈ (b.set who amount).holders ↔ o ∈ b.holders := by
  change b.asset.Counts o ∧ Function.update b.balance who amount o ≠ 0 ↔ _
  rw [Function.update_of_ne h]
  rfl

theorem mem_holders_set_self (b : Book) (who : Address) (amount : Nat) :
    who ∈ (b.set who amount).holders ↔ b.asset.Counts who ∧ amount ≠ 0 := by
  change b.asset.Counts who ∧ Function.update b.balance who amount who ≠ 0 ↔ _
  rw [Function.update_self]

/-- **The count follows one balance**, as long as there is room for it. -/
theorem Counted.set (h : b.Counted) (hfin : P.Finite) (hcard : P.ncard ≤ u32Max) {who : Address}
    {amount : Nat} (hP : ∀ o, (b.set who amount).balance o ≠ 0 → o ∈ P) :
    (b.set who amount).Counted := by
  have hother := fun o (ho : o ≠ who) => mem_holders_set b ho amount
  have hself := mem_holders_set_self b who amount
  by_cases hc : b.asset.Counts who
  · have hcount : (b.set who amount).asset.holderCount =
        (b.asset.countHolder (b.balance who) amount).holderCount := if_pos hc
    unfold Counted
    rw [hcount]
    unfold Asset.countHolder
    split
    · rename_i hnew
      have hin : who ∈ (b.set who amount).holders := hself.mpr ⟨hc, hnew.2⟩
      have hnumbers := Numbers.insert h hother (fun hmem => hmem.2 hnew.1) hin
      have hroom : b.asset.holderCount + 1 ≤ u32Max := by
        rw [← hnumbers.ncard_eq]
        exact (Set.ncard_le_ncard (fun o ho => hP o ho.2) hfin).trans hcard
      rwa [← Nat.min_eq_left hroom] at hnumbers
    · rename_i hnew
      split
      · rename_i hgone
        exact Numbers.remove h hother ⟨hc, hgone.1⟩ fun hmem => (hself.mp hmem).2 hgone.2
      · rename_i hgone
        refine Numbers.congr h fun o => ?_
        by_cases ho : o = who
        · subst ho
          rw [hself]
          change _ ↔ _ ∧ _
          tauto
        · exact hother o ho
  · have hcount : (b.set who amount).asset.holderCount = b.asset.holderCount := if_neg hc
    unfold Counted
    rw [hcount]
    refine Numbers.congr h fun o => ?_
    by_cases ho : o = who
    · subst ho
      rw [hself]
      change _ ↔ _ ∧ _
      tauto
    · exact hother o ho

theorem Counted.withSupply (h : b.Counted) (supply : Nat) : (b.withSupply supply).Counted := h

theorem Mints.counted {who : Address} {amount : Nat} (h : b.Mints who amount b') (hb : b.Counted)
    (hfin : P.Finite) (hcard : P.ncard ≤ u32Max) (hP : ∀ o, b'.balance o ≠ 0 → o ∈ P) :
    b'.Counted := by
  obtain ⟨-, -, rfl⟩ := h
  exact (hb.withSupply _).set hfin hcard hP

/-- **Every entry keeps the count**, as long as there is room for it. -/
theorem Entry.counted (h : b.Entry b') (hb : b.Counted) (hfin : P.Finite) (hcard : P.ncard ≤ u32Max)
    (hP : ∀ o, b.balance o ≠ 0 → o ∈ P) (hP' : ∀ o, b'.balance o ≠ 0 → o ∈ P) : b'.Counted := by
  cases h with
  | mint _ mints => exact mints.counted hb hfin hcard hP'
  | @burn who amount held => exact (hb.withSupply _).set hfin hcard hP'
  | @move sender recipient amount held ne =>
    refine Counted.set (hb.set hfin hcard fun o ho => hP o ?_) hfin hcard hP'
    by_cases hs : o = sender
    · subst hs
      have ho : b.balance o - amount ≠ 0 := by
        simpa only [Book.set, Function.update_self] using ho
      omega
    · simpa only [Book.set, Function.update_of_ne hs] using ho
  | @amend asset amends =>
    have hholders : holders ⟨asset, b.balance⟩ = b.holders := by
      unfold holders Asset.Counts
      simp only [amends.assetClass, amends.issuer]
    unfold Counted
    rw [hholders, amends.holderCount]
    exact hb

theorem Entries.drifts (h : b.Entries D b') : Drifts D b.balance b'.balance := by
  induction h with
  | refl => exact .refl D _
  | tail _ h ih => exact ih.trans h.2

/-- A book in between has no holder that the first and the last have not. -/
theorem Entries.counted (h : b.Entries D b') (hb : b.Counted) (hfin : P.Finite)
    (hcard : P.ncard ≤ u32Max) (hP : ∀ o ∈ D, b.balance o ≠ 0 → o ∈ P)
    (hP' : ∀ o ∉ D, b'.balance o ≠ 0 → o ∈ P) : b'.Counted := by
  induction h with
  | refl => exact hb
  | @tail c d hpath hstep ih =>
    obtain ⟨hentry, hdrift⟩ := hstep
    have hc : ∀ o ∉ D, c.balance o ≠ 0 → o ∈ P := fun o ho hne => hP' o ho (hdrift.credited o ho hne)
    have hpathDrift := Entries.drifts hpath
    refine hentry.counted (ih hc) hfin hcard (fun o hne => ?_) fun o hne => ?_
    · by_cases ho : o ∈ D
      · exact hP o ho (hpathDrift.debited o ho hne)
      · exact hc o ho hne
    · by_cases ho : o ∈ D
      · exact hP o ho ((hpathDrift.trans hdrift).debited o ho hne)
      · exact hP' o ho hne

end Book

/-- **The holder count is exact**: it is the number of addresses with a balance, the issuer of a
regulated asset left out. -/
def Rows.HoldersExact (rows : Rows) (asset : AssetRef) : Prop :=
  ∀ a, rows.asset asset = some a →
    Numbers {o | a.Counts o ∧ rows.balance asset o ≠ 0} a.holderCount

/-- **A handover is even** when the old and the new issuer both hold units, or neither does. -/
def Applied.HandoverEven (e : Applied) : Prop :=
  ∀ asset newIssuer a, e.action.payload = .transferIssuer asset newIssuer →
    e.before.asset asset = some a →
      (e.before.balance asset a.issuer = 0 ↔ e.before.balance asset newIssuer = 0)

section Handover

variable {α : Type} {f : α → Nat} {n m : Nat}

/-- Leaving out one owner or another comes to the same number when both hold or neither does. -/
theorem numbers_except_iff (p q : α) (hfin : (Function.support f).Finite)
    (h : Numbers {o | o ≠ p ∧ f o ≠ 0} n) :
    Numbers {o | o ≠ q ∧ f o ≠ 0} n ↔ (f p = 0 ↔ f q = 0) := by
  have hall : Numbers {o | f o ≠ 0} {o | f o ≠ 0}.ncard := ⟨hfin, rfl⟩
  have hone : ∀ r, Numbers {o | o ≠ r ∧ f o ≠ 0}
      (if f r = 0 then {o | f o ≠ 0}.ncard else {o | f o ≠ 0}.ncard - 1) := by
    intro r
    split
    · rename_i hr
      refine hall.congr fun o => ⟨fun ho => ho.2, fun ho => ⟨?_, ho⟩⟩
      rintro rfl
      exact ho hr
    · rename_i hr
      exact hall.remove (a := r) (fun o ho => ⟨fun h => h.2, fun h => ⟨ho, h⟩⟩) hr fun h => h.1 rfl
  have hn := h.unique (hone p)
  constructor
  · intro h'
    have hm := h'.unique (hone q)
    have hpos : ∀ r, f r ≠ 0 → 0 < {o | f o ≠ 0}.ncard := fun r hr => hall.pos hr
    by_cases hp : f p = 0 <;> by_cases hq : f q = 0 <;> simp only [hp, hq, if_true, if_false] at hn hm ⊢
    · have := hpos q hq
      omega
    · have := hpos p hp
      omega
  · intro hiff
    have hsame : n = if f q = 0 then {o | f o ≠ 0}.ncard else {o | f o ≠ 0}.ncard - 1 := by
      rw [hn]
      exact if_congr hiff rfl rfl
    exact hsame ▸ hone q

end Handover

section Change

variable {action : ChainAction} {asset : AssetRef} {s s' : Rows}

/-- The addresses that hold an asset before a change or after it. -/
def everHeld (s s' : Rows) (asset : AssetRef) : Set Address :=
  {o | s.balance asset o ≠ 0 ∨ s'.balance asset o ≠ 0}

theorem Rows.Supplied.finite (h : s.Supplied asset) :
    (Function.support (s.balance asset)).Finite := by
  cases ha : s.asset asset with
  | none =>
    rw [funext (h.absent ha)]
    simp
  | some a => exact (h.backed a ha).totals.finite

theorem everHeld_finite (hs : s.Supplied asset) (hs' : s'.Supplied asset) :
    (everHeld s s' asset).Finite := hs.finite.union hs'.finite

/-- A change keeps the count exact, unless it is a handover and an uneven one. -/
theorem AssetChange.holdersExact (h : AssetChange action asset s s') (hs : s.Supplied asset)
    (hs' : s'.Supplied asset) (hroom : (everHeld s s' asset).ncard ≤ u32Max)
    (heven : ∀ newIssuer a, action.payload = .transferIssuer asset newIssuer →
      s.asset asset = some a → (s.balance asset a.issuer = 0 ↔ s.balance asset newIssuer = 0))
    (hexact : s.HoldersExact asset) : s'.HoldersExact asset := by
  intro a' ha'
  have hempty : s.asset asset = none → ∀ a : Asset, a.holderCount = 0 →
      Book.Counted ⟨a, s.balance asset⟩ := by
    intro hnone a hholders
    unfold Book.Counted
    rw [show (Book.mk a (s.balance asset)).asset.holderCount = 0 from hholders]
    exact numbers_empty fun o ho => ho.2 (hs.absent hnone o)
  have hfin := everHeld_finite hs hs'
  cases h with
  | same record balances =>
    rw [balances]
    exact hexact a' (record ▸ ha')
  | registered a named fresh record supply holders balances =>
    obtain rfl := Option.some.inj (record.symm.trans ha')
    rw [balances]
    exact hempty fresh a holders
  | launched a b named fresh record supply holders who amount minted =>
    obtain rfl := Option.some.inj (record.symm.trans ha')
    exact minted.counted (hempty fresh a holders) hfin hroom fun o ho => .inr ho
  | posted a b D stored record entries =>
    obtain rfl := Option.some.inj (record.symm.trans ha')
    exact entries.counted (hexact a stored) hfin hroom (fun o _ ho => .inl ho) fun o _ ho => .inr ho
  | handedOver a newIssuer payload stored regulated record balances =>
    obtain rfl := Option.some.inj (record.symm.trans ha')
    have hbefore := hexact a stored
    simp only [Asset.Counts, regulated, false_or] at hbefore ⊢
    rw [balances]
    exact (numbers_except_iff _ _ ((hs.backed a stored).totals).finite hbefore).mpr
      (heven newIssuer a payload stored)

/-- …and an uneven one does not. -/
theorem even_of_holdersExact (hs : s.Supplied asset) (hexact : s.HoldersExact asset)
    (hexact' : s'.HoldersExact asset) {newIssuer : Address} {a : Asset} (ha : s.asset asset = some a)
    (hregulated : a.assetClass ≠ .token) (hnew : s'.asset asset = some { a with issuer := newIssuer })
    (hsame : s'.balance asset = s.balance asset) :
    s.balance asset a.issuer = 0 ↔ s.balance asset newIssuer = 0 := by
  have hbefore := hexact a ha
  have hafter := hexact' _ hnew
  simp only [Asset.Counts, hregulated, false_or] at hbefore hafter
  rw [hsame] at hafter
  exact (numbers_except_iff _ _ hs.finite hbefore).mp hafter

end Change

/-- What holds of every asset: its supply is backed and its holders are counted. -/
def Rows.Kept (rows : Rows) : Prop :=
  (∀ asset, rows.Supplied asset) ∧ ∀ asset, rows.HoldersExact asset

theorem Rows.NoAssets.kept {s : Rows} (h : s.NoAssets) : s.Kept := by
  refine ⟨h.supplied, fun asset a ha => ?_⟩
  rw [(h asset).1] at ha
  cases ha

theorem Rows.Kept.congr {s s' : Rows} (h : s.Kept) (hsame : SameAssets s s') : s'.Kept := by
  refine ⟨fun asset => (h.1 asset).congr hsame, fun asset => ?_⟩
  unfold Rows.HoldersExact
  rw [hsame.asset_eq, hsame.balance_eq]
  exact h.2 asset

section Runs

variable [Crypto] [Wire ActionPayload] [Zk] [StateTrie] [Decode] {s₀ s : Rows} {hist : List Applied}
  {e : Applied} {u : BlockUpdates}

/-- A handover changes the issuer and nothing else of the asset. -/
theorem Applied.Valid.handedOver (h : e.Valid u) (hnamed : e.before.AssetsNamed) {asset : AssetRef}
    {newIssuer : Address} (hp : e.action.payload = .transferIssuer asset newIssuer) :
    ∃ a, e.before.asset asset = some a ∧ a.assetClass ≠ .token ∧
      e.after.asset asset = some { a with issuer := newIssuer } ∧
      e.after.balance asset = e.before.balance asset := by
  obtain ⟨inner, hinner, accounts, rfl⟩ := Runtime.run_dispatchWith h.ran
  rw [Runtime.dispatchInner, hp] at hinner
  obtain ⟨a, hstored, hclass, rfl⟩ := Runtime.run_transferIssuer hinner
  refine ⟨a, hstored, hclass, ?_, ?_⟩
  · rw [h.written, asset_apply governanceRows_nil]
    exact if_pos (hnamed _ _ hstored)
  · rw [h.written, balance_apply governanceRows_nil]
    rfl

/-- Fewer addresses hold an asset before or after the action than the count can tell. -/
def Applied.FewHolders (e : Applied) : Prop :=
  ∀ asset, (everHeld e.before e.after asset).ncard ≤ u32Max

theorem Applied.Valid.kept (h : e.Valid u) (hfew : e.FewHolders) (heven : e.HandoverEven)
    (hs : e.before.Kept) : e.after.Kept := by
  have hchange := h.change (Rows.assetsNamed_of_supplied hs.1)
  have hs' := fun asset => (hchange asset).supplied (hs.1 asset)
  exact ⟨hs', fun asset => (hchange asset).holdersExact (hs.1 asset) (hs' asset) (hfew asset)
    (heven asset) (hs.2 asset)⟩

end Runs

/-! ## A small ledger

One account registers a bond, issues ten units to itself and hands the bond over. -/

namespace SmallLedger

open PlainChain

attribute [local instance] crypto wire Plain.zk Plain.trie Plain.decoders

set_option maxRecDepth 20000

def start : Rows := Writes.apply
  [put .chainParams params, put (.account (address 1)) { balance := 10, nonce := 0 }] fun _ => none

def ctx (height : Nat) : DispatchCtx := ⟨[], height, height, []⟩

def bond : AssetRef :=
  .fromBytes (strBytes "arxium/asset/v1" ++ List.replicate 32 1 ++ [0] ++ strBytes "bond")

def register : ChainAction :=
  action 1 0 (.registerAsset "bond" false { assetClass := .bond, symbol := "BND", name := "Bond" })

def issue : ChainAction := action 1 1 (.issueAsset bond 10)

def lock : ChainAction := action 1 2 (.lockIssuance bond)

def burn : ChainAction := action 1 3 (.burnAsset bond 4)

/-- The bond goes to the second account. -/
def handOver (nonce : Nat) : ChainAction := action 1 nonce (.transferIssuer bond (address 2))

def registered : Rows := start.after (ctx 1) register

def issued : Rows := registered.after (ctx 2) issue

def locked : Rows := issued.after (ctx 3) lock

def burned : Rows := locked.after (ctx 4) burn

/-- The bond is handed over before anything is issued. -/
def handedEarly : Rows := registered.after (ctx 2) (handOver 1)

/-- …or after. -/
def handedLate : Rows := issued.after (ctx 3) (handOver 2)

theorem start_noAssets : start.NoAssets := fun _ => ⟨rfl, fun _ => rfl⟩

theorem all_ok : ((Runtime.dispatch (ctx 1) register).run start.view).isOk = true ∧
    ((Runtime.dispatch (ctx 2) issue).run registered.view).isOk = true ∧
    ((Runtime.dispatch (ctx 3) lock).run issued.view).isOk = true ∧
    ((Runtime.dispatch (ctx 4) burn).run locked.view).isOk = true ∧
    ((Runtime.dispatch (ctx 2) (handOver 1)).run registered.view).isOk = true ∧
    ((Runtime.dispatch (ctx 3) (handOver 2)).run issued.view).isOk = true := by
  decide +kernel

theorem run_issued : AppliedRun SameAssets start
    [⟨ctx 1, register, start, registered⟩, ⟨ctx 2, issue, registered, issued⟩] issued :=
  AppliedRun.after (AppliedRun.after .nil all_ok.1) all_ok.2.1

/-- Ten locked units, and no more after some are burned. -/
theorem supply_conserved_locked : ∃ a a', locked.asset bond = some a ∧ burned.asset bond = some a' ∧
    Totals (locked.balance bond) 10 ∧ a.issuanceLocked = true ∧ a'.issuanceLocked = true ∧
    a'.totalSupply ≤ 10 := by
  obtain ⟨a, ha⟩ := Option.isSome_iff_exists.mp
    (by decide +kernel : (locked.asset bond).isSome = true)
  have hfields : (locked.asset bond).map (fun a => (a.totalSupply, a.issuanceLocked)) =
      some (10, true) := by decide +kernel
  rw [ha, Option.map_some, Option.some.injEq, Prod.mk.injEq] at hfields
  obtain ⟨hsupply, hlocked⟩ := hfields
  have hrun := AppliedRun.after run_issued all_ok.2.2.1
  obtain ⟨htotals, -, hstays⟩ := supply_conserved start_noAssets hrun
    (AppliedRun.after .nil all_ok.2.2.2.1) bond a ha
  obtain ⟨a', ha', hlocked', hle⟩ := hstays hlocked
  exact ⟨a, a', ha, ha', hsupply ▸ htotals, hlocked, hlocked', hsupply ▸ hle⟩

end SmallLedger

end Arxium
