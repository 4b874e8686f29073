import Arxium.Runtime.Books

/-!
# Runtime/AssetEffect — what an action does to the assets

An action changes at most one asset.  It registers a new one, posts entries to the book of one that is
there, or hands the record to another issuer (`AssetEffect`); every other action leaves the assets
alone.  The record is looked up by the reference in the payload and written back under its own, so all
of this is about rows in which each record stands under its own reference (`Rows.AssetsNamed`).
-/

namespace Arxium

open ReadProg Writes

/-- The record of an asset, if there is one. -/
def Rows.asset (rows : Rows) (asset : AssetRef) : Option Asset := rows (.asset asset)

/-- Every record stands under its own reference. -/
def Rows.AssetsNamed (rows : Rows) : Prop :=
  ∀ (asset : AssetRef) (a : Asset), rows.asset asset = some a → a.assetRef = asset

theorem Rows.AssetsNamed.stored {rows : Rows} (h : rows.AssetsNamed) {asset : AssetRef} {a : Asset}
    (ha : rows.asset asset = some a) : rows.asset a.assetRef = some a := by
  rw [h asset a ha]
  exact ha

/-- **What an action does to the assets.** -/
inductive AssetEffect (rows : Rows) (action : ChainAction) (u : BlockUpdates) : Prop
  | untouched (assets : u.assets = []) (record : u.assetRegistration = none)
  | registered (a : Asset) (assets : u.assets = []) (record : u.assetRegistration = some a)
      (fresh : rows.asset a.assetRef = none) (supply : a.totalSupply = 0) (holders : a.holderCount = 0)
  | launched (a a' : Asset) (record : u.assetRegistration = some a')
      (fresh : rows.asset a.assetRef = none) (supply : a.totalSupply = 0) (holders : a.holderCount = 0)
      (minted : ∃ who amount, (rows.book a).Mints who amount ((rows.post u.assets).book a'))
      (named : a'.assetRef = a.assetRef) (own : ∀ p ∈ u.assets, p.1.1 = a.assetRef)
  | posted (a a' : Asset) (D : Set Address) (stored : rows.asset a.assetRef = some a)
      (posts : rows.Posts D a u.assets a') (record : u.assetRegistration = some a')
  | handedOver (a : Asset) (newIssuer : Address)
      (payload : action.payload = .transferIssuer a.assetRef newIssuer)
      (stored : rows.asset a.assetRef = some a) (regulated : a.assetClass ≠ .token)
      (assets : u.assets = []) (record : u.assetRegistration = some { a with issuer := newIssuer })

/-- The actions that name an asset and may change its record or a balance. -/
def ActionPayload.touchesAssets : ActionPayload → Bool
  | .registerAsset .. | .issueAsset .. | .transferAsset .. | .freezeAsset .. | .unfreezeAsset ..
  | .burnAsset .. | .issuerForcedTransfer .. | .recoverHolder .. | .issueAssetTo ..
  | .lockIssuance .. | .transferIssuer .. | .setAssetMetadataUri .. | .setAssetLimits ..
  | .snapshotHolders .. | .distributeToHolders .. | .redeemHolders .. | .splitAsset ..
  | .setPrivateClaims .. | .token .. => true
  | _ => false

/-- The actions that may set a balance. -/
def ActionPayload.movesUnits : ActionPayload → Bool
  | .issueAsset .. | .transferAsset .. | .burnAsset .. | .issuerForcedTransfer .. | .recoverHolder ..
  | .issueAssetTo .. | .distributeToHolders .. | .redeemHolders .. | .splitAsset .. | .token .. => true
  | _ => false

namespace Runtime

section Resolving

variable {rows : Rows} {asset : AssetRef} {a : Asset} {action : ChainAction}

theorem run_resolveAsset : (resolveAsset asset).run rows.view = .ok a ↔
    rows.asset asset = some a ∧ a.assetClass ≠ .token := by
  unfold resolveAsset
  simp only [bind_ok, Rows.run_getRow, Except.ok.injEq, exists_eq_left', require,
    ensure_ok, exists_const, pure_eq, run_ret]
  constructor
  · rintro ⟨found, hfound, hclass, rfl⟩
    exact ⟨orFail_ok.mp hfound, of_decide_eq_true hclass⟩
  · rintro ⟨hfound, hclass⟩
    exact ⟨a, orFail_ok.mpr hfound, decide_eq_true hclass, rfl⟩

theorem run_requireIssuer (h : (requireIssuer action asset).run rows.view = .ok a) :
    rows.asset asset = some a ∧ a.assetClass ≠ .token ∧ action.sender = a.issuer := by
  obtain ⟨found, hfound, h⟩ := bind_ok.mp h
  obtain ⟨_, hsender, h⟩ := bind_ok.mp h
  obtain rfl := Except.ok.inj h
  obtain ⟨hstored, hclass⟩ := run_resolveAsset.mp hfound
  exact ⟨hstored, hclass, of_decide_eq_true (ensure_ok.mp hsender)⟩

theorem run_resolveToken : (resolveToken asset).run rows.view = .ok a ↔
    rows.asset asset = some a := by
  unfold resolveToken
  simp only [bind_ok, Rows.run_getRow, Except.ok.injEq, exists_eq_left']
  exact orFail_ok

end Resolving

variable {rows : Rows} {action : ChainAction} {u : BlockUpdates} {asset : AssetRef}
  {recipient : Address} {amount height : Nat}

/-! ## The record -/

theorem effect_amendAsset (hnamed : rows.AssetsNamed) {amend : Asset → Asset}
    (h : (amendAsset action asset amend).run rows.view = .ok u)
    (hamend : ∀ a : Asset, a.Amends (amend a)) : AssetEffect rows action u := by
  obtain ⟨a, ha, h⟩ := bind_ok.mp h
  obtain ⟨hstored, -, -⟩ := run_requireIssuer ha
  have hstored := hnamed.stored hstored
  obtain rfl := Except.ok.inj h
  exact .posted a (amend a) ∅ hstored (.amend (hamend a)) rfl

theorem effect_snapshotHolders (hnamed : rows.AssetsNamed)
    (h : (snapshotHolders action asset height).run rows.view = .ok u) :
    AssetEffect rows action u := by
  obtain ⟨a, ha, h⟩ := bind_ok.mp h
  obtain ⟨hstored, -, -⟩ := run_requireIssuer ha
  have hstored := hnamed.stored hstored
  obtain ⟨a', ha', h⟩ := bind_ok.mp h
  obtain rfl := Except.ok.inj h
  exact .posted a a' ∅ hstored (Rwa.posts_applySnapshot (circuit_ok.mp ha')) rfl

/-! ## Balances

Each of these handlers looks up one record of a regulated asset, has the circuit move its balances and
writes the record that comes back. -/

/-- What a handler did by way of one call of the circuit on a record. -/
structure Rebooks (rows : Rows) (u : BlockUpdates) (a a' : Asset) : Prop where
  stored : rows.asset a.assetRef = some a
  regulated : a.assetClass ≠ .token
  record : u.assetRegistration = some a'

theorem Rebooks.effect {a a' : Asset} {D : Set Address} (h : Rebooks rows u a a')
    (hposts : rows.Posts D a u.assets a') : AssetEffect rows action u :=
  .posted a a' D h.stored hposts h.record

theorem run_issueAsset (hnamed : rows.AssetsNamed)
    (h : (issueAsset action asset amount).run rows.view = .ok u) :
    ∃ a a' accounts, Rebooks rows u a a' ∧
      (Rwa.applyIssue a action.sender action.nonce amount).run rows.view =
        .ok (a', accounts, u.assets) := by
  obtain ⟨a, ha, h⟩ := bind_ok.mp h
  obtain ⟨hstored, hclass⟩ := run_resolveAsset.mp ha
  obtain ⟨⟨a', accounts, assets⟩, hissue, h⟩ := bind_ok.mp h
  obtain rfl := Except.ok.inj h
  exact ⟨a, a', accounts, ⟨hnamed.stored hstored, hclass, rfl⟩, circuit_ok.mp hissue⟩

theorem run_transferAsset (hnamed : rows.AssetsNamed)
    (h : (transferAsset action asset recipient amount height).run rows.view = .ok u) :
    ∃ a a', Rebooks rows u a a' ∧
      (Rwa.applyCompliantMove a action.sender recipient amount height).run rows.view =
        .ok (a', u.assets) := by
  obtain ⟨a, ha, h⟩ := bind_ok.mp h
  obtain ⟨hstored, hclass⟩ := run_resolveAsset.mp ha
  obtain ⟨⟨a', accounts, assets⟩, hmove, h⟩ := bind_ok.mp h
  obtain rfl := Except.ok.inj h
  exact ⟨a, a', ⟨hnamed.stored hstored, hclass, rfl⟩,
    Rwa.run_applyCompliantTransfer (circuit_ok.mp hmove)⟩

theorem run_burnAsset (hnamed : rows.AssetsNamed)
    (h : (burnAsset action asset amount).run rows.view = .ok u) :
    ∃ a a', Rebooks rows u a a' ∧ a.assetRef = asset ∧ action.sender = a.issuer ∧
      (Rwa.applyBurn a a.issuer amount).run rows.view = .ok (a', u.assets) := by
  obtain ⟨a, ha, h⟩ := bind_ok.mp h
  obtain ⟨hstored, hclass, hissuer⟩ := run_requireIssuer ha
  obtain ⟨_, h⟩ := run_rest h
  obtain ⟨⟨a', assets⟩, hburn, h⟩ := bind_ok.mp h
  obtain rfl := Except.ok.inj h
  rw [hissuer] at hburn
  exact ⟨a, a', ⟨hnamed.stored hstored, hclass, rfl⟩, hnamed _ _ hstored, hissuer, circuit_ok.mp hburn⟩

theorem run_issuerForcedTransfer (hnamed : rows.AssetsNamed) {sender : Address} {reason : String}
    (h : (issuerForcedTransfer action asset sender recipient amount reason height).run rows.view =
      .ok u) :
    ∃ a a', Rebooks rows u a a' ∧ a.assetRef = asset ∧
      (Rwa.applyForcedTransferWithLock a sender recipient amount height).run rows.view =
        .ok (a', u.assets, u.holderStates) := by
  obtain ⟨_, h⟩ := run_rest h
  obtain ⟨a, ha, h⟩ := bind_ok.mp h
  obtain ⟨hstored, hclass, -⟩ := run_requireIssuer ha
  obtain ⟨⟨a', assets, states⟩, hmove, h⟩ := bind_ok.mp h
  obtain rfl := Except.ok.inj h
  exact ⟨a, a', ⟨hnamed.stored hstored, hclass, rfl⟩, hnamed _ _ hstored, circuit_ok.mp hmove⟩

theorem run_issueAssetTo (hnamed : rows.AssetsNamed)
    (h : (issueAssetTo action asset recipient amount height).run rows.view = .ok u) :
    ∃ a a', Rebooks rows u a a' ∧
      (Rwa.applyIssueTo a recipient amount height).run rows.view = .ok (a', u.assets) := by
  obtain ⟨a, ha, h⟩ := bind_ok.mp h
  obtain ⟨hstored, hclass, -⟩ := run_requireIssuer ha
  obtain ⟨_, h⟩ := run_rest h
  obtain ⟨⟨a', assets⟩, hissue, h⟩ := bind_ok.mp h
  obtain rfl := Except.ok.inj h
  exact ⟨a, a', ⟨hnamed.stored hstored, hclass, rfl⟩, circuit_ok.mp hissue⟩

theorem run_recoverHolder (hnamed : rows.AssetsNamed) {lost replacement : Address}
    (h : (recoverHolder action asset lost replacement height).run rows.view = .ok u) :
    ∃ a a', Rebooks rows u a a' ∧ lost ≠ replacement ∧
      (Rwa.applyRecover a lost replacement height).run rows.view =
        .ok (a', u.assets, u.holderStates) := by
  obtain ⟨_, hne, h⟩ := bind_ok.mp h
  have hne := of_decide_eq_true (ensure_ok.mp hne)
  obtain ⟨a, ha, h⟩ := bind_ok.mp h
  obtain ⟨hstored, hclass, -⟩ := run_requireIssuer ha
  obtain ⟨⟨a', assets, states⟩, hmove, h⟩ := bind_ok.mp h
  obtain rfl := Except.ok.inj h
  exact ⟨a, a', ⟨hnamed.stored hstored, hclass, rfl⟩, hne, circuit_ok.mp hmove⟩

/-! ## Corporate actions -/

theorem run_payoutRecord (hnamed : rows.AssetsNamed) {a payout : Asset} {payoutAsset : AssetRef}
    (hstored : rows.asset a.assetRef = some a) (hclass : a.assetClass ≠ .token)
    (h : (payoutRecord a payoutAsset).run rows.view = .ok payout) :
    payout.assetRef = payoutAsset ∧ rows.asset payout.assetRef = some payout ∧
      payout.assetClass ≠ .token := by
  unfold payoutRecord at h
  split at h
  · rename_i hsame
    obtain rfl := Except.ok.inj h
    exact ⟨hsame.symm, hstored, hclass⟩
  · obtain ⟨hfound, hclass⟩ := run_resolveAsset.mp h
    exact ⟨hnamed _ _ hfound, hnamed.stored hfound, hclass⟩

variable [Crypto]

theorem run_distribute (hnamed : rows.AssetsNamed) {snapshotHeight total : Nat}
    {payoutAsset : AssetRef}
    (h : (distribute action asset snapshotHeight payoutAsset total height).run rows.view = .ok u) :
    ∃ payout a' table, Rebooks rows u payout a' ∧
      (Rwa.applyDistribution payout action.sender table total height).run rows.view =
        .ok (a', u.assets) := by
  obtain ⟨a, ha, h⟩ := bind_ok.mp h
  obtain ⟨hstored, hclass, -⟩ := run_requireIssuer ha
  obtain ⟨table, h⟩ := run_rest h
  obtain ⟨_, h⟩ := run_rest h
  obtain ⟨payout, hpayout, h⟩ := bind_ok.mp h
  obtain ⟨-, hstored, hclass⟩ := run_payoutRecord hnamed (hnamed.stored hstored) hclass hpayout
  obtain ⟨⟨a', assets⟩, hpaid, h⟩ := bind_ok.mp h
  obtain rfl := Except.ok.inj h
  exact ⟨payout, a', table, ⟨hstored, hclass, rfl⟩, circuit_ok.mp hpaid⟩

theorem run_redeem (hnamed : rows.AssetsNamed) {snapshotHeight : Nat}
    (h : (redeem action asset snapshotHeight height).run rows.view = .ok u) :
    ∃ a a' table, Rebooks rows u a a' ∧
      (Rwa.applyRedemption a table height).run rows.view = .ok (a', u.assets, u.holderStates) := by
  obtain ⟨a, ha, h⟩ := bind_ok.mp h
  obtain ⟨hstored, hclass, -⟩ := run_requireIssuer ha
  obtain ⟨table, h⟩ := run_rest h
  obtain ⟨_, h⟩ := run_rest h
  obtain ⟨⟨a', assets, states⟩, hmoved, h⟩ := bind_ok.mp h
  obtain rfl := Except.ok.inj h
  exact ⟨a, a', table, ⟨hnamed.stored hstored, hclass, rfl⟩, circuit_ok.mp hmoved⟩

theorem run_split (hnamed : rows.AssetsNamed) {snapshotHeight numerator denominator : Nat}
    (h : (split action asset snapshotHeight numerator denominator height).run rows.view = .ok u) :
    0 < denominator ∧ ∃ a a' table, Rebooks rows u a a' ∧
      (Rwa.applySplit a table numerator denominator height).run rows.view =
        .ok (a', u.assets, u.holderStates) := by
  obtain ⟨a, ha, h⟩ := bind_ok.mp h
  obtain ⟨hstored, hclass, -⟩ := run_requireIssuer ha
  obtain ⟨_, hratio, h⟩ := bind_ok.mp h
  have hratio := ensure_ok.mp hratio
  obtain ⟨table, h⟩ := run_rest h
  obtain ⟨⟨a', assets, states⟩, hmoved, h⟩ := bind_ok.mp h
  obtain rfl := Except.ok.inj h
  have hpos : 0 < denominator := by
    simp only [Bool.and_eq_true, decide_eq_true_eq, ne_eq] at hratio
    omega
  exact ⟨hpos, a, a', table, ⟨hnamed.stored hstored, hclass, rfl⟩, circuit_ok.mp hmoved⟩

/-! ## New assets, new issuers -/

theorem effect_registerAsset {assetId : String} {complianceRequired : Bool} {metadata : AssetMetadata}
    (h : (registerAsset action assetId complianceRequired metadata height).run rows.view = .ok u) :
    AssetEffect rows action u := by
  obtain ⟨_, _, _, h⟩ := run_rest₃ h
  obtain ⟨ref, h⟩ := run_rest h
  obtain ⟨row, hrow, h⟩ := bind_ok.mp h
  obtain ⟨_, hfresh, h⟩ := bind_ok.mp h
  have hfresh := Option.isNone_iff_eq_none.mp (ensure_ok.mp hfresh)
  obtain rfl := Except.ok.inj h
  refine .registered _ rfl rfl ?_ rfl rfl
  exact (Except.ok.inj hrow).trans hfresh

theorem run_transferIssuer {newIssuer : Address}
    (h : (transferIssuer action asset newIssuer).run rows.view = .ok u) :
    ∃ a, rows.asset asset = some a ∧ a.assetClass ≠ .token ∧
      u = { assetRegistration := some { a with issuer := newIssuer } } := by
  obtain ⟨a, ha, h⟩ := bind_ok.mp h
  obtain ⟨_, h⟩ := run_rest h
  obtain ⟨hstored, hclass, -⟩ := run_requireIssuer ha
  exact ⟨a, hstored, hclass, (Except.ok.inj h).symm⟩

theorem run_newToken {sender : Address} {symbol name : String} {decimals : Nat}
    {maxSupply : Option Nat} {mintable : Bool} {token : Asset}
    (h : (newToken sender symbol name decimals maxSupply mintable height).run rows.view = .ok token) :
    rows.asset token.assetRef = none ∧ token.totalSupply = 0 ∧ token.holderCount = 0 := by
  obtain ⟨_, h⟩ := run_rest h
  obtain ⟨ref, h⟩ := run_rest h
  obtain ⟨row, hrow, h⟩ := bind_ok.mp h
  obtain ⟨_, hfresh, h⟩ := bind_ok.mp h
  have hfresh := Option.isNone_iff_eq_none.mp (ensure_ok.mp hfresh)
  obtain rfl := Except.ok.inj h
  exact ⟨(Except.ok.inj hrow).trans hfresh, rfl, rfl⟩

theorem effect_dispatchToken (hnamed : rows.AssetsNamed) {tokenAction : TokenAction}
    (h : (dispatchToken action tokenAction height).run rows.view = .ok u) :
    AssetEffect rows action u := by
  cases tokenAction with
  | create symbol name decimals initialSupply maxSupply mintable =>
    obtain ⟨token, htoken, h⟩ := bind_ok.mp h
    obtain ⟨hfresh, hsupply, hholders⟩ := run_newToken htoken
    obtain ⟨_, h⟩ := run_rest h
    obtain ⟨⟨a', accounts, assets⟩, hcreate, h⟩ := bind_ok.mp h
    obtain rfl := Except.ok.inj h
    obtain ⟨-, ⟨rfl, rfl⟩ | ⟨hminted, hname, hown⟩⟩ :=
      Token.mints_applyCreate (circuit_ok.mp hcreate)
    · exact .registered _ rfl rfl hfresh hsupply hholders
    · exact .launched token a' rfl hfresh hsupply hholders hminted hname hown
  | mint token recipient amount =>
    obtain ⟨a, ha, h⟩ := bind_ok.mp h
    obtain ⟨⟨a', assets⟩, hmint, h⟩ := bind_ok.mp h
    obtain rfl := Except.ok.inj h
    exact .posted a a' _ (hnamed.stored (run_resolveToken.mp ha))
      (Token.posts_applyMint (circuit_ok.mp hmint)).2 rfl
  | transfer token recipient amount =>
    obtain ⟨a, ha, h⟩ := bind_ok.mp h
    obtain ⟨⟨a', assets⟩, hmove, h⟩ := bind_ok.mp h
    obtain rfl := Except.ok.inj h
    exact .posted a a' _ (hnamed.stored (run_resolveToken.mp ha))
      (Token.posts_applyTransfer (circuit_ok.mp hmove)).2 rfl
  | burn token amount =>
    obtain ⟨a, ha, h⟩ := bind_ok.mp h
    obtain ⟨⟨a', assets⟩, hburn, h⟩ := bind_ok.mp h
    obtain rfl := Except.ok.inj h
    exact .posted a a' _ (hnamed.stored (run_resolveToken.mp ha))
      (Token.posts_applyBurn (circuit_ok.mp hburn)).2 rfl
  | renounceMint token =>
    obtain ⟨a, ha, h⟩ := bind_ok.mp h
    obtain ⟨a', hrenounce, h⟩ := bind_ok.mp h
    obtain rfl := Except.ok.inj h
    exact .posted a a' ∅ (hnamed.stored (run_resolveToken.mp ha))
      (Token.posts_applyRenounceMint (circuit_ok.mp hrenounce)) rfl

/-! ## Any action -/

section Dispatch

variable [Wire ActionPayload] [Zk] [StateTrie] [Decode] {adjudicator : Adjudicator} {ctx : DispatchCtx}

/-- Every other action leaves the assets alone. -/
theorem yields_untouched (h : action.payload.touchesAssets = false) :
    (dispatchInner adjudicator ctx action).Yields fun u =>
      u.assets = [] ∧ u.assetRegistration = none := by
  refine yields_fills.mono fun u hu => ⟨hu.assets ?_, hu.assetRegistration ?_⟩
  all_goals cases hp : action.payload <;> rw [hp] at h <;> first | rfl | cases h

/-- Every other action sets no balance. -/
theorem yields_unmoved (h : action.payload.movesUnits = false) :
    (dispatchInner adjudicator ctx action).Yields fun u => u.assets = [] := by
  refine yields_fills.mono fun u hu => hu.assets ?_
  cases hp : action.payload <;> rw [hp] at h <;> first | rfl | cases h

/-- **What one action does to the assets**, read off its handler. -/
theorem effect_dispatchInner (hnamed : rows.AssetsNamed)
    (h : (dispatchInner adjudicator ctx action).run rows.view = .ok u) :
    AssetEffect rows action u := by
  by_cases ht : action.payload.touchesAssets = true
  swap
  · obtain ⟨hassets, hrecord⟩ := (yields_untouched (Bool.eq_false_of_not_eq_true ht)).ensures _ u h
    exact .untouched hassets hrecord
  unfold dispatchInner at h
  cases hp : action.payload with
  | registerAsset => rw [hp] at h; exact effect_registerAsset h
  | issueAsset =>
    rw [hp] at h
    obtain ⟨a, a', _, hrebooks, hissue⟩ := run_issueAsset hnamed h
    exact hrebooks.effect (Rwa.posts_applyIssue hrebooks.regulated hissue)
  | transferAsset =>
    rw [hp] at h
    obtain ⟨a, a', hrebooks, hmove⟩ := run_transferAsset hnamed h
    exact hrebooks.effect (Rwa.posts_applyCompliantMove hrebooks.regulated hmove)
  | freezeAsset | unfreezeAsset =>
    rw [hp] at h
    obtain ⟨_, h⟩ := run_rest h
    exact effect_amendAsset hnamed h fun a => ⟨rfl, rfl, rfl, rfl, rfl, id, .inl rfl⟩
  | burnAsset =>
    rw [hp] at h
    obtain ⟨a, a', hrebooks, -, -, hburn⟩ := run_burnAsset hnamed h
    exact hrebooks.effect (Rwa.posts_applyBurn hrebooks.regulated hburn)
  | issuerForcedTransfer =>
    rw [hp] at h
    obtain ⟨a, a', hrebooks, -, hmove⟩ := run_issuerForcedTransfer hnamed h
    exact hrebooks.effect (Rwa.posts_applyForcedTransferWithLock hrebooks.regulated hmove)
  | recoverHolder =>
    rw [hp] at h
    obtain ⟨a, a', hrebooks, hne, hmove⟩ := run_recoverHolder hnamed h
    exact hrebooks.effect (Rwa.posts_applyRecover hrebooks.regulated hne hmove)
  | issueAssetTo =>
    rw [hp] at h
    obtain ⟨a, a', hrebooks, hissue⟩ := run_issueAssetTo hnamed h
    exact hrebooks.effect (Rwa.posts_applyIssueTo hrebooks.regulated hissue)
  | lockIssuance =>
    rw [hp] at h
    exact effect_amendAsset hnamed h fun a => ⟨rfl, rfl, rfl, rfl, rfl, fun _ => rfl, .inr rfl⟩
  | transferIssuer asset newIssuer =>
    rw [hp] at h
    obtain ⟨a, hstored, hclass, rfl⟩ := run_transferIssuer h
    exact .handedOver a newIssuer (hnamed _ _ hstored ▸ hp) (hnamed.stored hstored) hclass rfl rfl
  | setAssetMetadataUri =>
    rw [hp] at h
    obtain ⟨_, h⟩ := run_rest h
    exact effect_amendAsset hnamed h fun a => ⟨rfl, rfl, rfl, rfl, rfl, id, .inl rfl⟩
  | setAssetLimits asset maxHolders maxBalance maxAge =>
    rw [hp] at h
    obtain ⟨a, ha, h⟩ := bind_ok.mp h
    obtain ⟨_, h⟩ := run_rest h
    obtain rfl := Except.ok.inj h
    refine .posted a _ ∅ (hnamed.stored (run_requireIssuer ha).1) (.amend ?_) rfl
    exact ⟨rfl, rfl, rfl, rfl, rfl, id, .inl rfl⟩
  | setPrivateClaims =>
    rw [hp] at h
    exact effect_amendAsset hnamed h fun a => ⟨rfl, rfl, rfl, rfl, rfl, id, .inl rfl⟩
  | snapshotHolders => rw [hp] at h; exact effect_snapshotHolders hnamed h
  | distributeToHolders =>
    rw [hp] at h
    obtain ⟨payout, a', _, hrebooks, hpaid⟩ := run_distribute hnamed h
    exact hrebooks.effect (Rwa.posts_applyDistribution hrebooks.regulated hpaid)
  | redeemHolders =>
    rw [hp] at h
    obtain ⟨a, a', _, hrebooks, hmoved⟩ := run_redeem hnamed h
    exact hrebooks.effect (Rwa.posts_applyRedemption hrebooks.regulated hmoved)
  | splitAsset =>
    rw [hp] at h
    obtain ⟨hpos, a, a', _, hrebooks, hmoved⟩ := run_split hnamed h
    exact hrebooks.effect (Rwa.posts_applySplit hrebooks.regulated hpos hmoved)
  | token => rw [hp] at h; exact effect_dispatchToken hnamed h
  | _ =>
    rw [hp] at ht
    cases ht

end Dispatch

end Runtime

end Arxium
