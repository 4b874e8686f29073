import Arxium.Node.Committed
import Arxium.Runtime.AssetEffect

/-!
# Node/Applied — sequences of applied actions

An invariant of what actions do is stated over any sequence of applied actions (`AppliedRun`): each ran
on the rows the one before it left, in whatever context.  Between two of them other parts of the chain
write too — the seal pays rewards, matured unbondings are released — and all an invariant has to know is
what they keep.

For one asset an applied action does one of five things (`AssetChange`).
-/

namespace Arxium

open ReadProg Writes

/-! ## Runs -/

/-- An action that was applied: where it ran, and the rows before and after. -/
structure Applied where
  ctx : DispatchCtx
  action : ChainAction
  before : Rows
  after : Rows

section Run

variable [Crypto] [Wire ActionPayload] [Zk] [StateTrie] [Decode]

/-- The action ran on the rows before it, and what it returned was written. -/
structure Applied.Valid (e : Applied) (u : BlockUpdates) : Prop where
  ran : (Runtime.dispatch e.ctx e.action).run e.before.view = .ok u
  written : e.after = Writes.apply u.viewWrites e.before

/-- **A sequence of applied actions**, with changes in between that keep what `Keeps` says. -/
inductive AppliedRun (Keeps : Rows → Rows → Prop) (s₀ : Rows) : List Applied → Rows → Prop
  | nil : AppliedRun Keeps s₀ [] s₀
  | act {hist : List Applied} {e : Applied} {u : BlockUpdates} (h : AppliedRun Keeps s₀ hist e.before)
      (valid : e.Valid u) : AppliedRun Keeps s₀ (hist ++ [e]) e.after
  | rest {hist : List Applied} {s s' : Rows} (h : AppliedRun Keeps s₀ hist s) (keeps : Keeps s s') :
      AppliedRun Keeps s₀ hist s'

/-- **The invariant rule**: what every applied action and every change in between keeps holds
throughout. -/
theorem AppliedRun.induct {Keeps : Rows → Rows → Prop} {I : Rows → Prop} {s₀ s : Rows}
    {hist : List Applied} (h : AppliedRun Keeps s₀ hist s) (hs : I s₀)
    (hact : ∀ e u, e ∈ hist → Applied.Valid e u → I e.before → I e.after)
    (hrest : ∀ s s', Keeps s s' → I s → I s') : I s := by
  induction h with
  | nil => exact hs
  | act h valid ih =>
    refine hact _ _ (by simp) valid (ih fun e u he => hact e u (List.mem_append_left _ he))
  | rest h keeps ih => exact hrest _ _ keeps (ih hact)

/-- …and before every action of it. -/
theorem AppliedRun.induct_mem {Keeps : Rows → Rows → Prop} {I : Rows → Prop} {s₀ s : Rows}
    {hist : List Applied} (h : AppliedRun Keeps s₀ hist s) (hs : I s₀)
    (hact : ∀ e u, e ∈ hist → Applied.Valid e u → I e.before → I e.after)
    (hrest : ∀ s s', Keeps s s' → I s → I s') :
    ∀ e ∈ hist, (∃ u, e.Valid u) ∧ I e.before := by
  induction h with
  | nil => exact fun e he => by cases he
  | act h valid ih =>
    have hact' := fun e u he => hact e u (List.mem_append_left _ he)
    rw [List.forall_mem_append, List.forall_mem_singleton]
    exact ⟨ih hact', ⟨_, valid⟩, h.induct hs hact' hrest⟩
  | rest h keeps ih => exact ih hact

/-! ## The actions of a chain -/

variable {Keeps : Rows → Rows → Prop} {s₀ : Rows} {hist : List Applied}

theorem LandsAll.appliedRun {db : Db} {genesis : Bytes} {params : ChainParams}
    {validators : List Address} {height timestamp : Nat} {s s' : ExecutionOutcome}
    {actions : List ChainAction}
    (h : LandsAll (execEnv db genesis params validators height timestamp) s actions s')
    (hrun : AppliedRun Keeps s₀ hist s.rows) :
    ∃ more, AppliedRun Keeps s₀ (hist ++ more) s'.rows ∧ more.map (·.action) = actions ∧
      ∀ e ∈ more, e.ctx.height = height := by
  induction h generalizing hist with
  | nil s => exact ⟨[], by simpa using hrun, rfl, by simp⟩
  | @cons s s₁ s₂ action rest head tail ih =>
    obtain ⟨-, -, u, hu, rfl⟩ := head
    have hact : AppliedRun Keeps s₀ (hist ++ [⟨_, action, s.rows, Writes.apply u.viewWrites s.rows⟩])
        (Writes.apply u.viewWrites s.rows) := .act (e := ⟨_, _, _, _⟩) hrun ⟨hu, rfl⟩
    obtain ⟨more, hmore, hactions, hheights⟩ := ih hact
    rw [List.append_assoc, List.singleton_append] at hmore
    exact ⟨_, hmore, congrArg (action :: ·) hactions, List.forall_mem_cons.mpr ⟨rfl, hheights⟩⟩

/-- **A committed block applies its actions**, between its seed and its seal. -/
theorem Commits.appliedRun {env : NodeEnv} {params : ChainParams} {db db' : Db} {block : ChainBlock}
    {ex : Executed} (h : Commits env params db block ex db')
    (hseed : Keeps db.state.rows (seededRows db ex.seed)) (hseal : Keeps ex.outcome.rows db'.state.rows)
    (hrun : AppliedRun Keeps s₀ hist db.state.rows) :
    ∃ more, AppliedRun Keeps s₀ (hist ++ more) db'.state.rows ∧
      more.map (·.action) = block.actions ∧ ∀ e ∈ more, e.ctx.height = block.height := by
  obtain ⟨_, _, hran⟩ := h.ran
  obtain ⟨more, hmore, hactions, hheights⟩ := hran.lands.appliedRun (hrun.rest hseed)
  exact ⟨more, hmore.rest hseal, hactions, hheights⟩

/-- The heights of the applied actions never go back. -/
def Ascending (acts : List Applied) : Prop := acts.Pairwise fun e e' => e.ctx.height ≤ e'.ctx.height

/-- **A chain is a sequence of applied actions**, if its seeds and seals keep what is asked. -/
theorem Chain.appliedRun {c₀ c : ChainState} {blocks : List (ChainBlock × Executed)}
    (h : Chain c₀ blocks c)
    (hkeeps : ∀ {env params db block ex db'}, Commits env params db block ex db' →
      Keeps db.state.rows (seededRows db ex.seed) ∧ Keeps ex.outcome.rows db'.state.rows) :
    ∃ acts, AppliedRun Keeps c₀.rows acts c.rows ∧
      acts.map (·.action) = blocks.flatMap (·.1.actions) ∧
      Ascending acts ∧ ∀ e ∈ acts, e.ctx.height ≤ c.tip.getD 0 := by
  induction h with
  | nil => exact ⟨[], .nil, rfl, .nil, by simp⟩
  | @snoc _ env _ db _ block ex hchain hcommit ih =>
    obtain ⟨acts, hrun, hacts, hascending, hbelow⟩ := ih
    obtain ⟨hseed, hseal⟩ := hkeeps hcommit
    obtain ⟨more, hmore, hactions, hheights⟩ := hcommit.appliedRun hseed hseal hrun
    have hheight : db.state.tip.getD 0 ≤ block.height := by
      rw [hcommit.height]
      exact Nat.le_succ _
    refine ⟨acts ++ more, hmore, ?_, ?_, List.forall_mem_append.mpr ⟨fun e he => ?_, fun e he => ?_⟩⟩
    · rw [List.map_append, hacts, hactions, List.flatMap_append, List.flatMap_singleton]
    · refine List.pairwise_append.mpr ⟨hascending, ?_, fun e he e' he' => ?_⟩
      · refine List.pairwise_of_forall_mem_list fun e he e' he' => ?_
        rw [hheights e he, hheights e' he']
      · rw [hheights e' he']
        exact (hbelow e he).trans hheight
    all_goals
      rw [hcommit.written, Db.state_writeBlock, ChainState.tip_write, Option.getD_some]
    · exact (hbelow e he).trans hheight
    · exact (hheights e he).le

end Run

/-! ## One asset -/

/-- Asset records and balances. -/
def Key.isAssetRow : Key → Bool
  | .asset _ | .assetBalance _ _ => true
  | _ => false

/-- The same assets, whatever else changed. -/
def SameAssets (s s' : Rows) : Prop := ∀ k : Key, k.isAssetRow = true → s' k = s k

/-- **What an applied action does to one asset.** -/
inductive AssetChange (action : ChainAction) (asset : AssetRef) (s s' : Rows) : Prop
  | same (record : s'.asset asset = s.asset asset) (balances : s'.balance asset = s.balance asset)
  | registered (a : Asset) (named : a.assetRef = asset) (fresh : s.asset asset = none)
      (record : s'.asset asset = some a) (supply : a.totalSupply = 0) (holders : a.holderCount = 0)
      (balances : s'.balance asset = s.balance asset)
  | launched (a a' : Asset) (named : a'.assetRef = asset) (fresh : s.asset asset = none)
      (record : s'.asset asset = some a') (supply : a.totalSupply = 0) (holders : a.holderCount = 0) (who : Address) (amount : Nat)
      (minted : Book.Mints ⟨a, s.balance asset⟩ who amount ⟨a', s'.balance asset⟩)
  | posted (a a' : Asset) (D : Set Address) (stored : s.asset asset = some a)
      (record : s'.asset asset = some a') (entries : Book.Entries D ⟨a, s.balance asset⟩ ⟨a', s'.balance asset⟩)
  | handedOver (a : Asset) (newIssuer : Address)
      (payload : action.payload = .transferIssuer asset newIssuer) (stored : s.asset asset = some a)
      (regulated : a.assetClass ≠ .token) (record : s'.asset asset = some { a with issuer := newIssuer })
      (balances : s'.balance asset = s.balance asset)

section Change

variable {u : BlockUpdates} {s s' : Rows} {action : ChainAction}

theorem balance_apply (hgov : GovernanceRows u.governance) (asset : AssetRef) :
    Rows.balance (Writes.apply u.viewWrites s) asset = (s.post u.assets).balance asset := by
  funext owner
  rw [Rows.balance, Rows.balance, Rows.post, apply_apply, apply_apply,
    lookup_viewWrites hgov (c := .assets) rfl]
  rfl

theorem asset_apply (hgov : GovernanceRows u.governance) (asset : AssetRef) :
    Rows.asset (Writes.apply u.viewWrites s) asset =
      match u.assetRegistration with
      | none => s.asset asset
      | some a => if a.assetRef = asset then some a else s.asset asset := by
  rw [Rows.asset, Rows.asset, apply_apply, lookup_viewWrites hgov (c := .assetRegistrations) rfl,
    Category.writes]
  cases u.assetRegistration with
  | none => rfl
  | some a =>
    change (lookup [assetWrite a] (.asset asset)).getD _ =
      if a.assetRef = asset then some a else s.asset asset
    by_cases ha : a.assetRef = asset
    · subst ha
      rw [if_pos rfl, lookup_cons, lookup_nil, Option.none_or]
      exact congrArg (Option.getD · _) (assetWrite a).effect_self
    · have hk : (assetWrite a).key ≠ .asset asset := by
        intro he
        injection he with he
        exact ha he
      rw [if_neg ha, lookup_cons, lookup_nil, Option.none_or, Write.effect_of_ne hk]
      rfl

/-- Balances of other assets stay. -/
theorem balance_post_other {balances : AssetBalanceUpdates} {own asset : AssetRef}
    (hown : ∀ p ∈ balances, p.1.1 = own) (hne : own ≠ asset) :
    (s.post balances).balance asset = s.balance asset := by
  funext owner
  refine congrArg (Option.getD (α := Nat) · 0) (apply_of_not_mem (fun w hw he => ?_) s)
  obtain ⟨p, hp, rfl⟩ := List.mem_map.mp hw
  injection he with he _
  exact hne ((hown p hp).symm.trans he)

/-- An effect on all assets, seen at one. -/
theorem AssetEffect.change (h : AssetEffect s action u)
    (hgov : GovernanceRows u.governance) (asset : AssetRef) :
    AssetChange action asset s (Writes.apply u.viewWrites s) := by
  cases h with
  | untouched assets record =>
    refine .same ?_ ?_
    · rw [asset_apply hgov, record]
    · rw [balance_apply hgov, assets, Rows.post_nil]
  | registered a assets record fresh supply holders =>
    have hbalances : Rows.balance (Writes.apply u.viewWrites s) asset = s.balance asset := by
      rw [balance_apply hgov, assets, Rows.post_nil]
    have hrecord := asset_apply (s := s) hgov asset
    rw [record] at hrecord
    by_cases ha : a.assetRef = asset
    · exact .registered a ha (ha ▸ fresh) (hrecord.trans (if_pos ha)) supply holders hbalances
    · exact .same (hrecord.trans (if_neg ha)) hbalances
  | launched a a' record fresh supply holders minted named own =>
    have hrecord := asset_apply (s := s) hgov asset
    rw [record] at hrecord
    by_cases ha : a'.assetRef = asset
    · obtain ⟨who, amount, minted⟩ := minted
      have hbook : (s.post u.assets).book a' = ⟨a', (Rows.balance (Writes.apply u.viewWrites s) asset)⟩ := by
        rw [Rows.book, ha, balance_apply hgov]
      rw [hbook, Rows.book, ← named, ha] at minted
      exact .launched a a' ha (ha ▸ named ▸ fresh) (hrecord.trans (if_pos ha)) supply holders who amount
        minted
    · refine .same (hrecord.trans (if_neg ha)) ?_
      rw [balance_apply hgov]
      exact balance_post_other own (named ▸ ha)
  | posted a a' D stored posts record =>
    have hrecord := asset_apply (s := s) hgov asset
    rw [record] at hrecord
    have hname := posts.assetRef_eq
    by_cases ha : a'.assetRef = asset
    · have hentries := posts.entries
      have hbook : (s.post u.assets).book a' = ⟨a', (Rows.balance (Writes.apply u.viewWrites s) asset)⟩ := by
        rw [Rows.book, ha, balance_apply hgov]
      rw [hbook, Rows.book, ← hname, ha] at hentries
      exact .posted a a' D (ha ▸ hname ▸ stored) (hrecord.trans (if_pos ha)) hentries
    · refine .same (hrecord.trans (if_neg ha)) ?_
      rw [balance_apply hgov]
      exact balance_post_other posts.own (hname ▸ ha)
  | handedOver a newIssuer payload stored regulated assets record =>
    have hbalances : Rows.balance (Writes.apply u.viewWrites s) asset = s.balance asset := by
      rw [balance_apply hgov, assets, Rows.post_nil]
    have hrecord := asset_apply (s := s) hgov asset
    rw [record] at hrecord
    by_cases ha : a.assetRef = asset
    · exact .handedOver a newIssuer (ha ▸ payload) (ha ▸ stored) regulated
        (hrecord.trans (if_pos ha)) hbalances
    · exact .same (hrecord.trans (if_neg ha)) hbalances

variable [Crypto] [Wire ActionPayload] [Zk] [StateTrie] [Decode] {e : Applied}

/-- **What an applied action does to an asset.** -/
theorem Applied.Valid.change (h : e.Valid u) (hnamed : e.before.AssetsNamed) (asset : AssetRef) :
    AssetChange e.action asset e.before e.after := by
  obtain ⟨inner, hinner, accounts, rfl⟩ := Runtime.run_dispatchWith h.ran
  have hgov : GovernanceRows inner.governance := (Runtime.yields_governanceRows.ensures _ inner hinner).1
  have heffect : AssetEffect e.before e.action { inner with accounts := accounts } := by
    cases Runtime.effect_dispatchInner hnamed hinner with
    | untouched assets record => exact .untouched assets record
    | registered a assets record fresh supply holders =>
      exact .registered a assets record fresh supply holders
    | launched a a' record fresh supply holders minted named own =>
      exact .launched a a' record fresh supply holders minted named own
    | posted a a' D stored posts record => exact .posted a a' D stored posts record
    | handedOver a newIssuer payload stored regulated assets record =>
      exact .handedOver a newIssuer payload stored regulated assets record
  rw [h.written]
  exact heffect.change hgov asset

/-- The rows after an action, which a refused one leaves as they were. -/
def Rows.after (s : Rows) (ctx : DispatchCtx) (action : ChainAction) : Rows :=
  match (Runtime.dispatch ctx action).run s.view with
  | .ok u => Writes.apply u.viewWrites s
  | .error _ => s

theorem Rows.valid_after {s : Rows} {ctx : DispatchCtx} {action : ChainAction}
    (h : ((Runtime.dispatch ctx action).run s.view).isOk = true) :
    ∃ u, Applied.Valid ⟨ctx, action, s, s.after ctx action⟩ u := by
  obtain ⟨u, hu⟩ := exists_ok_of_isOk h
  refine ⟨u, hu, ?_⟩
  rw [Rows.after, hu]

/-- One more action that goes through. -/
theorem AppliedRun.after {Keeps : Rows → Rows → Prop} {s₀ s : Rows} {hist : List Applied}
    (h : AppliedRun Keeps s₀ hist s)
    {ctx : DispatchCtx} {action : ChainAction}
    (hok : ((Runtime.dispatch ctx action).run s.view).isOk = true) :
    AppliedRun Keeps s₀ (hist ++ [⟨ctx, action, s, s.after ctx action⟩]) (s.after ctx action) := by
  obtain ⟨u, valid⟩ := Rows.valid_after hok
  exact .act h valid

/-- An action that sets no balance leaves them all. -/
theorem balance_after {s : Rows} {ctx : DispatchCtx} {action : ChainAction}
    (h : ((Runtime.dispatch ctx action).run s.view).toOption.all
      (fun u => u.assets.isEmpty && u.governance.isEmpty) = true) (asset : AssetRef) :
    (s.after ctx action).balance asset = s.balance asset := by
  unfold Rows.after
  cases hrun : (Runtime.dispatch ctx action).run s.view with
  | error e => rfl
  | ok u =>
    rw [hrun] at h
    simp only [Except.toOption, Option.all_some, Bool.and_eq_true, List.isEmpty_iff] at h
    rw [balance_apply (by rw [h.2]; exact governanceRows_nil), h.1, Rows.post_nil]

/-- Neither the seed nor the seal of a block touches an asset. -/
theorem Commits.sameAssets {env : NodeEnv} {params : ChainParams} {db db' : Db} {block : ChainBlock}
    {ex : Executed} (h : Commits env params db block ex db') :
    SameAssets db.state.rows (seededRows db ex.seed) ∧ SameAssets ex.outcome.rows db'.state.rows := by
  have hex := h.shaped
  constructor
  all_goals
    intro k hk
    obtain ⟨asset, rfl⟩ | ⟨asset, owner, rfl⟩ : (∃ asset, k = .asset asset) ∨
        ∃ asset owner, k = .assetBalance asset owner := by
      cases k <;> simp [Key.isAssetRow] at hk ⊢
  · rw [seededRows_eq hex (c := .assetRegistrations) rfl, hex.seed]
    rfl
  · rw [seededRows_eq hex (c := .assets) rfl, hex.seed]
    rfl
  · rw [h.row_eq_sealed rfl (c := .assetRegistrations) rfl (by decide), Category.writes,
      hex.sealed.assetRegistration]
    rfl
  · rw [h.row_eq_sealed rfl (c := .assets) rfl (by decide), Category.writes, hex.sealed.assets]
    rfl

end Change

end Arxium
