import Arxium.Node.AssetIndex

/-!
# Node/CapTable — what a snapshot records

A snapshot goes through the list of holders, which is as the last block left it, and reads the balances
as the actions before it in its own block left them.  So the table has those who held some of the asset
before the block and still do, each with what it has now: somebody who first received some earlier in
the same block is not on it (`snapshot_table`).
-/

namespace Arxium

open ReadProg Writes Listing Tally

/-! ## The table of a list -/

/-- Who of a list is on the table. -/
def Rows.onTable (rows : Rows) (a : Asset) (index : List Address) : List Address :=
  index.filter fun o => o ≠ a.issuer ∧ rows.balance a.assetRef o ≠ 0

/-- **A table of those on a list**: each with its balance, and the sum of the balances. -/
structure CapTable.Covers (table : CapTable) (rows : Rows) (a : Asset) (index : List Address) : Prop where
  holders : table.holders.Perm ((rows.onTable a index).map fun o => (o, rows.balance a.assetRef o))
  total : table.total = ((rows.onTable a index).map (rows.balance a.assetRef)).sum

section Table

variable {rows : Rows} {a : Asset} {index : List Address}

theorem run_capTable {total total' : Nat} {holders : List (Address × Nat)}
    (h : (Rwa.capTable a index total).run rows.view = .ok (total', holders)) :
    holders = (rows.onTable a index).map (fun o => (o, rows.balance a.assetRef o)) ∧
      total' = total + ((rows.onTable a index).map (rows.balance a.assetRef)).sum := by
  induction index generalizing total total' holders with
  | nil =>
    obtain ⟨rfl, rfl⟩ := Prod.mk.inj (Except.ok.inj h)
    exact ⟨rfl, rfl⟩
  | cons o index ih =>
    unfold Rwa.capTable at h
    dsimp only at h
    split at h
    · next hissuer =>
      have hskip : rows.onTable a (o :: index) = rows.onTable a index :=
        List.filter_cons_of_neg (by simp [hissuer])
      rw [hskip]
      exact ih h
    · next hissuer =>
      rw [Rows.run_balanceOf_bind] at h
      split at h
      · next hzero =>
        have hskip : rows.onTable a (o :: index) = rows.onTable a index :=
          List.filter_cons_of_neg (by simp [hzero])
        rw [hskip]
        exact ih h
      · next hsome =>
        have htake : rows.onTable a (o :: index) = o :: rows.onTable a index :=
          List.filter_cons_of_pos (by simp [hissuer, hsome])
        obtain ⟨t, ht, h⟩ := bind_ok.mp h
        obtain ⟨-, rfl⟩ := Rwa.run_credit.mp ht
        obtain ⟨⟨t', rest⟩, hrest, h⟩ := bind_ok.mp h
        obtain ⟨rfl, rfl⟩ := Prod.mk.inj (Except.ok.inj h)
        obtain ⟨rfl, rfl⟩ := ih hrest
        rw [htake, List.map_cons, List.map_cons, List.sum_cons, Nat.add_assoc]
        exact ⟨rfl, rfl⟩

/-- **A snapshot records the table of the holders' list**, and changes nothing else of the record. -/
theorem run_applySnapshot {height : Nat} {a' : Asset}
    (h : (Rwa.applySnapshot a height).run rows.view = .ok a') :
    ∃ table, a' = { a with snapshot := some table } ∧ table.height = height ∧
      table.Covers rows a (rows.holders a.assetRef) := by
  unfold Rwa.applySnapshot at h
  rw [run_bind, Rows.run_getRow] at h
  change Prog.run _ (Rwa.capTable a (rows.holders a.assetRef) 0 >>= _) = _ at h
  obtain ⟨⟨total, holders⟩, hrun, h⟩ := bind_ok.mp h
  obtain rfl := Except.ok.inj h
  obtain ⟨rfl, rfl⟩ := run_capTable hrun
  exact ⟨_, rfl, rfl, List.perm_insertionSort _ _, Nat.zero_add _⟩

namespace CapTable.Covers

variable {table : CapTable} (h : table.Covers rows a index)

include h

theorem mem_iff {o : Address} {n : Nat} : (o, n) ∈ table.holders ↔
    o ∈ index ∧ o ≠ a.issuer ∧ rows.balance a.assetRef o ≠ 0 ∧ n = rows.balance a.assetRef o := by
  rw [h.holders.mem_iff]
  simp only [Rows.onTable, List.mem_map, List.mem_filter, decide_eq_true_eq, Prod.mk.injEq]
  constructor
  · rintro ⟨_, ⟨hmem, hne, hsome⟩, rfl, rfl⟩
    exact ⟨hmem, hne, hsome, rfl⟩
  · rintro ⟨hmem, hne, hsome, rfl⟩
    exact ⟨o, ⟨hmem, hne, hsome⟩, rfl, rfl⟩

theorem nodup (hindex : index.Nodup) : (table.holders.map Prod.fst).Nodup := by
  refine (h.holders.map Prod.fst).nodup_iff.mpr ?_
  rw [List.map_map]
  exact (hindex.filter _).map Function.injective_id

/-- The total is the sum of the rows. -/
theorem total_eq : table.total = (table.holders.map Prod.snd).sum := by
  rw [h.total, (h.holders.map Prod.snd).sum_eq, List.map_map]
  rfl

end CapTable.Covers

end Table

/-! ## Inside a block -/

/-- A genesis without assets: no record, no balance, no list. -/
structure Db.BareGenesis (g : Db) : Prop where
  genesis : g.IsGenesis
  bare : ∀ k : Key, k.isAssetRow = true ∨ k.isIndexRow = true → g.state.rows k = none

namespace Db.BareGenesis

variable {g : Db} (h : g.BareGenesis)

include h

theorem noAssets : g.state.rows.NoAssets := fun asset =>
  ⟨h.bare (.asset asset) (.inl rfl), fun owner =>
    congrArg (Option.getD (α := Nat) · 0) (h.bare (.assetBalance asset owner) (.inl rfl))⟩

theorem untouched (asset : AssetRef) (owner : Address) : ¬ g.state.rows.Touched asset owner := by
  unfold Rows.Touched
  rw [h.bare (.assetBalance asset owner) (.inl rfl)]
  exact Bool.false_ne_true

theorem indexed : g.state.rows.Indexed := by
  refine ⟨fun asset => ?_, fun owner => ?_, ?_⟩
  · rw [Rows.holders, h.bare _ (.inr rfl)]
    exact lists_nil fun owner hsome => hsome ((h.noAssets asset).2 owner)
  · rw [Rows.accountAssets, h.bare _ (.inr rfl)]
    exact lists_nil fun asset => h.untouched asset owner
  · rw [Rows.assetRefs, h.bare _ (.inr rfl)]
    refine lists_nil fun asset hsome => ?_
    rw [(h.noAssets asset).1] at hsome
    exact Bool.false_ne_true hsome

end Db.BareGenesis

section Block

variable [Crypto] [Wire ActionPayload] [Zk] [StateTrie] [Decode] {env : NodeEnv} {params : ChainParams}
  {g db db' : Db} {block : ChainBlock} {ex : Executed} {action : ChainAction} {rows : Rows}
  {u : BlockUpdates} {scan : Rows → AssetRef → List Address}

/-- An action reads the lists as the block found them. -/
theorem Landed.holders_eq (hl : Landed db block ex action rows u)
    (h : Commits env params db block ex db') (asset : AssetRef) :
    rows.holders asset = db.state.rows.holders asset :=
  congrArg (Option.getD (α := List Address) · []) (hl.unseen_eq h.shaped (k := .assetHolders asset) rfl)

/-- Supply is backed wherever an action runs. -/
theorem Landed.supplied (hl : Landed db block ex action rows u)
    (h : Commits env params db block ex db') (hs : ∀ asset, db.state.rows.Supplied asset) :
    ∀ asset, rows.Supplied asset :=
  hl.induct (I := fun rows => ∀ asset, rows.Supplied asset) h
    (fun asset => (hs asset).congr h.sameAssets.1) fun ctx action s _ hrun hs asset =>
      (Applied.Valid.change (e := ⟨ctx, action, s, _⟩) ⟨hrun, rfl⟩ (Rows.assetsNamed_of_supplied hs)
        asset).supplied (hs asset)

theorem Db.RunsWith.supplied (hg : g.BareGenesis) (h : Db.RunsWith scan g db) :
    ∀ asset, db.state.rows.Supplied asset :=
  (h.guards (I := fun s => ∀ asset, s.rows.Supplied asset) (fun hc hs => by
    obtain ⟨_, hrun, -⟩ := hc.appliedRun hc.sameAssets.1 hc.sameAssets.2 .nil
    exact hrun.supplied hs) hg.genesis hg.noAssets.supplied).holds.holds

/-- What an applied snapshot writes. -/
theorem Landed.snapshot (hl : Landed db block ex action rows u) {asset : AssetRef}
    (hp : action.payload = .snapshotHolders asset) (hnamed : rows.AssetsNamed) :
    ∃ a table, rows.asset asset = some a ∧ a.assetRef = asset ∧
      u.assetRegistration = some { a with snapshot := some table } ∧ u.assets = [] ∧
      table.height = block.height ∧ table.Covers rows a (rows.holders asset) := by
  obtain ⟨validators, genesis, hrun⟩ := hl.dispatched
  obtain ⟨inner, hinner, accounts, rfl⟩ := Runtime.run_dispatchWith hrun
  rw [Runtime.dispatchInner, hp] at hinner
  obtain ⟨a, ha, hinner⟩ := bind_ok.mp hinner
  obtain ⟨hstored, -, -⟩ := Runtime.run_requireIssuer ha
  obtain ⟨a', ha', hinner⟩ := bind_ok.mp hinner
  obtain rfl := Except.ok.inj hinner
  obtain ⟨table, rfl, hheight, hcovers⟩ := run_applySnapshot (circuit_ok.mp ha')
  obtain rfl := hnamed asset a hstored
  exact ⟨a, table, hstored, rfl, rfl, rfl, hheight, hcovers⟩

/-- **The cap table.**  In any block a node commits, an applied snapshot records, once each, exactly those
other than the issuer who had some of the asset before the block and have some now, each with what it has
now; the total is the sum of these.  If nobody first received some earlier in the block, that is the
supply without the issuer's balance. -/
theorem snapshot_table (hg : g.BareGenesis) (hscan : ScansRows scan) (hrun : Db.RunsWith scan g db)
    {now : Nat} (h : Commits ⟨now, scan⟩ params db block ex db') (hl : Landed db block ex action rows u)
    {asset : AssetRef} (hp : action.payload = .snapshotHolders asset) :
    ∃ a table, rows.asset asset = some a ∧
      u.assetRegistration = some { a with snapshot := some table } ∧
      (table.holders.map Prod.fst).Nodup ∧
      (∀ o n, (o, n) ∈ table.holders ↔ o ≠ a.issuer ∧ db.state.rows.balance asset o ≠ 0 ∧
        rows.balance asset o ≠ 0 ∧ n = rows.balance asset o) ∧
      table.total = (table.holders.map Prod.snd).sum ∧
      ((∀ o, o ≠ a.issuer → rows.balance asset o ≠ 0 → db.state.rows.balance asset o ≠ 0) →
        table.total + rows.balance asset a.issuer = a.totalSupply) := by
  have hsupplied := hl.supplied h (hrun.supplied hg)
  obtain ⟨a, table, ha, rfl, hu, -, -, hcovers⟩ :=
    hl.snapshot hp (Rows.assetsNamed_of_supplied hsupplied)
  rw [hl.holders_eq h] at hcovers
  have hlists := (hrun.indexed hg.genesis hg.indexed (fun _ _ => hg.untouched _) hscan).1.holders a.assetRef
  refine ⟨a, table, ha, hu, hcovers.nodup hlists.nodup, fun o n => ?_, hcovers.total_eq, fun hold => ?_⟩
  · rw [hcovers.mem_iff, hlists.mem_iff]
    tauto
  · -- the issuer and those on the table have it all
    have hissuer : a.issuer ∉ rows.onTable a (db.state.rows.holders a.assetRef) := by
      simp [Rows.onTable]
    have htotals := totals_list (f := rows.balance a.assetRef)
      (l := a.issuer :: rows.onTable a (db.state.rows.holders a.assetRef))
      (List.nodup_cons.mpr ⟨hissuer, hlists.nodup.filter _⟩) fun o ho => by
        rw [List.mem_cons, not_or] at ho
        refine of_not_not fun hsome => ho.2 (List.mem_filter.mpr ⟨?_, ?_⟩)
        · exact (hlists.mem_iff o).mpr (hold o ho.1 hsome)
        · exact decide_eq_true ⟨ho.1, hsome⟩
    rw [List.map_cons, List.sum_cons, ← hcovers.total] at htotals
    have := htotals.unique ((hsupplied a.assetRef).backed a ha).totals
    dsimp only at this
    omega

/-- The block a node accepts is committed on a database it gets to. -/
theorem Db.RunsWith.commits_of_accept (hrun : Db.RunsWith scan g db) {now : Nat}
    (h : onBlock ⟨now, scan⟩ block db = .ok db') :
    ∃ params db₀ ex, Db.RunsWith scan g db₀ ∧ Commits ⟨now, scan⟩ params db₀ block ex db' := by
  obtain ⟨db₀, ex, hacc⟩ := acceptBlock_eq_ok.mp h
  obtain ⟨hunwinds, hcommits⟩ := hacc.commits
  refine ⟨_, db₀, ex, ?_, hcommits⟩
  rcases hunwinds with rfl | ⟨height, hrevert⟩
  · exact hrun
  · exact hrun.step (.revert hrevert)

end Block

/-! ## A snapshot in the block of the issuance -/

namespace SmallLedger

open PlainChain

attribute [local instance] crypto wire Plain.zk Plain.trie Plain.decoders

/-- Ten units are issued to the second account. -/
def issueToSecond : ChainAction := action 1 1 (.issueAssetTo bond (address 2) 10)

def snapshot : ChainAction := action 1 2 (.snapshotHolders bond)

/-- The bond is registered and issued, and its holders are recorded, in one block. -/
def recorded : ChainBlock := block 1 [register, issueToSecond, snapshot]

theorem bareGenesis : genesis.BareGenesis := by
  refine ⟨isGenesis_db _, fun k hk => ?_⟩
  cases k <;> simp [Key.isAssetRow, Key.isIndexRow] at hk <;> rfl

/-- The table is empty, and there is a holder of the whole supply. -/
def missesHolder (db : Db) : Bool :=
  (db.state.rows.asset bond).any (fun a => a.snapshot = some ⟨1, 0, []⟩ && a.totalSupply = 10) &&
    db.state.rows.balance bond (address 2) == 10

set_option maxRecDepth 20000 in
theorem recorded_accepted : ∃ db, onBlock env recorded genesis = .ok db ∧ missesHolder db = true := by
  have hmisses : (onBlock env recorded genesis).toOption.any missesHolder = true := by decide +kernel
  exact exists_ok_of_any hmisses

/-- The snapshot records a table whose total is the sum of its rows. -/
theorem snapshot_table_recorded : ∃ db ex rows u, Landed db recorded ex snapshot rows u ∧
    ∃ a table, rows.asset bond = some a ∧
      u.assetRegistration = some { a with snapshot := some table } ∧
      table.total = (table.holders.map Prod.snd).sum := by
  obtain ⟨db', haccept, -⟩ := recorded_accepted
  obtain ⟨params, db, ex, hrun, hcommits⟩ := Db.RunsWith.commits_of_accept .start haccept
  obtain ⟨rows, u, hl⟩ := hcommits.landed_of_mem (by simp [recorded, block] : snapshot ∈ _)
  obtain ⟨a, table, ha, hu, -, -, htotal, -⟩ :=
    snapshot_table bareGenesis scansRows_env hrun hcommits hl rfl
  exact ⟨db, ex, rows, u, hl, a, table, ha, hu, htotal⟩

/-- **A holder of the same block is missed.**  The snapshot is the last action of its block; the second
account holds all ten units then, and the table is empty. -/
theorem snapshot_misses_new_holder : recorded.actions = [register, issueToSecond, snapshot] ∧
    ∃ db, onBlock env recorded genesis = .ok db ∧ db.state.rows.balance bond (address 2) = 10 ∧
      ∃ a, db.state.rows.asset bond = some a ∧ a.snapshot = some ⟨1, 0, []⟩ ∧ a.totalSupply = 10 := by
  obtain ⟨db, haccept, hmisses⟩ := recorded_accepted
  rw [missesHolder, Bool.and_eq_true, beq_iff_eq] at hmisses
  obtain ⟨a, ha, hfields⟩ := (Option.any_eq_true _ _).mp hmisses.1
  rw [Bool.and_eq_true, decide_eq_true_eq, decide_eq_true_eq] at hfields
  exact ⟨rfl, db, haccept, hmisses.2, a, ha, hfields⟩

end SmallLedger

end Arxium
