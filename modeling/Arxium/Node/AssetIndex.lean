import Arxium.Node.Supply
import Arxium.Lib.Listing

/-!
# Node/AssetIndex — the index rows of assets

Three kinds of row say what the balance rows say, from the other side: who holds an asset, of which assets
an account has a balance row, and which assets there are.  A block's commit brings them up to date from
the block's net changes (`assetIndexWrites`) and unwinding it takes them back, so in every database a
node reaches they are right (`Rows.Indexed`).

An account's list never shrinks: a balance row that went to zero is kept, and so is its entry.
-/

namespace Arxium

open ReadProg Writes Listing

/-! ## What the rows should say -/

namespace Rows

variable (rows : Rows)

def holders (asset : AssetRef) : List Address :=
  Option.getD (α := List Address) (rows (.assetHolders asset)) []

def accountAssets (owner : Address) : List AssetRef :=
  Option.getD (α := List AssetRef) (rows (.accountAssets owner)) []

def assetRefs : List AssetRef := Option.getD (α := List AssetRef) (rows .assetIndex) []

/-- The account has a balance row of the asset, if only of zero. -/
def Touched (asset : AssetRef) (owner : Address) : Prop := (rows (.assetBalance asset owner)).isSome = true

/-- **The index rows are right.** -/
structure Indexed : Prop where
  holders : ∀ asset, Lists (rows.holders asset) fun owner => rows.balance asset owner ≠ 0
  owned : ∀ owner, Lists (rows.accountAssets owner) fun asset => rows.Touched asset owner
  registered : Lists rows.assetRefs fun asset => (rows.asset asset).isSome = true

/-- An asset without a list of holders has no balance row, so a scan of its rows lists nobody. -/
def Unscanned : Prop := ∀ asset, rows (.assetHolders asset) = none → ∀ owner, ¬ rows.Touched asset owner

end Rows

/-- A scan of the balance rows of an asset: it lists nobody where there is no row. -/
def ScansRows (scan : Rows → AssetRef → List Address) : Prop :=
  ∀ rows asset, (∀ owner, rows (.assetBalance asset owner) = none) → scan rows asset = []

/-! ## Maps of updates -/

section Entries

variable {α β : Type} [DecidableEq α] {le : α → α → Bool} {u : Updates α β} {a : α} {b : β}

theorem Updates.get?_isSome_iff : (u.get? a).isSome = true ↔ a ∈ u.map Prod.fst := by
  induction u with
  | nil => simp [Updates.get?]
  | cons p u ih =>
    obtain ⟨a', b'⟩ := p
    rw [Updates.get?, Option.isSome_or, Bool.or_eq_true, ih, List.map_cons, List.mem_cons]
    by_cases h : a' = a
    · simp [h]
    · simp [h, Ne.symm h]

/-- **The entries of a map are its current ones.** -/
theorem Updates.mem_entries : (a, b) ∈ u.entries le ↔ u.get? a = some b := by
  unfold Updates.entries
  simp only [List.mem_filterMap, List.mem_insertionSort, List.mem_dedup, Option.map_eq_some_iff,
    Prod.mk.injEq]
  constructor
  · rintro ⟨a', -, b', hb, rfl, rfl⟩
    exact hb
  · exact fun h => ⟨a, get?_isSome_iff.mp (by rw [h]; rfl), b, h, rfl, rfl⟩

theorem Updates.nodup_entries : ((u.entries le).map Prod.fst).Nodup := by
  unfold Updates.entries
  rw [List.map_filterMap]
  refine List.Nodup.filterMap (fun a a' c hc hc' => ?_)
    ((List.perm_insertionSort _ _).nodup_iff.mpr (List.nodup_dedup _))
  simp only [Option.map_map, Option.mem_def, Option.map_eq_some_iff] at hc hc'
  obtain ⟨_, -, rfl⟩ := hc
  obtain ⟨_, -, he⟩ := hc'
  exact he.symm

end Entries

/-! ## Bringing a list up to date -/

theorem updateHolder_eq_mark (holders : List Address) (entry : Address × Nat) :
    updateHolder holders entry = mark holders entry.1 (entry.2 ≠ 0) := by
  unfold updateHolder mark
  by_cases hzero : entry.2 = 0 <;> simp [hzero]

section AddMissing

variable {α : Type} [DecidableEq α] {held new : List α}

theorem isPrefix_addMissing : held <+: addMissing held new := by
  induction new generalizing held with
  | nil => exact List.prefix_rfl
  | cons a new ih =>
    refine List.IsPrefix.trans ?_ ih
    dsimp only
    split_ifs
    · exact List.prefix_rfl
    · exact List.prefix_append _ _

/-- A list that did not grow did not change. -/
theorem addMissing_eq_of_length (h : (addMissing held new).length = held.length) :
    addMissing held new = held := (isPrefix_addMissing.eq_of_length h.symm).symm

theorem lists_addMissing {p : α → Prop} (h : Lists held p) :
    Lists (addMissing held new) fun a => a ∈ new ∨ p a := by
  induction new generalizing held p with
  | nil => exact h.congr fun a => by simp
  | cons a new ih =>
    have hmark : (if a ∈ held then held else held ++ [a]) = mark held a true := by simp [mark]
    have hmarked : Lists (mark held a true) fun b => b = a ∨ p b := by
      refine ⟨nodup_mark h.nodup a true, fun b => ?_⟩
      by_cases hb : b = a
      · subst hb
        simp [mem_mark_self h.nodup]
      · simp [mem_mark_of_ne hb, h.mem_iff, hb]
    rw [← hmark] at hmarked
    exact (ih hmarked).congr fun b => by
      rw [List.mem_cons]
      tauto

end AddMissing

/-! ## What the commit writes -/

/-- One write list per element, each to the element's own row. -/
theorem lookup_flatMap_own {α : Type} [DecidableEq α] {l : List α} {f : α → List RowWrite}
    {row : α → Key} (hrow : Function.Injective row) (hf : ∀ a, ∀ w ∈ f a, w.key = row a) (a : α) :
    lookup (l.flatMap f) (row a) = if a ∈ l then lookup (f a) (row a) else none := by
  induction l with
  | nil => rfl
  | cons b l ih =>
    rw [List.flatMap_cons, lookup_append, ih]
    by_cases hb : b = a
    · subst hb
      by_cases hmem : b ∈ l
      · simp [hmem]
      · simp [hmem]
    · have hother : lookup (f b) (row a) = none :=
        lookup_eq_none fun w hw he => hb (hrow ((hf b w hw).symm.trans he))
      simp [hother, Ne.symm hb]

theorem getD_lookup_writeIf (changed : Bool) (k : Key) (v : Value k) (old : Option (Value k)) :
    (lookup (writeIf changed (put k v)) k).getD old = if changed then some v else old := by
  cases changed with
  | true =>
    change Option.getD ((put k v).effect k) old = _
    rw [put_effect_self]
    rfl
  | false => rfl

/-- A list of holders that is written when it differs is the new one in any case. -/
theorem getD_lookup_holders {asset : AssetRef} (indexed : Option (List Address))
    (after : Option (List Address) → List Address) :
    (lookup (writeIf (indexed ≠ some (after indexed)) (put (.assetHolders asset) (after indexed)))
      (.assetHolders asset)).getD indexed = some (after indexed) := by
  refine (getD_lookup_writeIf _ _ _ _).trans ?_
  by_cases hsame : indexed = some (after indexed)
  · exact (if_neg (by simpa using hsame)).trans hsame
  · exact if_pos (decide_eq_true hsame)

section IndexWrites

variable {scan : Rows → AssetRef → List Address} {rows : Rows} {registrations : List Asset}
  {balances : AssetBalanceUpdates}

theorem lookup_registryWrites : lookup (assetIndexWrites scan rows registrations balances) .assetIndex =
    lookup (registryWrites rows registrations) .assetIndex := by
  have howners : lookup ((((balances.entries Runtime.assetKeyLe).map (·.1.2)).dedup.insertionSort
      (· ≤ ·)).flatMap (ownerWrites rows (balances.entries Runtime.assetKeyLe))) .assetIndex = none :=
    lookup_flatMap_eq_none fun owner _ => lookup_eq_none fun w hw => by
      rw [eq_of_mem_writeIf hw]
      exact nofun
  have hholders : lookup ((((balances.entries Runtime.assetKeyLe).map (·.1.1)).dedup.insertionSort
      (· ≤ ·)).flatMap (holderWrites scan rows (balances.entries Runtime.assetKeyLe))) .assetIndex =
      none :=
    lookup_flatMap_eq_none fun asset _ => lookup_eq_none fun w hw => by
      rw [eq_of_mem_writeIf hw]
      exact nofun
  rw [assetIndexWrites, lookup_append, lookup_append, howners, hholders, Option.none_or, Option.none_or]

theorem lookup_ownerWrites (owner : Address) :
    lookup (assetIndexWrites scan rows registrations balances) (.accountAssets owner) =
      if owner ∈ (balances.entries Runtime.assetKeyLe).map (·.1.2) then
        lookup (ownerWrites rows (balances.entries Runtime.assetKeyLe) owner) (.accountAssets owner)
      else none := by
  have hregistry : lookup (registryWrites rows registrations) (.accountAssets owner) = none :=
    lookup_eq_none fun w hw => by
      rw [eq_of_mem_writeIf hw]
      exact nofun
  have hholders : lookup ((((balances.entries Runtime.assetKeyLe).map (·.1.1)).dedup.insertionSort
      (· ≤ ·)).flatMap (holderWrites scan rows (balances.entries Runtime.assetKeyLe)))
      (.accountAssets owner) = none :=
    lookup_flatMap_eq_none fun asset _ => lookup_eq_none fun w hw => by
      rw [eq_of_mem_writeIf hw]
      exact nofun
  rw [assetIndexWrites, lookup_append, lookup_append, hregistry, hholders, Option.none_or,
    Option.or_none, lookup_flatMap_own (f := ownerWrites _ _) (fun _ _ h => Key.accountAssets.inj h)
      (fun a w hw => by rw [eq_of_mem_writeIf hw]; rfl)]
  simp only [List.mem_insertionSort, List.mem_dedup]

theorem lookup_holderWrites (asset : AssetRef) :
    lookup (assetIndexWrites scan rows registrations balances) (.assetHolders asset) =
      if asset ∈ (balances.entries Runtime.assetKeyLe).map (·.1.1) then
        lookup (holderWrites scan rows (balances.entries Runtime.assetKeyLe) asset) (.assetHolders asset)
      else none := by
  have hregistry : lookup (registryWrites rows registrations) (.assetHolders asset) = none :=
    lookup_eq_none fun w hw => by
      rw [eq_of_mem_writeIf hw]
      exact nofun
  have howners : lookup ((((balances.entries Runtime.assetKeyLe).map (·.1.2)).dedup.insertionSort
      (· ≤ ·)).flatMap (ownerWrites rows (balances.entries Runtime.assetKeyLe)))
      (.assetHolders asset) = none :=
    lookup_flatMap_eq_none fun owner _ => lookup_eq_none fun w hw => by
      rw [eq_of_mem_writeIf hw]
      exact nofun
  rw [assetIndexWrites, lookup_append, lookup_append, hregistry, howners, Option.or_none,
    Option.or_none, lookup_flatMap_own (f := holderWrites _ _ _) (fun _ _ h => Key.assetHolders.inj h)
      (fun a w hw => by rw [eq_of_mem_writeIf hw]; rfl)]
  simp only [List.mem_insertionSort, List.mem_dedup]

/-- **The rows after a commit**: the block's balances and records over the old ones, and the index rows
that go with them. -/
structure Rows.BroughtUp (scan : Rows → AssetRef → List Address) (rows : Rows)
    (registrations : List Asset) (balances : AssetBalanceUpdates) (rows' : Rows) : Prop where
  balance : ∀ asset owner, rows' (.assetBalance asset owner) =
    ((balances.get? (asset, owner)).map some).getD (rows (.assetBalance asset owner))
  record : ∀ asset, (rows'.asset asset).isSome = true ↔
    asset ∈ registrations.map (·.assetRef) ∨ (rows.asset asset).isSome = true
  index : ∀ k : Key, k.isIndexRow = true →
    rows' k = Writes.apply (assetIndexWrites scan rows registrations balances) rows k

/-- The changes of one asset, holder by holder. -/
def holderChanges (balances : AssetBalanceUpdates) (asset : AssetRef) : List (Address × Nat) :=
  ((balances.entries Runtime.assetKeyLe).filter (·.1.1 = asset)).map fun e => (e.1.2, e.2)

theorem mem_holderChanges {asset : AssetRef} {owner : Address} {n : Nat} :
    (owner, n) ∈ holderChanges balances asset ↔ balances.get? (asset, owner) = some n := by
  have hentry : ((asset, owner), n) ∈ balances.entries Runtime.assetKeyLe ↔ _ := Updates.mem_entries
  rw [← hentry, holderChanges]
  simp only [List.mem_map, List.mem_filter, decide_eq_true_eq, Prod.mk.injEq]
  constructor
  · rintro ⟨⟨⟨_, _⟩, _⟩, ⟨hmem, rfl⟩, rfl, rfl⟩
    exact hmem
  · exact fun hmem => ⟨_, ⟨hmem, rfl⟩, rfl, rfl⟩

theorem nodup_holderChanges (asset : AssetRef) :
    ((holderChanges balances asset).map Prod.fst).Nodup := by
  have hentries : ((balances.entries Runtime.assetKeyLe).map Prod.fst).Nodup := Updates.nodup_entries
  rw [holderChanges, List.map_map]
  refine List.Nodup.map_on (fun e he e' he' hsame => ?_)
    ((List.Nodup.of_map _ hentries).filter _)
  simp only [List.mem_filter, decide_eq_true_eq] at he he'
  have hkey : e.1 = e'.1 := Prod.ext (he.2.trans he'.2.symm) hsame
  exact List.inj_on_of_nodup_map hentries he.1 he'.1 hkey

namespace Rows.BroughtUp

variable {rows' : Rows} (h : rows.BroughtUp scan registrations balances rows')

include h

theorem touched_iff {asset : AssetRef} {owner : Address} : rows'.Touched asset owner ↔
    (balances.get? (asset, owner)).isSome = true ∨ rows.Touched asset owner := by
  unfold Rows.Touched
  rw [h.balance]
  cases balances.get? (asset, owner) with
  | none => exact (or_iff_right Bool.false_ne_true).symm
  | some n => exact iff_of_true rfl (.inl rfl)

theorem balance_ne_zero_iff {asset : AssetRef} {owner : Address} : rows'.balance asset owner ≠ 0 ↔
    (owner, true) ∈ (holderChanges balances asset).map (fun e => (e.1, decide (e.2 ≠ 0))) ∨
      owner ∉ ((holderChanges balances asset).map fun e => (e.1, decide (e.2 ≠ 0))).map Prod.fst ∧
        rows.balance asset owner ≠ 0 := by
  have hmem : ∀ m, (owner, m) ∈ holderChanges balances asset ↔ balances.get? (asset, owner) = some m :=
    fun m => mem_holderChanges
  simp only [List.mem_map, List.map_map, Function.comp_apply, Prod.exists, Prod.mk.injEq,
    decide_eq_true_eq, exists_and_right, exists_eq_right]
  cases hget : balances.get? (asset, owner) with
  | none =>
    have hsame : rows'.balance asset owner = rows.balance asset owner := by
      unfold Rows.balance
      rw [h.balance, hget]
      rfl
    simp [hmem, hget, hsame]
  | some n =>
    have hset : rows'.balance asset owner = n := by
      unfold Rows.balance
      rw [h.balance, hget]
      rfl
    simp [hmem, hget, hset]

theorem assetRefs_eq : rows'.assetRefs = addMissing rows.assetRefs (registrations.map (·.assetRef)) := by
  unfold Rows.assetRefs
  rw [h.index .assetIndex rfl, apply_apply, lookup_registryWrites]
  refine (congrArg (Option.getD (α := List AssetRef) · []) (getD_lookup_writeIf _ _ _ _)).trans ?_
  split_ifs with hchanged
  · rfl
  · exact (addMissing_eq_of_length (of_not_not fun hne => hchanged (decide_eq_true hne))).symm

theorem accountAssets_eq (owner : Address) : rows'.accountAssets owner = addMissing
    (rows.accountAssets owner)
    (((balances.entries Runtime.assetKeyLe).filter (·.1.2 = owner)).map (·.1.1)) := by
  unfold Rows.accountAssets
  rw [h.index (.accountAssets owner) rfl, apply_apply, lookup_ownerWrites]
  by_cases hmem : owner ∈ (balances.entries Runtime.assetKeyLe).map (·.1.2)
  · rw [if_pos hmem]
    refine (congrArg (Option.getD (α := List AssetRef) · []) (getD_lookup_writeIf _ _ _ _)).trans ?_
    split_ifs with hchanged
    · rfl
    · exact (addMissing_eq_of_length (of_not_not fun hne => hchanged (decide_eq_true hne))).symm
  · have hnone : (balances.entries Runtime.assetKeyLe).filter (·.1.2 = owner) = [] :=
      List.filter_eq_nil_iff.mpr fun e he hown =>
        hmem (List.mem_map.mpr ⟨e, he, of_decide_eq_true hown⟩)
    rw [if_neg hmem, hnone]
    rfl

/-- A touched asset has a list from then on; another one's is as it was. -/
theorem holders_row (asset : AssetRef) : rows' (.assetHolders asset) =
    if holderChanges balances asset = [] then rows (.assetHolders asset) else
      some ((holderChanges balances asset).foldl updateHolder
        (Option.getD (α := List Address) (rows (.assetHolders asset)) (scan rows asset))) := by
  rw [h.index (.assetHolders asset) rfl, apply_apply, lookup_holderWrites]
  by_cases hmem : asset ∈ (balances.entries Runtime.assetKeyLe).map (·.1.1)
  · obtain ⟨e, he, hasset⟩ := List.mem_map.mp hmem
    have hne : holderChanges balances asset ≠ [] :=
      List.ne_nil_of_mem (List.mem_map_of_mem (List.mem_filter.mpr ⟨he, decide_eq_true hasset⟩))
    rw [if_pos hmem, if_neg hne]
    exact getD_lookup_holders (rows (.assetHolders asset)) fun indexed =>
      (holderChanges balances asset).foldl updateHolder (indexed.getD (scan rows asset))
  · have hnone : holderChanges balances asset = [] := by
      refine List.map_eq_nil_iff.mpr (List.filter_eq_nil_iff.mpr fun e he hown => ?_)
      exact hmem (List.mem_map.mpr ⟨e, he, of_decide_eq_true hown⟩)
    rw [if_neg hmem, if_pos hnone]
    rfl

/-- **The index rows of a commit are right**, if those before it were. -/
theorem indexed (hscan : ScansRows scan) (hrows : rows.Indexed) (hun : rows.Unscanned) :
    rows'.Indexed := by
  refine ⟨fun asset => ?_, fun owner => ?_, ?_⟩
  · by_cases hnone : holderChanges balances asset = []
    · have hsame : rows'.holders asset = rows.holders asset := by
        unfold Rows.holders
        rw [h.holders_row, if_pos hnone]
      rw [hsame]
      refine (hrows.holders asset).congr fun owner => ?_
      rw [h.balance_ne_zero_iff, hnone]
      simp
    · -- without a list there is nobody to list yet
      have hbase : Lists (Option.getD (α := List Address) (rows (.assetHolders asset)) (scan rows asset))
          fun owner => rows.balance asset owner ≠ 0 := by
        have hlisted := hrows.holders asset
        unfold Rows.holders at hlisted
        cases hrow : rows (.assetHolders asset) with
        | some holders =>
          rw [hrow] at hlisted
          exact hlisted
        | none =>
          have habsent : ∀ owner, rows (.assetBalance asset owner) = none := fun owner =>
            Option.not_isSome_iff_eq_none.mp (hun asset hrow owner)
          rw [hrow] at hlisted
          change Lists (scan rows asset) _
          rw [hscan rows asset habsent]
          exact hlisted
      have hafter : rows'.holders asset = (holderChanges balances asset).foldl updateHolder
          (Option.getD (α := List Address) (rows (.assetHolders asset)) (scan rows asset)) := by
        unfold Rows.holders
        rw [h.holders_row, if_neg hnone]
        rfl
      have hdistinct : (((holderChanges balances asset).map fun e => (e.1, decide (e.2 ≠ 0))).map
          Prod.fst).Nodup := by
        rw [List.map_map]
        exact nodup_holderChanges asset
      have hmarked := hbase.foldl_mark hdistinct
      rw [List.foldl_map] at hmarked
      rw [hafter, funext fun l => funext fun e => updateHolder_eq_mark l e]
      exact hmarked.congr fun owner => h.balance_ne_zero_iff.symm
  · rw [h.accountAssets_eq]
    refine (lists_addMissing (hrows.owned owner)).congr fun asset => ?_
    rw [h.touched_iff, Updates.get?_isSome_iff]
    simp only [List.mem_map, List.mem_filter, decide_eq_true_eq]
    refine or_congr_left ⟨?_, ?_⟩
    · rintro ⟨e, ⟨he, rfl⟩, rfl⟩
      have hget := Updates.mem_entries.mp (show (e.1, e.2) ∈ _ from he)
      exact List.mem_map.mp (Updates.get?_isSome_iff.mp (by rw [hget]; rfl))
    · intro hmem
      obtain ⟨n, hn⟩ := Option.isSome_iff_exists.mp
        (Updates.get?_isSome_iff.mpr (List.mem_map.mpr hmem))
      exact ⟨_, ⟨Updates.mem_entries.mpr hn, rfl⟩, rfl⟩
  · rw [h.assetRefs_eq]
    exact (lists_addMissing hrows.registered).congr fun asset => (h.record asset).symm

theorem unscanned (hun : rows.Unscanned) : rows'.Unscanned := by
  intro asset hrow owner
  rw [h.holders_row] at hrow
  split_ifs at hrow with hnone
  rw [h.touched_iff, not_or]
  refine ⟨fun hsome => ?_, hun asset hrow owner⟩
  obtain ⟨n, hn⟩ := Option.isSome_iff_exists.mp hsome
  exact List.ne_nil_of_mem (mem_holderChanges.mpr hn) hnone

end Rows.BroughtUp

end IndexWrites

/-! ## Commits -/

/-- Index rows are written as the index says. -/
theorem Categories.lookup_commitWrites_index (c : Categories) (height : Nat) (index : List RowWrite)
    {k : Key} (hk : ∀ w ∈ c.commitWrites height [], w.key ≠ k) :
    lookup (c.commitWrites height index) k = lookup index k := by
  simp only [commitWrites, List.append_nil, List.forall_mem_append] at hk
  obtain ⟨⟨⟨⟨⟨⟨⟨hbalance, hsnapshot⟩, hevidence⟩, hbls⟩, hasset⟩, hattestor⟩, hoperator⟩, hgovernance⟩ := hk
  simp only [commitWrites, lookup_append, lookup_eq_none hbalance, lookup_eq_none hsnapshot,
    lookup_eq_none hevidence, lookup_eq_none hbls, lookup_eq_none hasset, lookup_eq_none hattestor,
    lookup_eq_none hoperator, lookup_eq_none hgovernance, Option.none_or, Option.or_none]

theorem Key.writers_of_isIndexRow {k : Key} (hk : k.isIndexRow = true) : k.writers = [] := by
  revert hk
  cases k <;> simp [Key.isIndexRow, Key.writers]

section Commits

variable [Crypto] [Wire ActionPayload] [Zk] [StateTrie] [Decode] {env : NodeEnv} {params : ChainParams}
  {db db' : Db} {block : ChainBlock} {ex : Executed}

/-- **A committed block brings the index rows up.** -/
theorem Commits.broughtUp (h : Commits env params db block ex db') :
    db.state.rows.BroughtUp env.scan ex.categories.assetRegistrations ex.categories.assets
      db'.state.rows := by
  have hex := h.shaped
  have hpart : ∀ cat : Category, ∀ k : Key, k.isStateKey = true → k.writers = [cat] →
      db'.state.rows k = (lookup (ex.categories.part block.height cat) k).getD (db.state.rows k) := by
    intro cat k hk hcat
    rw [h.row_eq hk, hcat, byCategory, List.flatMap_singleton, hex.part_categories]
  refine ⟨fun asset owner => ?_, fun asset => ?_, fun k hk => ?_⟩
  · rw [hpart .assets _ rfl rfl]
    exact congrArg (Option.getD · _) (Rows.lookup_assetBalanceWrites ..)
  · rw [Rows.asset, hpart .assetRegistrations _ rfl rfl]
    change (Option.getD (lookup (ex.categories.assetRegistrations.map assetWrite) (.asset asset)) _).isSome
      = true ↔ _
    cases hlast : lookup (ex.categories.assetRegistrations.map assetWrite) (.asset asset) with
    | none =>
      have hnot : asset ∉ ex.categories.assetRegistrations.map (·.assetRef) := by
        intro hmem
        obtain ⟨a, ha, rfl⟩ := List.mem_map.mp hmem
        have := lookup_isSome (List.mem_map_of_mem (f := assetWrite) ha)
        rw [show (assetWrite a).key = .asset a.assetRef from rfl, hlast] at this
        cases this
      exact (or_iff_right hnot).symm
    | some row =>
      obtain ⟨a, ha, he⟩ := List.mem_map.mp (mem_of_lookup hlast)
      obtain ⟨hkey, hrow⟩ := Writes.Write.mk.inj he
      obtain rfl := Key.asset.inj hkey
      obtain rfl := eq_of_heq hrow
      exact iff_of_true rfl (.inl (List.mem_map_of_mem ha))
  · rw [h.written, Db.state_writeBlock, ChainState.rows_write, apply_apply, apply_apply, acceptedBatch,
      Categories.lookup_commitWrites_index]
    intro w hw he
    rcases hex.mem_commitWrites hw with hnil | ⟨cat, hcat, -⟩
    · cases hnil
    · rw [he, Key.writers_of_isIndexRow hk] at hcat
      cases hcat

/-! ## Runs -/

/-- Whatever writes to the database of a node with this scan, whenever it does. -/
inductive Db.StepWith (scan : Rows → AssetRef → List Address) (db : Db) : Db → Prop
  | accept {now : Nat} {block : ChainBlock} {db' : Db} (h : onBlock ⟨now, scan⟩ block db = .ok db') :
      StepWith scan db db'
  | produce {now : Nat} {actions : List ChainAction} {key : ProposerKey} {p : Produced} {db' : Db}
      (h : produceBlockReporting ⟨now, scan⟩ db actions (some key) = .ok (p, db')) : StepWith scan db db'
  | revert {height : Nat} {db' : Db} (h : db.revertTo height = .ok db') : StepWith scan db db'
  | finality (height : Nat) (hash : Bytes) : StepWith scan db (db.writeFinality height hash)
  | locks (locks : Nat → Option Bytes) : StepWith scan db { db with locks := locks }
  | certificate {c : RoundCertificate} (h : db.Certifies c) :
      StepWith scan db { db with certificates := c :: db.certificates }

/-- What a node's database can become, from a given one. -/
inductive Db.RunsWith (scan : Rows → AssetRef → List Address) (g : Db) : Db → Prop
  | start : RunsWith scan g g
  | step {db db' : Db} (h : RunsWith scan g db) (hstep : db.StepWith scan db') : RunsWith scan g db'

variable {scan : Rows → AssetRef → List Address} {I : ChainState → Prop} {g : Db}

/-- **The invariant rule**: what every committed block keeps holds wherever a node gets, unwinding
included. -/
theorem Db.Guards.stepWith (hcommit : ∀ {now params block ex} {db db' : Db},
      Commits ⟨now, scan⟩ params db block ex db' → I db.state → I db'.state)
    (h : db.Guards I) (hstep : db.StepWith scan db') : db'.Guards I := by
  cases hstep with
  | accept haccept =>
    obtain ⟨db₀, ex, hacc⟩ := acceptBlock_eq_ok.mp haccept
    obtain ⟨hunwinds, hcommits⟩ := hacc.commits
    have h₀ := h.unwind hunwinds
    exact h₀.commit hcommits (hcommit hcommits h₀.holds.holds)
  | produce hproduce =>
    obtain ⟨parent, genesis, ex, hbuilt⟩ := built_of_produce hproduce
    exact h.commit hbuilt.commits (hcommit hbuilt.commits h.holds.holds)
  | revert hrevert => exact h.unwind (.inr ⟨_, hrevert⟩)
  | finality height hash => exact h.idle rfl rfl (.inr ⟨_, rfl⟩)
  | locks locks => exact h.idle rfl rfl (.inl rfl)
  | certificate hc => exact h.idle rfl rfl (.inl rfl)

theorem Db.RunsWith.guards (hcommit : ∀ {now params block ex} {db db' : Db},
      Commits ⟨now, scan⟩ params db block ex db' → I db.state → I db'.state)
    (hg : g.IsGenesis) (hI : I g.state) (h : Db.RunsWith scan g db) : db.Guards I := by
  induction h with
  | start => exact hg.guards hI
  | step _ hstep ih => exact ih.stepWith hcommit hstep

/-- **Every list is there and right**, or not needed yet. -/
theorem Db.RunsWith.indexed (hg : g.IsGenesis) (hindexed : g.state.rows.Indexed)
    (hun : g.state.rows.Unscanned) (hscan : ScansRows scan) (h : Db.RunsWith scan g db) :
    db.state.rows.Indexed ∧ db.state.rows.Unscanned :=
  (h.guards (I := fun s => s.rows.Indexed ∧ s.rows.Unscanned)
    (fun hc hI => ⟨hc.broughtUp.indexed hscan hI.1 hI.2, hc.broughtUp.unscanned hI.2⟩) hg
    ⟨hindexed, hun⟩).holds.holds

/-- **Asset indexes follow balances.**  Wherever a node gets from a genesis whose index rows are right, by
accepting, producing and unwinding blocks, every asset's list names, once each, exactly those with some of
it; every account's list exactly the assets it has a balance row of, a row of zero included; and the list
of assets exactly the registered ones. -/
theorem asset_indexes_follow (hg : g.IsGenesis) (hindexed : g.state.rows.Indexed)
    (hun : g.state.rows.Unscanned) (hscan : ScansRows scan) (h : Db.RunsWith scan g db) :
    (∀ asset, (db.state.rows.holders asset).Nodup ∧
      ∀ owner, owner ∈ db.state.rows.holders asset ↔ db.state.rows.balance asset owner ≠ 0) ∧
    (∀ owner, (db.state.rows.accountAssets owner).Nodup ∧ ∀ asset,
      asset ∈ db.state.rows.accountAssets owner ↔
        (db.state.rows (.assetBalance asset owner)).isSome = true) ∧
    db.state.rows.assetRefs.Nodup ∧
      ∀ asset, asset ∈ db.state.rows.assetRefs ↔ (db.state.rows.asset asset).isSome = true := by
  obtain ⟨hright, -⟩ := h.indexed hg hindexed hun hscan
  exact ⟨fun asset => ⟨(hright.holders asset).nodup, (hright.holders asset).mem_iff⟩,
    fun owner => ⟨(hright.owned owner).nodup, (hright.owned owner).mem_iff⟩,
    hright.registered.nodup, hright.registered.mem_iff⟩

end Commits

/-! ## A block on a small ledger -/

namespace SmallLedger

open PlainChain

attribute [local instance] crypto wire Plain.zk Plain.trie Plain.decoders

/-- A genesis with one account. -/
def genesis : Db := PlainChain.db [put (.account (address 1)) { balance := 10, nonce := 0 }]

/-- All ten units go to the second account. -/
def sendAll : ChainAction := action 1 2 (.transferAsset bond (address 2) 10)

/-- The bond is registered, issued and sent on in one block. -/
def sentOn : ChainBlock := block 1 [register, issue, sendAll]

/-- Its issuer is listed as an owner of something it has none of. -/
def staleEntry (db : Db) : Bool :=
  db.state.rows.accountAssets (address 1) == [bond] && db.state.rows.balance bond (address 1) == 0

theorem genesis_indexed : genesis.state.rows.Indexed :=
  ⟨fun _ => lists_nil fun _ h => h rfl, fun _ => lists_nil fun _ h => Bool.false_ne_true h,
    lists_nil fun _ h => Bool.false_ne_true h⟩

theorem genesis_unscanned : genesis.state.rows.Unscanned := fun _ _ _ h => Bool.false_ne_true h

theorem scansRows_env : ScansRows env.scan := fun _ _ _ => rfl

set_option maxRecDepth 20000 in
/-- The block is accepted. -/
theorem sentOn_accepted : ∃ db, onBlock env sentOn genesis = .ok db ∧ staleEntry db = true := by
  have hstale : (onBlock env sentOn genesis).toOption.any staleEntry = true := by decide +kernel
  exact exists_ok_of_any hstale

/-- After the block the list of holders is the balances'. -/
theorem asset_indexes_follow_sentOn : ∃ db, onBlock env sentOn genesis = .ok db ∧
    address 1 ∉ db.state.rows.holders bond ∧ (db.state.rows.holders bond).Nodup := by
  obtain ⟨db, haccept, hstale⟩ := sentOn_accepted
  rw [staleEntry, Bool.and_eq_true, beq_iff_eq, beq_iff_eq] at hstale
  obtain ⟨hholders, -⟩ := asset_indexes_follow (isGenesis_db _) genesis_indexed genesis_unscanned
    scansRows_env (.step .start (.accept haccept))
  exact ⟨db, haccept, fun hmem => ((hholders bond).2 _).mp hmem hstale.2, (hholders bond).1⟩

/-- **An account keeps its entry.**  The issuer sent everything on and is still listed as an owner. -/
theorem owner_entry_kept : ∃ db, Db.RunsWith env.scan genesis db ∧
    genesis.IsGenesis ∧ genesis.state.rows.Indexed ∧
    bond ∈ db.state.rows.accountAssets (address 1) ∧ db.state.rows.balance bond (address 1) = 0 := by
  obtain ⟨db, haccept, hstale⟩ := sentOn_accepted
  rw [staleEntry, Bool.and_eq_true, beq_iff_eq, beq_iff_eq] at hstale
  refine ⟨db, .step .start (.accept haccept), isGenesis_db _, genesis_indexed, ?_, hstale.2⟩
  rw [hstale.1]
  exact List.mem_singleton_self bond

end SmallLedger

end Arxium
