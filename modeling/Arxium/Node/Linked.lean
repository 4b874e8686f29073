import Arxium.Network.Recovery
import Arxium.Node.Revert
import Arxium.Storage.Nodes

/-!
# Node/Linked — the tip's hash fixes the chain below it and the rows it left

However a node came to its blocks (it accepted them, produced them, took some back and went on), they are
one chain from its genesis, and the header of the tip has the root of a tree that holds the node's rows
(`ChainState.Linked`).  So a node's past and its state are a function of its tip:

* `tip_commits_to_rows` — every database a node reaches is linked.
* `same_tip_same_state` — two nodes with the same tip hold the same blocks and the same state rows.
* `final_prefix_stands` — what a certificate up to the height after the watermark is checked against never
  changes again, so such a certificate goes on verifying, or not.
* `round_certificates_verify` — the round certificates a node holds are about the chain it holds now.
-/

namespace Arxium

open ReadProg Writes Crypto SparseMerkle

/-- What is final on the first node stands on the second. -/
def Db.Stands (db db' : Db) : Prop :=
  db.watermark ≤ db'.watermark ∧ ∀ k ≤ db.watermark + 1, SameLookups k db.state db'.state

theorem Db.Stands.refl (db : Db) : db.Stands db := ⟨le_rfl, fun _ _ => .refl ..⟩

theorem Db.Stands.trans {db db' db'' : Db} (h : db.Stands db') (h' : db'.Stands db'') : db.Stands db'' :=
  ⟨h.1.trans h'.1, fun k hk => (h.2 k hk).trans (h'.2 k (hk.trans (Nat.succ_le_succ h.1)))⟩

section Linked

variable [Crypto] [Wire ActionPayload] [Zk] [StateTrie] [Decode]

/-- A header over its parent at a height. -/
structure LinksTo (parent block : ChainBlock) (height : Nat) : Prop where
  height : block.height = height + 1
  hash : parseHash block.parentHash = some parent.hash
  root : block.parentStateRoot = parent.stateRoot
  time : parent.height ≠ 0 → parent.timestamp < block.timestamp

/-- The blocks up to the tip are one chain, the tip's header has the root of the tree, and the tree holds
the rows of the keys in `U`. -/
structure ChainState.Linked (U : Set Key) (s : ChainState) : Prop where
  links : ∀ h < s.tip.getD 0, ∃ parent block, s.blocks h = some parent ∧ s.blocks (h + 1) = some block ∧
    LinksTo parent block h
  root : ∃ b, s.blocks (s.tip.getD 0) = some b ∧ b.stateRoot = hashText (stateRoot s.trie)
  mirrors : Mirrors U s.trie s.rows

/-- A node from a linked genesis on, whose blocks write keys in `U` only. -/
inductive Db.LinkedRun (U : Set Key) : Db → Prop
  | genesis {db : Db} (h : db.IsGenesis) (hs : db.state.Linked U) : LinkedRun U db
  | step {db db' : Db} (h : LinkedRun U db) (hstep : db.Step db')
      (hkeys : ∀ height, db'.writtenKeys height ⊆ U) : LinkedRun U db'

variable {U : Set Key} {env : NodeEnv} {params : ChainParams} {db db₀ db' : Db} {block parent : ChainBlock}
  {ex : Executed} {s : ChainState}

/-! ## One block -/

omit [Zk] [StateTrie] [Decode] in
theorem linksTo_of_checkParent {height : Nat} (hheight : block.height = height + 1)
    (h : checkParent block parent = .ok ()) (htime : parent.height ≠ 0 → parent.timestamp < block.timestamp) :
    LinksTo parent block height := by
  obtain ⟨_, hhash, h⟩ := bind_eq_ok.mp h
  obtain ⟨_, hroot, -⟩ := bind_eq_ok.mp h
  exact ⟨hheight, by simpa using rejectIf_eq_ok.mp hhash, by simpa using rejectIf_eq_ok.mp hroot, htime⟩

theorem Accepted.linksTo (h : Accepted env params block db db₀ ex db') :
    ∃ parent, db₀.state.blocks db₀.tipHeight = some parent ∧ LinksTo parent block db₀.tipHeight := by
  obtain ⟨parent, hheld, hparent, htime⟩ := h.parent
  refine ⟨parent, hheld, linksTo_of_checkParent h.commits.2.height hparent fun hne => ?_⟩
  rw [checkTime, if_neg hne] at htime
  obtain ⟨_, hmono, -⟩ := bind_eq_ok.mp htime
  simpa using rejectIf_eq_ok.mp hmono

theorem Built.linksTo {key : ProposerKey} {genesis : Bytes} (hcrypto : Crypto.Laws)
    (h : Built env db key block parent genesis ex db') : LinksTo parent block db.tipHeight := by
  refine linksTo_of_checkParent h.commits.height (h.checkParent hcrypto) fun _ => ?_
  rw [h.header]
  exact Nat.lt_of_lt_of_le (Nat.lt_succ_self _) (le_max_right _ _)

/-- The root previewed for a block is the root of the tree it leaves. -/
theorem Commits.computeStateRoot_eq (h : Commits env params db block ex db')
    (hpaths : Set.InjOn StateTrie.keyPath (db'.writtenKeys block.height)) :
    db.state.computeStateRoot (ex.categories.rootWrites block.height) =
      hashText (stateRoot db'.state.trie) := by
  obtain ⟨_, _, hran⟩ := h.ran
  obtain rfl := h.written
  have hwritten : ∀ w ∈ (acceptedBatch env db block ex).writes,
      w.key ∈ (db.writeBlock (acceptedBatch env db block ex)).writtenKeys block.height :=
    fun w hw => mem_writtenKeys_of_undoOf (Function.update_self ..) hw
  refine congrArg (hashText ∘ stateRoot) (writeLeaves_congr hpaths
    (fun w hw => hwritten w (Categories.mem_commitWrites_of_preview hw)) hwritten (fun k hk => ?_) _)
  rw [Categories.rootWrites_eq, hran.shaped.lookup_order, filter_rootOrder]
  exact (hran.shaped.lookup_commitWrites block.height
    (fun w hw => isStateKey_of_mem_assetIndexWrites _ _ hw) hk).symm

omit [Zk] [Decode] in
/-- **A batch keeps the chain linked**, if its block links to the tip and has the root it leaves. -/
theorem ChainState.Linked.write (hs : s.Linked U) (hU : Set.InjOn StateTrie.keyPath U) {b : Batch}
    (hheight : b.block.height = s.tip.getD 0 + 1) (hwrites : ∀ w ∈ b.writes, w.key ∈ U)
    (hlink : ∃ parent, s.blocks (s.tip.getD 0) = some parent ∧ LinksTo parent b.block (s.tip.getD 0))
    (hroot : b.block.stateRoot = hashText (stateRoot (s.write b).trie)) : (s.write b).Linked U := by
  have hblocks : (s.write b).blocks = Function.update s.blocks (s.tip.getD 0 + 1) (some b.block) := by
    rw [ChainState.blocks_write, hheight]
  have hself : (s.write b).blocks (s.tip.getD 0 + 1) = some b.block := by rw [hblocks, Function.update_self]
  have hbelow : ∀ n ≤ s.tip.getD 0, (s.write b).blocks n = s.blocks n := fun n hn => by
    rw [hblocks, Function.update_of_ne (by omega)]
  have htip : (s.write b).tip.getD 0 = s.tip.getD 0 + 1 := hheight
  refine ⟨fun n hn => ?_, ⟨b.block, htip ▸ hself, hroot⟩,
    mirrors_apply hU hs.mirrors hwrites⟩
  rw [htip] at hn
  rcases Nat.lt_succ_iff_lt_or_eq.mp hn with hlt | rfl
  · rw [hbelow n hlt.le, hbelow (n + 1) hlt]
    exact hs.links n hlt
  · obtain ⟨parent, hheld, hlinks⟩ := hlink
    exact ⟨parent, b.block, (hbelow _ le_rfl).trans hheld, hself, hlinks⟩

theorem Commits.linked (h : Commits env params db block ex db') (hU : Set.InjOn StateTrie.keyPath U)
    (hkeys : db'.writtenKeys block.height ⊆ U)
    (hlink : ∃ parent, db.state.blocks db.tipHeight = some parent ∧ LinksTo parent block db.tipHeight)
    (hroot : block.stateRoot = db.state.computeStateRoot (ex.categories.rootWrites block.height))
    (hs : db.state.Linked U) : db'.state.Linked U := by
  have hpreview := h.computeStateRoot_eq (hU.mono hkeys)
  obtain ⟨hheight, -, rfl⟩ := h
  exact hs.write hU hheight
    (fun w hw => hkeys (mem_writtenKeys_of_undoOf (Function.update_self ..) hw)) hlink (hroot.trans hpreview)

/-! ## A whole run -/

/-- **Along a run the log leads back over linked states**, whatever a step is. -/
theorem Db.LinkedRun.guards (hcrypto : Crypto.Laws) (hU : Set.InjOn StateTrie.keyPath U)
    (h : db.LinkedRun U) : db.Guards (ChainState.Linked U) := by
  induction h with
  | genesis hg hs => exact hg.guards hs
  | step _ hstep hkeys ih =>
    cases hstep with
    | accept haccept =>
      obtain ⟨db₀, ex, hacc⟩ := acceptBlock_eq_ok.mp haccept
      have hback := ih.unwind hacc.commits.1
      exact hback.commit hacc.commits.2
        (hacc.commits.2.linked hU (hkeys _) hacc.linksTo hacc.root hback.holds.holds)
    | produce hproduce =>
      obtain ⟨parent, genesis, ex, hbuilt⟩ := built_of_produce hproduce
      exact ih.commit hbuilt.commits (hbuilt.commits.linked hU (hkeys _)
        ⟨parent, hbuilt.held, hbuilt.linksTo hcrypto⟩ (hbuilt.root rfl (hU.mono (hkeys _))) ih.holds.holds)
    | revert hrevert => exact ih.unwind (.inr ⟨_, hrevert⟩)
    | finality height hash => exact ih.idle rfl rfl (.inr ⟨_, rfl⟩)
    | locks locks => exact ih.idle rfl rfl (.inl rfl)
    | certificate hc => exact ih.idle rfl rfl (.inl rfl)

/-- **The tip commits to the rows**: in every database a node reaches, the stored blocks are one chain, and
the tip's header has the root of a tree that holds the rows. -/
theorem tip_commits_to_rows (hcrypto : Crypto.Laws) (hU : Set.InjOn StateTrie.keyPath U)
    (h : db.LinkedRun U) : db.state.Linked U := (h.guards hcrypto hU).holds.holds

/-! ## Two nodes -/

omit [Crypto] [Wire ActionPayload] [Zk] [Decode] in
/-- Equal roots have equal contents. -/
theorem contents_eq_of_stateRoot (hhasher : StateTrie.hasher.Laws) {f g : Contents}
    (h : stateRoot f = stateRoot g) {p : List Bool} (hp : p.length = StateTrie.depth) : f p = g p := by
  rw [stateRoot, stateRoot, ← hp, rootOf_eq_climb] at h
  exact leafHash_inj hhasher (climb_eq_rootOf hhasher (length_siblings ..) h).1

omit [Zk] [StateTrie] [Decode] [Wire ActionPayload] in
theorem verifyFinalityRecord_congr {record : Sync.FinalityRecord}
    (h : SameLookups record.height db.state db'.state) :
    Sync.verifyFinalityRecord db' record = Sync.verifyFinalityRecord db record := by
  have hset := newestAt_congr fun k hk => h.sets k hk
  have hkey := fun a => newestAt_congr fun k hk => h.keys a k hk
  simp only [Sync.verifyFinalityRecord, Db.getValidatorSetAt, Db.getBlsPubkeyAt, Db.genesisHashBytes,
    hset, hkey, h.genesis]

omit [Zk] [Decode] in
theorem Db.Stands.unwind (hrounds : db.RoundsOk) (hu : db.Unwinds db') : db.Stands db' := by
  rcases hu with rfl | ⟨height, hrevert⟩
  · exact .refl db'
  rcases Db.revertTo_eq_ok hrevert with rfl | ⟨htip, hfloor, s, hs, rfl⟩
  · exact .refl db'
  · exact ⟨le_rfl, fun k hk => sameLookups_unwindTo hrounds.undo (Nat.sub_le ..) (by omega) hs⟩

theorem Db.Stands.commit {s₀ : ChainState} (hchain : db.OnChain s₀)
    (hc : Commits env params db block ex db') : db.Stands db' := by
  have hle : db.watermark ≤ db.tipHeight := hchain.floor_le
  refine ⟨?_, fun k hk => hc.sameLookups (by omega)⟩
  rw [hc.written]
  exact le_climb ..

/-- **One step leaves the final prefix standing.** -/
theorem Db.Reachable.stands (h : db.Reachable) (hstep : db.Step db') : db.Stands db' := by
  obtain ⟨g, -, hchain⟩ := h.chain
  rcases hstep.commits_or with ⟨_, _, _, _, db₀, hu, hc⟩ | hu | ⟨hstate, -, hmark⟩
  · exact (Db.Stands.unwind h.roundsOk hu).trans (.commit (hchain.unwind hu) hc)
  · exact .unwind h.roundsOk hu
  · refine ⟨?_, fun k _ => hstate ▸ .refl ..⟩
    rcases hmark with hmark | ⟨certified, hmark⟩
    · exact hmark.ge
    · exact hmark ▸ le_climb ..

/-- **What is final stays.**  Along any run of a node the watermark never falls, the blocks up to it stay,
and a finality record up to the height after it verifies as it did. -/
theorem final_prefix_stands (h : db.Reachable) (hrun : Relation.ReflTransGen Db.Step db db') :
    db.watermark ≤ db'.watermark ∧ (∀ k ≤ db.watermark, db'.state.blocks k = db.state.blocks k) ∧
      ∀ record : Sync.FinalityRecord, record.height ≤ db.watermark + 1 →
        Sync.verifyFinalityRecord db' record = Sync.verifyFinalityRecord db record := by
  have hall : db'.Reachable ∧ db.Stands db' := by
    induction hrun with
    | refl => exact ⟨h, .refl db⟩
    | tail _ hstep ih => exact ⟨ih.1.step hstep, ih.2.trans (ih.1.stands hstep)⟩
  obtain ⟨-, hmark, hsame⟩ := hall
  refine ⟨hmark, fun k hk => ?_, fun record hle => verifyFinalityRecord_congr (hsame _ hle)⟩
  exact (hsame (k + 1) (Nat.succ_le_succ hk)).parent

/-- **Round certificates go on verifying**: every one a node holds verifies on the chain it has now. -/
theorem round_certificates_verify (h : db.Reachable) :
    ∀ c ∈ db.certificates, db.Certifies c ∧ c.height ≤ db.tipHeight + 1 := h.roundsOk.certified

end Linked

/-! ## One block on a small chain -/

namespace OneTip

open PlainChain Solo

attribute [local instance] crypto wire Plain.zk Plain.decoders

attribute [local instance] Plain.trie in
/-- The genesis block outlives a certificate and the block after it. -/
theorem final_prefix_stands_one : ∃ db', onBlock env (block 1 []) certified = .ok db' ∧
    db'.state.blocks 0 = (db []).state.blocks 0 := by
  obtain ⟨db', haccept⟩ := exists_ok_of_isOk accepts_certified
  have hrun : Relation.ReflTransGen Db.Step (db []) db' :=
    (Relation.ReflTransGen.single (.finality 1 _)).tail (.accept haccept)
  exact ⟨db', haccept, (final_prefix_stands (.genesis (isGenesis_db [])) hrun).2.1 0 le_rfl⟩

/-- The small chain's validator with a key, and its certificate for the first round after genesis. -/
def voted : Db := { db [] with state := { (db []).state with blsHistory := fun _ => some [] } }

def vote : RoundCertificate := ⟨1, 0, [proposer], []⟩

attribute [local instance] Plain.trie in
theorem round_certificates_verify_one : ∃ db' : Db, vote ∈ db'.certificates ∧
    ∀ c ∈ db'.certificates, db'.Certifies c ∧ c.height ≤ db'.tipHeight + 1 := by
  have hcertifies : voted.Certifies vote := ⟨genesisBlock, rfl, by decide +kernel⟩
  have hgenesis : voted.IsGenesis := ⟨rfl, fun h hh => if_neg (by omega), fun _ => rfl, fun _ => rfl, fun _ => rfl, rfl, rfl⟩
  exact ⟨_, List.mem_cons_self, round_certificates_verify (.step (.genesis hgenesis) (.certificate hcertifies))⟩

/-- Two levels, with the accounts a sealed block writes at leaves of their own. -/
@[reducible] def tree : StateTrie :=
  { Plain.trie with
    depth := 2
    hasher := SmallTree.hasher
    keyPath := fun
      | .account a => [decide (a = proposer), decide (a = treasuryAccount)]
      | _ => [true, true] }

attribute [local instance] tree

def keys : Set Key := {k | k ∈ sealedKeys}

/-- The small chain's genesis, its block with the root of this tree. -/
def start : Db :=
  { db [] with
    state := { (db []).state with
      blocks := fun h => if h = 0 then
        some { genesisBlock with stateRoot := hashText (stateRoot (db []).state.trie) } else none } }

theorem linked_start : start.state.Linked keys where
  links h hh := absurd hh (Nat.not_lt_zero h)
  root := ⟨_, rfl, rfl⟩
  mirrors := by
    have hnone : ∀ k ∈ sealedKeys, (start.state.rows k).isNone = true := by decide +kernel
    intro k hk _
    rw [Option.isNone_iff_eq_none.mp (hnone k hk)]
    rfl

set_option maxRecDepth 20000 in
theorem produces : (match produceBlockReporting env start [] (some key) with
    | .ok (p, db') => decide (p.block.height = 1 ∧
        (db'.undo 1).map (fun u => (u.rows : List RowWrite).map (·.key)) = some sealedKeys)
    | .error _ => false) = true := by decide +kernel

theorem injOn_keys : Set.InjOn StateTrie.keyPath keys := by
  have hlist : ∀ k ∈ sealedKeys, ∀ k' ∈ sealedKeys,
      StateTrie.keyPath k = StateTrie.keyPath k' → k = k' := by decide +kernel
  exact fun k hk k' hk' he => hlist k hk k' hk' he

/-- The node after the block it produced. -/
theorem linkedRun : ∃ db', Db.LinkedRun keys db' ∧ db'.tipHeight = 1 := by
  have hproduces := produces
  cases h : produceBlockReporting env start [] (some key) with
  | error e => rw [h] at hproduces; cases hproduces
  | ok r =>
    obtain ⟨p, db'⟩ := r
    rw [h] at hproduces
    obtain ⟨hheight, hkeys⟩ := of_decide_eq_true hproduces
    obtain ⟨parent, genesis, ex, hbuilt⟩ := built_of_produce h
    have hgenesis : start.IsGenesis :=
      ⟨rfl, fun h hh => if_neg (by omega), fun _ => rfl, fun _ => rfl, fun _ => rfl, rfl, rfl⟩
    refine ⟨db', .step (.genesis hgenesis linked_start) (.produce h) fun n => ?_, ?_⟩
    · rintro k ⟨u, hu, w, hw, rfl⟩
      by_cases hn : n = 1
      · rw [hn] at hu
        rw [hu] at hkeys
        change w.key ∈ sealedKeys
        rw [← Option.some.inj hkeys]
        exact List.mem_map_of_mem hw
      · rw [hbuilt.written, Db.undo_writeBlock, Function.update_of_ne (by rwa [← hheight] at hn)] at hu
        cases hu
    · rw [hbuilt.written, Db.tipHeight_writeBlock]
      exact hheight

/-- Its tip's header has the root of a tree that holds its accounts. -/
theorem tip_commits_to_rows_one : ∃ db', Db.LinkedRun keys db' ∧ db'.tipHeight = 1 ∧ db'.state.Linked keys := by
  obtain ⟨db', hrun, htip⟩ := linkedRun
  exact ⟨db', hrun, htip, tip_commits_to_rows (Plain.crypto_laws _) injOn_keys hrun⟩

end OneTip

end Arxium
