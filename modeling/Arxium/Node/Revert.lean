import Arxium.Node.Agreement
import Arxium.Node.Watermark

/-!
# Node/Revert — taking blocks back, and accepting them again

An accepted block is written together with the prior value of everything it overwrites, so taking it
back restores what was there, row by row.  `Db.Recorded` runs a node through blocks, certificates, votes
and reverts and remembers the state right after every block of its chain; a revert down to the watermark
succeeds and ends in the remembered state (`Db.Records.revertTo_eq`).

Accepting the same blocks once more writes the same batches.  What may refuse one of them is what a revert
keeps on purpose: a certificate, or at the next height a lock or a certified round.
-/

namespace Arxium

open ReadProg Writes Crypto

section Root

variable [Crypto] [Wire ActionPayload] [Zk] [StateTrie] [Decode] {env : NodeEnv} {params : ChainParams}
  {block : ChainBlock} {db db₀ db' : Db} {ex : Executed}

/-! ## The root of a committed block -/

omit [Crypto] [Wire ActionPayload] [Zk] [StateTrie] [Decode] in
theorem filter_rootOrder (k : Key) : rootOrder.filter (· ∈ k.writers) = k.writers := by
  cases k <;> rfl

omit [Crypto] [Wire ActionPayload] [Zk] [StateTrie] [Decode] in
/-- What the preview shows is part of what the commit writes. -/
theorem Categories.mem_commitWrites_of_preview {c : Categories} {height : Nat} {index : List RowWrite}
    {w : RowWrite} (hw : w ∈ c.rootWrites height) : w ∈ c.commitWrites height index := by
  simp only [Categories.rootWrites, Categories.commitWrites, List.mem_append] at hw ⊢
  tauto

omit [Crypto] [Wire ActionPayload] [Zk] [StateTrie] [Decode] in
theorem mem_writtenKeys_of_undoOf {height : Nat} {s : ChainState} {b : Batch} {w : RowWrite}
    (hundo : db.undo height = some (s.undoOf b)) (hw : w ∈ b.writes) : w.key ∈ db.writtenKeys height :=
  ⟨_, hundo, ⟨w.key, s.rows w.key⟩, List.mem_map.mpr ⟨w, hw, rfl⟩, rfl⟩

/-- **The root in the header is the root of the tree that is committed.** -/
theorem Accepted.stateRoot_eq (h : Accepted env params block db db₀ ex db')
    (hpaths : Set.InjOn StateTrie.keyPath (db'.writtenKeys block.height)) :
    block.stateRoot = hashText (stateRoot db'.state.trie) := by
  obtain ⟨genesis, proposer, hran⟩ := executeBlock_eq_ok.mp h.executed
  have hindex : ∀ w ∈ assetIndexWrites env.scan db₀.state.rows ex.categories.assetRegistrations
      ex.categories.assets, w.key.isStateKey = false :=
    fun w hw => isStateKey_of_mem_assetIndexWrites _ _ hw
  have hundo : db'.undo block.height = some (db₀.state.undoOf (acceptedBatch env db₀ block ex)) := by
    rw [h.committed, Db.undo_writeBlock]
    exact Function.update_self ..
  have hwrites : (acceptedBatch env db₀ block ex).writes = ex.categories.commitWrites block.height
      (assetIndexWrites env.scan db₀.state.rows ex.categories.assetRegistrations ex.categories.assets) := by
    rw [acceptedBatch]
  have hwritten : ∀ w ∈ (acceptedBatch env db₀ block ex).writes, w.key ∈ db'.writtenKeys block.height :=
    fun w hw => mem_writtenKeys_of_undoOf hundo hw
  have htrie : writeLeaves (ex.categories.rootWrites block.height) db₀.state.trie =
      writeLeaves (acceptedBatch env db₀ block ex).writes db₀.state.trie := by
    rw [hwrites] at hwritten ⊢
    refine writeLeaves_congr hpaths
      (fun w hw => hwritten w (Categories.mem_commitWrites_of_preview hw)) hwritten (fun k hk => ?_) _
    rw [Categories.rootWrites_eq, hran.shaped.lookup_order, filter_rootOrder]
    exact (hran.shaped.lookup_commitWrites block.height hindex hk).symm
  rw [h.root, ChainState.computeStateRoot, htrie, h.committed, Db.state_writeBlock,
    ChainState.write]

/-! ## Accepting a block again -/

/-- A call of `accept_block`. -/
structure Call where
  env : NodeEnv
  params : ChainParams
  block : ChainBlock

/-- The same node, later. -/
structure Call.Later (c : Call) (env : NodeEnv) : Prop where
  scan : env.scan = c.env.scan
  now : c.env.now ≤ env.now

/-- On any database with this state only the gates decide, and what passes writes this batch. -/
def Call.Replays (c : Call) (s : ChainState) (b : Batch) : Prop :=
  ∀ (db : Db) (env : NodeEnv), db.state = s → c.Later env → acceptBlock env c.params c.block db =
    checkGates db c.block >>= fun _ => .ok (db.writeBlock b)

omit [Zk] [StateTrie] [Decode] in
theorem checkGates_eq_ok : checkGates db block = .ok () ↔
    block.height = db.tipHeight + 1 ∧ db.Admits block := by
  unfold checkGates Db.Admits
  rw [bind_eq_ok]
  simp only [rejectIf_eq_ok, exists_const]
  cases db.finality block.height with
  | some certified => simp [rejectIf_eq_ok]
  | none => cases db.locks block.height <;> simp [rejectIf_eq_ok]

omit [Wire ActionPayload] [Zk] [StateTrie] [Decode] in
/-- The set and the keys are those of the state. -/
theorem checkProposer_of_state (h : db'.state = db.state) :
    checkProposer db' block = checkProposer db block := by
  have hsame : SameLookups block.height db.state db'.state := h ▸ .refl ..
  have hverify : ∀ cert set, verifyRoundCertificate db' cert block.height block.round block.parentHash set =
      verifyRoundCertificate db cert block.height block.round block.parentHash set := by
    intro cert set
    simp only [verifyRoundCertificate, signerKeys_congr hsame, Db.genesisHashBytes_of_state h]
  unfold checkProposer checkRound
  rw [Db.getValidatorSetAt_of_state h]
  simp only [hverify]

omit [Crypto] [Wire ActionPayload] [Zk] [StateTrie] [Decode] in
/-- A time that was not too far ahead is not later on. -/
theorem checkTime_later {parent : ChainBlock} {later : NodeEnv} (hnow : env.now ≤ later.now)
    (h : checkTime env block parent = .ok ()) : checkTime later block parent = .ok () := by
  have hle : saturatingAdd64 env.now maxFutureDriftSecs ≤ saturatingAdd64 later.now maxFutureDriftSecs := by
    unfold saturatingAdd64
    omega
  unfold checkTime at h ⊢
  split
  · rfl
  · rename_i hparent
    rw [if_neg hparent] at h
    obtain ⟨_, hmono, h⟩ := bind_eq_ok.mp h
    refine bind_eq_ok.mpr ⟨_, hmono, rejectIf_eq_ok.mpr ?_⟩
    have hdrift := rejectIf_eq_ok.mp h
    simp only [decide_eq_false_iff_not] at hdrift ⊢
    omega

/-- **A block that was accepted is accepted again**, wherever the gates let it. -/
theorem Accepted.replays (h : Accepted env params block db db₀ ex db')
    (htip : db₀.state.tip = some db₀.tipHeight)
    (hgenesis : db.state.rows .genesisHash = db₀.state.rows .genesisHash) :
    Call.Replays ⟨env, params, block⟩ db₀.state (acceptedBatch env db₀ block ex) := by
  intro d later hd hlater
  have hheight := (checkGates_eq_ok.mp h.gates).1
  have hsigned : checkSigned d block = .ok () := by
    have hbytes : d.genesisHashBytes = db.genesisHashBytes := by
      rw [Db.genesisHashBytes, Db.genesisHashBytes, hd, hgenesis]
    have hdb := h.signed
    unfold checkSigned at hdb ⊢
    rwa [hbytes]
  have hsuper : supersedeDeadTip d block = .ok d :=
    supersedeDeadTip_eq_self (hd ▸ htip) (by omega)
  cases hgates : checkGates d block with
  | error e =>
    unfold acceptBlock
    rw [hsigned]
    change (supersedeDeadTip d block >>= _) = _
    rw [hsuper]
    change (checkGates d block >>= _) = _
    rw [hgates]
    rfl
  | ok u =>
    have hbatch : acceptedBatch later d block ex = acceptedBatch env db₀ block ex := by
      rw [acceptedBatch, acceptedBatch, hd, hlater.scan]
    refine acceptBlock_eq_ok.mpr ⟨d, ex, hsigned, hsuper, hgates, ?_, ?_, ?_, ?_, ?_⟩
    · obtain ⟨parent, hparent, hheader, htime⟩ := h.parent
      rw [Db.tipHeight, ← hd] at hparent
      exact ⟨parent, hparent, hheader, checkTime_later hlater.now htime⟩
    · rw [checkProposer_of_state hd, Db.getValidatorSetAt_of_state hd]
      exact h.proposer
    · obtain ⟨genesis, proposer, hran⟩ := executeBlock_eq_ok.mp h.executed
      obtain ⟨state, undo, finality, locks, certificates, watermark, votes, dissents⟩ := d
      obtain rfl : state = db₀.state := hd
      exact executeBlock_eq_ok.mpr ⟨genesis, proposer, hran.genesisHash, hran.proposedBy, hran.seed,
        hran.lands, hran.sealed⟩
    · rw [hd]
      exact h.root
    · rw [hbatch]

end Root

/-! ## A node that remembers -/

section Recorded

variable [Crypto] [Wire ActionPayload] [Zk] [StateTrie] [Decode]

/-- A node from its genesis on, with the calls that brought the blocks of its chain and the states they
left.  Besides blocks it stores certificates and, in any way, locks, certified rounds, votes and
dissents. -/
inductive Db.Recorded (g : Db) : (Nat → Call) → (Nat → ChainState) → Db → Prop
  | start (calls : Nat → Call) : Recorded g calls (fun _ => g.state) g
  | accept {calls : Nat → Call} {states : Nat → ChainState} {env : NodeEnv} {params : ChainParams}
      {block : ChainBlock} {db db' : Db} (h : Recorded g calls states db)
      (haccept : acceptBlock env params block db = .ok db')
      (hpaths : Set.InjOn StateTrie.keyPath (db'.writtenKeys block.height)) :
      Recorded g (Function.update calls block.height ⟨env, params, block⟩)
        (Function.update states block.height db'.state) db'
  | certificate {calls : Nat → Call} {states : Nat → ChainState} {db : Db} (h : Recorded g calls states db)
      (height : Nat) (hash : Bytes) : Recorded g calls states (db.writeFinality height hash)
  | notes {calls : Nat → Call} {states : Nat → ChainState} {db : Db} (h : Recorded g calls states db)
      (locks : Nat → Option Bytes) (certificates : List RoundCertificate)
      (votes : VoteKey → Option Bytes) (dissents : Nat → Address → Option Bytes) :
      Recorded g calls states
        { db with locks := locks, certificates := certificates, votes := votes, dissents := dissents }
  | revert {calls : Nat → Call} {states : Nat → ChainState} {height : Nat} {db db' : Db}
      (h : Recorded g calls states db) (hrevert : db.revertTo height = .ok db') :
      Recorded g calls states db'

/-- The batch that led from one height to the next, and how to come back and go there again. -/
structure Db.Entry (calls : Nat → Call) (states : Nat → ChainState) (db : Db) (k : Nat) (b : Batch) :
    Prop where
  height : b.block.height = k + 1
  called : (calls (k + 1)).block.height = k + 1
  written : (states k).write b = states (k + 1)
  undo : db.undo (k + 1) = some ((states k).undoOf b)
  replays : (calls (k + 1)).Replays (states k) b

/-- **What the node remembers is true of its chain.** -/
structure Db.Records (s₀ : ChainState) (calls : Nat → Call) (states : Nat → ChainState) (db : Db) :
    Prop where
  stacked : db.Stacked
  last : states db.tipHeight = db.state
  tips : ∀ k ≤ db.tipHeight, (states k).tip = some k
  genesis : ∀ k ≤ db.tipHeight, (states k).rows .genesisHash = s₀.rows .genesisHash
  rooted : ∀ k ≤ db.tipHeight, ∃ b, db.state.blocks k = some b ∧
    b.stateRoot = hashText (stateRoot (states k).trie)
  entries : ∀ k < db.tipHeight, ∃ b, db.Entry calls states k b
  passed : ∀ k, 0 < k → k ≤ db.watermark → (db.finality k).isSome = true
  /-- The watermark waits for the next write at most. -/
  lag : db.watermark + 1 < db.tipHeight → ¬ db.Agrees (db.watermark + 1)

variable {s₀ : ChainState} {g db db₀ db' : Db} {calls : Nat → Call} {states : Nat → ChainState} {env : NodeEnv}
  {params : ChainParams} {block : ChainBlock} {ex : Executed} {height : Nat}

/-! ## Going back -/

theorem Db.Records.unwindTo (h : db.Records s₀ calls states) {n : Nat} (hn : n ≤ db.tipHeight) :
    UndoLog.unwindTo Undo.apply db.undo (db.tipHeight - n) db.tipHeight db.state = some (states n) := by
  rw [← h.last]
  refine UndoLog.unwindTo_states hn fun k _ hk => ?_
  obtain ⟨b, hb⟩ := h.entries k hk
  refine ⟨_, hb.undo, ?_⟩
  rw [← hb.written]
  exact ChainState.undo_write ..

/-- An earlier state holds the blocks up to its height. -/
theorem Db.Records.blocks_states (h : db.Records s₀ calls states) {n : Nat} (hn : n ≤ db.tipHeight)
    (k : Nat) : (states n).blocks k = if k ≤ n then db.state.blocks k else none := by
  have hblocks := (blocks_unwindTo h.stacked.undo (Nat.sub_le _ _) (h.unwindTo hn)).1 k
  rw [show db.tipHeight - (db.tipHeight - n) = n by omega] at hblocks
  rw [hblocks]
  by_cases hk : k ≤ n
  · rw [if_pos hk, if_neg (by omega)]
  · rw [if_neg hk]
    split
    · rfl
    · exact h.stacked.above k (by omega)

/-- **A revert above the watermark ends in the remembered state.** -/
theorem Db.Records.revertTo_eq (h : db.Records s₀ calls states) (hfloor : db.watermark ≤ height)
    (hlt : height < db.tipHeight) : db.revertTo height = .ok (db.unwound height (states height)) := by
  obtain ⟨b, hb, hroot⟩ := h.rooted height hlt.le
  unfold Db.revertTo
  rw [if_neg (by omega), if_neg (by omega), hb, h.unwindTo hlt.le]
  exact if_neg (not_not_intro hroot.symm)

/-! ## What the node's writes keep -/

theorem Db.Records.revert (h : db.Records s₀ calls states) (hrevert : db.revertTo height = .ok db') :
    db'.Records s₀ calls states := by
  have hstacked := (h.stacked.revert hrevert).1
  rcases Db.revertTo_eq_ok hrevert with rfl | ⟨hlt, hfloor, -⟩
  · exact h
  obtain rfl := Except.ok.inj ((h.revertTo_eq hfloor hlt).symm.trans hrevert)
  have htip : (db.unwound height (states height)).tipHeight = height := by
    rw [Db.tipHeight, Db.unwound, h.tips height hlt.le, Option.getD_some]
  have hblocks : ∀ k ≤ height, (states height).blocks k = db.state.blocks k := fun k hk => by
    rw [h.blocks_states hlt.le, if_pos hk]
  refine ⟨hstacked, ?_, fun k hk => ?_, fun k hk => ?_, fun k hk => ?_, fun k hk => ?_, h.passed,
    fun hk => ?_⟩
  · rw [htip]
    rfl
  · exact h.tips k (by omega)
  · exact h.genesis k (by omega)
  · rw [htip] at hk
    change ∃ b, (states height).blocks k = some b ∧ _
    rw [hblocks k hk]
    exact h.rooted k (by omega)
  · rw [htip] at hk
    obtain ⟨b, hb⟩ := h.entries k (by omega)
    exact ⟨b, hb.height, hb.called, hb.written, (if_neg (by omega)).trans hb.undo, hb.replays⟩
  · rw [htip] at hk
    change db.watermark + 1 < height at hk
    rintro ⟨b, hb, hcert⟩
    exact h.lag (by omega) ⟨b, (hblocks _ hk.le).symm.trans hb, hcert⟩

theorem Db.Records.certificate (h : db.Records s₀ calls states) (height : Nat) (hash : Bytes) :
    (db.writeFinality height hash).Records s₀ calls states where
  stacked := by
    have hfits : (Db.Op.certificate height hash).Fits db := trivial
    exact h.stacked.perform hfits
  last := h.last
  tips := h.tips
  genesis := h.genesis
  rooted := h.rooted
  entries k hk := by
    obtain ⟨b, hb⟩ := h.entries k hk
    exact ⟨b, hb.height, hb.called, hb.written, hb.undo, hb.replays⟩
  passed k hpos hk := by
    rcases Nat.lt_or_ge db.watermark k with hlt | hle
    · obtain ⟨c, -, hcert⟩ := certified_of_le_climb hlt hk
      exact Option.isSome_iff_exists.mpr ⟨_, hcert⟩
    · have hfits : db.Stacked := h.stacked
      exact hfits.finality_isSome (.certificate height hash) (h.passed k hpos hle)
  lag _ := not_certified_climb h.stacked.above (by omega)

theorem Db.Records.notes (h : db.Records s₀ calls states) (locks : Nat → Option Bytes)
    (certificates : List RoundCertificate) (votes : VoteKey → Option Bytes)
    (dissents : Nat → Address → Option Bytes) :
    Db.Records s₀ calls states
      { db with locks := locks, certificates := certificates, votes := votes, dissents := dissents } where
  stacked := ⟨h.stacked.tip, h.stacked.above, h.stacked.undo, h.stacked.floor⟩
  last := h.last
  tips := h.tips
  genesis := h.genesis
  rooted := h.rooted
  entries k hk := by
    obtain ⟨b, hb⟩ := h.entries k hk
    exact ⟨b, hb.height, hb.called, hb.written, hb.undo, hb.replays⟩
  passed := h.passed
  lag := h.lag

/-- An accepted block runs on a database that remembers as much. -/
theorem Db.Records.unwinds (h : db.Records s₀ calls states) (hu : db.Unwinds db') :
    db'.Records s₀ calls states := by
  obtain rfl | ⟨height, hrevert⟩ := hu
  · exact h
  · exact h.revert hrevert

theorem Db.Records.genesis_eq (h : db.Records s₀ calls states) :
    db.state.rows .genesisHash = s₀.rows .genesisHash := h.last ▸ h.genesis _ le_rfl

theorem Db.Records.accept (h : db.Records s₀ calls states)
    (hacc : Accepted env params block db db₀ ex db')
    (hpaths : Set.InjOn StateTrie.keyPath (db'.writtenKeys block.height)) :
    db'.Records s₀ (Function.update calls block.height ⟨env, params, block⟩)
      (Function.update states block.height db'.state) := by
  obtain ⟨hunwinds, hcommits⟩ := hacc.commits
  have h₀ := h.unwinds hunwinds
  have hheight : block.height = db₀.tipHeight + 1 := hcommits.height
  have hreplays := hacc.replays h₀.stacked.tip (h.genesis_eq.trans h₀.genesis_eq.symm)
  have hroot := hacc.stateRoot_eq hpaths
  have hgenesis : db'.state.rows .genesisHash = db₀.state.rows .genesisHash := by
    rw [hacc.committed, Db.state_writeBlock, ChainState.rows_write]
    exact apply_of_not_mem hcommits.above.genesis _
  have hcommitted := hacc.committed
  generalize hb : acceptedBatch env db₀ block ex = b at hreplays hcommitted
  have hblock : b.block = block := hb ▸ rfl
  subst hcommitted
  have htip : (db₀.writeBlock b).tipHeight = db₀.tipHeight + 1 := by
    rw [Db.tipHeight_writeBlock, hblock, hheight]
  have hnew : ∀ {α : Type} (f : Nat → α) (x : α) {k : Nat}, k ≤ db₀.tipHeight →
      Function.update f block.height x k = f k := fun f x k hk => Function.update_of_ne (by omega) ..
  have hold : ∀ {k : Nat}, k ≤ db₀.tipHeight → (db₀.writeBlock b).state.blocks k = db₀.state.blocks k :=
    fun hk => by rw [Db.state_writeBlock, ChainState.blocks_write, hblock, hnew _ _ hk]
  have hpassed : ∀ k, 0 < k → k ≤ (db₀.writeBlock b).watermark → (db₀.finality k).isSome = true := by
    intro k hpos hk
    rcases Nat.lt_or_ge db₀.watermark k with hlt | hle
    · obtain ⟨c, -, hcert⟩ := certified_of_le_climb hlt hk
      exact Option.isSome_iff_exists.mpr ⟨_, hcert⟩
    · exact h₀.passed k hpos hle
  have hfits : (Db.Op.block b).Fits db₀ := (congrArg Block.height hblock).trans hheight
  refine ⟨h₀.stacked.perform hfits, ?_, fun k hk => ?_, fun k hk => ?_,
    fun k hk => ?_, fun k hk => ?_, hpassed, fun hk => ?_⟩
  · rw [htip, ← hheight, Function.update_self]
  all_goals rw [htip] at hk
  · rcases Nat.lt_or_eq_of_le hk with hlt | rfl
    · rw [hnew _ _ (Nat.le_of_lt_succ hlt)]
      exact h₀.tips k (Nat.le_of_lt_succ hlt)
    · rw [← hheight, Function.update_self, Db.state_writeBlock, ChainState.tip_write, hblock]
  · rcases Nat.lt_or_eq_of_le hk with hlt | rfl
    · rw [hnew _ _ (Nat.le_of_lt_succ hlt)]
      exact h₀.genesis k (Nat.le_of_lt_succ hlt)
    · rw [← hheight, Function.update_self]
      exact hgenesis.trans h₀.genesis_eq
  · rcases Nat.lt_or_eq_of_le hk with hlt | rfl
    · rw [hnew _ _ (Nat.le_of_lt_succ hlt), hold (Nat.le_of_lt_succ hlt)]
      exact h₀.rooted k (Nat.le_of_lt_succ hlt)
    · refine ⟨block, ?_, ?_⟩
      · rw [Db.state_writeBlock, ChainState.blocks_write, hblock, ← hheight, Function.update_self]
      · rw [← hheight, Function.update_self]
        exact hroot
  · rcases Nat.lt_or_eq_of_le (Nat.le_of_lt_succ hk) with hlt | rfl
    · obtain ⟨e, he⟩ := h₀.entries k hlt
      refine ⟨e, he.height, ?_, ?_, ?_, ?_⟩
      · rw [hnew _ _ hlt]
        exact he.called
      · rw [hnew _ _ hlt, hnew _ _ hlt.le]
        exact he.written
      · rw [Db.undo_writeBlock, hblock, hnew _ _ hlt, hnew _ _ hlt.le]
        exact he.undo
      · rw [hnew _ _ hlt, hnew _ _ hlt.le]
        exact he.replays
    · refine ⟨b, hblock ▸ hheight, ?_, ?_, ?_, ?_⟩
      · rw [← hheight, Function.update_self]
      · rw [← hheight, Function.update_self, hnew _ _ le_rfl, h₀.last, Db.state_writeBlock]
      · rw [Db.undo_writeBlock, hblock, ← hheight, Function.update_self, hnew _ _ le_rfl, h₀.last]
      · rw [← hheight, Function.update_self, hnew _ _ le_rfl, h₀.last]
        exact hreplays
  · have hmark : (db₀.writeBlock b).watermark + 1 ≤ db₀.tipHeight := by omega
    rintro ⟨c, hc, hcert⟩
    rw [hold hmark] at hc
    exact not_certified_climb h₀.stacked.above (by omega) ⟨c, hc, hcert⟩

/-- **A node's memory is right.** -/
theorem Db.Recorded.records (hg : g.IsGenesis)
    (hroot : ∃ b, g.state.blocks 0 = some b ∧ b.stateRoot = hashText (stateRoot g.state.trie))
    (h : Db.Recorded g calls states db) : db.Records g.state calls states := by
  induction h with
  | start calls =>
    have htip : g.tipHeight = 0 := by rw [Db.tipHeight, hg.tip, Option.getD_some]
    refine ⟨hg.stacked, rfl, fun k hk => ?_, fun _ _ => rfl, fun k hk => ?_, fun k hk => ?_,
      fun k hpos hk => absurd (hg.watermark ▸ hk) (Nat.not_le_of_lt hpos), fun hk => ?_⟩
    all_goals rw [htip] at hk
    · rw [hg.tip, Nat.le_zero.mp hk]
    · rw [Nat.le_zero.mp hk]
      exact hroot
    · omega
    · omega
  | accept _ haccept hpaths ih =>
    obtain ⟨db₀, ex, hacc⟩ := acceptBlock_eq_ok.mp haccept
    exact ih.accept hacc hpaths
  | certificate _ height hash ih => exact ih.certificate height hash
  | notes _ locks certificates votes dissents ih => exact ih.notes locks certificates votes dissents
  | revert _ hrevert ih => exact ih.revert hrevert

/-! ## Going there again -/

/-- Offers the blocks above a height once more. -/
def reaccept (envs : Nat → NodeEnv) (calls : Nat → Call) : Nat → Nat → Db → Except AcceptBlockError Db
  | 0, _, db => .ok db
  | count + 1, height, db => do
    let db ← acceptBlock (envs (height + 1)) (calls (height + 1)).params (calls (height + 1)).block db
    reaccept envs calls count (height + 1) db

/-- The database without the locks, certified rounds and votes past the height after this one. -/
def Db.trimmed (height : Nat) (db : Db) : Db :=
  { db with
    locks := fun h => if h < height + 2 then db.locks h else none
    certificates := db.certificates.filter (·.height < height + 2)
    votes := fun k => if k.height < height + 2 then db.votes k else none }

/-- Reverted to one height and accepted again up to another. -/
def Db.replayed (states : Nat → ChainState) (height n : Nat) (db : Db) : Db :=
  { db.trimmed height with
    state := states n
    undo := fun k => if n < k ∧ k ≤ db.tipHeight then none else db.undo k }

/-- **One block again.** -/
theorem Db.Records.replay (h : db.Records s₀ calls states) {n : Nat} (hn : n < db.tipHeight)
    (hlater : (calls (n + 1)).Later env) :
    acceptBlock env (calls (n + 1)).params (calls (n + 1)).block (db.replayed states height n) = .ok db' ↔
      (db.trimmed height).Admits (calls (n + 1)).block ∧ db' = db.replayed states height (n + 1) := by
  obtain ⟨b, hb⟩ := h.entries n hn
  have htip : (db.replayed states height n).tipHeight = n := by
    change (states n).tip.getD 0 = n
    rw [h.tips n hn.le, Option.getD_some]
  have hmark : ¬ CertifiedAt db.finality (states n).blocks (db.watermark + 1) := by
    rintro ⟨c, hc, hcert⟩
    rw [h.blocks_states hn.le] at hc
    by_cases hk : db.watermark + 1 ≤ n
    · rw [if_pos hk] at hc
      exact h.lag (by omega) ⟨c, hc, hcert⟩
    · rw [if_neg hk] at hc
      cases hc
  have hundo : Function.update (db.replayed states height n).undo (n + 1) (some ((states n).undoOf b)) =
      (db.replayed states height (n + 1)).undo := by
    funext k
    change _ = if n + 1 < k ∧ k ≤ db.tipHeight then none else db.undo k
    by_cases hk : k = n + 1
    · subst hk
      rw [Function.update_self, if_neg (by omega), hb.undo]
    · rw [Function.update_of_ne hk]
      exact if_congr (by omega) rfl rfl
  have hwrite : (db.replayed states height n).writeBlock b = db.replayed states height (n + 1) := by
    have hfinality : (db.replayed states height n).advancedWatermark db.finality = db.watermark :=
      climb_eq_self hmark
    change ({ db.trimmed height with
      state := (states n).write b
      undo := Function.update (db.replayed states height n).undo b.block.height
        (some ((states n).undoOf b))
      watermark := (db.replayed states height n).advancedWatermark db.finality } : Db) = _
    rw [hfinality, hb.written, hb.height, hundo]
    rfl
  rw [hb.replays _ env rfl hlater, bind_eq_ok, hwrite]
  constructor
  · rintro ⟨⟨⟩, hgates, hdb'⟩
    exact ⟨(checkGates_eq_ok.mp hgates).2, (Except.ok.inj hdb').symm⟩
  · rintro ⟨hadmits, rfl⟩
    exact ⟨(), checkGates_eq_ok.mpr ⟨by rw [htip, hb.called], hadmits⟩, rfl⟩

/-- **All of them again**: the gates alone decide, by what was there before. -/
theorem Db.Records.reaccept_eq_ok (h : db.Records s₀ calls states) {envs : Nat → NodeEnv} {n count : Nat}
    (hn : n + count ≤ db.tipHeight)
    (hlater : ∀ k, n < k → k ≤ n + count → (calls k).Later (envs k)) :
    reaccept envs calls count n (db.replayed states height n) = .ok db' ↔
      (∀ k, n < k → k ≤ n + count → (db.trimmed height).Admits (calls k).block) ∧
        db' = db.replayed states height (n + count) := by
  induction count generalizing n with
  | zero =>
    refine ⟨fun hok => ⟨fun k hlo hhi => absurd hlo (by omega), (Except.ok.inj hok).symm⟩, ?_⟩
    rintro ⟨-, rfl⟩
    rfl
  | succ count ih =>
    have hstep {d : Db} : acceptBlock (envs (n + 1)) (calls (n + 1)).params (calls (n + 1)).block
        (db.replayed states height n) = .ok d ↔ _ :=
      h.replay (by omega) (hlater (n + 1) (by omega) (by omega))
    have hrest := ih (n := n + 1) (by omega) fun k hlo hhi => hlater k (by omega) (by omega)
    rw [Nat.add_right_comm] at hrest
    rw [reaccept, bind_eq_ok]
    constructor
    · rintro ⟨d, haccept, hok⟩
      obtain ⟨hadmits, rfl⟩ := hstep.mp haccept
      obtain ⟨hall, hdb'⟩ := hrest.mp hok
      refine ⟨fun k hlo hhi => ?_, hdb'⟩
      rcases Nat.lt_or_eq_of_le (Nat.succ_le_of_lt hlo) with hlt | rfl
      · exact hall k hlt hhi
      · exact hadmits
    · rintro ⟨hall, hdb'⟩
      exact ⟨_, hstep.mpr ⟨hall (n + 1) (by omega) (by omega), rfl⟩,
        hrest.mpr ⟨fun k hlo hhi => hall k (by omega) hhi, hdb'⟩⟩

theorem Db.Records.replayed_tipHeight (h : db.Records s₀ calls states) :
    db.replayed states height db.tipHeight = db.trimmed height := by
  have hundo : (fun k => if db.tipHeight < k ∧ k ≤ db.tipHeight then none else db.undo k) = db.undo :=
    funext fun k => if_neg (by omega)
  change ({ db.trimmed height with
    state := states db.tipHeight
    undo := fun k => if db.tipHeight < k ∧ k ≤ db.tipHeight then none else db.undo k } : Db) = _
  rw [hundo, h.last]
  rfl

/-- **Reverting is exact.**  Down to the watermark a revert succeeds and leaves the state as it was right
after the block of that height; the same blocks lead back to the same database, without the dropped
locks, rounds and votes, exactly when nothing that was kept speaks against one of them.  Below the
watermark a revert fails, and one that fails changes nothing. -/
theorem revert_exact (hg : g.IsGenesis)
    (hroot : ∃ b, g.state.blocks 0 = some b ∧ b.stateRoot = hashText (stateRoot g.state.trie))
    (h : Db.Recorded g calls states db) :
    (∀ height, db.watermark ≤ height → height < db.tipHeight →
      db.revertTo height = .ok (db.unwound height (states height)) ∧
      ∀ envs : Nat → NodeEnv, (∀ k, height < k → k ≤ db.tipHeight → (calls k).Later (envs k)) → ∀ db',
        reaccept envs calls (db.tipHeight - height) height (db.unwound height (states height)) = .ok db' ↔
          (∀ k, height < k → k ≤ db.tipHeight →
            (db.unwound height (states height)).Admits (calls k).block) ∧ db' = db.trimmed height) ∧
    (∀ height, height < db.watermark →
      db.revertTo height = .error (.revertBelowWatermark height db.watermark)) ∧
    ∀ height e, db.revertTo height = .error e → db.perform (.revert height) = db := by
  have hrecords := h.records hg hroot
  refine ⟨fun height hfloor hlt => ⟨hrecords.revertTo_eq hfloor hlt, fun envs hlater db' => ?_⟩,
    fun height hlt => ?_, fun height e he => ?_⟩
  · have hsum : height + (db.tipHeight - height) = db.tipHeight := by omega
    have hlater' : ∀ k, height < k → k ≤ height + (db.tipHeight - height) → (calls k).Later (envs k) := by
      rwa [hsum]
    have hall : reaccept envs calls (db.tipHeight - height) height (db.replayed states height height) =
        .ok db' ↔ _ := hrecords.reaccept_eq_ok hsum.le hlater'
    rw [hsum, hrecords.replayed_tipHeight] at hall
    exact hall
  · have hle := hrecords.stacked.floor
    unfold Db.revertTo
    rw [if_neg (by omega), if_pos hlt]
  · rw [Db.perform, he]

end Recorded

/-! ## One block taken back -/

namespace Solo

open PlainChain

attribute [local instance] crypto wire Plain.zk trie Plain.decoders

def call : Call := ⟨env, (db []).chainParams, block 1 []⟩

set_option maxRecDepth 20000 in
theorem accepts_call : (match acceptBlock env call.params call.block (db []) with
    | .ok db₁ => decide ((db₁.undo 1).map (fun u => (u.rows : List RowWrite).map (·.key)) = some sealedKeys)
    | .error _ => false) = true := by decide +kernel

theorem genesis_root : ∃ b, (db []).state.blocks 0 = some b ∧
    b.stateRoot = hashText (stateRoot (db []).state.trie) := ⟨genesisBlock, rfl, by decide +kernel⟩

/-- The node after its first block. -/
theorem recorded_call : ∃ db₁ states, Db.Recorded (db []) (fun _ => call) states db₁ ∧ db₁.tipHeight = 1 ∧
    db₁.watermark = 0 ∧ db₁.finality 1 = none ∧ db₁.locks 1 = none ∧ db₁.certificates = [] := by
  have haccepts := accepts_call
  cases haccept : acceptBlock env call.params call.block (db []) with
  | error e => rw [haccept] at haccepts; cases haccepts
  | ok db₁ =>
    rw [haccept] at haccepts
    have hkeys := of_decide_eq_true haccepts
    have hpaths : Set.InjOn StateTrie.keyPath (db₁.writtenKeys 1) := injOn_sealedKeys hkeys
    have hrecorded := (Db.Recorded.start fun _ => call).accept haccept hpaths
    obtain ⟨db₀, ex, hacc⟩ := acceptBlock_eq_ok.mp haccept
    obtain rfl : db [] = db₀ := Except.ok.inj
      ((supersedeDeadTip_eq_self rfl (show (1 : Nat) ≠ 0 by decide)).symm.trans hacc.superseded)
    obtain rfl := hacc.committed
    rw [show (⟨env, call.params, call.block⟩ : Call) = call from rfl, Function.update_eq_self] at hrecorded
    have hmark : (db []).advancedWatermark (db []).finality = 0 := by decide +kernel
    exact ⟨_, _, hrecorded, rfl, hmark, rfl, rfl, rfl⟩

/-- Taken back and accepted again. -/
theorem revert_exact_one_block : ∃ db₁ db₂ states, Db.Recorded (db []) (fun _ => call) states db₁ ∧
    db₁.revertTo 0 = .ok db₂ ∧ db₂.state = states 0 ∧
    reaccept (fun _ => env) (fun _ => call) 1 0 db₂ = .ok (db₁.trimmed 0) := by
  obtain ⟨db₁, states, hrecorded, htip, hmark, hfinality, hlocks, hcertificates⟩ := recorded_call
  obtain ⟨hrevert, hagain⟩ := (revert_exact (isGenesis_db []) genesis_root hrecorded).1 0 hmark.le
    (htip ▸ Nat.zero_lt_one)
  rw [htip] at hagain
  refine ⟨db₁, _, states, hrecorded, hrevert, rfl,
    (hagain (fun _ => env) (fun _ _ _ => ⟨rfl, le_rfl⟩) _).mpr ⟨fun k _ _ => ?_, rfl⟩⟩
  change (db₁.trimmed 0).Admits (block 1 [])
  unfold Db.Admits
  rw [show (db₁.trimmed 0).finality (block 1 []).height = none from hfinality,
    show (db₁.trimmed 0).locks (block 1 []).height = none from hlocks]
  change Db.currentRound _ 1 ≤ 0
  rw [Db.currentRound, show (db₁.trimmed 0).certificates = [] by rw [Db.trimmed, hcertificates]; rfl]
  exact le_rfl

/-- **A block that a lock speaks against is taken back and not accepted again.** -/
theorem locked_block_not_reaccepted : ∃ db₁ db₂ states,
    Db.Recorded (db []) (fun _ => call) states db₁ ∧ db₁.watermark = 0 ∧ db₁.tipHeight = 1 ∧
    db₁.revertTo 0 = .ok db₂ ∧ ∀ db', reaccept (fun _ => env) (fun _ => call) 1 0 db₂ ≠ .ok db' := by
  obtain ⟨db₁, states, hrecorded, htip, hmark, hfinality, -⟩ := recorded_call
  have hlocked := hrecorded.notes (fun _ => some [9]) db₁.certificates db₁.votes db₁.dissents
  have hrecords := hlocked.records (isGenesis_db []) genesis_root
  have hfloor : db₁.watermark ≤ 0 := hmark.le
  have hrevert := hrecords.revertTo_eq hfloor (htip ▸ Nat.zero_lt_one)
  refine ⟨_, _, states, hlocked, hmark, htip, hrevert, fun db' hok => ?_⟩
  have hadmits := ((hrecords.reaccept_eq_ok (n := 0) (by rw [Nat.zero_add]; exact htip.ge)
    fun _ _ _ => ⟨rfl, le_rfl⟩).mp hok).1 1 (by omega) (by omega)
  unfold Db.Admits at hadmits
  simp only [Db.trimmed, show db₁.finality call.block.height = none from hfinality] at hadmits
  rw [if_pos (by decide)] at hadmits
  have hhash : [9] ≠ call.block.hash := by decide +kernel
  exact hhash hadmits

end Solo

end Arxium
