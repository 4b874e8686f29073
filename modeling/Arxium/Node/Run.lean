import Arxium.Node.Produce

/-!
# Node/Run — what a node's database can become

A node starts from a genesis database.  From there blocks are accepted or produced, the tip is unwound,
and the finality side adds its records; `Db.Reachable` is any sequence of these.

Unwinding takes a block back exactly, so whatever a node went through, its state is the state of a
chain of committed blocks: `Db.Reachable.chain`.  That turns an invariant of the state into one step
lemma about `Commits`.
-/

namespace Arxium

open ReadProg Writes Crypto

section Run

variable [Crypto] [Wire ActionPayload] [Zk] [StateTrie] [Decode]

/-- A fresh database: a genesis block over whatever rows. -/
structure Db.IsGenesis (db : Db) : Prop where
  tip : db.state.tip = some 0
  blocks : ∀ h, 0 < h → db.state.blocks h = none
  undo : ∀ h, db.undo h = none
  finality : ∀ h, db.finality h = none
  locks : ∀ h, db.locks h = none
  certificates : db.certificates = []
  watermark : db.watermark = 0

/-- A round certificate of a height whose parent block is held.  The votes in it are for the parent's
hash in the text the node itself writes. -/
def Db.Certifies (db : Db) (c : RoundCertificate) : Prop :=
  ∃ parent, db.state.blocks (c.height - 1) = some parent ∧
    verifyRoundCertificate db c c.height (c.round + 1) (hashText parent.hash)
      (db.getValidatorSetAt c.height) = .ok ()

/-- Whatever writes to the database. -/
inductive Db.Step (db : Db) : Db → Prop
  | accept {env : NodeEnv} {block : ChainBlock} {db' : Db} (h : onBlock env block db = .ok db') :
      Step db db'
  | produce {env : NodeEnv} {actions : List ChainAction} {key : ProposerKey} {p : Produced} {db' : Db}
      (h : produceBlockReporting env db actions (some key) = .ok (p, db')) : Step db db'
  | revert {height : Nat} {db' : Db} (h : db.revertTo height = .ok db') : Step db db'
  | finality (height : Nat) (hash : Bytes) : Step db (db.writeFinality height hash)
  | locks (locks : Nat → Option Bytes) : Step db { db with locks := locks }
  | certificate {c : RoundCertificate} (h : db.Certifies c) :
      Step db { db with certificates := c :: db.certificates }

inductive Db.Reachable : Db → Prop
  | genesis {db : Db} (h : db.IsGenesis) : Reachable db
  | step {db db' : Db} (h : Reachable db) (hstep : db.Step db') : Reachable db'

/-! ## Committing a block -/

/-- The next block ran on the tip and was written. -/
structure Commits (env : NodeEnv) (params : ChainParams) (db : Db) (block : ChainBlock) (ex : Executed)
    (db' : Db) : Prop where
  height : block.height = db.tipHeight + 1
  ran : ∃ genesis proposer,
    Ran db params (db.getValidatorSetAt block.height).keys block genesis proposer ex
  written : db' = db.writeBlock (acceptedBatch env db block ex)

/-- The same database, or one it was unwound to. -/
def Db.Unwinds (db db' : Db) : Prop := db' = db ∨ ∃ height, db.revertTo height = .ok db'

variable {env : NodeEnv} {params : ChainParams} {db db₀ db' : Db} {block : ChainBlock} {ex : Executed}

omit [Zk] [Decode] in
theorem supersedeDeadTip_eq_ok (h : supersedeDeadTip db block = .ok db₀) : db.Unwinds db₀ := by
  unfold supersedeDeadTip at h
  split at h
  · exact .inl (Except.ok.inj h).symm
  · split at h
    · exact .inl (Except.ok.inj h).symm
    · split at h
      · split at h
        · exact .inl (Except.ok.inj h).symm
        · obtain ⟨-, -, h⟩ := bind_eq_ok.mp h
          exact .inr ⟨_, mapError_eq_ok.mp h⟩
      · exact .inl (Except.ok.inj h).symm

theorem Accepted.commits (h : Accepted env params block db db₀ ex db') :
    db.Unwinds db₀ ∧ Commits env params db₀ block ex db' := by
  obtain ⟨_, hheight, -⟩ := bind_eq_ok.mp h.gates
  have hheight := rejectIf_eq_ok.mp hheight
  exact ⟨supersedeDeadTip_eq_ok h.superseded, by simpa using hheight,
    executeBlock_eq_ok.mp h.executed, h.committed⟩

theorem Built.commits {key : ProposerKey} {parent : ChainBlock} {genesis : Bytes}
    (h : Built env db key block parent genesis ex db') : Commits env db.chainParams db block ex db' := by
  have hheight : block.height = db.tipHeight + 1 := by rw [h.header]; rfl
  exact ⟨hheight, ⟨genesis, key.address, hheight ▸ h.ran⟩, h.written⟩

/-- **What a step does**: commit a block, unwind, or leave the chain alone. -/
theorem Db.Step.commits_or (h : db.Step db') :
    (∃ env params block ex db₀, db.Unwinds db₀ ∧ Commits env params db₀ block ex db') ∨
      db.Unwinds db' ∨
      (db'.state = db.state ∧ db'.undo = db.undo ∧
        (db'.watermark = db.watermark ∨ ∃ certified, db'.watermark = db.advancedWatermark certified)) := by
  cases h with
  | accept h =>
    obtain ⟨db₀, ex, hacc⟩ := acceptBlock_eq_ok.mp h
    exact .inl ⟨_, _, _, ex, db₀, hacc.commits⟩
  | produce h =>
    obtain ⟨parent, genesis, ex, hbuilt⟩ := built_of_produce h
    exact .inl ⟨_, _, _, ex, db, .inl rfl, hbuilt.commits⟩
  | revert h => exact .inr (.inl (.inr ⟨_, h⟩))
  | finality height hash => exact .inr (.inr ⟨rfl, rfl, .inr ⟨_, rfl⟩⟩)
  | locks locks => exact .inr (.inr ⟨rfl, rfl, .inl rfl⟩)
  | certificate h => exact .inr (.inr ⟨rfl, rfl, .inl rfl⟩)

/-! ## The state is a chain's -/

/-- The state after a list of committed blocks. -/
inductive Chain (s₀ : ChainState) : List (ChainBlock × Executed) → ChainState → Prop
  | nil : Chain s₀ [] s₀
  | snoc {hist : List (ChainBlock × Executed)} {env : NodeEnv} {params : ChainParams} {db db' : Db}
      {block : ChainBlock} {ex : Executed} (h : Chain s₀ hist db.state)
      (hcommit : Commits env params db block ex db') : Chain s₀ (hist ++ [(block, ex)]) db'.state

/-- What holds of the state at every height a node can unwind to. -/
structure ChainAt (s₀ : ChainState) (height : Nat) (s : ChainState) : Prop where
  tip_eq : s.tip = some height
  blocks_above : ∀ h, height < h → s.blocks h = none
  chain : ∃ hist, Chain s₀ hist s

omit [Zk] [StateTrie] [Decode] in
theorem le_climb (certified : Nat → Option Bytes) (blocks : Nat → Option ChainBlock) (fuel w : Nat) :
    w ≤ Db.climb certified blocks fuel w := by
  induction fuel generalizing w with
  | zero => exact le_rfl
  | succ fuel ih =>
    rw [Db.climb]
    split
    · exact (Nat.le_succ w).trans (ih (w + 1))
    · exact le_rfl

omit [Zk] [StateTrie] [Decode] in
/-- The watermark does not climb past the tip. -/
theorem climb_le {certified : Nat → Option Bytes} {blocks : Nat → Option ChainBlock} {tip : Nat}
    (hblocks : ∀ h, tip < h → blocks h = none) (fuel : Nat) {w : Nat} (hw : w ≤ tip) :
    Db.climb certified blocks fuel w ≤ tip := by
  induction fuel generalizing w with
  | zero => exact hw
  | succ fuel ih =>
    rw [Db.climb]
    split
    · rename_i hheld
      refine ih (Nat.succ_le_of_lt (Nat.lt_of_not_ge fun hle => ?_))
      rw [hblocks (w + 1) (Nat.lt_succ_of_le hle)] at hheld
      cases hheld
    · exact hw

/-- What holds of the state at every height a node can unwind to, for any property of states. -/
structure StateAt (I : ChainState → Prop) (height : Nat) (s : ChainState) : Prop where
  tip_eq : s.tip = some height
  blocks_above : ∀ h, height < h → s.blocks h = none
  holds : I s

/-- The log of a node leads back along states with a property, down to its watermark. -/
def Db.Guards (I : ChainState → Prop) (db : Db) : Prop :=
  UndoLog.Covers Undo.apply db.undo (StateAt I) db.watermark db.tipHeight db.state

/-- The log of a node leads back along a chain, down to its watermark. -/
def Db.OnChain (s₀ : ChainState) (db : Db) : Prop :=
  UndoLog.Covers Undo.apply db.undo (ChainAt s₀) db.watermark db.tipHeight db.state

variable {s₀ : ChainState} {I : ChainState → Prop}

theorem Db.onChain_iff_guards : db.OnChain s₀ ↔ db.Guards fun s => ∃ hist, Chain s₀ hist s :=
  ⟨fun h => h.imp fun _ _ hs => ⟨hs.tip_eq, hs.blocks_above, hs.chain⟩,
    fun h => h.imp fun _ _ hs => ⟨hs.tip_eq, hs.blocks_above, hs.holds⟩⟩

section Guards

omit [Zk] [Decode]

omit [StateTrie] in
theorem Db.Guards.advanced (h : db.Guards I) (certified : Nat → Option Bytes) :
    UndoLog.Covers Undo.apply db.undo (StateAt I) (db.advancedWatermark certified)
      db.tipHeight db.state :=
  h.raise (le_climb ..) (climb_le h.holds.blocks_above _ h.floor_le)

/-- **A committed block**, if the state it leaves has the property. -/
theorem Db.Guards.commit [Zk] [Decode] (h : db.Guards I) (hc : Commits env params db block ex db')
    (hI : I db'.state) : db'.Guards I := by
  have hnext : StateAt I (db.tipHeight + 1) db'.state := by
    refine ⟨?_, fun k hk => ?_, hI⟩
    · rw [hc.written, Db.state_writeBlock, ChainState.tip_write, acceptedBatch, hc.height]
    · rw [hc.written, Db.state_writeBlock, ChainState.blocks_write, acceptedBatch, hc.height,
        Function.update_of_ne (by omega), h.holds.blocks_above k (by omega)]
  rw [hc.written, Db.state_writeBlock] at hnext
  have hnew := (h.advanced db.finality).commit
    (db.state.undo_write (acceptedBatch env db block ex)) hnext
  rw [hc.written, Db.Guards, Db.undo_writeBlock, Db.tipHeight_writeBlock, Db.state_writeBlock,
    show (acceptedBatch env db block ex).block.height = db.tipHeight + 1 from hc.height]
  exact hnew

omit [Crypto] [Wire ActionPayload] in
theorem Db.Guards.unwind (h : db.Guards I) (hu : db.Unwinds db') : db'.Guards I := by
  rcases hu with rfl | ⟨height, hrevert⟩
  · exact h
  rcases Db.revertTo_eq_ok hrevert with rfl | ⟨htip, hfloor, s, hs, rfl⟩
  · exact h
  have hcount : db.watermark + (db.tipHeight - height) ≤ db.tipHeight := by omega
  obtain ⟨s', hs', hcovers⟩ := UndoLog.Covers.unwindTo h hcount
  obtain rfl : s' = s := Option.some.inj (hs'.symm.trans hs)
  rw [show db.tipHeight - (db.tipHeight - height) = height by omega] at hcovers
  have htip' : (db.unwound height s').tipHeight = height := by
    rw [Db.tipHeight, Db.unwound, hcovers.holds.tip_eq, Option.getD_some]
  rw [Db.Guards, htip']
  refine hcovers.congr fun k hk => ?_
  exact if_neg fun hlt => absurd hlt.1 (by omega)

omit [StateTrie] in
/-- Whatever leaves the chain and its log alone. -/
theorem Db.Guards.idle (h : db.Guards I) (hstate : db'.state = db.state) (hundo : db'.undo = db.undo)
    (hmark : db'.watermark = db.watermark ∨
      ∃ certified, db'.watermark = db.advancedWatermark certified) : db'.Guards I := by
  unfold Db.Guards Db.tipHeight
  rw [hstate, hundo]
  rcases hmark with hmark | ⟨certified, hmark⟩
  · rw [hmark]
    exact h
  · rw [hmark]
    exact h.advanced certified

omit [Crypto] [Wire ActionPayload] [StateTrie] in
theorem Db.IsGenesis.guards (h : db.IsGenesis) (hI : I db.state) : db.Guards I := by
  unfold Db.Guards Db.tipHeight
  rw [h.watermark, h.tip]
  exact .base ⟨h.tip, h.blocks, hI⟩

end Guards

theorem Db.OnChain.tipHeight_eq (h : db.OnChain s₀) : db.state.tip = some db.tipHeight := h.holds.tip_eq

theorem Db.OnChain.commit (h : db.OnChain s₀) (hc : Commits env params db block ex db') :
    db'.OnChain s₀ := by
  obtain ⟨hist, hchain⟩ := h.holds.chain
  exact onChain_iff_guards.mpr ((onChain_iff_guards.mp h).commit hc ⟨_, hchain.snoc hc⟩)

theorem Db.OnChain.unwind (h : db.OnChain s₀) (hu : db.Unwinds db') : db'.OnChain s₀ :=
  onChain_iff_guards.mpr ((onChain_iff_guards.mp h).unwind hu)

theorem Db.OnChain.step (h : db.OnChain s₀) (hstep : db.Step db') : db'.OnChain s₀ := by
  rcases hstep.commits_or with ⟨_, _, _, _, db₀, hu, hc⟩ | hu | ⟨hstate, hundo, hmark⟩
  · exact (h.unwind hu).commit hc
  · exact h.unwind hu
  · exact Db.onChain_iff_guards.mpr ((Db.onChain_iff_guards.mp h).idle hstate hundo hmark)

theorem Db.IsGenesis.onChain (h : db.IsGenesis) : db.OnChain db.state :=
  Db.onChain_iff_guards.mpr (h.guards ⟨[], .nil⟩)

/-- **A node's state is the state of a chain from its genesis.** -/
theorem Db.Reachable.chain (h : db.Reachable) : ∃ g : Db, g.IsGenesis ∧ db.OnChain g.state := by
  induction h with
  | genesis h => exact ⟨_, h, h.onChain⟩
  | step _ hstep ih =>
    obtain ⟨g, hg, hchain⟩ := ih
    exact ⟨g, hg, hchain.step hstep⟩

end Run

theorem PlainChain.isGenesis_db (more : List RowWrite) : (PlainChain.db more).IsGenesis where
  tip := rfl
  blocks h hh := if_neg (by omega)
  undo _ := rfl
  finality _ := rfl
  locks _ := rfl
  certificates := rfl
  watermark := rfl

end Arxium
