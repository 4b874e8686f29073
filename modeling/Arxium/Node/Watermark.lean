import Arxium.Node.Run

/-!
# Node/Watermark — how far the chain is final

The watermark climbs over heights whose certified block is the one held.  It is asked to with every
certificate and with every block, from what is on disk *before* the batch.  A certificate brings its hash
along; a block is not found in the index yet.  So a block that arrives after its certificate is not
counted until the next write (`Db.Op.Late`), and that is the only way the watermark falls behind.
-/

namespace Arxium

open Writes Crypto ReadProg

section Climb

variable [Crypto] [Wire ActionPayload] {certified : Nat → Option Bytes} {blocks : Nat → Option ChainBlock}

/-- The block held at a height is the certified one. -/
def CertifiedAt (certified : Nat → Option Bytes) (blocks : Nat → Option ChainBlock) (h : Nat) : Prop :=
  ∃ b, blocks h = some b ∧ certified h = some b.hash

theorem any_iff_certified {h : Nat} :
    ((blocks h).any fun b => decide (certified h = some b.hash)) = true ↔ CertifiedAt certified blocks h := by
  simp [Option.any_eq_true, CertifiedAt]

/-- Nothing is climbed over that is not certified. -/
theorem certified_of_le_climb {fuel w h : Nat} (hlo : w < h) (hhi : h ≤ Db.climb certified blocks fuel w) :
    CertifiedAt certified blocks h := by
  induction fuel generalizing w with
  | zero => exact absurd hhi (Nat.not_le_of_lt hlo)
  | succ fuel ih =>
    rw [Db.climb] at hhi
    split at hhi
    · rename_i hnext
      rcases Nat.lt_or_eq_of_le (Nat.succ_le_of_lt hlo) with hlt | rfl
      · exact ih hlt hhi
      · exact any_iff_certified.mp hnext
    · exact absurd hhi (Nat.not_le_of_lt hlo)

/-- With fuel to spare the climb ends at a height that is not certified. -/
theorem not_certified_climb {tip fuel w : Nat} (habove : ∀ h, tip < h → blocks h = none)
    (hfuel : tip < w + fuel) : ¬ CertifiedAt certified blocks (Db.climb certified blocks fuel w + 1) := by
  induction fuel generalizing w with
  | zero =>
    rintro ⟨b, hb, -⟩
    rw [Db.climb, habove (w + 1) (by omega)] at hb
    cases hb
  | succ fuel ih =>
    rw [Db.climb]
    split
    · exact ih (by omega)
    · rename_i hstop
      exact fun hnext => hstop (any_iff_certified.mpr hnext)

theorem climb_eq_self {fuel w : Nat} (h : ¬ CertifiedAt certified blocks (w + 1)) :
    Db.climb certified blocks fuel w = w := by
  cases fuel with
  | zero => rfl
  | succ fuel => rw [Db.climb, if_neg (mt any_iff_certified.mp h)]

end Climb

/-! ## Writes -/

/-- A write that completes. -/
inductive Db.Op
  | block (b : Batch)
  | certificate (height : Nat) (hash : Bytes)
  | revert (height : Nat)

/-- A block is written on top of the tip. -/
def Db.Op.Fits (db : Db) : Db.Op → Prop
  | block b => b.block.height = db.tipHeight + 1
  | certificate _ _ | revert _ => True

section Writes

variable [Crypto] [Wire ActionPayload]

/-- The block held at a height is the one its stored certificate names. -/
def Db.Agrees (db : Db) (h : Nat) : Prop := CertifiedAt db.finality db.state.blocks h

/-- **A block that comes after its certificate**, right above the watermark. -/
def Db.Op.Late (db : Db) : Db.Op → Prop
  | block b => b.block.height = db.watermark + 1 ∧ db.finality b.block.height = some b.block.hash
  | certificate _ _ | revert _ => False

variable [StateTrie]

/-- A revert that is refused writes nothing. -/
def Db.perform (db : Db) : Db.Op → Db
  | .block b => db.writeBlock b
  | .certificate height hash => db.writeFinality height hash
  | .revert height =>
    match db.revertTo height with
    | .ok db' => db'
    | .error _ => db

/-- The writes since genesis, newest first, each with the database it was made to. -/
inductive Db.Wrote (g : Db) : List (Db × Db.Op) → Db → Prop
  | start : Wrote g [] g
  | write {hist : List (Db × Db.Op)} {db : Db} (h : Wrote g hist db) (op : Db.Op) (fits : op.Fits db) :
      Wrote g ((db, op) :: hist) (db.perform op)

/-- A height has a certificate, and the block held there is the certified one, or was when the watermark
passed it. -/
def Db.Settled (hist : List (Db × Db.Op)) (db : Db) (h : Nat) : Prop :=
  (db.finality h).isSome = true ∧
    (db.Agrees h ∨ h ≤ db.watermark ∧ ∃ p ∈ hist, h ≤ p.1.watermark ∧ p.1.Agrees h)

/-- **The watermark is the end of the settled heights.** -/
def Db.WatermarkExact (hist : List (Db × Db.Op)) (db : Db) : Prop :=
  IsGreatest {H | ∀ h, 1 ≤ h → h ≤ H → db.Settled hist h} db.watermark

end Writes

/-! ## Unwinding and blocks -/

/-- A record takes back the block of its height, which was the tip. -/
structure Undo.TakesTip (u : Undo) (k : Nat) : Prop where
  height : u.height = k
  block : u.block = none
  tip : u.tip = some (k - 1)

/-- Unwinding takes the blocks above away and keeps the others. -/
theorem blocks_unwindTo {undo : Nat → Option Undo} (hundo : ∀ k u, undo k = some u → u.TakesTip k)
    {count tip : Nat} {s s' : ChainState} (hcount : count ≤ tip)
    (h : UndoLog.unwindTo Undo.apply undo count tip s = some s') :
    (∀ k, s'.blocks k = if tip - count < k ∧ k ≤ tip then none else s.blocks k) ∧
      s'.tip = if count = 0 then s.tip else some (tip - count) := by
  induction count generalizing tip s with
  | zero =>
    obtain rfl := Option.some.inj h
    exact ⟨fun k => (if_neg (by omega)).symm, rfl⟩
  | succ count ih =>
    obtain ⟨u, hu, h⟩ := Option.bind_eq_some_iff.mp h
    obtain ⟨hheight, hblock, htip⟩ := hundo tip u hu
    obtain ⟨hblocks, htips⟩ := ih (by omega) h
    refine ⟨fun k => ?_, ?_⟩
    · rw [hblocks k]
      change (if _ then none else Function.update s.blocks u.height u.block k) = _
      rw [hheight, hblock]
      by_cases hk : k = tip
      · subst hk
        rw [Function.update_self, ite_self, if_pos (by omega)]
      · rw [Function.update_of_ne hk]
        exact if_congr (by omega) rfl rfl
    · rw [htips, if_neg (Nat.succ_ne_zero count)]
      split
      · rename_i hzero
        subst hzero
        exact htip
      · exact congrArg some (by omega)

section Writes

variable [Crypto] [Wire ActionPayload] [StateTrie] {g db db' : Db} {hist : List (Db × Db.Op)}

/-- **What every write keeps**: the tip is the last block, the log takes it back, and the watermark is
not above it. -/
structure Db.Stacked (db : Db) : Prop where
  tip : db.state.tip = some db.tipHeight
  above : ∀ h, db.tipHeight < h → db.state.blocks h = none
  undo : ∀ k u, db.undo k = some u → u.TakesTip k
  floor : db.watermark ≤ db.tipHeight

omit [StateTrie] in
theorem Db.Stacked.advance (h : db.Stacked) (certified : Nat → Option Bytes) :
    db.advancedWatermark certified ≤ db.tipHeight := climb_le h.above _ h.floor

omit [Crypto] [Wire ActionPayload] in
/-- What a revert leaves: the blocks up to its height. -/
theorem Db.Stacked.revert (h : db.Stacked) {height : Nat} (hr : db.revertTo height = .ok db') :
    db'.Stacked ∧ db'.watermark = db.watermark ∧ db'.finality = db.finality ∧
      (∀ k, db'.state.blocks k = db.state.blocks k ∨ db'.state.blocks k = none) ∧
      ∀ k ≤ db.watermark, db'.state.blocks k = db.state.blocks k := by
  rcases Db.revertTo_eq_ok hr with rfl | ⟨hlt, hfloor, s, hs, rfl⟩
  · exact ⟨h, rfl, rfl, fun _ => .inl rfl, fun _ _ => rfl⟩
  obtain ⟨hblocks, htip⟩ := blocks_unwindTo h.undo (Nat.sub_le _ _) hs
  rw [show db.tipHeight - (db.tipHeight - height) = height by omega] at hblocks htip
  rw [if_neg (by omega)] at htip
  have htip' : (db.unwound height s).tipHeight = height := by
    rw [Db.tipHeight, Db.unwound, htip, Option.getD_some]
  refine ⟨⟨?_, fun k hk => ?_, fun k u hu => ?_, htip' ▸ hfloor⟩, rfl, rfl, fun k => ?_, fun k hk => ?_⟩
  · rw [htip']
    exact htip
  · rw [htip'] at hk
    change s.blocks k = none
    rw [hblocks k]
    split
    · rfl
    · exact h.above k (by omega)
  · simp only [Db.unwound] at hu
    split at hu
    · cases hu
    · exact h.undo k u hu
  · change s.blocks k = _ ∨ s.blocks k = none
    rw [hblocks k]
    split
    · exact .inr rfl
    · exact .inl rfl
  · change s.blocks k = _
    rw [hblocks k, if_neg (by omega)]

theorem Db.Stacked.perform (h : db.Stacked) {op : Db.Op} (hfits : op.Fits db) : (db.perform op).Stacked := by
  cases op with
  | block b =>
    have hb : b.block.height = db.tipHeight + 1 := hfits
    have htip : (db.perform (.block b)).tipHeight = db.tipHeight + 1 := hb
    refine ⟨rfl, fun k hk => ?_, fun k u hu => ?_, ?_⟩
    · rw [htip] at hk
      change Function.update db.state.blocks b.block.height (some b.block) k = none
      rw [Function.update_of_ne (by omega), h.above k (by omega)]
    · change Function.update db.undo b.block.height (some (db.state.undoOf b)) k = some u at hu
      by_cases hk : k = b.block.height
      · subst hk
        rw [Function.update_self] at hu
        obtain rfl := Option.some.inj hu
        refine ⟨rfl, h.above _ (by omega), ?_⟩
        rw [hb, Nat.add_sub_cancel]
        exact h.tip
      · rw [Function.update_of_ne hk] at hu
        exact h.undo k u hu
    · rw [htip]
      exact Nat.le_succ_of_le (h.advance _)
  | certificate height hash =>
    exact ⟨h.tip, h.above, h.undo, h.advance _⟩
  | revert height =>
    change (match db.revertTo height with | .ok db' => db' | .error _ => db).Stacked
    cases hr : db.revertTo height with
    | ok db' => exact (h.revert hr).1
    | error => exact h

end Writes

/-! ## The watermark along the writes -/

section Exact

variable [Crypto] [Wire ActionPayload] [StateTrie] {g db : Db} {hist : List (Db × Db.Op)} {op : Db.Op}

/-- A revert, refused or not, leaves certificates and watermark alone. -/
theorem Db.Stacked.perform_revert (h : db.Stacked) (height : Nat) :
    (db.perform (.revert height)).watermark = db.watermark ∧
      (db.perform (.revert height)).finality = db.finality ∧
      ∀ k, (db.perform (.revert height)).state.blocks k = db.state.blocks k ∨
        (db.perform (.revert height)).state.blocks k = none := by
  change (match db.revertTo height with | .ok db' => db' | .error _ => db).watermark = _ ∧
    (match db.revertTo height with | .ok db' => db' | .error _ => db).finality = _ ∧
    ∀ k, (match db.revertTo height with | .ok db' => db' | .error _ => db).state.blocks k = _ ∨
      (match db.revertTo height with | .ok db' => db' | .error _ => db).state.blocks k = none
  cases hr : db.revertTo height with
  | ok db' =>
    obtain ⟨-, hmark, hfinality, hblocks, -⟩ := h.revert hr
    exact ⟨hmark, hfinality, hblocks⟩
  | error => exact ⟨rfl, rfl, fun _ => .inl rfl⟩

/-- **The watermark never goes back.** -/
theorem Db.Stacked.watermark_le (h : db.Stacked) (op : Db.Op) :
    db.watermark ≤ (db.perform op).watermark := by
  cases op with
  | block | certificate => exact le_climb ..
  | revert height => exact (h.perform_revert height).1.ge

/-- Certificates stay. -/
theorem Db.Stacked.finality_isSome (h : db.Stacked) (op : Db.Op) {k : Nat}
    (hk : (db.finality k).isSome = true) : ((db.perform op).finality k).isSome = true := by
  cases op with
  | block => exact hk
  | certificate height hash =>
    change (Function.update db.finality height (some hash) k).isSome = true
    by_cases hkh : k = height
    · subst hkh
      rw [Function.update_self]
      rfl
    · rwa [Function.update_of_ne hkh]
  | revert height => rwa [(h.perform_revert height).2.1]

/-- What a block batch climbs over was certified and held before it, and still is. -/
theorem Db.agrees_writeBlock {b : Batch} (hb : b.block.height = db.tipHeight + 1)
    {k : Nat} (hk : k ≤ db.tipHeight) : (db.writeBlock b).Agrees k ↔ db.Agrees k := by
  have hblocks : (db.writeBlock b).state.blocks k = db.state.blocks k := by
    rw [state_writeBlock, ChainState.blocks_write, Function.update_of_ne (by omega)]
  unfold Agrees CertifiedAt
  rw [hblocks]
  rfl

/-- **What the watermark passes is certified and held.** -/
theorem Db.Stacked.agrees_of_passed (h : db.Stacked) (hfits : op.Fits db) {k : Nat}
    (hlo : db.watermark < k) (hhi : k ≤ (db.perform op).watermark) : (db.perform op).Agrees k := by
  cases op with
  | block b => exact (Db.agrees_writeBlock hfits (hhi.trans (h.advance _))).mpr (certified_of_le_climb hlo hhi)
  | certificate height hash =>
    have hcert := certified_of_le_climb hlo hhi
    exact hcert
  | revert height =>
    rw [(h.perform_revert height).1] at hhi
    exact absurd hhi (Nat.not_le_of_lt hlo)

omit [Crypto] [Wire ActionPayload] [StateTrie] in
theorem Db.IsGenesis.stacked (h : g.IsGenesis) : g.Stacked := by
  have htip : g.tipHeight = 0 := by rw [Db.tipHeight, h.tip, Option.getD_some]
  refine ⟨htip ▸ h.tip, fun k hk => h.blocks k (htip ▸ hk), fun k u hu => ?_, ?_⟩
  · rw [h.undo] at hu
    cases hu
  · rw [h.watermark]
    exact Nat.zero_le _

theorem Db.Wrote.stacked (hg : g.IsGenesis) (h : Db.Wrote g hist db) : db.Stacked := by
  induction h with
  | start => exact hg.stacked
  | write _ op hfits ih => exact ih.perform hfits

/-- **Every height up to the watermark is settled.** -/
theorem Db.Wrote.settled (hg : g.IsGenesis) (h : Db.Wrote g hist db) {k : Nat} (hpos : 1 ≤ k)
    (hk : k ≤ db.watermark) : db.Settled hist k := by
  induction h with
  | start =>
    rw [hg.watermark] at hk
    omega
  | @write hist db h op hfits ih =>
    have hstacked := h.stacked hg
    rcases Nat.lt_or_ge db.watermark k with hlt | hle
    · obtain ⟨b, hb, hcert⟩ := hstacked.agrees_of_passed hfits hlt hk
      exact ⟨Option.isSome_iff_exists.mpr ⟨_, hcert⟩, .inl ⟨b, hb, hcert⟩⟩
    · obtain ⟨hsome, hpassed⟩ := ih hle
      refine ⟨hstacked.finality_isSome op hsome, .inr ⟨hk, ?_⟩⟩
      obtain hagrees | ⟨-, p, hp, hpassed⟩ := hpassed
      · exact ⟨(db, op), List.mem_cons_self, hle, hagrees⟩
      · exact ⟨p, List.mem_cons_of_mem _ hp, hpassed⟩

/-- The watermark is exact when the next height is not certified and held. -/
theorem Db.Wrote.exact_iff (hg : g.IsGenesis) (h : Db.Wrote g hist db) :
    db.WatermarkExact hist ↔ ¬ db.Agrees (db.watermark + 1) := by
  constructor
  · rintro ⟨-, hgreatest⟩ hnext
    refine absurd (hgreatest (a := db.watermark + 1) fun k hpos hk => ?_) (by omega)
    rcases Nat.lt_or_eq_of_le hk with hlt | rfl
    · exact h.settled hg hpos (Nat.le_of_lt_succ hlt)
    · obtain ⟨b, hb, hcert⟩ := hnext
      exact ⟨Option.isSome_iff_exists.mpr ⟨_, hcert⟩, .inl ⟨b, hb, hcert⟩⟩
  · refine fun hnext => ⟨fun k hpos hk => h.settled hg hpos hk, fun H hH => ?_⟩
    refine Nat.le_of_not_lt fun hlt => hnext ?_
    obtain ⟨-, hagrees | ⟨hle, -⟩⟩ := hH (db.watermark + 1) (by omega) hlt
    · exact hagrees
    · omega

/-- One write on an exact watermark. -/
theorem Db.Stacked.next_agrees_iff (h : db.Stacked) (hfits : op.Fits db)
    (hexact : ¬ db.Agrees (db.watermark + 1)) :
    (db.perform op).Agrees ((db.perform op).watermark + 1) ↔ op.Late db := by
  cases op with
  | block b =>
    have hb : b.block.height = db.tipHeight + 1 := hfits
    have hmark : (db.writeBlock b).watermark = db.watermark := climb_eq_self hexact
    change (db.writeBlock b).Agrees ((db.writeBlock b).watermark + 1) ↔ _ ∧ _
    rw [hmark]
    rcases Nat.lt_or_eq_of_le h.floor with hlt | heq
    · -- The next height is below the block.
      rw [Db.agrees_writeBlock hb (Nat.succ_le_of_lt hlt)]
      exact iff_of_false hexact fun hlate => by omega
    · have hheld : (db.writeBlock b).state.blocks (db.watermark + 1) = some b.block := by
        rw [state_writeBlock, ChainState.blocks_write, hb, heq, Function.update_self]
      constructor
      · rintro ⟨b', hb', hcert⟩
        obtain rfl := Option.some.inj (hheld.symm.trans hb')
        rw [← heq] at hb
        exact ⟨hb, hb ▸ hcert⟩
      · rintro ⟨hheight, hcert⟩
        exact ⟨b.block, hheld, hheight ▸ hcert⟩
  | certificate height hash =>
    refine iff_of_false ?_ not_false
    have hstop : ∀ certified, ¬ CertifiedAt certified db.state.blocks (db.advancedWatermark certified + 1) :=
      fun certified => not_certified_climb h.above (by omega)
    exact hstop (Function.update db.finality height (some hash))
  | revert height =>
    obtain ⟨hmark, hfinality, hblocks⟩ := h.perform_revert height
    refine iff_of_false ?_ not_false
    rw [hmark]
    rintro ⟨b, hb, hcert⟩
    rw [hfinality] at hcert
    obtain hsame | hnone := hblocks (db.watermark + 1)
    · exact hexact ⟨b, hsame ▸ hb, hcert⟩
    · rw [hnone] at hb
      cases hb

/-- **The watermark is exact exactly until a block comes after its certificate.**  Where no write does,
it is exact after every one of them; from an exact watermark a single write leads away exactly when it is
such a block; and it never goes back. -/
theorem watermark_exact_iff (hg : g.IsGenesis) :
    (∀ hist db, Db.Wrote g hist db → (∀ p ∈ hist, ¬ p.2.Late p.1) → db.WatermarkExact hist) ∧
    (∀ hist db, ∀ op : Db.Op, Db.Wrote g hist db → op.Fits db → db.WatermarkExact hist →
      ((db.perform op).WatermarkExact ((db, op) :: hist) ↔ ¬ op.Late db)) ∧
    ∀ hist db, Db.Wrote g hist db → ∀ p ∈ hist, p.1.watermark ≤ db.watermark := by
  have hstep : ∀ hist db, ∀ op : Db.Op, Db.Wrote g hist db → op.Fits db → db.WatermarkExact hist →
      ((db.perform op).WatermarkExact ((db, op) :: hist) ↔ ¬ op.Late db) := by
    intro hist db op h hfits hexact
    rw [(h.write op hfits).exact_iff hg,
      (h.stacked hg).next_agrees_iff hfits ((h.exact_iff hg).mp hexact)]
  refine ⟨fun hist db h htimely => ?_, hstep, fun hist db h => ?_⟩
  · induction h with
    | start =>
      refine (Db.Wrote.start.exact_iff hg).mpr fun ⟨b, hb, hcert⟩ => ?_
      rw [hg.finality] at hcert
      cases hcert
    | write h op hfits ih =>
      rw [List.forall_mem_cons] at htimely
      exact (hstep _ _ op h hfits (ih htimely.2)).mpr htimely.1
  · induction h with
    | start => simp
    | write h op hfits ih =>
      have hle := (h.stacked hg).watermark_le op
      rw [List.forall_mem_cons]
      exact ⟨hle, fun p hp => (ih p hp).trans hle⟩

end Exact

/-! ## On one validator's chain -/

namespace PlainChain

attribute [local instance] crypto wire Plain.zk Plain.trie Plain.decoders

/-- The first block, written on its own. -/
def first : Batch := ⟨[], [], 0, block 1 [], []⟩

/-- A certificate that follows its block counts at once. -/
theorem watermark_exact_certified : ∃ hist db', Db.Wrote (db []) hist db' ∧ db'.watermark = 1 ∧
    db'.WatermarkExact hist := by
  have hblock : Db.Wrote (db []) _ _ := Db.Wrote.start.write (.block first) rfl
  have hboth := hblock.write (.certificate 1 (block 1 []).hash) trivial
  refine ⟨_, _, hboth, by decide +kernel, ?_⟩
  refine (watermark_exact_iff (isGenesis_db [])).1 _ _ hboth ?_
  simp only [List.forall_mem_cons, List.not_mem_nil, false_implies, implies_true, and_true]
  exact ⟨not_false, fun hlate => by cases hlate.2⟩

/-- The database that holds the certificate of a block it has not seen. -/
def certified : Db := (db []).writeFinality 1 (block 1 []).hash

set_option maxRecDepth 20000 in
theorem accepts_certified : (onBlock env (block 1 []) certified).isOk = true := by decide +kernel

/-- **The block a certificate waits for is accepted, and the watermark stays where it was.** -/
theorem late_block_not_counted : ∃ hist db', Db.Wrote (db []) hist db' ∧
    onBlock env (block 1 []) certified = .ok db' ∧ db'.watermark = 0 ∧ db'.Agrees 1 ∧
    ¬ db'.WatermarkExact hist := by
  obtain ⟨db', haccept⟩ := exists_ok_of_isOk accepts_certified
  obtain ⟨db₀, ex, hacc⟩ := acceptBlock_eq_ok.mp haccept
  have hsame : certified = db₀ := Except.ok.inj
    ((supersedeDeadTip_eq_self rfl (show (1 : Nat) ≠ 0 by decide)).symm.trans hacc.superseded)
  subst hsame
  have hcertified : Db.Wrote (db []) _ certified := Db.Wrote.start.write (.certificate 1 _) trivial
  have hwrote := hcertified.write (.block (acceptedBatch env certified (block 1 []) ex)) rfl
  have hmark : certified.advancedWatermark certified.finality = 0 := by decide +kernel
  refine ⟨_, _, hwrote, haccept.trans (congrArg Except.ok hacc.committed), hmark, ⟨block 1 [], rfl, rfl⟩, fun hexact => ?_⟩
  refine (hwrote.exact_iff (isGenesis_db [])).mp hexact ?_
  change Db.Agrees _ (certified.advancedWatermark certified.finality + 1)
  rw [hmark]
  exact ⟨block 1 [], rfl, rfl⟩

end PlainChain

end Arxium
