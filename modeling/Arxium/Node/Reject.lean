import Arxium.Executor.Identity
import Arxium.Node.Revert

/-!
# Node/Reject — what a refused block leaves behind

Most of `accept_block` only reads.  The one write before the commit takes back a dead tip, and it is made
as soon as the offered block's certificate verifies, over the parent that block *names*.  Whether the
node holds that parent is checked later, when the tip is gone (`rejection_traceless_iff`).
-/

namespace Arxium

open ReadProg Writes Crypto

section Reject

variable [Crypto] [Wire ActionPayload] [Zk] [StateTrie] [Decode]

/-! ## Acceptance in place -/

/-- All that follows the unwinding of a dead tip. -/
def judgeBlock (env : NodeEnv) (params : ChainParams) (block : ChainBlock) (db : Db) :
    Except AcceptBlockError Db := do
  checkGates db block
  let some parent := db.state.blocks db.tipHeight | .error .panic
  checkParent block parent
  checkTime env block parent
  let validators ← checkProposer db block
  let ex ← executeBlock db params validators block
  let expected := db.state.computeStateRoot (ex.categories.rootWrites block.height)
  rejectIf (block.stateRoot ≠ expected) (.stateRootMismatch block.height expected block.stateRoot)
  return db.writeBlock (acceptedBatch env db block ex)

/-- `accept_block` on the database in place: what was written before an error stays. -/
def acceptBlockOn (env : NodeEnv) (params : ChainParams) (block : ChainBlock) (db : Db) :
    Except AcceptBlockError Unit × Db :=
  match checkSigned db block with
  | .error e => (.error e, db)
  | .ok _ =>
    match supersedeDeadTip db block with
    | .error e => (.error e, db)
    | .ok db =>
      match judgeBlock env params block db with
      | .error e => (.error e, db)
      | .ok db => (.ok (), db)

variable {env : NodeEnv} {params : ChainParams} {block tip parent : ChainBlock} {db db₀ db' : Db}
  {e : AcceptBlockError} {cert : RoundCertificate}

theorem acceptBlock_eq_judge : acceptBlock env params block db =
    checkSigned db block >>= fun _ => supersedeDeadTip db block >>= judgeBlock env params block := rfl

/-- **In place or not, the verdict is the same.** -/
theorem acceptBlockOn_fst : (acceptBlockOn env params block db).1 =
    (acceptBlock env params block db).map fun _ => () := by
  rw [acceptBlock_eq_judge, acceptBlockOn]
  cases checkSigned db block with
  | error => rfl
  | ok =>
    cases supersedeDeadTip db block with
    | error => rfl
    | ok db₀ =>
      dsimp only [bind, Except.bind]
      cases judgeBlock env params block db₀ with
      | error | ok => rfl

/-- **A rejected block leaves the database, or what a dead tip's unwinding made of it.** -/
theorem acceptBlockOn_error (h : acceptBlockOn env params block db = (.error e, db')) :
    db' = db ∨ checkSigned db block = .ok () ∧ supersedeDeadTip db block = .ok db' := by
  unfold acceptBlockOn at h
  cases hsigned : checkSigned db block with
  | error =>
    rw [hsigned] at h
    exact .inl (congrArg Prod.snd h).symm
  | ok =>
    rw [hsigned] at h
    cases hsuper : supersedeDeadTip db block with
    | error =>
      rw [hsuper] at h
      exact .inl (congrArg Prod.snd h).symm
    | ok db₀ =>
      rw [hsuper] at h
      dsimp only at h
      cases hjudge : judgeBlock env params block db₀ with
      | error =>
        rw [hjudge] at h
        exact .inr ⟨rfl, congrArg Except.ok (congrArg Prod.snd h)⟩
      | ok =>
        rw [hjudge] at h
        cases congrArg Prod.fst h

theorem acceptBlockOn_of_judge (hsigned : checkSigned db block = .ok ())
    (hsuper : supersedeDeadTip db block = .ok db₀) (hjudge : judgeBlock env params block db₀ = .error e) :
    acceptBlockOn env params block db = (.error e, db₀) := by
  rw [acceptBlockOn, hsigned]
  dsimp only
  rw [hsuper]
  dsimp only
  rw [hjudge]

/-! ## The tip that is taken back -/

/-- The offered block's certificate verifies, and the tip is from an earlier round, neither finalized nor
locked. -/
structure Db.Supersedes (db : Db) (block tip : ChainBlock) (cert : RoundCertificate) : Prop where
  signed : checkSigned db block = .ok ()
  height : db.state.tip = some block.height
  positive : 0 < block.height
  unfinalized : db.finality block.height = none
  held : db.state.blocks block.height = some tip
  later : tip.round < block.round
  unlocked : db.locks block.height ≠ some tip.hash
  carried : block.roundCertificate = some cert
  certified : db.Certified block cert

omit [Zk] [Decode] in
theorem Db.Supersedes.superseded (h : db.Supersedes block tip cert)
    (hrevert : db.revertTo (block.height - 1) = .ok db₀) : supersedeDeadTip db block = .ok db₀ := by
  refine (supersedeDeadTip_eq_ok_iff h.carried).mpr (.inr ⟨fun hkeeps => ?_, h.certified, hrevert⟩)
  obtain (hheight | hzero | hfinal) | hround | hlock := hkeeps _ _ h.height h.held
  · exact hheight rfl
  · exact absurd hzero h.positive.ne'
  · rw [h.unfinalized] at hfinal
    cases hfinal
  · exact absurd h.later (Nat.not_lt_of_le hround)
  · exact h.unlocked hlock

omit [Zk] [Decode] in
/-- **Only such a tip is taken back.** -/
theorem supersedes_of_superseded (hsigned : checkSigned db block = .ok ())
    (h : supersedeDeadTip db block = .ok db₀) :
    db₀ = db ∨ ∃ tip cert, db.Supersedes block tip cert ∧ db.revertTo (block.height - 1) = .ok db₀ := by
  cases hcert : block.roundCertificate with
  | none => exact .inl (Except.ok.inj ((supersedeDeadTip_of_none hcert).symm.trans h)).symm
  | some cert =>
    refine ((supersedeDeadTip_eq_ok_iff hcert).mp h).imp And.right ?_
    rintro ⟨hkeeps, hcertified, hrevert⟩
    simp only [Db.KeepsTip, not_forall, not_or, not_not, not_le] at hkeeps
    obtain ⟨height, tip, htip, hheld, ⟨rfl, hpos, hfinal⟩, hlater, hunlocked⟩ := hkeeps
    exact ⟨tip, cert, ⟨hsigned, htip, Nat.pos_of_ne_zero hpos, by simpa using hfinal, hheld, hlater,
      hunlocked, hcert, hcertified⟩, hrevert⟩

/-- What a certificate for the block's round shows. -/
structure Db.TimedOut (db : Db) (block : ChainBlock) (cert : RoundCertificate) : Prop where
  height : cert.height = block.height
  round : cert.round = block.round - 1
  quorum : quorumPower ≤ signedPower (db.getValidatorSetAt block.height) cert.signers
  signed : ∃ keys genesis,
    signerKeys db (db.getValidatorSetAt block.height) block.height block.round [] cert.signers = .ok keys ∧
    db.genesisHashBytes = .ok genesis ∧
    blsVerifyAggregate (roundTimeoutSigningBytes genesis block.height cert.round block.parentHash) keys
      cert.aggregateSignature = true

omit [Wire ActionPayload] [Zk] [StateTrie] [Decode] in
theorem Db.Certified.timedOut (h : db.Certified block cert) : db.TimedOut block cert := by
  obtain ⟨_, hround, h⟩ := bind_eq_ok.mp h
  obtain ⟨_, hpower, h⟩ := bind_eq_ok.mp h
  obtain ⟨_, -, h⟩ := bind_eq_ok.mp h
  obtain ⟨keys, hkeys, h⟩ := bind_eq_ok.mp h
  obtain ⟨genesis, hgenesis, h⟩ := bind_eq_ok.mp h
  have hround := rejectIf_eq_ok.mp hround
  simp only [ne_eq, Bool.or_eq_false_iff, decide_eq_false_iff_not, not_not] at hround
  have hverify := rejectIf_eq_ok.mp h
  rw [← hround.2] at hverify
  exact ⟨hround.1, hround.2, by simpa using rejectIf_eq_ok.mp hpower, keys, genesis, hkeys,
    mapError_eq_ok.mp hgenesis, by simpa using hverify⟩

/-! ## What is left -/

/-- **A tip that cannot be decided any more, taken back**: neither finalized nor locked, from an earlier
round than the offered block, which shows that a quorum gave up a round not below the tip's on the very
parent this node holds.  The node is left as it was right after that parent. -/
structure Db.DeadTipUnwound (states : Nat → ChainState) (db : Db) (block tip parent : ChainBlock)
    (cert : RoundCertificate) (db' : Db) : Prop where
  height : db.state.tip = some block.height
  held : db.state.blocks block.height = some tip
  unfinalized : db.finality block.height = none
  unlocked : db.locks block.height ≠ some tip.hash
  later : tip.round < block.round
  carried : block.roundCertificate = some cert
  notBelow : tip.round ≤ cert.round
  timedOut : db.TimedOut block cert
  heldParent : db.state.blocks (block.height - 1) = some parent
  overParent : parseHash block.parentHash = some parent.hash
  left : db' = db.unwound (block.height - 1) (states (block.height - 1))

variable {g : Db} {s₀ : ChainState} {calls : Nat → Call} {states : Nat → ChainState}

/-- The tip of a node that remembers can be taken back. -/
theorem Db.Supersedes.revertTo_eq (h : db.Supersedes block tip cert) (hdb : db.Records s₀ calls states) :
    db.revertTo (block.height - 1) = .ok (db.unwound (block.height - 1) (states (block.height - 1))) := by
  have htip : db.tipHeight = block.height := by rw [Db.tipHeight, h.height, Option.getD_some]
  have hpos := h.positive
  refine hdb.revertTo_eq (Nat.le_of_not_lt fun hlt => ?_) (by omega)
  have hfinal := hdb.passed block.height hpos (by omega)
  rw [h.unfinalized] at hfinal
  cases hfinal

omit [Zk] [StateTrie] [Decode] in
theorem Db.Supersedes.unwound (h : db.Supersedes block tip cert)
    (hparent : db.state.blocks (block.height - 1) = some parent)
    (hnames : parseHash block.parentHash = some parent.hash) :
    db.DeadTipUnwound states block tip parent cert
      (db.unwound (block.height - 1) (states (block.height - 1))) := by
  have hround := h.certified.timedOut.round
  have hlater := h.later
  exact ⟨h.height, h.held, h.unfinalized, h.unlocked, hlater, h.carried, by omega, h.certified.timedOut,
    hparent, hnames, rfl⟩

/-- The parent of a tip that was taken back is the new tip, and a block that names another is refused. -/
theorem Db.Supersedes.rejected (h : db.Supersedes block tip cert) (hdb : db.Records s₀ calls states)
    (hparent : db.state.blocks (block.height - 1) = some parent)
    (hnames : parseHash block.parentHash ≠ some parent.hash) :
    ∃ e, judgeBlock env params block (db.unwound (block.height - 1) (states (block.height - 1))) =
      .error e := by
  have hpos := h.positive
  have htip : db.tipHeight = block.height := by rw [Db.tipHeight, h.height, Option.getD_some]
  have hle : block.height - 1 ≤ db.tipHeight := by omega
  have htip' : (db.unwound (block.height - 1) (states (block.height - 1))).tipHeight = block.height - 1 := by
    rw [Db.tipHeight, Db.unwound, hdb.tips _ hle, Option.getD_some]
  have hnew : (db.unwound (block.height - 1) (states (block.height - 1))).state.blocks
      (db.unwound (block.height - 1) (states (block.height - 1))).tipHeight = some parent := by
    rw [htip']
    change (states (block.height - 1)).blocks (block.height - 1) = some parent
    rw [hdb.blocks_states hle, if_pos le_rfl, hparent]
  cases hjudge : judgeBlock env params block
      (db.unwound (block.height - 1) (states (block.height - 1))) with
  | error e => exact ⟨e, rfl⟩
  | ok db' =>
    obtain ⟨_, -, hjudge⟩ := bind_eq_ok.mp hjudge
    rw [hnew] at hjudge
    obtain ⟨_, hcheck, -⟩ := bind_eq_ok.mp hjudge
    obtain ⟨_, hsame, -⟩ := bind_eq_ok.mp hcheck
    have hsame := rejectIf_eq_ok.mp hsame
    simp only [ne_eq, decide_eq_false_iff_not, not_not] at hsame
    exact absurd hsame hnames

/-- **A rejected block leaves no trace but a dead tip's unwinding, exactly when** no block that would
supersede the tip names another parent than the one held. -/
theorem rejection_traceless_iff (hg : g.IsGenesis)
    (hroot : ∃ b, g.state.blocks 0 = some b ∧ b.stateRoot = hashText (stateRoot g.state.trie))
    (h : Db.Recorded g calls states db) (env : NodeEnv) (params : ChainParams) (block : ChainBlock) :
    (∀ e db', acceptBlockOn env params block db = (.error e, db') →
      db' = db ∨ ∃ tip parent cert, db.DeadTipUnwound states block tip parent cert db') ↔
    ∀ tip parent cert, db.Supersedes block tip cert →
      db.state.blocks (block.height - 1) = some parent → parseHash block.parentHash = some parent.hash := by
  have hrecords := h.records hg hroot
  constructor
  · intro htraceless tip parent cert hsuper hparent
    by_contra hnames
    obtain ⟨e, hjudge⟩ : ∃ e, judgeBlock env params block _ = .error e :=
      hsuper.rejected hrecords hparent hnames
    have herror := acceptBlockOn_of_judge hsuper.signed
      (hsuper.superseded (hsuper.revertTo_eq hrecords)) hjudge
    rcases htraceless _ _ herror with hsame | ⟨tip', parent', cert', hunwound⟩
    · have hpos := hsuper.positive
      have htip : db.tipHeight = block.height := by rw [Db.tipHeight, hsuper.height, Option.getD_some]
      have hnew : (states (block.height - 1)).tip = db.state.tip := congrArg (·.state.tip) hsame
      rw [hrecords.tips _ (by omega), hsuper.height, Option.some.injEq] at hnew
      omega
    · obtain rfl := Option.some.inj (hparent.symm.trans hunwound.heldParent)
      exact hnames hunwound.overParent
  · intro hnames e db' herror
    rcases acceptBlockOn_error herror with hsame | ⟨hsigned, hsuper⟩
    · exact .inl hsame
    rcases supersedes_of_superseded hsigned hsuper with hsame | ⟨tip, cert, hdead, hrevert⟩
    · exact .inl hsame
    obtain rfl := Except.ok.inj ((hdead.revertTo_eq hrecords).symm.trans hrevert)
    have htip : db.tipHeight = block.height := by rw [Db.tipHeight, hdead.height, Option.getD_some]
    obtain ⟨parent, hparent, -⟩ := hrecords.rooted (block.height - 1) (by omega)
    exact .inr ⟨tip, parent, cert, hdead.unwound hparent (hnames tip parent cert hdead hparent)⟩

end Reject

/-! ## A block on another parent -/

namespace Solo

open PlainChain

attribute [local instance] crypto wire Plain.zk trie Plain.decoders

set_option maxRecDepth 20000

/-- The chain of one validator that has registered a key. -/
def keyed : Db := { db [] with state := { (db []).state with blsHistory := fun _ => some [1] } }

theorem isGenesis_keyed : keyed.IsGenesis :=
  ⟨rfl, (isGenesis_db []).blocks, fun _ => rfl, fun _ => rfl, fun _ => rfl, rfl, rfl⟩

theorem keyed_root : ∃ b, keyed.state.blocks 0 = some b ∧
    b.stateRoot = hashText (stateRoot keyed.state.trie) := ⟨genesisBlock, rfl, by decide +kernel⟩

/-- A second block for height one, whose certificate gives up the round of the first. -/
def rival (parentHash stateRoot : String) : ChainBlock :=
  { block 1 [] with
    round := 1
    roundCertificate := some ⟨1, 0, [proposer], []⟩
    parentHash := parentHash
    stateRoot := stateRoot }

/-- What the node is left with when the rival comes after the first block. -/
def rejects (parentHash stateRoot : String) (error : AcceptBlockError) : Bool :=
  match acceptBlock env params (block 1 []) keyed with
  | .error _ => false
  | .ok db₁ => decide ((db₁.undo 1).map (fun u => (u.rows : List RowWrite).map (·.key)) = some sealedKeys) &&
    decide (db₁.tipHeight = 1 ∧ (db₁.state.blocks 0).map (·.hash) = some [0]) &&
    match acceptBlockOn env params (rival parentHash stateRoot) db₁ with
    | (.ok _, _) => false
    | (.error e, db₂) => decide (e = error ∧ db₂.tipHeight = 0)

theorem exists_rejected {parentHash stateRoot : String} {error : AcceptBlockError}
    (h : rejects parentHash stateRoot error = true) :
    ∃ calls states db₁ db₂, Db.Recorded keyed calls states db₁ ∧ db₁.tipHeight = 1 ∧
      (∀ parent, db₁.state.blocks 0 = some parent → parent.hash = [0]) ∧
      acceptBlockOn env params (rival parentHash stateRoot) db₁ = (.error error, db₂) ∧
      db₂.tipHeight = 0 := by
  unfold rejects at h
  cases haccept : acceptBlock env params (block 1 []) keyed with
  | error e => rw [haccept] at h; cases h
  | ok db₁ =>
    rw [haccept] at h
    simp only [Bool.and_eq_true, decide_eq_true_eq] at h
    obtain ⟨⟨hkeys, htip, hgenesis⟩, h⟩ := h
    have hrecorded := (Db.Recorded.start fun _ => ⟨env, params, block 1 []⟩).accept haccept
      (injOn_sealedKeys hkeys)
    cases hrival : acceptBlockOn env params (rival parentHash stateRoot) db₁ with
    | mk verdict db₂ =>
      rw [hrival] at h
      cases verdict with
      | ok => cases h
      | error e =>
        obtain ⟨rfl, hleft⟩ := of_decide_eq_true h
        refine ⟨_, _, db₁, db₂, hrecorded, htip, fun parent hparent => ?_, hrival, hleft⟩
        rw [hparent] at hgenesis
        exact Option.some.inj hgenesis

theorem rejects_root : rejects (hashText [0]) "0x1" (.stateRootMismatch 1 "0x" "0x1") = true := by
  decide +kernel

theorem rejects_parent : rejects (hashText [9]) "0x" (.parentMismatch [0] (hashText [9])) = true := by
  decide +kernel

/-- A rival on the held parent with a wrong root costs the node its dead tip, and nothing else. -/
theorem rejection_traceless_root : ∃ calls states db₁ db₂ tip parent cert,
    Db.Recorded keyed calls states db₁ ∧
    acceptBlockOn env params (rival (hashText [0]) "0x1") db₁ =
      (.error (.stateRootMismatch 1 "0x" "0x1"), db₂) ∧
    db₁.DeadTipUnwound states (rival (hashText [0]) "0x1") tip parent cert db₂ := by
  obtain ⟨calls, states, db₁, db₂, hrecorded, htip, hgenesis, herror, hleft⟩ := exists_rejected rejects_root
  have htraceless := (rejection_traceless_iff isGenesis_keyed keyed_root hrecorded env params
    (rival (hashText [0]) "0x1")).mpr fun tip parent cert _ hparent => by
      rw [hgenesis parent hparent]
      decide +kernel
  rcases htraceless _ _ herror with rfl | ⟨tip, parent, cert, hunwound⟩
  · omega
  · exact ⟨calls, states, db₁, db₂, tip, parent, cert, hrecorded, herror, hunwound⟩

/-- **A block on another parent is refused, and the tip is gone.** -/
theorem mismatched_parent_drops_tip : ∃ calls states db₁ db₂, Db.Recorded keyed calls states db₁ ∧
    db₁.tipHeight = 1 ∧ acceptBlockOn env params (rival (hashText [9]) "0x") db₁ =
      (.error (.parentMismatch [0] (hashText [9])), db₂) ∧ db₂.tipHeight = 0 ∧
    ¬ (db₂ = db₁ ∨ ∃ tip parent cert,
      db₁.DeadTipUnwound states (rival (hashText [9]) "0x") tip parent cert db₂) := by
  obtain ⟨calls, states, db₁, db₂, hrecorded, htip, hgenesis, herror, hleft⟩ := exists_rejected rejects_parent
  refine ⟨calls, states, db₁, db₂, hrecorded, htip, herror, hleft, ?_⟩
  rintro (rfl | ⟨tip, parent, cert, hunwound⟩)
  · omega
  · have hover := hunwound.overParent
    rw [hgenesis parent hunwound.heldParent] at hover
    exact absurd hover (by decide +kernel)

end Solo

end Arxium
