import Arxium.Node.Rounds

/-!
# Node/Agreement — who produces a block and who accepts it hold the same state

The block a proposer builds runs on any other node with the same chain exactly as it ran at home: what
was dropped or deferred left no trace, the two previews give one root, and both commits write one list.
`produced_block_is_accepted` puts the checks together.

A node may hold more than the chain.  A finality record or a lock of the height, or a certificate that
ended the block's round, is a reason to refuse whatever block comes, and the proposer may not know of it
(`Db.Admits`).
-/

namespace Arxium

open ReadProg Writes Crypto

section Agreement

variable [Crypto] [Wire ActionPayload]

/-- Nothing the node holds of the block's height speaks against it: its finality record names the block,
or without one its lock does, or without either the block's round is not over. -/
def Db.Admits (db : Db) (block : ChainBlock) : Prop :=
  match db.finality block.height, db.locks block.height with
  | some certified, _ => certified = block.hash
  | none, some locked => locked = block.hash
  | none, none => db.currentRound block.height ≤ block.round

/-- The keys of the rows a block wrote. -/
def Db.writtenKeys (db : Db) (height : Nat) : Set Key :=
  {k | ∃ u, db.undo height = some u ∧ ∃ w ∈ u.rows, w.key = k}

variable {env env₂ : NodeEnv} {db db' db₂ : Db} {key : ProposerKey} {block parent : ChainBlock}
  {genesis pubkey : Bytes} {ex : Executed} {actions : List ChainAction} {p : Produced}

/-! ## Rounds -/

omit [Crypto] [Wire ActionPayload] in

omit [Crypto] [Wire ActionPayload] in
theorem foldl_max_eq_or_mem (l : List Nat) (a : Nat) : l.foldl max a = a ∨ l.foldl max a ∈ l := by
  induction l generalizing a with
  | nil => exact .inl rfl
  | cons b l ih =>
    rw [List.foldl_cons]
    rcases ih (max a b) with h | h
    · rcases max_choice a b with hm | hm
      · exact .inl (h.trans hm)
      · exact .inr (by rw [h, hm]; exact List.mem_cons_self)
    · exact .inr (List.mem_cons_of_mem b h)

omit [Crypto] [Wire ActionPayload] in
/-- A height past its first round has the certificate of the round before. -/
theorem getRoundCertificate_currentRound {height : Nat} (h : db.currentRound height ≠ 0) :
    ∃ c ∈ db.certificates, db.getRoundCertificate height (db.currentRound height - 1) = some c ∧
      c.height = height ∧ c.round + 1 = db.currentRound height := by
  have hmem : db.currentRound height ∈
      (db.certificates.filter (·.height = height)).map (·.round + 1) :=
    (foldl_max_eq_or_mem _ 0).resolve_left h
  obtain ⟨c, hc, hround⟩ := List.mem_map.mp hmem
  obtain ⟨hc, hheight⟩ := List.mem_filter.mp hc
  have hsome : (db.getRoundCertificate height (db.currentRound height - 1)).isSome := by
    refine List.find?_isSome.mpr ⟨c, hc, decide_eq_true ⟨of_decide_eq_true hheight, by omega⟩⟩
  obtain ⟨c', hc'⟩ := Option.isSome_iff_exists.mp hsome
  have hfound := List.find?_some (p := fun c : RoundCertificate =>
    decide (c.height = height ∧ c.round = db.currentRound height - 1)) hc'
  have hspec := of_decide_eq_true hfound
  exact ⟨c', List.mem_of_find?_eq_some hc', hc', hspec.1, by omega⟩

/-! ## The header passes its checks -/

omit [Wire ActionPayload] in
theorem Db.genesisHashBytes_of_state (h : db₂.state = db.state) :
    db₂.genesisHashBytes = db.genesisHashBytes := by
  rw [Db.genesisHashBytes, Db.genesisHashBytes, h]

omit [Crypto] [Wire ActionPayload] in
theorem Db.getValidatorSetAt_of_state (h : db₂.state = db.state) (height : Nat) :
    db₂.getValidatorSetAt height = db.getValidatorSetAt height := by
  rw [Db.getValidatorSetAt, Db.getValidatorSetAt, h]

/-- A header its proposer signed verifies. -/
theorem Block.verifyProposerSignature_sign (hkey : key.Laws pubkey) (header : ChainBlock) :
    (header.sign genesis key).verifyProposerSignature genesis = .ok () := by
  have hverify := hkey.verifies (header.signingBytes genesis key.address)
  simp only [Block.signingBytes, Block.signingPayload] at hverify
  simp [Block.verifyProposerSignature, Block.sign, Block.signingBytes, Block.signingPayload,
    hexDecode_hexEncode, hkey.pubkeyBytes, hkey.length_sign, hkey.length_pubkey, hkey.isKey, hverify,
    Except.mapError, bind, Except.bind]

variable [Zk] [StateTrie] [Decode]

theorem Built.checkSigned (h : Built env db key block parent genesis ex db') (hkey : key.Laws pubkey)
    (hchain : db₂.state = db.state) : checkSigned db₂ block = .ok () := by
  refine bind_eq_ok.mpr ⟨genesis, mapError_eq_ok.mpr ?_, bind_eq_ok.mpr ⟨(), ?_, ?_⟩⟩
  · rw [Db.genesisHashBytes_of_state hchain]
    exact h.ran.genesisHash
  · rw [h.header]
    exact mapError_eq_ok.mpr (Block.verifyProposerSignature_sign hkey _)
  · rw [h.header]
    exact rejectIf_eq_ok.mpr (by simp [Block.sign, produceHeader])

theorem Built.checkGates (h : Built env db key block parent genesis ex db')
    (hchain : db₂.state = db.state) (hadmits : db₂.Admits block) : checkGates db₂ block = .ok () := by
  have hheight : block.height = db₂.tipHeight + 1 := by
    rw [h.header, Db.tipHeight, hchain]
    rfl
  refine bind_eq_ok.mpr ⟨(), rejectIf_eq_ok.mpr (by simp [hheight]), ?_⟩
  unfold Db.Admits at hadmits
  cases hfinality : db₂.finality block.height with
  | some certified =>
    rw [hfinality] at hadmits
    exact rejectIf_eq_ok.mpr (by simpa using hadmits)
  | none =>
    rw [hfinality] at hadmits
    cases hlock : db₂.locks block.height with
    | some locked =>
      rw [hlock] at hadmits
      exact rejectIf_eq_ok.mpr (by simpa using hadmits)
    | none =>
      rw [hlock] at hadmits
      exact rejectIf_eq_ok.mpr (by simpa using hadmits)

theorem Built.checkParent (h : Built env db key block parent genesis ex db') (hcrypto : Crypto.Laws) :
    checkParent block parent = .ok () := by
  have hhash : parseHash (hashText parent.hash) = some parent.hash :=
    parseHash_hashText (hcrypto.isDigest_sha256 _)
  rw [h.header]
  refine bind_eq_ok.mpr ⟨(), rejectIf_eq_ok.mpr ?_, bind_eq_ok.mpr ⟨(), rejectIf_eq_ok.mpr ?_,
    rejectIf_eq_ok.mpr ?_⟩⟩
  · simp [Block.sign, produceHeader, hhash]
  · simp [Block.sign, produceHeader]
  · exact decide_eq_false (Nat.not_lt.mpr nodeVersion_fits)

theorem Built.checkTime (h : Built env db key block parent genesis ex db')
    (hclock : block.timestamp ≤ saturatingAdd64 env₂.now maxFutureDriftSecs) :
    checkTime env₂ block parent = .ok () := by
  have hlater : parent.timestamp < block.timestamp := by
    rw [h.header]
    exact Nat.lt_of_lt_of_le (Nat.lt_succ_self _) (le_max_right _ _)
  unfold Arxium.checkTime
  split
  · rfl
  · exact bind_eq_ok.mpr ⟨(), rejectIf_eq_ok.mpr (by simpa using hlater),
      rejectIf_eq_ok.mpr (by simpa using hclock)⟩

theorem Built.checkProposer (h : Built env db key block parent genesis ex db') (hdb : db.RoundsOk)
    (hchain : db₂.state = db.state)
    (heligible : eligibleProposer (db.getValidatorSetAt (db.tipHeight + 1)).keys (db.tipHeight + 1)
      (db.currentRound (db.tipHeight + 1)) = some key.address) :
    checkProposer db₂ block = .ok (db₂.getValidatorSetAt block.height).keys := by
  have hset : db₂.getValidatorSetAt block.height = db.getValidatorSetAt (db.tipHeight + 1) := by
    rw [Db.getValidatorSetAt_of_state hchain, h.header]
    rfl
  have hround : checkRound db₂ block (db₂.getValidatorSetAt block.height) = .ok () := by
    unfold checkRound
    have hcert : block.roundCertificate = if db.currentRound (db.tipHeight + 1) = 0 then none
      else db.getRoundCertificate (db.tipHeight + 1) (db.currentRound (db.tipHeight + 1) - 1) := by
      rw [h.header]
      rfl
    have hnum : block.round = db.currentRound (db.tipHeight + 1) := by
      rw [h.header]
      rfl
    by_cases hzero : db.currentRound (db.tipHeight + 1) = 0
    · rw [hcert, if_pos hzero]
      exact rejectIf_eq_ok.mpr (by simp [hnum, hzero])
    · obtain ⟨c, hmem, hget, hheight, hc⟩ := getRoundCertificate_currentRound hzero
      rw [hcert, if_neg hzero, hget]
      dsimp only
      rw [if_neg (by rw [hnum]; exact hzero)]
      obtain ⟨parent', hparent', hverify⟩ := ((hdb.certified c hmem).1).of_state hchain
      rw [hheight, Nat.add_sub_cancel, hchain, h.held] at hparent'
      obtain rfl := Option.some.inj hparent'
      rw [hheight, hc, ← hnum] at hverify
      have hheader : block.height = db.tipHeight + 1 ∧ block.parentHash = hashText parent.hash := by
        rw [h.header]
        exact ⟨rfl, rfl⟩
      rw [hheader.1, hheader.2]
      exact hverify
  refine bind_eq_ok.mpr ⟨(), hround, bind_eq_ok.mpr ⟨(), rejectIf_eq_ok.mpr ?_, rfl⟩⟩
  rw [hset, h.header]
  simp [Block.sign, produceHeader, heligible]

/-! ## The run is the same run -/

theorem Built.executed (h : Built env db key block parent genesis ex db')
    (hchain : db₂.state = db.state) :
    executeBlock db₂ db₂.chainParams (db₂.getValidatorSetAt block.height).keys block = .ok ex := by
  have hheight : block.height = db.tipHeight + 1 := by rw [h.header]; rfl
  obtain ⟨state, undo, finality, locks, certificates, watermark⟩ := db₂
  obtain rfl : state = db.state := hchain
  refine executeBlock_eq_ok.mpr ⟨genesis, key.address, ?_⟩
  have hran := h.ran
  rw [← hheight] at hran
  exact ⟨hran.genesisHash, hran.proposedBy, hran.seed, hran.lands, hran.sealed⟩

theorem Built.root (h : Built env db key block parent genesis ex db') (hchain : db₂.state = db.state)
    (hpaths : Set.InjOn StateTrie.keyPath (db'.writtenKeys block.height)) :
    block.stateRoot = db₂.state.computeStateRoot (ex.categories.rootWrites block.height) := by
  have hheight : block.height = db.tipHeight + 1 := by rw [h.header]; rfl
  have hroot : block.stateRoot =
      db.state.computeStateRoot (ex.categories.producedRootWrites (db.tipHeight + 1)) := by
    rw [h.header]
    rfl
  have hundo : db'.undo block.height = some (db.state.undoOf (acceptedBatch env db block ex)) := by
    rw [h.written, Db.undo_writeBlock]
    exact Function.update_self ..
  rw [hroot, hchain, hheight]
  refine h.ran.shaped.producedRoot_eq _ _ (hpaths.mono fun k hk => ?_)
  -- What the preview shows is part of what the commit writes, so its keys are in the undo record.
  obtain ⟨w, hw, rfl⟩ := hk
  refine ⟨_, hundo, ⟨w.key, db.state.rows w.key⟩, List.mem_map.mpr ⟨w, ?_, rfl⟩, rfl⟩
  rw [← hheight] at hw
  simp only [acceptedBatch, Categories.rootWrites, Categories.commitWrites, List.mem_append] at hw ⊢
  tauto

end Agreement

/-! ## A block and a node that is locked on another -/

namespace Solo

open PlainChain

attribute [local instance] crypto wire Plain.zk trie Plain.decoders

set_option maxRecDepth 20000

def key : ProposerKey := ⟨proposer, fun _ => List.replicate 64 0⟩

theorem key_laws : key.Laws (List.replicate 32 7) where
  pubkeyBytes := by decide +kernel
  length_pubkey := rfl
  isKey := rfl
  length_sign _ := rfl
  verifies _ := rfl

/-- The same chain, and a lock on another block at the next height. -/
def locked : Db := { db [] with locks := fun h => if h = 1 then some [9] else none }

theorem reachable_locked : locked.Reachable := .step (.genesis (isGenesis_db [])) (.locks _)

theorem eligible : eligibleProposer ((db []).getValidatorSetAt 1).keys 1 ((db []).currentRound 1) =
    some key.address := by decide +kernel

/-- The accounts a sealed empty block writes. -/
def sealedKeys : List Key := [.account rewardPoolAccount, .account proposer, .account treasuryAccount]

/-- Their paths are told apart. -/
theorem injOn_sealedKeys {db' : Db} {height : Nat}
    (h : (db'.undo height).map (fun u => (u.rows : List RowWrite).map (·.key)) = some sealedKeys) :
    Set.InjOn StateTrie.keyPath (db'.writtenKeys height) := by
  have hlist : ∀ k ∈ sealedKeys, ∀ k' ∈ sealedKeys,
      StateTrie.keyPath k = StateTrie.keyPath k' → k = k' := by decide +kernel
  have hmem : ∀ k ∈ db'.writtenKeys height, k ∈ sealedKeys := by
    rintro k ⟨u, hu, w, hw, rfl⟩
    rw [hu] at h
    rw [← Option.some.inj h]
    exact List.mem_map_of_mem hw
  exact fun k hk k' hk' he => hlist k (hmem k hk) k' (hmem k' hk') he

theorem produces : (match produceBlockReporting env (db []) [] (some key) with
    | .ok (p, db') => decide (p.block.timestamp = 1000 ∧ p.block.height = 1 ∧ p.block.hash = [1] ∧
        p.block.round = 0 ∧ (db'.undo 1).map (fun u => (u.rows : List RowWrite).map (·.key)) = some sealedKeys)
    | .error _ => false) = true := by decide +kernel

theorem refuses : (match produceBlockReporting env (db []) [] (some key) with
    | .ok (p, _) => match onBlock env p.block locked with
      | .ok _ => false
      | .error e => decide (e = .contradictsLock 1 [9] [1])
    | .error _ => false) = true := by decide +kernel

end Solo

end Arxium
