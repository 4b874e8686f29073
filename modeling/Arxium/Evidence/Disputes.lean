import Arxium.Runtime.Sender
import Arxium.Node.Run

/-!
# Evidence/Disputes — recording a block shown to be wrong

An execution fault that adjudication upholds against the proposer leaves three rows: a marker of the
height and the proposer, and two rows of the disputed header.  The handler refuses a second fault of
the same height and proposer by the marker.  A marker does not say which header it is about: whoever
has one at a height is safe from every dispute over another header of that height.
-/

namespace Arxium

open ReadProg Writes Crypto

/-! ## What adjudication has checked -/

theorem decodeField_eq_ok {field s : String} {b : Bytes} :
    decodeField field s = .ok b ↔ decodeHex s = some b := by
  unfold decodeField
  cases decodeHex s <;> simp

/-- A digest reads the same as a hash and as a field of an artifact. -/
theorem eq_of_parseHash [Crypto] {s : String} {b c : Bytes} (hb : decodeHex s = some b)
    (hc : parseHash s = some c) : b = c := by
  obtain ⟨digits, hdigits, hc⟩ : ∃ digits, hexDecodeChars digits = some c ∧
      (digits = stripHexPrefix s ∨ ∃ rest, s.toList = '0' :: 'X' :: rest) := by
    unfold parseHash at hc
    obtain ⟨bytes, hbytes, hd⟩ := Option.bind_eq_some_iff.mp hc
    obtain rfl : bytes = c := (Option.ite_none_right_eq_some.mp hd).2 |> Option.some.inj
    refine ⟨_, hbytes, ?_⟩
    unfold stripHexPrefix
    split <;> simp_all
  rcases hc with rfl | ⟨rest, hrest⟩
  · exact Option.some.inj (hb.symm.trans hdigits)
  · -- no hex digit is an `X`, so the artifact's decoder takes no such text
    rw [decodeHex, stripHexPrefix, hrest] at hb
    simp [hexDecodeChars, hexVal] at hb

section Checked

variable [Crypto] [Wire ActionPayload] [StateTrie] {artifact : EvidenceArtifact}
  {proposerPubkey voterPubkey : String} {height : Nat} {attestation : BlockAttestation}
  {actions : List String} {claim : BlockDissentClaim}

/-- **What the signature check of a disputed block leaves behind**: a key, and the bytes it signed. -/
theorem verifyArtifact_blockDivergence {verdict : Verdict}
    (hfault : artifact.fault =
      .blockDivergence proposerPubkey voterPubkey height attestation actions claim)
    (h : verifyArtifact artifact = .ok verdict) :
    ∃ genesis key bytes, decodeHex artifact.genesisHash = some genesis ∧
      decodeHex proposerPubkey = some key ∧
      signingBytesFor genesis attestation.header = .ok bytes ∧
      attestation.header.height = height := by
  unfold verifyArtifact at h
  obtain ⟨-, h⟩ := guard_eq_ok.mp h
  obtain ⟨genesis, hgenesis, h⟩ := bind_eq_ok.mp h
  obtain ⟨bytes, hfield, hgenesis⟩ := bind_eq_ok.mp hgenesis
  obtain rfl : bytes = genesis := by
    split at hgenesis
    · exact Except.ok.inj hgenesis
    · cases hgenesis
  rw [hfault] at h
  obtain ⟨key, hkey, h⟩ := bind_eq_ok.mp h
  obtain ⟨_, hfieldKey, hkey⟩ := bind_eq_ok.mp hkey
  obtain ⟨-, hkey⟩ := guard_eq_ok.mp hkey
  obtain ⟨-, hkey⟩ := guard_eq_ok.mp hkey
  obtain rfl := Except.ok.inj hkey
  obtain ⟨_, -, h⟩ := bind_eq_ok.mp h
  obtain ⟨-, h⟩ := guard_eq_ok.mp h
  obtain ⟨hheight, h⟩ := guard_eq_ok.mp h
  obtain ⟨signed, hsigned, -⟩ := bind_eq_ok.mp h
  exact ⟨bytes, _, signed, decodeField_eq_ok.mp hfield, decodeField_eq_ok.mp hfieldKey, hsigned,
    not_not.mp hheight⟩

/-- What adjudication names, it names after that check. -/
theorem verifyArtifact_of_adjudicate [Zk] [Decode] {outcome : AdjudicationOutcome}
    (h : Adjudicate.adjudicateBlockDivergence artifact = .ok outcome) :
    ∃ verdict, verifyArtifact artifact = .ok verdict := by
  unfold Adjudicate.adjudicateBlockDivergence Adjudicate.replayBlockDivergence at h
  cases hv : verifyArtifact artifact with
  | ok verdict => exact ⟨verdict, rfl⟩
  | error e =>
    rw [hv] at h
    cases h

end Checked

/-! ## The rows of a dispute -/

/-- The header's hash, as the dispute rows name it. -/
def disputeHash [Crypto] [Wire ActionPayload] (genesisHash : String) (header : CanonicalHeader) :
    Option Bytes := do
  let genesis ← decodeHex genesisHash
  let bytes ← (signingBytesFor genesis header).toOption
  return sha256 bytes

/-- The address a hex key belongs to. -/
def keyAddress [Crypto] (pubkey : String) : Option Address :=
  (decodeHex pubkey).map Address.fromPubkeyBytes

namespace Rows

/-- A dispute against this header was recorded. -/
def Disputed (rows : Rows) (height : Nat) (header : Bytes) : Prop :=
  (rows (.disputedBlock height header)).isSome = true

/-- A fault of this culprit at this height was acted on. -/
def Marked (rows : Rows) (height : Nat) (culprit : Address) : Prop :=
  (rows (.evidenceMarker height culprit)).isSome = true

def genesisText (rows : Rows) : Option String := rows .genesisHash

/-- The artifact is about the chain these rows are of. -/
def IsGenesisOf [Crypto] (rows : Rows) (genesisHash : String) : Prop :=
  ∃ text, rows.genesisText = some text ∧
    Runtime.genesisHashMatches text genesisHash = true

/-- Both rows of one header are there, and no other dispute changed. -/
structure RecordsDispute (rows rows' : Rows) (height : Nat) (header : Bytes) : Prop where
  disputed : rows'.Disputed height header
  opened : (rows' (.disputeOpen height header)).isSome = true
  others : ∀ k other, (k, other) ≠ (height, header) →
    rows' (.disputedBlock k other) = rows (.disputedBlock k other) ∧
      rows' (.disputeOpen k other) = rows (.disputeOpen k other)

end Rows

/-- A marker of a dispute records it, whatever accounts were written beside it. -/
theorem EvidenceMarker.recordsDispute {rows : Rows} {m : EvidenceMarker} {header : Bytes}
    (hm : m.disputed = some header) {u : BlockUpdates}
    (hu : Runtime.SameButAccounts { evidence := some m } u) :
    rows.RecordsDispute (Writes.apply u.stateWrites rows) m.height header := by
  obtain ⟨accounts, rfl⟩ := hu
  have hlookup : ∀ k, (∀ a, k ≠ .account a) → Writes.apply
      (BlockUpdates.stateWrites { accounts := accounts, evidence := some m }) rows k =
        Writes.apply m.writes rows k := by
    intro k hk
    have haccounts : lookup (accountWrites accounts) k = none := by
      refine lookup_eq_none fun w hw hkey => ?_
      obtain ⟨p, -, rfl⟩ := List.mem_map.mp hw
      exact hk p.1 hkey.symm
    rw [Writes.apply_apply, Writes.apply_apply]
    simp [BlockUpdates.stateWrites, statusWrites, StakeUpdates.writes, OperatorUpdates.writes,
      assetBalanceWrites, holderStateWrites, haccounts]
  have hwrites : m.writes = [put (.evidenceMarker m.height m.proposer) (),
      put (.disputedBlock m.height header) (), put (.disputeOpen m.height header)
        (⟨m.proposer, m.challenger.getD m.proposer, m.cause.getD .bug⟩ : OpenDispute)] := by
    rw [EvidenceMarker.writes, hm]
  have hkeys : ∀ k, k ≠ .evidenceMarker m.height m.proposer → k ≠ .disputedBlock m.height header →
      k ≠ .disputeOpen m.height header → lookup m.writes k = none := by
    intro k h₁ h₂ h₃
    refine lookup_eq_none fun w hw hkey => ?_
    simp only [hwrites, List.mem_cons, List.not_mem_nil, or_false] at hw
    rcases hw with rfl | rfl | rfl
    · exact h₁ hkey.symm
    · exact h₂ hkey.symm
    · exact h₃ hkey.symm
  have hne : Key.disputeOpen m.height header ≠ .disputedBlock m.height header := by simp
  have hdisputed : lookup m.writes (.disputedBlock m.height header) = some (some ()) := by
    rw [hwrites]
    refine lookup_last [_] (put (Key.disputedBlock m.height header) () : RowWrite) ?_
    exact List.forall_mem_singleton.mpr hne
  have hopen : lookup m.writes (.disputeOpen m.height header) =
      some (some (⟨m.proposer, m.challenger.getD m.proposer, m.cause.getD .bug⟩ : OpenDispute)) := by
    rw [hwrites]
    exact lookup_last [_, _] (put (Key.disputeOpen m.height header) _ : RowWrite)
      (List.forall_mem_nil _)
  refine ⟨?_, ?_, fun k other hne => ⟨?_, ?_⟩⟩
  · rw [Rows.Disputed, hlookup _ (by simp), Writes.apply_apply, hdisputed]
    rfl
  · rw [hlookup _ (by simp), Writes.apply_apply, hopen]
    rfl
  · rw [hlookup _ (by simp), Writes.apply_apply, hkeys _ (by simp) ?_ (by simp), Option.getD_none]
    exact fun h => hne (by injection h with h₁ h₂; rw [h₁, h₂])
  · rw [hlookup _ (by simp), Writes.apply_apply, hkeys _ (by simp) (by simp) ?_, Option.getD_none]
    exact fun h => hne (by injection h with h₁ h₂; rw [h₁, h₂])

/-! ## Submitting a proven fault -/

section Submit

variable [Crypto] [Wire ActionPayload] [Zk] [StateTrie] [Decode]

open Arxium.Runtime Adjudicate

/-- A fault submission inside its window that adjudication upholds against the proposer, from a sender
with the right nonce and the balance for the fee. -/
structure ProvenFault (rows : Rows) (ctx : DispatchCtx) (action : ChainAction)
    (artifact : EvidenceArtifact) (proposerPubkey : String) (height : Nat)
    (attestation : BlockAttestation) : Prop where
  payload : ∃ artifactJson, action.payload = .submitExecutionFault artifactJson ∧
    Decode.artifact artifactJson = some artifact
  fault : ∃ voterPubkey actions claim, artifact.fault =
    .blockDivergence proposerPubkey voterPubkey height attestation actions claim
  inWindow : ctx.height ≤ saturatingAdd64 height rows.params.challengeWindowBlocks
  upheld : adjudicateBlockDivergence artifact = .ok (.culpable proposerPubkey)
  nonce : action.nonce = (rows.account action.sender).nonce
  fee : feeAt rows action ≤ (rows.account action.sender).balance

variable {rows : Rows} {ctx : DispatchCtx} {action : ChainAction} {artifact : EvidenceArtifact}
  {proposerPubkey : String} {height : Nat} {attestation : BlockAttestation}

/-- **The handler refuses a proven fault for a marker or a foreign genesis, and for nothing else.** -/
theorem run_submitExecutionFault
    (h : ProvenFault rows ctx action artifact proposerPubkey height attestation) :
    ∃ header proposer cause, disputeHash artifact.genesisHash attestation.header = some header ∧
      keyAddress proposerPubkey = some proposer ∧
      ∀ u, (dispatchInner adjudicateBlockDivergence ctx action).run rows.view = .ok u ↔
        rows.IsGenesisOf artifact.genesisHash ∧ ¬ rows.Marked height proposer ∧
          u = { evidence :=
            some ⟨height, proposer, some header, some action.sender, some cause⟩ } := by
  obtain ⟨json, hpayload, hartifact⟩ := h.payload
  obtain ⟨voterPubkey, actions, claim, hfault⟩ := h.fault
  obtain ⟨verdict, hverify⟩ := verifyArtifact_of_adjudicate h.upheld
  obtain ⟨genesis, key, bytes, hgenesis, hkey, hbytes, -⟩ :=
    verifyArtifact_blockDivergence hfault hverify
  refine ⟨sha256 bytes, .fromPubkeyBytes key,
    rows.params.classifyBuild attestation.header.buildId, ?_, ?_, fun u => ?_⟩
  · simp [disputeHash, hgenesis, hbytes, Except.toOption]
  · simp [keyAddress, hkey]
  have hfinding : (findFault adjudicateBlockDivergence artifact).run rows.view =
      .ok ⟨.culpable proposerPubkey, height, proposerPubkey, voterPubkey, .executionFault⟩ := by
    rw [findFault, hfault]
    simp only [h.upheld]
    rfl
  have hwindow : (checkChallengeWindow artifact.fault ctx.height).run rows.view = .ok () := by
    rw [hfault]
    refine bind_ok.mpr ⟨rows.params, rfl, ?_⟩
    exact ensure_ok.mpr (decide_eq_true h.inWindow)
  have hculprit : (findCulprit ⟨.culpable proposerPubkey, height, proposerPubkey, voterPubkey,
      .executionFault⟩ key).run rows.view = .ok (.fromPubkeyBytes key) := by
    rw [findCulprit, if_pos hkey]
    rfl
  have hdisputed : ∀ text, genesisHashMatches text artifact.genesisHash = true →
      (disputedHeader artifact ⟨.culpable proposerPubkey, height, proposerPubkey, voterPubkey,
        .executionFault⟩ key text).run rows.view =
          .ok (some (sha256 bytes, rows.params.classifyBuild attestation.header.buildId)) := by
    intro text htext
    obtain ⟨x, hx, hx'⟩ := (Option.any_eq_true _ _).mp htext
    obtain rfl := eq_of_parseHash hgenesis (of_decide_eq_true hx')
    rw [disputedHeader, hfault]
    dsimp only
    rw [if_pos ⟨by decide, hkey⟩]
    refine bind_ok.mpr ⟨genesis, orFail_ok.mpr hx, ?_⟩
    exact bind_ok.mpr ⟨bytes, run_check_eq_ok.mpr hbytes, rfl⟩
  have hmarked : (rows (.evidenceMarker height (.fromPubkeyBytes key))).isNone = true ↔
      ¬ rows.Marked height (.fromPubkeyBytes key) := by
    rw [Rows.Marked, Option.isNone_iff_eq_none, Option.not_isSome_iff_eq_none]
  rw [dispatchInner, hpayload]
  constructor
  · intro hrun
    obtain ⟨a, ha, hrun⟩ := bind_ok.mp hrun
    obtain rfl : artifact = a := Option.some.inj (hartifact.symm.trans (orFail_ok.mp ha))
    obtain ⟨text, htext, hrun⟩ := bind_ok.mp hrun
    obtain ⟨row, hrow, htext⟩ := bind_ok.mp htext
    obtain ⟨_, hmatch, hrun⟩ := bind_ok.mp hrun
    obtain ⟨_, hrun⟩ := run_rest hrun
    obtain ⟨finding, hf, hrun⟩ := bind_ok.mp hrun
    obtain rfl := Except.ok.inj (hfinding.symm.trans hf)
    obtain ⟨pubkey, hpubkey, hrun⟩ := bind_ok.mp hrun
    obtain rfl : proposerPubkey = pubkey := Except.ok.inj hpubkey
    obtain ⟨k, hk, hrun⟩ := bind_ok.mp hrun
    obtain rfl : key = k := Option.some.inj (hkey.symm.trans (orFail_ok.mp hk))
    obtain ⟨c, hc, hrun⟩ := bind_ok.mp hrun
    obtain rfl := Except.ok.inj (hculprit.symm.trans hc)
    obtain ⟨_, hnew, hrun⟩ := bind_ok.mp hrun
    obtain ⟨marker, hmarker, hnew⟩ := bind_ok.mp hnew
    obtain ⟨d, hd, hrun⟩ := bind_ok.mp hrun
    have hmatch := ensure_ok.mp hmatch
    obtain rfl := Except.ok.inj ((hdisputed text hmatch).symm.trans hd)
    obtain rfl := Except.ok.inj hrow
    obtain rfl := Except.ok.inj hmarker
    exact ⟨⟨text, orFail_ok.mp htext, hmatch⟩,
      hmarked.mp (ensure_ok.mp hnew), (Except.ok.inj hrun).symm⟩
  · rintro ⟨⟨text, htext, hmatch⟩, hmark, rfl⟩
    refine bind_ok.mpr ⟨artifact, orFail_ok.mpr hartifact, ?_⟩
    refine bind_ok.mpr ⟨text, ?_, ?_⟩
    · exact bind_ok.mpr ⟨_, rfl, orFail_ok.mpr htext⟩
    refine bind_ok.mpr ⟨(), ensure_ok.mpr hmatch, ?_⟩
    refine bind_ok.mpr ⟨(), hwindow, bind_ok.mpr ⟨_, hfinding, ?_⟩⟩
    refine bind_ok.mpr ⟨proposerPubkey, rfl, ?_⟩
    refine bind_ok.mpr ⟨key, orFail_ok.mpr hkey, ?_⟩
    refine bind_ok.mpr ⟨_, hculprit, bind_ok.mpr ⟨(), ?_, ?_⟩⟩
    · exact bind_ok.mpr ⟨_, rfl, ensure_ok.mpr (hmarked.mpr hmark)⟩
    · exact bind_ok.mpr ⟨_, hdisputed text hmatch, rfl⟩

/-- **A proven fault is recorded exactly when its proposer has no marker at that height**, the artifact
is of this chain and the sender's account lets the submission through. -/
theorem proven_fault_recorded_iff
    (h : ProvenFault rows ctx action artifact proposerPubkey height attestation) :
    ∃ header proposer, disputeHash artifact.genesisHash attestation.header = some header ∧
      keyAddress proposerPubkey = some proposer ∧
      ((rows.Disputed height header ∨ ∃ u, (dispatch ctx action).run rows.view = .ok u ∧
          rows.RecordsDispute (Writes.apply u.stateWrites rows) height header) ↔
        rows.Disputed height header ∨ (¬ rows.Marked height proposer ∧
          rows.IsGenesisOf artifact.genesisHash ∧ FeeAllowed rows ctx action)) := by
  obtain ⟨header, proposer, cause, hheader, hproposer, hrun⟩ := run_submitExecutionFault h
  have hfault : action.payload.isFaultSubmission = true := by
    obtain ⟨json, hpayload, -⟩ := h.payload
    rw [hpayload]
    rfl
  refine ⟨header, proposer, hheader, hproposer, or_congr_right ?_⟩
  constructor
  · rintro ⟨u, hu, -⟩
    obtain ⟨inner, hinner, -⟩ := run_dispatchWith hu
    obtain ⟨hgenesis, hmark, rfl⟩ := (hrun inner).mp hinner
    exact ⟨hmark, hgenesis,
      (dispatchWith_fault_iff hfault hinner rfl rfl h.nonce h.fee).mp ⟨u, hu⟩⟩
  · rintro ⟨hmark, hgenesis, hallowed⟩
    have hinner := (hrun _).mpr ⟨hgenesis, hmark, rfl⟩
    obtain ⟨u, hu⟩ := (dispatchWith_fault_iff hfault hinner rfl rfl h.nonce h.fee).mpr hallowed
    obtain ⟨inner, hinner', hsame⟩ := run_dispatchWith hu
    obtain rfl := Except.ok.inj (hinner.symm.trans hinner')
    exact ⟨u, hu, EvidenceMarker.recordsDispute rfl hsame⟩

end Submit

/-! ## Two wrong blocks of one height -/

namespace TwoWrongBlocks

open PlainChain Arxium.Runtime Adjudicate

/-- The proposer's key in hex, and a voter's. -/
def proposerKey : String := hexEncode (List.replicate 32 7)

def voterKey : String := hexEncode (List.replicate 48 1)

attribute [local instance] crypto wire Plain.zk Plain.trie

set_option maxRecDepth 20000

/-- A header of height 1 over the empty state, with a state root of its own. -/
def attestation (stateRoot : String) : BlockAttestation where
  header :=
    { height := 1, parentHash := hashText [0], timestamp := 1
      txRoot := hashText (txRoot ([] : List ChainAction)), proposer := proposer.text
      parentStateRoot := "0x", stateRoot := stateRoot, round := 0, buildId := "" }
  signature := PlainChain.signature

/-- A dissent over that header: replaying no actions on the empty state reaches the empty root. -/
def artifact (stateRoot : String) : EvidenceArtifact where
  version := artifactVersion
  genesisHash := "0x"
  fault := .blockDivergence proposerKey voterKey 1 (attestation stateRoot) []
    ⟨"0x", [], String.ofList (List.replicate 192 'a')⟩

@[reducible] def decoders : Decode where
  artifact := fun text => some (artifact text)
  action := fun _ => none

attribute [local instance] decoders

def submit (nonce : Nat) (stateRoot : String) : ChainAction :=
  action 8 nonce (.submitExecutionFault stateRoot)

theorem upheld : adjudicateBlockDivergence (artifact "0x63") = .ok (.culpable proposerKey) ∧
    adjudicateBlockDivergence (artifact "0x64") = .ok (.culpable proposerKey) := by
  decide +kernel

/-- What the first block does, as far as the second submission can see it. -/
def seen (rows : Rows) : Bool :=
  (rows (.evidenceMarker 1 proposer)).isSome &&
    (disputeHash "0x" (attestation "0x64").header).any
      (fun header => (rows (.disputedBlock 1 header)).isNone) &&
    decide (rows.genesisText = some "0x") &&
    decide (rows.params.challengeWindowBlocks = params.challengeWindowBlocks) &&
    decide ((rows.account (address 8)).nonce = 1) && (rows.account (address 8)).programmable.isNone &&
    decide (feeAt rows (submit 1 "0x64") = 0)

theorem seen_first : (match onBlock env (block 1 [submit 0 "0x63"]) (db []) with
    | .ok db' => seen db'.state.rows
    | .error _ => false) = true := by
  decide +kernel

/-- A submission whose sender the rows let through. -/
theorem provenFault {rows : Rows} {nonce : Nat} {stateRoot : String} {height : Nat}
    (hupheld : adjudicateBlockDivergence (artifact stateRoot) = .ok (.culpable proposerKey))
    (hheight : height ≤ saturatingAdd64 1 rows.params.challengeWindowBlocks)
    (hnonce : (rows.account (address 8)).nonce = nonce)
    (hfee : feeAt rows (submit nonce stateRoot) = 0) :
    ProvenFault rows ⟨[proposer], height, height, []⟩ (submit nonce stateRoot) (artifact stateRoot)
      proposerKey 1 (attestation stateRoot) where
  payload := ⟨stateRoot, rfl, rfl⟩
  fault := ⟨_, _, _, rfl⟩
  inWindow := hheight
  upheld := hupheld
  nonce := hnonce.symm
  fee := hfee ▸ Nat.zero_le _

theorem feeAllowed {rows : Rows} {nonce height : Nat} {stateRoot : String}
    (hnonce : (rows.account (address 8)).nonce = nonce) (hroom : nonce < u64Max)
    (hplain : (rows.account (address 8)).programmable = none) :
    FeeAllowed rows ⟨[proposer], height, height, []⟩ (submit nonce stateRoot) := by
  refine ⟨hnonce ▸ hroom, fun state hstate => ?_⟩
  rw [show (submit nonce stateRoot).sender = address 8 from rfl, hplain] at hstate
  cases hstate

/-- On the fresh chain the first fault is recorded. -/
theorem proven_fault_recorded_first : ∃ header u,
    disputeHash "0x" (attestation "0x63").header = some header ∧
      (dispatch ⟨[proposer], 1, 1, []⟩ (submit 0 "0x63")).run (db []).state.rows.view = .ok u ∧
      (db []).state.rows.RecordsDispute (Writes.apply u.stateWrites (db []).state.rows) 1 header := by
  have hfault : ProvenFault (db []).state.rows ⟨[proposer], 1, 1, []⟩ (submit 0 "0x63")
      (artifact "0x63") proposerKey 1 (attestation "0x63") :=
    provenFault upheld.1 (by decide +kernel) rfl (by decide +kernel)
  obtain ⟨header, p, hheader, -, hiff⟩ := proven_fault_recorded_iff hfault
  have hfresh : ¬ (db []).state.rows.Disputed 1 header := Bool.false_ne_true
  rcases hiff.mpr (.inr ⟨Bool.false_ne_true, ⟨"0x", rfl, by decide +kernel⟩,
    feeAllowed rfl (by decide) rfl⟩) with hd | ⟨u, hu, hrec⟩
  · exact absurd hd hfresh
  · exact ⟨header, u, hheader, hu, hrec⟩

theorem refused_of_seen {rows : Rows} (h : seen rows = true) :
    ∃ header, disputeHash "0x" (attestation "0x64").header = some header ∧
      ¬ rows.Disputed 1 header ∧ rows.Marked 1 proposer ∧ rows.genesisText = some "0x" ∧
      (rows.account (address 8)).nonce = 1 ∧ (rows.account (address 8)).programmable = none ∧
      feeAt rows (submit 1 "0x64") = 0 ∧
      rows.params.challengeWindowBlocks = params.challengeWindowBlocks := by
  simp only [seen, Bool.and_eq_true, decide_eq_true_eq, Option.isNone_iff_eq_none,
    Option.any_eq_true] at h
  obtain ⟨⟨⟨⟨⟨⟨hmark, header, hheader, hfresh⟩, hgenesis⟩, hwindow⟩, hnonce⟩, hplain⟩, hfee⟩ := h
  refine ⟨header, hheader, ?_, hmark, hgenesis, hnonce, hplain, hfee, hwindow⟩
  rw [Rows.Disputed, hfresh]
  exact Bool.false_ne_true

/-- **The second wrong block of a height goes unrecorded**: the marker of the first stands in its
way, though adjudication names the proposer and nothing about this header was ever recorded. -/
theorem second_wrong_block_refused : ∃ (db : Db) (ctx : DispatchCtx) (action : ChainAction)
    (header : Bytes), db.Reachable ∧
      ProvenFault db.state.rows ctx action (artifact "0x64") proposerKey 1 (attestation "0x64") ∧
      db.state.rows.IsGenesisOf "0x" ∧ FeeAllowed db.state.rows ctx action ∧
      disputeHash "0x" (attestation "0x64").header = some header ∧
      ¬ db.state.rows.Disputed 1 header ∧ ∀ u, (dispatch ctx action).run db.state.rows.view ≠ .ok u := by
  have hseen := seen_first
  cases hrun : onBlock env (block 1 [submit 0 "0x63"]) (db []) with
  | error e =>
    rw [hrun] at hseen
    cases hseen
  | ok db' =>
    rw [hrun] at hseen
    obtain ⟨header, hheader, hfresh, hmark, hgenesis, hnonce, hplain, hfee, hwindow⟩ :=
      refused_of_seen hseen
    have hfault : ProvenFault db'.state.rows ⟨[proposer], 2, 2, []⟩ (submit 1 "0x64")
        (artifact "0x64") proposerKey 1 (attestation "0x64") :=
      provenFault upheld.2 (hwindow ▸ by decide +kernel) hnonce hfee
    refine ⟨db', _, _, header, .step (.genesis (isGenesis_db [])) (.accept hrun), hfault,
      ⟨"0x", hgenesis, by decide +kernel⟩, feeAllowed hnonce (by decide) hplain, hheader, hfresh, ?_⟩
    intro u hu
    obtain ⟨inner, hinner, -⟩ := run_dispatchWith hu
    obtain ⟨_, p, _, -, hp, hiff⟩ := run_submitExecutionFault hfault
    obtain rfl : p = proposer := Option.some.inj (hp.symm.trans (by decide +kernel))
    exact ((hiff inner).mp hinner).2.1 hmark

end TwoWrongBlocks

end Arxium
