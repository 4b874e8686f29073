import Arxium.Evidence.Artifact
import Arxium.Node.Watermark

/-!
# Network/Recovery — leaving a chain that the network decided against

When a peer keeps serving blocks this node refuses, the network loop asks where the two chains part, and
then for the certificate of that height.  The same replies fill the certificates that block sync does not
bring.  Peers answer what they like, when they like; what they say moves this node only through a
finality record that verifies against the node's own sets and keys (`recovery_obeys`).

Which reply is awaited from a peer is one entry a peer.  Reading the database does not fail here; writes
may, and the node then goes on without them.  Requests, the mempool and metrics are left out.
-/

namespace Arxium

namespace Sync

open Crypto

/-! ## Certificates -/

structure FinalityRecord where
  height : Nat
  round : Nat
  blockHash : Bytes
  signers : List Address
  aggregateSignature : Bytes
  ep : Bytes

section Verify

variable [Crypto]

/-- `verify_finality_record`. -/
def verifyFinalityRecord (db : Db) (record : FinalityRecord) : Bool :=
  let validators := db.getValidatorSetAt record.height
  let pubkeys := record.signers.map fun signer => db.getBlsPubkeyAt signer record.height
  record.signers.Nodup && record.signers.all (validators.contains ·) &&
    quorumReached validators record.signers && pubkeys.all Option.isSome &&
    match db.genesisHashBytes with
    | .error _ => false
    | .ok genesis =>
      blsVerifyAggregate (precommitSigningBytes genesis record.height record.round
        (hashText record.blockHash) record.ep) (pubkeys.filterMap id) record.aggregateSignature

variable [Wire ActionPayload]

/-- The hash of the block held at a height. -/
def localHash (db : Db) (height : Nat) : Option Bytes := (db.state.blocks height).map (·.hash)

/-- A page of finality records, in one batch. -/
def writeCertificates (records : List FinalityRecord) (db : Db) : Db :=
  let certified : Nat → Option Bytes :=
    records.foldl (fun f r => Function.update f r.height (some r.blockHash)) db.finality
  { db with finality := certified, watermark := db.advancedWatermark certified }

end Verify

/-! ## Recovery -/

def revertCooldown : Nat := 60

/-- `first_divergent_height`: a height this node does not have is no disagreement. -/
def firstDivergentHeight (remote : List (Nat × Bytes)) (localHash : Nat → Option Bytes) : Option Nat :=
  (remote.find? fun p => (localHash p.1).any (· ≠ p.2)).map Prod.fst

/-- Which reply is awaited from a peer. -/
inductive RecoveryStep
  | awaitingHashes
  | awaitingCertificate (height : Nat)
  | backfillingCertificate (height : Nat)
  | backfillingCertificates (start : Nat)
deriving DecidableEq

/-- `awaited_certificate_height`. -/
def RecoveryStep.awaitedCertificateHeight : RecoveryStep → Option Nat
  | awaitingCertificate height | backfillingCertificate height => some height
  | awaitingHashes | backfillingCertificates _ => none

inductive Recovery
  | revertTo (height : Nat)
  | haltBelowWatermark

/-- `plan`. -/
def plan (divergent watermark : Nat) : Recovery :=
  match divergent with
  | 0 => .haltBelowWatermark
  | target + 1 => if watermark ≤ target then .revertTo target else .haltBelowWatermark

/-- `allow_revert`, with the new cooldown. -/
def allowRevert (last : Option Nat) (now : Nat) : Bool × Option Nat :=
  if last.any fun last => decide (now - last < revertCooldown) then (false, last) else (true, some now)

/-- What the network loop keeps. -/
structure Loop (Peer : Type) where
  db : Db
  recovering : Peer → Option RecoveryStep
  halted : Bool
  lastRevert : Option Nat

/-- What reaches the loop: replies, ticks, and what else is written to the database meanwhile.  A record
that does not decode is none. -/
inductive Event (Peer : Type)
  | hashes (peer : Peer) (hashes : List (Nat × Bytes))
  | certificates (peer : Peer) (start : Nat) (records : List (Option FinalityRecord)) (written : Bool)
  | certificate (peer : Peer) (height : Nat) (record : Option FinalityRecord) (now : Nat) (written : Bool)
  | tick (peer : Peer)
  | stuck (peer : Peer)
  | failed (peer : Peer)
  | write (op : Db.Op)

section Loop

variable [Crypto] [Wire ActionPayload] {Peer : Type} [DecidableEq Peer]

namespace Loop

def expect (peer : Peer) (step : Option RecoveryStep) (s : Loop Peer) : Loop Peer :=
  { s with recovering := Function.update s.recovering peer step }

/-- Asks for the certificates above the watermark, while there are blocks there. -/
def walk (peer : Peer) (s : Loop Peer) : Loop Peer :=
  if s.db.watermark < s.db.tipHeight then
    s.expect peer (some (.backfillingCertificates (s.db.watermark + 1)))
  else s

/-- The `Hashes` reply.  Whatever was awaited from the peer is not any more. -/
def onHashes (peer : Peer) (hashes : List (Nat × Bytes)) (s : Loop Peer) : Loop Peer :=
  if s.recovering peer ≠ some .awaitingHashes then s.expect peer none
  else s.expect peer ((firstDivergentHeight hashes (localHash s.db)).map .awaitingCertificate)

/-- The records of a page that verify and name the blocks held, up to the first that does not; and its
height, if it is only another block that it names. -/
def readPage (db : Db) : List (Nat × Option FinalityRecord) → List FinalityRecord × Option Nat
  | [] => ([], none)
  | (height, record) :: rest =>
    match record.filter fun record => decide (record.height = height) && verifyFinalityRecord db record with
    | none => ([], none)
    | some record =>
      if localHash db height ≠ some record.blockHash ∨
          (db.finality height).any (· ≠ record.blockHash) then ([], some height)
      else ((readPage db rest).1.cons record, (readPage db rest).2)

/-- Stores what a page confirmed and asks for the rest. -/
def settlePage (peer : Peer) (verified : List FinalityRecord) (handoff : Option Nat) (written : Bool)
    (s : Loop Peer) : Loop Peer :=
  if verified.isEmpty then s.expect peer (handoff.map .backfillingCertificate)
  else if !written then s
  else
    let s := { s with db := writeCertificates verified s.db }
    match handoff with
    | some height => s.expect peer (some (.backfillingCertificate height))
    | none => s.walk peer

/-- The `Certificates` reply. -/
def onCertificates (peer : Peer) (start : Nat) (records : List (Option FinalityRecord)) (written : Bool)
    (s : Loop Peer) : Loop Peer :=
  if s.recovering peer ≠ some (.backfillingCertificates start) then s
  else
    let page := readPage s.db ((List.range' start (s.db.tipHeight + 1 - start)).zip records)
    (s.expect peer none).settlePage peer page.1 page.2 written

/-- A record that names the block held is stored, unless another one is. -/
def keepRecord (peer : Peer) (record : FinalityRecord) (written : Bool) (s : Loop Peer) : Loop Peer :=
  match s.db.finality record.height with
  | some stored => if stored ≠ record.blockHash then { s with halted := true } else s.walk peer
  | none => if written then { s with db := writeCertificates [record] s.db }.walk peer else s

variable [StateTrie]

/-- A record that does not name the block held: unwind, or halt. -/
def recover (record : FinalityRecord) (now : Nat) (s : Loop Peer) : Loop Peer :=
  match plan record.height s.db.watermark with
  | .haltBelowWatermark => { s with halted := true }
  | .revertTo target =>
    let (allowed, last) := allowRevert s.lastRevert now
    let s := { s with lastRevert := last }
    if !allowed then s
    else
      match s.db.revertTo target with
      | .ok db => { s with db := db }
      | .error _ => s

/-- The `Certificate` reply. -/
def onCertificate (peer : Peer) (height : Nat) (record : Option FinalityRecord) (now : Nat) (written : Bool)
    (s : Loop Peer) : Loop Peer :=
  let step := s.recovering peer
  let s := s.expect peer none
  if step.bind RecoveryStep.awaitedCertificateHeight ≠ some height then s
  else
    match record with
    | none => s
    | some record =>
      if record.height ≠ height ∨ verifyFinalityRecord s.db record = false then s
      else if localHash s.db height = some record.blockHash then s.keepRecord peer record written
      else s.recover record now

/-- A lost page would keep the peer's backfill open. -/
def onFailure (peer : Peer) (s : Loop Peer) : Loop Peer :=
  match s.recovering peer with
  | some (.backfillingCertificates _) => s.expect peer none
  | _ => s

def handle : Event Peer → Loop Peer → Loop Peer
  | .hashes peer hashes, s => s.onHashes peer hashes
  | .certificates peer start records written, s => s.onCertificates peer start records written
  | .certificate peer height record now written, s => s.onCertificate peer height record now written
  | .tick peer, s => if s.recovering peer = none ∧ s.halted = false then s.walk peer else s
  | .stuck peer, s => if s.halted then s else s.expect peer (some .awaitingHashes)
  | .failed peer, s => s.onFailure peer
  | .write op, s => { s with db := s.db.perform op }

end Loop

/-! ## What a reply may do -/

/-- The record verifies and names the block held at its height. -/
def Confirms (db : Db) (record : FinalityRecord) : Prop :=
  verifyFinalityRecord db record = true ∧ localHash db record.height = some record.blockHash

/-- The record verifies and names another block than the one held at its height. -/
def Contradicts (db : Db) (record : FinalityRecord) : Prop :=
  verifyFinalityRecord db record = true ∧
    ∃ b, db.state.blocks record.height = some b ∧ b.hash ≠ record.blockHash

/-- **How the database may change**: not at all, by records that confirm the blocks held, or by a revert
to right below a block that a record contradicts, not below the watermark. -/
inductive Moves [StateTrie] (db : Db) : Db → Prop
  | stays : Moves db db
  | stores (records : List FinalityRecord) (confirms : ∀ r ∈ records, Confirms db r) :
      Moves db (writeCertificates records db)
  | reverts {t : Nat} {record : FinalityRecord} {db' : Db} (floor : db.watermark ≤ t)
      (height : record.height = t + 1) (contradicts : Contradicts db record)
      (h : db.revertTo t = .ok db') : Moves db db'

/-- **Why the node may halt**: a record contradicts a block at or below the watermark, or verifies
against a stored one. -/
def MayHalt (db : Db) (record : FinalityRecord) : Prop :=
  (record.height ≤ db.watermark ∧ Contradicts db record) ∨
    verifyFinalityRecord db record = true ∧ ∃ stored, db.finality record.height = some stored ∧
      stored ≠ record.blockHash

/-- A reply obeys: it moves the database and halts the node only for such records. -/
structure Obeys [StateTrie] (s s' : Loop Peer) : Prop where
  moves : Moves s.db s'.db
  halts : s'.halted = true → s.halted = true ∨ ∃ record, MayHalt s.db record

/-- The replies of peers. -/
def Event.IsReply : Event Peer → Prop
  | hashes .. | certificates .. | certificate .. => True
  | tick _ | stuck _ | failed _ | write _ => False

/-! ## What is awaited is held -/

/-- A height the watermark passed is held. -/
def Within (db : Db) (height : Nat) : Prop := height ≤ db.watermark → (db.state.blocks height).isSome = true

/-- What is awaited concerns such heights. -/
def RecoveryStep.Within (db : Db) : RecoveryStep → Prop
  | awaitingHashes => True
  | awaitingCertificate height | backfillingCertificate height => Sync.Within db height
  | backfillingCertificates start => ∀ height, start ≤ height → Sync.Within db height

/-- Above the watermark no block is missing. -/
structure Complete (db : Db) : Prop where
  stacked : db.Stacked
  held : ∀ k, db.watermark < k → k ≤ db.tipHeight → (db.state.blocks k).isSome = true

/-- **What the loop keeps.** -/
structure Loop.Sound (s : Loop Peer) : Prop where
  complete : Complete s.db
  awaited : ∀ peer step, s.recovering peer = some step → step.Within s.db

variable {db db' : Db} {s : Loop Peer} {peer : Peer} {step : RecoveryStep}

omit [Crypto] [Wire ActionPayload] in
theorem RecoveryStep.Within.mono (h : step.Within db) (hmono : ∀ k, Sync.Within db k → Sync.Within db' k) :
    step.Within db' := by
  cases step with
  | awaitingHashes => exact trivial
  | awaitingCertificate height | backfillingCertificate height => exact hmono height h
  | backfillingCertificates start => exact fun k hk => hmono k (h k hk)

omit [Crypto] [Wire ActionPayload] [DecidableEq Peer] in
/-- The database changes under what is awaited. -/
theorem Loop.Sound.moved (h : s.Sound) (hdb : Complete db') (hmono : ∀ k, Within s.db k → Within db' k)
    {halted : Bool} {last : Option Nat} : Loop.Sound ⟨db', s.recovering, halted, last⟩ :=
  ⟨hdb, fun peer step hstep => (h.awaited peer step hstep).mono hmono⟩

omit [Crypto] [Wire ActionPayload] in
theorem Loop.Sound.expect (h : s.Sound) (hstep : step.Within s.db) : (s.expect peer (some step)).Sound := by
  refine ⟨h.complete, fun p t ht => ?_⟩
  change Function.update s.recovering peer (some step) p = some t at ht
  by_cases hp : p = peer
  · subst hp
    rw [Function.update_self] at ht
    obtain rfl := Option.some.inj ht
    exact hstep
  · rw [Function.update_of_ne hp] at ht
    exact h.awaited p t ht

omit [Crypto] [Wire ActionPayload] in
theorem Loop.Sound.forget (h : s.Sound) : (s.expect peer none).Sound := by
  refine ⟨h.complete, fun p t ht => ?_⟩
  change Function.update s.recovering peer none p = some t at ht
  by_cases hp : p = peer
  · subst hp
    rw [Function.update_self] at ht
    cases ht
  · rw [Function.update_of_ne hp] at ht
    exact h.awaited p t ht

omit [Crypto] [Wire ActionPayload] in
theorem Loop.Sound.walk (h : s.Sound) : (s.walk peer).Sound := by
  unfold Loop.walk
  split
  · refine h.expect fun k hk hle => ?_
    change s.db.watermark + 1 ≤ k at hk
    omega
  · exact h

/-! ## Writes -/

omit [DecidableEq Peer] in
/-- New certificates pass over held blocks only. -/
theorem Complete.certify (h : Complete db) (certified : Nat → Option Bytes) :
    Complete { db with finality := certified, watermark := db.advancedWatermark certified } ∧
      ∀ k, Within db k →
        Within { db with finality := certified, watermark := db.advancedWatermark certified } k := by
  refine ⟨⟨⟨h.stacked.tip, h.stacked.above, h.stacked.undo, h.stacked.advance certified⟩,
    fun k hlo hhi => h.held k ((le_climb ..).trans_lt hlo) hhi⟩, fun k hk hle => ?_⟩
  rcases Nat.lt_or_ge db.watermark k with hlt | hge
  · obtain ⟨b, hb, -⟩ := certified_of_le_climb hlt hle
    exact Option.isSome_iff_exists.mpr ⟨b, hb⟩
  · exact hk hge

variable [StateTrie]

omit [Crypto] [Wire ActionPayload] [DecidableEq Peer] in
/-- Up to the new tip a revert keeps the blocks. -/
theorem Complete.revert (h : Complete db) {t : Nat} (hr : db.revertTo t = .ok db') :
    Complete db' ∧ ∀ k, Within db k → Within db' k := by
  obtain ⟨hstacked, hmark, -, -, hbelow⟩ := h.stacked.revert hr
  refine ⟨⟨hstacked, fun k hlo hhi => ?_⟩, fun k hk hle => ?_⟩
  · rcases Db.revertTo_eq_ok hr with rfl | ⟨hlt, hfloor, s, hs, rfl⟩
    · exact h.held k hlo hhi
    obtain ⟨hblocks, htip⟩ := blocks_unwindTo h.stacked.undo (Nat.sub_le _ _) hs
    rw [show db.tipHeight - (db.tipHeight - t) = t by omega] at hblocks htip
    rw [if_neg (by omega)] at htip
    have htip' : (db.unwound t s).tipHeight = t := by rw [Db.tipHeight, Db.unwound, htip, Option.getD_some]
    rw [htip'] at hhi
    change (s.blocks k).isSome = true
    rw [hblocks k, if_neg (by omega)]
    exact h.held k hlo (by omega)
  · rw [hmark] at hle
    rw [hbelow k hle]
    exact hk hle

omit [DecidableEq Peer] in
/-- **Every write keeps it.** -/
theorem Complete.perform (h : Complete db) {op : Db.Op} (hfits : op.Fits db) :
    Complete (db.perform op) ∧ ∀ k, Within db k → Within (db.perform op) k := by
  cases op with
  | block b =>
    have hb : b.block.height = db.tipHeight + 1 := hfits
    have htip : (db.perform (.block b)).tipHeight = db.tipHeight + 1 := hb
    have hblocks : ∀ k, (db.state.blocks k).isSome = true → ((db.perform (.block b)).state.blocks k).isSome =
        true := by
      intro k hk
      change (Function.update db.state.blocks b.block.height (some b.block) k).isSome = true
      by_cases hkb : k = b.block.height
      · rw [hkb, Function.update_self]
        rfl
      · rwa [Function.update_of_ne hkb]
    refine ⟨⟨h.stacked.perform hfits, fun k hlo hhi => ?_⟩, fun k hk hle => ?_⟩
    · rw [htip] at hhi
      rcases Nat.lt_or_eq_of_le hhi with hlt | rfl
      · exact hblocks k (h.held k ((le_climb ..).trans_lt hlo) (Nat.le_of_lt_succ hlt))
      · change (Function.update db.state.blocks b.block.height (some b.block) (db.tipHeight + 1)).isSome = true
        rw [hb, Function.update_self]
        rfl
    · rcases Nat.lt_or_ge db.watermark k with hlt | hge
      · obtain ⟨c, hc, -⟩ := h.stacked.agrees_of_passed hfits hlt hle
        exact Option.isSome_iff_exists.mpr ⟨c, hc⟩
      · exact hblocks k (hk hge)
  | certificate height hash => exact h.certify _
  | revert height =>
    change Complete (match db.revertTo height with | .ok db' => db' | .error _ => db) ∧
      ∀ k, Within db k → Within (match db.revertTo height with | .ok db' => db' | .error _ => db) k
    cases hr : db.revertTo height with
    | ok db' => exact h.revert hr
    | error => exact ⟨h, fun _ hk => hk⟩

/-! ## The replies -/

omit [StateTrie] in
theorem Loop.Sound.onHashes (h : s.Sound) (hashes : List (Nat × Bytes)) : (s.onHashes peer hashes).Sound := by
  unfold Loop.onHashes
  split
  · exact h.forget
  · cases hfirst : firstDivergentHeight hashes (localHash s.db) with
    | none => exact h.forget
    | some height =>
      obtain ⟨p, hfound, rfl⟩ := Option.map_eq_some_iff.mp hfirst
      have hdiffers := List.find?_some hfound
      refine h.expect fun _ => ?_
      rw [Option.any_eq_true] at hdiffers
      obtain ⟨hash, hhash, -⟩ := hdiffers
      obtain ⟨b, hb, -⟩ := Option.map_eq_some_iff.mp hhash
      exact Option.isSome_iff_exists.mpr ⟨b, hb⟩

omit [DecidableEq Peer] [StateTrie] in
/-- **A page is read up to the first record that does not confirm.** -/
theorem readPage_spec (db : Db) (page : List (Nat × Option FinalityRecord)) :
    (∀ r ∈ (Loop.readPage db page).1, Confirms db r) ∧
      ∀ height, (Loop.readPage db page).2 = some height → height ∈ page.map Prod.fst := by
  induction page with
  | nil => exact ⟨nofun, nofun⟩
  | cons entry rest ih =>
    obtain ⟨height, record⟩ := entry
    rw [Loop.readPage]
    split
    · exact ⟨nofun, nofun⟩
    · rename_i record hrecord
      obtain ⟨-, hverify⟩ := Option.filter_eq_some_iff.mp hrecord
      rw [Bool.and_eq_true, decide_eq_true_eq] at hverify
      split
      · exact ⟨nofun, fun k hk => Option.some.inj hk ▸ List.mem_cons_self⟩
      · rename_i hagrees
        rw [not_or, not_not] at hagrees
        refine ⟨fun r hr => ?_, fun k hk => List.mem_cons_of_mem _ (ih.2 k hk)⟩
        rcases List.mem_cons.mp hr with rfl | hr
        · exact ⟨hverify.2, hverify.1 ▸ hagrees.1⟩
        · exact ih.1 r hr

omit [DecidableEq Peer] in
theorem Obeys.refl (s : Loop Peer) : Obeys s s := ⟨.stays, .inl⟩

theorem Obeys.walk {s' : Loop Peer} (h : Obeys s s') : Obeys s (s'.walk peer) := by
  unfold Loop.walk
  split
  · exact ⟨h.moves, h.halts⟩
  · exact h

theorem Loop.Sound.settlePage (h : s.Sound) {verified : List FinalityRecord} {handoff : Option Nat}
    (hverified : ∀ r ∈ verified, Confirms s.db r) (hhandoff : ∀ k, handoff = some k → Within s.db k)
    (written : Bool) : (s.settlePage peer verified handoff written).Sound ∧
      Obeys s (s.settlePage peer verified handoff written) := by
  unfold Loop.settlePage
  split
  · cases handoff with
    | none => exact ⟨h.forget, .stays, .inl⟩
    | some height => exact ⟨h.expect (hhandoff height rfl), .stays, .inl⟩
  split
  · exact ⟨h, .refl s⟩
  obtain ⟨hcomplete, hmono⟩ := h.complete.certify
    (verified.foldl (fun f r => Function.update f r.height (some r.blockHash)) s.db.finality)
  have hstored : Loop.Sound { s with db := writeCertificates verified s.db } := h.moved hcomplete hmono
  dsimp only
  split
  · rename_i height
    exact ⟨hstored.expect (hmono height (hhandoff height rfl)), .stores verified hverified, .inl⟩
  · exact ⟨hstored.walk, Obeys.walk ⟨.stores verified hverified, .inl⟩⟩

/-- The `Certificates` reply. -/
theorem Loop.Sound.onCertificates (h : s.Sound) (start : Nat) (records : List (Option FinalityRecord))
    (written : Bool) : (s.onCertificates peer start records written).Sound ∧
      Obeys s (s.onCertificates peer start records written) := by
  unfold Loop.onCertificates
  split
  · exact ⟨h, .refl s⟩
  rename_i hstep
  rw [not_not] at hstep
  obtain ⟨hconfirms, hhandoff⟩ := readPage_spec s.db
    ((List.range' start (s.db.tipHeight + 1 - start)).zip records)
  have hforget : (s.expect peer none).Sound := h.forget
  have hsettled : ((s.expect peer none).settlePage peer _ _ written).Sound ∧ Obeys _ _ :=
    hforget.settlePage hconfirms (fun height hheight => by
      obtain ⟨p, hp, rfl⟩ := List.mem_map.mp (hhandoff height hheight)
      exact h.awaited peer _ hstep _ (List.mem_range'_1.mp (List.of_mem_zip hp).1).1) written
  exact ⟨hsettled.1, hsettled.2.moves, hsettled.2.halts⟩

omit [Crypto] [Wire ActionPayload] [DecidableEq Peer] in
/-- Where nothing is held right above a height, a revert to it does nothing. -/
theorem Complete.revertTo_eq_self (h : Complete db) {t : Nat} (hfloor : db.watermark ≤ t)
    (hnone : db.state.blocks (t + 1) = none) : db.revertTo t = .ok db := by
  refine if_pos (Nat.le_of_not_lt fun hlt => ?_)
  have hheld := h.held (t + 1) (Nat.lt_succ_of_le hfloor) hlt
  rw [hnone] at hheld
  cases hheld

theorem Loop.Sound.keepRecord (h : s.Sound) {record : FinalityRecord} (hconfirms : Confirms s.db record)
    (written : Bool) : (s.keepRecord peer record written).Sound ∧
      Obeys s (s.keepRecord peer record written) := by
  unfold Loop.keepRecord
  split
  · rename_i stored hstored
    split
    · rename_i hne
      exact ⟨⟨h.complete, h.awaited⟩, .stays, fun _ => .inr ⟨record, .inr ⟨hconfirms.1, stored, hstored, hne⟩⟩⟩
    · exact ⟨h.walk, (Obeys.refl s).walk⟩
  · split
    · obtain ⟨hcomplete, hmono⟩ := h.complete.certify
        (Function.update s.db.finality record.height (some record.blockHash))
      have hstored : Loop.Sound { s with db := writeCertificates [record] s.db } := h.moved hcomplete hmono
      exact ⟨hstored.walk, Obeys.walk ⟨.stores [record] (by simpa using hconfirms), .inl⟩⟩
    · exact ⟨h, .refl s⟩

omit [DecidableEq Peer] in
theorem Loop.Sound.recover (h : s.Sound) {record : FinalityRecord} (hwithin : Within s.db record.height)
    (hverify : verifyFinalityRecord s.db record = true)
    (hlocal : localHash s.db record.height ≠ some record.blockHash) (now : Nat) :
    (s.recover record now).Sound ∧ Obeys s (s.recover record now) := by
  have hcontradicts : (s.db.state.blocks record.height).isSome = true → Contradicts s.db record := by
    intro hheld
    obtain ⟨b, hb⟩ := Option.isSome_iff_exists.mp hheld
    refine ⟨hverify, b, hb, fun hhash => hlocal ?_⟩
    rw [localHash, hb, Option.map_some, hhash]
  have hhalts : record.height ≤ s.db.watermark →
      Loop.Sound { s with halted := true } ∧ Obeys s { s with halted := true } := fun hle =>
    ⟨⟨h.complete, h.awaited⟩, .stays, fun _ => .inr ⟨record, .inl ⟨hle, hcontradicts (hwithin hle)⟩⟩⟩
  unfold Loop.recover
  cases hheight : record.height with
  | zero => exact hhalts (hheight ▸ Nat.zero_le _)
  | succ target =>
    rw [plan]
    by_cases hfloor : s.db.watermark ≤ target
    · rw [if_pos hfloor]
      dsimp only
      split
      · exact ⟨⟨h.complete, h.awaited⟩, .stays, .inl⟩
      cases hr : s.db.revertTo target with
      | error => exact ⟨⟨h.complete, h.awaited⟩, .stays, .inl⟩
      | ok db' =>
        obtain ⟨hcomplete, hmono⟩ := h.complete.revert hr
        refine ⟨h.moved hcomplete hmono, ?_, .inl⟩
        cases hheld : s.db.state.blocks record.height with
        | none =>
          rw [hheight] at hheld
          obtain rfl := Except.ok.inj ((h.complete.revertTo_eq_self hfloor hheld).symm.trans hr)
          exact .stays
        | some b => exact .reverts hfloor hheight (hcontradicts (by rw [hheld]; rfl)) hr
    · rw [if_neg hfloor]
      exact hhalts (by omega)

/-- The `Certificate` reply. -/
theorem Loop.Sound.onCertificate (h : s.Sound) (height : Nat) (record : Option FinalityRecord) (now : Nat)
    (written : Bool) : (s.onCertificate peer height record now written).Sound ∧
      Obeys s (s.onCertificate peer height record now written) := by
  have hforget : (s.expect peer none).Sound ∧ Obeys s (s.expect peer none) := ⟨h.forget, .stays, .inl⟩
  unfold Loop.onCertificate
  dsimp only
  split
  · exact hforget
  rename_i hawaited
  rw [not_not] at hawaited
  obtain ⟨step, hrecovering, hheight⟩ := Option.bind_eq_some_iff.mp hawaited
  have hwithin : Within s.db height := by
    have hstep := h.awaited peer step hrecovering
    cases step with
    | awaitingHashes | backfillingCertificates => cases hheight
    | awaitingCertificate k | backfillingCertificate k =>
      obtain rfl := Option.some.inj hheight
      exact hstep
  split
  · exact hforget
  rename_i record
  split
  · exact hforget
  rename_i hverify
  rw [not_or, not_not, Bool.not_eq_false] at hverify
  obtain ⟨rfl, hverify⟩ := hverify
  split
  · rename_i hlocal
    have hkept : ((s.expect peer none).keepRecord peer record written).Sound ∧ Obeys _ _ :=
      hforget.1.keepRecord ⟨hverify, hlocal⟩ written
    exact ⟨hkept.1, hkept.2.moves, hkept.2.halts⟩
  · rename_i hlocal
    obtain ⟨hsound, hobeys⟩ := hforget.1.recover hwithin hverify hlocal now
    exact ⟨hsound, hobeys.moves, hobeys.halts⟩

/-! ## Runs -/

/-- Blocks are written on top of the tip. -/
def Event.Fits (s : Loop Peer) : Event Peer → Prop
  | write op => op.Fits s.db
  | hashes .. | certificates .. | certificate .. | tick _ | stuck _ | failed _ => True

/-- **One event.** -/
theorem Loop.Sound.handle (h : s.Sound) {e : Event Peer} (hfits : e.Fits s) :
    (s.handle e).Sound ∧ (e.IsReply → Obeys s (s.handle e)) := by
  cases e with
  | hashes peer hashes =>
    refine ⟨h.onHashes hashes, fun _ => ?_⟩
    change Obeys s (s.onHashes peer hashes)
    unfold Loop.onHashes
    split
    · exact ⟨.stays, .inl⟩
    · exact ⟨.stays, .inl⟩
  | certificates peer start records written =>
    obtain ⟨hsound, hobeys⟩ := h.onCertificates start records written
    exact ⟨hsound, fun _ => hobeys⟩
  | certificate peer height record now written =>
    obtain ⟨hsound, hobeys⟩ := h.onCertificate height record now written
    exact ⟨hsound, fun _ => hobeys⟩
  | tick peer =>
    refine ⟨?_, False.elim⟩
    change Loop.Sound (if _ then _ else _)
    split
    · exact h.walk
    · exact h
  | stuck peer =>
    refine ⟨?_, False.elim⟩
    change Loop.Sound (if _ then _ else _)
    split
    · exact h
    · exact h.expect trivial
  | failed peer =>
    refine ⟨?_, False.elim⟩
    change (s.onFailure peer).Sound
    unfold Loop.onFailure
    split
    · exact h.forget
    · exact h
  | write op =>
    obtain ⟨hcomplete, hmono⟩ := h.complete.perform hfits
    exact ⟨h.moved hcomplete hmono, False.elim⟩

/-- The loop from its start. -/
inductive Runs (s₀ : Loop Peer) : Loop Peer → Prop
  | start : Runs s₀ s₀
  | event {s : Loop Peer} (h : Runs s₀ s) (e : Event Peer) (fits : e.Fits s) : Runs s₀ (s.handle e)

/-- **Recovery obeys only verified certificates.**  Whatever peers reply and in whatever order, in every
state the loop reaches from a complete database and no open conversation, a reply changes the database
only by storing records that confirm the blocks held or by a revert, not below the watermark, to right
below a block a record contradicts, and it halts the node only for a record against a block at or below
the watermark or against a stored one. -/
theorem recovery_obeys {s₀ : Loop Peer} (hdb : Complete s₀.db) (hfresh : ∀ peer, s₀.recovering peer = none)
    (hrun : Runs s₀ s) (e : Event Peer) (hreply : e.IsReply) : Obeys s (s.handle e) := by
  have hsound : s.Sound := by
    induction hrun with
    | start =>
      refine ⟨hdb, fun peer step hstep => ?_⟩
      rw [hfresh] at hstep
      cases hstep
    | event _ e hfits ih => exact (ih.handle hfits).1
  refine (hsound.handle ?_).2 hreply
  cases e with
  | hashes | certificates | certificate => exact trivial
  | tick | stuck | failed | write => exact hreply.elim

end Loop

/-! ## A peer on another chain -/

namespace Solo

open PlainChain

attribute [local instance] crypto wire Plain.zk Plain.trie Plain.decoders

/-- The chain of one validator with a key. -/
def keyed : Db := { db [] with state := { (db []).state with blsHistory := fun _ => some [1] } }

theorem complete_keyed : Complete keyed := by
  have hgenesis : keyed.IsGenesis :=
    ⟨rfl, (isGenesis_db []).blocks, fun _ => rfl, fun _ => rfl, fun _ => rfl, rfl, rfl⟩
  exact ⟨hgenesis.stacked, fun k hlo hhi => absurd hhi (Nat.not_le_of_lt hlo)⟩

def start : Loop Unit := ⟨keyed, fun _ => none, false, none⟩

/-- A verified record for another block at height one. -/
def record : FinalityRecord := ⟨1, 0, [9], [proposer], [], []⟩

/-- The node has its first block, refuses the peer's, and learns where the two chains part. -/
def asked : Loop Unit :=
  ((start.handle (.write (.block first))).handle (.stuck ())).handle (.hashes () [(0, [0]), (1, [9])])

/-- The certificate takes the block back. -/
theorem recovery_obeys_reverts : Obeys asked (asked.handle (.certificate () 1 (some record) 0 true)) ∧
    asked.db.tipHeight = 1 ∧ (asked.handle (.certificate () 1 (some record) 0 true)).db.tipHeight = 0 := by
  have hfits : (Event.write (.block first)).Fits start := (rfl : first.block.height = keyed.tipHeight + 1)
  have hrun : Runs start asked :=
    .event (.event (.event .start _ hfits) (.stuck ()) trivial) (.hashes () _) trivial
  refine ⟨recovery_obeys complete_keyed (fun _ => rfl) hrun _ trivial, ?_, ?_⟩
  · decide +kernel
  · decide +kernel

end Solo

end Sync

end Arxium
