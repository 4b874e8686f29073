import Arxium.Finality.SignedVotes
import Arxium.Evidence.Artifact

/-!
# Finality/Engine — one node's voting and tallying

The finality thread of a node: the tallies of prevotes, precommits and round timeouts that arrive,
and `tryStep`, which looks at the database and signs what the rules allow.  What the environment
decides comes in as arguments: which write of the vote file or of the database fails, whether a
revert goes through, and whether the round's clock has run out.

Reports of equivocation and gossip leave the node and change nothing in it, so they are not here.
What was signed is returned, for the history of the whole system to keep.
-/

namespace Arxium

namespace Finality

open Crypto

/-! ## Messages -/

/-- What a validator signs. -/
inductive Message
  | prevote (height : Height) (round : Round) (block : Hash32)
  | precommit (height : Height) (round : Round) (block ep : Hash32)
  | timeout (height : Height) (round : Round) (parent : Hash32)
deriving DecidableEq

namespace Message

def bytes (genesis : Bytes) : Message → Bytes
  | prevote h r b => prevoteSigningBytes genesis h r (hashText b)
  | precommit h r b ep => precommitSigningBytes genesis h r (hashText b) ep
  | timeout h r p => roundTimeoutSigningBytes genesis h r (hashText p)

/-- The record a message is claimed under. -/
def entry : Message → Entry Hash32
  | prevote h r b => ⟨.prevote, h, r, b⟩
  | precommit h r b _ => ⟨.precommit, h, r, b⟩
  | timeout h r p => ⟨.timeout, h, r, p⟩

end Message

theorem leBytes_length (w n : Nat) : (leBytes w n).length = w := by
  induction w generalizing n with
  | zero => rfl
  | succ w ih => rw [leBytes, List.length_cons, ih]

theorem leBytes_inj {w n m : Nat} (hn : n < 256 ^ w) (hm : m < 256 ^ w)
    (h : leBytes w n = leBytes w m) : n = m := by
  induction w generalizing n m with
  | zero => omega
  | succ w ih =>
    obtain ⟨hhead, htail⟩ := List.cons.inj h
    have hmod : n % 256 = m % 256 := by
      have := congrArg UInt8.toNat hhead
      simpa using this
    have hdiv : n / 256 = m / 256 := by
      refine ih ?_ ?_ htail
      · rw [pow_succ] at hn
        exact Nat.div_lt_of_lt_mul (by omega)
      · rw [pow_succ] at hm
        exact Nat.div_lt_of_lt_mul (by omega)
    omega

theorem pushField_append_inj {a b r s : Bytes} (ha : a.length < 2 ^ 64) (hb : b.length < 2 ^ 64)
    (h : pushField a ++ r = pushField b ++ s) : a = b ∧ r = s := by
  rw [pushField, pushField, List.append_assoc, List.append_assoc] at h
  obtain ⟨hlen, htail⟩ := List.append_inj h (by rw [leBytes_length, leBytes_length])
  have hab : a.length = b.length := leBytes_inj (by omega) (by omega) hlen
  exact List.append_inj htail hab

/-- A hash's text fits its length prefix. -/
theorem length_hashText_lt (b : Hash32) : (strBytes (hashText b)).length < 2 ^ 64 := by
  have hdigits : (b.1.flatMap fun x =>
      [hexDigit (x.toNat / 16), hexDigit (x.toNat % 16)]).length = 64 := by
    rw [List.length_flatMap]
    simp [b.2]
  have hle := utf8ByteSize_ofList_le
    (b.1.flatMap fun x => [hexDigit (x.toNat / 16), hexDigit (x.toNat % 16)])
  rw [strBytes_length, hashText, String.utf8ByteSize_append, hexEncode]
  have hprefix : "0x".utf8ByteSize = 2 := by decide
  omega

/-- **A message is what its bytes say.** -/
theorem Message.bytes_injective (genesis : Bytes) :
    Function.Injective (Message.bytes genesis) := by
  have hheight : ∀ h : Height, (leBytes 8 h).length < 2 ^ 64 := fun h => by
    rw [leBytes_length]
    decide
  have hround : ∀ r : Round, (leBytes 4 r).length < 2 ^ 64 := fun r => by
    rw [leBytes_length]
    decide
  -- what follows the kind and the chain: height, round and block
  have slot : ∀ {h h' : Height} {r r' : Round} {b b' : Hash32} {s s' : Bytes},
      pushField genesis ++ (pushField (leBytes 8 h) ++ (pushField (leBytes 4 r) ++
        (pushField (strBytes (hashText b)) ++ s))) =
      pushField genesis ++ (pushField (leBytes 8 h') ++ (pushField (leBytes 4 r') ++
        (pushField (strBytes (hashText b')) ++ s'))) → h = h' ∧ r = r' ∧ b = b' ∧ s = s' := by
    intro h h' r r' b b' s s' he
    obtain ⟨h₁, he⟩ := pushField_append_inj (hheight h) (hheight h') (List.append_cancel_left he)
    obtain ⟨h₂, he⟩ := pushField_append_inj (hround r) (hround r') he
    obtain ⟨h₃, he⟩ := pushField_append_inj (length_hashText_lt b) (length_hashText_lt b') he
    refine ⟨Fin.ext (leBytes_inj ?_ ?_ h₁), Fin.ext (leBytes_inj ?_ ?_ h₂), ?_, he⟩
    · exact h.isLt
    · exact h'.isLt
    · exact r.isLt
    · exact r'.isLt
    · exact Subtype.ext (hashText_injective (strBytes_injective h₃))
  have kind : ∀ {a b : String} {s s' : Bytes}, (strBytes a).length < 2 ^ 64 →
      (strBytes b).length < 2 ^ 64 → a ≠ b →
      pushField (strBytes a) ++ s ≠ pushField (strBytes b) ++ s' := by
    intro a b s s' ha hb hne he
    exact hne (strBytes_injective (pushField_append_inj ha hb he).1)
  intro m m' he
  cases m <;> cases m' <;>
    simp only [Message.bytes, prevoteSigningBytes, precommitSigningBytes,
      roundTimeoutSigningBytes, List.map_cons, List.map_nil, List.flatten_cons,
      List.flatten_nil] at he
  case prevote.prevote | timeout.timeout =>
    obtain ⟨rfl, rfl, rfl, -⟩ := slot (List.append_cancel_left he)
    rfl
  case precommit.precommit ep _ _ _ ep' =>
    obtain ⟨rfl, rfl, rfl, hrest⟩ := slot (List.append_cancel_left he)
    have hlen : ∀ e : Hash32, e.1.length < 2 ^ 64 := fun e => by
      rw [e.2]
      decide
    obtain ⟨hep, -⟩ := pushField_append_inj (hlen ep) (hlen ep') hrest
    rw [Subtype.ext hep]
  all_goals exact absurd he (kind (by decide) (by decide) (by decide))

structure PrevoteVote where
  height : Height
  round : Round
  block : Hash32
  voter : Address
  signature : Bytes
deriving DecidableEq

structure PrecommitVote where
  height : Height
  round : Round
  block : Hash32
  voter : Address
  signature : Bytes
  ep : Hash32
deriving DecidableEq

structure RoundTimeoutVote where
  height : Height
  round : Round
  voter : Address
  signature : Bytes
deriving DecidableEq

def PrevoteVote.message (v : PrevoteVote) : Message := .prevote v.height v.round v.block

def PrecommitVote.message (v : PrecommitVote) : Message := .precommit v.height v.round v.block v.ep

/-! ## The node -/

/-- A quorum of prevotes for one block at one round: the lock. -/
structure PolRecord where
  height : Height
  round : Round
  block : Hash32
  signers : List Address
  aggregateSignature : Bytes

structure FinalityRecord where
  height : Height
  round : Round
  block : Hash32
  signers : List Address
  aggregateSignature : Bytes
  ep : Hash32

/-- A quorum of round timeouts. -/
structure TimeoutCertificate where
  height : Height
  round : Round
  signers : List Address
  aggregateSignature : Bytes

/-- What the engine sees of a stored block; `ep` is its execution proof on this node. -/
structure HeldBlock where
  hash : Hash32
  round : Round
  certificate : Option TimeoutCertificate
  ep : Hash32

/-- The rows of the chain database the engine works with. -/
structure NodeDb where
  watermark : Height
  tip : Option Height
  blocks : Height → Option HeldBlock
  pols : List PolRecord
  finality : Height → Option FinalityRecord
  certificates : List TimeoutCertificate
  precommitVotes : List PrecommitVote
  timeoutVotes : List RoundTimeoutVote

structure Node where
  me : Address
  file : VoteFile Hash32
  prevotes : List PrevoteVote := []
  precommits : List PrecommitVote := []
  timeouts : List RoundTimeoutVote := []
  myPrevotes : List (Height × Round) := []
  myPrecommits : List (Height × Round) := []
  myTimeouts : List (Height × Round) := []
  refused : List (Kind × Height × Round) := []
  db : NodeDb
  /-- Every finality record this node ever wrote, whatever became of its database. -/
  finalized : List FinalityRecord := []

/-- What all nodes of the chain share: the validator set and the keys of each height, and the
secret keys, as the function that signs with them. -/
structure Network where
  genesis : Bytes
  setAt : Height → ValidatorSet
  blsKeyAt : Address → Height → Option Bytes
  sign : Address → Bytes → Bytes

/-- How the database behaves during one event. -/
structure Storage where
  voteWritten : Bool
  recordWritten : Bool
  reverts : Bool

namespace NodeDb

/-- `get_highest_pol`. -/
def highestPol (db : NodeDb) (h : Height) : Option PolRecord :=
  (db.pols.filter (·.height = h)).argmax (·.round)

/-- `get_round_certificate`. -/
def hasCertificate (db : NodeDb) (h : Height) (r : Round) : Bool :=
  db.certificates.any fun c => c.height = h ∧ c.round = r

/-- One more than the highest certified round. -/
def currentRound (db : NodeDb) (h : Height) : Round :=
  match (db.certificates.filter (·.height = h)).argmax (·.round) with
  | some c => c.round + 1
  | none => 0

/-- The rows a successful `revert_to` leaves: votes and locks survive at the next height. -/
def revertTo (db : NodeDb) (h : Height) : NodeDb :=
  if db.tip.all (· ≤ h) then db
  else { db with
    tip := some h
    blocks := fun k => if k ≤ h then db.blocks k else none
    pols := db.pols.filter fun p => p.height.val < h.val + 2
    certificates := db.certificates.filter fun c => c.height.val < h.val + 2
    precommitVotes := db.precommitVotes.filter fun v => v.height.val < h.val + 2
    timeoutVotes := db.timeoutVotes.filter fun v => v.height.val < h.val + 2 }

end NodeDb

/-- Replaces the entry of the same key, or adds one. -/
def upsert {α : Type} (same : α → α → Bool) (a : α) (l : List α) : List α :=
  (l.filter fun x => !same a x) ++ [a]

theorem mem_upsert {α : Type} {same : α → α → Bool} {a x : α} {l : List α}
    (h : x ∈ upsert same a l) : x = a ∨ x ∈ l := by
  rcases List.mem_append.mp h with h | h
  · exact .inr (List.mem_of_mem_filter h)
  · exact .inl (List.mem_singleton.mp h)

section Tally

variable [Crypto] (N : Network)

/-- The aggregate over a bucket of signatures, if it verifies under the signers' keys. -/
def aggregateOf (h : Height) (message : Message) (signers : List (Address × Bytes)) :
    Option Bytes :=
  let keys := signers.filterMap fun s => N.blsKeyAt s.1 h
  (blsAggregate (signers.map Prod.snd)).filter fun agg =>
    blsVerifyAggregate (message.bytes N.genesis) keys agg

/-- A signed message of a validator of the height. -/
def authentic (h : Height) (voter : Address) (message : Message) (signature : Bytes) : Bool :=
  (N.blsKeyAt voter h).any (fun key => blsVerify (message.bytes N.genesis) key signature) &&
    (N.setAt h).contains voter

/-! ## Tallies -/

/-- The signers a vote is counted with. -/
def prevoteBucket (votes : List PrevoteVote) (v : PrevoteVote) : List (Address × Bytes) :=
  (votes.filter fun w => w.height = v.height ∧ w.round = v.round ∧ w.block = v.block).map
    fun w => (w.voter, w.signature)

/-- Two prevotes of one entry of the tally. -/
def PrevoteVote.sameEntry (v w : PrevoteVote) : Bool :=
  v.height = w.height ∧ v.round = w.round ∧ v.block = w.block ∧ v.voter = w.voter

/-- `tally_prevote`. -/
def tallyPrevote (st : Storage) (vote : PrevoteVote) (n : Node) : Node :=
  if (n.db.finality vote.height).isSome then n
  else if !authentic N vote.height vote.voter vote.message vote.signature then n
  else
    let n := { n with prevotes := upsert PrevoteVote.sameEntry vote n.prevotes }
    let signers := prevoteBucket n.prevotes vote
    if !quorumReached (N.setAt vote.height) (signers.map Prod.fst) then n
    else if (n.db.highestPol vote.height).any (vote.round ≤ ·.round) then n
    else
      match aggregateOf N vote.height vote.message signers with
      | none => n
      | some agg =>
        if !st.recordWritten then n
        else
          let record : PolRecord :=
            ⟨vote.height, vote.round, vote.block, signers.map Prod.fst, agg⟩
          let same (p q : PolRecord) : Bool := p.height = q.height ∧ p.round = q.round
          { n with db := { n.db with pols := upsert same record n.db.pols } }

def precommitBucket (votes : List PrecommitVote) (v : PrecommitVote) : List (Address × Bytes) :=
  (votes.filter fun w => w.height = v.height ∧ w.round = v.round ∧ w.block = v.block ∧
    w.ep = v.ep).map fun w => (w.voter, w.signature)

/-- `height.saturating_sub(1)`. -/
def below (h : Height) : Height := VoteFile.floorBelow h

/-- `enforce_certificate`: a block the certificate does not name is unwound. -/
def enforceCertificate (st : Storage) (record : FinalityRecord) (n : Node) : Node :=
  match n.db.blocks record.height with
  | none => n
  | some held =>
    if held.hash = record.block ∨ !st.reverts then n
    else { n with db := n.db.revertTo (below record.height) }

/-- Writes a finality record. -/
def writeFinality (record : FinalityRecord) (n : Node) : Node :=
  { n with
    db := { n.db with
      finality := Function.update n.db.finality record.height (some record)
      precommitVotes := n.db.precommitVotes.filter (·.height ≠ record.height) }
    finalized := record :: n.finalized
    precommits := n.precommits.filter (·.height ≠ record.height)
    myPrecommits := n.myPrecommits.filter (·.1 ≠ record.height) }

/-- Two precommits of one entry of the tally. -/
def PrecommitVote.sameEntry (v w : PrecommitVote) : Bool :=
  v.height = w.height ∧ v.round = w.round ∧ v.block = w.block ∧ v.ep = w.ep ∧ v.voter = w.voter

/-- Two precommits of one persisted row. -/
def PrecommitVote.sameRow (v w : PrecommitVote) : Bool :=
  v.height = w.height ∧ v.round = w.round ∧ v.block = w.block ∧ v.voter = w.voter

/-- `tally_vote`. -/
def tallyVote (st : Storage) (vote : PrecommitVote) (n : Node) : Node :=
  if (n.db.finality vote.height).isSome then n
  else if !authentic N vote.height vote.voter vote.message vote.signature then n
  else
    let n := { n with precommits := upsert PrecommitVote.sameEntry vote n.precommits }
    if !st.voteWritten then n
    else
      let stored := upsert PrecommitVote.sameRow vote n.db.precommitVotes
      let n := { n with db := { n.db with precommitVotes := stored } }
      let signers := precommitBucket n.precommits vote
      if !quorumReached (N.setAt vote.height) (signers.map Prod.fst) then n
      else
        match aggregateOf N vote.height vote.message signers with
        | none => n
        | some agg =>
          if !st.recordWritten then n
          else
            let record : FinalityRecord :=
              ⟨vote.height, vote.round, vote.block, signers.map Prod.fst, agg, vote.ep⟩
            enforceCertificate st record (writeFinality record n)

/-- `unwind_dead_tip`: a certified round's block goes unless it is locked or final. -/
def unwindDeadTip (st : Storage) (h : Height) (r : Round) (n : Node) : Node :=
  match n.db.blocks h with
  | none => n
  | some tip =>
    if n.db.tip ≠ some h ∨ (n.db.finality h).isSome ∨ tip.round ≠ r ∨
        (n.db.highestPol h).any (·.block = tip.hash) ∨ !st.reverts then n
    else { n with db := n.db.revertTo (below h) }

/-- `tally_round_timeout`. -/
def tallyRoundTimeout (st : Storage) (vote : RoundTimeoutVote) (n : Node) : Node :=
  if n.db.hasCertificate vote.height vote.round then n
  else
    match n.db.blocks (below vote.height) with
    | none => n
    | some parent =>
      let message := Message.timeout vote.height vote.round parent.hash
      if !authentic N vote.height vote.voter message vote.signature then n
      else
        let same (v w : RoundTimeoutVote) : Bool :=
          v.height = w.height ∧ v.round = w.round ∧ v.voter = w.voter
        let n := { n with timeouts := upsert same vote n.timeouts }
        if !st.voteWritten then n
        else
          let n := { n with db := { n.db with
            timeoutVotes := upsert same vote n.db.timeoutVotes } }
          let signers := (n.timeouts.filter fun w =>
            w.height = vote.height ∧ w.round = vote.round).map fun w => (w.voter, w.signature)
          if !quorumReached (N.setAt vote.height) (signers.map Prod.fst) then n
          else
            match aggregateOf N vote.height message signers with
            | none => n
            | some agg =>
              if !st.recordWritten then n
              else
                let record : TimeoutCertificate :=
                  ⟨vote.height, vote.round, signers.map Prod.fst, agg⟩
                unwindDeadTip st vote.height vote.round { n with
                  db := { n.db with certificates := record :: n.db.certificates }
                  timeouts := n.timeouts.filter fun w =>
                    ¬ (w.height = vote.height ∧ w.round = vote.round) }

/-- `verify_finality_record`. -/
def verifyFinalityRecord (record : FinalityRecord) : Bool :=
  let set := N.setAt record.height
  let keys := record.signers.map fun a => N.blsKeyAt a record.height
  record.signers.Nodup && record.signers.all (set.contains ·) &&
    quorumReached set record.signers && keys.all Option.isSome &&
    blsVerifyAggregate
      ((Message.precommit record.height record.round record.block record.ep).bytes N.genesis)
      (keys.filterMap id) record.aggregateSignature

/-! ## Voting -/

/-- What the environment decides during one `try_step`. -/
structure StepInputs where
  storage : Storage
  elapsed : Bool
  persistPrevote : Persist
  persistPrecommit : Persist
  persistTimeout : Persist

/-- `prevote`. -/
def prevote (i : StepInputs) (h : Height) (r : Round) (block : Hash32) (polRound : Option Round)
    (n : Node) : Node × List Message :=
  if (h, r) ∈ n.myPrevotes ∨ (.prevote, h, r) ∈ n.refused then (n, [])
  else
    match n.file.claimPrevote h r block polRound i.persistPrevote with
    | (.error _, file) => ({ n with file := file, refused := (.prevote, h, r) :: n.refused }, [])
    | (.ok (), file) =>
      let message := Message.prevote h r block
      let vote : PrevoteVote := ⟨h, r, block, n.me, N.sign n.me (message.bytes N.genesis)⟩
      (tallyPrevote N i.storage vote
        { n with file := file, myPrevotes := (h, r) :: n.myPrevotes }, [message])

/-- `precommit`. -/
def precommit (i : StepInputs) (h : Height) (r : Round) (block : HeldBlock) (n : Node) :
    Node × List Message :=
  if (h, r) ∈ n.myPrecommits ∨ (.precommit, h, r) ∈ n.refused then (n, [])
  else
    match n.file.claimPrecommit h r block.hash i.persistPrecommit with
    | (.error _, file) => ({ n with file := file, refused := (.precommit, h, r) :: n.refused }, [])
    | (.ok (), file) =>
      let message := Message.precommit h r block.hash block.ep
      let vote : PrecommitVote :=
        ⟨h, r, block.hash, n.me, N.sign n.me (message.bytes N.genesis), block.ep⟩
      (tallyVote N i.storage vote
        { n with file := file, myPrecommits := (h, r) :: n.myPrecommits }, [message])

/-- `timeout`. -/
def timeout (i : StepInputs) (h : Height) (r : Round) (parent : Hash32) (n : Node) :
    Node × List Message :=
  if (h, r) ∈ n.myTimeouts ∨ (.timeout, h, r) ∈ n.refused then (n, [])
  else
    match n.file.claimTimeout h r parent i.persistTimeout with
    | (.error _, file) => ({ n with file := file, refused := (.timeout, h, r) :: n.refused }, [])
    | (.ok (), file) =>
      let message := Message.timeout h r parent
      let vote : RoundTimeoutVote := ⟨h, r, n.me, N.sign n.me (message.bytes N.genesis)⟩
      (tallyRoundTimeout N i.storage vote
        { n with file := file, myTimeouts := (h, r) :: n.myTimeouts }, [message])

/-- A held block of a later round brings the certificate of that round with it. -/
def keepCertificate (h : Height) (n : Node) : Node × Round :=
  let round := n.db.currentRound h
  match n.db.blocks h with
  | some held =>
    match held.certificate with
    | some certificate =>
      if round < held.round then
        ({ n with db := { n.db with certificates := certificate :: n.db.certificates } }, held.round)
      else (n, round)
    | none => (n, round)
  | none => (n, round)

/-- The block to vote on: one that a lock does not name is unwound, and not voted on. -/
def heldBlock (st : Storage) (h : Height) (pol : Option PolRecord) (n : Node) :
    Node × Option HeldBlock :=
  match pol, n.db.blocks h with
  | some pol, some held =>
    if held.hash = pol.block then (n, some held)
    else if n.db.tip = some h ∧ st.reverts then ({ n with db := n.db.revertTo (below h) }, none)
    else (n, none)
  | _, block => (n, block)

/-- The precommit and the prevote of a step. -/
def voteOn (i : StepInputs) (h : Height) (r : Round) (pol : Option PolRecord)
    (block : Option HeldBlock) (n : Node) : Node × List Message :=
  match block with
  | none => (n, [])
  | some block =>
    let (n, committed) := match pol with
      | some pol => if pol.block = block.hash then precommit N i h pol.round block n else (n, [])
      | none => (n, [])
    if pol.isSome ∨ block.round = r then
      let (n, prevoted) := prevote N i h r block.hash (pol.map (·.round)) n
      (n, prevoted ++ committed)
    else (n, committed)

/-- `try_step`: everything a node signs it signs here.  The newest message is first. -/
def tryStep (i : StepInputs) (n : Node) : Node × List Message :=
  let h := n.db.watermark + 1
  if h < n.db.tip.getD 0 ∨ (n.db.finality h).isSome then (n, [])
  else
    match n.db.blocks (h - 1) with
    | none => (n, [])
    | some parent =>
      let (n, round) := keepCertificate h n
      let pol := n.db.highestPol h
      let (n, block) := heldBlock i.storage h pol n
      let (n, voted) := voteOn N i h round pol block n
      if i.elapsed ∧ !n.db.hasCertificate h round then
        let (n, timedOut) := timeout N i h round parent.hash n
        (n, timedOut ++ voted)
      else (n, voted)

/-! ## Restarts -/

/-- A restart: the vote file and the persisted votes come back, everything else in memory is
lost. -/
def restart (cutoff : Height) (n : Node) : Node :=
  { me := n.me, file := n.file.load, db := n.db, finalized := n.finalized
    precommits := n.db.precommitVotes.filter (cutoff ≤ ·.height)
    timeouts := n.db.timeoutVotes.filter (cutoff ≤ ·.height)
    myPrecommits := (n.db.precommitVotes.filter fun v => cutoff ≤ v.height ∧ v.voter = n.me).map
      fun v => (v.height, v.round)
    myTimeouts := (n.db.timeoutVotes.filter fun v => cutoff ≤ v.height ∧ v.voter = n.me).map
      fun v => (v.height, v.round) }

/-- `prune`: tallies and records of old heights go. -/
def prune (cutoff : Height) (p : Persist) (n : Node) : Node :=
  { n with
    file := n.file.pruneBelow cutoff p
    prevotes := n.prevotes.filter fun v => cutoff ≤ v.height ∧ n.db.watermark < v.height
    precommits := n.precommits.filter (cutoff ≤ ·.height)
    timeouts := n.timeouts.filter (cutoff ≤ ·.height)
    myPrevotes := n.myPrevotes.filter fun k => cutoff ≤ k.1 ∧ n.db.watermark < k.1
    myPrecommits := n.myPrecommits.filter (cutoff ≤ ·.1)
    myTimeouts := n.myTimeouts.filter fun k => cutoff ≤ k.1 ∧ n.db.watermark < k.1
    refused := n.refused.filter fun k => cutoff ≤ k.2.1 ∧ n.db.watermark < k.2.1
    db := { n.db with
      pols := n.db.pols.filter (n.db.watermark < ·.height)
      precommitVotes := n.db.precommitVotes.filter (cutoff ≤ ·.height)
      timeoutVotes := n.db.timeoutVotes.filter fun v => cutoff ≤ v.height ∧
        n.db.watermark < v.height } }

end Tally

end Finality

end Arxium
