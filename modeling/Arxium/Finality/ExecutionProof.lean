import Arxium.Finality.Rules
import Arxium.Finality.Keeper
import Arxium.Runtime.Plain

/-!
# Finality/ExecutionProof — one execution proof per precommit

A precommit is claimed under its block's hash, but what is signed also holds an execution proof,
which is computed from the database after the claim.  Two rows are read for it, the parent block and
the weight the block used, and each read has a fallback for a row that is missing or unreadable.

The proof is a function of the block as long as the two rows read are those of the block's own
acceptance (`Reading.Faithful`).  Then a validator's precommits at a height and round are all one
message, over any number of restarts.  When a fallback is taken they need not be.
-/

namespace Arxium

namespace Finality

open Crypto

section Proofs

variable [Crypto] [Wire ActionPayload]

/-! ## The proof -/

/-- `xc_poe::block_ep`. -/
def executionProof (preStateRoot : String) (txRoot : Bytes) (postStateRoot : String)
    (resourcesUsed : Nat) : Bytes :=
  sha256 (([strBytes preStateRoot, txRoot, strBytes postStateRoot, leBytes 8 resourcesUsed].map
    pushField).flatten)

/-- What accepting the block weighed. -/
def weightUsed (block : ChainBlock) : Nat := (block.actions.map actionWeight).sum

/-- The proof the block's acceptance stands for.  That `parentStateRoot` is the parent's root is
checked on acceptance. -/
def acceptedEp (block : ChainBlock) : Bytes :=
  executionProof block.parentStateRoot block.txRoot block.stateRoot (weightUsed block)

/-- `block_ep`, on what the two reads gave: a parent that is missing or unreadable counts as an
empty root, a weight that is unreadable as zero. -/
def blockEp (parent : Except StorageError (Option ChainBlock)) (weight : Except StorageError Nat)
    (block : ChainBlock) : Bytes :=
  let parentStateRoot := match parent with
    | .ok (some parent) => parent.stateRoot
    | .ok none => ""
    | .error _ => ""
  let weightUsed := match weight with
    | .ok weight => weight
    | .error _ => 0
  executionProof parentStateRoot block.txRoot block.stateRoot weightUsed

/-- A block as a step of the engine sees it, with what it reads for the proof. -/
structure Reading where
  block : ChainBlock
  parent : Except StorageError (Option ChainBlock)
  weight : Except StorageError Nat
  held : HeldBlock
  hash_eq : held.hash.1 = block.hash
  round_eq : held.round.val = block.round
  ep_eq : held.ep.1 = blockEp parent weight block

/-- Both rows are there, and those of the block's acceptance. -/
def Reading.Faithful (r : Reading) : Prop :=
  (∃ parent, r.parent = .ok (some parent) ∧ parent.stateRoot = r.block.parentStateRoot) ∧
    r.weight = .ok (weightUsed r.block)

theorem Reading.Faithful.ep_eq {r : Reading} (h : r.Faithful) : r.held.ep.1 = acceptedEp r.block := by
  obtain ⟨⟨parent, hparent, hroot⟩, hweight⟩ := h
  rw [r.ep_eq]
  simp only [blockEp, hparent, hweight, hroot, acceptedEp]

/-! ## One validator -/

/-- A validator and everything it signed, the newest first. -/
structure Signer where
  node : Node
  signed : List Message := []

/-- What can happen at one validator.  Its lookups of sets and keys, its database and the messages it
gets are arbitrary; `reads` is what it reads of its blocks at a step. -/
inductive Signer.Step (genesis : Bytes) (blocks : Set ChainBlock) (reads : Reading → Prop)
    (s : Signer) : Signer → Prop
  | prevote (N : Network) (st : Storage) (vote : PrevoteVote) :
      Step genesis blocks reads s { s with node := tallyPrevote N st vote s.node }
  | precommit (N : Network) (st : Storage) (vote : PrecommitVote) :
      Step genesis blocks reads s { s with node := tallyVote N st vote s.node }
  | roundTimeout (N : Network) (st : Storage) (vote : RoundTimeoutVote) :
      Step genesis blocks reads s { s with node := tallyRoundTimeout N st vote s.node }
  | tick (N : Network) (hgenesis : N.genesis = genesis) (i : StepInputs)
      (hreads : ∀ h held, s.node.db.blocks h = some held →
        ∃ r : Reading, r.held = held ∧ r.block ∈ blocks ∧ r.block.height = h ∧ reads r) :
      Step genesis blocks reads s
        ⟨(tryStep N i s.node).1, (tryStep N i s.node).2 ++ s.signed⟩
  | adopt (record : FinalityRecord) :
      Step genesis blocks reads s { s with node := writeFinality record s.node }
  | prune (cutoff : Height) (p : Persist) :
      Step genesis blocks reads s { s with node := prune cutoff p s.node }
  | restart (cutoff : Height) : Step genesis blocks reads s { s with node := restart cutoff s.node }
  | chain (db : NodeDb) : Step genesis blocks reads s { s with node := { s.node with db := db } }

/-- A validator starts with an empty record. -/
inductive Signer.Reachable (genesis : Bytes) (blocks : Set ChainBlock) (reads : Reading → Prop) :
    Signer → Prop
  | init (n : Node) (hfile : n.file = {}) : Reachable genesis blocks reads ⟨n, []⟩
  | step {s s' : Signer} (h : Reachable genesis blocks reads s)
      (hstep : Signer.Step genesis blocks reads s s') : Reachable genesis blocks reads s'

/-! ## What a step signs -/

/-- The message's record, and for a precommit the held block it is about. -/
structure SignedFrom (held : Height → Option HeldBlock) (recorded : List (Entry Hash32))
    (m : Message) : Prop where
  entry : m.entry ∈ recorded
  block : ∀ h r hash ep, m = .precommit h r hash ep →
    ∃ block, held h = some block ∧ hash = block.hash ∧ ep = block.ep

/-- A step leaves the record kept, and signs what is on record by then. -/
def Claims (held : Height → Option HeldBlock) (recorded : List (Entry Hash32))
    (r : Node × List Message) : Prop :=
  ∃ recorded', recorded ⊆ recorded' ∧ Kept r.1.file recorded' ∧
    ∀ m ∈ r.2, SignedFrom held recorded' m

section Claims

variable {N : Network} {held : Height → Option HeldBlock} {recorded : List (Entry Hash32)}
  {n : Node}

omit [Crypto] [Wire ActionPayload] in
theorem SignedFrom.mono {m : Message} (hm : SignedFrom held recorded m)
    {recorded' : List (Entry Hash32)} (hsub : recorded ⊆ recorded') :
    SignedFrom held recorded' m := ⟨hsub hm.entry, hm.block⟩

omit [Crypto] [Wire ActionPayload] in
theorem Claims.nothing (hk : Kept n.file recorded) : Claims held recorded (n, []) :=
  ⟨recorded, fun _ h => h, hk, by simp⟩

omit [Crypto] [Wire ActionPayload] in
/-- A refused claim, -/
theorem Claims.refused (hk : Kept n.file recorded) {e : Entry Hash32} {x : Refusal Hash32}
    {f : VoteFile Hash32} (hr : n.file.ClaimResult e (.error x, f)) {n' : Node}
    (hn' : n'.file = f) : Claims held recorded (n', []) := by
  refine .nothing ?_
  rw [hn']
  exact (hk.claim hr).2 x rfl

omit [Crypto] [Wire ActionPayload] in
/-- and a granted one, with the message it was made for. -/
theorem Claims.granted (hk : Kept n.file recorded) {m : Message} {f : VoteFile Hash32}
    (hr : n.file.ClaimResult m.entry (.ok (), f))
    (hblock : ∀ h r hash ep, m = .precommit h r hash ep →
      ∃ block, held h = some block ∧ hash = block.hash ∧ ep = block.ep)
    {n' : Node} (hn' : n'.file = f) : Claims held recorded (n', [m]) := by
  refine ⟨m.entry :: recorded, fun _ h => List.mem_cons_of_mem _ h, ?_, fun m' hm' => ?_⟩
  · dsimp only
    rw [hn']
    exact (hk.claim hr).1 rfl
  · obtain rfl := List.mem_singleton.mp hm'
    exact ⟨List.mem_cons_self, hblock⟩

omit [Crypto] [Wire ActionPayload] in
theorem Claims.andThen {r : Node × List Message} (hr : Claims held recorded r)
    {f : Node → Node × List Message}
    (hf : ∀ recorded', Kept r.1.file recorded' → Claims held recorded' (f r.1)) :
    Claims held recorded ((f r.1).1, (f r.1).2 ++ r.2) := by
  obtain ⟨recorded', hsub, hk, hm⟩ := hr
  obtain ⟨recorded'', hsub', hk', hm'⟩ := hf recorded' hk
  refine ⟨recorded'', fun _ h => hsub' (hsub h), hk', fun m hmem => ?_⟩
  rcases List.mem_append.mp hmem with hmem | hmem
  · exact hm' m hmem
  · exact (hm m hmem).mono hsub'

omit [Wire ActionPayload] in
@[simp] theorem tallyPrevote_file (st : Storage) (vote : PrevoteVote) :
    (tallyPrevote N st vote n).file = n.file :=
  tallyPrevote_rule (I := (·.file = n.file)) rfl fun _ _ _ => ⟨rfl, fun _ _ _ _ _ _ _ => rfl⟩

omit [Wire ActionPayload] in
@[simp] theorem tallyVote_file (st : Storage) (vote : PrecommitVote) :
    (tallyVote N st vote n).file = n.file :=
  tallyVote_rule (I := (·.file = n.file)) rfl (fun _ h => h) fun _ _ _ =>
    ⟨rfl, fun _ _ => ⟨rfl, fun _ _ _ _ _ => rfl⟩⟩

omit [Wire ActionPayload] in
@[simp] theorem tallyRoundTimeout_file (st : Storage) (vote : RoundTimeoutVote) :
    (tallyRoundTimeout N st vote n).file = n.file :=
  tallyRoundTimeout_rule (I := (·.file = n.file)) rfl (fun _ h => h) fun _ _ _ _ =>
    ⟨rfl, fun _ _ => ⟨rfl, fun _ _ _ _ _ => rfl⟩⟩

omit [Wire ActionPayload] in
theorem claims_prevote (hk : Kept n.file recorded) (i : StepInputs) (h : Height) (r : Round)
    (block : Hash32) (polRound : Option Round) :
    Claims held recorded (prevote N i h r block polRound n) := by
  unfold prevote
  split
  · exact .nothing hk
  have hresult : n.file.ClaimResult (Message.prevote h r block).entry
      (n.file.claimPrevote h r block polRound i.persistPrevote) := by
    rcases n.file.claimPrevote_result h r block polRound i.persistPrevote with
      ⟨refusal, heq⟩ | ⟨heq, -⟩
    · rw [heq]
      exact .refused refusal
    · rw [heq]
      exact n.file.claim_result _ _
  split
  · rename_i heq
    rw [heq] at hresult
    exact .refused hk hresult rfl
  · rename_i heq
    rw [heq] at hresult
    exact .granted hk hresult (by simp) (tallyPrevote_file _ _)

omit [Wire ActionPayload] in
theorem claims_precommit (hk : Kept n.file recorded) (i : StepInputs) (h : Height) (r : Round)
    (block : HeldBlock) (hblock : held h = some block) :
    Claims held recorded (precommit N i h r block n) := by
  unfold precommit
  split
  · exact .nothing hk
  have hresult : n.file.ClaimResult (Message.precommit h r block.hash block.ep).entry
      (n.file.claimPrecommit h r block.hash i.persistPrecommit) := n.file.claim_result _ _
  split
  · rename_i heq
    rw [heq] at hresult
    exact .refused hk hresult rfl
  · rename_i heq
    rw [heq] at hresult
    refine .granted hk hresult ?_ (tallyVote_file _ _)
    rintro _ _ _ _ ⟨⟩
    exact ⟨block, hblock, rfl, rfl⟩

omit [Wire ActionPayload] in
theorem claims_timeout (hk : Kept n.file recorded) (i : StepInputs) (h : Height) (r : Round)
    (parent : Hash32) : Claims held recorded (timeout N i h r parent n) := by
  unfold timeout
  split
  · exact .nothing hk
  have hresult : n.file.ClaimResult (Message.timeout h r parent).entry
      (n.file.claimTimeout h r parent i.persistTimeout) := n.file.claim_result _ _
  split
  · rename_i heq
    rw [heq] at hresult
    exact .refused hk hresult rfl
  · rename_i heq
    rw [heq] at hresult
    exact .granted hk hresult (by simp) (tallyRoundTimeout_file _ _)

omit [Wire ActionPayload] in
/-- **Everything a step signs is on record, and its precommits are about blocks it holds.** -/
theorem claims_tryStep (hk : Kept n.file recorded) (i : StepInputs) :
    Claims n.db.blocks recorded (tryStep N i n) := by
  refine tryStep_rule (J := Claims n.db.blocks recorded) (K := Claims n.db.blocks recorded) rfl
    (.nothing hk) (fun _ _ _ _ => .nothing hk) (fun _ hc => hc)
    (fun n' pol block hc _ _ hblock _ => ?_) (fun n' ms r block polRound hc _ => ?_)
    (fun n' ms r parent hc => ?_) fun _ => id
  · have hsigned := hc.andThen fun _ hk' => claims_precommit (N := N) hk' i _ pol.round block hblock
    rwa [List.append_nil] at hsigned
  · exact hc.andThen fun _ hk' => claims_prevote hk' i _ r block polRound
  · exact hc.andThen fun _ hk' => claims_timeout hk' i _ r parent

end Claims

/-! ## Whole runs -/

section Runs

variable {genesis : Bytes} {blocks : Set ChainBlock} {s s' : Signer}

/-- Everything signed is on record, and every precommit carries the proof of an accepted block. -/
def Signer.Sound (blocks : Set ChainBlock) (s : Signer) : Prop :=
  ∃ recorded, Kept s.node.file recorded ∧ ∀ m ∈ s.signed, m.entry ∈ recorded ∧
    ∀ h r hash ep, m = .precommit h r hash ep →
      ∃ b ∈ blocks, b.height = h ∧ b.hash = hash.1 ∧ ep.1 = acceptedEp b

theorem Signer.Sound.of_file {n : Node} (hs : s.Sound blocks) (hn : n.file = s.node.file) :
    Signer.Sound blocks { s with node := n } := by
  obtain ⟨recorded, hk, hm⟩ := hs
  exact ⟨recorded, hn ▸ hk, hm⟩

theorem Signer.Step.sound (hstep : Signer.Step genesis blocks Reading.Faithful s s')
    (hs : s.Sound blocks) : s'.Sound blocks := by
  cases hstep with
  | prevote N st vote => exact hs.of_file (tallyPrevote_file st vote)
  | precommit N st vote => exact hs.of_file (tallyVote_file st vote)
  | roundTimeout N st vote => exact hs.of_file (tallyRoundTimeout_file st vote)
  | tick N hgenesis i hreads =>
    obtain ⟨recorded, hk, hm⟩ := hs
    obtain ⟨recorded', hsub, hk', hm'⟩ := claims_tryStep (N := N) hk i
    refine ⟨recorded', hk', fun m hmem => ?_⟩
    rcases List.mem_append.mp hmem with hmem | hmem
    · refine ⟨(hm' m hmem).entry, fun h r hash ep heq => ?_⟩
      obtain ⟨held, hheld, rfl, rfl⟩ := (hm' m hmem).block h r hash ep heq
      obtain ⟨reading, rfl, hblock, hheight, hfaithful⟩ := hreads h held hheld
      exact ⟨reading.block, hblock, hheight, reading.hash_eq.symm, hfaithful.ep_eq⟩
    · exact ⟨hsub (hm m hmem).1, (hm m hmem).2⟩
  | adopt record => exact hs.of_file rfl
  | prune cutoff p =>
    obtain ⟨recorded, hk, hm⟩ := hs
    exact ⟨recorded, hk.pruneBelow cutoff p, hm⟩
  | restart cutoff =>
    obtain ⟨recorded, hk, hm⟩ := hs
    exact ⟨_, hk.load, fun m hmem => ⟨List.mem_append_right _ (hm m hmem).1, (hm m hmem).2⟩⟩
  | chain db => exact hs.of_file rfl

theorem Signer.Reachable.sound (hs : Signer.Reachable genesis blocks Reading.Faithful s) :
    s.Sound blocks := by
  induction hs with
  | init n hfile => exact ⟨[], hfile ▸ .empty, by simp⟩
  | step _ hstep ih => exact hstep.sound ih

/-- Two precommits of one height and round are one message. -/
theorem Signer.Sound.precommit_eq (hs : s.Sound blocks) (hcol : Set.InjOn Block.hash blocks)
    {h : Height} {r : Round} {hash hash' ep ep' : Hash32}
    (hm : Message.precommit h r hash ep ∈ s.signed)
    (hm' : Message.precommit h r hash' ep' ∈ s.signed) : hash = hash' ∧ ep = ep' := by
  obtain ⟨recorded, hk, hall⟩ := hs
  have hentry := hk.unique _ (hall _ hm).1 _ (hall _ hm').1 rfl rfl rfl
  obtain rfl : hash = hash' := congrArg Entry.hash hentry
  obtain ⟨b, hb, -, hbhash, hep⟩ := (hall _ hm).2 _ _ _ _ rfl
  obtain ⟨b', hb', -, hbhash', hep'⟩ := (hall _ hm').2 _ _ _ _ rfl
  obtain rfl := hcol hb hb' (hbhash.trans hbhash'.symm)
  exact ⟨rfl, Subtype.ext (hep.trans hep'.symm)⟩

omit [Crypto] [Wire ActionPayload] in
/-- What reads as a precommit was signed as one. -/
theorem Message.precommit_of_bytes {m : Message} {height round : Nat} {blockHash : String}
    {ep : Bytes} (hm : m.bytes genesis = precommitSigningBytes genesis height round blockHash ep) :
    ∃ h r hash ep', m = .precommit h r hash ep' ∧ leBytes 8 h = leBytes 8 height ∧
      leBytes 4 r = leBytes 4 round := by
  have hwidth : ∀ n w, w < 2 ^ 64 → (leBytes w n).length < 2 ^ 64 := fun n w hw => by
    rwa [leBytes_length]
  have htag : ∀ {a : String} {x y : Bytes}, (strBytes a).length < 2 ^ 64 →
      pushField (strBytes a) ++ x = pushField (strBytes "arxium/precommit/v3") ++ y →
      a = "arxium/precommit/v3" ∧ x = y := by
    intro a x y ha he
    obtain ⟨htext, hrest⟩ := pushField_append_inj ha (by decide) he
    exact ⟨strBytes_injective htext, hrest⟩
  cases m <;>
    simp only [Message.bytes, prevoteSigningBytes, precommitSigningBytes, roundTimeoutSigningBytes,
      List.map_cons, List.map_nil, List.flatten_cons, List.flatten_nil] at hm
  case prevote => exact absurd (htag (by decide) hm).1 (by decide)
  case timeout => exact absurd (htag (by decide) hm).1 (by decide)
  case precommit h r hash ep' =>
    have hrest := List.append_cancel_left (List.append_cancel_left hm)
    obtain ⟨hheight, hrest⟩ := pushField_append_inj (hwidth _ _ (by decide))
      (hwidth _ _ (by decide)) hrest
    obtain ⟨hround, -⟩ := pushField_append_inj (hwidth _ _ (by decide)) (hwidth _ _ (by decide)) hrest
    exact ⟨h, r, hash, ep', rfl, hheight, hround⟩

omit [Wire ActionPayload] in
theorem PrecommitAttestation.signed_eq_ok {v : PrecommitAttestation} {vote : SignedVote}
    (h : v.signed genesis = .ok vote) : ∃ ep, vote = ⟨v.height, v.round,
      precommitSigningBytes genesis v.height v.round v.blockHash ep, v.signature⟩ := by
  obtain ⟨ep, -, h⟩ := ReadProg.bind_eq_ok.mp h
  split at h
  · cases h
  · exact ⟨ep, (Except.ok.inj h).symm⟩

variable [StateTrie]

end Runs

end Proofs

/-! ### A weight that could not be read -/

namespace WeightLost

/-- A digest of 32 bytes: the last ones of what is hashed. -/
def lastBytes (b : Bytes) : Bytes := (b.reverse ++ List.replicate 32 0).take 32

theorem length_lastBytes (b : Bytes) : (lastBytes b).length = 32 := by
  simp [lastBytes]

@[reducible] def crypto : Crypto :=
  { Plain.crypto fun _ _ _ => true with sha256 := lastBytes }

attribute [local instance] crypto Plain.wire Plain.trie

def parent : ChainBlock :=
  { height := 0, parentHash := "", timestamp := 0, actions := [], txRoot := [], proposer := none
    signature := none, parentStateRoot := "", stateRoot := "", round := 0
    roundCertificate := none, buildId := "" }

def block : ChainBlock :=
  { parent with
    height := 1, timestamp := 1, actions := [⟨⟨"s"⟩, 0, none, .transfer ⟨"r"⟩ 1⟩] }

/-- A block of the two, with the parent as read and some answer for the weight. -/
def reading (b : ChainBlock) (hround : b.round = 0) (weight : Except StorageError Nat) : Reading where
  block := b
  parent := .ok (some parent)
  weight := weight
  held := ⟨⟨b.hash, length_lastBytes _⟩, 0, none,
    ⟨blockEp (.ok (some parent)) weight b, length_lastBytes _⟩⟩
  hash_eq := rfl
  round_eq := hround.symm
  ep_eq := rfl

/-- The two blocks held, the second one locked. -/
def db (weight : Except StorageError Nat) : NodeDb where
  watermark := 0
  tip := some 1
  blocks h :=
    if h = 0 then some (reading parent rfl (.ok 0)).held
    else if h = 1 then some (reading block rfl weight).held
    else none
  pols := [⟨1, 0, ⟨block.hash, length_lastBytes _⟩, [], []⟩]
  finality _ := none
  certificates := []
  precommitVotes := []
  timeoutVotes := []

def network : Network := ⟨[], fun _ => ∅, fun _ _ => none, fun _ m => m⟩

def tick (s : Signer) : Signer :=
  let r := tryStep network ⟨⟨true, true, true⟩, false, .durable, .durable, .durable⟩ s.node
  ⟨r.1, r.2 ++ s.signed⟩

def start : Signer := ⟨{ me := ⟨"a"⟩, file := {}, db := db (.ok (weightUsed block)) }, []⟩

/-- A step on the two blocks. -/
theorem step_tick {s : Signer} {weight : Except StorageError Nat} {reads : Reading → Prop}
    (hdb : s.node.db.blocks = (db weight).blocks) (hparent : reads (reading parent rfl (.ok 0)))
    (hblock : reads (reading block rfl weight)) :
    Signer.Step [] {parent, block} reads s (tick s) := by
  refine .tick network rfl _ fun h held hheld => ?_
  rw [hdb] at hheld
  simp only [db] at hheld
  split at hheld
  · rename_i hzero
    subst hzero
    exact ⟨_, Option.some.inj hheld, .inl rfl, rfl, hparent⟩
  split at hheld
  · rename_i hone
    subst hone
    exact ⟨_, Option.some.inj hheld, .inr rfl, rfl, hblock⟩
  · cases hheld

/-- The validator after a restart with its votes lost and the weight unreadable. -/
def restarted : Signer :=
  { (tick start) with node := { restart 0 (tick start).node with db := db (.error .corruptedMeta) } }

end WeightLost

end Finality

end Arxium
