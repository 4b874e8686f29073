import Arxium.Finality.Rules
import Arxium.Storage.Lookups
import Arxium.Runtime.Plain

/-!
# Finality/Certificates — whose quorum a written certificate is

Votes are tallied for any height, against the set and the keys the node finds for it.  A node that
holds every block before the height's epoch finds what is in force there.  A node that does not, finds
the newest set and keys it has, and writes certificates under them.

The theorem is about runs in which every tally is made by a node that reaches the epoch of its vote
(`LookupChain.Reaches`): then every lock, finality record and round certificate it writes is a quorum
of the set in force on the chain, signed under the keys in force there.
-/

namespace Arxium

namespace Finality

open Crypto

section Certificates

variable [Crypto]

/-! ## Certificates -/

/-- What is in force at a height of a chain. -/
def lookupNetwork (genesis : Bytes) (epochLength : Nat) (l : LookupChain)
    (sign : Address → Bytes → Bytes) : Network where
  genesis := genesis
  setAt h := l.getValidatorSetAt h
  blsKeyAt a h := l.getBlsPubkeyAt epochLength a h
  sign := sign

/-- The signer has a key in force, and signed the message under it. -/
def SignedBy (T : Network) (h : Height) (m : Message) (a : Address) : Prop :=
  ∃ key sig, T.blsKeyAt a h = some key ∧ blsVerify (m.bytes T.genesis) key sig = true

/-- A quorum of the set in force, signed under the keys in force: each signer signed one of the
messages, and the aggregate is over the message certified. -/
structure Certified (T : Network) (h : Height) (messages : Message → Prop) (m : Message)
    (signers : List Address) (aggregate : Bytes) : Prop where
  quorum : quorumReached (T.setAt h) signers = true
  signed : ∀ a ∈ signers, ∃ m', messages m' ∧ SignedBy T h m' a
  aggregate : blsVerifyAggregate (m.bytes T.genesis) (signers.filterMap (T.blsKeyAt · h)) aggregate =
    true

/-- A lock of the chain. -/
def PolRecord.Certified (T : Network) (p : PolRecord) : Prop :=
  Finality.Certified T p.height (· = .prevote p.height p.round p.block)
    (.prevote p.height p.round p.block) p.signers p.aggregateSignature

def FinalityRecord.Certified (T : Network) (r : FinalityRecord) : Prop :=
  Finality.Certified T r.height (· = .precommit r.height r.round r.block r.ep)
    (.precommit r.height r.round r.block r.ep) r.signers r.aggregateSignature

/-- A round certificate is over the parent the node holds; its votes may have been checked while it
held another. -/
def TimeoutCertificate.Certified (T : Network) (r : TimeoutCertificate) : Prop :=
  ∃ parent, Finality.Certified T r.height (fun m => ∃ p, m = .timeout r.height r.round p)
    (.timeout r.height r.round parent) r.signers r.aggregateSignature

/-- Two nodes find the same at a height. -/
structure SameAt (N T : Network) (h : Height) : Prop where
  genesis : N.genesis = T.genesis
  set : N.setAt h = T.setAt h
  keys : ∀ a, N.blsKeyAt a h = T.blsKeyAt a h

variable {N T : Network} {h : Height}

theorem SameAt.authentic_eq (hsame : SameAt N T h) (voter : Address) (m : Message)
    (signature : Bytes) : authentic N h voter m signature = authentic T h voter m signature := by
  rw [authentic, authentic, hsame.genesis, hsame.set, hsame.keys]

theorem SameAt.aggregateOf_eq (hsame : SameAt N T h) (m : Message)
    (signers : List (Address × Bytes)) : aggregateOf N h m signers = aggregateOf T h m signers := by
  simp only [aggregateOf, hsame.genesis, hsame.keys]

theorem signedBy_of_authentic {voter : Address} {m : Message} {signature : Bytes}
    (hauth : authentic T h voter m signature = true) : SignedBy T h m voter := by
  obtain ⟨hkey, -⟩ := (Bool.and_eq_true _ _).mp hauth
  obtain ⟨key, hkey, hverify⟩ := (Option.any_eq_true _ _).mp hkey
  exact ⟨key, signature, hkey, hverify⟩

theorem aggregateOf_eq_some {m : Message} {signers : List (Address × Bytes)} {agg : Bytes}
    (hagg : aggregateOf T h m signers = some agg) :
    blsVerifyAggregate (m.bytes T.genesis)
      ((signers.map Prod.fst).filterMap (T.blsKeyAt · h)) agg = true := by
  obtain ⟨-, hverify⟩ := Option.filter_eq_some_iff.mp hagg
  rw [List.filterMap_map]
  exact hverify

/-! ## What a node holds was checked under what is in force -/

/-- Every vote a node holds is authentic on the chain, and every certificate it wrote is certified there;
the round certificates in `known` are not its own. -/
structure Verified (T : Network) (known : TimeoutCertificate → Prop) (n : Node) : Prop where
  prevotes : ∀ v ∈ n.prevotes, authentic T v.height v.voter v.message v.signature = true
  precommits : ∀ v ∈ n.precommits, authentic T v.height v.voter v.message v.signature = true
  timeouts : ∀ v ∈ n.timeouts, ∃ parent,
    authentic T v.height v.voter (.timeout v.height v.round parent) v.signature = true
  storedPrecommits : ∀ v ∈ n.db.precommitVotes,
    authentic T v.height v.voter v.message v.signature = true
  storedTimeouts : ∀ v ∈ n.db.timeoutVotes, ∃ parent,
    authentic T v.height v.voter (.timeout v.height v.round parent) v.signature = true
  pols : ∀ p ∈ n.db.pols, p.Certified T
  finalized : ∀ r ∈ n.finalized, r.Certified T
  certificates : ∀ r ∈ n.db.certificates, known r ∨ r.Certified T

variable {known : TimeoutCertificate → Prop} {n : Node}

theorem Verified.revertTo (hn : Verified T known n) (k : Height) :
    Verified T known { n with db := n.db.revertTo k } := by
  unfold NodeDb.revertTo
  split
  · exact hn
  · exact { hn with
      storedPrecommits := fun v hv => hn.storedPrecommits v (List.mem_of_mem_filter hv)
      storedTimeouts := fun v hv => hn.storedTimeouts v (List.mem_of_mem_filter hv)
      pols := fun p hp => hn.pols p (List.mem_of_mem_filter hp)
      certificates := fun r hr => hn.certificates r (List.mem_of_mem_filter hr) }

theorem Verified.writeFinality (hn : Verified T known n) {record : FinalityRecord}
    (hrecord : record.Certified T) : Verified T known (writeFinality record n) := by
  refine { hn with
    precommits := fun v hv => hn.precommits v (List.mem_of_mem_filter hv)
    storedPrecommits := fun v hv => hn.storedPrecommits v (List.mem_of_mem_filter hv)
    finalized := fun r hr => ?_ }
  rcases List.mem_cons.mp hr with rfl | hold
  · exact hrecord
  · exact hn.finalized r hold

theorem certified_of_quorum (hsame : SameAt N T h) {messages : Message → Prop} {m : Message}
    {signers : List (Address × Bytes)} {agg : Bytes}
    (hquorum : quorumReached (N.setAt h) (signers.map Prod.fst) = true)
    (hagg : aggregateOf N h m signers = some agg)
    (hsigned : ∀ s ∈ signers, ∃ m', messages m' ∧ SignedBy T h m' s.1) :
    Certified T h messages m (signers.map Prod.fst) agg := by
  rw [hsame.set] at hquorum
  rw [hsame.aggregateOf_eq] at hagg
  refine ⟨hquorum, fun a ha => ?_, aggregateOf_eq_some hagg⟩
  obtain ⟨s, hs, rfl⟩ := List.mem_map.mp ha
  exact hsigned s hs

theorem Verified.tallyPrevote (hn : Verified T known n) {vote : PrevoteVote}
    (hsame : SameAt N T vote.height) (st : Storage) : Verified T known (tallyPrevote N st vote n) := by
  refine tallyPrevote_rule hn fun hauth votes hsub => ?_
  rw [hsame.authentic_eq] at hauth
  have hvotes := forall_of_subset hn.prevotes hauth hsub
  refine ⟨{ hn with prevotes := hvotes }, fun signers agg hsigners hquorum hagg pols hpols => ?_⟩
  refine { hn with prevotes := hvotes, pols := forall_of_subset hn.pols ?_ hpols }
  refine certified_of_quorum hsame hquorum hagg fun s hs => ⟨_, rfl, ?_⟩
  obtain ⟨w, hw, hvoter, hmessage⟩ := hsigners s hs
  have hsigned := signedBy_of_authentic (hvotes w hw)
  rwa [hmessage, hvoter, (Message.prevote.inj hmessage).1] at hsigned

theorem Verified.tallyVote (hn : Verified T known n) {vote : PrecommitVote}
    (hsame : SameAt N T vote.height) (st : Storage) : Verified T known (tallyVote N st vote n) := by
  refine tallyVote_rule hn (fun _ hn => hn.revertTo _) fun hauth votes hsub => ?_
  rw [hsame.authentic_eq] at hauth
  have hvotes := forall_of_subset hn.precommits hauth hsub
  refine ⟨{ hn with precommits := hvotes }, fun stored hstored => ?_⟩
  have hcounted : Verified T known
      { n with precommits := votes, db := { n.db with precommitVotes := stored } } :=
    { hn with
      precommits := hvotes
      storedPrecommits := forall_of_subset hn.storedPrecommits hauth hstored }
  refine ⟨hcounted, fun signers agg hsigners hquorum hagg => hcounted.writeFinality ?_⟩
  refine certified_of_quorum hsame hquorum hagg fun s hs => ⟨_, rfl, ?_⟩
  obtain ⟨w, hw, hvoter, hmessage⟩ := hsigners s hs
  have hsigned := signedBy_of_authentic (hvotes w hw)
  rwa [hmessage, hvoter, (Message.precommit.inj hmessage).1] at hsigned

theorem Verified.tallyRoundTimeout (hn : Verified T known n) {vote : RoundTimeoutVote}
    (hsame : SameAt N T vote.height) (st : Storage) :
    Verified T known (tallyRoundTimeout N st vote n) := by
  refine tallyRoundTimeout_rule hn (fun _ hn => hn.revertTo _) fun parent hauth votes hsub => ?_
  rw [hsame.authentic_eq] at hauth
  have hvotes := forall_of_subset hn.timeouts ⟨parent, hauth⟩ fun _ => id
  have hcounted : Verified T known { n with timeouts := votes } :=
    { hn with timeouts := fun v hv => hvotes v (hsub hv) }
  refine ⟨hcounted, fun stored hstored => ?_⟩
  have hrows := forall_of_subset hn.storedTimeouts ⟨parent, hauth⟩ hstored
  refine ⟨{ hcounted with storedTimeouts := hrows }, fun signers agg hsigners hquorum hagg => ?_⟩
  refine { hcounted with
    storedTimeouts := hrows
    certificates := List.forall_mem_cons.mpr ⟨.inr ⟨parent, ?_⟩, hn.certificates⟩ }
  refine certified_of_quorum hsame hquorum hagg fun s hs => ?_
  obtain ⟨w, hw, hvoter, hheight, hround⟩ := hsigners s hs
  obtain ⟨p, hp⟩ := hvotes w hw
  have hsigned := signedBy_of_authentic hp
  rw [hvoter, hheight, hround] at hsigned
  exact ⟨_, ⟨p, rfl⟩, hsigned⟩

/-! ## Steps of the node's own -/

theorem Verified.prevote (hn : Verified T known n) (i : StepInputs) {k : Height} (hsame : SameAt N T k)
    (r : Round) (block : Hash32) (polRound : Option Round) :
    Verified T known (prevote N i k r block polRound n).1 := by
  unfold Finality.prevote
  split
  · exact hn
  split
  · exact { hn with }
  · rename_i file _
    have hn' : Verified T known { n with file := file, myPrevotes := (k, r) :: n.myPrevotes } :=
      { hn with }
    exact hn'.tallyPrevote hsame i.storage

theorem Verified.precommit (hn : Verified T known n) (i : StepInputs) {k : Height} (hsame : SameAt N T k)
    (r : Round) (block : HeldBlock) : Verified T known (precommit N i k r block n).1 := by
  unfold Finality.precommit
  split
  · exact hn
  split
  · exact { hn with }
  · rename_i file _
    have hn' : Verified T known { n with file := file, myPrecommits := (k, r) :: n.myPrecommits } :=
      { hn with }
    exact hn'.tallyVote hsame i.storage

theorem Verified.timeout (hn : Verified T known n) (i : StepInputs) {k : Height} (hsame : SameAt N T k)
    (r : Round) (parent : Hash32) : Verified T known (timeout N i k r parent n).1 := by
  unfold Finality.timeout
  split
  · exact hn
  split
  · exact { hn with }
  · rename_i file _
    have hn' : Verified T known { n with file := file, myTimeouts := (k, r) :: n.myTimeouts } :=
      { hn with }
    exact hn'.tallyRoundTimeout hsame i.storage

theorem Verified.tryStep (hn : Verified T known n) (i : StepInputs)
    (hsame : SameAt N T (n.db.watermark + 1))
    (hheld : ∀ k held, n.db.blocks k = some held → ∀ c, held.certificate = some c → known c) :
    Verified T known (tryStep N i n).1 := by
  refine tryStep_rule (J := fun p => Verified T known p.1) (K := fun p => Verified T known p.1) rfl hn
    (fun held c hblock hcert => ?_) (fun _ hn' => hn'.revertTo _)
    (fun _ _ block hn' _ _ _ _ => hn'.precommit i hsame _ block)
    (fun _ _ r block polRound hn' _ => hn'.prevote i hsame r block polRound)
    (fun _ _ r parent hn' => hn'.timeout i hsame r parent) fun _ => id
  exact { hn with
    certificates := List.forall_mem_cons.mpr ⟨.inl (hheld _ held hblock c hcert), hn.certificates⟩ }

theorem Verified.prune (hn : Verified T known n) (cutoff : Height) (p : Persist) :
    Verified T known (prune cutoff p n) where
  prevotes v hv := hn.prevotes v (List.mem_of_mem_filter hv)
  precommits v hv := hn.precommits v (List.mem_of_mem_filter hv)
  timeouts v hv := hn.timeouts v (List.mem_of_mem_filter hv)
  storedPrecommits v hv := hn.storedPrecommits v (List.mem_of_mem_filter hv)
  storedTimeouts v hv := hn.storedTimeouts v (List.mem_of_mem_filter hv)
  pols p hp := hn.pols p (List.mem_of_mem_filter hp)
  finalized := hn.finalized
  certificates := hn.certificates

theorem Verified.restart (hn : Verified T known n) (cutoff : Height) :
    Verified T known (restart cutoff n) where
  prevotes _ hv := absurd hv List.not_mem_nil
  precommits v hv := hn.storedPrecommits v (List.mem_of_mem_filter hv)
  timeouts v hv := hn.storedTimeouts v (List.mem_of_mem_filter hv)
  storedPrecommits := hn.storedPrecommits
  storedTimeouts := hn.storedTimeouts
  pols := hn.pols
  finalized := hn.finalized
  certificates := hn.certificates

/-! ## Runs of a node that follows the chain -/

/-- A node of the chain and its own blocks, as far as lookups go. -/
structure Follower where
  node : Node
  own : LookupChain

/-- What the node itself finds. -/
def Follower.network (genesis : Bytes) (epochLength : Nat) (sign : Address → Bytes → Bytes)
    (s : Follower) : Network :=
  lookupNetwork genesis epochLength s.own sign

/-- The rows of `db'` that only tallies write were in `db`. -/
structure NodeDb.LosesRows (db db' : NodeDb) : Prop where
  pols : db'.pols ⊆ db.pols
  certificates : db'.certificates ⊆ db.certificates
  precommitVotes : db'.precommitVotes ⊆ db.precommitVotes
  timeoutVotes : db'.timeoutVotes ⊆ db.timeoutVotes

/-- One event at the node.  Votes arrive for any height; `knows` limits for which heights the node
tallies with the blocks it has. -/
inductive Follower.Step (genesis : Bytes) (epochLength : Nat) (sign : Address → Bytes → Bytes)
    (knows : LookupChain → Height → Prop) (s : Follower) : Follower → Prop
  | prevote (st : Storage) (vote : PrevoteVote) (hknows : knows s.own vote.height) :
      Step genesis epochLength sign knows s
        { s with node := tallyPrevote (s.network genesis epochLength sign) st vote s.node }
  | precommit (st : Storage) (vote : PrecommitVote) (hknows : knows s.own vote.height) :
      Step genesis epochLength sign knows s
        { s with node := tallyVote (s.network genesis epochLength sign) st vote s.node }
  | roundTimeout (st : Storage) (vote : RoundTimeoutVote) (hknows : knows s.own vote.height) :
      Step genesis epochLength sign knows s
        { s with node := tallyRoundTimeout (s.network genesis epochLength sign) st vote s.node }
  | tick (i : StepInputs) (hknows : knows s.own (s.node.db.watermark + 1)) :
      Step genesis epochLength sign knows s
        { s with node := (tryStep (s.network genesis epochLength sign) i s.node).1 }
  /-- A record taken over from a peer is not one this node wrote. -/
  | adopt (record : FinalityRecord) : Step genesis epochLength sign knows s
      { s with node := { writeFinality record s.node with finalized := s.node.finalized } }
  | prune (cutoff : Height) (p : Persist) :
      Step genesis epochLength sign knows s { s with node := Finality.prune cutoff p s.node }
  | restart (cutoff : Height) :
      Step genesis epochLength sign knows s { s with node := Finality.restart cutoff s.node }
  /-- Blocks come, and are unwound. -/
  | chain (db : NodeDb) (hdb : s.node.db.LosesRows db) (own : LookupChain)
      (hown : own.WellFormed epochLength) :
      Step genesis epochLength sign knows s ⟨{ s.node with db := db }, own⟩

/-- A node that has tallied nothing. -/
structure Follower.Initial (epochLength : Nat) (s : Follower) : Prop where
  prevotes : s.node.prevotes = []
  precommits : s.node.precommits = []
  timeouts : s.node.timeouts = []
  pols : s.node.db.pols = []
  precommitVotes : s.node.db.precommitVotes = []
  timeoutVotes : s.node.db.timeoutVotes = []
  finalized : s.node.finalized = []
  own : s.own.WellFormed epochLength

inductive Follower.Reachable (genesis : Bytes) (epochLength : Nat) (sign : Address → Bytes → Bytes)
    (knows : LookupChain → Height → Prop) : Follower → Prop
  | init {s : Follower} (hs : s.Initial epochLength) :
      Reachable genesis epochLength sign knows s
  | step {s s' : Follower} (hs : Reachable genesis epochLength sign knows s)
      (hstep : s.Step genesis epochLength sign knows s') :
      Reachable genesis epochLength sign knows s'

section Runs

variable {genesis : Bytes} {epochLength : Nat} {sign : Address → Bytes → Bytes}
  {own chain : LookupChain} {s s' : Follower}

omit [Crypto] in
/-- Who reaches an epoch finds in it what is in force on the chain. -/
theorem sameAt_of_reaches (hreach : LookupChain.Reaches epochLength own chain h)
    (hown : own.WellFormed epochLength) (hchain : chain.WellFormed epochLength) :
    SameAt (lookupNetwork genesis epochLength own sign)
      (lookupNetwork genesis epochLength chain sign) h where
  genesis := rfl
  set := LookupChain.getValidatorSetAt_congr hreach hown hchain
  keys _ := LookupChain.getBlsPubkeyAt_congr hreach

/-- **Every event keeps what the node holds verified**, as far as the node reaches the epochs it
tallies in. -/
theorem Follower.Step.verified
    (hstep : s.Step genesis epochLength sign (LookupChain.Reaches epochLength · chain ·) s')
    (hchain : chain.WellFormed epochLength) (hown : s.own.WellFormed epochLength)
    (hs : Verified (lookupNetwork genesis epochLength chain sign) known s.node)
    (hheld : ∀ k held, s.node.db.blocks k = some held → ∀ r, held.certificate = some r → known r) :
    Verified (lookupNetwork genesis epochLength chain sign) known s'.node := by
  cases hstep with
  | prevote st vote hknows => exact hs.tallyPrevote (sameAt_of_reaches hknows hown hchain) st
  | precommit st vote hknows => exact hs.tallyVote (sameAt_of_reaches hknows hown hchain) st
  | roundTimeout st vote hknows =>
    exact hs.tallyRoundTimeout (sameAt_of_reaches hknows hown hchain) st
  | tick i hknows => exact hs.tryStep i (sameAt_of_reaches hknows hown hchain) hheld
  | adopt record =>
    exact { hs with
      precommits := fun v hv => hs.precommits v (List.mem_of_mem_filter hv)
      storedPrecommits := fun v hv => hs.storedPrecommits v (List.mem_of_mem_filter hv) }
  | prune cutoff p => exact hs.prune cutoff p
  | restart cutoff => exact hs.restart cutoff
  | chain db hdb own =>
    exact { hs with
      storedPrecommits := fun v hv => hs.storedPrecommits v (hdb.precommitVotes hv)
      storedTimeouts := fun v hv => hs.storedTimeouts v (hdb.timeoutVotes hv)
      pols := fun p hp => hs.pols p (hdb.pols hp)
      certificates := fun r hr => hs.certificates r (hdb.certificates hr) }

theorem Follower.Step.own_wellFormed {knows : LookupChain → Height → Prop}
    (hstep : s.Step genesis epochLength sign knows s') (hown : s.own.WellFormed epochLength) :
    s'.own.WellFormed epochLength := by
  cases hstep with
  | chain _ _ _ hown => exact hown
  | _ => exact hown

theorem Follower.Reachable.own_wellFormed {knows : LookupChain → Height → Prop}
    (hs : s.Reachable genesis epochLength sign knows) : s.own.WellFormed epochLength := by
  induction hs with
  | init hs => exact hs.own
  | step _ hstep ih => exact hstep.own_wellFormed ih

theorem Follower.Reachable.verified
    (hs : s.Reachable genesis epochLength sign (LookupChain.Reaches epochLength · chain ·))
    (hchain : chain.WellFormed epochLength) :
    Verified (lookupNetwork genesis epochLength chain sign) (fun _ => True) s.node := by
  induction hs with
  | init hs =>
    constructor <;> simp [hs.prevotes, hs.precommits, hs.timeouts, hs.pols, hs.precommitVotes,
      hs.timeoutVotes, hs.finalized]
  | step hs hstep ih =>
    exact hstep.verified hchain hs.own_wellFormed ih fun _ _ _ _ _ => trivial

/-- **A certificate is a quorum of the set in force.**  In a run in which the node tallies votes only
of epochs its blocks reach, every lock and finality record it holds of its own writing, and every round
certificate a step adds that no held block carried, is a quorum of the set in force on the chain, signed
under the keys in force there; and that set is the chain's own row for the height's epoch. -/
theorem certificates_are_certified (hchain : chain.WellFormed epochLength)
    (hs : s.Reachable genesis epochLength sign (LookupChain.Reaches epochLength · chain ·))
    (hstep : s.Step genesis epochLength sign (LookupChain.Reaches epochLength · chain ·) s') :
    (∀ p ∈ s'.node.db.pols, p.Certified (lookupNetwork genesis epochLength chain sign)) ∧
    (∀ r ∈ s'.node.finalized, r.Certified (lookupNetwork genesis epochLength chain sign)) ∧
    (∀ r ∈ s'.node.db.certificates, r ∉ s.node.db.certificates →
      (∀ k held, s.node.db.blocks k = some held → held.certificate ≠ some r) →
      r.Certified (lookupNetwork genesis epochLength chain sign)) ∧
    ∀ (k : Height) set,
      chain.setRow (validatorSetEffectiveHeight k epochLength) = some set →
      (lookupNetwork genesis epochLength chain sign).setAt k = set := by
  have hverified := (hs.step hstep).verified hchain
  refine ⟨hverified.pols, hverified.finalized, fun r hr hnew hheld => ?_,
    fun k set hset => LookupChain.getValidatorSetAt_eq_row hchain hset⟩
  -- for this one step, the round certificates of others are those held before it and those in blocks
  have hbefore : Verified (lookupNetwork genesis epochLength chain sign)
      (fun r => r ∈ s.node.db.certificates ∨
        ∃ k held, s.node.db.blocks k = some held ∧ held.certificate = some r) s.node :=
    { hs.verified hchain with certificates := fun r hr => .inl (.inl hr) }
  have hafter := hstep.verified hchain hs.own_wellFormed hbefore
    fun k held hk r hr => .inr ⟨k, held, hk, hr⟩
  rcases hafter.certificates r hr with (hold | ⟨k, held, hk, hcert⟩) | hcertified
  · exact absurd hold hnew
  · exact absurd hcert (hheld k held hk)
  · exact hcertified

end Runs

end Certificates

/-! ### A node one epoch behind -/

namespace Behind

local instance : Crypto := Plain.crypto fun _ _ _ => true

def genesisRows : LookupRows := ⟨some ((∅ : ValidatorSet).insert ⟨"a"⟩ 10000), [(⟨"a"⟩, [])]⟩

/-- The end of the first epoch hands the chain from `"a"` to `"b"`. -/
def chain : LookupChain :=
  [genesisRows, ⟨some ((∅ : ValidatorSet).insert ⟨"b"⟩ 10000), []⟩]

theorem chain_wellFormed : chain.WellFormed 2 := by
  intro i rows hi hrows _
  match i, hi with
  | 1, _ => rfl
  | i + 2, _ => simp [chain] at hrows

theorem genesis_wellFormed : LookupChain.WellFormed 2 [genesisRows] := by
  intro i rows hi hrows _
  match i, hi with
  | i + 1, _ => simp at hrows

/-- A node that holds genesis only. -/
def start : Follower where
  own := [genesisRows]
  node :=
    { me := ⟨"x"⟩, file := {}
      db :=
        { watermark := 0, tip := some 0, blocks := fun _ => none, pols := []
          finality := fun _ => none, certificates := [], precommitVotes := [], timeoutVotes := [] } }

theorem start_initial : start.Initial 2 :=
  ⟨rfl, rfl, rfl, rfl, rfl, rfl, rfl, genesis_wellFormed⟩

def hash (b : UInt8) : Hash32 := ⟨List.replicate 32 b, List.length_replicate⟩

/-- A precommit of `"a"`. -/
def vote (h : Height) : PrecommitVote := ⟨h, 0, hash 7, ⟨"a"⟩, [], hash 8⟩

def tallied (h : Height) : Follower :=
  { start with
    node := tallyVote (start.network [] 2 fun _ m => m) ⟨true, true, true⟩ (vote h) start.node }

/-- In its own epoch the node writes a record, and it is certified on the chain. -/
theorem certificates_are_certified_own_epoch : ∃ r ∈ (tallied 1).node.finalized,
    r.Certified (lookupNetwork [] 2 chain fun _ m => m) := by
  have hreaches : LookupChain.Reaches 2 start.own chain (vote 1).height :=
    ⟨by decide, by rfl⟩
  have hmem : ∃ r, r ∈ (tallied 1).node.finalized :=
    List.exists_mem_of_ne_nil _ (by decide +kernel)
  obtain ⟨r, hr⟩ := hmem
  exact ⟨r, hr, (certificates_are_certified chain_wellFormed (.init start_initial)
    (.precommit ⟨true, true, true⟩ (vote 1) hreaches)).2.1 r hr⟩

/-- **For the next epoch it writes a record of the old set**: its one signer holds no power in the set
the chain has for the height. -/
theorem record_of_old_set : ∃ s : Follower,
    s.Reachable [] 2 (fun _ m => m) (fun own _ => ∃ blocks, chain = own ++ blocks) ∧
    ∃ r ∈ s.node.finalized, ∃ set,
      chain.setRow (validatorSetEffectiveHeight r.height 2) = some set ∧
      quorumReached set r.signers = false ∧ ∀ a ∈ r.signers, set.contains a = false := by
  refine ⟨tallied 2, .step (.init start_initial)
    (.precommit ⟨true, true, true⟩ (vote 2) ⟨[_], rfl⟩), ?_⟩
  have hrecord : (2, [⟨"a"⟩]) ∈ (tallied 2).node.finalized.map fun r => (r.height, r.signers) := by
    decide +kernel
  obtain ⟨r, hr, heq⟩ := List.mem_map.mp hrecord
  obtain ⟨hheight, hsigners⟩ := Prod.mk.inj heq
  refine ⟨r, hr, (∅ : ValidatorSet).insert ⟨"b"⟩ 10000, ?_, ?_, ?_⟩
  · rw [hheight]
    rfl
  · rw [hsigners]
    decide +kernel
  · rw [hsigners]
    decide +kernel

end Behind

end Finality

end Arxium
