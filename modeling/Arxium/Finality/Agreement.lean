import Arxium.Finality.Rules
import Arxium.Finality.History
import Arxium.Runtime.Plain

/-!
# Finality/Agreement — honest nodes finalize one block per height

The whole system: every honest node runs the engine, messages arrive in any order, any number of
times or never, databases are unwound or lost, nodes crash and come back with their vote file.
Whatever is not honest sends what it likes, except signatures it cannot make: a message that
verifies under an honest validator's key was signed by that validator before (`Step`).

The list of everything honest validators signed is a legal history of `Lib/LockedVotes`, so two
finality records of one height name one block.
-/

namespace Arxium

namespace Finality

open Crypto LockedVotes

/-! ## Runs -/

/-- The nodes, and everything honest validators signed, the newest first. -/
structure System where
  nodes : Address → Node
  signed : List (Address × Message)

section Runs

variable [Crypto] (N : Network) (honest : Set Address)

/-- A signature that verifies under an honest validator's key is one it made. -/
def Unforged (s : System) (h : Height) (voter : Address) (m : Message) (signature : Bytes) :
    Prop :=
  voter ∈ honest → ∀ key, N.blsKeyAt voter h = some key →
    blsVerify (m.bytes N.genesis) key signature = true →
      ∃ m', (voter, m') ∈ s.signed ∧ m'.bytes N.genesis = m.bytes N.genesis

/-- So is its part of an aggregate. -/
def AggregateUnforged (s : System) (record : FinalityRecord) : Prop :=
  ∀ voter ∈ record.signers, voter ∈ honest →
    ∃ m', (voter, m') ∈ s.signed ∧ m'.bytes N.genesis =
      (Message.precommit record.height record.round record.block record.ep).bytes N.genesis

/-- What may happen to a node's database outside the engine: blocks come, go and are unwound, the
watermark moves, rows are lost; locks, votes and finality records do not appear. -/
structure NodeDb.Loses (db db' : NodeDb) : Prop where
  pols : db'.pols ⊆ db.pols
  precommitVotes : db'.precommitVotes ⊆ db.precommitVotes
  finality : ∀ h, db'.finality h = none ∨ db'.finality h = db.finality h

/-- The nodes with one of them replaced. -/
def System.set (s : System) (a : Address) (n : Node) : System :=
  { s with nodes := Function.update s.nodes a n }

/-- One event at one honest node. -/
inductive Step (s : System) : System → Prop
  | prevote (a : Address) (ha : a ∈ honest) (st : Storage) (vote : PrevoteVote)
      (hsig : Unforged N honest s vote.height vote.voter vote.message vote.signature) :
      Step s (s.set a (tallyPrevote N st vote (s.nodes a)))
  | precommit (a : Address) (ha : a ∈ honest) (st : Storage) (vote : PrecommitVote)
      (hsig : Unforged N honest s vote.height vote.voter vote.message vote.signature) :
      Step s (s.set a (tallyVote N st vote (s.nodes a)))
  | roundTimeout (a : Address) (ha : a ∈ honest) (st : Storage) (vote : RoundTimeoutVote) :
      Step s (s.set a (tallyRoundTimeout N st vote (s.nodes a)))
  | tick (a : Address) (ha : a ∈ honest) (i : StepInputs) :
      Step s
        { s.set a (tryStep N i (s.nodes a)).1 with
          signed := (tryStep N i (s.nodes a)).2.map (a, ·) ++ s.signed }
  | adopt (a : Address) (ha : a ∈ honest) (record : FinalityRecord)
      (hverify : verifyFinalityRecord N record = true)
      (hsig : AggregateUnforged N honest s record) :
      Step s (s.set a (writeFinality record (s.nodes a)))
  | prune (a : Address) (ha : a ∈ honest) (cutoff : Height) (p : Persist) :
      Step s (s.set a (prune cutoff p (s.nodes a)))
  | restart (a : Address) (ha : a ∈ honest) (cutoff : Height) :
      Step s (s.set a (restart cutoff (s.nodes a)))
  | chain (a : Address) (ha : a ∈ honest) (db : NodeDb) (hdb : (s.nodes a).db.Loses db) :
      Step s (s.set a { s.nodes a with db := db })

/-- Honest nodes start with no votes, no locks and no finality records. -/
structure System.Initial (s : System) : Prop where
  signed : s.signed = []
  me : ∀ a ∈ honest, (s.nodes a).me = a
  file : ∀ a ∈ honest, (s.nodes a).file = {}
  prevotes : ∀ a ∈ honest, (s.nodes a).prevotes = []
  precommits : ∀ a ∈ honest, (s.nodes a).precommits = []
  pols : ∀ a ∈ honest, (s.nodes a).db.pols = []
  precommitVotes : ∀ a ∈ honest, (s.nodes a).db.precommitVotes = []
  finalized : ∀ a ∈ honest, (s.nodes a).finalized = []

inductive Reachable : System → Prop
  | init {s : System} (h : s.Initial honest) : Reachable s
  | step {s s' : System} (h : Reachable s) (hstep : Step N honest s s') : Reachable s'

end Runs

/-! ## What a node holds is backed by the history -/

section Nodes

variable {N : Network} {honest : Set Address} {h : Height} (hb : FaultBound (N.setAt h) honest)

/-- The message's vote, if it is one of the height, has been cast. -/
def Cast (h : Height) (L : List (Vote Address Round Hash32)) (v : Address) (m : Message) : Prop :=
  ∀ w, voteOf h v m.entry = some w → w ∈ L

/-- Everything in a node's tallies, locks and records rests on votes that were cast. -/
structure NodeOk (L : List (Vote Address Round Hash32)) (a : Address) (n : Node) : Prop where
  me : n.me = a
  file : FileOk hb L a n.file
  prevotes : ∀ v ∈ n.prevotes, v.voter ∈ honest → Cast h L v.voter v.message
  precommits : ∀ v ∈ n.precommits, v.voter ∈ honest → Cast h L v.voter v.message
  stored : ∀ v ∈ n.db.precommitVotes, v.voter ∈ honest → Cast h L v.voter v.message
  pols : ∀ p ∈ n.db.pols, p.height = h → Polka hb.quorums L p.round p.block
  finalized : ∀ r ∈ n.finalized, r.height = h → Decided hb.quorums L r.round r.block

variable {hb} {L L' : List (Vote Address Round Hash32)} {a b : Address} {n : Node}

/-- A longer history backs as much, as far as the node's own record goes along. -/
theorem NodeOk.mono (hn : NodeOk hb L a n) (hsub : L ⊆ L') {f : VoteFile Hash32}
    (hfile : FileOk hb L' a f) : NodeOk hb L' a { n with file := f } :=
  ⟨hn.me, hfile, fun v hv hhon w hw => hsub (hn.prevotes v hv hhon w hw),
    fun v hv hhon w hw => hsub (hn.precommits v hv hhon w hw),
    fun v hv hhon w hw => hsub (hn.stored v hv hhon w hw),
    fun p hp hh => (hn.pols p hp hh).mono hsub, fun r hr hh => (hn.finalized r hr hh).mono hsub⟩

/-- Whoever signed a certificate made of cast votes cast its message. -/
theorem cast_of_signers {α : Type} {votes : List α} {voter : α → Address} {message : α → Message}
    (hvotes : ∀ v ∈ votes, voter v ∈ honest → Cast h L (voter v) (message v))
    {signers : List (Address × Bytes)} {m : Message}
    (hsigners : ∀ s ∈ signers, ∃ w ∈ votes, voter w = s.1 ∧ message w = m) :
    ∀ a ∈ signers.map Prod.fst, a ∈ honest → Cast h L a m := by
  intro a ha hhon
  obtain ⟨s, hs, rfl⟩ := List.mem_map.mp ha
  obtain ⟨w, hw, hvoter, rfl⟩ := hsigners s hs
  rw [← hvoter] at hhon ⊢
  exact hvotes w hw hhon

/-! ## The engine keeps it so -/

theorem NodeOk.revertTo (hn : NodeOk hb L a n) (k : Height) :
    NodeOk hb L a { n with db := n.db.revertTo k } := by
  refine { hn with stored := fun v hv => hn.stored v ?_, pols := fun p hp => hn.pols p ?_ }
  · simp only [NodeDb.revertTo] at hv
    split at hv
    · exact hv
    · exact List.mem_of_mem_filter hv
  · simp only [NodeDb.revertTo] at hp
    split at hp
    · exact hp
    · exact List.mem_of_mem_filter hp

theorem NodeOk.writeFinality (hn : NodeOk hb L a n) {record : FinalityRecord}
    (hrecord : record.height = h → Decided hb.quorums L record.round record.block) :
    NodeOk hb L a (writeFinality record n) := by
  refine { hn with
    precommits := fun v hv => hn.precommits v (List.mem_of_mem_filter hv)
    stored := fun v hv => hn.stored v (List.mem_of_mem_filter hv)
    finalized := fun r hr hh => ?_ }
  rcases List.mem_cons.mp hr with rfl | hold
  · exact hrecord hh
  · exact hn.finalized r hold hh

theorem NodeOk.prune (hn : NodeOk hb L a n) (cutoff : Height) (p : Persist) :
    NodeOk hb L a (prune cutoff p n) where
  me := hn.me
  file := hn.file.pruneBelow cutoff p
  prevotes v hv := hn.prevotes v (List.mem_of_mem_filter hv)
  precommits v hv := hn.precommits v (List.mem_of_mem_filter hv)
  stored v hv := hn.stored v (List.mem_of_mem_filter hv)
  pols q hq := hn.pols q (List.mem_of_mem_filter hq)
  finalized := hn.finalized

theorem NodeOk.restart (hn : NodeOk hb L a n) (hlegal : Legal hb.quorums L) (cutoff : Height) :
    ∃ L', Grows hb a L L' ∧ NodeOk hb L' a (restart cutoff n) := by
  obtain ⟨L', hg, hfile⟩ := hn.file.load hlegal
  have hm := hn.mono hg.subset hfile
  exact ⟨L', hg, hm.me, hm.file, by simp [Finality.restart],
    fun v hv => hm.stored v (List.mem_of_mem_filter hv), hm.stored, hm.pols, hm.finalized⟩

theorem NodeOk.loses (hn : NodeOk hb L a n) {db : NodeDb} (hdb : n.db.Loses db) :
    NodeOk hb L a { n with db := db } :=
  { hn with
    stored := fun v hv => hn.stored v (hdb.precommitVotes hv)
    pols := fun p hp => hn.pols p (hdb.pols hp) }

variable [Crypto]

theorem NodeOk.tallyPrevote (hn : NodeOk hb L a n) {vote : PrevoteVote}
    (hvote : authentic N vote.height vote.voter vote.message vote.signature = true →
      vote.voter ∈ honest → Cast h L vote.voter vote.message) (st : Storage) :
    NodeOk hb L a (tallyPrevote N st vote n) := by
  refine tallyPrevote_rule hn fun hauth votes hsub => ?_
  have hvotes := forall_of_subset hn.prevotes (hvote hauth) hsub
  refine ⟨{ hn with prevotes := hvotes }, fun signers agg hsigners hquorum _ pols hpols => ?_⟩
  refine { hn with prevotes := hvotes, pols := forall_of_subset hn.pols (fun hh => ?_) hpols }
  subst hh
  exact hb.quorum_of_reached hquorum fun a ha hhon =>
    cast_of_signers hvotes hsigners a ha hhon _ (voteOf_eq_some.mpr ⟨rfl, rfl⟩)

theorem NodeOk.tallyVote (hn : NodeOk hb L a n) {vote : PrecommitVote}
    (hvote : authentic N vote.height vote.voter vote.message vote.signature = true →
      vote.voter ∈ honest → Cast h L vote.voter vote.message) (st : Storage) :
    NodeOk hb L a (tallyVote N st vote n) := by
  refine tallyVote_rule hn (fun _ hn => hn.revertTo _) fun hauth votes hsub => ?_
  have hvotes := forall_of_subset hn.precommits (hvote hauth) hsub
  refine ⟨{ hn with precommits := hvotes }, fun stored hstored => ?_⟩
  have hcounted : NodeOk hb L a
      { n with precommits := votes, db := { n.db with precommitVotes := stored } } :=
    { hn with precommits := hvotes, stored := forall_of_subset hn.stored (hvote hauth) hstored }
  refine ⟨hcounted, fun signers agg hsigners hquorum _ => hcounted.writeFinality fun hh => ?_⟩
  subst hh
  exact hb.quorum_of_reached hquorum fun a ha hhon =>
    cast_of_signers hvotes hsigners a ha hhon _ (voteOf_eq_some.mpr ⟨rfl, rfl⟩)

theorem NodeOk.tallyRoundTimeout (hn : NodeOk hb L a n) (st : Storage)
    (vote : RoundTimeoutVote) : NodeOk hb L a (tallyRoundTimeout N st vote n) :=
  tallyRoundTimeout_rule hn (fun _ hn => hn.revertTo _) fun _ _ _ _ =>
    ⟨{ hn with }, fun _ _ => ⟨{ hn with }, fun _ _ _ _ _ => { hn with }⟩⟩

/-! ## Signing -/

/-- A step that signs: the history grows, the node stays backed by it, and what was signed was
cast. -/
def Signs (hb : FaultBound (N.setAt h) honest) (L : List (Vote Address Round Hash32)) (a : Address)
    (r : Node × List Message) : Prop :=
  ∃ L', Grows hb a L L' ∧ NodeOk hb L' a r.1 ∧ ∀ m ∈ r.2, Cast h L' a m

omit [Crypto] in
theorem NodeOk.signsNothing (hn : NodeOk hb L a n) (hlegal : Legal hb.quorums L) :
    Signs hb L a (n, []) := ⟨L, .refl hlegal, hn, by simp⟩

theorem NodeOk.prevote (hn : NodeOk hb L a n) (hlegal : Legal hb.quorums L) (ha : a ∈ honest)
    (i : StepInputs) (k : Height) (r : Round) (block : Hash32) (polRound : Option Round)
    (hpol : k = h → ∀ p, polRound = some p → Polka hb.quorums L p block) :
    Signs hb L a (prevote N i k r block polRound n) := by
  unfold Finality.prevote
  split
  · exact hn.signsNothing hlegal
  rcases n.file.claimPrevote_result k r block polRound i.persistPrevote with
    ⟨refusal, heq⟩ | ⟨heq, hlock⟩
  · rw [heq]
    exact NodeOk.signsNothing { hn with } hlegal
  have hallowed : n.file.memory.Admits ⟨.prevote, k, r, block⟩ → ∀ w,
      voteOf h a ⟨.prevote, k, r, block⟩ = some w → Allowed hb.quorums L w := by
    intro hadmits w hw
    obtain ⟨rfl, rfl⟩ := voteOf_prevote hw
    exact hn.file.prevoteAllowed hlegal ha hadmits hlock (hpol rfl)
  obtain ⟨L', hg, hfile, hcast⟩ :=
    hn.file.claim hlegal (n.file.claim_result _ i.persistPrevote) hallowed
  have hn' := hn.mono hg.subset hfile
  rw [heq]
  split
  · rename_i hresult
    rw [hresult] at hn'
    exact ⟨L', hg, { hn' with }, by simp⟩
  · rename_i hresult
    rw [hresult] at hn' hcast
    have hsigned : Cast h L' a (.prevote k r block) := hcast rfl
    have hn'' : NodeOk hb L' a
        { n with file := _, myPrevotes := (k, r) :: n.myPrevotes } := { hn' with }
    refine ⟨L', hg, hn''.tallyPrevote (fun _ _ => ?_) i.storage, ?_⟩
    · exact hn.me ▸ hsigned
    · intro m hm
      obtain rfl := List.mem_singleton.mp hm
      exact hsigned

theorem NodeOk.precommit (hn : NodeOk hb L a n) (hlegal : Legal hb.quorums L) (ha : a ∈ honest)
    (i : StepInputs) (k : Height) (r : Round) (block : HeldBlock)
    (hpol : k = h → Polka hb.quorums L r block.hash) :
    Signs hb L a (precommit N i k r block n) := by
  unfold Finality.precommit
  split
  · exact hn.signsNothing hlegal
  have hallowed : n.file.memory.Admits ⟨.precommit, k, r, block.hash⟩ → ∀ w,
      voteOf h a ⟨.precommit, k, r, block.hash⟩ = some w → Allowed hb.quorums L w := by
    intro hadmits w hw
    obtain ⟨rfl, rfl⟩ := voteOf_precommit hw
    exact .precommit (hn.file.mayVote ha hadmits hw) (hpol rfl)
  obtain ⟨L', hg, hfile, hcast⟩ :=
    hn.file.claim hlegal (n.file.claim_result _ i.persistPrecommit) hallowed
  have hn' := hn.mono hg.subset hfile
  split
  · rename_i hresult
    rw [VoteFile.claimPrecommit] at hresult
    rw [hresult] at hn'
    exact ⟨L', hg, { hn' with }, by simp⟩
  · rename_i hresult
    rw [VoteFile.claimPrecommit] at hresult
    rw [hresult] at hn' hcast
    have hsigned : Cast h L' a (.precommit k r block.hash block.ep) := hcast rfl
    have hn'' : NodeOk hb L' a
        { n with file := _, myPrecommits := (k, r) :: n.myPrecommits } := { hn' with }
    refine ⟨L', hg, hn''.tallyVote (fun _ _ => ?_) i.storage, ?_⟩
    · exact hn.me ▸ hsigned
    · intro m hm
      obtain rfl := List.mem_singleton.mp hm
      exact hsigned

theorem NodeOk.timeout (hn : NodeOk hb L a n) (hlegal : Legal hb.quorums L)
    (i : StepInputs) (k : Height) (r : Round) (parent : Hash32) :
    Signs hb L a (timeout N i k r parent n) := by
  unfold Finality.timeout
  split
  · exact hn.signsNothing hlegal
  have hallowed : n.file.memory.Admits ⟨.timeout, k, r, parent⟩ → ∀ w,
      voteOf h a ⟨.timeout, k, r, parent⟩ = some w → Allowed hb.quorums L w := by
    simp [voteOf]
  obtain ⟨L', hg, hfile, hcast⟩ :=
    hn.file.claim hlegal (n.file.claim_result _ i.persistTimeout) hallowed
  have hn' := hn.mono hg.subset hfile
  split
  · rename_i hresult
    rw [VoteFile.claimTimeout] at hresult
    rw [hresult] at hn'
    exact ⟨L', hg, { hn' with }, by simp⟩
  · rename_i hresult
    rw [VoteFile.claimTimeout] at hresult
    rw [hresult] at hn' hcast
    have hn'' : NodeOk hb L' a
        { n with file := _, myTimeouts := (k, r) :: n.myTimeouts } := { hn' with }
    refine ⟨L', hg, hn''.tallyRoundTimeout i.storage _, ?_⟩
    intro m hm
    obtain rfl := List.mem_singleton.mp hm
    exact hcast rfl

omit [Crypto] in
theorem Signs.andThen {r : Node × List Message} (hr : Signs hb L a r)
    {f : Node → Node × List Message}
    (hf : ∀ L', L ⊆ L' → Legal hb.quorums L' → NodeOk hb L' a r.1 → Signs hb L' a (f r.1)) :
    Signs hb L a ((f r.1).1, (f r.1).2 ++ r.2) := by
  obtain ⟨L', hg, hn, hcast⟩ := hr
  obtain ⟨L'', hg', hn', hcast'⟩ := hf L' hg.subset hg.legal hn
  refine ⟨L'', hg.trans hg', hn', fun m hm => ?_⟩
  rcases List.mem_append.mp hm with hm | hm
  · exact hcast' m hm
  · exact fun w hw => hg'.subset (hcast m hm w hw)

/-- **Everything a step signs, the rules allow.** -/
theorem NodeOk.tryStep (hn : NodeOk hb L a n) (hlegal : Legal hb.quorums L) (ha : a ∈ honest)
    (i : StepInputs) : Signs hb L a (tryStep N i n) := by
  refine tryStep_rule (J := Signs hb L a) (K := Signs hb L a) rfl (hn.signsNothing hlegal)
    (fun _ _ _ _ => NodeOk.signsNothing { hn with } hlegal) (fun _ ⟨L', hg, hn', hcast⟩ =>
      ⟨L', hg, hn'.revertTo _, hcast⟩) (fun n' pol block hn' hmem hheight _ hblock => ?_)
    (fun n' ms r block polRound hn' hpol => ?_) (fun n' ms r parent hn' => ?_) fun _ => id
  · have hsigned := hn'.andThen (f := Finality.precommit N i _ pol.round block)
      fun L' hsub hlegal' hn' => hn'.precommit hlegal' ha i _ pol.round block fun hk =>
        hblock ▸ (hn.pols pol hmem (hheight.trans hk)).mono hsub
    rwa [List.append_nil] at hsigned
  · refine hn'.andThen fun L' hsub hlegal' hn' =>
      hn'.prevote hlegal' ha i _ r block polRound fun hk q hq => ?_
    obtain ⟨pol, hmem, hheight, rfl, rfl⟩ := hpol q hq
    exact (hn.pols pol hmem (hheight.trans hk)).mono hsub
  · exact hn'.andThen fun L' _ hlegal' hn' => hn'.timeout hlegal' i _ r parent

/-! ## Whole runs -/

/-- One legal history backs every honest node and everything honest validators signed. -/
def Backed (hb : FaultBound (N.setAt h) honest) (s : System) : Prop :=
  ∃ L, Legal hb.quorums L ∧ (∀ p ∈ s.signed, p.1 ∈ honest → Cast h L p.1 p.2) ∧
    ∀ a ∈ honest, NodeOk hb L a (s.nodes a)

variable {s s' : System}

omit [Crypto] in
/-- A step of one node that signs `signed`: the others follow the longer history. -/
theorem Backed.of_signs {L : List (Vote Address Round Hash32)}
    (hsigned : ∀ p ∈ s.signed, p.1 ∈ honest → Cast h L p.1 p.2)
    (hnodes : ∀ a ∈ honest, NodeOk hb L a (s.nodes a)) {r : Node × List Message}
    (hr : Signs hb L a r) :
    Backed hb { s.set a r.1 with signed := r.2.map (a, ·) ++ s.signed } := by
  obtain ⟨L', hg, hn, hcast⟩ := hr
  refine ⟨L', hg.legal, fun p hp hhon => ?_, fun b hbh => ?_⟩
  · rcases List.mem_append.mp hp with hp | hp
    · obtain ⟨m, hm, rfl⟩ := List.mem_map.mp hp
      exact hcast m hm
    · exact fun w hw => hg.subset (hsigned p hp hhon w hw)
  · dsimp only [System.set]
    by_cases hba : b = a
    · subst hba
      rw [Function.update_self]
      exact hn
    · rw [Function.update_of_ne hba]
      exact (hnodes b hbh).mono hg.subset ((hnodes b hbh).file.grows hg hba)

omit [Crypto] in
/-- A step that signs nothing. -/
theorem Backed.of_nodeOk {L : List (Vote Address Round Hash32)} (hlegal : Legal hb.quorums L)
    (hsigned : ∀ p ∈ s.signed, p.1 ∈ honest → Cast h L p.1 p.2)
    (hnodes : ∀ a ∈ honest, NodeOk hb L a (s.nodes a)) (hn : NodeOk hb L a n) :
    Backed hb (s.set a n) :=
  Backed.of_signs hsigned hnodes (hn.signsNothing hlegal)

/-- What verifies under an honest key was cast. -/
theorem cast_of_authentic (hsigned : ∀ p ∈ s.signed, p.1 ∈ honest → Cast h L p.1 p.2)
    {k : Height} {voter : Address} {m : Message} {signature : Bytes}
    (hsig : Unforged N honest s k voter m signature)
    (hauth : authentic N k voter m signature = true) (hhon : voter ∈ honest) :
    Cast h L voter m := by
  obtain ⟨hkey, -⟩ := (Bool.and_eq_true _ _).mp hauth
  obtain ⟨key, hkey, hverify⟩ := (Option.any_eq_true _ _).mp hkey
  obtain ⟨m', hmem, hbytes⟩ := hsig hhon key hkey hverify
  obtain rfl := Message.bytes_injective N.genesis hbytes
  exact hsigned _ hmem hhon

/-- An adopted record is a decision too. -/
theorem decided_of_verified (hsigned : ∀ p ∈ s.signed, p.1 ∈ honest → Cast h L p.1 p.2)
    {record : FinalityRecord} (hverify : verifyFinalityRecord N record = true)
    (hsig : AggregateUnforged N honest s record) (hh : record.height = h) :
    Decided hb.quorums L record.round record.block := by
  subst hh
  have hreached : quorumReached (N.setAt record.height) record.signers = true := by
    simp only [verifyFinalityRecord, Bool.and_eq_true] at hverify
    exact hverify.1.1.2
  refine hb.quorum_of_reached hreached fun v hv hhon => ?_
  obtain ⟨m', hmem, hbytes⟩ := hsig v hv hhon
  obtain rfl := Message.bytes_injective N.genesis hbytes
  exact hsigned _ hmem hhon _ (voteOf_eq_some.mpr ⟨rfl, rfl⟩)

/-- **Every event keeps the system backed.** -/
theorem Step.backed (hstep : Step N honest s s') (hs : Backed hb s) : Backed hb s' := by
  obtain ⟨L, hlegal, hsigned, hnodes⟩ := hs
  cases hstep with
  | prevote a ha st vote hsig =>
    exact .of_nodeOk hlegal hsigned hnodes
      ((hnodes a ha).tallyPrevote (cast_of_authentic hsigned hsig) st)
  | precommit a ha st vote hsig =>
    exact .of_nodeOk hlegal hsigned hnodes
      ((hnodes a ha).tallyVote (cast_of_authentic hsigned hsig) st)
  | roundTimeout a ha st vote =>
    exact .of_nodeOk hlegal hsigned hnodes ((hnodes a ha).tallyRoundTimeout st vote)
  | tick a ha i => exact .of_signs hsigned hnodes ((hnodes a ha).tryStep hlegal ha i)
  | adopt a ha record hverify hsig =>
    exact .of_nodeOk hlegal hsigned hnodes
      ((hnodes a ha).writeFinality (decided_of_verified hsigned hverify hsig))
  | prune a ha cutoff p => exact .of_nodeOk hlegal hsigned hnodes ((hnodes a ha).prune cutoff p)
  | restart a ha cutoff =>
    obtain ⟨L', hg, hn⟩ := (hnodes a ha).restart hlegal cutoff
    exact Backed.of_signs (r := (_, [])) hsigned hnodes ⟨L', hg, hn, by simp⟩
  | chain a ha db hdb => exact .of_nodeOk hlegal hsigned hnodes ((hnodes a ha).loses hdb)

omit [Crypto] in
theorem System.Initial.backed (hs : s.Initial honest) : Backed hb s := by
  refine ⟨[], .nil, by simp [hs.signed], fun a ha => ⟨hs.me a ha, ?_, ?_, ?_, ?_, ?_, ?_⟩⟩
  · rw [hs.file a ha]
    exact ⟨by simp, by simp, by simp, none, by simp, by simp⟩
  · simp [hs.prevotes a ha]
  · simp [hs.precommits a ha]
  · simp [hs.precommitVotes a ha]
  · simp [hs.pols a ha]
  · simp [hs.finalized a ha]

theorem Reachable.backed (hs : Reachable N honest s) : Backed hb s := by
  induction hs with
  | init hinit => exact hinit.backed
  | step _ hstep ih => exact hstep.backed ih

/-- **Agreement.**  With less than a third of the power in dishonest hands, no two finality records
that honest nodes wrote for one height name different blocks. -/
theorem finality_agreement (hfault : FaultBound (N.setAt h) honest) (hs : Reachable N honest s)
    (ha : a ∈ honest) (hb : b ∈ honest) {r r' : FinalityRecord}
    (hr : r ∈ (s.nodes a).finalized) (hr' : r' ∈ (s.nodes b).finalized)
    (hheight : r.height = h) (hheight' : r'.height = h) : r.block = r'.block := by
  have hbacked : Backed hfault s := hs.backed
  obtain ⟨L, hlegal, -, hnodes⟩ := hbacked
  exact hlegal.agreement ((hnodes a ha).finalized r hr hheight)
    ((hnodes b hb).finalized r' hr' hheight')

end Nodes

/-! ### A run that finalizes -/

section Run

local instance : Crypto := Plain.crypto fun _ _ _ => true

/-- Two thirds of the power with `"a"`, the rest in dishonest hands. -/
def twoNetwork : Network where
  genesis := []
  setAt _ := ((∅ : ValidatorSet).insert ⟨"a"⟩ 6667).insert ⟨"z"⟩ 3333
  blsKeyAt _ _ := some []
  sign _ m := m

def twoBlock : HeldBlock :=
  ⟨⟨List.replicate 32 7, by decide⟩, 0, none, ⟨List.replicate 32 8, by decide⟩⟩

/-- Everybody holds a block at height one. -/
def twoStart : System where
  signed := []
  nodes a :=
    { me := a, file := {}
      db :=
        { watermark := 0, tip := some 1, blocks := fun h => if h ≤ 1 then some twoBlock else none
          pols := [], finality := fun _ => none, certificates := [], precommitVotes := []
          timeoutVotes := [] } }

def twoTick (s : System) : System :=
  let r := tryStep twoNetwork ⟨⟨true, true, true⟩, false, .durable, .durable, .durable⟩
    (s.nodes ⟨"a"⟩)
  { s.set ⟨"a"⟩ r.1 with signed := r.2.map (⟨"a"⟩, ·) ++ s.signed }

theorem twoNetwork_faultBound : FaultBound (twoNetwork.setAt 1) {⟨"a"⟩} := by
  have hlist : (twoNetwork.setAt 1).toList = [(⟨"a"⟩, 6667), (⟨"z"⟩, 3333)] := by decide +kernel
  refine ⟨by rw [hlist]; rfl, ?_⟩
  rw [hlist]
  simp [weight]

theorem twoStart_reachable : Reachable twoNetwork {⟨"a"⟩} (twoTick (twoTick twoStart)) := by
  have hstart : twoStart.Initial {⟨"a"⟩} :=
    ⟨rfl, fun _ _ => rfl, fun _ _ => rfl, fun _ _ => rfl, fun _ _ => rfl, fun _ _ => rfl,
      fun _ _ => rfl, fun _ _ => rfl⟩
  have htick : ∀ s, Step twoNetwork {⟨"a"⟩} s (twoTick s) := fun s => .tick ⟨"a"⟩ (Set.mem_singleton _) _
  exact ((Reachable.init hstart).step (htick _)).step (htick _)

/-- After a prevote and a precommit of `"a"` a record of height one is there, and it is the only
one. -/
theorem finality_agreement_two : ∃ r ∈ ((twoTick (twoTick twoStart)).nodes ⟨"a"⟩).finalized,
    r.height = 1 ∧ ∀ r' ∈ ((twoTick (twoTick twoStart)).nodes ⟨"a"⟩).finalized, r'.height = 1 →
      r.block = r'.block := by
  have hmem : ∃ r ∈ ((twoTick (twoTick twoStart)).nodes ⟨"a"⟩).finalized, r.height = 1 := by
    decide +kernel
  obtain ⟨r, hr, hheight⟩ := hmem
  exact ⟨r, hr, hheight, fun r' hr' hheight' =>
    finality_agreement twoNetwork_faultBound twoStart_reachable rfl rfl hr hr' hheight hheight'⟩

end Run

end Finality

end Arxium
