import Arxium.Node.Run
import Arxium.Lib.Text
import Arxium.Finality.SignedVotes

/-!
# Node/SignedHeight — what a proposer signs, and what it claimed before

A proposer claims a height and round in a file of its own before it signs a block there, and the file
refuses to go back.  The production loop holds the chain lock from the claim to the commit, so nobody
else moves the tip in between.  The finality thread writes round certificates without that lock, and
block production reads the round *again* for the header.

So the loop is modelled with a pause between the two readings (`Proposer.claimed`).  What comes out is
that every signature is under its claim in each run in which no certificate ends the claimed round
during the pause (`signatures_are_claimed`), and a run in which one does.
-/

namespace Arxium

open ReadProg Writes Text
open Finality (Height Round)

/-! ## The file -/

namespace SignedHeight

/-- The text `claim` writes. -/
def render (genesis : List Char) (claim : Height ×ₗ Round) : List Char :=
  spaced [genesis, decimal (ofLex claim).1, decimal (ofLex claim).2]

/-- `load`, on the text of the file or none.  A file of another chain counts as none; one without a round
holds its height for all rounds. -/
def load (genesis : List Char) : Option (List Char) → Option (Height ×ₗ Round)
  | none => some (toLex (0, 0))
  | some text =>
    match words text with
    | [g, h, r] =>
      if g = genesis then do
        return toLex (← parseUnsigned (2 ^ 64) h, ← parseUnsigned (2 ^ 32) r)
      else some (toLex (0, 0))
    | [g, h] =>
      if g = genesis then do
        return toLex (← parseUnsigned (2 ^ 64) h, Fin.last _)
      else some (toLex (0, 0))
    | _ => none

/-- **A claim is read back.** -/
theorem load_render {genesis : List Char} (hword : Word genesis) (claim : Height ×ₗ Round) :
    load genesis (some (render genesis claim)) = some claim := by
  have hwords : words (render genesis claim) =
      [genesis, decimal (ofLex claim).1, decimal (ofLex claim).2] := by
    refine words_spaced fun w hw => ?_
    simp only [List.mem_cons, List.not_mem_nil, or_false] at hw
    rcases hw with rfl | rfl | rfl
    · exact hword
    · exact word_decimal _
    · exact word_decimal _
  simp only [load, hwords, if_true, parseUnsigned_decimal]
  rfl

end SignedHeight

/-! ## The loop -/

/-- Whether an interval has passed since the parent. -/
def slotDue (now parentTimestamp parentHeight interval : Nat) : Bool :=
  parentHeight = 0 || saturatingAdd64 parentTimestamp interval ≤ now

/-- The gates of `produce_loop` before a claim: the round in which it is the address's turn. -/
def Db.turn (db : Db) (address : Address) (now interval : Nat) : Option Nat := do
  let parent ← db.state.blocks db.tipHeight
  let set := db.getValidatorSetAt (db.tipHeight + 1)
  if !slotDue now parent.timestamp parent.height interval then none
  -- A parent that can finalize has to; a locked height has its block.
  else if quorumPower ≤ db.keyedPower set ∧ db.watermark < db.tipHeight then none
  else if (db.locks (db.tipHeight + 1)).isSome then none
  else
    let round := db.currentRound (db.tipHeight + 1)
    if eligibleProposer set.keys (db.tipHeight + 1) round = some address then some round else none

theorem Db.turn_eq_some {db : Db} {address : Address} {now interval round : Nat}
    (h : db.turn address now interval = some round) :
    round = db.currentRound (db.tipHeight + 1) ∧
      eligibleProposer (db.getValidatorSetAt (db.tipHeight + 1)).keys (db.tipHeight + 1) round =
        some address := by
  obtain ⟨parent, -, h⟩ := Option.bind_eq_some_iff.mp h
  simp only [Option.ite_none_left_eq_some, Option.ite_none_right_eq_some, Option.some.injEq] at h
  obtain ⟨-, -, -, heligible, rfl⟩ := h
  exact ⟨rfl, heligible⟩

/-- A validator's identity on a chain: its key, and the chain's hash as it stands in the file. -/
structure Identity where
  key : ProposerKey
  genesis : List Char
  word : Word genesis

/-- A signature made: the block, what the file held then, and the validators. -/
structure Signing where
  block : ChainBlock
  file : Option (List Char)
  validators : List Address

structure Proposer where
  db : Db
  file : Option (List Char)
  last : Height ×ₗ Round
  /-- The claim that was made and not used yet; the loop holds the chain lock. -/
  claimed : Option (Height ×ₗ Round)
  /-- Everything signed so far. -/
  signed : List Signing

namespace Proposer

/-- It is this proposer's turn at a height and round it may still claim. -/
def MayClaim (me : Identity) (s : Proposer) (claim : Height ×ₗ Round) : Prop :=
  ∃ now interval, (ofLex claim).1 = s.db.tipHeight + 1 ∧
    s.db.turn me.key.address now interval = some (ofLex claim).2 ∧ s.last < claim

variable [Crypto] [Wire ActionPayload] [Zk] [StateTrie] [Decode]

/-- One step of the loop or of what goes on around it; `writes` says what the finality thread may write
meanwhile. -/
inductive Step (me : Identity) (writes : Proposer → Db → Prop) (s : Proposer) : Proposer → Prop
  | claim {c : Height ×ₗ Round} (hidle : s.claimed = none) (hc : s.MayClaim me c) :
      Step me writes s { s with
        file := some (SignedHeight.render me.genesis c), last := c, claimed := some c }
  /-- The claim was refused because its write failed, with the new file in place or not. -/
  | claimFailed {c : Height ×ₗ Round} (landed : Bool) (hidle : s.claimed = none)
      (hc : s.MayClaim me c) :
      Step me writes s { s with
        file := if landed then some (SignedHeight.render me.genesis c) else s.file }
  /-- The block is built and signed; its commit goes through or fails. -/
  | sign {c : Height ×ₗ Round} {env : NodeEnv} {actions : List ChainAction} {p : Produced} {db' : Db}
      (committed : Bool) (hclaimed : s.claimed = some c)
      (h : produceBlockReporting env s.db actions (some me.key) = .ok (p, db')) :
      Step me writes s { s with
        db := if committed then db' else s.db
        claimed := none
        signed := s.signed ++
          [⟨p.block, s.file, (s.db.getValidatorSetAt (s.db.tipHeight + 1)).keys⟩] }
  /-- Production failed before there was a header. -/
  | giveUp : Step me writes s { s with claimed := none }
  /-- The finality thread, at any time; the chain is not its to change. -/
  | finality {db' : Db} (hstate : db'.state = s.db.state) (hwrites : writes s db') :
      Step me writes s { s with db := db' }
  /-- Whoever else holds the chain lock: accepted blocks, unwinds, a restored database. -/
  | chain {db' : Db} (hidle : s.claimed = none) : Step me writes s { s with db := db' }
  /-- A crash at any time, and the file read again. -/
  | restart {last : Height ×ₗ Round} (hload : SignedHeight.load me.genesis s.file = some last) :
      Step me writes s { s with last := last, claimed := none }

/-- A node that starts: whatever its file holds, it has signed nothing since. -/
structure Starts (me : Identity) (s : Proposer) : Prop where
  load : SignedHeight.load me.genesis s.file = some s.last
  claimed : s.claimed = none
  signed : s.signed = []

inductive Reachable (me : Identity) (writes : Proposer → Db → Prop) : Proposer → Prop
  | start {s : Proposer} (h : s.Starts me) : Reachable me writes s
  | step {s s' : Proposer} (h : Reachable me writes s) (hstep : Step me writes s s') :
      Reachable me writes s'

/-- While a round is claimed and its block not built yet, no certificate ends it. -/
def Quiet (s : Proposer) (db' : Db) : Prop :=
  ∀ c, s.claimed = some c → db'.currentRound (ofLex c).1 = s.db.currentRound (ofLex c).1

/-! ## Every signature is under its claim -/

/-- The signature carries what the file held, and it was this proposer's turn. -/
def Signing.Claimed (me : Identity) (e : Signing) (c : Height ×ₗ Round) : Prop :=
  SignedHeight.load me.genesis e.file = some c ∧ (ofLex c).1 = e.block.height ∧
    (ofLex c).2 = e.block.round ∧
    eligibleProposer e.validators e.block.height e.block.round = some me.key.address

/-- The signatures are under claims that only grow, up to the last. -/
structure Kept (me : Identity) (s : Proposer) : Prop where
  file : ∃ c, SignedHeight.load me.genesis s.file = some c ∧ s.last ≤ c
  signed : ∀ e ∈ s.signed, ∃ c ≤ s.last, Signing.Claimed me e c
  distinct : s.signed.Pairwise fun e e' =>
    (e.block.height, e.block.round) ≠ (e'.block.height, e'.block.round)
  claimed : ∀ c, s.claimed = some c →
    SignedHeight.load me.genesis s.file = some c ∧ s.last = c ∧
      (∀ e ∈ s.signed, ∃ c' < c, Signing.Claimed me e c') ∧
      (ofLex c).1 = s.db.tipHeight + 1 ∧ (ofLex c).2 = s.db.currentRound (s.db.tipHeight + 1) ∧
      eligibleProposer (s.db.getValidatorSetAt (s.db.tipHeight + 1)).keys (s.db.tipHeight + 1)
        (ofLex c).2 = some me.key.address

variable {me : Identity} {s s' : Proposer}

omit [Crypto] [Wire ActionPayload] [Zk] [StateTrie] [Decode] in
theorem Starts.kept (h : s.Starts me) : s.Kept me where
  file := ⟨s.last, h.load, le_rfl⟩
  signed e he := by rw [h.signed] at he; cases he
  distinct := by rw [h.signed]; exact .nil
  claimed c hc := by rw [h.claimed] at hc; cases hc

omit [Crypto] [Wire ActionPayload] [Zk] [StateTrie] [Decode] in
/-- What is not about the pause survives a step that signs nothing and lets `last` only grow. -/
theorem Kept.idle (h : s.Kept me) (db : Db) {file : Option (List Char)} {last : Height ×ₗ Round}
    (hfile : ∃ c, SignedHeight.load me.genesis file = some c ∧ last ≤ c) (hlast : s.last ≤ last) :
    Kept me { s with db := db, file := file, last := last, claimed := none } where
  file := hfile
  signed e he := by
    obtain ⟨c, hle, hc⟩ := h.signed e he
    exact ⟨c, hle.trans hlast, hc⟩
  distinct := h.distinct
  claimed c hc := by cases hc

/-- **A signature under the claim.** -/
theorem Kept.sign (h : s.Kept me) {c : Height ×ₗ Round} (hclaimed : s.claimed = some c) {env : NodeEnv}
    {actions : List ChainAction} {p : Produced} {db' : Db}
    (hp : produceBlockReporting env s.db actions (some me.key) = .ok (p, db')) (db : Db) :
    Kept me { s with
      db := db
      claimed := none
      signed := s.signed ++
        [⟨p.block, s.file, (s.db.getValidatorSetAt (s.db.tipHeight + 1)).keys⟩] } := by
  obtain ⟨hload, hlast, hbelow, hheight, hround, heligible⟩ := h.claimed c hclaimed
  obtain ⟨parent, genesis, ex, hbuilt⟩ := built_of_produce hp
  have hblock : p.block.height = s.db.tipHeight + 1 ∧
      p.block.round = s.db.currentRound (s.db.tipHeight + 1) := by
    rw [hbuilt.header]
    exact ⟨rfl, rfl⟩
  have hnew : Signing.Claimed me
      ⟨p.block, s.file, (s.db.getValidatorSetAt (s.db.tipHeight + 1)).keys⟩ c :=
    ⟨hload, by rw [hheight, hblock.1], by rw [hround, hblock.2], by
      rw [hblock.1, hblock.2, ← hround]; exact heligible⟩
  refine ⟨⟨c, hload, hlast.le⟩, fun e he => ?_, ?_, fun c hc => by cases hc⟩
  · rcases List.mem_append.mp he with he | he
    · exact h.signed e he
    · obtain rfl := List.mem_singleton.mp he
      exact ⟨c, hlast.ge, hnew⟩
  · -- What was signed before was signed under a smaller claim.
    refine List.pairwise_append.mpr ⟨h.distinct, List.pairwise_singleton .., fun e he e' he' heq => ?_⟩
    obtain rfl := List.mem_singleton.mp he'
    obtain ⟨c', hlt, -, hh, hr, -⟩ := hbelow e he
    obtain ⟨-, hh', hr', -⟩ := hnew
    obtain ⟨h₁, h₂⟩ := Prod.mk.inj heq
    have hsame : c' = c := ofLex.injective (Prod.ext (Fin.ext (by rw [hh, hh', h₁]))
      (Fin.ext (by rw [hr, hr', h₂])))
    exact absurd hsame hlt.ne

theorem Kept.step (h : s.Kept me) (hstep : Step me Quiet s s') : s'.Kept me := by
  cases hstep with
  | @claim c hidle hc =>
    obtain ⟨now, interval, hheight, hturn, hlt⟩ := hc
    obtain ⟨hround, heligible⟩ := Db.turn_eq_some hturn
    have hload := SignedHeight.load_render me.word c
    refine ⟨⟨c, hload, le_rfl⟩, fun e he => ?_, h.distinct, fun c' hc' => ?_⟩
    · obtain ⟨c', hle, he⟩ := h.signed e he
      exact ⟨c', hle.trans hlt.le, he⟩
    · obtain rfl := Option.some.inj hc'
      refine ⟨hload, rfl, fun e he => ?_, hheight, hround, heligible⟩
      obtain ⟨c', hle, he⟩ := h.signed e he
      exact ⟨c', hle.trans_lt hlt, he⟩
  | @claimFailed c landed hidle hc =>
    obtain ⟨now, interval, -, -, hlt⟩ := hc
    have hfile : ∃ c', SignedHeight.load me.genesis
        (if landed then some (SignedHeight.render me.genesis c) else s.file) = some c' ∧
          s.last ≤ c' := by
      cases landed with
      | true => exact ⟨c, SignedHeight.load_render me.word c, hlt.le⟩
      | false => exact h.file
    have hkept := h.idle s.db hfile le_rfl
    rwa [← hidle] at hkept
  | sign committed hclaimed hp => exact h.sign hclaimed hp _
  | giveUp => exact h.idle s.db h.file le_rfl
  | @finality db' hstate hquiet =>
    refine ⟨h.file, h.signed, h.distinct, fun c hc => ?_⟩
    obtain ⟨hload, hlast, hbelow, hheight, hround, heligible⟩ := h.claimed c hc
    have htip : db'.tipHeight = s.db.tipHeight := by rw [Db.tipHeight, hstate]; rfl
    have hset : db'.getValidatorSetAt (s.db.tipHeight + 1) =
        s.db.getValidatorSetAt (s.db.tipHeight + 1) := by
      rw [Db.getValidatorSetAt, hstate]
      rfl
    have hquiet := hquiet c hc
    rw [hheight] at hquiet
    refine ⟨hload, hlast, hbelow, ?_, ?_, ?_⟩
    · rw [htip]
      exact hheight
    · rw [htip, hquiet]
      exact hround
    · rw [htip, hset]
      exact heligible
  | @chain db' hidle =>
    have hkept := h.idle db' h.file le_rfl
    rwa [← hidle] at hkept
  | restart hload =>
    obtain ⟨c, hc, hle⟩ := h.file
    obtain rfl := Option.some.inj (hc.symm.trans hload)
    exact h.idle s.db ⟨c, hload, le_rfl⟩ hle

theorem Reachable.kept (h : Reachable me Quiet s) : s.Kept me := by
  induction h with
  | start h => exact h.kept
  | step _ hstep ih => exact ih.step hstep

/-- **Proposer slashing protection.**  In every run in which no certificate ends a claimed round before
its block is built, each block carries the height and round the file held when it was signed, in a turn
of this proposer, and no height and round is signed twice. -/
theorem signatures_are_claimed (h : Reachable me Quiet s) :
    (∀ e ∈ s.signed, ∃ c, SignedHeight.load me.genesis e.file = some c ∧
      (ofLex c).1 = e.block.height ∧ (ofLex c).2 = e.block.round ∧
      eligibleProposer e.validators e.block.height e.block.round = some me.key.address) ∧
    s.signed.Pairwise fun e e' =>
      (e.block.height, e.block.round) ≠ (e'.block.height, e'.block.round) := by
  refine ⟨fun e he => ?_, h.kept.distinct⟩
  obtain ⟨c, -, hc⟩ := h.kept.signed e he
  exact ⟨c, hc⟩

end Proposer

/-! ## A certificate between claim and header -/

/-- The finality thread writes round certificates and nothing else. -/
def Proposer.Certificates [Crypto] [Wire ActionPayload] (s : Proposer) (db' : Db) : Prop :=
  ∃ c, s.db.Certifies c ∧ db' = { s.db with certificates := c :: s.db.certificates }

namespace RoundEnds

open PlainChain Proposer

attribute [local instance] crypto wire Plain.zk trie Plain.decoders

set_option maxRecDepth 20000

def me : Identity where
  key := ⟨proposer, fun _ => List.replicate 64 0⟩
  genesis := ['g']
  word := by decide +kernel

/-- The one validator has a voting key. -/
def before : Db :=
  let fresh := db [put (.blsKey proposer) [1], put (.blsPubkeyOwner [1]) proposer]
  { fresh with state := { fresh.state with
      blsHistory := fun p => if p = (proposer, 0) then some [1] else none } }

def certificate : RoundCertificate := ⟨1, 0, [proposer], []⟩

/-- Round zero of height one has timed out. -/
def after : Db := { before with certificates := [certificate] }

def start : Proposer := ⟨before, none, toLex (0, 0), none, []⟩

theorem certifies : before.Certifies certificate :=
  ⟨genesisBlock, rfl, by decide +kernel⟩

theorem mayClaim_first : start.MayClaim me (toLex (1, 0)) :=
  ⟨1000, 2, rfl, by decide +kernel, by decide⟩

theorem turn_after : after.turn me.key.address 1000 2 = some 1 := by decide +kernel

theorem first_lt_next : (toLex (1, 0) : Height ×ₗ Round) < toLex (1, 1) := by decide

/-- Whether a block of a round and time comes out. -/
def builds (d : Db) (now round : Nat) : Bool :=
  match produceBlockReporting ⟨now, env.scan⟩ d [] (some me.key) with
  | .ok (p, _) => decide (p.block.height = 1 ∧ p.block.round = round ∧ p.block.timestamp = now)
  | .error _ => false

theorem exists_of_builds {d : Db} {now round : Nat} (h : builds d now round = true) : ∃ p db',
    produceBlockReporting ⟨now, env.scan⟩ d [] (some me.key) = .ok (p, db') ∧
      p.block.height = 1 ∧ p.block.round = round ∧ p.block.timestamp = now := by
  unfold builds at h
  cases hp : produceBlockReporting ⟨now, env.scan⟩ d [] (some me.key) with
  | error e => rw [hp] at h; cases h
  | ok r =>
    rw [hp] at h
    exact ⟨r.1, r.2, rfl, of_decide_eq_true h⟩

theorem builds_first : builds before 1000 0 = true := by decide +kernel

theorem builds_next : builds after 1000 1 = true ∧ builds after 1001 1 = true := by decide +kernel

/-- Round zero is claimed and its certificate is written: the header says round one, which is not on
file.  Its commit fails, round one is claimed, and another block of it is signed. -/
theorem round_signed_twice : ∃ s, Reachable me Certificates s ∧ ∃ e₁ e₂, s.signed = [e₁, e₂] ∧
    SignedHeight.load me.genesis e₁.file = some (toLex (1, 0)) ∧
    e₁.block.height = 1 ∧ e₁.block.round = 1 ∧ e₂.block.height = 1 ∧ e₂.block.round = 1 ∧
    e₁.block.timestamp ≠ e₂.block.timestamp := by
  obtain ⟨p₁, db₁, hp₁, hh₁, hr₁, ht₁⟩ := exists_of_builds builds_next.1
  obtain ⟨p₂, db₂, hp₂, hh₂, hr₂, ht₂⟩ := exists_of_builds builds_next.2
  have hstart : Reachable me Certificates start := .start ⟨rfl, rfl, rfl⟩
  have hclaimed := hstart.step (.claim rfl mayClaim_first)
  have hended := hclaimed.step (.finality (show after.state = before.state from rfl)
    ⟨certificate, certifies, rfl⟩)
  have hsigned := hended.step (.sign false rfl hp₁)
  have hagain := hsigned.step (.claim (c := toLex (1, 1)) rfl
    ⟨1000, 2, rfl, turn_after, first_lt_next⟩)
  refine ⟨_, hagain.step (.sign true rfl hp₂), _, _, rfl, ?_, hh₁, hr₁, hh₂, hr₂, ?_⟩
  · exact SignedHeight.load_render me.word _
  · change p₁.block.timestamp ≠ p₂.block.timestamp
    rw [ht₁, ht₂]
    decide

/-- Without the certificate the round stays the claimed one. -/
theorem signatures_are_claimed_first : ∃ s, Reachable me Quiet s ∧ ∃ e, s.signed = [e] ∧
    e.block.height = 1 ∧ e.block.round = 0 ∧
    (∀ e ∈ s.signed, ∃ c, SignedHeight.load me.genesis e.file = some c ∧
      (ofLex c).1 = e.block.height ∧ (ofLex c).2 = e.block.round ∧
      eligibleProposer e.validators e.block.height e.block.round = some me.key.address) ∧
    s.signed.Pairwise fun e e' =>
      (e.block.height, e.block.round) ≠ (e'.block.height, e'.block.round) := by
  obtain ⟨p, db', hp, hh, hr, -⟩ := exists_of_builds builds_first
  have hstart : Reachable me Quiet start := .start ⟨rfl, rfl, rfl⟩
  have hclaimed := hstart.step (.claim rfl mayClaim_first)
  have hsigned := hclaimed.step (.sign true rfl hp)
  exact ⟨_, hsigned, _, rfl, hh, hr, signatures_are_claimed hsigned⟩

end RoundEnds

end Arxium
