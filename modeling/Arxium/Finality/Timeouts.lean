import Arxium.Finality.Rules
import Arxium.Runtime.Plain

/-!
# Finality/Timeouts — the tally of round timeouts

A round-timeout vote is signed over the hash of the block before its height, and checked against the
block this node holds there.  The tally keeps one signature a voter and forgets none when that block is
replaced; the rows on disk go with the block.  When a quorum is together, everything in the tally is
aggregated at once, so one signature over a block that is gone spoils the certificate
(`stale_vote_blocks_certificate`).

Where no vote stands in memory while the block before its height is taken back, a quorum of votes makes
the certificate, through any number of reverts, restarts and votes for other rounds.
-/

namespace Arxium

namespace Finality

open Crypto

/-! ## What happens to a node -/

/-- The block that a vote of the height is signed over. -/
def Node.parentAt (n : Node) (h : Height) : Option Hash32 := (n.db.blocks (below h)).map (·.hash)

/-- A vote of this height and round. -/
def RoundTimeoutVote.For (v : RoundTimeoutVote) (h : Height) (r : Round) : Prop :=
  v.height = h ∧ v.round = r

instance (v : RoundTimeoutVote) (h : Height) (r : Round) : Decidable (v.For h r) :=
  inferInstanceAs (Decidable (_ ∧ _))

/-- Blocks and timeout votes are left alone; certificates of rounds may come. -/
structure Elsewhere (n n' : Node) : Prop where
  blocks : n'.db.blocks = n.db.blocks
  timeouts : n'.timeouts = n.timeouts
  timeoutVotes : n'.db.timeoutVotes = n.db.timeoutVotes
  certificates : n.db.certificates ⊆ n'.db.certificates

/-- A block on top of the chain. -/
def Node.landed (k : Height) (b : HeldBlock) (n : Node) : Node :=
  { n with db := { n.db with blocks := Function.update n.db.blocks k (some b), tip := some k } }

theorem parentAt_landed (k : Height) (b : HeldBlock) (n : Node) (h : Height) :
    (n.landed k b).parentAt h = if below h = k then some b.hash else n.parentAt h := by
  change (Function.update n.db.blocks k (some b) (below h)).map _ = _
  split
  · rename_i hk
    rw [hk, Function.update_self]
    rfl
  · rename_i hk
    rw [Function.update_of_ne hk]
    rfl

inductive TimeoutEvent
  | vote (v : RoundTimeoutVote)
  | chain
  | prune (cutoff : Height)
  | restart (cutoff : Height)
  | other

def TimeoutEvent.votes : TimeoutEvent → List RoundTimeoutVote
  | vote v => [v]
  | chain | prune _ | restart _ | other => []

section Events

variable [Crypto] (net : Option Hash32 → Network)

/-- One event, with every write to the database going through.  The set and the keys of a height are
those its parent block leads to: `net` knows them by that block. -/
inductive Happens (n : Node) : TimeoutEvent → Node → Prop
  | vote (reverts : Bool) (v : RoundTimeoutVote) :
      Happens n (.vote v) (tallyRoundTimeout (net (n.parentAt v.height)) ⟨true, true, reverts⟩ v n)
  | revert (k : Height) : Happens n .chain { n with db := n.db.revertTo k }
  | land (k : Height) (b : HeldBlock) (free : n.db.blocks k = none) :
      Happens n .chain (n.landed k b)
  | prune (cutoff : Height) (p : Persist) : Happens n (.prune cutoff) (Finality.prune cutoff p n)
  | restart (cutoff : Height) : Happens n (.restart cutoff) (Finality.restart cutoff n)
  | other {n' : Node} (h : Elsewhere n n') : Happens n .other n'

/-- What happened since the start, newest first. -/
inductive TimeoutRun (n₀ : Node) : List (Node × TimeoutEvent × Node) → Node → Prop
  | start : TimeoutRun n₀ [] n₀
  | step {hist : List (Node × TimeoutEvent × Node)} {n n' : Node} {e : TimeoutEvent}
      (h : TimeoutRun n₀ hist n) (hstep : Happens net n e n') : TimeoutRun n₀ ((n, e, n') :: hist) n'

/-- The votes delivered since the block before the height last changed. -/
def delivered (h : Height) : List (Node × TimeoutEvent × Node) → List RoundTimeoutVote
  | [] => []
  | (n, e, n') :: hist =>
    if n'.parentAt h = n.parentAt h then e.votes ++ delivered h hist else []

/-- A vote that verifies against the block before its height and the voter's key. -/
def Genuine (n : Node) (v : RoundTimeoutVote) : Prop :=
  ∃ p, n.parentAt v.height = some p ∧
    authentic (net (some p)) v.height v.voter (.timeout v.height v.round p) v.signature = true

/-- **A quorum of genuine votes since the parent last changed has made the certificate.** -/
def Unpoisoned (h : Height) (r : Round) (hist : List (Node × TimeoutEvent × Node)) (n : Node) : Prop :=
  ∀ voters : List Address,
    (∀ a ∈ voters, ∃ v ∈ delivered h hist, v.For h r ∧ v.voter = a ∧ Genuine net n v) →
    quorumReached ((net (n.parentAt h)).setAt h) voters = true → n.db.hasCertificate h r = true

/-- **No vote is left behind**: none is in memory when the block before its height changes, and pruning
and restarts keep what is at this height. -/
def Undisturbed (h : Height) (r : Round) : Node × TimeoutEvent × Node → Prop
  | (n, e, n') =>
    (n'.parentAt h ≠ n.parentAt h → ∀ v ∈ n.timeouts, ¬ v.For h r) ∧
      match e with
      | .prune cutoff => cutoff ≤ h ∧ n.db.watermark < h
      | .restart cutoff => cutoff ≤ h
      | _ => True

end Events

/-- Signatures of one message that verify one by one aggregate to one that verifies. -/
def AggregatesVerify [Crypto] : Prop :=
  ∀ (m : Bytes) (pairs : List (Bytes × Bytes)), pairs ≠ [] → (∀ p ∈ pairs, blsVerify m p.1 p.2 = true) →
    ∃ agg, blsAggregate (pairs.map Prod.snd) = some agg ∧
      blsVerifyAggregate m (pairs.map Prod.fst) agg = true

/-! ## Power -/

/-- More signers have more power. -/
theorem signedPower_mono (set : ValidatorSet) {signers others : List Address} (h : signers ⊆ others) :
    signedPower set signers ≤ signedPower set others := by
  have hsub : List.Subperm signers.dedup others.dedup :=
    (List.nodup_dedup signers).subperm fun a ha =>
      List.mem_dedup.mpr (h (List.mem_dedup.mp ha))
  obtain ⟨l, hperm, hlist⟩ := hsub
  calc signedPower set signers = (l.filterMap (set[·]?)).sum := (hperm.filterMap _).sum_eq.symm
    _ ≤ signedPower set others := (hlist.filterMap _).sum_le_sum fun _ _ => Nat.zero_le _

theorem quorumReached_mono {set : ValidatorSet} {signers others : List Address} (h : signers ⊆ others)
    (hquorum : quorumReached set signers = true) : quorumReached set others = true := by
  unfold quorumReached at hquorum ⊢
  rw [decide_eq_true_eq] at hquorum ⊢
  exact hquorum.trans (signedPower_mono set h)

/-! ## Taking blocks back -/

section Rows

variable {n n' : Node} {h : Height} {r : Round}

theorem le_of_below_le {k : Height} (hk : below h ≤ k) : h.val < k.val + 2 := by
  unfold below VoteFile.floorBelow at hk
  split at hk
  · rename_i hzero
    rw [hzero]
    exact Nat.succ_pos _
  · rename_i hpos
    have hval : (h - 1).val = h.val - 1 := Fin.val_sub_one_of_ne_zero hpos
    have hle : (h - 1).val ≤ k.val := hk
    omega

theorem add_two_le_of_lt_below {k : Height} (hk : k < below h) : k.val + 2 ≤ h.val := by
  unfold below VoteFile.floorBelow at hk
  split at hk
  · exact absurd hk (Fin.not_lt_zero k)
  · rename_i hpos
    have hval : (h - 1).val = h.val - 1 := Fin.val_sub_one_of_ne_zero hpos
    have hlt : k.val < (h - 1).val := hk
    omega

/-- Nothing of the height and round changed, but that its certificate may have come. -/
structure Keeps (h : Height) (r : Round) (n n' : Node) : Prop where
  parent : n'.parentAt h = n.parentAt h
  memory : ∀ v : RoundTimeoutVote, v.For h r → (v ∈ n'.timeouts ↔ v ∈ n.timeouts)
  disk : ∀ v : RoundTimeoutVote, v.For h r → (v ∈ n'.db.timeoutVotes ↔ v ∈ n.db.timeoutVotes)
  certificate : n.db.hasCertificate h r = true → n'.db.hasCertificate h r = true

/-- The block before the height went, and with it the votes on disk. -/
structure Drops (h : Height) (r : Round) (n n' : Node) : Prop where
  parent : n'.parentAt h = none
  memory : ∀ v : RoundTimeoutVote, v.For h r → v ∈ n'.timeouts → v ∈ n.timeouts
  disk : ∀ v : RoundTimeoutVote, v.For h r → v ∉ n'.db.timeoutVotes

theorem Keeps.refl (n : Node) : Keeps h r n n := ⟨rfl, fun _ _ => .rfl, fun _ _ => .rfl, id⟩

theorem Keeps.trans {n'' : Node} (h₁ : Keeps h r n n') (h₂ : Keeps h r n' n'') : Keeps h r n n'' where
  parent := h₂.parent.trans h₁.parent
  memory v hv := (h₂.memory v hv).trans (h₁.memory v hv)
  disk v hv := (h₂.disk v hv).trans (h₁.disk v hv)
  certificate := h₂.certificate ∘ h₁.certificate

theorem Keeps.drops {n'' : Node} (h₁ : Keeps h r n n') (h₂ : Drops h r n' n'') : Drops h r n n'' where
  parent := h₂.parent
  memory v hv hmem := (h₁.memory v hv).mp (h₂.memory v hv hmem)
  disk := h₂.disk

theorem hasCertificate_iff {db : NodeDb} : db.hasCertificate h r = true ↔
    ∃ c ∈ db.certificates, c.height = h ∧ c.round = r := by
  simp [NodeDb.hasCertificate]

theorem Elsewhere.keeps (he : Elsewhere n n') : Keeps h r n n' where
  parent := by rw [Node.parentAt, Node.parentAt, he.blocks]
  memory v _ := by rw [he.timeouts]
  disk v _ := by rw [he.timeoutVotes]
  certificate hcert := by
    obtain ⟨c, hc, hfor⟩ := hasCertificate_iff.mp hcert
    exact hasCertificate_iff.mpr ⟨c, he.certificates hc, hfor⟩

/-- A revert that leaves the block before the height leaves the height's rows. -/
theorem keeps_revertTo {k : Height} (hk : below h ≤ k) : Keeps h r n { n with db := n.db.revertTo k } := by
  have hlt := le_of_below_le hk
  unfold NodeDb.revertTo
  split
  · exact .refl n
  refine ⟨?_, fun _ _ => .rfl, fun v hv => ?_, fun hcert => ?_⟩
  · rw [Node.parentAt, Node.parentAt]
    dsimp only
    rw [if_pos hk]
  · rw [List.mem_filter, decide_eq_true_eq, hv.1, and_iff_left hlt]
  · obtain ⟨c, hc, hheight, hround⟩ := hasCertificate_iff.mp hcert
    refine hasCertificate_iff.mpr ⟨c, List.mem_filter.mpr ⟨hc, ?_⟩, hheight, hround⟩
    rw [decide_eq_true_eq, hheight]
    exact hlt

/-- A revert below the block before the height takes that block, and any other leaves all as it is. -/
theorem keeps_or_drops_revertTo (k : Height) :
    Keeps h r n { n with db := n.db.revertTo k } ∨ Drops h r n { n with db := n.db.revertTo k } := by
  rcases le_or_gt (below h) k with hk | hk
  · exact .inl (keeps_revertTo hk)
  have hle := add_two_le_of_lt_below hk
  unfold NodeDb.revertTo
  split
  · exact .inl (.refl n)
  refine .inr ⟨?_, fun _ _ hmem => hmem, fun v hv hmem => ?_⟩
  · rw [Node.parentAt]
    dsimp only
    rw [if_neg (not_le.mpr hk), Option.map_none]
  · rw [List.mem_filter, decide_eq_true_eq, hv.1] at hmem
    omega

end Rows

/-! ## One vote -/

/-- Two votes of one entry. -/
def RoundTimeoutVote.same (v w : RoundTimeoutVote) : Bool :=
  v.height = w.height ∧ v.round = w.round ∧ v.voter = w.voter

/-- The vote in memory and on disk. -/
def Node.count (v : RoundTimeoutVote) (n : Node) : Node :=
  { n with
    timeouts := upsert RoundTimeoutVote.same v n.timeouts
    db := { n.db with timeoutVotes := upsert RoundTimeoutVote.same v n.db.timeoutVotes } }

/-- The signers a certificate of the height and round is made of. -/
def Node.timeoutSigners (h : Height) (r : Round) (n : Node) : List (Address × Bytes) :=
  (n.timeouts.filter fun w => w.height = h ∧ w.round = r).map fun w => (w.voter, w.signature)

/-- The certificate is stored, and its votes leave the tally. -/
def Node.certify (h : Height) (r : Round) (agg : Bytes) (n : Node) : Node :=
  { n with
    db := { n.db with
      certificates := ⟨h, r, (n.timeoutSigners h r).map Prod.fst, agg⟩ :: n.db.certificates }
    timeouts := n.timeouts.filter fun w => ¬ (w.height = h ∧ w.round = r) }

section Votes

variable {n : Node} {v : RoundTimeoutVote} {h : Height} {r : Round}

theorem mem_upsert_iff {α : Type} {same : α → α → Bool} {a x : α} {l : List α} :
    x ∈ upsert same a l ↔ x = a ∨ x ∈ l ∧ same a x = false := by
  simp [upsert, or_comm]

theorem RoundTimeoutVote.same_iff {w : RoundTimeoutVote} : v.same w = true ↔
    w.For v.height v.round ∧ w.voter = v.voter := by
  rw [RoundTimeoutVote.same, decide_eq_true_eq]
  exact ⟨fun ⟨hheight, hround, hvoter⟩ => ⟨⟨hheight.symm, hround.symm⟩, hvoter.symm⟩,
    fun ⟨⟨hheight, hround⟩, hvoter⟩ => ⟨hheight.symm, hround.symm, hvoter.symm⟩⟩

theorem mem_timeoutSigners {s : Address × Bytes} : s ∈ n.timeoutSigners h r ↔
    ∃ w ∈ n.timeouts, w.For h r ∧ (w.voter, w.signature) = s := by
  simp [Node.timeoutSigners, RoundTimeoutVote.For, and_assoc]

/-- A vote for another height or round leaves this one alone. -/
theorem keeps_count (hv : ¬ v.For h r) : Keeps h r n (n.count v) := by
  have hsame : ∀ (l : List RoundTimeoutVote) (w : RoundTimeoutVote), w.For h r →
      (w ∈ upsert RoundTimeoutVote.same v l ↔ w ∈ l) := by
    intro l w hw
    have hne : v.same w = false := by
      rw [← Bool.not_eq_true, RoundTimeoutVote.same_iff]
      rintro ⟨⟨hheight, hround⟩, -⟩
      exact hv ⟨hheight.symm.trans hw.1, hround.symm.trans hw.2⟩
    rw [mem_upsert_iff, and_iff_left hne, or_iff_right]
    rintro rfl
    exact hv hw
  exact ⟨rfl, fun w hw => hsame _ w hw, fun w hw => hsame _ w hw, id⟩

theorem keeps_certify {k : Height} {r' : Round} (hne : ¬ (h = k ∧ r = r')) (agg : Bytes) :
    Keeps h r n (n.certify k r' agg) := by
  refine ⟨rfl, fun w hw => ?_, fun _ _ => .rfl, fun hcert => ?_⟩
  · change w ∈ n.timeouts.filter _ ↔ _
    rw [List.mem_filter, and_iff_left]
    rw [decide_eq_true_eq, hw.1, hw.2]
    exact hne
  · obtain ⟨c, hc, hfor⟩ := hasCertificate_iff.mp hcert
    exact hasCertificate_iff.mpr ⟨c, List.mem_cons_of_mem _ hc, hfor⟩

/-- A voter counted before is counted still. -/
theorem exists_mem_count {w : RoundTimeoutVote} (hw : w ∈ n.timeouts) (hfor : w.For h r)
    (hv : v.For h r) : ∃ x ∈ (n.count v).timeouts, x.For h r ∧ x.voter = w.voter := by
  by_cases hsame : v.same w = true
  · exact ⟨v, mem_upsert_iff.mpr (.inl rfl), hv, (RoundTimeoutVote.same_iff.mp hsame).2.symm⟩
  · exact ⟨w, mem_upsert_iff.mpr (.inr ⟨hw, by simpa using hsame⟩), hfor, rfl⟩

theorem keeps_prune {cutoff : Height} {p : Persist} (hcutoff : cutoff ≤ h) (hmark : n.db.watermark < h) :
    Keeps h r n (prune cutoff p n) := by
  refine ⟨rfl, fun v hv => ?_, fun v hv => ?_, id⟩
  · change v ∈ n.timeouts.filter _ ↔ _
    rw [List.mem_filter, decide_eq_true_eq, hv.1, and_iff_left hcutoff]
  · change v ∈ n.db.timeoutVotes.filter _ ↔ _
    rw [List.mem_filter, decide_eq_true_eq, hv.1, and_iff_left ⟨hcutoff, hmark⟩]

end Votes

section Tally

variable [Crypto] {net : Option Hash32 → Network} {n : Node} {v : RoundTimeoutVote} {reverts : Bool}

/-- **What a vote does.** -/
inductive Tallied (net : Option Hash32 → Network) (reverts : Bool) (v : RoundTimeoutVote) (n : Node) :
    Node → Prop
  | certifiedBefore (h : n.db.hasCertificate v.height v.round = true) : Tallied net reverts v n n
  | dropped (h : ¬ Genuine net n v) : Tallied net reverts v n n
  | short (genuine : Genuine net n v) (uncertified : n.db.hasCertificate v.height v.round = false)
      (h : quorumReached ((net (n.parentAt v.height)).setAt v.height)
        (((n.count v).timeoutSigners v.height v.round).map Prod.fst) = false) :
      Tallied net reverts v n (n.count v)
  | spoiled {p : Hash32} (genuine : Genuine net n v) (parent : n.parentAt v.height = some p)
      (h : quorumReached ((net (n.parentAt v.height)).setAt v.height)
        (((n.count v).timeoutSigners v.height v.round).map Prod.fst) = true)
      (h' : aggregateOf (net (some p)) v.height (.timeout v.height v.round p)
        ((n.count v).timeoutSigners v.height v.round) = none) : Tallied net reverts v n (n.count v)
  | certified (genuine : Genuine net n v) (agg : Bytes) :
      Tallied net reverts v n (unwindDeadTip ⟨true, true, reverts⟩ v.height v.round
        ((n.count v).certify v.height v.round agg))

theorem tallied : Tallied net reverts v n
    (tallyRoundTimeout (net (n.parentAt v.height)) ⟨true, true, reverts⟩ v n) := by
  unfold tallyRoundTimeout
  split
  · rename_i hcert
    exact .certifiedBefore hcert
  rename_i hcert
  cases hparent : n.db.blocks (below v.height) with
  | none =>
    refine .dropped fun ⟨p, hp, _⟩ => ?_
    rw [Node.parentAt, hparent] at hp
    cases hp
  | some parent =>
    have hp : n.parentAt v.height = some parent.hash := by rw [Node.parentAt, hparent]; rfl
    rw [hp]
    dsimp only
    cases hauthentic : authentic (net (some parent.hash)) v.height v.voter
        (.timeout v.height v.round parent.hash) v.signature with
    | false =>
      refine .dropped fun ⟨p, hp', hgenuine⟩ => ?_
      obtain rfl := Option.some.inj (hp.symm.trans hp')
      rw [hauthentic] at hgenuine
      cases hgenuine
    | true =>
      have hgenuine : Genuine net n v := ⟨_, hp, hauthentic⟩
      rw [if_neg (by decide), if_neg (by decide)]
      split
      · rename_i hquorum
        refine .short hgenuine (by simpa using hcert) ?_
        rw [hp]
        exact (Bool.not_eq_true' _).mp hquorum
      rename_i hquorum
      split
      · rename_i hnone
        refine .spoiled hgenuine hp ?_ hnone
        rw [hp]
        exact (Bool.not_eq_false _).mp fun hshort => hquorum ((Bool.not_eq_true' _).mpr hshort)
      · rename_i agg hagg
        rw [if_neg (by decide)]
        exact .certified hgenuine agg

/-- Genuine signatures of one message aggregate. -/
theorem aggregateOf_isSome (hbls : AggregatesVerify) {N : Network} {h : Height} {m : Message}
    {signers : List (Address × Bytes)} (hne : signers ≠ [])
    (hsigners : ∀ s ∈ signers, authentic N h s.1 m s.2 = true) :
    (aggregateOf N h m signers).isSome = true := by
  have hkey : ∀ s ∈ signers, ∃ key, N.blsKeyAt s.1 h = some key ∧
      blsVerify (m.bytes N.genesis) key s.2 = true := by
    intro s hs
    have hs := hsigners s hs
    rw [authentic, Bool.and_eq_true] at hs
    exact (Option.any_eq_true _ _).mp hs.1
  let pair (s : Address × Bytes) : Bytes × Bytes := ((N.blsKeyAt s.1 h).getD [], s.2)
  have hkeys : ∀ l ⊆ signers, (l.map pair).map Prod.fst = l.filterMap fun s => N.blsKeyAt s.1 h := by
    intro l
    induction l with
    | nil => exact fun _ => rfl
    | cons s l ih =>
      intro hl
      obtain ⟨key, hk, -⟩ := hkey s (hl List.mem_cons_self)
      rw [List.filterMap_cons, hk, ← ih fun _ hx => hl (List.mem_cons_of_mem s hx)]
      simp [pair, hk]
  obtain ⟨agg, hagg, hverify⟩ := hbls (m.bytes N.genesis) (signers.map pair) (by simpa using hne) (by
    intro p hp
    obtain ⟨s, hs, rfl⟩ := List.mem_map.mp hp
    obtain ⟨key, hk, hverify⟩ := hkey s hs
    simpa [pair, hk] using hverify)
  rw [hkeys signers fun _ hs => hs] at hverify
  have hsigs : (signers.map pair).map Prod.snd = signers.map Prod.snd := by
    rw [List.map_map]
    rfl
  rw [hsigs] at hagg
  rw [aggregateOf, hagg]
  exact Option.isSome_iff_exists.mpr ⟨agg, by simp [Option.filter, hverify]⟩

/-! ## The tally is sound -/

/-- What is tallied is on disk, what is on disk is genuine, and without a certificate nothing is missing
and there is no quorum yet. -/
structure Sound (net : Option Hash32 → Network) (h : Height) (r : Round) (votes : List RoundTimeoutVote)
    (n : Node) : Prop where
  stored : ∀ v ∈ n.timeouts, v.For h r → v ∈ n.db.timeoutVotes
  genuine : ∀ v ∈ n.db.timeoutVotes, v.For h r → Genuine net n v
  loaded : n.db.hasCertificate h r = false → ∀ v ∈ n.db.timeoutVotes, v.For h r → v ∈ n.timeouts
  counted : n.db.hasCertificate h r = false → ∀ v ∈ votes, v.For h r → Genuine net n v →
    ∃ w ∈ n.timeouts, w.For h r ∧ w.voter = v.voter
  short : n.db.hasCertificate h r = false → ∀ voters : List Address,
    (∀ a ∈ voters, ∃ w ∈ n.timeouts, w.For h r ∧ w.voter = a) →
      quorumReached ((net (n.parentAt h)).setAt h) voters = false

variable {h : Height} {r : Round} {votes : List RoundTimeoutVote} {n' : Node}

theorem Genuine.congr (hg : Genuine net n v) (hparent : n'.parentAt v.height = n.parentAt v.height) :
    Genuine net n' v := by
  obtain ⟨p, hp, hauthentic⟩ := hg
  exact ⟨p, hparent.trans hp, hauthentic⟩

theorem Sound.unpoisoned (hs : Sound net h r votes n) {voters : List Address}
    (hvoters : ∀ a ∈ voters, ∃ v ∈ votes, v.For h r ∧ v.voter = a ∧ Genuine net n v)
    (hquorum : quorumReached ((net (n.parentAt h)).setAt h) voters = true) :
    n.db.hasCertificate h r = true := by
  by_contra hcert
  rw [Bool.not_eq_true] at hcert
  have hshort := hs.short hcert voters fun a ha => by
    obtain ⟨v, hv, hfor, rfl, hgenuine⟩ := hvoters a ha
    exact hs.counted hcert v hv hfor hgenuine
  rw [hquorum] at hshort
  cases hshort

theorem Sound.keeps (hs : Sound net h r votes n) (hk : Keeps h r n n') : Sound net h r votes n' := by
  have hcert : n'.db.hasCertificate h r = false → n.db.hasCertificate h r = false := by
    intro hnot
    rw [← Bool.not_eq_true] at hnot ⊢
    exact mt hk.certificate hnot
  have hback : ∀ v, v.For h r → Genuine net n' v → Genuine net n v := fun v hv hg =>
    hg.congr (by rw [hv.1, hk.parent])
  refine ⟨fun v hmem hv => ?_, fun v hmem hv => ?_, fun hnot v hmem hv => ?_, fun hnot v hmem hv hg => ?_,
    fun hnot voters hvoters => ?_⟩
  · exact (hk.disk v hv).mpr (hs.stored v ((hk.memory v hv).mp hmem) hv)
  · exact (hs.genuine v ((hk.disk v hv).mp hmem) hv).congr (by rw [hv.1, hk.parent])
  · exact (hk.memory v hv).mpr (hs.loaded (hcert hnot) v ((hk.disk v hv).mp hmem) hv)
  · obtain ⟨w, hw, hfor, hvoter⟩ := hs.counted (hcert hnot) v hmem hv (hback v hv hg)
    exact ⟨w, (hk.memory w hfor).mpr hw, hfor, hvoter⟩
  · rw [hk.parent]
    refine hs.short (hcert hnot) voters fun a ha => ?_
    obtain ⟨w, hw, hfor, hvoter⟩ := hvoters a ha
    exact ⟨w, (hk.memory w hfor).mp hw, hfor, hvoter⟩

/-- Without votes in memory and on disk there is nothing to go wrong. -/
theorem Sound.of_empty (hmemory : ∀ v ∈ n.timeouts, ¬ v.For h r)
    (hdisk : ∀ v ∈ n.db.timeoutVotes, ¬ v.For h r)
    (hvotes : ∀ v ∈ votes, v.For h r → ¬ Genuine net n v) : Sound net h r votes n := by
  refine ⟨fun v hmem hv => absurd hv (hmemory v hmem), fun v hmem hv => absurd hv (hdisk v hmem),
    fun _ v hmem hv => absurd hv (hdisk v hmem), fun _ v hmem hv hg => absurd hg (hvotes v hmem hv),
    fun _ voters hvoters => ?_⟩
  cases voters with
  | nil => rfl
  | cons a voters =>
    obtain ⟨w, hw, hfor, -⟩ := hvoters a List.mem_cons_self
    exact absurd hfor (hmemory w hw)

/-- Where no block is before the height, no vote is there. -/
theorem Sound.empty_of_none (hs : Sound net h r votes n) (hparent : n.parentAt h = none) :
    (∀ v ∈ n.timeouts, ¬ v.For h r) ∧ ∀ v ∈ n.db.timeoutVotes, ¬ v.For h r := by
  have hdisk : ∀ v ∈ n.db.timeoutVotes, ¬ v.For h r := by
    intro v hmem hv
    obtain ⟨p, hp, -⟩ := hs.genuine v hmem hv
    rw [hv.1, hparent] at hp
    cases hp
  exact ⟨fun v hmem hv => hdisk v (hs.stored v hmem hv) hv, hdisk⟩

/-- The block before the height goes while no vote stands in memory. -/
theorem Sound.drops (hs : Sound net h r votes n) (hd : Drops h r n n')
    (hquiet : n'.parentAt h ≠ n.parentAt h → ∀ v ∈ n.timeouts, ¬ v.For h r)
    {votes' : List RoundTimeoutVote} : Sound net h r votes' n' := by
  have hmemory : ∀ v ∈ n.timeouts, ¬ v.For h r := by
    by_cases hparent : n.parentAt h = none
    · exact (hs.empty_of_none hparent).1
    · exact hquiet (by rw [hd.parent]; exact Ne.symm hparent)
  refine .of_empty (fun v hmem hv => hmemory v (hd.memory v hv hmem) hv)
    (fun v hmem hv => hd.disk v hv hmem) fun v _ hv => ?_
  rintro ⟨p, hp, -⟩
  rw [hv.1, hd.parent] at hp
  cases hp

/-! ## What each event keeps -/

/-- **A vote for another height or round** counts for nothing here, and takes the block before the height
at most. -/
theorem Tallied.keeps_or_drops (ht : Tallied net reverts v n n') (hv : ¬ v.For h r) :
    Keeps h r n n' ∨ Drops h r n n' := by
  cases ht with
  | certifiedBefore | dropped => exact .inl (.refl n)
  | short | spoiled => exact .inl (keeps_count hv)
  | certified _ agg =>
    have hne : ¬ (h = v.height ∧ r = v.round) := fun ⟨hheight, hround⟩ =>
      hv ⟨hheight.symm, hround.symm⟩
    have hcertify := (keeps_count (n := n) hv).trans (keeps_certify hne agg)
    rcases unwindDeadTip_eq ⟨true, true, reverts⟩ v.height v.round
        ((n.count v).certify v.height v.round agg) with heq | heq
    · rw [heq]
      exact .inl hcertify
    · rw [heq]
      exact (keeps_or_drops_revertTo _).imp hcertify.trans hcertify.drops

theorem Sound.cons (hs : Sound net h r votes n) (hv : n.db.hasCertificate h r = false → v.For h r →
    Genuine net n v → ∃ w ∈ n.timeouts, w.For h r ∧ w.voter = v.voter) : Sound net h r (v :: votes) n :=
  { hs with
    counted := fun hcert w hw hfor hg => by
      rcases List.mem_cons.mp hw with rfl | hw
      · exact hv hcert hfor hg
      · exact hs.counted hcert w hw hfor hg }

theorem Sound.genuine_count (hs : Sound net h r votes n) (hg : Genuine net n v) :
    ∀ w ∈ (n.count v).db.timeoutVotes, w.For h r → Genuine net n w := by
  intro w hw hfor
  rcases mem_upsert_iff.mp hw with rfl | ⟨hw, -⟩
  · exact hg
  · exact hs.genuine w hw hfor

theorem Sound.stored_count (hs : Sound net h r votes n) :
    ∀ w ∈ (n.count v).timeouts, w.For h r → w ∈ (n.count v).db.timeoutVotes := by
  intro w hw hfor
  rcases mem_upsert_iff.mp hw with rfl | ⟨hw, hne⟩
  · exact mem_upsert_iff.mpr (.inl rfl)
  · exact mem_upsert_iff.mpr (.inr ⟨hs.stored w hw hfor, hne⟩)

/-- One more vote, and no quorum yet. -/
theorem Sound.count (hs : Sound net h r votes n) (hv : v.For h r) (hg : Genuine net n v)
    (hcert : n.db.hasCertificate h r = false)
    (hshort : quorumReached ((net (n.parentAt h)).setAt h) (((n.count v).timeoutSigners h r).map Prod.fst) =
      false) : Sound net h r (v :: votes) (n.count v) := by
  refine ⟨hs.stored_count, hs.genuine_count hg, fun _ w hw hfor => ?_, fun _ w hw hfor hgw => ?_,
    fun _ voters hvoters => ?_⟩
  · rcases mem_upsert_iff.mp hw with rfl | ⟨hw, hne⟩
    · exact mem_upsert_iff.mpr (.inl rfl)
    · exact mem_upsert_iff.mpr (.inr ⟨hs.loaded hcert w hw hfor, hne⟩)
  · rcases List.mem_cons.mp hw with rfl | hw
    · exact ⟨w, mem_upsert_iff.mpr (.inl rfl), hfor, rfl⟩
    · obtain ⟨x, hx, hxfor, hvoter⟩ := hs.counted hcert w hw hfor hgw
      rw [← hvoter]
      exact exists_mem_count hx hxfor hv
  · rw [← Bool.not_eq_true]
    intro hquorum
    have hsub : voters ⊆ ((n.count v).timeoutSigners h r).map Prod.fst := by
      intro a ha
      obtain ⟨w, hw, hfor, rfl⟩ := hvoters a ha
      exact List.mem_map.mpr ⟨_, mem_timeoutSigners.mpr ⟨w, hw, hfor, rfl⟩, rfl⟩
    rw [show (n.count v).parentAt h = n.parentAt h from rfl] at hquorum
    rw [quorumReached_mono hsub hquorum] at hshort
    cases hshort

/-- **All that is tallied is genuine, so a quorum aggregates.** -/
theorem Sound.aggregates (hbls : AggregatesVerify) (hs : Sound net h r votes n) (hv : v.For h r)
    (hg : Genuine net n v) {p : Hash32} (hp : n.parentAt h = some p) :
    (aggregateOf (net (some p)) h (.timeout h r p) ((n.count v).timeoutSigners h r)).isSome = true := by
  refine aggregateOf_isSome hbls ?_ fun s hsig => ?_
  · have hmem : (v.voter, v.signature) ∈ (n.count v).timeoutSigners h r :=
      mem_timeoutSigners.mpr ⟨v, mem_upsert_iff.mpr (.inl rfl), hv, rfl⟩
    exact List.ne_nil_of_mem hmem
  · obtain ⟨w, hw, hfor, rfl⟩ := mem_timeoutSigners.mp hsig
    obtain ⟨q, hq, hauthentic⟩ := hs.genuine_count hg w (hs.stored_count w hw hfor) hfor
    rw [hfor.1] at hq hauthentic
    obtain rfl := Option.some.inj (hp.symm.trans hq)
    rw [hfor.2] at hauthentic
    exact hauthentic

/-- The certificate is there, and with it all is well. -/
theorem Sound.certify (hs : Sound net h r votes n) (hg : Genuine net n v) (agg : Bytes) :
    Sound net h r (v :: votes) ((n.count v).certify h r agg) := by
  have hcert : ((n.count v).certify h r agg).db.hasCertificate h r = true :=
    hasCertificate_iff.mpr ⟨_, List.mem_cons_self, rfl, rfl⟩
  have hno : ∀ {P : Prop}, ((n.count v).certify h r agg).db.hasCertificate h r = false → P := by
    intro P hnot
    rw [hcert] at hnot
    cases hnot
  refine ⟨fun w hw hfor => ?_, hs.genuine_count hg, fun hnot => hno hnot, fun hnot => hno hnot,
    fun hnot => hno hnot⟩
  have hnot := (List.mem_filter.mp hw).2
  rw [decide_eq_true_eq] at hnot
  exact absurd hfor hnot

/-- **A vote for this height and round.** -/
theorem Sound.vote (hbls : AggregatesVerify) (hs : Sound net h r votes n) (hv : v.For h r)
    (ht : Tallied net reverts v n n') :
    Sound net h r (v :: votes) n' ∧ n'.parentAt h = n.parentAt h := by
  obtain ⟨rfl, rfl⟩ := hv
  cases ht with
  | certifiedBefore hcert =>
    refine ⟨hs.cons fun hnot => ?_, rfl⟩
    rw [hcert] at hnot
    cases hnot
  | dropped hdropped => exact ⟨hs.cons fun _ _ hg => absurd hg hdropped, rfl⟩
  | short hg hcert hshort => exact ⟨hs.count ⟨rfl, rfl⟩ hg hcert hshort, rfl⟩
  | spoiled hg hp _ hnone =>
    have hsome := hs.aggregates hbls ⟨rfl, rfl⟩ hg hp
    rw [hnone] at hsome
    cases hsome
  | certified hg agg =>
    have hcertify := hs.certify hg agg
    rcases unwindDeadTip_eq ⟨true, true, reverts⟩ v.height v.round
        ((n.count v).certify v.height v.round agg) with heq | heq
    · rw [heq]
      exact ⟨hcertify, rfl⟩
    · rw [heq]
      have hkeeps : Keeps v.height v.round ((n.count v).certify v.height v.round agg) _ :=
        keeps_revertTo le_rfl
      exact ⟨hcertify.keeps hkeeps, hkeeps.parent⟩

/-- What is reloaded is what was there. -/
theorem Sound.restart (hs : Sound net h r votes n) {cutoff : Height} (hcutoff : cutoff ≤ h) :
    Sound net h r votes (restart cutoff n) := by
  have hmem : ∀ v : RoundTimeoutVote, v.For h r →
      (v ∈ (Finality.restart cutoff n).timeouts ↔ v ∈ n.db.timeoutVotes) := by
    intro v hv
    change v ∈ n.db.timeoutVotes.filter _ ↔ _
    rw [List.mem_filter, decide_eq_true_eq, hv.1, and_iff_left hcutoff]
  refine ⟨fun v hv hfor => (hmem v hfor).mp hv, hs.genuine, fun _ v hv hfor => (hmem v hfor).mpr hv,
    fun hcert v hv hfor hg => ?_, fun hcert voters hvoters => hs.short hcert voters fun a ha => ?_⟩
  · obtain ⟨w, hw, hwfor, hvoter⟩ := hs.counted hcert v hv hfor hg
    exact ⟨w, (hmem w hwfor).mpr (hs.stored w hw hwfor), hwfor, hvoter⟩
  · obtain ⟨w, hw, hfor, hvoter⟩ := hvoters a ha
    exact ⟨w, hs.loaded hcert w ((hmem w hfor).mp hw) hfor, hfor, hvoter⟩

/-- A block lands where none was.  Right before the height, no vote can have been waiting for it. -/
theorem Sound.land (hs : Sound net h r votes n) {k : Height} (b : HeldBlock) (hfree : n.db.blocks k = none) :
    Sound net h r (if below h = k then [] else votes) (n.landed k b) := by
  split
  · rename_i hk
    have hnone : n.parentAt h = none := by rw [Node.parentAt, hk, hfree, Option.map_none]
    obtain ⟨hmemory, hdisk⟩ := hs.empty_of_none hnone
    exact .of_empty hmemory hdisk (by simp)
  · rename_i hk
    refine hs.keeps ⟨?_, fun _ _ => .rfl, fun _ _ => .rfl, id⟩
    rw [parentAt_landed, if_neg hk]

/-! ## Whole runs -/

variable {n₀ : Node} {hist : List (Node × TimeoutEvent × Node)} {e : TimeoutEvent}

/-- **One event.** -/
theorem Sound.step (hbls : AggregatesVerify) (hs : Sound net h r (delivered h hist) n)
    (hstep : Happens net n e n') (hquiet : Undisturbed h r (n, e, n')) :
    Sound net h r (delivered h ((n, e, n') :: hist)) n' := by
  have hkeeps : Keeps h r n n' → e.votes = [] → Sound net h r (delivered h ((n, e, n') :: hist)) n' := by
    intro hk he
    rw [delivered, if_pos hk.parent, he]
    exact hs.keeps hk
  cases hstep with
  | vote reverts v =>
    have ht : Tallied net reverts v n _ := tallied
    by_cases hv : v.For h r
    · obtain ⟨hsound, hparent⟩ := hs.vote hbls hv ht
      rw [delivered, if_pos hparent]
      exact hsound
    · rcases ht.keeps_or_drops hv with hk | hd
      · rw [delivered, if_pos hk.parent]
        exact (hs.keeps hk).cons fun _ hfor => absurd hfor hv
      · exact hs.drops hd hquiet.1
  | revert k =>
    rcases keeps_or_drops_revertTo k with hk | hd
    · exact hkeeps hk rfl
    · exact hs.drops hd hquiet.1
  | land k b hfree =>
    have hland := hs.land b hfree
    by_cases hk : below h = k
    · rw [if_pos hk] at hland
      have hnone : n.parentAt h = none := by rw [Node.parentAt, hk, hfree, Option.map_none]
      rw [delivered, parentAt_landed, if_pos hk, hnone, if_neg nofun]
      exact hland
    · rw [if_neg hk] at hland
      rw [delivered, parentAt_landed, if_neg hk, if_pos rfl]
      exact hland
  | prune cutoff p => exact hkeeps (keeps_prune hquiet.2.1 hquiet.2.2) rfl
  | restart cutoff =>
    rw [delivered, if_pos (show (Finality.restart cutoff n).parentAt h = n.parentAt h from rfl)]
    exact hs.restart hquiet.2
  | other helse => exact hkeeps helse.keeps rfl

theorem TimeoutRun.sound (hbls : AggregatesVerify) (hmemory : ∀ v ∈ n₀.timeouts, ¬ v.For h r)
    (hdisk : ∀ v ∈ n₀.db.timeoutVotes, ¬ v.For h r) (hrun : TimeoutRun net n₀ hist n)
    (hquiet : ∀ s ∈ hist, Undisturbed h r s) : Sound net h r (delivered h hist) n := by
  induction hrun with
  | start => exact .of_empty hmemory hdisk nofun
  | step _ hstep ih =>
    rw [List.forall_mem_cons] at hquiet
    exact (ih hquiet.2).step hbls hstep hquiet.1

/-- **A tally that no vote is left behind in cannot be poisoned.**  From a node without votes of the
height and round, through every run in which none is in memory when the block before the height changes
and pruning and restarts keep the height, a quorum of genuine votes since the last change has made the
certificate. -/
theorem timeouts_unpoisoned (hbls : AggregatesVerify) (h : Height) (r : Round)
    (hmemory : ∀ v ∈ n₀.timeouts, ¬ v.For h r) (hdisk : ∀ v ∈ n₀.db.timeoutVotes, ¬ v.For h r)
    (hrun : TimeoutRun net n₀ hist n) (hquiet : ∀ s ∈ hist, Undisturbed h r s) :
    Unpoisoned net h r hist n := fun _ hvoters hquorum =>
  (hrun.sound hbls hmemory hdisk hquiet).unpoisoned hvoters hquorum

end Tally

/-! ## The engine's own steps are such events -/

section Engine

variable [Crypto] {net : Option Hash32 → Network} {n n' n'' : Node} {h : Height} {N : Network} {st : Storage}

/-- Some events that leave the block before the height in place. -/
def Reaches (net : Option Hash32 → Network) (h : Height) (n n' : Node) : Prop :=
  (∃ hist, TimeoutRun net n hist n') ∧ n'.parentAt h = n.parentAt h

theorem Reaches.refl (n : Node) : Reaches net h n n := ⟨⟨[], .start⟩, rfl⟩

theorem Reaches.trans (h₁ : Reaches net h n n') (h₂ : Reaches net h n' n'') : Reaches net h n n'' := by
  obtain ⟨⟨hist, hrun⟩, hparent⟩ := h₁
  obtain ⟨⟨hist', hrun'⟩, hparent'⟩ := h₂
  refine ⟨?_, hparent'.trans hparent⟩
  clear hparent'
  induction hrun' with
  | start => exact ⟨hist, hrun⟩
  | step _ hstep ih =>
    obtain ⟨all, hall⟩ := ih
    exact ⟨_, hall.step hstep⟩

theorem Elsewhere.reaches (he : Elsewhere n n') : Reaches net h n n' :=
  ⟨⟨_, .step .start (.other he)⟩, by rw [Node.parentAt, Node.parentAt, he.blocks]⟩

theorem reaches_revertTo : Reaches net h n { n with db := n.db.revertTo (below h) } :=
  ⟨⟨_, .step .start (.revert (below h))⟩, (keeps_revertTo (r := 0) le_rfl).parent⟩

theorem Reaches.elsewhere (hn : Reaches net h n n') (hblocks : n''.db.blocks = n'.db.blocks)
    (htimeouts : n''.timeouts = n'.timeouts) (hstored : n''.db.timeoutVotes = n'.db.timeoutVotes)
    (hcertificates : n'.db.certificates ⊆ n''.db.certificates) : Reaches net h n n'' :=
  hn.trans (Elsewhere.reaches ⟨hblocks, htimeouts, hstored, hcertificates⟩)

theorem Reaches.tallyVote (hn : Reaches net h n n') {v : PrecommitVote} (hv : v.height = h) :
    Reaches net h n (tallyVote N st v n') := by
  subst hv
  refine tallyVote_rule hn (fun _ hr => hr.trans reaches_revertTo) fun _ _ _ => ⟨?_, fun _ _ => ⟨?_, ?_⟩⟩
  · exact hn.elsewhere rfl rfl rfl fun _ => id
  · exact hn.elsewhere rfl rfl rfl fun _ => id
  · exact fun _ _ _ _ _ => hn.elsewhere rfl rfl rfl fun _ => id

theorem Reaches.prevote (hn : Reaches net h n n') {i : StepInputs} {r : Round} {block : Hash32}
    {pol : Option Round} : Reaches net h n (prevote N i h r block pol n').1 := by
  unfold Finality.prevote
  split
  · exact hn
  split
  · exact hn.elsewhere rfl rfl rfl fun _ => id
  · exact tallyPrevote_rule (hn.elsewhere rfl rfl rfl fun _ => id) fun _ _ _ =>
      ⟨hn.elsewhere rfl rfl rfl fun _ => id, fun _ _ _ _ _ _ _ => hn.elsewhere rfl rfl rfl fun _ => id⟩

theorem Reaches.precommit (hn : Reaches net h n n') {i : StepInputs} {r : Round} {block : HeldBlock} :
    Reaches net h n (precommit N i h r block n').1 := by
  unfold Finality.precommit
  split
  · exact hn
  split
  · exact hn.elsewhere rfl rfl rfl fun _ => id
  · refine Reaches.tallyVote ?_ rfl
    exact hn.elsewhere rfl rfl rfl fun _ => id

/-- A node's own vote counts as one delivered to it. -/
theorem Reaches.timeout (hn : Reaches net h n n') {i : StepInputs} {r : Round} {p : Hash32} {reverts : Bool}
    (hstorage : i.storage = ⟨true, true, reverts⟩) (hN : N = net (n.parentAt h)) :
    ∃ hist, TimeoutRun net n hist (timeout N i h r p n').1 := by
  obtain ⟨⟨hist, hrun⟩, hparent⟩ := hn
  unfold Finality.timeout
  split
  · exact ⟨hist, hrun⟩
  split
  · exact ⟨_, hrun.step (.other ⟨rfl, rfl, rfl, fun _ hc => hc⟩)⟩
  · rename_i file _
    have hclaimed : Elsewhere n' { n' with file := file, myTimeouts := (h, r) :: n'.myTimeouts } :=
      ⟨rfl, rfl, rfl, fun _ hc => hc⟩
    have hvote := (hrun.step (.other hclaimed)).step
      (.vote reverts ⟨h, r, n'.me, N.sign n'.me ((Message.timeout h r p).bytes N.genesis)⟩)
    rw [hstorage]
    rw [hN, ← hparent] at hvote ⊢
    exact ⟨_, hvote⟩

/-- **Whatever the engine does by itself is a run of these events.** -/
theorem reaches_tryStep {i : StepInputs} {reverts : Bool} (hstorage : i.storage = ⟨true, true, reverts⟩)
    (hN : N = net (n.parentAt (n.db.watermark + 1))) :
    ∃ hist, TimeoutRun net n hist (tryStep N i n).1 :=
  tryStep_rule (J := fun p => Reaches net (n.db.watermark + 1) n p.1)
    (K := fun p => ∃ hist, TimeoutRun net n hist p.1) rfl (.refl n)
    (fun _ _ _ _ => (Reaches.refl n).elsewhere rfl rfl rfl fun _ => List.mem_cons_of_mem _)
    (fun _ hn => hn.trans reaches_revertTo) (fun _ _ _ hn _ _ _ _ => hn.precommit)
    (fun _ _ _ _ _ hn _ => hn.prevote) (fun _ _ _ _ hn => hn.timeout hstorage hN) fun _ hn => hn.1

end Engine

/-! ## A vote over a block that is gone -/

namespace Poisoned

/-- A signature is the message and the key, and an aggregate is all of them. -/
@[reducible] def crypto : Crypto :=
  { Plain.crypto fun _ _ _ => true with
    blsVerify := fun m key sig => decide (sig = m ++ key)
    blsAggregate := fun sigs => some sigs.flatten
    blsVerifyAggregate := fun m keys agg => decide (agg = (keys.map (m ++ ·)).flatten) }

attribute [local instance] crypto

theorem aggregatesVerify : AggregatesVerify := by
  intro m pairs _ hpairs
  refine ⟨_, rfl, decide_eq_true ?_⟩
  rw [List.map_map]
  exact congrArg List.flatten (List.map_congr_left fun p hp => of_decide_eq_true (hpairs p hp))

def small : Address := ⟨"a"⟩

def large : Address := ⟨"b"⟩

def key (a : Address) : Bytes := if a = small then [1] else [2]

/-- One validator holds a quorum, the other does not. -/
def network : Network where
  genesis := []
  setAt _ := ((∅ : ValidatorSet).insert small 3333).insert large 6667
  blsKeyAt a _ := some (key a)
  sign a m := m ++ key a

def hash (b : UInt8) : Hash32 := ⟨List.replicate 32 b, rfl⟩

def held (b : UInt8) : HeldBlock := ⟨hash b, 0, none, hash 0⟩

/-- A validator's vote to leave the first round of height two, over a block at height one. -/
def vote (a : Address) (parent : UInt8) : RoundTimeoutVote :=
  ⟨2, 0, a, network.sign a ((Message.timeout 2 0 (hash parent)).bytes network.genesis)⟩

/-- The node holds a block at height one that is not final. -/
def start : Node where
  me := large
  file := {}
  db :=
    { watermark := 0
      tip := some 1
      blocks := fun k => if k = 0 then some (held 0) else if k = 1 then some (held 1) else none
      pols := []
      finality := fun _ => none
      certificates := []
      precommitVotes := []
      timeoutVotes := [] }

/-- The node after a vote. -/
def after (v : RoundTimeoutVote) (n : Node) : Node := tallyRoundTimeout network ⟨true, true, true⟩ v n

/-- The large vote alone makes the certificate. -/
theorem timeouts_unpoisoned_large : (after (vote large 1) start).db.hasCertificate 2 0 = true := by
  have hrun : TimeoutRun (fun _ => network) start _ (after (vote large 1) start) :=
    .step .start (.vote true (vote large 1))
  have hsame : (after (vote large 1) start).parentAt 2 = start.parentAt 2 := by decide +kernel
  refine timeouts_unpoisoned aggregatesVerify 2 0 (List.forall_mem_nil _) (List.forall_mem_nil _)
    hrun ?_ [large] ?_ (by decide +kernel)
  · simp only [List.forall_mem_cons, List.not_mem_nil, false_implies, implies_true, and_true]
    exact ⟨fun hne => absurd hsame hne, trivial⟩
  · simp only [List.forall_mem_cons, List.not_mem_nil, false_implies, implies_true, and_true]
    refine ⟨vote large 1, ?_, ⟨rfl, rfl⟩, rfl, hash 1, by decide +kernel, by decide +kernel⟩
    rw [delivered]
    exact (if_pos hsame) ▸ List.mem_cons_self

/-- The small vote comes first, then another block takes its parent's place. -/
def replaced : Node :=
  let n := after (vote small 1) start
  { n with db := n.db.revertTo 0 }

/-- **A vote left behind in memory blocks the certificate** that the quorum's vote would make. -/
theorem stale_vote_blocks_certificate : ∃ hist n, TimeoutRun (fun _ => network) start hist n ∧
    n.db.hasCertificate 2 0 = false ∧ ¬ Unpoisoned (fun _ => network) 2 0 hist n := by
  have hrun : TimeoutRun (fun _ => network) start _ (after (vote large 2) (replaced.landed 1 (held 2))) :=
    .step (.step (.step (.step .start (.vote true (vote small 1))) (.revert 0))
      (.land 1 (held 2) (by decide +kernel))) (.vote true (vote large 2))
  have hnone : (after (vote large 2) (replaced.landed 1 (held 2))).db.hasCertificate 2 0 = false := by
    decide +kernel
  refine ⟨_, _, hrun, hnone, fun hun => ?_⟩
  have hcert := hun [large] ?_ (by decide +kernel)
  · rw [hnone] at hcert
    cases hcert
  · simp only [List.forall_mem_cons, List.not_mem_nil, false_implies, implies_true, and_true]
    refine ⟨vote large 2, ?_, ⟨rfl, rfl⟩, rfl, hash 2, by decide +kernel, by decide +kernel⟩
    have hsame : (after (vote large 2) (replaced.landed 1 (held 2))).parentAt 2 =
        (replaced.landed 1 (held 2)).parentAt 2 := by decide +kernel
    rw [delivered]
    exact (if_pos hsame) ▸ List.mem_cons_self

end Poisoned

end Finality

end Arxium
