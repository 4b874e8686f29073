import Arxium.Evidence.Disputes
import Arxium.Node.Committed

/-!
# Evidence/OneOutcome — at most one outcome per fault

Every fault that is acted on leaves a marker of its height and culprit, and a marked fault is refused.
The check reads the rows the block started from: the markers of a block's own earlier actions are not
shown to its later ones.  Where no block acts twice on one height and culprit, no chain does
(`Chain.markers_apart`), and the row of an open dispute is the one its first submission wrote until
governance resolves it.
-/

namespace Arxium

open ReadProg Writes Crypto

/-! ## The header of a dispute names its proposer -/

section Header

variable [Crypto] [Wire ActionPayload]

/-- The hash is of a signed header of this height and proposer. -/
def HeaderOf (header : Bytes) (height : Nat) (proposer : Address) : Prop :=
  ∃ genesis canonical bytes, signingBytesFor genesis canonical = .ok bytes ∧ sha256 bytes = header ∧
    canonical.height = height ∧ canonical.proposer = proposer.text

theorem signingBytesFor_eq_ok {genesis bytes : Bytes} {canonical : CanonicalHeader}
    (h : signingBytesFor genesis canonical = .ok bytes) :
    ∃ txRoot, bytes = Wire.blockSigning ActionPayload
      { genesisHash := genesis, height := canonical.height, parentHash := canonical.parentHash,
        timestamp := canonical.timestamp, txRoot := txRoot, proposer := ⟨canonical.proposer⟩,
        parentStateRoot := canonical.parentStateRoot, stateRoot := canonical.stateRoot,
        round := canonical.round, buildId := canonical.buildId } := by
  obtain ⟨txRoot, -, h⟩ := bind_eq_ok.mp h
  obtain ⟨-, h⟩ := guard_eq_ok.mp h
  exact ⟨txRoot, (Except.ok.inj h).symm⟩

/-- **One header is of one height and one proposer.** -/
theorem HeaderOf.inj (hcrypto : Crypto.Laws) (hwire : Wire.Laws ActionPayload) {header : Bytes}
    {h h' : Nat} {p p' : Address} (hp : HeaderOf header h p) (hp' : HeaderOf header h' p') :
    h = h' ∧ p = p' := by
  obtain ⟨genesis, canonical, bytes, hbytes, hhash, rfl, hproposer⟩ := hp
  obtain ⟨genesis', canonical', bytes', hbytes', hhash', rfl, hproposer'⟩ := hp'
  obtain rfl := hcrypto.sha256_injective (hhash.trans hhash'.symm)
  obtain ⟨txRoot, hsigned⟩ := signingBytesFor_eq_ok hbytes
  obtain ⟨txRoot', hsigned'⟩ := signingBytesFor_eq_ok hbytes'
  have heq := hwire.blockSigning_injective (hsigned.symm.trans hsigned')
  simp only [BlockSigningPayload.mk.injEq, Address.mk.injEq] at heq
  refine ⟨heq.2.1, Address.ext ?_⟩
  rw [← hproposer, ← hproposer', heq.2.2.2.2.2.1]

end Header

/-! ## What adjudication has checked before it names anyone -/

namespace Adjudicate

/-- A step that stops the replay names no one. -/
def Silent {α : Type} (x : Replay α) : Prop := ∀ k, x ≠ blame k

theorem silent_ok {α : Type} (a : α) : Silent (.ok a : Replay α) := fun _ h => by cases h

theorem silent_disagree {α : Type} (reason : String) : Silent (disagree reason : Replay α) :=
  fun _ h => by cases h

theorem silent_invalid {α : Type} (e : AdjudicateError) : Silent (invalid e : Replay α) :=
  fun _ h => by cases h

theorem Silent.bind {α β : Type} {x : Replay α} {f : α → Replay β} (hx : Silent x)
    (hf : ∀ a, x = .ok a → Silent (f a)) : Silent (x >>= f) := by
  intro k h
  rcases bind_eq_error.mp h with h | ⟨a, ha, h⟩
  · exact hx k h
  · exact hf a ha k h

/-- The replay ends by naming this key, before or at its end. -/
def Names (k : String) (x : Replay AdjudicationOutcome) : Prop := x = .ok (.culpable k) ∨ x = blame k

section Names

variable {α β : Type} {k : String} {x : Replay α}

theorem Names.of_bind {f : α → Replay AdjudicationOutcome} (hx : Silent x) (h : Names k (x >>= f)) :
    ∃ a, x = .ok a ∧ Names k (f a) := by
  rcases h with h | h
  · obtain ⟨a, ha, h⟩ := bind_eq_ok.mp h
    exact ⟨a, ha, .inl h⟩
  · rcases bind_eq_error.mp h with h | ⟨a, ha, h⟩
    · exact absurd h (hx k)
    · exact ⟨a, ha, .inr h⟩

theorem Names.of_guard {c : Prop} [Decidable c] {reason : String}
    {f : β → Replay AdjudicationOutcome} {y : Replay AdjudicationOutcome}
    (h : Names k (if c then disagree reason >>= f else y)) : ¬ c ∧ Names k y := by
  by_cases hc : c
  · rw [if_pos hc] at h
    rcases h with h | h <;> cases h
  · rw [if_neg hc] at h
    exact ⟨hc, h⟩

end Names

variable [Crypto]

theorem silent_decodeRoot (root : String) : Silent (decodeRoot root) := by
  unfold decodeRoot
  split
  · exact silent_invalid _
  · split
    · exact silent_ok _
    · exact silent_invalid _

theorem silent_headerProposer (pubkey : String) (header : CanonicalHeader) :
    Silent (headerProposer pubkey header) := by
  unfold headerProposer
  split
  · split
    · exact silent_ok _
    · exact silent_disagree _
  · exact silent_disagree _

variable [Decode]

omit [Crypto] in
theorem silent_decodeActions (texts : List String) : Silent (decodeActions texts) := by
  induction texts with
  | nil => exact silent_ok _
  | cons text rest ih =>
    rw [decodeActions]
    split
    · split
      · exact ih.bind fun _ _ => silent_ok _
      · exact silent_invalid _
    · exact silent_invalid _

variable [Wire ActionPayload] [Zk] [StateTrie] {artifact : EvidenceArtifact}
  {proposerPubkey voterPubkey : String} {height : Nat} {attestation : BlockAttestation}
  {actions : List String} {claim : BlockDissentClaim}

theorem names_of_adjudicate {k : String} (h : adjudicateBlockDivergence artifact = .ok (.culpable k)) :
    Names k (replayBlockDivergence artifact) := by
  unfold adjudicateBlockDivergence at h
  cases hr : replayBlockDivergence artifact with
  | ok outcome =>
    rw [hr] at h
    exact .inl (congrArg Except.ok (Except.ok.inj h))
  | error stopped =>
    rw [hr] at h
    exact .inr (congrArg Except.error h)

/-- **Whoever is named, the header's proposer is the address of the key that signed it.** -/
theorem headerProposer_of_culpable {k : String}
    (hfault : artifact.fault =
      .blockDivergence proposerPubkey voterPubkey height attestation actions claim)
    (h : adjudicateBlockDivergence artifact = .ok (.culpable k)) :
    ∃ p, headerProposer proposerPubkey attestation.header = .ok p := by
  have hnames := names_of_adjudicate h
  obtain ⟨verdict, hverify⟩ := verifyArtifact_of_adjudicate h
  rw [replayBlockDivergence, hverify, hfault] at hnames
  obtain ⟨-, hnames⟩ := Names.of_guard hnames
  obtain ⟨decoded, -, hnames⟩ := Names.of_bind (silent_decodeActions _) hnames
  obtain ⟨root, -, hnames⟩ := Names.of_bind (silent_decodeRoot _) hnames
  obtain ⟨-, hnames⟩ := Names.of_guard hnames
  obtain ⟨p, hp, -⟩ := Names.of_bind (silent_headerProposer _ _) hnames
  exact ⟨p, hp⟩

end Adjudicate

/-! ## What a marker says -/

section Marker

variable [Crypto] [Wire ActionPayload] [Zk] [StateTrie] [Decode]

open Arxium.Runtime

/-- A fault submission left this marker: its fault was not marked before, and a disputed header is the
culprit's own. -/
structure MarksFault (rows : Rows) (sender : Address) (m : EvidenceMarker) : Prop where
  fresh : rows (.evidenceMarker m.height m.proposer) = none
  header : ∀ header, m.disputed = some header → HeaderOf header m.height m.proposer
  challenger : m.disputed.isSome = true → m.challenger = some sender ∧ m.cause.isSome = true

variable {rows : Rows} {ctx : DispatchCtx} {action : ChainAction} {u : BlockUpdates}
  {m : EvidenceMarker}

omit [Crypto] [Wire ActionPayload] [Zk] [StateTrie] [Decode] in
theorem run_requireUnprocessed {height : Nat} {culprit : Address} {what : String} {x : Unit}
    (h : (requireUnprocessed height culprit what).run rows.view = .ok x) :
    rows (.evidenceMarker height culprit) = none := by
  replace h := run_next h rfl
  exact Option.isNone_iff_eq_none.mp (ensure_ok.mp h)

omit [Zk] [StateTrie] [Decode] in
theorem marksFault_equivocation {blockA blockB : ChainBlock} {height : Nat} {challenger : Address}
    (h : (submitEquivocationEvidence blockA blockB height challenger).run rows.view = .ok u)
    (hm : u.evidence = some m) : MarksFault rows challenger m := by
  obtain ⟨_, _, _, h⟩ := run_rest₃ h
  obtain ⟨equivocator, h⟩ := run_rest h
  obtain ⟨_, hfresh, h⟩ := bind_ok.mp h
  obtain ⟨updates, h⟩ := run_rest h
  obtain rfl := Except.ok.inj h
  obtain rfl := Option.some.inj hm
  exact ⟨run_requireUnprocessed hfresh, fun _ hd => (by cases hd),
    fun hd => (by cases hd)⟩

/-- A disputed header is the one the named proposer signed. -/
theorem headerOf_disputedHeader {artifact : EvidenceArtifact} {finding : FaultFinding}
    {culpable : Bytes} {culprit : Address} {genesisText pubkey : String} {d : Bytes × DisputeCause}
    (hfinding : (findFault Adjudicate.adjudicateBlockDivergence artifact).run rows.view = .ok finding)
    (hpubkey : (culpablePubkey finding.outcome).run rows.view = .ok pubkey)
    (hculprit : (findCulprit finding culpable).run rows.view = .ok culprit)
    (hd : (disputedHeader artifact finding culpable genesisText).run rows.view = .ok (some d)) :
    HeaderOf d.1 finding.height culprit := by
  unfold disputedHeader at hd
  split at hd
  · rename_i proposerPubkey voterPubkey height attestation actions claim hfault
    split at hd
    · rename_i hnamed
      obtain ⟨genesis, hd⟩ := run_rest hd
      obtain ⟨bytes, hbytes, hd⟩ := bind_ok.mp hd
      obtain ⟨_, hd⟩ := run_rest hd
      obtain rfl := Option.some.inj (Except.ok.inj hd)
      rw [findFault, hfault] at hfinding
      cases hadj : Adjudicate.adjudicateBlockDivergence artifact with
      | error e =>
        rw [hadj] at hfinding
        cases e <;> cases hfinding
      | ok outcome =>
        rw [hadj] at hfinding
        obtain rfl := Except.ok.inj hfinding
        cases outcome with
        | disagreement reason => cases hpubkey
        | culpable k =>
          obtain ⟨verdict, hverify⟩ := verifyArtifact_of_adjudicate hadj
          obtain ⟨_, key, _, -, hkey, -, hheight⟩ := verifyArtifact_blockDivergence hfault hverify
          obtain ⟨p, hp⟩ := Adjudicate.headerProposer_of_culpable hfault hadj
          obtain rfl : key = culpable := Option.some.inj (hkey.symm.trans hnamed.2)
          rw [findCulprit, if_pos hkey] at hculprit
          obtain rfl := Except.ok.inj hculprit
          rw [Adjudicate.headerProposer, hkey] at hp
          dsimp only at hp
          split at hp
          · rename_i htext
            exact ⟨genesis, attestation.header, bytes, run_check_eq_ok.mp hbytes, rfl, hheight,
              htext.symm⟩
          · cases hp
    · cases hd
  · cases hd

theorem marksFault_execution {json : String} {height : Nat} {challenger : Address}
    (h : (submitExecutionFault Adjudicate.adjudicateBlockDivergence json height challenger).run
      rows.view = .ok u) (hm : u.evidence = some m) : MarksFault rows challenger m := by
  obtain ⟨artifact, h⟩ := run_rest h
  obtain ⟨genesisText, h⟩ := run_rest h
  obtain ⟨_, _, h⟩ := run_rest₂ h
  obtain ⟨finding, hfinding, h⟩ := bind_ok.mp h
  obtain ⟨pubkey, hpubkey, h⟩ := bind_ok.mp h
  obtain ⟨culpable, hculpable, h⟩ := bind_ok.mp h
  obtain ⟨culprit, hculprit, h⟩ := bind_ok.mp h
  obtain ⟨_, hfresh, h⟩ := bind_ok.mp h
  obtain ⟨disputed, hdisputed, h⟩ := bind_ok.mp h
  obtain ⟨updates, h⟩ := run_rest h
  obtain rfl := Except.ok.inj h
  obtain rfl := Option.some.inj hm
  refine ⟨run_requireUnprocessed hfresh, fun header hheader => ?_, fun hsome => ?_⟩
  · obtain ⟨d, rfl, rfl⟩ := Option.map_eq_some_iff.mp hheader
    exact headerOf_disputedHeader hfinding hpubkey hculprit hdisputed
  · obtain ⟨d, rfl⟩ := Option.isSome_iff_exists.mp ((Option.isSome_map ..).symm.trans hsome)
    exact ⟨rfl, rfl⟩

/-- **Every marker an action leaves is of a fresh fault.** -/
theorem marksFault_of_dispatch (h : (dispatch ctx action).run rows.view = .ok u)
    (hm : u.evidence = some m) : MarksFault rows action.sender m := by
  obtain ⟨inner, hinner, accounts, rfl⟩ := run_dispatchWith h
  by_cases hfault : action.payload.isFaultSubmission = true
  · rcases fault_cases hfault with ⟨blockA, blockB, hp⟩ | ⟨json, hp⟩
    · rw [dispatchInner, hp] at hinner
      exact marksFault_equivocation hinner hm
    · rw [dispatchInner, hp] at hinner
      exact marksFault_execution hinner hm
  · have hnone := (yields_evidence (by simpa using hfault)).ensures _ _ hinner
    exact absurd (hnone.symm.trans hm) (by simp)

end Marker

/-! ## What a block does to the rows of faults -/

/-- The markers a block's actions left, in order. -/
def Executed.markers (ex : Executed) : List EvidenceMarker := ex.outcome.updates.filterMap (·.evidence)

/-- The row an upheld dispute opens. -/
def EvidenceMarker.opened (m : EvidenceMarker) : OpenDispute :=
  ⟨m.proposer, m.challenger.getD m.proposer, m.cause.getD .bug⟩

/-- The evidence of a block is its actions'. -/
theorem Executed.Shaped.lookup_evidence {ex : Executed} (h : ex.Shaped) (height : Nat) (k : Key) :
    lookup (byCategory height [.evidence] ex.updates) k =
      lookup (ex.markers.flatMap EvidenceMarker.writes) k := by
  have hseed : ex.seed.evidence = none := by rw [h.seed]
  have hmarkers : ∀ us : List BlockUpdates, us.flatMap (Category.writes height · .evidence) =
      (us.filterMap (·.evidence)).flatMap EvidenceMarker.writes := by
    intro us
    induction us with
    | nil => rfl
    | cons u us ih =>
      rw [List.flatMap_cons, ih, List.filterMap_cons, Category.writes]
      cases u.evidence <;> rfl
  rw [byCategory, List.flatMap_singleton, hmarkers, Executed.updates]
  simp [List.filterMap_append, hseed, h.sealed.evidence, Executed.markers]

/-- What a marker writes. -/
theorem EvidenceMarker.mem_writes {m : EvidenceMarker} {w : RowWrite} (h : w ∈ m.writes) :
    w = put (.evidenceMarker m.height m.proposer) () ∨ ∃ header, m.disputed = some header ∧
      (w = put (.disputedBlock m.height header) () ∨
        w = put (.disputeOpen m.height header) m.opened) := by
  rw [EvidenceMarker.writes] at h
  rcases List.mem_cons.mp h with rfl | h
  · exact .inl rfl
  · cases hd : m.disputed with
    | none => simp [hd] at h
    | some header =>
      rw [hd] at h
      rcases List.mem_cons.mp h with rfl | h
      · exact .inr ⟨header, rfl, .inl rfl⟩
      · obtain rfl := List.mem_singleton.mp h
        exact .inr ⟨header, rfl, .inr rfl⟩

/-- The writes of markers to a marker row set it. -/
theorem lookup_marker {ms : List EvidenceMarker} {height : Nat} {culprit : Address}
    {x : Option (Value (.evidenceMarker height culprit))}
    (h : lookup (ms.flatMap EvidenceMarker.writes) (.evidenceMarker height culprit) = some x) :
    x.isSome = true := by
  obtain ⟨m, -, hw⟩ := List.mem_flatMap.mp (mem_of_lookup h)
  rcases EvidenceMarker.mem_writes hw with he | ⟨header, -, he | he⟩
  · obtain ⟨rfl, rfl⟩ : height = m.height ∧ culprit = m.proposer := by
      injection congrArg Write.key he with h₁ h₂
      exact ⟨h₁, h₂⟩
    injection he with _ hx
    rw [hx]
    rfl
  · cases congrArg Write.key he
  · cases congrArg Write.key he

/-- The writes of markers to the row of an open dispute open it. -/
theorem lookup_disputeOpen {ms : List EvidenceMarker} {height : Nat} {header : Bytes}
    {x : Option (Value (.disputeOpen height header))}
    (h : lookup (ms.flatMap EvidenceMarker.writes) (.disputeOpen height header) = some x) :
    ∃ m ∈ ms, m.height = height ∧ m.disputed = some header ∧ x = some m.opened := by
  obtain ⟨m, hm, hw⟩ := List.mem_flatMap.mp (mem_of_lookup h)
  rcases EvidenceMarker.mem_writes hw with he | ⟨hd, hdisputed, he | he⟩
  · cases congrArg Write.key he
  · cases congrArg Write.key he
  · obtain ⟨rfl, rfl⟩ : height = m.height ∧ header = hd := by
      injection congrArg Write.key he with h₁ h₂
      exact ⟨h₁, h₂⟩
    injection he with _ hx
    exact ⟨m, hm, rfl, hdisputed, hx⟩

section Block

variable [Crypto] [Wire ActionPayload] [Zk] [StateTrie] [Decode] {env : NodeEnv} {params : ChainParams}
  {db db' : Db} {block : ChainBlock} {ex : Executed} {m : EvidenceMarker}

/-- A block executed a proposal that resolves this dispute. -/
def ResolvesDispute (b : ChainBlock × Executed) (height : Nat) (header : Bytes) : Prop :=
  ∃ db action rows u, ∃ id, ∃ proposal : Proposal, Landed db b.1 b.2 action rows u ∧
    action.payload = .executeProposal id ∧ rows (.proposal id) = some proposal ∧
    ∃ resolution corrections cause bounty, proposal.action =
      .resolveDispute height header resolution corrections cause bounty

/-- **A marker of a block is of a fault that was not marked before the block.** -/
theorem Commits.marksFault (h : Commits env params db block ex db') (hm : m ∈ ex.markers) :
    ∃ action ∈ block.actions, MarksFault db.state.rows action.sender m := by
  obtain ⟨u, hu, hm⟩ := List.mem_filterMap.mp hm
  obtain ⟨action, rows, hl⟩ := h.landed hu
  obtain ⟨validators, genesis, hrun⟩ := hl.dispatched
  have hmarks := marksFault_of_dispatch hrun hm
  refine ⟨action, hl.mem, { hmarks with fresh := ?_ }⟩
  rw [← hl.hidden_eq h.shaped rfl]
  exact hmarks.fresh

theorem Commits.marker_row (h : Commits env params db block ex db') (height : Nat)
    (culprit : Address) : db'.state.rows (.evidenceMarker height culprit) =
      (lookup (ex.markers.flatMap EvidenceMarker.writes) (.evidenceMarker height culprit)).getD
        (db.state.rows (.evidenceMarker height culprit)) := by
  rw [h.row_eq rfl, ← h.shaped.lookup_evidence block.height]
  rfl

/-- A fault once marked stays marked. -/
theorem Commits.marked_mono (h : Commits env params db block ex db') {height : Nat}
    {culprit : Address} (hmarked : db.state.rows.Marked height culprit) :
    db'.state.rows.Marked height culprit := by
  rw [Rows.Marked, h.marker_row]
  cases hl : lookup (ex.markers.flatMap EvidenceMarker.writes) (.evidenceMarker height culprit) with
  | none => exact hmarked
  | some x => exact lookup_marker hl

/-- …and the faults a block acted on are marked. -/
theorem Commits.marked (h : Commits env params db block ex db') (hm : m ∈ ex.markers) :
    db'.state.rows.Marked m.height m.proposer := by
  have hmem : (put (.evidenceMarker m.height m.proposer) () : RowWrite) ∈
      ex.markers.flatMap EvidenceMarker.writes :=
    List.mem_flatMap.mpr ⟨m, hm, List.mem_cons_self⟩
  obtain ⟨x, hx⟩ := Option.isSome_iff_exists.mp (lookup_isSome hmem)
  rw [Rows.Marked, h.marker_row]
  rw [show lookup (ex.markers.flatMap EvidenceMarker.writes) (.evidenceMarker m.height m.proposer) =
    some x from hx]
  exact lookup_marker hx

/-- **The row of an open dispute** after a block: resolved, opened by one of the block's markers, or
as before. -/
theorem Commits.disputeOpen_cases (h : Commits env params db block ex db') (height : Nat)
    (header : Bytes) :
    (db'.state.rows (.disputeOpen height header) = none ∧ ResolvesDispute (block, ex) height header) ∨
    (∃ m ∈ ex.markers, m.height = height ∧ m.disputed = some header ∧
      db'.state.rows (.disputeOpen height header) = some m.opened) ∨
    ((∀ m ∈ ex.markers, m.height = height → m.disputed ≠ some header) ∧
      db'.state.rows (.disputeOpen height header) = db.state.rows (.disputeOpen height header)) := by
  have hrow : db'.state.rows (.disputeOpen height header) =
      ((lookup (ex.updates.flatMap (·.governance)) (.disputeOpen height header)).or
        (lookup (ex.markers.flatMap EvidenceMarker.writes) (.disputeOpen height header))).getD
          (db.state.rows (.disputeOpen height header)) := by
    have hsplit : byCategory block.height [.evidence, .governance] ex.updates =
        byCategory block.height [.evidence] ex.updates ++ ex.updates.flatMap (·.governance) := by
      simp [byCategory, Category.writes]
    rw [h.row_eq rfl, show (Key.disputeOpen height header).writers = [.evidence, .governance] from rfl,
      hsplit, lookup_append, h.shaped.lookup_evidence]
  cases hgov : lookup (ex.updates.flatMap (·.governance)) (.disputeOpen height header) with
  | some x =>
    rw [hgov, Option.some_or, Option.getD_some] at hrow
    obtain ⟨u, hu, hw⟩ := List.mem_flatMap.mp (mem_of_lookup hgov)
    obtain ⟨action, rows, u', id, proposal, hl, hp, hproposal, hwrites⟩ := h.governed hu hw rfl
    rcases hwrites with hordinary | ⟨_, -, he⟩ | ⟨k, hd, resolution, corrections, cause, bounty, ha, he⟩ |
      ⟨_, -, he⟩
    · cases hordinary.2
    · cases congrArg Write.key he
    · obtain ⟨rfl, rfl⟩ : height = k ∧ header = hd := by
        injection congrArg Write.key he with h₁ h₂
        exact ⟨h₁, h₂⟩
      injection he with _ hx
      exact .inl ⟨hrow.trans hx, db, action, rows, u', id, proposal, hl, hp, hproposal, resolution,
        corrections, cause, bounty, ha⟩
    · cases congrArg Write.key he
  | none =>
    rw [hgov, Option.none_or] at hrow
    cases hev : lookup (ex.markers.flatMap EvidenceMarker.writes) (.disputeOpen height header) with
    | some x =>
      rw [hev, Option.getD_some] at hrow
      obtain ⟨m, hm, hheight, hd, rfl⟩ := lookup_disputeOpen hev
      exact .inr (.inl ⟨m, hm, hheight, hd, hrow⟩)
    | none =>
      rw [hev, Option.getD_none] at hrow
      refine .inr (.inr ⟨fun m hm hheight hd => ?_, hrow⟩)
      have hmem : (put (.disputeOpen height header) m.opened : RowWrite) ∈
          ex.markers.flatMap EvidenceMarker.writes := by
        refine List.mem_flatMap.mpr ⟨m, hm, ?_⟩
        rw [EvidenceMarker.writes, hd, hheight]
        exact List.mem_cons_of_mem _ (List.mem_cons_of_mem _ List.mem_cons_self)
      have hsome := lookup_isSome hmem
      rw [show lookup (ex.markers.flatMap EvidenceMarker.writes)
        (put (.disputeOpen height header) m.opened : RowWrite).key = none from hev] at hsome
      cases hsome

end Block

/-! ## Along a chain -/

/-- The markers of a chain, in the order of its actions. -/
def markersOf (hist : List (ChainBlock × Executed)) : List EvidenceMarker :=
  hist.flatMap fun b => b.2.markers

/-- Two markers of different faults. -/
def EvidenceMarker.Apart (m m' : EvidenceMarker) : Prop :=
  (m.height, m.proposer) ≠ (m'.height, m'.proposer)

instance : Std.Symm EvidenceMarker.Apart := ⟨fun _ _ => Ne.symm⟩

/-- No block acts twice on one height and culprit. -/
def FaultsApart (hist : List (ChainBlock × Executed)) : Prop :=
  ∀ b ∈ hist, b.2.markers.Pairwise EvidenceMarker.Apart

section Chain

variable [Crypto] [Wire ActionPayload] [Zk] [StateTrie] [Decode] {s₀ s s' : ChainState}
  {hist hist' : List (ChainBlock × Executed)} {m : EvidenceMarker}

theorem Chain.append (h : Chain s₀ hist s) (h' : Chain s hist' s') : Chain s₀ (hist ++ hist') s' := by
  induction h' with
  | nil => simpa using h
  | snoc _ hcommit ih =>
    rw [← List.append_assoc]
    exact .snoc ih hcommit

/-- **Where no block acts twice on a fault, no chain does.** -/
theorem Chain.markers_apart (h : Chain s₀ hist s) (hapart : FaultsApart hist) :
    (∀ m ∈ markersOf hist, s.rows.Marked m.height m.proposer) ∧
      (markersOf hist).Pairwise EvidenceMarker.Apart := by
  induction h with
  | nil => exact ⟨List.forall_mem_nil _, List.Pairwise.nil⟩
  | @snoc hist env params db db' block ex _ hcommit ih =>
    obtain ⟨hmarked, hpair⟩ := ih fun b hb => hapart b (List.mem_append_left _ hb)
    rw [markersOf, List.flatMap_append, List.flatMap_singleton]
    refine ⟨fun m hm => ?_, List.pairwise_append.mpr ⟨hpair, ?_, fun m hm m' hm' he => ?_⟩⟩
    · rcases List.mem_append.mp hm with hm | hm
      · exact hcommit.marked_mono (hmarked m hm)
      · exact hcommit.marked hm
    · exact hapart (block, ex) (by simp)
    · -- an old fault is marked, a new one is not
      obtain ⟨_, -, hfresh⟩ := hcommit.marksFault hm'
      have hold := hmarked m hm
      obtain ⟨hheight, hproposer⟩ := Prod.mk.inj he
      rw [Rows.Marked, hheight, hproposer, hfresh.fresh] at hold
      cases hold

/-- Every marker of a chain was left by a submission. -/
theorem Chain.marksFault (h : Chain s₀ hist s) (hm : m ∈ markersOf hist) :
    ∃ b ∈ hist, ∃ action ∈ b.1.actions, ∃ rows, m ∈ b.2.markers ∧ MarksFault rows action.sender m := by
  induction h with
  | nil => cases hm
  | @snoc hist env params db db' block ex _ hcommit ih =>
    rw [markersOf, List.flatMap_append, List.flatMap_singleton] at hm
    rcases List.mem_append.mp hm with hm | hm
    · obtain ⟨b, hb, rest⟩ := ih hm
      exact ⟨b, List.mem_append_left _ hb, rest⟩
    · obtain ⟨action, ha, hmarks⟩ := hcommit.marksFault hm
      exact ⟨(block, ex), by simp, action, ha, _, hm, hmarks⟩

omit [Zk] [StateTrie] [Decode] in
/-- Two markers of one header are one marker. -/
theorem eq_of_header (hcrypto : Crypto.Laws) (hwire : Wire.Laws ActionPayload)
    {ms : List EvidenceMarker} (hpair : ms.Pairwise EvidenceMarker.Apart)
    (hheader : ∀ m ∈ ms, ∀ header, m.disputed = some header → HeaderOf header m.height m.proposer)
    {m m' : EvidenceMarker} (hm : m ∈ ms) (hm' : m' ∈ ms) {header : Bytes}
    (hd : m.disputed = some header) (hd' : m'.disputed = some header) : m = m' := by
  by_contra hne
  obtain ⟨hheight, hproposer⟩ := (hheader m hm header hd).inj hcrypto hwire (hheader m' hm' header hd')
  exact hpair.forall hm hm' hne (by rw [hheight, hproposer])

/-- **The row of an open dispute keeps what its first submission wrote**, until a resolution. -/
theorem Chain.dispute_row (hcrypto : Crypto.Laws) (hwire : Wire.Laws ActionPayload)
    (h : Chain s₀ hist s) (hapart : FaultsApart hist) (hm : m ∈ markersOf hist) {header : Bytes}
    (hd : m.disputed = some header) :
    s.rows (.disputeOpen m.height header) = some m.opened ∨
      (s.rows (.disputeOpen m.height header) = none ∧
        ∃ b ∈ hist, ResolvesDispute b m.height header) := by
  induction h with
  | nil => cases hm
  | @snoc hist env params db db' block ex hchain hcommit ih =>
    have hall := hchain.snoc hcommit
    have hpair := (hall.markers_apart hapart).2
    have hheader : ∀ m ∈ markersOf (hist ++ [(block, ex)]), ∀ header, m.disputed = some header →
        HeaderOf header m.height m.proposer := by
      intro m hm header hd
      obtain ⟨_, _, _, _, _, _, hmarks⟩ := hall.marksFault hm
      exact hmarks.header header hd
    have hnew : ∀ m' ∈ ex.markers, m' ∈ markersOf (hist ++ [(block, ex)]) := by
      intro m' hm'
      simp [markersOf, hm']
    rcases hcommit.disputeOpen_cases m.height header with ⟨hnone, hres⟩ | ⟨m', hm', -, hd', hrow⟩ |
      ⟨hother, hsame⟩
    · exact .inr ⟨hnone, (block, ex), by simp, hres⟩
    · obtain rfl := eq_of_header hcrypto hwire hpair hheader hm (hnew m' hm') hd hd'
      exact .inl hrow
    · rw [hsame]
      have hold : m ∈ markersOf hist := by
        rw [markersOf, List.flatMap_append, List.flatMap_singleton] at hm
        rcases List.mem_append.mp hm with hm | hm
        · exact hm
        · exact absurd hd (hother m hm rfl)
      rcases ih (fun b hb => hapart b (List.mem_append_left _ hb)) hold with hrow | ⟨hnone, b, hb, hres⟩
      · exact .inl hrow
      · exact .inr ⟨hnone, b, List.mem_append_left _ hb, hres⟩

/-- **A dispute that was resolved is not opened again.** -/
theorem Chain.stays_resolved (hcrypto : Crypto.Laws) (hwire : Wire.Laws ActionPayload)
    (h : Chain s₀ hist s) (h' : Chain s hist' s') (hapart : FaultsApart (hist ++ hist'))
    (hm : m ∈ markersOf hist) {header : Bytes} (hd : m.disputed = some header)
    (hnone : s.rows (.disputeOpen m.height header) = none) :
    s'.rows (.disputeOpen m.height header) = none := by
  induction h' with
  | nil => exact hnone
  | @snoc later env params db db' block ex hlater hcommit ih =>
    have ih := ih fun b hb => hapart b (by
      rw [← List.append_assoc]
      exact List.mem_append_left _ hb)
    rcases hcommit.disputeOpen_cases m.height header with ⟨hres, -⟩ | ⟨m', hm', -, hd', -⟩ |
      ⟨-, hsame⟩
    · exact hres
    · exfalso
      have hall := h.append (hlater.snoc hcommit)
      have hpair := (hall.markers_apart hapart).2
      rw [markersOf, List.flatMap_append] at hpair
      have hlate : m' ∈ markersOf (later ++ [(block, ex)]) := by simp [markersOf, hm']
      obtain ⟨_, _, _, _, _, _, hmarks⟩ := h.marksFault hm
      obtain ⟨_, _, hmarks'⟩ := hcommit.marksFault hm'
      obtain ⟨hheight, hproposer⟩ :=
        (hmarks.header header hd).inj hcrypto hwire (hmarks'.header header hd')
      exact (List.pairwise_append.mp hpair).2.2 m hm m' hlate (by rw [hheight, hproposer])
    · rw [hsame]
      exact ih

end Chain

/-! ## Two submissions of one fault in one block -/

namespace TwoChallengers

open PlainChain TwoWrongBlocks Arxium.Runtime

attribute [local instance] crypto wire Plain.zk Plain.trie TwoWrongBlocks.decoders

set_option maxRecDepth 20000

/-- A chain whose blocks have room for two submissions. -/
def wide : Db := db [put .chainParams { params with maxBlockWeight := 2000000 }]

def submitBy (key : UInt8) : ChainAction := action key 0 (.submitExecutionFault "0x63")

def openIn (rows : Rows) (header : Bytes) : Option OpenDispute := rows (.disputeOpen 1 header)

/-- An accepted block of height 1 on the fresh chain, and its run. -/
theorem commits_of_accepted {actions : List ChainAction} {db' : Db}
    (h : onBlock env (block 1 actions) wide = .ok db') :
    ∃ ex, executeBlock wide wide.chainParams (wide.getValidatorSetAt 1).keys
        (block 1 actions) = .ok ex ∧
      Commits env wide.chainParams wide (block 1 actions) ex db' := by
  obtain ⟨db₀, ex, hacc⟩ := acceptBlock_eq_ok.mp h
  have hsuper : supersedeDeadTip wide (block 1 actions) = .ok wide :=
    supersedeDeadTip_eq_self (show wide.state.tip = some 0 from rfl) (by simp [block])
  obtain rfl := Except.ok.inj (hsuper.symm.trans hacc.superseded)
  exact ⟨ex, hacc.executed, hacc.commits.2⟩

/-- The header and the challenger of each marker. -/
def summary (ex : Executed) : List (Option Bytes × Option Address) :=
  ex.markers.map fun m => (m.disputed, m.challenger)

def header : Option Bytes := disputeHash "0x" (attestation "0x63").header

theorem accepts_two : (match onBlock env (block 1 [submitBy 8, submitBy 9]) wide with
    | .ok db' => header.any fun h =>
        decide ((openIn db'.state.rows h).map (·.challenger) = some (address 9))
    | .error _ => false) = true := by decide +kernel

theorem runs_two : (match executeBlock wide wide.chainParams (wide.getValidatorSetAt 1).keys
      (block 1 [submitBy 8, submitBy 9]) with
    | .ok ex => decide (summary ex = [(header, some (address 8)), (header, some (address 9))])
    | .error _ => false) = true := by decide +kernel

theorem runs_one : (match executeBlock wide wide.chainParams (wide.getValidatorSetAt 1).keys
      (block 1 [submitBy 8]) with
    | .ok ex => decide (summary ex = [(header, some (address 8))])
    | .error _ => false) = true := by decide +kernel

theorem accepts_one : (onBlock env (block 1 [submitBy 8]) wide).isOk = true := by decide +kernel

theorem header_isSome : header.isSome = true := by decide +kernel

end TwoChallengers

end Arxium
