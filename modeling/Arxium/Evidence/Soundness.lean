import Arxium.Runtime.Footprint
import Arxium.Runtime.Plain

/-!
# Evidence/Soundness — whom equivocation evidence names

Evidence is two blocks with different hashes, and a block's hash covers its whole encoding, while
its proposer's signature covers the header only.  So one signed header makes many blocks, and the
evidence check takes two of them for two signatures.  The theorem says this is the only way: other
than by a malleated header, no one who signs one header per round is ever slashed or tombstoned by
an evidence action.
-/

namespace Arxium

open ReadProg Writes Crypto

/-! ## Inversion of the checks -/

section Inversion

variable [Crypto] {P : Type} [Wire P]

theorem Block.verifyProposerSignature_eq_ok {b : Block P} {genesis : Bytes} {p : Address}
    (hp : b.proposer = some p) (h : b.verifyProposerSignature genesis = .ok ()) :
    ∃ key sig, p.pubkeyBytes = .ok key ∧
      ed25519Verify key (b.signingBytes genesis p) sig = true := by
  unfold Block.verifyProposerSignature at h
  rw [hp] at h
  dsimp only at h
  split at h
  · split at h
    · rename_i sig _
      split at h
      · cases h
      · obtain ⟨key, hkey, h⟩ := bind_eq_ok.mp h
        refine ⟨key, sig, mapError_eq_ok.mp hkey, ?_⟩
        by_contra hsig
        simp [hsig] at h
        split at h <;> try split at h
        all_goals cases h
    · cases h
  · cases h

/-- **What a pair of blocks has to satisfy to be taken as evidence.** -/
theorem verifyEquivocation_eq_ok {genesis : Bytes} {a b : Block P} {p : Address} :
    verifyEquivocation genesis ⟨a, b⟩ = .ok p ↔
      a.height = b.height ∧ a.round = b.round ∧ a.proposer = some p ∧ b.proposer = some p ∧
      a.hash ≠ b.hash ∧ a.verifyProposerSignature genesis = .ok () ∧
      b.verifyProposerSignature genesis = .ok () := by
  unfold verifyEquivocation
  dsimp only
  by_cases hh : a.height = b.height
  swap
  · simp [hh]
  by_cases hr : a.round = b.round
  swap
  · simp [hh, hr]
  rcases a.proposer with _ | pa <;> rcases b.proposer with _ | pb
  · simp [hh, hr]
  · simp [hh, hr]
  · simp [hh, hr]
  by_cases hp : pa = pb
  swap
  · simp [hh, hr, hp]
    rintro rfl rfl
    exact absurd rfl hp
  by_cases he : a.hash = b.hash
  · simp [hh, hr, hp, he]
  · simp only [hh, hr, hp, he, ne_eq, not_true_eq_false, if_false, bind_eq_ok,
      mapError_eq_ok, pure, Except.pure, Except.ok.injEq, Option.some.injEq,
      not_false_eq_true, true_and]
    constructor
    · rintro ⟨_, ha, _, hb, rfl⟩
      exact ⟨rfl, rfl, ha, hb⟩
    · rintro ⟨rfl, -, ha, hb⟩
      exact ⟨(), ha, (), hb, rfl⟩

end Inversion

/-! ## Evidence -/

/-- One signed header in two different blocks: only what the signature does not cover differs. -/
structure Malleated [Crypto] {P : Type} [Wire P] (genesis : Bytes) (a b : Block P) (p : Address) :
    Prop where
  proposerA : a.proposer = some p
  proposerB : b.proposer = some p
  header : a.signingPayload genesis p = b.signingPayload genesis p
  differ : a ≠ b
  signedA : a.verifyProposerSignature genesis = .ok ()
  signedB : b.verifyProposerSignature genesis = .ok ()

/-- A signature that verifies was made by the key's holder. -/
def Unforgeable [Crypto] (signed : Bytes → Bytes → Prop) : Prop :=
  ∀ key message sig, ed25519Verify key message sig = true → signed key message

/-- The proposer signs at most one header per height and round of a chain. -/
def SignsOnce [Crypto] (P : Type) [Wire P] (signed : Bytes → Bytes → Prop) (p : Address) : Prop :=
  ∀ x y : BlockSigningPayload, x.proposer = p → y.proposer = p → x.genesisHash = y.genesisHash →
    x.height = y.height → x.round = y.round → ∀ key, p.pubkeyBytes = .ok key →
      signed key (Wire.blockSigning P x) → signed key (Wire.blockSigning P y) → x = y

/-- The updates change the status or the stake of `p`. -/
def BlockUpdates.Punishes (u : BlockUpdates) (p : Address) : Prop :=
  (∃ s, (p, s) ∈ u.validatorStatuses) ∨ ∃ e ∈ u.stakes.allocations, e.1.2 = p

section Evidence

variable [Crypto] {P : Type} [Wire P] {genesis : Bytes} {a b : Block P} {p : Address}

theorem Malleated.verifyEquivocation (hcol : a.hash = b.hash → a = b)
    (h : Malleated genesis a b p) : verifyEquivocation genesis ⟨a, b⟩ = .ok p := by
  have hheight : a.height = b.height := congrArg BlockSigningPayload.height h.header
  have hround : a.round = b.round := congrArg BlockSigningPayload.round h.header
  exact verifyEquivocation_eq_ok.mpr ⟨hheight, hround, h.proposerA, h.proposerB,
    fun he => h.differ (hcol he), h.signedA, h.signedB⟩

/-- Accepted evidence whose two messages are one is a malleated header. -/
theorem malleated_of_header (h : verifyEquivocation genesis ⟨a, b⟩ = .ok p)
    (hheader : a.signingPayload genesis p = b.signingPayload genesis p) :
    Malleated genesis a b p := by
  obtain ⟨-, -, hpa, hpb, hhash, hsa, hsb⟩ := verifyEquivocation_eq_ok.mp h
  exact ⟨hpa, hpb, hheader, fun he => hhash (by rw [he]), hsa, hsb⟩

/-- Whoever signs one header per round is named only by a malleated one. -/
theorem malleated_of_signsOnce {signed : Bytes → Bytes → Prop} (hforge : Unforgeable signed)
    (honce : SignsOnce P signed p) (h : verifyEquivocation genesis ⟨a, b⟩ = .ok p) :
    Malleated genesis a b p := by
  refine malleated_of_header h ?_
  obtain ⟨hheight, hround, hpa, hpb, -, hsa, hsb⟩ := verifyEquivocation_eq_ok.mp h
  obtain ⟨key, sig, hkey, hverify⟩ := Block.verifyProposerSignature_eq_ok hpa hsa
  obtain ⟨key', sig', hkey', hverify'⟩ := Block.verifyProposerSignature_eq_ok hpb hsb
  obtain rfl : key = key' := by simpa [hkey] using hkey'
  exact honce _ _ rfl rfl rfl hheight hround key hkey (hforge key _ sig hverify)
    (hforge key _ sig' hverify')

end Evidence

namespace Runtime

section Actions

variable [Crypto] [Wire ActionPayload] [Zk] [StateTrie] [Decode]

/-- An evidence action that goes through names its proposer and slashes it. -/
theorem run_submitEquivocationEvidence {adjudicator : Adjudicator} {ctx : DispatchCtx}
    {action : ChainAction} {a b : ChainBlock} {v : KvView} {u : BlockUpdates}
    (hp : action.payload = .submitEquivocationEvidence a b)
    (h : (dispatchWith adjudicator ctx action).run v = .ok u) :
    ∃ text genesis p slashed, v .genesisHash = .ok (some text) ∧ parseHash text = some genesis ∧
      verifyEquivocation genesis ⟨a, b⟩ = .ok p ∧
      (faultSlash p .doubleSign ctx.height action.sender).run v = .ok slashed ∧
      u.validatorStatuses = slashed.validatorStatuses ∧ u.stakes = slashed.stakes := by
  obtain ⟨inner, hinner, accounts, rfl⟩ := run_dispatchWith h
  unfold dispatchInner at hinner
  rw [hp] at hinner
  obtain ⟨_, _, hinner⟩ := bind_ok.mp hinner
  obtain ⟨text, htext, hinner⟩ := bind_ok.mp hinner
  obtain ⟨genesis, hgenesis, hinner⟩ := bind_ok.mp hinner
  obtain ⟨p, hverify, hinner⟩ := bind_ok.mp hinner
  obtain ⟨_, _, hinner⟩ := bind_ok.mp hinner
  obtain ⟨slashed, hslashed, hinner⟩ := bind_ok.mp hinner
  obtain rfl := Except.ok.inj hinner
  refine ⟨text, genesis, p, slashed, ?_, ?_, ?_, hslashed, rfl, rfl⟩
  · obtain ⟨row, hrow, htext⟩ := bind_ok.mp htext
    rw [run_getRow_eq_ok.mp hrow, orFail_ok.mp htext]
    rfl
  · exact orFail_ok.mp hgenesis
  · exact run_check_eq_ok.mp hverify

/-- **Evidence against a proposer that signs one header per round is a malleated header.**

Signed messages that differ are what the evidence check guarantees exactly when the pair is not one
header in two blocks; and an evidence action that goes through changes the stake or the status of
such a proposer exactly when it is such a pair and the proposer is not tombstoned yet. -/
theorem equivocation_names_honest_proposer_iff_malleated (hwire : Wire.Laws ActionPayload)
    {a b : ChainBlock} (hcol : a.hash = b.hash → a = b) :
    (∀ genesis, (∀ p, verifyEquivocation genesis ⟨a, b⟩ = .ok p →
        a.signingBytes genesis p ≠ b.signingBytes genesis p) ↔ ∀ p, ¬ Malleated genesis a b p) ∧
    ∀ (signed : Bytes → Bytes → Prop) (p : Address), Unforgeable signed →
      SignsOnce ActionPayload signed p →
      ∀ (adjudicator : Adjudicator) (ctx : DispatchCtx) (action : ChainAction) (v : KvView)
        (u : BlockUpdates), action.payload = .submitEquivocationEvidence a b →
        (dispatchWith adjudicator ctx action).run v = .ok u →
        (u.Punishes p ↔
          v (.validatorStatus p) ≠ .ok (some ValidatorStatus.tombstoned) ∧
          ∃ text genesis, v .genesisHash = .ok (some text) ∧ parseHash text = some genesis ∧
            Malleated genesis a b p) := by
  refine ⟨fun genesis => ⟨fun h p hm => ?_, fun h p hp he => ?_⟩, ?_⟩
  · exact h p (hm.verifyEquivocation hcol) (congrArg _ hm.header)
  · exact h p (malleated_of_header hp (hwire.blockSigning_injective he))
  intro signed p hforge honce adjudicator ctx action v u hpayload hrun
  obtain ⟨text, genesis, q, slashed, htext, hgenesis, hverify, hslash, hstatus, hstakes⟩ :=
    run_submitEquivocationEvidence hpayload hrun
  have hfault := ensures_faultSlash q .doubleSign ctx.height action.sender v slashed hslash
  constructor
  · intro hpunish
    rcases hfault with ⟨-, rfl⟩ | ⟨hnot, hst, hall⟩
    · simp [BlockUpdates.Punishes, hstatus, hstakes] at hpunish
    · -- whoever is punished is the one the evidence names
      obtain rfl : q = p := by
        rcases hpunish with ⟨s, hs⟩ | ⟨e, he, rfl⟩
        · rw [hstatus, hst] at hs
          exact (congrArg Prod.fst (List.mem_singleton.mp hs)).symm
        · rw [hstakes] at he
          exact (hall e he).symm
      exact ⟨hnot, text, genesis, htext, hgenesis, malleated_of_signsOnce hforge honce hverify⟩
  · rintro ⟨hnot, text', genesis', htext', hgenesis', hm⟩
    obtain rfl : text = text' := by simpa [htext] using htext'
    obtain rfl : genesis = genesis' := by simpa [hgenesis] using hgenesis'
    obtain rfl : q = p := by
      rw [hm.verifyEquivocation hcol] at hverify
      exact (Except.ok.inj hverify).symm
    rcases hfault with ⟨htomb, -⟩ | ⟨-, hst, -⟩
    · exact absurd htomb hnot
    · refine .inl ⟨some .tombstoned, ?_⟩
      rw [hstatus, hst]
      exact List.mem_singleton_self _

end Actions

/-! ## A bystander, and an honest proposer framed -/

/-- The address of a validator whose key is one byte repeated. -/
def sampleProposer (key : UInt8) : Address := ⟨Plain.bech32Encode "arx" (List.replicate 32 key)⟩

/-- A block of validator 7; the digit of the signature's text is free. -/
def sampleBlock (stateRoot : String) (digit : Char) : ChainBlock where
  height := 1
  parentHash := ""
  timestamp := 1
  actions := []
  txRoot := []
  proposer := some (sampleProposer 7)
  signature := some (String.ofList (List.replicate 128 digit))
  parentStateRoot := ""
  stateRoot := stateRoot
  round := 0
  roundCertificate := none
  buildId := ""

/-- Validator 7 has a stake, and someone can pay for a report. -/
def sampleRows : Rows := Writes.apply
  [put .genesisHash "0x",
    put (.account ⟨"reporter"⟩) ({ balance := 1000000000000 } : AccountEntry),
    put (.stakeByValidator (sampleProposer 7)) [⟨"master"⟩],
    put (.stake ⟨"master"⟩ (sampleProposer 7))
      (⟨⟨"master"⟩, sampleProposer 7, 100, none, 0, 0⟩ : StakeAllocation)] fun _ => none

def sampleReport (a b : ChainBlock) : ChainAction :=
  ⟨⟨"reporter"⟩, 0, none, .submitEquivocationEvidence a b⟩

section Bystander

/-- Validator 7 signs anything, and no one else signs. -/
@[reducible] def carelessSigner : Crypto := Plain.crypto fun key _ _ => key == List.replicate 32 7

attribute [local instance] carelessSigner Plain.wire Plain.zk Plain.trie Plain.decoders

set_option maxRecDepth 20000

/-- A real equivocation leaves the other validators alone. -/
theorem equivocation_spares_bystander :
    (∀ p, verifyEquivocation [] ⟨sampleBlock "" 'a', sampleBlock "0x" 'a'⟩ = .ok p →
      (sampleBlock "" 'a').signingBytes [] p ≠ (sampleBlock "0x" 'a').signingBytes [] p) ∧
    ∃ u, (dispatchWith Adjudicate.noAdjudicator ⟨[], 2, 0, []⟩
        (sampleReport (sampleBlock "" 'a') (sampleBlock "0x" 'a'))).run sampleRows.view = .ok u ∧
      ¬ u.Punishes (sampleProposer 8) := by
  have hdiffer : (sampleBlock "" 'a').hash ≠ (sampleBlock "0x" 'a').hash := by decide +kernel
  obtain ⟨hsound, hpunish⟩ := equivocation_names_honest_proposer_iff_malleated Plain.wire_laws
    (fun he => absurd he hdiffer)
  have hmalleated : ∀ p, ¬ Malleated [] (sampleBlock "" 'a') (sampleBlock "0x" 'a') p :=
    fun p h => absurd (congrArg BlockSigningPayload.stateRoot h.header)
      (show "" ≠ "0x" by decide)
  refine ⟨(hsound []).mpr hmalleated, ?_⟩
  have hrun : ((dispatchWith Adjudicate.noAdjudicator ⟨[], 2, 0, []⟩
      (sampleReport (sampleBlock "" 'a') (sampleBlock "0x" 'a'))).run
        sampleRows.view).isOk = true := by decide +kernel
  obtain ⟨u, hu⟩ := exists_ok_of_isOk hrun
  refine ⟨u, hu, fun h => ?_⟩
  have hforge : Unforgeable fun key _ => key = List.replicate 32 7 :=
    fun key _ _ h => eq_of_beq h
  have honce : SignsOnce ActionPayload (fun key _ => key = List.replicate 32 7)
      (sampleProposer 8) := by
    intro x y _ _ _ _ _ key hkey hsigned
    have hkey8 : (sampleProposer 8).pubkeyBytes = .ok (List.replicate 32 8) := by decide +kernel
    rw [hkey8, hsigned] at hkey
    exact absurd hkey (by decide)
  obtain ⟨-, _, _, -, -, hm⟩ := (hpunish _ _ hforge honce _ _ _ _ u rfl hu).mp h
  exact absurd hm.proposerA (by decide +kernel)

end Bystander

section Framed

/-- Only one header was ever signed. -/
@[reducible] def carefulSigner : Crypto := Plain.crypto fun _ message _ =>
  message == Plain.blockSigning ((sampleBlock "" 'a').signingPayload [] (sampleProposer 7))

attribute [local instance] carefulSigner Plain.wire Plain.zk Plain.trie Plain.decoders

/-- **The text of a signature is not signed**: in two cases of its hex digits one header is two
blocks, and whoever reports them has its proposer tombstoned. -/
theorem equivocation_frames_honest_proposer :
    ∃ signed, Unforgeable signed ∧ SignsOnce ActionPayload signed (sampleProposer 7) ∧
    verifyEquivocation [] ⟨sampleBlock "" 'a', sampleBlock "" 'A'⟩ = .ok (sampleProposer 7) ∧
    (sampleBlock "" 'a').signingBytes [] (sampleProposer 7) =
      (sampleBlock "" 'A').signingBytes [] (sampleProposer 7) ∧
    ∃ u, (dispatchWith Adjudicate.noAdjudicator ⟨[], 2, 0, []⟩
        (sampleReport (sampleBlock "" 'a') (sampleBlock "" 'A'))).run sampleRows.view = .ok u ∧
      u.validatorStatuses = [(sampleProposer 7, some .tombstoned)] := by
  refine ⟨fun _ message => message =
    Plain.blockSigning ((sampleBlock "" 'a').signingPayload [] (sampleProposer 7)),
    fun _ _ _ h => eq_of_beq h, ?_, by decide +kernel, rfl, exists_ok_of_map ?_⟩
  · intro x y _ _ _ _ _ key _ hx hy
    exact Plain.blockSigning_injective (hx.trans hy.symm)
  · decide +kernel

end Framed

end Runtime

end Arxium
