import Arxium.Primitives.Canonical
import Arxium.Executor.PlainChain

/-!
# Executor/Identity — how many blocks one signed header makes

A block's hash covers the text of its proposer's signature and its round certificate, which the
signature itself does not.  Acceptance pins neither to one value: the hex of a signature has two cases, and
a certificate lists its signers in any order and any number above the quorum.  Where nothing at the
height fixes the hash in advance, these two are all that can differ.
-/

namespace Arxium

open ReadProg Writes Crypto

section Identity

variable [Crypto] [Wire ActionPayload]

/-- **What can be made of a block without its proposer's key**: the same signed header, the signature in
any text, the block's certificate or another one within reach, and actions that are no collision. -/
structure Forged (reach : RoundCertificate → Prop) (b b' : ChainBlock) : Prop where
  proposer : b'.proposer = b.proposer
  header : ∀ genesis p, b'.signingPayload genesis p = b.signingPayload genesis p
  signature : b'.signature.bind hexDecode = b.signature.bind hexDecode
  certificate : ∀ c, b'.roundCertificate = some c → b.roundCertificate = some c ∨ reach c
  actions : txRoot b'.actions = txRoot b.actions → b'.actions = b.actions

/-- The block with another signature text and certificate. -/
def Block.reissued {P : Type} (b : Block P) (text : Option String) (cert : Option RoundCertificate) :
    Block P := { b with signature := text, roundCertificate := cert }

/-- The certificate is one for the block's round. -/
def Db.Certified (db : Db) (b : ChainBlock) (c : RoundCertificate) : Prop :=
  verifyRoundCertificate db c b.height b.round b.parentHash (db.getValidatorSetAt b.height) = .ok ()

/-- A certificate or a lock names the hash a block of this height must have. -/
def Db.PinsHash (db : Db) (height : Nat) : Prop :=
  (db.finality height).isSome = true ∨ (db.locks height).isSome = true

variable {db db₀ : Db} {b b' : ChainBlock} {reach : RoundCertificate → Prop}

theorem Forged.eq_reissued (h : Forged reach b b') (hactions : b'.actions = b.actions) :
    b' = b.reissued b'.signature b'.roundCertificate := by
  have hheader := h.header [] default
  have hproposer := h.proposer
  cases b
  cases b'
  simp_all [Block.signingPayload, Block.reissued]

theorem forged_reissued {text : Option String} {cert : Option RoundCertificate}
    (htext : text.bind hexDecode = b.signature.bind hexDecode)
    (hcert : ∀ c, cert = some c → b.roundCertificate = some c ∨ reach c) :
    Forged reach b (b.reissued text cert) :=
  ⟨rfl, fun _ _ => rfl, htext, hcert, fun _ => rfl⟩

/-- A gate that pins the hash lets one hash through. -/
theorem hash_eq_of_pinned (hpin : db.PinsHash b.height) (hheight : b'.height = b.height)
    (h : checkGates db b = .ok ()) (h' : checkGates db b' = .ok ()) : b'.hash = b.hash := by
  obtain ⟨_, -, h⟩ := bind_eq_ok.mp h
  obtain ⟨_, -, h'⟩ := bind_eq_ok.mp h'
  rw [hheight] at h'
  cases hf : db.finality b.height with
  | some certified =>
    simp only [hf, rejectIf_eq_ok, decide_eq_false_iff_not, ne_eq, not_not] at h h'
    exact h'.symm.trans h
  | none =>
    cases hl : db.locks b.height with
    | some locked =>
      simp only [hf, hl, rejectIf_eq_ok, decide_eq_false_iff_not, ne_eq, not_not] at h h'
      exact h'.symm.trans h
    | none => simp [Db.PinsHash, hf, hl] at hpin

/-- A gate that pins nothing does not look at the signature or the certificate. -/
theorem checkGates_reissued (hpin : ¬ db.PinsHash b.height) (text : Option String)
    (cert : Option RoundCertificate) : checkGates db (b.reissued text cert) = checkGates db b := by
  simp only [Db.PinsHash, not_or, Option.not_isSome_iff_eq_none] at hpin
  unfold checkGates
  simp only [Block.reissued, hpin.1, hpin.2]
  rfl

/-- The signature check reads the bytes of the text. -/
theorem checkSigned_reissued {text : String} {t : String} (ht : b.signature = some t)
    (hbytes : hexDecode text = hexDecode t) (cert : Option RoundCertificate) :
    checkSigned db (b.reissued (some text) cert) = checkSigned db b := by
  unfold checkSigned Block.verifyProposerSignature
  simp only [Block.reissued, ht, hbytes]
  rfl

omit [Wire ActionPayload] in
theorem checkRound_eq_ok {set : ValidatorSet} : checkRound db b set = .ok () ↔
    (b.round = 0 ∧ b.roundCertificate = none) ∨ (b.round ≠ 0 ∧ ∃ c, b.roundCertificate = some c ∧
      verifyRoundCertificate db c b.height b.round b.parentHash set = .ok ()) := by
  unfold checkRound
  cases b.roundCertificate with
  | none => simp [rejectIf_eq_ok]
  | some c => by_cases hr : b.round = 0 <;> simp [hr]

variable [StateTrie]

omit [StateTrie] in
/-- A block of this height and round leaves the tip, whatever it shows. -/
def Db.KeepsTip (db : Db) (height round : Nat) : Prop :=
  ∀ tipHeight tip, db.state.tip = some tipHeight → db.state.blocks tipHeight = some tip →
    (height ≠ tipHeight ∨ tipHeight = 0 ∨ (db.finality tipHeight).isSome = true) ∨
      (round ≤ tip.round ∨ db.locks tipHeight = some tip.hash)

/-- **Which tip a block supersedes does not depend on which certificate it shows.** -/
theorem supersedeDeadTip_eq_ok_iff {c : RoundCertificate} (hc : b.roundCertificate = some c) :
    supersedeDeadTip db b = .ok db₀ ↔ (db.KeepsTip b.height b.round ∧ db₀ = db) ∨
      (¬ db.KeepsTip b.height b.round ∧ db.Certified b c ∧ db.revertTo (b.height - 1) = .ok db₀) := by
  have hkeep : ∀ {x : Except AcceptBlockError Db}, db.KeepsTip b.height b.round → x = .ok db →
      (x = .ok db₀ ↔ (db.KeepsTip b.height b.round ∧ db₀ = db) ∨
        (¬ db.KeepsTip b.height b.round ∧ db.Certified b c ∧
          db.revertTo (b.height - 1) = .ok db₀)) := by
    rintro x hk rfl
    simp [hk, eq_comm]
  unfold supersedeDeadTip
  cases htip : db.state.tip with
  | none => exact hkeep (fun tipHeight tip ht => by rw [htip] at ht; cases ht) rfl
  | some tipHeight =>
    by_cases hskip : b.height ≠ tipHeight ∨ tipHeight = 0 ∨ (db.finality tipHeight).isSome = true
    · refine hkeep (fun t tip ht _ => ?_) (if_pos hskip)
      obtain rfl := Option.some.inj (htip.symm.trans ht)
      exact .inl hskip
    simp only [hskip, if_false, hc]
    cases hblock : db.state.blocks tipHeight with
    | none =>
      refine hkeep (fun t tip ht hb => ?_) rfl
      obtain rfl := Option.some.inj (htip.symm.trans ht)
      rw [hblock] at hb
      cases hb
    | some tip =>
      by_cases hdead : b.round ≤ tip.round ∨ db.locks tipHeight = some tip.hash
      · refine hkeep (fun t tip' ht hb => ?_) (if_pos hdead)
        obtain rfl := Option.some.inj (htip.symm.trans ht)
        obtain rfl := Option.some.inj (hblock.symm.trans hb)
        exact .inr hdead
      have hnot : ¬ db.KeepsTip b.height b.round := fun hk =>
        (hk tipHeight tip htip hblock).elim hskip hdead
      obtain rfl : b.height = tipHeight := by
        by_contra hne
        exact hskip (.inl hne)
      simp only [hdead, if_false, hnot, false_and, not_false_eq_true, true_and, false_or]
      rw [bind_eq_ok]
      constructor
      · rintro ⟨_, hv, hr⟩
        exact ⟨hv, mapError_eq_ok.mp hr⟩
      · rintro ⟨hv, hr⟩
        exact ⟨(), hv, mapError_eq_ok.mpr hr⟩

/-- Any certificate of the round supersedes the tip the block's own does, and no other one. -/
theorem supersedeDeadTip_reissued {own c : RoundCertificate} (text : Option String)
    (hown : b.roundCertificate = some own) (h : supersedeDeadTip db b = .ok db₀)
    (hc : db.Certified b c) : supersedeDeadTip db (b.reissued text (some c)) = .ok db₀ := by
  refine (supersedeDeadTip_eq_ok_iff (b := b.reissued text (some c)) rfl).mpr ?_
  exact ((supersedeDeadTip_eq_ok_iff hown).mp h).imp id fun hr => ⟨hr.1, hc, hr.2.2⟩

theorem eq_of_supersedeDeadTip {own c : RoundCertificate} {text : Option String} {db₁ : Db}
    (hown : b.roundCertificate = some own) (h : supersedeDeadTip db b = .ok db₀)
    (h' : supersedeDeadTip db (b.reissued text (some c)) = .ok db₁) :
    db₁ = db₀ ∧ (db₀ = db ∨ db.Certified b c) := by
  rcases (supersedeDeadTip_eq_ok_iff hown).mp h with ⟨hk, rfl⟩ | ⟨hk, -, hr⟩
  · rcases (supersedeDeadTip_eq_ok_iff (b := b.reissued text (some c)) rfl).mp h' with
      ⟨-, rfl⟩ | ⟨hk', -⟩
    · exact ⟨rfl, .inl rfl⟩
    · exact absurd hk hk'
  · rcases (supersedeDeadTip_eq_ok_iff (b := b.reissued text (some c)) rfl).mp h' with
      ⟨hk', -⟩ | ⟨-, hc, hr'⟩
    · exact absurd hk' hk
    · exact ⟨Except.ok.inj (hr'.symm.trans hr), .inr hc⟩

/-- With no certificate nothing is superseded. -/
theorem supersedeDeadTip_of_none (hc : b.roundCertificate = none) : supersedeDeadTip db b = .ok db := by
  unfold supersedeDeadTip
  rw [hc]
  split
  · rfl
  · split
    · rfl
    · split
      · rename_i h
        cases h
      · rfl

variable [Zk] [Decode] {env : NodeEnv} {params : ChainParams} {db' db'' : Db} {ex : Executed}

/-- **An accepted block stays accepted** with another text of its signature and another certificate of its
round, unless its hash is pinned. -/
theorem Accepted.reissued (h : Accepted env params b db db₀ ex db') (hpin : ¬ db₀.PinsHash b.height)
    {t text : String} (ht : b.signature = some t) (hbytes : hexDecode text = hexDecode t)
    {cert : Option RoundCertificate}
    (hcert : cert = b.roundCertificate ∨
      ∃ own c, b.roundCertificate = some own ∧ cert = some c ∧ db.Certified b c ∧ db₀.Certified b c) :
    Accepted env params (b.reissued (some text) cert) db db₀ ex
      (db₀.writeBlock (acceptedBatch env db₀ (b.reissued (some text) cert) ex)) where
  signed := (checkSigned_reissued ht hbytes cert).trans h.signed
  superseded := by
    rcases hcert with rfl | ⟨own, c, hown, rfl, hc, -⟩
    · cases hown : b.roundCertificate with
      | none =>
        rw [supersedeDeadTip_of_none (b := b.reissued (some text) none) rfl,
          ← supersedeDeadTip_of_none hown]
        exact h.superseded
      | some own =>
        have := (supersedeDeadTip_eq_ok_iff hown).mp h.superseded
        exact (supersedeDeadTip_eq_ok_iff (b := b.reissued (some text) (some own)) rfl).mpr this
    · exact supersedeDeadTip_reissued _ hown h.superseded hc
  gates := (checkGates_reissued hpin _ cert).trans h.gates
  parent := h.parent
  proposer := by
    obtain ⟨_, hround, hrest⟩ := bind_eq_ok.mp h.proposer
    refine bind_eq_ok.mpr ⟨(), ?_, hrest⟩
    rcases hcert with rfl | ⟨own, c, hown, rfl, -, hc⟩
    · exact checkRound_eq_ok.mpr (checkRound_eq_ok (b := b) |>.mp hround)
    · rcases checkRound_eq_ok.mp hround with ⟨-, hnone⟩ | ⟨hr, -⟩
      · rw [hown] at hnone
        cases hnone
      · exact checkRound_eq_ok.mpr (.inr ⟨hr, c, rfl, hc⟩)
  executed := h.executed
  root := h.root
  committed := rfl

omit [StateTrie] [Zk] [Decode] in
theorem checkSigned_eq_ok (h : checkSigned db b = .ok ()) :
    b.txRoot = txRoot b.actions ∧ ∃ text bytes, b.signature = some text ∧
      hexDecode text = some bytes := by
  obtain ⟨genesis, -, h⟩ := bind_eq_ok.mp h
  obtain ⟨_, hsig, h⟩ := bind_eq_ok.mp h
  refine ⟨by simpa [rejectIf_eq_ok] using h, ?_⟩
  have hsig := mapError_eq_ok.mp hsig
  unfold Block.verifyProposerSignature at hsig
  split at hsig
  · split at hsig
    · rename_i text htext
      split at hsig
      · rename_i bytes hbytes
        exact ⟨text, bytes, htext, hbytes⟩
      · cases hsig
    · cases hsig
  · cases hsig

omit [StateTrie] [Zk] [Decode] in
/-- A forgery that passes the signature check has the block's actions. -/
theorem Forged.eq_reissued_of_signed (h : Forged reach b b') (hs : checkSigned db b = .ok ())
    (hs' : checkSigned db b' = .ok ()) : b' = b.reissued b'.signature b'.roundCertificate := by
  refine h.eq_reissued (h.actions ?_)
  rw [← (checkSigned_eq_ok hs).1, ← (checkSigned_eq_ok hs').1]
  exact congrArg BlockSigningPayload.txRoot (h.header [] default)

/-- **When one signed header makes one block.**  Whoever lacks the proposer's key can make no block of
another hash from an accepted one that is accepted in its place exactly when a certificate or a lock
already names the hash, or the signature's text has no hex letter and no other certificate within reach
is one of the block's round. -/
theorem block_not_malleable_iff (env : NodeEnv) (params : ChainParams) (b : ChainBlock) (db db₀ db' : Db)
    (reach : RoundCertificate → Prop) (haccept : acceptBlock env params b db = .ok db')
    (hsuper : supersedeDeadTip db b = .ok db₀)
    (hcol : ∀ b', Forged reach b b' → b'.actions = b.actions → b'.hash = b.hash → b' = b) :
    (∀ b' db'', Forged reach b b' → acceptBlock env params b' db = .ok db'' → b'.hash = b.hash) ↔
      db₀.PinsHash b.height ∨ ((∀ text, b.signature = some text → HexCaseless text) ∧
        ∀ own c, b.roundCertificate = some own → reach c → db.Certified b c → db₀.Certified b c →
          c = own) := by
  obtain ⟨db₁, ex, h⟩ := acceptBlock_eq_ok.mp haccept
  obtain rfl : db₁ = db₀ := Except.ok.inj (h.superseded.symm.trans hsuper)
  obtain ⟨-, t, bytes, ht, hbytes⟩ := checkSigned_eq_ok h.signed
  constructor
  · intro honly
    by_cases hpin : db₁.PinsHash b.height
    · exact .inl hpin
    have hsame : ∀ text cert, hexDecode text = hexDecode t →
        (cert = b.roundCertificate ∨ ∃ own c, b.roundCertificate = some own ∧ cert = some c ∧
          reach c ∧ db.Certified b c ∧ db₁.Certified b c) → b.reissued (some text) cert = b := by
      intro text cert htext hcert
      have hforged : Forged reach b (b.reissued (some text) cert) := by
        refine forged_reissued (by rw [ht]; exact htext) fun c hc => ?_
        rcases hcert with rfl | ⟨own, c', -, rfl, hreach, -⟩
        · exact .inl hc
        · exact .inr (Option.some.inj hc ▸ hreach)
      have hacc := h.reissued hpin ht htext
        (hcert.imp id fun ⟨own, c, hown, hc, _, hd⟩ => ⟨own, c, hown, hc, hd⟩)
      exact hcol _ hforged rfl (honly _ _ hforged (acceptBlock_eq_ok.mpr ⟨db₁, ex, hacc⟩))
    refine .inr ⟨fun text htext => ?_, fun own c hown hreach hc hc₀ => ?_⟩
    · obtain rfl := Option.some.inj (ht.symm.trans htext)
      refine (hexDecode_unique_iff hbytes).mp fun text' htext' => ?_
      have heq := congrArg Block.signature (hsame text' _ (htext'.trans hbytes.symm) (.inl rfl))
      exact Option.some.inj (heq.trans ht)
    · have heq := congrArg Block.roundCertificate
        (hsame t (some c) rfl (.inr ⟨own, c, hown, rfl, hreach, hc, hc₀⟩))
      exact Option.some.inj (heq.trans hown)
  · intro hcond b' db'' hforged haccept'
    obtain ⟨db₂, ex', h'⟩ := acceptBlock_eq_ok.mp haccept'
    have hb' := hforged.eq_reissued_of_signed h.signed h'.signed
    obtain ⟨-, t', bytes', ht', hbytes'⟩ := checkSigned_eq_ok h'.signed
    have hround := checkRound_eq_ok.mp (bind_eq_ok.mp h.proposer).choose_spec.1
    have hround' := checkRound_eq_ok.mp (bind_eq_ok.mp h'.proposer).choose_spec.1
    have hroundeq : b'.round = b.round := congrArg BlockSigningPayload.round (hforged.header [] default)
    have hheight : b'.height = b.height := congrArg BlockSigningPayload.height (hforged.header [] default)
    -- The two certificates are both there or both not, and the tip they supersede is the same.
    have hcert : db₂ = db₁ ∧ ((b'.roundCertificate = none ∧ b.roundCertificate = none) ∨
        ∃ own c, b.roundCertificate = some own ∧ b'.roundCertificate = some c ∧
          db.Certified b c ∧ db₁.Certified b c) := by
      rcases hround with ⟨hr, hnone⟩ | ⟨hr, own, hown, hv⟩
      · rcases hround' with ⟨-, hnone'⟩ | ⟨hr', -⟩
        · refine ⟨?_, .inl ⟨hnone', hnone⟩⟩
          have h₁ := h.superseded
          have h₂ := h'.superseded
          rw [supersedeDeadTip_of_none hnone] at h₁
          rw [supersedeDeadTip_of_none hnone'] at h₂
          exact Except.ok.inj (h₂.symm.trans h₁)
        · exact absurd (hroundeq.trans hr) hr'
      · rcases hround' with ⟨hr', -⟩ | ⟨-, c, hc, hv'⟩
        · exact absurd (hroundeq.symm.trans hr') hr
        · have hs' := h'.superseded
          rw [hb', hc] at hs'
          obtain ⟨rfl, hsame⟩ := eq_of_supersedeDeadTip hown h.superseded hs'
          have hv₁ : db₂.Certified b c := by
            rw [hb'] at hv'
            exact hv'
          refine ⟨rfl, .inr ⟨own, c, hown, hc, ?_, hv₁⟩⟩
          rcases hsame with rfl | hsame
          · exact hv₁
          · exact hsame
    obtain ⟨rfl, hcert⟩ := hcert
    rcases hcond with hpin | ⟨hless, hcertified⟩
    · exact hash_eq_of_pinned hpin hheight h.gates h'.gates
    have htext : t' = t := by
      refine (hexDecode_unique_iff hbytes).mpr (hless t ht) t' ?_
      have := hforged.signature
      rwa [ht, ht', Option.bind_some, Option.bind_some, hbytes] at this
    have hsame : b'.roundCertificate = b.roundCertificate := by
      rcases hcert with ⟨hnone', hnone⟩ | ⟨own, c, hown, hc, hv, hv₁⟩
      · rw [hnone', hnone]
      · rcases hforged.certificate c hc with hmine | hreach
        · rw [hc, hmine]
        · rw [hc, hown, hcertified own c hown hreach hv hv₁]
    rw [hb', ht', htext, hsame, ← ht]
    rfl

end Identity

/-! ## Three blocks of one header

Two validators of equal power, and a block of round one with the votes of both. -/

namespace ThreeHashes

open PlainChain (crypto env)

/-- Of a block the signature's text and the signers are encoded. -/
@[reducible] def wire : Wire ActionPayload :=
  { Plain.wire with
    block := fun b => Plain.frameText (b.signature.getD "") ++
      (b.roundCertificate.elim [] (·.signers)).flatMap fun a => Plain.frameText a.text }

attribute [local instance] crypto wire Plain.zk Plain.trie Plain.decoders

set_option maxRecDepth 20000

def db : Db :=
  let base := PlainChain.db [put (.validatorSet 0)
    (((∅ : ValidatorSet).insert (PlainChain.address 7) 5000).insert (PlainChain.address 8) 5000)]
  { base with state := { base.state with blsHistory := fun p => if p.2 = 0 then some [1] else none } }

def text (c : Char) : String := String.ofList (List.replicate 128 c)

def certificate (signers : List Address) : RoundCertificate := ⟨1, 0, signers, []⟩

def votes : List Address := [PlainChain.address 7, PlainChain.address 8]

def block (signature : String) (signers : List Address) : ChainBlock :=
  { PlainChain.block 1 [] with
    parentHash := hashText PlainChain.genesisBlock.hash
    signature := some signature
    round := 1
    roundCertificate := some (certificate signers) }

/-- **Three blocks of one signed header are accepted on one database**: the proposer's, one with the
signature in upper case, and one with the signers of the certificate the other way round. -/
theorem header_makes_three_blocks :
    (acceptBlock env PlainChain.params (block (text 'a') votes) db).isOk = true ∧
      (acceptBlock env PlainChain.params (block (text 'A') votes) db).isOk = true ∧
      (acceptBlock env PlainChain.params (block (text 'a') votes.reverse) db).isOk = true ∧
      (block (text 'a') votes).signingBytes [] PlainChain.proposer =
        (block (text 'A') votes).signingBytes [] PlainChain.proposer ∧
      (block (text 'a') votes).signingBytes [] PlainChain.proposer =
        (block (text 'a') votes.reverse).signingBytes [] PlainChain.proposer ∧
      hexDecode (text 'a') = hexDecode (text 'A') ∧
      (block (text 'a') votes).hash ≠ (block (text 'A') votes).hash ∧
      (block (text 'a') votes).hash ≠ (block (text 'a') votes.reverse).hash := by
  decide +kernel

/-- A block of round zero. -/
def first : ChainBlock :=
  { PlainChain.block 1 [] with
    parentHash := hashText PlainChain.genesisBlock.hash
    signature := some (text '0') }

/-- A block of round zero whose signature is all zeros is the only one of its header. -/
theorem first_not_malleable : (acceptBlock env PlainChain.params first (PlainChain.db [])).isOk = true ∧
    ¬ ∃ b' db'', Forged (fun _ => False) first b' ∧
      acceptBlock env PlainChain.params b' (PlainChain.db []) = .ok db'' ∧ b'.hash ≠ first.hash := by
  have hok : (acceptBlock env PlainChain.params first (PlainChain.db [])).isOk = true := by decide +kernel
  have hless : ((text '0').toList.all fun c => !c.isAlpha) = true := by decide +kernel
  have hsuper : supersedeDeadTip (PlainChain.db []) first = .ok (PlainChain.db []) :=
    supersedeDeadTip_of_none rfl
  obtain ⟨db', haccept⟩ := exists_ok_of_isOk hok
  refine ⟨hok, fun ⟨b', db'', hforged, haccept', hne⟩ => hne ?_⟩
  refine (block_not_malleable_iff env _ first _ _ db' _ haccept hsuper ?_).mpr (.inr ⟨?_, ?_⟩) b' db''
    hforged haccept'
  · intro c hc hactions hhash
    have hnone : c.roundCertificate = none := by
      cases hcert : c.roundCertificate with
      | none => rfl
      | some cert =>
        rcases hc.certificate cert hcert with h | h
        · cases h
        · exact h.elim
    have hsig : c.signature.getD "" = text '0' := by
      have hframes : Plain.frameText (c.signature.getD "") ++ [] = Plain.frameText (text '0') ++ [] := by
        have hhash : Plain.frameText (c.signature.getD "") ++
          (c.roundCertificate.elim [] (·.signers)).flatMap (fun a => Plain.frameText a.text) =
            Plain.frameText (text '0') ++ [] := hhash
        rwa [hnone] at hhash
      exact (Plain.frameText_append_inj hframes).1
    have hsome : c.signature = some (text '0') := by
      cases hs : c.signature with
      | none =>
        rw [hs] at hsig
        exact absurd hsig (by decide +kernel)
      | some t => rw [← hsig, hs]; rfl
    rw [hc.eq_reissued hactions, hnone, hsome]
    rfl
  · rintro t ht c hc
    obtain rfl : text '0' = t := Option.some.inj ht
    simpa using List.all_eq_true.mp hless c hc
  · rintro own c hown
    cases hown

end ThreeHashes

end Arxium
