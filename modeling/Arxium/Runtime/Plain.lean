import Arxium.Runtime.Consensus

/-!
# Runtime/Plain — the assumptions on the libraries have a model

What the development assumes of hashing, encodings and signatures is stated as laws.  Here is one
model of them, simple enough to compute with: digests are the hashed bytes themselves, every field
of an encoding is framed so that it can be read off the front, and which signatures verify is left
to the user of the model.
-/

namespace Arxium

namespace Plain

/-! ## Framed bytes -/

/-- A byte string with its end marked, so that it can be read off the front of a longer one. -/
def frame (b : Bytes) : Bytes := (b.flatMap fun x => [1, x]) ++ [0]

theorem frame_append_inj {b c r s : Bytes} (h : frame b ++ r = frame c ++ s) : b = c ∧ r = s := by
  induction b generalizing c with
  | nil =>
    cases c with
    | nil => simpa [frame] using h
    | cons y c => simp [frame] at h
  | cons x b ih =>
    cases c with
    | nil => simp [frame] at h
    | cons y c =>
      have hxy : x = y ∧ frame b ++ r = frame c ++ s := by simpa [frame] using h
      obtain ⟨rfl, htail⟩ := ih hxy.2
      exact ⟨by rw [hxy.1], htail⟩

def frameNat (n : Nat) : Bytes := frame (List.replicate n 0)

theorem frameNat_append_inj {n m : Nat} {r s : Bytes} (h : frameNat n ++ r = frameNat m ++ s) :
    n = m ∧ r = s := by
  obtain ⟨hnm, hrs⟩ := frame_append_inj h
  exact ⟨by simpa using congrArg List.length hnm, hrs⟩

def frameText (s : String) : Bytes := frame (strBytes s)

theorem frameText_append_inj {s t : String} {r r' : Bytes}
    (h : frameText s ++ r = frameText t ++ r') : s = t ∧ r = r' := by
  obtain ⟨hst, hr⟩ := frame_append_inj h
  exact ⟨strBytes_injective hst, hr⟩

/-! ## The libraries -/

/-- The prefix's length in unary, the prefix, and the data as characters. -/
def bech32Encode (hrp : String) (b : Bytes) : String :=
  String.ofList (List.replicate hrp.length 'q' ++
    '1' :: (hrp.toList ++ b.map fun x => Char.ofNat x.toNat))

def bech32Decode (s : String) : Option (String × Bytes) :=
  let n := (s.toList.takeWhile (· = 'q')).length
  match s.toList.drop n with
  | '1' :: rest => some (String.ofList (rest.take n),
      (rest.drop n).map fun c => UInt8.ofNat c.toNat)
  | _ => none

theorem bech32_roundtrip (hrp : String) (b : Bytes) :
    bech32Decode (bech32Encode hrp b) = some (hrp, b) := by
  have hchar : ∀ x : UInt8, UInt8.ofNat (Char.ofNat x.toNat).toNat = x := by
    intro x
    have hx : x.toNat < 256 := x.toNat_lt
    rw [Char.toNat_ofNat, if_pos (by simp [Nat.isValidChar]; omega)]
    simp
  have hlen : hrp.toList.length = hrp.length := String.length_toList
  simp [bech32Decode, bech32Encode, hchar, Function.comp_def, ← hlen]

/-- Hashing is the identity; which Ed25519 signatures verify is a parameter. -/
@[reducible] def crypto (accepts : Bytes → Bytes → Bytes → Bool) : Crypto where
  bech32Encode := bech32Encode
  bech32Decode := bech32Decode
  sha256 := id
  isDigest := fun _ => true
  ed25519IsKey := fun _ => true
  ed25519IsWeak := fun _ => false
  ed25519Verify := accepts
  blsIsKey := fun _ => true
  blsVerify := fun _ _ _ => true
  blsAggregate := fun sigs => some sigs.flatten
  blsVerifyAggregate := fun _ _ _ => true
  blsVerifyPossession := fun _ _ => true

theorem crypto_laws (accepts : Bytes → Bytes → Bytes → Bool) : @Crypto.Laws (crypto accepts) :=
  @Crypto.Laws.mk (crypto accepts) Function.injective_id (fun _ => rfl) bech32_roundtrip

/-! ## The encoding -/

def blockSigning (p : BlockSigningPayload) : Bytes :=
  frame p.genesisHash ++ (frameNat p.height ++ (frameText p.parentHash ++ (frameNat p.timestamp ++
    (frame p.txRoot ++ (frameText p.proposer.text ++ (frameText p.parentStateRoot ++
      (frameText p.stateRoot ++ (frameNat p.round ++ (frameText p.buildId ++ [])))))))))

theorem blockSigning_injective : Function.Injective blockSigning := by
  intro p q h
  obtain ⟨h₁, h⟩ := frame_append_inj h
  obtain ⟨h₂, h⟩ := frameNat_append_inj h
  obtain ⟨h₃, h⟩ := frameText_append_inj h
  obtain ⟨h₄, h⟩ := frameNat_append_inj h
  obtain ⟨h₅, h⟩ := frame_append_inj h
  obtain ⟨h₆, h⟩ := frameText_append_inj h
  obtain ⟨h₇, h⟩ := frameText_append_inj h
  obtain ⟨h₈, h⟩ := frameText_append_inj h
  obtain ⟨h₉, h⟩ := frameNat_append_inj h
  obtain ⟨h₁₀, -⟩ := frameText_append_inj h
  cases p
  cases q
  simp_all [Address.ext_iff]

/-- Transfers are told apart; every other payload is one byte. -/
def payload : ActionPayload → Bytes
  | .transfer recipient amount => 1 :: (frameText recipient.text ++ (frameNat amount ++ []))
  | _ => [2]

def action (a : ChainAction) : Bytes :=
  frameText a.sender.text ++ (frameNat a.nonce ++ (frameText (a.signature.getD "") ++
    payload a.payload))

@[reducible] def wire : Wire ActionPayload where
  block := fun b => frameText (b.signature.getD "") ++
    blockSigning ⟨[], b.height, b.parentHash, b.timestamp, b.txRoot, b.proposer.getD default,
      b.parentStateRoot, b.stateRoot, b.round, b.buildId⟩
  blockSigning := blockSigning
  action := action
  actionSigning := fun p => p.genesis ++ payload p.payload
  payload := payload

theorem wire_laws : @Wire.Laws ActionPayload wire :=
  @Wire.Laws.mk ActionPayload wire blockSigning_injective

@[reducible] def zk : Zk where
  isFieldElement := fun _ => true
  isProof := fun _ => true
  verifyCredential := fun _ _ _ => true
  verifyPredicate := fun _ _ _ _ _ _ _ _ => true

@[reducible] def decoders : Decode where
  artifact := fun _ => none
  action := fun _ => none

@[reducible] def trie : StateTrie where
  depth := 0
  keyPath := fun _ => []
  hasher := ⟨fun _ v => v, fun l _ => l, []⟩
  encodeValue := fun _ _ => []
  decodeValue := fun _ _ => none

end Plain

end Arxium
