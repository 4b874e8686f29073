import Mathlib

/-!
# Primitives/Crypto — bytes, addresses and signatures

The chain identifies everything by text over bytes: an account is a bech32 string, an asset a
bech32 string of a digest, a signature a hex string.  The libraries underneath (bech32, SHA-256,
Ed25519, BLS) are not part of the repository and enter as the fields of `Crypto`; what they promise
is `Crypto.Laws`, and a theorem that needs a promise takes it as a hypothesis.

A digest is a byte string whose length is not recorded: a function into 32 bytes has collisions, so
"collision free" would be an empty assumption.  The source's `len == 32` test on a decoded digest is
`Crypto.isDigest`.
-/

namespace Arxium

/-- A byte string. -/
abbrev Bytes := List UInt8

/-- The UTF-8 bytes of a text. -/
def strBytes (s : String) : Bytes := s.toUTF8.data.toList

theorem strBytes_injective : Function.Injective strBytes := by
  intro s t h
  have hdata : s.toUTF8 = t.toUTF8 := ByteArray.ext (Array.toList_inj.mp h)
  exact String.toByteArray_inj.mp hdata

theorem strBytes_length (s : String) : (strBytes s).length = s.utf8ByteSize := by
  simp [strBytes]

theorem utf8ByteSize_ofList_le (l : List Char) : (String.ofList l).utf8ByteSize ≤ 4 * l.length := by
  induction l with
  | nil => simp
  | cons c l ih =>
    rw [← List.singleton_append, String.ofList_append, String.utf8ByteSize_append]
    have hc : (String.ofList [c]).utf8ByteSize ≤ 4 := by
      have := c.utf8Size_le_four
      simpa using this
    simp only [List.singleton_append, List.length_cons]
    omega

/-! ## Hex -/

/-- The value of a hex digit, of either case. -/
def hexVal (c : Char) : Option UInt8 :=
  if '0' ≤ c ∧ c ≤ '9' then some (UInt8.ofNat (c.toNat - '0'.toNat))
  else if 'a' ≤ c ∧ c ≤ 'f' then some (UInt8.ofNat (c.toNat - 'a'.toNat + 10))
  else if 'A' ≤ c ∧ c ≤ 'F' then some (UInt8.ofNat (c.toNat - 'A'.toNat + 10))
  else none

/-- Decodes pairs of hex digits; an odd digit or any other character fails. -/
def hexDecodeChars : List Char → Option Bytes
  | [] => some []
  | [_] => none
  | a :: b :: rest => do
    let hi ← hexVal a
    let lo ← hexVal b
    let tail ← hexDecodeChars rest
    return (hi * 16 + lo) :: tail

/-- `hex::decode`: both cases are accepted, so one byte string has many texts. -/
def hexDecode (s : String) : Option Bytes := hexDecodeChars s.toList

/-- The lower-case hex digit of a value below 16. -/
def hexDigit (n : Nat) : Char :=
  if n < 10 then Char.ofNat ('0'.toNat + n) else Char.ofNat ('a'.toNat + (n - 10))

/-- `hex::encode`. -/
def hexEncode (b : Bytes) : String :=
  String.ofList (b.flatMap fun x => [hexDigit (x.toNat / 16), hexDigit (x.toNat % 16)])

theorem hexDigit_inj {m n : Nat} (hm : m < 16) (hn : n < 16) (h : hexDigit m = hexDigit n) :
    m = n := by
  have hall : ∀ m < 16, ∀ n < 16, hexDigit m = hexDigit n → m = n := by decide
  exact hall m hm n hn h

theorem hexDigits_injective : Function.Injective fun b : Bytes =>
    b.flatMap fun x => [hexDigit (x.toNat / 16), hexDigit (x.toNat % 16)] := by
  intro a b h
  induction a generalizing b with
  | nil =>
    cases b with
    | nil => rfl
    | cons y b => simp at h
  | cons x a ih =>
    cases b with
    | nil => simp at h
    | cons y b =>
      obtain ⟨hhi, hlo, htail⟩ : hexDigit (x.toNat / 16) = hexDigit (y.toNat / 16) ∧
          hexDigit (x.toNat % 16) = hexDigit (y.toNat % 16) ∧ _ = _ := by simpa using h
      have hx : x.toNat < 256 := x.toNat_lt
      have hy : y.toNat < 256 := y.toNat_lt
      have hhi' := hexDigit_inj (by omega) (by omega) hhi
      have hlo' := hexDigit_inj (by omega) (by omega) hlo
      have hxy : x = y := UInt8.toNat_inj.mp (by omega)
      rw [hxy, ih htail]

theorem hexEncode_injective : Function.Injective hexEncode := by
  intro a b h
  refine hexDigits_injective ?_
  have := congrArg String.toList h
  simpa [hexEncode] using this

theorem hexVal_hexDigit {n : Nat} (hn : n < 16) : hexVal (hexDigit n) = some (UInt8.ofNat n) := by
  have hall : ∀ n < 16, hexVal (hexDigit n) = some (UInt8.ofNat n) := by decide
  exact hall n hn

theorem hexDecodeChars_hexDigits (b : Bytes) :
    hexDecodeChars (b.flatMap fun x => [hexDigit (x.toNat / 16), hexDigit (x.toNat % 16)]) =
      some b := by
  induction b with
  | nil => rfl
  | cons x b ih =>
    have hx : x.toNat < 256 := x.toNat_lt
    have hbyte : UInt8.ofNat (x.toNat / 16) * 16 + UInt8.ofNat (x.toNat % 16) = x := by
      apply UInt8.toNat_inj.mp
      simp only [UInt8.toNat_add, UInt8.toNat_mul, UInt8.toNat_ofNat']
      change (x.toNat / 16 % 256 * 16 % 256 + x.toNat % 16 % 256) % 256 = x.toNat
      omega
    simp only [List.flatMap_cons, List.cons_append, List.nil_append, hexDecodeChars,
      hexVal_hexDigit (show x.toNat / 16 < 16 by omega),
      hexVal_hexDigit (show x.toNat % 16 < 16 by omega), ih]
    exact congrArg (fun y => some (y :: b)) hbyte

/-- **Hex decodes as it was encoded.** -/
theorem hexDecode_hexEncode (b : Bytes) : hexDecode (hexEncode b) = some b := by
  rw [hexDecode, hexEncode, String.toList_ofList, hexDecodeChars_hexDigits]

/-! ## The libraries underneath -/

/-- The functions of the libraries the chain is built on. -/
class Crypto where
  /-- `bech32::encode`; it fails only on data far longer than any caller passes. -/
  bech32Encode : String → Bytes → String
  /-- `bech32::decode`, as prefix and data. -/
  bech32Decode : String → Option (String × Bytes)
  sha256 : Bytes → Bytes
  /-- The `len == 32` test on a decoded digest. -/
  isDigest : Bytes → Bool
  /-- `VerifyingKey::from_bytes(..).is_ok()`. -/
  ed25519IsKey : Bytes → Bool
  /-- `VerifyingKey::is_weak`. -/
  ed25519IsWeak : Bytes → Bool
  /-- `VerifyingKey::verify_strict`, on key, message and signature. -/
  ed25519Verify : Bytes → Bytes → Bytes → Bool
  /-- The bytes are a BLS public key of the right subgroup. -/
  blsIsKey : Bytes → Bool
  /-- `xc_bls::verify`, on message, key and signature. -/
  blsVerify : Bytes → Bytes → Bytes → Bool
  /-- `xc_bls::aggregate`. -/
  blsAggregate : List Bytes → Option Bytes
  /-- `xc_bls::verify_aggregate`, on message, keys and aggregate. -/
  blsVerifyAggregate : Bytes → List Bytes → Bytes → Bool
  /-- `xc_bls::verify_possession`, on key and proof. -/
  blsVerifyPossession : Bytes → Bytes → Bool

/-- What the libraries promise: SHA-256 has no collisions, its output passes the digest test, and
bech32 decodes what it encoded. -/
structure Crypto.Laws [Crypto] : Prop where
  sha256_injective : Function.Injective sha256
  isDigest_sha256 : ∀ b, isDigest (sha256 b) = true
  bech32_roundtrip : ∀ hrp b, bech32Decode (bech32Encode hrp b) = some (hrp, b)

variable [Crypto]

open Crypto

theorem Crypto.Laws.bech32Encode_injective (h : Crypto.Laws) (hrp : String) :
    Function.Injective (bech32Encode hrp) := by
  intro b c hbc
  have hb := h.bech32_roundtrip hrp b
  rw [hbc, h.bech32_roundtrip] at hb
  simpa using hb.symm

/-! ## Addresses -/

/-- An account address: a text, valid or not. -/
@[ext] structure Address where
  text : String
deriving DecidableEq, Repr

instance : Inhabited Address := ⟨⟨""⟩⟩

/-- Addresses are ordered as their texts. -/
instance : LinearOrder Address := LinearOrder.lift' Address.text fun _ _ h => Address.ext h

instance : Std.TransCmp (compare : Address → Address → Ordering) := inferInstance

inductive AddressError
  | missingPrefix
  | wrongLength (n : Nat)
  | invalidHex
deriving DecidableEq, Repr

namespace Address

/-- The human-readable part of an address. -/
def hrp : String := "arx"

def fromPubkeyBytes (b : Bytes) : Address := ⟨bech32Encode hrp b⟩

def pubkeyBytes (a : Address) : Except AddressError Bytes :=
  match bech32Decode a.text with
  | none => .error .invalidHex
  | some (h, data) => if h = hrp then .ok data else .error .missingPrefix

def parse (s : String) : Except AddressError Address :=
  match bech32Decode s with
  | none => .error .invalidHex
  | some (h, _) => if h = hrp then .ok ⟨s⟩ else .error .missingPrefix

end Address

/-- The account that holds a validator's stake. -/
def stakeSubaccount (validator : Address) : Address :=
  .fromPubkeyBytes (sha256 (strBytes "xc-stake-subaccount:" ++ strBytes validator.text))

/-- The account block rewards are paid from and slashes go to. -/
def rewardPoolAccount : Address := .fromPubkeyBytes (sha256 (strBytes "xc-reward-pool"))

def treasuryAccount : Address := .fromPubkeyBytes (sha256 (strBytes "xc-treasury"))

/-! ## Asset references -/

/-- The chain-wide name of an asset, derived from its issuer and slug. -/
@[ext] structure AssetRef where
  text : String
deriving DecidableEq, Repr

instance : Inhabited AssetRef := ⟨⟨""⟩⟩

instance : LinearOrder AssetRef := LinearOrder.lift' AssetRef.text fun _ _ h => AssetRef.ext h

inductive AssetRefError
  | missingPrefix
  | invalidEncoding
  | wrongLength (n : Nat)
deriving DecidableEq, Repr

namespace AssetRef

def hrp : String := "arxasset"

def fromBytes (b : Bytes) : AssetRef := ⟨bech32Encode hrp b⟩

def derive (issuer : Address) (assetId : String) : Except AddressError AssetRef := do
  let key ← issuer.pubkeyBytes
  return fromBytes (sha256 (strBytes "arxium/asset/v1" ++ key ++ [0] ++ strBytes assetId))

def parse (s : String) : Except AssetRefError AssetRef :=
  match bech32Decode s with
  | none => .error .invalidEncoding
  | some (h, data) =>
    if h ≠ hrp then .error .missingPrefix
    else if isDigest data then .ok ⟨s⟩ else .error (.wrongLength data.length)

/-- The digest inside a reference; the source unwraps, since references are built valid. -/
def bytes (r : AssetRef) : Bytes := ((bech32Decode r.text).map Prod.snd).getD []

end AssetRef

/-! ## Signatures -/

inductive SignatureError
  | missing
  | invalidHex
  | wrongLength (n : Nat)
  | badPubkey (e : AddressError)
  | invalid
  | badMultisig (reason : String)
deriving DecidableEq, Repr

/-- `verify_one`: one Ed25519 signature under one key. -/
def verifyOne (pubkey sig message : Bytes) : Except SignatureError Unit :=
  if sig.length ≠ 64 then .error (.wrongLength sig.length)
  else if pubkey.length ≠ 32 then .error (.wrongLength pubkey.length)
  else if !ed25519IsKey pubkey then .error .invalid
  else if ed25519Verify pubkey message sig then .ok () else .error .invalid

/-- The first byte of a multisig account's key. -/
def multisigTag : UInt8 := 1

def maxMultisigMembers : Nat := 16

/-- Lexicographic order on byte strings, as the source compares `[u8; 32]`. -/
def bytesLt : Bytes → Bytes → Bool
  | [], [] => false
  | [], _ :: _ => true
  | _ :: _, [] => false
  | a :: as, b :: bs => a < b || (a == b && bytesLt as bs)

/-- No element is followed by one that is not larger: `windows(2).any(|w| w[0] >= w[1])` fails. -/
def ascending {α : Type} (lt : α → α → Bool) : List α → Bool
  | a :: b :: rest => lt a b && ascending lt (b :: rest)
  | _ => true

/-- `policy_hash`: what a multisig address commits to. -/
def policyHash (threshold : Nat) (members : List Bytes) : Except SignatureError Bytes :=
  if members.isEmpty || members.length > maxMultisigMembers then
    .error (.badMultisig "member count must be 1..=16")
  else if threshold == 0 || threshold > members.length then
    .error (.badMultisig "threshold must be 1..=members")
  else if !ascending bytesLt members then
    .error (.badMultisig "members must be unique and ascending")
  else
    .ok (sha256 (strBytes "arxium-multisig-v1" ++
      [UInt8.ofNat threshold, UInt8.ofNat members.length] ++ members.flatten))

/-- The members in ascending order. -/
def sortedMembers (members : List Bytes) : List Bytes :=
  members.insertionSort fun a b => bytesLt a b || a == b

def multisigAddress (threshold : Nat) (members : List Bytes) : Except SignatureError Address := do
  let hash ← policyHash threshold (sortedMembers members)
  return .fromPubkeyBytes (multisigTag :: hash)

/-- Consecutive pieces of `n` elements; a short rest is dropped, as by `chunks_exact`. -/
def chunksExact {α : Type} (n : Nat) : Nat → List α → List (List α)
  | 0, _ => []
  | fuel + 1, l => if n ≤ l.length then l.take n :: chunksExact n fuel (l.drop n) else []

/-- The signer loop of `verify_multisig`: indices ascend, and each entry verifies. -/
def verifySigners (members : List Bytes) (message : Bytes) :
    Option Nat → List Bytes → Except SignatureError Unit
  | _, [] => .ok ()
  | last, entry :: rest => do
    let i := (entry.headD 0).toNat
    if members.length ≤ i || last.any (i ≤ ·) then
      .error (.badMultisig "signer indices must be ascending members")
    verifyOne (members.getD i []) entry.tail message
    verifySigners members message (some i) rest

/-- `verify_multisig`: the witness is the policy followed by the signatures. -/
def verifyMultisig (policy witness message : Bytes) : Except SignatureError Unit :=
  match witness with
  | threshold :: n :: rest => do
    let t := threshold.toNat
    let n := n.toNat
    if rest.length ≠ 32 * n + 65 * t then
      .error (.badMultisig "witness length does not match its policy")
    let members := chunksExact 32 n (rest.take (32 * n))
    let hash ← policyHash t members
    if hash ≠ policy then
      .error (.badMultisig "policy does not match sender address")
    verifySigners members message none (chunksExact 65 t (rest.drop (32 * n)))
  | _ => .error (.badMultisig "witness too short")

end Arxium
