import Arxium.Runtime.Witness

/-!
# Runtime/Multisig — a multisig account is exactly its threshold of members

`multisigAddress` commits to a policy, `multisigSignature` lays out its members' signatures for the
signature field, and `verifyMultisig` reads them back: two byte routines that have to agree on lengths,
positions and order.

`verifyMultisig_preimage` is the reader's side: it accepts the layout of the address's own policy and of no
other.  `signs_multisigEntries` is the writer's: whatever order the signatures come in, it lays them out that
way.
-/

namespace Arxium

open ReadProg Crypto

/-! ## The writer -/

/-- Each signature with the position of its signer. -/
def indexSignatures (members : List Bytes) (signatures : List (Bytes × Bytes)) :
    Except SignatureError (List (Nat × Bytes)) :=
  signatures.mapM fun s =>
    match members.findIdx? (· == s.1) with
    | some i => .ok (i, s.2)
    | none => .error (.badMultisig "signer is not a member")

/-- The entries of a witness: position and signature, by position. -/
def multisigEntries (indexed : List (Nat × Bytes)) : List Bytes :=
  (indexed.insertionSort fun a b => a.1 ≤ b.1).map fun e => UInt8.ofNat e.1 :: e.2

/-- `multisig_signature`. -/
def multisigSignature [Crypto] (threshold : Nat) (members : List Bytes)
    (signatures : List (Bytes × Bytes)) : Except SignatureError String := do
  let members := sortedMembers members
  let _ ← policyHash threshold members
  let indexed ← indexSignatures members signatures
  return hexEncode (UInt8.ofNat threshold :: UInt8.ofNat members.length ::
    (members.flatten ++ (multisigEntries indexed).flatten))

theorem indexSignatures_eq_ok {members : List Bytes} {signatures : List (Bytes × Bytes)}
    (h : ∀ s ∈ signatures, s.1 ∈ members) : indexSignatures members signatures =
      .ok (signatures.map fun s => (members.idxOf s.1, s.2)) := by
  unfold indexSignatures
  induction signatures with
  | nil => rfl
  | cons s rest ih =>
    obtain ⟨hs, hrest⟩ := List.forall_mem_cons.mp h
    have hindex : members.findIdx? (· == s.1) = some (members.idxOf s.1) := by
      rw [List.findIdx?_eq_guard_findIdx_lt]
      exact Option.guard_eq_some_iff.mpr ⟨rfl, decide_eq_true (List.idxOf_lt_length_of_mem hs)⟩
    rw [List.mapM_cons, hindex, ih hrest]
    rfl

/-! ## What the reader asks for -/

namespace ThresholdPolicy

section Multisig

variable [Crypto] {p : ThresholdPolicy} {message : Bytes}

/-- **The writer's entries are what the reader asks for.** -/
theorem signs_multisigEntries (hp : p.WellFormed) (message : Bytes) {signatures : List (Bytes × Bytes)}
    (hcount : signatures.length = p.threshold) (hdistinct : (signatures.map Prod.fst).Nodup)
    (hmembers : ∀ s ∈ signatures, s.1 ∈ p.members)
    (hvalid : ∀ s ∈ signatures, verifyOne s.1 s.2 message = .ok ()) :
    p.Signs message (multisigEntries (signatures.map fun s => (p.members.idxOf s.1, s.2))) := by
  let indexed := signatures.map fun s => (p.members.idxOf s.1, s.2)
  let sorted := indexed.insertionSort fun a b => a.1 ≤ b.1
  have hperm : sorted.Perm indexed := List.perm_insertionSort ..
  have hsorted : ∀ e ∈ sorted, ∃ s ∈ signatures, e = (p.members.idxOf s.1, s.2) := by
    intro e he
    obtain ⟨s, hs, rfl⟩ := List.mem_map.mp (hperm.subset he)
    exact ⟨s, hs, rfl⟩
  have hindex : ∀ e ∈ sorted, signerIndex (UInt8.ofNat e.1 :: e.2) = e.1 := by
    intro e he
    obtain ⟨s, hs, rfl⟩ := hsorted e he
    have hlt := (List.idxOf_lt_length_of_mem (hmembers s hs)).trans hp.lt.2
    simp [signerIndex, Nat.mod_eq_of_lt hlt]
  have hpositions : (indexed.map Prod.fst).Nodup := by
    rw [List.map_map]
    refine List.pairwise_map.mpr ((List.pairwise_map.mp hdistinct).imp_of_mem fun {a b} ha hb hne he => ?_)
    exact hne ((List.idxOf_inj (hmembers a ha)).mp he)
  have horder : sorted.Pairwise fun a b => a.1 < b.1 := by
    have hle : sorted.Pairwise fun a b => a.1 ≤ b.1 := List.pairwise_insertionSort ..
    have hne : sorted.Pairwise fun a b => a.1 ≠ b.1 :=
      List.pairwise_map.mp ((hperm.map Prod.fst).nodup_iff.mpr hpositions)
    exact hle.imp₂ (fun a b hle hne => lt_of_le_of_ne hle hne) hne
  refine ⟨?_, fun e he => ?_, List.pairwise_map.mpr ?_, fun e he => ?_⟩
  · rw [multisigEntries, List.length_map, hperm.length_eq, List.length_map, hcount]
  · obtain ⟨x, hx, rfl⟩ := List.mem_map.mp he
    obtain ⟨s, hs, rfl⟩ := hsorted x hx
    rw [List.length_cons, (sizes_of_verifyOne (hvalid s hs)).2]
  · refine horder.imp_of_mem fun {a b} ha hb hlt => ?_
    rwa [hindex a ha, hindex b hb]
  · obtain ⟨x, hx, rfl⟩ := List.mem_map.mp he
    rw [hindex x hx]
    obtain ⟨s, hs, rfl⟩ := hsorted x hx
    have hlt := List.idxOf_lt_length_of_mem (hmembers s hs)
    refine ⟨hlt, ?_⟩
    rw [List.getD_eq_getElem _ _ hlt, List.getElem_idxOf]
    exact hvalid s hs

end Multisig

end ThresholdPolicy

/-! ## Addresses -/

section Addresses

variable [Crypto] {threshold : Nat} {members : List Bytes} {address : Address}

omit [Crypto] in
theorem mem_sortedMembers {m : Bytes} : m ∈ sortedMembers members ↔ m ∈ members :=
  (List.perm_insertionSort ..).mem_iff

/-- The policy a multisig's address is made of, with its members in order. -/
def multisigPolicy (threshold : Nat) (members : List Bytes) : ThresholdPolicy :=
  ⟨threshold, sortedMembers members⟩

theorem multisigAddress_eq_ok (hsizes : ∀ m ∈ members, m.length = 32) :
    multisigAddress threshold members = .ok address ↔
      (multisigPolicy threshold members).WellFormed ∧
      address = .fromPubkeyBytes (multisigTag :: sha256 (multisigPolicy threshold members).preimage) := by
  have hsorted : ∀ m ∈ (multisigPolicy threshold members).members, m.length = 32 :=
    fun m hm => hsizes m (mem_sortedMembers.mp hm)
  constructor
  · intro h
    obtain ⟨hash, hhash, h⟩ := bind_eq_ok.mp h
    obtain ⟨hp, rfl⟩ := (ThresholdPolicy.policyHash_eq_ok hsorted).mp hhash
    exact ⟨hp, (Except.ok.inj h).symm⟩
  · rintro ⟨hp, rfl⟩
    exact bind_eq_ok.mpr ⟨_, (ThresholdPolicy.policyHash_eq_ok hsorted).mpr ⟨hp, rfl⟩, rfl⟩

/-- **Multisig is exactly M of N.**  At a multisig address a witness passes exactly when it lays out the
address's own policy and one valid signature each of exactly the threshold of members, in their order; and
from valid signatures of that many members, in any order, the writer makes a signature field that passes. -/
theorem multisig_exactly_threshold {P : Type} [Wire P]
    (bech32 : ∀ hrp b, bech32Decode (bech32Encode hrp b) = some (hrp, b))
    (digest : ∀ b, (sha256 b).length = 32)
    (collision : ∀ b, sha256 b = sha256 (multisigPolicy threshold members).preimage →
      b = (multisigPolicy threshold members).preimage)
    (hsizes : ∀ m ∈ members, m.length = 32) (haddress : multisigAddress threshold members = .ok address) :
    (∃ hash, address.pubkeyBytes = .ok (multisigTag :: hash) ∧ ∀ message witness,
      verifyMultisig hash witness message = .ok () ↔
        ∃ entries, (multisigPolicy threshold members).Signs message entries ∧
          witness = multisigWitness (sortedMembers members) entries) ∧
    ∀ (a : Action P) (genesis : Bytes) (signatures : List (Bytes × Bytes)), a.sender = address →
      signatures.length = threshold → (signatures.map Prod.fst).Nodup →
      (∀ s ∈ signatures, s.1 ∈ members ∧ verifyOne s.1 s.2 (a.signingBytes genesis) = .ok ()) →
      ∃ text, multisigSignature threshold members signatures = .ok text ∧
        (a.resigned text).verifySignature genesis = .ok () := by
  obtain ⟨hp, rfl⟩ := (multisigAddress_eq_ok hsizes).mp haddress
  have hkey : (Address.fromPubkeyBytes (multisigTag ::
      sha256 (multisigPolicy threshold members).preimage)).pubkeyBytes = .ok (multisigTag ::
      sha256 (multisigPolicy threshold members).preimage) := Address.pubkeyBytes_eq_ok.mpr (bech32 _ _)
  refine ⟨⟨_, hkey, fun message witness => ThresholdPolicy.verifyMultisig_preimage hp collision⟩, ?_⟩
  intro a genesis signatures hsender hcount hdistinct hsigs
  have hmembers : ∀ s ∈ signatures, s.1 ∈ sortedMembers members :=
    fun s hs => mem_sortedMembers.mpr (hsigs s hs).1
  have hsigns := ThresholdPolicy.signs_multisigEntries hp (a.signingBytes genesis) hcount
    hdistinct hmembers fun s hs => (hsigs s hs).2
  have hhash : policyHash threshold (sortedMembers members) = .ok _ :=
    (ThresholdPolicy.policyHash_eq_ok hp.sizes).mpr ⟨hp, rfl⟩
  refine ⟨_, bind_eq_ok.mpr ⟨_, hhash, bind_eq_ok.mpr ⟨_, indexSignatures_eq_ok hmembers, rfl⟩⟩, ?_⟩
  refine Action.verifySignature_eq_ok.mpr ⟨_, _, multisigTag ::
    sha256 (multisigPolicy threshold members).preimage, rfl, hexDecode_hexEncode _, ?_, ?_⟩
  · rw [Action.resigned, hsender]
    exact hkey
  · have hmultisig : isMultisigKey (multisigTag :: sha256 (multisigPolicy threshold members).preimage) =
        true := by simp [isMultisigKey, digest]
    rw [if_pos hmultisig]
    refine (ThresholdPolicy.verifyMultisig_preimage hp collision).mpr ⟨_, hsigns, ?_⟩
    rw [multisigWitness, hsigns.count]
    rfl

end Addresses

/-! ## Two of three -/

namespace TwoOfThree

def key (n : UInt8) : Bytes := List.replicate 32 n

def members : List Bytes := [key 3, key 1, key 2]

/-- The policy has a digest of its own, and everything else another one. -/
def digest (b : Bytes) : Bytes :=
  if b = (multisigPolicy 2 members).preimage then List.replicate 32 1 else List.replicate 32 0

theorem length_digest (b : Bytes) : (digest b).length = 32 := by
  unfold digest
  split <;> rfl

theorem eq_of_digest {b : Bytes} (h : digest b = digest (multisigPolicy 2 members).preimage) :
    b = (multisigPolicy 2 members).preimage := by
  by_contra hne
  rw [digest, digest, if_neg hne, if_pos rfl] at h
  exact absurd h (by decide)

/-- A key signs with its own byte. -/
@[reducible] def crypto : Crypto :=
  { Plain.crypto fun key _ sig => sig.head? == key.head? with sha256 := digest }

attribute [local instance] crypto Plain.wire

def address : Address := .fromPubkeyBytes (multisigTag :: List.replicate 32 1)

def action : ChainAction := ⟨address, 0, none, .revokeOperator⟩

/-- The third and the first member sign, in that order. -/
def signatures : List (Bytes × Bytes) := [3, 1].map fun n => (key n, List.replicate 64 n)

set_option maxRecDepth 20000 in
/-- Their signatures pass. -/
theorem third_and_first_pass : multisigAddress 2 members = .ok address ∧ ∃ text,
    multisigSignature 2 members signatures = .ok text ∧
      (action.resigned text).verifySignature [] = .ok () := by
  have haddress : multisigAddress 2 members = .ok address := by decide +kernel
  have hsizes : ∀ m ∈ members, m.length = 32 := by decide +kernel
  have hcount : signatures.length = 2 := by decide +kernel
  have hdistinct : (signatures.map Prod.fst).Nodup := by decide +kernel
  have hsigs : ∀ s ∈ signatures, s.1 ∈ members ∧
      verifyOne s.1 s.2 (action.signingBytes []) = .ok () := by decide +kernel
  have hexact := @multisig_exactly_threshold _ 2 members address ActionPayload _ Plain.bech32_roundtrip
    length_digest (fun _ h => eq_of_digest h) hsizes haddress
  exact ⟨haddress, hexact.2 action [] signatures rfl hcount hdistinct hsigs⟩

end TwoOfThree

end Arxium
