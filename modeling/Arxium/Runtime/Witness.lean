import Arxium.Primitives.Canonical
import Arxium.Runtime.Plain

/-!
# Runtime/Witness — how many texts one set of signatures has

A multisig witness lists its policy and exactly `threshold` signatures in ascending order of their
signers, so a set of signatures has one witness.  Its text does not: hex letters come in two cases, and
an account policy reads one message in three modes, whose signers may overlap.

    signatures ──one witness per mode──▸ bytes ──one text without letters──▸ signature field

`action_not_malleable_iff` says that these two are all the freedom there is for someone who holds none of
the keys.  Every witness of a policy starts with `a7`, so its text has a letter.
-/

namespace Arxium

open ReadProg Crypto

/-! ## Pieces of equal length -/

theorem chunksExact_flatten {α : Type} {n : Nat} {pieces : List (List α)}
    (h : ∀ p ∈ pieces, p.length = n) : chunksExact n pieces.length pieces.flatten = pieces := by
  induction pieces with
  | nil => rfl
  | cons p pieces ih =>
    obtain ⟨hp, hrest⟩ := List.forall_mem_cons.mp h
    have hle : n ≤ (p :: pieces).flatten.length := by simp [hp]
    rw [List.length_cons, chunksExact, if_pos hle, List.flatten_cons, List.take_left' hp,
      List.drop_left' hp, ih hrest]

/-- The pieces, when they divide the list. -/
theorem chunksExact_spec {α : Type} {n : Nat} (k : Nat) {l : List α} (h : l.length = n * k) :
    (chunksExact n k l).length = k ∧ (∀ p ∈ chunksExact n k l, p.length = n) ∧
      (chunksExact n k l).flatten = l := by
  induction k generalizing l with
  | zero =>
    obtain rfl := List.eq_nil_of_length_eq_zero (by simpa using h)
    simp [chunksExact]
  | succ k ih =>
    have hle : n ≤ l.length := by rw [h, Nat.mul_succ]; omega
    obtain ⟨hlen, hall, hflat⟩ := ih (show (l.drop n).length = n * k by
      rw [List.length_drop, h, Nat.mul_succ]; omega)
    rw [chunksExact, if_pos hle]
    refine ⟨by simp [hlen], ?_, by simp [hflat]⟩
    exact List.forall_mem_cons.mpr ⟨List.length_take_of_le hle, hall⟩

/-- Lists of pieces of one length are read off their concatenation. -/
theorem flatten_inj {α : Type} {n : Nat} {ps qs : List (List α)} (hp : ∀ p ∈ ps, p.length = n)
    (hq : ∀ q ∈ qs, q.length = n) (hlen : ps.length = qs.length) (h : ps.flatten = qs.flatten) :
    ps = qs := by
  rw [← chunksExact_flatten hp, ← chunksExact_flatten hq, hlen, h]

/-! ## Orders -/

theorem bytesLt_irrefl (b : Bytes) : bytesLt b b = false := by
  induction b with
  | nil => rfl
  | cons x b ih => simp [bytesLt, ih]

theorem bytesLt_trans {a b c : Bytes} (hab : bytesLt a b = true) (hbc : bytesLt b c = true) :
    bytesLt a c = true := by
  induction a generalizing b c with
  | nil =>
    cases b with
    | nil => cases hab
    | cons y b =>
      cases c with
      | nil => cases hbc
      | cons z c => rfl
  | cons x a ih =>
    cases b with
    | nil => cases hab
    | cons y b =>
      cases c with
      | nil => cases hbc
      | cons z c =>
        simp only [bytesLt, Bool.or_eq_true, Bool.and_eq_true, decide_eq_true_eq, beq_iff_eq] at *
        rcases hab with hxy | ⟨rfl, hab⟩ <;> rcases hbc with hyz | ⟨rfl, hbc⟩
        · exact .inl (UInt8.lt_trans hxy hyz)
        · exact .inl hxy
        · exact .inl hyz
        · exact .inr ⟨rfl, ih hab hbc⟩

theorem pairwise_of_ascending {α : Type} {lt : α → α → Bool}
    (htrans : ∀ a b c, lt a b = true → lt b c = true → lt a c = true) {l : List α}
    (h : ascending lt l = true) : l.Pairwise fun a b => lt a b = true := by
  induction l with
  | nil => exact .nil
  | cons a l ih =>
    cases l with
    | nil => exact List.pairwise_singleton _ _
    | cons b l =>
      obtain ⟨hab, hrest⟩ := Bool.and_eq_true_iff.mp h
      have hpair := ih hrest
      refine List.pairwise_cons.mpr ⟨fun c hc => ?_, hpair⟩
      rcases List.mem_cons.mp hc with rfl | hc
      · exact hab
      · exact htrans a b c hab (List.rel_of_pairwise_cons hpair hc)

theorem pairwise_bytesLt {l : List Bytes} (h : ascending bytesLt l = true) :
    l.Pairwise fun a b => bytesLt a b = true :=
  @pairwise_of_ascending _ bytesLt (fun _ _ _ hab hbc => bytesLt_trans hab hbc) l h

/-- Ascending members are distinct. -/
theorem nodup_of_ascending {l : List Bytes} (h : ascending bytesLt l = true) : l.Nodup :=
  (pairwise_bytesLt h).imp fun {a b} hab he => by
    rw [he, bytesLt_irrefl] at hab
    cases hab

/-- …and sorting leaves them. -/
theorem sortedMembers_of_ascending {l : List Bytes} (h : ascending bytesLt l = true) :
    sortedMembers l = l :=
  List.Pairwise.insertionSort_eq ((pairwise_bytesLt h).imp fun hab => by simp [hab])

/-! ## Witnesses -/

theorem sizes_of_verifyOne [Crypto] {key sig message : Bytes}
    (h : verifyOne key sig message = .ok ()) : key.length = 32 ∧ sig.length = 64 := by
  unfold verifyOne at h
  split at h
  · cases h
  · split at h
    · cases h
    · rename_i hsig hkey
      exact ⟨not_not.mp hkey, not_not.mp hsig⟩

/-- The member a witness entry names. -/
def signerIndex (entry : Bytes) : Nat := (entry.headD 0).toNat

/-- The bytes of a witness: threshold and member count, the members, the entries. -/
def multisigWitness (members entries : List Bytes) : Bytes :=
  UInt8.ofNat entries.length :: UInt8.ofNat members.length :: (members.flatten ++ entries.flatten)

/-- The signatures in a witness, each under its key. -/
def witnessSignatures : Bytes → List (Bytes × Bytes)
  | t :: n :: rest =>
    let members := chunksExact 32 n.toNat (rest.take (32 * n.toNat))
    (chunksExact 65 t.toNat (rest.drop (32 * n.toNat))).map fun entry =>
      (members.getD (signerIndex entry) [], entry.tail)
  | _ => []

/-- The entries are one signature each of exactly the threshold of members, in their order. -/
structure ThresholdPolicy.Signs [Crypto] (p : ThresholdPolicy) (message : Bytes)
    (entries : List Bytes) : Prop where
  count : entries.length = p.threshold
  sizes : ∀ e ∈ entries, e.length = 65
  order : entries.Pairwise (signerIndex · < signerIndex ·)
  signed : ∀ e ∈ entries, signerIndex e < p.members.length ∧
    verifyOne (p.members.getD (signerIndex e) []) e.tail message = .ok ()

/-- What the source's types and `policy_hash` ask of a policy. -/
structure ThresholdPolicy.WellFormed (p : ThresholdPolicy) : Prop where
  sizes : ∀ m ∈ p.members, m.length = 32
  members : 1 ≤ p.members.length ∧ p.members.length ≤ maxMultisigMembers
  threshold : 1 ≤ p.threshold ∧ p.threshold ≤ p.members.length
  order : ascending bytesLt p.members = true

/-- What a policy's address commits to. -/
def ThresholdPolicy.preimage (p : ThresholdPolicy) : Bytes :=
  strBytes "arxium-multisig-v1" ++ [UInt8.ofNat p.threshold, UInt8.ofNat p.members.length] ++
    p.members.flatten

theorem byte_inj {m n : Nat} (hm : m < 256) (hn : n < 256) (h : UInt8.ofNat m = UInt8.ofNat n) :
    m = n := by
  have := congrArg UInt8.toNat h
  simpa [Nat.mod_eq_of_lt hm, Nat.mod_eq_of_lt hn] using this

namespace ThresholdPolicy

variable {p q : ThresholdPolicy}

theorem WellFormed.lt (h : p.WellFormed) : p.threshold < 256 ∧ p.members.length < 256 := by
  have := h.members.2
  have := h.threshold.2
  unfold maxMultisigMembers at *
  omega

/-- **A policy is read off what its address commits to.** -/
theorem preimage_inj (hp : p.WellFormed) (hq : q.WellFormed) (h : p.preimage = q.preimage) :
    p = q := by
  have hrest := List.append_cancel_left (by simpa [preimage, List.append_assoc] using h :
    strBytes "arxium-multisig-v1" ++ (UInt8.ofNat p.threshold :: UInt8.ofNat p.members.length ::
      p.members.flatten) = strBytes "arxium-multisig-v1" ++ (UInt8.ofNat q.threshold ::
      UInt8.ofNat q.members.length :: q.members.flatten))
  obtain ⟨ht, hrest⟩ := List.cons.inj hrest
  obtain ⟨hn, hflat⟩ := List.cons.inj hrest
  have hn := byte_inj hp.lt.2 hq.lt.2 hn
  have ht := byte_inj hp.lt.1 hq.lt.1 ht
  have hmembers := flatten_inj hp.sizes hq.sizes hn hflat
  cases p
  cases q
  simp_all

section Verify

variable [Crypto] {message policy witness : Bytes} {es es' : List Bytes}

theorem policyHash_eq_ok (hsizes : ∀ m ∈ p.members, m.length = 32) {hash : Bytes} :
    policyHash p.threshold p.members = .ok hash ↔ p.WellFormed ∧ hash = sha256 p.preimage := by
  unfold policyHash
  by_cases hn : (p.members.isEmpty || p.members.length > maxMultisigMembers) = true
  · rw [if_pos hn]
    refine ⟨fun h => (by cases h), fun ⟨hp, _⟩ => ?_⟩
    have := hp.members
    rcases Bool.or_eq_true_iff.mp hn with h | h
    · rw [List.isEmpty_iff.mp h] at this
      simp at this
    · have := of_decide_eq_true h
      omega
  rw [if_neg hn]
  by_cases ht : (p.threshold == 0 || p.threshold > p.members.length) = true
  · rw [if_pos ht]
    refine ⟨fun h => (by cases h), fun ⟨hp, _⟩ => ?_⟩
    have := hp.threshold
    simp at ht
    omega
  rw [if_neg ht]
  by_cases ho : (!ascending bytesLt p.members) = true
  · rw [if_pos ho]
    refine ⟨fun h => (by cases h), fun ⟨hp, _⟩ => ?_⟩
    rw [hp.order] at ho
    cases ho
  rw [if_neg ho]
  have hp : p.WellFormed := by
    simp at hn ht ho
    refine ⟨hsizes, ⟨List.length_pos_iff.mpr hn.1, hn.2⟩, ⟨by omega, ht.2⟩, ho⟩
  simp only [Except.ok.injEq, hp, true_and]
  exact eq_comm

/-- The signer loop is what `Signs` says, from the last index on. -/
theorem verifySigners_eq_ok {members : List Bytes} {last : Option Nat} :
    verifySigners members message last es = .ok () ↔ (∀ i ∈ last, ∀ e ∈ es, i < signerIndex e) ∧
      es.Pairwise (signerIndex · < signerIndex ·) ∧ ∀ e ∈ es, signerIndex e < members.length ∧
        verifyOne (members.getD (signerIndex e) []) e.tail message = .ok () := by
  induction es generalizing last with
  | nil => simp [verifySigners]
  | cons entry rest ih =>
    rw [verifySigners, guard_eq_ok, bind_eq_ok]
    simp only [ih, List.pairwise_cons, List.forall_mem_cons, Option.mem_def, Option.some.injEq,
      forall_eq']
    have hguard : (¬(decide (members.length ≤ (List.headD entry 0).toNat) ||
        Option.any (fun x => decide ((List.headD entry 0).toNat ≤ x)) last) = true) ↔
        signerIndex entry < members.length ∧ ∀ i, last = some i → i < signerIndex entry := by
      cases last <;> simp [signerIndex]
    constructor
    · rintro ⟨hg, _, hv, hlt, hpair, hall⟩
      obtain ⟨hindex, hlast⟩ := hguard.mp hg
      exact ⟨fun i hi => ⟨hlast i hi, fun e he => (hlast i hi).trans (hlt e he)⟩, ⟨hlt, hpair⟩,
        ⟨hindex, hv⟩, hall⟩
    · rintro ⟨hlast, ⟨hlt, hpair⟩, ⟨hindex, hv⟩, hall⟩
      exact ⟨hguard.mpr ⟨hindex, fun i hi => (hlast i hi).1⟩, (), hv, hlt, hpair, hall⟩

/-- What is left of a witness after its two counts. -/
theorem witness_parts (hp : p.WellFormed) (hs : p.Signs message es) :
    let rest := p.members.flatten ++ es.flatten
    rest.length = 32 * p.members.length + 65 * es.length ∧
      chunksExact 32 p.members.length (rest.take (32 * p.members.length)) = p.members ∧
      chunksExact 65 es.length (rest.drop (32 * p.members.length)) = es := by
  have hmembers : p.members.flatten.length = 32 * p.members.length := by
    rw [List.length_flatten, List.map_congr_left hp.sizes, List.map_const', List.sum_replicate_nat,
      Nat.mul_comm]
  have hentries : es.flatten.length = 65 * es.length := by
    rw [List.length_flatten, List.map_congr_left hs.sizes, List.map_const', List.sum_replicate_nat,
      Nat.mul_comm]
  refine ⟨by rw [List.length_append, hmembers, hentries], ?_, ?_⟩
  · rw [List.take_left' hmembers, chunksExact_flatten hp.sizes]
  · rw [List.drop_left' hmembers, chunksExact_flatten hs.sizes]

/-- The signatures of some entries, each under its key. -/
def signatures (p : ThresholdPolicy) (es : List Bytes) : List (Bytes × Bytes) :=
  es.map fun e => (p.members.getD (signerIndex e) [], e.tail)

theorem witnessSignatures_eq (hp : p.WellFormed) (hs : p.Signs message es) :
    witnessSignatures (multisigWitness p.members es) = p.signatures es := by
  obtain ⟨-, hmembers, hentries⟩ := witness_parts hp hs
  have hes : es.length < 256 := hs.count ▸ hp.lt.1
  have hm : p.members.length < 256 := hp.lt.2
  simp only [witnessSignatures, multisigWitness, UInt8.toNat_ofNat', Nat.reducePow,
    Nat.mod_eq_of_lt hes, Nat.mod_eq_of_lt hm, hmembers, hentries]
  rfl

/-- **A witness is accepted exactly when it is a policy's, with its signatures.** -/
theorem verifyMultisig_eq_ok : verifyMultisig policy witness message = .ok () ↔
    ∃ (p : ThresholdPolicy) (es : List Bytes), p.WellFormed ∧ policy = sha256 p.preimage ∧
      p.Signs message es ∧ witness = multisigWitness p.members es := by
  constructor
  · intro h
    unfold verifyMultisig at h
    split at h
    · rename_i t n rest
      obtain ⟨hlen, h⟩ := guard_eq_ok.mp h
      rw [not_not] at hlen
      obtain ⟨hash, hhash, h⟩ := bind_eq_ok.mp h
      obtain ⟨hpolicy, h⟩ := guard_eq_ok.mp h
      rw [not_not] at hpolicy
      obtain ⟨hn, hmsizes, hmflat⟩ := chunksExact_spec (n := 32) n.toNat
        (l := rest.take (32 * n.toNat)) (by rw [List.length_take, hlen]; omega)
      obtain ⟨ht, hesizes, heflat⟩ := chunksExact_spec (n := 65) t.toNat
        (l := rest.drop (32 * n.toNat)) (by rw [List.length_drop, hlen]; omega)
      obtain ⟨-, horder, hsigned⟩ := verifySigners_eq_ok.mp h
      obtain ⟨hp, rfl⟩ := (policyHash_eq_ok (p := ⟨t.toNat, _⟩) hmsizes).mp hhash
      refine ⟨_, _, hp, hpolicy.symm, ⟨ht, hesizes, horder, hsigned⟩, ?_⟩
      rw [multisigWitness, ht, hn, hmflat, heflat, List.take_append_drop, UInt8.ofNat_toNat,
        UInt8.ofNat_toNat]
    · cases h
  · rintro ⟨p, es, hp, rfl, hs, rfl⟩
    obtain ⟨hlen, hmembers, hentries⟩ := witness_parts hp hs
    have hes : es.length < 256 := hs.count ▸ hp.lt.1
    have hm : p.members.length < 256 := hp.lt.2
    have hhash : policyHash es.length p.members = .ok (sha256 p.preimage) := by
      rw [hs.count]
      exact (policyHash_eq_ok hp.sizes).mpr ⟨hp, rfl⟩
    unfold verifyMultisig multisigWitness
    simp only [UInt8.toNat_ofNat', Nat.reducePow, Nat.mod_eq_of_lt hes, Nat.mod_eq_of_lt hm]
    refine guard_eq_ok.mpr ⟨not_not.mpr hlen,
      bind_eq_ok.mpr ⟨sha256 p.preimage, ?_, guard_eq_ok.mpr ⟨?_, ?_⟩⟩⟩
    · rw [hmembers, hhash]
    · exact not_not.mpr rfl
    · rw [hmembers, hentries]
      exact verifySigners_eq_ok.mpr ⟨fun i hi => (by cases hi), hs.order, hs.signed⟩

/-- **Under a policy's address only the policy's own witnesses pass**, if nothing else has its hash. -/
theorem verifyMultisig_preimage (hp : p.WellFormed)
    (hash : ∀ b, sha256 b = sha256 p.preimage → b = p.preimage) :
    verifyMultisig (sha256 p.preimage) witness message = .ok () ↔
      ∃ es, p.Signs message es ∧ witness = multisigWitness p.members es := by
  rw [verifyMultisig_eq_ok]
  constructor
  · rintro ⟨q, es, hq, hhash, hs, rfl⟩
    obtain rfl := preimage_inj hq hp (hash _ hhash.symm)
    exact ⟨es, hs, rfl⟩
  · rintro ⟨es, hs, rfl⟩
    exact ⟨p, es, hp, rfl, hs, rfl⟩

/-! ### One witness for a set of signatures -/

omit [Crypto] in
theorem eq_of_signerIndex {e e' : Bytes} (he : e.length = 65) (he' : e'.length = 65)
    (hi : signerIndex e = signerIndex e') (ht : e.tail = e'.tail) : e = e' := by
  match e, e', he, he' with
  | x :: e, y :: e', _, _ =>
    obtain rfl : x = y := UInt8.toNat_inj.mp hi
    rw [show e = e' from ht]

/-- **Whoever has only these signatures has only this witness.** -/
theorem Signs.eq_of_subset (hp : p.WellFormed) (hs : p.Signs message es)
    (hs' : p.Signs message es') (hsub : p.signatures es' ⊆ p.signatures es) : es' = es := by
  have hnodup := nodup_of_ascending hp.order
  have hsubset : es' ⊆ es := by
    intro e' he'
    obtain ⟨e, he, heq⟩ := List.mem_map.mp (hsub (List.mem_map_of_mem he'))
    obtain ⟨hkey, htail⟩ := Prod.mk.inj heq
    rw [List.getD_eq_getElem _ _ (hs.signed e he).1, List.getD_eq_getElem _ _ (hs'.signed e' he').1]
      at hkey
    have hindex := (hnodup.getElem_inj_iff).mp hkey
    rwa [← eq_of_signerIndex (hs.sizes e he) (hs'.sizes e' he') hindex htail]
  have hdistinct : es'.Nodup := hs'.order.imp fun hlt he => by
    rw [he] at hlt
    exact lt_irrefl _ hlt
  have hperm := (List.subperm_of_subset hdistinct hsubset).perm_of_length_le
    (by rw [hs.count, hs'.count])
  exact hperm.eq_of_pairwise (fun a b _ _ hab hba => absurd hab (lt_asymm hba)) hs'.order hs.order

/-- At least the threshold of the members are among the keys. -/
def SignedBy (p : ThresholdPolicy) (keys : List Bytes) : Prop :=
  p.threshold ≤ (p.members.filter (· ∈ keys)).length

instance (p : ThresholdPolicy) (keys : List Bytes) : Decidable (p.SignedBy keys) :=
  inferInstanceAs (Decidable (_ ≤ _))

theorem Signs.signedBy (hp : p.WellFormed) (hs : p.Signs message es) {sigs : List (Bytes × Bytes)}
    (hsub : p.signatures es ⊆ sigs) : p.SignedBy (sigs.map Prod.fst) := by
  have hnodup := nodup_of_ascending hp.order
  have hdistinct : (es.map fun e => p.members.getD (signerIndex e) []).Nodup := by
    refine List.pairwise_map.mpr (hs.order.imp_of_mem fun {a b} ha hb hlt he => ?_)
    rw [List.getD_eq_getElem _ _ (hs.signed a ha).1, List.getD_eq_getElem _ _ (hs.signed b hb).1] at he
    exact hlt.ne ((hnodup.getElem_inj_iff).mp he)
  have hsubset : (es.map fun e => p.members.getD (signerIndex e) []) ⊆
      p.members.filter (· ∈ sigs.map Prod.fst) := by
    intro k hk
    obtain ⟨e, he, rfl⟩ := List.mem_map.mp hk
    refine List.mem_filter.mpr ⟨?_, decide_eq_true ?_⟩
    · rw [List.getD_eq_getElem _ _ (hs.signed e he).1]
      exact List.getElem_mem _
    · exact List.mem_map_of_mem (hsub (List.mem_map_of_mem he))
  have hle := (List.subperm_of_subset hdistinct hsubset).length_le
  rwa [List.length_map, hs.count] at hle

/-- **Signatures of enough members make a witness.** -/
theorem exists_signs (hp : p.WellFormed) {sigs : List (Bytes × Bytes)}
    (hsigs : ∀ s ∈ sigs, verifyOne s.1 s.2 message = .ok ())
    (h : p.SignedBy (sigs.map Prod.fst)) :
    ∃ es, p.Signs message es ∧ p.signatures es ⊆ sigs := by
  have hpick : ∀ k : Bytes, ∃ sig, k ∈ sigs.map Prod.fst → (k, sig) ∈ sigs := by
    intro k
    by_cases hk : k ∈ sigs.map Prod.fst
    · obtain ⟨⟨_, sig⟩, hs, rfl⟩ := List.mem_map.mp hk
      exact ⟨sig, fun _ => hs⟩
    · exact ⟨[], fun hk' => absurd hk' hk⟩
  choose sigOf hsigOf using hpick
  let key := fun i => p.members.getD i []
  let indices := ((List.range p.members.length).filter (key · ∈ sigs.map Prod.fst)).take p.threshold
  have hmem : ∀ i ∈ indices, i < p.members.length ∧ key i ∈ sigs.map Prod.fst := by
    intro i hi
    obtain ⟨hi, hk⟩ := List.mem_filter.mp (List.mem_of_mem_take hi)
    exact ⟨List.mem_range.mp hi, of_decide_eq_true hk⟩
  have hrange : (List.range p.members.length).map key = p.members := by
    refine List.ext_getElem (by simp) fun i _ hi => ?_
    rw [List.getElem_map, List.getElem_range]
    exact List.getD_eq_getElem _ _ hi
  have hcount : indices.length = p.threshold := by
    rw [List.length_take, min_eq_left]
    refine h.trans_eq ?_
    conv_lhs => rw [← hrange]
    rw [List.filter_map, List.length_map]
    rfl
  have hindex : ∀ i ∈ indices, signerIndex (UInt8.ofNat i :: sigOf (key i)) = i := by
    intro i hi
    have := (hmem i hi).1.trans hp.lt.2
    simp [signerIndex, Nat.mod_eq_of_lt this]
  have hok : ∀ i ∈ indices, (key i, sigOf (key i)) ∈ sigs := fun i hi => hsigOf _ (hmem i hi).2
  refine ⟨indices.map fun i => UInt8.ofNat i :: sigOf (key i), ⟨?_, ?_, ?_, ?_⟩, ?_⟩
  · rw [List.length_map, hcount]
  · intro e he
    obtain ⟨i, hi, rfl⟩ := List.mem_map.mp he
    rw [List.length_cons, (sizes_of_verifyOne (hsigs _ (hok i hi))).2]
  · refine List.pairwise_map.mpr ?_
    have hsorted : indices.Pairwise (· < ·) := (List.pairwise_lt_range.filter _).take
    refine hsorted.imp_of_mem fun {a b} ha hb hlt => ?_
    rwa [hindex a ha, hindex b hb]
  · intro e he
    obtain ⟨i, hi, rfl⟩ := List.mem_map.mp he
    rw [hindex i hi]
    exact ⟨(hmem i hi).1, hsigs _ (hok i hi)⟩
  · intro s hs
    obtain ⟨e, he, rfl⟩ := List.mem_map.mp hs
    obtain ⟨i, hi, rfl⟩ := List.mem_map.mp he
    rw [hindex i hi]
    exact hok i hi

end Verify

end ThresholdPolicy

/-! ## Actions -/

/-- Who signs for an account with a policy. -/
inductive WitnessMode
  | owners
  | session
  | guardians
deriving DecidableEq, Repr

namespace WitnessMode

def byte : WitnessMode → UInt8
  | owners => 0
  | session => 1
  | guardians => 2

theorem byte_injective : Function.Injective byte := by
  intro m m' h
  cases m <;> cases m' <;> first | rfl | cases h

/-- The signatures in a witness of this mode. -/
def signatures : WitnessMode → Bytes → List (Bytes × Bytes)
  | session, w => [(w.take 32, w.drop 32)]
  | _, w => witnessSignatures w

end WitnessMode

/-- The source's keys are arrays of 32 bytes. -/
def AccountPolicy.Sized (policy : AccountPolicy) : Prop :=
  (∀ m ∈ policy.owners.members, m.length = 32) ∧
    ∀ r, policy.recovery = some r → ∀ m ∈ r.guardians.members, m.length = 32

/-- The mode some keys could sign in. -/
def AccountPolicy.SignedIn (policy : AccountPolicy) (keys : List Bytes) : WitnessMode → Prop
  | .owners => policy.owners.SignedBy keys
  | .session => ∃ s ∈ policy.sessions, s.publicKey ∈ keys
  | .guardians => ∃ r, policy.recovery = some r ∧ r.guardians.SignedBy keys

section Actions

variable [Crypto] {P : Type} [Wire P]

/-- The key of a multisig. -/
def isMultisigKey (key : Bytes) : Bool := key.length == 33 && key.head? == some multisigTag

/-- The signatures an action carries, each under its key. -/
def Action.signatures (a : Action P) (account : Option ProgrammableAccount) : List (Bytes × Bytes) :=
  match a.signature.bind hexDecode, account with
  | none, _ => []
  | some bytes, none =>
    match a.sender.pubkeyBytes with
    | .ok key => if isMultisigKey key then witnessSignatures bytes else [(key, bytes)]
    | .error _ => []
  | some (_ :: 1 :: w), some _ => WitnessMode.signatures .session w
  | some (_ :: _ :: w), some _ => witnessSignatures w
  | some _, some _ => []

/-- What a policy's mode asks of a witness. -/
def AccountPolicy.Accepts (policy : AccountPolicy) (message : Bytes) : WitnessMode → Bytes → Prop
  | .owners, w => Action.verifyThreshold policy.owners w message = .ok ()
  | .session, w => w.length = 96 ∧ (∃ s ∈ policy.sessions, s.publicKey = w.take 32) ∧
      verifyOne (w.take 32) (w.drop 32) message = .ok ()
  | .guardians, w => ∃ r, policy.recovery = some r ∧
      Action.verifyThreshold r.guardians w message = .ok ()

/-- The modes in which the action's own signers could sign are the one it is signed in. -/
def Action.OneMode (a : Action P) (account : Option ProgrammableAccount) : Prop :=
  ∀ acc, account = some acc → ∀ mode, acc.policy.SignedIn ((a.signatures account).map Prod.fst) mode →
    ∃ text w, a.signature = some text ∧ hexDecode text = some (0xa7 :: mode.byte :: w)

variable {a : Action P} {genesis : Bytes}

theorem Action.verifySignature_eq_ok : a.verifySignature genesis = .ok () ↔
    ∃ text bytes key, a.signature = some text ∧ hexDecode text = some bytes ∧
      a.sender.pubkeyBytes = .ok key ∧
      (if isMultisigKey key then verifyMultisig key.tail bytes (a.signingBytes genesis) = .ok ()
        else verifyOne key bytes (a.signingBytes genesis) = .ok ()) := by
  constructor
  · intro h
    unfold verifySignature at h
    split at h
    · rename_i text htext
      split at h
      · rename_i bytes hbytes
        obtain ⟨key, hkey, h⟩ := bind_eq_ok.mp h
        refine ⟨text, bytes, key, htext, hbytes, mapError_eq_ok.mp hkey, ?_⟩
        change (if isMultisigKey key = true then _ else _) = _ at h
        split at h <;> rename_i hm <;> simp only [hm] <;> exact h
      · cases h
    · cases h
  · rintro ⟨text, bytes, key, htext, hbytes, hkey, h⟩
    unfold verifySignature
    simp only [htext, hbytes]
    refine bind_eq_ok.mpr ⟨key, mapError_eq_ok.mpr hkey, ?_⟩
    change (if isMultisigKey key = true then _ else _) = _
    split at h <;> rename_i hm <;> simp only [hm] <;> exact h

theorem Action.verifyAccountSignature_some {acc : ProgrammableAccount} :
    (∃ auth, a.verifyAccountSignature (some acc) genesis = .ok auth) ↔
      acc.policy.validate = .ok () ∧ validateAccountAddress a.sender = .ok () ∧
        ∃ text mode w, a.signature = some text ∧ hexDecode text = some (0xa7 :: mode.byte :: w) ∧
          acc.policy.Accepts (a.signingBytes genesis) mode w := by
  constructor
  · rintro ⟨auth, h⟩
    obtain ⟨_, hvalid, h⟩ := bind_eq_ok.mp h
    obtain ⟨_, haddress, h⟩ := bind_eq_ok.mp h
    refine ⟨hvalid, haddress, ?_⟩
    split at h
    · rename_i text htext
      split at h
      · rename_i bytes hbytes
        split at h
        · obtain ⟨_, hw, -⟩ := bind_eq_ok.mp h
          exact ⟨text, .owners, _, htext, hbytes, hw⟩
        · obtain ⟨hlen, h⟩ := guard_eq_ok.mp h
          split at h
          · cases h
          · rename_i i hi
            obtain ⟨_, hw, -⟩ := bind_eq_ok.mp h
            refine ⟨text, .session, _, htext, hbytes, not_not.mp hlen, ?_, hw⟩
            obtain ⟨hlt, hkey, -⟩ := List.findIdx?_eq_some_iff_getElem.mp hi
            exact ⟨_, List.getElem_mem hlt, eq_of_beq hkey⟩
        · split at h
          · cases h
          · rename_i r hr
            obtain ⟨_, hw, -⟩ := bind_eq_ok.mp h
            exact ⟨text, .guardians, _, htext, hbytes, r, hr, hw⟩
        · cases h
      · cases h
    · cases h
  · rintro ⟨hvalid, haddress, text, mode, w, htext, hbytes, hw⟩
    unfold verifyAccountSignature
    cases mode with
    | owners =>
      refine ⟨.owner, bind_eq_ok.mpr ⟨(), hvalid, bind_eq_ok.mpr ⟨(), haddress, ?_⟩⟩⟩
      simp only [htext, hbytes, WitnessMode.byte]
      exact bind_eq_ok.mpr ⟨(), hw, rfl⟩
    | session =>
      obtain ⟨hlen, ⟨s, hs, hkey⟩, hw⟩ := hw
      obtain ⟨i, hi⟩ : ∃ i, acc.policy.sessions.findIdx? (·.publicKey == w.take 32) = some i := by
        refine Option.isSome_iff_exists.mp ?_
        rw [List.findIdx?_isSome, List.any_eq_true]
        exact ⟨s, hs, beq_iff_eq.mpr hkey⟩
      refine ⟨.session i, bind_eq_ok.mpr ⟨(), hvalid, bind_eq_ok.mpr ⟨(), haddress, ?_⟩⟩⟩
      simp only [htext, hbytes, WitnessMode.byte]
      refine guard_eq_ok.mpr ⟨not_not.mpr hlen, ?_⟩
      simp only [hi]
      exact bind_eq_ok.mpr ⟨(), hw, rfl⟩
    | guardians =>
      obtain ⟨r, hr, hw⟩ := hw
      refine ⟨.guardian, bind_eq_ok.mpr ⟨(), hvalid, bind_eq_ok.mpr ⟨(), haddress, ?_⟩⟩⟩
      simp only [htext, hbytes, WitnessMode.byte, hr]
      exact bind_eq_ok.mpr ⟨(), hw, rfl⟩

/-! ### What a mode accepts -/

theorem ThresholdPolicy.wellFormed_of_validate {p : ThresholdPolicy}
    (hsizes : ∀ m ∈ p.members, m.length = 32) (h : p.validate = .ok ()) : p.WellFormed := by
  obtain ⟨horder, h⟩ := guard_eq_ok.mp h
  obtain ⟨address, haddress, -⟩ := bind_eq_ok.mp h
  obtain ⟨hash, hhash, -⟩ := bind_eq_ok.mp haddress
  rw [sortedMembers_of_ascending (by simpa using horder)] at hhash
  exact ((policyHash_eq_ok hsizes).mp hhash).1

theorem ThresholdPolicy.verifyThreshold_eq_ok (laws : Crypto.Laws) {p : ThresholdPolicy}
    (hp : p.WellFormed) {w message : Bytes} : Action.verifyThreshold p w message = .ok () ↔
      ∃ es, p.Signs message es ∧ w = multisigWitness p.members es := by
  have hhash : policyHash p.threshold (sortedMembers p.members) = .ok (sha256 p.preimage) := by
    rw [sortedMembers_of_ascending hp.order]
    exact (policyHash_eq_ok hp.sizes).mpr ⟨hp, rfl⟩
  have hverify : Action.verifyThreshold p w message = verifyMultisig (sha256 p.preimage) w message := by
    have hbytes : (Address.fromPubkeyBytes (multisigTag :: sha256 p.preimage)).pubkeyBytes =
        .ok (multisigTag :: sha256 p.preimage) :=
      Address.pubkeyBytes_eq_ok.mpr (laws.bech32_roundtrip _ _)
    unfold Action.verifyThreshold multisigAddress
    rw [hhash]
    change ((Address.fromPubkeyBytes _).pubkeyBytes.mapError _ >>= _) = _
    rw [hbytes]
    rfl
  rw [hverify, verifyMultisig_preimage hp fun _ h => laws.sha256_injective h]

/-- A policy whose thresholds are well formed. -/
structure AccountPolicy.WellFormed (policy : AccountPolicy) : Prop where
  owners : policy.owners.WellFormed
  guardians : ∀ r, policy.recovery = some r → r.guardians.WellFormed

theorem AccountPolicy.wellFormed_of_validate {policy : AccountPolicy} (hsized : policy.Sized)
    (h : policy.validate = .ok ()) : policy.WellFormed := by
  obtain ⟨_, howners, h⟩ := bind_eq_ok.mp h
  refine ⟨ThresholdPolicy.wellFormed_of_validate hsized.1 howners, fun r hr => ?_⟩
  obtain ⟨-, h⟩ := guard_eq_ok.mp h
  obtain ⟨_, -, h⟩ := bind_eq_ok.mp h
  have htail : ∃ c : Bool, (do
      validateSessions [] policy.sessions
      if c then .error (.badMultisig "session keys require a native spending limit to bound fees")
      r.guardians.validate
      if r.delayBlocks == 0 then .error (.badMultisig "recovery delay must be positive")) =
        (.ok () : Except SignatureError Unit) := by
    refine ⟨!policy.sessions.isEmpty && !policy.limits.any (·.asset == .native), ?_⟩
    simp only [hr] at h
    cases hrecipients : policy.recipients with
    | none =>
      simp only [hrecipients] at h
      exact h
    | some v =>
      simp only [hrecipients] at h
      obtain ⟨_, -, h⟩ := bind_eq_ok.mp h
      exact h
  obtain ⟨c, htail⟩ := htail
  obtain ⟨_, -, h⟩ := bind_eq_ok.mp htail
  obtain ⟨-, h⟩ := guard_eq_ok.mp h
  obtain ⟨_, hguardians, -⟩ := bind_eq_ok.mp h
  exact ThresholdPolicy.wellFormed_of_validate (hsized.2 r hr) hguardians

namespace AccountPolicy

variable {policy : AccountPolicy} {message w w' : Bytes} {mode : WitnessMode}
  {sigs : List (Bytes × Bytes)}

omit [Crypto] in
theorem signatures_of_ne_session (h : mode ≠ .session) : mode.signatures w = witnessSignatures w := by
  cases mode <;> first | rfl | exact absurd rfl h

/-- A mode with a threshold accepts that policy's witnesses. -/
theorem accepts_iff (laws : Crypto.Laws) (hwf : policy.WellFormed) :
    policy.Accepts message mode w ↔
      (mode = .session ∧ ∃ s ∈ policy.sessions, ∃ sig, verifyOne s.publicKey sig message = .ok () ∧
        w = s.publicKey ++ sig) ∨
      ∃ p es, ((mode = .owners ∧ p = policy.owners) ∨
        (mode = .guardians ∧ ∃ r, policy.recovery = some r ∧ p = r.guardians)) ∧ p.WellFormed ∧
        p.Signs message es ∧ w = multisigWitness p.members es := by
  cases mode with
  | owners =>
    rw [Accepts, ThresholdPolicy.verifyThreshold_eq_ok laws hwf.owners]
    constructor
    · rintro ⟨es, hs, hw⟩
      exact .inr ⟨_, es, .inl ⟨rfl, rfl⟩, hwf.owners, hs, hw⟩
    · rintro (⟨hm, -⟩ | ⟨p, es, ⟨-, rfl⟩ | ⟨hm, -⟩, -, hs, hw⟩)
      · cases hm
      · exact ⟨es, hs, hw⟩
      · cases hm
  | guardians =>
    constructor
    · rintro ⟨r, hr, hw⟩
      have hp := hwf.guardians r hr
      obtain ⟨es, hs, hw⟩ := (ThresholdPolicy.verifyThreshold_eq_ok laws hp).mp hw
      exact .inr ⟨_, es, .inr ⟨rfl, r, hr, rfl⟩, hp, hs, hw⟩
    · rintro (⟨hm, -⟩ | ⟨p, es, ⟨hm, -⟩ | ⟨-, r, hr, rfl⟩, hp, hs, hw⟩)
      · cases hm
      · cases hm
      · exact ⟨r, hr, (ThresholdPolicy.verifyThreshold_eq_ok laws hp).mpr ⟨es, hs, hw⟩⟩
  | session =>
    constructor
    · rintro ⟨-, ⟨s, hs, hkey⟩, hv⟩
      refine .inl ⟨rfl, s, hs, w.drop 32, hkey ▸ hv, ?_⟩
      rw [hkey, List.take_append_drop]
    · rintro (⟨-, s, hs, sig, hv, rfl⟩ | ⟨p, es, ⟨hm, -⟩ | ⟨hm, -⟩, -⟩)
      · obtain ⟨hkey, hsig⟩ := sizes_of_verifyOne hv
        refine ⟨by rw [List.length_append, hkey, hsig], ⟨s, hs, ?_⟩, ?_⟩
        · rw [List.take_left' hkey]
        · rwa [List.take_left' hkey, List.drop_left' hkey]
      · cases hm
      · cases hm

/-- The signatures in an accepted witness verify. -/
theorem Accepts.verifyOne (laws : Crypto.Laws) (hwf : policy.WellFormed)
    (h : policy.Accepts message mode w) :
    ∀ s ∈ mode.signatures w, verifyOne s.1 s.2 message = .ok () := by
  rcases (accepts_iff laws hwf).mp h with ⟨rfl, -⟩ | ⟨p, es, hmode, hp, hs, rfl⟩
  · exact List.forall_mem_singleton.mpr h.2.2
  · have hne : mode ≠ .session := by rintro rfl; simp at hmode
    rw [signatures_of_ne_session hne, ThresholdPolicy.witnessSignatures_eq hp hs]
    intro s hmem
    obtain ⟨e, he, rfl⟩ := List.mem_map.mp hmem
    exact (hs.signed e he).2

/-- A witness made of some signatures is in a mode their keys sign in. -/
theorem Accepts.signedIn (laws : Crypto.Laws) (hwf : policy.WellFormed)
    (h : policy.Accepts message mode w) (hsub : mode.signatures w ⊆ sigs) :
    policy.SignedIn (sigs.map Prod.fst) mode := by
  rcases (accepts_iff laws hwf).mp h with ⟨rfl, -⟩ | ⟨p, es, hmode, hp, hs, rfl⟩
  · obtain ⟨-, ⟨s, hs, hkey⟩, -⟩ := h
    refine ⟨s, hs, ?_⟩
    rw [hkey]
    exact List.mem_map_of_mem (hsub (List.mem_singleton.mpr rfl))
  · have hne : mode ≠ .session := by rintro rfl; simp at hmode
    rw [signatures_of_ne_session hne, ThresholdPolicy.witnessSignatures_eq hp hs] at hsub
    have hsigned := hs.signedBy hp hsub
    rcases hmode with ⟨rfl, rfl⟩ | ⟨rfl, r, hr, rfl⟩
    · exact hsigned
    · exact ⟨r, hr, hsigned⟩

/-- **One witness per mode and set of signatures.** -/
theorem Accepts.eq_of_subset (laws : Crypto.Laws) (hwf : policy.WellFormed)
    (h : policy.Accepts message mode w) (h' : policy.Accepts message mode w')
    (hsub : mode.signatures w' ⊆ mode.signatures w) : w' = w := by
  rcases (accepts_iff laws hwf).mp h with ⟨rfl, -⟩ | ⟨p, es, hmode, hp, hs, rfl⟩
  · obtain ⟨hkey, hsig⟩ := Prod.mk.inj (List.mem_singleton.mp (hsub (List.mem_singleton.mpr rfl)))
    rw [← List.take_append_drop 32 w', hkey, hsig, List.take_append_drop]
  · have hne : mode ≠ .session := by rintro rfl; simp at hmode
    rcases (accepts_iff laws hwf).mp h' with ⟨hm, -⟩ | ⟨p', es', hmode', hp', hs', rfl⟩
    · exact absurd hm hne
    obtain rfl : p' = p := by
      rcases hmode with ⟨rfl, rfl⟩ | ⟨rfl, r, hr, rfl⟩
      · rcases hmode' with ⟨-, rfl⟩ | ⟨hm, -⟩
        · rfl
        · cases hm
      · rcases hmode' with ⟨hm, -⟩ | ⟨-, r', hr', rfl⟩
        · cases hm
        · rw [Option.some.inj (hr'.symm.trans hr)]
    rw [signatures_of_ne_session hne, signatures_of_ne_session hne,
      ThresholdPolicy.witnessSignatures_eq hp hs, ThresholdPolicy.witnessSignatures_eq hp hs'] at hsub
    rw [hs.eq_of_subset hp hs' hsub]

/-- **Where the keys of some signatures can sign, the signatures make a witness.** -/
theorem exists_accepts (laws : Crypto.Laws) (hwf : policy.WellFormed)
    (hsigs : ∀ s ∈ sigs, Arxium.verifyOne s.1 s.2 message = .ok ())
    (h : policy.SignedIn (sigs.map Prod.fst) mode) :
    ∃ w, policy.Accepts message mode w ∧ mode.signatures w ⊆ sigs := by
  have hthreshold : ∀ p : ThresholdPolicy, p.WellFormed → p.SignedBy (sigs.map Prod.fst) →
      ∃ es, p.Signs message es ∧ witnessSignatures (multisigWitness p.members es) ⊆ sigs := by
    intro p hp hsigned
    obtain ⟨es, hs, hsub⟩ := ThresholdPolicy.exists_signs hp hsigs hsigned
    exact ⟨es, hs, by rwa [ThresholdPolicy.witnessSignatures_eq hp hs]⟩
  cases mode with
  | owners =>
    obtain ⟨es, hs, hsub⟩ := hthreshold _ hwf.owners h
    exact ⟨_, (accepts_iff laws hwf).mpr (.inr ⟨_, es, .inl ⟨rfl, rfl⟩, hwf.owners, hs, rfl⟩), hsub⟩
  | guardians =>
    obtain ⟨r, hr, h⟩ := h
    have hp := hwf.guardians r hr
    obtain ⟨es, hs, hsub⟩ := hthreshold _ hp h
    exact ⟨_, (accepts_iff laws hwf).mpr (.inr ⟨_, es, .inr ⟨rfl, r, hr, rfl⟩, hp, hs, rfl⟩), hsub⟩
  | session =>
    obtain ⟨s, hs, hkey⟩ := h
    obtain ⟨⟨key, sig⟩, hmem, rfl⟩ := List.mem_map.mp hkey
    have hv := hsigs _ hmem
    refine ⟨s.publicKey ++ sig, (accepts_iff laws hwf).mpr (.inl ⟨rfl, s, hs, sig, hv, rfl⟩), ?_⟩
    have hlen := (sizes_of_verifyOne hv).1
    rw [WitnessMode.signatures, List.take_left' hlen, List.drop_left' hlen]
    exact List.cons_subset.mpr ⟨hmem, List.nil_subset _⟩

end AccountPolicy

/-! ### Other texts -/

/-- The same request under another signature field. -/
def Action.resigned (a : Action P) (text : String) : Action P := { a with signature := some text }

omit [Wire P] in
theorem Action.signatures_policy {acc : ProgrammableAccount} {text : String} {mode : WitnessMode}
    {w : Bytes} (htext : a.signature = some text)
    (hbytes : hexDecode text = some (0xa7 :: mode.byte :: w)) :
    a.signatures (some acc) = mode.signatures w := by
  unfold signatures
  rw [htext, Option.bind_some, hbytes]
  cases mode <;> rfl

/-- A plain sender's text: its bytes are pinned by its signatures. -/
theorem Action.bytes_unique (laws : Crypto.Laws) {text text' : String}
    (htext : a.signature = some text) (h : a.verifySignature genesis = .ok ())
    (h' : (a.resigned text').verifySignature genesis = .ok ())
    (hsub : (a.resigned text').signatures none ⊆ a.signatures none) :
    hexDecode text' = hexDecode text := by
  obtain ⟨_, bytes, key, ht, hbytes, hkey, h⟩ := verifySignature_eq_ok.mp h
  obtain rfl := Option.some.inj (htext.symm.trans ht)
  obtain ⟨_, bytes', key', ht', hbytes', hkey', h'⟩ := verifySignature_eq_ok.mp h'
  obtain rfl : text' = _ := Option.some.inj ht'
  obtain rfl : key = key' := Except.ok.inj (hkey.symm.trans hkey')
  have hsigs : a.signatures none =
      if isMultisigKey key then witnessSignatures bytes else [(key, bytes)] := by
    simp [signatures, htext, hbytes, hkey]
  have hsigs' : (a.resigned text').signatures none =
      if isMultisigKey key then witnessSignatures bytes' else [(key, bytes')] := by
    simp [signatures, resigned, hbytes', hkey]
  rw [hsigs, hsigs'] at hsub
  rw [hbytes, hbytes']
  cases hm : isMultisigKey key with
  | false =>
    simp only [hm, Bool.false_eq_true, if_false] at hsub
    exact congrArg some (Prod.mk.inj (List.mem_singleton.mp (hsub (List.mem_singleton.mpr rfl)))).2
  | true =>
    simp only [hm, if_true] at hsub h h'
    obtain ⟨p, es, hp, hhash, hs, rfl⟩ := ThresholdPolicy.verifyMultisig_eq_ok.mp h
    obtain ⟨q, es', hq, hhash', hs', rfl⟩ := ThresholdPolicy.verifyMultisig_eq_ok.mp h'
    obtain rfl := ThresholdPolicy.preimage_inj hp hq (laws.sha256_injective (hhash.symm.trans hhash'))
    rw [ThresholdPolicy.witnessSignatures_eq hp hs, ThresholdPolicy.witnessSignatures_eq hp hs'] at hsub
    rw [hs.eq_of_subset hp hs' hsub]

/-- Another text of the same bytes passes, with the same signatures. -/
theorem Action.verify_congr {account : Option ProgrammableAccount} {auth : PolicyAuthorization}
    {text text' : String} (htext : a.signature = some text) (hbytes : hexDecode text' = hexDecode text)
    (h : a.verifyAccountSignature account genesis = .ok auth) :
    (a.resigned text').verifyAccountSignature account genesis = .ok auth ∧
      (a.resigned text').signatures account = a.signatures account := by
  constructor
  · rw [← h]
    unfold verifyAccountSignature verifySignature
    simp only [resigned, htext, hbytes]
    rfl
  · unfold signatures
    simp only [resigned, htext, Option.bind_some, hbytes]

theorem Action.exists_bytes {account : Option ProgrammableAccount} {auth : PolicyAuthorization}
    (h : a.verifyAccountSignature account genesis = .ok auth) :
    ∃ text bytes, a.signature = some text ∧ hexDecode text = some bytes := by
  cases account with
  | none =>
    obtain ⟨_, h, -⟩ := bind_eq_ok.mp h
    obtain ⟨text, bytes, _, ht, hb, -⟩ := verifySignature_eq_ok.mp h
    exact ⟨text, bytes, ht, hb⟩
  | some acc =>
    obtain ⟨-, -, text, mode, w, ht, hb, -⟩ := verifyAccountSignature_some.mp ⟨auth, h⟩
    exact ⟨text, _, ht, hb⟩

/-- The bytes are the only ones that pass if the signers sign in one mode. -/
theorem Action.OneMode.bytes_eq (laws : Crypto.Laws) {account : Option ProgrammableAccount}
    {auth auth' : PolicyAuthorization} {text : String}
    (hsized : ∀ acc, account = some acc → acc.policy.Sized)
    (h : a.verifyAccountSignature account genesis = .ok auth) (hone : a.OneMode account)
    (hpass : (a.resigned text).verifyAccountSignature account genesis = .ok auth')
    (hsub : (a.resigned text).signatures account ⊆ a.signatures account) :
    hexDecode text = a.signature.bind hexDecode := by
  cases account with
  | none =>
    obtain ⟨_, hv, -⟩ := bind_eq_ok.mp h
    obtain ⟨_, hv', -⟩ := bind_eq_ok.mp hpass
    obtain ⟨t, -, -, ht, -⟩ := verifySignature_eq_ok.mp hv
    rw [bytes_unique laws ht hv hv' hsub, ht, Option.bind_some]
  | some acc =>
    obtain ⟨hvalid, -, t, mode, w, ht, hb, haccepts⟩ := verifyAccountSignature_some.mp ⟨auth, h⟩
    obtain ⟨-, -, t', mode', w', ht', hb', haccepts'⟩ :=
      verifyAccountSignature_some.mp ⟨auth', hpass⟩
    obtain rfl : text = t' := Option.some.inj ht'
    have hwf := AccountPolicy.wellFormed_of_validate (hsized acc rfl) hvalid
    rw [signatures_policy rfl hb'] at hsub
    obtain ⟨t₂, w₂, ht₂, hb₂⟩ := hone acc rfl mode' (haccepts'.signedIn laws hwf hsub)
    obtain rfl := Option.some.inj (ht.symm.trans ht₂)
    have hcons := Option.some.inj (hb.symm.trans hb₂)
    obtain rfl : mode = mode' :=
      WitnessMode.byte_injective (List.cons.inj (List.cons.inj hcons).2).1
    rw [signatures_policy ht hb] at hsub
    rw [hb', haccepts.eq_of_subset laws hwf haccepts' hsub, ht, Option.bind_some, hb]

/-- …and only then: in any other mode the same signatures make other bytes. -/
theorem Action.oneMode_of_bytes (laws : Crypto.Laws) {account : Option ProgrammableAccount}
    {auth : PolicyAuthorization} (hsized : ∀ acc, account = some acc → acc.policy.Sized)
    (h : a.verifyAccountSignature account genesis = .ok auth)
    (honly : ∀ text auth', (a.resigned text).verifyAccountSignature account genesis = .ok auth' →
      (a.resigned text).signatures account ⊆ a.signatures account →
        hexDecode text = a.signature.bind hexDecode) : a.OneMode account := by
  rintro acc rfl mode hmode
  obtain ⟨hvalid, haddress, t, m, w, ht, hb, haccepts⟩ := verifyAccountSignature_some.mp ⟨auth, h⟩
  have hwf := AccountPolicy.wellFormed_of_validate (hsized acc rfl) hvalid
  rw [signatures_policy ht hb] at hmode
  obtain ⟨w', haccepts', hsub⟩ :=
    AccountPolicy.exists_accepts laws hwf (haccepts.verifyOne laws hwf) hmode
  have hb' := hexDecode_hexEncode (0xa7 :: mode.byte :: w')
  obtain ⟨auth', hpass⟩ := verifyAccountSignature_some
    (a := a.resigned (hexEncode (0xa7 :: mode.byte :: w'))).mpr
    ⟨hvalid, haddress, _, mode, w', rfl, hb', haccepts'⟩
  have heq := honly _ auth' hpass (by
    rw [signatures_policy rfl hb', signatures_policy ht hb]
    exact hsub)
  rw [hb', ht, Option.bind_some] at heq
  exact ⟨t, w', ht, heq.symm⟩

omit [Crypto] in
/-- A text that starts with the byte of a policy witness has a letter. -/
theorem not_hexCaseless {text : String} {rest : Bytes} (h : hexDecode text = some (0xa7 :: rest)) :
    ¬ HexCaseless text := by
  intro hless
  unfold HexCaseless at hless
  unfold hexDecode at h
  match htext : text.toList with
  | [] => rw [htext] at h; cases h
  | [_] => rw [htext] at h; cases h
  | c :: d :: cs =>
    rw [htext] at h
    obtain ⟨hi, lo, tail, hc, hd, -, he⟩ := hexDecodeChars_cons.mp h
    obtain ⟨hhi, -⟩ : (10 : UInt8) = hi ∧ (7 : UInt8) = lo :=
      hexByte_inj (by decide) (by decide) (hexVal_lt hc) (hexVal_lt hd) (List.cons.inj he).1
    have hall := forall_hexChars (p := fun c => hexVal c = some 10 → c.isAlpha) (by decide)
      (mem_hexChars hc)
    have halpha := of_decide_eq_true hall (hhi ▸ hc)
    rw [hless c (by rw [htext]; exact List.mem_cons_self)] at halpha
    cases halpha

/-- **When an action has one signature text.**  Of all texts that someone can make who holds no key of the
account, and so no other signature than the action's own, its text is the only one that passes exactly
when the account has no policy and the text no hex letter; and its bytes are the only ones exactly when
its signers could sign in no other mode. -/
theorem action_not_malleable_iff (laws : Crypto.Laws) (a : Action P)
    (account : Option ProgrammableAccount) (genesis : Bytes) (auth : PolicyAuthorization)
    (hsized : ∀ acc, account = some acc → acc.policy.Sized)
    (h : a.verifyAccountSignature account genesis = .ok auth) :
    ((∀ text auth', (a.resigned text).verifyAccountSignature account genesis = .ok auth' →
        (a.resigned text).signatures account ⊆ a.signatures account → a.signature = some text) ↔
      account = none ∧ ∀ text, a.signature = some text → HexCaseless text) ∧
    ((∀ text auth', (a.resigned text).verifyAccountSignature account genesis = .ok auth' →
        (a.resigned text).signatures account ⊆ a.signatures account →
          hexDecode text = a.signature.bind hexDecode) ↔
      a.OneMode account) := by
  obtain ⟨text, bytes, htext, hbytes⟩ := Action.exists_bytes h
  refine ⟨⟨fun honly => ?_, ?_⟩, Action.oneMode_of_bytes laws hsized h,
    fun hone t auth' hpass hsub => hone.bytes_eq laws hsized h hpass hsub⟩
  · have hless : HexCaseless text := by
      refine (hexDecode_unique_iff hbytes).mp fun t ht => ?_
      obtain ⟨hpass, hsigs⟩ := Action.verify_congr htext (ht.trans hbytes.symm) h
      have := honly t auth hpass (by rw [hsigs]; exact List.Subset.refl _)
      exact Option.some.inj (this.symm.trans htext)
    refine ⟨?_, fun t ht => Option.some.inj (htext.symm.trans ht) ▸ hless⟩
    cases account with
    | none => rfl
    | some acc =>
      obtain ⟨-, -, t, mode, w, ht, hb, -⟩ := Action.verifyAccountSignature_some.mp ⟨auth, h⟩
      obtain rfl := Option.some.inj (htext.symm.trans ht)
      exact absurd hless (not_hexCaseless hb)
  · rintro ⟨rfl, hless⟩ t auth' hpass hsub
    have hone : a.OneMode none := fun acc hacc => by cases hacc
    have heq := hone.bytes_eq laws hsized h hpass hsub
    rw [htext, Option.bind_some, hbytes] at heq
    rw [htext, (hexDecode_unique_iff hbytes).mpr (hless text htext) t heq]

end Actions

/-! ## Two texts for one signature -/

namespace TwoTexts

@[reducible] def crypto : Crypto := Plain.crypto fun _ _ _ => true

attribute [local instance] crypto Plain.wire

set_option maxRecDepth 20000

/-- A key whose address has the length a policy's account must have. -/
def key : Bytes := List.replicate 23 200 ++ List.replicate 9 7

def sender : Address := ⟨Plain.bech32Encode "arx" key⟩

def action (text : String) : ChainAction := ⟨sender, 0, some text, .revokeOperator⟩

def repeated (c : Char) : String := String.ofList (List.replicate 128 c)

/-- The key is the account's one owner and its one guardian. -/
def account : ProgrammableAccount :=
  ⟨⟨⟨1, [key]⟩, [], none, [], some ⟨⟨1, [key]⟩, 1⟩⟩, [], none⟩

/-- The key's signature of 64 zeros, in a mode. -/
def witness (mode : WitnessMode) : String :=
  hexEncode (0xa7 :: mode.byte :: multisigWitness [key] [0 :: List.replicate 64 0])

/-- **A relayer has a second text.**  The hex of a signature passes in either case, and an owner's witness
also passes as the guardian's it could have been, with the very same signature. -/
theorem second_text_passes :
    (repeated 'a' ≠ repeated 'A' ∧
      (action (repeated 'a')).verifyAccountSignature none [] = .ok .owner ∧
      (action (repeated 'A')).verifyAccountSignature none [] = .ok .owner ∧
      (action (repeated 'A')).signatures none = (action (repeated 'a')).signatures none) ∧
    (witness .owners ≠ witness .guardians ∧
      (action (witness .owners)).verifyAccountSignature (some account) [] = .ok .owner ∧
      (action (witness .guardians)).verifyAccountSignature (some account) [] = .ok .guardian ∧
      (action (witness .guardians)).signatures (some account) =
        (action (witness .owners)).signatures (some account)) := by
  decide +kernel

/-- A signature of zeros has one text. -/
theorem zeros_not_malleable :
    (action (repeated '0')).verifyAccountSignature none [] = .ok .owner ∧
      ¬ ∃ text auth, text ≠ repeated '0' ∧
        (action text).verifyAccountSignature none [] = .ok auth ∧
        (action text).signatures none ⊆ (action (repeated '0')).signatures none := by
  have hzeros : (action (repeated '0')).verifyAccountSignature none [] = .ok .owner := by decide +kernel
  have hless : ((repeated '0').toList.all fun c => !c.isAlpha) = true := by decide +kernel
  refine ⟨hzeros, fun ⟨text, auth, hne, hpass, hsub⟩ => ?_⟩
  have honly := (action_not_malleable_iff (Plain.crypto_laws _) (action (repeated '0')) none [] .owner
    (fun acc hacc => by cases hacc) hzeros).1.mpr ⟨rfl, fun t ht c hc => ?_⟩
  · exact hne (Option.some.inj (honly text auth hpass hsub)).symm
  · obtain rfl := Option.some.inj ht
    simpa using List.all_eq_true.mp hless c hc

end TwoTexts

end Arxium
