import Arxium.Lib.ReadProg
import Arxium.Primitives.Block

/-!
# Primitives/Canonical — texts that are read the same

Bytes cross the wire as text, and both readers are generous: hex digits come in two cases, and bech32 is
also read in upper case, with the checksum of its successor Bech32m, or with stray padding bits.  A text is
the only one for its bytes when it has no such freedom: no hex letter (`hexDecode_unique_iff`), or the
form the encoder writes (`Address.IsPlain`).
-/

namespace Arxium

open ReadProg Crypto

/-! ## Hex -/

/-- The characters `hex::decode` reads. -/
def hexChars : List Char :=
  ['0', '1', '2', '3', '4', '5', '6', '7', '8', '9', 'a', 'b', 'c', 'd', 'e', 'f',
    'A', 'B', 'C', 'D', 'E', 'F']

/-- The same digit in the other case. -/
def flipHex (c : Char) : Char :=
  if c.isLower then c.toUpper else c.toLower

/-- No digit of the text can be written in another way. -/
def HexCaseless (s : String) : Prop := ∀ c ∈ s.toList, c.isAlpha = false

instance (s : String) : Decidable (HexCaseless s) := inferInstanceAs (Decidable (∀ c ∈ s.toList, _))

theorem mem_hexChars {c : Char} {v : UInt8} (h : hexVal c = some v) : c ∈ hexChars := by
  have hbound : ∀ lo hi : Char, lo ≤ c → c ≤ hi → lo.toNat ≤ c.toNat ∧ c.toNat ≤ hi.toNat :=
    fun _ _ hlo hhi => ⟨hlo, hhi⟩
  have hmem : ∀ lo hi : Nat, lo ≤ c.toNat ∧ c.toNat ≤ hi →
      (∀ n < 128, lo ≤ n ∧ n ≤ hi → Char.ofNat n ∈ hexChars) → hi < 128 → c ∈ hexChars := by
    intro lo hi hc hall hhi
    have := hall c.toNat (by omega) hc
    rwa [Char.ofNat_toNat] at this
  unfold hexVal at h
  split at h
  · rename_i hc
    exact hmem _ _ (hbound _ _ hc.1 hc.2) (by decide +kernel) (by decide)
  · split at h
    · rename_i hc
      exact hmem _ _ (hbound _ _ hc.1 hc.2) (by decide +kernel) (by decide)
    · split at h
      · rename_i hc
        exact hmem _ _ (hbound _ _ hc.1 hc.2) (by decide +kernel) (by decide)
      · cases h

/-- What holds of each of the characters is checked on each. -/
theorem forall_hexChars {p : Char → Bool} (h : hexChars.all p = true) {c : Char} (hc : c ∈ hexChars) :
    p c = true := List.all_eq_true.mp h c hc

theorem hexVal_flipHex {c : Char} (hc : c ∈ hexChars) : hexVal (flipHex c) = hexVal c := by
  have hall := forall_hexChars (p := fun c => hexVal (flipHex c) = hexVal c) (by decide) hc
  simpa using hall

theorem flipHex_ne {c : Char} (hc : c ∈ hexChars) (ha : c.isAlpha = true) : flipHex c ≠ c := by
  have hall := forall_hexChars (p := fun c => c.isAlpha → flipHex c ≠ c) (by decide) hc
  exact of_decide_eq_true hall ha

/-- A digit that is no letter has one character. -/
theorem eq_of_hexVal_eq {c d : Char} (hc : c ∈ hexChars) (hd : d ∈ hexChars)
    (hca : c.isAlpha = false) (h : hexVal d = hexVal c) : d = c := by
  have hall := forall_hexChars (p := fun c => hexChars.all fun d =>
    c.isAlpha = false → hexVal d = hexVal c → d = c) (by decide) hc
  exact of_decide_eq_true (List.all_eq_true.mp hall d hd) hca h

theorem hexVal_lt {c : Char} {v : UInt8} (h : hexVal c = some v) : v.toNat < 16 := by
  have hall := forall_hexChars (p := fun c => (hexVal c).all (·.toNat < 16)) (by decide)
    (mem_hexChars h)
  simpa [h] using hall

theorem hexDecodeChars_cons {a b : Char} {rest : List Char} {bytes : Bytes} :
    hexDecodeChars (a :: b :: rest) = some bytes ↔ ∃ hi lo tail, hexVal a = some hi ∧
      hexVal b = some lo ∧ hexDecodeChars rest = some tail ∧ bytes = (hi * 16 + lo) :: tail := by
  simp only [hexDecodeChars, bind, pure, Option.bind_eq_some_iff, Option.some.injEq]
  constructor
  · rintro ⟨hi, ha, lo, hb, tail, ht, rfl⟩
    exact ⟨hi, lo, tail, ha, hb, ht, rfl⟩
  · rintro ⟨hi, lo, tail, ha, hb, ht, rfl⟩
    exact ⟨hi, ha, lo, hb, tail, ht, rfl⟩

/-- Two digits are read off their byte. -/
theorem hexByte_inj {hi lo hi' lo' : UInt8} (h₁ : hi.toNat < 16) (h₂ : lo.toNat < 16)
    (h₁' : hi'.toNat < 16) (h₂' : lo'.toNat < 16) (h : hi * 16 + lo = hi' * 16 + lo') :
    hi = hi' ∧ lo = lo' := by
  have hnat := congrArg UInt8.toNat h
  simp only [UInt8.toNat_add, UInt8.toNat_mul] at hnat
  change (hi.toNat * 16 % 256 + lo.toNat) % 256 = (hi'.toNat * 16 % 256 + lo'.toNat) % 256 at hnat
  exact ⟨UInt8.toNat_inj.mp (by omega), UInt8.toNat_inj.mp (by omega)⟩

/-- Whatever two texts of the same bytes have, they have digit by digit. -/
theorem forall₂_hexVal {l m : List Char} {bytes : Bytes} (hl : hexDecodeChars l = some bytes)
    (hm : hexDecodeChars m = some bytes) :
    List.Forall₂ (fun c d => c ∈ hexChars ∧ d ∈ hexChars ∧ hexVal d = hexVal c) l m := by
  induction l using hexDecodeChars.induct generalizing m bytes with
  | case1 =>
    obtain rfl : [] = bytes := Option.some.inj hl
    match m, hm with
    | [], _ => exact .nil
    | _ :: _ :: _, hm =>
      obtain ⟨_, _, _, -, -, -, he⟩ := hexDecodeChars_cons.mp hm
      cases he
  | case2 => cases hl
  | case3 a b rest ih =>
    obtain ⟨hi, lo, tail, ha, hb, htail, rfl⟩ := hexDecodeChars_cons.mp hl
    match m, hm with
    | [], hm => cases hm
    | c :: d :: rest', hm =>
      obtain ⟨hi', lo', tail', hc, hd, htail', he⟩ := hexDecodeChars_cons.mp hm
      obtain ⟨hbyte, rfl⟩ := List.cons.inj he
      obtain ⟨rfl, rfl⟩ := hexByte_inj (hexVal_lt ha) (hexVal_lt hb) (hexVal_lt hc) (hexVal_lt hd) hbyte
      exact .cons ⟨mem_hexChars ha, mem_hexChars hc, hc.trans ha.symm⟩
        (.cons ⟨mem_hexChars hb, mem_hexChars hd, hd.trans hb.symm⟩ (ih htail htail'))

theorem mem_hexChars_of_hexDecodeChars {l : List Char} {bytes : Bytes}
    (h : hexDecodeChars l = some bytes) : ∀ c ∈ l, c ∈ hexChars := by
  intro c hc
  have hall := List.forall₂_same.mp (forall₂_hexVal h h)
  exact (hall c hc).1

theorem hexDecodeChars_map_flipHex {l : List Char} (h : ∀ c ∈ l, c ∈ hexChars) :
    hexDecodeChars (l.map flipHex) = hexDecodeChars l := by
  induction l using hexDecodeChars.induct with
  | case1 => rfl
  | case2 => rfl
  | case3 a b rest ih =>
    simp only [List.mem_cons, forall_eq_or_imp] at h
    simp only [List.map_cons, hexDecodeChars, hexVal_flipHex h.1, hexVal_flipHex h.2.1, ih h.2.2]

/-- **A hex text is the only one for its bytes exactly when it has no letter.** -/
theorem hexDecode_unique_iff {s : String} {bytes : Bytes} (h : hexDecode s = some bytes) :
    (∀ t, hexDecode t = some bytes → t = s) ↔ HexCaseless s := by
  have hchars := mem_hexChars_of_hexDecodeChars h
  constructor
  · intro honly c hc
    by_contra ha
    have hflip : hexDecode (String.ofList (s.toList.map flipHex)) = some bytes := by
      rw [hexDecode, String.toList_ofList, hexDecodeChars_map_flipHex hchars]
      exact h
    have heq := congrArg String.toList (honly _ hflip)
    rw [String.toList_ofList] at heq
    have hfix : ∀ d ∈ s.toList, flipHex d = id d := List.map_inj_left.mp (heq.trans s.toList.map_id.symm)
    exact flipHex_ne (hchars c hc) (by simpa using ha) (hfix c hc)
  · intro hless t ht
    refine String.toList_inj.mp ?_
    have hpairs := (List.forall₂_and_left _ _).mpr ⟨hless, forall₂_hexVal h ht⟩
    have heq : List.Forall₂ (· = ·) s.toList t.toList := hpairs.imp fun c d hcd =>
      (eq_of_hexVal_eq hcd.2.1 hcd.2.2.1 hcd.1 hcd.2.2.2).symm
    rw [List.forall₂_eq_eq_eq] at heq
    exact heq.symm

/-! ## Bech32 -/

/-- What can be told of a bech32 text besides its case. -/
structure Bech32Forms where
  /-- The text ends in the checksum of Bech32m. -/
  isBech32m : String → Bool
  /-- The bits its last data character leaves over are not all zero. -/
  isPadded : String → Bool

/-- No upper case, the Bech32 checksum, zero padding. -/
def Address.IsPlain (forms : Bech32Forms) (a : Address) : Prop :=
  (∀ c ∈ a.text.toList, c.isUpper = false) ∧ forms.isBech32m a.text = false ∧
    forms.isPadded a.text = false

/-- What bech32 documents: encoding writes lower case, the checksum asked for and zero padding, and
decoding takes either case, either checksum and any padding.  So a text that decodes is the encoder's
exactly when it is plain. -/
structure Bech32Forms.Laws [Crypto] (forms : Bech32Forms) : Prop where
  encoded_iff : ∀ (a : Address) (key : Bytes), bech32Decode a.text = some (Address.hrp, key) →
    (a.text = bech32Encode Address.hrp key ↔ a.IsPlain forms)

section Addresses

variable [Crypto] {P : Type} [Wire P] {forms : Bech32Forms} {a b : Address} {key : Bytes}

/-- **The address is the one of the key it decodes to.** -/
def Address.IsCanonical (a : Address) : Prop :=
  ∃ key, a.pubkeyBytes = .ok key ∧ a = .fromPubkeyBytes key

theorem Address.pubkeyBytes_eq_ok :
    a.pubkeyBytes = .ok key ↔ bech32Decode a.text = some (hrp, key) := by
  unfold pubkeyBytes
  cases bech32Decode a.text with
  | none => simp
  | some r =>
    obtain ⟨h, data⟩ := r
    by_cases hh : h = hrp <;> simp [hh]

theorem Address.eq_fromPubkeyBytes_iff (laws : forms.Laws) (h : a.pubkeyBytes = .ok key) :
    a = .fromPubkeyBytes key ↔ a.IsPlain forms := by
  rw [← laws.encoded_iff a key (pubkeyBytes_eq_ok.mp h), Address.ext_iff, fromPubkeyBytes]

theorem Address.isCanonical_of_isPlain (laws : forms.Laws) (h : a.pubkeyBytes = .ok key)
    (hp : a.IsPlain forms) : a.IsCanonical := ⟨key, h, (eq_fromPubkeyBytes_iff laws h).mpr hp⟩

/-- A policy's account has a canonical address. -/
theorem isCanonical_of_validateAccountAddress (h : validateAccountAddress a = .ok ()) :
    a.IsCanonical := by
  unfold validateAccountAddress at h
  obtain ⟨-, h⟩ := guard_eq_ok.mp h
  obtain ⟨key, hkey, h⟩ := bind_eq_ok.mp h
  obtain ⟨hc, -⟩ := guard_eq_ok.mp h
  refine ⟨key, mapError_eq_ok.mp hkey, ?_⟩
  simp only [Bool.or_eq_true, bne_iff_ne, ne_eq, not_or, not_not] at hc
  exact hc.2.symm

namespace Action

variable {action : Action P} {genesis : Bytes}

theorem pubkeyBytes_of_verifySignature (h : action.verifySignature genesis = .ok ()) :
    ∃ key, action.sender.pubkeyBytes = .ok key := by
  unfold verifySignature at h
  split at h
  · split at h
    · obtain ⟨key, hkey, -⟩ := bind_eq_ok.mp h
      exact ⟨key, mapError_eq_ok.mp hkey⟩
    · cases h
  · cases h

theorem isCanonical_of_policy {account : ProgrammableAccount} {auth : PolicyAuthorization}
    (h : action.verifyAccountSignature (some account) genesis = .ok auth) :
    action.sender.IsCanonical := by
  obtain ⟨_, -, h⟩ := bind_eq_ok.mp h
  obtain ⟨_, hvalid, -⟩ := bind_eq_ok.mp h
  exact isCanonical_of_validateAccountAddress hvalid

/-- **A sender whose signature verifies decodes.** -/
theorem pubkeyBytes_of_verifyAccountSignature {account : Option ProgrammableAccount}
    {auth : PolicyAuthorization} (h : action.verifyAccountSignature account genesis = .ok auth) :
    ∃ key, action.sender.pubkeyBytes = .ok key := by
  cases account with
  | none =>
    obtain ⟨_, h, -⟩ := bind_eq_ok.mp h
    exact pubkeyBytes_of_verifySignature h
  | some account =>
    obtain ⟨key, hkey, -⟩ := isCanonical_of_policy h
    exact ⟨key, hkey⟩

end Action

end Addresses

end Arxium
