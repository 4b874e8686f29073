import Arxium.Primitives.Validators

/-!
# Storage/Lookups — the set and the keys in force at a height

Validator sets and voting keys are stored under the height they take effect at, and looked up by the
newest row at or below a height.  A set is written in the last block of an epoch for the next
height; a key registered in an epoch takes effect with the next one.  So nothing written in an epoch
changes what is in force during it, and who holds all blocks before an epoch knows what is in force
throughout it (`getValidatorSetAt_congr`, `getBlsPubkeyAt_congr`).  Who holds fewer gets an answer
too: the newest row it happens to have.
-/

namespace Arxium

/-- The newest row at or below a height. -/
def newestAt {α : Type} (row : Nat → Option α) : Nat → Option α
  | 0 => row 0
  | h + 1 => (row (h + 1)).or (newestAt row h)

theorem newestAt_congr {α : Type} {row row' : Nat → Option α} {h : Nat}
    (hrow : ∀ k ≤ h, row k = row' k) : newestAt row h = newestAt row' h := by
  induction h with
  | zero => exact hrow 0 le_rfl
  | succ h ih => rw [newestAt, newestAt, hrow _ le_rfl, ih fun k hk => hrow k (Nat.le_succ_of_le hk)]

theorem newestAt_eq_some {α : Type} {row : Nat → Option α} {k h : Nat} {a : α} (hk : row k = some a)
    (hle : k ≤ h) (hnone : ∀ j, k < j → j ≤ h → row j = none) : newestAt row h = some a := by
  induction h with
  | zero =>
    obtain rfl : k = 0 := Nat.le_zero.mp hle
    exact hk
  | succ h ih =>
    rcases Nat.lt_or_eq_of_le hle with hlt | rfl
    · rw [newestAt, hnone _ hlt le_rfl, Option.none_or]
      exact ih (Nat.le_of_lt_succ hlt) fun j hj hjh => hnone j hj (Nat.le_succ_of_le hjh)
    · rw [newestAt, hk, Option.some_or]

/-- What one block adds: the set of the next height, and registered keys. -/
structure LookupRows where
  set : Option ValidatorSet := none
  keys : List (Address × Bytes) := []

/-- The blocks of a chain as far as lookups go, from genesis on. -/
abbrev LookupChain := List LookupRows

namespace LookupChain

/-- The `validator_set` row of a height.  Genesis writes its own set for height zero; any other block
writes for the height after it. -/
def setRow (l : LookupChain) : Nat → Option ValidatorSet
  | 0 => l[0]?.bind (·.set)
  | 1 => none
  | k + 2 => l[k + 1]?.bind (·.set)

/-- When a key registered in the block of a height takes effect. -/
def keyHeight (epochLength : Nat) : Nat → Nat
  | 0 => 0
  | height => (epochOf height epochLength + 1) * max epochLength 1

/-- The key history row of an address and a height: the last registration for it. -/
def keyRow (epochLength : Nat) (l : LookupChain) (a : Address) (k : Nat) : Option Bytes :=
  ((((l.zipIdx.filter fun e => keyHeight epochLength e.2 = k).flatMap (·.1.keys)).reverse.find?
    (·.1 = a)).map Prod.snd)

def getValidatorSetAt (l : LookupChain) (h : Nat) : ValidatorSet :=
  (newestAt l.setRow h).getD (∅ : ValidatorSet)

def getBlsPubkeyAt (epochLength : Nat) (l : LookupChain) (a : Address) (h : Nat) : Option Bytes :=
  newestAt (l.keyRow epochLength a) h

/-- Sets are written at the ends of epochs only. -/
def WellFormed (epochLength : Nat) (l : LookupChain) : Prop :=
  ∀ i rows, 0 < i → l[i]? = some rows → rows.set.isSome = true → isBoundary i epochLength = true

/-- How many blocks there are before the epoch of a height; genesis always counts. -/
def blocksBefore (epochLength h : Nat) : Nat := max (validatorSetEffectiveHeight h epochLength) 1

/-- A node's blocks reach the epoch of `h` along the chain. -/
structure Reaches (epochLength : Nat) (own chain : LookupChain) (h : Nat) : Prop where
  length : blocksBefore epochLength h ≤ own.length
  agree : own.take (blocksBefore epochLength h) = chain.take (blocksBefore epochLength h)

variable {epochLength h k : Nat} {l own chain : LookupChain} {a : Address}

/-! ## Nothing written in an epoch is in force in it -/

theorem effectiveHeight_le (h : Nat) : validatorSetEffectiveHeight h epochLength ≤ h :=
  Nat.div_mul_le_self h _

/-- Inside an epoch no set takes effect. -/
theorem WellFormed.setRow_eq_none (hl : l.WellFormed epochLength)
    (hlt : validatorSetEffectiveHeight h epochLength < k) (hle : k ≤ h) : l.setRow k = none := by
  match k with
  | 0 => omega
  | 1 => rfl
  | k + 2 =>
    by_contra hsome
    obtain ⟨set, hset⟩ := Option.ne_none_iff_exists'.mp hsome
    obtain ⟨rows, hrows, hset⟩ := Option.bind_eq_some_iff.mp hset
    have hboundary := hl (k + 1) rows (by omega) hrows (by rw [hset]; rfl)
    simp only [isBoundary, beq_iff_eq] at hboundary
    obtain ⟨q, hq⟩ := Nat.dvd_of_mod_eq_zero hboundary
    simp only [validatorSetEffectiveHeight, epochOf] at hlt
    have hpos : 0 < max epochLength 1 := by omega
    have hdiv : h < (h / max epochLength 1 + 1) * max epochLength 1 := by
      rw [Nat.add_mul, Nat.one_mul]
      have := Nat.div_add_mod' h (max epochLength 1)
      have := Nat.mod_lt h hpos
      omega
    rw [hq, Nat.mul_comm _ q] at hlt
    have h₁ : h / max epochLength 1 < q := Nat.lt_of_mul_lt_mul_right hlt
    have h₂ : q < h / max epochLength 1 + 1 := by
      refine Nat.lt_of_mul_lt_mul_right (a := max epochLength 1) ?_
      rw [Nat.mul_comm q, ← hq]
      omega
    omega

/-- A key that takes effect in an epoch was registered before it. -/
theorem lt_of_keyHeight {i : Nat} (hpos : 0 < i) (hle : keyHeight epochLength i ≤ h) :
    i < validatorSetEffectiveHeight h epochLength := by
  obtain ⟨i, rfl⟩ := Nat.exists_eq_succ_of_ne_zero hpos.ne'
  simp only [keyHeight, epochOf] at hle
  simp only [validatorSetEffectiveHeight, epochOf]
  have hm : 0 < max epochLength 1 := by omega
  generalize max epochLength 1 = m at hle hm
  have h₁ : (i + 1) / m + 1 ≤ h / m := (Nat.le_div_iff_mul_le hm).mpr hle
  have h₂ : ((i + 1) / m + 1) * m ≤ h / m * m := Nat.mul_le_mul_right m h₁
  have h₃ := Nat.lt_div_mul_add (a := i + 1) hm
  rw [Nat.add_mul, Nat.one_mul] at h₂
  omega

/-! ## Who reaches an epoch knows what is in force in it -/

theorem Reaches.getElem?_eq (hr : Reaches epochLength own chain h) {i : Nat}
    (hi : i < blocksBefore epochLength h) : own[i]? = chain[i]? := by
  have heq := congrArg (fun l => l[i]?) hr.agree
  simpa [List.getElem?_take, hi] using heq

theorem Reaches.setRow_eq (hr : Reaches epochLength own chain h) (hown : own.WellFormed epochLength)
    (hchain : chain.WellFormed epochLength) (hk : k ≤ h) : own.setRow k = chain.setRow k := by
  rcases Nat.lt_or_ge (validatorSetEffectiveHeight h epochLength) k with hlt | hge
  · rw [hown.setRow_eq_none hlt hk, hchain.setRow_eq_none hlt hk]
  · match k with
    | 0 => rw [setRow, setRow, hr.getElem?_eq (by unfold blocksBefore; omega)]
    | 1 => rfl
    | k + 2 => rw [setRow, setRow, hr.getElem?_eq (by unfold blocksBefore; omega)]

/-- **The set in force.** -/
theorem getValidatorSetAt_congr (hr : Reaches epochLength own chain h)
    (hown : own.WellFormed epochLength) (hchain : chain.WellFormed epochLength) :
    own.getValidatorSetAt h = chain.getValidatorSetAt h := by
  rw [getValidatorSetAt, getValidatorSetAt,
    newestAt_congr fun k hk => hr.setRow_eq hown hchain hk]

/-- Registrations past a height's epoch do not show at the height. -/
theorem filter_keyHeight_eq {m : Nat} (hm : m ≤ l.length)
    (hk : ∀ i, m ≤ i → keyHeight epochLength i ≠ k) :
    (l.zipIdx.filter fun e => keyHeight epochLength e.2 = k) =
      ((l.take m).zipIdx.filter fun e => keyHeight epochLength e.2 = k) := by
  have hsplit : l.zipIdx = (l.take m).zipIdx ++ (l.drop m).zipIdx m := by
    conv_lhs => rw [← List.take_append_drop m l]
    rw [List.zipIdx_append, List.length_take, Nat.min_eq_left hm, Nat.zero_add]
  have hdrop : ((l.drop m).zipIdx m).filter (fun e => keyHeight epochLength e.2 = k) = [] := by
    refine List.filter_eq_nil_iff.mpr fun e he => ?_
    have hle : m ≤ e.2 := List.le_snd_of_mem_zipIdx he
    simpa using hk e.2 hle
  rw [hsplit, List.filter_append, hdrop, List.append_nil]

/-- **The key in force.** -/
theorem getBlsPubkeyAt_congr (hr : Reaches epochLength own chain h) :
    own.getBlsPubkeyAt epochLength a h = chain.getBlsPubkeyAt epochLength a h := by
  have hlength : blocksBefore epochLength h ≤ chain.length := by
    have hlen := congrArg List.length hr.agree
    rw [List.length_take, List.length_take, Nat.min_eq_left hr.length] at hlen
    omega
  refine newestAt_congr fun k hk => ?_
  have hlate : ∀ i, blocksBefore epochLength h ≤ i → keyHeight epochLength i ≠ k := by
    intro i hi heq
    have hlt := lt_of_keyHeight (i := i) (by unfold blocksBefore at hi; omega) (heq.trans_le hk)
    unfold blocksBefore at hi
    omega
  rw [keyRow, keyRow, filter_keyHeight_eq hr.length hlate, filter_keyHeight_eq hlength hlate,
    hr.agree]

/-- On the chain the set in force is the one written for the height's epoch. -/
theorem getValidatorSetAt_eq_row (hl : l.WellFormed epochLength) {set : ValidatorSet}
    (hset : l.setRow (validatorSetEffectiveHeight h epochLength) = some set) :
    l.getValidatorSetAt h = set := by
  rw [getValidatorSetAt, newestAt_eq_some hset (effectiveHeight_le h)
    fun j hj hjh => hl.setRow_eq_none hj hjh, Option.getD_some]

end LookupChain

end Arxium
