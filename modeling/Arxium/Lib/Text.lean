import Mathlib.Tactic

/-!
# Lib/Text — words, lines and decimal numbers

Small text files are written as lines of words and read back by splitting.  A word is what the
splitting leaves whole; what is written as words on lines is read back as it was.
-/

namespace Arxium

namespace Text

/-- The Unicode property `White_Space`. -/
def isWhitespace (c : Char) : Bool :=
  (9 ≤ c.toNat ∧ c.toNat ≤ 13) ∨ (0x2000 ≤ c.toNat ∧ c.toNat ≤ 0x200a) ∨
    c.toNat ∈ [0x20, 0x85, 0xa0, 0x1680, 0x2028, 0x2029, 0x202f, 0x205f, 0x3000]

/-- `split_whitespace`. -/
def words (l : List Char) : List (List Char) := (l.splitOnP isWhitespace).filter (· ≠ [])

/-- `lines`.  A carriage return before the line feed stays here; it is whitespace to `words`. -/
def lines (l : List Char) : List (List Char) :=
  let parts := l.splitOn '\n'
  if parts.getLast? = some [] then parts.dropLast else parts

/-- `parse` of an unsigned integer type of `n` values: an optional plus, then digits. -/
def parseUnsigned (n : ℕ) [NeZero n] (w : List Char) : Option (Fin n) :=
  let digits := match w with
    | '+' :: rest => rest
    | _ => w
  if digits = [] ∨ !digits.all Char.isDigit then none
  else if h : Nat.ofDigitChars 10 digits 0 < n then some ⟨_, h⟩
  else none

/-- The decimal digits, as a number is displayed. -/
def decimal (n : ℕ) : List Char := Nat.toDigits 10 n

/-- Not empty, and left whole by `split_whitespace`. -/
structure Word (w : List Char) : Prop where
  ne_nil : w ≠ []
  solid : ∀ c ∈ w, isWhitespace c = false

instance (w : List Char) : Decidable (Word w) :=
  decidable_of_iff (w ≠ [] ∧ (w.all fun c => !isWhitespace c) = true) <| by
    rw [List.all_eq_true]
    exact ⟨fun h => ⟨h.1, fun c hc => Bool.not_eq_true' _ ▸ h.2 c hc⟩,
      fun h => ⟨h.1, fun c hc => by rw [h.2 c hc]; rfl⟩⟩

/-- Words on a line. -/
def spaced (ws : List (List Char)) : List Char := [' '].intercalate ws

/-- Lines, each with its end. -/
def unlines (ls : List (List Char)) : List Char := ls.flatMap (· ++ ['\n'])

/-! ## Reading back -/

variable {ws ls : List (List Char)} {w : List Char}

theorem words_of_word (hw : Word w) : words w = [w] := by
  have hsplit := List.splitOnP_eq_singleton hw.solid
  simp [words, hsplit, hw.ne_nil]

theorem words_cons (hw : Word w) (rest : List Char) : words (w ++ ' ' :: rest) = w :: words rest := by
  have hsplit := List.splitOnP_append_cons_of_forall_mem hw.solid ' ' (by decide) rest
  simp [words, hsplit, hw.ne_nil]

/-- **Words come back from a line.** -/
theorem words_spaced (hws : ∀ w ∈ ws, Word w) : words (spaced ws) = ws := by
  induction ws with
  | nil => rfl
  | cons w ws ih =>
    have hw := hws w List.mem_cons_self
    cases ws with
    | nil => simpa [spaced, List.intercalate] using words_of_word hw
    | cons v ws =>
      have htail := ih fun u hu => hws u (List.mem_cons_of_mem w hu)
      have hcons : spaced (w :: v :: ws) = w ++ ' ' :: spaced (v :: ws) := by
        simp [spaced, List.intercalate]
      rw [hcons, words_cons hw, htail]

theorem splitOn_unlines (hls : ∀ l ∈ ls, '\n' ∉ l) :
    (unlines ls).splitOn '\n' = ls ++ [[]] := by
  induction ls with
  | nil => rfl
  | cons l ls ih =>
    have hl : ∀ c ∈ l, (c == '\n') = false := fun c hc =>
      beq_eq_false_iff_ne.mpr fun he => hls l List.mem_cons_self (he ▸ hc)
    have hcons : unlines (l :: ls) = l ++ '\n' :: unlines ls := by simp [unlines]
    rw [hcons, List.splitOn, List.splitOnP_append_cons_of_forall_mem hl '\n' (by decide)]
    exact congrArg (l :: ·) (ih fun l' hl' => hls l' (List.mem_cons_of_mem l hl'))

/-- **Lines come back from a file.** -/
theorem lines_unlines (hls : ∀ l ∈ ls, '\n' ∉ l) : lines (unlines ls) = ls := by
  simp [lines, splitOn_unlines hls]

theorem word_decimal (n : ℕ) : Word (decimal n) := by
  refine ⟨Nat.toDigits_ne_nil, fun c hc => ?_⟩
  have hdigit : c.isDigit = true := Nat.isDigit_of_mem_toDigits (by decide) (by decide) hc
  have hrange : 48 ≤ c.toNat ∧ c.toNat ≤ 57 := by
    simpa [Char.isDigit, UInt32.le_iff_toNat_le] using hdigit
  simp only [isWhitespace, List.mem_cons, List.not_mem_nil, or_false, decide_eq_false_iff_not]
  omega

/-- **Numbers come back from their digits.** -/
theorem parseUnsigned_decimal {n : ℕ} [NeZero n] (k : Fin n) :
    parseUnsigned n (decimal k) = some k := by
  have hdigits : ∀ c ∈ decimal k, c.isDigit = true := fun c hc =>
    Nat.isDigit_of_mem_toDigits (by decide) (by decide) hc
  have hplus : (match decimal k with
      | '+' :: rest => rest
      | _ => decimal k) = decimal k := by
    split
    · rename_i rest heq
      have hbad := hdigits '+' (heq ▸ List.mem_cons_self)
      exact absurd hbad (by decide)
    · rfl
  have hvalue : Nat.ofDigitChars 10 (decimal k) 0 = k := Nat.ofDigitChars_ten_toDigits
  unfold parseUnsigned
  simp only [hplus]
  rw [if_neg, dif_pos]
  · simp only [hvalue, Fin.eta]
  · rw [hvalue]
    exact k.isLt
  · simp only [not_or, Bool.not_eq_true', Bool.not_eq_false, List.all_eq_true]
    exact ⟨Nat.toDigits_ne_nil, hdigits⟩

end Text

end Arxium
