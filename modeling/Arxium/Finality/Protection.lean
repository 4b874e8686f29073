import Arxium.Finality.Keeper
import Arxium.Lib.Text

/-!
# Finality/Protection — the vote record over a validator's whole life

The record is a text file, written whole before each signature and read back after each crash.  For
hashes that are single words, as the texts of hashes are, what is read back is what was written.  So
over any sequence of claims, prunings, failed writes and restarts the votes that were granted never
conflict.
-/

namespace Arxium

namespace Finality

open Text

/-! ## The file -/

namespace Kind

def letter : Kind → Char
  | .prevote => 'v'
  | .precommit => 'p'
  | .timeout => 't'

def ofWord : List Char → Option Kind
  | ['v'] => some .prevote
  | ['p'] => some .precommit
  | ['t'] => some .timeout
  | _ => none

end Kind

namespace Entry

def line (e : Entry String) : List Char :=
  spaced [[e.kind.letter], decimal e.height, decimal e.round, e.hash.toList]

def ofLine (l : List Char) : Option (Entry String) :=
  match words l with
  | [kind, height, round, hash] => do
    let kind ← Kind.ofWord kind
    let height ← parseUnsigned (2 ^ 64) height
    let round ← parseUnsigned (2 ^ 32) round
    some ⟨kind, height, round, String.ofList hash⟩
  | _ => none

end Entry

namespace SignedVotes

/-- The text `persist` writes. -/
def text (genesis : String) (s : SignedVotes String) : List Char :=
  unlines (spaced [genesis.toList, decimal s.floor] :: s.entries.map Entry.line)

/-- `load`, on the file if there is one; `none` on a malformed file. -/
def load (genesis : String) : Option (List Char) → Option (SignedVotes String)
  | none => some {}
  | some text =>
    match words ((lines text).headD []) with
    | [chain, floor] =>
      if String.ofList chain ≠ genesis then some {}
      else do
        let floor ← parseUnsigned (2 ^ 64) floor
        let entries ← (lines text).tail.mapM Entry.ofLine
        some ⟨floor, entries⟩
    | _ => none

end SignedVotes

/-- One word, as the texts of hashes are. -/
def IsWord (s : String) : Prop := Word s.toList

instance (s : String) : Decidable (IsWord s) := inferInstanceAs (Decidable (Word _))

theorem Kind.word_letter (k : Kind) : Word [k.letter] := by
  refine ⟨by simp, fun c hc => ?_⟩
  obtain rfl := List.mem_singleton.mp hc
  cases k <;> rfl

theorem Kind.ofWord_letter (k : Kind) : Kind.ofWord [k.letter] = some k := by
  cases k <;> rfl

theorem words_line {e : Entry String} (he : IsWord e.hash) :
    words e.line = [[e.kind.letter], decimal e.height, decimal e.round, e.hash.toList] := by
  refine words_spaced fun w hw => ?_
  simp only [List.mem_cons, List.not_mem_nil, or_false] at hw
  rcases hw with rfl | rfl | rfl | rfl
  · exact e.kind.word_letter
  · exact word_decimal _
  · exact word_decimal _
  · exact he

theorem Entry.ofLine_line {e : Entry String} (he : IsWord e.hash) :
    Entry.ofLine e.line = some e := by
  simp [Entry.ofLine, words_line he, Kind.ofWord_letter, parseUnsigned_decimal]

theorem newline_not_mem {ws : List (List Char)} (hws : ∀ w ∈ ws, Word w) : '\n' ∉ spaced ws := by
  intro hmem
  have hsolid : ∀ w ∈ ws, '\n' ∉ w := fun w hw hc => by
    have hspace := (hws w hw).solid _ hc
    exact absurd hspace (by decide)
  induction ws with
  | nil => simp [spaced] at hmem
  | cons w ws ih =>
    cases ws with
    | nil => exact hsolid w List.mem_cons_self (by simpa [spaced, List.intercalate] using hmem)
    | cons v ws =>
      have hcons : spaced (w :: v :: ws) = w ++ ' ' :: spaced (v :: ws) := by
        simp [spaced, List.intercalate]
      rw [hcons, List.mem_append, List.mem_cons] at hmem
      rcases hmem with hmem | hmem | hmem
      · exact hsolid w List.mem_cons_self hmem
      · exact absurd hmem (by decide)
      · exact ih (fun u hu => hws u (List.mem_cons_of_mem w hu)) hmem
          fun u hu => hsolid u (List.mem_cons_of_mem w hu)

theorem mapM_ofLine {es : List (Entry String)} (hes : ∀ e ∈ es, IsWord e.hash) :
    (es.map Entry.line).mapM Entry.ofLine = some es := by
  induction es with
  | nil => rfl
  | cons e es ih =>
    have htail := ih fun e' he' => hes e' (List.mem_cons_of_mem e he')
    rw [List.map_cons, List.mapM_cons, Entry.ofLine_line (hes e List.mem_cons_self), htail]
    rfl

/-- **The record is read back as it was written.** -/
theorem SignedVotes.load_text {genesis : String} (hgenesis : IsWord genesis)
    {s : SignedVotes String} (hs : ∀ e ∈ s.entries, IsWord e.hash) :
    load genesis (some (s.text genesis)) = some s := by
  have hheader : ∀ w ∈ [genesis.toList, decimal s.floor], Word w := by
    intro w hw
    simp only [List.mem_cons, List.not_mem_nil, or_false] at hw
    rcases hw with rfl | rfl
    · exact hgenesis
    · exact word_decimal _
  have hlines : lines (s.text genesis) =
      spaced [genesis.toList, decimal s.floor] :: s.entries.map Entry.line := by
    refine lines_unlines fun l hl => ?_
    rcases List.mem_cons.mp hl with rfl | hl
    · exact newline_not_mem hheader
    · obtain ⟨e, he, rfl⟩ := List.mem_map.mp hl
      refine newline_not_mem fun w hw => ?_
      simp only [List.mem_cons, List.not_mem_nil, or_false] at hw
      rcases hw with rfl | rfl | rfl | rfl
      · exact e.kind.word_letter
      · exact word_decimal _
      · exact word_decimal _
      · exact hs e he
  have hentries : (s.entries.map Entry.line).mapM Entry.ofLine = some s.entries := by
    exact mapM_ofLine hs
  simp [load, hlines, words_spaced hheader, parseUnsigned_decimal, hentries]

/-! ## A validator's life -/

/-- A granted claim: the vote, the lock quorum it came with, and every vote that was on record at
any time before. -/
structure Grant where
  entry : Entry String
  polRound : Option Round
  before : List (Entry String)

/-- The record, every vote it ever held, and the granted claims, the newest first. -/
structure Keeper where
  file : VoteFile String := {}
  recorded : List (Entry String) := []
  granted : List Grant := []

namespace Keeper

/-- A claim and its answer. -/
def answer (k : Keeper) (e : Entry String) (polRound : Option Round)
    (r : Except (Refusal String) Unit × VoteFile String) : Keeper :=
  match r.1 with
  | .ok () => ⟨r.2, e :: k.recorded, ⟨e, polRound, k.recorded⟩ :: k.granted⟩
  | .error _ => { k with file := r.2 }

/-- One call, or a crash and the restart after it.  A crash inside a call is a failed write, landed
or not, and a crash. -/
inductive Step (genesis : String) (k : Keeper) : Keeper → Prop
  | prevote (height : Height) (round : Round) (hash : String) (polRound : Option Round)
      (p : Persist) (hword : IsWord hash) :
      Step genesis k (k.answer ⟨.prevote, height, round, hash⟩ polRound
        (k.file.claimPrevote height round hash polRound p))
  | precommit (height : Height) (round : Round) (hash : String) (p : Persist)
      (hword : IsWord hash) :
      Step genesis k (k.answer ⟨.precommit, height, round, hash⟩ none
        (k.file.claimPrecommit height round hash p))
  | timeout (height : Height) (round : Round) (parent : String) (p : Persist)
      (hword : IsWord parent) :
      Step genesis k (k.answer ⟨.timeout, height, round, parent⟩ none
        (k.file.claimTimeout height round parent p))
  | prune (cutoff : Height) (p : Persist) :
      Step genesis k { k with file := k.file.pruneBelow cutoff p }
  | restart {s : SignedVotes String}
      (hload : SignedVotes.load genesis (k.file.disk.map (SignedVotes.text genesis)) = some s) :
      Step genesis k
        { k with file := { k.file with memory := s }, recorded := s.entries ++ k.recorded }

inductive Reachable (genesis : String) : Keeper → Prop
  | init : Reachable genesis {}
  | step {k k' : Keeper} (h : Reachable genesis k) (hstep : Step genesis k k') :
      Reachable genesis k'

end Keeper

/-! ## What a grant was checked against -/

structure Grant.Checked (g : Grant) : Prop where
  rounds : g.entry.kind ≠ .timeout → g.entry ∈ g.before ∨ InRound g.before g.entry
  lock : g.entry.kind = .prevote → Unlocked g.before g.entry g.polRound

structure Keeper.Sound (k : Keeper) : Prop where
  kept : Kept k.file k.recorded
  words : ∀ e ∈ k.file.memory.entries, IsWord e.hash
  savedWords : ∀ e ∈ (k.file.disk.getD {}).entries, IsWord e.hash
  granted : ∀ g ∈ k.granted, g.Checked ∧ g.entry ∈ k.recorded
  ordered : k.granted.Pairwise fun g g' => g'.entry ∈ g.before

namespace Keeper

variable {k k' : Keeper} {genesis : String} {e : Entry String} {polRound : Option Round}

theorem words_push {s : SignedVotes String} (hs : ∀ e ∈ s.entries, IsWord e.hash)
    (hword : IsWord e.hash) : ∀ e' ∈ (s.push e).entries, IsWord e'.hash := by
  intro e' he'
  rcases List.mem_append.mp he' with he' | he'
  · exact hs e' he'
  · exact List.mem_singleton.mp he' ▸ hword

/-- What a claim leaves is made of words still. -/
theorem Sound.words_claim (hk : k.Sound) (hword : IsWord e.hash)
    {r : Except (Refusal String) Unit × VoteFile String} (hr : k.file.ClaimResult e r) :
    (∀ e ∈ r.2.memory.entries, IsWord e.hash) ∧
      ∀ e ∈ (r.2.disk.getD {}).entries, IsWord e.hash := by
  cases hr with
  | refused | again => exact ⟨hk.words, hk.savedWords⟩
  | recorded => exact ⟨words_push hk.words hword, words_push hk.words hword⟩
  | stray => exact ⟨hk.words, words_push hk.words hword⟩

/-- **A claim keeps the record sound**, if the lock lets the vote pass. -/
theorem Sound.claim (hk : k.Sound) (hword : IsWord e.hash)
    {r : Except (Refusal String) Unit × VoteFile String} (hr : k.file.ClaimResult e r)
    (hlock : e.kind = .prevote → k.file.memory.floor < e.height →
      Unlocked k.recorded e polRound) : (k.answer e polRound r).Sound := by
  obtain ⟨hok, herror⟩ := hk.kept.claim hr
  obtain ⟨hwords, hsaved⟩ := hk.words_claim hword hr
  have hchecked := hk.kept.checked hr
  obtain ⟨answer, file⟩ := r
  cases answer with
  | error x => exact ⟨herror x rfl, hwords, hsaved, hk.granted, hk.ordered⟩
  | ok u =>
    obtain ⟨hfloor, hrounds⟩ := hchecked rfl
    refine ⟨hok rfl, hwords, hsaved, fun g hg => ?_, ?_⟩
    · rcases List.mem_cons.mp hg with rfl | hg
      · exact ⟨⟨hrounds, fun hkind => hlock hkind hfloor⟩, List.mem_cons_self⟩
      · exact ⟨(hk.granted g hg).1, List.mem_cons_of_mem e (hk.granted g hg).2⟩
    · exact List.pairwise_cons.mpr ⟨fun g hg => (hk.granted g hg).2, hk.ordered⟩

theorem Sound.prune (hk : k.Sound) (cutoff : Height) (p : Persist) :
    Sound { k with file := k.file.pruneBelow cutoff p } := by
  refine ⟨hk.kept.pruneBelow cutoff p, ?_, ?_, hk.granted, hk.ordered⟩
  all_goals
    unfold VoteFile.pruneBelow
    dsimp only
    split
  · exact hk.words
  · exact fun e he => hk.words e (List.mem_of_mem_filter he)
  · exact hk.savedWords
  · rcases p with _ | _ | _
    · exact fun e he => hk.words e (List.mem_of_mem_filter he)
    · exact hk.savedWords
    · exact fun e he => hk.words e (List.mem_of_mem_filter he)

/-- What a restart reads is the record that was written last. -/
theorem Sound.load_eq (hk : k.Sound) (hgenesis : IsWord genesis) :
    SignedVotes.load genesis (k.file.disk.map (SignedVotes.text genesis)) =
      some (k.file.disk.getD {}) := by
  cases hdisk : k.file.disk with
  | none => rfl
  | some saved =>
    have hsaved : ∀ e ∈ saved.entries, IsWord e.hash := fun e he =>
      hk.savedWords e (by rw [hdisk]; exact he)
    rw [Option.map_some, SignedVotes.load_text hgenesis hsaved, Option.getD_some]

theorem Step.sound (hstep : Step genesis k k') (hgenesis : IsWord genesis) (hk : k.Sound) :
    k'.Sound := by
  cases hstep with
  | prevote height round hash polRound p hword =>
    rcases k.file.claimPrevote_result height round hash polRound p with
      ⟨refusal, heq⟩ | ⟨heq, hlock⟩
    · rw [heq]
      exact hk
    · rw [heq]
      exact hk.claim hword (k.file.claim_result _ p) fun _ hfloor => hk.kept.unlocked hfloor hlock
  | precommit height round hash p hword =>
    exact hk.claim hword (k.file.claim_result _ p) (by simp)
  | timeout height round parent p hword =>
    exact hk.claim hword (k.file.claim_result _ p) (by simp)
  | prune cutoff p => exact hk.prune cutoff p
  | restart hload =>
    obtain rfl := Option.some.inj ((hk.load_eq hgenesis).symm.trans hload)
    exact ⟨hk.kept.load, hk.savedWords, hk.savedWords,
      fun g hg => ⟨(hk.granted g hg).1, List.mem_append_right _ (hk.granted g hg).2⟩, hk.ordered⟩

theorem Reachable.sound (hk : Reachable genesis k) (hgenesis : IsWord genesis) : k.Sound := by
  induction hk with
  | init => exact ⟨.empty, by simp, by simp, by simp, .nil⟩
  | step _ hstep ih => exact hstep.sound hgenesis ih

/-- **Votes the record grants never conflict.**  Of two grants of a kind in a round both are for one
hash; every vote granted before is among those a grant was checked against; a prevote or precommit
that was not on record yet is in no round that was left or timed out; and a prevote against the lock
came with a quorum between the lock's round and its own. -/
theorem grants_are_consistent (hgenesis : IsWord genesis) (hk : Reachable genesis k) :
    (∀ g ∈ k.granted, ∀ g' ∈ k.granted, g.entry.kind = g'.entry.kind →
      g.entry.height = g'.entry.height → g.entry.round = g'.entry.round →
      g.entry.hash = g'.entry.hash) ∧
    (k.granted.Pairwise fun g g' => g'.entry ∈ g.before) ∧
    (∀ g ∈ k.granted, g.entry.kind ≠ .timeout →
      g.entry ∈ g.before ∨ InRound g.before g.entry) ∧
    ∀ g ∈ k.granted, g.entry.kind = .prevote → Unlocked g.before g.entry g.polRound := by
  have hs := hk.sound hgenesis
  refine ⟨fun g hg g' hg' hkind hheight hround => ?_, hs.ordered,
    fun g hg => (hs.granted g hg).1.rounds, fun g hg => (hs.granted g hg).1.lock⟩
  exact congrArg Entry.hash (hs.kept.unique _ (hs.granted g hg).2 _ (hs.granted g' hg').2 hkind hheight
    hround)

/-- A prevote in round zero and one in round one. -/
def twoRounds : Keeper :=
  let k : Keeper := Keeper.answer {} ⟨.prevote, 1, 0, "A"⟩ none
    (VoteFile.claimPrevote {} 1 0 "A" none .durable)
  k.answer ⟨.prevote, 1, 1, "A"⟩ none (k.file.claimPrevote 1 1 "A" none .durable)

theorem twoRounds_reachable : Reachable "g" twoRounds := by
  have hword : IsWord "A" := by decide +kernel
  exact (Reachable.init.step (.prevote 1 0 "A" none .durable hword)).step
    (.prevote 1 1 "A" none .durable hword)

/-- Both prevotes are granted, the second past the first. -/
theorem grants_are_consistent_twoRounds : twoRounds.granted.length = 2 ∧
    ∀ g ∈ twoRounds.granted, g.entry ∈ g.before ∨ InRound g.before g.entry := by
  refine ⟨by decide, fun g hg => ?_⟩
  have hkind : ∀ g ∈ twoRounds.granted, g.entry.kind ≠ .timeout := by decide
  exact (grants_are_consistent (by decide +kernel) twoRounds_reachable).2.2.1 g hg (hkind g hg)

/-- **The identical vote is granted again in a round that was left**: after the prevote in round
one, the one in round zero is granted once more. -/
theorem left_round_granted_again : ∃ k, Reachable "g" k ∧ ∃ g g' earlier,
    k.granted = g :: g' :: earlier ∧ g.entry.kind = .prevote ∧
      g.entry.height = g'.entry.height ∧ g.entry.round < g'.entry.round :=
  ⟨twoRounds.answer ⟨.prevote, 1, 0, "A"⟩ none (twoRounds.file.claimPrevote 1 0 "A" none .durable),
    twoRounds_reachable.step (.prevote 1 0 "A" none .durable (by decide +kernel)),
    _, _, _, rfl, rfl, rfl, by decide⟩

end Keeper

end Finality

end Arxium
