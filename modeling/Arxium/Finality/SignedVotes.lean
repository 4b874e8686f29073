import Arxium.Primitives.Crypto

/-!
# Finality/SignedVotes — what a validator remembers having signed

Before a validator signs a vote it records it, in memory and in a file that outlives the chain
database.  The record refuses a second vote of a kind in a round, a vote in a round already left,
and a prevote against the validator's own lock.

Writing the file can fail in two ways: the old file stays, or the new one is in place and only the
directory could not be synced.  In both the vote is refused and taken back from memory, so the file
may hold one vote more than memory, which was never signed; a restart brings it back.
-/

namespace Arxium

namespace Finality

/-- A `u64`. -/
abbrev Height := Fin (2 ^ 64)

instance neZeroHeight : NeZero (2 ^ 64) := inferInstance

/-- A `u32`. -/
abbrev Round := Fin (2 ^ 32)

instance neZeroRound : NeZero (2 ^ 32) := inferInstance

/-- A block hash or an execution proof. -/
abbrev Hash32 := {b : Bytes // b.length = 32}

inductive Kind
  | prevote
  | precommit
  | timeout
deriving DecidableEq, Repr

/-- A vote, on a hash in whatever form the caller has it. -/
structure Entry (H : Type) where
  kind : Kind
  height : Height
  round : Round
  /-- The block, or for a timeout its parent. -/
  hash : H
deriving DecidableEq

/-- What the file holds.  Nothing at or below the floor is ever signed again. -/
structure SignedVotes (H : Type) where
  floor : Height := 0
  entries : List (Entry H) := []

inductive Refusal (H : Type)
  | floor (floor : Height)
  | conflict (hash : H)
  | roundLeft (kind : Kind) (round : Round)
  | lock (round : Round) (hash : H)
  | writeFailed

/-- How a write of the file ends. -/
inductive Persist
  | durable
  /-- The write is reported as failed, and the new file is there nevertheless or is not. -/
  | failed (landed : Bool)
deriving DecidableEq, Repr

/-- The record in memory, and the file if there is one. -/
structure VoteFile (H : Type) where
  memory : SignedVotes H := {}
  disk : Option (SignedVotes H) := none

section Record

variable {H : Type} [DecidableEq H]

namespace SignedVotes

/-- `max_by_key` on the round: of equal rounds the last one. -/
def laterRound (best : Option (Entry H)) (e : Entry H) : Option (Entry H) :=
  match best with
  | none => some e
  | some b => if b.round ≤ e.round then some e else some b

/-- The latest precommit at a height. -/
def lock (s : SignedVotes H) (height : Height) : Option (Round × H) :=
  ((s.entries.filter fun e => e.height = height ∧ e.kind = .precommit).foldl laterRound none).map
    fun e => (e.round, e.hash)

/-- The entry of a kind at a height and round. -/
def find (s : SignedVotes H) (kind : Kind) (height : Height) (round : Round) : Option (Entry H) :=
  s.entries.find? fun e => e.height = height ∧ e.round = round ∧ e.kind = kind

/-- A vote that shows the round was left: one at a later round, or its timeout. -/
def findLeft (s : SignedVotes H) (height : Height) (round : Round) : Option (Entry H) :=
  s.entries.find? fun e =>
    e.height = height ∧ (round < e.round ∨ (e.round = round ∧ e.kind = .timeout))

/-- The checks of `claim`: the record to write, or `none` when the identical vote is recorded
already. -/
def claim (s : SignedVotes H) (e : Entry H) : Except (Refusal H) (Option (SignedVotes H)) :=
  if e.height ≤ s.floor then .error (.floor s.floor)
  else
    match s.find e.kind e.height e.round with
    | some old => if old.hash ≠ e.hash then .error (.conflict old.hash) else .ok none
    | none =>
      match if e.kind = .timeout then none else s.findLeft e.height e.round with
      | some left => .error (.roundLeft left.kind left.round)
      | none => .ok (some { s with entries := s.entries ++ [e] })

end SignedVotes

namespace VoteFile

/-- A restart reads the file back; without one the record is empty. -/
def load (f : VoteFile H) : VoteFile H := { f with memory := f.disk.getD {} }

/-- The file after a write of `s`. -/
def persist (f : VoteFile H) (s : SignedVotes H) : Persist → Option (SignedVotes H)
  | .durable | .failed true => some s
  | .failed false => f.disk

/-- `claim`: the vote may be signed only on `ok`. -/
def claim (f : VoteFile H) (e : Entry H) (p : Persist) : Except (Refusal H) Unit × VoteFile H :=
  match f.memory.claim e with
  | .error r => (.error r, f)
  | .ok none => (.ok (), f)
  | .ok (some s) =>
    match p with
    | .durable => (.ok (), ⟨s, some s⟩)
    | .failed _ => (.error .writeFailed, { f with disk := f.persist s p })

/-- `claim_prevote`: a validator locked on another block needs a quorum of prevotes for this one at
or after its lock. -/
def claimPrevote (f : VoteFile H) (height : Height) (round : Round) (hash : H)
    (polRound : Option Round) (p : Persist) : Except (Refusal H) Unit × VoteFile H :=
  match f.memory.lock height with
  | some (lockedRound, locked) =>
    if locked ≠ hash ∧ ¬ polRound.any (fun pol => lockedRound ≤ pol ∧ pol ≤ round) then
      (.error (.lock lockedRound locked), f)
    else f.claim ⟨.prevote, height, round, hash⟩ p
  | none => f.claim ⟨.prevote, height, round, hash⟩ p

def claimPrecommit (f : VoteFile H) (height : Height) (round : Round) (hash : H)
    (p : Persist) : Except (Refusal H) Unit × VoteFile H := f.claim ⟨.precommit, height, round, hash⟩ p

def claimTimeout (f : VoteFile H) (height : Height) (round : Round) (parent : H)
    (p : Persist) : Except (Refusal H) Unit × VoteFile H := f.claim ⟨.timeout, height, round, parent⟩ p

/-- `cutoff.saturating_sub(1)`. -/
def floorBelow (cutoff : Height) : Height := if cutoff = 0 then 0 else cutoff - 1

/-- `prune_below`: drops what is below the cutoff and refuses it from now on.  Memory keeps the new
floor even when the write fails. -/
def pruneBelow (f : VoteFile H) (cutoff : Height) (p : Persist) : VoteFile H :=
  let floor := floorBelow cutoff
  if floor ≤ f.memory.floor then f
  else
    let s : SignedVotes H := ⟨floor, f.memory.entries.filter fun e => floor < e.height⟩
    ⟨s, f.persist s p⟩

end VoteFile

/-! ## Locks -/

section Lock

omit [DecidableEq H] in
theorem foldl_laterRound (l : List (Entry H)) (best : Option (Entry H)) (hbest : best.isSome ∨ l ≠ []) :
    ∃ e, l.foldl SignedVotes.laterRound best = some e ∧ (e ∈ l ∨ best = some e) ∧
      (∀ e' ∈ l, e'.round ≤ e.round) ∧ ∀ b, best = some b → b.round ≤ e.round := by
  induction l generalizing best with
  | nil =>
    obtain ⟨b, rfl⟩ : ∃ b, best = some b := by
      rcases hbest with h | h
      · exact Option.isSome_iff_exists.mp h
      · exact absurd rfl h
    exact ⟨b, rfl, .inr rfl, by simp, by simp⟩
  | cons a l ih =>
    obtain ⟨c, hc, hac, hbc, hmem⟩ : ∃ c, SignedVotes.laterRound best a = some c ∧
        a.round ≤ c.round ∧ (∀ b, best = some b → b.round ≤ c.round) ∧
        (c = a ∨ best = some c) := by
      rcases best with _ | b
      · exact ⟨a, rfl, le_refl _, by simp, .inl rfl⟩
      · rcases le_or_gt b.round a.round with h | h
        · exact ⟨a, if_pos h, le_refl _, by simpa using h, .inl rfl⟩
        · exact ⟨b, if_neg (not_le.mpr h), h.le, by simp, .inr rfl⟩
    obtain ⟨e, he, hel, hle, hce⟩ := ih (some c) (.inl rfl)
    refine ⟨e, by rw [List.foldl_cons, hc, he], ?_, ?_, ?_⟩
    · rcases hel with h | h
      · exact .inl (List.mem_cons_of_mem a h)
      · obtain rfl : c = e := Option.some.inj h
        rcases hmem with rfl | h
        · exact .inl List.mem_cons_self
        · exact .inr h
    · intro e' he'
      rcases List.mem_cons.mp he' with rfl | h
      · exact hac.trans (hce c rfl)
      · exact hle e' h
    · exact fun b hb => (hbc b hb).trans (hce c rfl)

omit [DecidableEq H] in
/-- No lock, no precommit. -/
theorem SignedVotes.lock_eq_none {s : SignedVotes H} {height : Height} (h : s.lock height = none) :
    ∀ e ∈ s.entries, e.height = height → e.kind ≠ .precommit := by
  intro e he hheight hkind
  have hne : (s.entries.filter fun e => e.height = height ∧ e.kind = .precommit) ≠ [] :=
    List.ne_nil_of_mem (List.mem_filter.mpr ⟨he, by simp [hheight, hkind]⟩)
  obtain ⟨b, hb, -⟩ := foldl_laterRound _ none (.inr hne)
  rw [SignedVotes.lock, hb] at h
  cases h

omit [DecidableEq H] in
/-- **The lock is a recorded precommit of the highest round.** -/
theorem SignedVotes.lock_eq_some {s : SignedVotes H} {height : Height} {round : Round}
    {hash : H} (h : s.lock height = some (round, hash)) :
    ⟨.precommit, height, round, hash⟩ ∈ s.entries ∧
      ∀ e ∈ s.entries, e.height = height → e.kind = .precommit → e.round ≤ round := by
  have hne : (s.entries.filter fun e => e.height = height ∧ e.kind = .precommit) ≠ [] := by
    intro hnil
    rw [SignedVotes.lock, hnil] at h
    cases h
  obtain ⟨b, hb, hmem, hle, -⟩ := foldl_laterRound _ none (.inr hne)
  rw [SignedVotes.lock, hb] at h
  obtain ⟨rfl, rfl⟩ : b.round = round ∧ b.hash = hash := by simpa using h
  obtain ⟨hb', hcond⟩ := List.mem_filter.mp (hmem.resolve_right (by simp))
  obtain ⟨rfl, hkind⟩ : b.height = height ∧ b.kind = .precommit := by simpa using hcond
  refine ⟨?_, fun e he hheight hk => hle e (List.mem_filter.mpr ⟨he, by simp [hheight, hk]⟩)⟩
  rw [← hkind]
  exact hb'

end Lock

/-! ## Claims -/

/-- A vote that is new to the record, and allowed by it. -/
structure SignedVotes.Admits (s : SignedVotes H) (e : Entry H) : Prop where
  floor : s.floor < e.height
  fresh : ∀ e' ∈ s.entries, e'.kind = e.kind → e'.height = e.height → e'.round ≠ e.round
  entered : e.kind ≠ .timeout → ∀ e' ∈ s.entries, e'.height = e.height → e'.round ≤ e.round
  running : e.kind ≠ .timeout → ∀ e' ∈ s.entries, e'.height = e.height → e'.kind = .timeout →
    e'.round ≠ e.round

/-- The record with one more vote. -/
def SignedVotes.push (s : SignedVotes H) (e : Entry H) : SignedVotes H :=
  { s with entries := s.entries ++ [e] }

section Claims

variable {s : SignedVotes H} {f : VoteFile H} {e : Entry H} {p : Persist}

/-- An identical vote is there, or a new one is admitted and added. -/
theorem SignedVotes.claim_eq_ok {new : Option (SignedVotes H)} (h : s.claim e = .ok new) :
    (s.floor < e.height ∧ e ∈ s.entries ∧ new = none) ∨
      (s.Admits e ∧ new = some (s.push e)) := by
  unfold SignedVotes.claim at h
  split at h
  · cases h
  rename_i hfloor
  split at h
  · rename_i old hold
    split at h
    · cases h
    rename_i hhash
    have hmem : old ∈ s.entries := List.mem_of_find?_eq_some hold
    obtain ⟨hh, hr, hk⟩ : old.height = e.height ∧ old.round = e.round ∧ old.kind = e.kind := by
      simpa using List.find?_some hold
    have heq : old = e := by
      cases old
      cases e
      simp_all
    exact .inl ⟨not_le.mp hfloor, heq ▸ hmem, (Except.ok.inj h).symm⟩
  · rename_i hnone
    split at h
    · cases h
    rename_i hleft
    refine .inr ⟨⟨not_le.mp hfloor, ?_, ?_, ?_⟩, (Except.ok.inj h).symm⟩
    · intro e' he' hk hh hr
      simpa [hh, hr, hk] using List.find?_eq_none.mp hnone e' he'
    · intro hk e' he' hh
      rw [if_neg hk] at hleft
      by_contra hlt
      simpa [hh, not_le.mp hlt] using List.find?_eq_none.mp hleft e' he'
    · intro hk e' he' hh hkind hr
      rw [if_neg hk] at hleft
      simpa [hh, hkind, hr] using List.find?_eq_none.mp hleft e' he'

/-- **How a claim can end.** -/
inductive VoteFile.ClaimResult (f : VoteFile H) (e : Entry H) : Except (Refusal H) Unit × VoteFile H → Prop
  /-- Refused, with nothing written. -/
  | refused (r : Refusal H) : ClaimResult f e (.error r, f)
  /-- On record already. -/
  | again (hfloor : f.memory.floor < e.height) (h : e ∈ f.memory.entries) :
      ClaimResult f e (.ok (), f)
  /-- Recorded, to be signed. -/
  | recorded (h : f.memory.Admits e) :
      ClaimResult f e (.ok (), ⟨f.memory.push e, some (f.memory.push e)⟩)
  /-- In the file, although the write was reported as failed: not to be signed. -/
  | stray (h : f.memory.Admits e) (r : Refusal H) :
      ClaimResult f e (.error r, { f with disk := some (f.memory.push e) })

theorem VoteFile.claim_result (f : VoteFile H) (e : Entry H) (p : Persist) :
    f.ClaimResult e (f.claim e p) := by
  unfold VoteFile.claim
  cases hc : f.memory.claim e with
  | error r => exact .refused r
  | ok new =>
    rcases SignedVotes.claim_eq_ok hc with ⟨hfloor, hmem, rfl⟩ | ⟨ha, rfl⟩
    · exact .again hfloor hmem
    · rcases p with _ | landed
      · exact .recorded ha
      · cases landed
        · exact .refused _
        · exact .stray ha _

/-- A prevote past the lock is a claim. -/
theorem VoteFile.claimPrevote_result (f : VoteFile H) (h : Height) (r : Round) (b : H)
    (polRound : Option Round) (p : Persist) :
    (∃ refusal, f.claimPrevote h r b polRound p = (.error refusal, f)) ∨
      (f.claimPrevote h r b polRound p = f.claim ⟨.prevote, h, r, b⟩ p ∧
        ∀ lockRound locked, f.memory.lock h = some (lockRound, locked) →
          locked = b ∨ ∃ pol, polRound = some pol ∧ lockRound ≤ pol ∧ pol ≤ r) := by
  unfold VoteFile.claimPrevote
  cases hlock : f.memory.lock h with
  | none => exact .inr ⟨rfl, by simp⟩
  | some l =>
    obtain ⟨lockRound, locked⟩ := l
    dsimp only
    split
    · exact .inl ⟨_, rfl⟩
    · rename_i hcond
      refine .inr ⟨rfl, ?_⟩
      rintro _ _ ⟨⟩
      by_cases hb : locked = b
      · exact .inl hb
      · right
        have hany := not_not.mp fun hn => hcond ⟨hb, hn⟩
        obtain ⟨pol, hpol, hle⟩ := (Option.any_eq_true _ _).mp hany
        exact ⟨pol, hpol, by simpa using hle⟩

end Claims

end Record

end Finality

end Arxium
