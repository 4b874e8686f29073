import Arxium.Finality.SignedVotes

/-!
# Finality/Keeper — the record forgets nothing it could still be asked about

Whatever was ever on record is still there, in memory and in the file, or at or below the floor,
where nothing is granted any more.  So a claim is checked against every vote that was ever on record
at its height, however many prunings, failed writes and restarts lie between.

A vote is on record from the moment memory holds it.  That is when its claim is granted, or, for a
claim whose write was cut off or reported as failed although the file was replaced, when a restart
reads it back.
-/

namespace Arxium

namespace Finality

variable {H : Type}

/-- No other vote of the kind is in the round. -/
def Fresh (recorded : List (Entry H)) (e : Entry H) : Prop :=
  ∀ e' ∈ recorded, e'.kind = e.kind → e'.height = e.height → e'.round ≠ e.round

/-- The vote is in a round that was not left. -/
def InRound (recorded : List (Entry H)) (e : Entry H) : Prop :=
  ∀ e' ∈ recorded, e'.height = e.height →
    e'.round ≤ e.round ∧ (e'.kind = .timeout → e'.round ≠ e.round)

/-- Every lock, that is every recorded precommit of the highest round at the height, is on the
prevote's block, or gives way to its quorum. -/
def Unlocked (recorded : List (Entry H)) (e : Entry H) (polRound : Option Round) : Prop :=
  ∀ l ∈ recorded, l.kind = .precommit → l.height = e.height →
    (∀ l' ∈ recorded, l'.kind = .precommit → l'.height = e.height → l'.round ≤ l.round) →
    l.hash = e.hash ∨ ∃ pol, polRound = some pol ∧ l.round ≤ pol ∧ pol ≤ e.round

/-- The record against every vote that was ever on it. -/
structure Kept (f : VoteFile H) (recorded : List (Entry H)) : Prop where
  memory : f.memory.entries ⊆ recorded
  remembered : ∀ e ∈ recorded, e.height ≤ f.memory.floor ∨ e ∈ f.memory.entries
  saved : ∀ e ∈ recorded, e.height ≤ (f.disk.getD {}).floor ∨ e ∈ (f.disk.getD {}).entries
  unique : ∀ e ∈ recorded, ∀ e' ∈ recorded, e.kind = e'.kind → e.height = e'.height →
    e.round = e'.round → e = e'
  /-- At most one vote in the file was never on record. -/
  stray : ∃ stray : Option (Entry H), (∀ e, stray = some e → Fresh recorded e) ∧
    ∀ e ∈ (f.disk.getD {}).entries, e ∈ recorded ∨ stray = some e

namespace Kept

variable {f : VoteFile H} {recorded : List (Entry H)} {e : Entry H} {polRound : Option Round}

theorem empty : Kept ({} : VoteFile H) [] :=
  ⟨by simp, by simp, by simp, by simp, ⟨none, by simp, by simp⟩⟩

/-- Above the floor memory is the whole truth. -/
theorem mem_memory (hk : Kept f recorded) (he : f.memory.floor < e.height) {e' : Entry H}
    (he' : e' ∈ recorded) (hheight : e'.height = e.height) : e' ∈ f.memory.entries :=
  (hk.remembered e' he').resolve_left (by rw [hheight]; exact not_le.mpr he)

/-- A vote the record admits is new among all that were ever on record, -/
theorem fresh (hk : Kept f recorded) (hadmits : f.memory.Admits e) : Fresh recorded e :=
  fun e' he' hkind hheight =>
    hadmits.fresh e' (hk.mem_memory hadmits.floor he' hheight) hkind hheight

/-- in a round that was not left, -/
theorem inRound (hk : Kept f recorded) (hadmits : f.memory.Admits e) (hkind : e.kind ≠ .timeout) :
    InRound recorded e := fun e' he' hheight =>
  ⟨hadmits.entered hkind e' (hk.mem_memory hadmits.floor he' hheight) hheight,
    hadmits.running hkind e' (hk.mem_memory hadmits.floor he' hheight) hheight⟩

/-- and past the lock, for a prevote that passed the check. -/
theorem unlocked (hk : Kept f recorded) (hfloor : f.memory.floor < e.height)
    (hlock : ∀ lockRound locked, f.memory.lock e.height = some (lockRound, locked) →
      locked = e.hash ∨ ∃ pol, polRound = some pol ∧ lockRound ≤ pol ∧ pol ≤ e.round) :
    Unlocked recorded e polRound := by
  intro l hl hkind hheight hhighest
  have hmem := hk.mem_memory hfloor hl hheight
  cases hcase : f.memory.lock e.height with
  | none => exact absurd hkind (SignedVotes.lock_eq_none hcase l hmem hheight)
  | some lock =>
    obtain ⟨lockRound, locked⟩ := lock
    obtain ⟨hentry, hle⟩ := SignedVotes.lock_eq_some hcase
    have hround : l.round = lockRound :=
      le_antisymm (hle l hmem hheight hkind) (hhighest _ (hk.memory hentry) rfl rfl)
    have hsame : l = ⟨.precommit, e.height, lockRound, locked⟩ :=
      hk.unique l hl _ (hk.memory hentry) hkind hheight hround
    obtain ⟨rfl, rfl⟩ : l.round = lockRound ∧ l.hash = locked := by simp [hsame]
    exact hlock _ _ hcase

/-- A vote already on record changes nothing by being granted again. -/
theorem again (hk : Kept f recorded) (hrec : e ∈ recorded) : Kept f (e :: recorded) := by
  have hsub : ∀ e' ∈ e :: recorded, e' ∈ recorded := fun e' he' => by
    rcases List.mem_cons.mp he' with rfl | he'
    · exact hrec
    · exact he'
  obtain ⟨stray, hfresh, hdisk⟩ := hk.stray
  exact ⟨fun e' he' => List.mem_cons_of_mem e (hk.memory he'),
    fun e' he' => hk.remembered e' (hsub e' he'), fun e' he' => hk.saved e' (hsub e' he'),
    fun e₁ h₁ e₂ h₂ => hk.unique e₁ (hsub e₁ h₁) e₂ (hsub e₂ h₂),
    ⟨stray, fun e' he' e'' he'' => hfresh e' he' e'' (hsub e'' he''),
      fun e' he' => (hdisk e' he').imp_left (List.mem_cons_of_mem e)⟩⟩

/-- A new vote, in memory and in the file. -/
theorem push (hk : Kept f recorded) (hadmits : f.memory.Admits e) :
    Kept ⟨f.memory.push e, some (f.memory.push e)⟩ (e :: recorded) := by
  have hfresh := hk.fresh hadmits
  have hmemory : (f.memory.push e).entries ⊆ e :: recorded := by
    intro e' he'
    rcases List.mem_append.mp he' with he' | he'
    · exact List.mem_cons_of_mem e (hk.memory he')
    · exact List.mem_singleton.mp he' ▸ List.mem_cons_self
  have hremembered : ∀ e' ∈ e :: recorded, e'.height ≤ (f.memory.push e).floor ∨
      e' ∈ (f.memory.push e).entries := by
    intro e' he'
    rcases List.mem_cons.mp he' with rfl | he'
    · exact .inr (List.mem_append_right _ (List.mem_singleton_self _))
    · exact (hk.remembered e' he').imp_right (List.mem_append_left _)
  refine ⟨hmemory, hremembered, hremembered, ?_,
    ⟨none, by simp, fun e' he' => .inl (hmemory he')⟩⟩
  intro e₁ h₁ e₂ h₂ hkind hheight hround
  rcases List.mem_cons.mp h₁ with heq₁ | hmem₁
  · rcases List.mem_cons.mp h₂ with heq₂ | hmem₂
    · exact heq₁.trans heq₂.symm
    · subst heq₁
      exact absurd hround.symm (hfresh e₂ hmem₂ hkind.symm hheight.symm)
  · rcases List.mem_cons.mp h₂ with heq₂ | hmem₂
    · subst heq₂
      exact absurd hround (hfresh e₁ hmem₁ hkind hheight)
    · exact hk.unique e₁ hmem₁ e₂ hmem₂ hkind hheight hround

/-- **A granted vote goes on record, and a refused one changes nothing that matters.** -/
theorem claim (hk : Kept f recorded) {r : Except (Refusal H) Unit × VoteFile H}
    (hr : f.ClaimResult e r) :
    (r.1 = .ok () → Kept r.2 (e :: recorded)) ∧ (∀ x, r.1 = .error x → Kept r.2 recorded) := by
  cases hr with
  | refused refusal => exact ⟨nofun, fun _ _ => hk⟩
  | again hfloor hmem => exact ⟨fun _ => hk.again (hk.memory hmem), nofun⟩
  | recorded hadmits => exact ⟨fun _ => hk.push hadmits, nofun⟩
  | stray hadmits refusal =>
    refine ⟨nofun, fun _ _ => { hk with saved := ?_, stray := ⟨some e, ?_, ?_⟩ }⟩
    · exact fun e' he' => (hk.remembered e' he').imp_right (List.mem_append_left _)
    · rintro _ ⟨⟩
      exact hk.fresh hadmits
    · intro e' he'
      rcases List.mem_append.mp he' with he' | he'
      · exact .inl (hk.memory he')
      · exact .inr (congrArg some (List.mem_singleton.mp he').symm)

/-- What a granted claim was checked against. -/
theorem checked (hk : Kept f recorded) {r : Except (Refusal H) Unit × VoteFile H}
    (hr : f.ClaimResult e r) (hok : r.1 = .ok ()) :
    f.memory.floor < e.height ∧ (e.kind ≠ .timeout → e ∈ recorded ∨ InRound recorded e) := by
  cases hr with
  | refused refusal => cases hok
  | again hfloor hmem => exact ⟨hfloor, fun _ => .inl (hk.memory hmem)⟩
  | recorded hadmits => exact ⟨hadmits.floor, fun hkind => .inr (hk.inRound hadmits hkind)⟩
  | stray hadmits refusal => cases hok

/-- Pruning forgets only what the floor refuses from then on. -/
theorem pruneBelow (hk : Kept f recorded) (cutoff : Height) (p : Persist) :
    Kept (f.pruneBelow cutoff p) recorded := by
  unfold VoteFile.pruneBelow
  dsimp only
  split
  · exact hk
  rename_i hfloor
  generalize VoteFile.floorBelow cutoff = floor at hfloor ⊢
  have hmemory : f.memory.entries.filter (floor < ·.height) ⊆ recorded :=
    fun e he => hk.memory (List.mem_of_mem_filter he)
  have hremembered : ∀ e ∈ recorded,
      e.height ≤ floor ∨ e ∈ f.memory.entries.filter (floor < ·.height) := by
    intro e he
    rcases le_or_gt e.height floor with hle | hgt
    · exact .inl hle
    · have hmem := (hk.remembered e he).resolve_left fun hle => hfloor (hgt.le.trans hle)
      exact .inr (List.mem_filter.mpr ⟨hmem, decide_eq_true hgt⟩)
  have hlanded : Kept ⟨⟨floor, f.memory.entries.filter (floor < ·.height)⟩,
      some ⟨floor, f.memory.entries.filter (floor < ·.height)⟩⟩ recorded :=
    ⟨hmemory, hremembered, hremembered, hk.unique, ⟨none, by simp, fun e he => .inl (hmemory he)⟩⟩
  rcases p with _ | landed
  · exact hlanded
  · cases landed
    · exact { hk with memory := hmemory, remembered := hremembered }
    · exact hlanded

/-- A restart puts on record what only the file held. -/
theorem load (hk : Kept f recorded) : Kept f.load ((f.disk.getD {}).entries ++ recorded) := by
  obtain ⟨stray, hfresh, hdisk⟩ := hk.stray
  have hsaved : ∀ e ∈ (f.disk.getD {}).entries ++ recorded,
      e.height ≤ (f.disk.getD {}).floor ∨ e ∈ (f.disk.getD {}).entries := by
    intro e he
    rcases List.mem_append.mp he with he | he
    · exact .inr he
    · exact hk.saved e he
  have hunion : ∀ e ∈ (f.disk.getD {}).entries ++ recorded, e ∈ recorded ∨ stray = some e :=
    fun e he => by
      rcases List.mem_append.mp he with he | he
      · exact hdisk e he
      · exact .inl he
  refine ⟨fun e he => List.mem_append_left _ he, hsaved, hsaved, ?_,
    ⟨none, by simp, fun e he => .inl (List.mem_append_left _ he)⟩⟩
  intro e₁ h₁ e₂ h₂ hkind hheight hround
  rcases hunion e₁ h₁ with h₁ | h₁
  · rcases hunion e₂ h₂ with h₂ | h₂
    · exact hk.unique e₁ h₁ e₂ h₂ hkind hheight hround
    · exact absurd hround (hfresh e₂ h₂ e₁ h₁ hkind hheight)
  · rcases hunion e₂ h₂ with h₂ | h₂
    · exact absurd hround.symm (hfresh e₁ h₁ e₂ h₂ hkind.symm hheight.symm)
    · exact Option.some.inj (h₁.symm.trans h₂)

end Kept

end Finality

end Arxium
