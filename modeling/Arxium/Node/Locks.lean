import Arxium.Node.Compliance

/-!
# Node/Locks — locked units

An issuer may lock part of what someone holds, for good or up to a height.  A lock and a balance are
different rows, and an expiry changes what is locked without a write (`HolderState.lockedAt`).  Whatever
takes units from a holder without asking it cuts the lock to what is left (`Rwa.adjustedLock`), so locked
units are there (`Rows.LocksHeld`) — unless the issuer burns units it has locked itself.

A recovery merges two locks into one.  The merged lock has one expiry, and where only one of the two had
any, the other one ends with it (`HolderState.Merges`).
-/

namespace Arxium

open ReadProg Writes

/-! ## What is locked at a height -/

namespace HolderState

/-- What is locked at a height: nothing once the lock has ended. -/
def lockedAt (st : HolderState) (height : Nat) : Nat :=
  if st.lockExpiresAt.any (· ≤ height) then 0 else st.frozenAmount

/-- The state as it binds at a height. -/
def inForce (st : HolderState) (height : Nat) : HolderState :=
  if st.lockExpiresAt.any (· ≤ height) then { st with frozenAmount := 0, lockExpiresAt := none } else st

variable {st l r : HolderState} {height later : Nat}

theorem lockedAt_le (st : HolderState) (height : Nat) : st.lockedAt height ≤ st.frozenAmount := by
  unfold lockedAt
  split
  · exact Nat.zero_le _
  · exact le_rfl

theorem frozenAmount_inForce (st : HolderState) (height : Nat) :
    (st.inForce height).frozenAmount = st.lockedAt height := by
  unfold inForce lockedAt
  split <;> rfl

theorem frozen_inForce (st : HolderState) (height : Nat) : (st.inForce height).frozen = st.frozen := by
  unfold inForce
  split <;> rfl

theorem lockedAt_of_none (h : st.lockExpiresAt = none) (height : Nat) :
    st.lockedAt height = st.frozenAmount := by
  rw [lockedAt, h]
  rfl

theorem lockedAt_of_some {expiry : Nat} (h : st.lockExpiresAt = some expiry) (height : Nat) :
    st.lockedAt height = if expiry ≤ height then 0 else st.frozenAmount := by
  rw [lockedAt, h]
  simp

/-- An expiry still in force lies ahead. -/
theorem lt_of_inForce {expiry : Nat} (h : (st.inForce height).lockExpiresAt = some expiry) :
    height < expiry := by
  unfold inForce at h
  split at h
  · cases h
  · rename_i hlive
    rw [h] at hlive
    simpa using hlive

/-- From now on the state in force binds as the stored one does. -/
theorem lockedAt_inForce (h : height ≤ later) : (st.inForce height).lockedAt later = st.lockedAt later := by
  unfold inForce
  split
  · rename_i hended
    obtain ⟨expiry, hexpiry, hle⟩ := Option.any_eq_true _ _ |>.mp hended
    rw [lockedAt_of_none rfl, lockedAt_of_some hexpiry, if_pos ((of_decide_eq_true hle).trans h)]
  · rfl

/-- **A lock only ever runs out.** -/
theorem lockedAt_anti (h : height ≤ later) : st.lockedAt later ≤ st.lockedAt height := by
  rw [← lockedAt_inForce h, ← frozenAmount_inForce st height]
  exact lockedAt_le _ _

/-! ## Two locks made one -/

/-- The state a recovery leaves the replacement with. -/
def merge (r l : HolderState) : HolderState :=
  { r with
    frozenAmount := saturatingAdd r.frozenAmount l.frozenAmount
    lockExpiresAt := Rwa.laterExpiry r.lockExpiresAt l.lockExpiresAt
    frozen := r.frozen || l.frozen }

/-- **Both locks survive being merged**: the amounts fit together, and no lock without an expiry meets one
that has an expiry. -/
structure Merges (r l : HolderState) : Prop where
  fits : r.frozenAmount + l.frozenAmount ≤ u128Max
  left : r.lockExpiresAt = none → l.lockExpiresAt.isSome = true → r.frozenAmount = 0
  right : l.lockExpiresAt = none → r.lockExpiresAt.isSome = true → l.frozenAmount = 0

/-- While both locks are in force the merged one is their sum, as far as that fits. -/
theorem lockedAt_merge_now (hr : ∀ e, r.lockExpiresAt = some e → height < e)
    (hl : ∀ e, l.lockExpiresAt = some e → height < e) :
    l.lockedAt height = l.frozenAmount ∧ r.lockedAt height = r.frozenAmount ∧
      (r.merge l).lockedAt height = saturatingAdd r.frozenAmount l.frozenAmount := by
  have live : ∀ st : HolderState, (∀ e, st.lockExpiresAt = some e → height < e) →
      st.lockedAt height = st.frozenAmount := by
    intro st hst
    cases he : st.lockExpiresAt with
    | none => exact lockedAt_of_none he height
    | some e => rw [lockedAt_of_some he, if_neg (Nat.not_le.mpr (hst e he))]
  refine ⟨live l hl, live r hr, live _ fun e he => ?_⟩
  change Rwa.laterExpiry r.lockExpiresAt l.lockExpiresAt = some e at he
  cases hre : r.lockExpiresAt with
  | none =>
    rw [hre] at he
    exact hl e (by simpa [Rwa.laterExpiry] using he)
  | some x =>
    cases hle : l.lockExpiresAt with
    | none =>
      rw [hre, hle] at he
      exact hr e (hre.trans he)
    | some y =>
      rw [hre, hle] at he
      obtain rfl := Option.some.inj he
      exact (hr x hre).trans_le (le_max_left _ _)

/-- **A merge keeps both locks for as long as each lasts, exactly then.** -/
theorem merges_iff (hr : ∀ e, r.lockExpiresAt = some e → height < e)
    (hl : ∀ e, l.lockExpiresAt = some e → height < e) :
    (∀ later, height ≤ later → l.lockedAt later + r.lockedAt later ≤ (r.merge l).lockedAt later) ↔
      r.Merges l := by
  constructor
  · intro h
    refine ⟨?_, fun hre hle => ?_, fun hle hre => ?_⟩
    · have hnow := h height le_rfl
      obtain ⟨hl', hr', hm⟩ := lockedAt_merge_now hr hl
      rw [hl', hr', hm] at hnow
      exact (Nat.add_comm _ _).le.trans (hnow.trans (min_le_right _ _))
    -- At the one expiry there is, nothing is left of the merged lock.
    · obtain ⟨y, hy⟩ := Option.isSome_iff_exists.mp hle
      have hend := h y (hl y hy).le
      have hmerged : (r.merge l).lockExpiresAt = some y := by
        change Rwa.laterExpiry r.lockExpiresAt l.lockExpiresAt = some y
        rw [hre, hy]
        rfl
      rw [lockedAt_of_none hre, lockedAt_of_some hmerged, if_pos le_rfl] at hend
      omega
    · obtain ⟨x, hx⟩ := Option.isSome_iff_exists.mp hre
      have hend := h x (hr x hx).le
      have hmerged : (r.merge l).lockExpiresAt = some x := by
        change Rwa.laterExpiry r.lockExpiresAt l.lockExpiresAt = some x
        rw [hle, hx]
        rfl
      rw [lockedAt_of_none hle, lockedAt_of_some hmerged, if_pos le_rfl] at hend
      omega
  · intro h later _
    have hsum : (r.merge l).frozenAmount = r.frozenAmount + l.frozenAmount := saturatingAdd_eq h.fits
    have hmerged : (r.merge l).lockExpiresAt = Rwa.laterExpiry r.lockExpiresAt l.lockExpiresAt := rfl
    cases hre : r.lockExpiresAt with
    | none =>
      cases hle : l.lockExpiresAt with
      | none =>
        rw [hre, hle] at hmerged
        rw [lockedAt_of_none hre, lockedAt_of_none hle, lockedAt_of_none hmerged, hsum]
        omega
      | some y =>
        rw [hre, hle] at hmerged
        have hzero := h.left hre (by rw [hle]; rfl)
        rw [lockedAt_of_none hre, lockedAt_of_some hle, lockedAt_of_some hmerged, hsum]
        split <;> omega
    | some x =>
      cases hle : l.lockExpiresAt with
      | none =>
        rw [hre, hle] at hmerged
        have hzero := h.right hle (by rw [hre]; rfl)
        rw [lockedAt_of_none hle, lockedAt_of_some hre, lockedAt_of_some hmerged, hsum]
        split <;> omega
      | some y =>
        rw [hre, hle] at hmerged
        have hmax : (r.merge l).lockExpiresAt = some (max x y) := hmerged
        rw [lockedAt_of_some hre, lockedAt_of_some hle, lockedAt_of_some hmax, hsum]
        split <;> split <;> split <;> omega

end HolderState

/-! ## Recovery -/

/-- The stored state of a holder. -/
def Rows.holderState (rows : Rows) (asset : AssetRef) (holder : Address) : HolderState :=
  (rows (.assetHolderState asset holder)).getD ({} : HolderState)

/-- The rows with some holders' states set. -/
def Rows.mark (rows : Rows) (states : HolderStateUpdates) : Rows :=
  Writes.apply (holderStateWrites states) rows

section States

variable {rows : Rows} {a a' : Asset} {asset : AssetRef} {holder lost replacement : Address}
  {height : Nat} {balances : AssetBalanceUpdates} {states : HolderStateUpdates}

theorem lockedAmount_eq (rows : Rows) (asset : AssetRef) (holder : Address) (height : Nat) :
    rows.lockedAmount asset holder height = (rows.holderState asset holder).lockedAt height := rfl

theorem run_holderState_inForce {ε : Type} [Errors ε] (rows : Rows) (a : Asset) (holder : Address)
    (height : Nat) : (Rwa.holderState a holder height : Read ε _).run rows.view =
      .ok ((rows.holderState a.assetRef holder).inForce height) := by
  have hraw : (Rwa.rawHolderState a.assetRef holder : Read ε _).run rows.view =
      .ok (rows.holderState a.assetRef holder) := rfl
  rw [Rwa.holderState, run_bind, hraw]
  change Prog.run _ (if _ then _ else _) = _
  unfold HolderState.inForce
  split <;> rfl

theorem lookup_holderStateWrites (states : HolderStateUpdates) (asset : AssetRef) (holder : Address) :
    lookup (holderStateWrites states) (.assetHolderState asset holder) =
      (Updates.get? states (asset, holder)).map some :=
  lookup_entries (fun p : AssetRef × Address => Key.assetHolderState p.1 p.2) (fun _ => some)
    (fun _ _ h => Prod.ext (Key.assetHolderState.inj h).1 (Key.assetHolderState.inj h).2)
    (fun _ => rfl) states (asset, holder)

theorem holderState_mark (rows : Rows) (states : HolderStateUpdates) (asset : AssetRef)
    (holder : Address) : (rows.mark states).holderState asset holder =
      (Updates.get? states (asset, holder)).getD (rows.holderState asset holder) := by
  rw [Rows.holderState, Rows.mark, apply_apply, lookup_holderStateWrites]
  cases Updates.get? states (asset, holder) <;> rfl

/-- **What a recovery writes.** -/
theorem run_applyRecover
    (h : (Rwa.applyRecover a lost replacement height).run rows.view = .ok (a', balances, states)) :
    balances = [((a.assetRef, lost), 0), ((a.assetRef, replacement),
      saturatingAdd (rows.balance a.assetRef replacement) (rows.balance a.assetRef lost))] ∧
    states = [((a.assetRef, lost), {}), ((a.assetRef, replacement),
      ((rows.holderState a.assetRef replacement).inForce height).merge
        ((rows.holderState a.assetRef lost).inForce height))] := by
  unfold Rwa.applyRecover at h
  rw [Rows.run_balanceOf_bind] at h
  obtain ⟨_, hcheck, h⟩ := bind_ok.mp h
  obtain rfl := Rwa.balance_of_checkRecipient hcheck
  obtain ⟨_, hlost, h⟩ := bind_ok.mp h
  obtain rfl := Except.ok.inj ((run_holderState_inForce rows a lost height).symm.trans hlost)
  obtain ⟨_, hreplacement, h⟩ := bind_ok.mp h
  obtain rfl := Except.ok.inj ((run_holderState_inForce rows a replacement height).symm.trans hreplacement)
  simp only [pure_eq, run_ret, Except.ok.injEq, Prod.mk.injEq] at h
  exact ⟨h.2.1.symm, h.2.2.symm⟩

/-- **A recovery weakens no lock, exactly when the two locks merge.**  From its height on, and with no
further action, the replacement has at least as much locked as the two would have had, and is frozen if
one of them was. -/
theorem recovery_keeps_locks_iff
    (h : (Rwa.applyRecover a lost replacement height).run rows.view = .ok (a', balances, states)) :
    ((∀ later, height ≤ later →
        rows.lockedAmount a.assetRef lost later + rows.lockedAmount a.assetRef replacement later ≤
          (rows.mark states).lockedAmount a.assetRef replacement later) ∧
      ((rows.holderState a.assetRef lost).frozen = true ∨
        (rows.holderState a.assetRef replacement).frozen = true →
          ((rows.mark states).holderState a.assetRef replacement).frozen = true)) ↔
      ((rows.holderState a.assetRef replacement).inForce height).Merges
        ((rows.holderState a.assetRef lost).inForce height) := by
  obtain ⟨-, rfl⟩ := run_applyRecover h
  have hafter : ∀ rows' : Rows, rows' = rows.mark [((a.assetRef, lost), {}), ((a.assetRef, replacement),
      ((rows.holderState a.assetRef replacement).inForce height).merge
        ((rows.holderState a.assetRef lost).inForce height))] →
      rows'.holderState a.assetRef replacement =
        ((rows.holderState a.assetRef replacement).inForce height).merge
          ((rows.holderState a.assetRef lost).inForce height) := by
    rintro _ rfl
    rw [holderState_mark]
    simp [Updates.get?]
  rw [← HolderState.merges_iff (fun _ => HolderState.lt_of_inForce) fun _ => HolderState.lt_of_inForce]
  constructor
  · rintro ⟨hlocks, -⟩ later hlater
    have hle := hlocks later hlater
    rw [lockedAmount_eq, lockedAmount_eq, lockedAmount_eq, hafter _ rfl] at hle
    rwa [HolderState.lockedAt_inForce hlater, HolderState.lockedAt_inForce hlater]
  · intro hlocks
    refine ⟨fun later hlater => ?_, fun hfrozen => ?_⟩
    · have hle := hlocks later hlater
      rw [HolderState.lockedAt_inForce hlater, HolderState.lockedAt_inForce hlater] at hle
      rwa [lockedAmount_eq, lockedAmount_eq, lockedAmount_eq, hafter _ rfl]
    · rw [hafter _ rfl]
      change (HolderState.frozen _ || HolderState.frozen _) = true
      rw [HolderState.frozen_inForce, HolderState.frozen_inForce, Bool.or_eq_true]
      exact hfrozen.symm

end States

/-! ## What is left of a lock -/

section Adjusting

variable {rows : Rows} {a a' : Asset} {holder : Address} {height after numerator denominator : Nat}
  {balances : AssetBalanceUpdates} {states : HolderStateUpdates}

theorem Updates.mem_of_get? {α β : Type} [DecidableEq α] {u : Updates α β} {x : α} {b : β}
    (h : u.get? x = some b) : (x, b) ∈ u := by
  induction u with
  | nil => cases h
  | cons p u ih =>
    rw [Updates.get?, Option.or_eq_some_iff] at h
    rcases h with h | ⟨-, h⟩
    · exact List.mem_cons_of_mem _ (ih h)
    · split at h
      · rename_i hp
        obtain rfl := Option.some.inj h
        rw [← hp]
        exact List.mem_cons_self
      · cases h

theorem mark_append (rows : Rows) (states states' : HolderStateUpdates) :
    rows.mark (states ++ states') = (rows.mark states).mark states' := by
  rw [Rows.mark, holderStateWrites, List.map_append, apply_append]
  rfl

/-- Everyone else's state stays. -/
theorem holderState_mark_of_forall {asset : AssetRef} (h : ∀ p ∈ states, p.1 ≠ (asset, holder)) :
    (rows.mark states).holderState asset holder = rows.holderState asset holder := by
  rw [holderState_mark]
  cases hget : Updates.get? states (asset, holder) with
  | none => rfl
  | some st => exact absurd rfl (h _ (Updates.mem_of_get? hget))

/-- **An adjusted lock**: scaled, and cut to what is held; left alone if that changes nothing. -/
theorem run_adjustedLock {st : Option HolderState}
    (h : (Rwa.adjustedLock a holder after numerator denominator height).run rows.view = .ok st) :
    (st = none ∧ (rows.lockedAmount a.assetRef holder height = 0 ∨
      min (rows.lockedAmount a.assetRef holder height * numerator / denominator) after =
        rows.lockedAmount a.assetRef holder height)) ∨
    ∃ left, left = min (rows.lockedAmount a.assetRef holder height * numerator / denominator) after ∧
      st = some { (rows.holderState a.assetRef holder).inForce height with
        frozenAmount := left
        lockExpiresAt := if left = 0 then none
          else ((rows.holderState a.assetRef holder).inForce height).lockExpiresAt } := by
  obtain ⟨state, hstate, h⟩ := bind_ok.mp h
  obtain rfl := Except.ok.inj ((run_holderState_inForce rows a holder height).symm.trans hstate)
  have hlocked : ((rows.holderState a.assetRef holder).inForce height).frozenAmount =
      rows.lockedAmount a.assetRef holder height := HolderState.frozenAmount_inForce _ _
  dsimp only at h
  rw [hlocked] at h
  split at h
  · rename_i hzero
    exact .inl ⟨(Except.ok.inj h).symm, .inl hzero⟩
  · obtain ⟨product, hproduct, h⟩ := bind_ok.mp h
    obtain ⟨-, rfl⟩ := checkedMul_eq_some.mp (orFail_ok.mp hproduct)
    split at h
    · rename_i hsame
      exact .inl ⟨(Except.ok.inj h).symm, .inr hsame⟩
    · exact .inr ⟨_, rfl, (Except.ok.inj h).symm⟩

namespace Rwa

/-- The locks staged so far, against the balances staged so far.  A lock is adjusted from the stored one,
however often its holder is listed. -/
structure Staging.LocksOk (rows : Rows) (height numerator denominator : Nat) (a : Asset) (s : Staging) :
    Prop where
  named : s.asset.assetRef = a.assetRef
  own : ∀ p ∈ s.states, p.1.1 = a.assetRef
  scaled : ∀ p ∈ s.states, p.2.frozenAmount ≤
    rows.lockedAmount a.assetRef p.1.2 height * numerator / denominator
  held : ∀ o, (rows.mark s.states).lockedAmount a.assetRef o height ≤
    (rows.post s.balances).balance a.assetRef o

variable {rows : Rows} {a : Asset} {s s' : Staging} {holder : Address}
  {height numerator denominator : Nat} {moved : Asset × AssetBalanceUpdates}

theorem Staging.LocksOk.start (h : ∀ o, rows.lockedAmount a.assetRef o height ≤ rows.balance a.assetRef o) :
    Staging.LocksOk rows height numerator denominator a { asset := a } :=
  ⟨rfl, fun _ hp => absurd hp List.not_mem_nil, fun _ hp => absurd hp List.not_mem_nil, h⟩

/-- **A step of a corporate action keeps the locks held**, if it takes units from the listed holder only,
and from nobody where holdings grow. -/
theorem Staging.LocksOk.settle (h : s.LocksOk rows height numerator denominator a)
    (hnamed : moved.1.assetRef = a.assetRef)
    (hothers : ∀ o, o ≠ holder → (rows.post s.balances).balance a.assetRef o ≤
      ((rows.post s.balances).post moved.2).balance a.assetRef o)
    (hgrown : denominator < numerator → (rows.post s.balances).balance a.assetRef holder ≤
      ((rows.post s.balances).post moved.2).balance a.assetRef holder)
    (hrun : (s.settle holder moved numerator denominator height).run rows.view = .ok s') :
    s'.LocksOk rows height numerator denominator a := by
  obtain ⟨after, hafter, hrun⟩ := bind_ok.mp hrun
  rw [run_through, Rows.run_balanceOf, Except.ok.injEq, hnamed, Rows.post_append] at hafter
  obtain ⟨state, hstate, hrun⟩ := bind_ok.mp hrun
  obtain rfl := Except.ok.inj hrun
  have hlock := run_adjustedLock hstate
  rw [hnamed] at hlock
  rcases hlock with ⟨rfl, hsame⟩ | ⟨left, hleft, rfl⟩
  · refine ⟨hnamed, by simpa using h.own, by simpa using h.scaled, fun o => ?_⟩
    simp only [Option.elim_none, List.append_nil, Rows.post_append]
    by_cases ho : o = holder
    swap
    · exact (h.held o).trans (hothers o ho)
    subst ho
    rw [hafter]
    -- What is staged for this holder, if anything, was scaled from the same lock.
    rw [lockedAmount_eq, holderState_mark]
    cases hget : Updates.get? s.states (a.assetRef, o) with
    | none =>
      rw [Option.getD_none, ← lockedAmount_eq]
      rcases hsame with hzero | hmin
      · rw [hzero]
        exact Nat.zero_le _
      · rw [← hmin]
        exact min_le_right _ _
    | some st =>
      rw [Option.getD_some]
      have hst := h.scaled _ (Updates.mem_of_get? hget)
      have hheld := h.held o
      rw [lockedAmount_eq, holderState_mark, hget, Option.getD_some] at hheld
      have hlocked := st.lockedAt_le height
      dsimp only at hst
      generalize rows.lockedAmount a.assetRef o height = locked at hst hsame
      rcases hsame with rfl | hmin
      · rw [Nat.zero_mul, Nat.zero_div] at hst
        omega
      · by_cases hfits : locked * numerator / denominator ≤ after
        · omega
        · rw [hafter] at hgrown
          refine hheld.trans (hgrown (by_contra fun hratio => ?_))
          have hle : locked * numerator / denominator ≤ locked :=
            Nat.div_le_of_le_mul (by rw [Nat.mul_comm]; exact Nat.mul_le_mul_right _ (Nat.le_of_not_lt hratio))
          omega
  · refine ⟨hnamed, ?_, ?_, fun o => ?_⟩
    · exact List.forall_mem_append.mpr ⟨h.own, List.forall_mem_singleton.mpr hnamed⟩
    · refine List.forall_mem_append.mpr ⟨h.scaled, List.forall_mem_singleton.mpr ?_⟩
      rw [hleft]
      exact min_le_left _ _
    · simp only [Option.elim_some, Rows.post_append]
      rw [mark_append, lockedAmount_eq]
      by_cases ho : o = holder
      · subst ho
        rw [holderState_mark, hnamed]
        simp only [Updates.get?, if_true, Option.none_or, Option.getD_some]
        refine (HolderState.lockedAt_le _ _).trans ?_
        rw [hafter]
        exact hleft.le.trans (min_le_right _ _)
      · rw [holderState_mark_of_forall, ← lockedAmount_eq]
        · exact (h.held o).trans (hothers o ho)
        · intro p hp he
          obtain rfl := List.mem_singleton.mp hp
          exact ho (Prod.mk.inj he).2.symm

/-- A forced transfer takes from the sender only, and no more than it says. -/
theorem le_balance_applyForcedTransfer {t : Rows} {b b' : Asset} {sender recipient : Address}
    {amount : Nat} {balances : AssetBalanceUpdates}
    (h : (applyForcedTransfer b sender recipient amount).run t.view = .ok (b', balances)) :
    b'.assetRef = b.assetRef ∧
      (∀ o, o ≠ sender → t.balance b.assetRef o ≤ (t.post balances).balance b.assetRef o) ∧
      t.balance b.assetRef sender ≤ (t.post balances).balance b.assetRef sender + amount := by
  obtain ⟨-, ⟨-, rfl, rfl⟩ | ⟨hne, -, rfl, rfl⟩⟩ := run_applyForcedTransfer h
  · exact ⟨rfl, fun _ _ => le_rfl, Nat.le_add_right _ _⟩
  · refine ⟨by rw [trackHolder_eq, trackHolder_eq], fun o ho => ?_, ?_⟩
    · rw [Rows.balance_post_pair, Function.update_apply]
      split
      · rename_i hor
        rw [hor]
        exact Nat.le_add_right _ _
      · rw [Function.update_of_ne ho]
    · rw [Rows.balance_post_pair, Function.update_of_ne hne.symm, Function.update_self]
      omega

theorem le_balance_applyIssueTo {t : Rows} {b b' : Asset} {recipient : Address} {amount : Nat}
    {balances : AssetBalanceUpdates}
    (h : (applyIssueTo b recipient amount height).run t.view = .ok (b', balances)) :
    b'.assetRef = b.assetRef ∧ ∀ o, t.balance b.assetRef o ≤ (t.post balances).balance b.assetRef o := by
  obtain ⟨-, -, -, -, -, rfl, rfl⟩ := run_applyIssueTo h
  refine ⟨by rw [trackHolder_eq], fun o => ?_⟩
  rw [Rows.balance_post_single, Function.update_apply]
  split
  · rename_i ho
    rw [ho]
    exact Nat.le_add_right _ _
  · exact le_rfl

/-- What is issued to the issuer is added to its balance. -/
theorem assets_applyIssue {sender : Address} {nonce amount : Nat} {accounts : AccountUpdates}
    {a' : Asset} {balances : AssetBalanceUpdates}
    (h : (applyIssue a sender nonce amount).run rows.view = .ok (a', accounts, balances)) :
    ∃ who after, balances = [((a.assetRef, who), after)] ∧ rows.balance a.assetRef who ≤ after := by
  obtain ⟨_, _, _, h⟩ := run_rest₃ h
  obtain ⟨_, _, _, h⟩ := run_rest₃ h
  rw [Rows.run_balanceOf_bind] at h
  obtain ⟨_, hcredit, h⟩ := bind_ok.mp h
  obtain ⟨-, rfl⟩ := run_credit.mp hcredit
  simp only [pure_eq, run_ret, Except.ok.injEq, Prod.mk.injEq] at h
  exact ⟨sender, _, h.2.2.symm, Nat.le_add_right _ _⟩

theorem assets_applyBurn {issuer : Address} {amount : Nat} {a' : Asset}
    {balances : AssetBalanceUpdates}
    (h : (applyBurn a issuer amount).run rows.view = .ok (a', balances)) :
    amount ≤ rows.balance a.assetRef issuer ∧
      balances = [((a.assetRef, issuer), rows.balance a.assetRef issuer - amount)] := by
  unfold applyBurn at h
  rw [Rows.run_balanceOf_bind] at h
  obtain ⟨_, hheld, h⟩ := bind_ok.mp h
  obtain ⟨_, h⟩ := run_rest h
  exact ⟨of_decide_eq_true (ensure_ok.mp hheld), (Prod.mk.inj (Except.ok.inj h)).2.symm⟩

theorem locksOk_redeemOne (h : s.LocksOk rows height 1 1 a) (entry : Address × Nat) :
    (redeemOne height s entry).Ensures rows.view (Staging.LocksOk rows height 1 1 a) := by
  refine ensures_bind.mpr fun moved hmoved s' hs' => ?_
  rw [run_through] at hmoved
  obtain ⟨hname, hothers, -⟩ := le_balance_applyForcedTransfer hmoved
  rw [h.named] at hname hothers
  exact h.settle hname hothers (fun hlt => absurd hlt (lt_irrefl _)) hs'

theorem locksOk_splitOne (hpos : 0 < denominator) (h : s.LocksOk rows height numerator denominator a)
    (entry : Address × Nat) : (splitOne numerator denominator height s entry).Ensures rows.view
      (Staging.LocksOk rows height numerator denominator a) := by
  intro s' hs'
  obtain ⟨product, hproduct, hs'⟩ := bind_ok.mp hs'
  obtain ⟨-, rfl⟩ := checkedMul_eq_some.mp (orFail_ok.mp hproduct)
  dsimp only at hs'
  split at hs'
  · obtain ⟨moved, hmoved, hs'⟩ := bind_ok.mp hs'
    rw [run_through] at hmoved
    obtain ⟨hname, hgrown⟩ := le_balance_applyIssueTo hmoved
    rw [h.named] at hname hgrown
    exact h.settle hname (fun o _ => hgrown o) (fun _ => hgrown entry.1) hs'
  · obtain ⟨moved, hmoved, hs'⟩ := bind_ok.mp hs'
    rw [run_through] at hmoved
    obtain ⟨hname, hothers, hholder⟩ := le_balance_applyForcedTransfer hmoved
    rw [h.named] at hname hothers hholder
    refine h.settle hname hothers (fun hratio => ?_) hs'
    have hle : entry.2 ≤ entry.2 * numerator / denominator :=
      (Nat.le_div_iff_mul_le hpos).mpr (Nat.mul_le_mul_left _ hratio.le)
    rwa [Nat.sub_eq_zero_of_le hle, Nat.add_zero] at hholder

end Rwa

end Adjusting

/-! ## Any action -/

/-- The actions that write the state of a holder. -/
def ActionPayload.marksHolders : ActionPayload → Bool
  | .setHolderFrozen .. | .lockHolderAmount .. | .unlockHolderAmount .. | .lockHolderAmountUntil ..
  | .issuerForcedTransfer .. | .recoverHolder .. | .redeemHolders .. | .splitAsset ..
  | .verifyClaimProof .. => true
  | _ => false

/-- **The updates of an action leave everyone what is locked**, and mark holders of regulated assets
only. -/
structure LocksKept (rows : Rows) (height : Nat) (u : BlockUpdates) : Prop where
  own : ∀ p ∈ u.holderStates, rows.Regulated p.1.1
  held : ∀ asset o, (rows.mark u.holderStates).lockedAmount asset o height ≤
    (rows.post u.assets).balance asset o

namespace Runtime

section Handlers

variable {rows : Rows} {action : ChainAction} {u : BlockUpdates} {asset : AssetRef} {height : Nat}
  (hheld : ∀ asset o, rows.lockedAmount asset o height ≤ rows.balance asset o)

include hheld

/-- Updates of one asset. -/
theorem locksKept_of_own (hreg : rows.Regulated asset) (hstates : ∀ p ∈ u.holderStates, p.1.1 = asset)
    (hassets : ∀ p ∈ u.assets, p.1.1 = asset)
    (h : ∀ o, (rows.mark u.holderStates).lockedAmount asset o height ≤
      (rows.post u.assets).balance asset o) : LocksKept rows height u := by
  refine ⟨fun p hp => hstates p hp ▸ hreg, fun other o => ?_⟩
  by_cases hother : asset = other
  · exact hother ▸ h o
  · rw [lockedAmount_eq, holderState_mark_of_forall, balance_post_other hassets hother]
    · exact hheld other o
    · intro p hp he
      exact hother ((hstates p hp).symm.trans (congrArg Prod.fst he))

/-- One holder is marked, and no balance changes. -/
theorem locksKept_single (hreg : rows.Regulated asset) {holder : Address} {st : HolderState}
    (hst : st.lockedAt height ≤ rows.balance asset holder) :
    LocksKept rows height { holderStates := [((asset, holder), st)] } := by
  refine locksKept_of_own hheld hreg (by simp) (by simp) fun o => ?_
  rw [lockedAmount_eq, holderState_mark]
  by_cases ho : holder = o
  · subst ho
    simpa [Updates.get?] using hst
  · simpa [Updates.get?, ho, lockedAmount_eq] using hheld asset o

variable (hnamed : rows.AssetsNamed)

include hnamed

theorem locksKept_setHolderFrozen {holder : Address} {frozen : Bool}
    (h : (setHolderFrozen action asset holder frozen).run rows.view = .ok u) :
    LocksKept rows height u := by
  obtain ⟨a, ha, h⟩ := bind_ok.mp h
  obtain ⟨hstored, hclass, -⟩ := run_requireIssuer ha
  obtain ⟨states, hstates, h⟩ := bind_ok.mp h
  obtain rfl := Except.ok.inj h
  obtain rfl := Except.ok.inj (circuit_ok.mp hstates)
  obtain rfl := hnamed asset a hstored
  exact locksKept_single hheld ⟨a, hstored, hclass⟩ (hheld a.assetRef holder)

theorem locksKept_verifyClaimProof [Crypto] [Zk] {sub proof : Bytes} {days now timestamp : Nat}
    (h : (verifyClaimProof action asset sub days proof now timestamp).run rows.view = .ok u) :
    LocksKept rows height u := by
  obtain ⟨a, ha, h⟩ := bind_ok.mp h
  obtain ⟨hstored, hclass⟩ := run_resolveAsset.mp ha
  obtain ⟨_, _, h⟩ := run_rest₂ h
  obtain ⟨states, hstates, h⟩ := bind_ok.mp h
  obtain rfl := Except.ok.inj h
  obtain ⟨_, -, hstates⟩ := bind_ok.mp (circuit_ok.mp hstates)
  obtain ⟨_, hstates⟩ := run_rest hstates
  obtain rfl := Except.ok.inj hstates
  obtain rfl := hnamed asset a hstored
  exact locksKept_single hheld ⟨a, hstored, hclass⟩ (hheld a.assetRef action.sender)

/-- A lock is within the balance, and an unlock lowers it. -/
theorem locksKept_lockHolderAmount {holder : Address} {amount : Nat} {lock : Bool} {expiresAt : Option Nat}
    (h : (lockHolderAmount action asset holder amount lock expiresAt height).run rows.view = .ok u) :
    LocksKept rows height u := by
  obtain ⟨a, ha, h⟩ := bind_ok.mp h
  obtain ⟨hstored, hclass, -⟩ := run_requireIssuer ha
  obtain ⟨_, _, h⟩ := run_rest₂ h
  obtain ⟨states, hstates, h⟩ := bind_ok.mp h
  obtain rfl := Except.ok.inj h
  obtain ⟨state, hstate, hstates⟩ := bind_ok.mp (circuit_ok.mp hstates)
  obtain rfl := Except.ok.inj ((run_holderState_inForce rows a holder height).symm.trans hstate)
  obtain rfl := hnamed asset a hstored
  have hlocked := HolderState.frozenAmount_inForce (rows.holderState a.assetRef holder) height
  dsimp only at hstates
  split at hstates
  · rw [Rows.run_balanceOf_bind] at hstates
    obtain ⟨_, hfits, hstates⟩ := bind_ok.mp hstates
    obtain rfl := Except.ok.inj hstates
    refine locksKept_single hheld ⟨a, hstored, hclass⟩ ((HolderState.lockedAt_le _ _).trans ?_)
    exact of_decide_eq_true (ensure_ok.mp hfits)
  · obtain ⟨_, hstates⟩ := run_rest hstates
    obtain rfl := Except.ok.inj hstates
    refine locksKept_single hheld ⟨a, hstored, hclass⟩ ((HolderState.lockedAt_le _ _).trans ?_)
    refine (Nat.sub_le _ _).trans ?_
    rw [hlocked]
    exact hheld a.assetRef holder

/-- A forced transfer cuts the sender's lock to what the sender has left. -/
theorem locksKept_issuerForcedTransfer {sender recipient : Address} {amount : Nat} {reason : String}
    (h : (issuerForcedTransfer action asset sender recipient amount reason height).run rows.view =
      .ok u) : LocksKept rows height u := by
  obtain ⟨a, a', hrebooks, rfl, hmove⟩ := run_issuerForcedTransfer hnamed h
  have hreg : rows.Regulated a.assetRef := ⟨a, hrebooks.stored, hrebooks.regulated⟩
  have hown := (Rwa.posts_applyForcedTransferWithLock hrebooks.regulated hmove).own
  obtain ⟨⟨b, balances⟩, hforced, hmove⟩ := bind_ok.mp hmove
  obtain ⟨hname, hothers, -⟩ := Rwa.le_balance_applyForcedTransfer hforced
  dsimp only at hmove
  -- It is enough to look at the sender: everyone else keeps lock and units.
  have hsender {states : HolderStateUpdates} (hassets : u.assets = balances)
      (hstates : u.holderStates = states) (hmarks : ∀ p ∈ states, p.1 = (a.assetRef, sender))
      (hcut : (rows.mark states).lockedAmount a.assetRef sender height ≤
        (rows.post balances).balance a.assetRef sender) : LocksKept rows height u := by
    subst hassets hstates
    refine locksKept_of_own hheld hreg (fun p hp => congrArg Prod.fst (hmarks p hp)) hown fun o => ?_
    by_cases ho : o = sender
    · exact ho ▸ hcut
    · rw [lockedAmount_eq, holderState_mark_of_forall, ← lockedAmount_eq]
      · exact (hheld a.assetRef o).trans (hothers o ho)
      · exact fun p hp he => ho (Prod.mk.inj (he.symm.trans (hmarks p hp))).2
  have hbalance : (rows.post balances).balance a.assetRef sender =
      (Updates.get? balances (a.assetRef, sender)).getD (rows.balance a.assetRef sender) :=
    Rows.balance_post ..
  rw [hname] at hmove
  cases hget : Updates.get? balances (a.assetRef, sender) with
  | none =>
    -- Nothing moved.
    rw [hget] at hmove hbalance
    obtain ⟨-, hassets, hstates⟩ := pure_ok₃.mp hmove
    exact hsender hassets.symm hstates.symm (by simp) (hbalance ▸ hheld a.assetRef sender)
  | some after =>
    rw [hget] at hmove hbalance
    obtain ⟨state, hstate, hmove⟩ := bind_ok.mp hmove
    obtain ⟨-, hassets, hstates⟩ := pure_ok₃.mp hmove
    have hlock := run_adjustedLock hstate
    rw [hname] at hlock
    rcases hlock with ⟨rfl, hsame⟩ | ⟨left, hleft, rfl⟩
    · refine hsender hassets.symm hstates.symm (by simp) (hbalance ▸ ?_)
      change rows.lockedAmount a.assetRef sender height ≤ after
      rcases hsame with hzero | hmin
      · exact hzero ▸ Nat.zero_le _
      · exact hmin.ge.trans (min_le_right _ _)
    · refine hsender hassets.symm hstates.symm (by simp) (hbalance ▸ ?_)
      rw [lockedAmount_eq, holderState_mark]
      simp only [Option.elim_some, Updates.get?, if_true, Option.none_or, Option.getD_some]
      exact (HolderState.lockedAt_le _ _).trans (hleft.le.trans (min_le_right _ _))

/-- A recovery moves the lock with the units. -/
theorem locksKept_recoverHolder {lost replacement : Address}
    (h : (recoverHolder action asset lost replacement height).run rows.view = .ok u) :
    LocksKept rows height u := by
  obtain ⟨a, a', hrebooks, -, hmove⟩ := run_recoverHolder hnamed h
  obtain ⟨hassets, hstates⟩ := run_applyRecover hmove
  have hreg : rows.Regulated a.assetRef := ⟨a, hrebooks.stored, hrebooks.regulated⟩
  refine locksKept_of_own hheld hreg (by simp [hstates]) (by simp [hassets]) fun o => ?_
  rw [hassets, hstates, Rows.balance_post_pair, lockedAmount_eq, holderState_mark]
  by_cases hreplacement : replacement = o
  · subst hreplacement
    rw [Function.update_self]
    simp only [Updates.get?, if_true, Option.none_or, Option.some_or, Option.getD_some]
    refine (HolderState.lockedAt_le _ _).trans ?_
    change saturatingAdd _ _ ≤ _
    rw [HolderState.frozenAmount_inForce, HolderState.frozenAmount_inForce]
    exact min_le_min_right _ (Nat.add_le_add (hheld a.assetRef replacement) (hheld a.assetRef lost))
  · rw [Function.update_of_ne (Ne.symm hreplacement)]
    by_cases hlost : lost = o
    · subst hlost
      simp [Updates.get?, hreplacement, HolderState.lockedAt]
    · rw [Function.update_of_ne (Ne.symm hlost)]
      simpa [Updates.get?, hreplacement, hlost, lockedAmount_eq] using hheld a.assetRef o

theorem locksKept_redeem [Crypto] {snapshotHeight : Nat}
    (h : (redeem action asset snapshotHeight height).run rows.view = .ok u) :
    LocksKept rows height u := by
  obtain ⟨a, a', table, hrebooks, hmoved⟩ := run_redeem hnamed h
  have hown := (Rwa.posts_applyRedemption hrebooks.regulated hmoved).own
  obtain ⟨s, hs, hmoved⟩ := bind_ok.mp hmoved
  obtain ⟨_, hinto, hmoved⟩ := bind_ok.mp hmoved
  obtain rfl := Rwa.run_intoUpdates hinto
  obtain ⟨-, hassets, hstates⟩ := pure_ok₃.mp hmoved
  have hok := ensures_foldlM (fun s entry hs => Rwa.locksOk_redeemOne hs entry) _ _
    (Rwa.Staging.LocksOk.start (hheld a.assetRef)) s hs
  exact locksKept_of_own hheld ⟨a, hrebooks.stored, hrebooks.regulated⟩ (hstates ▸ hok.own) hown
    (hassets ▸ hstates ▸ hok.held)

theorem locksKept_split [Crypto] {snapshotHeight numerator denominator : Nat}
    (h : (split action asset snapshotHeight numerator denominator height).run rows.view = .ok u) :
    LocksKept rows height u := by
  obtain ⟨hpos, a, a', table, hrebooks, hmoved⟩ := run_split hnamed h
  have hown := (Rwa.posts_applySplit hrebooks.regulated hpos hmoved).own
  obtain ⟨s, hs, hmoved⟩ := bind_ok.mp hmoved
  obtain ⟨_, hinto, hmoved⟩ := bind_ok.mp hmoved
  obtain rfl := Rwa.run_intoUpdates hinto
  obtain ⟨-, hassets, hstates⟩ := pure_ok₃.mp hmoved
  have hok := ensures_foldlM (fun s entry hs => Rwa.locksOk_splitOne hpos hs entry) _ _
    (Rwa.Staging.LocksOk.start (hheld a.assetRef)) s hs
  exact locksKept_of_own hheld ⟨a, hrebooks.stored, hrebooks.regulated⟩ (hstates ▸ hok.own) hown
    (hassets ▸ hstates ▸ hok.held)

end Handlers

section Dispatch

variable [Crypto] [Wire ActionPayload] [Zk] [StateTrie] [Decode] {adjudicator : Adjudicator}
  {ctx : DispatchCtx} {rows : Rows} {action : ChainAction} {u : BlockUpdates}

/-- Every other action leaves the holders' states alone. -/
theorem yields_unmarked (h : action.payload.marksHolders = false) :
    (dispatchInner adjudicator ctx action).Yields fun u => u.holderStates = [] := by
  refine yields_fills.mono fun u hu => hu.holderStates ?_
  cases hp : action.payload <;> rw [hp] at h <;> first | rfl | cases h

omit [Crypto] [Wire ActionPayload] [Zk] [StateTrie] [Decode] in
/-- A token's holders have nothing locked. -/
theorem unregulated_of_token (heffect : AssetEffect rows action u) {a : Asset}
    (record : u.assetRegistration = some a) (htoken : a.assetClass = .token) :
    ¬ rows.Regulated a.assetRef := by
  rintro ⟨b, hb, hclass⟩
  cases heffect with
  | untouched _ none => exact absurd (record.symm.trans none) (by simp)
  | registered a' _ record' fresh =>
    obtain rfl := Option.some.inj (record.symm.trans record')
    exact absurd (hb.symm.trans fresh) (by simp)
  | launched a₀ a' record' fresh _ _ _ named =>
    obtain rfl := Option.some.inj (record.symm.trans record')
    rw [named] at hb
    exact absurd (hb.symm.trans fresh) (by simp)
  | posted a₀ a' D stored posts record' =>
    obtain rfl := Option.some.inj (record.symm.trans record')
    rw [posts.assetRef_eq] at hb
    obtain rfl := Option.some.inj (hb.symm.trans stored)
    exact hclass (posts.assetClass_eq.symm.trans htoken)
  | handedOver a₀ newIssuer _ _ regulated _ record' =>
    obtain rfl := Option.some.inj (record.symm.trans record')
    exact regulated htoken

/-- **Every action but a burn of locked units keeps the locks held.** -/
theorem locksKept_dispatchInner (hnamed : rows.AssetsNamed)
    (hheld : ∀ asset o, rows.lockedAmount asset o ctx.height ≤ rows.balance asset o)
    (hfree : ∀ asset, ¬ rows.Regulated asset → ∀ o, rows.lockedAmount asset o ctx.height = 0)
    (hburn : ∀ asset amount, action.payload = .burnAsset asset amount →
      rows.lockedAmount asset action.sender ctx.height + amount ≤ rows.balance asset action.sender)
    (h : (dispatchInner adjudicator ctx action).run rows.view = .ok u) :
    LocksKept rows ctx.height u := by
  have heffect := effect_dispatchInner hnamed h
  by_cases hm : action.payload.marksHolders = true
  · unfold dispatchInner at h
    cases hp : action.payload with
    | setHolderFrozen => rw [hp] at h; exact locksKept_setHolderFrozen hheld hnamed h
    | lockHolderAmount | unlockHolderAmount | lockHolderAmountUntil =>
      rw [hp] at h
      exact locksKept_lockHolderAmount hheld hnamed h
    | issuerForcedTransfer => rw [hp] at h; exact locksKept_issuerForcedTransfer hheld hnamed h
    | recoverHolder => rw [hp] at h; exact locksKept_recoverHolder hheld hnamed h
    | redeemHolders => rw [hp] at h; exact locksKept_redeem hheld hnamed h
    | splitAsset => rw [hp] at h; exact locksKept_split hheld hnamed h
    | verifyClaimProof => rw [hp] at h; exact locksKept_verifyClaimProof hheld hnamed h
    | _ =>
      rw [hp] at hm
      cases hm
  have hstates : u.holderStates = [] :=
    (yields_unmarked (Bool.eq_false_of_not_eq_true hm)).ensures _ u h
  -- The locks stay as they are, so what counts is that no balance falls below.
  suffices hbalances : ∀ asset o,
      rows.lockedAmount asset o ctx.height ≤ (rows.post u.assets).balance asset o by
    refine ⟨by rw [hstates]; simp, fun asset o => ?_⟩
    rw [hstates]
    exact hbalances asset o
  intro asset o
  by_cases hb : action.payload.bypassesGate = false
  · cases gate_dispatchInner hnamed hb h with
    | unmoved assets =>
      rw [assets]
      exact hheld asset o
    | token a record unregulated own =>
      by_cases ha : a.assetRef = asset
      · subst ha
        rw [hfree _ (unregulated_of_token heffect record unregulated)]
        exact Nat.zero_le _
      · rw [balance_post_other own ha]
        exact hheld asset o
    | path a b stored regulated path =>
      obtain ⟨balances, hpost, hown⟩ := path.continues.posted
      by_cases ha : a.assetRef = asset
      · subst ha
        by_cases hfall : (rows.post u.assets).balance a.assetRef o < rows.balance a.assetRef o
        · exact (path.falling hfall).2
        · exact (hheld _ o).trans (Nat.le_of_not_lt hfall)
      · rw [hpost, balance_post_other hown ha]
        exact hheld asset o
  · have hown : ∀ {own : AssetRef}, own ≠ asset → (∀ p ∈ u.assets, p.1.1 = own) →
        rows.lockedAmount asset o ctx.height ≤ (rows.post u.assets).balance asset o := by
      intro own hne hassets
      rw [balance_post_other hassets hne]
      exact hheld asset o
    unfold dispatchInner at h
    cases hp : action.payload with
    | issueAsset issued amount =>
      rw [hp] at h
      obtain ⟨a, a', accounts, hrebooks, hissue⟩ := run_issueAsset hnamed h
      have hposts := Rwa.posts_applyIssue hrebooks.regulated hissue
      by_cases hissued : a.assetRef = asset
      · subst hissued
        obtain ⟨who, after, hassets, hle⟩ := Rwa.assets_applyIssue hissue
        rw [hassets, Rows.balance_post_single, Function.update_apply]
        split
        · rename_i ho
          rw [ho]
          exact (hheld _ _).trans hle
        · exact hheld _ o
      · exact hown hissued hposts.own
    | burnAsset burned amount =>
      rw [hp] at h
      obtain ⟨a, a', hrebooks, rfl, hissuer, hburned⟩ := run_burnAsset hnamed h
      obtain ⟨-, hassets⟩ := Rwa.assets_applyBurn hburned
      by_cases hasset : a.assetRef = asset
      · subst hasset
        have hleft := hburn _ _ hp
        rw [hissuer] at hleft
        rw [hassets, Rows.balance_post_single, Function.update_apply]
        split
        · rename_i ho
          rw [ho]
          omega
        · exact hheld _ o
      · exact hown hasset (by simp [hassets])
    | issuerForcedTransfer | recoverHolder | redeemHolders | splitAsset =>
      rw [hp] at hm
      exact absurd rfl hm
    | _ =>
      rw [hp] at hb
      exact absurd rfl hb

end Dispatch

end Runtime

/-! ## Every run -/

/-- **Locked units are there**: whatever is locked of a regulated asset, its holder has. -/
def Rows.LocksHeld (rows : Rows) (height : Nat) : Prop :=
  ∀ asset, rows.Regulated asset → ∀ holder,
    rows.lockedAmount asset holder height ≤ rows.balance asset holder

/-- A state with no assets and nobody marked. -/
structure Rows.NoHolders (rows : Rows) : Prop where
  assets : rows.NoAssets
  unmarked : ∀ asset holder, rows (.assetHolderState asset holder) = none

/-- The same assets and the same holders' states, whatever else changed. -/
structure SameHoldings (s s' : Rows) : Prop where
  assets : SameAssets s s'
  states : ∀ asset holder, s' (.assetHolderState asset holder) = s (.assetHolderState asset holder)

/-- The action burns no locked units. -/
def Applied.SparesLocked (e : Applied) : Prop :=
  ∀ asset amount, e.action.payload = .burnAsset asset amount →
    e.before.lockedAmount asset e.action.sender e.ctx.height + amount ≤
      e.before.balance asset e.action.sender

/-- What a run keeps: locks are held, and there are none on what is not regulated. -/
structure Rows.LocksSound (rows : Rows) (height : Nat) : Prop where
  named : rows.AssetsNamed
  held : ∀ asset o, rows.lockedAmount asset o height ≤ rows.balance asset o
  free : ∀ asset, ¬ rows.Regulated asset → ∀ o, (rows.holderState asset o).frozenAmount = 0

section Runs

variable {s s' : Rows} {height later : Nat} {asset : AssetRef} {u : BlockUpdates}

theorem Rows.LocksSound.locksHeld (h : s.LocksSound height) : s.LocksHeld height :=
  fun asset _ holder => h.held asset holder

theorem Rows.LocksSound.mono (h : s.LocksSound height) (hle : height ≤ later) : s.LocksSound later :=
  ⟨h.named, fun asset o => (HolderState.lockedAt_anti hle).trans (h.held asset o), h.free⟩

theorem Rows.NoHolders.locksSound (h : s.NoHolders) (height : Nat) : s.LocksSound height := by
  have hstate : ∀ asset o, s.holderState asset o = {} := fun asset o => by
    rw [Rows.holderState, h.unmarked]
    rfl
  refine ⟨fun asset a ha => ?_, fun asset o => ?_, fun asset _ o => by rw [hstate]⟩
  · rw [(h.assets asset).1] at ha
    cases ha
  · rw [lockedAmount_eq, hstate]
    exact Nat.zero_le _

theorem SameAssets.regulated_iff (h : SameAssets s s') : s'.Regulated asset ↔ s.Regulated asset := by
  unfold Rows.Regulated Rows.asset
  rw [h (.asset asset) rfl]

theorem SameHoldings.locksSound (h : SameHoldings s s') (hs : s.LocksSound height) :
    s'.LocksSound height := by
  have hstate : ∀ asset o, s'.holderState asset o = s.holderState asset o := fun asset o => by
    rw [Rows.holderState, Rows.holderState, h.states]
  refine ⟨fun asset a ha => hs.named asset a ?_, fun asset o => ?_, fun asset hreg o => ?_⟩
  · rwa [Rows.asset, h.assets (.asset asset) rfl] at ha
  · rw [lockedAmount_eq, hstate, Rows.balance, h.assets (.assetBalance asset o) rfl]
    exact hs.held asset o
  · rw [hstate]
    exact hs.free asset (fun h' => hreg (h.assets.regulated_iff.mpr h')) o

/-- A regulated asset stays one. -/
theorem AssetChange.regulated {action : ChainAction} (h : AssetChange action asset s s')
    (hreg : s.Regulated asset) : s'.Regulated asset := by
  obtain ⟨a, ha, hclass⟩ := hreg
  cases h with
  | same record => exact ⟨a, record ▸ ha, hclass⟩
  | registered _ _ fresh | launched _ _ _ fresh => exact absurd (ha.symm.trans fresh) (by simp)
  | posted b a' D stored record entries =>
    obtain rfl := Option.some.inj (ha.symm.trans stored)
    exact ⟨a', record, fun htoken => hclass (entries.assetClass_eq.symm.trans htoken)⟩
  | handedOver b newIssuer _ stored _ record =>
    obtain rfl := Option.some.inj (ha.symm.trans stored)
    exact ⟨_, record, hclass⟩

theorem holderState_apply (hgov : GovernanceRows u.governance) (asset : AssetRef) (o : Address) :
    Rows.holderState (Writes.apply u.viewWrites s) asset o =
      (s.mark u.holderStates).holderState asset o := by
  rw [Rows.holderState, Rows.holderState, Rows.mark, apply_apply, apply_apply,
    lookup_viewWrites hgov (c := .holderStates) rfl]
  rfl

variable [Crypto] [Wire ActionPayload] [Zk] [StateTrie] [Decode] {s₀ : Rows} {hist : List Applied}
  {e : Applied}

/-- **Every applied action that burns no locked units keeps the locks held.** -/
theorem Applied.Valid.locksSound (h : e.Valid u) (hs : e.before.LocksSound e.ctx.height)
    (hburn : e.SparesLocked) : e.after.LocksSound e.ctx.height := by
  have hchange := fun asset => h.change hs.named asset
  obtain ⟨inner, hinner, accounts, rfl⟩ := Runtime.run_dispatchWith h.ran
  have hgov : GovernanceRows inner.governance := (Runtime.yields_governanceRows.ensures _ inner hinner).1
  have hfree : ∀ asset, ¬ e.before.Regulated asset →
      ∀ o, e.before.lockedAmount asset o e.ctx.height = 0 := fun asset hreg o =>
    Nat.le_zero.mp ((HolderState.lockedAt_le _ _).trans (hs.free asset hreg o).le)
  have hkept := Runtime.locksKept_dispatchInner hs.named hs.held hfree hburn hinner
  have hstate : ∀ asset o, e.after.holderState asset o =
      (e.before.mark inner.holderStates).holderState asset o := fun asset o => by
    rw [h.written]
    exact holderState_apply (u := { inner with accounts := accounts }) hgov asset o
  refine ⟨fun asset a ha => (hchange asset).named hs.named ha, fun asset o => ?_,
    fun asset hreg o => ?_⟩
  · have hbalance : e.after.balance asset = (e.before.post inner.assets).balance asset := by
      rw [h.written]
      exact balance_apply (u := { inner with accounts := accounts }) hgov asset
    rw [lockedAmount_eq, hstate, hbalance]
    exact hkept.held asset o
  · have hbefore : ¬ e.before.Regulated asset := fun h' => hreg ((hchange asset).regulated h')
    rw [hstate, holderState_mark_of_forall]
    · exact hs.free asset hbefore o
    · intro p hp he
      have hasset : p.1.1 = asset := congrArg Prod.fst he
      exact hbefore (hasset ▸ hkept.own p hp)

/-- A burn that leaves the locks held burned no locked units. -/
theorem Applied.Valid.sparesLocked (h : e.Valid u) (hnamed : e.before.AssetsNamed)
    (hheld : e.after.LocksHeld e.ctx.height) : e.SparesLocked := by
  intro asset amount hp
  have hchange := h.change hnamed asset
  obtain ⟨inner, hinner, accounts, rfl⟩ := Runtime.run_dispatchWith h.ran
  have hgov : GovernanceRows inner.governance := (Runtime.yields_governanceRows.ensures _ inner hinner).1
  have hstates : inner.holderStates = [] :=
    (Runtime.yields_unmarked (by rw [hp]; rfl)).ensures _ inner hinner
  have hlocked : ∀ o, e.after.lockedAmount asset o e.ctx.height =
      e.before.lockedAmount asset o e.ctx.height := fun o => by
    rw [lockedAmount_eq, lockedAmount_eq, h.written,
      holderState_apply (u := { inner with accounts := accounts }) hgov, hstates]
    rfl
  have hbalance : e.after.balance asset = (e.before.post inner.assets).balance asset := by
    rw [h.written]
    exact balance_apply (u := { inner with accounts := accounts }) hgov asset
  unfold Runtime.dispatchInner at hinner
  rw [hp] at hinner
  obtain ⟨a, a', hrebooks, rfl, hissuer, hburned⟩ := Runtime.run_burnAsset hnamed hinner
  obtain ⟨hle, hassets⟩ := Rwa.assets_applyBurn hburned
  have hafter := hheld a.assetRef (hchange.regulated ⟨a, hrebooks.stored, hrebooks.regulated⟩)
    e.action.sender
  rw [hlocked, hbalance, hassets, hissuer, Rows.balance_post_single, Function.update_self] at hafter
  rw [hissuer]
  omega

/-- The locks at every later height, and before every action. -/
theorem AppliedRun.locksSound (h : AppliedRun SameHoldings s₀ hist s) (hs : s₀.NoHolders)
    (hheights : Ascending hist) (hburn : ∀ e ∈ hist, e.SparesLocked) :
    (∀ e ∈ hist, e.before.LocksSound e.ctx.height ∧ e.after.LocksSound e.ctx.height) ∧
      ∀ height, (∀ e ∈ hist, e.ctx.height ≤ height) → s.LocksSound height := by
  induction h with
  | nil => exact ⟨by simp, fun height _ => hs.locksSound height⟩
  | @act hist e u h valid ih =>
    obtain ⟨hearlier, -, hbelow⟩ := List.pairwise_append.mp hheights
    obtain ⟨hall, hnow⟩ := ih hearlier fun e he => hburn e (List.mem_append_left _ he)
    have hbefore := hnow e.ctx.height fun e' he' => hbelow e' he' e (List.mem_singleton_self e)
    have hafter := valid.locksSound hbefore (hburn e (by simp))
    refine ⟨List.forall_mem_append.mpr ⟨hall, List.forall_mem_singleton.mpr ⟨hbefore, hafter⟩⟩,
      fun height hheight => hafter.mono (hheight e (by simp))⟩
  | rest h keeps ih =>
    obtain ⟨hall, hnow⟩ := ih hheights hburn
    exact ⟨hall, fun height hheight => keeps.locksSound (hnow height hheight)⟩

/-- **Locked units exist, exactly as long as the issuer burns none of them.**  In every run from a state
without assets whatever is locked of a regulated asset is held, before and after every action and at every
later height, if and only if every `BurnAsset` leaves the issuer what it has locked of its own. -/
theorem locks_held_iff (hs : s₀.NoHolders) (h : AppliedRun SameHoldings s₀ hist s)
    (hheights : Ascending hist) :
    ((∀ e ∈ hist, e.before.LocksHeld e.ctx.height ∧ e.after.LocksHeld e.ctx.height) ∧
      ∀ height, (∀ e ∈ hist, e.ctx.height ≤ height) → s.LocksHeld height) ↔
      ∀ e ∈ hist, e.SparesLocked := by
  constructor
  · rintro ⟨hall, -⟩ e he
    have hnamed := h.induct_mem (I := Rows.AssetsNamed)
      (fun asset a ha => by rw [(hs.assets asset).1] at ha; cases ha)
      (fun e u _ valid hnamed asset a ha => (valid.change hnamed asset).named hnamed ha)
      fun s s' keeps hnamed asset a ha => hnamed asset a (keeps.assets.asset_eq asset ▸ ha)
    obtain ⟨⟨u, valid⟩, hbefore⟩ := hnamed e he
    exact valid.sparesLocked hbefore (hall e he).2
  · intro hburn
    obtain ⟨hall, hnow⟩ := h.locksSound hs hheights hburn
    exact ⟨fun e he => ⟨(hall e he).1.locksHeld, (hall e he).2.locksHeld⟩,
      fun height hheight => (hnow height hheight).locksHeld⟩

/-- Neither the seed nor the seal of a block touches a holding. -/
theorem Commits.sameHoldings {env : NodeEnv} {params : ChainParams} {db db' : Db} {block : ChainBlock}
    {ex : Executed} (h : Commits env params db block ex db') :
    SameHoldings db.state.rows (seededRows db ex.seed) ∧
      SameHoldings ex.outcome.rows db'.state.rows := by
  have hex := h.shaped
  obtain ⟨hseed, hseal⟩ := h.sameAssets
  refine ⟨⟨hseed, fun asset holder => ?_⟩, hseal, fun asset holder => ?_⟩
  · rw [seededRows_eq hex (c := .holderStates) rfl, hex.seed]
    rfl
  · rw [h.row_eq_sealed rfl (c := .holderStates) rfl (by decide), Category.writes,
      hex.sealed.holderStates]
    rfl

/-- **On a chain**: after every block, at its height. -/
theorem Chain.locksHeld {c₀ c : ChainState} {blocks : List (ChainBlock × Executed)}
    (h : Chain c₀ blocks c) (hs : c₀.rows.NoHolders) :
    ∃ acts, AppliedRun SameHoldings c₀.rows acts c.rows ∧
      acts.map (·.action) = blocks.flatMap (·.1.actions) ∧
      ((∀ e ∈ acts, e.SparesLocked) → c.rows.LocksHeld (c.tip.getD 0)) := by
  obtain ⟨acts, hrun, hactions, hascending, hbelow⟩ := h.appliedRun fun hcommit => hcommit.sameHoldings
  exact ⟨acts, hrun, hactions, fun hburn => ((hrun.locksSound hs hascending hburn).2 _ hbelow).locksHeld⟩

end Runs

namespace SmallLedger

open PlainChain

attribute [local instance] crypto wire Plain.zk Plain.trie Plain.decoders

set_option maxRecDepth 20000

/-- Six of the issuer's own ten units are locked. -/
def lockOwn : ChainAction := action 1 2 (.lockHolderAmount bond (address 1) 6)

def lockedOwn : Rows := issued.after (ctx 3) lockOwn

/-- Some units are burned after that. -/
def burnOwn (amount : Nat) : ChainAction := action 1 3 (.burnAsset bond amount)

def burnedOwn (amount : Nat) : Rows := lockedOwn.after (ctx 4) (burnOwn amount)

theorem start_noHolders : start.NoHolders := ⟨start_noAssets, fun _ _ => rfl⟩

theorem lockOwn_ok : ((Runtime.dispatch (ctx 3) lockOwn).run issued.view).isOk = true ∧
    ((Runtime.dispatch (ctx 4) (burnOwn 4)).run lockedOwn.view).isOk = true ∧
    ((Runtime.dispatch (ctx 4) (burnOwn 5)).run lockedOwn.view).isOk = true := by decide +kernel

/-- The run up to the burn. -/
theorem run_burnOwn {amount : Nat}
    (h : ((Runtime.dispatch (ctx 4) (burnOwn amount)).run lockedOwn.view).isOk = true) :
    AppliedRun SameHoldings start
      [⟨ctx 1, register, start, registered⟩, ⟨ctx 2, issue, registered, issued⟩,
        ⟨ctx 3, lockOwn, issued, lockedOwn⟩, ⟨ctx 4, burnOwn amount, lockedOwn, burnedOwn amount⟩]
      (burnedOwn amount) :=
  AppliedRun.after (AppliedRun.after (AppliedRun.after (AppliedRun.after .nil all_ok.1) all_ok.2.1)
    lockOwn_ok.1) h

/-- Four units are left unlocked, and four are burned. -/
theorem locks_held_unlocked_burn : (burnedOwn 4).LocksHeld 4 := by
  have hleft : lockedOwn.lockedAmount bond (address 1) 4 + 4 ≤ lockedOwn.balance bond (address 1) := by
    decide +kernel
  refine ((locks_held_iff start_noHolders (run_burnOwn lockOwn_ok.2.1) (by
    simp only [Ascending, List.pairwise_cons, List.forall_mem_cons, List.not_mem_nil, false_imp_iff,
      implies_true, List.Pairwise.nil, and_true]
    decide)).mpr ?_).2 4 (by
    simp only [List.forall_mem_cons, List.not_mem_nil, false_imp_iff, implies_true, and_true]
    decide)
  simp only [List.forall_mem_cons, List.not_mem_nil, false_imp_iff, implies_true, and_true]
  refine ⟨fun _ _ hp => ?_, fun _ _ hp => ?_, fun _ _ hp => ?_, fun _ _ hp => ?_⟩
  · cases hp
  · cases hp
  · cases hp
  · cases hp
    exact hleft

/-- **A burn reaches locked units.**  Of its ten units the issuer locks six and burns five, and six are
locked where five are left. -/
theorem burn_reaches_locked : start.NoHolders ∧
    (∃ hist, AppliedRun SameHoldings start hist (burnedOwn 5) ∧ Ascending hist) ∧
    (burnedOwn 5).balance bond (address 1) = 5 ∧
    (burnedOwn 5).lockedAmount bond (address 1) 4 = 6 ∧ ¬ (burnedOwn 5).LocksHeld 4 := by
  have hbalance : (burnedOwn 5).balance bond (address 1) = 5 := by decide +kernel
  have hlocked : (burnedOwn 5).lockedAmount bond (address 1) 4 = 6 := by decide +kernel
  have hregulated : ((burnedOwn 5).asset bond).any (·.assetClass ≠ .token) = true := by decide +kernel
  obtain ⟨a, ha, hclass⟩ := Option.any_eq_true _ _ |>.mp hregulated
  refine ⟨start_noHolders, ⟨_, run_burnOwn lockOwn_ok.2.2, ?_⟩, hbalance, hlocked, fun hheld => ?_⟩
  · simp only [Ascending, List.pairwise_cons, List.forall_mem_cons, List.not_mem_nil, false_imp_iff,
      implies_true, List.Pairwise.nil, and_true]
    decide
  · have hle := hheld bond ⟨a, ha, of_decide_eq_true hclass⟩ (address 1)
    rw [hlocked, hbalance] at hle
    omega

def bondRecord : Asset :=
  .register bond "bond" (address 1) false { assetClass := .bond, symbol := "BND", name := "Bond" } 1

/-- The second account has five units locked, the third has three, both as given. -/
def lockedTwice (lost replacement : Option Nat) : Rows := Writes.apply
  [put (.assetBalance bond (address 2)) (5 : Nat), put (.assetBalance bond (address 3)) (3 : Nat),
    put (.assetHolderState bond (address 2)) ({ frozenAmount := 5, lockExpiresAt := lost } : HolderState),
    put (.assetHolderState bond (address 3))
      ({ frozenAmount := 3, lockExpiresAt := replacement } : HolderState)] fun _ => none

/-- Two locks with an expiry each. -/
theorem recovery_keeps_locks_expiring : ∃ a' balances states,
    (Rwa.applyRecover bondRecord (address 2) (address 3) 1).run (lockedTwice (some 10) (some 20)).view =
      .ok (a', balances, states) ∧
    5 + 3 ≤ ((lockedTwice (some 10) (some 20)).mark states).lockedAmount bond (address 3) 9 := by
  obtain ⟨⟨a', balances, states⟩, hrun⟩ := exists_ok_of_isOk
    (by decide +kernel : ((Rwa.applyRecover bondRecord (address 2) (address 3) 1).run
      (lockedTwice (some 10) (some 20)).view).isOk = true)
  refine ⟨a', balances, states, hrun, ?_⟩
  exact ((recovery_keeps_locks_iff hrun).mpr ⟨by decide +kernel, by decide +kernel, by decide +kernel⟩).1
    9 (by decide)

/-- **An open lock merged with an expiring one expires.**  Five units of the lost wallet were locked for
good; ten blocks on, nothing is locked of what was recovered. -/
theorem recovery_ends_open_lock : ∃ a' balances states,
    (Rwa.applyRecover bondRecord (address 2) (address 3) 1).run (lockedTwice none (some 10)).view =
      .ok (a', balances, states) ∧
    (lockedTwice none (some 10)).lockedAmount bond (address 2) 10 = 5 ∧
    ((lockedTwice none (some 10)).post balances).balance bond (address 3) = 8 ∧
    ((lockedTwice none (some 10)).mark states).lockedAmount bond (address 3) 10 = 0 := by
  obtain ⟨⟨a', balances, states⟩, hrun⟩ := exists_ok_of_isOk
    (by decide +kernel : ((Rwa.applyRecover bondRecord (address 2) (address 3) 1).run
      (lockedTwice none (some 10)).view).isOk = true)
  obtain ⟨rfl, rfl⟩ := run_applyRecover hrun
  exact ⟨a', _, _, hrun, by decide +kernel, by decide +kernel, by decide +kernel⟩

end SmallLedger

end Arxium
