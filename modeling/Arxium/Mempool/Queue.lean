import Arxium.Executor.PlainChain

/-!
# Mempool/Queue — the queue of pending actions and what is kept about it

Beside the queue the mempool keeps what it would otherwise have to search the queue for: the (sender,
nonce) slots taken, the signatures, the number of actions of each sender and the bytes of all of them.
Four operations change the queue and keep these up to date on their own; a subtraction that would go
below zero panics, as does a slot released by a sender that has none, and a panic is `none` here.

`Tracks` says that slots, signatures and counts are those of a list of actions.  It does not depend on
the order of the list, so removing in bulk is removing one by one from the front.
-/

namespace Arxium

/-- `MAX_WIRE_MESSAGE_SIZE`: no message on the wire is longer. -/
def maxWireMessageSize : Nat := 1024 * 1024

/-! ## The queue -/

/-- The operator's caps on a mempool. -/
structure MempoolLimits where
  maxPending : Nat := 10000
  maxPendingBytes : Nat := 10000000
  maxPerSender : Nat := 64
deriving DecidableEq

inductive MempoolError
  | full
  | duplicate (sender : Address) (nonce : Nat)
  | tooLarge (size max : Nat)
  | senderQueueFull (sender : Address) (max : Nat)
deriving DecidableEq

structure Mempool (P : Type) where
  limits : MempoolLimits
  pending : List (Action P) := []
  /-- The slots of the queued actions. -/
  seen : Finset (Address × Nat) := ∅
  signatures : Finset String := ∅
  totalBytes : Nat := 0
  perSender : Address → Option Nat := fun _ => none
  /-- The last actions this node took out and could not apply, with the reason. -/
  dropped : List (String × String) := []

/-- What an action is told apart by: its sender can have one action with a nonce. -/
def Action.slot {P : Type} (a : Action P) : Address × Nat := (a.sender, a.nonce)

/-- One action less of a sender; an entry that comes to zero is removed. -/
def releaseSlot (perSender : Address → Option Nat) (sender : Address) :
    Option (Address → Option Nat) :=
  match perSender sender with
  | none => some perSender
  | some count => (checkedSub count 1).map fun left =>
      Function.update perSender sender (if left = 0 then none else some left)

namespace Mempool

variable {P : Type} [Wire P]

def encodedSize (a : Action P) : Nat := (Wire.action a).length

/-- Slot, signature, bytes and count of one more action. -/
def record (m : Mempool P) (a : Action P) : Mempool P :=
  { m with
    seen := insert a.slot m.seen
    signatures := a.signature.elim m.signatures (insert · m.signatures)
    totalBytes := m.totalBytes + encodedSize a
    perSender := Function.update m.perSender a.sender (some ((m.perSender a.sender).getD 0 + 1)) }

omit [Wire P] in
/-- Slot, signature and count of one action less. -/
def forget (m : Mempool P) (a : Action P) : Option (Mempool P) :=
  (releaseSlot m.perSender a.sender).map fun perSender =>
    { m with
      seen := m.seen.erase a.slot
      signatures := a.signature.elim m.signatures m.signatures.erase
      perSender := perSender }

def push (m : Mempool P) (a : Action P) : Except MempoolError (Mempool P) :=
  if m.limits.maxPending ≤ m.pending.length then .error .full
  else if maxWireMessageSize < encodedSize a then .error (.tooLarge (encodedSize a) maxWireMessageSize)
  else if m.limits.maxPendingBytes < m.totalBytes + encodedSize a then .error .full
  else if m.limits.maxPerSender ≤ (m.perSender a.sender).getD 0 then
    .error (.senderQueueFull a.sender m.limits.maxPerSender)
  else if a.slot ∈ m.seen then .error (.duplicate a.sender a.nonce)
  else .ok { m.record a with
    pending := m.pending ++ [a]
    -- The same signed action may be executable now.
    dropped := a.signature.elim m.dropped fun s => m.dropped.filter (·.1 ≠ s) }

/-- One action back at the front, unless its slot was taken meanwhile. -/
def requeueOne (m : Mempool P) (a : Action P) : Mempool P :=
  if a.slot ∈ m.seen then m else { m.record a with pending := a :: m.pending }

def requeueFront (m : Mempool P) (actions : List (Action P)) : Mempool P :=
  actions.reverse.foldl requeueOne m

/-- How many actions are taken from the front: the first one, and more while they fit. -/
def drainCount (maxBytes : Nat) : Nat → Nat → List (Action P) → Nat
  | n, _, [] => n
  | n, bytes, a :: rest =>
    if 0 < n ∧ maxBytes < bytes + encodedSize a then n
    else drainCount maxBytes (n + 1) (bytes + encodedSize a) rest

/-- Takes up to `max` actions from the front, of no more than `maxBytes` if they are several. -/
def drainPendingWithin (m : Mempool P) (max maxBytes : Nat) :
    Option (List (Action P) × Mempool P) := do
  let n := drainCount maxBytes 0 0 (m.pending.take max)
  let drained := m.pending.take n
  let m ← drained.foldlM forget { m with pending := m.pending.drop n }
  let totalBytes ← drained.foldlM (fun total a => checkedSub total (encodedSize a)) m.totalBytes
  return (drained, { m with totalBytes := totalBytes })

/-- The actions of a sender below its nonce. -/
def stale (sender : Address) (currentNonce : Nat) (a : Action P) : Bool :=
  a.sender = sender && a.nonce < currentNonce

def purgeStale (m : Mempool P) (sender : Address) (currentNonce : Nat) : Option (Mempool P) := do
  let purged := m.pending.filter (stale sender currentNonce)
  let m ← purged.foldlM forget
    { m with pending := m.pending.filter fun a => !stale sender currentNonce a }
  let totalBytes ← checkedSub m.totalBytes (purged.map encodedSize).sum
  return { m with totalBytes := totalBytes }

omit [Wire P] in
/-- `note_dropped`: the last 1,024 are kept. -/
def noteDropped (m : Mempool P) (entries : List (String × String)) : Mempool P :=
  { m with dropped := entries.foldl (fun ring entry =>
      (if ring.length = 1024 then ring.drop 1 else ring) ++ [entry]) m.dropped }

/-! ## What is kept about a list of actions -/

/-- How many of a list are a sender's, if any. -/
def slotsOf (l : List (Action P)) (sender : Address) : Option Nat :=
  let n := l.countP (·.sender = sender)
  if n = 0 then none else some n

def bytesOf (l : List (Action P)) : Nat := (l.map encodedSize).sum

/-- Slots, signatures and counts are those of a list, and no slot is taken twice. -/
structure Tracks (m : Mempool P) (l : List (Action P)) : Prop where
  nodup : (l.map Action.slot).Nodup
  seen : ∀ p, p ∈ m.seen ↔ p ∈ l.map Action.slot
  signatures : ∀ s, s ∈ m.signatures ↔ s ∈ l.filterMap (·.signature)
  perSender : ∀ sender, m.perSender sender = slotsOf l sender

/-- **Exact bookkeeping**: everything kept beside the queue is what the queue says. -/
structure Exact (m : Mempool P) : Prop where
  tracks : m.Tracks m.pending
  totalBytes : m.totalBytes = bytesOf m.pending

/-- No two queued actions carry one signature. -/
def DistinctSignatures (l : List (Action P)) : Prop := (l.filterMap (·.signature)).Nodup

variable {m m' : Mempool P} {a : Action P} {l l' : List (Action P)}

section Tracking

omit [Wire P]

theorem slotsOf_perm (h : l.Perm l') (sender : Address) : slotsOf l sender = slotsOf l' sender := by
  rw [slotsOf, slotsOf, h.countP_eq]

theorem Tracks.perm (h : m.Tracks l) (hperm : l.Perm l') : m.Tracks l' where
  nodup := (hperm.map _).nodup_iff.mp h.nodup
  seen := fun p => (h.seen p).trans (hperm.map _).mem_iff
  signatures := fun s => (h.signatures s).trans (hperm.filterMap _).mem_iff
  perSender := fun sender => (h.perSender sender).trans (slotsOf_perm hperm sender)

theorem slotsOf_cons_self (a : Action P) (l : List (Action P)) :
    slotsOf (a :: l) a.sender = some ((slotsOf l a.sender).getD 0 + 1) := by
  unfold slotsOf
  rw [List.countP_cons_of_pos (by simp)]
  by_cases h : l.countP (·.sender = a.sender) = 0 <;> simp [h]

theorem slotsOf_cons_of_ne {sender : Address} (h : a.sender ≠ sender) (l : List (Action P)) :
    slotsOf (a :: l) sender = slotsOf l sender := by
  unfold slotsOf
  rw [List.countP_cons_of_neg (by simpa using h)]

/-- Releasing a slot undoes taking it. -/
theorem releaseSlot_slotsOf (a : Action P) (l : List (Action P)) :
    releaseSlot (slotsOf (a :: l)) a.sender = some (slotsOf l) := by
  have hless : ∀ n, checkedSub (n + 1) 1 = some n := fun n => if_pos (Nat.le_add_left 1 n)
  rw [releaseSlot, slotsOf_cons_self]
  dsimp only
  rw [hless, Option.map_some]
  refine congrArg some (funext fun sender => ?_)
  by_cases h : sender = a.sender
  · subst h
    rw [Function.update_self]
    unfold slotsOf
    by_cases hzero : l.countP (·.sender = a.sender) = 0 <;> simp [hzero]
  · rw [Function.update_of_ne h, slotsOf_cons_of_ne (Ne.symm h)]

end Tracking

/-- **One more action is tracked.** -/
theorem Tracks.record (h : m.Tracks l) (hslot : a.slot ∉ m.seen) : (m.record a).Tracks (a :: l) := by
  refine ⟨?_, fun p => ?_, fun s => ?_, fun sender => ?_⟩
  · exact List.nodup_cons.mpr ⟨fun hmem => hslot ((h.seen _).mpr hmem), h.nodup⟩
  · rw [Mempool.record, Finset.mem_insert, h.seen, List.map_cons, List.mem_cons]
  · unfold Mempool.record
    cases hs : a.signature with
    | none => simpa [List.filterMap_cons, hs] using h.signatures s
    | some t => simp [hs, h.signatures s]
  · change Function.update m.perSender a.sender (some ((m.perSender a.sender).getD 0 + 1)) sender = _
    by_cases hsender : sender = a.sender
    · subst hsender
      rw [slotsOf_cons_self, Function.update_self, h.perSender]
    · rw [slotsOf_cons_of_ne (Ne.symm hsender), Function.update_of_ne hsender, h.perSender]

omit [Wire P] in
/-- **One action less is tracked**, if its signature was nobody else's. -/
theorem Tracks.forget (h : m.Tracks (a :: l)) (hdistinct : DistinctSignatures (a :: l)) :
    ∃ m', m.forget a = some m' ∧ m'.Tracks l ∧
      m' = { m with seen := m'.seen, signatures := m'.signatures, perSender := m'.perSender } := by
  have hcounts : m.perSender = slotsOf (a :: l) := funext h.perSender
  obtain ⟨hfresh, hnodup⟩ := List.nodup_cons.mp h.nodup
  refine ⟨_, by rw [Mempool.forget, hcounts, releaseSlot_slotsOf]; rfl, ?_, rfl⟩
  refine ⟨hnodup, fun p => ?_, fun s => ?_, fun _ => rfl⟩
  · rw [Finset.mem_erase, h.seen, List.map_cons, List.mem_cons]
    constructor
    · rintro ⟨hne, hp⟩
      exact hp.resolve_left hne
    · intro hp
      exact ⟨fun he => hfresh (he ▸ hp), .inr hp⟩
  · unfold DistinctSignatures at hdistinct
    cases hs : a.signature with
    | none => simpa [List.filterMap_cons, hs] using h.signatures s
    | some t =>
      rw [List.filterMap_cons_some hs] at hdistinct
      have hsignatures := h.signatures s
      rw [List.filterMap_cons_some hs, List.mem_cons] at hsignatures
      change s ∈ m.signatures.erase t ↔ _
      rw [Finset.mem_erase, hsignatures]
      constructor
      · rintro ⟨hne, hmem⟩
        exact hmem.resolve_left hne
      · intro hmem
        exact ⟨fun he => (List.nodup_cons.mp hdistinct).1 (he ▸ hmem), .inr hmem⟩

omit [Wire P] in
/-- Many actions less, one after the other. -/
theorem Tracks.forgetAll (h : m.Tracks (l ++ l')) (hdistinct : DistinctSignatures (l ++ l')) :
    ∃ m', l.foldlM Mempool.forget m = some m' ∧ m'.Tracks l' ∧
      m' = { m with seen := m'.seen, signatures := m'.signatures, perSender := m'.perSender } := by
  induction l generalizing m with
  | nil => exact ⟨m, rfl, h, rfl⟩
  | cons a l ih =>
    obtain ⟨m₁, hforget, htracks, hm₁⟩ := h.forget hdistinct
    have hrest : DistinctSignatures (l ++ l') :=
      hdistinct.sublist ((List.sublist_cons_self a (l ++ l')).filterMap _)
    obtain ⟨m₂, hfold, htracks, hm₂⟩ := ih htracks hrest
    refine ⟨m₂, ?_, htracks, ?_⟩
    · rw [List.foldlM_cons, hforget]
      exact hfold
    · rw [hm₂, hm₁]

/-! ## The operations keep it exact -/

/-- There is one exact mempool with a given queue. -/
theorem Exact.eq (h : m.Exact) (h' : m'.Exact) (hlimits : m.limits = m'.limits)
    (hpending : m.pending = m'.pending) (hdropped : m.dropped = m'.dropped) : m = m' := by
  have hseen : m.seen = m'.seen := Finset.ext fun p => by
    rw [h.tracks.seen, h'.tracks.seen, hpending]
  have hsignatures : m.signatures = m'.signatures := Finset.ext fun s => by
    rw [h.tracks.signatures, h'.tracks.signatures, hpending]
  have hcounts : m.perSender = m'.perSender := funext fun sender => by
    rw [h.tracks.perSender, h'.tracks.perSender, hpending]
  have hbytes : m.totalBytes = m'.totalBytes := by rw [h.totalBytes, h'.totalBytes, hpending]
  cases m
  cases m'
  simp_all

theorem exact_empty (limits : MempoolLimits) : Exact (P := P) { limits := limits } := by
  refine ⟨⟨List.nodup_nil, ?_, ?_, ?_⟩, rfl⟩ <;> intro x <;> simp [slotsOf]

theorem Exact.push (h : m.Exact) (hpush : m.push a = .ok m') :
    m'.Exact ∧ m'.pending = m.pending ++ [a] := by
  unfold Mempool.push at hpush
  split_ifs at hpush with _ _ _ _ hslot
  obtain rfl := Except.ok.inj hpush
  have hperm : (a :: m.pending).Perm (m.pending ++ [a]) := (List.perm_append_singleton a _).symm
  refine ⟨⟨?_, ?_⟩, rfl⟩
  · have htracks := (h.tracks.record hslot).perm hperm
    exact ⟨htracks.nodup, htracks.seen, htracks.signatures, htracks.perSender⟩
  · change m.totalBytes + encodedSize a = bytesOf (m.pending ++ [a])
    rw [h.totalBytes]
    simp [bytesOf]

theorem Exact.requeueOne (h : m.Exact) (a : Action P) : (m.requeueOne a).Exact := by
  unfold Mempool.requeueOne
  split_ifs with hslot
  · exact h
  · have htracks := h.tracks.record hslot
    refine ⟨⟨htracks.nodup, htracks.seen, htracks.signatures, htracks.perSender⟩, ?_⟩
    change m.totalBytes + encodedSize a = bytesOf (a :: m.pending)
    rw [h.totalBytes, bytesOf, bytesOf, List.map_cons, List.sum_cons, Nat.add_comm]

theorem requeueFront_cons (m : Mempool P) (a : Action P) (l : List (Action P)) :
    m.requeueFront (a :: l) = (m.requeueFront l).requeueOne a := by
  simp [requeueFront]

theorem Exact.requeueFront (h : m.Exact) (l : List (Action P)) : (m.requeueFront l).Exact := by
  induction l with
  | nil => exact h
  | cons a l ih =>
    rw [requeueFront_cons]
    exact ih.requeueOne a

/-- Actions whose slots are free come back in front of the queue, in their order. -/
theorem Exact.pending_requeueFront (h : m.Exact)
    (hfree : ((l ++ m.pending).map Action.slot).Nodup) :
    m.requeueFront l = { m.requeueFront l with
      limits := m.limits, pending := l ++ m.pending, dropped := m.dropped } := by
  induction l with
  | nil => rfl
  | cons a l ih =>
    obtain ⟨hfresh, hnodup⟩ := List.nodup_cons.mp hfree
    have hpending := ih hnodup
    have hslot : a.slot ∉ (m.requeueFront l).seen := by
      rw [(h.requeueFront l).tracks.seen, hpending]
      exact hfresh
    rw [requeueFront_cons, Mempool.requeueOne, if_neg hslot, hpending]
    rfl

theorem Exact.noteDropped (h : m.Exact) (entries : List (String × String)) :
    (m.noteDropped entries).Exact :=
  ⟨⟨h.tracks.nodup, h.tracks.seen, h.tracks.signatures, h.tracks.perSender⟩, h.totalBytes⟩

theorem checkedSub_add (x y : Nat) : checkedSub (x + y) x = some y := by
  rw [checkedSub, if_pos (Nat.le_add_right x y), Nat.add_sub_cancel_left]

theorem foldlM_checkedSub (l : List (Action P)) (rest : Nat) :
    l.foldlM (fun total a => checkedSub total (encodedSize a)) (bytesOf l + rest) = some rest := by
  induction l with
  | nil => exact congrArg some (Nat.zero_add rest)
  | cons a l ih =>
    rw [List.foldlM_cons, bytesOf, List.map_cons, List.sum_cons, Nat.add_assoc, checkedSub_add]
    exact ih

/-- The queue without some of its actions, before their bytes are given back. -/
theorem Exact.without (h : m.Exact) (hdistinct : DistinctSignatures m.pending)
    {gone kept : List (Action P)} (hperm : (gone ++ kept).Perm m.pending) :
    ∃ m', gone.foldlM Mempool.forget { m with pending := kept } = some m' ∧
      m'.totalBytes = bytesOf gone + bytesOf kept ∧ Exact { m' with totalBytes := bytesOf kept } ∧
      m'.limits = m.limits ∧ m'.pending = kept ∧ m'.dropped = m.dropped := by
  have htracks : Tracks { m with pending := kept } m.pending :=
    ⟨h.tracks.nodup, h.tracks.seen, h.tracks.signatures, h.tracks.perSender⟩
  obtain ⟨m', hfold, htracks, hm'⟩ := (htracks.perm hperm.symm).forgetAll
    ((hperm.filterMap _).nodup_iff.mpr hdistinct)
  have hpending : m'.pending = kept := by rw [hm']
  refine ⟨m', hfold, ?_, ⟨?_, ?_⟩, ?_, hpending, ?_⟩
  · have hbytes : m'.totalBytes = bytesOf m.pending := by
      rw [hm', ← h.totalBytes]
    rw [hbytes, bytesOf, bytesOf, bytesOf, ← List.sum_append, ← List.map_append, (hperm.map _).sum_eq]
  · rw [hpending]
    exact ⟨htracks.nodup, htracks.seen, htracks.signatures, htracks.perSender⟩
  · rw [hpending]
  · rw [hm']
  · rw [hm']

/-- **Draining never panics** and takes the front of the queue. -/
theorem Exact.drain (h : m.Exact) (hdistinct : DistinctSignatures m.pending) (max maxBytes : Nat) :
    ∃ n m', n = drainCount maxBytes 0 0 (m.pending.take max) ∧
      m.drainPendingWithin max maxBytes = some (m.pending.take n, m') ∧ m'.Exact ∧
      m'.limits = m.limits ∧ m'.pending = m.pending.drop n ∧ m'.dropped = m.dropped := by
  unfold drainPendingWithin
  generalize drainCount maxBytes 0 0 (m.pending.take max) = n
  have hperm : (m.pending.take n ++ m.pending.drop n).Perm m.pending := by rw [List.take_append_drop]
  obtain ⟨m', hfold, hbytes, hexact, hrest⟩ := h.without hdistinct hperm
  refine ⟨n, _, rfl, ?_, hexact, hrest⟩
  dsimp only
  rw [hfold]
  dsimp only [bind, Option.bind]
  rw [hbytes, foldlM_checkedSub]
  rfl

/-- **Purging never panics** and leaves the rest of the queue. -/
theorem Exact.purgeStale (h : m.Exact) (hdistinct : DistinctSignatures m.pending) (sender : Address)
    (nonce : Nat) : ∃ m', m.purgeStale sender nonce = some m' ∧ m'.Exact ∧
      m'.pending = m.pending.filter fun a => !stale sender nonce a := by
  obtain ⟨m', hfold, hbytes, hexact, -, hpending, -⟩ := h.without hdistinct
    (List.filter_append_perm (stale sender nonce) m.pending)
  refine ⟨_, ?_, hexact, hpending⟩
  unfold Mempool.purgeStale
  dsimp only
  rw [hfold]
  dsimp only [bind, Option.bind]
  rw [hbytes, ← bytesOf, checkedSub_add]
  rfl

/-! ## Any sequence of operations -/

/-- An operation on the mempool. -/
inductive Op (P : Type)
  | push (a : Action P)
  | requeueFront (actions : List (Action P))
  | drain (max maxBytes : Nat)
  | purgeStale (sender : Address) (currentNonce : Nat)

/-- What an operation leaves; a refused action leaves everything as it was. -/
def step (m : Mempool P) : Op P → Option (Mempool P)
  | .push a => some ((m.push a).toOption.getD m)
  | .requeueFront actions => some (m.requeueFront actions)
  | .drain max maxBytes => (m.drainPendingWithin max maxBytes).map Prod.snd
  | .purgeStale sender currentNonce => m.purgeStale sender currentNonce

/-- The mempools some operations lead to, from an empty one, as long as the queued actions carry
different signatures. -/
inductive Reached (limits : MempoolLimits) : Mempool P → Prop
  | empty : Reached limits { limits := limits }
  | step {m m' : Mempool P} (op : Op P) (before : Reached limits m) (runs : m.step op = some m')
      (distinct : DistinctSignatures m'.pending) : Reached limits m'

theorem Reached.distinct {limits : MempoolLimits} (h : Reached limits m) :
    DistinctSignatures m.pending := by
  cases h with
  | empty => exact List.nodup_nil
  | step op before runs distinct => exact distinct

theorem Exact.step (h : m.Exact) (hdistinct : DistinctSignatures m.pending) (op : Op P) :
    ∃ m', m.step op = some m' ∧ m'.Exact := by
  cases op with
  | push a =>
    refine ⟨_, rfl, ?_⟩
    cases hpush : m.push a with
    | ok m' => exact (h.push hpush).1
    | error e => exact h
  | requeueFront actions => exact ⟨_, rfl, h.requeueFront actions⟩
  | drain max maxBytes =>
    obtain ⟨n, m', -, hdrain, hexact, -⟩ := h.drain hdistinct max maxBytes
    exact ⟨m', by rw [Mempool.step, hdrain]; rfl, hexact⟩
  | purgeStale sender nonce =>
    obtain ⟨m', hpurge, hexact, -⟩ := h.purgeStale hdistinct sender nonce
    exact ⟨m', hpurge, hexact⟩

theorem Reached.exact {limits : MempoolLimits} (h : Reached limits m) : m.Exact := by
  induction h with
  | empty => exact exact_empty limits
  | step op before runs distinct ih =>
    obtain ⟨m₁, hruns, hexact⟩ := ih.step before.distinct op
    obtain rfl := Option.some.inj (hruns.symm.trans runs)
    exact hexact

/-- **The mempool's books.**  After any operations, with different signatures queued, the slots, the
signatures, the counts and the bytes are exactly those of the queue, in which no slot is taken twice and
no count is zero; no operation panics; and what is drained goes back to where it was. -/
theorem mempool_exact {limits : MempoolLimits} (h : Reached limits m) :
    ((m.pending.map Action.slot).Nodup ∧ (∀ p, p ∈ m.seen ↔ p ∈ m.pending.map Action.slot) ∧
      (∀ s, s ∈ m.signatures ↔ ∃ a ∈ m.pending, a.signature = some s) ∧
      (∀ sender n, m.perSender sender = some n ↔
        0 < n ∧ (m.pending.filter (·.sender = sender)).length = n) ∧
      m.totalBytes = (m.pending.map encodedSize).sum) ∧
    (∀ op, (m.step op).isSome = true) ∧
    ∀ max maxBytes drained m', m.drainPendingWithin max maxBytes = some (drained, m') →
      m'.requeueFront drained = m := by
  have hexact := h.exact
  refine ⟨⟨hexact.tracks.nodup, hexact.tracks.seen, fun s => ?_, fun sender n => ?_,
    hexact.totalBytes⟩, fun op => ?_, fun max maxBytes drained m' hdrain => ?_⟩
  · rw [hexact.tracks.signatures, List.mem_filterMap]
  · rw [hexact.tracks.perSender, slotsOf, List.countP_eq_length_filter]
    split_ifs with hzero
    · simp only [false_iff]
      omega
    · rw [Option.some.injEq]
      omega
  · obtain ⟨m', hstep, -⟩ := hexact.step h.distinct op
    rw [hstep]
    rfl
  · obtain ⟨n, m₁, -, hrun, hexact', hlimits, hpending, hdropped⟩ := hexact.drain h.distinct max maxBytes
    obtain ⟨rfl, rfl⟩ := Prod.mk.inj (Option.some.inj (hrun.symm.trans hdrain))
    have hwhole : m.pending.take n ++ m₁.pending = m.pending := by
      rw [hpending, List.take_append_drop]
    have hback := hexact'.pending_requeueFront (l := m.pending.take n)
      (by rw [hwhole]; exact hexact.tracks.nodup)
    refine (hexact'.requeueFront _).eq hexact ?_ ?_ ?_
    · rw [hback]
      exact hlimits
    · rw [hback]
      exact hwhole
    · rw [hback]
      exact hdropped

end Mempool

/-! ## Two queued actions -/

namespace SmallQueue

open PlainChain

attribute [local instance] PlainChain.wire

set_option maxRecDepth 20000

def first : ChainAction := action 1 0 (.transfer (address 2) 5)

def second : ChainAction := { action 1 1 (.transfer (address 2) 6) with signature := some "b" }

def empty : Mempool ActionPayload := { limits := {} }

def one : Mempool ActionPayload := (empty.step (.push first)).getD empty

def both : Mempool ActionPayload := (one.step (.push second)).getD one

theorem pending_both : both.pending = [first, second] := by
  rfl

theorem reached_both : Mempool.Reached {} both := by
  have hone : Mempool.Reached {} one := .step (.push first) .empty rfl (List.nodup_singleton _)
  refine .step (.push second) hone rfl ?_
  unfold Mempool.DistinctSignatures
  rw [pending_both]
  decide +kernel

/-- Both actions are counted, and one of them can be drained. -/
theorem mempool_exact_both : both.pending = [first, second] ∧
    both.totalBytes = Mempool.encodedSize first + (Mempool.encodedSize second + 0) ∧
    (both.step (.drain 1 100)).isSome = true := by
  obtain ⟨⟨-, -, -, -, hbytes⟩, hruns, -⟩ := Mempool.mempool_exact reached_both
  rw [pending_both] at hbytes
  exact ⟨pending_both, hbytes, hruns _⟩

end SmallQueue

end Arxium
