import Arxium.Runtime.Epoch

/-!
# Executor/Execute — applying a list of actions

The generic action loop.  What an action means is a parameter (`ExecEnv.dispatch`), and so is what
it weighs and costs.  Each action reads the rows as the seed and the actions before it left them; an
action that is badly signed or refused is dropped, and the first one that does not fit the block's
weight is deferred together with everything after it.

The source extends one map per category of update as it goes.  Here the updates are kept whole and
in order, and the map of a category is the concatenation of its parts.
-/

namespace Arxium

open ReadProg Writes

/-- Releases the unbonding batches that mature at `height`, before any action runs. -/
def resolveMaturedUnbonding [Crypto] {ε : Type} [Errors ε] (height : Nat) :
    Read ε BlockUpdates := do
  let (accounts, stakes, governance) ← resolveDueUnbonding height
  return { accounts := accounts, stakes := stakes, governance := governance }

inductive ExecutorError
  | storage (e : StorageError)
  | panic
deriving DecidableEq, Repr

instance : Errors ExecutorError := ⟨.storage, .panic⟩

/-- What the loop is run with. -/
structure ExecEnv where
  genesis : Bytes
  maxWeight : Nat
  /-- Weight and fee of an action. -/
  meter : ChainAction → Nat × Nat
  dispatch : ChainAction → Read Err BlockUpdates

/-- What the loop has done so far. -/
structure ExecutionOutcome where
  /-- What the next action reads. -/
  rows : Rows
  applied : List ChainAction := []
  /-- The updates of the applied actions, in order. -/
  updates : List BlockUpdates := []
  dropped : List ChainAction := []
  deferred : List ChainAction := []
  weightUsed : Nat := 0
  feesCollected : Nat := 0

namespace ExecutionOutcome

/-- An action that landed: the next one reads through its updates. -/
def land (s : ExecutionOutcome) (action : ChainAction) (updates : BlockUpdates)
    (weight fee : Nat) : ExecutionOutcome :=
  { s with
    rows := Writes.apply updates.viewWrites s.rows
    applied := s.applied ++ [action]
    updates := s.updates ++ [updates]
    weightUsed := s.weightUsed + weight
    feesCollected := saturatingAdd s.feesCollected fee }

def drop (s : ExecutionOutcome) (action : ChainAction) : ExecutionOutcome :=
  { s with dropped := s.dropped ++ [action] }

/-- The same run without what was left out. -/
def clean (s : ExecutionOutcome) : ExecutionOutcome := { s with dropped := [], deferred := [] }

end ExecutionOutcome

/-- The policy an action's signature is checked against. -/
def Rows.programmable (s : Rows) (a : Address) : Option ProgrammableAccount :=
  (s (.account a) : Option AccountEntry).bind (·.programmable)

section Loop

variable [Crypto] [Wire ActionPayload] (env : ExecEnv)

/-- `execute_actions`, from the rows the seed left. -/
def executeActions : ExecutionOutcome → List ChainAction → Except ExecutorError ExecutionOutcome
  | s, [] => .ok s
  | s, action :: rest =>
    match action.verifyAccountSignature (s.rows.programmable action.sender) env.genesis with
    | .error _ => executeActions (s.drop action) rest
    | .ok _ =>
      if env.maxWeight < saturatingAdd64 s.weightUsed (env.meter action).1 then
        .ok { s with deferred := action :: rest }
      else
        match (env.dispatch action).run s.rows.view with
        | .ok updates =>
          executeActions (s.land action updates (env.meter action).1 (env.meter action).2) rest
        | .error .panic => .error .panic
        | .error _ => executeActions (s.drop action) rest

/-! ## Runs that apply every action

A block is accepted only when nothing is dropped or deferred, so what matters of the loop is the
run in which every action lands. -/

/-- One action lands on `s` and leaves `s'`. -/
structure Lands (s : ExecutionOutcome) (action : ChainAction) (s' : ExecutionOutcome) : Prop where
  verified : (action.verifyAccountSignature (s.rows.programmable action.sender)
    env.genesis).isOk = true
  fits : saturatingAdd64 s.weightUsed (env.meter action).1 ≤ env.maxWeight
  dispatched : ∃ u, (env.dispatch action).run s.rows.view = .ok u ∧
    s' = s.land action u (env.meter action).1 (env.meter action).2

/-- The actions land one after the other. -/
inductive LandsAll : ExecutionOutcome → List ChainAction → ExecutionOutcome → Prop
  | nil (s : ExecutionOutcome) : LandsAll s [] s
  | cons {s s' s'' : ExecutionOutcome} {action : ChainAction} {rest : List ChainAction}
      (head : Lands env s action s') (tail : LandsAll s' rest s'') : LandsAll s (action :: rest) s''

variable {env}

/-- **What a run applied lands by itself**, and is some of what it was given in its order: what was
dropped or deferred had no effect. -/
theorem landsAll_clean {s s' : ExecutionOutcome} {actions : List ChainAction}
    (h : executeActions env s actions = .ok s') :
    ∃ landed, s'.applied = s.applied ++ landed ∧ LandsAll env s.clean landed s'.clean ∧
      landed.Sublist actions := by
  induction actions generalizing s with
  | nil =>
    obtain rfl : s = s' := Except.ok.inj h
    exact ⟨[], by simp, .nil _, .slnil⟩
  | cons action rest ih =>
    have hdrop : executeActions env (s.drop action) rest = .ok s' → ∃ landed,
        s'.applied = s.applied ++ landed ∧ LandsAll env s.clean landed s'.clean ∧
          landed.Sublist (action :: rest) := by
      intro h
      obtain ⟨landed, happlied, hlands, hsub⟩ := ih (s := s.drop action) h
      exact ⟨landed, happlied, hlands, hsub.cons action⟩
    rw [executeActions] at h
    split at h
    · exact hdrop h
    · rename_i auth hsig
      split at h
      · obtain rfl := Except.ok.inj h
        exact ⟨[], by simp, .nil _, List.nil_sublist _⟩
      · rename_i hfits
        split at h
        · rename_i u hu
          obtain ⟨landed, happlied, hlands, hsub⟩ := ih h
          refine ⟨action :: landed, by simpa [ExecutionOutcome.land] using happlied, .cons ?_ hlands,
            hsub.cons_cons action⟩
          exact ⟨by rw [ExecutionOutcome.clean, hsig]; rfl, Nat.le_of_not_lt hfits, u, hu, rfl⟩
        · cases h
        · exact hdrop h

theorem executeActions_applied_le {s s' : ExecutionOutcome} {actions : List ChainAction}
    (h : executeActions env s actions = .ok s') :
    s'.applied.length ≤ s.applied.length + actions.length := by
  obtain ⟨landed, happlied, -, hsub⟩ := landsAll_clean h
  rw [happlied, List.length_append]
  exact Nat.add_le_add_left hsub.length_le _

/-- **When everything was applied and nothing deferred, every action landed in turn.** -/
theorem landsAll_of_executeActions {s s' : ExecutionOutcome} {actions : List ChainAction}
    (h : executeActions env s actions = .ok s') (hdef : s'.deferred = [])
    (hall : s'.applied.length = s.applied.length + actions.length) :
    LandsAll env s actions s' := by
  induction actions generalizing s with
  | nil =>
    obtain rfl : s = s' := Except.ok.inj h
    exact .nil s
  | cons action rest ih =>
    rw [executeActions] at h
    split at h
    · have := executeActions_applied_le h
      simp only [ExecutionOutcome.drop, List.length_cons] at this hall
      omega
    · rename_i auth hsig
      split at h
      · obtain rfl := Except.ok.inj h
        cases hdef
      · rename_i hfits
        split at h
        · rename_i u hu
          refine .cons ⟨by rw [hsig]; rfl, by omega, u, hu, rfl⟩ (ih h ?_)
          simp only [ExecutionOutcome.land, List.length_append, List.length_cons,
            List.length_nil] at hall ⊢
          omega
        · cases h
        · have := executeActions_applied_le h
          simp only [ExecutionOutcome.drop, List.length_cons] at this hall
          omega

/-- …and conversely. -/
theorem executeActions_of_landsAll {s s' : ExecutionOutcome} {actions : List ChainAction}
    (h : LandsAll env s actions s') : executeActions env s actions = .ok s' := by
  induction h with
  | nil s => rfl
  | @cons s s' s'' action rest head tail ih =>
    obtain ⟨hsig, hfits, u, hu, rfl⟩ := head
    rw [executeActions]
    cases hv : action.verifyAccountSignature (s.rows.programmable action.sender) env.genesis with
    | error e =>
      rw [hv] at hsig
      cases hsig
    | ok auth =>
      dsimp only
      rw [if_neg (by omega), hu]
      exact ih

/-- A run that lands everything defers nothing new and applies its list. -/
theorem LandsAll.deferred_eq {s s' : ExecutionOutcome} {actions : List ChainAction}
    (h : LandsAll env s actions s') : s'.deferred = s.deferred := by
  induction h with
  | nil s => rfl
  | cons head tail ih =>
    obtain ⟨-, -, u, -, rfl⟩ := head
    exact ih

theorem LandsAll.applied_eq {s s' : ExecutionOutcome} {actions : List ChainAction}
    (h : LandsAll env s actions s') : s'.applied = s.applied ++ actions := by
  induction h with
  | nil s => simp
  | cons head tail ih =>
    obtain ⟨-, -, u, -, rfl⟩ := head
    simpa [ExecutionOutcome.land] using ih

theorem LandsAll.applied_length {s s' : ExecutionOutcome} {actions : List ChainAction}
    (h : LandsAll env s actions s') : s'.applied.length = s.applied.length + actions.length := by
  rw [h.applied_eq, List.length_append]

/-- **The rows a run leaves are those its updates wrote**, one action after the other. -/
theorem LandsAll.rows_eq {s s' : ExecutionOutcome} {actions : List ChainAction}
    (h : LandsAll env s actions s') : ∃ us, s'.updates = s.updates ++ us ∧
      s'.rows = Writes.apply (us.flatMap BlockUpdates.viewWrites) s.rows := by
  induction h with
  | nil s => exact ⟨[], by simp, rfl⟩
  | cons head tail ih =>
    obtain ⟨-, -, u, -, rfl⟩ := head
    obtain ⟨us, hus, hrows⟩ := ih
    refine ⟨u :: us, by simp [hus, ExecutionOutcome.land], ?_⟩
    rw [hrows, List.flatMap_cons, apply_append, ExecutionOutcome.land]

/-- **The invariant rule of the loop**: what every landing action keeps, the whole run keeps. -/
theorem LandsAll.induct {I : ExecutionOutcome → Prop} {s s' : ExecutionOutcome}
    {actions : List ChainAction} (h : LandsAll env s actions s') (hs : I s)
    (hstep : ∀ s action s', action ∈ actions → Lands env s action s' → I s → I s') : I s' := by
  induction h with
  | nil s => exact hs
  | cons head tail ih =>
    refine ih (hstep _ _ _ List.mem_cons_self head hs) fun s a s' ha => ?_
    exact hstep s a s' (List.mem_cons_of_mem _ ha)

end Loop

end Arxium
