import Arxium.Node.Stages
import Arxium.Executor.PlainChain
import Arxium.Runtime.VaultEffect

/-!
# Node/Nonces — an action is applied once

Nonce and policy of an account change in the turns of its own actions only (`Turn.Valid.sameOwner`).
There the nonce the action names is the account's, and goes up by one (`Turn.UsesNonce`), so along a
chain the nonces of one sender's actions ascend: no action comes up twice.
-/

namespace Arxium

open ReadProg Writes

/-! ## Accounts after a turn -/

section Accounts

variable {s s' : Rows} {u : BlockUpdates}

theorem SamePlain.account (h : SamePlain s s') (x : Address) : s'.account x = s.account x :=
  congrArg (Option.getD (α := AccountEntry) · default) (h (.account x) rfl)

theorem account_viewWrites (hgov : GovernanceRows u.governance) (x : Address) :
    Rows.account (Writes.apply u.viewWrites s) x = (u.accounts.get? x).getD (s.account x) :=
  Rows.account_apply (lookup_viewWrites hgov (c := .accounts) rfl)

end Accounts

section Turn

variable [Crypto] [Wire ActionPayload] [Zk] [StateTrie] [Decode] {t : Turn} {u : BlockUpdates}

theorem Turn.Valid.account_eq (h : t.Valid u) (x : Address) :
    t.after.account x = (u.accounts.get? x).getD (t.before.account x) := by
  rw [h.written.account x, account_viewWrites h.governance]

/-- **A turn without an action touches nothing of an account but its balance.** -/
theorem Turn.Valid.rebalanced (h : t.Valid u) (hstage : t.stage.action = none) (x : Address) :
    (t.before.account x).Rebalanced (t.after.account x) := by
  have hreturned := h.returned
  rw [h.account_eq]
  cases hs : t.stage with
  | matured height =>
    rw [hs] at hreturned
    exact (rebalances_resolveMaturedUnbonding hreturned).latest x
  | acted ctx action =>
    rw [hs] at hstage
    cases hstage
  | closed written proposer fees validators height =>
    rw [hs] at hreturned
    obtain ⟨seen, hsame, hran⟩ := hreturned
    have hlatest := (rebalances_sealBlock hran).latest x
    rwa [hsame.account x] at hlatest

/-- **Nonce and policy change in the turns of one's own actions only.** -/
theorem Turn.Valid.sameOwner (h : t.Valid u) {x : Address}
    (hx : ∀ ctx action, t.stage = .acted ctx action → x ≠ action.sender) :
    (t.before.account x).SameOwner (t.after.account x) := by
  cases hstage : t.stage with
  | matured | closed => exact (h.rebalanced (by rw [hstage]; rfl) x).sameOwner
  | acted ctx action =>
    have hreturned := h.returned
    rw [hstage] at hreturned
    obtain ⟨inner, hinner, -, hothers⟩ := Runtime.run_dispatchWith_others hreturned.2
    have hne := hx ctx action hstage
    rw [h.account_eq, hothers x hne]
    cases hget : inner.accounts.get? x with
    | none => exact .refl _
    | some e => exact (Runtime.keeps_dispatchInner hinner x e hne hget).1

/-! ## Nonces -/

/-- The nonce of an account's next action. -/
def Rows.nonce (s : Rows) (x : Address) : Nat := (s.account x).nonce

/-- **An action uses up the nonce it names**, which is its sender's; nothing else touches a nonce. -/
def Turn.UsesNonce (t : Turn) : Prop :=
  (∀ ctx action, t.stage = .acted ctx action → action.nonce = t.before.nonce action.sender ∧
    t.after.nonce action.sender = t.before.nonce action.sender + 1) ∧
  ∀ x, (∀ ctx action, t.stage = .acted ctx action → x ≠ action.sender) →
    t.after.nonce x = t.before.nonce x

theorem Turn.Valid.usesNonce (h : t.Valid u) : t.UsesNonce := by
  refine ⟨fun ctx action hstage => ?_, fun x hx => (h.sameOwner hx).nonce⟩
  have hreturned := h.returned
  rw [hstage] at hreturned
  obtain ⟨inner, e, -, hsettles⟩ := Runtime.run_dispatchWith_own hreturned.2
  refine ⟨hsettles.next, ?_⟩
  unfold Rows.nonce
  rw [h.account_eq, hsettles.entry]
  exact hsettles.nonce

omit [Crypto] [Wire ActionPayload] [Zk] [StateTrie] [Decode] in
theorem Turn.UsesNonce.le (h : t.UsesNonce) (x : Address) : t.before.nonce x ≤ t.after.nonce x := by
  by_cases hx : ∀ ctx action, t.stage = .acted ctx action → x ≠ action.sender
  · exact (h.2 x hx).ge
  · push Not at hx
    obtain ⟨ctx, action, hstage, rfl⟩ := hx
    exact (h.1 ctx action hstage).2 ▸ Nat.le_succ _

/-- Two actions in the order they are applied. -/
def ChainAction.Precedes (a b : ChainAction) : Prop := a.sender = b.sender → a.nonce < b.nonce

/-- **The nonces of a sender's actions ascend**, and the rows tell the next one. -/
theorem Turns.precedes {s₀ s : Rows} {hist : List Turn} (h : Turns s₀ hist s) :
    (hist.filterMap (·.stage.action)).Pairwise ChainAction.Precedes ∧
      ∀ a ∈ hist.filterMap (·.stage.action), a.nonce < s.nonce a.sender := by
  induction h with
  | nil => exact ⟨.nil, by simp⟩
  | @snoc hist t u h valid ih =>
    obtain ⟨hordered, hused⟩ := ih
    have huses := valid.usesNonce
    have hkept : ∀ a ∈ hist.filterMap (·.stage.action), a.nonce < t.after.nonce a.sender :=
      fun a ha => (hused a ha).trans_le (huses.le a.sender)
    rw [List.filterMap_append, List.pairwise_append, List.forall_mem_append]
    cases hstage : t.stage with
    | acted ctx action =>
      obtain ⟨hnext, hbumped⟩ := huses.1 ctx action hstage
      have hsingle : [t].filterMap (·.stage.action) = [action] := by simp [hstage, Stage.action]
      rw [hsingle, List.forall_mem_singleton, hbumped, ← hnext]
      refine ⟨⟨hordered, List.pairwise_singleton _ _, fun a ha b hb hsender => ?_⟩, hkept,
        Nat.lt_succ_self _⟩
      obtain rfl := List.mem_singleton.mp hb
      exact hnext ▸ hsender ▸ hused a ha
    | _ =>
      have hnone : [t].filterMap (·.stage.action) = [] := by simp [hstage, Stage.action]
      rw [hnone]
      exact ⟨⟨hordered, .nil, by simp⟩, hkept, by simp⟩

/-- **Every action uses its nonce once.**  In an accepted block each action names its sender's nonce and
raises it by one, and nothing else in the block raises a nonce; along a chain no action is applied
twice. -/
theorem nonce_used_once :
    (∀ env params block db db', acceptBlock env params block db = .ok db' →
      ∃ db₀ turns, db.Unwinds db₀ ∧ Turns db₀.state.rows turns db'.state.rows ∧
        turns.filterMap (·.stage.action) = block.actions ∧ ∀ t ∈ turns, t.UsesNonce) ∧
    ∀ c₀ c blocks, Chain c₀ blocks c →
      (blocks.flatMap (·.1.actions)).Pairwise ChainAction.Precedes ∧
        (blocks.flatMap (·.1.actions)).Nodup := by
  constructor
  · intro env params block db db' h
    obtain ⟨db₀, ex, hacc⟩ := acceptBlock_eq_ok.mp h
    obtain ⟨hunwinds, hcommits⟩ := hacc.commits
    obtain ⟨turns, hturns, hactions, -⟩ := hcommits.turns .nil
    refine ⟨db₀, turns, hunwinds, hturns, hactions, fun t ht => ?_⟩
    obtain ⟨⟨u, hvalid⟩, -⟩ := hturns.induct_mem (I := fun _ => True) trivial
      (fun _ _ _ _ _ => trivial) t ht
    exact hvalid.usesNonce
  · intro c₀ c blocks h
    obtain ⟨hist, hturns, hactions⟩ := h.turns
    have hordered := hactions ▸ hturns.precedes.1
    refine ⟨hordered, hordered.imp fun hab he => ?_⟩
    subst he
    exact lt_irrefl _ (hab rfl)

end Turn

namespace PlainChain

attribute [local instance] crypto wire Plain.zk Plain.trie Plain.decoders

/-- Two transfers of one sender. -/
def transfers : List ChainAction :=
  [action 1 0 (.transfer (address 2) 5), action 1 1 (.transfer (address 2) 5)]

def funded : Db := db [put (.account (address 1)) { balance := 100 }]

set_option maxRecDepth 20000 in
theorem accepts_transfers : (acceptBlock env params (block 1 transfers) funded).isOk = true := by
  decide +kernel

/-- The block is accepted, its two actions use up two nonces, and neither comes up again. -/
theorem nonce_used_once_transfers : ∃ db₀ db' turns, funded.Unwinds db₀ ∧
    acceptBlock env params (block 1 transfers) funded = .ok db' ∧
    Turns db₀.state.rows turns db'.state.rows ∧ turns.filterMap (·.stage.action) = transfers ∧
    (∀ t ∈ turns, t.UsesNonce) ∧ transfers.Nodup := by
  obtain ⟨db', haccept⟩ := exists_ok_of_isOk accepts_transfers
  obtain ⟨db₀, turns, hunwinds, hturns, hactions, huses⟩ := nonce_used_once.1 _ _ _ _ _ haccept
  refine ⟨db₀, db', turns, hunwinds, haccept, hturns, hactions, huses, ?_⟩
  obtain ⟨db₁, ex, hacc⟩ := acceptBlock_eq_ok.mp haccept
  simpa [block] using (nonce_used_once.2 _ _ _ (Chain.nil.snoc hacc.commits.2)).2

end PlainChain

end Arxium
