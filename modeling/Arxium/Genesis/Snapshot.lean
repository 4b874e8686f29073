import Arxium.Runtime.VaultEffect
import Arxium.Circuits.Identity

/-!
# Genesis/Snapshot — the rows a chain starts with

A plain chain spec lists accounts, validators, attestors and parameters.  `Snapshot.validate` is all that
is checked of it; `Snapshot.batchEntries` are the rows written.  A genesis validator gets the rows its
own stake would have got: an allocation from itself, itself as its master, and the stake on top of
whatever the spec gives its sub-account.
-/

namespace Arxium

open ReadProg Writes Crypto

structure GenesisAttestor where
  address : Address
  name : String
  owners : List Address
  threshold : Nat
deriving DecidableEq, Repr

/-- A plain chain spec. -/
structure Snapshot where
  height : Nat := 0
  chainName : String
  accounts : TreeMap Address AccountEntry
  validators : TreeMap Address ValidatorEntry
  bootNodes : List String := []
  attestors : List GenesisAttestor := []
  params : ChainParams := {}

inductive GenesisError
  | message (text : String)
  | signature (e : SignatureError)
  | panic
deriving DecidableEq, Repr

namespace Snapshot

/-! ## Validation -/

/-- `anyhow::bail!` unless the condition holds. -/
def demand (b : Bool) (text : String) : Except GenesisError Unit :=
  if b then .ok () else .error (.message text)

/-- Key and proof have their lengths, and a key comes with a proof. -/
def validateBls (address : Address) (entry : ValidatorEntry) : Except GenesisError Unit :=
  match entry.blsPubkey with
  | none => .ok ()
  | some pubkey => do
    demand (pubkey.utf8ByteSize = 96)
      s!"chain spec validator {address.text} has a malformed bls_pubkey {pubkey.quote} — expected 96 hex chars, got {pubkey.utf8ByteSize}"
    match entry.blsPop with
    | none =>
      .error (.message
        s!"chain spec validator {address.text} has a bls_pubkey but no bls_pop — run `arxd keys` to print both")
    | some pop =>
      demand (pop.utf8ByteSize = 192)
        s!"chain spec validator {address.text} has a malformed bls_pop {pop.quote} — expected 192 hex chars, got {pop.utf8ByteSize}"

variable [Crypto]

/-- The attestors, each name checked against those before it. -/
def validateAttestors : List String → List GenesisAttestor → Except GenesisError Unit
  | _, [] => .ok ()
  | skeletons, a :: rest => do
    (validateAttestorName a.name).mapError fun e => .message s!"{e}: {a.name.quote}"
    (validateAttestorMultisig a.address a.owners a.threshold).mapError fun e =>
      .message s!"genesis attestor {a.name.quote}: {e}"
    demand (!skeletons.contains (attestorNameSkeleton a.name))
      s!"genesis attestor name {a.name.quote} collides with another"
    validateAttestors (attestorNameSkeleton a.name :: skeletons) rest

/-- A policy given at genesis is valid and unused.  Whose account it is given to is not looked at. -/
def validateAccount (params : ChainParams) (address : Address) (entry : AccountEntry) :
    Except GenesisError Unit :=
  match entry.programmable with
  | none => .ok ()
  | some account => do
    (validateAccountAddress address).mapError GenesisError.signature
    account.policy.validate.mapError GenesisError.signature
    demand (account.counters.isEmpty && account.pendingRecovery.isNone)
      "genesis programmable accounts must have empty counters and recovery queues"
    demand (params.accountExtensionsEnabled ||
        (account.policy.sessions.isEmpty && account.policy.recovery.isNone))
      "session keys and recovery are disabled in chain parameters"

/-- `Snapshot::validate`. -/
def validate (s : Snapshot) : Except GenesisError Unit := do
  demand (!s.chainName.isEmpty) "chain spec has an empty chain_name"
  demand (!s.chainName.toList.contains '/')
    s!"chain spec chain_name {s.chainName.quote} must not contain a path separator — it becomes a directory name"
  demand (s.height = 0) s!"chain spec height must be 0 for a genesis spec, got {s.height}"
  demand (s.params.blockIntervalSecs ≠ 0) "chain spec params.block_interval_secs must be positive"
  demand (s.params.epochLength ≠ 0) "chain spec params.epoch_length must be positive"
  demand (s.bootNodes.all fun a => !a.trimAscii.isEmpty) "chain spec boot_nodes contains a blank entry"
  s.validators.toList.forM fun p => validateBls p.1 p.2
  validateAttestors [] s.attestors
  s.accounts.toList.forM fun p => validateAccount s.params p.1 p.2

/-! ## The rows -/

/-- The stake a genesis validator has in itself. -/
def allocation (s : Snapshot) (v : Address) (entry : ValidatorEntry) : StakeAllocation where
  master := v
  validator := v
  activeAmount := entry.stake
  unbonding := none
  createdAt := s.height
  updatedAt := s.height

/-- What the spec itself gives a validator's sub-account. -/
def subAccount (s : Snapshot) (v : Address) : AccountEntry :=
  (s.accounts[stakeSubaccount v]?).getD default

/-- The rows of one validator's stake. -/
def stakeWrites (s : Snapshot) (p : Address × ValidatorEntry) : List RowWrite :=
  [put (.stake p.1 p.1) (s.allocation p.1 p.2), put (.stakeByValidator p.1) [p.1],
    put (.account (stakeSubaccount p.1))
      { s.subAccount p.1 with balance := (s.subAccount p.1).balance + p.2.stake }]

/-- The record and the name of one attestor. -/
def attestorWrites (s : Snapshot) (a : GenesisAttestor) : List RowWrite :=
  [put (.attestorRecord a.address) ⟨a.name, s.height, a.owners, a.threshold, false, false, 0⟩,
    put (.attestorName (attestorNameSkeleton a.name)) a.address]

/-- The rows that are not about balances. -/
def otherWrites (s : Snapshot) (set : ValidatorSet) : List RowWrite :=
  [put (.validatorSet 0) set] ++
    s.validators.keys.map (fun v => put (.validatorStatus v) ValidatorStatus.active) ++
    [put .validatorCandidates s.validators.keys, put .chainParams s.params] ++
    s.attestors.flatMap s.attestorWrites

/-- No sub-account's balance overflows. -/
def fits (s : Snapshot) : Bool :=
  s.validators.toList.all fun p => (s.subAccount p.1).balance + p.2.stake ≤ u128Max

/-- `Snapshot::batch_entries`; the additions are checked, so it can panic. -/
def batchEntries (s : Snapshot) : Except GenesisError (List RowWrite) :=
  if !s.fits then .error .panic
  else
    match assignVotingPower (s.validators.map fun _ entry => entry.stake) with
    | none => .error .panic
    | some set => .ok (accountWrites s.accounts.toList ++ s.validators.toList.flatMap s.stakeWrites ++
        s.otherWrites set)

/-! ## BLS keys -/

/-- Hex of exactly so many bytes. -/
def decodeExactly (n : Nat) (text : String) : Option Bytes :=
  (hexDecode text).filter fun b => b.length = n

/-- `genesis_bls_registrations`: a validator without a key is passed over. -/
def blsRegistrations : List (Bytes × Address) → List (Address × ValidatorEntry) →
    Except GenesisError (List BlsKeyRegistration)
  | _, [] => .ok []
  | owners, (v, entry) :: rest =>
    match entry.blsPubkey with
    | none => blsRegistrations owners rest
    | some text =>
      match decodeExactly 48 text with
      | none => .error (.message s!"genesis validator {v.text} has a malformed bls_pubkey")
      | some pubkey =>
        match entry.blsPop.bind (decodeExactly 96) with
        | none => .error (.message s!"genesis validator {v.text} has a missing or malformed bls_pop — run `arxd keys` to print the key and its proof of possession together")
        | some pop => do
          demand (blsVerifyPossession pubkey pop)
            s!"genesis validator {v.text} has an invalid BLS proof of possession"
          match owners.lookup pubkey with
          | some owner => .error (.message s!"genesis validator {v.text} BLS pubkey is already owned by {owner.text}")
          | none =>
            let registrations ← blsRegistrations ((pubkey, v) :: owners) rest
            return ⟨v, pubkey, 0, none⟩ :: registrations

/-- **The rows of a fresh chain**: `write_plain` on an empty database, whose root is then its own
genesis hash. -/
def install (s : Snapshot) (root : String) : Except GenesisError Rows := do
  s.validate
  let registrations ← blsRegistrations [] s.validators.toList
  let entries ← s.batchEntries
  return Writes.apply (entries ++ registrations.flatMap BlsKeyRegistration.writes ++
    [put .genesisHash root]) fun _ => none

end Snapshot

/-! ## What the rows hold -/

section Maps

variable {α β : Type} [DecidableEq α]

theorem Updates.get?_eq_none {l : Updates α β} {a : α} (h : ∀ p ∈ l, p.1 ≠ a) :
    l.get? a = none := by
  induction l with
  | nil => rfl
  | cons p l ih =>
    rw [Updates.get?, ih fun q hq => h q (List.mem_cons_of_mem p hq), if_neg (h p List.mem_cons_self)]
    rfl

theorem get?_of_pairwise {l : List (α × β)} (hl : l.Pairwise fun p q => p.1 ≠ q.1) {a : α} {x : β}
    (h : (a, x) ∈ l) : Updates.get? l a = some x := by
  induction l with
  | nil => cases h
  | cons p l ih =>
    obtain ⟨hp, hl⟩ := List.pairwise_cons.mp hl
    rw [Updates.get?]
    obtain rfl | h := List.mem_cons.mp h
    · have hnone : Updates.get? l a = none := by
        refine Updates.get?_eq_none fun q hq he => hp q hq he.symm
      rw [hnone, if_pos rfl, Option.none_or]
    · rw [ih hl h, Option.some_or]

variable [LinearOrder α]

omit [DecidableEq α] in
theorem pairwise_toList (m : TreeMap α β) : m.toList.Pairwise fun p q => p.1 ≠ q.1 :=
  m.distinct_keys_toList.imp fun h he => h (compare_eq_iff_eq.mpr he)

/-- A map read back from its list of entries. -/
theorem get?_toList (m : TreeMap α β) (a : α) : Updates.get? m.toList a = m[a]? := by
  cases hm : m[a]? with
  | some x =>
    exact get?_of_pairwise (pairwise_toList m) (Std.ExtTreeMap.mem_toList_iff_getElem?_eq_some.mpr hm)
  | none =>
    refine Updates.get?_eq_none fun p hp he => ?_
    have hsome := Std.ExtTreeMap.mem_toList_iff_getElem?_eq_some.mp hp
    rw [he, hm] at hsome
    cases hsome

end Maps

/-- The rows of vaults, and the lists of maturing unbondings. -/
def Key.isVaultRow : Key → Bool
  | .account _ | .stake _ _ | .stakeByValidator _ | .unbondingDue _ => true
  | _ => false

/-- A row that is written once. -/
theorem apply_of_unique {ws : List RowWrite} {w : RowWrite} (hw : w ∈ ws)
    (hunique : ∀ u ∈ ws, u.key = w.key → u = w) (rows : Rows) : Writes.apply ws rows w.key = w.value := by
  obtain ⟨x, hx⟩ := Option.isSome_iff_exists.mp (lookup_isSome hw)
  have hsame := hunique _ (mem_of_lookup hx) rfl
  obtain ⟨k, value⟩ := w
  injection hsame with _ hvalue
  rw [apply_apply, hx, hvalue]
  rfl

/-- A registration writes the key and who owns it. -/
theorem BlsKeyRegistration.key_of_mem_writes {r : BlsKeyRegistration} {w : RowWrite} (hw : w ∈ r.writes) :
    (∃ a, w.key = .blsKey a) ∨ ∃ p, w.key = .blsPubkeyOwner p := by
  unfold BlsKeyRegistration.writes at hw
  simp only [List.mem_append, List.mem_cons, List.not_mem_nil, or_false] at hw
  obtain (rfl | rfl) | hw := hw
  · exact .inl ⟨_, rfl⟩
  · exact .inr ⟨_, rfl⟩
  · split at hw
    · split at hw
      · obtain rfl := List.mem_singleton.mp hw
        exact .inr ⟨_, rfl⟩
      · cases hw
    · cases hw

/-- The rows of sets, parameters and proposals. -/
def Key.isConsensusRow : Key → Bool
  | .validatorSet _ | .chainParams | .proposal _ => true
  | _ => false

namespace Snapshot

variable [Crypto] {s : Snapshot} {root : String} {rows : Rows}

/-- An installed spec is valid, its sums fit, and beside balances and stakes it writes no row of a
vault. -/
theorem install_eq_ok (h : s.install root = .ok rows) :
    s.validate = .ok () ∧ s.fits = true ∧ ∃ rest : List RowWrite,
      (∀ w ∈ rest, w.key.isVaultRow = false) ∧
      rows = Writes.apply (accountWrites s.accounts.toList ++ s.validators.toList.flatMap s.stakeWrites ++
        rest) fun _ => none := by
  obtain ⟨_, hvalid, h⟩ := bind_eq_ok.mp h
  obtain ⟨registrations, -, h⟩ := bind_eq_ok.mp h
  obtain ⟨entries, hentries, h⟩ := bind_eq_ok.mp h
  obtain rfl := Except.ok.inj h
  unfold batchEntries at hentries
  split at hentries
  · cases hentries
  rename_i hfits
  split at hentries
  · cases hentries
  rename_i set _
  obtain rfl := Except.ok.inj hentries
  refine ⟨hvalid, by simpa using hfits, s.otherWrites set ++
    registrations.flatMap BlsKeyRegistration.writes ++ [put .genesisHash root], ?_, ?_⟩
  · simp only [List.forall_mem_append, List.forall_mem_singleton, List.forall_mem_flatMap]
    refine ⟨⟨?_, fun r _ w hw => ?_⟩, rfl⟩
    · simp only [otherWrites, attestorWrites, List.forall_mem_append, List.forall_mem_cons,
        List.forall_mem_map, List.forall_mem_flatMap, List.not_mem_nil, false_implies, implies_true,
        and_true]
      exact ⟨⟨⟨rfl, fun _ _ => rfl⟩, rfl, rfl⟩, fun _ _ => ⟨rfl, rfl⟩⟩
    · obtain ⟨a, hk⟩ | ⟨p, hk⟩ := BlsKeyRegistration.key_of_mem_writes hw <;> rw [hk] <;> rfl
  · simp only [List.append_assoc]

theorem lookup_vault {rest : List RowWrite} (hrest : ∀ w ∈ rest, w.key.isVaultRow = false) {k : Key}
    (hk : k.isVaultRow = true) :
    lookup (accountWrites s.accounts.toList ++ s.validators.toList.flatMap s.stakeWrites ++ rest) k =
      (lookup (s.validators.toList.flatMap s.stakeWrites) k).or
        (lookup (accountWrites s.accounts.toList) k) := by
  have hnone : lookup rest k = none := by
    refine lookup_eq_none fun w hw he => ?_
    rw [← he, hrest w hw] at hk
    cases hk
  rw [lookup_append, lookup_append, hnone, Option.none_or]

omit [Crypto] in
/-- The validators of one address. -/
theorem filter_validators (v : Address) :
    s.validators.toList.filter (fun p => decide (p.1 = v)) =
      (s.validators[v]?.map fun entry => (v, entry)).toList := by
  have hpair := pairwise_toList s.validators
  cases hv : s.validators[v]? with
  | none =>
    rw [List.filter_eq_nil_iff.mpr]
    · rfl
    · intro p hp he
      have hsome := Std.ExtTreeMap.mem_toList_iff_getElem?_eq_some.mp hp
      rw [of_decide_eq_true he, hv] at hsome
      cases hsome
  | some entry =>
    have hmem : (v, entry) ∈ s.validators.toList :=
      Std.ExtTreeMap.mem_toList_iff_getElem?_eq_some.mpr hv
    revert hpair hmem
    generalize s.validators.toList = l
    intro hpair hmem
    induction l with
    | nil => cases hmem
    | cons p l ih =>
      obtain ⟨hp, hpair⟩ := List.pairwise_cons.mp hpair
      obtain rfl | hmem := List.mem_cons.mp hmem
      · have hrest : l.filter (fun p => decide (p.1 = v)) = [] :=
          List.filter_eq_nil_iff.mpr fun q hq he => hp q hq (of_decide_eq_true he).symm
        rw [List.filter_cons_of_pos (by simp), hrest]
        rfl
      · rw [List.filter_cons_of_neg (by simpa using hp _ hmem), ih hpair hmem]

/-- The stake rows of one validator. -/
theorem lookup_stakeWrites (v : Address) {k : Key}
    (hother : ∀ p : Address × ValidatorEntry, p.1 ≠ v → lookup (s.stakeWrites p) k = none) :
    lookup (s.validators.toList.flatMap s.stakeWrites) k =
      s.validators[v]?.elim none fun entry => lookup (s.stakeWrites (v, entry)) k := by
  rw [lookup_flatMap_filter (p := fun p => decide (p.1 = v)) fun p _ hp =>
    hother p (of_decide_eq_false hp), filter_validators]
  cases s.validators[v]? with
  | none => rfl
  | some entry => exact congrArg (lookup · k) (List.flatMap_singleton _ _)

/-- The account row of a sub-account. -/
theorem account_install (laws : Crypto.Laws) (h : s.install root = .ok rows) (v : Address) :
    rows.account (stakeSubaccount v) = s.validators[v]?.elim (s.subAccount v) fun entry =>
      { s.subAccount v with balance := (s.subAccount v).balance + entry.stake } := by
  obtain ⟨-, -, rest, hrest, rfl⟩ := install_eq_ok h
  have hother : ∀ p : Address × ValidatorEntry, p.1 ≠ v →
      lookup (s.stakeWrites p) (.account (stakeSubaccount v)) = none := by
    intro p hp
    refine lookup_eq_none fun w hw he => ?_
    simp only [stakeWrites, List.mem_cons, List.not_mem_nil, or_false] at hw
    obtain rfl | rfl | rfl := hw
    · cases he
    · cases he
    · injection he with he
      exact hp (laws.stakeSubaccount_injective he)
  have haccounts : lookup (accountWrites s.accounts.toList) (.account (stakeSubaccount v)) =
      s.accounts[stakeSubaccount v]?.map some :=
    (lookup_accountWrites _ _).trans (congrArg (Option.map some) (get?_toList _ _))
  rw [Rows.account, apply_apply, lookup_vault hrest rfl, lookup_stakeWrites v hother, haccounts]
  cases hv : s.validators[v]? with
  | none =>
    change Option.getD (α := AccountEntry) (Option.getD (Option.map some _) none) default = _
    unfold subAccount
    cases s.accounts[stakeSubaccount v]? <;> rfl
  | some entry =>
    have hsub : lookup (s.stakeWrites (v, entry)) (.account (stakeSubaccount v)) = some (some
        { s.subAccount v with balance := (s.subAccount v).balance + entry.stake }) := by
      rw [stakeWrites, lookup_cons, lookup_cons, lookup_cons, lookup_nil, Option.none_or]
      exact congrArg (Option.or · _) (congrArg (Option.or · _) (put_effect_self _ _))
    rw [Option.elim_some, hsub]
    rfl

theorem allocation_install (h : s.install root = .ok rows) (m v : Address) :
    rows.allocation m v = s.validators[v]?.elim none fun entry =>
      if m = v then some (s.allocation v entry) else none := by
  obtain ⟨-, -, rest, hrest, rfl⟩ := install_eq_ok h
  have hkey : ∀ (p : Address × ValidatorEntry), ∀ w ∈ s.stakeWrites p, w.key = .stake m v →
      p.1 = v ∧ m = v := by
    intro p w hw he
    simp only [stakeWrites, List.mem_cons, List.not_mem_nil, or_false] at hw
    obtain rfl | rfl | rfl := hw
    · injection he with h₁ h₂
      exact ⟨h₂, h₁.symm.trans h₂⟩
    · cases he
    · cases he
  have haccounts : lookup (accountWrites s.accounts.toList) (.stake m v) = none :=
    lookup_map_eq_none fun _ => nofun
  have hother : ∀ p : Address × ValidatorEntry, p.1 ≠ v →
      lookup (s.stakeWrites p) (.stake m v) = none :=
    fun p hp => lookup_eq_none fun w hw he => hp (hkey p w hw he).1
  rw [Rows.allocation, apply_apply, lookup_vault hrest rfl, lookup_stakeWrites v hother, haccounts,
    Option.or_none]
  cases s.validators[v]? with
  | none => rfl
  | some entry =>
    rw [Option.elim_some, Option.elim_some]
    by_cases hm : m = v
    · subst hm
      have hown : lookup (s.stakeWrites (m, entry)) (.stake m m) = some (some (s.allocation m entry)) := by
        have hlist : lookup [(put (.stakeByValidator m) [m] : RowWrite), put (.account (stakeSubaccount m))
            { s.subAccount m with balance := (s.subAccount m).balance + entry.stake }] (.stake m m) =
              none := by
          refine lookup_eq_none fun w hw he => ?_
          simp only [List.mem_cons, List.not_mem_nil, or_false] at hw
          obtain rfl | rfl := hw <;> cases he
        rw [stakeWrites, lookup_cons, hlist, Option.none_or]
        exact put_effect_self _ _
      rw [hown, if_pos rfl]
      rfl
    · rw [lookup_eq_none fun w hw he => hm (hkey _ w hw he).2, if_neg hm]
      rfl

theorem masters_install (h : s.install root = .ok rows) (v : Address) :
    rows.masters v = s.validators[v]?.elim [] fun _ => [v] := by
  obtain ⟨-, -, rest, hrest, rfl⟩ := install_eq_ok h
  have hother : ∀ p : Address × ValidatorEntry, p.1 ≠ v →
      lookup (s.stakeWrites p) (.stakeByValidator v) = none := by
    intro p hp
    refine lookup_eq_none fun w hw he => ?_
    simp only [stakeWrites, List.mem_cons, List.not_mem_nil, or_false] at hw
    obtain rfl | rfl | rfl := hw
    · cases he
    · injection he with he
      exact hp he
    · cases he
  have haccounts : lookup (accountWrites s.accounts.toList) (.stakeByValidator v) = none :=
    lookup_map_eq_none fun _ => nofun
  rw [Rows.masters, apply_apply, lookup_vault hrest rfl, lookup_stakeWrites v hother, haccounts,
    Option.or_none]
  cases s.validators[v]? with
  | none => rfl
  | some entry =>
    have hown : lookup (s.stakeWrites (v, entry)) (.stakeByValidator v) = some (some [v]) := by
      have hlist : lookup [(put (.account (stakeSubaccount v))
          { s.subAccount v with balance := (s.subAccount v).balance + entry.stake } : RowWrite)]
            (.stakeByValidator v) = none := by
        refine lookup_eq_none fun w hw he => ?_
        obtain rfl := List.mem_singleton.mp hw
        cases he
      rw [stakeWrites, lookup_cons, lookup_cons, hlist, Option.none_or]
      exact congrArg (Option.or · _) (put_effect_self _ _)
    rw [Option.elim_some, hown]
    rfl

/-- No unbonding is listed at genesis. -/
theorem due_install (h : s.install root = .ok rows) (height : Nat) :
    rows (.unbondingDue height) = none := by
  obtain ⟨-, -, rest, hrest, rfl⟩ := install_eq_ok h
  have hstakes : lookup (s.validators.toList.flatMap s.stakeWrites) (.unbondingDue height) = none := by
    refine lookup_flatMap_eq_none fun p _ => lookup_eq_none fun w hw he => ?_
    simp only [stakeWrites, List.mem_cons, List.not_mem_nil, or_false] at hw
    obtain rfl | rfl | rfl := hw <;> cases he
  have haccounts : lookup (accountWrites s.accounts.toList) (.unbondingDue height) = none :=
    lookup_map_eq_none fun _ => nofun
  rw [apply_apply, lookup_vault hrest rfl, hstakes, haccounts]
  rfl

/-- **Every genesis vault is sound.** -/
theorem sound_install (laws : Crypto.Laws) (h : s.install root = .ok rows)
    (htyped : ∀ (a : Address) (e : AccountEntry), s.accounts[a]? = some e → e.balance ≤ u128Max)
    (v : Address) :
    (rows.vault v).Sound v := by
  obtain ⟨-, hfits, -⟩ := install_eq_ok h
  have hvault : rows.vault v = ⟨rows.masters v, fun m => rows.allocation m v,
      (rows.account (stakeSubaccount v)).balance⟩ := rfl
  rw [hvault, masters_install h v, account_install laws h v,
    funext fun m => allocation_install h m v]
  cases hv : s.validators[v]? with
  | none =>
    refine ⟨Nat.zero_le _, fun m => ?_, fun m a ha => ?_, fun m a ha => ?_, ?_⟩
    · simp
    · cases ha
    · cases ha
    · change (s.subAccount v).balance ≤ u128Max
      unfold subAccount
      cases hsub : s.accounts[stakeSubaccount v]? with
      | none => exact Nat.zero_le _
      | some e => exact htyped _ e hsub
  | some entry =>
    have hfit := List.all_eq_true.mp hfits (v, entry)
      (Std.ExtTreeMap.mem_toList_iff_getElem?_eq_some.mpr hv)
    have hsome : ∀ m a, (if m = v then some (s.allocation v entry) else none) = some a →
        m = v ∧ a = s.allocation v entry := by
      intro m a ha
      split at ha
      · exact ⟨‹_›, (Option.some.inj ha).symm⟩
      · cases ha
    refine ⟨le_rfl, fun m => ?_, fun m a ha => ?_, fun m a ha => ?_, of_decide_eq_true hfit⟩
    · simp only [Option.elim_some, List.mem_singleton]
      split <;> simp [*]
    · obtain ⟨rfl, rfl⟩ := hsome m a ha
      exact ⟨rfl, rfl⟩
    · obtain ⟨rfl, rfl⟩ := hsome m a ha
      change entry.stake + 0 ≤ (s.subAccount m).balance + entry.stake
      omega

/-! ## The first set and the parameters -/

/-- The rows of sets, parameters and proposals are those of the first set and of the spec's parameters. -/
theorem consensus_install (h : s.install root = .ok rows) :
    ∃ set, assignVotingPower (s.validators.map fun _ entry => entry.stake) = some set ∧
      ∃ ws : List RowWrite, rows = Writes.apply ws (fun _ => none) ∧
        (put (.validatorSet 0) set : RowWrite) ∈ ws ∧ (put .chainParams s.params : RowWrite) ∈ ws ∧
        ∀ w ∈ ws, w.key.isConsensusRow = true → w = put (.validatorSet 0) set ∨ w = put .chainParams s.params := by
  obtain ⟨_, -, h⟩ := bind_eq_ok.mp h
  obtain ⟨registrations, -, h⟩ := bind_eq_ok.mp h
  obtain ⟨entries, hentries, h⟩ := bind_eq_ok.mp h
  obtain rfl := Except.ok.inj h
  unfold batchEntries at hentries
  split at hentries
  · cases hentries
  split at hentries
  · cases hentries
  rename_i set hset
  obtain rfl := Except.ok.inj hentries
  refine ⟨set, hset, _, rfl, by simp [otherWrites], by simp [otherWrites], ?_⟩
  have hno : ∀ {w : RowWrite} {P : Prop}, w.key.isConsensusRow = false →
      w.key.isConsensusRow = true → P := fun hfalse htrue => by rw [hfalse] at htrue; cases htrue
  simp only [List.forall_mem_append, List.forall_mem_singleton, List.forall_mem_flatMap]
  refine ⟨⟨⟨⟨fun w hw => ?_, fun p _ w hw => ?_⟩, ?_⟩, fun r _ w hw => ?_⟩, hno rfl⟩
  · obtain ⟨p, -, rfl⟩ := List.mem_map.mp hw
    exact hno rfl
  · simp only [stakeWrites, List.mem_cons, List.not_mem_nil, or_false] at hw
    obtain rfl | rfl | rfl := hw <;> exact hno rfl
  · simp only [otherWrites, attestorWrites, List.forall_mem_append, List.forall_mem_cons,
      List.forall_mem_map, List.forall_mem_flatMap, List.not_mem_nil, false_implies, implies_true,
      and_true]
    exact ⟨⟨⟨fun _ => .inl trivial, fun _ _ => hno rfl⟩, hno rfl, fun _ => .inr trivial⟩, fun _ _ => ⟨hno rfl, hno rfl⟩⟩
  · obtain ⟨a, hk⟩ | ⟨p, hk⟩ := BlsKeyRegistration.key_of_mem_writes hw <;> exact hno (by rw [hk]; rfl)

end Snapshot

end Arxium
