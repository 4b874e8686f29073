import Arxium.Primitives.Canonical
import Arxium.Node.Committed
import Arxium.Executor.PlainChain

/-!
# Node/Addresses — one key, one account

An account is a text, its authority the bytes the text decodes to, and nothing but a policy's check
compares the two: a key has as many accounts as its address has spellings.  A plain sender is its key's
own address, and if every sender of a chain is plain then so is every validator that joined: it sent the
action itself, or it once sent the action that named its operator.
-/

namespace Arxium

open ReadProg Writes Crypto

/-! ## Who writes an operator row -/

namespace Runtime

variable [Crypto] [Wire ActionPayload] [Zk] [StateTrie] [Decode] {adjudicator : Adjudicator}
  {ctx : DispatchCtx} {action : ChainAction} {v : KvView} {u : BlockUpdates}

/-- **Only a validator names its operator.** -/
theorem yields_authorization : (dispatchInner adjudicator ctx action).Yields fun u =>
    ∀ e ∈ u.operator.authorization, e.1 = action.sender := by
  by_cases ho : action.payload.fills .operator = false
  · refine yields_fills.mono fun u hu e he => ?_
    rw [hu.operator ho] at he
    cases he
  unfold dispatchInner
  cases hp : action.payload with
  | authorizeOperator | revokeOperator =>
    repeat (first | exact List.forall_mem_singleton.mpr rfl | refine yields_after fun _ => ?_)
  | _ =>
    rw [hp] at ho
    exact absurd rfl ho

theorem authorization_of_dispatchWith (h : (dispatchWith adjudicator ctx action).run v = .ok u) :
    ∀ e ∈ u.operator.authorization, e.1 = action.sender := by
  obtain ⟨inner, hinner, accounts, rfl⟩ := run_dispatchWith h
  exact yields_authorization.ensures v inner hinner

/-- A validator joins by its own action, or by its operator's. -/
theorem joined_of_dispatchWith {validator : Address} {amount : Nat} {pubkey pop : Bytes}
    (hp : action.payload = .joinValidator validator amount pubkey pop)
    (h : (dispatchWith adjudicator ctx action).run v = .ok u) :
    action.sender = validator ∨ v (.operator validator) = .ok (some action.sender) := by
  obtain ⟨inner, hinner, -⟩ := run_dispatchWith h
  rw [dispatchInner, hp] at hinner
  obtain ⟨_, hauth, -⟩ := bind_ok.mp hinner
  obtain ⟨allowed, hallowed, hreq⟩ := bind_ok.mp hauth
  have hreq := ensure_ok.mp hreq
  by_cases hs : action.sender = validator
  · exact .inl hs
  unfold isAuthorized at hallowed
  rw [if_neg hs] at hallowed
  obtain ⟨row, hrow, hallowed⟩ := bind_ok.mp hallowed
  have hrow := run_getRow_eq_ok.mp hrow
  obtain rfl : decide (row = some action.sender) = allowed := Except.ok.inj hallowed
  obtain rfl := of_decide_eq_true hreq
  exact .inr hrow

end Runtime

/-! ## Every spelling on the chain -/

/-- The invariant rule of the loop, with what it gives at each action. -/
theorem LandsAll.induct_mem [Crypto] [Wire ActionPayload] {env : ExecEnv} {I : ExecutionOutcome → Prop}
    {s s' : ExecutionOutcome} {actions : List ChainAction} (h : LandsAll env s actions s') (hs : I s)
    (hstep : ∀ s action s', action ∈ actions → Lands env s action s' → I s → I s') :
    ∀ action ∈ actions, ∃ t t', I t ∧ Lands env t action t' := by
  induction h with
  | nil s => exact fun _ ha => by cases ha
  | @cons s s₁ s₂ action rest head tail ih =>
    intro a ha
    rcases List.mem_cons.mp ha with rfl | ha
    · exact ⟨s, s₁, hs, head⟩
    · refine ih (hstep _ _ _ List.mem_cons_self head hs) (fun t b t' hb => ?_) a ha
      exact hstep t b t' (List.mem_cons_of_mem _ hb)

/-- Every validator with an operator has a canonical address. -/
def Rows.OperatorsCanonical [Crypto] (rows : Rows) : Prop :=
  ∀ v : Address, rows (.operator v) ≠ none → v.IsCanonical

/-- Writing rows keeps every operator's validator canonical if the written ones are. -/
theorem Rows.OperatorsCanonical.apply [Crypto] {rows : Rows} {ws : List RowWrite} (h : rows.OperatorsCanonical)
    (hws : ∀ w ∈ ws, ∀ v, w.key = .operator v → v.IsCanonical) :
    Rows.OperatorsCanonical (Writes.apply ws rows) := by
  intro v hv
  rw [apply_apply] at hv
  cases hl : lookup ws (.operator v) with
  | none =>
    rw [hl] at hv
    exact h v hv
  | some r =>
    exact hws _ (mem_of_lookup hl) v rfl

/-- Operator rows come from the authorizations. -/
theorem mem_authorization {u : BlockUpdates} {height : Nat} {c : Category} {v : Address}
    {w : RowWrite} (hu : GovernanceRows u.governance) (hw : w ∈ c.writes height u)
    (hk : w.key = .operator v) : ∃ e ∈ u.operator.authorization, e.1 = v := by
  have hc := Category.mem_writers hu hw
  rw [hk] at hc
  obtain rfl := List.mem_singleton.mp hc
  obtain ⟨e, he, rfl⟩ := List.mem_map.mp hw
  injection hk with hk
  exact ⟨e, he, hk⟩

section Chain

variable [Crypto] [Wire ActionPayload] [Zk] [StateTrie] [Decode] {forms : Bech32Forms}
  {env : NodeEnv} {params : ChainParams} {db db' : Db} {block : ChainBlock} {ex : Executed}

omit [Zk] [StateTrie] [Decode] in
/-- The sender of a landed action, if plain, has a canonical address. -/
theorem Lands.isCanonical {env : ExecEnv} {s s' : ExecutionOutcome} {action : ChainAction}
    (h : Lands env s action s') (laws : forms.Laws) (hplain : action.sender.IsPlain forms) :
    action.sender.IsCanonical := by
  obtain ⟨auth, hauth⟩ := exists_ok_of_isOk h.verified
  obtain ⟨key, hkey⟩ := Action.pubkeyBytes_of_verifyAccountSignature hauth
  exact Address.isCanonical_of_isPlain laws hkey hplain

/-- Every validator with an operator is canonical, in the rows and in the updates. -/
structure ExecutionOutcome.OperatorsCanonical (s : ExecutionOutcome) : Prop where
  rows : s.rows.OperatorsCanonical
  updates : ∀ u ∈ s.updates, ∀ e ∈ u.operator.authorization, e.1.IsCanonical

theorem ExecutionOutcome.OperatorsCanonical.land {genesis : Bytes} {validators : List Address}
    {height timestamp : Nat} {s s' : ExecutionOutcome} {action : ChainAction} (laws : forms.Laws)
    (hplain : action.sender.IsPlain forms)
    (h : Lands (execEnv db genesis params validators height timestamp) s action s')
    (hs : s.OperatorsCanonical) : s'.OperatorsCanonical := by
  have hsender := h.isCanonical laws hplain
  obtain ⟨u, hu, rfl⟩ := h.dispatched
  have hauth : ∀ e ∈ u.operator.authorization, e.1.IsCanonical := fun e he => by
    rw [Runtime.authorization_of_dispatchWith hu e he]
    exact hsender
  have hgov := ((Runtime.yields_dispatchWith (fun _ _ hP => hP)
    Runtime.yields_governanceRows).ensures _ u hu).1
  constructor
  · refine hs.rows.apply fun w hw v hk => ?_
    rw [u.viewWrites_eq] at hw
    obtain ⟨c, -, hw⟩ := List.mem_flatMap.mp hw
    obtain ⟨e, he, rfl⟩ := mem_authorization hgov hw hk
    exact hauth e he
  · intro u' hu'
    rcases List.mem_append.mp hu' with hu' | hu'
    · exact hs.updates u' hu'
    · obtain rfl := List.mem_singleton.mp hu'
      exact hauth

omit [Wire ActionPayload] [Zk] [StateTrie] [Decode] in
/-- The seed names no operator. -/
theorem Rows.OperatorsCanonical.seeded {seed : BlockUpdates} (h : db.state.rows.OperatorsCanonical)
    (hseed : seed.SeedOnly) (hgov : GovernanceRows seed.governance) :
    (seededRows db seed).OperatorsCanonical := by
  refine h.apply fun w hw v hk => ?_
  have hset : ∀ u ∈ [seed], u.validatorSet = none := List.forall_mem_singleton.mpr (by rw [hseed])
  rw [Categories.viewWrites_eq 0] at hw
  obtain ⟨c, -, hw⟩ := List.mem_flatMap.mp hw
  rw [Categories.part_ofUpdates 0 _ hset, List.flatMap_singleton] at hw
  obtain ⟨e, he, -⟩ := mem_authorization hgov hw hk
  rw [hseed] at he
  cases he

/-- **A block of plain senders keeps operators canonical, and so are the validators it admits.** -/
theorem Commits.operatorsCanonical (h : Commits env params db block ex db') (laws : forms.Laws)
    (hplain : ∀ a ∈ block.actions, a.sender.IsPlain forms) (hs : db.state.rows.OperatorsCanonical) :
    db'.state.rows.OperatorsCanonical ∧
      ∀ a ∈ block.actions, ∀ validator amount pubkey pop,
        a.payload = .joinValidator validator amount pubkey pop → validator.IsCanonical := by
  obtain ⟨genesis, proposer, hran⟩ := h.ran
  have hshaped := h.shaped
  have hstart : ExecutionOutcome.OperatorsCanonical { rows := seededRows db ex.seed } :=
    ⟨hs.seeded hshaped.seed (hshaped.governance _ (by simp [Executed.updates])),
      fun u hu => by cases hu⟩
  have hstep : ∀ s action s', action ∈ block.actions → Lands (execEnv db genesis params
      (db.getValidatorSetAt block.height).keys block.height block.timestamp) s action s' →
      s.OperatorsCanonical → s'.OperatorsCanonical :=
    fun s a s' ha hl hs => hs.land laws (hplain a ha) hl
  constructor
  · intro v hv
    rw [h.row_eq (k := .operator v) rfl] at hv
    cases hl : lookup (byCategory block.height (Key.operator v).writers ex.updates) (.operator v) with
    | none =>
      rw [hl] at hv
      exact hs v hv
    | some r =>
      obtain ⟨c, -, hw⟩ := List.mem_flatMap.mp (mem_of_lookup hl)
      obtain ⟨u, hu, hw⟩ := List.mem_flatMap.mp hw
      obtain ⟨e, he, rfl⟩ := mem_authorization (hshaped.governance u hu) hw rfl
      simp only [Executed.updates, List.cons_append, List.mem_cons, List.mem_append,
        List.not_mem_nil, or_false] at hu
      rcases hu with rfl | hu | rfl
      · rw [hshaped.seed] at he
        cases he
      · exact (hran.lands.induct hstart hstep).updates u hu e he
      · rw [hshaped.sealed.operator] at he
        cases he
  · intro a ha validator amount pubkey pop hp
    obtain ⟨s, s', hs, hl⟩ := hran.lands.induct_mem hstart hstep a ha
    obtain ⟨u, hu, -⟩ := hl.dispatched
    rcases Runtime.joined_of_dispatchWith hp hu with rfl | hrow
    · exact hl.isCanonical laws (hplain a ha)
    · refine hs.rows validator ?_
      rw [Except.ok.inj hrow]
      exact Option.some_ne_none _

/-- **On a chain of plain senders every validator that joined has a canonical address.** -/
theorem Chain.joined_canonical (laws : forms.Laws) {s₀ s : ChainState}
    {hist : List (ChainBlock × Executed)} (h : Chain s₀ hist s)
    (hplain : ∀ e ∈ hist, ∀ a ∈ e.1.actions, a.sender.IsPlain forms)
    (hs : s₀.rows.OperatorsCanonical) : s.rows.OperatorsCanonical ∧
      ∀ e ∈ hist, ∀ a ∈ e.1.actions, ∀ validator amount pubkey pop,
        a.payload = .joinValidator validator amount pubkey pop → validator.IsCanonical := by
  induction h with
  | nil => exact ⟨hs, fun e he => by cases he⟩
  | snoc hchain hcommit ih =>
    rw [List.forall_mem_append, List.forall_mem_singleton] at hplain
    obtain ⟨hrows, hjoined⟩ := ih hplain.1
    obtain ⟨hrows', hjoined'⟩ := hcommit.operatorsCanonical laws hplain.2 hrows
    exact ⟨hrows', List.forall_mem_append.mpr ⟨hjoined, List.forall_mem_singleton.mpr hjoined'⟩⟩

end Chain

/-! ## A second account for a key

Hex digits between `arx1` and a letter for the checksum, read in either case: enough of bech32 to run the
checks on. -/

namespace TwoSpellings

/-- The digits of some bytes. -/
def digits (b : Bytes) : List Char :=
  b.flatMap fun x => [hexDigit (x.toNat / 16), hexDigit (x.toNat % 16)]

def encode (hrp : String) (b : Bytes) : String :=
  String.ofList (hrp.toList ++ '1' :: (digits b ++ ['q']))

/-- The checksum letter is `q`, or `p` for Bech32m. -/
def decode (s : String) : Option (String × Bytes) :=
  if s.toList.any Char.isUpper && s.toList.any Char.isLower then none
  else match s.toList.map Char.toLower with
    | 'a' :: 'r' :: 'x' :: '1' :: rest =>
      if rest.getLast? = some 'q' ∨ rest.getLast? = some 'p' then
        (hexDecodeChars rest.dropLast).map fun b => ("arx", b)
      else none
    | _ => none

def forms : Bech32Forms where
  isBech32m := fun s => s.toList.getLast? = some 'p' ∨ s.toList.getLast? = some 'P'
  isPadded := fun _ => false

@[reducible] def crypto : Crypto :=
  { PlainChain.crypto with bech32Encode := encode, bech32Decode := decode }

theorem isUpper_digits {b : Bytes} : ∀ c ∈ digits b, c.isUpper = false := by
  intro c hc
  obtain ⟨x, -, hc⟩ := List.mem_flatMap.mp hc
  have hx : x.toNat < 256 := x.toNat_lt
  have hall : ∀ n < 16, (hexDigit n).isUpper = false := by decide
  simp only [List.mem_cons, List.not_mem_nil, or_false] at hc
  rcases hc with rfl | rfl
  · exact hall _ (by omega)
  · exact hall _ (by omega)

/-- Digits without upper case are the encoder's. -/
theorem eq_digits {l : List Char} {b : Bytes} (h : hexDecodeChars l = some b)
    (hl : ∀ c ∈ l, c.isUpper = false) : l = digits b := by
  have hpairs := (List.forall₂_and_left _ _).mpr ⟨hl, forall₂_hexVal h (hexDecodeChars_hexDigits b)⟩
  have hboth := (List.forall₂_and_left _ _).mpr ⟨isUpper_digits, hpairs.flip⟩
  have hone : ∀ c ∈ hexChars, ∀ d ∈ hexChars, c.isUpper = false → d.isUpper = false →
      hexVal d = hexVal c → c = d := by
    intro c hc d hd hcu hdu hv
    have hall := forall_hexChars (p := fun c => hexChars.all fun d =>
      c.isUpper = false → d.isUpper = false → hexVal d = hexVal c → c = d) (by decide) hc
    exact of_decide_eq_true (List.all_eq_true.mp hall d hd) hcu hdu hv
  have heq : List.Forall₂ (· = ·) (digits b) l := hboth.imp fun d c hdc => by
    obtain ⟨hd, hc, hcm, hdm, hv⟩ := hdc
    exact (hone c hcm d hdm hc hd hv).symm
  rw [List.forall₂_eq_eq_eq] at heq
  exact heq.symm

theorem toLower_of_not_isUpper {l : List Char} (h : ∀ c ∈ l, c.isUpper = false) :
    l.map Char.toLower = l := by
  refine List.map_congr_left (fun c hc => ?_) |>.trans l.map_id
  have hc := h c hc
  simp only [Char.isUpper, Char.toLower] at hc ⊢
  grind

attribute [local instance] crypto PlainChain.wire Plain.zk Plain.trie Plain.decoders

set_option maxRecDepth 20000

/-- What decodes without upper case, checksum letters aside, is the encoder's text. -/
theorem forms_laws : forms.Laws where
  encoded_iff := by
    rintro ⟨s⟩ key h
    change decode s = some (Address.hrp, key) at h
    change s = encode Address.hrp key ↔ _
    constructor
    · rintro rfl
      refine ⟨?_, ?_, rfl⟩
      · intro c hc
        simp only [encode, String.toList_ofList, List.mem_append, List.mem_cons] at hc
        rcases hc with hc | rfl | hc | rfl | hc
        · rw [Address.hrp] at hc
          simp only [String.reduceToList, List.mem_cons, List.not_mem_nil, or_false] at hc
          rcases hc with rfl | rfl | rfl <;> decide
        · decide
        · exact isUpper_digits c hc
        · decide
        · cases hc
      · have hend : (encode Address.hrp key).toList.getLast? = some 'q' := by
          rw [encode, String.toList_ofList, ← List.cons_append, ← List.append_assoc,
            List.getLast?_concat]
        simp only [forms, hend]
        decide
    · rintro ⟨hupper, hbech32m, -⟩
      unfold decode at h
      rw [toLower_of_not_isUpper hupper] at h
      split at h
      · cases h
      · split at h
        · rename_i rest hs
          split at h
          · rename_i hlast
            obtain ⟨b, hb, he⟩ := Option.map_eq_some_iff.mp h
            obtain rfl : b = key := congrArg Prod.snd he
            have hend : s.toList.getLast? = rest.getLast? := by
              cases rest with
              | nil => simp at hlast
              | cons c rest => rw [hs]; rfl
            rw [← hend] at hlast
            have hq : rest.getLast? = some 'q' := by
              rw [← hend]
              simp only [forms, decide_eq_false_iff_not, not_or] at hbech32m
              exact hlast.resolve_right hbech32m.1
            have hdigits : rest.dropLast = digits b := eq_digits hb fun c hc => hupper c (by
              rw [hs]
              simp [List.mem_of_mem_dropLast hc])
            have hrest := List.dropLast_append_getLast? 'q' hq
            refine String.toList_inj.mp ?_
            rw [hs, encode, String.toList_ofList, ← hdigits, hrest]
            rfl
          · cases h
        · cases h

/-- The key of 32 zeros, as its address writes it. -/
def lower : Address := ⟨encode "arx" (List.replicate 32 0)⟩

/-- …and in upper case. -/
def upper : Address := ⟨String.ofList ((encode "arx" (List.replicate 32 0)).toList.map Char.toUpper)⟩

def join (sender : Address) : ChainAction :=
  ⟨sender, 0, some PlainChain.signature, .joinValidator sender 5 (List.replicate 48 0)
    (List.replicate 96 0)⟩

/-- The upper-case account has some funds, and five are enough to join. -/
def rows : Rows := Writes.apply
  [put .chainParams { PlainChain.params with minValidatorStake := 5 },
    put (.account upper) { balance := 10, nonce := 0 }] fun _ => none

end TwoSpellings

end Arxium
