import Arxium.Lib.Tally
import Arxium.Runtime.Sender

/-!
# Runtime/Books — what an action does to an asset's book

The book of an asset is its record and everyone's balance of it.  Whatever an action does to a book
comes down to a few entries (`Book.Entry`): units are minted to one owner, burned from one owner or
moved between two, or the record is amended without them.  A corporate action makes many entries, each
on the book as the one before it left it (`Rows.Posts`).  What the handlers do to the assets is read off
them once (`AssetEffect`); every invariant of supply and holders is then a fact about entries.
-/

namespace Arxium

open ReadProg Writes

/-! ## Books -/

/-- Whether a balance of this owner makes it a holder: the issuer of a regulated asset is none. -/
def Asset.Counts (a : Asset) (who : Address) : Prop := a.assetClass = .token ∨ who ≠ a.issuer

instance (a : Asset) (who : Address) : Decidable (a.Counts who) :=
  inferInstanceAs (Decidable (_ ∨ _))

/-- The record, its holder count following one balance. -/
def Asset.track (a : Asset) (who : Address) (before after : Nat) : Asset :=
  { a with holderCount := if a.Counts who then (a.countHolder before after).holderCount
      else a.holderCount }

theorem Asset.countHolder_eq (a : Asset) (before after : Nat) :
    a.countHolder before after =
      { a with holderCount := (a.countHolder before after).holderCount } := by
  unfold countHolder
  split
  · rfl
  · split <;> rfl

theorem Asset.countHolder_eq_track {a : Asset} (h : a.assetClass = .token) (who : Address)
    (before after : Nat) : a.countHolder before after = a.track who before after := by
  rw [track, if_pos (.inl h), ← a.countHolder_eq]

theorem Rwa.trackHolder_eq_track {a : Asset} (h : a.assetClass ≠ .token) (who : Address)
    (before after : Nat) : trackHolder a who before after = a.track who before after := by
  have hiff : a.Counts who ↔ who ≠ a.issuer := by simp [Asset.Counts, h]
  rw [trackHolder, Asset.track, ite_congr (propext hiff) (fun _ => rfl) (fun _ => rfl)]
  by_cases hw : who = a.issuer
  · rw [if_pos hw, if_neg (not_not.mpr hw)]
  · rw [if_neg hw, if_pos hw, ← a.countHolder_eq]

/-- A change of the record that leaves supply, holders and issuer alone and lifts no limit on issuance. -/
structure Asset.Amends (a a' : Asset) : Prop where
  assetRef : a'.assetRef = a.assetRef
  assetClass : a'.assetClass = a.assetClass
  issuer : a'.issuer = a.issuer
  totalSupply : a'.totalSupply = a.totalSupply
  holderCount : a'.holderCount = a.holderCount
  issuanceLocked : a.issuanceLocked = true → a'.issuanceLocked = true
  maxSupply : a'.maxSupply = a.maxSupply ∨ a'.maxSupply = some a.totalSupply

/-- An asset's record and everyone's balance of it. -/
@[ext] structure Book where
  asset : Asset
  balance : Address → Nat

namespace Book

/-- One balance is set, the holder count following it. -/
def set (b : Book) (who : Address) (amount : Nat) : Book where
  asset := b.asset.track who (b.balance who) amount
  balance := Function.update b.balance who amount

def withSupply (b : Book) (supply : Nat) : Book :=
  { b with asset := { b.asset with totalSupply := supply } }

/-- Units come into being in one balance, within the cap. -/
structure Mints (b : Book) (who : Address) (amount : Nat) (b' : Book) : Prop where
  fits : b.asset.totalSupply + amount ≤ u128Max
  capped : b.asset.maxSupply.all (b.asset.totalSupply + amount ≤ ·) = true
  eq : b' = (b.withSupply (b.asset.totalSupply + amount)).set who (b.balance who + amount)

/-- **One entry in the book of an asset.** -/
inductive Entry : Book → Book → Prop
  | mint {b b' : Book} {who : Address} {amount : Nat} (unlocked : b.asset.issuanceLocked = false)
      (mints : b.Mints who amount b') : Entry b b'
  | burn {b : Book} {who : Address} {amount : Nat} (held : amount ≤ b.balance who) :
      Entry b ((b.withSupply (b.asset.totalSupply - amount)).set who (b.balance who - amount))
  | move {b : Book} {sender recipient : Address} {amount : Nat} (held : amount ≤ b.balance sender)
      (ne : recipient ≠ sender) : Entry b ((b.set sender (b.balance sender - amount)).set recipient
        (saturatingAdd (b.balance recipient) amount))
  | amend {b : Book} {asset : Asset} (amends : b.asset.Amends asset) : Entry b ⟨asset, b.balance⟩

theorem Entry.assetRef_eq {b b' : Book} (h : b.Entry b') : b'.asset.assetRef = b.asset.assetRef := by
  cases h with
  | mint _ mints => rw [mints.eq]; rfl
  | burn => rfl
  | move => rfl
  | amend amends => exact amends.assetRef

theorem Entry.assetClass_eq {b b' : Book} (h : b.Entry b') :
    b'.asset.assetClass = b.asset.assetClass := by
  cases h with
  | mint _ mints => rw [mints.eq]; rfl
  | burn => rfl
  | move => rfl
  | amend amends => exact amends.assetClass

theorem Entry.issuer_eq {b b' : Book} (h : b.Entry b') : b'.asset.issuer = b.asset.issuer := by
  cases h with
  | mint _ mints => rw [mints.eq]; rfl
  | burn => rfl
  | move => rfl
  | amend amends => exact amends.issuer

/-- Whoever is in `D` does not start to hold units, and whoever is not does not stop. -/
structure Drifts (D : Set Address) (f g : Address → Nat) : Prop where
  debited : ∀ o ∈ D, g o ≠ 0 → f o ≠ 0
  credited : ∀ o ∉ D, f o ≠ 0 → g o ≠ 0

theorem Drifts.refl (D : Set Address) (f : Address → Nat) : Drifts D f f :=
  ⟨fun _ _ => id, fun _ _ => id⟩

theorem Drifts.trans {D : Set Address} {f g k : Address → Nat} (h : Drifts D f g)
    (h' : Drifts D g k) : Drifts D f k :=
  ⟨fun o ho hne => h.debited o ho (h'.debited o ho hne),
    fun o ho hne => h'.credited o ho (h.credited o ho hne)⟩

theorem drifts_update {D : Set Address} {f : Address → Nat} {who : Address} {amount : Nat}
    (hin : who ∈ D → amount ≠ 0 → f who ≠ 0) (hout : who ∉ D → f who ≠ 0 → amount ≠ 0) :
    Drifts D f (Function.update f who amount) := by
  refine ⟨fun o ho hne => ?_, fun o ho hne => ?_⟩
  · by_cases h : o = who
    · subst h
      rw [Function.update_self] at hne
      exact hin ho hne
    · rwa [Function.update_of_ne h] at hne
  · by_cases h : o = who
    · subst h
      rw [Function.update_self]
      exact hout ho hne
    · rwa [Function.update_of_ne h]

/-- Entries one after the other, all of one drift: a book in between has no holder that the first and the
last have not. -/
abbrev Entries (D : Set Address) : Book → Book → Prop :=
  Relation.ReflTransGen fun b b' => b.Entry b' ∧ Drifts D b.balance b'.balance

variable {D : Set Address} {b b' : Book}

theorem Entries.assetRef_eq (h : b.Entries D b') : b'.asset.assetRef = b.asset.assetRef := by
  induction h with
  | refl => rfl
  | tail _ h ih => exact h.1.assetRef_eq.trans ih

theorem Entries.assetClass_eq (h : b.Entries D b') : b'.asset.assetClass = b.asset.assetClass := by
  induction h with
  | refl => rfl
  | tail _ h ih => exact h.1.assetClass_eq.trans ih

theorem Entries.issuer_eq (h : b.Entries D b') : b'.asset.issuer = b.asset.issuer := by
  induction h with
  | refl => rfl
  | tail _ h ih => exact h.1.issuer_eq.trans ih

end Book

/-! ## The book in the rows -/

namespace Rows

/-- What an owner holds of an asset. -/
def balance (rows : Rows) (asset : AssetRef) (owner : Address) : Nat :=
  Option.getD (α := Nat) (rows (.assetBalance asset owner)) 0

/-- The book of a record. -/
def book (rows : Rows) (a : Asset) : Book := ⟨a, rows.balance a.assetRef⟩

/-- The rows with some balances set. -/
def post (rows : Rows) (balances : AssetBalanceUpdates) : Rows :=
  Writes.apply (assetBalanceWrites balances) rows

variable {rows : Rows} {a a' : Asset} {balances balances' : AssetBalanceUpdates}

@[simp] theorem run_balanceOf {ε : Type} [Errors ε] (asset : AssetRef) (owner : Address) :
    (balanceOf asset owner : Read ε _).run rows.view = .ok (rows.balance asset owner) := rfl

theorem run_balanceOf_bind {ε α : Type} [Errors ε] (asset : AssetRef) (owner : Address)
    (f : Nat → Read ε α) : (balanceOf asset owner >>= f).run rows.view =
      (f (rows.balance asset owner)).run rows.view := rfl

@[simp] theorem post_nil (rows : Rows) : rows.post [] = rows := rfl

theorem post_append (rows : Rows) (balances balances' : AssetBalanceUpdates) :
    rows.post (balances ++ balances') = (rows.post balances).post balances' := by
  rw [post, assetBalanceWrites, List.map_append, apply_append]
  rfl

theorem lookup_assetBalanceWrites (balances : AssetBalanceUpdates) (asset : AssetRef)
    (owner : Address) : lookup (assetBalanceWrites balances) (.assetBalance asset owner) =
      (Updates.get? balances (asset, owner)).map some :=
  lookup_entries (fun p : AssetRef × Address => Key.assetBalance p.1 p.2) (fun _ => some)
    (fun _ _ h => Prod.ext (Key.assetBalance.inj h).1 (Key.assetBalance.inj h).2) (fun _ => rfl)
    balances (asset, owner)

theorem balance_post (rows : Rows) (balances : AssetBalanceUpdates) (asset : AssetRef)
    (owner : Address) : (rows.post balances).balance asset owner =
      (Updates.get? balances (asset, owner)).getD (rows.balance asset owner) := by
  rw [balance, post, apply_apply, lookup_assetBalanceWrites]
  cases Updates.get? balances (asset, owner) <;> rfl

/-- Only balances change. -/
theorem post_apply_of_ne (rows : Rows) (balances : AssetBalanceUpdates) {k : Key}
    (hk : ∀ asset owner, k ≠ .assetBalance asset owner) : rows.post balances k = rows k := by
  refine apply_of_not_mem (fun w hw he => ?_) rows
  obtain ⟨p, -, rfl⟩ := List.mem_map.mp hw
  exact hk _ _ he.symm

theorem balance_post_single (rows : Rows) (asset : AssetRef) (owner : Address) (x : Nat) :
    (rows.post [((asset, owner), x)]).balance asset =
      Function.update (rows.balance asset) owner x := by
  funext o
  rw [balance_post, Function.update_apply]
  by_cases ho : o = owner
  · simp [Updates.get?, ho]
  · simp [Updates.get?, ho, Ne.symm ho]

theorem balance_post_pair (rows : Rows) (asset : AssetRef) (p q : Address) (x y : Nat) :
    (rows.post [((asset, p), x), ((asset, q), y)]).balance asset =
      Function.update (Function.update (rows.balance asset) p x) q y := by
  rw [← List.singleton_append, post_append, balance_post_single, balance_post_single]

/-- **Some balances are posted to the book of a record**, as entries of it and of no other. -/
structure Posts (rows : Rows) (D : Set Address) (a : Asset) (balances : AssetBalanceUpdates)
    (a' : Asset) : Prop where
  entries : (rows.book a).Entries D ((rows.post balances).book a')
  own : ∀ p ∈ balances, p.1.1 = a.assetRef

variable {D : Set Address}

theorem Posts.assetRef_eq (h : rows.Posts D a balances a') : a'.assetRef = a.assetRef :=
  h.entries.assetRef_eq

theorem Posts.assetClass_eq (h : rows.Posts D a balances a') : a'.assetClass = a.assetClass :=
  h.entries.assetClass_eq

theorem Posts.issuer_eq (h : rows.Posts D a balances a') : a'.issuer = a.issuer :=
  h.entries.issuer_eq

theorem Posts.refl (rows : Rows) (D : Set Address) (a : Asset) : rows.Posts D a [] a :=
  ⟨.refl, fun _ hp => by cases hp⟩

theorem Posts.trans {a'' : Asset} (h : rows.Posts D a balances a')
    (h' : (rows.post balances).Posts D a' balances' a'') :
    rows.Posts D a (balances ++ balances') a'' := by
  refine ⟨?_, List.forall_mem_append.mpr ⟨h.own, fun p hp => (h'.own p hp).trans h.assetRef_eq⟩⟩
  rw [post_append]
  exact h.entries.trans h'.entries

theorem Posts.amend (h : a.Amends a') : rows.Posts D a [] a' := by
  have hbook : (rows.post []).book a' = ⟨a', (rows.book a).balance⟩ := by
    rw [book, h.assetRef]
    rfl
  refine ⟨.single ?_, fun _ hp => by cases hp⟩
  rw [hbook]
  exact ⟨.amend h, .refl D _⟩

end Rows

/-! ## Entries of the circuits -/

section Circuits

variable {rows : Rows} {a a' : Asset} {balances balances' : AssetBalanceUpdates}
  {sender recipient : Address} {amount height : Nat}

theorem checkedAdd_eq_some {x y z : Nat} : checkedAdd x y = some z ↔ x + y ≤ u128Max ∧ z = x + y := by
  unfold checkedAdd
  split <;> simp [*, eq_comm]

theorem checkedSub_eq_some {x y z : Nat} : checkedSub x y = some z ↔ y ≤ x ∧ z = x - y := by
  unfold checkedSub
  split <;> simp [*, eq_comm]

theorem checkedMul_eq_some {x y z : Nat} : checkedMul x y = some z ↔ x * y ≤ u128Max ∧ z = x * y := by
  unfold checkedMul
  split <;> simp [*, eq_comm]

theorem saturatingAdd_eq {x y : Nat} (h : x + y ≤ u128Max) : saturatingAdd x y = x + y :=
  Nat.min_eq_left h

/-- Minting in the rows. -/
theorem mints_post (rows : Rows) (who : Address) (hfits : a.totalSupply + amount ≤ u128Max)
    (hcap : a.maxSupply.all (a.totalSupply + amount ≤ ·) = true) :
    (rows.book a).Mints who amount
      ((rows.post [((a.assetRef, who), rows.balance a.assetRef who + amount)]).book
        ({ a with totalSupply := a.totalSupply + amount }.track who (rows.balance a.assetRef who)
          (rows.balance a.assetRef who + amount))) := by
  refine ⟨hfits, hcap, Book.ext rfl ?_⟩
  exact Rows.balance_post_single _ _ _ _

theorem posts_mint {who : Address} (hlocked : a.issuanceLocked = false)
    (hmints : (rows.book a).Mints who amount ((rows.post balances).book a'))
    (hown : ∀ p ∈ balances, p.1.1 = a.assetRef) : rows.Posts ∅ a balances a' := by
  refine ⟨.single ⟨.mint hlocked hmints, ?_⟩, hown⟩
  rw [hmints.eq]
  exact Book.drifts_update (fun h => absurd h (Set.notMem_empty _))
    fun _ hne => (Nat.add_pos_left (Nat.pos_of_ne_zero hne) _).ne'

theorem saturatingAdd_ne_zero {x : Nat} (h : x ≠ 0) (y : Nat) : saturatingAdd x y ≠ 0 := by
  unfold saturatingAdd u128Max
  omega

/-- The book after a move between two owners. -/
theorem book_move (rows : Rows) (a : Asset) (hne : recipient ≠ sender) (left right : Nat) :
    (rows.post [((a.assetRef, sender), left), ((a.assetRef, recipient), right)]).book
      ((a.track sender (rows.balance a.assetRef sender) left).track recipient
        (rows.balance a.assetRef recipient) right) =
      ((rows.book a).set sender left).set recipient right := by
  refine Book.ext ?_ (Rows.balance_post_pair _ _ _ _ _ _)
  simp only [Rows.book, Book.set, Function.update_of_ne hne]

/-- A move between two owners in the rows. -/
theorem posts_move {D : Set Address} (held : amount ≤ rows.balance a.assetRef sender)
    (hne : recipient ≠ sender) (hD : amount = 0 ∨ sender ∈ D ∧ recipient ∉ D) :
    rows.Posts D a [((a.assetRef, sender), rows.balance a.assetRef sender - amount),
        ((a.assetRef, recipient), saturatingAdd (rows.balance a.assetRef recipient) amount)]
      ((a.track sender (rows.balance a.assetRef sender) (rows.balance a.assetRef sender - amount)).track
        recipient (rows.balance a.assetRef recipient)
        (saturatingAdd (rows.balance a.assetRef recipient) amount)) := by
  refine ⟨.single ?_, by simp⟩
  rw [book_move rows a hne]
  refine ⟨Book.Entry.move (b := rows.book a) held hne, ?_⟩
  refine (Book.drifts_update (fun _ hne => ?_) fun hs hne => ?_).trans
    (Book.drifts_update (fun hr hne' => ?_) fun _ hheld => ?_)
  · change rows.balance a.assetRef sender ≠ 0
    omega
  · obtain rfl := hD.resolve_right fun h => hs h.1
    exact hne
  · obtain rfl := hD.resolve_right fun h => h.2 hr
    rw [Function.update_of_ne hne]
    intro h0
    change rows.balance a.assetRef recipient = 0 at h0
    rw [h0] at hne'
    exact hne' rfl
  · rw [Function.update_of_ne hne] at hheld
    exact saturatingAdd_ne_zero hheld amount

theorem posts_burn (held : amount ≤ rows.balance a.assetRef sender) :
    rows.Posts {sender} a [((a.assetRef, sender), rows.balance a.assetRef sender - amount)]
      ({ a with totalSupply := a.totalSupply - amount }.track sender (rows.balance a.assetRef sender)
        (rows.balance a.assetRef sender - amount)) := by
  have hbook : (rows.post [((a.assetRef, sender), rows.balance a.assetRef sender - amount)]).book
      ({ a with totalSupply := a.totalSupply - amount }.track sender (rows.balance a.assetRef sender)
        (rows.balance a.assetRef sender - amount)) =
      ((rows.book a).withSupply (a.totalSupply - amount)).set sender
        (rows.balance a.assetRef sender - amount) :=
    Book.ext rfl (Rows.balance_post_single _ _ _ _)
  refine ⟨.single ?_, by simp⟩
  rw [hbook]
  refine ⟨Book.Entry.burn (b := rows.book a) held, ?_⟩
  refine Book.drifts_update (fun _ hne => ?_) fun h => absurd (Set.mem_singleton sender) h
  change rows.balance a.assetRef sender ≠ 0
  omega

namespace Token

theorem posts_mintInto (htoken : a.assetClass = .token)
    (h : (mintInto a recipient amount).run rows.view = .ok (a', balances)) :
    (rows.book a).Mints recipient amount ((rows.post balances).book a') ∧
      a'.assetRef = a.assetRef ∧ ∀ p ∈ balances, p.1.1 = a.assetRef := by
  obtain ⟨resulting, hres, h⟩ := bind_ok.mp h
  obtain ⟨hfits, rfl⟩ := checkedAdd_eq_some.mp (orFail_ok.mp hres)
  obtain ⟨_, hcap, h⟩ := bind_ok.mp h
  rw [Rows.run_balanceOf_bind] at h
  obtain ⟨after, hafter, h⟩ := bind_ok.mp h
  obtain ⟨-, rfl⟩ := checkedAdd_eq_some.mp (orFail_ok.mp hafter)
  obtain ⟨rfl, rfl⟩ := Prod.mk.inj (Except.ok.inj h)
  refine ⟨?_, ?_, by simp⟩
  · have hcount := Asset.countHolder_eq_track (a := { a with totalSupply := a.totalSupply + amount })
      htoken recipient (rows.balance a.assetRef recipient) (rows.balance a.assetRef recipient + amount)
    rw [hcount]
    exact mints_post rows recipient hfits (ensure_ok.mp hcap)
  · rw [Asset.countHolder_eq]

theorem posts_applyMint (h : (applyMint a sender recipient amount).run rows.view = .ok (a', balances)) :
    a.assetClass = .token ∧ rows.Posts ∅ a balances a' := by
  obtain ⟨_, htoken, h⟩ := bind_ok.mp h
  have htoken := of_decide_eq_true (ensure_ok.mp htoken)
  obtain ⟨_, h⟩ := run_rest h
  obtain ⟨_, hlocked, h⟩ := bind_ok.mp h
  obtain ⟨_, h⟩ := run_rest h
  obtain ⟨hmints, -, hown⟩ := posts_mintInto htoken h
  have hlocked : a.issuanceLocked = false := by simpa using ensure_ok.mp hlocked
  exact ⟨htoken, posts_mint hlocked hmints hown⟩

theorem posts_applyTransfer
    (h : (applyTransfer a sender recipient amount).run rows.view = .ok (a', balances)) :
    a.assetClass = .token ∧ rows.Posts {sender} a balances a' := by
  obtain ⟨_, htoken, h⟩ := bind_ok.mp h
  have htoken := of_decide_eq_true (ensure_ok.mp htoken)
  obtain ⟨_, h⟩ := run_rest h
  rw [Rows.run_balanceOf_bind] at h
  obtain ⟨_, hheld, h⟩ := bind_ok.mp h
  have hheld := of_decide_eq_true (ensure_ok.mp hheld)
  rw [run_ite] at h
  split at h
  · obtain ⟨rfl, rfl⟩ := Prod.mk.inj (Except.ok.inj h)
    exact ⟨htoken, .refl rows _ a⟩
  · rename_i hne
    rw [Rows.run_balanceOf_bind] at h
    obtain ⟨after, hafter, h⟩ := bind_ok.mp h
    obtain ⟨hfits, rfl⟩ := checkedAdd_eq_some.mp (orFail_ok.mp hafter)
    obtain ⟨rfl, rfl⟩ := Prod.mk.inj (Except.ok.inj h)
    refine ⟨htoken, ?_⟩
    rw [Asset.countHolder_eq_track htoken sender, Asset.countHolder_eq_track (by exact htoken) recipient,
      ← saturatingAdd_eq hfits]
    exact posts_move hheld (Ne.symm hne) (.inr ⟨rfl, Ne.symm hne⟩)

theorem posts_applyBurn (h : (applyBurn a sender amount).run rows.view = .ok (a', balances)) :
    a.assetClass = .token ∧ rows.Posts {sender} a balances a' := by
  obtain ⟨_, htoken, h⟩ := bind_ok.mp h
  have htoken := of_decide_eq_true (ensure_ok.mp htoken)
  obtain ⟨_, h⟩ := run_rest h
  rw [Rows.run_balanceOf_bind] at h
  obtain ⟨_, hheld, h⟩ := bind_ok.mp h
  have hheld := of_decide_eq_true (ensure_ok.mp hheld)
  obtain ⟨rfl, rfl⟩ := Prod.mk.inj (Except.ok.inj h)
  refine ⟨htoken, ?_⟩
  rw [Asset.countHolder_eq_track (by exact htoken) sender]
  exact posts_burn hheld

theorem posts_applyRenounceMint {D : Set Address}
    (h : (applyRenounceMint a sender).run rows.view = .ok a') : rows.Posts D a [] a' := by
  obtain ⟨_, _, h⟩ := run_rest₂ h
  obtain rfl := Except.ok.inj h
  exact .amend ⟨rfl, rfl, rfl, rfl, rfl, fun _ => rfl, .inl rfl⟩

/-- A new token may have an initial supply, even where no more is ever to come. -/
theorem mints_applyCreate [Crypto] {fee : Nat} {accounts : AccountUpdates}
    (h : (applyCreate a amount fee).run rows.view = .ok (a', accounts, balances)) :
    a.assetClass = .token ∧ ((a' = a ∧ balances = []) ∨
      (∃ who amount, (rows.book a).Mints who amount ((rows.post balances).book a')) ∧
        a'.assetRef = a.assetRef ∧ ∀ p ∈ balances, p.1.1 = a.assetRef) := by
  obtain ⟨_, htoken, h⟩ := bind_ok.mp h
  have htoken := of_decide_eq_true (ensure_ok.mp htoken)
  obtain ⟨_, h⟩ := run_rest h
  -- The fee is no matter of the book.
  obtain ⟨⟨asset, assets⟩, hmint, rfl, rfl⟩ : ∃ x : Asset × AssetBalanceUpdates,
      (if 0 < amount then mintInto a a.issuer amount else pure (a, [])).run rows.view = .ok x ∧
        x.1 = a' ∧ x.2 = balances := by
    dsimp only at h
    split at h
    all_goals
      rename_i hpos
      obtain ⟨x, hx, h⟩ := bind_ok.mp h
      refine ⟨x, by simpa only [if_pos, if_neg, hpos, not_false_eq_true] using hx, ?_⟩
      split at h
      · obtain ⟨_, _, _, h⟩ := run_rest₃ h
        simp only [pure_eq, run_ret, Except.ok.injEq, Prod.mk.injEq] at h
        exact ⟨h.1, h.2.2⟩
      · simp only [pure_eq, run_ret, Except.ok.injEq, Prod.mk.injEq] at h
        exact ⟨h.1, h.2.2⟩
  refine ⟨htoken, ?_⟩
  rw [run_ite] at hmint
  split at hmint
  · obtain ⟨hmints, hrest⟩ := posts_mintInto htoken hmint
    exact .inr ⟨⟨_, _, hmints⟩, hrest⟩
  · obtain ⟨rfl, rfl⟩ := Prod.mk.inj (Except.ok.inj hmint)
    exact .inl ⟨rfl, rfl⟩

end Token

namespace Rwa

theorem run_credit {asset : AssetRef} {x y z : Nat} {v : KvView} :
    (credit asset x y).run v = .ok z ↔ x + y ≤ u128Max ∧ z = x + y :=
  orFail_ok.trans checkedAdd_eq_some

theorem run_issuedSupply {v : KvView} {resulting : Nat} :
    (issuedSupply a amount).run v = .ok resulting ↔ a.totalSupply + amount ≤ u128Max ∧
      a.maxSupply.all (a.totalSupply + amount ≤ ·) = true ∧ resulting = a.totalSupply + amount := by
  unfold issuedSupply
  simp only [bind_ok, run_credit, ensure_ok, exists_const]
  constructor
  · rintro ⟨_, ⟨hfits, rfl⟩, hcap, h⟩
    exact ⟨hfits, hcap, (Except.ok.inj h).symm⟩
  · rintro ⟨hfits, hcap, rfl⟩
    exact ⟨_, ⟨hfits, rfl⟩, hcap, rfl⟩

/-- The recipient check returns the recipient's balance. -/
theorem balance_of_checkRecipient {existing : Nat}
    (h : (checkRecipient a recipient amount height).run rows.view = .ok existing) :
    existing = rows.balance a.assetRef recipient := by
  obtain ⟨_, h⟩ := run_rest h
  rw [Rows.run_balanceOf_bind] at h
  dsimp only at h
  split at h
  · exact (Except.ok.inj h).symm
  · obtain ⟨_, h⟩ := run_rest h
    split at h
    · exact (Except.ok.inj h).symm
    · obtain ⟨_, _, h⟩ := run_rest₂ h
      exact (Except.ok.inj h).symm

theorem posts_applyIssue (hclass : a.assetClass ≠ .token) {nonce : Nat} {accounts : AccountUpdates}
    (h : (applyIssue a sender nonce amount).run rows.view = .ok (a', accounts, balances)) :
    rows.Posts ∅ a balances a' := by
  obtain ⟨_, hissuer, h⟩ := bind_ok.mp h
  obtain rfl := of_decide_eq_true (ensure_ok.mp hissuer)
  obtain ⟨_, hlocked, h⟩ := bind_ok.mp h
  obtain ⟨_, hres, h⟩ := bind_ok.mp h
  obtain ⟨hfits, hcap, rfl⟩ := run_issuedSupply.mp hres
  obtain ⟨_, _, _, h⟩ := run_rest₃ h
  rw [Rows.run_balanceOf_bind] at h
  obtain ⟨_, hcredit, h⟩ := bind_ok.mp h
  obtain ⟨-, rfl⟩ := run_credit.mp hcredit
  obtain ⟨rfl, -, rfl⟩ := pure_ok₃.mp h
  have hlocked : a.issuanceLocked = false := by simpa using ensure_ok.mp hlocked
  have hmints := mints_post rows a.issuer hfits hcap
  -- The issuer's own balance makes no holder.
  rw [← trackHolder_eq_track (a := { a with totalSupply := a.totalSupply + amount }) hclass,
    trackHolder, if_pos rfl] at hmints
  exact posts_mint hlocked hmints (by simp)

/-- **A forced transfer asks for the balance only**, and to oneself it does nothing. -/
theorem run_applyForcedTransfer
    (h : (applyForcedTransfer a sender recipient amount).run rows.view = .ok (a', balances)) :
    amount ≤ rows.balance a.assetRef sender ∧ ((recipient = sender ∧ a' = a ∧ balances = []) ∨
      (recipient ≠ sender ∧ rows.balance a.assetRef recipient + amount ≤ u128Max ∧
        a' = trackHolder (trackHolder a sender (rows.balance a.assetRef sender)
          (rows.balance a.assetRef sender - amount)) recipient (rows.balance a.assetRef recipient)
          (rows.balance a.assetRef recipient + amount) ∧
        balances = [((a.assetRef, sender), rows.balance a.assetRef sender - amount),
          ((a.assetRef, recipient), rows.balance a.assetRef recipient + amount)])) := by
  unfold applyForcedTransfer at h
  rw [Rows.run_balanceOf_bind] at h
  obtain ⟨_, hheld, h⟩ := bind_ok.mp h
  refine ⟨of_decide_eq_true (ensure_ok.mp hheld), ?_⟩
  rw [run_ite] at h
  split at h
  · rename_i hself
    obtain ⟨rfl, rfl⟩ := Prod.mk.inj (Except.ok.inj h)
    exact .inl ⟨hself, rfl, rfl⟩
  · rename_i hne
    rw [Rows.run_balanceOf_bind] at h
    obtain ⟨_, hcredit, h⟩ := bind_ok.mp h
    obtain ⟨hfits, rfl⟩ := run_credit.mp hcredit
    obtain ⟨rfl, rfl⟩ := Prod.mk.inj (Except.ok.inj h)
    exact .inr ⟨hne, hfits, rfl, rfl⟩

theorem posts_applyForcedTransfer (hclass : a.assetClass ≠ .token) {D : Set Address}
    (hD : recipient ≠ sender → amount = 0 ∨ sender ∈ D ∧ recipient ∉ D)
    (h : (applyForcedTransfer a sender recipient amount).run rows.view = .ok (a', balances)) :
    rows.Posts D a balances a' := by
  obtain ⟨hheld, ⟨-, rfl, rfl⟩ | ⟨hne, hfits, rfl, rfl⟩⟩ := run_applyForcedTransfer h
  · exact .refl rows D _
  · rw [trackHolder_eq_track hclass, trackHolder_eq_track (by exact hclass), ← saturatingAdd_eq hfits]
    exact posts_move hheld hne (hD hne)

theorem run_moveChecked
    (h : (moveChecked a sender recipient amount height).run rows.view = .ok (a', balances)) :
    (applyForcedTransfer a sender recipient amount).run rows.view = .ok (a', balances) := by
  obtain ⟨_, h⟩ := run_rest h
  dsimp only at h
  split at h
  · rw [Rows.run_balanceOf_bind] at h
    obtain ⟨_, h⟩ := run_rest h
    exact h
  · exact h

theorem run_applyCompliantTransfer {nonce : Nat} {accounts : AccountUpdates}
    (h : (applyCompliantTransfer a sender nonce recipient amount height).run rows.view =
      .ok (a', accounts, balances)) :
    (applyCompliantMove a sender recipient amount height).run rows.view = .ok (a', balances) := by
  obtain ⟨_, hcheck, h⟩ := bind_ok.mp h
  obtain ⟨_, _, _, h⟩ := run_rest₃ h
  obtain ⟨⟨asset, assets⟩, hmove, h⟩ := bind_ok.mp h
  obtain ⟨rfl, -, rfl⟩ := pure_ok₃.mp h
  exact bind_ok.mpr ⟨_, hcheck, hmove⟩

theorem posts_applyCompliantMove (hclass : a.assetClass ≠ .token)
    (h : (applyCompliantMove a sender recipient amount height).run rows.view = .ok (a', balances)) :
    rows.Posts {sender} a balances a' := by
  obtain ⟨_, h⟩ := run_rest h
  exact posts_applyForcedTransfer hclass (fun hne => .inr ⟨rfl, hne⟩) (run_moveChecked h)

/-- **Issuance to a holder** asks for an asset that is neither locked nor frozen, an eligible
recipient and room under the cap. -/
theorem run_applyIssueTo
    (h : (applyIssueTo a recipient amount height).run rows.view = .ok (a', balances)) :
    a.issuanceLocked = false ∧ a.frozen = false ∧
      (checkRecipient a recipient amount height).run rows.view =
        .ok (rows.balance a.assetRef recipient) ∧
      a.totalSupply + amount ≤ u128Max ∧ a.maxSupply.all (a.totalSupply + amount ≤ ·) = true ∧
      a' = trackHolder { a with totalSupply := a.totalSupply + amount } recipient
        (rows.balance a.assetRef recipient) (rows.balance a.assetRef recipient + amount) ∧
      balances = [((a.assetRef, recipient), rows.balance a.assetRef recipient + amount)] := by
  obtain ⟨_, hlocked, h⟩ := bind_ok.mp h
  obtain ⟨_, hfrozen, h⟩ := bind_ok.mp h
  obtain ⟨_, hcheck, h⟩ := bind_ok.mp h
  obtain rfl := balance_of_checkRecipient hcheck
  obtain ⟨_, hres, h⟩ := bind_ok.mp h
  obtain ⟨hfits, hcap, rfl⟩ := run_issuedSupply.mp hres
  obtain ⟨_, hcredit, h⟩ := bind_ok.mp h
  obtain ⟨-, rfl⟩ := run_credit.mp hcredit
  obtain ⟨rfl, rfl⟩ := Prod.mk.inj (Except.ok.inj h)
  exact ⟨by simpa using ensure_ok.mp hlocked,
    by simpa using ensure_ok.mp hfrozen, hcheck, hfits, hcap, rfl, rfl⟩

theorem posts_applyIssueTo (hclass : a.assetClass ≠ .token)
    (h : (applyIssueTo a recipient amount height).run rows.view = .ok (a', balances)) :
    rows.Posts ∅ a balances a' := by
  obtain ⟨hlocked, -, -, hfits, hcap, rfl, rfl⟩ := run_applyIssueTo h
  rw [trackHolder_eq_track (by exact hclass)]
  exact posts_mint hlocked (mints_post rows recipient hfits hcap) (by simp)

theorem posts_applyBurn (hclass : a.assetClass ≠ .token)
    (h : (applyBurn a a.issuer amount).run rows.view = .ok (a', balances)) :
    rows.Posts {a.issuer} a balances a' := by
  unfold applyBurn at h
  rw [Rows.run_balanceOf_bind] at h
  obtain ⟨_, hheld, h⟩ := bind_ok.mp h
  obtain ⟨_, hsupply, h⟩ := bind_ok.mp h
  obtain ⟨-, rfl⟩ := checkedSub_eq_some.mp (orFail_ok.mp hsupply)
  obtain ⟨rfl, rfl⟩ := Prod.mk.inj (Except.ok.inj h)
  have hposts := posts_burn (of_decide_eq_true (ensure_ok.mp hheld))
  rwa [← trackHolder_eq_track (a := { a with totalSupply := a.totalSupply - amount }) hclass,
    trackHolder, if_pos rfl] at hposts

theorem posts_applyRecover (hclass : a.assetClass ≠ .token) {lost replacement : Address}
    (hne : lost ≠ replacement) {states : HolderStateUpdates}
    (h : (applyRecover a lost replacement height).run rows.view = .ok (a', balances, states)) :
    rows.Posts {lost} a balances a' := by
  unfold applyRecover at h
  rw [Rows.run_balanceOf_bind] at h
  obtain ⟨_, hcheck, h⟩ := bind_ok.mp h
  obtain rfl := balance_of_checkRecipient hcheck
  obtain ⟨_, _, h⟩ := run_rest₂ h
  obtain ⟨rfl, rfl, -⟩ := pure_ok₃.mp h
  have hposts := posts_move (le_refl (rows.balance a.assetRef lost)) hne.symm
    (.inr ⟨Set.mem_singleton lost, hne.symm⟩)
  rw [Nat.sub_self, ← trackHolder_eq_track hclass, ← trackHolder_eq_track] at hposts
  · exact hposts
  · rw [trackHolder_eq_track hclass]
    exact hclass

theorem posts_applyForcedTransferWithLock (hclass : a.assetClass ≠ .token)
    {states : HolderStateUpdates}
    (h : (applyForcedTransferWithLock a sender recipient amount height).run rows.view =
      .ok (a', balances, states)) : rows.Posts {sender} a balances a' := by
  obtain ⟨⟨asset, assets⟩, hmove, h⟩ := bind_ok.mp h
  have hsame : asset = a' ∧ assets = balances := by
    dsimp only at h
    split at h
    · simp only [pure_eq, run_ret, Except.ok.injEq, Prod.mk.injEq] at h
      exact ⟨h.1, h.2.1⟩
    · obtain ⟨_, h⟩ := run_rest h
      simp only [pure_eq, run_ret, Except.ok.injEq, Prod.mk.injEq] at h
      exact ⟨h.1, h.2.1⟩
  obtain ⟨rfl, rfl⟩ := hsame
  exact posts_applyForcedTransfer hclass (fun hne => .inr ⟨rfl, hne⟩) hmove

/-! ### Corporate actions -/

/-- A step reads the balances as the steps before it left them. -/
@[simp] theorem run_through {α : Type} (s : Staging) (p : Read RwaError α) :
    (s.through p).run rows.view = p.run (rows.post s.balances).view := by
  rw [Staging.through, run_staged, overlay_view, Rows.post]

/-- What the steps staged are entries of the book the action began with. -/
structure Staging.Good (rows : Rows) (D : Set Address) (a : Asset) (s : Staging) : Prop where
  posts : rows.Posts D a s.balances s.asset
  regulated : a.assetClass ≠ .token

variable {D : Set Address} {s : Staging}

theorem Staging.Good.start (rows : Rows) (D : Set Address) (hclass : a.assetClass ≠ .token) :
    Staging.Good rows D a { asset := a } := ⟨.refl rows D a, hclass⟩

theorem Staging.Good.class_ne (h : s.Good rows D a) : s.asset.assetClass ≠ .token := by
  rw [h.posts.assetClass_eq]
  exact h.regulated

theorem Staging.Good.step (h : s.Good rows D a)
    (hposts : (rows.post s.balances).Posts D s.asset balances a') (states : HolderStateUpdates) :
    Staging.Good rows D a ⟨a', s.balances ++ balances, states⟩ :=
  ⟨h.posts.trans hposts, h.regulated⟩

theorem Staging.Good.settle {s' : Staging} (h : s.Good rows D a) {holder : Address}
    {moved : Asset × AssetBalanceUpdates} {numerator denominator : Nat}
    (hposts : (rows.post s.balances).Posts D s.asset moved.2 moved.1)
    (hrun : (s.settle holder moved numerator denominator height).run rows.view = .ok s') :
    s'.Good rows D a := by
  obtain ⟨_, _, hrun⟩ := run_rest₂ hrun
  obtain rfl := Except.ok.inj hrun
  exact h.step hposts _

/-- The snapshot is spent, which is no matter of the book. -/
theorem Staging.Good.posts_spent (h : s.Good rows D a) :
    rows.Posts D a s.balances { s.asset with snapshot := none } := by
  have hamend : (rows.post s.balances).Posts D s.asset [] { s.asset with snapshot := none } :=
    .amend ⟨rfl, rfl, rfl, rfl, rfl, id, .inl rfl⟩
  simpa using h.posts.trans hamend

theorem ensures_distributeOne {issuer : Address} {table : CapTable} {total : Nat}
    (h : s.Good rows {issuer} a) (entry : Address × Nat) :
    (distributeOne issuer table total height s entry).Ensures rows.view
      (Staging.Good rows {issuer} a) := by
  refine ensures_bind.mpr fun share _ => ?_
  refine ensures_ite.mpr ⟨fun _ => (ensures_ret _).mpr h, fun _ => ?_⟩
  refine ensures_bind.mpr (Prog.ensures_attempt.mpr ?_)
  rw [run_through]
  split
  · rename_i asset updates hmove
    exact (ensures_ret _).mpr (h.step (posts_applyCompliantMove h.class_ne hmove) _)
  · exact ensures_ite.mpr ⟨fun _ => (ensures_ret _).mpr h,
      fun _ => (Prog.ensures_fail _).mpr trivial⟩

/-- Everyone but the issuer pays. -/
theorem ensures_redeemOne (h : s.Good rows {a.issuer}ᶜ a) (entry : Address × Nat) :
    (redeemOne height s entry).Ensures rows.view (Staging.Good rows {a.issuer}ᶜ a) := by
  refine ensures_bind.mpr fun moved hmoved s' hs' => ?_
  rw [run_through] at hmoved
  refine h.settle (posts_applyForcedTransfer h.class_ne (fun hne => .inr ?_) hmoved) hs'
  rw [h.posts.issuer_eq] at hne ⊢
  exact ⟨hne.symm, fun hmem => hmem rfl⟩

/-- A split only adds to balances, or it only takes from those of the holders. -/
def splitDrift (a : Asset) (numerator denominator : Nat) : Set Address :=
  if denominator ≤ numerator then ∅ else {a.issuer}ᶜ

theorem ensures_splitOne {numerator denominator : Nat} (hpos : 0 < denominator)
    (h : s.Good rows (splitDrift a numerator denominator) a) (entry : Address × Nat) :
    (splitOne numerator denominator height s entry).Ensures rows.view
      (Staging.Good rows (splitDrift a numerator denominator) a) := by
  intro s' hs'
  obtain ⟨product, hproduct, hs'⟩ := bind_ok.mp hs'
  obtain ⟨-, rfl⟩ := checkedMul_eq_some.mp (orFail_ok.mp hproduct)
  dsimp only at hs'
  split at hs'
  · rename_i hgrow
    have hratio : denominator ≤ numerator := by
      by_contra hlt
      refine absurd (Nat.div_le_of_le_mul ?_) (Nat.not_le.mpr hgrow)
      rw [Nat.mul_comm]
      exact Nat.mul_le_mul_right _ (Nat.le_of_not_ge hlt)
    obtain ⟨moved, hmoved, hs'⟩ := bind_ok.mp hs'
    rw [run_through] at hmoved
    refine h.settle ?_ hs'
    rw [splitDrift, if_pos hratio]
    exact posts_applyIssueTo h.class_ne hmoved
  · rename_i hshrink
    obtain ⟨moved, hmoved, hs'⟩ := bind_ok.mp hs'
    rw [run_through] at hmoved
    refine h.settle (posts_applyForcedTransfer h.class_ne (fun hne => ?_) hmoved) hs'
    unfold splitDrift
    split
    · rename_i hratio
      refine .inl (Nat.sub_eq_zero_of_le ?_)
      exact (Nat.le_div_iff_mul_le hpos).mpr (Nat.mul_le_mul_left _ hratio)
    · rw [h.posts.issuer_eq] at hne ⊢
      exact .inr ⟨hne.symm, fun hmem => hmem rfl⟩

theorem posts_applySnapshot (h : (applySnapshot a height).run rows.view = .ok a') :
    rows.Posts D a [] a' := by
  obtain ⟨_, _, h⟩ := run_rest₂ h
  obtain rfl := Except.ok.inj h
  exact .amend ⟨rfl, rfl, rfl, rfl, rfl, id, .inl rfl⟩

variable [Crypto]

theorem run_intoUpdates {v : KvView} (h : (intoUpdates balances).run v = .ok balances') :
    balances' = balances := by
  unfold intoUpdates at h
  split at h
  · exact (Except.ok.inj h).symm
  · cases h

theorem posts_applyDistribution (hclass : a.assetClass ≠ .token) {issuer : Address} {table : CapTable}
    {total : Nat}
    (h : (applyDistribution a issuer table total height).run rows.view = .ok (a', balances)) :
    rows.Posts {issuer} a balances a' := by
  obtain ⟨s, hs, h⟩ := bind_ok.mp h
  obtain ⟨_, hinto, h⟩ := bind_ok.mp h
  obtain rfl := run_intoUpdates hinto
  obtain ⟨rfl, rfl⟩ := Prod.mk.inj (Except.ok.inj h)
  exact (ensures_foldlM (fun s entry hs => ensures_distributeOne hs entry) _ _
    (.start rows _ hclass) s hs).posts

theorem posts_applyRedemption (hclass : a.assetClass ≠ .token) {table : CapTable}
    {states : HolderStateUpdates}
    (h : (applyRedemption a table height).run rows.view = .ok (a', balances, states)) :
    rows.Posts {a.issuer}ᶜ a balances a' := by
  obtain ⟨s, hs, h⟩ := bind_ok.mp h
  obtain ⟨_, hinto, h⟩ := bind_ok.mp h
  obtain rfl := run_intoUpdates hinto
  obtain ⟨rfl, rfl, -⟩ := pure_ok₃.mp h
  exact (ensures_foldlM (fun s entry hs => ensures_redeemOne hs entry) _ _
    (.start rows _ hclass) s hs).posts_spent

theorem posts_applySplit (hclass : a.assetClass ≠ .token) {table : CapTable}
    {numerator denominator : Nat} (hpos : 0 < denominator) {states : HolderStateUpdates}
    (h : (applySplit a table numerator denominator height).run rows.view =
      .ok (a', balances, states)) :
    rows.Posts (splitDrift a numerator denominator) a balances a' := by
  obtain ⟨s, hs, h⟩ := bind_ok.mp h
  obtain ⟨_, hinto, h⟩ := bind_ok.mp h
  obtain rfl := run_intoUpdates hinto
  obtain ⟨rfl, rfl, -⟩ := pure_ok₃.mp h
  exact (ensures_foldlM (fun s entry hs => ensures_splitOne hpos hs entry) _ _
    (.start rows _ hclass) s hs).posts_spent

end Rwa

end Circuits

end Arxium
