import Arxium.Lib.ShortcutTrie

/-!
# Lib/ProvenPaths — which paths a copy built from proofs can answer for

A proof shows the hash of its leaf and of every subtree beside its path.  A path is *determined* when one of
the subtrees shown on the way to it is empty, or is the path's own leaf.

`walks_iff_determined` says that these are the paths a copy can walk down when it is built, and
`walks_update_iff` that writing changes nothing about it: the new nodes are those of subtrees on the written
path, and the hash of a subtree with a key in it tells where the subtree is.
-/

namespace SparseMerkle

variable {L H : Type} {X : Hasher L H}

/-! ## Walks below a path -/

section Walks

variable [DecidableEq H] {nodes nodes' : H → Option (H × H)} {f f' : List Bool → Option L}
  {pre p q : List Bool} {b : Bool}

/-- The walk down `p` from the subtree below `pre` succeeds. -/
def WalksBelow (X : Hasher L H) (nodes : H → Option (H × H)) (f : List Bool → Option L)
    (pre p : List Bool) : Prop := Walks X nodes (fun q => leaves X f (pre ++ q)) p

/-- The subtree below `pre` is empty, or its node is known. -/
def Known (X : Hasher L H) (nodes : H → Option (H × H)) (f : List Bool → Option L) (pre : List Bool)
    (n : Nat) : Prop := EmptyBelow f pre n ∨ (nodes (rootAt X f pre n)).isSome = true

theorem walksBelow_nil : WalksBelow X nodes f pre [] := rfl

omit [DecidableEq H] in
theorem siblings_update (g : List Bool → H) (p : List Bool) (h : H) :
    siblings X (Function.update g p h) p = siblings X g p := by
  induction p generalizing g with
  | nil => rfl
  | cons b p ih => rw [siblings, siblings, child_update_same, child_update_other g (by simp), ih]

omit [DecidableEq H] in
/-- The sibling where a path turns. -/
theorem getElem?_siblingsAt (pre p₁ : List Bool) (b : Bool) (p₂ : List Bool) :
    (siblingsAt X f pre (p₁ ++ b :: p₂))[p₁.length]? =
      some (rootAt X f (pre ++ p₁ ++ [!b]) p₂.length) := by
  induction p₁ generalizing pre with
  | nil => simp [siblingsAt_cons]
  | cons c p₁ ih =>
    rw [List.cons_append, siblingsAt_cons, List.length_cons, List.getElem?_cons_succ, ih]
    simp

/-- Recording a path adds the nodes of the subtrees on it. -/
theorem record_isSome {k : H} (h : (record X nodes p (siblingsAt X f pre p)
    (leaves X f (pre ++ p)) k).isSome = true) : (nodes k).isSome = true ∨
      ∃ p₁ p₂, p = p₁ ++ p₂ ∧ p₂ ≠ [] ∧ k = rootAt X f (pre ++ p₁) p₂.length := by
  induction p generalizing pre with
  | nil => exact .inl h
  | cons b p ih =>
    have hinner : climb X p (siblingsAt X f (pre ++ [b]) p) (leaves X f (pre ++ b :: p)) =
        rootAt X f (pre ++ [b]) p.length := by
      have hclimb := rootOf_eq_climb X (fun q => leaves X f ((pre ++ [b]) ++ q)) p
      rw [List.append_assoc, List.singleton_append] at hclimb
      exact hclimb.symm
    rw [siblingsAt_cons, record, hinner, ← rootAt_join b, Function.update_apply] at h
    by_cases hk : k = rootAt X f pre (p.length + 1)
    · exact .inr ⟨[], b :: p, rfl, by simp, by rw [hk, List.append_nil, List.length_cons]⟩
    · rw [if_neg hk, show pre ++ b :: p = (pre ++ [b]) ++ p by simp] at h
      rcases ih h with hold | ⟨p₁, p₂, rfl, hp₂, rfl⟩
      · exact .inl hold
      · exact .inr ⟨b :: p₁, p₂, rfl, hp₂, by simp⟩

variable (laws : X.Laws)

include laws

theorem walksBelow_cons (hn : NodesSound X nodes) : WalksBelow X nodes f pre (b :: p) ↔
    WalksBelow X nodes f (pre ++ [b]) p ∧ Known X nodes f pre (p.length + 1) := by
  rw [WalksBelow, walks_cons laws hn, child_leaves, Known, ← rootAt_eq_empties_iff laws (n := p.length + 1)]
  rfl

theorem EmptyBelow.walksBelow (hn : NodesSound X nodes) (h : EmptyBelow f pre p.length) :
    WalksBelow X nodes f pre p := by
  induction p generalizing pre with
  | nil => exact walksBelow_nil
  | cons b p ih => exact (walksBelow_cons laws hn).mpr ⟨ih (h.mono b), .inl h⟩

/-- Where a walk got to, another may turn off. -/
theorem WalksBelow.turn (hn : NodesSound X nodes) {p₁ p₂ q₂ : List Bool} {c : Bool}
    (h : WalksBelow X nodes f pre (p₁ ++ b :: p₂)) (hlen : q₂.length = p₂.length)
    (hq : WalksBelow X nodes f (pre ++ p₁ ++ [c]) q₂) : WalksBelow X nodes f pre (p₁ ++ c :: q₂) := by
  induction p₁ generalizing pre with
  | nil =>
    obtain ⟨-, hknown⟩ := (walksBelow_cons laws hn).mp h
    refine (walksBelow_cons laws hn).mpr ⟨?_, by rwa [hlen]⟩
    rwa [List.append_nil] at hq
  | cons d p₁ ih =>
    obtain ⟨hrest, hknown⟩ := (walksBelow_cons laws hn).mp h
    refine (walksBelow_cons laws hn).mpr ⟨ih hrest ?_, ?_⟩
    · rwa [List.append_assoc pre [d] p₁]
    · have hsame : (p₁ ++ c :: q₂).length = (p₁ ++ b :: p₂).length := by simp [hlen]
      change Known X nodes f pre ((p₁ ++ b :: p₂).length + 1) at hknown
      rw [← hsame] at hknown
      exact hknown

variable (sep : X.Separated)

include sep

/-- Nodes of subtrees on another path do not help a walk. -/
theorem WalksBelow.off (hn : NodesSound X nodes) (hn' : NodesSound X nodes')
    (hnew : ∀ k, (nodes' k).isSome = true → (nodes k).isSome = true ∨
      ∃ p₁ p₂, q = p₁ ++ p₂ ∧ k = rootAt X f p₁ p₂.length)
    (hoff : ¬ pre <+: q) (h : WalksBelow X nodes' f pre p) : WalksBelow X nodes f pre p := by
  induction p generalizing pre with
  | nil => exact walksBelow_nil
  | cons b p ih =>
    obtain ⟨hrest, hknown⟩ := (walksBelow_cons laws hn').mp h
    have hoff' : ¬ pre ++ [b] <+: q := fun hp => hoff ((List.prefix_append ..).trans hp)
    refine (walksBelow_cons laws hn).mpr ⟨ih hoff' hrest, ?_⟩
    rcases hknown with hempty | hnode
    · exact .inl hempty
    · rcases hnew _ hnode with hold | ⟨p₁, p₂, hq, heq⟩
      · exact .inr hold
      · by_cases hempty : EmptyBelow f pre (p.length + 1)
        · exact .inl hempty
        · obtain ⟨rfl, -⟩ := subtree_eq laws sep hempty heq
          exact absurd ⟨p₂, hq.symm⟩ hoff

omit sep in
/-- A write elsewhere leaves the walks of a subtree alone. -/
theorem walksBelow_congr (hn : NodesSound X nodes) (hs : SameBelow f f' pre p.length) :
    WalksBelow X nodes f pre p ↔ WalksBelow X nodes f' pre p := by
  induction p generalizing pre with
  | nil => exact iff_of_true walksBelow_nil walksBelow_nil
  | cons b p ih =>
    have hroot : rootAt X f pre (p.length + 1) = rootAt X f' pre (p.length + 1) := rootAt_congr hs
    rw [walksBelow_cons laws hn, walksBelow_cons laws hn, ih (hs.mono b), Known, Known,
      ← rootAt_eq_empties_iff laws, ← rootAt_eq_empties_iff laws, hroot]

/-- Below a common beginning, what can be walked after a write could be walked before. -/
theorem WalksBelow.of_write (hn : NodesSound X nodes) (hn' : NodesSound X nodes')
    (hnew : ∀ k, (nodes' k).isSome = true → (nodes k).isSome = true ∨
      ∃ p₁ p₂, pre ++ q = p₁ ++ p₂ ∧ k = rootAt X f' p₁ p₂.length)
    (hsame : ∀ r, r ≠ pre ++ q → f r = f' r) (hlen : p.length = q.length)
    (hq : WalksBelow X nodes f pre q) (h : WalksBelow X nodes' f' pre p) :
    WalksBelow X nodes f pre p := by
  induction p generalizing pre q with
  | nil => exact walksBelow_nil
  | cons b p ih =>
    match q, hlen with
    | c :: q, hlen =>
      have hpq : p.length = q.length := by simpa using hlen
      obtain ⟨hrest, hknown⟩ := (walksBelow_cons laws hn).mp hq
      obtain ⟨hp, -⟩ := (walksBelow_cons laws hn').mp h
      refine (walksBelow_cons laws hn).mpr ⟨?_, hpq ▸ hknown⟩
      by_cases hbc : b = c
      · subst hbc
        have hcons : pre ++ b :: q = (pre ++ [b]) ++ q := by simp
        rw [hcons] at hnew hsame
        exact ih hnew hsame hpq hrest hp
      · -- The paths part here, and nothing below this child was written.
        have hoff : ¬ pre ++ [b] <+: pre ++ c :: q := by
          rw [List.prefix_append_right_inj]
          exact fun hpre => hbc (List.cons_prefix_cons.mp hpre).1
        have hbelow : SameBelow f f' (pre ++ [b]) p.length := fun r _ => hsame _ fun he =>
          hoff (he ▸ List.prefix_append ..)
        exact (walksBelow_congr laws hn hbelow).mpr (hp.off laws sep hn hn' hnew hoff)

/-- **Writing a path that can be walked changes nothing about which paths can.** -/
theorem walks_update_iff (hn : NodesSound X nodes) (v : Option L) (hlen : p.length = q.length)
    (hq : Walks X nodes (leaves X f) q) :
    Walks X (record X nodes q (siblings X (leaves X f) q) (leafHash X q v))
      (leaves X (Function.update f q v)) p ↔ Walks X nodes (leaves X f) p := by
  have hn' := record_sound X hn q (siblings X (leaves X f) q) (leafHash X q v)
  constructor
  · intro h
    change WalksBelow X nodes f [] p
    refine WalksBelow.of_write laws sep hn hn' ?_ (fun r hr => ?_) hlen hq h
    · intro k hk
      have hsibs : siblings X (leaves X f) q = siblingsAt X (Function.update f q v) [] q := by
        rw [siblingsAt]
        simp only [List.nil_append]
        rw [leaves_update, siblings_update]
      have hleaf : leafHash X q v = leaves X (Function.update f q v) ([] ++ q) := by
        simp [leaves]
      rw [hsibs, hleaf] at hk
      refine (record_isSome hk).imp_right ?_
      rintro ⟨p₁, p₂, rfl, -, rfl⟩
      exact ⟨p₁, p₂, rfl, rfl⟩
    · exact (Function.update_of_ne hr ..).symm
  · intro h
    rw [leaves_update]
    exact h.update laws hn hlen _

end Walks

/-! ## What proofs show -/

section Proofs

variable {depth : Nat} {root : H} {proofs : List (InclusionProof L H)} {q : List Bool}

/-- **A subtree whose hash is shown**: the whole tree, what is beside the path of a proof, and its leaf. -/
inductive Shows (X : Hasher L H) (root : H) (proofs : List (InclusionProof L H)) : List Bool → H → Prop
  | root : Shows X root proofs [] root
  | beside {proof : InclusionProof L H} {pre rest : List Bool} {b : Bool} {s : H} (hmem : proof ∈ proofs)
      (hpath : proof.path = pre ++ b :: rest) (hs : proof.siblings[pre.length]? = some s) :
      Shows X root proofs (pre ++ [!b]) s
  | leaf {proof : InclusionProof L H} (hmem : proof ∈ proofs) :
      Shows X root proofs proof.path (leafHash X proof.path proof.value)

/-- **A path is determined** when a subtree shown on the way to it is empty, or is its own leaf. -/
def Determined (X : Hasher L H) (root : H) (proofs : List (InclusionProof L H)) (q : List Bool) : Prop :=
  ∃ pre rest h, q = pre ++ rest ∧ Shows X root proofs pre h ∧ (rest = [] ∨ h = empties X rest.length)

theorem determined_of_mem {proof : InclusionProof L H} (hmem : proof ∈ proofs) :
    Determined X root proofs proof.path :=
  ⟨proof.path, [], _, by simp, .leaf hmem, .inl rfl⟩

variable [DecidableEq H] {f : List Bool → Option L} {nodes : H → Option (H × H)}

/-- The proofs are of the tree, and the nodes are those on their paths. -/
structure RecordedFrom (X : Hasher L H) (f : List Bool → Option L) (depth : Nat)
    (proofs : List (InclusionProof L H)) (nodes : H → Option (H × H)) : Prop where
  sound : NodesSound X nodes
  length : ∀ proof ∈ proofs, proof.path.length = depth
  siblings : ∀ proof ∈ proofs, proof.siblings = siblingsAt X f [] proof.path
  walks : ∀ proof ∈ proofs, WalksBelow X nodes f [] proof.path
  only : ∀ k, (nodes k).isSome = true → ∃ proof ∈ proofs, ∃ p₁ p₂, proof.path = p₁ ++ p₂ ∧
    k = rootAt X f p₁ p₂.length

variable (laws : X.Laws)

include laws

theorem RecordedFrom.walks_of_determined (h : RecordedFrom X f depth proofs nodes)
    (hq : q.length = depth) (hd : Determined X (rootAt X f [] depth) proofs q) :
    WalksBelow X nodes f [] q := by
  obtain ⟨pre, rest, k, rfl, hshows, hrest⟩ := hd
  cases hshows with
  | root =>
    rcases hrest with rfl | hk
    · exact walksBelow_nil
    · rw [List.nil_append] at hq ⊢
      rw [← hq] at hk
      exact ((rootAt_eq_empties_iff laws).mp hk).walksBelow laws h.sound
  | @beside proof pre' rest' b s hmem hpath hs =>
    have hwalk := h.walks proof hmem
    have hlen := h.length proof hmem
    rw [h.siblings proof hmem, hpath, getElem?_siblingsAt, List.nil_append] at hs
    rw [hpath] at hwalk hlen
    have hsame : rest.length = rest'.length := by
      simp only [List.length_append, List.length_cons, List.length_nil] at hq hlen
      omega
    rw [List.append_assoc, List.singleton_append]
    refine hwalk.turn laws h.sound hsame ?_
    rw [List.nil_append]
    rcases hrest with rfl | hk
    · exact walksBelow_nil
    · rw [← Option.some.inj hs, ← hsame] at hk
      exact ((rootAt_eq_empties_iff laws).mp hk).walksBelow laws h.sound
  | @leaf proof hmem =>
    have hlen := h.length proof hmem
    obtain rfl : rest = [] := by
      rw [List.length_append, hlen] at hq
      exact List.eq_nil_of_length_eq_zero (by omega)
    rw [List.append_nil]
    exact h.walks proof hmem

variable (sep : X.Separated)

include sep

/-- A walk along the beginning of a proof's path ends in a determined leaf: it goes on along proofs until it
turns off into an empty subtree or at the last bit. -/
theorem RecordedFrom.determined_of_prefix (h : RecordedFrom X f depth proofs nodes) {pre p : List Bool}
    {proof : InclusionProof L H} (hmem : proof ∈ proofs) (hpre : pre <+: proof.path)
    (hlen : (pre ++ p).length = depth) (hwalk : WalksBelow X nodes f pre p) :
    Determined X root proofs (pre ++ p) := by
  induction p generalizing pre proof with
  | nil =>
    rw [List.append_nil] at hlen ⊢
    rw [hpre.eq_of_length (hlen.trans (h.length proof hmem).symm)]
    exact determined_of_mem hmem
  | cons b p ih =>
    obtain ⟨hrest, -⟩ := (walksBelow_cons laws h.sound).mp hwalk
    have hcons : pre ++ b :: p = (pre ++ [b]) ++ p := by simp
    by_cases hnext : ∃ proof' ∈ proofs, pre ++ [b] <+: proof'.path
    · obtain ⟨proof', hmem', hpre'⟩ := hnext
      rw [hcons] at hlen ⊢
      exact ih hmem' hpre' hlen hrest
    · obtain ⟨suf, hsuf⟩ := hpre
      have hproof := h.length proof hmem
      match suf, hsuf with
      | [], hsuf =>
        rw [← hsuf] at hproof
        simp at hlen hproof
        omega
      | c :: suf, hsuf =>
        have hc : b = !c := by
          refine Bool.eq_not_of_ne fun hbc => hnext ⟨proof, hmem, suf, ?_⟩
          rw [← hsuf, hbc]
          simp
        have hsame : p.length = suf.length := by
          rw [← hsuf] at hproof
          simp only [List.length_append, List.length_cons] at hlen hproof
          omega
        have hs : proof.siblings[pre.length]? = some (rootAt X f (pre ++ [b]) p.length) := by
          rw [h.siblings proof hmem, ← hsuf, getElem?_siblingsAt, List.nil_append, hc, hsame]
        have hshows : Shows X root proofs (pre ++ [b]) (rootAt X f (pre ++ [b]) p.length) := by
          have hbeside : Shows X root proofs (pre ++ [!c]) _ := .beside hmem hsuf.symm hs
          rwa [← hc] at hbeside
        refine ⟨pre ++ [b], p, _, hcons, hshows, ?_⟩
        match p with
        | [] => exact .inl rfl
        | d :: p =>
          -- The subtree is known, and no proof runs through it.
          obtain ⟨-, hempty | hnode⟩ := (walksBelow_cons laws h.sound).mp hrest
          · exact .inr (rootAt_of_empty hempty)
          · obtain ⟨proof', hmem', p₁, p₂, hpath, heq⟩ := h.only _ hnode
            by_cases hempty : EmptyBelow f (pre ++ [b]) (p.length + 1)
            · exact .inr (rootAt_of_empty hempty)
            · obtain ⟨rfl, -⟩ := subtree_eq laws sep hempty heq
              exact absurd ⟨proof', hmem', p₂, hpath.symm⟩ hnext

/-- **A copy built from proofs can walk down exactly the determined paths.** -/
theorem RecordedFrom.walks_iff_determined (h : RecordedFrom X f depth proofs nodes)
    (hq : q.length = depth) :
    WalksBelow X nodes f [] q ↔ Determined X (rootAt X f [] depth) proofs q := by
  refine ⟨fun hwalk => ?_, h.walks_of_determined laws hq⟩
  match q, proofs with
  | [], _ => exact ⟨[], [], _, rfl, .root, .inl rfl⟩
  | b :: q, proof :: rest =>
    exact h.determined_of_prefix laws sep List.mem_cons_self List.nil_prefix hq hwalk
  | b :: q, [] =>
    obtain ⟨-, hempty | hnode⟩ := (walksBelow_cons laws h.sound).mp hwalk
    · rw [← hq]
      exact ⟨[], b :: q, _, rfl, .root, .inr (rootAt_of_empty hempty)⟩
    · obtain ⟨_, hmem, -⟩ := h.only _ hnode
      cases hmem

end Proofs

/-! ## Copies in step with a tree -/

namespace Partial

variable [DecidableEq H] {depth : Nat} {root : H} {proofs : List (InclusionProof L H)}
  {f : List Bool → Option L} {t t' : Partial L H} {p : List Bool} {v : Option L}

/-- **The copy is in step with the tree `f`**: it is a sound copy, has what its proofs cover, and walks down
the paths they determined. -/
structure InStep (X : Hasher L H) (depth : Nat) (root : H) (proofs : List (InclusionProof L H))
    (f : List Bool → Option L) (t : Partial L H) : Prop where
  sound : t.Sound X depth f
  covers : ∀ proof ∈ proofs, proof.path.length = depth ∧ t.Covers X f proof.path
  walks : ∀ p, p.length = depth → (Walks X t.nodes (SparseMerkle.leaves X f) p ↔ Determined X root proofs p)

variable (laws : X.Laws) (sep : X.Separated)

include laws

/-- Recording verified proofs one by one. -/
theorem recordedFrom_foldl (hproofs : ∀ proof ∈ proofs, verifyProof X depth (rootAt X f [] depth) proof = true)
    (ht : t.Sound X depth f) {done : List (InclusionProof L H)} (h : RecordedFrom X f depth done t.nodes) :
    RecordedFrom X f depth (done ++ proofs) (proofs.foldl (recordProof X) t).nodes := by
  induction proofs generalizing t done with
  | nil => rwa [List.append_nil]
  | cons proof proofs ih =>
    obtain ⟨hproof, hrest⟩ := List.forall_mem_cons.mp hproofs
    have hsound := recordProof_sound ht proof
    have hverify := hproof
    simp only [verifyProof, Bool.and_eq_true, decide_eq_true_eq] at hverify
    obtain ⟨⟨hp, hs⟩, hroot⟩ := hverify
    have hsibs : proof.siblings = siblingsAt X f [] proof.path := by
      rw [← hp] at hroot
      exact (climb_eq_rootOf laws (hs.trans hp.symm) hroot).2
    rw [List.foldl_cons, ← List.singleton_append, ← List.append_assoc]
    refine ih hrest hsound ⟨hsound.nodes, ?_, ?_, ?_, fun k hk => ?_⟩
    · exact List.forall_mem_append.mpr ⟨h.length, List.forall_mem_singleton.mpr hp⟩
    · exact List.forall_mem_append.mpr ⟨h.siblings, List.forall_mem_singleton.mpr hsibs⟩
    · refine List.forall_mem_append.mpr ⟨fun other hmem => ?_, List.forall_mem_singleton.mpr ?_⟩
      · exact Walks.mono laws h.sound hsound.nodes (extends_record _ _ _ _) (h.walks other hmem)
      · exact (covers_recordProof laws ht hproof).walk
    · have hleaf : leafHash X proof.path proof.value = SparseMerkle.leaves X f ([] ++ proof.path) := by
        rw [SparseMerkle.leaves, List.nil_append, value_of_verifyProof laws hproof]
      rw [recordProof, hsibs, hleaf] at hk
      rcases record_isSome hk with hold | ⟨p₁, p₂, hpath, -, rfl⟩
      · obtain ⟨other, hmem, hother⟩ := h.only k hold
        exact ⟨other, List.mem_append_left _ hmem, hother⟩
      · exact ⟨proof, List.mem_append_right _ (List.mem_singleton.mpr rfl), p₁, p₂, hpath, rfl⟩

include sep

/-- **A copy built from proofs of a tree is in step with it.** -/
theorem inStep_ofProofs (h : ofProofs X depth (rootAt X f [] depth) proofs = some t) :
    t.InStep X depth (rootAt X f [] depth) proofs f := by
  have hsound : t.Sound X depth f := sound_ofProofs h
  have hcovers : ∀ proof ∈ proofs, t.Covers X f proof.path := fun proof hmem => covers_ofProofs laws h hmem
  rw [ofProofs] at h
  split_ifs at h with hall
  have hverify := List.all_eq_true.mp hall
  obtain rfl := Option.some.inj h
  have hnil : RecordedFrom X f depth [] fun _ => none :=
    ⟨fun _ _ _ h => absurd h (by simp), List.forall_mem_nil _, List.forall_mem_nil _,
      List.forall_mem_nil _, fun _ => Bool.noConfusion⟩
  have hrecorded := recordedFrom_foldl laws hverify (t := ⟨_, fun _ => none, fun _ => none⟩)
    ⟨rfl, fun _ _ _ h => absurd h (by simp), fun _ _ h => absurd h (by simp)⟩ hnil
  rw [List.nil_append] at hrecorded
  exact ⟨hsound, fun proof hmem => ⟨hrecorded.length proof hmem, hcovers proof hmem⟩,
    fun p hp => hrecorded.walks_iff_determined laws sep hp⟩

/-- **It stays in step with every write.** -/
theorem InStep.apply (h : t.InStep X depth root proofs f) (hp : p.length = depth)
    (ht' : t.apply X p v = some t') : t'.InStep X depth root proofs (Function.update f p v) := by
  refine ⟨h.sound.apply laws hp ht', fun proof hmem => ?_, fun q hq => ?_⟩
  · obtain ⟨hlen, hcovers⟩ := h.covers proof hmem
    exact ⟨hlen, hcovers.apply laws h.sound hlen hp ht'⟩
  · simp only [Partial.apply, Option.bind_eq_bind, Option.bind_eq_some_iff, Option.pure_def,
      Option.some.injEq] at ht'
    obtain ⟨⟨sibs, leaf⟩, hwalk, rfl⟩ := ht'
    rw [h.sound.root, ← hp] at hwalk
    obtain ⟨rfl, -⟩ := descend_sound laws h.sound.nodes hwalk
    rw [← h.walks q hq]
    exact walks_update_iff laws sep h.sound.nodes v (hq.trans hp.symm) (Option.isSome_of_mem hwalk)

omit laws sep in
/-- **A write succeeds exactly on determined paths**, and a read on none else. -/
theorem InStep.isSome_apply (h : t.InStep X depth root proofs f) (hp : p.length = depth) (v : Option L) :
    (t.apply X p v).isSome = true ↔ Determined X root proofs p := by
  rw [← h.walks p hp, Walks, hp, Partial.apply, h.sound.root]
  cases descend X t.nodes p (rootOf X depth (SparseMerkle.leaves X f)) <;> simp

omit laws sep in
theorem InStep.determined_of_get (h : t.InStep X depth root proofs f) (hp : p.length = depth)
    (hget : t.get X p = some v) : Determined X root proofs p := by
  rw [← h.walks p hp, Walks, hp, ← h.sound.root]
  simp only [Partial.get, Option.bind_eq_bind, Option.bind_eq_some_iff] at hget
  obtain ⟨walk, hwalk, -⟩ := hget
  exact Option.isSome_of_mem hwalk

end Partial

end SparseMerkle
