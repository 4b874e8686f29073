import Arxium.Lib.HashTree
import Arxium.Executor.PlainChain

/-!
# Runtime/TxRoot — the root stands for the action list

`txRoot` hashes the actions and then, level by level, neighbouring hashes; an odd last hash goes up as it
is.  Leaves and nodes are hashed under different first bytes, so a tree can be read back from its root,
and with it the list: no two lists have one root, of whatever lengths, unless two of the inputs that are
hashed for them collide or one of them hashes to the root of the empty list.
-/

namespace Arxium

open Crypto HashTree

section TxRoot

variable [Crypto] {P : Type} [Wire P]

/-! ## The inputs -/

/-- What is hashed for the root of a list: the actions, and the pairs of hashes on every level. -/
def txInputs (actions : List (Action P)) : List Bytes :=
  actions.map (fun a => 0 :: Wire.action a) ++
    (joined nodeHash actions.length (actions.map actionHash)).map fun p => 1 :: (p.1 ++ p.2)

/-- **No collision among some inputs**: SHA-256 tells them apart, and none of them hashes to zeros. -/
structure CollisionFree (inputs : List Bytes) : Prop where
  distinct : ∀ x ∈ inputs, ∀ y ∈ inputs, sha256 x = sha256 y → x = y
  nonzero : ∀ x ∈ inputs, sha256 x ≠ List.replicate 32 0

/-! ## The tree behind the root -/

omit [Wire P] in
theorem hashPairs_eq (l : List Bytes) : hashPairs l = pairUp nodeHash l := by
  induction l using List.twoStepInduction with
  | nil | singleton => rfl
  | cons_cons a b rest ih => rw [hashPairs, pairUp, ih]

theorem reduceLevels_eq (n : Nat) (l : List Bytes) :
    reduceLevels n l = climb nodeHash (List.replicate 32 0) n l := by
  induction n generalizing l with
  | zero =>
    match l with
    | [] | [_] | _ :: _ :: _ => rfl
  | succ n ih =>
    match l with
    | [] | [_] => rfl
    | a :: b :: rest =>
      rw [reduceLevels, climb, ih, hashPairs_eq]
      all_goals simp

/-- The tree over an action and the ones after it. -/
def txTree (a : Action P) (rest : List (Action P)) : LeafTree (Action P) :=
  climb .node (.leaf a) (a :: rest).length ((a :: rest).map .leaf)

variable {a a' : Action P} {rest rest' : List (Action P)}

theorem fold_txTree : (txTree a rest).fold actionHash nodeHash = txRoot (a :: rest) := by
  have hclimb := map_climb (LeafTree.fold actionHash nodeHash) .node nodeHash (fun _ _ => rfl)
    (.leaf a) (List.replicate 32 0) (a :: rest).length
    (l := (a :: rest).map .leaf) (List.cons_ne_nil _ _)
  rw [List.map_map] at hclimb
  rw [txRoot, reduceLevels_eq]
  exact hclimb

omit [Crypto] [Wire P] in
theorem leaves_txTree : (txTree a rest).leaves = a :: rest := by
  have hleaves : (txTree a rest).leaves = ((a :: rest).map LeafTree.leaf).flatMap LeafTree.leaves :=
    leaves_climb (List.cons_ne_nil _ _) (by simp)
  rw [hleaves, List.flatMap_map]
  exact List.flatMap_singleton' _

theorem leafInput_mem {b : Action P} (h : .leaf b ∈ (txTree a rest).subtrees) :
    0 :: Wire.action b ∈ txInputs (a :: rest) := by
  have hmem := LeafTree.leaf_mem_subtrees h
  rw [leaves_txTree] at hmem
  exact List.mem_append_left _ (List.mem_map_of_mem hmem)

theorem nodeInput_mem {l r : LeafTree (Action P)} (h : .node l r ∈ (txTree a rest).subtrees) :
    1 :: (l.fold actionHash nodeHash ++ r.fold actionHash nodeHash) ∈ txInputs (a :: rest) := by
  obtain hjoined | ⟨t, ht, hmem⟩ := node_mem_climb (by simp) h
  · have himage := List.mem_map_of_mem (f := Prod.map (LeafTree.fold actionHash nodeHash)
      (LeafTree.fold actionHash nodeHash)) hjoined
    rw [map_joined (LeafTree.fold actionHash nodeHash) .node nodeHash (fun _ _ => rfl), List.map_map] at himage
    exact List.mem_append_right _ (List.mem_map_of_mem himage)
  · -- The trees it began with were leaves.
    obtain ⟨b, -, rfl⟩ := List.mem_map.mp ht
    simp [LeafTree.subtrees] at hmem

/-- The root of a list that is not empty is a hash of one of its inputs. -/
theorem txRoot_cons (a : Action P) (rest : List (Action P)) :
    ∃ x ∈ txInputs (a :: rest), txRoot (a :: rest) = sha256 x := by
  rw [← fold_txTree]
  have hself := (txTree a rest).self_mem_subtrees
  cases ht : txTree a rest with
  | leaf b => exact ⟨_, leafInput_mem (ht ▸ hself), rfl⟩
  | node l r => exact ⟨_, nodeInput_mem (ht ▸ hself), rfl⟩

/-! ## Reading it back -/

/-- Every hash in a tree is a digest. -/
theorem length_fold (hlength : ∀ x, (sha256 x).length = 32) (t : LeafTree (Action P)) :
    (t.fold actionHash nodeHash).length = 32 := by
  cases t with
  | leaf b => exact hlength _
  | node l r => exact hlength _

/-- Two subtrees of one hash were hashed from one input. -/
theorem alike_of_collisionFree (hlength : ∀ x, (sha256 x).length = 32)
    (haction : Function.Injective (Wire.action : Action P → Bytes))
    (hfree : CollisionFree (txInputs (a :: rest) ++ txInputs (a' :: rest')))
    {u u' : LeafTree (Action P)} (hu : u ∈ (txTree a rest).subtrees)
    (hu' : u' ∈ (txTree a' rest').subtrees)
    (h : u.fold actionHash nodeHash = u'.fold actionHash nodeHash) : u.Alike actionHash nodeHash u' := by
  have hsame {x y : Bytes} (hx : x ∈ txInputs (a :: rest)) (hy : y ∈ txInputs (a' :: rest'))
      (hxy : sha256 x = sha256 y) : x = y :=
    hfree.distinct x (List.mem_append_left _ hx) y (List.mem_append_right _ hy) hxy
  cases u with
  | leaf b =>
    cases u' with
    | leaf b' => exact haction (List.cons.inj (hsame (leafInput_mem hu) (leafInput_mem hu') h)).2
    | node l' r' => exact absurd (hsame (leafInput_mem hu) (nodeInput_mem hu') h) (by simp)
  | node l r =>
    cases u' with
    | leaf b' => exact absurd (hsame (nodeInput_mem hu) (leafInput_mem hu') h) (by simp)
    | node l' r' =>
      have hinput := (List.cons.inj (hsame (nodeInput_mem hu) (nodeInput_mem hu') h)).2
      exact List.append_inj hinput ((length_fold hlength l).trans (length_fold hlength l').symm)

/-- **The root stands for the list.**  Where SHA-256 returns 32 bytes and no two of the inputs hashed for
two action lists collide, none hashing to zeros, and actions encode injectively, the two lists have one
root only if they are one list: the same actions with the same signatures in the same order. -/
theorem txRoot_eq_iff (hlength : ∀ x : Bytes, (sha256 x).length = 32)
    (haction : Function.Injective (Wire.action : Action P → Bytes)) {actions actions' : List (Action P)}
    (hfree : CollisionFree (txInputs actions ++ txInputs actions')) :
    txRoot actions = txRoot actions' ↔ actions = actions' := by
  refine ⟨fun h => ?_, fun h => by rw [h]⟩
  match actions, actions' with
  | [], [] => rfl
  | [], a' :: rest' =>
    obtain ⟨x, hx, hroot⟩ := txRoot_cons a' rest'
    exact absurd (hroot.symm.trans h.symm) (hfree.nonzero x (List.mem_append_right _ hx))
  | a :: rest, [] =>
    obtain ⟨x, hx, hroot⟩ := txRoot_cons a rest
    exact absurd (hroot.symm.trans h) (hfree.nonzero x (List.mem_append_left _ hx))
  | a :: rest, a' :: rest' =>
    rw [← fold_txTree, ← fold_txTree] at h
    have htree : txTree a rest = txTree a' rest' :=
      LeafTree.fold_inj (fun u hu u' hu' => alike_of_collisionFree hlength haction hfree hu hu') h
    rw [← leaves_txTree (a := a), htree, leaves_txTree]

end TxRoot

/-! ## Two short lists -/

namespace PaddedHash

/-- A digest of 32 bytes: the length of the input and as much of it as fits. -/
@[reducible] def crypto : Crypto :=
  { PlainChain.crypto with
    sha256 := fun b => UInt8.ofNat (b.length + 1) :: (b ++ List.replicate 31 0).take 31 }

theorem length_sha256 (b : Bytes) : (crypto.sha256 b).length = 32 := by
  change (_ :: (b ++ List.replicate 31 0).take 31).length = 32
  simp

def encode (a : Action Unit) : Bytes :=
  Plain.frameText a.sender.text ++ (Plain.frameNat a.nonce ++
    a.signature.elim [0] fun text => 1 :: (Plain.frameText text ++ []))

theorem encode_injective : Function.Injective encode := by
  intro a b h
  obtain ⟨hsender, h⟩ := Plain.frameText_append_inj h
  obtain ⟨hnonce, h⟩ := Plain.frameNat_append_inj h
  have hsignature : a.signature = b.signature := by
    cases ha : a.signature <;> cases hb : b.signature <;> rw [ha, hb] at h
    · cases h
    · cases h
    · exact congrArg some (Plain.frameText_append_inj (List.cons.inj h).2).1
  cases a
  cases b
  simp_all [Address.ext_iff]

/-- Payloads without content. -/
@[reducible] def wire : Wire Unit where
  block := fun _ => []
  blockSigning := fun _ => []
  action := encode
  actionSigning := fun _ => []
  payload := fun _ => []

attribute [local instance] crypto wire

def first : Action Unit := ⟨⟨"a"⟩, 0, none, ()⟩

def second : Action Unit := ⟨⟨"b"⟩, 0, some "s", ()⟩

set_option maxRecDepth 20000 in
/-- A list and its first action have different roots. -/
theorem txRoot_eq_iff_short :
    txRoot [first] = txRoot [first, second] ↔ [first] = [first, second] := by
  refine txRoot_eq_iff length_sha256 encode_injective ⟨?_, ?_⟩ <;> decide +kernel

end PaddedHash

end Arxium
