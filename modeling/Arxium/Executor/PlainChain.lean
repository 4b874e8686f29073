import Arxium.Executor.Accept
import Arxium.Runtime.Plain

/-!
# Executor/PlainChain — a chain small enough to run

One validator, no fees, and the libraries of `Runtime/Plain`: on it whole blocks are accepted by
evaluation.  A block is named by its height alone, the empty tree has the only root there is, and every
signature verifies.
-/

namespace Arxium

namespace PlainChain

open Writes

/-- Blocks are encoded as their height. -/
@[reducible] def wire : Wire ActionPayload :=
  { Plain.wire with block := fun b => [UInt8.ofNat b.height] }

@[reducible] def crypto : Crypto := Plain.crypto fun _ _ _ => true

/-- Accounts are told apart by the length of their text; nothing is at the empty path, so the root of
depth zero stays what it is. -/
@[reducible] def trie : StateTrie :=
  { Plain.trie with
    keyPath := fun
      | .account a => List.replicate a.text.length true
      | _ => [false] }

/-- The address of a key. -/
def address (key : UInt8) : Address := ⟨Plain.bech32Encode "arx" (List.replicate 32 key)⟩

def signature : String := String.ofList (List.replicate 128 'a')

/-- A signed action of a key. -/
def action (key : UInt8) (nonce : Nat) (payload : ActionPayload) : ChainAction :=
  ⟨address key, nonce, some signature, payload⟩

/-- The proposer of every block. -/
def proposer : Address := address 7

def genesisBlock : ChainBlock := { Block.genesis 0 with stateRoot := "0x" }

/-- Nothing costs anything. -/
def params : ChainParams := { actionFee := 0, weightFee := 0 }

/-- A database with a genesis block, the one validator, and more rows on top. -/
def db (more : List RowWrite) : Db where
  state :=
    { rows := Writes.apply ([put .genesisHash "0x", put .chainParams params,
        put (.validatorSet 0) ((∅ : ValidatorSet).insert proposer 10000)] ++ more) fun _ => none
      trie := fun _ => none
      blocks := fun h => if h = 0 then some genesisBlock else none
      tip := some 0
      blsHistory := fun _ => none
      weights := fun _ => none }
  undo := fun _ => none
  finality := fun _ => none
  locks := fun _ => none
  certificates := []
  watermark := 0

def env : NodeEnv := ⟨1000, fun _ _ => []⟩

attribute [local instance] crypto wire Plain.zk Plain.trie Plain.decoders

/-- The next block. -/
def block (height : Nat) (actions : List ChainAction) : ChainBlock where
  height := height
  parentHash := hashText [UInt8.ofNat (height - 1)]
  timestamp := height
  actions := actions
  txRoot := Arxium.txRoot actions
  proposer := some proposer
  signature := some signature
  parentStateRoot := "0x"
  stateRoot := "0x"
  round := 0
  roundCertificate := none
  buildId := ""

end PlainChain

end Arxium
