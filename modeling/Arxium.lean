import Arxium.Lib.ReadProg
import Arxium.Lib.Writes
import Arxium.Primitives.Crypto
import Arxium.Primitives.State
import Arxium.Primitives.Validators
import Arxium.Primitives.Block
import Arxium.Storage.Keys
import Arxium.Storage.Updates
import Arxium.Circuits.Account
import Arxium.Circuits.Staking
import Arxium.Circuits.Identity
import Arxium.Circuits.Rwa
import Arxium.Circuits.CorporateActions
import Arxium.Circuits.Governance
import Arxium.Evidence.Artifact
import Arxium.Runtime.Staking
import Arxium.Runtime.Assets
import Arxium.Runtime.Consensus
import Arxium.Runtime.Epoch
import Arxium.Runtime.Dispatch
import Arxium.Executor.Execute
import Arxium.Runtime.Adjudicate
import Arxium.Runtime.Footprint
import Arxium.Evidence.Soundness
import Arxium.Finality.Engine
import Arxium.Lib.LockedVotes
import Arxium.Finality.Agreement
import Arxium.Finality.Protection
import Arxium.Finality.ExecutionProof
import Arxium.Finality.Certificates
import Arxium.Lib.UndoLog
import Arxium.Storage.Db
import Arxium.Executor.Accept
import Arxium.Executor.Order
import Arxium.Node.Produce
import Arxium.Node.Run
import Arxium.Node.Rounds
import Arxium.Node.Agreement
import Arxium.Node.SignedHeight
import Arxium.Evidence.Disputes
import Arxium.Node.Committed
import Arxium.Evidence.OneOutcome
import Arxium.Node.Addresses
import Arxium.Executor.Identity
import Arxium.Runtime.Witness
import Arxium.Lib.ShortcutTrie
import Arxium.Storage.Nodes
import Arxium.Node.Epochs
import Arxium.Lib.ProvenPaths
import Arxium.Runtime.Multisig
import Arxium.Lib.Tally
import Arxium.Runtime.Books
import Arxium.Storage.ProofBacked
import Arxium.Runtime.AssetEffect
import Arxium.Node.Applied
import Arxium.Node.Supply
import Arxium.Node.Compliance
import Arxium.Runtime.Accounts
import Arxium.Runtime.Vaults
import Arxium.Runtime.VaultEffect
import Arxium.Node.Stages
import Arxium.Genesis.Snapshot
import Arxium.Node.Stake
import Arxium.Lib.Apportion
import Arxium.Primitives.Power
import Arxium.Node.SetInForce
import Arxium.Node.Revert
import Arxium.Node.Reject
import Arxium.Finality.Timeouts
import Arxium.Network.Recovery
import Arxium.Node.Locks
import Arxium.Lib.Refusals
import Arxium.Lib.Listing
import Arxium.Node.Eligibility
import Arxium.Node.AssetIndex
import Arxium.Node.CapTable
import Arxium.Lib.Moves
import Arxium.Node.Payouts
import Arxium.Node.Veto
import Arxium.Lib.Latest
import Arxium.Node.ClaimProofs
import Arxium.Lib.HashTree
import Arxium.Runtime.TxRoot
import Arxium.Mempool.Queue
import Arxium.Node.Operators
import Arxium.Circuits.AttestedTree
import Arxium.Node.Linked
