import Blockz.Framework.Effect
import Blockz.Framework.History
import Blockz.Framework.Ledger
import Blockz.Core.VMFrame
import Blockz.Core.Blockchain
import Blockz.Consensus.PoW
import Blockz.Consensus.PoS
import Blockz.Consensus.Equivocation
import Blockz.Crypto.Instance
import Blockz.Chain.Step
import Blockz.Chain.Execution
import Blockz.Chain.Atomicity
import Blockz.Chain.Coherence
import Blockz.Chain.Supply
import Blockz.Chain.Authenticity
import Blockz.Chain.Replay
import Blockz.Chain.ProofOfWork
import Blockz.Chain.Restart
import Blockz.Chain.Engines
import Blockz.Chain.Slashing
import Blockz.Chain.Poisoning
import Blockz.Core.StateRoot
import Blockz.Core.StateHistory
import Blockz.Chain.Production
import Blockz.Chain.Commitment
import Blockz.Chain.Processes
import Blockz.Network.Transport
import Blockz.Chain.Fuel
import Blockz.Chain.Simulation
import Blockz.Network.Server
import Blockz.Network.Sync
import Blockz.Core.VMTrace
import Blockz.Chain.Commuting
import Blockz.Core.LevelDBStore
import Blockz.Network.TxPool
import Blockz.Network.Node
import Blockz.Network.Malformed
import Blockz.Chain.Proposal
import Blockz.Network.Running
import Blockz.Network.Proposing
import Blockz.Network.Pending
import Blockz.Network.Interleaving
import Blockz.Chain.Mining
import Blockz.Core.VMMemory
import Blockz.Core.VMInstruction
import Blockz.Core.VMSafety
import Blockz.Core.VMGas
import Blockz.Core.VMJumps
import Blockz.Core.VMWords
import Blockz.Core.VMStorage
import Blockz.Chain.ContractStorage
import Blockz.Core.VMOffsets
import Blockz.Network.PoolHistory
import Blockz.Network.PoolRaces
import Blockz.Consensus.Turns
import Blockz.Core.DataHash
import Blockz.Network.Identity
import Blockz.Api.RPC
import Blockz.Api.BlockByNumber
import Blockz.Api.RawTransaction
import Blockz.Network.Batches
import Blockz.Network.SortedMap
import Blockz.Core.VMByteArray
import Blockz.Framework.Swarm
import Blockz.Framework.Upholds
import Blockz.Network.Agreement
import Blockz.Network.Provenance
import Blockz.Network.Replication
import Blockz.Chain.Crashes
import Blockz.Framework.Slices
import Blockz.Network.PoolSlices
import Blockz.Network.Deadlock
import Blockz.Network.Gossip
import Blockz.Network.CatchUp
import Blockz.Chain.Tame
import Blockz.Core.VMLogic
import Blockz.Main.Generator
import Blockz.Network.Unblocked
import Blockz.Network.Repeats
