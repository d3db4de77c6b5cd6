import Hemvm.Control.Except
import Hemvm.Codec.Bytes
import Hemvm.Codec.Rlp
import Hemvm.Types
import Hemvm.Crypto
import Hemvm.Primitives.Transaction
import Hemvm.Aptos.RawTransaction
import Hemvm.Aptos.Authenticator
import Hemvm.Aptos.SignedTransaction
import Hemvm.Codec.HeadTail
import Hemvm.SolidityAbi.Codec
import Hemvm.SolidityAbi.RoundTrip
import Hemvm.Codec.Bcs
import Hemvm.Store.Overlay
import Hemvm.Aptos.StateStore
import Hemvm.EthereumVm.StorageKey
import Hemvm.EthereumVm.State
import Hemvm.EthereumVm.Events
import Hemvm.BlockExecutor.EthTransaction
import Hemvm.Store.Journal
import Hemvm.CfxEvm.State
import Hemvm.CfxEvm.Checkpoint
import Hemvm.CrossSpace.Value
import Hemvm.Consensus.SafetyRules
import Hemvm.Control.StateExcept
import Hemvm.Control.Trace
import Hemvm.Consensus.Voting
import Hemvm.Consensus.Safety
import Hemvm.Consensus.NoEquivocation
import Hemvm.Bits.Word
import Hemvm.Merkle.Perfect
import Hemvm.Accumulator.Position
import Hemvm.Accumulator.InMemory
import Hemvm.Accumulator.Storage
import Hemvm.Arith.Excursion
import Hemvm.Aggregator.Delta
import Hemvm.MvHashMap.Read
import Hemvm.Jellyfish.NibbleRange
import Hemvm.Merkle.Postorder
import Hemvm.Accumulator.Postorder
import Hemvm.Codec.Lex
import Hemvm.Jellyfish.NibblePath
import Hemvm.Jellyfish.NodeKey
import Hemvm.Jellyfish.Node
import Hemvm.Merkle.Sparse
import Hemvm.Jellyfish.NodeHash
import Hemvm.Jellyfish.SparseProof
import Hemvm.Jellyfish.Tree
import Hemvm.Jellyfish.Build
