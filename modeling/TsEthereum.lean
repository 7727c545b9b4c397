import TsEthereum.Common.Bytes
import TsEthereum.Common.Except
import TsEthereum.Rlp.Model
import TsEthereum.Rlp.Canonicity
import TsEthereum.Common.LruCache
import TsEthereum.Common.MapStack
import TsEthereum.Common.Runs
import TsEthereum.Db.Cache
import TsEthereum.Common.RadixTree.Basic
import TsEthereum.Common.RadixTree.Canonical
import TsEthereum.Common.RadixTree.Subtrees
import TsEthereum.Mpt.Bindings
import TsEthereum.Mpt.Root
import TsEthereum.Proof.ZeroElements
import TsEthereum.Blockchain.HeadBlock
import TsEthereum.Blockchain.Difficulty
import TsEthereum.Blockchain.Atomic
import TsEthereum.Blockchain.Iterator
import TsEthereum.Consensus.Restart
import TsEthereum.Evm.Journal
import TsEthereum.Evm.Interpreter
import TsEthereum.State.Forget
import TsEthereum.State.Storage
import TsEthereum.Evm.Hardfork
import TsEthereum.Evm.Sstore
import TsEthereum.Evm.Metering
import TsEthereum.Common.Potential
import TsEthereum.Evm.Refunds
import TsEthereum.Evm.GasBound
import TsEthereum.Evm.RunCall
import TsEthereum.State.Manager
import TsEthereum.State.Transparent
import TsEthereum.TxPool.Contiguous
import TsEthereum.TxPool.FailedAdd
import TsEthereum.TxPool.Interleaved
import TsEthereum.Miner.Ordering
import TsEthereum.Tx.Canonicity
import TsEthereum.Tx.Malleability
import TsEthereum.Execution.CatchUp
import TsEthereum.Skeleton.Restart
import TsEthereum.Skeleton.Consistent
import TsEthereum.Skeleton.Filled
import TsEthereum.Tx.Preimages
import TsEthereum.ChainConfig.Eip2124
import TsEthereum.Block.BlobTransactions
import TsEthereum.Miner.Agreement
import TsEthereum.Block.RoundTrip
import TsEthereum.Vm.History
import TsEthereum.Kademlia.Eviction
import TsEthereum.Kademlia.Ip
import TsEthereum.Kademlia.Message
import TsEthereum.Kademlia.Closest
import TsEthereum.Rlpx.Encrypter
import TsEthereum.Evm.Transient
import TsEthereum.Evm.Memory
import TsEthereum.Blockchain.GetBlocks
import TsEthereum.Proof.Complete
import TsEthereum.Mpt.Paging
import TsEthereum.Engine.Vouched
import TsEthereum.Eof.Sound
import TsEthereum.Block.FeeMarket
import TsEthereum.Evm.CreateRevert
import TsEthereum.Evm.Arithmetic
import TsEthereum.Execution.Logs
import TsEthereum.Block.Uncles
import TsEthereum.Engine.PayloadIds
import TsEthereum.TxPool.Selection
import TsEthereum.TxPool.Limits
import TsEthereum.Execution.TxIndex
import TsEthereum.Fetcher.ByteCodes
import TsEthereum.Fetcher.BlockRequest
import TsEthereum.ChainConfig.Lookups
import TsEthereum.ChainConfig.GethGenesis
import TsEthereum.Rlpx.Capabilities
import TsEthereum.Evm.Modexp
import TsEthereum.Fetcher.Complete
import TsEthereum.Mpt.WalkController
import TsEthereum.Mpt.Lock
import TsEthereum.Evm.MemoryStore
import TsEthereum.Evm.ArrayStack
import TsEthereum.Vm.Bloom
