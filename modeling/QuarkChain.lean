import QuarkChain.XShard.Traversal
import QuarkChain.Master.Handle
import QuarkChain.Vm.Conservation
import QuarkChain.Core.Replay
import QuarkChain.Core.Filter
import QuarkChain.Root.Index
import QuarkChain.Minor.TxIndexed
import QuarkChain.Minor.Check
import QuarkChain.State.Reads
import QuarkChain.State.PlainBalances
import QuarkChain.Core.Destination
import QuarkChain.P2p.MinedHeaders
import QuarkChain.Types.MerkleRoot
import QuarkChain.Posw.Seal
import QuarkChain.Qkchash.Cache
import QuarkChain.Pool.AddTxs
import QuarkChain.Pool.Filter
import QuarkChain.Qkchash.Llrb
import QuarkChain.Tx.Caches
import QuarkChain.Types.TokenCodec
import QuarkChain.Config.Partition
import QuarkChain.Serialize.Hostile
import QuarkChain.Minor.Survival
import QuarkChain.P2p.DepositBytes
import QuarkChain.Core.Routing
import QuarkChain.Core.RootTip
import QuarkChain.State.Afterwards
