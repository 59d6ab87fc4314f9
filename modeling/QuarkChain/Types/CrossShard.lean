/-
# Block headers, root blocks and cross-shard deposits

The data the cross-shard code moves around: `src/core/types/cross_shard_transaction.go`,
`src/core/types/rootblock.go` and `src/core/types/minorblock.go`.  A block's hash is a field of
the model.  Of the headers only the fields the modelled functions read are kept: whether a seal is good is a
parameter of the functions that ask.
-/
import Mathlib.Data.Finmap
import QuarkChain.Config.Cluster

namespace QuarkChain.Types

open Account

abbrev Hash := BitVec 256

instance : LawfulBEq Hash := instLawfulBEq

/-- `account.Recipient`: the twenty bytes of an account. -/
abbrev Recipient := BitVec 160

/-- A native token id (`uint64`). -/
abbrev TokenID := ℕ

/-- A map from token ids to amounts, as block headers carry it. -/
abbrev TokenMap := Finmap fun _ : TokenID => ℕ

/-- The amount a token map holds of one token; absent entries are zero
(`TokenBalances.GetTokenBalance` on a balance without a trie). -/
def TokenMap.amount (m : TokenMap) (tokenID : TokenID) : ℕ := (m.lookup tokenID).getD 0

/-- `account.Address`: a recipient together with its full shard key. -/
structure Address where
  recipient : Recipient
  fullShardKey : ℕ
deriving DecidableEq, Inhabited

/-- `types.CrossShardTransactionDeposit` with the embedded `V0` fields inline. -/
structure CrossShardTransactionDeposit where
  txHash : Hash
  «from» : Address
  «to» : Address
  value : ℕ
  gasPrice : ℕ
  gasTokenID : TokenID
  transferTokenID : TokenID
  isFromRootChain : Bool
  gasRemained : ℕ
  messageData : List UInt8 := []
  createContract : Bool := false
  refundRate : ℕ
deriving DecidableEq

/-- `types.XShardTxCursorInfo`: the cursor as a minor block stores it. -/
structure XShardTxCursorInfo where
  rootBlockHeight : ℕ
  minorBlockIndex : ℕ
  xShardDepositIndex : ℕ
deriving DecidableEq, Inhabited

/-- The cursor `(x, 0, 0)`: everything up to root height `x` (exclusive) has been delivered. -/
def XShardTxCursorInfo.isEOF (c : XShardTxCursorInfo) : Bool :=
  c.minorBlockIndex == 0 && c.xShardDepositIndex == 0

/-- `types.MinorBlockHeader`, as a root block lists it. -/
structure MinorBlockHeader where
  hash : Hash
  parentHash : Hash
  number : ℕ
  branch : Branch
  prevRootBlockHash : Hash
  time : ℕ := 0
  coinbase : Address := ⟨0, 0⟩
deriving DecidableEq

structure RootBlock where
  hash : Hash
  parentHash : Hash
  version : ℕ := 0
  number : ℕ
  coinbase : Address
  coinbaseAmount : TokenMap
  minorBlockHeaders : List MinorBlockHeader
  minorHeaderHash : Hash := 0
  root : Hash := 0
  time : ℕ := 0
  difficulty : ℕ := 0
  totalDifficulty : ℕ := 0
  extra : List UInt8 := []
  trackingData : List UInt8 := []
deriving DecidableEq

end QuarkChain.Types
