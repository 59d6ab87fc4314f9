/-
# Transactions, messages and blocks

The data of transaction processing: `transaction.go`, `receipt.go` and `minorblock.go` of `src/core/types`, and
the errors of `src/core/error.go` with those that `state_transition.go` and `state_processor.go` make
themselves.

The hash of a block or a transaction is a field of it.  The sender of a transaction is what its
signature recovers to under the signer of a network; how it does so is left open (`sender`).  Gas is a
`uint64`, and where the source counts on wrap-around the operation says so (`add64`, `sub64`).
-/
import QuarkChain.Vm.Types

namespace QuarkChain.Core

open Account Config QuarkChain.Types State

def add64 (a b : ℕ) : ℕ := (a + b) % 2 ^ 64

def sub64 (a b : ℕ) : ℕ := (a + (2 ^ 64 - b % 2 ^ 64)) % 2 ^ 64

theorem add64_eq {a b : ℕ} (h : a + b < 2 ^ 64) : add64 a b = a + b := Nat.mod_eq_of_lt h

theorem sub64_eq {a b : ℕ} (h : b ≤ a) (ha : a < 2 ^ 64) : sub64 a b = a - b := by
  unfold sub64
  omega

/-- `params.GtxxShardCost`: the gas of a cross-shard deposit. -/
def gtxxShardCost : ℕ := 9000

/-- The configuration that transaction processing reads. -/
structure ChainConfig where
  quarkchain : QuarkChainConfig
  networkID : ℕ
  ethChainID : ℕ
  enableEvmTimeStamp : ℕ
  enableEIP155SignerTimestamp : ℕ
  /-- `LocalFeeRate`, a fraction. -/
  localFeeRateNum : ℕ
  localFeeRateDenom : ℕ
  minMiningGasPrice : ℕ

/-- `BigIntMulBigRat(fee, LocalFeeRate)`. -/
def ChainConfig.localFee (cfg : ChainConfig) (fee : ℕ) : ℕ :=
  fee * cfg.localFeeRateNum / cfg.localFeeRateDenom

def ChainConfig.defaultChainTokenID (cfg : ChainConfig) : TokenID :=
  cfg.quarkchain.defaultChainTokenID

/-- `types.EvmTransaction`.  The two shard sizes are not part of the transaction: `validateTx` fills them
in. -/
structure EvmTransaction where
  hash : Hash
  nonce : ℕ
  gasPrice : ℕ
  gas : UInt64
  «to» : Option Recipient
  value : ℕ
  data : List UInt8
  networkId : ℕ
  fromFullShardKey : ℕ
  toFullShardKey : ℕ
  gasTokenID : TokenID
  transferTokenID : TokenID
  version : ℕ
  /-- The `v` of the signature. -/
  v : ℤ
  /-- `Sender(MakeSigner(networkId), tx)`. -/
  sender : ℕ → Option Recipient
  fromShardSize : ℕ := 0
  toShardSize : ℕ := 0
  /-- A transaction is serialised with a length of four bytes. -/
  data_length : data.length < 2 ^ 32

theorem nil_length_lt : ([] : List UInt8).length < 2 ^ 32 := by decide

instance : Inhabited EvmTransaction :=
  ⟨⟨0, 0, 0, 0, none, 0, [], 0, 0, 0, 0, 0, 0, 0, fun _ => none, 0, 0, nil_length_lt⟩⟩

namespace EvmTransaction

variable (tx : EvmTransaction)

def fromChainID : ℕ := tx.fromFullShardKey >>> 16
def toChainID : ℕ := tx.toFullShardKey >>> 16
def fromShardID : ℕ := tx.fromFullShardKey &&& predU32 tx.fromShardSize
def toShardID : ℕ := tx.toFullShardKey &&& predU32 tx.toShardSize
def fromShardKey : ℕ := tx.fromFullShardKey &&& 65535
def toShardKey : ℕ := tx.toFullShardKey &&& 65535

def fromFullShardId : ℕ := tx.fromChainID <<< 16 ||| tx.fromShardSize ||| tx.fromShardID

def toFullShardId : ℕ := tx.toChainID <<< 16 ||| tx.toShardSize ||| tx.toShardID

def isCrossShard : Bool := !(tx.fromChainID == tx.toChainID && tx.fromShardID == tx.toShardID)

end EvmTransaction

structure Message where
  «from» : Recipient
  «to» : Option Recipient
  nonce : ℕ
  value : ℕ
  gas : UInt64
  gasPrice : ℕ
  data : List UInt8
  checkNonce : Bool
  fromFullShardKey : ℕ
  toFullShardKey : Option ℕ
  txHash : Hash
  isCrossShard : Bool
  transferTokenID : TokenID
  gasTokenID : TokenID
  refundRate : ℕ

/-- Errors that make a transaction invalid. -/
inductive CoreError
  | nonceTooHigh
  | nonceTooLow
  | insufficientBalanceForGas
  | gasLimitReached
  | outOfGas
  | insufficientBalance
  | convertedGasPriceNotPositive
  | contractBalanceTooSmall
  | invalidSignature
  | noSuchChainID
  | shardSizeNotUsable
  | version2Rejected
  | networkID
  | branch
  | shardNotInitialized
  | notNeighbor
  | xShardGasLimitExceeded
  | evmNotEnabled
  | uint128Max
  | intrinsicGas
  | zeroBalance
  | insufficientBalanceForCost
  | contractNotFound
  | conversionFailed (err : Vm.VmError)
  | gasTokenNotReady
  | conversionReserveTooSmall
  | gasLimitTooLow
deriving DecidableEq

structure Receipt where
  failed : Bool
  cumulativeGasUsed : ℕ
  txHash : Hash
  gasUsed : ℕ
  contractAddress : Option Recipient
  contractFullShardKey : ℕ
  logs : List Log
deriving DecidableEq

/-- What the encoding of a receipt (`EncodeRLP`) holds: of a log neither position nor hashes. -/
structure ReceiptEncoding where
  failed : Bool
  cumulativeGasUsed : ℕ
  logs : List (Recipient × List Hash × List UInt8)
  contractAddress : Option Recipient
  contractFullShardKey : ℕ
deriving DecidableEq

def Receipt.encode (r : Receipt) : ReceiptEncoding where
  failed := r.failed
  cumulativeGasUsed := r.cumulativeGasUsed
  logs := r.logs.map fun l => (l.address, l.topics, l.data)
  contractAddress := r.contractAddress
  contractFullShardKey := r.contractFullShardKey

/-- `types.MinorBlock`: the fields of its header and meta data that processing reads or checks. -/
structure MinorBlock where
  hash : Hash
  parentHash : Hash
  number : ℕ
  time : ℕ
  branch : Branch
  coinbase : Address
  prevRootBlockHash : Hash
  gasLimit : ℕ
  xShardGasLimit : ℕ
  transactions : List EvmTransaction
  gasUsed : ℕ
  bloom : BitVec (8 * 256)
  receiptHash : Hash
  coinbaseAmount : TokenMap
  crossShardGasUsed : ℕ
  root : Hash
  xShardTxCursorInfo : XShardTxCursorInfo
deriving Inhabited

end QuarkChain.Core
