/-
# Messages between clusters

`src/p2p/p2p_commands.go` and `src/p2p/decode.go`: the operation codes, the frame around a payload, and
the payloads that the master decodes itself.  Payloads about minor blocks are passed on to the slaves as bytes.

`P2PCommandOp.String` asks for the name of the type that a table has for the operation.  For a code without
an entry that is a nil interface; the branch that was to return the number of the code has no `return`, and
asking the nil type for its name is a panic.
-/
import QuarkChain.Serialize.Deserializer

namespace QuarkChain.P2p

open Serialize Account
open QuarkChain.Types (Hash Address TokenMap)

/-- The constants of `P2PCommandOp` below `MaxOPNum`, in their order. -/
inductive P2PCommandOp
  | hello
  | newTipMsg
  | newTransactionListMsg
  | getPeerListRequestMsg
  | getPeerListResponseMsg
  | getRootBlockHeaderListRequestMsg
  | getRootBlockHeaderListResponseMsg
  | getRootBlockListRequestMsg
  | getRootBlockListResponseMsg
  | getMinorBlockListRequestMsg
  | getMinorBlockListResponseMsg
  | getMinorBlockHeaderListRequestMsg
  | getMinorBlockHeaderListResponseMsg
  | newBlockMinorMsg
  | ping
  | pong
  | getRootBlockHeaderListWithSkipRequestMsg
  | getRootBlockHeaderListWithSkipResponseMsg
  | newRootBlockMsg
  | getMinorBlockHeaderListWithSkipRequestMsg
  | getMinorBlockHeaderListWithSkipResponseMsg
deriving DecidableEq

open P2PCommandOp

/-- `OPSerializerMap`: the operations with the names of the types of their entries. -/
def opSerializerMap : List (P2PCommandOp × String) :=
  [(hello, "HelloCmd"),
    (newTipMsg, "Tip"),
    (newTransactionListMsg, "NewTransactionList"),
    (getPeerListRequestMsg, "GetPeerListRequest"),
    (getPeerListResponseMsg, "GetPeerListResponse"),
    (getRootBlockHeaderListRequestMsg, "GetRootBlockHeaderListRequest"),
    (getRootBlockHeaderListResponseMsg, "GetRootBlockHeaderListResponse"),
    (getRootBlockListRequestMsg, "GetRootBlockListRequest"),
    (getRootBlockListResponseMsg, "GetRootBlockListResponse"),
    (getMinorBlockListRequestMsg, "GetMinorBlockListRequest"),
    (getMinorBlockListResponseMsg, "GetMinorBlockListResponse"),
    (getMinorBlockHeaderListRequestMsg, "GetMinorBlockHeaderListRequest"),
    (getMinorBlockHeaderListResponseMsg, "GetMinorBlockHeaderListResponse"),
    (newBlockMinorMsg, "NewBlockMinor"),
    (ping, "PingPongCommand"),
    (pong, "PingPongCommand"),
    (getRootBlockHeaderListWithSkipRequestMsg, "GetRootBlockHeaderListWithSkipRequest"),
    (getRootBlockHeaderListWithSkipResponseMsg, "GetRootBlockHeaderListResponse"),
    (newRootBlockMsg, "NewRootBlockCommand"),
    (getMinorBlockHeaderListWithSkipRequestMsg, "GetMinorBlockHeaderListWithSkipRequest"),
    (getMinorBlockHeaderListWithSkipResponseMsg, "GetMinorBlockHeaderListResponse")]

def lookupOp (code : UInt8) : Option (P2PCommandOp × String) := opSerializerMap[code.toNat]?

def preP2PLength : ℕ := 4 + 1 + 8

structure QKCMsg where
  branch : ℕ
  op : UInt8
  rpcID : ℕ
  data : List UInt8
deriving DecidableEq

/-- `DecodeQKCMsg`; its one error is "decode qkc msg err body is short".  The operation of a body
that is long enough is its fifth byte. -/
def decodeQKCMsg (body : List UInt8) : Option QKCMsg :=
  if body.length < preP2PLength then none
  else some
    { branch := bigEndian (body.take 4)
      op := body.getD 4 0
      rpcID := bigEndian ((body.drop 5).take 8)
      data := body.drop preP2PLength }

/-- `types.RootBlockHeader`, as it is sent. -/
structure RootBlockHeader where
  version : ℕ
  number : ℕ
  parentHash : Hash
  minorHeaderHash : Hash
  root : Hash
  coinbase : Address
  coinbaseAmount : TokenMap
  time : ℕ
  difficulty : ℕ
  totalDifficulty : ℕ
  nonce : ℕ
  extra : List UInt8
  mixDigest : Hash
  signature : BitVec (8 * 65)
deriving DecidableEq

structure MinorBlockHeader where
  version : ℕ
  branch : Branch
  number : ℕ
  coinbase : Address
  coinbaseAmount : TokenMap
  parentHash : Hash
  prevRootBlockHash : Hash
  gasLimit : ℕ
  metaHash : Hash
  time : ℕ
  difficulty : ℕ
  nonce : ℕ
  bloom : BitVec (8 * 256)
  extra : List UInt8
  mixDigest : Hash
deriving DecidableEq

/-- `types.RootBlock`, as it is sent (`extrootblock`). -/
structure RootBlock where
  header : RootBlockHeader
  minorBlockHeaders : List MinorBlockHeader
  trackingdata : List UInt8
deriving DecidableEq

structure Tip where
  rootBlockHeader : RootBlockHeader
  minorBlockHeaderList : List MinorBlockHeader
deriving DecidableEq

structure GetRootBlockHeaderListRequest where
  blockHash : Hash
  limit : ℕ
  direction : ℕ
deriving DecidableEq

structure GetRootBlockHeaderListResponse where
  rootTip : RootBlockHeader
  blockHeaderList : List RootBlockHeader
deriving DecidableEq

structure GetRootBlockHeaderListWithSkipRequest where
  type : ℕ
  data : Hash
  limit : ℕ
  skip : ℕ
  direction : ℕ
deriving DecidableEq

def deserializeHash : Deserializer Hash := deserializeByteArray 32

def deserializeAddress : Deserializer Address := do
  let recipient ← field "account.Address" "Recipient" (deserializeByteArray 20)
  let fullShardKey ← field "account.Address" "FullShardKey" (getUInt 4)
  pure { recipient, fullShardKey }

def deserializeBranch : Deserializer Branch := do
  let value ← field "account.Branch" "Value" (getUInt 4)
  pure { value }

def deserializeRootBlockHeader : Deserializer RootBlockHeader := do
  let version ← field "types.RootBlockHeader" "Version" (getUInt 4)
  let number ← field "types.RootBlockHeader" "Number" (getUInt 4)
  let parentHash ← field "types.RootBlockHeader" "ParentHash" deserializeHash
  let minorHeaderHash ← field "types.RootBlockHeader" "MinorHeaderHash" deserializeHash
  let root ← field "types.RootBlockHeader" "Root" deserializeHash
  let coinbase ← field "types.RootBlockHeader" "Coinbase" deserializeAddress
  let coinbaseAmount ← field "types.RootBlockHeader" "CoinbaseAmount" deserializeTokenBalances
  let time ← field "types.RootBlockHeader" "Time" (getUInt 8)
  let difficulty ← field "types.RootBlockHeader" "Difficulty" deserializeBigInt
  let totalDifficulty ← field "types.RootBlockHeader" "ToTalDifficulty" deserializeBigInt
  let nonce ← field "types.RootBlockHeader" "Nonce" (getUInt 8)
  let extra ← field "types.RootBlockHeader" "Extra" (getVarBytes 2)
  let mixDigest ← field "types.RootBlockHeader" "MixDigest" deserializeHash
  let signature ← field "types.RootBlockHeader" "Signature" (deserializeByteArray 65)
  pure { version, number, parentHash, minorHeaderHash, root, coinbase, coinbaseAmount, time,
         difficulty, totalDifficulty, nonce, extra, mixDigest, signature }

def deserializeMinorBlockHeader : Deserializer MinorBlockHeader := do
  let version ← field "types.MinorBlockHeader" "Version" (getUInt 4)
  let branch ← field "types.MinorBlockHeader" "Branch" deserializeBranch
  let number ← field "types.MinorBlockHeader" "Number" (getUInt 8)
  let coinbase ← field "types.MinorBlockHeader" "Coinbase" deserializeAddress
  let coinbaseAmount ← field "types.MinorBlockHeader" "CoinbaseAmount" deserializeTokenBalances
  let parentHash ← field "types.MinorBlockHeader" "ParentHash" deserializeHash
  let prevRootBlockHash ← field "types.MinorBlockHeader" "PrevRootBlockHash" deserializeHash
  let gasLimit ← field "types.MinorBlockHeader" "GasLimit" (deserializeFixSizeBigUint 32)
  let metaHash ← field "types.MinorBlockHeader" "MetaHash" deserializeHash
  let time ← field "types.MinorBlockHeader" "Time" (getUInt 8)
  let difficulty ← field "types.MinorBlockHeader" "Difficulty" deserializeBigInt
  let nonce ← field "types.MinorBlockHeader" "Nonce" (getUInt 8)
  let bloom ← field "types.MinorBlockHeader" "Bloom" (deserializeByteArray 256)
  let extra ← field "types.MinorBlockHeader" "Extra" (getVarBytes 2)
  let mixDigest ← field "types.MinorBlockHeader" "MixDigest" deserializeHash
  pure { version, branch, number, coinbase, coinbaseAmount, parentHash, prevRootBlockHash, gasLimit,
         metaHash, time, difficulty, nonce, bloom, extra, mixDigest }

def deserializeRootBlock : Deserializer RootBlock := do
  let header ← field "types.extrootblock" "Header" deserializeRootBlockHeader
  let minorBlockHeaders ← field "types.extrootblock" "MinorBlockHeaders"
    (deserializeList 4 deserializeMinorBlockHeader)
  let trackingdata ← field "types.extrootblock" "Trackingdata" (getVarBytes 2)
  pure { header, minorBlockHeaders, trackingdata }

def deserializeTip : Deserializer Tip := do
  let rootBlockHeader ← field "p2p.Tip" "RootBlockHeader" deserializeRootBlockHeader
  let minorBlockHeaderList ← field "p2p.Tip" "MinorBlockHeaderList"
    (deserializeList 4 deserializeMinorBlockHeader)
  pure { rootBlockHeader, minorBlockHeaderList }

def deserializeGetRootBlockHeaderListRequest : Deserializer GetRootBlockHeaderListRequest := do
  let blockHash ← field "p2p.GetRootBlockHeaderListRequest" "BlockHash" deserializeHash
  let limit ← field "p2p.GetRootBlockHeaderListRequest" "Limit" (getUInt 4)
  let direction ← field "p2p.GetRootBlockHeaderListRequest" "Direction" (getUInt 1)
  pure { blockHash, limit, direction }

def deserializeGetRootBlockHeaderListResponse : Deserializer GetRootBlockHeaderListResponse := do
  let rootTip ← field "p2p.GetRootBlockHeaderListResponse" "RootTip" deserializeRootBlockHeader
  let blockHeaderList ← field "p2p.GetRootBlockHeaderListResponse" "BlockHeaderList"
    (deserializeList 4 deserializeRootBlockHeader)
  pure { rootTip, blockHeaderList }

def deserializeGetRootBlockListRequest : Deserializer (List Hash) :=
  field "p2p.GetRootBlockListRequest" "RootBlockHashList" (deserializeList 4 deserializeHash)

def deserializeGetRootBlockListResponse : Deserializer (List RootBlock) :=
  field "p2p.GetRootBlockListResponse" "RootBlockList" (deserializeList 4 deserializeRootBlock)

def deserializeGetRootBlockHeaderListWithSkipRequest :
    Deserializer GetRootBlockHeaderListWithSkipRequest := do
  let type ← field "p2p.GetRootBlockHeaderListWithSkipRequest" "Type" (getUInt 1)
  let data ← field "p2p.GetRootBlockHeaderListWithSkipRequest" "Data" deserializeHash
  let limit ← field "p2p.GetRootBlockHeaderListWithSkipRequest" "Limit" (getUInt 4)
  let skip ← field "p2p.GetRootBlockHeaderListWithSkipRequest" "Skip" (getUInt 4)
  let direction ← field "p2p.GetRootBlockHeaderListWithSkipRequest" "Direction" (getUInt 1)
  pure { type, data, limit, skip, direction }

instance : InBounds deserializeHash := inferInstanceAs (InBounds (deserializeByteArray 32))

instance : InBounds deserializeAddress := by
  unfold deserializeAddress
  infer_instance

instance : InBounds deserializeBranch := by
  unfold deserializeBranch
  infer_instance

instance : InBounds deserializeRootBlockHeader := by
  unfold deserializeRootBlockHeader
  infer_instance

instance : InBounds deserializeMinorBlockHeader := by
  unfold deserializeMinorBlockHeader
  infer_instance

instance : InBounds deserializeRootBlock := by
  unfold deserializeRootBlock
  infer_instance

instance : InBounds deserializeTip := by
  unfold deserializeTip
  infer_instance

instance : InBounds deserializeGetRootBlockHeaderListRequest := by
  unfold deserializeGetRootBlockHeaderListRequest
  infer_instance

instance : InBounds deserializeGetRootBlockHeaderListResponse := by
  unfold deserializeGetRootBlockHeaderListResponse
  infer_instance

instance : InBounds deserializeGetRootBlockListRequest := by
  unfold deserializeGetRootBlockListRequest
  infer_instance

instance : InBounds deserializeGetRootBlockListResponse := by
  unfold deserializeGetRootBlockListResponse
  infer_instance

instance : InBounds deserializeGetRootBlockHeaderListWithSkipRequest := by
  unfold deserializeGetRootBlockHeaderListWithSkipRequest
  infer_instance

end QuarkChain.P2p
