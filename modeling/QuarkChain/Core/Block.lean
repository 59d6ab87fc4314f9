/-
# Running a minor block

`runBlock` and what it is made of: `validateTx` and `RunCrossShardTxWithCursor`
(`src/core/minorblockchain_addon.go`), `StateProcessor.Process` (`state_processor.go`) and
`ValidateState` (`minorblock_validator.go`).

A `Node` is the part of `MinorBlockChain` that these functions read, with the blocks as proof of staked work sees
them and its cache of coinbases.  Tries, receipts and blooms are
compared by digest, and the digests are functions of the content.  The virtual machine of a node may
depend on the header (block hashes, difficulty), so it is a function of it.
-/
import QuarkChain.Core.Processor
import QuarkChain.Posw.Stake
import QuarkChain.XShard.Delivery

namespace QuarkChain.Core

open Account Config QuarkChain.Types State Vm XShard

/-- How a block is refused, or the process ends. -/
inductive BlockStop
  | minorBlockIsNil
  | missingState
  | posw (e : Posw.PoswError)
  | crossShard (e : XShard.RunStop BlockStop)
  | outOfFuel
  | transaction (err : CoreError)
  | machine (stop : Stop)
  | state (panic : StatePanic)
  | gasUsed
  | bloom
  | cursorInfo
  | receiptHash
  | coinbaseAmount
  | xShardReceiveGasUsed
  | root

/-- The hashes that `ValidateState` compares. -/
structure Digests where
  rootHash : (Recipient → Option EncodedAccount) → Hash
  createBloom : List ReceiptEncoding → BitVec (8 * 256)
  deriveSha : List ReceiptEncoding → Hash

/-- What proof of staked work reads of a block. -/
def MinorBlock.iBlock (b : MinorBlock) : Posw.IBlock := ⟨b.hash, b.parentHash, b.number, b.coinbase.recipient⟩

/-- `core.MinorBlockChain`: configuration, stores, caches and local root tip. -/
structure Node where
  cfg : ChainConfig
  posw : Posw.POSWConfig
  branch : Branch
  rootTipNumber : ℕ
  getRootBlockByHash : Hash → Option RootBlock
  readCrossShardTxList : Hash → Option (List CrossShardTransactionDeposit)
  getMinorBlock : Hash → Option MinorBlock
  /-- `StateAt`: the content of a stored account trie. -/
  stateAt : Hash → Option (Recipient → Option EncodedAccount)
  /-- The chain as the `headReader` of `PoSW`, which has all ancestors of every block. -/
  hReader : Posw.HeadReader
  hReader_eq : ∀ hash, hReader.getBlock hash = (getMinorBlock hash).map MinorBlock.iBlock
  coinbaseAddrCache : Posw.Cache
  /-- `getCoinbaseAmount`, an amount of the default token. -/
  getCoinbaseAmount : ℕ → ℕ
  digests : Digests
  machine : Header → Machine

namespace Node

/-- The part of a node that delivery reads. -/
def chain (n : Node) : XShard.MinorBlockChain where
  config := n.cfg.quarkchain
  branch := n.branch
  getRootBlockByHash := n.getRootBlockByHash
  readCrossShardTxList := n.readCrossShardTxList

variable (n : Node)

def qkcTokenID : TokenID := 35760

/-- A transaction of version `2` stays on one chain, with shard keys `0`, and both its tokens are `QKC`. -/
def checkTxWithVersion2 (tx : EvmTransaction) (timeStamp : ℕ) : Bool :=
  n.cfg.enableEIP155SignerTimestamp ≤ timeStamp &&
    (tx.v == 35 + tx.networkId * 2 || tx.v == 35 + tx.networkId * 2 + 1) &&
    tx.fromChainID == tx.toChainID && tx.fromShardKey == 0 && tx.toShardKey == 0 &&
    tx.transferTokenID == qkcTokenID && tx.gasTokenID == qkcTokenID &&
    tx.networkId == n.cfg.ethChainID

/-- The shard sizes of both chains are filled in. -/
def setShardSizes (tx : EvmTransaction) : Except CoreError EvmTransaction :=
  match n.cfg.quarkchain.getShardSizeByChainId tx.toChainID with
  | none => .error .noSuchChainID
  | some toShardSize =>
      if !isP2 toShardSize || toShardSize == 0 then .error .shardSizeNotUsable
      else
        match n.cfg.quarkchain.getShardSizeByChainId tx.fromChainID with
        | none => .error .noSuchChainID
        | some fromShardSize =>
            if !isP2 fromShardSize || fromShardSize == 0 then .error .shardSizeNotUsable
            else .ok { tx with fromShardSize, toShardSize }

/-- Whether a cross-shard transaction may leave for its target, as seen at the local root tip. -/
def checkTarget (tx : EvmTransaction) : Option CoreError :=
  if !tx.isCrossShard then none
  else if tx.toFullShardId ∉
      n.cfg.quarkchain.getInitializedShardIdsBeforeRootHeight n.rootTipNumber then
    some .shardNotInitialized
  else if !n.cfg.quarkchain.isNeighborAt n.branch ⟨tx.toFullShardId⟩ n.rootTipNumber then
    some .notNeighbor
  else none

/-- The checks of `validateTx` that look at the transaction only, the shard sizes being set. -/
def checkTx (tx : EvmTransaction) (xShardGasLimit timeStamp : ℕ) : Option CoreError :=
  if tx.version = 2 ∧ !n.checkTxWithVersion2 tx timeStamp then some .version2Rejected
  else if tx.version ≠ 2 ∧ tx.networkId ≠ n.cfg.networkID then some .networkID
  else if !n.branch.isInBranch tx.fromFullShardId then some .branch
  else
    match n.checkTarget tx with
    | some err => some err
    | none =>
        if tx.isCrossShard ∧ xShardGasLimit < tx.gas.toNat then some .xShardGasLimitExceeded
        else if timeStamp < n.cfg.enableEvmTimeStamp ∧ (tx.to.isNone ∨ tx.data ≠ []) then
          some .evmNotEnabled
        else none

def maxFutureTxNonce : ℕ := 64

/-- The target of a cross-shard transaction is checked at the local root tip. -/
def validateTx (header : Header) (tx : EvmTransaction) (xShardGasLimit : ℕ) (w : World) :
    Exec (Except CoreError EvmTransaction × World) :=
  match n.setShardSizes tx with
  | .error err => .ok (.error err, w)
  | .ok tx =>
      match n.checkTx tx xShardGasLimit w.db.block.timeStamp with
      | some err => .ok (.error err, w)
      | none =>
          match tx.sender n.cfg.networkID with
          | none => .ok (.error .invalidSignature, w)
          | some sender => do
              let (reqNonce, db) := w.db.getNonce sender
              let w := { w with db }
              if reqNonce < tx.nonce ∧ tx.nonce < reqNonce + maxFutureTxNonce then pure (.ok tx, w)
              else
                let (err, w) ← validateTransaction (n.machine header) n.cfg tx w
                match err with
                | some err => pure (.error err, w)
                | none => pure (.ok tx, w)

/-- The variables of the loop of `Process`. -/
structure Progress where
  gp : ℕ
  usedGas : ℕ
  world : World
  receipts : List Receipt

/-- One round of the loop in `Process`. -/
def processTx (block : MinorBlock) (i : ℕ) (tx : EvmTransaction) (p : Progress) :
    Except BlockStop Progress := do
  let (validated, w) ← (n.validateTx block.header tx (block.xShardGasLimit % 2 ^ 64) p.world).mapError
    .machine
  match validated with
  | .error err => .error (.transaction err)
  | .ok tx =>
      let w := { w with db := w.db.prepare tx.hash block.hash i }
      let r ← (applyTransaction (n.machine block.header) n.cfg block.header p.gp p.usedGas tx w).mapError
        .machine
      match r.result with
      | .error err => .error (.transaction err)
      | .ok e =>
          .ok { gp := r.gp, usedGas := r.usedGas, world := r.world, receipts := p.receipts ++ [e.receipt] }

/-- The loop in `Process`. -/
def processTxs (block : MinorBlock) : ℕ → List EvmTransaction → Progress → Except BlockStop Progress
  | _, [], p => .ok p
  | i, tx :: txs, p => do
      let p ← n.processTx block i tx p
      processTxs block (i + 1) txs p

def addCoinbaseAmount (coinbase : Recipient) (number : ℕ) (db : StateDB) : StateDB :=
  db.addBalance coinbase (n.getCoinbaseAmount number) n.cfg.defaultChainTokenID

/-- `Process`.  The gas limit is set back to that of the block. -/
def process (block : MinorBlock) (w : World) : Except BlockStop (World × List Receipt × ℕ) := do
  let db := w.db.updateBlock fun b =>
    { b with blockCoinbase := block.coinbase.recipient, gasLimit := block.gasLimit }
  let p ← n.processTxs block 0 block.transactions
    { gp := block.gasLimit % 2 ^ 64, usedGas := 0, world := { w with db }, receipts := [] }
  let db := n.addCoinbaseAmount block.coinbase.recipient block.number p.world.db
  let db ← (db.finalise true).mapError .state
  pure ({ p.world with db }, p.receipts, p.usedGas)

/-- The state of the parent, with the limits and locks of the block. -/
def getEvmStateForNewBlock (block : MinorBlock) : Except BlockStop StateDB :=
  match n.getMinorBlock block.parentHash with
  | none => .error .minorBlockIsNil
  | some parent =>
      match n.stateAt parent.root with
      | none => .error .missingState
      | some trie =>
          match (Posw.buildSenderDisallowMap n.hReader n.posw n.coinbaseAddrCache parent.hash
              (some block.coinbase.recipient)).1 with
          | .error e => .error (.posw e)
          | .ok senderDisallowMap =>
              .ok (.new trie
                { timeStamp := block.time
                  blockNumber := block.number
                  blockCoinbase := block.coinbase.recipient
                  gasLimit := block.gasLimit
                  senderDisallowMap })

/-- How the cursor applies a deposit. -/
def depositEngine (header : Header) : XShard.DepositEngine World Receipt BlockStop where
  applyCrossShardDeposit w tx usedGas checkIsFromRootChain txIndex :=
    match applyCrossShardDeposit (n.machine header) n.cfg header tx usedGas checkIsFromRootChain
        txIndex w with
    | .error stop => .error (.machine stop)
    | .ok r =>
        match r.result with
        | .error err => .error (.transaction err)
        | .ok receipt => .ok (receipt, r.world, r.usedGas)
  getGasUsed w := w.db.block.gasUsed
  setXShardReceiveGasUsed w gas := { w with db := w.db.setXShardReceiveGasUsed gas }

def runCrossShardTxWithCursor (fuel : ℕ) (block : MinorBlock) (w : World) :
    Except BlockStop
      (List CrossShardTransactionDeposit × XShardTxCursorInfo × List Receipt × World) :=
  match XShard.runCrossShardTxWithCursor n.chain (n.depositEngine block.header)
      (fun hash => (n.getMinorBlock hash).map MinorBlock.xShardTxCursorInfo) fuel w
      { parentHash := block.parentHash
        prevRootBlockHash := block.prevRootBlockHash
        xShardGasLimit := block.xShardGasLimit } with
  | .error e => .error (.crossShard e)
  | .ok none => .error .outOfFuel
  | .ok (some r) => .ok r

/-- The gas limit after the deposits: what they left of the cross-shard limit is taken off. -/
def adjustGasLimit (xShardGasLimit : ℕ) (db : StateDB) : StateDB :=
  if db.block.gasUsed < xShardGasLimit then
    db.setGasLimit (db.block.gasLimit - (xShardGasLimit - db.block.gasUsed))
  else db

/-- The deposits of a new block: the state after them, with the cursor and the gas limit set. -/
def runDeposits (fuel : ℕ) (block : MinorBlock) :
    Except BlockStop (List CrossShardTransactionDeposit × List Receipt × World) := do
  let db ← n.getEvmStateForNewBlock block
  let (txList, info, receipts, w) ← n.runCrossShardTxWithCursor fuel block { db }
  let db := adjustGasLimit block.xShardGasLimit (w.db.setTxCursorInfo info)
  pure (txList, receipts, { w with db })

structure BlockResult where
  world : World
  receipts : List Receipt
  usedGas : ℕ
  xShardReceiveTxList : List CrossShardTransactionDeposit

/-- The deposits first, then the transactions. -/
def runBlock (fuel : ℕ) (block : MinorBlock) : Except BlockStop BlockResult := do
  let (xShardReceiveTxList, xShardReceipts, w) ← n.runDeposits fuel block
  let (world, receipts, usedGas) ← n.process block w
  pure { world, receipts := receipts ++ xShardReceipts, usedGas, xShardReceiveTxList }

/-- The reward and the fees. -/
def coinbaseAmount (number : ℕ) (db : StateDB) : TokenMap :=
  db.block.blockFee.insert n.cfg.defaultChainTokenID
    (n.getCoinbaseAmount number + TokenMap.amount db.block.blockFee n.cfg.defaultChainTokenID)

/-- The result against the header. -/
def validateState (block : MinorBlock) (db : StateDB) (receipts : List Receipt) : Except BlockStop Hash :=
  if block.gasUsed ≠ db.block.gasUsed then .error .gasUsed
  else if n.digests.createBloom (receipts.map Receipt.encode) ≠ block.bloom then .error .bloom
  else if db.block.xShardTxCursorInfo ≠ some block.xShardTxCursorInfo then .error .cursorInfo
  else if n.digests.deriveSha (receipts.map Receipt.encode) ≠ block.receiptHash then
    .error .receiptHash
  else if n.coinbaseAmount block.number db ≠ block.coinbaseAmount then .error .coinbaseAmount
  else if db.block.xShardReceiveGasUsed ≠ block.crossShardGasUsed then .error .xShardReceiveGasUsed
  else do
    let trie ← (db.intermediateRoot true).mapError .state
    if block.root ≠ n.digests.rootHash trie then .error .root else pure block.root

/-- What an accepted block yields. -/
structure Verdict where
  root : Hash
  receipts : List Receipt
  xShardList : List CrossShardTransactionDeposit

/-- `runBlock` and `ValidateState`. -/
def acceptBlock (fuel : ℕ) (block : MinorBlock) : Except BlockStop Verdict := do
  let r ← n.runBlock fuel block
  let root ← n.validateState block r.world.db r.receipts
  pure { root, receipts := r.receipts, xShardList := r.world.db.block.xShardList }

end Node

end QuarkChain.Core
