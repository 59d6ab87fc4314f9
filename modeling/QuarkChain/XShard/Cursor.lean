/-
# The cross-shard transaction cursor

`src/core/xshard_tx_cursor.go`.  A minor block stores where delivery of cross-shard deposits has
stopped as a triple `(root block height, minor block index, deposit index)`:

* `(x, 0, 0)`: everything below root height `x` has been delivered (EOF);
* `(x, 0, 1)`: the coinbase deposit of root block `x` was the last one delivered;
* `(x, y, z)` with `y > 0`: deposit `z` of the `y`-th minor header of root block `x` was.

`newXShardTxCursor` recovers a cursor from the triple, `getNextTx` moves it to the next deposit and
`getCursorInfo` turns it back into a triple.  Every way these functions can stop without an answer,
a nil dereference included, is a `CursorStop`.
-/
import QuarkChain.XShard.RootChain

namespace QuarkChain.XShard

open Account Config QuarkChain.Types

/-- `core.XShardTxCursor`; pointers that may be nil are options. -/
structure XShardTxCursor where
  maxRootBlockHeader : Option RootBlock
  mBlockIndex : ℕ
  xShardDepositIndex : ℕ
  xTxList : Option (List CrossShardTransactionDeposit)
  rBlock : Option RootBlock

/-- The deposit a root block's coinbase makes to the shard: the genesis-token reward when the
coinbase address lives in this shard, and a deposit of zero otherwise. -/
def coinbaseDeposit (bc : MinorBlockChain) (r : RootBlock) : CrossShardTransactionDeposit where
  txHash := r.hash
  «from» := r.coinbase
  «to» := r.coinbase
  value :=
    if bc.branch.isInBranch r.coinbase.fullShardKey then
      r.coinbaseAmount.amount bc.config.defaultChainTokenID
    else 0
  gasPrice := 0
  gasRemained := 0
  gasTokenID := bc.config.defaultChainTokenID
  transferTokenID := bc.config.defaultChainTokenID
  isFromRootChain := true
  refundRate := 100

/-- `NewXShardTxCursor`: recover a cursor from the triple that the parent stores. -/
def newXShardTxCursor (bc : MinorBlockChain) (prevRootBlockHash : Hash)
    (cursorInfo : XShardTxCursorInfo) : Except CursorStop XShardTxCursor :=
  let c : XShardTxCursor :=
    { maxRootBlockHeader := bc.getRootBlockByHash prevRootBlockHash
      mBlockIndex := cursorInfo.minorBlockIndex
      xShardDepositIndex := cursorInfo.xShardDepositIndex
      xTxList := some []
      rBlock := none }
  match bc.getRootBlockByHeight prevRootBlockHash cursorInfo.rootBlockHeight with
  | .error e => .error e
  | .ok none => .ok c
  | .ok (some rBlockHeader) =>
      let c := { c with rBlock := bc.getRootBlockByHash rBlockHeader.hash }
      -- the deposit list is recovered when the cursor stands inside a minor header
      if c.mBlockIndex = 0 then .ok c
      else
        match c.rBlock with
        | none => .error .nilRBlock
        | some r =>
            match r.minorBlockHeaders[c.mBlockIndex - 1]? with
            | none => .error .headerIndexOutOfRange
            | some h => .ok { c with xTxList := bc.readCrossShardTxList h.hash }

namespace XShardTxCursor

def getCurrentTx (bc : MinorBlockChain) (x : XShardTxCursor) :
    Except CursorStop (Option CrossShardTransactionDeposit) :=
  if x.mBlockIndex = 0 then
    if x.xShardDepositIndex ≠ 1 ∧ x.xShardDepositIndex ≠ 2 then
      .error .shardDepositIndexShouldBe1or2
    else if x.xShardDepositIndex = 1 then
      match x.rBlock with
      | none => .error .nilRBlock
      | some r => .ok (some (coinbaseDeposit bc r))
    else .ok none
  else
    match x.xTxList with
    | none => .error .nilDepositList
    | some txList => .ok txList[x.xShardDepositIndex]?

/-- The end of `getNextTx`: move to the root block after `r`, or to EOF. -/
def nextRootBlock (bc : MinorBlockChain) (r : RootBlock) (x : XShardTxCursor) :
    Except CursorStop (Option CrossShardTransactionDeposit × XShardTxCursor) :=
  match x.maxRootBlockHeader with
  | none => .error .nilMaxRootBlock
  | some max =>
      match bc.getRootBlockByHeight max.hash (r.number + 1) with
      | .error e => .error e
      | .ok none =>
          .ok (none, { x with rBlock := none, mBlockIndex := 0, xShardDepositIndex := 0 })
      | .ok (some rBlockHeader) =>
          let x' : XShardTxCursor :=
            { x with
              rBlock := bc.getRootBlockByHash rBlockHeader.hash
              mBlockIndex := 0
              xShardDepositIndex := 1 }
          match x'.getCurrentTx bc with
          | .error e => .error e
          | .ok tx => .ok (tx, x')

/-- The loop of `getNextTx` over the minor headers of root block `r` that are still ahead. -/
def iterateMinorBlocks (bc : MinorBlockChain) (r : RootBlock) :
    XShardTxCursor → List MinorBlockHeader →
      Except CursorStop (Option CrossShardTransactionDeposit × XShardTxCursor)
  | x, [] => nextRootBlock bc r x
  | x, mBlockHeader :: rest =>
      let moveOn : XShardTxCursor := { x with mBlockIndex := x.mBlockIndex + 1 }
      if mBlockHeader.branch = bc.branch ∨ bc.isNeighbor mBlockHeader.branch r.number = false then
        if x.xShardDepositIndex ≠ 0 then .error .xShardDepositIndexShould0
        else iterateMinorBlocks bc r moveOn rest
      else
        -- may the neighbour send to the local shard already?
        match bc.getRootBlockByHash mBlockHeader.prevRootBlockHash with
        | none => .error .nilPrevRootBlock
        | some prevRootHeader =>
            if prevRootHeader.number ≤ bc.getGenesisRootHeight then
              if x.xShardDepositIndex ≠ 0 then .error .should0
              else if (bc.readCrossShardTxList mBlockHeader.hash).isSome then .error .shouldNil
              else iterateMinorBlocks bc r moveOn rest
            else
              let x' := { x with xTxList := bc.readCrossShardTxList mBlockHeader.hash }
              match x'.getCurrentTx bc with
              | .error e => .error e
              | .ok (some tx) => .ok (some tx, x')
              | .ok none =>
                  if x'.xShardDepositIndex ≠ 0 then .error .should0
                  else iterateMinorBlocks bc r { x' with mBlockIndex := x'.mBlockIndex + 1 } rest

/-- `getNextTx`: move to the next deposit and return it; `none` at the end of the root chain. -/
def getNextTx (bc : MinorBlockChain) (x : XShardTxCursor) :
    Except CursorStop (Option CrossShardTransactionDeposit × XShardTxCursor) :=
  match x.rBlock with
  | none => .ok (none, x)
  | some r =>
      let x' := { x with xShardDepositIndex := x.xShardDepositIndex + 1 }
      match x'.getCurrentTx bc with
      | .error e => .error e
      | .ok (some tx) => .ok (some tx, x')
      | .ok none =>
          iterateMinorBlocks bc r
            { x' with mBlockIndex := x.mBlockIndex + 1, xShardDepositIndex := 0 }
            (r.minorBlockHeaders.drop x.mBlockIndex)

def getCursorInfo (x : XShardTxCursor) : Except CursorStop XShardTxCursorInfo :=
  match x.maxRootBlockHeader with
  | none => .error .nilMaxRootBlock
  | some max =>
      .ok
        { rootBlockHeight := x.rBlock.elim (max.number + 1) RootBlock.number
          minorBlockIndex := x.mBlockIndex
          xShardDepositIndex := x.xShardDepositIndex }

end XShardTxCursor
end QuarkChain.XShard
