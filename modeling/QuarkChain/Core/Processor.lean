/-
# Applying transactions and deposits

`src/core/state_processor.go`, without the loop over a block, and the calls of the native-token manager that
convert a gas price (`PayNativeTokenAsGas`, `ConvertToDefaultChainTokenGasPrice`).

A transaction that pays its gas in another token than the default one is financed by the manager: before
anything else is checked, the manager gives up the default tokens and is credited with the tokens that the
sender is going to pay (`swapGas`).
-/
import QuarkChain.Core.Transition

namespace QuarkChain.Core

open Account Config QuarkChain.Types State Vm

/-- The fields of a header that `NewEVMContext` reads, and its hash. -/
structure Header where
  hash : Hash
  coinbase : Recipient
  number : ℕ
  time : ℕ

def MinorBlock.header (b : MinorBlock) : Header :=
  { hash := b.hash, coinbase := b.coinbase.recipient, number := b.number, time := b.time }

def newEVMContext (msg : Message) (header : Header) (gasPriceInGasToken : ℕ) : Context where
  origin := msg.from
  coinbase := header.coinbase
  blockNumber := header.number
  time := header.time
  gasPrice := msg.gasPrice
  gasPriceInGasToken := gasPriceInGasToken
  toFullShardKey := msg.toFullShardKey
  gasTokenID := msg.gasTokenID
  transferTokenID := msg.transferTokenID

def EvmTransaction.asMessage (tx : EvmTransaction) (sender : Recipient) (gasPrice refundRate : ℕ) :
    Message where
  «from» := sender
  «to» := tx.to
  nonce := tx.nonce
  value := tx.value
  gas := tx.gas
  gasPrice := gasPrice
  data := tx.data
  checkNonce := true
  fromFullShardKey := tx.fromFullShardKey
  toFullShardKey := some tx.toFullShardKey
  txHash := tx.hash
  isCrossShard := tx.isCrossShard
  transferTokenID := tx.transferTokenID
  gasTokenID := tx.gasTokenID
  refundRate := refundRate

def generalNativeToken : Recipient := SystemContract.generalNativeToken.address

/-- The context of a call of the manager: only the block number is set. -/
def managerContext (blockNumber : ℕ) : Context where
  origin := 0
  coinbase := 0
  blockNumber := blockNumber
  time := 0
  gasPrice := 0
  gasPriceInGasToken := 0
  toFullShardKey := none
  gasTokenID := 0
  transferTokenID := 0

def uint128Max : ℕ := 2 ^ 128 - 1

/-- A refund rate and a gas price in the default token, or an error. -/
abbrev Conversion := Except CoreError (ℕ × ℕ)

section

variable (m : Machine) (cfg : ChainConfig)

/-- `callGeneralNativeTokenManager`.  An answer of fewer than two words is a panic. -/
def callGeneralNativeTokenManager (data : List UInt8) (w : World) : Exec (Conversion × World) :=
  let (code, db) := w.db.getCode generalNativeToken
  let w := { w with db }
  if code.isEmpty then .ok (.error .contractNotFound, w)
  else do
    let r ← m.call (managerContext w.db.block.blockNumber) generalNativeToken generalNativeToken data
      1000000 0 w
    match r.err with
    | some err => pure (.error (.conversionFailed err), r.world)
    | none =>
        if r.ret.length < 64 then .error (.panic .shortReturn)
        else pure (.ok (getWord r.ret 0 % 256, getWord r.ret 32), r.world)

def payNativeTokenAsGas (tokenID : TokenID) (gas : UInt64) (gasPriceInNativeToken : ℕ) (w : World) :
    Exec (Conversion × World) :=
  if tokenIDMax < tokenID ∨ uint128Max < gasPriceInNativeToken then .ok (.error .uint128Max, w)
  else
    callGeneralNativeTokenManager m
      ([0x5a, 0xe8, 0xf7, 0xf1] ++ toBytes 32 tokenID ++ toBytes 32 gas.toNat ++
        toBytes 32 gasPriceInNativeToken) w

/-- The rule of `ValidateTransaction` on what the sender has of the transferred token and of the gas token: a token
other than the default one must not be missing altogether, and each covers what is paid in it. -/
def balanceError (defaultChainTokenID : TokenID) (tx : EvmTransaction) (transferBal gasBal : ℕ) :
    Option CoreError :=
  let gasCost := tx.gasPrice * tx.gas.toNat
  if (tx.transferTokenID ≠ defaultChainTokenID ∧ transferBal = 0) ∨
      (tx.gasTokenID ≠ defaultChainTokenID ∧ gasBal = 0) then some .zeroBalance
  else if tx.transferTokenID = tx.gasTokenID then
    if transferBal < gasCost + tx.value then some .insufficientBalanceForCost else none
  else if transferBal < tx.value ∨ gasBal < gasCost then some .insufficientBalanceForCost else none

/-- The balance checks of `ValidateTransaction`. -/
def checkBalances (tx : EvmTransaction) (sender : Recipient) (w : World) : Option CoreError × World :=
  let (transferBal, db) := w.db.getBalance sender tx.transferTokenID
  let (gasBal, db) :=
    if tx.transferTokenID = tx.gasTokenID then (transferBal, db)
    else db.getBalance sender tx.gasTokenID
  (balanceError cfg.defaultChainTokenID tx transferBal gasBal, { w with db })

/-- The check of `ValidateTransaction` on gas in another token.  Its call is undone, unless it ends in an error. -/
def checkConversion (tx : EvmTransaction) (w : World) : Exec (Option CoreError × World) :=
  if tx.gasPrice = 0 ∨ tx.gasTokenID = cfg.defaultChainTokenID then .ok (none, w)
  else do
    let mark := w.mark
    let (conversion, w) ← payNativeTokenAsGas m tx.gasTokenID tx.gas tx.gasPrice w.marked
    match conversion with
    | .error err => pure (some err, w)
    | .ok (_, price) =>
        let w ← w.revertTo mark
        if price = 0 then pure (some .gasTokenNotReady, w)
        else
          let (reserve, db) := w.db.getBalance generalNativeToken cfg.defaultChainTokenID
          let w := { w with db }
          pure (if reserve < price * tx.gas.toNat then some .conversionReserveTooSmall else none, w)

def validateTransaction (tx : EvmTransaction) (w : World) : Exec (Option CoreError × World) :=
  match tx.sender tx.networkId with
  | none => .ok (some .invalidSignature, w)
  | some sender =>
      if uint128Max < tx.gasPrice ∨ tokenIDMax < tx.gasTokenID ∨ tokenIDMax < tx.transferTokenID then
        .ok (some .uint128Max, w)
      else
        let (nonce, db) := w.db.getNonce sender
        let w := { w with db }
        let reqNonce := if sender = 0 then 0 else nonce
        if tx.nonce < reqNonce then .ok (some .nonceTooLow, w)
        else
          match intrinsicGas tx.data tx.to.isNone (tx.toFullShardId ≠ tx.fromFullShardId) with
          | none => .ok (some .outOfGas, w)
          | some totalGas =>
              if tx.gas.toNat < totalGas then .ok (some .intrinsicGas, w)
              else
                match checkBalances cfg tx sender w with
                | (some err, w) => .ok (some err, w)
                | (none, w) => do
                    let (err, w) ← checkConversion m cfg tx w
                    match err with
                    | some err => pure (some err, w)
                    | none =>
                        if w.db.block.gasLimit < w.db.block.gasUsed + tx.gas.toNat then
                          pure (some .gasLimitTooLow, w)
                        else pure (none, w)

structure Executed where
  ret : List UInt8
  receipt : Receipt
  gas : ℕ

structure ApplyResult where
  gp : ℕ
  usedGas : ℕ
  world : World
  result : Except CoreError Executed

/-- The first part of `ApplyTransaction`: the gas price in the default token and the refund rate. -/
def swapGas (tx : EvmTransaction) (w : World) : Exec (Except CoreError (ℕ × ℕ) × World) :=
  if tx.gasTokenID = cfg.defaultChainTokenID then .ok (.ok (tx.gasPrice, 100), w)
  else do
    let (conversion, w) ← payNativeTokenAsGas m tx.gasTokenID tx.gas tx.gasPrice w
    match conversion with
    | .error _ => pure (.error .convertedGasPriceNotPositive, w)
    | .ok (refundRate, price) =>
        if price = 0 then pure (.error .convertedGasPriceNotPositive, w)
        else
          let (contractBal, db) := w.db.getBalance generalNativeToken cfg.defaultChainTokenID
          let w := { w with db }
          if contractBal < tx.gas.toNat * price then pure (.error .contractBalanceTooSmall, w)
          else do
            let w ← w.lift (w.db.subBalance generalNativeToken (tx.gas.toNat * price)
              cfg.defaultChainTokenID)
            let db := w.db.addBalance generalNativeToken (tx.gas.toNat * tx.gasPrice) tx.gasTokenID
            pure (.ok (price, refundRate), { w with db })

def transactionReceipt (tx : EvmTransaction) (sender : Recipient) (a : Applied) (db : StateDB) :
    Receipt where
  failed := a.failed
  cumulativeGasUsed := db.block.gasUsed % 2 ^ 64
  txHash := tx.hash
  gasUsed := a.usedGas
  contractAddress :=
    if tx.to.isNone && !tx.isCrossShard && !a.failed then
      some (m.createAddress sender (some tx.toFullShardKey) tx.nonce)
    else none
  contractFullShardKey := tx.toFullShardKey
  logs := db.logs tx.hash

def applyPriced (header : Header) (gp usedGas : ℕ) (tx : EvmTransaction) (price refundRate : ℕ)
    (w : World) : Exec ApplyResult :=
  let w := { w with db := w.db.setFullShardKey tx.toFullShardKey }
  match tx.sender tx.networkId with
  | none => .ok { gp, usedGas, world := w, result := .error .invalidSignature }
  | some sender => do
      let msg := tx.asMessage sender price refundRate
      let ctx := newEVMContext msg header tx.gasPrice
      let t ← transitionDb m cfg ctx msg gp w
      match t.result with
      | .error err => pure { gp := t.gp, usedGas, world := t.world, result := .error err }
      | .ok a =>
          pure
            { gp := t.gp
              usedGas := add64 usedGas a.usedGas
              world := t.world
              result := .ok
                { ret := a.ret
                  receipt := transactionReceipt m tx sender a t.world.db
                  gas := a.usedGas } }

def applyTransaction (header : Header) (gp usedGas : ℕ) (tx : EvmTransaction) (w : World) :
    Exec ApplyResult := do
  let (swapped, w) ← swapGas m cfg tx w
  match swapped with
  | .error err => pure { gp, usedGas, world := w, result := .error err }
  | .ok (price, refundRate) => applyPriced m cfg header gp usedGas tx price refundRate w

structure DepositResult where
  usedGas : ℕ
  world : World
  result : Except CoreError (Option Receipt)

def gasUsedStart (tx : CrossShardTransactionDeposit) (checkIsFromRootChain : Bool) : ℕ :=
  if checkIsFromRootChain then if tx.isFromRootChain then 0 else gtxxShardCost
  else if tx.gasPrice = 0 then 0 else gtxxShardCost

def depositMessage (tx : CrossShardTransactionDeposit) : Message where
  «from» := tx.from.recipient
  «to» := some tx.to.recipient
  nonce := 0
  value := tx.value
  gas := UInt64.ofNat tx.gasRemained
  gasPrice := tx.gasPrice
  data := tx.messageData
  checkNonce := false
  fromFullShardKey := tx.from.fullShardKey
  toFullShardKey := some tx.to.fullShardKey
  txHash := 0
  isCrossShard := false
  transferTokenID := tx.transferTokenID
  gasTokenID := tx.gasTokenID
  refundRate := tx.refundRate

def depositContext (header : Header) (tx : CrossShardTransactionDeposit) (start : ℕ) : Context :=
  { newEVMContext (depositMessage tx) header tx.gasPrice with
    isApplyXShard := true
    xShardGasUsedStart := start
    contractAddress := if tx.createContract then some tx.to.recipient else none }

/-- A deposit before the virtual machine is enabled: credit the value and charge the fee. -/
def creditDeposit (tx : CrossShardTransactionDeposit) (start : ℕ) (db : StateDB) : StateDB :=
  let db := db.addBalance tx.to.recipient tx.value tx.transferTokenID
  let db := db.addGasUsed start
  let xShardFee := cfg.localFee (tx.gasPrice * gtxxShardCost)
  let db := db.addBlockFee tx.gasTokenID xShardFee
  db.addBalance db.block.blockCoinbase xShardFee tx.gasTokenID

def depositReceipt (tx : CrossShardTransactionDeposit) (a : Applied) (usedGas : ℕ) (db : StateDB) :
    Receipt where
  failed := a.failed
  cumulativeGasUsed := usedGas
  txHash := tx.txHash
  gasUsed := a.usedGas
  contractAddress := if tx.createContract && !a.failed then some tx.to.recipient else none
  contractFullShardKey := tx.to.fullShardKey
  logs := db.logs tx.txHash

/-- The state in which the message of a deposit runs: the sender has been credited with the value. -/
def depositState (header : Header) (tx : CrossShardTransactionDeposit) (txIndex : ℕ) (db : StateDB) :
    StateDB :=
  let db := db.setFullShardKey tx.to.fullShardKey
  let db := db.addBalance tx.from.recipient tx.value tx.transferTokenID
  db.prepare tx.txHash header.hash txIndex

def applyCrossShardDeposit (header : Header) (tx : CrossShardTransactionDeposit) (usedGas : ℕ)
    (checkIsFromRootChain : Bool) (txIndex : ℕ) (w : World) : Exec DepositResult :=
  let start := gasUsedStart tx checkIsFromRootChain
  if w.db.block.timeStamp < cfg.enableEvmTimeStamp then
    .ok
      { usedGas := add64 usedGas start
        world := { w with db := creditDeposit cfg tx start w.db }
        result := .ok none }
  else do
    let db := depositState header tx txIndex w.db
    let gp := db.block.gasLimit % 2 ^ 64
    let t ← transitionDb m cfg (depositContext header tx start) (depositMessage tx) gp { w with db }
    match t.result with
    | .error err => pure { usedGas, world := t.world, result := .error err }
    | .ok a =>
        let usedGas := add64 usedGas a.usedGas
        let receipt :=
          if cfg.enableEvmTimeStamp ≤ t.world.db.block.timeStamp then
            some (depositReceipt tx a usedGas t.world.db)
          else none
        pure { usedGas, world := t.world, result := .ok receipt }

end

end QuarkChain.Core
