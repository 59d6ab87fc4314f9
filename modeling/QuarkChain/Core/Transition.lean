/-
# The state transition

`src/core/state_transition.go` and `src/core/gaspool.go`: buying gas, running a message, refunding and
charging, and leaving a deposit for another shard.  The virtual machine is a parameter (`Vm.Machine`).

The source changes the state in place and keeps the changes when it returns an error, so the results
below carry the state and the gas pool in every case.  A panic is a `Vm.Stop`.
-/
import QuarkChain.Core.Types
import QuarkChain.State.Block
import QuarkChain.Vm.Machine

namespace QuarkChain.Core

open QuarkChain.Types State Vm

/-- `StateTransition`: the fields that change. -/
structure StateTransition where
  gp : ℕ
  gas : ℕ
  initialGas : ℕ
  world : World

structure Applied where
  ret : List UInt8
  usedGas : ℕ
  failed : Bool

structure TransitionResult where
  gp : ℕ
  world : World
  result : Except CoreError Applied

def StateTransition.fail (st : StateTransition) (err : CoreError) : TransitionResult :=
  { gp := st.gp, world := st.world, result := .error err }

def StateTransition.done (st : StateTransition) (a : Applied) : TransitionResult :=
  { gp := st.gp, world := st.world, result := .ok a }

def StateTransition.gasUsed (st : StateTransition) : ℕ := sub64 st.initialGas st.gas

def intrinsicGas (data : List UInt8) (contractCreation isCrossShard : Bool) : Option ℕ :=
  let gas := if contractCreation then 53000 else 21000
  let nz := (data.filter (· ≠ 0)).length
  let z := data.length - nz
  if (2 ^ 64 - 1 - gas) / 68 < nz then none
  else if (2 ^ 64 - 1 - (gas + nz * 68)) / 4 < z then none
  else
    let gas := gas + nz * 68 + z * 4
    some (if isCrossShard then add64 gas gtxxShardCost else gas)

section

variable (m : Machine) (cfg : ChainConfig) (ctx : Context) (msg : Message) (st : StateTransition)

def buyGas : Exec (Option CoreError × StateTransition) :=
  let mgval := msg.gas.toNat * ctx.gasPriceInGasToken
  let (balance, db) := st.world.db.getBalance msg.from ctx.gasTokenID
  let st := { st with world := { st.world with db } }
  if balance < mgval then .ok (some .insufficientBalanceForGas, st)
  else if st.gp < msg.gas.toNat then .ok (some .gasLimitReached, st)
  else do
    let world ← st.world.lift (st.world.db.subBalance msg.from mgval ctx.gasTokenID)
    pure (none,
      { gp := st.gp - msg.gas.toNat, gas := add64 st.gas msg.gas.toNat,
        initialGas := msg.gas.toNat, world })

def preCheck : Exec (Option CoreError × StateTransition) :=
  if msg.checkNonce then
    let (nonce, db) := st.world.db.getNonce msg.from
    let st := { st with world := { st.world with db } }
    if nonce < msg.nonce then .ok (some .nonceTooHigh, st)
    else if msg.nonce < nonce then .ok (some .nonceTooLow, st)
    else buyGas ctx msg st
  else buyGas ctx msg st

def preFill : StateTransition :=
  let gas := add64 st.gas (add64 msg.gas.toNat ctx.xShardGasUsedStart)
  { st with gas, initialGas := gas }

def transferFailureByPoSWBalanceCheck (w : World) : Bool × World :=
  match w.db.block.senderDisallowMap msg.from with
  | none => (false, w)
  | some v =>
      let (balance, db) := w.db.getBalance msg.from cfg.defaultChainTokenID
      (balance < msg.value + v, { w with db })

/-- `refund`: what the rate keeps back goes to the zero address. -/
def refund (db : StateDB) (total : ℕ) : StateDB :=
  if msg.refundRate = 100 then db.addBalance msg.from total cfg.defaultChainTokenID
  else
    let toRefund := total * msg.refundRate / 100
    let db := db.addBalance msg.from toRefund cfg.defaultChainTokenID
    if toRefund ≤ total then db.addBalance 0 (total - toRefund) cfg.defaultChainTokenID else db

def chargeFee (db : StateDB) (gasUsed : ℕ) : StateDB :=
  let rateFee := cfg.localFee (gasUsed * msg.gasPrice)
  let db := db.addBalance ctx.coinbase rateFee cfg.defaultChainTokenID
  let db := db.addBlockFee cfg.defaultChainTokenID rateFee
  if cfg.enableEvmTimeStamp ≤ db.block.timeStamp then db.addGasUsed gasUsed
  else db.addGasUsed st.gasUsed

/-- `refundGas`; giving back more gas than a `uint64` pool can hold is a panic. -/
def refundGas (vmerr : Option VmError) : Exec StateTransition := do
  let gas :=
    if vmerr.isNone then add64 st.gas (min (st.gasUsed / 2) st.world.db.refund) else st.gas
  let world ← st.world.lift (st.world.db.subRefund st.world.db.refund)
  let world := { world with db := refund cfg msg world.db (gas * msg.gasPrice) }
  if 2 ^ 64 - 1 < st.gp + gas then .error (.panic .gasPoolOverflow)
  else pure { st with gp := st.gp + gas, gas, world }

def countNonce (w : World) : World :=
  let (nonce, db) := w.db.getNonce msg.from
  { w with db := db.setNonce msg.from (nonce + 1) }

def crossShardDeposit («to» : Recipient) (gasRemained : ℕ) (createContract : Bool) :
    CrossShardTransactionDeposit where
  txHash := msg.txHash
  «from» := ⟨msg.from, msg.fromFullShardKey⟩
  «to» := ⟨«to», msg.toFullShardKey.getD 0⟩
  value := msg.value
  gasPrice := msg.gasPrice
  gasTokenID := cfg.defaultChainTokenID
  transferTokenID := msg.transferTokenID
  isFromRootChain := false
  gasRemained := gasRemained
  messageData := msg.data
  createContract := createContract
  refundRate := msg.refundRate

/-- The middle of `AddCrossShardTxDeposit`: take the value off the sender and leave a deposit.  The
result is the gas reserved for the other shard. -/
def depositValue (intrinsicGas : ℕ) (w : World) : Exec (ℕ × World) := do
  let w ← w.lift (w.db.subBalance msg.from msg.value msg.transferTokenID)
  match msg.to with
  | none =>
      let remoteGasReserved := sub64 msg.gas.toNat intrinsicGas
      let (nonce, db) := w.db.getNonce msg.from
      let recipient := m.createAddress msg.from (some msg.fromFullShardKey) nonce
      let deposit := crossShardDeposit cfg msg recipient remoteGasReserved true
      pure (remoteGasReserved, { w with db := db.appendXShardList deposit })
  | some recipient =>
      let remoteGasReserved :=
        if cfg.enableEvmTimeStamp ≤ w.db.block.timeStamp then sub64 msg.gas.toNat intrinsicGas else 0
      let deposit := crossShardDeposit cfg msg recipient remoteGasReserved false
      pure (remoteGasReserved, { w with db := w.db.appendXShardList deposit })

/-- The end of `AddCrossShardTxDeposit`: refund what is neither used here nor reserved, and charge the
fee; what the deposit costs is left to the other shard. -/
def settleCrossShard (remoteGasReserved : ℕ) (failed : Bool) : TransitionResult :=
  let gasRemained := sub64 (sub64 msg.gas.toNat st.gasUsed) remoteGasReserved
  let db := refund cfg msg st.world.db (gasRemained * msg.gasPrice)
  let localGasUsed := if failed then st.gasUsed else sub64 st.gasUsed gtxxShardCost
  let db := chargeFee cfg ctx msg st db localGasUsed
  { st with world := { st.world with db } }.done
    { ret := [], usedGas := db.block.gasUsed % 2 ^ 64, failed }

/-- `AddCrossShardTxDeposit`.  A locked sender loses all gas. -/
def addCrossShardTxDeposit (intrinsicGas : ℕ) : Exec TransitionResult :=
  let (can, world) := canTransfer st.world msg.from msg.value msg.transferTokenID
  if !can then .ok ({ st with world }.fail .insufficientBalance)
  else
    let (failed, world) := transferFailureByPoSWBalanceCheck cfg msg world
    if failed then .ok (settleCrossShard cfg ctx msg { st with gas := 0, world } 0 true)
    else do
      let (reserved, world) ← depositValue m cfg msg intrinsicGas world
      pure (settleCrossShard cfg ctx msg { st with world } reserved false)

def execute : Exec (List UInt8 × Option VmError × StateTransition) :=
  if msg.to.isNone || ctx.contractAddress.isSome then do
    let r ← m.create ctx msg.from msg.data st.gas msg.value ctx.contractAddress st.world
    pure (r.ret, r.err, { st with gas := r.leftOverGas, world := r.world })
  else
    let world := if ctx.isApplyXShard then st.world else countNonce msg st.world
    let (locked, world) := transferFailureByPoSWBalanceCheck cfg msg world
    if locked then .ok ([], some .poSWSenderNotAllowed, { st with gas := 0, world })
    else do
      let r ← m.call ctx msg.from (msg.to.getD 0) msg.data st.gas msg.value world
      pure (r.ret, r.err, { st with gas := r.leftOverGas, world := r.world })

/-- `TransitionDb` after the gas is paid for. -/
def transitionFrom (gas : ℕ) : Exec TransitionResult :=
  if st.gas < gas then .ok (st.fail .outOfGas)
  else
    let st := { st with gas := st.gas - gas }
    if msg.isCrossShard then
      addCrossShardTxDeposit m cfg ctx msg { st with world := countNonce msg st.world } gas
    else do
      let (ret, vmerr, st) ← execute m cfg ctx msg st
      if vmerr = some .insufficientBalance then pure (st.fail .insufficientBalance)
      else
        let st ← refundGas cfg msg st vmerr
        let db := chargeFee cfg ctx msg st st.world.db st.gasUsed
        let ret := if vmerr = some .poSWSenderNotAllowed then [] else ret
        pure ({ st with world := { st.world with db } }.done
          { ret, usedGas := st.gasUsed, failed := vmerr.isSome })

end

def transitionDb (m : Machine) (cfg : ChainConfig) (ctx : Context) (msg : Message) (gp : ℕ)
    (w : World) : Exec TransitionResult :=
  let st : StateTransition := { gp, gas := 0, initialGas := 0, world := w }
  if ctx.isApplyXShard then
    transitionFrom m cfg ctx msg (preFill ctx msg st) ctx.xShardGasUsedStart
  else do
    let (err, st) ← preCheck ctx msg st
    match err with
    | some err => pure (st.fail err)
    | none =>
        match intrinsicGas msg.data msg.to.isNone msg.isCrossShard with
        | none => pure (st.fail .outOfGas)
        | some gas => transitionFrom m cfg ctx msg st gas

end QuarkChain.Core
