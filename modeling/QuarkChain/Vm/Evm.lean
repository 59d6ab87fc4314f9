/-
# The virtual machine: execution

`Call`, `CallCode`, `DelegateCall`, `StaticCall` and `create` of `src/core/vm/evm.go`, the precompiles of
`contracts.go`, and the interpreter's side of every instruction that touches gas, state or other
frames (`interpreter.go`, `instructions.go`, `gas_table.go`).

The call functions and the code that a frame runs call each other; `ops` unrolls this to a given
nesting, each layer being built from the one below.  The depth limit bounds the nesting, so enough
fuel always gives the result.
-/
import QuarkChain.Vm.Types

namespace QuarkChain.Vm

open QuarkChain.Types
open State

/-- `params.CallCreateDepth`. -/
def callCreateDepth : ℕ := 1024

/-- `TOKENIDMAX`, the id of `ZZZZZZZZZZZZ`. -/
def tokenIDMax : ℕ := 4873763662273663091

/-- The five call functions, as one layer of frames sees them. -/
structure Ops where
  call : Scope → (caller addr : Recipient) → (input : List UInt8) → (gas value : ℕ) → World →
    Exec CallResult
  callCode : Scope → (caller addr : Recipient) → (input : List UInt8) → (gas value : ℕ) → World →
    Exec CallResult
  delegateCall : Scope → (parent : Contract) → (addr : Recipient) → (input : List UInt8) →
    (gas : ℕ) → World → Exec CallResult
  staticCall : Scope → (caller addr : Recipient) → (input : List UInt8) → (gas : ℕ) → World →
    Exec CallResult
  create : Scope → (caller : Recipient) → (code : List UInt8) → (gas value : ℕ) →
    (address : Recipient) → World → Exec CallResult

section

variable (env : Env) (ctx : Context)

/-- `CanTransfer`; reading the balance loads the account. -/
def canTransfer (w : World) (addr : Recipient) (amount : ℕ) (tokenID : TokenID) : Bool × World :=
  let (balance, db) := w.db.getBalance addr tokenID
  (amount ≤ balance, { w with db })

/-- `Transfer`; the debit may panic. -/
def transfer (w : World) (sender recipient : Recipient) (amount : ℕ) (tokenID : TokenID) :
    Exec World := do
  let w ← w.lift (w.db.subBalance sender amount tokenID)
  pure { w with db := w.db.addBalance recipient amount tokenID }

/-- A locked sender must keep the amount of the disallow map. -/
def transferFailureByPoswBalanceCheck (w : World) (addr : Recipient) (amount : ℕ) : Bool × World :=
  match w.db.block.senderDisallowMap addr with
  | none => (false, w)
  | some v =>
      let (balance, db) := w.db.getBalance addr env.defaultChainTokenID
      (balance < amount + v, { w with db })

/-- A contract that gets a native token has to ask for its id. -/
def checkTokenIDQueried (err : Option VmError) (contract : Contract) (transferTokenID : TokenID) :
    Option VmError :=
  if err.isNone && !contract.code.isEmpty && !contract.tokenIDQueried &&
      transferTokenID != env.defaultChainTokenID && contract.value != 0 then
    some .executionReverted
  else err

/-- The run fails and the gas is gone. -/
def RunResult.abort (contract : Contract) (w : World) (err : VmError) : RunResult :=
  { ret := [], err := some err, contract := { contract with gas := 0 }, world := w }

/-- The run fails; the caller decides about the gas. -/
def RunResult.fail (contract : Contract) (w : World) (err : VmError) : RunResult :=
  { ret := [], err := some err, contract := contract, world := w }

def RunResult.return (contract : Contract) (w : World) (ret : List UInt8) : RunResult :=
  { ret := ret, err := none, contract := contract, world := w }

/-- The token that is being transferred. -/
def currentMntID (scope : Scope) (contract : Contract) (w : World) : RunResult :=
  .return { contract with tokenIDQueried := true } w (toBytes 32 scope.transferTokenID)

/-- The transfer of a native token, by a call with another transfer token. -/
def transferMnt (ops : Ops) (scope : Scope) (contract : Contract) (input : List UInt8) (w : World) :
    Exec RunResult :=
  let toAddr := toAddress (getWord input 0)
  let tokenID := getWord input 32
  let value := getWord input 64
  if input.length < 96 then .ok (.abort contract w .transferMntShortInput)
  else if contract.isStaticCall then .ok (.abort contract w .transferMntStaticCall)
  else if tokenIDMax < tokenID then .ok (.abort contract w .tokenIDTooLarge)
  else if toAddr = transferMntAddr then .ok (.abort contract w .transferMntToItself)
  else
    let (exist, db) := if 0 < value then w.db.exist toAddr else (true, w.db)
    let w := { w with db }
    let gasCost := (if 0 < value then 9000 else 0) + if exist then 0 else 25000
    if contract.gas < gasCost then .ok (.abort contract w .transferMntOutOfGas)
    else
      let contract := { contract with gas := contract.gas - gasCost }
      let (balance, db) := w.db.getBalance contract.callerAddress tokenID
      let w := { w with db }
      if balance < value ∨ callCreateDepth ≤ scope.depth then
        .ok (.fail contract w .executionReverted)
      else do
        let gasToCall := contract.gas + if 0 < value then 2300 else 0
        let r ← ops.call { scope with transferTokenID := tokenID } contract.caller toAddr
          (input.drop 96) gasToCall value w
        pure
          { ret := r.ret
            err := checkTokenIDQueried env r.err contract tokenID
            contract := { contract with gas := r.leftOverGas }
            world := r.world }

/-- The index of `deploySystemContract`: the low 64 bits of the first word, as a signed integer;
`0` stands for `1`. -/
def systemContractIndex (input : List UInt8) : ℤ :=
  let index : ℕ := getWord input 0 % 2 ^ 64
  if index = 0 then 1 else if index < 2 ^ 63 then index else (index : ℤ) - 2 ^ 64

/-- `SystemContracts`, by index. -/
def systemContract (contractIndex : ℤ) : Option SystemContract :=
  if contractIndex = 1 then some .rootChainPoSW
  else if contractIndex = 2 then some .nonReservedNativeToken
  else if contractIndex = 3 then some .generalNativeToken
  else none

/-- The chain and the time at which a system contract may be deployed. -/
def deployable (c : SystemContract) : Option VmError :=
  if c.onlyChain0 && env.chainID != 0 then some .chainIDNotZero
  else if ctx.time < env.timestamp c then some .timestampNotMatch
  else none

/-- An index below `4` that names no contract panics. -/
def deploySystemContract (ops : Ops) (scope : Scope) (contract : Contract) (input : List UInt8)
    (w : World) : Exec RunResult :=
  let contractIndex := systemContractIndex input
  if 4 ≤ contractIndex then .ok (.abort contract w .invalidSystemContractIndex)
  else
    match systemContract contractIndex with
    | none => .error (.panic .systemContractScope)
    | some c =>
        match deployable env ctx c with
        | some err => .ok (.abort contract w err)
        | none => do
            let r ← ops.create scope contract.self (env.bytecode c) contract.gas 0 c.address w
            match r.err with
            | some err => pure (.abort contract r.world err)
            | none =>
                pure (.return { contract with gas := r.leftOverGas } r.world
                  (toBytes 20 c.address.toNat))

/-- The checks of `mintMNT` on its input. -/
def mintRejected (input : List UInt8) : Option VmError :=
  let tokenID := getWord input 32 % 2 ^ 64
  if getWord input 64 = 0 then some .mintZeroAmountMNT
  else if tokenIDMax < tokenID then some .tokenIDTooLarge
  else if env.chainID ≠ 0 then some .chainIDNotZero
  else if tokenID = env.defaultChainTokenID then some .defaultTokenNotMintable
  else none

/-- Only the contract for native tokens may mint. -/
def mintMNT (contract : Contract) (input : List UInt8) (w : World) : RunResult :=
  let minter := toAddress (getWord input 0)
  match mintRejected env input with
  | some .tokenIDTooLarge => .fail contract w .tokenIDTooLarge
  | some err => .abort contract w err
  | none =>
      let (exist, db) := w.db.exist minter
      let w := { w with db }
      if !exist && contract.gas < 25000 then .abort contract w .outOfGas
      else
        let contract := { contract with gas := contract.gas - if exist then 0 else 25000 }
        if contract.callerAddress ≠ SystemContract.nonReservedNativeToken.address then
          .abort contract w .invalidSender
        else
          .return contract (w.mint minter (getWord input 64) (getWord input 32 % 2 ^ 64)) (toBytes 32 1)

/-- The balance of an account in a token. -/
def balanceMNT (contract : Contract) (input : List UInt8) (w : World) : RunResult :=
  let tokenID := getWord input 32 % 2 ^ 64
  if tokenIDMax < tokenID then .fail contract w .tokenIDTooLarge
  else
    let (balance, db) := w.db.getBalance (toAddress (getWord input 0)) tokenID
    .return contract { w with db } (toBytes 32 balance)

/-- `RequiredGas` of a precompile. -/
def requiredGas (p : Precompile) (input : List UInt8) : ℕ :=
  match p with
  | .crypto i => env.cryptoGas i input
  | .currentMntID => 3
  | .transferMnt => 0
  | .deploySystemContract => 3
  | .mintMNT => 9000
  | .balanceMNT => 400

/-- `Run` of a precompile. -/
def runPrecompile (ops : Ops) (scope : Scope) (p : Precompile) (contract : Contract)
    (input : List UInt8) (w : World) : Exec RunResult :=
  match p with
  | .crypto i =>
      match env.crypto i input with
      | some ret => .ok (.return contract w ret)
      | none => .ok (.fail contract w .cryptoPrecompile)
  | .currentMntID => .ok (currentMntID scope contract w)
  | .transferMnt => transferMnt env ops scope contract input w
  | .deploySystemContract => deploySystemContract env ctx ops scope contract input w
  | .mintMNT => .ok (mintMNT env contract input w)
  | .balanceMNT => .ok (balanceMNT contract input w)

/-- The gas is paid before the precompile runs. -/
def runPrecompiledContract (ops : Ops) (scope : Scope) (p : Precompile) (contract : Contract)
    (input : List UInt8) (w : World) : Exec RunResult :=
  if contract.gas < requiredGas env p input then .ok (.fail contract w .outOfGas)
  else
    runPrecompile env ctx ops scope p { contract with gas := contract.gas - requiredGas env p input } input w

def Contract.useGas (contract : Contract) (gas : ℕ) : Option Contract :=
  if contract.gas < gas then none else some { contract with gas := contract.gas - gas }

/-- `callGas`: the gas a call instruction passes on, all but one 64th at most. -/
def callGas (available requested : ℕ) : ℕ := min requested (available - available / 64)

/-- The gas that `CALL` and `CALLCODE` charge and pass on: `base` for the call itself, and at most what
was asked for. `none` is out of gas. -/
def chargeCall (contract : Contract) (base requested : ℕ) : Option (Contract × ℕ) :=
  (contract.useGas base).map fun c =>
    ({ c with gas := c.gas - callGas c.gas requested }, callGas c.gas requested)

def callStatus : Option VmError → CallStatus
  | none => .success
  | some .executionReverted => .reverted
  | some _ => .failed

/-- The frame after a call instruction: the gas left comes back, and asking `currentMntID` is
remembered (`ModifyTokenIDQueried`). -/
def Contract.afterCall (contract : Contract) (addr : Recipient) (leftOverGas : ℕ) : Contract :=
  { contract with
    gas := contract.gas + leftOverGas
    tokenIDQueried := contract.tokenIDQueried || addr == currentMntIDAddr }

/-- The gas of `SSTORE` and the refund that it earns. -/
def gasSStore (current value : Hash) : ℕ × ℕ :=
  if current = 0 ∧ value ≠ 0 then (20000, 0)
  else if current ≠ 0 ∧ value = 0 then (5000, 15000)
  else (5000, 0)

/-- The gas of `SELFDESTRUCT`; a new beneficiary costs more. -/
def gasSuicide (db : StateDB) (self beneficiary : Recipient) : ℕ × StateDB :=
  let (empty, db) := db.empty beneficiary
  let (balance, db) := if empty then db.getBalance self env.defaultChainTokenID else (0, db)
  let cost := 5000 + if empty ∧ balance ≠ 0 then 25000 else 0
  let (suicided, db) := db.hasSuicided self
  (cost, if suicided then db else db.addRefund 24000)

/-- The interpreter's loop over the requests of a frame's code. -/
def runProg (ops : Ops) (scope : Scope) : Prog → Contract → World → Exec RunResult
  | .stop ret, c, w => .ok (.return c w ret)
  | .revert ret, c, w =>
      .ok { ret := ret, err := some .executionReverted, contract := c, world := w }
  | .fault e, c, w => .ok (.fail c w (.fault e))
  | .useGas cost k, c, w =>
      match c.useGas cost with
      | none => .ok (.fail c w .outOfGas)
      | some c => runProg ops scope k c w
  | .gas k, c, w => runProg ops scope (k c.gas) c w
  | .balance cost addr k, c, w =>
      match c.useGas cost with
      | none => .ok (.fail c w .outOfGas)
      | some c =>
          let (balance, db) := w.db.getBalance addr env.defaultChainTokenID
          runProg ops scope (k balance) c { w with db }
  | .extCode cost addr k, c, w =>
      match c.useGas cost with
      | none => .ok (.fail c w .outOfGas)
      | some c =>
          let (code, db) := w.db.getCode addr
          runProg ops scope (k code) c { w with db }
  | .extCodeHash cost addr k, c, w =>
      match c.useGas cost with
      | none => .ok (.fail c w .outOfGas)
      | some c =>
          let (empty, db) := w.db.empty addr
          if empty then runProg ops scope (k none) c { w with db }
          else
            let (code, db) := db.getCode addr
            runProg ops scope (k (some code)) c { w with db }
  | .sload cost key k, c, w =>
      match c.useGas cost with
      | none => .ok (.fail c w .outOfGas)
      | some c =>
          let (value, db) := w.db.getState c.self key
          runProg ops scope (k value) c { w with db }
  | .sstore key value k, c, w =>
      if scope.readOnly then .ok (.fail c w .writeProtection)
      else
        let (current, db) := w.db.getState c.self key
        let (cost, refund) := gasSStore current value
        let db := if refund = 0 then db else db.addRefund refund
        match c.useGas cost with
        | none => .ok (.fail c { w with db } .outOfGas)
        | some c => runProg ops scope k c { w with db := db.setState c.self key value }
  | .log cost topics data k, c, w =>
      if scope.readOnly then .ok (.fail c w .writeProtection)
      else
        match c.useGas cost with
        | none => .ok (.fail c w .outOfGas)
        | some c =>
            let log : Log :=
              { address := c.self, topics, data, blockNumber := ctx.blockNumber, txHash := 0,
                blockHash := 0, txIndex := 0, index := 0 }
            runProg ops scope k c { w with db := w.db.addLog log }
  | .create cost value code k, c, w =>
      if scope.readOnly then .ok (.fail c w .writeProtection)
      else
        match c.useGas cost with
        | none => .ok (.fail c w .outOfGas)
        | some c => do
            let gas := c.gas - c.gas / 64
            let (nonce, db) := w.db.getNonce c.self
            let address := env.createAddress c.self ctx.toFullShardKey nonce
            let r ← ops.create scope c.self code gas value address { w with db }
            let c := Contract.afterCall { c with gas := c.gas - gas } c.codeAddr r.leftOverGas
            let ret := if callStatus r.err = .reverted then r.ret else []
            runProg ops scope (k (if r.err.isNone then some address else none) ret) c r.world
  | .create2 cost value code salt k, c, w =>
      if scope.readOnly then .ok (.fail c w .writeProtection)
      else
        match c.useGas cost with
        | none => .ok (.fail c w .outOfGas)
        | some c => do
            let gas := c.gas - c.gas / 64
            let address := env.createAddress2 c.self salt code
            let r ← ops.create scope c.self code gas value address w
            let c := { c with gas := c.gas - gas + r.leftOverGas }
            let ret := if callStatus r.err = .reverted then r.ret else []
            runProg ops scope (k (if r.err.isNone then some address else none) ret) c r.world
  | .call cost gas addr value input k, c, w =>
      if scope.readOnly ∧ value ≠ 0 then .ok (.fail c w .writeProtection)
      else
        let (empty, db) := if value ≠ 0 then w.db.empty addr else (false, w.db)
        let w := { w with db }
        let base := cost + 700 + (if empty then 25000 else 0) + if value ≠ 0 then 9000 else 0
        match chargeCall c base gas with
        | none => .ok (.fail c w .outOfGas)
        | some (c, passed) => do
            let r ← ops.call scope c.self addr input (passed + if value ≠ 0 then 2300 else 0) value w
            runProg ops scope (k (callStatus r.err) r.ret) (c.afterCall addr r.leftOverGas) r.world
  | .callCode cost gas addr value input k, c, w =>
      match chargeCall c (cost + 700 + if value ≠ 0 then 9000 else 0) gas with
      | none => .ok (.fail c w .outOfGas)
      | some (c, passed) => do
          let r ← ops.callCode scope c.self addr input (passed + if value ≠ 0 then 2300 else 0) value w
          runProg ops scope (k (callStatus r.err) r.ret) (c.afterCall addr r.leftOverGas) r.world
  | .delegateCall cost gas addr input k, c, w =>
      match chargeCall c (cost + 700) gas with
      | none => .ok (.fail c w .outOfGas)
      | some (c, passed) => do
          let r ← ops.delegateCall scope c addr input passed w
          runProg ops scope (k (callStatus r.err) r.ret) (c.afterCall addr r.leftOverGas) r.world
  | .staticCall cost gas addr input k, c, w =>
      match chargeCall c (cost + 700) gas with
      | none => .ok (.fail c w .outOfGas)
      | some (c, passed) => do
          let r ← ops.staticCall scope c.self addr input passed w
          runProg ops scope (k (callStatus r.err) r.ret) (c.afterCall addr r.leftOverGas) r.world
  | .selfdestruct beneficiary, c, w =>
      if scope.readOnly then .ok (.fail c w .writeProtection)
      else
        let (cost, db) := gasSuicide env w.db c.self beneficiary
        match c.useGas cost with
        | none => .ok (.fail c { w with db } .outOfGas)
        | some c =>
            let (balance, db) := db.getBalance c.self env.defaultChainTokenID
            let db := db.addBalance beneficiary balance env.defaultChainTokenID
            .ok (.return c { w with db := (db.suicide c.self).2 } [])

/-- Precompiles are run outside the interpreter. -/
def run (ops : Ops) (scope : Scope) (contract : Contract) (input : List UInt8) (readOnly : Bool)
    (w : World) : Exec RunResult :=
  let interpret : Exec RunResult :=
    if contract.code.isEmpty then .ok (.return contract w [])
    else
      runProg env ctx ops
        { scope with depth := scope.depth + 1, readOnly := scope.readOnly || readOnly }
        (env.interp ctx contract input) contract w
  match precompiles contract.codeAddr with
  | none => interpret
  | some p =>
      if env.enableTime p < w.db.block.timeStamp then
        runPrecompiledContract env ctx ops scope p contract input w
      else interpret

/-- The end of a call function: on an error go back to the snapshot. -/
def finish (scope : Scope) (mark : Mark) (r : RunResult) : Exec CallResult :=
  match checkTokenIDQueried env r.err r.contract scope.transferTokenID with
  | none => .ok { ret := r.ret, leftOverGas := r.contract.gas, err := none, world := r.world }
  | some err => do
      let w ← r.world.revertTo mark
      let gas := if err = .executionReverted then r.contract.gas else 0
      pure { ret := r.ret, leftOverGas := gas, err := some err, world := w }

def CallResult.early (w : World) (gas : ℕ) (err : Option VmError) : CallResult :=
  { ret := [], leftOverGas := gas, err := err, world := w }

/-- The two checks on a sender before value moves. -/
def checkSender (w : World) (caller : Recipient) (gas value : ℕ) (tokenID : TokenID)
    (k : World → Exec CallResult) : Exec CallResult :=
  let (can, w) := canTransfer w caller value tokenID
  if !can then .ok (.early w gas (some .insufficientBalance))
  else
    let (locked, w) := transferFailureByPoswBalanceCheck env w caller value
    if locked then .ok (.early w 0 (some .poSWSenderNotAllowed)) else k w

/-- `EVM.Call`. -/
def call (ops : Ops) (scope : Scope) (caller addr : Recipient) (input : List UInt8)
    (gas value : ℕ) (w : World) : Exec CallResult :=
  if callCreateDepth < scope.depth then .ok (.early w gas (some .depth))
  else
    checkSender env w caller gas value scope.transferTokenID fun w =>
      let mark := w.mark
      let (exist, db) := w.marked.db.exist addr
      if !exist && (precompiles addr).isNone && value == 0 then
        .ok (.early { w with db } gas none)
      else do
        let db := if exist then db else db.createAccount addr
        let w ← transfer { w with db } caller addr value scope.transferTokenID
        let (code, db) := w.db.getCode addr
        let contract : Contract :=
          { callerAddress := caller, caller, self := addr, code, codeAddr := addr, gas, value }
        let r ← run env ctx ops scope contract input false { w with db }
        finish env scope mark r

/-- `EVM.CallCode`: the code of `addr` in the caller's own account. -/
def callCode (ops : Ops) (scope : Scope) (caller addr : Recipient) (input : List UInt8)
    (gas value : ℕ) (w : World) : Exec CallResult :=
  if callCreateDepth < scope.depth then .ok (.early w gas (some .depth))
  else
    checkSender env w caller gas value scope.transferTokenID fun w => do
      let (code, db) := w.marked.db.getCode addr
      let contract : Contract :=
        { callerAddress := caller, caller, self := caller, code, codeAddr := addr, gas, value }
      let r ← run env ctx ops scope contract input false { w with db }
      finish env scope w.mark r

/-- `EVM.DelegateCall`: caller and value of the parent frame are kept. -/
def delegateCall (ops : Ops) (scope : Scope) (parent : Contract) (addr : Recipient)
    (input : List UInt8) (gas : ℕ) (w : World) : Exec CallResult :=
  if callCreateDepth < scope.depth then .ok (.early w gas (some .depth))
  else
    let mark := w.mark
    let (code, db) := w.marked.db.getCode addr
    let contract : Contract :=
      { callerAddress := parent.callerAddress, caller := parent.self, self := parent.self, code,
        codeAddr := addr, gas, value := parent.value }
    let (locked, w) := transferFailureByPoswBalanceCheck env { w with db } parent.self parent.value
    if locked then .ok (.early w 0 (some .poSWSenderNotAllowed))
    else do
      let r ← run env ctx ops scope contract input false w
      finish env scope mark r

/-- `EVM.StaticCall`: the frame is read-only and marked as static. -/
def staticCall (ops : Ops) (scope : Scope) (caller addr : Recipient) (input : List UInt8)
    (gas : ℕ) (w : World) : Exec CallResult :=
  if callCreateDepth < scope.depth then .ok (.early w gas (some .depth))
  else
    let mark := w.mark
    let (code, db) := w.marked.db.getCode addr
    let contract : Contract :=
      { callerAddress := caller, caller, self := addr, code, codeAddr := addr, gas, value := 0,
        isStaticCall := true }
    let (locked, w) := transferFailureByPoswBalanceCheck env { w with db } caller 0
    if locked then .ok (.early w 0 (some .poSWSenderNotAllowed))
    else do
      let w := { w with db := w.db.addBalance addr 0 env.defaultChainTokenID }
      let r ← run env ctx ops scope contract input true w
      finish env scope mark r

def maxCodeSize : ℕ := 24576

/-- The end of `create`: store the code if its gas can be paid. -/
def finishCreate (scope : Scope) (mark : Mark) (address : Recipient) (r : RunResult) : Exec CallResult :=
  let tooLong := maxCodeSize < r.ret.length
  match checkTokenIDQueried env r.err r.contract scope.transferTokenID with
  | none =>
      if tooLong then do
        let w ← r.world.revertTo mark
        pure { ret := r.ret, leftOverGas := 0, err := some .maxCodeSizeExceeded, world := w }
      else
        match r.contract.useGas (r.ret.length * 200) with
        | some c =>
            .ok
              { ret := r.ret, leftOverGas := c.gas, err := none,
                world := { r.world with db := r.world.db.setCode address r.ret } }
        | none => do
            let w ← r.world.revertTo mark
            pure { ret := r.ret, leftOverGas := 0, err := some .codeStoreOutOfGas, world := w }
  | some err => do
      let w ← r.world.revertTo mark
      let gas := if err = .executionReverted then r.contract.gas else 0
      pure { ret := r.ret, leftOverGas := gas, err := some err, world := w }

/-- The nonce that `create` counts up in the caller, unless a deposit is being applied for it. -/
def takeNonce (db : StateDB) (caller : Recipient) : StateDB :=
  if ctx.isApplyXShard && ctx.origin == caller then db
  else (db.getNonce caller).2.setNonce caller ((db.getNonce caller).1 + 1)

/-- `create` from the snapshot on: set up the account and run the code. -/
def createFrame (ops : Ops) (scope : Scope) (caller : Recipient) (code : List UInt8)
    (gas value : ℕ) (address : Recipient) (w : World) : Exec CallResult := do
  let mark := w.mark
  let db := (w.marked.db.createAccount address).setNonce address 1
  let w ← transfer { w with db } caller address value scope.transferTokenID
  let contract : Contract :=
    { callerAddress := caller, caller, self := address, code, codeAddr := address, gas, value }
  let r ← run env ctx ops scope contract [] false w
  finishCreate env scope mark address r

/-- `EVM.create`, under a given address. -/
def create (ops : Ops) (scope : Scope) (caller : Recipient) (code : List UInt8) (gas value : ℕ)
    (address : Recipient) (w : World) : Exec CallResult :=
  if callCreateDepth < scope.depth then .ok (.early w gas (some .depth))
  else
    let (can, w) := canTransfer w caller value scope.transferTokenID
    if !can then .ok (.early w gas (some .insufficientBalance))
    else
      let db := takeNonce ctx w.db caller
      if scope.transferTokenID ≠ env.defaultChainTokenID then
        .ok (.early { w with db } gas (some .createOnlyDefaultToken))
      else
        let (deployed, db) := db.getCode address
        let (nonce, db) := db.getNonce address
        if nonce ≠ 0 ∨ deployed ≠ [] then
          .ok (.early { w with db } 0 (some .contractAddressCollision))
        else
          let (locked, w) := transferFailureByPoswBalanceCheck env { w with db } caller value
          if locked then .ok (.early w 0 (some .poSWSenderNotAllowed))
          else createFrame env ctx ops scope caller code gas value address w

/-- No more layers: every call runs out of fuel. -/
def Ops.stuck : Ops where
  call _ _ _ _ _ _ _ := .error .outOfFuel
  callCode _ _ _ _ _ _ _ := .error .outOfFuel
  delegateCall _ _ _ _ _ _ := .error .outOfFuel
  staticCall _ _ _ _ _ _ := .error .outOfFuel
  create _ _ _ _ _ _ _ := .error .outOfFuel

/-- One more layer of frames. -/
def nextOps (lower : Ops) : Ops where
  call := call env ctx lower
  callCode := callCode env ctx lower
  delegateCall := delegateCall env ctx lower
  staticCall := staticCall env ctx lower
  create := create env ctx lower

/-- The call functions with `fuel` layers of frames. -/
def ops : ℕ → Ops
  | 0 => .stuck
  | fuel + 1 => nextOps env ctx (ops fuel)

end
end QuarkChain.Vm
