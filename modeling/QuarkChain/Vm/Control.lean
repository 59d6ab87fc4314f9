/-
# Where control goes

The machine of `QuarkChain.Vm.Evm`, cut where control passes on.  A `Request` is a call function with
its arguments.  Entering it gives a `Frame`, starting a frame gives the loop or a request of a precompile,
and one instruction of the loop ends it, goes on, or makes a request and goes on with its result.

The three equations `exec_nextOps`, `run_eq_start` and `runProg_eq_next` put the pieces together again:
nothing happens between the cuts.  `Passes` is the way control takes, and `Request.Moves` collects the
movements of value on it.
-/
import Mathlib.Logic.Relation
import QuarkChain.Lib.Outcome
import QuarkChain.Vm.Evm

namespace QuarkChain.Vm

open QuarkChain.Types
open State
open Outcome

variable {tokenID : TokenID}

theorem transfer_eq_ok {w w' : World} {sender recipient : Recipient} {amount : ℕ} :
    transfer w sender recipient amount tokenID = .ok w' ↔
      ∃ db, w.db.subBalance sender amount tokenID = .ok db ∧
        w' = { w with db := db.addBalance recipient amount tokenID } := by
  unfold transfer
  cases w.db.subBalance sender amount tokenID with
  | error e => exact ⟨nofun, nofun⟩
  | ok db => simp [World.lift, bind, Except.bind, pure, Except.pure, eq_comm]

/-- A call function that is asked for. -/
inductive Request
  | call (scope : Scope) (caller addr : Recipient) (input : List UInt8) (gas value : ℕ) (w : World)
  | callCode (scope : Scope) (caller addr : Recipient) (input : List UInt8) (gas value : ℕ) (w : World)
  | delegateCall (scope : Scope) (parent : Contract) (addr : Recipient) (input : List UInt8) (gas : ℕ)
      (w : World)
  | staticCall (scope : Scope) (caller addr : Recipient) (input : List UInt8) (gas : ℕ) (w : World)
  | create (scope : Scope) (caller : Recipient) (code : List UInt8) (gas value : ℕ)
      (address : Recipient) (w : World)

namespace Request

def exec (ops : Ops) : Request → Exec CallResult
  | .call scope caller addr input gas value w => ops.call scope caller addr input gas value w
  | .callCode scope caller addr input gas value w => ops.callCode scope caller addr input gas value w
  | .delegateCall scope parent addr input gas w => ops.delegateCall scope parent addr input gas w
  | .staticCall scope caller addr input gas w => ops.staticCall scope caller addr input gas w
  | .create scope caller code gas value address w => ops.create scope caller code gas value address w

def world : Request → World
  | .call _ _ _ _ _ _ w | .callCode _ _ _ _ _ _ w | .delegateCall _ _ _ _ _ w
  | .staticCall _ _ _ _ _ w | .create _ _ _ _ _ _ w => w

def scope : Request → Scope
  | .call scope _ _ _ _ _ _ | .callCode scope _ _ _ _ _ _ | .delegateCall scope _ _ _ _ _
  | .staticCall scope _ _ _ _ _ | .create scope _ _ _ _ _ _ => scope

def gas : Request → ℕ
  | .call _ _ _ _ gas _ _ | .callCode _ _ _ _ gas _ _ | .delegateCall _ _ _ _ gas _
  | .staticCall _ _ _ _ gas _ | .create _ _ _ gas _ _ _ => gas

def target : Request → Recipient
  | .call _ _ addr _ _ _ _ | .callCode _ _ addr _ _ _ _ | .delegateCall _ _ addr _ _ _
  | .staticCall _ _ addr _ _ _ | .create _ _ _ _ _ addr _ => addr

end Request

def opSuicide (env : Env) (w : World) (self beneficiary : Recipient) : World :=
  let (balance, db) := w.db.getBalance self env.defaultChainTokenID
  let db := db.addBalance beneficiary balance env.defaultChainTokenID
  { w with db := (db.suicide self).2 }

section

variable (env : Env) (ctx : Context)

/-- What the loop does next: it ends, goes on, makes a request, or ends the account. -/
inductive Next
  | done (r : RunResult)
  | goto (p : Prog) (c : Contract) (w : World)
  | spawn (q : Request) (resume : CallResult → Prog × Contract × World)
  | destroy (c : Contract) (beneficiary : Recipient) (w : World)

def charged (c : Contract) (cost : ℕ) (w : World) (k : Contract → Next) : Next :=
  match c.useGas cost with
  | none => .done (.fail c w .outOfGas)
  | some c => k c

def chargedCall (c : Contract) (base requested : ℕ) (w : World) (k : Contract → ℕ → Next) : Next :=
  match chargeCall c base requested with
  | none => .done (.fail c w .outOfGas)
  | some (c, passed) => k c passed

def next (scope : Scope) : Prog → Contract → World → Next
  | .stop ret, c, w => .done (.return c w ret)
  | .revert ret, c, w =>
      .done { ret := ret, err := some .executionReverted, contract := c, world := w }
  | .fault e, c, w => .done (.fail c w (.fault e))
  | .useGas cost k, c, w => charged c cost w fun c => .goto k c w
  | .gas k, c, w => .goto (k c.gas) c w
  | .balance cost addr k, c, w => charged c cost w fun c =>
      let (balance, db) := w.db.getBalance addr env.defaultChainTokenID
      .goto (k balance) c { w with db }
  | .extCode cost addr k, c, w => charged c cost w fun c =>
      let (code, db) := w.db.getCode addr
      .goto (k code) c { w with db }
  | .extCodeHash cost addr k, c, w => charged c cost w fun c =>
      let (empty, db) := w.db.empty addr
      if empty then .goto (k none) c { w with db }
      else
        let (code, db) := db.getCode addr
        .goto (k (some code)) c { w with db }
  | .sload cost key k, c, w => charged c cost w fun c =>
      let (value, db) := w.db.getState c.self key
      .goto (k value) c { w with db }
  | .sstore key value k, c, w =>
      if scope.readOnly then .done (.fail c w .writeProtection)
      else
        let (current, db) := w.db.getState c.self key
        let (cost, refund) := gasSStore current value
        let db := if refund = 0 then db else db.addRefund refund
        charged c cost { w with db } fun c => .goto k c { w with db := db.setState c.self key value }
  | .log cost topics data k, c, w =>
      if scope.readOnly then .done (.fail c w .writeProtection)
      else
        charged c cost w fun c =>
          let log : Log :=
            { address := c.self, topics, data, blockNumber := ctx.blockNumber, txHash := 0,
              blockHash := 0, txIndex := 0, index := 0 }
          .goto k c { w with db := w.db.addLog log }
  | .create cost value code k, c, w =>
      if scope.readOnly then .done (.fail c w .writeProtection)
      else
        charged c cost w fun c =>
          let gas := c.gas - c.gas / 64
          let (nonce, db) := w.db.getNonce c.self
          let address := env.createAddress c.self ctx.toFullShardKey nonce
          .spawn (.create scope c.self code gas value address { w with db }) fun r =>
            (k (if r.err.isNone then some address else none)
              (if callStatus r.err = .reverted then r.ret else []),
              Contract.afterCall { c with gas := c.gas - gas } c.codeAddr r.leftOverGas, r.world)
  | .create2 cost value code salt k, c, w =>
      if scope.readOnly then .done (.fail c w .writeProtection)
      else
        charged c cost w fun c =>
          let gas := c.gas - c.gas / 64
          let address := env.createAddress2 c.self salt code
          .spawn (.create scope c.self code gas value address w) fun r =>
            (k (if r.err.isNone then some address else none)
              (if callStatus r.err = .reverted then r.ret else []),
              { c with gas := c.gas - gas + r.leftOverGas }, r.world)
  | .call cost gas addr value input k, c, w =>
      if scope.readOnly ∧ value ≠ 0 then .done (.fail c w .writeProtection)
      else
        let (empty, db) := if value ≠ 0 then w.db.empty addr else (false, w.db)
        let w := { w with db }
        let base := cost + 700 + (if empty then 25000 else 0) + if value ≠ 0 then 9000 else 0
        chargedCall c base gas w fun c passed =>
          .spawn (.call scope c.self addr input (passed + if value ≠ 0 then 2300 else 0) value w)
            fun r => (k (callStatus r.err) r.ret, c.afterCall addr r.leftOverGas, r.world)
  | .callCode cost gas addr value input k, c, w =>
      chargedCall c (cost + 700 + if value ≠ 0 then 9000 else 0) gas w fun c passed =>
        .spawn (.callCode scope c.self addr input (passed + if value ≠ 0 then 2300 else 0) value w)
          fun r => (k (callStatus r.err) r.ret, c.afterCall addr r.leftOverGas, r.world)
  | .delegateCall cost gas addr input k, c, w =>
      chargedCall c (cost + 700) gas w fun c passed =>
        .spawn (.delegateCall scope c addr input passed w)
          fun r => (k (callStatus r.err) r.ret, c.afterCall addr r.leftOverGas, r.world)
  | .staticCall cost gas addr input k, c, w =>
      chargedCall c (cost + 700) gas w fun c passed =>
        .spawn (.staticCall scope c.self addr input passed w)
          fun r => (k (callStatus r.err) r.ret, c.afterCall addr r.leftOverGas, r.world)
  | .selfdestruct beneficiary, c, w =>
      if scope.readOnly then .done (.fail c w .writeProtection)
      else
        let (cost, db) := gasSuicide env w.db c.self beneficiary
        charged c cost { w with db } fun c => .destroy c beneficiary { w with db }

def Next.proceed (ops : Ops) (scope : Scope) : Next → Exec RunResult
  | .done r => .ok r
  | .goto p c w => runProg env ctx ops scope p c w
  | .spawn q resume => do
      let r ← q.exec ops
      runProg env ctx ops scope (resume r).1 (resume r).2.1 (resume r).2.2
  | .destroy c beneficiary w => .ok (.return c (opSuicide env w c.self beneficiary) [])

/-- How a frame starts: it is over at once, its loop runs, or a precompile makes a request. -/
inductive Start
  | done (r : RunResult)
  | loop (scope : Scope) (p : Prog) (c : Contract) (w : World)
  | spawn (q : Request) (finish : CallResult → RunResult)

def Start.proceed (ops : Ops) : Start → Exec RunResult
  | .done r => .ok r
  | .loop scope p c w => runProg env ctx ops scope p c w
  | .spawn q finish => do
      let r ← q.exec ops
      pure (finish r)

def startTransferMnt (scope : Scope) (contract : Contract) (input : List UInt8) (w : World) : Start :=
  let toAddr := toAddress (getWord input 0)
  let tokenID := getWord input 32
  let value := getWord input 64
  if input.length < 96 then .done (.abort contract w .transferMntShortInput)
  else if contract.isStaticCall then .done (.abort contract w .transferMntStaticCall)
  else if tokenIDMax < tokenID then .done (.abort contract w .tokenIDTooLarge)
  else if toAddr = transferMntAddr then .done (.abort contract w .transferMntToItself)
  else
    let (exist, db) := if 0 < value then w.db.exist toAddr else (true, w.db)
    let w := { w with db }
    let gasCost := (if 0 < value then 9000 else 0) + if exist then 0 else 25000
    if contract.gas < gasCost then .done (.abort contract w .transferMntOutOfGas)
    else
      let contract := { contract with gas := contract.gas - gasCost }
      let (balance, db) := w.db.getBalance contract.callerAddress tokenID
      let w := { w with db }
      if balance < value ∨ callCreateDepth ≤ scope.depth then
        .done (.fail contract w .executionReverted)
      else
        .spawn
          (.call { scope with transferTokenID := tokenID } contract.caller toAddr (input.drop 96)
            (contract.gas + if 0 < value then 2300 else 0) value w)
          fun r =>
            { ret := r.ret
              err := checkTokenIDQueried env r.err contract tokenID
              contract := { contract with gas := r.leftOverGas }
              world := r.world }

def startDeploySystemContract (scope : Scope) (contract : Contract) (input : List UInt8) (w : World) :
    Exec Start :=
  if 4 ≤ systemContractIndex input then .ok (.done (.abort contract w .invalidSystemContractIndex))
  else
    match systemContract (systemContractIndex input) with
    | none => .error (.panic .systemContractScope)
    | some c =>
        match deployable env ctx c with
        | some err => .ok (.done (.abort contract w err))
        | none =>
            .ok (.spawn (.create scope contract.self (env.bytecode c) contract.gas 0 c.address w)
              fun r =>
                match r.err with
                | some err => .abort contract r.world err
                | none => .return { contract with gas := r.leftOverGas } r.world
                    (toBytes 20 c.address.toNat))

def startPrecompile (scope : Scope) (p : Precompile) (contract : Contract) (input : List UInt8)
    (w : World) : Exec Start :=
  match p with
  | .crypto i =>
      match env.crypto i input with
      | some ret => .ok (.done (.return contract w ret))
      | none => .ok (.done (.fail contract w .cryptoPrecompile))
  | .currentMntID => .ok (.done (currentMntID scope contract w))
  | .transferMnt => .ok (startTransferMnt env scope contract input w)
  | .deploySystemContract => startDeploySystemContract env ctx scope contract input w
  | .mintMNT => .ok (.done (mintMNT env contract input w))
  | .balanceMNT => .ok (.done (balanceMNT contract input w))

def startPrecompiledContract (scope : Scope) (p : Precompile) (contract : Contract)
    (input : List UInt8) (w : World) : Exec Start :=
  if contract.gas < requiredGas env p input then .ok (.done (.fail contract w .outOfGas))
  else
    startPrecompile env ctx scope p { contract with gas := contract.gas - requiredGas env p input } input w

/-- `run` up to the loop or the request of a precompile. -/
def start (scope : Scope) (contract : Contract) (input : List UInt8) (readOnly : Bool) (w : World) :
    Exec Start :=
  let interpret : Exec Start :=
    if contract.code.isEmpty then .ok (.done (.return contract w []))
    else
      .ok (.loop { scope with depth := scope.depth + 1, readOnly := scope.readOnly || readOnly }
        (env.interp ctx contract input) contract w)
  match precompiles contract.codeAddr with
  | none => interpret
  | some p =>
      if env.enableTime p < w.db.block.timeStamp then
        startPrecompiledContract env ctx scope p contract input w
      else interpret

/-! ### Call functions -/

/-- The ways value leaves an account. -/
inductive Means
  | call
  | callCode
  | create
  | crossShard
  | selfdestruct
deriving DecidableEq

/-- Value that left an account, or was passed on by it: how, whose, and the world right after. -/
structure Movement where
  means : Means
  account : Recipient
  after : World

/-- A frame that was set up, and how its result becomes the result of the call function. -/
structure Frame where
  scope : Scope
  contract : Contract
  input : List UInt8
  readOnly : Bool
  world : World
  moved : Option Movement
  finish : RunResult → Exec CallResult

def Frame.exec (ops : Ops) (f : Frame) : Exec CallResult :=
  run env ctx ops f.scope f.contract f.input f.readOnly f.world >>= f.finish

/-- `Call`, `CallCode` or `create` once its checks are made: a result at once, or a frame. -/
abbrev Entry := Exec (CallResult ⊕ Frame)

def proceed (ops : Ops) (e : Entry) : Exec CallResult :=
  e >>= fun
    | .inl r => .ok r
    | .inr f => f.exec env ctx ops

def enterChecked (w : World) (caller : Recipient) (gas value : ℕ) (tokenID : TokenID)
    (k : World → Entry) : Entry :=
  let (can, w) := canTransfer w caller value tokenID
  if !can then .ok (.inl (.early w gas (some .insufficientBalance)))
  else
    let (locked, w) := transferFailureByPoswBalanceCheck env w caller value
    if locked then .ok (.inl (.early w 0 (some .poSWSenderNotAllowed))) else k w

/-- `EVM.Call` up to its frame. -/
def enterCall (scope : Scope) (caller addr : Recipient) (input : List UInt8) (gas value : ℕ)
    (w : World) : Entry :=
  if callCreateDepth < scope.depth then .ok (.inl (.early w gas (some .depth)))
  else
    enterChecked env w caller gas value scope.transferTokenID fun w =>
      let mark := w.mark
      let (exist, db) := w.marked.db.exist addr
      if !exist && (precompiles addr).isNone && value == 0 then
        .ok (.inl (.early { w with db } gas none))
      else do
        let db := if exist then db else db.createAccount addr
        let w ← transfer { w with db } caller addr value scope.transferTokenID
        let (code, db) := w.db.getCode addr
        pure (.inr
          { scope
            contract :=
              { callerAddress := caller, caller, self := addr, code, codeAddr := addr, gas, value }
            input, readOnly := false, world := { w with db }
            moved := some ⟨.call, caller, w⟩
            finish := finish env scope mark })

def enterCallCode (scope : Scope) (caller addr : Recipient) (input : List UInt8) (gas value : ℕ)
    (w : World) : Entry :=
  if callCreateDepth < scope.depth then .ok (.inl (.early w gas (some .depth)))
  else
    enterChecked env w caller gas value scope.transferTokenID fun w =>
      let (code, db) := w.marked.db.getCode addr
      .ok (.inr
        { scope
          contract :=
            { callerAddress := caller, caller, self := caller, code, codeAddr := addr, gas, value }
          input, readOnly := false, world := { w with db }
          moved := some ⟨.callCode, caller, w⟩
          finish := finish env scope w.mark })

def enterDelegateCall (scope : Scope) (parent : Contract) (addr : Recipient) (input : List UInt8)
    (gas : ℕ) (w : World) : Entry :=
  if callCreateDepth < scope.depth then .ok (.inl (.early w gas (some .depth)))
  else
    let mark := w.mark
    let (code, db) := w.marked.db.getCode addr
    let (locked, w) := transferFailureByPoswBalanceCheck env { w with db } parent.self parent.value
    if locked then .ok (.inl (.early w 0 (some .poSWSenderNotAllowed)))
    else
      .ok (.inr
        { scope
          contract :=
            { callerAddress := parent.callerAddress, caller := parent.self, self := parent.self, code,
              codeAddr := addr, gas, value := parent.value }
          input, readOnly := false, world := w, moved := none
          finish := finish env scope mark })

def enterStaticCall (scope : Scope) (caller addr : Recipient) (input : List UInt8) (gas : ℕ)
    (w : World) : Entry :=
  if callCreateDepth < scope.depth then .ok (.inl (.early w gas (some .depth)))
  else
    let mark := w.mark
    let (code, db) := w.marked.db.getCode addr
    let (locked, w) := transferFailureByPoswBalanceCheck env { w with db } caller 0
    if locked then .ok (.inl (.early w 0 (some .poSWSenderNotAllowed)))
    else
      .ok (.inr
        { scope
          contract :=
            { callerAddress := caller, caller, self := addr, code, codeAddr := addr, gas, value := 0,
              isStaticCall := true }
          input, readOnly := true
          world := { w with db := w.db.addBalance addr 0 env.defaultChainTokenID }
          moved := none
          finish := finish env scope mark })

/-- `create` from the snapshot up to its frame. -/
def enterCreateFrame (scope : Scope) (caller : Recipient) (code : List UInt8) (gas value : ℕ)
    (address : Recipient) (w : World) : Entry := do
  let mark := w.mark
  let db := (w.marked.db.createAccount address).setNonce address 1
  let w ← transfer { w with db } caller address value scope.transferTokenID
  pure (.inr
    { scope
      contract :=
        { callerAddress := caller, caller, self := address, code, codeAddr := address, gas, value }
      input := [], readOnly := false, world := w
      moved := some ⟨.create, caller, w⟩
      finish := finishCreate env scope mark address })

def enterCreate (scope : Scope) (caller : Recipient) (code : List UInt8) (gas value : ℕ)
    (address : Recipient) (w : World) : Entry :=
  if callCreateDepth < scope.depth then .ok (.inl (.early w gas (some .depth)))
  else
    let (can, w) := canTransfer w caller value scope.transferTokenID
    if !can then .ok (.inl (.early w gas (some .insufficientBalance)))
    else
      let db := takeNonce ctx w.db caller
      if scope.transferTokenID ≠ env.defaultChainTokenID then
        .ok (.inl (.early { w with db } gas (some .createOnlyDefaultToken)))
      else
        let (deployed, db) := db.getCode address
        let (nonce, db) := db.getNonce address
        if nonce ≠ 0 ∨ deployed ≠ [] then
          .ok (.inl (.early { w with db } 0 (some .contractAddressCollision)))
        else
          let (locked, w) := transferFailureByPoswBalanceCheck env { w with db } caller value
          if locked then .ok (.inl (.early w 0 (some .poSWSenderNotAllowed)))
          else enterCreateFrame env scope caller code gas value address w

def Request.enter : Request → Entry
  | .call scope caller addr input gas value w => enterCall env scope caller addr input gas value w
  | .callCode scope caller addr input gas value w =>
      enterCallCode env scope caller addr input gas value w
  | .delegateCall scope parent addr input gas w => enterDelegateCall env scope parent addr input gas w
  | .staticCall scope caller addr input gas w => enterStaticCall env scope caller addr input gas w
  | .create scope caller code gas value address w =>
      enterCreate env ctx scope caller code gas value address w

/-- The precompile that a frame runs: the one at its address, if it is enabled and paid for. -/
def Frame.runs (f : Frame) : Option Precompile :=
  (precompiles f.contract.codeAddr).filter fun p =>
    env.enableTime p < f.world.db.block.timeStamp ∧ requiredGas env p f.input ≤ f.contract.gas

/-- The frame runs `deploySystemContract` with an index that is negative as a signed integer. -/
def Frame.OutOfRange (f : Frame) : Prop :=
  f.runs env = some .deploySystemContract ∧ 2 ^ 63 ≤ getWord f.input 0 % 2 ^ 64

/-- A point of a run at which control passes on. -/
inductive Control
  | request (q : Request)
  | frame (f : Frame)
  | loop (scope : Scope) (p : Prog) (c : Contract) (w : World)

/-- Control passes from one point to another; the number counts the layers of frames below. -/
inductive Passes : ℕ × Control → ℕ × Control → Prop
  | enter {n : ℕ} {q : Request} {f : Frame} (h : q.enter env ctx = .ok (.inr f)) :
      Passes (n + 1, .request q) (n, .frame f)
  | interpret {n : ℕ} {f : Frame} {scope : Scope} {p : Prog} {c : Contract} {w : World}
      (h : start env ctx f.scope f.contract f.input f.readOnly f.world = .ok (.loop scope p c w)) :
      Passes (n, .frame f) (n, .loop scope p c w)
  | precompile {n : ℕ} {f : Frame} {q : Request} {finish : CallResult → RunResult}
      (h : start env ctx f.scope f.contract f.input f.readOnly f.world = .ok (.spawn q finish)) :
      Passes (n, .frame f) (n, .request q)
  | goto {n : ℕ} {scope : Scope} {p p' : Prog} {c c' : Contract} {w w' : World}
      (h : next env ctx scope p c w = .goto p' c' w') :
      Passes (n, .loop scope p c w) (n, .loop scope p' c' w')
  | spawn {n : ℕ} {scope : Scope} {p : Prog} {c : Contract} {w : World} {q : Request}
      {resume : CallResult → Prog × Contract × World}
      (h : next env ctx scope p c w = .spawn q resume) :
      Passes (n, .loop scope p c w) (n, .request q)
  | resume {n : ℕ} {scope : Scope} {p : Prog} {c : Contract} {w : World} {q : Request}
      {resume : CallResult → Prog × Contract × World} {r : CallResult}
      (h : next env ctx scope p c w = .spawn q resume) (hr : q.exec (ops env ctx n) = .ok r) :
      Passes (n, .loop scope p c w) (n, .loop scope (resume r).1 (resume r).2.1 (resume r).2.2)

/-- The way of control, from a point on. -/
abbrev Way : ℕ × Control → ℕ × Control → Prop := Relation.ReflTransGen (Passes env ctx)

def Control.world : Control → World
  | .request q => q.world
  | .frame f => f.world
  | .loop _ _ _ w => w

def Control.movement : Control → Option Movement
  | .request _ => none
  | .frame f => f.moved
  | .loop scope p c w =>
      match next env ctx scope p c w with
      | .destroy c beneficiary w => some ⟨.selfdestruct, c.self, opSuicide env w c.self beneficiary⟩
      | _ => none

/-- The request, carried out with frames nested `fuel` deep, moves value this way. -/
def Request.Moves (fuel : ℕ) (q : Request) (μ : Movement) : Prop :=
  ∃ n x, Way env ctx (fuel, .request q) (n, x) ∧ x.movement env ctx = some μ

/-- The movements at the outset of a request: for its frame, and by the first instruction of its code. -/
def Request.outset (q : Request) : List Movement :=
  match q.enter env ctx with
  | .ok (.inr f) =>
      f.moved.toList ++
        match start env ctx f.scope f.contract f.input f.readOnly f.world with
        | .ok (.loop scope p c w) => ((Control.loop scope p c w).movement env ctx).toList
        | _ => []
  | _ => []

end

/-! ### The pieces make up the machine -/

section

variable {env : Env} {ctx : Context} {ops : Ops} {scope : Scope} {c : Contract} {w : World}
  {input code : List UInt8} {caller addr : Recipient} {k : Contract → ℕ → Next} {S : Next → Prop}
  {requested base : ℕ}

theorem proceed_charged {cost : ℕ} {k : Contract → Next} {f : Contract → Exec RunResult}
    (hk : ∀ c, f c = (k c).proceed env ctx ops scope) : (match c.useGas cost with
      | none => .ok (.fail c w .outOfGas)
      | some c => f c) = (charged c cost w k).proceed env ctx ops scope := by
  unfold charged
  cases c.useGas cost with
  | none => rfl
  | some c => exact hk c

theorem proceed_chargedCall {f : Contract → ℕ → Exec RunResult}
    (hk : ∀ c passed, f c passed = (k c passed).proceed env ctx ops scope) :
    (match chargeCall c base requested with
      | none => .ok (.fail c w .outOfGas)
      | some (c, passed) => f c passed) =
      (chargedCall c base requested w k).proceed env ctx ops scope := by
  unfold chargedCall
  cases chargeCall c base requested with
  | none => rfl
  | some charged => exact hk charged.1 charged.2

/-- **The loop is its instructions, one after the other.** -/
theorem runProg_eq_next (p : Prog) (c : Contract) (w : World) :
    runProg env ctx ops scope p c w = (next env ctx scope p c w).proceed env ctx ops scope := by
  unfold runProg
  cases p with
  | stop | revert | fault | gas => rfl
  | useGas | balance | extCode | sload => exact proceed_charged fun _ => rfl
  | extCodeHash =>
    refine proceed_charged fun c => ?_
    dsimp only
    split_ifs <;> rfl
  | sstore =>
    unfold next
    dsimp only
    by_cases hro : scope.readOnly = true
    · rw [if_pos hro, if_pos hro]
      rfl
    · rw [if_neg hro, if_neg hro]
      exact proceed_charged fun _ => rfl
  | log | create | create2 | selfdestruct =>
    unfold next
    dsimp only
    split_ifs
    · rfl
    · exact proceed_charged fun _ => rfl
  | call cost gas addr value =>
    unfold next
    dsimp only
    by_cases hro : scope.readOnly = true ∧ value ≠ 0
    · rw [if_pos hro, if_pos hro]
      rfl
    · rw [if_neg hro, if_neg hro]
      exact proceed_chargedCall fun _ _ => rfl
  | callCode | delegateCall | staticCall => exact proceed_chargedCall fun _ _ => rfl

theorem Contract.gas_useGas {c' : Contract} {gas : ℕ} (h : c.useGas gas = some c') :
    c'.gas + gas = c.gas := by
  unfold Contract.useGas at h
  split_ifs at h with hlt
  cases h
  show c.gas - gas + gas = c.gas
  omega

theorem charged_elim {cost : ℕ} {k : Contract → Next}
    (hdone : S (.done (.fail c w .outOfGas))) (hk : ∀ c₁, c₁.gas + cost = c.gas → S (k c₁)) :
    S (charged c cost w k) := by
  unfold charged
  cases hc : c.useGas cost with
  | none => exact hdone
  | some c₁ => exact hk c₁ (Contract.gas_useGas hc)

theorem chargedCall_elim (hdone : S (.done (.fail c w .outOfGas)))
    (hk : ∀ c₁ passed, c₁.gas + passed + base = c.gas → S (k c₁ passed)) :
    S (chargedCall c base requested w k) := by
  unfold chargedCall chargeCall
  rcases hc : c.useGas base with _ | c₁
  · exact hdone
  refine hk _ _ ?_
  have hgas := Contract.gas_useGas hc
  have hle : callGas c₁.gas requested ≤ c₁.gas := Nat.le_trans (Nat.min_le_right _ _) (Nat.sub_le _ _)
  show c₁.gas - callGas c₁.gas requested + callGas c₁.gas requested + base = c.gas
  omega

def Next.Onward (Q : Prog → Contract → World → Prop) : Next → Prop
  | .goto p c w => Q p c w
  | .spawn _ resume => ∀ r, Q (resume r).1 (resume r).2.1 (resume r).2.2
  | .done _ | .destroy _ _ _ => True

variable (env ctx scope) in
/-- **Induction along the loop.** -/
theorem runProg_induct {Q : Prog → Contract → World → Prop}
    (h : ∀ p c w, (next env ctx scope p c w).Onward Q → Q p c w) (p : Prog) (c : Contract)
    (w : World) : Q p c w := by
  induction p generalizing c w with
  | stop | revert | fault => exact h _ _ _ trivial
  | useGas cost k ih => exact h _ _ _ (charged_elim trivial fun c₁ _ => ih c₁ w)
  | gas k ih => exact h _ _ _ (ih c.gas c w)
  | balance _ _ _ ih | extCode _ _ _ ih | sload _ _ _ ih =>
    exact h _ _ _ (charged_elim trivial fun c₁ _ => ih _ c₁ _)
  | extCodeHash cost addr k ih =>
    refine h _ _ _ (charged_elim trivial fun c₁ _ => ?_)
    dsimp only
    split_ifs <;> exact ih _ c₁ _
  | sstore _ _ _ ih | log _ _ _ _ ih =>
    apply h
    unfold next
    dsimp only
    split_ifs
    all_goals first | exact trivial | exact charged_elim trivial fun c₁ _ => ih c₁ _
  | create _ _ _ _ ih | create2 _ _ _ _ _ ih =>
    apply h
    unfold next
    dsimp only
    split_ifs
    · exact trivial
    · exact charged_elim trivial fun c₁ _ r => ih _ _ _ _
  | call cost gas addr value input k ih =>
    apply h
    unfold next
    dsimp only
    by_cases hro : scope.readOnly = true ∧ value ≠ 0
    · rw [if_pos hro]
      exact trivial
    · rw [if_neg hro]
      exact chargedCall_elim trivial fun c₁ passed _ r => ih _ _ _ _
  | callCode _ _ _ _ _ _ ih | delegateCall _ _ _ _ _ ih | staticCall _ _ _ _ _ ih =>
    exact h _ _ _ (chargedCall_elim trivial fun c₁ passed _ r => ih _ _ _ _)
  | selfdestruct beneficiary =>
    apply h
    unfold next
    dsimp only
    split_ifs
    · exact trivial
    · exact charged_elim trivial fun _ _ => trivial

theorem transferMnt_eq_start : transferMnt env ops scope c input w =
      (startTransferMnt env scope c input w).proceed env ctx ops := by
  unfold transferMnt startTransferMnt
  dsimp only
  generalize (if 0 < getWord input 64 then w.db.exist (toAddress (getWord input 0))
    else (true, w.db)) = looked
  generalize ((if 0 < getWord input 64 then 9000 else 0) + if looked.1 = true then 0 else 25000) = gasCost
  generalize (if 0 < getWord input 64 then 2300 else 0) = stipend
  split_ifs <;> rfl

theorem deploySystemContract_eq_start : deploySystemContract env ctx ops scope c input w =
      startDeploySystemContract env ctx scope c input w >>= Start.proceed env ctx ops := by
  unfold deploySystemContract startDeploySystemContract
  dsimp only
  split_ifs
  · rfl
  rcases systemContract (systemContractIndex input) with _ | sc
  · rfl
  dsimp only
  cases deployable env ctx sc with
  | some err => rfl
  | none =>
    show (_ >>= _) = (_ >>= _)
    congr 1
    funext r
    dsimp only
    cases r.err with
    | some err => rfl
    | none => rfl

theorem runPrecompiledContract_eq_start {p : Precompile} :
    runPrecompiledContract env ctx ops scope p c input w =
      startPrecompiledContract env ctx scope p c input w >>= Start.proceed env ctx ops := by
  unfold runPrecompiledContract startPrecompiledContract
  split_ifs
  · rfl
  cases p with
  | crypto i =>
    unfold runPrecompile startPrecompile
    dsimp only
    cases env.crypto i input with
    | some ret => rfl
    | none => rfl
  | currentMntID => rfl
  | transferMnt => exact transferMnt_eq_start
  | deploySystemContract => exact deploySystemContract_eq_start
  | mintMNT => rfl
  | balanceMNT => rfl

/-- **A frame is its start and what follows.** -/
theorem run_eq_start {readOnly : Bool} : run env ctx ops scope c input readOnly w =
      start env ctx scope c input readOnly w >>= Start.proceed env ctx ops := by
  unfold run start
  dsimp only
  cases precompiles c.codeAddr with
  | none =>
    dsimp only
    split_ifs <;> rfl
  | some p =>
    dsimp only
    split_ifs
    · exact runPrecompiledContract_eq_start
    · rfl
    · rfl

variable {gas value : ℕ}

theorem proceed_enterChecked {k : World → Entry} :
    proceed env ctx ops (enterChecked env w caller gas value tokenID k) =
      checkSender env w caller gas value tokenID fun w => proceed env ctx ops (k w) := by
  unfold enterChecked checkSender
  dsimp only
  split_ifs <;> rfl

theorem call_eq_enter : call env ctx ops scope caller addr input gas value w =
      proceed env ctx ops (enterCall env scope caller addr input gas value w) := by
  unfold call enterCall
  split_ifs
  · rfl
  rw [proceed_enterChecked]
  congr 1
  funext w₁
  dsimp only
  generalize (if (w₁.marked.db.exist addr).1 = true then (w₁.marked.db.exist addr).2
    else (w₁.marked.db.exist addr).2.createAccount addr) = db
  split_ifs
  · rfl
  · cases transfer { w₁ with db } caller addr value scope.transferTokenID with
    | error e => rfl
    | ok w₂ => rfl

theorem callCode_eq_enter : callCode env ctx ops scope caller addr input gas value w =
      proceed env ctx ops (enterCallCode env scope caller addr input gas value w) := by
  unfold callCode enterCallCode
  split_ifs
  · rfl
  · rw [proceed_enterChecked]
    rfl

theorem delegateCall_eq_enter {parent : Contract} {gas : ℕ} :
    delegateCall env ctx ops scope parent addr input gas w =
      proceed env ctx ops (enterDelegateCall env scope parent addr input gas w) := by
  unfold delegateCall enterDelegateCall
  dsimp only
  split_ifs <;> rfl

theorem staticCall_eq_enter {gas : ℕ} : staticCall env ctx ops scope caller addr input gas w =
      proceed env ctx ops (enterStaticCall env scope caller addr input gas w) := by
  unfold staticCall enterStaticCall
  dsimp only
  split_ifs <;> rfl

theorem createFrame_eq_enter {address : Recipient} :
    createFrame env ctx ops scope caller code gas value address w =
      proceed env ctx ops (enterCreateFrame env scope caller code gas value address w) := by
  unfold createFrame enterCreateFrame
  dsimp only
  generalize transfer _ caller address value scope.transferTokenID = moved
  cases moved with
  | error e => rfl
  | ok w₁ => rfl

theorem create_eq_enter {address : Recipient} :
    create env ctx ops scope caller code gas value address w =
      proceed env ctx ops (enterCreate env ctx scope caller code gas value address w) := by
  unfold create enterCreate
  dsimp only
  split_ifs <;> first | rfl | exact createFrame_eq_enter

/-- **A call function is its entry and the frame behind it.** -/
theorem Request.exec_nextOps (q : Request) :
    q.exec (nextOps env ctx ops) = proceed env ctx ops (q.enter env ctx) := by
  cases q with
  | call scope caller addr input gas value w => exact call_eq_enter
  | callCode scope caller addr input gas value w => exact callCode_eq_enter
  | delegateCall scope parent addr input gas w => exact delegateCall_eq_enter
  | staticCall scope caller addr input gas w => exact staticCall_eq_enter
  | create scope caller code gas value address w => exact create_eq_enter

/-- What is claimed of a run with a number of layers below: before and after a request, of its frame, at
every point of the frame's loop and at the end of the frame, and of the ways it stops. -/
structure Assertions where
  pre : ℕ → Request → Prop
  frame : ℕ → Request → Frame → Prop
  loop : ℕ → Request → Frame → Scope → Contract → World → Prop
  done : Request → Frame → RunResult → Prop
  post : Request → CallResult → Prop
  stop : Stop → Prop

namespace Assertions

variable (A : Assertions) (n : ℕ) (q : Request)

def AtEntry : CallResult ⊕ Frame → Prop
  | .inl r => A.post q r
  | .inr f => A.frame n q f

def AtStart (f : Frame) : Start → Prop
  | .done r => A.done q f r
  | .loop scope _ c w => A.loop n q f scope c w
  | .spawn q' finish => A.pre n q' ∧ ∀ r, A.post q' r → A.done q f (finish r)

def AtNext (env : Env) (f : Frame) (scope : Scope) : Next → Prop
  | .done r => A.done q f r
  | .goto _ c w => A.loop n q f scope c w
  | .spawn q' resume => A.pre n q' ∧ ∀ r, A.post q' r → A.loop n q f scope (resume r).2.1 (resume r).2.2
  | .destroy c beneficiary w => A.done q f (.return c (opSuicide env w c.self beneficiary) [])

/-- The pieces carry the assertions on, wherever control comes to from `root`. -/
structure Hold (env : Env) (ctx : Context) (root : ℕ × Control) : Prop where
  zero : ∀ {q}, A.pre 0 q → A.stop .outOfFuel
  enter : ∀ {n q}, Way env ctx root (n + 1, .request q) → A.pre (n + 1) q →
    Post (q.enter env ctx) (A.AtEntry n q) A.stop
  start : ∀ {n q f}, Way env ctx root (n, .frame f) → A.frame n q f →
    Post (start env ctx f.scope f.contract f.input f.readOnly f.world) (A.AtStart n q f) A.stop
  next : ∀ {n q f scope p c w}, Way env ctx root (n, .loop scope p c w) → A.loop n q f scope c w →
    A.AtNext n q env f scope (next env ctx scope p c w)
  finish : ∀ {n q f r}, A.frame n q f → A.done q f r → Post (f.finish r) (A.post q) A.stop

variable {A} {n} {q} {root : ℕ × Control}

theorem Hold.runProg {f : Frame} (h : A.Hold env ctx root)
    (hexec : ∀ q, Way env ctx root (n, .request q) → A.pre n q →
      Post (q.exec (Vm.ops env ctx n)) (A.post q) A.stop) (p : Prog) (c : Contract) (w : World) :
    Way env ctx root (n, .loop scope p c w) → A.loop n q f scope c w →
      Post (runProg env ctx (Vm.ops env ctx n) scope p c w) (A.done q f) A.stop := by
  refine runProg_induct env ctx scope
    (Q := fun p c w => Way env ctx root (n, .loop scope p c w) → A.loop n q f scope c w →
      Post (Vm.runProg env ctx (Vm.ops env ctx n) scope p c w) (A.done q f) A.stop)
    (fun p c w ih hway hloop => ?_) p c w
  have hnext := h.next hway hloop
  rw [runProg_eq_next]
  generalize hstep : Vm.next env ctx scope p c w = step at hnext ih ⊢
  cases step with
  | done r => exact hnext
  | goto p' c' w' => exact ih (hway.tail (.goto hstep)) hnext
  | spawn q' resume =>
    refine (hexec q' (hway.tail (.spawn hstep)) hnext.1).bind_ok fun r hr hpost => ?_
    exact ih r (hway.tail (.resume hstep hr)) (hnext.2 r hpost)
  | destroy c' beneficiary w' => exact hnext

/-- **The rule of assertions.** -/
theorem Hold.exec (h : A.Hold env ctx root) (n : ℕ) (q : Request)
    (hway : Way env ctx root (n, .request q)) (hq : A.pre n q) :
    Post (q.exec (Vm.ops env ctx n)) (A.post q) A.stop := by
  induction n generalizing q with
  | zero => cases q <;> exact h.zero hq
  | succ n ih =>
    rw [Vm.ops, q.exec_nextOps]
    refine (h.enter hway hq).bind_ok fun e henter he => ?_
    rcases e with r | f
    · exact he
    have hframe : Way env ctx root (n, .frame f) := hway.tail (.enter henter)
    refine Post.bind (P := A.done q f) ?_ fun r hr => h.finish he hr
    rw [run_eq_start]
    refine (h.start hframe he).bind_ok fun s hstart hs => ?_
    cases s with
    | done r => exact hs
    | loop scope p c w => exact h.runProg ih p c w (hframe.tail (.interpret hstart)) hs
    | spawn q' finish =>
      exact (ih q' (hframe.tail (.precompile hstart)) hs.1).bind fun r hr => hs.2 r hr

end Assertions

/-! ### Along the way -/

variable {x y : ℕ × Control} {e : Stop}

variable (env ctx) in
/-- What runs from a point on stops with `e`. -/
def Stops (e : Stop) : ℕ × Control → Prop
  | (n, .request q) => q.exec (Vm.ops env ctx n) = .error e
  | (n, .frame f) =>
      run env ctx (Vm.ops env ctx n) f.scope f.contract f.input f.readOnly f.world = .error e
  | (n, .loop scope p c w) => runProg env ctx (Vm.ops env ctx n) scope p c w = .error e

theorem Passes.stops (h : Passes env ctx x y) (hy : Stops env ctx e y) : Stops env ctx e x := by
  cases h with
  | @enter n q f h =>
    show q.exec (nextOps env ctx (Vm.ops env ctx n)) = .error e
    rw [q.exec_nextOps, h]
    exact congrArg (· >>= f.finish) hy
  | interpret h =>
    show run env ctx _ _ _ _ _ _ = .error e
    rw [run_eq_start, h]
    exact hy
  | @precompile n f q finish h =>
    show run env ctx _ _ _ _ _ _ = .error e
    rw [run_eq_start, h]
    exact congrArg (· >>= fun r => .ok (finish r)) hy
  | goto h =>
    show runProg env ctx _ _ _ _ _ = .error e
    rw [runProg_eq_next, h]
    exact hy
  | @spawn n scope p c w q resume h =>
    show runProg env ctx _ _ _ _ _ = .error e
    rw [runProg_eq_next, h]
    exact congrArg (· >>= fun r => runProg env ctx (Vm.ops env ctx n) scope (resume r).1 (resume r).2.1
      (resume r).2.2) hy
  | @resume n scope p c w q resume r h hr =>
    show runProg env ctx _ _ _ _ _ = .error e
    rw [runProg_eq_next, h]
    exact (congrArg (· >>= _) hr).trans hy

/-- **What stops on the way stops the whole run.** -/
theorem Way.stops (h : Way env ctx x y) (hy : Stops env ctx e y) : Stops env ctx e x := by
  induction h with
  | refl => exact hy
  | tail _ hstep ih => exact ih (hstep.stops hy)

variable (env ctx) in
/-- The points that control passes to. -/
def successors : ℕ × Control → List (ℕ × Control)
  | (0, .request _) => []
  | (n + 1, .request q) =>
      match q.enter env ctx with
      | .ok (.inr f) => [(n, .frame f)]
      | _ => []
  | (n, .frame f) =>
      match start env ctx f.scope f.contract f.input f.readOnly f.world with
      | .ok (.loop scope p c w) => [(n, .loop scope p c w)]
      | .ok (.spawn q _) => [(n, .request q)]
      | _ => []
  | (n, .loop scope p c w) =>
      match next env ctx scope p c w with
      | .goto p c w => [(n, .loop scope p c w)]
      | .spawn q resume =>
          (n, .request q) ::
            match q.exec (Vm.ops env ctx n) with
            | .ok r => [(n, .loop scope (resume r).1 (resume r).2.1 (resume r).2.2)]
            | .error _ => []
      | _ => []

theorem Passes.mem_successors (h : Passes env ctx x y) : y ∈ successors env ctx x := by
  cases h with
  | enter h | interpret h | precompile h | goto h | spawn h => simp [successors, h]
  | resume h hr => simp [successors, h, hr]

variable (env ctx) in
/-- Every point that control comes to passes the test, and no way is longer than `length`. -/
def walk (test : ℕ × Control → Bool) : (length : ℕ) → ℕ × Control → Bool
  | 0, _ => false
  | length + 1, x => test x && (successors env ctx x).all (walk test length)

theorem walk_sound {test : ℕ × Control → Bool} {length : ℕ} (hwalk : walk env ctx test length x = true)
    (h : Way env ctx x y) : test y = true := by
  induction h using Relation.ReflTransGen.head_induction_on generalizing length with
  | refl =>
    cases length with
    | zero => cases hwalk
    | succ length => exact (Bool.and_eq_true_iff.mp hwalk).1
  | head hstep _ ih =>
    cases length with
    | zero => cases hwalk
    | succ length =>
      exact ih (List.all_eq_true.mp (Bool.and_eq_true_iff.mp hwalk).2 _ hstep.mem_successors)

theorem Request.moves_of_mem_outset {n : ℕ} {q : Request} {μ : Movement}
    (h : μ ∈ q.outset env ctx) : q.Moves env ctx (n + 1) μ := by
  unfold Request.outset at h
  split at h
  · rename_i f hf
    have henter : Passes env ctx (n + 1, .request q) (n, .frame f) := .enter hf
    rcases List.mem_append.mp h with hmoved | hfirst
    · exact ⟨n, .frame f, .single henter, Option.mem_toList.mp hmoved⟩
    split at hfirst
    · rename_i scope p c w hstart
      have hloop : Passes env ctx (n, .frame f) (n, .loop scope p c w) := .interpret hstart
      exact ⟨n, .loop scope p c w, .tail (.single henter) hloop, Option.mem_toList.mp hfirst⟩
    · cases hfirst
  · cases h

end
end QuarkChain.Vm
