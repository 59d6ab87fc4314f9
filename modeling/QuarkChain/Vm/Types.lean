/-
# The virtual machine: frames, byte code and precompiles

The data of `src/core/vm` (`evm.go`, `contract.go`, `contracts.go`, `errors.go`).  The chain
configuration is the one the node installs (`DefaultConstantinople`): every fork switch up to
Constantinople is on.

The byte code of a contract is seen from outside the interpreter's stack and memory: a `Prog` is the
tree of what a run of the code asks of the machine (gas, state reads and writes, logs, calls), with a
continuation for each answer.  Stack, memory, jumps and arithmetic only decide which request comes
next, and every instruction costs gas, so each code is such a tree; `Env.interp` gives it, and nothing
is assumed about it.  Hash functions and the eight cryptographic precompiles are parameters too.
-/
import QuarkChain.State.Journal

namespace QuarkChain.Vm

open QuarkChain.Types
open State

/-- What stops the interpreter by itself. -/
inductive Fault
  | invalidOpcode
  | stack
  | invalidJump
  | returnDataOutOfBounds
  | gasUintOverflow
deriving DecidableEq

/-- The errors of `errors.go` and of the precompiles. -/
inductive VmError
  | outOfGas
  | codeStoreOutOfGas
  | depth
  | insufficientBalance
  | contractAddressCollision
  | poSWSenderNotAllowed
  | invalidSystemContractIndex
  | mintZeroAmountMNT
  | timestampNotMatch
  | executionReverted
  | writeProtection
  | maxCodeSizeExceeded
  | createOnlyDefaultToken
  | transferMntShortInput
  | transferMntStaticCall
  | tokenIDTooLarge
  | transferMntToItself
  | transferMntOutOfGas
  | chainIDNotZero
  | defaultTokenNotMintable
  | invalidSender
  | cryptoPrecompile
  | fault (fault : Fault)
deriving DecidableEq

/-- Where the code panics. -/
inductive VmPanic
  | state (panic : StatePanic)
  | systemContractScope
  | gasPoolOverflow
  | shortReturn
deriving DecidableEq

/-- The precompiled contracts. -/
inductive Precompile
  | crypto (index : Fin 8)
  | currentMntID
  | transferMnt
  | deploySystemContract
  | mintMNT
  | balanceMNT
deriving DecidableEq

/-- The addresses `…514b430001` to `…514b430005`. -/
def currentMntIDAddr : Recipient := 0x514b430001
def transferMntAddr : Recipient := 0x514b430002
def deploySystemContractAddr : Recipient := 0x514b430003
def mintMNTAddr : Recipient := 0x514b430004
def balanceMNTAddr : Recipient := 0x514b430005

def precompiles (addr : Recipient) : Option Precompile :=
  if addr = currentMntIDAddr then some .currentMntID
  else if addr = transferMntAddr then some .transferMnt
  else if addr = deploySystemContractAddr then some .deploySystemContract
  else if addr = mintMNTAddr then some .mintMNT
  else if addr = balanceMNTAddr then some .balanceMNT
  else if h : 1 ≤ addr.toNat ∧ addr.toNat ≤ 8 then some (.crypto ⟨addr.toNat - 1, by omega⟩)
  else none

/-- The indices of `SystemContracts`. -/
inductive SystemContract
  | rootChainPoSW
  | nonReservedNativeToken
  | generalNativeToken
deriving DecidableEq

/-- `SystemContracts[…].Address()`. -/
def SystemContract.address : SystemContract → Recipient
  | .rootChainPoSW => 0x514b430000000000000000000000000000000001
  | .nonReservedNativeToken => 0x514b430000000000000000000000000000000002
  | .generalNativeToken => 0x514b430000000000000000000000000000000003

/-- `SystemContractScopeMap`: whether a contract belongs to chain `0` only. -/
def SystemContract.onlyChain0 : SystemContract → Bool
  | .nonReservedNativeToken => true
  | .rootChainPoSW | .generalNativeToken => false

/-- `vm.Context`, without the functions and block data that only byte code reads. -/
structure Context where
  origin : Recipient
  gasPrice : ℕ
  gasPriceInGasToken : ℕ
  coinbase : Recipient
  blockNumber : ℕ
  time : ℕ
  toFullShardKey : Option ℕ
  gasTokenID : TokenID
  transferTokenID : TokenID
  isApplyXShard : Bool := false
  xShardGasUsedStart : ℕ := 0
  contractAddress : Option Recipient := none

/-- `vm.Contract`: one frame.  Of the references to the caller and to the contract itself only the
addresses are used. -/
structure Contract where
  callerAddress : Recipient
  caller : Recipient
  self : Recipient
  code : List UInt8 := []
  codeAddr : Recipient
  gas : ℕ
  value : ℕ
  tokenIDQueried : Bool := false
  isStaticCall : Bool := false

/-- How a call instruction of a contract ended. -/
inductive CallStatus
  | success
  | reverted
  | failed
deriving DecidableEq

/-- What byte code asks of the machine.  `cost` is the gas of the instruction as far as its own
operands and the memory determine it. -/
inductive Prog
  | stop (ret : List UInt8)
  | revert (ret : List UInt8)
  | fault (fault : Fault)
  | useGas (cost : ℕ) (k : Prog)
  | gas (k : ℕ → Prog)
  | balance (cost : ℕ) (addr : Recipient) (k : ℕ → Prog)
  | extCode (cost : ℕ) (addr : Recipient) (k : List UInt8 → Prog)
  | extCodeHash (cost : ℕ) (addr : Recipient) (k : Option (List UInt8) → Prog)
  | sload (cost : ℕ) (key : Hash) (k : Hash → Prog)
  | sstore (key value : Hash) (k : Prog)
  | log (cost : ℕ) (topics : List Hash) (data : List UInt8) (k : Prog)
  | create (cost : ℕ) (value : ℕ) (code : List UInt8) (k : Option Recipient → List UInt8 → Prog)
  | create2 (cost : ℕ) (value : ℕ) (code : List UInt8) (salt : Hash)
      (k : Option Recipient → List UInt8 → Prog)
  | call (cost gas : ℕ) (addr : Recipient) (value : ℕ) (input : List UInt8)
      (k : CallStatus → List UInt8 → Prog)
  | callCode (cost gas : ℕ) (addr : Recipient) (value : ℕ) (input : List UInt8)
      (k : CallStatus → List UInt8 → Prog)
  | delegateCall (cost gas : ℕ) (addr : Recipient) (input : List UInt8)
      (k : CallStatus → List UInt8 → Prog)
  | staticCall (cost gas : ℕ) (addr : Recipient) (input : List UInt8)
      (k : CallStatus → List UInt8 → Prog)
  | selfdestruct (beneficiary : Recipient)

/-- What the machine is configured with. -/
structure Env where
  defaultChainTokenID : TokenID
  chainID : ℕ
  /-- `GetEnableTime` of a precompile. -/
  enableTime : Precompile → ℕ
  /-- Byte code and activation time of a system contract. -/
  bytecode : SystemContract → List UInt8
  timestamp : SystemContract → ℕ
  /-- `CreateAddress` and `crypto.CreateAddress2`. -/
  createAddress : Recipient → Option ℕ → ℕ → Recipient
  createAddress2 : Recipient → Hash → List UInt8 → Recipient
  /-- `RequiredGas` and `Run` of the cryptographic precompiles. -/
  cryptoGas : Fin 8 → List UInt8 → ℕ
  crypto : Fin 8 → List UInt8 → Option (List UInt8)
  interp : Context → Contract → List UInt8 → Prog

/-- The state database, and beside it a count that the code does not keep: how much of each token the mint
precompile has credited that no revert took back. -/
structure World where
  db : StateDB
  minted : TokenID → ℕ := fun _ => 0

/-- How a run ends without a result.  Nesting is bounded by the depth limit, and running out of fuel
does not happen with enough of it. -/
inductive Stop
  | panic (panic : VmPanic)
  | outOfFuel

abbrev Exec := Except Stop

/-- The scoped fields of `EVM` and its interpreter. -/
structure Scope where
  depth : ℕ
  readOnly : Bool
  transferTokenID : TokenID

structure CallResult where
  ret : List UInt8
  leftOverGas : ℕ
  err : Option VmError
  world : World

structure RunResult where
  ret : List UInt8
  err : Option VmError
  contract : Contract
  world : World

def World.lift (w : World) : Except StatePanic StateDB → Exec World
  | .ok db => .ok { w with db }
  | .error e => .error (.panic (.state e))

/-- What a frame remembers of the world before it: the id of the snapshot, and the count of mints. -/
structure Mark where
  snapshot : ℕ
  minted : TokenID → ℕ

/-- What a frame takes down when it starts. -/
def World.mark (w : World) : Mark := ⟨w.db.snapshot.1, w.minted⟩

def World.marked (w : World) : World := { w with db := w.db.snapshot.2 }

/-- `RevertToSnapshot`, with the mints since then taken back. -/
def World.revertTo (w : World) (mark : Mark) : Exec World :=
  World.lift { w with minted := mark.minted } (w.db.revertToSnapshot mark.snapshot)

/-- A credit of the mint precompile. -/
def World.mint (w : World) (a : Recipient) (amount : ℕ) (tokenID : TokenID) : World where
  db := w.db.addBalance a amount tokenID
  minted := Function.update w.minted tokenID (w.minted tokenID + amount)

/-- The word of `32` bytes at `start`; what the input lacks is read as zeros. -/
def getWord (input : List UInt8) (start : ℕ) : ℕ :=
  (List.range 32).foldl (fun n i => n * 256 + ((input[start + i]?).getD 0).toNat) 0

def toAddress (word : ℕ) : Recipient := BitVec.ofNat 160 word

/-- The last `width` bytes of a number. -/
def toBytes : ℕ → ℕ → List UInt8
  | 0, _ => []
  | width + 1, n => toBytes width (n / 256) ++ [UInt8.ofNat (n % 256)]

end QuarkChain.Vm
