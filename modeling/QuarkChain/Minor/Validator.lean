/-
# Validating minor blocks

`MinorBlockValidator.ValidateBlock` (`src/core/minorblock_validator.go`), over the header check of
the consensus engine (`VerifyHeader`, `src/consensus/consensus.go`).

The checks come in three groups: those before any chain is walked (`checkBlock`), the two ancestry
checks (`checkConfirmed`, `checkRootChain`), and the seal.  Only the second group can end the process: the last
minor block that the block's prev-root block confirms is passed to `isSameChain` without a look at its height.

Seals, difficulties, hashes of meta data, merkle roots and the execution of a block are parameters.
-/
import QuarkChain.Minor.Chain
import QuarkChain.Root.Validator

namespace QuarkChain.Minor

open Account BlockTree Config QuarkChain.Types
open Root (Crit HeaderError IHeader emptyHash isSameChain verifyHeader)

instance : IHeader MinorBlock where
  version := MinorBlock.version
  time b := b.time
  difficulty := MinorBlock.difficulty
  extra := MinorBlock.extra

structure Executed where
  root : Hash
  xShardList : List CrossShardTransactionDeposit

structure Setup extends ShardSetup where
  blockExtraDataSizeLimit : ℕ
  skipMinorDifficultyCheck : Bool
  disablePowCheck : Bool
  gasLimit : ℕ
  calculateDifficulty : MinorBlock → ℕ → Option ℕ
  /-- The seal check of `VerifyHeader`, with the adjusted difficulty. -/
  verifySeal : MinorBlockChain → MinorBlock → Bool
  validateSeal : MinorBlockChain → MinorBlock → Bool
  /-- The hash of the block's meta data. -/
  metaDataHash : MinorBlock → Hash
  calculateMerkleRoot : List Core.EvmTransaction → Hash
  /-- `runBlock`, and the comparisons of `ValidateState` other than that of the state root; `none`
  when one of them fails. -/
  execute : MinorBlockChain → MinorBlock → Option Executed

/-- The errors of `ValidateBlock`. -/
inductive ValidateError
  | header (e : HeaderError)
  | incorrectMinorBlockVersion
  | blockNumberLessThanOne
  | errKnownBlock
  | errUnknownAncestor
  | errPrunedAncestor
  | errInvalidMinorBlock
  | errHeightMismatch
  | errBranch
  | blockTooFarIntoFuture
  | errTime
  | errMetaHash
  | errExtraLimit
  | incorrectGasLimit
  | xShardGasLimitShouldNotExceed
  | incorrectXShardGasLimit
  | errTxHash
  | errMinerFullShardKey
  | errPreTime
  | errDifficulty
  | errRootBlockIsNil
  | preRootBlockHeightMustBeNonDecreasing
  | mustBeOneMinorChain
  | mustBeOneRootChain
  | invalidSeal
deriving DecidableEq

inductive Stop
  | error (e : ValidateError)
  | fatal (f : Fatal)
deriving DecidableEq

def allowedFutureBlocksTimeValidation : ℕ := 15

namespace Setup

variable (n : Setup)

def xShardGasLimit : ℕ := n.gasLimit / 2

def verifyMinorHeader (s : MinorBlockChain) (block : MinorBlock) : Except HeaderError Unit :=
  verifyHeader s.getMinorBlock n.blockExtraDataSizeLimit n.skipMinorDifficultyCheck
    n.calculateDifficulty (n.verifySeal s block) block

def checkLinkable (s : MinorBlockChain) (block : MinorBlock) (force : Bool) :
    Except ValidateError MinorBlock :=
  if block.version ≠ 0 then .error .incorrectMinorBlockVersion
  else if block.number < 1 then .error .blockNumberLessThanOne
  else if s.hasBlockAndState block.hash && !force then .error .errKnownBlock
  else if s.hasBlockAndState block.parentHash = false then
    if s.hasBlock block.parentHash then .error .errPrunedAncestor else .error .errUnknownAncestor
  else
    match s.getMinorBlock block.parentHash with
    | none => .error .errInvalidMinorBlock
    | some prevBlock => .ok prevBlock

def checkDifficulty (block prevBlock : MinorBlock) : Except ValidateError Unit :=
  if n.skipMinorDifficultyCheck then .ok ()
  else
    match n.calculateDifficulty prevBlock block.time with
    | none => .error .errPreTime
    | some diff => if diff ≠ block.difficulty then .error .errDifficulty else .ok ()

def checkContent (now : ℕ) (block prevBlock : MinorBlock) : Except ValidateError Unit :=
  if block.number ≠ prevBlock.number + 1 then .error .errHeightMismatch
  else if block.branch.value ≠ n.branch.value then .error .errBranch
  else if block.time > now + allowedFutureBlocksTimeValidation then .error .blockTooFarIntoFuture
  else if block.time ≤ prevBlock.time then .error .errTime
  else if block.metaHash ≠ n.metaDataHash block then .error .errMetaHash
  else if block.extra.length > n.blockExtraDataSizeLimit then .error .errExtraLimit
  else if block.gasLimit ≠ n.gasLimit then .error .incorrectGasLimit
  else if block.xShardGasLimit ≥ block.gasLimit then .error .xShardGasLimitShouldNotExceed
  else if block.xShardGasLimit ≠ n.xShardGasLimit then .error .incorrectXShardGasLimit
  else if n.calculateMerkleRoot block.transactions ≠ block.txHash then .error .errTxHash
  else if n.branch.isInBranch block.coinbase.fullShardKey = false then .error .errMinerFullShardKey
  else n.checkDifficulty block prevBlock

def checkPrevRoots (s : MinorBlockChain) (block prevBlock : MinorBlock) : Except ValidateError Unit :=
  match s.prevRoot block, s.prevRoot prevBlock with
  | none, _ => .error .errRootBlockIsNil
  | some _, none => .error .errRootBlockIsNil
  | some rootBlockHeader, some prevRootHeader =>
      if rootBlockHeader.number < prevRootHeader.number then
        .error .preRootBlockHeightMustBeNonDecreasing
      else .ok ()

def checkBlock (now : ℕ) (s : MinorBlockChain) (block : MinorBlock) (force : Bool) :
    Except ValidateError MinorBlock := do
  (n.verifyMinorHeader s block).mapError .header
  let prevBlock ← checkLinkable s block force
  n.checkContent now block prevBlock
  checkPrevRoots s block prevBlock
  pure prevBlock

def checkConfirmed (s : MinorBlockChain) (block prevBlock : MinorBlock) : Except Stop Unit :=
  match s.getLastConfirmedMinorBlockHeaderAtRootBlock block.prevRootBlockHash with
  | none => .ok ()
  | some prevConfirmedMinorHeader =>
      match isSameChain s.getMinorBlock prevBlock prevConfirmedMinorHeader with
      | .error c => .error (.fatal (.crit c))
      | .ok false => .error (.error .mustBeOneMinorChain)
      | .ok true => .ok ()

def checkRootChain (s : MinorBlockChain) (block prevBlock : MinorBlock) : Except Stop Unit :=
  match s.isSameRootChain (s.prevRoot block) (s.prevRoot prevBlock) with
  | .error c => .error (.fatal (.crit c))
  | .ok false => .error (.error .mustBeOneRootChain)
  | .ok true => .ok ()

def validateBlock (now : ℕ) (s : MinorBlockChain) (block : MinorBlock) (force : Bool) :
    Except Stop Unit := do
  let prevBlock ← (n.checkBlock now s block force).mapError Stop.error
  checkConfirmed s block prevBlock
  checkRootChain s block prevBlock
  if n.disablePowCheck || n.validateSeal s block then .ok () else .error (.error .invalidSeal)

end Setup

variable {n : Setup} {now : ℕ} {s : MinorBlockChain} {block : MinorBlock} {force : Bool}

/-- A block that fails after the header check has been compared with its parent all the same. -/
theorem validateBlock_parent {r : Except Stop Unit} (hv : n.validateBlock now s block force = r)
    (hr : ∀ e, r ≠ .error (.error (.header e))) :
    ∃ p, s.getMinorBlock block.parentHash = some p ∧ block.number = p.number + 1 := by
  cases hh : n.verifyMinorHeader s block with
  | error e =>
    refine absurd (hv.symm.trans ?_) (hr e)
    rw [Setup.validateBlock, Setup.checkBlock, hh]
    rfl
  | ok =>
    obtain ⟨p, hp⟩ := Root.verifyHeader_ok_iff.mp hh
    exact ⟨p, hp.parent_eq, hp.number_eq⟩

end QuarkChain.Minor
