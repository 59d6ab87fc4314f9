/-
# Validating and inserting root blocks

`RootBlockValidator.ValidateBlock` (`src/core/rootblock_validator.go`) with the header check of the
consensus engine (`VerifyHeader`, `src/consensus/consensus.go`), and `InsertChain` of
`src/core/rootblockchain.go` on top of it.

A validation ends with the chain (in which the latest confirmed headers of the block are now
stored), with an error, or with the end of the process.  `ValidateBlock` visits two Go maps in an order that
Go leaves open; the order is an argument (`MapOrder`).

No check below returns `ErrPrunedAncestor` or `ErrFutureBlock`, so the side chain and the queue of
future blocks of `insertChain` are never entered, and are not modelled.
-/
import QuarkChain.Root.Chain
import QuarkChain.Lib.Outcome

namespace QuarkChain.Root

open BlockTree Config QuarkChain.Types

class IHeader (β : Type) extends Chained Hash β where
  version : β → ℕ
  time : β → ℕ
  difficulty : β → ℕ
  extra : β → List UInt8

inductive HeaderError
  | incorrectVersion
  | errUnknownAncestor
  | incorrectBlockHeight
  | extraDataTooLong
  | incorrectCreateTime
  | errPreTime
  | invalidDifficulty
  | invalidSeal
deriving DecidableEq

def checkDifficulty (skipDifficultyCheck : Bool) (expectedDiff : Option ℕ) (difficulty : ℕ) :
    Except HeaderError Unit :=
  match skipDifficultyCheck, expectedDiff with
  | true, _ => .ok ()
  | false, none => .error .errPreTime
  | false, some d => if d ≠ difficulty then .error .invalidDifficulty else .ok ()

/-- The part of `VerifyHeader` that compares the header with its parent. -/
def verifyAgainst {β : Type} [IHeader β] (blockExtraDataSizeLimit : ℕ)
    (skipDifficultyCheck : Bool) (calculateDifficulty : β → ℕ → Option ℕ) (sealed : Bool)
    (header parent : β) : Except HeaderError Unit :=
  if number parent + 1 ≠ number header then .error .incorrectBlockHeight
  else if (IHeader.extra header).length > blockExtraDataSizeLimit then .error .extraDataTooLong
  else if IHeader.time header ≤ IHeader.time parent then .error .incorrectCreateTime
  else do
    checkDifficulty skipDifficultyCheck (calculateDifficulty parent (IHeader.time header))
      (IHeader.difficulty header)
    if sealed then .ok () else .error .invalidSeal

def verifyHeader {β : Type} [IHeader β] (getBlock : Hash → Option β) (blockExtraDataSizeLimit : ℕ)
    (skipDifficultyCheck : Bool) (calculateDifficulty : β → ℕ → Option ℕ) (sealed : Bool)
    (header : β) : Except HeaderError Unit :=
  if IHeader.version header ≠ 0 then .error .incorrectVersion
  else
    match getBlock (parentHash header) with
    | none => .error .errUnknownAncestor
    | some parent =>
        verifyAgainst blockExtraDataSizeLimit skipDifficultyCheck calculateDifficulty sealed header
          parent

/-- What a header must satisfy, and its parent. -/
structure HeaderOk {β : Type} [IHeader β] (getBlock : Hash → Option β) (blockExtraDataSizeLimit : ℕ)
    (skipDifficultyCheck : Bool) (calculateDifficulty : β → ℕ → Option ℕ) (sealed : Bool)
    (header parent : β) : Prop where
  version_eq : IHeader.version header = 0
  parent_eq : getBlock (parentHash header) = some parent
  number_eq : number header = number parent + 1
  extra_le : (IHeader.extra header).length ≤ blockExtraDataSizeLimit
  time_lt : IHeader.time parent < IHeader.time header
  difficulty_eq : skipDifficultyCheck = false →
    calculateDifficulty parent (IHeader.time header) = some (IHeader.difficulty header)
  sealed_eq : sealed = true

theorem checkDifficulty_ok_iff {skip : Bool} {expected : Option ℕ} {difficulty : ℕ} :
    checkDifficulty skip expected difficulty = .ok () ↔
      (skip = false → expected = some difficulty) := by
  cases skip with
  | true => simp [checkDifficulty]
  | false =>
    rcases expected with _ | d
    · simp [checkDifficulty]
    by_cases hd : d = difficulty
    · simp [checkDifficulty, hd]
    · simp [checkDifficulty, hd]

/-- **The header check, specified.** -/
theorem verifyHeader_ok_iff {β : Type} [IHeader β] {getBlock : Hash → Option β} {limit : ℕ}
    {skip : Bool} {rule : β → ℕ → Option ℕ} {sealed : Bool} {header : β} :
    verifyHeader getBlock limit skip rule sealed header = .ok () ↔
      ∃ parent, HeaderOk getBlock limit skip rule sealed header parent := by
  constructor
  · intro h
    rw [verifyHeader] at h
    split at h
    · cases h
    rename_i hv
    split at h
    · cases h
    rename_i parent hp
    rw [verifyAgainst] at h
    split_ifs at h with hn he ht
    · obtain ⟨⟨⟩, hd, -⟩ := Outcome.bind_eq_ok.mp h
      exact ⟨parent, by simpa using hv, hp, by omega, by omega, by omega,
        checkDifficulty_ok_iff.mp hd, by assumption⟩
    · obtain ⟨⟨⟩, -, hs⟩ := Outcome.bind_eq_ok.mp h
      cases hs
  · rintro ⟨parent, hok⟩
    rw [verifyHeader, if_neg (by simpa using hok.version_eq), hok.parent_eq]
    simp only [verifyAgainst]
    rw [if_neg (by simpa using hok.number_eq.symm), if_neg (by simpa using hok.extra_le),
      if_neg (by simpa using hok.time_lt), checkDifficulty_ok_iff.mpr hok.difficulty_eq, hok.sealed_eq]
    rfl

instance : IHeader RootBlock where
  version := RootBlock.version
  time := RootBlock.time
  difficulty := RootBlock.difficulty
  extra := RootBlock.extra

/-- `EthDifficultyCalculator.CalculateDifficulty`; `none` is `ErrPreTime`. -/
def ethDifficulty (adjustmentCutoff adjustmentFactor minimumDifficulty : ℕ) (parent : RootBlock)
    (time : ℕ) : Option ℕ :=
  if parent.time > time then none
  else
    let sign : ℤ := max (1 - ((time - parent.time) / adjustmentCutoff : ℕ)) (-99)
    let offset : ℤ := (parent.difficulty / adjustmentFactor : ℕ)
    let diff := parent.difficulty + offset * sign
    if diff < minimumDifficulty then some minimumDifficulty else some diff.toNat

theorem ethDifficulty_pos {cutoff factor minimum time d : ℕ} {parent : RootBlock}
    (hmin : 0 < minimum) (hd : ethDifficulty cutoff factor minimum parent time = some d) :
    0 < d := by
  simp only [ethDifficulty] at hd
  split_ifs at hd with ht hlt <;> cases hd
  · exact hmin
  · omega

inductive ValidateError
  | unexpectedHeight
  | errKnownBlock
  | header (e : HeaderError)
  | noSuchRootBlock
  | errorTotalDiff
  | trackingDataTooLarge
  | incorrectMerkleRoot
  | incorrectEvmStateRoot
  | notContainMinorBlock
  | badCoinbaseAmount
  | minorBlockIsNotValidated
  | minorBlockCreateTimeIsLarger
  | shardIdMustBeOrdered
  | numberMustEqualPrevPlusOne
  | doesNotLinkToPreviousBlock
  | rootBlockNotFound
  | mustBeInTheSameChain
  | tooManyMinorBlocks
  | uninitializedShard
  | genesisBlockHeightIsNotZero
  | doesNotLinkToConfirmedBlock
deriving DecidableEq

/-- The nil dereferences and the index out of range that `ValidateBlock` can run into. -/
inductive Panic
  | nilParentHeader
  | nilShardConfig
  | indexOutOfRange
deriving DecidableEq

inductive Stop
  | error (e : ValidateError)
  | crit (c : Crit)
  | panic (p : Panic)
deriving DecidableEq

/-- The orders in which `ValidateBlock` visits its two Go maps. -/
structure MapOrder where
  hashes : List Hash → List Hash
  groups : List (ℕ × List MinorBlockHeader) → List (ℕ × List MinorBlockHeader)
  hashes_perm : ∀ l, (hashes l).Perm l
  groups_perm : ∀ l, (groups l).Perm l

/-- The variables of the loop over the minor headers.  The map's entry for the current shard is the
first of the list. -/
structure HeaderScan where
  fullShardId : ℕ := 0
  parentHeader : Option MinorBlockHeader := none
  prevRootBlockHashList : List Hash := []
  shardIdToMinorHeadersMap : List (ℕ × List MinorBlockHeader) := []

namespace HeaderScan

variable (sc : HeaderScan) (mheader : MinorBlockHeader)

def openShard : HeaderScan where
  fullShardId := mheader.branch.value
  parentHeader := some mheader
  prevRootBlockHashList := sc.prevRootBlockHashList.insert mheader.prevRootBlockHash
  shardIdToMinorHeadersMap := (mheader.branch.value, [mheader]) :: sc.shardIdToMinorHeadersMap

def extendShard : HeaderScan where
  fullShardId := sc.fullShardId
  parentHeader := some mheader
  prevRootBlockHashList := sc.prevRootBlockHashList.insert mheader.prevRootBlockHash
  shardIdToMinorHeadersMap :=
    match sc.shardIdToMinorHeadersMap with
    | [] => []
    | (id, l) :: rest => (id, l ++ [mheader]) :: rest

end HeaderScan

def scanHeader (s : RootBlockChain) (rootBlock : RootBlock) (sc : HeaderScan)
    (mheader : MinorBlockHeader) : Except Stop HeaderScan :=
  if s.containMinorBlockByHash mheader.hash = false then .error (.error .minorBlockIsNotValidated)
  else if mheader.time > rootBlock.time then .error (.error .minorBlockCreateTimeIsLarger)
  else if mheader.branch.value < sc.fullShardId then .error (.error .shardIdMustBeOrdered)
  else if mheader.branch.value > sc.fullShardId then .ok (sc.openShard mheader)
  else
    match sc.parentHeader with
    | none => .error (.panic .nilParentHeader)
    | some parentHeader =>
        if mheader.number ≠ parentHeader.number + 1 then
          .error (.error .numberMustEqualPrevPlusOne)
        else if mheader.parentHash ≠ parentHeader.hash then
          .error (.error .doesNotLinkToPreviousBlock)
        else .ok (sc.extendShard mheader)

def scanHeaders (s : RootBlockChain) (rootBlock : RootBlock) (headers : List MinorBlockHeader) :
    Except Stop HeaderScan :=
  headers.foldlM (scanHeader s rootBlock) {}

def checkPrevRoot (s : RootBlockChain) (rootBlock : RootBlock) (key : Hash) : Except Stop Unit :=
  match s.getBlock key with
  | none => .error (.error .rootBlockNotFound)
  | some r =>
      match isSameChain s.getBlock rootBlock r with
      | .error c => .error (.crit c)
      | .ok false => .error (.error .mustBeInTheSameChain)
      | .ok true => .ok ()

namespace Setup

variable (n : Setup)

/-- The check of one shard's headers against the latest confirmed header of the shard. -/
def checkShard (rootBlock : RootBlock) (latest : HeaderMap) (group : ℕ × List MinorBlockHeader) :
    Except Stop HeaderMap :=
  match n.config.quarkchain.getShardConfigByFullShardID group.1 with
  | none => .error (.panic .nilShardConfig)
  | some shardConfig =>
      if group.2.length > shardConfig.maxBlocksPerShardInOneRootBlock then
        .error (.error .tooManyMinorBlocks)
      else if group.1 ∉
          n.config.quarkchain.getInitializedShardIdsBeforeRootHeight rootBlock.number then
        .error (.error .uninitializedShard)
      else
        match group.2.head?, group.2.getLast? with
        | some first, some last =>
            match latest.lookup group.1 with
            | none =>
                if first.number ≠ 0 then .error (.error .genesisBlockHeightIsNotZero)
                else .ok (latest.set last)
            | some prevHeader =>
                if prevHeader.number + 1 ≠ first.number ∨ prevHeader.hash ≠ first.parentHash then
                  .error (.error .doesNotLinkToConfirmedBlock)
                else .ok (latest.set last)
        | _, _ => .error (.panic .indexOutOfRange)

def verifyRootHeader (s : RootBlockChain) (rootBlock : RootBlock) : Except HeaderError Unit :=
  verifyHeader s.getBlock n.config.blockExtraDataSizeLimit n.config.skipRootDifficultyCheck
    n.calculateDifficulty (n.verifySeal s rootBlock) rootBlock

/-- The checks of the block itself, after the header check. -/
def checkContent (s : RootBlockChain) (rootBlock : RootBlock) : Except ValidateError Unit :=
  match s.getBlock rootBlock.parentHash with
  | none => .error .noSuchRootBlock
  | some parent =>
      if rootBlock.difficulty + parent.totalDifficulty ≠ rootBlock.totalDifficulty then
        .error .errorTotalDiff
      else if rootBlock.trackingData.length > n.config.blockExtraDataSizeLimit then
        .error .trackingDataTooLarge
      else if n.calculateMerkleRoot rootBlock.minorBlockHeaders ≠ rootBlock.minorHeaderHash then
        .error .incorrectMerkleRoot
      else if rootBlock.root ≠ n.emptyTrieHash then .error .incorrectEvmStateRoot
      else if n.config.skipRootCoinbaseCheck then .ok ()
      else
        match n.calculateRootBlockCoinBase s rootBlock.number rootBlock.minorBlockHeaders with
        | none => .error .notContainMinorBlock
        | some expectedCoinbaseAmount =>
            if expectedCoinbaseAmount ≠ rootBlock.coinbaseAmount then .error .badCoinbaseAmount
            else .ok ()

def validateBlock (ord : MapOrder) (s : RootBlockChain) (rootBlock : RootBlock) (force : Bool) :
    Except Stop RootBlockChain :=
  if rootBlock.number < 1 then .error (.error .unexpectedHeight)
  else if s.hasBlock rootBlock.hash && !force then .error (.error .errKnownBlock)
  else do
    (n.verifyRootHeader s rootBlock).mapError (Stop.error ∘ ValidateError.header)
    (n.checkContent s rootBlock).mapError Stop.error
    let sc ← scanHeaders s rootBlock rootBlock.minorBlockHeaders
    (ord.hashes sc.prevRootBlockHashList).forM (checkPrevRoot s rootBlock)
    let latest ← (ord.groups sc.shardIdToMinorHeadersMap).foldlM (n.checkShard rootBlock)
      (s.getLatestMinorBlockHeaders rootBlock.parentHash)
    pure (s.setLatestMinorBlockHeaders rootBlock.hash latest)

inductive InsertError
  | nonContiguousInsert
  | validate (e : Stop)
  | blockIsTooOld
  | reorg (e : ForkError)

def isTooOld (s : RootBlockChain) (block : RootBlock) : Bool :=
  !s.isCheckDB &&
    Account.absUint32 s.currentBlock.number block.number > n.config.maxStaleRootBlockHeightDiff

def importBlock (s : RootBlockChain) (block : RootBlock) : Option InsertError × RootBlockChain :=
  if n.isTooOld s block then (some .blockIsTooOld, s)
  else
    match s.writeBlockWithState block with
    | (.error e, s') => (some (.reorg e), s')
    | (.ok _, s') => (none, s')

/-- `insertChain`.  Known blocks at the start of the batch that are not above the head are
skipped. -/
def insertChain (ord : MapOrder) :
    Bool → RootBlockChain → List RootBlock → Option InsertError × RootBlockChain
  | _, s, [] => (none, s)
  | skipping, s, block :: rest =>
      match n.validateBlock ord s block s.isCheckDB with
      | .error e =>
          if skipping ∧ e = .error .errKnownBlock ∧ block.number ≤ s.currentBlock.number then
            insertChain ord true s rest
          else (some (.validate e), s)
      | .ok s₁ =>
          match n.importBlock s₁ block with
          | (some e, s₂) => (some e, s₂)
          | (none, s₂) => insertChain ord false s₂ rest

def contiguous : List RootBlock → Bool
  | [] => true
  | [_] => true
  | a :: b :: rest => b.number == a.number + 1 && b.parentHash == a.hash && contiguous (b :: rest)

def insertChainChecked (ord : MapOrder) (s : RootBlockChain) (chain : List RootBlock) :
    Option InsertError × RootBlockChain :=
  if contiguous chain then n.insertChain ord true s chain else (some .nonContiguousInsert, s)

end Setup
end QuarkChain.Root
