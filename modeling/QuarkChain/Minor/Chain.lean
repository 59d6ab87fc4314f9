/-
# The minor chain's store, head and root tip

`MinorBlockChain` of `src/core/minorblockchain.go` and `src/core/minorblockchain_addon.go`.  Block and state
caches repeat the database and are not modelled; transaction lookup entries, receipts, logs and events are left
out.

Three functions move the head.  `importBlock` (an executed block: `updateTip` decides,
`writeBlockWithState` stores, and `reorg` rewrites the index when the block does not continue the
head), `addRootBlock` (a heavier root block: the head jumps to what it confirms or walks back to a
block it supports, or the shard starts over from another genesis block) and `setHead`.

A call ends the process (`Fatal`) or returns; what it returns may be an error, and the chain may have
changed all the same.  So a result is a value or an error together with the chain afterwards.
-/
import QuarkChain.Lib.Reorg
import QuarkChain.Lib.Outcome
import QuarkChain.Root.SameChain
import QuarkChain.Core.Types
import QuarkChain.XShard.AddRootBlock

namespace QuarkChain.Minor

open Account BlockTree Config QuarkChain.Types
open Root (Crit emptyHash isSameChain)

/-- `types.MinorBlock`: what processing reads, and the rest of what validation checks. -/
structure MinorBlock extends Core.MinorBlock where
  version : ℕ := 0
  difficulty : ℕ := 0
  extra : List UInt8 := []
  metaHash : Hash := 0
  txHash : Hash := 0

instance : Chained Hash MinorBlock where
  blockHash b := b.hash
  parentHash b := b.parentHash
  number b := b.number

@[simp] theorem chained_hash (b : MinorBlock) : blockHash b = b.hash := rfl
@[simp] theorem chained_parentHash (b : MinorBlock) : parentHash b = b.parentHash := rfl
@[simp] theorem chained_number (b : MinorBlock) : number b = b.number := rfl

def MinorBlock.header (b : MinorBlock) : MinorBlockHeader where
  hash := b.hash
  parentHash := b.parentHash
  number := b.number
  branch := b.branch
  prevRootBlockHash := b.prevRootBlockHash
  time := b.time
  coinbase := b.coinbase

structure MinorBlockChain where
  getMinorBlock : Hash → Option MinorBlock
  canonicalHash : ℕ → Option Hash
  currentBlock : MinorBlock
  genesisBlock : MinorBlock
  /-- `HasState`, by state root: the trie can be opened, as `StateAt` does. -/
  hasState : Hash → Bool
  /-- The root of `currentEvmState`. -/
  currentEvmState : Hash
  /-- `ReadTotalTx`.  `putMinorBlock` writes the list of deposit hashes right after it, so this also
  tells whether `getXShardDepositHashList` finds one. -/
  totalTxCount : Hash → Option ℕ
  getRootBlockByHash : Hash → Option RootBlock
  /-- `ReadLastConfirmedMinorBlockHeaderAtRootBlock`; `none` is the empty hash. -/
  lastConfirmed : Hash → Option Hash
  /-- `ReadGenesis`, by the hash of the root block. -/
  readGenesis : Hash → Option MinorBlock
  rootTip : RootBlock
  confirmedHeaderTip : Option MinorBlock
  readCrossShardTxList : Hash → Option (List CrossShardTransactionDeposit)

/-- Nil dereferences and panics of the functions below. -/
inductive Panic
  | nilTipPrevRootHeader
  | nilPreBlock
  | nilBlock
  | nilGenesis
  | nilLastConfirmed
deriving DecidableEq

/-- How the process can end.  Running out of fuel stands for a walk along links that do not go down
one height at a time, and for a reset that starts over without end. -/
inductive Fatal
  | crit (c : Crit)
  | panic (p : Panic)
  | outOfFuel
deriving DecidableEq

inductive ChainError
  | addRootBlock (e : XShard.AddRootBlockError)
  | errNotSameRootChain
  | genesisRootHeightSmallThanConfig
  | errMinorBlockIsNil
  | headerNumberNotMatch
  | missingState
  | reorg (e : ForkError)
  | xShardDepositHashListErr
  | getTotalTxFailed
  | missingPrevBlock
deriving DecidableEq

/-- What a call that changes the chain ends with: the process, or a value or error and the chain. -/
abbrev Result (α : Type) := Except Fatal (Except ChainError α × MinorBlockChain)

/-- What the chain is set up with: configuration, branch and the genesis block of the shard over a
root block (`Genesis.CreateMinorBlock`). -/
structure ShardSetup where
  config : QuarkChainConfig
  branch : Branch
  createMinorBlock : RootBlock → MinorBlock

namespace ShardSetup

variable (n : ShardSetup)

def genesisRootHeight : ℕ := n.config.getGenesisRootHeight n.branch.value

end ShardSetup

namespace MinorBlockChain

variable (s : MinorBlockChain)

def hasBlock (h : Hash) : Bool := (s.getMinorBlock h).isSome

def hasBlockAndState (h : Hash) : Bool := (s.getMinorBlock h).any fun b => s.hasState b.root

def getBlockByNumber (number : ℕ) : Option MinorBlock := (s.canonicalHash number).bind s.getMinorBlock

def prevRoot (b : MinorBlock) : Option RootBlock := s.getRootBlockByHash b.prevRootBlockHash

def getLastConfirmedMinorBlockHeaderAtRootBlock (rootHash : Hash) : Option MinorBlock :=
  (s.lastConfirmed rootHash).bind s.getMinorBlock

def isSameRootChain (long short : Option RootBlock) : Except Crit Bool :=
  match long, short with
  | some l, some r => if l.number < r.number then .ok false else isSameChain s.getRootBlockByHash l r
  | _, _ => .ok false

def isMinorBlockLinkedToRootTip (mBlock : MinorBlock) : Except Crit Bool :=
  match s.confirmedHeaderTip with
  | none => .ok true
  | some confirmed =>
      if mBlock.number ≤ confirmed.number then .ok false
      else isSameChain s.getMinorBlock mBlock confirmed

def writeMinorBlock (b : MinorBlock) : MinorBlockChain :=
  { s with getMinorBlock := Function.update s.getMinorBlock b.hash (some b) }

def insert (b : MinorBlock) : MinorBlockChain :=
  { s with
    canonicalHash := Function.update s.canonicalHash b.number (some b.hash)
    currentBlock := b }

def putRootBlock (rBlock : RootBlock) (minorHeader : Option MinorBlockHeader) : MinorBlockChain :=
  { s with
    getRootBlockByHash := Function.update s.getRootBlockByHash rBlock.hash (some rBlock)
    lastConfirmed :=
      Function.update s.lastConfirmed rBlock.hash (minorHeader.map MinorBlockHeader.hash) }

/-- `putMinorBlock`.  The block stays stored when its count of transactions cannot be computed. -/
def putMinorBlock (mBlock : MinorBlock) : Except ChainError Unit × MinorBlockChain :=
  let s₁ := if s.hasBlock mBlock.hash then s else s.writeMinorBlock mBlock
  if mBlock.number > 1 ∧ (s₁.totalTxCount mBlock.parentHash).isNone then
    (.error .getTotalTxFailed, s₁)
  else
    let prevCount := if mBlock.number > 1 then (s₁.totalTxCount mBlock.parentHash).getD 0 else 0
    (.ok (), { s₁ with
      totalTxCount := Function.update s₁.totalTxCount mBlock.hash
        (some ((prevCount + mBlock.transactions.length) % 2 ^ 32)) })

/-- The last loop of `reorg`: insert a branch, its lowest block first, with its lookup entries. -/
def insertBranch : List MinorBlock → MinorBlockChain → Except ChainError Unit × MinorBlockChain
  | [], s => (.ok (), s)
  | b :: newChain, s =>
      match insertBranch newChain s with
      | (.error e, s') => (.error e, s')
      | (.ok _, s') =>
          if (s'.totalTxCount b.hash).isNone then (.error .xShardDepositHashListErr, s'.insert b)
          else (.ok (), s'.insert b)

/-- `reorg`: take the old branch out of the index, then insert the new one.  Over different genesis
blocks the branches are the whole chains. -/
def reorg (oldBlock newBlock : MinorBlock) : Except ChainError Unit × MinorBlockChain :=
  match branches s.getMinorBlock oldBlock newBlock with
  | .error e => (.error (.reorg e), s)
  | .ok (oldChain, newChain, newBlock) =>
      let s₁ := { s with canonicalHash := erase s.canonicalHash oldChain }
      insertBranch newChain (if newChain.isEmpty then s₁.insert newBlock else s₁)

/-- `updateTip`: does the block become the head?  `none` is the error `missing prev block`. -/
def updateTip (block : MinorBlock) : Except Fatal (Option Bool) :=
  match s.prevRoot block with
  | none => .ok none
  | some preRootBlock =>
      match s.isSameRootChain (some s.rootTip) (some preRootBlock) with
      | .error c => .error (.crit c)
      | .ok false => .ok (some false)
      | .ok true =>
          if block.parentHash = s.currentBlock.hash then .ok (some true)
          else
            match s.isMinorBlockLinkedToRootTip block with
            | .error c => .error (.crit c)
            | .ok false => .ok (some false)
            | .ok true =>
                if block.number > s.currentBlock.number then .ok (some true)
                else if block.number < s.currentBlock.number then .ok (some false)
                else
                  match s.prevRoot s.currentBlock with
                  | none => .error (.panic .nilTipPrevRootHeader)
                  | some tipPrevRootHeader =>
                      .ok (some (tipPrevRootHeader.number < preRootBlock.number))

/-- `WriteBlockWithState`, for a block whose execution ended in the state it names. -/
def writeBlockWithState (block : MinorBlock) (updateTip : Bool) : Except ChainError Unit × MinorBlockChain :=
  match s.putMinorBlock block with
  | (.error e, s₁) => (.error e, s₁)
  | (.ok _, s₁) =>
      let s₂ := { s₁ with hasState := Function.update s₁.hasState block.root true }
      if updateTip then
        if block.parentHash = s.currentBlock.hash then (.ok (), s₂.insert block)
        else
          match s₂.reorg s.currentBlock block with
          | (.error e, s₃) => (.error e, s₃)
          | (.ok _, s₃) => (.ok (), s₃.insert block)
      else (.ok (), s₂)

/-- What `insertChain` does with an executed block.  The live state is the block's from the decision on. -/
def importBlock (block : MinorBlock) : Result Unit :=
  match s.updateTip block with
  | .error f => .error f
  | .ok none => .ok (.error .missingPrevBlock, s)
  | .ok (some true) =>
      .ok ({ s with currentEvmState := block.root }.writeBlockWithState block true)
  | .ok (some false) => .ok (s.writeBlockWithState block false)

/-- The rewind of `setHead`: delete the blocks of the head above a height, and their index entries;
the head is the block at that height, or the genesis block when it is missing or has no state. -/
def rewindTo (head : ℕ) : MinorBlockChain :=
  let r := rewind s.getMinorBlock head s.currentBlock.number s.currentBlock
  { s with
    getMinorBlock := fun h => if h ∈ r.1.map blockHash then none else s.getMinorBlock h
    canonicalHash := erase s.canonicalHash r.1
    currentBlock := (r.2.filter fun b => s.hasState b.root).getD s.genesisBlock }

/-- `setHead`, with `loadLastState` at its end: when the new head is not stored, the chain is reset
to its genesis block, and that calls `setHead` again. -/
def setHead : ℕ → MinorBlockChain → ℕ → Result Unit
  | nested, s, head =>
      let s₁ := s.rewindTo head
      match s₁.getMinorBlock s₁.currentBlock.hash with
      | some b => .ok (.ok (), { s₁ with currentBlock := b })
      | none =>
          match nested with
          | 0 => .error .outOfFuel
          | nested + 1 =>
              if s₁.hasState s₁.genesisBlock.root then
                match setHead nested (s₁.writeMinorBlock s₁.genesisBlock) 0 with
                | .error f => .error f
                | .ok (.error e, s₂) => .ok (.error e, s₂)
                | .ok (.ok _, s₂) =>
                    .ok (.ok (), { s₂.insert s₁.genesisBlock with
                      genesisBlock := s₁.genesisBlock
                      currentEvmState := s₁.genesisBlock.root })
              else .ok (.error .missingState, s₁)

def setHeadToGenesisBlock (nested : ℕ) (genesis : MinorBlock) : Result Unit :=
  if s.hasState genesis.root then
    match setHead nested (s.writeMinorBlock genesis) 0 with
    | .error f => .error f
    | .ok (.error e, s₁) => .ok (.error e, s₁)
    | .ok (.ok _, s₁) =>
        .ok (.ok (), { s₁.insert genesis with
          genesisBlock := genesis
          currentEvmState := genesis.root })
  else .ok (.error .missingState, s)

def shardNode (n : ShardSetup) : XShard.ShardNode where
  chain :=
    { config := n.config
      branch := n.branch
      getRootBlockByHash := s.getRootBlockByHash
      readCrossShardTxList := s.readCrossShardTxList }
  getMinorBlock h := (s.getMinorBlock h).map MinorBlock.header
  lastConfirmed := s.lastConfirmed
  required _ _ := false

/-- The checks of `AddRootBlock` on minor headers, and the last header of the shard that is confirmed. -/
def checkMinorHeaders (n : ShardSetup) (rBlock : RootBlock) :
    Except XShard.AddRootBlockError (Option MinorBlockHeader) :=
  match (s.shardNode n).scanHeaders rBlock.minorBlockHeaders with
  | .error e => .error e
  | .ok shardHeaders =>
      if shardHeaders.length > (s.shardNode n).getMaxBlocksInOneRootBlock then
        .error .shardHeadersBigThanConfig
      else (s.shardNode n).confirmedHeader rBlock shardHeaders

def reWriteBlockIndexTo (oldBlock newBlock : MinorBlock) : Except ChainError Unit × MinorBlockChain :=
  if s.hasState newBlock.root then
    match s.reorg oldBlock newBlock with
    | (.error e, s₁) => (.error e, s₁)
    | (.ok _, s₁) => (.ok (), { s₁ with currentEvmState := newBlock.root })
  else (.error .missingState, s)

/-- The head after a root block was chosen: the block it confirms, unless that is canonical. -/
def jumpTo (shardHeader : Option MinorBlockHeader) : MinorBlock :=
  match shardHeader with
  | none => s.currentBlock
  | some h =>
      if (s.getBlockByNumber h.number).map blockHash = some h.hash then s.currentBlock
      else (s.getMinorBlock h.hash).getD s.currentBlock

/-- The loop of `AddRootBlock` that walks back to a block whose prev-root block is on the chain of
the root tip.  The flag tells that it stands at height zero without having found one. -/
def walkBack : ℕ → MinorBlock → Except Fatal (Bool × MinorBlock)
  | fuel, b =>
      match s.isSameRootChain (some s.rootTip) (s.prevRoot b) with
      | .error c => .error (.crit c)
      | .ok true => .ok (false, b)
      | .ok false =>
          if b.number = 0 then .ok (true, b)
          else
            match fuel with
            | 0 => .error .outOfFuel
            | fuel + 1 =>
                match s.getMinorBlock b.parentHash with
                | none => .error (.panic .nilPreBlock)
                | some preBlock => walkBack fuel preBlock

/-- The reset of `AddRootBlock`: to the genesis block over the root tip's ancestor at the shard's
genesis height. -/
def resetGenesis (n : ShardSetup) (nested : ℕ) : Result Bool :=
  if s.rootTip.number < n.genesisRootHeight then .ok (.error .genesisRootHeightSmallThanConfig, s)
  else
    match lower s.getRootBlockByHash .invalidOldChain n.genesisRootHeight
        (s.rootTip.number - n.genesisRootHeight) s.rootTip with
    | .error _ => .ok (.error .errMinorBlockIsNil, s)
    | .ok (_, genesisRootHeader) =>
        match s.readGenesis genesisRootHeader.hash with
        | none => .error (.panic .nilGenesis)
        | some newGenesis =>
            match s.setHeadToGenesisBlock nested newGenesis with
            | .error f => .error f
            | .ok (.error e, s₁) => .ok (.error e, s₁)
            | .ok (.ok _, s₁) => .ok (.ok true, s₁)

/-- `AddRootBlock`, after the root block has been stored and found heavier than the tip. -/
def switchRootTip (n : ShardSetup) (nested : ℕ) (rBlock : RootBlock)
    (shardHeader : Option MinorBlockHeader) : Result Bool :=
  let s₁ := { s with
    rootTip := rBlock
    confirmedHeaderTip := shardHeader.bind fun h => s.getMinorBlock h.hash }
  let newTip := s₁.jumpTo shardHeader
  match s₁.walkBack newTip.number newTip with
  | .error f => .error f
  | .ok (true, b) => { s₁ with currentBlock := b }.resetGenesis n nested
  | .ok (false, b) =>
      if b.hash = s.currentBlock.hash then .ok (.ok true, { s₁ with currentBlock := b })
      else
        match s.getMinorBlock s.currentBlock.hash, s.getMinorBlock b.hash with
        | some origBlock, some newBlock =>
            match { s₁ with currentBlock := b }.reWriteBlockIndexTo origBlock newBlock with
            | (.error e, s₂) => .ok (.error e, s₂)
            | (.ok _, s₂) => .ok (.ok true, s₂)
        | _, _ => .error (.panic .nilBlock)

/-- Is the prev-root block of what the root block confirms an ancestor of the root block? -/
def confirmsOwnChain (rBlock : RootBlock) (shardHeader : Option MinorBlockHeader) : Except Crit Bool :=
  match shardHeader with
  | none => .ok true
  | some h => s.isSameRootChain (some rBlock) (s.getRootBlockByHash h.prevRootBlockHash)

/-- `AddRootBlock`, from the point where the root block has been stored. -/
def chooseRootTip (n : ShardSetup) (nested : ℕ) (rBlock : RootBlock)
    (shardHeader : Option MinorBlockHeader) : Result Bool :=
  match s.confirmsOwnChain rBlock shardHeader with
  | .error c => .error (.crit c)
  | .ok false => .ok (.error .errNotSameRootChain, s)
  | .ok true =>
      if rBlock.totalDifficulty ≤ s.rootTip.totalDifficulty then
        match s.isSameRootChain (some s.rootTip) (s.prevRoot s.currentBlock) with
        | .error c => .error (.crit c)
        | .ok false => .ok (.error .errNotSameRootChain, s)
        | .ok true => .ok (.ok false, s)
      else s.switchRootTip n nested rBlock shardHeader

/-- `AddRootBlock`; the value tells whether the root block became the tip. -/
def addRootBlock (n : ShardSetup) (nested : ℕ) (rBlock : RootBlock) : Result Bool :=
  if rBlock.number ≤ n.genesisRootHeight then
    .ok (.error (.addRootBlock .rBlockIsSmallThanConfig), s)
  else if rBlock.version ≠ 0 then .ok (.error (.addRootBlock .incorrectRootBlockVersion), s)
  else if (s.getRootBlockByHash rBlock.hash).isSome then .ok (.ok false, s)
  else if (s.getRootBlockByHash rBlock.parentHash).isNone then
    .ok (.error (.addRootBlock .errRootBlockIsNil), s)
  else
    match s.checkMinorHeaders n rBlock with
    | .error .nilLastConfirmed => .error (.panic .nilLastConfirmed)
    | .error e => .ok (.error (.addRootBlock e), s)
    | .ok shardHeader => (s.putRootBlock rBlock shardHeader).chooseRootTip n nested rBlock shardHeader

def initial (n : ShardSetup) (rBlock : RootBlock) : MinorBlockChain where
  getMinorBlock :=
    Function.update (fun _ => none) (n.createMinorBlock rBlock).hash (some (n.createMinorBlock rBlock))
  canonicalHash := Function.update (fun _ => none) 0 (some (n.createMinorBlock rBlock).hash)
  currentBlock := n.createMinorBlock rBlock
  genesisBlock := n.createMinorBlock rBlock
  hasState := Function.update (fun _ => false) (n.createMinorBlock rBlock).root true
  currentEvmState := (n.createMinorBlock rBlock).root
  totalTxCount := Function.update (fun _ => none) (n.createMinorBlock rBlock).hash (some 0)
  getRootBlockByHash := Function.update (fun _ => none) rBlock.hash (some rBlock)
  lastConfirmed _ := none
  readGenesis := Function.update (fun _ => none) rBlock.hash (some (n.createMinorBlock rBlock))
  rootTip := rBlock
  confirmedHeaderTip := none
  readCrossShardTxList _ := none

end MinorBlockChain
end QuarkChain.Minor
