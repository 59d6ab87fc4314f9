/-
# Adding root blocks to a shard

`MinorBlockChain.InitGenesisState` and `MinorBlockChain.AddRootBlock`
(`src/core/minorblockchain_addon.go`): how root blocks enter a shard's store.  For a header of another shard
`AddRootBlock` decides, from the header's prev-root block alone, whether a deposit list must be stored
(`requiresTxList`) or must not be.  The cursor later takes the same decision on its own (`mayDeliver`).

`addRootBlock` ends where the source has stored the block; the fork choice that follows writes neither of the
two stores.  The decisions are kept in a history variable, `required`, so that what a traversal yields can be
compared with them.
-/
import QuarkChain.XShard.Canonical

namespace QuarkChain.XShard

open Account Config QuarkChain.Types

/-- The stores of a shard that adding root blocks reads and writes. -/
structure ShardNode where
  chain : MinorBlockChain
  /-- `GetMinorBlock`, for the blocks of this shard. -/
  getMinorBlock : Hash → Option MinorBlockHeader
  /-- `ReadLastConfirmedMinorBlockHeaderAtRootBlock`; `none` is the empty hash. -/
  lastConfirmed : Hash → Option Hash
  /-- History: the decisions `requiresTxList` when the root block of this hash was added. -/
  required : Hash → MinorBlockHeader → Bool

/-- The errors of `AddRootBlock` up to the point where the block is stored; the last one is the
dereference of a missing last confirmed block. -/
inductive AddRootBlockError
  | rBlockIsSmallThanConfig
  | incorrectRootBlockVersion
  | errRootBlockIsNil
  | errMinorBlockIsNil
  | alreadyHave
  | notHave
  | shardHeadersBigThanConfig
  | masterShouldAssureThisCheck
  | nilLastConfirmed
deriving DecidableEq

/-- Must a deposit list be stored for this header of another shard?  The decision of
`AddRootBlock`: the prev-root block is known, is not at the shard's genesis height, and the two
shards were neighbours at its height. -/
def requiresTxList (bc : MinorBlockChain) (h : MinorBlockHeader) : Bool :=
  h.branch != bc.branch &&
    (bc.getRootBlockByHash h.prevRootBlockHash).any fun p =>
      p.number != bc.getGenesisRootHeight && bc.isNeighbor h.branch p.number

namespace ShardNode

variable (s : ShardNode)

def getLastConfirmedMinorBlockHeaderAtRootBlock (rootHash : Hash) : Option MinorBlockHeader :=
  (s.lastConfirmed rootHash).bind s.getMinorBlock

def getMaxBlocksInOneRootBlock : ℕ :=
  (s.chain.config.getShardConfigByFullShardID s.chain.branch.value).elim 0
    ShardConfig.maxBlocksPerShardInOneRootBlock

def scanHeaders : List MinorBlockHeader → Except AddRootBlockError (List MinorBlockHeader)
  | [] => .ok []
  | h :: rest =>
      if h.branch = s.chain.branch then
        if (s.getMinorBlock h.hash).isNone then .error .errMinorBlockIsNil
        else (scanHeaders rest).map (h :: ·)
      else if requiresTxList s.chain h then
        if (s.chain.readCrossShardTxList h.hash).isNone then .error .notHave
        else scanHeaders rest
      else if (s.chain.readCrossShardTxList h.hash).isSome then .error .alreadyHave
      else scanHeaders rest

def confirmedHeader (rBlock : RootBlock) (shardHeaders : List MinorBlockHeader) :
    Except AddRootBlockError (Option MinorBlockHeader) :=
  let last := s.getLastConfirmedMinorBlockHeaderAtRootBlock rBlock.parentHash
  match shardHeaders with
  | [] => .ok last
  | first :: _ =>
      if first.number = 0 then .ok shardHeaders.getLast?
      else
        match last with
        | none => .error .nilLastConfirmed
        | some l =>
            if first.parentHash = l.hash then .ok shardHeaders.getLast?
            else .error .masterShouldAssureThisCheck

/-- `putRootBlock`, recording which headers needed a list. -/
def putRootBlock (rBlock : RootBlock) (shardHeader : Option MinorBlockHeader) : ShardNode :=
  { s with
    chain :=
      { s.chain with
        getRootBlockByHash := Function.update s.chain.getRootBlockByHash rBlock.hash (some rBlock) }
    lastConfirmed :=
      Function.update s.lastConfirmed rBlock.hash (shardHeader.map MinorBlockHeader.hash)
    required := Function.update s.required rBlock.hash (requiresTxList s.chain) }

/-- `AddRootBlock`, up to and including the store. -/
def addRootBlock (rBlock : RootBlock) : Except AddRootBlockError ShardNode :=
  if rBlock.number ≤ s.chain.getGenesisRootHeight then .error .rBlockIsSmallThanConfig
  else if rBlock.version ≠ 0 then .error .incorrectRootBlockVersion
  else if (s.chain.getRootBlockByHash rBlock.hash).isSome then .ok s
  else if (s.chain.getRootBlockByHash rBlock.parentHash).isNone then .error .errRootBlockIsNil
  else
    match s.scanHeaders rBlock.minorBlockHeaders with
    | .error e => .error e
    | .ok shardHeaders =>
        if shardHeaders.length > s.getMaxBlocksInOneRootBlock then
          .error .shardHeadersBigThanConfig
        else
          match s.confirmedHeader rBlock shardHeaders with
          | .error e => .error e
          | .ok shardHeader => .ok (s.putRootBlock rBlock shardHeader)

/-- `AddCrossShardTxListByMinorBlockHash`: a deposit list arrives from another shard. -/
def addCrossShardTxListByMinorBlockHash (h : Hash) (txList : List CrossShardTransactionDeposit) : ShardNode :=
  { s with
    chain :=
      { s.chain with
        readCrossShardTxList := Function.update s.chain.readCrossShardTxList h (some txList) } }

def putMinorBlock (h : MinorBlockHeader) : ShardNode :=
  { s with getMinorBlock := Function.update s.getMinorBlock h.hash (some h) }

/-- `InitGenesisState` on a fresh database: the genesis root block `g` is stored without a look at
its headers, and with it the shard's genesis block; `none` is the error `header number not match`. -/
def initGenesisState (config : QuarkChainConfig) (branch : Branch)
    (txLists : Hash → Option (List CrossShardTransactionDeposit)) (g : RootBlock)
    (gBlock : MinorBlockHeader) : Option ShardNode :=
  if g.number ≠ config.getGenesisRootHeight branch.value then none
  else
    some
      { chain :=
          { config, branch
            getRootBlockByHash := Function.update (fun _ => none) g.hash (some g)
            readCrossShardTxList := txLists }
        getMinorBlock := Function.update (fun _ => none) gBlock.hash (some gBlock)
        lastConfirmed := fun _ => none
        required := fun _ _ => false }

end ShardNode

variable {s s' : ShardNode} {r : RootBlock}

theorem scanHeaders_spec {hs own : List MinorBlockHeader} (hok : s.scanHeaders hs = .ok own) :
    ∀ h ∈ hs, h.branch ≠ s.chain.branch →
      ((s.chain.readCrossShardTxList h.hash).isSome = true ↔ requiresTxList s.chain h = true) := by
  induction hs generalizing own with
  | nil => simp
  | cons mh rest ih =>
    have hrest : ∃ own', s.scanHeaders rest = .ok own' := by
      rw [ShardNode.scanHeaders] at hok
      split_ifs at hok
      · cases hscan : s.scanHeaders rest with
        | error e => simp [hscan, Except.map] at hok
        | ok own' => exact ⟨own', rfl⟩
      · exact ⟨own, hok⟩
      · exact ⟨own, hok⟩
    intro h hh hbranch
    rcases List.mem_cons.mp hh with rfl | hh
    · rw [ShardNode.scanHeaders, if_neg hbranch] at hok
      split_ifs at hok with hreq hlist hlist
      · simp only [hreq, iff_true]
        simpa [Option.isSome_iff_ne_none] using hlist
      · simp [hreq, hlist]
    · obtain ⟨own', hscan⟩ := hrest
      exact ih hscan h hh hbranch

/-- **What a successful `AddRootBlock` does.** -/
theorem addRootBlock_cases (hok : s.addRootBlock r = .ok s') : s' = s ∨
      s.chain.getGenesisRootHeight < r.number ∧ s.chain.getRootBlockByHash r.hash = none ∧
        (∃ p, s.chain.getRootBlockByHash r.parentHash = some p) ∧
        (∀ h ∈ r.minorBlockHeaders, h.branch ≠ s.chain.branch →
          ((s.chain.readCrossShardTxList h.hash).isSome = true ↔ requiresTxList s.chain h = true)) ∧
        ∃ shardHeader, s' = s.putRootBlock r shardHeader := by
  rw [ShardNode.addRootBlock] at hok
  split_ifs at hok with hnum hver hknown hparent
  · left
    simpa using hok.symm
  right
  split at hok
  · cases hok
  rename_i own hscan
  split_ifs at hok
  split at hok
  · cases hok
  rename_i shardHeader _
  refine ⟨by omega, by simpa using hknown, ?_, scanHeaders_spec hscan, shardHeader, ?_⟩
  · exact Option.isSome_iff_exists.mp (by simpa [Option.isSome_iff_ne_none] using hparent)
  · simpa using hok.symm

end QuarkChain.XShard
