/-
# The cluster configuration

The part of `src/cluster/config/cluster_config.go` the minor chain reads: the shard table by full shard id
(`QuarkChainConfig.shards`), the shards initialised before a root height, and the map from full shard keys to
full shard ids.  The Go map is a list with pairwise different keys (`shards_nodup`); the functions below only
count and look up, so that its order is not observable.
-/
import Mathlib.Data.List.Nodup
import QuarkChain.Account.Branch

namespace QuarkChain.Config

open Account

/-- The fields of `config.ShardGenesis` that the modelled functions read. -/
structure ShardGenesis where
  rootHeight : ℕ
  gasLimit : ℕ
deriving DecidableEq

/-- The fields of `config.ShardConfig` that the modelled functions read; `genesis` is a pointer in
the source and may be nil. -/
structure ShardConfig where
  chainID : ℕ
  shardSize : ℕ
  shardID : ℕ
  genesis : Option ShardGenesis
  maxBlocksPerShardInOneRootBlock : ℕ
deriving DecidableEq

/-- `ShardConfig.GetFullShardId`.  The shift is one of `uint32`: a chain id of more than sixteen bits
loses the upper ones. -/
def ShardConfig.getFullShardId (s : ShardConfig) : ℕ :=
  s.chainID <<< 16 % 2 ^ 32 ||| s.shardSize ||| s.shardID

/-- The fields of `config.QuarkChainConfig` that the cross-shard code reads. -/
structure QuarkChainConfig where
  shards : List ShardConfig
  defaultChainTokenID : ℕ
  xShardGasDDOSFixRootHeight : ℕ
  /-- The shard table is a map: no two entries share a key. -/
  shards_nodup : (shards.map ShardConfig.getFullShardId).Nodup

namespace QuarkChainConfig

variable (q : QuarkChainConfig)

def getShardConfigByFullShardID (fullShardId : ℕ) : Option ShardConfig :=
  q.shards.find? fun s => s.getFullShardId = fullShardId

/-- `GetGenesisRootHeight`.  The source dereferences the entry; it is only ever called with the
id of a configured shard that has a genesis (the node's own), and `0` stands for the panic. -/
def getGenesisRootHeight (fullShardId : ℕ) : ℕ :=
  ((q.getShardConfigByFullShardID fullShardId).bind ShardConfig.genesis).elim 0
    ShardGenesis.rootHeight

def initializedBefore (rootHeight : ℕ) (s : ShardConfig) : Bool :=
  s.genesis.any fun g => g.rootHeight < rootHeight

def getInitializedShardIdsBeforeRootHeight (rootHeight : ℕ) : List ℕ :=
  (q.shards.filter (initializedBefore rootHeight)).map ShardConfig.getFullShardId

def getShardSizeByChainId (chainID : ℕ) : Option ℕ :=
  (q.shards.find? fun s => s.chainID = chainID).map ShardConfig.shardSize

/-- `initAndValidate`, which panics on the shard tables that fail here.  That every entry is kept under
its full shard id is part of the table (`shards_nodup`).  The last check reads a missing entry of a Go
map as zero, so it does not ask for chain `0`. -/
def initAndValidate (chainSize : ℕ) : Bool :=
  let chainIDs := q.shards.map ShardConfig.chainID
  let shardIDs chainID := (q.shards.filter fun s => s.chainID = chainID).map ShardConfig.shardID
  (chainIDs.all fun chainID =>
    (q.getShardSizeByChainId chainID).any fun shardSize =>
      (shardIDs chainID).length == shardSize &&
        (List.range shardSize).all fun i => (shardIDs chainID).contains i) &&
  (List.range chainSize).all fun i => i == 0 || chainIDs.contains i

/-- `GetFullShardIdByFullShardKey`: `none` is the error of `GetShardSizeByChainId`. -/
def getFullShardIdByFullShardKey (fullShardKey : ℕ) : Option ℕ :=
  let chainID := fullShardKey >>> 16
  (q.getShardSizeByChainId chainID).map fun shardSize =>
    chainID <<< 16 ||| shardSize ||| (fullShardKey &&& predU32 shardSize)

theorem initializedBefore_mono {h₁ h₂ : ℕ} (h : h₁ ≤ h₂) (s : ShardConfig)
    (hs : initializedBefore h₁ s = true) : initializedBefore h₂ s = true := by
  simp only [initializedBefore, Option.any_eq_true, decide_eq_true_eq] at hs ⊢
  obtain ⟨g, hg, hlt⟩ := hs
  exact ⟨g, hg, by omega⟩

/-- **Shards are never un-initialised.** -/
theorem getInitializedShardIdsBeforeRootHeight_mono {h₁ h₂ : ℕ} (h : h₁ ≤ h₂) :
    (q.getInitializedShardIdsBeforeRootHeight h₁).Sublist
      (q.getInitializedShardIdsBeforeRootHeight h₂) :=
  (List.monotone_filter_right q.shards (initializedBefore_mono h)).map _

theorem mem_getInitializedShardIdsBeforeRootHeight {h id : ℕ} :
    id ∈ q.getInitializedShardIdsBeforeRootHeight h ↔
      ∃ s ∈ q.shards, initializedBefore h s = true ∧ s.getFullShardId = id := by
  simp [getInitializedShardIdsBeforeRootHeight, and_assoc]

theorem nodup_getInitializedShardIdsBeforeRootHeight (h : ℕ) :
    (q.getInitializedShardIdsBeforeRootHeight h).Nodup :=
  (List.filter_sublist.map ShardConfig.getFullShardId).nodup q.shards_nodup

/-- `account.IsNeighbor` as the nodes call it: with the number of shards initialised before
`rootHeight` (`MinorBlockChain.isNeighbor`, `ConnManager`). -/
def isNeighborAt (b₁ b₂ : Branch) (rootHeight : ℕ) : Bool :=
  isNeighbor b₁ b₂ (q.getInitializedShardIdsBeforeRootHeight rootHeight).length

end QuarkChainConfig
end QuarkChain.Config
