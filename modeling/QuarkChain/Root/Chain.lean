/-
# The root chain's store

`RootBlockChain` of `src/core/rootblockchain.go`, with the two tables about minor blocks: the latest confirmed
header of each shard by root block, and the coinbase of every minor block a slave has reported.  The block cache
repeats the store and is not modelled.  The tables that `countMinorBlocks` adds are in `Root.Index`.

Writing a block (`writeBlockWithState`) is fork choice: by total difficulty, and among equals the
lower block wins.  When the winner does not continue the head, `reorg` enters its branch into the
index.  The minor chain's `reorg` first takes the old branch out; this one does not.
-/
import QuarkChain.Root.SameChain

namespace QuarkChain.Root

open BlockTree Config QuarkChain.Types

/-- `TokenBalances.Add` for one token. -/
def addToken (m : TokenMap) (token : TokenID) (value : ℕ) : TokenMap :=
  m.insert token (m.amount token + value)

theorem addToken_comm (m : TokenMap) (t : TokenID) (v : ℕ) (t' : TokenID) (v' : ℕ) :
    addToken (addToken m t v) t' v' = addToken (addToken m t' v') t v := by
  by_cases h : t = t'
  · subst h
    simp only [addToken, TokenMap.amount, Finmap.lookup_insert, Option.getD_some]
    rw [Finmap.insert_insert, Finmap.insert_insert]
    congr 1
    omega
  · simp only [addToken, TokenMap.amount]
    rw [Finmap.lookup_insert_of_ne _ (Ne.symm h), Finmap.lookup_insert_of_ne _ h,
      Finmap.insert_insert_of_ne _ h]

/-- `TokenBalances.Add`. -/
def addTokens (m other : TokenMap) : TokenMap :=
  other.foldl addToken addToken_comm m

/-- Every amount times a fraction, rounded down. -/
def mulTokens (m : TokenMap) (num denom : ℕ) : TokenMap :=
  m.foldl (fun d t v => addToken d t (v * num / denom))
    (fun d t v t' v' => addToken_comm d t (v * num / denom) t' (v' * num / denom)) ∅

/-- The fields of `config.QuarkChainConfig` and its `Root` that the root chain reads; fractions are
a numerator and a denominator. -/
structure RootChainConfig where
  quarkchain : QuarkChainConfig
  blockExtraDataSizeLimit : ℕ
  skipRootDifficultyCheck : Bool
  skipRootCoinbaseCheck : Bool
  maxStaleRootBlockHeightDiff : ℕ
  rewardCalculateRateNum : ℕ
  rewardCalculateRateDenom : ℕ
  coinbaseAmount : ℕ
  epochInterval : ℕ
  blockRewardDecayFactorNum : ℕ
  blockRewardDecayFactorDenom : ℕ

/-- The entries of a `map[uint32]*MinorBlockHeader` keyed by the full shard id of the header. -/
abbrev HeaderMap := List MinorBlockHeader

namespace HeaderMap

def lookup (m : HeaderMap) (fullShardId : ℕ) : Option MinorBlockHeader :=
  m.find? fun h => h.branch.value = fullShardId

def set (m : HeaderMap) (header : MinorBlockHeader) : HeaderMap :=
  header :: m.filter fun h => h.branch.value ≠ header.branch.value

theorem lookup_set (m : HeaderMap) (header : MinorBlockHeader) (id : ℕ) :
    (m.set header).lookup id = if header.branch.value = id then some header else m.lookup id := by
  by_cases h : header.branch.value = id
  · simp [lookup, set, h]
  rw [lookup, set, if_neg h, List.find?_cons_of_neg (by simpa using h), List.find?_filter, lookup]
  congr 1
  funext a
  by_cases ha : a.branch.value = id
  · simp [ha, Ne.symm h]
  · simp [ha]

def KeysNodup (m : HeaderMap) : Prop := (m.map fun h => h.branch.value).Nodup

theorem keysNodup_nil : KeysNodup [] := List.nodup_nil

variable {m l : HeaderMap}

theorem keysNodup_set (hm : m.KeysNodup) (header : MinorBlockHeader) :
    (m.set header).KeysNodup := by
  refine List.nodup_cons.mpr ⟨?_, (List.filter_sublist.map _).nodup hm⟩
  intro hmem
  obtain ⟨h, hh, heq⟩ := List.mem_map.mp hmem
  simp [heq] at hh

theorem keysNodup_foldl (hm : m.KeysNodup) : (l.foldl set m).KeysNodup := by
  induction l generalizing m with
  | nil => exact hm
  | cons h l ih => exact ih (keysNodup_set hm h)

theorem lookup_foldl (hl : l.KeysNodup) (id : ℕ) :
    (l.foldl set m).lookup id = (l.lookup id).or (m.lookup id) := by
  induction l generalizing m with
  | nil => rfl
  | cons h l ih =>
    obtain ⟨hnot, hl⟩ := List.nodup_cons.mp hl
    rw [List.foldl_cons, ih hl, lookup_set]
    by_cases hid : h.branch.value = id
    · have hnone : lookup l id = none := by
        refine List.find?_eq_none.mpr fun a ha heq => hnot (List.mem_map.mpr ⟨a, ha, ?_⟩)
        exact (of_decide_eq_true heq).trans hid.symm
      rw [hnone, if_pos hid, lookup, List.find?_cons_of_pos (by simpa using hid)]
      rfl
    · have hskip : lookup (h :: l) id = lookup l id := List.find?_cons_of_neg (by simpa using hid)
      rw [if_neg hid, hskip]

end HeaderMap

/-- The stored blocks, the canonical index and the head. -/
structure RootBlockChain where
  getBlock : Hash → Option RootBlock
  canonicalHash : ℕ → Option Hash
  currentBlock : RootBlock
  /-- `ReadLatestMinorBlockHeaders`; empty for a root block that has none. -/
  latestMinorBlockHeaders : Hash → List MinorBlockHeader
  /-- `GetMinorBlockCoinbaseTokens`, of the minor blocks the slaves have reported. -/
  minorBlockCoinbase : Hash → Option TokenMap
  isCheckDB : Bool

/-- What the chain is set up with: its configuration, the difficulty rule (`CalculateDifficulty`, of
a parent and a time), the seal check with the adjusted difficulty that it uses, and the two
hashes that are compared. -/
structure Setup where
  config : RootChainConfig
  calculateDifficulty : RootBlock → ℕ → Option ℕ
  verifySeal : RootBlockChain → RootBlock → Bool
  calculateMerkleRoot : List MinorBlockHeader → Hash
  emptyTrieHash : Hash

namespace RootBlockChain

variable (s : RootBlockChain)

/-- The chain with the genesis block only. -/
def genesis (g : RootBlock) (minorBlockCoinbase : Hash → Option TokenMap) : RootBlockChain where
  getBlock := Function.update (fun _ => none) g.hash (some g)
  canonicalHash := Function.update (fun _ => none) g.number (some g.hash)
  currentBlock := g
  latestMinorBlockHeaders _ := []
  minorBlockCoinbase := minorBlockCoinbase
  isCheckDB := false

def hasBlock (h : Hash) : Bool := (s.getBlock h).isSome

def containMinorBlockByHash (h : Hash) : Bool := (s.minorBlockCoinbase h).isSome

/-- The last minor header of each shard up to a root block. -/
def getLatestMinorBlockHeaders (h : Hash) : HeaderMap :=
  (s.latestMinorBlockHeaders h).foldl HeaderMap.set []

def setLatestMinorBlockHeaders (h : Hash) (headerMap : HeaderMap) : RootBlockChain :=
  { s with latestMinorBlockHeaders := Function.update s.latestMinorBlockHeaders h headerMap }

/-- A slave has reported a minor block. -/
def addValidatedMinorBlockHeader (h : Hash) (coinbaseToken : TokenMap) : RootBlockChain :=
  { s with minorBlockCoinbase := Function.update s.minorBlockCoinbase h (some coinbaseToken) }

/-- The block becomes the head and the canonical block at its height. -/
def insert (block : RootBlock) : RootBlockChain :=
  { s with
    canonicalHash := Function.update s.canonicalHash block.number (some block.hash)
    currentBlock := block }

/-- `reorg`: insert the branch of the new block, its lowest block first. -/
def reorg (oldBlock newBlock : RootBlock) : Except ForkError RootBlockChain :=
  (fork s.getBlock oldBlock newBlock).map fun r => r.2.1.foldr (fun b s => s.insert b) s

/-- The fork choice: heavier, or as heavy and lower. -/
def wins (block : RootBlock) : Bool :=
  s.currentBlock.totalDifficulty < block.totalDifficulty ||
    (block.totalDifficulty == s.currentBlock.totalDifficulty &&
      block.number < s.currentBlock.number)

def writeRootBlock (block : RootBlock) : RootBlockChain :=
  { s with getBlock := Function.update s.getBlock block.hash (some block) }

inductive WriteStatus
  | canonStatTy
  | sideStatTy
deriving DecidableEq

/-- `WriteBlockWithState`.  The block stays stored when the reorganisation fails. -/
def writeBlockWithState (block : RootBlock) : Except ForkError WriteStatus × RootBlockChain :=
  if s.wins block then
    if block.parentHash = s.currentBlock.hash then
      (.ok .canonStatTy, (s.writeRootBlock block).insert block)
    else
      match (s.writeRootBlock block).reorg s.currentBlock block with
      | .error e => (.error e, s.writeRootBlock block)
      | .ok s' => (.ok .canonStatTy, s'.insert block)
  else (.ok .sideStatTy, s.writeRootBlock block)

end RootBlockChain

namespace Setup

variable (n : Setup)

/-- The block reward decays with every epoch. -/
def getCoinbaseAmount (height : ℕ) : ℕ :=
  let epoch := height / n.config.epochInterval
  n.config.coinbaseAmount * n.config.blockRewardDecayFactorNum ^ epoch /
    n.config.blockRewardDecayFactorDenom ^ epoch

/-- `CalculateRootBlockCoinBase`; `none` is the error of a minor block that no slave has
reported. -/
def calculateRootBlockCoinBase (s : RootBlockChain) (number : ℕ)
    (minorBlockHeaders : List MinorBlockHeader) : Option TokenMap :=
  (minorBlockHeaders.mapM fun h => s.minorBlockCoinbase h.hash).map fun tokens =>
    let rewardTokenMap := mulTokens (tokens.foldl addTokens ∅) n.config.rewardCalculateRateNum
      n.config.rewardCalculateRateDenom
    addToken rewardTokenMap n.config.quarkchain.defaultChainTokenID (n.getCoinbaseAmount number)

end Setup

/-! ### What writing a block changes -/

namespace RootBlockChain

variable {s : RootBlockChain} {block : RootBlock}

theorem insert_canonicalHash : (s.insert block).canonicalHash =
    Function.update s.canonicalHash block.number (some block.hash) := rfl

theorem genesis_getBlock {g : RootBlock} {coinbase : Hash → Option TokenMap} {k : Hash}
    (hb : (genesis g coinbase).getBlock k = some block) : k = g.hash ∧ block = g := by
  simp only [genesis] at hb
  rcases store_cases hb with h | h
  · exact h
  · cases h

theorem foldr_insert (l : List RootBlock) :
    (l.foldr (fun b s => s.insert b) s).canonicalHash = write s.canonicalHash l ∧
      (l.foldr (fun b s => s.insert b) s).getBlock = s.getBlock ∧
      (l.foldr (fun b s => s.insert b) s).latestMinorBlockHeaders = s.latestMinorBlockHeaders := by
  induction l with
  | nil => exact ⟨rfl, rfl, rfl⟩
  | cons b l ih =>
    obtain ⟨hcanon, hget, hlatest⟩ := ih
    refine ⟨?_, hget, hlatest⟩
    rw [List.foldr_cons, insert_canonicalHash, hcanon]
    rfl

/-- **Everything `writeBlockWithState` does.** -/
theorem writeBlockWithState_cases (s : RootBlockChain) (block : RootBlock) : (s.wins block = false ∧
      s.writeBlockWithState block = (.ok .sideStatTy, s.writeRootBlock block)) ∨
    (s.wins block = true ∧ block.parentHash = s.currentBlock.hash ∧
      s.writeBlockWithState block = (.ok .canonStatTy, (s.writeRootBlock block).insert block)) ∨
    (s.wins block = true ∧ ∃ r, fork (s.writeRootBlock block).getBlock s.currentBlock block = .ok r ∧
      s.writeBlockWithState block = (.ok .canonStatTy,
          (r.2.1.foldr (fun b s => s.insert b) (s.writeRootBlock block)).insert block)) ∨
    (s.wins block = true ∧
      ∃ e, fork (s.writeRootBlock block).getBlock s.currentBlock block = .error e ∧
        s.writeBlockWithState block = (.error e, s.writeRootBlock block)) := by
  rw [writeBlockWithState]
  split_ifs with hwins hparent
  · exact .inr (.inl ⟨hwins, hparent, rfl⟩)
  · rw [reorg]
    cases hf : fork (s.writeRootBlock block).getBlock s.currentBlock block with
    | error e => exact .inr (.inr (.inr ⟨hwins, e, rfl, rfl⟩))
    | ok r => exact .inr (.inr (.inl ⟨hwins, r, rfl, rfl⟩))
  · exact .inl ⟨by simpa using hwins, rfl⟩

theorem writeBlockWithState_stores (s : RootBlockChain) (block : RootBlock) :
    (s.writeBlockWithState block).2.getBlock = Function.update s.getBlock block.hash (some block) ∧
      (s.writeBlockWithState block).2.latestMinorBlockHeaders = s.latestMinorBlockHeaders := by
  rcases s.writeBlockWithState_cases block with
    ⟨-, h⟩ | ⟨-, -, h⟩ | ⟨-, r, -, h⟩ | ⟨-, e, -, h⟩ <;> rw [h]
  · exact ⟨rfl, rfl⟩
  · exact ⟨rfl, rfl⟩
  · exact (foldr_insert r.2.1).2
  · exact ⟨rfl, rfl⟩

theorem writeBlockWithState_currentBlock (s : RootBlockChain) (block : RootBlock) :
    (s.writeBlockWithState block).2.currentBlock = block ∨
      (s.writeBlockWithState block).2.currentBlock = s.currentBlock := by
  rcases s.writeBlockWithState_cases block with
    ⟨-, h⟩ | ⟨-, -, h⟩ | ⟨-, r, -, h⟩ | ⟨-, e, -, h⟩ <;> rw [h]
  · exact .inr rfl
  · exact .inl rfl
  · exact .inl rfl
  · exact .inr rfl

end RootBlockChain
end QuarkChain.Root
