/-
# The coinbase amounts of mined blocks

What a miner puts into the header of a new block, and whether it arrives elsewhere.

* A minor block (`CreateBlockToMine` of `src/core/minorblockchain_addon.go`): the configured amount times
  `LocalFeeRate`, decayed by epoch (`calcCoinbaseAmountByHeight`), and the fees of the block.
* A root block (`CreateBlockToMine` of `src/core/rootblockchain.go`): for every token the amounts of the minor
  blocks times `RewardCalculateRate`, and the reward of the root chain.

Products are rounded down, so that an amount may be zero.
-/
import QuarkChain.Core.Deposit
import QuarkChain.P2p.HeaderBytes
import QuarkChain.Root.Mining

namespace QuarkChain.P2p

open Bytes Outcome Serialize Account
open QuarkChain.Types (Hash Address TokenMap TokenID)
open Root (addToken addTokens mulTokens)

/-! ### What a miner fills in -/

structure ShardReward where
  coinbaseAmount : ℕ
  epochInterval : ℕ
  blockRewardDecayFactorNum : ℕ
  blockRewardDecayFactorDenom : ℕ

def calcCoinbaseAmountByHeight (cfg : Core.ChainConfig) (r : ShardReward) (epoch : ℕ) : ℕ :=
  cfg.localFee r.coinbaseAmount * r.blockRewardDecayFactorNum ^ epoch / r.blockRewardDecayFactorDenom ^ epoch

def getCoinbaseAmount (cfg : Core.ChainConfig) (r : ShardReward) (height : ℕ) : ℕ :=
  calcCoinbaseAmountByHeight cfg r (height / r.epochInterval)

/-- What `CreateBlockToMine` has computed before it finalizes a minor block. -/
structure Mined where
  prev : MinorBlockHeader
  parentHash : Hash
  createTime : ℕ
  difficulty : ℕ
  address : Address
  gasLimit : ℕ
  rootTipHash : Hash
  metaHash : Hash
  bloom : BitVec (8 * 256)
  evmState : State.StateDB

namespace Mined

variable (n : Core.Node) (r : ShardReward) (b : Mined)

def number : ℕ := (b.prev.number + 1) % 2 ^ 64

/-- The header of the new block: `MinorBlock.CreateBlockToAppend` and `MinorBlock.Finalize`. -/
def header : MinorBlockHeader where
  version := b.prev.version
  branch := b.prev.branch
  number := b.number
  coinbase := b.address
  coinbaseAmount :=
    { n with getCoinbaseAmount := getCoinbaseAmount n.cfg r }.coinbaseAmount b.number b.evmState
  parentHash := b.parentHash
  prevRootBlockHash := b.rootTipHash
  gasLimit := b.gasLimit
  metaHash := b.metaHash
  time := b.createTime
  difficulty := b.difficulty
  nonce := 0
  bloom := b.bloom
  extra := []
  mixDigest := 0

def tokens : Finset TokenID := insert n.cfg.defaultChainTokenID b.evmState.block.blockFee.keys

def due (t : TokenID) : ℕ :=
  b.evmState.block.blockFee.amount t +
    if t = n.cfg.defaultChainTokenID then getCoinbaseAmount n.cfg r b.number else 0

end Mined

def rootHeader (block : Types.RootBlock) (nonce : ℕ) (mixDigest : Hash) (signature : BitVec (8 * 65)) :
    RootBlockHeader where
  version := block.version
  number := block.number
  parentHash := block.parentHash
  minorHeaderHash := block.minorHeaderHash
  root := block.root
  coinbase := block.coinbase
  coinbaseAmount := block.coinbaseAmount
  time := block.time
  difficulty := block.difficulty
  totalDifficulty := block.totalDifficulty
  nonce := nonce
  extra := block.extra
  mixDigest := mixDigest
  signature := signature

section RootBlock

variable (n : Root.Setup) (s : Root.RootBlockChain) (headers : List Types.MinorBlockHeader)

def reported (h : Types.MinorBlockHeader) : TokenMap := (s.minorBlockCoinbase h.hash).getD ∅

/-- The headers that a new root block holds: those not later than the block. -/
def included (now : ℕ) : List Types.MinorBlockHeader :=
  headers.filter fun h => h.time ≤ max now (s.currentBlock.time + 1)

def rootTokens : Finset TokenID :=
  insert n.config.quarkchain.defaultChainTokenID (headers.toFinset.biUnion fun h => (reported s h).keys)

def rootDue (t : TokenID) : ℕ :=
  (headers.map fun h => (reported s h).amount t).sum * n.config.rewardCalculateRateNum /
      n.config.rewardCalculateRateDenom +
    if t = n.config.quarkchain.defaultChainTokenID then n.getCoinbaseAmount (s.currentBlock.number + 1)
    else 0

end RootBlock

/-- Something is due of every token, every amount fits in `255` bytes, and the number of tokens in
four. -/
def AllDue (tokens : Finset TokenID) (due : TokenID → ℕ) : Prop :=
  tokens.card < 2 ^ 32 ∧ ∀ t ∈ tokens, 0 < due t ∧ due t < 2 ^ 2040

section Maps

variable {m : TokenMap} {t : TokenID}

theorem transmissible_iff : Transmissible m ↔ AllDue m.keys m.amount := by
  constructor
  · exact fun h => ⟨h.card, fun t ht => h.amount t _ (amount_of_mem ht)⟩
  · rintro ⟨hcard, hall⟩
    refine ⟨hcard, fun t v hv => ?_⟩
    have hmem : t ∈ m.keys := Finmap.mem_keys.mpr (Finmap.mem_of_lookup_eq_some hv)
    have hamount : m.amount t = v := by
      rw [amount_of_mem hmem, Option.some.injEq] at hv
      exact hv
    exact hamount ▸ hall t hmem

theorem amount_insert (m : TokenMap) (k v t : ℕ) :
    TokenMap.amount (m.insert k v) t = if t = k then v else m.amount t := by
  unfold TokenMap.amount
  split_ifs with h
  · subst h
    rw [Finmap.lookup_insert]
    rfl
  · rw [Finmap.lookup_insert_of_ne _ h]

theorem keys_addToken (m : TokenMap) (k v : ℕ) : (addToken m k v).keys = insert k m.keys :=
  keys_insert ..

theorem amount_addToken (m : TokenMap) (k v t : ℕ) :
    (addToken m k v).amount t = m.amount t + if t = k then v else 0 := by
  rw [addToken, amount_insert]
  split_ifs with h
  · rw [h]
  · rfl

theorem foldl_addToken (g : ℕ → ℕ) (l : List (Sigma fun _ : TokenID => ℕ)) (hl : l.NodupKeys)
    (m : TokenMap) :
    (l.foldl (fun d e => addToken d e.1 (g e.2)) m).keys = m.keys ∪ l.keys.toFinset ∧
      ∀ t, (l.foldl (fun d e => addToken d e.1 (g e.2)) m).amount t =
        m.amount t + ((l.dlookup t).map g).getD 0 := by
  induction l generalizing m with
  | nil => simp
  | cons e l ih =>
    obtain ⟨k, v⟩ := e
    obtain ⟨hnot, hl'⟩ := List.nodupKeys_cons.mp hl
    obtain ⟨hkeys, hamount⟩ := ih hl' (addToken m k (g v))
    refine ⟨?_, fun t => ?_⟩
    · rw [List.foldl_cons, hkeys, keys_addToken, List.keys_cons, List.toFinset_cons,
        Finset.insert_union, Finset.union_insert]
    · rw [List.foldl_cons, hamount, amount_addToken]
      by_cases ht : t = k
      · subst ht
        rw [List.dlookup_cons_eq, List.dlookup_eq_none.mpr hnot, if_pos rfl]
        rfl
      · rw [List.dlookup_cons_ne _ _ ht, if_neg ht, Nat.add_zero]

theorem toFinset_keys (l : AList fun _ : TokenID => ℕ) :
    l.entries.keys.toFinset = (AList.toFinmap l).keys := by
  ext t
  rw [List.mem_toFinset, Finmap.mem_keys]
  exact Iff.rfl

theorem keys_addTokens (m other : TokenMap) : (addTokens m other).keys = m.keys ∪ other.keys := by
  refine Finmap.induction_on other fun l => ?_
  rw [← toFinset_keys]
  exact (foldl_addToken id l.entries l.nodupKeys m).1

theorem amount_addTokens (m other : TokenMap) (t : TokenID) :
    (addTokens m other).amount t = m.amount t + other.amount t := by
  refine Finmap.induction_on other fun l => ?_
  refine ((foldl_addToken id l.entries l.nodupKeys m).2 t).trans ?_
  rw [Option.map_id]
  rfl

theorem keys_mulTokens (m : TokenMap) (num denom : ℕ) : (mulTokens m num denom).keys = m.keys := by
  refine Finmap.induction_on m fun l => ?_
  refine (foldl_addToken (fun v => v * num / denom) l.entries l.nodupKeys ∅).1.trans ?_
  rw [Finmap.keys_empty, Finset.empty_union, toFinset_keys]

theorem amount_mulTokens (m : TokenMap) (num denom : ℕ) (t : TokenID) :
    (mulTokens m num denom).amount t = m.amount t * num / denom := by
  refine Finmap.induction_on m fun l => ?_
  refine ((foldl_addToken (fun v => v * num / denom) l.entries l.nodupKeys ∅).2 t).trans ?_
  show 0 + ((l.lookup t).map _).getD 0 = (l.lookup t).getD 0 * num / denom
  cases l.lookup t with
  | none => simp
  | some v => simp

theorem foldl_addTokens (l : List TokenMap) (m : TokenMap) :
    (∀ t, t ∈ (l.foldl addTokens m).keys ↔ t ∈ m.keys ∨ ∃ m' ∈ l, t ∈ m'.keys) ∧
      ∀ t, (l.foldl addTokens m).amount t = m.amount t + (l.map fun m' => m'.amount t).sum := by
  induction l generalizing m with
  | nil => simp
  | cons m' l ih =>
    obtain ⟨hkeys, hamount⟩ := ih (addTokens m m')
    refine ⟨fun t => ?_, fun t => ?_⟩
    · rw [List.foldl_cons, hkeys, keys_addTokens, Finset.mem_union, List.exists_mem_cons_iff, or_assoc]
    · rw [List.foldl_cons, hamount, amount_addTokens, List.map_cons, List.sum_cons, Nat.add_assoc]

end Maps

section

variable {n : Core.Node} {r : ShardReward} {b : Mined}

theorem keys_minor : (b.header n r).coinbaseAmount.keys = b.tokens n := keys_insert ..

theorem amount_minor (t : TokenID) : (b.header n r).coinbaseAmount.amount t = b.due n r t := by
  refine (amount_insert ..).trans ?_
  unfold Mined.due
  split_ifs with h
  · rw [h, Nat.add_comm]
  · rfl

variable {m : Root.Setup} {s : Root.RootBlockChain} {mHeaderList : List Types.MinorBlockHeader}
  {hashOf : Types.RootBlock → Hash} {address : Address} {now : ℕ} {block : Types.RootBlock}

theorem mapM_reported {headers : List Types.MinorBlockHeader} {l : List TokenMap}
    (h : (headers.mapM fun h => s.minorBlockCoinbase h.hash) = some l) : l = headers.map (reported s) := by
  induction headers generalizing l with
  | nil =>
    cases h
    rfl
  | cons a headers ih =>
    rw [List.mapM_cons] at h
    obtain ⟨m, hm, h⟩ := Option.bind_eq_some_iff.mp h
    obtain ⟨l', hl', h⟩ := Option.bind_eq_some_iff.mp h
    cases h
    rw [List.map_cons, ← ih hl', reported, hm]
    rfl

theorem root_coinbase (h : m.createBlockToMine hashOf s mHeaderList address now = .ok block) :
    block.coinbaseAmount.keys = rootTokens m s (included s mHeaderList now) ∧
      ∀ t, block.coinbaseAmount.amount t = rootDue m s (included s mHeaderList now) t := by
  unfold Root.Setup.createBlockToMine at h
  dsimp only at h
  cases hd : m.calculateDifficulty s.currentBlock (max now (s.currentBlock.time + 1)) with
  | none =>
    rw [hd] at h
    cases h
  | some difficulty =>
    rw [hd] at h
    dsimp only at h
    split at h
    · cases h
    rename_i amounts hamounts
    cases h
    unfold Root.Setup.calculateRootBlockCoinBase at hamounts
    obtain ⟨l, hl, rfl⟩ := Option.map_eq_some_iff.mp hamounts
    obtain rfl : l = (included s mHeaderList now).map (reported s) := mapM_reported hl
    obtain ⟨hkeys, hamount⟩ := foldl_addTokens ((included s mHeaderList now).map (reported s)) ∅
    refine ⟨?_, fun t => ?_⟩
    · show (addToken _ _ _).keys = _
      rw [keys_addToken, keys_mulTokens, rootTokens]
      congr 1
      ext t
      rw [hkeys]
      simp
    · show (addToken _ _ _).amount t = _
      rw [amount_addToken, amount_mulTokens, hamount, rootDue, List.map_map]
      rw [show TokenMap.amount ∅ t = 0 from rfl, Nat.zero_add]
      rfl

/-- **The header of a mined block arrives with its hash and its coinbase amounts** just when something is
due of each of its tokens. -/
theorem mined_header_survives_iff (keccak : List UInt8 → Hash) :
    (∀ (n : Core.Node) (r : ShardReward) (b : Mined), (b.header n r).Fits →
      (Survives keccak serializeMinorBlockHeader deserializeMinorBlockHeader
        MinorBlockHeader.coinbaseAmount (b.header n r) ↔ AllDue (b.tokens n) (b.due n r))) ∧
    ∀ (n : Root.Setup) (s : Root.RootBlockChain) (mHeaderList : List Types.MinorBlockHeader)
      (hashOf : Types.RootBlock → Hash) (address : Address) (now : ℕ) (block : Types.RootBlock) (nonce : ℕ)
      (mixDigest : Hash) (signature : BitVec (8 * 65)),
      n.createBlockToMine hashOf s mHeaderList address now = .ok block →
      (rootHeader block nonce mixDigest signature).Fits →
      (Survives keccak serializeRootBlockHeader deserializeRootBlockHeader
        RootBlockHeader.coinbaseAmount (rootHeader block nonce mixDigest signature) ↔
          AllDue (rootTokens n s (included s mHeaderList now)) (rootDue n s (included s mHeaderList now))) := by
  constructor
  · intro n r b hf
    rw [minorBlockHeader_survives_iff hf, transmissible_iff, keys_minor, funext amount_minor]
  · intro n s mHeaderList hashOf address now block nonce mixDigest signature h hf
    obtain ⟨hkeys, hamount⟩ := root_coinbase h
    rw [rootBlockHeader_survives_iff hf, transmissible_iff]
    show AllDue block.coinbaseAmount.keys block.coinbaseAmount.amount ↔ _
    rw [hkeys, funext hamount]

end

theorem lt_two_pow_2040 {n : ℕ} (h : n < 2 ^ 64) : n < 2 ^ 2040 :=
  h.trans_le (by gcongr <;> decide)

def sampleReward (coinbaseAmount : ℕ) : ShardReward where
  coinbaseAmount := coinbaseAmount
  epochInterval := 1
  blockRewardDecayFactorNum := 1
  blockRewardDecayFactorDenom := 1

def sampleMined : Mined where
  prev :=
    { version := 0, branch := ⟨1⟩, number := 0, coinbase := ⟨0, 0⟩, coinbaseAmount := ∅, parentHash := 0,
      prevRootBlockHash := 0, gasLimit := 0, metaHash := 0, time := 0, difficulty := 1, nonce := 0,
      bloom := 0, extra := [], mixDigest := 0 }
  parentHash := 1
  createTime := 1
  difficulty := 1
  address := ⟨9, 0⟩
  gasLimit := 100000
  rootTipHash := 2
  metaHash := 3
  bloom := 0
  evmState := .new (fun _ => none) { gasLimit := 100000, blockCoinbase := 9, timeStamp := 1, blockNumber := 1 }

theorem sampleMined_fits : (sampleMined.header (Core.sampleNode 0 1) (sampleReward 2)).Fits where
  version := by decide
  branch := by decide
  number := by decide
  coinbase := by decide
  tokens := by
    rw [keys_minor]
    decide
  gasLimit := by decide
  time := by decide
  difficulty := lt_two_pow_2040 (by decide)
  nonce := by decide
  extra := by decide

theorem exists_sampleRootBlock : ∃ block, Root.sampleSetup.createBlockToMine (fun _ => 5)
      (.genesis Root.sampleGenesis fun _ => none) [] ⟨9, 0⟩ 10 = .ok block ∧
        (rootHeader block 0 0 0).Fits := by
  obtain ⟨block, hblock, hversion, hnumber, hcoinbase, htokens, htime, hdifficulty, htotal, hextra⟩ :=
    exists_ok_of_test (x := Root.sampleSetup.createBlockToMine (fun _ => 5)
      (.genesis Root.sampleGenesis fun _ => none) [] ⟨9, 0⟩ 10) (p := fun block =>
        block.version < 2 ^ 32 ∧ block.number < 2 ^ 32 ∧ block.coinbase.fullShardKey < 2 ^ 32 ∧
          (∀ k ∈ block.coinbaseAmount.keys, k < 2 ^ 64) ∧ block.time < 2 ^ 64 ∧
            block.difficulty < 2 ^ 64 ∧ block.totalDifficulty < 2 ^ 64 ∧ block.extra.length < 2 ^ 16)
      (by decide +kernel)
  exact ⟨block, hblock, hversion, hnumber, hcoinbase, htokens, htime, lt_two_pow_2040 hdifficulty,
    lt_two_pow_2040 htotal, Nat.two_pow_pos 64, hextra⟩

/-- An empty minor block with a reward of two arrives, and so does an empty root block. -/
theorem rewarded_header_survives : ∀ keccak : List UInt8 → Hash,
    Survives keccak serializeMinorBlockHeader deserializeMinorBlockHeader MinorBlockHeader.coinbaseAmount
        (sampleMined.header (Core.sampleNode 0 1) (sampleReward 2)) ∧
      ∃ block, Root.sampleSetup.createBlockToMine (fun _ => 5)
          (.genesis Root.sampleGenesis fun _ => none) [] ⟨9, 0⟩ 10 = .ok block ∧
        Survives keccak serializeRootBlockHeader deserializeRootBlockHeader RootBlockHeader.coinbaseAmount
          (rootHeader block 0 0 0) := by
  intro keccak
  obtain ⟨block, hblock, hfits⟩ := exists_sampleRootBlock
  refine ⟨((mined_header_survives_iff keccak).1 _ _ _ sampleMined_fits).mpr ⟨by decide, ?_⟩, block, hblock,
    ((mined_header_survives_iff keccak).2 _ _ _ _ _ _ _ _ _ _ hblock hfits).mpr ⟨by decide, ?_⟩⟩
  · intro t ht
    rw [show sampleMined.tokens (Core.sampleNode 0 1) = {0} by decide, Finset.mem_singleton] at ht
    subst ht
    exact ⟨by decide, lt_two_pow_2040 (by decide)⟩
  · intro t ht
    rw [show rootTokens Root.sampleSetup _ _ = {35760} by decide, Finset.mem_singleton] at ht
    subst ht
    exact ⟨by decide, lt_two_pow_2040 (by decide)⟩

def unrewarded : MinorBlockHeader := sampleMined.header (Core.sampleNode 0 1) (sampleReward 1)

def unrewardedLost : Bool :=
  passes (serializeMinorBlockHeader unrewarded) fun b =>
    passes (deserializeFromBytes deserializeMinorBlockHeader b) fun h' =>
      decide (h'.coinbaseAmount = ∅ ∧ (serializeMinorBlockHeader h').toOption ≠ some b ∧
        compareCoinbaseAmountMap unrewarded.coinbaseAmount h'.coinbaseAmount = false)

/-- **A reward of one is rounded down to nothing**, and the header of an empty block does not survive. -/
theorem unrewarded_header_lost : ∃ b h', serializeMinorBlockHeader unrewarded = .ok b ∧
    deserializeFromBytes deserializeMinorBlockHeader b = .ok h' ∧ h'.coinbaseAmount = ∅ ∧
      (serializeMinorBlockHeader h').toOption ≠ some b ∧
        compareCoinbaseAmountMap unrewarded.coinbaseAmount h'.coinbaseAmount = false := by
  have hlost : unrewardedLost = true := by decide +kernel
  obtain ⟨b, hb, htest⟩ := exists_ok_of_passes hlost
  obtain ⟨h', hh', htest⟩ := exists_ok_of_passes htest
  exact ⟨b, h', hb, hh', of_decide_eq_true htest⟩

end QuarkChain.P2p
