/-
# Replaying a transaction on another shard

A signature is meant to be good for one shard only.  Versions 0 and 1 sign the source shard key, from
which every node derives the shard; version 2 signs a network id that each chain has for itself, and
`checkTxWithVersion2` asks for the first shard of the chain.

A full shard id keeps sixteen bits for the chain id, and `initAndValidate` does not check that it fits: the
shift of a larger one wraps around, and the shard is taken for one of another chain.  `Separates` says of a
shard table that no key leads to two shards; `noReplay_iff` says that this is exactly what is needed, and
`separates_of_fits` that sixteen bits are enough.
-/
import QuarkChain.Config.Partition
import QuarkChain.Core.Deposit
import QuarkChain.Core.Signing

namespace QuarkChain.Core

open Account Config QuarkChain.Types State Vm

/-- The configuration of a cluster: what the shards share, and the base of their network ids. -/
structure Cluster where
  shared : ChainConfig
  baseEthChainID : ℕ

def Cluster.ethChainID (cl : Cluster) (s : ShardConfig) : ℕ :=
  (cl.baseEthChainID + 1 + s.chainID) % 2 ^ 32

def Cluster.chainConfig (cl : Cluster) (s : ShardConfig) : ChainConfig :=
  { cl.shared with ethChainID := cl.ethChainID s }

def Cluster.shards (cl : Cluster) : List ShardConfig := cl.shared.quarkchain.shards

/-- A node of a shard; its stores and its machine may be any. -/
structure Cluster.Serves (cl : Cluster) (s : ShardConfig) (n : Node) : Prop where
  configured : s ∈ cl.shards
  cfg : n.cfg = cl.chainConfig s
  branch : n.branch = ⟨s.getFullShardId⟩

/-- `validateTx` accepts the transaction, in some state and for some block. -/
def Node.Accepts (n : Node) (tx : EvmTransaction) : Prop :=
  ∃ header xShardGasLimit w tx' w',
    n.validateTx header tx xShardGasLimit w = .ok (.ok tx', w')

/-- The transaction carries the signature `r`, `s`; its source shard key is a `uint32`. -/
structure EvmTransaction.Carries (crypto : Crypto) (r s : ℕ) (tx : EvmTransaction) : Prop where
  sender : tx.sender = tx.recover crypto r s
  fromFullShardKey_lt : tx.fromFullShardKey < 2 ^ 32

/-- Two transactions have the same `v`: as it stands, or as the recovery reads it. -/
def SameV (tx tx' : EvmTransaction) : Prop :=
  tx.v = tx'.v ∨ tx.plainV.natAbs = tx'.plainV.natAbs

/-- No collision is found between the two transactions: neither two public keys with the same address,
nor two messages with the same hash. -/
def CollisionFree (crypto : Crypto) (r s : ℕ) (a : Recipient) (tx tx' : EvmTransaction) : Prop :=
  ∀ m m', tx.message = some m → tx'.message = some m' →
    (∀ v, crypto.ecrecover (crypto.hash m) v r s = some a →
      crypto.ecrecover (crypto.hash m') v r s = some a → crypto.hash m = crypto.hash m') ∧
    (crypto.hash m = crypto.hash m' → m = m')

/-- Nodes of at most one shard accept transactions with a given signature and sender. -/
def NoReplay (cl : Cluster) : Prop :=
  ∀ (crypto : Crypto) (r s : ℕ) (a : Recipient) (tx₁ tx₂ : EvmTransaction) (s₁ s₂ : ShardConfig)
    (n₁ n₂ : Node), cl.Serves s₁ n₁ → cl.Serves s₂ n₂ →
    tx₁.Carries crypto r s → tx₂.Carries crypto r s → SameV tx₁ tx₂ →
    tx₁.sender cl.shared.networkID = some a → tx₂.sender cl.shared.networkID = some a →
    CollisionFree crypto r s a tx₁ tx₂ →
    n₁.Accepts tx₁ → n₂.Accepts tx₂ → s₁.getFullShardId = s₂.getFullShardId

/-- A source shard key is usable on a shard. -/
def Routes (q : QuarkChainConfig) (s : ShardConfig) (fullShardKey : ℕ) : Prop :=
  ∃ shardSize, q.getShardSizeByChainId (fullShardKey >>> 16) = some shardSize ∧
    isP2 shardSize = true ∧ shardSize ≠ 0 ∧
    (Branch.mk s.getFullShardId).isInBranch
      ((fullShardKey >>> 16) <<< 16 ||| shardSize ||| (fullShardKey &&& predU32 shardSize)) = true

/-- **What a shard table has to meet.**  Two shards are the same when one key leads to both, and when
their network ids agree and the first keys of two chains lead to them. -/
def Cluster.Separates (cl : Cluster) : Prop :=
  ∀ s₁ ∈ cl.shards, ∀ s₂ ∈ cl.shards, ∀ k₁ < 2 ^ 32, ∀ k₂ < 2 ^ 32,
    (k₁ = k₂ ∨ (k₁ % 2 ^ 16 = 0 ∧ k₂ % 2 ^ 16 = 0 ∧ cl.ethChainID s₁ = cl.ethChainID s₂)) →
    Routes cl.shared.quarkchain s₁ k₁ → Routes cl.shared.quarkchain s₂ k₂ →
    s₁.getFullShardId = s₂.getFullShardId

/-- Ids and sizes fit in sixteen bits, and the shards of a chain agree on its size. -/
structure Fits (q : QuarkChainConfig) : Prop where
  chainID : ∀ s ∈ q.shards, s.chainID < 2 ^ 16
  shardSize : ∀ s ∈ q.shards, ∃ j ≤ 15, q.getShardSizeByChainId s.chainID = some (2 ^ j) ∧
    s.shardSize = 2 ^ j ∧ s.shardID < 2 ^ j

variable {tx tx' : EvmTransaction} {q : QuarkChainConfig} {n : Node}

theorem getShardSizeByChainId_eq_some {chainID shardSize : ℕ}
    (h : q.getShardSizeByChainId chainID = some shardSize) : ∃ s ∈ q.shards, s.chainID = chainID := by
  obtain ⟨s, hfind, -⟩ := Option.map_eq_some_iff.mp h
  exact ⟨s, List.mem_of_find?_eq_some hfind, by simpa using List.find?_some hfind⟩

theorem Fits.routes (hq : Fits q) {s : ShardConfig} (hs : s ∈ q.shards) {k : ℕ}
    (h : Routes q s k) : s.chainID = k / 2 ^ 16 ∧ s.shardID = k % s.shardSize := by
  obtain ⟨j, hj, hsize, hpow, hid⟩ := hq.shardSize s hs
  obtain ⟨shardSize, hk, -, -, hin⟩ := h
  have hfull : s.getFullShardId = s.chainID <<< 16 ||| 2 ^ j ||| s.shardID := by
    have hchain := hq.chainID s hs
    rw [ShardConfig.getFullShardId, hpow, Nat.mod_eq_of_lt]
    rw [Nat.shiftLeft_eq]
    omega
  rw [hfull, isInBranch_fullShardId hj hid] at hin
  -- the chain of the key is in the table, so the id made of the key has the same form
  obtain ⟨t, ht, hchain⟩ := getShardSizeByChainId_eq_some hk
  obtain ⟨i, hi, hsize', -, -⟩ := hq.shardSize t ht
  rw [hchain, hk] at hsize'
  rw [Option.some.inj hsize', and_predU32_two_pow (by omega),
    fullShardId_eq hi (Nat.mod_lt _ (Nat.two_pow_pos i)), Nat.shiftRight_eq_div_pow] at hin
  have hlt := size_add_lt hi (Nat.mod_lt k (Nat.two_pow_pos i))
  have hsame : s.chainID = k / 2 ^ 16 := by omega
  have hij : i = j := by
    rw [hsame, ← Nat.shiftRight_eq_div_pow, hk, hsize'] at hsize
    exact Nat.pow_right_injective (le_refl 2) (Option.some.inj hsize)
  refine ⟨hsame, ?_⟩
  subst hij
  rw [hpow, ← hin.2]
  have hdvd : 2 ^ 16 * (k / 2 ^ 16) = 2 ^ i * (2 ^ (16 - i) * (k / 2 ^ 16)) := by
    rw [← mul_assoc, ← pow_add]
    congr 2
    omega
  rw [hdvd, Nat.mul_add_mod, Nat.add_mod_left, Nat.mod_mod]

variable {cl : Cluster}

/-- **Sixteen bits are enough.** -/
theorem separates_of_fits (h : Fits cl.shared.quarkchain) : cl.Separates := by
  intro s₁ h₁ s₂ h₂ k₁ hk₁ k₂ hk₂ hkeys hr₁ hr₂
  obtain ⟨hchain₁, hid₁⟩ := h.routes h₁ hr₁
  obtain ⟨hchain₂, hid₂⟩ := h.routes h₂ hr₂
  obtain ⟨j₁, hj₁, hsize₁, hpow₁, -⟩ := h.shardSize s₁ h₁
  obtain ⟨j₂, hj₂, hsize₂, hpow₂, -⟩ := h.shardSize s₂ h₂
  have hchain : s₁.chainID = s₂.chainID := by
    rcases hkeys with rfl | ⟨-, -, heth⟩
    · rw [hchain₁, hchain₂]
    have hlt₁ := h.chainID s₁ h₁
    have hlt₂ := h.chainID s₂ h₂
    unfold Cluster.ethChainID at heth
    omega
  have hsize : s₁.shardSize = s₂.shardSize := by
    rw [hchain, hsize₂] at hsize₁
    rw [hpow₁, hpow₂, Option.some.inj hsize₁]
  have hid : s₁.shardID = s₂.shardID := by
    rw [hid₁, hid₂, hsize]
    rcases hkeys with rfl | ⟨hzero₁, hzero₂, -⟩
    · rfl
    · have hdvd : 2 ^ j₂ ∣ 2 ^ 16 := Nat.pow_dvd_pow 2 (by omega)
      rw [hpow₂, Nat.mod_eq_zero_of_dvd (hdvd.trans (Nat.dvd_of_mod_eq_zero hzero₁)),
        Nat.mod_eq_zero_of_dvd (hdvd.trans (Nat.dvd_of_mod_eq_zero hzero₂))]
  rw [ShardConfig.getFullShardId, ShardConfig.getFullShardId, hchain, hsize, hid]

theorem fits_of_expanded (hq : Expanded q) (hid : ∀ s ∈ q.shards, s.chainID < 2 ^ 16) : Fits q := by
  refine ⟨hid, fun s hs => ?_⟩
  obtain ⟨j, hj, hpow⟩ := hq.exists_pow hs
  obtain ⟨t, ht, hchain, hget⟩ := getShardSizeByChainId_of_mem hs
  refine ⟨j, hj, ?_, hpow, hpow ▸ hq.shardID_lt s hs⟩
  rw [hget, hq.oneSize t ht s hs hchain, hpow]

/-! ### What an accepted transaction shows -/

/-- The checks of `validateTx` that a replay has to pass. -/
structure Node.Passed (n : Node) (tx : EvmTransaction) : Prop where
  routes : ∃ shardSize, n.cfg.quarkchain.getShardSizeByChainId (tx.fromFullShardKey >>> 16) =
    some shardSize ∧ isP2 shardSize = true ∧ shardSize ≠ 0 ∧
    n.branch.isInBranch ((tx.fromFullShardKey >>> 16) <<< 16 ||| shardSize |||
      (tx.fromFullShardKey &&& predU32 shardSize)) = true
  version2 : tx.version = 2 → (tx.v = 35 + tx.networkId * 2 ∨ tx.v = 35 + tx.networkId * 2 + 1) ∧
    tx.fromFullShardKey % 2 ^ 16 = 0 ∧ tx.networkId = n.cfg.ethChainID

theorem setShardSizes_eq_ok (h : n.setShardSizes tx = .ok tx') :
    ∃ toShardSize fromShardSize,
      n.cfg.quarkchain.getShardSizeByChainId tx.fromChainID = some fromShardSize ∧
      isP2 fromShardSize = true ∧ fromShardSize ≠ 0 ∧ tx' = { tx with fromShardSize, toShardSize } := by
  unfold Node.setShardSizes at h
  split at h
  · cases h
  next toShardSize hto =>
    split at h
    · cases h
    split at h
    · cases h
    next fromShardSize hfrom =>
      split at h
      · cases h
      next husable =>
        simp only [Bool.or_eq_true, Bool.not_eq_true', beq_iff_eq, not_or, Bool.not_eq_false]
          at husable
        exact ⟨toShardSize, fromShardSize, hfrom, husable.1, husable.2, (Except.ok.inj h).symm⟩

theorem checkTx_eq_none {xShardGasLimit timeStamp : ℕ}
    (h : n.checkTx tx xShardGasLimit timeStamp = none) :
    (tx.version = 2 → n.checkTxWithVersion2 tx timeStamp = true) ∧
      n.branch.isInBranch tx.fromFullShardId = true := by
  unfold Node.checkTx at h
  split at h
  · cases h
  next h2 =>
    split at h
    · cases h
    split at h
    · cases h
    next hin =>
      refine ⟨fun hversion => ?_, by simpa using hin⟩
      by_contra hfail
      exact h2 ⟨hversion, by simpa using hfail⟩

theorem Node.Accepts.passed (h : n.Accepts tx) : n.Passed tx := by
  obtain ⟨header, xShardGasLimit, w, tx', w', hrun⟩ := h
  unfold validateTx at hrun
  split at hrun
  · cases hrun
  next sized hsized =>
    split at hrun
    · cases hrun
    next hcheck =>
      obtain ⟨toShardSize, fromShardSize, hfrom, hp2, hne, rfl⟩ := setShardSizes_eq_ok hsized
      obtain ⟨hversion, hin⟩ := checkTx_eq_none hcheck
      refine ⟨⟨fromShardSize, hfrom, hp2, hne, hin⟩, fun h2 => ?_⟩
      have hchecked := hversion h2
      simp only [checkTxWithVersion2, Bool.and_eq_true, Bool.or_eq_true, beq_iff_eq] at hchecked
      obtain ⟨⟨⟨⟨⟨⟨⟨-, hv⟩, -⟩, hkey⟩, -⟩, -⟩, -⟩, hnetwork⟩ := hchecked
      refine ⟨hv, ?_, hnetwork⟩
      rw [← Nat.and_two_pow_sub_one_eq_mod]
      exact hkey

theorem Cluster.Serves.routes {s : ShardConfig} (hn : cl.Serves s n)
    (h : n.Passed tx) : Routes cl.shared.quarkchain s tx.fromFullShardKey := by
  have hroutes := h.routes
  rw [hn.cfg, hn.branch] at hroutes
  exact hroutes

theorem SameV.plainV {tx₁ tx₂ : EvmTransaction} {n₁ n₂ : Node} (h : SameV tx₁ tx₂)
    (h₁ : n₁.Passed tx₁) (h₂ : n₂.Passed tx₂)
    (hv₁ : tx₁.plainV.natAbs = 27 ∨ tx₁.plainV.natAbs = 28)
    (hv₂ : tx₂.plainV.natAbs = 27 ∨ tx₂.plainV.natAbs = 28) :
    tx₁.plainV.natAbs = tx₂.plainV.natAbs := by
  rcases h with hraw | hplain
  · have hchecked₁ := fun hversion => (h₁.version2 hversion).1
    have hchecked₂ := fun hversion => (h₂.version2 hversion).1
    unfold EvmTransaction.plainV at hv₁ hv₂ ⊢
    split_ifs at hv₁ hv₂ ⊢ with hversion₁ hversion₂ hversion₂
    · have := hchecked₁ hversion₁
      have := hchecked₂ hversion₂
      omega
    · have := hchecked₁ hversion₁
      omega
    · have := hchecked₂ hversion₂
      omega
    · rw [hraw]
  · exact hplain

theorem noReplay_of_separates (hcl : cl.Separates) : NoReplay cl := by
  intro crypto r s a tx₁ tx₂ s₁ s₂ n₁ n₂ hn₁ hn₂ hc₁ hc₂ hv ha₁ ha₂ hfree hacc₁ hacc₂
  have hp₁ := hacc₁.passed
  have hp₂ := hacc₂.passed
  rw [hc₁.sender] at ha₁
  rw [hc₂.sender] at ha₂
  obtain ⟨m₁, hm₁, hrec₁⟩ := EvmTransaction.recover_eq_some ha₁
  obtain ⟨m₂, hm₂, hrec₂⟩ := EvmTransaction.recover_eq_some ha₂
  obtain ⟨hv₁, hec₁⟩ := recoverPlain_eq_some hrec₁
  obtain ⟨hv₂, hec₂⟩ := recoverPlain_eq_some hrec₂
  rw [← hv.plainV hp₁ hp₂ hv₁ hv₂] at hec₂
  -- the same address is recovered with the same values, so the same message was signed
  obtain ⟨hhash, hmessage⟩ := hfree m₁ m₂ hm₁ hm₂
  rw [← hmessage (hhash _ hec₁ hec₂)] at hm₂
  refine hcl s₁ hn₁.configured s₂ hn₂.configured _ hc₁.fromFullShardKey_lt _ hc₂.fromFullShardKey_lt ?_
    (hn₁.routes hp₁) (hn₂.routes hp₂)
  rcases message_determines hm₁ hm₂ hc₁.fromFullShardKey_lt hc₂.fromFullShardKey_lt with
    ⟨-, -, hkey⟩ | ⟨h₁, h₂, hnetwork⟩
  · exact .inl hkey
  obtain ⟨-, hzero₁, heth₁⟩ := hp₁.version2 h₁
  obtain ⟨-, hzero₂, heth₂⟩ := hp₂.version2 h₂
  rw [hn₁.cfg] at heth₁
  rw [hn₂.cfg] at heth₂
  exact .inr ⟨hzero₁, hzero₂, heth₁.symm.trans (hnetwork.trans heth₂)⟩

/-! ### A replay where keys do not separate the shards -/

def sampleCrypto : Crypto where
  hash _ := 0
  ecrecover _ _ _ _ := some 17

def Cluster.node (cl : Cluster) (s : ShardConfig) : Node :=
  { sampleNode 0 0 with cfg := cl.chainConfig s, branch := ⟨s.getFullShardId⟩ }

theorem Cluster.serves_node {s : ShardConfig} (hs : s ∈ cl.shards) : cl.Serves s (cl.node s) :=
  ⟨hs, rfl, rfl⟩

def transfer (version networkId key : ℕ) (v : ℤ) (sender : ℕ → Option Recipient) : EvmTransaction :=
  { (default : EvmTransaction) with
    hash := 20, nonce := 1, gas := 21000, «to» := some 18, networkId := networkId, fromFullShardKey := key
    toFullShardKey := key, gasTokenID := Node.qkcTokenID, transferTokenID := Node.qkcTokenID
    version := version, v := v, sender := sender }

def signedTransfer (version networkId key : ℕ) (v : ℤ) : EvmTransaction :=
  transfer version networkId key v ((transfer version networkId key v fun _ => none).recover sampleCrypto
    1 1)

theorem carries_signedTransfer {version networkId key : ℕ} {v : ℤ} (hkey : key < 2 ^ 32) :
    (signedTransfer version networkId key v).Carries sampleCrypto 1 1 :=
  ⟨rfl, hkey⟩

theorem recoverPlain_sampleCrypto (sighash : Hash) :
    recoverPlain sampleCrypto sighash 1 1 27 = some 17 := rfl

theorem sender_signedTransfer (networkId key : ℕ) :
    (signedTransfer 0 networkId key 27).sender networkId = some 17 :=
  (EvmTransaction.recover_version0 rfl).trans (recoverPlain_sampleCrypto _)

theorem sender_signedTransfer_eip155 (networkId key networkId' : ℕ) :
    (signedTransfer 2 networkId key (35 + networkId * 2)).sender networkId' = some 17 := by
  have hplain : (35 + networkId * 2 - networkId * 2 - 8 : ℤ) = 27 := by ring
  have hrecover := @EvmTransaction.recover_version2 sampleCrypto
    (transfer 2 networkId key (35 + networkId * 2) fun _ => none) 1 1 networkId' rfl
  refine hrecover.trans ?_
  show recoverPlain _ _ _ _ (35 + networkId * 2 - networkId * 2 - 8) = _
  rw [hplain, recoverPlain_sampleCrypto]

section

variable {cl : Cluster} {s : ShardConfig} {version networkId key shardSize : ℕ} {v : ℤ}

def sizedTransfer (version networkId key : ℕ) (v : ℤ) (shardSize : ℕ) : EvmTransaction :=
  { signedTransfer version networkId key v with fromShardSize := shardSize, toShardSize := shardSize }

theorem setShardSizes_signedTransfer
    (hsize : cl.shared.quarkchain.getShardSizeByChainId (key >>> 16) = some shardSize)
    (hp2 : isP2 shardSize = true) (hne : shardSize ≠ 0) :
    (cl.node s).setShardSizes (signedTransfer version networkId key v) =
      .ok (sizedTransfer version networkId key v shardSize) := by
  have husable : (!isP2 shardSize || shardSize == 0) = false := by simp [hp2, hne]
  have hfrom : (cl.node s).cfg.quarkchain.getShardSizeByChainId
      (signedTransfer version networkId key v).fromChainID = some shardSize := hsize
  have hto : (cl.node s).cfg.quarkchain.getShardSizeByChainId
      (signedTransfer version networkId key v).toChainID = some shardSize := hsize
  unfold Node.setShardSizes
  simp only [hfrom, hto, husable, Bool.false_eq_true, if_false, sizedTransfer]

theorem isCrossShard_sizedTransfer :
    (sizedTransfer version networkId key v shardSize).isCrossShard = false := by
  simp [EvmTransaction.isCrossShard, EvmTransaction.fromChainID, EvmTransaction.toChainID,
    EvmTransaction.fromShardID, EvmTransaction.toShardID, sizedTransfer, signedTransfer, transfer]

/-- How the fields of the transfer have to be set for its version. -/
def Formed (cl : Cluster) (s : ShardConfig) (version networkId key : ℕ) (v : ℤ) : Prop :=
  (version ≠ 2 ∧ networkId = cl.shared.networkID) ∨
    (version = 2 ∧ key % 2 ^ 16 = 0 ∧ networkId = cl.ethChainID s ∧ v = 35 + networkId * 2)

variable (h : Formed cl s version networkId key v)
include h

theorem Formed.checkTxWithVersion2 (hversion : version = 2)
    {timeStamp : ℕ} (htime : cl.shared.enableEIP155SignerTimestamp ≤ timeStamp) :
    (cl.node s).checkTxWithVersion2 (sizedTransfer version networkId key v shardSize) timeStamp =
      true := by
  obtain ⟨hne, -⟩ | ⟨-, hzero, hnetwork, hv⟩ := h
  · exact absurd hversion hne
  have hkey : key &&& 65535 = 0 := by
    rw [← hzero, ← Nat.and_two_pow_sub_one_eq_mod]
  simp [Node.checkTxWithVersion2, sizedTransfer, signedTransfer, transfer, EvmTransaction.fromChainID,
    EvmTransaction.toChainID, EvmTransaction.fromShardKey, EvmTransaction.toShardKey, hkey, hv,
    Cluster.node, Cluster.chainConfig, hnetwork, htime]

theorem Formed.checkTx (hin : (Branch.mk s.getFullShardId).isInBranch
      ((key >>> 16) <<< 16 ||| shardSize ||| (key &&& predU32 shardSize)) = true)
    {timeStamp : ℕ} (hevm : cl.shared.enableEvmTimeStamp ≤ timeStamp)
    (htime : cl.shared.enableEIP155SignerTimestamp ≤ timeStamp) :
    (cl.node s).checkTx (sizedTransfer version networkId key v shardSize) 0 timeStamp = none := by
  have hversion2 : ¬((sizedTransfer version networkId key v shardSize).version = 2 ∧
      (!(cl.node s).checkTxWithVersion2 (sizedTransfer version networkId key v shardSize) timeStamp) =
        true) := by
    rintro ⟨hversion, hfail⟩
    rw [h.checkTxWithVersion2 hversion htime] at hfail
    cases hfail
  have hnetwork : ¬((sizedTransfer version networkId key v shardSize).version ≠ 2 ∧
      (sizedTransfer version networkId key v shardSize).networkId ≠ (cl.node s).cfg.networkID) := by
    rintro ⟨hne, hdiff⟩
    obtain ⟨-, hnetwork⟩ | ⟨hversion, -⟩ := h
    · exact hdiff hnetwork
    · exact hne hversion
  have hbranch : (cl.node s).branch.isInBranch
      (sizedTransfer version networkId key v shardSize).fromFullShardId = true := hin
  have hevm' : ¬timeStamp < (cl.node s).cfg.enableEvmTimeStamp := Nat.not_lt.mpr hevm
  unfold Node.checkTx
  rw [if_neg hversion2, if_neg hnetwork]
  simp [hbranch, Node.checkTarget, isCrossShard_sizedTransfer, hevm']

theorem Formed.accepts (hroutes : Routes cl.shared.quarkchain s key)
    (hsender : (signedTransfer version networkId key v).sender cl.shared.networkID = some 17) :
    (cl.node s).Accepts (signedTransfer version networkId key v) := by
  obtain ⟨shardSize, hsize, hp2, hne, hin⟩ := hroutes
  let w : World := { db := .new (fun _ => none) (BlockFields.mk 0 0 0 ∅ [] (fun _ => none) 0
    (max cl.shared.enableEvmTimeStamp cl.shared.enableEIP155SignerTimestamp) 0 none) }
  have hcheck : (cl.node s).checkTx (sizedTransfer version networkId key v shardSize) 0
      w.db.block.timeStamp = none := h.checkTx hin (le_max_left _ _) (le_max_right _ _)
  have hsender' : (sizedTransfer version networkId key v shardSize).sender
      (cl.node s).cfg.networkID = some 17 := hsender
  -- the account is new, and a nonce of one is in the near future
  have hnonce : (w.db.getNonce 17).1 < (sizedTransfer version networkId key v shardSize).nonce ∧
      (sizedTransfer version networkId key v shardSize).nonce <
        (w.db.getNonce 17).1 + Node.maxFutureTxNonce :=
    ⟨Nat.zero_lt_one, (by decide : 1 < 0 + 64)⟩
  refine ⟨sampleParent.header, 0, w, sizedTransfer version networkId key v shardSize,
    { w with db := (w.db.getNonce 17).2 }, ?_⟩
  unfold Node.validateTx
  rw [setShardSizes_signedTransfer hsize hp2 hne]
  simp only [hcheck, hsender', hnonce, and_self, if_true]
  rfl

end

theorem message_signedTransfer_eip155 (networkId k₁ k₂ : ℕ) (v : ℤ) :
    (signedTransfer 2 networkId k₁ v).message = (signedTransfer 2 networkId k₂ v).message := rfl

theorem collisionFree_of_message {crypto : Crypto} {r s : ℕ} {a : Recipient}
    (h : tx.message = tx'.message) : CollisionFree crypto r s a tx tx' := by
  intro m m' hm hm'
  rw [h, hm'] at hm
  cases hm
  exact ⟨fun _ _ _ => rfl, fun _ => rfl⟩

theorem separates_of_noReplay (hcl : NoReplay cl) : cl.Separates := by
  intro s₁ h₁ s₂ h₂ k₁ hk₁ k₂ hk₂ hkeys hr₁ hr₂
  rcases hkeys with rfl | ⟨hzero₁, hzero₂, heth⟩
  · have hsender := sender_signedTransfer cl.shared.networkID k₁
    have hformed : ∀ s, Formed cl s 0 cl.shared.networkID k₁ 27 := fun s => .inl ⟨by decide, rfl⟩
    exact hcl sampleCrypto 1 1 17 _ _ s₁ s₂ _ _ (Cluster.serves_node h₁) (Cluster.serves_node h₂)
      (carries_signedTransfer hk₁) (carries_signedTransfer hk₁) (.inl rfl) hsender hsender
      (collisionFree_of_message rfl) ((hformed s₁).accepts hr₁ hsender)
      ((hformed s₂).accepts hr₂ hsender)
  · have hsender := fun k => sender_signedTransfer_eip155 (cl.ethChainID s₁) k cl.shared.networkID
    have hformed₁ : Formed cl s₁ 2 (cl.ethChainID s₁) k₁ (35 + cl.ethChainID s₁ * 2) :=
      .inr ⟨rfl, hzero₁, rfl, rfl⟩
    have hformed₂ : Formed cl s₂ 2 (cl.ethChainID s₁) k₂ (35 + cl.ethChainID s₁ * 2) :=
      .inr ⟨rfl, hzero₂, heth, rfl⟩
    exact hcl sampleCrypto 1 1 17 _ _ s₁ s₂ _ _ (Cluster.serves_node h₁) (Cluster.serves_node h₂)
      (carries_signedTransfer hk₁) (carries_signedTransfer hk₂) (.inl rfl) (hsender k₁) (hsender k₂)
      (collisionFree_of_message (message_signedTransfer_eip155 _ _ _ _))
      (hformed₁.accepts hr₁ (hsender k₁)) (hformed₂.accepts hr₂ (hsender k₂))

/-- **When a signature is good for one shard only.**  Nodes of at most one shard accept transactions with a given
signature and sender if and only if the shard table separates its shards. -/
theorem noReplay_iff (cl : Cluster) : NoReplay cl ↔ cl.Separates :=
  ⟨separates_of_noReplay, noReplay_of_separates⟩

/-- **Accepted tables with chain ids of sixteen bits are safe against replay.** -/
theorem noReplay_of_chains {chains : List ShardConfig} {chainSize : ℕ}
    (hchains : cl.shards = expandChains chains)
    (hone : ∀ c ∈ chains, ∀ c' ∈ chains, c.chainID = c'.chainID → c.shardSize = c'.shardSize)
    (hsize : ∀ c ∈ chains, c.shardSize ≤ 2 ^ 15) (hid : ∀ c ∈ chains, c.chainID < 2 ^ 16)
    (h : cl.shared.quarkchain.initAndValidate chainSize = true) : NoReplay cl := by
  refine noReplay_of_separates (separates_of_fits (fits_of_expanded
    (expanded_of_chains hchains hone hsize h) fun s (hs : s ∈ cl.shards) => ?_))
  obtain ⟨c, hc, heq, -⟩ := mem_configured (mem_configured_of_mem_expandChains (hchains ▸ hs))
  exact heq ▸ hid c hc

/-! ### A table that is accepted -/

/-- Chain `0` has two shards, and the only shard of chain `65536` has the full shard id `1`. -/
def wrappedTable : QuarkChainConfig where
  shards :=
    [{ chainID := 0, shardSize := 2, shardID := 0, genesis := none, maxBlocksPerShardInOneRootBlock := 1 },
     { chainID := 0, shardSize := 2, shardID := 1, genesis := none, maxBlocksPerShardInOneRootBlock := 1 },
     { chainID := 65536, shardSize := 1, shardID := 0, genesis := none,
       maxBlocksPerShardInOneRootBlock := 1 }]
  defaultChainTokenID := 0
  xShardGasDDOSFixRootHeight := 0
  shards_nodup := by decide

def wrappedCluster : Cluster where
  shared := { sampleConfig 0 with quarkchain := wrappedTable }
  baseEthChainID := 100000

/-- The same transaction is accepted by nodes of two shards. -/
theorem wrapped_chain_replays :
    wrappedTable.initAndValidate 1 = true ∧
    ∃ crypto r s a tx s₁ s₂ n₁ n₂, wrappedCluster.Serves s₁ n₁ ∧ wrappedCluster.Serves s₂ n₂ ∧
      EvmTransaction.Carries crypto r s tx ∧ tx.sender wrappedCluster.shared.networkID = some a ∧
      n₁.Accepts tx ∧ n₂.Accepts tx ∧ s₁.getFullShardId ≠ s₂.getFullShardId := by
  have hsender := sender_signedTransfer wrappedCluster.shared.networkID 0
  have hformed : ∀ s, Formed wrappedCluster s 0 wrappedCluster.shared.networkID 0 27 :=
    fun s => .inl ⟨by decide, rfl⟩
  have hmem₁ : wrappedTable.shards[0] ∈ wrappedCluster.shards := List.getElem_mem _
  have hmem₂ : wrappedTable.shards[2] ∈ wrappedCluster.shards := List.getElem_mem _
  refine ⟨by decide, sampleCrypto, 1, 1, 17, _, _, _, _, _, Cluster.serves_node hmem₁,
    Cluster.serves_node hmem₂, carries_signedTransfer (by decide), hsender,
    (hformed _).accepts ⟨2, by decide⟩ hsender, (hformed _).accepts ⟨2, by decide⟩ hsender, by decide⟩

def pairedCluster : Cluster :=
  { wrappedCluster with
    shared := { sampleConfig 0 with quarkchain := pairOfChains 2 1 4 (by decide) } }

theorem pairedCluster_noReplay : NoReplay pairedCluster :=
  noReplay_of_chains rfl (by decide) (by decide) (by decide)
    (show QuarkChainConfig.initAndValidate _ 2 = true by decide)

end QuarkChain.Core
