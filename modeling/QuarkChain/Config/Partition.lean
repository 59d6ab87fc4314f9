/-
# Shards partition the keys

The shard table that `UnmarshalJSON` of `src/cluster/config/cluster_config.go` expands from chain entries,
and what `initAndValidate` makes of it.  The checks force the size of every shard of the table to be a power of
two (`Expanded.exists_pow`), but they see neither an entry without shards nor the chains that the table has lost:
they do not keep chain ids below `2 ^ 16`, and a full shard id has no room for more, so that a shard of one chain
may take the place of a shard of another.

The configured shards are therefore those of the entries, before the table joins those with one id, and a shard
is known by its chain and its number.  Their branches partition the keys exactly if every entry has a shard and no
two entries of different chains agree in the lower sixteen bits of the chain id (`partitions_iff`).
-/
import QuarkChain.Types.CrossShard

namespace QuarkChain.Config

open Account QuarkChain.Types

/-- `q.shards[s.GetFullShardId()] = s`: a shard takes the place of one with the same id. -/
def setShard (shards : List ShardConfig) (s : ShardConfig) : List ShardConfig :=
  s :: shards.filter fun t => t.getFullShardId ≠ s.getFullShardId

/-- The shards of one chain entry, by their numbers. -/
def ShardConfig.expand (chainCfg : ShardConfig) : List ShardConfig :=
  (List.range chainCfg.shardSize).map fun shardID => { chainCfg with shardID }

/-- The shards that the entries name.  An entry for a chain is a shard without a number. -/
def configured (chains : List ShardConfig) : List ShardConfig := chains.flatMap ShardConfig.expand

/-- The loops of `UnmarshalJSON`. -/
def expandChains (chains : List ShardConfig) : List ShardConfig := (configured chains).foldl setShard []

theorem mem_of_mem_foldl_setShard {shards l : List ShardConfig} {s : ShardConfig}
    (h : s ∈ l.foldl setShard shards) : s ∈ shards ∨ s ∈ l := by
  induction l generalizing shards with
  | nil => exact .inl h
  | cons t l ih =>
    rcases ih h with h | h
    · rcases List.mem_cons.mp h with rfl | h
      · exact .inr List.mem_cons_self
      · exact .inl (List.mem_of_mem_filter h)
    · exact .inr (List.mem_cons_of_mem t h)

/-- A shard that was set is in the table, or another one with its id is. -/
theorem exists_mem_foldl_setShard {shards l : List ShardConfig} {s : ShardConfig} (h : s ∈ shards ∨ s ∈ l) :
    ∃ t ∈ l.foldl setShard shards, t.getFullShardId = s.getFullShardId := by
  induction l generalizing shards s with
  | nil => exact ⟨s, h.resolve_right List.not_mem_nil, rfl⟩
  | cons u l ih =>
    by_cases hid : s.getFullShardId = u.getFullShardId
    · rw [hid]
      exact ih (.inl List.mem_cons_self)
    · refine ih (h.imp (fun hs => ?_) fun hs => ?_)
      · exact List.mem_cons_of_mem u (List.mem_filter.mpr ⟨hs, by simpa using hid⟩)
      · exact (List.mem_cons.mp hs).resolve_left fun heq => hid (heq ▸ rfl)

/-- `Address.AddressInBranch`; the complement is one of `uint32`. -/
def addressInBranch (a : Address) (branch : Branch) : Address where
  recipient := a.recipient
  fullShardKey :=
    let shardKey := a.fullShardKey &&& (2 ^ 16 - 1)
    let newShardKey := (shardKey &&& (2 ^ 32 - 1 - predU32 branch.getShardSize)) + branch.getShardID
    branch.getChainID <<< 16 ||| newShardKey

/-- The branch of a shard. -/
def ShardConfig.branch (s : ShardConfig) : Branch := ⟨s.getFullShardId⟩

/-- Two entries name one shard: the same number of the same chain. -/
def ShardConfig.SameShard (s t : ShardConfig) : Prop := s.chainID = t.chainID ∧ s.shardID = t.shardID

instance (s t : ShardConfig) : Decidable (s.SameShard t) := inferInstanceAs (Decidable (_ ∧ _))

/-- The shards that the entries name partition the keys of their chains, and the table `q` finds them. -/
structure Partitions (chains : List ShardConfig) (q : QuarkChainConfig) : Prop where
  size : ∀ c ∈ chains, ∃ j, c.shardSize = 2 ^ j
  key : ∀ fullShardKey < 2 ^ 32, (∃ c ∈ chains, c.chainID = fullShardKey >>> 16) →
    ∃ s ∈ q.shards, q.getFullShardIdByFullShardKey fullShardKey = some s.getFullShardId ∧
      ∀ t ∈ configured chains, t.branch.isInBranch fullShardKey = true ↔ t.SameShard s
  rebind : ∀ a : Address, ∀ s ∈ configured chains, ∀ t ∈ configured chains,
    t.branch.isInBranch (addressInBranch a s.branch).fullShardKey = true ↔ t.SameShard s

/-! ### Accepted tables -/

variable {q : QuarkChainConfig} {s t : ShardConfig}

/-- What `initAndValidate` accepts, of a table that was expanded from chain entries. -/
structure Expanded (q : QuarkChainConfig) : Prop where
  shardID_lt : ∀ s ∈ q.shards, s.shardID < s.shardSize
  oneSize : ∀ s ∈ q.shards, ∀ t ∈ q.shards, s.chainID = t.chainID → s.shardSize = t.shardSize
  size_le : ∀ s ∈ q.shards, s.shardSize ≤ 2 ^ 15
  numbered : ∀ s ∈ q.shards, ∀ i < s.shardSize, ∃ t ∈ q.shards, t.chainID = s.chainID ∧ t.shardID = i

theorem getShardSizeByChainId_of_mem (hs : s ∈ q.shards) :
    ∃ t ∈ q.shards, t.chainID = s.chainID ∧ q.getShardSizeByChainId s.chainID = some t.shardSize := by
  obtain ⟨t, ht⟩ := Option.isSome_iff_exists.mp
    (List.find?_isSome (p := fun t => decide (t.chainID = s.chainID)) |>.mpr ⟨s, hs, by simp⟩)
  exact ⟨t, List.mem_of_find?_eq_some ht, by simpa using List.find?_some ht, by
    rw [QuarkChainConfig.getShardSizeByChainId, ht, Option.map_some]⟩

variable {chains : List ShardConfig}

theorem mem_configured (hs : s ∈ configured chains) :
    ∃ c ∈ chains, s.chainID = c.chainID ∧ s.shardSize = c.shardSize ∧ s.shardID < s.shardSize := by
  obtain ⟨c, hc, hs⟩ := List.mem_flatMap.mp hs
  obtain ⟨i, hi, rfl⟩ := List.mem_map.mp hs
  exact ⟨c, hc, rfl, rfl, List.mem_range.mp hi⟩

theorem mem_configured_of_mem_expandChains (hs : s ∈ expandChains chains) : s ∈ configured chains :=
  (mem_of_mem_foldl_setShard hs).resolve_left List.not_mem_nil

/-- The first shard of an entry. -/
theorem first_mem_configured {c : ShardConfig} (hc : c ∈ chains) (hpos : c.shardSize ≠ 0) :
    { c with shardID := 0 } ∈ configured chains :=
  List.mem_flatMap.mpr ⟨c, hc, List.mem_map.mpr ⟨0, List.mem_range.mpr (by omega), rfl⟩⟩

theorem expanded_of_chains {chainSize : ℕ} (hq : q.shards = expandChains chains)
    (hone : ∀ c ∈ chains, ∀ c' ∈ chains, c.chainID = c'.chainID → c.shardSize = c'.shardSize)
    (hsize : ∀ c ∈ chains, c.shardSize ≤ 2 ^ 15) (h : q.initAndValidate chainSize = true) : Expanded q := by
  have hmem : ∀ s ∈ q.shards, _ := fun s hs =>
    mem_configured (mem_configured_of_mem_expandChains (hq ▸ hs))
  have honeSize : ∀ s ∈ q.shards, ∀ t ∈ q.shards, s.chainID = t.chainID → s.shardSize = t.shardSize := by
    intro s hs t ht heq
    obtain ⟨c, hc, hcs, hss, -⟩ := hmem s hs
    obtain ⟨c', hc', hct, hst, -⟩ := hmem t ht
    rw [hss, hst, hone c hc c' hc' (by omega)]
  refine ⟨fun s hs => ?_, honeSize, fun s hs => ?_, fun s hs i hi => ?_⟩
  · obtain ⟨c, -, -, -, hlt⟩ := hmem s hs
    exact hlt
  · obtain ⟨c, hc, -, hss, -⟩ := hmem s hs
    exact hss ▸ hsize c hc
  · simp only [QuarkChainConfig.initAndValidate, Bool.and_eq_true, List.all_eq_true] at h
    have hall := h.1 _ (List.mem_map_of_mem hs)
    obtain ⟨t, ht, hchain, hget⟩ := getShardSizeByChainId_of_mem hs
    rw [hget, Option.any_some, Bool.and_eq_true, List.all_eq_true, ← honeSize s hs t ht hchain.symm] at hall
    obtain ⟨u, hu, hid⟩ := List.mem_map.mp (List.contains_iff_mem.mp (hall.2 i (List.mem_range.mpr hi)))
    rw [List.mem_filter] at hu
    exact ⟨u, hu.1, by simpa using hu.2, hid⟩

theorem eq_of_numbers (hs : s ∈ q.shards) (ht : t ∈ q.shards) (hchain : s.chainID = t.chainID)
    (hid : s.shardSize ||| s.shardID = t.shardSize ||| t.shardID) : s = t := by
  refine List.inj_on_of_nodup_map q.shards_nodup hs ht ?_
  rw [ShardConfig.getFullShardId, ShardConfig.getFullShardId, Nat.or_assoc, Nat.or_assoc, hchain, hid]

theorem and_complement {x j : ℕ} (hx : x < 2 ^ 16) (hj : j ≤ 15) :
    x &&& (2 ^ 32 - 1 - predU32 (2 ^ j)) = 2 ^ j * (x / 2 ^ j) := by
  have hle : 2 ^ j ≤ 2 ^ 32 := Nat.pow_le_pow_right (by decide) (by omega)
  have hpos := Nat.two_pow_pos j
  have hmask : 2 ^ 32 - 1 - predU32 (2 ^ j) = 2 ^ j * (2 ^ (32 - j) - 1) := by
    rw [predU32_of_pos hpos hle, Nat.mul_sub, ← pow_add, Nat.add_sub_cancel' (by omega)]
    omega
  rw [hmask]
  refine Nat.eq_of_testBit_eq fun i => ?_
  rw [Nat.testBit_and, Nat.testBit_two_pow_mul, Nat.testBit_two_pow_mul, Nat.testBit_two_pow_sub_one,
    Nat.testBit_div_two_pow]
  by_cases hi : j ≤ i
  · rw [Nat.sub_add_cancel hi]
    by_cases hhigh : i < 32
    · simp [hi, show i - j < 32 - j by omega]
    · simp [Nat.testBit_lt_two_pow (hx.trans_le (Nat.pow_le_pow_right (by decide) (by omega : 16 ≤ i)))]
  · simp [hi]

/-- What makes the branch of a shard one of the chain's parts: a power of two as size, and a number below it. -/
structure ShardConfig.Regular (s : ShardConfig) : Prop where
  size : ∃ j ≤ 15, s.shardSize = 2 ^ j
  id : s.shardID < s.shardSize

namespace ShardConfig.Regular

variable (hs : s.Regular)
include hs

theorem branch_eq : ∃ j ≤ 15, s.shardSize = 2 ^ j ∧ s.shardID < 2 ^ j ∧
    s.branch = ⟨(s.chainID % 2 ^ 16) <<< 16 ||| 2 ^ j ||| s.shardID⟩ := by
  obtain ⟨j, hj, hpow⟩ := hs.size
  refine ⟨j, hj, hpow, hpow ▸ hs.id, ?_⟩
  rw [ShardConfig.branch, ShardConfig.getFullShardId, hpow, Nat.shiftLeft_eq, Nat.shiftLeft_eq]
  congr 3
  omega

/-- The keys in the branch of a shard. -/
theorem isInBranch_iff (k : ℕ) :
    s.branch.isInBranch k = true ↔ k / 2 ^ 16 = s.chainID % 2 ^ 16 ∧ k % s.shardSize = s.shardID := by
  obtain ⟨j, hj, hpow, hid, hbranch⟩ := hs.branch_eq
  rw [hbranch, isInBranch_fullShardId hj hid, hpow]

/-- The key that an address gets when it is bound to the branch of a shard. -/
theorem addressInBranch_key (a : Address) :
    ∃ n, (addressInBranch a s.branch).fullShardKey =
        2 ^ 16 * (s.chainID % 2 ^ 16) + (s.shardSize * n + s.shardID) ∧
      s.shardSize * n + s.shardID < 2 ^ 16 ∧ n = a.fullShardKey % 2 ^ 16 / s.shardSize := by
  obtain ⟨j, hj, hpow, hid, hbranch⟩ := hs.branch_eq
  have hx : a.fullShardKey % 2 ^ 16 < 2 ^ 16 := Nat.mod_lt _ (by decide)
  obtain ⟨d, hd⟩ : 2 ^ j ∣ 2 ^ 16 := Nat.pow_dvd_pow 2 (by omega)
  generalize hlow : a.fullShardKey % 2 ^ 16 = x at hx
  have hnew : 2 ^ j * (x / 2 ^ j) + s.shardID < 2 ^ 16 := by
    have := Nat.mul_le_mul_left (2 ^ j) (Nat.div_lt_of_lt_mul (hd ▸ hx))
    rw [← hd, Nat.mul_succ] at this
    omega
  rw [hpow]
  refine ⟨x / 2 ^ j, ?_, hnew, rfl⟩
  simp only [addressInBranch, hbranch, getShardSize_fullShardId hj hid, getShardID_fullShardId hj hid,
    getChainID_fullShardId hj hid]
  rw [Nat.and_two_pow_sub_one_eq_mod, hlow, and_complement hx hj, Nat.shiftLeft_eq, Nat.mul_comm,
    ← Nat.two_pow_add_eq_or_of_lt hnew]

theorem size_dvd : s.shardSize ∣ 2 ^ 16 := by
  obtain ⟨j, hj, hpow⟩ := hs.size
  exact hpow ▸ Nat.pow_dvd_pow 2 (by omega)

/-- The key zero of a chain is in its first shard. -/
theorem isInBranch_first (hid : s.shardID = 0) : s.branch.isInBranch (2 ^ 16 * (s.chainID % 2 ^ 16)) = true :=
  (hs.isInBranch_iff _).mpr ⟨Nat.mul_div_cancel_left _ (by decide), by
    rw [hid, Nat.mod_eq_zero_of_dvd (hs.size_dvd.trans (Nat.dvd_mul_right _ _))]⟩

/-- A bound address is in the branch it was bound to. -/
theorem addressInBranch_mem (a : Address) :
    (addressInBranch a s.branch).fullShardKey / 2 ^ 16 = s.chainID % 2 ^ 16 ∧
      (addressInBranch a s.branch).fullShardKey % s.shardSize = s.shardID := by
  obtain ⟨n, hkey, hlt, -⟩ := hs.addressInBranch_key a
  obtain ⟨d, hd⟩ := hs.size_dvd
  refine ⟨by rw [hkey]; omega, ?_⟩
  rw [hkey, hd, Nat.mul_assoc, Nat.mul_add_mod, Nat.mul_add_mod, Nat.mod_eq_of_lt hs.id]

end ShardConfig.Regular

namespace Expanded

variable (hq : Expanded q)
include hq

/-- **Every shard size of the table is a power of two.**  Otherwise a shard number made of lower bits of the size would
share its full shard id with the number zero. -/
theorem exists_pow (hs : s ∈ q.shards) : ∃ j ≤ 15, s.shardSize = 2 ^ j := by
  have hpos : 0 < s.shardSize := (Nat.zero_le _).trans_lt (hq.shardID_lt s hs)
  have hle := Nat.log2_self_le (by omega : s.shardSize ≠ 0)
  have hlt := Nat.lt_log2_self (n := s.shardSize)
  generalize Nat.log2 s.shardSize = j at hle hlt
  obtain ⟨i, hi⟩ := Nat.exists_eq_add_of_le hle
  rw [pow_succ] at hlt
  obtain ⟨t, ht, htc, ht0⟩ := hq.numbered s hs 0 hpos
  obtain ⟨u, hu, huc, hui⟩ := hq.numbered s hs i (by have := Nat.two_pow_pos j; omega)
  have hor : s.shardSize ||| i = s.shardSize := by
    rw [hi, ← two_pow_or (by omega), Nat.or_assoc, Nat.or_self]
  have htu : t = u := by
    refine eq_of_numbers ht hu (htc.trans huc.symm) ?_
    rw [ht0, hui, hq.oneSize t ht s hs htc, hq.oneSize u hu s hs huc, hor, Nat.or_zero]
  subst htu
  exact ⟨j, (Nat.pow_le_pow_iff_right (by decide)).mp (hle.trans (hq.size_le s hs)), by omega⟩

/-- The table looks up the shard of its own that contains the key. -/
theorem getFullShardIdByFullShardKey_eq {k : ℕ} (hk : k < 2 ^ 32)
    (h : (q.getShardSizeByChainId (k >>> 16)).isSome = true) :
    ∃ s ∈ q.shards, k / 2 ^ 16 = s.chainID % 2 ^ 16 ∧ k % s.shardSize = s.shardID ∧
      q.getFullShardIdByFullShardKey k = some s.getFullShardId := by
  obtain ⟨size, hsize⟩ := Option.isSome_iff_exists.mp h
  obtain ⟨t, hfind, rfl⟩ := Option.map_eq_some_iff.mp hsize
  have ht := List.mem_of_find?_eq_some hfind
  have hchain : t.chainID = k >>> 16 := by simpa using List.find?_some hfind
  obtain ⟨j, hj, hpow⟩ := hq.exists_pow ht
  obtain ⟨s, hs, hsc, hid⟩ := hq.numbered t ht (k % t.shardSize)
    (Nat.mod_lt _ (hpow ▸ Nat.two_pow_pos j))
  have hss := hq.oneSize s hs t ht hsc
  rw [← hsc, Nat.shiftRight_eq_div_pow] at hchain
  refine ⟨s, hs, by omega, by rw [hss, hid], ?_⟩
  rw [QuarkChainConfig.getFullShardIdByFullShardKey]
  simp only [hsize, Option.map_some, ShardConfig.getFullShardId, hchain, hid, hss]
  rw [hpow, and_predU32_two_pow (by omega), Nat.shiftRight_eq_div_pow, Nat.shiftLeft_eq,
    Nat.mod_eq_of_lt (show k / 2 ^ 16 * 2 ^ 16 < 2 ^ 32 by omega)]

end Expanded

/-- A shard id tells the chain, as far as it has room for it. -/
theorem getFullShardId_div (hsize : s.shardSize ≤ 2 ^ 15) (hid : s.shardID < s.shardSize) :
    s.getFullShardId / 2 ^ 16 = s.chainID % 2 ^ 16 := by
  have hor : s.shardSize ||| s.shardID < 2 ^ 16 := Nat.or_lt_two_pow (by omega) (by omega)
  have hshift : s.chainID <<< 16 % 2 ^ 32 = 2 ^ 16 * (s.chainID % 2 ^ 16) := by
    rw [Nat.shiftLeft_eq]
    omega
  rw [ShardConfig.getFullShardId, Nat.or_assoc, hshift, ← Nat.two_pow_add_eq_or_of_lt hor]
  omega

/-- Entries of different chains have different chain ids in the sixteen bits of a full shard id. -/
def ChainsApart (chains : List ShardConfig) : Prop :=
  ∀ c ∈ chains, ∀ c' ∈ chains, c.chainID % 2 ^ 16 = c'.chainID % 2 ^ 16 → c.chainID = c'.chainID

instance (chains : List ShardConfig) : Decidable (ChainsApart chains) :=
  inferInstanceAs (Decidable (∀ c ∈ chains, ∀ c' ∈ chains, _ → _))

/-- No chain is lost: when the chains are apart, the table has a shard of each entry that has one. -/
theorem ChainsApart.exists_mem {c : ShardConfig} (h : ChainsApart chains) (hq : q.shards = expandChains chains)
    (hsize : ∀ c ∈ chains, c.shardSize ≤ 2 ^ 15) (hc : c ∈ chains) (hpos : c.shardSize ≠ 0) :
    ∃ t ∈ q.shards, t.chainID = c.chainID := by
  obtain ⟨t, ht, hid⟩ := @exists_mem_foldl_setShard [] _ _ (.inr (first_mem_configured hc hpos))
  obtain ⟨c', hc', htc, hts, hlt⟩ := mem_configured (mem_configured_of_mem_expandChains ht)
  have hfirst := getFullShardId_div (s := { c with shardID := 0 }) (hsize c hc) (Nat.pos_of_ne_zero hpos)
  have hdiv : c'.chainID % 2 ^ 16 = c.chainID % 2 ^ 16 := by
    rw [← htc, ← getFullShardId_div (hts ▸ hsize c' hc') hlt, hid, hfirst]
  exact ⟨t, hq ▸ ht, htc.trans (h c' hc' c hc hdiv)⟩

/-- **When the shards partition the keys.**  Of chain entries with one size of at most `2 ^ 15` for each chain
whose table is accepted, the shards partition the keys of the chains exactly if every entry has a shard and
chains with different ids differ in the lower sixteen bits. -/
theorem partitions_iff {chains : List ShardConfig} {chainSize : ℕ} (hchains : q.shards = expandChains chains)
    (hone : ∀ c ∈ chains, ∀ c' ∈ chains, c.chainID = c'.chainID → c.shardSize = c'.shardSize)
    (hsize : ∀ c ∈ chains, c.shardSize ≤ 2 ^ 15) (h : q.initAndValidate chainSize = true) :
    Partitions chains q ↔ (∀ c ∈ chains, c.shardSize ≠ 0) ∧ ChainsApart chains := by
  have hq := expanded_of_chains hchains hone hsize h
  -- in both directions the sizes are powers of two, so that every shard of an entry is regular
  have hregular : (∀ c ∈ chains, ∃ j, c.shardSize = 2 ^ j) → ∀ s ∈ configured chains, s.Regular := by
    intro hpow s hs
    obtain ⟨c, hc, -, hss, hlt⟩ := mem_configured hs
    obtain ⟨j, hj⟩ := hpow c hc
    have hle : 2 ^ j ≤ 2 ^ 15 := hj ▸ hsize c hc
    exact ⟨⟨j, (Nat.pow_le_pow_iff_right (by decide)).mp hle, hss.trans hj⟩, hlt⟩
  constructor
  · intro hp
    have hpos : ∀ c ∈ chains, c.shardSize ≠ 0 := by
      intro c hc
      obtain ⟨j, hj⟩ := hp.size c hc
      exact hj ▸ (Nat.two_pow_pos j).ne'
    refine ⟨hpos, fun c hc c' hc' heq => ?_⟩
    -- the address zero, bound to the first shard of the one chain, is in the first shard of the other
    have hs := first_mem_configured hc (hpos c hc)
    have ht := first_mem_configured hc' (hpos c' hc')
    obtain ⟨n, hkey, -, rfl⟩ := (hregular hp.size _ hs).addressInBranch_key ⟨0, 0⟩
    rw [Nat.zero_mod, Nat.zero_div, Nat.mul_zero, Nat.add_zero, Nat.add_zero] at hkey
    refine ((hp.rebind ⟨0, 0⟩ _ hs _ ht).mp ?_).1.symm
    rw [hkey, show ({ c with shardID := 0 } : ShardConfig).chainID % 2 ^ 16 = c'.chainID % 2 ^ 16 from heq]
    exact (hregular hp.size _ ht).isInBranch_first rfl
  · rintro ⟨hpos, hapart⟩
    have hpow : ∀ c ∈ chains, ∃ j, c.shardSize = 2 ^ j := by
      intro c hc
      obtain ⟨t, ht, htc⟩ := hapart.exists_mem hchains hsize hc (hpos c hc)
      obtain ⟨c', hc', htc', hts, -⟩ := mem_configured (mem_configured_of_mem_expandChains (hchains ▸ ht))
      obtain ⟨j, -, hj⟩ := hq.exists_pow ht
      exact ⟨j, by rw [hone c hc c' hc' (by omega), ← hts, hj]⟩
    have hsame : ∀ s ∈ configured chains, ∀ k, k / 2 ^ 16 = s.chainID % 2 ^ 16 →
        k % s.shardSize = s.shardID → ∀ t ∈ configured chains, t.branch.isInBranch k = true ↔ t.SameShard s := by
      intro s hs k hk hid t ht
      obtain ⟨c, hc, hsc, hss, -⟩ := mem_configured hs
      obtain ⟨c', hc', htc, hts, -⟩ := mem_configured ht
      have hsizes : t.chainID = s.chainID → t.shardSize = s.shardSize := fun heq => by
        rw [hts, hss, hone c' hc' c hc (by omega)]
      rw [(hregular hpow t ht).isInBranch_iff]
      constructor
      · rintro ⟨hk', hid'⟩
        have hchain : t.chainID = s.chainID := by
          rw [htc, hsc, hapart c' hc' c hc (by omega)]
        exact ⟨hchain, by rw [← hid', ← hid, hsizes hchain]⟩
      · rintro ⟨hchain, hnumber⟩
        exact ⟨by rw [hk, hchain], by rw [hsizes hchain, hid, hnumber]⟩
    refine ⟨hpow, fun k hk hchain => ?_, fun a s hs => ?_⟩
    · obtain ⟨c, hc, hck⟩ := hchain
      obtain ⟨t, ht, htc⟩ := hapart.exists_mem hchains hsize hc (hpos c hc)
      obtain ⟨u, -, -, hget⟩ := getShardSizeByChainId_of_mem ht
      obtain ⟨s, hs, hdiv, hid, hfound⟩ := hq.getFullShardIdByFullShardKey_eq hk (by
        rw [← hck, ← htc, hget]
        rfl)
      exact ⟨s, hs, hfound, hsame s (mem_configured_of_mem_expandChains (hchains ▸ hs)) k hdiv hid⟩
    · obtain ⟨hdiv, hid⟩ := (hregular hpow s hs).addressInBranch_mem a
      exact hsame s hs _ hdiv hid

/-- The table of two chains: chain `0`, and another one. -/
def pairOfChains (shardSize chainID shardSize' : ℕ)
    (h : ((expandChains [⟨0, shardSize, 0, none, 0⟩, ⟨chainID, shardSize', 0, none, 0⟩]).map
      ShardConfig.getFullShardId).Nodup) : QuarkChainConfig := ⟨_, 0, 0, h⟩

theorem pairOfChains_partition :
    Partitions [⟨0, 2, 0, none, 0⟩, ⟨1, 4, 0, none, 0⟩] (pairOfChains 2 1 4 (by decide)) :=
  (partitions_iff (q := pairOfChains 2 1 4 (by decide)) rfl (by decide) (by decide)
    (show QuarkChainConfig.initAndValidate _ 2 = true by decide)).mpr (by decide)

/-- **One key in two shards.**  The shard of chain `65536` has the branch of a shard of chain `0`. -/
theorem pairOfChains_overlap :
    let q := pairOfChains 2 65536 1 (by decide)
    q.initAndValidate 1 = true ∧ ∃ s ∈ q.shards, ∃ t ∈ q.shards,
      ¬s.SameShard t ∧ s.branch.isInBranch 0 = true ∧ t.branch.isInBranch 0 = true := by
  decide

-- the shard of chain `65536` takes the place of the only shard of chain `0`, whose keys then have none
example : (pairOfChains 1 65536 1 (by decide)).initAndValidate 1 = true ∧
      (pairOfChains 1 65536 1 (by decide)).getFullShardIdByFullShardKey 0 = none := by
  decide

end QuarkChain.Config
