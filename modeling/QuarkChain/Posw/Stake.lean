/-
# The discount and the stake behind it

A miner whose balance covers enough blocks mines at a lower difficulty: `GetAdjustedDifficulty` of
`src/core/minorblockchain.go` and `PoSWDiffAdjust` of `src/consensus/posw/posw.go` divide the coinbase's balance
at the parent block by the stake per block and compare with the blocks the coinbase mined in the window.  In
exchange `BuildSenderDisallowMap` locks the stake of every miner of the window while the block is executed.

The two do not use the same stake.  Since `EnablePoswStakingDecayTimestamp` the qualifying stake decays
with the height (`DecayByHeightAndTime`), while the lock is always a multiple of `TotalStakePerBlock`.
-/
import QuarkChain.Lib.Outcome
import QuarkChain.Posw.Window

namespace QuarkChain.Posw

open BlockTree QuarkChain.Types Outcome

structure POSWConfig where
  enabled : Bool
  enableTimestamp : UInt64
  diffDivider : UInt64
  windowSize : UInt64
  totalStakePerBlock : ℕ
  boostTimestamp : UInt64
  boostMultiplierPerStep : UInt64
  boostSteps : UInt64
  boostStepInterval : UInt64

def pow (value : UInt64) : ℕ → UInt64
  | 0 => 1
  | n + 1 => pow value n * value

def POSWConfig.getDiffDivider (c : POSWConfig) (blocktime : UInt64) : Except PoswError UInt64 :=
  if 0 < c.boostTimestamp ∧ c.boostTimestamp ≤ blocktime then
    if c.boostStepInterval = 0 then .error .panicDivision
    else
      let steps := (blocktime - c.boostTimestamp) / c.boostStepInterval + 1
      let steps := if c.boostSteps < steps then c.boostSteps else steps
      .ok (c.diffDivider * pow c.boostMultiplierPerStep steps.toNat)
  else .ok c.diffDivider

/-- What the chain reads of the cluster and shard configuration.  The decay factor is a fraction. -/
structure StakeConfig where
  posw : POSWConfig
  enablePoswStakingDecayTimestamp : UInt64
  epochInterval : UInt64
  blockRewardDecayNum : ℕ
  blockRewardDecayDenom : ℕ
  denom_pos : 0 < blockRewardDecayDenom

/-- `powerBigInt`: the loop runs `int(p) - 1` times. -/
def powerBigInt (data : ℕ) (p : UInt64) : ℕ := if p = 0 then 1 else data * data ^ (predInt p).toNat

/-- `DecayByHeightAndTime`; the cache of the source keeps what it computes for an epoch. -/
def StakeConfig.decayByHeightAndTime (m : StakeConfig) (height time : UInt64) : Except PoswError ℕ :=
  if m.enablePoswStakingDecayTimestamp = 0 ∨ time < m.enablePoswStakingDecayTimestamp then
    .ok m.posw.totalStakePerBlock
  else if m.epochInterval = 0 then .error .panicDivision
  else
    let epoch := height / m.epochInterval
    .ok (m.posw.totalStakePerBlock * powerBigInt m.blockRewardDecayNum epoch /
      powerBigInt m.blockRewardDecayDenom epoch)

structure IHeader where
  number : UInt64
  time : UInt64
  parentHash : Hash
  coinbase : Recipient
  difficulty : ℤ
deriving DecidableEq

variable (r : HeadReader)

def countCoinbaseBlockUntil (c : POSWConfig) (cache : Cache) (headerHash : Hash) (coinbase : Recipient) :
    Except PoswError ℕ × Cache :=
  let (addrs, cache) := getCoinbaseAddressUntilBlock r c.windowSize cache headerHash
  (addrs.map (List.count coinbase), cache)

def blockThreshold (c : POSWConfig) (stakes stakePerBlock : ℕ) : ℕ :=
  min (stakes / stakePerBlock % 2 ^ 64) c.windowSize.toNat

/-- `PoSWDiffAdjust`, for the stakes of an account that was read. -/
def poSWDiffAdjust (c : POSWConfig) (cache : Cache) (header : IHeader) (stakes stakePerBlock : ℕ) :
    Except PoswError ℤ × Cache :=
  if stakePerBlock = 0 then (.error .panicDivision, cache)
  else if stakes / stakePerBlock % 2 ^ 64 = 0 then (.ok header.difficulty, cache)
  else
    match countCoinbaseBlockUntil r c cache header.parentHash header.coinbase with
    | (.error e, cache) => (.error e, cache)
    | (.ok blockCnt, cache) =>
        if blockCnt < blockThreshold c stakes stakePerBlock then
          match c.getDiffDivider header.time with
          | .error e => (.error e, cache)
          | .ok divider =>
              if wrapInt divider.toNat = 0 then (.error .panicDivision, cache)
              else (.ok (header.difficulty / wrapInt divider.toNat), cache)
        else (.ok header.difficulty, cache)

def POSWConfig.isPoSWEnabled (c : POSWConfig) (time height : UInt64) : Bool :=
  c.enabled && c.enableTimestamp ≤ time && 0 < height

variable {height time windowSize : UInt64} {c : POSWConfig} {cache' : Cache} {n s k : ℕ} {d : ℤ}

theorem POSWConfig.of_isPoSWEnabled
    (h : c.isPoSWEnabled time height = true) : c.enabled = true ∧ 0 < height.toNat := by
  unfold isPoSWEnabled at h
  simp only [Bool.and_eq_true, decide_eq_true_eq] at h
  exact ⟨h.1.1, h.2⟩

/-- `GetAdjustedDifficulty`.  The balance is the one at the parent block; reading it may fail. -/
def StakeConfig.getAdjustedDifficulty (m : StakeConfig) (getBalance : Recipient → Hash → Except PoswError ℕ)
    (cache : Cache) (header : IHeader) : Except PoswError ℤ × Cache :=
  if m.posw.isPoSWEnabled header.time header.number then
    match getBalance header.coinbase header.parentHash with
    | .error e => (.error e, cache)
    | .ok balance =>
        match m.decayByHeightAndTime header.number header.time with
        | .error e => (.error e, cache)
        | .ok stakePerBlock =>
            match poSWDiffAdjust r m.posw cache header balance stakePerBlock with
            | (.error e, cache) => (.error e, cache)
            | (.ok poswAdjusted, cache) =>
                (.ok (if poswAdjusted < header.difficulty then poswAdjusted else header.difficulty), cache)
  else (.ok header.difficulty, cache)

/-- The stake that is locked for the miners of a window, and for the coinbase of the next block. -/
def disallowMap (c : POSWConfig) (coinbase : Option Recipient) (addrs : List Recipient) (k : Recipient) :
    Option ℕ :=
  let count := addrs.count k + if coinbase = some k then 1 else 0
  if count = 0 then none else some (count * c.totalStakePerBlock)

/-- `BuildSenderDisallowMap`; without proof of staked work the map is nil. -/
def buildSenderDisallowMap (c : POSWConfig) (cache : Cache) (headerHash : Hash)
    (coinbase : Option Recipient) : Except PoswError (Recipient → Option ℕ) × Cache :=
  if !c.enabled then (.ok fun _ => none, cache)
  else
    let (addrs, cache) := getCoinbaseAddressUntilBlock r c.windowSize cache headerHash
    (addrs.map (disallowMap c coinbase), cache)

/-! ### What a discount shows -/

variable {r} {m : StakeConfig} {getBalance : Recipient → Hash → Except PoswError ℕ} {cache : Cache}
  {header : IHeader}

/-- A block of the given height and time can get a discount. -/
structure StakeConfig.Discounts (m : StakeConfig) (height time : UInt64) : Prop where
  enabled : m.posw.isPoSWEnabled time height = true
  window : 1 ≤ m.posw.windowSize.toNat ∧ 20 * (m.posw.windowSize.toNat + 9) ≤ 2 ^ 48
  divider : ∃ v, m.posw.getDiffDivider time = .ok v ∧ wrapInt v.toNat ≠ 0 ∧ wrapInt v.toNat ≠ 1
  stake : ∃ s, m.decayByHeightAndTime height time = .ok s ∧ s ≠ 0

variable (r m getBalance cache header) in
def GetsDiscount : Prop :=
  ∃ d cache', m.getAdjustedDifficulty r getBalance cache header = (.ok d, cache') ∧ d < header.difficulty

theorem poSWDiffAdjust_ok {stakes : ℕ}
    (h : poSWDiffAdjust r c cache header stakes s = (.ok d, cache')) :
    d = header.difficulty ∨ s ≠ 0 ∧
      (∃ v, c.getDiffDivider header.time = .ok v ∧ wrapInt v.toNat ≠ 0 ∧
        d = header.difficulty / wrapInt v.toNat) ∧
      ∃ addrs cache'', getCoinbaseAddressUntilBlock r c.windowSize cache header.parentHash =
        (.ok addrs, cache'') ∧ addrs.count header.coinbase < blockThreshold c stakes s := by
  unfold poSWDiffAdjust at h
  split_ifs at h with hs hzero
  · cases h
  · cases h
    exact .inl rfl
  unfold countCoinbaseBlockUntil at h
  rcases hq : getCoinbaseAddressUntilBlock r c.windowSize cache header.parentHash with ⟨answer, cache''⟩
  rw [hq] at h
  rcases answer with e | addrs
  · cases h
  simp only [Except.map] at h
  split_ifs at h with hlt
  · cases hv : c.getDiffDivider header.time with
    | error e =>
      rw [hv] at h
      cases h
    | ok v =>
      rw [hv] at h
      dsimp only at h
      split_ifs at h with hv0
      · cases h
      cases h
      exact .inr ⟨hs, ⟨v, rfl, hv0, rfl⟩, addrs, _, rfl, hlt⟩
  · cases h
    exact .inl rfl

theorem getAdjustedDifficulty_ok
    (h : m.getAdjustedDifficulty r getBalance cache header = (.ok d, cache')) :
    d = header.difficulty ∨ d < header.difficulty ∧
      m.posw.isPoSWEnabled header.time header.number = true ∧
      ∃ balance s, getBalance header.coinbase header.parentHash = .ok balance ∧
        m.decayByHeightAndTime header.number header.time = .ok s ∧
        poSWDiffAdjust r m.posw cache header balance s = (.ok d, cache') := by
  unfold StakeConfig.getAdjustedDifficulty at h
  split_ifs at h with hon
  · split at h
    · cases h
    split at h
    · cases h
    split at h
    · cases h
    rename_i _ balance hb _ s hs _ adjusted cache₁ hp
    split_ifs at h with hlower <;> cases h
    · exact .inr ⟨hlower, hon, balance, s, hb, hs, hp⟩
    · exact .inl rfl
  · cases h
    exact .inl rfl

theorem GetsDiscount.spec (h : GetsDiscount r m getBalance cache header) :
    m.Discounts header.number header.time ∧ ∃ balance s addrs cache',
      getBalance header.coinbase header.parentHash = .ok balance ∧
      m.decayByHeightAndTime header.number header.time = .ok s ∧
      getCoinbaseAddressUntilBlock r m.posw.windowSize cache header.parentHash = (.ok addrs, cache') ∧
      addrs.count header.coinbase < blockThreshold m.posw balance s := by
  obtain ⟨d, cache', h, hd⟩ := h
  rcases getAdjustedDifficulty_ok h with heq | ⟨-, hon, balance, s, hb, hs, hp⟩
  · omega
  rcases poSWDiffAdjust_ok hp with heq | ⟨hs0, ⟨v, hv, hv0, hdiv⟩, addrs, cache₂, hq, hlt⟩
  · omega
  have hv1 : wrapInt v.toNat ≠ 1 := by
    intro h1
    rw [h1, Int.ediv_one] at hdiv
    omega
  have hwindow := window_makes_iff.mp (window_makes_of_ok hq)
  exact ⟨⟨hon, hwindow, ⟨v, hv, hv0, hv1⟩, s, hs, hs0⟩, balance, s, addrs, cache₂, hb, hs, hq, hlt⟩

theorem blockThreshold_covers {balance : ℕ} (h : n < blockThreshold c balance s) :
    (n + 1) * s ≤ balance := by
  have hle : n + 1 ≤ balance / s := by
    unfold blockThreshold at h
    have hmod := Nat.mod_le (balance / s) (2 ^ 64)
    omega
  calc (n + 1) * s ≤ balance / s * s := Nat.mul_le_mul_right s hle
    _ ≤ balance := Nat.div_mul_le_self balance s

/-- A cache that queries and evictions lead to. -/
def Reached (r : HeadReader) (windowSize : UInt64) (cache : Cache) : Prop :=
  ∃ qs, cache = (queries r windowSize (fun _ => none) qs).2

theorem Reached.coherent (h : Reached r windowSize cache)
    (hlen : 0 ≤ windowLength windowSize) : Coherent r (windowLength windowSize).toNat cache := by
  obtain ⟨qs, rfl⟩ := h
  exact queries_coherent hlen (coherent_empty _) qs

theorem Reached.same_list {c c' : Cache} {h : Hash}
    {addrs addrs' : List Recipient} (hr : Reached r windowSize cache) (hr' : Reached r windowSize cache')
    {parent : IBlock} (hp : r.getBlock h = some parent)
    (hq : getCoinbaseAddressUntilBlock r windowSize cache h = (.ok addrs, c))
    (hq' : getCoinbaseAddressUntilBlock r windowSize cache' h = (.ok addrs', c')) : addrs = addrs' := by
  have hlen := (window_makes_of_ok hq).1
  have hfirst := (addrsUntilBlock_spec hlen (hr.coherent hlen) hp).2.1 addrs (congrArg Prod.fst hq)
  have hsecond := (addrsUntilBlock_spec hlen (hr'.coherent hlen) hp).2.1 addrs' (congrArg Prod.fst hq')
  rw [hfirst, hsecond]

/-- Two stores that agree on a block and all its ancestors have the same windows. -/
theorem lastCoinbases_congr {r r' : HeadReader} {A : Hash → Prop} {h : Hash}
    (hclosed : ∀ h b, A h → r.getBlock h = some b → A b.parentHash)
    (hsame : ∀ h, A h → r'.getBlock h = r.getBlock h) (hA : A h) (n : ℕ) :
    lastCoinbases r' n h = lastCoinbases r n h := by
  have hancestor : ∀ k (b : IBlock), A b.parentHash → ancestor r'.getBlock k b = ancestor r.getBlock k b := by
    intro k
    induction k with
    | zero => exact fun _ _ => rfl
    | succ k ih =>
      intro b hb
      show (r'.getBlock b.parentHash).bind _ = (r.getBlock b.parentHash).bind _
      rw [hsame _ hb]
      cases hp : r.getBlock b.parentHash with
      | none => rfl
      | some p => exact ih p (hclosed _ p hb hp)
  unfold lastCoinbases recent
  rw [hsame h hA]
  cases hb : r.getBlock h with
  | none => rfl
  | some b => simp only [hancestor _ b (hclosed h b hA hb)]

/-- Without blocks in the window the walk gives the empty list, and a cached list cannot be cut. -/
theorem addrsUntilBlock_zero_okIff {r : HeadReader} {cache : Cache} {h : Hash} {block : IBlock}
    (hmakes : Makes (wrapInt (0 + 10))) (hc : Coherent r 0 cache) (hb : r.getBlock h = some block) :
    OkIff (addrsUntilBlock r 0 cache h).1 (lastCoinbases r 0 h) (cache block.parentHash = none) := by
  have hempty : lastCoinbases r 0 h = [] := by
    unfold lastCoinbases
    rw [hb]
    rfl
  rw [hempty]
  unfold addrsUntilBlock coinbaseAddrs
  rw [hb]
  dsimp only
  rw [if_neg (not_not_intro hmakes)]
  cases hcached : cache block.parentHash with
  | none => exact okIff_ok rfl
  | some ha =>
    obtain ⟨parent, -, haddrs⟩ := hc _ _ hcached
    have hcut : slide 0 ha.addrs block.coinbase = .error .panicSliceBounds := by
      rw [haddrs]
      rfl
    dsimp only
    rw [hcut]
    exact okIff_error nofun

/-- **The map of locked stakes does not depend on the cache,** with one exception: a window of size one has no
blocks, and sliding an empty list on is a panic. -/
theorem buildSenderDisallowMap_okIff {r r' : HeadReader} {c : POSWConfig} {cache cache' : Cache} {h : Hash}
    {block : IBlock} {coinbase : Option Recipient} {map : Recipient → Option ℕ}
    (hc : 0 ≤ windowLength c.windowSize → Coherent r (windowLength c.windowSize).toNat cache)
    (hc' : 0 ≤ windowLength c.windowSize → Coherent r' (windowLength c.windowSize).toNat cache')
    (hb : r.getBlock h = some block) (hb' : r'.getBlock h = some block)
    (hlast : ∀ n, lastCoinbases r' n h = lastCoinbases r n h)
    (hmap : (buildSenderDisallowMap r c cache h coinbase).1 = .ok map) :
    OkIff (buildSenderDisallowMap r' c cache' h coinbase).1 map
      (c.enabled = true → c.windowSize = 1 → cache' block.parentHash = none) := by
  unfold buildSenderDisallowMap at hmap ⊢
  cases hon : c.enabled with
  | false =>
    rw [hon] at hmap
    cases hmap
    exact okIff_ok nofun
  | true =>
    rw [hon] at hmap
    dsimp only [Bool.not_true] at hmap ⊢
    rw [if_neg nofun] at hmap ⊢
    obtain ⟨addrs, haddrs, rfl⟩ := map_eq_ok.mp hmap
    obtain ⟨hlen, hmakes⟩ := window_makes_of_ok (Prod.ext haddrs rfl)
    obtain ⟨hw, hsmall⟩ := window_makes_iff.mp ⟨hlen, hmakes⟩
    have hlength := windowLength_small hw (by omega)
    obtain rfl := (addrsUntilBlock_spec hlen (hc hlen) hb).2.1 addrs haddrs
    have hok (a : List Recipient) (C : Prop) (hget : OkIff (getCoinbaseAddressUntilBlock r' c.windowSize cache' h).1 a C) :
        OkIff (((getCoinbaseAddressUntilBlock r' c.windowSize cache' h).1).map (disallowMap c coinbase))
          (disallowMap c coinbase a) C := hget.bind (f := fun a => .ok (disallowMap c coinbase a)) rfl
    refine hok _ _ ?_
    rw [← hlast]
    unfold getCoinbaseAddressUntilBlock
    by_cases hpos : 0 < windowLength c.windowSize
    · rw [(addrsUntilBlock_spec hlen (hc' hlen) hb').2.2 hpos hmakes]
      refine okIff_ok fun _ hone => ?_
      have hsize : c.windowSize.toNat = 1 := congrArg UInt64.toNat hone
      omega
    · have hzero : windowLength c.windowSize = 0 := by omega
      have hsize : c.windowSize.toNat = 1 := by omega
      have hone : c.windowSize = 1 := UInt64.toNat_inj.mp hsize
      rw [hzero] at hc' hmakes ⊢
      simpa [hone] using addrsUntilBlock_zero_okIff hmakes (hc' le_rfl) hb'

/-- At a height and time, every block with a discount is backed: whatever the chain below it, its coinbase
and the balances, what executing it locks for the coinbase is at most the balance that qualified it. -/
def StakeConfig.Backed (m : StakeConfig) (height time : UInt64) : Prop :=
  ∀ (r : HeadReader) (getBalance : Recipient → Hash → Except PoswError ℕ) (cache cache' : Cache)
    (header : IHeader) (parent : IBlock), header.number = height → header.time = time →
    r.getBlock header.parentHash = some parent → header.number.toNat = parent.number + 1 →
    Reached r m.posw.windowSize cache → Reached r m.posw.windowSize cache' →
    GetsDiscount r m getBalance cache header →
    ∀ balance locked cache'' amount, getBalance header.coinbase header.parentHash = .ok balance →
      buildSenderDisallowMap r m.posw cache' header.parentHash (some header.coinbase) =
        (.ok locked, cache'') → locked header.coinbase = some amount → amount ≤ balance

theorem disallowMap_coinbase (c : POSWConfig) (coinbase : Recipient) (addrs : List Recipient) :
    disallowMap c (some coinbase) addrs coinbase = some ((addrs.count coinbase + 1) * c.totalStakePerBlock) := by
  unfold disallowMap
  rw [if_pos rfl]
  exact if_neg (Nat.succ_ne_zero _)

theorem backed_of_le (h : m.Discounts height time →
      ∃ s, m.decayByHeightAndTime height time = .ok s ∧ m.posw.totalStakePerBlock ≤ s) :
    m.Backed height time := by
  intro r getBalance cache cache' header parent hheight htime hparent hnumber hr hr' hdiscount balance locked
    cache'' amount hbalance hlocked hamount
  obtain ⟨hd, balance', s, addrs, c, hb, hs, hq, hlt⟩ := hdiscount.spec
  obtain rfl : balance' = balance := by simpa [hb] using hbalance
  rw [hheight, htime] at hd hs
  obtain ⟨s', hs', hle⟩ := h hd
  obtain rfl : s' = s := by simpa [hs] using hs'.symm
  unfold buildSenderDisallowMap at hlocked
  rw [(POSWConfig.of_isPoSWEnabled hd.enabled).1] at hlocked
  rcases hq' : getCoinbaseAddressUntilBlock r m.posw.windowSize cache' header.parentHash with ⟨answer, c'⟩
  rw [hq'] at hlocked
  rcases answer with e | addrs'
  · cases hlocked
  obtain rfl := hr.same_list hr' hparent hq hq'
  obtain rfl : disallowMap m.posw (some header.coinbase) addrs = locked := by
    simpa [Except.map] using congrArg Prod.fst hlocked
  rw [disallowMap_coinbase] at hamount
  cases hamount
  calc (addrs.count header.coinbase + 1) * m.posw.totalStakePerBlock
      ≤ (addrs.count header.coinbase + 1) * s' := Nat.mul_le_mul_left _ hle
    _ ≤ balance' := blockThreshold_covers hlt

/-! ### A chain to mine on -/

def lineBlock (k : ℕ) : IBlock where
  hash := BitVec.ofNat 256 k
  parentHash := if k = 0 then BitVec.ofNat 256 (2 ^ 64) else BitVec.ofNat 256 (k - 1)
  number := k
  coinbase := 1

def lineStore (n : ℕ) (h : Hash) : Option IBlock := if h.toNat ≤ n then some (lineBlock h.toNat) else none

theorem lineStore_eq_some {h : Hash} {b : IBlock} :
    lineStore n h = some b ↔ h.toNat ≤ n ∧ lineBlock h.toNat = b := by
  unfold lineStore
  split_ifs with hn <;> simp [hn]

theorem lineStore_ofNat (hn : n < 2 ^ 64) (hk : k ≤ n) :
    lineStore n (BitVec.ofNat 256 k) = some (lineBlock k) := by
  have hval : (BitVec.ofNat 256 k).toNat = k := by
    rw [BitVec.toNat_ofNat]
    exact Nat.mod_eq_of_lt (by omega)
  exact lineStore_eq_some.mpr ⟨by omega, by rw [hval]⟩

theorem lineStore_parent (hn : n < 2 ^ 64) (hk : k + 1 ≤ n) :
    lineStore n (lineBlock (k + 1)).parentHash = some (lineBlock k) := by
  have hpar : (lineBlock (k + 1)).parentHash = BitVec.ofNat 256 k := by simp [lineBlock]
  rw [hpar]
  exact lineStore_ofNat hn (by omega)

theorem lineStore_genesis (hn : n < 2 ^ 64) : lineStore n (lineBlock 0).parentHash = none := by
  have hpar : (lineBlock 0).parentHash.toNat = 2 ^ 64 := by decide +kernel
  unfold lineStore
  rw [if_neg (by omega)]

theorem lineStore_rooted (hn : n < 2 ^ 64) (hk : k ≤ n) : Rooted (lineStore n) (lineBlock k) := by
  induction k with
  | zero => exact .genesis rfl
  | succ k ih => exact .child (lineStore_parent hn hk) rfl (ih (by omega))

def lineReader (n : ℕ) (hn : n < 2 ^ 64) : HeadReader where
  getBlock := lineStore n
  consistent := by
    refine ⟨fun {h b} hb => ?_, fun {h b p} hb hp => ?_⟩
    · obtain ⟨-, rfl⟩ := lineStore_eq_some.mp hb
      exact BitVec.ofNat_toNat _ h
    · obtain ⟨hle, rfl⟩ := lineStore_eq_some.mp hb
      rcases Nat.eq_zero_or_eq_succ_pred h.toNat with h0 | h0
      · rw [h0, show parentHash (lineBlock 0) = (lineBlock 0).parentHash from rfl, lineStore_genesis hn] at hp
        cases hp
      rw [h0, show parentHash (lineBlock (h.toNat.pred + 1)) = (lineBlock (h.toNat.pred + 1)).parentHash
        from rfl, lineStore_parent hn (by omega)] at hp
      cases hp
      rw [h0]
      rfl
  rooted := by
    intro h b hb
    obtain ⟨hle, rfl⟩ := lineStore_eq_some.mp hb
    exact lineStore_rooted hn hle

theorem count_lastCoinbases_line (hn : n < 2 ^ 64) (w : ℕ) (h : Hash) :
    (lastCoinbases (lineReader n hn) w h).count 2 = 0 := by
  rw [List.count_eq_zero]
  unfold lastCoinbases
  rcases hb : (lineReader n hn).getBlock h with _ | block
  · simp
  simp only [List.mem_reverse, List.mem_map, recent, List.mem_filterMap, not_exists, not_and]
  rintro b ⟨k, -, hk⟩ htwo
  have hone : b.coinbase = 1 := by
    induction k generalizing h block with
    | zero =>
      obtain rfl : block = b := Option.some.inj hk
      obtain ⟨-, rfl⟩ := lineStore_eq_some.mp hb
      rfl
    | succ k ih =>
      obtain ⟨p, hp, hk⟩ := Option.bind_eq_some_iff.mp hk
      exact ih _ p hp hk
  rw [hone] at htwo
  exact absurd htwo (by decide)

theorem two_ediv_lt {k : ℤ} (h0 : k ≠ 0) (h1 : k ≠ 1) : 2 / k < 2 := by
  rcases lt_or_gt_of_ne h0 with hneg | hpos
  · have h := Int.ediv_nonpos_of_nonneg_of_nonpos (a := 2) (b := k) (by omega) (by omega)
    omega
  · exact Int.ediv_lt_self_of_pos_of_ne_one (by omega) h1

def firstHeader (height time : UInt64) : IHeader where
  number := height
  time := time
  parentHash := BitVec.ofNat 256 (height.toNat - 1)
  coinbase := 2
  difficulty := 2

theorem firstHeader_window (hd : m.Discounts height time) (hn : height.toNat - 1 < 2 ^ 64) :
    ∃ c, getCoinbaseAddressUntilBlock (lineReader (height.toNat - 1) hn) m.posw.windowSize
      (fun _ => none) (firstHeader height time).parentHash = (.ok (lastCoinbases (lineReader _ hn)
        (windowLength m.posw.windowSize).toNat (firstHeader height time).parentHash), c) := by
  obtain ⟨hlen, hcap⟩ := window_makes_iff.mpr hd.window
  exact addrsUntilBlock_fresh hlen hcap (lineStore_ofNat hn le_rfl)

theorem firstHeader_discount (hd : m.Discounts height time)
    (hs : m.decayByHeightAndTime height time = .ok s) (hn : height.toNat - 1 < 2 ^ 64) :
    GetsDiscount (lineReader (height.toNat - 1) hn) m (fun _ _ => .ok s) (fun _ => none)
      (firstHeader height time) := by
  have hs0 : s ≠ 0 := by
    obtain ⟨s', hs', hne⟩ := hd.stake
    rw [hs] at hs'
    cases hs'
    exact hne
  obtain ⟨v, hv, hv0, hv1⟩ := hd.divider
  obtain ⟨c, hq⟩ := firstHeader_window hd hn
  have hcount := count_lastCoinbases_line hn (windowLength m.posw.windowSize).toNat
    (firstHeader height time).parentHash
  have hone : s / s % 2 ^ 64 = 1 := by
    rw [Nat.div_self (by omega)]
    decide
  have hthreshold : 0 < blockThreshold m.posw s s := by
    have h := hd.window.1
    unfold blockThreshold
    omega
  have hadjust : poSWDiffAdjust (lineReader (height.toNat - 1) hn) m.posw (fun _ => none)
      (firstHeader height time) s s = (.ok (2 / wrapInt v.toNat), c) := by
    unfold poSWDiffAdjust countCoinbaseBlockUntil
    rw [if_neg hs0, if_neg (by omega), hq]
    simp only [Except.map]
    rw [show (firstHeader height time).coinbase = 2 from rfl, hcount, if_pos hthreshold,
      show (firstHeader height time).time = time from rfl, hv]
    simp only [if_neg hv0]
    rfl
  have hlower : 2 / wrapInt v.toNat < 2 := two_ediv_lt hv0 hv1
  refine ⟨2 / wrapInt v.toNat, c, ?_, hlower⟩
  unfold StakeConfig.getAdjustedDifficulty
  rw [show m.posw.isPoSWEnabled (firstHeader height time).time (firstHeader height time).number = true from
    hd.enabled, if_pos rfl, show m.decayByHeightAndTime (firstHeader height time).number
    (firstHeader height time).time = .ok s from hs]
  simp only [hadjust]
  rw [if_pos (show _ < (firstHeader height time).difficulty from hlower)]

/-- **The lock against the balance.**  All discounted blocks are backed by the balance that qualified them exactly
if the stake per block that qualifies is not below the one that is locked, or no block can get a discount. -/
theorem backed_iff (m : StakeConfig) (height time : UInt64) :
    m.Backed height time ↔ (m.Discounts height time →
      ∃ s, m.decayByHeightAndTime height time = .ok s ∧ m.posw.totalStakePerBlock ≤ s) := by
  refine ⟨fun hbacked hd => ?_, backed_of_le⟩
  obtain ⟨s, hs, -⟩ := hd.stake
  refine ⟨s, hs, ?_⟩
  obtain ⟨hon, hpos⟩ := POSWConfig.of_isPoSWEnabled hd.enabled
  have hlt := height.toNat_lt
  have hn : height.toNat - 1 < 2 ^ 64 := by omega
  obtain ⟨c, hq⟩ := firstHeader_window hd hn
  have hlocked := hbacked (lineReader (height.toNat - 1) hn) (fun _ _ => .ok s) (fun _ => none)
    (fun _ => none) (firstHeader height time) (lineBlock (height.toNat - 1)) rfl rfl
    (lineStore_ofNat hn le_rfl) (show height.toNat = height.toNat - 1 + 1 by omega) ⟨[], rfl⟩ ⟨[], rfl⟩
    (firstHeader_discount hd hs hn) s _ c _ rfl (by
      unfold buildSenderDisallowMap
      rw [hon, hq]
      rfl) (disallowMap_coinbase ..)
  rw [show (firstHeader height time).coinbase = 2 from rfl, count_lastCoinbases_line] at hlocked
  omega

def decayingStake : StakeConfig where
  posw :=
    { enabled := true, enableTimestamp := 0, diffDivider := 20, windowSize := 2, totalStakePerBlock := 100,
      boostTimestamp := 0, boostMultiplierPerStep := 2, boostSteps := 10, boostStepInterval := 43200 }
  enablePoswStakingDecayTimestamp := 1
  epochInterval := 1
  blockRewardDecayNum := 1
  blockRewardDecayDenom := 2
  denom_pos := by decide

/-- **A discount that is not backed.** A balance of `50` covers one block at the decayed stake, so the
block of difficulty `40` is sealed against `2`; its execution locks `100`. -/
theorem decayed_stake_not_backed :
    (decayingStake.getAdjustedDifficulty sampleReader (fun _ _ => .ok 50) (fun _ => none)
        ⟨1, 10, 1, 7, 40⟩).1 = .ok 2 ∧
      (buildSenderDisallowMap sampleReader decayingStake.posw (fun _ => none) 1 (some 7)).1.map (· 7) =
        .ok (some 100) := by
  decide +kernel

end QuarkChain.Posw
