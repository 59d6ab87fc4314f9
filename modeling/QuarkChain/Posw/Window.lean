/-
# The coinbases of the last blocks

`src/consensus/posw/posw.go`: who mined the last `WindowSize - 1` blocks that end at a given one.
`getCoinbaseAddressUntilBlock` answers from a cache of earlier answers: when the list of the parent block is
there, it is slid on by one block, and otherwise the chain is walked.  Entries leave the cache at any time, and
the blocks asked for may lie on any forks; every entry is the answer for its block, whichever path computed it.

The window size is a `uint64` that is turned into an `int`, and the buffer of the answer is made before anything
is read.  A buffer of more than `2 ^ 48` bytes cannot be made, nor one whose capacity has wrapped to a negative
number; at the very end of the range the length is negative and the last check of the function panics.
-/
import Mathlib.Data.UInt
import QuarkChain.Lib.BlockTree
import QuarkChain.Types.CrossShard

namespace QuarkChain.Posw

open BlockTree QuarkChain.Types

/-- `types.IBlock`, as far as proof of staked work reads a block. -/
structure IBlock where
  hash : Hash
  parentHash : Hash
  number : ℕ
  coinbase : Recipient
deriving DecidableEq

instance : Chained Hash IBlock := ⟨IBlock.hash, IBlock.parentHash, IBlock.number⟩

/-- `headReader`: a store of blocks, each with all its ancestors. -/
structure HeadReader where
  getBlock : Hash → Option IBlock
  consistent : Consistent getBlock
  rooted : ∀ {h b}, getBlock h = some b → Rooted getBlock b

/-- How a query ends without a list: an error, or a panic. -/
inductive PoswError
  | blockNotFound (hash : Hash)
  | panicMissingBlock
  | panicMakeslice
  | panicSliceBounds
  | panicLength
  | panicDivision
deriving DecidableEq

/-- The conversion to `int`: the representative of a number modulo `2 ^ 64` that fits 64 bits with a sign. -/
@[irreducible] def wrapInt (n : ℤ) : ℤ := n.bmod (2 ^ 64)

/-- `int(n) - 1`. -/
def predInt (n : UInt64) : ℤ := wrapInt (wrapInt n.toNat - 1)

/-- `length` of the source: how many blocks before the next one are in the window. -/
def windowLength (windowSize : UInt64) : ℤ := predInt windowSize

/-- `make([]account.Recipient, 0, capacity)` returns: the capacity is not negative, and the `20` bytes of
each address fit into `maxAlloc`, which is `2 ^ 48` in the Go runtime on a 64-bit machine. -/
def Makes (capacity : ℤ) : Prop := 0 ≤ capacity ∧ 20 * capacity ≤ 2 ^ 48

instance (capacity : ℤ) : Decidable (Makes capacity) := inferInstanceAs (Decidable (_ ∧ _))

/-- The value of the cache: a list, and the height of the block it ends at. -/
structure HeightAndAddrs where
  height : ℕ
  addrs : List Recipient
deriving DecidableEq

/-- `coinbaseAddrCache`, by the hash of the last block. -/
abbrev Cache := Hash → Option HeightAndAddrs

variable (r : HeadReader) (windowSize : UInt64)

/-- The walk down the chain: the coinbases of at most `length` blocks, the newest first.  After each
block its parent is read, also after the last one. -/
def iterateDB : ℕ → IBlock → Except PoswError (List Recipient)
  | 0, _ => .ok []
  | length + 1, block =>
      if block.number = 0 then .ok [block.coinbase]
      else
        match r.getBlock block.parentHash with
        | none => .error .panicMissingBlock
        | some parent => (iterateDB length parent).map (block.coinbase :: ·)

/-- The cached list of the parent, moved on by one block: a full list loses its first entry. -/
def slide (length : ℤ) (addrs : List Recipient) (coinbase : Recipient) : Except PoswError (List Recipient) :=
  if (addrs.length : ℤ) = length then
    if addrs = [] then .error .panicSliceBounds else .ok (addrs.drop 1 ++ [coinbase])
  else .ok (addrs ++ [coinbase])

/-- The list of a block: from the cached list of its parent, or by the walk. -/
def coinbaseAddrs (length : ℤ) (cache : Cache) (block : IBlock) : Except PoswError (List Recipient) :=
  match cache block.parentHash with
  | some ha => slide length ha.addrs block.coinbase
  | none => (iterateDB r length.toNat block).map List.reverse

/-- `getCoinbaseAddressUntilBlock` for a given `length`.  The list is cached before its length is checked. -/
def addrsUntilBlock (length : ℤ) (cache : Cache) (headerHash : Hash) :
    Except PoswError (List Recipient) × Cache :=
  match r.getBlock headerHash with
  | none => (.error (.blockNotFound headerHash), cache)
  | some block =>
      if ¬Makes (wrapInt (length + 10)) then (.error .panicMakeslice, cache)
      else
        match coinbaseAddrs r length cache block with
        | .error e => (.error e, cache)
        | .ok addrs =>
            let cache := Function.update cache headerHash (some ⟨block.number, addrs⟩)
            if length < addrs.length then (.error .panicLength, cache) else (.ok addrs, cache)

/-- The query: the coinbases of the window that ends at a block, and the cache after it. -/
def getCoinbaseAddressUntilBlock (cache : Cache) (headerHash : Hash) :
    Except PoswError (List Recipient) × Cache :=
  addrsUntilBlock r (windowLength windowSize) cache headerHash

/-- The last `n` blocks that end at `block`, the newest first; fewer if the genesis block is among them. -/
def recent (n : ℕ) (block : IBlock) : List IBlock :=
  (List.range n).filterMap fun k => ancestor r.getBlock k block

/-- What a query is to answer: the coinbases of the last `n` blocks, the oldest first. -/
def lastCoinbases (n : ℕ) (headerHash : Hash) : List Recipient :=
  match r.getBlock headerHash with
  | none => []
  | some block => ((recent r n block).map IBlock.coinbase).reverse

variable {r windowSize}

variable {h : Hash} {b : IBlock} {n : ℕ}

theorem HeadReader.no_parent (hb : r.getBlock h = some b) (h0 : b.number = 0) :
    r.getBlock b.parentHash = none := by
  rcases hp : r.getBlock b.parentHash with _ | p
  · rfl
  have hn : b.number = p.number + 1 := r.consistent.linked hb hp
  omega

theorem HeadReader.parent (hb : r.getBlock h = some b) (h0 : b.number ≠ 0) :
    ∃ p, r.getBlock b.parentHash = some p := by
  cases r.rooted hb with
  | genesis hz => exact absurd hz h0
  | child hp _ _ => exact ⟨_, hp⟩

variable {block : IBlock}

theorem recent_genesis (hp : r.getBlock block.parentHash = none) (n : ℕ) :
    recent r (n + 1) block = [block] := by
  have hrest : ∀ k, ancestor r.getBlock (k + 1) block = none := fun k => by
    change (r.getBlock block.parentHash).bind _ = none
    rw [hp]
    rfl
  have hself : ancestor r.getBlock 0 block = some block := rfl
  simp [recent, List.range_succ_eq_map, List.filterMap_map, hrest, hself]

theorem recent_child {block parent : IBlock} (hp : r.getBlock block.parentHash = some parent) (n : ℕ) :
    recent r (n + 1) block = block :: recent r n parent := by
  have hrest : ∀ k, ancestor r.getBlock (k + 1) block = ancestor r.getBlock k parent := fun k => by
    change (r.getBlock block.parentHash).bind _ = _
    rw [hp]
    rfl
  have hself : ancestor r.getBlock 0 block = some block := rfl
  simp [recent, List.range_succ_eq_map, List.filterMap_map, hrest, hself]

theorem length_recent_le (n : ℕ) (block : IBlock) : (recent r n block).length ≤ n := by
  have h := List.length_filterMap_le (fun k => ancestor r.getBlock k block) (List.range n)
  rwa [List.length_range] at h

theorem recent_eq_take (hb : r.getBlock h = some block) (n : ℕ) :
    recent r n block = (recent r (n + 1) block).take n := by
  induction n generalizing h block with
  | zero => rfl
  | succ n ih =>
    by_cases h0 : block.number = 0
    · rw [recent_genesis (r.no_parent hb h0), recent_genesis (r.no_parent hb h0)]
      simp
    · obtain ⟨parent, hp⟩ := r.parent hb h0
      rw [recent_child hp, recent_child hp, List.take_succ_cons, ← ih hp]

theorem iterateDB_eq (hb : r.getBlock h = some block) (n : ℕ) :
    iterateDB r n block = .ok ((recent r n block).map IBlock.coinbase) := by
  induction n generalizing h block with
  | zero => rfl
  | succ n ih =>
    unfold iterateDB
    by_cases h0 : block.number = 0
    · rw [if_pos h0, recent_genesis (r.no_parent hb h0)]
      rfl
    obtain ⟨parent, hp⟩ := r.parent hb h0
    rw [if_neg h0, hp, recent_child hp]
    simp only [ih hp]
    rfl

theorem slide_eq {block parent : IBlock} (hp : r.getBlock block.parentHash = some parent)
    (hn : 0 < n) : slide n ((recent r n parent).map IBlock.coinbase).reverse block.coinbase =
      .ok ((recent r n block).map IBlock.coinbase).reverse := by
  obtain ⟨m, rfl⟩ : ∃ m, n = m + 1 := ⟨n - 1, by omega⟩
  have htake := recent_eq_take hp m
  rw [recent_child hp m]
  unfold slide
  simp only [List.length_reverse, List.length_map, List.map_cons, List.reverse_cons]
  by_cases hfull : (recent r (m + 1) parent).length = m + 1
  · -- a full window loses its oldest block
    rw [if_pos (by exact_mod_cast hfull), if_neg (by simp [← List.length_eq_zero_iff, hfull])]
    have hdrop : recent r m parent = (recent r (m + 1) parent).dropLast := by
      rw [htake, List.dropLast_eq_take, hfull]
      rfl
    rw [hdrop, List.map_dropLast, List.drop_one, List.tail_reverse]
  · rw [if_neg (by exact_mod_cast hfull)]
    have hle := length_recent_le (r := r) (m + 1) parent
    rw [htake, List.take_of_length_le (by omega)]

/-! ### The cache -/

variable (r)

/-- Every entry is the answer for its block. -/
def Coherent (n : ℕ) (cache : Cache) : Prop :=
  ∀ h ha, cache h = some ha → ∃ block, r.getBlock h = some block ∧
    ha.addrs = ((recent r n block).map IBlock.coinbase).reverse

/-- One query, and the entries that are still in the cache when it is made. -/
structure Query where
  keep : Hash → Bool
  hash : Hash

/-- The cache after some entries have left it. -/
def Cache.evict (cache : Cache) (keep : Hash → Bool) : Cache := fun h => if keep h then cache h else none

variable (windowSize) in
/-- The answers to a list of queries, one after the other, and the cache after them. -/
def queries : Cache → List Query → List (Except PoswError (List Recipient)) × Cache
  | cache, [] => ([], cache)
  | cache, q :: qs =>
      let (answer, cache) := getCoinbaseAddressUntilBlock r windowSize (cache.evict q.keep) q.hash
      let (answers, cache) := queries cache qs
      (answer :: answers, cache)

variable {r}

theorem coherent_empty (n : ℕ) : Coherent r n fun _ => none := by
  intro h ha hh
  cases hh

variable {cache : Cache}

theorem Coherent.evict (hc : Coherent r n cache) (keep : Hash → Bool) :
    Coherent r n (cache.evict keep) := by
  intro h ha hh
  unfold Cache.evict at hh
  split_ifs at hh
  exact hc h ha hh

theorem Coherent.update (hc : Coherent r n cache) (hb : r.getBlock h = some block) (height : ℕ) :
    Coherent r n (Function.update cache h
      (some ⟨height, ((recent r n block).map IBlock.coinbase).reverse⟩)) := by
  intro h' ha hh
  by_cases heq : h' = h
  · subst heq
    rw [Function.update_self] at hh
    cases hh
    exact ⟨block, hb, rfl⟩
  · rw [Function.update_of_ne heq] at hh
    exact hc h' ha hh

theorem coinbaseAddrs_spec {length : ℤ} (hlen : 0 ≤ length)
    (hc : Coherent r length.toNat cache) (hb : r.getBlock h = some block) :
    (coinbaseAddrs r length cache block = .error .panicSliceBounds ∧ length = 0) ∨
      coinbaseAddrs r length cache block =
        .ok ((recent r length.toNat block).map IBlock.coinbase).reverse := by
  unfold coinbaseAddrs
  cases hcached : cache block.parentHash with
  | none =>
    right
    dsimp only
    rw [iterateDB_eq hb]
    rfl
  | some ha =>
    obtain ⟨parent, hp, haddrs⟩ := hc _ _ hcached
    dsimp only
    rw [haddrs]
    by_cases hpos : 0 < length
    · have hslide := slide_eq hp (n := length.toNat) (by omega)
      rw [Int.toNat_of_nonneg hlen] at hslide
      exact .inr hslide
    · obtain rfl : length = 0 := by omega
      exact .inl ⟨rfl, rfl⟩

theorem addrsUntilBlock_spec {length : ℤ} (hlen : 0 ≤ length)
    (hc : Coherent r length.toNat cache) (hb : r.getBlock h = some block) :
    Coherent r length.toNat (addrsUntilBlock r length cache h).2 ∧
      (∀ addrs, (addrsUntilBlock r length cache h).1 = .ok addrs →
        addrs = lastCoinbases r length.toNat h) ∧ (0 < length → Makes (wrapInt (length + 10)) →
        (addrsUntilBlock r length cache h).1 = .ok (lastCoinbases r length.toNat h)) := by
  unfold addrsUntilBlock lastCoinbases
  rw [hb]
  dsimp only
  by_cases hcap : Makes (wrapInt (length + 10))
  swap
  · rw [if_pos hcap]
    exact ⟨hc, (fun addrs h => by cases h), fun _ h => absurd h hcap⟩
  rw [if_neg (not_not_intro hcap)]
  rcases coinbaseAddrs_spec hlen hc hb with ⟨hpanic, hzero⟩ | hok
  · rw [hpanic]
    exact ⟨hc, (fun addrs h => by cases h), fun h => absurd h (by omega)⟩
  have hle := length_recent_le (r := r) length.toNat block
  rw [hok]
  dsimp only
  rw [if_neg (by rw [List.length_reverse, List.length_map]; omega)]
  exact ⟨hc.update hb _, (fun addrs h => by cases h; rfl), fun _ _ => rfl⟩

theorem addrsUntilBlock_fresh {length : ℤ} (hlen : 0 ≤ length) (hcap : Makes (wrapInt (length + 10)))
    (hb : r.getBlock h = some block) : ∃ c,
    addrsUntilBlock r length (fun _ => none) h = (.ok (lastCoinbases r length.toNat h), c) := by
  have hle := length_recent_le (r := r) length.toNat block
  unfold addrsUntilBlock coinbaseAddrs lastCoinbases
  rw [hb]
  dsimp only
  rw [if_neg (not_not_intro hcap), iterateDB_eq hb]
  dsimp only [Except.map]
  rw [if_neg (by rw [List.length_reverse, List.length_map]; omega)]
  exact ⟨_, rfl⟩

theorem addrsUntilBlock_coherent {length : ℤ} (hlen : 0 ≤ length)
    (hc : Coherent r length.toNat cache) (h : Hash) :
    Coherent r length.toNat (addrsUntilBlock r length cache h).2 := by
  cases hb : r.getBlock h with
  | none =>
    have hsame : addrsUntilBlock r length cache h = (.error (.blockNotFound h), cache) := by
      unfold addrsUntilBlock
      rw [hb]
    rw [hsame]
    exact hc
  | some block => exact (addrsUntilBlock_spec hlen hc hb).1

theorem queries_coherent (hlen : 0 ≤ windowLength windowSize)
    (hc : Coherent r (windowLength windowSize).toNat cache) (qs : List Query) :
    Coherent r (windowLength windowSize).toNat (queries r windowSize cache qs).2 := by
  induction qs generalizing cache with
  | nil => exact hc
  | cons q qs ih => exact ih (addrsUntilBlock_coherent hlen (hc.evict q.keep) q.hash)

theorem queries_answers (hpos : 0 < windowLength windowSize)
    (hcap : Makes (wrapInt (windowLength windowSize + 10))) {qs : List Query}
    (hqs : ∀ q ∈ qs, ∃ block, r.getBlock q.hash = some block)
    (hc : Coherent r (windowLength windowSize).toNat cache) : (queries r windowSize cache qs).1 =
      qs.map fun q => .ok (lastCoinbases r (windowLength windowSize).toNat q.hash) := by
  induction qs generalizing cache with
  | nil => rfl
  | cons q qs ih =>
    obtain ⟨block, hb⟩ := hqs q (by simp)
    obtain ⟨hc', -, hok⟩ := addrsUntilBlock_spec hpos.le (hc.evict q.keep) hb
    simp only [queries, getCoinbaseAddressUntilBlock, List.map_cons, hok hpos hcap,
      ih (fun q hq => hqs q (by simp [hq])) hc']

theorem wrapInt_of_lt {n : ℤ} (hlow : -(2 ^ 63) ≤ n) (hhigh : n < 2 ^ 63) : wrapInt n = n := by
  unfold wrapInt
  exact Int.bmod_eq_of_le (by omega) (by omega)

theorem wrapInt_of_ge {n : ℤ} (hlow : 2 ^ 63 ≤ n) (hhigh : n < 2 ^ 64 + 2 ^ 63) : wrapInt n = n - 2 ^ 64 := by
  unfold wrapInt
  rw [← Int.sub_bmod_right]
  exact Int.bmod_eq_of_le (by omega) (by omega)

theorem windowLength_small (hw : 1 ≤ windowSize.toNat) (hlt : windowSize.toNat < 2 ^ 63) :
    windowLength windowSize = windowSize.toNat - 1 := by
  unfold windowLength predInt
  rw [wrapInt_of_lt (n := windowSize.toNat) (by omega) (by omega), wrapInt_of_lt (by omega) (by omega)]

theorem windowLength_top (hw : windowSize.toNat = 2 ^ 63) : windowLength windowSize = 2 ^ 63 - 1 := by
  unfold windowLength predInt
  rw [hw]
  decide +kernel

theorem windowLength_large (hlt : 2 ^ 63 < windowSize.toNat) :
    windowLength windowSize = windowSize.toNat - 1 - 2 ^ 64 := by
  have h := windowSize.toNat_lt
  unfold windowLength predInt
  rw [wrapInt_of_ge (n := windowSize.toNat) (by omega) (by omega), wrapInt_of_lt (by omega) (by omega)]
  omega

theorem windowLength_zero (hw : windowSize.toNat = 0) : windowLength windowSize = -1 := by
  unfold windowLength predInt
  rw [hw]
  decide +kernel

/-- The sizes for which the length is not negative and the buffer is made. -/
theorem window_makes_iff :
    (0 ≤ windowLength windowSize ∧ Makes (wrapInt (windowLength windowSize + 10))) ↔
      1 ≤ windowSize.toNat ∧ 20 * (windowSize.toNat + 9) ≤ 2 ^ 48 := by
  have hlt := windowSize.toNat_lt
  unfold Makes
  rcases lt_trichotomy windowSize.toNat (2 ^ 63) with h | h | h
  · by_cases h0 : windowSize.toNat = 0
    · rw [windowLength_zero h0]
      omega
    rw [windowLength_small (by omega) h]
    by_cases hs : windowSize.toNat + 9 < 2 ^ 63
    · rw [wrapInt_of_lt (by omega) (by omega)]
      omega
    · rw [wrapInt_of_ge (by omega) (by omega)]
      omega
  · rw [windowLength_top h, wrapInt_of_ge (by omega) (by omega)]
    omega
  · rw [windowLength_large h]
    omega

/-- A query that gives a list has made its buffer, and its length is not negative: no list is short enough for
a negative one. -/
theorem window_makes_of_ok {cache cache' : Cache} {addrs : List Recipient}
    (hok : getCoinbaseAddressUntilBlock r windowSize cache h = (.ok addrs, cache')) :
    0 ≤ windowLength windowSize ∧ Makes (wrapInt (windowLength windowSize + 10)) := by
  unfold getCoinbaseAddressUntilBlock addrsUntilBlock at hok
  cases hb : r.getBlock h with
  | none =>
    rw [hb] at hok
    cases hok
  | some block =>
    rw [hb] at hok
    dsimp only at hok
    by_cases hcap : Makes (wrapInt (windowLength windowSize + 10))
    swap
    · rw [if_pos hcap] at hok
      cases hok
    rw [if_neg (not_not_intro hcap)] at hok
    refine ⟨?_, hcap⟩
    by_contra hneg
    split at hok
    · cases hok
    · rw [if_pos (by omega)] at hok
      cases hok

/-- **The cached windows.**  For every order of queries on any forks, with any evictions between them, all answers
are the coinbases of the last `WindowSize - 1` blocks exactly if the size leaves room for the buffer. -/
theorem queries_windows_iff (r : HeadReader) (windowSize : UInt64) (hw : 2 ≤ windowSize.toNat)
    (qs : List Query) (hqs : ∀ q ∈ qs, ∃ block, r.getBlock q.hash = some block) :
    (queries r windowSize (fun _ => none) qs).1 =
        qs.map (fun q => .ok (lastCoinbases r (windowSize.toNat - 1) q.hash)) ↔
      (qs ≠ [] → 20 * (windowSize.toNat + 9) ≤ 2 ^ 48) := by
  constructor
  · intro hanswers hne
    by_contra hbig
    rcases qs with _ | ⟨q, qs⟩
    · exact hne rfl
    simp only [queries, List.map_cons, List.cons.injEq] at hanswers
    exact hbig (window_makes_iff.mp (window_makes_of_ok (Prod.ext hanswers.1 rfl))).2
  · intro hsize
    rcases qs with _ | ⟨q, qs⟩
    · rfl
    have hs := hsize (by simp)
    have hlen : windowLength windowSize = windowSize.toNat - 1 := windowLength_small (by omega) (by omega)
    have hcap := (window_makes_iff.mpr ⟨by omega, hs⟩).2
    rw [queries_answers (by omega) hcap hqs (coherent_empty _), hlen]
    have hnat : ((windowSize.toNat : ℤ) - 1).toNat = windowSize.toNat - 1 := by omega
    rw [hnat]

/-! ### A store with a fork -/

/-- The store of a list of blocks that has the parent of each. -/
def HeadReader.ofList (blocks : List IBlock)
    (linked : ∀ b ∈ blocks, ∀ p ∈ blocks, b.parentHash = p.hash → b.number = p.number + 1)
    (parents : ∀ b ∈ blocks, b.number ≠ 0 → (BlockTree.ofList blocks b.parentHash).isSome = true) :
    HeadReader where
  getBlock := BlockTree.ofList blocks
  consistent := consistent_ofList linked
  rooted := rooted_ofList linked parents

def sampleReader : HeadReader :=
  .ofList [⟨1, 9, 0, 11⟩, ⟨2, 1, 1, 12⟩, ⟨3, 2, 2, 13⟩, ⟨4, 2, 2, 14⟩] (by decide) (by decide)

/-- Two forks are asked for in turn, with and without the cached list of their parent. -/
theorem queries_windows_fork :
    (queries sampleReader 3 (fun _ => none)
        [⟨fun _ => true, 2⟩, ⟨fun _ => true, 3⟩, ⟨fun _ => false, 4⟩, ⟨fun _ => true, 1⟩]).1 =
      [.ok [11, 12], .ok [12, 13], .ok [12, 14], .ok [11]] := by
  have h := (queries_windows_iff sampleReader 3 (by decide)
    [⟨fun _ => true, 2⟩, ⟨fun _ => true, 3⟩, ⟨fun _ => false, 4⟩, ⟨fun _ => true, 1⟩]
    (by simp only [← Option.isSome_iff_exists]; decide +kernel)).mpr (fun _ => by decide)
  rw [h]
  decide +kernel

/-- **A window size turned negative.** The largest window size reads as the `int` `-1`: the list of the
genesis block is empty and still longer than the length. -/
theorem queries_length_panic :
    (queries sampleReader (2 ^ 64 - 1) (fun _ => none) [⟨fun _ => true, 1⟩]).1 =
      [.error .panicLength] := by
  decide +kernel

end QuarkChain.Posw
