/-
# The caches of the epochs

`src/consensus/qkchash/qkchash.go`: the words that the hash of a block runs on depend on the epoch of its
height only.  `getCacheFromHeight` keeps the caches of the epochs in a list that grows ahead of what is
asked for; old entries lose their words and keep their seed, and get the words back when they are asked for.

In pure Go (`algorithm.go`) the words are a slice and `newCache(seed, nil)` leaves it nil.  In the native build
(`algorithm_native.go`) it makes a native cache of no words, whose pointer is not nil: `shrunk` does not see
that it was shrunk, and the empty cache is handed out.
-/
import Mathlib.Data.List.Sort
import QuarkChain.Lib.Bytes

namespace QuarkChain.Qkchash

open Bytes

inductive Build
  | go
  | native
deriving DecidableEq

/-- `qkcCache`: the words, or `none` for a nil slice or pointer, and the seed. -/
structure QkcCache where
  words : Option (List UInt64)
  seed : List UInt8
deriving DecidableEq

/-- `newCache`: the native constructor takes a nil slice as an empty one. -/
def newCache (build : Build) (seed : List UInt8) (ls : Option (List UInt64)) : QkcCache :=
  match build with
  | .go => ⟨ls, seed⟩
  | .native => ⟨some (ls.getD []), seed⟩

def shrunk (cache : QkcCache) : Bool := cache.words.isNone

def cacheEntryCnt : ℕ := 1024 * 64

def cacheAheadRound : ℕ := 64

def epochLength : ℕ := 30000

variable (keccak256 : List UInt8 → List UInt8) (keccak512 : List UInt8 → Vector UInt8 64)

def littleEndianUint64 (bs : List UInt8) (j : ℕ) : UInt64 :=
  UInt64.ofNat (ofBE ((bs.drop j).take 8).reverse)

def addWords (ls : List UInt64) (bs : List UInt8) : List UInt64 :=
  (List.range 8).foldl (fun ls j =>
    if littleEndianUint64 bs (8 * j) ∈ ls then ls else ls ++ [littleEndianUint64 bs (8 * j)]) ls

@[irreducible] def generatels (cnt : ℕ) (seed : List UInt8) : List UInt64 :=
  ((List.range (cnt / 8)).foldl (fun ls i => addWords ls (keccak512 (seed ++ toBE 4 i)).toList)
    []).insertionSort (· ≤ ·)

def generateCache (build : Build) (seed : List UInt8) : QkcCache :=
  newCache build seed (some (generatels keccak512 cacheEntryCnt seed))

def fillInCache (cache : QkcCache) : QkcCache :=
  { cache with words := some (generatels keccak512 cacheEntryCnt cache.seed) }

/-- The loop that appends `needAddCnt` caches after the one with the given seed. -/
def appendCaches (build : Build) : ℕ → List UInt8 → List QkcCache → List QkcCache
  | 0, _, caches => caches
  | n + 1, seed, caches =>
      appendCaches build n (keccak256 seed) (caches ++ [generateCache keccak512 build (keccak256 seed)])

/-- The loop that drops the words of all but the last `2 * cacheAheadRound` caches. -/
def shrinkCaches (build : Build) (caches : List QkcCache) : List QkcCache :=
  caches.mapIdx fun i cache =>
    if i < caches.length - 2 * cacheAheadRound then newCache build cache.seed none else cache

def epochOf (block : UInt64) : ℕ := block.toNat / epochLength

/-- `getCacheFromHeight`: the cache, `none` for an index out of range, and the list afterwards. -/
def getCacheFromHeight (build : Build) (caches : List QkcCache) (block : UInt64) :
    Option QkcCache × List QkcCache :=
  let epoch := epochOf block
  if epoch < caches.length then
    match caches[epoch]? with
    | none => (none, caches)
    | some cache =>
        if shrunk cache then
          (some (fillInCache keccak512 cache), caches.set epoch (fillInCache keccak512 cache))
        else (some cache, caches)
  else
    match caches.getLast? with
    | none => (none, caches)
    | some last =>
        let caches :=
          shrinkCaches build (appendCaches keccak256 keccak512 build
            (epoch - caches.length + cacheAheadRound) last.seed caches)
        (caches[epoch]?, caches)

def newcacheSeed (build : Build) : List QkcCache := [generateCache keccak512 build (List.replicate 32 0)]

def getCaches (build : Build) : List QkcCache → List UInt64 → List (Option QkcCache)
  | _, [] => []
  | caches, block :: blocks =>
      let (cache, caches) := getCacheFromHeight keccak256 keccak512 build caches block
      cache :: getCaches build caches blocks

def seedOf : ℕ → List UInt8
  | 0 => List.replicate 32 0
  | epoch + 1 => keccak256 (seedOf epoch)

def scratch (build : Build) (epoch : ℕ) : QkcCache :=
  generateCache keccak512 build (seedOf keccak256 epoch)

def emptied (build : Build) (epoch : ℕ) : QkcCache := newCache build (seedOf keccak256 epoch) none

variable {keccak256 keccak512} {build : Build}

theorem newCache_seed (seed : List UInt8) (ls : Option (List UInt64)) :
    (newCache build seed ls).seed = seed := by
  cases build <;> rfl

theorem newCache_words (seed : List UInt8) (ls : List UInt64) :
    (newCache build seed (some ls)).words = some ls := by
  cases build <;> rfl

theorem generateCache_words (seed : List UInt8) :
    (generateCache keccak512 build seed).words = some (generatels keccak512 cacheEntryCnt seed) :=
  newCache_words seed _

theorem scratch_not_shrunk (epoch : ℕ) : shrunk (scratch keccak256 keccak512 build epoch) = false := by
  unfold shrunk scratch
  rw [generateCache_words]
  rfl

theorem fillInCache_emptied (epoch : ℕ) :
    fillInCache keccak512 (emptied keccak256 .go epoch) = scratch keccak256 keccak512 .go epoch := rfl

theorem addWords_ne_nil (ls : List UInt64) (bs : List UInt8) : addWords ls bs ≠ [] := by
  unfold addWords
  rw [List.range_succ, List.foldl_append]
  dsimp only [List.foldl_cons, List.foldl_nil]
  split_ifs with h
  · exact List.ne_nil_of_mem h
  · simp

theorem generatels_ne_nil {cnt : ℕ} (hcnt : 8 ≤ cnt) (seed : List UInt8) :
    generatels keccak512 cnt seed ≠ [] := by
  unfold generatels
  obtain ⟨k, hk⟩ : ∃ k, cnt / 8 = k + 1 := ⟨cnt / 8 - 1, by omega⟩
  rw [hk, List.range_succ, List.foldl_append, List.foldl_cons, List.foldl_nil]
  intro h
  have hlen := congrArg List.length h
  rw [List.length_insertionSort] at hlen
  exact addWords_ne_nil _ _ (List.length_eq_zero_iff.mp hlen)

theorem emptied_native_not_shrunk (epoch : ℕ) : shrunk (emptied keccak256 .native epoch) = false := rfl

theorem emptied_native_ne (epoch : ℕ) :
    emptied keccak256 .native epoch ≠ scratch keccak256 keccak512 .native epoch := by
  intro h
  have hwords := congrArg QkcCache.words h
  rw [scratch, generateCache_words] at hwords
  exact generatels_ne_nil (by decide) _ (Option.some.inj hwords).symm

/-! ### The list of caches -/

variable (keccak256 keccak512) in
/-- The list holds the epochs in order, each as from scratch or shrunk, and only those before the last
`2 * cacheAheadRound` are shrunk.  In the native build none of these is ever filled in again. -/
structure Caches (build : Build) (caches : List QkcCache) : Prop where
  nonempty : 0 < caches.length
  entry : ∀ e cache, caches[e]? = some cache →
    cache = scratch keccak256 keccak512 build e ∨
      (cache = emptied keccak256 build e ∧ e + 2 * cacheAheadRound < caches.length)
  kept : build = .native → ∀ e cache, caches[e]? = some cache →
    e + 2 * cacheAheadRound < caches.length → cache = emptied keccak256 build e

variable {caches : List QkcCache} {cache : QkcCache} {epoch e : ℕ}

theorem Caches.seed (hc : Caches keccak256 keccak512 build caches)
    (h : caches[e]? = some cache) : cache.seed = seedOf keccak256 e := by
  rcases hc.entry e cache h with rfl | ⟨rfl, -⟩
  · exact newCache_seed _ _
  · exact newCache_seed _ _

theorem caches_newcacheSeed : Caches keccak256 keccak512 build (newcacheSeed keccak512 build) where
  nonempty := by simp [newcacheSeed]
  entry e cache h := by
    cases e with
    | zero =>
      obtain rfl : generateCache keccak512 build (List.replicate 32 0) = cache := Option.some.inj h
      exact .inl rfl
    | succ e => simp [newcacheSeed] at h
  kept _ e cache h hlt := by simp [newcacheSeed, cacheAheadRound] at hlt

theorem length_appendCaches (n : ℕ) (seed : List UInt8) (caches : List QkcCache) :
    (appendCaches keccak256 keccak512 build n seed caches).length = caches.length + n := by
  induction n generalizing seed caches with
  | zero => rfl
  | succ n ih =>
    rw [appendCaches, ih, List.length_append, List.length_singleton]
    omega

theorem getElem?_appendCaches {n : ℕ} {seed : List UInt8}
    (hpos : 0 < caches.length) (hseed : seed = seedOf keccak256 (caches.length - 1))
    (h : (appendCaches keccak256 keccak512 build n seed caches)[e]? = some cache) :
    caches[e]? = some cache ∨ (caches.length ≤ e ∧ cache = scratch keccak256 keccak512 build e) := by
  induction n generalizing seed caches with
  | zero => exact .inl h
  | succ n ih =>
    have hnext : keccak256 seed = seedOf keccak256 caches.length := by
      rw [hseed]
      conv_rhs => rw [show caches.length = caches.length - 1 + 1 by omega]
      rfl
    rw [appendCaches, hnext] at h
    have hlen : (caches ++ [generateCache keccak512 build (seedOf keccak256 caches.length)]).length - 1 =
        caches.length := by simp
    rcases ih (by simp) (by rw [hlen]) h with hold | ⟨hle, rfl⟩
    · rcases lt_trichotomy e caches.length with hlt | rfl | hgt
      · rw [List.getElem?_append_left hlt] at hold
        exact .inl hold
      · rw [List.getElem?_concat_length] at hold
        cases hold
        exact .inr ⟨le_rfl, rfl⟩
      · rw [List.getElem?_eq_none (by simp; omega)] at hold
        cases hold
    · simp only [List.length_append, List.length_singleton] at hle
      exact .inr ⟨by omega, rfl⟩

theorem Caches.grow (hc : Caches keccak256 keccak512 build caches)
    (hge : caches.length ≤ epoch) {last : QkcCache} (hlast : caches.getLast? = some last)
    {grown : List QkcCache} (hg : grown = shrinkCaches build (appendCaches keccak256 keccak512 build
      (epoch - caches.length + cacheAheadRound) last.seed caches)) :
    Caches keccak256 keccak512 build grown ∧ grown.length = epoch + cacheAheadRound ∧
      grown[epoch]? = some (scratch keccak256 keccak512 build epoch) := by
  have hseed : last.seed = seedOf keccak256 (caches.length - 1) := by
    rw [List.getLast?_eq_getElem?] at hlast
    exact hc.seed hlast
  set appended := appendCaches keccak256 keccak512 build (epoch - caches.length + cacheAheadRound) last.seed
    caches with ha
  have hlen : appended.length = epoch + cacheAheadRound := by
    rw [ha, length_appendCaches]
    omega
  have hglen : grown.length = epoch + cacheAheadRound := by
    rw [hg, shrinkCaches, List.length_mapIdx, hlen]
  have hentry : ∀ e cache, grown[e]? = some cache →
      (e + 2 * cacheAheadRound < grown.length → cache = emptied keccak256 build e) ∧
        (¬ e + 2 * cacheAheadRound < grown.length → cache = scratch keccak256 keccak512 build e) := by
    intro e cache h
    rw [hg, shrinkCaches, List.getElem?_mapIdx, Option.map_eq_some_iff] at h
    obtain ⟨c, hc', rfl⟩ := h
    rw [hglen, ← hlen]
    have hold := getElem?_appendCaches hc.nonempty hseed hc'
    constructor
    · intro hlt
      rw [if_pos (by omega)]
      rcases hold with hold | ⟨-, rfl⟩
      · rw [hc.seed hold]
        rfl
      · rw [scratch, generateCache, newCache_seed]
        rfl
    · intro hge'
      rw [if_neg (by omega)]
      rcases hold with hold | ⟨-, rfl⟩
      · rcases hc.entry e c hold with rfl | ⟨-, hshort⟩
        · rfl
        · omega
      · rfl
  refine ⟨⟨by rw [hglen, cacheAheadRound]; omega, fun e cache h => ?_, fun _ e cache h hlt =>
    (hentry e cache h).1 hlt⟩, hglen, ?_⟩
  · by_cases hlt : e + 2 * cacheAheadRound < grown.length
    · exact .inr ⟨(hentry e cache h).1 hlt, hlt⟩
    · exact .inl ((hentry e cache h).2 hlt)
  · have hin : epoch < grown.length := by
      rw [hglen, cacheAheadRound]
      omega
    rw [List.getElem?_eq_getElem hin]
    refine congrArg some ((hentry epoch _ (List.getElem?_eq_getElem hin)).2 ?_)
    rw [hglen, cacheAheadRound]
    omega

theorem Caches.fill (hc : Caches keccak256 keccak512 .go caches) (hlt : epoch < caches.length) :
    Caches keccak256 keccak512 .go (caches.set epoch (scratch keccak256 keccak512 .go epoch)) where
  nonempty := by
    rw [List.length_set]
    exact hc.nonempty
  entry e cache h := by
    rw [List.length_set]
    by_cases he : epoch = e
    · subst he
      rw [List.getElem?_set_self hlt] at h
      cases h
      exact .inl rfl
    · rw [List.getElem?_set_ne he] at h
      exact hc.entry e cache h
  kept h := by cases h

theorem getCacheFromHeight_spec (hc : Caches keccak256 keccak512 build caches) (block : UInt64) :
    Caches keccak256 keccak512 build (getCacheFromHeight keccak256 keccak512 build caches block).2 ∧
      (getCacheFromHeight keccak256 keccak512 build caches block).2.length =
        (if epochOf block < caches.length then caches.length else epochOf block + cacheAheadRound) ∧
      ((getCacheFromHeight keccak256 keccak512 build caches block).1 =
          some (scratch keccak256 keccak512 build (epochOf block)) ↔
        build = .go ∨ caches.length ≤ epochOf block + 2 * cacheAheadRound) := by
  unfold getCacheFromHeight
  dsimp only
  by_cases hlt : epochOf block < caches.length
  · obtain ⟨cache, hcache⟩ : ∃ cache, caches[epochOf block]? = some cache := ⟨_, List.getElem?_eq_getElem hlt⟩
    rw [if_pos hlt, if_pos hlt, hcache]
    dsimp only
    rcases hc.entry _ _ hcache with rfl | ⟨rfl, hold⟩
    · rw [scratch_not_shrunk, if_neg (by decide)]
      refine ⟨hc, rfl, iff_of_true rfl ?_⟩
      -- in the native build a populated entry is among the last ones
      cases build with
      | go => exact .inl rfl
      | native =>
        refine .inr ?_
        by_contra hshort
        exact emptied_native_ne _ (hc.kept rfl _ _ hcache (by omega)).symm
    · cases build with
      | go =>
        rw [if_pos (show shrunk (emptied keccak256 .go (epochOf block)) = true from rfl),
          fillInCache_emptied]
        exact ⟨hc.fill hlt, List.length_set, iff_of_true rfl (.inl rfl)⟩
      | native =>
        rw [emptied_native_not_shrunk, if_neg (by decide)]
        refine ⟨hc, rfl, iff_of_false (fun h => emptied_native_ne _ (Option.some.inj h)) ?_⟩
        rintro (h | h)
        · cases h
        · omega
  · have hpos := hc.nonempty
    obtain ⟨last, hlast⟩ : ∃ last, caches.getLast? = some last := by
      rw [List.getLast?_eq_getElem?]
      have hin : caches.length - 1 < caches.length := by omega
      exact ⟨_, List.getElem?_eq_getElem hin⟩
    have hge : caches.length ≤ epochOf block := by omega
    obtain ⟨hgrown, hlen, hepoch⟩ := hc.grow hge hlast rfl
    rw [if_neg hlt, if_neg hlt, hlast]
    exact ⟨hgrown, hlen, iff_of_true hepoch (.inr (by omega))⟩

/-- The heights never ask for an epoch that has left the last `2 * cacheAheadRound` of a list of the given
length; a height beyond the list makes it grow. -/
def Recent : ℕ → List UInt64 → Prop
  | _, [] => True
  | len, block :: blocks =>
      len ≤ epochOf block + 2 * cacheAheadRound ∧
        Recent (if epochOf block < len then len else epochOf block + cacheAheadRound) blocks

instance decidableRecent : (len : ℕ) → (blocks : List UInt64) → Decidable (Recent len blocks)
  | _, [] => isTrue trivial
  | len, block :: blocks =>
      have := decidableRecent (if epochOf block < len then len else epochOf block + cacheAheadRound) blocks
      inferInstanceAs (Decidable (_ ∧ _))

theorem getCaches_iff (hc : Caches keccak256 keccak512 build caches) (blocks : List UInt64) :
    getCaches keccak256 keccak512 build caches blocks =
        blocks.map (fun block => some (scratch keccak256 keccak512 build (epochOf block))) ↔
      build = .go ∨ Recent caches.length blocks := by
  induction blocks generalizing caches with
  | nil => exact iff_of_true rfl (.inr trivial)
  | cons block blocks ih =>
    obtain ⟨hc', hlen, hanswer⟩ := getCacheFromHeight_spec hc block
    simp only [getCaches, List.map_cons, List.cons.injEq, hanswer, ih hc', hlen, Recent]
    tauto

/-- **The cache of a height.**  All answers are the caches of their epochs from scratch exactly if the build is pure
Go or no epoch is revisited after its cache was shrunk. -/
theorem getCacheFromHeight_scratch_iff (keccak256 : List UInt8 → List UInt8)
    (keccak512 : List UInt8 → Vector UInt8 64) (build : Build) (blocks : List UInt64) :
    getCaches keccak256 keccak512 build (newcacheSeed keccak512 build) blocks =
        blocks.map (fun block => some (scratch keccak256 keccak512 build (epochOf block))) ↔
      build = .go ∨ Recent 1 blocks :=
  getCaches_iff caches_newcacheSeed blocks

/-- **An empty native cache.** After a block of epoch `65` the cache of epoch `0` has lost its words, and a
block of height `0` gets none of them. -/
theorem native_cache_not_refilled :
    getCaches (fun seed => seed ++ [0]) (fun _ => Vector.replicate 64 0) .native
        (newcacheSeed (fun _ => Vector.replicate 64 0) .native) [65 * 30000, 0] ≠
      [65 * 30000, 0].map (fun block => some (scratch (fun seed => seed ++ [0])
        (fun _ => Vector.replicate 64 0) .native (epochOf block))) := by
  intro h
  rcases (getCaches_iff caches_newcacheSeed _).mp h with hbuild | hrecent
  · cases hbuild
  · exact absurd hrecent (by decide)

end QuarkChain.Qkchash
