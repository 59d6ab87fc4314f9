/-
# What an accepted root block satisfies

`ValidateBlock` is inverted here, loop by loop.  The scan of the minor headers sorts them by shard:
`Scanned` says that a finished scan has seen a list in which shards ascend and the headers of one
shard link to each other (`Follows`), and that its map holds exactly the headers of each shard.  The
second loop compares the first header of every shard with the latest confirmed one (`ShardOk`) and
moves the latter to the last header.
-/
import QuarkChain.Root.Validator

namespace QuarkChain.Root

open BlockTree Config QuarkChain.Types

def Follows (a b : MinorBlockHeader) : Prop :=
  a.branch.value < b.branch.value ∨
    a.branch.value = b.branch.value ∧ b.number = a.number + 1 ∧ b.parentHash = a.hash

def ofShard (headers : List MinorBlockHeader) (id : ℕ) : List MinorBlockHeader :=
  headers.filter fun h => h.branch.value = id

theorem ofShard_append (l l' : List MinorBlockHeader) (id : ℕ) :
    ofShard (l ++ l') id = ofShard l id ++ ofShard l' id := List.filter_append ..

theorem mem_ofShard {l : List MinorBlockHeader} {id : ℕ} {h : MinorBlockHeader} :
    h ∈ ofShard l id ↔ h ∈ l ∧ h.branch.value = id := by
  simp [ofShard]

theorem ofShard_singleton_self (h : MinorBlockHeader) : ofShard [h] h.branch.value = [h] := by
  simp [ofShard]

theorem ofShard_singleton_of_ne {h : MinorBlockHeader} {id : ℕ} (hne : h.branch.value ≠ id) :
    ofShard [h] id = [] := by
  simp [ofShard, hne]

/-! ### The scan of the minor headers -/

/-- What a finished scan has seen and what it holds. -/
structure Scanned (s : RootBlockChain) (rootBlock : RootBlock) (headers : List MinorBlockHeader)
    (sc : HeaderScan) : Prop where
  validated : ∀ h ∈ headers, s.containMinorBlockByHash h.hash = true
  time_le : ∀ h ∈ headers, h.time ≤ rootBlock.time
  pos : ∀ h ∈ headers, 0 < h.branch.value
  follows : headers.IsChain Follows
  parent : sc.parentHeader = headers.getLast?
  current : sc.fullShardId = headers.getLast?.elim 0 fun h => h.branch.value
  below : ∀ h ∈ headers, h.branch.value ≤ sc.fullShardId
  keys : ∀ k, k ∈ sc.prevRootBlockHashList ↔ ∃ h ∈ headers, h.prevRootBlockHash = k
  groups : ∀ g, g ∈ sc.shardIdToMinorHeadersMap ↔ g.2 = ofShard headers g.1 ∧ g.2 ≠ []
  head : headers ≠ [] → sc.shardIdToMinorHeadersMap.head? =
    some (sc.fullShardId, ofShard headers sc.fullShardId)
  nodup : (sc.shardIdToMinorHeadersMap.map Prod.fst).Nodup

section Scan

variable {s : RootBlockChain} {rootBlock : RootBlock} {headers : List MinorBlockHeader}
  {sc sc' : HeaderScan} {h : MinorBlockHeader}

theorem scanned_nil : Scanned s rootBlock [] {} := by
  constructor <;> simp [ofShard]

/-- **Everything a round of the scan does when it goes on.** -/
theorem scanHeader_ok_iff : scanHeader s rootBlock sc h = .ok sc' ↔
      s.containMinorBlockByHash h.hash = true ∧ h.time ≤ rootBlock.time ∧
        (sc.fullShardId < h.branch.value ∧ sc' = sc.openShard h ∨
          h.branch.value = sc.fullShardId ∧ ∃ p, sc.parentHeader = some p ∧
            h.number = p.number + 1 ∧ h.parentHash = p.hash ∧ sc' = sc.extendShard h) := by
  constructor
  · intro hok
    rw [scanHeader] at hok
    split_ifs at hok with hv ht hlt hgt
    · cases hok
      exact ⟨by simpa using hv, by omega, .inl ⟨hgt, rfl⟩⟩
    split at hok
    · cases hok
    rename_i p hp
    split_ifs at hok with hn hl
    cases hok
    exact ⟨by simpa using hv, by omega,
      .inr ⟨by omega, p, hp, not_not.mp hn, not_not.mp hl, rfl⟩⟩
  · rintro ⟨hv, ht, ⟨hgt, rfl⟩ | ⟨heq, p, hp, hn, hl, rfl⟩⟩
    · rw [scanHeader, if_neg (by simp [hv]), if_neg (by omega), if_neg (by omega), if_pos hgt]
    · rw [scanHeader, if_neg (by simp [hv]), if_neg (by omega), if_neg (by omega),
        if_neg (by omega), hp]
      simp [hn, hl]

namespace Scanned

variable (hs : Scanned s rootBlock headers sc)
include hs

theorem mem_keys (k : Hash) :
    k ∈ sc.prevRootBlockHashList.insert h.prevRootBlockHash ↔
      ∃ a ∈ headers ++ [h], a.prevRootBlockHash = k := by
  rw [List.mem_insert_iff, hs.keys]
  simp [or_and_right, exists_or, or_comm, eq_comm]

variable (hv : s.containMinorBlockByHash h.hash = true) (ht : h.time ≤ rootBlock.time)
include hv ht

theorem openShard (hgt : sc.fullShardId < h.branch.value) :
    Scanned s rootBlock (headers ++ [h]) (sc.openShard h) := by
  have hnone : ofShard headers h.branch.value = [] := by
    refine List.filter_eq_nil_iff.mpr fun a ha => ?_
    have := hs.below a ha
    simp only [decide_eq_true_eq]
    omega
  have hself : ofShard (headers ++ [h]) h.branch.value = [h] := by
    rw [ofShard_append, hnone, ofShard_singleton_self, List.nil_append]
  have hkey : ∀ g ∈ sc.shardIdToMinorHeadersMap, g.1 ≠ h.branch.value := by
    intro g hg heq
    obtain ⟨hl, hne⟩ := (hs.groups g).mp hg
    rw [hl, heq, hnone] at hne
    exact hne rfl
  constructor
  · simpa [or_imp, forall_and, hv] using hs.validated
  · simpa [or_imp, forall_and, ht] using hs.time_le
  · simpa [or_imp, forall_and, show 0 < h.branch.value by omega] using hs.pos
  · refine hs.follows.append (List.isChain_singleton h) fun a ha b hb => .inl ?_
    obtain rfl : h = b := by simpa using hb
    have := hs.below a (List.mem_of_getLast? ha)
    omega
  · simp [HeaderScan.openShard]
  · simp [HeaderScan.openShard]
  · intro a ha
    rcases List.mem_append.mp ha with ha | ha
    · have := hs.below a ha
      simp only [HeaderScan.openShard]
      omega
    · obtain rfl : a = h := by simpa using ha
      exact le_rfl
  · exact hs.mem_keys
  · intro g
    simp only [HeaderScan.openShard, List.mem_cons]
    by_cases hg : h.branch.value = g.1
    · have hmem : g ∉ sc.shardIdToMinorHeadersMap := fun hmem => hkey g hmem hg.symm
      rw [← hg, hself, or_iff_left hmem, Prod.ext_iff]
      exact ⟨fun h => ⟨h.2, by simp [h.2]⟩, fun h => ⟨hg.symm, h.1⟩⟩
    · rw [ofShard_append, ofShard_singleton_of_ne hg, List.append_nil, ← hs.groups g]
      exact or_iff_right fun heq => hg (congrArg Prod.fst heq).symm
  · intro _
    simp [HeaderScan.openShard, hself]
  · simp only [HeaderScan.openShard, List.map_cons, List.nodup_cons]
    refine ⟨?_, hs.nodup⟩
    rintro hmem
    obtain ⟨g, hg, heq⟩ := List.mem_map.mp hmem
    exact hkey g hg heq

theorem extendShard {p : MinorBlockHeader}
    (heq : h.branch.value = sc.fullShardId) (hp : sc.parentHeader = some p)
    (hn : h.number = p.number + 1) (hl : h.parentHash = p.hash) :
    Scanned s rootBlock (headers ++ [h]) (sc.extendShard h) := by
  have hlast : headers.getLast? = some p := by rw [← hs.parent, hp]
  have hcur : p.branch.value = sc.fullShardId := by rw [hs.current, hlast]; rfl
  have hne : headers ≠ [] := by
    rintro rfl
    cases hlast
  obtain ⟨rest, hgroups⟩ : ∃ rest, sc.shardIdToMinorHeadersMap =
      (sc.fullShardId, ofShard headers sc.fullShardId) :: rest := by
    have := hs.head hne
    rcases hm : sc.shardIdToMinorHeadersMap with _ | ⟨g, rest⟩
    · simp [hm] at this
    rw [hm, List.head?_cons, Option.some.injEq] at this
    exact ⟨rest, by rw [this]⟩
  have hself : ofShard (headers ++ [h]) sc.fullShardId = ofShard headers sc.fullShardId ++ [h] := by
    rw [ofShard_append, ← heq, ofShard_singleton_self]
  have hnew : (sc.extendShard h).shardIdToMinorHeadersMap =
      (sc.fullShardId, ofShard (headers ++ [h]) sc.fullShardId) :: rest := by
    simp [HeaderScan.extendShard, hgroups, hself]
  have hnodup := hs.nodup
  rw [hgroups, List.map_cons, List.nodup_cons] at hnodup
  constructor
  · simpa [or_imp, forall_and, hv] using hs.validated
  · simpa [or_imp, forall_and, ht] using hs.time_le
  · have := hs.pos p (List.mem_of_getLast? hlast)
    simpa [or_imp, forall_and, show 0 < h.branch.value by omega] using hs.pos
  · refine hs.follows.append (List.isChain_singleton h) fun a ha b hb => .inr ?_
    obtain rfl : h = b := by simpa using hb
    obtain rfl : p = a := by simpa [hlast] using ha
    exact ⟨by omega, hn, hl⟩
  · simp [HeaderScan.extendShard]
  · simp [HeaderScan.extendShard, heq]
  · intro a ha
    rcases List.mem_append.mp ha with ha | ha
    · exact hs.below a ha
    · obtain rfl : a = h := by simpa using ha
      exact heq.le
  · exact hs.mem_keys
  · intro g
    rw [hnew, List.mem_cons]
    by_cases hg : g.1 = sc.fullShardId
    · have hrest : g ∉ rest := fun hin => hnodup.1 (List.mem_map.mpr ⟨g, hin, hg⟩)
      rw [hg, or_iff_left hrest, Prod.ext_iff]
      exact ⟨fun h => ⟨h.2, by simp [h.2, hself]⟩, fun h => ⟨hg, h.1⟩⟩
    · have hold := hs.groups g
      rw [hgroups, List.mem_cons] at hold
      have hsame : ofShard (headers ++ [h]) g.1 = ofShard headers g.1 := by
        rw [ofShard_append, ofShard_singleton_of_ne (by omega), List.append_nil]
      have hne : ∀ l, g ≠ (sc.fullShardId, l) := fun l heq => hg (congrArg Prod.fst heq)
      rw [hsame, ← hold, or_iff_right (hne _), or_iff_right (hne _)]
  · intro _
    rw [hnew]
    rfl
  · rw [hnew, List.map_cons, List.nodup_cons]
    exact hnodup

end Scanned

theorem scanHeaders_concat : scanHeaders s rootBlock (headers ++ [h]) =
      scanHeaders s rootBlock headers >>= fun sc => scanHeader s rootBlock sc h := by
  simp [scanHeaders, List.foldlM_append]

theorem scanHeaders_ok (hok : scanHeaders s rootBlock headers = .ok sc) : Scanned s rootBlock headers sc := by
  induction headers using List.reverseRecOn generalizing sc with
  | nil =>
    cases hok
    exact scanned_nil
  | append_singleton headers h ih =>
    rw [scanHeaders_concat] at hok
    obtain ⟨sc₀, hsc₀, hstep⟩ := Outcome.bind_eq_ok.mp hok
    obtain ⟨hv, ht, ⟨hgt, rfl⟩ | ⟨heq, p, hp, hn, hl, rfl⟩⟩ := scanHeader_ok_iff.mp hstep
    · exact (ih hsc₀).openShard hv ht hgt
    · exact (ih hsc₀).extendShard hv ht heq hp hn hl

theorem scanHeaders_exists (hv : ∀ h ∈ headers, s.containMinorBlockByHash h.hash = true)
    (ht : ∀ h ∈ headers, h.time ≤ rootBlock.time) (hpos : ∀ h ∈ headers, 0 < h.branch.value)
    (hf : headers.IsChain Follows) : ∃ sc, scanHeaders s rootBlock headers = .ok sc := by
  induction headers using List.reverseRecOn with
  | nil => exact ⟨{}, rfl⟩
  | append_singleton headers h ih =>
    simp only [List.mem_append, or_imp, forall_and, List.mem_singleton, forall_eq] at hv ht hpos
    obtain ⟨hf₀, -, hlink⟩ := List.isChain_append.mp hf
    obtain ⟨sc, hsc⟩ := ih hv.1 ht.1 hpos.1 hf₀
    have hs := scanHeaders_ok hsc
    have hgo : ∃ sc', scanHeader s rootBlock sc h = .ok sc' := by
      cases hlast : headers.getLast? with
      | none =>
        refine ⟨sc.openShard h, scanHeader_ok_iff.mpr ⟨hv.2, ht.2, .inl ⟨?_, rfl⟩⟩⟩
        rw [hs.current, hlast]
        exact hpos.2
      | some p =>
        have hcur : sc.fullShardId = p.branch.value := by rw [hs.current, hlast]; rfl
        rcases hlink p hlast h rfl with hlt | ⟨heq, hn, hl⟩
        · exact ⟨sc.openShard h, scanHeader_ok_iff.mpr ⟨hv.2, ht.2, .inl ⟨by omega, rfl⟩⟩⟩
        · exact ⟨sc.extendShard h, scanHeader_ok_iff.mpr
            ⟨hv.2, ht.2, .inr ⟨by omega, p, by rw [hs.parent, hlast], hn, hl, rfl⟩⟩⟩
    obtain ⟨sc', hsc'⟩ := hgo
    exact ⟨sc', by rw [scanHeaders_concat]; exact Outcome.bind_eq_ok.mpr ⟨sc, hsc, hsc'⟩⟩

end Scan

/-- What the headers of one shard must satisfy. -/
structure ShardOk (n : Setup) (rootBlock : RootBlock) (latest : HeaderMap) (id : ℕ)
    (headers : List MinorBlockHeader) : Prop where
  few : ∃ c, n.config.quarkchain.getShardConfigByFullShardID id = some c ∧
    headers.length ≤ c.maxBlocksPerShardInOneRootBlock
  initialized : id ∈ n.config.quarkchain.getInitializedShardIdsBeforeRootHeight rootBlock.number
  first : ∀ f, headers.head? = some f → latest.lookup id = none → f.number = 0
  link : ∀ f p, headers.head? = some f → latest.lookup id = some p →
    f.number = p.number + 1 ∧ f.parentHash = p.hash

section Shards

variable {n : Setup} {rootBlock : RootBlock} {latest latest' : HeaderMap}
  {g : ℕ × List MinorBlockHeader}

/-- **The check of one shard, specified.** -/
theorem checkShard_ok_iff : n.checkShard rootBlock latest g = .ok latest' ↔
      ShardOk n rootBlock latest g.1 g.2 ∧
        ∃ last, g.2.getLast? = some last ∧ latest' = latest.set last := by
  constructor
  · intro hok
    rw [Setup.checkShard] at hok
    split at hok
    · cases hok
    rename_i c hc
    split_ifs at hok with hfew hinit
    split at hok
    · rename_i first last hfirst hlast
      split at hok
      · rename_i hlook
        split_ifs at hok with hzero
        cases hok
        refine ⟨⟨⟨c, hc, by omega⟩, hinit, ?_, ?_⟩, last, hlast, rfl⟩
        · intro f hf _
          rw [hfirst] at hf
          cases hf
          exact not_not.mp hzero
        · intro f p _ hp
          rw [hlook] at hp
          cases hp
      · rename_i prev hlook
        split_ifs at hok with hlink
        cases hok
        rw [not_or, not_not, not_not] at hlink
        refine ⟨⟨⟨c, hc, by omega⟩, hinit, ?_, ?_⟩, last, hlast, rfl⟩
        · intro f _ hnone
          rw [hlook] at hnone
          cases hnone
        · intro f p hf hp
          rw [hfirst] at hf
          rw [hlook] at hp
          cases hf
          cases hp
          exact ⟨hlink.1.symm, hlink.2.symm⟩
    · cases hok
  · rintro ⟨hs, last, hlast, rfl⟩
    obtain ⟨c, hc, hfew⟩ := hs.few
    obtain ⟨first, hfirst⟩ : ∃ first, g.2.head? = some first := by
      cases hg : g.2 with
      | nil => simp [hg] at hlast
      | cons a l => exact ⟨a, rfl⟩
    rw [Setup.checkShard, hc]
    simp only [hfirst, hlast]
    rw [if_neg (by omega), if_neg (not_not.mpr hs.initialized)]
    rcases hlook : latest.lookup g.1 with _ | p
    · simp [hs.first first hfirst hlook]
    obtain ⟨hn, hl⟩ := hs.link first p hfirst hlook
    simp [hn, hl]

theorem ShardOk.congr {id : ℕ} {headers : List MinorBlockHeader}
    (hs : ShardOk n rootBlock latest id headers) (hlook : latest'.lookup id = latest.lookup id) :
    ShardOk n rootBlock latest' id headers where
  few := hs.few
  initialized := hs.initialized
  first := by
    rw [hlook]
    exact hs.first
  link := by
    rw [hlook]
    exact hs.link

variable {groups : List (ℕ × List MinorBlockHeader)}

variable (hkeys : (groups.map Prod.fst).Nodup)
  (hown : ∀ g ∈ groups, ∀ h ∈ g.2, h.branch.value = g.1)
include hkeys hown

/-- **The loop over the shards, specified.** -/
theorem checkShards_ok_iff (hne : ∀ g ∈ groups, g.2 ≠ []) :
    (∃ latest', groups.foldlM (n.checkShard rootBlock) latest = .ok latest') ↔
      ∀ g ∈ groups, ShardOk n rootBlock latest g.1 g.2 := by
  induction groups generalizing latest with
  | nil => simp [pure, Except.pure]
  | cons g groups ih =>
    rw [List.map_cons, List.nodup_cons] at hkeys
    rw [List.forall_mem_cons] at hown hne
    obtain ⟨last, hlast⟩ : ∃ last, g.2.getLast? = some last :=
      ⟨g.2.getLast hne.1, List.getLast?_eq_some_getLast hne.1⟩
    have hkey : last.branch.value = g.1 := hown.1 last (List.mem_of_getLast? hlast)
    -- the entry written for this shard is not the one a later shard reads
    have hother : ∀ g' ∈ groups, (latest.set last).lookup g'.1 = latest.lookup g'.1 := by
      intro g' hg'
      rw [HeaderMap.lookup_set, if_neg]
      intro heq
      exact hkeys.1 (by rw [← hkey, heq]; exact List.mem_map_of_mem hg')
    have htail := @ih (latest.set last) hkeys.2 hown.2 hne.2
    rw [List.foldlM_cons, List.forall_mem_cons]
    constructor
    · rintro ⟨latest', hok⟩
      obtain ⟨l₁, hone, hrest⟩ := Outcome.bind_eq_ok.mp hok
      obtain ⟨hs, last', hlast', rfl⟩ := checkShard_ok_iff.mp hone
      obtain rfl : last = last' := Option.some.inj (hlast.symm.trans hlast')
      exact ⟨hs, fun g' hg' => (htail.mp ⟨latest', hrest⟩ g' hg').congr (hother g' hg').symm⟩
    · rintro ⟨hs, hall⟩
      obtain ⟨latest', hrest⟩ := htail.mpr fun g' hg' => (hall g' hg').congr (hother g' hg')
      exact ⟨latest', Outcome.bind_eq_ok.mpr
        ⟨latest.set last, checkShard_ok_iff.mpr ⟨hs, last, hlast, rfl⟩, hrest⟩⟩

theorem checkShards_lookup
    (hok : groups.foldlM (n.checkShard rootBlock) latest = .ok latest') (id : ℕ) :
    (∀ l, (id, l) ∈ groups → latest'.lookup id = l.getLast?) ∧
      (id ∉ groups.map Prod.fst → latest'.lookup id = latest.lookup id) := by
  induction groups generalizing latest with
  | nil =>
    cases hok
    exact ⟨by simp, fun _ => rfl⟩
  | cons g groups ih =>
    rw [List.map_cons, List.nodup_cons] at hkeys
    rw [List.forall_mem_cons] at hown
    rw [List.foldlM_cons] at hok
    obtain ⟨l₁, hone, hrest⟩ := Outcome.bind_eq_ok.mp hok
    obtain ⟨-, last, hlast, rfl⟩ := checkShard_ok_iff.mp hone
    have hkey : last.branch.value = g.1 := hown.1 last (List.mem_of_getLast? hlast)
    obtain ⟨hin, hout⟩ := ih hkeys.2 hown.2 hrest
    constructor
    · intro l hl
      rcases List.mem_cons.mp hl with heq | hl
      · subst heq
        rw [hout hkeys.1, HeaderMap.lookup_set, if_pos hkey, hlast]
      · exact hin l hl
    · intro hid
      rw [List.map_cons, List.mem_cons, not_or] at hid
      rw [hout hid.2, HeaderMap.lookup_set, if_neg (by omega)]

omit hkeys hown

theorem checkShards_keysNodup (hm : latest.KeysNodup)
    (hok : groups.foldlM (n.checkShard rootBlock) latest = .ok latest') : latest'.KeysNodup := by
  induction groups generalizing latest with
  | nil =>
    cases hok
    exact hm
  | cons g groups ih =>
    rw [List.foldlM_cons] at hok
    obtain ⟨l₁, hone, hrest⟩ := Outcome.bind_eq_ok.mp hok
    obtain ⟨-, last, -, rfl⟩ := checkShard_ok_iff.mp hone
    exact ih (HeaderMap.keysNodup_set hm last) hrest

end Shards

/-- What a root block satisfies that `ValidateBlock` accepts. -/
structure Accepted (n : Setup) (s : RootBlockChain) (rootBlock : RootBlock) (force : Bool) :
    Prop where
  height : 1 ≤ rootBlock.number
  unknown : force = true ∨ s.getBlock rootBlock.hash = none
  header : n.verifyRootHeader s rootBlock = .ok ()
  content : n.checkContent s rootBlock = .ok ()
  validated : ∀ h ∈ rootBlock.minorBlockHeaders, s.containMinorBlockByHash h.hash = true
  time_le : ∀ h ∈ rootBlock.minorBlockHeaders, h.time ≤ rootBlock.time
  pos : ∀ h ∈ rootBlock.minorBlockHeaders, 0 < h.branch.value
  follows : rootBlock.minorBlockHeaders.IsChain Follows
  prevRoots : ∀ h ∈ rootBlock.minorBlockHeaders,
    checkPrevRoot s rootBlock h.prevRootBlockHash = .ok ()
  shards : ∀ id, ofShard rootBlock.minorBlockHeaders id ≠ [] →
    ShardOk n rootBlock (s.getLatestMinorBlockHeaders rootBlock.parentHash) id
      (ofShard rootBlock.minorBlockHeaders id)

section Validate

variable {n : Setup} {ord : MapOrder} {s s' : RootBlockChain} {rootBlock : RootBlock} {force : Bool}

theorem Scanned.visited {sc : HeaderScan} (hs : Scanned s rootBlock rootBlock.minorBlockHeaders sc)
    (ord : MapOrder) : ((ord.groups sc.shardIdToMinorHeadersMap).map Prod.fst).Nodup ∧
      (∀ g, g ∈ ord.groups sc.shardIdToMinorHeadersMap ↔
        g.2 = ofShard rootBlock.minorBlockHeaders g.1 ∧ g.2 ≠ []) ∧
      (∀ g ∈ ord.groups sc.shardIdToMinorHeadersMap, ∀ h ∈ g.2, h.branch.value = g.1) ∧
      ∀ g ∈ ord.groups sc.shardIdToMinorHeadersMap, g.2 ≠ [] := by
  have hperm := ord.groups_perm sc.shardIdToMinorHeadersMap
  have hmem : ∀ g, g ∈ ord.groups sc.shardIdToMinorHeadersMap ↔
      g.2 = ofShard rootBlock.minorBlockHeaders g.1 ∧ g.2 ≠ [] := fun g => by
    rw [hperm.mem_iff, hs.groups g]
  refine ⟨(hperm.map Prod.fst).nodup_iff.mpr hs.nodup, hmem, fun g hg h hh => ?_,
    fun g hg => ((hmem g).mp hg).2⟩
  rw [((hmem g).mp hg).1] at hh
  exact (mem_ofShard.mp hh).2

/-- **What `ValidateBlock` accepts.** -/
theorem validateBlock_ok_iff :
    (∃ s', n.validateBlock ord s rootBlock force = .ok s') ↔ Accepted n s rootBlock force := by
  constructor
  · rintro ⟨s', hok⟩
    rw [Setup.validateBlock] at hok
    split_ifs at hok with hheight hknown
    obtain ⟨⟨⟩, hheader, hok⟩ := Outcome.bind_eq_ok.mp hok
    obtain ⟨⟨⟩, hcontent, hok⟩ := Outcome.bind_eq_ok.mp hok
    obtain ⟨sc, hsc, hok⟩ := Outcome.bind_eq_ok.mp hok
    obtain ⟨⟨⟩, hroots, hok⟩ := Outcome.bind_eq_ok.mp hok
    obtain ⟨latest, hshards, -⟩ := Outcome.bind_eq_ok.mp hok
    have hs := scanHeaders_ok hsc
    obtain ⟨hnodup, hmem, hown, hne⟩ := hs.visited ord
    refine ⟨by omega, ?_, Outcome.mapError_eq_ok.mp hheader, Outcome.mapError_eq_ok.mp hcontent,
      hs.validated, hs.time_le, hs.pos, hs.follows, ?_, ?_⟩
    · cases force with
      | true => exact .inl rfl
      | false => simpa [RootBlockChain.hasBlock] using hknown
    · intro h hh
      refine Outcome.forM_eq_ok.mp hroots _ ?_
      rw [(ord.hashes_perm _).mem_iff, hs.keys]
      exact ⟨h, hh, rfl⟩
    · intro id hid
      exact (checkShards_ok_iff hnodup hown hne).mp ⟨latest, hshards⟩
        (id, ofShard rootBlock.minorBlockHeaders id) ((hmem _).mpr ⟨rfl, hid⟩)
  · intro ha
    obtain ⟨sc, hsc⟩ := scanHeaders_exists ha.validated ha.time_le ha.pos ha.follows
    have hs := scanHeaders_ok hsc
    obtain ⟨hnodup, hmem, hown, hne⟩ := hs.visited ord
    have hroots : (ord.hashes sc.prevRootBlockHashList).forM (checkPrevRoot s rootBlock) = .ok () := by
      refine Outcome.forM_eq_ok.mpr fun k hk => ?_
      rw [(ord.hashes_perm _).mem_iff, hs.keys] at hk
      obtain ⟨h, hh, rfl⟩ := hk
      exact ha.prevRoots h hh
    have hall : ∀ g ∈ ord.groups sc.shardIdToMinorHeadersMap, ShardOk n rootBlock
        (s.getLatestMinorBlockHeaders rootBlock.parentHash) g.1 g.2 := by
      intro g hg
      obtain ⟨hl, hne⟩ := (hmem g).mp hg
      rw [hl] at hne ⊢
      exact ha.shards g.1 hne
    obtain ⟨latest, hshards⟩ := (checkShards_ok_iff hnodup hown hne).mpr hall
    refine ⟨s.setLatestMinorBlockHeaders rootBlock.hash latest, ?_⟩
    have hheight := ha.height
    rw [Setup.validateBlock, if_neg (by omega), if_neg, ha.header, ha.content]
    · exact Outcome.bind_eq_ok.mpr ⟨(), rfl, Outcome.bind_eq_ok.mpr ⟨(), rfl,
        Outcome.bind_eq_ok.mpr ⟨sc, hsc, Outcome.bind_eq_ok.mpr ⟨(), hroots,
          Outcome.bind_eq_ok.mpr ⟨latest, hshards, rfl⟩⟩⟩⟩⟩
    · rcases ha.unknown with hf | hnone
      · simp [hf]
      · simp [RootBlockChain.hasBlock, hnone]

/-- **What an accepted block changes.** -/
theorem validateBlock_ok_latest (hok : n.validateBlock ord s rootBlock force = .ok s') :
    (∃ latest, s' = s.setLatestMinorBlockHeaders rootBlock.hash latest) ∧
      ∀ id, (s'.getLatestMinorBlockHeaders rootBlock.hash).lookup id =
        (ofShard rootBlock.minorBlockHeaders id).getLast?.or
          ((s.getLatestMinorBlockHeaders rootBlock.parentHash).lookup id) := by
  rw [Setup.validateBlock] at hok
  split_ifs at hok with hheight hknown
  obtain ⟨⟨⟩, -, hok⟩ := Outcome.bind_eq_ok.mp hok
  obtain ⟨⟨⟩, -, hok⟩ := Outcome.bind_eq_ok.mp hok
  obtain ⟨sc, hsc, hok⟩ := Outcome.bind_eq_ok.mp hok
  obtain ⟨⟨⟩, -, hok⟩ := Outcome.bind_eq_ok.mp hok
  obtain ⟨latest, hshards, hok⟩ := Outcome.bind_eq_ok.mp hok
  cases hok
  have hs := scanHeaders_ok hsc
  obtain ⟨hnodup, hmem, hown, -⟩ := hs.visited ord
  have hkeys : latest.KeysNodup :=
    checkShards_keysNodup (HeaderMap.keysNodup_foldl HeaderMap.keysNodup_nil) hshards
  refine ⟨⟨latest, rfl⟩, fun id => ?_⟩
  have hread : ((s.setLatestMinorBlockHeaders rootBlock.hash latest).getLatestMinorBlockHeaders
      rootBlock.hash).lookup id = latest.lookup id := by
    simp only [RootBlockChain.getLatestMinorBlockHeaders,
      RootBlockChain.setLatestMinorBlockHeaders, Function.update_self]
    rw [HeaderMap.lookup_foldl hkeys]
    exact Option.or_none
  rw [hread]
  obtain ⟨hin, hout⟩ := checkShards_lookup hnodup hown hshards id
  by_cases hid : ofShard rootBlock.minorBlockHeaders id = []
  · rw [hid, List.getLast?_nil, Option.none_or]
    refine hout fun hmem' => ?_
    obtain ⟨g, hg, rfl⟩ := List.mem_map.mp hmem'
    obtain ⟨hl, hne⟩ := (hmem g).mp hg
    exact hne (hl.trans hid)
  · rw [hin _ ((hmem (id, ofShard rootBlock.minorBlockHeaders id)).mpr ⟨rfl, hid⟩)]
    cases hlast : (ofShard rootBlock.minorBlockHeaders id).getLast? with
    | none => exact absurd (List.getLast?_eq_none_iff.mp hlast) hid
    | some h => rfl

theorem checkContent_ne_errKnownBlock :
    Outcome.Post (n.checkContent s rootBlock) (fun _ => True) (· ≠ .errKnownBlock) := by
  rw [Setup.checkContent]
  split
  · simp
  · split_ifs <;> try simp
    split <;> [simp; (split_ifs <;> simp)]

theorem scanHeader_ne_errKnownBlock (sc : HeaderScan) (h : MinorBlockHeader) :
    Outcome.Post (scanHeader s rootBlock sc h) (fun _ => True) (· ≠ .error .errKnownBlock) := by
  rw [scanHeader]
  split_ifs <;> try simp
  split <;> [simp; (split_ifs <;> simp)]

theorem checkPrevRoot_ne_errKnownBlock (key : Hash) :
    Outcome.Post (checkPrevRoot s rootBlock key) (fun _ => True) (· ≠ .error .errKnownBlock) := by
  rw [checkPrevRoot]
  split
  · simp
  · split <;> simp

theorem checkShard_ne_errKnownBlock (latest : HeaderMap) (g : ℕ × List MinorBlockHeader) :
    Outcome.Post (n.checkShard rootBlock latest g) (fun _ => True) (· ≠ .error .errKnownBlock) := by
  rw [Setup.checkShard]
  split
  · simp
  split_ifs <;> try simp
  split
  · split <;> split_ifs <;> simp
  · simp

/-- **Only a known block is reported as known.** -/
theorem validateBlock_errKnownBlock :
    Outcome.Post (n.validateBlock ord s rootBlock force) (fun _ => True) fun e =>
      e = .error .errKnownBlock →
        1 ≤ rootBlock.number ∧ ∃ b, s.getBlock rootBlock.hash = some b := by
  rw [Setup.validateBlock]
  split_ifs with hheight hknown
  · simp
  · rw [Bool.and_eq_true, RootBlockChain.hasBlock, Option.isSome_iff_exists] at hknown
    exact fun _ => ⟨by omega, hknown.1⟩
  refine Outcome.Post.mono (P := fun _ => True) (Q := (· ≠ .error .errKnownBlock)) ?_
    (fun _ => id) fun e he h => absurd h he
  refine Outcome.Post.bind (P := fun _ => True) (.mapError ?_) fun _ _ => ?_
  · cases n.verifyRootHeader s rootBlock <;> simp
  refine (Outcome.Post.mapError (checkContent_ne_errKnownBlock.mono (fun _ => id) ?_)).bind
    fun _ _ => ?_
  · exact fun e he heq => he (Stop.error.inj heq)
  refine (Outcome.Post.foldlM trivial fun sc h _ _ => scanHeader_ne_errKnownBlock sc h).bind
    fun sc _ => ?_
  refine (Outcome.Post.forM fun k _ => checkPrevRoot_ne_errKnownBlock k).bind fun _ _ => ?_
  exact (Outcome.Post.foldlM trivial fun l g _ _ => checkShard_ne_errKnownBlock l g).bind
    fun _ _ => trivial

end Validate
end QuarkChain.Root
