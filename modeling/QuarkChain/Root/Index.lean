/-
# The indexes over confirmed minor blocks

`PutRootBlockIndex` of `src/core/rootblockchain.go` keeps two more tables when minor blocks are counted:
under every minor block the root block that confirms it, and under every shard and root height how many
blocks of the shard each miner has had confirmed so far.

Neither is ever erased: what the old branch of a `reorg` had entered stays unless the new one writes the same
key.  `Exact` compares the tables with a scan of the canonical chain, and `Covers` is the condition on a winning
block under which nothing is left over.
-/
import QuarkChain.Lib.Reorg
import QuarkChain.Root.Confirmed

namespace QuarkChain.Root

open BlockTree Config QuarkChain.Types Run

/-- `map[account.Recipient]uint32`. -/
abbrev Counts := Recipient → Option ℕ

/-- `core.RootBlockChain` with `countMinorBlocks`. -/
structure IndexedChain where
  chain : RootBlockChain
  /-- `GetRootBlockConfirmingMinorBlock`, by the hash of the minor block and its full shard id. -/
  confirming : Hash → ℕ → Option Hash
  /-- `GetMinorBlockCnt`, by full shard id and root height. -/
  minorBlockCnt : ℕ → ℕ → Option Counts

/-- One header in `PutRootBlockIndex`: the count of its miner in its shard. -/
def countHeader (shardRecipientCnt : ℕ → Option Counts) (header : MinorBlockHeader) : ℕ → Option Counts :=
  let infoList := (shardRecipientCnt header.branch.value).getD fun _ => none
  let oldCount := (infoList header.coinbase.recipient).getD 0
  Function.update shardRecipientCnt header.branch.value
    (some (Function.update infoList header.coinbase.recipient (some ((oldCount + 1) % 2 ^ 32))))

/-- One header in `PutRootBlockIndex`: the root block that confirms it. -/
def putConfirming (rHash : Hash) (confirming : Hash → ℕ → Option Hash) (header : MinorBlockHeader) :
    Hash → ℕ → Option Hash :=
  fun hash fullShardID =>
    if hash = header.hash ∧ fullShardID = header.branch.value then some rHash
    else confirming hash fullShardID

namespace IndexedChain

variable (q : QuarkChainConfig) (s : IndexedChain)

/-- `GetBlockCount` for one shard; only shards initialised before the height are asked. -/
def getBlockCount (rootHeight fullShardID : ℕ) : Option Counts :=
  if fullShardID ∈ q.getInitializedShardIdsBeforeRootHeight rootHeight then
    s.minorBlockCnt fullShardID rootHeight
  else none

/-- The counts at a block: those one height below and the headers of the block. -/
def shardRecipientCnt (block : RootBlock) : ℕ → Option Counts :=
  block.minorBlockHeaders.foldl countHeader
    (if 0 < block.number then s.getBlockCount q (block.number - 1) else fun _ => none)

/-- `insert` with `PutRootBlockIndex`: the shards counted are overwritten, the others stay. -/
def insert (block : RootBlock) : IndexedChain where
  chain := s.chain.insert block
  confirming := block.minorBlockHeaders.foldl (putConfirming block.hash) s.confirming
  minorBlockCnt fullShardID height :=
    if height = block.number then
      (s.shardRecipientCnt q block fullShardID).or (s.minorBlockCnt fullShardID height)
    else s.minorBlockCnt fullShardID height

/-- The blocks of the new branch are inserted from below; nothing of the old one is erased. -/
def reorg (oldBlock newBlock : RootBlock) : Except ForkError IndexedChain :=
  (fork s.chain.getBlock oldBlock newBlock).map fun r => r.2.1.foldr (fun b s => s.insert q b) s

def writeRootBlock (block : RootBlock) : IndexedChain :=
  { s with chain := s.chain.writeRootBlock block }

/-- As without the indexes, which only `insert` touches. -/
def writeBlockWithState (block : RootBlock) : Except ForkError RootBlockChain.WriteStatus × IndexedChain :=
  if s.chain.wins block then
    if block.parentHash = s.chain.currentBlock.hash then
      (.ok .canonStatTy, (s.writeRootBlock block).insert q block)
    else
      match (s.writeRootBlock block).reorg q s.chain.currentBlock block with
      | .error e => (.error e, s.writeRootBlock block)
      | .ok s' => (.ok .canonStatTy, s'.insert q block)
  else (.ok .sideStatTy, s.writeRootBlock block)

end IndexedChain

/-! ### A scan of a chain -/

/-- The root block lists a minor block. -/
def confirmsHeader (hash : Hash) (fullShardID : ℕ) (b : RootBlock) : Bool :=
  b.minorBlockHeaders.any fun h => hash = h.hash ∧ fullShardID = h.branch.value

/-- The root block under a minor block after a scan of a chain, the highest block first. -/
def scanConfirming (l : List RootBlock) (hash : Hash) (fullShardID : ℕ) : Option Hash :=
  (l.find? (confirmsHeader hash fullShardID)).map RootBlock.hash

/-- How many of the headers each miner has, if there are any. -/
def tally (headers : List MinorBlockHeader) : Option Counts :=
  if headers = [] then none
  else some fun recipient =>
    let count := headers.countP fun h => h.coinbase.recipient = recipient
    if count = 0 then none else some (count % 2 ^ 32)

/-- The counts of a shard after a scan of a chain. -/
def scanCounts (l : List RootBlock) (fullShardID : ℕ) : Option Counts :=
  tally (ofShard (l.flatMap RootBlock.minorBlockHeaders) fullShardID)

/-- **The indexes are exact:** they hold what a scan of the canonical chain gives. -/
structure Exact (q : QuarkChainConfig) (s : IndexedChain) : Prop where
  confirming : ∀ l, Column s.chain.getBlock s.chain.currentBlock l →
    ∀ hash id, s.confirming hash id = scanConfirming l hash id
  counts : ∀ c l, Descends s.chain.getBlock c s.chain.currentBlock → Column s.chain.getBlock c l →
    ∀ id, s.getBlockCount q c.number id = scanCounts l id

theorem tally_perm {l l' : List MinorBlockHeader} (h : l.Perm l') : tally l = tally l' := by
  have hnil : l = [] ↔ l' = [] := by
    rw [← List.length_eq_zero_iff, ← List.length_eq_zero_iff, h.length_eq]
  simp only [tally, h.countP_eq, hnil]

theorem tally_isSome {l : List MinorBlockHeader} : (tally l).isSome = true ↔ l ≠ [] := by
  unfold tally
  split_ifs with h <;> simp [h]

theorem tally_getD (l : List MinorBlockHeader) (recipient : Recipient) :
    (tally l).getD (fun _ => none) recipient =
      if l.countP (fun h => h.coinbase.recipient = recipient) = 0 then none
      else some (l.countP (fun h => h.coinbase.recipient = recipient) % 2 ^ 32) := by
  unfold tally
  split_ifs with h <;> simp_all

theorem tally_cons (h : MinorBlockHeader) (l : List MinorBlockHeader) :
    tally (h :: l) = some (Function.update ((tally l).getD fun _ => none) h.coinbase.recipient
      (some (((((tally l).getD fun _ => none) h.coinbase.recipient).getD 0 + 1) % 2 ^ 32))) := by
  rw [tally, if_neg (List.cons_ne_nil _ _), Option.some.injEq]
  funext recipient
  by_cases hr : recipient = h.coinbase.recipient
  · subst hr
    rw [Function.update_self, tally_getD, List.countP_cons_of_pos (by simp)]
    split_ifs with hzero
    · simp [hzero]
    · simp [Nat.add_mod]
  · rw [Function.update_of_ne hr, tally_getD, List.countP_cons_of_neg (by simpa using Ne.symm hr)]

/-- The counts are those of a list of headers. -/
def Tallies (m : ℕ → Option Counts) (headers : List MinorBlockHeader) : Prop :=
  ∀ id, m id = tally (ofShard headers id)

variable {m : ℕ → Option Counts} {headers : List MinorBlockHeader} {height : ℕ} {d : RootBlock}

theorem Tallies.countHeader
    (hm : Tallies m headers) (h : MinorBlockHeader) : Tallies (countHeader m h) (h :: headers) := by
  intro id
  by_cases hid : id = h.branch.value
  · subst hid
    have hof : ofShard (h :: headers) h.branch.value = h :: ofShard headers h.branch.value := by
      simp [ofShard]
    rw [hof, tally_cons, ← hm]
    simp [Root.countHeader]
  · have hof : ofShard (h :: headers) id = ofShard headers id := by
      simp [ofShard, Ne.symm hid]
    rw [hof, ← hm]
    simp [Root.countHeader, Function.update_of_ne hid]

theorem Tallies.foldl (hm : Tallies m headers) (l : List MinorBlockHeader) :
    Tallies (l.foldl Root.countHeader m) (l.reverse ++ headers) := by
  induction l generalizing m headers with
  | nil => exact hm
  | cons h l ih =>
    rw [List.foldl_cons, List.reverse_cons, List.append_assoc]
    exact ih (hm.countHeader h)

theorem countHeader_isSome {id : ℕ} (l : List MinorBlockHeader)
    (h : ((l.foldl countHeader m) id).isSome = true) :
    (m id).isSome = true ∨ ∃ header ∈ l, header.branch.value = id := by
  induction l generalizing m with
  | nil => exact .inl h
  | cons header l ih =>
    rcases ih h with hsome | ⟨header', hmem, hid⟩
    · by_cases hid : id = header.branch.value
      · exact .inr ⟨header, List.mem_cons_self, hid.symm⟩
      · rw [countHeader, Function.update_of_ne hid] at hsome
        exact .inl hsome
    · exact .inr ⟨header', List.mem_cons_of_mem _ hmem, hid⟩

theorem scanCounts_isSome {l : List RootBlock} {id : ℕ} : (scanCounts l id).isSome = true ↔
      ∃ b ∈ l, ∃ h ∈ b.minorBlockHeaders, h.branch.value = id := by
  rw [scanCounts, tally_isSome, ofShard, Ne, List.filter_eq_nil_iff]
  simp only [List.mem_flatMap, decide_eq_true_eq]
  constructor
  · intro h
    by_contra hno
    refine h ?_
    rintro a ⟨b, hb, ha⟩ hid
    exact hno ⟨b, hb, a, ha, hid⟩
  · rintro ⟨b, hb, h, hh, hid⟩ hno
    exact hno h ⟨b, hb, hh⟩ hid

theorem scanConfirming_append (l l' : List RootBlock) (hash : Hash) (id : ℕ) :
    scanConfirming (l ++ l') hash id = (scanConfirming l hash id).or (scanConfirming l' hash id) := by
  rw [scanConfirming, List.find?_append, scanConfirming, scanConfirming]
  cases l.find? (confirmsHeader hash id) <;> rfl

theorem scanConfirming_cons (b : RootBlock) (l : List RootBlock) (hash : Hash) (id : ℕ) :
    scanConfirming (b :: l) hash id =
      if confirmsHeader hash id b then some b.hash else scanConfirming l hash id := by
  rw [scanConfirming, List.find?_cons]
  split_ifs with h <;> simp [h, scanConfirming]

theorem scanConfirming_eq_none {l : List RootBlock} {hash : Hash} {id : ℕ} :
    scanConfirming l hash id = none ↔ ∀ b ∈ l, confirmsHeader hash id b = false := by
  simp [scanConfirming]

theorem scanConfirming_eq_some {l : List RootBlock} {hash r : Hash} {id : ℕ}
    (h : scanConfirming l hash id = some r) : ∃ b ∈ l, b.hash = r := by
  obtain ⟨b, hb, hr⟩ := Option.map_eq_some_iff.mp h
  exact ⟨b, List.mem_of_find?_eq_some hb, hr⟩

theorem confirmsHeader_iff {b : RootBlock} {hash : Hash} {id : ℕ} :
    confirmsHeader hash id b = true ↔
      ∃ h ∈ b.minorBlockHeaders, h.hash = hash ∧ h.branch.value = id := by
  simp only [confirmsHeader, List.any_eq_true, decide_eq_true_eq, @eq_comm _ hash, @eq_comm _ id]

/-! ### What inserting a block changes -/

namespace IndexedChain

variable {q : QuarkChainConfig} {s : IndexedChain} {b : RootBlock} {id : ℕ}

theorem foldl_putConfirming (rHash : Hash) (l : List MinorBlockHeader)
    (confirming : Hash → ℕ → Option Hash) (hash : Hash) (id : ℕ) :
    l.foldl (putConfirming rHash) confirming hash id =
      if l.any fun h => hash = h.hash ∧ id = h.branch.value then some rHash
      else confirming hash id := by
  induction l generalizing confirming with
  | nil => rfl
  | cons h l ih =>
    rw [List.foldl_cons, ih, List.any_cons, putConfirming]
    cases l.any fun h => hash = h.hash ∧ id = h.branch.value with
    | true => simp only [Bool.or_true, if_true]
    | false => simp only [Bool.or_false, decide_eq_true_eq, Bool.false_eq_true, if_false]

theorem insert_confirming (hash : Hash) (id : ℕ) : (s.insert q b).confirming hash id =
    if confirmsHeader hash id b then some b.hash else s.confirming hash id :=
  foldl_putConfirming ..

theorem insert_cnt_of_ne (hne : height ≠ b.number) (id : ℕ) :
    (s.insert q b).minorBlockCnt id height = s.minorBlockCnt id height := by
  simp [insert, hne]

theorem insert_cnt_self (id : ℕ) : (s.insert q b).minorBlockCnt id b.number =
    (s.shardRecipientCnt q b id).or (s.minorBlockCnt id b.number) := by
  simp [insert]

theorem insert_cnt_isSome (h : (s.minorBlockCnt id height).isSome = true) :
    ((s.insert q b).minorBlockCnt id height).isSome = true := by
  by_cases hne : height = b.number
  · subst hne
    rw [insert_cnt_self, Option.isSome_or, h, Bool.or_true]
  · rwa [insert_cnt_of_ne hne]

section Branch

variable (l : List RootBlock)

theorem foldr_chain : (l.foldr (fun b s => s.insert q b) s).chain =
    l.foldr (fun b s => s.insert b) s.chain := by
  induction l with
  | nil => rfl
  | cons b l ih => rw [List.foldr_cons, List.foldr_cons, ← ih]; rfl

theorem foldr_confirming (hash : Hash) (id : ℕ) :
    (l.foldr (fun b s => s.insert q b) s).confirming hash id =
      (scanConfirming l hash id).or (s.confirming hash id) := by
  induction l with
  | nil => rfl
  | cons b l ih =>
    rw [List.foldr_cons, insert_confirming, ih, scanConfirming_cons]
    split_ifs <;> rfl

theorem foldr_cnt_isSome (h : (s.minorBlockCnt id height).isSome = true) :
    ((l.foldr (fun b s => s.insert q b) s).minorBlockCnt id height).isSome = true := by
  induction l with
  | nil => exact h
  | cons b l ih => exact insert_cnt_isSome ih

variable {l}

theorem foldr_cnt_of_ne (hne : ∀ b ∈ l, height ≠ b.number) (id : ℕ) :
    (l.foldr (fun b s => s.insert q b) s).minorBlockCnt id height = s.minorBlockCnt id height := by
  induction l with
  | nil => rfl
  | cons b l ih =>
    rw [List.foldr_cons, insert_cnt_of_ne (hne b List.mem_cons_self)]
    exact ih fun c hc => hne c (List.mem_cons_of_mem _ hc)

end Branch

end IndexedChain

/-- Counts are only kept where `GetBlockCount` looks. -/
def Visible (q : QuarkChainConfig) (s : IndexedChain) : Prop :=
  ∀ id height, (s.minorBlockCnt id height).isSome = true →
    id ∈ q.getInitializedShardIdsBeforeRootHeight height

/-- Every minor block in a root block is of a shard that is initialised at its height. -/
def Initialized (q : QuarkChainConfig) (b : RootBlock) : Prop :=
  ∀ h ∈ b.minorBlockHeaders, h.branch.value ∈ q.getInitializedShardIdsBeforeRootHeight b.number

namespace Visible

variable {q : QuarkChainConfig} {s : IndexedChain} {b : RootBlock}

theorem getBlockCount (hs : Visible q s) (height id : ℕ) :
    s.getBlockCount q height id = s.minorBlockCnt id height := by
  rw [IndexedChain.getBlockCount]
  split_ifs with hinit
  · rfl
  · symm
    rw [← Option.not_isSome_iff_eq_none]
    exact fun hsome => hinit (hs id height hsome)

theorem insert (hs : Visible q s) (hb : Initialized q b) : Visible q (s.insert q b) := by
  intro id height hsome
  by_cases hne : height = b.number
  · subst hne
    rw [IndexedChain.insert_cnt_self, Option.isSome_or, Bool.or_eq_true] at hsome
    rcases hsome with hcount | hold
    · rcases countHeader_isSome _ hcount with hstart | ⟨h, hh, rfl⟩
      · split_ifs at hstart with hpos
        · rw [hs.getBlockCount] at hstart
          exact (q.getInitializedShardIdsBeforeRootHeight_mono (Nat.sub_le _ _)).subset
            (hs _ _ hstart)
        · cases hstart
      · exact hb h hh
    · exact hs _ _ hold
  · rw [IndexedChain.insert_cnt_of_ne hne] at hsome
    exact hs id height hsome

theorem foldr (hs : Visible q s) {l : List RootBlock} (hl : ∀ b ∈ l, Initialized q b) :
    Visible q (l.foldr (fun b s => s.insert q b) s) := by
  induction l with
  | nil => exact hs
  | cons b l ih =>
    exact (ih fun c hc => hl c (List.mem_cons_of_mem _ hc)).insert (hl b List.mem_cons_self)

end Visible

/-- Some block of the chain up to `b` lists a minor block of the shard. -/
def Counted (get : Hash → Option RootBlock) (b : RootBlock) (id : ℕ) : Prop :=
  ∃ c, Descends get c b ∧ ∃ h ∈ c.minorBlockHeaders, h.branch.value = id

/-- At the height of every block of the chain up to `b`, the counts are those of the chain up to there. -/
def CountsTo (get : Hash → Option RootBlock) (s : IndexedChain) (b : RootBlock) : Prop :=
  ∀ c l, Descends get c b → Column get c l → ∀ id, s.minorBlockCnt id c.number = scanCounts l id

section Counts

variable {get : Hash → Option RootBlock} {q : QuarkChainConfig} {s : IndexedChain}
  {b c p : RootBlock} {l : List RootBlock} {id : ℕ}

theorem Counted.mono (h : Counted get c id) (hd : Descends get c b) : Counted get b id := by
  obtain ⟨e, he, hh⟩ := h
  exact ⟨e, he.trans hd, hh⟩

theorem counted_iff (hc : Consistent get) (hb : get b.hash = some b) (hl : Column get b l) :
    (scanCounts l id).isSome = true ↔ Counted get b id := by
  rw [scanCounts_isSome]
  constructor
  · rintro ⟨e, he, hh⟩
    exact ⟨e, hl.mem_descends he, hh⟩
  · rintro ⟨e, he, hh⟩
    exact ⟨e, hl.descends_mem hc hb he, hh⟩

theorem shardRecipientCnt_eq (hs : Visible q s) (hn : b.number = p.number + 1)
    (hcounts : CountsTo get s p) (hl : Column get p l) :
    s.shardRecipientCnt q b id = scanCounts (b :: l) id := by
  have hstart : Tallies (s.getBlockCount q p.number) (l.flatMap RootBlock.minorBlockHeaders) := by
    intro id
    rw [hs.getBlockCount]
    exact hcounts p l .refl hl id
  rw [IndexedChain.shardRecipientCnt, if_pos (by omega), hn, Nat.add_sub_cancel,
    hstart.foldl b.minorBlockHeaders id, scanCounts, List.flatMap_cons]
  exact tally_perm (((List.reverse_perm _).append_right _).filter _)

/-- **One block.**  A block on top of a chain whose counts are right gets its own right, unless an entry
of a shard that its chain has not counted is left at its height. -/
theorem countsTo_insert (hc : Consistent get) (hb : get b.hash = some b) (hs : Visible q s)
    (hp : get b.parentHash = some p) (hn : b.number = p.number + 1) (hcounts : CountsTo get s p)
    (hleft : ∀ id, (s.minorBlockCnt id b.number).isSome = true → Counted get b id) :
    CountsTo get (s.insert q b) b := by
  intro d l hd hl id
  cases hd with
  | refl =>
    have hcounted := @counted_iff get b l id hc hb hl
    obtain ⟨lp, rfl, hlp⟩ := hl.parent hp hn
    rw [IndexedChain.insert_cnt_self, shardRecipientCnt_eq hs hn hcounts hlp]
    cases hscan : scanCounts (b :: lp) id with
    | some counts => rfl
    | none =>
      rw [Option.none_or, ← Option.not_isSome_iff_eq_none]
      intro hsome
      have hno := hcounted.mpr (hleft id hsome)
      rw [hscan] at hno
      cases hno
  | step hp' hd' =>
    rw [show parentHash b = b.parentHash from rfl, hp] at hp'
    cases hp'
    have hle : d.number ≤ p.number := hc.number_le hp hd'
    rw [IndexedChain.insert_cnt_of_ne (by omega)]
    exact hcounts d l hd' hl id

/-- **A branch.** -/
theorem countsTo_foldr (hc : Consistent get) (hstored : ∀ d ∈ l, get d.hash = some d)
    (hseg : Segment get b l c) (hs : Visible q s) (hinit : ∀ d ∈ l, Initialized q d)
    (hcounts : CountsTo get s c)
    (hleft : ∀ d ∈ l, ∀ id, (s.minorBlockCnt id d.number).isSome = true → Counted get d id) :
    CountsTo get (l.foldr (fun b s => s.insert q b) s) b := by
  induction hseg with
  | nil _ => exact hcounts
  | @cons b p c l hp hn hseg ih =>
    have htail := fun d (hd : d ∈ l) => List.mem_cons_of_mem b hd
    have hlower : ∀ d ∈ l, b.number ≠ d.number := by
      intro d hd
      have hle : d.number ≤ p.number := hc.number_le hp (hseg.mem_descends hd)
      have hn' : b.number = p.number + 1 := hn
      omega
    refine countsTo_insert hc (hstored b List.mem_cons_self)
      (hs.foldr fun d hd => hinit d (htail d hd)) hp hn
      (ih (fun d hd => hstored d (htail d hd)) (fun d hd => hinit d (htail d hd)) hcounts
        fun d hd => hleft d (htail d hd)) ?_
    intro id hsome
    rw [IndexedChain.foldr_cnt_of_ne hlower] at hsome
    exact hleft b List.mem_cons_self id hsome

end Counts

/-- What holds along a run as long as the indexes are exact.  Above the head nothing is known of the
counts that are left, except that their shards are still counted. -/
structure Tracked (g : RootBlock) (q : QuarkChainConfig) (s : IndexedChain) : Prop where
  wf : Wf g s.chain
  initialized : ∀ k c, s.chain.getBlock k = some c → Initialized q c
  visible : Visible q s
  confirming : ∀ l, Column s.chain.getBlock s.chain.currentBlock l →
    ∀ hash id, s.confirming hash id = scanConfirming l hash id
  counts : CountsTo s.chain.getBlock s s.chain.currentBlock
  above : ∀ id height, s.chain.currentBlock.number < height →
    (s.minorBlockCnt id height).isSome = true → Counted s.chain.getBlock s.chain.currentBlock id

/-- What a winning block has to meet for nothing to be left over when it replaces a head. -/
structure Covers (get : Hash → Option RootBlock) (old b : RootBlock) : Prop where
  /-- A minor block that an abandoned block confirms is confirmed by a block that is entered. -/
  headers : ∀ c, Descends get c old → ¬Descends get c b → ∀ h ∈ c.minorBlockHeaders,
    ∃ c', Descends get c' b ∧ (c' = b ∨ ¬Descends get c' old) ∧
      ∃ h' ∈ c'.minorBlockHeaders, h'.hash = h.hash ∧ h'.branch.value = h.branch.value
  /-- At equal heights the new chain has counted every shard that the old one had. -/
  shards : ∀ d d', Descends get d old → Descends get d' b → d.number = d'.number →
    ∀ id, Counted get d id → Counted get d' id

/-- A block that continues the head leaves nothing over. -/
theorem covers_extend {get : Hash → Option RootBlock} {old b : RootBlock} (hc : Consistent get)
    (hb : get b.hash = some b) (hd : Descends get old b) : Covers get old b where
  headers c hold hnew := absurd (hold.trans hd) hnew
  shards d d' hold hnew hnum id hcount := by
    have hat := hc.atHeight_of_descends hb (hold.trans hd)
    have hat' := hc.atHeight_of_descends hb hnew
    rw [show number d = number d' from hnum, hat'] at hat
    rwa [← Option.some.inj hat] at hcount

namespace Tracked

variable {g b p : RootBlock} {q : QuarkChainConfig} {s : IndexedChain} {c : RootBlock}

variable (hs : Tracked g q s)
include hs

theorem exact : Exact q s where
  confirming := hs.confirming
  counts c l hd hl id := by
    rw [hs.visible.getBlockCount]
    exact hs.counts c l hd hl id

theorem congr {chain : RootBlockChain}
    (hget : chain.getBlock = s.chain.getBlock) (hcur : chain.currentBlock = s.chain.currentBlock) :
    Tracked g q { s with chain := chain } := by
  obtain ⟨hwf, hinit, hvisible, hconf, hcounts, habove⟩ := hs
  refine ⟨hwf.congr hget hcur, ?_, hvisible, ?_, ?_, ?_⟩ <;> simp only [hget, hcur]
  · exact hinit
  · exact hconf
  · exact hcounts
  · exact habove

theorem store_column (hb : Genuine g s.chain b)
    {l : List RootBlock} (hc : s.chain.getBlock c.hash = some c)
    (hl : Column (s.chain.writeRootBlock b).getBlock c l) : Column s.chain.getBlock c l := by
  obtain ⟨l', hl'⟩ := Column.of_rooted (hs.wf.rooted hc)
  rwa [hl.unique (hl'.mono (Wf.store_mono hb))]

theorem store_descends (hb : Genuine g s.chain b)
    (hcons : Consistent (s.chain.writeRootBlock b).getBlock) (hc : s.chain.getBlock c.hash = some c)
    (hd : Descends (s.chain.writeRootBlock b).getBlock d c) : Descends s.chain.getBlock d c := by
  have hmono := Wf.store_mono hb
  obtain ⟨l, hl⟩ := Column.of_rooted (hs.wf.rooted hc)
  exact hl.mem_descends ((hl.mono hmono).descends_mem hcons (hmono _ _ hc) hd)

theorem store (hb : Genuine g s.chain b)
    (hp : s.chain.getBlock b.parentHash = some p) (hn : b.number = p.number + 1)
    (hinit : Initialized q b) : Tracked g q (s.writeRootBlock b) := by
  have hmono := Wf.store_mono hb
  have hwf : Wf g (s.writeRootBlock b).chain := hs.wf.store hb hp hn rfl (.inr rfl)
  have hstored : ∀ c, Descends (s.chain.writeRootBlock b).getBlock c s.chain.currentBlock →
      Descends s.chain.getBlock c s.chain.currentBlock ∧ s.chain.getBlock c.hash = some c := by
    intro c hd
    have hold := hs.store_descends hb hwf.consistent hs.wf.current hd
    exact ⟨hold, hs.wf.consistent.stored_of_descends hs.wf.current hold⟩
  refine ⟨hwf, ?_, hs.visible, ?_, ?_, ?_⟩
  · intro k c hc
    rcases store_cases hc with ⟨-, rfl⟩ | hold
    · exact hinit
    · exact hs.initialized k c hold
  · exact fun l hl => hs.confirming l (hs.store_column hb hs.wf.current hl)
  · intro c l hd hl
    obtain ⟨hold, hc⟩ := hstored c hd
    exact hs.counts c l hold (hs.store_column hb hc hl)
  · intro id height hlt hsome
    obtain ⟨c, hd, hh⟩ := hs.above id height hlt hsome
    exact ⟨c, hd.mono hmono, hh⟩

theorem cnt_isSome {id : ℕ} (hd : Descends s.chain.getBlock c s.chain.currentBlock) :
    (s.minorBlockCnt id c.number).isSome = true ↔ Counted s.chain.getBlock c id := by
  have hc := hs.wf.consistent.stored_of_descends hs.wf.current hd
  obtain ⟨l, hl⟩ := Column.of_rooted (hs.wf.rooted hc)
  rw [hs.counts c l hd hl, counted_iff hs.wf.consistent hc hl]

end Tracked

/-! ### Entering a branch -/

section Enter

variable {g b c p : RootBlock} {q : QuarkChainConfig} {s : IndexedChain} {lo ln : List RootBlock}

theorem tracked_extend (hs : Tracked g q s) (hb : s.chain.getBlock b.hash = some b)
    (hparent : b.parentHash = s.chain.currentBlock.hash)
    (hn : b.number = s.chain.currentBlock.number + 1) : Tracked g q (s.insert q b) := by
  have hp : s.chain.getBlock b.parentHash = some s.chain.currentBlock := by
    rw [hparent]
    exact hs.wf.current
  have hd : Descends s.chain.getBlock s.chain.currentBlock b := .step hp .refl
  have hinit := hs.initialized _ _ hb
  refine ⟨hs.wf.move rfl hb, hs.initialized, hs.visible.insert hinit, ?_, ?_, ?_⟩
  · intro l hl hash id
    obtain ⟨lp, rfl, hlp⟩ := Column.parent hl hp hn
    rw [IndexedChain.insert_confirming, hs.confirming lp hlp, scanConfirming_cons]
    rfl
  · refine countsTo_insert hs.wf.consistent hb hs.visible hp hn hs.counts fun id hsome => ?_
    exact (hs.above id b.number (by omega) hsome).mono hd
  · intro id height hlt hsome
    have hlt' : b.number < height := hlt
    rw [IndexedChain.insert_cnt_of_ne (by omega)] at hsome
    exact (hs.above id height (by omega) hsome).mono hd

/-- The indexes after the branch `ln` and its top `b` have been inserted. -/
def enter (q : QuarkChainConfig) (s : IndexedChain) (ln : List RootBlock) (b : RootBlock) : IndexedChain :=
  (ln.foldr (fun b s => s.insert q b) s).insert q b

theorem enter_getBlock : (enter q s ln b).chain.getBlock = s.chain.getBlock := by
  show (ln.foldr (fun b s => s.insert q b) s).chain.getBlock = _
  rw [IndexedChain.foldr_chain]
  exact (RootBlockChain.foldr_insert ln).2.1

theorem enter_confirming (hash : Hash) (id : ℕ) : (enter q s ln b).confirming hash id =
    if confirmsHeader hash id b then some b.hash
    else (scanConfirming ln hash id).or (s.confirming hash id) := by
  rw [enter, IndexedChain.insert_confirming, IndexedChain.foldr_confirming]

variable (hs : Tracked g q s) (hb : s.chain.getBlock b.hash = some b)
include hs hb

/-- Under a winner that covers the old chain, the entries left at the heights of its branch are of shards
that its chain has counted. -/
theorem counted_of_left (hcov : Covers s.chain.getBlock s.chain.currentBlock b)
    (hd : Descends s.chain.getBlock d b) {id : ℕ}
    (hsome : (s.minorBlockCnt id d.number).isSome = true) : Counted s.chain.getBlock d id := by
  have hcons := hs.wf.consistent
  rcases Nat.lt_or_ge s.chain.currentBlock.number d.number with hlt | hle
  · -- above the old head, where only shards counted there are left
    have hcount := hs.above id d.number hlt hsome
    have hds := hcons.stored_of_descends hb hd
    obtain ⟨d', hat, hnum⟩ := (hs.wf.rooted hds).atHeight_exists (Nat.le_of_lt hlt)
    have hd' := descends_of_atHeight hat
    exact (hcov.shards _ d' .refl (hd'.trans hd) hnum.symm id hcount).mono hd'
  · obtain ⟨e, hat, hnum⟩ := (hs.wf.rooted hs.wf.current).atHeight_exists hle
    have he := descends_of_atHeight hat
    rw [show d.number = e.number from hnum.symm, hs.cnt_isSome he] at hsome
    exact hcov.shards e d he hd hnum id hsome

variable (hlo : Segment s.chain.getBlock s.chain.currentBlock lo c)
  (hln : Segment s.chain.getBlock b ln c)
include hlo hln

theorem mem_branch_or_common (hd : Descends s.chain.getBlock d b) :
    d ∈ ln ∨ Descends s.chain.getBlock d c := by
  have hcs := hs.wf.consistent.stored_of_descends hs.wf.current hlo.descends
  obtain ⟨lc, hlc⟩ := Column.of_rooted (hs.wf.rooted hcs)
  exact (List.mem_append.mp ((Column.append hln hlc).descends_mem hs.wf.consistent hb hd)).imp_right
    fun hmem => hlc.mem_descends hmem

theorem countsTo_enter (hp : s.chain.getBlock b.parentHash = some p) (hn : b.number = p.number + 1)
    (hcov : Covers s.chain.getBlock s.chain.currentBlock b) :
    CountsTo s.chain.getBlock (enter q s ln b) b := by
  have hcons := hs.wf.consistent
  have hstored : ∀ d ∈ ln, s.chain.getBlock d.hash = some d := fun d hd =>
    hcons.stored_of_descends hb (hln.mem_descends hd)
  have hinit : ∀ d ∈ ln, Initialized q d := fun d hd => hs.initialized _ _ (hstored d hd)
  have hbranch := countsTo_foldr hcons hstored hln hs.visible hinit
    (fun d l hd => hs.counts d l (hd.trans hlo.descends))
    fun d hd id => counted_of_left hs hb hcov (hln.mem_descends hd)
  refine countsTo_insert hcons hb (hs.visible.foldr hinit) hp hn
    (fun d l hd => hbranch d l (hd.trans (.step hp .refl))) fun id hsome => ?_
  obtain ⟨l, hl⟩ := Column.of_rooted (hs.wf.rooted hb)
  rwa [hbranch b l .refl hl, counted_iff hcons hb hl] at hsome

theorem confirming_enter (hcov : Covers s.chain.getBlock s.chain.currentBlock b)
    {l : List RootBlock} (hl : Column s.chain.getBlock b l) (hash : Hash) (id : ℕ) :
    (enter q s ln b).confirming hash id = scanConfirming l hash id := by
  have hcons := hs.wf.consistent
  have hcs := hcons.stored_of_descends hs.wf.current hlo.descends
  obtain ⟨lc, hlc⟩ := Column.of_rooted (hs.wf.rooted hcs)
  have hnew := Column.append hln hlc
  rw [enter_confirming]
  split_ifs with hconf
  · obtain ⟨t, rfl⟩ := hl.eq_cons
    rw [scanConfirming_cons, if_pos hconf]
  rw [hs.confirming _ (Column.append hlo hlc), hl.unique hnew, scanConfirming_append,
    scanConfirming_append]
  cases hscan : scanConfirming ln hash id with
  | some r => rfl
  | none =>
    -- nothing of the old branch is left: it would be confirmed by the new one
    have hold : scanConfirming lo hash id = none := by
      rw [scanConfirming_eq_none] at hscan ⊢
      intro e he
      rw [← Bool.not_eq_true]
      intro hecon
      obtain ⟨h, hh, rfl, rfl⟩ := confirmsHeader_iff.mp hecon
      by_cases hed : Descends s.chain.getBlock e b
      · rcases mem_branch_or_common hs hb hlo hln hed with hmem | hcommon
        · exact Bool.false_ne_true ((hscan e hmem).symm.trans hecon)
        · have hle := hcons.number_le hcs hcommon
          have hlt := hlo.mem_number he
          omega
      · obtain ⟨c', hc', hentered, h', hh', hhash, hid⟩ := hcov.headers e (hlo.mem_descends he) hed h hh
        have hconf' := confirmsHeader_iff.mpr ⟨h', hh', hhash, hid⟩
        rcases mem_branch_or_common hs hb hlo hln hc' with hmem | hcommon
        · exact Bool.false_ne_true ((hscan c' hmem).symm.trans hconf')
        · rcases hentered with rfl | hnot
          · exact hconf hconf'
          · exact hnot (hcommon.trans hlo.descends)
    rw [hold, Option.none_or]

/-- **Covered, nothing is left over.** -/
theorem tracked_enter (hp : s.chain.getBlock b.parentHash = some p) (hn : b.number = p.number + 1)
    (hcov : Covers s.chain.getBlock s.chain.currentBlock b) : Tracked g q (enter q s ln b) := by
  have hcons := hs.wf.consistent
  have hget := @enter_getBlock b q s ln
  have hinit : ∀ d ∈ ln, Initialized q d := fun d hd =>
    hs.initialized _ _ (hcons.stored_of_descends hb (hln.mem_descends hd))
  -- a shard counted on the old chain is counted on the new one
  have hkept : ∀ id, Counted s.chain.getBlock s.chain.currentBlock id → Counted s.chain.getBlock b id := by
    rintro id ⟨e, he, h, hh, rfl⟩
    by_cases hed : Descends s.chain.getBlock e b
    · exact ⟨e, hed, h, hh, rfl⟩
    · obtain ⟨c', hc', -, h', hh', -, hid⟩ := hcov.headers e he hed h hh
      exact ⟨c', hc', h', hh', hid⟩
  have hcur : (enter q s ln b).chain.currentBlock = b := rfl
  refine ⟨hs.wf.move hget hb, ?_, (hs.visible.foldr hinit).insert (hs.initialized _ _ hb), ?_, ?_, ?_⟩
  · rw [hget]
    exact hs.initialized
  · rw [hget, hcur]
    exact fun l hl => confirming_enter hs hb hlo hln hcov hl
  · rw [hget, hcur]
    exact countsTo_enter hs hb hlo hln hp hn hcov
  · rw [hget, hcur]
    intro id height hlt hsome
    have hhigh : ∀ d ∈ ln, height ≠ d.number := by
      intro d hd
      have hle : d.number ≤ b.number := hcons.number_le hb (hln.mem_descends hd)
      omega
    rw [enter, IndexedChain.insert_cnt_of_ne (by omega), IndexedChain.foldr_cnt_of_ne hhigh] at hsome
    refine hkept id ?_
    rcases Nat.lt_or_ge s.chain.currentBlock.number height with habove | hle
    · exact hs.above id height habove hsome
    obtain ⟨e, hat, hnum⟩ := (hs.wf.rooted hs.wf.current).atHeight_exists hle
    have he := descends_of_atHeight hat
    rw [show height = e.number from hnum.symm, hs.cnt_isSome he] at hsome
    exact hsome.mono he

/-- **Exact indexes show that the old chain was covered.** -/
theorem covers_of_exact (hnot : ∀ e ∈ ln, ¬Descends s.chain.getBlock e s.chain.currentBlock)
    (hex : Exact q (enter q s ln b)) : Covers s.chain.getBlock s.chain.currentBlock b := by
  have hcons := hs.wf.consistent
  have hcs := hcons.stored_of_descends hs.wf.current hlo.descends
  obtain ⟨lc, hlc⟩ := Column.of_rooted (hs.wf.rooted hcs)
  have hget := @enter_getBlock b q s ln
  have hcur : (enter q s ln b).chain.currentBlock = b := rfl
  obtain ⟨hconf, hcounts⟩ := hex
  rw [hget, hcur] at hconf hcounts
  constructor
  · intro e he hed h hh
    by_contra hno
    have hout : ∀ c', Descends s.chain.getBlock c' b →
        (c' = b ∨ ¬Descends s.chain.getBlock c' s.chain.currentBlock) →
        confirmsHeader h.hash h.branch.value c' = false := by
      intro c' hc' hentered
      rw [← Bool.not_eq_true]
      intro hconf'
      exact hno ⟨c', hc', hentered, confirmsHeader_iff.mp hconf'⟩
    have hnew : scanConfirming ln h.hash h.branch.value = none :=
      scanConfirming_eq_none.mpr fun d hd => hout d (hln.mem_descends hd) (.inr (hnot d hd))
    have hentry := hconf _ (Column.append hln hlc) h.hash h.branch.value
    rw [enter_confirming, if_neg (by rw [hout b .refl (.inl rfl)]; exact Bool.false_ne_true),
      scanConfirming_append, hnew, Option.none_or, Option.none_or,
      hs.confirming _ (Column.append hlo hlc), scanConfirming_append] at hentry
    have hmem : e ∈ lo := by
      rcases List.mem_append.mp ((Column.append hlo hlc).descends_mem hcons hs.wf.current he) with
        hmem | hmem
      · exact hmem
      · exact absurd ((hlc.mem_descends hmem).trans hln.descends) hed
    cases hold : scanConfirming lo h.hash h.branch.value with
    | none =>
      have hconf' := confirmsHeader_iff.mpr ⟨h, hh, rfl, rfl⟩
      exact Bool.false_ne_true ((scanConfirming_eq_none.mp hold e hmem).symm.trans hconf')
    | some r =>
      -- the entry of an abandoned block is not one of the common part
      rw [hold, Option.some_or] at hentry
      obtain ⟨x, hx, hxr⟩ := scanConfirming_eq_some hold
      obtain ⟨y, hy, hyr⟩ := scanConfirming_eq_some hentry.symm
      have hyc := hlc.mem_descends hy
      have hxs := hcons.stored_of_descends hs.wf.current (hlo.mem_descends hx)
      have hys := hcons.stored_of_descends hcs hyc
      have hxy : x = y := Consistent.eq_of_hash_eq hxs hys (hxr.trans hyr.symm)
      have hlt := hlo.mem_number hx
      have hle := hcons.number_le hcs hyc
      rw [hxy] at hlt
      omega
  · intro d d' hd hd' hnum id hcount
    have hold := (hs.cnt_isSome hd).mpr hcount
    have hds := hcons.stored_of_descends hb hd'
    obtain ⟨l, hl⟩ := Column.of_rooted (hs.wf.rooted hds)
    rw [← counted_iff hcons hds hl, ← hcounts d' l hd' hl, IndexedChain.getBlockCount, ← hnum,
      if_pos (hs.visible id d.number hold)]
    exact IndexedChain.insert_cnt_isSome (IndexedChain.foldr_cnt_isSome ln hold)

end Enter

/-- A winner covers the chain that it replaces. -/
def WinnerCovers (s : RootBlockChain) (b : RootBlock) : Prop :=
  s.wins b = true → Covers (s.writeRootBlock b).getBlock s.currentBlock b

theorem tracked_write {g b p : RootBlock} {q : QuarkChainConfig} {s : IndexedChain}
    (hs : Tracked g q s) (hb : Genuine g s.chain b) (hp : s.chain.getBlock b.parentHash = some p)
    (hn : b.number = p.number + 1) (hinit : Initialized q b) :
    (WinnerCovers s.chain b → Tracked g q (s.writeBlockWithState q b).2) ∧
      (Exact q (s.writeBlockWithState q b).2 → WinnerCovers s.chain b) := by
  have hs' := hs.store hb hp hn hinit
  have hself : (s.writeRootBlock b).chain.getBlock b.hash = some b := Function.update_self ..
  have hp' : (s.writeRootBlock b).chain.getBlock b.parentHash = some p := Wf.store_mono hb _ _ hp
  rw [IndexedChain.writeBlockWithState, WinnerCovers]
  by_cases hwins : s.chain.wins b = true
  · rw [if_pos hwins]
    by_cases hparent : b.parentHash = s.chain.currentBlock.hash
    · have hnum : b.number = s.chain.currentBlock.number + 1 := by
        rw [hparent, hs.wf.current] at hp
        rw [hn, Option.some.inj hp]
      rw [if_pos hparent]
      have hd : Descends (s.writeRootBlock b).chain.getBlock s.chain.currentBlock b := by
        refine .step ?_ .refl
        rw [show parentHash b = s.chain.currentBlock.hash from hparent]
        exact hs'.wf.current
      exact ⟨fun _ => tracked_extend hs' hself hparent hnum,
        fun _ _ => covers_extend hs'.wf.consistent hself hd⟩
    · rw [if_neg hparent, IndexedChain.reorg]
      obtain ⟨r, hr⟩ := fork_writeRootBlock hs.wf hb hp hn
      rw [show fork (s.writeRootBlock b).chain.getBlock s.chain.currentBlock b = .ok r from hr]
      obtain ⟨hlo, hln⟩ := fork_segments hs'.wf.consistent hs'.wf.current hself hr
      exact ⟨fun hcov => tracked_enter hs' hself hlo hln hp' hn (hcov hwins),
        fun hex _ => covers_of_exact hs' hself hlo hln
          (fun e he => fork_new_not_descends hs'.wf.consistent hs'.wf.current hself hr he) hex⟩
  · rw [if_neg hwins]
    exact ⟨fun _ => hs', fun _ hw => absurd hw hwins⟩

/-- One step of a run with counting enabled; only an accepted block touches the indexes. -/
inductive IndexedStep (n : Setup) : IndexedChain → Event → IndexedChain → Prop
  | accepted {ord : MapOrder} {s : IndexedChain} {s₁ : RootBlockChain} {b : RootBlock}
      (hv : n.validateBlock ord s.chain b s.chain.isCheckDB = .ok s₁)
      (ho : n.isTooOld s₁ b = false) :
      IndexedStep n s (.accepted b)
        (IndexedChain.writeBlockWithState n.config.quarkchain { s with chain := s₁ } b).2
  | other {s : IndexedChain} {e : Event} {chain : RootBlockChain} (he : ∀ b, e ≠ .accepted b)
      (hstep : Step n s.chain e chain) : IndexedStep n s e { s with chain := chain }

/-- The genesis block confirms nothing. -/
def IndexedChain.genesis (g : RootBlock) (minorBlockCoinbase : Hash → Option TokenMap) :
    IndexedChain where
  chain := .genesis g minorBlockCoinbase
  confirming _ _ := none
  minorBlockCnt _ _ := none

/-- The guard of a run whose blocks are genuine and whose winners cover what they replace. -/
def Covering (g : RootBlock) (s : IndexedChain) : Event → Prop
  | .accepted b => Genuine g s.chain b ∧ WinnerCovers s.chain b
  | .dropped _ => True
  | .reported _ _ => True
  | .checkDB _ => True

section Run

variable {g b : RootBlock} {n : Setup} {s s' : IndexedChain}

theorem tracked_genesis (hg : IsGenesis g) (q : QuarkChainConfig)
    (coinbase : Hash → Option TokenMap) : Tracked g q (.genesis g coinbase) := by
  have hwf := Wf.start hg.number_eq hg.ne_empty hg.parent_ne coinbase
  have hcolumn : ∀ c l, Descends (RootBlockChain.genesis g coinbase).getBlock c g →
      Column (RootBlockChain.genesis g coinbase).getBlock c l → l = [g] := by
    intro c l hd hl
    have hc : c = g := by
      have hmem := (Column.zero hg.number_eq).descends_mem hwf.consistent hwf.genesis hd
      exact List.mem_singleton.mp hmem
    subst hc
    exact hl.eq_of_zero hg.number_eq
  refine ⟨hwf, ?_, ?_, ?_, ?_, ?_⟩
  · intro k c hc h hh
    rw [(RootBlockChain.genesis_getBlock hc).2, hg.no_headers] at hh
    cases hh
  · intro id height hsome
    cases hsome
  · intro l hl hash id
    rw [hcolumn g l .refl hl]
    simp [IndexedChain.genesis, scanConfirming, confirmsHeader, hg.no_headers]
  · intro c l hd hl id
    rw [hcolumn c l hd hl]
    simp [IndexedChain.genesis, scanCounts, hg.no_headers, ofShard, tally]
  · intro id height _ hsome
    cases hsome

theorem Accepted.initialized {s : RootBlockChain} {force : Bool} (ha : Accepted n s b force) :
    Initialized n.config.quarkchain b := by
  intro h hh
  refine (ha.shards h.branch.value fun hnil => ?_).initialized
  have hmem : h ∈ ofShard b.minorBlockHeaders h.branch.value := mem_ofShard.mpr ⟨hh, rfl⟩
  rw [hnil] at hmem
  cases hmem

/-- **One step.**  A genuine block keeps the indexes exact just when it covers what it replaces. -/
theorem tracked_step {e : Event} (hs : Tracked g n.config.quarkchain s) (hstep : IndexedStep n s e s')
    (hgen : ∀ b, e = .accepted b → Genuine g s.chain b) :
    ((∀ b, e = .accepted b → WinnerCovers s.chain b) → Tracked g n.config.quarkchain s') ∧
      (Exact n.config.quarkchain s' → ∀ b, e = .accepted b → WinnerCovers s.chain b) := by
  cases hstep with
  | @accepted ord s s₁ b hv ho =>
    obtain ⟨hget, hcur, -⟩ := validateBlock_frame hv
    have ha := validateBlock_ok_iff.mp ⟨s₁, hv⟩
    obtain ⟨p, hp, hn⟩ := ha.parent
    have hcovers : WinnerCovers s₁ b ↔ WinnerCovers s.chain b := by
      rw [WinnerCovers, WinnerCovers, RootBlockChain.wins, RootBlockChain.wins,
        RootBlockChain.writeRootBlock, RootBlockChain.writeRootBlock, hget, hcur]
    obtain ⟨hsuff, hnec⟩ := tracked_write (hs.congr hget hcur) ((hgen b rfl).congr hget) (hget ▸ hp) hn
      ha.initialized
    refine ⟨fun h => hsuff (hcovers.mpr (h b rfl)), ?_⟩
    rintro hex c hc
    cases hc
    exact hcovers.mp (hnec hex)
  | @other s e chain he hchain =>
    have hframe : chain.getBlock = s.chain.getBlock ∧ chain.currentBlock = s.chain.currentBlock := by
      cases hchain with
      | accepted _ _ => exact absurd rfl (he _)
      | dropped hv _ => exact ⟨(validateBlock_frame hv).1, (validateBlock_frame hv).2.1⟩
      | reported _ _ _ => exact ⟨rfl, rfl⟩
      | checkDB _ _ => exact ⟨rfl, rfl⟩
    exact ⟨fun _ => hs.congr hframe.1 hframe.2, fun _ b hb => absurd hb (he b)⟩

/-- **The indexes under reorganisations.**  In every state of a run whose winners cover what they replace, the
indexes are those of a scan of the canonical chain; and any further accepted block keeps them so exactly when it
covers what it replaces. -/
theorem exact_iff (hg : IsGenesis g) (coinbase : Hash → Option TokenMap)
    (hs : Reaches (IndexedStep n) (Covering g) (.genesis g coinbase) s) :
    Exact n.config.quarkchain s ∧ ∀ b s', Genuine g s.chain b → IndexedStep n s (.accepted b) s' →
      (Exact n.config.quarkchain s' ↔ WinnerCovers s.chain b) := by
  have hinv : Tracked g n.config.quarkchain s := by
    refine hs.induct_inv (Tracked g n.config.quarkchain) (tracked_genesis hg _ coinbase) ?_
    intro s e s' hs hk hstep
    have hkeep : ∀ b, e = .accepted b → Genuine g s.chain b ∧ WinnerCovers s.chain b := by
      rintro b rfl
      exact hk
    exact (tracked_step hs hstep fun b hb => (hkeep b hb).1).1 fun b hb => (hkeep b hb).2
  refine ⟨hinv.exact, fun b s' hb hstep => ?_⟩
  obtain ⟨hsuff, hnec⟩ := tracked_step hinv hstep (by
    rintro c hc
    cases hc
    exact hb)
  constructor
  · exact fun hex => hnec hex b rfl
  · intro hcov
    refine (hsuff ?_).exact
    rintro c hc
    cases hc
    exact hcov

end Run

/-! ### What a fork leaves behind -/

/-- `insertChain` with one block. -/
def insertBlock (n : Setup) (ord : MapOrder) (s : IndexedChain) (b : RootBlock) : Option IndexedChain :=
  match n.validateBlock ord s.chain b s.chain.isCheckDB with
  | .error _ => none
  | .ok s₁ =>
      if n.isTooOld s₁ b then none
      else some (IndexedChain.writeBlockWithState n.config.quarkchain { s with chain := s₁ } b).2

theorem insertBlock_step {n : Setup} {ord : MapOrder} {s s' : IndexedChain} {b : RootBlock}
    (h : insertBlock n ord s b = some s') : IndexedStep n s (.accepted b) s' := by
  unfold insertBlock at h
  split at h
  · cases h
  next s₁ hv =>
    split_ifs at h with ho
    cases h
    exact .accepted hv (by simpa using ho)

/-- A heavier block at the height of `confirmingBlock` that confirms the same minor blocks. -/
def fastConfirming : RootBlock :=
  { fastBlock with hash := 6, minorBlockHeaders := confirmingBlock.minorBlockHeaders }

theorem descends_first {get : Hash → Option RootBlock} (hone : get 1 = some sampleGenesis) (hzero : get 0 = none)
    {b c : RootBlock} (hb : b.parentHash = 1) (hd : Descends get c b) : c = b ∨ c = sampleGenesis := by
  cases hd with
  | refl => exact .inl rfl
  | step hp hd =>
    rw [chained_parentHash, hb, hone] at hp
    cases hp
    cases hd with
    | refl => exact .inr rfl
    | step hp _ => exact absurd (hzero.symm.trans hp) (by simp)

theorem fastConfirming_covers {get : Hash → Option RootBlock} (hone : get 1 = some sampleGenesis)
    (hzero : get 0 = none) : Covers get confirmingBlock fastConfirming where
  headers c hold hnew h hh := by
    rcases descends_first hone hzero rfl hold with rfl | rfl
    · exact ⟨fastConfirming, .refl, .inl rfl, h, hh, rfl, rfl⟩
    · cases hh
  shards d d' hd hd' hnum id hcount := by
    obtain ⟨c, hc, h, hh, hid⟩ := hcount
    rcases descends_first hone hzero rfl hd with rfl | rfl
    · rcases descends_first hone hzero rfl hd' with rfl | rfl
      · rcases descends_first hone hzero rfl hc with rfl | rfl
        · exact ⟨fastConfirming, .refl, h, hh, hid⟩
        · cases hh
      · exact absurd hnum (by decide)
    · obtain rfl : c = sampleGenesis := by
        cases hc with
        | refl => rfl
        | step hp _ => exact absurd (hzero.symm.trans hp) (by simp)
      cases hh

/-- A node to which two minor blocks have been reported. -/
def reportedIndexes : IndexedChain :=
  { IndexedChain.genesis sampleGenesis fun _ => none with chain := reportedChain }

/-- A reorganisation that covers: a root block that confirms two minor blocks is replaced by a heavier one that
confirms them too, and the indexes are those of the new chain. -/
theorem fastConfirming_exact : ∃ s s',
    Reaches (IndexedStep sampleSetup) (Covering sampleGenesis) (.genesis sampleGenesis fun _ => none) s ∧
      s.chain.currentBlock = confirmingBlock ∧ IndexedStep sampleSetup s (.accepted fastConfirming) s' ∧
      s'.chain.currentBlock = fastConfirming ∧ Exact sampleSetup.config.quarkchain s' := by
  have hrun : ((insertBlock sampleSetup sampleOrder reportedIndexes confirmingBlock).any fun s =>
      s.chain.currentBlock = confirmingBlock ∧ s.chain.getBlock 0 = none ∧
        s.chain.getBlock 1 = some sampleGenesis ∧ s.chain.getBlock 6 = none ∧
        (insertBlock sampleSetup sampleOrder s fastConfirming).any fun s' =>
          s'.chain.currentBlock = fastConfirming) = true := by decide +kernel
  obtain ⟨s, hs, htest⟩ := (Option.any_eq_true _ _).mp hrun
  obtain ⟨hcur, hzero, hone, habsent, hnext⟩ := of_decide_eq_true htest
  obtain ⟨s', hs', hcur'⟩ := (Option.any_eq_true _ _).mp hnext
  have hreported : Reaches (IndexedStep sampleSetup) (Covering sampleGenesis)
      (.genesis sampleGenesis fun _ => none) reportedIndexes :=
    .step (a := .reported sampleHeader₁ ∅) (.step (a := .reported sampleHeader₀ ∅) .start trivial
      (.other (by simp) (.reported _ _ _))) trivial (.other (by simp) (.reported _ _ _))
  have hfirst : WinnerCovers reportedChain confirmingBlock := by
    intro _
    have hparent : reportedChain.getBlock confirmingBlock.parentHash = some sampleGenesis := by decide +kernel
    have hwf : Wf sampleGenesis (reportedChain.writeRootBlock confirmingBlock) :=
      (confirmed_reaches sampleGenesis_isGenesis _ reportedChain_reaches).wf.store confirmingBlock_genuine
        hparent rfl rfl (.inr rfl)
    exact covers_extend hwf.consistent (by decide +kernel)
      (.step (Wf.store_mono confirmingBlock_genuine _ _ hparent) .refl)
  have hreach : Reaches (IndexedStep sampleSetup) (Covering sampleGenesis)
      (.genesis sampleGenesis fun _ => none) s :=
    .step (a := .accepted confirmingBlock) hreported ⟨confirmingBlock_genuine, hfirst⟩ (insertBlock_step hs)
  have hgenuine : Genuine sampleGenesis s.chain fastConfirming := genuine_of_absent (by decide) habsent
  refine ⟨s, s', hreach, hcur, insertBlock_step hs', of_decide_eq_true hcur',
    ((exact_iff sampleGenesis_isGenesis _ hreach).2 _ _ hgenuine (insertBlock_step hs')).mpr fun _ => ?_⟩
  rw [hcur]
  refine fastConfirming_covers ?_ ?_
  · exact Wf.store_mono hgenuine _ _ hone
  · change Function.update s.chain.getBlock fastConfirming.hash (some fastConfirming) 0 = none
    rw [Function.update_of_ne (by decide), hzero]

/-- **A fork leaves its entries behind.**  A root block confirms two minor blocks; then a heavier one without minor
blocks replaces it. -/
theorem abandoned_block_stays_indexed :
    ∃ s s', insertBlock sampleSetup sampleOrder reportedIndexes confirmingBlock = some s ∧
      insertBlock sampleSetup sampleOrder s fastBlock = some s' ∧
      s'.chain.currentBlock = fastBlock ∧ fastBlock.minorBlockHeaders = [] ∧
      s'.confirming sampleHeader₀.hash 1 = some confirmingBlock.hash ∧
      (s'.getBlockCount sampleSetup.config.quarkchain 1 1).bind (fun counts => counts 0) = some 2 ∧
      ¬Exact sampleSetup.config.quarkchain s' := by
  have hrun : ((insertBlock sampleSetup sampleOrder reportedIndexes confirmingBlock).any fun s =>
      (insertBlock sampleSetup sampleOrder s fastBlock).any fun s' =>
        s'.chain.currentBlock = fastBlock ∧ s'.chain.getBlock 1 = some sampleGenesis ∧
        s'.confirming sampleHeader₀.hash 1 = some confirmingBlock.hash ∧
        (s'.getBlockCount sampleSetup.config.quarkchain 1 1).bind (fun counts => counts 0) =
          some 2) = true := by decide +kernel
  obtain ⟨s, hs, hnext⟩ := (Option.any_eq_true _ _).mp hrun
  obtain ⟨s', hs', htest⟩ := (Option.any_eq_true _ _).mp hnext
  obtain ⟨hcur, hget, hconf, hcount⟩ := of_decide_eq_true htest
  refine ⟨s, s', hs, hs', hcur, rfl, hconf, hcount, fun hex => ?_⟩
  have hcolumn : Column s'.chain.getBlock s'.chain.currentBlock [fastBlock, sampleGenesis] := by
    rw [hcur]
    exact .cons hget rfl (.zero rfl)
  have hscan := hex.confirming _ hcolumn sampleHeader₀.hash 1
  rw [hconf] at hscan
  cases hscan

end QuarkChain.Root
