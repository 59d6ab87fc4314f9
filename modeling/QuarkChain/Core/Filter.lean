/-
# Filtering logs

`src/core/filter.go` and the bloom filter of `src/core/types/bloom9.go`.  A `Filter` walks the blocks of a range
and opens a block only when the bloom filter of its header may hold what is looked for.  That filter holds the
bits of every address and topic of the block's logs (`createBloom_eq_some`), so nothing is lost (`logs_exact`).
That the header has this filter is what `ValidateState` checks before a block is written
(`CanonicalChain.ofValidated`).

A block number is a natural number: a chain does not reach the end of `uint64`.
-/
import QuarkChain.Core.Block
import QuarkChain.Lib.Bytes

namespace QuarkChain.Core

open QuarkChain.Types State Bytes

/-- `types.Bloom`: 256 bytes. -/
structure Bloom where
  bytes : List UInt8
  length_bytes : bytes.length = 256
deriving DecidableEq

def Bloom.big (b : Bloom) : ℕ := ofBE b.bytes

/-- `BytesToBloom`; `none` is the panic on bytes that are too many. -/
def bytesToBloom (b : List UInt8) : Option Bloom :=
  if h : b.length ≤ 256 then
    some ⟨List.replicate (256 - b.length) 0 ++ b, by simp [h]⟩
  else none

def addressBytes (a : Recipient) : List UInt8 := toBE 20 a.toNat

def hashBytes (h : Hash) : List UInt8 := toBE 32 h.toNat

section

variable (keccak256 : List UInt8 → Fin 32 → UInt8)

def bloomBit (b : List UInt8) (i : Fin 32) : ℕ :=
  ((keccak256 b (i + 1)).toNat + (keccak256 b i).toNat <<< 8) &&& 2047

def bloom9 (b : List UInt8) : ℕ :=
  ([0, 2, 4] : List (Fin 32)).foldl (fun r i => r ||| 1 <<< bloomBit keccak256 b i) 0

def logsBloom (logs : List Log) : ℕ :=
  logs.foldl (fun bin log =>
    log.topics.foldl (fun bin b => bin ||| bloom9 keccak256 (hashBytes b))
      (bin ||| bloom9 keccak256 (addressBytes log.address))) 0

def createBloom (receipts : List Receipt) : Option Bloom :=
  bytesToBloom (minBE (receipts.foldl (fun bin receipt => bin ||| logsBloom keccak256 receipt.logs) 0))

def bloomLookup (bin : Bloom) (topic : List UInt8) : Bool :=
  let cmp := bloom9 keccak256 topic
  bin.big &&& cmp == cmp

def bloomFilter (bloom : Bloom) (addresses : List Recipient) (topics : List (List Hash)) : Bool :=
  (addresses.isEmpty || addresses.any fun addr => bloomLookup keccak256 bloom (addressBytes addr)) &&
    topics.all fun sub =>
      sub.isEmpty || sub.any fun topic => bloomLookup keccak256 bloom (hashBytes topic)

end

def bigUint64 (z : ℤ) : ℕ := z.natAbs % 2 ^ 64

def bigInt64 (z : ℤ) : ℤ :=
  if z < 0 then (-BitVec.ofNat 64 z.natAbs).toInt else (BitVec.ofNat 64 z.natAbs).toInt

def keepLog (fromBlock toBlock : Option ℤ) (addresses : List Recipient) (topics : List (List Hash))
    (log : Log) : Bool :=
  if fromBlock.any fun z => 0 ≤ bigInt64 z && log.blockNumber < bigUint64 z then false
  else if toBlock.any fun z => 0 ≤ bigInt64 z && bigUint64 z < log.blockNumber then false
  else if 0 < addresses.length && !addresses.contains log.address then false
  else if log.topics.length < topics.length then false
  else (topics.zip log.topics).all fun (sub, topic) => sub.isEmpty || sub.contains topic

def filterLogs (logs : List Log) (fromBlock toBlock : Option ℤ) (addresses : List Recipient)
    (topics : List (List Hash)) : List Log :=
  logs.filter (keepLog fromBlock toBlock addresses topics)

structure FilterBlock where
  hash : Hash
  bloom : Bloom

/-- `core.Backend` as `MinorBlockChain` has it.  A missing list of receipts reads as an empty one. -/
structure Backend where
  getBlockByNumber : ℕ → Option FilterBlock
  getReceiptsByHash : Hash → List Receipt

def Backend.getLogs (b : Backend) (hash : Hash) : List (List Log) :=
  (b.getReceiptsByHash hash).map Receipt.logs

structure Filter where
  backend : Backend
  addresses : List Recipient
  topics : List (List Hash)
  begin : ℕ
  «end» : ℕ

def newRangeFilter (backend : Backend) (begin «end» : ℕ) (addresses : List Recipient)
    (topics : List (List Hash)) : Filter :=
  { backend, addresses, topics, begin, «end» }

inductive FilterError
  | noSuchBlock
deriving DecidableEq

namespace Filter

variable (keccak256 : List UInt8 → Fin 32 → UInt8)

/-- `checkMatches`: logs without a transaction hash are read once more, from the receipts. -/
def checkMatches (f : Filter) (block : FilterBlock) : List Log :=
  let unfiltered := (f.backend.getLogs block.hash).flatten
  match filterLogs unfiltered none none f.addresses f.topics with
  | [] => []
  | log :: logs =>
      if log.txHash = 0 then
        filterLogs ((f.backend.getReceiptsByHash block.hash).flatMap Receipt.logs) none none f.addresses
          f.topics
      else log :: logs

def blockLogs (f : Filter) (block : FilterBlock) : List Log :=
  if bloomFilter keccak256 block.bloom f.addresses f.topics then f.checkMatches block else []

/-- `unindexedLogs`: the blocks from `begin` to `last`, with the logs that were found so far.  The start
of the filter moves on with the loop. -/
def unindexedLogs (f : Filter) (last : ℕ) (logs : List Log) : Except FilterError (List Log) × Filter :=
  if f.begin ≤ last then
    match f.backend.getBlockByNumber f.begin with
    | none => (.error .noSuchBlock, f)
    | some block =>
        unindexedLogs { f with begin := f.begin + 1 } last (logs ++ f.blockLogs keccak256 block)
  else (.ok logs, f)
termination_by last + 1 - f.begin

def logs (f : Filter) : Except FilterError (List Log) × Filter :=
  f.unindexedLogs keccak256 f.«end» []

end Filter

/-! ### What is looked for -/

/-- A log matches a pattern: its address is one of the addresses, and every position of the pattern is a
topic of the log and one of the alternatives.  Empty lists allow anything. -/
def Matches (addresses : List Recipient) (topics : List (List Hash)) (log : Log) : Prop :=
  (addresses = [] ∨ log.address ∈ addresses) ∧
    ∀ i : Fin topics.length, ∃ _ : i.val < log.topics.length,
      topics[i] = [] ∨ log.topics[i.val] ∈ topics[i]

instance (addresses : List Recipient) (topics : List (List Hash)) (log : Log) :
    Decidable (Matches addresses topics log) :=
  inferInstanceAs (Decidable ((addresses = [] ∨ log.address ∈ addresses) ∧
    ∀ i : Fin topics.length, ∃ _ : i.val < log.topics.length,
      topics[i] = [] ∨ log.topics[i.val] ∈ topics[i]))

variable {topics : List (List Hash)} {bloom : Bloom} {log : Log} {i : ℕ}

theorem all_zip_iff {logTopics : List Hash}
    (hlen : topics.length ≤ logTopics.length) :
    ((topics.zip logTopics).all fun (sub, topic) => sub.isEmpty || sub.contains topic) = true ↔
      ∀ i : Fin topics.length, ∃ _ : i.val < logTopics.length,
        topics[i] = [] ∨ logTopics[i.val] ∈ topics[i] := by
  simp only [List.all_eq_true, Prod.forall, Bool.or_eq_true, List.isEmpty_iff, List.contains_eq_mem,
    decide_eq_true_eq]
  constructor
  · intro h i
    have hi : i.val < logTopics.length := by omega
    refine ⟨hi, h _ _ ?_⟩
    rw [List.mem_iff_getElem]
    exact ⟨i.val, by simp [hi], by simp⟩
  · intro h sub topic hmem
    obtain ⟨i, hi, heq⟩ := List.getElem_of_mem hmem
    rw [List.getElem_zip, Prod.mk.injEq] at heq
    rw [List.length_zip] at hi
    obtain ⟨hlt, hsub⟩ := h ⟨i, by omega⟩
    rw [Fin.getElem_fin, heq.1, heq.2] at hsub
    exact hsub

theorem keepLog_eq (addresses : List Recipient) (topics : List (List Hash)) (log : Log) :
    keepLog none none addresses topics log = decide (Matches addresses topics log) := by
  rw [Bool.eq_iff_iff, decide_eq_true_eq]
  unfold keepLog Matches
  simp only [Option.any_none, Bool.false_eq_true, if_false]
  split_ifs with haddress htopics
  · simp only [Bool.and_eq_true, decide_eq_true_eq, Bool.not_eq_true', List.contains_eq_mem,
      decide_eq_false_iff_not, List.length_pos_iff] at haddress
    simp [haddress.1, haddress.2]
  · refine iff_of_false not_false fun h => ?_
    obtain ⟨hlt, -⟩ := h.2 ⟨log.topics.length, htopics⟩
    exact Nat.lt_irrefl _ hlt
  · rw [all_zip_iff (Nat.not_lt.mp htopics), iff_and_self]
    intro _
    by_cases hnil : addresses = []
    · exact .inl hnil
    have hpos := List.length_pos_iff.mpr hnil
    simp only [hpos, decide_true, Bool.true_and, Bool.not_eq_true', Bool.not_eq_false,
      List.contains_eq_mem, decide_eq_true_eq] at haddress
    exact .inr haddress

theorem filterLogs_eq (logs : List Log) (addresses : List Recipient) (topics : List (List Hash)) :
    filterLogs logs none none addresses topics =
      logs.filter fun log => decide (Matches addresses topics log) :=
  List.filter_congr fun log _ => keepLog_eq addresses topics log

section

variable {keccak256 : List UInt8 → Fin 32 → UInt8}

theorem testBit_bloom9 (b : List UInt8) (i : ℕ) : (bloom9 keccak256 b).testBit i =
      ([0, 2, 4] : List (Fin 32)).any fun j => (1 <<< bloomBit keccak256 b j).testBit i := by
  unfold bloom9
  rw [testBit_foldl (fun j i => (1 <<< bloomBit keccak256 b j).testBit i)
    fun mask j i => Nat.testBit_or ..]
  simp

theorem bloom9_bit_lt {b : List UInt8} (h : (bloom9 keccak256 b).testBit i = true) : i < 2048 := by
  rw [testBit_bloom9, List.any_eq_true] at h
  obtain ⟨j, -, hj⟩ := h
  have hbit : bloomBit keccak256 b j ≤ 2047 := Nat.and_le_right
  rw [Nat.one_shiftLeft, Nat.testBit_two_pow, decide_eq_true_eq] at hj
  omega

def logBits (keccak256 : List UInt8 → Fin 32 → UInt8) (log : Log) (i : ℕ) : Bool :=
  (bloom9 keccak256 (addressBytes log.address)).testBit i ||
    log.topics.any fun b => (bloom9 keccak256 (hashBytes b)).testBit i

theorem testBit_logsBloom (logs : List Log) (i : ℕ) :
    (logsBloom keccak256 logs).testBit i = logs.any fun log => logBits keccak256 log i := by
  unfold logsBloom
  rw [testBit_foldl (logBits keccak256)]
  · simp
  · intro mask log i
    rw [testBit_foldl (fun b i => (bloom9 keccak256 (hashBytes b)).testBit i)
      fun mask b i => Nat.testBit_or .., Nat.testBit_or, Bool.or_assoc]
    rfl

theorem logBits_lt (h : logBits keccak256 log i = true) : i < 2048 := by
  rw [logBits, Bool.or_eq_true, List.any_eq_true] at h
  rcases h with h | ⟨topic, -, h⟩
  · exact bloom9_bit_lt h
  · exact bloom9_bit_lt h

/-- **The bits of a block.**  `CreateBloom` does not panic, and the filter that it makes holds the bits of
the logs of all receipts. -/
theorem createBloom_eq_some (keccak256 : List UInt8 → Fin 32 → UInt8) (receipts : List Receipt) :
    ∃ bloom, createBloom keccak256 receipts = some bloom ∧ ∀ i, bloom.big.testBit i =
      (receipts.flatMap Receipt.logs).any fun log => logBits keccak256 log i := by
  have hbits : ∀ i, (receipts.foldl (fun bin receipt => bin ||| logsBloom keccak256 receipt.logs)
      0).testBit i = (receipts.flatMap Receipt.logs).any fun log => logBits keccak256 log i := by
    intro i
    rw [testBit_foldl (fun receipt i => (logsBloom keccak256 receipt.logs).testBit i)
      fun mask receipt i => Nat.testBit_or ..]
    simp only [Nat.zero_testBit, Bool.false_or, testBit_logsBloom, List.any_flatMap]
  unfold createBloom
  generalize receipts.foldl (fun bin receipt => bin ||| logsBloom keccak256 receipt.logs) 0 = bin at hbits
  have hlt : bin < 2 ^ (8 * 256) := by
    refine lt_two_pow_of_testBit fun i hi => ?_
    rw [hbits, List.any_eq_true] at hi
    obtain ⟨log, -, hlog⟩ := hi
    exact logBits_lt hlog
  have hlen : (minBE bin).length ≤ 256 := (length_toBE _ _).trans_le (width_le hlt)
  rw [bytesToBloom, dif_pos hlen]
  refine ⟨_, rfl, fun i => ?_⟩
  rw [Bloom.big, ofBE_zeros_append, ofBE_minBE, hbits]

theorem bloomLookup_iff {topic : List UInt8} :
    bloomLookup keccak256 bloom topic = true ↔
      ∀ i, (bloom9 keccak256 topic).testBit i = true → bloom.big.testBit i = true := by
  rw [bloomLookup, beq_iff_eq, and_eq_right_iff]

/-- **No false negatives.**  The pre-check passes for a block with a matching log. -/
theorem bloomFilter_of_matches {receipts : List Receipt} {addresses : List Recipient}
    (hbloom : createBloom keccak256 receipts = some bloom)
    (hlog : log ∈ receipts.flatMap Receipt.logs) (h : Matches addresses topics log) :
    bloomFilter keccak256 bloom addresses topics = true := by
  have hbits : ∀ i, logBits keccak256 log i = true → bloom.big.testBit i = true := by
    intro i hi
    obtain ⟨bloom', hbloom', htest⟩ := createBloom_eq_some keccak256 receipts
    rw [hbloom, Option.some.injEq] at hbloom'
    rw [hbloom', htest, List.any_eq_true]
    exact ⟨log, hlog, hi⟩
  have haddress : bloomLookup keccak256 bloom (addressBytes log.address) = true :=
    bloomLookup_iff.mpr fun i hi => hbits i (by rw [logBits, hi, Bool.true_or])
  have htopic : ∀ topic ∈ log.topics, bloomLookup keccak256 bloom (hashBytes topic) = true :=
    fun topic hmem => bloomLookup_iff.mpr fun i hi => hbits i (by
      rw [logBits, Bool.or_eq_true, List.any_eq_true]
      exact .inr ⟨topic, hmem, hi⟩)
  simp only [bloomFilter, Bool.and_eq_true, Bool.or_eq_true, List.isEmpty_iff, List.any_eq_true,
    List.all_eq_true]
  constructor
  · exact h.1.imp_right fun hmem => ⟨log.address, hmem, haddress⟩
  · intro sub hsub
    obtain ⟨i, hi, rfl⟩ := List.getElem_of_mem hsub
    obtain ⟨hlt, hmatch⟩ := h.2 ⟨i, hi⟩
    exact hmatch.imp_right fun hmem => ⟨log.topics[i], hmem, htopic _ (List.getElem_mem hlt)⟩

end

/-- A canonical chain: the blocks by their number, and the filter in every header is the one of the
receipts, which `ValidateState` checks. -/
structure CanonicalChain (keccak256 : List UInt8 → Fin 32 → UInt8) (b : Backend) where
  blocks : List FilterBlock
  getBlockByNumber : ∀ number, b.getBlockByNumber number = blocks[number]?
  bloom : ∀ block ∈ blocks,
    createBloom keccak256 (b.getReceiptsByHash block.hash) = some block.bloom

/-- The logs of a block, in the order of its receipts: `runBlock` appends the receipts of the cross-shard
deposits to those of the transactions. -/
def Backend.logsOf (b : Backend) (block : FilterBlock) : List Log :=
  (b.getReceiptsByHash block.hash).flatMap Receipt.logs

namespace CanonicalChain

variable {keccak256 : List UInt8 → Fin 32 → UInt8} {b : Backend}

/-- The logs of the blocks from `begin` to `last` that match, block by block. -/
def matchingLogs (c : CanonicalChain keccak256 b) (addresses : List Recipient)
    (topics : List (List Hash)) (begin last : ℕ) : List Log :=
  ((c.blocks.take (last + 1)).drop begin).flatMap fun block =>
    (b.logsOf block).filter fun log => decide (Matches addresses topics log)

end CanonicalChain

/-! ### Where the filters of the headers come from -/

/-- The filter as the header of a block has it. -/
def Bloom.bits (b : Bloom) : BitVec (8 * 256) := BitVec.ofNat _ b.big

theorem Bloom.bits_inj {a b : Bloom} (h : a.bits = b.bits) : a = b := by
  have hlt : ∀ c : Bloom, c.big < 2 ^ (8 * 256) := by
    intro c
    have hbytes := ofBE_lt c.bytes
    rw [c.length_bytes] at hbytes
    exact hbytes.trans_eq (pow_mul 2 8 256).symm
  have hbig : a.big = b.big := by
    have := congrArg BitVec.toNat h
    rwa [bits, bits, BitVec.toNat_ofNat, BitVec.toNat_ofNat, Nat.mod_eq_of_lt (hlt a),
      Nat.mod_eq_of_lt (hlt b)] at this
  obtain ⟨bytes, hlen⟩ := a
  obtain ⟨bytes', hlen'⟩ := b
  have hbytes : bytes = bytes' := by
    rw [← toBE_ofBE bytes, ← toBE_ofBE bytes', hlen, hlen']
    exact congrArg (toBE 256) hbig
  subst hbytes
  rfl

section Validated

variable {keccak256 : List UInt8 → Fin 32 → UInt8} {b : Backend}

/-- How a node computes the filter that it compares with the header's. -/
def Computes (keccak256 : List UInt8 → Fin 32 → UInt8) (n : Node) : Prop :=
  ∀ receipts, (createBloom keccak256 receipts).map Bloom.bits =
    some (n.digests.createBloom (receipts.map Receipt.encode))

/-- A block of the chain: the genesis block, or one that a node accepted and stored with the receipts of
its execution. -/
def Validated (keccak256 : List UInt8 → Fin 32 → UInt8) (b : Backend) (fb : FilterBlock) : Prop :=
  (b.getReceiptsByHash fb.hash = [] ∧ fb.bloom.big = 0) ∨
  ∃ (n : Node) (fuel : ℕ) (block : MinorBlock) (v : Node.Verdict), Computes keccak256 n ∧
    n.acceptBlock fuel block = .ok v ∧ fb.bloom.bits = block.bloom ∧
    b.getReceiptsByHash fb.hash = v.receipts

theorem validateState_bloom {n : Node} {block : MinorBlock} {db : StateDB} {receipts : List Receipt}
    {root : Hash} (h : n.validateState block db receipts = .ok root) :
    n.digests.createBloom (receipts.map Receipt.encode) = block.bloom := by
  by_contra hne
  rw [Node.validateState, if_pos hne] at h
  split_ifs at h

/-- **The filter of an accepted block is that of its receipts.** -/
theorem Validated.createBloom {fb : FilterBlock} (h : Validated keccak256 b fb) :
    createBloom keccak256 (b.getReceiptsByHash fb.hash) = some fb.bloom := by
  obtain ⟨bloom, hbloom, hbits⟩ := createBloom_eq_some keccak256 (b.getReceiptsByHash fb.hash)
  rw [hbloom]
  refine congrArg some (Bloom.bits_inj ?_)
  rcases h with ⟨hnil, hzero⟩ | ⟨n, fuel, block, v, hn, haccept, hheader, hreceipts⟩
  · have hbig : bloom.big = 0 := by
      refine Nat.eq_of_testBit_eq fun i => ?_
      rw [hbits, hnil, Nat.zero_testBit]
      rfl
    rw [Bloom.bits, Bloom.bits, hbig, hzero]
  · obtain ⟨r, -, haccept⟩ := Outcome.bind_eq_ok.mp haccept
    obtain ⟨root, hvalid, hv⟩ := Outcome.bind_eq_ok.mp haccept
    cases hv
    have hcomputed := hn (b.getReceiptsByHash fb.hash)
    rw [hbloom, hreceipts, validateState_bloom hvalid] at hcomputed
    rw [hheader]
    exact Option.some.inj hcomputed

/-- A chain of accepted blocks is a canonical chain for filters. -/
def CanonicalChain.ofValidated (blocks : List FilterBlock)
    (hnumber : ∀ number, b.getBlockByNumber number = blocks[number]?)
    (h : ∀ fb ∈ blocks, Validated keccak256 b fb) : CanonicalChain keccak256 b where
  blocks := blocks
  getBlockByNumber := hnumber
  bloom fb hfb := (h fb hfb).createBloom

end Validated

theorem checkMatches_eq (f : Filter) (block : FilterBlock) : f.checkMatches block =
      (f.backend.logsOf block).filter fun log => decide (Matches f.addresses f.topics log) := by
  have hlogs : (f.backend.getLogs block.hash).flatten = f.backend.logsOf block := by
    rw [Backend.getLogs, Backend.logsOf, List.flatMap_def]
  rw [← filterLogs_eq, Filter.checkMatches, hlogs]
  split
  next heq => rw [heq]
  next heq =>
    rw [heq]
    split_ifs
    · rw [← heq, Backend.logsOf]
    · rfl

variable {keccak256 : List UInt8 → Fin 32 → UInt8}

theorem blockLogs_eq {f : Filter}
    (c : CanonicalChain keccak256 f.backend) {block : FilterBlock} (hblock : block ∈ c.blocks) :
    f.blockLogs keccak256 block =
      (f.backend.logsOf block).filter fun log => decide (Matches f.addresses f.topics log) := by
  rw [Filter.blockLogs]
  split_ifs with hpass
  · exact checkMatches_eq f block
  symm
  rw [List.filter_eq_nil_iff]
  intro log hlog hmatch
  exact hpass (bloomFilter_of_matches (c.bloom block hblock) hlog (of_decide_eq_true hmatch))

theorem matchingLogs_cons {b : Backend}
    (c : CanonicalChain keccak256 b) (addresses : List Recipient) (topics : List (List Hash))
    {begin last : ℕ} {block : FilterBlock} (hat : c.blocks[begin]? = some block) (hle : begin ≤ last) :
    c.matchingLogs addresses topics begin last =
      ((b.logsOf block).filter fun log => decide (Matches addresses topics log)) ++
        c.matchingLogs addresses topics (begin + 1) last := by
  obtain ⟨hlt, rfl⟩ := List.getElem?_eq_some_iff.mp hat
  have hlt' : begin < (c.blocks.take (last + 1)).length := by
    rw [List.length_take]
    omega
  rw [CanonicalChain.matchingLogs, List.drop_eq_getElem_cons hlt', List.flatMap_cons,
    List.getElem_take]
  rfl

/-- **The loop.**  What was found before comes first; the walk fails when the range leaves the chain. -/
theorem unindexedLogs_eq (last : ℕ) (n : ℕ) {f : Filter}
    (c : CanonicalChain keccak256 f.backend) (logs : List Log) (hn : last + 1 - f.begin = n) :
    (f.unindexedLogs keccak256 last logs).1 =
      if f.begin ≤ last ∧ c.blocks.length ≤ last then .error .noSuchBlock
      else .ok (logs ++ c.matchingLogs f.addresses f.topics f.begin last) := by
  induction n generalizing f logs with
  | zero =>
    have hpast : ¬f.begin ≤ last := by omega
    have hnone : (c.blocks.take (last + 1)).drop f.begin = [] :=
      List.drop_eq_nil_of_le (by rw [List.length_take]; omega)
    rw [Filter.unindexedLogs, if_neg hpast, if_neg fun h => hpast h.1, CanonicalChain.matchingLogs, hnone,
      List.flatMap_nil, List.append_nil]
  | succ n ih =>
    have hle : f.begin ≤ last := by omega
    rw [Filter.unindexedLogs, if_pos hle, c.getBlockByNumber]
    cases hat : c.blocks[f.begin]? with
    | none =>
      have hout := List.getElem?_eq_none_iff.mp hat
      rw [if_pos ⟨hle, by omega⟩]
    | some block =>
      have hin := (List.getElem?_eq_some_iff.mp hat).1
      have hnext := @ih { f with begin := f.begin + 1 } c (logs ++ f.blockLogs keccak256 block) (by
        show last + 1 - (f.begin + 1) = n
        omega)
      refine hnext.trans ?_
      show (if f.begin + 1 ≤ last ∧ c.blocks.length ≤ last then _ else _) = _
      by_cases hlong : c.blocks.length ≤ last
      · rw [if_pos ⟨by omega, hlong⟩, if_pos ⟨hle, hlong⟩]
      · rw [if_neg fun h => hlong h.2, if_neg fun h => hlong h.2,
          matchingLogs_cons c _ _ hat hle, blockLogs_eq c (List.mem_of_getElem? hat), List.append_assoc]

/-- **Filtering is exact.**  On a canonical chain, a query whose range is in the chain returns the matching logs
of its blocks, in block and log order, and a query whose range leaves the chain fails. -/
theorem logs_exact {keccak256 : List UInt8 → Fin 32 → UInt8} {b : Backend}
    (c : CanonicalChain keccak256 b) (begin last : ℕ) (addresses : List Recipient)
    (topics : List (List Hash)) :
    (∀ block ∈ c.blocks, ∀ log ∈ b.logsOf block, Matches addresses topics log →
      bloomFilter keccak256 block.bloom addresses topics = true) ∧
    ((newRangeFilter b begin last addresses topics).logs keccak256).1 =
      if begin ≤ last ∧ c.blocks.length ≤ last then .error .noSuchBlock
      else .ok (c.matchingLogs addresses topics begin last) := by
  constructor
  · intro block hblock log hlog hmatch
    exact bloomFilter_of_matches (c.bloom block hblock) hlog hmatch
  · exact @unindexedLogs_eq keccak256 last _ (newRangeFilter b begin last addresses topics) c [] rfl

/-! ### A query -/

def sampleLog (topic : Hash) : Log where
  address := 7
  topics := [1, topic]
  data := []
  blockNumber := 0
  txHash := 20
  blockHash := 10
  txIndex := 0
  index := 0

def zeroKeccak : List UInt8 → Fin 32 → UInt8 := fun _ _ => 0

def sampleBloom : Bloom :=
  ⟨List.replicate 255 0 ++ [1], by rw [List.length_append, List.length_replicate]; rfl⟩

def sampleReceipts : List Receipt :=
  [{ failed := false, cumulativeGasUsed := 0, txHash := 20, gasUsed := 0, contractAddress := none,
     contractFullShardKey := 0, logs := [sampleLog 2, sampleLog 3] }]

def sampleBackend : Backend where
  getBlockByNumber number := if number = 0 then some ⟨10, sampleBloom⟩ else none
  getReceiptsByHash _ := sampleReceipts

theorem createBloom_sampleReceipts : createBloom zeroKeccak sampleReceipts = some sampleBloom := by
  have hbin : sampleReceipts.foldl (fun bin receipt => bin ||| logsBloom zeroKeccak receipt.logs) 0 =
      1 := by decide +kernel
  have hbytes : minBE 1 = [1] := by
    rw [minBE, width, Nat.size_one]
    rfl
  rw [createBloom, hbin, hbytes]
  rfl

def sampleChain : CanonicalChain zeroKeccak sampleBackend where
  blocks := [⟨10, sampleBloom⟩]
  getBlockByNumber number := by cases number <;> rfl
  bloom block hblock := by
    rw [List.mem_singleton.mp hblock]
    exact createBloom_sampleReceipts

theorem logs_exact_sample :
    bloomFilter zeroKeccak sampleBloom [7] [[], [3, 4]] = true ∧
    ((newRangeFilter sampleBackend 0 0 [7] [[], [3, 4]]).logs zeroKeccak).1 = .ok [sampleLog 3] := by
  have hmem : sampleLog 3 ∈ sampleBackend.logsOf ⟨10, sampleBloom⟩ :=
    List.mem_cons_of_mem _ (List.mem_singleton_self _)
  have hmatch : Matches [7] [[], [3, 4]] (sampleLog 3) := by decide +kernel
  have hlogs : sampleChain.matchingLogs [7] [[], [3, 4]] 0 0 = [sampleLog 3] := by decide +kernel
  obtain ⟨hbloom, hrun⟩ := logs_exact sampleChain 0 0 [7] [[], [3, 4]]
  refine ⟨hbloom ⟨10, sampleBloom⟩ (List.mem_singleton_self _) _ hmem hmatch, ?_⟩
  rw [hrun, hlogs]
  rfl

end QuarkChain.Core
