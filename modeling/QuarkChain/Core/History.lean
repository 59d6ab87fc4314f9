/-
# The transaction history of a shard, read page by page

`getTransactionDetails`, `GetTransactionByAddress` and `GetAllTx` of `src/core/minorblockchain_addon.go`,
with the keys of the history index and the iterator of `src/qkcdb/rocksdb.go`.

A request names a bound `start` and the lowest key `end`, and its answer names the bound of the next
request, one below the last key visited.  So the bound comes down from page to page while the walk within a
page goes up from `end`.  `paging_complete_iff` says for which histories this lists every transaction once.
-/
import QuarkChain.Core.Types
import QuarkChain.Lib.Bytes
import QuarkChain.Lib.Outcome
import QuarkChain.Lib.Paging

namespace QuarkChain.Core

open Account QuarkChain.Types Bytes

def addressTxKey : List UInt8 := [0x69, 0x61, 0x64, 0x64, 0x72]

def allTxKey : List UInt8 := [0x69, 0x61, 0x6c, 0x6c]

def recipientBytes (a : Recipient) : List UInt8 := toBE 20 a.toNat

def getCrossShardBytesIndb (crossShard : Bool) : List UInt8 := if crossShard then [0] else [1]

def encodeAddressTxKey (addr : Recipient) (height index : ℕ) (crossShard : Bool) : List UInt8 :=
  addressTxKey ++ recipientBytes addr ++ toBE 4 height ++ getCrossShardBytesIndb crossShard ++
    toBE 4 index

def encodeAllTxKey (height index : ℕ) (crossShard : Bool) : List UInt8 :=
  allTxKey ++ toBE 4 height ++ getCrossShardBytesIndb crossShard ++ toBE 4 index

/-- `bytesSubOne`; the bytes of a big integer are those of its absolute value. -/
def bytesSubOne (data : List UInt8) : List UInt8 := minBE ((ofBE data : ℤ) - 1).natAbs

def bytesAddOne (data : List UInt8) : List UInt8 := minBE (ofBE data + 1)

inductive HistoryError
  | input
  | getMinBlockFailed
  | indexBiggerThanLen
  | invalidSender
  | nilPointer
  | indexOutOfRange
deriving DecidableEq

def decodeTxKey (data : List UInt8) (keyLen addrLen : ℕ) : Except HistoryError (ℕ × Bool × ℕ) :=
  if data.length ≠ keyLen + addrLen + 4 + 1 + 4 then .error .input
  else
    let height := ofBE ((data.drop (keyLen + addrLen)).take 4)
    let flag := data[keyLen + addrLen + 4]? == some 0
    let index := ofBE (data.drop (keyLen + addrLen + 4 + 1))
    .ok (height, flag, index)

theorem decodeTxKey_append {head : List UInt8} {keyLen addrLen : ℕ}
    (hlen : head.length = keyLen + addrLen) (height index : ℕ) (crossShard : Bool) :
    decodeTxKey (head ++ toBE 4 height ++ getCrossShardBytesIndb crossShard ++ toBE 4 index)
      keyLen addrLen = .ok (height % 2 ^ 32, crossShard, index % 2 ^ 32) := by
  obtain ⟨b, hb⟩ : ∃ b, getCrossShardBytesIndb crossShard = [b] ∧ (some b == some 0) = crossShard := by
    cases crossShard with
    | false => exact ⟨1, rfl, rfl⟩
    | true => exact ⟨0, rfl, rfl⟩
  have h4 : ∀ n, (toBE 4 n).length = 4 := fun n => length_toBE 4 n
  have hread : ∀ n, ofBE (toBE 4 n) = n % 2 ^ 32 := fun n => ofBE_toBE 4 n
  rw [decodeTxKey, if_neg (by simp [hb.1, h4, hlen]), ← hlen, hb.1]
  have hindex : (head ++ toBE 4 height ++ [b] ++ toBE 4 index).drop (head.length + 4 + 1) =
      toBE 4 index := List.drop_left' (by simp [h4])
  rw [hindex]
  simp [h4, hread, hb.2]

/-! ### Requests -/

structure TransactionDetail where
  txHash : Hash
  fromAddress : Address
  toAddress : Option Address
  value : ℕ
  blockHeight : ℕ
  timestamp : ℕ
  success : Bool
  gasTokenID : TokenID
  transferTokenID : TokenID
  isFromRootChain : Bool
  nonce : ℕ
deriving DecidableEq

/-- What a request reads of the chain: the keys of the database in the order of its iterator, and the
records that the keys lead to. -/
structure HistoryNode where
  keys : List (List UInt8)
  keys_sorted : keys.Pairwise (· < ·)
  enableTransactionHistory : Bool
  networkID : ℕ
  getBlockByNumber : ℕ → Option MinorBlock
  readConfirmedCrossShardTxList : Hash → Option (List CrossShardTransactionDeposit)
  readReceipt : Hash → Option Receipt
  allTxInPool : List EvmTransaction

/-- A transaction that a key leads to: a deposit or a transaction of a block. -/
inductive HistoryEntry
  | xShard (height : ℕ) (block : MinorBlock) (tx : CrossShardTransactionDeposit)
  | inShard (height : ℕ) (block : MinorBlock) (tx : EvmTransaction)

namespace HistoryEntry

def txHash : HistoryEntry → Hash
  | xShard _ _ tx => tx.txHash
  | inShard _ _ tx => tx.hash

def isXShard : HistoryEntry → Bool
  | xShard .. => true
  | inShard .. => false

end HistoryEntry

/-- `skipCoinbaseRewards` and `transferTokenID`. -/
structure HistoryFilter where
  skipCoinbaseRewards : Bool
  transferTokenID : Option TokenID

def HistoryFilter.skipToken (f : HistoryFilter) (tokenID : TokenID) : Bool :=
  f.transferTokenID.any (tokenID != ·)

def HistoryFilter.skip (f : HistoryFilter) : HistoryEntry → Bool
  | .xShard _ _ tx =>
    if tx.isFromRootChain then f.skipCoinbaseRewards || tx.value % 2 ^ 64 == 0
    else f.skipToken tx.transferTokenID
  | .inShard _ _ tx => f.skipToken tx.transferTokenID

/-- The two requests: `GetTransactionByAddress` and `GetAllTx`. -/
inductive HistoryQuery
  | byAddress (address : Recipient) (transferTokenID : Option TokenID)
  | all

namespace HistoryQuery

def endKey : HistoryQuery → List UInt8
  | byAddress a _ => addressTxKey ++ recipientBytes a
  | all => allTxKey

def originalStart (q : HistoryQuery) : List UInt8 := bytesAddOne q.endKey

def filter : HistoryQuery → HistoryFilter
  | byAddress _ transferTokenID => ⟨false, transferTokenID⟩
  | all => ⟨true, none⟩

def decode : HistoryQuery → List UInt8 → Except HistoryError (ℕ × Bool × ℕ)
  | byAddress _ _, key => decodeTxKey key addressTxKey.length 20
  | all, key => decodeTxKey key allTxKey.length 0

end HistoryQuery

namespace HistoryNode

variable (m : HistoryNode)

def readEntry (q : HistoryQuery) (key : List UInt8) : Except HistoryError HistoryEntry := do
  let (height, crossShard, index) ← q.decode key
  match m.getBlockByNumber height with
  | none => .error .getMinBlockFailed
  | some block =>
    if crossShard then
      match m.readConfirmedCrossShardTxList block.hash with
      | none => .error .nilPointer
      | some txList =>
        match txList[index]? with
        | none => .error .indexBiggerThanLen
        | some tx => .ok (.xShard height block tx)
    else
      match block.transactions[index]? with
      | none => .error .indexOutOfRange
      | some tx => .ok (.inShard height block tx)

def toAddress (tx : EvmTransaction) : Option Address := tx.to.map fun a => ⟨a, tx.toFullShardKey⟩

def transactionDetail : HistoryEntry → Except HistoryError TransactionDetail
  | .xShard height block tx =>
    .ok {
      txHash := tx.txHash
      fromAddress := tx.from
      toAddress := some tx.to
      value := tx.value
      blockHeight := height
      timestamp := block.time
      success := true
      gasTokenID := tx.gasTokenID
      transferTokenID := tx.transferTokenID
      isFromRootChain := tx.isFromRootChain
      nonce := 0 }
  | .inShard height block tx =>
    match tx.sender m.networkID with
    | none => .error .invalidSender
    | some sender =>
      match m.readReceipt tx.hash with
      | none => .error .nilPointer
      | some receipt =>
        .ok {
          txHash := tx.hash
          fromAddress := ⟨sender, tx.fromFullShardKey⟩
          toAddress := toAddress tx
          value := tx.value
          blockHeight := height
          timestamp := block.time
          success := !receipt.failed
          gasTokenID := tx.gasTokenID
          transferTokenID := tx.transferTokenID
          isFromRootChain := false
          nonce := tx.nonce }

def detailsLoop (q : HistoryQuery) (start : List UInt8) :
    List (List UInt8) → UInt32 → List Hash → List TransactionDetail → List UInt8 →
      Except HistoryError (List TransactionDetail × List UInt8)
  | [], _, _, txList, next => .ok (txList, next)
  | key :: keys, limit, txHashes, txList, next =>
    if start < key then .ok (txList, next)
    else do
      let entry ← m.readEntry q key
      if entry.txHash ∉ txHashes ∧ q.filter.skip entry = false then
        let detail ← m.transactionDetail entry
        if limit - 1 = 0 then .ok (txList ++ [detail], bytesSubOne key)
        else
          detailsLoop q start keys (limit - 1)
            (if entry.isXShard then entry.txHash :: txHashes else txHashes)
            (txList ++ [detail]) (bytesSubOne key)
      else if limit = 0 then .ok (txList, bytesSubOne key)
      else detailsLoop q start keys limit txHashes txList (bytesSubOne key)

/-- `getTransactionDetails`: the iterator seeks `end` and walks upwards. -/
def getTransactionDetails (q : HistoryQuery) (start : List UInt8) (limit : UInt32) :
    Except HistoryError (List TransactionDetail × List UInt8) :=
  m.detailsLoop q start (m.keys.dropWhile fun key => decide (key < q.endKey)) limit [] [] q.endKey

def pendingDetail (tx : EvmTransaction) (sender : Recipient) : TransactionDetail where
  txHash := tx.hash
  fromAddress := ⟨sender, tx.fromFullShardKey⟩
  toAddress := toAddress tx
  value := tx.value
  blockHeight := 0
  timestamp := 0
  success := false
  gasTokenID := tx.gasTokenID
  transferTokenID := tx.transferTokenID
  isFromRootChain := false
  nonce := tx.nonce

def getPendingTxByAddress (address : Recipient) (f : HistoryFilter) :
    List EvmTransaction → Except HistoryError (List TransactionDetail)
  | [] => .ok []
  | tx :: txs =>
    match tx.sender m.networkID with
    | none => .error .invalidSender
    | some sender => do
      let rest ← getPendingTxByAddress address f txs
      if (sender = address ∨ tx.to = some address) ∧ f.skipToken tx.transferTokenID = false then
        .ok (pendingDetail tx sender :: rest)
      else .ok rest

/-- `GetTransactionByAddress` and `GetAllTx`, which differ in the keys, in the filter, and in that only the
first answers the bound `{1}` with the pending transactions. -/
def request (q : HistoryQuery) (start : List UInt8) (limit : UInt32) :
    Except HistoryError (List TransactionDetail × List UInt8) :=
  let details : Except HistoryError (List TransactionDetail × List UInt8) :=
    m.getTransactionDetails q
      (if start = [] ∨ q.originalStart < start then q.originalStart else start) limit
  if !m.enableTransactionHistory then .ok ([], [])
  else
    match q with
    | .all => details
    | .byAddress address _ =>
      if start = [1] then do
        let txList ← m.getPendingTxByAddress address q.filter m.allTxInPool
        .ok (txList, [])
      else details

/-- A client's requests, each with the key the last one returned, up to the first empty page. -/
inductive Requests (q : HistoryQuery) (limit : UInt32) :
    List UInt8 → List (List TransactionDetail) → Prop
  | done {start next : List UInt8} (h : m.request q start limit = .ok ([], next)) :
      Requests q limit start []
  | more {start next : List UInt8} {page : List TransactionDetail}
      {pages : List (List TransactionDetail)} (h : m.request q start limit = .ok (page, next))
      (hlisted : page ≠ []) (hnext : Requests q limit next pages) :
      Requests q limit start (page :: pages)

end HistoryNode

/-- An entry of the history: its key, the transaction it leads to, and how that is listed. -/
structure Recorded where
  key : List UInt8
  entry : HistoryEntry
  detail : TransactionDetail

/-- The history that the database holds for a query: every key in its range leads to a transaction. -/
structure StoredHistory (m : HistoryNode) (q : HistoryQuery) where
  entries : List Recorded
  enabled : m.enableTransactionHistory = true
  keys_eq : (m.keys.filter fun key => !decide (key < q.endKey) && !decide (q.originalStart < key)) =
    entries.map Recorded.key
  read : ∀ e ∈ entries, m.readEntry q e.key = .ok e.entry
  detailed : ∀ e ∈ entries, m.transactionDetail e.entry = .ok e.detail

def HistoryQuery.rules (q : HistoryQuery) : Paging.Rules Recorded TransactionDetail Hash where
  skipped e := q.filter.skip e.entry
  item := Recorded.detail
  id := TransactionDetail.txHash
  noted e := e.entry.isXShard

namespace HistoryQuery

variable (q : HistoryQuery) (e : Recorded)

@[simp] theorem rules_skipped : q.rules.skipped e = q.filter.skip e.entry := rfl
@[simp] theorem rules_item : q.rules.item e = e.detail := rfl
@[simp] theorem rules_noted : q.rules.noted e = e.entry.isXShard := rfl

end HistoryQuery

/-- **What paging is for.**  Requests that begin with the empty key reach an empty page, and their pages
list every matching transaction exactly once, the newest key first. -/
def PagingComplete (m : HistoryNode) (q : HistoryQuery) (h : StoredHistory m q) (limit : UInt32) : Prop :=
  ∃ pages, m.Requests q limit [] pages ∧ q.rules.Lists h.entries pages.flatten

variable {key : List UInt8} {limit : UInt32}

namespace HistoryQuery

variable (q : HistoryQuery)

theorem endKey_eq : ∃ rest, q.endKey = 0x69 :: rest := by
  cases q with
  | byAddress a t => exact ⟨_, rfl⟩
  | all => exact ⟨_, rfl⟩

theorem length_of_decode {r : ℕ × Bool × ℕ} (h : q.decode key = .ok r) :
    key.length = q.endKey.length + 9 := by
  have hlen : ∀ {k a : ℕ}, decodeTxKey key k a = .ok r → key.length = k + a + 9 := by
    intro k a hd
    by_contra hne
    rw [decodeTxKey, if_pos (by omega)] at hd
    cases hd
  cases q with
  | byAddress a t => simpa [endKey, recipientBytes] using hlen h
  | all => exact hlen h

theorem endKey_spec : (bytesAddOne q.endKey).length = q.endKey.length ∧
    ofBE (bytesAddOne q.endKey) = ofBE q.endKey + 1 := by
  obtain ⟨t, ht⟩ := q.endKey_eq
  have hlt := ofBE_lt t
  have hpos : 0 < 256 ^ t.length := Nat.pow_pos (by decide)
  have hval : ofBE (0x69 :: t) = 0x69 * 256 ^ t.length + ofBE t := ofBE_cons _ t
  have hpow : 256 ^ (t.length + 1) = 256 * 256 ^ t.length := pow_succ' _ _
  rw [ht, bytesAddOne, ofBE_minBE]
  refine ⟨?_, rfl⟩
  rw [length_minBE (by omega : 256 ^ t.length ≤ _) (by omega), List.length_cons]

theorem append_range (rest : List UInt8) :
    ¬ q.endKey ++ rest < q.endKey ∧ ¬ q.originalStart < q.endKey ++ rest := by
  obtain ⟨hlen, hval⟩ := q.endKey_spec
  have hlt : q.endKey < bytesAddOne q.endKey := (lt_iff_ofBE_lt hlen.symm).mpr (by omega)
  refine ⟨List.not_lt.mpr List.le_append_left, ?_⟩
  exact List.lt_asymm (append_lt_of_lt hlt hlen.symm rest)

end HistoryQuery

theorem bytesSubOne_spec {q : HistoryQuery} (hlow : ¬ key < q.endKey) (hlen : 2 ≤ key.length) :
    (bytesSubOne key).length = key.length ∧ ofBE (bytesSubOne key) + 1 = ofBE key := by
  obtain ⟨rest, hend⟩ := q.endKey_eq
  obtain ⟨b, t, rfl⟩ := List.exists_cons_of_length_pos (by omega : 0 < key.length)
  have hb : 0x69 ≤ b := by
    rw [hend, List.cons_lt_cons_iff] at hlow
    exact Std.not_lt.mp fun hlt => hlow (.inl hlt)
  have hbig : 2 * 256 ^ t.length ≤ ofBE (b :: t) := by
    have hb' : 2 ≤ b.toNat := le_trans (by decide) (UInt8.le_iff_toNat_le.mp hb)
    rw [ofBE_cons]
    have := Nat.mul_le_mul_right (256 ^ t.length) hb'
    omega
  have hpos : 0 < 256 ^ t.length := Nat.pow_pos (by decide)
  have hlt : ofBE (b :: t) < 256 ^ (t.length + 1) := ofBE_lt (b :: t)
  have habs : ((ofBE (b :: t) : ℤ) - 1).natAbs = ofBE (b :: t) - 1 := by omega
  rw [bytesSubOne, habs, ofBE_minBE]
  refine ⟨?_, by omega⟩
  rw [length_minBE (by omega : 256 ^ t.length ≤ _) (by omega), List.length_cons]

theorem not_bytesSubOne_lt_iff {q : HistoryQuery} {other : List UInt8} (hlow : ¬ key < q.endKey)
    (hlen : 2 ≤ key.length) (hother : other.length = key.length) :
    ¬ bytesSubOne key < other ↔ other < key := by
  obtain ⟨hsub, hval⟩ := bytesSubOne_spec hlow hlen
  rw [lt_iff_ofBE_lt (hsub.trans hother.symm), lt_iff_ofBE_lt hother]
  omega

namespace StoredHistory

variable {m : HistoryNode} {q : HistoryQuery} (h : StoredHistory m q) {e : Recorded}

theorem mem_range (he : e ∈ h.entries) : ¬ e.key < q.endKey ∧ ¬ q.originalStart < e.key := by
  have hkey : e.key ∈ h.entries.map Recorded.key := List.mem_map_of_mem he
  rw [← h.keys_eq, List.mem_filter] at hkey
  simpa using hkey.2

theorem length_key (he : e ∈ h.entries) : e.key.length = q.endKey.length + 9 := by
  have hread := h.read e he
  rw [HistoryNode.readEntry] at hread
  obtain ⟨r, hdecode, -⟩ := Outcome.bind_eq_ok.mp hread
  exact q.length_of_decode hdecode

theorem two_le_length_key (he : e ∈ h.entries) : 2 ≤ e.key.length := by
  rw [h.length_key he]
  omega

theorem entries_sorted : h.entries.Pairwise fun e e' => e.key < e'.key := by
  have hsorted : (h.entries.map Recorded.key).Pairwise (· < ·) := by
    rw [← h.keys_eq]
    exact m.keys_sorted.filter _
  exact List.pairwise_map.mp hsorted

def upTo (start : List UInt8) : List Recorded :=
  h.entries.filter fun e => !decide (start < e.key)

theorem upTo_originalStart : h.upTo q.originalStart = h.entries := by
  refine List.filter_eq_self.mpr fun e he => ?_
  simpa using (h.mem_range he).2

theorem upTo_bytesSubOne {before after : List Recorded}
    (heq : h.entries = before ++ e :: after) : h.upTo (bytesSubOne e.key) = before := by
  have he : e ∈ h.entries := by rw [heq]; simp
  have hlt : ∀ x ∈ h.entries, (!decide (bytesSubOne e.key < x.key)) = decide (x.key < e.key) := by
    intro x hx
    have hlen : x.key.length = e.key.length := by rw [h.length_key hx, h.length_key he]
    have hiff := not_bytesSubOne_lt_iff (h.mem_range he).1 (h.two_le_length_key he) hlen
    simpa [← decide_not] using hiff
  have hsorted := h.entries_sorted
  rw [upTo, List.filter_congr hlt, heq, List.filter_append, List.filter_cons_of_neg]
  · rw [heq, List.pairwise_append] at hsorted
    obtain ⟨-, hafter, hbefore⟩ := hsorted
    rw [List.filter_eq_self.mpr, List.filter_eq_nil_iff.mpr, List.append_nil]
    · intro x hx hxe
      exact List.lt_asymm (of_decide_eq_true hxe) ((List.pairwise_cons.mp hafter).1 x hx)
    · intro x hx
      exact decide_eq_true (hbefore x hx e (List.mem_cons_self ..))
  · simp

theorem iterator_eq {start : List UInt8} (hstart : ¬ q.originalStart < start) :
    ∃ beyond, (m.keys.dropWhile fun key => decide (key < q.endKey)) =
        (h.upTo start).map Recorded.key ++ beyond ∧ ∀ key ∈ beyond, start < key := by
  have hseek : m.keys.Pairwise fun x y =>
      decide (y < q.endKey) = true → decide (x < q.endKey) = true :=
    m.keys_sorted.imp fun hxy hy =>
      decide_eq_true (List.lt_trans hxy (of_decide_eq_true hy))
  have hbound : (m.keys.filter fun key => !decide (key < q.endKey)).Pairwise fun x y =>
      (!decide (start < y)) = true → (!decide (start < x)) = true := by
    refine (m.keys_sorted.filter _).imp fun hxy hy => ?_
    rw [Bool.not_eq_true', decide_eq_false_iff_not] at hy ⊢
    exact fun hx => hy (List.lt_trans hx hxy)
  refine ⟨(m.keys.filter fun key => !decide (key < q.endKey)).filter fun key =>
    !!decide (start < key), ?_, ?_⟩
  · rw [Paging.dropWhile_eq_filter_not hseek]
    refine (Paging.filter_append_filter_not hbound).symm.trans ?_
    congr 1
    have hsub : ∀ key ∈ m.keys, (!decide (start < key) && !decide (key < q.endKey)) =
        (!decide (start < key) && (!decide (key < q.endKey) && !decide (q.originalStart < key))) := by
      intro key _
      by_cases hkey : start < key
      · simp [hkey]
      · have hle : ¬ q.originalStart < key := fun hlt =>
          hkey (List.lt_of_le_of_lt (List.not_lt.mp hstart) hlt)
        simp [hle]
    have hmap : (h.upTo start).map Recorded.key =
        (h.entries.map Recorded.key).filter fun key => !decide (start < key) := by
      rw [List.filter_map]
      rfl
    rw [hmap, ← h.keys_eq, List.filter_filter, List.filter_filter]
    exact List.filter_congr hsub
  · intro key hkey
    simpa using (List.mem_filter.mp hkey).2

end StoredHistory

def nextKey (next : List UInt8) (visited : List Recorded) : List UInt8 :=
  (visited.getLast?.map fun e => bytesSubOne e.key).getD next

@[simp] theorem nextKey_nil (next : List UInt8) : nextKey next [] = next := rfl

@[simp] theorem nextKey_cons (next : List UInt8) (e : Recorded) (visited : List Recorded) :
    nextKey next (e :: visited) = nextKey (bytesSubOne e.key) visited := by
  cases visited with
  | nil => rfl
  | cons x visited => rw [nextKey, nextKey, List.getLast?_cons_cons, List.getLast?_cons]; rfl

theorem txHash_of_detail {m : HistoryNode} {entry : HistoryEntry} {detail : TransactionDetail}
    (h : m.transactionDetail entry = .ok detail) : detail.txHash = entry.txHash := by
  cases entry with
  | xShard height block tx =>
    cases h
    rfl
  | inShard height block tx =>
    rw [HistoryNode.transactionDetail] at h
    split at h
    · cases h
    split at h
    · cases h
    · cases h
      rfl

/-- **The loop makes a page** of the entries before it, up to a key beyond the bound. -/
theorem detailsLoop_eq {m : HistoryNode} {q : HistoryQuery} {start : List UInt8}
    {es : List Recorded} {beyond : List (List UInt8)}
    (hread : ∀ e ∈ es, m.readEntry q e.key = .ok e.entry)
    (hdetail : ∀ e ∈ es, m.transactionDetail e.entry = .ok e.detail)
    (hes : ∀ e ∈ es, ¬ start < e.key) (hbeyond : ∀ key ∈ beyond, start < key) (limit : UInt32)
    (seen : List Hash) (txList : List TransactionDetail) (next : List UInt8) :
    m.detailsLoop q start (es.map Recorded.key ++ beyond) limit seen txList next =
      .ok (txList ++ (q.rules.page es limit seen).1, nextKey next (q.rules.page es limit seen).2) := by
  induction es generalizing limit seen txList next with
  | nil =>
    rw [List.map_nil, List.nil_append, Paging.Rules.page, List.append_nil, nextKey_nil]
    cases beyond with
    | nil => rfl
    | cons key beyond => rw [HistoryNode.detailsLoop, if_pos (hbeyond key (List.mem_cons_self ..))]
  | cons e es ih =>
    obtain ⟨hreade, hread⟩ := List.forall_mem_cons.mp hread
    obtain ⟨hdetaile, hdetail⟩ := List.forall_mem_cons.mp hdetail
    obtain ⟨hese, hes⟩ := List.forall_mem_cons.mp hes
    have hloop := ih hread hdetail hes
    have hhash : q.rules.id (q.rules.item e) = e.entry.txHash := txHash_of_detail hdetaile
    rw [List.map_cons, List.cons_append, HistoryNode.detailsLoop, if_neg hese, hreade,
      Paging.Rules.page, hhash, q.rules_skipped]
    simp only [bind, Except.bind]
    by_cases hlist : e.entry.txHash ∉ seen ∧ q.filter.skip e.entry = false
    · rw [if_pos hlist, if_pos hlist, hdetaile]
      dsimp only
      by_cases hzero : limit - 1 = 0
      · simp [hzero]
      rw [if_neg hzero, if_neg hzero]
      refine (hloop _ _ _ _).trans ?_
      rw [List.append_assoc, nextKey_cons]
      rfl
    · rw [if_neg hlist, if_neg hlist]
      by_cases hzero : limit = 0
      · simp [hzero]
      · simp [hzero, hloop]

namespace StoredHistory

variable {m : HistoryNode} {q : HistoryQuery} (h : StoredHistory m q)

variable {start : List UInt8}

include h in
theorem request_eq (hone : start ≠ [1]) (limit : UInt32) :
    m.request q start limit = m.getTransactionDetails q
      (if start = [] ∨ q.originalStart < start then q.originalStart else start) limit := by
  cases q with
  | all => simp [HistoryNode.request, h.enabled]
  | byAddress a t => simp [HistoryNode.request, h.enabled, hone]

theorem getTransactionDetails_eq (hstart : ¬ q.originalStart < start) (limit : UInt32) :
    m.getTransactionDetails q start limit = .ok ((q.rules.page (h.upTo start) limit []).1,
      nextKey q.endKey (q.rules.page (h.upTo start) limit []).2) := by
  obtain ⟨beyond, hkeys, hbeyond⟩ := h.iterator_eq hstart
  have hmem : ∀ e ∈ h.upTo start, e ∈ h.entries := fun e he => (List.mem_filter.mp he).1
  rw [HistoryNode.getTransactionDetails, hkeys,
    detailsLoop_eq (fun e he => h.read e (hmem e he)) (fun e he => h.detailed e (hmem e he))
      (fun e he => by simpa using (List.mem_filter.mp he).2) hbeyond, List.nil_append]

/-- A request that sees the entries `es`: the first, or one that an entry has been the end of. -/
inductive Sees : List UInt8 → List Recorded → Prop
  | first : Sees [] h.entries
  | next {before after : List Recorded} {e : Recorded} (heq : h.entries = before ++ e :: after) :
      Sees (bytesSubOne e.key) before

variable {h}

variable {es : List Recorded}

variable (hsees : h.Sees start es)
include hsees

theorem Sees.request (limit : UInt32) :
    m.request q start limit = .ok ((q.rules.page es limit []).1,
      nextKey q.endKey (q.rules.page es limit []).2) := by
  cases hsees with
  | first =>
    rw [h.request_eq (by decide), if_pos (.inl rfl),
      h.getTransactionDetails_eq (List.lt_irrefl _), h.upTo_originalStart]
  | @next before after e heq =>
    have he : e ∈ h.entries := by rw [heq]; simp
    obtain ⟨hlow, hhigh⟩ := h.mem_range he
    obtain ⟨hlen, hval⟩ := bytesSubOne_spec hlow (h.two_le_length_key he)
    have hlen' : 2 ≤ (bytesSubOne e.key).length := by
      rw [hlen]
      exact h.two_le_length_key he
    have hnil : bytesSubOne e.key ≠ [] := fun hnil => by simp [hnil] at hlen'
    have hone : bytesSubOne e.key ≠ [1] := fun hone => by simp [hone] at hlen'
    have hbelow : bytesSubOne e.key < e.key := (lt_iff_ofBE_lt hlen).mpr (by omega)
    have hstart : ¬ q.originalStart < bytesSubOne e.key := fun hlt => hhigh (List.lt_trans hlt hbelow)
    rw [h.request_eq hone, if_neg (by simp [hnil, hstart]), h.getTransactionDetails_eq hstart,
      h.upTo_bytesSubOne heq]

theorem Sees.entries_eq : ∃ left, h.entries = es ++ left := by
  cases hsees with
  | first => exact ⟨[], (List.append_nil _).symm⟩
  | next heq => exact ⟨_, heq⟩

theorem Sees.step (hlisted : (q.rules.page es limit []).1 ≠ []) :
    h.Sees (nextKey q.endKey (q.rules.page es limit []).2) (q.rules.page es limit []).2.dropLast := by
  have hne := Paging.Rules.page_visited_ne_nil hlisted
  obtain ⟨left, hleft⟩ := hsees.entries_eq
  obtain ⟨left', hleft'⟩ := q.rules.page_visited_append es limit []
  obtain ⟨before, e, hvisited⟩ := (List.eq_nil_or_concat _).resolve_left hne
  rw [hvisited] at hleft' ⊢
  have heq : h.entries = before ++ e :: (left' ++ left) := by
    rw [hleft, hleft']
    simp
  simpa [nextKey] using Sees.next heq

/-- **Requests are pages.** -/
theorem requests_iff {pages : List (List TransactionDetail)} :
    m.Requests q limit start pages ↔ q.rules.Pages limit es pages := by
  constructor
  · intro hreq
    induction hreq generalizing es with
    | done hdone =>
      rw [hsees.request] at hdone
      exact .done (congrArg Prod.fst (Except.ok.inj hdone))
    | more hpage hlisted hnext ih =>
      rw [hsees.request] at hpage
      obtain ⟨rfl, rfl⟩ := Prod.mk.inj (Except.ok.inj hpage)
      exact .more hlisted (ih (hsees.step hlisted))
  · intro hpages
    induction hpages generalizing start with
    | done hempty => exact .done (by rw [hsees.request, hempty])
    | more hlisted hnext ih => exact .more (hsees.request limit) hlisted (ih (hsees.step hlisted))

end StoredHistory

/-- **Paging is complete exactly** for a history without a matching transaction, for one whose matching
entries are of one transaction if it is read one at a time, and for one in which at most the newest entry
matches (which, for page size zero, has to be the only entry). -/
theorem paging_complete_iff (m : HistoryNode) (q : HistoryQuery) (h : StoredHistory m q)
    (limit : UInt32) : PagingComplete m q h limit ↔ q.rules.Pageable limit h.entries := by
  rw [← Paging.Rules.lists_iff]
  refine exists_congr fun pages => and_congr_left fun _ => ?_
  exact StoredHistory.requests_iff .first

/-! ### Two transfers of one account -/

def historyTransfer (hash : Hash) (nonce : ℕ) : EvmTransaction :=
  { (default : EvmTransaction) with
    hash := hash, nonce := nonce, gas := 21000, «to» := some 2, value := 5, networkId := 1, v := 27
    sender := fun _ => some 1 }

def historyBlock : MinorBlock :=
  { (default : MinorBlock) with
    hash := 9, parentHash := 8, number := 1, time := 100, branch := ⟨1⟩
    transactions := [historyTransfer 10 0, historyTransfer 11 1] }

def historyNode : HistoryNode where
  keys := [encodeAddressTxKey 1 1 0 false, encodeAddressTxKey 1 1 1 false]
  keys_sorted := by decide +kernel
  enableTransactionHistory := true
  networkID := 1
  getBlockByNumber height := if height = 1 then some historyBlock else none
  readConfirmedCrossShardTxList _ := some []
  readReceipt hash := some ⟨false, 21000, hash, 21000, none, 0, []⟩
  allTxInPool := []

def historyRecord (tx : EvmTransaction) (index : ℕ) : Recorded where
  key := encodeAddressTxKey 1 1 index false
  entry := .inShard 1 historyBlock tx
  detail := {
    txHash := tx.hash
    fromAddress := ⟨1, 0⟩
    toAddress := some ⟨2, 0⟩
    value := 5
    blockHeight := 1
    timestamp := 100
    success := true
    gasTokenID := 0
    transferTokenID := 0
    isFromRootChain := false
    nonce := index }

theorem historyNode_read {index : ℕ} {tx : EvmTransaction}
    (htx : historyBlock.transactions[index % 2 ^ 32]? = some tx) :
    historyNode.readEntry (.byAddress 1 none) (encodeAddressTxKey 1 1 index false) =
      .ok (.inShard 1 historyBlock tx) := by
  have hdecode : decodeTxKey (encodeAddressTxKey 1 1 index false) addressTxKey.length 20 =
      .ok (1 % 2 ^ 32, false, index % 2 ^ 32) :=
    decodeTxKey_append (by simp [recipientBytes]) 1 index false
  have hblock : historyNode.getBlockByNumber (1 % 2 ^ 32) = some historyBlock := rfl
  rw [HistoryNode.readEntry, HistoryQuery.decode, hdecode]
  simp only [bind, Except.bind, hblock, htx, Bool.false_eq_true, if_false]
  rfl

theorem historyKey_range (index : ℕ) :
    ¬ encodeAddressTxKey 1 1 index false < (HistoryQuery.byAddress 1 none).endKey ∧
      ¬ (HistoryQuery.byAddress 1 none).originalStart < encodeAddressTxKey 1 1 index false := by
  have happend : ∃ rest, encodeAddressTxKey 1 1 index false =
      (HistoryQuery.byAddress 1 none).endKey ++ rest :=
    ⟨_, by simp only [encodeAddressTxKey, List.append_assoc]; rfl⟩
  obtain ⟨rest, hrest⟩ := happend
  rw [hrest]
  exact (HistoryQuery.byAddress 1 none).append_range rest

def twoTransfers : StoredHistory historyNode (.byAddress 1 none) where
  entries := [historyRecord (historyTransfer 10 0) 0, historyRecord (historyTransfer 11 1) 1]
  enabled := rfl
  keys_eq := by
    refine List.filter_eq_self.mpr fun key hkey => ?_
    rcases List.mem_pair.mp hkey with rfl | rfl
    · simpa using historyKey_range 0
    · simpa using historyKey_range 1
  read := by
    intro e he
    rcases List.mem_pair.mp he with rfl | rfl
    · exact historyNode_read rfl
    · exact historyNode_read rfl
  detailed := by
    intro e he
    rcases List.mem_pair.mp he with rfl | rfl
    · rfl
    · rfl

/-- **Two transfers cannot be paged through.**  On pages of one transaction the newer one is never listed,
and on pages of twenty the older one comes first and is listed twice. -/
theorem two_transfers_not_paged :
    ¬ PagingComplete historyNode (.byAddress 1 none) twoTransfers 1 ∧
    ¬ PagingComplete historyNode (.byAddress 1 none) twoTransfers 20 := by
  have hnot : ∀ limit, ¬ PagingComplete historyNode (.byAddress 1 none) twoTransfers limit := by
    rintro limit ⟨pages, hreq, hlists⟩
    have hpages := (StoredHistory.requests_iff (h := twoTransfers) .first).mp hreq
    rcases Paging.Rules.lists_iff.mp ⟨pages, hpages, hlists⟩ with hnone | ⟨-, hsame⟩ | ⟨hlast, -⟩
    · exact absurd (hnone _ (List.mem_cons_self ..)) (by decide)
    · have := hsame _ (List.mem_cons_self ..) _ (List.mem_cons_of_mem _ (List.mem_cons_self ..)) rfl rfl
      exact absurd this (by decide)
    · exact absurd (hlast _ (List.mem_cons_self ..)) (by decide)
  exact ⟨hnot 1, hnot 20⟩

/-- The account has made the second transfer only. -/
def oneTransfer : StoredHistory
    { historyNode with keys := [encodeAddressTxKey 1 1 1 false], keys_sorted := by decide +kernel }
    (.byAddress 1 none) where
  entries := [historyRecord (historyTransfer 11 1) 1]
  enabled := rfl
  keys_eq := by
    refine List.filter_eq_self.mpr fun key hkey => ?_
    obtain rfl := List.mem_singleton.mp hkey
    simpa using historyKey_range 1
  read := by
    intro e he
    obtain rfl := List.mem_singleton.mp he
    exact historyNode_read rfl
  detailed := by
    intro e he
    obtain rfl := List.mem_singleton.mp he
    rfl

/-- **One transfer can**, on pages of twenty. -/
theorem one_transfer_paged : PagingComplete _ _ oneTransfer 20 := by
  refine (paging_complete_iff _ _ _ _).mpr (.inr (.inr ⟨?_, .inl (by decide)⟩))
  intro e he
  cases he

end QuarkChain.Core
