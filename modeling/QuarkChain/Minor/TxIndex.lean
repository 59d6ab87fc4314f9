/-
# The transaction indexes of the minor chain

`putTxIndexFromBlock`, `removeTxIndexFromBlock`, `updateTxHistoryIndex` and
`updateTxHistoryIndexFromBlock` of `src/core/minorblockchain_addon.go`, with the lookup entries of
`src/core/rawdb/accessors_indexes.go`, for a shard with `EnableTransactionHistory`.

A lookup entry finds a transaction or a delivered deposit by its hash: the block, and the position in
the block, where the deposits follow the transactions.  A history entry is a key: the height and the position
below the prefix of all transactions, and again below that of each address of the shard that takes part.

The functions that move the head appear once more, with the two tables.  Lookup entries are deleted through a
batch, so that they stay when `reorg` fails in the middle of an old branch; history entries are deleted at once.
-/
import QuarkChain.Core.History
import QuarkChain.Minor.Wf

namespace QuarkChain.Minor

open Account BlockTree Config QuarkChain.Types Bytes
open QuarkChain.Core (EvmTransaction encodeAddressTxKey encodeAllTxKey)

structure LookupEntry where
  blockHash : Hash
  index : ℕ
deriving DecidableEq

/-- The lookup entries, and the keys of the history that are present. -/
structure TxIndex where
  lookup : Hash → Option LookupEntry
  history : List UInt8 → Bool

def setAll {κ ν : Type*} [DecidableEq κ] (v : ν) (keys : List κ) (table : κ → ν) : κ → ν :=
  keys.foldl (fun table key => Function.update table key v) table

@[simp] theorem setAll_apply {κ ν : Type*} [DecidableEq κ] (v : ν) (keys : List κ) (table : κ → ν)
    (k : κ) : setAll v keys table k = if k ∈ keys then v else table k := by
  induction keys generalizing table with
  | nil => simp [setAll]
  | cons key keys ih =>
    rw [setAll, List.foldl_cons, ← setAll, ih]
    by_cases hk : k ∈ keys
    · simp [hk]
    simp only [List.mem_cons, or_false, hk]
    by_cases heq : k = key
    · simp [heq]
    · simp [heq]

theorem setAll_append {κ ν : Type*} [DecidableEq κ] (v : ν) (keys keys' : List κ) (table : κ → ν) :
    setAll v (keys ++ keys') table = setAll v keys' (setAll v keys table) := List.foldl_append

def writeLookups (blockHash : Hash) : ℕ → List Hash → (Hash → Option LookupEntry) →
    Hash → Option LookupEntry
  | _, [], lookup => lookup
  | i, h :: hashes, lookup =>
      writeLookups blockHash (i + 1) hashes
        (Function.update lookup h (some ⟨blockHash, i % 2 ^ 32⟩))

theorem writeLookups_eq_some {blockHash : Hash} {hashes : List Hash} (hnd : hashes.Nodup) {i : ℕ}
    (hi : i + hashes.length ≤ 2 ^ 32) {lookup : Hash → Option LookupEntry} {h : Hash}
    {e : LookupEntry} :
    writeLookups blockHash i hashes lookup h = some e ↔
      (∃ j, hashes[j]? = some h ∧ e = ⟨blockHash, i + j⟩) ∨ h ∉ hashes ∧ lookup h = some e := by
  induction hashes generalizing i lookup with
  | nil => simp [writeLookups]
  | cons x hashes ih =>
    obtain ⟨hx, hnd⟩ := List.nodup_cons.mp hnd
    rw [List.length_cons] at hi
    rw [writeLookups, ih hnd (by omega)]
    constructor
    · rintro (⟨j, hj, rfl⟩ | ⟨hmem, hlook⟩)
      · exact .inl ⟨j + 1, by simpa using hj, by simp [Nat.add_assoc, Nat.add_comm 1 j]⟩
      by_cases hhx : h = x
      · subst hhx
        rw [Function.update_self, Nat.mod_eq_of_lt (by omega)] at hlook
        exact .inl ⟨0, rfl, (Option.some.inj hlook).symm⟩
      · rw [Function.update_of_ne hhx] at hlook
        exact .inr ⟨by simp [hhx, hmem], hlook⟩
    · rintro (⟨j, hj, rfl⟩ | ⟨hmem, hlook⟩)
      · cases j with
        | zero =>
          obtain rfl : x = h := by simpa using hj
          refine .inr ⟨hx, ?_⟩
          rw [Function.update_self, Nat.mod_eq_of_lt (by omega), Nat.add_zero]
        | succ j =>
          exact .inl ⟨j, by simpa using hj, by simp [Nat.add_assoc, Nat.add_comm 1 j]⟩
      · rw [List.mem_cons, not_or] at hmem
        refine .inr ⟨hmem.2, ?_⟩
        rwa [Function.update_of_ne hmem.1]

/-- Why an index cannot be updated; the last one is a panic. -/
inductive IndexError
  | chain (e : ChainError)
  | invalidSender
  | nilTxList
deriving DecidableEq

/-- What the indexes depend on besides the blocks: the branch, the signer's network, and the deposits
that the execution of a block delivers (`xShardReceiveTxList`). -/
structure IndexSetup extends ShardSetup where
  networkID : ℕ
  received : MinorBlock → List CrossShardTransactionDeposit

/-- A chain with its indexes. -/
structure IndexedChain where
  chain : MinorBlockChain
  index : TxIndex
  confirmed : Hash → Option (List CrossShardTransactionDeposit)

/-- The history keys of the deposits of a block; the dummy coinbase rewards are ignored. -/
def depositKeys (height : ℕ) (txList : List (CrossShardTransactionDeposit × ℕ)) : List (List UInt8) :=
  txList.flatMap fun (tx, index) =>
    if tx.isFromRootChain && tx.value == 0 then []
    else
      encodeAddressTxKey tx.to.recipient height index true ::
        if tx.isFromRootChain then [] else [encodeAllTxKey height index true]

namespace IndexSetup

variable (n : IndexSetup)

def txKeys (height : ℕ) (tx : EvmTransaction) (index : ℕ) (sender : Recipient) : List (List UInt8) :=
  [encodeAllTxKey height index false, encodeAddressTxKey sender height index false] ++
    match tx.to with
    | some recipient =>
        if n.branch.isInBranch tx.toFullShardKey then
          [encodeAddressTxKey recipient height index false]
        else []
    | none => []

def updateTxHistoryIndex (v : Bool) (height : ℕ) (tx : EvmTransaction) (index : ℕ)
    (history : List UInt8 → Bool) : Except IndexError Unit × (List UInt8 → Bool) :=
  match tx.sender n.networkID with
  | none => (.error .invalidSender, setAll v [encodeAllTxKey height index false] history)
  | some sender => (.ok (), setAll v (n.txKeys height tx index sender) history)

def updateTxs (v : Bool) (height : ℕ) : List (EvmTransaction × ℕ) → (List UInt8 → Bool) →
    Except IndexError Unit × (List UInt8 → Bool)
  | [], history => (.ok (), history)
  | (tx, index) :: txs, history =>
      match n.updateTxHistoryIndex v height tx index history with
      | (.error e, history') => (.error e, history')
      | (.ok _, history') => updateTxs v height txs history'

variable (confirmed : Hash → Option (List CrossShardTransactionDeposit))

def hashes (b : MinorBlock) (txList : List CrossShardTransactionDeposit) : List Hash :=
  b.transactions.map EvmTransaction.hash ++ txList.map CrossShardTransactionDeposit.txHash

def putTxIndexFromBlock (b : MinorBlock) (x : TxIndex) : Except IndexError Unit × TxIndex :=
  match confirmed b.hash with
  | none => (.error (.chain .xShardDepositHashListErr), x)
  | some txList =>
      let lookup := writeLookups b.hash 0 (hashes b txList) x.lookup
      match n.updateTxs true b.number b.transactions.zipIdx x.history with
      | (.error e, history) => (.error e, ⟨lookup, history⟩)
      | (.ok _, history) =>
          (.ok (), ⟨lookup, setAll true (depositKeys b.number txList.zipIdx) history⟩)

/-- `removeTxIndexFromBlock`.  The lookup entries are deleted in a batch that an error drops. -/
def removeTxIndexFromBlock (b : MinorBlock) (x : TxIndex) : Except IndexError Unit × TxIndex :=
  match n.updateTxs false b.number b.transactions.zipIdx x.history with
  | (.error e, history) => (.error e, ⟨x.lookup, history⟩)
  | (.ok _, history) =>
      match confirmed b.hash with
      | none => (.error .nilTxList, ⟨x.lookup, history⟩)
      | some txList =>
          (.ok (), ⟨setAll none (hashes b txList) x.lookup,
            setAll false (depositKeys b.number txList.zipIdx) history⟩)

def removeBranch : List MinorBlock → TxIndex → Except IndexError Unit × TxIndex
  | [], x => (.ok (), x)
  | b :: oldChain, x =>
      match removeBranch oldChain x with
      | (.error e, x') => (.error e, x')
      | (.ok _, x') => n.removeTxIndexFromBlock confirmed b x'

def insertBranch : List MinorBlock → IndexedChain → Except IndexError Unit × IndexedChain
  | [], t => (.ok (), t)
  | b :: newChain, t =>
      match insertBranch newChain t with
      | (.error e, t') => (.error e, t')
      | (.ok _, t') =>
          let r := n.putTxIndexFromBlock t'.confirmed b t'.index
          (r.1, { t' with chain := t'.chain.insert b, index := r.2 })

def reorg (t : IndexedChain) (oldBlock newBlock : MinorBlock) : Except IndexError Unit × IndexedChain :=
  match branches t.chain.getMinorBlock oldBlock newBlock with
  | .error e => (.error (.chain (.reorg e)), t)
  | .ok (oldChain, newChain, newBlock) =>
      match n.removeBranch t.confirmed oldChain t.index with
      | (.error e, x) => (.error e, { t with index := { x with lookup := t.index.lookup } })
      | (.ok _, x) =>
          let s₁ := { t.chain with canonicalHash := erase t.chain.canonicalHash oldChain }
          n.insertBranch newChain
            { t with chain := if newChain.isEmpty then s₁.insert newBlock else s₁, index := x }

/-- `WriteBlockWithState`, for a block that becomes the head.  A failure of `putTxIndexFromBlock` is a
panic here. -/
def writeHead (t : IndexedChain) (block : MinorBlock) : Except IndexError Unit × IndexedChain :=
  match if block.parentHash = t.chain.currentBlock.hash then (.ok (), t)
    else n.reorg t t.chain.currentBlock block with
  | (.error e, t₁) => (.error e, t₁)
  | (.ok _, t₁) =>
      match n.putTxIndexFromBlock t₁.confirmed block t₁.index with
      | (.error e, x) => (.error e, { t₁ with index := x })
      | (.ok _, x) => (.ok (), { t₁ with chain := t₁.chain.insert block, index := x })

def writeBlockWithState (t : IndexedChain) (block : MinorBlock) (updateTip : Bool) :
    Except IndexError Unit × IndexedChain :=
  match t.chain.putMinorBlock block with
  | (.error e, s₁) => (.error (.chain e), { t with chain := s₁ })
  | (.ok _, s₁) =>
      let t₁ := { t with
        chain := { s₁ with hasState := Function.update s₁.hasState block.root true }
        confirmed := Function.update t.confirmed block.hash (some (n.received block)) }
      if updateTip then n.writeHead t₁ block else (.ok (), t₁)

def importBlock (t : IndexedChain) (block : MinorBlock) :
    Except Fatal (Except IndexError Unit × IndexedChain) :=
  match t.chain.updateTip block with
  | .error f => .error f
  | .ok none => .ok (.error (.chain .missingPrevBlock), t)
  | .ok (some true) =>
      .ok (n.writeBlockWithState
        { t with chain := { t.chain with currentEvmState := block.root } } block true)
  | .ok (some false) => .ok (n.writeBlockWithState t block false)

def reWriteBlockIndexTo (t : IndexedChain) (oldBlock newBlock : MinorBlock) :
    Except IndexError Unit × IndexedChain :=
  if t.chain.hasState newBlock.root then
    match n.reorg t oldBlock newBlock with
    | (.error e, t₁) => (.error e, t₁)
    | (.ok _, t₁) =>
        (.ok (), { t₁ with chain := { t₁.chain with currentEvmState := newBlock.root } })
  else (.error (.chain .missingState), t)

/-- What `AddRootBlock` does when the head has to follow the root chain: the block is the head from
here on, also when its branch cannot be entered into the indexes. -/
def moveHead (t : IndexedChain) (newBlock : MinorBlock) : Except IndexError Unit × IndexedChain :=
  n.reWriteBlockIndexTo { t with chain := { t.chain with currentBlock := newBlock } }
    t.chain.currentBlock newBlock

/-- A chain on a fresh database: `InitGenesisState` enters the genesis block with no deposits. -/
def initial (rBlock : RootBlock) : IndexedChain where
  chain := .initial n.toShardSetup rBlock
  index := ⟨fun _ => none, fun _ => false⟩
  confirmed := Function.update (fun _ => none) (n.createMinorBlock rBlock).hash (some [])

end IndexSetup

/-- `setHead`: blocks and canonical hashes are deleted, and the transaction indexes are not touched. -/
def IndexedChain.setHead (nested : ℕ) (t : IndexedChain) (head : ℕ) :
    Except Fatal (Except ChainError Unit × IndexedChain) :=
  match MinorBlockChain.setHead nested t.chain head with
  | .error f => .error f
  | .ok (res, s) => .ok (res, { t with chain := s })

namespace IndexSetup

variable {n : IndexSetup} {confirmed : Hash → Option (List CrossShardTransactionDeposit)}
  {b : MinorBlock} {x : TxIndex}

def contents (n : IndexSetup) (b : MinorBlock) : List Hash := hashes b (n.received b)

def txsKeys (n : IndexSetup) (height : ℕ) (txs : List (EvmTransaction × ℕ)) : List (List UInt8) :=
  txs.flatMap fun (tx, index) => (tx.sender n.networkID).elim [] (n.txKeys height tx index)

def historyKeys (n : IndexSetup) (b : MinorBlock) : List (List UInt8) :=
  n.txsKeys b.number b.transactions.zipIdx ++ depositKeys b.number (n.received b).zipIdx

/-- Every transaction has a sender, and the deposits of the block are recorded. -/
structure Ready (n : IndexSetup) (confirmed : Hash → Option (List CrossShardTransactionDeposit))
    (b : MinorBlock) : Prop where
  sender : ∀ tx ∈ b.transactions, (tx.sender n.networkID).isSome = true
  recorded : confirmed b.hash = some (n.received b)

theorem updateTxs_eq {v : Bool} {height : ℕ} {txs : List (EvmTransaction × ℕ)}
    (hs : ∀ p ∈ txs, (p.1.sender n.networkID).isSome = true) (history : List UInt8 → Bool) :
    n.updateTxs v height txs history = (.ok (), setAll v (n.txsKeys height txs) history) := by
  induction txs generalizing history with
  | nil => rfl
  | cons p txs ih =>
    obtain ⟨tx, index⟩ := p
    obtain ⟨hp, hrest⟩ := List.forall_mem_cons.mp hs
    obtain ⟨sender, hsender⟩ := Option.isSome_iff_exists.mp hp
    simp only at hsender
    simp only [updateTxs, updateTxHistoryIndex, hsender, ih hrest]
    rw [← setAll_append]
    simp only [txsKeys, List.flatMap_cons, hsender, Option.elim_some]

theorem Ready.sender_zipIdx (hr : Ready n confirmed b) :
    ∀ p ∈ b.transactions.zipIdx, (p.1.sender n.networkID).isSome = true := by
  intro p hp
  exact hr.sender p.1 (List.fst_mem_of_mem_zipIdx hp)

def put (n : IndexSetup) (b : MinorBlock) (x : TxIndex) : TxIndex where
  lookup := writeLookups b.hash 0 (n.contents b) x.lookup
  history := setAll true (n.historyKeys b) x.history

def remove (n : IndexSetup) (b : MinorBlock) (x : TxIndex) : TxIndex where
  lookup := setAll none (n.contents b) x.lookup
  history := setAll false (n.historyKeys b) x.history

theorem putTxIndexFromBlock_eq (hr : Ready n confirmed b) :
    n.putTxIndexFromBlock confirmed b x = (.ok (), n.put b x) := by
  simp only [putTxIndexFromBlock, hr.recorded, updateTxs_eq hr.sender_zipIdx]
  rw [← setAll_append]
  rfl

theorem removeTxIndexFromBlock_eq (hr : Ready n confirmed b) :
    n.removeTxIndexFromBlock confirmed b x = (.ok (), n.remove b x) := by
  simp only [removeTxIndexFromBlock, hr.recorded, updateTxs_eq hr.sender_zipIdx]
  rw [← setAll_append]
  rfl

theorem removeBranch_eq {l : List MinorBlock} (hr : ∀ b ∈ l, Ready n confirmed b) :
    n.removeBranch confirmed l x = (.ok (), l.foldr n.remove x) := by
  induction l with
  | nil => rfl
  | cons b l ih =>
    obtain ⟨hb, hl⟩ := List.forall_mem_cons.mp hr
    simp only [removeBranch, ih hl, removeTxIndexFromBlock_eq hb, List.foldr_cons]

theorem insertBranch_eq {l : List MinorBlock} {t : IndexedChain}
    (hr : ∀ b ∈ l, Ready n t.confirmed b)
    (hc : ∀ b ∈ l, (t.chain.totalTxCount b.hash).isSome = true) :
    n.insertBranch l t = (.ok (), { t with
      chain := (MinorBlockChain.insertBranch l t.chain).2
      index := l.foldr n.put t.index }) := by
  induction l with
  | nil => rfl
  | cons b l ih =>
    obtain ⟨hb, hl⟩ := List.forall_mem_cons.mp hr
    obtain ⟨hcb, hcl⟩ := List.forall_mem_cons.mp hc
    have hok : ∃ v, (MinorBlockChain.insertBranch l t.chain).1 = .ok v := by
      rcases insertBranch_cases l t.chain with ⟨hok, -⟩ | ⟨-, d, hd, hnone⟩
      · exact ⟨(), by rw [hok]⟩
      · rw [hcl d hd] at hnone
        cases hnone
    obtain ⟨v, hok⟩ := hok
    have hpair : MinorBlockChain.insertBranch l t.chain =
        (.ok v, (MinorBlockChain.insertBranch l t.chain).2) := Prod.ext hok rfl
    rw [insertBranch, ih hl hcl]
    simp only [putTxIndexFromBlock_eq hb, List.foldr_cons]
    rw [MinorBlockChain.insertBranch, hpair]
    simp only
    split_ifs <;> rfl

end IndexSetup
end QuarkChain.Minor
