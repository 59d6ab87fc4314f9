/-
# The state database

`state.StateDB` and `state.stateObject` (`src/core/state/statedb.go`, `state_object.go`): accounts
are loaded from the account trie into live objects, changed there, and written back by `Finalise`.
The account trie and the storage tries are represented by their content, and a code hash by the code.
`originStorage` repeats the storage trie and is not modelled, nor are database errors and the preimage table.

Every change is written to the journal first (`QuarkChain.State.Journal`).  Panics of the source are
`StatePanic`s.
-/
import Mathlib.Data.Multiset.Basic
import QuarkChain.State.TokenBalances

namespace QuarkChain.State

open QuarkChain.Types

inductive StatePanic
  | negativeBalance
  | refundCounterBelowZero
  | revisionCannotBeReverted
  | nilStateObject
  | tokenTrieWithoutDatabase
deriving DecidableEq

structure EncodedAccount where
  nonce : ℕ
  tokens : EncodedTokens
  storage : Hash → Hash
  code : List UInt8
  fullShardKey : ℕ

/-- `state.stateObject`: an account that is being modified. -/
structure StateObject where
  nonce : ℕ
  tokenBalances : TokenBalances
  /-- The content of the storage trie. -/
  storage : Hash → Hash
  code : List UInt8
  fullShardKey : ℕ
  /-- Storage entries that still have to be written to the trie. -/
  dirtyStorage : Hash → Option Hash
  suicided : Bool
  deleted : Bool

structure Log where
  address : Recipient
  topics : List Hash
  data : List UInt8
  blockNumber : ℕ
  txHash : Hash
  blockHash : Hash
  txIndex : ℕ
  index : ℕ
deriving DecidableEq

/-- The journal's entries (`src/core/state/journal.go`). -/
inductive JournalEntry
  | createObject (account : Recipient)
  | resetObject (account : Recipient) (prev : StateObject)
  | suicide (account : Recipient) (prev : Bool) (prevbalance : TokenMap)
  | balance (account : Recipient) (prev : TokenMap)
  | nonce (account : Recipient) (prev : ℕ)
  | storage (account : Recipient) (key prevalue : Hash)
  | code (account : Recipient) (prevcode : List UInt8)
  | refund (prev : ℕ)
  | addLog (txhash : Hash)
  | touch (account : Recipient)

/-- `dirtied`: the account an entry marks as dirty. -/
def JournalEntry.dirtied : JournalEntry → Option Recipient
  | .createObject a | .suicide a _ _ | .balance a _ | .nonce a _ | .storage a _ _ | .code a _
  | .touch a => some a
  | .resetObject _ _ | .refund _ | .addLog _ => none

/-- The fields of `StateDB` that block processing uses and the account operations do not. -/
structure BlockFields where
  gasUsed : ℕ := 0
  gasLimit : ℕ
  xShardReceiveGasUsed : ℕ := 0
  blockFee : TokenMap := ∅
  xShardList : List CrossShardTransactionDeposit := []
  senderDisallowMap : Recipient → Option ℕ := fun _ => none
  blockCoinbase : Recipient
  timeStamp : ℕ
  blockNumber : ℕ
  xShardTxCursorInfo : Option XShardTxCursorInfo := none

/-- `state.StateDB`.  The journal is kept newest entry first, the dirty counter of the journal as a
multiset of accounts, and `validRevisions` oldest first as pairs of id and journal length. -/
structure StateDB where
  trie : Recipient → Option EncodedAccount
  stateObjects : Recipient → Option StateObject
  refund : ℕ
  thash : Hash
  bhash : Hash
  txIndex : ℕ
  logs : Hash → List Log
  logSize : ℕ
  journal : List JournalEntry
  dirties : Multiset Recipient
  validRevisions : List (ℕ × ℕ)
  nextRevisionId : ℕ
  fullShardKey : ℕ
  block : BlockFields

/-- The account of the RIPEMD precompile, which stays dirty when its touch is reverted. -/
def ripemd : Recipient := 3

namespace StateObject

def newObject (data : EncodedAccount) : StateObject where
  nonce := data.nonce
  tokenBalances := .decode data.tokens
  storage := data.storage
  code := data.code
  fullShardKey := data.fullShardKey
  dirtyStorage _ := none
  suicided := false
  deleted := false

def blank (fullShardKey : ℕ) : StateObject where
  nonce := 0
  tokenBalances := .new
  storage _ := 0
  code := []
  fullShardKey := fullShardKey
  dirtyStorage _ := none
  suicided := false
  deleted := false

variable (o : StateObject)

def empty : Bool := o.nonce == 0 && o.tokenBalances.isBlank && o.code.isEmpty

def getState (key : Hash) : Hash := (o.dirtyStorage key).getD (o.storage key)

/-- `setBalances`: the balances are replaced by a map, with no trie and no database attached. -/
def setBalances (balances : TokenMap) : StateObject :=
  { o with tokenBalances := .newTokenBalancesWithMap balances }

def setState (key value : Hash) : StateObject :=
  { o with dirtyStorage := Function.update o.dirtyStorage key (some value) }

/-- `updateRoot`: flush the storage and commit the token balances; `none` is the panic of the
latter. -/
def updateRoot : Option StateObject :=
  o.tokenBalances.commit.map fun tokenBalances =>
    { o with tokenBalances, storage := o.getState, dirtyStorage := fun _ => none }

/-- `EncodeRLP` of the account; `none` is the error of `SerializeToBytes`. -/
def encode : Option EncodedAccount :=
  o.tokenBalances.encode.map fun tokens =>
    { nonce := o.nonce, tokens, storage := o.storage, code := o.code,
      fullShardKey := o.fullShardKey }

/-- What `Finalise` does with a dirty object: delete it, or flush it and write it to the trie.  The
result is the new trie entry and the object; `none` is a panic. -/
def writeBack (deleteEmptyObjects : Bool) : Option (Option EncodedAccount × StateObject) :=
  if o.suicided || (deleteEmptyObjects && o.empty) then some (none, { o with deleted := true })
  else o.updateRoot.bind fun o => o.encode.map fun data => (some data, o)

end StateObject
end QuarkChain.State
