/-
# Committing, copying and reloading states

`StateDB.Commit`, `StateDB.Copy` and `New` (`src/core/state/statedb.go`), for a program that holds
several states and several roots at once.

`Finalise` only writes the accounts that are dirty in the journal and remembers them in
`stateObjectsDirty`; `Commit` writes those again, and `Copy` takes the accounts of both along and
leaves the rest to be loaded from the copied trie.  `deepCopy` of an object copies the map of balances but not
the token trie behind it (`TokenBalances.CopyWithDB`, `src/core/types/token.go`): both objects then write to one
trie.  `tokenTries` says which trie in memory an object's token trie is, and `Memory.put` shows a write to a trie
in every state that has it.
-/
import Mathlib.Data.Finset.Filter
import Mathlib.Data.Multiset.Dedup
import QuarkChain.State.Journal

namespace QuarkChain.State

open QuarkChain.Types

def StateDB.tokenTrie (s : StateDB) (a : Recipient) : Option (TokenID → ℕ) :=
  (s.stateObjects a).bind fun o => o.tokenBalances.tokenTrie

/-- A `StateDB` with the part that only `Commit` and `Copy` use. -/
structure Session where
  db : StateDB
  /-- The accounts that `Finalise` has written and `Commit` has not. -/
  stateObjectsDirty : Finset Recipient
  /-- Which trie in memory the token trie of a loaded object is. -/
  tokenTries : Recipient → Option ℕ

namespace Session

/-- `New`: a fresh state over an account trie. -/
def new (trie : Recipient → Option EncodedAccount) : Session where
  db := .new trie { gasLimit := 0, blockCoinbase := 0, timeStamp := 0, blockNumber := 0 }
  stateObjectsDirty := ∅
  tokenTries _ := none

variable (s : Session)

/-- The accounts that are dirty in the journal or remembered from it. -/
def unwritten : Finset Recipient := s.stateObjectsDirty ∪ s.db.dirties.toFinset

def finalise (deleteEmptyObjects : Bool) : Except StatePanic Session :=
  match s.db.finalise deleteEmptyObjects with
  | .error e => .error e
  | .ok db =>
      .ok
        { s with
          db
          stateObjectsDirty := s.stateObjectsDirty ∪
            s.db.dirties.toFinset.filter fun a => (s.db.stateObjects a).isSome }

def commits (a : Recipient) : Bool :=
  a ∈ s.unwritten || (s.db.stateObjects a).elim false StateObject.suicided

def commit (deleteEmptyObjects : Bool) : Except StatePanic Session :=
  if ∃ a ∈ s.unwritten, (s.db.written deleteEmptyObjects a).isNone then .error .tokenTrieWithoutDatabase
  else
    .ok
      { s with
        db :=
          { s.db with
            trie := fun a =>
              if s.commits a then (s.db.written deleteEmptyObjects a).elim none Prod.fst
              else s.db.trie a
            stateObjects := fun a =>
              if s.commits a then (s.db.written deleteEmptyObjects a).elim none Prod.snd
              else s.db.stateObjects a
            journal := []
            dirties := 0
            validRevisions := []
            refund := 0 }
        stateObjectsDirty := s.unwritten.filter fun a => (s.db.stateObjects a).isNone }

/-- `Copy`: the objects of the unwritten accounts, over the same account trie.  An account of
`stateObjectsDirty` without an object is a nil dereference. -/
def copy : Except StatePanic Session :=
  if ∃ a ∈ s.stateObjectsDirty, (s.db.stateObjects a).isNone then .error .nilStateObject
  else
    .ok
      { db :=
          { StateDB.new s.db.trie
              { gasLimit := s.db.block.gasLimit, senderDisallowMap := s.db.block.senderDisallowMap,
                blockCoinbase := s.db.block.blockCoinbase, timeStamp := s.db.block.timeStamp,
                blockNumber := s.db.block.blockNumber } with
            stateObjects := fun a => if a ∈ s.unwritten then s.db.stateObjects a else none
            refund := s.db.refund
            logs := s.db.logs
            logSize := s.db.logSize }
        stateObjectsDirty := s.unwritten.filter fun a => (s.db.stateObjects a).isSome
        tokenTries := fun a => if a ∈ s.unwritten then s.tokenTries a else none }

/-- The tries of the state after an operation that makes `s'` of `s`.  A token trie is opened when an
account is loaded or outgrows its list; no operation puts another one in its place. -/
def opened (s' : Session) (clock : ℕ) : Session :=
  { s' with
    tokenTries := fun a =>
      if (s'.db.tokenTrie a).isNone then none
      else if (s.db.tokenTrie a).isSome then s.tokenTries a
      else some clock }

def Shares (s' : Session) (a : Recipient) : Prop :=
  (s.tokenTries a).isSome = true ∧ s'.tokenTries a = s.tokenTries a

instance (s' : Session) (a : Recipient) : Decidable (s.Shares s' a) :=
  inferInstanceAs (Decidable (_ ∧ _))

/-- What another state sees of the token tries of `s`. -/
def shown (other : Session) : Session :=
  { other with
    db :=
      { other.db with
        stateObjects := fun a =>
          (other.db.stateObjects a).map fun o =>
            if s.Shares other a then
              { o with tokenBalances := { o.tokenBalances with tokenTrie := s.db.tokenTrie a } }
            else o } }

end Session

/-- The states and the roots a program holds, and the number of operations so far. -/
structure Memory where
  states : ℕ → Session
  roots : ℕ → Recipient → Option EncodedAccount
  clock : ℕ

/-- The calls of the program.  States and roots are named by the place they are kept in. -/
inductive Call
  | addBalance (i : ℕ) (a : Recipient) (amount : ℕ) (tokenID : TokenID)
  | subBalance (i : ℕ) (a : Recipient) (amount : ℕ) (tokenID : TokenID)
  | setBalance (i : ℕ) (a : Recipient) (amount : ℕ) (tokenID : TokenID)
  | createAccount (i : ℕ) (a : Recipient)
  | getBalance (i : ℕ) (a : Recipient) (tokenID : TokenID)
  | getBalances (i : ℕ) (a : Recipient)
  | finalise (i : ℕ) (deleteEmptyObjects : Bool)
  /-- `Commit` of state `i`, whose root is kept in place `root`. -/
  | commit (i : ℕ) (deleteEmptyObjects : Bool) (root : ℕ)
  /-- `New` at a root, kept in place `i`. -/
  | reload (root i : ℕ)
  /-- `Copy` of state `i`, kept in place `j`. -/
  | copy (i j : ℕ)

/-- What a call returns: nothing, an amount, or the amounts of all tokens. -/
inductive Answer
  | none
  | amount (n : ℕ)
  | amounts (balances : TokenID → ℕ)

namespace Memory

def start (roots : ℕ → Recipient → Option EncodedAccount) : Memory where
  states i := .new (roots i)
  roots := roots
  clock := 0

variable (m : Memory)

def put (i : ℕ) (s : Session) : Memory :=
  let s := (m.states i).opened s m.clock
  { m with
    states := fun j => if j = i then s else s.shown (m.states j)
    clock := m.clock + 1 }

def putDb (i : ℕ) (db : StateDB) : Memory := m.put i { m.states i with db }

def step : Call → Except StatePanic (Answer × Memory)
  | .addBalance i a amount tokenID =>
      .ok (.none, m.putDb i ((m.states i).db.addBalance a amount tokenID))
  | .subBalance i a amount tokenID =>
      match (m.states i).db.subBalance a amount tokenID with
      | .error e => .error e
      | .ok db => .ok (.none, m.putDb i db)
  | .setBalance i a amount tokenID =>
      .ok (.none, m.putDb i ((m.states i).db.setBalance a amount tokenID))
  | .createAccount i a => .ok (.none, m.putDb i ((m.states i).db.createAccount a))
  | .getBalance i a tokenID =>
      let (amount, db) := (m.states i).db.getBalance a tokenID
      .ok (.amount amount, m.putDb i db)
  | .getBalances i a =>
      let (balances, db) := (m.states i).db.getBalances a
      .ok (.amounts (TokenMap.amount balances), m.putDb i db)
  | .finalise i deleteEmptyObjects =>
      match (m.states i).finalise deleteEmptyObjects with
      | .error e => .error e
      | .ok s => .ok (.none, m.put i s)
  | .commit i deleteEmptyObjects root =>
      match (m.states i).commit deleteEmptyObjects with
      | .error e => .error e
      | .ok s => .ok (.none, { m.put i s with roots := Function.update m.roots root s.db.trie })
  | .reload root i => .ok (.none, { m with states := Function.update m.states i (.new (m.roots root)) })
  | .copy i j =>
      match (m.states i).copy with
      | .error e => .error e
      | .ok s => .ok (.none, { m with states := Function.update m.states j s })

end Memory

end QuarkChain.State
