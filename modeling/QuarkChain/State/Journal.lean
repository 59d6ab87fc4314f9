/-
# State operations and their journal

The readers and writers of `state.StateDB`: what each loads, what it writes to the journal, and what it changes.
`JournalEntry.revert` undoes one entry, `popEntry` does so for the newest one and drops its dirty mark, and
`revertToSnapshot` undoes down to a snapshot.  `finalise` writes the dirty accounts back; its result carries the
new account trie, which stands for the state root.

Reading can change the state: `getStateObject` loads an account, a balance read fills the token
cache, and `GetNonce`, `GetBalances` and `GetFullShardKey` create an account that is missing.
-/
import QuarkChain.Lib.Rollback
import QuarkChain.State.StateDB

namespace QuarkChain.State

open QuarkChain.Types

namespace StateDB

def new (trie : Recipient → Option EncodedAccount) (block : BlockFields) : StateDB where
  trie := trie
  stateObjects _ := none
  refund := 0
  thash := 0
  bhash := 0
  txIndex := 0
  logs _ := []
  logSize := 0
  journal := []
  dirties := 0
  validRevisions := []
  nextRevisionId := 0
  fullShardKey := 0
  block := block

variable (s : StateDB) (addr : Recipient)

def setStateObject (object : StateObject) : StateDB :=
  { s with stateObjects := Function.update s.stateObjects addr (some object) }

def append (entry : JournalEntry) : StateDB :=
  { s with
    journal := entry :: s.journal
    dirties := entry.dirtied.elim s.dirties fun a => a ::ₘ s.dirties }

/-- `getStateObject`: prefer live objects, else load the account from the trie. -/
def getStateObject : Option StateObject × StateDB :=
  match s.stateObjects addr with
  | some obj => if obj.deleted then (none, s) else (some obj, s)
  | none =>
      match s.trie addr with
      | none => (none, s)
      | some data => (some (.newObject data), s.setStateObject addr (.newObject data))

/-- `createObject`: a new object takes the place of an existing one; only its full shard key is
carried over. -/
def createObject : StateObject × StateDB :=
  match s.getStateObject addr with
  | (none, s) =>
      let newobj := StateObject.blank s.fullShardKey
      (newobj, (s.append (.createObject addr)).setStateObject addr newobj)
  | (some prev, s) =>
      let newobj := StateObject.blank prev.fullShardKey
      (newobj, (s.append (.resetObject addr prev)).setStateObject addr newobj)

def getOrNewStateObject : StateObject × StateDB :=
  match s.getStateObject addr with
  | (some obj, s) => (obj, s)
  | (none, s) => s.createObject addr

def exist : Bool × StateDB :=
  let (obj, s) := s.getStateObject addr
  (obj.isSome, s)

def empty : Bool × StateDB :=
  let (obj, s) := s.getStateObject addr
  (obj.elim true StateObject.empty, s)

def getBalance (tokenID : TokenID) : ℕ × StateDB :=
  match s.getStateObject addr with
  | (none, s) => (0, s)
  | (some obj, s) =>
      let (amount, tokenBalances) := obj.tokenBalances.getTokenBalance tokenID
      (amount, s.setStateObject addr { obj with tokenBalances })

/-- `GetBalances`: a copy of the map; creates the account when it is missing. -/
def getBalances : TokenMap × StateDB :=
  let (obj, s) := s.getOrNewStateObject addr
  (obj.tokenBalances.getBalanceMap, s)

def getNonce : ℕ × StateDB :=
  let (obj, s) := s.getOrNewStateObject addr
  (obj.nonce, s)

def getCode : List UInt8 × StateDB :=
  let (obj, s) := s.getStateObject addr
  (obj.elim [] StateObject.code, s)

def getState (key : Hash) : Hash × StateDB :=
  let (obj, s) := s.getStateObject addr
  (obj.elim 0 fun o => o.getState key, s)

def hasSuicided : Bool × StateDB :=
  let (obj, s) := s.getStateObject addr
  (obj.elim false StateObject.suicided, s)

def getFullShardKey : ℕ × StateDB :=
  let (obj, s) := s.getOrNewStateObject addr
  (obj.fullShardKey, s)

def touch : StateDB :=
  let s := s.append (.touch addr)
  if addr = ripemd then { s with dirties := addr ::ₘ s.dirties } else s

/-- `stateObject.SetBalance` on the live object `obj` of `addr`. -/
def setObjectBalance (obj : StateObject) (amount : ℕ) (tokenID : TokenID) : StateDB :=
  (s.append (.balance addr obj.tokenBalances.getBalanceMap)).setStateObject addr
    { obj with tokenBalances := obj.tokenBalances.setValue tokenID amount }

def addBalance (amount : ℕ) (tokenID : TokenID) : StateDB :=
  let (obj, s) := s.getOrNewStateObject addr
  if amount = 0 then s.touch addr
  else
    let (balance, tokenBalances) := obj.tokenBalances.getTokenBalance tokenID
    s.setObjectBalance addr { obj with tokenBalances } (balance + amount) tokenID

/-- `SubBalance`; going below zero makes `SetValue` panic. -/
def subBalance (amount : ℕ) (tokenID : TokenID) : Except StatePanic StateDB :=
  let (obj, s) := s.getOrNewStateObject addr
  if amount = 0 then .ok s
  else
    let (balance, tokenBalances) := obj.tokenBalances.getTokenBalance tokenID
    if balance < amount then .error .negativeBalance
    else .ok (s.setObjectBalance addr { obj with tokenBalances } (balance - amount) tokenID)

def setBalance (amount : ℕ) (tokenID : TokenID) : StateDB :=
  let (obj, s) := s.getOrNewStateObject addr
  s.setObjectBalance addr obj amount tokenID

def setNonce (nonce : ℕ) : StateDB :=
  let (obj, s) := s.getOrNewStateObject addr
  (s.append (.nonce addr obj.nonce)).setStateObject addr { obj with nonce }

def setCode (code : List UInt8) : StateDB :=
  let (obj, s) := s.getOrNewStateObject addr
  (s.append (.code addr obj.code)).setStateObject addr { obj with code }

def setState (key value : Hash) : StateDB :=
  let (obj, s) := s.getOrNewStateObject addr
  if obj.getState key = value then s
  else (s.append (.storage addr key (obj.getState key))).setStateObject addr (obj.setState key value)

def suicide : Bool × StateDB :=
  match s.getStateObject addr with
  | (none, s) => (false, s)
  | (some obj, s) =>
      (true, (s.append (.suicide addr obj.suicided obj.tokenBalances.getBalanceMap)).setStateObject
        addr { obj with suicided := true, tokenBalances := .new })

/-- `CreateAccount`: the balance map of an existing account is carried over. -/
def createAccount : StateDB :=
  let (prev, s) := s.getStateObject addr
  let (newobj, s) := s.createObject addr
  match prev with
  | none => s
  | some prev => s.setStateObject addr (newobj.setBalances prev.tokenBalances.getBalanceMap)

def addRefund (gas : ℕ) : StateDB :=
  { s.append (.refund s.refund) with refund := (s.refund + gas) % 2 ^ 64 }

def subRefund (gas : ℕ) : Except StatePanic StateDB :=
  if gas > s.refund then .error .refundCounterBelowZero
  else .ok { s.append (.refund s.refund) with refund := s.refund - gas }

/-- `AddLog`: the position fields of the log are filled in. -/
def addLog (log : Log) : StateDB :=
  let log :=
    { log with txHash := s.thash, blockHash := s.bhash, txIndex := s.txIndex, index := s.logSize }
  { s.append (.addLog s.thash) with
    logs := Function.update s.logs s.thash (s.logs s.thash ++ [log])
    logSize := s.logSize + 1 }

end StateDB

/-- `revert` of one journal entry; a missing account is a nil dereference, except for `suicide`. -/
def JournalEntry.revert (s : StateDB) : JournalEntry → Except StatePanic StateDB
  | .createObject a => .ok { s with stateObjects := Function.update s.stateObjects a none }
  | .resetObject a prev => .ok (s.setStateObject a prev)
  | .suicide a prev prevbalance =>
      match s.getStateObject a with
      | (none, s) => .ok s
      | (some obj, s) =>
          .ok (s.setStateObject a ({ obj with suicided := prev }.setBalances prevbalance))
  | .balance a prev => onObject a fun obj => obj.setBalances prev
  | .nonce a prev => onObject a fun obj => { obj with nonce := prev }
  | .storage a key prevalue => onObject a fun obj => obj.setState key prevalue
  | .code a prevcode => onObject a fun obj => { obj with code := prevcode }
  | .refund prev => .ok { s with refund := prev }
  | .addLog txhash =>
      .ok
        { s with
          logs := Function.update s.logs txhash (s.logs txhash).dropLast
          logSize := s.logSize - 1 }
  | .touch _ => .ok s
where
  /-- Change the live object of an account that must exist. -/
  onObject (a : Recipient) (f : StateObject → StateObject) : Except StatePanic StateDB :=
    match s.getStateObject a with
    | (none, _) => .error .nilStateObject
    | (some obj, s) => .ok (s.setStateObject a (f obj))

namespace StateDB

variable (s : StateDB)

/-- One round of `journal.revert`: undo the newest entry and drop its dirty mark. -/
def popEntry : Except StatePanic StateDB :=
  match s.journal with
  | [] => .ok s
  | entry :: rest =>
      match entry.revert s with
      | .error e => .error e
      | .ok s =>
          .ok
            { s with
              journal := rest
              dirties := entry.dirtied.elim s.dirties fun a => s.dirties.erase a }

def revertJournal (snapshot : ℕ) : ℕ → StateDB → Except StatePanic StateDB
  | 0, s => .ok s
  | fuel + 1, s =>
      if s.journal.length ≤ snapshot then .ok s
      else
        match s.popEntry with
        | .error e => .error e
        | .ok s => revertJournal snapshot fuel s

def snapshot : ℕ × StateDB :=
  (s.nextRevisionId,
    { s with
      nextRevisionId := s.nextRevisionId + 1
      validRevisions := s.validRevisions ++ [(s.nextRevisionId, s.journal.length)] })

/-- `RevertToSnapshot`.  The ids of `validRevisions` go up, so the binary search of the source finds
the first id that is not smaller than `revid`. -/
def revertToSnapshot (revid : ℕ) : Except StatePanic StateDB :=
  let idx := s.validRevisions.findIdx fun r => revid ≤ r.1
  match s.validRevisions[idx]? with
  | none => .error .revisionCannotBeReverted
  | some (id, journalIndex) =>
      if id ≠ revid then .error .revisionCannotBeReverted
      else
        match revertJournal journalIndex s.journal.length s with
        | .error e => .error e
        | .ok s => .ok { s with validRevisions := s.validRevisions.take idx }

/-- What `Finalise` does with one dirty account: the entry the trie has afterwards and the live
object.  An account without a live object is skipped; `none` is a panic. -/
def written (deleteEmptyObjects : Bool) (addr : Recipient) :
    Option (Option EncodedAccount × Option StateObject) :=
  match s.stateObjects addr with
  | none => some (s.trie addr, none)
  | some obj => (obj.writeBack deleteEmptyObjects).map fun r => (r.1, some r.2)

def WriteBackPanics (deleteEmptyObjects : Bool) : Prop :=
  ∃ a ∈ s.dirties, (s.written deleteEmptyObjects a).isNone

-- Found by looking through the dirty accounts, not through all addresses.
instance (deleteEmptyObjects : Bool) : Decidable (s.WriteBackPanics deleteEmptyObjects) :=
  Multiset.decidableExistsMultiset

/-- `Finalise`: write the dirty accounts back and clear journal and refund. -/
def finalise (deleteEmptyObjects : Bool) : Except StatePanic StateDB :=
  if s.WriteBackPanics deleteEmptyObjects then .error .tokenTrieWithoutDatabase
  else
    .ok
      { s with
        trie := fun a =>
          if a ∈ s.dirties then (s.written deleteEmptyObjects a).elim none Prod.fst else s.trie a
        stateObjects := fun a =>
          if a ∈ s.dirties then (s.written deleteEmptyObjects a).elim none Prod.snd
          else s.stateObjects a
        journal := []
        dirties := 0
        validRevisions := []
        refund := 0 }

def intermediateRoot (deleteEmptyObjects : Bool) : Except StatePanic (Recipient → Option EncodedAccount) :=
  (s.finalise deleteEmptyObjects).map StateDB.trie

end StateDB
end QuarkChain.State
