/-
# What `RevertToSnapshot` gives back

`Op` collects the operations that a caller can perform between a snapshot and a revert, further
snapshots and reverts to them included.  The journal's entries for balances hold the map of balances
alone, and undoing one attaches neither the token trie nor the database again
(`setBalances`), so a revert loses the tokens that only the trie had, and an account whose balances were
put back cannot be moved to a token trie any more: the write-back opens a trie without a database and
panics.  `Undoable` names the operations that stay clear of the first, with the accounts that they
detach; what the second means for the rest of a run is the subject of `QuarkChain.State.Afterwards`.

Two accounts count as the same (`SameAccount`) when every reader sees them alike; the caches of their token
tries may differ, and one of them may have lost its database.
-/
import QuarkChain.Lib.Run
import QuarkChain.State.Block

namespace QuarkChain.State

open QuarkChain.Types StateDB
open Run

/-! ### Accounts that count as the same -/

/-- The balances of one account before and after an undo; `detached` says that the database may have
been lost. -/
structure SameTokens (detached : Prop) (t' t : TokenBalances) : Prop where
  tokenTrie : t'.tokenTrie = t.tokenTrie
  balances : t.tokenTrie = none → t'.balances = t.balances
  balance : t'.balance = t.balance
  db : t'.db = t.db ∨ detached

/-- An account before and after an undo. -/
structure SameAccount (detached : Prop) (o' o : StateObject) : Prop where
  nonce : o'.nonce = o.nonce
  tokens : SameTokens detached o'.tokenBalances o.tokenBalances
  storage : o'.storage = o.storage
  code : o'.code = o.code
  fullShardKey : o'.fullShardKey = o.fullShardKey
  state : o'.getState = o.getState
  suicided : o'.suicided = o.suicided

variable {detached : Prop} {t t' t'' : TokenBalances} {o o' o'' : StateObject}

theorem SameTokens.refl (detached : Prop) (t : TokenBalances) : SameTokens detached t t :=
  ⟨rfl, fun _ => rfl, rfl, .inl rfl⟩

theorem SameTokens.trans (h : SameTokens detached t'' t') (h' : SameTokens detached t' t) :
    SameTokens detached t'' t where
  tokenTrie := h.tokenTrie.trans h'.tokenTrie
  balances ht := (h.balances (h'.tokenTrie.trans ht)).trans (h'.balances ht)
  balance := h.balance.trans h'.balance
  db := by
    rcases h.db with hd | hd
    · rcases h'.db with hd' | hd'
      · exact .inl (hd.trans hd')
      · exact .inr hd'
    · exact .inr hd

theorem SameTokens.symm (h : SameTokens detached t' t) : SameTokens detached t t' where
  tokenTrie := h.tokenTrie.symm
  balances ht := (h.balances (h.tokenTrie.symm.trans ht)).symm
  balance := h.balance.symm
  db := h.db.imp Eq.symm id

/-- A balance read only fills the cache over the trie. -/
theorem SameTokens.read (detached : Prop) (t : TokenBalances) (tokenID : TokenID) :
    SameTokens detached (t.getTokenBalance tokenID).2 t where
  tokenTrie := TokenBalances.getTokenBalance_tokenTrie
  balances ht := by rw [TokenBalances.getTokenBalance_of_tokenTrie_eq_none ht]
  balance := TokenBalances.balance_getTokenBalance
  db := .inl TokenBalances.getTokenBalance_db

theorem SameTokens.detach (hd : detached) (ht : t.tokenTrie = none) :
    SameTokens detached (.newTokenBalancesWithMap t.balances) t where
  tokenTrie := ht.symm
  balances _ := rfl
  balance := by
    funext tokenID
    unfold TokenBalances.balance TokenBalances.newTokenBalancesWithMap
    rw [ht]
  db := .inr hd

theorem SameAccount.refl (detached : Prop) (o : StateObject) : SameAccount detached o o :=
  ⟨rfl, .refl _ _, rfl, rfl, rfl, rfl, rfl⟩

theorem SameAccount.trans (h : SameAccount detached o'' o') (h' : SameAccount detached o' o) :
    SameAccount detached o'' o :=
  ⟨h.nonce.trans h'.nonce, h.tokens.trans h'.tokens, h.storage.trans h'.storage,
    h.code.trans h'.code, h.fullShardKey.trans h'.fullShardKey, h.state.trans h'.state,
    h.suicided.trans h'.suicided⟩

theorem SameAccount.undo (e : JournalEntry) (h : SameAccount detached o' o) :
    SameAccount detached (e.undo o') (e.undo o) := by
  have hmap : ∀ m : TokenMap, SameTokens detached (.newTokenBalancesWithMap m)
      (.newTokenBalancesWithMap m) := fun m => .refl detached _
  cases e with
  | suicide a prev prevbalance => exact { h with tokens := hmap prevbalance, suicided := rfl }
  | balance a prev => exact { h with tokens := hmap prev }
  | nonce a prev => exact { h with nonce := rfl }
  | storage a key prevalue =>
    refine { h with state := ?_ }
    show (o'.setState key prevalue).getState = (o.setState key prevalue).getState
    rw [getState_setState, getState_setState, h.state]
  | code a prevcode => exact { h with code := rfl }
  | createObject | resetObject | refund | addLog | touch => exact h

theorem sameAccount_self (D : Recipient → Prop) (a : Recipient) (o : StateObject) : SameAccount (D a) o o :=
  .refl (D a) o

/-- The tolerance of `RevertToSnapshot`: the accounts in `detached` may lose their database, and the
RIPEMD account may stay dirty when `ripemdDirty`. -/
def detaching (detached : Recipient → Prop) (ripemdDirty : Prop) : Tolerance where
  object a := SameAccount (detached a)
  ripemdDirty := ripemdDirty
  refl := sameAccount_self detached
  trans := .trans
  undo e h := h.undo e
  read a o tokenID := { SameAccount.refl (detached a) o with tokens := .read _ _ tokenID }
  store a o key := by
    refine { SameAccount.refl (detached a) o with state := ?_ }
    rw [getState_setState, Function.update_eq_self]

variable {s' : StateDB} {a : Recipient} {flag : Bool}

theorem detachable {D : Recipient → Prop} {r : Prop} (ha : D a)
    (ht : o.tokenBalances.tokenTrie = none) : (detaching D r).Detachable a o := by
  have hmap : SameAccount (D a) (o.setBalances o.tokenBalances.getBalanceMap) o :=
    { SameAccount.refl (D a) o with tokens := .detach ha ht }
  refine ⟨hmap, fun tokenID => ?_⟩
  rw [TokenBalances.getTokenBalance_of_tokenTrie_eq_none ht]
  exact hmap

theorem notUsingTrie_congr (h : SameTokens detached t' t) : t'.notUsingTrie = t.notUsingTrie := by
  unfold TokenBalances.notUsingTrie TokenBalances.nonZeroEntriesInBalancesCache
  rw [h.tokenTrie]
  cases ht : t.tokenTrie with
  | none => rw [h.balances ht]
  | some content => rfl

theorem isBlank_congr (h : SameTokens detached t' t) : t'.isBlank = t.isBlank := by
  unfold TokenBalances.isBlank TokenBalances.nonZeroEntriesInBalancesCache
  rw [h.tokenTrie]
  cases ht : t.tokenTrie with
  | none => rw [h.balances ht]
  | some content => rfl

/-- Committing balances that count as the same gives balances that count as the same, written alike. -/
theorem commit_congr (h : SameTokens detached t' t) (hd : detached → t.notUsingTrie = true) :
    Option.Rel (fun c' c => SameTokens detached c' c ∧ c'.encode = c.encode) t'.commit t.commit := by
  have hnot := notUsingTrie_congr h
  by_cases hn : t.notUsingTrie = true
  · have ht : t.tokenTrie = none := by
      unfold TokenBalances.notUsingTrie at hn
      simp only [Bool.and_eq_true, Option.isNone_iff_eq_none] at hn
      exact hn.1
    have hc : t.commit = some t := if_pos hn
    have hc' : t'.commit = some t' := if_pos (hnot.trans hn)
    rw [hc, hc']
    refine .some ⟨h, ?_⟩
    unfold TokenBalances.encode
    rw [h.tokenTrie, ht, h.balances ht, hnot]
  · have hdb : t'.db = t.db := h.db.resolve_right fun hx => hn (hd hx)
    have heq : t'.commit = t.commit := by
      unfold TokenBalances.commit
      rw [hnot, h.tokenTrie, hdb, h.balance, if_neg hn, if_neg hn]
    rw [heq]
    cases t.commit with
    | none => exact .none
    | some c => exact .some ⟨.refl _ c, rfl⟩

theorem empty_congr (h : SameAccount detached o' o) : o'.empty = o.empty := by
  unfold StateObject.empty
  rw [h.nonce, h.code, isBlank_congr h.tokens]

/-- Writing back accounts that count as the same writes the same entry, and leaves accounts that count as the
same; the account without a database must not need a token trie. -/
theorem writeBack_congr (h : SameAccount detached o' o) (hdel : o'.deleted = o.deleted)
    (hd : detached → o.tokenBalances.notUsingTrie = true) (flag : Bool) :
    Option.Rel (fun x' x => x'.1 = x.1 ∧ SameAccount detached x'.2 x.2 ∧ x'.2.deleted = x.2.deleted)
      (o'.writeBack flag) (o.writeBack flag) := by
  unfold StateObject.writeBack StateObject.updateRoot
  rw [h.suicided, empty_congr h]
  split_ifs
  · exact .some ⟨rfl, { h with suicided := rfl }, rfl⟩
  have hc := commit_congr h.tokens hd
  generalize o'.tokenBalances.commit = c' at hc
  generalize o.tokenBalances.commit = c at hc
  rcases hc with ⟨htokens, hencode⟩ | _
  · simp only [Option.map_some, Option.bind_some]
    unfold StateObject.encode
    dsimp only
    rw [hencode, h.nonce, h.state, h.code, h.fullShardKey]
    rename_i c₁ c₂
    cases c₂.encode with
    | none => exact .none
    | some tokens =>
      exact .some ⟨rfl, ⟨rfl, htokens, rfl, rfl, rfl, rfl, rfl⟩, hdel⟩
  · exact .none

/-- The operations on a state database between a snapshot and a revert. -/
inductive Op
  | addBalance (addr : Recipient) (amount : ℕ) (tokenID : TokenID)
  | subBalance (addr : Recipient) (amount : ℕ) (tokenID : TokenID)
  | setBalance (addr : Recipient) (amount : ℕ) (tokenID : TokenID)
  | setNonce (addr : Recipient) (nonce : ℕ)
  | setCode (addr : Recipient) (code : List UInt8)
  | setState (addr : Recipient) (key value : Hash)
  | createAccount (addr : Recipient)
  | suicide (addr : Recipient)
  | addRefund (gas : ℕ)
  | subRefund (gas : ℕ)
  | addLog (log : Log)
  | exist (addr : Recipient)
  | empty (addr : Recipient)
  | getBalance (addr : Recipient) (tokenID : TokenID)
  | getBalances (addr : Recipient)
  | getNonce (addr : Recipient)
  | getCode (addr : Recipient)
  | getState (addr : Recipient) (key : Hash)
  | hasSuicided (addr : Recipient)
  | getFullShardKey (addr : Recipient)
  | snapshot
  | revertToSnapshot (revid : ℕ)

def Op.run (s : StateDB) : Op → Except StatePanic StateDB
  | .addBalance a amount tokenID => .ok (s.addBalance a amount tokenID)
  | .subBalance a amount tokenID => s.subBalance a amount tokenID
  | .setBalance a amount tokenID => .ok (s.setBalance a amount tokenID)
  | .setNonce a nonce => .ok (s.setNonce a nonce)
  | .setCode a code => .ok (s.setCode a code)
  | .setState a key value => .ok (s.setState a key value)
  | .createAccount a => .ok (s.createAccount a)
  | .suicide a => .ok (s.suicide a).2
  | .addRefund gas => .ok (s.addRefund gas)
  | .subRefund gas => s.subRefund gas
  | .addLog log => .ok (s.addLog log)
  | .exist a => .ok (s.exist a).2
  | .empty a => .ok (s.empty a).2
  | .getBalance a tokenID => .ok (s.getBalance a tokenID).2
  | .getBalances a => .ok (s.getBalances a).2
  | .getNonce a => .ok (s.getNonce a).2
  | .getCode a => .ok (s.getCode a).2
  | .getState a key => .ok (s.getState a key).2
  | .hasSuicided a => .ok (s.hasSuicided a).2
  | .getFullShardKey a => .ok (s.getFullShardKey a).2
  | .snapshot => .ok s.snapshot.2
  | .revertToSnapshot revid => s.revertToSnapshot revid

def Op.changesBalancesOf : Op → Option Recipient
  | .addBalance a amount _ | .subBalance a amount _ => if amount = 0 then none else some a
  | .setBalance a _ _ | .suicide a => some a
  | _ => none

def Op.touches : Op → Option Recipient
  | .addBalance a amount _ => if amount = 0 then some a else none
  | _ => none

def Op.revertsTo : Op → Option ℕ
  | .revertToSnapshot revid => some revid
  | _ => none

theorem Op.changes {τ : Tolerance} {s : StateDB} {op : Op} (hrun : op.run s = .ok s')
    (hb : ∀ a, op.changesBalancesOf = some a → ∀ o, (s.ensured a).live a = some o →
      τ.Detachable a o) (hr : op.touches = some ripemd → τ.ripemdDirty)
    (hsnap : op ≠ .snapshot) (hrev : op.revertsTo = none) : StateDB.Changes τ s s' := by
  cases op with
  | addBalance a amount tokenID =>
    cases hrun
    refine addBalance_changes (fun hz => hb a (if_neg hz)) fun hz ha => hr ?_
    subst ha
    exact if_pos hz
  | subBalance a amount tokenID =>
    exact subBalance_changes (fun hz => hb a (if_neg hz)) hrun
  | setBalance a amount tokenID =>
    cases hrun
    exact setBalance_changes (hb a rfl)
  | suicide a =>
    cases hrun
    refine suicide_changes fun o ho => hb a rfl o ?_
    rw [ensured_of_live_eq_some ho]
    exact ho
  | subRefund gas => exact subRefund_changes hrun
  | snapshot => exact absurd rfl hsnap
  | revertToSnapshot revid => cases hrev
  | setNonce a nonce =>
    cases hrun
    exact setNonce_changes s a nonce
  | setCode a code =>
    cases hrun
    exact setCode_changes s a code
  | setState a key value =>
    cases hrun
    exact setState_changes s a key value
  | createAccount a =>
    cases hrun
    exact createAccount_changes s a
  | addRefund gas =>
    cases hrun
    exact addRefund_changes s gas
  | addLog log =>
    cases hrun
    exact addLog_changes s log
  | getBalance a tokenID =>
    cases hrun
    exact getBalance_changes s a tokenID
  | exist a | empty a | getCode a | getState a key | hasSuicided a =>
    cases hrun
    exact getStateObject_changes s a
  | getBalances a | getNonce a | getFullShardKey a =>
    cases hrun
    exact getOrNewStateObject_changes s a

/-! ### What can be observed -/

/-- Two states that every reader and the next root computation see alike. -/
structure SameObservables (u s : StateDB) : Prop where
  exist : ∀ a, (u.exist a).1 = (s.exist a).1
  empty : ∀ a, (u.empty a).1 = (s.empty a).1
  balance : ∀ a tokenID, (u.getBalance a tokenID).1 = (s.getBalance a tokenID).1
  nonce : ∀ a, (u.getNonce a).1 = (s.getNonce a).1
  code : ∀ a, (u.getCode a).1 = (s.getCode a).1
  storage : ∀ a key, (u.getState a key).1 = (s.getState a key).1
  suicided : ∀ a, (u.hasSuicided a).1 = (s.hasSuicided a).1
  fullShardKey : ∀ a, (u.getFullShardKey a).1 = (s.getFullShardKey a).1
  refund : u.refund = s.refund
  logs : u.logs = s.logs
  root : ∀ deleteEmptyObjects,
    u.intermediateRoot deleteEmptyObjects = s.intermediateRoot deleteEmptyObjects

/-- What a node does with a state database: operations, `Finalise`, and setting the fields that the
operations only read. -/
inductive BlockOp
  | perform (op : Op)
  | finalise (deleteEmptyObjects : Bool)
  | prepare (thash bhash : Hash) (txIndex : ℕ)
  | setFullShardKey (fullShardKey : ℕ)
  | setBlock (block : BlockFields)

def BlockOp.run (s : StateDB) : BlockOp → Except StatePanic StateDB
  | .perform op => op.run s
  | .finalise deleteEmptyObjects => s.finalise deleteEmptyObjects
  | .prepare thash bhash txIndex => .ok { s with thash, bhash, txIndex }
  | .setFullShardKey fullShardKey => .ok { s with fullShardKey }
  | .setBlock block => .ok { s with block }

/-- A run of operations, up to the first panic. -/
def runAll (s : StateDB) : List BlockOp → Except StatePanic StateDB
  | [] => .ok s
  | b :: rest =>
      match b.run s with
      | .error e => .error e
      | .ok s => runAll s rest

/-- The states that a node can reach from the account trie of some block. -/
def Reachable (trie : Recipient → Option EncodedAccount) (block : BlockFields) : StateDB → Prop :=
  Reaches (fun s (b : BlockOp) s' => b.run s = .ok s') (fun _ _ => True) (.new trie block)

theorem consistent_new (trie : Recipient → Option EncodedAccount) (block : BlockFields) :
    (StateDB.new trie block).Consistent where
  wellFormed := ⟨nofun, fun h => absurd h (Multiset.notMem_zero _), nofun⟩
  revisions := ⟨.nil, .nil, nofun, nofun⟩

theorem writeBack_fst_of_deleted {r : Option EncodedAccount × StateObject}
    (h : o.writeBack flag = some r) (ho : o.deleted = false) (hr : r.2.deleted = true) :
    r.1 = none := by
  unfold StateObject.writeBack at h
  split_ifs at h
  · cases h
    rfl
  obtain ⟨x, hx, h⟩ := Option.bind_eq_some_iff.mp h
  obtain ⟨data, -, rfl⟩ := Option.map_eq_some_iff.mp h
  obtain ⟨tokens, -, rfl⟩ := Option.map_eq_some_iff.mp hx
  exact absurd (hr.symm.trans ho) Bool.noConfusion

theorem consistent_finalise {s : StateDB} (h : s.Consistent)
    (hf : s.finalise flag = .ok s') : s'.Consistent := by
  unfold StateDB.finalise at hf
  split_ifs at hf with hex
  cases hf
  refine ⟨⟨fun {a o} ho hd => ?_, fun ha => absurd ha (Multiset.notMem_zero _), nofun⟩,
    ⟨.nil, .nil, nofun, nofun⟩⟩
  dsimp only at ho ⊢
  by_cases ha : a ∈ s.dirties
  · rw [if_pos ha] at ho ⊢
    unfold StateDB.written at ho ⊢
    rcases h.wellFormed.dirty ha with ⟨x, hx, hxd⟩ | ⟨hn, -⟩
    · rw [hx] at ho ⊢
      dsimp only at ho ⊢
      cases hw : x.writeBack flag with
      | none =>
        rw [hw] at ho
        cases ho
      | some r =>
        rw [hw] at ho
        cases ho
        exact writeBack_fst_of_deleted hw hxd hd
    · rw [hn] at ho
      cases ho
  · rw [if_neg ha] at ho ⊢
    exact h.wellFormed.deleted_trie ho hd

theorem consistent_run {s : StateDB} {op : Op} (h : s.Consistent) (hrun : op.run s = .ok s') :
    s'.Consistent := by
  by_cases hsnap : op = .snapshot
  · subst hsnap
    cases hrun
    exact h.snapshot
  cases hrev : op.revertsTo with
  | some revid =>
    cases op with
    | revertToSnapshot id => exact h.revertToSnapshot hrun
    | _ => cases hrev
  | none =>
    have hc : StateDB.Changes anyTolerance s s' :=
      Op.changes hrun (fun _ _ _ _ => ⟨trivial, fun _ => trivial⟩) (fun _ => trivial) hsnap hrev
    exact h.changes hc

theorem consistent_blockOp {s : StateDB} {b : BlockOp} (h : s.Consistent)
    (hrun : b.run s = .ok s') : s'.Consistent := by
  cases b with
  | perform op => exact consistent_run h hrun
  | finalise flag => exact consistent_finalise h hrun
  | prepare | setFullShardKey | setBlock =>
    cases hrun
    exact h.withContext _ _ _ _ _

theorem consistent_of_reachable {trie : Recipient → Option EncodedAccount} {block : BlockFields}
    {s : StateDB} (h : Reachable trie block s) : s.Consistent :=
  h.induct_inv StateDB.Consistent (consistent_new trie block)
    fun _ _ _ hs _ hstep => consistent_blockOp hs hstep

/-- An operation in state `s` that a revert to the snapshot of `s₀` can undo, up to detaching the accounts in
`D`.  It changes balances only of accounts in `D`, and only while the account has no token trie; it credits the
RIPEMD account with nothing only if `r`; and it does not revert to the snapshot of `s₀` or to an older one. -/
structure Undoable (D : Recipient → Prop) (r : Prop) (s₀ s : StateDB) (op : Op) : Prop where
  balances : ∀ a, op.changesBalancesOf = some a →
    D a ∧ ∀ o, s.live a = some o → o.tokenBalances.tokenTrie = none
  ripemd : op.touches = some ripemd → r
  newer : ∀ revid, op.revertsTo = some revid → s₀.nextRevisionId < revid

variable {D : Recipient → Prop} {r : Prop}

theorem extends_run {s₀ s : StateDB} {op : Op} (h₀ : s₀.Consistent)
    (h : StateDB.Extends (detaching D r) s₀.snapshot.2 s) (hu : Undoable D r s₀ s op)
    (hrun : op.run s = .ok s') : StateDB.Extends (detaching D r) s₀.snapshot.2 s' := by
  by_cases hsnap : op = .snapshot
  · subst hsnap
    cases hrun
    exact h.trans (h.consistent.extends_snapshot _)
  cases hrev : op.revertsTo with
  | some revid =>
    have hid := hu.newer revid hrev
    cases op with
    | revertToSnapshot id =>
      cases hrev
      exact h.rollback h₀.snapshot hid hrun
    | _ => cases hrev
  | none =>
    refine h.trans (h.consistent.extends (Op.changes hrun ?_ hu.ripemd hsnap hrev))
    intro a ha o ho
    obtain ⟨hD, htrie⟩ := hu.balances a ha
    refine detachable hD ?_
    cases hl : s.live a with
    | some x =>
      rw [ensured_of_live_eq_some hl] at ho
      exact htrie o ho
    | none =>
      rw [ensured_of_live_eq_none hl, live_created_self] at ho
      cases ho
      rfl

/-- **A run of undoable operations can be reverted,** without a panic, up to what it detached. -/
theorem revertToSnapshot_restored {s₀ s : StateDB} (h₀ : s₀.Consistent)
    (hrun : Reaches (fun s (op : Op) s' => op.run s = .ok s') (Undoable D r s₀) s₀.snapshot.2 s) :
    ∃ s', s.revertToSnapshot s₀.snapshot.1 = .ok s' ∧ StateDB.Restored (detaching D r) s' s₀ ∧
      s'.Consistent := by
  have hext := hrun.induct_inv (StateDB.Extends (detaching D r) s₀.snapshot.2)
    (h₀.snapshot.extends_refl _) fun _ _ _ h hu hstep => extends_run h₀ h hu hstep
  obtain ⟨s', hs', hrestored, hext'⟩ := StateDB.Extends.revertToSnapshot h₀ hext
  exact ⟨s', hs', hrestored, hext'.consistent⟩

/-- A fresh state in which account `1` holds `5` of token `7` as a map and account `2` holds `5` of
each of `17` tokens in a trie. -/
def sampleState : StateDB :=
  .new
    (fun a =>
      if a = 1 then
        some { nonce := 0, tokens := .list (Finmap.singleton 7 5), storage := fun _ => 0, code := [],
               fullShardKey := 0 }
      else if a = 2 then
        some { nonce := 0, tokens := .trie fun tokenID => if tokenID < 17 then 5 else 0,
               storage := fun _ => 0, code := [], fullShardKey := 0 }
      else none)
    { gasLimit := 0, blockCoinbase := 0, timeStamp := 0, blockNumber := 0 }

end QuarkChain.State
