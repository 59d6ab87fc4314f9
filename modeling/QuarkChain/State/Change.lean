/-
# What an operation can do

Every operation of the state database is a chain of a few primitive changes (`Change`): it refreshes
a live object (loading it, filling its token cache), creates or resets one, edits one after writing
to the journal how to undo that, touches one, or moves the refund counter or the logs.  The lemmas
`*_changes` say so for each operation, and nothing below looks at the operations again.

How closely undoing an edit gives the object back is left open: a `Tolerance` says which objects
count as the same.
-/
import Mathlib.Logic.Relation
import QuarkChain.State.View

namespace QuarkChain.State

open QuarkChain.Types

/-- The account whose live object an entry's `revert` rewrites. -/
def JournalEntry.edits : JournalEntry → Option Recipient
  | .suicide a _ _ | .balance a _ | .nonce a _ | .storage a _ _ | .code a _ => some a
  | _ => none

/-- How `revert` rewrites that object. -/
def JournalEntry.undo : JournalEntry → StateObject → StateObject
  | .suicide _ prev prevbalance, o => { o with suicided := prev }.setBalances prevbalance
  | .balance _ prev, o => o.setBalances prev
  | .nonce _ prev, o => { o with nonce := prev }
  | .storage _ key prevalue, o => o.setState key prevalue
  | .code _ prevcode, o => { o with code := prevcode }
  | _, o => o

variable {tokenID : TokenID} {e : JournalEntry}

theorem JournalEntry.dirtied_of_edits {a : Recipient} (h : e.edits = some a) :
    e.dirtied = some a := by
  cases e <;> simp_all [edits, dirtied]

@[simp] theorem JournalEntry.deleted_undo (e : JournalEntry) (o : StateObject) :
    (e.undo o).deleted = o.deleted := by
  cases e <;> rfl

theorem JournalEntry.onObject_eq {s : StateDB} {a : Recipient} {o : StateObject}
    (f : StateObject → StateObject) (h : s.live a = some o) :
    revert.onObject s a f = .ok (s.setStateObject a (f o)) := by
  unfold revert.onObject
  rw [StateDB.getStateObject_of_live_eq_some h]
  dsimp only
  rw [StateDB.setStateObject_setStateObject]

theorem JournalEntry.revert_of_edits {s : StateDB} {a : Recipient}
    {o : StateObject} (he : e.edits = some a) (h : s.live a = some o) :
    e.revert s = .ok (s.setStateObject a (e.undo o)) := by
  cases e with
  | suicide b prev prevbalance =>
    cases he
    unfold revert
    dsimp only
    rw [StateDB.getStateObject_of_live_eq_some h]
    dsimp only
    rw [StateDB.setStateObject_setStateObject]
    rfl
  | balance | nonce | storage | code =>
    cases he
    exact onObject_eq _ h
  | createObject | resetObject | refund | addLog | touch => cases he

/-- Which objects count as the same after an undo, and whether the RIPEMD account may stay dirty.
Filling the token cache and writing a storage slot back are always tolerated. -/
structure Tolerance where
  object : Recipient → StateObject → StateObject → Prop
  ripemdDirty : Prop
  refl : ∀ a o, object a o o
  trans : ∀ {a o₁ o₂ o₃}, object a o₁ o₂ → object a o₂ o₃ → object a o₁ o₃
  undo : ∀ {a o' o} (e : JournalEntry), object a o' o → object a (e.undo o') (e.undo o)
  read : ∀ a (o : StateObject) tokenID,
    object a { o with tokenBalances := (o.tokenBalances.getTokenBalance tokenID).2 } o
  store : ∀ a (o : StateObject) key, object a (o.setState key (o.getState key)) o

/-- The balances of `o` may be put back as a map without trie and database. -/
def Tolerance.Detachable (τ : Tolerance) (a : Recipient) (o : StateObject) : Prop :=
  τ.object a (o.setBalances o.tokenBalances.getBalanceMap) o ∧
    ∀ tokenID, τ.object a
      (o.setBalances (o.tokenBalances.getTokenBalance tokenID).2.getBalanceMap) o

/-- The tolerance that only asks for the account to be there. -/
def anyTolerance : Tolerance where
  object _ _ _ := True
  ripemdDirty := True
  refl _ _ := trivial
  trans _ _ := trivial
  undo _ _ := trivial
  read _ _ _ := trivial
  store _ _ _ := trivial

theorem detachable_any (a : Recipient) (o : StateObject) : anyTolerance.Detachable a o :=
  ⟨trivial, fun _ => trivial⟩

namespace StateDB

variable {τ : Tolerance} {s s' : StateDB} {a : Recipient} {o : StateObject}

/-- The primitive changes. -/
inductive Change (τ : Tolerance) (s : StateDB) : StateDB → Prop
  | refresh {a : Recipient} {o o' : StateObject} (h : s.live a = some o) (hd : o'.deleted = false)
      (ho : τ.object a o' o) : Change τ s (s.setStateObject a o')
  | create {a : Recipient} (h : s.live a = none) : Change τ s (s.created a)
  | reset {a : Recipient} {o o' : StateObject} (h : s.live a = some o) (hd : o'.deleted = false) :
      Change τ s ((s.append (.resetObject a o)).setStateObject a o')
  | edit {a : Recipient} {e : JournalEntry} {o o' : StateObject} (he : e.edits = some a)
      (h : s.live a = some o) (hd : o'.deleted = false) (ho : τ.object a (e.undo o') o) :
      Change τ s ((s.append e).setStateObject a o')
  | touch {a : Recipient} (h : s.Loaded a) (hr : a = ripemd → τ.ripemdDirty) : Change τ s (s.touch a)
  | refund {gas : ℕ} : Change τ s { s.append (.refund s.refund) with refund := gas }
  | log {log : Log} : Change τ s (s.addLog log)

def Changes (τ : Tolerance) : StateDB → StateDB → Prop := Relation.ReflTransGen (Change τ)

theorem Changes.refl : Changes τ s s := Relation.ReflTransGen.refl

theorem Changes.trans {s'' : StateDB} (h : Changes τ s s') (h' : Changes τ s' s'') : Changes τ s s'' :=
  Relation.ReflTransGen.trans h h'

theorem Change.changes (h : Change τ s s') : Changes τ s s' := Relation.ReflTransGen.single h

theorem Change.load (h : s.live a = some o) : Change τ s (s.setStateObject a o) :=
  .refresh h (deleted_of_live h) (τ.refl a o)

theorem getStateObject_changes (s : StateDB) (a : Recipient) : Changes τ s (s.getStateObject a).2 := by
  cases h : s.live a with
  | none =>
    rw [getStateObject_of_live_eq_none h]
    exact .refl
  | some o =>
    rw [getStateObject_of_live_eq_some h]
    exact (Change.load h).changes

theorem ensured_changes (s : StateDB) (a : Recipient) : Changes τ s (s.ensured a) := by
  cases h : s.live a with
  | some o =>
    rw [ensured_of_live_eq_some h]
    exact .refl
  | none =>
    rw [ensured_of_live_eq_none h]
    exact (Change.create h).changes

theorem getOrNewStateObject_changes (s : StateDB) (a : Recipient) :
    Changes τ s (s.getOrNewStateObject a).2 := by
  obtain ⟨o, ho⟩ := exists_live_ensured s a
  rw [getOrNewStateObject_eq ho]
  exact (ensured_changes s a).trans (Change.load ho).changes

theorem getBalance_changes (s : StateDB) (a : Recipient) (tokenID : TokenID) :
    Changes τ s (s.getBalance a tokenID).2 := by
  cases h : s.live a with
  | none =>
    rw [getBalance_of_live_eq_none h]
    exact .refl
  | some o =>
    rw [getBalance_of_live_eq_some h]
    apply Change.changes
    exact .refresh h (deleted_of_live h :) (τ.read a o tokenID)

theorem ensured_edit_changes {o' : StateObject} (he : e.edits = some a)
    (h : (s.ensured a).live a = some o) (hd : o'.deleted = false) (ho : τ.object a (e.undo o') o) :
    Changes τ s (((s.ensured a).append e).setStateObject a o') :=
  (ensured_changes s a).trans (Change.edit he h hd ho).changes

theorem addBalance_changes {amount : ℕ}
    (hb : amount ≠ 0 → ∀ o, (s.ensured a).live a = some o → τ.Detachable a o)
    (hr : amount = 0 → a = ripemd → τ.ripemdDirty) :
    Changes τ s (s.addBalance a amount tokenID) := by
  obtain ⟨o, ho⟩ := exists_live_ensured s a
  have hd := deleted_of_live ho
  by_cases hz : amount = 0
  · subst hz
    rw [addBalance_zero ho]
    refine (ensured_changes s a).trans ((Change.load ho).changes.trans (Change.changes ?_))
    exact .touch (loaded_setStateObject_self hd) (hr rfl)
  · rw [addBalance_of_ne_zero ho hz]
    exact ensured_edit_changes rfl ho hd ((hb hz o ho).2 tokenID)

theorem subBalance_changes {amount : ℕ}
    (hb : amount ≠ 0 → ∀ o, (s.ensured a).live a = some o → τ.Detachable a o)
    (h : s.subBalance a amount tokenID = .ok s') : Changes τ s s' := by
  obtain ⟨o, ho⟩ := exists_live_ensured s a
  rw [subBalance_eq ho] at h
  split_ifs at h with hz
  · cases h
    exact (ensured_changes s a).trans (Change.load ho).changes
  · cases h
    exact ensured_edit_changes rfl ho (deleted_of_live ho :) ((hb hz o ho).2 tokenID)

theorem setBalance_changes {amount : ℕ}
    (hb : ∀ o, (s.ensured a).live a = some o → τ.Detachable a o) :
    Changes τ s (s.setBalance a amount tokenID) := by
  obtain ⟨o, ho⟩ := exists_live_ensured s a
  rw [setBalance_eq ho]
  exact ensured_edit_changes rfl ho (deleted_of_live ho :) (hb o ho).1

theorem setNonce_changes (s : StateDB) (a : Recipient) (nonce : ℕ) : Changes τ s (s.setNonce a nonce) := by
  obtain ⟨o, ho⟩ := exists_live_ensured s a
  rw [setNonce_eq ho]
  exact ensured_edit_changes rfl ho (deleted_of_live ho :) (τ.refl a o)

theorem setCode_changes (s : StateDB) (a : Recipient) (code : List UInt8) :
    Changes τ s (s.setCode a code) := by
  obtain ⟨o, ho⟩ := exists_live_ensured s a
  rw [setCode_eq ho]
  exact ensured_edit_changes rfl ho (deleted_of_live ho :) (τ.refl a o)

theorem setState_changes (s : StateDB) (a : Recipient) (key value : Hash) :
    Changes τ s (s.setState a key value) := by
  obtain ⟨o, ho⟩ := exists_live_ensured s a
  rw [setState_eq ho]
  split_ifs
  · exact (ensured_changes s a).trans (Change.load ho).changes
  refine ensured_edit_changes rfl ho (deleted_of_live ho :) ?_
  have hundo : JournalEntry.undo (.storage a key (o.getState key)) (o.setState key value) =
      o.setState key (o.getState key) := by
    simp [JournalEntry.undo, StateObject.setState]
  rw [hundo]
  exact τ.store a o key

theorem suicide_changes (hb : ∀ o, s.live a = some o → τ.Detachable a o) : Changes τ s (s.suicide a).2 := by
  cases h : s.live a with
  | none =>
    rw [suicide_of_live_eq_none h]
    exact .refl
  | some o =>
    rw [suicide_of_live_eq_some h]
    apply Change.changes
    exact .edit rfl h (deleted_of_live h :) (hb o h).1

theorem createAccount_changes (s : StateDB) (a : Recipient) : Changes τ s (s.createAccount a) := by
  cases h : s.live a with
  | none =>
    rw [createAccount_of_live_eq_none h]
    exact (Change.create h).changes
  | some o =>
    rw [createAccount_of_live_eq_some h]
    exact (Change.reset h rfl).changes

theorem addRefund_changes (s : StateDB) (gas : ℕ) : Changes τ s (s.addRefund gas) :=
  Change.refund.changes

theorem subRefund_changes {gas : ℕ} (h : s.subRefund gas = .ok s') : Changes τ s s' := by
  unfold subRefund at h
  split_ifs at h
  cases h
  exact Change.refund.changes

theorem addLog_changes (s : StateDB) (log : Log) : Changes τ s (s.addLog log) :=
  Change.log.changes

end StateDB
end QuarkChain.State
