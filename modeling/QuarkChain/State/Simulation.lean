/-
# Operations on states that count as alike

An operation of the state database looks at one live object.  It loads it, or it writes an `Edit` of it and
records in the journal how to undo that; besides, it can create a missing account and move the refund counter
and the logs.  So two states that agree on their live objects, up to some notion of likeness, still agree after
any operation, if loading, editing and recording alike objects keeps the states alike.

`Likeness` says which objects and which journal entries are alike, `Simulation` which states, and
`Simulation.op` is the conclusion.  It is used for a state with more accounts loaded
(`QuarkChain.State.Reads`) and for a state after a revert (`QuarkChain.State.Afterwards`).  A revert reads the
journal, and has to be followed separately.
-/
import QuarkChain.Lib.Outcome
import QuarkChain.State.Revert

namespace QuarkChain.State

open QuarkChain.Types StateDB
open Outcome (Matched)

/-- How a writer changes the object that it found. -/
inductive Edit
  | balance (tokenID : TokenID) (amount : ℕ)
  | nonce (nonce : ℕ)
  | code (code : List UInt8)
  | state (key value : Hash)
  | suicide

/-- The object after the edit. -/
def Edit.apply : Edit → StateObject → StateObject
  | .balance tokenID amount, o => { o with tokenBalances := o.tokenBalances.setValue tokenID amount }
  | .nonce n, o => { o with nonce := n }
  | .code bytes, o => { o with code := bytes }
  | .state key value, o => o.setState key value
  | .suicide, o => { o with suicided := true, tokenBalances := .new }

/-- What the writer records of the object before the edit. -/
def Edit.entry (a : Recipient) : Edit → StateObject → JournalEntry
  | .balance _ _, o => .balance a o.tokenBalances.balances
  | .nonce _, o => .nonce a o.nonce
  | .code _, o => .code a o.code
  | .state key _, o => .storage a key (o.getState key)
  | .suicide, o => .suicide a o.suicided o.tokenBalances.balances

/-- The state after a recorded edit of the live object `o` of `a`. -/
def StateDB.edited (s : StateDB) (a : Recipient) (o : StateObject) (e : Edit) : StateDB :=
  (s.append (e.entry a o)).setStateObject a (e.apply o)

/-- Which objects of an account and which journal entries are alike.  Alike objects answer alike, and are
edited to alike objects under alike entries. -/
structure Likeness where
  object : Recipient → StateObject → StateObject → Prop
  entry : JournalEntry → JournalEntry → Prop
  refl : ∀ a o, object a o o
  entry_refl : ∀ e, entry e e
  answers : ∀ {a o' o}, object a o' o →
    o'.tokenBalances.balance = o.tokenBalances.balance ∧ o'.getState = o.getState ∧
      o'.fullShardKey = o.fullShardKey
  read : ∀ {a o' o}, object a o' o → ∀ tokenID,
    object a { o' with tokenBalances := (o'.tokenBalances.getTokenBalance tokenID).2 }
      { o with tokenBalances := (o.tokenBalances.getTokenBalance tokenID).2 }
  edit : ∀ {a o' o}, object a o' o → ∀ e : Edit,
    object a (e.apply o') (e.apply o) ∧ entry (e.entry a o') (e.entry a o)
  reset : ∀ {a o' o}, object a o' o → entry (.resetObject a o') (.resetObject a o)

/-- Only equal objects and entries are alike. -/
def Likeness.same : Likeness where
  object _ o' o := o' = o
  entry e' e := e' = e
  refl _ _ := rfl
  entry_refl _ := rfl
  answers h := by
    subst h
    exact ⟨rfl, rfl, rfl⟩
  read h _ := by
    subst h
    rfl
  edit h _ := by
    subst h
    exact ⟨rfl, rfl⟩
  reset h := by
    subst h
    rfl

/-- States that are alike: they have alike live objects, and stay alike when alike objects are put in. -/
structure Simulation (L : Likeness) (Sim : StateDB → StateDB → Prop) : Prop where
  live : ∀ {u s}, Sim u s → ∀ a, Option.Rel (L.object a) (u.live a) (s.live a)
  fullShardKey : ∀ {u s}, Sim u s → u.fullShardKey = s.fullShardKey
  refund : ∀ {u s}, Sim u s → u.refund = s.refund
  load : ∀ {u s a o' o}, Sim u s → o'.deleted = false → o.deleted = false → L.object a o' o →
    Sim (u.setStateObject a o') (s.setStateObject a o)
  record : ∀ {u s a o' o e' e}, Sim u s → o'.deleted = false → o.deleted = false → L.object a o' o →
    L.entry e' e → (∀ b, e.dirtied = some b → b = a) →
    Sim ((u.append e').setStateObject a o') ((s.append e).setStateObject a o)
  touch : ∀ {u s a o' o}, Sim u s → o'.deleted = false → o.deleted = false → L.object a o' o →
    Sim ((u.setStateObject a o').touch a) ((s.setStateObject a o).touch a)
  setRefund : ∀ {u s}, Sim u s → ∀ gas, Sim { u.append (.refund u.refund) with refund := gas }
    { s.append (.refund s.refund) with refund := gas }
  addLog : ∀ {u s}, Sim u s → ∀ log, Sim (u.addLog log) (s.addLog log)
  snapshot : ∀ {u s}, Sim u s → Sim u.snapshot.2 s.snapshot.2

namespace Simulation

variable {L : Likeness} {Sim : StateDB → StateDB → Prop} {u s : StateDB} {a : Recipient}
  {o' o : StateObject}

variable (hS : Simulation L Sim) (h : Sim u s)
include hS h

/-- Two states that are alike have an account both or neither. -/
theorem live_cases (a : Recipient) : u.live a = none ∧ s.live a = none ∨
    ∃ o' o, u.live a = some o' ∧ s.live a = some o ∧ L.object a o' o := by
  have hl := hS.live h a
  generalize u.live a = x at *
  generalize s.live a = y at *
  rcases hl with ⟨ho⟩ | _
  · exact .inr ⟨_, _, rfl, rfl, ho⟩
  · exact .inl ⟨rfl, rfl⟩

theorem created (a : Recipient) : Sim (u.created a) (s.created a) := by
  unfold StateDB.created
  rw [hS.fullShardKey h]
  refine hS.record h rfl rfl (L.refl a _) (L.entry_refl _) fun b hb => ?_
  cases hb
  rfl

/-- What a writer finds. -/
theorem found (a : Recipient) : ∃ o' o, (u.ensured a).live a = some o' ∧
    (s.ensured a).live a = some o ∧ L.object a o' o ∧ Sim (u.ensured a) (s.ensured a) := by
  rcases hS.live_cases h a with ⟨hu, hs⟩ | ⟨o', o, hu, hs, ho⟩
  · rw [ensured_of_live_eq_none hu, ensured_of_live_eq_none hs]
    refine ⟨_, _, live_created_self, live_created_self, ?_, hS.created h a⟩
    rw [hS.fullShardKey h]
    exact L.refl a _
  · rw [ensured_of_live_eq_some hu, ensured_of_live_eq_some hs]
    exact ⟨o', o, hu, hs, ho, h⟩

/-- **A recorded edit** of what a writer found. -/
theorem edited (hd' : o'.deleted = false) (hd : o.deleted = false) (ho : L.object a o' o) (e : Edit) :
    Sim (u.edited a o' e) (s.edited a o e) := by
  have hkeep : ∀ x : StateObject, (e.apply x).deleted = x.deleted := fun x => by cases e <;> rfl
  obtain ⟨hobject, hentry⟩ := L.edit ho e
  refine hS.record h ((hkeep o').trans hd') ((hkeep o).trans hd) hobject hentry fun b hb => ?_
  cases e <;> cases hb <;> rfl

theorem getStateObject (a : Recipient) : Sim (u.getStateObject a).2 (s.getStateObject a).2 := by
  rcases hS.live_cases h a with ⟨hu, hs⟩ | ⟨o', o, hu, hs, ho⟩
  · rw [getStateObject_of_live_eq_none hu, getStateObject_of_live_eq_none hs]
    exact h
  · rw [getStateObject_of_live_eq_some hu, getStateObject_of_live_eq_some hs]
    exact hS.load h (deleted_of_live hu) (deleted_of_live hs) ho

theorem getOrNewStateObject (a : Recipient) :
    Sim (u.getOrNewStateObject a).2 (s.getOrNewStateObject a).2 := by
  obtain ⟨o', o, hu, hs, ho, hens⟩ := hS.found h a
  rw [getOrNewStateObject_eq hu, getOrNewStateObject_eq hs]
  exact hS.load hens (deleted_of_live hu) (deleted_of_live hs) ho

theorem getBalance (a : Recipient) (tokenID : TokenID) :
    Sim (u.getBalance a tokenID).2 (s.getBalance a tokenID).2 := by
  rcases hS.live_cases h a with ⟨hu, hs⟩ | ⟨o', o, hu, hs, ho⟩
  · rw [getBalance_of_live_eq_none hu, getBalance_of_live_eq_none hs]
    exact h
  · rw [getBalance_of_live_eq_some hu, getBalance_of_live_eq_some hs]
    have hd' : o'.deleted = false := deleted_of_live hu
    have hd : o.deleted = false := deleted_of_live hs
    exact hS.load h hd' hd (L.read ho tokenID)

theorem addBalance (a : Recipient) (amount : ℕ) (tokenID : TokenID) :
    Sim (u.addBalance a amount tokenID) (s.addBalance a amount tokenID) := by
  obtain ⟨o', o, hu, hs, ho, hens⟩ := hS.found h a
  have hd' : o'.deleted = false := deleted_of_live hu
  have hd : o.deleted = false := deleted_of_live hs
  by_cases hz : amount = 0
  · subst hz
    rw [addBalance_zero hu, addBalance_zero hs]
    exact hS.touch hens hd' hd ho
  · rw [addBalance_of_ne_zero hu hz, addBalance_of_ne_zero hs hz, (L.answers ho).1]
    exact hS.edited hens (by exact hd') (by exact hd) (L.read ho tokenID) (.balance tokenID _)

theorem subBalance (a : Recipient) (amount : ℕ) (tokenID : TokenID) :
    Matched Sim (u.subBalance a amount tokenID) (s.subBalance a amount tokenID) := by
  obtain ⟨o', o, hu, hs, ho, hens⟩ := hS.found h a
  have hd' : o'.deleted = false := deleted_of_live hu
  have hd : o.deleted = false := deleted_of_live hs
  rw [subBalance_eq hu, subBalance_eq hs, (L.answers ho).1]
  split_ifs
  · exact hS.load hens hd' hd ho
  · rfl
  · exact hS.edited hens (by exact hd') (by exact hd) (L.read ho tokenID) (.balance tokenID _)

theorem setState (a : Recipient) (key value : Hash) :
    Sim (u.setState a key value) (s.setState a key value) := by
  obtain ⟨o', o, hu, hs, ho, hens⟩ := hS.found h a
  have hd' : o'.deleted = false := deleted_of_live hu
  have hd : o.deleted = false := deleted_of_live hs
  have hstate : o'.getState key = o.getState key := congrFun (L.answers ho).2.1 key
  by_cases heq : o.getState key = value
  · rw [setState_eq hu, setState_eq hs, if_pos heq, if_pos (hstate.trans heq)]
    exact hS.load hens hd' hd ho
  · rw [setState_eq hu, setState_eq hs, if_neg heq, if_neg (mt hstate.symm.trans heq)]
    exact hS.edited hens hd' hd ho (.state key value)

theorem suicide (a : Recipient) : Sim (u.suicide a).2 (s.suicide a).2 := by
  rcases hS.live_cases h a with ⟨hu, hs⟩ | ⟨o', o, hu, hs, ho⟩
  · rw [suicide_of_live_eq_none hu, suicide_of_live_eq_none hs]
    exact h
  · rw [suicide_of_live_eq_some hu, suicide_of_live_eq_some hs]
    exact hS.edited h (deleted_of_live hu) (deleted_of_live hs) ho .suicide

/-- `CreateAccount` carries the map of balances over, which alike objects need not have in common. -/
theorem createAccount (a : Recipient) (hmap : ∀ o' o, u.live a = some o' → s.live a = some o →
      o'.tokenBalances.balances = o.tokenBalances.balances) :
    Sim (u.createAccount a) (s.createAccount a) := by
  rcases hS.live_cases h a with ⟨hu, hs⟩ | ⟨o', o, hu, hs, ho⟩
  · rw [createAccount_of_live_eq_none hu, createAccount_of_live_eq_none hs]
    exact hS.created h a
  · rw [createAccount_of_live_eq_some hu, createAccount_of_live_eq_some hs, hmap o' o hu hs,
      (L.answers ho).2.2]
    exact hS.record h rfl rfl (L.refl a _) (L.reset ho) nofun

/-- **Every operation but a revert keeps states alike.** -/
theorem op (op : Op) (hrev : op.revertsTo = none)
    (hmap : ∀ a, op = .createAccount a → ∀ o' o, u.live a = some o' → s.live a = some o →
      o'.tokenBalances.balances = o.tokenBalances.balances) : Matched Sim (op.run u) (op.run s) := by
  cases op with
  | addBalance a amount tokenID => exact hS.addBalance h a amount tokenID
  | subBalance a amount tokenID => exact hS.subBalance h a amount tokenID
  | setBalance a amount tokenID =>
    obtain ⟨o', o, hu, hs, ho, hens⟩ := hS.found h a
    show Sim _ _
    rw [setBalance_eq hu, setBalance_eq hs]
    exact hS.edited hens (deleted_of_live hu) (deleted_of_live hs) ho (.balance tokenID amount)
  | setNonce a nonce =>
    obtain ⟨o', o, hu, hs, ho, hens⟩ := hS.found h a
    show Sim _ _
    rw [setNonce_eq hu, setNonce_eq hs]
    exact hS.edited hens (deleted_of_live hu) (deleted_of_live hs) ho (.nonce nonce)
  | setCode a code =>
    obtain ⟨o', o, hu, hs, ho, hens⟩ := hS.found h a
    show Sim _ _
    rw [setCode_eq hu, setCode_eq hs]
    exact hS.edited hens (deleted_of_live hu) (deleted_of_live hs) ho (.code code)
  | setState a key value => exact hS.setState h a key value
  | createAccount a => exact hS.createAccount h a (hmap a rfl)
  | suicide a => exact hS.suicide h a
  | addRefund gas =>
    have hset := hS.setRefund h ((s.refund + gas) % 2 ^ 64)
    show Sim (u.addRefund gas) (s.addRefund gas)
    unfold StateDB.addRefund
    rw [hS.refund h] at hset ⊢
    exact hset
  | subRefund gas =>
    show Matched Sim (u.subRefund gas) (s.subRefund gas)
    unfold StateDB.subRefund
    rw [hS.refund h]
    split_ifs
    · rfl
    · exact hS.refund h ▸ hS.setRefund h _
  | addLog log => exact hS.addLog h log
  | getBalance a tokenID => exact hS.getBalance h a tokenID
  | exist a | empty a | getCode a | getState a key | hasSuicided a => exact hS.getStateObject h a
  | getBalances a | getNonce a | getFullShardKey a => exact hS.getOrNewStateObject h a
  | snapshot => exact hS.snapshot h
  | revertToSnapshot revid => cases hrev

end Simulation

end QuarkChain.State
