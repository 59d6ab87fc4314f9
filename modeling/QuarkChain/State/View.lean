/-
# What an account is, whether or not it is loaded

`live` is the object that `getStateObject` returns: a loaded object that is not deleted, or else the
entry of the account trie.  The lemmas below state every reader and writer in terms of `live`: a writer that
finds the account ends in `setStateObject`, which makes the loading before it invisible, and a writer that does
not find it works on a `created` account.
-/
import QuarkChain.State.Journal

namespace QuarkChain.State

open QuarkChain.Types

theorem getState_setState (o : StateObject) (key value : Hash) :
    (o.setState key value).getState = Function.update o.getState key value := by
  funext k
  unfold StateObject.getState StateObject.setState
  by_cases hk : k = key
  · subst hk
    simp
  · simp [Function.update_of_ne hk]

namespace StateDB

variable {s : StateDB} {a b : Recipient} {o o' : StateObject}

def live (s : StateDB) (a : Recipient) : Option StateObject :=
  match s.stateObjects a with
  | some o => if o.deleted then none else some o
  | none => (s.trie a).map .newObject

def Loaded (s : StateDB) (a : Recipient) : Prop :=
  ∃ o, s.stateObjects a = some o ∧ o.deleted = false

def created (s : StateDB) (a : Recipient) : StateDB :=
  (s.append (.createObject a)).setStateObject a (.blank s.fullShardKey)

theorem getStateObject_fst (s : StateDB) (a : Recipient) : (s.getStateObject a).1 = s.live a := by
  unfold live getStateObject
  cases s.stateObjects a with
  | some o => dsimp only; split_ifs <;> rfl
  | none => cases s.trie a <;> rfl

theorem live_of_stateObjects (h : s.stateObjects a = some o) (hd : o.deleted = false) :
    s.live a = some o := by
  unfold live
  rw [h]
  simp [hd]

theorem Loaded.exists_live (h : s.Loaded a) : ∃ o, s.live a = some o := by
  obtain ⟨o, ho, hd⟩ := h
  exact ⟨o, live_of_stateObjects ho hd⟩

theorem Loaded.stateObjects_eq_live (h : s.Loaded a) : s.stateObjects a = s.live a := by
  obtain ⟨o, ho, hd⟩ := h
  rw [ho, live_of_stateObjects ho hd]

theorem deleted_of_live (h : s.live a = some o) : o.deleted = false := by
  unfold live at h
  cases hs : s.stateObjects a with
  | some x =>
    rw [hs] at h
    by_cases hx : x.deleted
    · simp [hx] at h
    · simp only [hx, Bool.false_eq_true, if_false, Option.some.injEq] at h
      subst h
      simpa using hx
  | none =>
    rw [hs] at h
    obtain ⟨data, -, rfl⟩ := Option.map_eq_some_iff.mp h
    rfl

theorem live_congr {s' : StateDB} (hobj : s'.stateObjects a = s.stateObjects a)
    (htrie : s'.trie a = s.trie a) : s'.live a = s.live a := by
  unfold live
  rw [hobj, htrie]

theorem stateObjects_setStateObject_self : (s.setStateObject a o).stateObjects a = some o :=
  Function.update_self ..

theorem stateObjects_setStateObject_of_ne (h : b ≠ a) :
    (s.setStateObject a o).stateObjects b = s.stateObjects b :=
  Function.update_of_ne h ..

theorem live_setStateObject_self (hd : o.deleted = false) : (s.setStateObject a o).live a = some o :=
  live_of_stateObjects stateObjects_setStateObject_self hd

theorem live_setStateObject_of_ne (h : b ≠ a) : (s.setStateObject a o).live b = s.live b :=
  live_congr (stateObjects_setStateObject_of_ne h) rfl

@[simp] theorem setStateObject_setStateObject :
    (s.setStateObject a o).setStateObject a o' = s.setStateObject a o' := by
  simp [setStateObject]

theorem setStateObject_append (e : JournalEntry) :
    (s.setStateObject a o).append e = (s.append e).setStateObject a o := rfl

theorem loaded_setStateObject_self (hd : o.deleted = false) : (s.setStateObject a o).Loaded a :=
  ⟨o, stateObjects_setStateObject_self, hd⟩

theorem loaded_setStateObject_of_ne (h : b ≠ a) : (s.setStateObject a o).Loaded b ↔ s.Loaded b := by
  unfold Loaded
  rw [stateObjects_setStateObject_of_ne h]

theorem getStateObject_of_live_eq_none (h : s.live a = none) : s.getStateObject a = (none, s) := by
  unfold live at h
  unfold getStateObject
  cases hs : s.stateObjects a with
  | some o =>
    rw [hs] at h
    by_cases hd : o.deleted
    · simp [hd]
    · simp [hd] at h
  | none =>
    rw [hs] at h
    have ht : s.trie a = none := Option.map_eq_none_iff.mp h
    rw [ht]

theorem getStateObject_of_live_eq_some (h : s.live a = some o) :
    s.getStateObject a = (some o, s.setStateObject a o) := by
  unfold live at h
  unfold getStateObject
  cases hs : s.stateObjects a with
  | some x =>
    rw [hs] at h
    by_cases hd : x.deleted
    · simp [hd] at h
    simp only [hd, Bool.false_eq_true, if_false, Option.some.injEq] at h ⊢
    subst h
    have hself : s.setStateObject a x = s := by
      unfold setStateObject
      rw [← hs, Function.update_eq_self]
    rw [hself]
  | none =>
    rw [hs] at h
    obtain ⟨data, ht, rfl⟩ := Option.map_eq_some_iff.mp h
    rw [ht]

@[simp] theorem live_created_self : (s.created a).live a = some (.blank s.fullShardKey) :=
  live_setStateObject_self rfl

theorem live_created_of_ne (h : b ≠ a) : (s.created a).live b = s.live b :=
  live_setStateObject_of_ne h

theorem createObject_of_live_eq_none (h : s.live a = none) :
    s.createObject a = (.blank s.fullShardKey, s.created a) := by
  unfold createObject
  rw [getStateObject_of_live_eq_none h]
  rfl

theorem createObject_of_live_eq_some (h : s.live a = some o) : s.createObject a =
      (.blank o.fullShardKey,
        (s.append (.resetObject a o)).setStateObject a (.blank o.fullShardKey)) := by
  unfold createObject
  rw [getStateObject_of_live_eq_some h]
  dsimp only
  rw [setStateObject_append, setStateObject_setStateObject]

theorem getOrNewStateObject_of_live_eq_some (h : s.live a = some o) :
    s.getOrNewStateObject a = (o, s.setStateObject a o) := by
  unfold getOrNewStateObject
  rw [getStateObject_of_live_eq_some h]

theorem getOrNewStateObject_of_live_eq_none (h : s.live a = none) :
    s.getOrNewStateObject a = (.blank s.fullShardKey, s.created a) := by
  unfold getOrNewStateObject
  rw [getStateObject_of_live_eq_none h]
  exact createObject_of_live_eq_none h

/-- The state in which a writer finds the account: the state itself, or one where the account has
just been created. -/
def ensured (s : StateDB) (a : Recipient) : StateDB :=
  if (s.live a).isSome then s else s.created a

theorem ensured_of_live_eq_some (h : s.live a = some o) : s.ensured a = s := by
  simp [ensured, h]

theorem ensured_of_live_eq_none (h : s.live a = none) : s.ensured a = s.created a := by
  simp [ensured, h]

theorem exists_live_ensured (s : StateDB) (a : Recipient) : ∃ o, (s.ensured a).live a = some o := by
  cases h : s.live a with
  | some o => exact ⟨o, by rw [ensured_of_live_eq_some h, h]⟩
  | none => exact ⟨_, by rw [ensured_of_live_eq_none h]; exact live_created_self⟩

theorem setStateObject_created : (s.created a).setStateObject a (.blank s.fullShardKey) = s.created a := by
  simp [created]

theorem getOrNewStateObject_eq (h : (s.ensured a).live a = some o) :
    s.getOrNewStateObject a = (o, (s.ensured a).setStateObject a o) := by
  cases hl : s.live a with
  | some x =>
    rw [ensured_of_live_eq_some hl] at h ⊢
    exact getOrNewStateObject_of_live_eq_some h
  | none =>
    rw [ensured_of_live_eq_none hl] at h ⊢
    rw [live_created_self, Option.some.injEq] at h
    subst h
    rw [setStateObject_created]
    exact getOrNewStateObject_of_live_eq_none hl

/-! ### What the operations do

Each operation in one equation, on the object that it finds. -/

section Operations

variable {tokenID : TokenID} {amount : ℕ}

theorem getBalance_of_live_eq_none (h : s.live a = none) : s.getBalance a tokenID = (0, s) := by
  unfold getBalance
  rw [getStateObject_of_live_eq_none h]

theorem getBalance_of_live_eq_some (h : s.live a = some o) :
    s.getBalance a tokenID = (o.tokenBalances.balance tokenID, s.setStateObject a
      { o with tokenBalances := (o.tokenBalances.getTokenBalance tokenID).2 }) := by
  unfold getBalance
  rw [getStateObject_of_live_eq_some h]
  dsimp only
  rw [setStateObject_setStateObject, TokenBalances.getTokenBalance_fst]

theorem setObjectBalance_setStateObject :
    (s.setStateObject a o).setObjectBalance a o' amount tokenID =
      s.setObjectBalance a o' amount tokenID := by
  unfold setObjectBalance
  rw [setStateObject_append, setStateObject_setStateObject]

variable (h : (s.ensured a).live a = some o)
include h

theorem addBalance_zero :
    s.addBalance a 0 tokenID = ((s.ensured a).setStateObject a o).touch a := by
  unfold addBalance
  rw [getOrNewStateObject_eq h]
  rfl

theorem addBalance_of_ne_zero (hz : amount ≠ 0) :
    s.addBalance a amount tokenID = (s.ensured a).setObjectBalance a
      { o with tokenBalances := (o.tokenBalances.getTokenBalance tokenID).2 }
      (o.tokenBalances.balance tokenID + amount) tokenID := by
  unfold addBalance
  rw [getOrNewStateObject_eq h]
  dsimp only
  rw [if_neg hz, setObjectBalance_setStateObject, TokenBalances.getTokenBalance_fst]

theorem subBalance_eq : s.subBalance a amount tokenID =
      if amount = 0 then .ok ((s.ensured a).setStateObject a o)
      else if o.tokenBalances.balance tokenID < amount then .error .negativeBalance
      else .ok ((s.ensured a).setObjectBalance a
        { o with tokenBalances := (o.tokenBalances.getTokenBalance tokenID).2 }
        (o.tokenBalances.balance tokenID - amount) tokenID) := by
  unfold subBalance
  rw [getOrNewStateObject_eq h]
  dsimp only
  rw [setObjectBalance_setStateObject, TokenBalances.getTokenBalance_fst]

theorem setBalance_eq :
    s.setBalance a amount tokenID = (s.ensured a).setObjectBalance a o amount tokenID := by
  unfold setBalance
  rw [getOrNewStateObject_eq h]
  exact setObjectBalance_setStateObject

theorem setNonce_eq (nonce : ℕ) : s.setNonce a nonce =
      ((s.ensured a).append (.nonce a o.nonce)).setStateObject a { o with nonce } := by
  unfold setNonce
  rw [getOrNewStateObject_eq h]
  dsimp only
  rw [setStateObject_append, setStateObject_setStateObject]

theorem setCode_eq (code : List UInt8) : s.setCode a code =
      ((s.ensured a).append (.code a o.code)).setStateObject a { o with code } := by
  unfold setCode
  rw [getOrNewStateObject_eq h]
  dsimp only
  rw [setStateObject_append, setStateObject_setStateObject]

theorem setState_eq (key value : Hash) :
    s.setState a key value = if o.getState key = value then (s.ensured a).setStateObject a o
      else ((s.ensured a).append (.storage a key (o.getState key))).setStateObject a
        (o.setState key value) := by
  unfold setState
  rw [getOrNewStateObject_eq h]
  dsimp only
  rw [setStateObject_append, setStateObject_setStateObject]

omit h

theorem suicide_of_live_eq_none (h : s.live a = none) : s.suicide a = (false, s) := by
  unfold suicide
  rw [getStateObject_of_live_eq_none h]

theorem suicide_of_live_eq_some (h : s.live a = some o) :
    s.suicide a = (true, (s.append (.suicide a o.suicided o.tokenBalances.balances)).setStateObject a
      { o with suicided := true, tokenBalances := .new }) := by
  unfold suicide
  rw [getStateObject_of_live_eq_some h]
  dsimp only
  rw [setStateObject_append, setStateObject_setStateObject]
  rfl

theorem createAccount_of_live_eq_none (h : s.live a = none) : s.createAccount a = s.created a := by
  unfold createAccount
  rw [getStateObject_of_live_eq_none h]
  dsimp only
  rw [createObject_of_live_eq_none h]

theorem createAccount_of_live_eq_some (h : s.live a = some o) :
    s.createAccount a = (s.append (.resetObject a o)).setStateObject a
      ((StateObject.blank o.fullShardKey).setBalances o.tokenBalances.balances) := by
  have hl : (s.setStateObject a o).live a = some o := live_setStateObject_self (deleted_of_live h)
  unfold createAccount
  rw [getStateObject_of_live_eq_some h]
  dsimp only
  rw [createObject_of_live_eq_some hl]
  dsimp only
  rw [setStateObject_setStateObject, setStateObject_append, setStateObject_setStateObject]
  rfl

end Operations

/-! ### What readers return -/

section Readers

variable (s : StateDB) (a : Recipient)

theorem getOrNewStateObject_fst : (s.getOrNewStateObject a).1 = (s.live a).getD (.blank s.fullShardKey) := by
  cases h : s.live a with
  | none => rw [getOrNewStateObject_of_live_eq_none h]; rfl
  | some o => rw [getOrNewStateObject_of_live_eq_some h]; rfl

theorem exist_fst : (s.exist a).1 = (s.live a).isSome := by
  rw [← getStateObject_fst]
  rfl

theorem empty_fst : (s.empty a).1 = (s.live a).elim true StateObject.empty := by
  rw [← getStateObject_fst]
  rfl

theorem getBalance_fst (tokenID : TokenID) :
    (s.getBalance a tokenID).1 = (s.live a).elim 0 fun o => o.tokenBalances.balance tokenID := by
  cases h : s.live a with
  | none => rw [getBalance_of_live_eq_none h]; rfl
  | some o => rw [getBalance_of_live_eq_some h]; rfl

theorem getNonce_fst : (s.getNonce a).1 = (s.live a).elim 0 StateObject.nonce := by
  have h := congrArg StateObject.nonce (getOrNewStateObject_fst s a)
  cases hl : s.live a <;> rw [hl] at h <;> exact h

theorem getCode_fst : (s.getCode a).1 = (s.live a).elim [] StateObject.code := by
  rw [← getStateObject_fst]
  rfl

theorem getState_fst (key : Hash) : (s.getState a key).1 = (s.live a).elim 0 fun o => o.getState key := by
  rw [← getStateObject_fst]
  rfl

theorem hasSuicided_fst : (s.hasSuicided a).1 = (s.live a).elim false StateObject.suicided := by
  rw [← getStateObject_fst]
  rfl

theorem getFullShardKey_fst :
    (s.getFullShardKey a).1 = (s.live a).elim s.fullShardKey StateObject.fullShardKey := by
  have h := congrArg StateObject.fullShardKey (getOrNewStateObject_fst s a)
  cases hl : s.live a <;> rw [hl] at h <;> exact h

end Readers

end StateDB
end QuarkChain.State
