/-
# What execution keeps of a state

`Above s s'`: execution went from `s` to `s'` without reverting behind `s`, and the block fields, the
position of the transaction and the full shard key are as before.  Every operation, every snapshot and
every revert to a snapshot taken since is of this kind.  The second half is about the balance that a transfer
spends: a check that finds it puts it in the token cache, and nothing up to the transfer takes it out again.
-/
import QuarkChain.State.Snapshot

namespace QuarkChain.State.StateDB

open QuarkChain.Types

variable {τ : Tolerance} {s s' s'' : StateDB} {a b : Recipient} {tokenID : TokenID}

/-- The fields of a state that its operations only read. -/
def context (s : StateDB) : BlockFields × (Hash × Hash × ℕ) × ℕ :=
  (s.block, (s.thash, s.bhash, s.txIndex), s.fullShardKey)

theorem Change.context (hc : Change τ s s') : s'.context = s.context := by
  cases hc with
  | touch =>
    unfold StateDB.touch
    dsimp only
    split_ifs <;> rfl
  | refresh | create | reset | edit | refund | log => rfl

theorem Changes.context (hc : Changes τ s s') : s'.context = s.context := by
  induction hc with
  | refl => rfl
  | tail _ hc ih => exact hc.context.trans ih

theorem Restored.context (h : Restored τ s' s) : s'.context = s.context := by
  unfold StateDB.context
  rw [h.block, h.position, h.fullShardKey]

/-- Execution went from `s` to `s'` and can be undone. -/
structure Above (s s' : StateDB) : Prop where
  extend : Extends anyTolerance s s'
  context : s'.context = s.context

theorem Above.consistent (h : Above s s') : s'.Consistent := h.extend.consistent

theorem Above.refl (h : s.Consistent) : Above s s := ⟨h.extends_refl _, rfl⟩

theorem Above.trans (h : Above s s') (h' : Above s' s'') : Above s s'' :=
  ⟨h.extend.trans h'.extend, h'.context.trans h.context⟩

theorem Above.of_changes (h : s.Consistent) (hc : Changes anyTolerance s s') : Above s s' :=
  ⟨h.extends hc, hc.context⟩

theorem Above.snapshot (h : s.Consistent) : Above s s.snapshot.2 :=
  ⟨h.extends_snapshot _, rfl⟩

theorem Above.block (h : Above s s') : s'.block = s.block := congrArg Prod.fst h.context

theorem Above.revertToSnapshot (hs : s.Consistent) (h : Above s.snapshot.2 s') :
    ∃ s'', s'.revertToSnapshot s.snapshot.1 = .ok s'' ∧ Above s s'' := by
  obtain ⟨s'', hr, hrestored, hext⟩ := h.extend.revertToSnapshot hs
  exact ⟨s'', hr, hext, hrestored.context⟩

section

variable (h : s.Consistent)
include h

theorem above_getStateObject : Above s (s.getStateObject a).2 :=
  .of_changes h (getStateObject_changes s a)

theorem above_getCode : Above s (s.getCode a).2 := above_getStateObject h

theorem above_getBalance : Above s (s.getBalance a tokenID).2 :=
  .of_changes h (getBalance_changes s a tokenID)

theorem above_getNonce : Above s (s.getNonce a).2 :=
  .of_changes h (getOrNewStateObject_changes s a)

theorem above_addBalance {amount : ℕ} : Above s (s.addBalance a amount tokenID) :=
  .of_changes h (addBalance_changes (fun _ o _ => detachable_any a o) fun _ _ => trivial)

theorem above_subBalance {amount : ℕ} (hs : s.subBalance a amount tokenID = .ok s') : Above s s' :=
  .of_changes h (subBalance_changes (fun _ o _ => detachable_any a o) hs)

theorem above_setNonce {nonce : ℕ} : Above s (s.setNonce a nonce) :=
  .of_changes h (setNonce_changes s a nonce)

theorem above_setCode {code : List UInt8} : Above s (s.setCode a code) :=
  .of_changes h (setCode_changes s a code)

theorem above_setState {key value : Hash} : Above s (s.setState a key value) :=
  .of_changes h (setState_changes s a key value)

theorem above_createAccount : Above s (s.createAccount a) :=
  .of_changes h (createAccount_changes s a)

theorem above_suicide : Above s (s.suicide a).2 :=
  .of_changes h (suicide_changes fun o _ => detachable_any a o)

theorem above_addRefund {gas : ℕ} : Above s (s.addRefund gas) :=
  .of_changes h (addRefund_changes s gas)

theorem above_addLog {log : Log} : Above s (s.addLog log) := .of_changes h (addLog_changes s log)

end

def balanceOf (s : StateDB) (a : Recipient) (tokenID : TokenID) : ℕ :=
  (s.live a).elim 0 fun o => o.tokenBalances.balance tokenID

/-- What the account's map of balances says about a token, whatever the trie holds. -/
def cachedOf (s : StateDB) (a : Recipient) (tokenID : TokenID) : ℕ :=
  (s.live a).elim 0 fun o => (o.tokenBalances.balances.lookup tokenID).getD 0

theorem cachedOf_le_balanceOf : s.cachedOf a tokenID ≤ s.balanceOf a tokenID := by
  unfold cachedOf balanceOf
  rcases s.live a with _ | o
  · exact Nat.le_refl _
  show (o.tokenBalances.balances.lookup tokenID).getD 0 ≤ o.tokenBalances.balance tokenID
  unfold TokenBalances.balance
  cases o.tokenBalances.balances.lookup tokenID with
  | none => exact Nat.zero_le _
  | some amount => exact Nat.le_refl _

theorem cachedOf_le_setStateObject {o o' : StateObject} (h : s.live a = some o)
    (hd : o'.deleted = false) (ho : (o.tokenBalances.balances.lookup tokenID).getD 0 ≤
      (o'.tokenBalances.balances.lookup tokenID).getD 0) :
    s.cachedOf b tokenID ≤ (s.setStateObject a o').cachedOf b tokenID := by
  unfold cachedOf
  by_cases hb : b = a
  · subst hb
    rw [live_setStateObject_self hd, h]
    exact ho
  · rw [live_setStateObject_of_ne hb]

theorem cachedOf_le_getStateObject : s.cachedOf b tokenID ≤ (s.getStateObject a).2.cachedOf b tokenID := by
  rcases h : s.live a with _ | o
  · rw [getStateObject_of_live_eq_none h]
  rw [getStateObject_of_live_eq_some h]
  exact cachedOf_le_setStateObject h (deleted_of_live h) (Nat.le_refl _)

theorem lookup_getTokenBalance (t : TokenBalances) (tokenID tokenID' : TokenID) :
    (t.balances.lookup tokenID').getD 0 ≤
      ((t.getTokenBalance tokenID).2.balances.lookup tokenID').getD 0 := by
  unfold TokenBalances.getTokenBalance
  cases hl : t.balances.lookup tokenID with
  | some amount => exact Nat.le_refl _
  | none =>
    rcases t.tokenTrie with _ | content
    · exact Nat.le_refl _
    dsimp only
    split_ifs
    · exact Nat.le_refl _
    by_cases hid : tokenID' = tokenID
    · subst hid
      rw [hl]
      exact Nat.zero_le _
    · rw [Finmap.lookup_insert_of_ne _ hid]

theorem cachedOf_le_getBalance {tokenID' : TokenID} :
    s.cachedOf b tokenID ≤ (s.getBalance a tokenID').2.cachedOf b tokenID := by
  rcases h : s.live a with _ | o
  · rw [getBalance_of_live_eq_none h]
  rw [getBalance_of_live_eq_some h]
  exact cachedOf_le_setStateObject h (deleted_of_live h :) (lookup_getTokenBalance _ _ _)

/-- **A balance that was read is in the map.** -/
theorem getBalance_fst_le_cachedOf :
    (s.getBalance a tokenID).1 ≤ (s.getBalance a tokenID).2.cachedOf a tokenID := by
  cases h : s.live a with
  | none =>
    rw [getBalance_of_live_eq_none h]
    exact Nat.zero_le _
  | some o =>
    have hd : o.deleted = false := deleted_of_live h
    rw [getBalance_of_live_eq_some h]
    unfold cachedOf
    rw [live_setStateObject_self (by exact hd), ← TokenBalances.getTokenBalance_fst]
    show (o.tokenBalances.getTokenBalance tokenID).1 ≤
      ((o.tokenBalances.getTokenBalance tokenID).2.balances.lookup tokenID).getD 0
    unfold TokenBalances.getTokenBalance
    cases hl : o.tokenBalances.balances.lookup tokenID with
    | some amount => simp [hl]
    | none =>
      rcases o.tokenBalances.tokenTrie with _ | content
      · exact Nat.zero_le _
      dsimp only
      split_ifs
      · exact Nat.zero_le _
      · simp [Finmap.lookup_insert]

theorem cachedOf_created (h : s.live a = none) : s.cachedOf b tokenID ≤ (s.created a).cachedOf b tokenID := by
  unfold cachedOf
  by_cases hb : b = a
  · subst hb
    rw [h]
    exact Nat.zero_le _
  · rw [live_created_of_ne hb]

theorem cachedOf_le_ensured : s.cachedOf b tokenID ≤ (s.ensured a).cachedOf b tokenID := by
  cases h : s.live a with
  | some o => rw [ensured_of_live_eq_some h]
  | none =>
    rw [ensured_of_live_eq_none h]
    exact cachedOf_created h

theorem cachedOf_le_getNonce : s.cachedOf b tokenID ≤ (s.getNonce a).2.cachedOf b tokenID := by
  obtain ⟨o, ho⟩ := exists_live_ensured s a
  unfold getNonce
  rw [getOrNewStateObject_eq ho]
  exact Nat.le_trans cachedOf_le_ensured
    (cachedOf_le_setStateObject ho (deleted_of_live ho) (Nat.le_refl _))

theorem cachedOf_le_setNonce {nonce : ℕ} :
    s.cachedOf b tokenID ≤ (s.setNonce a nonce).cachedOf b tokenID := by
  obtain ⟨o, ho⟩ := exists_live_ensured s a
  have hap : ((s.ensured a).append (.nonce a o.nonce)).live a = some o := ho
  rw [setNonce_eq ho]
  exact Nat.le_trans cachedOf_le_ensured
    (cachedOf_le_setStateObject hap (deleted_of_live ho :) (Nat.le_refl _))

theorem cachedOf_le_createAccount : s.cachedOf b tokenID ≤ (s.createAccount a).cachedOf b tokenID := by
  cases h : s.live a with
  | none =>
    rw [createAccount_of_live_eq_none h]
    exact cachedOf_created h
  | some o =>
    have hap : (s.append (.resetObject a o)).live a = some o := h
    rw [createAccount_of_live_eq_some h]
    exact cachedOf_le_setStateObject hap rfl (Nat.le_refl _)

/-- **Spending what is there does not panic.** -/
theorem exists_subBalance {amount : ℕ} (h : amount ≤ s.balanceOf a tokenID) :
    ∃ s', s.subBalance a amount tokenID = .ok s' := by
  obtain ⟨o, ho⟩ := exists_live_ensured s a
  have hheld : s.balanceOf a tokenID = o.tokenBalances.balance tokenID := by
    unfold balanceOf
    cases hl : s.live a with
    | some x =>
      rw [ensured_of_live_eq_some hl] at ho
      cases hl.symm.trans ho
      rfl
    | none =>
      rw [ensured_of_live_eq_none hl, live_created_self] at ho
      cases ho
      rfl
  rw [subBalance_eq ho]
  split_ifs with hz hlt
  · exact ⟨_, rfl⟩
  · omega
  · exact ⟨_, rfl⟩

end QuarkChain.State.StateDB
