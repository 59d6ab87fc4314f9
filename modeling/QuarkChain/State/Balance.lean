/-
# What the operations do to balances

The exact effect of the account operations on `balanceOf`, the amount an account holds of a token
whether it is kept in the map or in the token trie.  Transaction processing moves balances only through
`AddBalance` and `SubBalance`; every other operation it uses leaves all of them as they are.
-/
import QuarkChain.State.Ledger

namespace QuarkChain.State.StateDB

open QuarkChain.Types

variable {s s' : StateDB} {a b : Recipient} {o : StateObject} {tokenID tokenID' : TokenID} {amount : ℕ}

theorem balanceOf_congr (h : s'.live b = s.live b) : s'.balanceOf b tokenID = s.balanceOf b tokenID :=
  congrArg (fun o : Option StateObject => o.elim 0 fun o => o.tokenBalances.balance tokenID) h

theorem balanceOf_setStateObject (hd : o.deleted = false) :
    (s.setStateObject a o).balanceOf b tokenID =
      if b = a then o.tokenBalances.balance tokenID else s.balanceOf b tokenID := by
  split_ifs with hb
  · subst hb
    unfold balanceOf
    rw [live_setStateObject_self hd]
    rfl
  · exact balanceOf_congr (live_setStateObject_of_ne hb)

theorem balanceOf_of_live (h : s.live a = some o) :
    s.balanceOf a tokenID = o.tokenBalances.balance tokenID := by
  unfold balanceOf
  rw [h]
  rfl

theorem balanceOf_ensured : (s.ensured a).balanceOf b tokenID = s.balanceOf b tokenID := by
  cases h : s.live a with
  | some o => rw [ensured_of_live_eq_some h]
  | none =>
    rw [ensured_of_live_eq_none h]
    by_cases hb : b = a
    · subst hb
      rw [balanceOf_of_live live_created_self]
      unfold balanceOf
      rw [h]
      rfl
    · exact balanceOf_congr (live_created_of_ne hb)

theorem balanceOf_eq_of_ensured (h : (s.ensured a).live a = some o) :
    s.balanceOf a tokenID = o.tokenBalances.balance tokenID :=
  balanceOf_ensured.symm.trans (balanceOf_of_live h)

theorem balanceOf_refreshed {o' : StateObject} (h : s.live a = some o) (hd : o'.deleted = false)
    (ho : o'.tokenBalances.balance = o.tokenBalances.balance) :
    (s.setStateObject a o').balanceOf b tokenID = s.balanceOf b tokenID := by
  rw [balanceOf_setStateObject hd]
  split_ifs with hb
  · rw [hb, balanceOf_of_live h, ho]
  · rfl

theorem balanceOf_getOrNewStateObject :
    (s.getOrNewStateObject a).2.balanceOf b tokenID = s.balanceOf b tokenID := by
  obtain ⟨o, ho⟩ := exists_live_ensured s a
  rw [getOrNewStateObject_eq ho]
  exact (balanceOf_refreshed ho (deleted_of_live ho) rfl).trans balanceOf_ensured

@[simp] theorem balanceOf_getNonce : (s.getNonce a).2.balanceOf b tokenID = s.balanceOf b tokenID :=
  balanceOf_getOrNewStateObject

@[simp] theorem balanceOf_getBalance :
    (s.getBalance a tokenID').2.balanceOf b tokenID = s.balanceOf b tokenID := by
  rcases h : s.live a with _ | o
  · rw [getBalance_of_live_eq_none h]
  rw [getBalance_of_live_eq_some h]
  exact balanceOf_refreshed h (deleted_of_live h :) TokenBalances.balance_getTokenBalance

@[simp] theorem balanceOf_setNonce {nonce : ℕ} :
    (s.setNonce a nonce).balanceOf b tokenID = s.balanceOf b tokenID := by
  obtain ⟨o, ho⟩ := exists_live_ensured s a
  have hap : ((s.ensured a).append (.nonce a o.nonce)).live a = some o := ho
  rw [setNonce_eq ho]
  refine Eq.trans ?_ (balanceOf_ensured (a := a))
  exact balanceOf_refreshed hap (deleted_of_live ho :) rfl

theorem balanceOf_setObjectBalance (ho : s.live a = some o) :
    (s.setObjectBalance a { o with tokenBalances := (o.tokenBalances.getTokenBalance tokenID).2 } amount
        tokenID).balanceOf b tokenID' =
      if b = a ∧ tokenID' = tokenID then amount else s.balanceOf b tokenID' := by
  have hd : o.deleted = false := deleted_of_live ho
  unfold setObjectBalance
  rw [balanceOf_setStateObject (by exact hd)]
  by_cases hb : b = a
  · subst hb
    rw [if_pos rfl]
    dsimp only
    rw [TokenBalances.balance_setValue, TokenBalances.balance_getTokenBalance, balanceOf_of_live ho]
    simp only [true_and]
  · rw [if_neg hb, if_neg fun h => hb h.1]
    exact balanceOf_congr rfl

/-- **`AddBalance` adds to one balance.** -/
@[simp] theorem balanceOf_addBalance : (s.addBalance a amount tokenID).balanceOf b tokenID' =
      s.balanceOf b tokenID' + if b = a ∧ tokenID' = tokenID then amount else 0 := by
  obtain ⟨o, ho⟩ := exists_live_ensured s a
  by_cases hz : amount = 0
  · rw [hz, addBalance_zero ho, balanceOf_congr (live_touch b),
      balanceOf_refreshed ho (deleted_of_live ho) rfl, balanceOf_ensured, ite_self]
    rfl
  · rw [addBalance_of_ne_zero ho hz, balanceOf_setObjectBalance ho]
    split_ifs with h
    · obtain ⟨rfl, rfl⟩ := h
      rw [balanceOf_eq_of_ensured ho]
    · exact balanceOf_ensured

/-- **`SubBalance` takes off one balance.** -/
theorem balanceOf_subBalance (h : s.subBalance a amount tokenID = .ok s') :
    s'.balanceOf b tokenID' + (if b = a ∧ tokenID' = tokenID then amount else 0) =
      s.balanceOf b tokenID' := by
  obtain ⟨o, ho⟩ := exists_live_ensured s a
  rw [subBalance_eq ho] at h
  split_ifs at h with hz hlt
  · cases h
    rw [balanceOf_refreshed ho (deleted_of_live ho) rfl, balanceOf_ensured, hz, ite_self]
    rfl
  · cases h
    rw [balanceOf_setObjectBalance ho]
    split_ifs with hb
    · obtain ⟨rfl, rfl⟩ := hb
      rw [balanceOf_eq_of_ensured ho]
      omega
    · exact balanceOf_ensured

end QuarkChain.State.StateDB
