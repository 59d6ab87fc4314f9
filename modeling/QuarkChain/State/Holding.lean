/-
# What the accounts hold of one token

An account is settled in a token if its map of balances says all there is: an amount that only the token trie
knows is lost when the balances are copied (`GetBalanceMap` in `src/core/state/statedb.go` and `journal.go`),
which is what `CreateAccount` and every undo of a balance do.  From a state in which all accounts are settled,
execution stays in such states, and going back to a snapshot gives every account its amount back.

`Level t s s'`: execution went from `s` to `s'`, and nobody's amount of token `t` changed.
-/
import QuarkChain.State.Balance

namespace QuarkChain.State

open QuarkChain.Types

namespace TokenBalances

variable {b : TokenBalances} {t tokenID : TokenID} {amount : ℕ}

def Settled (t : TokenID) (b : TokenBalances) : Prop := (b.balances.lookup t).getD 0 = b.balance t

theorem settled_of_tokenTrie_eq_none (h : b.tokenTrie = none) : b.Settled t := by
  unfold Settled balance
  rw [h]
  cases b.balances.lookup t <;> rfl

theorem settled_newTokenBalancesWithMap (m : TokenMap) : (newTokenBalancesWithMap m).Settled t :=
  settled_of_tokenTrie_eq_none rfl

theorem Settled.setValue (h : b.Settled t) : (b.setValue tokenID amount).Settled t := by
  unfold Settled
  rw [balance_setValue]
  split_ifs with ht
  · subst ht
    simp [TokenBalances.setValue, Finmap.lookup_insert]
  have hlookup : (b.setValue tokenID amount).balances.lookup t = b.balances.lookup t :=
    Finmap.lookup_insert_of_ne _ ht
  rw [hlookup]
  exact h

theorem Settled.getTokenBalance (h : b.Settled t) : (b.getTokenBalance tokenID).2.Settled t := by
  unfold TokenBalances.getTokenBalance
  cases hl : b.balances.lookup tokenID with
  | some amount => exact h
  | none =>
    rcases hc : b.tokenTrie with _ | content
    · exact h
    dsimp only
    split_ifs with hz
    · exact h
    have hread : (b.setValue tokenID (content tokenID)).Settled t := h.setValue
    unfold TokenBalances.setValue at hread
    rw [hc] at hread
    exact hread

end TokenBalances

/-- The tolerance that keeps the amount of one token, for accounts that are settled in it. -/
def holding (t : TokenID) : Tolerance where
  object _ o' o := o.tokenBalances.Settled t →
    o'.tokenBalances.Settled t ∧ o'.tokenBalances.balance t = o.tokenBalances.balance t
  ripemdDirty := True
  refl _ _ h := ⟨h, rfl⟩
  trans h h' hs := ⟨(h (h' hs).1).1, (h (h' hs).1).2.trans (h' hs).2⟩
  undo {a o' o} e h := by
    cases e with
    | suicide | balance =>
      exact fun _ => ⟨TokenBalances.settled_newTokenBalancesWithMap _, rfl⟩
    | nonce | storage | code | createObject | resetObject | refund | addLog | touch => exact h
  read _ o tokenID h := ⟨h.getTokenBalance, by rw [TokenBalances.balance_getTokenBalance]⟩
  store _ _ _ h := ⟨h, rfl⟩

namespace StateDB

variable {t tokenID : TokenID} {s s' s'' : StateDB} {a b : Recipient} {o o' : StateObject}
  {e : JournalEntry} {amount : ℕ}

def Settled (t : TokenID) (s : StateDB) : Prop := ∀ a o, s.live a = some o → o.tokenBalances.Settled t

/-- Execution went from `s` to `s'`, can be undone as far as token `t` is concerned, and leaves the
accounts settled. -/
structure Kept (t : TokenID) (s s' : StateDB) : Prop where
  extend : Extends (holding t) s s'
  settled : s.Settled t → s'.Settled t

/-- And nobody's amount of token `t` changed. -/
structure Level (t : TokenID) (s s' : StateDB) : Prop extends Kept t s s' where
  balance : s.Settled t → ∀ a, s'.balanceOf a t = s.balanceOf a t

theorem Kept.consistent (h : Kept t s s') : s'.Consistent := h.extend.consistent

theorem Kept.trans (h : Kept t s s') (h' : Kept t s' s'') : Kept t s s'' :=
  ⟨h.extend.trans h'.extend, fun hs => h'.settled (h.settled hs)⟩

theorem Level.refl (h : s.Consistent) : Level t s s := ⟨⟨h.extends_refl _, id⟩, fun _ _ => rfl⟩

theorem Level.trans (h : Level t s s') (h' : Level t s' s'') : Level t s s'' :=
  ⟨h.toKept.trans h'.toKept,
    fun hs a => (h'.balance (h.settled hs) a).trans (h.balance hs a)⟩

theorem Level.snapshot (h : s.Consistent) : Level t s s.snapshot.2 :=
  ⟨⟨h.extends_snapshot _, id⟩, fun _ _ => rfl⟩

/-- **Going back to a snapshot** gives every account its amount back. -/
theorem Kept.revertToSnapshot (hs : s.Consistent) (h : Kept t s.snapshot.2 s')
    (hr : s'.revertToSnapshot s.snapshot.1 = .ok s'') : Level t s s'' := by
  obtain ⟨u, hu, hrestored, hext⟩ := h.extend.revertToSnapshot hs
  cases hr.symm.trans hu
  refine ⟨⟨hext, fun hset a o ho => ?_⟩, fun hset a => ?_⟩
  · rcases hlive : s.live a with _ | x
    · rw [hrestored.live_eq_none hlive] at ho; cases ho
    obtain ⟨x', hx', hkeep⟩ := hrestored.live_eq_some hlive
    cases ho.symm.trans hx'
    exact (hkeep (hset a x hlive)).1
  · cases hlive : s.live a with
    | none =>
      unfold balanceOf
      rw [hrestored.live_eq_none hlive, hlive]
    | some x =>
      obtain ⟨x', hx', hkeep⟩ := hrestored.live_eq_some hlive
      rw [balanceOf_of_live hx', balanceOf_of_live hlive]
      exact (hkeep (hset a x hlive)).2

theorem Settled.setStateObject (h : s.Settled t) (hd : o'.deleted = false)
    (ho : o'.tokenBalances.Settled t) : (s.setStateObject a o').Settled t := by
  intro b o hb
  by_cases hba : b = a
  · subst hba
    rw [live_setStateObject_self hd] at hb
    cases hb
    exact ho
  · rw [live_setStateObject_of_ne hba] at hb
    exact h b o hb

theorem Level.replace (hc : Changes (holding t) s (s'.setStateObject a o')) (hs : s.Consistent)
    (hlive : ∀ b, s'.live b = s.live b) (h : s.live a = some o) (hd : o'.deleted = false)
    (ho : (holding t).object a o' o) : Level t s (s'.setStateObject a o') := by
  have hset : s.Settled t → s'.Settled t := fun hset b x hx => hset b x ((hlive b).symm.trans hx)
  refine ⟨⟨hs.extends hc, fun h' => ?_⟩, fun h' b => ?_⟩
  · exact (hset h').setStateObject hd (ho (h' a o h)).1
  · rw [balanceOf_setStateObject hd]
    split_ifs with hb
    · rw [hb, balanceOf_of_live h]
      exact (ho (h' a o h)).2
    · exact balanceOf_congr (hlive b)

theorem Level.refresh (hs : s.Consistent) (h : s.live a = some o) (hd : o'.deleted = false)
    (ho : (holding t).object a o' o) : Level t s (s.setStateObject a o') :=
  .replace (Change.refresh h hd ho).changes hs (fun _ => rfl) h hd ho

theorem Level.edit (hs : s.Consistent) (he : e.edits = some a) (h : s.live a = some o)
    (hd : o'.deleted = false) (hundo : (holding t).object a (e.undo o') o)
    (ho : (holding t).object a o' o) : Level t s ((s.append e).setStateObject a o') :=
  .replace (Change.edit he h hd hundo).changes hs (fun _ => rfl) h hd ho

theorem Level.reset (hs : s.Consistent) (h : s.live a = some o) (hd : o'.deleted = false)
    (ho : (holding t).object a o' o) :
    Level t s ((s.append (.resetObject a o)).setStateObject a o') :=
  .replace (Change.reset h hd).changes hs (fun _ => rfl) h hd ho

theorem Level.create (hs : s.Consistent) (h : s.live a = none) : Level t s (s.created a) := by
  refine ⟨⟨hs.extends (Change.create h).changes, fun hset b o ho => ?_⟩, fun _ b => ?_⟩
  · by_cases hba : b = a
    · subst hba
      rw [live_created_self] at ho
      cases ho
      exact TokenBalances.settled_of_tokenTrie_eq_none rfl
    · rw [live_created_of_ne hba] at ho
      exact hset b o ho
  · rw [← ensured_of_live_eq_none h]
    exact balanceOf_ensured

section

variable (hs : s.Consistent)
include hs

end

/-- **`Suicide` takes everything** from the account. -/
theorem balanceOf_suicide : (s.suicide a).2.balanceOf b t = if b = a then 0 else s.balanceOf b t := by
  cases h : s.live a with
  | none =>
    rw [suicide_of_live_eq_none h]
    split_ifs with hb
    · unfold balanceOf
      rw [hb, h]
      rfl
    · rfl
  | some o =>
    have hd := deleted_of_live h
    rw [suicide_of_live_eq_some h, balanceOf_setStateObject (by exact hd)]
    split_ifs with hb
    · rfl
    · exact balanceOf_congr rfl

end StateDB
end QuarkChain.State
