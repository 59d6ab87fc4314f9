/-
# Runs that leave the ledger alone

The ledger of a state is what its accounts hold (the balance of every token, nonce, code and storage), with the
logs.  `Still s s'`: execution went from `s` to `s'` without reverting behind `s`, and the ledger is the same.
Loading accounts, filling token caches, creating empty accounts and touching accounts are of this kind, and so
is going back to a snapshot after any such run.
-/
import QuarkChain.State.Above

namespace QuarkChain.State

open QuarkChain.Types

def record (o : Option StateObject) : (TokenID → ℕ) × ℕ × List UInt8 × (Hash → Hash) :=
  (fun tokenID => o.elim 0 fun o => o.tokenBalances.balance tokenID, o.elim 0 StateObject.nonce,
    o.elim [] StateObject.code, fun key => o.elim 0 fun o => o.getState key)

theorem record_blank (fullShardKey : ℕ) : record (some (.blank fullShardKey)) = record none := rfl

theorem record_undo {o o' : StateObject} (e : JournalEntry) (h : record (some o') = record (some o)) :
    record (some (e.undo o')) = record (some (e.undo o)) := by
  have hb : (fun t => o'.tokenBalances.balance t) = fun t => o.tokenBalances.balance t := congrArg Prod.fst h
  have hn : o'.nonce = o.nonce := congrArg (fun r => r.2.1) h
  have hc : o'.code = o.code := congrArg (fun r => r.2.2.1) h
  have hs : o'.getState = o.getState := congrArg (fun r => r.2.2.2) h
  cases e with
  | storage a key prevalue =>
    refine Prod.ext hb (Prod.ext hn (Prod.ext hc ?_))
    show (o'.setState key prevalue).getState = (o.setState key prevalue).getState
    rw [getState_setState, getState_setState, hs]
  | suicide a prev prevbalance => exact Prod.ext rfl (Prod.ext hn (Prod.ext hc hs))
  | balance a prev => exact Prod.ext rfl (Prod.ext hn (Prod.ext hc hs))
  | nonce a prev => exact Prod.ext hb (Prod.ext rfl (Prod.ext hc hs))
  | code a prevcode => exact Prod.ext hb (Prod.ext hn (Prod.ext rfl hs))
  | createObject | resetObject | refund | addLog | touch => exact h

/-- The tolerance that keeps the records of accounts. -/
def keeping : Tolerance where
  object _ o' o := record (some o') = record (some o)
  ripemdDirty := True
  refl _ _ := rfl
  trans h h' := h.trans h'
  undo e h := record_undo e h
  read _ o tokenID := by
    refine Prod.ext ?_ rfl
    show (fun t => (o.tokenBalances.getTokenBalance tokenID).2.balance t) = _
    rw [TokenBalances.balance_getTokenBalance]
    rfl
  store _ o key := by
    refine Prod.ext rfl (Prod.ext rfl (Prod.ext rfl ?_))
    show (o.setState key (o.getState key)).getState = o.getState
    rw [getState_setState, Function.update_eq_self]

namespace StateDB

variable {s s' s'' : StateDB} {a : Recipient} {tokenID : TokenID}

/-- No balance, nonce, code, storage slot or log differs. -/
structure SameLedger (s' s : StateDB) : Prop where
  balance : ∀ a tokenID, (s'.getBalance a tokenID).1 = (s.getBalance a tokenID).1
  nonce : ∀ a, (s'.getNonce a).1 = (s.getNonce a).1
  code : ∀ a, (s'.getCode a).1 = (s.getCode a).1
  storage : ∀ a key, (s'.getState a key).1 = (s.getState a key).1
  logs : s'.logs = s.logs

theorem SameLedger.of_record (h : ∀ a, record (s'.live a) = record (s.live a))
    (hl : s'.logs = s.logs) : SameLedger s' s where
  balance a tokenID := by
    rw [getBalance_fst, getBalance_fst]
    exact congrFun (congrArg Prod.fst (h a)) tokenID
  nonce a := by
    rw [getNonce_fst, getNonce_fst]
    exact congrArg (fun r => r.2.1) (h a)
  code a := by
    rw [getCode_fst, getCode_fst]
    exact congrArg (fun r => r.2.2.1) (h a)
  storage a key := by
    rw [getState_fst, getState_fst]
    exact congrFun (congrArg (fun r => r.2.2.2) (h a)) key
  logs := hl

/-- The ledger of `s'` is that of `s`, and so it stays when the run from `s` to `s'` is undone. -/
structure Still (s s' : StateDB) : Prop where
  extend : Extends keeping s s'
  record : ∀ a, record (s'.live a) = record (s.live a)
  logs : s'.logs = s.logs

theorem Still.sameLedger (h : Still s s') : SameLedger s' s := .of_record h.record h.logs

theorem Still.balanceOf (h : Still s s') : s'.balanceOf a tokenID = s.balanceOf a tokenID :=
  congrFun (congrArg Prod.fst (h.record a)) tokenID

theorem Still.consistent (h : Still s s') : s'.Consistent := h.extend.consistent

theorem Still.refl (h : s.Consistent) : Still s s := ⟨h.extends_refl _, fun _ => rfl, rfl⟩

theorem Still.trans (h : Still s s') (h' : Still s' s'') : Still s s'' :=
  ⟨h.extend.trans h'.extend, fun a => (h'.record a).trans (h.record a), h'.logs.trans h.logs⟩

theorem Still.snapshot (h : s.Consistent) : Still s s.snapshot.2 :=
  ⟨h.extends_snapshot _, fun _ => rfl, rfl⟩

theorem Still.revertToSnapshot (hs : s.Consistent) (h : Still s.snapshot.2 s') :
    ∃ s'', s'.revertToSnapshot s.snapshot.1 = .ok s'' ∧ Still s s'' := by
  obtain ⟨s'', hr, hrestored, hext⟩ := h.extend.revertToSnapshot hs
  refine ⟨s'', hr, hext, fun a => ?_, hrestored.logs⟩
  have hl := hrestored.live a
  rcases hlive : s.live a with _ | o
  · rw [hrestored.live_eq_none hlive]
  obtain ⟨o', ho', hkeep⟩ := hrestored.live_eq_some hlive
  rw [ho']
  exact hkeep

theorem Still.refresh {o o' : StateObject} (hs : s.Consistent) (h : s.live a = some o)
    (hd : o'.deleted = false) (ho : State.record (some o') = State.record (some o)) :
    Still s (s.setStateObject a o') := by
  have hc : Changes keeping s (s.setStateObject a o') := (Change.refresh h hd ho).changes
  refine ⟨hs.extends hc, fun b => ?_, rfl⟩
  by_cases hb : b = a
  · subst hb
    rw [live_setStateObject_self hd, h]
    exact ho
  · rw [live_setStateObject_of_ne hb]

theorem Still.create (hs : s.Consistent) (h : s.live a = none) : Still s (s.created a) := by
  have hc : Changes keeping s (s.created a) := (Change.create h).changes
  refine ⟨hs.extends hc, fun b => ?_, rfl⟩
  by_cases hb : b = a
  · subst hb
    rw [live_created_self, h]
    exact record_blank _
  · rw [live_created_of_ne hb]

theorem live_touch (b : Recipient) : (s.touch a).live b = s.live b := by
  unfold StateDB.touch
  dsimp only
  split_ifs <;> rfl

variable (hs : s.Consistent)
include hs

theorem Still.touch (h : s.Loaded a) : Still s (s.touch a) := by
  have hc : Changes keeping s (s.touch a) := (Change.touch h fun _ => trivial).changes
  refine ⟨hs.extends hc, fun b => by rw [live_touch], ?_⟩
  unfold StateDB.touch
  dsimp only
  split_ifs <;> rfl

theorem still_getStateObject : Still s (s.getStateObject a).2 := by
  cases h : s.live a with
  | none =>
    rw [getStateObject_of_live_eq_none h]
    exact .refl hs
  | some o =>
    rw [getStateObject_of_live_eq_some h]
    exact .refresh hs h (deleted_of_live h) rfl

theorem still_getBalance : Still s (s.getBalance a tokenID).2 := by
  cases h : s.live a with
  | none =>
    rw [getBalance_of_live_eq_none h]
    exact .refl hs
  | some o =>
    rw [getBalance_of_live_eq_some h]
    exact .refresh hs h (deleted_of_live h :) (keeping.read a o tokenID)

theorem still_getOrNewStateObject :
    Still s (s.getOrNewStateObject a).2 ∧ (s.getOrNewStateObject a).2.Loaded a := by
  obtain ⟨o, ho⟩ := exists_live_ensured s a
  have hd := deleted_of_live ho
  have hens : Still s (s.ensured a) := by
    cases h : s.live a with
    | none =>
      rw [ensured_of_live_eq_none h]
      exact .create hs h
    | some x =>
      rw [ensured_of_live_eq_some h]
      exact .refl hs
  rw [getOrNewStateObject_eq ho]
  exact ⟨hens.trans (.refresh hens.consistent ho hd rfl), loaded_setStateObject_self hd⟩

theorem still_addBalance_zero : Still s (s.addBalance a 0 tokenID) := by
  obtain ⟨hstill, hloaded⟩ := still_getOrNewStateObject (a := a) hs
  exact hstill.trans (.touch hstill.consistent hloaded)

theorem still_subBalance_zero (h : s.subBalance a 0 tokenID = .ok s') : Still s s' := by
  unfold subBalance at h
  cases h
  exact (still_getOrNewStateObject hs).1

theorem still_createAccount (h : s.live a = none) : Still s (s.createAccount a) := by
  rw [createAccount_of_live_eq_none h]
  exact .create hs h

end StateDB
end QuarkChain.State
