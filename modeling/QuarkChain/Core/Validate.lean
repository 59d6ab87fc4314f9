/-
# What validating and paying leave of a state

The calls of the native-token manager, `ValidateTransaction` and the first part of `ApplyTransaction`
(`src/core/state_processor.go`) only ever add to the journal of the state they are given (`World.Above`), so
its block fields are unchanged.  Apart from what the virtual machine does, the one way they stop is an answer
of the manager that is too short.
-/
import QuarkChain.Core.Progress

namespace QuarkChain.Core

open QuarkChain.Types State StateDB Vm Outcome

section

variable {m : Machine} {Bad : Stop → Prop} {cfg : ChainConfig} {tx : EvmTransaction} {w : World}
  {sender : Recipient}

theorem callGeneralNativeTokenManager_post {data : List UInt8} (hm : m.Sound Bad)
    (hshort : Bad (.panic .shortReturn)) (h : w.db.Consistent) :
    Post (callGeneralNativeTokenManager m data w) (fun r => w.Above r.2) Bad := by
  have hread : w.Above { w with db := (w.db.getCode generalNativeToken).2 } := above_getCode h
  unfold callGeneralNativeTokenManager
  dsimp only
  generalize w.db.getCode generalNativeToken = read at hread
  split_ifs
  · exact hread
  refine (hm.call _ _ _ _ _ _ _ hread.consistent).bind fun r hr => ?_
  have hw := hread.trans hr.above
  cases r.err with
  | some err => exact hw
  | none =>
    dsimp only
    split_ifs
    · exact hshort
    · exact hw

theorem payNativeTokenAsGas_post {tokenID : TokenID} {gas : UInt64} {price : ℕ} (hm : m.Sound Bad)
    (hshort : Bad (.panic .shortReturn)) (h : w.db.Consistent) :
    Post (payNativeTokenAsGas m tokenID gas price w) (fun r => w.Above r.2) Bad := by
  unfold payNativeTokenAsGas
  split_ifs
  · exact StateDB.Above.refl h
  · exact callGeneralNativeTokenManager_post hm hshort h

theorem checkBalances_above (h : w.db.Consistent) : w.Above (checkBalances cfg tx sender w).2 := by
  have hfirst : StateDB.Above w.db (w.db.getBalance sender tx.transferTokenID).2 := above_getBalance h
  unfold checkBalances
  dsimp only
  generalize w.db.getBalance sender tx.transferTokenID = read at hfirst
  have hsecond : StateDB.Above w.db (if tx.transferTokenID = tx.gasTokenID then (read.1, read.2)
      else read.2.getBalance sender tx.gasTokenID).2 := by
    split_ifs
    · exact hfirst
    · exact hfirst.trans (above_getBalance hfirst.consistent)
  generalize (if tx.transferTokenID = tx.gasTokenID then (read.1, read.2)
      else read.2.getBalance sender tx.gasTokenID) = read' at hsecond
  exact hsecond

variable (hm : m.Sound Bad) (hshort : Bad (.panic .shortReturn))
  (h : w.db.Consistent)
include hm hshort h

theorem checkConversion_post : Post (checkConversion m cfg tx w) (fun r => w.Above r.2) Bad := by
  unfold checkConversion
  split_ifs
  · exact StateDB.Above.refl h
  dsimp only
  have hsnap : w.Above w.marked := .snapshot h
  refine (payNativeTokenAsGas_post hm hshort hsnap.consistent).bind fun r hr => ?_
  rcases r.1 with err | quoted
  · exact hsnap.trans hr
  dsimp only
  refine (post_revertTo h hr).bind fun w' hw' => ?_
  have hread : w.Above { w' with
      db := (w'.db.getBalance generalNativeToken cfg.defaultChainTokenID).2 } :=
    hw'.trans (above_getBalance hw'.consistent)
  split_ifs
  · exact hw'
  · exact hread
  · exact hread

/-- **Validation goes on from the state it is given.** -/
theorem validateTransaction_post :
    Post (validateTransaction m cfg tx w) (fun r => w.Above r.2) Bad := by
  unfold validateTransaction
  rcases tx.sender tx.networkId with _ | sender
  · exact StateDB.Above.refl h
  dsimp only
  have hread : w.Above { w with db := (w.db.getNonce sender).2 } := above_getNonce h
  generalize w.db.getNonce sender = read at hread
  generalize (if sender = 0 then 0 else read.1) = reqNonce
  split_ifs with hmax hnonce
  · exact StateDB.Above.refl h
  · exact hread
  split
  · exact hread
  split_ifs
  · exact hread
  have hbal : World.Above { w with db := read.2 } (checkBalances cfg tx sender { w with db := read.2 }).2 :=
    checkBalances_above hread.consistent
  generalize checkBalances cfg tx sender { w with db := read.2 } = checked at hbal
  obtain ⟨_ | err, w₁⟩ := checked
  · have hw := hread.trans hbal
    refine (checkConversion_post hm hshort hw.consistent).bind fun r hr => ?_
    cases r.1 with
    | some err => exact hw.trans hr
    | none =>
      dsimp only
      split_ifs <;> exact hw.trans hr
  · exact hread.trans hbal

/-- **The exchange of gas tokens goes on from the state it is given**, also where it fails. -/
theorem swapGas_post : Post (swapGas m cfg tx w) (fun r => w.Above r.2) Bad := by
  unfold swapGas
  split_ifs
  · exact StateDB.Above.refl h
  refine (payNativeTokenAsGas_post hm hshort h).bind fun r hr => ?_
  obtain ⟨err | ⟨rate, price⟩, w₁⟩ := r
  · exact hr
  dsimp only at hr ⊢
  have hread : w₁.Above { w₁ with
      db := (w₁.db.getBalance generalNativeToken cfg.defaultChainTokenID).2 } :=
    above_getBalance hr.consistent
  have hfst : (w₁.db.getBalance generalNativeToken cfg.defaultChainTokenID).1 =
      (w₁.db.getBalance generalNativeToken cfg.defaultChainTokenID).2.balanceOf generalNativeToken
        cfg.defaultChainTokenID :=
    (getBalance_fst ..).trans balanceOf_getBalance.symm
  generalize w₁.db.getBalance generalNativeToken cfg.defaultChainTokenID = read at hread hfst
  have hw := hr.trans hread
  split_ifs with hprice hpoor
  · exact hr
  · exact hw
  refine (lift_subBalance hw.consistent ?_).bind fun w' hw' => ?_
  · rw [← hfst]
    exact Nat.le_of_not_lt hpoor
  · exact (hw.trans hw'.1).trans (above_addBalance hw'.1.consistent)

end

end QuarkChain.Core
