/-
# What holds of every run of the virtual machine

Whatever the code, the frames and the state: a call function leaves the state `Above` the one it
started from (every revert inside finds its snapshot), gives back no more gas than it got, and reports
`ErrInsufficientBalance` only if the caller's balance is too small (`CallPost`).

Here are the two ends of a call function: its checks and the frame it sets up (`Request.enter_for`), and the end
of the frame (`finish_post`, `finishCreate_post`).  What happens in between is in `QuarkChain.Vm.Machine`.
-/
import QuarkChain.State.Above
import QuarkChain.Vm.Steps

namespace QuarkChain.Vm

open QuarkChain.Types
open State StateDB
open Outcome

/-- Execution went from `w` to `w'`. -/
abbrev World.Above (w w' : World) : Prop := StateDB.Above w.db w'.db

section

variable {w w' w'' : World} {db : StateDB} {addr : Recipient} {tokenID : TokenID} {value : ℕ}

theorem World.above_marked (h : w.db.Consistent) : w.Above w.marked := .snapshot h

theorem post_revertTo {Q : Stop → Prop} (h : w.db.Consistent) (hw : w.marked.Above w') :
    Post (w'.revertTo w.mark) (fun w'' => w.Above w'') Q := by
  obtain ⟨db, hdb, habove⟩ := hw.revertToSnapshot h
  unfold World.revertTo World.mark
  rw [hdb]
  exact habove

variable {env : Env} {ctx : Context}

theorem transfer_above {recipient : Recipient} (h : w.db.Consistent)
    (ht : transfer w addr recipient value tokenID = .ok w') : w.Above w' := by
  obtain ⟨db, hdb, rfl⟩ := transfer_eq_ok.mp ht
  have hsub := above_subBalance h hdb
  exact hsub.trans (above_addBalance hsub.consistent)

theorem opSuicide_above {self beneficiary : Recipient} (h : w.db.Consistent) :
    w.Above (opSuicide env w self beneficiary) := by
  have hread : StateDB.Above w.db (w.db.getBalance self env.defaultChainTokenID).2 := above_getBalance h
  have hadd : StateDB.Above w.db ((w.db.getBalance self env.defaultChainTokenID).2.addBalance beneficiary
      (w.db.getBalance self env.defaultChainTokenID).1 env.defaultChainTokenID) :=
    hread.trans (above_addBalance hread.consistent)
  exact hadd.trans (above_suicide hadd.consistent)

def Onwards (_ : Prop) (w w' : World) : Prop := w.db.Consistent → w.Above w'

/-- **Every step of a call tree leaves the state above the one before.** -/
theorem steps_above (env : Env) : Steps env .all Onwards where
  refl _ := StateDB.Above.refl
  trans h h' hw := (h hw).trans (h' (h hw).consistent)
  mono _ h := h
  load _ _ h := above_getStateObject h
  getBalance _ _ _ h := above_getBalance h
  getNonce _ _ h := above_getNonce h
  setNonce _ _ _ h := above_setNonce h
  setCode _ _ _ h := above_setCode h
  setState _ _ _ _ h := above_setState h
  addRefund _ _ h := above_addRefund h
  addLog _ _ h := above_addLog h
  createAccount _ _ h := above_createAccount h
  touch w a h := (above_addBalance h : StateDB.Above w.db (w.db.addBalance a 0 env.defaultChainTokenID))
  transfer ht h := transfer_above h ht
  mint _ _ _ _ h := above_addBalance h
  selfdestruct _ _ _ := opSuicide_above
  mark _ := World.above_marked
  revert h hback hw :=
    (post_revertTo (Q := fun _ => True) hw (h (World.above_marked hw).consistent)).of_ok hback

theorem canTransfer_above (h : w.db.Consistent) : w.Above (canTransfer w addr value tokenID).2 :=
  above_getBalance h

theorem le_cachedOf_canTransfer (h : (canTransfer w addr value tokenID).1 = true) :
    value ≤ (canTransfer w addr value tokenID).2.db.cachedOf addr tokenID := by
  have hle : value ≤ (w.db.getBalance addr tokenID).1 := of_decide_eq_true h
  exact Nat.le_trans hle getBalance_fst_le_cachedOf

theorem canTransfer_fst (h : value ≤ w.db.balanceOf addr tokenID) :
    (canTransfer w addr value tokenID).1 = true := by
  have hb : (w.db.getBalance addr tokenID).1 = w.db.balanceOf addr tokenID := getBalance_fst ..
  show decide (value ≤ (w.db.getBalance addr tokenID).1) = true
  rw [hb]
  exact decide_eq_true h

theorem cachedOf_le_posw {b : Recipient} : w.db.cachedOf b tokenID ≤
      (transferFailureByPoswBalanceCheck env w addr value).2.db.cachedOf b tokenID := by
  unfold transferFailureByPoswBalanceCheck
  cases w.db.block.senderDisallowMap addr with
  | none => exact Nat.le_refl _
  | some v => exact cachedOf_le_getBalance

theorem cachedOf_le_takeNonce {db : StateDB} {a : Recipient} :
    db.cachedOf a tokenID ≤ (takeNonce ctx db addr).cachedOf a tokenID := by
  unfold takeNonce
  split_ifs
  · exact Nat.le_refl _
  · exact Nat.le_trans cachedOf_le_getNonce cachedOf_le_setNonce

theorem exists_transfer (recipient : Recipient) (h : value ≤ w.db.cachedOf addr tokenID) :
    ∃ w', transfer w addr recipient value tokenID = .ok w' := by
  obtain ⟨db, hdb⟩ := exists_subBalance (Nat.le_trans h cachedOf_le_balanceOf)
  exact ⟨_, transfer_eq_ok.mpr ⟨db, hdb, rfl⟩⟩

end

/-! ### Entering a call function -/

def Request.callerAddress : Request → Recipient
  | .call _ caller _ _ _ _ _ | .callCode _ caller _ _ _ _ _ | .staticCall _ caller _ _ _ _
  | .create _ caller _ _ _ _ _ => caller
  | .delegateCall _ parent _ _ _ _ => parent.callerAddress

def Request.Funded : Request → Prop
  | .call scope caller _ _ _ value w | .create scope caller _ _ value _ w =>
      value ≤ w.db.balanceOf caller scope.transferTokenID
  | .callCode _ _ _ _ _ _ _ | .delegateCall _ _ _ _ _ _ | .staticCall _ _ _ _ _ _ => False

/-- The result of a call function that ends at its checks. -/
structure CallResult.For (q : Request) (r : CallResult) : Prop where
  gas : r.leftOverGas ≤ q.gas
  err : q.Funded → r.err ≠ some .insufficientBalance
  skipped : r.err = none → precompiles q.target = none

/-- The frame is the one of the request. -/
structure Frame.For (q : Request) (f : Frame) : Prop where
  scope : f.scope = q.scope
  depth : q.scope.depth ≤ callCreateDepth
  codeAddr : f.contract.codeAddr = q.target
  gas : f.contract.gas = q.gas
  callerAddress : f.contract.callerAddress = q.callerAddress
  caller : q.Funded → f.contract.callerAddress = f.contract.caller

/-- What a request comes to is its own. -/
def EntryFor (q : Request) : CallResult ⊕ Frame → Prop
  | .inl r => r.For q
  | .inr f => f.For q

variable {env : Env} {ctx : Context} {scope : Scope} {w w' : World} {input : List UInt8}
  {caller addr : Recipient} {gas value : ℕ}

theorem enterChecked_for {q : Request} {tokenID : TokenID} {k : World → Entry} (hgas : gas ≤ q.gas)
    (hfunded : q.Funded → value ≤ w.db.balanceOf caller tokenID)
    (hk : ∀ w', value ≤ w'.db.cachedOf caller tokenID → Post (k w') (EntryFor q) fun _ => False) :
    Post (enterChecked env w caller gas value tokenID k) (EntryFor q) fun _ => False := by
  unfold enterChecked
  dsimp only
  split_ifs with hcan hposw
  · refine ⟨hgas, fun hf => ?_, nofun⟩
    rw [canTransfer_fst (hfunded hf)] at hcan
    cases hcan
  · exact ⟨Nat.zero_le _, nofun, nofun⟩
  · rw [Bool.not_eq_true', Bool.not_eq_false] at hcan
    exact hk _ (Nat.le_trans (le_cachedOf_canTransfer hcan) cachedOf_le_posw)

theorem enterCall_for : Post (enterCall env scope caller addr input gas value w)
      (EntryFor (.call scope caller addr input gas value w)) fun _ => False := by
  unfold enterCall
  split_ifs with hdepth
  · exact ⟨Nat.le_refl _, nofun, nofun⟩
  refine enterChecked_for (Nat.le_refl _) id fun w₁ hcached => ?_
  have hcached : value ≤ (w₁.marked.db.exist addr).2.cachedOf caller scope.transferTokenID :=
    Nat.le_trans hcached (cachedOf_le_getStateObject (s := w₁.marked.db))
  dsimp only
  generalize w₁.marked.db.exist addr = looked at hcached ⊢
  obtain ⟨exist, db⟩ := looked
  dsimp only at hcached ⊢
  by_cases hskip : (!exist && (precompiles addr).isNone && value == 0) = true
  · rw [if_pos hskip]
    simp only [Bool.and_eq_true, Option.isNone_iff_eq_none] at hskip
    exact ⟨Nat.le_refl _, nofun, fun _ => hskip.1.2⟩
  rw [if_neg hskip]
  have hcached : value ≤
      (if exist = true then db else db.createAccount addr).cachedOf caller scope.transferTokenID := by
    split_ifs
    · exact hcached
    · exact Nat.le_trans hcached cachedOf_le_createAccount
  generalize (if exist = true then db else db.createAccount addr) = db' at hcached ⊢
  obtain ⟨w₂, htransfer⟩ := exists_transfer (w := { w₁ with db := db' }) addr hcached
  rw [htransfer]
  exact ⟨rfl, Nat.le_of_not_lt hdepth, rfl, rfl, rfl, fun _ => rfl⟩

theorem enterCallCode_for : Post (enterCallCode env scope caller addr input gas value w)
      (EntryFor (.callCode scope caller addr input gas value w)) fun _ => False := by
  unfold enterCallCode
  split_ifs with hdepth
  · exact ⟨Nat.le_refl _, nofun, nofun⟩
  · exact enterChecked_for (Nat.le_refl _) False.elim fun w₁ _ =>
      ⟨rfl, Nat.le_of_not_lt hdepth, rfl, rfl, rfl, False.elim⟩

theorem enterCreateFrame_for {w₀ : World} {code : List UInt8} {address : Recipient}
    (hdepth : scope.depth ≤ callCreateDepth) (h : value ≤ w.db.cachedOf caller scope.transferTokenID) :
    Post (enterCreateFrame env scope caller code gas value address w)
      (EntryFor (.create scope caller code gas value address w₀)) fun _ => False := by
  have hcached : value ≤ ((w.marked.db.createAccount address).setNonce address 1).cachedOf caller
      scope.transferTokenID :=
    calc value ≤ w.marked.db.cachedOf caller scope.transferTokenID := h
      _ ≤ (w.marked.db.createAccount address).cachedOf caller scope.transferTokenID :=
        cachedOf_le_createAccount
      _ ≤ _ := cachedOf_le_setNonce
  unfold enterCreateFrame
  dsimp only
  generalize (w.marked.db.createAccount address).setNonce address 1 = db at hcached ⊢
  obtain ⟨w₁, htransfer⟩ := exists_transfer (w := { w with db }) address hcached
  rw [htransfer]
  exact ⟨rfl, hdepth, rfl, rfl, rfl, fun _ => rfl⟩

theorem enterCreate_for {code : List UInt8} {address : Recipient} :
    Post (enterCreate env ctx scope caller code gas value address w)
      (EntryFor (.create scope caller code gas value address w)) fun _ => False := by
  have hcached : (canTransfer w caller value scope.transferTokenID).1 = true →
      value ≤ (canTransfer w caller value scope.transferTokenID).2.db.cachedOf caller
        scope.transferTokenID :=
    le_cachedOf_canTransfer
  have hfunded : value ≤ w.db.balanceOf caller scope.transferTokenID →
      (canTransfer w caller value scope.transferTokenID).1 = true := canTransfer_fst
  unfold enterCreate
  generalize canTransfer w caller value scope.transferTokenID = checked at hcached hfunded ⊢
  obtain ⟨can, w₁⟩ := checked
  dsimp only at hcached hfunded ⊢
  split_ifs with hdepth hcan htoken hused hposw
  · exact ⟨Nat.le_refl _, nofun, nofun⟩
  · refine ⟨Nat.le_refl _, fun hf => ?_, nofun⟩
    rw [hfunded hf] at hcan
    cases hcan
  · exact ⟨Nat.le_refl _, nofun, nofun⟩
  · exact ⟨Nat.zero_le _, nofun, nofun⟩
  · exact ⟨Nat.zero_le _, nofun, nofun⟩
  · rw [Bool.not_eq_true', Bool.not_eq_false] at hcan
    refine enterCreateFrame_for (Nat.le_of_not_lt hdepth) (Nat.le_trans ?_ cachedOf_le_posw)
    exact Nat.le_trans (Nat.le_trans (hcached hcan) cachedOf_le_takeNonce)
      (Nat.le_trans cachedOf_le_getStateObject cachedOf_le_getNonce)

/-- **Entering a call function does not panic,** and gives its result or its frame. -/
theorem Request.enter_for (q : Request) : Post (q.enter env ctx) (EntryFor q) fun _ => False := by
  cases q with
  | call => exact enterCall_for
  | callCode => exact enterCallCode_for
  | delegateCall =>
    unfold Request.enter enterDelegateCall
    dsimp only
    split_ifs with hdepth
    · exact ⟨Nat.le_refl _, nofun, nofun⟩
    · exact ⟨Nat.zero_le _, nofun, nofun⟩
    · exact ⟨rfl, Nat.le_of_not_lt hdepth, rfl, rfl, rfl, False.elim⟩
  | staticCall =>
    unfold Request.enter enterStaticCall
    dsimp only
    split_ifs with hdepth
    · exact ⟨Nat.le_refl _, nofun, nofun⟩
    · exact ⟨Nat.zero_le _, nofun, nofun⟩
    · exact ⟨rfl, Nat.le_of_not_lt hdepth, rfl, rfl, rfl, False.elim⟩
  | create => exact enterCreate_for

/-- What holds of the result of a frame that started in `w` with `gas`. -/
structure RunPost (w : World) (gas : ℕ) (funded : Prop) (r : RunResult) : Prop where
  above : w.Above r.world
  gas : r.contract.gas ≤ gas
  err : funded → r.err ≠ some .insufficientBalance

/-- What holds of the result of a call function that started in `w` with `gas`. -/
structure CallPost (w : World) (gas : ℕ) (funded : Prop) (r : CallResult) : Prop where
  above : w.Above r.world
  gas : r.leftOverGas ≤ gas
  err : funded → r.err ≠ some .insufficientBalance

theorem CallPost.from {funded funded' : Prop} {r : CallResult} (h : CallPost w' gas funded' r)
    (hw : w.Above w') (hf : funded → funded') : CallPost w gas funded r :=
  ⟨hw.trans h.above, h.gas, fun hx => h.err (hf hx)⟩

theorem checkTokenIDQueried_ne {err : Option VmError} {contract : Contract} {tokenID : TokenID}
    (h : err ≠ some .insufficientBalance) :
    checkTokenIDQueried env err contract tokenID ≠ some .insufficientBalance := by
  unfold checkTokenIDQueried
  split_ifs
  · nofun
  · exact h

section

variable {Bad : Stop → Prop} {funded : Prop} {r : RunResult} (h : w.db.Consistent)
  (hr : RunPost w.marked gas funded r)

include h hr

theorem failed_post {err : VmError} {ret : List UInt8}
    (hcheck : checkTokenIDQueried env r.err r.contract scope.transferTokenID = some err) :
    Post (r.world.revertTo w.mark >>= fun w =>
        (pure { ret, leftOverGas := if err = .executionReverted then r.contract.gas else 0,
                err := some err, world := w } : Exec CallResult))
      (CallPost w gas funded) Bad := by
  refine (post_revertTo h hr.above).bind fun w' hw' => ⟨hw', ?_, fun hf => ?_⟩
  · show (if err = .executionReverted then r.contract.gas else 0) ≤ gas
    split_ifs
    · exact hr.gas
    · exact Nat.zero_le _
  · exact hcheck ▸ checkTokenIDQueried_ne (hr.err hf)

theorem finish_post : Post (finish env scope w.mark r) (CallPost w gas funded) Bad := by
  unfold finish
  cases hcheck : checkTokenIDQueried env r.err r.contract scope.transferTokenID with
  | none => exact ⟨(w.above_marked h).trans hr.above, hr.gas, nofun⟩
  | some err => exact failed_post h hr hcheck

theorem finishCreate_post {address : Recipient} :
    Post (finishCreate env scope w.mark address r) (CallPost w gas funded) Bad := by
  have hkeep := (w.above_marked h).trans hr.above
  have hback := post_revertTo (Q := Bad) h hr.above
  unfold finishCreate
  dsimp only
  cases hcheck : checkTokenIDQueried env r.err r.contract scope.transferTokenID with
  | none =>
    dsimp only
    split_ifs
    · exact hback.bind fun w' hw' => ⟨hw', Nat.zero_le _, nofun⟩
    cases hgas : r.contract.useGas (r.ret.length * 200) with
    | none => exact hback.bind fun w' hw' => ⟨hw', Nat.zero_le _, nofun⟩
    | some c =>
      have hc := Contract.gas_useGas hgas
      have hle := hr.gas
      exact ⟨hkeep.trans (above_setCode hkeep.consistent),
        show c.gas ≤ gas by omega, nofun⟩
  | some err => exact failed_post h hr hcheck

end

end QuarkChain.Vm
