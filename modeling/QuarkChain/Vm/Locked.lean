/-
# Locked balances

The PoSW rules of a block keep part of a balance in the account (`SetSenderDisallowMap`,
`src/core/state/statedb.go`).  `Call`, `CallCode` and `create` of `src/core/vm/evm.go` ask
`TransferFailureByPoswBalanceCheck` before value moves, and nothing takes from the balance in between.
`opSuicide` (`src/core/vm/instructions.go`) does not ask: it hands over all of the default token.
-/
import QuarkChain.State.Holding
import QuarkChain.Vm.Mint

namespace QuarkChain.Vm

open QuarkChain.Types
open State StateDB
open Outcome

variable {env : Env} {ctx : Context} {scope : Scope} {w w' : World} {input : List UInt8}
  {caller addr : Recipient} {gas value amount : ℕ}

def SameBlock (w w' : World) : Prop := w'.db.block = w.db.block

theorem SameBlock.of_changes {db : StateDB} (h : StateDB.Changes anyTolerance w.db db) :
    SameBlock w { w with db } :=
  congrArg Prod.fst h.context

theorem sameBlock_getStateObject (w : World) (a : Recipient) :
    SameBlock w { w with db := (w.db.getStateObject a).2 } :=
  .of_changes (getStateObject_changes w.db a)

theorem sameBlock_getBalance (w : World) (a : Recipient) (tokenID : TokenID) :
    SameBlock w { w with db := (w.db.getBalance a tokenID).2 } :=
  .of_changes (getBalance_changes w.db a tokenID)

theorem sameBlock_getNonce (w : World) (a : Recipient) : SameBlock w { w with db := (w.db.getNonce a).2 } :=
  .of_changes (getOrNewStateObject_changes w.db a)

theorem sameBlock_addBalance (w : World) (a : Recipient) (amount : ℕ) (tokenID : TokenID) :
    SameBlock w { w with db := w.db.addBalance a amount tokenID } :=
  .of_changes (addBalance_changes (fun _ o _ => detachable_any a o) fun _ _ => trivial)

variable {tokenID : TokenID}

theorem sameBlock_subBalance {a : Recipient}
    (h : w.lift (w.db.subBalance a amount tokenID) = .ok w') : SameBlock w w' := by
  cases hdb : w.db.subBalance a amount tokenID with
  | error e =>
    rw [hdb] at h
    cases h
  | ok db =>
    rw [hdb] at h
    cases h
    exact .of_changes (subBalance_changes (fun _ o _ => detachable_any a o) hdb)

variable {recipient : Recipient} {code : List UInt8} {locked : ℕ} {w₁ : World} {f : Frame}

theorem sameBlock_transfer {sender : Recipient}
    (h : transfer w sender recipient amount tokenID = .ok w') : SameBlock w w' := by
  obtain ⟨w₁, hsub, hadd⟩ := bind_eq_ok.mp h
  cases hadd
  exact (sameBlock_addBalance w₁ recipient amount tokenID).trans (sameBlock_subBalance hsub)

theorem sameBlock_opSuicide (env : Env) (w : World) (self beneficiary : Recipient) :
    SameBlock w (opSuicide env w self beneficiary) := by
  refine .of_changes ((getBalance_changes w.db self env.defaultChainTokenID).trans ?_)
  refine StateDB.Changes.trans ?_ (suicide_changes fun o _ => detachable_any self o)
  exact addBalance_changes (fun _ o _ => detachable_any beneficiary o) fun _ _ => trivial

theorem sameBlock_revertTo {mark : Mark} (h : w.revertTo mark = .ok w') : SameBlock w w' := by
  unfold World.revertTo at h
  cases hdb : w.db.revertToSnapshot mark.snapshot with
  | error e =>
    rw [hdb] at h
    cases h
  | ok db =>
    rw [hdb] at h
    cases h
    exact block_revertToSnapshot hdb

/-- **No step of a call tree changes the rules of the block.** -/
theorem steps_sameBlock (env : Env) : Steps env .all fun _ => SameBlock where
  refl _ := rfl
  trans h h' := h'.trans h
  mono _ h := h
  load := sameBlock_getStateObject
  getBalance := sameBlock_getBalance
  getNonce := sameBlock_getNonce
  setNonce w a nonce := .of_changes (setNonce_changes w.db a nonce)
  setCode w a code := .of_changes (setCode_changes w.db a code)
  setState w a key value := .of_changes (setState_changes w.db a key value)
  addRefund w gas := .of_changes (addRefund_changes w.db gas)
  addLog w log := .of_changes (addLog_changes w.db log)
  createAccount w a := .of_changes (createAccount_changes w.db a)
  touch w a := sameBlock_addBalance w a 0 _
  transfer := sameBlock_transfer
  mint := sameBlock_addBalance
  selfdestruct := sameBlock_opSuicide env
  mark _ := rfl
  revert h hback := (sameBlock_revertTo hback).trans h

theorem sameBlock_posw : SameBlock w (transferFailureByPoswBalanceCheck env w caller value).2 := by
  unfold transferFailureByPoswBalanceCheck
  cases w.db.block.senderDisallowMap caller with
  | none => rfl
  | some v => exact sameBlock_getBalance ..

theorem posw_passes (hlock : w.db.block.senderDisallowMap caller = some locked)
    (h : (transferFailureByPoswBalanceCheck env w caller value).1 = false) : value + locked ≤
      (transferFailureByPoswBalanceCheck env w caller value).2.db.cachedOf caller
        env.defaultChainTokenID := by
  unfold transferFailureByPoswBalanceCheck at h ⊢
  rw [hlock] at h ⊢
  dsimp only at h ⊢
  have hle := Nat.not_lt.mp (of_decide_eq_false h)
  exact Nat.le_trans hle getBalance_fst_le_cachedOf

theorem transfer_leaves {sender : Recipient} {tokenID t : TokenID}
    (h : transfer w sender recipient amount tokenID = .ok w')
    (hle : amount + locked ≤ w.db.balanceOf sender t) : locked ≤ w'.db.balanceOf sender t := by
  obtain ⟨db, hdb, rfl⟩ := transfer_eq_ok.mp h
  have htaken : db.balanceOf sender t + (if sender = sender ∧ t = tokenID then amount else 0) =
      w.db.balanceOf sender t := balanceOf_subBalance hdb
  dsimp only
  rw [balanceOf_addBalance]
  split_ifs at htaken <;> omega

/-- **`SELFDESTRUCT` leaves nothing.** -/
theorem balanceOf_opSuicide (env : Env) (w : World) (self beneficiary : Recipient) (t : TokenID) :
    (opSuicide env w self beneficiary).db.balanceOf self t = 0 :=
  balanceOf_suicide.trans (if_pos rfl)

/-! ### Entering a call function -/

/-- What the frame of a request at `w` was given leaves the locked amount with the account that gave
it. -/
def Frame.Leaves (env : Env) (w : World) (f : Frame) : Prop :=
  ∀ μ, f.moved = some μ → μ.means ≠ .selfdestruct ∧
    ∀ locked, w.db.block.senderDisallowMap μ.account = some locked →
      locked ≤ μ.after.db.balanceOf μ.account env.defaultChainTokenID

def EntryLeaves (env : Env) (w : World) : CallResult ⊕ Frame → Prop
  | .inl _ => True
  | .inr f => f.Leaves env w

theorem Frame.Leaves.of_moved {means : Means} {after : World}
    (hmoved : f.moved = some ⟨means, caller, after⟩) (hmeans : means ≠ .selfdestruct)
    (h : ∀ locked, w.db.block.senderDisallowMap caller = some locked →
      locked ≤ after.db.balanceOf caller env.defaultChainTokenID) : f.Leaves env w := by
  intro μ hμ
  rw [hmoved] at hμ
  cases hμ
  exact ⟨hmeans, h⟩

theorem enterChecked_leaves {k : World → Entry} (hk : ∀ w', SameBlock w w' →
      (∀ locked, w.db.block.senderDisallowMap caller = some locked →
        value + locked ≤ w'.db.cachedOf caller env.defaultChainTokenID) →
      Post (k w') (EntryLeaves env w) fun _ => True) :
    Post (enterChecked env w caller gas value tokenID k) (EntryLeaves env w) fun _ => True := by
  unfold enterChecked
  have hcan : SameBlock w (canTransfer w caller value tokenID).2 := sameBlock_getBalance w caller tokenID
  generalize canTransfer w caller value tokenID = read at hcan ⊢
  obtain ⟨can, w₁⟩ := read
  dsimp only at hcan ⊢
  by_cases hfunds : (!can) = true
  · rw [if_pos hfunds]
    exact trivial
  rw [if_neg hfunds]
  cases hposw : (transferFailureByPoswBalanceCheck env w₁ caller value).1 with
  | true => exact trivial
  | false =>
    refine hk _ (sameBlock_posw.trans hcan) fun locked hlock => ?_
    refine posw_passes ?_ hposw
    rw [hcan]
    exact hlock

theorem transfer_entry_leaves (means : Means) {k : World → Frame} (hmeans : means ≠ .selfdestruct)
    (hmoved : ∀ w₂, (k w₂).moved = some ⟨means, caller, w₂⟩)
    (hheld : ∀ locked, w.db.block.senderDisallowMap caller = some locked →
      value + locked ≤ w₁.db.cachedOf caller env.defaultChainTokenID) :
    Post (transfer w₁ caller recipient value tokenID >>= fun w₂ => pure (.inr (k w₂)))
      (EntryLeaves env w) fun _ => True := by
  rcases htransfer : transfer w₁ caller recipient value tokenID with e | w₂
  · exact trivial
  refine Frame.Leaves.of_moved (hmoved w₂) hmeans fun locked hlock => ?_
  exact transfer_leaves htransfer
    (Nat.le_trans (hheld locked hlock) cachedOf_le_balanceOf)

theorem enterCall_leaves :
    Post (enterCall env scope caller addr input gas value w) (EntryLeaves env w) fun _ => True := by
  unfold enterCall
  split_ifs
  · exact trivial
  refine enterChecked_leaves fun w₁ hw₁ hheld => ?_
  dsimp only
  have hexist : ∀ locked, w.db.block.senderDisallowMap caller = some locked →
      value + locked ≤ (w₁.marked.db.exist addr).2.cachedOf caller env.defaultChainTokenID :=
    fun locked hlock => Nat.le_trans (hheld locked hlock)
      (cachedOf_le_getStateObject (s := w₁.marked.db))
  generalize w₁.marked.db.exist addr = looked at hexist ⊢
  obtain ⟨exist, db⟩ := looked
  dsimp only at hexist ⊢
  by_cases hskip : (!exist && (precompiles addr).isNone && value == 0) = true
  · rw [if_pos hskip]
    exact trivial
  rw [if_neg hskip]
  refine transfer_entry_leaves .call nofun (fun _ => rfl) fun locked hlock => ?_
  dsimp only
  split_ifs
  · exact hexist locked hlock
  · exact Nat.le_trans (hexist locked hlock) cachedOf_le_createAccount

theorem enterCallCode_leaves :
    Post (enterCallCode env scope caller addr input gas value w) (EntryLeaves env w)
      fun _ => True := by
  unfold enterCallCode
  split_ifs
  · exact trivial
  refine enterChecked_leaves fun w₁ hw₁ hheld => ?_
  refine Frame.Leaves.of_moved rfl nofun fun locked hlock => ?_
  exact Nat.le_trans (Nat.le_add_left locked value)
    (Nat.le_trans (hheld locked hlock) cachedOf_le_balanceOf)

theorem Frame.Leaves.of_none (hmoved : f.moved = none) : f.Leaves env w := by
  intro μ hμ
  rw [hmoved] at hμ
  cases hμ

theorem enterDelegateCall_leaves {parent : Contract} :
    Post (enterDelegateCall env scope parent addr input gas w) (EntryLeaves env w)
      fun _ => True := by
  unfold enterDelegateCall
  dsimp only
  split_ifs
  · exact trivial
  · exact trivial
  · exact Frame.Leaves.of_none rfl

theorem enterStaticCall_leaves :
    Post (enterStaticCall env scope caller addr input gas w) (EntryLeaves env w) fun _ => True := by
  unfold enterStaticCall
  dsimp only
  split_ifs
  · exact trivial
  · exact trivial
  · exact Frame.Leaves.of_none rfl

theorem enterCreateFrame_leaves {address : Recipient}
    (hheld : ∀ locked, w.db.block.senderDisallowMap caller = some locked →
      value + locked ≤ w₁.db.cachedOf caller env.defaultChainTokenID) :
    Post (enterCreateFrame env scope caller code gas value address w₁) (EntryLeaves env w)
      fun _ => True := by
  unfold enterCreateFrame
  dsimp only
  refine transfer_entry_leaves .create nofun (fun _ => rfl) fun locked hlock => ?_
  calc value + locked ≤ w₁.marked.db.cachedOf caller env.defaultChainTokenID := hheld locked hlock
    _ ≤ (w₁.marked.db.createAccount address).cachedOf caller env.defaultChainTokenID :=
      cachedOf_le_createAccount
    _ ≤ ((w₁.marked.db.createAccount address).setNonce address 1).cachedOf caller
        env.defaultChainTokenID := cachedOf_le_setNonce

theorem enterCreate_leaves {address : Recipient} :
    Post (enterCreate env ctx scope caller code gas value address w) (EntryLeaves env w)
      fun _ => True := by
  unfold enterCreate
  have hcan : SameBlock w (canTransfer w caller value scope.transferTokenID).2 :=
    sameBlock_getBalance w caller scope.transferTokenID
  generalize canTransfer w caller value scope.transferTokenID = read at hcan ⊢
  obtain ⟨can, w₁⟩ := read
  dsimp only at hcan ⊢
  have hnonce : SameBlock w { w₁ with db := takeNonce ctx w₁.db caller } :=
    ((steps_sameBlock env).takeNonce (P := False) False.elim).trans hcan
  have hread : SameBlock w
      { w₁ with db := (((takeNonce ctx w₁.db caller).getCode address).2.getNonce address).2 } :=
    ((sameBlock_getNonce _ address).trans (sameBlock_getStateObject _ address)).trans hnonce
  generalize ((takeNonce ctx w₁.db caller).getCode address).2.getNonce address = counted
    at hread ⊢
  by_cases hdepth : callCreateDepth < scope.depth
  · rw [if_pos hdepth]
    exact trivial
  rw [if_neg hdepth]
  by_cases hfunds : (!can) = true
  · rw [if_pos hfunds]
    exact trivial
  rw [if_neg hfunds]
  by_cases htoken : scope.transferTokenID ≠ env.defaultChainTokenID
  · rw [if_pos htoken]
    exact trivial
  rw [if_neg htoken]
  by_cases hused : counted.1 ≠ 0 ∨ ((takeNonce ctx w₁.db caller).getCode address).1 ≠ []
  · rw [if_pos hused]
    exact trivial
  rw [if_neg hused]
  cases hposw : (transferFailureByPoswBalanceCheck env { w₁ with db := counted.2 } caller value).1 with
  | true => exact trivial
  | false =>
    refine enterCreateFrame_leaves fun locked hlock => posw_passes ?_ hposw
    show counted.2.block.senderDisallowMap caller = some locked
    rw [show counted.2.block = w.db.block from hread]
    exact hlock

/-- **What a request moves leaves the locked amount.** -/
theorem Request.enter_leaves (q : Request) :
    Post (q.enter env ctx) (EntryLeaves env q.world) fun _ => True := by
  cases q with
  | call scope caller addr input gas value w => exact enterCall_leaves
  | callCode scope caller addr input gas value w => exact enterCallCode_leaves
  | delegateCall scope parent addr input gas w => exact enterDelegateCall_leaves
  | staticCall scope caller addr input gas w => exact enterStaticCall_leaves
  | create scope caller code gas value address w => exact enterCreate_leaves

/-- **A movement of value in a call tree leaves the locked amount exactly if it is not a `SELFDESTRUCT`.** -/
theorem Request.Moves.leaves_iff {fuel : ℕ} {q : Request} {μ : Movement}
    (h : q.Moves env ctx fuel μ)
    (hlock : q.world.db.block.senderDisallowMap μ.account = some locked) :
    locked ≤ μ.after.db.balanceOf μ.account env.defaultChainTokenID ↔
      (μ.means = .selfdestruct → locked = 0) := by
  obtain ⟨n, x, hway, hx⟩ := h
  cases x with
  | request q' => cases hx
  | frame f =>
    -- a frame is only come to by entering a request
    obtain heq | ⟨y, hy, hstep⟩ := Relation.ReflTransGen.cases_tail hway
    · cases heq
    cases hstep with
    | @enter n q' f henter =>
      have hblock := (steps_sameBlock env).along hy
      obtain ⟨hmeans, hleaves⟩ := q'.enter_leaves.of_ok henter μ hx
      refine iff_of_true (hleaves locked ?_) fun hd => absurd hd hmeans
      rw [show q'.world.db.block = q.world.db.block from hblock]
      exact hlock
  | loop scope p c w =>
    unfold Control.movement at hx
    dsimp only at hx
    cases hnext : next env ctx scope p c w with
    | done r =>
      rw [hnext] at hx
      cases hx
    | goto p' c' w' =>
      rw [hnext] at hx
      cases hx
    | spawn q' resume =>
      rw [hnext] at hx
      cases hx
    | destroy c' beneficiary w' =>
      rw [hnext] at hx
      cases hx
      dsimp only
      rw [balanceOf_opSuicide, Nat.le_zero]
      exact ⟨fun hz _ => hz, fun hz => hz rfl⟩

end QuarkChain.Vm
