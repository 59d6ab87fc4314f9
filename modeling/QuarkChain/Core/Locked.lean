/-
# What the PoSW rules keep in an account

The movements of value of a whole transaction (`ApplyTransaction`, `src/core/state_processor.go`), or of a
deposit from another shard (`ApplyCrossShardDeposit`): the value that `AddCrossShardTxDeposit`
(`src/core/state_transition.go`) takes off the sender, and all that the call trees move.  Gas that is bought,
refunded or exchanged is not a movement of value.

`paid`, `Message.request` and `enterCrossShard` cut `TransitionDb` where value is about to move; the
equations next to them put it together again.
-/
import QuarkChain.Core.Deposit
import QuarkChain.Vm.Locked

namespace QuarkChain.Core

open QuarkChain.Types State Vm Outcome

section

variable (env : Env) (m : Machine) (cfg : ChainConfig) (ctx : Context) (msg : Message)

/-- `TransitionDb` until the gas is paid for: a result at once, or the transition and the gas that it takes
off first. -/
def paid (gp : ℕ) (w : World) : Exec (TransitionResult ⊕ StateTransition × ℕ) :=
  let st : StateTransition := { gp, gas := 0, initialGas := 0, world := w }
  if ctx.isApplyXShard then .ok (.inr (preFill ctx msg st, ctx.xShardGasUsedStart))
  else do
    let (err, st) ← preCheck ctx msg st
    match err with
    | some err => pure (.inl (st.fail err))
    | none =>
        match intrinsicGas msg.data msg.to.isNone msg.isCrossShard with
        | none => pure (.inl (st.fail .outOfGas))
        | some gas => pure (.inr (st, gas))

/-- The call function that a message asks for; a locked sender is stopped here. -/
def Message.request (st : StateTransition) : World ⊕ Request :=
  if msg.to.isNone || ctx.contractAddress.isSome then
    match ctx.contractAddress with
    | some address => .inr (.create ctx.scope msg.from msg.data st.gas msg.value address st.world)
    | none =>
        let (nonce, db) := st.world.db.getNonce msg.from
        .inr (.create ctx.scope msg.from msg.data st.gas msg.value
          (env.createAddress msg.from ctx.toFullShardKey nonce) { st.world with db })
  else
    let world := if ctx.isApplyXShard then st.world else countNonce msg st.world
    let (locked, world) := transferFailureByPoSWBalanceCheck cfg msg world
    if locked then .inl world
    else .inr (.call ctx.scope msg.from (msg.to.getD 0) msg.data st.gas msg.value world)

/-- `AddCrossShardTxDeposit` until the value is taken off. -/
def enterCrossShard (st : StateTransition) : Exec (TransitionResult ⊕ World) :=
  let (can, world) := canTransfer st.world msg.from msg.value msg.transferTokenID
  if !can then .ok (.inl ({ st with world }.fail .insufficientBalance))
  else
    let (failed, world) := transferFailureByPoSWBalanceCheck cfg msg world
    if failed then .ok (.inl (settleCrossShard cfg ctx msg { st with gas := 0, world } 0 true))
    else do
      let w ← world.lift (world.db.subBalance msg.from msg.value msg.transferTokenID)
      pure (.inr w)

/-- The deposit that is left once the value is taken off, and the gas reserved for it. -/
def leaveDeposit (intrinsicGas : ℕ) (w : World) : ℕ × World :=
  match msg.to with
  | none =>
      let remoteGasReserved := sub64 msg.gas.toNat intrinsicGas
      let (nonce, db) := w.db.getNonce msg.from
      let recipient := m.createAddress msg.from (some msg.fromFullShardKey) nonce
      let deposit := crossShardDeposit cfg msg recipient remoteGasReserved true
      (remoteGasReserved, { w with db := db.appendXShardList deposit })
  | some recipient =>
      let remoteGasReserved :=
        if cfg.enableEvmTimeStamp ≤ w.db.block.timeStamp then sub64 msg.gas.toNat intrinsicGas else 0
      let deposit := crossShardDeposit cfg msg recipient remoteGasReserved false
      (remoteGasReserved, { w with db := w.db.appendXShardList deposit })

variable {env m cfg ctx msg}

theorem transitionDb_eq_paid {gp : ℕ} {w : World} : transitionDb m cfg ctx msg gp w =
      paid ctx msg gp w >>= fun
        | .inl t => .ok t
        | .inr (st, gas) => transitionFrom m cfg ctx msg st gas := by
  unfold transitionDb paid
  dsimp only
  split_ifs
  · rfl
  rcases preCheck ctx msg { gp, gas := 0, initialGas := 0, world := w } with e | checked
  · rfl
  obtain ⟨err, st⟩ := checked
  cases err with
  | some err => rfl
  | none =>
    show (match intrinsicGas msg.data msg.to.isNone msg.isCrossShard with
      | none => _ | some gas => _) = _
    cases intrinsicGas msg.data msg.to.isNone msg.isCrossShard with
    | none => rfl
    | some gas => rfl

theorem addCrossShardTxDeposit_eq_enter {st : StateTransition} {intrinsicGas : ℕ} :
    addCrossShardTxDeposit m cfg ctx msg st intrinsicGas = enterCrossShard cfg ctx msg st >>= fun
        | .inl t => .ok t
        | .inr w => let (reserved, world) := leaveDeposit m cfg msg intrinsicGas w
            .ok (settleCrossShard cfg ctx msg { st with world } reserved false) := by
  unfold addCrossShardTxDeposit enterCrossShard
  generalize canTransfer st.world msg.from msg.value msg.transferTokenID = read
  obtain ⟨can, w₁⟩ := read
  dsimp only
  by_cases hfunds : (!can) = true
  · rw [if_pos hfunds, if_pos hfunds]
    rfl
  rw [if_neg hfunds, if_neg hfunds]
  generalize transferFailureByPoSWBalanceCheck cfg msg w₁ = lock
  obtain ⟨locked, w₂⟩ := lock
  cases locked with
  | true => rfl
  | false =>
    dsimp only
    unfold depositValue leaveDeposit
    rcases w₂.lift (w₂.db.subBalance msg.from msg.value msg.transferTokenID) with e | w₃
    · rfl
    cases msg.to with
    | none => rfl
    | some recipient => rfl

end

/-- A message that is applied in `w` moves value this way. -/
inductive Message.Moves (env : Env) (cfg : ChainConfig) (ctx : Context) (msg : Message) (gp : ℕ)
    (w : World) : Movement → Prop
  | crossShard {st : StateTransition} {gas : ℕ} {after : World}
      (hpaid : paid ctx msg gp w = .ok (.inr (st, gas))) (hgas : gas ≤ st.gas)
      (hcross : msg.isCrossShard = true)
      (h : enterCrossShard cfg ctx msg
        { st with gas := st.gas - gas, world := countNonce msg st.world } = .ok (.inr after)) :
      Message.Moves env cfg ctx msg gp w ⟨.crossShard, msg.from, after⟩
  | execute {st : StateTransition} {gas : ℕ} {q : Request} {μ : Movement}
      (hpaid : paid ctx msg gp w = .ok (.inr (st, gas))) (hgas : gas ≤ st.gas)
      (hlocal : msg.isCrossShard = false)
      (hq : msg.request env cfg ctx { st with gas := st.gas - gas } = .inr q)
      (h : q.Moves env ctx (need 0) μ) : Message.Moves env cfg ctx msg gp w μ

/-- The call of the native-token manager that exchanges gas (`PayNativeTokenAsGas`). -/
def payAsGasRequest (tx : EvmTransaction) (w : World) : Request :=
  .call (managerContext w.db.block.blockNumber).scope generalNativeToken generalNativeToken
    ([0x5a, 0xe8, 0xf7, 0xf1] ++ toBytes 32 tx.gasTokenID ++ toBytes 32 tx.gas.toNat ++
      toBytes 32 tx.gasPrice) 1000000 0 { w with db := (w.db.getCode generalNativeToken).2 }

/-- A transaction that is applied in `w` moves value this way. -/
inductive EvmTransaction.Moves (env : Env) (cfg : ChainConfig) (header : Header) (gp : ℕ)
    (tx : EvmTransaction) (w : World) : Movement → Prop
  | exchange {μ : Movement} (htoken : tx.gasTokenID ≠ cfg.defaultChainTokenID)
      (hrange : ¬(tokenIDMax < tx.gasTokenID ∨ uint128Max < tx.gasPrice))
      (hcode : (w.db.getCode generalNativeToken).1.isEmpty = false)
      (h : (payAsGasRequest tx w).Moves env (managerContext w.db.block.blockNumber) (need 0) μ) :
      EvmTransaction.Moves env cfg header gp tx w μ
  | message {price refundRate : ℕ} {w' : World} {sender : Recipient} {μ : Movement}
      (hswap : swapGas (machine env) cfg tx w = .ok (.ok (price, refundRate), w'))
      (hsender : tx.sender tx.networkId = some sender)
      (h : (tx.asMessage sender price refundRate).Moves env cfg
        (newEVMContext (tx.asMessage sender price refundRate) header tx.gasPrice) gp
        { w' with db := w'.db.setFullShardKey tx.toFullShardKey } μ) :
      EvmTransaction.Moves env cfg header gp tx w μ

/-- A deposit that is applied in `w` moves value this way. -/
def DepositMoves (env : Env) (cfg : ChainConfig) (header : Header) (tx : CrossShardTransactionDeposit)
    (checkIsFromRootChain : Bool) (txIndex : ℕ) (w : World) (μ : Movement) : Prop :=
  cfg.enableEvmTimeStamp ≤ w.db.block.timeStamp ∧
    (depositMessage tx).Moves env cfg (depositContext header tx (gasUsedStart tx checkIsFromRootChain))
      ((depositState header tx txIndex w.db).block.gasLimit % 2 ^ 64)
      { w with db := depositState header tx txIndex w.db } μ

/-! ### The rules of the block stay -/

variable {env : Env} {cfg : ChainConfig} {ctx : Context} {msg : Message} {w w' : World} {gp : ℕ}
  {μ : Movement}

variable {st : StateTransition}

theorem sameBlock_buyGas :
    Post (buyGas ctx msg st) (fun r => SameBlock st.world r.2.world) fun _ => True := by
  unfold buyGas
  have hread : SameBlock st.world
      { st.world with db := (st.world.db.getBalance msg.from ctx.gasTokenID).2 } :=
    sameBlock_getBalance ..
  generalize st.world.db.getBalance msg.from ctx.gasTokenID = read at hread ⊢
  obtain ⟨balance, db⟩ := read
  dsimp only at hread ⊢
  split_ifs
  · exact hread
  · exact hread
  cases hsub : World.lift { st.world with db }
      (db.subBalance msg.from (msg.gas.toNat * ctx.gasPriceInGasToken) ctx.gasTokenID) with
  | error e => exact trivial
  | ok w₁ => exact (sameBlock_subBalance (w := { st.world with db }) hsub).trans hread

theorem sameBlock_preCheck :
    Post (preCheck ctx msg st) (fun r => SameBlock st.world r.2.world) fun _ => True := by
  unfold preCheck
  have hread : SameBlock st.world { st.world with db := (st.world.db.getNonce msg.from).2 } :=
    sameBlock_getNonce ..
  split_ifs with hcheck
  · dsimp only
    split_ifs
    · exact hread
    · exact hread
    · exact sameBlock_buyGas.imp fun r hr => hr.trans hread
  · exact sameBlock_buyGas

theorem sameBlock_paid {gas : ℕ}
    (h : paid ctx msg gp w = .ok (.inr (st, gas))) : SameBlock w st.world := by
  unfold paid at h
  dsimp only at h
  split_ifs at h
  · cases h
    rfl
  obtain ⟨⟨err, st₁⟩, hcheck, h⟩ := bind_eq_ok.mp h
  have hblock := sameBlock_preCheck.of_ok hcheck
  dsimp only at h hblock
  cases err with
  | some err => cases h
  | none =>
    dsimp only at h
    cases hg : intrinsicGas msg.data msg.to.isNone msg.isCrossShard with
    | none =>
      rw [hg] at h
      cases h
    | some gas' =>
      rw [hg] at h
      cases h
      exact hblock

theorem sameBlock_countNonce : SameBlock w (countNonce msg w) :=
  .of_changes ((StateDB.getOrNewStateObject_changes w.db msg.from).trans
    (StateDB.setNonce_changes _ msg.from _))

theorem sameBlock_poSWCheck : SameBlock w (transferFailureByPoSWBalanceCheck cfg msg w).2 := by
  unfold transferFailureByPoSWBalanceCheck
  cases w.db.block.senderDisallowMap msg.from with
  | none => rfl
  | some v => exact sameBlock_getBalance ..

theorem sameBlock_request {q : Request}
    (h : msg.request env cfg ctx st = .inr q) : SameBlock st.world q.world := by
  unfold Message.request at h
  by_cases hcreate : (msg.to.isNone || ctx.contractAddress.isSome) = true
  · rw [if_pos hcreate] at h
    cases hc : ctx.contractAddress with
    | some address =>
      rw [hc] at h
      cases h
      rfl
    | none =>
      rw [hc] at h
      cases h
      exact sameBlock_getNonce ..
  · rw [if_neg hcreate] at h
    dsimp only at h
    have hnonce : SameBlock st.world
        (if ctx.isApplyXShard = true then st.world else countNonce msg st.world) := by
      split_ifs
      · rfl
      · exact sameBlock_countNonce
    generalize (if ctx.isApplyXShard = true then st.world else countNonce msg st.world) = w₁
      at h hnonce
    split_ifs at h
    cases h
    exact sameBlock_poSWCheck.trans hnonce

theorem sameBlock_call {caller addr : Recipient} {input : List UInt8} {gas value : ℕ} :
    Post ((machine env).call ctx caller addr input gas value w) (fun r => SameBlock w r.world)
      fun _ => True :=
  (steps_sameBlock env).exec (need 0) (.call ctx.scope caller addr input gas value w)

theorem sameBlock_payNativeTokenAsGas {tokenID : TokenID} {gas : UInt64} {price : ℕ} :
    Post (payNativeTokenAsGas (machine env) tokenID gas price w) (fun r => SameBlock w r.2)
      fun _ => True := by
  unfold payNativeTokenAsGas callGeneralNativeTokenManager
  split_ifs
  · rfl
  have hcode := sameBlock_getStateObject w generalNativeToken
  dsimp only
  split_ifs
  · exact hcode
  refine sameBlock_call.bind fun r hr => ?_
  have hworld : SameBlock w r.world := hr.trans hcode
  cases r.err with
  | some err => exact hworld
  | none =>
    dsimp only
    split_ifs
    · exact trivial
    · exact hworld

theorem sameBlock_swapGas {tx : EvmTransaction} :
    Post (swapGas (machine env) cfg tx w) (fun r => SameBlock w r.2) fun _ => True := by
  unfold swapGas
  split_ifs
  · rfl
  refine sameBlock_payNativeTokenAsGas.bind fun r hr => ?_
  obtain ⟨conversion, w₁⟩ := r
  rcases conversion with e | quoted
  · exact hr
  obtain ⟨refundRate, price⟩ := quoted
  dsimp only at hr ⊢
  by_cases hprice : price = 0
  · rw [if_pos hprice]
    exact hr
  rw [if_neg hprice]
  have hread : SameBlock w
      { w₁ with db := (w₁.db.getBalance generalNativeToken cfg.defaultChainTokenID).2 } :=
    (sameBlock_getBalance w₁ generalNativeToken cfg.defaultChainTokenID).trans hr
  generalize w₁.db.getBalance generalNativeToken cfg.defaultChainTokenID = read at hread ⊢
  obtain ⟨contractBal, db⟩ := read
  dsimp only at hread ⊢
  split_ifs
  · exact hread
  cases hsub : World.lift { w₁ with db }
      (db.subBalance generalNativeToken (tx.gas.toNat * price) cfg.defaultChainTokenID) with
  | error e => exact trivial
  | ok w₂ =>
    have hw₂ := (sameBlock_subBalance (w := { w₁ with db }) hsub).trans hread
    exact (sameBlock_addBalance w₂ _ _ _).trans hw₂

theorem sameBlock_depositState {header : Header} {tx : CrossShardTransactionDeposit} {txIndex : ℕ} :
    SameBlock w { w with db := depositState header tx txIndex w.db } :=
  sameBlock_addBalance { w with db := w.db.setFullShardKey tx.to.fullShardKey } tx.from.recipient
    tx.value tx.transferTokenID

theorem enterCrossShard_leaves {after : World} {locked : ℕ}
    (h : enterCrossShard cfg ctx msg st = .ok (.inr after))
    (hlock : st.world.db.block.senderDisallowMap msg.from = some locked) :
    locked ≤ after.db.balanceOf msg.from cfg.defaultChainTokenID := by
  unfold enterCrossShard at h
  have hcan : SameBlock st.world (canTransfer st.world msg.from msg.value msg.transferTokenID).2 :=
    sameBlock_getBalance ..
  generalize canTransfer st.world msg.from msg.value msg.transferTokenID = read at h hcan
  obtain ⟨can, w₁⟩ := read
  dsimp only at h hcan
  split_ifs at h with hfunds hposw
  · cases h
  · cases h
  obtain ⟨w₂, hsub, h⟩ := bind_eq_ok.mp h
  cases h
  rw [← show w₁.db.block = st.world.db.block from hcan] at hlock
  unfold transferFailureByPoSWBalanceCheck at hsub hposw
  rw [hlock] at hsub hposw
  dsimp only at hsub hposw
  have hheld := Nat.not_lt.mp fun hlt => hposw (decide_eq_true hlt)
  have hbalance : (w₁.db.getBalance msg.from cfg.defaultChainTokenID).1 =
      w₁.db.balanceOf msg.from cfg.defaultChainTokenID := StateDB.getBalance_fst ..
  rw [hbalance] at hheld
  cases hdb : (w₁.db.getBalance msg.from cfg.defaultChainTokenID).2.subBalance msg.from msg.value
      msg.transferTokenID with
  | error e =>
    rw [hdb] at hsub
    cases hsub
  | ok db =>
    rw [hdb] at hsub
    cases hsub
    have htaken : db.balanceOf msg.from cfg.defaultChainTokenID +
        (if msg.from = msg.from ∧ cfg.defaultChainTokenID = msg.transferTokenID then msg.value
          else 0) = _ := StateDB.balanceOf_subBalance hdb
    rw [StateDB.balanceOf_getBalance] at htaken
    show locked ≤ db.balanceOf msg.from cfg.defaultChainTokenID
    split_ifs at htaken <;> omega

theorem Message.Moves.leaves_iff {locked : ℕ} (h : msg.Moves env cfg ctx gp w μ)
    (htoken : env.defaultChainTokenID = cfg.defaultChainTokenID)
    (hlock : w.db.block.senderDisallowMap μ.account = some locked) :
    locked ≤ μ.after.db.balanceOf μ.account cfg.defaultChainTokenID ↔
      (μ.means = .selfdestruct → locked = 0) := by
  cases h with
  | @crossShard st gas after hpaid hgas hcross h =>
    refine iff_of_true (enterCrossShard_leaves h ?_) nofun
    have hblock : SameBlock w (countNonce msg st.world) := sameBlock_countNonce.trans (sameBlock_paid hpaid)
    show (countNonce msg st.world).db.block.senderDisallowMap msg.from = some locked
    rw [hblock]
    exact hlock
  | @execute st gas q μ hpaid hgas hlocal hq h =>
    rw [← htoken]
    refine h.leaves_iff ?_
    have hpay := sameBlock_paid hpaid
    have hstart := sameBlock_request hq
    have hblock : SameBlock w q.world := Eq.trans hstart hpay
    rw [hblock]
    exact hlock

/-- **A value movement out of a locked account leaves the locked amount exactly if it is not a
`SELFDESTRUCT`,** whatever transaction or deposit is applied. -/
theorem movement_leaves_locked_iff (env : Env) (cfg : ChainConfig) (w : World) (μ : Movement)
    (locked : ℕ) (htoken : env.defaultChainTokenID = cfg.defaultChainTokenID)
    (hlock : w.db.block.senderDisallowMap μ.account = some locked)
    (hmoves : (∃ header gp tx, EvmTransaction.Moves env cfg header gp tx w μ) ∨
      ∃ header tx checkIsFromRootChain txIndex,
        DepositMoves env cfg header tx checkIsFromRootChain txIndex w μ) :
    locked ≤ μ.after.db.balanceOf μ.account cfg.defaultChainTokenID ↔
      (μ.means = .selfdestruct → locked = 0) := by
  obtain ⟨header, gp, tx, h⟩ | ⟨header, tx, checkIsFromRootChain, txIndex, -, h⟩ := hmoves
  · cases h with
    | exchange hgas hrange hcode h =>
      rw [← htoken]
      refine h.leaves_iff ?_
      have hread : SameBlock w (payAsGasRequest tx w).world := sameBlock_getStateObject ..
      rw [hread]
      exact hlock
    | @message price refundRate w' sender μ hswap hsender h =>
      refine h.leaves_iff htoken ?_
      have hblock : SameBlock w w' := sameBlock_swapGas.of_ok hswap
      show w'.db.block.senderDisallowMap _ = _
      rw [hblock]
      exact hlock
  · refine h.leaves_iff htoken ?_
    have hblock : SameBlock w { w with db := depositState header tx txIndex w.db } := sameBlock_depositState
    rw [hblock]
    exact hlock

/-! ### A locked contract that destroys itself -/

/-- The movements at the outset of a message to this shard. -/
def Message.outset (env : Env) (cfg : ChainConfig) (ctx : Context) (msg : Message) (gp : ℕ)
    (w : World) : List Movement :=
  match paid ctx msg gp w with
  | .ok (.inr (st, gas)) =>
      if gas ≤ st.gas ∧ msg.isCrossShard = false then
        match msg.request env cfg ctx { st with gas := st.gas - gas } with
        | .inr q => q.outset env ctx
        | .inl _ => []
      else []
  | _ => []

theorem Message.moves_of_mem_outset (h : μ ∈ msg.outset env cfg ctx gp w) : msg.Moves env cfg ctx gp w μ := by
  unfold Message.outset at h
  split at h
  · rename_i st gas hpaid
    split_ifs at h with hlocal
    · split at h
      · rename_i q hq
        exact .execute hpaid hlocal.1 hlocal.2 hq (Request.moves_of_mem_outset (n := 3075) h)
      · cases h
    · cases h
  · cases h

def destructiveEnv : Env := { sampleEnv with interp := fun _ _ _ => .selfdestruct 90 }

def lockedWorld : World where
  db := .new
    (fun a =>
      if a = 70 ∨ a = 80 then
        some
          { nonce := 1, tokens := .list (Finmap.singleton 0 100), storage := fun _ => 0,
            code := if a = 70 then [0] else [], fullShardKey := 0 }
      else none)
    { gasLimit := 200000, blockCoinbase := 9, timeStamp := 1, blockNumber := 1,
      senderDisallowMap := fun a => if a = 70 ∨ a = 80 then some 50 else none }

def lockedHeader : Header := { hash := 30, coinbase := 9, number := 1, time := 1 }

def freeTransaction (sender recipient : Recipient) (nonce value : ℕ) : EvmTransaction :=
  { (default : EvmTransaction) with
    hash := 20, nonce := nonce, gas := 60000, «to» := some recipient, value := value, networkId := 1
    sender := fun _ => some sender }

def freeOutset (sender recipient : Recipient) (nonce value : ℕ) : List Movement :=
  let msg := (freeTransaction sender recipient nonce value).asMessage sender 0 100
  msg.outset destructiveEnv (sampleConfig 0) (newEVMContext msg lockedHeader 0) 200000 lockedWorld

theorem moves_of_mem_freeOutset {sender recipient : Recipient} {nonce value : ℕ}
    (h : μ ∈ freeOutset sender recipient nonce value) :
    (freeTransaction sender recipient nonce value).Moves destructiveEnv (sampleConfig 0) lockedHeader
      200000 lockedWorld μ :=
  .message rfl rfl (Message.moves_of_mem_outset h)

theorem transfer_keeps_locked :
    ∃ μ : Movement, (freeTransaction 80 90 1 30).Moves destructiveEnv (sampleConfig 0) lockedHeader 200000
        lockedWorld μ ∧
      μ.account = 80 ∧
      (50 ≤ μ.after.db.balanceOf μ.account (sampleConfig 0).defaultChainTokenID ↔
        (μ.means = .selfdestruct → 50 = 0)) := by
  have htest : (freeOutset 80 90 1 30).any (fun μ => μ.account == 80) = true := by decide +kernel
  obtain ⟨μ, hmem, haccount⟩ := List.any_eq_true.mp htest
  have haccount := eq_of_beq haccount
  have hmoves := moves_of_mem_freeOutset hmem
  refine ⟨μ, hmoves, haccount, ?_⟩
  refine movement_leaves_locked_iff destructiveEnv (sampleConfig 0) lockedWorld μ 50 rfl ?_
    (.inl ⟨_, _, _, hmoves⟩)
  rw [haccount]
  rfl

/-- **A locked contract is emptied:** somebody calls contract `70`, which destroys itself. -/
theorem selfdestruct_empties_locked :
    ∃ μ : Movement, (freeTransaction 17 70 0 0).Moves destructiveEnv (sampleConfig 0) lockedHeader 200000
        lockedWorld μ ∧
      lockedWorld.db.block.senderDisallowMap μ.account = some 50 ∧
      ¬50 ≤ μ.after.db.balanceOf μ.account (sampleConfig 0).defaultChainTokenID := by
  have htest : (freeOutset 17 70 0 0).any (fun μ => μ.account == 70 &&
      decide (μ.after.db.balanceOf 70 0 < 50)) = true := by decide +kernel
  obtain ⟨μ, hmem, hμ⟩ := List.any_eq_true.mp htest
  obtain ⟨haccount, hlow⟩ := Bool.and_eq_true_iff.mp hμ
  have haccount := eq_of_beq haccount
  refine ⟨μ, moves_of_mem_freeOutset hmem, ?_, ?_⟩
  · rw [haccount]
    rfl
  · rw [haccount]
    exact Nat.not_le.mpr (of_decide_eq_true hlow)

end QuarkChain.Core
