/-
# What a state transition does to a block

`Proceeds` follows a state through transaction processing: which gas was charged to the block, which
deposits were left for other shards, and that nothing else of the block fields changed but the fees.

None of them panics unless the virtual machine does, except for the gas pool of a deposit, whose gas was bought
on another shard: where the pool may be too small, the lemmas take its panic as one of the ways to stop.
`Settles` compares the gas that a transition reports with the gas it charges.
-/
import QuarkChain.Core.Block
import QuarkChain.State.Balance

namespace QuarkChain.Core

open QuarkChain.Types State StateDB Vm Outcome

/-- Processing went from `w` to `w'`, charged `charged` gas to the block and left the deposits `out`. -/
structure Proceeds (w w' : World) (charged : ℕ) (out : List CrossShardTransactionDeposit) : Prop where
  consistent : w'.db.Consistent
  block : ∃ blockFee, w'.db.block =
    { w.db.block with
      gasUsed := w.db.block.gasUsed + charged
      blockFee
      xShardList := w.db.block.xShardList ++ out }

section

variable {w w' w'' : World} {db : StateDB} {charged charged' : ℕ}
  {out out' : List CrossShardTransactionDeposit}

theorem Proceeds.of_above (h : w.Above w') : Proceeds w w' 0 [] where
  consistent := h.consistent
  block := ⟨w.db.block.blockFee, by rw [h.block, List.append_nil]; rfl⟩

variable (h : Proceeds w w' charged out)
include h

theorem Proceeds.timeStamp : w'.db.block.timeStamp = w.db.block.timeStamp := by
  obtain ⟨fee, hb⟩ := h.block
  rw [hb]

theorem Proceeds.gasLimit : w'.db.block.gasLimit = w.db.block.gasLimit := by
  obtain ⟨fee, hb⟩ := h.block
  rw [hb]

theorem Proceeds.gasUsed : w'.db.block.gasUsed = w.db.block.gasUsed + charged := by
  obtain ⟨fee, hb⟩ := h.block
  rw [hb]

theorem Proceeds.xShardReceiveGasUsed :
    w'.db.block.xShardReceiveGasUsed = w.db.block.xShardReceiveGasUsed := by
  obtain ⟨fee, hb⟩ := h.block
  rw [hb]

theorem Proceeds.xShardList : w'.db.block.xShardList = w.db.block.xShardList ++ out := by
  obtain ⟨fee, hb⟩ := h.block
  rw [hb]

theorem Proceeds.trans (h' : Proceeds w' w'' charged' out') :
    Proceeds w w'' (charged + charged') (out ++ out') := by
  obtain ⟨fee, hb⟩ := h.block
  obtain ⟨fee', hb'⟩ := h'.block
  exact ⟨h'.consistent, fee', by rw [hb', hb, Nat.add_assoc, List.append_assoc]⟩

omit h

theorem Proceeds.after (h : Proceeds w' w'' charged out) (hw : w.Above w') : Proceeds w w'' charged out := by
  simpa using (Proceeds.of_above hw).trans h

theorem Proceeds.before (h : Proceeds w w' charged out) (hw : w'.Above w'') : Proceeds w w'' charged out := by
  simpa using h.trans (.of_above hw)

theorem proceeds_setFullShardKey (h : w.db.Consistent) (fullShardKey : ℕ) :
    Proceeds w { w with db := w.db.setFullShardKey fullShardKey } 0 [] :=
  ⟨h.setFullShardKey fullShardKey, w.db.block.blockFee,
    by rw [List.append_nil]; rfl⟩

theorem proceeds_prepare (h : w.db.Consistent) (thash bhash : Hash) (txIndex : ℕ) :
    Proceeds w { w with db := w.db.prepare thash bhash txIndex } 0 [] :=
  ⟨h.prepare thash bhash txIndex, w.db.block.blockFee,
    by rw [List.append_nil]; rfl⟩

theorem proceeds_addBlockFee (h : w.db.Consistent) (tokenID : TokenID) (fee : ℕ) :
    Proceeds w { w with db := w.db.addBlockFee tokenID fee } 0 [] :=
  ⟨h.addBlockFee tokenID fee, _, by rw [List.append_nil]; rfl⟩

theorem proceeds_addGasUsed (h : w.db.Consistent) (gasUsed : ℕ) :
    Proceeds w { w with db := w.db.addGasUsed gasUsed } gasUsed [] :=
  ⟨h.addGasUsed gasUsed, w.db.block.blockFee,
    by rw [List.append_nil]; rfl⟩

theorem proceeds_appendXShardList (h : w.db.Consistent) (tx : CrossShardTransactionDeposit) :
    Proceeds w { w with db := w.db.appendXShardList tx } 0 [tx] :=
  ⟨h.appendXShardList tx, w.db.block.blockFee, rfl⟩

end

section

variable {m : Machine} {Bad : Stop → Prop} {cfg : ChainConfig} {ctx : Context} {msg : Message}
  {st : StateTransition} {w : World} {db : StateDB}

variable (cfg msg) in
theorem above_refund (h : db.Consistent) (total : ℕ) : StateDB.Above db (refund cfg msg db total) := by
  unfold refund
  dsimp only
  split_ifs
  · exact above_addBalance h
  · have hfirst : StateDB.Above db
        (db.addBalance msg.from (total * msg.refundRate / 100) cfg.defaultChainTokenID) :=
      above_addBalance h
    exact hfirst.trans (above_addBalance hfirst.consistent)
  · exact above_addBalance h

def chargedGas (cfg : ChainConfig) (st : StateTransition) (timeStamp gasUsed : ℕ) : ℕ :=
  if cfg.enableEvmTimeStamp ≤ timeStamp then gasUsed else st.gasUsed

variable (cfg ctx msg st) in
theorem proceeds_chargeFee (h : w.db.Consistent) (gasUsed : ℕ) :
    Proceeds w { w with db := chargeFee cfg ctx msg st w.db gasUsed }
      (chargedGas cfg st w.db.block.timeStamp gasUsed) [] := by
  have hadd : w.Above
      { w with
        db := w.db.addBalance ctx.coinbase (cfg.localFee (gasUsed * msg.gasPrice))
          cfg.defaultChainTokenID } := (above_addBalance h :)
  have hfee := (proceeds_addBlockFee hadd.consistent cfg.defaultChainTokenID
    (cfg.localFee (gasUsed * msg.gasPrice))).after hadd
  have hts := hfee.timeStamp
  unfold chargeFee chargedGas
  dsimp only at hts ⊢
  rw [hts]
  split_ifs
  · simpa using hfee.trans (proceeds_addGasUsed hfee.consistent gasUsed)
  · simpa using hfee.trans (proceeds_addGasUsed hfee.consistent st.gasUsed)

theorem above_countNonce (h : w.db.Consistent) : w.Above (countNonce msg w) := by
  have hread : StateDB.Above w.db (w.db.getNonce msg.from).2 := above_getNonce h
  exact hread.trans (above_setNonce hread.consistent)

theorem balanceOf_countNonce (a : Recipient) (tokenID : TokenID) :
    (countNonce msg w).db.balanceOf a tokenID = w.db.balanceOf a tokenID :=
  balanceOf_setNonce.trans balanceOf_getNonce

theorem above_poSWCheck (h : w.db.Consistent) : w.Above (transferFailureByPoSWBalanceCheck cfg msg w).2 := by
  unfold transferFailureByPoSWBalanceCheck
  cases w.db.block.senderDisallowMap msg.from with
  | none => exact .refl h
  | some v => exact above_getBalance h

variable (cfg msg w) in
theorem balanceOf_poSWCheck (a : Recipient) (tokenID : TokenID) :
    (transferFailureByPoSWBalanceCheck cfg msg w).2.db.balanceOf a tokenID =
      w.db.balanceOf a tokenID := by
  unfold transferFailureByPoSWBalanceCheck
  cases w.db.block.senderDisallowMap msg.from with
  | none => rfl
  | some v => exact balanceOf_getBalance

theorem canTransfer_iff (w : World) (a : Recipient) (value : ℕ) (tokenID : TokenID) :
    (canTransfer w a value tokenID).1 = true ↔ value ≤ w.db.balanceOf a tokenID := by
  have hb : (w.db.getBalance a tokenID).1 = w.db.balanceOf a tokenID := getBalance_fst ..
  rw [← hb]
  exact decide_eq_true_iff

variable {Q : Stop → Prop}

theorem lift_subBalance {a : Recipient} {amount : ℕ} {tokenID : TokenID}
    (h : w.db.Consistent) (hle : amount ≤ w.db.balanceOf a tokenID) :
    Post (w.lift (w.db.subBalance a amount tokenID))
      (fun w' => w.Above w' ∧ w.db.subBalance a amount tokenID = .ok w'.db) Q := by
  obtain ⟨db, hdb⟩ := exists_subBalance hle
  rw [hdb]
  exact ⟨above_subBalance h hdb, rfl⟩

/-- The gas that a transition reports where it succeeds, next to the gas it charges to the block and the
gas it takes off before the message runs.  For a cross-shard message it reports all the gas of the block
so far. -/
structure Settles (msg : Message) (gas : ℕ) (t : TransitionResult) (charged : ℕ) : Prop where
  reported : ∀ a, t.result = .ok a →
    a.usedGas = if msg.isCrossShard then t.world.db.block.gasUsed % 2 ^ 64 else charged
  positive : ∀ a, t.result = .ok a → 0 < gas → 0 < charged

theorem settles_fail {gas charged : ℕ} {err : CoreError} : Settles msg gas (st.fail err) charged :=
  ⟨nofun, nofun⟩

/-- The deposit of a message, with gas that what it costs to deliver can be added to. -/
def LeavesDeposit (cfg : ChainConfig) (msg : Message) (out : List CrossShardTransactionDeposit) : Prop :=
  ∃ recipient gasRemained createContract,
    out = [crossShardDeposit cfg msg recipient gasRemained createContract] ∧
      gasRemained + gtxxShardCost < 2 ^ 64

/-- The deposits that a message leaves: the one of a cross-shard message that does not fail. -/
structure Leaves (cfg : ChainConfig) (msg : Message) (t : TransitionResult)
    (out : List CrossShardTransactionDeposit) : Prop where
  here : msg.isCrossShard = false → out = []
  across : ∀ a, t.result = .ok a → msg.isCrossShard = true →
    if a.failed then out = [] else LeavesDeposit cfg msg out

theorem leaves_fail {err : CoreError} : Leaves cfg msg (st.fail err) [] := ⟨fun _ => rfl, nofun⟩

variable {intrinsic gp : ℕ}

theorem depositValue_post (h : w.db.Consistent)
    (hle : msg.value ≤ w.db.balanceOf msg.from msg.transferTokenID)
    (hgas : intrinsic ≤ msg.gas.toNat) (hcost : gtxxShardCost < intrinsic) :
    Post (depositValue m cfg msg intrinsic w)
      (fun r => ∃ out, Proceeds w r.2 0 out ∧ LeavesDeposit cfg msg out) Q := by
  have hreserved : sub64 msg.gas.toNat intrinsic = msg.gas.toNat - intrinsic := sub64_eq hgas msg.gas.toNat_lt
  have hbound : msg.gas.toNat - intrinsic + gtxxShardCost < 2 ^ 64 := by
    have := msg.gas.toNat_lt
    omega
  unfold depositValue
  refine (lift_subBalance h hle).bind fun w₁ hw₁ => ?_
  cases msg.to with
  | none =>
    have hread : w₁.Above { w₁ with db := (w₁.db.getNonce msg.from).2 } :=
      above_getNonce hw₁.1.consistent
    refine ⟨_, (proceeds_appendXShardList hread.consistent _).after (hw₁.1.trans hread), _, _, _, rfl, ?_⟩
    rw [hreserved]
    exact hbound
  | some recipient =>
    refine ⟨_, (proceeds_appendXShardList hw₁.1.consistent _).after hw₁.1, _, _, _, rfl, ?_⟩
    split_ifs
    · rw [hreserved]
      exact hbound
    · decide

variable (cfg ctx msg st) in
theorem proceeds_settleCrossShard (h : st.world.db.Consistent) (reserved : ℕ) (failed : Bool) :
    Proceeds st.world (settleCrossShard cfg ctx msg st reserved failed).world
      (chargedGas cfg st st.world.db.block.timeStamp
        (if failed then st.gasUsed else sub64 st.gasUsed gtxxShardCost)) [] := by
  have hrefund : st.world.Above { st.world with
      db := refund cfg msg st.world.db
        (sub64 (sub64 msg.gas.toNat st.gasUsed) reserved * msg.gasPrice) } :=
    above_refund cfg msg h _
  have hcharge := (proceeds_chargeFee cfg ctx msg st hrefund.consistent
    (if failed then st.gasUsed else sub64 st.gasUsed gtxxShardCost)).after hrefund
  rw [hrefund.block] at hcharge
  exact hcharge

variable (cfg msg) in
theorem senderChecks_read {w : World} (h : w.db.Consistent) :
    let looked := canTransfer w msg.from msg.value msg.transferTokenID
    let locked := transferFailureByPoSWBalanceCheck cfg msg looked.2
    w.Above looked.2 ∧ (looked.1 = true ↔ msg.value ≤ w.db.balanceOf msg.from msg.transferTokenID) ∧
      w.Above locked.2 ∧ locked.2.db.balanceOf msg.from msg.transferTokenID =
        w.db.balanceOf msg.from msg.transferTokenID := by
  have hcan : w.Above (canTransfer w msg.from msg.value msg.transferTokenID).2 := canTransfer_above h
  exact ⟨hcan, canTransfer_iff .., hcan.trans (above_poSWCheck hcan.consistent),
    (balanceOf_poSWCheck ..).trans balanceOf_getBalance⟩

variable (st) in
theorem addCrossShardTxDeposit_post (h : st.world.db.Consistent)
    (hcross : msg.isCrossShard = true) (hinit : st.initialGas = msg.gas.toNat)
    (hgas : st.gas + intrinsic = st.initialGas) (hcost : gtxxShardCost < intrinsic) :
    Post (addCrossShardTxDeposit m cfg ctx msg st intrinsic)
      (fun t => t.gp = st.gp ∧ ∃ charged out, Proceeds st.world t.world charged out ∧
        charged ≤ st.initialGas ∧ Leaves cfg msg t out ∧ Settles msg intrinsic t charged) Q := by
  have hlt : st.initialGas < 2 ^ 64 := by rw [hinit]; exact msg.gas.toNat_lt
  obtain ⟨hcan, hfst, hw, hbal⟩ := senderChecks_read cfg msg h
  unfold addCrossShardTxDeposit
  dsimp only
  generalize canTransfer st.world msg.from msg.value msg.transferTokenID = looked at *
  generalize transferFailureByPoSWBalanceCheck cfg msg looked.2 = locked at *
  split_ifs with hc hlocked
  · exact ⟨rfl, 0, [], .of_above hcan, Nat.zero_le _, leaves_fail, settles_fail⟩
  · have hall : ∀ timeStamp, chargedGas cfg { st with gas := 0, world := locked.2 } timeStamp
        (if true then StateTransition.gasUsed { st with gas := 0, world := locked.2 } else
          sub64 (StateTransition.gasUsed { st with gas := 0, world := locked.2 }) gtxxShardCost) =
        st.initialGas := by
      intro timeStamp
      unfold chargedGas StateTransition.gasUsed sub64
      simp only [if_true, ite_self]
      omega
    refine ⟨rfl, _, [], (proceeds_settleCrossShard cfg ctx msg _ hw.consistent 0 true).after hw, ?_,
      ⟨fun _ => rfl, fun a ha _ => ?_⟩, ?_⟩
    · exact (hall _).le
    · cases ha
      rfl
    · refine ⟨fun a ha => ?_, fun a _ hpos => ?_⟩
      · cases ha
        rw [if_pos hcross]
        rfl
      · rw [hall]
        omega
  · have hle : msg.value ≤ locked.2.db.balanceOf msg.from msg.transferTokenID := by
      rw [hbal, ← hfst]
      simpa using hc
    refine (depositValue_post hw.consistent hle (by omega) hcost).bind fun r hr => ?_
    obtain ⟨out, hproceeds, hleaves⟩ := hr
    have hsettle := proceeds_settleCrossShard cfg ctx msg { st with world := r.2 }
      hproceeds.consistent r.1 false
    have hused : StateTransition.gasUsed { st with world := r.2 } = intrinsic := by
      unfold StateTransition.gasUsed
      rw [sub64_eq (by show st.gas ≤ st.initialGas; omega) hlt]
      show st.initialGas - st.gas = intrinsic
      omega
    have hcharged : sub64 intrinsic gtxxShardCost = intrinsic - gtxxShardCost := sub64_eq hcost.le (by omega)
    have hbetween : ∀ timeStamp, 0 < chargedGas cfg { st with world := r.2 } timeStamp
          (sub64 intrinsic gtxxShardCost) ∧
        chargedGas cfg { st with world := r.2 } timeStamp (sub64 intrinsic gtxxShardCost) ≤
          st.initialGas := by
      intro timeStamp
      unfold chargedGas
      rw [hused, hcharged]
      split_ifs <;> omega
    rw [hused, if_neg Bool.false_ne_true] at hsettle
    refine ⟨rfl, _, out, by simpa using (hproceeds.after hw).trans hsettle, (hbetween _).2,
      ⟨fun hno => ?_, fun a ha _ => ?_⟩, fun a ha => ?_, fun a _ _ => (hbetween _).1⟩
    · cases hcross.symm.trans hno
    · cases ha
      exact hleaves
    · cases ha
      rw [if_pos hcross]
      rfl

variable (st) in
theorem execute_post (hm : m.Sound Bad) (h : st.world.db.Consistent)
    (htoken : ctx.transferTokenID = msg.transferTokenID) : Post (execute m cfg ctx msg st)
      (fun r => st.world.Above r.2.2.world ∧ r.2.2.gas ≤ st.gas ∧ r.2.2.gp = st.gp ∧
        r.2.2.initialGas = st.initialGas ∧
        (msg.value ≤ st.world.db.balanceOf msg.from msg.transferTokenID →
          r.2.1 ≠ some .insufficientBalance)) Bad := by
  unfold execute
  by_cases hcreate : (msg.to.isNone || ctx.contractAddress.isSome) = true
  · rw [if_pos hcreate]
    refine (hm.create ctx msg.from msg.data st.gas msg.value ctx.contractAddress st.world h).bind
      fun r hr => ?_
    rw [htoken] at hr
    exact ⟨hr.above, hr.gas, rfl, rfl, hr.err⟩
  rw [if_neg hcreate]
  dsimp only
  have hnonce : st.world.Above (if ctx.isApplyXShard then st.world else countNonce msg st.world) := by
    split_ifs
    · exact .refl h
    · exact above_countNonce h
  have hbal : (if ctx.isApplyXShard then st.world else countNonce msg st.world).db.balanceOf msg.from
      msg.transferTokenID = st.world.db.balanceOf msg.from msg.transferTokenID := by
    split_ifs
    · rfl
    · exact balanceOf_countNonce _ _
  generalize (if ctx.isApplyXShard then st.world else countNonce msg st.world) = w at hnonce hbal
  have hposw : w.Above (transferFailureByPoSWBalanceCheck cfg msg w).2 := above_poSWCheck hnonce.consistent
  have hbal' := (balanceOf_poSWCheck cfg msg w msg.from msg.transferTokenID).trans hbal
  generalize transferFailureByPoSWBalanceCheck cfg msg w = locked at hposw hbal'
  have hw := hnonce.trans hposw
  split_ifs
  · exact ⟨hw, Nat.zero_le _, rfl, rfl, fun _ => nofun⟩
  refine (hm.call ctx msg.from (msg.to.getD 0) msg.data st.gas msg.value locked.2
    hw.consistent).bind fun r hr => ?_
  rw [htoken, hbal'] at hr
  exact ⟨hw.trans hr.above, hr.gas, rfl, rfl, hr.err⟩

theorem refundGas_post (h : st.world.db.Consistent) (hgas : st.gas ≤ st.initialGas)
    (hinit : st.initialGas < 2 ^ 64)
    (hgp : st.gp + st.initialGas < 2 ^ 64 ∨ Q (.panic .gasPoolOverflow))
    (vmerr : Option VmError) : Post (refundGas cfg msg st vmerr)
      (fun st' => st.world.Above st'.world ∧ (st'.gas ≤ st.initialGas ∧
        (st.gas < st.initialGas → st'.gas < st.initialGas)) ∧
        st'.initialGas = st.initialGas ∧ st'.gp = st.gp + st'.gas) Q := by
  unfold refundGas
  have hused : st.gasUsed = st.initialGas - st.gas := sub64_eq hgas (by omega)
  have hle : (if vmerr.isNone then add64 st.gas (min (st.gasUsed / 2) st.world.db.refund)
        else st.gas) ≤ st.initialGas ∧
      (st.gas < st.initialGas → (if vmerr.isNone then
        add64 st.gas (min (st.gasUsed / 2) st.world.db.refund) else st.gas) < st.initialGas) := by
    have hmin : min (st.gasUsed / 2) st.world.db.refund ≤ (st.initialGas - st.gas) / 2 := by
      rw [hused]
      omega
    split_ifs
    · rw [add64_eq (by omega)]
      omega
    · exact ⟨hgas, id⟩
  generalize (if vmerr.isNone then add64 st.gas (min (st.gasUsed / 2) st.world.db.refund)
      else st.gas) = gas at hle
  dsimp only
  have hsub : st.world.db.subRefund st.world.db.refund =
      .ok { st.world.db.append (.refund st.world.db.refund) with refund := 0 } := by
    unfold StateDB.subRefund
    rw [if_neg (Nat.lt_irrefl _), Nat.sub_self]
  have hclear : st.world.Above { st.world with
      db := { st.world.db.append (.refund st.world.db.refund) with refund := 0 } } :=
    .of_changes h (subRefund_changes hsub)
  have hrefund := hclear.trans (above_refund cfg msg hclear.consistent (gas * msg.gasPrice))
  rw [hsub]
  show Post (if 2 ^ 64 - 1 < st.gp + gas then _ else _) _ _
  split_ifs with hover
  · rcases hgp with hgp | hbad
    · omega
    · exact hbad
  · exact ⟨hrefund, hle, rfl, rfl⟩

theorem transitionFrom_post {gas : ℕ} (hm : m.Sound Bad) (h : st.world.db.Consistent)
    (htoken : ctx.transferTokenID = msg.transferTokenID) (hgas : st.gas = st.initialGas)
    (hinit : st.initialGas < 2 ^ 64)
    (hgp : st.gp + st.initialGas < 2 ^ 64 ∨ Bad (.panic .gasPoolOverflow))
    (hcross : msg.isCrossShard = true → st.initialGas = msg.gas.toNat ∧ gtxxShardCost < gas) :
    Post (transitionFrom m cfg ctx msg st gas) (fun t => t.gp ≤ st.gp + st.initialGas ∧
        (∃ charged out, Proceeds st.world t.world charged out ∧ charged ≤ st.initialGas ∧
          Leaves cfg msg t out ∧ Settles msg gas t charged) ∧
        (gas ≤ st.gas → msg.isCrossShard = false →
          msg.value ≤ st.world.db.balanceOf msg.from msg.transferTokenID →
          ∃ a, t.result = .ok a)) Bad := by
  unfold transitionFrom
  by_cases hlow : st.gas < gas
  · rw [if_pos hlow]
    exact ⟨Nat.le_add_right _ _, ⟨0, [], .of_above (.refl h), Nat.zero_le _, leaves_fail, settles_fail⟩,
      fun hle => absurd hle (Nat.not_le.mpr hlow)⟩
  rw [if_neg hlow]
  dsimp only
  by_cases hx : msg.isCrossShard = true
  · rw [if_pos hx]
    obtain ⟨hinit, hcost⟩ := hcross hx
    have hnonce : st.world.Above (countNonce msg st.world) := above_countNonce h
    refine (addCrossShardTxDeposit_post
      { st with gas := st.gas - gas, world := countNonce msg st.world } hnonce.consistent hx hinit ?_
      hcost).imp fun t ht => ?_
    · show st.gas - gas + gas = st.initialGas
      omega
    · obtain ⟨hgp', charged, out, hproceeds, hcharged, hleaves, hsettles⟩ := ht
      refine ⟨by rw [hgp']; exact Nat.le_add_right _ _,
        ⟨charged, out, hproceeds.after hnonce, hcharged, hleaves, hsettles⟩, fun _ hno => ?_⟩
      rw [hx] at hno
      cases hno
  · rw [if_neg hx]
    refine (execute_post { st with gas := st.gas - gas } hm h htoken).bind fun r hr => ?_
    obtain ⟨ret, vmerr, st₁⟩ := r
    obtain ⟨habove, hleft, hgp₁, hinit₁, herr⟩ := hr
    dsimp only at habove hleft hgp₁ hinit₁ herr ⊢
    by_cases hvm : vmerr = some .insufficientBalance
    · rw [if_pos hvm]
      refine ⟨?_, ⟨0, [], .of_above habove, Nat.zero_le _, leaves_fail, settles_fail⟩, fun _ _ hfund =>
        absurd hvm (herr hfund)⟩
      show st₁.gp ≤ _
      omega
    rw [if_neg hvm]
    have hpool : st₁.gp + st₁.initialGas < 2 ^ 64 ∨ Bad (.panic .gasPoolOverflow) := by
      rw [hgp₁, hinit₁]
      exact hgp
    refine (refundGas_post habove.consistent (by omega) (by omega) hpool vmerr).bind
      fun st₂ hst₂ => ?_
    obtain ⟨habove₂, ⟨hleft₂, hstrict⟩, hinit₂, hgp₂⟩ := hst₂
    have hused : st₂.gasUsed = st₂.initialGas - st₂.gas := sub64_eq (by omega) (by omega)
    have hcharged : ∀ timeStamp, chargedGas cfg st₂ timeStamp st₂.gasUsed = st₂.gasUsed := by
      intro timeStamp
      exact ite_self _
    have hw := habove.trans habove₂
    refine ⟨?_, ⟨_, [], (proceeds_chargeFee cfg ctx msg st₂ hw.consistent st₂.gasUsed).after hw,
      ?_, ⟨fun _ => rfl, fun _ _ hyes => absurd hyes hx⟩, fun a ha => ?_, fun a _ hpos => ?_⟩,
      fun _ _ _ => ⟨_, rfl⟩⟩
    · show st₂.gp ≤ _
      omega
    · rw [hcharged]
      omega
    · cases ha
      rw [if_neg hx, hcharged]
    · rw [hcharged]
      omega

theorem lt_intrinsicGas {data : List UInt8} {contractCreation isCrossShard : Bool} {gas : ℕ}
    (hdata : data.length < 2 ^ 32) (h : intrinsicGas data contractCreation isCrossShard = some gas) :
    (if isCrossShard then gtxxShardCost else 0) < gas := by
  have hnz : (data.filter (· ≠ 0)).length ≤ data.length := List.length_filter_le ..
  unfold intrinsicGas at h
  dsimp only at h
  generalize (data.filter (· ≠ 0)).length = nz at h hnz
  have hbase : 21000 ≤ (if contractCreation = true then 53000 else 21000) ∧
      (if contractCreation = true then 53000 else 21000) ≤ 53000 := by
    split_ifs <;> omega
  generalize (if contractCreation = true then 53000 else 21000) = base at h hbase
  split_ifs at h with h₁ h₂ hx
  · obtain rfl := Option.some.inj h
    rw [if_pos hx]
    unfold add64 gtxxShardCost
    omega
  · obtain rfl := Option.some.inj h
    rw [if_neg hx]
    omega

variable (st) in
theorem buyGas_post (h : st.world.db.Consistent) (hgas : st.gas = 0) : Post (buyGas ctx msg st)
      (fun r => st.world.Above r.2.world ∧ (∀ err, r.1 = some err → r.2.gp = st.gp) ∧
        (r.1 = none → msg.gas.toNat ≤ st.gp ∧ r.2.gp = st.gp - msg.gas.toNat ∧
          r.2.gas = msg.gas.toNat ∧ r.2.initialGas = msg.gas.toNat)) Q := by
  have hread : st.world.Above { st.world with db := (st.world.db.getBalance msg.from ctx.gasTokenID).2 } :=
    above_getBalance h
  have hfst : (st.world.db.getBalance msg.from ctx.gasTokenID).1 =
      (st.world.db.getBalance msg.from ctx.gasTokenID).2.balanceOf msg.from ctx.gasTokenID :=
    (getBalance_fst ..).trans balanceOf_getBalance.symm
  unfold buyGas
  dsimp only
  generalize st.world.db.getBalance msg.from ctx.gasTokenID = read at hread hfst
  split_ifs with hpoor hpool
  · exact ⟨hread, fun _ _ => rfl, nofun⟩
  · exact ⟨hread, fun _ _ => rfl, nofun⟩
  refine (lift_subBalance hread.consistent ?_).bind fun w' hw' => ?_
  · rw [← hfst]
    exact Nat.le_of_not_lt hpoor
  · refine ⟨hread.trans hw'.1, nofun, fun _ => ⟨Nat.le_of_not_lt hpool, rfl, ?_, rfl⟩⟩
    show add64 st.gas msg.gas.toNat = msg.gas.toNat
    rw [hgas, add64_eq (by have := msg.gas.toNat_lt; omega), Nat.zero_add]

variable (st) in
theorem preCheck_post (h : st.world.db.Consistent) (hgas : st.gas = 0) : Post (preCheck ctx msg st)
      (fun r => st.world.Above r.2.world ∧ (∀ err, r.1 = some err → r.2.gp = st.gp) ∧
        (r.1 = none → msg.gas.toNat ≤ st.gp ∧ r.2.gp = st.gp - msg.gas.toNat ∧
          r.2.gas = msg.gas.toNat ∧ r.2.initialGas = msg.gas.toNat)) Q := by
  have hread : st.world.Above { st.world with db := (st.world.db.getNonce msg.from).2 } :=
    above_getNonce h
  unfold preCheck
  dsimp only
  generalize st.world.db.getNonce msg.from = read at hread
  split_ifs
  · exact ⟨hread, fun _ _ => rfl, nofun⟩
  · exact ⟨hread, fun _ _ => rfl, nofun⟩
  · exact (buyGas_post { st with world := { st.world with db := read.2 } } hread.consistent hgas).imp
      fun r hr => ⟨hread.trans hr.1, hr.2⟩
  · exact buyGas_post st h hgas

/-- **A transaction's transition.**  It never overdraws a balance or a gas counter. -/
theorem transitionDb_post (hm : m.Sound Bad) (h : w.db.Consistent)
    (htoken : ctx.transferTokenID = msg.transferTokenID) (hx : ctx.isApplyXShard = false)
    (hgp : gp < 2 ^ 64) (hdata : msg.data.length < 2 ^ 32) : Post (transitionDb m cfg ctx msg gp w)
      (fun t => t.gp ≤ gp ∧ ∃ charged out, Proceeds w t.world charged out ∧
        charged ≤ msg.gas.toNat ∧ Leaves cfg msg t out ∧ Settles msg 1 t charged) Bad := by
  unfold transitionDb
  dsimp only
  rw [hx, if_neg Bool.false_ne_true]
  refine (preCheck_post { gp, gas := 0, initialGas := 0, world := w } h rfl).bind fun r hr => ?_
  obtain ⟨err, st⟩ := r
  obtain ⟨hw, hfailed, hbought⟩ := hr
  dsimp only at hw hfailed hbought ⊢
  cases err with
  | some err =>
    exact ⟨(hfailed err rfl).le, 0, [], .of_above hw, Nat.zero_le _, leaves_fail, settles_fail⟩
  | none =>
    obtain ⟨hle, hgp', hgas, hinit⟩ := hbought rfl
    cases hint : intrinsicGas msg.data msg.to.isNone msg.isCrossShard with
    | none =>
      refine ⟨?_, 0, [], .of_above hw, Nat.zero_le _, leaves_fail, settles_fail⟩
      show st.gp ≤ gp
      omega
    | some gas =>
      have hlt := lt_intrinsicGas hdata hint
      dsimp only
      refine (transitionFrom_post hm hw.consistent htoken (by omega) (by omega) (.inl (by omega))
        fun hcross => ?_).imp fun t ht => ?_
      · rw [if_pos hcross] at hlt
        exact ⟨hinit, hlt⟩
      · obtain ⟨hgp'', ⟨charged, out, hproceeds, hcharged, hleaves, hsettles⟩, -⟩ := ht
        exact ⟨by omega, charged, out, hproceeds.after hw, by omega, hleaves, hsettles.reported,
          fun a ha _ => hsettles.positive a ha (by omega)⟩

/-- **A deposit's transition.**  More gas than the pool can take back is a panic, and gas past a `uint64`
does not cover what the deposit costs; otherwise it has a result if the sender owns the value. -/
theorem transitionDb_deposit_post (hm : m.Sound Bad) (h : w.db.Consistent)
    (htoken : ctx.transferTokenID = msg.transferTokenID) (hx : ctx.isApplyXShard = true)
    (hcross : msg.isCrossShard = false) (hstart : ctx.xShardGasUsedStart < 2 ^ 64)
    (hgp : gp + (msg.gas.toNat + ctx.xShardGasUsedStart) < 2 ^ 64 ∨
      Bad (.panic .gasPoolOverflow)) : Post (transitionDb m cfg ctx msg gp w)
      (fun t => ∃ charged, Proceeds w t.world charged [] ∧ Settles msg ctx.xShardGasUsedStart t charged ∧
        charged ≤ msg.gas.toNat + ctx.xShardGasUsedStart ∧
        (msg.gas.toNat + ctx.xShardGasUsedStart < 2 ^ 64 →
          msg.value ≤ w.db.balanceOf msg.from msg.transferTokenID → ∃ a, t.result = .ok a)) Bad := by
  have hgas := msg.gas.toNat_lt
  unfold transitionDb preFill
  dsimp only
  rw [if_pos hx]
  by_cases hwrap : msg.gas.toNat + ctx.xShardGasUsedStart < 2 ^ 64
  · have hfill : add64 0 (add64 msg.gas.toNat ctx.xShardGasUsedStart) =
        msg.gas.toNat + ctx.xShardGasUsedStart := by
      rw [add64_eq hwrap, add64_eq (by omega), Nat.zero_add]
    rw [hfill]
    refine (transitionFrom_post hm h htoken rfl hwrap hgp fun hyes => ?_).imp fun t ht => ?_
    · rw [hcross] at hyes
      cases hyes
    · obtain ⟨-, ⟨charged, out, hproceeds, hcharged, hleaves, hsettles⟩, hok⟩ := ht
      obtain rfl := hleaves.here hcross
      exact ⟨charged, hproceeds, hsettles, hcharged, fun _ => hok (Nat.le_add_left _ _) hcross⟩
  · have hlow : add64 0 (add64 msg.gas.toNat ctx.xShardGasUsedStart) < ctx.xShardGasUsedStart := by
      unfold add64
      omega
    unfold transitionFrom
    rw [if_pos hlow]
    exact ⟨0, .of_above (.refl h), settles_fail, Nat.zero_le _, fun hlt => absurd hlt hwrap⟩

end

end QuarkChain.Core
