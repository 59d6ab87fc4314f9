/-
# The receipts of a block

`AddUp` says of the receipts that `ApplyTransaction` and `ApplyCrossShardDeposit` make
(`src/core/state_processor.go`) that the gas of each is what its transaction adds to the running total.

`AddCrossShardTxDeposit` (`state_transition.go`) returns the gas of the whole block so far where
`TransitionDb` otherwise returns the gas of the transaction.  So the receipts of a block add up exactly when
no cross-shard transaction comes after anything that used gas (`receiptsConsistent_iff`).
-/
import QuarkChain.Core.Validate
import QuarkChain.Core.Deposit

namespace QuarkChain.Core

open QuarkChain.Types State Vm Outcome

def totalAfter (before : ℕ) (receipts : List Receipt) : ℕ :=
  (receipts.getLast?.map Receipt.cumulativeGasUsed).getD before

/-- The receipts lead from one total to another. -/
structure AddUp (before : ℕ) (receipts : List Receipt) (after : ℕ) : Prop where
  increase : ∀ earlier r later, receipts = earlier ++ r :: later →
    totalAfter before earlier + r.gasUsed = r.cumulativeGasUsed
  nondecreasing : (before :: receipts.map Receipt.cumulativeGasUsed).Pairwise (· ≤ ·)
  sum : before + (receipts.map Receipt.gasUsed).sum = after

def RunningTotal : ℕ → List Receipt → ℕ → Prop
  | before, [], after => after = before
  | before, r :: receipts, after =>
      before + r.gasUsed = r.cumulativeGasUsed ∧ RunningTotal r.cumulativeGasUsed receipts after

section

variable {before after : ℕ} {r : Receipt} {receipts : List Receipt}

theorem totalAfter_cons (before : ℕ) : totalAfter before (r :: receipts) = totalAfter r.cumulativeGasUsed receipts := by
  unfold totalAfter
  rw [List.getLast?_cons]
  cases receipts.getLast? <;> rfl

theorem RunningTotal.le (h : RunningTotal before receipts after) :
    ∀ r ∈ receipts, before ≤ r.cumulativeGasUsed := by
  induction receipts generalizing before with
  | nil => simp
  | cons r receipts ih =>
    obtain ⟨hr, hrest⟩ := h
    refine List.forall_mem_cons.mpr ⟨by omega, fun r' hr' => ?_⟩
    have := ih hrest r' hr'
    omega

theorem addUp_iff : AddUp before receipts after ↔ RunningTotal before receipts after := by
  induction receipts generalizing before with
  | nil =>
    constructor
    · intro h
      have hsum := h.sum
      simp only [List.map_nil, List.sum_nil, Nat.add_zero] at hsum
      exact hsum.symm
    · intro h
      obtain rfl : after = before := h
      exact ⟨fun earlier r later hsplit => by simp at hsplit, by simp, by simp⟩
  | cons r receipts ih =>
    constructor
    · intro h
      have hr : before + r.gasUsed = r.cumulativeGasUsed := h.increase [] r receipts rfl
      refine ⟨hr, ih.mp ⟨fun earlier r' later hsplit => ?_, ?_, ?_⟩⟩
      · rw [← totalAfter_cons before]
        exact h.increase (r :: earlier) r' later (by rw [hsplit]; rfl)
      · exact (List.pairwise_cons.mp h.nondecreasing).2
      · have hsum := h.sum
        simp only [List.map_cons, List.sum_cons] at hsum
        omega
    · rintro ⟨hr, hrest⟩
      have hle := hrest.le
      have htail := ih.mpr hrest
      refine ⟨fun earlier r' later hsplit => ?_, ?_, ?_⟩
      · cases earlier with
        | nil =>
          obtain ⟨rfl, -⟩ := List.cons_eq_cons.mp hsplit
          exact hr
        | cons e earlier =>
          obtain ⟨rfl, htails⟩ := List.cons_eq_cons.mp hsplit
          rw [totalAfter_cons]
          exact htail.increase earlier r' later htails
      · refine List.pairwise_cons.mpr ⟨fun total htotal => ?_, htail.nondecreasing⟩
        rw [List.map_cons, List.mem_cons] at htotal
        rcases htotal with rfl | htotal
        · omega
        · obtain ⟨r', hr', rfl⟩ := List.mem_map.mp htotal
          have := hle r' hr'
          omega
      · have hsum := htail.sum
        rw [List.map_cons, List.sum_cons]
        omega

theorem RunningTotal.append_singleton (h : RunningTotal before receipts after)
    (hr : after + r.gasUsed = r.cumulativeGasUsed) :
    RunningTotal before (receipts ++ [r]) r.cumulativeGasUsed := by
  induction receipts generalizing before with
  | nil =>
    obtain rfl : after = before := h
    exact ⟨hr, rfl⟩
  | cons r' receipts ih => exact ⟨h.1, ih h.2⟩

end

/-! ### One transaction -/

theorem sound_any (env : Env) : (machine env).Sound fun _ => True where
  call ctx caller addr input gas value w h :=
    ((sound_machine env).call ctx caller addr input gas value w h).mono (fun _ => id) fun _ _ => trivial
  create ctx caller code gas value address w h :=
    ((sound_machine env).create ctx caller code gas value address w h).mono (fun _ => id)
      fun _ _ => trivial

section

variable {m : Machine} {Bad : Stop → Prop} {cfg : ChainConfig} {header : Header} {tx : EvmTransaction}
  {gp usedGas : ℕ} {w : World}

/-- What a receipt says about the gas of its transaction: for a cross-shard transaction it is the gas of
the block. -/
structure Receipted (isCrossShard : Bool) (total charged : ℕ) (r : Receipt) : Prop where
  positive : 0 < charged
  cumulative : r.cumulativeGasUsed = total % 2 ^ 64
  gasUsed : r.gasUsed = if isCrossShard then total % 2 ^ 64 else charged

/-- The deposits of a transaction, which has the receipt `r`: one to its target if it is for another shard and
did not fail, and none otherwise. -/
def Departs (tx : EvmTransaction) (r : Receipt) (out : List CrossShardTransactionDeposit) : Prop :=
  if tx.isCrossShard = true ∧ r.failed = false then
    ∃ d, out = [d] ∧ d.to.fullShardKey = tx.toFullShardKey ∧ d.gasRemained + gtxxShardCost < 2 ^ 64
  else out = []

theorem Leaves.departs {msg : Message} {t : TransitionResult} {a : Applied} {r : Receipt}
    {out : List CrossShardTransactionDeposit} (h : Leaves cfg msg t out) (ha : t.result = .ok a)
    (hcross : msg.isCrossShard = tx.isCrossShard) (hkey : msg.toFullShardKey = some tx.toFullShardKey)
    (hfailed : r.failed = a.failed) : Departs tx r out := by
  unfold Departs
  rw [← hcross, hfailed]
  cases hx : msg.isCrossShard with
  | false =>
    rw [if_neg nofun]
    exact h.here hx
  | true =>
    have hout := h.across a ha hx
    cases hf : a.failed with
    | true =>
      rw [hf] at hout
      exact hout
    | false =>
      rw [hf] at hout
      obtain ⟨recipient, gasRemained, createContract, hout, hgas⟩ := hout
      refine ⟨_, hout, ?_, hgas⟩
      show msg.toFullShardKey.getD 0 = _
      rw [hkey]
      rfl

/-- **What applying a transaction does to the gas of a block**, what its receipt says, and what it leaves for other
shards. -/
theorem applyTransaction_post (hm : m.Sound Bad)
    (hshort : Bad (.panic .shortReturn)) (h : w.db.Consistent) (hgp : gp < 2 ^ 64) :
    Post (applyTransaction m cfg header gp usedGas tx w)
      (fun r => r.gp ≤ gp ∧ ∃ charged out, Proceeds w r.world charged out ∧ ∀ e, r.result = .ok e →
          Receipted tx.isCrossShard r.world.db.block.gasUsed charged e.receipt ∧ Departs tx e.receipt out)
      Bad := by
  unfold applyTransaction
  refine (swapGas_post hm hshort h).bind fun swapped hswap => ?_
  obtain ⟨err | ⟨price, refundRate⟩, w₁⟩ := swapped
  · exact ⟨Nat.le_refl _, 0, [], .of_above hswap, nofun⟩
  dsimp only at hswap ⊢
  have hkey := (proceeds_setFullShardKey hswap.consistent tx.toFullShardKey).after hswap
  unfold applyPriced
  dsimp only
  rcases tx.sender tx.networkId with _ | sender
  · exact ⟨Nat.le_refl _, 0, [], hkey, nofun⟩
  dsimp only
  refine (transitionDb_post hm hkey.consistent rfl rfl hgp tx.data_length).bind fun t ht => ?_
  obtain ⟨hpool, charged, out, hproceeds, -, hleaves, hsettles⟩ := ht
  have hrun : Proceeds w t.world charged out := by
    simpa using hkey.trans hproceeds
  rcases hres : t.result with err | a
  · exact ⟨hpool, charged, out, hrun, nofun⟩
  refine ⟨hpool, charged, out, hrun, fun e he => ?_⟩
  cases he
  exact ⟨⟨hsettles.positive a hres Nat.one_pos, rfl, hsettles.reported a hres⟩,
    hleaves.departs hres rfl rfl rfl⟩

end

namespace Node

variable (n : Node)

/-- The transaction leaves the shard, with the shard sizes that the node fills in. -/
def Crosses (tx : EvmTransaction) : Prop :=
  ∃ sized, n.setShardSizes tx = .ok sized ∧ sized.isCrossShard = true

/-- No cross-shard transaction comes after anything that used gas. -/
def CrossShardFirst (gasUsed : ℕ) (txs : List EvmTransaction) : Prop :=
  (∀ tx ∈ txs.head?, n.Crosses tx → gasUsed = 0) ∧ ∀ tx ∈ txs.tail, ¬n.Crosses tx

variable {n} {block : MinorBlock} {Bad : Stop → Prop} {tx : EvmTransaction}

def Sound (n : Node) (Bad : Stop → Prop) : Prop := ∀ header, (n.machine header).Sound Bad

theorem sound_node {env : Header → Env} (hn : n.machine = fun header => Vm.machine (env header)) :
    n.Sound fun _ => True := by
  intro header
  rw [hn]
  exact sound_any (env header)

theorem validateTx_post {header : Header} {xShardGasLimit : ℕ} {w : World}
    (hm : n.Sound Bad) (hshort : Bad (.panic .shortReturn)) (h : w.db.Consistent) :
    Post (n.validateTx header tx xShardGasLimit w)
      (fun r => w.Above r.2 ∧ ∀ sized, r.1 = .ok sized → n.setShardSizes tx = .ok sized) Bad := by
  unfold validateTx
  rcases n.setShardSizes tx with err | sized
  · exact ⟨.refl h, nofun⟩
  dsimp only
  split
  · exact ⟨.refl h, nofun⟩
  split
  · exact ⟨.refl h, nofun⟩
  rename_i sender _
  have hread : w.Above { w with db := (w.db.getNonce sender).2 } := StateDB.above_getNonce h
  generalize w.db.getNonce sender = read at hread
  split_ifs
  · exact ⟨hread, fun s hs => by cases hs; rfl⟩
  refine (validateTransaction_post (hm header) hshort hread.consistent).bind fun r hr => ?_
  obtain ⟨_ | err, w₁⟩ := r
  · exact ⟨hread.trans hr, fun s hs => by cases hs; rfl⟩
  · exact ⟨hread.trans hr, nofun⟩

theorem crosses_iff {sized : EvmTransaction} (h : n.setShardSizes tx = .ok sized) :
    n.Crosses tx ↔ sized.isCrossShard = true := by
  constructor
  · rintro ⟨s, hs, hx⟩
    cases h.symm.trans hs
    exact hx
  · exact fun hx => ⟨sized, h, hx⟩

variable {p' p : Progress} {i : ℕ}

/-- **One transaction of a block.** -/
theorem processTx_spec (hm : n.Sound fun _ => True)
    (h : p.world.db.Consistent) (hgp : p.gp < 2 ^ 64) (hok : n.processTx block i tx p = .ok p') :
    p'.gp ≤ p.gp ∧ ∃ sized r charged out, n.setShardSizes tx = .ok sized ∧
      p'.receipts = p.receipts ++ [r] ∧ Proceeds p.world p'.world charged out ∧
      Receipted sized.isCrossShard p'.world.db.block.gasUsed charged r ∧ Departs sized r out := by
  unfold processTx at hok
  obtain ⟨⟨validated, w⟩, hval, hok⟩ := bind_eq_ok.mp hok
  have hpost := (validateTx_post hm trivial h).of_ok (mapError_eq_ok.mp hval)
  dsimp only at hpost hok
  rcases validated with err | sized
  · cases hok
  obtain ⟨r, happ, hok⟩ := bind_eq_ok.mp hok
  obtain ⟨hw, hsized⟩ := hpost
  have hprep := (proceeds_prepare hw.consistent sized.hash block.hash i).after hw
  obtain ⟨hpool, charged, out, hrun, hreceipt⟩ :=
    (applyTransaction_post (hm block.header) trivial hprep.consistent hgp).of_ok
      (mapError_eq_ok.mp happ)
  rcases hres : r.result with err | e
  · simp [hres] at hok
  simp only [hres, Except.ok.injEq] at hok
  subst hok
  exact ⟨hpool, sized, e.receipt, charged, out, hsized sized rfl, rfl, by simpa using hprep.trans hrun,
    hreceipt e hres⟩

/-- **The receipts of a run of transactions.** -/
theorem processTxs_runningTotal {txs : List EvmTransaction}
    (hm : n.Sound fun _ => True) (h : p.world.db.Consistent) (hgp : p.gp < 2 ^ 64)
    (hok : n.processTxs block i txs p = .ok p') :
    ∃ receipts charged out, p'.receipts = p.receipts ++ receipts ∧ receipts.length = txs.length ∧
      Proceeds p.world p'.world charged out ∧ (p'.world.db.block.gasUsed < 2 ^ 64 →
        (RunningTotal p.world.db.block.gasUsed receipts p'.world.db.block.gasUsed ↔
          n.CrossShardFirst p.world.db.block.gasUsed txs)) := by
  induction txs generalizing i p with
  | nil =>
    cases hok
    refine ⟨[], 0, [], by simp, rfl, .of_above (.refl h), fun _ => ?_⟩
    exact iff_of_true rfl ⟨by simp, by simp⟩
  | cons tx txs ih =>
    obtain ⟨p₁, hstep, hrest⟩ := bind_eq_ok.mp hok
    obtain ⟨hpool, sized, r, charged, out, hsized, hreceipts, hrun, hr, -⟩ := processTx_spec hm h hgp hstep
    obtain ⟨receipts, charged', out', hreceipts', hlen, hrun', hiff⟩ := ih hrun.consistent (by omega) hrest
    refine ⟨r :: receipts, charged + charged', out ++ out', ?_, by simp [hlen], hrun.trans hrun',
      fun hlt => ?_⟩
    · rw [hreceipts', hreceipts, List.append_assoc, List.singleton_append]
    · have hused := hrun.gasUsed
      have hused' := hrun'.gasUsed
      have hpos := hr.positive
      have htotal : r.cumulativeGasUsed = p₁.world.db.block.gasUsed := by
        rw [hr.cumulative, Nat.mod_eq_of_lt (by omega)]
      -- after this transaction some gas is used, so no later one may leave the shard
      have hfirst : n.CrossShardFirst p₁.world.db.block.gasUsed txs ↔ ∀ tx ∈ txs, ¬n.Crosses tx := by
        constructor
        · rintro ⟨hhead, htail⟩ tx' htx'
          rcases txs with _ | ⟨t, ts⟩
          · cases htx'
          rcases List.mem_cons.mp htx' with rfl | htx'
          · intro hx
            have := hhead tx' rfl hx
            omega
          · exact htail tx' htx'
        · intro hno
          exact ⟨fun tx' htx' hx => absurd hx (hno tx' (List.mem_of_mem_head? htx')),
            fun tx' htx' => hno tx' (List.mem_of_mem_tail htx')⟩
      have hcross := crosses_iff hsized
      have hown : p.world.db.block.gasUsed + r.gasUsed = r.cumulativeGasUsed ↔
          (n.Crosses tx → p.world.db.block.gasUsed = 0) := by
        rw [hcross, htotal, hr.gasUsed, Nat.mod_eq_of_lt (by omega)]
        cases sized.isCrossShard with
        | true =>
          simp only [if_true, forall_const]
          omega
        | false =>
          simp only [Bool.false_eq_true, if_false, false_imp_iff, iff_true]
          omega
      rw [RunningTotal, htotal, hiff hlt, hfirst, ← htotal, hown, CrossShardFirst]
      simp

end Node

section

variable {m : Machine} {Bad : Stop → Prop} {cfg : ChainConfig} {header : Header}
  {tx : CrossShardTransactionDeposit} {usedGas txIndex : ℕ} {checkIsFromRootChain : Bool} {w : World}

/-- **What applying a deposit does to the gas of a block**, and what its receipt says. -/
theorem applyCrossShardDeposit_receipted (hm : m.Sound Bad)
    (hover : Bad (.panic .gasPoolOverflow)) (h : w.db.Consistent) :
    Post (applyCrossShardDeposit m cfg header tx usedGas checkIsFromRootChain txIndex w)
      (fun r => ∃ charged, Proceeds w r.world charged [] ∧ ∀ receipt, r.result = .ok receipt →
        r.usedGas = add64 usedGas charged ∧ (cfg.enableEvmTimeStamp ≤ w.db.block.timeStamp →
          ∃ rc, receipt = some rc ∧ rc.gasUsed = charged ∧ rc.cumulativeGasUsed = r.usedGas)) Bad := by
  have hstart : gasUsedStart tx checkIsFromRootChain ≤ gtxxShardCost := gasUsedStart_le
  unfold applyCrossShardDeposit
  dsimp only
  generalize gasUsedStart tx checkIsFromRootChain = start at hstart
  split_ifs with hdisabled
  · refine ⟨start, proceeds_creditDeposit h start, fun receipt _ => ⟨rfl, fun henabled => ?_⟩⟩
    exact absurd hdisabled (Nat.not_lt.mpr henabled)
  have hprep : Proceeds w { w with db := depositState header tx txIndex w.db } 0 [] := proceeds_depositState h
  have hlt : start < 2 ^ 64 := by
    unfold gtxxShardCost at hstart
    omega
  refine (transitionDb_deposit_post hm hprep.consistent rfl rfl rfl hlt (.inr hover)).bind fun t ht => ?_
  obtain ⟨charged, hproceeds, hsettles, -⟩ := ht
  have hrun : Proceeds w t.world charged [] := by
    simpa using hprep.trans hproceeds
  rcases hres : t.result with err | a
  · exact ⟨charged, hrun, nofun⟩
  have hused : a.usedGas = charged := hsettles.reported a hres
  refine ⟨charged, hrun, fun receipt hreceipt => ⟨?_, fun henabled => ?_⟩⟩
  · rw [← hused]
  · dsimp only at hreceipt
    rw [hrun.timeStamp, if_pos henabled] at hreceipt
    cases hreceipt
    exact ⟨_, rfl, hused, rfl⟩

end

namespace Node

variable {n : Node} {block : MinorBlock} {receipts : List Receipt} {w : World}

/-- What the loop over the deposits keeps. -/
structure DepositsAddUp (n : Node) (time : ℕ) (t : XShard.LoopState World Receipt) : Prop where
  consistent : t.evmState.db.Consistent
  timeStamp : t.evmState.db.block.timeStamp = time
  gasUsed : t.evmState.db.block.gasUsed < 2 ^ 64 → t.gasUsed = t.evmState.db.block.gasUsed
  receipts : t.evmState.db.block.gasUsed < 2 ^ 64 → n.cfg.enableEvmTimeStamp ≤ time →
    RunningTotal 0 t.receipts t.gasUsed
  xShardList : t.evmState.db.block.xShardList = []

theorem DepositsAddUp.applyDeposit {time : ℕ} {t t' : XShard.LoopState World Receipt}
    {x : XShard.XShardTxCursor} {tx : CrossShardTransactionDeposit} (hm : n.Sound fun _ => True)
    (h : DepositsAddUp n time t)
    (happ : XShard.applyDeposit n.chain (n.depositEngine block.header) t x tx = .ok t') :
    DepositsAddUp n time t' := by
  simp only [XShard.applyDeposit, depositEngine] at happ
  split at happ
  · cases happ
  rename_i receipt evmState gasUsed heng
  cases happ
  split at heng
  · cases heng
  rename_i r hr
  obtain ⟨charged, hrun, hreceipt⟩ :=
    (applyCrossShardDeposit_receipted (hm _) trivial h.consistent).of_ok hr
  split at heng
  · cases heng
  rename_i rc hres
  cases heng
  obtain ⟨husedGas, hrc⟩ := hreceipt _ hres
  have htotal := hrun.gasUsed
  have hcounter : r.world.db.block.gasUsed < 2 ^ 64 → r.usedGas = r.world.db.block.gasUsed := by
    intro hlt
    rw [husedGas, h.gasUsed (by omega), add64_eq (by omega), htotal]
  refine ⟨hrun.consistent, hrun.timeStamp.trans h.timeStamp, hcounter, fun hlt henabled => ?_,
    hrun.xShardList.trans (by rw [h.xShardList, List.append_nil])⟩
  dsimp only at hlt ⊢
  obtain ⟨receipt, rfl, hgas, hcumulative⟩ := hrc (by rw [h.timeStamp]; exact henabled)
  have hbefore := h.gasUsed (by omega)
  have hafter := hcounter hlt
  rw [← hcumulative]
  exact (h.receipts (by omega) henabled).append_singleton (by omega)

/-- **The deposits of a block.** -/
theorem runDeposits_spec {fuel : ℕ} {txList : List CrossShardTransactionDeposit}
    (hm : n.Sound fun _ => True) (h : n.runDeposits fuel block = .ok (txList, receipts, w)) :
    w.db.Consistent ∧ w.db.block.xShardReceiveGasUsed = w.db.block.gasUsed ∧
      w.db.block.xShardList = [] ∧
      (w.db.block.gasUsed < 2 ^ 64 → n.cfg.enableEvmTimeStamp ≤ block.time →
        RunningTotal 0 receipts w.db.block.gasUsed) := by
  obtain ⟨db, hdb, h⟩ := bind_eq_ok.mp h
  obtain ⟨⟨txList', info, receipts', w₁⟩, hcursor, h⟩ := bind_eq_ok.mp h
  cases h
  have hstart : DepositsAddUp n block.time
      { evmState := { db }, gasUsed := 0, receipts := [], txIndex := 0 } := by
    unfold getEvmStateForNewBlock at hdb
    split at hdb
    · cases hdb
    split at hdb
    · cases hdb
    split at hdb
    · cases hdb
    · cases hdb
      exact ⟨consistent_new _ _, rfl, fun _ => rfl, fun _ _ => rfl, rfl⟩
  unfold runCrossShardTxWithCursor at hcursor
  split at hcursor
  · cases hcursor
  · cases hcursor
  rename_i r hrun
  cases hcursor
  unfold XShard.runCrossShardTxWithCursor at hrun
  split at hrun
  · cases hrun
  split at hrun
  · cases hrun
  split at hrun
  · cases hrun
  · cases hrun
  rename_i t hdrain
  split at hrun
  · cases hrun
  cases hrun
  have hend := Resumable.drain_keeps
    (fun t c a t' ht happ => DepositsAddUp.applyDeposit hm ht happ) hstart hdrain
  have hadjust : ∀ db' : StateDB, db'.Consistent →
      (adjustGasLimit block.xShardGasLimit db').Consistent ∧
      (adjustGasLimit block.xShardGasLimit db').block.gasUsed = db'.block.gasUsed ∧
      (adjustGasLimit block.xShardGasLimit db').block.xShardReceiveGasUsed =
        db'.block.xShardReceiveGasUsed ∧
      (adjustGasLimit block.xShardGasLimit db').block.xShardList = db'.block.xShardList := by
    intro db' hdb'
    unfold adjustGasLimit
    split_ifs
    · exact ⟨hdb'.updateBlock _, rfl, rfl, rfl⟩
    · exact ⟨hdb', rfl, rfl, rfl⟩
  obtain ⟨hc, hgas, hx, hlist⟩ := hadjust _ ((hend.consistent.updateBlock
    fun b => { b with xShardReceiveGasUsed := t.evmState.db.block.gasUsed }).updateBlock
    fun b => { b with xShardTxCursorInfo := some info })
  refine ⟨hc, hx.trans hgas.symm, hlist.trans hend.xShardList, fun hlt henabled => ?_⟩
  have hlt' : t.evmState.db.block.gasUsed < 2 ^ 64 := hgas ▸ hlt
  have hreceipts := hend.receipts hlt' henabled
  rw [hend.gasUsed hlt'] at hreceipts
  exact hgas.symm ▸ hreceipts

/-! ### A whole block -/

/-- The receipts of an accepted block add up: those of its transactions from the gas of the deposits to
the gas of the block, and, where deposits have receipts, those from zero to the gas of the deposits. -/
structure ReceiptsConsistent (n : Node) (block : MinorBlock) (receipts : List Receipt) : Prop where
  transactions : AddUp block.crossShardGasUsed (receipts.take block.transactions.length) block.gasUsed
  deposits : n.cfg.enableEvmTimeStamp ≤ block.time →
    AddUp 0 (receipts.drop block.transactions.length) block.crossShardGasUsed

theorem process_block {p : Progress} {db : StateDB} (h : p.world.db.Consistent)
    (hok : ((n.addCoinbaseAmount block.coinbase.recipient block.number p.world.db).finalise true).mapError
      BlockStop.state = .ok db) : db.block = p.world.db.block := by
  have hfinalise := mapError_eq_ok.mp hok
  unfold StateDB.finalise at hfinalise
  split_ifs at hfinalise
  cases hfinalise
  exact (StateDB.above_addBalance h).block

theorem process_spec {w' : World} {usedGas : ℕ} (hm : n.Sound fun _ => True) (h : w.db.Consistent)
    (hok : n.process block w = .ok (w', receipts, usedGas)) :
    receipts.length = block.transactions.length ∧ w.db.block.gasUsed ≤ w'.db.block.gasUsed ∧
      w'.db.block.xShardReceiveGasUsed = w.db.block.xShardReceiveGasUsed ∧
      (w'.db.block.gasUsed < 2 ^ 64 →
        (RunningTotal w.db.block.gasUsed receipts w'.db.block.gasUsed ↔
          n.CrossShardFirst w.db.block.gasUsed block.transactions)) := by
  obtain ⟨p, hrun, hok⟩ := bind_eq_ok.mp hok
  obtain ⟨db, hfinal, hok⟩ := bind_eq_ok.mp hok
  cases hok
  obtain ⟨rs, charged, out, hrs, hlen, hproceeds, hiff⟩ :=
    processTxs_runningTotal hm (h.updateBlock fun b =>
      { b with blockCoinbase := block.coinbase.recipient, gasLimit := block.gasLimit })
      (Nat.mod_lt _ (Nat.two_pow_pos 64)) hrun
  have hblock : db.block = p.world.db.block := process_block hproceeds.consistent hfinal
  rw [List.nil_append] at hrs
  have hgas := hproceeds.gasUsed
  have hreceive := hproceeds.xShardReceiveGasUsed
  dsimp only
  rw [hblock, hrs]
  refine ⟨hlen, ?_, hreceive, hiff⟩
  rw [hgas]
  exact Nat.le_add_right _ _

theorem validateState_gas {db : StateDB} {root : Hash}
    (h : n.validateState block db receipts = .ok root) :
    db.block.gasUsed = block.gasUsed ∧ db.block.xShardReceiveGasUsed = block.crossShardGasUsed := by
  unfold validateState at h
  split_ifs at h with h₁ h₂ h₃ h₄ h₅ h₆
  exact ⟨by simpa using Eq.symm (not_ne_iff.mp h₁), not_ne_iff.mp h₆⟩

/-- **When the receipts of a block add up**: for an accepted block whose gas fits a receipt, exactly when
no cross-shard transaction comes after a deposit or a transaction that used gas. -/
theorem receiptsConsistent_iff {env : Header → Env} {fuel : ℕ} {v : Verdict}
    (hn : n.machine = fun header => Vm.machine (env header)) (h : n.acceptBlock fuel block = .ok v)
    (hfits : block.gasUsed < 2 ^ 64) :
    n.ReceiptsConsistent block v.receipts ↔
      n.CrossShardFirst block.crossShardGasUsed block.transactions := by
  have hm := sound_node hn
  obtain ⟨r, hrun, h⟩ := bind_eq_ok.mp h
  obtain ⟨root, hvalid, h⟩ := bind_eq_ok.mp h
  cases h
  obtain ⟨⟨txList, xReceipts, w⟩, hdeposits, hrun⟩ := bind_eq_ok.mp hrun
  obtain ⟨⟨w', receipts, usedGas⟩, hprocess, hrun⟩ := bind_eq_ok.mp hrun
  cases hrun
  obtain ⟨hc, hreceive, -, hadd⟩ := runDeposits_spec hm hdeposits
  obtain ⟨hlen, hle, hkept, hiff⟩ := process_spec hm hc hprocess
  obtain ⟨hgas, hxgas⟩ := validateState_gas hvalid
  have hdeposited : w.db.block.gasUsed = block.crossShardGasUsed := by
    rw [← hreceive, ← hkept, hxgas]
  dsimp only at hgas hle hiff
  rw [hgas, hdeposited] at hiff hle
  rw [hdeposited] at hadd
  have htake : (receipts ++ xReceipts).take block.transactions.length = receipts := by
    rw [← hlen, List.take_left]
  have hdrop : (receipts ++ xReceipts).drop block.transactions.length = xReceipts := by
    rw [← hlen, List.drop_left]
  rw [← hiff hfits, ← addUp_iff]
  constructor
  · intro hcons
    have := hcons.transactions
    rwa [htake] at this
  · intro hsum
    refine ⟨?_, fun henabled => ?_⟩
    · rw [htake]
      exact hsum
    · rw [hdrop]
      exact addUp_iff.mpr (hadd (by omega) henabled)

end Node

/-! ### A receipt with the gas of the whole block -/

def crossTransfers : List EvmTransaction :=
  [sampleTransaction 7 [] nil_length_lt,
    { sampleTransaction 7 [] nil_length_lt with hash := 21, nonce := 1 }]

def crossBlock (txs : List EvmTransaction) (gasUsed : ℕ) : MinorBlock :=
  { sampleBlock (sampleTransaction 7 [] nil_length_lt) gasUsed with transactions := txs }

theorem sampleNode_machine : (sampleNode 0 1).machine = fun _ => machine sampleEnv := rfl

/-- With one transfer, and no deposits before it, the receipt adds up. -/
theorem crossTransfer_consistent : ∃ v,
    (sampleNode 0 1).acceptBlock 2 (crossBlock (crossTransfers.take 1) 21000) = .ok v ∧
      (sampleNode 0 1).ReceiptsConsistent (crossBlock (crossTransfers.take 1) 21000) v.receipts := by
  have hok : ∃ v, (sampleNode 0 1).acceptBlock 2 (crossBlock (crossTransfers.take 1) 21000) = .ok v ∧
      v.receipts.length = 1 := exists_ok_of_test (by decide +kernel)
  obtain ⟨v, hv, -⟩ := hok
  refine ⟨v, hv, (Node.receiptsConsistent_iff sampleNode_machine hv (by decide)).mpr ⟨?_, ?_⟩⟩
  · intro tx _ _
    rfl
  · intro tx htx
    cases htx

/-- **A receipt with the gas of the whole block**: with two transfers to the other shard, each of which
costs the block 21000 gas, the second receipt says 42000. -/
theorem crossTransfers_gas : ∃ v,
    (sampleNode 0 1).acceptBlock 2 (crossBlock crossTransfers 42000) = .ok v ∧
      v.receipts.map (fun r => (r.cumulativeGasUsed, r.gasUsed)) = [(21000, 21000), (42000, 42000)] ∧
      ¬(sampleNode 0 1).ReceiptsConsistent (crossBlock crossTransfers 42000) v.receipts := by
  have hok : ∃ v, (sampleNode 0 1).acceptBlock 2 (crossBlock crossTransfers 42000) = .ok v ∧
      v.receipts.map (fun r => (r.cumulativeGasUsed, r.gasUsed)) = [(21000, 21000), (42000, 42000)] :=
    exists_ok_of_test (by decide +kernel)
  obtain ⟨v, hv, hgas⟩ := hok
  refine ⟨v, hv, hgas, fun hcons => ?_⟩
  have hused : v.receipts.map Receipt.gasUsed = [21000, 42000] := by
    have hsnd := congrArg (List.map Prod.snd) hgas
    rw [List.map_map] at hsnd
    exact hsnd
  have hsum := hcons.transactions.sum
  rw [List.map_take, hused] at hsum
  exact absurd hsum (by decide)

end QuarkChain.Core
