/-
# Deposits at their destination

A deposit that fails to apply fails in every later block of its destination too, since the cursor never
moves past it.  `applyCrossShardDeposit_post` shows that applying one returns without an error whatever
the deposit is.  What is left is a panic of the virtual machine: `deploySystemContract` looks up a contract by
an index that its caller chooses, and an index that is negative as a signed integer is not in the table
(`Core.Destination`).
-/
import QuarkChain.Core.Progress
import QuarkChain.State.Revert

namespace QuarkChain.Core

open QuarkChain.Types State Vm Outcome

section

variable {m : Machine} {Bad : Stop → Prop} {cfg : ChainConfig} {header : Header}
  {tx : CrossShardTransactionDeposit} {usedGas txIndex : ℕ} {checkIsFromRootChain : Bool} {w : World}

theorem gasUsedStart_le : gasUsedStart tx checkIsFromRootChain ≤ gtxxShardCost := by
  unfold gasUsedStart
  split_ifs <;> simp

theorem proceeds_creditDeposit (h : w.db.Consistent) (start : ℕ) :
    Proceeds w { w with db := creditDeposit cfg tx start w.db } start [] := by
  have hadd : w.Above { w with db := w.db.addBalance tx.to.recipient tx.value tx.transferTokenID } :=
    StateDB.above_addBalance h
  have hgas := (proceeds_addGasUsed hadd.consistent start).after hadd
  have hfee := hgas.trans (proceeds_addBlockFee hgas.consistent tx.gasTokenID
    (cfg.localFee (tx.gasPrice * gtxxShardCost)))
  rw [Nat.add_zero, List.append_nil] at hfee
  exact hfee.before (StateDB.above_addBalance hfee.consistent)

theorem proceeds_depositState (h : w.db.Consistent) :
    Proceeds w { w with db := depositState header tx txIndex w.db } 0 [] := by
  have hkey := proceeds_setFullShardKey h tx.to.fullShardKey
  have hadd : World.Above { w with db := w.db.setFullShardKey tx.to.fullShardKey }
      { w with
        db := (w.db.setFullShardKey tx.to.fullShardKey).addBalance tx.from.recipient tx.value
          tx.transferTokenID } :=
    (StateDB.above_addBalance hkey.consistent :)
  have hcredit := hkey.before hadd
  exact hcredit.trans (proceeds_prepare hcredit.consistent tx.txHash header.hash txIndex)

end

/-! ### A deposit that blocks its destination -/

def twoChains (rootHeight : ℕ) : Config.QuarkChainConfig where
  shards :=
    [{ chainID := 0, shardSize := 1, shardID := 0, genesis := some { rootHeight := 0, gasLimit := 200000 },
       maxBlocksPerShardInOneRootBlock := 1 },
     { chainID := 1, shardSize := 1, shardID := 0, genesis := some { rootHeight, gasLimit := 200000 },
       maxBlocksPerShardInOneRootBlock := 1 }]
  defaultChainTokenID := 0
  xShardGasDDOSFixRootHeight := 0
  shards_nodup := by
    simp only [List.map_cons, List.map_nil, Config.ShardConfig.getFullShardId]
    decide

def sampleConfig (rootHeight : ℕ) : ChainConfig where
  quarkchain := twoChains rootHeight
  networkID := 1
  ethChainID := 2
  enableEvmTimeStamp := 0
  enableEIP155SignerTimestamp := 0
  localFeeRateNum := 1
  localFeeRateDenom := 2
  minMiningGasPrice := 0

def sampleEnv : Env where
  defaultChainTokenID := 0
  chainID := 0
  enableTime _ := 0
  bytecode _ := []
  timestamp _ := 0
  createAddress a _ _ := a
  createAddress2 a _ _ := a
  cryptoGas _ _ := 0
  crypto _ _ := none
  interp _ _ _ := .stop []

def sampleParent : MinorBlock :=
  { (default : MinorBlock) with
    hash := 10, branch := ⟨1⟩, coinbase := ⟨9, 0⟩, prevRootBlockHash := 1, gasLimit := 200000
    xShardGasLimit := 100000, xShardTxCursorInfo := ⟨2, 0, 0⟩ }

/-- Proof of staked work is on, with a window of one block before the next one. -/
def samplePosw : Posw.POSWConfig where
  enabled := true
  enableTimestamp := 0
  diffDivider := 20
  windowSize := 2
  totalStakePerBlock := 5
  boostTimestamp := 0
  boostMultiplierPerStep := 2
  boostSteps := 10
  boostStepInterval := 43200

def sampleNode (rootHeight rootTipNumber : ℕ) : Node where
  cfg := sampleConfig rootHeight
  branch := ⟨1⟩
  rootTipNumber := rootTipNumber
  getRootBlockByHash hash :=
    if hash = 1 then
      some { hash := 1, parentHash := 0, number := 1, coinbase := ⟨0, 0⟩, coinbaseAmount := ∅,
             minorBlockHeaders := [] }
    else none
  readCrossShardTxList _ := none
  getMinorBlock hash := if hash = 10 then some sampleParent else none
  stateAt _ := some fun _ => none
  posw := samplePosw
  hReader := .ofList [sampleParent.iBlock] (by decide) (by decide)
  hReader_eq hash := by
    by_cases h : hash = 10
    · subst h
      rfl
    · rw [if_neg h]
      exact List.find?_eq_none.mpr fun b hb => by
        obtain rfl := List.mem_singleton.mp hb
        exact fun heq => h (of_decide_eq_true heq).symm
  coinbaseAddrCache _ := none
  getCoinbaseAmount _ := 0
  digests := { rootHash := fun _ => 0, createBloom := fun _ => 0, deriveSha := fun _ => 0 }
  machine _ := machine sampleEnv

def sampleTransaction (recipient : Recipient) (data : List UInt8) (h : data.length < 2 ^ 32) :
    EvmTransaction :=
  { (default : EvmTransaction) with
    hash := 20, gas := 60000, «to» := some recipient, data := data, networkId := 1, toFullShardKey := 65536,
    sender := fun _ => some 17, data_length := h }

def sampleBlock (tx : EvmTransaction) (gasUsed : ℕ) : MinorBlock :=
  { sampleParent with
    hash := 11, parentHash := 10, number := 1, time := 1, transactions := [tx], gasUsed := gasUsed
    coinbaseAmount := Finmap.singleton 0 0 }

def sampleDeposit (recipient : Recipient) (data : List UInt8) : CrossShardTransactionDeposit where
  txHash := 20
  «from» := ⟨17, 0⟩
  «to» := ⟨recipient, 65536⟩
  value := 0
  gasPrice := 0
  gasTokenID := 0
  transferTokenID := 0
  isFromRootChain := false
  gasRemained := 29808
  messageData := data
  refundRate := 100

end QuarkChain.Core
