/-
# What the verdict on a block depends on

Two nodes that have the same below a minor block execute it alike: delivery reads the root blocks that its
prev-root block leads to, and nothing else of the root chain, and the locked stakes are those of the miners of its
ancestors, whatever the cache of coinbases holds.  There are two exceptions.  `validateTx` looks for the target of a
cross-shard transaction among the shards that are initialised, and are neighbours, at the local root tip.  And with a
window of size one, `BuildSenderDisallowMap` panics on a node that has the list of the block before in its cache.
-/
import QuarkChain.Core.Receipts

namespace QuarkChain.XShard

open QuarkChain.Types Resumable XShardTxCursor Outcome

/-! ### The root blocks that delivery reads -/

/-- The blocks that the cursor looks up from a root block are in the set. -/
def Inside (R : Hash → Prop) (r : RootBlock) : Prop :=
  R r.hash ∧ R r.parentHash ∧ ∀ h ∈ r.minorBlockHeaders, R h.prevRootBlockHash

def XShardTxCursor.Inside (R : Hash → Prop) (x : XShardTxCursor) : Prop :=
  (∀ r ∈ x.maxRootBlockHeader, XShard.Inside R r) ∧ ∀ r ∈ x.rBlock, XShard.Inside R r

/-- The chain with other root blocks. -/
abbrev MinorBlockChain.withRoots (bc : MinorBlockChain) (get : Hash → Option RootBlock) : MinorBlockChain :=
  { bc with getRootBlockByHash := get }

section

variable {bc : MinorBlockChain} {R : Hash → Prop} {get : Hash → Option RootBlock} {r : RootBlock}
  {x : XShardTxCursor} {h : Hash} (hclosed : ∀ h r, R h → bc.getRootBlockByHash h = some r → Inside R r)
  (hsame : ∀ h, R h → get h = bc.getRootBlockByHash h)

include hclosed hsame

theorem walkDown_alike {height fuel : ℕ} (hr : Inside R r) :
    Alike (Inside R) ((bc.withRoots get).walkDown height fuel r) (bc.walkDown height fuel r) := by
  induction fuel generalizing r with
  | zero =>
    unfold MinorBlockChain.walkDown
    split_ifs
    · exact alike_ok hr
    · exact alike_error
  | succ fuel ih =>
    unfold MinorBlockChain.walkDown
    split_ifs
    · exact alike_ok hr
    dsimp only
    rw [hsame _ hr.2.1]
    cases hp : bc.getRootBlockByHash r.parentHash with
    | none => exact alike_error
    | some p => exact ih (hclosed _ p hr.2.1 hp)

theorem getRootBlockByHeight_alike (height : ℕ) (hh : R h) :
    Alike (fun o => ∀ r ∈ o, Inside R r) ((bc.withRoots get).getRootBlockByHeight h height)
      (bc.getRootBlockByHeight h height) := by
  unfold MinorBlockChain.getRootBlockByHeight
  dsimp only
  rw [hsame h hh]
  cases hr : bc.getRootBlockByHash h with
  | none => exact alike_ok nofun
  | some r =>
    dsimp only
    split_ifs
    · exact alike_ok nofun
    obtain ⟨heq, hin⟩ := walkDown_alike hclosed hsame (hclosed h r hh hr)
    rw [heq]
    refine ⟨rfl, fun o ho r' hr' => ?_⟩
    obtain ⟨p, hp, rfl⟩ := map_eq_ok.mp ho
    cases hr'
    exact hin _ hp

theorem nextRootBlock_alike (hx : x.Inside R) :
    Alike (fun o => o.2.Inside R) (nextRootBlock (bc.withRoots get) r x) (nextRootBlock bc r x) := by
  unfold nextRootBlock
  obtain ⟨hmax, -⟩ := hx
  cases x with | mk max
  cases max with
  | none => exact alike_error
  | some max =>
    obtain ⟨heq, hin⟩ := getRootBlockByHeight_alike hclosed hsame (r.number + 1) (hmax max rfl).1
    dsimp only
    rw [heq]
    rcases hr : bc.getRootBlockByHeight max.hash (r.number + 1) with e | _ | r'
    · exact alike_error
    · exact alike_ok ⟨hmax, nofun⟩
    have hr' := (hin _ hr r' rfl).1
    dsimp only
    rw [hsame _ hr']
    refine ⟨rfl, fun o h => ?_⟩
    split at h
    · cases h
    · cases h
      exact ⟨hmax, fun r hr => hclosed _ r hr' hr⟩

theorem iterateMinorBlocks_alike {hs : List MinorBlockHeader} (hhs : ∀ h ∈ hs, R h.prevRootBlockHash)
    (hx : x.Inside R) :
    Alike (fun o => o.2.Inside R) (iterateMinorBlocks (bc.withRoots get) r x hs) (iterateMinorBlocks bc r x hs) := by
  induction hs generalizing x with
  | nil => exact nextRootBlock_alike hclosed hsame hx
  | cons h hs ih =>
    obtain ⟨hh, hhs⟩ := List.forall_mem_cons.mp hhs
    have hneighbor : (bc.withRoots get).isNeighbor = bc.isNeighbor := rfl
    have hgenesis : (bc.withRoots get).getGenesisRootHeight = bc.getGenesisRootHeight := rfl
    have hcurrent : getCurrentTx (bc.withRoots get) = getCurrentTx bc := rfl
    unfold iterateMinorBlocks
    simp only [hsame _ hh, hneighbor, hgenesis, hcurrent]
    split
    · split
      · exact alike_error
      · exact ih hhs hx
    split
    · exact alike_error
    split
    · split
      · exact alike_error
      split
      · exact alike_error
      · exact ih hhs hx
    split
    · exact alike_error
    · exact alike_ok hx
    · split
      · exact alike_error
      · exact ih hhs hx

theorem getNextTx_alike (hx : x.Inside R) :
    Alike (fun o => o.2.Inside R) (getNextTx (bc.withRoots get) x) (getNextTx bc x) := by
  have hcurrent : getCurrentTx (bc.withRoots get) = getCurrentTx bc := rfl
  unfold getNextTx
  simp only [hcurrent]
  rcases hr : x.rBlock with _ | r
  · exact alike_ok hx
  have hin : ∀ r' ∈ some r, Inside R r' := hr ▸ hx.2
  dsimp only
  split
  · exact alike_error
  · exact alike_ok ⟨hx.1, hin⟩
  · exact iterateMinorBlocks_alike hclosed hsame
      (fun h hh => (hin r rfl).2.2 h (List.mem_of_mem_drop hh)) ⟨hx.1, hin⟩

theorem newXShardTxCursor_alike (c : XShardTxCursorInfo) (hh : R h) :
    Alike (XShardTxCursor.Inside R) (newXShardTxCursor (bc.withRoots get) h c) (newXShardTxCursor bc h c) := by
  obtain ⟨heq, hin⟩ := getRootBlockByHeight_alike hclosed hsame c.rootBlockHeight hh
  unfold newXShardTxCursor
  dsimp only
  rw [heq, hsame h hh]
  have hmax : ∀ r ∈ bc.getRootBlockByHash h, Inside R r := fun r hr => hclosed h r hh hr
  rcases hr : bc.getRootBlockByHeight h c.rootBlockHeight with e | _ | r
  · exact alike_error
  · exact alike_ok ⟨hmax, nofun⟩
  have hr' := (hin _ hr r rfl).1
  dsimp only
  rw [hsame _ hr']
  have hx : ∀ r' ∈ bc.getRootBlockByHash r.hash, Inside R r' := fun r' h => hclosed _ r' hr' h
  split_ifs
  · exact alike_ok ⟨hmax, hx⟩
  split
  · exact alike_error
  split
  · exact alike_error
  · exact alike_ok ⟨hmax, hx⟩

variable {S W E : Type} {eng : DepositEngine S W E} {cursorOf : Hash → Option XShardTxCursorInfo}
  {fuel : ℕ}
  {evmState : S} {mBlock : MinorBlockInput}

/-- **Delivery reads the root blocks that the prev-root block leads to,** and no others. -/
theorem runCrossShardTxWithCursor_withRoots (hh : R mBlock.prevRootBlockHash) :
    runCrossShardTxWithCursor (bc.withRoots get) eng cursorOf fuel evmState mBlock =
      runCrossShardTxWithCursor bc eng cursorOf fuel evmState mBlock := by
  unfold runCrossShardTxWithCursor
  rcases cursorOf mBlock.parentHash with _ | c
  · rfl
  obtain ⟨heq, hin⟩ := newXShardTxCursor_alike hclosed hsame c hh
  dsimp only
  rw [heq]
  rcases hx : newXShardTxCursor bc mBlock.prevRootBlockHash c with e | x
  · rfl
  have hnext : ∀ x : XShardTxCursor, x.Inside R →
      nextDeposit (E := E) (bc.withRoots get) x = nextDeposit bc x ∧
        ∀ o, nextDeposit (E := E) bc x = .ok o → o.2.Inside R := by
    intro x hx
    obtain ⟨heq, hin⟩ := getNextTx_alike hclosed hsame hx
    unfold nextDeposit
    rw [heq]
    exact ⟨rfl, fun o h => hin o (mapError_eq_ok.mp h)⟩
  dsimp only
  rw [drain_congr hnext (hin x hx)]
  rfl

end

end QuarkChain.XShard

namespace QuarkChain.Core.Node

open QuarkChain.Types State Vm Outcome

/-- Two nodes have the same below a block: its ancestors and the state at its parent, the deposit lists, and the
root blocks up to its prev-root block, with all that the cursor looks up from them. -/
structure SameBelow (n n' : Node) (block : MinorBlock) : Prop where
  cfg : n'.cfg = n.cfg
  posw : n'.posw = n.posw
  branch : n'.branch = n.branch
  machine : n'.machine = n.machine
  digests : n'.digests = n.digests
  getCoinbaseAmount : n'.getCoinbaseAmount = n.getCoinbaseAmount
  ancestors : ∃ A : Hash → Prop, A block.parentHash ∧
    (∀ h b, A h → n.getMinorBlock h = some b → A b.parentHash) ∧
    ∀ h, A h → n'.getMinorBlock h = n.getMinorBlock h
  state : ∀ parent, n.getMinorBlock block.parentHash = some parent → n'.stateAt parent.root = n.stateAt parent.root
  lists : n'.readCrossShardTxList = n.readCrossShardTxList
  rootBlocks : ∃ R : Hash → Prop, R block.prevRootBlockHash ∧
    (∀ h r, R h → n.getRootBlockByHash h = some r → XShard.Inside R r) ∧
    ∀ h, R h → n'.getRootBlockByHash h = n.getRootBlockByHash h

/-- The target of a cross-shard transaction is initialised and a neighbour at the local root tip. -/
def TargetOk (n : Node) (tx : EvmTransaction) : Prop :=
  ∀ sized, n.setShardSizes tx = .ok sized → n.checkTarget sized = none

/-- The cache of coinbases is what queries have left in it, after any evictions. -/
def CacheReached (n : Node) : Prop :=
  ∃ cache keep, Posw.Reached n.hReader n.posw.windowSize cache ∧ n.coinbaseAddrCache = cache.evict keep

/-- With a window of size one the list of the block before the parent is not in the cache. -/
def WindowOk (n : Node) (block : MinorBlock) : Prop :=
  n.posw.enabled = true → n.posw.windowSize = 1 → ∀ parent, n.getMinorBlock block.parentHash = some parent →
    n.coinbaseAddrCache parent.parentHash = none

theorem CacheReached.coherent {n : Node} (h : n.CacheReached) (hlen : 0 ≤ Posw.windowLength n.posw.windowSize) :
    Posw.Coherent n.hReader (Posw.windowLength n.posw.windowSize).toNat n.coinbaseAddrCache := by
  obtain ⟨cache, keep, hreached, heq⟩ := h
  rw [heq]
  exact (hreached.coherent hlen).evict keep

variable {n n' : Node} {block : MinorBlock} {fuel i : ℕ} {tx : EvmTransaction} {p p' q : Progress}

variable (h : SameBelow n n' block)
include h

theorem SameBelow.parent : n'.getMinorBlock block.parentHash = n.getMinorBlock block.parentHash := by
  obtain ⟨A, hA, -, hsame⟩ := h.ancestors
  exact hsame _ hA

/-- The coinbases below the block are the same. -/
theorem SameBelow.lastCoinbases (k : ℕ) : Posw.lastCoinbases n'.hReader k block.parentHash =
    Posw.lastCoinbases n.hReader k block.parentHash := by
  obtain ⟨A, hA, hclosed, hsame⟩ := h.ancestors
  refine Posw.lastCoinbases_congr (A := A) (fun h b hh hbh => ?_) (fun h hh => ?_) hA k
  · rw [n.hReader_eq] at hbh
    obtain ⟨mb, hmb, rfl⟩ := Option.map_eq_some_iff.mp hbh
    exact hclosed h mb hh hmb
  · rw [n.hReader_eq, n'.hReader_eq, hsame h hh]

/-- **The state before a block on two nodes.** -/
theorem SameBelow.getEvmStateForNewBlock {db : StateDB} (hc : n.CacheReached) (hc' : n'.CacheReached)
    (hok : n.getEvmStateForNewBlock block = .ok db) :
    OkIff (n'.getEvmStateForNewBlock block) db (n'.WindowOk block) := by
  unfold Node.getEvmStateForNewBlock WindowOk at *
  rw [h.parent]
  cases hp : n.getMinorBlock block.parentHash with
  | none =>
    rw [hp] at hok
    cases hok
  | some parent =>
    rw [hp] at hok
    dsimp only at hok ⊢
    rw [h.state parent hp]
    cases htrie : n.stateAt parent.root with
    | none =>
      rw [htrie] at hok
      cases hok
    | some trie =>
      rw [htrie] at hok
      dsimp only at hok ⊢
      have hread : n.hReader.getBlock block.parentHash = some parent.iBlock := by
        rw [n.hReader_eq, hp]
        rfl
      have hhash : parent.hash = block.parentHash := n.hReader.consistent.keyed hread
      have hb : n.hReader.getBlock parent.hash = some parent.iBlock := hhash ▸ hread
      have hb' : n'.hReader.getBlock parent.hash = some parent.iBlock := by
        rw [n'.hReader_eq, hhash, h.parent, hp]
        rfl
      cases hmap : (Posw.buildSenderDisallowMap n.hReader n.posw n.coinbaseAddrCache parent.hash
          (some block.coinbase.recipient)).1 with
      | error e =>
        rw [hmap] at hok
        cases hok
      | ok map =>
        rw [hmap] at hok
        have hcoherent := hc'.coherent
        rw [h.posw] at hcoherent ⊢
        cases hok
        have hiff := Posw.buildSenderDisallowMap_okIff hc.coherent hcoherent hb hb'
          (hhash ▸ h.lastCoinbases) hmap
        intro q
        cases hmap' : (Posw.buildSenderDisallowMap n'.hReader n.posw n'.coinbaseAddrCache parent.hash
            (some block.coinbase.recipient)).1 with
        | error e =>
          refine okIff_error (fun hwindow => ?_) q
          cases hmap'.symm.trans ((hiff map).mpr ⟨rfl, fun hon hone => hwindow hon hone parent rfl⟩)
        | ok map' =>
          obtain ⟨rfl, hwindow⟩ := (hiff map').mp hmap'
          refine okIff_ok (fun hon hone p hpp => ?_) q
          cases hpp
          exact hwindow hon hone

theorem SameBelow.runDeposits {x : List CrossShardTransactionDeposit × List Receipt × World}
    (hc : n.CacheReached) (hc' : n'.CacheReached) (hok : n.runDeposits fuel block = .ok x) :
    OkIff (n'.runDeposits fuel block) x (n'.WindowOk block) := by
  obtain ⟨R, hR, hclosed, hsame⟩ := h.rootBlocks
  have hchain : n'.chain = { n.chain with getRootBlockByHash := n'.getRootBlockByHash } := by
    unfold chain
    rw [h.cfg, h.branch, h.lists]
  have hengine : n'.depositEngine = n.depositEngine := by
    unfold depositEngine
    rw [h.cfg, h.machine]
  have hrun (w : World) : n'.runCrossShardTxWithCursor fuel block w = n.runCrossShardTxWithCursor fuel block w := by
    unfold runCrossShardTxWithCursor
    rw [hchain, hengine, XShard.runCrossShardTxWithCursor_withRoots hclosed hsame hR]
    unfold XShard.runCrossShardTxWithCursor
    dsimp only
    rw [h.parent]
  obtain ⟨db, hdb, hok⟩ := bind_eq_ok.mp hok
  unfold Node.runDeposits
  simp only [hrun]
  exact (h.getEvmStateForNewBlock hc hc' hdb).bind hok

theorem SameBelow.setShardSizes : n'.setShardSizes tx = n.setShardSizes tx := by
  unfold Node.setShardSizes
  rw [h.cfg]

theorem SameBelow.checkTx {x t : ℕ} (hok : n.checkTx tx x t = none) :
    n'.checkTx tx x t = n'.checkTarget tx := by
  unfold Node.checkTx checkTxWithVersion2 at hok ⊢
  rw [h.cfg, h.branch]
  generalize n.checkTarget tx = target at hok
  generalize n'.checkTarget tx = target'
  rcases target' with _ | e <;> rcases target with _ | e <;> split_ifs at hok ⊢ <;> rfl

/-- **One transaction on two nodes.** -/
theorem SameBelow.processTx (hok : n.processTx block i tx p = .ok p') :
    OkIff (n'.processTx block i tx p) p' (n'.TargetOk tx) := by
  intro q
  unfold Node.processTx validateTx TargetOk at *
  rw [h.setShardSizes, h.cfg, h.machine]
  rcases hsizes : n.setShardSizes tx with e | sized
  · rw [hsizes] at hok
    cases hok
  rw [hsizes] at hok
  dsimp only at hok ⊢
  cases hcheck : n.checkTx sized (block.xShardGasLimit % 2 ^ 64) p.world.db.block.timeStamp with
  | some e =>
    rw [hcheck] at hok
    cases hok
  | none =>
    rw [h.checkTx hcheck]
    rw [hcheck] at hok
    cases htarget : n'.checkTarget sized with
    | some e =>
      refine iff_of_false nofun fun ⟨_, hnone⟩ => ?_
      cases htarget.symm.trans (hnone sized rfl)
    | none =>
      dsimp only at hok ⊢
      rw [hok]
      refine ⟨fun heq => ⟨(Except.ok.inj heq).symm, fun s hs => ?_⟩, fun ⟨heq, _⟩ => heq ▸ rfl⟩
      cases hs
      exact htarget

theorem SameBelow.processTxs {txs : List EvmTransaction}
    (hok : n.processTxs block i txs p = .ok p') :
    OkIff (n'.processTxs block i txs p) p' (∀ tx ∈ txs, n'.TargetOk tx) := by
  induction txs generalizing i p with
  | nil =>
    cases hok
    exact okIff_ok nofun
  | cons tx txs ih =>
    obtain ⟨p₁, hstep, hrest⟩ := bind_eq_ok.mp hok
    rw [List.forall_mem_cons]
    exact (h.processTx hstep).andThen (ih hrest)

theorem SameBelow.process {w : World} {x : World × List Receipt × ℕ}
    (hok : n.process block w = .ok x) :
    OkIff (n'.process block w) x (∀ tx ∈ block.transactions, n'.TargetOk tx) := by
  obtain ⟨p, htxs, hok⟩ := bind_eq_ok.mp hok
  unfold Node.process addCoinbaseAmount at *
  rw [h.cfg, h.getCoinbaseAmount]
  exact (h.processTxs htxs).bind hok

omit h

/-- **What a verdict depends on.**  What one node accepts, another one with the same below accepts just when the
targets of the cross-shard transactions pass at its own root tip, and a window of size one does not meet a cached
list; and then with the same verdict. -/
theorem acceptBlock_iff {v : Verdict} (h : SameBelow n n' block) (hc : n.CacheReached) (hc' : n'.CacheReached)
    (hv : n.acceptBlock fuel block = .ok v) :
    OkIff (n'.acceptBlock fuel block) v (n'.WindowOk block ∧ ∀ tx ∈ block.transactions, n'.TargetOk tx) := by
  have hvalidate : n'.validateState = n.validateState := by
    unfold validateState coinbaseAmount
    rw [h.cfg, h.getCoinbaseAmount, h.digests]
  obtain ⟨r, hrun, hv⟩ := bind_eq_ok.mp hv
  obtain ⟨⟨txList, xReceipts, w⟩, hdeposits, hrun⟩ := bind_eq_ok.mp hrun
  obtain ⟨x, hprocess, hrun⟩ := bind_eq_ok.mp hrun
  unfold acceptBlock runBlock
  rw [hvalidate]
  exact ((h.runDeposits hc hc' hdeposits).andThen ((h.process hprocess).bind hrun)).bind hv

theorem sampleNode_sameBelow (rootHeight tip tip' : ℕ) :
    SameBelow (sampleNode rootHeight tip) (sampleNode rootHeight tip') block :=
  ⟨rfl, rfl, rfl, rfl, rfl, rfl, ⟨fun _ => True, trivial, fun _ _ _ _ => trivial, fun _ _ => rfl⟩, fun _ _ => rfl,
    rfl, fun _ => True, trivial, fun _ _ _ _ => ⟨trivial, trivial, fun _ _ => trivial⟩, fun _ _ => rfl⟩

theorem sampleNode_cacheReached (rootHeight tip : ℕ) : (sampleNode rootHeight tip).CacheReached :=
  ⟨fun _ => none, fun _ => true, ⟨[], rfl⟩, rfl⟩

/-- With tips at which both shards are initialised the verdict is the same. -/
theorem sampleNodes_agree : ∃ v,
    (sampleNode 0 1).acceptBlock 2 (crossBlock (crossTransfers.take 1) 21000) = .ok v ∧
      (sampleNode 0 2).acceptBlock 2 (crossBlock (crossTransfers.take 1) 21000) = .ok v := by
  have hok : ∃ v, (sampleNode 0 1).acceptBlock 2 (crossBlock (crossTransfers.take 1) 21000) = .ok v ∧
      v.receipts.length = 1 := exists_ok_of_test (by decide +kernel)
  obtain ⟨v, hv, -⟩ := hok
  refine ⟨v, hv, (acceptBlock_iff (sampleNode_sameBelow 0 1 2) (sampleNode_cacheReached 0 1)
    (sampleNode_cacheReached 0 2) hv v).mpr ⟨rfl, nofun, fun tx htx sized hsized => ?_⟩⟩
  obtain rfl := List.mem_singleton.mp htx
  cases hsized
  decide +kernel

/-- **A verdict that depends on the root tip:** the second shard starts at root height one. -/
theorem sampleNodes_disagree : (∃ v,
    (sampleNode 1 2).acceptBlock 2 (crossBlock (crossTransfers.take 1) 21000) = .ok v ∧ v.receipts.length = 1) ∧
      ∀ v, (sampleNode 1 1).acceptBlock 2 (crossBlock (crossTransfers.take 1) 21000) ≠ .ok v := by
  have hrefused : ((sampleNode 1 1).acceptBlock 2 (crossBlock (crossTransfers.take 1) 21000)).isOk = false := by
    decide +kernel
  refine ⟨exists_ok_of_test (by decide +kernel), fun v hv => ?_⟩
  rw [hv] at hrefused
  cases hrefused

end QuarkChain.Core.Node
