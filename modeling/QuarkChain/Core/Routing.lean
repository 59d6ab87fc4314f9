/-
# Routing the deposits of a block

`getBranchToAddXshardTxListRequest` and `BroadcastXshardTxList` of `src/cluster/slave/conn_manager.go`: there is
a request for every shard that is initialised at the height of the block's prev-root block, with the deposits
for that shard.  A deposit for any other shard is a panic, and one for a shard that is no neighbour at that
height is an error.  `validateTx` has looked at the local root tip instead, which may be higher.

`routed_iff_routable` is about any list of deposits.  With what `Core.Outgoing` says about the deposits of an accepted
block it becomes a condition on the block: on the target keys of its transactions, and on the receipts that its header
commits to (`accepted_routed_iff`).
-/
import QuarkChain.Core.Outgoing

namespace QuarkChain.Core

open Account Config QuarkChain.Types Outcome

inductive RouteStop
  | noSuchChainID
  | panicNotInMap
  | nonNeighbor
deriving DecidableEq

/-- The deposits of each request, by full shard id. -/
abbrev Requests := ℕ → Option (List CrossShardTransactionDeposit)

variable (q : QuarkChainConfig)

/-- The full shard id of the shard that a deposit is for. -/
def destination (sTx : CrossShardTransactionDeposit) : Option ℕ :=
  q.getFullShardIdByFullShardKey sTx.to.fullShardKey

def addToRequest (xshardMap : Requests) (sTx : CrossShardTransactionDeposit) : Except RouteStop Requests :=
  match destination q sTx with
  | none => .error .noSuchChainID
  | some fullShardID =>
      match xshardMap fullShardID with
      | none => .error .panicNotInMap
      | some txList => .ok (Function.update xshardMap fullShardID (some (txList ++ [sTx])))

def getBranchToAddXshardTxListRequest (xshardTxList : List CrossShardTransactionDeposit) (height : ℕ) :
    Except RouteStop Requests :=
  xshardTxList.foldlM (addToRequest q) fun id =>
    if id ∈ q.getInitializedShardIdsBeforeRootHeight height then some [] else none

/-- No request is sent to the shard. -/
def skipped (branch : Branch) (height id : ℕ) : Bool :=
  id == branch.value || !q.isNeighborAt branch ⟨id⟩ height

/-- `BroadcastXshardTxList`: the requests that are sent. -/
def broadcastXshardTxList (branch : Branch) (xshardTxList : List CrossShardTransactionDeposit) (height : ℕ) :
    Except RouteStop Requests := do
  let requests ← getBranchToAddXshardTxListRequest q xshardTxList height
  if (q.getInitializedShardIdsBeforeRootHeight height).any fun id =>
      skipped q branch height id && requests id != some [] then .error .nonNeighbor
  else .ok fun id => if skipped q branch height id then none else requests id

/-- Requests are sent that hold every deposit, each in the request to the shard of its destination only. -/
def Routed (branch : Branch) (xshardTxList : List CrossShardTransactionDeposit) (height : ℕ) : Prop :=
  ∃ requests, broadcastXshardTxList q branch xshardTxList height = .ok requests ∧
    (∀ id txList, requests id = some txList → txList = xshardTxList.filter (destination q · = some id)) ∧
    ∀ sTx ∈ xshardTxList, ∃ id, destination q sTx = some id ∧ (requests id).isSome

/-- A full shard key can be routed to at the height: its shard is initialised there, and gets a request. -/
def Routable (branch : Branch) (height fullShardKey : ℕ) : Prop :=
  ∃ id, q.getFullShardIdByFullShardKey fullShardKey = some id ∧
    id ∈ q.getInitializedShardIdsBeforeRootHeight height ∧ skipped q branch height id = false

variable {q} {branch : Branch} {l : List CrossShardTransactionDeposit} {height : ℕ} {m m' : Requests}

/-- The loop over the deposits goes through exactly if every destination has a request, and then appends to each
request the deposits for its shard. -/
theorem foldlM_addToRequest : l.foldlM (addToRequest q) m = .ok m' ↔
    (∀ d ∈ l, ∃ id, destination q d = some id ∧ (m id).isSome) ∧
      m' = fun id => (m id).map (· ++ l.filter (destination q · = some id)) := by
  induction l generalizing m with
  | nil =>
    have hm : (fun id => (m id).map (· ++ [])) = m := by simp
    simp only [List.filter_nil]
    rw [hm]
    exact ⟨fun h => ⟨nofun, (Except.ok.inj h).symm⟩, fun ⟨_, h⟩ => h ▸ rfl⟩
  | cons d l ih =>
    rw [List.foldlM_cons, List.forall_mem_cons, addToRequest]
    rcases hd : destination q d with _ | id
    · exact iff_of_false nofun fun ⟨⟨⟨_, h, _⟩, _⟩, _⟩ => nomatch h
    dsimp only
    rcases hm : m id with _ | txList
    · refine iff_of_false nofun fun ⟨⟨⟨id', h, hsome⟩, _⟩, _⟩ => ?_
      cases h
      rw [hm] at hsome
      cases hsome
    have hsome (id' : ℕ) : (Function.update m id (some (txList ++ [d])) id').isSome = (m id').isSome := by
      rcases eq_or_ne id' id with rfl | hne
      · simp [hm]
      · rw [Function.update_of_ne hne]
    have hmap (id' : ℕ) : (Function.update m id (some (txList ++ [d])) id').map
        (· ++ l.filter (destination q · = some id')) =
          (m id').map (· ++ (d :: l).filter (destination q · = some id')) := by
      rcases eq_or_ne id' id with rfl | hne
      · simp [hm, hd]
      · rw [Function.update_of_ne hne, List.filter_cons_of_neg (by simpa [hd] using hne.symm)]
    refine ih.trans ?_
    simp only [hsome, hmap, Option.some.injEq, exists_eq_left', hm, Option.isSome_some, true_and]

theorem getBranchToAddXshardTxListRequest_eq_ok : getBranchToAddXshardTxListRequest q l height = .ok m ↔
    (∀ d ∈ l, ∃ id, destination q d = some id ∧ id ∈ q.getInitializedShardIdsBeforeRootHeight height) ∧
      m = fun id => if id ∈ q.getInitializedShardIdsBeforeRootHeight height then
        some (l.filter (destination q · = some id)) else none := by
  rw [getBranchToAddXshardTxListRequest, foldlM_addToRequest]
  simp [apply_ite Option.isSome, apply_ite (Option.map _)]

/-- **When a list of deposits can be routed:** exactly if the key of each of them can. -/
theorem routed_iff_routable :
    Routed q branch l height ↔ ∀ d ∈ l, Routable q branch height d.to.fullShardKey := by
  unfold Routed broadcastXshardTxList Routable
  constructor
  · rintro ⟨requests, hok, -, hall⟩ d hd
    obtain ⟨id, hid, hsome⟩ := hall d hd
    obtain ⟨m, hm, hok⟩ := bind_eq_ok.mp hok
    obtain ⟨-, rfl⟩ := getBranchToAddXshardTxListRequest_eq_ok.mp hm
    split_ifs at hok
    cases Except.ok.inj hok
    dsimp only at hsome
    split_ifs at hsome with hskip hin
    · cases hsome
    · exact ⟨id, hid, hin, eq_false_of_ne_true hskip⟩
    · cases hsome
  · intro hall
    have hm := getBranchToAddXshardTxListRequest_eq_ok.mpr
      ⟨fun d hd => (hall d hd).imp fun id h => ⟨h.1, h.2.1⟩, rfl⟩
    -- a request that is not sent is empty
    have hempty : ∀ id, skipped q branch height id = true → ∀ d ∈ l, ¬ destination q d = some id := by
      intro id hskip d hd hid
      obtain ⟨id', hid', -, hsent⟩ := hall d hd
      cases hid'.symm.trans hid
      exact absurd hskip (hsent ▸ Bool.false_ne_true)
    refine ⟨_, bind_eq_ok.mpr ⟨_, hm, if_neg ?_⟩, fun id txList h => ?_, fun d hd => ?_⟩
    · simpa +contextual using fun id _ => hempty id
    · split_ifs at h
      cases h
      rfl
    · obtain ⟨id, hid, hin, hsent⟩ := hall d hd
      exact ⟨id, hid, by simp [hsent, hin]⟩

/-- The receipts that a header commits to agree with those of the run on which transactions failed. -/
theorem map_failed_eq {receipts receipts' : List Receipt}
    (h : receipts.map Receipt.encode = receipts'.map Receipt.encode) :
    receipts.map Receipt.failed = receipts'.map Receipt.failed := by
  have hmap := congrArg (List.map ReceiptEncoding.failed) h
  rwa [List.map_map, List.map_map] at hmap

theorem validateState_receiptHash {n : Node} {block : MinorBlock} {db : State.StateDB} {receipts : List Receipt}
    {root : Hash} (h : n.validateState block db receipts = .ok root) :
    n.digests.deriveSha (receipts.map Receipt.encode) = block.receiptHash := by
  unfold Node.validateState at h
  split_ifs at h with h₁ h₂ h₃ h₄
  exact not_ne_iff.mp h₄

/-- Whether a transaction sends is determined by the committed receipts. -/
theorem exists_sends_of_map_failed {n : Node} {txs : List EvmTransaction} {receipts receipts' : List Receipt}
    (h : receipts.map Receipt.failed = receipts'.map Receipt.failed) {x : EvmTransaction × Receipt}
    (hx : x ∈ txs.zip receipts) (hsends : n.Sends x) : ∃ y ∈ txs.zip receipts', y.1 = x.1 ∧ n.Sends y := by
  obtain ⟨i, hi, rfl⟩ := List.mem_iff_getElem.mp hx
  rw [List.length_zip] at hi
  have hlen : receipts.length = receipts'.length := by simpa using congrArg List.length h
  have hi' : i < (txs.zip receipts').length := by
    rw [List.length_zip]
    omega
  refine ⟨(txs.zip receipts')[i], List.getElem_mem _, by simp, ?_⟩
  have hfailed : receipts[i].failed = receipts'[i].failed := by
    have hget := congrArg (·[i]?) h
    simpa [show i < receipts.length by omega, show i < receipts'.length by omega] using hget
  obtain ⟨hcross, hok⟩ := hsends
  simp only [List.getElem_zip] at hcross hok ⊢
  exact ⟨hcross, hfailed ▸ hok⟩

/-- **When the deposits of an accepted block can be routed** at a height, such as that of its prev-root block:
exactly if every cross-shard transaction of the block that succeeded, according to the receipts that the header
commits to, has a target that is initialised and a neighbour at that height.  `hhash` is that the receipt hash has one
preimage. -/
theorem accepted_routed_iff {n : Node} {env : Header → Vm.Env} {fuel : ℕ} {block : MinorBlock} {v : Node.Verdict}
    (height : ℕ) (hn : n.machine = fun header => Vm.machine (env header))
    (hhash : ∀ l l', n.digests.deriveSha l = block.receiptHash → n.digests.deriveSha l' = block.receiptHash → l = l')
    (h : n.acceptBlock fuel block = .ok v) :
    Routed n.cfg.quarkchain n.branch v.xShardList height ↔
      ∀ receipts, n.digests.deriveSha (receipts.map Receipt.encode) = block.receiptHash →
        ∀ x ∈ block.transactions.zip receipts, n.Sends x →
          Routable n.cfg.quarkchain n.branch height x.1.toFullShardKey := by
  have hdepartures := Node.acceptBlock_departures hn h
  have hcommitted : n.digests.deriveSha (v.receipts.map Receipt.encode) = block.receiptHash := by
    obtain ⟨r, -, h⟩ := bind_eq_ok.mp h
    obtain ⟨root, hvalid, h⟩ := bind_eq_ok.mp h
    cases h
    exact validateState_receiptHash hvalid
  rw [routed_iff_routable]
  constructor
  · intro hall receipts hreceipts x hx hsends
    obtain ⟨y, hy, hyx, hsends⟩ :=
      exists_sends_of_map_failed (map_failed_eq (hhash _ _ hreceipts hcommitted)) hx hsends
    obtain ⟨d, hd, hkey⟩ := hdepartures.all y hy hsends
    rw [← hyx, ← hkey]
    exact hall d hd
  · intro hall d hd
    obtain ⟨x, hx, hsends, hkey⟩ := hdepartures.sent d hd
    rw [hkey]
    exact hall v.receipts hcommitted x hx hsends

/-- The sample node with a digest of receipts that only one list maps to zero. -/
def digestNode (receipts : List ReceiptEncoding) : Node :=
  let n := sampleNode 0 1
  { n with digests := { n.digests with deriveSha := fun l => if l = receipts then 0 else 1 } }

/-- The receipt of the first of `crossTransfers`. -/
def crossReceipt : ReceiptEncoding where
  failed := false
  cumulativeGasUsed := 21000
  logs := []
  contractAddress := none
  contractFullShardKey := 65536

/-- A cross-shard transfer to a shard that was there from the start is routed at the height of the prev-root
block. -/
theorem early_shard_routed : ∃ v,
    (digestNode [crossReceipt]).acceptBlock 2 (crossBlock (crossTransfers.take 1) 21000) = .ok v ∧
      v.xShardList ≠ [] ∧ Routed (twoChains 0) ⟨1⟩ v.xShardList 1 := by
  have haccept : ∃ v,
      (digestNode [crossReceipt]).acceptBlock 2 (crossBlock (crossTransfers.take 1) 21000) = .ok v ∧
        v.xShardList ≠ [] := exists_ok_of_test (by decide +kernel)
  obtain ⟨v, hv, hne⟩ := haccept
  have hn : (digestNode [crossReceipt]).machine = fun _ => Vm.machine sampleEnv := rfl
  refine ⟨v, hv, hne, (accepted_routed_iff 1 hn ?_ hv).mpr ?_⟩
  · intro l l' hl hl'
    simp only [digestNode, crossBlock, sampleBlock] at hl hl'
    split_ifs at hl hl' with h₁ h₂
    · exact h₁.trans h₂.symm
    all_goals exact absurd ‹(1 : Hash) = 0› (by decide)
  · rintro receipts - ⟨tx, r⟩ hx -
    obtain rfl : tx = sampleTransaction 7 [] nil_length_lt := by
      simpa [crossBlock, crossTransfers] using (List.of_mem_zip hx).1
    refine ⟨65537, ?_⟩
    dsimp only
    decide +kernel

/-- **A deposit that cannot be routed.**  The second shard starts at root height one, so that it is initialised at
the local root tip, of height two, but not at the height of the prev-root block. -/
theorem late_shard_unroutable : ∃ v,
    (sampleNode 1 2).acceptBlock 2 (crossBlock (crossTransfers.take 1) 21000) = .ok v ∧
      (broadcastXshardTxList (twoChains 1) ⟨1⟩ v.xShardList 1).map (fun _ => ()) = .error .panicNotInMap :=
  exists_ok_of_test (by decide +kernel)

end QuarkChain.Core
