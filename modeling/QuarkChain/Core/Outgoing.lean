/-
# The deposits that a block leaves

`AppendXShardList` is called by `AddCrossShardTxDeposit` (`src/core/state_transition.go`) only, so the list that a
block hands to the other shards is determined by its cross-shard transactions: one that succeeds leaves a deposit for
the shard of its target key, and one that is refused because its sender is locked has a failed receipt and leaves
none.  `acceptBlock_departures` says so for every accepted block, in both directions.  A deposit never carries more
gas than its transaction had beyond the cost of the deposit itself, so adding that cost back does not wrap.
-/
import QuarkChain.Core.Receipts

namespace QuarkChain.Core.Node

open QuarkChain.Types State Vm Outcome

/-- The transaction is for another shard, and its receipt says that it succeeded. -/
def Sends (n : Node) (x : EvmTransaction × Receipt) : Prop := n.Crosses x.1 ∧ x.2.failed = false

/-- The deposits `out` are those of the transactions, which are given with their receipts. -/
structure Departures (n : Node) (txs : List (EvmTransaction × Receipt))
    (out : List CrossShardTransactionDeposit) : Prop where
  sent : ∀ d ∈ out, ∃ x ∈ txs, n.Sends x ∧ d.to.fullShardKey = x.1.toFullShardKey
  gas : ∀ d ∈ out, d.gasRemained + gtxxShardCost < 2 ^ 64
  all : ∀ x ∈ txs, n.Sends x → ∃ d ∈ out, d.to.fullShardKey = x.1.toFullShardKey

variable {n : Node} {tx sized : EvmTransaction} {r : Receipt} {block : MinorBlock}
  {out out' : List CrossShardTransactionDeposit} {txs : List (EvmTransaction × Receipt)}

theorem setShardSizes_toFullShardKey (h : n.setShardSizes tx = .ok sized) :
    sized.toFullShardKey = tx.toFullShardKey := by
  unfold setShardSizes at h
  split at h
  · cases h
  split_ifs at h
  split at h
  · cases h
  split_ifs at h
  cases h
  rfl

theorem departures_nil : n.Departures [] [] := ⟨nofun, nofun, nofun⟩

/-- One transaction and those after it. -/
theorem Departures.cons (hsized : n.setShardSizes tx = .ok sized) (hhead : Departs sized r out)
    (h : n.Departures txs out') : n.Departures ((tx, r) :: txs) (out ++ out') := by
  have hkey := setShardSizes_toFullShardKey hsized
  have hsends : n.Sends (tx, r) ↔ sized.isCrossShard = true ∧ r.failed = false :=
    and_congr_left fun _ => crosses_iff hsized
  unfold Departs at hhead
  have hlater : ∀ d ∈ out', ∃ x ∈ (tx, r) :: txs, n.Sends x ∧ d.to.fullShardKey = x.1.toFullShardKey :=
    fun d hd => (h.sent d hd).imp fun x hx => ⟨List.mem_cons_of_mem _ hx.1, hx.2⟩
  by_cases hs : n.Sends (tx, r)
  · rw [if_pos (hsends.mp hs)] at hhead
    obtain ⟨d, rfl, hd, hgas⟩ := hhead
    rw [hkey] at hd
    refine ⟨List.forall_mem_cons.mpr ⟨⟨_, List.mem_cons_self, hs, hd⟩, hlater⟩,
      List.forall_mem_cons.mpr ⟨hgas, h.gas⟩, List.forall_mem_cons.mpr ⟨fun _ => ?_, fun x hx hsx => ?_⟩⟩
    · exact ⟨d, List.mem_cons_self, hd⟩
    · obtain ⟨d', hd', hkey'⟩ := h.all x hx hsx
      exact ⟨d', List.mem_cons_of_mem _ hd', hkey'⟩
  · rw [if_neg (mt hsends.mpr hs)] at hhead
    subst hhead
    exact ⟨hlater, h.gas, List.forall_mem_cons.mpr ⟨fun hs' => absurd hs' hs, h.all⟩⟩

/-- **The deposits of a run of transactions**, in the order of the transactions.  The induction follows
`processTxs`. -/
theorem processTxs_departures {i : ℕ} {p p' : Progress} {txs : List EvmTransaction}
    (hm : n.Sound fun _ => True) (h : p.world.db.Consistent) (hgp : p.gp < 2 ^ 64)
    (hok : n.processTxs block i txs p = .ok p') :
    ∃ receipts out, p'.receipts = p.receipts ++ receipts ∧ receipts.length = txs.length ∧
      p'.world.db.block.xShardList = p.world.db.block.xShardList ++ out ∧ n.Departures (txs.zip receipts) out ∧
      p'.world.db.Consistent := by
  induction txs generalizing i p with
  | nil =>
    cases hok
    exact ⟨[], [], (List.append_nil _).symm, rfl, (List.append_nil _).symm, departures_nil, h⟩
  | cons tx txs ih =>
    obtain ⟨p₁, hstep, hrest⟩ := bind_eq_ok.mp hok
    obtain ⟨hpool, sized, r, charged, out, hsized, hreceipts, hrun, -, hdeparts⟩ := processTx_spec hm h hgp hstep
    obtain ⟨receipts, out', hreceipts', hlen, hlist, hdepartures, hc⟩ :=
      ih hrun.consistent (by omega) hrest
    refine ⟨r :: receipts, out ++ out', ?_, by simp [hlen], ?_, hdepartures.cons hsized hdeparts, hc⟩
    · rw [hreceipts', hreceipts, List.append_assoc, List.singleton_append]
    · rw [hlist, hrun.xShardList, List.append_assoc]

theorem process_departures {w w' : World} {receipts : List Receipt} {usedGas : ℕ}
    (hm : n.Sound fun _ => True) (h : w.db.Consistent) (hlist : w.db.block.xShardList = [])
    (hok : n.process block w = .ok (w', receipts, usedGas)) :
    receipts.length = block.transactions.length ∧
      n.Departures (block.transactions.zip receipts) w'.db.block.xShardList := by
  obtain ⟨p, hrun, hok⟩ := bind_eq_ok.mp hok
  obtain ⟨db, hfinal, hok⟩ := bind_eq_ok.mp hok
  cases hok
  obtain ⟨rs, out, hrs, hlen, hout, hdepartures, hc⟩ :=
    processTxs_departures hm (h.updateBlock fun b =>
      { b with blockCoinbase := block.coinbase.recipient, gasLimit := block.gasLimit })
      (Nat.mod_lt _ (Nat.two_pow_pos 64)) hrun
  have hblock : db.block = p.world.db.block := process_block hc hfinal
  have hout : db.block.xShardList = out := by
    rw [hblock, hout]
    exact congrArg (· ++ out) hlist
  rw [List.nil_append] at hrs
  rw [hrs]
  exact ⟨hlen, hout ▸ hdepartures⟩

/-- **The deposits of an accepted block** are those of its successful cross-shard transactions. -/
theorem acceptBlock_departures {env : Header → Env} {fuel : ℕ} {v : Verdict}
    (hn : n.machine = fun header => Vm.machine (env header)) (h : n.acceptBlock fuel block = .ok v) :
    n.Departures (block.transactions.zip v.receipts) v.xShardList := by
  have hm := sound_node hn
  obtain ⟨r, hrun, h⟩ := bind_eq_ok.mp h
  obtain ⟨root, -, h⟩ := bind_eq_ok.mp h
  cases h
  obtain ⟨⟨txList, xReceipts, w⟩, hdeposits, hrun⟩ := bind_eq_ok.mp hrun
  obtain ⟨⟨w', receipts, usedGas⟩, hprocess, hrun⟩ := bind_eq_ok.mp hrun
  cases hrun
  obtain ⟨hc, -, hlist, -⟩ := runDeposits_spec hm hdeposits
  obtain ⟨hlen, hdepartures⟩ := process_departures hm hc hlist hprocess
  have hzip : block.transactions.zip (receipts ++ xReceipts) = block.transactions.zip receipts := by
    have happend : (block.transactions ++ []).zip (receipts ++ xReceipts) = _ := List.zip_append hlen.symm
    simpa using happend
  rw [hzip]
  exact hdepartures

end QuarkChain.Core.Node
