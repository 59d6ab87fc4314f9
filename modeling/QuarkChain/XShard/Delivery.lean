/-
# Delivery along a chain of minor blocks

`MinorBlockChain.RunCrossShardTxWithCursor` (`src/core/minorblockchain_addon.go`): every minor
block resumes the cursor its parent stored, applies deposits until its cross-shard gas is spent or
nothing is left, and stores the cursor again.  What applying a deposit does is a parameter here
(`DepositEngine`).  By induction over a chain of minor blocks (`DeliveryRun`), what was delivered followed by what
is pending is the canonical sequence.
-/
import QuarkChain.Lib.Outcome
import QuarkChain.XShard.Resume

namespace QuarkChain.XShard

open Account Config QuarkChain.Types Resumable XShardTxCursor

/-- What running a block's deposits needs of the EVM state: applying one deposit
(`ApplyCrossShardDeposit`, which also threads the local gas counter and may return a receipt), and
the two gas fields. -/
structure DepositEngine (S R E : Type) where
  applyCrossShardDeposit :
    S → CrossShardTransactionDeposit → (usedGas : ℕ) → (checkIsFromRootChain : Bool) →
      (txIndex : ℕ) → Except E (Option R × S × ℕ)
  getGasUsed : S → ℕ
  setXShardReceiveGasUsed : S → ℕ → S

inductive RunStop (E : Type)
  | noPreBlock
  | cursor (e : CursorStop)
  | apply (e : E)

structure MinorBlockInput where
  parentHash : Hash
  prevRootBlockHash : Hash
  xShardGasLimit : ℕ

structure LoopState (S R : Type) where
  evmState : S
  gasUsed : ℕ
  receipts : List R
  txIndex : ℕ

variable {S R E : Type}

def nextDeposit (bc : MinorBlockChain) (x : XShardTxCursor) :
    Except (RunStop E) (Option CrossShardTransactionDeposit × XShardTxCursor) :=
  (getNextTx bc x).mapError .cursor

/-- The body of the loop: apply one deposit.  Whether its origin is checked depends on the height
of the root block the cursor stands in. -/
def applyDeposit (bc : MinorBlockChain) (eng : DepositEngine S R E) (t : LoopState S R)
    (x : XShardTxCursor) (tx : CrossShardTransactionDeposit) :
    Except (RunStop E) (LoopState S R) :=
  let checkIsFromRootChain :=
    bc.config.xShardGasDDOSFixRootHeight ≤ x.rBlock.elim 0 RootBlock.number
  match eng.applyCrossShardDeposit t.evmState tx t.gasUsed checkIsFromRootChain t.txIndex with
  | .error e => .error (.apply e)
  | .ok (receipt, evmState, gasUsed) =>
      .ok
        { evmState, gasUsed
          receipts := t.receipts ++ receipt.toList
          txIndex := t.txIndex + 1 }

/-- `RunCrossShardTxWithCursor`.  `cursorOf` is `GetMinorBlock(hash).Meta().XShardTxCursorInfo`;
the outer option tells a run that was cut off by the fuel from one that returned. -/
def runCrossShardTxWithCursor (bc : MinorBlockChain) (eng : DepositEngine S R E)
    (cursorOf : Hash → Option XShardTxCursorInfo) (fuel : ℕ) (evmState : S)
    (mBlock : MinorBlockInput) :
    Except (RunStop E)
      (Option (List CrossShardTransactionDeposit × XShardTxCursorInfo × List R × S)) :=
  match cursorOf mBlock.parentHash with
  | none => .error .noPreBlock
  | some cursorInfo =>
      match newXShardTxCursor bc mBlock.prevRootBlockHash cursorInfo with
      | .error e => .error (.cursor e)
      | .ok cursor =>
          match drain (nextDeposit bc) (applyDeposit bc eng)
              (fun t => mBlock.xShardGasLimit ≤ eng.getGasUsed t.evmState) fuel cursor
              { evmState, gasUsed := 0, receipts := [], txIndex := 0 } with
          | .error e => .error e
          | .ok none => .ok none
          | .ok (some (txList, cursor, t)) =>
              match cursor.getCursorInfo with
              | .error e => .error (.cursor e)
              | .ok info =>
                  .ok (some (txList, info, t.receipts,
                    eng.setXShardReceiveGasUsed t.evmState (eng.getGasUsed t.evmState)))

/-! ### One block -/

variable {bc : MinorBlockChain} {root : List RootBlock} {x x' : XShardTxCursor}
  {c c' : XShardTxCursorInfo} {m : RootBlock}

theorem nextDeposit_eq_ok {res : Option CrossShardTransactionDeposit × XShardTxCursor} :
    nextDeposit (E := E) bc x = .ok res ↔ getNextTx bc x = .ok res :=
  Outcome.mapError_eq_ok

theorem nextDeposit_describes (h : Linked bc root) :
    Describes (nextDeposit (E := E) bc) (Positioned bc root) (XShardTxCursor.todo bc root) := by
  intro x o x' hx hok
  have hsteps := getNextTx_spec h hx (nextDeposit_eq_ok.mp hok)
  exact ⟨hsteps.positioned, hsteps.handsOut⟩

variable {eng : DepositEngine S R E} {cursorOf : Hash → Option XShardTxCursorInfo} {fuel : ℕ}
  {evmState evmState' : S} {mBlock : MinorBlockInput}
  {txList : List CrossShardTransactionDeposit} {receipts : List R}

variable (h : Linked bc root) (hm : root.getLast? = some m)
  (hprev : mBlock.prevRootBlockHash = m.hash) (hcur : cursorOf mBlock.parentHash = some c)
  (hc : StoredAt bc root c)
include h hm hprev hcur hc

/-- **One block's run.**  It has consumed the front of what was pending, and the cursor it stores has the rest. -/
theorem runCrossShardTxWithCursor_spec
    (hrun : runCrossShardTxWithCursor bc eng cursorOf fuel evmState mBlock =
      .ok (some (txList, c', receipts, evmState'))) :
    StoredAt bc root c' ∧ pending bc root c = txList ++ pending bc root c' ∧
      (c'.isEOF = true → pending bc root c' = []) ∧ (txList = [] → pending bc root c = []) := by
  obtain ⟨x, hnew, hx, htodo⟩ := newXShardTxCursor_spec h hm hc
  simp only [runCrossShardTxWithCursor, hcur, hprev, hnew] at hrun
  split at hrun
  · cases hrun
  · cases hrun
  rename_i txs x' t hdrain
  obtain ⟨hx', hcons, ⟨x₀, o, hx₀, hlast⟩, hnil⟩ := drain_ok (nextDeposit_describes h) hx hdrain
  obtain ⟨c₁, hinfo, hc₁, hpend, hEOF⟩ := getCursorInfo_spec h hx' hm
  have hland : x'.Landed := (getNextTx_spec h hx₀ (nextDeposit_eq_ok.mp hlast)).landed
  simp only [hinfo, Except.ok.injEq, Option.some.injEq, Prod.mk.injEq] at hrun
  obtain ⟨rfl, rfl, -, -⟩ := hrun
  exact ⟨hc₁, by rw [← htodo, hcons, hpend], hEOF hland, htodo ▸ hnil⟩

/-- **A run returns.** -/
theorem runCrossShardTxWithCursor_returns (hserved : ∀ r ∈ root, Served bc r)
    (heng : ∀ s tx g b i, ∃ res, eng.applyCrossShardDeposit s tx g b i = .ok res)
    (hfuel : (pending bc root c).length < fuel) :
    ∃ res, runCrossShardTxWithCursor bc eng cursorOf fuel evmState mBlock = .ok (some res) := by
  obtain ⟨x, hnew, hx, htodo⟩ := newXShardTxCursor_spec h hm hc
  have hok : ∀ x, Positioned bc root x → ∃ res, nextDeposit (E := E) bc x = .ok res := by
    intro x hx
    obtain ⟨res, hres⟩ := getNextTx_ok h hserved hx
    exact ⟨res, nextDeposit_eq_ok.mpr hres⟩
  have hyields := (nextDeposit_describes h).yields hok hx
  have happly : ∀ t x tx, ∃ t', applyDeposit bc eng t x tx = .ok t' := by
    intro t x tx
    obtain ⟨⟨receipt, s', g'⟩, hres⟩ := heng t.evmState tx t.gasUsed
      (bc.config.xShardGasDDOSFixRootHeight ≤ x.rBlock.elim 0 RootBlock.number) t.txIndex
    exact ⟨_, by simp only [applyDeposit, hres]; rfl⟩
  obtain ⟨⟨txs, x', t⟩, hdrain⟩ := hyields.drain_total happly
    (fun t => mBlock.xShardGasLimit ≤ eng.getGasUsed t.evmState)
    (by rw [htodo]; exact hfuel) { evmState, gasUsed := 0, receipts := [], txIndex := 0 }
  obtain ⟨c₁, hinfo, -⟩ := getCursorInfo_spec h (drain_ok (nextDeposit_describes h) hx hdrain).1 hm
  exact ⟨_, by simp only [runCrossShardTxWithCursor, hcur, hprev, hnew, hdrain, hinfo]; rfl⟩

omit h hm hprev hcur hc

/-! ### A chain of minor blocks -/

/-- A chain of minor blocks over the root chain `root`.  `DeliveryRun … k c lists`: the last block's
prev-root block is block `k` of `root`, it stores the cursor `c`, and `lists` are the deposit lists
the runs returned, in block order.  The genesis block stores the cursor before the first root block;
every later block resumes its parent's cursor, with a prev-root block that is not older, an
arbitrary EVM state and an arbitrary gas limit. -/
inductive DeliveryRun (bc : MinorBlockChain) (eng : DepositEngine S R E)
    (cursorOf : Hash → Option XShardTxCursorInfo) (root : List RootBlock) :
    ℕ → XShardTxCursorInfo → List (List CrossShardTransactionDeposit) → Prop
  | genesis {g : RootBlock} (hg : root.head? = some g) :
      DeliveryRun bc eng cursorOf root 0 ⟨g.number, 0, 0⟩ []
  | block {k k' : ℕ} {c c' : XShardTxCursorInfo}
      {lists : List (List CrossShardTransactionDeposit)} {m : RootBlock} {mBlock : MinorBlockInput}
      {fuel : ℕ} {evmState evmState' : S} {txList : List CrossShardTransactionDeposit}
      {receipts : List R}
      (h : DeliveryRun bc eng cursorOf root k c lists) (hk : k ≤ k') (hm : root[k']? = some m)
      (hprev : mBlock.prevRootBlockHash = m.hash) (hcur : cursorOf mBlock.parentHash = some c)
      (hrun : runCrossShardTxWithCursor bc eng cursorOf fuel evmState mBlock =
        .ok (some (txList, c', receipts, evmState'))) :
      DeliveryRun bc eng cursorOf root k' c' (lists ++ [txList])

variable {k k' : ℕ} {lists : List (List CrossShardTransactionDeposit)}

theorem take_succ_append (hk : k ≤ k') :
    root.take (k' + 1) = root.take (k + 1) ++ (root.drop (k + 1)).take (k' - k) := by
  rw [show k' + 1 = (k + 1) + (k' - k) by omega, List.take_add]

theorem StoredAt.later (hc : StoredAt bc (root.take (k + 1)) c) (h : Linked bc root) (hk : k ≤ k') :
    StoredAt bc (root.take (k' + 1)) c ∧ pending bc (root.take (k' + 1)) c =
        pending bc (root.take (k + 1)) c ++ canonical bc ((root.drop (k + 1)).take (k' - k)) := by
  have hlinked := h.take k'
  rw [take_succ_append hk] at hlinked ⊢
  exact hc.extend hlinked (h.take k).ne_nil

theorem getLast?_take_succ (hm : root[k]? = some m) : (root.take (k + 1)).getLast? = some m := by
  rw [List.take_add_one, hm, Option.toList_some, List.getLast?_concat]

/-- **The delivery invariant.** -/
theorem DeliveryRun.invariant (h : Linked bc root)
    (hrun : DeliveryRun bc eng cursorOf root k c lists) : StoredAt bc (root.take (k + 1)) c ∧
      lists.flatten ++ pending bc (root.take (k + 1)) c = canonical bc (root.take (k + 1)) ∧
      (lists ≠ [] → c.isEOF = true → pending bc (root.take (k + 1)) c = []) := by
  induction hrun with
  | @genesis g hg =>
    obtain ⟨t, rfl⟩ := List.head?_eq_some_iff.mp hg
    refine ⟨.inr ⟨[], g, [], rfl, rfl, .inl ⟨rfl, by simp⟩⟩, ?_, nofun⟩
    simp [pending, fromHeight, pendingIn, canonical, rootBlockDeposits]
  | @block k k' c c' lists m mBlock fuel evmState evmState' txList receipts _ hk hm hprev hcur hrun
      ih =>
    obtain ⟨hc, hsum, -⟩ := ih
    obtain ⟨hlater, hpend⟩ := hc.later h hk
    obtain ⟨hc', htx, hEOF, -⟩ := runCrossShardTxWithCursor_spec (h.take k') (getLast?_take_succ hm)
      hprev hcur hlater hrun
    refine ⟨hc', ?_, fun _ => hEOF⟩
    calc (lists ++ [txList]).flatten ++ pending bc (root.take (k' + 1)) c'
        = lists.flatten ++ pending bc (root.take (k' + 1)) c := by simp [htx]
      _ = (lists.flatten ++ pending bc (root.take (k + 1)) c) ++
            canonical bc ((root.drop (k + 1)).take (k' - k)) := by
          rw [hpend, List.append_assoc]
      _ = canonical bc (root.take (k' + 1)) := by
          rw [hsum, take_succ_append hk, canonical_append]

/-- **No deposit is lost, repeated or reordered.**  For every root chain, every chain of minor blocks over it and
every gas limit, the concatenated deposit lists are a prefix of the canonical sequence, and all of it when the
last returned cursor is at EOF; and over served root blocks the next run returns. -/
theorem deliveryRun_prefix_canonical (h : Linked bc root)
    (hrun : DeliveryRun bc eng cursorOf root k c lists) :
    lists.flatten <+: canonical bc (root.take (k + 1)) ∧
      canonical bc (root.take (k + 1)) <+: canonical bc root ∧
      (lists ≠ [] → c.isEOF = true → lists.flatten = canonical bc (root.take (k + 1))) ∧
      ((∀ r ∈ root, Served bc r) →
        (∀ s tx g b i, ∃ res, eng.applyCrossShardDeposit s tx g b i = .ok res) →
        ∀ k' m mBlock evmState fuel, k ≤ k' → root[k']? = some m →
          mBlock.prevRootBlockHash = m.hash → cursorOf mBlock.parentHash = some c →
          (canonical bc (root.take (k' + 1))).length < fuel →
          ∃ res, runCrossShardTxWithCursor bc eng cursorOf fuel evmState mBlock =
            .ok (some res)) := by
  obtain ⟨hc, hsum, hEOF⟩ := hrun.invariant h
  refine ⟨⟨_, hsum⟩, ?_, ?_, ?_⟩
  · refine ⟨canonical bc (root.drop (k + 1)), ?_⟩
    rw [← canonical_append, List.take_append_drop]
  · intro hne heof
    rw [← hsum, hEOF hne heof, List.append_nil]
  · intro hserved heng k' m mBlock evmState fuel hk hm hprev hcur hfuel
    obtain ⟨hlater, hpend⟩ := hc.later h hk
    have hlen : (pending bc (root.take (k' + 1)) c).length ≤ (canonical bc (root.take (k' + 1))).length := by
      rw [take_succ_append hk, canonical_append, ← hsum, ← take_succ_append hk, hpend]
      simp only [List.length_append]
      omega
    exact runCrossShardTxWithCursor_returns (h.take k') (getLast?_take_succ hm) hprev hcur hlater
      (fun r hr => hserved r (List.mem_of_mem_take hr)) heng (by omega)

/-- **No deposit starves.**  However small the gas limits are, a block delivers nothing exactly if the blocks before
it have delivered everything up to its prev-root block. -/
theorem deliveryRun_idle_iff (h : Linked bc root)
    (hrun : DeliveryRun bc eng cursorOf root k c (lists ++ [txList])) :
    txList = [] ↔ lists.flatten = canonical bc (root.take (k + 1)) := by
  have hall := (hrun.invariant h).2.1
  constructor
  · intro hnil
    generalize hl : lists ++ [txList] = l at hrun
    cases hrun with
    | genesis hg => simp at hl
    | block hrun hk hm hprev hcur hstep =>
      obtain ⟨rfl, hlast⟩ := List.append_inj' hl rfl
      cases hlast
      obtain ⟨hc, hsum, -⟩ := hrun.invariant h
      obtain ⟨hlater, hpend⟩ := hc.later h hk
      obtain ⟨-, -, -, hpend'⟩ := runCrossShardTxWithCursor_spec (h.take _) (getLast?_take_succ hm) hprev
        hcur hlater hstep
      rw [take_succ_append hk, canonical_append, ← hsum, List.append_assoc, ← hpend, hpend' hnil,
        List.append_nil]
  · intro heq
    rw [← heq] at hall
    simp only [List.flatten_append, List.append_assoc, List.append_right_eq_self] at hall
    simpa using (List.append_eq_nil_iff.mp hall).1

/-! ### A small chain -/

def sampleConfig : QuarkChainConfig where
  shards := [⟨0, 1, 0, some ⟨0, 12000000⟩, 8⟩, ⟨1, 1, 0, some ⟨0, 12000000⟩, 8⟩]
  defaultChainTokenID := 35760
  xShardGasDDOSFixRootHeight := 90000
  shards_nodup := by decide

def sampleDeposit (value : ℕ) : CrossShardTransactionDeposit where
  txHash := 0x77
  «from» := ⟨0xaa, 0x10000⟩
  «to» := ⟨0xbb, 0⟩
  value := value
  gasPrice := 0
  gasRemained := 0
  gasTokenID := 35760
  transferTokenID := 35760
  isFromRootChain := false
  refundRate := 100

def sampleHeader : MinorBlockHeader where
  hash := 0x50
  parentHash := 0x4f
  number := 7
  branch := ⟨0x10001⟩
  prevRootBlockHash := 0x11

def sampleRootBlock (n : ℕ) (hs : List MinorBlockHeader) : RootBlock where
  hash := BitVec.ofNat 256 (0x10 + n)
  parentHash := BitVec.ofNat 256 (0x0f + n)
  number := n
  coinbase := ⟨0xcc, 0⟩
  coinbaseAmount := ∅
  minorBlockHeaders := hs

def sampleRoot : List RootBlock :=
  [sampleRootBlock 0 [], sampleRootBlock 1 [], sampleRootBlock 2 [sampleHeader]]

def sampleBlockChain : MinorBlockChain where
  config := sampleConfig
  branch := ⟨1⟩
  getRootBlockByHash h := sampleRoot.find? fun r => r.hash = h
  readCrossShardTxList h :=
    if h = sampleHeader.hash then some [sampleDeposit 5, sampleDeposit 6] else none

def sampleEngine : DepositEngine ℕ Unit Unit where
  applyCrossShardDeposit s _ g _ _ := .ok (none, s + 10, g + 10)
  getGasUsed s := s
  setXShardReceiveGasUsed s _ := s

def sampleCursorOf (h : Hash) : Option XShardTxCursorInfo :=
  if h = 0x60 then some ⟨0, 0, 0⟩
  else if h = 0x61 then some ⟨2, 0, 1⟩
  else if h = 0x62 then some ⟨2, 1, 0⟩
  else none

theorem sampleRoot_linked : Linked sampleBlockChain sampleRoot :=
  .link rfl rfl rfl (.link rfl rfl rfl (.one rfl))

theorem sampleDeliveryRun :
    DeliveryRun sampleBlockChain sampleEngine sampleCursorOf sampleRoot 2 ⟨3, 0, 0⟩
      [sampleRoot.map (coinbaseDeposit sampleBlockChain), [sampleDeposit 5], [sampleDeposit 6]] := by
  have hrun₁ : runCrossShardTxWithCursor sampleBlockChain sampleEngine sampleCursorOf 9 0
      ⟨0x60, 0x12, 30⟩ =
      .ok (some (sampleRoot.map (coinbaseDeposit sampleBlockChain), ⟨2, 0, 1⟩, [], 30)) := rfl
  have hrun₂ : runCrossShardTxWithCursor sampleBlockChain sampleEngine sampleCursorOf 9 0
      ⟨0x61, 0x12, 10⟩ = .ok (some ([sampleDeposit 5], ⟨2, 1, 0⟩, [], 10)) := rfl
  have hrun₃ : runCrossShardTxWithCursor sampleBlockChain sampleEngine sampleCursorOf 9 0
      ⟨0x62, 0x12, 90⟩ = .ok (some ([sampleDeposit 6], ⟨3, 0, 0⟩, [], 10)) := rfl
  have h₀ : DeliveryRun sampleBlockChain sampleEngine sampleCursorOf sampleRoot 0
      ⟨(sampleRootBlock 0 []).number, 0, 0⟩ [] := .genesis rfl
  have h₁ := h₀.block (m := sampleRootBlock 2 [sampleHeader]) (by omega : 0 ≤ 2) (by rfl) (by rfl)
    (by rfl) hrun₁
  have h₂ := h₁.block (m := sampleRootBlock 2 [sampleHeader]) (by omega : 2 ≤ 2) (by rfl) (by rfl)
    (by rfl) hrun₂
  exact h₂.block (m := sampleRootBlock 2 [sampleHeader]) (by omega : 2 ≤ 2) (by rfl) (by rfl)
    (by rfl) hrun₃

/-- The three blocks together deliver the whole sequence. -/
theorem sampleDeliveryRun_complete :
    sampleRoot.map (coinbaseDeposit sampleBlockChain) ++ [sampleDeposit 5, sampleDeposit 6] =
      canonical sampleBlockChain sampleRoot :=
  (deliveryRun_prefix_canonical sampleRoot_linked sampleDeliveryRun).2.2.1 (by simp) rfl

/-- The third block had something left to deliver. -/
theorem sampleDeliveryRun_busy : [sampleDeposit 6] = [] ↔
    [sampleRoot.map (coinbaseDeposit sampleBlockChain), [sampleDeposit 5]].flatten =
      canonical sampleBlockChain (sampleRoot.take 3) :=
  deliveryRun_idle_iff sampleRoot_linked sampleDeliveryRun

end QuarkChain.XShard
