/-
# The canonical deposit sequence, and what a cursor has still to deliver

What delivery is *for*: the root chain fixes one sequence of deposits (`canonical`), root block by
root block, the coinbase deposit first and then the deposits of every minor header that
`mayDeliver`.  A cursor is a position in that sequence; `pending` is what is left of it from a
stored triple on.

`Positioned` is the invariant of a cursor over a stretch, and `Served` says that the node stores
everything the cursor reads for the minor headers of a root block.
-/
import QuarkChain.XShard.Cursor

namespace QuarkChain.XShard

open Account Config QuarkChain.Types

section Definitions

variable (bc : MinorBlockChain)

/-- Does the minor header `h`, listed in root block `r`, deliver its deposits to this shard?  It
must come from a neighbour (at the height of `r`) whose prev-root block is above the root height at
which this shard starts. -/
def mayDeliver (r : RootBlock) (h : MinorBlockHeader) : Bool :=
  h.branch != bc.branch && bc.isNeighbor h.branch r.number &&
    (bc.getRootBlockByHash h.prevRootBlockHash).any fun p => bc.getGenesisRootHeight < p.number

def headerDeposits (r : RootBlock) (h : MinorBlockHeader) : List CrossShardTransactionDeposit :=
  if mayDeliver bc r h then (bc.readCrossShardTxList h.hash).getD [] else []

def headersDeposits (r : RootBlock) (hs : List MinorBlockHeader) : List CrossShardTransactionDeposit :=
  hs.flatMap (headerDeposits bc r)

def rootBlockDeposits (r : RootBlock) : List CrossShardTransactionDeposit :=
  coinbaseDeposit bc r :: headersDeposits bc r r.minorBlockHeaders

/-- **The canonical sequence** of a stretch of the root chain. -/
def canonical (root : List RootBlock) : List CrossShardTransactionDeposit :=
  root.flatMap (rootBlockDeposits bc)

def pendingIn (r : RootBlock) : ℕ → ℕ → List CrossShardTransactionDeposit
  | 0, depositIndex =>
      [coinbaseDeposit bc r].drop depositIndex ++ headersDeposits bc r r.minorBlockHeaders
  | m + 1, depositIndex =>
      (r.minorBlockHeaders[m]?.elim [] (headerDeposits bc r)).drop (depositIndex + 1) ++
        headersDeposits bc r (r.minorBlockHeaders.drop (m + 1))

def fromHeight (root : List RootBlock) (height : ℕ) : List RootBlock :=
  root.filter fun r => height ≤ r.number

def pending (root : List RootBlock) (c : XShardTxCursorInfo) : List CrossShardTransactionDeposit :=
  match fromHeight root c.rootBlockHeight with
  | [] => []
  | r :: rs => pendingIn bc r c.minorBlockIndex c.xShardDepositIndex ++ canonical bc rs

/-- The two indices stand before or on the coinbase deposit of `r`, or on an existing deposit of
one of its minor headers. -/
def OnDeposit (r : RootBlock) (mBlockIndex depositIndex : ℕ) : Prop :=
  (mBlockIndex = 0 ∧ depositIndex ≤ 1) ∨
    ∃ m h l, mBlockIndex = m + 1 ∧ r.minorBlockHeaders[m]? = some h ∧ mayDeliver bc r h = true ∧
      bc.readCrossShardTxList h.hash = some l ∧ depositIndex < l.length

/-- The cursor `x` is a position of the stretch `root`: at EOF, or on a deposit of one of its
blocks with that deposit's list loaded. -/
structure Positioned (root : List RootBlock) (x : XShardTxCursor) : Prop where
  max : root.getLast? = x.maxRootBlockHeader
  pos : (x.rBlock = none ∧ x.mBlockIndex = 0 ∧ x.xShardDepositIndex = 0) ∨
    ∃ l r l', root = l ++ r :: l' ∧ x.rBlock = some r ∧
      OnDeposit bc r x.mBlockIndex x.xShardDepositIndex ∧
      (x.mBlockIndex ≠ 0 → x.xTxList =
        r.minorBlockHeaders[x.mBlockIndex - 1]?.bind fun h => bc.readCrossShardTxList h.hash)

def XShardTxCursor.todo (root : List RootBlock) (x : XShardTxCursor) : List CrossShardTransactionDeposit :=
  match x.rBlock with
  | none => []
  | some r =>
      pendingIn bc r x.mBlockIndex x.xShardDepositIndex ++ canonical bc (fromHeight root (r.number + 1))

/-- The cursor has left the start of its root block: at `(x, 0, 0)` it is at EOF.  A freshly
recovered cursor may stand before a coinbase deposit; a step never leads there. -/
def XShardTxCursor.Landed (x : XShardTxCursor) : Prop :=
  x.mBlockIndex = 0 → x.xShardDepositIndex = 0 → x.rBlock = none

/-- Everything the cursor reads for the minor headers of `r` is stored: the prev-root block of each
neighbour header, its deposit list when it may deliver, and no list when it may not. -/
def Served (r : RootBlock) : Prop :=
  ∀ h ∈ r.minorBlockHeaders, h.branch ≠ bc.branch → bc.isNeighbor h.branch r.number = true →
    ∃ p, bc.getRootBlockByHash h.prevRootBlockHash = some p ∧
      ((bc.readCrossShardTxList h.hash).isSome ↔ bc.getGenesisRootHeight < p.number)

end Definitions

variable {bc : MinorBlockChain} {r : RootBlock} {l l' : List RootBlock}

theorem canonical_append (l l' : List RootBlock) :
    canonical bc (l ++ l') = canonical bc l ++ canonical bc l' := by
  simp [canonical]

theorem Linked.fromHeight_self (h : Linked bc (l ++ r :: l')) :
    fromHeight (l ++ r :: l') r.number = r :: l' := by
  obtain ⟨-, hr, hl⟩ := List.pairwise_append.mp h.pairwise_number
  have hlow : l.filter (fun b => decide (r.number ≤ b.number)) = [] := by
    refine List.filter_eq_nil_iff.mpr fun b hb => ?_
    have := hl b hb r (by simp)
    simpa using this
  have hhigh : l'.filter (fun b => decide (r.number ≤ b.number)) = l' := by
    refine List.filter_eq_self.mpr fun b hb => ?_
    have := List.rel_of_pairwise_cons hr hb
    simpa using this.le
  simp [fromHeight, List.filter_append, hlow, hhigh]

theorem Linked.fromHeight_succ (h : Linked bc (l ++ r :: l')) :
    fromHeight (l ++ r :: l') (r.number + 1) = l' := by
  have hself := h.fromHeight_self
  have hsub : fromHeight (l ++ r :: l') (r.number + 1) =
      (fromHeight (l ++ r :: l') r.number).filter fun b => r.number + 1 ≤ b.number := by
    simp only [fromHeight, List.filter_filter]
    refine List.filter_congr fun b _ => ?_
    by_cases hb : r.number + 1 ≤ b.number
    · simp [hb, show r.number ≤ b.number by omega]
    · simp [hb]
  have hr := (List.pairwise_append.mp h.pairwise_number).2.1
  rw [hsub, hself, List.filter_cons_of_neg (by simp)]
  exact List.filter_eq_self.mpr fun b hb => decide_eq_true (List.rel_of_pairwise_cons hr hb)

theorem Linked.fromHeight_getLast {m : RootBlock} (h : Linked bc l) (hm : l.getLast? = some m) :
    fromHeight l (m.number + 1) = [] := by
  obtain ⟨s, rfl⟩ := List.getLast?_eq_some_iff.mp hm
  exact h.fromHeight_succ

theorem Linked.todo_eq {x : XShardTxCursor} (h : Linked bc (l ++ r :: l')) (hr : x.rBlock = some r) :
    x.todo bc (l ++ r :: l') =
      pendingIn bc r x.mBlockIndex x.xShardDepositIndex ++ canonical bc l' := by
  rw [XShardTxCursor.todo, hr]
  dsimp only
  rw [h.fromHeight_succ]

end QuarkChain.XShard
