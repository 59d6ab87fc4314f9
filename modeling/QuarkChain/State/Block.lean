/-
# The block fields of a state

The part of `state.StateDB` that block processing keeps next to the accounts (`src/core/state/statedb.go`,
from `GetXShardReceiveGasUsed` on): gas counters, the fees of the block, the outgoing deposits, and the
position of the transaction that is being applied.  None of it is journaled, and setting it leaves the
accounts and the invariant of the journal alone (`Consistent.withContext`).
-/
import QuarkChain.State.Above

namespace QuarkChain.State.StateDB

open QuarkChain.Types

variable (s : StateDB)

def updateBlock (f : BlockFields → BlockFields) : StateDB := { s with block := f s.block }

def addGasUsed (gasUsed : ℕ) : StateDB :=
  s.updateBlock fun b => { b with gasUsed := b.gasUsed + gasUsed }

def setGasLimit (gasLimit : ℕ) : StateDB := s.updateBlock fun b => { b with gasLimit }

def addBlockFee (tokenID : TokenID) (fee : ℕ) : StateDB :=
  s.updateBlock fun b =>
    { b with blockFee := b.blockFee.insert tokenID (fee + TokenMap.amount b.blockFee tokenID) }

def appendXShardList (tx : CrossShardTransactionDeposit) : StateDB :=
  s.updateBlock fun b => { b with xShardList := b.xShardList ++ [tx] }

def setXShardReceiveGasUsed (xShardReceiveGasUsed : ℕ) : StateDB :=
  s.updateBlock fun b => { b with xShardReceiveGasUsed }

def setTxCursorInfo (info : XShardTxCursorInfo) : StateDB :=
  s.updateBlock fun b => { b with xShardTxCursorInfo := some info }

def setFullShardKey (fullShardKey : ℕ) : StateDB := { s with fullShardKey }

def prepare (thash bhash : Hash) (txIndex : ℕ) : StateDB := { s with thash, bhash, txIndex }

variable {s}

variable (h : s.Consistent)
include h

theorem Consistent.withContext (block : BlockFields) (fullShardKey : ℕ)
    (thash bhash : Hash) (txIndex : ℕ) :
    ({ s with block, fullShardKey, thash, bhash, txIndex } : StateDB).Consistent where
  wellFormed := ⟨h.wellFormed.deleted_trie, h.wellFormed.dirty, h.wellFormed.journal⟩
  revisions := ⟨h.revisions.ids, h.revisions.lengths, h.revisions.fresh, h.revisions.within⟩

theorem Consistent.updateBlock (f : BlockFields → BlockFields) : (s.updateBlock f).Consistent :=
  h.withContext (f s.block) s.fullShardKey s.thash s.bhash s.txIndex

theorem Consistent.addGasUsed (gasUsed : ℕ) : (s.addGasUsed gasUsed).Consistent := by
  unfold StateDB.addGasUsed
  exact h.updateBlock _

theorem Consistent.addBlockFee (tokenID : TokenID) (fee : ℕ) :
    (s.addBlockFee tokenID fee).Consistent := by
  unfold StateDB.addBlockFee
  exact h.updateBlock _

theorem Consistent.appendXShardList (tx : CrossShardTransactionDeposit) :
    (s.appendXShardList tx).Consistent := by
  unfold StateDB.appendXShardList
  exact h.updateBlock _

theorem Consistent.setFullShardKey (fullShardKey : ℕ) :
    (s.setFullShardKey fullShardKey).Consistent :=
  h.withContext s.block fullShardKey s.thash s.bhash s.txIndex

theorem Consistent.prepare (thash bhash : Hash) (txIndex : ℕ) :
    (s.prepare thash bhash txIndex).Consistent :=
  h.withContext s.block s.fullShardKey thash bhash txIndex

omit h

variable {s' : StateDB}

/-- **Going back to a snapshot leaves the block fields alone.** -/
theorem block_revertToSnapshot {revid : ℕ} (h : s.revertToSnapshot revid = .ok s') : s'.block = s.block := by
  unfold revertToSnapshot at h
  dsimp only at h
  split at h
  · cases h
  split_ifs at h
  split at h
  · cases h
  · rename_i hj
    cases h
    exact (revertJournal_keeps hj).2.2

end QuarkChain.State.StateDB
