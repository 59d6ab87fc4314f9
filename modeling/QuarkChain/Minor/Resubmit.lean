/-
# Submitting a rejected root block again

`AddRootBlock` (`src/core/minorblockchain_addon.go`) first makes the checks that need only the block
and the stores, then calls `putRootBlock`, and only then compares root chains and moves the head.  The later
checks can fail as well, and by then the block is stored: its children find their parent, and the same call
with the same block ends at the test for known blocks, with no error.  `StoredThenRejected` lists these late
failures as conditions on the chain before the call.
-/
import QuarkChain.Minor.Wf

namespace QuarkChain.Minor

open BlockTree QuarkChain.Types

namespace MinorBlockChain

variable (s : MinorBlockChain)

/-- A rejected root block leaves no trace: it is not stored, and no child of it is accepted. -/
structure Traceless (n : ShardSetup) (nested : ℕ) (rBlock : RootBlock) : Prop where
  absent : s.getRootBlockByHash rBlock.hash = none
  childless : ∀ child b s', child.parentHash = rBlock.hash →
    s.getRootBlockByHash child.hash = none → s.addRootBlock n nested child ≠ .ok (.ok b, s')

/-- The errors of `AddRootBlock` on a root block can be relied on: the same call returns the same
error again, and a block that is rejected for its root chain leaves no trace. -/
structure Repeatable (n : ShardSetup) (nested : ℕ) (rBlock : RootBlock) : Prop where
  again : ∀ e s', s.addRootBlock n nested rBlock = .ok (.error e, s') →
    ∃ s'', s'.addRootBlock n nested rBlock = .ok (.error e, s'')
  traceless : ∀ s', s.addRootBlock n nested rBlock = .ok (.error .errNotSameRootChain, s') →
    s'.Traceless n nested rBlock

/-- Going back from a block, along at most so many links, to one whose prev-root block the root tip
supports, or with the flag set to a block of height zero that it does not support. -/
inductive Retreats : ℕ → MinorBlock → Bool → MinorBlock → Prop
  | supported {fuel : ℕ} {b : MinorBlock}
      (h : s.isSameRootChain (some s.rootTip) (s.prevRoot b) = .ok true) : Retreats fuel b false b
  | bottom {fuel : ℕ} {b : MinorBlock}
      (h : s.isSameRootChain (some s.rootTip) (s.prevRoot b) = .ok false) (h0 : b.number = 0) :
      Retreats fuel b true b
  | parent {fuel : ℕ} {b p c : MinorBlock} {flag : Bool}
      (h : s.isSameRootChain (some s.rootTip) (s.prevRoot b) = .ok false) (h0 : b.number ≠ 0)
      (hp : s.getMinorBlock b.parentHash = some p) (hr : Retreats fuel p flag c) :
      Retreats (fuel + 1) b flag c

/-- The head cannot be moved: the new block has no state, no two branches lead from one block to the
other, or a block of the new branch has no count of transactions. -/
def CannotMove (oldBlock newBlock : MinorBlock) : Prop :=
  s.hasState newBlock.root = false ∨
    (∃ e, branches s.getMinorBlock oldBlock newBlock = .error e) ∨
    ∃ r, branches s.getMinorBlock oldBlock newBlock = .ok r ∧
      ∃ b ∈ r.2.1, s.totalTxCount b.hash = none

/-- The block of height zero at which the chain stands before it starts over, or its genesis block
where that one has no state. -/
def restartHead (b : MinorBlock) : MinorBlock := if s.hasState b.root then b else s.genesisBlock

/-- The shard cannot start over: the root tip has no ancestor at the shard's genesis height, the
genesis block over it has no state, or the head is lost and the old genesis block has no state. -/
def CannotReset (n : ShardSetup) (nested : ℕ) (b : MinorBlock) : Prop :=
  (∃ e, lower s.getRootBlockByHash .invalidOldChain n.genesisRootHeight
    (s.rootTip.number - n.genesisRootHeight) s.rootTip = .error e) ∨
  ∃ r g, lower s.getRootBlockByHash .invalidOldChain n.genesisRootHeight
      (s.rootTip.number - n.genesisRootHeight) s.rootTip = .ok r ∧
    s.readGenesis r.2.hash = some g ∧
    (s.hasState g.root = false ∨
      nested ≠ 0 ∧ s.hasState s.genesisBlock.root = false ∧ (s.restartHead b).hash ≠ g.hash ∧
        s.getMinorBlock (s.restartHead b).hash = none)

def withRootTip (rBlock : RootBlock) (shardHeader : Option MinorBlockHeader) : MinorBlockChain :=
  { s with
    rootTip := rBlock
    confirmedHeaderTip := shardHeader.bind fun h => s.getMinorBlock h.hash }

/-- The head cannot follow a root tip. -/
def CannotFollow (n : ShardSetup) (nested : ℕ) (rBlock : RootBlock)
    (shardHeader : Option MinorBlockHeader) : Prop :=
  let s₁ := s.withRootTip rBlock shardHeader
  let newTip := s₁.jumpTo shardHeader
  (∃ b, s₁.Retreats newTip.number newTip true b ∧ s₁.CannotReset n nested b) ∨
    ∃ b origBlock newBlock, s₁.Retreats newTip.number newTip false b ∧
      b.hash ≠ s.currentBlock.hash ∧ s.getMinorBlock s.currentBlock.hash = some origBlock ∧
      s.getMinorBlock b.hash = some newBlock ∧ s.CannotMove origBlock newBlock

/-- What can fail when the root block has been stored: it confirms a block of another root chain; it
is not heavier and the head is on another root chain than the tip; it is heavier and the head cannot
follow it. -/
def FailsLate (n : ShardSetup) (nested : ℕ) (rBlock : RootBlock)
    (shardHeader : Option MinorBlockHeader) : Prop :=
  s.confirmsOwnChain rBlock shardHeader = .ok false ∨
  s.confirmsOwnChain rBlock shardHeader = .ok true ∧
    (rBlock.totalDifficulty ≤ s.rootTip.totalDifficulty ∧
        s.isSameRootChain (some s.rootTip) (s.prevRoot s.currentBlock) = .ok false ∨
      s.rootTip.totalDifficulty < rBlock.totalDifficulty ∧
        s.CannotFollow n nested rBlock shardHeader)

/-- The root block is new, passes the checks before `putRootBlock`, and fails one after it. -/
structure StoredThenRejected (n : ShardSetup) (nested : ℕ) (rBlock : RootBlock) : Prop where
  height : n.genesisRootHeight < rBlock.number
  version : rBlock.version = 0
  unknown : s.getRootBlockByHash rBlock.hash = none
  parent : (s.getRootBlockByHash rBlock.parentHash).isSome = true
  late : ∃ shardHeader, s.checkMinorHeaders n rBlock = .ok shardHeader ∧
    (s.putRootBlock rBlock shardHeader).FailsLate n nested rBlock shardHeader

end MinorBlockChain

variable {s s' : MinorBlockChain} {n : ShardSetup} {nested : ℕ} {rBlock : RootBlock}
  {shardHeader : Option MinorBlockHeader} {b c old new : MinorBlock}

open MinorBlockChain (Retreats CannotMove CannotReset CannotFollow FailsLate StoredThenRejected
  Repeatable Traceless)

theorem insertBranch_getRootBlockByHash (l : List MinorBlock) (s : MinorBlockChain) :
    (MinorBlockChain.insertBranch l s).2.getRootBlockByHash = s.getRootBlockByHash := by
  induction l with
  | nil => rfl
  | cons b l ih =>
    rw [MinorBlockChain.insertBranch]
    generalize MinorBlockChain.insertBranch l s = r at ih ⊢
    obtain ⟨e | v, s'⟩ := r
    · exact ih
    · dsimp only
      split_ifs <;> exact ih

theorem reorg_getRootBlockByHash (old new : MinorBlock) :
    (s.reorg old new).2.getRootBlockByHash = s.getRootBlockByHash := by
  rw [MinorBlockChain.reorg]
  split
  · rfl
  · dsimp only
    rw [insertBranch_getRootBlockByHash]
    split_ifs <;> rfl

theorem reWriteBlockIndexTo_getRootBlockByHash (old new : MinorBlock) :
    (s.reWriteBlockIndexTo old new).2.getRootBlockByHash = s.getRootBlockByHash := by
  have hre := reorg_getRootBlockByHash (s := s) old new
  rw [MinorBlockChain.reWriteBlockIndexTo]
  split_ifs
  · generalize s.reorg old new = r at hre ⊢
    obtain ⟨e | v, s'⟩ := r <;> exact hre
  · rfl

def SameRootBlocks (s : MinorBlockChain) {α : Type} (r : Result α) : Prop :=
  Outcome.Post r (fun v => v.2.getRootBlockByHash = s.getRootBlockByHash) fun _ => True

theorem setHead_sameRootBlocks (nested head : ℕ) (s : MinorBlockChain) :
    SameRootBlocks s (MinorBlockChain.setHead nested s head) := by
  induction nested generalizing s head with
  | zero =>
    rw [MinorBlockChain.setHead]
    split
    · rfl
    · trivial
  | succ nested ih =>
    rw [MinorBlockChain.setHead]
    split
    · rfl
    split_ifs
    · have hrec := ih 0 ((s.rewindTo head).writeMinorBlock (s.rewindTo head).genesisBlock)
      generalize MinorBlockChain.setHead nested _ 0 = r at hrec ⊢
      obtain f | ⟨e | v, s₂⟩ := r <;> exact hrec
    · rfl

theorem setHeadToGenesisBlock_sameRootBlocks (s : MinorBlockChain) (nested : ℕ) (genesis : MinorBlock) :
    SameRootBlocks s (s.setHeadToGenesisBlock nested genesis) := by
  rw [MinorBlockChain.setHeadToGenesisBlock]
  split_ifs
  · have hset := setHead_sameRootBlocks nested 0 (s.writeMinorBlock genesis)
    generalize MinorBlockChain.setHead nested _ 0 = r at hset ⊢
    obtain f | ⟨e | v, s₁⟩ := r <;> exact hset
  · rfl

theorem resetGenesis_sameRootBlocks (s : MinorBlockChain) : SameRootBlocks s (s.resetGenesis n nested) := by
  rw [MinorBlockChain.resetGenesis]
  split_ifs
  · rfl
  split
  · rfl
  split
  · trivial
  rename_i newGenesis _
  have hset := setHeadToGenesisBlock_sameRootBlocks s nested newGenesis
  generalize s.setHeadToGenesisBlock nested newGenesis = r at hset ⊢
  obtain f | ⟨e | v, s₁⟩ := r <;> exact hset

theorem switchRootTip_eq : s.switchRootTip n nested rBlock shardHeader =
    match (s.withRootTip rBlock shardHeader).walkBack
      ((s.withRootTip rBlock shardHeader).jumpTo shardHeader).number
      ((s.withRootTip rBlock shardHeader).jumpTo shardHeader) with
    | .error f => .error f
    | .ok (true, b) =>
        { s.withRootTip rBlock shardHeader with currentBlock := b }.resetGenesis n nested
    | .ok (false, b) =>
        if b.hash = s.currentBlock.hash then
          .ok (.ok true, { s.withRootTip rBlock shardHeader with currentBlock := b })
        else
          match s.getMinorBlock s.currentBlock.hash, s.getMinorBlock b.hash with
          | some origBlock, some newBlock =>
              match { s.withRootTip rBlock shardHeader with currentBlock := b }.reWriteBlockIndexTo
                  origBlock newBlock with
              | (.error e, s₂) => .ok (.error e, s₂)
              | (.ok _, s₂) => .ok (.ok true, s₂)
          | _, _ => .error (.panic .nilBlock) := rfl

theorem switchRootTip_sameRootBlocks : SameRootBlocks s (s.switchRootTip n nested rBlock shardHeader) := by
  rw [switchRootTip_eq]
  split
  · trivial
  · exact resetGenesis_sameRootBlocks _
  rename_i b _
  split_ifs
  · rfl
  split
  · rename_i origBlock newBlock _ _
    have hre := reWriteBlockIndexTo_getRootBlockByHash
      (s := { s.withRootTip rBlock shardHeader with currentBlock := b }) origBlock newBlock
    generalize MinorBlockChain.reWriteBlockIndexTo _ origBlock newBlock = r at hre ⊢
    obtain ⟨e | v, s₂⟩ := r <;> exact hre
  · trivial

theorem chooseRootTip_getRootBlockByHash {res : Except ChainError Bool}
    (h : s.chooseRootTip n nested rBlock shardHeader = .ok (res, s')) :
    s'.getRootBlockByHash = s.getRootBlockByHash := by
  have hpost : SameRootBlocks s (s.chooseRootTip n nested rBlock shardHeader) := by
    rw [MinorBlockChain.chooseRootTip]
    split
    · trivial
    · rfl
    · split_ifs
      · split <;> trivial
      · exact switchRootTip_sameRootBlocks
  exact hpost.of_ok h

/-! ### When the late steps fail -/

theorem walkBack_eq_ok_iff {fuel : ℕ} {flag : Bool} :
    s.walkBack fuel b = .ok (flag, c) ↔ s.Retreats fuel b flag c := by
  fun_induction MinorBlockChain.walkBack s fuel b with
  | case1 fuel b e hsame => exact ⟨nofun, fun h => by cases h <;> simp_all⟩
  | case2 fuel b hsame =>
    refine ⟨?_, fun h => by cases h <;> simp_all⟩
    rintro ⟨⟩
    exact .supported hsame
  | case3 fuel b hsame h0 =>
    refine ⟨?_, fun h => by cases h <;> simp_all⟩
    rintro ⟨⟩
    exact .bottom hsame h0
  | case4 b hsame h0 => exact ⟨nofun, fun h => by cases h <;> simp_all⟩
  | case5 b hsame h0 fuel hp => exact ⟨nofun, fun h => by cases h <;> simp_all⟩
  | case6 b hsame h0 fuel p hp ih =>
    refine ⟨fun h => .parent hsame h0 hp (ih.mp h), fun h => ?_⟩
    cases h <;> simp_all

theorem MinorBlockChain.Retreats.number_eq_zero {fuel : ℕ} (h : s.Retreats fuel b true c) : c.number = 0 := by
  generalize hflag : true = flag at h
  induction h with
  | supported => cases hflag
  | bottom _ h0 => exact h0
  | parent _ _ _ _ ih => exact ih hflag

theorem reWriteBlockIndexTo_fails_iff (s : MinorBlockChain) (old new : MinorBlock) :
    (∃ e s', s.reWriteBlockIndexTo old new = (.error e, s')) ↔ s.CannotMove old new := by
  rw [MinorBlockChain.reWriteBlockIndexTo, CannotMove]
  by_cases hstate : s.hasState new.root = true
  · rw [if_pos hstate]
    simp only [hstate, Bool.true_eq_false, false_or]
    rw [MinorBlockChain.reorg]
    rcases hb : branches s.getMinorBlock old new with e | r
    · simp
    obtain ⟨lo, ln, last⟩ := r
    dsimp only
    generalize hs₁ : (if ln.isEmpty then _ else _ : MinorBlockChain) = s₁
    have hcount : s₁.totalTxCount = s.totalTxCount := by
      rw [← hs₁]
      split_ifs <;> rfl
    rcases insertBranch_cases ln s₁ with ⟨hok, hall⟩ | ⟨⟨e, s', herr⟩, d, hd, hnone⟩
    · rw [hok]
      rw [hcount] at hall
      constructor
      · rintro ⟨e, s', h⟩
        cases h
      · rintro (⟨e, ⟨⟩⟩ | ⟨r, hr, d, hd, hnone⟩)
        cases hr
        have := hall d hd
        rw [hnone] at this
        cases this
    · rw [herr]
      refine iff_of_true ⟨e, s', rfl⟩ (.inr ⟨_, rfl, d, hd, ?_⟩)
      rw [← hcount]
      simpa using hnone
  · simp [hstate]

theorem setHead_fails_iff (nested : ℕ) (s : MinorBlockChain) (head : ℕ) :
    (∃ e s', MinorBlockChain.setHead nested s head = .ok (.error e, s')) ↔
      nested ≠ 0 ∧ s.hasState s.genesisBlock.root = false ∧
        (s.rewindTo head).getMinorBlock (s.rewindTo head).currentBlock.hash = none := by
  induction nested generalizing s head with
  | zero =>
    rw [MinorBlockChain.setHead]
    split <;> simp
  | succ nested ih =>
    rw [MinorBlockChain.setHead]
    cases hget : (s.rewindTo head).getMinorBlock (s.rewindTo head).currentBlock.hash with
    | some b => simp
    | none =>
      -- what a nested rewind reads of states and genesis block is what this one reads
      have hstate : (s.rewindTo head).hasState (s.rewindTo head).genesisBlock.root =
        s.hasState s.genesisBlock.root := rfl
      simp only [hstate]
      by_cases hg : s.hasState s.genesisBlock.root = true
      · have hnested : ¬∃ e s', MinorBlockChain.setHead nested
            ((s.rewindTo head).writeMinorBlock (s.rewindTo head).genesisBlock) 0 =
              .ok (.error e, s') := by
          rw [ih]
          rintro ⟨-, hfalse, -⟩
          have hsame : s.hasState s.genesisBlock.root = false := hfalse
          rw [hg] at hsame
          cases hsame
        rw [if_pos hg]
        refine iff_of_false ?_ (by simp [hg])
        rintro ⟨e, s', h⟩
        split at h
        · cases h
        · rename_i hrec
          exact hnested ⟨_, _, hrec⟩
        · cases h
      · simp [hg]

theorem rewindTo_of_number_eq_zero (h0 : s.currentBlock.number = 0) (head : ℕ) :
    s.rewindTo head = { s with currentBlock := s.restartHead s.currentBlock } := by
  rw [MinorBlockChain.rewindTo, h0, rewind, MinorBlockChain.restartHead]
  by_cases hstate : s.hasState s.currentBlock.root = true
  · simp [erase, Option.filter, hstate]
  · simp [erase, Option.filter, hstate]

theorem setHeadToGenesisBlock_fails_iff (nested : ℕ) (g : MinorBlock) (h0 : s.currentBlock.number = 0) :
    (∃ e s', s.setHeadToGenesisBlock nested g = .ok (.error e, s')) ↔ s.hasState g.root = false ∨
        nested ≠ 0 ∧ s.hasState s.genesisBlock.root = false ∧
          (s.restartHead s.currentBlock).hash ≠ g.hash ∧
            s.getMinorBlock (s.restartHead s.currentBlock).hash = none := by
  rw [MinorBlockChain.setHeadToGenesisBlock]
  by_cases hstate : s.hasState g.root = true
  · have hset := setHead_fails_iff nested (s.writeMinorBlock g) 0
    rw [rewindTo_of_number_eq_zero (s := s.writeMinorBlock g) h0] at hset
    have hstored : (s.writeMinorBlock g).getMinorBlock (s.restartHead s.currentBlock).hash = none ↔
        (s.restartHead s.currentBlock).hash ≠ g.hash ∧
          s.getMinorBlock (s.restartHead s.currentBlock).hash = none := by
      rw [MinorBlockChain.writeMinorBlock]
      by_cases hk : (s.restartHead s.currentBlock).hash = g.hash
      · simp [hk]
      · simp [hk]
    rw [if_pos hstate, ← hstored]
    simp only [hstate, Bool.true_eq_false, false_or]
    refine Iff.trans ?_ hset
    cases MinorBlockChain.setHead nested (s.writeMinorBlock g) 0 with
    | error f => simp
    | ok v =>
      obtain ⟨e | u, s'⟩ := v <;> simp
  · simp [hstate]

theorem resetGenesis_fails_iff (nested : ℕ) (hheight : n.genesisRootHeight < s.rootTip.number)
    (h0 : s.currentBlock.number = 0) : (∃ e s', s.resetGenesis n nested = .ok (.error e, s')) ↔
      s.CannotReset n nested s.currentBlock := by
  rw [MinorBlockChain.resetGenesis, if_neg (by omega), CannotReset]
  cases hlow : lower s.getRootBlockByHash .invalidOldChain n.genesisRootHeight
      (s.rootTip.number - n.genesisRootHeight) s.rootTip with
  | error e => simp
  | ok r =>
    obtain ⟨l, genesisRootHeader⟩ := r
    dsimp only
    rcases hg : s.readGenesis genesisRootHeader.hash with _ | g
    · simp [hg]
    have hset := setHeadToGenesisBlock_fails_iff nested g h0
    constructor
    · rintro ⟨e, s', h⟩
      refine .inr ⟨_, g, rfl, hg, hset.mp ?_⟩
      dsimp only at h
      split at h
      · cases h
      · rename_i hreset
        exact ⟨_, _, hreset⟩
      · cases h
    · rintro (⟨e, ⟨⟩⟩ | ⟨r, g', hr, hg', h⟩)
      cases hr
      rw [hg] at hg'
      cases hg'
      obtain ⟨e, s', hreset⟩ := hset.mpr h
      exact ⟨e, s', by simp only [hreset]⟩

theorem switchRootTip_fails_iff (hheight : n.genesisRootHeight < rBlock.number) :
    (∃ e s', s.switchRootTip n nested rBlock shardHeader = .ok (.error e, s')) ↔
      s.CannotFollow n nested rBlock shardHeader := by
  rw [switchRootTip_eq, CannotFollow]
  simp only [← walkBack_eq_ok_iff]
  cases hw : (s.withRootTip rBlock shardHeader).walkBack
      ((s.withRootTip rBlock shardHeader).jumpTo shardHeader).number
      ((s.withRootTip rBlock shardHeader).jumpTo shardHeader) with
  | error f => simp
  | ok v =>
    obtain ⟨_ | _, b⟩ := v
    · dsimp only
      by_cases hcur : b.hash = s.currentBlock.hash
      · rw [if_pos hcur]
        simp [hcur]
      rw [if_neg hcur]
      rcases horig : s.getMinorBlock s.currentBlock.hash with _ | origBlock
      · simp
      rcases hnew : s.getMinorBlock b.hash with _ | newBlock
      · simp [hnew]
      have hmove := reWriteBlockIndexTo_fails_iff
        { s.withRootTip rBlock shardHeader with currentBlock := b } origBlock newBlock
      constructor
      · rintro ⟨e, s', h⟩
        refine .inr ⟨b, origBlock, newBlock, rfl, hcur, rfl, hnew, hmove.mp ?_⟩
        dsimp only at h
        split at h
        · rename_i hre
          exact ⟨_, _, hre⟩
        · cases h
      · rintro (⟨c, ⟨⟩, -⟩ | ⟨c, o, w, hc, -, ho, hn, h⟩)
        cases hc
        cases ho
        rw [hnew] at hn
        cases hn
        obtain ⟨e, s', hre⟩ := hmove.mpr h
        exact ⟨e, s', by simp only [hre]⟩
    · have h0 : b.number = 0 := Retreats.number_eq_zero (walkBack_eq_ok_iff.mp hw)
      have hreset := resetGenesis_fails_iff (n := n) nested
        (s := { s.withRootTip rBlock shardHeader with currentBlock := b }) hheight h0
      constructor
      · intro h
        exact .inl ⟨b, rfl, hreset.mp h⟩
      · rintro (⟨c, hc, h⟩ | ⟨c, _, _, ⟨⟩, -⟩)
        cases hc
        exact hreset.mpr h

/-- **The late failures are complete.** -/
theorem chooseRootTip_fails_iff (hheight : n.genesisRootHeight < rBlock.number) :
    (∃ e s', s.chooseRootTip n nested rBlock shardHeader = .ok (.error e, s')) ↔
      s.FailsLate n nested rBlock shardHeader := by
  rw [MinorBlockChain.chooseRootTip, FailsLate]
  rcases hown : s.confirmsOwnChain rBlock shardHeader with c | v
  · simp
  rcases v with _ | _
  · simp
  dsimp only
  by_cases htd : rBlock.totalDifficulty ≤ s.rootTip.totalDifficulty
  · rw [if_pos htd]
    cases hsame : s.isSameRootChain (some s.rootTip) (s.prevRoot s.currentBlock) with
    | error c => simp [htd]
    | ok v => cases v <;> simp [htd]
  · rw [if_neg htd, switchRootTip_fails_iff hheight]
    simp [htd]
    omega

/-- **Everything a rejection leaves behind**: nothing, or the stored block. -/
theorem addRootBlock_rejected {e : ChainError} (h : s.addRootBlock n nested rBlock = .ok (.error e, s')) :
    (s' = s ∧ e ≠ .errNotSameRootChain) ∨
      s.StoredThenRejected n nested rBlock ∧ s'.getRootBlockByHash rBlock.hash = some rBlock := by
  rw [MinorBlockChain.addRootBlock] at h
  split_ifs at h with hnum hver hknown hparent
  · cases h
    exact .inl ⟨rfl, by simp⟩
  · cases h
    exact .inl ⟨rfl, by simp⟩
  · cases h
  · cases h
    exact .inl ⟨rfl, by simp⟩
  · split at h
    · cases h
    · cases h
      exact .inl ⟨rfl, by simp⟩
    · rename_i shardHeader hcheck
      refine .inr ⟨⟨by omega, by omega, by simpa using hknown, ?_, shardHeader, hcheck, ?_⟩, ?_⟩
      · simpa [Option.isSome_iff_ne_none] using hparent
      · exact (chooseRootTip_fails_iff (by omega)).mp ⟨e, s', h⟩
      · rw [chooseRootTip_getRootBlockByHash h]
        exact Function.update_self ..

theorem addRootBlock_known (hheight : n.genesisRootHeight < rBlock.number) (hver : rBlock.version = 0)
    (hknown : s.getRootBlockByHash rBlock.hash = some rBlock) :
    s.addRootBlock n nested rBlock = .ok (.ok false, s) := by
  rw [MinorBlockChain.addRootBlock, if_neg (by omega), if_neg (by simpa using hver),
    if_pos (by simp [hknown])]

theorem MinorBlockChain.StoredThenRejected.rejected (h : s.StoredThenRejected n nested rBlock) :
    ∃ e s', s.addRootBlock n nested rBlock = .ok (.error e, s') ∧
      s'.getRootBlockByHash rBlock.hash = some rBlock := by
  obtain ⟨hheight, hver, hknown, hparent, shardHeader, hcheck, hlate⟩ := h
  obtain ⟨e, s', hchoose⟩ := (chooseRootTip_fails_iff hheight).mpr hlate
  refine ⟨e, s', ?_, ?_⟩
  · rw [MinorBlockChain.addRootBlock, if_neg (by omega), if_neg (by simpa using hver),
      if_neg (by simp [hknown]), if_neg (by simpa [Option.isSome_iff_ne_none] using hparent)]
    simp only [hcheck]
    exact hchoose
  · rw [chooseRootTip_getRootBlockByHash hchoose]
    exact Function.update_self ..

/-- **When a rejection can be relied on**: exactly when the root block does not fail a check after it was stored. -/
theorem repeatable_iff : s.Repeatable n nested rBlock ↔ ¬s.StoredThenRejected n nested rBlock := by
  constructor
  · intro hrep hlate
    obtain ⟨e, s', hrej, hstored⟩ := hlate.rejected
    obtain ⟨s'', hagain⟩ := hrep.again e s' hrej
    rw [addRootBlock_known hlate.height hlate.version hstored] at hagain
    cases hagain
  · intro hearly
    refine ⟨fun e s' h => ?_, fun s' h => ?_⟩
    · rcases addRootBlock_rejected h with ⟨rfl, -⟩ | ⟨hlate, -⟩
      · exact ⟨_, h⟩
      · exact absurd hlate hearly
    · rcases addRootBlock_rejected h with ⟨-, hne⟩ | ⟨hlate, -⟩
      · exact absurd rfl hne
      · exact absurd hlate hearly

/-! ### A root block that is rejected and stays -/

def forkBlock (hash parentHash : Hash) (number : ℕ) (prevRootBlockHash : Hash) : MinorBlock :=
  { (default : Core.MinorBlock) with
    hash := hash, parentHash := parentHash, number := number, branch := ⟨1⟩
    prevRootBlockHash := prevRootBlockHash, root := hash }

theorem forkShards_nodup :
    (List.map Config.ShardConfig.getFullShardId [⟨0, 1, 0, some ⟨0, 12000000⟩, 8⟩]).Nodup := by
  decide

def forkSetup : ShardSetup where
  config := ⟨[⟨0, 1, 0, some ⟨0, 12000000⟩, 8⟩], 35760, 0, forkShards_nodup⟩
  branch := ⟨1⟩
  createMinorBlock rBlock := forkBlock 0x20 0 0 rBlock.hash

def forkRootBlock (hash parentHash : Hash) (number : ℕ) (hs : List MinorBlockHeader) : RootBlock where
  hash := hash
  parentHash := parentHash
  number := number
  coinbase := ⟨0xcc, 0⟩
  coinbaseAmount := ∅
  minorBlockHeaders := hs
  totalDifficulty := number

def forkGenesis : RootBlock := forkRootBlock 0x10 0x0f 0 []

def forkGenesisHeader : MinorBlockHeader := (forkSetup.createMinorBlock forkGenesis).header

def forkLeft : RootBlock := forkRootBlock 0x11 0x10 1 [forkGenesisHeader]
def forkRight : RootBlock := forkRootBlock 0x12 0x10 1 [forkGenesisHeader]

def forkMinorBlock : MinorBlock := forkBlock 0x21 0x20 1 0x12

def forkCrossed : RootBlock := forkRootBlock 0x13 0x11 2 [forkMinorBlock.header]

/-- **A rejected root block stays**: it names a minor block of the other root chain, and is accepted as known when
it is submitted again. -/
theorem crossed_rejected_then_known : ∃ s₁ s₂ s₃ s₄,
    (MinorBlockChain.initial forkSetup forkGenesis).addRootBlock forkSetup 1 forkLeft =
      .ok (.ok true, s₁) ∧
    s₁.addRootBlock forkSetup 1 forkRight = .ok (.ok false, s₂) ∧
    s₂.importBlock forkMinorBlock = .ok (.ok (), s₃) ∧
    s₃.addRootBlock forkSetup 1 forkCrossed = .ok (.error .errNotSameRootChain, s₄) ∧
    s₄.addRootBlock forkSetup 1 forkCrossed = .ok (.ok false, s₄) ∧
    s₄.getRootBlockByHash forkCrossed.hash = some forkCrossed ∧
    ¬s₃.Repeatable forkSetup 1 forkCrossed := by
  refine ⟨_, _, _, _, rfl, rfl, rfl, rfl, rfl, rfl, fun hrep => ?_⟩
  exact Option.some_ne_none _ (hrep.traceless _ rfl).absent

end QuarkChain.Minor
