/-
# Checking minor blocks without inserting them

`CheckMinorBlock` of `src/core/minorblockchain.go` runs `insertChain` with `readOnly` set, and
`ShardBackend.CheckMinorBlock` (`src/cluster/shard/api_backend.go`) calls it for a stored block.  With that flag
an executed block is neither made the head nor written, but `insertSidechain` does not look at the flag before
it stores blocks.

A check of stored blocks changes nothing: that is an instance of the rule for insertions (`Kept`), for the
property to be the chain that it is.  `checkMinorBlock_eq_iff` says for which blocks a check is one: not for a
new block whose parent has lost its state.
-/
import QuarkChain.Minor.Insert
import QuarkChain.Minor.Resubmit

namespace QuarkChain.Minor

open BlockTree QuarkChain.Types

namespace Setup

variable (n : Setup) (x : IndexSetup) (env : Env)

/-- `CheckMinorBlock` of the chain. -/
def checkMinorBlock (nested : ℕ) (chain : List MinorBlock) (t : IndexedChain) : InsertResult Unit :=
  if chain.isEmpty then (.ok (.ok ()), t)
  else (n.insertChain x env true true nested chain t).andThen fun _ t => (.ok (.ok ()), t)

/-- `ShardBackend.CheckMinorBlock`; `none` is the error for a block that cannot be found. -/
def checkMinorBlockByHeader (nested : ℕ) (header : MinorBlockHeader) (t : IndexedChain) :
    Option (Except Fatal (Except InsertError Unit)) × IndexedChain :=
  match t.chain.getMinorBlock header.hash with
  | none => (none, t)
  | some block =>
      if header.number = 0 then (some (.ok (.ok ())), t)
      else
        let r := n.checkMinorBlock x env nested [block] t
        (some r.1, r.2)

end Setup

/-- The check of a block stores it: the chain is not terminating, the block is new, its parent is
stored without a state, and it does not name the state of the canonical block at its height. -/
structure Persists (n : Setup) (env : Env) (s : MinorBlockChain) (block : MinorBlock) : Prop where
  running : env.procInterrupt true [block] = false
  pruned : n.validateBlock (env.now block) s block true = .error (.error .errPrunedAncestor)
  ghostless : Setup.ghostState s block = false
  fresh : s.getMinorBlock block.hash = none

/-- Every stored block is kept under its own hash. -/
def Keyed (s : MinorBlockChain) : Prop := ∀ k b, s.getMinorBlock k = some b → b.hash = k

variable {n : Setup} {x : IndexSetup} {env : Env} {t : IndexedChain} {block : MinorBlock}
  {chain : List MinorBlock} {nested : ℕ}

theorem Keyed.hasBlock {s : MinorBlockChain} (hkeyed : Keyed s) {k : Hash}
    (hb : s.getMinorBlock k = some block) : s.hasBlock block.hash = true := by
  rw [hkeyed _ _ hb, MinorBlockChain.hasBlock, hb]
  rfl

theorem Keyed.writeMinorBlock {s : MinorBlockChain} (hkeyed : Keyed s) :
    Keyed (s.writeMinorBlock block) := by
  intro k b hb
  rcases store_cases hb with ⟨rfl, rfl⟩ | hold
  · rfl
  · exact hkeyed k b hold

/-- Being this very chain is kept by a check of blocks that it stores: nothing is imported, and no
block is new. -/
theorem kept_stored (hkeyed : Keyed t.chain) :
    Kept n x true (· = t) fun b => t.chain.hasBlock b.hash = true where
  imported hro := nomatch hro
  side := by
    rintro now force t block rfl hstored - hnone
    rw [MinorBlockChain.hasBlock, hnone] at hstored
    cases hstored
  stored := by
    rintro t k block rfl hb
    exact hkeyed.hasBlock hb

/-- **A check of stored blocks changes nothing**, whether or not their parents have states. -/
theorem checkMinorBlock_stored (hkeyed : Keyed t.chain)
    (hstored : ∀ b ∈ chain, t.chain.hasBlock b.hash = true) :
    (n.checkMinorBlock x env nested chain t).2 = t := by
  rw [Setup.checkMinorBlock]
  split_ifs
  · rfl
  · exact InsertResult.andThen_snd (P := (· = t)) ((kept_stored hkeyed).insertChain rfl hstored)
      fun _ _ => id

/-! ### One block -/

theorem imports_readOnly {P : IndexedChain → Prop} {Q : MinorBlock → Prop} : Imports n x true P Q where
  imported hro := nomatch hro

theorem Keyed.writeSideBlock (hkeyed : Keyed t.chain) : Keyed (Setup.writeSideBlock t block).chain := by
  rw [Setup.writeSideBlock]
  split_ifs
  · exact hkeyed
  · exact hkeyed.writeMinorBlock

theorem insertSidechain_singleton (hkeyed : Keyed t.chain)
    (hghost : Setup.ghostState t.chain block = false) :
    (n.insertSidechain env true (n.insertChain x env true true nested) block [] t).2 =
      Setup.writeSideBlock t block := by
  have hkeyed₁ : Keyed (Setup.writeSideBlock t block).chain := hkeyed.writeSideBlock
  rw [Setup.insertSidechain, Setup.sideLoop, hghost]
  simp only [Bool.false_eq_true, if_false, InsertResult.andThen]
  split_ifs
  · rfl
  split
  · rfl
  rename_i blocks hblocks
  obtain ⟨b, hb, hwithout⟩ := Option.bind_eq_some_iff.mp hblocks
  -- what is executed now is stored
  refine Kept.importBatches (P := (· = Setup.writeSideBlock t block))
    (fun chain t hP hQ => (kept_stored hkeyed₁).insertChain hP hQ) rfl ?_
  exact withoutState_forall (fun _ _ => hkeyed₁.hasBlock) (hkeyed₁.hasBlock hb) (by simp) hwithout

/-- **Everything a check of one block does to the chain.** -/
theorem checkMinorBlock_singleton (hkeyed : Keyed t.chain) :
    (n.checkMinorBlock x env (nested + 1) [block] t).2 = if env.procInterrupt true [block] = false ∧
          n.validateBlock (env.now block) t.chain block true = .error (.error .errPrunedAncestor) ∧
          Setup.ghostState t.chain block = false then Setup.writeSideBlock t block else t := by
  refine InsertResult.andThen_snd (P := (· = _)) ?_ fun _ _ => id
  rw [Setup.insertChain]
  split_ifs with h
  · obtain ⟨hrun, hpruned, hghost⟩ := h
    rw [Setup.insertWith, hrun]
    simp only [Bool.false_eq_true, if_false, hpruned]
    exact insertSidechain_singleton hkeyed hghost
  · refine imports_readOnly.insertWith (P := (· = t)) (Q := fun _ => True) ?_ rfl fun _ _ => trivial
    rintro b rest hchain hrun hpruned
    cases hchain
    have hghost : Setup.ghostState t.chain block = true := by
      by_contra hne
      exact h ⟨hrun, hpruned, by simpa using hne⟩
    rw [Setup.insertSidechain, Setup.sideLoop, if_pos hghost]
    rfl

/-- **When a check is only a check**: exactly when the block is not a new one whose parent has lost its state. -/
theorem checkMinorBlock_eq_iff (hkeyed : Keyed t.chain) {nested : ℕ} :
    (n.checkMinorBlock x env (nested + 1) [block] t).2 = t ↔ ¬Persists n env t.chain block := by
  rw [checkMinorBlock_singleton hkeyed]
  constructor
  · rintro heq ⟨hrun, hpruned, hghost, hfresh⟩
    have hget : (Setup.writeSideBlock t block).chain.getMinorBlock block.hash = none := by
      rw [if_pos ⟨hrun, hpruned, hghost⟩] at heq
      rw [heq]
      exact hfresh
    rw [Setup.writeSideBlock, MinorBlockChain.hasBlock, hfresh] at hget
    simp [IndexedChain.writeMinorBlock, MinorBlockChain.writeMinorBlock] at hget
  · intro hper
    split_ifs with h
    · obtain ⟨hrun, hpruned, hghost⟩ := h
      have hstored : t.chain.hasBlock block.hash = true := by
        by_contra hnone
        exact hper ⟨hrun, hpruned, hghost, by simpa [MinorBlockChain.hasBlock] using hnone⟩
      exact if_pos hstored
    · rfl

/-! ### A check that stores its block -/

def prunedSetup : Setup where
  toShardSetup := forkSetup
  blockExtraDataSizeLimit := 0
  skipMinorDifficultyCheck := true
  disablePowCheck := true
  gasLimit := 0
  calculateDifficulty _ _ := none
  verifySeal _ _ := true
  validateSeal _ _ := true
  metaDataHash _ := 0
  calculateMerkleRoot _ := 0
  execute _ block := some ⟨block.root, []⟩

def prunedIndexes : IndexSetup where
  toShardSetup := forkSetup
  networkID := 1
  received _ := []

def prunedEnv : Env where
  now _ := 0
  procInterrupt _ _ := false
  heavy _ := false

def prunedParent : MinorBlock := { forkBlock 0x21 0x20 1 0x10 with time := 1 }
def prunedChild : MinorBlock := { forkBlock 0x22 0x21 2 0x10 with time := 2 }

def prunedChain : IndexedChain where
  chain :=
    let s := ((MinorBlockChain.initial forkSetup forkGenesis).writeBlockWithState prunedParent true).2
    { s with hasState := Function.update s.hasState prunedParent.root false }
  index := ⟨fun _ => none, fun _ => false⟩
  confirmed _ := none

theorem prunedChain_keyed : Keyed prunedChain.chain := by
  have hinit : Keyed (MinorBlockChain.initial forkSetup forkGenesis) := by
    intro k b hb
    have hstore : Function.update (fun _ => none) 0x20 (some (forkBlock 0x20 0 0 0x10)) k = some b := hb
    rcases store_cases hstore with ⟨rfl, rfl⟩ | hold
    · rfl
    · cases hold
  intro k b hb
  exact hinit.writeMinorBlock k b hb

/-- The head itself can be checked: it is stored, and the check changes nothing. -/
theorem checkMinorBlock_head :
    (prunedSetup.checkMinorBlock prunedIndexes prunedEnv 1 [prunedParent] prunedChain).2 = prunedChain :=
  (checkMinorBlock_eq_iff prunedChain_keyed).mpr fun h => Option.some_ne_none _ h.fresh

/-- **The shard's own entry point never writes**: it only passes on blocks that are stored. -/
theorem checkMinorBlockByHeader_snd {t : IndexedChain} (hkeyed : Keyed t.chain) {nested : ℕ}
    {header : MinorBlockHeader} : (n.checkMinorBlockByHeader x env nested header t).2 = t := by
  rw [Setup.checkMinorBlockByHeader]
  split
  · rfl
  · rename_i b hb
    split_ifs
    · rfl
    exact checkMinorBlock_stored hkeyed (List.forall_mem_singleton.mpr (hkeyed.hasBlock hb))

/-- Also where the check goes to the side chain: the block is stored, and its parent has lost its state. -/
theorem prunedChain_unwritten :
    let t := prunedChain.writeMinorBlock prunedChild
    prunedSetup.validateBlock 0 t.chain prunedChild true = .error (.error .errPrunedAncestor) ∧
      (prunedSetup.checkMinorBlockByHeader prunedIndexes prunedEnv 1 prunedChild.header t).2 = t :=
  ⟨rfl, checkMinorBlockByHeader_snd prunedChain_keyed.writeMinorBlock⟩

/-- **A check that stores its block**, the child of a block that has lost its state. -/
theorem checkMinorBlock_stores :
    prunedChain.chain.getMinorBlock prunedChild.hash = none ∧
      (prunedSetup.checkMinorBlock prunedIndexes prunedEnv 1 [prunedChild] prunedChain).2.chain.getMinorBlock
        prunedChild.hash = some prunedChild :=
  ⟨rfl, rfl⟩

end QuarkChain.Minor
