/-
# The ancestry check

`isSameChain` (`src/core/common.go`) decides whether one block is an ancestor of another, for blocks of the root
chain and of minor chains.  It ends the process (`log.Crit`) when the block that should be the longer chain is
the lower one, or when a parent on the way down is missing.
-/
import QuarkChain.Lib.BlockTree
import QuarkChain.Types.CrossShard

namespace QuarkChain.Root

open BlockTree QuarkChain.Types

instance : Chained Hash RootBlock where
  blockHash := RootBlock.hash
  parentHash := RootBlock.parentHash
  number := RootBlock.number

@[simp] theorem chained_hash (r : RootBlock) : blockHash r = r.hash := rfl
@[simp] theorem chained_parentHash (r : RootBlock) : parentHash r = r.parentHash := rfl
@[simp] theorem chained_number (r : RootBlock) : number r = r.number := rfl

/-- The zero hash, which `getParentHash` gives for a block that is not stored. -/
def emptyHash : Hash := 0

/-- The calls of `log.Crit`, each of which ends the process. -/
inductive Crit
  | wrongParameterOrder
  | mysteriouslyMissingBlocks
deriving DecidableEq

variable {β : Type} [Chained Hash β] (get : Hash → Option β)

/-- `getParentHash`, as the root chain and the minor chain pass it to the check. -/
def getParentHashByHash (h : Hash) : Hash := (get h).elim emptyHash parentHash

/-- The loop of `isSameChain`: the hash that `k` parent links below `h` lead to, and the number of parents that
were looked up. -/
def walkParents : ℕ → Hash → Except Crit Hash × ℕ
  | 0, h => (.ok h, 0)
  | k + 1, h =>
      if getParentHashByHash get h = emptyHash then (.error .mysteriouslyMissingBlocks, 1)
      else (walkParents k (getParentHashByHash get h)).map id (· + 1)

/-- `isSameChain`, together with the number of parents that it looks up. -/
def sameChain (longer shorter : β) : Except Crit Bool × ℕ :=
  if number longer < number shorter then (.error .wrongParameterOrder, 0)
  else if number shorter = number longer then (.ok (blockHash shorter == blockHash longer), 0)
  else if number shorter + 1 = number longer then (.ok (blockHash shorter == parentHash longer), 0)
  else
    (walkParents get (number longer - number shorter - 1) (parentHash longer)).map
      (·.map (· == blockHash shorter)) id

/-- What the check returns. -/
def isSameChain (longer shorter : β) : Except Crit Bool := (sameChain get longer shorter).1

/-- How many parents the check looks up. -/
def sameChainLookups (longer shorter : β) : ℕ := (sameChain get longer shorter).2

variable {get} {longer shorter p : β} {k : ℕ}

variable (hc : Consistent get) (hz : get emptyHash = none)
include hc hz

/-- The walk over stored blocks gets to the ancestor. -/
theorem walkParents_ancestor {a b : β} (ha : ancestor get (k + 1) b = some a) :
    (walkParents get k (parentHash b)).1 = .ok (blockHash a) := by
  induction k generalizing b with
  | zero =>
    obtain ⟨p, hp, hpa⟩ := Option.bind_eq_some_iff.mp ha
    cases hpa
    rw [walkParents, hc.keyed hp]
  | succ k ih =>
    obtain ⟨p, hp, hpa⟩ := Option.bind_eq_some_iff.mp ha
    have hparent : getParentHashByHash get (parentHash b) = parentHash p := by
      simp [getParentHashByHash, hp]
    have hne : parentHash p ≠ emptyHash := by
      intro he
      obtain ⟨q, hq, -⟩ := Option.bind_eq_some_iff.mp hpa
      rw [he, hz] at hq
      cases hq
    rw [walkParents, hparent, if_neg hne]
    exact ih hpa

/-- The check compares with the ancestor at the lower height. -/
theorem isSameChain_atHeight {a : β} (ha : atHeight get longer (number shorter) = some a) :
    isSameChain get longer shorter = .ok (decide (blockHash a = blockHash shorter)) := by
  rw [atHeight] at ha
  split_ifs at ha with hle
  rw [isSameChain, sameChain, if_neg (by omega)]
  split_ifs with heq hsucc
  · rw [heq, Nat.sub_self] at ha
    cases ha
    simp only [eq_comm (a := blockHash longer)]
    rfl
  · rw [show number longer - number shorter = 0 + 1 by omega] at ha
    have hw := walkParents_ancestor hc hz ha
    rw [walkParents, Except.ok.injEq] at hw
    simp only [hw, eq_comm (a := blockHash a)]
    rfl
  · rw [show number longer - number shorter = number longer - number shorter - 1 + 1 by omega] at ha
    rw [Prod.map_fst, walkParents_ancestor hc hz ha]
    rfl

/-- **The ancestry check, specified.** -/
theorem isSameChain_eq (hr : Rooted get longer) (hle : number shorter ≤ number longer) :
    isSameChain get longer shorter =
      .ok (decide ((atHeight get longer (number shorter)).map blockHash = some (blockHash shorter))) := by
  obtain ⟨a, ha, -⟩ := hr.atHeight_exists hle
  rw [isSameChain_atHeight hc hz ha, ha]
  simp only [Option.map_some, Option.some.injEq]

/-- **When the ancestry check ends the process.** -/
theorem isSameChain_crit_iff (hr : Rooted get longer) :
    (∃ e, isSameChain get longer shorter = .error e) ↔ number longer < number shorter := by
  constructor
  · rintro ⟨e, he⟩
    by_contra hlt
    rw [isSameChain_eq hc hz hr (by omega)] at he
    cases he
  · intro hlt
    exact ⟨.wrongParameterOrder, by rw [isSameChain, sameChain, if_pos hlt]⟩

omit hc hz

/-- The loop looks up at most one parent in each turn. -/
theorem walkParents_lookups_le (h : Hash) : (walkParents get k h).2 ≤ k := by
  induction k generalizing h with
  | zero => exact le_rfl
  | succ k ih =>
    rw [walkParents]
    split_ifs
    · exact Nat.succ_pos k
    · exact Nat.succ_le_succ (ih _)

/-- The check looks up a parent for each height strictly between the two blocks, at most. -/
theorem sameChainLookups_le : sameChainLookups get longer shorter ≤ number longer - number shorter - 1 := by
  unfold sameChainLookups sameChain
  split_ifs
  · exact Nat.zero_le _
  · exact Nat.zero_le _
  · exact Nat.zero_le _
  · exact walkParents_lookups_le _

/-- **The check on a tree of blocks** tells whether the first block descends from the other, the process survives,
and the loop looks up one parent less than there are heights between the two, or none. -/
theorem isSameChain_iff_descends (hc : Consistent get) (hz : get emptyHash = none)
    (htree : ∀ k b, get k = some b → Rooted get b) (hl : get (blockHash longer) = some longer)
    (hs : get (blockHash shorter) = some shorter) (hle : number shorter ≤ number longer) :
    (isSameChain get longer shorter = .ok true ↔ Descends get shorter longer) ∧
      (∀ e, isSameChain get longer shorter ≠ .error e) ∧
      sameChainLookups get longer shorter ≤ number longer - number shorter - 1 := by
  obtain ⟨a, ha, -⟩ := (htree _ _ hl).atHeight_exists hle
  have hcheck := isSameChain_atHeight hc hz ha
  refine ⟨⟨fun h => ?_, fun hd => ?_⟩, fun e he => ?_, sameChainLookups_le⟩
  · have hd := descends_of_atHeight ha
    have hhash : blockHash a = blockHash shorter := by simpa [hcheck] using h
    rwa [Consistent.eq_of_hash_eq (hc.stored_of_descends hl hd) hs hhash] at hd
  · rw [hc.atHeight_of_descends hl hd] at ha
    cases ha
    rw [hcheck, decide_eq_true rfl]
  · rw [hcheck] at he
    cases he

/-! ### A row of blocks -/

/-- The block at height `k` of a chain whose blocks are numbered from one. -/
def rowBlock (k : ℕ) : RootBlock where
  hash := BitVec.ofNat 256 (k + 1)
  parentHash := BitVec.ofNat 256 k
  number := k
  coinbase := ⟨0, 0⟩
  coinbaseAmount := ∅
  minorBlockHeaders := []

/-- A second block at height `3`. -/
def besideRow : RootBlock := { rowBlock 3 with hash := 9 }

/-- The heights `0` to `5` of the row, and the block beside it. -/
def forkedRow : List RootBlock := (List.range 6).map rowBlock ++ [besideRow]

theorem forkedRow_consistent : Consistent (ofList forkedRow) := consistent_ofList (by decide)

theorem forkedRow_rooted (k : Hash) (b : RootBlock) (h : ofList forkedRow k = some b) :
    Rooted (ofList forkedRow) b :=
  rooted_ofList (by decide) (by decide) h

/-- The block at height `5` descends from the one at height `1`, with three parents in between to look up, and
not from the block beside the row. -/
theorem forkedRow_descends :
    isSameChain (ofList forkedRow) (rowBlock 5) (rowBlock 1) = .ok true ∧
      sameChainLookups (ofList forkedRow) (rowBlock 5) (rowBlock 1) ≤ 3 ∧
      ¬Descends (ofList forkedRow) besideRow (rowBlock 5) := by
  have hfive : ofList forkedRow (rowBlock 5).hash = some (rowBlock 5) := by decide
  have hfirst : ofList forkedRow (rowBlock 1).hash = some (rowBlock 1) := by decide
  have hnine : ofList forkedRow besideRow.hash = some besideRow := by decide
  have hone := isSameChain_iff_descends forkedRow_consistent (by decide) forkedRow_rooted hfive hfirst
    (by decide)
  have hbeside := isSameChain_iff_descends forkedRow_consistent (by decide) forkedRow_rooted hfive hnine
    (by decide)
  refine ⟨hone.1.mpr ?_, hone.2.2, fun hd => ?_⟩
  · exact .step (p := rowBlock 4) (by decide) (.step (p := rowBlock 3) (by decide)
      (.step (p := rowBlock 2) (by decide) (.step (p := rowBlock 1) (by decide) .refl)))
  · exact absurd (hbeside.1.mpr hd) (by decide)

/-- At one height the check looks up no parents, which is not fewer than no heights. -/
theorem oneHeight_lookups : isSameChain (ofList forkedRow) (rowBlock 2) (rowBlock 2) = .ok true ∧
    ¬ sameChainLookups (ofList forkedRow) (rowBlock 2) (rowBlock 2) <
      (rowBlock 2).number - (rowBlock 2).number := by
  decide

end QuarkChain.Root
