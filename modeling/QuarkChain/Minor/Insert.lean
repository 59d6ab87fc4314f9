/-
# Inserting minor blocks

`InsertChainForDeposits`, `insertChain` and `insertSidechain` of `src/core/minorblockchain.go`, with the indexes
that every written block moves.  When the parent of the first block has a state, the batch is validated,
executed and written block by block; when the parent is stored without one, the batch goes to the side chain,
where blocks are stored unexecuted, and are executed later, together with their ancestors, if they reach the
height of the head.  With `readOnly` (`CheckMinorBlock`) an executed block is neither made the head nor written.

Neither `ErrFutureBlock` nor the `ErrUnknownAncestor` that `insertChain` compares with is ever
returned by the validator, so the queue of future blocks is never entered and is not modelled.  The chain is
part of the result also where the process ends, since what was written by then stays in the database; when it
ends inside `WriteBlockWithState`, this is the chain before that call.

What changes the chain are two elementary steps only: `importBlock` on a block that was validated and
executed, and `writeMinorBlock` on a block whose parent has no state.  `Kept` is the
induction rule that follows: what both steps keep, every insertion keeps.
-/
import QuarkChain.Minor.TxIndex
import QuarkChain.Minor.Validator

namespace QuarkChain.Minor

open BlockTree QuarkChain.Types

/-- What an insertion meets from outside: the time at which each block is validated, the flag of a
chain that is terminating (read when `insertChain` starts and before each block, with the rest of the
batch at that point), and whether a batch is heavy enough to be imported at once. -/
structure Env where
  now : MinorBlock → ℕ
  procInterrupt : Bool → List MinorBlock → Bool
  heavy : List MinorBlock → Bool

/-- The errors of an insertion. -/
inductive InsertError
  | nonContiguousInsert
  | validate (e : ValidateError)
  | execute
  | invalidStateRoot
  | index (e : IndexError)
  | sidechainGhostStateAttack
  | missingParent
deriving DecidableEq

/-- The outgoing deposits of the executed blocks. -/
abbrev XShardLists := List (List CrossShardTransactionDeposit)

/-- How an insertion ends, and the chain at that point. -/
abbrev InsertResult (α : Type) := Except Fatal (Except InsertError α) × IndexedChain

/-- Go on after a step that returned without an error. -/
def InsertResult.andThen {α β : Type} (r : InsertResult α) (f : α → IndexedChain → InsertResult β) :
    InsertResult β :=
  match r with
  | (.ok (.ok a), t) => f a t
  | (.ok (.error e), t) => (.ok (.error e), t)
  | (.error f, t) => (.error f, t)

/-- `WriteBlockWithoutState`: no index is touched. -/
def IndexedChain.writeMinorBlock (t : IndexedChain) (b : MinorBlock) : IndexedChain :=
  { t with chain := t.chain.writeMinorBlock b }

namespace Setup

variable (n : Setup) (x : IndexSetup) (env : Env) (force readOnly : Bool)

/-- The body of the import loop. -/
def importExecuted (t : IndexedChain) (block : MinorBlock) :
    InsertResult (List CrossShardTransactionDeposit) :=
  match n.execute t.chain block with
  | none => (.ok (.error .execute), t)
  | some executed =>
      if executed.root ≠ block.root then (.ok (.error .invalidStateRoot), t)
      else if readOnly then (.ok (.ok executed.xShardList), t)
      else
        match x.importBlock t block with
        | .error f => (.error f, t)
        | .ok (.error e, t₁) => (.ok (.error (.index e)), t₁)
        | .ok (.ok _, t₁) => (.ok (.ok executed.xShardList), t₁)

/-- The import loop: validate a block, look at the interrupt flag, and import the block. -/
def importLoop : List MinorBlock → IndexedChain → InsertResult XShardLists
  | [], t => (.ok (.ok []), t)
  | block :: rest, t =>
      match n.validateBlock (env.now block) t.chain block force with
      | .error (.fatal f) => (.error f, t)
      | .error (.error e) => (.ok (.error (.validate e)), t)
      | .ok _ =>
          if env.procInterrupt false (block :: rest) then (.ok (.ok []), t)
          else
            (n.importExecuted x readOnly t block).andThen fun xShardList t =>
              (importLoop rest t).andThen fun lists t => (.ok (.ok (xShardList :: lists)), t)

/-- Does the block name the state of the canonical block at its height? -/
def ghostState (s : MinorBlockChain) (block : MinorBlock) : Bool :=
  decide (block.number ≤ s.currentBlock.number) &&
    (s.getBlockByNumber block.number).any fun canonical => canonical.root == block.root

/-- A side block is stored unless it is there. -/
def writeSideBlock (t : IndexedChain) (block : MinorBlock) : IndexedChain :=
  if t.chain.hasBlock block.hash then t else t.writeMinorBlock block

/-- The loop of `insertSidechain`, for a block whose parent has no state and the rest of the batch.
It ends with the last block stored, and with the error of the block after it.  It does not look at
`readOnly`. -/
def sideLoop : List MinorBlock → MinorBlock → IndexedChain →
    InsertResult (MinorBlock × Option ValidateError)
  | rest, block, t =>
      if ghostState t.chain block then (.ok (.error .sidechainGhostStateAttack), t)
      else
        let t₁ := writeSideBlock t block
        match rest with
        | [] => (.ok (.ok (block, none)), t₁)
        | next :: rest =>
            match n.validateBlock (env.now next) t₁.chain next force with
            | .error (.fatal f) => (.error f, t₁)
            | .error (.error .errPrunedAncestor) => sideLoop rest next t₁
            | .error (.error e) => (.ok (.ok (block, some e)), t₁)
            | .ok _ => (.ok (.ok (block, none)), t₁)

/-- The blocks without a state, from a block down, the lowest first; `none` is the error
`missing parent`. -/
def withoutState (s : MinorBlockChain) : ℕ → MinorBlock → List MinorBlock → Option (List MinorBlock)
  | fuel, b, above =>
      if s.hasState b.root then some above
      else
        match fuel with
        | 0 => none
        | fuel + 1 =>
            match s.getMinorBlock b.parentHash with
            | none => none
            | some p => withoutState s fuel p (b :: above)

/-- The second loop of `insertSidechain`: collected blocks are imported when they are heavy enough, and what is
left of them at the end. -/
def importBatches (insertChain : List MinorBlock → IndexedChain → InsertResult XShardLists) :
    List MinorBlock → List MinorBlock → IndexedChain → InsertResult XShardLists
  | blocks, [], t => if blocks.isEmpty then (.ok (.ok []), t) else insertChain blocks t
  | blocks, b :: rest, t =>
      if env.heavy (blocks ++ [b]) then
        (insertChain (blocks ++ [b]) t).andThen fun _ t =>
          if env.procInterrupt false rest then (.ok (.ok []), t)
          else importBatches insertChain [] rest t
      else importBatches insertChain (blocks ++ [b]) rest t

/-- `insertSidechain`, for a first block whose parent has no state. -/
def insertSidechain (insertChain : List MinorBlock → IndexedChain → InsertResult XShardLists)
    (block : MinorBlock) (rest : List MinorBlock) (t : IndexedChain) : InsertResult XShardLists :=
  (n.sideLoop env force rest block t).andThen fun (last, err) t₁ =>
    if t.chain.currentBlock.number > last.number then
      match err with
      | none => (.ok (.ok []), t₁)
      | some e => (.ok (.error (.validate e)), t₁)
    else
      match (t₁.chain.getMinorBlock last.hash).bind fun b =>
          withoutState t₁.chain (b.number + 1) b [] with
      | none => (.ok (.error .missingParent), t₁)
      | some blocks => importBatches env insertChain [] blocks t₁

/-- A known block at or below the head. -/
def skipped (s : MinorBlockChain) (block : MinorBlock) : Bool :=
  decide (n.validateBlock (env.now block) s block force = .error (.error .errKnownBlock)) &&
    decide (block.number ≤ s.currentBlock.number)

/-- `insertChain`, over a way to import side chains: the first block decides. -/
def insertWith (insertSidechain : MinorBlock → List MinorBlock → IndexedChain →
    InsertResult XShardLists) (chain : List MinorBlock) (t : IndexedChain) :
    InsertResult XShardLists :=
  if env.procInterrupt true chain then (.ok (.ok []), t)
  else
    match chain with
    | [] => (.ok (.ok []), t)
    | block :: rest =>
        match n.validateBlock (env.now block) t.chain block force with
        | .error (.error .errPrunedAncestor) => insertSidechain block rest t
        | .error (.error .errKnownBlock) =>
            n.importLoop x env force readOnly
              ((block :: rest).dropWhile (n.skipped env force t.chain)) t
        | _ => n.importLoop x env force readOnly (block :: rest) t

/-- `insertChain`.  The number bounds how often a side chain is imported within a side chain. -/
def insertChain : ℕ → List MinorBlock → IndexedChain → InsertResult XShardLists
  | 0 => n.insertWith x env force readOnly fun _ _ t => (.error .outOfFuel, t)
  | nested + 1 =>
      n.insertWith x env force readOnly (n.insertSidechain env force (insertChain nested))

/-- Every block is the child of the one before it. -/
def contiguous : List MinorBlock → Bool
  | [] => true
  | [_] => true
  | a :: b :: rest => b.number == a.number + 1 && b.parentHash == a.hash && contiguous (b :: rest)

/-- `InsertChainForDeposits`. -/
def insertChainForDeposits (nested : ℕ) (chain : List MinorBlock) (t : IndexedChain) :
    InsertResult XShardLists :=
  if chain.isEmpty then (.ok (.ok []), t)
  else if contiguous chain then n.insertChain x env force false nested chain t
  else (.ok (.error .nonContiguousInsert), t)

end Setup

/-! ### What every insertion keeps -/

section Induct

variable {n : Setup} {x : IndexSetup} {env : Env} {force readOnly : Bool} {P : IndexedChain → Prop}
  {Q : MinorBlock → Prop}

/-- A property of chains that the import of an executed block keeps, for blocks that satisfy `Q`.  With
`readOnly` every property is. -/
structure Imports (n : Setup) (x : IndexSetup) (readOnly : Bool) (P : IndexedChain → Prop)
    (Q : MinorBlock → Prop) : Prop where
  imported : ∀ {now force t block executed res t'}, readOnly = false → P t → Q block →
    n.validateBlock now t.chain block force = .ok () → n.execute t.chain block = some executed →
    executed.root = block.root → x.importBlock t block = .ok (res, t') → P t'

/-- A property of chains that both elementary steps of an insertion keep; the stored blocks are among
those that satisfy `Q`. -/
structure Kept (n : Setup) (x : IndexSetup) (readOnly : Bool) (P : IndexedChain → Prop)
    (Q : MinorBlock → Prop) : Prop extends Imports n x readOnly P Q where
  side : ∀ {now force t block}, P t → Q block →
    n.validateBlock now t.chain block force = .error (.error .errPrunedAncestor) →
    t.chain.getMinorBlock block.hash = none → P (t.writeMinorBlock block)
  stored : ∀ {t k block}, P t → t.chain.getMinorBlock k = some block → Q block

variable {rest blocks chain : List MinorBlock} {now nested : ℕ} {t : IndexedChain} {block : MinorBlock}

theorem InsertResult.andThen_snd {α β : Type} {r : InsertResult α}
    {f : α → IndexedChain → InsertResult β} (hr : P r.2) (hf : ∀ a t, P t → P (f a t).2) :
    P (r.andThen f).2 := by
  obtain ⟨_ | ⟨_ | a⟩, t⟩ := r
  · exact hr
  · exact hr
  · exact hf a t hr

theorem withoutState_forall {s : MinorBlockChain} (hstored : ∀ k p, s.getMinorBlock k = some p → Q p)
    {fuel : ℕ} {b : MinorBlock} {above : List MinorBlock} (hb : Q b) (habove : ∀ c ∈ above, Q c)
    (hs : Setup.withoutState s fuel b above = some blocks) : ∀ c ∈ blocks, Q c := by
  induction fuel generalizing b above with
  | zero =>
    rw [Setup.withoutState] at hs
    split_ifs at hs
    cases hs
    exact habove
  | succ fuel ih =>
    rw [Setup.withoutState] at hs
    split_ifs at hs
    · cases hs
      exact habove
    split at hs
    · cases hs
    · rename_i p hp
      exact ih (hstored _ p hp) (List.forall_mem_cons.mpr ⟨hb, habove⟩) hs

namespace Imports

variable (hi : Imports n x readOnly P Q)
include hi

theorem importExecuted (hP : P t) (hQ : Q block)
    (hv : n.validateBlock now t.chain block force = .ok ()) :
    P (n.importExecuted x readOnly t block).2 := by
  rw [Setup.importExecuted]
  split
  · exact hP
  rename_i executed hexec
  split_ifs with hroot hro
  · exact hP
  · exact hP
  have himp : ∀ {res t'}, x.importBlock t block = .ok (res, t') → P t' :=
    hi.imported (by simpa using hro) hP hQ hv hexec (not_not.mp hroot)
  split
  · exact hP
  · rename_i h
    exact himp h
  · rename_i h
    exact himp h

theorem importLoop (hP : P t) (hQ : ∀ b ∈ chain, Q b) :
    P (n.importLoop x env force readOnly chain t).2 := by
  induction chain generalizing t with
  | nil => exact hP
  | cons block rest ih =>
    obtain ⟨hblock, hrest⟩ := List.forall_mem_cons.mp hQ
    rw [Setup.importLoop]
    split
    · exact hP
    · exact hP
    rename_i hv
    split_ifs
    · exact hP
    exact InsertResult.andThen_snd (hi.importExecuted hP hblock hv) fun _ t ht =>
      InsertResult.andThen_snd (ih ht hrest) fun _ _ => id

theorem insertWith
    {insertSidechain : MinorBlock → List MinorBlock → IndexedChain → InsertResult XShardLists}
    (hside : ∀ block rest, chain = block :: rest → env.procInterrupt true chain = false →
      n.validateBlock (env.now block) t.chain block force = .error (.error .errPrunedAncestor) →
      P (insertSidechain block rest t).2) (hP : P t) (hQ : ∀ b ∈ chain, Q b) :
    P (n.insertWith x env force readOnly insertSidechain chain t).2 := by
  rw [Setup.insertWith.eq_def]
  split_ifs with hrun
  · exact hP
  split
  · exact hP
  split
  · rename_i hv
    exact hside _ _ rfl (by simpa using hrun) hv
  · exact hi.importLoop hP fun b hb => hQ b (List.dropWhile_subset _ hb)
  · exact hi.importLoop hP hQ

end Imports

namespace Kept

variable (hk : Kept n x readOnly P Q)
include hk

theorem writeSideBlock (hP : P t) (hQ : Q block)
    (hv : n.validateBlock now t.chain block force = .error (.error .errPrunedAncestor)) :
    P (Setup.writeSideBlock t block) := by
  rw [Setup.writeSideBlock]
  split_ifs with hhas
  · exact hP
  · exact hk.side hP hQ hv (by simpa [MinorBlockChain.hasBlock] using hhas)

theorem sideLoop (hP : P t) (hQ : ∀ b ∈ block :: rest, Q b)
    (hv : n.validateBlock now t.chain block force = .error (.error .errPrunedAncestor)) :
    P (n.sideLoop env force rest block t).2 := by
  have hP₁ := hk.writeSideBlock hP (hQ block List.mem_cons_self) hv
  induction rest generalizing block t now with
  | nil =>
    rw [Setup.sideLoop]
    split_ifs
    · exact hP
    · exact hP₁
  | cons next rest ih =>
    rw [Setup.sideLoop]
    split_ifs
    · exact hP
    dsimp only
    split
    · exact hP₁
    · rename_i hnext
      have hQ' : ∀ b ∈ next :: rest, Q b := fun b hb => hQ b (List.mem_cons_of_mem _ hb)
      exact ih hP₁ hQ' hnext (hk.writeSideBlock hP₁ (hQ' next List.mem_cons_self) hnext)
    · exact hP₁
    · exact hP₁

omit hk

theorem importBatches {insertChain : List MinorBlock → IndexedChain → InsertResult XShardLists}
    (hins : ∀ chain t, P t → (∀ b ∈ chain, Q b) → P (insertChain chain t).2)
    (hP : P t) (hQ : ∀ b ∈ blocks ++ rest, Q b) :
    P (Setup.importBatches env insertChain blocks rest t).2 := by
  induction rest generalizing blocks t with
  | nil =>
    rw [Setup.importBatches]
    split_ifs
    · exact hP
    · exact hins _ _ hP fun b hb => hQ b (by simpa using hb)
  | cons b rest ih =>
    have hsplit : blocks ++ b :: rest = (blocks ++ [b]) ++ rest := by simp
    rw [hsplit] at hQ
    rw [Setup.importBatches]
    split
    · refine InsertResult.andThen_snd (hins _ _ hP fun c hc => hQ c (List.mem_append_left _ hc))
        fun _ t ht => ?_
      split_ifs
      · exact ht
      · exact ih ht fun c hc => hQ c (List.mem_append_right _ hc)
    · exact ih hP hQ

include hk

theorem insertSidechain {insertChain : List MinorBlock → IndexedChain → InsertResult XShardLists}
    (hins : ∀ chain t, P t → (∀ b ∈ chain, Q b) → P (insertChain chain t).2) (hP : P t)
    (hQ : ∀ b ∈ block :: rest, Q b)
    (hv : n.validateBlock now t.chain block force = .error (.error .errPrunedAncestor)) :
    P (n.insertSidechain env force insertChain block rest t).2 := by
  refine InsertResult.andThen_snd (hk.sideLoop hP hQ hv) fun ⟨last, err⟩ t₁ ht₁ => ?_
  dsimp only
  split_ifs
  · split <;> exact ht₁
  split
  · exact ht₁
  rename_i blocks hblocks
  obtain ⟨b, hb, hwithout⟩ := Option.bind_eq_some_iff.mp hblocks
  have hstored : ∀ k p, t₁.chain.getMinorBlock k = some p → Q p := fun _ _ => hk.stored ht₁
  exact importBatches hins ht₁ (withoutState_forall hstored (hstored _ b hb) (by simp) hwithout)

/-- **The induction rule of insertions.**  What the elementary steps keep, every insertion keeps. -/
theorem insertChain (hP : P t) (hQ : ∀ b ∈ chain, Q b) :
    P (n.insertChain x env force readOnly nested chain t).2 := by
  induction nested generalizing chain t with
  | zero => exact hk.insertWith (fun _ _ _ _ _ => hP) hP hQ
  | succ nested ih =>
    refine hk.insertWith (fun block rest hchain _ hv => ?_) hP hQ
    subst hchain
    exact hk.insertSidechain (fun chain t hP hQ => ih hP hQ) hP hQ hv

end Kept

theorem Kept.insertChainForDeposits (hk : Kept n x false P Q) (hP : P t) (hQ : ∀ b ∈ chain, Q b) :
    P (n.insertChainForDeposits x env force nested chain t).2 := by
  rw [Setup.insertChainForDeposits]
  split_ifs
  · exact hP
  · exact hk.insertChain hP hQ
  · exact hP

/-- A block that is inserted without an error is one height above its stored parent. -/
theorem insertChainForDeposits_parent (hrun : env.procInterrupt true [block] = false)
    {lists : XShardLists}
    (hok : (n.insertChainForDeposits x env force nested [block] t).1 = .ok (.ok lists)) :
    ∃ p, t.chain.getMinorBlock block.parentHash = some p ∧ block.number = p.number + 1 := by
  have hv : ∀ e, n.validateBlock (env.now block) t.chain block force ≠ .error (.error (.header e)) := ?_
  · exact validateBlock_parent rfl hv
  intro e hv
  have hfails : ∀ side, (n.insertWith x env force false side [block] t).1 =
      .ok (.error (.validate (.header e))) := by
    intro side
    rw [Setup.insertWith, hrun]
    simp [hv, Setup.importLoop]
  have hchain : (n.insertChain x env force false nested [block] t).1 = .ok (.ok lists) := hok
  cases nested <;> rw [Setup.insertChain, hfails] at hchain <;> cases hchain

end Induct

end QuarkChain.Minor
