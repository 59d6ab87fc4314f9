/-
# What a shard knows of the root chain

`MinorBlockChain` here is the part of the node that cross-shard delivery reads.  Its two functions are what a
read returns, through the caches that the source has before both stores (`rootBlockCache`,
`crossShardTxListCache`).  The second cache can differ from its store: a list that was read once is returned again
also after `AddCrossShardTxListByMinorBlockHash` has written another one.

`Linked` is a stretch of the root chain as the node stores it: every block is found under its hash,
and each names the one before it as its parent, one height below.
-/
import QuarkChain.Types.CrossShard

namespace QuarkChain.XShard

open Account Config QuarkChain.Types

/-- The node's view used by cross-shard delivery (`core.MinorBlockChain`). -/
structure MinorBlockChain where
  config : QuarkChainConfig
  branch : Branch
  getRootBlockByHash : Hash → Option RootBlock
  readCrossShardTxList : Hash → Option (List CrossShardTransactionDeposit)

/-- How a traversal step can stop without a result: the errors `getNextTx` and `getCurrentTx`
return, the nil dereferences they can run into, and the `log.Crit` of `GetRootBlockByHeight`. -/
inductive CursorStop
  | shardDepositIndexShouldBe1or2
  | xShardDepositIndexShould0
  | should0
  | shouldNil
  | nilPrevRootBlock
  | nilDepositList
  | nilMaxRootBlock
  | nilRBlock
  | headerIndexOutOfRange
  | critParentMissing
deriving DecidableEq

namespace MinorBlockChain

variable (bc : MinorBlockChain)

def getGenesisRootHeight : ℕ := bc.config.getGenesisRootHeight bc.branch.value

def isNeighbor (remoteBranch : Branch) (rootHeight : ℕ) : Bool :=
  bc.config.isNeighborAt bc.branch remoteBranch rootHeight

/-- The loop of `GetRootBlockByHeight`: follow parent links until the height matches.  Numbers go
down by one along parent links, so the fuel given below is the number of links to follow. -/
def walkDown (height : ℕ) : ℕ → RootBlock → Except CursorStop RootBlock
  | fuel, r =>
      if height = r.number then .ok r
      else
        match fuel with
        | 0 => .error .critParentMissing
        | fuel + 1 =>
            match bc.getRootBlockByHash r.parentHash with
            | none => .error .critParentMissing
            | some p => walkDown height fuel p

/-- `GetRootBlockByHeight`: the ancestor of block `h` at the given height; `none` for nil. -/
def getRootBlockByHeight (h : Hash) (height : ℕ) : Except CursorStop (Option RootBlock) :=
  match bc.getRootBlockByHash h with
  | none => .ok none
  | some r =>
      if height > r.number then .ok none
      else (bc.walkDown height (r.number - height) r).map some

end MinorBlockChain

/-- A stretch of the stored root chain, oldest block first. -/
inductive Linked (bc : MinorBlockChain) : List RootBlock → Prop
  | one {r : RootBlock} (h : bc.getRootBlockByHash r.hash = some r) : Linked bc [r]
  | link {r r' : RootBlock} {l : List RootBlock} (h : bc.getRootBlockByHash r.hash = some r)
      (hp : r'.parentHash = r.hash) (hn : r'.number = r.number + 1) (hl : Linked bc (r' :: l)) :
      Linked bc (r :: r' :: l)

namespace Linked

variable {bc : MinorBlockChain} {r m : RootBlock} {l l' : List RootBlock}

theorem stored (h : Linked bc l) (hr : r ∈ l) : bc.getRootBlockByHash r.hash = some r := by
  induction h with
  | one h =>
    cases List.mem_singleton.mp hr
    exact h
  | link h _ _ _ ih =>
    rcases List.mem_cons.mp hr with rfl | hr
    · exact h
    · exact ih hr

theorem number_getLast (h : Linked bc (r :: l)) (hm : (r :: l).getLast? = some m) :
    m.number = r.number + l.length := by
  generalize hs : r :: l = s at h hm
  induction h generalizing r l with
  | one _ =>
    cases hs
    simp at hm
    simp [hm]
  | @link a b t _ _ hn _ ih =>
    cases hs
    have := ih rfl (by simpa using hm)
    simp only [List.length_cons]
    omega

theorem mono {bc' : MinorBlockChain} (h : Linked bc l)
    (hmono : ∀ k r, bc.getRootBlockByHash k = some r → bc'.getRootBlockByHash k = some r) :
    Linked bc' l := by
  induction h with
  | one h => exact .one (hmono _ _ h)
  | link h hp hn _ ih => exact .link (hmono _ _ h) hp hn ih

theorem concat (h : Linked bc l) (hm : l.getLast? = some m)
    (hr : bc.getRootBlockByHash r.hash = some r) (hp : r.parentHash = m.hash)
    (hn : r.number = m.number + 1) : Linked bc (l ++ [r]) := by
  induction h with
  | one h =>
    cases hm
    exact .link h hp hn (.one hr)
  | link h hp' hn' _ ih => exact .link h hp' hn' (ih (by simpa using hm))

theorem pairwise_number (h : Linked bc l) : l.Pairwise fun a b => a.number < b.number := by
  induction h with
  | one _ => exact List.pairwise_singleton _ _
  | @link a b t _ _ hn _ ih =>
    refine List.pairwise_cons.mpr ⟨fun c hc => ?_, ih⟩
    rcases List.mem_cons.mp hc with rfl | hc
    · omega
    · have := List.rel_of_pairwise_cons ih hc
      omega

theorem append_left (h : Linked bc (l ++ l')) (hl : l ≠ []) : Linked bc l := by
  induction l with
  | nil => exact absurd rfl hl
  | cons a t ih =>
    rcases t with _ | ⟨b, t⟩
    · exact .one (h.stored (by simp))
    cases h with
    | link h hp hn ht => exact .link h hp hn (ih ht (by simp))

theorem ne_nil (h : Linked bc l) : l ≠ [] := by
  cases h <;> simp

theorem take (h : Linked bc l) (k : ℕ) : Linked bc (l.take (k + 1)) := by
  have hsplit : Linked bc (l.take (k + 1) ++ l.drop (k + 1)) := by rwa [List.take_append_drop]
  exact hsplit.append_left (by simpa using h.ne_nil)

theorem append_right (h : Linked bc (l ++ l')) (hl : l' ≠ []) : Linked bc l' := by
  induction l with
  | nil => exact h
  | cons a t ih =>
    rcases ht : t ++ l' with _ | ⟨b, s⟩
    · simp_all
    rw [List.cons_append, ht] at h
    cases h with
    | link _ _ _ hs => exact ih (ht ▸ hs)

theorem walkDown_getLast (h : Linked bc (r :: l)) (hm : (r :: l).getLast? = some m) :
    bc.walkDown r.number l.length m = .ok r := by
  induction l using List.reverseRecOn generalizing m with
  | nil =>
    simp at hm
    simp [MinorBlockChain.walkDown, hm]
  | append_singleton s b ih =>
    have hb : m = b := by
      rw [← List.cons_append, List.getLast?_concat] at hm
      exact (Option.some.inj hm).symm
    subst hb
    obtain ⟨s', p, hs⟩ : ∃ s' p, r :: s = s' ++ [p] := by
      rcases List.eq_nil_or_concat (r :: s) with h | ⟨s', p, h⟩
      · cases h
      · exact ⟨s', p, by simpa using h⟩
    have hconcat : Linked bc ((r :: s) ++ [m]) := by simpa using h
    have hlow : Linked bc (r :: s) := hconcat.append_left (by simp)
    have htop : Linked bc [p, m] := by
      refine append_right (l := s') ?_ (by simp)
      rw [← List.cons_append, hs] at h
      simpa using h
    have hnum : p.number = r.number + s.length := hlow.number_getLast (by simp [hs])
    cases htop with
    | link hp hparent hn _ =>
      have hne : r.number ≠ m.number := by omega
      rw [List.length_append, List.length_singleton, MinorBlockChain.walkDown, if_neg hne]
      simp only [hparent, hp]
      exact ih hlow (by simp [hs])

/-- **Lookup by height on the stored root chain.** -/
theorem getRootBlockByHeight (h : Linked bc (l ++ r :: l')) (hm : (r :: l').getLast? = some m) :
    bc.getRootBlockByHeight m.hash r.number = .ok (some r) := by
  have hup : Linked bc (r :: l') := h.append_right (by simp)
  have hstored := hup.stored (List.mem_of_getLast? hm)
  have hnum := hup.number_getLast hm
  have hlen : m.number - r.number = l'.length := by omega
  have hle : ¬ r.number > m.number := by omega
  simp [MinorBlockChain.getRootBlockByHeight, hstored, hle, hlen, hup.walkDown_getLast hm,
    Except.map]

theorem getRootBlockByHeight_none {height : ℕ} (h : Linked bc l) (hm : l.getLast? = some m)
    (hh : m.number < height) : bc.getRootBlockByHeight m.hash height = .ok none := by
  simp [MinorBlockChain.getRootBlockByHeight, h.stored (List.mem_of_getLast? hm), hh]

end Linked
end QuarkChain.XShard
