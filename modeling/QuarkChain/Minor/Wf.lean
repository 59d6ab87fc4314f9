/-
# What every operation of the minor chain keeps

`Wf` is the invariant of the minor chain's stores: the stored blocks belong to one universe of blocks,
the head has all its ancestors, and the canonical index holds exactly them.  The counts of
transactions are part of it, because `reorg` needs the entry of every block that it inserts: a block
with an entry has parents with entries.
-/
import QuarkChain.Minor.Validator

namespace QuarkChain.Minor

open BlockTree QuarkChain.Types
open Root (emptyHash)

/-- The stores of the minor chain and its head.  A hash names one block of the universe `content`. -/
structure Wf (content : Hash → Option MinorBlock) (s : MinorBlockChain) : Prop where
  within : Within content s.getMinorBlock
  current : s.getMinorBlock s.currentBlock.hash = some s.currentBlock
  rooted : Rooted s.getMinorBlock s.currentBlock
  indexes : Indexes s.getMinorBlock s.canonicalHash s.currentBlock
  /-- Above height zero, what has a count of transactions has a parent with one. -/
  counted : ∀ {k b}, content k = some b → (s.totalTxCount k).isSome = true → 0 < b.number →
    (s.totalTxCount b.parentHash).isSome = true
  zeroCounted : ∀ {k b}, s.getMinorBlock k = some b → b.number = 0 →
    (s.totalTxCount k).isSome = true
  currentCounted : (s.totalTxCount s.currentBlock.hash).isSome = true
  genesis : s.getMinorBlock s.genesisBlock.hash = some s.genesisBlock ∧ s.genesisBlock.number = 0
  readGenesis : ∀ {k g}, s.readGenesis k = some g →
    s.getMinorBlock g.hash = some g ∧ g.number = 0

variable {content : Hash → Option MinorBlock} {s s' : MinorBlockChain} {b g p old new : MinorBlock}

namespace Wf

variable (hw : Wf content s)
include hw

theorem consistent : Consistent s.getMinorBlock := hw.within.consistent

theorem same (hb : content b.hash = some b) (b' : MinorBlock)
    (hb' : s.getMinorBlock b.hash = some b') : b' = b := by
  have := hw.within.genuine hb'
  rw [hb] at this
  exact (Option.some.inj this).symm

/-- The ancestors of a counted block are counted. -/
theorem counted_descends (hb : s.getMinorBlock b.hash = some b)
    (hc : (s.totalTxCount b.hash).isSome = true) (hd : Descends s.getMinorBlock p b) :
    (s.totalTxCount p.hash).isSome = true := by
  induction hd with
  | refl => exact hc
  | @step b q hq _ ih =>
    have hn : b.number = q.number + 1 := hw.consistent.linked hb hq
    have hkey : q.hash = b.parentHash := hw.consistent.keyed hq
    refine ih (hw.consistent.stored hq) ?_
    rw [hkey]
    exact hw.counted (hw.within.genuine hb) hc (by omega)

theorem grow (hwithin : Within content s'.getMinorBlock)
    (hmono : ∀ k c, s.getMinorBlock k = some c → s'.getMinorBlock k = some c)
    (hcanon : s'.canonicalHash = s.canonicalHash) (hcur : s'.currentBlock = s.currentBlock)
    (hgenesis : s'.genesisBlock = s.genesisBlock)
    (hread : ∀ k g, s'.readGenesis k = some g →
      s.readGenesis k = some g ∨ s'.getMinorBlock g.hash = some g ∧ g.number = 0)
    (hcounts : ∀ k, (s.totalTxCount k).isSome = true → (s'.totalTxCount k).isSome = true)
    (hcounted : ∀ k b, content k = some b → (s'.totalTxCount k).isSome = true → 0 < b.number →
      (s'.totalTxCount b.parentHash).isSome = true)
    (hzero : ∀ k b, s'.getMinorBlock k = some b → b.number = 0 →
      s.getMinorBlock k = some b ∨ (s'.totalTxCount k).isSome = true) : Wf content s' where
  within := hwithin
  current := by
    rw [hcur]
    exact hmono _ _ hw.current
  rooted := by
    rw [hcur]
    exact hw.rooted.mono hmono
  indexes := by
    rw [hcur, hcanon]
    exact hw.indexes.mono hw.rooted hmono
  counted := hcounted _ _
  zeroCounted hb h0 := by
    rcases hzero _ _ hb h0 with hold | hnew
    · exact hcounts _ (hw.zeroCounted hold h0)
    · exact hnew
  currentCounted := by
    rw [hcur]
    exact hcounts _ hw.currentCounted
  genesis := by
    rw [hgenesis]
    exact ⟨hmono _ _ hw.genesis.1, hw.genesis.2⟩
  readGenesis hg := by
    rcases hread _ _ hg with hold | hnew
    · exact ⟨hmono _ _ (hw.readGenesis hold).1, (hw.readGenesis hold).2⟩
    · exact hnew

theorem congr (hget : s'.getMinorBlock = s.getMinorBlock)
    (hcanon : s'.canonicalHash = s.canonicalHash) (hcur : s'.currentBlock = s.currentBlock)
    (hgenesis : s'.genesisBlock = s.genesisBlock) (hread : s'.readGenesis = s.readGenesis)
    (hcount : s'.totalTxCount = s.totalTxCount) : Wf content s' := by
  refine hw.grow (hget ▸ hw.within) ?_ hcanon hcur hgenesis ?_ ?_ ?_ ?_
  · rw [hget]
    exact fun _ _ => id
  · rw [hread]
    exact fun _ _ => .inl
  · rw [hcount]
    exact fun _ => id
  · rw [hcount]
    exact fun _ _ => hw.counted
  · rw [hget]
    exact fun _ _ hb _ => .inl hb

theorem move {canon : ℕ → Option Hash}
    (hb : s.getMinorBlock b.hash = some b) (hr : Rooted s.getMinorBlock b)
    (hi : Indexes s.getMinorBlock canon b) (hc : (s.totalTxCount b.hash).isSome = true) :
    Wf content { s with canonicalHash := canon, currentBlock := b } where
  within := hw.within
  current := hb
  rooted := hr
  indexes := hi
  counted := hw.counted
  zeroCounted := hw.zeroCounted
  currentCounted := hc
  genesis := hw.genesis
  readGenesis := hw.readGenesis

theorem writeMinorBlock (hb : content b.hash = some b)
    (hp : s.getMinorBlock b.parentHash = some p) (hn : b.number = p.number + 1) :
    Wf content (s.writeMinorBlock b) := by
  have hlink : ∀ q, content b.parentHash = some q → b.number = q.number + 1 := by
    intro q hq
    rw [hw.within.genuine hp] at hq
    cases hq
    exact hn
  refine hw.grow (hw.within.store hb hlink) (hw.within.store_mono hb) rfl rfl rfl
    (fun _ _ => .inl) (fun _ => id) (fun _ _ => hw.counted) fun k c hc h0 => ?_
  rcases store_cases hc with ⟨-, rfl⟩ | hold
  · omega
  · exact .inl hold

end Wf

/-- **Everything `putMinorBlock` does**, to a block that is the only one with its hash. -/
theorem putMinorBlock_cases (hsame : ∀ b', s.getMinorBlock b.hash = some b' → b' = b) :
    (s.putMinorBlock b = (.error .getTotalTxFailed, s.writeMinorBlock b) ∧ 1 < b.number) ∨
    (∃ c, s.putMinorBlock b = (.ok (), { s.writeMinorBlock b with
        totalTxCount := Function.update s.totalTxCount b.hash (some c) }) ∧
      (1 < b.number → (s.totalTxCount b.parentHash).isSome = true)) := by
  have hstore : (if s.hasBlock b.hash then s else s.writeMinorBlock b) = s.writeMinorBlock b := by
    split_ifs with hhas
    · obtain ⟨b', hb'⟩ := Option.isSome_iff_exists.mp hhas
      obtain rfl := hsame b' hb'
      rw [MinorBlockChain.writeMinorBlock, ← hb', Function.update_eq_self]
    · rfl
  simp only [MinorBlockChain.putMinorBlock, hstore]
  split_ifs with hfail
  · exact .inl ⟨rfl, hfail.1⟩
  all_goals
    refine .inr ⟨_, rfl, fun hlt => ?_⟩
    by_contra hnone
    exact hfail ⟨hlt, by simpa [MinorBlockChain.writeMinorBlock] using hnone⟩

theorem Wf.record (hw : Wf content s) (hb : content b.hash = some b)
    (hp : s.getMinorBlock b.parentHash = some p) (hn : b.number = p.number + 1) {c : ℕ}
    (hc : 1 < b.number → (s.totalTxCount b.parentHash).isSome = true) :
    Wf content { s.writeMinorBlock b with
      totalTxCount := Function.update s.totalTxCount b.hash (some c) } := by
  have hw₁ := hw.writeMinorBlock hb hp hn
  have hcounts : ∀ k, (s.totalTxCount k).isSome = true →
      (Function.update s.totalTxCount b.hash (some c) k).isSome = true := by
    intro k hk
    by_cases hkb : k = b.hash
    · subst hkb
      rw [Function.update_self]
      rfl
    · rwa [Function.update_of_ne hkb]
  have hparent : (s.totalTxCount b.parentHash).isSome = true := by
    rcases Nat.lt_or_ge 1 b.number with hlt | hle
    · exact hc hlt
    · exact hw.zeroCounted hp (by omega)
  have hclosed : ∀ k d, content k = some d →
      (Function.update s.totalTxCount b.hash (some c) k).isSome = true → 0 < d.number →
      (Function.update s.totalTxCount b.hash (some c) d.parentHash).isSome = true := by
    intro k d hd hk hpos
    by_cases hkb : k = b.hash
    · subst hkb
      rw [hb] at hd
      cases hd
      exact hcounts _ hparent
    · rw [Function.update_of_ne hkb] at hk
      exact hcounts _ (hw.counted hd hk hpos)
  exact hw₁.grow hw₁.within (fun _ _ => id) rfl rfl rfl (fun _ _ => .inl) hcounts hclosed
    fun _ _ hc _ => .inl hc

theorem insertBranch_cases (l : List MinorBlock) (s : MinorBlockChain) :
    (MinorBlockChain.insertBranch l s =
        (.ok (), { s with
          canonicalHash := write s.canonicalHash l
          currentBlock := l.head?.getD s.currentBlock }) ∧
      ∀ b ∈ l, (s.totalTxCount b.hash).isSome = true) ∨
      (∃ e s', MinorBlockChain.insertBranch l s = (.error e, s')) ∧
        ∃ b ∈ l, (s.totalTxCount b.hash).isSome = false := by
  induction l with
  | nil => exact .inl ⟨rfl, by simp⟩
  | cons b l ih =>
    rw [MinorBlockChain.insertBranch]
    rcases ih with ⟨hok, hall⟩ | ⟨⟨e, s', herr⟩, c, hc, hnone⟩
    · simp only [hok]
      split_ifs with hcount
      · exact .inr ⟨⟨_, _, rfl⟩, b, List.mem_cons_self, by simpa using hcount⟩
      · refine .inl ⟨rfl, List.forall_mem_cons.mpr ⟨?_, hall⟩⟩
        simpa [Option.isSome_iff_ne_none] using hcount
    · simp only [herr]
      exact .inr ⟨⟨e, s', rfl⟩, c, List.mem_cons_of_mem b hc, hnone⟩

/-- **Everything `reorg` does.** -/
theorem reorg_cases (hc : Consistent s.getMinorBlock) (ho : s.getMinorBlock old.hash = some old)
    (hn : s.getMinorBlock new.hash = some new) :
    (∃ e, branches s.getMinorBlock old new = .error e ∧
      s.reorg old new = (.error (.reorg e), s)) ∨
    (∃ canon lo ln, Branches s.getMinorBlock old new lo ln ∧
      (∀ b ∈ ln, (s.totalTxCount b.hash).isSome = true) ∧
      s.reorg old new = (.ok (), { s with canonicalHash := canon, currentBlock := new }) ∧
      (Indexes s.getMinorBlock s.canonicalHash old → Indexes s.getMinorBlock canon new)) ∨
    ((∃ e s', s.reorg old new = (.error e, s')) ∧
      ∃ b, Descends s.getMinorBlock b new ∧ (s.totalTxCount b.hash).isSome = false) := by
  rw [MinorBlockChain.reorg]
  rcases hb : branches s.getMinorBlock old new with e | r
  · exact .inl ⟨e, rfl, rfl⟩
  obtain ⟨lo, ln, last⟩ := r
  obtain ⟨hbr, hlast⟩ := branches_spec hc ho hn hb
  simp only at hbr hlast ⊢
  right
  cases ln with
  | nil =>
    -- the new block is an ancestor of the old one, and is inserted on its own
    obtain rfl := hlast rfl
    refine .inl ⟨_, lo, [], hbr, by simp, rfl, fun hi h => ?_⟩
    have hex := hi.exchange hbr h
    simp only [write, List.foldr_nil] at hex ⊢
    by_cases hh : h = last.number
    · rw [hh, Function.update_self, show last.number = number last from rfl, atHeight_self]
      rfl
    · rw [Function.update_of_ne hh]
      exact hex
  | cons b l =>
    obtain rfl := hbr.head_eq
    rcases insertBranch_cases (b :: l) { s with canonicalHash := erase s.canonicalHash lo } with
      ⟨hok, hall⟩ | ⟨herr, d, hd, hnone⟩
    · exact .inl ⟨_, lo, _, hbr, hall, hok, fun hi => hi.exchange hbr⟩
    · exact .inr ⟨herr, d, hbr.new_mem_descends hd, hnone⟩

theorem Wf.reorg {canon : ℕ → Option Hash} {lo ln : List MinorBlock} (hw : Wf content s)
    (hn : s.getMinorBlock new.hash = some new)
    (hbr : Branches s.getMinorBlock s.currentBlock new lo ln)
    (hall : ∀ b ∈ ln, (s.totalTxCount b.hash).isSome = true)
    (hi : Indexes s.getMinorBlock s.canonicalHash s.currentBlock →
      Indexes s.getMinorBlock canon new) :
    Wf content { s with canonicalHash := canon, currentBlock := new } := by
  refine hw.move hn (hbr.rooted hw.rooted) (hi hw.indexes) ?_
  cases ln with
  | nil =>
    refine hw.counted_descends hw.current hw.currentCounted ?_
    cases hbr with
    | common ho hs =>
      cases hs
      exact ho.descends
    | columns _ hcol =>
      obtain ⟨l', g, hl, -⟩ := hcol
      exact absurd hl (by simp)
  | cons b l =>
    obtain rfl := hbr.head_eq
    exact hall b List.mem_cons_self

theorem Wf.insert_current (hw : Wf content s) : s.insert s.currentBlock = s := by
  have hcanon : s.canonicalHash s.currentBlock.number = some s.currentBlock.hash := by
    rw [hw.indexes, show s.currentBlock.number = number s.currentBlock from rfl, atHeight_self]
    rfl
  rw [MinorBlockChain.insert, ← hcanon, Function.update_eq_self]

/-- **Everything a rewind does**, where the state of the block at the height is there. -/
theorem Wf.rewindTo_spec (hw : Wf content s) {head : ℕ}
    (hstate : ∀ c, atHeight s.getMinorBlock s.currentBlock (min head s.currentBlock.number) = some c →
      s.hasState c.root = true) :
    ∃ l c, Segment s.getMinorBlock s.currentBlock l c ∧ c.number = min head s.currentBlock.number ∧
      s.rewindTo head = { s with
        getMinorBlock := fun h => if h ∈ l.map blockHash then none else s.getMinorBlock h
        canonicalHash := erase s.canonicalHash l
        currentBlock := c } := by
  obtain ⟨l, c, hrew, hseg, hnum⟩ := rewind_spec hw.rooted head
  have hat : atHeight s.getMinorBlock s.currentBlock (min head s.currentBlock.number) = some c := by
    rw [← hw.consistent.atHeight_of_descends hw.current hseg.descends, hnum]
    rfl
  refine ⟨l, c, hseg, hnum, ?_⟩
  simp only [MinorBlockChain.rewindTo]
  rw [show s.currentBlock.number = number s.currentBlock from rfl, hrew]
  simp [Option.filter, hstate c hat]

theorem Wf.rewindTo (hw : Wf content s) {head : ℕ}
    (hstate : ∀ c, atHeight s.getMinorBlock s.currentBlock (min head s.currentBlock.number) = some c →
      s.hasState c.root = true) :
    Wf content (s.rewindTo head) := by
  obtain ⟨l, c, hseg, -, hrew⟩ := hw.rewindTo_spec hstate
  have hdesc := hseg.descends
  have hc : s.getMinorBlock c.hash = some c := hw.consistent.stored_of_descends hw.current hdesc
  have hcur : (s.rewindTo head).currentBlock = c := by rw [hrew]
  have hcanon : (s.rewindTo head).canonicalHash = erase s.canonicalHash l := by rw [hrew]
  have hget : (s.rewindTo head).getMinorBlock =
      fun h => if h ∈ l.map blockHash then none else s.getMinorBlock h := by rw [hrew]
  have hsub : ∀ k d, (s.rewindTo head).getMinorBlock k = some d → s.getMinorBlock k = some d := by
    intro k d hd
    rw [hget] at hd
    simp only at hd
    split_ifs at hd
    exact hd
  -- the deleted blocks are above the new head
  have hkeep : ∀ k d, s.getMinorBlock k = some d → d.number ≤ c.number →
      (s.rewindTo head).getMinorBlock k = some d := by
    intro k d hd hle
    rw [hget]
    simp only
    rw [if_neg]
    · exact hd
    · intro hmem
      obtain ⟨x, hx, rfl⟩ := List.mem_map.mp hmem
      have hxs := hw.consistent.stored_of_descends hw.current (hseg.mem_descends hx)
      have hlt : c.number < x.number := hseg.mem_number hx
      rw [hxs] at hd
      cases hd
      omega
  have hroot : Rooted (s.rewindTo head).getMinorBlock c := (hw.rooted.foot hseg).delete hkeep
  refine ⟨hw.within.subset hsub, ?_, ?_, ?_, hw.counted, ?_, ?_, ?_, ?_⟩
  · rw [hcur]
    exact hkeep _ _ hc le_rfl
  · rw [hcur]
    exact hroot
  · rw [hcur, hcanon]
    intro h
    rw [← hroot.atHeight_mono hsub]
    exact hw.indexes.rewind hseg h
  · intro k b hb h0
    exact hw.zeroCounted (hsub _ _ hb) h0
  · rw [hcur]
    exact hw.counted_descends hw.current hw.currentCounted hdesc
  · have h0 : (s.rewindTo head).genesisBlock.number = 0 := hw.genesis.2
    exact ⟨hkeep _ _ hw.genesis.1 (by omega), h0⟩
  · intro k g hg
    obtain ⟨hstored, h0⟩ := hw.readGenesis hg
    exact ⟨hkeep _ _ hstored (by omega), h0⟩

theorem Wf.setHead_eq (hw : Wf content s) {nested head : ℕ}
    (hstate : ∀ c, atHeight s.getMinorBlock s.currentBlock (min head s.currentBlock.number) = some c →
      s.hasState c.root = true) :
    MinorBlockChain.setHead nested s head = .ok (.ok (), s.rewindTo head) := by
  rw [MinorBlockChain.setHead.eq_def]
  simp only [(hw.rewindTo hstate).current]

/-- The genesis block of a universe of blocks. -/
structure Genesis (content : Hash → Option MinorBlock) (g : MinorBlock) : Prop where
  genuine : content g.hash = some g
  number : g.number = 0
  noParent : content g.parentHash = none

theorem Wf.initial {n : ShardSetup} {rBlock : RootBlock}
    (hg : Genesis content (n.createMinorBlock rBlock)) : Wf content (.initial n rBlock) := by
  have hget : ∀ {k b}, (MinorBlockChain.initial n rBlock).getMinorBlock k = some b →
      k = (n.createMinorBlock rBlock).hash ∧ b = n.createMinorBlock rBlock := by
    intro k b hb
    simp only [MinorBlockChain.initial] at hb
    rcases store_cases hb with hnew | hold
    · exact hnew
    · cases hold
  have hstored : (MinorBlockChain.initial n rBlock).getMinorBlock (n.createMinorBlock rBlock).hash =
      some (n.createMinorBlock rBlock) := by
    simp only [MinorBlockChain.initial, Function.update_self]
  have hcounted : ((MinorBlockChain.initial n rBlock).totalTxCount
      (n.createMinorBlock rBlock).hash).isSome = true := by
    rw [MinorBlockChain.initial]
    simp
  refine ⟨⟨?_, ?_, ?_⟩, hstored, .genesis hg.number, ?_, ?_, ?_, hcounted, ⟨hstored, hg.number⟩, ?_⟩
  · intro k b hb
    obtain ⟨rfl, rfl⟩ := hget hb
    exact hg.genuine
  · intro k b hb
    obtain ⟨rfl, rfl⟩ := hget hb
    rfl
  · intro k b p hb hp
    obtain ⟨rfl, rfl⟩ := hget hb
    rw [chained_parentHash, hg.noParent] at hp
    cases hp
  · intro h
    simp only [MinorBlockChain.initial]
    rcases Nat.eq_zero_or_pos h with rfl | hpos
    · rw [Function.update_self, show 0 = number (n.createMinorBlock rBlock) from hg.number.symm,
        atHeight_self]
      rfl
    · rw [Function.update_of_ne (by omega), atHeight_of_lt]
      · rfl
      · rw [chained_number, hg.number]
        exact hpos
  · intro k b hb hk hpos
    have hkey : k = (n.createMinorBlock rBlock).hash := by
      by_contra hne
      simp [MinorBlockChain.initial, Function.update_of_ne hne] at hk
    subst hkey
    rw [hg.genuine] at hb
    cases hb
    rw [hg.number] at hpos
    exact absurd hpos (Nat.lt_irrefl 0)
  · intro k b hb _
    obtain ⟨rfl, rfl⟩ := hget hb
    exact hcounted
  · intro k g hk
    simp only [MinorBlockChain.initial] at hk
    rcases store_cases hk with ⟨-, rfl⟩ | hold
    · exact ⟨hstored, hg.number⟩
    · cases hold

end QuarkChain.Minor
