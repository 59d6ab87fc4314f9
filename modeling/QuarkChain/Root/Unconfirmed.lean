/-
# The unconfirmed headers of a shard

`GetUnconfirmedHeaderList` of `src/core/minorblockchain_addon.go`: what a slave offers the master for
the next root block.  The shard walks down from its current block to the last block the root chain
has confirmed and returns what it passed, cut to the number of blocks one root block may hold.

`Shard.InSync` is a shard that follows the master's current root block: its blocks are what the minor
validator lets through, its tip is linked to that root block, and its confirmed tip is the one that
root block names.
-/
import QuarkChain.Root.Confirmed

namespace QuarkChain.Root

open BlockTree Config QuarkChain.Types

instance : Chained Hash MinorBlockHeader where
  blockHash := MinorBlockHeader.hash
  parentHash := MinorBlockHeader.parentHash
  number := MinorBlockHeader.number

/-- The part of a slave's `MinorBlockChain` that the list is made from; blocks by their headers. -/
structure Shard where
  fullShardId : ℕ
  getBlock : Hash → Option MinorBlockHeader
  currentBlock : MinorBlockHeader
  confirmedHeaderTip : Option MinorBlockHeader
  /-- `getMaxBlocksInOneRootBlock`. -/
  maxBlocks : ℕ

/-- The loop of `getAllUnconfirmedHeaderList`: the headers passed and the block the walk ends at.
`none` is the nil dereference of a walk that goes on below a missing block. -/
def walkDown (get : Hash → Option MinorBlockHeader) :
    ℕ → Option MinorBlockHeader → List MinorBlockHeader →
      Option (List MinorBlockHeader × Option MinorBlockHeader)
  | 0, block, headerList => some (headerList, block)
  | _ + 1, none, _ => none
  | index + 1, some block, headerList => walkDown get index (get block.parentHash) (block :: headerList)

namespace Shard

variable (m : Shard)

def unconfirmedAbove (confirmedTip : Option MinorBlockHeader) : Option (List MinorBlockHeader) :=
  let allHeight := m.currentBlock.number + 1 - confirmedTip.elim 0 (·.number + 1)
  (walkDown m.getBlock allHeight (some m.currentBlock) []).map fun r =>
    if r.2.map MinorBlockHeader.hash = confirmedTip.map MinorBlockHeader.hash then r.1 else []

/-- `getAllUnconfirmedHeaderList`; `none` is a nil dereference. -/
def getAllUnconfirmedHeaderList : Option (List MinorBlockHeader) :=
  match m.confirmedHeaderTip with
  | none => m.unconfirmedAbove none
  | some header => (m.getBlock header.hash).bind fun confirmedTip => m.unconfirmedAbove confirmedTip

def getUnconfirmedHeaderList : Option (List MinorBlockHeader) :=
  m.getAllUnconfirmedHeaderList.map fun headers => headers.take m.maxBlocks

end Shard

/-- A shard that follows the master's current root block. -/
structure Shard.InSync (n : Setup) (s : RootBlockChain) (m : Shard) : Prop where
  maxBlocks : ∀ c, n.config.quarkchain.getShardConfigByFullShardID m.fullShardId = some c →
    m.maxBlocks = c.maxBlocksPerShardInOneRootBlock
  consistent : Consistent m.getBlock
  rooted : Rooted m.getBlock m.currentBlock
  current : m.getBlock m.currentBlock.hash = some m.currentBlock
  branch : ∀ k b, m.getBlock k = some b → b.branch.value = m.fullShardId
  time_lt : ∀ k b p, m.getBlock k = some b → m.getBlock b.parentHash = some p → p.time < b.time
  /-- The prev-root block of a block's parent is an ancestor of its own. -/
  prevRoot : ∀ k b p r, m.getBlock k = some b → m.getBlock b.parentHash = some p →
    s.getBlock b.prevRootBlockHash = some r →
    ∃ q, s.getBlock p.prevRootBlockHash = some q ∧ Descends s.getBlock q r
  /-- The prev-root block of the tip is an ancestor of the master's current root block. -/
  linked : ∃ r, s.getBlock m.currentBlock.prevRootBlockHash = some r ∧
    Descends s.getBlock r s.currentBlock
  confirmed : m.confirmedHeaderTip =
    (s.getLatestMinorBlockHeaders s.currentBlock.hash).lookup m.fullShardId
  confirmed_stored : ∀ t b, m.confirmedHeaderTip = some t → m.getBlock t.hash = some b → b = t

/-- What a list of headers satisfies that may follow the headers confirmed by the current root
block. -/
structure Unconfirmed (n : Setup) (s : RootBlockChain) (id : ℕ) (l : List MinorBlockHeader) :
    Prop where
  few : ∀ c, n.config.quarkchain.getShardConfigByFullShardID id = some c →
    l.length ≤ c.maxBlocksPerShardInOneRootBlock
  branch : ∀ h ∈ l, h.branch.value = id
  continues : l.IsChain Continues
  times : l.IsChain fun a b => a.time < b.time
  prevRoot : ∀ h ∈ l, ∃ r, s.getBlock h.prevRootBlockHash = some r ∧
    Descends s.getBlock r s.currentBlock
  first : ∀ f, l.head? = some f →
    (s.getLatestMinorBlockHeaders s.currentBlock.hash).lookup id = none → f.number = 0
  link : ∀ f q, l.head? = some f →
    (s.getLatestMinorBlockHeaders s.currentBlock.hash).lookup id = some q → Continues q f

section Unconfirmed

variable {n : Setup} {s : RootBlockChain} {m : Shard} {id : ℕ} {l : List MinorBlockHeader}

theorem unconfirmed_nil : Unconfirmed n s id [] := by
  constructor <;> simp

variable {l' : List MinorBlockHeader}

theorem head?_of_isPrefix (hp : l' <+: l) (f : MinorBlockHeader)
    (hf : l'.head? = some f) : l.head? = some f := by
  obtain ⟨t, rfl⟩ := hp
  cases l' with
  | nil => cases hf
  | cons a l' => exact hf

theorem isChain_of_isPrefix {R : MinorBlockHeader → MinorBlockHeader → Prop}
    (hp : l' <+: l) (hl : l.IsChain R) : l'.IsChain R := by
  obtain ⟨t, rfl⟩ := hp
  exact (List.isChain_append.mp hl).1

theorem Unconfirmed.take (hl : Unconfirmed n s id l) (hp : l' <+: l) : Unconfirmed n s id l' := by
  have hhead := head?_of_isPrefix hp
  have hmem : ∀ h ∈ l', h ∈ l := fun h hh => hp.subset hh
  exact ⟨fun c hc => hp.length_le.trans (hl.few c hc), fun h hh => hl.branch h (hmem h hh),
    isChain_of_isPrefix hp hl.continues, isChain_of_isPrefix hp hl.times,
    fun h hh => hl.prevRoot h (hmem h hh),
    fun f hf => hl.first f (hhead f hf), fun f q hf => hl.link f q (hhead f hf)⟩

/-- What a walk down from `b` to `r` passes. -/
structure Passed (get : Hash → Option MinorBlockHeader) (b : MinorBlockHeader)
    (l : List MinorBlockHeader) (r : Option MinorBlockHeader) : Prop where
  descends : ∀ h ∈ l, Descends get h b
  last : ∀ h, l.getLast? = some h → h = b
  links : l.IsChain fun a c => get c.parentHash = some a
  below : ∀ f, l.head? = some f → get f.parentHash = r
  lowest : ∀ f, l.head? = some f → r = none → f.number = 0
  tip : l = [] → r = some b
  foot : ∀ a, r = some a → Descends get a b

/-- **The walk, specified.** -/
theorem walkDown_passed {get : Hash → Option MinorBlockHeader} (hc : Consistent get) {k : ℕ}
    {b : MinorBlockHeader} (hb : get b.hash = some b) (hr : Rooted get b) (hk : k ≤ b.number + 1)
    (acc : List MinorBlockHeader) :
    ∃ l r, walkDown get k (some b) acc = some (l ++ acc, r) ∧ Passed get b l r := by
  induction k generalizing b acc with
  | zero => exact ⟨[], some b, rfl, by constructor <;> simp [Descends.refl]⟩
  | succ k ih =>
    rw [walkDown]
    cases hr with
    | genesis h0 =>
      -- nothing is stored below the genesis block
      have hk0 : k = 0 := by
        have : b.number = 0 := h0
        omega
      have hnone : get b.parentHash = none := by
        by_contra hsome
        obtain ⟨p, hp⟩ := Option.ne_none_iff_exists'.mp hsome
        have := hc.linked hb hp
        omega
      subst hk0
      refine ⟨[b], none, by rw [hnone]; rfl, ?_⟩
      constructor <;> simp [hnone, show b.number = 0 from h0, Descends.refl]
    | @child _ p hp hn hr =>
      have hn' : b.number = p.number + 1 := hn
      obtain ⟨l, r, hw, hl⟩ := ih (hc.stored hp) hr (by omega) (b :: acc)
      refine ⟨l ++ [b], r, by rw [show get b.parentHash = some p from hp, hw]; simp, ?_⟩
      constructor
      · intro h hh
        rcases List.mem_append.mp hh with hh | hh
        · exact .step hp (hl.descends h hh)
        · obtain rfl : h = b := by simpa using hh
          exact .refl
      · intro h hh
        simpa using hh.symm
      · refine hl.links.append (List.isChain_singleton b) fun a ha c hcb => ?_
        obtain rfl : b = c := by simpa using hcb
        rw [hl.last a ha]
        exact hp
      · intro f hf
        cases l with
        | nil =>
          obtain rfl : b = f := by simpa using hf
          rw [hl.tip rfl]
          exact hp
        | cons a l => exact hl.below f hf
      · intro f hf hnone
        cases l with
        | nil =>
          rw [hl.tip rfl] at hnone
          cases hnone
        | cons a l => exact hl.lowest f hf hnone
      · simp
      · exact fun a ha => .step hp (hl.foot a ha)

theorem Shard.InSync.prevRoot_descends (hm : m.InSync n s) {h : MinorBlockHeader}
    (hd : Descends m.getBlock h m.currentBlock) :
    ∃ r, s.getBlock h.prevRootBlockHash = some r ∧ Descends s.getBlock r s.currentBlock := by
  have hgen : ∀ b, Descends m.getBlock h b → m.getBlock b.hash = some b →
      (∃ r, s.getBlock b.prevRootBlockHash = some r ∧ Descends s.getBlock r s.currentBlock) →
      ∃ r, s.getBlock h.prevRootBlockHash = some r ∧ Descends s.getBlock r s.currentBlock := by
    intro b hd
    induction hd with
    | refl => exact fun _ hr => hr
    | @step b p hp _ ih =>
      rintro hb ⟨r, hr, hdr⟩
      obtain ⟨q, hq, hdq⟩ := hm.prevRoot _ b p r hb hp hr
      exact ih (hm.consistent.stored hp) ⟨q, hq, hdq.trans hdr⟩
  exact hgen _ hd hm.current hm.linked

theorem unconfirmedAbove_unconfirmed (hm : m.InSync n s) {tip : Option MinorBlockHeader}
    (hconf : m.confirmedHeaderTip = tip) (htip : ∀ t, tip = some t → m.getBlock t.hash = some t)
    (hl : m.unconfirmedAbove tip = some l) : Unconfirmed n s m.fullShardId (l.take m.maxBlocks) := by
  rw [Shard.unconfirmedAbove] at hl
  obtain ⟨x, hw, hl⟩ := Option.map_eq_some_iff.mp hl
  obtain ⟨l₀, r₀, hw₀, hp⟩ := walkDown_passed hm.consistent hm.current hm.rooted
    (Nat.sub_le (m.currentBlock.number + 1) (tip.elim 0 (·.number + 1))) []
  rw [hw₀, List.append_nil, Option.some.injEq] at hw
  subst hw
  simp only at hl
  split_ifs at hl with hsame
  · subst hl
    have hstored : ∀ h ∈ l₀, m.getBlock h.hash = some h := fun h hh =>
      hm.consistent.stored_of_descends hm.current (hp.descends h hh)
    have hlink : ∀ a c, c ∈ l₀ → m.getBlock c.parentHash = some a → Continues a c ∧ a.time < c.time :=
      fun a c hc ha => ⟨⟨(hm.consistent.keyed ha).symm, hm.consistent.linked (hstored c hc) ha⟩,
        hm.time_lt _ c a (hstored c hc) ha⟩
    -- the walk ended at the confirmed tip itself
    have hend : r₀ = tip := by
      rcases r₀ with _ | a
      · exact (Option.map_eq_none_iff.mp hsame.symm).symm
      obtain ⟨t, ht, hhash⟩ := Option.map_eq_some_iff.mp hsame.symm
      have ha := hm.consistent.stored_of_descends hm.current (hp.foot a rfl)
      rw [ht, Consistent.eq_of_hash_eq (htip t ht) ha hhash]
    have hpre : l₀.take m.maxBlocks <+: l₀ := List.take_prefix ..
    have hhead := head?_of_isPrefix hpre
    have hlinks := fun {R : MinorBlockHeader → MinorBlockHeader → Prop}
      (hR : ∀ a c, c ∈ l₀ → m.getBlock c.parentHash = some a → R a c) =>
        isChain_of_isPrefix hpre (hp.links.imp_of_mem_imp fun a c _ hc => hR a c hc)
    have hdescends : ∀ h ∈ l₀.take m.maxBlocks, Descends m.getBlock h m.currentBlock :=
      fun h hh => hp.descends h (hpre.subset hh)
    refine ⟨fun c hc => ?_, fun h hh => ?_, hlinks fun a c hc ha => (hlink a c hc ha).1,
      hlinks fun a c hc ha => (hlink a c hc ha).2, fun h hh => ?_, fun f hf hnone => ?_,
      fun f q hf hq => ?_⟩
    · rw [← hm.maxBlocks c hc]
      exact List.length_take_le ..
    · exact hm.branch _ h (hstored h (hpre.subset hh))
    · exact hm.prevRoot_descends (hdescends h hh)
    · refine hp.lowest f (hhead f hf) ?_
      rw [hend, ← hconf, hm.confirmed, hnone]
    · have hbelow := hp.below f (hhead f hf)
      rw [hend, ← hconf, hm.confirmed, hq] at hbelow
      exact (hlink q f (List.mem_of_head? (hhead f hf)) hbelow).1
  · subst hl
    rw [List.take_nil]
    exact unconfirmed_nil

/-- **What a shard in sync offers.** -/
theorem getUnconfirmedHeaderList_unconfirmed (hm : m.InSync n s)
    (hl : m.getUnconfirmedHeaderList = some l) : Unconfirmed n s m.fullShardId l := by
  rw [Shard.getUnconfirmedHeaderList] at hl
  obtain ⟨l₀, hl₀, rfl⟩ := Option.map_eq_some_iff.mp hl
  rw [Shard.getAllUnconfirmedHeaderList] at hl₀
  cases hconf : m.confirmedHeaderTip with
  | none =>
    rw [hconf] at hl₀
    exact unconfirmedAbove_unconfirmed hm hconf (by rintro t ⟨⟩) hl₀
  | some t =>
    rw [hconf] at hl₀
    obtain ⟨b, hb, hl₁⟩ := Option.bind_eq_some_iff.mp hl₀
    obtain rfl : b = t := hm.confirmed_stored t b hconf hb
    refine unconfirmedAbove_unconfirmed hm hconf (fun t ht => ?_) hl₁
    cases ht
    exact hb

end Unconfirmed

end QuarkChain.Root
