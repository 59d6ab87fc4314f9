/-
# Fork choice on the root chain

A run of the root chain: blocks are validated and written (or dropped, when they are too far from
the head), slaves report minor blocks, and the check-database flag is set.

`Wf` is what every state of a run satisfies: the stored blocks form one tree over the genesis block,
and the head is stored.  So a reorganisation always finds the common ancestor (`writeBlockWithState_spec`), and
the head is always the heaviest block.  But `reorg` writes the new branch into the index and erases nothing, so a
winner that is lower than the head it replaces leaves the heights above it to the old branch.
-/
import QuarkChain.Root.Accepted
import QuarkChain.Lib.Run

namespace QuarkChain.Root

open BlockTree Config QuarkChain.Types Run

/-- What a collision-free hash guarantees about an arriving block: it hashes neither to the empty
hash nor to the hash the genesis block names as its parent, and a stored block with its hash is the
block itself. -/
structure Genuine (g : RootBlock) (s : RootBlockChain) (b : RootBlock) : Prop where
  ne_empty : b.hash ≠ emptyHash
  ne_genesisParent : b.hash ≠ g.parentHash
  same : ∀ b', s.getBlock b.hash = some b' → b' = b

theorem Genuine.congr {g b : RootBlock} {s s' : RootBlockChain} (hb : Genuine g s b)
    (hget : s'.getBlock = s.getBlock) : Genuine g s' b :=
  ⟨hb.ne_empty, hb.ne_genesisParent, by
    rw [hget]
    exact hb.same⟩

inductive Event
  /-- A block is validated and written. -/
  | accepted (b : RootBlock)
  /-- A block is validated, but too far from the head to be written. -/
  | dropped (b : RootBlock)
  /-- A slave reports a minor block (`AddValidatedMinorBlockHeader`). -/
  | reported (h : MinorBlockHeader) (coinbaseToken : TokenMap)
  /-- `SetIsCheckDB`. -/
  | checkDB (isCheckDB : Bool)

/-- One step of a run. -/
inductive Step (n : Setup) : RootBlockChain → Event → RootBlockChain → Prop
  | accepted {ord : MapOrder} {s s₁ : RootBlockChain} {b : RootBlock}
      (hv : n.validateBlock ord s b s.isCheckDB = .ok s₁) (ho : n.isTooOld s₁ b = false) :
      Step n s (.accepted b) (s₁.writeBlockWithState b).2
  | dropped {ord : MapOrder} {s s₁ : RootBlockChain} {b : RootBlock}
      (hv : n.validateBlock ord s b s.isCheckDB = .ok s₁) (ho : n.isTooOld s₁ b = true) :
      Step n s (.dropped b) s₁
  | reported (s : RootBlockChain) (h : MinorBlockHeader) (coinbaseToken : TokenMap) :
      Step n s (.reported h coinbaseToken) (s.addValidatedMinorBlockHeader h.hash coinbaseToken)
  | checkDB (s : RootBlockChain) (isCheckDB : Bool) :
      Step n s (.checkDB isCheckDB) { s with isCheckDB := isCheckDB }

/-- The stored blocks form one tree over the genesis block, and the head is one of them. -/
structure Wf (g : RootBlock) (s : RootBlockChain) : Prop where
  consistent : Consistent s.getBlock
  empty : s.getBlock emptyHash = none
  genesisParent : s.getBlock g.parentHash = none
  genesis : s.getBlock g.hash = some g
  genesis_number : g.number = 0
  descends : ∀ k b, s.getBlock k = some b → Descends s.getBlock g b
  current : s.getBlock s.currentBlock.hash = some s.currentBlock

variable {s₁ : RootBlockChain} {force : Bool} {ord : MapOrder} {k : Hash}

namespace Wf

variable {g b p : RootBlock} {s s' : RootBlockChain}

theorem start (hn : g.number = 0) (he : g.hash ≠ emptyHash) (hp : g.parentHash ≠ g.hash)
    (coinbase : Hash → Option TokenMap) : Wf g (.genesis g coinbase) := by
  have hself : (RootBlockChain.genesis g coinbase).getBlock g.hash = some g := by
    simp [RootBlockChain.genesis]
  refine ⟨⟨?_, ?_⟩, ?_, ?_, hself, hn, ?_, hself⟩
  · intro k b hb
    obtain ⟨rfl, rfl⟩ := RootBlockChain.genesis_getBlock hb
    rfl
  · intro k b p hb hbp
    obtain ⟨rfl, rfl⟩ := RootBlockChain.genesis_getBlock hb
    exact absurd (RootBlockChain.genesis_getBlock hbp).1 hp
  · simp [RootBlockChain.genesis, Function.update_of_ne (Ne.symm he)]
  · simp [RootBlockChain.genesis, Function.update_of_ne hp]
  · intro k b hb
    rw [(RootBlockChain.genesis_getBlock hb).2]
    exact .refl

theorem rooted (hw : Wf g s) (hb : s.getBlock k = some b) : Rooted s.getBlock b :=
  hw.consistent.rooted_of_descends hb (hw.descends k b hb) hw.genesis_number

theorem atHeight_zero (hw : Wf g s) (hb : s.getBlock k = some b) :
    atHeight s.getBlock b 0 = some g := by
  rw [← hw.genesis_number]
  exact hw.consistent.atHeight_of_descends hb (hw.descends k b hb)

theorem parent_stored (hw : Wf g s) (hb : s.getBlock k = some b) :
    b = g ∨ ∃ p, s.getBlock b.parentHash = some p := by
  cases hw.descends k b hb with
  | refl => exact .inl rfl
  | step hp _ => exact .inr ⟨_, hp⟩

theorem store_mono (hb : Genuine g s b) (k : Hash) (c : RootBlock) (hc : s.getBlock k = some c) :
    Function.update s.getBlock b.hash (some b) k = some c := by
  by_cases hk : k = b.hash
  · subst hk
    rw [Function.update_self, hb.same c hc]
  · rwa [Function.update_of_ne hk]

/-- **The tree grows by children of stored blocks.** -/
theorem store (hw : Wf g s) (hb : Genuine g s b) (hp : s.getBlock b.parentHash = some p)
    (hn : b.number = p.number + 1) (hget : s'.getBlock = Function.update s.getBlock b.hash (some b))
    (hcur : s'.currentBlock = b ∨ s'.currentBlock = s.currentBlock) : Wf g s' := by
  have hmono := store_mono hb
  have hself : Function.update s.getBlock b.hash (some b) b.hash = some b := by simp
  refine ⟨⟨?_, ?_⟩, ?_, ?_, ?_, hw.genesis_number, ?_, ?_⟩ <;> rw [hget]
  · intro k c hc
    rcases store_cases hc with ⟨rfl, rfl⟩ | hc
    · rfl
    · exact hw.consistent.keyed hc
  · intro k c q hc hq
    rcases store_cases hc with ⟨rfl, rfl⟩ | hc
    · have := hmono _ p hp
      rw [show parentHash c = c.parentHash from rfl, this] at hq
      cases hq
      exact hn
    · -- the parent of a stored block was stored before, unless the block is the genesis block
      rcases hw.parent_stored hc with rfl | ⟨q', hq'⟩
      · rcases store_cases hq with ⟨heq, -⟩ | hq
        · exact absurd heq.symm hb.ne_genesisParent
        · exact hw.consistent.linked hc hq
      · rw [show parentHash c = c.parentHash from rfl, hmono _ q' hq'] at hq
        cases hq
        exact hw.consistent.linked hc hq'
  · rw [Function.update_of_ne hb.ne_empty.symm, hw.empty]
  · rw [Function.update_of_ne hb.ne_genesisParent.symm, hw.genesisParent]
  · exact hmono _ _ hw.genesis
  · intro k c hc
    rcases store_cases hc with ⟨-, rfl⟩ | hc
    · exact .step (hmono _ p hp) ((hw.descends _ p hp).mono hmono)
    · exact (hw.descends k c hc).mono hmono
  · rcases hcur with hcur | hcur <;> rw [hcur]
    · exact hself
    · exact hmono _ _ hw.current

theorem move (hw : Wf g s) (hget : s'.getBlock = s.getBlock)
    (hcur : s.getBlock s'.currentBlock.hash = some s'.currentBlock) : Wf g s' := by
  obtain ⟨h₁, h₂, h₃, h₄, h₅, h₆, -⟩ := hw
  constructor <;> (try rw [hget]) <;> assumption

theorem congr (hw : Wf g s) (hget : s'.getBlock = s.getBlock)
    (hcur : s'.currentBlock = s.currentBlock) : Wf g s' := by
  refine hw.move hget ?_
  rw [hcur]
  exact hw.current

end Wf

theorem validateBlock_frame {n : Setup} {s : RootBlockChain} {b : RootBlock}
    (hv : n.validateBlock ord s b force = .ok s₁) :
    s₁.getBlock = s.getBlock ∧ s₁.currentBlock = s.currentBlock ∧
      s₁.canonicalHash = s.canonicalHash := by
  obtain ⟨⟨latest, rfl⟩, -⟩ := validateBlock_ok_latest hv
  exact ⟨rfl, rfl, rfl⟩

theorem Accepted.parent {n : Setup} {s : RootBlockChain} {b : RootBlock}
    (ha : Accepted n s b force) :
    ∃ p, s.getBlock b.parentHash = some p ∧ b.number = p.number + 1 := by
  obtain ⟨p, hp⟩ := verifyHeader_ok_iff.mp ha.header
  exact ⟨p, hp.parent_eq, hp.number_eq⟩

theorem Wf.accepted {n : Setup} {g b : RootBlock} {s : RootBlockChain}
    (hw : Wf g s) (hb : Genuine g s b)
    (hv : n.validateBlock ord s b force = .ok s₁) : Wf g (s₁.writeBlockWithState b).2 := by
  obtain ⟨hget, hcur, -⟩ := validateBlock_frame hv
  obtain ⟨p, hp, hn⟩ := (validateBlock_ok_iff.mp ⟨s₁, hv⟩).parent
  exact (hw.congr hget hcur).store (hb.congr hget) (hget ▸ hp) hn (s₁.writeBlockWithState_stores b).1
    (s₁.writeBlockWithState_currentBlock b)

section Write

variable {g b p : RootBlock} {s : RootBlockChain}

theorem fork_writeRootBlock (hw : Wf g s) (hb : Genuine g s b)
    (hp : s.getBlock b.parentHash = some p) (hn : b.number = p.number + 1) :
    ∃ r, fork (s.writeRootBlock b).getBlock s.currentBlock b = .ok r := by
  have hw' : Wf g ((s.writeRootBlock b).insert b) := hw.store hb hp hn rfl (.inl rfl)
  have hcur : (s.writeRootBlock b).getBlock s.currentBlock.hash = some s.currentBlock :=
    Wf.store_mono hb _ _ hw.current
  have hzero := (hw'.atHeight_zero hcur).trans (hw'.atHeight_zero hw'.current).symm
  exact fork_exists hw'.consistent hcur hw'.current (hw'.rooted hcur) (hw'.rooted hw'.current) hzero

/-- **Writing a block into a tree.** -/
theorem writeBlockWithState_spec (hw : Wf g s) (hb : Genuine g s b)
    (hp : s.getBlock b.parentHash = some p) (hn : b.number = p.number + 1)
    (hi : Indexes s.getBlock s.canonicalHash s.currentBlock) : (s.wins b = false ∧
      s.writeBlockWithState b = (.ok .sideStatTy, s.writeRootBlock b)) ∨
    (s.wins b = true ∧ (s.writeBlockWithState b).1 = .ok .canonStatTy ∧
      (s.writeBlockWithState b).2.currentBlock = b ∧
      ∀ h, (s.writeBlockWithState b).2.canonicalHash h =
        if h ≤ b.number then (atHeight (s.writeRootBlock b).getBlock b h).map blockHash
        else (atHeight (s.writeRootBlock b).getBlock s.currentBlock h).map blockHash) := by
  have hmono := Wf.store_mono hb
  have hw' : Wf g ((s.writeRootBlock b).insert b) := hw.store hb hp hn rfl (.inl rfl)
  have hi' : Indexes (s.writeRootBlock b).getBlock s.canonicalHash s.currentBlock :=
    hi.mono (hw.rooted hw.current) hmono
  have hcur : (s.writeRootBlock b).getBlock s.currentBlock.hash = some s.currentBlock := hmono _ _ hw.current
  rcases s.writeBlockWithState_cases b with
    ⟨hwins, hres⟩ | ⟨hwins, hparent, hres⟩ | ⟨hwins, r, hf, hres⟩ | ⟨hwins, e, hf, hres⟩
  · exact .inl ⟨hwins, hres⟩
  · refine .inr ⟨hwins, ?_⟩
    rw [hres]
    refine ⟨rfl, rfl, fun h => ?_⟩
    -- the branch is the block alone, on top of the head
    have hpc : p = s.currentBlock := by
      rw [hparent, hw.current] at hp
      exact (Option.some.inj hp).symm
    have hseg : Segment (s.writeRootBlock b).getBlock b [b] s.currentBlock :=
      .cons (by rw [show parentHash b = s.currentBlock.hash from hparent]; exact hcur)
        (by rw [← hpc]; exact hn) (.nil _)
    exact hi'.overwrite (.nil _) hseg h
  · refine .inr ⟨hwins, ?_⟩
    obtain ⟨hso, hsn⟩ := fork_segments hw'.consistent hcur hw'.current hf
    rw [hres]
    refine ⟨rfl, rfl, fun h => ?_⟩
    have hover := hi'.overwrite hso hsn
    rw [RootBlockChain.insert_canonicalHash, (RootBlockChain.foldr_insert r.2.1).1]
    by_cases hh : h = b.number
    · rw [hh, Function.update_self, if_pos le_rfl]
      exact congrArg (Option.map blockHash) (atHeight_self b).symm
    · rw [Function.update_of_ne hh]
      exact hover h
  · obtain ⟨r, hr⟩ := fork_writeRootBlock hw hb hp hn
    rw [hr] at hf
    cases hf

theorem wins_iff : s.wins b = true ↔ s.currentBlock.totalDifficulty < b.totalDifficulty ∨
      b.totalDifficulty = s.currentBlock.totalDifficulty ∧ b.number < s.currentBlock.number := by
  simp [RootBlockChain.wins]

variable (hw : Wf g s) (hb : Genuine g s b) (hp : s.getBlock b.parentHash = some p)
  (hn : b.number = p.number + 1)
include hw hb hp hn

theorem writeBlockWithState_head :
    (s.writeBlockWithState b).2.currentBlock = if s.wins b then b else s.currentBlock := by
  rcases s.writeBlockWithState_cases b with
    ⟨hwins, h⟩ | ⟨hwins, -, h⟩ | ⟨hwins, r, -, h⟩ | ⟨-, e, hf, -⟩
  · rw [h, hwins]
    rfl
  · rw [h, hwins]
    rfl
  · rw [h, hwins]
    rfl
  · obtain ⟨r, hr⟩ := fork_writeRootBlock hw hb hp hn
    rw [hr] at hf
    cases hf

theorem heaviest_write
    (hheavy : ∀ k c, s.getBlock k = some c → c.totalDifficulty ≤ s.currentBlock.totalDifficulty)
    (k : Hash) (c : RootBlock) (hc : (s.writeBlockWithState b).2.getBlock k = some c) :
    c.totalDifficulty ≤ (s.writeBlockWithState b).2.currentBlock.totalDifficulty := by
  have hle : s.currentBlock.totalDifficulty ≤ (if s.wins b then b else s.currentBlock).totalDifficulty ∧
      b.totalDifficulty ≤ (if s.wins b then b else s.currentBlock).totalDifficulty := by
    split_ifs with hwins
    · have := wins_iff.mp hwins
      omega
    · have := mt wins_iff.mpr hwins
      omega
  rw [(s.writeBlockWithState_stores b).1] at hc
  rw [writeBlockWithState_head hw hb hp hn]
  rcases store_cases hc with ⟨-, rfl⟩ | hold
  · exact hle.2
  · exact (hheavy k c hold).trans hle.1

end Write

/-- The head is the heaviest accepted block, and the canonical index is exact. -/
structure ForkChoice (s : RootBlockChain) : Prop where
  heaviest : ∀ k b, s.getBlock k = some b → b.totalDifficulty ≤ s.currentBlock.totalDifficulty
  exists_iff : ∀ h, (s.canonicalHash h).isSome = true ↔ h ≤ s.currentBlock.number
  ancestor : ∀ a, Descends s.getBlock a s.currentBlock → s.canonicalHash a.number = some a.hash

/-- Is the block lower than the head, and yet preferred to it? -/
def Shrinks (s : RootBlockChain) (b : RootBlock) : Prop :=
  b.number < s.currentBlock.number ∧ s.currentBlock.totalDifficulty ≤ b.totalDifficulty

section ForkChoice

variable {g b : RootBlock} {s s' : RootBlockChain} {n : Setup}

theorem forkChoice_iff_indexes (hw : Wf g s) : ForkChoice s ↔
      (∀ k b, s.getBlock k = some b → b.totalDifficulty ≤ s.currentBlock.totalDifficulty) ∧
        Indexes s.getBlock s.canonicalHash s.currentBlock := by
  constructor
  · intro hf
    refine ⟨hf.heaviest, fun h => ?_⟩
    rcases Nat.lt_or_ge s.currentBlock.number h with hlt | hle
    · have hnone : s.canonicalHash h = none := by
        rw [← Option.not_isSome_iff_eq_none, hf.exists_iff]
        omega
      rw [hnone, atHeight_of_lt hlt, Option.map_none]
    · obtain ⟨a, ha, rfl⟩ := (hw.rooted hw.current).atHeight_exists hle
      rw [ha]
      exact hf.ancestor a (descends_of_atHeight ha)
  · rintro ⟨hheavy, hi⟩
    refine ⟨hheavy, fun h => ?_, fun a ha => ?_⟩
    · rw [hi h, Option.isSome_map]
      constructor
      · intro hsome
        by_contra hlt
        rw [atHeight_of_lt (show number s.currentBlock < h from Nat.lt_of_not_le hlt)] at hsome
        cases hsome
      · intro hle
        obtain ⟨a, ha, -⟩ := (hw.rooted hw.current).atHeight_exists hle
        rw [ha]
        rfl
    · have := hw.consistent.atHeight_of_descends hw.current ha
      rw [show a.number = number a from rfl, hi, this]
      rfl

/-- **One accepted block:** the index stays exact unless the block is a preferred block below the head. -/
theorem forkChoice_write {p : RootBlock} (hw : Wf g s) (hf : ForkChoice s) (hb : Genuine g s b)
    (hp : s.getBlock b.parentHash = some p) (hn : b.number = p.number + 1) :
    Wf g (s.writeBlockWithState b).2 ∧
      (ForkChoice (s.writeBlockWithState b).2 ↔ ¬ Shrinks s b) := by
  obtain ⟨hheavy, hi⟩ := (forkChoice_iff_indexes hw).mp hf
  have hget := (s.writeBlockWithState_stores b).1
  have hw' := hw.store hb hp hn hget (s.writeBlockWithState_currentBlock b)
  refine ⟨hw', ?_⟩
  rw [forkChoice_iff_indexes hw', and_iff_right (heaviest_write hw hb hp hn hheavy)]
  rcases writeBlockWithState_spec hw hb hp hn hi with ⟨hwins, hres⟩ | ⟨hwins, -, hcur, hcanon⟩
  · rw [hres]
    refine iff_of_true (hi.mono (hw.rooted hw.current) (Wf.store_mono hb)) fun ⟨hlt, hle⟩ => ?_
    have hlose := mt wins_iff.mpr (by simp [hwins] : ¬ s.wins b = true)
    omega
  rw [hcur, hget]
  constructor
  · -- the height of the old head keeps its entry, above the new head
    rintro hi' ⟨hlt, -⟩
    have hstale := hcanon s.currentBlock.number
    rw [if_neg (by omega), hi', atHeight_of_lt (show number b < s.currentBlock.number from hlt),
      show s.currentBlock.number = number s.currentBlock from rfl, atHeight_self] at hstale
    cases hstale
  · intro hshrink h
    rw [hcanon h]
    split_ifs with hle
    · rfl
    have hlow : s.currentBlock.number ≤ b.number := by
      by_contra hlt
      refine hshrink ⟨by omega, ?_⟩
      rcases wins_iff.mp hwins with h | h <;> omega
    rw [atHeight_of_lt (show number s.currentBlock < h by
        change s.currentBlock.number < h
        omega),
      atHeight_of_lt (show number b < h from Nat.lt_of_not_le hle)]

theorem forkChoice_frame (hf : ForkChoice s) (hget : s'.getBlock = s.getBlock)
    (hcur : s'.currentBlock = s.currentBlock) (hcanon : s'.canonicalHash = s.canonicalHash) :
    ForkChoice s' := by
  obtain ⟨h₁, h₂, h₃⟩ := hf
  refine ⟨?_, ?_, ?_⟩
  · rw [hget, hcur]
    exact h₁
  · rw [hcur, hcanon]
    exact h₂
  · rw [hget, hcur, hcanon]
    exact h₃

/-- The guard of a run whose blocks are genuine and never replace a higher head. -/
def Keeps (g : RootBlock) (s : RootBlockChain) : Event → Prop
  | .accepted b => Genuine g s b ∧ ¬ Shrinks s b
  | .dropped _ => True
  | .reported _ _ => True
  | .checkDB _ => True

theorem forkChoice_step {e : Event} (hw : Wf g s) (hf : ForkChoice s) (hs : Step n s e s')
    (hgen : ∀ b, e = .accepted b → Genuine g s b) :
    Wf g s' ∧ (ForkChoice s' ↔ ∀ b, e = .accepted b → ¬ Shrinks s b) := by
  cases hs with
  | @accepted ord s s₁ b hv ho =>
    obtain ⟨hget, hcur, hcanon⟩ := validateBlock_frame hv
    obtain ⟨p, hp, hn⟩ := (validateBlock_ok_iff.mp ⟨s₁, hv⟩).parent
    have hshrink : Shrinks s₁ b ↔ Shrinks s b := by rw [Shrinks, Shrinks, hcur]
    obtain ⟨hw', hiff⟩ := forkChoice_write (hw.congr hget hcur)
      (forkChoice_frame hf hget hcur hcanon) ((hgen b rfl).congr hget) (hget ▸ hp) hn
    refine ⟨hw', hiff.trans ?_⟩
    rw [hshrink]
    constructor
    · intro h c hc
      cases hc
      exact h
    · exact fun h => h b rfl
  | dropped hv ho =>
    obtain ⟨hget, hcur, hcanon⟩ := validateBlock_frame hv
    exact ⟨hw.congr hget hcur, iff_of_true (forkChoice_frame hf hget hcur hcanon) (by rintro b ⟨⟩)⟩
  | reported s h token =>
    exact ⟨hw.congr rfl rfl, iff_of_true (forkChoice_frame hf rfl rfl rfl) (by rintro b ⟨⟩)⟩
  | checkDB s flag =>
    exact ⟨hw.congr rfl rfl, iff_of_true (forkChoice_frame hf rfl rfl rfl) (by rintro b ⟨⟩)⟩

/-- **An `InsertChain` is a run.**  Whatever it returns, the chain it leaves is reached by writing and
dropping validated blocks. -/
theorem insertChain_reaches (n : Setup) (ord : MapOrder) (s₀ : RootBlockChain) (skipping : Bool)
    (chain : List RootBlock) (hs : Reaches (Step n) (fun _ _ => True) s₀ s) :
    Reaches (Step n) (fun _ _ => True) s₀ (n.insertChain ord skipping s chain).2 := by
  induction chain generalizing s skipping with
  | nil => exact hs
  | cons b rest ih =>
    rw [Setup.insertChain]
    cases hv : n.validateBlock ord s b s.isCheckDB with
    | error e =>
      simp only
      split_ifs
      · exact ih true hs
      · exact hs
    | ok s₁ =>
      simp only [Setup.importBlock]
      cases ho : n.isTooOld s₁ b with
      | true => exact hs.step trivial (.dropped hv ho)
      | false =>
        have hstep : Reaches (Step n) (fun _ _ => True) s₀ (s₁.writeBlockWithState b).2 :=
          hs.step trivial (.accepted hv ho)
        simp only [Bool.false_eq_true, if_false]
        rcases hw : s₁.writeBlockWithState b with ⟨_ | st, s₂⟩ <;> rw [hw] at hstep
        · exact hstep
        · exact ih false hstep

/-- A genesis block: at height zero, with a hash of its own. -/
structure IsGenesis (g : RootBlock) : Prop where
  number_eq : g.number = 0
  ne_empty : g.hash ≠ emptyHash
  parent_ne : g.parentHash ≠ g.hash
  no_headers : g.minorBlockHeaders = []

theorem forkChoice_genesis (hg : IsGenesis g) (coinbase : Hash → Option TokenMap) :
    ForkChoice (.genesis g coinbase) := by
  have hw := Wf.start hg.number_eq hg.ne_empty hg.parent_ne coinbase
  rw [forkChoice_iff_indexes hw]
  have hcur : (RootBlockChain.genesis g coinbase).currentBlock = g := rfl
  rw [hcur]
  constructor
  · intro k b hb
    rw [(RootBlockChain.genesis_getBlock hb).2]
  · intro h
    by_cases hh : h = g.number
    · subst hh
      rw [show atHeight _ g g.number = some g from atHeight_self g]
      simp [RootBlockChain.genesis]
    · have := hg.number_eq
      rw [atHeight_of_lt (show number g < h by change g.number < h; omega)]
      simp [RootBlockChain.genesis, Function.update_of_ne hh]

/-- **Fork choice on the root chain.**  In every state of a run whose accepted blocks never replace a higher head,
the head is the heaviest accepted block and the canonical index is exact; and any further accepted block keeps
it so exactly when it is not a preferred block below the head. -/
theorem forkChoice_iff (hg : IsGenesis g) (coinbase : Hash → Option TokenMap)
    (hs : Reaches (Step n) (Keeps g) (.genesis g coinbase) s) :
    ForkChoice s ∧ ∀ b s', Genuine g s b → Step n s (.accepted b) s' →
      (ForkChoice s' ↔ ¬ Shrinks s b) := by
  have hinv : Wf g s ∧ ForkChoice s := by
    refine hs.induct_inv (fun s => Wf g s ∧ ForkChoice s)
      ⟨Wf.start hg.number_eq hg.ne_empty hg.parent_ne coinbase, forkChoice_genesis hg coinbase⟩ ?_
    rintro s e s' ⟨hw, hf⟩ hk hstep
    have hkeep : ∀ b, e = .accepted b → Genuine g s b ∧ ¬ Shrinks s b := by
      rintro b rfl
      exact hk
    obtain ⟨hw', hiff⟩ := forkChoice_step hw hf hstep fun b hb => (hkeep b hb).1
    exact ⟨hw', hiff.mpr fun b hb => (hkeep b hb).2⟩
  refine ⟨hinv.2, fun b s' hb hstep => ?_⟩
  obtain ⟨-, hiff⟩ := forkChoice_step hinv.1 hinv.2 hstep (by
    rintro c hc
    cases hc
    exact hb)
  refine hiff.trans ⟨fun h => h b rfl, ?_⟩
  rintro h c hc
  cases hc
  exact h

end ForkChoice

/-! ### A lower block that wins -/

def sampleSetup : Setup where
  config :=
    { quarkchain :=
        { shards := [⟨0, 1, 0, some ⟨0, 12000000⟩, 8⟩]
          defaultChainTokenID := 35760
          xShardGasDDOSFixRootHeight := 0
          shards_nodup := by simp }
      blockExtraDataSizeLimit := 1024
      skipRootDifficultyCheck := false
      skipRootCoinbaseCheck := true
      maxStaleRootBlockHeightDiff := 60
      rewardCalculateRateNum := 1
      rewardCalculateRateDenom := 1
      coinbaseAmount := 156
      epochInterval := 210000
      blockRewardDecayFactorNum := 1
      blockRewardDecayFactorDenom := 2 }
  calculateDifficulty := ethDifficulty 40 2 1
  verifySeal _ _ := true
  calculateMerkleRoot _ := 0
  emptyTrieHash := 0

def sampleOrder : MapOrder where
  hashes l := l
  groups l := l
  hashes_perm _ := .refl _
  groups_perm _ := .refl _

def sampleBlock (hash parentHash : Hash) (number time difficulty totalDifficulty : ℕ) :
    RootBlock where
  hash := hash
  parentHash := parentHash
  number := number
  coinbase := ⟨0xcc, 0⟩
  coinbaseAmount := ∅
  minorBlockHeaders := []
  time := time
  difficulty := difficulty
  totalDifficulty := totalDifficulty

def sampleGenesis : RootBlock := sampleBlock 1 0 0 0 100 100

def slowBlock₁ : RootBlock := sampleBlock 2 1 1 80 50 150
def slowBlock₂ : RootBlock := sampleBlock 3 2 2 160 25 175

def fastBlock : RootBlock := sampleBlock 4 1 1 10 150 250

theorem sampleGenesis_isGenesis : IsGenesis sampleGenesis := by
  constructor <;> decide

/-- One block that is validated, found not too old and written. -/
def Setup.acceptBlock (n : Setup) (ord : MapOrder) (s : RootBlockChain) (b : RootBlock) :
    Option RootBlockChain :=
  match n.validateBlock ord s b s.isCheckDB with
  | .error _ => none
  | .ok s₁ => if n.isTooOld s₁ b then none else some (s₁.writeBlockWithState b).2

theorem acceptBlock_step {n : Setup} {ord : MapOrder} {s s' : RootBlockChain} {b : RootBlock}
    (h : n.acceptBlock ord s b = some s') :
    Step n s (.accepted b) s' ∧ s'.getBlock = Function.update s.getBlock b.hash (some b) := by
  unfold Setup.acceptBlock at h
  split at h
  · cases h
  next s₁ hv =>
    split_ifs at h with ho
    cases h
    refine ⟨.accepted hv (by simpa using ho), ?_⟩
    rw [(s₁.writeBlockWithState_stores b).1, (validateBlock_frame hv).1]

theorem genuine_of_absent {s : RootBlockChain} {b : RootBlock} (hne : b.hash ≠ 0)
    (habsent : s.getBlock b.hash = none) : Genuine sampleGenesis s b :=
  ⟨hne, hne, fun b' hb' => by rw [habsent] at hb'; cases hb'⟩

/-- A block replaces another one at its height, and head and index are as they should be. -/
theorem fastBlock_forkChoice : ∃ s s',
    Reaches (Step sampleSetup) (Keeps sampleGenesis) (.genesis sampleGenesis fun _ => none) s ∧
      s.currentBlock = slowBlock₁ ∧ Step sampleSetup s (.accepted fastBlock) s' ∧
      s'.currentBlock = fastBlock ∧ ForkChoice s' := by
  have hrun : ((sampleSetup.acceptBlock sampleOrder (.genesis sampleGenesis fun _ => none) slowBlock₁).any
      fun s => s.currentBlock = slowBlock₁ ∧ (sampleSetup.acceptBlock sampleOrder s fastBlock).any
        fun s' => s'.currentBlock = fastBlock) = true := by decide +kernel
  obtain ⟨s, hs, hnext⟩ := (Option.any_eq_true _ _).mp hrun
  obtain ⟨hcur, hnext⟩ := of_decide_eq_true hnext
  obtain ⟨s', hs', hcur'⟩ := (Option.any_eq_true _ _).mp hnext
  obtain ⟨hstep, hget⟩ := acceptBlock_step hs
  obtain ⟨hstep', -⟩ := acceptBlock_step hs'
  have hreach : Reaches (Step sampleSetup) (Keeps sampleGenesis) (.genesis sampleGenesis fun _ => none) s :=
    .step (a := .accepted slowBlock₁) .start ⟨genuine_of_absent (by decide) (by decide), fun h => absurd h.1 (by decide)⟩ hstep
  refine ⟨s, s', hreach, hcur, hstep', of_decide_eq_true hcur',
    ((forkChoice_iff sampleGenesis_isGenesis _ hreach).2 _ _ ?_ hstep').mpr ?_⟩
  · exact genuine_of_absent (by decide) (by rw [hget]; decide)
  · rintro ⟨hlt, -⟩
    rw [hcur] at hlt
    exact absurd hlt (by decide)

/-- **The index keeps an entry above the head,** after a fast block has replaced two slow ones. -/
theorem fastBlock_leaves_stale_entry :
    let s := (sampleSetup.insertChainChecked sampleOrder (.genesis sampleGenesis fun _ => none)
      [slowBlock₁, slowBlock₂]).2
    let r := sampleSetup.insertChainChecked sampleOrder s [fastBlock]
    r.1.isNone = true ∧ r.2.currentBlock = fastBlock ∧
      r.2.canonicalHash 2 = some slowBlock₂.hash ∧ ¬ ForkChoice r.2 := by
  intro s r
  have hrun : r.1.isNone = true ∧ r.2.currentBlock = fastBlock ∧
      r.2.canonicalHash 2 = some slowBlock₂.hash := by decide +kernel
  refine ⟨hrun.1, hrun.2.1, hrun.2.2, fun hf => ?_⟩
  have hle := (hf.exists_iff 2).mp (by rw [hrun.2.2]; rfl)
  rw [hrun.2.1] at hle
  exact absurd hle (by decide)

end QuarkChain.Root
