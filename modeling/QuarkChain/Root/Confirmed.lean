/-
# Confirmed shard chains

Within one root block the headers of a shard link to each other; across blocks the validator compares only with
the table of latest headers kept for the parent.  `Confirms` states both for one block and its parent, and is
kept by every step of a run (`confirmed_step`).

Going up a chain of root blocks, the entries of the table are the last headers confirmed so far, so
the headers of each shard, taken over the whole chain, form one list that starts at height zero and
whose parent links and heights have no gap (`confirmed_linear`).
-/
import QuarkChain.Root.ForkChoice

namespace QuarkChain.Root

open BlockTree Config QuarkChain.Types Run

def Continues (a b : MinorBlockHeader) : Prop := b.parentHash = a.hash ∧ b.number = a.number + 1

/-- A shard's chain from its first block on, without a gap. -/
structure Linear (l : List MinorBlockHeader) : Prop where
  start : ∀ h, l.head? = some h → h.number = 0
  continues : l.IsChain Continues

/-- The headers of a shard that a chain of root blocks, the highest first, confirms, in order. -/
def confirmed (chain : List RootBlock) (id : ℕ) : List MinorBlockHeader :=
  ofShard (chain.reverse.flatMap RootBlock.minorBlockHeaders) id

theorem confirmed_cons (b : RootBlock) (chain : List RootBlock) (id : ℕ) :
    confirmed (b :: chain) id = confirmed chain id ++ ofShard b.minorBlockHeaders id := by
  simp [confirmed, ofShard]

/-- What a chain of root blocks from the genesis block up to `b` confirms. -/
structure ConfirmedChain (s : RootBlockChain) (b : RootBlock) (chain : List RootBlock) : Prop where
  linear : ∀ id, Linear (confirmed chain id)
  latest : ∀ id, (s.getLatestMinorBlockHeaders b.hash).lookup id = (confirmed chain id).getLast?
  prevRoot : ∀ c ∈ chain, ∀ h ∈ c.minorBlockHeaders, ∃ r, s.getBlock h.prevRootBlockHash = some r ∧
    Descends s.getBlock r c ∧ r.number < c.number

/-! ### One block and its parent -/

/-- What the validator has established about a block over its parent `p`. -/
structure Confirms (s : RootBlockChain) (p b : RootBlock) : Prop where
  own : ∀ id, (ofShard b.minorBlockHeaders id).IsChain Continues
  first : ∀ id f, (ofShard b.minorBlockHeaders id).head? = some f →
    (s.getLatestMinorBlockHeaders p.hash).lookup id = none → f.number = 0
  link : ∀ id f q, (ofShard b.minorBlockHeaders id).head? = some f →
    (s.getLatestMinorBlockHeaders p.hash).lookup id = some q → Continues q f
  latest : ∀ id, (s.getLatestMinorBlockHeaders b.hash).lookup id =
    (ofShard b.minorBlockHeaders id).getLast?.or ((s.getLatestMinorBlockHeaders p.hash).lookup id)
  prevRoot : ∀ h ∈ b.minorBlockHeaders, ∃ r, s.getBlock h.prevRootBlockHash = some r ∧
    Descends s.getBlock r p

variable {l : List MinorBlockHeader} {k : Hash}

section Confirms

variable {g p b : RootBlock} {s s' s₁ : RootBlockChain} {n : Setup} {ord : MapOrder} {force : Bool}

theorem branch_le_of_mem {a h : MinorBlockHeader}
    (hl : (a :: l).IsChain Follows) (hh : h ∈ l) : a.branch.value ≤ h.branch.value := by
  have hle : (a :: l).IsChain fun x y => x.branch.value ≤ y.branch.value := hl.imp fun x y hxy => by
    rcases hxy with hlt | ⟨heq, -⟩ <;> omega
  have : IsTrans MinorBlockHeader fun x y => x.branch.value ≤ y.branch.value := ⟨fun _ _ _ => le_trans⟩
  exact List.rel_of_pairwise_cons hle.pairwise hh

theorem isChain_ofShard (hl : l.IsChain Follows) (id : ℕ) : (ofShard l id).IsChain Continues := by
  induction l with
  | nil => exact .nil
  | cons a l ih =>
    have htail := ih hl.tail
    by_cases hid : a.branch.value = id
    · rw [ofShard, List.filter_cons_of_pos (by simpa using hid)]
      refine List.isChain_cons.mpr ⟨fun y hy => ?_, htail⟩
      rcases l with _ | ⟨b, l⟩
      · simp at hy
      have hbranch := (mem_ofShard.mp (List.mem_of_head? hy)).2
      rcases (List.isChain_cons_cons.mp hl).1 with hlt | ⟨heq, hn, hp⟩
      · -- the shard ends here, the rest belongs to later shards
        have hb : b.branch.value ≤ y.branch.value := by
          rcases List.mem_cons.mp (mem_ofShard.mp (List.mem_of_head? hy)).1 with rfl | hmem
          · exact le_rfl
          · exact branch_le_of_mem hl.tail hmem
        omega
      · rw [List.filter_cons_of_pos (by simpa using heq.symm.trans hid)] at hy
        obtain rfl : b = y := by simpa using hy
        exact ⟨hp, hn⟩
    · rw [ofShard, List.filter_cons_of_neg (by simpa using hid)]
      exact htail

/-- A prev-root block that the validator accepts, other than the block itself, is an ancestor of the
parent. -/
theorem checkPrevRoot_descends (hw : Wf g s) {key : Hash} (hp : s.getBlock b.parentHash = some p)
    (hn : b.number = p.number + 1) (hnew : s.getBlock b.hash = none)
    (hok : checkPrevRoot s b key = .ok ()) :
    ∃ r, s.getBlock key = some r ∧ Descends s.getBlock r p := by
  rw [checkPrevRoot] at hok
  rcases hr : s.getBlock key with _ | r
  · simp [hr] at hok
  refine ⟨r, rfl, ?_⟩
  have hrooted : Rooted s.getBlock b := .child hp hn (hw.rooted hp)
  have hle : r.number ≤ b.number := by
    by_contra hlt
    have hcrit : ∃ e, isSameChain s.getBlock b r = .error e :=
      (isSameChain_crit_iff hw.consistent hw.empty hrooted).mpr (Nat.lt_of_not_le hlt)
    obtain ⟨e, he⟩ := hcrit
    simp [hr, he] at hok
  have hsame := isSameChain_eq hw.consistent hw.empty hrooted
    (show number r ≤ number b from hle)
  have hat : (atHeight s.getBlock b r.number).map blockHash = some r.hash := by
    by_contra hne
    simp [hr, hsame, hne] at hok
  have hself := hw.consistent.stored hr
  rcases Nat.lt_or_ge p.number r.number with hlt | hge
  · -- at the block's own height the ancestor is the block, which is not stored
    have hnum : r.number = b.number := by omega
    rw [hnum, show atHeight s.getBlock b b.number = some b from atHeight_self b] at hat
    rw [show blockHash r = b.hash from (Option.some.inj hat).symm, hnew] at hself
    cases hself
  · obtain ⟨a, ha, -⟩ := (hw.rooted hp).atHeight_exists (show r.number ≤ number p from hge)
    rw [atHeight_parent hp hn hge, ha] at hat
    have hda := descends_of_atHeight ha
    have hsa := hw.consistent.stored_of_descends (hw.consistent.stored hp) hda
    rwa [← Consistent.eq_of_hash_eq hsa hself (Option.some.inj hat)]

theorem confirms_of_accepted (hw : Wf g s) (hnew : s.getBlock b.hash = none)
    (ha : Accepted n s b force) (hp : s.getBlock b.parentHash = some p)
    (hget : s'.getBlock = s.getBlock)
    (hparent : ∀ id, (s'.getLatestMinorBlockHeaders p.hash).lookup id =
      (s.getLatestMinorBlockHeaders p.hash).lookup id)
    (hlatest : ∀ id, (s'.getLatestMinorBlockHeaders b.hash).lookup id =
      (ofShard b.minorBlockHeaders id).getLast?.or
        ((s.getLatestMinorBlockHeaders b.parentHash).lookup id)) : Confirms s' p b := by
  have hhash : p.hash = b.parentHash := hw.consistent.keyed hp
  have hshard : ∀ id f, (ofShard b.minorBlockHeaders id).head? = some f →
      ShardOk n b (s.getLatestMinorBlockHeaders b.parentHash) id
        (ofShard b.minorBlockHeaders id) := by
    intro id f hf
    refine ha.shards id fun hnil => ?_
    rw [hnil] at hf
    cases hf
  refine ⟨isChain_ofShard ha.follows, ?_, ?_, ?_, ?_⟩
  · intro id f hf hnone
    rw [hparent, hhash] at hnone
    exact (hshard id f hf).first f hf hnone
  · intro id f q hf hq
    rw [hparent, hhash] at hq
    obtain ⟨hnum, hl⟩ := (hshard id f hf).link f q hf hq
    exact ⟨hl, hnum⟩
  · intro id
    rw [hlatest, hparent, hhash]
  · intro h hh
    obtain ⟨q, hq, hn⟩ := ha.parent
    obtain rfl : p = q := Option.some.inj (hp.symm.trans hq)
    rw [hget]
    exact checkPrevRoot_descends hw hp hn hnew (ha.prevRoots h hh)

theorem Confirms.mono (hc : Confirms s p b)
    (hget : ∀ k c, s.getBlock k = some c → s'.getBlock k = some c)
    (hparent : ∀ id, (s'.getLatestMinorBlockHeaders p.hash).lookup id =
      (s.getLatestMinorBlockHeaders p.hash).lookup id)
    (hself : ∀ id, (s'.getLatestMinorBlockHeaders b.hash).lookup id =
      (s.getLatestMinorBlockHeaders b.hash).lookup id) : Confirms s' p b := by
  refine ⟨hc.own, ?_, ?_, ?_, ?_⟩
  · intro id f
    rw [hparent]
    exact hc.first id f
  · intro id f q
    rw [hparent]
    exact hc.link id f q
  · intro id
    rw [hparent, hself]
    exact hc.latest id
  · intro h hh
    obtain ⟨r, hr, hd⟩ := hc.prevRoot h hh
    exact ⟨r, hget _ _ hr, hd.mono hget⟩

end Confirms

/-! ### Runs -/

/-- The guard of a run whose blocks are genuine. -/
def GenuineEvent (g : RootBlock) (s : RootBlockChain) : Event → Prop
  | .accepted b => Genuine g s b
  | .dropped b => Genuine g s b
  | .reported _ _ => True
  | .checkDB _ => True

/-- What every state of a run satisfies: a tree, in which every block confirms over its parent. -/
structure Confirmed (g : RootBlock) (s : RootBlockChain) : Prop where
  wf : Wf g s
  genesis : ∀ id, (s.getLatestMinorBlockHeaders g.hash).lookup id = none
  confirms : ∀ k b p, s.getBlock k = some b → s.getBlock b.parentHash = some p → Confirms s p b

section Run

variable {g p b : RootBlock} {s s' s₁ : RootBlockChain} {n : Setup} {ord : MapOrder} {force : Bool}

theorem confirmed_genesis (hg : IsGenesis g) (coinbase : Hash → Option TokenMap) :
    Confirmed g (.genesis g coinbase) := by
  have hw := Wf.start hg.number_eq hg.ne_empty hg.parent_ne coinbase
  refine ⟨hw, fun _ => rfl, fun k b p hb hp => ?_⟩
  -- the only stored block has no stored parent
  rw [(RootBlockChain.genesis_getBlock hb).2, hw.genesisParent] at hp
  cases hp

/-- **Validation keeps the entries of stored blocks.** -/
theorem validateBlock_lookup (hi : Confirmed g s) (hb : Genuine g s b)
    (hv : n.validateBlock ord s b force = .ok s₁) {c : RootBlock}
    (hc : s.getBlock k = some c) (id : ℕ) : (s₁.getLatestMinorBlockHeaders c.hash).lookup id =
      (s.getLatestMinorBlockHeaders c.hash).lookup id := by
  obtain ⟨⟨latest, rfl⟩, hlatest⟩ := validateBlock_ok_latest hv
  by_cases hcb : c.hash = b.hash
  · have hsc := hi.wf.consistent.stored hc
    obtain rfl : c = b := hb.same c (by rw [← hcb]; exact hsc)
    obtain ⟨p, hp, -⟩ := (validateBlock_ok_iff.mp ⟨_, hv⟩).parent
    have hhash : p.hash = c.parentHash := hi.wf.consistent.keyed hp
    rw [hlatest, (hi.confirms k c p hc hp).latest, hhash]
  · simp only [RootBlockChain.getLatestMinorBlockHeaders,
      RootBlockChain.setLatestMinorBlockHeaders, Function.update_of_ne hcb]

theorem validateBlock_confirms (hi : Confirmed g s) (hb : Genuine g s b)
    (hv : n.validateBlock ord s b force = .ok s₁) (hp : s.getBlock b.parentHash = some p) :
    Confirms s₁ p b := by
  obtain ⟨hget, -⟩ := validateBlock_frame hv
  obtain ⟨-, hlatest⟩ := validateBlock_ok_latest hv
  cases hnew : s.getBlock b.hash with
  | none =>
    exact confirms_of_accepted hi.wf hnew (validateBlock_ok_iff.mp ⟨_, hv⟩) hp hget
      (validateBlock_lookup hi hb hv hp) hlatest
  | some c =>
    obtain rfl : c = b := hb.same c hnew
    exact (hi.confirms _ c p hnew hp).mono (fun k c hc => by rwa [hget])
      (validateBlock_lookup hi hb hv hp) (validateBlock_lookup hi hb hv hnew)

theorem confirmed_validateBlock (hi : Confirmed g s) (hb : Genuine g s b)
    (hv : n.validateBlock ord s b force = .ok s₁) : Confirmed g s₁ := by
  obtain ⟨hget, hcur, -⟩ := validateBlock_frame hv
  have hlook := fun {k c} hc => validateBlock_lookup hi hb hv (k := k) (c := c) hc
  refine ⟨hi.wf.congr hget hcur, fun id => ?_, fun k c p hc hp => ?_⟩
  · rw [hlook hi.wf.genesis, hi.genesis]
  · rw [hget] at hc hp
    exact (hi.confirms k c p hc hp).mono (fun k c hc => by rwa [hget]) (hlook hp) (hlook hc)

theorem confirmed_write (hi : Confirmed g s) (hb : Genuine g s b)
    (hp : s.getBlock b.parentHash = some p) (hn : b.number = p.number + 1)
    (hc : Confirms s p b) : Confirmed g (s.writeBlockWithState b).2 := by
  obtain ⟨hget, hlatest⟩ := s.writeBlockWithState_stores b
  have hmono : ∀ k c, s.getBlock k = some c → (s.writeBlockWithState b).2.getBlock k = some c := by
    rw [hget]
    exact Wf.store_mono hb
  have hlook : ∀ k id, ((s.writeBlockWithState b).2.getLatestMinorBlockHeaders k).lookup id =
      (s.getLatestMinorBlockHeaders k).lookup id := by
    intro k id
    simp only [RootBlockChain.getLatestMinorBlockHeaders, hlatest]
  refine ⟨hi.wf.store hb hp hn hget (s.writeBlockWithState_currentBlock b), fun id => ?_,
    fun k c q hc' hq => ?_⟩
  · rw [hlook, hi.genesis]
  · rw [hget] at hc'
    rcases store_cases hc' with ⟨-, rfl⟩ | hold
    · obtain rfl : p = q := Option.some.inj ((hmono _ p hp).symm.trans hq)
      exact hc.mono hmono (hlook _) (hlook _)
    -- the parent of an old block was stored before
    rcases hi.wf.parent_stored hold with rfl | ⟨q', hq'⟩
    · rw [hget, Function.update_of_ne hb.ne_genesisParent.symm, hi.wf.genesisParent] at hq
      cases hq
    · obtain rfl : q' = q := Option.some.inj ((hmono _ q' hq').symm.trans hq)
      exact (hi.confirms k c q' hold hq').mono hmono (hlook _) (hlook _)

/-- **Every step keeps the invariant.** -/
theorem confirmed_step {e : Event} (hi : Confirmed g s) (he : GenuineEvent g s e)
    (hs : Step n s e s') : Confirmed g s' := by
  cases hs with
  | @accepted ord s s₁ b hv ho =>
    obtain ⟨hget, -⟩ := validateBlock_frame hv
    obtain ⟨p, hp, hn⟩ := (validateBlock_ok_iff.mp ⟨s₁, hv⟩).parent
    exact confirmed_write (confirmed_validateBlock hi he hv) (Genuine.congr he hget) (by rwa [hget]) hn
      (validateBlock_confirms hi he hv hp)
  | dropped hv ho => exact confirmed_validateBlock hi he hv
  | reported s h token =>
    exact ⟨hi.wf.congr rfl rfl, hi.genesis, fun k b p hb hp =>
      (hi.confirms k b p hb hp).mono (fun _ _ => id) (fun _ => rfl) fun _ => rfl⟩
  | checkDB s flag =>
    exact ⟨hi.wf.congr rfl rfl, hi.genesis, fun k b p hb hp =>
      (hi.confirms k b p hb hp).mono (fun _ _ => id) (fun _ => rfl) fun _ => rfl⟩

theorem confirmed_reaches (hg : IsGenesis g) (coinbase : Hash → Option TokenMap)
    (hs : Reaches (Step n) (GenuineEvent g) (.genesis g coinbase) s) : Confirmed g s :=
  hs.induct_inv (Confirmed g) (confirmed_genesis hg coinbase) fun _ _ _ => confirmed_step

theorem Linear.append {l' : List MinorBlockHeader} (hl : Linear l) (hl' : l'.IsChain Continues)
    (hfirst : ∀ f, l'.head? = some f → l.getLast? = none → f.number = 0)
    (hlink : ∀ f q, l'.head? = some f → l.getLast? = some q → Continues q f) :
    Linear (l ++ l') := by
  refine ⟨fun h hh => ?_, hl.continues.append hl' fun q hq f hf => hlink f q hf hq⟩
  cases l with
  | nil => exact hfirst h hh rfl
  | cons a l => exact hl.start h hh

theorem ConfirmedChain.cons {chain : List RootBlock} (hc : Confirms s p b)
    (hp : s.getBlock b.parentHash = some p) (hn : b.number = p.number + 1)
    (hle : ∀ r, Descends s.getBlock r p → r.number ≤ p.number)
    (hchain : ConfirmedChain s p chain) : ConfirmedChain s b (b :: chain) := by
  refine ⟨fun id => ?_, fun id => ?_, fun c hcm h hh => ?_⟩
  · rw [confirmed_cons]
    refine (hchain.linear id).append (hc.own id) (fun f hf hnone => ?_) fun f q hf hq => ?_
    · exact hc.first id f hf ((hchain.latest id).trans hnone)
    · exact hc.link id f q hf ((hchain.latest id).trans hq)
  · rw [confirmed_cons, hc.latest, hchain.latest, List.getLast?_append]
  · rcases List.mem_cons.mp hcm with rfl | hcm
    · obtain ⟨r, hr, hd⟩ := hc.prevRoot h hh
      have := hle r hd
      exact ⟨r, hr, .step hp hd, by omega⟩
    · exact hchain.prevRoot c hcm h hh

theorem Confirmed.chain (hi : Confirmed g s) {chain : List RootBlock}
    (hb : s.getBlock k = some b) (hseg : Segment s.getBlock b chain g) :
    ConfirmedChain s b chain := by
  induction hseg generalizing k with
  | nil c =>
    refine ⟨fun _ => ⟨?_, .nil⟩, fun id => ?_, ?_⟩
    · rintro h ⟨⟩
    · rw [hi.genesis]
      rfl
    · rintro c ⟨⟩
  | cons hp hn _ ih =>
    exact (ih hi hp).cons (hi.confirms k _ _ hb hp) hp hn fun r hd => hi.wf.consistent.number_le hp hd

/-- **Confirmed shard chains are linear.**  In every state of a run, along the chain of root blocks up to any
stored or acceptable block, the headers of each shard start at height zero and continue one another, and
their prev-root blocks are proper ancestors of the blocks that confirm them. -/
theorem confirmed_linear (hg : IsGenesis g) (coinbase : Hash → Option TokenMap)
    (hs : Reaches (Step n) (GenuineEvent g) (.genesis g coinbase) s) :
    (∀ k b, s.getBlock k = some b → ∃ chain, Segment s.getBlock b chain g) ∧
    (∀ k b chain, s.getBlock k = some b → Segment s.getBlock b chain g → ConfirmedChain s b chain) ∧
    ∀ ord force b p s₁ chain, Genuine g s b → n.validateBlock ord s b force = .ok s₁ →
      s.getBlock b.parentHash = some p → Segment s.getBlock p chain g →
      ConfirmedChain s₁ b (b :: chain) := by
  have hi := confirmed_reaches hg coinbase hs
  refine ⟨fun k b hb => Segment.of_descends hi.wf.consistent hb (hi.wf.descends k b hb),
    fun k b chain hb hseg => hi.chain hb hseg, ?_⟩
  intro ord force b p s₁ chain hgen hv hp hseg
  obtain ⟨hget, -⟩ := validateBlock_frame hv
  have hi₁ := confirmed_validateBlock hi hgen hv
  obtain ⟨q, hq, hn⟩ := (validateBlock_ok_iff.mp ⟨s₁, hv⟩).parent
  obtain rfl : p = q := Option.some.inj (hp.symm.trans hq)
  have hconf := validateBlock_confirms hi hgen hv hp
  rw [← hget] at hp hseg
  exact (hi₁.chain hp hseg).cons hconf hp hn fun r hd => hi₁.wf.consistent.number_le hp hd

/-- The head has the largest total difficulty, and the lowest height with it. -/
def Best (s : RootBlockChain) : Prop :=
  ∀ k c, s.getBlock k = some c → c.totalDifficulty < s.currentBlock.totalDifficulty ∨
    c.totalDifficulty = s.currentBlock.totalDifficulty ∧ s.currentBlock.number ≤ c.number

theorem best_step {e : Event} (hw : Wf g s) (hbest : Best s) (he : GenuineEvent g s e)
    (hs : Step n s e s') : Best s' := by
  cases hs with
  | @accepted ord s s₁ b hv ho =>
    obtain ⟨hget, hcur, -⟩ := validateBlock_frame hv
    obtain ⟨p, hp, hn⟩ := (validateBlock_ok_iff.mp ⟨s₁, hv⟩).parent
    intro k c hc
    rw [writeBlockWithState_head (hw.congr hget hcur) (Genuine.congr he hget) (hget ▸ hp) hn]
    rw [(s₁.writeBlockWithState_stores b).1] at hc
    have hold := hbest k c
    rw [← hget, ← hcur] at hold
    rcases store_cases hc with ⟨-, rfl⟩ | hc <;> split_ifs with hwins <;> rw [wins_iff] at hwins <;> grind
  | dropped hv ho =>
    obtain ⟨hget, hcur, -⟩ := validateBlock_frame hv
    unfold Best
    rwa [hget, hcur]
  | reported s h token => exact hbest
  | checkDB s flag => exact hbest

theorem best_reaches (hg : IsGenesis g) {coinbase : Hash → Option TokenMap}
    (hs : Reaches (Step n) (GenuineEvent g) (.genesis g coinbase) s) : Best s := by
  refine (hs.induct_inv (fun s => Confirmed g s ∧ Best s) ⟨confirmed_genesis hg coinbase, ?_⟩
    fun s e s' h he hstep => ⟨confirmed_step h.1 he hstep, best_step h.1.wf h.2 he hstep⟩).2
  intro k c hc
  obtain ⟨-, rfl⟩ := RootBlockChain.genesis_getBlock hc
  exact .inr ⟨rfl, le_rfl⟩

/-- **Agreement on the head.**  In every state of a run the head has the largest total difficulty of all stored
blocks and the lowest height among the heaviest; so nodes that hold the same root blocks, accepted in whatever order
and over whatever forks, have heads of the same total difficulty and height. -/
theorem heads_agree (hg : IsGenesis g) {coinbase : Hash → Option TokenMap}
    (hs : Reaches (Step n) (GenuineEvent g) (.genesis g coinbase) s) :
    Best s ∧ ∀ {m : Setup} {coinbase' : Hash → Option TokenMap} {s' : RootBlockChain},
      Reaches (Step m) (GenuineEvent g) (.genesis g coinbase') s' → s'.getBlock = s.getBlock →
      s.currentBlock.totalDifficulty = s'.currentBlock.totalDifficulty ∧
        s.currentBlock.number = s'.currentBlock.number := by
  refine ⟨best_reaches hg hs, fun hs' hsame => ?_⟩
  have h₁ := best_reaches hg hs _ _ (hsame ▸ (confirmed_reaches hg _ hs').wf.current)
  have h₂ := best_reaches hg hs' _ _ (hsame ▸ (confirmed_reaches hg _ hs).wf.current)
  omega

end Run

/-- A block with the total difficulty and the height of `fastBlock`. -/
def twinBlock : RootBlock := { fastBlock with hash := 7 }

/-- Two blocks that are equally good, in either order: each node keeps the one that came first. -/
theorem eitherOrder_agrees : ∃ s s' : RootBlockChain,
    s.currentBlock = fastBlock ∧ s'.currentBlock = twinBlock ∧ s'.getBlock = s.getBlock ∧ Best s ∧
      s.currentBlock.totalDifficulty = s'.currentBlock.totalDifficulty ∧
      s.currentBlock.number = s'.currentBlock.number := by
  have hrun : ∀ b ∈ [fastBlock, twinBlock], ∀ c ∈ [fastBlock, twinBlock], b ≠ c →
      ∃ s, Reaches (Step sampleSetup) (GenuineEvent sampleGenesis) (.genesis sampleGenesis fun _ => none) s ∧
        s.currentBlock = b ∧ s.getBlock = Function.update (Function.update
          (RootBlockChain.genesis sampleGenesis fun _ => none).getBlock b.hash (some b)) c.hash (some c) := by
    intro b hb c hc hne
    have htest : ∀ b ∈ [fastBlock, twinBlock], ∀ c ∈ [fastBlock, twinBlock], b ≠ c →
        ((sampleSetup.acceptBlock sampleOrder (.genesis sampleGenesis fun _ => none) b).any fun s =>
          (sampleSetup.acceptBlock sampleOrder s c).any fun s' => s'.currentBlock = b) = true := by
      decide +kernel
    obtain ⟨s, hs, hnext⟩ := (Option.any_eq_true _ _).mp (htest b hb c hc hne)
    obtain ⟨s', hs', hcur⟩ := (Option.any_eq_true _ _).mp hnext
    obtain ⟨hstep, hget⟩ := acceptBlock_step hs
    obtain ⟨hstep', hget'⟩ := acceptBlock_step hs'
    have habsent : ∀ b ∈ [fastBlock, twinBlock], ∀ c ∈ [fastBlock, twinBlock], b ≠ c →
        b.hash ≠ 0 ∧ (RootBlockChain.genesis sampleGenesis fun _ => none).getBlock b.hash = none ∧
        Function.update (RootBlockChain.genesis sampleGenesis fun _ => none).getBlock b.hash (some b) c.hash =
          none := by decide
    obtain ⟨hzero, hnone, -⟩ := habsent b hb c hc hne
    obtain ⟨hzero', -⟩ := habsent c hc b hb hne.symm
    refine ⟨s', .step (a := .accepted c) (.step (a := .accepted b) .start (genuine_of_absent hzero hnone) hstep)
      (genuine_of_absent hzero' ?_) hstep', of_decide_eq_true hcur, by rw [hget', hget]⟩
    rw [hget]
    exact (habsent b hb c hc hne).2.2
  obtain ⟨s, hs, hcur, hget⟩ := hrun fastBlock (by simp) twinBlock (by simp) (by decide)
  obtain ⟨s', hs', hcur', hget'⟩ := hrun twinBlock (by simp) fastBlock (by simp) (by decide)
  have hsame : s'.getBlock = s.getBlock := by
    rw [hget, hget', Function.update_comm (by decide)]
  have hagree := heads_agree sampleGenesis_isGenesis hs
  exact ⟨s, s', hcur, hcur', hsame, hagree.1, hagree.2 hs' hsame⟩

/-! ### A root block that confirms -/

def sampleHeader₀ : MinorBlockHeader where
  hash := 0x50
  parentHash := 0
  number := 0
  branch := ⟨1⟩
  prevRootBlockHash := 1

def sampleHeader₁ : MinorBlockHeader where
  hash := 0x51
  parentHash := 0x50
  number := 1
  branch := ⟨1⟩
  prevRootBlockHash := 1
  time := 5

def confirmingBlock : RootBlock :=
  { slowBlock₁ with hash := 5, minorBlockHeaders := [sampleHeader₀, sampleHeader₁] }

def reportedChain : RootBlockChain :=
  ((RootBlockChain.genesis sampleGenesis fun _ => none).addValidatedMinorBlockHeader
    sampleHeader₀.hash ∅).addValidatedMinorBlockHeader sampleHeader₁.hash ∅

theorem reportedChain_reaches : Reaches (Step sampleSetup) (GenuineEvent sampleGenesis)
    (.genesis sampleGenesis fun _ => none) reportedChain :=
  .step (a := .reported sampleHeader₁ ∅)
    (.step (a := .reported sampleHeader₀ ∅) .start trivial (.reported _ _ _)) trivial
    (.reported _ _ _)

theorem confirmingBlock_genuine : Genuine sampleGenesis reportedChain confirmingBlock := by
  refine ⟨by decide, by decide, fun b' hb' => ?_⟩
  simp [reportedChain, RootBlockChain.addValidatedMinorBlockHeader, RootBlockChain.genesis,
    confirmingBlock, sampleGenesis, sampleBlock] at hb'

/-- The first root block confirms the first two blocks of the shard. -/
theorem confirmingBlock_linear :
    confirmed [confirmingBlock] 1 = [sampleHeader₀, sampleHeader₁] ∧
      ∃ s₁, sampleSetup.validateBlock sampleOrder reportedChain confirmingBlock false = .ok s₁ ∧
        ConfirmedChain s₁ confirmingBlock [confirmingBlock] := by
  refine ⟨by decide, ?_⟩
  obtain ⟨s₁, hv, -⟩ := Outcome.exists_ok_of_test
    (x := sampleSetup.validateBlock sampleOrder reportedChain confirmingBlock false)
    (p := fun _ => True) (by decide +kernel)
  refine ⟨s₁, hv, (confirmed_linear sampleGenesis_isGenesis (fun _ => none)
    reportedChain_reaches).2.2 sampleOrder false confirmingBlock sampleGenesis s₁ []
    confirmingBlock_genuine hv ?_ (.nil _)⟩
  simp [reportedChain, RootBlockChain.addValidatedMinorBlockHeader, RootBlockChain.genesis,
    confirmingBlock, slowBlock₁, sampleGenesis, sampleBlock]

end QuarkChain.Root
