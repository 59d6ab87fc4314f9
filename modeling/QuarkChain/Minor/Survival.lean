/-
# Blocks that end the process

`isSameChain` exits with `log.Crit` where its first block is the lower one, and where a parent on the way down
is missing.  `ValidateBlock` of both chains calls it on blocks that the block of a peer names, and looks at
their heights in one of three places only: the prev-root blocks of a minor block and of its parent.  What a
prev-root block confirms may be above the parent of the minor block, and the prev-root block of a minor header
may be above the root block that lists it.  `validateBlock_survives_iff` says when that ends the process.
-/
import QuarkChain.Minor.Validator
import QuarkChain.Root.Confirmed

namespace QuarkChain.Root

open BlockTree Outcome QuarkChain.Types

section Walk

variable {β : Type} [Chained Hash β] {get : Hash → Option β} {longer shorter : β}

variable (get longer shorter) in
/-- The way down from one block to the height of another: it is not the lower one, and the blocks in between
are stored. -/
structure Walkable : Prop where
  le : number shorter ≤ number longer
  stored : ∀ j < number longer - number shorter - 1,
    (getParentHashByHash get)^[j + 1] (parentHash longer) ≠ emptyHash

theorem walkParents_ok_iff {k : ℕ} {h : Hash} : (∃ h', (walkParents get k h).1 = .ok h') ↔
    ∀ j < k, (getParentHashByHash get)^[j + 1] h ≠ emptyHash := by
  induction k generalizing h with
  | zero => simp [walkParents]
  | succ k ih =>
    rw [walkParents]
    split_ifs with hempty
    · exact iff_of_false (by rintro ⟨_, ⟨⟩⟩) fun hall => hall 0 (Nat.succ_pos k) hempty
    · rw [Prod.map_fst, id, ih]
      constructor
      · intro hrest j hj
        cases j with
        | zero => exact hempty
        | succ j => exact hrest j (by omega)
      · exact fun hall j hj => hall (j + 1) (by omega)

/-- **When the ancestry check returns.** -/
theorem isSameChain_ok_iff :
    (∃ same, isSameChain get longer shorter = .ok same) ↔ Walkable get longer shorter := by
  have hwalk := @walkParents_ok_iff _ _ get (number longer - number shorter - 1) (parentHash longer)
  unfold isSameChain sameChain
  split_ifs with hlt heq hsucc
  · exact ⟨nofun, fun h => absurd h.le (by omega)⟩
  · exact iff_of_true ⟨_, rfl⟩ ⟨by omega, fun j hj => by omega⟩
  · exact iff_of_true ⟨_, rfl⟩ ⟨by omega, fun j hj => by omega⟩
  · constructor
    · rintro ⟨same, hsame⟩
      obtain ⟨h', hok, -⟩ := Outcome.map_eq_ok.mp hsame
      exact ⟨by omega, hwalk.mp ⟨h', hok⟩⟩
    · intro h
      obtain ⟨h', hok⟩ := hwalk.mpr h.stored
      exact ⟨_, Outcome.map_eq_ok.mpr ⟨h', hok, rfl⟩⟩

end Walk

/-! ### Root blocks -/

variable {n : Setup} {s : RootBlockChain} {rootBlock : RootBlock} {force : Bool}

variable (n s rootBlock force) in
/-- The block passes the checks that `ValidateBlock` makes before it looks at prev-root blocks. -/
structure Presentable : Prop where
  height : 1 ≤ rootBlock.number
  known : force = true ∨ s.hasBlock rootBlock.hash = false
  header : n.verifyRootHeader s rootBlock = .ok ()
  content : n.checkContent s rootBlock = .ok ()
  validated : ∀ h ∈ rootBlock.minorBlockHeaders, s.containMinorBlockByHash h.hash = true
  time_le : ∀ h ∈ rootBlock.minorBlockHeaders, h.time ≤ rootBlock.time
  pos : ∀ h ∈ rootBlock.minorBlockHeaders, 0 < h.branch.value
  follows : rootBlock.minorBlockHeaders.IsChain Follows

/-- The order that visits a key first. -/
def firstKey (key : Hash) : MapOrder where
  hashes l := if key ∈ l then key :: l.erase key else l
  groups l := l
  hashes_perm l := by
    split_ifs with hkey
    · exact (List.perm_cons_erase hkey).symm
    · exact .refl l
  groups_perm := sampleOrder.groups_perm

theorem checkPrevRoot_survives {key : Hash} : (∀ c, checkPrevRoot s rootBlock key ≠ .error (.crit c)) ↔
    ∀ r, s.getBlock key = some r → Walkable s.getBlock rootBlock r := by
  unfold checkPrevRoot
  rcases s.getBlock key with _ | r
  · simp
  have hok := @isSameChain_ok_iff _ _ s.getBlock rootBlock r
  rcases hsame : isSameChain s.getBlock rootBlock r with c | _ | _ <;> simp_all

theorem scanHeaders_ne_crit (s : RootBlockChain) (rootBlock : RootBlock) (headers : List MinorBlockHeader) :
    Post (scanHeaders s rootBlock headers) (fun _ => True) fun e => ∀ c, e ≠ .crit c := by
  refine Post.foldlM trivial fun sc h _ _ => ?_
  unfold scanHeader
  split_ifs
  all_goals try simp
  split
  · simp
  · split_ifs <;> simp

theorem checkShard_ne_crit (latest : HeaderMap) (group : ℕ × List MinorBlockHeader) :
    Post (n.checkShard rootBlock latest group) (fun _ => True) fun e => ∀ c, e ≠ .crit c := by
  unfold Setup.checkShard
  split
  · simp
  split_ifs
  · simp
  · split
    · split <;> split_ifs <;> simp
    · simp
  · simp

theorem rootBlock_survives_iff : (∀ ord c, n.validateBlock ord s rootBlock force ≠ .error (.crit c)) ↔
    (Presentable n s rootBlock force → ∀ h ∈ rootBlock.minorBlockHeaders, ∀ r,
      s.getBlock h.prevRootBlockHash = some r → Walkable s.getBlock rootBlock r) := by
  constructor
  · intro hsurvives hp h hh
    obtain ⟨sc, hsc⟩ := scanHeaders_exists hp.validated hp.time_le hp.pos hp.follows
    have hkey : h.prevRootBlockHash ∈ sc.prevRootBlockHashList :=
      ((scanHeaders_ok hsc).keys _).mpr ⟨h, hh, rfl⟩
    refine checkPrevRoot_survives.mp fun c hc => hsurvives (firstKey h.prevRootBlockHash) c ?_
    have hheight := hp.height
    have hknown : ¬ (s.hasBlock rootBlock.hash && !force) = true := by
      rcases hp.known with hk | hk <;> simp [hk]
    rw [Setup.validateBlock, if_neg (by omega), if_neg hknown, hp.header, hp.content]
    change (scanHeaders s rootBlock rootBlock.minorBlockHeaders >>= _) = _
    rw [hsc]
    change (((firstKey h.prevRootBlockHash).hashes sc.prevRootBlockHashList).forM
      (checkPrevRoot s rootBlock) >>= _) = _
    rw [show (firstKey h.prevRootBlockHash).hashes sc.prevRootBlockHashList = _ from if_pos hkey]
    rw [List.forM, hc]
    rfl
  · intro hwalk ord c hv
    refine Post.of_error (P := fun _ => True) (Q := fun e => ∀ c, e ≠ .crit c) ?_ hv c rfl
    unfold Setup.validateBlock
    split_ifs with hheight hknown
    · rintro c ⟨⟩
    · rintro c ⟨⟩
    rcases hheader : n.verifyRootHeader s rootBlock with e | _
    · rintro c ⟨⟩
    rcases hcontent : n.checkContent s rootBlock with e | _
    · rintro c ⟨⟩
    change Post (scanHeaders s rootBlock rootBlock.minorBlockHeaders >>= _) _ _
    have hscan := scanHeaders_ne_crit s rootBlock rootBlock.minorBlockHeaders
    rcases hsc : scanHeaders s rootBlock rootBlock.minorBlockHeaders with e | sc
    · exact hscan.of_error hsc
    have hs := scanHeaders_ok hsc
    have hp : Presentable n s rootBlock force :=
      ⟨by omega, by cases force <;> simp_all, hheader, hcontent, hs.validated, hs.time_le, hs.pos,
        hs.follows⟩
    have hroots : Post ((ord.hashes sc.prevRootBlockHashList).forM (checkPrevRoot s rootBlock)) (fun _ => True)
        fun e => ∀ c, e ≠ .crit c := by
      refine Post.forM fun key hkey => ?_
      obtain ⟨h, hh, rfl⟩ := (hs.keys key).mp ((ord.hashes_perm _).mem_iff.mp hkey)
      have hsurvives := checkPrevRoot_survives.mpr (hwalk hp h hh)
      rcases hcheck : checkPrevRoot s rootBlock h.prevRootBlockHash with e | _
      · rw [hcheck] at hsurvives
        exact fun c hc => hsurvives c (congrArg _ hc)
      · trivial
    refine hroots.bind fun _ _ => ?_
    exact (Post.foldlM trivial fun latest group _ _ => checkShard_ne_crit latest group).bind fun _ _ => trivial

/-- A minor header over the second root block, and a root block of height one that lists it. -/
def forwardHeader : MinorBlockHeader := { sampleHeader₀ with prevRootBlockHash := slowBlock₂.hash }

def forwardBlock : RootBlock := { fastBlock with hash := 6, minorBlockHeaders := [forwardHeader] }

/-- **A root block that ends the process.** -/
theorem forwardBlock_exits :
    let s := (sampleSetup.insertChainChecked sampleOrder (.genesis sampleGenesis fun _ => none)
      [slowBlock₁, slowBlock₂]).2.addValidatedMinorBlockHeader forwardHeader.hash ∅
    sampleSetup.validateBlock sampleOrder s forwardBlock false =
      .error (.crit .wrongParameterOrder) := by
  intro s
  have hexit : (sampleSetup.validateBlock sampleOrder s forwardBlock false).map (fun _ => ()) =
      .error (.crit .wrongParameterOrder) := by decide +kernel
  cases hv : sampleSetup.validateBlock sampleOrder s forwardBlock false with
  | ok s' =>
    rw [hv] at hexit
    cases hexit
  | error e =>
    rw [hv] at hexit
    cases hexit
    rfl

end QuarkChain.Root

namespace QuarkChain.Minor

open Root (Walkable isSameChain isSameChain_ok_iff)

variable {n : Setup} {now : ℕ} {s : MinorBlockChain} {block p : MinorBlock} {force : Bool}

theorem checkConfirmed_survives : (∀ c, Setup.checkConfirmed s block p ≠ .error (.fatal (.crit c))) ↔
    ∀ m, s.getLastConfirmedMinorBlockHeaderAtRootBlock block.prevRootBlockHash = some m →
      Walkable s.getMinorBlock p m := by
  unfold Setup.checkConfirmed
  rcases s.getLastConfirmedMinorBlockHeaderAtRootBlock block.prevRootBlockHash with _ | m
  · simp
  have hok := @isSameChain_ok_iff _ _ s.getMinorBlock p m
  rcases hsame : isSameChain s.getMinorBlock p m with c | _ | _ <;> simp_all

theorem checkRootChain_survives : (∀ c, Setup.checkRootChain s block p ≠ .error (.fatal (.crit c))) ↔
    ∀ l r, s.prevRoot block = some l → s.prevRoot p = some r → r.number ≤ l.number →
      Walkable s.getRootBlockByHash l r := by
  unfold Setup.checkRootChain MinorBlockChain.isSameRootChain
  rcases s.prevRoot block with _ | l <;> rcases s.prevRoot p with _ | r <;> try simp
  have hok := @isSameChain_ok_iff _ _ s.getRootBlockByHash l r
  split_ifs with hlt
  · simp [Nat.not_le.mpr hlt]
  rcases hsame : isSameChain s.getRootBlockByHash l r with c | _ | _ <;> simp_all

/-- The prev-root blocks of a block that passes the checks before, of its parent, and what they confirm lead
down to each other. -/
def Setup.Walks (n : Setup) (now : ℕ) (s : MinorBlockChain) (block : MinorBlock) (force : Bool) : Prop :=
  ∀ p, n.checkBlock now s block force = .ok p →
    (∀ m, s.getLastConfirmedMinorBlockHeaderAtRootBlock block.prevRootBlockHash = some m →
      Walkable s.getMinorBlock p m) ∧
    (Setup.checkConfirmed s block p = .ok () → ∀ l r, s.prevRoot block = some l → s.prevRoot p = some r →
      r.number ≤ l.number → Walkable s.getRootBlockByHash l r)

theorem minorBlock_survives_iff :
    (∀ c, n.validateBlock now s block force ≠ .error (.fatal (.crit c))) ↔ n.Walks now s block force := by
  unfold Setup.validateBlock Setup.Walks
  rcases n.checkBlock now s block force with e | p
  · exact iff_of_true (fun c h => nomatch h) (fun p h => nomatch h)
  change (∀ c, (Setup.checkConfirmed s block p >>= _) ≠ _) ↔ _
  simp only [Except.ok.injEq, forall_eq']
  rw [← checkConfirmed_survives, ← checkRootChain_survives]
  rcases Setup.checkConfirmed s block p with e | _
  · simp [bind, Except.bind]
  change (∀ c, (Setup.checkRootChain s block p >>= _) ≠ _) ↔ _
  rcases Setup.checkRootChain s block p with e | _
  · simp [bind, Except.bind]
  · refine iff_of_true (fun c => ?_) (by simp)
    change (if _ then _ else _) ≠ _
    split_ifs <;> simp

/-- **When validation ends the process.**  For a minor block that passes the checks before, just when the way
from its parent down to what its prev-root block confirms is missing, or that between the two prev-root blocks;
for a root block, just when the way from it to the prev-root block of one of its minor headers is. -/
theorem validateBlock_survives_iff (n : Setup) (now : ℕ) (s : MinorBlockChain) (block : MinorBlock)
    (n' : Root.Setup) (s' : Root.RootBlockChain) (rootBlock : Types.RootBlock) (force : Bool) :
    ((∀ c, n.validateBlock now s block force ≠ .error (.fatal (.crit c))) ↔ n.Walks now s block force) ∧
      ((∀ ord c, n'.validateBlock ord s' rootBlock force ≠ .error (.crit c)) ↔
        (Root.Presentable n' s' rootBlock force → ∀ h ∈ rootBlock.minorBlockHeaders, ∀ r,
          s'.getBlock h.prevRootBlockHash = some r → Walkable s'.getBlock rootBlock r)) :=
  ⟨minorBlock_survives_iff, Root.rootBlock_survives_iff⟩

end QuarkChain.Minor
