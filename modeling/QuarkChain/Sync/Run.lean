/-
# Running a sync task

`task.Run` of `src/cluster/sync/task.go`: after the search for an ancestor, rounds of downloading.  A
round asks for the headers above the ancestor, checks that they are linked and sealed
(`validateHeaderList`), asks for their blocks in batches, and hands every block received to
`AddBlock`; the last block added is the next ancestor.  A run keeps a record of its rounds.

Of the blocks received only the number is compared with what was asked for, never a hash.  Headers and blocks
are values of one type: a header stands for the block it commits to.
-/
import QuarkChain.Sync.Ancestor

namespace QuarkChain.Sync

open BlockTree QuarkChain.Types Root

/-- What a task sees of the chain it fills (the interface `blockchain`, and the seal check of its
validator without the discount for stakes). -/
structure Blockchain (σ β : Type) where
  currentHeader : σ → β
  addBlock : σ → β → Option σ
  validateSeal : β → Bool

/-- The fields of `task`; `τ` is what a task changes while it runs. -/
structure Task (σ β τ : Type) where
  maxSyncStaleness : ℕ
  batchSize : ℕ
  findAncestor : τ → σ → Except SyncStop (Option β × τ)
  getHeaders : τ → β → Except SyncError (List β × τ)
  getBlocks : τ → List Hash → Except SyncError (List β × τ)
  syncBlock : σ → β → Option σ
  needSkip : τ → σ → Bool

/-- Where a round started, the headers it accepted, and the blocks it handed to `AddBlock`. -/
structure Round (β : Type) where
  ancestor : β
  headers : List β
  added : List β
deriving DecidableEq

/-- A run: how it ended (`none` is a return without error) and its rounds. -/
structure RunRecord (β : Type) where
  stop : Option SyncStop
  rounds : List (Round β) := []
deriving DecidableEq

variable {σ β τ : Type} [Chained Hash β]

def validateHeaderList (validateSeal : β → Bool) : Option β → List β → Except SyncError Unit
  | _, [] => .ok ()
  | prev, h :: rest =>
      if prev.any fun p => number h ≠ (number p + 1) % 2 ^ 64 then .error .shouldHaveStepOne
      else if prev.any fun p => blockHash p ≠ parentHash h then .error .shouldBeLinked
      else if validateSeal h = false then .error .invalidSeal
      else validateHeaderList validateSeal (some h) rest

def addBlocks (bc : Blockchain σ β) (t : Task σ β τ) : σ → List β → List β × Except SyncError σ
  | s, [] => ([], .ok s)
  | s, block :: rest =>
      match t.syncBlock s block with
      | none => ([], .error .syncBlock)
      | some s =>
          match bc.addBlock s block with
          | none => ([block], .error .addBlock)
          | some s =>
              let r := addBlocks bc t s rest
              (block :: r.1, r.2)

def downloadBlocks (bc : Blockchain σ β) (t : Task σ β τ) :
    ℕ → τ → σ → List Hash → List β × Except SyncStop (σ × τ)
  | 0, st, s, hashlist => if hashlist = [] then ([], .ok (s, st)) else ([], .error .outOfFuel)
  | fuel + 1, st, s, hashlist =>
      if hashlist = [] then ([], .ok (s, st))
      else
        match t.getBlocks st (hashlist.take t.batchSize) with
        | .error e => ([], .error (.error e))
        | .ok (blocks, st) =>
            if blocks.length ≠ (hashlist.take t.batchSize).length then
              ([], .error (.error .unmatchedBlockLength))
            else
              match addBlocks bc t s blocks with
              | (added, .error e) => (added, .error (.error e))
              | (added, .ok s) =>
                  let r := downloadBlocks bc t fuel st s (hashlist.drop t.batchSize)
                  (added ++ r.1, r.2)

/-- The rounds of `Run`; `fuel` is the number of rounds it may make. -/
def runLoop (bc : Blockchain σ β) (t : Task σ β τ) : ℕ → τ → σ → β → RunRecord β
  | 0, _, _, _ => { stop := some .outOfFuel }
  | fuel + 1, st, s, ancestor =>
      match t.getHeaders st ancestor with
      | .error e => { stop := some (.error e) }
      | .ok (headers, st) =>
          if headers = [] then { stop := none }
          else
            match validateHeaderList bc.validateSeal none headers with
            | .error e => { stop := some (.error e) }
            | .ok () =>
                match downloadBlocks bc t headers.length st s (headers.map blockHash) with
                | (added, .error e) => { stop := some e, rounds := [⟨ancestor, headers, added⟩] }
                | (added, .ok (s, st)) =>
                    let r := runLoop bc t fuel st s (added.getLast?.getD ancestor)
                    { r with rounds := ⟨ancestor, headers, added⟩ :: r.rounds }

/-- The loop after the search: not from an ancestor that is too old. -/
def runFrom (bc : Blockchain σ β) (t : Task σ β τ) (fuel : ℕ) (st : τ) (s : σ) (ancestor : β) : RunRecord β :=
  if subU 64 (number (bc.currentHeader s)) (number ancestor) > t.maxSyncStaleness then
    { stop := none }
  else runLoop bc t fuel st s ancestor

def run (bc : Blockchain σ β) (t : Task σ β τ) (fuel : ℕ) (st : τ) (s : σ) : RunRecord β :=
  if t.needSkip st s then { stop := none }
  else
    match t.findAncestor st s with
    | .error e => { stop := some e }
    | .ok (none, _) => { stop := none }
    | .ok (some ancestor, st) => runFrom bc t fuel st s ancestor

/-! ### Faithful runs -/

def Linked (a : β) (l : List β) : Prop := (a :: l).IsChain fun x y => parentHash y = blockHash x

/-- What a run should be: every header list was accepted, all headers together are a chain over the
ancestor, the blocks handed to `AddBlock` are the first of them, in order, and there are no more
rounds than heights between the ancestor and the target. -/
structure Faithful (bc : Blockchain σ β) (ancestor : β) (target : ℕ) (rounds : List (Round β)) :
    Prop where
  accepted : ∀ r ∈ rounds, validateHeaderList bc.validateSeal none r.headers = .ok ()
  linked : Linked ancestor (rounds.flatMap Round.headers)
  inOrder : (rounds.flatMap Round.added).map blockHash <+:
    (rounds.flatMap Round.headers).map blockHash
  bounded : rounds.length ≤ target - number ancestor

/-- A run that makes no round without an ancestor, and that ends after faithful rounds with one. -/
def FaithfulRun (bc : Blockchain σ β) (t : Task σ β τ) (fuel : ℕ) (st : τ) (s : σ) (target : ℕ) : Prop :=
  ((∀ a st', t.findAncestor st s ≠ .ok (some a, st')) → (run bc t fuel st s).rounds = []) ∧
  ∀ a st', t.findAncestor st s = .ok (some a, st') →
    (run bc t fuel st s).stop ≠ some .outOfFuel ∧
      Faithful bc a target (run bc t fuel st s).rounds

/-- The block is one height above its parent; `content` finds the block of a hash. -/
def Climbs (content : Hash → Option β) (b : β) : Prop :=
  ∀ p, content (parentHash b) = some p → number b = number p + 1

/-- A task whose peer answers with the blocks asked for and never raises the target, on a chain that
takes a block only one height above its parent.  `Ok` and `Inv` are what the task and the chain keep;
`content` says what the hashes are hashes of. -/
structure Honest (bc : Blockchain σ β) (t : Task σ β τ) (content : Hash → Option β)
    (Inv : σ → Prop) (Ok : τ → Prop) (target : ℕ) : Prop where
  batchSize_pos : 0 < t.batchSize
  ancestor : ∀ {st s a st'}, Ok st → Inv s → t.findAncestor st s = .ok (some a, st') →
    Ok st' ∧ content (blockHash a) = some a
  headers : ∀ {st a l st'}, Ok st → t.getHeaders st a = .ok (l, st') →
    Ok st' ∧ (∀ h ∈ l, content (blockHash h) = some h) ∧
      (l ≠ [] → number a < target) ∧ ∀ f, l.head? = some f → parentHash f = blockHash a
  blocks : ∀ {st hashes l st'}, Ok st → t.getBlocks st hashes = .ok (l, st') →
    Ok st' ∧ (∀ b ∈ l, content (blockHash b) = some b) ∧ l.map blockHash = hashes
  syncs : ∀ {s b s'}, Inv s → t.syncBlock s b = some s' → Inv s'
  adds : ∀ {s b s'}, Inv s → content (blockHash b) = some b → bc.addBlock s b = some s' →
    Inv s' ∧ Climbs content b

section Faithful

variable {bc : Blockchain σ β} {t : Task σ β τ} {content : Hash → Option β} {Inv : σ → Prop}
  {Ok : τ → Prop} {target : ℕ} {s s' : σ} {st st' : τ} {a : β} {l l' : List β}

theorem eq_of_map_hash_eq (hl : ∀ b ∈ l, content (blockHash b) = some b)
    (hl' : ∀ b ∈ l', content (blockHash b) = some b) (h : l.map blockHash = l'.map blockHash) :
    l = l' := by
  induction l generalizing l' with
  | nil => exact (List.map_eq_nil_iff.mp h.symm).symm
  | cons b l ih =>
    rcases l' with _ | ⟨c, l'⟩
    · cases h
    rw [List.forall_mem_cons] at hl hl'
    rw [List.map_cons, List.map_cons, List.cons.injEq] at h
    rw [h.1, hl'.1, Option.some.injEq] at hl
    rw [hl.1, ih hl.2 hl'.2 h.2]

theorem isChain_of_validateHeaderList {validateSeal : β → Bool}
    (hv : validateHeaderList validateSeal (some a) l = .ok ()) : Linked a l := by
  induction l generalizing a with
  | nil => exact List.isChain_singleton a
  | cons h rest ih =>
    rw [validateHeaderList] at hv
    split_ifs at hv with hstep hlink hseal
    refine List.isChain_cons_cons.mpr ⟨?_, ih hv⟩
    have hhash : blockHash a = parentHash h := by simpa using hlink
    exact hhash.symm

theorem linked_of_accepted {validateSeal : β → Bool}
    (hv : validateHeaderList validateSeal none l = .ok ())
    (hfirst : ∀ f, l.head? = some f → parentHash f = blockHash a) : Linked a l := by
  rcases l with _ | ⟨h, rest⟩
  · exact List.isChain_singleton a
  rw [validateHeaderList] at hv
  split_ifs at hv with hstep hlink hseal
  exact List.isChain_cons_cons.mpr ⟨hfirst h rfl, isChain_of_validateHeaderList hv⟩

omit [Chained Hash β] in
theorem getLast?_getD_cons (a b : β) (l : List β) : (b :: l).getLast?.getD a = l.getLast?.getD b := by
  rcases l with _ | ⟨c, l⟩
  · rfl
  rw [List.getLast?_cons_cons, List.getLast?_eq_some_getLast (List.cons_ne_nil c l)]
  rfl

theorem Linked.append (hl : Linked a l) (hl' : Linked (l.getLast?.getD a) l') : Linked a (l ++ l') := by
  induction l generalizing a with
  | nil => exact hl'
  | cons b l ih =>
    obtain ⟨hparent, hrest⟩ := List.isChain_cons_cons.mp hl
    rw [getLast?_getD_cons] at hl'
    exact List.isChain_cons_cons.mpr ⟨hparent, ih hrest hl'⟩

theorem number_getLast (ha : content (blockHash a) = some a)
    (hl : ∀ b ∈ l, content (blockHash b) = some b) (hlink : Linked a l)
    (hclimb : ∀ b ∈ l, Climbs content b) : number (l.getLast?.getD a) = number a + l.length := by
  induction l generalizing a with
  | nil => rfl
  | cons b l ih =>
    rw [List.forall_mem_cons] at hl hclimb
    obtain ⟨hparent, hrest⟩ := List.isChain_cons_cons.mp hlink
    have hb : number b = number a + 1 := hclimb.1 a (by rw [hparent, ha])
    rw [getLast?_getD_cons, ih hl.1 hl.2 hrest hclimb.2, hb, List.length_cons]
    omega

/-- **The blocks of a batch.**  They are handed over one after the other until one is refused. -/
theorem addBlocks_spec (hh : Honest bc t content Inv Ok target) (hs : Inv s)
    (hl : ∀ b ∈ l, content (blockHash b) = some b) :
    (addBlocks bc t s l).1 <+: l ∧ ∀ s', (addBlocks bc t s l).2 = .ok s' →
      Inv s' ∧ (addBlocks bc t s l).1 = l ∧ ∀ b ∈ l, Climbs content b := by
  induction l generalizing s with
  | nil =>
    refine ⟨List.nil_prefix, fun s' hs' => ?_⟩
    cases hs'
    exact ⟨hs, rfl, by simp⟩
  | cons b l ih =>
    rw [List.forall_mem_cons] at hl
    rw [addBlocks]
    rcases hsync : t.syncBlock s b with _ | s₁
    · exact ⟨List.nil_prefix, by rintro s' ⟨⟩⟩
    simp only
    rcases hadd : bc.addBlock s₁ b with _ | s₂
    · exact ⟨List.cons_prefix_cons.mpr ⟨rfl, List.nil_prefix⟩, by rintro s' ⟨⟩⟩
    obtain ⟨hs₂, hclimb⟩ := hh.adds (hh.syncs hs hsync) hl.1 hadd
    obtain ⟨hpre, hok⟩ := ih hs₂ hl.2
    refine ⟨List.cons_prefix_cons.mpr ⟨rfl, hpre⟩, fun s' hs' => ?_⟩
    obtain ⟨hs', heq, hrest⟩ := hok s' hs'
    exact ⟨hs', congrArg (b :: ·) heq, List.forall_mem_cons.mpr ⟨hclimb, hrest⟩⟩

variable {fuel : ℕ}

/-- **The blocks of a round.** -/
theorem downloadBlocks_spec (hh : Honest bc t content Inv Ok target) {hashes : List Hash}
    (hst : Ok st) (hs : Inv s) (hfuel : hashes.length ≤ fuel) :
    (downloadBlocks bc t fuel st s hashes).2 ≠ .error .outOfFuel ∧
    (downloadBlocks bc t fuel st s hashes).1.map blockHash <+: hashes ∧
    ∀ s' st', (downloadBlocks bc t fuel st s hashes).2 = .ok (s', st') →
      Ok st' ∧ Inv s' ∧ (downloadBlocks bc t fuel st s hashes).1.map blockHash = hashes ∧
      ∀ b ∈ (downloadBlocks bc t fuel st s hashes).1,
        content (blockHash b) = some b ∧ Climbs content b := by
  induction fuel generalizing st s hashes with
  | zero =>
    obtain rfl : hashes = [] := List.length_eq_zero_iff.mp (by omega)
    refine ⟨by simp [downloadBlocks], List.nil_prefix, fun s' st' h => ?_⟩
    simp only [downloadBlocks] at h
    cases h
    exact ⟨hst, hs, rfl, by simp [downloadBlocks]⟩
  | succ fuel ih =>
    rw [downloadBlocks]
    split_ifs with hnil
    · refine ⟨by simp, List.nil_prefix, fun s' st' h => ?_⟩
      cases h
      exact ⟨hst, hs, hnil.symm ▸ rfl, by simp⟩
    rcases hget : t.getBlocks st (hashes.take t.batchSize) with e | x
    · exact ⟨by simp, List.nil_prefix, by rintro s' st' ⟨⟩⟩
    obtain ⟨blocks, st₁⟩ := x
    obtain ⟨hst₁, hgood, hmap⟩ := hh.blocks hst hget
    simp only
    split_ifs with hlen
    · exact ⟨by simp, List.nil_prefix, by rintro s' st' ⟨⟩⟩
    obtain ⟨hpre, hok⟩ := addBlocks_spec hh hs hgood
    rcases hadd : addBlocks bc t s blocks with ⟨added, e | s₁⟩
    · rw [hadd] at hpre
      refine ⟨by simp, ?_, by rintro s' st' ⟨⟩⟩
      exact (hpre.map blockHash).trans (hmap ▸ List.take_prefix ..)
    rw [hadd] at hok
    obtain ⟨hs₁, rfl, hclimb⟩ := hok s₁ rfl
    have hpos := hh.batchSize_pos
    have hshort : (hashes.drop t.batchSize).length ≤ fuel := by
      rw [List.length_drop]
      omega
    obtain ⟨hstop, hpre', hok'⟩ := ih hst₁ hs₁ hshort
    refine ⟨hstop, ?_, fun s' st' h => ?_⟩
    · have hall := (List.prefix_append_right_inj (hashes.take t.batchSize)).mpr hpre'
      rw [List.take_append_drop] at hall
      rwa [List.map_append, hmap]
    · obtain ⟨hst', hs', hmap', hgood'⟩ := hok' s' st' h
      refine ⟨hst', hs', ?_, fun b hb => ?_⟩
      · rw [List.map_append, hmap, hmap', List.take_append_drop]
      · rcases List.mem_append.mp hb with hb | hb
        · exact ⟨hgood b hb, hclimb b hb⟩
        · exact hgood' b hb

theorem faithful_nil : Faithful bc a target [] :=
  ⟨by simp, List.isChain_singleton a, List.nil_prefix, Nat.zero_le _⟩

/-- **The rounds of an honest peer are faithful, and there are finitely many.** -/
theorem runLoop_faithful (hh : Honest bc t content Inv Ok target) (hst : Ok st)
    (hs : Inv s) (ha : content (blockHash a) = some a) (hfuel : target - number a < fuel) :
    (runLoop bc t fuel st s a).stop ≠ some .outOfFuel ∧
      Faithful bc a target (runLoop bc t fuel st s a).rounds := by
  induction fuel generalizing st s a with
  | zero => omega
  | succ fuel ih =>
    rw [runLoop]
    rcases hget : t.getHeaders st a with e | x
    · exact ⟨by simp, faithful_nil⟩
    obtain ⟨headers, st₁⟩ := x
    obtain ⟨hst₁, hgood, hbelow, hfirst⟩ := hh.headers hst hget
    simp only
    split_ifs with hnil
    · exact ⟨by simp, faithful_nil⟩
    rcases hv : validateHeaderList bc.validateSeal none headers with e | u
    · exact ⟨by simp, faithful_nil⟩
    have hlink : Linked a headers := linked_of_accepted hv hfirst
    have hlt := hbelow hnil
    obtain ⟨hstop, hpre, hok⟩ := downloadBlocks_spec hh hst₁ hs
      (show (headers.map blockHash).length ≤ headers.length from (List.length_map _).le)
    rcases hdown : downloadBlocks bc t headers.length st₁ s (headers.map blockHash) with
      ⟨added, e | ⟨s₂, st₂⟩⟩
    · rw [hdown] at hstop hpre
      refine ⟨by simpa using hstop, ?_, ?_, ?_, ?_⟩
      · simpa using hv
      · simpa using hlink
      · simpa using hpre
      · simp only [List.length_singleton]
        omega
    · rw [hdown] at hok
      obtain ⟨hst₂, hs₂, hmap, hadded⟩ := hok s₂ st₂ rfl
      -- the blocks received are the blocks of the headers
      obtain rfl : added = headers := eq_of_map_hash_eq (fun b hb => (hadded b hb).1) hgood hmap
      have hnum := number_getLast ha hgood hlink fun b hb => (hadded b hb).2
      have hlast : content (blockHash (added.getLast?.getD a)) = some (added.getLast?.getD a) := by
        rw [List.getLast?_eq_some_getLast hnil]
        exact hgood _ (List.getLast_mem hnil)
      have hlen : 0 < added.length := List.length_pos_iff.mpr hnil
      obtain ⟨hstop', hf⟩ := ih hst₂ hs₂ hlast (by omega)
      refine ⟨hstop', ?_, ?_, ?_, ?_⟩
      · exact List.forall_mem_cons.mpr ⟨hv, hf.accepted⟩
      · exact hlink.append hf.linked
      · simpa using hf.inOrder
      · have := hf.bounded
        simp only [List.length_cons]
        omega

theorem run_rounds (bc : Blockchain σ β) (t : Task σ β τ) (fuel : ℕ) (st : τ) (s : σ) :
    (run bc t fuel st s).rounds = [] ∨ ∃ a st', t.findAncestor st s = .ok (some a, st') ∧
      run bc t fuel st s = runLoop bc t fuel st' s a := by
  rw [run]
  split_ifs
  · exact .inl rfl
  split
  · exact .inl rfl
  · exact .inl rfl
  rename_i a st' ha
  rw [runFrom]
  split_ifs
  · exact .inl rfl
  · exact .inr ⟨a, st', ha, rfl⟩

/-- **Runs with an honest peer.**  Whatever ancestor the search finds, the rounds are faithful. -/
theorem run_honest (hh : Honest bc t content Inv Ok target) (hst : Ok st) (hs : Inv s)
    (hfuel : target < fuel) : FaithfulRun bc t fuel st s target := by
  constructor
  · intro hnone
    obtain hnil | ⟨a, st', ha, -⟩ := run_rounds bc t fuel st s
    · exact hnil
    · exact absurd ha (hnone a st')
  · intro a st' ha
    obtain ⟨hst', hcontent⟩ := hh.ancestor hst hs ha
    rw [run]
    split_ifs
    · exact ⟨by simp, faithful_nil⟩
    simp only [ha, runFrom]
    split_ifs
    · exact ⟨by simp, faithful_nil⟩
    · exact runLoop_faithful hh hst' hs hcontent (by omega)

end Faithful

end QuarkChain.Sync
