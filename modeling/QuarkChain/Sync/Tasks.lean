/-
# The two sync tasks

`NewRootChainTask` (`src/cluster/sync/root_task.go`) and `NewMinorChainTask`
(`src/cluster/sync/minor_task.go`): the functions that `task.Run` is given.  `AddBlock` of the root task is
`InsertChain` of one block, and `AddBlock` of the minor task is `InsertChainForDeposits` of one block, as
`ShardBackend.AddMinorBlock` calls it.  The minor task runs on any chain whose `AddBlock` takes a block only one
height above its parent (`TakesClimbing`); the chain of a shard is one.

The root task moves its target to the tip that a reply names, so a peer that names ever higher tips is
followed ever higher; the minor task keeps its target.
-/
import QuarkChain.Minor.TxIndexed
import QuarkChain.Sync.Run

namespace QuarkChain.Sync

open BlockTree QuarkChain.Types Root

structure Peer (β ρ : Type) where
  ancestorReplies : ℕ → Option ρ
  headerReplies : ℕ → Option ρ
  blockReplies : ℕ → List Hash → Option (List β)

structure TaskState (β : Type) where
  header : β
  headerRequests : ℕ := 0
  blockRequests : ℕ := 0

def getBlocks {β ρ : Type} (peer : Peer β ρ) (st : TaskState β) (hashes : List Hash) :
    Except SyncError (List β × TaskState β) :=
  match peer.blockReplies st.blockRequests hashes with
  | none => .error .peer
  | some blocks => .ok (blocks, { st with blockRequests := st.blockRequests + 1 })

/-- `getHeaders` of both tasks: nothing if the target is reached. -/
def getHeaders {β ρ : Type} [Chained Hash β] (headerListLimit : ℕ) (peer : Peer β ρ)
    (check : β → ℕ → ρ → Except SyncError (List β × β)) (st : TaskState β) (startHeader : β) :
    Except SyncError (List β × TaskState β) :=
  if number startHeader ≥ number st.header then .ok ([], st)
  else
    match peer.headerReplies st.headerRequests with
    | none => .error .peer
    | some r =>
        match check st.header (min headerListLimit (number st.header - number startHeader)) r with
        | .error e => .error e
        | .ok (headers, header) =>
            if headers.head?.any fun h => parentHash h ≠ blockHash startHeader then
              .error .incorrectCanonicalHeaders
            else
              .ok (headers, { st with header := header, headerRequests := st.headerRequests + 1 })

/-- The root chain, as a task sees it; an `InsertChain` that returns an error has added nothing that
matters to the task, which then ends. -/
def rootBlockchain (n : Setup) (ord : MapOrder) (validateSeal : RootBlock → Bool) :
    Blockchain RootBlockChain RootBlock where
  currentHeader s := s.currentBlock
  addBlock s block :=
    match n.insertChainChecked ord s [block] with
    | (none, s') => some s'
    | (some _, _) => none
  validateSeal := validateSeal

/-- The task of `NewRootChainTask`.  `syncMinorBlocks` is the table of reported minor blocks after the
slaves have fetched those of a root block, or an error. -/
def rootTask (peer : Peer RootBlock RootReply)
    (syncMinorBlocks : RootBlockChain → RootBlock → Option (Hash → Option TokenMap)) :
    Task RootBlockChain RootBlock (TaskState RootBlock) where
  maxSyncStaleness := rootMaxSyncStaleness
  batchSize := 3
  findAncestor st s :=
    (rootTaskFindAncestor s.hasBlock s.currentBlock st.header peer.ancestorReplies).map fun r =>
      (r.1, { st with header := r.2 })
  getHeaders st startHeader :=
    getHeaders rootBlockHeaderListLimit peer
      (fun header limit => checkRootReply header (incU 32 startHeader.number) 0 limit) st startHeader
  getBlocks := getBlocks peer
  syncBlock s block := (syncMinorBlocks s block).map fun table =>
    { s with minorBlockCoinbase := table }
  needSkip st s := st.header.totalDifficulty ≤ s.currentBlock.totalDifficulty

/-- The task of `NewMinorChainTask`, on a chain with the given lookup.  `skipForRoot` are the
conditions of `needSkip` about the root chain. -/
def minorTask {σ : Type} (hasBlock : σ → Hash → Bool) (currentHeader : σ → MinorBlockHeader)
    (skipForRoot : MinorBlockHeader → σ → Bool)
    (peer : Peer MinorBlockHeader (List MinorBlockHeader)) :
    Task σ MinorBlockHeader (TaskState MinorBlockHeader) where
  maxSyncStaleness := minorMaxSyncStaleness
  batchSize := minorBlockHeaderListLimit
  findAncestor st s :=
    (minorTaskFindAncestor (hasBlock s) (currentHeader s) st.header peer.ancestorReplies).map fun r =>
      (r.1, { st with header := r.2 })
  getHeaders st startHeader :=
    getHeaders minorBlockHeaderListLimit peer
      (fun header limit => checkMinorReply header (incU 64 startHeader.number) 0 limit) st startHeader
  getBlocks := getBlocks peer
  syncBlock s _ := some s
  needSkip st s := st.header.number ≤ (currentHeader s).number || hasBlock s st.header.hash ||
    skipForRoot st.header s

/-- A peer that answers with the blocks asked for.  Hashes are hashes of one block each (`content`), in
the headers as in the blocks it sends. -/
structure Answers {β ρ : Type} [Chained Hash β] (content : Hash → Option β)
    (headersOf : ρ → List β) (peer : Peer β ρ) : Prop where
  blocks : ∀ k hashes l, peer.blockReplies k hashes = some l → l.map blockHash = hashes
  genuineBlocks : ∀ k hashes l, peer.blockReplies k hashes = some l →
    ∀ b ∈ l, content (blockHash b) = some b
  genuineHeaders : ∀ k r, peer.ancestorReplies k = some r ∨ peer.headerReplies k = some r →
    ∀ h ∈ headersOf r, content (blockHash h) = some h

section Honest

variable {β ρ : Type} [Chained Hash β] {content : Hash → Option β} {headersOf : ρ → List β}
  {peer : Peer β ρ} {st st' : TaskState β} {a : β} {l : List β} {target : ℕ}

theorem getBlocks_honest (hp : Answers content headersOf peer) {hashes : List Hash}
    (hst : number st.header ≤ target) (hget : getBlocks peer st hashes = .ok (l, st')) :
    number st'.header ≤ target ∧ (∀ b ∈ l, content (blockHash b) = some b) ∧
      l.map blockHash = hashes := by
  rw [getBlocks] at hget
  rcases hr : peer.blockReplies st.blockRequests hashes with _ | blocks
  · simp [hr] at hget
  simp only [hr, Except.ok.injEq, Prod.mk.injEq] at hget
  obtain ⟨rfl, rfl⟩ := hget
  exact ⟨hst, hp.genuineBlocks _ _ _ hr, hp.blocks _ _ _ hr⟩

theorem getHeaders_honest (hp : Answers content headersOf peer) {limit : ℕ}
    {check : β → ℕ → ρ → Except SyncError (List β × β)}
    (hcheck : ∀ {k r header m l header'}, peer.headerReplies k = some r → number header ≤ target →
      check header m r = .ok (l, header') → number header' ≤ target ∧ l = headersOf r)
    (hst : number st.header ≤ target) (hget : getHeaders limit peer check st a = .ok (l, st')) :
    number st'.header ≤ target ∧ (∀ h ∈ l, content (blockHash h) = some h) ∧
      (l ≠ [] → number a < target) ∧ ∀ f, l.head? = some f → parentHash f = blockHash a := by
  rw [getHeaders] at hget
  split_ifs at hget with hreached
  · cases hget
    exact ⟨hst, by simp, by simp, by simp⟩
  rcases hr : peer.headerReplies st.headerRequests with _ | r
  · simp [hr] at hget
  simp only [hr] at hget
  split at hget
  · cases hget
  rename_i headers header hok
  split_ifs at hget with hfirst
  cases hget
  obtain ⟨hheader, rfl⟩ := hcheck hr hst hok
  refine ⟨hheader, hp.genuineHeaders _ r (.inr hr), fun _ => by omega, fun f hf => ?_⟩
  simpa [hf] using hfirst

theorem checkAncestor_ok {τ : Type} {hasBlock : Hash → Bool} {accept : β → τ → Except SyncError Unit}
    {r : Except SyncStop (Option β × τ)} {x : Option β × τ} (h : checkAncestor hasBlock accept r = .ok x) :
    r = .ok x := by
  unfold checkAncestor at h
  split at h
  · cases h
  · cases h
  split_ifs at h
  split at h
  · cases h
  · exact h

theorem search_honest {p : SearchParams β β ρ} {hasBlock : Hash → Bool} {i : Interval β} {header : β}
    (hp : Answers content headersOf peer)
    (hcheck : ∀ {k r header start stop l header'}, peer.ancestorReplies k = some r →
      number header ≤ target → p.download header start stop r = .ok (l, header') →
      number header' ≤ target ∧ l = headersOf r)
    (hbest : i.bestAncestor = none) (hheader : number header ≤ target) {fuel request : ℕ} {header' : β}
    (hok : search p hasBlock peer.ancestorReplies fuel request header i = .ok (some a, header')) :
    number header' ≤ target ∧ content (blockHash a) = some a := by
  have hdown : ∀ {t start stop k r l t'}, number t ≤ target → peer.ancestorReplies k = some r →
      p.download t start stop r = .ok (l, t') →
      number t' ≤ target ∧ ∀ h ∈ l, content (blockHash h) = some h := by
    intro t start stop k r l t' ht hr hd
    obtain ⟨ht', rfl⟩ := hcheck hr ht hd
    exact ⟨ht', hp.genuineHeaders k r (.inl hr)⟩
  have hpost : Outcome.Post (search p hasBlock peer.ancestorReplies fuel request header i)
      (fun r => number r.2 ≤ target ∧ ∀ b, r.1 = some b → content (blockHash b) = some b) _ :=
    search_from (Q := fun h => number h ≤ target) hdown (by simp [hbest]) hheader fuel request
  obtain ⟨hheader', ha⟩ := hpost.of_ok hok
  exact ⟨hheader', ha a rfl⟩

end Honest

/-- A root chain that is a tree of genuine blocks. -/
structure Filed (content : Hash → Option RootBlock) (g : RootBlock) (s : RootBlockChain) : Prop where
  wf : Wf g s
  genuine : ∀ k b, s.getBlock k = some b → content b.hash = some b

/-- What `content` says about hashes: the empty hash and the parent hash of the genesis block are
hashes of no block. -/
structure Hashes (content : Hash → Option RootBlock) (g : RootBlock) : Prop where
  empty : content emptyHash = none
  genesisParent : content g.parentHash = none

section Root

variable {n : Setup} {ord : MapOrder} {validateSeal : RootBlock → Bool} {g b : RootBlock}
  {content : Hash → Option RootBlock} {s s' : RootBlockChain} {target : ℕ}
  {peer : Peer RootBlock RootReply}
  {syncMinorBlocks : RootBlockChain → RootBlock → Option (Hash → Option TokenMap)}

theorem Filed.genuine_block (hf : Filed content g s) (hc : Hashes content g)
    (hb : content b.hash = some b) : Genuine g s b := by
  refine ⟨fun he => ?_, fun he => ?_, fun b' hb' => ?_⟩
  · rw [he, hc.empty] at hb
    cases hb
  · rw [he, hc.genesisParent] at hb
    cases hb
  · have hhash : b'.hash = b.hash := hf.wf.consistent.keyed hb'
    have := hf.genuine _ b' hb'
    rw [hhash, hb] at this
    exact (Option.some.inj this).symm

theorem Filed.parent_eq (hf : Filed content g s) {p q : RootBlock} {h : Hash}
    (hp : s.getBlock h = some p) (hq : content h = some q) : p = q := by
  have := hf.genuine _ p hp
  rw [show p.hash = h from hf.wf.consistent.keyed hp, hq] at this
  exact (Option.some.inj this).symm

/-- **What `AddBlock` of the root chain takes.** -/
theorem rootBlockchain_adds (hf : Filed content g s) (hc : Hashes content g)
    (hb : content b.hash = some b) (hadd : (rootBlockchain n ord validateSeal).addBlock s b = some s') :
    Filed content g s' ∧ Climbs content b := by
  have hgen := hf.genuine_block hc hb
  have hins : n.insertChain ord true s [b] = (none, s') := by
    simp only [rootBlockchain, Setup.insertChainChecked, Setup.contiguous, if_true] at hadd
    rcases hi : n.insertChain ord true s [b] with ⟨_ | e, s₂⟩
    · simpa [hi] using hadd
    · simp [hi] at hadd
  rw [Setup.insertChain] at hins
  cases hv : n.validateBlock ord s b s.isCheckDB with
  | error e =>
    simp only [hv] at hins
    split_ifs at hins with hskip
    · -- a known block is skipped
      simp only [Setup.insertChain, Prod.mk.injEq, true_and] at hins
      subst hins
      refine ⟨hf, fun p hp => ?_⟩
      obtain ⟨hpos, b', hb'⟩ := validateBlock_errKnownBlock.of_error hv hskip.2.1
      obtain rfl := hgen.same b' hb'
      rcases hf.wf.parent_stored hb' with rfl | ⟨q, hq⟩
      · have := hf.wf.genesis_number
        omega
      · rw [← hf.parent_eq hq hp]
        exact hf.wf.consistent.linked hb' hq
    · simp at hins
  | ok s₁ =>
    obtain ⟨p, hp, hn⟩ := (validateBlock_ok_iff.mp ⟨s₁, hv⟩).parent
    obtain ⟨hget, -⟩ := validateBlock_frame hv
    have hs' : s' = (s₁.writeBlockWithState b).2 := by
      simp only [hv, Setup.importBlock] at hins
      split_ifs at hins
      · simp at hins
      · rcases hw : s₁.writeBlockWithState b with ⟨_ | _, s₂⟩
        · simp [hw] at hins
        · simpa [hw, Setup.insertChain] using hins.symm
    subst hs'
    refine ⟨⟨hf.wf.accepted hgen hv, fun k c hc => ?_⟩, fun q hq => ?_⟩
    · rw [(s₁.writeBlockWithState_stores b).1, hget] at hc
      rcases store_cases hc with ⟨rfl, rfl⟩ | hold
      · exact hb
      · exact hf.genuine k c hold
    · rw [← hf.parent_eq hp hq]
      exact hn

theorem checkRootReply_honest {start skip limit : ℕ} {header header' : RootBlock} {r : RootReply}
    {l : List RootBlock} (htip : r.rootTip.number ≤ target) (hheader : header.number ≤ target)
    (hok : checkRootReply header start skip limit r = .ok (l, header')) :
    header'.number ≤ target ∧ l = r.blockHeaderList := by
  obtain ⟨-, -, rfl, -, rfl⟩ := checkRootReply_ok_iff.mp hok
  refine ⟨?_, rfl⟩
  split_ifs
  · exact htip
  · exact hheader

theorem checkMinorReply_honest {height skip limit : ℕ} {header header' : MinorBlockHeader}
    {r l : List MinorBlockHeader} (hheader : header.number ≤ target)
    (hok : checkMinorReply header height skip limit r = .ok (l, header')) :
    header'.number ≤ target ∧ l = id r := by
  obtain ⟨-, rfl, -, rfl⟩ := checkMinorReply_ok_iff.mp hok
  exact ⟨hheader, rfl⟩

/-- **A root task with an honest peer.** -/
theorem rootTask_honest (hc : Hashes content g)
    (hp : Answers content RootReply.blockHeaderList peer)
    (htip : ∀ k r, peer.ancestorReplies k = some r ∨ peer.headerReplies k = some r →
      r.rootTip.number ≤ target) :
    Honest (rootBlockchain n ord validateSeal) (rootTask peer syncMinorBlocks) content (Filed content g)
      (fun st => st.header.number ≤ target) target where
  batchSize_pos := by simp [rootTask]
  ancestor {st s a st'} hst hs ha := by
    obtain ⟨⟨_, header'⟩, hfind, hr⟩ := Outcome.map_eq_ok.mp ha
    cases hr
    rw [rootTaskFindAncestor] at hfind
    split_ifs at hfind
    · cases hfind
    have hfind := checkAncestor_ok hfind
    rw [rootFindAncestor] at hfind
    split_ifs at hfind
    · cases hfind
      exact ⟨hst, hs.genuine _ _ hs.wf.current⟩
    · exact search_honest hp
        (fun hr hheader hok => checkRootReply_honest (htip _ _ (.inl hr)) hheader hok) rfl hst hfind
  headers {st a l st'} hst hget := by
    simp only [rootTask] at hget
    exact getHeaders_honest hp
      (fun hr hheader hok => checkRootReply_honest (htip _ _ (.inr hr)) hheader hok) hst hget
  blocks hst hget := getBlocks_honest hp hst hget
  syncs {s b s'} hs hsync := by
    obtain ⟨table, -, rfl⟩ := Option.map_eq_some_iff.mp hsync
    exact ⟨hs.wf.congr rfl rfl, hs.genuine⟩
  adds hs hb hadd := rootBlockchain_adds hs hc hb hadd

end Root

section Minor

variable {σ : Type} {bc : Blockchain σ MinorBlockHeader} {content : Hash → Option MinorBlockHeader}
  {Inv : σ → Prop} {hasBlock : σ → Hash → Bool} {skipForRoot : MinorBlockHeader → σ → Bool}
  {peer : Peer MinorBlockHeader (List MinorBlockHeader)} {target : ℕ}

/-- `AddBlock` takes a block only one height above its parent, and the head is a block of its hash. -/
structure TakesClimbing (bc : Blockchain σ MinorBlockHeader)
    (content : Hash → Option MinorBlockHeader) (Inv : σ → Prop) : Prop where
  current : ∀ {s}, Inv s → content (bc.currentHeader s).hash = some (bc.currentHeader s)
  adds : ∀ {s b s'}, Inv s → content b.hash = some b → bc.addBlock s b = some s' →
    Inv s' ∧ Climbs content b

/-- **A minor task with an honest peer.**  Its target never moves. -/
theorem minorTask_honest (hbc : TakesClimbing bc content Inv) (hp : Answers content id peer) :
    Honest bc (minorTask hasBlock bc.currentHeader skipForRoot peer) content Inv
      (fun st => st.header.number ≤ target) target where
  batchSize_pos := by simp [minorTask, minorBlockHeaderListLimit]
  ancestor {st s a st'} hst hs ha := by
    obtain ⟨⟨_, header'⟩, hfind, hr⟩ := Outcome.map_eq_ok.mp ha
    cases hr
    rw [minorTaskFindAncestor] at hfind
    split_ifs at hfind
    · cases hfind
    have hfind := checkAncestor_ok hfind
    rw [minorFindAncestor] at hfind
    split_ifs at hfind
    · cases hfind
      exact ⟨hst, hbc.current hs⟩
    · exact search_honest hp (fun _ hheader hok => checkMinorReply_honest hheader hok) rfl hst hfind
  headers {st a l st'} hst hget := by
    simp only [minorTask] at hget
    exact getHeaders_honest hp (fun _ hheader hok => checkMinorReply_honest hheader hok) hst hget
  blocks hst hget := getBlocks_honest hp hst hget
  syncs hs hsync := by
    cases hsync
    exact hs
  adds hs hb hadd := hbc.adds hs hb hadd

/-- The chain of a shard, as a task sees it: a header stands for the block that `body` finds under its hash, and
what `AddMinorBlock` does after the insertion is left out. -/
def minorBlockchain (n : Minor.Setup) (x : Minor.IndexSetup) (env : Minor.Env) (nested : ℕ)
    (body : Hash → Option Minor.MinorBlock) (validateSeal : MinorBlockHeader → Bool) :
    Blockchain Minor.IndexedChain MinorBlockHeader where
  currentHeader t := t.chain.currentBlock.header
  addBlock t header := (body header.hash).bind fun block =>
    match n.insertChainForDeposits x env true nested [block] t with
    | (.ok (.ok _), t') => some t'
    | _ => none
  validateSeal := validateSeal

variable {n : Minor.Setup} {x : Minor.IndexSetup} {env : Minor.Env} {nested : ℕ}
  {body : Hash → Option Minor.MinorBlock} {validateSeal : MinorBlockHeader → Bool}

/-- **The chain of a shard takes a block only above its parent**, unless it is shutting down. -/
theorem minorBlockchain_takesClimbing (hprop : Minor.Proper x body)
    (hrun : ∀ chain, env.procInterrupt true chain = false) :
    TakesClimbing (minorBlockchain n x env nested body validateSeal)
      (fun h => (body h).map Minor.MinorBlock.header) (Minor.Tracked x body) where
  current {t} ht := by
    have hcurrent : body t.chain.currentBlock.hash = some t.chain.currentBlock :=
      ht.wf.within.genuine ht.wf.current
    change (body t.chain.currentBlock.hash).map _ = _
    rw [hcurrent]
    rfl
  adds {t header t'} ht hb hadd := by
    obtain ⟨block, hblock, rfl⟩ := Option.map_eq_some_iff.mp hb
    have hkey : body block.hash = some block := hblock
    simp only [minorBlockchain, hblock, Option.bind_some] at hadd
    have hkept : Minor.Tracked x body (n.insertChainForDeposits x env true nested [block] t).2 :=
      (Minor.Tracked.kept n hprop).insertChainForDeposits ht (List.forall_mem_singleton.mpr hkey)
    split at hadd
    · rename_i heq
      cases hadd
      rw [heq] at hkept
      obtain ⟨p, hp, hnumber⟩ :=
        Minor.insertChainForDeposits_parent (hrun _) (congrArg Prod.fst heq)
      refine ⟨hkept, fun q hq => ?_⟩
      have hparent : (body block.parentHash).map Minor.MinorBlock.header = some q := hq
      rw [ht.wf.within.genuine hp] at hparent
      cases hparent
      exact hnumber
    · cases hadd

end Minor

/-- **Runs with a peer that answers with the blocks asked for.**  Every block handed to `AddBlock` is the block of
the next header of accepted lists over the ancestor, and there are no more rounds than heights between the
ancestor and the target. -/
theorem run_faithful (fuel : ℕ) :
    (∀ (n : Setup) (ord : MapOrder) (validateSeal : RootBlock → Bool)
        (syncMinorBlocks : RootBlockChain → RootBlock → Option (Hash → Option TokenMap))
        (content : Hash → Option RootBlock) (g : RootBlock) (peer : Peer RootBlock RootReply)
        (st : TaskState RootBlock) (s : RootBlockChain),
      Hashes content g → Filed content g s → Answers content RootReply.blockHeaderList peer →
      (∀ k r, peer.ancestorReplies k = some r ∨ peer.headerReplies k = some r →
        r.rootTip.number ≤ st.header.number) →
      st.header.number < fuel →
      FaithfulRun (rootBlockchain n ord validateSeal) (rootTask peer syncMinorBlocks) fuel st s
        st.header.number) ∧
    ∀ (σ : Type) (bc : Blockchain σ MinorBlockHeader) (hasBlock : σ → Hash → Bool)
        (skipForRoot : MinorBlockHeader → σ → Bool) (content : Hash → Option MinorBlockHeader)
        (Inv : σ → Prop) (peer : Peer MinorBlockHeader (List MinorBlockHeader))
        (st : TaskState MinorBlockHeader) (s : σ),
      TakesClimbing bc content Inv → Inv s → Answers content id peer → st.header.number < fuel →
      FaithfulRun bc (minorTask hasBlock bc.currentHeader skipForRoot peer) fuel st s
        st.header.number := by
  constructor
  · intro n ord validateSeal syncMinorBlocks content g peer st s hc hs hp htip hfuel
    exact run_honest (rootTask_honest hc hp htip) le_rfl hs hfuel
  · intro σ bc hasBlock skipForRoot content Inv peer st s hbc hs hp hfuel
    exact run_honest (minorTask_honest hbc hp) le_rfl hs hfuel

def sampleContent (k : Hash) : Option RootBlock :=
  if k = 1 then some sampleGenesis else if k = 2 then some slowBlock₁ else none

def samplePeer (blocks : List RootBlock) : Peer RootBlock RootReply where
  ancestorReplies _ := none
  headerReplies _ := some ⟨slowBlock₁, [slowBlock₁]⟩
  blockReplies _ hashes := if hashes = [2] then some blocks else none

def sampleMinorPeer : Peer MinorBlockHeader (List MinorBlockHeader) where
  ancestorReplies _ := some [Minor.transfersGenesis.header]
  headerReplies _ := some [Minor.transfersBlock.header]
  blockReplies _ hashes := if hashes = [9] then some [Minor.transfersBlock.header] else none

def sampleMinorBlockchain : Blockchain Minor.IndexedChain MinorBlockHeader :=
  minorBlockchain Minor.insertionSetup Minor.transfersSetup
    ⟨fun _ => 100, fun _ _ => false, fun _ => false⟩ 0 Minor.transfersContent fun _ => true

def sampleMinorTask : Task Minor.IndexedChain MinorBlockHeader (TaskState MinorBlockHeader) :=
  minorTask (fun t h => t.chain.hasBlock h) sampleMinorBlockchain.currentHeader (fun _ _ => false)
    sampleMinorPeer

theorem sampleGenesis_filed :
    Filed sampleContent sampleGenesis (.genesis sampleGenesis fun _ => none) where
  wf := Wf.start (by decide) (by decide) (by decide) _
  genuine k b hb := by
    simp only [RootBlockChain.genesis, Function.update_apply] at hb
    split_ifs at hb
    cases hb
    rfl

theorem samplePeer_answers :
    Answers sampleContent RootReply.blockHeaderList (samplePeer [slowBlock₁]) where
  blocks k hashes l h := by
    simp only [samplePeer] at h
    split_ifs at h with hh
    cases h
    rw [hh]
    rfl
  genuineBlocks k hashes l h := by
    simp only [samplePeer] at h
    split_ifs at h
    cases h
    decide
  genuineHeaders k r h := by
    rcases h with h | h <;> cases h
    decide

theorem sampleMinorPeer_answers :
    Answers (fun h => (Minor.transfersContent h).map Minor.MinorBlock.header) id sampleMinorPeer where
  blocks k hashes l h := by
    simp only [sampleMinorPeer] at h
    split_ifs at h with hh
    cases h
    rw [hh]
    rfl
  genuineBlocks k hashes l h := by
    simp only [sampleMinorPeer] at h
    split_ifs at h
    cases h
    decide
  genuineHeaders k r h := by
    rcases h with h | h <;> cases h <;> decide

/-- A root chain and a shard that have only their genesis blocks run faithful tasks, and the shard takes a
block with two transfers. -/
theorem sample_run_faithful :
    FaithfulRun (rootBlockchain sampleSetup sampleOrder fun _ => true)
      (rootTask (samplePeer [slowBlock₁]) fun s _ => some s.minorBlockCoinbase) 2
      { header := slowBlock₁ } (.genesis sampleGenesis fun _ => none) 1 ∧
    FaithfulRun sampleMinorBlockchain sampleMinorTask 2 { header := Minor.transfersBlock.header }
      (Minor.transfersSetup.initial Minor.transfersRoot) 1 ∧
    run sampleMinorBlockchain sampleMinorTask 2 { header := Minor.transfersBlock.header }
      (Minor.transfersSetup.initial Minor.transfersRoot) =
    { stop := none, rounds := [⟨Minor.transfersGenesis.header, [Minor.transfersBlock.header],
      [Minor.transfersBlock.header]⟩] } := by
  refine ⟨?_, ?_, by decide +kernel⟩
  · refine (run_faithful 2).1 sampleSetup sampleOrder (fun _ => true) (fun s _ => some s.minorBlockCoinbase)
      sampleContent sampleGenesis (samplePeer [slowBlock₁]) { header := slowBlock₁ } _
      ⟨by decide, by decide⟩ sampleGenesis_filed samplePeer_answers ?_ (by decide)
    rintro k r (h | h) <;> cases h
    decide
  · exact (run_faithful 2).2 _ sampleMinorBlockchain _ (fun _ _ => false) _ _ sampleMinorPeer
      { header := Minor.transfersBlock.header } _
      (minorBlockchain_takesClimbing Minor.transfers_proper fun _ => rfl)
      (.initial Minor.transfers_genesis rfl) sampleMinorPeer_answers (by decide)

/-- **A block nobody asked for is added.**  The peer sends one header, and answers the request for its block with
another block over the same parent. -/
theorem run_adds_unrequested_block :
    run (rootBlockchain sampleSetup sampleOrder fun _ => true)
      (rootTask (samplePeer [fastBlock]) fun s _ => some s.minorBlockCoinbase) 2
      { header := slowBlock₁ } (.genesis sampleGenesis fun _ => none) =
    { stop := none, rounds := [⟨sampleGenesis, [slowBlock₁], [fastBlock]⟩] } := by
  decide +kernel

/-! ### The target of the root task

A reply is accepted when the total difficulty of its tip exceeds the difficulty of the target's own block, not
the total difficulty of the target. -/

/-- A request for root headers and its reply. -/
structure Download where
  start : ℕ
  skip : ℕ
  limit : ℕ
  resp : RootReply

/-- `downloadBlockHeaderListAndCheck` of the root task accepts a reply and moves the target. -/
def Retargets (header : RootBlock) (d : Download) (header' : RootBlock) : Prop :=
  ∃ l, checkRootReply header d.start d.skip d.limit d.resp = .ok (l, header')

/-- The reply names the target or a tip that is no lighter, or it is refused: its tip is not above the
difficulty of the target's own block, or it has not the headers it should have. -/
def Download.Keeps (header : RootBlock) (d : Download) : Prop :=
  d.resp.rootTip.hash = header.hash ∨ header.totalDifficulty ≤ d.resp.rootTip.totalDifficulty ∨
    d.resp.rootTip.totalDifficulty ≤ header.difficulty ∨ d.resp.blockHeaderList = [] ∨
      d.resp.blockHeaderList.length ≠ newLimit 32 d.resp.rootTip.number d.start d.skip d.limit

theorem Download.keeps_iff {header : RootBlock} {d : Download} :
    (∀ header', Retargets header d header' → header.totalDifficulty ≤ header'.totalDifficulty) ↔
      d.Keeps header := by
  constructor
  · intro h
    by_contra hcon
    simp only [Keeps, not_or, not_le, not_not] at hcon
    obtain ⟨hhash, hlow, hown, hne, hlen⟩ := hcon
    have := h d.resp.rootTip ⟨_, checkRootReply_ok_iff.mpr ⟨hown, hne, rfl, hlen, if_pos hhash⟩⟩
    omega
  · rintro hk header' ⟨l, hok⟩
    obtain ⟨hown, hne, rfl, hlen, rfl⟩ := checkRootReply_ok_iff.mp hok
    split_ifs with hhash
    · rcases hk with h | h | h | h | h
      · exact absurd h hhash
      · exact h
      · omega
      · exact absurd h hne
      · exact absurd hlen h
    · exact le_rfl

/-- The reply of a download is one that the peer sends. -/
def Peer.Sends (peer : Peer RootBlock RootReply) (d : Download) : Prop :=
  ∃ k, peer.ancestorReplies k = some d.resp ∨ peer.headerReplies k = some d.resp

/-- The functions of a task move its target only by replies that the peer sends and the check accepts. -/
structure MovesByDownloads {σ : Type} (peer : Peer RootBlock RootReply)
    (task : Task σ RootBlock (TaskState RootBlock)) : Prop where
  findAncestor : ∀ st s a st', task.findAncestor st s = .ok (a, st') →
    Run.Reaches Retargets (fun _ d => peer.Sends d) st.header st'.header
  getHeaders : ∀ st a l st', task.getHeaders st a = .ok (l, st') →
    Run.Reaches Retargets (fun _ d => peer.Sends d) st.header st'.header
  getBlocks : ∀ st hashes l st', task.getBlocks st hashes = .ok (l, st') → st'.header = st.header

theorem rootTask_movesByDownloads (peer : Peer RootBlock RootReply)
    (syncMinorBlocks : RootBlockChain → RootBlock → Option (Hash → Option TokenMap)) :
    MovesByDownloads peer (rootTask peer syncMinorBlocks) := by
  refine ⟨fun st s a st' ha => ?_, fun st a l st' hget => ?_, fun st hashes l st' hget => ?_⟩
  · obtain ⟨⟨_, header'⟩, hfind, hr⟩ := Outcome.map_eq_ok.mp ha
    cases hr
    rw [rootTaskFindAncestor] at hfind
    split_ifs at hfind
    · cases hfind
      exact .start
    have hfind := checkAncestor_ok hfind
    rw [rootFindAncestor] at hfind
    split_ifs at hfind
    · cases hfind
      exact .start
    exact ((search_from (P := fun _ => True)
      (fun hq hr hd => ⟨hq.step (a := ⟨_, _, _, _⟩) ⟨_, .inl hr⟩ ⟨_, hd⟩, fun _ _ => trivial⟩)
      (fun _ _ => trivial) .start _ _).of_ok hfind).1
  · simp only [rootTask, Sync.getHeaders] at hget
    split_ifs at hget
    · cases hget
      exact .start
    split at hget
    · cases hget
    rename_i hr
    split at hget
    · cases hget
    rename_i hok
    split_ifs at hget
    cases hget
    exact Run.Reaches.start.step (a := ⟨_, _, _, _⟩) ⟨_, .inr hr⟩ ⟨_, hok⟩
  · simp only [rootTask, Sync.getBlocks] at hget
    split at hget <;> cases hget
    rfl

/-- **The total difficulty of the target.**  A root task moves its target by downloads from its peer.  A
download does not move it to a lighter header exactly if it `Keeps` it; and along downloads that do, a target that beats the
tip goes on beating it. -/
theorem target_difficulty_iff (first : RootBlock) :
    (∀ peer syncMinorBlocks, MovesByDownloads peer (rootTask peer syncMinorBlocks)) ∧
    (∀ d : Download, (∀ header', Retargets first d header' →
        first.totalDifficulty ≤ header'.totalDifficulty) ↔ d.Keeps first) ∧
    ∀ tip target : RootBlock, tip.totalDifficulty < first.totalDifficulty →
      Run.Reaches Retargets (fun header d => d.Keeps header) first target →
      first.totalDifficulty ≤ target.totalDifficulty ∧ tip.totalDifficulty < target.totalDifficulty := by
  refine ⟨rootTask_movesByDownloads, fun _ => Download.keeps_iff, fun tip target htip h => ?_⟩
  have hmono := h.induct_inv (fun t => first.totalDifficulty ≤ t.totalDifficulty) le_rfl
    fun s d s' hs hk hstep => hs.trans (Download.keeps_iff.mpr hk s' hstep)
  exact ⟨hmono, htip.trans_le hmono⟩

/-- A target that beats the tip is replaced by a heavier one. -/
theorem heavier_tip_kept : (sampleRoot 1 0 0).totalDifficulty < (sampleRoot 7 6 4).totalDifficulty :=
  ((target_difficulty_iff (sampleRoot 9 8 2)).2.2 (sampleRoot 1 0 0) (sampleRoot 7 6 4) (by decide)
    (Run.Reaches.start.step (a := ⟨3, 0, 1, sampleRoot 7 6 4, [sampleRoot 7 6 3]⟩)
      (.inr (.inl (by decide))) ⟨[sampleRoot 7 6 3], by decide +kernel⟩)).2

/-- **A lighter tip is followed.**  A task for a header of total difficulty `1000`, whose own block has
difficulty `1`, asks for headers; the peer names a tip of total difficulty `150`. -/
theorem lighter_tip_retargets :
    ((rootTask (samplePeer []) fun _ _ => none).getHeaders { header := sampleBlock 9 8 5 0 1 1000 }
      sampleGenesis).map (fun r => r.2.header) = .ok slowBlock₁ ∧ slowBlock₁.totalDifficulty < 1000 := by
  decide +kernel

end QuarkChain.Sync
