/-
# Mining root blocks

`createRootBlockToMine` of `src/cluster/master/backend.go` and `CreateBlockToMine` of
`src/core/rootblockchain.go`.  The master asks its slaves for the unconfirmed headers of their
shards, keeps of every shard the validated ones at the start of the list, sorts by shard, drops what
is later than the new block, and computes reward and merkle root.

Every cut leaves the first part of a shard's list, so what arrives in the block is still `Unconfirmed`; the rest
of the block is computed the way the validator recomputes it.  The hash of a block is a function of the other
fields, `hashOf`.  The signature of a root signer is part of the seal and not modelled.
-/
import QuarkChain.Root.Unconfirmed
import Mathlib.Data.List.Sort

namespace QuarkChain.Root

open BlockTree Config QuarkChain.Types Run

structure HeadersInfo where
  branch : ℕ
  headerList : List MinorBlockHeader

inductive MineError
  | headersMustOrderedByHeight
  | errPreTime
  | notContainMinorBlock
deriving DecidableEq

/-- The loop over one shard's headers: they must be consecutive, and end at the first one that is not
validated. -/
def takeValidated (s : RootBlockChain) : ℕ → List MinorBlockHeader →
    Except MineError (List MinorBlockHeader)
  | _, [] => .ok []
  | height, header :: rest =>
      if height ≠ 0 ∧ height + 1 ≠ header.number then .error .headersMustOrderedByHeight
      else if s.containMinorBlockByHash header.hash = false then .ok []
      else (takeValidated s header.number rest).map (header :: ·)

/-- The map from full shard ids to headers; a shard without an entry has the empty list. -/
abbrev ShardHeaders := ℕ → List MinorBlockHeader

/-- One round of the loop over the replies: a shard that already has headers is skipped. -/
def addHeadersInfo (s : RootBlockChain) (headers : ShardHeaders) (info : HeadersInfo) :
    Except MineError ShardHeaders :=
  if headers info.branch ≠ [] then .ok headers
  else (takeValidated s 0 info.headerList).map fun l => Function.update headers info.branch l

def createBlockToAppend (h : RootBlock) (createTime difficulty : ℕ) (address : Address) :
    RootBlock where
  hash := emptyHash
  parentHash := h.hash
  version := h.version
  number := h.number + 1
  coinbase := address
  coinbaseAmount := ∅
  minorBlockHeaders := []
  time := createTime
  difficulty := difficulty
  totalDifficulty := h.totalDifficulty + difficulty

def extendMinorBlockHeaderList (block : RootBlock) (headers : List MinorBlockHeader)
    (createTime : ℕ) : RootBlock :=
  { block with
    minorBlockHeaders := block.minorBlockHeaders ++ headers.filter fun h => h.time ≤ createTime }

namespace Setup

variable (n : Setup)

def finalize (hashOf : RootBlock → Hash) (block : RootBlock) (coinbaseAmount : TokenMap)
    (address : Address) : RootBlock :=
  let block := { block with
    minorHeaderHash := n.calculateMerkleRoot block.minorBlockHeaders
    coinbaseAmount := coinbaseAmount
    coinbase := address
    root := n.emptyTrieHash }
  { block with hash := hashOf block }

def createBlockToMine (hashOf : RootBlock → Hash) (s : RootBlockChain)
    (mHeaderList : List MinorBlockHeader) (address : Address) (now : ℕ) :
    Except MineError RootBlock :=
  let createTime := max now (s.currentBlock.time + 1)
  match n.calculateDifficulty s.currentBlock createTime with
  | none => .error .errPreTime
  | some difficulty =>
      let block := extendMinorBlockHeaderList
        (createBlockToAppend s.currentBlock createTime difficulty address) mHeaderList createTime
      match n.calculateRootBlockCoinBase s block.number block.minorBlockHeaders with
      | none => .error .notContainMinorBlock
      | some coinbaseToken => .ok (n.finalize hashOf block coinbaseToken address)

def fullShardIdToCheck (s : RootBlockChain) : List ℕ :=
  (n.config.quarkchain.getInitializedShardIdsBeforeRootHeight
    (s.currentBlock.number + 1)).insertionSort (· ≤ ·)

def createRootBlockToMine (hashOf : RootBlock → Hash) (s : RootBlockChain)
    (replies : List HeadersInfo) (address : Address) (now : ℕ) : Except MineError RootBlock := do
  let headers ← replies.foldlM (addHeadersInfo s) fun _ => []
  n.createBlockToMine hashOf s ((n.fullShardIdToCheck s).flatMap headers) address now

end Setup

section Headers

variable {n : Setup} {s : RootBlockChain} {l : List MinorBlockHeader} {headers : ShardHeaders}

theorem takeValidated_isPrefix {height : ℕ} (hl : l.IsChain Continues)
    (hh : ∀ f, l.head? = some f → height = 0 ∨ f.number = height + 1) :
    ∃ l', takeValidated s height l = .ok l' ∧ l' <+: l ∧
      ∀ h ∈ l', s.containMinorBlockByHash h.hash = true := by
  induction l generalizing height with
  | nil => exact ⟨[], rfl, List.nil_prefix, by simp⟩
  | cons a l ih =>
    have hfirst := hh a rfl
    obtain ⟨hlink, hrest⟩ := List.isChain_cons.mp hl
    obtain ⟨l', hl', hpre, hval⟩ := @ih a.number hrest fun f hf => .inr (hlink f hf).2
    rw [takeValidated, if_neg (by omega)]
    split_ifs with hv
    · exact ⟨[], rfl, List.nil_prefix, by simp⟩
    · refine ⟨a :: l', by rw [hl']; rfl, List.cons_prefix_cons.mpr ⟨rfl, hpre⟩, ?_⟩
      exact List.forall_mem_cons.mpr ⟨by simpa using hv, hval⟩

theorem filter_time_isPrefix (hl : l.IsChain fun a b => a.time < b.time) (t : ℕ) :
    (l.filter fun h => h.time ≤ t) <+: l := by
  induction l with
  | nil => exact List.nil_prefix
  | cons a l ih =>
    by_cases ha : a.time ≤ t
    · rw [List.filter_cons_of_pos (by simpa using ha)]
      exact List.cons_prefix_cons.mpr ⟨rfl, ih hl.tail⟩
    have : IsTrans MinorBlockHeader fun a b => a.time < b.time := ⟨fun _ _ _ => lt_trans⟩
    have hnil : (l.filter fun h => h.time ≤ t) = [] := by
      refine List.filter_eq_nil_iff.mpr fun h hh => ?_
      have := List.rel_of_pairwise_cons hl.pairwise hh
      simp only [decide_eq_true_eq]
      omega
    rw [List.filter_cons_of_neg (by simpa using ha), hnil]
    exact List.nil_prefix

/-- What the master holds for a shard. -/
structure Offered (n : Setup) (s : RootBlockChain) (id : ℕ) (l : List MinorBlockHeader) : Prop where
  unconfirmed : Unconfirmed n s id l
  validated : ∀ h ∈ l, s.containMinorBlockByHash h.hash = true

theorem Offered.take {l' : List MinorBlockHeader} {id : ℕ} (hl : Offered n s id l) (hp : l' <+: l) :
    Offered n s id l' :=
  ⟨hl.unconfirmed.take hp, fun h hh => hl.validated h (hp.subset hh)⟩

/-- **The loop over the replies.** -/
theorem addHeadersInfo_offered (replies : List HeadersInfo)
    (hr : ∀ info ∈ replies, Unconfirmed n s info.branch info.headerList)
    (hh : ∀ id, Offered n s id (headers id)) :
    ∃ headers', replies.foldlM (addHeadersInfo s) headers = .ok headers' ∧
      ∀ id, Offered n s id (headers' id) := by
  induction replies generalizing headers with
  | nil => exact ⟨headers, rfl, hh⟩
  | cons info replies ih =>
    rw [List.forall_mem_cons] at hr
    rw [List.foldlM_cons]
    have hone : ∃ headers₁, addHeadersInfo s headers info = .ok headers₁ ∧
        ∀ id, Offered n s id (headers₁ id) := by
      rw [addHeadersInfo]
      split_ifs with hne
      · exact ⟨headers, rfl, hh⟩
      obtain ⟨l, hl, hpre, hval⟩ := takeValidated_isPrefix (s := s) hr.1.continues fun _ _ => .inl rfl
      refine ⟨Function.update headers info.branch l, by rw [hl]; rfl, fun id => ?_⟩
      by_cases hid : id = info.branch
      · subst hid
        rw [Function.update_self]
        exact ⟨hr.1.take hpre, hval⟩
      · rw [Function.update_of_ne hid]
        exact hh id
    obtain ⟨headers₁, hone, hh₁⟩ := hone
    obtain ⟨headers', hrest, hh'⟩ := ih hr.2 hh₁
    exact ⟨headers', Outcome.bind_eq_ok.mpr ⟨headers₁, hone, hrest⟩, hh'⟩

theorem flatMap_follows {ids : List ℕ} (hids : ids.Pairwise (· < ·))
    (hh : ∀ id ∈ ids, Offered n s id (headers id)) : (ids.flatMap headers).IsChain Follows := by
  induction ids with
  | nil => exact .nil
  | cons id ids ih =>
    obtain ⟨hlt, hids⟩ := List.pairwise_cons.mp hids
    rw [List.forall_mem_cons] at hh
    have hown := hh.1.unconfirmed
    rw [List.flatMap_cons]
    refine List.IsChain.append ?_ (ih hids hh.2) fun a ha b hb => .inl ?_
    · refine hown.continues.imp_of_mem_imp fun a b ha hb hab => .inr ⟨?_, hab.2, hab.1⟩
      rw [hown.branch a ha, hown.branch b hb]
    · obtain ⟨id', hid', hb'⟩ := List.mem_flatMap.mp (List.mem_of_head? hb)
      rw [hown.branch a (List.mem_of_getLast? ha), (hh.2 id' hid').unconfirmed.branch b hb']
      exact hlt id' hid'

theorem ofShard_flatMap {ids : List ℕ} (hids : ids.Nodup)
    (hh : ∀ id ∈ ids, Offered n s id (headers id)) (id : ℕ) :
    ofShard (ids.flatMap headers) id = if id ∈ ids then headers id else [] := by
  have hall : ∀ id' ∈ ids, ofShard (headers id') id = if id = id' then headers id' else [] := by
    intro id' hid'
    have hbranch := (hh id' hid').unconfirmed.branch
    split_ifs with heq
    · exact List.filter_eq_self.mpr fun h hmem => by simp [hbranch h hmem, heq]
    · exact List.filter_eq_nil_iff.mpr fun h hmem => by simp [hbranch h hmem, Ne.symm heq]
  induction ids with
  | nil => rfl
  | cons a ids ih =>
    obtain ⟨hnot, hids⟩ := List.nodup_cons.mp hids
    rw [List.forall_mem_cons] at hh hall
    rw [List.flatMap_cons, ofShard_append, hall.1, ih hids hh.2 hall.2]
    by_cases heq : id = a
    · subst heq
      simp [hnot]
    · simp [heq]

end Headers

/-! ### The miner and the validator -/

/-- What the miner needs of the state: a tree of blocks of version zero, none of them heavier than
the head. -/
structure Minable (g : RootBlock) (s : RootBlockChain) : Prop where
  wf : Wf g s
  version : ∀ k b, s.getBlock k = some b → b.version = 0
  heaviest : ∀ k b, s.getBlock k = some b → b.totalDifficulty ≤ s.currentBlock.totalDifficulty

section Mining

variable {g b : RootBlock} {s s' : RootBlockChain} {n : Setup} {headers : ShardHeaders}
  {hashOf : RootBlock → Hash} {address : Address} {now : ℕ} {replies : List HeadersInfo}

theorem Minable.congr (hm : Minable g s) (hget : s'.getBlock = s.getBlock)
    (hcur : s'.currentBlock = s.currentBlock) : Minable g s' := by
  refine ⟨hm.wf.congr hget hcur, ?_, ?_⟩
  · rw [hget]
    exact hm.version
  · rw [hget, hcur]
    exact hm.heaviest

theorem minable_step {e : Event} (hm : Minable g s) (he : GenuineEvent g s e)
    (hs : Step n s e s') : Minable g s' := by
  cases hs with
  | @accepted ord s s₁ b hv ho =>
    obtain ⟨hget, hcur, -⟩ := validateBlock_frame hv
    have ha := validateBlock_ok_iff.mp ⟨s₁, hv⟩
    obtain ⟨p, hok⟩ := verifyHeader_ok_iff.mp ha.header
    have hm₁ := hm.congr hget hcur
    have hb : Genuine g s₁ b := Genuine.congr he hget
    have hp : s₁.getBlock b.parentHash = some p := by
      rw [hget]
      exact hok.parent_eq
    have hstore := (s₁.writeBlockWithState_stores b).1
    refine ⟨hm₁.wf.store hb hp hok.number_eq hstore (s₁.writeBlockWithState_currentBlock b), ?_,
      heaviest_write hm₁.wf hb hp hok.number_eq hm₁.heaviest⟩
    intro k c hc
    rw [hstore] at hc
    rcases store_cases hc with ⟨-, rfl⟩ | hold
    · exact hok.version_eq
    · exact hm₁.version k c hold
  | dropped hv ho =>
    obtain ⟨hget, hcur, -⟩ := validateBlock_frame hv
    exact hm.congr hget hcur
  | reported s h token => exact hm.congr rfl rfl
  | checkDB s flag => exact hm.congr rfl rfl

theorem minable_genesis (hg : IsGenesis g) (hv : g.version = 0)
    (coinbase : Hash → Option TokenMap) : Minable g (.genesis g coinbase) := by
  refine ⟨Wf.start hg.number_eq hg.ne_empty hg.parent_ne coinbase, ?_,
    (forkChoice_genesis hg coinbase).heaviest⟩
  intro k b hb
  rw [(RootBlockChain.genesis_getBlock hb).2, hv]

def ShardsInRange (q : QuarkChainConfig) : Prop := ∀ c ∈ q.shards, c.shardID < c.shardSize

instance (q : QuarkChainConfig) : Decidable (ShardsInRange q) :=
  inferInstanceAs (Decidable (∀ c ∈ q.shards, c.shardID < c.shardSize))

theorem getFullShardId_pos {c : ShardConfig} (hc : c.shardID < c.shardSize) : 0 < c.getFullShardId := by
  have hsize : c.shardSize ≤ c.getFullShardId := Nat.right_le_or.trans Nat.left_le_or
  omega

/-- What a block built on the head holds. -/
structure Built (n : Setup) (s : RootBlockChain) (mHeaderList : List MinorBlockHeader) (now : ℕ)
    (b : RootBlock) : Prop where
  version : b.version = s.currentBlock.version
  parent : b.parentHash = s.currentBlock.hash
  number : b.number = s.currentBlock.number + 1
  time : b.time = max now (s.currentBlock.time + 1)
  headers : b.minorBlockHeaders = mHeaderList.filter fun h => h.time ≤ b.time
  difficulty : n.calculateDifficulty s.currentBlock b.time = some b.difficulty
  total : b.totalDifficulty = s.currentBlock.totalDifficulty + b.difficulty
  coinbase : n.calculateRootBlockCoinBase s b.number b.minorBlockHeaders = some b.coinbaseAmount
  merkle : b.minorHeaderHash = n.calculateMerkleRoot b.minorBlockHeaders
  root : b.root = n.emptyTrieHash
  extra : b.extra = []
  tracking : b.trackingData = []

variable {l : List MinorBlockHeader}

theorem createBlockToMine_built
    (hb : n.createBlockToMine hashOf s l address now = .ok b) : Built n s l now b := by
  rw [Setup.createBlockToMine] at hb
  simp only at hb
  split at hb
  · cases hb
  rename_i d hd
  split at hb
  · cases hb
  rename_i coinbaseToken hcoinbase
  cases hb
  exact ⟨rfl, rfl, rfl, rfl, rfl, hd, rfl, hcoinbase, rfl, rfl, rfl, rfl⟩

theorem calculateRootBlockCoinBase_exists (number : ℕ)
    (hl : ∀ h ∈ l, s.containMinorBlockByHash h.hash = true) :
    ∃ token, n.calculateRootBlockCoinBase s number l = some token := by
  have hmap : ∃ tokens, (l.mapM fun h => s.minorBlockCoinbase h.hash) = some tokens := by
    induction l with
    | nil => exact ⟨[], rfl⟩
    | cons h l ih =>
      rw [List.forall_mem_cons] at hl
      obtain ⟨t, ht⟩ := Option.isSome_iff_exists.mp hl.1
      obtain ⟨tokens, htokens⟩ := ih hl.2
      exact ⟨t :: tokens, by simp [List.mapM_cons, ht, htokens]⟩
  obtain ⟨tokens, htokens⟩ := hmap
  rw [Setup.calculateRootBlockCoinBase, htokens]
  exact ⟨_, rfl⟩

theorem createBlockToMine_exists
    (hd : (n.calculateDifficulty s.currentBlock (max now (s.currentBlock.time + 1))).isSome = true)
    (hl : ∀ h ∈ l, s.containMinorBlockByHash h.hash = true) :
    ∃ b, n.createBlockToMine hashOf s l address now = .ok b := by
  obtain ⟨d, hd⟩ := Option.isSome_iff_exists.mp hd
  have hcut : ∀ h ∈ l.filter fun h => h.time ≤ max now (s.currentBlock.time + 1),
      s.containMinorBlockByHash h.hash = true := fun h hh => hl h (List.mem_of_mem_filter hh)
  obtain ⟨token, htoken⟩ := calculateRootBlockCoinBase_exists (n := n)
    (s.currentBlock.number + 1) hcut
  simp only [Setup.createBlockToMine, hd, extendMinorBlockHeaderList, createBlockToAppend,
    List.nil_append, htoken]
  exact ⟨_, rfl⟩

theorem fullShardIdToCheck_spec (n : Setup) (s : RootBlockChain) :
    (n.fullShardIdToCheck s).Pairwise (· < ·) ∧ ∀ id, id ∈ n.fullShardIdToCheck s ↔
        id ∈ n.config.quarkchain.getInitializedShardIdsBeforeRootHeight
          (s.currentBlock.number + 1) := by
  have hperm := List.perm_insertionSort (· ≤ ·)
    (n.config.quarkchain.getInitializedShardIdsBeforeRootHeight (s.currentBlock.number + 1))
  have hsorted := List.pairwise_insertionSort (· ≤ ·)
    (n.config.quarkchain.getInitializedShardIdsBeforeRootHeight (s.currentBlock.number + 1))
  have hnodup := hperm.nodup_iff.mpr
    (n.config.quarkchain.nodup_getInitializedShardIdsBeforeRootHeight (s.currentBlock.number + 1))
  exact ⟨(hsorted.and hnodup).imp fun h => lt_of_le_of_ne h.1 h.2, fun id => hperm.mem_iff⟩

theorem initialized_config {q : QuarkChainConfig} (hq : ShardsInRange q) {id h : ℕ}
    (hid : id ∈ q.getInitializedShardIdsBeforeRootHeight h) :
    0 < id ∧ ∃ c, q.getShardConfigByFullShardID id = some c := by
  obtain ⟨c, hc, -, rfl⟩ := q.mem_getInitializedShardIdsBeforeRootHeight.mp hid
  refine ⟨getFullShardId_pos (hq c hc), ?_⟩
  rw [← Option.isSome_iff_exists, QuarkChainConfig.getShardConfigByFullShardID, List.find?_isSome]
  exact ⟨c, hc, by simp⟩

theorem Built.header (hm : Minable g s) (hb : Built n s l now b) :
    Setup.verifyRootHeader { n with verifySeal := fun _ _ => true } s b = .ok () := by
  refine verifyHeader_ok_iff.mpr ⟨s.currentBlock, ?_, ?_, hb.number, ?_, ?_, ?_, rfl⟩
  · exact hb.version.trans (hm.version _ _ hm.wf.current)
  · exact (congrArg s.getBlock hb.parent).trans hm.wf.current
  · change b.extra.length ≤ _
    simp [hb.extra]
  · change s.currentBlock.time < b.time
    have := hb.time
    omega
  · exact fun _ => hb.difficulty

theorem Built.content (hm : Minable g s) (hb : Built n s l now b) :
    Setup.checkContent { n with verifySeal := fun _ _ => true } s b = .ok () := by
  have hcoinbase : Setup.calculateRootBlockCoinBase { n with verifySeal := fun _ _ => true } s
      b.number b.minorBlockHeaders = some b.coinbaseAmount := hb.coinbase
  rw [Setup.checkContent, hb.parent, hm.wf.current]
  simp only
  rw [if_neg (by rw [hb.total]; omega), if_neg (by simp [hb.tracking]), if_neg (by simp [hb.merkle]),
    if_neg (by simp [hb.root]), hcoinbase]
  simp

theorem checkPrevRoot_of_built (hm : Minable g s)
    (hb : Built n s l now b) {r : RootBlock} {key : Hash} (hr : s.getBlock key = some r)
    (hd : Descends s.getBlock r s.currentBlock) : checkPrevRoot s b key = .ok () := by
  have hp : s.getBlock (parentHash b) = some s.currentBlock :=
    (congrArg s.getBlock hb.parent).trans hm.wf.current
  have hle : r.number ≤ s.currentBlock.number := hm.wf.consistent.number_le hm.wf.current hd
  have hat : atHeight s.getBlock b (number r) = some r := by
    rw [atHeight_parent hp hb.number (show number r ≤ number s.currentBlock from hle)]
    exact hm.wf.consistent.atHeight_of_descends hm.wf.current hd
  have hsame := isSameChain_eq hm.wf.consistent hm.wf.empty
    (.child hp hb.number (hm.wf.rooted hm.wf.current))
    (show number r ≤ number b by
      have := hb.number
      change r.number ≤ b.number
      omega)
  rw [hat, Option.map_some, decide_eq_true rfl] at hsame
  simp only [checkPrevRoot, hr, hsame]

/-- **The miner's block passes.** -/
theorem built_accepted (hm : Minable g s) (hq : ShardsInRange n.config.quarkchain)
    (hpos : ∀ p t d, n.calculateDifficulty p t = some d → 0 < d)
    (hh : ∀ id, Offered n s id (headers id))
    (hb : Built n s ((n.fullShardIdToCheck s).flatMap headers) now b) (hgen : Genuine g s b)
    (force : Bool) : Accepted { n with verifySeal := fun _ _ => true } s b force := by
  obtain ⟨hsorted, hmem⟩ := fullShardIdToCheck_spec n s
  -- the headers of the block, shard by shard
  have hcut : ∀ id, Offered n s id ((headers id).filter fun h => h.time ≤ b.time) := fun id =>
    (hh id).take (filter_time_isPrefix (hh id).unconfirmed.times b.time)
  have hlist : b.minorBlockHeaders = (n.fullShardIdToCheck s).flatMap fun id =>
      (headers id).filter fun h => h.time ≤ b.time := by
    rw [hb.headers, List.filter_flatMap]
  have hin : ∀ h ∈ b.minorBlockHeaders, ∃ id ∈ n.fullShardIdToCheck s,
      h ∈ (headers id).filter fun h => h.time ≤ b.time := by
    intro h hh
    rw [hlist] at hh
    exact List.mem_flatMap.mp hh
  have hofShard := ofShard_flatMap (hsorted.imp ne_of_lt) fun id _ => hcut id
  rw [← hlist] at hofShard
  refine ⟨?_, ?_, hb.header hm, hb.content hm, ?_, ?_, ?_, ?_, ?_, ?_⟩
  · have := hb.number
    omega
  · -- a stored child of the head would be heavier than the head
    right
    rcases hk : s.getBlock b.hash with _ | c
    · rfl
    obtain rfl : c = b := hgen.same c hk
    have := hm.heaviest _ c hk
    have := hb.total
    have := hpos _ _ _ hb.difficulty
    omega
  · intro h hh
    obtain ⟨id, -, hid⟩ := hin h hh
    exact (hcut id).validated h hid
  · intro h hh
    obtain ⟨id, -, hid⟩ := hin h hh
    simpa using (List.mem_filter.mp hid).2
  · intro h hh
    obtain ⟨id, hids, hid⟩ := hin h hh
    rw [(hcut id).unconfirmed.branch h hid]
    exact (initialized_config hq ((hmem id).mp hids)).1
  · rw [hlist]
    exact flatMap_follows hsorted fun id _ => hcut id
  · intro h hh
    obtain ⟨id, -, hid⟩ := hin h hh
    obtain ⟨r, hr, hd⟩ := (hcut id).unconfirmed.prevRoot h hid
    exact checkPrevRoot_of_built hm hb hr hd
  · intro id hne
    rw [hofShard id] at hne ⊢
    split_ifs at hne ⊢ with hids
    · have hun := (hcut id).unconfirmed
      obtain ⟨-, c, hc⟩ := initialized_config hq ((hmem id).mp hids)
      refine ⟨⟨c, hc, hun.few c hc⟩, ?_, ?_, ?_⟩
      · rw [hb.number]
        exact (hmem id).mp hids
      · rw [hb.parent]
        exact hun.first
      · rw [hb.parent]
        intro f q hf hq
        exact ⟨(hun.link f q hf hq).2, (hun.link f q hf hq).1⟩
    · exact absurd rfl hne

/-- **Root miner and validator agree.**  On every chain of a run, from the unconfirmed lists of shards in sync with
the head, a block is built (unless the difficulty rule has no value for the time) that passes every check of
the validator but the seal. -/
theorem createRootBlockToMine_accepted (hg : IsGenesis g) (hv : g.version = 0)
    (coinbase : Hash → Option TokenMap)
    (hs : Reaches (Step n) (GenuineEvent g) (.genesis g coinbase) s)
    (hq : ShardsInRange n.config.quarkchain)
    (hpos : ∀ p t d, n.calculateDifficulty p t = some d → 0 < d)
    (hreplies : ∀ info ∈ replies, ∃ m : Shard, m.InSync n s ∧ m.fullShardId = info.branch ∧
      m.getUnconfirmedHeaderList = some info.headerList) :
    ((n.calculateDifficulty s.currentBlock (max now (s.currentBlock.time + 1))).isSome = true →
      ∃ b, n.createRootBlockToMine hashOf s replies address now = .ok b) ∧
    ∀ b, n.createRootBlockToMine hashOf s replies address now = .ok b → Genuine g s b →
      ∀ ord force, ∃ s',
        Setup.validateBlock { n with verifySeal := fun _ _ => true } ord s b force = .ok s' := by
  have hm : Minable g s :=
    hs.induct_inv (Minable g) (minable_genesis hg hv coinbase) fun _ _ _ => minable_step
  have hun : ∀ info ∈ replies, Unconfirmed n s info.branch info.headerList := by
    intro info hi
    obtain ⟨m, hsync, hid, hl⟩ := hreplies info hi
    rw [← hid]
    exact getUnconfirmedHeaderList_unconfirmed hsync hl
  obtain ⟨headers, hfold, hoff⟩ := addHeadersInfo_offered replies hun fun id =>
    ⟨unconfirmed_nil, by simp⟩
  have hcreate : n.createRootBlockToMine hashOf s replies address now =
      n.createBlockToMine hashOf s ((n.fullShardIdToCheck s).flatMap headers) address now := by
    rw [Setup.createRootBlockToMine, hfold]
    rfl
  rw [hcreate]
  constructor
  · intro hd
    refine createBlockToMine_exists hd fun h hh => ?_
    obtain ⟨id, -, hid⟩ := List.mem_flatMap.mp hh
    exact (hoff id).validated h hid
  · intro b hb hgen ord force
    exact validateBlock_ok_iff.mpr
      (built_accepted hm hq hpos hoff (createBlockToMine_built hb) hgen force)

end Mining

/-! ### A block that is mined -/

def sampleShard : Shard where
  fullShardId := 1
  getBlock k := if k = 0x50 then some sampleHeader₀ else if k = 0x51 then some sampleHeader₁ else none
  currentBlock := sampleHeader₁
  confirmedHeaderTip := none
  maxBlocks := 8

theorem sampleShard_inSync : sampleShard.InSync sampleSetup reportedChain := by
  have hget : ∀ k b, sampleShard.getBlock k = some b →
      k = 0x50 ∧ b = sampleHeader₀ ∨ k = 0x51 ∧ b = sampleHeader₁ := by
    intro k b hb
    simp only [sampleShard] at hb
    split_ifs at hb with h₀ h₁ <;> cases hb
    · exact .inl ⟨h₀, rfl⟩
    · exact .inr ⟨h₁, rfl⟩
  have hparent : sampleShard.getBlock sampleHeader₀.parentHash = none := by decide
  have hroot : reportedChain.getBlock 1 = some sampleGenesis := by
    simp [reportedChain, RootBlockChain.addValidatedMinorBlockHeader, RootBlockChain.genesis,
      sampleGenesis, sampleBlock]
  constructor
  · intro c hc
    cases hc
    rfl
  · constructor
    · intro k b hb
      rcases hget k b hb with ⟨rfl, rfl⟩ | ⟨rfl, rfl⟩ <;> rfl
    · intro k b p hb hp
      rcases hget k b hb with ⟨rfl, rfl⟩ | ⟨rfl, rfl⟩
      · rw [show parentHash sampleHeader₀ = sampleHeader₀.parentHash from rfl, hparent] at hp
        cases hp
      · cases hp
        rfl
  · exact .child rfl rfl (.genesis rfl)
  · rfl
  · intro k b hb
    rcases hget k b hb with ⟨rfl, rfl⟩ | ⟨rfl, rfl⟩ <;> rfl
  · intro k b p hb hp
    rcases hget k b hb with ⟨rfl, rfl⟩ | ⟨rfl, rfl⟩
    · rw [hparent] at hp
      cases hp
    · cases hp
      decide
  · intro k b p r hb hp hr
    rcases hget k b hb with ⟨rfl, rfl⟩ | ⟨rfl, rfl⟩
    · rw [hparent] at hp
      cases hp
    · cases hp
      exact ⟨r, hr, .refl⟩
  · exact ⟨sampleGenesis, hroot, .refl⟩
  · rfl
  · rintro t b ⟨⟩

theorem sampleShard_mined :
    ∃ b, sampleSetup.createRootBlockToMine (fun _ => 5) reportedChain
        [⟨1, [sampleHeader₀, sampleHeader₁]⟩] ⟨0xcc, 0⟩ 80 = .ok b ∧
      b.minorBlockHeaders = [sampleHeader₀, sampleHeader₁] ∧
      ∃ s', Setup.validateBlock { sampleSetup with verifySeal := fun _ _ => true } sampleOrder
        reportedChain b false = .ok s' := by
  obtain ⟨b, hb, hlist, hhash⟩ := Outcome.exists_ok_of_test
    (x := sampleSetup.createRootBlockToMine (fun _ => 5) reportedChain
      [⟨1, [sampleHeader₀, sampleHeader₁]⟩] ⟨0xcc, 0⟩ 80)
    (p := fun b => b.minorBlockHeaders = [sampleHeader₀, sampleHeader₁] ∧ b.hash = 5)
    (by decide +kernel)
  have hgen : Genuine sampleGenesis reportedChain b := by
    refine ⟨by rw [hhash]; decide, by rw [hhash]; decide, fun b' hb' => ?_⟩
    rw [hhash] at hb'
    simp [reportedChain, RootBlockChain.addValidatedMinorBlockHeader, RootBlockChain.genesis,
      sampleGenesis, sampleBlock] at hb'
  refine ⟨b, hb, hlist, (createRootBlockToMine_accepted sampleGenesis_isGenesis rfl (fun _ => none)
    reportedChain_reaches ?_ (fun p t d => ethDifficulty_pos one_pos) ?_).2 b hb hgen sampleOrder
    false⟩
  · decide
  · intro info hinfo
    obtain rfl := List.mem_singleton.mp hinfo
    exact ⟨sampleShard, sampleShard_inSync, rfl, by decide⟩

end QuarkChain.Root
