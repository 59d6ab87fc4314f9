/-
# Traversing the root blocks a shard has accepted

`AddRootBlock` and the cursor decide independently which minor headers send deposits to the shard.
`TraversalSound` is their agreement: over every stored root block, from every cursor a block can
have stored, the traversal answers at each step and yields the deposits of exactly those headers for
which a list was required.

The two decisions differ in three ways.  A prev-root block the shard never stored is tolerated by
`AddRootBlock` and dereferenced by the cursor; the neighbour test is made at the prev-root height by
the one and at the height of the including root block by the other; and the genesis root block is
stored without any scan.  `NodeEvent.Agrees` is the condition under which the differences do not show.
-/
import QuarkChain.Lib.Run
import QuarkChain.XShard.AddRootBlock
import QuarkChain.XShard.Resume

namespace QuarkChain.XShard

open Account Config QuarkChain.Types Resumable Run XShardTxCursor

inductive NodeEvent
  | addRootBlock (rBlock : RootBlock)
  | addCrossShardTxList (h : Hash) (txList : List CrossShardTransactionDeposit)
  | putMinorBlock (h : MinorBlockHeader)

inductive NodeStep : ShardNode → NodeEvent → ShardNode → Prop
  | addRootBlock {s s' : ShardNode} {rBlock : RootBlock} (h : s.addRootBlock rBlock = .ok s') :
      NodeStep s (.addRootBlock rBlock) s'
  | addCrossShardTxList (s : ShardNode) (h : Hash) (txList : List CrossShardTransactionDeposit) :
      NodeStep s (.addCrossShardTxList h txList) (s.addCrossShardTxListByMinorBlockHash h txList)
  | putMinorBlock (s : ShardNode) (h : MinorBlockHeader) :
      NodeStep s (.putMinorBlock h) (s.putMinorBlock h)

/-- The two decisions agree on header `h` of root block `r` in the stores of `bc`: a neighbour at
the height of `r` has a stored prev-root block at whose height it was a neighbour too (or which is
the genesis height), and a header that was a neighbour at its prev-root height only has nothing to
deliver. -/
def HeaderAgrees (bc : MinorBlockChain) (r : RootBlock) (h : MinorBlockHeader) : Prop :=
  if bc.isNeighbor h.branch r.number then
    ∃ p, bc.getRootBlockByHash h.prevRootBlockHash = some p ∧
      (p.number = bc.getGenesisRootHeight ∨ bc.isNeighbor h.branch p.number = true)
  else requiresTxList bc h = true → bc.readCrossShardTxList h.hash = some []

/-- The condition on an event in the state before it.  A root block is one above its parent and
its headers agree.  A list that arrives for a header of a stored root block is one `AddRootBlock`
requires, and is empty where the header is no neighbour at the height of that root block. -/
def NodeEvent.Agrees (s : ShardNode) : NodeEvent → Prop
  | .addRootBlock r =>
      (∀ p, s.chain.getRootBlockByHash r.parentHash = some p → r.number = p.number + 1) ∧
        ∀ h ∈ r.minorBlockHeaders, h.branch ≠ s.chain.branch → HeaderAgrees s.chain r h
  | .addCrossShardTxList k txList =>
      ∀ k' r, s.chain.getRootBlockByHash k' = some r →
        ∀ h ∈ r.minorBlockHeaders, h.hash = k → h.branch ≠ s.chain.branch →
          if s.chain.isNeighbor h.branch r.number then requiresTxList s.chain h = true
          else requiresTxList s.chain h = true → txList = []
  | .putMinorBlock _ => True

/-- The condition on the genesis root block: it lists no header of a neighbour. -/
def GenesisAgrees (s : ShardNode) (g : RootBlock) : Prop :=
  ∀ h ∈ g.minorBlockHeaders, h.branch ≠ s.chain.branch →
    s.chain.isNeighbor h.branch g.number = false

def requiredDeposits (s : ShardNode) (r : RootBlock) : List CrossShardTransactionDeposit :=
  (r.minorBlockHeaders.filter (s.required r.hash)).flatMap fun h =>
    (s.chain.readCrossShardTxList h.hash).getD []

/-- The sequence that adding the root blocks of a stretch promised: for each block its coinbase
deposit and then the deposits of the headers for which a list was required. -/
def requiredSequence (s : ShardNode) (root : List RootBlock) : List CrossShardTransactionDeposit :=
  root.flatMap fun r => coinbaseDeposit s.chain r :: requiredDeposits s r

/-- **Traversals are sound** in the stores of `s`, for a shard that started at root block `g`: every
stored root block `m` ends a stretch from `g`, and from every cursor a block can have stored there
the traversal answers at every step and yields an end part of the promised sequence, all of it from
the genesis cursor. -/
def TraversalSound (s : ShardNode) (g : RootBlock) : Prop :=
  ∀ k m, s.chain.getRootBlockByHash k = some m →
    ∃ root, Linked s.chain root ∧ root.head? = some g ∧ root.getLast? = some m ∧
      StoredAt s.chain root ⟨g.number, 0, 0⟩ ∧
      ∀ c, StoredAt s.chain root c →
        ∃ x l, newXShardTxCursor s.chain m.hash c = .ok x ∧ Yields (getNextTx s.chain) x l ∧
          l <:+ requiredSequence s root ∧ (c = ⟨g.number, 0, 0⟩ → l = requiredSequence s root)

variable {s s' : ShardNode} {g r : RootBlock} {h : MinorBlockHeader}

/-- What the history and the stores say about header `h` of the stored root block `r`. -/
structure HeaderInv (s : ShardNode) (r : RootBlock) (h : MinorBlockHeader) : Prop where
  required : s.required r.hash h = true → requiresTxList s.chain h = true
  neighbor : h.branch ≠ s.chain.branch → s.chain.isNeighbor h.branch r.number = true →
    ∃ p, s.chain.getRootBlockByHash h.prevRootBlockHash = some p ∧
      ((s.chain.readCrossShardTxList h.hash).isSome = true ↔
        s.chain.getGenesisRootHeight < p.number) ∧
      (s.required r.hash h = true ↔ s.chain.getGenesisRootHeight < p.number)
  stranger : s.chain.isNeighbor h.branch r.number = false → s.required r.hash h = true →
    s.chain.readCrossShardTxList h.hash = some []

/-- The invariant of a run that started at root block `g`. -/
structure StoreInv (s : ShardNode) (g : RootBlock) : Prop where
  genesis : g.number = s.chain.getGenesisRootHeight
  keyed : ∀ k r, s.chain.getRootBlockByHash k = some r → r.hash = k
  rooted : ∀ k r, s.chain.getRootBlockByHash k = some r →
    ∃ root, Linked s.chain root ∧ root.head? = some g ∧ root.getLast? = some r
  headers : ∀ k r, s.chain.getRootBlockByHash k = some r →
    ∀ h ∈ r.minorBlockHeaders, HeaderInv s r h

theorem StoreInv.genesis_le (hinv : StoreInv s g) {k : Hash}
    (hk : s.chain.getRootBlockByHash k = some r) : s.chain.getGenesisRootHeight ≤ r.number := by
  obtain ⟨root, hlinked, hhead, hlast⟩ := hinv.rooted k r hk
  obtain ⟨t, rfl⟩ := List.head?_eq_some_iff.mp hhead
  have hnum := hlinked.number_getLast hlast
  have hgen := hinv.genesis
  omega

theorem HeaderInv.headerDeposits_eq (hh : HeaderInv s r h) : headerDeposits s.chain r h =
      if s.required r.hash h then (s.chain.readCrossShardTxList h.hash).getD [] else [] := by
  by_cases hown : h.branch = s.chain.branch
  · have hno : ¬ s.required r.hash h = true := by
      intro hreq
      simpa [requiresTxList, hown] using hh.required hreq
    simp [headerDeposits, mayDeliver, hown, hno]
  cases hn : s.chain.isNeighbor h.branch r.number with
  | true =>
    obtain ⟨p, hp, -, hreq⟩ := hh.neighbor hown hn
    by_cases hlt : s.chain.getGenesisRootHeight < p.number
    · simp [headerDeposits, mayDeliver, hown, hn, hp, hlt, hreq.mpr hlt]
    · have hno : s.required r.hash h = false := by
        simpa using fun hr => hlt (hreq.mp hr)
      simp [headerDeposits, mayDeliver, hn, hp, hlt, hno]
  | false =>
    have hno : mayDeliver s.chain r h = false := by simp [mayDeliver, hn]
    rw [headerDeposits_eq_nil hno]
    split_ifs with hreq
    · rw [hh.stranger hn hreq, Option.getD_some]
    · rfl

theorem flatMap_ite_nil {α β : Type} (l : List α) (p : α → Bool) (f : α → List β) :
    l.flatMap (fun a => if p a then f a else []) = (l.filter p).flatMap f := by
  induction l with
  | nil => rfl
  | cons a l ih => cases hp : p a <;> simp [hp, ih]

theorem StoreInv.canonical_eq (hinv : StoreInv s g) {root : List RootBlock}
    (hroot : Linked s.chain root) : canonical s.chain root = requiredSequence s root := by
  unfold canonical requiredSequence
  refine List.flatMap_congr fun r hr => ?_
  have hheaders := hinv.headers r.hash r (hroot.stored hr)
  unfold rootBlockDeposits requiredDeposits headersDeposits
  rw [← flatMap_ite_nil, List.flatMap_congr fun h hh => (hheaders h hh).headerDeposits_eq]

theorem StoreInv.served (hinv : StoreInv s g) {k : Hash}
    (hk : s.chain.getRootBlockByHash k = some r) : Served s.chain r := by
  intro h hh hbranch hneighbor
  obtain ⟨p, hp, hiff, -⟩ := (hinv.headers k r hk h hh).neighbor hbranch hneighbor
  exact ⟨p, hp, hiff⟩

theorem StoreInv.traversalSound (hinv : StoreInv s g) : TraversalSound s g := by
  intro k m hk
  obtain ⟨root, hlinked, hhead, hlast⟩ := hinv.rooted k m hk
  have hserved : ∀ r ∈ root, Served s.chain r := fun r hr => hinv.served (hlinked.stored hr)
  obtain ⟨t, rfl⟩ := List.head?_eq_some_iff.mp hhead
  have hstart : StoredAt s.chain (g :: t) ⟨g.number, 0, 0⟩ := .inr ⟨[], g, t, rfl, rfl, .inl ⟨rfl, by simp⟩⟩
  refine ⟨g :: t, hlinked, rfl, hlast, hstart, fun c hc => ?_⟩
  obtain ⟨x, hnew, hx, htodo⟩ := newXShardTxCursor_spec hlinked hlast hc
  have hdesc : Describes (getNextTx s.chain) (Positioned s.chain (g :: t))
      (XShardTxCursor.todo s.chain (g :: t)) := by
    intro x o x' hx hok
    have hstep := getNextTx_spec hlinked hx hok
    exact ⟨hstep.positioned, hstep.handsOut⟩
  have hyields := hdesc.yields (fun x hx => getNextTx_ok hlinked hserved hx) hx
  rw [htodo] at hyields
  refine ⟨x, _, hnew, hyields, ?_, ?_⟩
  · rw [← hinv.canonical_eq hlinked]
    exact hc.pending_suffix hlinked
  · rintro rfl
    rw [← hinv.canonical_eq hlinked]
    have hself : fromHeight (g :: t) g.number = g :: t := Linked.fromHeight_self (l := []) hlinked
    simp [pending, hself, pendingIn, canonical, rootBlockDeposits]

/-! ### The invariant is kept -/

variable {sh : Option MinorBlockHeader} {k : Hash} {txList : List CrossShardTransactionDeposit}

theorem putRootBlock_getRootBlockByHash {p : RootBlock}
    (hnew : s.chain.getRootBlockByHash r.hash = none) (hk : s.chain.getRootBlockByHash k = some p) :
    (s.putRootBlock r sh).chain.getRootBlockByHash k = some p := by
  have hne : k ≠ r.hash := by
    rintro rfl
    rw [hnew] at hk
    cases hk
  simpa [ShardNode.putRootBlock, Function.update_of_ne hne] using hk

theorem requiresTxList_putRootBlock (hnew : s.chain.getRootBlockByHash r.hash = none)
    (hreq : requiresTxList s.chain h = true) :
    requiresTxList (s.putRootBlock r sh).chain h = true := by
  simp only [requiresTxList, Bool.and_eq_true, Option.any_eq_true] at hreq ⊢
  obtain ⟨hbranch, p, hp, hcond⟩ := hreq
  exact ⟨hbranch, p, putRootBlock_getRootBlockByHash hnew hp, hcond⟩

theorem HeaderInv.putRootBlock {r₀ : RootBlock} (hh : HeaderInv s r₀ h)
    (hnew : s.chain.getRootBlockByHash r.hash = none) (hne : r₀.hash ≠ r.hash) :
    HeaderInv (s.putRootBlock r sh) r₀ h := by
  have hreq : (s.putRootBlock r sh).required r₀.hash = s.required r₀.hash := by
    simp [ShardNode.putRootBlock, Function.update_of_ne hne]
  constructor
  · intro hr
    rw [hreq] at hr
    exact requiresTxList_putRootBlock hnew (hh.required hr)
  · intro hbranch hn
    obtain ⟨p, hp, hlist, hiff⟩ := hh.neighbor hbranch hn
    refine ⟨p, putRootBlock_getRootBlockByHash hnew hp, hlist, ?_⟩
    rw [hreq]
    exact hiff
  · intro hn hr
    rw [hreq] at hr
    exact hh.stranger hn hr

theorem HeaderInv.of_added (hinv : StoreInv s g) (hnew : s.chain.getRootBlockByHash r.hash = none)
    (hscan : h.branch ≠ s.chain.branch →
      ((s.chain.readCrossShardTxList h.hash).isSome = true ↔ requiresTxList s.chain h = true))
    (hagree : h.branch ≠ s.chain.branch → HeaderAgrees s.chain r h) :
    HeaderInv (s.putRootBlock r sh) r h := by
  have hreq : (s.putRootBlock r sh).required r.hash = requiresTxList s.chain := by
    simp [ShardNode.putRootBlock]
  constructor
  · intro hr
    rw [hreq] at hr
    exact requiresTxList_putRootBlock hnew hr
  · intro hbranch hn
    have hag := hagree hbranch
    change s.chain.isNeighbor h.branch r.number = true at hn
    rw [HeaderAgrees, if_pos hn] at hag
    obtain ⟨p, hp, hcond⟩ := hag
    have hlow := hinv.genesis_le hp
    have hiff : requiresTxList s.chain h = true ↔ s.chain.getGenesisRootHeight < p.number := by
      simp only [requiresTxList, hp, bne_iff_ne, ne_eq, Option.any_some, Bool.and_eq_true]
      constructor
      · rintro ⟨-, hne, -⟩
        omega
      · intro hlt
        exact ⟨hbranch, by omega, hcond.resolve_left (by omega)⟩
    refine ⟨p, putRootBlock_getRootBlockByHash hnew hp, (hscan hbranch).trans hiff, ?_⟩
    rw [hreq]
    exact hiff
  · intro hn hr
    rw [hreq] at hr
    have hbranch : h.branch ≠ s.chain.branch := by
      intro hown
      simp [requiresTxList, hown] at hr
    have hag := hagree hbranch
    change s.chain.isNeighbor h.branch r.number = false at hn
    rw [HeaderAgrees, hn] at hag
    exact hag hr

theorem StoreInv.putRootBlock (hinv : StoreInv s g)
    (hnew : s.chain.getRootBlockByHash r.hash = none)
    (hparent : ∃ p, s.chain.getRootBlockByHash r.parentHash = some p)
    (hscan : ∀ h ∈ r.minorBlockHeaders, h.branch ≠ s.chain.branch →
      ((s.chain.readCrossShardTxList h.hash).isSome = true ↔ requiresTxList s.chain h = true))
    (hagree : NodeEvent.Agrees s (.addRootBlock r)) : StoreInv (s.putRootBlock r sh) g := by
  have hself : (s.putRootBlock r sh).chain.getRootBlockByHash r.hash = some r := by
    simp [ShardNode.putRootBlock]
  have hcases : ∀ k r₀, (s.putRootBlock r sh).chain.getRootBlockByHash k = some r₀ →
      (k = r.hash ∧ r₀ = r) ∨ s.chain.getRootBlockByHash k = some r₀ := by
    intro k r₀ hk
    by_cases hkr : k = r.hash
    · subst hkr
      rw [hself] at hk
      exact .inl ⟨rfl, (Option.some.inj hk).symm⟩
    · right
      simpa [ShardNode.putRootBlock, Function.update_of_ne hkr] using hk
  have hmono : ∀ k r₀, s.chain.getRootBlockByHash k = some r₀ →
      (s.putRootBlock r sh).chain.getRootBlockByHash k = some r₀ :=
    fun k r₀ hk => putRootBlock_getRootBlockByHash hnew hk
  refine ⟨hinv.genesis, ?_, ?_, ?_⟩
  · intro k r₀ hk
    rcases hcases k r₀ hk with ⟨rfl, rfl⟩ | hk
    · rfl
    · exact hinv.keyed k r₀ hk
  · intro k r₀ hk
    rcases hcases k r₀ hk with ⟨rfl, rfl⟩ | hk
    · obtain ⟨p, hp⟩ := hparent
      obtain ⟨root, hlinked, hhead, hlast⟩ := hinv.rooted _ p hp
      refine ⟨root ++ [r₀], ?_, ?_, by simp⟩
      · exact (hlinked.mono hmono).concat hlast hself (hinv.keyed _ p hp).symm (hagree.1 p hp)
      · rw [List.head?_append, hhead, Option.some_or]
    · obtain ⟨root, hlinked, hhead, hlast⟩ := hinv.rooted k r₀ hk
      exact ⟨root, hlinked.mono hmono, hhead, hlast⟩
  · intro k r₀ hk h hh
    rcases hcases k r₀ hk with ⟨rfl, rfl⟩ | hk
    · exact .of_added hinv hnew (hscan h hh) (hagree.2 h hh)
    refine (hinv.headers k r₀ hk h hh).putRootBlock hnew ?_
    rw [hinv.keyed k r₀ hk]
    rintro rfl
    rw [hnew] at hk
    cases hk

theorem addCrossShardTxList_read (k' : Hash) :
    (s.addCrossShardTxListByMinorBlockHash k txList).chain.readCrossShardTxList k' =
      if k' = k then some txList else s.chain.readCrossShardTxList k' := by
  simp [ShardNode.addCrossShardTxListByMinorBlockHash, Function.update_apply]

theorem StoreInv.addCrossShardTxList (hinv : StoreInv s g)
    (hagree : NodeEvent.Agrees s (.addCrossShardTxList k txList)) :
    StoreInv (s.addCrossShardTxListByMinorBlockHash k txList) g := by
  refine ⟨hinv.genesis, hinv.keyed, ?_, ?_⟩
  · intro k' r hk'
    obtain ⟨root, hlinked, hhead, hlast⟩ := hinv.rooted k' r hk'
    exact ⟨root, hlinked.mono fun _ _ => id, hhead, hlast⟩
  · intro k' r hk' h hh
    have hold := hinv.headers k' r hk' h hh
    refine ⟨hold.required, ?_, ?_⟩
    · intro hbranch hn
      obtain ⟨p, hp, hlist, hiff⟩ := hold.neighbor hbranch hn
      refine ⟨p, hp, ?_, hiff⟩
      rw [addCrossShardTxList_read]
      by_cases hkey : h.hash = k
      · have hreq := hagree k' r hk' h hh hkey hbranch
        change s.chain.isNeighbor h.branch r.number = true at hn
        rw [if_pos hn] at hreq
        have hlow := hinv.genesis_le hp
        have hne : p.number ≠ s.chain.getGenesisRootHeight := by
          simp only [requiresTxList, hp, Option.any_some, Bool.and_eq_true, bne_iff_ne] at hreq
          exact hreq.2.1
        have hlt : s.chain.getGenesisRootHeight < p.number := by omega
        rw [if_pos hkey]
        exact iff_of_true rfl hlt
      · rw [if_neg hkey]
        exact hlist
    · intro hn hr
      rw [addCrossShardTxList_read]
      by_cases hkey : h.hash = k
      · have hreq := hold.required hr
        have hbranch : h.branch ≠ s.chain.branch := by
          intro hown
          simp [requiresTxList, hown] at hreq
        have hguard := hagree k' r hk' h hh hkey hbranch
        change s.chain.isNeighbor h.branch r.number = false at hn
        rw [hn] at hguard
        rw [if_pos hkey, hguard hreq]
      · rw [if_neg hkey]
        exact hold.stranger hn hr

theorem StoreInv.init {config : QuarkChainConfig} {branch : Branch} {gBlock : MinorBlockHeader}
    {txLists : Hash → Option (List CrossShardTransactionDeposit)}
    (hinit : ShardNode.initGenesisState config branch txLists g gBlock = some s)
    (hagree : GenesisAgrees s g) : StoreInv s g := by
  unfold ShardNode.initGenesisState at hinit
  split_ifs at hinit with hnum
  cases hinit
  have hstored : ∀ k r, Function.update (fun _ => none) g.hash (some g) k = some r → k = g.hash ∧ r = g := by
    intro k r hk
    by_cases hkg : k = g.hash
    · subst hkg
      exact ⟨rfl, by simpa using hk.symm⟩
    · simp [Function.update_of_ne hkg] at hk
  refine ⟨not_not.mp hnum, ?_, ?_, ?_⟩
  · intro k r hk
    obtain ⟨rfl, rfl⟩ := hstored k r hk
    rfl
  · intro k r hk
    obtain ⟨rfl, rfl⟩ := hstored k r hk
    exact ⟨[r], .one (by simp), rfl, rfl⟩
  · intro k r hk h hh
    obtain ⟨rfl, rfl⟩ := hstored k r hk
    refine ⟨nofun, ?_, nofun⟩
    intro hbranch hn
    rw [hagree h hh hbranch] at hn
    cases hn

/-- **Traversals of accepted root blocks are sound** in every state of a run whose steps meet the condition. -/
theorem traversalSound_of_reaches {s₀ : ShardNode} {config : QuarkChainConfig} {branch : Branch}
    {gBlock : MinorBlockHeader} {txLists : Hash → Option (List CrossShardTransactionDeposit)}
    (hinit : ShardNode.initGenesisState config branch txLists g gBlock = some s₀)
    (hgenesis : GenesisAgrees s₀ g)
    (hrun : Reaches NodeStep (fun s e => NodeEvent.Agrees s e) s₀ s) : TraversalSound s g := by
  refine StoreInv.traversalSound
    (hrun.induct_inv (StoreInv · g) (StoreInv.init hinit hgenesis) ?_)
  intro s e s' hinv hguard hstep
  cases hstep with
  | addRootBlock hok =>
    rcases addRootBlock_cases hok with rfl | ⟨-, hnew, hparent, hscan, sh, rfl⟩
    · exact hinv
    · exact hinv.putRootBlock hnew hparent hscan hguard
  | addCrossShardTxList => exact hinv.addCrossShardTxList hguard
  | putMinorBlock => exact ⟨hinv.genesis, hinv.keyed, hinv.rooted, fun k r hk h hh =>
      let hold := hinv.headers k r hk h hh
      ⟨hold.required, hold.neighbor, hold.stranger⟩⟩

/-! ### A shard created late -/

def lateConfig : QuarkChainConfig where
  shards := [⟨0, 1, 0, some ⟨1, 12000000⟩, 8⟩, ⟨1, 1, 0, some ⟨0, 12000000⟩, 8⟩]
  defaultChainTokenID := 35760
  xShardGasDDOSFixRootHeight := 90000
  shards_nodup := by decide

def lateGenesis : RootBlock where
  hash := 0x11
  parentHash := 0x10
  number := 1
  coinbase := ⟨0xcc, 0⟩
  coinbaseAmount := ∅
  minorBlockHeaders := []

def lateGenesisBlock : MinorBlockHeader where
  hash := 0x60
  parentHash := 0
  number := 0
  branch := ⟨1⟩
  prevRootBlockHash := 0x11

def lateNode : ShardNode :=
  (ShardNode.initGenesisState lateConfig ⟨1⟩ (fun _ => none) lateGenesis lateGenesisBlock).get rfl

def lateRootBlock (prevRootBlockHash : Hash) : RootBlock where
  hash := 0x12
  parentHash := 0x11
  number := 2
  coinbase := ⟨0xcc, 0⟩
  coinbaseAmount := ∅
  minorBlockHeaders :=
    [{ hash := 0x50, parentHash := 0x4f, number := 1, branch := ⟨0x10001⟩, prevRootBlockHash }]

/-- When the header's prev-root block is the shard's genesis root block, traversals are sound. -/
theorem traversalSound_lateRootBlock :
    ∃ s, lateNode.addRootBlock (lateRootBlock 0x11) = .ok s ∧ TraversalSound s lateGenesis := by
  refine ⟨_, rfl, ?_⟩
  have hinit : ShardNode.initGenesisState lateConfig ⟨1⟩ (fun _ => none) lateGenesis
      lateGenesisBlock = some lateNode := rfl
  have hadd : NodeStep lateNode (.addRootBlock (lateRootBlock 0x11))
      (lateNode.putRootBlock (lateRootBlock 0x11) none) := .addRootBlock rfl
  refine traversalSound_of_reaches hinit ?_ (.step .start ?_ hadd)
  · simp [GenesisAgrees, lateGenesis]
  · refine ⟨?_, ?_⟩
    · intro p hp
      cases hp
      rfl
    · intro h hh _
      cases List.mem_singleton.mp hh
      exact ⟨lateGenesis, rfl, .inl rfl⟩

/-- **A root block that is accepted and then stops the cursor.**  The second shard's header has its prev-root block
at height `0`, which the first shard never stored. -/
theorem late_shard_traversal_stops :
    ∃ s, lateNode.addRootBlock (lateRootBlock 0x10) = .ok s ∧ ¬ TraversalSound s lateGenesis := by
  refine ⟨_, rfl, ?_⟩
  intro hsound
  obtain ⟨root, -, -, -, hstart, hall⟩ := hsound 0x12 (lateRootBlock 0x10) rfl
  obtain ⟨x, l, hnew, hyields, -⟩ := hall _ hstart
  cases hnew
  obtain ⟨l₁, -, hyields₁⟩ := hyields.tail rfl
  obtain ⟨l₂, -, hyields₂⟩ := hyields₁.tail rfl
  exact hyields₂.ne_error (e := .nilPrevRootBlock) rfl

end QuarkChain.XShard
