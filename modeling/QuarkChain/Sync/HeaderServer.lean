/-
# The header server of the master

How a node answers a request for root headers that are spread over its canonical chain:
`HandleGetRootBlockHeaderListWithSkipRequest` of `src/cluster/master/handle.go`.  A request names its first
header by hash or by height, a direction, how many headers to leave out between two, and how many to send at
most.  Heights are 32 bits wide, and so is the step, which is zero for the largest skip.

`Canonical` is the chain behind the answers; the root chain with an exact index is one (`rootSource_canonical`).
The headers that a request asks for are those on its route (`routeHeaders`).  The loop takes the same
steps, but modulo `2 ^ 32`: it stops at a height above the tip, and a step that leaves the route on one side can
come back to it on the other.  `rootReply_exact_iff` says when that does not happen.
-/
import QuarkChain.P2p.Messages
import QuarkChain.Sync.Ancestor

namespace QuarkChain.Sync

open BlockTree QuarkChain.Types Root
open P2p (GetRootBlockHeaderListWithSkipRequest)

/-- `common.DirectionToGenesis`, `DirectionToTip`, `SkipHash` and `SkipHeight`. -/
def directionToGenesis : ℕ := 0
def directionToTip : ℕ := 1
def skipHash : ℕ := 0
def skipHeight : ℕ := 1

/-- `GetHeight` of a request with heights of `w` bits. -/
def heightOfData (w : ℕ) (data : Hash) : ℕ := data.toNat % 2 ^ w

/-- What a server reads of its chain: `CurrentHeader`, `GetHeader` and `ReadCanonicalHash`. -/
structure HeaderSource (β : Type) where
  currentHeader : β
  getHeader : Hash → Option β
  canonicalHash : ℕ → Option Hash

/-- The checks of a request that can fail. -/
inductive ServerError
  | badLimit
  | badDirection
  | badType
deriving DecidableEq

variable {β : Type} [Chained Hash β]

namespace HeaderSource

def getHeaderByNumber (c : HeaderSource β) (height : ℕ) : Option β :=
  (c.canonicalHash height).bind c.getHeader

/-- The loop of the server, over heights of `w` bits. -/
def listHeaders (w : ℕ) (c : HeaderSource β) (skip direction : ℕ) : ℕ → ℕ → List β
  | 0, _ => []
  | limit + 1, height =>
      if height ≤ number c.currentHeader then
        match c.getHeaderByNumber height with
        | none => []
        | some header =>
            header :: listHeaders w c skip direction limit
              (if direction = directionToGenesis then subU w height (incU w skip)
              else (height + incU w skip) % 2 ^ w)
      else []

def handleGetRootBlockHeaderListWithSkipRequest (c : HeaderSource RootBlock)
    (request : GetRootBlockHeaderListWithSkipRequest) : Except ServerError RootReply :=
  if request.limit = 0 ∨ request.limit > 2 * rootBlockHeaderListLimit then .error .badLimit
  else if request.direction ≠ directionToGenesis ∧ request.direction ≠ directionToTip then
    .error .badDirection
  else if request.type ≠ skipHash ∧ request.type ≠ skipHeight then .error .badType
  else
    let headersFrom := listHeaders 32 c request.skip request.direction request.limit
    if request.type = skipHeight then
      .ok ⟨c.currentHeader, headersFrom (heightOfData 32 request.data)⟩
    else
      match c.getHeader request.data with
      | none => .ok ⟨c.currentHeader, []⟩
      | some header =>
          -- only a header of the canonical chain is answered
          if (c.getHeaderByNumber header.number).any fun h => h.hash == header.hash then
            .ok ⟨c.currentHeader, headersFrom header.number⟩
          else .ok ⟨c.currentHeader, []⟩

end HeaderSource

/-- The canonical chain of a server: one header for every height up to the tip, each the parent of the
next. -/
structure Canonical (c : HeaderSource β) (headerAt : ℕ → β) : Prop where
  current : headerAt (number c.currentHeader) = c.currentHeader
  byNumber : ∀ {h}, h ≤ number c.currentHeader → c.getHeaderByNumber h = some (headerAt h)
  number_eq : ∀ {h}, h ≤ number c.currentHeader → number (headerAt h) = h
  linked : ∀ {h}, h < number c.currentHeader →
    parentHash (headerAt (h + 1)) = blockHash (headerAt h)

def rootSource (s : RootBlockChain) : HeaderSource RootBlock :=
  ⟨s.currentBlock, s.getBlock, s.canonicalHash⟩

/-- **A root chain with an exact index serves a canonical chain**, the ancestors of its head. -/
theorem rootSource_canonical {g : RootBlock} {s : RootBlockChain} (hw : Wf g s) (hf : ForkChoice s) :
    Canonical (rootSource s) fun h => (atHeight s.getBlock s.currentBlock h).getD s.currentBlock := by
  have hroot : Rooted s.getBlock s.currentBlock := hw.rooted hw.current
  have hindex : Indexes s.getBlock s.canonicalHash s.currentBlock :=
    ((forkChoice_iff_indexes hw).mp hf).2
  refine ⟨?_, fun {h} hle => ?_, fun {h} hle => ?_, fun {h} hlt => ?_⟩
  · change (atHeight s.getBlock s.currentBlock (number s.currentBlock)).getD _ = s.currentBlock
    rw [atHeight_self]
    rfl
  · obtain ⟨a, ha, -⟩ := hroot.atHeight_exists hle
    have hstored := hw.consistent.stored_of_descends hw.current (descends_of_atHeight ha)
    change (s.canonicalHash h).bind s.getBlock = _
    rw [hindex h, ha]
    exact hstored
  · obtain ⟨a, ha, hn⟩ := hroot.atHeight_exists hle
    rw [ha, Option.getD_some, hn]
  · obtain ⟨a, b, ha, hb, hp⟩ := hroot.atHeight_succ hlt
    rw [ha, hb, Option.getD_some, Option.getD_some, hw.consistent.keyed hp]

/-! ### Headers on a route -/

section Route

variable {c : HeaderSource β} {headerAt : ℕ → β} {w skip direction start tip n j m limit : ℕ}

/-- The height after `j` steps of the loop; a step down is a step up by the complement. -/
def stepped (w skip direction start j : ℕ) : ℕ :=
  (start + j * (if direction = directionToGenesis then 2 ^ w - (skip + 1) else skip + 1)) % 2 ^ w

theorem stepped_succ (hskip : skip < 2 ^ w) :
    (if direction = directionToGenesis then subU w (stepped w skip direction start j) (incU w skip)
      else (stepped w skip direction start j + incU w skip) % 2 ^ w) =
      stepped w skip direction start (j + 1) := by
  rw [stepped, stepped, incU, Nat.succ_mul, ← Nat.add_assoc, ← Nat.mod_add_mod (start + j * _)]
  generalize (start + j * _) % 2 ^ w = height
  split_ifs
  · rw [subU]
    rcases Nat.lt_or_ge (skip + 1) (2 ^ w) with hlt | hge
    · rw [Nat.mod_eq_of_lt hlt, Nat.add_sub_assoc hlt.le]
    · rw [show skip + 1 = 2 ^ w by omega, Nat.mod_self, Nat.sub_zero, Nat.sub_self, Nat.add_mod_right,
        Nat.add_zero]
  · rw [Nat.add_mod_mod]

theorem listHeaders_steps (hc : Canonical c headerAt) (hskip : skip < 2 ^ w)
    (hn : ∀ j < n, stepped w skip direction start j ≤ number c.currentHeader) (m : ℕ) :
    c.listHeaders w skip direction (n + m) (stepped w skip direction start 0) =
      ((List.range n).map fun j => headerAt (stepped w skip direction start j)) ++
        c.listHeaders w skip direction m (stepped w skip direction start n) := by
  induction n generalizing m with
  | zero => rw [Nat.zero_add, List.range_zero, List.map_nil, List.nil_append]
  | succ n ih =>
    have hle := hn n (by omega)
    rw [show n + 1 + m = n + (m + 1) by omega, ih (fun j hj => hn j (by omega)), HeaderSource.listHeaders,
      if_pos hle, hc.byNumber hle, stepped_succ hskip, List.range_succ, List.map_append, List.append_assoc]
    rfl

/-- The height `k` steps from the start, if it is between genesis and the tip. -/
def onRoute (tip skip direction start k : ℕ) : Option ℕ :=
  if direction = directionToGenesis then
    if k * (skip + 1) ≤ start then some (start - k * (skip + 1)) else none
  else if start + k * (skip + 1) ≤ tip then some (start + k * (skip + 1)) else none

def routeLength (tip skip direction start : ℕ) : ℕ :=
  (if direction = directionToGenesis then start else tip - start) / (skip + 1) + 1

/-- No step leaves the route, or the first that does reaches no height up to the tip in 32 bits. -/
def StaysOff (tip skip direction start limit : ℕ) : Prop :=
  let n := routeLength tip skip direction start
  limit ≤ n ∨ if direction = directionToGenesis then tip + n * (skip + 1) < 2 ^ 32 + start
    else start + n * (skip + 1) < 2 ^ 32

theorem onRoute_eq (hstart : start ≤ tip) (htip : tip < 2 ^ w) (hskip : skip < 2 ^ w) :
    onRoute tip skip direction start j = if j < routeLength tip skip direction start then
      some (stepped w skip direction start j) else none := by
  unfold onRoute routeLength stepped
  simp only [Nat.lt_succ_iff, Nat.le_div_iff_mul_le (Nat.succ_pos skip)]
  by_cases hdir : direction = directionToGenesis
  · simp only [if_pos hdir]
    split_ifs with h
    · have := Nat.mul_le_mul_left j (show skip + 1 ≤ 2 ^ w from hskip)
      rw [Nat.mul_sub, show start + (j * 2 ^ w - j * (skip + 1)) = start - j * (skip + 1) + j * 2 ^ w by omega,
        Nat.add_mul_mod_self_right, Nat.mod_eq_of_lt (by omega)]
    · rfl
  · simp only [if_neg hdir, show start + j * (skip + 1) ≤ tip ↔ j * (skip + 1) ≤ tip - start by omega]
    split_ifs with h
    · rw [Nat.mod_eq_of_lt (by omega)]
    · rfl

theorem staysOff_iff (hstart : start ≤ tip) (htip : tip < 2 ^ 32) (hskip : skip < 2 ^ 32) :
    StaysOff tip skip direction start limit ↔ limit ≤ routeLength tip skip direction start ∨
      tip < stepped 32 skip direction start (routeLength tip skip direction start) := by
  -- the first multiple of the step above a number
  have hover : ∀ x, x < (x / (skip + 1) + 1) * (skip + 1) ∧
      (x / (skip + 1) + 1) * (skip + 1) ≤ x + (skip + 1) := fun x =>
    ⟨Nat.mul_comm .. ▸ Nat.lt_mul_div_succ x (Nat.succ_pos skip), by
      rw [Nat.succ_mul]
      exact Nat.add_le_add_right (Nat.div_mul_le_self _ _) _⟩
  refine or_congr_right ?_
  unfold routeLength stepped
  by_cases hdir : direction = directionToGenesis
  · simp only [if_pos hdir]
    obtain ⟨hlt, hle⟩ := hover start
    have := Nat.mul_le_mul_left (start / (skip + 1) + 1) (show skip + 1 ≤ 2 ^ 32 from hskip)
    rw [Nat.mul_sub]
    omega
  · simp only [if_neg hdir]
    obtain ⟨hlt, hle⟩ := hover (tip - start)
    omega

end Route

def routeHeaders (headerAt : ℕ → β) (tip skip direction start limit : ℕ) : List β :=
  (List.range limit).filterMap fun k => (onRoute tip skip direction start k).map headerAt

theorem listHeaders_eq_routeHeaders_iff {c : HeaderSource β} {headerAt : ℕ → β} {skip direction start : ℕ}
    (hc : Canonical c headerAt) (htip : number c.currentHeader < 2 ^ 32) (hskip : skip < 2 ^ 32)
    (hstart : start ≤ number c.currentHeader) (limit : ℕ) :
    c.listHeaders 32 skip direction limit start =
        routeHeaders headerAt (number c.currentHeader) skip direction start limit ↔
      StaysOff (number c.currentHeader) skip direction start limit := by
  rw [staysOff_iff hstart htip hskip]
  have hroute : ∀ j, onRoute (number c.currentHeader) skip direction start j = _ :=
    fun j => onRoute_eq hstart htip hskip
  generalize routeLength (number c.currentHeader) skip direction start = n at hroute ⊢
  have hin : ∀ k ≤ n, routeHeaders headerAt (number c.currentHeader) skip direction start k =
      (List.range k).map fun j => headerAt (stepped 32 skip direction start j) := by
    intro k hk
    rw [← List.filterMap_eq_map]
    refine List.filterMap_congr fun j hj => ?_
    rw [hroute, if_pos ((List.mem_range.mp hj).trans_le hk)]
    rfl
  have hle : ∀ j < n, stepped 32 skip direction start j ≤ number c.currentHeader := by
    intro j hj
    have h := hroute j
    rw [if_pos hj, onRoute] at h
    split_ifs at h <;> have := Option.some.inj h <;> omega
  have hzero : stepped 32 skip direction start 0 = start := by
    rw [stepped, Nat.zero_mul, Nat.add_zero, Nat.mod_eq_of_lt (by omega)]
  rcases Nat.lt_or_ge n limit with hlt | hge
  · obtain ⟨m, rfl⟩ := Nat.exists_eq_add_of_lt hlt
    have hout : routeHeaders headerAt (number c.currentHeader) skip direction start (n + m + 1) =
        routeHeaders headerAt (number c.currentHeader) skip direction start n := by
      rw [routeHeaders, routeHeaders, Nat.add_assoc, List.range_add, List.filterMap_append, List.append_right_eq_self,
        List.filterMap_eq_nil_iff]
      intro j hj
      obtain ⟨i, -, rfl⟩ := List.mem_map.mp hj
      rw [hroute, if_neg (by omega)]
      rfl
    have hsteps := listHeaders_steps hc hskip hle (m + 1)
    rw [hzero] at hsteps
    rw [hout, hin n le_rfl, Nat.add_assoc, hsteps, List.append_right_eq_self, HeaderSource.listHeaders]
    rcases Nat.lt_or_ge (number c.currentHeader) (stepped 32 skip direction start n) with hoff | hon
    · rw [if_neg (by omega)]
      exact iff_of_true rfl (.inr hoff)
    · rw [if_pos hon, hc.byNumber hon]
      exact iff_of_false nofun (by omega)
  · have hsteps := listHeaders_steps hc hskip (fun j hj => hle j (hj.trans_le hge)) 0
    rw [hzero, HeaderSource.listHeaders, List.append_nil] at hsteps
    exact iff_of_true (hsteps.trans (hin limit hge).symm) (.inl hge)

/-- A request that the root server accepts, for the canonical header at height `start`. -/
structure StartsAt (c : HeaderSource RootBlock) (headerAt : ℕ → RootBlock)
    (request : GetRootBlockHeaderListWithSkipRequest) (start : ℕ) : Prop where
  limit_pos : 0 < request.limit
  limit_le : request.limit ≤ 2 * rootBlockHeaderListLimit
  skip_lt : request.skip < 2 ^ 32
  direction : request.direction = directionToGenesis ∨ request.direction = directionToTip
  start_le : start ≤ c.currentHeader.number
  start : request.type = skipHeight ∧ heightOfData 32 request.data = start ∨
    request.type = skipHash ∧ c.getHeader request.data = some (headerAt start)

/-- **The reply of the root server** is exactly the headers on the route, in order, if and only if the step
that leaves the route does not come back to it by wrapping around. -/
theorem rootReply_exact_iff {c : HeaderSource RootBlock} {headerAt : ℕ → RootBlock}
    {request : GetRootBlockHeaderListWithSkipRequest} {start : ℕ} (hc : Canonical c headerAt)
    (htip : c.currentHeader.number < 2 ^ 32) (h : StartsAt c headerAt request start) :
    c.handleGetRootBlockHeaderListWithSkipRequest request = .ok ⟨c.currentHeader,
        routeHeaders headerAt c.currentHeader.number request.skip request.direction start request.limit⟩ ↔
      StaysOff c.currentHeader.number request.skip request.direction start request.limit := by
  have hreply : c.handleGetRootBlockHeaderListWithSkipRequest request = .ok ⟨c.currentHeader,
      c.listHeaders 32 request.skip request.direction request.limit start⟩ := by
    have := h.limit_pos
    have := h.limit_le
    rw [HeaderSource.handleGetRootBlockHeaderListWithSkipRequest, if_neg (by omega), if_neg (by
      have := h.direction
      tauto)]
    rcases h.start with ⟨htype, rfl⟩ | ⟨htype, hget⟩
    · rw [if_neg (by tauto), if_pos htype]
    · have hnum : (headerAt start).number = start := hc.number_eq h.start_le
      rw [if_neg (by tauto), if_neg (by rw [htype]; decide), hget]
      simp only [hnum, hc.byNumber h.start_le]
      rw [if_pos (by simp)]
  rw [hreply, Except.ok.injEq, RootReply.mk.injEq, eq_self, true_and]
  exact listHeaders_eq_routeHeaders_iff hc htip h.skip_lt h.start_le request.limit

/-- A server with the heights `0` to `5` of a row of blocks as its chain, and a block beside it. -/
def rowSource : HeaderSource RootBlock where
  currentHeader := rowBlock 5
  getHeader := ofList forkedRow
  canonicalHash h := if h ≤ 5 then some (rowBlock h).hash else none

theorem rowSource_canonical : Canonical rowSource rowBlock where
  current := rfl
  byNumber {h} hle :=
    (by decide : ∀ h ≤ 5, rowSource.getHeaderByNumber h = some (rowBlock h)) h hle
  number_eq _ := rfl
  linked _ := rfl

/-- Every second header from the tip down to genesis: the limit would allow for one more, and the step below
height `1` reaches no height. -/
theorem rowSource_reply_exact :
    rowSource.handleGetRootBlockHeaderListWithSkipRequest
        ⟨skipHash, (rowBlock 5).hash, 4, 1, directionToGenesis⟩ =
      .ok ⟨rowBlock 5, [rowBlock 5, rowBlock 3, rowBlock 1]⟩ :=
  (rootReply_exact_iff rowSource_canonical (by decide) (show StartsAt _ _ _ 5 from
    ⟨by decide, by decide, by decide, .inl rfl, le_rfl, .inr ⟨rfl, by decide⟩⟩)).mpr (.inr (by decide))

/-- **A header is sent twice.**  The step that a request with the largest `skip` asks for is zero in 32
bits. -/
theorem largest_skip_repeats :
    ((rootSource (.genesis sampleGenesis fun _ => none)).handleGetRootBlockHeaderListWithSkipRequest
      ⟨skipHeight, 0, 2, 2 ^ 32 - 1, directionToTip⟩).toOption.map RootReply.blockHeaderList =
      some [sampleGenesis, sampleGenesis] := by
  decide +kernel

end QuarkChain.Sync
