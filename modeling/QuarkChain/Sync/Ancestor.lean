/-
# The search for a common ancestor

`findAncestor` of `src/cluster/sync/root_task.go` and `src/cluster/sync/minor_task.go`: a node that
wants to catch up asks a peer for headers spread over an interval of heights, and narrows the interval
from the answers until it knows a header both have.

The two searches are one loop (`search`) and differ in the width of a height, in the check of a reply
(`SearchParams.download`), and in the check of the order.  The peer is a sequence of arbitrary replies.  Every
round that goes on has shrunk the interval, except that an unknown header of height zero wraps its end around;
the next request then asks for no headers, and no reply to that is accepted (`SearchParams.wrapped`).  So the
search stops (`search_spec`).

What it can stop with is nothing: when every header down to the lower end is unknown, no ancestor has
been seen, and the caller dereferences it.
-/
import QuarkChain.Root.Unconfirmed

namespace QuarkChain.Sync

open BlockTree QuarkChain.Types Root

def incU (w x : ℕ) : ℕ := (x + 1) % 2 ^ w

def subU (w x y : ℕ) : ℕ := (x + 2 ^ w - y) % 2 ^ w

theorem incU_of_lt {w x : ℕ} (h : x + 1 < 2 ^ w) : incU w x = x + 1 := Nat.mod_eq_of_lt h

theorem subU_of_le {w x y : ℕ} (h : y ≤ x) (hx : x < 2 ^ w) : subU w x y = x - y := by
  rw [subU, show x + 2 ^ w - y = x - y + 2 ^ w by omega, Nat.add_mod_right]
  exact Nat.mod_eq_of_lt (by omega)

theorem subU_zero_one {w : ℕ} : subU w 0 1 = 2 ^ w - 1 := by
  have := Nat.one_le_two_pow (n := w)
  rw [subU, Nat.zero_add]
  exact Nat.mod_eq_of_lt (by omega)

inductive SyncError
  | peer
  | lowerTotalDifficulty
  | emptyHeaders
  | incorrectNumber
  | outOfRange
  | mustBeOrdered
  | badOrder
  | badAncestor
  | ancestorTotalDifficulty
  | incorrectCanonicalHeaders
  | shouldHaveStepOne
  | shouldBeLinked
  | invalidSeal
  | unmatchedBlockLength
  | syncBlock
  | addBlock
deriving DecidableEq

/-- How a sync task can end without success: with an error, with the dereference of a nil header, or
not at all within the rounds it is given. -/
inductive SyncStop
  | error (e : SyncError)
  | nilDereference
  | outOfFuel
deriving DecidableEq

/-- The heights still possible, `end` being `stop`, and the best ancestor seen. -/
structure Interval (β : Type) where
  start : ℕ
  stop : ℕ
  bestAncestor : Option β := none

variable {β τ ρ : Type} [Chained Hash β]

/-- The inner loop: the headers of a reply, from the highest on. -/
def scan (w : ℕ) (outOfOrder : ℕ → ℕ → Bool) (hasBlock : Hash → Bool) :
    List β → Option β → Interval β → Except SyncError (β ⊕ Interval β)
  | [], _, i => .ok (.inr i)
  | rh :: rest, preHeader, i =>
      if number rh < i.start ∨ number rh > i.stop then .error .outOfRange
      else if preHeader.any fun pre => outOfOrder (number rh) (number pre) then .error .mustBeOrdered
      else if hasBlock (blockHash rh) = false then
        scan w outOfOrder hasBlock rest (some rh) { i with stop := subU w (number rh) 1 }
      else if number rh = i.stop then .ok (.inl rh)
      else if incU w (number rh) > i.stop then .error .badOrder
      else .ok (.inr { start := incU w (number rh), stop := i.stop, bestAncestor := some rh })

/-- What the two searches differ in: the width of a height, the order that is refused, and the check of a reply,
which may also change what the task aims at. -/
structure SearchParams (β τ ρ : Type) where
  width : ℕ
  outOfOrder : ℕ → ℕ → Bool
  download : τ → ℕ → ℕ → ρ → Except SyncError (List β × τ)
  two_le_width : 2 ≤ width
  below_zero : ∀ a, outOfOrder a 0 = false → a = 0
  nonempty : ∀ {t start stop r l t'}, download t start stop r = .ok (l, t') → l ≠ []
  wrapped : ∀ t start r, start = 0 ∨ start = 1 ∧ outOfOrder 0 0 = false →
    ∃ e, download t start (2 ^ width - 1) r = .error e

/-- The outer loop, on the replies of the peer to its requests; `fuel` is the number of requests it
may make. -/
def search (p : SearchParams β τ ρ) (hasBlock : Hash → Bool) (replies : ℕ → Option ρ) :
    ℕ → ℕ → τ → Interval β → Except SyncStop (Option β × τ)
  | fuel, request, target, i =>
      if i.stop < i.start then .ok (i.bestAncestor, target)
      else
        match fuel with
        | 0 => .error .outOfFuel
        | fuel + 1 =>
            match replies request with
            | none => .error (.error .peer)
            | some r =>
                match p.download target i.start i.stop r with
                | .error e => .error (.error e)
                | .ok (headers, target) =>
                    match scan p.width p.outOfOrder hasBlock headers.reverse none i with
                    | .error e => .error (.error e)
                    | .ok (.inl ancestor) => .ok (some ancestor, target)
                    | .ok (.inr i) => search p hasBlock replies fuel (request + 1) target i

def startInterval (tip target maxSyncStaleness : ℕ) : Interval β where
  start := tip - maxSyncStaleness
  stop := min tip target

/-! ### One round -/

section Round

variable {w : ℕ} {outOfOrder : ℕ → ℕ → Bool} {hasBlock : Hash → Bool} {l : List β} {pre : Option β}
  {i i' : Interval β}

theorem scan_from {P : β → Prop} (hl : ∀ h ∈ l, hasBlock (blockHash h) = true → P h)
    (hbest : ∀ b, i.bestAncestor = some b → P b) : Outcome.Post (scan w outOfOrder hasBlock l pre i)
      (Sum.elim P fun i' => ∀ b, i'.bestAncestor = some b → P b) fun _ => True := by
  induction l generalizing pre i with
  | nil => exact hbest
  | cons rh rest ih =>
    rw [List.forall_mem_cons] at hl
    rw [scan]
    split_ifs with _ _ hhas
    · trivial
    · trivial
    · exact ih hl.2 hbest
    · exact hl.1 (by simpa using hhas)
    · trivial
    · intro b hb
      cases hb
      exact hl.1 (by simpa using hhas)

/-- The end of an interval wraps around below an unknown header of height zero. -/
structure Wrapped (w : ℕ) (outOfOrder : ℕ → ℕ → Bool) (i : Interval β) : Prop where
  stop : i.stop = 2 ^ w - 1
  start : i.start = 0 ∨ i.start = 1 ∧ outOfOrder 0 0 = false

/-- The best ancestor after some rounds: the one before, or a block the chain has, above which the
interval now starts. -/
def Improves (hasBlock : Hash → Bool) (i i' : Interval β) : Prop :=
  i'.bestAncestor = i.bestAncestor ∧ i'.start = i.start ∨
    ∃ b, i'.bestAncestor = some b ∧ hasBlock (blockHash b) = true

/-- The interval has become smaller. -/
structure Shrinks (i i' : Interval β) : Prop where
  start_le : i.start ≤ i'.start
  stop_le : i'.stop ≤ i.stop
  lt : i'.stop + 1 - i'.start < i.stop + 1 - i.start

theorem scan_wrapped (hw : 2 ≤ w) (hzero : ∀ a, outOfOrder a 0 = false → a = 0) {p : β}
    (hp : number p = 0) (hstart : i.start = 0) (hstop : i.stop = 2 ^ w - 1)
    (hs : scan w outOfOrder hasBlock l (some p) i = .ok (.inr i')) :
    Wrapped w outOfOrder i' ∧ Improves hasBlock i i' := by
  have hpow : 2 ^ 2 ≤ 2 ^ w := Nat.pow_le_pow_right (by omega) hw
  induction l generalizing p i with
  | nil =>
    cases hs
    exact ⟨⟨hstop, .inl hstart⟩, .inl ⟨rfl, rfl⟩⟩
  | cons rh rest ih =>
    rw [scan] at hs
    split_ifs at hs with hrange horder hhas hend hbad
    all_goals
      simp only [Option.any_some, hp] at horder
      have hrh : number rh = 0 := hzero _ (by simpa using horder)
    · have hpred : subU w (number rh) 1 = 2 ^ w - 1 := by rw [hrh, subU_zero_one]
      obtain ⟨hwr, him⟩ := @ih { i with stop := subU w (number rh) 1 } rh hrh hstart hpred hs
      exact ⟨hwr, him⟩
    · cases hs
    · cases hs
      have hinc : incU w (number rh) = 1 := by rw [hrh, incU_of_lt (by omega)]
      rw [hrh] at horder
      exact ⟨⟨hstop, .inr ⟨hinc, by simpa using horder⟩⟩, .inr ⟨rh, rfl, by simpa using hhas⟩⟩

/-- **One reply.**  If the search goes on after it, then with a smaller interval, or with one whose end
has wrapped around. -/
theorem scan_next (hw : 2 ≤ w) (hzero : ∀ a, outOfOrder a 0 = false → a = 0)
    (hstop : i.stop < 2 ^ w) (hne : l ≠ [])
    (hs : scan w outOfOrder hasBlock l pre i = .ok (.inr i')) :
    (Shrinks i i' ∨ Wrapped w outOfOrder i') ∧ Improves hasBlock i i' := by
  induction l generalizing pre i with
  | nil => exact absurd rfl hne
  | cons rh rest ih =>
    rw [scan] at hs
    split_ifs at hs with hrange horder hhas hend hbad
    · -- an unknown header: the interval now ends below it
      rcases Nat.eq_zero_or_pos (number rh) with hz | hpos
      · have hpred : subU w (number rh) 1 = 2 ^ w - 1 := by rw [hz, subU_zero_one]
        obtain ⟨hwr, him⟩ := @scan_wrapped _ _ w outOfOrder hasBlock rest
          { i with stop := subU w (number rh) 1 } i' hw hzero rh hz (by simp only; omega) hpred hs
        exact ⟨.inr hwr, him⟩
      have hpred : subU w (number rh) 1 = number rh - 1 := subU_of_le hpos (by omega)
      rw [hpred] at hs
      have hone : Shrinks i { i with stop := number rh - 1 } :=
        ⟨le_rfl, by simp only; omega, by simp only; omega⟩
      cases rest with
      | nil =>
        cases hs
        exact ⟨.inl hone, .inl ⟨rfl, rfl⟩⟩
      | cons r rest =>
        obtain ⟨hsh, him⟩ := ih (by simp only; omega) (by simp) hs
        refine ⟨hsh.imp_left fun h => ⟨h.start_le, h.stop_le.trans hone.stop_le,
          h.lt.trans hone.lt⟩, him⟩
    · cases hs
    · -- a known header: the interval now starts above it
      cases hs
      have hinc : incU w (number rh) = number rh + 1 := incU_of_lt (by omega)
      refine ⟨.inl ⟨?_, le_rfl, ?_⟩, .inr ⟨rh, rfl, by simpa using hhas⟩⟩
      · simp only [hinc]
        omega
      · simp only [hinc] at hbad ⊢
        omega

end Round

/-- How a search over an interval can end: with an error, with a block the chain has, or with nothing
if the interval does not start at height zero. -/
def SearchEnds (hasBlock : Hash → Bool) (i : Interval β) :
    Except SyncStop (Option β × τ) → Prop
  | .error (.error _) => True
  | .error .nilDereference => False
  | .error .outOfFuel => False
  | .ok (some b, _) => hasBlock (blockHash b) = true
  | .ok (none, _) => i.bestAncestor = none ∧ 0 < i.start

theorem SearchEnds.of_improves {hasBlock : Hash → Bool} {i i' : Interval β}
    {r : Except SyncStop (Option β × τ)} (hr : SearchEnds hasBlock i' r)
    (him : Improves hasBlock i i') : SearchEnds hasBlock i r := by
  match r with
  | .error (.error _) => trivial
  | .ok (some _, _) => exact hr
  | .ok (none, _) =>
    obtain ⟨hnone, hpos⟩ := hr
    rcases him with ⟨hbest, hstart⟩ | ⟨b, hb, -⟩
    · exact ⟨hbest ▸ hnone, hstart ▸ hpos⟩
    · rw [hb] at hnone
      cases hnone

section Search

variable {p : SearchParams β τ ρ} {hasBlock : Hash → Bool} {replies : ℕ → Option ρ} {i : Interval β}

theorem search_empty (hi : i.stop < i.start) (fuel request : ℕ) (t : τ) :
    search p hasBlock replies fuel request t i = .ok (i.bestAncestor, t) := by
  cases fuel <;> rw [search, if_pos hi]

theorem search_refused (hle : i.start ≤ i.stop) {target : τ} {request : ℕ}
    (hd : ∀ r, replies request = some r → ∃ e, p.download target i.start i.stop r = .error e)
    (fuel : ℕ) : ∃ e, search p hasBlock replies (fuel + 1) request target i = .error (.error e) := by
  rw [search, if_neg (by omega)]
  rcases hr : replies request with _ | r
  · exact ⟨_, rfl⟩
  obtain ⟨e, he⟩ := hd r hr
  exact ⟨e, by simp only [he]⟩

theorem search_wrapped (hi : Wrapped p.width p.outOfOrder i) (fuel request : ℕ) (target : τ) :
    ∃ e, search p hasBlock replies (fuel + 1) request target i = .error (.error e) := by
  have hpow : 2 ^ 2 ≤ 2 ^ p.width := Nat.pow_le_pow_right (by omega) p.two_le_width
  have hstop := hi.stop
  refine search_refused ?_ (fun r _ => ?_) fuel
  · rcases hi.start with h | ⟨h, -⟩ <;> omega
  · rw [hstop]
    exact p.wrapped target i.start r hi.start

/-- **The search stops**, after at most one request more than the interval has heights. -/
theorem search_spec (hstop : i.stop < 2 ^ p.width)
    (hbest : ∀ b, i.bestAncestor = some b → hasBlock (blockHash b) = true) {fuel : ℕ}
    (hfuel : i.stop + 1 - i.start < fuel) (request : ℕ) (target : τ) :
    SearchEnds hasBlock i (search p hasBlock replies fuel request target i) := by
  induction fuel generalizing i request target with
  | zero => omega
  | succ fuel ih =>
    rw [search]
    split_ifs with hdone
    · cases hb : i.bestAncestor with
      | none => exact ⟨hb, by omega⟩
      | some b => exact hbest b hb
    rcases replies request with _ | r
    · trivial
    simp only
    rcases hd : p.download target i.start i.stop r with e | x
    · trivial
    obtain ⟨headers, target'⟩ := x
    have hne : headers.reverse ≠ [] := by simpa using p.nonempty hd
    simp only
    have hfrom := @scan_from _ _ p.width p.outOfOrder hasBlock headers.reverse none i
      (fun b => hasBlock (blockHash b) = true) (fun _ _ h => h) hbest
    rcases hs : scan p.width p.outOfOrder hasBlock headers.reverse none i with e | y
    · trivial
    rw [hs] at hfrom
    rcases y with b | i'
    · exact hfrom
    simp only
    obtain ⟨hsh, him⟩ := scan_next p.two_le_width p.below_zero hstop hne hs
    rcases hsh with hsh | hwr
    · have hlt := hsh.lt
      exact (ih (lt_of_le_of_lt hsh.stop_le hstop) hfrom (by omega) (request + 1)
        target').of_improves him
    · obtain ⟨fuel', rfl⟩ : ∃ fuel', fuel = fuel' + 1 := ⟨fuel - 1, by omega⟩
      obtain ⟨e, he⟩ := search_wrapped hwr fuel' (request + 1) target'
      rw [he]
      trivial

theorem search_from {P : β → Prop} {Q : τ → Prop}
    (hd : ∀ {t start stop k r l t'}, Q t → replies k = some r →
      p.download t start stop r = .ok (l, t') → Q t' ∧ ∀ h ∈ l, P h)
    (hbest : ∀ b, i.bestAncestor = some b → P b) {target : τ} (ht : Q target) (fuel request : ℕ) :
    Outcome.Post (search p hasBlock replies fuel request target i)
      (fun r => Q r.2 ∧ ∀ b, r.1 = some b → P b) fun _ => True := by
  induction fuel generalizing i request target with
  | zero =>
    rw [search]
    split_ifs
    · exact ⟨ht, hbest⟩
    · trivial
  | succ fuel ih =>
    rw [search]
    split_ifs
    · exact ⟨ht, hbest⟩
    rcases hr : replies request with _ | r
    · trivial
    simp only
    rcases hdown : p.download target i.start i.stop r with e | x
    · trivial
    obtain ⟨ht', hl⟩ := hd ht hr hdown
    have hscan : Outcome.Post (scan p.width p.outOfOrder hasBlock x.1.reverse none i)
        (Sum.elim P fun i' => ∀ b, i'.bestAncestor = some b → P b) fun _ => True :=
      scan_from (fun h hh _ => hl h (by simpa using hh)) hbest
    simp only
    rcases hs : scan p.width p.outOfOrder hasBlock x.1.reverse none i with e | y
    · trivial
    rw [hs] at hscan
    cases y with
    | inl b =>
      refine ⟨ht', fun c hc => ?_⟩
      cases hc
      exact hscan
    | inr i' => exact ih hscan ht' _

/-- **The search can end with nothing.** -/
theorem search_nothing {f : ℕ → β} {k fuel request : ℕ} {target target' : τ} {r : ρ}
    (hf : ∀ j, number (f j) = i.start + j) (hun : ∀ j, hasBlock (blockHash (f j)) = false)
    (horder : ∀ a, p.outOfOrder a (a + 1) = false) (hstop : i.stop < 2 ^ p.width)
    (hpos : 0 < i.start) (hk : i.start + k ≤ i.stop) (hbest : i.bestAncestor = none)
    (hr : replies request = some r)
    (hd : p.download target i.start i.stop r = .ok ((List.range (k + 1)).map f, target')) :
    search p hasBlock replies (fuel + 1) request target i = .ok (none, target') := by
  -- the headers, from the highest on, take the end of the interval down one by one
  have hscan : ∀ k pre (i' : Interval β), i'.start = i.start → i'.bestAncestor = none →
      i'.stop < 2 ^ p.width → i.start + k ≤ i'.stop →
      (∀ b, pre = some b → number b = i.start + k + 1) →
      scan p.width p.outOfOrder hasBlock ((List.range (k + 1)).map f).reverse pre i' =
        .ok (.inr { start := i.start, stop := i.start - 1, bestAncestor := none }) := by
    intro k
    induction k with
    | zero =>
      intro pre i' hstart hnone hlt hle hpre
      have hord : ¬ (pre.any fun b => p.outOfOrder (number (f 0)) (number b)) = true := by
        cases pre with
        | none => simp
        | some b => simp [hpre b rfl, hf, horder]
      have hpred : subU p.width (i.start + 0) 1 = i.start - 1 := subU_of_le hpos (by omega)
      simp only [Nat.zero_add, List.range_one, List.map_cons, List.map_nil, List.reverse_singleton,
        scan]
      rw [if_neg (by rw [hf]; omega), if_neg hord, if_pos (hun 0), hf, hpred, hstart, hnone]
    | succ k ih =>
      intro pre i' hstart hnone hlt hle hpre
      have hord : ¬ (pre.any fun b => p.outOfOrder (number (f (k + 1))) (number b)) = true := by
        cases pre with
        | none => simp
        | some b => simp [hpre b rfl, hf, horder]
      have hpred : subU p.width (i.start + (k + 1)) 1 = i.start + k := by
        rw [subU_of_le (by omega) (by omega)]
        omega
      rw [List.range_succ, List.map_append, List.reverse_append, List.map_singleton,
        List.reverse_singleton, List.singleton_append, scan, if_neg (by rw [hf]; omega),
        if_neg hord, if_pos (hun (k + 1)), hf, hpred]
      exact ih (some (f (k + 1))) _ hstart hnone (by simp only; omega) le_rfl
        fun b hb => by rw [← Option.some.inj hb, hf]; omega
  rw [search, if_neg (by omega), hr]
  simp only [hd, hscan k none i rfl hbest hstop hk (by rintro b ⟨⟩)]
  exact search_empty (by simp only; omega) fuel _ _

end Search

/-- How many headers a reply must have: one for every step from the start to the tip of the peer, and
no more than asked for. -/
def newLimit (w tip start skip limit : ℕ) : ℕ :=
  min ((subU w (incU w tip) start + skip) % 2 ^ w / (skip + 1)) limit

/-- `p2p.GetRootBlockHeaderListResponse`. -/
structure RootReply where
  rootTip : RootBlock
  blockHeaderList : List RootBlock

/-- The checks of `rootChainTask.downloadBlockHeaderListAndCheck`, and the next target. -/
def checkRootReply (header : RootBlock) (start skip limit : ℕ) (resp : RootReply) :
    Except SyncError (List RootBlock × RootBlock) :=
  if resp.rootTip.totalDifficulty ≤ header.difficulty then .error .lowerTotalDifficulty
  else if resp.blockHeaderList = [] then .error .emptyHeaders
  else if resp.blockHeaderList.length ≠ newLimit 32 resp.rootTip.number start skip limit then
    .error .incorrectNumber
  else .ok (resp.blockHeaderList, if resp.rootTip.hash ≠ header.hash then resp.rootTip else header)

def checkMinorReply (header : MinorBlockHeader) (height skip limit : ℕ)
    (mHeaders : List MinorBlockHeader) : Except SyncError (List MinorBlockHeader × MinorBlockHeader) :=
  if mHeaders = [] then .error .emptyHeaders
  else if mHeaders.length ≠ newLimit 64 header.number height skip limit then .error .incorrectNumber
  else .ok (mHeaders, header)

theorem checkRootReply_ok_iff {header header' : RootBlock} {start skip limit : ℕ} {resp : RootReply}
    {l : List RootBlock} : checkRootReply header start skip limit resp = .ok (l, header') ↔
      header.difficulty < resp.rootTip.totalDifficulty ∧ l ≠ [] ∧ resp.blockHeaderList = l ∧
        l.length = newLimit 32 resp.rootTip.number start skip limit ∧
        (if resp.rootTip.hash ≠ header.hash then resp.rootTip else header) = header' := by
  constructor
  · intro h
    rw [checkRootReply] at h
    split_ifs at h with htd hnil hlen hhash <;> cases h
    · exact ⟨by omega, hnil, rfl, not_not.mp hlen, if_pos hhash⟩
    · exact ⟨by omega, hnil, rfl, not_not.mp hlen, if_neg hhash⟩
  · rintro ⟨htd, hne, rfl, hlen, rfl⟩
    rw [checkRootReply, if_neg (by omega), if_neg hne, if_neg (not_not.mpr hlen)]

theorem checkMinorReply_ok_iff {header header' : MinorBlockHeader} {height skip limit : ℕ}
    {mHeaders l : List MinorBlockHeader} :
    checkMinorReply header height skip limit mHeaders = .ok (l, header') ↔
      l ≠ [] ∧ mHeaders = l ∧ l.length = newLimit 64 header.number height skip limit ∧
        header = header' := by
  constructor
  · intro h
    rw [checkMinorReply] at h
    split_ifs at h with hnil hlen
    cases h
    exact ⟨hnil, rfl, not_not.mp hlen, rfl⟩
  · rintro ⟨hne, rfl, hlen, rfl⟩
    rw [checkMinorReply, if_neg hne, if_neg (not_not.mpr hlen)]

theorem checkRootReply_limit_zero (header : RootBlock) (start skip : ℕ) (resp : RootReply) :
    ∃ e, checkRootReply header start skip 0 resp = .error e := by
  rcases h : checkRootReply header start skip 0 resp with e | x
  · exact ⟨e, rfl⟩
  obtain ⟨-, hne, -, hlen, -⟩ := checkRootReply_ok_iff.mp h
  exact absurd (List.length_eq_zero_iff.mp (hlen.trans (Nat.min_zero _))) hne

theorem checkMinorReply_of_newLimit {header : MinorBlockHeader} {height skip limit : ℕ}
    (hzero : newLimit 64 header.number height skip limit = 0) (mHeaders : List MinorBlockHeader) :
    ∃ e, checkMinorReply header height skip limit mHeaders = .error e := by
  rcases h : checkMinorReply header height skip limit mHeaders with e | x
  · exact ⟨e, rfl⟩
  obtain ⟨hne, -, hlen, -⟩ := checkMinorReply_ok_iff.mp h
  exact absurd (List.length_eq_zero_iff.mp (hlen.trans hzero)) hne

/-- `RootBlockHeaderListLimit` and `MinorBlockHeaderListLimit`. -/
def rootBlockHeaderListLimit : ℕ := 500
def minorBlockHeaderListLimit : ℕ := 100

def rootSearch : SearchParams RootBlock RootBlock RootReply where
  width := 32
  outOfOrder rh pre := rh ≥ pre
  download header start stop :=
    let span := (stop - start) / rootBlockHeaderListLimit + 1
    checkRootReply header start (span - 1) (subU 32 (incU 32 stop) start / span)
  two_le_width := by omega
  below_zero a := by simp
  nonempty h := (checkRootReply_ok_iff.mp h).2.1
  wrapped t start r hstart := by
    rcases hstart with rfl | ⟨-, h⟩
    · exact checkRootReply_limit_zero ..
    · simp at h

def minorSearch : SearchParams MinorBlockHeader MinorBlockHeader (List MinorBlockHeader) where
  width := 64
  outOfOrder mh pre := mh > pre
  download header start stop :=
    let span := (stop - start) / minorBlockHeaderListLimit + 1
    checkMinorReply header start (span - 1)
      ((subU 64 (incU 64 stop) start + (span - 1)) % 2 ^ 64 / span)
  two_le_width := by omega
  below_zero a := by simp
  nonempty h := (checkMinorReply_ok_iff.mp h).1
  wrapped t start r hstart := by
    refine checkMinorReply_of_newLimit ?_ r
    rcases hstart with rfl | ⟨rfl, -⟩ <;> exact Nat.min_zero _

def rootMaxSyncStaleness : ℕ := 22500
def minorMaxSyncStaleness : ℕ := 22500 * 6

/-- `rootChainTask.findAncestor`; the requests allowed are more than it makes. -/
def rootFindAncestor (hasBlock : Hash → Bool) (rtip header : RootBlock)
    (replies : ℕ → Option RootReply) : Except SyncStop (Option RootBlock × RootBlock) :=
  if header.parentHash = rtip.hash then .ok (some rtip, header)
  else
    search rootSearch hasBlock replies (rootMaxSyncStaleness + 2) 0 header
      (startInterval rtip.number header.number rootMaxSyncStaleness)

def minorFindAncestor (hasBlock : Hash → Bool) (mtip header : MinorBlockHeader)
    (replies : ℕ → Option (List MinorBlockHeader)) :
    Except SyncStop (Option MinorBlockHeader × MinorBlockHeader) :=
  if header.hash = mtip.hash then .ok (some mtip, header)
  else
    search minorSearch hasBlock replies (minorMaxSyncStaleness + 2) 0 header
      (startInterval mtip.number header.number minorMaxSyncStaleness)

/-- What a task makes of the result of its search: the hash of a nil ancestor is asked for, an ancestor
must be known, and the task may have a check of its own. -/
def checkAncestor (hasBlock : Hash → Bool) (accept : β → τ → Except SyncError Unit) :
    Except SyncStop (Option β × τ) → Except SyncStop (Option β × τ)
  | .error e => .error e
  | .ok (none, _) => .error .nilDereference
  | .ok (some ancestor, header) =>
      if hasBlock (blockHash ancestor) = false then .error (.error .badAncestor)
      else
        match accept ancestor header with
        | .error e => .error (.error e)
        | .ok () => .ok (some ancestor, header)

/-- The `findAncestor` of the task that `NewRootChainTask` returns: nothing for a header that is known
already, and no ancestor that is heavier than the header aimed at. -/
def rootTaskFindAncestor (hasBlock : Hash → Bool) (rtip header : RootBlock)
    (replies : ℕ → Option RootReply) : Except SyncStop (Option RootBlock × RootBlock) :=
  if hasBlock header.hash then .ok (none, header)
  else
    checkAncestor hasBlock
      (fun ancestor header =>
        if header.totalDifficulty < ancestor.totalDifficulty then .error .ancestorTotalDifficulty
        else .ok ())
      (rootFindAncestor hasBlock rtip header replies)

def minorTaskFindAncestor (hasBlock : Hash → Bool) (mtip header : MinorBlockHeader)
    (replies : ℕ → Option (List MinorBlockHeader)) :
    Except SyncStop (Option MinorBlockHeader × MinorBlockHeader) :=
  if hasBlock header.hash then .ok (none, header)
  else checkAncestor hasBlock (fun _ _ => .ok ()) (minorFindAncestor hasBlock mtip header replies)

/-! ### When the search is safe -/

/-- The search ends, and with an error or with a header the chain has; nothing is searched for if the
header aimed at is known. -/
def Ends (hasBlock : Hash → Bool) : Except SyncStop (Option β × τ) → Prop
  | .error (.error _) => True
  | .error .nilDereference => False
  | .error .outOfFuel => False
  | .ok (some b, _) => hasBlock (blockHash b) = true
  | .ok (none, _) => True

theorem subU_incU {w start stop : ℕ} (hpos : 0 < start) (hle : start ≤ stop) (hlt : stop < 2 ^ w) :
    subU w (incU w stop) start = stop + 1 - start := by
  rcases Nat.lt_or_ge (stop + 1) (2 ^ w) with h | h
  · rw [incU_of_lt h, subU_of_le (by omega) h]
  · have hmax : stop + 1 = 2 ^ w := by omega
    rw [incU, hmax, Nat.mod_self, subU, Nat.zero_add]
    exact Nat.mod_eq_of_lt (by omega)

section Safe

variable {hasBlock : Hash → Bool}

theorem search_startInterval {p : SearchParams β τ ρ} {tip m : ℕ} (htip : tip < 2 ^ p.width)
    (target : ℕ) (replies : ℕ → Option ρ) (t : τ) :
    SearchEnds hasBlock (startInterval tip target m : Interval β)
      (search p hasBlock replies (m + 2) 0 t (startInterval tip target m)) := by
  refine search_spec ?_ (by rintro b ⟨⟩) ?_ 0 t
  · exact lt_of_le_of_lt (Nat.min_le_left ..) htip
  · simp only [startInterval]
    omega

variable {r : Except SyncStop (Option β × τ)}

theorem ends_checkAncestor_iff {accept : β → τ → Except SyncError Unit} :
    Ends hasBlock (checkAncestor hasBlock accept r) ↔
      (∃ e, r = .error (.error e)) ∨ ∃ b t, r = .ok (some b, t) := by
  match r with
  | .error (.error e) => exact iff_of_true trivial (.inl ⟨e, rfl⟩)
  | .error .nilDereference => exact iff_of_false id (by simp)
  | .error .outOfFuel => exact iff_of_false id (by simp)
  | .ok (none, t) => exact iff_of_false id (by simp)
  | .ok (some b, t) =>
    refine iff_of_true ?_ (.inr ⟨b, t, rfl⟩)
    rw [checkAncestor]
    split_ifs with hhas
    · trivial
    · cases accept b t with
      | error e => trivial
      | ok u => exact (Bool.not_eq_false _).mp hhas

theorem SearchEnds.of_start_zero {i : Interval β}
    (hr : SearchEnds hasBlock i r) (hi : i.start = 0) :
    (∃ e, r = .error (.error e)) ∨ ∃ b t, r = .ok (some b, t) := by
  match r with
  | .error (.error e) => exact .inl ⟨e, rfl⟩
  | .ok (some b, t) => exact .inr ⟨b, t, rfl⟩
  | .ok (none, t) =>
    obtain ⟨-, hpos⟩ := hr
    omega

theorem newLimit_self {w start skip limit : ℕ} (hpos : 0 < start) (hstart : start < 2 ^ w)
    (hskip : skip + 1 < 2 ^ w) (hlimit : 1 ≤ limit) : newLimit w start start skip limit = 1 := by
  rw [newLimit, subU_incU hpos le_rfl hstart, Nat.add_sub_cancel_left, Nat.add_comm 1 skip,
    Nat.mod_eq_of_lt hskip, Nat.div_self (by omega)]
  omega

theorem span_le {start stop : ℕ} (hle : start ≤ stop) (limit : ℕ) :
    0 < (stop - start) / limit + 1 ∧ (stop - start) / limit + 1 ≤ stop + 1 - start := by
  have := Nat.div_le_self (stop - start) limit
  exact ⟨Nat.succ_pos _, by omega⟩

/-- **When the root search is safe.** -/
theorem rootTaskFindAncestor_safe_iff {rtip header : RootBlock} (htip : rtip.number < 2 ^ 32)
    (hun : ∃ k, hasBlock k = false) :
    (∀ replies, Ends hasBlock (rootTaskFindAncestor hasBlock rtip header replies)) ↔
      hasBlock header.hash = true ∨ header.parentHash = rtip.hash ∨
        rtip.number ≤ rootMaxSyncStaleness := by
  constructor
  · intro hends
    by_contra hcon
    rw [not_or, not_or, Nat.not_le] at hcon
    obtain ⟨hknown, hparent, hlong⟩ := hcon
    obtain ⟨k, hk⟩ := hun
    -- the peer claims to be at the lower end of the interval, with an unknown header
    obtain ⟨start, hstart⟩ : ∃ start, start = rtip.number - rootMaxSyncStaleness := ⟨_, rfl⟩
    let f : ℕ → RootBlock := fun j => { header with hash := k, number := start + j }
    let resp : RootReply :=
      ⟨{ header with number := start, totalDifficulty := header.difficulty + 1 }, [f 0]⟩
    have hnothing : ∃ t, rootFindAncestor hasBlock rtip header (fun _ => some resp) = .ok (none, t) := by
      rw [rootFindAncestor, if_neg hparent]
      rcases Nat.lt_or_ge header.number start with hlow | hhigh
      · refine ⟨header, search_empty ?_ _ _ _⟩
        simp only [startInterval]
        omega
      have hpos : 0 < start := by omega
      have hle : start ≤ min rtip.number header.number := by omega
      have hstop : min rtip.number header.number < 2 ^ 32 := by omega
      obtain ⟨hspan, hspan'⟩ := span_le hle rootBlockHeaderListLimit
      have hlimit : 1 ≤ subU 32 (incU 32 (min rtip.number header.number)) start /
          ((min rtip.number header.number - start) / rootBlockHeaderListLimit + 1) := by
        rw [subU_incU hpos hle hstop]
        exact Nat.div_pos hspan' hspan
      have hskip : (min rtip.number header.number - start) / rootBlockHeaderListLimit + 1 - 1 + 1 <
          2 ^ 32 := by omega
      refine ⟨_, search_nothing (f := f) (k := 0) (by simp [f, startInterval, hstart]) (fun _ => hk)
        (fun a => by simp [rootSearch]) hstop ?_ ?_ rfl rfl
        (checkRootReply_ok_iff.mpr ⟨Nat.lt_succ_self _, by simp, rfl, ?_, rfl⟩)⟩
      · rw [startInterval, ← hstart]
        exact hpos
      · rw [startInterval, ← hstart]
        exact hle
      · rw [startInterval, ← hstart]
        exact (newLimit_self hpos (hle.trans_lt hstop) hskip hlimit).symm
    obtain ⟨t, ht⟩ := hnothing
    have := hends fun _ => some resp
    rw [rootTaskFindAncestor, if_neg hknown, ends_checkAncestor_iff, ht] at this
    simp at this
  · rintro (hknown | hparent | hshort) replies
    · rw [rootTaskFindAncestor, if_pos hknown]
      trivial
    · rw [rootTaskFindAncestor]
      split_ifs
      · trivial
      · rw [ends_checkAncestor_iff, rootFindAncestor, if_pos hparent]
        exact .inr ⟨rtip, header, rfl⟩
    · rw [rootTaskFindAncestor]
      split_ifs
      · trivial
      rw [ends_checkAncestor_iff, rootFindAncestor]
      split_ifs
      · exact .inr ⟨rtip, header, rfl⟩
      · exact (search_startInterval htip _ _ _).of_start_zero (Nat.sub_eq_zero_of_le hshort)

theorem minorLimit_le {d skip : ℕ} (hskip : skip ≤ d) (hd : d + 1 + skip < 2 ^ 64) :
    1 ≤ (d + 1 + skip) % 2 ^ 64 / (skip + 1) ∧ (d + 1 + skip) % 2 ^ 64 / (skip + 1) ≤ d + 1 := by
  rw [Nat.mod_eq_of_lt hd]
  constructor
  · exact Nat.div_pos (by omega) (by omega)
  · refine Nat.div_le_of_le_mul ?_
    have : d ≤ (skip + 1) * d := Nat.le_mul_of_pos_left d (by omega)
    have : (skip + 1) * (d + 1) = (skip + 1) * d + (skip + 1) := Nat.mul_succ ..
    omega

/-- **When the minor search is safe.** -/
theorem minorTaskFindAncestor_safe_iff {mtip header : MinorBlockHeader}
    (htip : mtip.number < 2 ^ 64) (hheader : header.number < 2 ^ 64)
    (hun : ∃ k, hasBlock k = false) :
    (∀ replies, Ends hasBlock (minorTaskFindAncestor hasBlock mtip header replies)) ↔
      hasBlock header.hash = true ∨ header.hash = mtip.hash ∨ mtip.number ≤ minorMaxSyncStaleness ∨
        2 ^ 64 ≤ header.number + 1 - (mtip.number - minorMaxSyncStaleness) + 1350 := by
  have hmax : minorMaxSyncStaleness = 135000 := rfl
  have hlist : minorBlockHeaderListLimit = 100 := rfl
  obtain ⟨start, hstart⟩ : ∃ start, start = mtip.number - minorMaxSyncStaleness := ⟨_, rfl⟩
  constructor
  · intro hends
    by_contra hcon
    rw [not_or, not_or, not_or, Nat.not_le, Nat.not_le] at hcon
    obtain ⟨hknown, hhash, hlong, hwrap⟩ := hcon
    obtain ⟨k, hk⟩ := hun
    have hpos : 0 < start := by omega
    let f : ℕ → MinorBlockHeader := fun j => { header with hash := k, number := start + j }
    have hnothing : ∃ replies t, minorFindAncestor hasBlock mtip header replies = .ok (none, t) := by
      simp only [minorFindAncestor, if_neg hhash]
      rcases Nat.lt_or_ge header.number start with hlow | hhigh
      · refine ⟨fun _ => none, header, search_empty ?_ _ _ _⟩
        simp only [startInterval]
        omega
      have hle : start ≤ min mtip.number header.number := by omega
      have hstop : min mtip.number header.number < 2 ^ 64 := by omega
      obtain ⟨d, hd⟩ : ∃ d, d = min mtip.number header.number - start := ⟨_, rfl⟩
      -- the peer answers with as many unknown headers as it must, from the start on
      obtain ⟨n, hn⟩ : ∃ n, n = newLimit 64 header.number start (d / 100 + 1 - 1)
        ((subU 64 (incU 64 (min mtip.number header.number)) start + (d / 100 + 1 - 1)) % 2 ^ 64 /
          (d / 100 + 1)) := ⟨_, rfl⟩
      have hcount : 1 ≤ n ∧ n ≤ d + 1 := by
        rw [hn, newLimit, subU_incU hpos hhigh hheader, subU_incU hpos hle hstop,
          show min mtip.number header.number + 1 - start = d + 1 by omega, Nat.add_sub_cancel]
        obtain ⟨h₁, h₂⟩ := @minorLimit_le d (d / 100) (by omega) (by omega)
        have h₃ : 1 ≤ (header.number + 1 - start + d / 100) % 2 ^ 64 / (d / 100 + 1) := by
          rw [Nat.mod_eq_of_lt (by omega)]
          exact Nat.div_pos (by omega) (by omega)
        omega
      obtain ⟨j, rfl⟩ : ∃ j, n = j + 1 := ⟨n - 1, by omega⟩
      refine ⟨fun _ => some ((List.range (j + 1)).map f), header,
        search_nothing (f := f) (k := j) (fun _ => by rw [startInterval, ← hstart]; rfl) (fun _ => hk)
          (fun a => by simp [minorSearch]) hstop ?_ ?_ rfl rfl
          (checkMinorReply_ok_iff.mpr ⟨by simp, rfl, ?_, rfl⟩)⟩
      · rw [startInterval, ← hstart]
        exact hpos
      · simp only [startInterval, ← hstart]
        omega
      · rw [List.length_map, List.length_range, hn]
        simp only [startInterval, ← hstart, hlist, hd]
    obtain ⟨replies, t, ht⟩ := hnothing
    have := hends replies
    rw [minorTaskFindAncestor, if_neg hknown, ends_checkAncestor_iff, ht] at this
    simp at this
  · intro hsafe replies
    rw [minorTaskFindAncestor]
    split_ifs with hknown
    · trivial
    rw [ends_checkAncestor_iff, minorFindAncestor]
    split_ifs with hhash
    · exact .inr ⟨mtip, header, rfl⟩
    rcases Nat.eq_zero_or_pos start with hz | hpos
    · exact (search_startInterval htip _ _ _).of_start_zero (hstart.symm.trans hz)
    have hwrap : 2 ^ 64 ≤ header.number + 1 - start + 1350 := by
      rcases hsafe with h | h | h | h
      · exact absurd h hknown
      · exact absurd h hhash
      · omega
      · omega
    left
    have hstop : min mtip.number header.number = mtip.number := by omega
    have hspan : (mtip.number - start) / 100 + 1 = 1351 := by omega
    refine search_refused ?_ (fun r _ => checkMinorReply_of_newLimit ?_ r) _
    · rw [startInterval, ← hstart, hstop]
      exact hstart ▸ Nat.sub_le ..
    · simp only [startInterval, ← hstart, hstop, hlist, hspan]
      rw [newLimit, subU_incU hpos (by omega) hheader, Nat.div_eq_of_lt (by omega), Nat.zero_min]

theorem SearchEnds.ne_outOfFuel {i : Interval β}
    (hr : SearchEnds hasBlock i r) : r ≠ .error .outOfFuel := by
  rintro rfl
  exact hr

theorem checkAncestor_ne_outOfFuel {accept : β → τ → Except SyncError Unit} (hr : r ≠ .error .outOfFuel) :
    checkAncestor hasBlock accept r ≠ .error .outOfFuel := by
  match r with
  | .error e => simpa [checkAncestor] using hr
  | .ok (none, t) => simp [checkAncestor]
  | .ok (some b, t) =>
    rw [checkAncestor]
    split_ifs
    · simp
    · cases accept b t <;> simp

theorem rootTaskFindAncestor_stops {rtip header : RootBlock} (htip : rtip.number < 2 ^ 32)
    (replies : ℕ → Option RootReply) :
    rootTaskFindAncestor hasBlock rtip header replies ≠ .error .outOfFuel := by
  rw [rootTaskFindAncestor, rootFindAncestor]
  split_ifs with hknown hparent
  · simp
  · exact checkAncestor_ne_outOfFuel (by simp)
  · exact checkAncestor_ne_outOfFuel (search_startInterval htip _ _ _).ne_outOfFuel

theorem minorTaskFindAncestor_stops {mtip header : MinorBlockHeader} (htip : mtip.number < 2 ^ 64)
    (replies : ℕ → Option (List MinorBlockHeader)) :
    minorTaskFindAncestor hasBlock mtip header replies ≠ .error .outOfFuel := by
  rw [minorTaskFindAncestor, minorFindAncestor]
  split_ifs with hknown hhash
  · simp
  · exact checkAncestor_ne_outOfFuel (by simp)
  · exact checkAncestor_ne_outOfFuel (search_startInterval htip _ _ _).ne_outOfFuel

/-- **The searches for an ancestor.**  Against every peer both stop.  They end with an error or with a header the
chain has just when the header aimed at is known or is the tip's child (its own tip, for a shard), or the chain
is not longer than the staleness allowed; and, for a shard, when the header's height is at the very end of the
64-bit range. -/
theorem findAncestor_safe_iff (hun : ∃ k, hasBlock k = false) :
    (∀ rtip header : RootBlock, rtip.number < 2 ^ 32 →
      (∀ replies, rootTaskFindAncestor hasBlock rtip header replies ≠ .error .outOfFuel) ∧
      ((∀ replies, Ends hasBlock (rootTaskFindAncestor hasBlock rtip header replies)) ↔
        hasBlock header.hash = true ∨ header.parentHash = rtip.hash ∨
          rtip.number ≤ rootMaxSyncStaleness)) ∧
    (∀ mtip header : MinorBlockHeader, mtip.number < 2 ^ 64 → header.number < 2 ^ 64 →
      (∀ replies, minorTaskFindAncestor hasBlock mtip header replies ≠ .error .outOfFuel) ∧
      ((∀ replies, Ends hasBlock (minorTaskFindAncestor hasBlock mtip header replies)) ↔
        hasBlock header.hash = true ∨ header.hash = mtip.hash ∨
          mtip.number ≤ minorMaxSyncStaleness ∨
          2 ^ 64 ≤ header.number + 1 - (mtip.number - minorMaxSyncStaleness) + 1350)) :=
  ⟨fun _ _ htip => ⟨rootTaskFindAncestor_stops htip, rootTaskFindAncestor_safe_iff htip hun⟩,
    fun _ _ htip hheader =>
      ⟨minorTaskFindAncestor_stops htip, minorTaskFindAncestor_safe_iff htip hheader hun⟩⟩

end Safe

/-! ### A chain that is too long -/

def sampleRoot (hash parentHash : Hash) (number : ℕ) : RootBlock :=
  sampleBlock hash parentHash number 0 1 (number + 1)

/-- On a short chain every peer can be searched. -/
theorem short_chain_safe : (sampleRoot 1 0 0).number < 2 ^ 32 ∧ ∀ replies,
    Ends (fun k => k == 1) (rootTaskFindAncestor (fun k => k == 1) (sampleRoot 1 0 0)
      (sampleRoot 9 8 2) replies) :=
  ⟨by decide,
    ((findAncestor_safe_iff ⟨2, rfl⟩).1 (sampleRoot 1 0 0) (sampleRoot 9 8 2) (by decide)).2.mpr
      (.inr (.inr (by decide)))⟩

/-- **A nil ancestor is dereferenced.**  The peer of a node at height `22501` claims that its tip is at height `1`
and sends the header of that height alone, which the node does not know. -/
theorem long_chain_dereferences_nil :
    rootTaskFindAncestor (fun k => k == 1) (sampleRoot 1 0 22501) (sampleRoot 9 8 22502)
      (fun _ => some ⟨sampleRoot 7 6 1, [sampleRoot 7 6 1]⟩) = .error .nilDereference := by
  decide +kernel

end QuarkChain.Sync
