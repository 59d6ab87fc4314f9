/-
# One step of the cursor

The simulation between the three-index cursor and the flat sequence is `getNextTx_spec`:
wherever `getNextTx` succeeds, the deposit it returns is the head of what was pending and the new
position stands for the rest.  `getNextTx_ok` adds that the cursor never stops when the headers of the
stretch are served.
-/
import QuarkChain.Lib.Resumable
import QuarkChain.XShard.Canonical

namespace QuarkChain.XShard

open Account Config QuarkChain.Types Resumable XShardTxCursor

variable {bc : MinorBlockChain} {r : RootBlock} {l l' root : List RootBlock} {x x' : XShardTxCursor}

/-- The outcome of a step from a cursor that had `before` pending: a position of the stretch, the
answer being the head of `before`. -/
structure StepsTo (bc : MinorBlockChain) (root : List RootBlock)
    (before : List CrossShardTransactionDeposit) (o : Option CrossShardTransactionDeposit)
    (x' : XShardTxCursor) : Prop where
  positioned : Positioned bc root x'
  handsOut : HandsOut o before (x'.todo bc root)
  landed : x'.Landed

theorem nextRootBlock_spec (h : Linked bc (l ++ r :: l'))
    (hmax : (l ++ r :: l').getLast? = x.maxRootBlockHeader) :
    ∃ o x', nextRootBlock bc r x = .ok (o, x') ∧
      StepsTo bc (l ++ r :: l') (canonical bc l') o x' := by
  cases l' with
  | nil =>
    have hm : x.maxRootBlockHeader = some r := by simpa using hmax.symm
    have hnone : bc.getRootBlockByHeight r.hash (r.number + 1) = .ok none :=
      h.getRootBlockByHeight_none (m := r) (by simp) (by omega)
    refine ⟨none, { x with rBlock := none, mBlockIndex := 0, xShardDepositIndex := 0 }, ?_,
      ⟨hmax, .inl ⟨rfl, rfl, rfl⟩⟩, ⟨rfl, rfl⟩, fun _ _ => rfl⟩
    simp [nextRootBlock, hm, hnone]
  | cons r' l'' =>
    obtain ⟨m, hm⟩ : ∃ m, (r' :: l'').getLast? = some m := by
      simp [List.getLast?_cons]
    have hlast : (l ++ r :: r' :: l'').getLast? = some m := by
      simpa [List.getLast?_append, List.getLast?_cons] using hm
    have hstep : Linked bc (r :: r' :: l'') := h.append_right (by simp)
    have happ : l ++ r :: r' :: l'' = (l ++ [r]) ++ r' :: l'' := by simp
    have h' : Linked bc ((l ++ [r]) ++ r' :: l'') := happ ▸ h
    have hnum : r'.number = r.number + 1 := by
      cases hstep with
      | link _ _ hn _ => exact hn
    have hget := h'.getRootBlockByHeight hm
    have hstored : bc.getRootBlockByHash r'.hash = some r' := h.stored (by simp)
    have hmaxm : x.maxRootBlockHeader = some m := by rw [← hmax, hlast]
    refine ⟨some (coinbaseDeposit bc r'),
      { x with rBlock := some r', mBlockIndex := 0, xShardDepositIndex := 1 }, ?_, ?_, ?_, nofun⟩
    · simp [nextRootBlock, hmaxm, ← hnum, hget, hstored, getCurrentTx]
    · refine ⟨hmax, .inr ⟨l ++ [r], r', l'', happ, rfl, .inl ⟨rfl, le_rfl⟩, ?_⟩⟩
      simp
    · rw [happ, h'.todo_eq rfl]
      simp [HandsOut, canonical, rootBlockDeposits, pendingIn]

variable {h : MinorBlockHeader}

theorem headerDeposits_eq_nil (hm : mayDeliver bc r h = false) : headerDeposits bc r h = [] := by
  simp [headerDeposits, hm]

theorem headerDeposits_eq {txs : List CrossShardTransactionDeposit}
    (hm : mayDeliver bc r h = true) (hl : bc.readCrossShardTxList h.hash = some txs) :
    headerDeposits bc r h = txs := by
  simp [headerDeposits, hm, hl]

variable {o : Option CrossShardTransactionDeposit} {pre hs : List MinorBlockHeader}

theorem pendingIn_header {rest : List MinorBlockHeader} (d : ℕ)
    (hhs : r.minorBlockHeaders = pre ++ h :: rest) : pendingIn bc r (pre.length + 1) d =
      (headerDeposits bc r h).drop (d + 1) ++ headersDeposits bc r rest := by
  simp [pendingIn, hhs]

theorem iterateMinorBlocks_spec (h : Linked bc (l ++ r :: l'))
    (hhs : r.minorBlockHeaders = pre ++ hs)
    (hmax : (l ++ r :: l').getLast? = x.maxRootBlockHeader) (hr : x.rBlock = some r)
    (hm : x.mBlockIndex = pre.length + 1) (hd : x.xShardDepositIndex = 0)
    (hok : iterateMinorBlocks bc r x hs = .ok (o, x')) :
    StepsTo bc (l ++ r :: l') (headersDeposits bc r hs ++ canonical bc l') o x' := by
  induction hs generalizing x pre with
  | nil =>
    obtain ⟨o₁, x₁, hnext, hsteps⟩ := nextRootBlock_spec h hmax
    rw [iterateMinorBlocks, hnext] at hok
    cases hok
    exact hsteps
  | cons mh rest ih =>
    have hhs' : r.minorBlockHeaders = (pre ++ [mh]) ++ rest := by simpa using hhs
    have hskip : mayDeliver bc r mh = false →
        headersDeposits bc r (mh :: rest) = headersDeposits bc r rest := by
      intro hno
      simp [headersDeposits, headerDeposits_eq_nil hno]
    have hnext : ∀ txList, iterateMinorBlocks bc r
          { x with mBlockIndex := x.mBlockIndex + 1, xTxList := txList } rest = .ok (o, x') →
        StepsTo bc (l ++ r :: l') (headersDeposits bc r rest ++ canonical bc l') o x' := by
      intro txList hrest
      exact ih (x := { x with mBlockIndex := x.mBlockIndex + 1, xTxList := txList }) hhs' hmax hr
        (by simp [hm]) hd hrest
    rw [iterateMinorBlocks] at hok
    by_cases hown : mh.branch = bc.branch ∨ bc.isNeighbor mh.branch r.number = false
    · rw [if_pos hown, if_neg (by simpa using hd)] at hok
      rw [hskip (by rcases hown with hown | hown <;> simp [mayDeliver, hown])]
      exact hnext _ hok
    rw [if_neg hown] at hok
    obtain ⟨hbranch, hneighbor⟩ := not_or.mp hown
    rcases hp : bc.getRootBlockByHash mh.prevRootBlockHash with _ | p
    · simp [hp] at hok
    simp only [hp] at hok
    by_cases hle : p.number ≤ bc.getGenesisRootHeight
    · rw [if_pos hle, if_neg (by simpa using hd)] at hok
      rw [hskip (by simp [mayDeliver, hp, Nat.not_lt.mpr hle])]
      split_ifs at hok
      exact hnext _ hok
    have hmay : mayDeliver bc r mh = true := by
      simp [mayDeliver, hp, hbranch, Nat.lt_of_not_le hle, hneighbor]
    rw [if_neg hle] at hok
    rcases hl : bc.readCrossShardTxList mh.hash with _ | txs
    · simp [getCurrentTx, hm, hl] at hok
    have hdep := headerDeposits_eq hmay hl
    cases txs with
    | nil =>
      simp [getCurrentTx, hm, hl, hd] at hok
      have hrest := hnext (some []) (by simpa [hm, hd] using hok)
      simpa [headersDeposits, hdep] using hrest
    | cons tx txs =>
      simp [getCurrentTx, hm, hl, hd] at hok
      obtain ⟨rfl, rfl⟩ := hok
      refine ⟨⟨hmax, .inr ⟨l, r, l', rfl, hr, .inr ⟨pre.length, mh, tx :: txs, ?_⟩, ?_⟩⟩,
        ?_, nofun⟩
      · simp [hhs, hmay, hl]
      · simp [hhs, hl]
      · rw [h.todo_eq (by exact hr)]
        simp [HandsOut, pendingIn_header 0 hhs, headersDeposits, hdep]

theorem headers_split {m : ℕ} (hm : r.minorBlockHeaders[m]? = some h) :
    ∃ pre, r.minorBlockHeaders = pre ++ h :: r.minorBlockHeaders.drop (m + 1) ∧ pre.length = m := by
  obtain ⟨hlt, rfl⟩ := List.getElem?_eq_some_iff.mp hm
  refine ⟨r.minorBlockHeaders.take m, ?_, by simp [hlt.le]⟩
  simp

/-- **The cursor simulates the canonical sequence.** -/
theorem getNextTx_spec (h : Linked bc root)
    (hx : Positioned bc root x) (hok : getNextTx bc x = .ok (o, x')) :
    StepsTo bc root (x.todo bc root) o x' := by
  rcases hx.pos with ⟨hr, -, -⟩ | ⟨l, r, l', rfl, hr, hdep, hlist⟩
  · rw [getNextTx, hr] at hok
    cases hok
    exact ⟨hx, by simp [HandsOut, XShardTxCursor.todo, hr], fun _ _ => hr⟩
  have htodo := h.todo_eq hr
  simp only [getNextTx, hr] at hok
  rcases hdep with ⟨hm, hd⟩ | ⟨m, mh, txs, hm, hmh, hmay, hl, hd⟩
  · obtain hd | hd : x.xShardDepositIndex = 0 ∨ x.xShardDepositIndex = 1 := by omega
    · simp [getCurrentTx, hm, hd] at hok
      obtain ⟨rfl, rfl⟩ := hok
      refine ⟨⟨hx.max, .inr ⟨l, r, l', rfl, rfl, .inl ⟨rfl, le_rfl⟩, by simp⟩⟩, ?_, fun _ h => by cases h⟩
      rw [htodo, h.todo_eq rfl]
      simp [HandsOut, hm, hd, pendingIn]
    · simp [getCurrentTx, hm, hd] at hok
      have hstep := iterateMinorBlocks_spec
        (x := { x with mBlockIndex := 1, xShardDepositIndex := 0, rBlock := some r })
        h (List.nil_append _).symm hx.max rfl rfl rfl hok
      simpa [htodo, hm, hd, pendingIn] using hstep
  · obtain ⟨pre, hsplit, hlen⟩ := headers_split hmh
    have hxl : x.xTxList = some txs := by simp [hlist (by omega), hm, hmh, hl]
    have hpend : ∀ d, pendingIn bc r (m + 1) d = txs.drop (d + 1) ++
        headersDeposits bc r (r.minorBlockHeaders.drop (m + 1)) := by
      intro d
      rw [← headerDeposits_eq hmay hl, ← pendingIn_header d hsplit, hlen]
    rw [hm, hpend] at htodo
    cases htx : txs[x.xShardDepositIndex + 1]? with
    | some tx =>
      obtain ⟨hlt, hget⟩ := List.getElem?_eq_some_iff.mp htx
      simp [getCurrentTx, hm, hxl, htx] at hok
      obtain ⟨rfl, rfl⟩ := hok
      refine ⟨⟨hx.max, .inr ⟨l, r, l', rfl, rfl, .inr ⟨m, mh, txs, rfl, hmh, hmay, hl, hlt⟩, ?_⟩⟩,
        ?_, fun h => by cases h⟩
      · simp [hmh, hl]
      · rw [HandsOut, htodo, h.todo_eq rfl, hpend, List.drop_eq_getElem_cons hlt, hget]
        simp
    | none =>
      have hover : txs.length ≤ x.xShardDepositIndex + 1 := List.getElem?_eq_none_iff.mp htx
      simp [getCurrentTx, hm, hxl, htx] at hok
      rw [htodo, List.drop_eq_nil_of_le hover, List.nil_append]
      have hsplit' : r.minorBlockHeaders = (pre ++ [mh]) ++ r.minorBlockHeaders.drop (m + 1) :=
        hsplit.trans (by simp)
      exact iterateMinorBlocks_spec
        (x := { x with
          mBlockIndex := m + 1 + 1
          xShardDepositIndex := 0
          xTxList := some txs
          rBlock := some r })
        h hsplit' hx.max rfl (by simp [hlen]) rfl hok

theorem iterateMinorBlocks_ok (h : Linked bc (l ++ r :: l'))
    (hserved : Served bc r) (hsub : ∀ mh ∈ hs, mh ∈ r.minorBlockHeaders)
    (hmax : (l ++ r :: l').getLast? = x.maxRootBlockHeader) (hm : x.mBlockIndex ≠ 0)
    (hd : x.xShardDepositIndex = 0) : ∃ res, iterateMinorBlocks bc r x hs = .ok res := by
  induction hs generalizing x with
  | nil =>
    obtain ⟨o, x', hnext, -⟩ := nextRootBlock_spec h hmax
    exact ⟨(o, x'), by rw [iterateMinorBlocks, hnext]⟩
  | cons mh rest ih =>
    have hnext : ∀ txList, ∃ res, iterateMinorBlocks bc r
        { x with mBlockIndex := x.mBlockIndex + 1, xTxList := txList } rest = .ok res := by
      intro txList
      exact ih (x := { x with mBlockIndex := x.mBlockIndex + 1, xTxList := txList })
        (fun mh hmh => hsub mh (List.mem_cons_of_mem _ hmh)) hmax (by simp) hd
    rw [iterateMinorBlocks]
    by_cases hown : mh.branch = bc.branch ∨ bc.isNeighbor mh.branch r.number = false
    · rw [if_pos hown, if_neg (by simpa using hd)]
      exact hnext _
    rw [if_neg hown]
    obtain ⟨hbranch, hneighbor⟩ := not_or.mp hown
    obtain ⟨p, hp, hiff⟩ := hserved mh (hsub mh (by simp)) hbranch (by simpa using hneighbor)
    simp only [hp]
    by_cases hle : p.number ≤ bc.getGenesisRootHeight
    · have hnone : ¬ (bc.readCrossShardTxList mh.hash).isSome = true := by
        rw [hiff]
        omega
      rw [if_pos hle, if_neg (by simpa using hd), if_neg hnone]
      exact hnext _
    · obtain ⟨txs, hl⟩ := Option.isSome_iff_exists.mp (hiff.mpr (by omega))
      rw [if_neg hle]
      cases txs with
      | nil => simpa [getCurrentTx, hm, hl, hd] using hnext (some [])
      | cons tx txs => simp [getCurrentTx, hm, hl, hd]

/-- **The cursor never stops.** -/
theorem getNextTx_ok (h : Linked bc root) (hserved : ∀ r ∈ root, Served bc r)
    (hx : Positioned bc root x) : ∃ res, getNextTx bc x = .ok res := by
  rcases hx.pos with ⟨hr, -, -⟩ | ⟨l, r, l', rfl, hr, hdep, hlist⟩
  · exact ⟨(none, x), by rw [getNextTx, hr]⟩
  have hiter : ∀ m txList hs, (∀ mh ∈ hs, mh ∈ r.minorBlockHeaders) →
      ∃ res, iterateMinorBlocks bc r
        { x with mBlockIndex := m + 1, xShardDepositIndex := 0, xTxList := txList } hs =
          .ok res := by
    intro m txList hs hsub
    exact iterateMinorBlocks_ok
      (x := { x with mBlockIndex := m + 1, xShardDepositIndex := 0, xTxList := txList })
      h (hserved r (by simp)) hsub hx.max (by simp) rfl
  simp only [getNextTx, hr]
  rcases hdep with ⟨hm, hd⟩ | ⟨m, mh, txs, hm, hmh, -, hl, -⟩
  · obtain hd | hd : x.xShardDepositIndex = 0 ∨ x.xShardDepositIndex = 1 := by omega
    · simp [getCurrentTx, hm, hd]
    · simpa [getCurrentTx, hm, hd, hr] using hiter 0 x.xTxList r.minorBlockHeaders (by simp)
  · have hxl : x.xTxList = some txs := by simp [hlist (by omega), hm, hmh, hl]
    cases htx : txs[x.xShardDepositIndex + 1]? with
    | some tx => simp [getCurrentTx, hm, hxl, htx]
    | none =>
      simpa [getCurrentTx, hm, hxl, htx, hr] using
        hiter (m + 1) (some txs) _ fun mh hmh => List.mem_of_mem_drop hmh

end QuarkChain.XShard
