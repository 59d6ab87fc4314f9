/-
# Storing a cursor and recovering it

Between two minor blocks a cursor survives only as the triple its block stores.  `StoredAt` is what
such a triple can be; `getCursorInfo_spec` says what it has pending, `StoredAt.extend` that it stays
meaningful when the root chain has grown (what is pending grows by the deposits of the new root
blocks), and `newXShardTxCursor_spec` that the cursor recovered from it has still to deliver exactly
that.
-/
import QuarkChain.XShard.CursorStep

namespace QuarkChain.XShard

open Account Config QuarkChain.Types Resumable XShardTxCursor

variable {bc : MinorBlockChain} {root ext : List RootBlock} {x : XShardTxCursor}
  {c : XShardTxCursorInfo} {m : RootBlock}

/-- A triple stored by a block whose prev-root block is the last of `root`: EOF just above it, or
on a deposit of one of its blocks. -/
def StoredAt (bc : MinorBlockChain) (root : List RootBlock) (c : XShardTxCursorInfo) : Prop :=
  (∃ m, root.getLast? = some m ∧ c = ⟨m.number + 1, 0, 0⟩) ∨
    ∃ l r l', root = l ++ r :: l' ∧ c.rootBlockHeight = r.number ∧
      OnDeposit bc r c.minorBlockIndex c.xShardDepositIndex

theorem getCursorInfo_spec (h : Linked bc root) (hx : Positioned bc root x)
    (hm : root.getLast? = some m) :
    ∃ c, x.getCursorInfo = .ok c ∧ StoredAt bc root c ∧ pending bc root c = x.todo bc root ∧
      (x.Landed → c.isEOF = true → pending bc root c = []) := by
  have hmax : x.maxRootBlockHeader = some m := by rw [← hx.max, hm]
  rcases hx.pos with ⟨hr, hmi, hdi⟩ | ⟨l, r, l', rfl, hr, hdep, -⟩
  · have hpend : pending bc root ⟨m.number + 1, 0, 0⟩ = [] := by
      simp [pending, h.fromHeight_getLast hm]
    refine ⟨⟨m.number + 1, 0, 0⟩, ?_, .inl ⟨m, hm, rfl⟩, ?_, fun _ _ => hpend⟩
    · simp [getCursorInfo, hmax, hr, hmi, hdi]
    · rw [hpend, XShardTxCursor.todo, hr]
  · refine ⟨⟨r.number, x.mBlockIndex, x.xShardDepositIndex⟩, ?_, .inr ⟨l, r, l', rfl, rfl, hdep⟩,
      ?_, fun hland hEOF => ?_⟩
    · simp [getCursorInfo, hmax, hr]
    · rw [pending, h.fromHeight_self, h.todo_eq hr]
    · simp only [XShardTxCursorInfo.isEOF, Bool.and_eq_true, beq_iff_eq] at hEOF
      have hnone := hland hEOF.1 hEOF.2
      rw [hr] at hnone
      cases hnone

/-- **A stored triple survives the growth of the root chain.** -/
theorem StoredAt.extend (hc : StoredAt bc root c) (h : Linked bc (root ++ ext)) (hne : root ≠ []) :
    StoredAt bc (root ++ ext) c ∧
      pending bc (root ++ ext) c = pending bc root c ++ canonical bc ext := by
  have hroot : Linked bc root := h.append_left hne
  rcases hc with ⟨m, hm, rfl⟩ | ⟨l, r, l', rfl, hheight, hdep⟩
  · have hnil : pending bc root ⟨m.number + 1, 0, 0⟩ = [] := by
      simp [pending, hroot.fromHeight_getLast hm]
    cases ext with
    | nil =>
      rw [List.append_nil, hnil]
      exact ⟨.inl ⟨m, hm, rfl⟩, rfl⟩
    | cons r' t =>
      have hnum : r'.number = m.number + 1 := by
        obtain ⟨s, rfl⟩ := List.getLast?_eq_some_iff.mp hm
        have hlast : Linked bc (m :: r' :: t) := Linked.append_right (l := s) (by simpa using h) (by simp)
        cases hlast with
        | link _ _ hn _ => exact hn
      refine ⟨.inr ⟨root, r', t, rfl, hnum.symm, .inl ⟨rfl, by simp⟩⟩, ?_⟩
      rw [hnil, pending, ← hnum, h.fromHeight_self]
      simp [pendingIn, canonical, rootBlockDeposits]
  · have happ : (l ++ r :: l') ++ ext = l ++ r :: (l' ++ ext) := by simp
    rw [happ] at h ⊢
    refine ⟨.inr ⟨l, r, l' ++ ext, rfl, hheight, hdep⟩, ?_⟩
    rw [pending, pending, hheight, h.fromHeight_self, hroot.fromHeight_self]
    simp [canonical]

/-- **Recovering a cursor.** -/
theorem newXShardTxCursor_spec (h : Linked bc root) (hm : root.getLast? = some m)
    (hc : StoredAt bc root c) : ∃ x, newXShardTxCursor bc m.hash c = .ok x ∧ Positioned bc root x ∧
      x.todo bc root = pending bc root c := by
  have hstored : bc.getRootBlockByHash m.hash = some m := h.stored (List.mem_of_getLast? hm)
  rcases hc with ⟨m', hm', rfl⟩ | ⟨l, r, l', rfl, hheight, hdep⟩
  · obtain rfl : m = m' := Option.some.inj (hm.symm.trans hm')
    have hnone : bc.getRootBlockByHeight m.hash (m.number + 1) = .ok none :=
      h.getRootBlockByHeight_none hm (by omega)
    refine ⟨⟨some m, 0, 0, some [], none⟩, ?_, ⟨hm, .inl ⟨rfl, rfl, rfl⟩⟩, ?_⟩
    · simp [newXShardTxCursor, hnone, hstored]
    · simp [XShardTxCursor.todo, pending, h.fromHeight_getLast hm]
  have hlast : (r :: l').getLast? = some m := by
    simpa [List.getLast?_append, List.getLast?_cons] using hm
  have hget : bc.getRootBlockByHeight m.hash c.rootBlockHeight = .ok (some r) := by
    rw [hheight]
    exact h.getRootBlockByHeight hlast
  have hr : bc.getRootBlockByHash r.hash = some r := h.stored (by simp)
  have htodo : pending bc (l ++ r :: l') c =
      pendingIn bc r c.minorBlockIndex c.xShardDepositIndex ++ canonical bc l' := by
    rw [pending, hheight, h.fromHeight_self]
  rcases hdep with ⟨hmi, hdi⟩ | ⟨k, mh, txs, hmi, hmh, hmay, hl, hdi⟩
  · refine ⟨⟨some m, c.minorBlockIndex, c.xShardDepositIndex, some [], some r⟩, ?_,
      ⟨hm, .inr ⟨l, r, l', rfl, rfl, .inl ⟨hmi, hdi⟩, fun h₀ => absurd hmi h₀⟩⟩, ?_⟩
    · simp [newXShardTxCursor, hget, hstored, hr, hmi]
    · rw [htodo, h.todo_eq rfl]
  · refine ⟨⟨some m, c.minorBlockIndex, c.xShardDepositIndex, some txs, some r⟩, ?_,
      ⟨hm, .inr ⟨l, r, l', rfl, rfl, .inr ⟨k, mh, txs, hmi, hmh, hmay, hl, hdi⟩, ?_⟩⟩, ?_⟩
    · simp [newXShardTxCursor, hget, hstored, hr, hmi, hmh, hl]
    · simp [hmi, hmh, hl]
    · rw [htodo, h.todo_eq rfl]

theorem pendingIn_suffix {r : RootBlock} {i d : ℕ} (h : OnDeposit bc r i d) :
    pendingIn bc r i d <:+ rootBlockDeposits bc r := by
  rcases h with ⟨rfl, -⟩ | ⟨k, mh, txs, rfl, hmh, -, -, -⟩
  · obtain ⟨t, ht⟩ := List.drop_suffix d [coinbaseDeposit bc r]
    refine ⟨t, ?_⟩
    rw [pendingIn, rootBlockDeposits, ← List.append_assoc, ht, List.singleton_append]
  obtain ⟨pre, hsplit, hlen⟩ := headers_split hmh
  obtain ⟨t, ht⟩ := List.drop_suffix (d + 1) (headerDeposits bc r mh)
  have hall : headersDeposits bc r r.minorBlockHeaders = headersDeposits bc r pre ++
      (headerDeposits bc r mh ++ headersDeposits bc r (r.minorBlockHeaders.drop (k + 1))) := by
    nth_rewrite 1 [hsplit]
    simp [headersDeposits]
  refine ⟨coinbaseDeposit bc r :: headersDeposits bc r pre ++ t, ?_⟩
  rw [rootBlockDeposits, hall, ← hlen, pendingIn_header d hsplit, hlen]
  nth_rewrite 2 [← ht]
  simp

theorem StoredAt.pending_suffix (hc : StoredAt bc root c) (h : Linked bc root) :
    pending bc root c <:+ canonical bc root := by
  rcases hc with ⟨m, hm, rfl⟩ | ⟨l, r, l', rfl, hheight, hdep⟩
  · rw [pending, h.fromHeight_getLast hm]
    exact List.nil_suffix
  obtain ⟨t, ht⟩ := pendingIn_suffix hdep
  refine ⟨canonical bc l ++ t, ?_⟩
  rw [pending, hheight, h.fromHeight_self, canonical_append]
  simp only [canonical, List.flatMap_cons, ← ht, List.append_assoc]

end QuarkChain.XShard
