/-
# Snapshots

`RevertToSnapshot` looks a snapshot up by its id and undoes the journal down to the length it had
then.  `Revisions` is the invariant of the list of snapshots (ids and lengths go up), under which
every snapshot of the list is found.

`Extends τ s s'`: the run went from `s` to `s'` without reverting behind `s`.  Then a snapshot taken at `s` can be
reverted to, without a panic, and gives `s` back (`Extends.revertToSnapshot`).  Changes, snapshots and
reverts to newer snapshots all keep `Extends`.
-/
import QuarkChain.State.Restore

namespace QuarkChain.State.StateDB

open QuarkChain.Types
open Rollback

variable {τ : Tolerance} {s s' s'' u : StateDB} {a : Recipient}

variable {id fuel n : ℕ}

theorem toOption_revertJournal (hn : n ≤ s.journal.length) (hfuel : s.journal.length - n ≤ fuel) :
    (revertJournal n fuel s).toOption = undoLog.popTo n s := by
  induction fuel generalizing s with
  | zero =>
    have hlen : s.journal.length = n := by omega
    subst hlen
    exact (Rollback.Log.popTo_len (L := undoLog)).symm
  | succ fuel ih =>
    unfold revertJournal
    split_ifs with hle
    · have hlen : s.journal.length = n := by omega
      subst hlen
      exact (Rollback.Log.popTo_len (L := undoLog)).symm
    obtain ⟨e, rest, hj⟩ : ∃ e rest, s.journal = e :: rest := by
      apply List.exists_cons_of_ne_nil
      intro hnil
      rw [hnil] at hle
      simp at hle
    have hk : undoLog.len s - n = (undoLog.len s - (n + 1)) + 1 := by
      show s.journal.length - n = s.journal.length - (n + 1) + 1
      omega
    unfold Rollback.Log.popTo
    rw [hk, Rollback.Log.popN, undoLog_pop_cons hj]
    rcases hp : s.popEntry with err | s₁
    · rfl
    have hj₁ := journal_popEntry hj hp
    have hlen : s.journal.length = s₁.journal.length + 1 := by rw [hj, hj₁]; rfl
    have hlen' : undoLog.len s - (n + 1) = undoLog.len s₁ - n := by
      show s.journal.length - (n + 1) = s₁.journal.length - n
      omega
    rw [hlen']
    exact ih (by omega) (by omega)

/-- The snapshots, their ids and the fields that operations only read are not part of what is undone. -/
theorem popEntry_keeps (hp : s.popEntry = .ok s') :
    s'.validRevisions = s.validRevisions ∧ s'.nextRevisionId = s.nextRevisionId ∧
      s'.block = s.block := by
  rcases popEntry_cases hp with rfl | ⟨e, rest, s₁, -, hr, rfl⟩
  · exact ⟨rfl, rfl, rfl⟩
  · cases hr <;> exact ⟨rfl, rfl, rfl⟩

theorem revertJournal_keeps (h : revertJournal n fuel s = .ok s') :
    s'.validRevisions = s.validRevisions ∧ s'.nextRevisionId = s.nextRevisionId ∧
      s'.block = s.block := by
  refine revertJournal_induct (P := fun u => u.validRevisions = s.validRevisions ∧
    u.nextRevisionId = s.nextRevisionId ∧ u.block = s.block) (fun hu hp => ?_) ⟨rfl, rfl, rfl⟩ h
  obtain ⟨h₁, h₂, h₃⟩ := popEntry_keeps hp
  exact ⟨h₁.trans hu.1, h₂.trans hu.2.1, h₃.trans hu.2.2⟩

/-- Ids and journal lengths of the snapshots go up, within what has been handed out. -/
structure Revisions (s : StateDB) : Prop where
  ids : s.validRevisions.Pairwise fun r r' => r.1 < r'.1
  lengths : s.validRevisions.Pairwise fun r r' => r.2 ≤ r'.2
  fresh : ∀ r ∈ s.validRevisions, r.1 < s.nextRevisionId
  within : ∀ r ∈ s.validRevisions, r.2 ≤ s.journal.length

theorem revertToSnapshot_eq {older newer : List (ℕ × ℕ)}
    (hv : s.validRevisions = older ++ (id, n) :: newer) (hold : ∀ r ∈ older, r.1 < id) :
    s.revertToSnapshot id =
      (revertJournal n s.journal.length s).map fun s' => { s' with validRevisions := older } := by
  have hidx : s.validRevisions.findIdx (fun r => id ≤ r.1) = older.length := by
    rw [hv, List.findIdx_append]
    have hnone : older.findIdx (fun r => decide (id ≤ r.1)) = older.length := by
      rw [List.findIdx_eq_length]
      intro r hr
      have := hold r hr
      simpa using this
    simp [hnone, List.findIdx_cons]
  have hget : s.validRevisions[older.length]? = some (id, n) := by
    rw [hv]
    simp
  unfold revertToSnapshot
  simp only [hidx, hget, ne_eq, not_true_eq_false, if_false]
  rcases hr : revertJournal n s.journal.length s with err | s₁
  · rfl
  have htake : s₁.validRevisions.take older.length = older := by
    rw [(revertJournal_keeps hr).1, hv]
    simp
  simp only [htake]
  rfl

theorem revertToSnapshot_inv (hr : s.Revisions) (h : s.revertToSnapshot id = .ok s') :
    ∃ older n newer u, s.validRevisions = older ++ (id, n) :: newer ∧
      undoLog.popTo n s = some u ∧ s' = { u with validRevisions := older } ∧
      u.nextRevisionId = s.nextRevisionId := by
  have h₀ := h
  unfold revertToSnapshot at h
  dsimp only at h
  generalize s.validRevisions.findIdx (fun r => decide (id ≤ r.1)) = idx at h
  cases hget : s.validRevisions[idx]? with
  | none =>
    rw [hget] at h
    cases h
  | some r =>
    obtain ⟨id', n⟩ := r
    rw [hget] at h
    dsimp only at h
    by_cases hid : id' = id
    · subst hid
      obtain ⟨hlt, hget⟩ := List.getElem?_eq_some_iff.mp hget
      have hsplit : s.validRevisions =
          s.validRevisions.take idx ++ (id', n) :: s.validRevisions.drop (idx + 1) := by
        rw [← hget, List.getElem_cons_drop, List.take_append_drop]
      have hold : ∀ r ∈ s.validRevisions.take idx, r.1 < id' := by
        intro r hr'
        have hp := hr.ids
        rw [hsplit, List.pairwise_append] at hp
        exact hp.2.2 r hr' (id', n) List.mem_cons_self
      rw [revertToSnapshot_eq hsplit hold] at h₀
      cases hj : revertJournal n s.journal.length s with
      | error err =>
        rw [hj] at h₀
        cases h₀
      | ok u =>
        rw [hj] at h₀
        cases h₀
        have hn : n ≤ s.journal.length := by
          refine hr.within (id', n) ?_
          rw [hsplit]
          simp
        have hpop := toOption_revertJournal hn (Nat.sub_le _ n)
        rw [hj] at hpop
        exact ⟨_, n, _, u, hsplit, hpop.symm, rfl, (revertJournal_keeps hj).2.1⟩
    · rw [if_pos hid] at h
      cases h

theorem Change.revisions (hc : Change τ s s') :
    s'.validRevisions = s.validRevisions ∧ s'.nextRevisionId = s.nextRevisionId ∧
      s.journal.length ≤ s'.journal.length := by
  cases hc with
  | refresh => exact ⟨rfl, rfl, Nat.le_refl _⟩
  | create | reset | edit | refund | log => exact ⟨rfl, rfl, Nat.le_succ _⟩
  | touch =>
    unfold StateDB.touch
    dsimp only
    split_ifs <;> exact ⟨rfl, rfl, Nat.le_succ _⟩

theorem Changes.revisions (hc : Changes τ s s') :
    s'.validRevisions = s.validRevisions ∧ s'.nextRevisionId = s.nextRevisionId ∧
      s.journal.length ≤ s'.journal.length := by
  induction hc with
  | refl => exact ⟨rfl, rfl, Nat.le_refl _⟩
  | tail _ hc ih =>
    obtain ⟨h₁, h₂, h₃⟩ := ih
    obtain ⟨h₄, h₅, h₆⟩ := hc.revisions
    exact ⟨h₄.trans h₁, h₅.trans h₂, Nat.le_trans h₃ h₆⟩

/-- The invariant of a state database with its snapshots. -/
structure Consistent (s : StateDB) : Prop where
  wellFormed : s.WellFormed
  revisions : s.Revisions

theorem Consistent.changes (h : s.Consistent) (hc : Changes τ s s') : s'.Consistent := by
  obtain ⟨hv, hn, hlen⟩ := hc.revisions
  refine ⟨h.wellFormed.changes hc, ?_, ?_, ?_, ?_⟩
  · rw [hv]
    exact h.revisions.ids
  · rw [hv]
    exact h.revisions.lengths
  · rw [hv, hn]
    exact h.revisions.fresh
  · rw [hv]
    exact fun r hr => Nat.le_trans (h.revisions.within r hr) hlen

theorem Consistent.snapshot (h : s.Consistent) : s.snapshot.2.Consistent where
  wellFormed := ⟨h.wellFormed.deleted_trie, h.wellFormed.dirty, h.wellFormed.journal⟩
  revisions := by
    have hfresh := h.revisions.fresh
    have hwithin := h.revisions.within
    refine ⟨?_, ?_, ?_, ?_⟩
    · refine List.pairwise_append.mpr ⟨h.revisions.ids, List.pairwise_singleton .., ?_⟩
      intro r hr r' hr'
      cases List.mem_singleton.mp hr'
      exact hfresh r hr
    · refine List.pairwise_append.mpr ⟨h.revisions.lengths, List.pairwise_singleton .., ?_⟩
      intro r hr r' hr'
      cases List.mem_singleton.mp hr'
      exact hwithin r hr
    · intro r hr
      show r.1 < s.nextRevisionId + 1
      rcases List.mem_append.mp hr with hr | hr
      · have := hfresh r hr
        omega
      · cases List.mem_singleton.mp hr
        exact Nat.lt_succ_self _
    · intro r hr
      rcases List.mem_append.mp hr with hr | hr
      · exact hwithin r hr
      · cases List.mem_singleton.mp hr
        exact Nat.le_refl _

theorem Consistent.revertToSnapshot (h : s.Consistent)
    (hr : s.revertToSnapshot id = .ok s') : s'.Consistent := by
  obtain ⟨older, n, newer, u, hv, hpop, rfl, hnext⟩ := revertToSnapshot_inv h.revisions hr
  have hn : n ≤ s.journal.length := h.revisions.within (id, n) (by rw [hv]; simp)
  have hlen : u.journal.length = n := Rollback.Log.len_popTo (L := undoLog) hn hpop
  have hj : (revertJournal n s.journal.length s).toOption = some u :=
    (toOption_revertJournal hn (Nat.sub_le _ n)).trans hpop
  have hju : StateDB.revertJournal n s.journal.length s = .ok u := by
    cases hx : StateDB.revertJournal n s.journal.length s with
    | error err =>
      rw [hx] at hj
      cases hj
    | ok x =>
      rw [hx] at hj
      cases hj
      rfl
  have hw := h.wellFormed.revertJournal hju
  have hids := h.revisions.ids
  have hlengths := h.revisions.lengths
  rw [hv, List.pairwise_append] at hids hlengths
  refine ⟨⟨hw.deleted_trie, hw.dirty, hw.journal⟩, hids.1, hlengths.1, fun r hr => ?_, fun r hr => ?_⟩
  · show r.1 < u.nextRevisionId
    rw [hnext]
    exact h.revisions.fresh r (by rw [hv]; exact List.mem_append_left _ hr)
  · show r.2 ≤ u.journal.length
    rw [hlen]
    exact hlengths.2.2 r hr (id, n) List.mem_cons_self

/-- The run from `s` to `s'` never reverted behind `s`. -/
structure Extends (τ : Tolerance) (s s' : StateDB) : Prop where
  consistent : s'.Consistent
  logged : Logged undoLog (Restored τ) s s'
  newer : ∃ newer, s'.validRevisions = s.validRevisions ++ newer ∧
    ∀ r ∈ newer, s.nextRevisionId ≤ r.1 ∧ s.journal.length ≤ r.2
  next : s.nextRevisionId ≤ s'.nextRevisionId

theorem Extends.journal_le (h : Extends τ s s') : s.journal.length ≤ s'.journal.length :=
  h.logged.1

theorem Extends.trans (h : Extends τ s s') (h' : Extends τ s' s'') : Extends τ s s'' := by
  obtain ⟨newer, hv, hnewer⟩ := h.newer
  obtain ⟨newer', hv', hnewer'⟩ := h'.newer
  have hnext := h.next
  have hlen := h.journal_le
  refine ⟨h'.consistent, h.logged.trans (compatible_restored τ) h'.logged,
    ⟨newer ++ newer', ?_, ?_⟩, Nat.le_trans h.next h'.next⟩
  · rw [hv', hv, List.append_assoc]
  · intro r hr
    rcases List.mem_append.mp hr with hr | hr
    · exact hnewer r hr
    · obtain ⟨h₁, h₂⟩ := hnewer' r hr
      constructor <;> omega

theorem Consistent.extends (h : s.Consistent) (hc : Changes τ s s') : Extends τ s s' := by
  obtain ⟨hv, hn, -⟩ := hc.revisions
  refine ⟨h.changes hc, hc.logged h.wellFormed, ⟨[], ?_, nofun⟩, ?_⟩
  · rw [hv, List.append_nil]
  · rw [hn]

theorem Consistent.extends_refl (τ : Tolerance) (h : s.Consistent) : Extends τ s s :=
  h.extends Changes.refl

theorem restored_snapshot (τ : Tolerance) (s : StateDB) : Restored τ s.snapshot.2 s :=
  { Restored.refl τ s with }

theorem Consistent.extends_snapshot (τ : Tolerance) (h : s.Consistent) :
    Extends τ s s.snapshot.2 where
  consistent := h.snapshot
  logged := Logged.of_rel (compatible_restored τ) (restored_snapshot τ s)
  newer := by
    refine ⟨[(s.nextRevisionId, s.journal.length)], rfl, fun r hr => ?_⟩
    cases List.mem_singleton.mp hr
    exact ⟨Nat.le_refl _, Nat.le_refl _⟩
  next := Nat.le_succ _

theorem Extends.rollback (h : Extends τ s s') (hs : s.Consistent)
    (hid : s.nextRevisionId ≤ id) (hr : s'.revertToSnapshot id = .ok s'') : Extends τ s s'' := by
  have hc := h.consistent.revertToSnapshot hr
  obtain ⟨newer, hv, hnewer⟩ := h.newer
  obtain ⟨older, n, later, u, hv', hpop, rfl, hnext⟩ := revertToSnapshot_inv h.consistent.revisions hr
  -- The snapshot is none of those that `s` already had: their ids are smaller than `id`.
  have hpre : ∃ mid, older = s.validRevisions ++ mid ∧ newer = mid ++ (id, n) :: later := by
    have hsplit : s.validRevisions ++ newer = older ++ (id, n) :: later := hv.symm.trans hv'
    rcases List.append_eq_append_iff.mp hsplit with ⟨mid, h₁, h₂⟩ | ⟨mid, h₁, h₂⟩
    · exact ⟨mid, h₁, h₂⟩
    rcases mid with _ | ⟨r, mid⟩
    · exact ⟨[], by simpa using h₁.symm, by simpa using h₂.symm⟩
    have hr : r = (id, n) := by
      have := congrArg List.head? h₂
      simpa using this.symm
    have hmem : r ∈ s.validRevisions := by
      rw [h₁]
      simp
    have := hs.revisions.fresh r hmem
    rw [hr] at this
    dsimp only at this
    omega
  obtain ⟨mid, hold, hnew⟩ := hpre
  have hle : s.journal.length ≤ n := (hnewer (id, n) (by rw [hnew]; simp)).2
  have hn : n ≤ s'.journal.length := h.consistent.revisions.within (id, n) (by rw [hv']; simp)
  have hundo : Undoes undoLog (Restored τ) s.journal.length s u := h.logged.rollback hle hn hpop
  have hrel : Restored τ { u with validRevisions := older } u := { Restored.refl τ u with }
  refine ⟨hc, hundo.congr (compatible_restored τ) hrel, ⟨mid, hold, fun r hr => ?_⟩, ?_⟩
  · exact hnewer r (by rw [hnew]; exact List.mem_append_left _ hr)
  · show s.nextRevisionId ≤ u.nextRevisionId
    rw [hnext]
    exact h.next

/-- **A snapshot can be reverted to.** -/
theorem Extends.revertToSnapshot (hs : s.Consistent) (h : Extends τ s.snapshot.2 s') :
    ∃ s'', s'.revertToSnapshot s.snapshot.1 = .ok s'' ∧ Restored τ s'' s ∧ Extends τ s s'' := by
  obtain ⟨newer, hv, hnewer⟩ := h.newer
  obtain ⟨hle, u, hpop, hu⟩ := h.logged
  have hus : Restored τ u s := hu.trans (restored_snapshot τ s)
  have hn : s.journal.length ≤ s'.journal.length := hle
  have hpop' : (revertJournal s.journal.length s'.journal.length s').toOption = some u :=
    (toOption_revertJournal hn (Nat.sub_le _ _)).trans hpop
  have hv' : s'.validRevisions = s.validRevisions ++ (s.nextRevisionId, s.journal.length) :: newer := by
    rw [hv]
    show (s.validRevisions ++ [_]) ++ newer = _
    simp
  have heq := revertToSnapshot_eq hv' hs.revisions.fresh
  cases hj : revertJournal s.journal.length s'.journal.length s' with
  | error err =>
    rw [hj] at hpop'
    cases hpop'
  | ok x =>
    rw [hj] at hpop'
    cases hpop'
    rw [hj] at heq
    have hrel : Restored τ { u with validRevisions := s.validRevisions } s := { hus with }
    refine ⟨_, heq, hrel, ?_⟩
    have hab : Extends τ s s' := (hs.extends_snapshot τ).trans h
    exact hab.rollback hs (Nat.le_refl _) heq

end QuarkChain.State.StateDB
