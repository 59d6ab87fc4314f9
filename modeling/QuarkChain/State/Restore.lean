/-
# Undoing gives the state back

`Restored τ u s`: the state `u` is what an undo makes of `s`, with live objects that the tolerance `τ`
counts as the same, perhaps more accounts loaded, and perhaps the RIPEMD account still dirty.
Everything else is equal.

The journal is a log in the sense of `QuarkChain.Lib.Rollback`: `undoLog` pops one entry.  Popping
respects `Restored` (`compatible_restored`), and every `Change` is logged (`Change.logged`), so the
library's rules apply to whole runs.
-/
import QuarkChain.State.WellFormed

namespace QuarkChain.State

open QuarkChain.Types
open Rollback

namespace StateDB

variable {τ : Tolerance} {s s' t u v : StateDB} {a : Recipient} {e : JournalEntry}

/-- `u` is what an undo makes of `s`. -/
structure Restored (τ : Tolerance) (u s : StateDB) : Prop where
  trie : u.trie = s.trie
  live : ∀ a, Option.Rel (τ.object a) (u.live a) (s.live a)
  loaded : ∀ a, s.Loaded a → u.Loaded a
  journal : u.journal = s.journal
  dirties_le : s.dirties ≤ u.dirties
  dirties_count : ∀ a, (a = ripemd → ¬τ.ripemdDirty) → u.dirties.count a = s.dirties.count a
  refund : u.refund = s.refund
  logs : u.logs = s.logs
  logSize : u.logSize = s.logSize
  position : (u.thash, u.bhash, u.txIndex) = (s.thash, s.bhash, s.txIndex)
  fullShardKey : u.fullShardKey = s.fullShardKey
  block : u.block = s.block

theorem live_rel_refl (τ : Tolerance) (s : StateDB) (a : Recipient) :
    Option.Rel (τ.object a) (s.live a) (s.live a) := by
  cases s.live a with
  | none => exact .none
  | some o => exact .some (τ.refl a o)

theorem Restored.refl (τ : Tolerance) (s : StateDB) : Restored τ s s where
  trie := rfl
  live := live_rel_refl τ s
  loaded _ h := h
  journal := rfl
  dirties_le := le_refl _
  dirties_count _ _ := rfl
  refund := rfl
  logs := rfl
  logSize := rfl
  position := rfl
  fullShardKey := rfl
  block := rfl

theorem Restored.trans (h : Restored τ u t) (h' : Restored τ t s) : Restored τ u s where
  trie := h.trie.trans h'.trie
  live a := by
    have h₁ := h.live a
    have h₂ := h'.live a
    generalize u.live a = x at *
    generalize t.live a = y at *
    generalize s.live a = z at *
    rcases h₁ with ⟨h₁⟩ | _
    · rcases h₂ with ⟨h₂⟩
      exact .some (τ.trans h₁ h₂)
    · rcases h₂ with _ | _
      exact .none
  loaded a hs := h.loaded a (h'.loaded a hs)
  journal := h.journal.trans h'.journal
  dirties_le := le_trans h'.dirties_le h.dirties_le
  dirties_count a ha := (h.dirties_count a ha).trans (h'.dirties_count a ha)
  refund := h.refund.trans h'.refund
  logs := h.logs.trans h'.logs
  logSize := h.logSize.trans h'.logSize
  position := h.position.trans h'.position
  fullShardKey := h.fullShardKey.trans h'.fullShardKey
  block := h.block.trans h'.block

variable {rest : List JournalEntry} {o o' : StateObject}

theorem Restored.live_eq_some (h : Restored τ u s) (hs : s.live a = some o) :
    ∃ o', u.live a = some o' ∧ τ.object a o' o := by
  have hl := h.live a
  rw [hs] at hl
  cases hu : u.live a with
  | none =>
    rw [hu] at hl
    cases hl
  | some o' =>
    rw [hu] at hl
    cases hl with
    | some ho => exact ⟨o', rfl, ho⟩

theorem Restored.live_eq_none (h : Restored τ u s) (hs : s.live a = none) : u.live a = none := by
  have hl := h.live a
  rw [hs] at hl
  rcases hu : u.live a with _ | o'
  · rfl
  rw [hu] at hl
  cases hl

theorem Restored.setStateObject (h : Restored τ u s)
    (hd' : o'.deleted = false) (hd : o.deleted = false) (ho : τ.object a o' o) :
    Restored τ (u.setStateObject a o') (s.setStateObject a o) :=
  { h with
    live := fun b => by
      by_cases hb : b = a
      · subst hb
        rw [live_setStateObject_self hd', live_setStateObject_self hd]
        exact .some ho
      · rw [live_setStateObject_of_ne hb, live_setStateObject_of_ne hb]
        exact h.live b
    loaded := fun b hs => by
      by_cases hb : b = a
      · subst hb
        exact loaded_setStateObject_self hd'
      · rw [loaded_setStateObject_of_ne hb] at hs ⊢
        exact h.loaded b hs }

theorem Restored.refresh (h : s.live a = some o) (hd : o'.deleted = false)
    (ho : τ.object a o' o) : Restored τ (s.setStateObject a o') s :=
  { Restored.refl τ s with
    live := fun b => by
      by_cases hb : b = a
      · subst hb
        rw [live_setStateObject_self hd, h]
        exact .some ho
      · rw [live_setStateObject_of_ne hb]
        exact live_rel_refl τ s b
    loaded := fun b hs => by
      by_cases hb : b = a
      · subst hb
        exact loaded_setStateObject_self hd
      · exact (loaded_setStateObject_of_ne hb).mpr hs }

variable (h : Restored τ u s)
include h

theorem Restored.unload :
    Restored τ { u with stateObjects := Function.update u.stateObjects a none }
      { s with stateObjects := Function.update s.stateObjects a none } :=
  { h with
    live := fun b => by
      by_cases hb : b = a
      · subst hb
        unfold StateDB.live
        simp only [Function.update_self, h.trie]
        cases s.trie b with
        | none => exact .none
        | some data => exact .some (τ.refl b _)
      · have hl := h.live b
        unfold StateDB.live at hl ⊢
        simp only [Function.update_of_ne hb]
        exact hl
    loaded := fun b hs => by
      by_cases hb : b = a
      · subst hb
        obtain ⟨o, ho, -⟩ := hs
        simp at ho
      · obtain ⟨o, ho, hd⟩ := hs
        simp only [Function.update_of_ne hb] at ho
        obtain ⟨o', ho', hd'⟩ := h.loaded b ⟨o, ho, hd⟩
        exact ⟨o', (Function.update_of_ne hb ..).trans ho', hd'⟩ }

theorem Restored.put (o : StateObject) :
    Restored τ (u.setStateObject a o) (s.setStateObject a o) := by
  by_cases hd : o.deleted = false
  · exact h.setStateObject hd hd (τ.refl a o)
  refine { h with live := fun b => ?_, loaded := fun b hs => ?_ }
  · by_cases hb : b = a
    · subst hb
      unfold StateDB.live
      rw [stateObjects_setStateObject_self, stateObjects_setStateObject_self]
      simp only [hd, if_true]
      exact .none
    · rw [live_setStateObject_of_ne hb, live_setStateObject_of_ne hb]
      exact h.live b
  · by_cases hb : b = a
    · subst hb
      obtain ⟨x, hx, hxd⟩ := hs
      rw [stateObjects_setStateObject_self] at hx
      cases hx
      exact absurd hxd hd
    · rw [loaded_setStateObject_of_ne hb] at hs ⊢
      exact h.loaded b hs

theorem Restored.reverts (hr : Reverts s e s') : ∃ u', Reverts u e u' ∧ Restored τ u' s' := by
  cases hr with
  | create => exact ⟨_, .create, h.unload⟩
  | @reset a prev => exact ⟨_, .reset, h.put prev⟩
  | @edit _ a o he hl =>
    obtain ⟨o', hl', ho⟩ := h.live_eq_some hl
    refine ⟨_, .edit he hl', h.setStateObject ?_ ?_ (τ.undo e ho)⟩
    · rw [e.deleted_undo]
      exact deleted_of_live hl'
    · rw [e.deleted_undo]
      exact deleted_of_live hl
  | gone hl => exact ⟨u, .gone (h.live_eq_none hl), h⟩
  | refund => exact ⟨_, .refund, { h with refund := rfl }⟩
  | log =>
    refine ⟨_, .log, { h with logs := ?_, logSize := ?_ }⟩
    · dsimp only
      rw [h.logs]
    · dsimp only
      rw [h.logSize]
  | touch => exact ⟨u, .touch, h⟩

theorem Restored.drop (e : JournalEntry) (rest : List JournalEntry) :
    Restored τ (u.drop e rest) (s.drop e rest) := by
  unfold StateDB.drop
  rcases e.dirtied with _ | b
  · exact { h with journal := rfl }
  refine { h with journal := rfl, dirties_le := ?_, dirties_count := fun a ha => ?_ }
  · exact Multiset.erase_le_erase b h.dirties_le
  · have hc := h.dirties_count a ha
    dsimp only [Option.elim]
    by_cases hab : a = b
    · subst hab
      rw [Multiset.count_erase_self, Multiset.count_erase_self, hc]
    · rw [Multiset.count_erase_of_ne hab, Multiset.count_erase_of_ne hab, hc]

omit h

theorem journal_popEntry (hj : s.journal = e :: rest)
    (hp : s.popEntry = .ok s') : s'.journal = rest := by
  rw [popEntry_cons hj] at hp
  cases hr : e.revert s with
  | error err =>
    rw [hr] at hp
    cases hp
  | ok s₁ =>
    rw [hr] at hp
    cases hp
    rfl

def undoLog : Rollback.Log StateDB where
  len s := s.journal.length
  pop s := if s.journal = [] then none else s.popEntry.toOption
  len_pop {s s'} h := by
    split_ifs at h with hnil
    obtain ⟨e, rest, hj⟩ := List.exists_cons_of_ne_nil hnil
    cases hp : s.popEntry with
    | error err =>
      rw [hp] at h
      cases h
    | ok s₁ =>
      rw [hp] at h
      cases h
      rw [journal_popEntry hj hp, hj]
      rfl

theorem undoLog_pop_cons (hj : s.journal = e :: rest) : undoLog.pop s = s.popEntry.toOption := by
  have hne : s.journal ≠ [] := by rw [hj]; exact List.cons_ne_nil e rest
  exact if_neg hne

theorem undoLog_pop_iff (hj : s.journal = e :: rest) :
    undoLog.pop s = some s' ↔ ∃ s₁, Reverts s e s₁ ∧ s' = s₁.drop e rest := by
  rw [undoLog_pop_cons hj, popEntry_cons hj]
  constructor
  · intro h
    cases hr : e.revert s with
    | error err =>
      rw [hr] at h
      cases h
    | ok s₁ =>
      rw [hr] at h
      cases h
      exact ⟨s₁, e.reverts_of_revert hr, rfl⟩
  · rintro ⟨s₁, hr, rfl⟩
    rw [e.revert_of_reverts hr]
    rfl

theorem compatible_restored (τ : Tolerance) : Compatible undoLog (Restored τ) where
  refl := Restored.refl τ
  trans := Restored.trans
  len h := by
    show List.length _ = List.length _
    rw [h.journal]
  pop {u s s'} h hs := by
    cases hj : s.journal with
    | nil =>
      have hnone : undoLog.pop s = none := if_pos hj
      rw [hnone] at hs
      cases hs
    | cons e rest =>
      obtain ⟨s₁, hr, rfl⟩ := (undoLog_pop_iff hj).mp hs
      obtain ⟨u₁, hr', h₁⟩ := h.reverts hr
      have hju : u.journal = e :: rest := h.journal.trans hj
      exact ⟨_, (undoLog_pop_iff hju).mpr ⟨u₁, hr', rfl⟩, h₁.drop e rest⟩

theorem logged_of_reverts (hj : s'.journal = e :: s.journal) (hr : Reverts s' e v)
    (h : Restored τ (v.drop e s.journal) s) : Logged undoLog (Restored τ) s s' := by
  have hlen : undoLog.len s' = undoLog.len s + 1 := by
    show List.length _ = List.length _ + 1
    rw [hj]
    rfl
  refine ⟨by omega, v.drop e s.journal, ?_, h⟩
  have hpop : undoLog.pop s' = some (v.drop e s.journal) := (undoLog_pop_iff hj).mpr ⟨v, hr, rfl⟩
  have hone : undoLog.len s' - undoLog.len s = 1 := by omega
  unfold Rollback.Log.popTo
  rw [hone]
  simp only [Rollback.Log.popN, hpop, Option.bind_some]

theorem Restored.drop_append {x : StateDB} (h : Restored τ x s) :
    Restored τ ((x.append e).drop e s.journal) s := by
  unfold StateDB.drop StateDB.append
  rcases hd : e.dirtied with _ | b
  · exact { h with journal := rfl }
  dsimp only [Option.elim]
  rw [Multiset.erase_cons_head]
  exact { h with journal := rfl }

theorem Restored.unload_missing (hw : s.WellFormed) (h : s.live a = none) :
    Restored τ { s with stateObjects := Function.update s.stateObjects a none } s :=
  { Restored.refl τ s with
    live := fun b => by
      by_cases hb : b = a
      · subst hb
        have ht := hw.trie_of_live_eq_none h
        rw [h]
        unfold StateDB.live
        simp only [Function.update_self, ht]
        exact .none
      · have hl := live_rel_refl τ s b
        unfold StateDB.live at hl ⊢
        simp only [Function.update_of_ne hb]
        exact hl
    loaded := fun b hs => by
      by_cases hb : b = a
      · subst hb
        obtain ⟨o, ho⟩ := hs.exists_live
        rw [h] at ho
        cases ho
      · obtain ⟨o, ho, hd⟩ := hs
        exact ⟨o, (Function.update_of_ne hb ..).trans ho, hd⟩ }

theorem Restored.drop_touch (hr : a = ripemd → τ.ripemdDirty) :
    Restored τ ((s.touch a).drop (.touch a) s.journal) s := by
  have happ : Restored τ ((s.append (.touch a)).drop (.touch a) s.journal) s :=
    (Restored.refl τ s).drop_append
  unfold StateDB.touch
  dsimp only
  split_ifs with ha
  · have hd : (a ::ₘ a ::ₘ s.dirties).erase a = a ::ₘ s.dirties := Multiset.erase_cons_head ..
    refine { happ with dirties_le := ?_, dirties_count := fun b hb => ?_ }
    · show s.dirties ≤ (a ::ₘ a ::ₘ s.dirties).erase a
      rw [hd]
      exact Multiset.le_cons_self ..
    · show ((a ::ₘ a ::ₘ s.dirties).erase a).count b = _
      have hne : b ≠ a := by
        rintro rfl
        exact hb ha (hr ha)
      rw [hd, Multiset.count_cons_of_ne hne]
  · exact happ

/-- **Every change is logged:** undoing what it wrote to the journal restores the state. -/
theorem Change.logged (hw : s.WellFormed) (hc : Change τ s s') : Logged undoLog (Restored τ) s s' := by
  cases hc with
  | refresh h hd ho => exact Logged.of_rel (compatible_restored τ) (.refresh h hd ho)
  | @create a h =>
    refine logged_of_reverts rfl .create ?_
    have hu : Restored τ { s with stateObjects := Function.update s.stateObjects a none } s :=
      .unload_missing hw h
    have hx := hu.drop_append (e := .createObject a)
    simpa [created, StateDB.setStateObject, StateDB.append] using hx
  | @reset a o o' h hd =>
    refine logged_of_reverts rfl .reset ?_
    rw [setStateObject_setStateObject]
    exact (Restored.refresh h (deleted_of_live h) (τ.refl a o)).drop_append
  | @edit a e o o' he h hd ho =>
    have hl : ((s.append e).setStateObject a o').live a = some o' := live_setStateObject_self hd
    refine logged_of_reverts rfl (.edit he hl) ?_
    rw [setStateObject_setStateObject]
    have hd' : (e.undo o').deleted = false := by
      rw [e.deleted_undo]
      exact hd
    exact (Restored.refresh h hd' ho).drop_append
  | @touch a h hr =>
    have hj : (s.touch a).journal = .touch a :: s.journal := by
      unfold StateDB.touch
      dsimp only
      split_ifs <;> rfl
    exact logged_of_reverts hj .touch (.drop_touch hr)
  | refund => exact logged_of_reverts rfl .refund (Restored.refl τ s).drop_append
  | log =>
    refine logged_of_reverts rfl .log ?_
    have hx : Restored τ ((s.append (.addLog s.thash)).drop (.addLog s.thash) s.journal) s :=
      (Restored.refl τ s).drop_append
    refine { hx with logs := ?_, logSize := ?_ }
    · show Function.update (Function.update s.logs s.thash _) s.thash _ = s.logs
      simp [StateDB.addLog]
    · show s.logSize + 1 - 1 = s.logSize
      omega

theorem Changes.logged (hw : s.WellFormed) (hc : Changes τ s s') : Logged undoLog (Restored τ) s s' := by
  induction hc with
  | refl => exact Undoes.start (compatible_restored τ)
  | tail hcs hc ih => exact ih.trans (compatible_restored τ) (hc.logged (hw.changes hcs))

end StateDB
end QuarkChain.State
