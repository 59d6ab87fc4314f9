/-
# Well-formed state databases

What holds of every state database that its own operations produce: a deleted object has no entry in
the account trie, a dirty account is loaded or does not exist at all, and the journal's entries fit
the trie.  `Reverts` says what undoing one entry does; well-formedness is kept by every `Change`, by
every undo and by `finalise`.
-/
import QuarkChain.State.Change

namespace QuarkChain.State

open QuarkChain.Types

/-- What reverting an entry can do. -/
inductive Reverts (s : StateDB) : JournalEntry → StateDB → Prop
  | create {a : Recipient} :
      Reverts s (.createObject a) { s with stateObjects := Function.update s.stateObjects a none }
  | reset {a : Recipient} {prev : StateObject} :
      Reverts s (.resetObject a prev) (s.setStateObject a prev)
  | edit {e : JournalEntry} {a : Recipient} {o : StateObject} (he : e.edits = some a)
      (h : s.live a = some o) : Reverts s e (s.setStateObject a (e.undo o))
  | gone {a : Recipient} {prev : Bool} {prevbalance : TokenMap} (h : s.live a = none) :
      Reverts s (.suicide a prev prevbalance) s
  | refund {prev : ℕ} : Reverts s (.refund prev) { s with refund := prev }
  | log {txhash : Hash} :
      Reverts s (.addLog txhash)
        { s with
          logs := Function.update s.logs txhash (s.logs txhash).dropLast
          logSize := s.logSize - 1 }
  | touch {a : Recipient} : Reverts s (.touch a) s

variable {e : JournalEntry}

theorem JournalEntry.revert_of_reverts {s s' : StateDB} (h : Reverts s e s') :
    e.revert s = .ok s' := by
  cases h with
  | edit he h => exact revert_of_edits he h
  | gone h =>
    unfold revert
    dsimp only
    rw [StateDB.getStateObject_of_live_eq_none h]
  | create | reset | refund | log | touch => rfl

theorem Reverts.of_onObject {s s' : StateDB} {a : Recipient}
    (he : e.edits = some a) (h : JournalEntry.revert.onObject s a e.undo = .ok s') :
    Reverts s e s' := by
  cases hl : s.live a with
  | none =>
    unfold JournalEntry.revert.onObject at h
    rw [StateDB.getStateObject_of_live_eq_none hl] at h
    cases h
  | some o =>
    rw [JournalEntry.onObject_eq _ hl] at h
    cases h
    exact .edit he hl

theorem JournalEntry.reverts_of_revert {s s' : StateDB}
    (h : e.revert s = .ok s') : Reverts s e s' := by
  cases e with
  | createObject a =>
    cases h
    exact .create
  | resetObject a prev =>
    cases h
    exact .reset
  | suicide a prev prevbalance =>
    cases hl : s.live a with
    | none =>
      have hg : Reverts s (.suicide a prev prevbalance) s := .gone hl
      rw [revert_of_reverts hg] at h
      cases h
      exact hg
    | some o =>
      rw [revert_of_edits rfl hl] at h
      cases h
      exact .edit rfl hl
  | balance | nonce | storage | code => exact .of_onObject rfl h
  | refund prev =>
    cases h
    exact .refund
  | addLog txhash =>
    cases h
    exact .log
  | touch a =>
    cases h
    exact .touch

def JournalEntry.Fits (trie : Recipient → Option EncodedAccount) : JournalEntry → Prop
  | .createObject a => trie a = none
  | .resetObject _ prev => prev.deleted = false
  | _ => True

theorem JournalEntry.fits_of_edits {a : Recipient}
    (trie : Recipient → Option EncodedAccount) (h : e.edits = some a) : e.Fits trie := by
  cases e <;> trivial

namespace StateDB

variable {τ : Tolerance} {s s' : StateDB} {a : Recipient} {e : JournalEntry}

def drop (s : StateDB) (e : JournalEntry) (rest : List JournalEntry) : StateDB :=
  { s with journal := rest, dirties := e.dirtied.elim s.dirties fun a => s.dirties.erase a }

theorem popEntry_cons {rest : List JournalEntry} (hj : s.journal = e :: rest) :
    s.popEntry = (e.revert s).map fun s₁ => s₁.drop e rest := by
  unfold popEntry
  rw [hj]
  dsimp only
  cases e.revert s <;> rfl

/-- The invariant of the state database. -/
structure WellFormed (s : StateDB) : Prop where
  deleted_trie : ∀ {a o}, s.stateObjects a = some o → o.deleted = true → s.trie a = none
  dirty : ∀ {a}, a ∈ s.dirties → s.Loaded a ∨ s.stateObjects a = none ∧ s.trie a = none
  journal : ∀ e ∈ s.journal, e.Fits s.trie

variable (h : s.WellFormed)
include h

theorem WellFormed.trie_of_live_eq_none (hl : s.live a = none) : s.trie a = none := by
  unfold live at hl
  cases hs : s.stateObjects a with
  | none =>
    rw [hs] at hl
    exact Option.map_eq_none_iff.mp hl
  | some o =>
    rw [hs] at hl
    by_cases hd : o.deleted
    · exact h.deleted_trie hs hd
    · simp [hd] at hl

theorem WellFormed.setStateObject {o : StateObject} (hd : o.deleted = false) :
    (s.setStateObject a o).WellFormed where
  deleted_trie {b x} hx hxd := by
    by_cases hb : b = a
    · subst hb
      rw [stateObjects_setStateObject_self] at hx
      cases hx
      rw [hd] at hxd
      cases hxd
    · rw [stateObjects_setStateObject_of_ne hb] at hx
      exact h.deleted_trie hx hxd
  dirty {b} hb := by
    by_cases hba : b = a
    · subst hba
      exact .inl (loaded_setStateObject_self hd)
    · rcases h.dirty hb with hl | ⟨hn, ht⟩
      · exact .inl ((loaded_setStateObject_of_ne hba).mpr hl)
      · exact .inr ⟨(stateObjects_setStateObject_of_ne hba).trans hn, ht⟩
  journal := h.journal

theorem WellFormed.append (hf : e.Fits s.trie)
    (hd : ∀ a, e.dirtied = some a → s.Loaded a) : (s.append e).WellFormed where
  deleted_trie := h.deleted_trie
  dirty {b} hb := by
    cases hda : e.dirtied with
    | none =>
      have hb' : b ∈ s.dirties := by simpa [StateDB.append, hda] using hb
      exact h.dirty hb'
    | some a =>
      have hb' : b = a ∨ b ∈ s.dirties := by simpa [StateDB.append, hda] using hb
      rcases hb' with rfl | hb'
      · exact .inl (hd b hda)
      · exact h.dirty hb'
  journal x hx := by
    rcases List.mem_cons.mp hx with rfl | hx
    · exact hf
    · exact h.journal x hx

/-- **Every change keeps the invariant.** -/
theorem WellFormed.change (hc : Change τ s s') : s'.WellFormed := by
  cases hc with
  | refresh hl hd ho => exact h.setStateObject hd
  | @create a hl =>
    have hw : (s.setStateObject a (.blank s.fullShardKey)).WellFormed := h.setStateObject rfl
    refine hw.append (h.trie_of_live_eq_none hl) fun b hb => ?_
    cases hb
    exact loaded_setStateObject_self rfl
  | @reset a o o' hl hd =>
    have hw : (s.setStateObject a o').WellFormed := h.setStateObject hd
    exact hw.append (deleted_of_live hl) fun b hb => nomatch hb
  | @edit a e o o' he hl hd ho =>
    have hw : (s.setStateObject a o').WellFormed := h.setStateObject hd
    refine hw.append (e.fits_of_edits _ he) fun b hb => ?_
    rw [e.dirtied_of_edits he] at hb
    cases hb
    exact loaded_setStateObject_self hd
  | @touch a hl hr =>
    have hw : (s.append (.touch a)).WellFormed := by
      refine h.append trivial fun b hb => ?_
      cases hb
      exact hl
    unfold StateDB.touch
    dsimp only
    split_ifs
    · refine ⟨hw.deleted_trie, fun {b} hb => ?_, hw.journal⟩
      rcases Multiset.mem_cons.mp hb with rfl | hb
      · exact .inl hl
      · exact hw.dirty hb
    · exact hw
  | refund =>
    have hw : (s.append (.refund s.refund)).WellFormed := h.append trivial fun b hb => nomatch hb
    exact ⟨hw.deleted_trie, hw.dirty, hw.journal⟩
  | log =>
    have hw : (s.append (.addLog s.thash)).WellFormed := h.append trivial fun b hb => nomatch hb
    exact ⟨hw.deleted_trie, hw.dirty, hw.journal⟩

theorem WellFormed.changes (hc : Changes τ s s') : s'.WellFormed := by
  induction hc with
  | refl => exact h
  | tail _ hstep ih => exact ih.change hstep

theorem WellFormed.reverts (hf : e.Fits s.trie) (hr : Reverts s e s') : s'.WellFormed := by
  cases hr with
  | @create a =>
    refine ⟨fun {b x} hx hxd => ?_, fun {b} hb => ?_, h.journal⟩
    · by_cases hba : b = a
      · subst hba
        exact hf
      · exact h.deleted_trie ((Function.update_of_ne hba ..).symm.trans hx) hxd
    · by_cases hba : b = a
      · subst hba
        exact .inr ⟨Function.update_self .., hf⟩
      · rcases h.dirty hb with ⟨o, ho, hd⟩ | ⟨hn, ht⟩
        · exact .inl ⟨o, (Function.update_of_ne hba ..).trans ho, hd⟩
        · exact .inr ⟨(Function.update_of_ne hba ..).trans hn, ht⟩
  | reset => exact h.setStateObject hf
  | edit he hl =>
    refine h.setStateObject ?_
    rw [e.deleted_undo]
    exact deleted_of_live hl
  | gone | touch => exact h
  | refund | log => exact ⟨h.deleted_trie, h.dirty, h.journal⟩

omit h

theorem Reverts.journal (hr : Reverts s e s') : s'.journal = s.journal := by
  cases hr <;> rfl

theorem popEntry_cases (hp : s.popEntry = .ok s') :
    s' = s ∨ ∃ e rest s₁, s.journal = e :: rest ∧ Reverts s e s₁ ∧ s' = s₁.drop e rest := by
  cases hj : s.journal with
  | nil =>
    unfold popEntry at hp
    rw [hj] at hp
    cases hp
    exact .inl rfl
  | cons e rest =>
    rw [popEntry_cons hj] at hp
    cases hr : e.revert s with
    | error err =>
      rw [hr] at hp
      cases hp
    | ok s₁ =>
      rw [hr] at hp
      cases hp
      exact .inr ⟨e, rest, s₁, rfl, e.reverts_of_revert hr, rfl⟩

/-- **Going back.**  What undoing the newest entry keeps, undoing any number of them keeps. -/
theorem revertJournal_induct {P : StateDB → Prop}
    (hstep : ∀ {s s'}, P s → s.popEntry = .ok s' → P s') {n fuel : ℕ} (h : P s)
    (hr : revertJournal n fuel s = .ok s') : P s' := by
  induction fuel generalizing s with
  | zero =>
    cases hr
    exact h
  | succ fuel ih =>
    unfold revertJournal at hr
    split_ifs at hr
    · cases hr
      exact h
    cases hp : s.popEntry with
    | error err =>
      rw [hp] at hr
      cases hr
    | ok s₁ =>
      rw [hp] at hr
      exact ih (hstep h hp) hr

theorem WellFormed.popEntry (h : s.WellFormed) (hp : s.popEntry = .ok s') : s'.WellFormed := by
  rcases popEntry_cases hp with rfl | ⟨e, rest, s₁, hj, hr, rfl⟩
  · exact h
  have hw := h.reverts (h.journal e (hj ▸ List.mem_cons_self)) hr
  refine ⟨hw.deleted_trie, fun {b} hb => hw.dirty ?_, fun x hx => hw.journal x ?_⟩
  · rcases hd : e.dirtied with _ | a
    · simpa [drop, hd] using hb
    have hb' : b ∈ s₁.dirties.erase a := by simpa [drop, hd] using hb
    exact Multiset.mem_of_mem_erase hb'
  · rw [Reverts.journal hr, hj]
    exact List.mem_cons_of_mem e hx

theorem WellFormed.revertJournal {n fuel : ℕ} (h : s.WellFormed)
    (hr : revertJournal n fuel s = .ok s') : s'.WellFormed :=
  revertJournal_induct WellFormed.popEntry h hr

end StateDB
end QuarkChain.State
