/-
# Whether reads leave a trace

The readers of `state.StateDB` (`src/core/state/statedb.go`) are not pure.  All of them load an account
into memory, which no later operation notices: `Ahead` relates a state to one with more accounts loaded,
every operation keeps the relation (`Ahead.run`, by `Simulation.op` and one lemma for each step of a revert), and
`Finalise` writes the same trie.

Two effects go further.  `GetNonce`, `GetBalances` and `GetFullShardKey` create an account that is
missing, with the full shard key of that moment; a write under another key then stores the old key.  And
`GetBalance` copies an amount from the token trie into the map of balances, which is all that `CreateAccount`
carries over.  `Harmless` excludes these two and, by `reads_invisible_iff`, nothing else.
-/
import QuarkChain.State.Simulation
import QuarkChain.State.Stored

namespace QuarkChain.State

open QuarkChain.Types StateDB
open Outcome (Matched)

/-- The operations that return something and are not meant to change anything. -/
def Op.isRead : Op → Bool
  | .exist _ | .empty _ | .getBalance _ _ | .getBalances _ | .getNonce _ | .getCode _ | .getState _ _
  | .hasSuicided _ | .getFullShardKey _ => true
  | _ => false

def BlockOp.isRead : BlockOp → Bool
  | .perform op => op.isRead
  | _ => false

def rootAfter (s : StateDB) (program : List BlockOp) (deleteEmptyObjects : Bool) :
    Except StatePanic (Recipient → Option EncodedAccount) :=
  match runAll s program with
  | .error e => .error e
  | .ok s => s.intermediateRoot deleteEmptyObjects

variable {rest program : List BlockOp} {flag : Bool} {b : BlockOp} {t : TokenID}

theorem rootAfter_cons {s s' : StateDB} (h : b.run s = .ok s')
    : rootAfter s (b :: rest) flag = rootAfter s' rest flag := by
  simp only [rootAfter, runAll, h]

theorem rootAfter_cons_error {s : StateDB} {e : StatePanic} (h : b.run s = .error e)
    : rootAfter s (b :: rest) flag = .error e := by
  simp only [rootAfter, runAll, h]

def writesOf (program : List BlockOp) : List BlockOp := program.filter fun b => !b.isRead

/-- A read that leaves no trace: the readers that would create an account find it, and a balance that
is read is in the map, or zero. -/
def Harmless (s : StateDB) : Op → Prop
  | .getBalance a tokenID => ∀ o content, s.live a = some o →
      o.tokenBalances.tokenTrie = some content → o.tokenBalances.balances.lookup tokenID = none →
      content tokenID = 0
  | .getBalances a | .getNonce a | .getFullShardKey a => (s.live a).isSome = true
  | _ => True

def HarmlessIn (s : StateDB) : List BlockOp → Prop
  | [] => True
  | b :: rest =>
      (∀ op, b = .perform op → op.isRead = true → Harmless s op) ∧
        ∀ s', b.run s = .ok s' → HarmlessIn s' rest

/-- The second state is the first with some more accounts loaded, none of them dirty. -/
structure Ahead (s s' : StateDB) : Prop where
  rest : s' = { s with stateObjects := s'.stateObjects }
  objects : ∀ a, s'.stateObjects a = s.stateObjects a ∨
    a ∉ s.dirties ∧ s.stateObjects a = none ∧
      ∃ data, s.trie a = some data ∧ s'.stateObjects a = some (.newObject data)

namespace Ahead

variable {s s' s'' : StateDB} {a : Recipient} {o : StateObject} {e : JournalEntry}

theorem refl (s : StateDB) : Ahead s s := ⟨rfl, fun _ => .inl rfl⟩

theorem trie (h : Ahead s s') : s'.trie = s.trie := by rw [h.rest]

theorem dirties (h : Ahead s s') : s'.dirties = s.dirties := by rw [h.rest]

theorem fullShardKey (h : Ahead s s') : s'.fullShardKey = s.fullShardKey := by rw [h.rest]

theorem live (h : Ahead s s') (a : Recipient) : s'.live a = s.live a := by
  unfold StateDB.live
  rcases h.objects a with heq | ⟨-, hn, data, ht, ho⟩
  · rw [heq, h.trie]
  · rw [hn, ho, ht]
    rfl

theorem load (hw : s.WellFormed) (hl : s.live a = some o) : Ahead s (s.setStateObject a o) := by
  refine ⟨rfl, fun b => ?_⟩
  by_cases hb : b = a
  · subst hb
    rw [stateObjects_setStateObject_self]
    cases hs : s.stateObjects b with
    | some x =>
      left
      unfold StateDB.live at hl
      rw [hs] at hl
      dsimp only at hl
      split_ifs at hl
      exact hl.symm
    | none =>
      right
      unfold StateDB.live at hl
      rw [hs] at hl
      obtain ⟨data, hdata, rfl⟩ := Option.map_eq_some_iff.mp hl
      refine ⟨fun hdirty => ?_, rfl, data, hdata, rfl⟩
      rcases hw.dirty hdirty with ⟨x, hx, -⟩ | ⟨-, hnone⟩
      · rw [hs] at hx
        cases hx
      · rw [hdata] at hnone
        cases hnone
  · exact .inl (stateObjects_setStateObject_of_ne hb)

variable (h : Ahead s s')
include h

theorem setStateObject (a : Recipient) (o : StateObject) :
    Ahead (s.setStateObject a o) (s'.setStateObject a o) where
  rest := by
    rw [h.rest]
    rfl
  objects b := by
    by_cases hb : b = a
    · subst hb
      left
      rw [stateObjects_setStateObject_self, stateObjects_setStateObject_self]
    · rw [stateObjects_setStateObject_of_ne hb, stateObjects_setStateObject_of_ne hb]
      exact h.objects b

theorem append (e : JournalEntry)
    (he : ∀ a, e.dirtied = some a → s'.stateObjects a = s.stateObjects a) :
    Ahead (s.append e) (s'.append e) where
  rest := by
    rw [h.rest]
    rfl
  objects b := by
    rcases h.objects b with heq | ⟨hd, hn, hloaded⟩
    · exact .inl heq
    by_cases hb : e.dirtied = some b
    · exact .inl (he b hb)
    refine .inr ⟨fun hmem => ?_, hn, hloaded⟩
    cases hda : e.dirtied with
    | none =>
      have : b ∈ s.dirties := by simpa [StateDB.append, hda] using hmem
      exact hd this
    | some a =>
      have : b = a ∨ b ∈ s.dirties := by simpa [StateDB.append, hda] using hmem
      rcases this with rfl | hmem'
      · exact hb hda
      · exact hd hmem'

theorem record (e : JournalEntry) (a : Recipient) (o : StateObject)
    (he : ∀ b, e.dirtied = some b → b = a) :
    Ahead ((s.append e).setStateObject a o) ((s'.append e).setStateObject a o) := by
  refine (h.setStateObject a o).append e fun b hb => ?_
  obtain rfl := he b hb
  rw [stateObjects_setStateObject_self, stateObjects_setStateObject_self]

/-! ### Every operation keeps the relation -/

theorem touch (ha : s'.stateObjects a = s.stateObjects a) : Ahead (s.touch a) (s'.touch a) := by
  have happ : Ahead (s.append (.touch a)) (s'.append (.touch a)) := by
    refine h.append _ fun b hb => ?_
    cases hb
    exact ha
  unfold StateDB.touch
  dsimp only
  split_ifs
  · refine ⟨?_, fun b => ?_⟩
    · rw [h.rest]
      rfl
    · rcases happ.objects b with heq | ⟨hd, hloaded⟩
      · exact .inl heq
      refine .inr ⟨fun hmem => ?_, hloaded⟩
      rcases Multiset.mem_cons.mp hmem with rfl | hmem
      · exact hd (Multiset.mem_cons_self _ _)
      · exact hd hmem
  · exact happ

theorem setContext {f : StateDB → StateDB}
    (hf : ∀ (u : StateDB) objects, f { u with stateObjects := objects } =
      { f u with stateObjects := objects })
    (hobjects : (f s).stateObjects = s.stateObjects) (htrie : (f s).trie = s.trie)
    (hdirties : ∀ b, b ∈ (f s).dirties → b ∈ s.dirties) : Ahead (f s) (f s') := by
  have hs' : f s' = { f s with stateObjects := s'.stateObjects } := by
    rw [← hf, ← h.rest]
  refine ⟨by rw [hs'], fun b => ?_⟩
  rw [hs', hobjects, htrie]
  exact (h.objects b).imp_right fun ⟨hd, hloaded⟩ => ⟨fun hmem => hd (hdirties b hmem), hloaded⟩

theorem revert (e : JournalEntry) : Matched Ahead (e.revert s) (e.revert s') := by
  have hsome : ∀ {a o}, e.edits = some a → s.live a = some o → Matched Ahead (e.revert s) (e.revert s') := by
    intro a o he hl
    rw [JournalEntry.revert_of_edits he hl, JournalEntry.revert_of_edits he ((h.live a).trans hl)]
    exact h.setStateObject a (e.undo o)
  have hnone : ∀ {a f}, s.live a = none →
      Matched Ahead (JournalEntry.revert.onObject s a f) (JournalEntry.revert.onObject s' a f) := by
    intro a f hl
    unfold JournalEntry.revert.onObject
    rw [getStateObject_of_live_eq_none hl, getStateObject_of_live_eq_none ((h.live a).trans hl)]
    rfl
  cases e with
  | createObject a =>
    refine ⟨by rw [h.rest], fun b => ?_⟩
    by_cases hb : b = a
    · subst hb
      left
      simp
    · simpa [Function.update_of_ne hb] using h.objects b
  | resetObject a prev => exact h.setStateObject a prev
  | suicide a prev prevbalance =>
    cases hl : s.live a with
    | none =>
      unfold JournalEntry.revert
      dsimp only
      rw [getStateObject_of_live_eq_none hl, getStateObject_of_live_eq_none ((h.live a).trans hl)]
      exact h
    | some o => exact hsome rfl hl
  | balance a | nonce a | storage a | code a =>
    cases hl : s.live a with
    | none => exact hnone hl
    | some o => exact hsome rfl hl
  | refund prev =>
    exact h.setContext (f := fun u => { u with refund := prev }) (fun _ _ => rfl) rfl rfl fun _ => id
  | addLog txhash =>
    exact h.setContext (f := fun u =>
      { u with
        logs := Function.update u.logs txhash (u.logs txhash).dropLast
        logSize := u.logSize - 1 }) (fun _ _ => rfl) rfl rfl fun _ => id
  | touch a => exact h

theorem popEntry : Matched Ahead s.popEntry s'.popEntry := by
  have hjournal : s'.journal = s.journal := by rw [h.rest]
  cases hj : s.journal with
  | nil =>
    unfold StateDB.popEntry
    rw [hjournal, hj]
    exact h
  | cons e rest =>
    rw [popEntry_cons hj, popEntry_cons (hjournal.trans hj)]
    rcases (h.revert e).cases with ⟨x, hr, hr'⟩ | ⟨u, u', hr, hr', hu⟩
    · rw [hr, hr']
      rfl
    rw [hr, hr']
    refine hu.setContext (f := fun u => u.drop e rest) (fun _ _ => rfl) rfl rfl fun b hb => ?_
    rcases hda : e.dirtied with _ | a
    · simpa [StateDB.drop, hda] using hb
    have : b ∈ u.dirties.erase a := by simpa [StateDB.drop, hda] using hb
    exact Multiset.mem_of_mem_erase this

theorem revertJournal (n fuel : ℕ) :
    Matched Ahead (StateDB.revertJournal n fuel s) (StateDB.revertJournal n fuel s') := by
  induction fuel generalizing s s' with
  | zero => exact h
  | succ fuel ih =>
    unfold StateDB.revertJournal
    rw [show s'.journal = s.journal by rw [h.rest]]
    split_ifs
    · exact h
    rcases h.popEntry.cases with ⟨x, hr, hr'⟩ | ⟨u, u', hr, hr', hu⟩
    · rw [hr, hr']
      rfl
    · rw [hr, hr']
      exact ih hu

theorem revertToSnapshot (revid : ℕ) :
    Matched Ahead (s.revertToSnapshot revid) (s'.revertToSnapshot revid) := by
  unfold StateDB.revertToSnapshot
  rw [show s'.validRevisions = s.validRevisions by rw [h.rest],
    show s'.journal = s.journal by rw [h.rest]]
  dsimp only
  cases s.validRevisions[s.validRevisions.findIdx fun r => revid ≤ r.1]? with
  | none => rfl
  | some r =>
    obtain ⟨r, n⟩ := r
    dsimp only
    split_ifs
    · rfl
    rcases (h.revertJournal n s.journal.length).cases with ⟨x, hr, hr'⟩ | ⟨u, u', hr, hr', hu⟩
    · rw [hr, hr']
      rfl
    · rw [hr, hr']
      exact hu.setContext (f := fun u => { u with validRevisions := u.validRevisions.take _ })
        (fun _ _ => rfl) rfl rfl fun _ => id

theorem written (flag : Bool) (ha : a ∈ s.dirties) : s'.written flag a = s.written flag a := by
  rcases h.objects a with heq | ⟨hd, -⟩
  · unfold StateDB.written
    rw [heq, h.trie]
  · exact absurd ha hd

theorem finalise (flag : Bool) : Matched Ahead (s.finalise flag) (s'.finalise flag) := by
  have hpanics : s'.WriteBackPanics flag ↔ s.WriteBackPanics flag := by
    unfold StateDB.WriteBackPanics
    rw [h.dirties]
    exact exists_congr fun a => and_congr_right fun ha => by rw [h.written flag ha]
  unfold StateDB.finalise
  by_cases hp : s.WriteBackPanics flag
  · rw [if_pos hp, if_pos (hpanics.mpr hp)]
    rfl
  rw [if_neg hp, if_neg (mt hpanics.mp hp)]
  have htrie : ∀ a, (if a ∈ s.dirties then (s'.written flag a).elim none Prod.fst else s.trie a) =
      if a ∈ s.dirties then (s.written flag a).elim none Prod.fst else s.trie a := by
    intro a
    split_ifs with ha
    · rw [h.written flag ha]
    · rfl
  refine ⟨?_, fun a => ?_⟩
  · rw [h.dirties, h.trie]
    simp only [htrie]
    rw [h.rest]
  · dsimp only
    rw [h.dirties]
    by_cases ha : a ∈ s.dirties
    · rw [if_pos ha, if_pos ha, h.written flag ha]
      exact .inl rfl
    · rw [if_neg ha, if_neg ha, if_neg ha]
      exact (h.objects a).imp_right fun ⟨_, hloaded⟩ => ⟨Multiset.notMem_zero a, hloaded⟩

omit h

/-- A state with more accounts loaded has the same live objects, and keeps them. -/
theorem simulation : Simulation .same Ahead where
  live {u s} h a := by
    rw [h.live a]
    cases u.live a with
    | none => exact .none
    | some o => exact .some rfl
  fullShardKey h := h.fullShardKey.symm
  refund h := by rw [h.rest]
  load {_ _ a _ o} h _ _ ho := ho ▸ h.setStateObject a o
  record {_ _ a _ o _ e} h _ _ ho he hdirtied := by
    subst ho he
    exact h.record _ a _ hdirtied
  touch {_ _ a o' _} h _ _ ho := by
    subst ho
    refine (h.setStateObject a o').touch ?_
    rw [stateObjects_setStateObject_self, stateObjects_setStateObject_self]
  setRefund h gas := h.setContext (f := fun u => { u.append (.refund u.refund) with refund := gas })
    (fun _ _ => rfl) rfl rfl fun _ => id
  addLog h log := h.setContext (f := fun u => u.addLog log) (fun _ _ => rfl) rfl rfl fun _ => id
  snapshot h := h.setContext (f := fun u => u.snapshot.2) (fun _ _ => rfl) rfl rfl fun _ => id

include h

/-- **Every operation keeps the relation.** -/
theorem op (op : Op) : Matched Ahead (op.run s) (op.run s') := by
  cases hrev : op.revertsTo with
  | none =>
    refine simulation.op h op hrev fun a _ o o' ho ho' => ?_
    cases ho.symm.trans ((h.live a).symm.trans ho')
    rfl
  | some revid =>
    cases op with
    | revertToSnapshot id => exact h.revertToSnapshot id
    | _ => cases hrev

theorem run (b : BlockOp) : Matched Ahead (b.run s) (b.run s') := by
  cases b with
  | perform op => exact h.op op
  | finalise flag => exact h.finalise flag
  | prepare thash bhash txIndex =>
    exact h.setContext (f := fun u => { u with thash, bhash, txIndex }) (fun _ _ => rfl) rfl rfl
      fun _ => id
  | setFullShardKey fullShardKey =>
    exact h.setContext (f := fun u => { u with fullShardKey }) (fun _ _ => rfl) rfl rfl fun _ => id
  | setBlock block =>
    exact h.setContext (f := fun u => { u with block }) (fun _ _ => rfl) rfl rfl fun _ => id

theorem rootAfter (program : List BlockOp) (flag : Bool) :
    rootAfter s' program flag = rootAfter s program flag := by
  induction program generalizing s s' with
  | nil =>
    show s'.intermediateRoot flag = s.intermediateRoot flag
    unfold StateDB.intermediateRoot
    rcases (h.finalise flag).cases with ⟨e, hr, hr'⟩ | ⟨u, u', hr, hr', hu⟩
    · rw [hr, hr']
    · rw [hr, hr']
      exact congrArg Except.ok hu.trie
  | cons b rest ih =>
    rcases (h.run b).cases with ⟨e, hr, hr'⟩ | ⟨u, u', hr, hr', hu⟩
    · rw [rootAfter_cons_error hr, rootAfter_cons_error hr']
    · rw [rootAfter_cons hr, rootAfter_cons hr']
      exact ih hu

end Ahead

section Harmless

variable {s s' : StateDB}

theorem getTokenBalance_of_harmless {t : TokenBalances} {tokenID : TokenID}
    (h : ∀ content, t.tokenTrie = some content → t.balances.lookup tokenID = none →
      content tokenID = 0) : (t.getTokenBalance tokenID).2 = t := by
  unfold TokenBalances.getTokenBalance
  cases hl : t.balances.lookup tokenID with
  | some amount => rfl
  | none =>
    rcases hc : t.tokenTrie with _ | content
    · rfl
    dsimp only
    rw [if_pos (h content hc hl)]

/-- **A harmless read only loads.** -/
theorem ahead_of_harmless (hw : s.WellFormed) {op : Op} (hread : op.isRead = true)
    (h : Harmless s op) (hrun : op.run s = .ok s') : Ahead s s' := by
  have hget : ∀ a, Ahead s (s.getStateObject a).2 := by
    intro a
    cases hl : s.live a with
    | none =>
      rw [getStateObject_of_live_eq_none hl]
      exact .refl s
    | some o =>
      rw [getStateObject_of_live_eq_some hl]
      exact .load hw hl
  have hgetOrNew : ∀ a, (s.live a).isSome = true → Ahead s (s.getOrNewStateObject a).2 := by
    intro a ha
    obtain ⟨o, hl⟩ := Option.isSome_iff_exists.mp ha
    rw [getOrNewStateObject_of_live_eq_some hl]
    exact .load hw hl
  cases op with
  | exist a | empty a | getCode a | getState a key | hasSuicided a =>
    cases hrun
    exact hget a
  | getBalances a | getNonce a | getFullShardKey a =>
    cases hrun
    exact hgetOrNew a h
  | getBalance a tokenID =>
    cases hrun
    cases hl : s.live a with
    | none =>
      rw [getBalance_of_live_eq_none hl]
      exact .refl s
    | some o =>
      rw [getBalance_of_live_eq_some hl, getTokenBalance_of_harmless fun content hc => h o content hl hc]
      exact .load hw hl
  | addBalance | subBalance | setBalance | setNonce | setCode | setState | createAccount | suicide
  | addRefund | subRefund | addLog | snapshot | revertToSnapshot => cases hread

theorem Op.run_of_isRead {op : Op} (hread : op.isRead = true) (s : StateDB) : ∃ s', op.run s = .ok s' := by
  cases op <;> first | exact ⟨_, rfl⟩ | cases hread

/-- **Harmless reads can be left out.** -/
theorem rootAfter_writesOf (hc : s.Consistent) (h : HarmlessIn s program)
    (flag : Bool) : rootAfter s (writesOf program) flag = rootAfter s program flag := by
  induction program generalizing s with
  | nil => rfl
  | cons b rest ih =>
    obtain ⟨hb, hrest⟩ := h
    cases hread : b.isRead with
    | true =>
      -- the writes that follow do not notice that the read is missing
      have hskip : writesOf (b :: rest) = writesOf rest := by simp [writesOf, hread]
      cases b with
      | perform op =>
        obtain ⟨s', hs'⟩ := Op.run_of_isRead hread s
        have hahead := ahead_of_harmless hc.wellFormed hread (hb op rfl hread) hs'
        rw [hskip, rootAfter_cons (b := .perform op) hs', ← hahead.rootAfter]
        exact ih (consistent_run hc hs') (hrest s' hs')
      | finalise | prepare | setFullShardKey | setBlock => cases hread
    | false =>
      have hkeep : writesOf (b :: rest) = b :: writesOf rest := by simp [writesOf, hread]
      rw [hkeep]
      rcases hrun : b.run s with e | s'
      · rw [rootAfter_cons_error hrun, rootAfter_cons_error hrun]
      rw [rootAfter_cons hrun, rootAfter_cons hrun]
      exact ih (consistent_blockOp hc hrun) (hrest s' hrun)

end Harmless

/-! ### Reads that leave a trace -/

/-- Writing back every dirty account but one succeeds. -/
def OthersWritten (s : StateDB) (a : Recipient) : Prop :=
  ∀ b ∈ s.dirties, b ≠ a → (s.written true b).isSome = true

section Trace

variable {s v w : StateDB} {a : Recipient} {o : StateObject}

theorem othersWritten_of_not_panics (hw : ¬s.WriteBackPanics true) : OthersWritten s a := by
  intro b hb _
  by_contra hnone
  exact hw ⟨b, hb, by simpa using hnone⟩

theorem OthersWritten.touches (h : OthersWritten s a) (ht : Touches a s v) : OthersWritten v a := by
  intro b hb hne
  have hsame : v.written true b = s.written true b := by
    unfold StateDB.written
    rw [ht.others b hne, ht.trie]
  rw [hsame]
  exact h b ((ht.dirties b hne).mp hb) hne

theorem intermediateRoot_at (h : OthersWritten s a) (ha : a ∈ s.dirties)
    (ho : s.stateObjects a = some o) {r : Option EncodedAccount × StateObject}
    (hr : o.writeBack true = some r) :
    ∃ root, s.intermediateRoot true = .ok root ∧ root a = r.1 := by
  have hwritten : s.written true a = some (r.1, some r.2) := by
    simp only [StateDB.written, ho, hr, Option.map_some]
  have hpanics : ¬s.WriteBackPanics true := by
    rintro ⟨b, hb, hnone⟩
    by_cases hba : b = a
    · subst hba
      rw [hwritten] at hnone
      cases hnone
    · have := h b hb hba
      rw [Option.isNone_iff_eq_none.mp hnone] at this
      cases this
  refine ⟨_, by rw [StateDB.intermediateRoot, StateDB.finalise, if_neg hpanics]; rfl, ?_⟩
  show (if a ∈ s.dirties then (s.written true a).elim none Prod.fst else s.trie a) = r.1
  rw [if_pos ha, hwritten]
  rfl

/-- **The first write keeps the key.** -/
theorem rootAfter_credit {key : ℕ} (h : OthersWritten s a)
    (hl : (s.ensured a).live a = some (.blank key)) :
    ∃ root, rootAfter s [.perform (.addBalance a 1 0)] true = .ok root ∧
      (root a).map EncodedAccount.fullShardKey = some key := by
  obtain ⟨x, hx⟩ : ∃ x, x = { StateObject.blank key with
      tokenBalances := TokenBalances.new.setValue 0 1 } := ⟨_, rfl⟩
  have hadd : s.addBalance a 1 0 =
      ((s.ensured a).append (.balance a TokenBalances.new.getBalanceMap)).setStateObject a x := by
    rw [addBalance_of_ne_zero hl Nat.one_ne_zero, hx]
    rfl
  obtain ⟨root, hroot, hat⟩ := intermediateRoot_at (o := x) (r := (some
      { nonce := 0, tokens := .list (nonZeroEntries (TokenBalances.new.setValue 0 1).balances),
        storage := (StateObject.blank key).getState, code := [], fullShardKey := key },
      { x with storage := x.getState, dirtyStorage := fun _ => none })) (h.touches touches_addBalance.1)
    touches_addBalance.2 (by rw [hadd]; exact stateObjects_setStateObject_self) (by subst hx; rfl)
  refine ⟨root, ?_, by rw [hat]; rfl⟩
  rw [rootAfter_cons (b := .perform (.addBalance a 1 0)) rfl]
  exact hroot

theorem mem_keys_nonZeroEntries_iff {m : TokenMap} :
    t ∈ (nonZeroEntries m).keys ↔ ∃ amount, m.lookup t = some amount ∧ 0 < amount := by
  constructor
  · intro h
    obtain ⟨e, he, rfl⟩ := Multiset.mem_map.mp (Finmap.mem_def.mp (Finmap.mem_keys.mp h))
    obtain ⟨hmem, hpos⟩ := Multiset.mem_filter.mp he
    exact ⟨e.2, Finmap.lookup_eq_some_iff.mpr hmem, by simpa using hpos⟩
  · rintro ⟨amount, hl, hpos⟩
    exact mem_keys_nonZeroEntries hl hpos

/-- **Only the map is carried over.** -/
theorem rootAfter_recreate (h : OthersWritten s a) (hl : s.live a = some o) :
    ((nonZeroEntries o.tokenBalances.balances).keys = ∅ →
      ∃ root, rootAfter s [.perform (.createAccount a), .perform (.addBalance a 0 0)] true = .ok root ∧
        root a = none) ∧ ((nonZeroEntries o.tokenBalances.balances).keys.card = 1 →
      ∃ root, rootAfter s [.perform (.createAccount a), .perform (.addBalance a 0 0)] true = .ok root ∧
        (root a).isSome = true) := by
  obtain ⟨x, hx⟩ : ∃ x, x =
      (StateObject.blank o.fullShardKey).setBalances o.tokenBalances.getBalanceMap := ⟨_, rfl⟩
  have hlive : (s.createAccount a).live a = some x := by
    rw [createAccount_of_live_eq_some hl, hx]
    exact live_setStateObject_self rfl
  obtain ⟨u, hu⟩ : ∃ u, u = (s.createAccount a).addBalance a 0 0 := ⟨_, rfl⟩
  have hroot : rootAfter s [.perform (.createAccount a), .perform (.addBalance a 0 0)] true =
      u.intermediateRoot true := by
    rw [hu]
    rfl
  have htouched : OthersWritten u a ∧ a ∈ u.dirties := by
    rw [hu]
    exact ⟨(h.touches touches_createAccount).touches touches_addBalance.1, touches_addBalance.2⟩
  obtain ⟨hothers, hdirty⟩ := htouched
  have hat : u.stateObjects a = some x := by
    have hens := ensured_of_live_eq_some hlive
    rw [hu, addBalance_zero (by rw [hens, hlive]), hens, stateObjects_touch]
    exact stateObjects_setStateObject_self
  rw [hroot]
  have hmap : x.tokenBalances.balances = o.tokenBalances.balances := by
    rw [hx]
    rfl
  constructor
  · intro hnone
    have hempty : x.empty = true := by
      rw [StateObject.empty, TokenBalances.isBlank, TokenBalances.nonZeroEntriesInBalancesCache, hmap,
        hnone, hx]
      rfl
    exact intermediateRoot_at (r := (none, { x with deleted := true })) hothers hdirty hat
      (by rw [StateObject.writeBack, hempty]; subst hx; rfl)
  · intro hone
    have hnot : x.tokenBalances.notUsingTrie = true := by
      rw [TokenBalances.notUsingTrie, TokenBalances.nonZeroEntriesInBalancesCache, hmap, hone, hx]
      rfl
    have hempty : x.empty = false := by
      rw [StateObject.empty, TokenBalances.isBlank, TokenBalances.nonZeroEntriesInBalancesCache, hmap,
        hone, hx]
      rfl
    have hne : x.tokenBalances.balances ≠ ∅ := by
      intro hnil
      rw [hmap] at hnil
      rw [hnil] at hone
      cases hone
    have hw : ∃ data y, x.writeBack true = some (some data, y) := by
      have htrie : x.tokenBalances.tokenTrie = none := by
        rw [hx]
        rfl
      have hsui : x.suicided = false := by
        rw [hx]
        rfl
      refine ⟨{ nonce := x.nonce, tokens := .list (nonZeroEntries x.tokenBalances.balances),
                storage := x.getState, code := x.code, fullShardKey := x.fullShardKey },
        { x with storage := x.getState, dirtyStorage := fun _ => none }, ?_⟩
      simp [StateObject.writeBack, hempty, hsui, StateObject.updateRoot, TokenBalances.commit, hnot,
        StateObject.encode, TokenBalances.encode, htrie, hne]
    obtain ⟨data, y, hw⟩ := hw
    obtain ⟨root, hroot, hr⟩ := intermediateRoot_at hothers hdirty hat hw
    exact ⟨root, hroot, by rw [hr]; rfl⟩

def zeroing (a : Recipient) (tokens : List TokenID) : List BlockOp :=
  tokens.map fun t => .perform (.setBalance a 0 t)

theorem runAll_zeroing (tokens : List TokenID) (hl : s.live a = some o) :
    ∃ v x, runAll s (zeroing a tokens) = .ok v ∧ v.live a = some x ∧
      (∀ t, x.tokenBalances.balances.lookup t =
        if t ∈ tokens then some 0 else o.tokenBalances.balances.lookup t) ∧
      (OthersWritten s a → OthersWritten v a) := by
  induction tokens generalizing s o with
  | nil => exact ⟨s, o, rfl, hl, fun t => by simp, id⟩
  | cons t tokens ih =>
    have hl' : (s.setBalance a 0 t).live a =
        some { o with tokenBalances := o.tokenBalances.setValue t 0 } := by
      have hens := ensured_of_live_eq_some hl
      rw [setBalance_eq (by rw [hens, hl]), hens]
      exact live_setStateObject_self (deleted_of_live hl :)
    obtain ⟨v, x, hrun, hlive, hlookup, hothers⟩ := ih hl'
    refine ⟨v, x, ?_, hlive, fun k => ?_, fun h => hothers (h.touches touches_setBalance.1)⟩
    · simpa [zeroing, runAll, BlockOp.run, Op.run] using hrun
    · rw [hlookup k]
      by_cases hk : k ∈ tokens
      · simp [hk]
      by_cases hkt : k = t
      · subst hkt
        simp [hk, TokenBalances.setValue, Finmap.lookup_insert]
      · simp [hk, hkt, TokenBalances.setValue, Finmap.lookup_insert_of_ne _ hkt]

theorem rootAfter_append (h : runAll s program = .ok v) :
    rootAfter s (program ++ rest) flag = rootAfter v rest flag := by
  induction program generalizing s with
  | nil =>
    cases h
    rfl
  | cons b program ih =>
    rw [runAll] at h
    cases hb : b.run s with
    | error e =>
      rw [hb] at h
      cases h
    | ok u =>
      rw [hb] at h
      rw [List.cons_append, rootAfter_cons hb]
      exact ih h

/-- **A created account leaves a trace.** -/
theorem created_visible (hw : ¬s.WriteBackPanics true) (hl : s.live a = none) :
    rootAfter (s.created a) [.setFullShardKey (s.fullShardKey + 1), .perform (.addBalance a 1 0)] true ≠
      rootAfter s [.setFullShardKey (s.fullShardKey + 1), .perform (.addBalance a 1 0)] true := by
  have hothers : OthersWritten s a := othersWritten_of_not_panics hw
  obtain ⟨v, hv⟩ : ∃ v, v = { s with fullShardKey := s.fullShardKey + 1 } := ⟨_, rfl⟩
  obtain ⟨u, hu⟩ : ∃ u, u = { s.created a with fullShardKey := s.fullShardKey + 1 } := ⟨_, rfl⟩
  have hlive : (v.ensured a).live a = some (.blank (s.fullShardKey + 1)) := by
    have hnone : v.live a = none := by
      rw [hv]
      exact hl
    rw [ensured_of_live_eq_none hnone, live_created_self, hv]
  have hulive : u.live a = some (.blank s.fullShardKey) := by
    rw [hu]
    exact live_created_self
  have hothers' : OthersWritten u a := by
    have ht : OthersWritten (s.createAccount a) a := hothers.touches touches_createAccount
    rw [createAccount_of_live_eq_none hl] at ht
    rw [hu]
    exact ht
  obtain ⟨root, hroot, hkey⟩ := rootAfter_credit (s := v) (by rw [hv]; exact hothers) hlive
  obtain ⟨root', hroot', hkey'⟩ := rootAfter_credit hothers' (by rw [ensured_of_live_eq_some hulive, hulive])
  have hs : BlockOp.run s (.setFullShardKey (s.fullShardKey + 1)) = .ok v := by
    rw [hv]
    rfl
  have hc : BlockOp.run (s.created a) (.setFullShardKey (s.fullShardKey + 1)) = .ok u := by
    rw [hu]
    rfl
  rw [rootAfter_cons hs, rootAfter_cons hc, hroot, hroot']
  intro heq
  rw [Except.ok.inj heq, hkey] at hkey'
  have := Option.some.inj hkey'
  omega

/-- **An amount read from the token trie leaves a trace.** -/
theorem cached_visible (hw : ¬s.WriteBackPanics true) {content : TokenID → ℕ}
    (hl : s.live a = some o) (htrie : o.tokenBalances.tokenTrie = some content)
    (hlookup : o.tokenBalances.balances.lookup t = none) (hpos : content t ≠ 0) :
    ∃ writes, (∀ b ∈ writes, b.isRead = false) ∧
      rootAfter (s.getBalance a t).2 writes true ≠ rootAfter s writes true := by
  obtain ⟨x, hx⟩ : ∃ x, x = { o with tokenBalances :=
      { o.tokenBalances with balances := o.tokenBalances.balances.insert t (content t) } } := ⟨_, rfl⟩
  have hread : (s.getBalance a t).2 = s.setStateObject a x := by
    rw [getBalance_of_live_eq_some hl, TokenBalances.getTokenBalance, hlookup, htrie]
    dsimp only
    rw [if_neg hpos, hx]
    dsimp only
    rw [htrie]
  have hxl : (s.setStateObject a x).live a = some x :=
    live_setStateObject_self (by rw [hx]; exact deleted_of_live (o := o) hl)
  -- the tokens of the map are set to zero, so that the map that is carried over is small
  obtain ⟨tokens, htokens⟩ : ∃ tokens, tokens = o.tokenBalances.balances.keys.toList := ⟨_, rfl⟩
  have hmem : ∀ k, k ∉ tokens → o.tokenBalances.balances.lookup k = none := by
    intro k hk
    rw [htokens, Finset.mem_toList, Finmap.mem_keys] at hk
    exact Finmap.lookup_eq_none.mpr hk
  have ht : t ∉ tokens := by
    rw [htokens, Finset.mem_toList, Finmap.mem_keys]
    exact Finmap.lookup_eq_none.mp hlookup
  refine ⟨zeroing a tokens ++ [.perform (.createAccount a), .perform (.addBalance a 0 0)], ?_, ?_⟩
  · intro b hb
    rcases List.mem_append.mp hb with hb | hb
    · obtain ⟨k, -, rfl⟩ := List.mem_map.mp hb
      rfl
    · simp only [List.mem_cons, List.not_mem_nil, or_false] at hb
      rcases hb with rfl | rfl <;> rfl
  obtain ⟨v, y, hrun, hvl, hvmap, hv⟩ := runAll_zeroing tokens hl
  obtain ⟨v', y', hrun', hvl', hvmap', hv'⟩ := runAll_zeroing tokens hxl
  have hzero : (nonZeroEntries y.tokenBalances.balances).keys = ∅ := by
    rw [Finset.eq_empty_iff_forall_notMem]
    intro k hk
    obtain ⟨amount, hamount, hpos⟩ := mem_keys_nonZeroEntries_iff.mp hk
    rw [hvmap k] at hamount
    split_ifs at hamount with hin
    · cases hamount
      exact absurd hpos (Nat.lt_irrefl 0)
    · rw [hmem k hin] at hamount
      cases hamount
  have hone : (nonZeroEntries y'.tokenBalances.balances).keys = {t} := by
    ext k
    rw [mem_keys_nonZeroEntries_iff, hvmap' k, Finset.mem_singleton, hx]
    by_cases hkt : k = t
    · subst hkt
      rw [if_neg ht, Finmap.lookup_insert]
      exact iff_of_true ⟨content k, rfl, Nat.pos_of_ne_zero hpos⟩ rfl
    · rw [Finmap.lookup_insert_of_ne _ hkt]
      refine iff_of_false ?_ hkt
      rintro ⟨amount, hamount, hpos⟩
      split_ifs at hamount with hin
      · cases hamount
        exact absurd hpos (Nat.lt_irrefl 0)
      · rw [hmem k hin] at hamount
        cases hamount
  have hothers : OthersWritten s a := othersWritten_of_not_panics hw
  have hothers' : OthersWritten (s.setStateObject a x) a := hread ▸ hothers.touches touches_getBalance
  obtain ⟨root, hroot, hnone⟩ := (rootAfter_recreate (hv hothers) hvl).1 hzero
  obtain ⟨root', hroot', hsome⟩ :=
    (rootAfter_recreate (hv' hothers') hvl').2 (by rw [hone, Finset.card_singleton])
  rw [hread, rootAfter_append hrun, rootAfter_append hrun', hroot, hroot']
  intro heq
  rw [Except.ok.inj heq, hnone] at hsome
  cases hsome

end Trace

/-- **Reads and the state root.**  In any run from any state, reads that are harmless where they are performed can
be left out; and in a state that can be finalised a read is invisible to all later writes just when it is
harmless. -/
theorem reads_invisible_iff {trie : Recipient → Option EncodedAccount} {block : BlockFields}
    {s : StateDB} (h : Reachable trie block s) :
    (∀ program flag, HarmlessIn s program →
      rootAfter s program flag = rootAfter s (writesOf program) flag) ∧
    (¬s.WriteBackPanics true → ∀ op : Op, op.isRead = true →
      ((∀ writes flag, (∀ b ∈ writes, b.isRead = false) →
          rootAfter s (.perform op :: writes) flag = rootAfter s writes flag) ↔ Harmless s op)) := by
  have hc := consistent_of_reachable h
  refine ⟨fun program flag hp => (rootAfter_writesOf hc hp flag).symm, fun hw op hread => ?_⟩
  constructor
  · intro hsame
    by_contra hharm
    have hmissing : ∀ a, (s.getOrNewStateObject a).2 = s.created a → s.live a = none →
        op.run s = .ok (s.getOrNewStateObject a).2 → False := by
      intro a hcreated hl hrun
      rw [hcreated] at hrun
      refine created_visible hw hl ?_
      rw [← rootAfter_cons (b := .perform op) hrun]
      exact hsame _ true (by simp [BlockOp.isRead, Op.isRead])
    cases op with
    | getBalance a tokenID =>
      simp only [Harmless, not_forall] at hharm
      obtain ⟨o, content, hl, htrie, hlookup, hpos⟩ := hharm
      obtain ⟨writes, hwrites, hne⟩ := cached_visible hw hl htrie hlookup hpos
      refine hne ?_
      rw [← hsame writes true hwrites]
      exact (rootAfter_cons (b := .perform (.getBalance a tokenID)) rfl).symm
    | getBalances a | getNonce a | getFullShardKey a =>
      have hl : s.live a = none := by simpa [Harmless] using hharm
      exact hmissing a (by rw [getOrNewStateObject_of_live_eq_none hl]) hl rfl
    | exist | empty | getCode | getState | hasSuicided => exact hharm trivial
    | addBalance | subBalance | setBalance | setNonce | setCode | setState | createAccount | suicide
    | addRefund | subRefund | addLog | snapshot | revertToSnapshot => cases hread
  · intro hharm writes flag hwrites
    obtain ⟨s', hs'⟩ := Op.run_of_isRead hread s
    rw [rootAfter_cons (b := .perform op) hs']
    exact (ahead_of_harmless hc.wellFormed hread hharm hs').rootAfter writes flag

/-- Reads of an account that exists, before a credit under another key. -/
theorem sampleState_reads_invisible :
    rootAfter sampleState [.perform (.getNonce 1), .perform (.getBalance 1 7), .setFullShardKey 9,
        .perform (.addBalance 1 1 7)] true =
      rootAfter sampleState [.setFullShardKey 9, .perform (.addBalance 1 1 7)] true :=
  (reads_invisible_iff (s := sampleState) .start).1
    [.perform (.getNonce 1), .perform (.getBalance 1 7), .setFullShardKey 9,
      .perform (.addBalance 1 1 7)] true
    (by
      refine ⟨fun op hop _ => ?_, fun s' hs' => ?_⟩
      · cases hop
        rfl
      cases hs'
      refine ⟨fun op hop _ => ?_, fun s' hs' => ?_⟩
      · cases hop
        rintro o content ho hc
        cases ho
        cases hc
      cases hs'
      refine ⟨fun op hop => ?_, fun s' hs' => ?_⟩
      · cases hop
      cases hs'
      refine ⟨fun op hop hread => ?_, fun _ _ => trivial⟩
      cases hop
      cases hread)

/-- **A read moves an account to another shard key**, when it creates the account under the key `0` before a credit
under the key `9`. -/
theorem getNonce_fixes_fullShardKey :
    (rootAfter sampleState [.setFullShardKey 9, .perform (.addBalance 5 1 7)] true).map
        (fun root => (root 5).map EncodedAccount.fullShardKey) = .ok (some 9) ∧
      (rootAfter sampleState [.perform (.getNonce 5), .setFullShardKey 9,
        .perform (.addBalance 5 1 7)] true).map
        (fun root => (root 5).map EncodedAccount.fullShardKey) = .ok (some 0) :=
  ⟨rfl, rfl⟩

end QuarkChain.State
