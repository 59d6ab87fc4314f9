/-
# What follows a revert

A revert puts balances back without their database (`setBalances`).  No reader sees that; but when such an
account comes to hold more than `16` tokens, at any later time, writing it back opens a token trie without a
database and panics.  So what a revert restores has to be said about everything that follows it.

`Akin D r u s`: the state `u`, after a revert, and the state `s`, where the reverted operations never happened,
agree up to the databases of the accounts in `D`, the caches of token tries, and, if `r`, a dirty mark on the
RIPEMD account.  `Akin` is a `Simulation`, so every operation keeps it (`Akin.step`), and `Finalise` keeps it as
long as it need not move an account in `D` to a token trie (`Akin.finalise`).  `Later` is a run of operations
with that condition, and `revertToSnapshot_restores` follows by induction on it.  Such a run holds no further
reverts: several reverted parts of a run are taken out one by one, the last one first.
-/
import QuarkChain.State.Simulation

namespace QuarkChain.State

open QuarkChain.Types StateDB
open Run
open Outcome (Matched)

variable {D : Recipient → Prop} {r : Prop} {u u' s s' : StateDB} {a : Recipient} {flag : Bool}

/-! ### Objects after a revert -/

theorem SameTokens.setValue {detached : Prop} {t' t : TokenBalances} (h : SameTokens detached t' t)
    (tokenID : TokenID) (amount : ℕ) :
    SameTokens detached (t'.setValue tokenID amount) (t.setValue tokenID amount) where
  tokenTrie := h.tokenTrie
  balances ht := by
    unfold TokenBalances.setValue
    dsimp only
    rw [h.balances ht]
  balance := by
    funext tokenID'
    rw [TokenBalances.balance_setValue, TokenBalances.balance_setValue, h.balance]
  db := h.db

theorem SameAccount.apply {detached : Prop} {o' o : StateObject} (h : SameAccount detached o' o)
    (e : Edit) : SameAccount detached (e.apply o') (e.apply o) := by
  cases e with
  | balance tokenID amount => exact { h with tokens := h.tokens.setValue tokenID amount }
  | nonce => exact { h with nonce := rfl }
  | code => exact { h with code := rfl }
  | state key value =>
    refine { h with state := ?_ }
    show (o'.setState key value).getState = (o.setState key value).getState
    rw [getState_setState, getState_setState, h.state]
  | suicide => exact { h with tokens := .refl _ _, suicided := rfl }

/-- Objects that every reader sees alike; entries need only mark the same account. -/
def afterRevert (D : Recipient → Prop) : Likeness where
  object a := SameAccount (D a)
  entry e' e := e'.dirtied = e.dirtied
  refl := sameAccount_self D
  entry_refl _ := rfl
  answers h := ⟨h.tokens.balance, h.state, h.fullShardKey⟩
  read h tokenID :=
    { h with tokens := ((SameTokens.read _ _ tokenID).trans h.tokens).trans (SameTokens.read _ _ tokenID).symm }
  edit h e := ⟨h.apply e, by cases e <;> rfl⟩
  reset _ := rfl

/-! ### States after a revert -/

/-- `u` is `s` up to what a revert leaves behind; their journals may differ. -/
def Akin (D : Recipient → Prop) (r : Prop) (u s : StateDB) : Prop :=
  Restored (detaching D r) { u with journal := s.journal } s

theorem akin_of_restored (h : Restored (detaching D r) u s) : Akin D r u s := { h with journal := rfl }

theorem Akin.setStateObject (h : Akin D r u s) {o' o : StateObject} (hd' : o'.deleted = false)
    (hd : o.deleted = false) (ho : SameAccount (D a) o' o) :
    Akin D r (u.setStateObject a o') (s.setStateObject a o) :=
  Restored.setStateObject h hd' hd ho

theorem Akin.append (h : Akin D r u s) {e' e : JournalEntry} (he : e'.dirtied = e.dirtied) :
    Akin D r (u.append e') (s.append e) := by
  refine { h with journal := rfl, dirties_le := ?_, dirties_count := fun a ha => ?_ }
  · show e.dirtied.elim s.dirties _ ≤ e'.dirtied.elim u.dirties _
    rw [he]
    cases e.dirtied with
    | none => exact h.dirties_le
    | some b => exact Multiset.cons_le_cons b h.dirties_le
  · have hcount := h.dirties_count a ha
    show (e'.dirtied.elim u.dirties _).count a = (e.dirtied.elim s.dirties _).count a
    rw [he]
    cases e.dirtied with
    | none => exact hcount
    | some b =>
      show (b ::ₘ u.dirties).count a = (b ::ₘ s.dirties).count a
      rw [Multiset.count_cons, Multiset.count_cons]
      exact congrArg (· + _) hcount

theorem Akin.touch (h : Akin D r u s) (a : Recipient) : Akin D r (u.touch a) (s.touch a) := by
  have happ : Akin D r (u.append (.touch a)) (s.append (.touch a)) := h.append rfl
  unfold StateDB.touch
  dsimp only
  split_ifs
  · refine { happ with dirties_le := ?_, dirties_count := fun b hb => ?_ }
    · exact Multiset.cons_le_cons a happ.dirties_le
    · have hcount := happ.dirties_count b hb
      show (a ::ₘ (u.append (.touch a)).dirties).count b = (a ::ₘ (s.append (.touch a)).dirties).count b
      rw [Multiset.count_cons, Multiset.count_cons]
      exact congrArg (· + _) hcount
  · exact happ

theorem simulation_akin (D : Recipient → Prop) (r : Prop) : Simulation (afterRevert D) (Akin D r) where
  live h := h.live
  fullShardKey h := h.fullShardKey
  refund h := h.refund
  load h hd' hd ho := h.setStateObject hd' hd ho
  record h hd' hd ho he _ := (h.append he).setStateObject hd' hd ho
  touch {_ _ a _ _} h hd' hd ho := (h.setStateObject hd' hd ho).touch a
  setRefund {u s} h gas :=
    have happ : Akin D r (u.append (.refund u.refund)) (s.append (.refund s.refund)) := h.append rfl
    { happ with refund := rfl }
  addLog {u s} h log := by
    have hpos := h.position
    simp only [Prod.mk.injEq] at hpos
    obtain ⟨hth, hbh, htx⟩ := hpos
    have happ : Akin D r (u.append (.addLog u.thash)) (s.append (.addLog s.thash)) := h.append rfl
    refine { happ with logs := ?_, logSize := ?_ }
    · show Function.update u.logs u.thash _ = Function.update s.logs s.thash _
      have hlogs : u.logs = s.logs := h.logs
      have hsize : u.logSize = s.logSize := h.logSize
      rw [hlogs, hsize, hth, hbh, htx]
    · exact congrArg (· + 1) h.logSize
  snapshot h := { h with journal := rfl }

/-- Accounts of which both states have the database again leave `D`. -/
theorem Akin.narrow {D' : Recipient → Prop} (h : Akin D r u s)
    (hD : ∀ a o' o, u.live a = some o' → s.live a = some o → D a →
      D' a ∨ o'.tokenBalances.db = o.tokenBalances.db) : Akin D' r u s :=
  { h with
    live := fun a => by
      rcases (simulation_akin D r).live_cases h a with ⟨hu, hs⟩ | ⟨o', o, hu, hs, ho⟩
      · show Option.Rel _ (u.live a) (s.live a)
        rw [hu, hs]
        exact .none
      · show Option.Rel _ (u.live a) (s.live a)
        rw [hu, hs]
        refine .some { ho with tokens := { ho.tokens with db := ?_ } }
        rcases ho.tokens.db with hdb | hd
        · exact .inl hdb
        · exact (hD a o' o hu hs hd).symm
    dirties_count := h.dirties_count }

/-! ### Writing back -/

/-- The account's balances are a map of at most `16` non-zero tokens, if the account exists. -/
def FitsMap (s : StateDB) (a : Recipient) : Prop :=
  ∀ o, s.live a = some o → o.tokenBalances.notUsingTrie = true

/-- Writing the RIPEMD account back is due anyway, or would change neither the trie nor the account. -/
def RipemdSettled (s : StateDB) : Prop :=
  ripemd ∈ s.dirties ∨ ∀ o, s.live ripemd = some o → ∀ deleteEmptyObjects, ∃ p,
    o.writeBack deleteEmptyObjects = some (s.trie ripemd, p) ∧ p.deleted = false ∧ SameAccount False p o

/-- What the state without the reverted operations must be like when accounts are written back: those in `D`
that are due fit the map, and the RIPEMD account is settled if its dirty mark may have stayed. -/
structure Settled (D : Recipient → Prop) (r : Prop) (s : StateDB) : Prop where
  fits : ∀ a, D a → a ∈ s.dirties ∨ a = ripemd → FitsMap s a
  ripemd : r → RipemdSettled s

/-- The entry of the account trie and the object that `Finalise` leaves of an account; `none` is a panic. -/
def StateDB.finalisedAt (s : StateDB) (flag : Bool) (a : Recipient) :
    Option (Option EncodedAccount × Option StateObject) :=
  if a ∈ s.dirties then s.written flag a else some (s.trie a, s.stateObjects a)

/-- The live object that an entry of the trie and an object amount to. -/
def liveAt (x : Option EncodedAccount × Option StateObject) : Option StateObject :=
  match x.2 with
  | some o => if o.deleted then none else some o
  | none => x.1.map .newObject

/-- `Finalise` left the same of an account in two states. -/
structure SameEntry (detached : Prop) (x' x : Option EncodedAccount × Option StateObject) : Prop where
  entry : x'.1 = x.1
  live : Option.Rel (SameAccount detached) (liveAt x') (liveAt x)
  loaded : ∀ o, x.2 = some o → o.deleted = false → ∃ o', x'.2 = some o' ∧ o'.deleted = false

theorem sameEntry_of_objects {detached : Prop} {o' o : StateObject} (h : SameAccount detached o' o)
    (hd : o'.deleted = o.deleted) (e : Option EncodedAccount) :
    SameEntry detached (e, some o') (e, some o) where
  entry := rfl
  live := by
    unfold liveAt
    dsimp only
    rw [hd]
    split_ifs
    · exact .none
    · exact .some h
  loaded x hx hdx := by
    cases hx
    exact ⟨o', rfl, hd.trans hdx⟩

theorem written_of_live_eq_some (hw : s.WellFormed) (ha : a ∈ s.dirties) {o : StateObject}
    (hl : s.live a = some o) (flag : Bool) :
    s.written flag a = (o.writeBack flag).map fun x => (x.1, some x.2) := by
  have hloaded : s.Loaded a := by
    rcases hw.dirty ha with hl' | ⟨hn, ht⟩
    · exact hl'
    · unfold StateDB.live at hl
      rw [hn, ht] at hl
      cases hl
  unfold StateDB.written
  rw [hloaded.stateObjects_eq_live, hl]

theorem written_of_live_eq_none (hw : s.WellFormed) (ha : a ∈ s.dirties) (hl : s.live a = none)
    (flag : Bool) : s.written flag a = some (none, none) := by
  unfold StateDB.written
  rcases hw.dirty ha with hl' | ⟨hn, ht⟩
  · obtain ⟨o, ho⟩ := hl'.exists_live
    cases hl.symm.trans ho
  · rw [hn, ht]

section Finalise

variable (h : Akin D r u s) (hu : u.WellFormed) (hs : s.WellFormed) (hS : Settled D r s)
include h hu hs hS

/-- An account that is due in both states. -/
theorem Akin.written (has : a ∈ s.dirties) (flag : Bool) :
    Option.Rel (SameEntry (D a)) (u.written flag a) (s.written flag a) := by
  have hau : a ∈ u.dirties := Multiset.mem_of_le h.dirties_le has
  rcases (simulation_akin D r).live_cases h a with ⟨hlu, hls⟩ | ⟨o', o, hlu, hls, ho⟩
  · rw [written_of_live_eq_none hu hau hlu, written_of_live_eq_none hs has hls]
    exact .some ⟨rfl, .none, nofun⟩
  rw [written_of_live_eq_some hu hau hlu, written_of_live_eq_some hs has hls]
  have hrel := writeBack_congr ho ((deleted_of_live hlu).trans (deleted_of_live hls).symm)
    (fun hd => hS.fits a hd (.inl has) o hls) flag
  generalize o'.writeBack flag = x' at hrel
  generalize o.writeBack flag = x at hrel
  rcases hrel with ⟨hentry, hobject, hdel⟩ | _
  · refine .some ?_
    dsimp only
    rw [hentry]
    exact sameEntry_of_objects hobject hdel _
  · exact .none

/-- The RIPEMD account, when only a reverted touch has left it dirty. -/
theorem Akin.written_ripemd (hx : r) (has : ripemd ∉ s.dirties) (hau : ripemd ∈ u.dirties)
    (flag : Bool) : Option.Rel (SameEntry (D ripemd)) (u.written flag ripemd)
      (some (s.trie ripemd, s.stateObjects ripemd)) := by
  rcases (simulation_akin D r).live_cases h ripemd with ⟨hlu, hls⟩ | ⟨o', o, hlu, hls, ho⟩
  · rw [written_of_live_eq_none hu hau hlu, hs.trie_of_live_eq_none hls]
    refine .some ⟨rfl, ?_, fun o ho hd => ?_⟩
    · have hlive : liveAt (s.trie ripemd, s.stateObjects ripemd) = none := hls
      rw [hs.trie_of_live_eq_none hls] at hlive
      rw [hlive]
      exact .none
    · cases hls.symm.trans (live_of_stateObjects ho hd)
  rw [written_of_live_eq_some hu hau hlu]
  have hrel := writeBack_congr ho ((deleted_of_live hlu).trans (deleted_of_live hls).symm)
    (fun hd => hS.fits ripemd hd (.inr rfl) o hls) flag
  obtain ⟨p, hp, hpd, hsame⟩ := ((hS.ripemd hx).resolve_left has) o hls flag
  rw [hp] at hrel
  generalize o'.writeBack flag = x' at hrel
  rcases hrel with ⟨hentry, hobject, hdel⟩
  refine .some ⟨hentry, ?_, fun _ _ _ => ⟨_, rfl, hdel.trans hpd⟩⟩
  have hlive : SameAccount (D ripemd) _ o :=
    hobject.trans { hsame with tokens := { hsame.tokens with db := hsame.tokens.db.imp_right False.elim } }
  show Option.Rel _ (liveAt (_, some _)) (s.live ripemd)
  unfold liveAt
  dsimp only
  rw [hdel, hpd, hls]
  exact .some hlive

theorem Akin.finalisedAt (flag : Bool) (a : Recipient) :
    Option.Rel (SameEntry (D a)) (u.finalisedAt flag a) (s.finalisedAt flag a) := by
  unfold StateDB.finalisedAt
  by_cases has : a ∈ s.dirties
  · rw [if_pos has, if_pos (Multiset.mem_of_le h.dirties_le has)]
    exact h.written hu hs hS has flag
  rw [if_neg has]
  by_cases hau : a ∈ u.dirties
  · -- only the mark that a reverted touch leaves on the RIPEMD account is on one side alone
    obtain ⟨rfl, hx⟩ : a = ripemd ∧ r := by
      by_contra hno
      have hcount : u.dirties.count a = s.dirties.count a :=
        h.dirties_count a fun ha hr => hno ⟨ha, hr⟩
      have := Multiset.count_pos.mpr hau
      rw [hcount, Multiset.count_eq_zero_of_notMem has] at this
      exact Nat.lt_irrefl 0 this
    rw [if_pos hau]
    exact h.written_ripemd hu hs hS hx has hau flag
  · rw [if_neg hau]
    have htrie : u.trie = s.trie := h.trie
    exact .some ⟨congrFun htrie a, h.live a, fun o ho hd => h.loaded a ⟨o, ho, hd⟩⟩

omit h hu hs hS

/-- The state that `Finalise` leaves. -/
def StateDB.finalised (s : StateDB) (flag : Bool) : StateDB :=
  { s with
    trie := fun a => (s.finalisedAt flag a).elim none Prod.fst
    stateObjects := fun a => (s.finalisedAt flag a).elim none Prod.snd
    journal := []
    dirties := 0
    validRevisions := []
    refund := 0 }

theorem finalise_cases (s : StateDB) (flag : Bool) :
    (∃ a, s.finalisedAt flag a = none) ∧ s.finalise flag = .error .tokenTrieWithoutDatabase ∨
      (∀ a, s.finalisedAt flag a ≠ none) ∧ s.finalise flag = .ok (s.finalised flag) := by
  unfold StateDB.finalise
  by_cases hp : s.WriteBackPanics flag
  · obtain ⟨a, ha, hn⟩ := id hp
    rw [if_pos hp]
    refine .inl ⟨⟨a, ?_⟩, rfl⟩
    unfold StateDB.finalisedAt
    rw [if_pos ha]
    exact Option.isNone_iff_eq_none.mp hn
  rw [if_neg hp]
  refine .inr ⟨fun a ha => ?_, ?_⟩
  · unfold StateDB.finalisedAt at ha
    split_ifs at ha with hmem
    exact hp ⟨a, hmem, Option.isNone_iff_eq_none.mpr ha⟩
  · unfold StateDB.finalised StateDB.finalisedAt
    congr 2
    · funext a
      split_ifs <;> rfl
    · funext a
      split_ifs <;> rfl

include h hu hs hS

/-- **`Finalise` after a revert.** -/
theorem Akin.finalise (flag : Bool) :
    Matched (Akin (fun a => D a ∧ ((s.finalised flag).live a).isSome = true) False) (u.finalise flag)
      (s.finalise flag) := by
  have hat := h.finalisedAt hu hs hS flag
  have hnone : ∀ a, u.finalisedAt flag a = none ↔ s.finalisedAt flag a = none := by
    intro a
    have hrel := hat a
    generalize u.finalisedAt flag a = x at hrel
    generalize s.finalisedAt flag a = y at hrel
    rcases hrel with _ | _ <;> simp
  rcases finalise_cases u flag with ⟨⟨a, ha⟩, hu'⟩ | ⟨hok, hu'⟩
  · rcases finalise_cases s flag with ⟨-, hs'⟩ | ⟨hok, -⟩
    · rw [hu', hs']
      rfl
    · exact absurd ((hnone a).mp ha) (hok a)
  rcases finalise_cases s flag with ⟨⟨a, ha⟩, -⟩ | ⟨hok', hs'⟩
  · exact absurd ((hnone a).mpr ha) (hok a)
  rw [hu', hs']
  have hentry : ∀ a, ∃ x' x, u.finalisedAt flag a = some x' ∧ s.finalisedAt flag a = some x ∧
      SameEntry (D a) x' x := by
    intro a
    obtain ⟨x', hx'⟩ := Option.ne_none_iff_exists'.mp (hok a)
    obtain ⟨x, hx⟩ := Option.ne_none_iff_exists'.mp (hok' a)
    have hrel := hat a
    rw [hx', hx] at hrel
    rcases hrel with ⟨hrel⟩
    exact ⟨x', x, hx', hx, hrel⟩
  have hakin : Akin D False (u.finalised flag) (s.finalised flag) := by
    refine { h with
      trie := funext fun a => ?_
      live := fun a => ?_
      loaded := fun a hl => ?_
      journal := rfl
      dirties_le := le_rfl
      dirties_count := fun _ _ => rfl
      refund := rfl }
    · obtain ⟨x', x, hx', hx, hrel⟩ := hentry a
      show (u.finalisedAt flag a).elim none Prod.fst = (s.finalisedAt flag a).elim none Prod.fst
      rw [hx', hx]
      exact hrel.entry
    · obtain ⟨x', x, hx', hx, hrel⟩ := hentry a
      show Option.Rel _ (liveAt ((u.finalisedAt flag a).elim none Prod.fst, (u.finalisedAt flag a).elim none Prod.snd))
        (liveAt ((s.finalisedAt flag a).elim none Prod.fst, (s.finalisedAt flag a).elim none Prod.snd))
      rw [hx', hx]
      exact hrel.live
    · obtain ⟨x', x, hx', hx, hrel⟩ := hentry a
      obtain ⟨o, ho, hd⟩ := hl
      have hxo : x.2 = some o := by
        rw [← ho]
        show _ = (s.finalisedAt flag a).elim none Prod.snd
        rw [hx]
        rfl
      obtain ⟨o', ho', hd'⟩ := hrel.loaded o hxo hd
      refine ⟨o', ?_, hd'⟩
      show (u.finalisedAt flag a).elim none Prod.snd = some o'
      rw [hx']
      exact ho'
  refine hakin.narrow fun a _ o _ ho hD => .inl ⟨hD, ?_⟩
  rw [ho]
  rfl

end Finalise

/-! ### A run after the revert -/

/-- What may follow a revert besides `Finalise`: `CreateAccount` only of an account without a token trie, whose
cache would be carried over, and no further revert. -/
def BlockOp.Continues (s : StateDB) : BlockOp → Prop
  | .perform (.createAccount a) => ∀ o, s.live a = some o → o.tokenBalances.tokenTrie = none
  | .perform (.revertToSnapshot _) | .finalise _ => False
  | _ => True

/-- The account whose balances an operation replaces, whatever they were attached to. -/
def BlockOp.renews : BlockOp → Option Recipient
  | .perform (.createAccount a) | .perform (.suicide a) => some a
  | _ => none

/-- **What follows a revert**, in the run without the reverted operations.  `D` are the accounts that the
revert left without a database, and `r` says that the mark on the RIPEMD account may have stayed; whenever
accounts are written back, and at the end, the state is `Settled`.  An account whose balances are replaced, or
that is gone, leaves `D`. -/
inductive Later : (Recipient → Prop) → Prop → StateDB → List BlockOp → StateDB → Prop
  | stop {D : Recipient → Prop} {r : Prop} {s : StateDB} (h : Settled D r s) : Later D r s [] s
  | step {D : Recipient → Prop} {r : Prop} {s s' t : StateDB} {b : BlockOp} {rest : List BlockOp}
      (hb : b.Continues s) (hrun : b.run s = .ok s')
      (hrest : Later (fun a => D a ∧ b.renews ≠ some a) r s' rest t) : Later D r s (b :: rest) t
  | finalise {D : Recipient → Prop} {r : Prop} {s s' t : StateDB} {flag : Bool} {rest : List BlockOp}
      (h : Settled D r s) (hrun : s.finalise flag = .ok s')
      (hrest : Later (fun a => D a ∧ (s'.live a).isSome = true) False s' rest t) :
      Later D r s (.finalise flag :: rest) t

theorem db_createAccount {o : StateObject} (h : (s.createAccount a).live a = some o) :
    o.tokenBalances.db = (s.live a).isNone := by
  cases hl : s.live a with
  | none =>
    rw [createAccount_of_live_eq_none hl, live_created_self] at h
    cases h
    rfl
  | some x =>
    have hself : (s.createAccount a).live a =
        some ((StateObject.blank x.fullShardKey).setBalances x.tokenBalances.balances) := by
      rw [createAccount_of_live_eq_some hl]
      exact live_setStateObject_self rfl
    cases hself.symm.trans h
    rfl

theorem db_suicide {o : StateObject} (h : (s.suicide a).2.live a = some o) :
    o.tokenBalances.db = true := by
  cases hl : s.live a with
  | none =>
    rw [suicide_of_live_eq_none hl] at h
    cases hl.symm.trans h
  | some x =>
    have hself : (s.suicide a).2.live a = some { x with suicided := true, tokenBalances := .new } := by
      rw [suicide_of_live_eq_some hl]
      have hd : x.deleted = false := deleted_of_live hl
      exact live_setStateObject_self hd
    cases hself.symm.trans h
    rfl

/-- Replaced balances are attached alike in both states. -/
theorem Akin.renewed (h : Akin D r u s) {b : BlockOp} (hb : b.renews = some a) (hu : b.run u = .ok u')
    (hs : b.run s = .ok s') {o' o : StateObject} (ho' : u'.live a = some o') (ho : s'.live a = some o) :
    o'.tokenBalances.db = o.tokenBalances.db := by
  have hnone : (u.live a).isNone = (s.live a).isNone := by
    rcases (simulation_akin D r).live_cases h a with ⟨hlu, hls⟩ | ⟨_, _, hlu, hls, -⟩
    · rw [hlu, hls]
    · rw [hlu, hls]
      rfl
  cases b with
  | perform op =>
    cases op with
    | createAccount x =>
      cases hb
      cases hu
      cases hs
      rw [db_createAccount ho', db_createAccount ho, hnone]
    | suicide x =>
      cases hb
      cases hu
      cases hs
      rw [db_suicide ho', db_suicide ho]
    | _ => cases hb
  | _ => cases hb

/-- **One operation after a revert.** -/
theorem Akin.step (h : Akin D r u s) {b : BlockOp} (hb : b.Continues s) (hrun : b.run s = .ok s') :
    ∃ u', b.run u = .ok u' ∧ Akin (fun a => D a ∧ b.renews ≠ some a) r u' s' := by
  have hrun' : ∃ u', b.run u = .ok u' ∧ Akin D r u' s' := by
    cases b with
    | perform op =>
      have hmap : ∀ a, op = .createAccount a → ∀ o' o, u.live a = some o' → s.live a = some o →
          o'.tokenBalances.balances = o.tokenBalances.balances := by
        rintro a rfl o' o hlu hls
        rcases (simulation_akin D r).live_cases h a with ⟨-, hn⟩ | ⟨x', x, hx', hx, hobject⟩
        · cases hn.symm.trans hls
        cases hx'.symm.trans hlu
        cases hx.symm.trans hls
        exact hobject.tokens.balances (hb o hls)
      have hrev : op.revertsTo = none := by
        cases op with
        | revertToSnapshot => exact hb.elim
        | _ => rfl
      have hmatched := (simulation_akin D r).op h op hrev hmap
      rw [show op.run s = .ok s' from hrun] at hmatched
      rcases hmatched.cases with ⟨e, -, he⟩ | ⟨u', x, hu', hx, hakin⟩
      · cases he
      · cases hx
        exact ⟨u', hu', hakin⟩
    | finalise => exact hb.elim
    | prepare =>
      cases hrun
      exact ⟨_, rfl, { h with position := rfl }⟩
    | setFullShardKey =>
      cases hrun
      exact ⟨_, rfl, { h with fullShardKey := rfl }⟩
    | setBlock =>
      cases hrun
      exact ⟨_, rfl, { h with block := rfl }⟩
  obtain ⟨u', hu', hakin⟩ := hrun'
  refine ⟨u', hu', hakin.narrow fun a o' o ho' ho hD => ?_⟩
  by_cases hr : b.renews = some a
  · exact .inr (h.renewed hr hu' hrun ho' ho)
  · exact .inl ⟨hD, hr⟩

/-- What `Akin` states have in common can be observed, and nothing else until accounts are written back. -/
theorem Akin.sameObservables (h : Akin D r u s) (hu : u.WellFormed) (hs : s.WellFormed)
    (hS : Settled D r s) : SameObservables u s := by
  have hlive : ∀ {β : Type} (a : Recipient) (b : β) (f : StateObject → β),
      (∀ o' o, SameAccount (D a) o' o → f o' = f o) → (u.live a).elim b f = (s.live a).elim b f := by
    intro β a b f hf
    rcases (simulation_akin D r).live_cases h a with ⟨hlu, hls⟩ | ⟨o', o, hlu, hls, ho⟩
    · rw [hlu, hls]
    · rw [hlu, hls]
      exact hf o' o ho
  exact {
    exist := fun a => by
      have hsome : ∀ x : Option StateObject, x.isSome = x.elim false fun _ => true := by
        rintro (_ | _) <;> rfl
      rw [exist_fst, exist_fst, hsome, hsome]
      exact hlive a _ _ fun _ _ _ => rfl
    empty := fun a => by
      rw [empty_fst, empty_fst]
      exact hlive a _ _ fun _ _ ho => empty_congr ho
    balance := fun a tokenID => by
      rw [getBalance_fst, getBalance_fst]
      exact hlive a _ _ fun _ _ ho => congrFun ho.tokens.balance tokenID
    nonce := fun a => by
      rw [getNonce_fst, getNonce_fst]
      exact hlive a _ _ fun _ _ ho => ho.nonce
    code := fun a => by
      rw [getCode_fst, getCode_fst]
      exact hlive a _ _ fun _ _ ho => ho.code
    storage := fun a key => by
      rw [getState_fst, getState_fst]
      exact hlive a _ _ fun _ _ ho => congrFun ho.state key
    suicided := fun a => by
      rw [hasSuicided_fst, hasSuicided_fst]
      exact hlive a _ _ fun _ _ ho => ho.suicided
    fullShardKey := fun a => by
      have hkey : u.fullShardKey = s.fullShardKey := h.fullShardKey
      rw [getFullShardKey_fst, getFullShardKey_fst, hkey]
      exact hlive a _ _ fun _ _ ho => ho.fullShardKey
    refund := h.refund
    logs := h.logs
    root := fun flag => by
      unfold StateDB.intermediateRoot
      rcases (h.finalise hu hs hS flag).cases with ⟨e, hu', hs'⟩ | ⟨x, y, hu', hs', hxy⟩
      · rw [hu', hs']
      · rw [hu', hs']
        exact congrArg Except.ok hxy.trie }

/-- **The run after a revert** ends in a state that nobody can tell from the one without the reverted part. -/
theorem Later.runAll {later : List BlockOp} {t : StateDB} (hl : Later D r s later t) (h : Akin D r u s)
    (hu : u.Consistent) (hs : s.Consistent) : ∃ t', runAll u later = .ok t' ∧ SameObservables t' t := by
  induction hl generalizing u with
  | stop hS => exact ⟨u, rfl, h.sameObservables hu.wellFormed hs.wellFormed hS⟩
  | @step D r s s' t b rest hb hrun _ ih =>
    obtain ⟨u', hu', hakin⟩ := h.step hb hrun
    obtain ⟨t', ht', hsame⟩ := ih hakin (consistent_blockOp hu hu') (consistent_blockOp hs hrun)
    exact ⟨t', by simp only [State.runAll, hu', ht'], hsame⟩
  | @finalise D r s s' t flag rest hS hrun _ ih =>
    have hmatched := h.finalise hu.wellFormed hs.wellFormed hS flag
    have hfin : s.finalised flag = s' := by
      rcases finalise_cases s flag with ⟨-, he⟩ | ⟨-, hok⟩
      · cases hrun.symm.trans he
      · exact Except.ok.inj (hok.symm.trans hrun)
    rw [hfin, hrun] at hmatched
    rcases hmatched.cases with ⟨e, -, he⟩ | ⟨u', x, hu', hx, hakin⟩
    · cases he
    cases hx
    obtain ⟨t', ht', hsame⟩ := ih hakin (consistent_finalise hu hu') (consistent_finalise hs hrun)
    exact ⟨t', by simp only [State.runAll, BlockOp.run, hu', ht'], hsame⟩

/-- **`RevertToSnapshot` restores every observable** after any sequence of undoable operations, further snapshots
and reverts included, and does not panic: whatever follows the revert, every reader and every state root is the
one that the same operations give without the reverted ones, as long as no account whose balances were put back
(`D`, of those that existed at the snapshot) has to be moved to a token trie. -/
theorem revertToSnapshot_restores {trie : Recipient → Option EncodedAccount} {block : BlockFields}
    {s₀ s : StateDB} (h₀ : Reachable trie block s₀)
    (hrun : Reaches (fun s (op : Op) s' => op.run s = .ok s') (Undoable D r s₀) s₀.snapshot.2 s) :
    ∃ s', s.revertToSnapshot s₀.snapshot.1 = .ok s' ∧ ∀ later t,
      Later (fun a => D a ∧ (s₀.live a).isSome = true) r s₀ later t →
        ∃ t', runAll s' later = .ok t' ∧ SameObservables t' t := by
  have hc := consistent_of_reachable h₀
  obtain ⟨s', hs', hrestored, hc'⟩ := revertToSnapshot_restored hc hrun
  refine ⟨s', hs', fun later t hl => hl.runAll ?_ hc' hc⟩
  refine (akin_of_restored hrestored).narrow fun a _ o _ ho hD => .inl ⟨hD, ?_⟩
  rw [ho]
  rfl

/-- A credit of another token, the end of the transaction, and a debit in the next one. -/
def sampleLater : List BlockOp :=
  [.perform (.addBalance 1 2 9), .finalise true, .perform (.subBalance 1 4 7)]

/-- A credit and a nonce change of an account with a map are given back, for good. -/
theorem revertToSnapshot_restores_sample :
    ∃ s' t t', ((sampleState.snapshot.2.addBalance 1 3 7).setNonce 1 4).revertToSnapshot 0 = .ok s' ∧
      runAll sampleState sampleLater = .ok t ∧ runAll s' sampleLater = .ok t' ∧
      SameObservables t' t := by
  have hadd : Undoable (· = 1) False sampleState sampleState.snapshot.2 (.addBalance 1 3 7) := by
    refine ⟨fun a ha => ?_, nofun, nofun⟩
    cases ha
    refine ⟨rfl, fun o ho => ?_⟩
    cases ho
    rfl
  have hnonce : Undoable (· = 1) False sampleState (sampleState.snapshot.2.addBalance 1 3 7)
      (.setNonce 1 4) := ⟨nofun, nofun, nofun⟩
  obtain ⟨s', hs', hlater⟩ :=
    revertToSnapshot_restores .start ((Reaches.start.step hadd rfl).step hnonce rfl)
  have hsettled : ∀ {D : Recipient → Prop} {s : StateDB}, (∀ a, D a → a = 1) →
      (s.live 1).all (fun o => o.tokenBalances.notUsingTrie) = true → Settled D False s := by
    intro D s hD hall
    refine ⟨fun a ha _ x hx => ?_, False.elim⟩
    obtain rfl := hD a ha
    rw [hx] at hall
    exact hall
  have hrun : ∃ t, Later (fun a => a = 1 ∧ (sampleState.live a).isSome = true) False sampleState
      sampleLater t ∧ runAll sampleState sampleLater = .ok t := by
    refine ⟨_, .step trivial rfl (.finalise ?_ rfl (.step trivial rfl (.stop ?_))), rfl⟩
    · exact hsettled (fun a ha => ha.1.1) (by decide +kernel)
    · exact hsettled (fun a ha => ha.1.1.1.1) (by decide +kernel)
  obtain ⟨t, hlate, ht⟩ := hrun
  obtain ⟨t', ht', hsame⟩ := hlater sampleLater t hlate
  exact ⟨s', t, t', hs', ht, ht', hsame⟩

/-- `16` credits of different tokens. -/
def sixteenTokens : List BlockOp := (List.range 16).map fun n => .perform (.addBalance 1 1 (8 + n))

/-- **A revert loses the token trie:** account `2` holds `5` of token `7`; after a credit of another
token is reverted it holds none.  And it loses the database: account `1` holds one token, a credit of it is
reverted, and with `16` more tokens the state root can be computed only without the reverted credit. -/
theorem revert_drops_tokenTrie :
    ((sampleState.getBalance 2 7).1 = 5 ∧
      ∃ s', (sampleState.snapshot.2.addBalance 2 1 100).revertToSnapshot sampleState.snapshot.1 = .ok s' ∧
        (s'.getBalance 2 7).1 = 0) ∧
    ((runAll sampleState sixteenTokens).bind fun t => t.intermediateRoot true).isOk = true ∧
    ((((sampleState.snapshot.2.addBalance 1 1 7).revertToSnapshot sampleState.snapshot.1).bind fun s' =>
      runAll s' sixteenTokens).bind fun t => t.intermediateRoot true).isOk = false :=
  ⟨⟨rfl, _, rfl, rfl⟩, by decide +kernel⟩

end QuarkChain.State
