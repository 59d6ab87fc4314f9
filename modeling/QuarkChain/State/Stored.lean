/-
# What writing an account back keeps

`Finalise` and `Commit` (`src/core/state/statedb.go`) flush an object and put its encoding in the account
trie.  `writeBack_spec` says that the entry and the object then hold what the object held, and
`writeBack_eq_none_iff` when it panics: the balances outgrew the list, and `CreateAccount` had replaced
them by a map with no database to open a trie in.

`Touches` is what an operation on one account does to the rest of the state.
-/
import QuarkChain.State.Total

namespace QuarkChain.State

open QuarkChain.Types

/-! ### Entries of the account trie -/

def entryBalance (entry : Option EncodedAccount) (t : TokenID) : ℕ :=
  entry.elim 0 fun data => (TokenBalances.decode data.tokens).balance t

theorem lookup_nonZeroEntries_eq_some_iff {m : TokenMap} {t : TokenID} {amount : ℕ} :
    (nonZeroEntries m).lookup t = some amount ↔ m.lookup t = some amount ∧ 0 < amount := by
  rw [Finmap.lookup_eq_some_iff, Finmap.lookup_eq_some_iff]
  unfold nonZeroEntries
  rw [Multiset.mem_filter]

theorem amount_nonZeroEntries (m : TokenMap) (t : TokenID) :
    TokenMap.amount (nonZeroEntries m) t = TokenMap.amount m t := by
  unfold TokenMap.amount
  cases hl : (nonZeroEntries m).lookup t with
  | some amount => rw [(lookup_nonZeroEntries_eq_some_iff.mp hl).1]
  | none =>
    rcases hm : m.lookup t with _ | amount
    · rfl
    rcases Nat.eq_zero_or_pos amount with hz | hpos
    · rw [hz]
      rfl
    · rw [lookup_nonZeroEntries_eq_some_iff.mpr ⟨hm, hpos⟩] at hl
      cases hl

namespace TokenBalances

variable {b b' : TokenBalances}

theorem balance_of_tokenTrie_eq_none (h : b.tokenTrie = none) (t : TokenID) :
    b.balance t = TokenMap.amount b.balances t := by
  unfold balance TokenMap.amount
  rw [h]
  cases b.balances.lookup t <;> rfl

theorem balance_of_isBlank (h : b.isBlank = true) (t : TokenID) : b.balance t = 0 := by
  simp only [isBlank, nonZeroEntriesInBalancesCache, Bool.and_eq_true, Option.isNone_iff_eq_none,
    beq_iff_eq, Finset.card_eq_zero] at h
  have hnone : (nonZeroEntries b.balances).lookup t = none := by
    rw [Finmap.lookup_eq_none, ← Finmap.mem_keys, h.2]
    exact Finset.notMem_empty t
  rw [balance_of_tokenTrie_eq_none h.1, ← amount_nonZeroEntries]
  unfold TokenMap.amount
  rw [hnone]
  rfl

theorem commit_of_isBlank (h : b.isBlank = true) : b.commit = some b := by
  have hlist : b.notUsingTrie = true := by
    simp only [isBlank, Bool.and_eq_true, beq_iff_eq] at h
    simp [notUsingTrie, h.1, h.2]
  unfold commit
  rw [if_pos hlist]

/-- The map has outgrown the list, and there is neither a trie nor a database to open one in. -/
def Stranded (b : TokenBalances) : Prop :=
  b.tokenTrie = none ∧ b.db = false ∧ tokenTrieThreshold < b.nonZeroEntriesInBalancesCache

theorem commit_eq_none_iff : b.commit = none ↔ b.Stranded := by
  unfold commit Stranded
  by_cases hlist : b.notUsingTrie = true
  · rw [if_pos hlist]
    simp only [notUsingTrie, Bool.and_eq_true, Option.isNone_iff_eq_none, decide_eq_true_eq] at hlist
    exact iff_of_false (Option.some_ne_none _) fun h => absurd h.2.2 (Nat.not_lt.mpr hlist.2)
  rw [if_neg hlist]
  simp only [notUsingTrie, Bool.and_eq_true, Option.isNone_iff_eq_none, decide_eq_true_eq, not_and,
    not_le] at hlist
  split_ifs with hdb
  · simp only [Bool.and_eq_true, Option.isNone_iff_eq_none, Bool.not_eq_true'] at hdb
    exact iff_of_true rfl ⟨hdb.1, hdb.2, hlist hdb.1⟩
  · refine iff_of_false not_false fun h => hdb ?_
    rw [h.1, h.2.1]
    rfl

theorem encode_commit (h : b.commit = some b') :
    ∃ tokens, b'.encode = some tokens ∧ ∀ t, (decode tokens).balance t = b.balance t := by
  unfold commit at h
  split_ifs at h with hlist hdb
  · cases h
    have htrie : b.tokenTrie = none := by
      simp only [notUsingTrie, Bool.and_eq_true, Option.isNone_iff_eq_none] at hlist
      exact hlist.1
    unfold encode
    rw [htrie]
    dsimp only
    rw [hlist]
    by_cases hempty : b.balances = ∅
    · refine ⟨.empty, by simp [hempty], fun t => ?_⟩
      rw [balance_of_tokenTrie_eq_none htrie, hempty]
      rfl
    · refine ⟨.list (nonZeroEntries b.balances), by simp [hempty], fun t => ?_⟩
      rw [balance_of_tokenTrie_eq_none htrie, balance_of_tokenTrie_eq_none rfl]
      exact amount_nonZeroEntries b.balances t
  · cases h
    refine ⟨.trie b.balance, ?_, fun t => rfl⟩
    unfold encode
    exact if_pos rfl

theorem tokenTrie_commit {content : TokenID → ℕ} (ht : b.tokenTrie = some content)
    (h : b.commit = some b') : b'.tokenTrie = some b.balance := by
  unfold commit notUsingTrie at h
  rw [ht] at h
  simp only [Option.isNone_some, Bool.false_and, Bool.false_eq_true, if_false, Option.some.injEq] at h
  rw [← h]

end TokenBalances

namespace StateObject

variable {o : StateObject} {flag : Bool} {r : Option EncodedAccount × StateObject}

theorem isBlank_of_empty (h : o.empty = true) : o.tokenBalances.isBlank = true := by
  unfold StateObject.empty at h
  simp only [Bool.and_eq_true] at h
  exact h.1.2

/-- **When writing back panics.** -/
theorem writeBack_eq_none_iff (hs : o.suicided = false) :
    o.writeBack flag = none ↔ o.tokenBalances.Stranded := by
  rw [← TokenBalances.commit_eq_none_iff]
  unfold writeBack updateRoot
  rw [hs, Bool.false_or]
  split_ifs with hempty
  · rw [Bool.and_eq_true] at hempty
    rw [TokenBalances.commit_of_isBlank (isBlank_of_empty hempty.2)]
    simp only [reduceCtorEq]
  · rcases hc : o.tokenBalances.commit with _ | b
    · simp only [Option.map_none, Option.bind_none]
    obtain ⟨tokens, htokens, -⟩ := TokenBalances.encode_commit hc
    simp only [Option.map_some, Option.bind_some, encode, htokens, reduceCtorEq]

/-- What is kept of an object that is written back. -/
structure KeptBy (o : StateObject) (r : Option EncodedAccount × StateObject) : Prop where
  entry : ∀ t, entryBalance r.1 t = o.tokenBalances.balance t
  balance : ∀ t, r.2.tokenBalances.balance t = o.tokenBalances.balance t
  suicided : r.2.suicided = false
  deleted : (o.deleted = true → o.tokenBalances.isBlank = true) → r.2.deleted = true →
    r.2.tokenBalances.isBlank = true
  tokenTrie : o.tokenBalances.tokenTrie.isSome = true →
    r.2.tokenBalances.tokenTrie = some o.tokenBalances.balance

/-- **Writing back keeps the balances**, in the entry and in the object. -/
theorem writeBack_spec (hs : o.suicided = false) (h : o.writeBack flag = some r) : KeptBy o r := by
  unfold writeBack updateRoot at h
  rw [hs, Bool.false_or] at h
  split_ifs at h with hempty
  · cases h
    rw [Bool.and_eq_true] at hempty
    have hblank := isBlank_of_empty hempty.2
    refine ⟨fun t => ?_, fun t => rfl, rfl, fun _ _ => hblank, fun ht => ?_⟩
    · rw [TokenBalances.balance_of_isBlank hblank]
      rfl
    · simp only [TokenBalances.isBlank, Bool.and_eq_true, Option.isNone_iff_eq_none] at hblank
      rw [hblank.1] at ht
      cases ht
  · obtain ⟨x, hx, h⟩ := Option.bind_eq_some_iff.mp h
    obtain ⟨b, hb, rfl⟩ := Option.map_eq_some_iff.mp hx
    obtain ⟨tokens, htokens, hdecode⟩ := TokenBalances.encode_commit hb
    simp only [encode, htokens, Option.map_some, Option.some.injEq] at h
    subst h
    refine ⟨hdecode, fun t => TokenBalances.balance_commit hb, rfl, fun hblank hd => ?_, fun ht => ?_⟩
    · have hsame := TokenBalances.commit_of_isBlank (hblank hd)
      rw [hb, Option.some.injEq] at hsame
      rw [hsame]
      exact hblank hd
    · obtain ⟨content, hcontent⟩ := Option.isSome_iff_exists.mp ht
      exact TokenBalances.tokenTrie_commit hcontent hb

end StateObject

namespace StateDB

variable {s s' : StateDB} {a b : Recipient} {o : StateObject} {t tokenID : TokenID} {amount : ℕ}

/-- The second state has another object for one account, fresh or with the token trie of the live one. -/
structure Touches (a : Recipient) (s s' : StateDB) : Prop where
  trie : s'.trie = s.trie
  others : ∀ b, b ≠ a → s'.stateObjects b = s.stateObjects b
  dirties : ∀ b, b ≠ a → (b ∈ s'.dirties ↔ b ∈ s.dirties)
  dirty : a ∈ s.dirties → a ∈ s'.dirties
  object : (s'.stateObjects a = s.stateObjects a ∧ (a ∈ s'.dirties → a ∈ s.dirties)) ∨
    ∃ o', s'.stateObjects a = some o' ∧ o'.deleted = false ∧
      ((o'.suicided = false ∧ o'.tokenBalances.tokenTrie = none) ∨
        ∃ o, s.live a = some o ∧ o'.suicided = o.suicided ∧
          o'.tokenBalances.tokenTrie = o.tokenBalances.tokenTrie)

theorem Touches.refl (a : Recipient) (s : StateDB) : Touches a s s :=
  ⟨rfl, fun _ _ => rfl, fun _ _ => Iff.rfl, id, .inl ⟨rfl, id⟩⟩

variable {o' : StateObject}

theorem Touches.replace {u : StateDB} (htrie : u.trie = s.trie)
    (hothers : ∀ b, b ≠ a → u.stateObjects b = s.stateObjects b)
    (hdirties : ∀ b, b ≠ a → (b ∈ u.dirties ↔ b ∈ s.dirties)) (hdirty : a ∈ s.dirties → a ∈ u.dirties)
    (hd : o'.deleted = false) (ho : (o'.suicided = false ∧ o'.tokenBalances.tokenTrie = none) ∨
      ∃ o, s.live a = some o ∧ o'.suicided = o.suicided ∧
        o'.tokenBalances.tokenTrie = o.tokenBalances.tokenTrie) :
    Touches a s (u.setStateObject a o') where
  trie := htrie
  others b hb := (stateObjects_setStateObject_of_ne hb).trans (hothers b hb)
  dirties := hdirties
  dirty := hdirty
  object := .inr ⟨o', stateObjects_setStateObject_self, hd, ho⟩

@[simp] theorem trie_ensured : (s.ensured a).trie = s.trie := by
  unfold ensured
  split_ifs <;> rfl

theorem stateObjects_ensured_of_ne (hb : b ≠ a) : (s.ensured a).stateObjects b = s.stateObjects b := by
  unfold ensured
  split_ifs
  · rfl
  · exact stateObjects_setStateObject_of_ne hb

theorem mem_dirties_ensured_of_ne (hb : b ≠ a) : b ∈ (s.ensured a).dirties ↔ b ∈ s.dirties := by
  unfold ensured
  split_ifs
  · rfl
  · exact Multiset.mem_cons.trans (or_iff_right hb)

theorem mem_dirties_ensured (ha : a ∈ s.dirties) : a ∈ (s.ensured a).dirties := by
  unfold ensured
  split_ifs
  · exact ha
  · exact Multiset.mem_cons_self ..

theorem like_ensured (h : (s.ensured a).live a = some o) :
    (o.suicided = false ∧ o.tokenBalances.tokenTrie = none) ∨
      ∃ x, s.live a = some x ∧ o.suicided = x.suicided ∧
        o.tokenBalances.tokenTrie = x.tokenBalances.tokenTrie := by
  cases hl : s.live a with
  | some x =>
    rw [ensured_of_live_eq_some hl, hl, Option.some.injEq] at h
    exact .inr ⟨x, rfl, by rw [h], by rw [h]⟩
  | none =>
    rw [ensured_of_live_eq_none hl, live_created_self, Option.some.injEq] at h
    rw [← h]
    exact .inl ⟨rfl, rfl⟩

theorem Touches.ensured (ho : (s.ensured a).live a = some o)
    (hd : o'.deleted = o.deleted) (hs : o'.suicided = o.suicided)
    (ht : o'.tokenBalances.tokenTrie = o.tokenBalances.tokenTrie) :
    Touches a s ((s.ensured a).setStateObject a o') := by
  refine .replace trie_ensured (fun b => stateObjects_ensured_of_ne) (fun b => mem_dirties_ensured_of_ne)
    mem_dirties_ensured (hd.trans (deleted_of_live ho)) ?_
  rw [hs, ht]
  exact like_ensured ho

theorem Touches.dirtied {u : StateDB} (ho : (s.ensured a).live a = some o)
    (htrie : u.trie = (s.ensured a).trie) (hobjects : u.stateObjects = (s.ensured a).stateObjects)
    (hdirties : ∀ b, b ≠ a → (b ∈ u.dirties ↔ b ∈ (s.ensured a).dirties)) (hdirty : a ∈ u.dirties)
    (hd : o'.deleted = o.deleted) (hs : o'.suicided = o.suicided)
    (ht : o'.tokenBalances.tokenTrie = o.tokenBalances.tokenTrie) :
    Touches a s (u.setStateObject a o') := by
  refine .replace (htrie.trans trie_ensured) (fun b hb => ?_)
    (fun b hb => (hdirties b hb).trans (mem_dirties_ensured_of_ne hb)) (fun _ => hdirty)
    (hd.trans (deleted_of_live ho)) ?_
  · rw [hobjects, stateObjects_ensured_of_ne hb]
  · rw [hs, ht]
    exact like_ensured ho

theorem mem_dirties_touch_self : a ∈ (s.touch a).dirties := by
  unfold touch
  dsimp only
  split_ifs
  · exact Multiset.mem_cons_self ..
  · exact Multiset.mem_cons_self ..

theorem mem_dirties_touch_of_ne (hb : b ≠ a) : b ∈ (s.touch a).dirties ↔ b ∈ s.dirties := by
  unfold touch
  dsimp only
  split_ifs
  · exact Multiset.mem_cons.trans ((or_iff_right hb).trans (Multiset.mem_cons.trans (or_iff_right hb)))
  · exact Multiset.mem_cons.trans (or_iff_right hb)

theorem stateObjects_touch : (s.touch a).stateObjects = s.stateObjects := by
  unfold touch
  dsimp only
  split_ifs <;> rfl

theorem touch_setStateObject : (s.setStateObject a o).touch a = (s.touch a).setStateObject a o := by
  unfold touch
  dsimp only
  split_ifs <;> rfl

theorem mem_dirties_setObjectBalance : a ∈ (s.setObjectBalance a o amount tokenID).dirties :=
  Multiset.mem_cons_self ..

theorem Touches.setObjectBalance (ho : (s.ensured a).live a = some o)
    (hd : o'.deleted = o.deleted) (hs : o'.suicided = o.suicided)
    (ht : o'.tokenBalances.tokenTrie = o.tokenBalances.tokenTrie) :
    Touches a s ((s.ensured a).setObjectBalance a o' amount tokenID) :=
  .dirtied (u := (s.ensured a).append (.balance a o'.tokenBalances.getBalanceMap)) ho rfl rfl
    (fun _ hb => Multiset.mem_cons.trans (or_iff_right hb)) (Multiset.mem_cons_self ..) hd hs ht

theorem touches_addBalance : Touches a s (s.addBalance a amount tokenID) ∧
    a ∈ (s.addBalance a amount tokenID).dirties := by
  obtain ⟨o, ho⟩ := exists_live_ensured s a
  by_cases hz : amount = 0
  · rw [hz, addBalance_zero ho, touch_setStateObject]
    have htrie : ((s.ensured a).touch a).trie = (s.ensured a).trie := by
      unfold touch
      dsimp only
      split_ifs <;> rfl
    exact ⟨.dirtied ho htrie stateObjects_touch (fun b hb => mem_dirties_touch_of_ne hb)
      mem_dirties_touch_self rfl rfl rfl, mem_dirties_touch_self⟩
  · rw [addBalance_of_ne_zero ho hz]
    exact ⟨.setObjectBalance ho rfl rfl TokenBalances.getTokenBalance_tokenTrie,
      mem_dirties_setObjectBalance⟩

theorem touches_subBalance (h : s.subBalance a amount tokenID = .ok s') :
    Touches a s s' ∧ (amount ≠ 0 → a ∈ s'.dirties) := by
  obtain ⟨o, ho⟩ := exists_live_ensured s a
  rw [subBalance_eq ho] at h
  split_ifs at h with hz hlt
  · cases h
    exact ⟨.ensured ho rfl rfl rfl, fun hne => absurd hz hne⟩
  · cases h
    exact ⟨.setObjectBalance ho rfl rfl TokenBalances.getTokenBalance_tokenTrie,
      fun _ => mem_dirties_setObjectBalance⟩

theorem touches_setBalance : Touches a s (s.setBalance a amount tokenID) ∧
    a ∈ (s.setBalance a amount tokenID).dirties := by
  obtain ⟨o, ho⟩ := exists_live_ensured s a
  rw [setBalance_eq ho]
  exact ⟨.setObjectBalance ho rfl rfl rfl, mem_dirties_setObjectBalance⟩

theorem touches_getBalance : Touches a s (s.getBalance a tokenID).2 := by
  cases h : s.live a with
  | none =>
    rw [getBalance_of_live_eq_none h]
    exact .refl a s
  | some o =>
    rw [getBalance_of_live_eq_some h]
    exact .replace rfl (fun _ _ => rfl) (fun _ _ => Iff.rfl) id (deleted_of_live h :)
      (.inr ⟨o, h, rfl, TokenBalances.getTokenBalance_tokenTrie⟩)

theorem touches_getBalances : Touches a s (s.getBalances a).2 := by
  obtain ⟨o, ho⟩ := exists_live_ensured s a
  unfold getBalances
  rw [getOrNewStateObject_eq ho]
  exact .ensured ho rfl rfl rfl

theorem touches_createAccount : Touches a s (s.createAccount a) := by
  cases h : s.live a with
  | none =>
    rw [createAccount_of_live_eq_none h]
    exact .replace (u := s.append (.createObject a)) rfl (fun _ _ => rfl)
      (fun _ hb => Multiset.mem_cons.trans (or_iff_right hb)) (fun _ => Multiset.mem_cons_self ..) rfl
      (.inl ⟨rfl, rfl⟩)
  | some o =>
    rw [createAccount_of_live_eq_some h]
    exact .replace (u := s.append (.resetObject a o)) rfl (fun _ _ => rfl) (fun _ _ => Iff.rfl) id rfl
      (.inl ⟨rfl, rfl⟩)

/-- **`CreateAccount` carries over the map**, whatever the account held in its trie. -/
theorem balanceOf_createAccount : (s.createAccount a).balanceOf b t =
      if b = a then (s.live a).elim 0 fun o => TokenMap.amount o.tokenBalances.balances t
      else s.balanceOf b t := by
  cases h : s.live a with
  | none =>
    rw [createAccount_of_live_eq_none h]
    split_ifs with hb
    · subst hb
      rw [balanceOf_of_live live_created_self]
      rfl
    · exact balanceOf_congr (live_created_of_ne hb)
  | some o =>
    rw [createAccount_of_live_eq_some h, balanceOf_setStateObject rfl]
    split_ifs with hb
    · exact TokenBalances.balance_of_tokenTrie_eq_none rfl t
    · rfl

/-- **`SetBalance` sets one balance.** -/
theorem balanceOf_setBalance : (s.setBalance a amount tokenID).balanceOf b t =
      if b = a ∧ t = tokenID then amount else s.balanceOf b t := by
  obtain ⟨o, ho⟩ := exists_live_ensured s a
  have hd : o.deleted = false := deleted_of_live ho
  rw [setBalance_eq ho]
  unfold setObjectBalance
  rw [balanceOf_setStateObject (by exact hd)]
  by_cases hb : b = a
  · subst hb
    rw [if_pos rfl]
    dsimp only
    rw [TokenBalances.balance_setValue, ← balanceOf_of_live ho, balanceOf_ensured]
    simp only [true_and]
  · rw [if_neg hb, if_neg fun h => hb h.1]
    exact balanceOf_ensured

theorem subBalance_error_iff :
    (∃ e, s.subBalance a amount tokenID = .error e) ↔ s.balanceOf a tokenID < amount := by
  obtain ⟨o, ho⟩ := exists_live_ensured s a
  rw [subBalance_eq ho, ← balanceOf_eq_of_ensured ho]
  split_ifs with hz hlt
  · subst hz
    exact iff_of_false nofun (Nat.not_lt_zero _)
  · exact iff_of_true ⟨_, rfl⟩ hlt
  · exact iff_of_false nofun hlt

end StateDB
end QuarkChain.State
