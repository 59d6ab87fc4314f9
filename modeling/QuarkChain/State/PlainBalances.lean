/-
# Balances as one map

The balances of an account are meant to be one map from tokens to amounts.  `PlainMemory` is a program's states
and roots with such a map for every account, and the calls of `QuarkChain.State.Copies` on it;
`balances_plain_iff` compares a run of the calls on both.

They differ in three cases.  `CreateAccount` carries over, and `GetBalances` returns, the map that is the cache
of a token trie, without what only the trie holds.  `CreateAccount` also leaves the account without a database,
so that writing it back panics once it holds more than `16` tokens.  And a copied state shares its token tries
with the original, which sees what the copy writes to them.  `Meets` excludes these, and every run that agrees
to its end meets it in each call.
-/
import QuarkChain.State.Copies
import QuarkChain.State.Stored

namespace QuarkChain.State

open QuarkChain.Types StateDB

structure PlainMemory where
  states : ℕ → Recipient → TokenID → ℕ
  roots : ℕ → Recipient → TokenID → ℕ

namespace PlainMemory

def start (roots : ℕ → Recipient → Option EncodedAccount) : PlainMemory where
  states i a := entryBalance (roots i a)
  roots r a := entryBalance (roots r a)

variable (p : PlainMemory)

def set (i : ℕ) (a : Recipient) (tokenID : TokenID) (amount : ℕ) : PlainMemory :=
  { p with
    states := Function.update p.states i
      (Function.update (p.states i) a (Function.update (p.states i a) tokenID amount)) }

/-- One call; `none` when an account would hold less than nothing. -/
def step : Call → Option (Answer × PlainMemory)
  | .addBalance i a amount tokenID =>
      some (.none, p.set i a tokenID (p.states i a tokenID + amount))
  | .subBalance i a amount tokenID =>
      if p.states i a tokenID < amount then none
      else some (.none, p.set i a tokenID (p.states i a tokenID - amount))
  | .setBalance i a amount tokenID => some (.none, p.set i a tokenID amount)
  | .createAccount _ _ => some (.none, p)
  | .getBalance i a tokenID => some (.amount (p.states i a tokenID), p)
  | .getBalances i a => some (.amounts (p.states i a), p)
  | .finalise _ _ => some (.none, p)
  | .commit i _ root => some (.none, { p with roots := Function.update p.roots root (p.states i) })
  | .reload root i => some (.none, { p with states := Function.update p.states i (p.roots root) })
  | .copy i j => some (.none, { p with states := Function.update p.states j (p.states i) })

end PlainMemory

/-- Every state and every root holds what the plain maps say. -/
def Agrees (m : Memory) (p : PlainMemory) : Prop :=
  (∀ i a t, (m.states i).db.balanceOf a t = p.states i a t) ∧
    ∀ r a t, entryBalance (m.roots r a) t = p.roots r a t

/-- The two runs agree in every state they reach and in every answer, or end together in a debit of more
than the account holds. -/
def RunAgrees (m : Memory) (p : PlainMemory) : List Call → Prop
  | [] => Agrees m p
  | call :: rest =>
      Agrees m p ∧
        match m.step call, p.step call with
        | .ok (x, m'), some (y, p') => x = y ∧ RunAgrees m' p' rest
        | .error _, none => True
        | _, _ => False

/-- Every token that an account holds some of is in its map. -/
def Cached (o : StateObject) : Prop :=
  ∀ content, o.tokenBalances.tokenTrie = some content →
    ∀ t, o.tokenBalances.balances.lookup t = none → content t = 0

/-- Writing the accounts of `A` in state `i` back: none has outgrown its list without a database, and
what is written to a trie that another state has too is in the map there. -/
def WritesApart (m : Memory) (i : ℕ) (A : Finset Recipient) : Prop :=
  ∀ a ∈ A, ∀ o, (m.states i).db.stateObjects a = some o →
    ¬o.tokenBalances.Stranded ∧
      ∀ j, j ≠ i → (m.states i).Shares (m.states j) a →
        ∀ x, (m.states j).db.stateObjects a = some x →
          ∀ t, x.tokenBalances.balances.lookup t = none →
            o.tokenBalances.balance t = x.tokenBalances.balance t

/-- The condition on a call. -/
def Meets (m : Memory) : Call → Prop
  | .createAccount i a | .getBalances i a => ∀ o, (m.states i).db.live a = some o → Cached o
  | .finalise i _ => WritesApart m i (m.states i).db.dirties.toFinset
  | .commit i _ _ => WritesApart m i (m.states i).unwritten
  | _ => True

def RunMeets (m : Memory) : List Call → Prop
  | [] => True
  | call :: rest => Meets m call ∧ ∀ x m', m.step call = .ok (x, m') → RunMeets m' rest

/-! ### States that stand for a map -/

/-- A state whose accounts hold `p`, in memory or in the trie. -/
structure Session.Sound (s : Session) (p : Recipient → TokenID → ℕ) : Prop where
  balance : ∀ a t, s.db.balanceOf a t = p a t
  stored : ∀ a, a ∉ s.unwritten → ∀ t, entryBalance (s.db.trie a) t = p a t
  loaded : ∀ a ∈ s.unwritten, (s.db.stateObjects a).isSome = true
  suicided : ∀ a o, s.db.stateObjects a = some o → o.suicided = false
  deleted : ∀ a o, s.db.stateObjects a = some o → o.deleted = true → o.tokenBalances.isBlank = true
  tries : ∀ a, (s.tokenTries a).isSome = (s.db.tokenTrie a).isSome

namespace Session

variable {s s' other : Session} {p p' : Recipient → TokenID → ℕ} {a : Recipient} {o : StateObject}
  {t : TokenID} {clock : ℕ}

theorem mem_unwritten : a ∈ s.unwritten ↔ a ∈ s.stateObjectsDirty ∨ a ∈ s.db.dirties := by
  unfold unwritten
  rw [Finset.mem_union, Multiset.mem_toFinset]

variable {db : StateDB}

theorem balanceOf_of_object (ho : db.stateObjects a = some o)
    (hd : o.deleted = true → o.tokenBalances.isBlank = true) :
    db.balanceOf a t = o.tokenBalances.balance t := by
  cases hdel : o.deleted with
  | true =>
    rw [balanceOf_of_deleted ho hdel, TokenBalances.balance_of_isBlank (hd hdel)]
  | false => exact balanceOf_of_live (live_of_stateObjects ho hdel)

theorem Sound.object (h : s.Sound p) (ho : s.db.stateObjects a = some o) :
    o.tokenBalances.balance t = p a t :=
  (balanceOf_of_object ho (h.deleted a o ho)).symm.trans (h.balance a t)

theorem tokenTrie_of_object (ho : db.stateObjects a = some o) :
    db.tokenTrie a = o.tokenBalances.tokenTrie := by
  unfold StateDB.tokenTrie
  rw [ho]
  rfl

theorem tokenTrie_congr {db db' : StateDB} (h : db'.stateObjects a = db.stateObjects a) :
    db'.tokenTrie a = db.tokenTrie a := by
  unfold StateDB.tokenTrie
  rw [h]

theorem Shares.symm (h : s.Shares other a) : other.Shares s a :=
  ⟨by rw [h.2]; exact h.1, h.2.symm⟩

theorem Sound.isSome_of_shares (h : s.Sound p) (hs : s.Shares other a) :
    (s.db.tokenTrie a).isSome = true := by
  rw [← h.tries a]
  exact hs.1

theorem Sound.live_of_tokenTrie (h : s.Sound p) (ht : (s.db.tokenTrie a).isSome = true) :
    ∃ o, s.db.stateObjects a = some o ∧ s.db.live a = some o ∧
      o.tokenBalances.tokenTrie = s.db.tokenTrie a := by
  obtain ⟨content, hcontent⟩ := Option.isSome_iff_exists.mp ht
  obtain ⟨o, ho, htrie⟩ := Option.bind_eq_some_iff.mp hcontent
  refine ⟨o, ho, live_of_stateObjects ho ?_, htrie.trans hcontent.symm⟩
  by_contra hd
  have hblank := h.deleted a o ho (by simpa using hd)
  unfold TokenBalances.isBlank at hblank
  rw [htrie] at hblank
  cases hblank

theorem Sound.suicided_of_live (h : s.Sound p) (hl : s.db.live a = some o) : o.suicided = false := by
  unfold StateDB.live at hl
  cases ho : s.db.stateObjects a with
  | some x =>
    rw [ho] at hl
    dsimp only at hl
    split_ifs at hl
    cases hl
    exact h.suicided a o ho
  | none =>
    rw [ho] at hl
    obtain ⟨data, -, rfl⟩ := Option.map_eq_some_iff.mp hl
    rfl

theorem balanceOf_of_trie (ho : db.stateObjects a = none) :
    db.balanceOf a t = entryBalance (db.trie a) t := by
  unfold StateDB.balanceOf StateDB.live entryBalance
  rw [ho]
  cases db.trie a <;> rfl

/-- How an account gets from one state to the next: it is left alone, it has another object, or it is
only in the trie. -/
inductive Moves (s s' : Session) (p p' : Recipient → TokenID → ℕ) (a : Recipient) : Prop
  | kept (hobject : s'.db.stateObjects a = s.db.stateObjects a) (htrie : s'.db.trie a = s.db.trie a)
      (hunwritten : a ∈ s'.unwritten ↔ a ∈ s.unwritten) (hp : p' a = p a)
  | object {o : StateObject} (ho : s'.db.stateObjects a = some o) (hs : o.suicided = false)
      (hd : o.deleted = true → o.tokenBalances.isBlank = true)
      (hp : ∀ t, o.tokenBalances.balance t = p' a t)
      (hstored : a ∉ s'.unwritten → ∀ t, entryBalance (s'.db.trie a) t = p' a t)
  | stored (ho : s'.db.stateObjects a = none) (hunwritten : a ∉ s'.unwritten)
      (hp : ∀ t, entryBalance (s'.db.trie a) t = p' a t)

/-- **One step**, account by account. -/
theorem Sound.moves (h : s.Sound p) (hmoves : ∀ a, Moves s s' p p' a)
    (htries : ∀ a, (s'.tokenTries a).isSome = (s'.db.tokenTrie a).isSome) : s'.Sound p' where
  balance a t := by
    cases hmoves a with
    | kept hobject htrie _ hp =>
      rw [hp, ← h.balance a t]
      exact balanceOf_congr (live_congr hobject htrie)
    | object ho _ hd hp => exact (balanceOf_of_object ho hd).trans (hp t)
    | stored ho _ hp => exact (balanceOf_of_trie ho).trans (hp t)
  stored a ha t := by
    cases hmoves a with
    | kept _ htrie hunwritten hp =>
      rw [hp, htrie]
      exact h.stored a (mt hunwritten.mpr ha) t
    | object _ _ _ _ hstored => exact hstored ha t
    | stored _ _ hp => exact hp t
  loaded a ha := by
    cases hmoves a with
    | kept hobject _ hunwritten =>
      rw [hobject]
      exact h.loaded a (hunwritten.mp ha)
    | object ho =>
      rw [ho]
      rfl
    | stored _ hunwritten => exact absurd ha hunwritten
  suicided a x hx := by
    cases hmoves a with
    | kept hobject => exact h.suicided a x (hobject ▸ hx)
    | object ho hs =>
      cases ho.symm.trans hx
      exact hs
    | stored ho => cases ho.symm.trans hx
  deleted a x hx := by
    cases hmoves a with
    | kept hobject => exact h.deleted a x (hobject ▸ hx)
    | object ho _ hd =>
      cases ho.symm.trans hx
      exact hd
    | stored ho => cases ho.symm.trans hx
  tries := htries

theorem sound_new (trie : Recipient → Option EncodedAccount) :
    (new trie).Sound fun a => entryBalance (trie a) where
  balance _ _ := balanceOf_of_trie rfl
  stored _ _ _ := rfl
  loaded a ha := by
    rcases mem_unwritten.mp ha with h | h
    · exact absurd h (Finset.notMem_empty a)
    · exact absurd h (Multiset.notMem_zero a)
  suicided _ _ ho := nomatch ho
  deleted _ _ ho := nomatch ho
  tries _ := rfl

theorem opened_tries (h : ∀ a, (s.tokenTries a).isSome = (s.db.tokenTrie a).isSome) (a : Recipient) :
    ((s.opened s' clock).tokenTries a).isSome = ((s.opened s' clock).db.tokenTrie a).isSome := by
  show (ite _ _ _ : Option ℕ).isSome = (s'.db.tokenTrie a).isSome
  split_ifs with hnone hsome
  · rw [Option.isNone_iff_eq_none.mp hnone]
    rfl
  · rw [h a, hsome]
    exact (Option.isSome_iff_ne_none.mpr fun hn => hnone (by rw [hn]; rfl)).symm
  · exact (Option.isSome_iff_ne_none.mpr fun hn => hnone (by rw [hn]; rfl)).symm

theorem shares_of_opened (hclock : ∀ n, other.tokenTries a = some n → n < clock)
    (h : (s.opened s' clock).Shares other a) :
    s.Shares other a ∧ (s.db.tokenTrie a).isSome = true ∧ (s'.db.tokenTrie a).isSome = true := by
  obtain ⟨hsome, heq⟩ := h
  have hopened : (s.opened s' clock).tokenTries a =
      if (s'.db.tokenTrie a).isNone then none
      else if (s.db.tokenTrie a).isSome then s.tokenTries a else some clock := rfl
  rw [hopened] at hsome heq
  split_ifs at hsome heq with hnone hold
  · cases hsome
  · exact ⟨⟨hsome, heq⟩, hold, Option.isSome_iff_ne_none.mpr fun hn => hnone (by rw [hn]; rfl)⟩
  · exact absurd (hclock clock heq) (Nat.lt_irrefl clock)

theorem tokenTrie_shown (a : Recipient) : (s.shown other).db.tokenTrie a =
    if s.Shares other a ∧ (other.db.stateObjects a).isSome = true then s.db.tokenTrie a
    else other.db.tokenTrie a := by
  unfold StateDB.tokenTrie shown
  dsimp only
  rcases ho : other.db.stateObjects a with _ | o
  · simp
  by_cases hs : s.Shares other a
  · simp [hs, StateDB.tokenTrie]
  · simp [hs]

theorem shown_eq_self (h : ∀ a, s.Shares other a → other.db.tokenTrie a = s.db.tokenTrie a) :
    s.shown other = other := by
  have hobjects : (s.shown other).db.stateObjects = other.db.stateObjects := by
    funext a
    unfold shown
    dsimp only
    rcases ho : other.db.stateObjects a with _ | o
    · rfl
    by_cases hs : s.Shares other a
    · rw [Option.map_some, if_pos hs, ← h a hs, tokenTrie_of_object ho]
    · rw [Option.map_some, if_neg hs]
  show ({ other with db := { other.db with stateObjects := (s.shown other).db.stateObjects } } : Session) =
    other
  rw [hobjects]

theorem Sound.shown (h : other.Sound p)
    (hsome : ∀ a, s.Shares other a → (s.db.tokenTrie a).isSome = true)
    (hkeep : ∀ a x, other.db.stateObjects a = some x → s.Shares other a → ∀ t,
      { x.tokenBalances with tokenTrie := s.db.tokenTrie a }.balance t = x.tokenBalances.balance t) :
    (s.shown other).Sound p := by
  refine h.moves (fun a => ?_) fun a => ?_
  · rcases hx : other.db.stateObjects a with _ | x
    · exact .kept ((congrArg (Option.map _) hx).trans hx.symm) rfl Iff.rfl rfl
    by_cases hs : s.Shares other a
    · -- a blank object has no trie, so nothing is shared
      have hlive : x.deleted ≠ true := by
        intro hd
        obtain ⟨o, ho, hl, -⟩ := h.live_of_tokenTrie (h.isSome_of_shares hs.symm)
        cases hx.symm.trans ho
        rw [deleted_of_live hl] at hd
        cases hd
      refine .object ((congrArg (Option.map _) hx).trans (congrArg some (if_pos hs)))
        (h.suicided a x hx :) (fun hd => absurd hd hlive) (fun t => ?_) (h.stored a)
      exact (hkeep a x hx hs t).trans (h.object hx)
    · exact .kept ((congrArg (Option.map _) hx).trans ((congrArg some (if_neg hs)).trans hx.symm)) rfl
        Iff.rfl rfl
  · rw [tokenTrie_shown]
    show (other.tokenTries a).isSome = _
    split_ifs with hs
    · rw [hs.1.2, hs.1.1, hsome a hs.1]
    · exact h.tries a

/-! ### One state takes a step -/

theorem Sound.touches (h : s.Sound p) (ht : StateDB.Touches a s.db db)
    (hbalance : ∀ b t, db.balanceOf b t = p' b t) (hothers : ∀ b, b ≠ a → p' b = p b)
    (hclean : a ∉ db.dirties → p' a = p a) : (s.opened { s with db } clock).Sound p' := by
  refine h.moves (fun b => ?_) (opened_tries h.tries)
  have hunwritten : (b ∈ db.dirties ↔ b ∈ s.db.dirties) →
      (b ∈ (s.opened { s with db } clock).unwritten ↔ b ∈ s.unwritten) := fun hiff => by
    rw [mem_unwritten, mem_unwritten]
    exact or_congr_right hiff
  by_cases hba : b = a
  · subst hba
    rcases ht.object with ⟨hsame, hdirty⟩ | ⟨o, ho, hd, hlike⟩
    · refine .kept hsame (congrFun ht.trie b) (hunwritten ⟨hdirty, ht.dirty⟩) (funext fun t => ?_)
      rw [← hbalance, ← h.balance]
      exact balanceOf_congr (live_congr hsame (congrFun ht.trie b))
    refine .object ho ?_ (fun hdel => absurd hdel (by rw [hd]; exact Bool.false_ne_true)) (fun t => ?_)
      fun hnot t => ?_
    · rcases hlike with ⟨hs, -⟩ | ⟨x, hx, hs, -⟩
      · exact hs
      · exact hs.trans (h.suicided_of_live hx)
    · rw [← hbalance]
      exact (balanceOf_of_live (live_of_stateObjects ho hd)).symm
    · have hclear : b ∉ s.stateObjectsDirty ∧ b ∉ db.dirties :=
        not_or.mp fun hmem => hnot (mem_unwritten.mpr hmem)
      show entryBalance (db.trie b) t = _
      rw [ht.trie, hclean hclear.2]
      refine h.stored b (fun hmem => ?_) t
      rcases mem_unwritten.mp hmem with hmem | hmem
      · exact hclear.1 hmem
      · exact hclear.2 (ht.dirty hmem)
  · exact .kept (ht.others b hba) (congrFun ht.trie b) (hunwritten (ht.dirties b hba)) (hothers b hba)

theorem Sound.tokenTrie_touches (h : s.Sound p) (ht : StateDB.Touches a s.db db)
    (b : Recipient) (hs : (s.db.tokenTrie b).isSome = true) (hs' : (db.tokenTrie b).isSome = true) :
    db.tokenTrie b = s.db.tokenTrie b := by
  by_cases hba : b = a
  · subst hba
    rcases ht.object with ⟨hsame, -⟩ | ⟨o', ho', -, ⟨-, hnone⟩ | ⟨x, hx, -, htrie⟩⟩
    · exact tokenTrie_congr hsame
    · rw [tokenTrie_of_object ho', hnone] at hs'
      cases hs'
    · obtain ⟨o, -, hl, hsame⟩ := h.live_of_tokenTrie hs
      cases hl.symm.trans hx
      rw [← hsame, ← htrie, tokenTrie_of_object ho']
  · exact tokenTrie_congr (ht.others b hba)

/-- The objects of the accounts in `A` are written back, and nothing else changes. -/
structure WritesBack (A : Finset Recipient) (flag : Bool) (s s' : Session) : Prop where
  dirties : s'.db.dirties = 0
  written : ∀ a ∈ A, ∀ o, s.db.stateObjects a = some o → ∃ r, o.writeBack flag = some r ∧
    s'.db.trie a = r.1 ∧ s'.db.stateObjects a = some r.2
  kept : ∀ a, a ∉ A → s'.db.trie a = s.db.trie a ∧ s'.db.stateObjects a = s.db.stateObjects a
  remembered : ∀ a, a ∈ s'.unwritten → a ∈ s.unwritten
  forgotten : ∀ a, a ∈ s.unwritten → a ∉ s'.unwritten → a ∈ A

def NoneStranded (s : Session) (A : Finset Recipient) : Prop :=
  ∀ a ∈ A, ∀ o, s.db.stateObjects a = some o → ¬o.tokenBalances.Stranded

section WritesBack

variable {A : Finset Recipient} {flag : Bool}

variable (h : s.Sound p)
include h

theorem Sound.writesBack (hA : ∀ a ∈ A, a ∈ s.unwritten) (hw : WritesBack A flag s s') :
    (s.opened s' clock).Sound p := by
  refine h.moves (fun a => ?_) (opened_tries h.tries)
  by_cases ha : a ∈ A
  · obtain ⟨o, ho⟩ := Option.isSome_iff_exists.mp (h.loaded a (hA a ha))
    obtain ⟨r, hr, htrie, hobject⟩ := hw.written a ha o ho
    have hkept := StateObject.writeBack_spec (h.suicided a o ho) hr
    refine .object hobject hkept.suicided (hkept.deleted (h.deleted a o ho))
      (fun t => (hkept.balance t).trans (h.object ho)) fun _ t => ?_
    show entryBalance (s'.db.trie a) t = p a t
    rw [htrie, hkept.entry]
    exact h.object ho
  · refine .kept (hw.kept a ha).2 (hw.kept a ha).1 ⟨hw.remembered a, fun hmem => ?_⟩ rfl
    by_contra hnot
    exact ha (hw.forgotten a hmem hnot)

theorem Sound.tokenTrie_writesBack (hw : WritesBack A flag s s')
    (hs : (s.db.tokenTrie a).isSome = true) : (a ∉ A ∧ s'.db.tokenTrie a = s.db.tokenTrie a) ∨
      ∃ o, a ∈ A ∧ s.db.stateObjects a = some o ∧ s'.db.tokenTrie a = some o.tokenBalances.balance := by
  by_cases ha : a ∈ A
  · obtain ⟨o, ho, -, htrie⟩ := h.live_of_tokenTrie hs
    obtain ⟨r, hr, -, hobj⟩ := hw.written a ha o ho
    have hkept := StateObject.writeBack_spec (h.suicided a o ho) hr
    refine .inr ⟨o, ha, ho, ?_⟩
    rw [tokenTrie_of_object hobj]
    exact hkept.tokenTrie (by rw [htrie]; exact hs)
  · exact .inl ⟨ha, tokenTrie_congr (hw.kept a ha).2⟩

theorem Sound.written_isNone_iff (ho : s.db.stateObjects a = some o) :
    (s.db.written flag a).isNone = true ↔ o.tokenBalances.Stranded := by
  have hiff : o.writeBack flag = none ↔ o.tokenBalances.Stranded :=
    StateObject.writeBack_eq_none_iff (h.suicided a o ho)
  unfold StateDB.written
  rw [ho, ← hiff, Option.isNone_iff_eq_none, Option.map_eq_none_iff]

theorem Sound.written_of_not_stranded (ho : s.db.stateObjects a = some o)
    (hn : ¬o.tokenBalances.Stranded) :
    ∃ r, o.writeBack flag = some r ∧ s.db.written flag a = some (r.1, some r.2) := by
  have hiff : o.writeBack flag = none ↔ o.tokenBalances.Stranded :=
    StateObject.writeBack_eq_none_iff (h.suicided a o ho)
  obtain ⟨r, hr⟩ := Option.ne_none_iff_exists'.mp (mt hiff.mp hn)
  refine ⟨r, hr, ?_⟩
  unfold StateDB.written
  rw [ho]
  dsimp only
  rw [hr]
  rfl

/-- **`Finalise` writes the accounts of the journal**, unless one of them is stranded. -/
theorem Sound.finalise (flag : Bool) :
    (∃ s', s.finalise flag = .ok s' ∧ WritesBack s.db.dirties.toFinset flag s s') ∧
        s.NoneStranded s.db.dirties.toFinset ∨
      (∃ e, s.finalise flag = .error e) ∧ ¬s.NoneStranded s.db.dirties.toFinset := by
  unfold Session.finalise StateDB.finalise
  by_cases hpanic : s.db.WriteBackPanics flag
  · rw [if_pos hpanic]
    obtain ⟨a, ha, hnone⟩ := hpanic
    obtain ⟨o, ho⟩ := Option.isSome_iff_exists.mp (h.loaded a (mem_unwritten.mpr (.inr ha)))
    exact .inr ⟨⟨_, rfl⟩, fun hsafe =>
      hsafe a (Multiset.mem_toFinset.mpr ha) o ho ((h.written_isNone_iff ho).mp hnone)⟩
  rw [if_neg hpanic]
  have hsafe : ∀ a ∈ s.db.dirties, ∀ o, s.db.stateObjects a = some o → ¬o.tokenBalances.Stranded :=
    fun a ha o ho hstr => hpanic ⟨a, ha, (h.written_isNone_iff ho).mpr hstr⟩
  refine .inl ⟨⟨_, rfl, rfl, fun a ha o ho => ?_, fun a ha => ?_, fun a ha => ?_, fun a ha hn => ?_⟩,
    fun a ha => hsafe a (Multiset.mem_toFinset.mp ha)⟩
  · rw [Multiset.mem_toFinset] at ha
    obtain ⟨r, hr, hwritten⟩ := h.written_of_not_stranded ho (hsafe a ha o ho)
    refine ⟨r, hr, ?_, ?_⟩
    · simp only [ha, if_true, hwritten, Option.elim_some]
    · simp only [ha, if_true, hwritten, Option.elim_some]
  · rw [Multiset.mem_toFinset] at ha
    exact ⟨if_neg ha, if_neg ha⟩
  · rcases mem_unwritten.mp ha with hmem | hmem
    · rcases Finset.mem_union.mp hmem with hmem | hmem
      · exact mem_unwritten.mpr (.inl hmem)
      · exact mem_unwritten.mpr (.inr (Multiset.mem_toFinset.mp (Finset.mem_filter.mp hmem).1))
    · exact absurd hmem (Multiset.notMem_zero a)
  · rcases mem_unwritten.mp ha with hmem | hmem
    · exact absurd (mem_unwritten.mpr (.inl (Finset.mem_union_left _ hmem))) hn
    · exact Multiset.mem_toFinset.mpr hmem

/-- **`Commit` writes all unwritten accounts**, unless one of them is stranded. -/
theorem Sound.commit (flag : Bool) :
    (∃ s', s.commit flag = .ok s' ∧ WritesBack s.unwritten flag s s' ∧ s'.unwritten = ∅) ∧
        s.NoneStranded s.unwritten ∨
      (∃ e, s.commit flag = .error e) ∧ ¬s.NoneStranded s.unwritten := by
  have hcommits : ∀ a, s.commits a = true ↔ a ∈ s.unwritten := by
    intro a
    have hsui : (s.db.stateObjects a).elim false StateObject.suicided = false := by
      cases ho : s.db.stateObjects a with
      | none => rfl
      | some o => exact h.suicided a o ho
    unfold commits
    rw [hsui, Bool.or_false, decide_eq_true_eq]
  unfold Session.commit
  by_cases hpanic : ∃ a ∈ s.unwritten, (s.db.written flag a).isNone = true
  · rw [if_pos hpanic]
    obtain ⟨a, ha, hnone⟩ := hpanic
    obtain ⟨o, ho⟩ := Option.isSome_iff_exists.mp (h.loaded a ha)
    exact .inr ⟨⟨_, rfl⟩, fun hsafe => hsafe a ha o ho ((h.written_isNone_iff ho).mp hnone)⟩
  rw [if_neg hpanic]
  have hsafe : s.NoneStranded s.unwritten :=
    fun a ha o ho hstr => hpanic ⟨a, ha, (h.written_isNone_iff ho).mpr hstr⟩
  have hempty : s.unwritten.filter (fun a => (s.db.stateObjects a).isNone) = ∅ := by
    refine Finset.filter_eq_empty_iff.mpr fun a ha hnone => ?_
    exact absurd (h.loaded a ha) (by rw [Option.isNone_iff_eq_none.mp hnone]; exact Bool.false_ne_true)
  refine .inl ⟨⟨_, rfl, ⟨rfl, fun a ha o ho => ?_, fun a ha => ?_, fun a ha => ?_, fun a ha _ => ha⟩, ?_⟩,
    hsafe⟩
  · obtain ⟨r, hr, hwritten⟩ := h.written_of_not_stranded ho (hsafe a ha o ho)
    refine ⟨r, hr, ?_, ?_⟩
    · simp only [(hcommits a).mpr ha, if_true, hwritten, Option.elim_some]
    · simp only [(hcommits a).mpr ha, if_true, hwritten, Option.elim_some]
  · rw [← hcommits] at ha
    exact ⟨if_neg ha, if_neg ha⟩
  · rcases mem_unwritten.mp ha with hmem | hmem
    · exact (Finset.mem_filter.mp hmem).1
    · exact absurd hmem (Multiset.notMem_zero a)
  · unfold unwritten
    exact congrArg₂ (· ∪ ·) hempty Multiset.toFinset_zero

end WritesBack

/-- **`Copy` keeps every balance**: the unwritten accounts come along, the trie holds the rest. -/
theorem Sound.copy (h : s.Sound p) : ∃ s', s.copy = .ok s' ∧ s'.Sound p ∧
    ∀ a n, s'.tokenTries a = some n →
      s.tokenTries a = some n ∧ s'.db.tokenTrie a = s.db.tokenTrie a := by
  have hno : ¬∃ a ∈ s.stateObjectsDirty, (s.db.stateObjects a).isNone = true := by
    rintro ⟨a, ha, hnone⟩
    have hsome := h.loaded a (mem_unwritten.mpr (.inl ha))
    rw [Option.isNone_iff_eq_none.mp hnone] at hsome
    cases hsome
  unfold Session.copy
  rw [if_neg hno]
  have hfilter : s.unwritten.filter (fun a => (s.db.stateObjects a).isSome) = s.unwritten :=
    Finset.filter_true_of_mem h.loaded
  have hunwritten : ∀ a, a ∈ s.unwritten.filter (fun a => (s.db.stateObjects a).isSome) ∪
      (0 : Multiset Recipient).toFinset ↔ a ∈ s.unwritten := by
    intro a
    rw [hfilter, Multiset.toFinset_zero, Finset.union_empty]
  refine ⟨_, rfl, h.moves (fun a => ?_) fun a => ?_, fun a n hn => ?_⟩
  · by_cases ha : a ∈ s.unwritten
    · exact .kept (if_pos ha) rfl (hunwritten a) rfl
    · exact .stored (if_neg ha) (mt (hunwritten a).mp ha) (h.stored a ha)
  · unfold StateDB.tokenTrie
    dsimp only
    split_ifs
    · exact h.tries a
    · rfl
  · dsimp only at hn
    split_ifs at hn with ha
    exact ⟨hn, tokenTrie_congr (if_pos ha)⟩

end Session

/-! ### A program takes a step -/

/-- All states and roots stand for the plain maps, and states with one trie see the same in it. -/
structure Memory.Sound (m : Memory) (p : PlainMemory) : Prop where
  states : ∀ i, (m.states i).Sound (p.states i)
  roots : ∀ r a t, entryBalance (m.roots r a) t = p.roots r a t
  clock : ∀ i a n, (m.states i).tokenTries a = some n → n < m.clock
  shared : ∀ i j a, (m.states i).Shares (m.states j) a →
    (m.states j).db.tokenTrie a = (m.states i).db.tokenTrie a

namespace Memory

variable {m m' : Memory} {p p' : PlainMemory} {i : ℕ} {a : Recipient}

theorem Sound.agrees (h : m.Sound p) : Agrees m p := ⟨fun i => (h.states i).balance, h.roots⟩

theorem sound_start (roots : ℕ → Recipient → Option EncodedAccount) :
    (start roots).Sound (.start roots) where
  states i := Session.sound_new (roots i)
  roots _ _ _ := rfl
  clock _ _ _ hn := nomatch hn
  shared _ _ _ hs := nomatch hs.1

variable {s : Session} {q : Recipient → TokenID → ℕ} {A : Finset Recipient} {flag : Bool}
  {db : StateDB} {o : StateObject}

theorem Sound.put (h : m.Sound p) (hs : ((m.states i).opened s m.clock).Sound q)
    (hothers : ∀ j, j ≠ i →
      (((m.states i).opened s m.clock).shown (m.states j)).Sound (p.states j)) :
    (m.put i s).Sound { p with states := Function.update p.states i q } := by
  obtain ⟨s', hs'⟩ : ∃ s', s' = (m.states i).opened s m.clock := ⟨_, rfl⟩
  have hself : (m.put i s).states i = s' := by rw [hs']; exact if_pos rfl
  have hother : ∀ j, j ≠ i → (m.put i s).states j = s'.shown (m.states j) := fun j hj => by
    rw [hs']
    exact if_neg hj
  rw [← hs'] at hs hothers
  have hshown : ∀ j, j ≠ i → ∀ a, (s'.shown (m.states j)).db.tokenTrie a =
      if s'.Shares (m.states j) a then s'.db.tokenTrie a else (m.states j).db.tokenTrie a := by
    intro j hj a
    rw [Session.tokenTrie_shown]
    by_cases hshare : s'.Shares (m.states j) a
    · obtain ⟨o, ho, -⟩ := (h.states j).live_of_tokenTrie ((h.states j).isSome_of_shares hshare.symm)
      rw [if_pos hshare, if_pos ⟨hshare, by rw [ho]; rfl⟩]
    · rw [if_neg hshare, if_neg fun hand => hshare hand.1]
  refine ⟨fun j => ?_, h.roots, fun j a n hn => ?_, fun j k a hjk => ?_⟩
  · by_cases hj : j = i
    · subst hj
      rw [hself]
      show s'.Sound (Function.update p.states j q j)
      rw [Function.update_self]
      exact hs
    · rw [hother j hj]
      show Session.Sound _ (Function.update p.states i q j)
      rw [Function.update_of_ne hj]
      exact hothers j hj
  · show n < m.clock + 1
    by_cases hj : j = i
    · subst hj
      rw [hself, hs'] at hn
      unfold Session.opened at hn
      dsimp only at hn
      split_ifs at hn
      · have := h.clock j a n hn
        omega
      · cases hn
        omega
    · rw [hother j hj] at hn
      have := h.clock j a n hn
      omega
  · by_cases hj : j = i
    · subst hj
      by_cases hk : k = j
      · rw [hk]
      · rw [hself, hother k hk] at hjk ⊢
        rw [hshown k hk]
        exact if_pos hjk
    · by_cases hk : k = i
      · subst hk
        rw [hself, hother j hj] at hjk ⊢
        rw [hshown j hj]
        exact (if_pos (Session.Shares.symm hjk)).symm
      · rw [hother j hj, hother k hk] at hjk ⊢
        have hpair : (m.states j).Shares (m.states k) a := hjk
        have hiff : s'.Shares (m.states k) a ↔ s'.Shares (m.states j) a := by
          unfold Session.Shares
          rw [hpair.2]
        rw [hshown j hj, hshown k hk, h.shared j k a hpair]
        by_cases hshare : s'.Shares (m.states j) a
        · rw [if_pos hshare, if_pos (hiff.mpr hshare)]
        · rw [if_neg hshare, if_neg (mt hiff.mp hshare)]

theorem Sound.putDb (h : m.Sound p)
    (ht : StateDB.Touches a (m.states i).db db) (hbalance : ∀ b t, db.balanceOf b t = q b t)
    (hothers : ∀ b, b ≠ a → q b = p.states i b) (hclean : a ∉ db.dirties → q a = p.states i a) :
    (m.putDb i db).Sound { p with states := Function.update p.states i q } := by
  refine h.put ((h.states i).touches ht hbalance hothers hclean) fun j hj => ?_
  rw [Session.shown_eq_self]
  · exact h.states j
  · intro b hshare
    obtain ⟨hold, hsome, hsome'⟩ := Session.shares_of_opened (h.clock j b) hshare
    rw [h.shared i j b hold]
    exact ((h.states i).tokenTrie_touches ht b hsome hsome').symm

variable {j : ℕ}

theorem Sound.replace (h : m.Sound p) (hs : s.Sound q) (htries : ∀ a n, s.tokenTries a = some n →
      ∃ i, (m.states i).tokenTries a = some n ∧ s.db.tokenTrie a = (m.states i).db.tokenTrie a) :
    ({ m with states := Function.update m.states j s } : Memory).Sound
      { p with states := Function.update p.states j q } := by
  -- every state there is now stands for one that was there before, as far as its tries go
  have hfrom : ∀ k a n, (Function.update m.states j s k).tokenTries a = some n →
      ∃ i, (m.states i).tokenTries a = some n ∧
        (Function.update m.states j s k).db.tokenTrie a = (m.states i).db.tokenTrie a := by
    intro k a n hn
    by_cases hk : k = j
    · subst hk
      rw [Function.update_self] at hn ⊢
      exact htries a n hn
    · rw [Function.update_of_ne hk] at hn ⊢
      exact ⟨k, hn, rfl⟩
  refine ⟨fun k => ?_, h.roots, fun k a n hn => ?_, fun k l a hshare => ?_⟩
  · by_cases hk : k = j
    · subst hk
      dsimp only
      rw [Function.update_self, Function.update_self]
      exact hs
    · dsimp only
      rw [Function.update_of_ne hk, Function.update_of_ne hk]
      exact h.states k
  · obtain ⟨i, hi, -⟩ := hfrom k a n hn
    exact h.clock i a n hi
  · obtain ⟨n, hn⟩ := Option.isSome_iff_exists.mp hshare.1
    obtain ⟨i, hi, htrie⟩ := hfrom k a n hn
    obtain ⟨i', hi', htrie'⟩ := hfrom l a n (hshare.2.trans hn)
    exact (htrie'.trans (h.shared i i' a ⟨by rw [hi]; rfl, hi'.trans hi.symm⟩)).trans htrie.symm

theorem Sound.putDb_same (h : m.Sound p) (ht : StateDB.Touches a (m.states i).db db)
    (hbalance : ∀ b t, db.balanceOf b t = p.states i b t) : (m.putDb i db).Sound p := by
  have hsame := h.putDb ht hbalance (fun _ _ => rfl) fun _ => rfl
  rw [Function.update_eq_self] at hsame
  exact hsame

theorem Sound.putDb_set {tokenID : TokenID} {amount : ℕ} (h : m.Sound p)
    (ht : StateDB.Touches a (m.states i).db db)
    (hbalance : ∀ b t, db.balanceOf b t = if b = a ∧ t = tokenID then amount else p.states i b t)
    (hclean : a ∉ db.dirties → p.states i a tokenID = amount) :
    (m.putDb i db).Sound (p.set i a tokenID amount) := by
  refine h.putDb ht (fun b t => ?_) (fun b hb => Function.update_of_ne hb ..) fun hd => ?_
  · rw [hbalance]
    by_cases hb : b = a
    · subst hb
      rw [Function.update_self]
      by_cases htok : t = tokenID
      · subst htok
        rw [Function.update_self, if_pos ⟨rfl, rfl⟩]
      · rw [Function.update_of_ne htok, if_neg fun hand => htok hand.2]
    · rw [Function.update_of_ne hb, if_neg fun hand => hb hand.1]
  · rw [Function.update_self, ← hclean hd, Function.update_eq_self]

theorem Sound.shares_opened (h : m.Sound p) (hw : Session.WritesBack A flag (m.states i) s)
    (hshare : (m.states i).Shares (m.states j) a) :
    ((m.states i).opened s m.clock).Shares (m.states j) a := by
  have hsome := (h.states i).isSome_of_shares hshare
  have hsome' : (s.db.tokenTrie a).isNone = false := by
    rcases (h.states i).tokenTrie_writesBack hw hsome with ⟨-, hsame⟩ | ⟨o, -, -, hnew⟩
    · rw [hsame]
      simpa using hsome
    · rw [hnew]
      rfl
  have hopened : ((m.states i).opened s m.clock).tokenTries a = (m.states i).tokenTries a := by
    unfold Session.opened
    dsimp only
    rw [hsome', hsome]
    rfl
  unfold Session.Shares
  rw [hopened]
  exact hshare

/-- **What may be written back.**  When no account is stranded, a state that writes some accounts back
leaves all states as they were just when it writes apart from them. -/
theorem Sound.put_iff (h : m.Sound p)
    (hA : ∀ a ∈ A, a ∈ (m.states i).unwritten) (hw : Session.WritesBack A flag (m.states i) s)
    (hsafe : (m.states i).NoneStranded A) : (WritesApart m i A → (m.put i s).Sound p) ∧
      ((∀ j a t, ((m.put i s).states j).db.balanceOf a t = p.states j a t) → WritesApart m i A) := by
  constructor
  · intro hap
    have hput := h.put ((h.states i).writesBack hA hw) fun j hj => ?_
    · rw [Function.update_eq_self] at hput
      exact hput
    have hold : ∀ a, ((m.states i).opened s m.clock).Shares (m.states j) a → _ :=
      fun a => Session.shares_of_opened (h.clock j a)
    refine (h.states j).shown (fun a hshare => (hold a hshare).2.2) fun a x hx hshare t => ?_
    obtain ⟨hshare, hsome, -⟩ := hold a hshare
    show { x.tokenBalances with tokenTrie := s.db.tokenTrie a }.balance t = _
    rcases (h.states i).tokenTrie_writesBack hw hsome with ⟨-, hsame⟩ | ⟨o, ha, ho, hnew⟩
    · rw [hsame, ← h.shared i j a hshare, Session.tokenTrie_of_object hx]
    · have hapart := (hap a ha o ho).2 j hj hshare x hx t
      rw [hnew]
      unfold TokenBalances.balance at hapart ⊢
      cases hl : x.tokenBalances.balances.lookup t with
      | some amount => rfl
      | none =>
        rw [hl] at hapart
        exact hapart rfl
  · intro hagrees a ha o ho
    refine ⟨hsafe a ha o ho, fun j hj hshare x hx t hl => ?_⟩
    have hsome := (h.states i).isSome_of_shares hshare
    have hnew : s.db.tokenTrie a = some o.tokenBalances.balance := by
      rcases (h.states i).tokenTrie_writesBack hw hsome with ⟨hn, -⟩ | ⟨o', -, ho', hnew⟩
      · exact absurd ha hn
      · cases ho.symm.trans ho'
        exact hnew
    obtain ⟨x', hx', hlive, -⟩ := (h.states j).live_of_tokenTrie
      (by rw [h.shared i j a hshare]; exact hsome)
    cases hx.symm.trans hx'
    have hobject : ((m.put i s).states j).db.stateObjects a =
        some { x with tokenBalances := { x.tokenBalances with tokenTrie := s.db.tokenTrie a } } := by
      show (ite (j = i) _ _ : Session).db.stateObjects a = _
      rw [if_neg hj]
      unfold Session.shown
      dsimp only
      rw [hx, Option.map_some, if_pos (h.shares_opened hw hshare)]
      rfl
    have hbalance := hagrees j a t
    rw [balanceOf_of_live (live_of_stateObjects hobject (deleted_of_live hlive :)),
      ← (h.states j).object hx] at hbalance
    rw [← hbalance]
    dsimp only
    rw [hnew]
    unfold TokenBalances.balance
    dsimp only
    rw [hl]
    rfl

/-! ### The calls -/

theorem amount_of_cached (h : Cached o) (t : TokenID) :
    TokenMap.amount o.tokenBalances.balances t = o.tokenBalances.balance t := by
  unfold TokenMap.amount TokenBalances.balance
  cases hl : o.tokenBalances.balances.lookup t with
  | some amount => rfl
  | none =>
    cases htrie : o.tokenBalances.tokenTrie with
    | none => rfl
    | some content => exact (h content htrie t hl).symm

theorem cached_of_amount
    (h : ∀ t, TokenMap.amount o.tokenBalances.balances t = o.tokenBalances.balance t) : Cached o := by
  intro content htrie t hl
  have ht := h t
  unfold TokenMap.amount TokenBalances.balance at ht
  rw [hl, htrie] at ht
  exact ht.symm

theorem amount_getBalances (s : StateDB) (a : Recipient) (t : TokenID) :
    TokenMap.amount (s.getBalances a).1 t =
      (s.live a).elim 0 fun o => TokenMap.amount o.tokenBalances.balances t := by
  show TokenMap.amount (s.getOrNewStateObject a).1.tokenBalances.balances t = _
  rw [getOrNewStateObject_fst]
  cases s.live a <;> rfl

theorem Sound.cached_iff (h : m.Sound p) (i : ℕ) (a : Recipient) :
    (∀ t, ((m.states i).db.live a).elim 0 (fun o => TokenMap.amount o.tokenBalances.balances t) =
        p.states i a t) ↔ ∀ o, (m.states i).db.live a = some o → Cached o := by
  have hbalance := (h.states i).balance a
  cases hl : (m.states i).db.live a with
  | none =>
    refine iff_of_true (fun t => ?_) nofun
    rw [← hbalance t]
    unfold StateDB.balanceOf
    rw [hl]
    rfl
  | some o =>
    have hheld : ∀ t, p.states i a t = o.tokenBalances.balance t := fun t =>
      (hbalance t).symm.trans (balanceOf_of_live hl)
    constructor
    · intro hmap x hx
      cases hx
      exact cached_of_amount fun t => (hmap t).trans (hheld t)
    · intro hc t
      exact (amount_of_cached (hc o rfl) t).trans (hheld t).symm

theorem step_finalise (h : (m.states i).finalise flag = .ok s) :
    m.step (.finalise i flag) = .ok (.none, m.put i s) := by
  unfold step
  dsimp only
  rw [h]

theorem step_commit {root : ℕ} (h : (m.states i).commit flag = .ok s) :
    m.step (.commit i flag root) =
      .ok (.none, { m.put i s with roots := Function.update m.roots root s.db.trie }) := by
  unfold step
  dsimp only
  rw [h]

theorem step_copy (h : (m.states i).copy = .ok s) :
    m.step (.copy i j) = .ok (.none, { m with states := Function.update m.states j s }) := by
  unfold step
  dsimp only
  rw [h]

/-- The next states after a call: both models go on with the same answer, or both refuse. -/
def Proceeds (m : Memory) (p : PlainMemory) (call : Call) : Prop :=
  (∃ x m' p', m.step call = .ok (x, m') ∧ p.step call = some (x, p') ∧ m'.Sound p') ∨
    (∃ e, m.step call = .error e) ∧ p.step call = none

theorem step_subBalance {amount : ℕ} {tokenID : TokenID}
    (h : (m.states i).db.subBalance a amount tokenID = .ok db) :
    m.step (.subBalance i a amount tokenID) = .ok (.none, m.putDb i db) := by
  unfold step
  dsimp only
  rw [h]

/-- A debit goes through in both models or in neither. -/
theorem Sound.proceeds_subBalance (h : m.Sound p) {amount : ℕ} {tokenID : TokenID} :
    Proceeds m p (.subBalance i a amount tokenID) := by
  have herror : (∃ e, (m.states i).db.subBalance a amount tokenID = .error e) ↔
      p.states i a tokenID < amount := by
    rw [subBalance_error_iff, (h.states i).balance]
  cases hsub : (m.states i).db.subBalance a amount tokenID with
  | error e =>
    refine .inr ⟨⟨e, ?_⟩, if_pos (herror.mp ⟨e, hsub⟩)⟩
    unfold step
    dsimp only
    rw [hsub]
  | ok db =>
    have hle : ¬p.states i a tokenID < amount := by
      rw [← herror, hsub]
      exact nofun
    have ht := touches_subBalance hsub
    refine .inl ⟨_, _, _, step_subBalance hsub, if_neg hle, h.putDb_set ht.1 (fun b t => ?_) fun hd => ?_⟩
    · have hbalance : db.balanceOf b t + (if b = a ∧ t = tokenID then amount else 0) =
          (m.states i).db.balanceOf b t := balanceOf_subBalance hsub
      rw [(h.states i).balance] at hbalance
      split_ifs at hbalance ⊢ with hb
      · rw [hb.1, hb.2] at hbalance ⊢
        omega
      · exact hbalance
    · have hz : amount = 0 := by
        by_contra hne
        exact hd (ht.2 hne)
      rw [hz]
      rfl

/-- The root that `Commit` files stands for the plain map of the state. -/
theorem Sound.proceeds_commit (h : m.Sound p) {root : ℕ}
    (hc : WritesApart m i (m.states i).unwritten) : Proceeds m p (.commit i flag root) := by
  rcases (h.states i).commit flag with ⟨⟨s, hs, hw, hempty⟩, hsafe⟩ | ⟨-, hstr⟩
  · have hput := (h.put_iff (fun _ => id) hw hsafe).1 hc
    refine .inl ⟨_, _, _, step_commit hs, rfl, hput.states, fun r a t => ?_, hput.clock, hput.shared⟩
    dsimp only
    by_cases hr : r = root
    · subst hr
      rw [Function.update_self, Function.update_self]
      have hsound := hput.states i
      rw [show (m.put i s).states i = (m.states i).opened s m.clock from if_pos rfl] at hsound
      refine hsound.stored a ?_ t
      show a ∉ s.unwritten
      rw [hempty]
      exact Finset.notMem_empty a
    · rw [Function.update_of_ne hr, Function.update_of_ne hr]
      exact h.roots r a t
  · exact absurd (fun a ha o ho => (hc a ha o ho).1) hstr

/-- A call that only reads proceeds when its answer is that of the plain map. -/
theorem Sound.proceeds_read (h : m.Sound p) {call : Call} {x : Answer}
    (hm : m.step call = .ok (x, m.putDb i db)) (hp : p.step call = some (x, p))
    (ht : StateDB.Touches a (m.states i).db db)
    (hsame : ∀ b t, db.balanceOf b t = (m.states i).db.balanceOf b t) : Proceeds m p call :=
  .inl ⟨x, _, p, hm, hp, h.putDb_same ht fun b t => (hsame b t).trans ((h.states i).balance b t)⟩

/-- **A call that meets the condition** is the call on the plain maps. -/
theorem Sound.proceeds (h : m.Sound p) {call : Call} (hc : Meets m call) : Proceeds m p call := by
  cases call with
  | subBalance i a amount tokenID => exact h.proceeds_subBalance
  | commit i flag root => exact h.proceeds_commit hc
  | addBalance i a amount tokenID =>
    have ht : StateDB.Touches a _ ((m.states i).db.addBalance a amount tokenID) ∧ _ := touches_addBalance
    refine .inl ⟨_, _, _, rfl, rfl, h.putDb_set ht.1 (fun b t => ?_) fun hd => absurd ht.2 hd⟩
    rw [balanceOf_addBalance, (h.states i).balance]
    split_ifs with hb
    · rw [hb.1, hb.2]
    · rfl
  | setBalance i a amount tokenID =>
    have ht : StateDB.Touches a _ ((m.states i).db.setBalance a amount tokenID) ∧ _ := touches_setBalance
    refine .inl ⟨_, _, _, rfl, rfl, h.putDb_set ht.1 (fun b t => ?_) fun hd => absurd ht.2 hd⟩
    rw [balanceOf_setBalance, (h.states i).balance]
  | createAccount i a =>
    refine .inl ⟨_, _, _, rfl, rfl, h.putDb_same touches_createAccount fun b t => ?_⟩
    rw [balanceOf_createAccount]
    split_ifs with hb
    · rw [hb]
      exact (h.cached_iff i a).mpr hc t
    · exact (h.states i).balance b t
  | getBalance i a tokenID =>
    have hanswer : ((m.states i).db.getBalance a tokenID).1 = p.states i a tokenID := by
      rw [getBalance_fst, ← (h.states i).balance]
      rfl
    exact h.proceeds_read (x := .amount (p.states i a tokenID)) (by rw [← hanswer]; rfl) rfl
      touches_getBalance fun _ _ => balanceOf_getBalance
  | getBalances i a =>
    have hanswer : TokenMap.amount ((m.states i).db.getBalances a).1 = p.states i a := by
      funext t
      rw [amount_getBalances]
      exact (h.cached_iff i a).mpr hc t
    exact h.proceeds_read (x := .amounts (p.states i a)) (by rw [← hanswer]; rfl) rfl
      touches_getBalances fun _ _ => balanceOf_getOrNewStateObject
  | finalise i flag =>
    rcases (h.states i).finalise flag with ⟨⟨s, hs, hw⟩, hsafe⟩ | ⟨-, hstr⟩
    · have hA : ∀ a ∈ (m.states i).db.dirties.toFinset, a ∈ (m.states i).unwritten :=
        fun a ha => Finset.mem_union_right _ ha
      exact .inl ⟨_, _, p, step_finalise hs, rfl, (h.put_iff hA hw hsafe).1 hc⟩
    · exact absurd (fun a ha o ho => (hc a ha o ho).1) hstr
  | reload root i =>
    have hnew : (Session.new (m.roots root)).Sound (p.roots root) := by
      rw [show p.roots root = fun a => entryBalance (m.roots root a) from
        funext fun a => funext fun t => (h.roots root a t).symm]
      exact Session.sound_new (m.roots root)
    exact .inl ⟨_, _, _, rfl, rfl, h.replace hnew (fun a n hn => nomatch hn)⟩
  | copy i j =>
    obtain ⟨s, hs, hsound, htries⟩ := (h.states i).copy
    exact .inl ⟨_, _, _, step_copy hs, rfl, h.replace hsound fun a n hn => ⟨i, htries a n hn⟩⟩

/-- **A call after which the models agree** meets the condition. -/
theorem Sound.meets (h : m.Sound p) {call : Call} {x : Answer} (hm : m.step call = .ok (x, m'))
    (hp : p.step call = some (x, p')) (hagrees : Agrees m' p') : Meets m call := by
  cases call with
  | createAccount i a =>
    cases hm
    cases hp
    refine (h.cached_iff i a).mp fun t => ?_
    have hbalance := hagrees.1 i a t
    rw [show ((m.putDb i ((m.states i).db.createAccount a)).states i).db =
      (m.states i).db.createAccount a from congrArg Session.db (if_pos rfl),
      balanceOf_createAccount, if_pos rfl] at hbalance
    exact hbalance
  | getBalances i a =>
    refine (h.cached_iff i a).mp fun t => ?_
    rw [← amount_getBalances]
    have hx : x = .amounts (p.states i a) := by
      cases hp
      rfl
    have hx' : x = .amounts (TokenMap.amount ((m.states i).db.getBalances a).1) :=
      (congrArg Prod.fst (Except.ok.inj hm)).symm
    exact congrFun (Answer.amounts.inj (hx'.symm.trans hx)) t
  | finalise i flag =>
    cases hp
    rcases (h.states i).finalise flag with ⟨⟨s, hs, hw⟩, hsafe⟩ | ⟨⟨e, he⟩, -⟩
    · cases (step_finalise hs).symm.trans hm
      have hA : ∀ a ∈ (m.states i).db.dirties.toFinset, a ∈ (m.states i).unwritten :=
        fun a ha => Finset.mem_union_right _ ha
      exact (h.put_iff hA hw hsafe).2 hagrees.1
    · unfold step at hm
      dsimp only at hm
      rw [he] at hm
      cases hm
  | commit i flag root =>
    cases hp
    rcases (h.states i).commit flag with ⟨⟨s, hs, hw, -⟩, hsafe⟩ | ⟨⟨e, he⟩, -⟩
    · cases (step_commit hs).symm.trans hm
      exact (h.put_iff (fun _ => id) hw hsafe).2 hagrees.1
    unfold step at hm
    dsimp only at hm
    rw [he] at hm
    cases hm
  | addBalance | subBalance | setBalance | getBalance | reload | copy => exact trivial

theorem meets_of_refused {call : Call} (hp : p.step call = none) : Meets m call := by
  cases call with
  | subBalance i a amount tokenID => exact trivial
  | addBalance | setBalance | createAccount | getBalance | getBalances | finalise | commit | reload
  | copy => cases hp

end Memory

theorem RunAgrees.agrees {m : Memory} {p : PlainMemory} {calls : List Call} (h : RunAgrees m p calls) :
    Agrees m p := by
  cases calls with
  | nil => exact h
  | cons call rest => exact h.1

theorem Memory.Sound.run {m : Memory} {p : PlainMemory} (h : m.Sound p) (calls : List Call) :
    RunAgrees m p calls ↔ RunMeets m calls := by
  induction calls generalizing m p with
  | nil => exact iff_of_true h.agrees trivial
  | cons call rest ih =>
    constructor
    · rintro ⟨-, hstep⟩
      split at hstep
      · rename_i x m' y p' hm hp
        obtain ⟨rfl, hrest⟩ := hstep
        have hc : Meets m call := h.meets hm hp hrest.agrees
        rcases h.proceeds hc with ⟨x, m', p', hm', hp', hsound⟩ | ⟨⟨e, hm'⟩, -⟩
        · cases hm.symm.trans hm'
          cases hp.symm.trans hp'
          refine ⟨hc, fun x m' hx => ?_⟩
          cases hm.symm.trans hx
          exact (ih hsound).mp hrest
        · cases hm.symm.trans hm'
      · rename_i hm hp
        exact ⟨meets_of_refused hp, fun x m' hx => nomatch hm.symm.trans hx⟩
      · exact hstep.elim
    · rintro ⟨hc, hrest⟩
      refine ⟨h.agrees, ?_⟩
      rcases h.proceeds hc with ⟨x, m', p', hm, hp, hsound⟩ | ⟨⟨e, hm⟩, hp⟩
      · rw [hm, hp]
        exact ⟨rfl, (ih hsound).mpr (hrest x m' hm)⟩
      · rw [hm, hp]
        trivial

/-- **Balances as one map.**  A run of any calls, from fresh states over any roots, agrees with the plain
maps in every state and every answer just when each of its calls meets the condition. -/
theorem balances_plain_iff (roots : ℕ → Recipient → Option EncodedAccount) (calls : List Call) :
    RunAgrees (.start roots) (.start roots) calls ↔ RunMeets (.start roots) calls :=
  (Memory.sound_start roots).run calls

def Memory.answers (m : Memory) : List Call → List Answer
  | [] => []
  | call :: rest =>
      match m.step call with
      | .error _ => []
      | .ok (x, m') => x :: m'.answers rest

def PlainMemory.answers (p : PlainMemory) : List Call → List Answer
  | [] => []
  | call :: rest =>
      match p.step call with
      | none => []
      | some (x, p') => x :: p'.answers rest

def Answer.read : Answer → Option ℕ
  | .amount n => some n
  | _ => Option.none

def holder : EncodedAccount where
  nonce := 0
  tokens := .trie fun tokenID => if tokenID < 17 then 5 else 0
  storage _ := 0
  code := []
  fullShardKey := 0

/-- **`CreateAccount` loses what the token trie holds.**  The balance that is read afterwards is `0`, and
not the `5` that the account was loaded with. -/
theorem createAccount_loses_tokens :
    ((Memory.start fun _ _ => some holder).answers [.createAccount 0 2, .getBalance 0 2 7]).filterMap
        Answer.read = [0] ∧
      ((PlainMemory.start fun _ _ => some holder).answers
        [.createAccount 0 2, .getBalance 0 2 7]).filterMap Answer.read = [5] := by
  decide +kernel

end QuarkChain.State
