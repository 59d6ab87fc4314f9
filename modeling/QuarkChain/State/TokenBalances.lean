/-
# Token balances of an account

`types.TokenBalances` (`src/core/types/token.go`): an account holds its balances in a map, and once
more than `16` tokens are non-zero, in a token trie with the map as a cache over it.  A trie is
represented by its content, a function that is zero where the trie has no entry; two tries have the
same root hash exactly when they have the same content.  Negative amounts make `SetValue` panic, so
stored amounts are natural numbers.

`balance` is what an account holds of a token whatever the representation.  `encode` is `SerializeToBytes` up to
the byte layout.
-/
import QuarkChain.Types.CrossShard

namespace QuarkChain.State

open QuarkChain.Types

def tokenTrieThreshold : ℕ := 16

def nonZeroEntries (m : TokenMap) : TokenMap where
  entries := m.entries.filter fun e => 0 < e.2
  nodupKeys := by
    obtain ⟨entries, hnodup⟩ := m
    induction entries using Quotient.inductionOn with
    | h l => exact List.NodupKeys.sublist List.filter_sublist hnodup

/-- `types.TokenBalances`: whether a trie database is attached, the token trie if there is one, and
the map of balances. -/
structure TokenBalances where
  db : Bool
  tokenTrie : Option (TokenID → ℕ)
  balances : TokenMap

/-- What an account entry of the state trie says about balances: `SerializeToBytes` gives nothing
for an empty map, a list of the non-zero entries, or the root of the token trie. -/
inductive EncodedTokens
  | empty
  | list (balances : TokenMap)
  | trie (content : TokenID → ℕ)

namespace TokenBalances

def new : TokenBalances := ⟨true, none, ∅⟩

/-- `NewTokenBalancesWithMap`: neither a database nor a trie is attached. -/
def newTokenBalancesWithMap (data : TokenMap) : TokenBalances := ⟨false, none, data⟩

def decode : EncodedTokens → TokenBalances
  | .empty => new
  | .list balances => ⟨true, none, balances⟩
  | .trie content => ⟨true, some content, ∅⟩

variable (t : TokenBalances) (tokenID : TokenID)

/-- What the account holds of a token: the map first, then the trie. -/
def balance : ℕ :=
  match t.balances.lookup tokenID with
  | some amount => amount
  | none => t.tokenTrie.elim 0 fun content => content tokenID

/-- `GetTokenBalance`: a non-zero amount found in the trie is kept in the map. -/
def getTokenBalance : ℕ × TokenBalances :=
  match t.balances.lookup tokenID with
  | some amount => (amount, t)
  | none =>
      match t.tokenTrie with
      | none => (0, t)
      | some content =>
          if content tokenID = 0 then (0, t)
          else
            (content tokenID, { t with balances := t.balances.insert tokenID (content tokenID) })

def setValue (amount : ℕ) : TokenBalances :=
  { t with balances := t.balances.insert tokenID amount }

def getBalanceMap : TokenMap := t.balances

def nonZeroEntriesInBalancesCache : ℕ := (nonZeroEntries t.balances).keys.card

def isBlank : Bool := t.tokenTrie.isNone && t.nonZeroEntriesInBalancesCache == 0

def notUsingTrie : Bool :=
  t.tokenTrie.isNone && t.nonZeroEntriesInBalancesCache ≤ tokenTrieThreshold

/-- `Commit`: with more than `16` non-zero tokens, or a trie already, write the map to the trie.
`none` is the panic of opening a trie without a database. -/
def commit : Option TokenBalances :=
  if t.notUsingTrie then some t
  else if t.tokenTrie.isNone && !t.db then none
  else some { t with tokenTrie := some t.balance, balances := ∅ }

/-- `SerializeToBytes`; `none` is the error `bug here` for balances that were not committed. -/
def encode : Option EncodedTokens :=
  match t.tokenTrie with
  | some content => if t.balances = ∅ then some (.trie content) else none
  | none =>
      if !t.notUsingTrie then none
      else if t.balances = ∅ then some .empty
      else some (.list (nonZeroEntries t.balances))

variable {t} {tokenID}

@[simp] theorem getTokenBalance_fst : (t.getTokenBalance tokenID).1 = t.balance tokenID := by
  unfold getTokenBalance balance
  cases t.balances.lookup tokenID with
  | some amount => rfl
  | none =>
    rcases t.tokenTrie with _ | content
    · rfl
    dsimp only [Option.elim]
    split_ifs with h
    · exact h.symm
    · rfl

@[simp] theorem getTokenBalance_tokenTrie : (t.getTokenBalance tokenID).2.tokenTrie = t.tokenTrie := by
  unfold getTokenBalance
  split
  · rfl
  · split
    · rfl
    · split_ifs <;> rfl

@[simp] theorem getTokenBalance_db : (t.getTokenBalance tokenID).2.db = t.db := by
  unfold getTokenBalance
  split
  · rfl
  · split
    · rfl
    · split_ifs <;> rfl

theorem getTokenBalance_of_tokenTrie_eq_none (h : t.tokenTrie = none) :
    (t.getTokenBalance tokenID).2 = t := by
  unfold getTokenBalance
  rw [h]
  split <;> rfl

theorem balance_setValue (amount : ℕ) (tokenID' : TokenID) :
    (t.setValue tokenID amount).balance tokenID' =
      if tokenID' = tokenID then amount else t.balance tokenID' := by
  unfold setValue balance
  split_ifs with h
  · subst h
    simp [Finmap.lookup_insert]
  · simp [Finmap.lookup_insert_of_ne _ h]

@[simp] theorem balance_getTokenBalance : (t.getTokenBalance tokenID).2.balance = t.balance := by
  obtain ⟨db, trie, m⟩ := t
  unfold getTokenBalance
  cases hl : m.lookup tokenID with
  | some amount => rfl
  | none =>
    rcases trie with _ | content
    · rfl
    dsimp only
    split_ifs with h
    · rfl
    funext tokenID'
    change (setValue ⟨db, some content, m⟩ tokenID (content tokenID)).balance tokenID' = _
    rw [balance_setValue]
    split_ifs with hid
    · subst hid
      simp [balance, hl]
    · rfl

end TokenBalances
end QuarkChain.State
