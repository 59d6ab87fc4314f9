/-
# The total of a token

The sum of a token's balances over all accounts, and what the account operations and `Finalise`
(`src/core/state/statedb.go`) do to it.
-/
import Mathlib.Algebra.BigOperators.Group.Finset.Piecewise
import Mathlib.Algebra.Order.BigOperators.Group.Finset
import Mathlib.Data.FinEnum
import QuarkChain.State.Holding

namespace QuarkChain.State

open QuarkChain.Types

theorem TokenBalances.balance_commit {b b' : TokenBalances} {t : TokenID}
    (h : b.commit = some b') : b'.balance t = b.balance t := by
  unfold commit at h
  split_ifs at h
  · cases h
    rfl
  · cases h
    simp [balance]

theorem mem_keys_nonZeroEntries {m : TokenMap} {t : TokenID} {amount : ℕ}
    (h : m.lookup t = some amount) (hpos : 0 < amount) : t ∈ (nonZeroEntries m).keys := by
  have hmem : (⟨t, amount⟩ : Sigma fun _ : TokenID => ℕ) ∈ (nonZeroEntries m).entries :=
    Multiset.mem_filter.mpr ⟨Finmap.lookup_eq_some_iff.mp h, by simpa using hpos⟩
  exact Finmap.mem_keys.mpr (Finmap.mem_def.mpr (Multiset.mem_map_of_mem Sigma.fst hmem))

namespace StateObject

variable {o : StateObject} {t : TokenID} {flag : Bool} {r : Option EncodedAccount × StateObject}

end StateObject

namespace StateDB

variable {s s' : StateDB} {a : Recipient} {t tokenID : TokenID} {amount : ℕ} {flag : Bool}
  {o : StateObject}

theorem finalise_cases (h : s.finalise flag = .ok s') (a : Recipient) :
    (∃ o r, a ∈ s.dirties ∧ s.stateObjects a = some o ∧ o.writeBack flag = some r ∧
        s'.stateObjects a = some r.2) ∨
      ((a ∈ s.dirties → s.stateObjects a = none) ∧ s'.live a = s.live a) := by
  unfold finalise at h
  split_ifs at h with hpanic
  cases h
  by_cases ha : a ∈ s.dirties
  · cases ho : s.stateObjects a with
    | none =>
      refine .inr ⟨fun _ => rfl, live_congr ?_ ?_⟩
      · simp [ha, written, ho]
      · simp [ha, written, ho]
    | some o =>
      cases hw : o.writeBack flag with
      | none => exact absurd ⟨a, ha, by simp [written, ho, hw]⟩ hpanic
      | some r => exact .inl ⟨o, r, ha, rfl, hw, by simp [ha, written, ho, hw]⟩
  · refine .inr ⟨fun h => absurd h ha, live_congr ?_ ?_⟩
    · exact if_neg ha
    · exact if_neg ha

theorem balanceOf_of_deleted (h : s.stateObjects a = some o)
    (hd : o.deleted = true) : s.balanceOf a t = 0 := by
  unfold balanceOf live
  rw [h]
  simp [hd]

noncomputable def total (s : StateDB) (t : TokenID) : ℕ := ∑ a : Recipient, s.balanceOf a t

end StateDB
end QuarkChain.State
