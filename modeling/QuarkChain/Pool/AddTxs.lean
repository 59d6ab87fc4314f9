/-
# Adding a batch of transactions

`addTxs` and `addTxsLocked` of `src/core/tx_pool.go`.  Transactions that the pool knows are answered at once
and without the lock; the others are added one after the other, and their results are merged into the
slots that are still empty.  The merge looks for the next empty slot before it writes a result, and a nil
result leaves its slot empty: the next error goes into the slot of the transaction that was accepted.

What the pool is and how it adds one transaction is left open (`PoolOps`).
-/
import QuarkChain.Core.Types

namespace QuarkChain.Pool

open QuarkChain.Core QuarkChain.Types

/-- What `addTxs` uses of a pool: the lookup of a hash, and `add`, which says whether another transaction was
replaced. -/
structure PoolOps (P ε : Type) where
  get : P → Hash → Option EvmTransaction
  add : P → EvmTransaction → (isLocal : Bool) → P × Except ε Bool

inductive BatchError (ε : Type)
  | known (hash : Hash)
  | add (err : ε)
deriving DecidableEq

def errorOf {ε : Type} : Except ε Bool → Option (BatchError ε)
  | .ok _ => none
  | .error err => some (.add err)

variable {P ε : Type}

namespace PoolOps

variable (ops : PoolOps P ε) (isLocal : Bool)

/-- `addTxsLocked`: the pool, the errors, and the transactions whose accounts become dirty. -/
def addTxsLocked (p : P) : List EvmTransaction → P × List (Option (BatchError ε)) × List EvmTransaction
  | [] => (p, [], [])
  | tx :: txs =>
      let r := ops.add p tx isLocal
      let rest := addTxsLocked r.1 txs
      (rest.1, errorOf r.2 :: rest.2.1, if r.2 matches .ok false then tx :: rest.2.2 else rest.2.2)

def slot (p : P) (tx : EvmTransaction) : Option (BatchError ε) :=
  if (ops.get p tx.hash).isSome then some (.known tx.hash) else none

end PoolOps

/-- The loop `for errs[nilSlot] != nil`; it panics at the end of the slots. -/
def nextNil {α : Type} (errs : List (Option α)) (nilSlot : ℕ) : Option ℕ :=
  ((errs.drop nilSlot).findIdx? Option.isNone).map (nilSlot + ·)

def merge {α : Type} (errs : List (Option α)) (nilSlot : ℕ) : List (Option α) → Option (List (Option α))
  | [] => some errs
  | err :: newErrs => do
      let nilSlot ← nextNil errs nilSlot
      merge (errs.set nilSlot err) nilSlot newErrs

/-- `addTxs`, where `p` is the pool that is asked for known transactions and `q` the one that is locked. -/
def PoolOps.addTxs (ops : PoolOps P ε) (isLocal : Bool) (p q : P) (txs : List EvmTransaction) :
    Option (List (Option (BatchError ε))) :=
  let errs := txs.map (ops.slot p)
  let news := txs.filter fun tx => (ops.slot p tx).isNone
  if news = [] then some errs else merge errs 0 (ops.addTxsLocked isLocal q news).2.1

/-- The error of each transaction of the batch: that it is known, or what `add` says when its turn comes. -/
def PoolOps.ownErrors (ops : PoolOps P ε) (isLocal : Bool) (p q : P) :
    List EvmTransaction → List (Option (BatchError ε))
  | [] => []
  | tx :: txs =>
      if (ops.slot p tx).isNone then
        let r := ops.add q tx isLocal
        errorOf r.2 :: ownErrors ops isLocal p r.1 txs
      else ops.slot p tx :: ownErrors ops isLocal p q txs

/-! ### What the merge does -/

section Merge

variable {α : Type} {newErrs errs s : List (Option α)} {t : List α}

def place : List (Option α) → List (Option α) → List (Option α)
  | [], _ => []
  | some e :: errs, new => some e :: place errs new
  | none :: errs, [] => none :: errs
  | none :: errs, x :: new => x :: place errs new

theorem place_nil : place errs [] = errs := by
  induction errs with
  | nil => rfl
  | cons x errs ih =>
    cases x with
    | none => rfl
    | some e => rw [place, ih]

def empty (errs : List (Option α)) : ℕ := errs.countP Option.isNone

theorem nextNil_taken :
    nextNil (t.map some ++ s) t.length = (s.findIdx? Option.isNone).map (t.length + ·) := by
  rw [nextNil, List.drop_left' (List.length_map some)]

/-- The merge fills the empty slots with the errors alone. -/
theorem merge_eq_place (hroom : newErrs.length ≤ empty s) :
    merge (t.map some ++ s) t.length newErrs =
      some (t.map some ++ place s (newErrs.filter Option.isSome)) := by
  induction newErrs generalizing t s with
  | nil => rw [List.filter_nil, place_nil, merge]
  | cons x newErrs ih =>
    induction s generalizing t with
    | nil => simp [empty] at hroom
    | cons y s ihs =>
      cases y with
      | some e =>
        have hstep : nextNil (t.map some ++ some e :: s) t.length =
            nextNil ((t ++ [e]).map some ++ s) (t ++ [e]).length := by
          rw [nextNil_taken, nextNil_taken]
          simp [List.findIdx?_cons, Function.comp_def, Nat.add_assoc, Nat.add_comm 1]
        have := ihs (t := t ++ [e]) (by simpa [empty] using hroom)
        rw [merge, ← hstep] at this
        rw [merge, place]
        simpa using this
      | none =>
        have hslot : nextNil (t.map some ++ none :: s) t.length = some t.length := by
          rw [nextNil_taken]
          simp [List.findIdx?_cons]
        have hset : (t.map some ++ none :: s).set t.length x = t.map some ++ x :: s := by simp
        have hroom' : newErrs.length ≤ empty s := by simpa [empty] using hroom
        rw [merge, hslot, Option.bind_eq_bind, Option.bind_some, hset]
        cases x with
        | none =>
          rw [List.filter_cons_of_neg (by simp)]
          exact ih (by simp only [empty, List.countP_cons] at hroom' ⊢; omega)
        | some e =>
          rw [List.filter_cons_of_pos (by simp), place, ih (s := some e :: s) (by simpa [empty] using hroom'),
            place]

theorem place_errors_iff (hroom : newErrs.length = empty errs) :
    place errs (newErrs.filter Option.isSome) = place errs newErrs ↔
      newErrs.Pairwise fun x y => x = none → y = none := by
  induction errs generalizing newErrs with
  | nil =>
    obtain rfl : newErrs = [] := List.eq_nil_of_length_eq_zero hroom
    simp [place]
  | cons y errs ih =>
    cases y with
    | some e => simpa [place] using ih (by simpa [empty] using hroom)
    | none =>
      rcases newErrs with _ | ⟨x, newErrs⟩
      · simp
      have hrest := @ih newErrs (by simpa [empty] using hroom)
      cases x with
      | some e => simpa [place] using hrest
      | none =>
        rw [List.filter_cons_of_neg (by simp), List.pairwise_cons]
        cases herr : newErrs.filter Option.isSome with
        | nil =>
          have hnone : ∀ y ∈ newErrs, y = none := by simpa [List.filter_eq_nil_iff] using herr
          have hpair : newErrs.Pairwise fun x y => x = none → y = none :=
            List.pairwise_of_forall_mem_list fun x _ y hy _ => hnone y hy
          rw [herr, place_nil] at hrest
          simp only [place, List.cons.injEq, true_and, forall_const, hpair, and_true]
          exact ⟨fun _ => hnone, fun _ => hrest.mpr hpair⟩
        | cons x' rest =>
          have hx' : x' ∈ newErrs.filter Option.isSome := herr ▸ List.mem_cons_self
          obtain ⟨hmem, hsome⟩ := List.mem_filter.mp hx'
          refine iff_of_false (fun h => ?_) fun h => ?_
          · rw [place, place] at h
            rw [(List.cons.inj h).1] at hsome
            cases hsome
          · rw [h.1 x' hmem rfl] at hsome
            cases hsome

end Merge

variable (ops : PoolOps P ε) (isLocal : Bool)

variable {txs : List EvmTransaction}

theorem length_addTxsLocked {q : P} : (ops.addTxsLocked isLocal q txs).2.1.length = txs.length := by
  induction txs generalizing q with
  | nil => rfl
  | cons tx txs ih => simp [PoolOps.addTxsLocked, ih]

theorem ownErrors_eq_place {p q : P} : ops.ownErrors isLocal p q txs = place (txs.map (ops.slot p))
      (ops.addTxsLocked isLocal q (txs.filter fun tx => (ops.slot p tx).isNone)).2.1 := by
  induction txs generalizing q with
  | nil => rfl
  | cons tx txs ih =>
    cases h : ops.slot p tx with
    | none =>
      simp only [PoolOps.ownErrors, h, Option.isNone_none, if_true, List.map_cons, ih,
        List.filter_cons_of_pos, PoolOps.addTxsLocked, place]
    | some e => simp [PoolOps.ownErrors, h, ih, place]

/-- **When the errors stand in their places**: exactly if among the transactions that the pool did not know none
was accepted before one that was rejected. -/
theorem addTxs_ownErrors_iff (p q : P) (txs : List EvmTransaction) :
    ∃ errs, ops.addTxs isLocal p q txs = some errs ∧
      (errs = ops.ownErrors isLocal p q txs ↔
        (ops.addTxsLocked isLocal q (txs.filter fun tx => (ops.slot p tx).isNone)).2.1.Pairwise
          fun x y => x = none → y = none) := by
  have hroom : (ops.addTxsLocked isLocal q (txs.filter fun tx => (ops.slot p tx).isNone)).2.1.length =
      empty (txs.map (ops.slot p)) := by
    rw [length_addTxsLocked, empty, List.countP_map, List.countP_eq_length_filter]
    rfl
  have hmerge := merge_eq_place (t := []) hroom.le
  rw [ownErrors_eq_place]
  refine ⟨_, ?_, place_errors_iff hroom⟩
  simp only [PoolOps.addTxs]
  split_ifs with hnews
  · rw [hnews, PoolOps.addTxsLocked, List.filter_nil, place_nil]
  · exact hmerge

def nonceOps : PoolOps ℕ ℕ where
  get _ _ := none
  add p tx _ := if tx.nonce = p then (p + 1, .ok false) else (p, .error tx.nonce)

def nonceTx (nonce : ℕ) : EvmTransaction :=
  { (default : EvmTransaction) with
    hash := BitVec.ofNat 256 nonce, nonce := nonce, gasPrice := 1, gas := 21000, networkId := 1 }

/-- The first transaction is added and the second rejected; the error of the second stands first. -/
theorem error_of_accepted : nonceOps.addTxs false 0 0 [nonceTx 0, nonceTx 7] = some [some (.add 7), none] ∧
    nonceOps.ownErrors false 0 0 [nonceTx 0, nonceTx 7] = [none, some (.add 7)] := by
  decide

end QuarkChain.Pool
