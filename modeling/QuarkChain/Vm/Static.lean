/-
# Static calls

`StaticCall` sets the interpreter's read-only flag, and `enforceRestrictions` refuses every writing
instruction below it.  Precompiles run outside the interpreter: `transferMnt` looks at the flag of its
own frame, which a plain `CALL` inside the static call does not set, and `mintMNT` and
`deploySystemContract` look at none.

`Frame.writes` says which frames run a precompile that writes.  As long as control comes to none, the flag is
handed down from point to point (`Passes.readOnly`), and a static call leaves the ledger alone
(`staticCall_sameLedger`).
-/
import QuarkChain.State.Ledger
import QuarkChain.State.Revert
import QuarkChain.Vm.Sound

namespace QuarkChain.Vm

open QuarkChain.Types
open State StateDB
open Outcome

/-- The request moves value or creates a contract. -/
def Request.spends : Request → Bool
  | .call _ _ _ _ _ value _ => value ≠ 0
  | .create _ _ _ _ _ _ _ => true
  | .callCode _ _ _ _ _ _ _ | .delegateCall _ _ _ _ _ _ | .staticCall _ _ _ _ _ _ => false

instance (env : Env) (f : Frame) : Decidable (f.Mints env) := inferInstanceAs (Decidable (_ ∧ _))

/-- The frame runs a precompile that passes its checks and writes: `mintMNT` mints, `transferMnt` sends an amount
on, or `deploySystemContract` creates a contract. -/
def Frame.writes (env : Env) (ctx : Context) (f : Frame) : Bool :=
  decide (f.Mints env) ||
    match start env ctx f.scope f.contract f.input f.readOnly f.world with
    | .ok (.spawn q _) => q.spends
    | _ => false

/-- The request is made below a read-only frame and does not spend, or is a static call. -/
def Request.ReadOnly : Request → Prop
  | .call scope _ _ _ _ value _ => scope.readOnly = true ∧ value = 0
  | .callCode scope _ _ _ _ _ _ | .delegateCall scope _ _ _ _ _ => scope.readOnly = true
  | .staticCall _ _ _ _ _ _ => True
  | .create _ _ _ _ _ _ _ => False

/-- The read-only flag reaches this point: from above, or because `StaticCall` opened the frame. -/
def Control.ReadOnly : Control → Prop
  | .request q => q.ReadOnly
  | .frame f => f.scope.readOnly = true ∨ f.readOnly = true ∧ f.contract.isStaticCall = true
  | .loop scope _ _ _ => scope.readOnly = true

/-! ### The flag is handed down -/

def Next.ReadOnly : Next → Prop
  | .spawn q _ => q.ReadOnly
  | .destroy _ _ _ => False
  | .done _ | .goto _ _ _ => True

/-- What the start of the frame does with the flag. -/
def Start.Inherits (f : Frame) : Start → Prop
  | .loop scope _ _ _ => scope.readOnly = (f.scope.readOnly || f.readOnly)
  | .spawn q _ => q.spends = false →
      f.contract.isStaticCall = false ∧ (f.scope.readOnly = true → q.ReadOnly)
  | .done _ => True

variable {env : Env} {ctx : Context} {scope : Scope} {c : Contract} {input : List UInt8} {w w' w'' : World}
  {P : Prop}

/-- **Below a read-only frame no instruction destroys the account, spends or creates.** -/
theorem next_readOnly {p : Prog} (hro : scope.readOnly = true) : (next env ctx scope p c w).ReadOnly := by
  cases p with
  | stop | revert | fault | gas => exact trivial
  | useGas | balance | extCode | sload => exact charged_elim trivial fun _ _ => trivial
  | extCodeHash =>
    refine charged_elim trivial fun c₁ _ => ?_
    dsimp only
    split_ifs <;> exact trivial
  | sstore | log | create | create2 | selfdestruct =>
    unfold next
    dsimp only
    rw [if_pos hro]
    exact trivial
  | call cost gas addr value input k =>
    unfold next
    dsimp only
    by_cases hvalue : value ≠ 0
    · rw [if_pos ⟨hro, hvalue⟩]
      exact trivial
    · rw [if_neg fun h => hvalue h.2]
      exact chargedCall_elim trivial fun _ _ _ => ⟨hro, not_not.mp hvalue⟩
  | callCode | delegateCall => exact chargedCall_elim trivial fun _ _ _ => hro
  | staticCall => exact chargedCall_elim trivial fun _ _ _ => trivial

theorem startTransferMnt_inherits {f : Frame} (hscope : f.scope = scope)
    (hstatic : f.contract.isStaticCall = c.isStaticCall) :
    (startTransferMnt env scope c input w).Inherits f := by
  unfold startTransferMnt
  dsimp only
  generalize (if 0 < getWord input 64 then w.db.exist (toAddress (getWord input 0))
    else (true, w.db)) = looked
  generalize ((if 0 < getWord input 64 then 9000 else 0) + if looked.1 = true then 0 else 25000) = gasCost
  generalize (if 0 < getWord input 64 then 2300 else 0) = stipend
  split_ifs with hlen hflag
  case neg =>
    refine fun hspends => ⟨hstatic.trans (Bool.eq_false_iff.mpr hflag), fun hro => ⟨hscope ▸ hro, ?_⟩⟩
    simpa [Request.spends] using hspends
  all_goals exact trivial

theorem startPrecompile_inherits {f : Frame} {p : Precompile} (hscope : f.scope = scope)
    (hstatic : f.contract.isStaticCall = c.isStaticCall) :
    Post (startPrecompile env ctx scope p c input w) (Start.Inherits f) fun _ => True := by
  cases p with
  | crypto i =>
    unfold startPrecompile
    dsimp only
    cases env.crypto i input with
    | some ret => exact trivial
    | none => exact trivial
  | currentMntID | mintMNT | balanceMNT => exact trivial
  | transferMnt => exact startTransferMnt_inherits hscope hstatic
  | deploySystemContract =>
    unfold startPrecompile startDeploySystemContract
    dsimp only
    split_ifs
    · exact trivial
    rcases systemContract (systemContractIndex input) with _ | sc
    · exact trivial
    dsimp only
    cases deployable env ctx sc with
    | some err => exact trivial
    | none => exact nofun

theorem start_inherits (f : Frame) :
    Post (start env ctx f.scope f.contract f.input f.readOnly f.world) (Start.Inherits f) fun _ => True := by
  unfold start startPrecompiledContract
  dsimp only
  cases precompiles f.contract.codeAddr with
  | none =>
    dsimp only
    split_ifs
    · exact trivial
    · exact rfl
  | some p =>
    dsimp only
    split_ifs
    · exact trivial
    · exact startPrecompile_inherits rfl rfl
    · exact trivial
    · exact rfl

theorem enter_readOnly {q : Request} {f : Frame} (hq : q.ReadOnly) (h : q.enter env ctx = .ok (.inr f)) :
    (Control.frame f).ReadOnly := by
  have hscope : f.scope = q.scope := (q.enter_for.of_ok h : f.For q).scope
  cases q with
  | call => exact .inl (hscope ▸ hq.1)
  | callCode | delegateCall => exact .inl (hscope ▸ hq)
  | create => exact hq.elim
  | staticCall scope caller addr input gas w =>
    unfold Request.enter enterStaticCall at h
    dsimp only at h
    split_ifs at h
    · cases h
    · cases h
    · cases h
      exact .inr ⟨rfl, rfl⟩

variable {x y : ℕ × Control}

/-- **The flag is handed down,** except by a frame whose precompile writes. -/
theorem Passes.readOnly (h : Passes env ctx x y) (hx : x.2.ReadOnly)
    (hharmless : ∀ f, x.2 = .frame f → f.writes env ctx = false) : y.2.ReadOnly := by
  cases h with
  | enter h => exact enter_readOnly hx h
  | @interpret n f scope p c w h =>
    have hinherits : (Start.loop scope p c w).Inherits f := (start_inherits f).of_ok h
    show scope.readOnly = true
    rw [hinherits]
    rcases hx with hro | ⟨hro, -⟩ <;> simp [hro]
  | @precompile n f q finish h =>
    have hinherits : (Start.spawn q finish).Inherits f := (start_inherits f).of_ok h
    have hwrites := hharmless f rfl
    unfold Frame.writes at hwrites
    rw [h] at hwrites
    obtain ⟨hflag, hq⟩ := hinherits (Bool.or_eq_false_iff.mp hwrites).2
    refine hq (hx.resolve_right fun hstatic => ?_)
    exact absurd (hflag.symm.trans hstatic.2) Bool.noConfusion
  | goto h => exact hx
  | @spawn n scope p c w q resume h =>
    have hnext : (next env ctx scope p c w).ReadOnly := next_readOnly hx
    rw [h] at hnext
    exact hnext
  | resume h hr => exact hx

theorem Way.readOnly (h : Way env ctx x y) (hx : x.2.ReadOnly)
    (hharmless : ∀ n f, Way env ctx x (n, .frame f) → f.writes env ctx = false) : y.2.ReadOnly := by
  induction h with
  | refl => exact hx
  | @tail y z hway hstep ih =>
    obtain ⟨n, y⟩ := y
    exact hstep.readOnly ih fun f hf => hharmless n f (hf ▸ hway)

/-! ### What a read-only run may do -/

/-- Nothing is written, minted or destroyed, and nothing but zero is paid. -/
def Guards.quiet : Guards := ⟨False, (· = 0), False, fun _ _ => False⟩

theorem Control.ReadOnly.allows {x : Control} (hx : x.ReadOnly)
    (hharmless : ∀ f, x = .frame f → f.writes env ctx = false) : x.Allows env ctx .quiet := by
  cases x with
  | request q =>
    cases q with
    | call => exact hx.2
    | create => exact hx.elim
    | callCode | delegateCall | staticCall => exact trivial
  | frame f =>
    intro hmints
    have hwrites := hharmless f rfl
    rw [Frame.writes, decide_eq_true hmints] at hwrites
    cases hwrites
  | loop scope p c w =>
    have hnext : (next env ctx scope p c w).ReadOnly := next_readOnly hx
    refine ⟨fun _ hro => ?_, ?_⟩
    · exact absurd (hro.symm.trans hx) Bool.noConfusion
    · generalize next env ctx scope p c w = step at hnext ⊢
      cases step with
      | done | goto | spawn => exact trivial
      | destroy => exact hnext

/-- If `P` holds, the ledger stays. -/
def Quiet (P : Prop) (w w' : World) : Prop := P → w.db.Consistent → StateDB.Still w.db w'.db

theorem Quiet.trans (h : Quiet P w w') (h' : Quiet P w' w'') : Quiet P w w'' := fun hP hw =>
  (h hP hw).trans (h' hP (h hP hw).consistent)

theorem quiet_transfer {sender recipient : Recipient} {amount : ℕ} {tokenID : TokenID}
    (h : transfer w sender recipient amount tokenID = .ok w') : Quiet (amount = 0) w w' := by
  obtain ⟨db, hdb, rfl⟩ := transfer_eq_ok.mp h
  rintro rfl hw
  have hsub := still_subBalance_zero hw hdb
  have hadd : StateDB.Still db (db.addBalance recipient 0 tokenID) := still_addBalance_zero hsub.consistent
  exact hsub.trans hadd

theorem quiet_revertTo (h : Quiet P w.marked w') (hback : w'.revertTo w.mark = .ok w'') : Quiet P w w'' := by
  intro hP hw
  obtain ⟨db, hdb, hstill⟩ := (h hP hw.snapshot).revertToSnapshot hw
  unfold World.revertTo World.mark at hback
  rw [hdb] at hback
  cases hback
  exact hstill

/-- **What a read-only run may do leaves the ledger alone.** -/
theorem steps_quiet (env : Env) : Steps env .quiet Quiet where
  refl _ _ hw := .refl hw
  trans := Quiet.trans
  mono hQP h hQ := h (hQP hQ)
  load _ _ _ hw := still_getStateObject hw
  getBalance _ _ _ _ hw := still_getBalance hw
  getNonce _ _ _ hw := (still_getOrNewStateObject hw).1
  setNonce _ _ _ := False.elim
  setCode _ _ _ := False.elim
  setState _ _ _ _ := False.elim
  addRefund _ _ := False.elim
  addLog _ _ := False.elim
  createAccount _ _ hno hw := still_createAccount hw (hno.resolve_left id)
  touch w a _ hw :=
    (still_addBalance_zero hw : StateDB.Still w.db (w.db.addBalance a 0 env.defaultChainTokenID))
  transfer := quiet_transfer
  mint _ _ _ _ := False.elim
  selfdestruct _ _ _ h := h.1.elim
  mark _ _ hw := .snapshot hw
  revert := quiet_revertTo

/-- **A static call changes nothing, if control comes to no frame whose precompile writes.** -/
theorem staticCall_sameLedger {trie : Recipient → Option EncodedAccount} {block : BlockFields}
    {s : StateDB} (hs : Reachable trie block s) (env : Env) (ctx : Context) (fuel : ℕ) (scope : Scope)
    (caller addr : Recipient) (input : List UInt8) (gas : ℕ) {r : CallResult}
    (hharmless : ∀ n f, Way env ctx (fuel, .request (.staticCall scope caller addr input gas { db := s }))
      (n, .frame f) → f.writes env ctx = false)
    (hrun : (Vm.ops env ctx fuel).staticCall scope caller addr input gas { db := s } = .ok r) :
    StateDB.SameLedger r.world.db s := by
  have hquiet := ((steps_quiet env).exec fuel (.staticCall scope caller addr input gas { db := s })).of_ok hrun
  refine (hquiet ?_ (consistent_of_reachable hs)).sameLedger
  rintro ⟨n, y⟩ hway
  exact Control.ReadOnly.allows (hway.readOnly trivial hharmless) fun f hf => hharmless n f (hf ▸ hway)

/-! ### A static call that moves tokens -/

def staticState : StateDB :=
  .new
    (fun a =>
      if a = 17 then
        some { nonce := 1, tokens := .list (Finmap.singleton 7 5), storage := fun _ => 0, code := [0],
               fullShardKey := 0 }
      else none)
    { gasLimit := 0, blockCoinbase := 0, timeStamp := 1, blockNumber := 0 }

/-- The contract calls `transferMnt` to send `amount` of token `7` to account `18`. -/
def staticEnv (amount : ℕ) : Env where
  defaultChainTokenID := 0
  chainID := 0
  enableTime _ := 0
  bytecode _ := []
  timestamp _ := 0
  createAddress a _ _ := a
  createAddress2 a _ _ := a
  cryptoGas _ _ := 0
  crypto _ _ := none
  interp _ _ _ :=
    .call 0 100000 transferMntAddr 0 (toBytes 32 18 ++ toBytes 32 7 ++ toBytes 32 amount)
      fun _ _ => .stop []

def staticContext : Context where
  origin := 9
  gasPrice := 0
  gasPriceInGasToken := 0
  coinbase := 0
  blockNumber := 0
  time := 1
  toFullShardKey := none
  gasTokenID := 0
  transferTokenID := 0

def staticRun (amount : ℕ) : Exec CallResult :=
  (Vm.ops (staticEnv amount) staticContext 4).staticCall ⟨0, false, 0⟩ 9 17 [] 200000
    { db := staticState }

/-- **A static call moves tokens:** the contract sends its `5` tokens away. -/
theorem staticCall_transfers :
    (staticState.getBalance 17 7).1 = 5 ∧
      ∃ r, staticRun 5 = .ok r ∧ r.err = none ∧ (r.world.db.getBalance 17 7).1 = 0 ∧
        (r.world.db.getBalance 18 7).1 = 5 := by
  refine ⟨rfl, exists_ok_of_test ?_⟩
  decide +kernel

/-- With nothing to send, the same call changes nothing. -/
theorem staticCall_sameLedger_zero :
    ∃ r, staticRun 0 = .ok r ∧ r.err = none ∧ StateDB.SameLedger r.world.db staticState := by
  have htest : ∃ r, staticRun 0 = .ok r ∧ r.err = none := by
    refine exists_ok_of_test ?_
    decide +kernel
  obtain ⟨r, hrun, herr⟩ := htest
  refine ⟨r, hrun, herr, staticCall_sameLedger .start _ _ _ _ _ _ _ _ (fun n f hway => ?_) hrun⟩
  have hwalk : walk (staticEnv 0) staticContext
      (fun | (_, .frame f) => !f.writes (staticEnv 0) staticContext | _ => true) 20
      (4, .request (.staticCall ⟨0, false, 0⟩ 9 17 [] 200000 { db := staticState })) = true := by
    decide +kernel
  exact (Bool.not_eq_true' _).mp (walk_sound hwalk hway)

end QuarkChain.Vm
