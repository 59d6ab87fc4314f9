/-
# Who may mint

`mintMNT.Run` of `src/core/vm/contracts.go` lets "only system contract" mint new tokens: it compares
the frame's `CallerAddress` with the address of the non-reserved-native-token contract.  `CALL`,
`CALLCODE` and `STATICCALL` set that field to the address of the frame that issues the call;
`AsDelegate` of `contract.go` copies it from the parent instead.

A frame is arbitrary here, as is the layer of frames below it: whatever call tree a call to the
precompile stands in, it is issued by some frame in some state.
-/
import QuarkChain.State.Balance
import QuarkChain.State.Revert
import QuarkChain.Vm.Machine

namespace QuarkChain.Vm

open QuarkChain.Types
open State
open Outcome

inductive CallKind
  | call
  | callCode
  | delegateCall
  | staticCall
deriving DecidableEq

def CallKind.frame (kind : CallKind) (c : Contract) (addr : Recipient) (code : List UInt8)
    (gas value : ℕ) : Contract :=
  match kind with
  | .call =>
      { callerAddress := c.self, caller := c.self, self := addr, code, codeAddr := addr, gas, value }
  | .callCode =>
      { callerAddress := c.self, caller := c.self, self := c.self, code, codeAddr := addr, gas, value }
  | .delegateCall =>
      { callerAddress := c.callerAddress, caller := c.self, self := c.self, code, codeAddr := addr,
        gas, value := c.value }
  | .staticCall =>
      { callerAddress := c.self, caller := c.self, self := addr, code, codeAddr := addr, gas,
        value := 0, isStaticCall := true }

/-- How a frame gets at the mint precompile: by an instruction of its own, or by entering the transfer
precompile, which then calls the address it is given. -/
inductive Route
  | instruction (kind : CallKind)
  | transferMnt (kind : CallKind)
deriving DecidableEq

section

variable (env : Env) (ctx : Context) (lower : Ops) (scope : Scope)

/-- The call that reaches `addr` when the frame `c` takes a route to it.  The transfer precompile calls
in the name of its frame's `caller`. -/
def Contract.issue (c : Contract) (route : Route) (addr : Recipient) (input : List UInt8)
    (gas value : ℕ) (w : World) : Exec CallResult :=
  match route with
  | .instruction .call => Vm.call env ctx lower scope c.self addr input gas value w
  | .instruction .callCode => Vm.callCode env ctx lower scope c.self addr input gas value w
  | .instruction .delegateCall => Vm.delegateCall env ctx lower scope c addr input gas w
  | .instruction .staticCall => Vm.staticCall env ctx lower scope c.self addr input gas w
  | .transferMnt kind =>
      Vm.call env ctx lower scope (kind.frame c transferMntAddr [] gas value).caller addr input gas
        value w

end

def Route.last : Route → CallKind
  | .instruction kind => kind
  | .transferMnt _ => .call

variable {env : Env} {ctx : Context} {lower : Ops} {scope : Scope} {c : Contract} {kind : CallKind}
  {input : List UInt8} {gas value : ℕ} {w w' : World}

theorem CallKind.frame_caller (kind : CallKind) (c : Contract) (addr : Recipient)
    (code : List UInt8) (gas value : ℕ) : (kind.frame c addr code gas value).caller = c.self := by
  cases kind <;> rfl

theorem CallKind.frame_callerAddress (kind : CallKind) (c : Contract) (addr : Recipient)
    (code : List UInt8) (gas value : ℕ) : (kind.frame c addr code gas value).callerAddress =
      if kind = .delegateCall then c.callerAddress else c.self := by
  cases kind <;> rfl

theorem mintMNT_ok (h : (mintMNT env c input w).err = none) :
    c.callerAddress = SystemContract.nonReservedNativeToken.address ∧
      mintRejected env input = none := by
  obtain ⟨hne, -⟩ | ⟨hsender, hrej, -, -⟩ := mintMNT_cases env c input w
  · exact absurd h hne
  · exact ⟨hsender, hrej⟩

theorem mintMNT_return (hsender : c.callerAddress = SystemContract.nonReservedNativeToken.address)
    (hrej : mintRejected env input = none) (hgas : 25000 ≤ c.gas) : mintMNT env c input w = .return
        { c with gas := c.gas - if (w.db.exist (toAddress (getWord input 0))).1 then 0 else 25000 }
        (World.mint { w with db := (w.db.exist (toAddress (getWord input 0))).2 }
          (toAddress (getWord input 0)) (getWord input 64) (getWord input 32 % 2 ^ 64))
        (toBytes 32 1) := by
  have henough : ¬(!(w.db.exist (toAddress (getWord input 0))).1 && c.gas < 25000) = true := by
    simp [Nat.not_lt.mpr hgas]
  unfold mintMNT
  rw [hrej]
  dsimp only
  rw [if_neg henough, if_neg (not_not.mpr hsender)]

theorem mintRejected_eq_none (h : mintRejected env input = none) : env.chainID = 0 := by
  unfold mintRejected at h
  dsimp only at h
  split_ifs at h with h0 hmax hchain hdefault
  exact not_not.mp hchain

theorem precompiles_mintMNTAddr : precompiles mintMNTAddr = some .mintMNT := by decide

theorem run_mint_ok {lower : Ops} {readOnly : Bool} {r : RunResult} (haddr : c.codeAddr = mintMNTAddr)
    (henabled : env.enableTime .mintMNT < w.db.block.timeStamp)
    (hrun : run env ctx lower scope c input readOnly w = .ok r) (herr : r.err = none) :
    c.callerAddress = SystemContract.nonReservedNativeToken.address ∧ env.chainID = 0 := by
  unfold run at hrun
  dsimp only at hrun
  rw [haddr, precompiles_mintMNTAddr] at hrun
  dsimp only at hrun
  rw [if_pos henabled] at hrun
  unfold runPrecompiledContract at hrun
  by_cases hgas : c.gas < requiredGas env .mintMNT input
  · rw [if_pos hgas] at hrun
    cases hrun
    simp [RunResult.fail] at herr
  rw [if_neg hgas] at hrun
  cases hrun
  obtain ⟨hsender, hrej⟩ := mintMNT_ok herr
  exact ⟨hsender, mintRejected_eq_none hrej⟩

theorem finish_ok {mark : Mark} {r : RunResult} {r' : CallResult}
    (h : finish env scope mark r = .ok r') (herr : r'.err = none) : r.err = none := by
  unfold finish at h
  rcases hr : r.err with _ | err
  · rfl
  have hcheck : checkTokenIDQueried env (some err) r.contract scope.transferTokenID = some err := rfl
  rw [hr, hcheck] at h
  obtain ⟨w', -, hw'⟩ := bind_eq_ok.mp h
  cases hw'
  simp at herr

theorem finishCreate_ok {mark : Mark} {address : Recipient} {r : RunResult} {r' : CallResult}
    (h : finishCreate env scope mark address r = .ok r') (herr : r'.err = none) : r.err = none := by
  unfold finishCreate at h
  rcases hr : r.err with _ | err
  · rfl
  have hcheck : checkTokenIDQueried env (some err) r.contract scope.transferTokenID = some err := rfl
  rw [hr, hcheck] at h
  obtain ⟨w', -, hw'⟩ := bind_eq_ok.mp h
  cases hw'
  simp at herr

section

variable (henabled : env.enableTime .mintMNT < w.db.block.timeStamp) (hcons : w.db.Consistent)
  {r : CallResult} (herr : r.err = none)

include henabled hcons herr

theorem request_mint_ok (q : Request) (hw : q.world = w) (htarget : q.target = mintMNTAddr)
    (h : q.exec (nextOps env ctx lower) = .ok r) :
    q.callerAddress = SystemContract.nonReservedNativeToken.address ∧ env.chainID = 0 := by
  subst hw
  rw [q.exec_nextOps] at h
  obtain ⟨e, he, h⟩ := bind_eq_ok.mp h
  have hfor : EntryFor q e := q.enter_for.of_ok he
  have hkeeps := ((steps_above env).enter (P := False) q False.elim).of_ok he
  cases e with
  | inl r' =>
    cases h
    have hskip := hfor.skipped herr
    rw [htarget, precompiles_mintMNTAddr] at hskip
    cases hskip
  | inr f =>
    obtain ⟨w₁, hw₁, hf⟩ := hkeeps
    obtain ⟨r', hrun, hfinish⟩ := bind_eq_ok.mp h
    have hmark := World.above_marked (hw₁ hcons).consistent
    have habove := ((hw₁ hcons).trans hmark).trans (hf.world hmark.consistent)
    have htime : f.world.db.block.timeStamp = q.world.db.block.timeStamp :=
      congrArg BlockFields.timeStamp habove.block
    have herr' : r'.err = none := by
      obtain hfin | ⟨-, hfin⟩ := hf.finish_eq
      · rw [hfin] at hfinish
        exact finish_ok hfinish herr
      · rw [hfin] at hfinish
        exact finishCreate_ok hfinish herr
    rw [← hfor.callerAddress]
    exact run_mint_ok (hfor.codeAddr.trans htarget) (htime ▸ henabled) hrun herr'

/-- **What a successful mint shows.** -/
theorem issue_mint_ok {route : Route}
    (h : c.issue env ctx lower scope route mintMNTAddr input gas value w = .ok r) :
    (route.last.frame c mintMNTAddr [] gas value).callerAddress =
        SystemContract.nonReservedNativeToken.address ∧ env.chainID = 0 := by
  rcases route with kind | kind
  · cases kind with
    | call => exact request_mint_ok henabled hcons herr (.call ..) rfl rfl h
    | callCode => exact request_mint_ok henabled hcons herr (.callCode ..) rfl rfl h
    | delegateCall => exact request_mint_ok henabled hcons herr (.delegateCall ..) rfl rfl h
    | staticCall => exact request_mint_ok henabled hcons herr (.staticCall ..) rfl rfl h
  · rw [Contract.issue, kind.frame_caller] at h
    exact request_mint_ok henabled hcons herr (.call ..) rfl rfl h

end

/-! ### A frame that the system contract called -/

def mintState (env : Env) : StateDB :=
  .new (fun _ => none)
    { gasLimit := 0, blockCoinbase := 0, timeStamp := env.enableTime .mintMNT + 1, blockNumber := 0 }

def mintInput (env : Env) : List UInt8 :=
  toBytes 32 0 ++ toBytes 32 (if env.defaultChainTokenID = 0 then 1 else 0) ++ toBytes 32 1

theorem mintRejected_mintInput (hchain : env.chainID = 0) : mintRejected env (mintInput env) = none := by
  unfold mintRejected mintInput
  by_cases h0 : env.defaultChainTokenID = 0
  · rw [if_pos h0]
    have htoken : getWord (toBytes 32 0 ++ toBytes 32 1 ++ toBytes 32 1) 32 % 2 ^ 64 = 1 := by decide
    have hvalue : getWord (toBytes 32 0 ++ toBytes 32 1 ++ toBytes 32 1) 64 = 1 := by decide
    simp only [htoken, hvalue]
    simp [hchain, h0, tokenIDMax]
  · rw [if_neg h0]
    have htoken : getWord (toBytes 32 0 ++ toBytes 32 0 ++ toBytes 32 1) 32 % 2 ^ 64 = 0 := by decide
    have hvalue : getWord (toBytes 32 0 ++ toBytes 32 0 ++ toBytes 32 1) 64 = 1 := by decide
    simp only [htoken, hvalue]
    simp [hchain, Ne.symm h0]

theorem delegateCall_mints (ctx : Context) (lower : Ops) (hchain : env.chainID = 0)
    (hcaller : c.callerAddress = SystemContract.nonReservedNativeToken.address) :
    ∃ r, delegateCall env ctx lower ⟨0, false, 0⟩ c mintMNTAddr (mintInput env) 34000
        { db := mintState env } = .ok r ∧ r.err = none := by
  let frame := CallKind.delegateCall.frame c mintMNTAddr [] 34000 0
  let w : World := { db := (mintState env).snapshot.2 }
  have hdelegate : delegateCall env ctx lower ⟨0, false, 0⟩ c mintMNTAddr (mintInput env) 34000
      { db := mintState env } =
        run env ctx lower ⟨0, false, 0⟩ frame (mintInput env) false w >>=
          finish env ⟨0, false, 0⟩ ⟨0, fun _ => 0⟩ := rfl
  have henabled : env.enableTime .mintMNT < w.db.block.timeStamp := Nat.lt_succ_self _
  have hrun : run env ctx lower ⟨0, false, 0⟩ frame (mintInput env) false w =
      runPrecompiledContract env ctx lower ⟨0, false, 0⟩ .mintMNT frame (mintInput env) w :=
    if_pos henabled
  have hgas : ¬frame.gas < requiredGas env .mintMNT (mintInput env) :=
    Nat.not_lt.mpr (show 9000 ≤ 34000 by decide)
  have hreturn := mintMNT_return
    (c := { frame with gas := frame.gas - requiredGas env .mintMNT (mintInput env) })
    (w := w) hcaller (mintRejected_mintInput hchain)
    (show 25000 ≤ 34000 - 9000 by decide)
  rw [hdelegate, hrun, runPrecompiledContract, if_neg hgas]
  refine ⟨_, (congrArg (fun r => Except.ok r >>= finish env ⟨0, false, 0⟩ ⟨0, fun _ => 0⟩) hreturn).trans rfl,
    rfl⟩

/-- **Who may mint.**  A frame gets tokens from the mint precompile only if it runs as the system contract, exactly
if it was not called by the system contract without being it (or nothing can be minted on the chain). -/
theorem mint_authority_iff (env : Env) (ctx : Context) (lower : Ops) (c : Contract) :
    (∀ scope route input gas value w r, w.db.Consistent →
        env.enableTime .mintMNT < w.db.block.timeStamp →
        c.issue env ctx lower scope route mintMNTAddr input gas value w = .ok r → r.err = none →
        c.self = SystemContract.nonReservedNativeToken.address) ↔
      (env.chainID = 0 → c.callerAddress = SystemContract.nonReservedNativeToken.address →
        c.self = SystemContract.nonReservedNativeToken.address) := by
  constructor
  · intro h hchain hcaller
    obtain ⟨r, hcall, herr⟩ := delegateCall_mints ctx lower hchain hcaller
    exact h ⟨0, false, 0⟩ (.instruction .delegateCall) (mintInput env) 34000 0 _ r
      (consistent_new _ _) (Nat.lt_succ_self _) hcall herr
  · intro h scope route input gas value w r hcons henabled hissue herr
    obtain ⟨hsender, hchain⟩ := issue_mint_ok henabled hcons herr hissue
    rw [CallKind.frame_callerAddress] at hsender
    split_ifs at hsender with hkind
    · exact h hchain hsender
    · exact hsender

/-! ### A mint for another contract -/

def borrowedState : StateDB :=
  .new
    (fun a =>
      if a = 17 ∨ a = SystemContract.nonReservedNativeToken.address then
        some { nonce := 1, tokens := .list ∅, storage := fun _ => 0, code := [0], fullShardKey := 0 }
      else none)
    { gasLimit := 0, blockCoinbase := 0, timeStamp := 1, blockNumber := 0 }

/-- The system contract calls account `17`, whose code makes a delegate call to the mint precompile, for
`5` of token `7` to itself. -/
def borrowedEnv : Env where
  defaultChainTokenID := 0
  chainID := 0
  enableTime _ := 0
  bytecode _ := []
  timestamp _ := 0
  createAddress a _ _ := a
  createAddress2 a _ _ := a
  cryptoGas _ _ := 0
  crypto _ _ := none
  interp _ c _ :=
    if c.self = SystemContract.nonReservedNativeToken.address then
      .call 0 100000 17 0 [] fun _ _ => .stop []
    else
      .delegateCall 0 50000 mintMNTAddr (toBytes 32 17 ++ toBytes 32 7 ++ toBytes 32 5)
        fun _ _ => .stop []

def borrowedContext : Context where
  origin := 9
  gasPrice := 0
  gasPriceInGasToken := 0
  coinbase := 0
  blockNumber := 0
  time := 1
  toFullShardKey := none
  gasTokenID := 0
  transferTokenID := 0

def borrowedRun : Exec CallResult :=
  (Vm.ops borrowedEnv borrowedContext 4).call ⟨0, false, 0⟩ 9
    SystemContract.nonReservedNativeToken.address [] 200000 0 { db := borrowedState }

/-- **Another contract obtains a mint:** the frame of account `17` issues the call that credits it. -/
theorem borrowed_mint :
    (borrowedState.getBalance 17 7).1 = 0 ∧
      (17 : Recipient) ≠ SystemContract.nonReservedNativeToken.address ∧
      ∃ r, borrowedRun = .ok r ∧ r.err = none ∧ (r.world.db.getBalance 17 7).1 = 5 ∧
        r.world.minted 7 = 5 := by
  refine ⟨rfl, by decide, exists_ok_of_test ?_⟩
  decide +kernel

/-! ### Token words

All three native-token precompiles read a token from the second word of their input.  `transferMnt` compares
the word with the largest token id; `mintMNT` and `balanceMNT` compare its low 64 bits, and use those. -/

section

variable (env : Env) (input : List UInt8)

/-- The precompiles refuse the token word.  `mintMNT` asks for an amount first, `transferMnt` for three words
and a call that may write. -/
structure RefusesToken : Prop where
  balance : ∀ c w, balanceMNT c input w = .fail c w .tokenIDTooLarge
  mint : getWord input 64 ≠ 0 → ∀ c w, mintMNT env c input w = .fail c w .tokenIDTooLarge
  transfer : 96 ≤ input.length → ∀ scope c w, c.isStaticCall = false →
    startTransferMnt env scope c input w = .done (.abort c w .tokenIDTooLarge)

/-- The precompiles take the token word for the token `t`: they answer with its balance, credit it, or call
with it as the token of the value. -/
structure TakesToken (t : TokenID) : Prop where
  balance : ∀ c w, balanceMNT c input w =
    .return c { w with db := (w.db.getBalance (toAddress (getWord input 0)) t).2 }
      (toBytes 32 (w.db.getBalance (toAddress (getWord input 0)) t).1)
  mint : ∀ c w, (mintMNT env c input w).err ≠ some .tokenIDTooLarge ∧
    ((mintMNT env c input w).err = none → (mintMNT env c input w).world.db =
      (w.db.exist (toAddress (getWord input 0))).2.addBalance (toAddress (getWord input 0))
        (getWord input 64) t)
  transfer : ∀ scope c w,
    startTransferMnt env scope c input w ≠ .done (.abort c w .tokenIDTooLarge) ∧
    ∀ q finish, startTransferMnt env scope c input w = .spawn q finish → q.scope.transferTokenID = t

end

variable {env : Env} {input : List UInt8}

theorem refusesToken (h : tokenIDMax < getWord input 32 % 2 ^ 64) : RefusesToken env input where
  balance c w := by rw [balanceMNT, if_pos h]
  mint h0 c w := by
    have hrej : mintRejected env input = some .tokenIDTooLarge := by
      rw [mintRejected, if_neg h0, if_pos h]
    rw [mintMNT, hrej]
  transfer hlen scope c w hstatic := by
    have hbig : tokenIDMax < getWord input 32 := h.trans_le (Nat.mod_le _ _)
    unfold startTransferMnt
    rw [if_neg (by omega), if_neg (by simp [hstatic]), if_pos hbig]

theorem takesToken (h : getWord input 32 ≤ tokenIDMax) : TakesToken env input (getWord input 32) := by
  have hlow : getWord input 32 % 2 ^ 64 = getWord input 32 :=
    Nat.mod_eq_of_lt (h.trans_lt (by decide))
  refine ⟨fun c w => ?_, fun c w => ⟨?_, fun herr => ?_⟩, fun scope c w => ?_⟩
  · rw [balanceMNT]
    simp only [hlow, if_neg (Nat.not_lt.mpr h)]
  · have hrej : mintRejected env input ≠ some .tokenIDTooLarge := by
      unfold mintRejected
      simp only [hlow, if_neg (Nat.not_lt.mpr h)]
      split_ifs <;> simp
    unfold mintMNT
    split
    · exact absurd ‹_› hrej
    · rename_i hne _
      exact fun herr => hne (Option.some.inj herr)
    · dsimp only
      split_ifs <;> exact nofun
  · obtain ⟨hne, -⟩ | ⟨-, -, -, hworld⟩ := mintMNT_cases env c input w
    · exact absurd herr hne
    · rw [hworld, hlow]
      rfl
  · unfold startTransferMnt
    dsimp only
    generalize (if 0 < getWord input 64 then w.db.exist (toAddress (getWord input 0))
      else (true, w.db)) = looked
    generalize (if 0 < getWord input 64 then 9000 else 0) = cost
    simp only [if_neg (Nat.not_lt.mpr h)]
    split_ifs
    all_goals refine ⟨fun heq => ?_, fun q finish heq => ?_⟩ <;> cases heq
    all_goals rfl

/-- **Token words.**  The precompiles all refuse the token word, or all take it for the same token, exactly if
low 64 bits that are a token id are the whole word; and nothing mints the default token. -/
theorem token_words_agree_iff (env : Env) (input : List UInt8) :
    ((RefusesToken env input ∨
        getWord input 32 ≤ tokenIDMax ∧ TakesToken env input (getWord input 32)) ↔
      (getWord input 32 % 2 ^ 64 ≤ tokenIDMax → getWord input 32 < 2 ^ 64)) ∧
    ∀ c w, (mintMNT env c input w).err = none → ∃ t, t ≠ env.defaultChainTokenID ∧
      (mintMNT env c input w).world.db = (w.db.exist (toAddress (getWord input 0))).2.addBalance
        (toAddress (getWord input 0)) (getWord input 64) t := by
  refine ⟨⟨?_, fun h => ?_⟩, fun c w herr => ?_⟩
  · rintro (hr | ⟨hle, -⟩) hlow
    · have := hr.balance ⟨0, 0, 0, [], 0, 0, 0, false, false⟩ { db := borrowedState }
      rw [balanceMNT] at this
      simp only [if_neg (Nat.not_lt.mpr hlow)] at this
      cases congrArg RunResult.err this
    · exact hle.trans_lt (by decide)
  · rcases Nat.lt_or_ge tokenIDMax (getWord input 32 % 2 ^ 64) with hbig | hlow
    · exact .inl (refusesToken hbig)
    · rw [Nat.mod_eq_of_lt (h hlow)] at hlow
      exact .inr ⟨hlow, takesToken hlow⟩
  · obtain ⟨hne, -⟩ | ⟨-, hrej, -, hworld⟩ := mintMNT_cases env c input w
    · exact absurd herr hne
    · refine ⟨_, fun hdefault => ?_, congrArg World.db hworld⟩
      simp only [mintRejected, hdefault] at hrej
      split_ifs at hrej

def highWordInput : List UInt8 := toBytes 32 0 ++ toBytes 32 (2 ^ 64 + 7) ++ toBytes 32 1

/-- **A word that only one precompile refuses:** the balance is answered, the transfer is not made. -/
theorem high_word_disagrees :
    let c : Contract := ⟨0, 0, 0, [], 0, 0, 0, false, false⟩
    getWord highWordInput 32 = 2 ^ 64 + 7 ∧
      (balanceMNT c highWordInput { db := borrowedState }).err = none ∧
      startTransferMnt borrowedEnv ⟨0, false, 0⟩ c highWordInput { db := borrowedState } =
        .done (.abort c { db := borrowedState } .tokenIDTooLarge) := by
  refine ⟨by decide +kernel, by decide +kernel, ?_⟩
  unfold startTransferMnt
  rw [if_neg (by decide +kernel), if_neg (by decide), if_pos (by decide +kernel)]

end QuarkChain.Vm
