/-
# The virtual machine as transactions see it

`vm.NewEVM` and its two entry points, `Call` and `Create` at depth zero.  A `Machine` is what the state
transition needs of the virtual machine; `machine` is the one built from the call functions of
`QuarkChain.Vm.Evm`.

Frames nest at most `callCreateDepth` deep, and between two levels of depth at most two precompiles call
on: `transferMnt` may call `deploySystemContract`, which creates a contract.  `Fits` turns this into the
number of layers that is always enough, so that `machine` never runs out of fuel.

Nor does it panic, except when `deploySystemContract` is run with an index whose low 64 bits are `2 ^ 63`
or more: as a signed integer that index is negative, passes the check against the length of the table, and
has no scope (`exec_post`).  A run comes to its end exactly if control comes to no such frame (`exec_ok_iff`).
-/
import QuarkChain.State.Ledger
import QuarkChain.Vm.Sound

namespace QuarkChain.Vm

open QuarkChain.Types
open State
open Outcome

/-- The virtual machine, as the state transition uses it. -/
structure Machine where
  call : Context → (caller addr : Recipient) → (input : List UInt8) → (gas value : ℕ) → World →
    Exec CallResult
  /-- `EVM.Create`; the address may be given. -/
  create : Context → (caller : Recipient) → (code : List UInt8) → (gas value : ℕ) →
    Option Recipient → World → Exec CallResult
  createAddress : Recipient → Option ℕ → ℕ → Recipient

/-- What an instruction does with the gas, and that it reports no insufficient balance. -/
def Next.Within (scope : Scope) (gas : ℕ) : Next → Prop
  | .done r => r.contract.gas ≤ gas ∧ r.err ≠ some .insufficientBalance
  | .goto _ c _ => c.gas ≤ gas
  | .spawn q resume => q.scope = scope ∧ ∀ r, r.leftOverGas ≤ q.gas → (resume r).2.1.gas ≤ gas
  | .destroy c _ _ => c.gas ≤ gas

section

variable {env : Env} {ctx : Context} {scope : Scope} {w : World} {c : Contract} {input : List UInt8}

theorem next_within (p : Prog) (c : Contract) (w : World) :
    (next env ctx scope p c w).Within scope c.gas := by
  cases p with
  | stop | revert | fault => exact ⟨Nat.le_refl _, nofun⟩
  | gas => exact Nat.le_refl c.gas
  | useGas | balance | extCode | sload =>
    refine charged_elim ⟨Nat.le_refl _, nofun⟩ fun c₁ hg => ?_
    show c₁.gas ≤ c.gas
    omega
  | extCodeHash =>
    refine charged_elim ⟨Nat.le_refl _, nofun⟩ fun c₁ hg => ?_
    dsimp only
    split_ifs
    all_goals
      show c₁.gas ≤ c.gas
      omega
  | sstore =>
    unfold next
    dsimp only
    by_cases hro : scope.readOnly = true
    · rw [if_pos hro]
      exact ⟨Nat.le_refl _, nofun⟩
    rw [if_neg hro]
    refine charged_elim ⟨Nat.le_refl _, nofun⟩ fun c₁ hg => ?_
    show c₁.gas ≤ c.gas
    omega
  | log | selfdestruct =>
    unfold next
    dsimp only
    split_ifs
    · exact ⟨Nat.le_refl _, nofun⟩
    · refine charged_elim ⟨Nat.le_refl _, nofun⟩ fun c₁ hg => ?_
      show c₁.gas ≤ c.gas
      omega
  | create | create2 =>
    unfold next
    dsimp only
    split_ifs
    · exact ⟨Nat.le_refl _, nofun⟩
    refine charged_elim ⟨Nat.le_refl _, nofun⟩ fun c₁ hg => ⟨rfl, fun r hr => ?_⟩
    have hr : r.leftOverGas ≤ c₁.gas - c₁.gas / 64 := hr
    show c₁.gas - (c₁.gas - c₁.gas / 64) + r.leftOverGas ≤ c.gas
    omega
  | call cost gas addr value =>
    unfold next
    dsimp only
    by_cases hro : scope.readOnly = true ∧ value ≠ 0
    · rw [if_pos hro]
      exact ⟨Nat.le_refl _, nofun⟩
    rw [if_neg hro]
    refine chargedCall_elim ⟨Nat.le_refl _, nofun⟩ fun c₁ passed hg => ⟨rfl, fun r hr => ?_⟩
    have hr : r.leftOverGas ≤ passed + if value ≠ 0 then 2300 else 0 := hr
    show c₁.gas + r.leftOverGas ≤ c.gas
    split_ifs at hg hr <;> omega
  | callCode cost gas addr value =>
    refine chargedCall_elim ⟨Nat.le_refl _, nofun⟩ fun c₁ passed hg => ⟨rfl, fun r hr => ?_⟩
    have hr : r.leftOverGas ≤ passed + if value ≠ 0 then 2300 else 0 := hr
    show c₁.gas + r.leftOverGas ≤ c.gas
    split_ifs at hg hr <;> omega
  | delegateCall | staticCall =>
    refine chargedCall_elim ⟨Nat.le_refl _, nofun⟩ fun c₁ passed hg => ⟨rfl, fun r hr => ?_⟩
    have hr : r.leftOverGas ≤ passed := hr
    show c₁.gas + r.leftOverGas ≤ c.gas
    omega

/-- Layers that are enough for every call at a depth. -/
def need (depth : ℕ) : ℕ := 3 * (callCreateDepth + 1 - depth) + 1

/-- The layers that precompiles add at one depth. -/
def tier (addr : Recipient) : ℕ :=
  if addr = transferMntAddr then 2 else if addr = deploySystemContractAddr then 1 else 0

/-- `fuel` layers are enough to run the code of `addr` at a depth. -/
def Fits (fuel depth : ℕ) (addr : Recipient) : Prop :=
  0 < fuel ∧ (depth ≤ callCreateDepth → need (depth + 1) + tier addr < fuel)

theorem tier_le (addr : Recipient) : tier addr ≤ 2 := by
  unfold tier
  split_ifs <;> omega

variable {addr : Recipient}

theorem tier_le_one (h : addr ≠ transferMntAddr) : tier addr ≤ 1 := by
  unfold tier
  rw [if_neg h]
  split_ifs <;> omega

theorem tier_systemContract (c : SystemContract) : tier c.address = 0 := by
  cases c <;> decide

theorem fits_of_need {fuel depth : ℕ} (h : need depth ≤ fuel) (addr : Recipient) : Fits fuel depth addr := by
  have htier := tier_le addr
  unfold need callCreateDepth at h
  constructor
  · omega
  · unfold need callCreateDepth
    intro hd
    omega

theorem precompiles_eq_transferMnt (h : precompiles addr = some .transferMnt) :
    addr = transferMntAddr := by
  unfold precompiles at h
  split_ifs at h with h₁ h₂ <;> first | exact h₂ | cases h

theorem precompiles_eq_deploy
    (h : precompiles addr = some .deploySystemContract) : addr = deploySystemContractAddr := by
  unfold precompiles at h
  split_ifs at h with h₁ h₂ h₃ <;> first | exact h₃ | cases h

/-! ### Frames -/

/-- Control comes from `x` to a frame that runs `deploySystemContract` with an index out of range. -/
def Strays (env : Env) (ctx : Context) (x : ℕ × Control) : Prop :=
  ∃ n f, Way env ctx x (n, .frame f) ∧ f.OutOfRange env

/-- What the start of a frame does with the gas, that it reports an insufficient balance only if it is asked
to spend for another, and that the precompiles that call on come one after the other. -/
def Start.Within (scope : Scope) (c : Contract) : Start → Prop
  | .done r => r.contract.gas ≤ c.gas ∧ r.err ≠ some .insufficientBalance
  | .loop scope' _ c' _ => scope'.depth = scope.depth + 1 ∧ c'.gas ≤ c.gas
  | .spawn q finish => q.scope.depth = scope.depth ∧ tier q.target < tier c.codeAddr ∧
      (c.callerAddress = c.caller → q.Funded) ∧
      ∀ r, r.leftOverGas ≤ q.gas → (finish r).contract.gas ≤ c.gas ∧
        (r.err ≠ some .insufficientBalance → (finish r).err ≠ some .insufficientBalance)

theorem startTransferMnt_within (hc : c.codeAddr = transferMntAddr) :
    (startTransferMnt env scope c input w).Within scope c := by
  unfold startTransferMnt
  dsimp only
  generalize (if 0 < getWord input 64 then w.db.exist (toAddress (getWord input 0))
    else (true, w.db)) = looked
  obtain ⟨exist, db⟩ := looked
  dsimp only
  generalize hcost : ((if 0 < getWord input 64 then 9000 else 0) + if exist = true then 0 else 25000)
    = gasCost
  have hstipend : (if 0 < getWord input 64 then 2300 else 0) ≤ gasCost := by
    rw [← hcost]
    split_ifs <;> omega
  generalize (if 0 < getWord input 64 then 2300 else 0) = stipend at hstipend ⊢
  have hbal : (db.getBalance c.callerAddress (getWord input 32)).1 ≤
      (db.getBalance c.callerAddress (getWord input 32)).2.balanceOf c.callerAddress
        (getWord input 32) :=
    Nat.le_trans StateDB.getBalance_fst_le_cachedOf StateDB.cachedOf_le_balanceOf
  generalize db.getBalance c.callerAddress (getWord input 32) = read at hbal ⊢
  obtain ⟨balance, db'⟩ := read
  dsimp only at hbal ⊢
  split_ifs with hlen hstatic hid hto hgas hfail
  iterate 5 exact ⟨Nat.zero_le _, nofun⟩
  · exact ⟨Nat.sub_le _ _, nofun⟩
  · rw [not_or, Nat.not_lt] at hfail
    refine ⟨rfl, ?_, fun heq => ?_, fun r hr => ⟨?_, checkTokenIDQueried_ne⟩⟩
    · have htier : tier c.codeAddr = 2 := by
        rw [hc]
        decide
      exact htier ▸ Nat.lt_succ_of_le (tier_le_one hto)
    · show getWord input 64 ≤ db'.balanceOf c.caller (getWord input 32)
      rw [← heq]
      exact Nat.le_trans hfail.1 hbal
    · have hr : r.leftOverGas ≤ c.gas - gasCost + stipend := hr
      show r.leftOverGas ≤ c.gas
      omega

theorem startDeploySystemContract_within (hc : c.codeAddr = deploySystemContractAddr) :
    Post (startDeploySystemContract env ctx scope c input w) (Start.Within scope c)
      fun e => e = .panic .systemContractScope ∧ 2 ^ 63 ≤ getWord input 0 % 2 ^ 64 := by
  unfold startDeploySystemContract
  split_ifs with h4
  · exact ⟨Nat.zero_le _, nofun⟩
  cases hsc : systemContract (systemContractIndex input) with
  | none => exact ⟨rfl, (systemContract_eq_none_iff input).mp ⟨h4, hsc⟩⟩
  | some sc =>
    dsimp only
    cases hdep : deployable env ctx sc with
    | some err =>
      refine ⟨Nat.zero_le _, fun heq => ?_⟩
      cases heq
      unfold deployable at hdep
      split_ifs at hdep <;> cases hdep
    | none =>
      refine ⟨rfl, ?_, fun _ => Nat.zero_le _, fun r hr => ?_⟩
      · have htier : tier c.codeAddr = 1 := by
          rw [hc]
          decide
        show tier sc.address < tier c.codeAddr
        rw [tier_systemContract, htier]
        exact Nat.one_pos
      · dsimp only
        cases r.err with
        | some err => exact ⟨Nat.zero_le _, id⟩
        | none => exact ⟨hr, nofun⟩

theorem mintMNT_within (scope : Scope) : (Start.done (mintMNT env c input w)).Within scope c := by
  have hne : mintRejected env input ≠ some .insufficientBalance := by
    unfold mintRejected
    dsimp only
    split_ifs <;> nofun
  unfold mintMNT
  dsimp only
  split
  · exact ⟨Nat.le_refl _, nofun⟩
  · rename_i err hrej
    exact ⟨Nat.zero_le _, fun heq => hne (hrej.trans heq)⟩
  · generalize (if (w.db.exist (toAddress (getWord input 0))).1 = true then 0 else 25000) = cost
    split_ifs
    · exact ⟨Nat.zero_le _, nofun⟩
    · exact ⟨Nat.zero_le _, nofun⟩
    · exact ⟨Nat.sub_le _ _, nofun⟩

theorem Start.Within.of_gas {s : Start} {gas : ℕ} (h : s.Within scope { c with gas }) (hle : gas ≤ c.gas) :
    s.Within scope c := by
  cases s with
  | done r => exact ⟨Nat.le_trans h.1 hle, h.2⟩
  | loop scope' p c' w' => exact ⟨h.1, Nat.le_trans h.2 hle⟩
  | spawn q finish =>
    refine ⟨h.1, h.2.1, h.2.2.1, fun r hr => ⟨?_, (h.2.2.2 r hr).2⟩⟩
    exact Nat.le_trans (h.2.2.2 r hr).1 hle

theorem startPrecompile_within {p : Precompile} (hp : precompiles c.codeAddr = some p) :
    Post (startPrecompile env ctx scope p c input w) (Start.Within scope c) fun e =>
      e = .panic .systemContractScope ∧ p = .deploySystemContract ∧ 2 ^ 63 ≤ getWord input 0 % 2 ^ 64 := by
  cases p with
  | crypto i =>
    unfold startPrecompile
    dsimp only
    cases env.crypto i input with
    | some ret => exact ⟨Nat.le_refl _, nofun⟩
    | none => exact ⟨Nat.le_refl _, nofun⟩
  | currentMntID => exact ⟨Nat.le_refl _, nofun⟩
  | transferMnt => exact startTransferMnt_within (precompiles_eq_transferMnt hp)
  | deploySystemContract =>
    exact (startDeploySystemContract_within (precompiles_eq_deploy hp)).mono (fun _ => id)
      fun e he => ⟨he.1, rfl, he.2⟩
  | mintMNT => exact mintMNT_within scope
  | balanceMNT =>
    show (Start.done (balanceMNT c input w)).Within scope c
    unfold balanceMNT
    dsimp only
    split_ifs
    · exact ⟨Nat.le_refl _, nofun⟩
    · exact ⟨Nat.le_refl _, nofun⟩

theorem start_within (f : Frame) :
    Post (start env ctx f.scope f.contract f.input f.readOnly f.world) (Start.Within f.scope f.contract)
      fun e => e = .panic .systemContractScope ∧ f.OutOfRange env := by
  unfold start startPrecompiledContract
  dsimp only
  cases hp : precompiles f.contract.codeAddr with
  | none =>
    dsimp only
    split_ifs
    · exact ⟨Nat.le_refl _, nofun⟩
    · exact ⟨rfl, Nat.le_refl _⟩
  | some p =>
    dsimp only
    split_ifs with htime hgas
    · exact ⟨Nat.le_refl _, nofun⟩
    · have hwithin : Post (startPrecompile env ctx f.scope p
          { f.contract with gas := f.contract.gas - requiredGas env p f.input } f.input f.world) _ _ :=
        startPrecompile_within hp
      refine hwithin.mono (fun s hs => Start.Within.of_gas (c := f.contract) hs (Nat.sub_le _ _)) ?_
      rintro e ⟨rfl, rfl, hbig⟩
      refine ⟨rfl, ?_, hbig⟩
      rw [Frame.runs, hp, Option.filter_some, if_pos (decide_eq_true ⟨htime, Nat.le_of_not_lt hgas⟩)]
    · exact ⟨Nat.le_refl _, nofun⟩
    · exact ⟨rfl, Nat.le_refl _⟩

/-- What is claimed at the cuts. -/
def soundness (env : Env) (ctx : Context) (root : ℕ × Control) : Assertions where
  pre n q := q.world.db.Consistent ∧ Fits n q.scope.depth q.target
  frame n q f := Fits (n + 1) q.scope.depth q.target ∧ f.For q ∧
    ∃ w₁, q.world.Above w₁ ∧ f.Keeps env .all Onwards False w₁
  loop n q f scope c w := need scope.depth ≤ n ∧ f.world.Above w ∧ c.gas ≤ q.gas
  done q f r := RunPost f.world q.gas q.Funded r
  post q r := CallPost q.world q.gas q.Funded r
  stop e := e = .panic .systemContractScope ∧ Strays env ctx root

/-- **Every call function behaves.** -/
theorem exec_post (n : ℕ) (q : Request) (h : q.world.db.Consistent) (hfits : Fits n q.scope.depth q.target) :
    Post (q.exec (ops env ctx n)) (CallPost q.world q.gas q.Funded)
      fun e => e = .panic .systemContractScope ∧ Strays env ctx (n, .request q) := by
  have habove : Steps env .all Onwards := steps_above env
  refine (?_ : (soundness env ctx (n, .request q)).Hold env ctx _).exec n q .refl ⟨h, hfits⟩
  refine ⟨fun hq => absurd hq.2.1 (Nat.lt_irrefl 0), fun {n q} _ hq => ?_, fun {n q f} hway hf => ?_,
    fun {n q f scope p c w} _ hloop => ?_, fun {n q f r} hf hr => ?_⟩
  · have hentry : Post (q.enter env ctx) (EntryFor q) _ := q.enter_for
    refine (hentry.and (habove.enter q False.elim)).mono ?_ fun _ h => h.1.elim
    rintro (r | f) ⟨hfor, hkeeps⟩
    · exact ⟨hkeeps hq.1, hfor.gas, hfor.err⟩
    · obtain ⟨w₁, hw₁, hf⟩ := hkeeps
      exact ⟨hq.2, hfor, w₁, hw₁ hq.1, hf⟩
  · obtain ⟨hfits, hfor, w₁, hw₁, hf⟩ := hf
    have hneed := hfits.2 hfor.depth
    have hcons := (hf.world (World.above_marked hw₁.consistent).consistent).consistent
    refine ((start_within f).and (habove.start f False.elim)).mono ?_ fun e he =>
      ⟨he.1.1, _, f, hway, he.1.2⟩
    rw [← hfor.codeAddr, ← hfor.scope] at hneed
    rintro (r | ⟨scope, p, c, w⟩ | ⟨q', finish⟩) ⟨hin, hkeeps⟩
    · exact ⟨hkeeps hcons, hfor.gas ▸ hin.1, fun _ => hin.2⟩
    · refine ⟨?_, hkeeps hcons, hfor.gas ▸ hin.2⟩
      rw [hin.1]
      omega
    · obtain ⟨hdepth, htier, hfunded, hfinish⟩ := hin
      have hpos : 0 < need (f.scope.depth + 1) := Nat.succ_pos _
      have hq' := hkeeps.1 hcons
      refine ⟨⟨hq'.consistent, by omega, fun _ => ?_⟩, fun r hr => ?_⟩
      · rw [hdepth]
        omega
      · obtain ⟨hgas, herr⟩ := hfinish r hr.gas
        refine ⟨?_, hfor.gas ▸ hgas, fun hq => herr (hr.err (hfunded (hfor.caller hq)))⟩
        show f.world.Above (finish r).world
        rw [hkeeps.2 r]
        exact hq'.trans hr.above
  · obtain ⟨hneed, hw, hgas⟩ := hloop
    have hin : (next env ctx scope p c w).Within scope c.gas := next_within p c w
    have hkeeps : (next env ctx scope p c w).Keeps env Onwards False w := habove.next False.elim
    generalize next env ctx scope p c w = step at hin hkeeps ⊢
    cases step with
    | done r =>
      exact ⟨hw.trans (hkeeps hw.consistent), Nat.le_trans hin.1 hgas, fun _ => hin.2⟩
    | goto p' c' w' => exact ⟨hneed, hw.trans (hkeeps hw.consistent), Nat.le_trans hin hgas⟩
    | spawn q' resume =>
      have hw' := hw.trans (hkeeps.1 hw.consistent)
      refine ⟨⟨hw'.consistent, fits_of_need (hin.1 ▸ hneed) _⟩, fun r hr => ⟨hneed, ?_, ?_⟩⟩
      · rw [hkeeps.2 r]
        exact hw'.trans hr.above
      · exact Nat.le_trans (hin.2 r hr.gas) hgas
    | destroy c' beneficiary w' =>
      exact ⟨hw.trans (hkeeps hw.consistent), Nat.le_trans hin hgas, nofun⟩
  · obtain ⟨-, -, w₁, hw₁, hf⟩ := hf
    have hmark := hf.world (World.above_marked hw₁.consistent).consistent
    have hend : RunPost w₁.marked q.gas q.Funded r := ⟨hmark.trans hr.above, hr.gas, hr.err⟩
    obtain hfin | ⟨-, hfin⟩ := hf.finish_eq
    · rw [hfin]
      exact (finish_post hw₁.consistent hend).imp fun _ hr' => hr'.from hw₁ id
    · rw [hfin]
      exact (finishCreate_post hw₁.consistent hend).imp fun _ hr' => hr'.from hw₁ id

end

def Context.scope (ctx : Context) : Scope :=
  { depth := 0, readOnly := false, transferTokenID := ctx.transferTokenID }

def machine (env : Env) : Machine where
  call ctx caller addr input gas value w :=
    (ops env ctx (need 0)).call ctx.scope caller addr input gas value w
  create ctx caller code gas value
    | some address, w => (ops env ctx (need 0)).create ctx.scope caller code gas value address w
    | none, w =>
        let (nonce, db) := w.db.getNonce caller
        (ops env ctx (need 0)).create ctx.scope caller code gas value
          (env.createAddress caller ctx.toFullShardKey nonce) { w with db }
  createAddress := env.createAddress

/-- What the state transition relies on. -/
structure Machine.Sound (m : Machine) (Bad : Stop → Prop) : Prop where
  call : ∀ ctx caller addr input gas value w, w.db.Consistent →
    Post (m.call ctx caller addr input gas value w)
      (CallPost w gas (value ≤ w.db.balanceOf caller ctx.transferTokenID)) Bad
  create : ∀ ctx caller code gas value address w, w.db.Consistent →
    Post (m.create ctx caller code gas value address w)
      (CallPost w gas (value ≤ w.db.balanceOf caller ctx.transferTokenID)) Bad

/-- The panic of an index out of range. -/
def Stop.OutOfRange (e : Stop) : Prop := e = .panic .systemContractScope

/-- **The machine is sound,** and it never runs out of fuel. -/
theorem sound_machine (env : Env) : (machine env).Sound Stop.OutOfRange where
  call ctx caller addr input gas value w h :=
    (exec_post _ (.call ctx.scope caller addr input gas value w) h (fits_of_need (Nat.le_refl _) addr)).mono
      (fun _ => id) fun _ => And.left
  create ctx caller code gas value address w h := by
    have hcreate : ∀ address (w' : World), w'.db.Consistent →
        Post ((ops env ctx (need 0)).create ctx.scope caller code gas value address w')
          (CallPost w' gas (value ≤ w'.db.balanceOf caller ctx.transferTokenID)) Stop.OutOfRange :=
      fun address w' h' => (exec_post _ (.create ctx.scope caller code gas value address w') h'
        (fits_of_need (Nat.le_refl _) address)).mono (fun _ => id) fun _ => And.left
    cases address with
    | some address => exact hcreate address w h
    | none =>
      have hstill : StateDB.Still w.db (w.db.getNonce caller).2 := (StateDB.still_getOrNewStateObject h).1
      have hread : w.Above { w with db := (w.db.getNonce caller).2 } := StateDB.above_getNonce h
      refine (hcreate _ _ hread.consistent).imp fun r hr => hr.from hread fun hf => ?_
      rw [hstill.balanceOf]
      exact hf

end QuarkChain.Vm
