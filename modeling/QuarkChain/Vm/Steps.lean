/-
# Everything a call tree does

Whatever code runs, a call tree changes the world only by a short list of steps: reading the state,
writing storage, nonces, code, logs and refunds, creating accounts, transfers, mints,
self-destruction, and going back to the snapshot of a frame.  A relation between worlds that all of these
respect (`Steps`) holds between the world before and after every call function (`Steps.exec`), and along
the way of control (`Steps.along`).

Some relations hold only as long as certain steps are not taken.  `Guards` says which, `Control.Allows` says that
control stands at a point where none of them is about to be taken, and the relation is told whether it was so
at every point of the run.
-/
import QuarkChain.State.View
import QuarkChain.Vm.Control

namespace QuarkChain.Vm

open QuarkChain.Types
open State
open Outcome

/-- Which steps a run may take: whether it writes and mints, which amounts it pays, and in which state which
account destroys itself. -/
structure Guards where
  write : Prop
  pay : ℕ → Prop
  mint : Prop
  destroy : World → Recipient → Prop

/-- Nothing is held back. -/
def Guards.all : Guards := ⟨True, fun _ => True, True, fun _ _ => True⟩

/-- The instructions that `enforceRestrictions` refuses in a read-only frame, other than calls and creations. -/
def Prog.writes : Prog → Bool
  | .sstore _ _ _ | .log _ _ _ _ | .selfdestruct _ => true
  | _ => false

/-- The frame runs the mint precompile, and the mint is made. -/
def Frame.Mints (env : Env) (f : Frame) : Prop :=
  f.runs env = some .mintMNT ∧
    (mintMNT env { f.contract with gas := f.contract.gas - requiredGas env .mintMNT f.input } f.input
      f.world).err = none

/-- The step that is taken from here is allowed. -/
def Control.Allows (env : Env) (ctx : Context) (g : Guards) : Control → Prop
  | .request (.call _ _ _ _ _ value _) => g.pay value
  | .request (.create _ _ _ _ value _ _) => g.write ∧ g.pay value
  | .request _ => True
  | .frame f => f.Mints env → g.mint
  | .loop scope p c w => (p.writes = true → scope.readOnly = false → g.write) ∧
      match next env ctx scope p c w with
      | .destroy c _ w => g.destroy w c.self
      | _ => True

/-- The relation `R` respects every step of a call tree.  It is told `P`, which holds if the steps that are
taken are allowed. -/
structure Steps (env : Env) (g : Guards) (R : Prop → World → World → Prop) : Prop where
  refl : ∀ {P} w, R P w w
  trans : ∀ {P w w' w''}, R P w w' → R P w' w'' → R P w w''
  mono : ∀ {P Q : Prop} {w w'}, (Q → P) → R P w w' → R Q w w'
  load : ∀ {P} w a, R P w { w with db := (w.db.getStateObject a).2 }
  getBalance : ∀ {P} w a tokenID, R P w { w with db := (w.db.getBalance a tokenID).2 }
  getNonce : ∀ {P} w a, R P w { w with db := (w.db.getNonce a).2 }
  setNonce : ∀ w a nonce, R g.write w { w with db := w.db.setNonce a nonce }
  setCode : ∀ w a code, R g.write w { w with db := w.db.setCode a code }
  setState : ∀ w a key value, R g.write w { w with db := w.db.setState a key value }
  addRefund : ∀ w gas, R g.write w { w with db := w.db.addRefund gas }
  addLog : ∀ w log, R g.write w { w with db := w.db.addLog log }
  createAccount : ∀ w a, R (g.write ∨ w.db.live a = none) w { w with db := w.db.createAccount a }
  touch : ∀ {P} w a, R P w { w with db := w.db.addBalance a 0 env.defaultChainTokenID }
  transfer : ∀ {w w' sender recipient amount tokenID},
    transfer w sender recipient amount tokenID = .ok w' → R (g.pay amount) w w'
  mint : ∀ w a amount tokenID, R g.mint w (w.mint a amount tokenID)
  selfdestruct : ∀ w self beneficiary, R (g.write ∧ g.destroy w self) w (opSuicide env w self beneficiary)
  mark : ∀ {P} w, R P w w.marked
  revert : ∀ {P w w' w''}, R P w.marked w' → w'.revertTo w.mark = .ok w'' → R P w w''

section

variable (env : Env) (g : Guards) (R : Prop → World → World → Prop) (P : Prop) (w : World)

def Next.Keeps : Next → Prop
  | .done r => R P w r.world
  | .goto _ _ w' => R P w w'
  | .spawn q resume => R P w q.world ∧ ∀ r, (resume r).2.2 = r.world
  | .destroy c beneficiary w' => R P w (opSuicide env w' c.self beneficiary)

def Start.Keeps : Start → Prop
  | .done r => R P w r.world
  | .loop _ _ _ w' => R P w w'
  | .spawn q finish => R P w q.world ∧ ∀ r, (finish r).world = r.world

/-- What `R` says about a frame: the snapshot was taken in `w`, and the frame goes back to it or not. -/
structure Frame.Keeps (f : Frame) : Prop where
  world : R P w.marked f.world
  finish_eq : f.finish = Vm.finish env f.scope w.mark ∨
    (P → g.write) ∧ f.finish = finishCreate env f.scope w.mark f.contract.self

/-- What `R` says about a call function that is entered at `w`: the frame's snapshot is taken in a world
that is related to `w`. -/
def EntryKeeps : CallResult ⊕ Frame → Prop
  | .inl r => R P w r.world
  | .inr f => ∃ w₁, R P w w₁ ∧ f.Keeps env g R P w₁

end

variable {env : Env} {ctx : Context} {g : Guards} {R : Prop → World → World → Prop} {P : Prop} {scope : Scope}
  {c : Contract} {input : List UInt8} {w w' : World}

theorem systemContract_eq_none_iff (input : List UInt8) :
    (¬4 ≤ systemContractIndex input ∧ systemContract (systemContractIndex input) = none) ↔
      2 ^ 63 ≤ getWord input 0 % 2 ^ 64 := by
  have hlt : getWord input 0 % 2 ^ 64 < 2 ^ 64 := Nat.mod_lt _ (by decide)
  unfold systemContractIndex systemContract
  dsimp only
  generalize getWord input 0 % 2 ^ 64 = index at hlt ⊢
  constructor
  · rintro ⟨h4, hnone⟩
    split_ifs at h4 hnone <;> omega
  · intro hbig
    split_ifs <;> first | omega | exact ⟨by omega, rfl⟩

theorem mintMNT_cases (env : Env) (c : Contract) (input : List UInt8) (w : World) :
    ((mintMNT env c input w).err ≠ none ∧ ((mintMNT env c input w).world = w ∨
          (mintMNT env c input w).world =
            { w with db := (w.db.exist (toAddress (getWord input 0))).2 })) ∨
      (c.callerAddress = SystemContract.nonReservedNativeToken.address ∧
        mintRejected env input = none ∧ (mintMNT env c input w).err = none ∧
        (mintMNT env c input w).world =
          World.mint { w with db := (w.db.exist (toAddress (getWord input 0))).2 }
            (toAddress (getWord input 0)) (getWord input 64) (getWord input 32 % 2 ^ 64)) := by
  unfold mintMNT
  dsimp only
  cases hrej : mintRejected env input with
  | some err =>
    left
    cases err <;> exact ⟨Option.some_ne_none _, .inl rfl⟩
  | none =>
    dsimp only
    generalize (if (w.db.exist (toAddress (getWord input 0))).1 = true then 0 else 25000) = cost
    split_ifs with hgas hsender
    · exact .inl ⟨Option.some_ne_none _, .inr rfl⟩
    · exact .inl ⟨Option.some_ne_none _, .inr rfl⟩
    · exact .inr ⟨not_not.mp hsender, rfl, rfl, rfl⟩

namespace Steps

/-- The assertions that `R` makes: every point of a frame is related to its beginning. -/
def assertions (env : Env) (g : Guards) (R : Prop → World → World → Prop) (P : Prop) : Assertions where
  pre _ _ := True
  frame _ q f := ∃ w₁, R P q.world w₁ ∧ f.Keeps env g R P w₁
  loop _ _ f _ _ w := R P f.world w
  done _ f r := R P f.world r.world
  post q r := R P q.world r.world
  stop _ := True

variable (hR : Steps env g R)
include hR

theorem gasSuicide (hP : P → g.write) (self beneficiary : Recipient) :
    R P w { w with db := (Vm.gasSuicide env w.db self beneficiary).2 } := by
  unfold Vm.gasSuicide
  have hempty : R P w { w with db := (w.db.empty beneficiary).2 } := hR.load w beneficiary
  generalize w.db.empty beneficiary = read at hempty ⊢
  obtain ⟨empty, db⟩ := read
  dsimp only at hempty ⊢
  have hbalance : R P w
      { w with db := (if empty = true then db.getBalance self env.defaultChainTokenID
        else (0, db)).2 } := by
    split_ifs
    · exact hR.trans hempty (hR.getBalance { w with db } self _)
    · exact hempty
  generalize (if empty = true then db.getBalance self env.defaultChainTokenID else (0, db)) = held
    at hbalance ⊢
  obtain ⟨balance, db'⟩ := held
  dsimp only at hbalance ⊢
  have hsuicided : R P w { w with db := (db'.hasSuicided self).2 } :=
    hR.trans hbalance (hR.load { w with db := db' } self)
  split_ifs
  · exact hsuicided
  · exact hR.trans hsuicided (hR.mono hP (hR.addRefund { w with db := (db'.hasSuicided self).2 } _))

/-- **One instruction keeps to `R`.** -/
theorem next {p : Prog} (hP : P → (Control.loop scope p c w).Allows env ctx g) :
    (Vm.next env ctx scope p c w).Keeps env R P w := by
  cases p with
  | stop | revert | fault | gas => exact hR.refl w
  | useGas => exact charged_elim (hR.refl w) fun _ _ => hR.refl w
  | balance cost addr => exact charged_elim (hR.refl w) fun _ _ => hR.getBalance w addr _
  | extCode cost addr => exact charged_elim (hR.refl w) fun _ _ => hR.load w addr
  | sload => exact charged_elim (hR.refl w) fun _ _ => hR.load w _
  | extCodeHash cost addr k =>
    refine charged_elim (hR.refl w) fun c₁ _ => ?_
    have hempty : R P w { w with db := (w.db.empty addr).2 } := hR.load w addr
    dsimp only
    split_ifs
    · exact hempty
    · exact hR.trans hempty (hR.load _ addr)
  | sstore key value k =>
    unfold Vm.next
    dsimp only
    by_cases hro : scope.readOnly = true
    · rw [if_pos hro]
      exact hR.refl w
    rw [if_neg hro]
    have hwrite : P → g.write := fun hp => (hP hp).1 rfl (Bool.eq_false_iff.mpr hro)
    have hread : R P w { w with db := (w.db.getState c.self key).2 } := hR.load w c.self
    generalize w.db.getState c.self key = read at hread ⊢
    obtain ⟨current, db⟩ := read
    dsimp only at hread ⊢
    have hrefund : R P w
        { w with
          db := if (gasSStore current value).2 = 0 then db
            else db.addRefund (gasSStore current value).2 } := by
      split_ifs
      · exact hread
      · exact hR.trans hread (hR.mono hwrite (hR.addRefund { w with db } _))
    exact charged_elim hrefund fun c₁ _ => hR.trans hrefund (hR.mono hwrite (hR.setState _ _ key value))
  | log =>
    unfold Vm.next
    dsimp only
    split_ifs with hro
    · exact hR.refl w
    · have hwrite : P → g.write := fun hp => (hP hp).1 rfl (Bool.eq_false_iff.mpr hro)
      exact charged_elim (hR.refl w) fun _ _ => hR.mono hwrite (hR.addLog w _)
  | create =>
    unfold Vm.next
    dsimp only
    split_ifs
    · exact hR.refl w
    · exact charged_elim (hR.refl w) fun c₁ _ => ⟨hR.getNonce w c₁.self, fun _ => rfl⟩
  | create2 =>
    unfold Vm.next
    dsimp only
    split_ifs
    · exact hR.refl w
    · exact charged_elim (hR.refl w) fun _ _ => ⟨hR.refl w, fun _ => rfl⟩
  | call cost gas addr value input k =>
    unfold Vm.next
    dsimp only
    have hread : R P w { w with db := (if value ≠ 0 then w.db.empty addr else (false, w.db)).2 } := by
      split_ifs
      · exact hR.load w addr
      · exact hR.refl w
    by_cases hro : scope.readOnly = true ∧ value ≠ 0
    · rw [if_pos hro]
      exact hR.refl w
    rw [if_neg hro]
    exact chargedCall_elim hread fun c₁ passed _ => ⟨hread, fun _ => rfl⟩
  | callCode | delegateCall | staticCall =>
    exact chargedCall_elim (hR.refl w) fun _ _ _ => ⟨hR.refl w, fun _ => rfl⟩
  | selfdestruct beneficiary =>
    unfold Control.Allows Vm.next charged at hP
    unfold Vm.next charged
    dsimp only at hP ⊢
    by_cases hro : scope.readOnly = true
    · rw [if_pos hro]
      exact hR.refl w
    rw [if_neg hro] at hP ⊢
    have hwrite : P → g.write := fun hp => (hP hp).1 rfl (Bool.eq_false_iff.mpr hro)
    have hgas := hR.gasSuicide (w := w) hwrite c.self beneficiary
    cases huse : c.useGas (Vm.gasSuicide env w.db c.self beneficiary).1 with
    | none => exact hgas
    | some c₁ =>
      rw [huse] at hP
      exact hR.trans hgas (hR.mono (fun hp => ⟨hwrite hp, (hP hp).2⟩) (hR.selfdestruct _ _ _))

theorem startTransferMnt : (Vm.startTransferMnt env scope c input w).Keeps R P w := by
  have hexist : R P w
      { w with db := (if 0 < getWord input 64 then w.db.exist (toAddress (getWord input 0))
        else (true, w.db)).2 } := by
    split_ifs
    · exact hR.load w _
    · exact hR.refl w
  unfold Vm.startTransferMnt
  dsimp only
  generalize (if 0 < getWord input 64 then w.db.exist (toAddress (getWord input 0))
    else (true, w.db)) = looked at hexist ⊢
  obtain ⟨exist, db⟩ := looked
  dsimp only at hexist ⊢
  generalize ((if 0 < getWord input 64 then 9000 else 0) + if exist = true then 0 else 25000) = gasCost
  generalize (if 0 < getWord input 64 then 2300 else 0) = stipend
  have hread : R P w { w with db := (db.getBalance c.callerAddress (getWord input 32)).2 } :=
    hR.trans hexist (hR.getBalance { w with db } _ _)
  split_ifs
  iterate 4 exact hR.refl w
  · exact hexist
  · exact hread
  · exact ⟨hread, fun _ => rfl⟩

theorem startDeploySystemContract :
    Post (Vm.startDeploySystemContract env ctx scope c input w) (Start.Keeps R P w) fun _ => True := by
  unfold Vm.startDeploySystemContract
  split_ifs
  · exact hR.refl w
  rcases systemContract (systemContractIndex input) with _ | sc
  · exact trivial
  dsimp only
  cases deployable env ctx sc with
  | some err => exact hR.refl w
  | none =>
    refine ⟨hR.refl w, fun r => ?_⟩
    dsimp only
    cases r.err with
    | some err => rfl
    | none => rfl

theorem mintMNT (hP : P → (Vm.mintMNT env c input w).err = none → g.mint) :
    R P w (Vm.mintMNT env c input w).world := by
  have hexist : R P w { w with db := (w.db.exist (toAddress (getWord input 0))).2 } := hR.load w _
  obtain ⟨-, hworld | hworld⟩ | ⟨-, -, herr, hworld⟩ := mintMNT_cases env c input w
  · rw [hworld]
    exact hR.refl w
  · rw [hworld]
    exact hexist
  · rw [hworld]
    exact hR.trans hexist (hR.mono (fun hp => hP hp herr) (hR.mint _ _ _ _))

theorem startPrecompile {p : Precompile}
    (hP : P → p = .mintMNT → (Vm.mintMNT env c input w).err = none → g.mint) :
    Post (Vm.startPrecompile env ctx scope p c input w) (Start.Keeps R P w) fun _ => True := by
  cases p with
  | crypto i =>
    unfold Vm.startPrecompile
    dsimp only
    cases env.crypto i input with
    | some ret => exact hR.refl w
    | none => exact hR.refl w
  | currentMntID => exact hR.refl w
  | transferMnt => exact hR.startTransferMnt
  | deploySystemContract => exact hR.startDeploySystemContract
  | mintMNT => exact hR.mintMNT fun hp => hP hp rfl
  | balanceMNT =>
    show R P w (balanceMNT c input w).world
    unfold balanceMNT
    dsimp only
    split_ifs
    · exact hR.refl w
    · exact hR.getBalance w _ _

/-- **The start of a frame keeps to `R`.** -/
theorem start (f : Frame) (hP : P → f.Mints env → g.mint) :
    Post (Vm.start env ctx f.scope f.contract f.input f.readOnly f.world) (Start.Keeps R P f.world)
      fun _ => True := by
  unfold Frame.Mints Frame.runs at hP
  unfold Vm.start Vm.startPrecompiledContract
  dsimp only
  cases hp : precompiles f.contract.codeAddr with
  | none =>
    dsimp only
    split_ifs <;> exact hR.refl f.world
  | some p =>
    dsimp only
    split_ifs with htime hgas
    · exact hR.refl f.world
    · refine hR.startPrecompile fun h hmint herr => hP h ⟨?_, ?_⟩
      · subst hmint
        rw [hp, Option.filter_some, if_pos (decide_eq_true ⟨htime, Nat.le_of_not_lt hgas⟩)]
      · subst hmint
        exact herr
    all_goals exact hR.refl f.world

theorem lift_revert (h : R P w.marked w') :
    Post (w'.revertTo w.mark) (fun w'' => R P w w'') fun _ => True := by
  cases hback : w'.revertTo w.mark with
  | error e => exact trivial
  | ok w'' => exact hR.revert h hback

variable {x y : ℕ × Control} {code : List UInt8} {r : RunResult}

theorem finish (h : R P w.marked r.world) :
    Post (Vm.finish env scope w.mark r) (fun r => R P w r.world) fun _ => True := by
  unfold Vm.finish
  cases checkTokenIDQueried env r.err r.contract scope.transferTokenID with
  | none => exact hR.trans (hR.mark w) h
  | some err => exact (hR.lift_revert h).bind fun w'' hw'' => hw''

theorem finishCreate (hP : P → g.write) {address : Recipient} (h : R P w.marked r.world) :
    Post (Vm.finishCreate env scope w.mark address r) (fun r => R P w r.world) fun _ => True := by
  have hback := hR.lift_revert h
  unfold Vm.finishCreate
  dsimp only
  cases checkTokenIDQueried env r.err r.contract scope.transferTokenID with
  | none =>
    dsimp only
    split_ifs
    · exact hback.bind fun w'' hw'' => hw''
    · cases r.contract.useGas (r.ret.length * 200) with
      | none => exact hback.bind fun w'' hw'' => hw''
      | some c => exact hR.trans (hR.trans (hR.mark w) h) (hR.mono hP (hR.setCode r.world address r.ret))
  | some err => exact hback.bind fun w'' hw'' => hw''

/-! ### Call functions -/

variable {caller addr : Recipient} {gas value : ℕ}

theorem posw : R P w (transferFailureByPoswBalanceCheck env w caller value).2 := by
  unfold transferFailureByPoswBalanceCheck
  cases w.db.block.senderDisallowMap caller with
  | none => exact hR.refl w
  | some v => exact hR.getBalance w caller _

theorem entry_from {e : CallResult ⊕ Frame} (hw : R P w w') (h : EntryKeeps env g R P w' e) :
    EntryKeeps env g R P w e := by
  rcases e with r | f
  · exact hR.trans hw h
  obtain ⟨w₁, hw₁, hf⟩ := h
  exact ⟨w₁, hR.trans hw hw₁, hf⟩

theorem enterChecked {tokenID : TokenID} {k : World → Entry}
    (hk : ∀ w', Post (k w') (EntryKeeps env g R P w') fun _ => True) :
    Post (Vm.enterChecked env w caller gas value tokenID k) (EntryKeeps env g R P w) fun _ => True := by
  have hcan : R P w (canTransfer w caller value tokenID).2 := hR.getBalance w caller tokenID
  unfold Vm.enterChecked
  dsimp only
  split_ifs
  · exact hcan
  · exact hR.trans hcan hR.posw
  · exact (hk _).imp fun e he => hR.entry_from (hR.trans hcan hR.posw) he

theorem exist_create (w : World) (addr : Recipient) :
    R P w { w with db := if (w.db.exist addr).1 = true then (w.db.exist addr).2
      else (w.db.exist addr).2.createAccount addr } := by
  have hexist : R P w { w with db := (w.db.exist addr).2 } := hR.load w addr
  split_ifs with hex
  · exact hexist
  refine hR.trans hexist (hR.mono (fun _ => .inr ?_) (hR.createAccount { w with db := (w.db.exist addr).2 } addr))
  have hno : w.db.live addr = none := by
    rwa [StateDB.exist_fst, Bool.not_eq_true, Option.isSome_eq_false_iff, Option.isNone_iff_eq_none] at hex
  show (w.db.getStateObject addr).2.live addr = none
  rw [StateDB.getStateObject_of_live_eq_none hno]
  exact hno

theorem enterCall (hP : P → g.pay value) :
    Post (Vm.enterCall env scope caller addr input gas value w) (EntryKeeps env g R P w) fun _ => True := by
  unfold Vm.enterCall
  by_cases hdepth : callCreateDepth < scope.depth
  · rw [if_pos hdepth]
    exact hR.refl w
  rw [if_neg hdepth]
  refine hR.enterChecked fun w₁ => ?_
  have hcreate := hR.exist_create (P := P) w₁.marked addr
  dsimp only
  by_cases hskip : (!(w₁.marked.db.exist addr).1 && (precompiles addr).isNone && value == 0) = true
  · rw [if_pos hskip]
    exact hR.trans (hR.mark w₁) (hR.load w₁.marked addr)
  rw [if_neg hskip]
  generalize (if (w₁.marked.db.exist addr).1 = true then (w₁.marked.db.exist addr).2
    else (w₁.marked.db.exist addr).2.createAccount addr) = db at hcreate ⊢
  rcases htransfer : Vm.transfer { w₁ with db } caller addr value scope.transferTokenID with e | w₂
  · exact trivial
  have hmoved : R P w₁.marked w₂ := hR.trans hcreate (hR.mono hP (hR.transfer htransfer))
  exact ⟨w₁, hR.refl w₁, hR.trans hmoved (hR.load w₂ addr), .inl rfl⟩

theorem enterCallCode :
    Post (Vm.enterCallCode env scope caller addr input gas value w) (EntryKeeps env g R P w)
      fun _ => True := by
  unfold Vm.enterCallCode
  split_ifs
  · exact hR.refl w
  · exact hR.enterChecked fun w₁ =>
      ⟨w₁, hR.refl w₁, hR.load w₁.marked addr, .inl rfl⟩

theorem getCode_posw : R P w.marked
      (transferFailureByPoswBalanceCheck env { w with db := (w.marked.db.getCode addr).2 } caller
        value).2 :=
  hR.trans (hR.load w.marked addr) hR.posw

theorem enterDelegateCall {parent : Contract} :
    Post (Vm.enterDelegateCall env scope parent addr input gas w) (EntryKeeps env g R P w)
      fun _ => True := by
  unfold Vm.enterDelegateCall
  dsimp only
  split_ifs
  · exact hR.refl w
  · exact hR.trans (hR.mark w) hR.getCode_posw
  · exact ⟨w, hR.refl w, hR.getCode_posw, .inl rfl⟩

theorem enterStaticCall :
    Post (Vm.enterStaticCall env scope caller addr input gas w) (EntryKeeps env g R P w)
      fun _ => True := by
  unfold Vm.enterStaticCall
  dsimp only
  split_ifs
  · exact hR.refl w
  · exact hR.trans (hR.mark w) hR.getCode_posw
  · exact ⟨w, hR.refl w, hR.trans hR.getCode_posw (hR.touch _ addr), .inl rfl⟩

theorem takeNonce (hP : P → g.write) : R P w { w with db := Vm.takeNonce ctx w.db caller } := by
  unfold Vm.takeNonce
  split_ifs
  · exact hR.refl w
  · exact hR.trans (hR.getNonce w caller) (hR.mono hP (hR.setNonce _ caller _))

theorem enterCreateFrame {address : Recipient} (hP : P → g.write ∧ g.pay value) :
    Post (Vm.enterCreateFrame env scope caller code gas value address w) (EntryKeeps env g R P w)
      fun _ => True := by
  have hwrite : P → g.write := fun hp => (hP hp).1
  unfold Vm.enterCreateFrame
  have hset : R P w.marked { w with db := (w.marked.db.createAccount address).setNonce address 1 } :=
    hR.trans (hR.mono (fun hp => .inl (hwrite hp)) (hR.createAccount w.marked address))
      (hR.mono hwrite (hR.setNonce _ address 1))
  dsimp only
  generalize (w.marked.db.createAccount address).setNonce address 1 = db at hset ⊢
  rcases htransfer : Vm.transfer { w with db } caller address value scope.transferTokenID with e | w₁
  · exact trivial
  have hmoved : R P w.marked w₁ := hR.trans hset (hR.mono (fun hp => (hP hp).2) (hR.transfer htransfer))
  exact ⟨w, hR.refl w, hmoved, .inr ⟨hwrite, rfl⟩⟩

theorem enterCreate {address : Recipient} (hP : P → g.write ∧ g.pay value) :
    Post (Vm.enterCreate env ctx scope caller code gas value address w) (EntryKeeps env g R P w)
      fun _ => True := by
  have hcan : R P w (canTransfer w caller value scope.transferTokenID).2 := hR.getBalance w caller _
  unfold Vm.enterCreate
  generalize canTransfer w caller value scope.transferTokenID = read at hcan ⊢
  obtain ⟨can, w₁⟩ := read
  dsimp only at hcan ⊢
  have hnonce : R P w { w₁ with db := Vm.takeNonce ctx w₁.db caller } :=
    hR.trans hcan (hR.takeNonce fun hp => (hP hp).1)
  have hread : R P w
      { w₁ with db := (((Vm.takeNonce ctx w₁.db caller).getCode address).2.getNonce address).2 } :=
    hR.trans (hR.trans hnonce (hR.load _ address)) (hR.getNonce _ address)
  split_ifs
  · exact hR.refl w
  · exact hcan
  · exact hnonce
  · exact hread
  · exact hR.trans hread hR.posw
  · exact (hR.enterCreateFrame hP).imp fun e he => hR.entry_from (hR.trans hread hR.posw) he

/-- **Entering a call function keeps to `R`.** -/
theorem enter (q : Request) (hP : P → (Control.request q).Allows env ctx g) :
    Post (q.enter env ctx) (EntryKeeps env g R P q.world) fun _ => True := by
  cases q with
  | call => exact hR.enterCall hP
  | callCode => exact hR.enterCallCode
  | delegateCall => exact hR.enterDelegateCall
  | staticCall => exact hR.enterStaticCall
  | create => exact hR.enterCreate hP

/-- **Every call function keeps to `R`,** however deep the frames are nested. -/
theorem exec (n : ℕ) (q : Request) :
    Post (q.exec (ops env ctx n))
      (fun r => R (∀ y, Way env ctx (n, .request q) y → y.2.Allows env ctx g) q.world r.world)
      fun _ => True := by
  -- what is allowed at every point is allowed where a rule of the assertions asks for it
  generalize hP : (∀ y, Way env ctx (n, .request q) y → y.2.Allows env ctx g) = P
  have hallows : P → ∀ y, Way env ctx (n, .request q) y → y.2.Allows env ctx g := hP ▸ id
  refine (?_ : (assertions env g R P).Hold env ctx (n, .request q)).exec n q .refl trivial
  refine ⟨fun _ => trivial, fun {n q} hway _ => ?_, fun {n q f} hway hf => ?_,
    fun {n q f scope p c w} hway hw => ?_, fun {n q f r} hf hr => ?_⟩
  · refine (hR.enter q fun h => hallows h _ hway).imp fun e he => ?_
    cases e with
    | inl r => exact he
    | inr f => exact he
  · refine (hR.start f fun h => hallows h _ hway).imp fun s hs => ?_
    cases s with
    | done r => exact hs
    | loop scope p c w => exact hs
    | spawn q' finish =>
      refine ⟨trivial, fun r hr => ?_⟩
      show R P f.world (finish r).world
      rw [hs.2 r]
      exact hR.trans hs.1 hr
  · have hnext : (Vm.next env ctx scope p c w).Keeps env R P w := hR.next fun h => hallows h _ hway
    generalize Vm.next env ctx scope p c w = step at hnext ⊢
    cases step with
    | done r => exact hR.trans hw hnext
    | goto p' c' w' => exact hR.trans hw hnext
    | spawn q' resume =>
      refine ⟨trivial, fun r hr => ?_⟩
      show R P f.world (resume r).2.2
      rw [hnext.2 r]
      exact hR.trans (hR.trans hw hnext.1) hr
    | destroy c' beneficiary w' => exact hR.trans hw hnext
  · obtain ⟨w₁, hw₁, hf⟩ := hf
    have hend : R P w₁.marked r.world := hR.trans hf.world hr
    obtain hfin | ⟨hwrite, hfin⟩ := hf.finish_eq
    · rw [hfin]
      exact (hR.finish hend).imp fun _ hr' => hR.trans hw₁ hr'
    · rw [hfin]
      exact (hR.finishCreate hwrite hend).imp fun _ hr' => hR.trans hw₁ hr'

theorem passes (h : Passes env ctx x y) : R False x.2.world y.2.world := by
  cases h with
  | @enter n q f h =>
    obtain ⟨w₁, hw₁, hf⟩ := (hR.enter q False.elim).of_ok h
    exact hR.trans hw₁ (hR.trans (hR.mark w₁) hf.world)
  | interpret h => exact (hR.start _ False.elim).of_ok h
  | precompile h => exact ((hR.start _ False.elim).of_ok h).1
  | @goto n scope p p' c c' w w' h =>
    have hnext : (Vm.next env ctx scope p c w).Keeps env R False w := hR.next False.elim
    rw [h] at hnext
    exact hnext
  | @spawn n scope p c w q resume h =>
    have hnext : (Vm.next env ctx scope p c w).Keeps env R False w := hR.next False.elim
    rw [h] at hnext
    exact hnext.1
  | @resume n scope p c w q resume r h hr =>
    have hnext : (Vm.next env ctx scope p c w).Keeps env R False w := hR.next False.elim
    rw [h] at hnext
    show R False w (resume r).2.2
    rw [hnext.2 r]
    exact hR.trans hnext.1 (hR.mono False.elim ((hR.exec n q).of_ok hr))

/-- **Every point that control comes to is related to the first.** -/
theorem along (h : Way env ctx x y) : R False x.2.world y.2.world := by
  induction h with
  | refl => exact hR.refl _
  | tail _ hstep ih => exact hR.trans ih (hR.passes hstep)

end Steps
end QuarkChain.Vm
