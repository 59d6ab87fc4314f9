/-
# Rolling a logged state back

A state carries a log of how to undo what was done to it; `pop` undoes the newest entry and `popTo`
undoes down to a length the log had before.  Undoing need not give back the very same state, only
one that a relation `R` cannot tell from it.

A client proves that each of its operations is `Logged` (popping what it logged gives back the state before, up
to `R`) and that `R` is `Compatible` with popping; then `Undoes` is an invariant of every run, rollbacks to
later points included.
-/
import Mathlib.Data.List.Basic

namespace QuarkChain.Rollback

universe u

variable {σ : Type u}

/-- A state with a log: its length, and the undoing of its newest entry (which may fail). -/
structure Log (σ : Type u) where
  len : σ → ℕ
  pop : σ → Option σ
  len_pop : ∀ {s s'}, pop s = some s' → len s = len s' + 1

namespace Log

variable (L : Log σ)

def popN : ℕ → σ → Option σ
  | 0, s => some s
  | k + 1, s => (L.pop s).bind (popN k)

def popTo (n : ℕ) (s : σ) : Option σ := L.popN (L.len s - n) s

variable {L} {s s' u : σ} {k m n : ℕ}

theorem popN_add : L.popN (k + n) s = (L.popN k s).bind (L.popN n) := by
  induction k generalizing s with
  | zero => simp [popN]
  | succ k ih =>
    rw [Nat.add_right_comm]
    simp only [popN]
    cases L.pop s with
    | none => rfl
    | some s₁ => exact ih

theorem len_popN (h : L.popN k s = some s') : L.len s = L.len s' + k := by
  induction k generalizing s with
  | zero =>
    cases h
    rfl
  | succ k ih =>
    obtain ⟨s₁, hp, hk⟩ := Option.bind_eq_some_iff.mp h
    have h₁ := L.len_pop hp
    have h₂ := ih hk
    omega

theorem len_popTo (hn : n ≤ L.len s) (h : L.popTo n s = some s') : L.len s' = n := by
  have := len_popN h
  omega

@[simp] theorem popTo_len : L.popTo (L.len s) s = some s := by
  simp [popTo, popN]

theorem popTo_popTo (hnm : n ≤ m) (hm : m ≤ L.len s) (h : L.popTo m s = some u) :
    L.popTo n s = L.popTo n u := by
  have hlen := len_popTo hm h
  have hsplit : L.len s - n = (L.len s - m) + (L.len u - n) := by omega
  unfold popTo at h ⊢
  rw [hsplit, popN_add, h]
  rfl

end Log

variable {L : Log σ} {R : σ → σ → Prop} {s s' s₀ u : σ} {m n : ℕ}

/-- `R` is a preorder that popping respects. -/
structure Compatible (L : Log σ) (R : σ → σ → Prop) : Prop where
  refl : ∀ s, R s s
  trans : ∀ {s t u}, R s t → R t u → R s u
  len : ∀ {s t}, R s t → L.len s = L.len t
  pop : ∀ {s t t'}, R s t → L.pop t = some t' → ∃ s', L.pop s = some s' ∧ R s' t'

theorem Compatible.popN (hR : Compatible L R) {k : ℕ} {t t' : σ} (h : R s t)
    (ht : L.popN k t = some t') : ∃ s', L.popN k s = some s' ∧ R s' t' := by
  induction k generalizing s t with
  | zero =>
    cases ht
    exact ⟨s, rfl, h⟩
  | succ k ih =>
    obtain ⟨t₁, hp, hk⟩ := Option.bind_eq_some_iff.mp ht
    obtain ⟨s₁, hs₁, hR₁⟩ := hR.pop h hp
    obtain ⟨s₂, hs₂, hR₂⟩ := ih hR₁ hk
    refine ⟨s₂, ?_, hR₂⟩
    simp only [Log.popN, hs₁, Option.bind_some, hs₂]

theorem Compatible.popTo (hR : Compatible L R) {t t' : σ} (h : R s t)
    (ht : L.popTo n t = some t') : ∃ s', L.popTo n s = some s' ∧ R s' t' := by
  unfold Log.popTo at ht ⊢
  rw [hR.len h]
  exact hR.popN h ht

/-- Undoing `s` down to length `n` gives back `s₀`, up to `R`. -/
def Undoes (L : Log σ) (R : σ → σ → Prop) (n : ℕ) (s₀ s : σ) : Prop :=
  n ≤ L.len s ∧ ∃ u, L.popTo n s = some u ∧ R u s₀

/-- A step that logs what it does: popping what it logged gives back the state before. -/
def Logged (L : Log σ) (R : σ → σ → Prop) (s s' : σ) : Prop := Undoes L R (L.len s) s s'

theorem Undoes.start (hR : Compatible L R) : Undoes L R (L.len s) s s :=
  ⟨Nat.le_refl _, s, Log.popTo_len, hR.refl s⟩

theorem Undoes.logged (hR : Compatible L R) (h : Undoes L R n s₀ s) (hs : Logged L R s s') :
    Undoes L R n s₀ s' := by
  obtain ⟨hn, u, hu, hRu⟩ := h
  obtain ⟨hlen, v, hv, hRv⟩ := hs
  obtain ⟨w, hw, hRw⟩ := hR.popTo hRv hu
  refine ⟨by omega, w, ?_, hR.trans hRw hRu⟩
  rw [Log.popTo_popTo hn hlen hv, hw]

theorem Undoes.rollback (h : Undoes L R n s₀ s) (hnm : n ≤ m) (hm : m ≤ L.len s)
    (hs : L.popTo m s = some s') : Undoes L R n s₀ s' := by
  obtain ⟨-, u, hu, hRu⟩ := h
  refine ⟨by rw [Log.len_popTo hm hs]; exact hnm, u, ?_, hRu⟩
  rw [← Log.popTo_popTo hnm hm hs, hu]

theorem Undoes.congr (hR : Compatible L R) (h : Undoes L R n s₀ s) (hs : R s' s) : Undoes L R n s₀ s' := by
  obtain ⟨hn, u, hu, hRu⟩ := h
  obtain ⟨v, hv, hRv⟩ := hR.popTo hs hu
  exact ⟨by rw [hR.len hs]; exact hn, v, hv, hR.trans hRv hRu⟩

theorem Logged.trans (hR : Compatible L R) {s'' : σ} (h : Logged L R s s')
    (h' : Logged L R s' s'') : Logged L R s s'' :=
  Undoes.logged hR h h'

theorem Logged.of_rel (hR : Compatible L R) (h : R s' s) : Logged L R s s' :=
  (Undoes.start hR).congr hR h

end QuarkChain.Rollback
