/-
# Postconditions of computations that may stop

A computation ends with a value or stops with an error.  `Post x P Q`: the value satisfies `P`, or the
error satisfies `Q`.  The rules below follow how a computation is put together, so that a statement about a
long function is proved along its text.
-/
import Mathlib.Logic.Basic

namespace QuarkChain.Outcome

universe u v

variable {ε : Type u} {α β : Type v} {x : Except ε α} {f : α → Except ε β} {P P' : α → Prop}
  {R : β → Prop} {Q Q' : ε → Prop}

/-- The value of `x` satisfies `P`, or its error satisfies `Q`. -/
def Post (x : Except ε α) (P : α → Prop) (Q : ε → Prop) : Prop :=
  match x with
  | .ok a => P a
  | .error e => Q e

@[simp] theorem post_ok {a : α} : Post (.ok a : Except ε α) P Q ↔ P a := Iff.rfl

@[simp] theorem post_error {e : ε} : Post (.error e : Except ε α) P Q ↔ Q e := Iff.rfl

theorem Post.mono (h : Post x P Q) (hP : ∀ a, P a → P' a) (hQ : ∀ e, Q e → Q' e) : Post x P' Q' := by
  cases x with
  | ok a => exact hP a h
  | error e => exact hQ e h

theorem Post.imp (h : Post x P Q) (hP : ∀ a, P a → P' a) : Post x P' Q := h.mono hP fun _ => id

/-- **Sequencing.** -/
theorem Post.bind (h : Post x P Q) (hf : ∀ a, P a → Post (f a) R Q) : Post (x >>= f) R Q := by
  cases x with
  | ok a => exact hf a h
  | error e => exact h

/-- Sequencing, where what follows may use that `x` had this value. -/
theorem Post.bind_ok (h : Post x P Q) (hf : ∀ a, x = .ok a → P a → Post (f a) R Q) :
    Post (x >>= f) R Q := by
  cases x with
  | ok a => exact hf a rfl h
  | error e => exact h

theorem Post.and (h : Post x P Q) (h' : Post x P' Q') : Post x (fun a => P a ∧ P' a) fun e => Q e ∧ Q' e := by
  cases x with
  | ok a => exact ⟨h, h'⟩
  | error e => exact ⟨h, h'⟩

theorem Post.mapError {ε' : Type u} {g : ε → ε'} {Q : ε' → Prop} (h : Post x P fun e => Q (g e)) :
    Post (x.mapError g) P Q := by
  cases x with
  | ok a => exact h
  | error e => exact h

/-- **Loops.**  What every round keeps, the loop keeps. -/
theorem Post.foldlM {γ : Type v} {l : List γ} {g : α → γ → Except ε α} {a : α} (ha : P a)
    (hg : ∀ b, ∀ c ∈ l, P b → Post (g b c) P Q) : Post (l.foldlM g a) P Q := by
  induction l generalizing a with
  | nil => exact ha
  | cons c l ih =>
    rw [List.foldlM_cons]
    exact (hg a c List.mem_cons_self ha).bind fun b hb =>
      ih hb fun b' c' hc' => hg b' c' (List.mem_cons_of_mem c hc')

theorem Post.forM {γ : Type v} {l : List γ} {c : γ → Except ε PUnit}
    (hc : ∀ a ∈ l, Post (c a) (fun _ => True) Q) : Post (l.forM c) (fun _ => True) Q := by
  induction l with
  | nil => trivial
  | cons a l ih =>
    rw [List.forM]
    exact (hc a List.mem_cons_self).bind fun _ _ =>
      ih fun b hb => hc b (List.mem_cons_of_mem a hb)

theorem Post.of_ok (h : Post x P Q) {a : α} (ha : x = .ok a) : P a := by
  subst ha
  exact h

theorem Post.of_error (h : Post x P Q) {e : ε} (he : x = .error e) : Q e := by
  subst he
  exact h

theorem bind_eq_ok {b : β} : (x >>= f) = .ok b ↔ ∃ a, x = .ok a ∧ f a = .ok b := by
  cases x <;> simp [bind, Except.bind]

theorem map_eq_ok {g : α → β} {b : β} : x.map g = .ok b ↔ ∃ a, x = .ok a ∧ g a = b := by
  cases x <;> simp [Except.map]

@[simp] theorem mapError_ok {ε' : Type u} {g : ε → ε'} {a : α} : (.ok a : Except ε α).mapError g = .ok a := rfl

@[simp] theorem mapError_error {ε' : Type u} {g : ε → ε'} {e : ε} :
    (.error e : Except ε α).mapError g = .error (g e) := rfl

theorem mapError_eq_ok {ε' : Type u} {g : ε → ε'} {a : α} : x.mapError g = .ok a ↔ x = .ok a := by
  cases x <;> simp

theorem forM_eq_ok {γ : Type v} {l : List γ} {c : γ → Except ε PUnit} :
    l.forM c = .ok ⟨⟩ ↔ ∀ a ∈ l, c a = .ok ⟨⟩ := by
  induction l with
  | nil => simp [List.forM, pure, Except.pure]
  | cons a l ih =>
    rw [List.forM, bind_eq_ok, List.forall_mem_cons, ← ih]
    exact ⟨fun ⟨_, ha, hl⟩ => ⟨ha, hl⟩, fun ⟨ha, hl⟩ => ⟨⟨⟩, ha, hl⟩⟩

variable {C : Prop}

/-- Two computations end with values related by `S`, or with the same error. -/
def Matched {γ : Type v} (S : α → γ → Prop) : Except ε α → Except ε γ → Prop
  | .ok a, .ok c => S a c
  | .error e, .error e' => e = e'
  | _, _ => False

theorem Matched.cases {γ : Type v} {S : α → γ → Prop} {y : Except ε γ} (h : Matched S x y) :
    (∃ e, x = .error e ∧ y = .error e) ∨ ∃ a c, x = .ok a ∧ y = .ok c ∧ S a c := by
  match x, y, h with
  | .error e, .error _, rfl => exact .inl ⟨e, rfl, rfl⟩
  | .ok a, .ok c, h => exact .inr ⟨a, c, rfl, rfl, h⟩

/-- Two computations end alike, and a result satisfies `P`. -/
def Alike (P : α → Prop) (x y : Except ε α) : Prop := x = y ∧ ∀ a, y = .ok a → P a

theorem alike_error {e : ε} : Alike P (.error e) (.error e) := ⟨rfl, nofun⟩

theorem alike_ok {a : α} (h : P a) : Alike P (.ok a : Except ε α) (.ok a) :=
  ⟨rfl, fun _ h' => by cases h'; exact h⟩

/-- The computation has the result `a` if `C` holds, and none otherwise. -/
def OkIff (x : Except ε α) (a : α) (C : Prop) : Prop := ∀ b, x = .ok b ↔ b = a ∧ C

theorem okIff_ok {a : α} (h : C) : OkIff (.ok a : Except ε α) a C :=
  fun _ => ⟨fun heq => ⟨(Except.ok.inj heq).symm, h⟩, fun ⟨heq, _⟩ => heq ▸ rfl⟩

theorem okIff_error {e : ε} {a : α} (h : ¬C) : OkIff (.error e) a C :=
  fun _ => iff_of_false nofun fun ⟨_, hC⟩ => h hC

/-- Two computations one after the other. -/
theorem OkIff.andThen {C' : Prop} {a : α} {b : β} (hx : OkIff x a C) (hf : OkIff (f a) b C') :
    OkIff (x >>= f) b (C ∧ C') := by
  intro c
  rw [bind_eq_ok]
  constructor
  · rintro ⟨a', ha', hc⟩
    obtain ⟨rfl, hC⟩ := (hx a').mp ha'
    exact ⟨((hf c).mp hc).1, hC, ((hf c).mp hc).2⟩
  · rintro ⟨rfl, hC, hC'⟩
    exact ⟨a, (hx a).mpr ⟨rfl, hC⟩, (hf c).mpr ⟨rfl, hC'⟩⟩

theorem OkIff.bind {a : α} {b : β} (hx : OkIff x a C) (hf : f a = .ok b) : OkIff (x >>= f) b C := by
  have hthen : OkIff (x >>= f) b (C ∧ True) := hx.andThen (hf ▸ okIff_ok trivial)
  rwa [and_true] at hthen

def passes (x : Except ε α) (p : α → Bool) : Bool :=
  match x with
  | .ok a => p a
  | .error _ => false

theorem exists_ok_of_passes {p : α → Bool} (h : passes x p = true) : ∃ a, x = .ok a ∧ p a = true := by
  cases x with
  | ok a => exact ⟨a, rfl, h⟩
  | error e => cases h

theorem exists_ok_of_test {x : Except ε α} {p : α → Prop} [DecidablePred p]
    (h : (match x with | .ok a => decide (p a) | .error _ => false) = true) :
    ∃ a, x = .ok a ∧ p a := by
  cases x with
  | error e => cases h
  | ok a => exact ⟨a, rfl, of_decide_eq_true h⟩

end QuarkChain.Outcome
