/-
# Resumable traversals

A traversal is a function `next` that, from a position, either hands out an item together with the
following position, or reports that nothing is left, or fails.  `Yields next c l` says which items
it hands out from `c`; `drain` is the loop that feeds those items to a consumer and may stop after
any of them, keeping the position for later.  A client describes its traversal by the list a position still
stands for (`Describes`).
-/
import Mathlib.Data.List.Basic

namespace QuarkChain.Resumable

universe u

variable {σ τ α ε : Type u}

/-- From `c` the traversal hands out the items of `l`, in order, and then reports the end. -/
inductive Yields (next : σ → Except ε (Option α × σ)) : σ → List α → Prop
  | done {c c' : σ} (h : next c = .ok (none, c')) : Yields next c []
  | item {c c' : σ} {a : α} {l : List α} (h : next c = .ok (some a, c')) (hl : Yields next c' l) :
      Yields next c (a :: l)

/-- One answer of a traversal against what was left before and after it: an item handed out is the
head of what was left, and the end is reported only when nothing was left. -/
def HandsOut : Option α → List α → List α → Prop
  | some a, before, after => before = a :: after
  | none, before, after => before = [] ∧ after = []

/-- `todo` describes the traversal wherever it succeeds; positions stay inside `Inv`. -/
def Describes (next : σ → Except ε (Option α × σ)) (Inv : σ → Prop) (todo : σ → List α) : Prop :=
  ∀ ⦃c o c'⦄, Inv c → next c = .ok (o, c') → Inv c' ∧ HandsOut o (todo c) (todo c')

/-- The loop that consumes a traversal until the consumer is `full`; `none` means the fuel ran out. -/
def drain (next : σ → Except ε (Option α × σ)) (consume : τ → σ → α → Except ε τ)
    (full : τ → Bool) : ℕ → σ → τ → Except ε (Option (List α × σ × τ))
  | 0, _, _ => .ok none
  | fuel + 1, c, t =>
      match next c with
      | .error e => .error e
      | .ok (none, c') => .ok (some ([], c', t))
      | .ok (some a, c') =>
          match consume t c' a with
          | .error e => .error e
          | .ok t' =>
              if full t' then .ok (some ([a], c', t'))
              else
                match drain next consume full fuel c' t' with
                | .error e => .error e
                | .ok none => .ok none
                | .ok (some (l, c'', t'')) => .ok (some (a :: l, c'', t''))

variable {next : σ → Except ε (Option α × σ)} {Inv : σ → Prop} {todo : σ → List α}

theorem Describes.yields (hd : Describes next Inv todo)
    (hok : ∀ c, Inv c → ∃ r, next c = .ok r) {c : σ} (hc : Inv c) : Yields next c (todo c) := by
  generalize hl : todo c = l
  induction l generalizing c with
  | nil =>
    obtain ⟨⟨o, c'⟩, hn⟩ := hok c hc
    rcases o with _ | a
    · exact .done hn
    have ht : todo c = a :: todo c' := (hd hc hn).2
    rw [hl] at ht
    cases ht
  | cons a l ih =>
    obtain ⟨⟨o, c'⟩, hn⟩ := hok c hc
    cases o with
    | none =>
      have ht : todo c = [] := (hd hc hn).2.1
      rw [hl] at ht
      cases ht
    | some a' =>
      obtain ⟨hc', ht⟩ := hd hc hn
      change todo c = a' :: todo c' at ht
      rw [hl] at ht
      cases ht
      exact .item hn (ih hc' rfl)

variable {l : List α}

theorem Yields.tail {c c' : σ} {a : α} (h : Yields next c l)
    (hn : next c = .ok (some a, c')) : ∃ l', l = a :: l' ∧ Yields next c' l' := by
  cases h with
  | done h =>
    rw [hn] at h
    cases h
  | item h hl =>
    rw [hn] at h
    cases h
    exact ⟨_, rfl, hl⟩

theorem Yields.ne_error {c : σ} {e : ε} (h : Yields next c l) : next c ≠ .error e := by
  intro hn
  cases h with
  | done h =>
    rw [hn] at h
    cases h
  | item h _ =>
    rw [hn] at h
    cases h

variable {consume : τ → σ → α → Except ε τ} {full : τ → Bool} {fuel : ℕ}

/-- **What the loop consumed.** -/
theorem drain_ok (hd : Describes next Inv todo) {c c' : σ} {t t' : τ}
    (hc : Inv c) (h : drain next consume full fuel c t = .ok (some (l, c', t'))) :
    Inv c' ∧ todo c = l ++ todo c' ∧ (∃ c₀ o, Inv c₀ ∧ next c₀ = .ok (o, c')) ∧ (l = [] → todo c = []) := by
  induction fuel generalizing c t l with
  | zero => simp [drain] at h
  | succ fuel ih =>
    rw [drain] at h
    split at h
    · cases h
    · rename_i c₁ hn
      cases h
      obtain ⟨hc', h₁, h₂⟩ := hd hc hn
      exact ⟨hc', by simp [h₁, h₂], ⟨c, none, hc, hn⟩, fun _ => h₁⟩
    · rename_i a c₁ hn
      obtain ⟨hc₁, ht⟩ := hd hc hn
      change todo c = a :: todo c₁ at ht
      split at h
      · cases h
      split at h
      · cases h
        exact ⟨hc₁, by simpa using ht, ⟨c, some a, hc, hn⟩, by simp⟩
      split at h <;> cases h
      rename_i l₁ hr
      obtain ⟨hc', h₁, hlast, -⟩ := ih hc₁ hr
      exact ⟨hc', by rw [ht, h₁, List.cons_append], hlast, by simp⟩

/-- **What the consumer keeps, the loop keeps.** -/
theorem drain_keeps {P : τ → Prop} (hP : ∀ t c a t', P t → consume t c a = .ok t' → P t')
    {c c' : σ} {t t' : τ} (ht : P t)
    (h : drain next consume full fuel c t = .ok (some (l, c', t'))) : P t' := by
  induction fuel generalizing c t l with
  | zero => simp [drain] at h
  | succ fuel ih =>
    rw [drain] at h
    split at h
    · cases h
    · cases h
      exact ht
    split at h
    · cases h
    rename_i t₁ hcons
    have ht₁ := hP _ _ _ _ ht hcons
    split at h
    · cases h
      exact ht₁
    · split at h <;> cases h
      rename_i hr
      exact ih ht₁ hr

/-- Two traversals that agree inside `Inv`, which they do not leave, are consumed alike. -/
theorem drain_congr {next' : σ → Except ε (Option α × σ)}
    (h : ∀ c, Inv c → next' c = next c ∧ ∀ r, next c = .ok r → Inv r.2) {c : σ} {t : τ}
    (hc : Inv c) : drain next' consume full fuel c t = drain next consume full fuel c t := by
  induction fuel generalizing c t with
  | zero => rfl
  | succ fuel ih =>
    obtain ⟨heq, hinv⟩ := h c hc
    unfold drain
    rw [heq]
    rcases hn : next c with e | ⟨_ | a, c'⟩
    · rfl
    · rfl
    dsimp only
    rcases consume t c' a with e | t'
    · rfl
    dsimp only
    rw [ih (hinv _ hn)]

/-- **The loop returns.** -/
theorem Yields.drain_total {c : σ} (h : Yields next c l)
    (hcons : ∀ t c a, ∃ t', consume t c a = .ok t') (full : τ → Bool)
    (hf : l.length < fuel) (t : τ) : ∃ r, drain next consume full fuel c t = .ok (some r) := by
  induction h generalizing fuel t with
  | done hn =>
    obtain ⟨fuel, rfl⟩ : ∃ n, fuel = n + 1 := ⟨fuel - 1, by simp at hf; omega⟩
    simp [drain, hn]
  | @item c c' a l hn _ ih =>
    obtain ⟨fuel, rfl⟩ : ∃ n, fuel = n + 1 := ⟨fuel - 1, by omega⟩
    obtain ⟨t', ht'⟩ := hcons t c' a
    obtain ⟨⟨l', c'', t''⟩, hr⟩ := @ih fuel (by simpa using hf) t'
    by_cases hfull : full t' = true
    · exact ⟨_, by simp only [drain, hn, ht', hfull]; rfl⟩
    · exact ⟨_, by simp only [drain, hn, ht', hfull, hr]; rfl⟩

end QuarkChain.Resumable
