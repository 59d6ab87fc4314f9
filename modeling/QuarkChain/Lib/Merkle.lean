/-
# Hashing a list down to one digest

A list of digests is reduced level by level: an odd level is filled up with a padding digest, each two
neighbours are hashed together, and the padding digest of the next level is the hash of two paddings of
this one.  Two lists of the same length that reduce to the same digest are equal, as long as the hash does not
collide on what was actually hashed on the way: no hash into a finite type is injective on all strings, so the
strings that a reduction hashes are listed (`inputs`).
-/
import Mathlib.Data.List.Basic
import Mathlib.Data.Set.Function

namespace QuarkChain.Merkle

variable {β δ : Type*} (hash : List β → δ) (bytes : δ → List β)

/-- The strings that one level hashes: each two neighbours together. -/
def pairs : List δ → List (List β)
  | [] => []
  | [_] => []
  | a :: b :: rest => (bytes a ++ bytes b) :: pairs rest

def pad (z : δ) (l : List δ) : List δ := if l.length % 2 = 1 then l ++ [z] else l

def level (z : δ) (l : List δ) : List δ := (pairs bytes (pad z l)).map hash

def nextPad (z : δ) : δ := hash (bytes z ++ bytes z)

/-- The levels until one digest is left; `none` when the fuel does not suffice. -/
def reduce : ℕ → δ → List δ → Option δ
  | 0, _, _ => none
  | fuel + 1, z, l =>
      if l.length = 1 then l.head? else reduce fuel (nextPad hash bytes z) (level hash bytes z l)

/-- The strings that `reduce` hashes. -/
def inputs : ℕ → δ → List δ → List (List β)
  | 0, _, _ => []
  | fuel + 1, z, l =>
      if l.length = 1 then []
      else pairs bytes (pad z l) ++
        (bytes z ++ bytes z) :: inputs fuel (nextPad hash bytes z) (level hash bytes z l)

theorem length_pairs (l : List δ) : (pairs bytes l).length = l.length / 2 := by
  induction l using pairs.induct with
  | case1 => simp [pairs]
  | case2 a => simp [pairs]
  | case3 a b rest ih =>
    simp only [pairs, List.length_cons, ih]
    omega

theorem length_pad (z : δ) (l : List δ) : (pad z l).length = l.length + l.length % 2 := by
  unfold pad
  split_ifs with h
  · simp only [List.length_append, List.length_singleton]
    omega
  · omega

theorem length_level (z : δ) (l : List δ) : (level hash bytes z l).length = (l.length + 1) / 2 := by
  simp only [level, List.length_map, length_pairs, length_pad]
  omega

variable {fuel w : ℕ}

theorem reduce_isSome {z : δ} {l : List δ} (hpos : 0 < l.length) (hfuel : l.length ≤ fuel) :
    ∃ d, reduce hash bytes fuel z l = some d := by
  induction fuel generalizing z l with
  | zero => omega
  | succ fuel ih =>
    unfold reduce
    split_ifs with h1
    · obtain ⟨a, rfl⟩ := List.length_eq_one_iff.mp h1
      exact ⟨a, rfl⟩
    · have hlen := length_level hash bytes z l
      exact ih (by omega) (by omega)

variable {hash bytes}

theorem pairs_inj (hw : ∀ d, (bytes d).length = w) (hb : Function.Injective bytes) {l l' : List δ}
    (heven : l.length % 2 = 0) (hlen : l.length = l'.length) (h : pairs bytes l = pairs bytes l') :
    l = l' := by
  induction l using pairs.induct generalizing l' with
  | case1 => exact (List.length_eq_zero_iff.mp hlen.symm).symm
  | case2 a => simp at heven
  | case3 a b rest ih =>
    obtain _ | ⟨a', _ | ⟨b', rest'⟩⟩ := l'
    · simp at hlen
    · simp at hlen
    simp only [List.length_cons] at heven hlen
    simp only [pairs, List.cons.injEq] at h
    obtain ⟨ha, hb'⟩ := List.append_inj h.1 ((hw a).trans (hw a').symm)
    rw [hb ha, hb hb', ih (by omega) (by omega) h.2]

theorem pad_inj {z : δ} {l l' : List δ} (hlen : l.length = l'.length) (h : pad z l = pad z l') : l = l' := by
  unfold pad at h
  rw [hlen] at h
  split_ifs at h with hodd
  · exact (List.append_inj h hlen).1
  · exact h

theorem map_injOn {α γ : Type*} {f : α → γ} {l l' : List α} {s : Set α} (hf : Set.InjOn f s)
    (hl : ∀ a ∈ l, a ∈ s) (hl' : ∀ a ∈ l', a ∈ s) (h : l.map f = l'.map f) : l = l' := by
  induction l generalizing l' with
  | nil => exact (List.map_eq_nil_iff.mp h.symm).symm
  | cons a l ih =>
    rcases l' with _ | ⟨a', l'⟩
    · simp at h
    simp only [List.map_cons, List.cons.injEq] at h
    have ha : a = a' := hf (hl a (by simp)) (hl' a' (by simp)) h.1
    rw [ha, ih (fun b hb => hl b (by simp [hb])) (fun b hb => hl' b (by simp [hb])) h.2]

/-- **Binding.** Two lists of one length that reduce to the same digest are equal, unless the hash
collides on two of the strings hashed on the way. -/
theorem reduce_inj (hw : ∀ d, (bytes d).length = w) (hb : Function.Injective bytes)
    {s : Set (List β)} (hs : Set.InjOn hash s) {z : δ} {l l' : List δ} {d : δ}
    (hl : ∀ b ∈ inputs hash bytes fuel z l, b ∈ s) (hl' : ∀ b ∈ inputs hash bytes fuel z l', b ∈ s)
    (hlen : l.length = l'.length) (h : reduce hash bytes fuel z l = some d)
    (h' : reduce hash bytes fuel z l' = some d) : l = l' := by
  induction fuel generalizing z l l' with
  | zero => simp [reduce] at h
  | succ fuel ih =>
    unfold reduce at h h'
    unfold inputs at hl hl'
    rw [← hlen] at h' hl'
    by_cases h1 : l.length = 1
    · rw [if_pos h1] at h h'
      obtain ⟨a, rfl⟩ := List.length_eq_one_iff.mp h1
      obtain ⟨a', rfl⟩ := List.length_eq_one_iff.mp (hlen.symm.trans h1)
      exact congrArg (fun o => o.toList) (h.trans h'.symm)
    · rw [if_neg h1] at h h' hl hl'
      -- the two next levels agree, so the strings hashed into them do
      have hlevel : level hash bytes z l = level hash bytes z l' :=
        ih (fun b hb => hl b (by simp [hb])) (fun b hb => hl' b (by simp [hb]))
          (by rw [length_level, length_level, hlen]) h h'
      have hpairs := map_injOn hs (fun b hb => hl b (by simp [hb])) (fun b hb => hl' b (by simp [hb])) hlevel
      have hpad : pad z l = pad z l' :=
        pairs_inj hw hb (by rw [length_pad]; omega) (by rw [length_pad, length_pad, hlen]) hpairs
      exact pad_inj hlen hpad

end QuarkChain.Merkle
