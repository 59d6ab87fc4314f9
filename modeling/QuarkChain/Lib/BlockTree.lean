/-
# Block trees and their canonical index

Blocks name their parent by hash and carry their height; a store finds blocks by hash.  `ancestor` and
`atHeight` walk down the parent links, and `Indexes` is what a canonical index promises: under every height
it holds the hash of the head's ancestor at that height, and nothing above the head.

`fork` is the common-ancestor search of a chain reorganisation: bring the higher of two blocks down
to the height of the lower one, then follow both until they meet.  `write` and
`erase` are the two ways a reorganisation rewrites the index along a branch.
-/
import Mathlib.Data.Nat.Basic
import Mathlib.Logic.Function.Basic

namespace QuarkChain.BlockTree

theorem store_cases {κ β : Type} [DecidableEq κ] {get : κ → Option β} {k k' : κ} {b c : β}
    (hc : Function.update get k' (some b) k = some c) : (k = k' ∧ c = b) ∨ get k = some c := by
  by_cases hk : k = k'
  · subst hk
    exact .inl ⟨rfl, by simpa using hc.symm⟩
  · exact .inr (by rwa [Function.update_of_ne hk] at hc)

/-- Blocks that are linked by the hash of their parent and know their height. -/
class Chained (κ : outParam Type) (β : Type) where
  blockHash : β → κ
  parentHash : β → κ
  number : β → ℕ

export Chained (blockHash parentHash number)

variable {κ β : Type} [Chained κ β] (get : κ → Option β)

/-- The block a number of parent links below. -/
def ancestor : ℕ → β → Option β
  | 0, b => some b
  | k + 1, b => (get (parentHash b)).bind (ancestor k)

/-- The ancestor at a height; a block is its own ancestor at its own height. -/
def atHeight (b : β) (h : ℕ) : Option β :=
  if h ≤ number b then ancestor get (number b - h) b else none

/-- `b` equals `a` or descends from it. -/
inductive Descends (a : β) : β → Prop
  | refl : Descends a a
  | step {b p : β} (hp : get (parentHash b) = some p) (h : Descends a p) : Descends a b

/-- All ancestors of the block are stored, one for every height down to zero. -/
inductive Rooted : β → Prop
  | genesis {b : β} (h : number b = 0) : Rooted b
  | child {b p : β} (hp : get (parentHash b) = some p) (hn : number b = number p + 1)
      (h : Rooted p) : Rooted b

/-- A branch: the blocks from `b` down to, and without, `c`, the highest first. -/
inductive Segment : β → List β → β → Prop
  | nil (c : β) : Segment c [] c
  | cons {b p c : β} {l : List β} (hp : get (parentHash b) = some p)
      (hn : number b = number p + 1) (h : Segment p l c) : Segment b (b :: l) c

/-- A store files blocks under their own hash, and a stored parent is one height below. -/
structure Consistent : Prop where
  keyed : ∀ {k b}, get k = some b → blockHash b = k
  linked : ∀ {k b p}, get k = some b → get (parentHash b) = some p → number b = number p + 1

/-- What a canonical index promises about the head `b`. -/
def Indexes (canon : ℕ → Option κ) (b : β) : Prop :=
  ∀ h, canon h = (atHeight get b h).map blockHash

variable {get} {get' : κ → Option β} {a b c p : β} {l : List β} {h k : ℕ}

theorem atHeight_self (b : β) : atHeight get b (number b) = some b := by
  simp [atHeight, ancestor]

theorem atHeight_of_lt (hlt : number b < h) : atHeight get b h = none := by
  simp [atHeight, Nat.not_le.mpr hlt]

theorem atHeight_parent (hp : get (parentHash b) = some p) (hn : number b = number p + 1)
    (hh : h ≤ number p) : atHeight get b h = atHeight get p h := by
  have hb : h ≤ number b := by omega
  have hk : number b - h = number p - h + 1 := by omega
  simp [atHeight, hb, hh, hk, ancestor, hp]

namespace Rooted

theorem atHeight_exists (hr : Rooted get b) (hh : h ≤ number b) :
    ∃ a, atHeight get b h = some a ∧ number a = h := by
  induction hr with
  | @genesis b h0 =>
    obtain rfl : h = number b := by omega
    exact ⟨b, atHeight_self b, rfl⟩
  | @child b p hp hn _ ih =>
    rcases Nat.lt_or_ge (number p) h with hlt | hle
    · obtain rfl : h = number b := by omega
      exact ⟨b, atHeight_self b, rfl⟩
    · rw [atHeight_parent hp hn hle]
      exact ih hle

theorem mono (hr : Rooted get b) (hmono : ∀ k b, get k = some b → get' k = some b) : Rooted get' b := by
  induction hr with
  | genesis h0 => exact .genesis h0
  | child hp hn _ ih => exact .child (hmono _ _ hp) hn ih

theorem atHeight_mono (hr : Rooted get b) (hmono : ∀ k b, get k = some b → get' k = some b)
    (h : ℕ) : atHeight get' b h = atHeight get b h := by
  induction hr with
  | @genesis b h0 =>
    rcases Nat.eq_zero_or_pos h with rfl | hpos
    · rw [← h0, atHeight_self, atHeight_self]
    · rw [atHeight_of_lt (by omega), atHeight_of_lt (by omega)]
  | @child b p hp hn _ ih =>
    rcases Nat.lt_trichotomy h (number b) with hlt | rfl | hgt
    · rw [atHeight_parent hp hn (by omega), atHeight_parent (hmono _ _ hp) hn (by omega), ih]
    · rw [atHeight_self, atHeight_self]
    · rw [atHeight_of_lt hgt, atHeight_of_lt hgt]

/-- The ancestors at two heights next to each other are a block and its parent. -/
theorem atHeight_succ (hr : Rooted get b) (hlt : h < number b) : ∃ a c, atHeight get b h = some a ∧
    atHeight get b (h + 1) = some c ∧ get (parentHash c) = some a := by
  induction hr with
  | genesis h0 => omega
  | @child b p hp hn _ ih =>
    rcases Nat.lt_or_ge h (number p) with hlt' | hge
    · rw [atHeight_parent hp hn (by omega), atHeight_parent hp hn (by omega)]
      exact ih hlt'
    · obtain rfl : h = number p := by omega
      exact ⟨p, b, by rw [atHeight_parent hp hn le_rfl, atHeight_self], by rw [← hn, atHeight_self], hp⟩

end Rooted

namespace Descends

theorem trans (hab : Descends get a b) (hbc : Descends get b c) : Descends get a c := by
  induction hbc with
  | refl => exact hab
  | step hp _ ih => exact .step hp ih

theorem mono (hd : Descends get a b) (hmono : ∀ k b, get k = some b → get' k = some b) :
    Descends get' a b := by
  induction hd with
  | refl => exact .refl
  | step hp _ ih => exact .step (hmono _ _ hp) ih

theorem stored (hd : Descends get a b) {k : κ} (hb : get k = some b) : ∃ k, get k = some a := by
  induction hd generalizing k with
  | refl => exact ⟨k, hb⟩
  | step hp _ ih => exact ih hp

end Descends

theorem descends_of_ancestor (ha : ancestor get k b = some a) : Descends get a b := by
  induction k generalizing b with
  | zero =>
    cases ha
    exact .refl
  | succ k ih =>
    obtain ⟨p, hp, ha⟩ := Option.bind_eq_some_iff.mp ha
    exact .step hp (ih ha)

theorem descends_of_atHeight (ha : atHeight get b h = some a) : Descends get a b := by
  rw [atHeight] at ha
  split_ifs at ha
  exact descends_of_ancestor ha

namespace Consistent

theorem stored (hc : Consistent get) {k : κ} (hb : get k = some b) : get (blockHash b) = some b := by
  rw [hc.keyed hb, hb]

theorem eq_of_hash_eq (ha : get (blockHash a) = some a) (hb : get (blockHash b) = some b)
    (hh : blockHash a = blockHash b) : a = b := by
  rw [hh, hb] at ha
  exact (Option.some.inj ha).symm

theorem number_le (hc : Consistent get) {k : κ} (hb : get k = some b) (hd : Descends get a b) :
    number a ≤ number b := by
  induction hd generalizing k with
  | refl => exact le_rfl
  | step hp _ ih =>
    have := hc.linked hb hp
    have := ih hp
    omega

theorem atHeight_of_descends (hc : Consistent get) {k : κ} (hb : get k = some b)
    (hd : Descends get a b) : atHeight get b (number a) = some a := by
  induction hd generalizing k with
  | refl => exact atHeight_self a
  | step hp hd ih =>
    rw [atHeight_parent hp (hc.linked hb hp) (hc.number_le hp hd)]
    exact ih hp

theorem rooted_of_descends (hc : Consistent get) {k : κ} (hb : get k = some b)
    (hd : Descends get a b) (ha : number a = 0) : Rooted get b := by
  induction hd generalizing k with
  | refl => exact .genesis ha
  | step hp _ ih => exact .child hp (hc.linked hb hp) (ih hp)

theorem stored_of_descends (hc : Consistent get) (hb : get (blockHash b) = some b)
    (hd : Descends get a b) : get (blockHash a) = some a := by
  induction hd with
  | refl => exact hb
  | step hp _ ih => exact ih (hc.stored hp)

end Consistent

namespace Segment

theorem number_le (hs : Segment get b l c) : number c ≤ number b := by
  induction hs with
  | nil _ => exact le_rfl
  | cons _ hn _ ih => omega

theorem atHeight_eq (hs : Segment get b l c) (hh : h ≤ number c) : atHeight get b h = atHeight get c h := by
  induction hs with
  | nil _ => rfl
  | cons hp hn hs ih =>
    have := hs.number_le
    rw [atHeight_parent hp hn (by omega), ih hh]

theorem descends (hs : Segment get b l c) : Descends get c b := by
  induction hs with
  | nil _ => exact .refl
  | cons hp _ _ ih => exact .step hp ih

theorem of_descends (hc : Consistent get) {k : κ} (hb : get k = some b) (hd : Descends get c b) :
    ∃ l, Segment get b l c := by
  induction hd generalizing k with
  | refl => exact ⟨[], .nil c⟩
  | @step b p hp _ ih =>
    obtain ⟨l, hl⟩ := ih hp
    exact ⟨b :: l, .cons hp (hc.linked hb hp) hl⟩

theorem append {l' : List β} (hs : Segment get b l c) (hs' : Segment get c l' a) :
    Segment get b (l ++ l') a := by
  induction hs with
  | nil _ => exact hs'
  | cons hp hn _ ih => exact .cons hp hn (ih hs')

end Segment

/-! ### The common ancestor of two blocks -/

/-- How the search for a common ancestor can end without one; running out of fuel stands for a walk
along links that do not go down one height at a time. -/
inductive ForkError
  | invalidOldChain
  | invalidNewChain
  | outOfFuel
deriving DecidableEq

variable (get)

/-- Follow the parent links down to a height and collect the blocks passed. -/
def lower (err : ForkError) (target : ℕ) : ℕ → β → Except ForkError (List β × β)
  | fuel, b =>
      if number b = target then .ok ([], b)
      else
        match fuel with
        | 0 => .error .outOfFuel
        | fuel + 1 =>
            match get (parentHash b) with
            | none => .error err
            | some p => (lower err target fuel p).map fun r => (b :: r.1, r.2)

/-- Follow the parent links of two blocks until they meet. -/
def meet [DecidableEq κ] : ℕ → β → β → Except ForkError (List β × List β × β)
  | fuel, o, n =>
      if blockHash o = blockHash n then .ok ([], [], o)
      else
        match fuel with
        | 0 => .error .outOfFuel
        | fuel + 1 =>
            match get (parentHash o), get (parentHash n) with
            | none, _ => .error .invalidOldChain
            | some _, none => .error .invalidNewChain
            | some o', some n' =>
                (meet fuel o' n').map fun r => (o :: r.1, n :: r.2.1, r.2.2)

/-- The branches of two blocks above their common ancestor, and that ancestor. -/
def fork [DecidableEq κ] (old new : β) : Except ForkError (List β × List β × β) :=
  if number old > number new then
    (lower get .invalidOldChain (number new) (number old - number new) old).bind fun r =>
      (meet get (number new + 1) r.2 new).map fun m => (r.1 ++ m.1, m.2.1, m.2.2)
  else
    (lower get .invalidNewChain (number old) (number new - number old) new).bind fun r =>
      (meet get (number old + 1) old r.2).map fun m => (m.1, r.1 ++ m.2.1, m.2.2)

variable {get} {fuel : ℕ} {err : ForkError}

theorem lower_self (b : β) : lower get err (number b) fuel b = .ok ([], b) := by
  cases fuel <;> rw [lower, if_pos rfl]

theorem lower_segment (hc : Consistent get) {target : ℕ} {r : List β × β}
    (hb : get (blockHash b) = some b) (hr : lower get err target fuel b = .ok r) :
    Segment get b r.1 r.2 ∧ get (blockHash r.2) = some r.2 ∧ number r.2 = target := by
  induction fuel generalizing b r with
  | zero =>
    rw [lower] at hr
    split_ifs at hr with hn
    cases hr
    exact ⟨.nil b, hb, hn⟩
  | succ fuel ih =>
    rw [lower] at hr
    split_ifs at hr with hn
    · cases hr
      exact ⟨.nil b, hb, hn⟩
    rcases hp : get (parentHash b) with _ | p
    · simp [hp] at hr
    simp only [hp] at hr
    rcases hlow : lower get err target fuel p with e | r'
    · simp [hlow, Except.map] at hr
    simp only [hlow, Except.map, Except.ok.injEq] at hr
    subst hr
    obtain ⟨hs, hst, hnum⟩ := ih (hc.stored hp) hlow
    exact ⟨.cons hp (hc.linked hb hp) hs, hst, hnum⟩

theorem lower_exists (hr : Rooted get b) (err : ForkError) {target : ℕ} (ht : target ≤ number b) :
    ∃ r, lower get err target (number b - target) b = .ok r ∧ Rooted get r.2 := by
  induction hr with
  | @genesis b h0 =>
    obtain rfl : target = number b := by omega
    exact ⟨([], b), lower_self b, .genesis h0⟩
  | @child b p hp hn hr ih =>
    by_cases hb : number b = target
    · subst hb
      exact ⟨([], b), lower_self b, .child hp hn hr⟩
    obtain ⟨r, hlow, hroot⟩ := ih (by omega)
    refine ⟨(b :: r.1, r.2), ?_, hroot⟩
    have hfuel : number b - target = number p - target + 1 := by omega
    rw [hfuel, lower, if_neg hb]
    simp only [hp, hlow, Except.map]

variable {r : List β × List β × β}

theorem lowered_cases (hc : Consistent get) {old new : β}
    {f : ℕ → β → β → Except ForkError (List β × List β × β)}
    (ho : get (blockHash old) = some old) (hn : get (blockHash new) = some new)
    (hr : (if number old > number new then
        (lower get .invalidOldChain (number new) (number old - number new) old).bind fun r =>
          (f (number new) r.2 new).map fun m => (r.1 ++ m.1, m.2.1, m.2.2) else
        (lower get .invalidNewChain (number old) (number new - number old) new).bind fun r =>
          (f (number old) old r.2).map fun m => (m.1, r.1 ++ m.2.1, m.2.2)) = .ok r) :
    (∃ l o m, Segment get old l o ∧ get (blockHash o) = some o ∧ number o = number new ∧
        f (number new) o new = .ok m ∧ r = (l ++ m.1, m.2.1, m.2.2)) ∨
      ∃ l n m, Segment get new l n ∧ get (blockHash n) = some n ∧ number n = number old ∧
        f (number old) old n = .ok m ∧ r = (m.1, l ++ m.2.1, m.2.2) := by
  split_ifs at hr
  · rcases hlow : lower get .invalidOldChain (number new) (number old - number new) old with e | q
    · simp [hlow, Except.bind] at hr
    obtain ⟨hs, hst, hnum⟩ := lower_segment hc ho hlow
    rcases hm : f (number new) q.2 new with e | m
    · simp [hlow, hm, Except.bind, Except.map] at hr
    simp only [hlow, hm, Except.bind, Except.map, Except.ok.injEq] at hr
    exact .inl ⟨q.1, q.2, m, hs, hst, hnum, hm, hr.symm⟩
  · rcases hlow : lower get .invalidNewChain (number old) (number new - number old) new with e | q
    · simp [hlow, Except.bind] at hr
    obtain ⟨hs, hst, hnum⟩ := lower_segment hc hn hlow
    rcases hm : f (number old) old q.2 with e | m
    · simp [hlow, hm, Except.bind, Except.map] at hr
    simp only [hlow, hm, Except.bind, Except.map, Except.ok.injEq] at hr
    exact .inr ⟨q.1, q.2, m, hs, hst, hnum, hm, hr.symm⟩

variable [DecidableEq κ]

/-- The induction along two chains that meet: what holds of a block and itself, and of two different
blocks if it holds of their parents, holds of what is returned. -/
theorem meet_induct (hc : Consistent get) {P : β → β → List β × List β × β → Prop}
    (hsame : ∀ o, P o o ([], [], o))
    (hstep : ∀ {o n o' n' : β} {r}, get (blockHash o) = some o → get (blockHash n) = some n →
      blockHash o ≠ blockHash n → get (parentHash o) = some o' → get (parentHash n) = some n' →
      P o' n' r → P o n (o :: r.1, n :: r.2.1, r.2.2)) {o n : β}
    (ho : get (blockHash o) = some o) (hn : get (blockHash n) = some n)
    (hr : meet get fuel o n = .ok r) : P o n r := by
  induction fuel generalizing o n r with
  | zero =>
    rw [meet] at hr
    split_ifs at hr with hh
    cases hr
    obtain rfl := Consistent.eq_of_hash_eq ho hn hh
    exact hsame o
  | succ fuel ih =>
    rw [meet] at hr
    split_ifs at hr with hh
    · cases hr
      obtain rfl := Consistent.eq_of_hash_eq ho hn hh
      exact hsame o
    rcases hpo : get (parentHash o) with _ | o'
    · simp [hpo] at hr
    rcases hpn : get (parentHash n) with _ | n'
    · simp [hpo, hpn] at hr
    simp only [hpo, hpn] at hr
    rcases hm : meet get fuel o' n' with e | r'
    · simp [hm, Except.map] at hr
    simp only [hm, Except.map, Except.ok.injEq] at hr
    subst hr
    exact hstep ho hn hh hpo hpn (ih (hc.stored hpo) (hc.stored hpn) hm)

theorem meet_segments (hc : Consistent get) {o n : β}
    (ho : get (blockHash o) = some o) (hn : get (blockHash n) = some n)
    (hr : meet get fuel o n = .ok r) : Segment get o r.1 r.2.2 ∧ Segment get n r.2.1 r.2.2 := by
  refine meet_induct hc (P := fun o n r => Segment get o r.1 r.2.2 ∧ Segment get n r.2.1 r.2.2)
    (fun o => ⟨.nil o, .nil o⟩) ?_ ho hn hr
  intro o n o' n' r ho hn _ hpo hpn ⟨hso, hsn⟩
  exact ⟨.cons hpo (hc.linked ho hpo) hso, .cons hpn (hc.linked hn hpn) hsn⟩

theorem meet_exists {o n : β} (hro : Rooted get o) (hrn : Rooted get n)
    (heq : number o = number n) (hg : atHeight get o 0 = atHeight get n 0) :
    ∃ r, meet get (number n + 1) o n = .ok r := by
  induction hro generalizing n with
  | @genesis o h0 =>
    have hn0 : number n = 0 := by omega
    have hself : atHeight get o 0 = some o := by rw [← h0, atHeight_self]
    have hself' : atHeight get n 0 = some n := by rw [← hn0, atHeight_self]
    rw [hself, hself'] at hg
    cases hg
    exact ⟨([], [], o), by rw [meet, if_pos rfl]⟩
  | @child o o' hpo hno hro ih =>
    by_cases hh : blockHash o = blockHash n
    · exact ⟨([], [], o), by rw [meet, if_pos hh]⟩
    cases hrn with
    | genesis h0 => omega
    | @child _ n' hpn hnn hrn =>
      have hg' : atHeight get o' 0 = atHeight get n' 0 := by
        rw [← atHeight_parent hpo hno (Nat.zero_le _), hg,
          atHeight_parent hpn hnn (Nat.zero_le _)]
      obtain ⟨r, hm⟩ := ih hrn (by omega) hg'
      refine ⟨(o :: r.1, n :: r.2.1, r.2.2), ?_⟩
      have hfuel : number n = number n' + 1 := hnn
      rw [meet, if_neg hh, hfuel]
      simp only [hpo, hpn, hm, Except.map]

/-- **What the common-ancestor search returns.**  The two branches above one block. -/
theorem fork_segments (hc : Consistent get) {old new : β}
    (ho : get (blockHash old) = some old) (hn : get (blockHash new) = some new)
    (hr : fork get old new = .ok r) : Segment get old r.1 r.2.2 ∧ Segment get new r.2.1 r.2.2 := by
  rcases lowered_cases (f := fun h => meet get (h + 1)) hc ho hn hr with
    ⟨l, o, m, hs, hst, -, hm, rfl⟩ | ⟨l, n, m, hs, hst, -, hm, rfl⟩
  · obtain ⟨hso, hsn⟩ := meet_segments hc hst hn hm
    exact ⟨hs.append hso, hsn⟩
  · obtain ⟨hso, hsn⟩ := meet_segments hc ho hst hm
    exact ⟨hso, hs.append hsn⟩

/-- **The common-ancestor search returns.** -/
theorem fork_exists (hc : Consistent get) {old new : β} (ho : get (blockHash old) = some old)
    (hn : get (blockHash new) = some new) (hro : Rooted get old) (hrn : Rooted get new)
    (hg : atHeight get old 0 = atHeight get new 0) : ∃ r, fork get old new = .ok r := by
  rw [fork]
  split_ifs with hgt
  · have hle : number new ≤ number old := by omega
    obtain ⟨q, hlow, hrq⟩ := lower_exists hro .invalidOldChain hle
    obtain ⟨hs, -, hnum⟩ := lower_segment hc ho hlow
    obtain ⟨m, hm⟩ := meet_exists hrq hrn hnum
      (by rw [← hs.atHeight_eq (Nat.zero_le _), hg])
    exact ⟨(q.1 ++ m.1, m.2.1, m.2.2), by simp only [hlow, hm, Except.bind, Except.map]⟩
  · have hle : number old ≤ number new := by omega
    obtain ⟨q, hlow, hrq⟩ := lower_exists hrn .invalidNewChain hle
    obtain ⟨hs, -, hnum⟩ := lower_segment hc hn hlow
    obtain ⟨m, hm⟩ := meet_exists hro hrq hnum.symm
      (by rw [hg, hs.atHeight_eq (Nat.zero_le _)])
    rw [hnum] at hm
    exact ⟨(m.1, q.1 ++ m.2.1, m.2.2), by simp only [hlow, hm, Except.bind, Except.map]⟩

def write (canon : ℕ → Option κ) (l : List β) : ℕ → Option κ :=
  l.foldr (fun b canon => Function.update canon (number b) (some (blockHash b))) canon

def erase (canon : ℕ → Option κ) (l : List β) : ℕ → Option κ :=
  l.foldl (fun canon b => Function.update canon (number b) none) canon

omit [DecidableEq κ] in
theorem write_segment {canon : ℕ → Option κ} (hs : Segment get b l c) (h : ℕ) : write canon l h =
      if number c < h ∧ h ≤ number b then (atHeight get b h).map blockHash else canon h := by
  induction hs with
  | nil c => simp [write, show ¬ (number c < h ∧ h ≤ number c) by omega]
  | @cons b p c l hp hn hs ih =>
    have hle := hs.number_le
    simp only [write, List.foldr_cons] at ih ⊢
    by_cases hh : h = number b
    · subst hh
      rw [Function.update_self, if_pos (by omega), atHeight_self, Option.map_some]
    rw [Function.update_of_ne hh, ih]
    by_cases hin : number c < h ∧ h ≤ number p
    · rw [if_pos hin, if_pos (by omega), atHeight_parent hp hn hin.2]
    · rw [if_neg hin, if_neg (by omega)]

omit [DecidableEq κ] in
theorem erase_segment {canon : ℕ → Option κ} (hs : Segment get b l c) (h : ℕ) :
    erase canon l h = if number c < h ∧ h ≤ number b then none else canon h := by
  induction hs generalizing canon with
  | nil c => simp [erase, show ¬ (number c < h ∧ h ≤ number c) by omega]
  | @cons b p c l hp hn hs ih =>
    have hle := hs.number_le
    simp only [erase, List.foldl_cons] at ih ⊢
    rw [ih]
    by_cases hin : number c < h ∧ h ≤ number p
    · rw [if_pos hin, if_pos (by omega)]
    rw [if_neg hin]
    by_cases hh : h = number b
    · rw [hh, Function.update_self, if_pos (by omega)]
    · rw [Function.update_of_ne hh, if_neg (by omega)]

namespace Indexes

variable {canon : ℕ → Option κ} {old new : β} {lo ln : List β}

omit [DecidableEq κ] in
/-- **A reorganisation that erases the old branch keeps the promise.** -/
theorem reorg (hi : Indexes get canon old) (ho : Segment get old lo c)
    (hn : Segment get new ln c) : Indexes get (write (erase canon lo) ln) new := by
  intro h
  have hle := ho.number_le
  have hle' := hn.number_le
  rw [write_segment hn, erase_segment ho]
  rcases Nat.lt_or_ge (number c) h with hlt | hge
  · by_cases hin : h ≤ number new
    · rw [if_pos ⟨hlt, hin⟩]
    rw [if_neg (by omega), atHeight_of_lt (by omega)]
    by_cases hold : h ≤ number old
    · rw [if_pos ⟨hlt, hold⟩, Option.map_none]
    · rw [if_neg (by omega), hi h, atHeight_of_lt (by omega)]
  · rw [if_neg (by omega), if_neg (by omega), hi h, ho.atHeight_eq hge, hn.atHeight_eq hge]

omit [DecidableEq κ] in
/-- **A reorganisation that only writes the new branch** keeps the promise up to the new head, and
leaves above it what the old head promised. -/
theorem overwrite (hi : Indexes get canon old) (ho : Segment get old lo c)
    (hn : Segment get new ln c) (h : ℕ) : write canon ln h =
      if h ≤ number new then (atHeight get new h).map blockHash else (atHeight get old h).map blockHash := by
  have hle := ho.number_le
  have hle' := hn.number_le
  rw [write_segment hn]
  rcases Nat.lt_or_ge (number c) h with hlt | hge
  · by_cases hin : h ≤ number new
    · rw [if_pos ⟨hlt, hin⟩, if_pos hin]
    · rw [if_neg (by omega), if_neg hin, hi h]
  · rw [if_neg (by omega), if_pos (by omega), hi h, ho.atHeight_eq hge, hn.atHeight_eq hge]

omit [DecidableEq κ] in
theorem mono (hi : Indexes get canon b) (hr : Rooted get b)
    (hmono : ∀ k b, get k = some b → get' k = some b) : Indexes get' canon b := by
  intro h
  rw [hi h, hr.atHeight_mono hmono]

end Indexes
/-! ### A store from a list -/

section OfList

variable {blocks : List β} {k : κ}

/-- The store of the blocks of a list. -/
def ofList (blocks : List β) (k : κ) : Option β := blocks.find? fun b => blockHash b = k

theorem ofList_eq_some (hb : ofList blocks k = some b) : b ∈ blocks ∧ blockHash b = k :=
  ⟨List.mem_of_find?_eq_some hb, by simpa using List.find?_some hb⟩

variable (linked : ∀ b ∈ blocks, ∀ p ∈ blocks, parentHash b = blockHash p → number b = number p + 1)
include linked

theorem consistent_ofList : Consistent (ofList blocks) := by
  refine ⟨fun hb => (ofList_eq_some hb).2, fun {k b p} hb hp => ?_⟩
  obtain ⟨hmem, -⟩ := ofList_eq_some hb
  obtain ⟨hmem', hhash⟩ := ofList_eq_some hp
  exact linked b hmem p hmem' hhash.symm

/-- A list that has the parent of each of its blocks above height zero holds all ancestors of each. -/
theorem rooted_ofList (parents : ∀ b ∈ blocks, number b ≠ 0 → (ofList blocks (parentHash b)).isSome = true)
    (hb : ofList blocks k = some b) : Rooted (ofList blocks) b := by
  induction hn : number b generalizing k b with
  | zero => exact .genesis hn
  | succ n ih =>
    obtain ⟨hmem, -⟩ := ofList_eq_some hb
    obtain ⟨p, hp⟩ := Option.isSome_iff_exists.mp (parents b hmem (by omega))
    have hnum := linked b hmem p (ofList_eq_some hp).1 (ofList_eq_some hp).2.symm
    exact .child hp hnum (ih hp (by omega))

end OfList

end QuarkChain.BlockTree
