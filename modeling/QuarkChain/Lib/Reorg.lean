/-
# Reorganisations that may go down to height zero

Here the two blocks of a reorganisation may stand over different blocks of height zero: `branches` then
returns both columns whole, and `Branches` says what is exchanged in either case.  By `Indexes.exchange` the
index follows the head, whether or not the two branches meet.

Blocks may also be deleted.  `Within` is the form of `Consistent` that survives that: whatever the
store holds at the moment, its blocks belong to one universe in which a hash names one block.
`rewind` walks down from the head and collects what a deletion takes away.
-/
import QuarkChain.Lib.BlockTree

namespace QuarkChain.BlockTree

variable {κ β : Type} [Chained κ β] {content get get' : κ → Option β} {b c g p old new : β}
  {l lo ln : List β} {h k : ℕ}

/-- The store holds blocks of the universe, under their own hash, and each of them is one height
above whatever block its parent hash names. -/
structure Within (content get : κ → Option β) : Prop where
  genuine : ∀ {k b}, get k = some b → content k = some b
  keyed : ∀ {k b}, get k = some b → blockHash b = k
  linked : ∀ {k b p}, get k = some b → content (parentHash b) = some p → number b = number p + 1

namespace Within

theorem consistent (hw : Within content get) : Consistent get where
  keyed := hw.keyed
  linked hb hp := hw.linked hb (hw.genuine hp)

theorem subset (hw : Within content get) (hsub : ∀ k b, get' k = some b → get k = some b) :
    Within content get' where
  genuine hb := hw.genuine (hsub _ _ hb)
  keyed hb := hw.keyed (hsub _ _ hb)
  linked hb := hw.linked (hsub _ _ hb)

variable [DecidableEq κ]

theorem store_mono (hw : Within content get) (hb : content (blockHash b) = some b) (k : κ) (c : β)
    (hc : get k = some c) : Function.update get (blockHash b) (some b) k = some c := by
  by_cases hk : k = blockHash b
  · subst hk
    rw [Function.update_self, ← hb]
    exact hw.genuine hc
  · rwa [Function.update_of_ne hk]

theorem store (hw : Within content get) (hb : content (blockHash b) = some b)
    (hl : ∀ p, content (parentHash b) = some p → number b = number p + 1) :
    Within content (Function.update get (blockHash b) (some b)) := by
  refine ⟨?_, ?_, ?_⟩
  · intro k c hc
    rcases store_cases hc with ⟨rfl, rfl⟩ | hc
    · exact hb
    · exact hw.genuine hc
  · intro k c hc
    rcases store_cases hc with ⟨rfl, rfl⟩ | hc
    · rfl
    · exact hw.keyed hc
  · intro k c p hc hp
    rcases store_cases hc with ⟨rfl, rfl⟩ | hc
    · exact hl p hp
    · exact hw.linked hc hp

end Within

theorem Rooted.foot (hr : Rooted get b) (hs : Segment get b l c) : Rooted get c := by
  induction hs with
  | nil _ => exact hr
  | cons hp hn _ ih =>
    cases hr with
    | genesis h0 => omega
    | child hp' _ hr =>
      rw [hp] at hp'
      cases hp'
      exact ih hr

variable (hs : Segment get b l c)
include hs

theorem Segment.rooted (hr : Rooted get c) : Rooted get b := by
  induction hs with
  | nil _ => exact hr
  | cons hp hn _ ih => exact .child hp hn (ih hr)

theorem Segment.mem_descends (ha : p ∈ l) : Descends get p b := by
  induction hs with
  | nil _ => cases ha
  | cons hp _ _ ih =>
    rcases List.mem_cons.mp ha with rfl | ha
    · exact .refl
    · exact .step hp (ih ha)

theorem Segment.mem_number (ha : p ∈ l) : number c < number p := by
  induction hs with
  | nil _ => cases ha
  | cons hp hn hs ih =>
    rcases List.mem_cons.mp ha with rfl | ha
    · have := hs.number_le
      omega
    · exact ih ha

theorem Segment.mono (hmono : ∀ k b, get k = some b → get' k = some b) : Segment get' b l c := by
  induction hs with
  | nil c => exact .nil c
  | cons hp hn _ ih => exact .cons (hmono _ _ hp) hn ih

omit hs

theorem Segment.descends_foot (hc : Consistent get) (hb : get (blockHash b) = some b)
    (hs : Segment get b l c) (hd : Descends get p b) (hle : number p ≤ number c) :
    Descends get p c := by
  have hat := hc.atHeight_of_descends hb hd
  rw [hs.atHeight_eq hle] at hat
  exact descends_of_atHeight hat

/-- The block and all its ancestors, down to one of height zero, the highest first. -/
def Column (get : κ → Option β) (b : β) (l : List β) : Prop :=
  ∃ l' g, l = l' ++ [g] ∧ number g = 0 ∧ Segment get b l' g

namespace Column

theorem zero (hb : number b = 0) : Column get b [b] := ⟨[], b, rfl, hb, .nil b⟩

theorem cons (hp : get (parentHash b) = some p) (hn : number b = number p + 1)
    (hl : Column get p l) : Column get b (b :: l) := by
  obtain ⟨l', g, rfl, hg, hs⟩ := hl
  exact ⟨b :: l', g, rfl, hg, .cons hp hn hs⟩

theorem append (hs : Segment get b lo c) (hl : Column get c l) : Column get b (lo ++ l) := by
  obtain ⟨l', g, rfl, hg, hs'⟩ := hl
  exact ⟨lo ++ l', g, by rw [List.append_assoc], hg, hs.append hs'⟩

variable (hl : Column get b l)
include hl

theorem rooted : Rooted get b := by
  obtain ⟨l', g, -, hg, hs⟩ := hl
  exact hs.rooted (.genesis hg)

theorem mem_descends (ha : p ∈ l) : Descends get p b := by
  obtain ⟨l', g, rfl, -, hs⟩ := hl
  rcases List.mem_append.mp ha with ha | ha
  · exact hs.mem_descends ha
  · obtain rfl := List.mem_singleton.mp ha
    exact hs.descends

theorem eq_cons : ∃ l', l = b :: l' := by
  obtain ⟨l', g, rfl, -, hs⟩ := hl
  cases hs with
  | nil => exact ⟨[], rfl⟩
  | cons _ _ _ => exact ⟨_, rfl⟩

theorem self_mem : b ∈ l := by
  obtain ⟨l', rfl⟩ := hl.eq_cons
  exact List.mem_cons_self

omit hl

theorem of_rooted (hr : Rooted get b) : ∃ l, Column get b l := by
  induction hr with
  | genesis h0 => exact ⟨_, zero h0⟩
  | child hp hn _ ih =>
    obtain ⟨l, hl⟩ := ih
    exact ⟨_, hl.cons hp hn⟩

theorem mono (hl : Column get b l) (hmono : ∀ k b, get k = some b → get' k = some b) : Column get' b l := by
  obtain ⟨l', g, rfl, hg, hs⟩ := hl
  exact ⟨l', g, rfl, hg, hs.mono hmono⟩

theorem eq_of_zero (hl : Column get b l) (hb : number b = 0) : l = [b] := by
  obtain ⟨l', g, rfl, -, hs⟩ := hl
  cases hs with
  | nil => rfl
  | cons _ hn _ => omega

theorem parent (hl : Column get b l) (hp : get (parentHash b) = some p)
    (hn : number b = number p + 1) : ∃ l', l = b :: l' ∧ Column get p l' := by
  obtain ⟨l', g, rfl, hg, hs⟩ := hl
  cases hs with
  | nil => omega
  | @cons _ p' _ l'' hp' _ hs' =>
    rw [hp] at hp'
    cases hp'
    exact ⟨l'' ++ [g], rfl, l'', g, rfl, hg, hs'⟩

theorem unique {l' : List β} (hl : Column get b l) (hl' : Column get b l') : l = l' := by
  have hr := hl.rooted
  induction hr generalizing l l' with
  | genesis h0 => rw [hl.eq_of_zero h0, hl'.eq_of_zero h0]
  | child hp hn _ ih =>
    obtain ⟨t, rfl, ht⟩ := hl.parent hp hn
    obtain ⟨t', rfl, ht'⟩ := hl'.parent hp hn
    rw [ih ht ht']

theorem descends_mem (hc : Consistent get) {k : κ} (hb : get k = some b) (hl : Column get b l)
    (hd : Descends get p b) : p ∈ l := by
  induction hd generalizing k l with
  | refl => exact hl.self_mem
  | step hp _ ih =>
    obtain ⟨t, rfl, ht⟩ := hl.parent hp (hc.linked hb hp)
    exact List.mem_cons_of_mem _ (ih hp ht)

variable {canon : ℕ → Option κ}

theorem write_eq (hl : Column get b l) (h : ℕ) :
    write canon l h = if h ≤ number b then (atHeight get b h).map blockHash else canon h := by
  obtain ⟨l', g, rfl, hg, hs⟩ := hl
  have hle := hs.number_le
  have happ : write canon (l' ++ [g]) = write (Function.update canon (number g) (some (blockHash g))) l' := by
    simp [write]
  rw [happ, write_segment hs]
  rcases Nat.eq_zero_or_pos h with rfl | hpos
  · rw [if_neg (by omega), if_pos (by omega), hg, Function.update_self,
      hs.atHeight_eq (Nat.zero_le _), ← hg, atHeight_self, Option.map_some]
  · by_cases hb : h ≤ number b
    · rw [if_pos (by omega), if_pos hb]
    · rw [if_neg (by omega), if_neg hb, Function.update_of_ne (by omega)]

theorem erase_eq (hl : Column get b l) (h : ℕ) :
    erase canon l h = if h ≤ number b then none else canon h := by
  obtain ⟨l', g, rfl, hg, hs⟩ := hl
  have hle := hs.number_le
  have happ : erase canon (l' ++ [g]) = Function.update (erase canon l') (number g) none := by
    simp [erase]
  rw [happ]
  rcases Nat.eq_zero_or_pos h with rfl | hpos
  · rw [if_pos (by omega), hg, Function.update_self]
  rw [Function.update_of_ne (by omega), erase_segment hs]
  by_cases hb : h ≤ number b
  · rw [if_pos (by omega), if_pos hb]
  · rw [if_neg (by omega), if_neg hb]

end Column

theorem Segment.descends_iff (hs : Segment get b l c) : Descends get p b ↔ p ∈ l ∨ Descends get p c := by
  induction hs with
  | nil c => simp
  | @cons b q c l hq hn hs ih =>
    rw [List.mem_cons, or_assoc, ← ih]
    constructor
    · intro hd
      cases hd with
      | refl => exact .inl rfl
      | step hq' hd =>
        rw [hq] at hq'
        cases hq'
        exact .inr hd
    · rintro (rfl | hd)
      · exact .refl
      · exact .step hq hd

theorem Rooted.descends_iff_of_mono (hr : Rooted get b) (hc : Consistent get')
    (hmono : ∀ k b, get k = some b → get' k = some b) {j : κ} (hb : get' j = some b) :
    Descends get' p b ↔ Descends get p b := by
  obtain ⟨l, hl⟩ := Column.of_rooted hr
  constructor
  · intro hd
    exact hl.mem_descends ((hl.mono hmono).descends_mem hc hb hd)
  · intro hd
    exact hd.mono hmono

/-! ### The two branches of a reorganisation -/

/-- What a reorganisation from `old` to `new` exchanges. -/
inductive Branches (get : κ → Option β) (old new : β) : List β → List β → Prop
  | common {lo ln : List β} {c : β} (ho : Segment get old lo c) (hn : Segment get new ln c) :
      Branches get old new lo ln
  | columns {lo ln : List β} (ho : Column get old lo) (hn : Column get new ln) :
      Branches get old new lo ln

namespace Branches

theorem head_eq (hb : Branches get old new lo (b :: ln)) : b = new := by
  cases hb with
  | common _ hs =>
    cases hs
    rfl
  | columns _ hcol =>
    obtain ⟨l', g, hl, -, hs⟩ := hcol
    cases hs with
    | nil => exact (List.cons.inj hl).1
    | cons => exact (List.cons.inj hl).1

variable (hb : Branches get old new lo ln)
include hb

theorem new_mem_descends (ha : p ∈ ln) : Descends get p new := by
  cases hb with
  | common _ hn => exact hn.mem_descends ha
  | columns _ hn => exact hn.mem_descends ha

theorem rooted (hr : Rooted get old) : Rooted get new := by
  cases hb with
  | common ho hn => exact hn.rooted (hr.foot ho)
  | columns _ hn => exact hn.rooted

theorem exists_base (hc : Consistent get)
    (ho : get (blockHash old) = some old) (hn : get (blockHash new) = some new) :
    ∃ Base : β → Prop, (∀ p, Descends get p old ↔ p ∈ lo ∨ Base p) ∧
      (∀ p, Descends get p new ↔ p ∈ ln ∨ Base p) ∧ ∀ p, Base p → p ∉ lo := by
  cases hb with
  | @common c hso hsn =>
    refine ⟨fun p => Descends get p c, fun p => hso.descends_iff, fun p => hsn.descends_iff, ?_⟩
    intro p hp hmem
    have hlow : number p ≤ number c := hc.number_le (hc.stored_of_descends ho hso.descends) hp
    have hhigh := hso.mem_number hmem
    omega
  | columns hso hsn =>
    refine ⟨fun _ => False, fun p => ?_, fun p => ?_, fun _ => False.elim⟩
    · rw [or_false]
      exact ⟨hso.descends_mem hc ho, hso.mem_descends⟩
    · rw [or_false]
      exact ⟨hsn.descends_mem hc hn, hsn.mem_descends⟩

omit hb

theorem cons {o n : β} (ho : get (parentHash old) = some o) (hno : number old = number o + 1)
    (hn : get (parentHash new) = some n) (hnn : number new = number n + 1)
    (hb : Branches get o n lo ln) : Branches get old new (old :: lo) (new :: ln) := by
  cases hb with
  | common hso hsn => exact .common (.cons ho hno hso) (.cons hn hnn hsn)
  | columns hco hcn => exact .columns (.cons ho hno hco) (.cons hn hnn hcn)

theorem lower_old {o : β} {l : List β} (hs : Segment get old l o) (hb : Branches get o new lo ln) :
    Branches get old new (l ++ lo) ln := by
  cases hb with
  | common ho hn => exact .common (hs.append ho) hn
  | columns ho hn => exact .columns (.append hs ho) hn

theorem lower_new {n : β} {l : List β} (hs : Segment get new l n) (hb : Branches get old n lo ln) :
    Branches get old new lo (l ++ ln) := by
  cases hb with
  | common ho hn => exact .common ho (hs.append hn)
  | columns ho hn => exact .columns ho (.append hs hn)

end Branches

/-- **The index follows the head.** -/
theorem Indexes.exchange {canon : ℕ → Option κ} (hi : Indexes get canon old)
    (hb : Branches get old new lo ln) : Indexes get (write (erase canon lo) ln) new := by
  cases hb with
  | common ho hn => exact hi.reorg ho hn
  | columns ho hn =>
    intro h
    rw [hn.write_eq, ho.erase_eq]
    by_cases hnew : h ≤ number new
    · rw [if_pos hnew]
    rw [if_neg hnew, atHeight_of_lt (by omega), Option.map_none]
    by_cases hold : h ≤ number old
    · rw [if_pos hold]
    · rw [if_neg hold, hi h, atHeight_of_lt (by omega), Option.map_none]

section Search

variable [DecidableEq κ]

variable (get) in
/-- Follow the parent links of two blocks of one height until they meet or one of them is at height
zero.  The third component is the block the new chain was followed down to. -/
def meetOrEnd : ℕ → β → β → Except ForkError (List β × List β × β)
  | fuel, o, n =>
      if blockHash o = blockHash n then .ok ([], [], n)
      else if number o = 0 ∨ number n = 0 then .ok ([o], [n], n)
      else
        match fuel with
        | 0 => .error .outOfFuel
        | fuel + 1 =>
            match get (parentHash o), get (parentHash n) with
            | none, _ => .error .invalidOldChain
            | some _, none => .error .invalidNewChain
            | some o', some n' =>
                (meetOrEnd fuel o' n').map fun r => (o :: r.1, n :: r.2.1, r.2.2)

variable (get) in
def branches (old new : β) : Except ForkError (List β × List β × β) :=
  if number old > number new then
    (lower get .invalidOldChain (number new) (number old - number new) old).bind fun r =>
      (meetOrEnd get (number new) r.2 new).map fun m => (r.1 ++ m.1, m.2.1, m.2.2)
  else
    (lower get .invalidNewChain (number old) (number new - number old) new).bind fun r =>
      (meetOrEnd get (number old) old r.2).map fun m => (m.1, r.1 ++ m.2.1, m.2.2)

theorem meetOrEnd_branches (hc : Consistent get) {o n : β} {fuel : ℕ} {r : List β × List β × β}
    (ho : get (blockHash o) = some o) (hn : get (blockHash n) = some n)
    (heq : number o = number n) (hr : meetOrEnd get fuel o n = .ok r) :
    Branches get o n r.1 r.2.1 ∧ (r.2.1 = [] → r.2.2 = n) := by
  induction fuel generalizing o n r with
  | zero =>
    rw [meetOrEnd] at hr
    split_ifs at hr with hh h0
    · cases hr
      obtain rfl := Consistent.eq_of_hash_eq ho hn hh
      exact ⟨.common (.nil o) (.nil o), fun _ => rfl⟩
    · cases hr
      exact ⟨.columns (.zero (by omega)) (.zero (by omega)), fun h => by cases h⟩
  | succ fuel ih =>
    rw [meetOrEnd] at hr
    split_ifs at hr with hh h0
    · cases hr
      obtain rfl := Consistent.eq_of_hash_eq ho hn hh
      exact ⟨.common (.nil o) (.nil o), fun _ => rfl⟩
    · cases hr
      exact ⟨.columns (.zero (by omega)) (.zero (by omega)), fun h => by cases h⟩
    rcases hpo : get (parentHash o) with _ | o'
    · simp [hpo] at hr
    rcases hpn : get (parentHash n) with _ | n'
    · simp [hpo, hpn] at hr
    simp only [hpo, hpn] at hr
    rcases hm : meetOrEnd get fuel o' n' with e | r'
    · simp [hm, Except.map] at hr
    simp only [hm, Except.map, Except.ok.injEq] at hr
    subst hr
    have hno := hc.linked ho hpo
    have hnn := hc.linked hn hpn
    obtain ⟨hb, -⟩ := ih (hc.stored hpo) (hc.stored hpn) (by omega) hm
    exact ⟨hb.cons hpo hno hpn hnn, fun h => by cases h⟩

/-- **What the search returns** is what a reorganisation exchanges. -/
theorem branches_spec (hc : Consistent get) {r : List β × List β × β}
    (ho : get (blockHash old) = some old) (hn : get (blockHash new) = some new)
    (hr : branches get old new = .ok r) :
    Branches get old new r.1 r.2.1 ∧ (r.2.1 = [] → r.2.2 = new) := by
  rcases lowered_cases (f := meetOrEnd get) hc ho hn hr with
    ⟨l, o, m, hs, hst, hnum, hm, rfl⟩ | ⟨l, n, m, hs, hst, hnum, hm, rfl⟩
  · obtain ⟨hb, hend⟩ := meetOrEnd_branches hc hst hn hnum hm
    exact ⟨hb.lower_old hs, hend⟩
  obtain ⟨hb, hend⟩ := meetOrEnd_branches hc ho hst hnum.symm hm
  refine ⟨hb.lower_new hs, fun hnil => ?_⟩
  obtain ⟨hl, hm⟩ := List.append_eq_nil_iff.mp hnil
  rw [hend hm]
  rw [hl] at hs
  cases hs
  rfl

end Search

variable (get) in
/-- Walk down to a height and collect the blocks passed; the walk ends with nothing where a parent
is missing.  Heights go down by one, so the height of the block is fuel enough. -/
def rewind (target : ℕ) : ℕ → β → List β × Option β
  | 0, b => ([], some b)
  | fuel + 1, b =>
      if number b ≤ target then ([], some b)
      else
        match get (parentHash b) with
        | none => ([b], none)
        | some p => (b :: (rewind target fuel p).1, (rewind target fuel p).2)

theorem rewind_spec (hr : Rooted get b) (target : ℕ) :
    ∃ l c, rewind get target (number b) b = (l, some c) ∧ Segment get b l c ∧
      number c = min target (number b) := by
  induction hr with
  | @genesis b h0 =>
    rw [h0]
    exact ⟨[], b, rfl, .nil b, by omega⟩
  | @child b p hp hn _ ih =>
    rw [hn, rewind]
    split_ifs with hle
    · exact ⟨[], b, rfl, .nil b, by omega⟩
    · obtain ⟨l, c, hrew, hs, hnum⟩ := ih
      refine ⟨b :: l, c, ?_, .cons hp hn hs, by omega⟩
      simp only [hp, hrew]

theorem Rooted.delete (hr : Rooted get b) (hn : ∀ k c, get k = some c → number c ≤ number b →
    get' k = some c) : Rooted get' b := by
  induction hr with
  | genesis h0 => exact .genesis h0
  | @child b p hp hnum _ ih =>
    refine .child (hn _ _ hp (by omega)) hnum (ih fun k c hc hle => hn k c hc (by omega))

theorem Indexes.rewind {canon : ℕ → Option κ} (hi : Indexes get canon b) (hs : Segment get b l c) :
    Indexes get (erase canon l) c := by
  intro h
  rw [erase_segment hs, hi h]
  rcases Nat.lt_or_ge (number c) h with hlt | hge
  · by_cases hin : h ≤ number b
    · rw [if_pos ⟨hlt, hin⟩, atHeight_of_lt hlt, Option.map_none]
    · rw [if_neg (by omega), atHeight_of_lt (by omega), atHeight_of_lt hlt]
  · rw [if_neg (by omega), hs.atHeight_eq hge]

section

variable [DecidableEq κ]

theorem meet_new_not_descends (hc : Consistent get) {o n e : β} {fuel : ℕ} {r : List β × List β × β}
    (ho : get (blockHash o) = some o) (hn : get (blockHash n) = some n) (heq : number o = number n)
    (hr : meet get fuel o n = .ok r) (he : e ∈ r.2.1) : ¬Descends get e o := by
  refine (meet_induct hc (P := fun o n r => Segment get n r.2.1 r.2.2 ∧ (number o = number n →
    ∀ e ∈ r.2.1, ¬Descends get e o)) (fun o => ⟨.nil o, fun _ => nofun⟩) ?_ ho hn hr).2 heq e he
  intro o n o' n' r ho hn hne hpo hpn ⟨hs, ih⟩
  have hlo := hc.linked ho hpo
  have hln := hc.linked hn hpn
  refine ⟨.cons hpn hln hs, fun heq e he hd => ?_⟩
  rcases List.mem_cons.mp he with rfl | he
  · have hat := hc.atHeight_of_descends ho hd
    rw [← heq, atHeight_self] at hat
    exact hne (congrArg blockHash (Option.some.inj hat))
  · have hle := hc.number_le hpn (hs.mem_descends he)
    cases hd with
    | refl => omega
    | step hp hd =>
      rw [hpo] at hp
      cases hp
      exact ih (by omega) e he hd

/-- **The search stops at the highest common ancestor.** -/
theorem fork_new_not_descends (hc : Consistent get) {r : List β × List β × β} {e : β}
    (ho : get (blockHash old) = some old) (hn : get (blockHash new) = some new)
    (hr : fork get old new = .ok r) (he : e ∈ r.2.1) : ¬Descends get e old := by
  rcases lowered_cases (f := fun h => meet get (h + 1)) hc ho hn hr with
    ⟨l, o, m, hs, hst, hnum, hm, rfl⟩ | ⟨l, n, m, hs, hst, hnum, hm, rfl⟩
  · intro hd
    have hle := hc.number_le hn ((meet_segments hc hst hn hm).2.mem_descends he)
    exact meet_new_not_descends hc hst hn hnum hm he (hs.descends_foot hc ho hd (by omega))
  · rcases List.mem_append.mp he with he | he
    · intro hd
      have habove := hs.mem_number he
      have hle := hc.number_le ho hd
      omega
    · exact meet_new_not_descends hc ho hst hnum.symm hm he

end

end QuarkChain.BlockTree
