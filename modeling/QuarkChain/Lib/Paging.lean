/-
# Paging through an ordered history from below

A client reads a history page by page.  The server walks the entries upwards from the lowest one to a
bound, lists those that are not skipped until the page is full, and hands out a cursor just below the last
entry it has visited, which is the bound of the next request.  So each request sees the entries before the
last one that the previous request visited, and starts again at the bottom.

`lists_iff` says for which histories and page sizes a client reads what it expects.  The page size is a counter
of 32 bits that is taken down before it is compared with zero, so a page size of zero is no limit, unless the
first entry is skipped.
-/
import Mathlib.Data.List.Basic
import Mathlib.Data.UInt

namespace QuarkChain.Paging

variable {E D I : Type*}

section Cut

variable {p : E → Bool} {l : List E}

theorem filter_append_filter_not (h : l.Pairwise fun x y => p y = true → p x = true) :
    l.filter p ++ l.filter (fun x => !p x) = l := by
  induction l with
  | nil => rfl
  | cons x l ih =>
    obtain ⟨hx, hl⟩ := List.pairwise_cons.mp h
    cases hp : p x with
    | true => simp [hp, ih hl]
    | false =>
      have hnone : l.filter p = [] := by
        refine List.filter_eq_nil_iff.mpr fun y hy hpy => ?_
        rw [hx y hy hpy] at hp
        exact absurd hp (by decide)
      have hrest := ih hl
      rw [hnone, List.nil_append] at hrest
      simp [hp, hnone, hrest]

theorem dropWhile_eq_filter_not (h : l.Pairwise fun x y => p y = true → p x = true) :
    l.dropWhile p = l.filter fun x => !p x := by
  induction l with
  | nil => rfl
  | cons x l ih =>
    obtain ⟨hx, hl⟩ := List.pairwise_cons.mp h
    cases hp : p x with
    | true => rw [List.dropWhile_cons_of_pos hp, ih hl, List.filter_cons_of_neg (by simp [hp])]
    | false =>
      rw [List.dropWhile_cons_of_neg (by simp [hp])]
      refine (List.filter_eq_self.mpr ?_).symm
      refine List.forall_mem_cons.mpr ⟨by simp [hp], fun y hy => ?_⟩
      by_contra hpy
      rw [hx y hy (by simpa using hpy)] at hp
      exact absurd hp (by decide)

end Cut

/-! ### Pages -/

/-- How a page is made from entries: the entries left out, the item an entry is listed as, what identifies
an item, and whether a listed item is noted, so that it is not listed again on the same page. -/
structure Rules (E D I : Type*) where
  skipped : E → Bool
  item : E → D
  id : D → I
  noted : E → Bool

namespace Rules

variable (r : Rules E D I)

/-- What a client expects to have read: every item that is not skipped, once, the latest entry first. -/
structure Lists (es : List E) (items : List D) : Prop where
  newestFirst : items.Sublist ((es.filter fun e => !r.skipped e).reverse.map r.item)
  once : (items.map r.id).Nodup
  all : ∀ e ∈ es, r.skipped e = false → r.id (r.item e) ∈ items.map r.id

/-- Nothing is listed, or a single item on pages of one item, or only the last entry. -/
def Pageable (limit : UInt32) (es : List E) : Prop :=
  (∀ e ∈ es, r.skipped e = true) ∨
  (limit = 1 ∧ ∀ e ∈ es, ∀ e' ∈ es, r.skipped e = false → r.skipped e' = false →
    r.id (r.item e) = r.id (r.item e')) ∨
  ((∀ e ∈ es.dropLast, r.skipped e = true) ∧ (limit ≠ 0 ∨ es.length ≤ 1))

variable {r}

variable {es : List E}

theorem exists_first_listed (h : ¬ ∀ e ∈ es, r.skipped e = true) :
    ∃ before e after, es = before ++ e :: after ∧ (∀ x ∈ before, r.skipped x = true) ∧
      r.skipped e = false := by
  induction es with
  | nil => exact absurd (by simp) h
  | cons x es ih =>
    rcases hx : r.skipped x with _ | _
    · exact ⟨[], x, es, rfl, by simp, hx⟩
    have hes : ¬ ∀ e ∈ es, r.skipped e = true := by
      intro hall
      exact h (List.forall_mem_cons.mpr ⟨hx, hall⟩)
    obtain ⟨before, e, after, rfl, hbefore, he⟩ := ih hes
    exact ⟨x :: before, e, after, rfl, List.forall_mem_cons.mpr ⟨hx, hbefore⟩, he⟩

variable {before after : List E} {e : E}

theorem lists_singleton (he : r.skipped e = false)
    (hsame : ∀ x ∈ before ++ e :: after, r.skipped x = false → r.id (r.item x) = r.id (r.item e)) :
    r.Lists (before ++ e :: after) [r.item e] where
  newestFirst := by
    have hmem : e ∈ ((before ++ e :: after).filter fun e => !r.skipped e).reverse := by
      simp [he]
    exact List.singleton_sublist.mpr (List.mem_map_of_mem hmem)
  once := List.nodup_singleton _
  all := by
    intro x hx hlisted
    rw [hsame x hx hlisted]
    exact List.mem_singleton.mpr rfl

theorem dropLast_past {before : List E} {visited : List E} (h : visited ≠ []) :
    (before ++ e :: visited).dropLast = before ++ e :: visited.dropLast := by
  rw [List.dropLast_append_of_ne_nil (List.cons_ne_nil _ _), List.dropLast_cons_of_ne_nil h]

variable [DecidableEq I]

variable (r) in
/-- The items listed on a page, and the entries visited for it. -/
def page : List E → UInt32 → List I → List D × List E
  | [], _, _ => ([], [])
  | e :: es, limit, seen =>
    if r.id (r.item e) ∉ seen ∧ r.skipped e = false then
      let rest := if limit - 1 = 0 then ([], [])
        else page es (limit - 1) (if r.noted e then r.id (r.item e) :: seen else seen)
      (r.item e :: rest.1, e :: rest.2)
    else
      let rest := if limit = 0 then ([], []) else page es limit seen
      (rest.1, e :: rest.2)

variable (r) in
/-- The requests of a client up to the first empty page. -/
inductive Pages (limit : UInt32) : List E → List (List D) → Prop
  | done {es : List E} (hempty : (r.page es limit []).1 = []) : Pages limit es []
  | more {es : List E} {ps : List (List D)} (hlisted : (r.page es limit []).1 ≠ [])
      (hnext : Pages limit (r.page es limit []).2.dropLast ps) :
      Pages limit es ((r.page es limit []).1 :: ps)

theorem page_visited_append (es : List E) (limit : UInt32) (seen : List I) :
    ∃ left, es = (r.page es limit seen).2 ++ left := by
  induction es generalizing limit seen with
  | nil => exact ⟨[], rfl⟩
  | cons e es ih =>
    rw [page]
    split_ifs with hlist hzero hnoted hzero
    · exact ⟨es, rfl⟩
    · obtain ⟨left, hleft⟩ := ih (limit - 1) (r.id (r.item e) :: seen)
      exact ⟨left, congrArg (e :: ·) hleft⟩
    · obtain ⟨left, hleft⟩ := ih (limit - 1) seen
      exact ⟨left, congrArg (e :: ·) hleft⟩
    · exact ⟨es, rfl⟩
    · obtain ⟨left, hleft⟩ := ih limit seen
      exact ⟨left, congrArg (e :: ·) hleft⟩

variable {limit : UInt32}

theorem page_visited_ne_nil {seen : List I}
    (h : (r.page es limit seen).1 ≠ []) : (r.page es limit seen).2 ≠ [] := by
  rcases es with _ | ⟨e, es⟩
  · exact absurd rfl h
  rw [page]
  split_ifs <;> exact List.cons_ne_nil _ _

theorem page_append_skipped {seen : List I}
    (hskip : ∀ e ∈ before, r.skipped e = true) (hlimit : before = [] ∨ limit ≠ 0) :
    r.page (before ++ after) limit seen =
      ((r.page after limit seen).1, before ++ (r.page after limit seen).2) := by
  induction before with
  | nil => rfl
  | cons e before ih =>
    have hne : limit ≠ 0 := hlimit.resolve_left (List.cons_ne_nil _ _)
    have he : r.skipped e = true := hskip e (List.mem_cons_self ..)
    have hrest := ih (fun x hx => hskip x (List.mem_cons_of_mem _ hx)) (.inr hne)
    rw [List.cons_append, page, if_neg (by simp [he]), if_neg hne, hrest]
    rfl

theorem page_skipped {seen : List I}
    (hskip : ∀ e ∈ es, r.skipped e = true) : (r.page es limit seen).1 = [] := by
  induction es with
  | nil => rfl
  | cons e es ih =>
    have he : r.skipped e = true := hskip e (List.mem_cons_self ..)
    rw [page, if_neg (by simp [he])]
    split_ifs
    · rfl
    · exact ih fun x hx => hskip x (List.mem_cons_of_mem _ hx)

theorem page_zero_skipped {seen : List I} (he : r.skipped e = true) :
    (r.page (e :: es) 0 seen).1 = [] := by
  rw [page, if_neg (by simp [he]), if_pos rfl]

theorem page_cons_listed (he : r.skipped e = false) (es : List E) (limit : UInt32) :
    ∃ rest : List D × List E, r.page (e :: es) limit [] = (r.item e :: rest.1, e :: rest.2) ∧
      (limit = 1 → rest = ([], [])) ∧ (limit ≠ 1 → es ≠ [] → rest.2 ≠ []) := by
  rw [page, if_pos ⟨List.not_mem_nil, he⟩]
  refine ⟨_, rfl, ?_, ?_⟩
  · rintro rfl
    exact if_pos rfl
  · intro hlimit hes
    have hpred : limit - 1 ≠ 0 := fun h => hlimit (by simpa using UInt32.sub_eq_iff_eq_add.mp h)
    obtain ⟨x, es, rfl⟩ := List.exists_cons_of_ne_nil hes
    rw [if_neg hpred, page]
    split_ifs <;> exact List.cons_ne_nil _ _

theorem page_of_first {before : List E} (after : List E)
    (hskip : ∀ x ∈ before, r.skipped x = true) (he : r.skipped e = false)
    (hlimit : before = [] ∨ limit ≠ 0) : ∃ rest : List D × List E,
      r.page (before ++ e :: after) limit [] = (r.item e :: rest.1, before ++ e :: rest.2) ∧
      (limit = 1 → rest = ([], [])) ∧ (limit ≠ 1 → after ≠ [] → rest.2 ≠ []) := by
  obtain ⟨rest, hpage, hone, hmore⟩ := page_cons_listed he after limit
  refine ⟨rest, ?_, hone, hmore⟩
  rw [page_append_skipped hskip hlimit, hpage]

/-- **One listed entry is read in two requests** if no entry is visited after it. -/
theorem pages_of_last_visited {es before : List E} (hskip : ∀ x ∈ before, r.skipped x = true)
    (hpage : r.page es limit [] = ([r.item e], before ++ [e])) : r.Pages limit es [[r.item e]] := by
  have hnext : r.Pages limit (r.page es limit []).2.dropLast [] := by
    refine .done ?_
    rw [hpage, List.dropLast_concat]
    exact page_skipped hskip
  have hpages := Pages.more (r := r) (by rw [hpage]; exact List.cons_ne_nil _ _) hnext
  rwa [hpage] at hpages

theorem Pages.first {ps : List (List D)}
    (hskip : ∀ x ∈ before, r.skipped x = true) (he : r.skipped e = false)
    (hlimit : before = [] ∨ limit ≠ 0) (hps : r.Pages limit (before ++ e :: after) ps) :
    ∃ rest ps', ps = (r.item e :: rest) :: ps' := by
  obtain ⟨rest, hpage, -⟩ := page_of_first after hskip he hlimit
  cases hps with
  | done hempty =>
    rw [hpage] at hempty
    exact absurd hempty (List.cons_ne_nil _ _)
  | more hlisted hnext => exact ⟨rest.1, _, by rw [hpage]⟩

/-- **A second request lists the first entry again** if the first request went past it. -/
theorem Pages.not_once {ps : List (List D)}
    (hskip : ∀ x ∈ before, r.skipped x = true) (he : r.skipped e = false)
    (hlimit : before = [] ∨ limit ≠ 0) (hne : limit ≠ 1) (hafter : after ≠ [])
    (hps : r.Pages limit (before ++ e :: after) ps) : ¬ (ps.flatten.map r.id).Nodup := by
  obtain ⟨rest, hpage, -, hmore⟩ := page_of_first after hskip he hlimit
  cases hps with
  | done hempty =>
    rw [hpage] at hempty
    exact absurd hempty (List.cons_ne_nil _ _)
  | more hlisted hnext =>
    rw [hpage, dropLast_past (hmore hne hafter)] at hnext
    obtain ⟨rest', ps', rfl⟩ := hnext.first hskip he hlimit
    rw [hpage]
    intro hnodup
    simp [List.nodup_cons] at hnodup

/-- **For which histories and page sizes paging is complete.** -/
theorem lists_iff : (∃ ps, r.Pages limit es ps ∧ r.Lists es ps.flatten) ↔ r.Pageable limit es := by
  by_cases hall : ∀ e ∈ es, r.skipped e = true
  · -- Nothing to list: the first page is empty.
    refine iff_of_true ⟨[], .done (page_skipped hall), ?_⟩ (.inl hall)
    refine ⟨List.nil_sublist _, List.nodup_nil, fun e he hlisted => ?_⟩
    rw [hall e he] at hlisted
    exact absurd hlisted (by decide)
  obtain ⟨before, e, after, rfl, hskip, he⟩ := exists_first_listed hall
  constructor
  · rintro ⟨ps, hps, hlists⟩
    have hmem : r.id (r.item e) ∈ ps.flatten.map r.id := hlists.all e (by simp) he
    have hlimit : before = [] ∨ limit ≠ 0 := by
      by_contra! hzero
      obtain ⟨hne, rfl⟩ := hzero
      obtain ⟨x, before, rfl⟩ := List.exists_cons_of_ne_nil hne
      have hempty : (r.page (x :: (before ++ e :: after)) 0 []).1 = [] :=
        page_zero_skipped (hskip x (List.mem_cons_self ..))
      cases hps with
      | done => exact absurd hmem (by simp)
      | more hlisted => exact hlisted hempty
    by_cases hone : limit = 1
    · -- One item a page: the second request ends below the first entry listed.
      obtain ⟨rest, hpage, hrest, -⟩ := page_of_first after hskip he hlimit
      have hsame : ∀ x ∈ before ++ e :: after, r.skipped x = false → r.id (r.item x) = r.id (r.item e) := by
        intro x hx hlisted
        have hx' := hlists.all x hx hlisted
        rw [hrest hone] at hpage
        cases hps with
        | done => exact absurd hx' (by simp)
        | more hne hnext =>
          rw [hpage] at hnext hx'
          rw [List.dropLast_concat] at hnext
          cases hnext with
          | done => simpa using hx'
          | more hlisted' => exact absurd (page_skipped hskip) hlisted'
      refine .inr (.inl ⟨hone, fun x hx y hy hxl hyl => ?_⟩)
      rw [hsame x hx hxl, hsame y hy hyl]
    · have hafter : after = [] := by
        by_contra hne
        exact hps.not_once hskip he hlimit hone hne hlists.once
      subst hafter
      refine .inr (.inr ⟨by rwa [List.dropLast_concat], ?_⟩)
      refine hlimit.symm.imp_right fun hnil => ?_
      simp [hnil]
  · rintro (hnone | ⟨rfl, hsame⟩ | ⟨hlast, hlimit⟩)
    · exact absurd hnone hall
    · have hone : before = [] ∨ (1 : UInt32) ≠ 0 := .inr (by decide)
      obtain ⟨rest, hpage, hrest, -⟩ := page_of_first after hskip he hone
      rw [hrest rfl] at hpage
      refine ⟨_, pages_of_last_visited hskip hpage, lists_singleton he fun x hx hlisted => ?_⟩
      exact hsame x hx e (by simp) hlisted he
    have hafter : after = [] := by
      by_contra hne
      rw [dropLast_past hne] at hlast
      have := hlast e (by simp)
      rw [he] at this
      exact absurd this (by decide)
    subst hafter
    have hlimit' : before = [] ∨ limit ≠ 0 := by
      refine hlimit.symm.imp_left fun hlen => List.length_eq_zero_iff.mp ?_
      rw [List.length_append] at hlen
      have := List.length_singleton (a := e)
      omega
    have hpage : r.page (before ++ [e]) limit [] = ([r.item e], before ++ [e]) := by
      rw [page_append_skipped hskip hlimit', page, if_pos ⟨List.not_mem_nil, he⟩]
      split_ifs <;> rfl
    refine ⟨_, pages_of_last_visited hskip hpage, lists_singleton he fun x hx hlisted => ?_⟩
    rcases List.mem_append.mp hx with hx | hx
    · rw [hskip x hx] at hlisted
      exact absurd hlisted (by decide)
    · rw [List.mem_singleton.mp hx]

end Rules
end QuarkChain.Paging
