/-
# The left-leaning red-black tree

`src/consensus/qkchash/llrb.go`: a set of words that is also addressed by index.  A node is red if the
link to it is; `Index` is the number of words in the left subtree.  Deletion descends with a red link in
hand (`moveRedLeft`, `moveRedRight`) and repairs the tree on the way up (`fixUp`).

The operations stop without a result where the source panics or dereferences nil; the deletions descend into
subtrees that they have rotated, so their recursion is bounded by the number of nodes.  `Index` and `size` are
unbounded: a node takes more than a byte.

`Bal` is the shape of the tree and `toList` its contents.  A node is never asked for its own
colour, so that a black root can be treated as a red one (`Node.tint`).
-/
import Mathlib.Data.Int.Notation
import Mathlib.Data.List.Basic

namespace QuarkChain.Qkchash

def nullValue : UInt64 := 0xFFFFFFFFFFFFFFFF

/-- `Node`, with `nil` for the nil pointer. -/
inductive Node
  | nil
  | node (value : UInt64) (index : ℤ) (black : Bool) (left right : Node)
deriving DecidableEq

namespace Node

def isRed : Node → Bool
  | nil => false
  | node _ _ black _ _ => !black

def left : Node → Node
  | nil => nil
  | node _ _ _ l _ => l

def right : Node → Node
  | nil => nil
  | node _ _ _ _ r => r

@[simp] theorem isRed_node {v : UInt64} {i : ℤ} {b : Bool} {l r : Node} : (node v i b l r).isRed = !b := rfl

@[simp] theorem left_node {v : UInt64} {i : ℤ} {b : Bool} {l r : Node} : (node v i b l r).left = l := rfl

@[simp] theorem right_node {v : UInt64} {i : ℤ} {b : Bool} {l r : Node} : (node v i b l r).right = r := rfl

def toList : Node → List UInt64
  | nil => []
  | node v _ _ l r => l.toList ++ v :: r.toList

def blacken : Node → Node
  | nil => nil
  | node v i _ l r => node v i true l r

def tint : Node → Node
  | nil => nil
  | node v i b l r => node v i (!b) l r

end Node

open Node

/-! ### The operations -/

/-- A computation on the tree: it passes `rotationStats` along and may stop without a result. -/
abbrev Op (α : Type) := StateT (List UInt64) Option α

/-- The loop over the words of `rotationStats`, which shifts all of them by one bit. -/
def shiftStats (c : UInt64) : List UInt64 → List UInt64 × UInt64
  | [] => ([], c)
  | x :: xs =>
      let rest := shiftStats (if x &&& ((1 : UInt64) <<< 63) = 0 then 0 else 1) xs
      (((x <<< 1) ^^^ c) :: rest.1, rest.2)

/-- The end of a rotation; the last bit that falls out goes into the first word. -/
def recordRotation (c : UInt64) : Op Unit := modify fun stats =>
  match shiftStats c stats with
  | ([], _) => []
  | (x :: xs, c) => (x ^^^ c) :: xs

def rotateLeft : Node → Op Node
  | node v i b l (node xv xi false xl xr) => do
      recordRotation 0
      pure (node xv (xi + (i + 1)) b (node v i false l xl) xr)
  | _ => failure

def rotateRight : Node → Op Node
  | node v i b (node xv xi false xl xr) r => do
      recordRotation 1
      pure (node xv xi b xl (node v (i - (xi + 1)) false xr r))
  | _ => failure

def flip : Node → Op Node
  | node v i b (node lv li lb ll lr) (node rv ri rb rl rr) =>
      pure (node v i (!b) (node lv li (!lb) ll lr) (node rv ri (!rb) rl rr))
  | _ => failure

def moveRedLeft (h : Node) : Op Node := do
  match ← flip h with
  | node v i b l r =>
      if r.left.isRed then do
        let r ← rotateRight r
        let h ← rotateLeft (node v i b l r)
        flip h
      else pure (node v i b l r)
  | nil => failure

def moveRedRight (h : Node) : Op Node := do
  let h ← flip h
  if h.left.left.isRed then do
    let h ← rotateRight h
    flip h
  else pure h

def fixUp (h : Node) : Op Node := do
  let h ← if h.right.isRed then rotateLeft h else pure h
  let h ← if h.left.isRed && h.left.left.isRed then rotateRight h else pure h
  if h.left.isRed && h.right.isRed then flip h else pure h

/-- The end of `insert`, which is `fixUp` but for the first test. -/
def insertFixUp (h : Node) : Op Node := do
  let h ← if h.right.isRed && !h.left.isRed then rotateLeft h else pure h
  let h ← if h.left.isRed && h.left.left.isRed then rotateRight h else pure h
  if h.left.isRed && h.right.isRed then flip h else pure h

def insert (value : UInt64) : Node → Op (Node × UInt64)
  | nil => pure (node value 0 false nil nil, nullValue)
  | node v i b l r =>
      if value < v then do
        let x ← insert value l
        let h ← insertFixUp (node v (if x.2 = nullValue then i + 1 else i) b x.1 r)
        pure (h, x.2)
      else if v < value then do
        let x ← insert value r
        let h ← insertFixUp (node v i b l x.1)
        pure (h, x.2)
      else do
        let h ← insertFixUp (node value i b l r)
        pure (h, v)

def prepareLeft (h : Node) : Op Node :=
  if !h.left.isRed && !h.left.left.isRed then moveRedLeft h else pure h

/-- The step to the left in the three deletions: the left subtree becomes what `f` makes of it, and the index
is lowered where `lower` says so. -/
def deleteLeft (f : Node → Op (Node × UInt64)) (lower : UInt64 → Bool) (h : Node) :
    Op (Node × UInt64) := do
  match ← prepareLeft h with
  | node v i b l r => do
      let x ← f l
      let h ← fixUp (node v (if lower x.2 then i - 1 else i) b x.1 r)
      pure (h, x.2)
  | nil => failure

def deleteMin : ℕ → Node → Op (Node × UInt64)
  | 0, _ => failure
  | _ + 1, nil => pure (nil, nullValue)
  | _ + 1, node v _ _ nil _ => pure (nil, v)
  | fuel + 1, h => deleteLeft (deleteMin fuel) (fun _ => true) h

def turnRight (h : Node) : Op Node := if h.left.isRed then rotateRight h else pure h

def prepareRight (h : Node) : Op Node :=
  if h.right ≠ nil && !h.right.isRed && !h.right.left.isRed then moveRedRight h else pure h

/-- The rest of the step to the right: the word to delete is replaced by the next one, or looked for in the
right subtree. -/
def goRight (here : UInt64 → ℤ → Bool) (f : ℤ → Node → Op (Node × UInt64)) (fuel : ℕ) :
    Node → Op (Node × UInt64)
  | node v i b l r =>
      if here v i then do
        let x ← deleteMin fuel r
        let h ← fixUp (node x.2 i b l x.1)
        pure (h, v)
      else do
        let x ← f i r
        let h ← fixUp (node v i b l x.1)
        pure (h, x.2)
  | nil => failure

/-- The step to the right in `delete` and `deleteAt`: `here` says of a node's value and index that it is the
one to delete, `f` goes on in the right subtree and is given the index. -/
def deleteRight (here : UInt64 → ℤ → Bool) (f : ℤ → Node → Op (Node × UInt64)) (fuel : ℕ) (h : Node) :
    Op (Node × UInt64) := do
  match ← turnRight h with
  | node v i b l r =>
      if here v i && r = nil then pure (nil, v)
      else prepareRight (node v i b l r) >>= goRight here f fuel
  | nil => failure

def delete (value : UInt64) : ℕ → Node → Op (Node × UInt64)
  | 0, _ => failure
  | _ + 1, nil => pure (nil, nullValue)
  | fuel + 1, node v i b l r =>
      if value < v then
        if l = nil then pure (node v i b l r, nullValue)
        else deleteLeft (delete value fuel) (· != nullValue) (node v i b l r)
      else deleteRight (fun v _ => v == value) (fun _ => delete value fuel) fuel (node v i b l r)

def deleteAt : ℕ → ℤ → Node → Op (Node × UInt64)
  | 0, _, _ => failure
  | _ + 1, _, nil => pure (nil, nullValue)
  | fuel + 1, idx, node v i b l r =>
      if idx < i then
        if l = nil then failure
        else deleteLeft (deleteAt fuel idx) (fun _ => true) (node v i b l r)
      else
        deleteRight (fun _ i => i == idx) (fun i => deleteAt fuel (idx - i - 1)) fuel (node v i b l r)

def getByIndex : Node → ℤ → Option Node
  | nil, _ => none
  | node v i b l r, idx =>
      if idx = i then some (node v i b l r)
      else if idx < i then getByIndex l idx
      else getByIndex r (idx - i - 1)

/-- The computation does not stop, whatever the statistics, and its result satisfies `P`. -/
def Yields {α : Type} (m : Op α) (P : α → Prop) : Prop :=
  ∀ stats, ∃ a stats', m stats = some (a, stats') ∧ P a

theorem yields_pure {α : Type} {a : α} {P : α → Prop} (h : P a) : Yields (pure a) P :=
  fun stats => ⟨a, stats, rfl, h⟩

theorem Yields.bind {α β : Type} {m : Op α} {f : α → Op β} {P : α → Prop} {Q : β → Prop}
    (h : Yields m P) (hf : ∀ a, P a → Yields (f a) Q) : Yields (m >>= f) Q := by
  intro stats
  obtain ⟨a, stats', hm, ha⟩ := h stats
  obtain ⟨b, stats'', hb, hQ⟩ := hf a ha stats'
  refine ⟨b, stats'', ?_, hQ⟩
  show (m stats).bind (fun x => f x.1 x.2) = _
  rw [hm]
  exact hb

theorem Yields.imp {α : Type} {m : Op α} {P Q : α → Prop} (h : Yields m P) (hPQ : ∀ a, P a → Q a) :
    Yields m Q := by
  intro stats
  obtain ⟨a, stats', hm, ha⟩ := h stats
  exact ⟨a, stats', hm, hPQ a ha⟩

def Becomes (x : Op Node) (h : Node) : Prop := Yields x (· = h)

theorem Becomes.of_eq_pure {x : Op Node} {h : Node} (hx : x = pure h) : Becomes x h :=
  hx ▸ yields_pure rfl

/-- A subtree without red right links and without two red links in a row; `red` says whether the link to it
is red, and the number is its black height.  Every index is the number of words to the left. -/
inductive Bal : Node → (red : Bool) → ℕ → Prop
  | nil : Bal nil false 0
  | red {v i l r m} (hi : i = (l.toList.length : ℤ)) (hl : Bal l false m) (hr : Bal r false m) :
      Bal (node v i false l r) true m
  | black {v i l r c m} (hi : i = (l.toList.length : ℤ)) (hl : Bal l c m) (hr : Bal r false m) :
      Bal (node v i true l r) false (m + 1)

variable {h l r : Node} {v : UInt64} {i : ℤ} {c cl cr : Bool} {m n : ℕ}

theorem Bal.isRed (hb : Bal h c n) : h.isRed = c := by
  cases hb with
  | nil => rfl
  | red hi hl hr => rfl
  | black hi hl hr => rfl

theorem Bal.left_isRed (hb : Bal h c n) : (h.isRed && h.left.isRed) = false := by
  cases hb with
  | nil => rfl
  | red hi hl hr => exact hl.isRed
  | black hi hl hr => rfl

theorem Bal.eq_nil (hb : Bal h false 0) : h = Node.nil := by
  cases hb
  rfl

variable {b : Bool} {a s' a' : List UInt64} {P : Node → Prop} {d xv w : UInt64} {idx xi : ℤ}
  {xl xr : Node}

theorem yields_rotateLeft
    (hP : P (node xv (xi + (i + 1)) b (node v i false l xl) xr)) :
    Yields (rotateLeft (node v i b l (node xv xi false xl xr))) P :=
  fun _ => ⟨_, _, rfl, hP⟩

theorem yields_rotateRight
    (hP : P (node xv xi b xl (node v (i - (xi + 1)) false xr r))) :
    Yields (rotateRight (node v i b (node xv xi false xl xr) r)) P :=
  fun _ => ⟨_, _, rfl, hP⟩

theorem rotated_left {rv : UInt64} {ri : ℤ} {rl rr : Node}
    (hi : i = (l.toList.length : ℤ)) (hri : ri = (rl.toList.length : ℤ)) :
    ri + (i + 1) = ((node v i b l rl).toList.length : ℤ) ∧
      (node rv (ri + (i + 1)) b (node v i false l rl) rr).toList =
        l.toList ++ v :: (node rv ri false rl rr).toList := by
  subst hi hri
  simp only [toList, List.length_append, List.length_cons, List.append_assoc, List.cons_append, and_true]
  omega

theorem fixUp_same (hl : Bal l cl m) (hr : Bal r false m) :
    fixUp (node v i b l r) = pure (node v i b l r) := by
  simp [fixUp, -Bool.and_eq_true, hl.left_isRed, hr.isRed]

theorem fixUp_turn {rv : UInt64} {ri : ℤ} {rl rr : Node} (hl : l.isRed = false)
    (hrr : rr.isRed = false) : Becomes (fixUp (node v i b l (node rv ri false rl rr)))
      (node rv (ri + (i + 1)) b (node v i false l rl) rr) := by
  unfold fixUp
  simp only [right_node, isRed_node, Bool.not_false, if_true]
  refine (yields_rotateLeft rfl).bind ?_
  rintro _ rfl
  simp only [left_node, right_node, isRed_node, hl, hrr, Bool.not_false, Bool.and_false,
    Bool.false_eq_true, if_false, pure_bind]
  exact yields_pure rfl

theorem fixUp_black (hi : i = (l.toList.length : ℤ)) (hl : Bal l cl m) (hr : Bal r cr m) :
    Yields (fixUp (node v i true l r)) fun h =>
      Bal h (cl && cr) (m + 1) ∧ h.toList = l.toList ++ v :: r.toList := by
  cases hr with
  | nil =>
    rw [fixUp_same hl .nil, Bool.and_false]
    exact yields_pure ⟨.black hi hl .nil, rfl⟩
  | black hri hrl hrr =>
    rw [fixUp_same hl (.black hri hrl hrr), Bool.and_false]
    exact yields_pure ⟨.black hi hl (.black hri hrl hrr), rfl⟩
  | @red rv ri rl rr _ hri hrl hrr =>
    obtain ⟨hidx, hlist⟩ := @rotated_left l v i true rv ri rl rr hi hri
    rcases cl with _ | _
    · exact (fixUp_turn hl.isRed hrr.isRed).imp fun _ hh => hh ▸ ⟨.black hidx (.red hi hl hrl) hrr, hlist⟩
    cases hl with
    | @red lv li ll lr _ hli hll hlr =>
      unfold fixUp
      simp only [right_node, isRed_node, Bool.not_false, if_true]
      refine (yields_rotateLeft rfl).bind ?_
      rintro _ rfl
      -- the rotation to the left is taken back by the one to the right
      simp only [left_node, isRed_node, Bool.not_false, Bool.and_self, if_true]
      refine (yields_rotateRight rfl).bind ?_
      rintro _ rfl
      simp only [left_node, right_node, isRed_node, Bool.not_false, Bool.and_self, if_true]
      refine yields_pure ⟨.red hi (.black hli hll hlr) (.black ?_ hrl hrr), ?_⟩
      · omega
      · simp [toList]

/-! ### Insertion -/

/-- The result of an insertion: it may be a red node with a red left link, if `p`. -/
inductive Semi (p : Prop) : Node → ℕ → Prop
  | bal {h : Node} {c : Bool} {n : ℕ} (hb : Bal h c n) : Semi p h n
  | redRed {v : UInt64} {i : ℤ} {l r : Node} {m : ℕ} (hp : p) (hi : i = (l.toList.length : ℤ))
      (hl : Bal l true m) (hr : Bal r false m) : Semi p (node v i false l r) m

theorem insertFixUp_eq (hone : (l.isRed && r.isRed) = false) :
    insertFixUp (node v i b l r) = fixUp (node v i b l r) := by
  have htest : (r.isRed && !l.isRed) = r.isRed := by
    revert hone
    cases l.isRed <;> simp
  simp only [insertFixUp, fixUp, left_node, right_node, htest]

theorem insertFixUp_red (hi : i = (l.toList.length : ℤ)) (hl : Bal l cl m) (hr : Bal r cr m)
    (hone : (cl && cr) = false) : Yields (insertFixUp (node v i false l r)) fun h =>
      Semi True h m ∧ h.toList = l.toList ++ v :: r.toList := by
  rw [insertFixUp_eq (by rw [hl.isRed, hr.isRed, hone])]
  cases cr with
  | false =>
    rw [fixUp_same hl hr]
    cases cl with
    | false => exact yields_pure ⟨.bal (.red hi hl hr), rfl⟩
    | true => exact yields_pure ⟨.redRed trivial hi hl hr, rfl⟩
  | true =>
    obtain rfl : cl = false := by simpa using hone
    cases hr with
    | @red rv ri rl rr _ hri hrl hrr =>
      obtain ⟨hidx, hlist⟩ := @rotated_left l v i false rv ri rl rr hi hri
      exact (fixUp_turn hl.isRed hrr.isRed).imp fun _ hh =>
        hh ▸ ⟨.redRed trivial hidx (.red hi hl hrl) hrr, hlist⟩

theorem insertFixUp_black (hi : i = (l.toList.length : ℤ)) (hl : Semi (cr = false) l m)
    (hr : Bal r cr m) : Yields (insertFixUp (node v i true l r)) fun h =>
      (∃ c, Bal h c (m + 1)) ∧ h.toList = l.toList ++ v :: r.toList := by
  cases hl with
  | @redRed lv li ll lr _ hcr hli hll hlr =>
    subst hcr
    cases hll with
    | @red xv xi xl xr _ hxi hxl hxr =>
      unfold insertFixUp
      simp only [left_node, right_node, isRed_node, hr.isRed, Bool.not_false, Bool.false_and, Bool.and_self,
        Bool.false_eq_true, if_false, if_true, pure_bind]
      refine (yields_rotateRight rfl).bind ?_
      rintro _ rfl
      simp only [left_node, right_node, isRed_node, Bool.not_false, Bool.and_self, if_true]
      refine yields_pure ⟨⟨_, .red hli (.black hxi hxl hxr) (.black ?_ hlr hr)⟩, ?_⟩
      · simp only [toList, List.length_append, List.length_cons] at hi hli ⊢
        omega
      · simp [toList]
  | @bal _ cl _ hl =>
    cases hone : cl && cr with
    | false =>
      rw [insertFixUp_eq (by rw [hl.isRed, hr.isRed, hone])]
      exact (fixUp_black hi hl hr).imp fun _ hh => ⟨⟨_, hh.1⟩, hh.2⟩
    | true =>
      obtain ⟨rfl, rfl⟩ : cl = true ∧ cr = true := by simpa using hone
      cases hl with
      | @red lv li ll lr _ hli hll hlr =>
        cases hr with
        | @red rv ri rl rr _ hri hrl hrr =>
          unfold insertFixUp
          simp only [left_node, right_node, isRed_node, hll.isRed, Bool.not_false, Bool.not_true,
            Bool.and_false, Bool.and_self, Bool.false_eq_true, if_false, if_true, pure_bind]
          exact yields_pure ⟨⟨_, .red hi (.black hli hll hlr) (.black hri hrl hrr)⟩, rfl⟩

def insertSorted (k : UInt64) : List UInt64 → List UInt64
  | [] => [k]
  | x :: xs => if k < x then k :: x :: xs else if x < k then x :: insertSorted k xs else x :: xs

variable {k : UInt64}

theorem insertSorted_left (hk : k < v) (a s : List UInt64) :
    insertSorted k (a ++ v :: s) = insertSorted k a ++ v :: s := by
  induction a with
  | nil => simp [insertSorted, hk]
  | cons x a ih =>
    rw [List.cons_append, insertSorted, insertSorted, ih]
    split_ifs <;> rfl

theorem insertSorted_right (ha : ∀ x ∈ a, x < k) (s : List UInt64) :
    insertSorted k (a ++ s) = a ++ insertSorted k s := by
  induction a with
  | nil => rfl
  | cons x a ih =>
    rw [List.forall_mem_cons] at ha
    rw [List.cons_append, insertSorted, if_neg (UInt64.lt_asymm ha.1), if_pos ha.1, ih ha.2, List.cons_append]

variable {s : List UInt64}

theorem mem_insertSorted {k x : UInt64} : x ∈ insertSorted k s ↔ x = k ∨ x ∈ s := by
  induction s with
  | nil => simp [insertSorted]
  | cons y s ih =>
    rw [insertSorted]
    split_ifs <;> grind

theorem pairwise_insertSorted (hs : s.Pairwise (· < ·)) : (insertSorted k s).Pairwise (· < ·) := by
  induction s with
  | nil => simp [insertSorted]
  | cons y s ih =>
    rw [insertSorted]
    obtain ⟨hy, hs⟩ := List.pairwise_cons.mp hs
    split_ifs with hk hk'
    · exact List.pairwise_cons.mpr ⟨by grind, List.pairwise_cons.mpr ⟨hy, hs⟩⟩
    · refine List.pairwise_cons.mpr ⟨fun x hx => ?_, ih hs⟩
      rcases mem_insertSorted.mp hx with rfl | hx
      · exact hk'
      · exact hy x hx
    · exact List.pairwise_cons.mpr ⟨hy, hs⟩

def found (k : UInt64) (s : List UInt64) : UInt64 := if k ∈ s then k else nullValue

theorem sorted_parts {s : List UInt64} (hs : (a ++ v :: s).Pairwise (· < ·)) :
    a.Pairwise (· < ·) ∧ s.Pairwise (· < ·) ∧ (∀ x ∈ a, x < v) ∧ ∀ x ∈ s, v < x := by
  obtain ⟨ha, hvs, hlt⟩ := List.pairwise_append.mp hs
  obtain ⟨hv, hs⟩ := List.pairwise_cons.mp hvs
  exact ⟨ha, hs, fun x hx => hlt x hx v List.mem_cons_self, hv⟩

theorem found_left {s : List UInt64} (hs : (a ++ v :: s).Pairwise (· < ·)) (hk : k < v) :
    found k (a ++ v :: s) = found k a := by
  obtain ⟨-, -, -, hgt⟩ := sorted_parts hs
  have hmem : k ∈ a ++ v :: s ↔ k ∈ a := by grind
  simp only [found, hmem]

theorem found_right {s : List UInt64} (hs : (a ++ v :: s).Pairwise (· < ·)) (hk : v < k) :
    found k (a ++ v :: s) = found k s := by
  obtain ⟨-, -, hlt, -⟩ := sorted_parts hs
  have hmem : k ∈ a ++ v :: s ↔ k ∈ s := by grind
  simp only [found, hmem]

theorem index_insertSorted (hk : k ≠ nullValue) (hs : s.Pairwise (· < ·)) :
    (if found k s = nullValue then (s.length : ℤ) + 1 else s.length) = (insertSorted k s).length := by
  have hlen : (insertSorted k s).length = if k ∈ s then s.length else s.length + 1 := by
    induction s with
    | nil => simp [insertSorted]
    | cons x s ih =>
      obtain ⟨hx, hs⟩ := List.pairwise_cons.mp hs
      have := ih hs
      rw [insertSorted]
      split_ifs <;> grind
  rw [hlen, found]
  by_cases hmem : k ∈ s
  · simp [hmem, hk]
  · simp [hmem]

/-- Insertion gives a tree that satisfies `P`, inserts into the list and says what was there. -/
def Inserts (k : UInt64) (h : Node) (P : Node → Prop) : Prop :=
  Yields (insert k h) fun x => P x.1 ∧ x.1.toList = insertSorted k h.toList ∧ x.2 = found k h.toList

theorem insert_node (hk : k ≠ nullValue) (hi : i = (l.toList.length : ℤ))
    (hs : (node v i b l r).toList.Pairwise (· < ·)) {L R Q : Node → Prop}
    (hl : l.toList.Pairwise (· < ·) → Inserts k l L) (hr : r.toList.Pairwise (· < ·) → Inserts k r R)
    (hleft : ∀ l' i', L l' → i' = (l'.toList.length : ℤ) → Yields (insertFixUp (node v i' b l' r))
      fun h => Q h ∧ h.toList = l'.toList ++ v :: r.toList)
    (hright : ∀ r', R r' → Yields (insertFixUp (node v i b l r'))
      fun h => Q h ∧ h.toList = l.toList ++ v :: r'.toList)
    (hsame : Yields (insertFixUp (node v i b l r)) fun h => Q h ∧ h.toList = l.toList ++ v :: r.toList) :
    Inserts k (node v i b l r) Q := by
  unfold Inserts
  rw [toList] at hs ⊢
  obtain ⟨hsl, hsr, hlt, hgt⟩ := sorted_parts hs
  unfold insert
  by_cases hkv : k < v
  · rw [if_pos hkv, insertSorted_left hkv, found_left hs hkv]
    refine (hl hsl).bind ?_
    rintro ⟨l', d⟩ ⟨hL, hlist, rfl⟩
    refine (hleft l' _ hL ?_).bind fun h' hh' => yields_pure ⟨hh'.1, ?_, rfl⟩
    · rw [hi, hlist]
      exact index_insertSorted hk hsl
    · rw [hh'.2, hlist]
  rw [if_neg hkv]
  by_cases hvk : v < k
  · have hbelow : ∀ x ∈ l.toList ++ [v], x < k := by grind
    have hsplit : ∀ s, l.toList ++ v :: s = (l.toList ++ [v]) ++ s := by simp
    rw [if_pos hvk, found_right hs hvk, hsplit, insertSorted_right hbelow]
    refine (hr hsr).bind ?_
    rintro ⟨r', d⟩ ⟨hR, hlist, rfl⟩
    refine (hright r' hR).bind fun h' hh' => yields_pure ⟨hh'.1, ?_, rfl⟩
    rw [hh'.2, hlist, hsplit]
  · obtain rfl : k = v := by grind
    have hinsert : insertSorted k (l.toList ++ k :: r.toList) = l.toList ++ k :: r.toList := by
      rw [insertSorted_right hlt, insertSorted, if_neg hkv, if_neg hkv]
    rw [if_neg hvk, hinsert]
    refine hsame.bind fun h' hh' => yields_pure ⟨hh'.1, hh'.2, ?_⟩
    simp [found]

theorem Semi.imp {p q : Prop} (hpq : p → q) (hs : Semi p h n) : Semi q h n := by
  cases hs with
  | bal hb => exact .bal hb
  | redRed hp hi hl hr => exact .redRed (hpq hp) hi hl hr

theorem Semi.bal_of_not {p : Prop} (hp : ¬p) (hs : Semi p h n) : ∃ c, Bal h c n := by
  cases hs with
  | bal hb => exact ⟨_, hb⟩
  | redRed hp' hi hl hr => exact absurd hp' hp

/-- **Insertion** keeps the shape but for a red link below a red one, and inserts into the list. -/
theorem insert_spec (hk : k ≠ nullValue) (hb : Bal h c n)
    (hs : h.toList.Pairwise (· < ·)) : Inserts k h (Semi (c = true) · n) := by
  induction hb with
  | nil => exact yields_pure ⟨.bal (.red rfl .nil .nil), rfl, rfl⟩
  | red hi hl hr ihl ihr =>
    have hred : ∀ {h n}, Semi True h n → Semi (true = true) h n := fun hh => hh.imp fun _ => rfl
    refine insert_node hk hi hs ihl ihr (fun l' i' hl' hi' => ?_) (fun r' hr' => ?_) ?_
    · obtain ⟨c', hl'⟩ := hl'.bal_of_not Bool.false_ne_true
      exact (insertFixUp_red hi' hl' hr (Bool.and_false _)).imp fun _ hh => ⟨hred hh.1, hh.2⟩
    · obtain ⟨c', hr'⟩ := hr'.bal_of_not Bool.false_ne_true
      exact (insertFixUp_red hi hl hr' (Bool.false_and _)).imp fun _ hh => ⟨hred hh.1, hh.2⟩
    · exact (insertFixUp_red hi hl hr (Bool.false_and _)).imp fun _ hh => ⟨hred hh.1, hh.2⟩
  | black hi hl hr ihl ihr =>
    refine insert_node hk hi hs ihl ihr (fun l' i' hl' hi' => ?_) (fun r' hr' => ?_) ?_
    · refine (insertFixUp_black hi' (hl'.imp fun _ => rfl) hr).imp fun _ hh => ⟨?_, hh.2⟩
      exact hh.1.elim fun _ hb => .bal hb
    · obtain ⟨c', hr'⟩ := hr'.bal_of_not Bool.false_ne_true
      refine (insertFixUp_black hi (.bal hl) hr').imp fun _ hh => ⟨?_, hh.2⟩
      exact hh.1.elim fun _ hb => .bal hb
    · refine (insertFixUp_black hi (.bal hl) hr).imp fun _ hh => ⟨?_, hh.2⟩
      exact hh.1.elim fun _ hb => .bal hb

/-! ### Deletion -/

/-- A subtree that a deletion can go into: the link to it or its left link is red. -/
inductive Ready : Node → (red : Bool) → ℕ → Prop
  | red {h : Node} {n : ℕ} (hb : Bal h true n) : Ready h true n
  | black {v : UInt64} {i : ℤ} {l r : Node} {m : ℕ} (hi : i = (l.toList.length : ℤ)) (hl : Bal l true m)
      (hr : Bal r false m) : Ready (node v i true l r) false (m + 1)

/-- The computation removes from `h` as `R` says of the list before, the list after and the answer; the black
height stays, and a black subtree does not become red. -/
def Removes (R : List UInt64 → List UInt64 → UInt64 → Prop) (h : Node) (c : Bool) (n : ℕ)
    (x : Op (Node × UInt64)) : Prop :=
  Yields x fun y => ∃ c', Bal y.1 c' n ∧ (c' = true → c = true) ∧ R h.toList y.1.toList y.2

theorem fixUp_spec (hi : i = (l.toList.length : ℤ)) (hl : Bal l cl m) (hr : Bal r cr m)
    (hb : b = false → cl = false ∧ cr = false) :
    Yields (fixUp (node v i b l r)) fun h => ∃ c, Bal h c (if b then m + 1 else m) ∧
      (c = true → b = true → cl = true ∧ cr = true) ∧ h.toList = l.toList ++ v :: r.toList := by
  cases b with
  | true =>
    refine (fixUp_black hi hl hr).imp fun h hh => ⟨_, hh.1, fun hc _ => ?_, hh.2⟩
    simpa using hc
  | false =>
    obtain ⟨rfl, rfl⟩ := hb rfl
    rw [fixUp_same hl hr]
    exact yields_pure ⟨true, .red hi hl hr, nofun, rfl⟩

section Left

variable {R R' : List UInt64 → List UInt64 → UInt64 → Prop} {f : Node → Op (Node × UInt64)}
  {lower : UInt64 → Bool} {b : Bool}

theorem moveRedLeft_flip {lv rv : UInt64} {li ri : ℤ} {ll lr rl rr : Node} (h : rl.isRed = false) :
    Becomes (moveRedLeft (node v i false (node lv li true ll lr) (node rv ri true rl rr)))
      (node v i true (node lv li false ll lr) (node rv ri false rl rr)) :=
  .of_eq_pure (by simp [moveRedLeft, flip, h])

theorem moveRedLeft_rotate {lv rv xv : UInt64} {li ri xi : ℤ} {ll lr xl xr rr : Node} :
    Becomes (moveRedLeft (node v i false (node lv li true ll lr)
        (node rv ri true (node xv xi false xl xr) rr)))
      (node xv (xi + (i + 1)) false (node v i true (node lv li false ll lr) xl)
        (node rv (ri - (xi + 1)) true xr rr)) :=
  fun _ => ⟨_, _, rfl, rfl⟩

/-- The node that `h` is turned into before a deletion goes on to its left: the words are those of `h`, none
of those to the left of `h` has come to the right, and the left subtree can be gone into. -/
inductive PreparedLeft (h : Node) (c : Bool) (n : ℕ) : Node → Prop
  | intro {v : UInt64} {i : ℤ} {b : Bool} {l r : Node} {cl cr : Bool} {m : ℕ}
      (hi : i = (l.toList.length : ℤ)) (hl : Ready l cl m) (hr : Bal r cr m)
      (hb : b = false → cl = false ∧ cr = false) (hn : (if b then m + 1 else m) = n)
      (hc : c = false → b = true ∧ cr = false) (hlist : h.toList = l.toList ++ v :: r.toList)
      (hlen : h.left.toList.length ≤ l.toList.length) : PreparedLeft h c n (node v i b l r)

theorem deleteLeft_of_prepared (hprep : Yields (prepareLeft h) (PreparedLeft h c n))
    (hlower : ∀ a s d, R a s d → s.length + (if lower d then 1 else 0) = a.length)
    (hf : ∀ l' v' s c' m', Ready l' c' m' → h.toList = l'.toList ++ v' :: s →
      h.left.toList.length ≤ l'.toList.length → Removes R l' c' m' (f l'))
    (hR : ∀ a v' s a' d, h.toList = a ++ v' :: s → h.left.toList.length ≤ a.length →
      R a a' d → R' (a ++ v' :: s) (a' ++ v' :: s) d) :
    Removes R' h c n (deleteLeft f lower h) := by
  unfold deleteLeft
  refine hprep.bind ?_
  rintro _ ⟨hi, hl, hr, hb, rfl, hc, hlist, hlen⟩
  refine (hf _ _ _ _ _ hl hlist hlen).bind ?_
  rintro ⟨l', d⟩ ⟨cl', hl', hcl, hRd⟩
  dsimp only at hl' hRd
  have hlen' := hlower _ _ _ hRd
  refine (fixUp_spec ?_ hl' hr fun hbf => ⟨?_, (hb hbf).2⟩).bind fun h' hh' => ?_
  · split_ifs at hlen' ⊢ <;> omega
  · by_contra hcl'
    exact absurd (hcl (by simpa using hcl')) (by simp [(hb hbf).1])
  obtain ⟨c', hbal, hc', hlist'⟩ := hh'
  refine yields_pure ⟨c', hbal, fun hct => ?_, ?_⟩
  · by_contra hcf
    obtain ⟨hbt, hcr⟩ := hc (by simpa using hcf)
    rw [(hc' hct hbt).2] at hcr
    cases hcr
  · rw [hlist, hlist']
    exact hR _ _ _ _ _ hlist hlen hRd

/-- A red link that the deletion has come by is handed on to the left. -/
theorem prepareLeft_red (hi : i = (l.toList.length : ℤ)) (hl : Bal l false n) (hr : Bal r false n)
    (hne : l ≠ nil) :
    Yields (prepareLeft (node v i false l r)) (PreparedLeft (node v i false l r) true n) := by
  cases hl with
  | nil => exact absurd rfl hne
  | @black lv li ll lr cll k hli hll hlr =>
    cases hr with
    | @black rv ri rl rr crl _ hri hrl hrr =>
      cases cll with
      | true =>
        have hkeep : prepareLeft (node v i false (node lv li true ll lr) (node rv ri true rl rr)) =
            pure (node v i false (node lv li true ll lr) (node rv ri true rl rr)) := by
          simp [prepareLeft, hll.isRed]
        rw [hkeep]
        exact yields_pure (.intro hi (.black hli hll hlr) (.black hri hrl hrr) (fun _ => ⟨rfl, rfl⟩) rfl
          nofun rfl (Nat.le_refl _))
      | false =>
        have hmove : prepareLeft (node v i false (node lv li true ll lr) (node rv ri true rl rr)) =
            moveRedLeft (node v i false (node lv li true ll lr) (node rv ri true rl rr)) := by
          simp [prepareLeft, hll.isRed]
        rw [hmove]
        cases crl with
        | false =>
          refine (moveRedLeft_flip hrl.isRed).imp fun _ hh' => hh' ▸ ?_
          exact .intro hi (.red (.red hli hll hlr)) (.red hri hrl hrr) nofun rfl nofun rfl (Nat.le_refl _)
        | true =>
          cases hrl with
          | @red xv xi xl xr _ hxi hxl hxr =>
            -- the right child's left child comes up, with the node below it
            refine moveRedLeft_rotate.imp fun _ hh' => hh' ▸ ?_
            refine .intro ?_ (.black hi (.red hli hll hlr) hxl) (.black ?_ hxr hrr) (fun _ => ⟨rfl, rfl⟩)
              rfl nofun ?_ ?_
            all_goals simp only [toList, Node.left, List.length_append, List.length_cons, List.append_assoc,
              List.cons_append] at hi hri ⊢
            all_goals omega

/-- **The step to the left.** -/
theorem deleteLeft_spec (hh : Ready (node v i b l r) c n) (hne : l ≠ nil)
    (hlower : ∀ a s d, R a s d → s.length + (if lower d then 1 else 0) = a.length)
    (hf : ∀ l' v' s c' m', Ready l' c' m' → l.toList ++ v :: r.toList = l'.toList ++ v' :: s →
      l.toList.length ≤ l'.toList.length → Removes R l' c' m' (f l'))
    (hR : ∀ a v' s a' d, l.toList ++ v :: r.toList = a ++ v' :: s → l.toList.length ≤ a.length →
      R a a' d → R' (a ++ v' :: s) (a' ++ v' :: s) d) :
    Removes R' (node v i b l r) c n (deleteLeft f lower (node v i b l r)) := by
  refine deleteLeft_of_prepared ?_ hlower hf hR
  cases hh with
  | black hi hl hr =>
    have hkeep : prepareLeft (node v i true l r) = pure (node v i true l r) := by
      simp [prepareLeft, hl.isRed]
    rw [hkeep]
    exact yields_pure (.intro hi (.red hl) hr nofun rfl (fun _ => ⟨rfl, rfl⟩) rfl (Nat.le_refl _))
  | red hb =>
    cases hb with
    | red hi hl hr => exact prepareLeft_red hi hl hr hne

end Left

/-- **The smallest word is taken out.** -/
theorem deleteMin_spec {fuel : ℕ} (hh : Ready h c n) (hfuel : h.toList.length < fuel) :
    Removes (fun a s d => a = d :: s) h c n (deleteMin fuel h) := by
  induction fuel generalizing h c n with
  | zero => omega
  | succ fuel ih =>
    cases h with
    | nil =>
      cases hh with
      | red hb => cases hb
    | node v i b l r =>
      by_cases hl : l = nil
      · subst hl
        cases hh with
        | black hi hl hr => cases hl
        | red hb =>
          cases hb with
          | red hi hl hr =>
            cases hl with
            | nil =>
              obtain rfl := hr.eq_nil
              exact yields_pure ⟨false, .nil, nofun, rfl⟩
      · have hstep : deleteMin (fuel + 1) (node v i b l r) =
            deleteLeft (deleteMin fuel) (fun _ => true) (node v i b l r) := by
          cases l with
          | nil => exact absurd rfl hl
          | node lv li lb ll lr => rfl
        rw [hstep]
        refine deleteLeft_spec hh hl ?_ (fun l' v' s c' m' hl' hlist _ => ih hl' ?_) ?_
        · rintro a s d rfl
          rfl
        · have := congrArg List.length hlist
          simp only [toList, List.length_append, List.length_cons] at this hfuel
          omega
        · rintro a v' s a' d - - rfl
          rfl

/-- What a deletion can go into: nothing, a subtree that is ready for it, or a black node with a red right
link where it goes to the right at once. -/
inductive Entry (past : UInt64 → ℤ → Prop) : Node → (red : Bool) → ℕ → Prop
  | nil : Entry past nil false 0
  | ready {h : Node} {c : Bool} {n : ℕ} (hh : Ready h c n) : Entry past h c n
  | lean {v : UInt64} {i : ℤ} {l r : Node} {m : ℕ} (hp : past v i) (hi : i = (l.toList.length : ℤ))
      (hl : Bal l false m) (hr : Bal r true m) : Entry past (node v i true l r) false (m + 1)

section Right

variable {R' : List UInt64 → List UInt64 → UInt64 → Prop}
  {R : List UInt64 → UInt64 → List UInt64 → List UInt64 → UInt64 → Prop}
  {here : UInt64 → ℤ → Bool} {f : ℤ → Node → Op (Node × UInt64)} {fuel : ℕ} {b : Bool}
  {past : UInt64 → ℤ → Prop} {p : List UInt64 → UInt64 → ℤ → Prop}

theorem moveRedRight_flip {lv rv : UInt64} {li ri : ℤ} {ll lr rl rr : Node} (h : ll.isRed = false) :
    Becomes (moveRedRight (node v i false (node lv li true ll lr) (node rv ri true rl rr)))
      (node v i true (node lv li false ll lr) (node rv ri false rl rr)) :=
  .of_eq_pure (by simp [moveRedRight, flip, h])

theorem moveRedRight_rotate {lv rv xv : UInt64} {li ri xi : ℤ} {lr xl xr rl rr : Node} :
    Becomes (moveRedRight (node v i false (node lv li true (node xv xi false xl xr) lr)
        (node rv ri true rl rr))) (node lv li false (node xv xi true xl xr)
        (node v (i - (li + 1)) true lr (node rv ri false rl rr))) :=
  fun _ => ⟨_, _, rfl, rfl⟩

theorem goRight_spec (hi : i = (l.toList.length : ℤ)) (hl : Bal l cl m)
    (hb : b = false → cl = false ∧ cr = false) (hfuel : r.toList.length < fuel)
    (hhere : here v i = true → Ready r cr m)
    (hf : here v i = false → Removes (R l.toList v) r cr m (f i r)) :
    Yields (goRight here f fuel (node v i b l r)) fun y => ∃ c, Bal y.1 c (if b then m + 1 else m) ∧
      (c = true → b = true → cl = true) ∧
      ((here v i = true ∧ y.2 = v ∧ y.1.toList = l.toList ++ r.toList) ∨
        (here v i = false ∧ ∃ s, R l.toList v r.toList s y.2 ∧ y.1.toList = l.toList ++ v :: s)) := by
  have hblack : ∀ {c' : Bool}, (c' = true → cr = true) → b = false → cl = false ∧ c' = false := by
    intro c' hc' hbf
    refine ⟨(hb hbf).1, ?_⟩
    by_contra hne
    exact absurd (hc' (by simpa using hne)) (by simp [(hb hbf).2])
  cases hv : here v i with
  | true =>
    simp only [goRight, hv, if_true]
    refine (deleteMin_spec (hhere hv) hfuel).bind ?_
    rintro ⟨r', d⟩ ⟨c', hr', hc', hlist⟩
    refine (fixUp_spec hi hl hr' (hblack hc')).bind fun h' hh' => ?_
    obtain ⟨c'', hbal, hc'', hlist'⟩ := hh'
    refine yields_pure ⟨c'', hbal, fun hc hb => (hc'' hc hb).1, .inl ⟨trivial, rfl, ?_⟩⟩
    rw [hlist', hlist]
  | false =>
    simp only [goRight, hv, Bool.false_eq_true, if_false]
    refine (hf hv).bind ?_
    rintro ⟨r', d⟩ ⟨c', hr', hc', hR⟩
    refine (fixUp_spec hi hl hr' (hblack hc')).bind fun h' hh' => ?_
    obtain ⟨c'', hbal, hc'', hlist'⟩ := hh'
    exact yields_pure ⟨c'', hbal, fun hc hb => (hc'' hc hb).1, .inr ⟨trivial, _, hR, hlist'⟩⟩

/-- The node that `h` is turned into before a deletion goes on to its right: the words are those of `h`, none
of those to the right of `h` has come to the left, and the right subtree can be gone into. -/
inductive Prepared (here : UInt64 → ℤ → Bool) (p : List UInt64 → UInt64 → ℤ → Prop) (h : Node)
    (c : Bool) (n : ℕ) : Node → Prop
  | intro {v : UInt64} {i : ℤ} {b : Bool} {l r : Node} {cl cr : Bool} {m : ℕ}
      (hi : i = (l.toList.length : ℤ)) (hl : Bal l cl m) (hr : Entry (p l.toList) r cr m)
      (hhere : here v i = true → Ready r cr m) (hb : b = false → cl = false ∧ cr = false)
      (hn : (if b then m + 1 else m) = n) (hc : c = false → b = true ∧ cl = false)
      (hlist : h.toList = l.toList ++ v :: r.toList) (hlen : l.toList.length ≤ h.left.toList.length) :
      Prepared here p h c n (node v i b l r)

/-- **From the prepared node on.** -/
theorem Prepared.goRight {h' : Node} (hprep : Prepared here p h c n h') (hfuel : h.toList.length ≤ fuel)
    (hf : ∀ a v' r' c' m', h.toList = a ++ v' :: r'.toList → a.length ≤ h.left.toList.length →
      here v' a.length = false → Entry (p a) r' c' m' → Removes (R a v') r' c' m' (f a.length r'))
    (hhere : ∀ a v' s, h.toList = a ++ v' :: s → here v' a.length = true → R' (a ++ v' :: s) (a ++ s) v')
    (hR : ∀ a v' s s' d, h.toList = a ++ v' :: s → a.length ≤ h.left.toList.length →
      here v' a.length = false → R a v' s s' d → R' (a ++ v' :: s) (a ++ v' :: s') d) :
    Removes R' h c n (goRight here f fuel h') := by
  obtain ⟨rfl, hl, hr, hready, hb, rfl, hc, hlist, hlen⟩ := hprep
  have hless := congrArg List.length hlist
  rw [List.length_append, List.length_cons] at hless
  refine (goRight_spec rfl hl hb (by omega) hready fun hv => hf _ _ _ _ _ hlist hlen hv hr).imp ?_
  rintro y ⟨c', hbal, hc', hres⟩
  refine ⟨c', hbal, fun hct => ?_, ?_⟩
  · by_contra hcf
    obtain ⟨hbt, hclf⟩ := hc (by simpa using hcf)
    rw [hc' hct hbt] at hclf
    cases hclf
  · rw [hlist]
    rcases hres with ⟨hv, hd, hl⟩ | ⟨hv, s, hRs, hl⟩
    · rw [hd, hl]
      exact hhere _ _ _ hlist hv
    · rw [hl]
      exact hR _ _ _ _ _ hlist hlen hv hRs

theorem prepareRight_of_red (hr : h.right.isRed = true) : prepareRight h = pure h := by
  simp [prepareRight, hr]

theorem ne_nil_of_red (hr : h.isRed = true) : h ≠ nil := by
  rintro rfl
  cases hr

/-- A red link that the deletion has come by is handed on to the right. -/
theorem prepareRight_red {rv : UInt64} {ri : ℤ} {rl rr : Node} (hi : i = (l.toList.length : ℤ))
    (hl : Bal l false n) (hr : Bal (node rv ri true rl rr) false n)
    (hlean : ∀ a : List UInt64, p a v (i - (a.length + 1)))
    (hbefore : ∀ a v' s, l.toList ++ v :: (node rv ri true rl rr).toList = a ++ v' :: s →
      a.length < l.toList.length → here v' a.length = false) :
    Yields (prepareRight (node v i false l (node rv ri true rl rr)))
      (Prepared here p (node v i false l (node rv ri true rl rr)) true n) := by
  cases hr with
  | @black _ _ _ _ crl k hri hrl hrr =>
    cases crl with
    | true =>
      have hkeep : prepareRight (node v i false l (node rv ri true rl rr)) =
          pure (node v i false l (node rv ri true rl rr)) := by
        simp [prepareRight, hrl.isRed]
      rw [hkeep]
      exact yields_pure (.intro hi hl (.ready (.black hri hrl hrr)) (fun _ => .black hri hrl hrr)
        (fun _ => ⟨rfl, rfl⟩) rfl nofun rfl (Nat.le_refl _))
    | false =>
      have hmove : prepareRight (node v i false l (node rv ri true rl rr)) =
          moveRedRight (node v i false l (node rv ri true rl rr)) := by
        simp [prepareRight, hrl.isRed]
      rw [hmove]
      cases hl with
      | @black lv li ll lr cll _ hli hll hlr =>
        have hright := Bal.red (v := rv) hri hrl hrr
        cases cll with
        | false =>
          refine (moveRedRight_flip hll.isRed).imp fun _ hh' => hh' ▸ ?_
          exact .intro hi (.red hli hll hlr) (.ready (.red hright)) (fun _ => .red hright) nofun rfl nofun rfl
            (Nat.le_refl _)
        | true =>
          cases hll with
          | @red xv xi xl xr _ hxi hxl hxr =>
            -- the left child comes up, and the node itself leans to the right below it
            refine moveRedRight_rotate.imp fun _ hh' => hh' ▸ ?_
            have hnot : here lv li = false := by
              rw [hli]
              refine hbefore _ _ (lr.toList ++ v :: (node rv ri true rl rr).toList) ?_ ?_
              all_goals simp [toList]
            have hpast : p (node xv xi true xl xr).toList v (i - (li + 1)) := by
              rw [hli]
              exact hlean _
            refine .intro hli (.black hxi hxl hxr) (.lean hpast ?_ hlr hright) (by simp [hnot])
              (fun _ => ⟨rfl, rfl⟩) rfl nofun ?_ ?_
            · simp only [toList, List.length_append, List.length_cons] at hi hli ⊢
              omega
            all_goals simp [toList]

/-- **The step to the right.** -/
theorem deleteRight_spec (hh : Entry past (node v i b l r) c n)
    (hfuel : (node v i b l r).toList.length ≤ fuel)
    (hlean : ∀ a : List UInt64, p a v (i - (a.length + 1)))
    (hbefore : ∀ a v' s, l.toList ++ v :: r.toList = a ++ v' :: s → a.length < l.toList.length →
      here v' a.length = false)
    (hf : ∀ a v' r' c' m', l.toList ++ v :: r.toList = a ++ v' :: r'.toList →
      a.length ≤ l.toList.length → here v' a.length = false → Entry (p a) r' c' m' →
      Removes (R a v') r' c' m' (f a.length r'))
    (hhere : ∀ a v' s, l.toList ++ v :: r.toList = a ++ v' :: s → here v' a.length = true →
      R' (a ++ v' :: s) (a ++ s) v')
    (hR : ∀ a v' s s' d, l.toList ++ v :: r.toList = a ++ v' :: s → a.length ≤ l.toList.length →
      here v' a.length = false → R a v' s s' d → R' (a ++ v' :: s) (a ++ v' :: s') d) :
    Removes R' (node v i b l r) c n (deleteRight here f fuel (node v i b l r)) := by
  have hgo : ∀ {h' : Node}, Prepared here p (node v i b l r) c n h' →
      Removes R' (node v i b l r) c n (goRight here f fuel h') :=
    fun hprep => hprep.goRight hfuel hf hhere hR
  have hturn : l.isRed = false → turnRight (node v i b l r) = pure (node v i b l r) := by
    intro hred
    simp [turnRight, hred]
  unfold deleteRight
  cases hh with
  | lean hp hi hl hr =>
    rw [hturn hl.isRed, pure_bind]
    dsimp only
    rw [decide_eq_false (ne_nil_of_red hr.isRed), Bool.and_false, if_neg Bool.false_ne_true,
      @prepareRight_of_red (node v i true l r) hr.isRed, pure_bind]
    exact hgo (.intro hi hl (.ready (.red hr)) (fun _ => .red hr) nofun rfl (fun _ => ⟨rfl, rfl⟩) rfl
      (Nat.le_refl _))
  | ready hh =>
    cases hh with
    | black hi hl hr =>
      cases hl with
      | @red lv li ll lr _ hli hll hlr =>
        have hturn : Becomes (turnRight (node v i true (node lv li false ll lr) r))
            (node lv li true ll (node v (i - (li + 1)) false lr r)) := fun _ => ⟨_, _, rfl, rfl⟩
        have hidx : i - (li + 1) = (lr.toList.length : ℤ) := by
          simp only [toList, List.length_append, List.length_cons] at hi
          omega
        have hright := Bal.red (v := v) hidx hlr hr
        refine Yields.bind hturn ?_
        rintro _ rfl
        dsimp only
        rw [decide_eq_false (ne_nil_of_red rfl), Bool.and_false, if_neg Bool.false_ne_true,
          prepareRight_of_red rfl, pure_bind]
        refine hgo (.intro hli hll (.ready (.red hright)) (fun _ => .red hright) nofun rfl
          (fun _ => ⟨rfl, rfl⟩) ?_ ?_)
        all_goals simp [toList]
    | red hb =>
      cases hb with
      | red hi hl hr =>
        rw [hturn hl.isRed, pure_bind]
        cases r with
        | nil =>
          -- a red node without a right child is a leaf
          cases hr
          obtain rfl := hl.eq_nil
          obtain rfl : i = 0 := hi
          cases hv : here v 0 with
          | true =>
            simp only [hv, decide_true, Bool.and_self, if_true]
            exact yields_pure ⟨false, .nil, nofun, hhere [] v [] rfl hv⟩
          | false =>
            simp only [hv, Bool.false_and, Bool.false_eq_true, if_false]
            exact hgo (.intro rfl .nil .nil (fun hv' => nomatch hv.symm.trans hv') (fun _ => ⟨rfl, rfl⟩)
              rfl nofun rfl (Nat.le_refl _))
        | node rv ri rb rl rr =>
          obtain rfl : rb = true := by simpa using hr.isRed
          simp only [reduceCtorEq, decide_false, Bool.and_false, Bool.false_eq_true, if_false]
          exact (prepareRight_red hi hl hr hlean hbefore).bind fun _ => hgo

end Right

theorem Ready.bal (hh : Ready h c n) : Bal h c n := by
  cases hh with
  | red hb => exact hb
  | black hi hl hr => exact .black hi hl hr

theorem Entry.index {past : UInt64 → ℤ → Prop} (hh : Entry past (node v i b l r) c n) :
    i = (l.toList.length : ℤ) := by
  cases hh with
  | lean hp hi hl hr => exact hi
  | ready hh =>
    cases hh.bal with
    | red hi hl hr => exact hi
    | black hi hl hr => exact hi

theorem Entry.to_ready {past : UInt64 → ℤ → Prop} (hh : Entry past (node v i b l r) c n)
    (hp : ¬past v i) : Ready (node v i b l r) c n := by
  cases hh with
  | lean hp' hi hl hr => exact absurd hp' hp
  | ready hh => exact hh

theorem lt_of_position {s : List UInt64} (hs : (a ++ v :: s).Pairwise (· < ·))
    (heq : a ++ v :: s = a' ++ w :: s') (hlen : a.length < a'.length) : v < w := by
  rcases List.append_eq_append_iff.mp heq with ⟨x, rfl, hx⟩ | ⟨x, rfl, -⟩
  · rcases x with _ | ⟨y, x⟩
    · simp at hlen
    obtain ⟨rfl, rfl⟩ := List.cons.inj hx
    exact (sorted_parts hs).2.2.2 w (by simp)
  · rw [List.length_append] at hlen
    omega

theorem eq_of_position {s : List UInt64} (heq : a ++ v :: s = a' ++ w :: s')
    (hlen : a.length = a'.length) : v = w :=
  (List.cons.inj (List.append_inj_right heq hlen)).1

def Erases (k : UInt64) (a s : List UInt64) (d : UInt64) : Prop := s = a.erase k ∧ d = found k a

theorem Erases.length {k : UInt64} {s : List UInt64} (hk : k ≠ nullValue) (he : Erases k a s d) :
    s.length + (if d != nullValue then 1 else 0) = a.length := by
  obtain ⟨rfl, rfl⟩ := he
  by_cases hmem : k ∈ a
  · have := List.length_pos_of_mem hmem
    simp only [found, if_pos hmem, List.length_erase_of_mem hmem, bne_iff_ne, ne_eq, hk, not_false_eq_true,
      if_true]
    omega
  · simp [found, hmem, List.erase_of_not_mem hmem]

section Parts

variable {k : UInt64} {s : List UInt64}

theorem Erases.left (hs : (a ++ v :: s).Pairwise (· < ·)) (hkv : k < v) (he : Erases k a a' d) :
    Erases k (a ++ v :: s) (a' ++ v :: s) d := by
  obtain ⟨rfl, rfl⟩ := he
  obtain ⟨-, -, -, hgt⟩ := sorted_parts hs
  have hmem : k ∉ v :: s := by grind
  refine ⟨?_, (found_left hs hkv).symm⟩
  rw [List.erase_append, List.erase_of_not_mem hmem]
  split_ifs with ha
  · rfl
  · rw [List.erase_of_not_mem ha]

theorem Erases.here (hs : (a ++ v :: s).Pairwise (· < ·)) : Erases v (a ++ v :: s) (a ++ s) v := by
  obtain ⟨-, -, hlt, -⟩ := sorted_parts hs
  have hmem : v ∉ a := by grind
  refine ⟨?_, ?_⟩
  · rw [List.erase_append_right _ hmem, List.erase_cons_head]
  · simp [found]

theorem Erases.right (hs : (a ++ v :: s).Pairwise (· < ·)) (hvk : v < k) (he : Erases k s s' d) :
    Erases k (a ++ v :: s) (a ++ v :: s') d := by
  obtain ⟨rfl, rfl⟩ := he
  obtain ⟨-, -, hlt, -⟩ := sorted_parts hs
  have hmem : k ∉ a := by grind
  have hne : ¬(v == k) = true := by grind
  refine ⟨?_, (found_right hs hvk).symm⟩
  rw [List.erase_append_right _ hmem, List.erase_cons_tail hne]

end Parts

/-- **Deletion of a word.** -/
theorem delete_spec (hk : k ≠ nullValue) {fuel : ℕ} (hh : Entry (fun v _ => ¬k < v) h c n)
    (hfuel : h.toList.length < fuel) (hs : h.toList.Pairwise (· < ·)) :
    Removes (Erases k) h c n (delete k fuel h) := by
  induction fuel generalizing h c n with
  | zero => omega
  | succ fuel ih =>
    cases h with
    | nil =>
      cases hh with
      | nil => exact yields_pure ⟨false, .nil, id, rfl, rfl⟩
      | ready hh =>
        cases hh with
        | red hb => cases hb
    | node v i b l r =>
      rw [toList] at hs hfuel
      have hpart : ∀ {a v' s}, l.toList ++ v :: r.toList = a ++ v' :: s →
          a.Pairwise (· < ·) ∧ s.Pairwise (· < ·) ∧ a.length < fuel ∧ s.length < fuel := by
        intro a v' s heq
        have hlen := congrArg List.length heq
        simp only [List.length_append, List.length_cons] at hlen hfuel
        obtain ⟨hsa, hss, -⟩ := sorted_parts (heq ▸ hs)
        exact ⟨hsa, hss, by omega, by omega⟩
      unfold delete
      by_cases hkv : k < v
      · have hready := hh.to_ready fun h => h hkv
        rw [if_pos hkv]
        by_cases hl : l = nil
        · subst hl
          obtain ⟨-, -, -, hgt⟩ := sorted_parts hs
          have hmem : k ∉ v :: r.toList := by grind
          refine yields_pure ⟨c, hready.bal, id, ?_, ?_⟩
          · simp [toList, List.erase_of_not_mem hmem]
          · exact (if_neg hmem).symm
        rw [if_neg hl]
        refine deleteLeft_spec hready hl (fun a s d => Erases.length hk) ?_ ?_
        · intro l' v' s c' m' hl' heq _
          obtain ⟨hs', -, hlen, -⟩ := hpart heq
          exact ih (.ready hl') hlen hs'
        · intro a v' s a' d heq hlen
          have hle : v < v' ∨ v = v' :=
            (Nat.lt_or_eq_of_le hlen).imp (lt_of_position hs heq) (eq_of_position heq)
          exact Erases.left (heq ▸ hs) (by grind)
      · rw [if_neg hkv]
        refine deleteRight_spec (p := fun _ v _ => ¬k < v) (R := fun _ _ => Erases k) hh
          (Nat.le_of_lt_succ hfuel) (fun _ => hkv) ?_ ?_ ?_ ?_
        · intro a v' s heq hlen
          have := lt_of_position (heq ▸ hs) heq.symm hlen
          simp only [beq_eq_false_iff_ne, ne_eq]
          grind
        · intro a v' r' c' m' heq _ _ hr'
          obtain ⟨-, hs', -, hlen⟩ := hpart heq
          exact ih hr' hlen hs'
        · intro a v' s heq hv'
          obtain rfl : v' = k := by simpa using hv'
          exact .here (heq ▸ hs)
        · intro a v' s s' d heq hlen hv'
          have hle : v' < v ∨ v' = v := (Nat.lt_or_eq_of_le hlen).imp
            (lt_of_position (heq ▸ hs) heq.symm) (eq_of_position heq.symm)
          have hne : v' ≠ k := by simpa using hv'
          exact Erases.right (heq ▸ hs) (by grind)

def ErasesAt (idx : ℤ) (a s : List UInt64) (d : UInt64) : Prop :=
  s = a.eraseIdx idx.toNat ∧ a[idx.toNat]? = some d

section Parts

variable {s : List UInt64}

theorem ErasesAt.lt (he : ErasesAt idx a s d) : idx.toNat < a.length :=
  (List.getElem?_eq_some_iff.mp he.2).1

theorem ErasesAt.left (he : ErasesAt idx a a' d) : ErasesAt idx (a ++ v :: s) (a' ++ v :: s) d :=
  ⟨by rw [he.1, List.eraseIdx_append_of_lt_length he.lt], (List.getElem?_append_left he.lt).trans he.2⟩

theorem ErasesAt.here : ErasesAt a.length (a ++ v :: s) (a ++ s) v := by
  refine ⟨?_, ?_⟩
  · simp [List.eraseIdx_append_of_length_le]
  · simp

theorem ErasesAt.right (hle : (a.length : ℤ) < idx) (he : ErasesAt (idx - a.length - 1) s s' d) :
    ErasesAt idx (a ++ v :: s) (a ++ v :: s') d := by
  have hnat : idx.toNat = a.length + ((idx - a.length - 1).toNat + 1) := by omega
  unfold ErasesAt
  rw [hnat, List.eraseIdx_append_of_length_le (by omega), List.getElem?_append_right (by omega),
    Nat.add_sub_cancel_left, List.eraseIdx_cons_succ, List.getElem?_cons_succ, he.1]
  exact ⟨rfl, he.2⟩

end Parts

/-- **Deletion by index.** -/
theorem deleteAt_spec {fuel : ℕ} (h0 : 0 ≤ idx) (hidx : idx < h.toList.length)
    (hh : Entry (fun _ i => ¬idx < i) h c n) (hfuel : h.toList.length < fuel) :
    Removes (ErasesAt idx) h c n (deleteAt fuel idx h) := by
  induction fuel generalizing h c n idx with
  | zero => omega
  | succ fuel ih =>
    cases h with
    | nil => exact absurd hidx (by simpa [toList] using h0)
    | node v i b l r =>
      have hi := hh.index
      have hlength : ∀ {a v' s}, l.toList ++ v :: r.toList = a ++ v' :: s →
          a.length + (s.length + 1) = (node v i b l r).toList.length := by
        intro a v' s heq
        rw [toList, heq, List.length_append, List.length_cons]
      unfold deleteAt
      by_cases hlt : idx < i
      · have hready := hh.to_ready fun h => h hlt
        have hl : l ≠ nil := by
          rintro rfl
          simp only [toList, List.length_nil] at hi
          omega
        rw [if_pos hlt, if_neg hl]
        refine deleteLeft_spec (R := ErasesAt idx) hready hl ?_ ?_ fun _ _ _ _ _ _ _ he => he.left
        · intro a s d he
          rw [he.1, List.length_eraseIdx_of_lt he.lt, if_pos rfl]
          have := he.lt
          omega
        · intro l' v' s c' m' hl' heq hle
          have := hlength heq
          exact ih h0 (by omega) (.ready hl') (by omega)
      · rw [if_neg hlt]
        refine deleteRight_spec (p := fun a _ i => ¬idx - a.length - 1 < i)
          (R := fun a _ => ErasesAt (idx - a.length - 1)) hh (by omega) ?_ ?_ ?_ ?_ ?_
        · intro a
          omega
        · intro a v' s heq hlen
          simp only [beq_eq_false_iff_ne, ne_eq]
          omega
        · intro a v' r' c' m' heq hlen hne hr'
          have := hlength heq
          simp only [beq_eq_false_iff_ne, ne_eq] at hne
          exact ih (by omega) (by omega) hr' (by omega)
        · intro a v' s heq hv'
          obtain rfl : (a.length : ℤ) = idx := by simpa using hv'
          exact .here
        · intro a v' s s' d heq hlen hne
          simp only [beq_eq_false_iff_ne, ne_eq] at hne
          exact ErasesAt.right (by omega)

/-! ### The root

The root is black and its left link may be, so that it need not be ready for a deletion; but no operation
asks a node for its own colour. -/

/-- The operation does the same to a node of the other colour, up to `t`. -/
def Blind {α : Type} (t : α → α) (f : Node → Op α) : Prop := ∀ h, f h.tint = t <$> f h

@[simp] theorem tint_left : h.tint.left = h.left := by cases h <;> rfl

@[simp] theorem tint_right : h.tint.right = h.right := by cases h <;> rfl

section Blind

variable {α : Type} {t : α → α} {f : Node → Op Node} {g : Node → Op α} {fuel : ℕ}

theorem Blind.bind (hf : Blind tint f) (hg : Blind t g) : Blind t fun h => f h >>= g := by
  intro h
  have hg' : ∀ h, g h.tint = t <$> g h := hg
  simp only [hf h, bind_map_left, map_bind, hg']

theorem Blind.ite {p : Node → Bool} {g' : Node → Op α} (hp : ∀ h, p h.tint = p h) (hg : Blind t g)
    (hg' : Blind t g') : Blind t fun h => if p h then g h else g' h := by
  intro h
  dsimp only
  rw [hp h]
  split_ifs
  · exact hg h
  · exact hg' h

theorem blind_pure : Blind tint pure := fun h => (map_pure tint h).symm

theorem blind_rotateLeft : Blind tint rotateLeft := by
  intro h
  unfold rotateLeft
  rcases h with _ | ⟨v, i, b, l, _ | ⟨xv, xi, _ | _, xl, xr⟩⟩ <;> rfl

theorem blind_rotateRight : Blind tint rotateRight := by
  intro h
  unfold rotateRight
  rcases h with _ | ⟨v, i, b, _ | ⟨xv, xi, _ | _, xl, xr⟩, r⟩ <;> rfl

theorem blind_flip : Blind tint flip := by
  intro h
  unfold flip
  rcases h with _ | ⟨v, i, b, _ | ⟨lv, li, lb, ll, lr⟩, _ | ⟨rv, ri, rb, rl, rr⟩⟩ <;> rfl

theorem blind_moveRedLeft : Blind tint moveRedLeft := by
  refine blind_flip.bind fun h => ?_
  cases h with
  | nil => rfl
  | node v i b l r =>
    simp only [tint]
    split_ifs
    · rw [map_bind]
      exact bind_congr fun r' => (blind_rotateLeft.bind blind_flip) (node v i b l r')
    · rfl

theorem blind_moveRedRight : Blind tint moveRedRight :=
  blind_flip.bind (.ite (by simp) (blind_rotateRight.bind blind_flip) blind_pure)

theorem blind_fixUp : Blind tint fixUp := by
  have hflip : Blind tint fun h => if h.left.isRed && h.right.isRed then flip h else pure h :=
    .ite (by simp) blind_flip blind_pure
  have hright := Blind.ite (p := fun h => h.left.isRed && h.left.left.isRed) (by simp)
    (blind_rotateRight.bind hflip) (blind_pure.bind hflip)
  exact .ite (p := fun h => h.right.isRed) (by simp) (blind_rotateLeft.bind hright) (blind_pure.bind hright)

def tintFst (x : Node × UInt64) : Node × UInt64 := (x.1.tint, x.2)

theorem fixUp_tint {b : Bool} : (do let h ← fixUp (node v i (!b) l r); pure (h, d)) =
      tintFst <$> (do let h ← fixUp (node v i b l r); pure (h, d)) := by
  have hfix : fixUp (node v i (!b) l r) = tint <$> fixUp (node v i b l r) := blind_fixUp (node v i b l r)
  simp only [hfix, bind_map_left, map_bind, map_pure, tintFst]

theorem blind_deleteLeft {f : Node → Op (Node × UInt64)} {lower : UInt64 → Bool} :
    Blind tintFst (deleteLeft f lower) := by
  refine .bind (.ite (by simp) blind_moveRedLeft blind_pure) fun h => ?_
  cases h with
  | nil => rfl
  | node v i b l r =>
    rw [map_bind]
    exact bind_congr fun x => fixUp_tint

theorem blind_deleteRight {here : UInt64 → ℤ → Bool} {f : ℤ → Node → Op (Node × UInt64)} :
    Blind tintFst (deleteRight here f fuel) := by
  have hgo : Blind tintFst (goRight here f fuel) := by
    intro h
    cases h with
    | nil => rfl
    | node v i b l r =>
      simp only [tint, goRight]
      split_ifs
      all_goals
        rw [map_bind]
        exact bind_congr fun x => fixUp_tint
  have hprepare : Blind tint prepareRight := .ite (by simp) blind_moveRedRight blind_pure
  refine .bind (.ite (by simp) blind_rotateRight blind_pure) fun h => ?_
  cases h with
  | nil => rfl
  | node v i b l r =>
    simp only [tint]
    split_ifs
    · rfl
    · exact (hprepare.bind hgo) (node v i b l r)

theorem blind_delete {k : UInt64} : Blind tintFst (delete k fuel) := by
  intro h
  rcases fuel with _ | fuel <;> rcases h with _ | ⟨v, i, b, l, r⟩ <;> try rfl
  simp only [tint, delete]
  split_ifs
  · rfl
  · exact blind_deleteLeft (node v i b l r)
  · exact blind_deleteRight (node v i b l r)

theorem blind_deleteAt : Blind tintFst (deleteAt fuel idx) := by
  intro h
  rcases fuel with _ | fuel <;> rcases h with _ | ⟨v, i, b, l, r⟩ <;> try rfl
  simp only [tint, deleteAt]
  split_ifs
  · rfl
  · exact blind_deleteLeft (node v i b l r)
  · exact blind_deleteRight (node v i b l r)

end Blind

@[simp] theorem toList_blacken : h.blacken.toList = h.toList := by cases h <;> rfl

theorem blacken_tint : h.tint.blacken = h.blacken := by cases h <;> rfl

theorem Bal.blacken (hb : Bal h c n) : ∃ n', Bal h.blacken false n' := by
  cases hb with
  | nil => exact ⟨0, .nil⟩
  | red hi hl hr => exact ⟨_, .black hi hl hr⟩
  | black hi hl hr => exact ⟨_, .black hi hl hr⟩

theorem removes_root {R : List UInt64 → List UInt64 → UInt64 → Prop} {p : UInt64 → ℤ → Prop}
    {f : Node → Op (Node × UInt64)} (hb : Bal h false n) (hblind : Blind tintFst f)
    (hf : ∀ h' c' n', h'.toList = h.toList → Entry p h' c' n' → Removes R h' c' n' (f h')) :
    Yields (f h) fun y => (∃ n', Bal y.1.blacken false n') ∧ R h.toList y.1.blacken.toList y.2 := by
  have hentry : ∀ {c' n'}, Entry p h c' n' →
      Yields (f h) fun y => (∃ n', Bal y.1.blacken false n') ∧ R h.toList y.1.blacken.toList y.2 := by
    intro c' n' hh
    refine (hf h c' n' rfl hh).imp fun y hy => ?_
    obtain ⟨c'', hbal, -, hR⟩ := hy
    exact ⟨hbal.blacken, by rwa [toList_blacken]⟩
  cases hb with
  | nil => exact hentry .nil
  | @black v i l r cl m hi hl hr =>
    cases cl with
    | true => exact hentry (.ready (.black hi hl hr))
    | false =>
      have heq : f (node v i true l r) = tintFst <$> f (node v i false l r) := hblind (node v i false l r)
      rw [heq, map_eq_pure_bind]
      refine (hf (node v i false l r) true m rfl (.ready (.red (.red hi hl hr)))).bind fun y hy => ?_
      obtain ⟨c', hbal, -, hR⟩ := hy
      refine yields_pure ⟨?_, ?_⟩
      · rw [tintFst, blacken_tint]
        exact hbal.blacken
      · rw [tintFst, blacken_tint, toList_blacken]
        exact hR

/-! ### The tree -/

structure Llrb where
  size : ℤ
  root : Node
  rotationStats : List UInt64

namespace Llrb

def insert (t : Llrb) (value : UInt64) : Option (Llrb × UInt64) := do
  let ((root, replaced), stats) ← Qkchash.insert value t.root t.rotationStats
  if root = nil then none
  else pure (⟨if replaced = nullValue then t.size + 1 else t.size, root.blacken, stats⟩, replaced)

def removed (t : Llrb) (f : Node → Op (Node × UInt64)) : Option (Llrb × UInt64) := do
  let ((root, deleted), stats) ← f t.root t.rotationStats
  pure (⟨if deleted ≠ nullValue then t.size - 1 else t.size, root.blacken, stats⟩, deleted)

def delete (t : Llrb) (key : UInt64) : Option (Llrb × UInt64) :=
  t.removed (Qkchash.delete key (t.root.toList.length + 1))

def deleteAt (t : Llrb) (idx : ℤ) : Option (Llrb × UInt64) :=
  t.removed (Qkchash.deleteAt (t.root.toList.length + 1) idx)

/-- `GetByIndex`: the value of the node, if one is returned. -/
def getByIndex (t : Llrb) (idx : ℤ) : Option (Option UInt64) :=
  if t.root = nil || t.size ≤ idx then some none
  else (Qkchash.getByIndex t.root idx).map fun
    | nil => none
    | node v _ _ _ _ => some v

/-- The tree is a balanced search tree that holds the words of a sorted list. -/
structure Holds (t : Llrb) (s : List UInt64) : Prop where
  shape : ∃ n, Bal t.root false n
  contents : t.root.toList = s
  size : t.size = s.length
  sorted : s.Pairwise (· < ·)
  present : nullValue ∉ s

end Llrb

inductive Call
  | insert (value : UInt64)
  | delete (key : UInt64)
  | deleteAt (idx : ℤ)
  | getByIndex (idx : ℤ)

def Call.run (t : Llrb) : Call → Option (Llrb × Option UInt64)
  | insert value => (t.insert value).map (Prod.map id some)
  | delete key => (t.delete key).map (Prod.map id some)
  | deleteAt idx => (t.deleteAt idx).map (Prod.map id some)
  | getByIndex idx => (t.getByIndex idx).map (t, ·)

def Call.onList (s : List UInt64) : Call → List UInt64 × Option UInt64
  | insert value => (insertSorted value s, some (found value s))
  | delete key => (s.erase key, some (found key s))
  | deleteAt idx => (s.eraseIdx idx.toNat, s[idx.toNat]?)
  | getByIndex idx => (s, s[idx.toNat]?)

/-- The words are not the sentinel, and the indexes are those of the list. -/
def Call.InRange (s : List UInt64) : Call → Prop
  | insert value => value ≠ nullValue
  | delete key => key ≠ nullValue
  | deleteAt idx => 0 ≤ idx ∧ idx < s.length
  | getByIndex idx => 0 ≤ idx ∧ idx < s.length

instance {s : List UInt64} : DecidablePred (Call.InRange s) := fun c => by
  cases c <;> unfold Call.InRange <;> infer_instance

theorem getByIndex_spec (hb : Bal h c n) (h0 : 0 ≤ idx) (hidx : idx < h.toList.length) :
    ∃ v i b l r, getByIndex h idx = some (node v i b l r) ∧ h.toList[idx.toNat]? = some v := by
  have hnode : ∀ {v i b l r} {idx : ℤ}, 0 ≤ idx → idx < (node v i b l r).toList.length →
      i = (l.toList.length : ℤ) →
      (∀ {idx : ℤ}, 0 ≤ idx → idx < l.toList.length →
        ∃ v i b l' r, getByIndex l idx = some (node v i b l' r) ∧ l.toList[idx.toNat]? = some v) →
      (∀ {idx : ℤ}, 0 ≤ idx → idx < r.toList.length →
        ∃ v i b l r', getByIndex r idx = some (node v i b l r') ∧ r.toList[idx.toNat]? = some v) →
      ∃ v' i' b' l' r', getByIndex (node v i b l r) idx = some (node v' i' b' l' r') ∧
        (node v i b l r).toList[idx.toNat]? = some v' := by
    intro v i b l r idx h0 hidx hi hl hr
    simp only [toList, List.length_append, List.length_cons] at hidx ⊢
    unfold getByIndex
    by_cases heq : idx = i
    · refine ⟨v, i, b, l, r, if_pos heq, ?_⟩
      obtain rfl : idx = (l.toList.length : ℤ) := heq.trans hi
      simp
    rw [if_neg heq]
    by_cases hlt : idx < i
    · rw [if_pos hlt, List.getElem?_append_left (by omega)]
      exact hl h0 (by omega)
    · have hnat : idx.toNat - l.toList.length = (idx - i - 1).toNat + 1 := by omega
      rw [if_neg hlt, List.getElem?_append_right (by omega), hnat, List.getElem?_cons_succ]
      exact hr (by omega) (by omega)
  induction hb generalizing idx with
  | nil =>
    simp only [toList, List.length_nil] at hidx
    omega
  | red hi hl hr ihl ihr => exact hnode h0 hidx hi ihl ihr
  | black hi hl hr ihl ihr => exact hnode h0 hidx hi ihl ihr

theorem Llrb.removed_spec {t : Llrb} {s : List UInt64} {f : Node → Op (Node × UInt64)}
    (ht : t.Holds s) (hs' : s'.Sublist s)
    (hlen : s'.length + (if d != nullValue then 1 else 0) = s.length)
    (hf : Yields (f t.root) fun y => (∃ n', Bal y.1.blacken false n') ∧ y.1.blacken.toList = s' ∧ y.2 = d) :
    ∃ t', t.removed f = some (t', d) ∧ t'.Holds s' := by
  obtain ⟨⟨h', _⟩, stats, hrun, hshape, hlist, rfl⟩ := hf t.rotationStats
  refine ⟨_, by simp only [Llrb.removed, hrun]; rfl, hshape, hlist, ?_, ht.sorted.sublist hs',
    fun hmem => ht.present (hs'.subset hmem)⟩
  have := ht.size
  simp only [bne_iff_ne] at hlen ⊢
  split_ifs at hlen ⊢ <;> omega

/-- **One call** on the tree does what it does on the list. -/
theorem Call.run_spec {t : Llrb} (ht : t.Holds s) {call : Call} (hc : call.InRange s) :
    ∃ t', call.run t = some (t', (call.onList s).2) ∧ t'.Holds (call.onList s).1 := by
  obtain ⟨n, hb⟩ := ht.shape
  have hsorted : t.root.toList.Pairwise (· < ·) := ht.contents ▸ ht.sorted
  cases call with
  | insert value =>
    obtain ⟨⟨root, d⟩, stats, hrun, hsemi, hlist, hd⟩ := insert_spec hc hb hsorted t.rotationStats
    obtain ⟨c', hbal⟩ := hsemi.bal_of_not Bool.false_ne_true
    dsimp only at hlist hd hbal
    rw [ht.contents] at hlist hd
    have hne : root ≠ nil := by
      rintro rfl
      have hmem : value ∈ insertSorted value s := mem_insertSorted.mpr (.inl rfl)
      rw [← hlist] at hmem
      cases hmem
    have hcall : (Call.insert value).run t =
        some (⟨if d = nullValue then t.size + 1 else t.size, root.blacken, stats⟩, some d) := by
      simp only [Call.run, Llrb.insert, hrun, Option.bind_eq_bind, Option.bind_some, if_neg hne]
      rfl
    subst hd
    refine ⟨_, hcall, hbal.blacken, ?_, ?_, pairwise_insertSorted ht.sorted, ?_⟩
    · exact toList_blacken.trans hlist
    · have := index_insertSorted hc ht.sorted
      rw [ht.size]
      exact this
    · intro hmem
      rcases mem_insertSorted.mp hmem with heq | hmem
      · exact hc heq.symm
      · exact ht.present hmem
  | delete key =>
    have hlen := Erases.length hc (a := s) ⟨rfl, rfl⟩
    have hroot := removes_root (p := fun v _ => ¬key < v) (R := Erases key) hb blind_delete
      fun h' c' n' hlist hh => delete_spec hc hh (by rw [hlist]; exact Nat.lt_succ_self _) (hlist ▸ hsorted)
    simp only [Erases, ht.contents] at hroot
    obtain ⟨t', hrun, ht'⟩ := Llrb.removed_spec ht List.erase_sublist hlen hroot
    exact ⟨t', by rw [Call.run, Llrb.delete, ht.contents, hrun]; rfl, ht'⟩
  | deleteAt idx =>
    obtain ⟨h0, hidx⟩ := hc
    obtain ⟨d, hd⟩ : ∃ d, s[idx.toNat]? = some d := ⟨_, List.getElem?_eq_getElem (by omega)⟩
    have hmem : d ∈ s := List.mem_of_getElem? hd
    have hlen : (s.eraseIdx idx.toNat).length + (if d != nullValue then 1 else 0) = s.length := by
      have hne : d ≠ nullValue := fun h => ht.present (h ▸ hmem)
      rw [List.length_eraseIdx_of_lt (by omega), if_pos (by simpa using hne)]
      omega
    have hroot := removes_root (p := fun _ i => ¬idx < i) (R := ErasesAt idx) hb blind_deleteAt
      fun h' c' n' hlist hh => deleteAt_spec h0 (by rw [hlist, ht.contents]; exact hidx) hh
        (by rw [hlist]; exact Nat.lt_succ_self _)
    simp only [ErasesAt, ht.contents, hd, Option.some.injEq, @eq_comm _ d] at hroot
    obtain ⟨t', hrun, ht'⟩ := Llrb.removed_spec ht (List.eraseIdx_sublist _ _) hlen hroot
    refine ⟨t', ?_, ht'⟩
    rw [Call.run, Llrb.deleteAt, ht.contents, hrun, Call.onList, hd]
    rfl
  | getByIndex idx =>
    obtain ⟨h0, hidx⟩ := hc
    obtain ⟨v, i, b, l, r, hget, hv⟩ := getByIndex_spec hb h0 (ht.contents ▸ hidx)
    rw [ht.contents] at hv
    have hne : t.root ≠ nil := by
      intro hnil
      rw [hnil] at hget
      cases hget
    have hsize : ¬t.size ≤ idx := by
      rw [ht.size]
      omega
    refine ⟨t, ?_, ht⟩
    simp only [Call.run, Llrb.getByIndex, hne, hsize, decide_false, Bool.or_false, Bool.false_eq_true, if_false,
      hget, Call.onList, hv]
    rfl

def runCalls (t : Llrb) : List Call → Option (Llrb × List (Option UInt64))
  | [] => some (t, [])
  | call :: calls => do
      let (t, answer) ← call.run t
      let (t, answers) ← runCalls t calls
      pure (t, answer :: answers)

def onLists (s : List UInt64) : List Call → List UInt64 × List (Option UInt64)
  | [] => (s, [])
  | call :: calls =>
      let rest := onLists (call.onList s).1 calls
      (rest.1, (call.onList s).2 :: rest.2)

/-- Every call is in range when its turn comes. -/
def AllInRange (s : List UInt64) : List Call → Prop
  | [] => True
  | call :: calls => call.InRange s ∧ AllInRange (call.onList s).1 calls

instance decidableAllInRange (s : List UInt64) : (calls : List Call) → Decidable (AllInRange s calls)
  | [] => .isTrue trivial
  | call :: calls =>
      @instDecidableAnd _ _ _ (decidableAllInRange (call.onList s).1 calls)

theorem runCalls_spec {t : Llrb} (ht : t.Holds s) {calls : List Call} (hc : AllInRange s calls) :
    ∃ t', runCalls t calls = some (t', (onLists s calls).2) ∧ t'.Holds (onLists s calls).1 := by
  induction calls generalizing t s with
  | nil => exact ⟨t, rfl, ht⟩
  | cons call calls ih =>
    obtain ⟨t₁, hrun, ht₁⟩ := Call.run_spec ht hc.1
    obtain ⟨t₂, hrest, ht₂⟩ := ih ht₁ hc.2
    refine ⟨t₂, ?_, ht₂⟩
    simp only [runCalls, hrun, hrest, Option.bind_eq_bind, Option.bind_some, onLists]
    rfl

/-- **The tree is a sorted list.**  Whatever is inserted, deleted and looked up, words other than the sentinel
and indexes of the tree, nothing panics, and the answers are those of a sorted list without duplicates. -/
theorem runCalls_empty (stats : List UInt64) (calls : List Call) (hc : AllInRange [] calls) :
    ∃ t, runCalls ⟨0, nil, stats⟩ calls = some (t, (onLists [] calls).2) ∧ t.Holds (onLists [] calls).1 :=
  runCalls_spec ⟨⟨0, .nil⟩, rfl, rfl, List.Pairwise.nil, List.not_mem_nil⟩ hc

def sampleCalls : List Call :=
  [.insert 5, .insert 2, .insert 9, .insert 2, .insert 7, .getByIndex 2, .delete 4, .deleteAt 1, .delete 9]

theorem runCalls_sample : AllInRange [] sampleCalls ∧
    ∃ t, runCalls ⟨0, nil, [0, 0, 0, 0]⟩ sampleCalls = some (t, (onLists [] sampleCalls).2) ∧
      t.Holds (onLists [] sampleCalls).1 := by
  have hc : AllInRange [] sampleCalls := by decide
  exact ⟨hc, runCalls_empty _ _ hc⟩

end QuarkChain.Qkchash
