/-
# Names of tokens

`TokenIDEncode` and `TokenIdDecode` of `src/common/token_codec.go`.  A token is named by digits and capital
letters, the digits of its number in base `36`; but all characters other than the last one count from one,
so that no two names have one number.  Plus one, the number is that of a numeration without a zero
(`Spells`), and names of up to twelve characters have exactly the numbers up to `TOKENIDMAX`.
-/
import Mathlib.Data.List.Basic
import Mathlib.Tactic.Ring

namespace QuarkChain.TokenCodec

def tokenIdMax : ℕ := 4873763662273663091

/-- What the encoder panics with, and the two errors of the decoder. -/
inductive TokenError
  | nameTooLong
  | emptyName
  | unknownCharacter (char : ℕ)
  | idTooBig
  | invalidChar (id : ℕ)
deriving DecidableEq

def tokenCharEncode (char : ℕ) : Except TokenError ℕ :=
  if 65 ≤ char ∧ char ≤ 90 then .ok (10 + (char - 65))
  else if 48 ≤ char ∧ char ≤ 57 then .ok (char - 48)
  else .error (.unknownCharacter char)

def tokenCharDecode (id : ℕ) : Except TokenError ℕ :=
  if ¬id < 36 then .error (.invalidChar id) else if id < 10 then .ok (48 + id) else .ok (65 + id - 10)

def encodeLoop : List ℕ → ℕ → ℕ → Except TokenError ℕ
  | [], id, _ => .ok id
  | char :: rest, id, base => do
      let d ← tokenCharEncode char
      encodeLoop rest ((id + base * (d + 1)) % 2 ^ 64) (base * 36 % 2 ^ 64)

def tokenIDEncode (str : List ℕ) : Except TokenError ℕ :=
  if str.length ≥ 13 then .error .nameTooLong
  else
    match str.reverse with
    | [] => .error .emptyName
    | char :: rest => do
        let id ← tokenCharEncode char
        encodeLoop rest id 36

def decodeLoop (id : ℕ) : Except TokenError (List ℕ) := do
  let t ← tokenCharDecode (id % 36)
  if id / 36 < 1 then .ok [t] else
    let name ← decodeLoop (id / 36 - 1)
    .ok (t :: name)
termination_by id

def tokenIdDecode (id : ℕ) : Except TokenError (List ℕ) :=
  if id > tokenIdMax then .error .idTooBig else (decodeLoop id).map List.reverse

/-- The bytes, from the end on, spell a number whose lowest digit comes first and whose digits count from
one. -/
inductive Spells : List ℕ → ℕ → Prop
  | nil : Spells [] 0
  | cons {char d n : ℕ} {name : List ℕ} (hd : tokenCharEncode char = .ok d) (h : Spells name n) :
      Spells (char :: name) (d + 1 + 36 * n)

def ones : ℕ → ℕ
  | 0 => 0
  | k + 1 => 1 + 36 * ones k

variable {char d id k n : ℕ} {name : List ℕ}

theorem tokenCharEncode_eq_ok : tokenCharEncode char = .ok d ↔ d < 36 ∧ tokenCharDecode d = .ok char := by
  unfold tokenCharEncode tokenCharDecode
  split_ifs <;> simp <;> omega

theorem ones_mono (h : k ≤ n) : ones k ≤ ones n := by
  induction h with
  | refl => exact le_rfl
  | step _ ih =>
    simp only [ones]
    omega

theorem Spells.bounds (h : Spells name n) : ones name.length ≤ n ∧ n ≤ 36 * ones name.length := by
  induction h with
  | nil => exact ⟨le_rfl, le_rfl⟩
  | cons hd _ ih =>
    have hlt := (tokenCharEncode_eq_ok.mp hd).1
    simp only [ones, List.length_cons]
    omega

theorem Spells.length_lt_iff (h : Spells name (id + 1)) : name.length < 13 ↔ id ≤ tokenIdMax := by
  obtain ⟨hlow, hhigh⟩ := h.bounds
  have hmax : ones 13 = tokenIdMax + 2 ∧ 36 * ones 12 = tokenIdMax + 1 := by decide
  constructor
  · intro hlen
    have := ones_mono (Nat.le_of_lt_succ hlen)
    omega
  · intro hid
    by_contra hlen
    have := ones_mono (Nat.le_of_not_lt hlen)
    omega

theorem Spells.encodeLoop_eq (h : Spells name n) (hid : id < 2 ^ 64) (base : ℕ) :
    encodeLoop name id base = .ok ((id + base * n) % 2 ^ 64) := by
  induction h generalizing id base with
  | nil => rw [encodeLoop, Nat.mul_zero, Nat.add_zero, Nat.mod_eq_of_lt hid]
  | @cons char d n name hd _ ih =>
    have hlt : (id + base * (d + 1)) % 2 ^ 64 < 2 ^ 64 := Nat.mod_lt _ (by omega)
    simp only [encodeLoop, hd, bind, Except.bind, ih hlt]
    rw [Nat.mod_add_mod, Nat.add_mod, Nat.mod_mul_mod, ← Nat.add_mod]
    congr 2
    ring

theorem Spells.tokenIDEncode_eq (h : Spells name (id + 1)) (hid : id ≤ tokenIdMax) :
    tokenIDEncode name.reverse = .ok id := by
  have hlen := h.length_lt_iff.mpr hid
  have hsize : tokenIdMax < 2 ^ 64 := by decide
  generalize hn : id + 1 = n at h
  rcases h with _ | @⟨char, d, n, name, hd, h⟩
  · cases hn
  have hlt := (tokenCharEncode_eq_ok.mp hd).1
  rw [tokenIDEncode, List.length_reverse, if_neg (by omega), List.reverse_reverse]
  simp only [hd, bind, Except.bind]
  rw [h.encodeLoop_eq (by omega), Nat.mod_eq_of_lt (by omega)]
  exact congrArg _ (by omega)

theorem Spells.decodeLoop_eq (h : Spells name (id + 1)) : decodeLoop id = .ok name := by
  generalize hn : id + 1 = n at h
  induction h generalizing id with
  | nil => cases hn
  | @cons char d n name hd h ih =>
    obtain ⟨hlt, hchar⟩ := tokenCharEncode_eq_ok.mp hd
    have hmod : id % 36 = d := by omega
    have hdiv : id / 36 = n := by omega
    rw [decodeLoop, hmod, hchar]
    simp only [hdiv, bind, Except.bind]
    cases h with
    | nil => rfl
    | cons hd' h' => rw [if_neg (by omega), ih (by omega)]

theorem exists_spells (n : ℕ) : ∃ name, Spells name n := by
  induction n using Nat.strong_induction_on with
  | _ n ih =>
    rcases Nat.eq_zero_or_pos n with rfl | hpos
    · exact ⟨[], .nil⟩
    obtain ⟨name, h⟩ := ih ((n - 1) / 36) (by omega)
    have hlt : (n - 1) % 36 < 36 := Nat.mod_lt _ (by omega)
    obtain ⟨char, hchar⟩ : ∃ char, tokenCharDecode ((n - 1) % 36) = .ok char := by
      unfold tokenCharDecode
      split_ifs <;> simp
    have := Spells.cons (tokenCharEncode_eq_ok.mpr ⟨hlt, hchar⟩) h
    rw [show (n - 1) % 36 + 1 + 36 * ((n - 1) / 36) = n by omega] at this
    exact ⟨char :: name, this⟩

theorem spells_of_forall (h : ∀ char ∈ name, ∃ d, tokenCharEncode char = .ok d) : ∃ n, Spells name n := by
  induction name with
  | nil => exact ⟨0, .nil⟩
  | cons char name ih =>
    rw [List.forall_mem_cons] at h
    obtain ⟨d, hd⟩ := h.1
    obtain ⟨n, hn⟩ := ih h.2
    exact ⟨_, .cons hd hn⟩

theorem Spells.codes (h : Spells name (id + 1)) (hid : id ≤ tokenIdMax) :
    tokenIDEncode name.reverse = .ok id ∧ tokenIdDecode id = .ok name.reverse := by
  refine ⟨h.tokenIDEncode_eq hid, ?_⟩
  rw [tokenIdDecode, if_neg (by omega), h.decodeLoop_eq]
  rfl

/-- **Names and numbers of tokens.**  A name of digits and capital letters is too long to be encoded, or it
is decoded from its number; and every number up to the largest is encoded from its name. -/
theorem tokenId_roundTrip :
    (∀ str : List ℕ, str ≠ [] → (∀ char ∈ str, 48 ≤ char ∧ char ≤ 57 ∨ 65 ≤ char ∧ char ≤ 90) →
      13 ≤ str.length ∧ tokenIDEncode str = .error .nameTooLong ∨
        ∃ id ≤ tokenIdMax, tokenIDEncode str = .ok id ∧ tokenIdDecode id = .ok str) ∧
    ∀ id ≤ tokenIdMax, ∃ str, tokenIdDecode id = .ok str ∧ tokenIDEncode str = .ok id := by
  constructor
  · intro str hne hchars
    rcases Nat.lt_or_ge str.length 13 with hlen | hlen
    · obtain ⟨n, hn⟩ := @spells_of_forall str.reverse fun char hchar => by
        have := hchars char (List.mem_reverse.mp hchar)
        unfold tokenCharEncode
        split_ifs <;> first | exact ⟨_, rfl⟩ | omega
      have hpos : ones 1 ≤ n :=
        (ones_mono (List.length_pos_iff.mpr (by simpa using hne))).trans hn.bounds.1
      obtain ⟨id, rfl⟩ := Nat.exists_eq_add_of_le' hpos
      have hid := hn.length_lt_iff.mp (by simpa using hlen)
      have := hn.codes hid
      rw [List.reverse_reverse] at this
      exact .inr ⟨id, hid, this⟩
    · exact .inl ⟨hlen, if_pos hlen⟩
  · intro id hid
    obtain ⟨name, h⟩ := exists_spells (id + 1)
    exact ⟨_, (h.codes hid).symm⟩

/-- The largest number is that of twelve times the last letter. -/
theorem tokenIdMax_roundTrip :
    ∃ str, tokenIdDecode tokenIdMax = .ok str ∧ tokenIDEncode str = .ok tokenIdMax :=
  tokenId_roundTrip.2 tokenIdMax le_rfl

end QuarkChain.TokenCodec
