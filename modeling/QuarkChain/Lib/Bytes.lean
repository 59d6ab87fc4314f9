/-
# Numbers as bytes and as sets of bits

Big-endian byte strings: a number in a given width, a number without leading zeros, and the number that
a byte string stands for.  Strings of one length are ordered as their numbers are.  Then numbers as sets of
bits: a mask that is gathered by a loop, and the test whether a number holds all bits of another.
-/
import Mathlib.Data.Nat.Size
import Mathlib.Data.UInt
import Mathlib.Tactic.Ring

namespace QuarkChain.Bytes

def ofBE (l : List UInt8) : ℕ := l.foldl (fun n b => n * 256 + b.toNat) 0

/-- The low `width` bytes of a number, the highest first. -/
def toBE : ℕ → ℕ → List UInt8
  | 0, _ => []
  | width + 1, n => toBE width (n / 256) ++ [UInt8.ofNat (n % 256)]

def width (n : ℕ) : ℕ := (Nat.size n + 7) / 8

/-- A number without leading zeros; zero is the empty string. -/
def minBE (n : ℕ) : List UInt8 := toBE (width n) n

theorem ofBE_snoc (l : List UInt8) (b : UInt8) : ofBE (l ++ [b]) = ofBE l * 256 + b.toNat := by
  simp [ofBE]

@[simp] theorem length_toBE (w n : ℕ) : (toBE w n).length = w := by
  induction w generalizing n with
  | zero => rfl
  | succ w ih => simp [toBE, ih]

/-- **Reading back what was written,** modulo the width. -/
theorem ofBE_toBE (w n : ℕ) : ofBE (toBE w n) = n % 256 ^ w := by
  induction w generalizing n with
  | zero => simp [toBE, ofBE, Nat.mod_one]
  | succ w ih =>
    have hbyte : (UInt8.ofNat (n % 256)).toNat = n % 256 := by
      simp [UInt8.toNat_ofNat']
    rw [toBE, ofBE_snoc, ih, hbyte, pow_succ', Nat.mod_mul]
    ring

variable {n k m : ℕ} {a b : List UInt8}

theorem toBE_inj {w : ℕ} (hm : m < 256 ^ w) (hn : n < 256 ^ w) (h : toBE w m = toBE w n) : m = n := by
  have hread := congrArg ofBE h
  rwa [ofBE_toBE, ofBE_toBE, Nat.mod_eq_of_lt hm, Nat.mod_eq_of_lt hn] at hread

theorem lt_pow_width (n : ℕ) : n < 256 ^ width n := by
  have hsize : Nat.size n ≤ 8 * width n := by
    unfold width
    omega
  calc n < 2 ^ Nat.size n := Nat.lt_size_self n
    _ ≤ 2 ^ (8 * width n) := Nat.pow_le_pow_right (by decide) hsize
    _ = 256 ^ width n := by rw [show (256 : ℕ) = 2 ^ 8 from rfl, ← pow_mul]

theorem ofBE_minBE (n : ℕ) : ofBE (minBE n) = n := by
  rw [minBE, ofBE_toBE, Nat.mod_eq_of_lt (lt_pow_width n)]

theorem minBE_inj (h : minBE m = minBE n) : m = n := by
  have hread := congrArg ofBE h
  rwa [ofBE_minBE, ofBE_minBE] at hread

theorem ofBE_zeros_append (k : ℕ) (l : List UInt8) : ofBE (List.replicate k 0 ++ l) = ofBE l := by
  induction k with
  | zero => rfl
  | succ k ih =>
    rw [← ih]
    simp [ofBE, List.replicate_succ]

/-- **Writing back what was read.** -/
theorem toBE_ofBE (l : List UInt8) : toBE l.length (ofBE l) = l := by
  induction l using List.reverseRecOn with
  | nil => rfl
  | append_singleton l b ih =>
    have hb := b.toNat_lt
    have hhigh : (ofBE l * 256 + b.toNat) / 256 = ofBE l := by omega
    have hlow : (ofBE l * 256 + b.toNat) % 256 = b.toNat := by omega
    rw [List.length_append, List.length_singleton, toBE, ofBE_snoc, hhigh, hlow, ih, UInt8.ofNat_toNat]

theorem width_le (h : n < 2 ^ (8 * k)) : width n ≤ k := by
  have hsize := Nat.size_le.mpr h
  unfold width
  omega

theorem le_width (h : 256 ^ k ≤ n) : k + 1 ≤ width n := by
  have hbits : 2 ^ (8 * k) ≤ n := by
    rwa [show (256 : ℕ) = 2 ^ 8 from rfl, ← pow_mul] at h
  have hsize := Nat.lt_size.mpr hbits
  unfold width
  omega

theorem length_minBE (hlow : 256 ^ k ≤ n) (hhigh : n < 256 ^ (k + 1)) :
    (minBE n).length = k + 1 := by
  rw [show (256 : ℕ) = 2 ^ 8 from rfl, ← pow_mul] at hhigh
  rw [minBE, length_toBE]
  exact le_antisymm (width_le hhigh) (le_width hlow)

theorem ofBE_cons (b : UInt8) (l : List UInt8) : ofBE (b :: l) = b.toNat * 256 ^ l.length + ofBE l := by
  induction l using List.reverseRecOn with
  | nil => simp [ofBE]
  | append_singleton l c ih =>
    rw [← List.cons_append, ofBE_snoc, ofBE_snoc, ih, List.length_append, List.length_singleton, pow_succ]
    ring

theorem ofBE_lt (l : List UInt8) : ofBE l < 256 ^ l.length := by
  induction l with
  | nil => simp [ofBE]
  | cons b l ih =>
    have hb : b.toNat + 1 ≤ 256 := b.toNat_lt
    calc ofBE (b :: l) = b.toNat * 256 ^ l.length + ofBE l := ofBE_cons b l
      _ < (b.toNat + 1) * 256 ^ l.length := by rw [add_mul, one_mul]; omega
      _ ≤ 256 * 256 ^ l.length := Nat.mul_le_mul_right _ hb
      _ = 256 ^ (b :: l).length := by rw [List.length_cons, pow_succ']

/-- **Strings of one length are ordered as the numbers they stand for.** -/
theorem lt_iff_ofBE_lt (h : a.length = b.length) : a < b ↔ ofBE a < ofBE b := by
  induction a generalizing b with
  | nil =>
    obtain rfl := List.length_eq_zero_iff.mp h.symm
    simp
  | cons x a ih =>
    obtain ⟨y, b, rfl⟩ := List.exists_cons_of_length_eq_add_one h.symm
    have hlen : a.length = b.length := Nat.succ.inj h
    have ha := ofBE_lt a
    have hb := ofBE_lt b
    rw [List.cons_lt_cons_iff, ih hlen, ofBE_cons, ofBE_cons, hlen]
    rw [hlen] at ha
    rcases lt_trichotomy x.toNat y.toNat with hxy | hxy | hxy
    · have hstep : (x.toNat + 1) * 256 ^ b.length ≤ y.toNat * 256 ^ b.length := Nat.mul_le_mul_right _ hxy
      rw [add_mul, one_mul] at hstep
      exact iff_of_true (.inl (UInt8.lt_iff_toNat_lt.mpr hxy)) (by omega)
    · obtain rfl := UInt8.toNat_inj.mp hxy
      simp
    · have hstep : (y.toNat + 1) * 256 ^ b.length ≤ x.toNat * 256 ^ b.length := Nat.mul_le_mul_right _ hxy
      rw [add_mul, one_mul] at hstep
      refine iff_of_false ?_ (by omega)
      rintro (hlt | ⟨rfl, -⟩)
      · exact absurd (UInt8.lt_iff_toNat_lt.mp hlt) (by omega)
      · exact absurd hxy (lt_irrefl _)

theorem append_lt_of_lt (h : a < b) (hlen : a.length = b.length) (r : List UInt8) : a ++ r < b := by
  induction a generalizing b with
  | nil =>
    obtain rfl := List.length_eq_zero_iff.mp hlen.symm
    exact absurd h (List.lt_irrefl _)
  | cons x a ih =>
    obtain ⟨y, b, rfl⟩ := List.exists_cons_of_length_eq_add_one hlen.symm
    rw [List.cons_append, List.cons_lt_cons_iff]
    exact (List.cons_lt_cons_iff.mp h).imp_right fun ⟨hxy, hab⟩ => ⟨hxy, ih hab (Nat.succ.inj hlen)⟩

theorem testBit_foldl {α : Type*} {step : ℕ → α → ℕ} (bits : α → ℕ → Bool)
    (hstep : ∀ mask x i, (step mask x).testBit i = (mask.testBit i || bits x i)) (l : List α)
    (mask i : ℕ) : (l.foldl step mask).testBit i = (mask.testBit i || l.any fun x => bits x i) := by
  induction l generalizing mask with
  | nil => simp
  | cons x l ih => rw [List.foldl_cons, ih, hstep, List.any_cons, Bool.or_assoc]

theorem and_eq_right_iff {a b : ℕ} : a &&& b = b ↔ ∀ i, b.testBit i = true → a.testBit i = true := by
  constructor
  · intro h i hi
    rw [← h, Nat.testBit_and, Bool.and_eq_true] at hi
    exact hi.1
  · intro h
    refine Nat.eq_of_testBit_eq fun i => ?_
    rw [Nat.testBit_and]
    cases hb : b.testBit i with
    | false => rw [Bool.and_false]
    | true => rw [h i hb, Bool.and_true]

theorem lt_two_pow_of_testBit (h : ∀ i, n.testBit i = true → i < k) : n < 2 ^ k := by
  refine Nat.lt_pow_two_of_testBit n fun i hi => ?_
  by_contra hbit
  have hlt := h i (by simpa using hbit)
  omega

end QuarkChain.Bytes
