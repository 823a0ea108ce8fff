import Mathlib.Algebra.Group.Int.Defs
import Mathlib.Algebra.Group.Nat.Defs
import Mathlib.Data.List.TakeWhile

/-!
# Decimal text

`std::to_string` on an unsigned integer and `std::stoi`, on text as a list of
characters. `stoi` is `strtol` in base ten followed by the range check of `int`:
leading blanks and a sign are skipped, parsing stops at the first character that
is not a digit, and a value outside `int` throws.
-/

namespace TomChain.Decimal

abbrev Text := List Char

def intMax : ℕ := 2147483647

/-- `std::to_string`. -/
def toText (n : ℕ) : Text := Nat.toDigits 10 n

def isSpace (c : Char) : Bool := c == ' ' || (9 ≤ c.toNat && c.toNat ≤ 13)

/-- The digits at the front of `t`, as a number; `none` when there is none. -/
def leadingNat (t : Text) : Option ℕ :=
  match t.takeWhile Char.isDigit with
  | [] => none
  | ds => some (Nat.ofDigitChars 10 ds 0)

/-- `std::stoi`; `none` stands for `std::invalid_argument` and `std::out_of_range`. -/
def stoi (t : Text) : Option ℤ :=
  match t.dropWhile isSpace with
  | '-' :: ds => (leadingNat ds).bind fun n => if n ≤ intMax + 1 then some (-(n : ℤ)) else none
  | '+' :: ds => (leadingNat ds).bind fun n => if n ≤ intMax then some (n : ℤ) else none
  | ds => (leadingNat ds).bind fun n => if n ≤ intMax then some (n : ℤ) else none

/-- `strtoull`: a minus sign negates modulo `2 ^ 64`, too large a value saturates. -/
def strtoull (t : Text) : ℕ :=
  match t.dropWhile isSpace with
  | '-' :: ds => if (leadingNat ds).getD 0 < 2 ^ 64 then (2 ^ 64 - (leadingNat ds).getD 0) % 2 ^ 64
      else 2 ^ 64 - 1
  | '+' :: ds => min ((leadingNat ds).getD 0) (2 ^ 64 - 1)
  | ds => min ((leadingNat ds).getD 0) (2 ^ 64 - 1)

theorem toText_isDigit (n : ℕ) : ∀ c ∈ toText n, c.isDigit = true :=
  fun _ hc => Nat.isDigit_of_mem_toDigits (by decide) (by decide) hc

theorem toText_ne_nil (n : ℕ) : toText n ≠ [] := Nat.toDigits_ne_nil

theorem toText_injective : Function.Injective toText := by
  intro m n h
  have := congrArg (fun t => Nat.ofDigitChars 10 t 0) h
  simpa [toText] using this

theorem leadingNat_toText (n : ℕ) : leadingNat (toText n) = some n := by
  have ht : (toText n).takeWhile Char.isDigit = toText n :=
    List.takeWhile_eq_self_iff.mpr (toText_isDigit n)
  unfold leadingNat
  rw [ht]
  cases h : toText n with
  | nil => exact absurd h (toText_ne_nil n)
  | cons c cs =>
    have := Nat.ofDigitChars_ten_toDigits (n := n)
    rw [← toText, h] at this
    simp [this]

theorem isDigit_not_sign {c : Char} (h : c.isDigit = true) :
    isSpace c = false ∧ c ≠ '-' ∧ c ≠ '+' := by
  refine ⟨?_, by rintro rfl; simp at h, by rintro rfl; simp at h⟩
  simp only [Char.isDigit, Bool.and_eq_true, decide_eq_true_eq, ge_iff_le] at h
  have h1 : 48 ≤ c.toNat := h.1
  simp only [isSpace, Bool.or_eq_false_iff, Bool.and_eq_false_iff, decide_eq_false_iff_not]
  refine ⟨?_, Or.inr (by omega)⟩
  rw [beq_eq_false_iff_ne]
  rintro rfl
  simp at h1

/-- A decimal numeral survives the 32-bit parse exactly when it fits an `int`. -/
theorem stoi_toText (n : ℕ) :
    stoi (toText n) = if n ≤ intMax then some (n : ℤ) else none := by
  cases h : toText n with
  | nil => exact absurd h (toText_ne_nil n)
  | cons c cs =>
    obtain ⟨hs, hm, hp⟩ := isDigit_not_sign (toText_isDigit n c (by simp [h]))
    have hl := leadingNat_toText n
    rw [h] at hl
    unfold stoi
    rw [List.dropWhile_cons_of_neg (by simp [hs])]
    split
    · rename_i heq; cases heq; exact absurd rfl hm
    · rename_i heq; cases heq; exact absurd rfl hp
    · simp [hl]

/-- What `std::stoi` returns is an `int`. -/
theorem stoi_range {t : Text} {i : ℤ} (h : stoi t = some i) : -(intMax + 1 : ℤ) ≤ i ∧ i ≤ intMax := by
  unfold stoi at h
  split at h <;>
  · obtain ⟨n, -, hn⟩ := Option.bind_eq_some_iff.mp h
    split at hn
    · cases hn; omega
    · cases hn

end TomChain.Decimal
