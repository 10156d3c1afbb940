import Mathlib.Data.Nat.Basic
import Mathlib.Data.List.Basic

/-!
# Reading digits up to a limit

The value of a string of digits is computed from left to right, and a program that computes it in
bounded integers has to notice when the value exceeds a limit before it computes it. The usual way
is to compare with the quotient and the remainder of the limit by the base: the next value exceeds
the limit exactly if the value so far exceeds the quotient, or equals it and the digit exceeds the
remainder (`exceeds_iff`).

A value that has exceeded the limit will not come back, so it suffices to remember that it has
(`readUpTo_eq`).
-/

namespace DigitStrings

/-- The value of digits that follow the value `acc`. -/
def value (base acc : ℕ) (digits : List ℕ) : ℕ := digits.foldl (fun n d ↦ n * base + d) acc

@[simp] theorem value_nil (base acc : ℕ) : value base acc [] = acc := rfl

@[simp] theorem value_cons (base acc d : ℕ) (digits : List ℕ) :
    value base acc (d :: digits) = value base (acc * base + d) digits := rfl

theorem le_value {base : ℕ} (hbase : 0 < base) (acc : ℕ) (digits : List ℕ) :
    acc ≤ value base acc digits := by
  induction digits generalizing acc with
  | nil => exact le_rfl
  | cons d digits ih =>
    calc acc ≤ acc * base := Nat.le_mul_of_pos_right acc hbase
      _ ≤ acc * base + d := Nat.le_add_right _ _
      _ ≤ value base acc (d :: digits) := ih _

/-- One more digit exceeds the limit. -/
theorem exceeds_iff {base limit acc d : ℕ} (hd : d < base) :
    limit / base < acc ∨ acc = limit / base ∧ limit % base < d ↔ limit < acc * base + d := by
  have hlimit := Nat.div_add_mod limit base
  have hmod := Nat.mod_lt limit (Nat.zero_lt_of_lt hd)
  rw [Nat.mul_comm] at hlimit
  rcases Nat.lt_trichotomy acc (limit / base) with h | h | h
  · have hle : (acc + 1) * base ≤ limit / base * base := Nat.mul_le_mul_right base h
    rw [Nat.succ_mul] at hle
    omega
  · subst h
    omega
  · have hle : (limit / base + 1) * base ≤ acc * base := Nat.mul_le_mul_right base h
    rw [Nat.succ_mul] at hle
    omega

/-- One digit; `none` once the limit has been exceeded. -/
def readDigit (base limit : ℕ) (acc : Option ℕ) (d : ℕ) : Option ℕ :=
  acc.bind fun n ↦ if limit < n * base + d then none else some (n * base + d)

/-- All digits. -/
def readUpTo (base limit : ℕ) (acc : Option ℕ) (digits : List ℕ) : Option ℕ :=
  digits.foldl (readDigit base limit) acc

@[simp] theorem readUpTo_none (base limit : ℕ) (digits : List ℕ) :
    readUpTo base limit none digits = none := by
  induction digits with
  | nil => rfl
  | cons d digits ih => exact ih

/-- The value, unless it exceeds the limit. -/
theorem readUpTo_eq {base : ℕ} (hbase : 0 < base) {limit acc : ℕ} (hacc : acc ≤ limit)
    (digits : List ℕ) :
    readUpTo base limit (some acc) digits
      = if limit < value base acc digits then none else some (value base acc digits) := by
  induction digits generalizing acc with
  | nil => exact (if_neg (Nat.not_lt.mpr hacc)).symm
  | cons d digits ih =>
    rw [readUpTo, List.foldl_cons, ← readUpTo, readDigit, Option.bind_some, value_cons]
    split
    · next h => rw [readUpTo_none, if_pos (Nat.lt_of_lt_of_le h (le_value hbase _ _))]
    · next h => exact ih (Nat.not_lt.mp h)

end DigitStrings
