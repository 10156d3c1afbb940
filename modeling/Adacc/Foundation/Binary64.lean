import Mathlib.Algebra.Order.Floor.Ring
import Mathlib.Data.Int.Log
import Mathlib.Data.Rat.Floor
import Mathlib.Tactic.Linarith
import Mathlib.Tactic.NormNum

/-!
# Binary64 numbers

The non-negative numbers of IEEE 754 binary64 as rational numbers. The result of an operation is
the exact result, rounded to a number with 53 significant bits; of two that are equally near the one
that ends in an even bit is taken. Below `2 ^ -1022` the places end at `2 ^ -1074`. From `2 ^ 1024`
on there is no such number and the result is infinite, which is `none`, like the result of a
division by zero.

Rounding is monotone and leaves numbers alone that have 53 bits. So a result lies between two such
numbers if the exact result does (`fl_mem_Icc`). This is how bounds on the operands become bounds on
the result; how far a result is off plays no part.
-/

namespace Binary64

/-! ## Integers -/

/-- The nearest integer, the even one of two. -/
def roundEven (x : ℚ) : ℤ :=
  if x - ⌊x⌋ < 1 / 2 then ⌊x⌋
  else if 1 / 2 < x - ⌊x⌋ then ⌊x⌋ + 1
  else ⌊x⌋ + ⌊x⌋ % 2

@[simp] theorem roundEven_intCast (n : ℤ) : roundEven n = n := by
  rw [roundEven, Int.floor_intCast, sub_self, if_pos (by norm_num)]

/-- One of the two integers next to the number. -/
theorem floor_le_roundEven (x : ℚ) : ⌊x⌋ ≤ roundEven x ∧ roundEven x ≤ ⌊x⌋ + 1 := by
  unfold roundEven
  split_ifs <;> omega

theorem roundEven_mono {x y : ℚ} (h : x ≤ y) : roundEven x ≤ roundEven y := by
  obtain hlt | heq := (Int.floor_mono h).lt_or_eq
  · exact (floor_le_roundEven x).2.trans ((Int.add_one_le_of_lt hlt).trans (floor_le_roundEven y).1)
  -- above the same integer, the fractions decide
  · unfold roundEven
    rw [← heq]
    split_ifs <;> first | omega | linarith

/-! ## Rounding -/

/-- The exponent of the last place of the numbers around `x`. -/
def exponent (x : ℚ) : ℤ := max (Int.log 2 x - 52) (-1074)

/-- The nearest number. -/
def round (x : ℚ) : ℚ := roundEven (x / 2 ^ exponent x) * 2 ^ exponent x

theorem exponent_mono {x y : ℚ} (hx : 0 < x) (h : x ≤ y) : exponent x ≤ exponent y :=
  max_le_max_right _ (sub_le_sub_right (Int.log_mono_right hx h) 52)

theorem zpow_exponent_pos (x : ℚ) : (0 : ℚ) < 2 ^ exponent x := zpow_pos (by norm_num) _

/-- A multiple of the last place is a bound for the rounded number too. -/
theorem round_le {x : ℚ} {n : ℤ} (h : x ≤ n * 2 ^ exponent x) : round x ≤ n * 2 ^ exponent x := by
  have hdiv : x / 2 ^ exponent x ≤ n := (div_le_iff₀ (zpow_exponent_pos x)).mpr h
  have hint := roundEven_mono hdiv
  rw [roundEven_intCast] at hint
  exact mul_le_mul_of_nonneg_right (by exact_mod_cast hint) (zpow_exponent_pos x).le

theorem le_round {x : ℚ} {n : ℤ} (h : n * 2 ^ exponent x ≤ x) : n * 2 ^ exponent x ≤ round x := by
  have hdiv : (n : ℚ) ≤ x / 2 ^ exponent x := (le_div_iff₀ (zpow_exponent_pos x)).mpr h
  have hint := roundEven_mono hdiv
  rw [roundEven_intCast] at hint
  exact mul_le_mul_of_nonneg_right (by exact_mod_cast hint) (zpow_exponent_pos x).le

/-- An integer with a large exponent is a multiple of the last place. -/
theorem exists_multiple {e k : ℤ} (h : e ≤ k) (n : ℤ) :
    ∃ m : ℤ, (n * 2 ^ k : ℚ) = m * 2 ^ e := by
  obtain ⟨j, rfl⟩ := Int.le.dest h
  refine ⟨n * 2 ^ j, ?_⟩
  rw [zpow_add₀ (by norm_num), zpow_natCast]
  push_cast
  ring

/-- Numbers that end at the last place or before are left alone. -/
theorem round_eq_self {x : ℚ} {n k : ℤ} (hx : x = n * 2 ^ k) (h : exponent x ≤ k) :
    round x = x := by
  obtain ⟨m, hm⟩ := exists_multiple h n
  rw [← hx] at hm
  exact le_antisymm ((round_le hm.le).trans hm.ge) (hm.le.trans (le_round hm.ge))

theorem round_mono {x y : ℚ} (hx : 0 ≤ x) (h : x ≤ y) : round x ≤ round y := by
  obtain rfl | hx := hx.eq_or_lt
  · have hzero : round 0 = 0 := by
      rw [round, zero_div, ← Int.cast_zero, roundEven_intCast, Int.cast_zero, zero_mul]
    have hle := le_round (x := y) (n := 0) (by rw [Int.cast_zero, zero_mul]; exact h)
    rw [Int.cast_zero, zero_mul] at hle
    rwa [hzero]
  obtain hlt | heq := (exponent_mono hx h).lt_or_eq
  -- a power of two that is large enough for the places of `y` lies between them
  · have hexp : exponent y = Int.log 2 y - 52 := by
      refine max_eq_left (le_of_not_gt fun hy ↦ ?_)
      have := le_max_right (Int.log 2 x - 52) (-1074)
      unfold exponent at hlt
      omega
    have hlog : Int.log 2 x < Int.log 2 y := by
      have := le_max_left (Int.log 2 x - 52) (-1074)
      unfold exponent at hlt hexp
      omega
    have hxp : x ≤ 2 ^ Int.log 2 y := by
      have hlt := Int.lt_zpow_succ_log_self (b := 2) (by norm_num) x
      exact hlt.le.trans (zpow_le_zpow_right₀ (by norm_num) hlog)
    have hpy : 2 ^ Int.log 2 y ≤ y := Int.zpow_log_le_self (b := 2) (by norm_num) (hx.trans_le h)
    obtain ⟨m, hm⟩ := exists_multiple (e := exponent x) (k := Int.log 2 y) (by omega) 1
    obtain ⟨n, hn⟩ := exists_multiple (e := exponent y) (k := Int.log 2 y) (by omega) 1
    rw [Int.cast_one, one_mul] at hm hn
    calc round x ≤ m * 2 ^ exponent x := round_le (hm ▸ hxp)
      _ = n * 2 ^ exponent y := hm.symm.trans hn
      _ ≤ round y := le_round (hn ▸ hpy)
  · rw [round, round, ← heq]
    refine mul_le_mul_of_nonneg_right ?_ (zpow_exponent_pos x).le
    exact_mod_cast roundEven_mono (div_le_div_of_nonneg_right h (zpow_exponent_pos x).le)

/-- Integers of up to 53 bits are numbers. -/
theorem round_natCast {n : ℕ} (h : n < 2 ^ 53) : round n = n := by
  refine round_eq_self (n := n) (k := 0) (by simp) ?_
  have hlog : Nat.log 2 n ≤ 52 := Nat.lt_succ_iff.mp (Nat.log_lt_of_lt_pow' (by norm_num) h)
  have hint : Int.log 2 (n : ℚ) = Nat.log 2 n := Int.log_natCast 2 n
  unfold exponent
  omega

/-- So are powers of two. -/
theorem round_two_pow (k : ℕ) : round (2 ^ k) = 2 ^ k := by
  refine round_eq_self (n := 1) (k := k) (by rw [Int.cast_one, one_mul, zpow_natCast]) ?_
  have hlog : Int.log 2 ((2 : ℚ) ^ (k : ℤ)) = k := Int.log_zpow (b := 2) (by norm_num) k
  rw [zpow_natCast] at hlog
  unfold exponent
  omega

/-! ## Operations -/

/-- The number for an exact result. -/
def fl (x : ℚ) : Option ℚ := if round x < 2 ^ 1024 then some (round x) else none

/-- An integer as a number. -/
def ofNat (n : ℕ) : Option ℚ := fl n

def div (x y : Option ℚ) : Option ℚ :=
  x.bind fun x ↦ y.bind fun y ↦ if y = 0 then none else fl (x / y)

def mul (x y : Option ℚ) : Option ℚ := x.bind fun x ↦ y.bind fun y ↦ fl (x * y)

/-- Subtraction of a number that is not larger. -/
def sub (x y : Option ℚ) : Option ℚ := x.bind fun x ↦ y.bind fun y ↦ fl (x - y)

/-- Bounds that are numbers are kept. -/
theorem fl_mem_Icc {x a b : ℚ} (ha : round a = a) (hb : round b = b) (h0 : 0 ≤ a) (hax : a ≤ x)
    (hxb : x ≤ b) (hlt : b < 2 ^ 1024) : ∃ r, fl x = some r ∧ a ≤ r ∧ r ≤ b := by
  have hlow : a ≤ round x := ha ▸ round_mono h0 hax
  have hhigh : round x ≤ b := hb ▸ round_mono (h0.trans hax) hxb
  exact ⟨round x, if_pos (hhigh.trans_lt hlt), hlow, hhigh⟩

theorem lt_two_pow_1024 {x : ℚ} (h : x ≤ 2 ^ 100) : x < 2 ^ 1024 :=
  h.trans_lt (pow_lt_pow_right₀ one_lt_two (by norm_num))

/-- Integers that are not too large are rounded to a number. -/
theorem ofNat_eq {n : ℕ} (h : n ≤ 2 ^ 100) : ofNat n = some (round n) := by
  have hle : (n : ℚ) ≤ 2 ^ 100 := by exact_mod_cast h
  have hround := round_mono (Nat.cast_nonneg n) hle
  rw [round_two_pow] at hround
  exact if_pos (lt_two_pow_1024 hround)

/-- A part of something, as a percentage. -/
theorem percentage_mem_Icc {m n : ℕ} (h : m ≤ n) (hn : 0 < n) (hle : n ≤ 2 ^ 100) :
    ∃ p, mul (div (ofNat m) (ofNat n)) (ofNat 100) = some p ∧ 0 ≤ p ∧ p ≤ 100 := by
  have hzero : round 0 = 0 := by exact_mod_cast round_natCast (n := 0) (by norm_num)
  have hone : round 1 = 1 := by exact_mod_cast round_natCast (n := 1) (by norm_num)
  have hhundred : round 100 = 100 := by exact_mod_cast round_natCast (n := 100) (by norm_num)
  have hm : 0 ≤ round m := hzero ▸ round_mono le_rfl (Nat.cast_nonneg m)
  have hmn : round m ≤ round n := round_mono (Nat.cast_nonneg m) (by exact_mod_cast h)
  have hpos : 0 < round n := by
    have hle := round_mono (x := 1) (y := n) zero_le_one (by exact_mod_cast hn)
    rw [hone] at hle
    exact zero_lt_one.trans_le hle
  obtain ⟨q, hq, hq0, hq1⟩ := fl_mem_Icc hzero hone le_rfl (div_nonneg hm hpos.le)
    ((div_le_one hpos).mpr hmn) (lt_two_pow_1024 (by norm_num))
  obtain ⟨p, hp, hp0, hp100⟩ := fl_mem_Icc (x := q * 100) hzero hhundred le_rfl
    (mul_nonneg hq0 (by norm_num)) (by linarith) (lt_two_pow_1024 (by norm_num))
  refine ⟨p, ?_, hp0, hp100⟩
  have hdiv : div (ofNat m) (ofNat n) = some q := by
    rw [ofNat_eq (h.trans hle), ofNat_eq hle, div, Option.bind_some, Option.bind_some,
      if_neg hpos.ne', hq]
  rw [hdiv, ofNat_eq (by norm_num), mul, Option.bind_some, Option.bind_some, Nat.cast_ofNat,
    hhundred, hp]

/-- What remains of a percentage is one. -/
theorem sub_percentage_mem_Icc {p : ℚ} (h0 : 0 ≤ p) (h100 : p ≤ 100) :
    ∃ q, sub (ofNat 100) (some p) = some q ∧ 0 ≤ q ∧ q ≤ 100 := by
  have hzero : round 0 = 0 := by exact_mod_cast round_natCast (n := 0) (by norm_num)
  have hhundred : round 100 = 100 := by exact_mod_cast round_natCast (n := 100) (by norm_num)
  obtain ⟨q, hq, hq0, hq100⟩ := fl_mem_Icc (x := 100 - p) hzero hhundred le_rfl
    (by linarith) (by linarith) (lt_two_pow_1024 (by norm_num))
  refine ⟨q, ?_, hq0, hq100⟩
  rw [ofNat_eq (by norm_num), sub, Option.bind_some, Option.bind_some, Nat.cast_ofNat, hhundred, hq]

end Binary64
