import Mathlib.Data.List.TakeWhile
import Mathlib.Data.Nat.Digits.Lemmas
import Mathlib.Data.UInt

/-!
# Text files of decimal numbers

A common format for small tables: one number per line, written with `<<` and read back with
`std::getline` and `atol`. The functions here follow the C and C++ standard libraries. `getLines`
is the sequence of lines that repeated calls of `std::getline` deliver; a last line without newline
counts if it is not empty. `atol` skips white space, takes an optional sign and the longest run of
digits, and saturates at the ends of the range of `long`, as `strtol` does.

`readNumbers_writeNumbers` is the round trip. It needs the numbers to fit into a `long`.
-/

namespace TextFile

/-! ## Lines -/

/-- The lines that `std::getline` delivers, with the characters of the current one so far. -/
def getLinesFrom : List Char → List Char → List (List Char)
  | line, [] => if line.isEmpty then [] else [line]
  | line, c :: text =>
    if c = '\n' then line :: getLinesFrom [] text else getLinesFrom (line ++ [c]) text

def getLines (text : List Char) : List (List Char) := getLinesFrom [] text

theorem getLinesFrom_append {line rest : List Char} (hline : '\n' ∉ line) (start : List Char) :
    getLinesFrom start (line ++ '\n' :: rest) = (start ++ line) :: getLines rest := by
  induction line generalizing start with
  | nil => rw [List.nil_append, getLinesFrom, if_pos rfl, List.append_nil, getLines]
  | cons c line ih =>
    obtain ⟨hc, hline⟩ := not_or.mp (List.mem_cons.not.mp hline)
    rw [List.cons_append, getLinesFrom, if_neg (Ne.symm hc), ih hline, List.append_assoc,
      List.singleton_append]

/-- Lines that contain no newline are read back. -/
theorem getLines_flatMap {lines : List (List Char)} (h : ∀ line ∈ lines, '\n' ∉ line) :
    getLines (lines.flatMap fun line ↦ line ++ ['\n']) = lines := by
  induction lines with
  | nil => rfl
  | cons line lines ih =>
    obtain ⟨hline, hlines⟩ := List.forall_mem_cons.mp h
    rw [List.flatMap_cons, List.append_assoc, List.singleton_append, getLines,
      getLinesFrom_append hline, ih hlines, List.nil_append]

/-! ## Numbers -/

/-- `isspace` in the C locale. -/
def isSpace (c : Char) : Bool :=
  c = ' ' || c = '\t' || c = '\n' || c = '\x0b' || c = '\x0c' || c = '\r'

/-- White space is neither a digit nor a sign. -/
theorem of_isSpace {c : Char} (h : isSpace c = true) :
    c.isDigit = false ∧ c ≠ '-' ∧ c ≠ '+' := by
  simp only [isSpace, Bool.or_eq_true, decide_eq_true_eq] at h
  rcases h with ((((rfl | rfl) | rfl) | rfl) | rfl) | rfl <;> decide

/-- A `long` of `longBits` bits, saturated. -/
def saturate (longBits : ℕ) (n : ℤ) : ℤ :=
  max (-2 ^ (longBits - 1)) (min (2 ^ (longBits - 1) - 1) n)

/-- The decimal digits at the start of a text. -/
def leadingNumber (text : List Char) : ℕ := Nat.ofDigitChars 10 (text.takeWhile Char.isDigit) 0

/-- `atol`, where `long` has `longBits` bits. -/
def atol (longBits : ℕ) (text : List Char) : ℤ :=
  match text.dropWhile isSpace with
  | '-' :: text => saturate longBits (-leadingNumber text)
  | '+' :: text => saturate longBits (leadingNumber text)
  | text => saturate longBits (leadingNumber text)

/-- What `<<` prints for an unsigned integer. -/
def decimal (n : ℕ) : List Char := Nat.toDigits 10 n

theorem isDigit_of_mem_decimal {n : ℕ} {c : Char} (h : c ∈ decimal n) : c.isDigit = true :=
  Nat.isDigit_of_mem_toDigits (by norm_num) (by norm_num) h

theorem newline_not_mem_decimal (n : ℕ) : '\n' ∉ decimal n := fun h ↦
  absurd (isDigit_of_mem_decimal h) (by decide)

theorem saturate_of_lt {longBits : ℕ} {n : ℕ} (h : n < 2 ^ (longBits - 1)) :
    saturate longBits n = n := by
  have hn : (n : ℤ) ≤ 2 ^ (longBits - 1) - 1 := by
    have : (n : ℤ) < 2 ^ (longBits - 1) := by exact_mod_cast h
    omega
  have hpos : (0 : ℤ) ≤ 2 ^ (longBits - 1) := by positivity
  rw [saturate, min_eq_right hn, max_eq_right (by omega)]

/-- A printed number is read back, saturated. -/
theorem atol_decimal_eq (longBits n : ℕ) : atol longBits (decimal n) = saturate longBits n := by
  have hdigits : (decimal n).takeWhile Char.isDigit = decimal n :=
    List.takeWhile_eq_self_iff.mpr fun c hc ↦ isDigit_of_mem_decimal hc
  have hnumber : leadingNumber (decimal n) = n := by
    rw [leadingNumber, hdigits]
    exact Nat.ofDigitChars_ten_toDigits
  have hdrop : (decimal n).dropWhile isSpace = decimal n := by
    rw [List.dropWhile_eq_self_iff]
    intro hpos hspace
    have hdigit := isDigit_of_mem_decimal (List.getElem_mem hpos)
    rw [(of_isSpace hspace).1] at hdigit
    cases hdigit
  -- the number starts with a digit, so with no sign
  have hhead : ∀ c, c.isDigit = false → ∀ text, decimal n ≠ c :: text := by
    intro c hc text heq
    have hdigit := isDigit_of_mem_decimal (heq ▸ List.mem_cons_self : c ∈ decimal n)
    rw [hc] at hdigit
    cases hdigit
  rw [atol, hdrop]
  split
  · next heq => exact absurd heq (hhead '-' rfl _)
  · next heq => exact absurd heq (hhead '+' rfl _)
  · rw [hnumber]

/-- A number that is padded with zeros is read back, up to a character that is no digit. -/
theorem leadingNumber_leftpad (width n : ℕ) {c : Char} {rest : List Char} (hc : c.isDigit = false) :
    leadingNumber (List.leftpad width '0' (decimal n) ++ c :: rest) = n := by
  have hdigits : ∀ d ∈ List.leftpad width '0' (decimal n), d.isDigit = true := by
    intro d hd
    obtain hd | hd := List.mem_append.mp hd
    · rw [List.eq_of_mem_replicate hd]
      rfl
    · exact isDigit_of_mem_decimal hd
  rw [leadingNumber, List.takeWhile_append_of_pos hdigits,
    List.takeWhile_cons_of_neg (by rw [hc]; exact Bool.false_ne_true), List.append_nil,
    List.leftpad, Nat.ofDigitChars_append, Nat.ofDigitChars_replicate_zero, Nat.mul_zero]
  exact Nat.ofDigitChars_ten_toDigits

/-! ## Unsigned numbers -/

/-- The exceptions of `std::stoul`. -/
inductive StoulError
  | invalidArgument
  | outOfRange

/-- Whether there is a minus sign, and the text after the sign if there is one. -/
def splitSign : List Char → Bool × List Char
  | '-' :: text => (true, text)
  | '+' :: text => (false, text)
  | text => (false, text)

/-- The digits that `strtoul` reads: after white space and a sign. -/
def leadingDigits (text : List Char) : List Char :=
  (splitSign (text.dropWhile isSpace)).2.takeWhile Char.isDigit

/-- `std::stoul`, where `unsigned long` has `bits` bits. A minus sign negates the result, modulo
`2 ^ bits`, and what follows the digits is not looked at. -/
def stoul (bits : ℕ) (text : List Char) : Except StoulError (BitVec bits) :=
  let n := Nat.ofDigitChars 10 (leadingDigits text) 0
  if leadingDigits text = [] then .error .invalidArgument
  else if 2 ^ bits ≤ n then .error .outOfRange
  else if (splitSign (text.dropWhile isSpace)).1 then .ok (-BitVec.ofNat bits n)
  else .ok (BitVec.ofNat bits n)

/-- The integer that a text is, from the sign to the last digit. -/
def decimalInteger (text : List Char) : Option ℤ :=
  let digits := (splitSign text).2
  let n := Nat.ofDigitChars 10 digits 0
  if digits ≠ [] ∧ digits.all Char.isDigit then some (if (splitSign text).1 then -n else n)
  else none

/-- A text that is an integer does not start with white space. -/
theorem dropWhile_isSpace_of_decimalInteger {text : List Char} {n : ℤ}
    (h : decimalInteger text = some n) : text.dropWhile isSpace = text := by
  cases text with
  | nil => rfl
  | cons c text =>
    refine List.dropWhile_cons_of_neg fun hspace ↦ ?_
    obtain ⟨hdigit, hminus, hplus⟩ := of_isSpace hspace
    have hsplit : splitSign (c :: text) = (false, c :: text) := by
      unfold splitSign
      split
      · next heq => exact absurd (List.cons.inj heq).1 hminus
      · next heq => exact absurd (List.cons.inj heq).1 hplus
      · rfl
    obtain ⟨⟨-, hall⟩, -⟩ := Option.ite_none_right_eq_some.mp h
    rw [hsplit, List.all_cons, hdigit] at hall
    cases hall

/-- An integer in range is what is read. -/
theorem stoul_of_decimalInteger {bits : ℕ} {text : List Char} {n : ℤ}
    (h : decimalInteger text = some n) (h0 : 0 ≤ n) (hn : n < 2 ^ bits) :
    stoul bits text = .ok (BitVec.ofNat bits n.toNat) := by
  have hspace := dropWhile_isSpace_of_decimalInteger h
  obtain ⟨⟨hne, hall⟩, hvalue⟩ := Option.ite_none_right_eq_some.mp h
  have hdigits : leadingDigits text = (splitSign text).2 := by
    rw [leadingDigits, hspace]
    exact List.takeWhile_eq_self_iff.mpr fun c hc ↦ List.all_eq_true.mp hall c hc
  have hvalue := Option.some.inj hvalue
  rw [stoul, hdigits, if_neg hne, hspace]
  cases hsign : (splitSign text).1 with
  | false =>
    rw [hsign, if_neg Bool.false_ne_true] at hvalue
    have hlt : Nat.ofDigitChars 10 (splitSign text).2 0 < 2 ^ bits := by
      exact_mod_cast hvalue ▸ hn
    rw [if_neg (not_le.mpr hlt), if_neg Bool.false_ne_true, ← hvalue, Int.toNat_natCast]
  -- a negated number that is not negative is zero
  | true =>
    rw [hsign, if_pos rfl] at hvalue
    have hzero : Nat.ofDigitChars 10 (splitSign text).2 0 = 0 := by omega
    have hn0 : n = 0 := by omega
    rw [hzero, if_neg (not_le.mpr (Nat.two_pow_pos bits)), if_pos rfl, hn0]
    simp

/-! ## Files of numbers -/

/-- The cast of a non-negative `long` to `uint32_t`. -/
theorem ofInt_natCast (n : UInt32) : UInt32.ofInt n.toNat = n := by
  have hmod : ((n.toNat : ℤ) % 2 ^ 32).toNat = n.toNat := by
    have := n.toNat_lt
    omega
  rw [UInt32.ofInt, hmod, UInt32.ofNat_toNat]

/-- `for (auto &it: numbers) file << it << "\n";` -/
def writeNumbers (numbers : List UInt32) : List Char :=
  (numbers.map fun n ↦ decimal n.toNat).flatMap fun line ↦ line ++ ['\n']

/-- `while (std::getline(file, line)) numbers.push_back((uint32_t)atol(line.c_str()));` -/
def readNumbers (longBits : ℕ) (text : List Char) : List UInt32 :=
  (getLines text).map fun line ↦ UInt32.ofInt (atol longBits line)

/-- What becomes of a number that is written and read back. -/
def throughLong (longBits : ℕ) (n : UInt32) : UInt32 := UInt32.ofInt (saturate longBits n.toNat)

/-- It fits into a `long` afterwards. -/
theorem toNat_throughLong_lt (longBits : ℕ) (n : UInt32) :
    (throughLong longBits n).toNat < 2 ^ (longBits - 1) := by
  have hpos : (1 : ℤ) ≤ 2 ^ (longBits - 1) := by exact_mod_cast Nat.one_le_two_pow
  have hnonneg : 0 ≤ saturate longBits n.toNat := le_max_of_le_right (le_min (by omega) (by omega))
  have hlt : saturate longBits n.toNat < 2 ^ (longBits - 1) := by
    refine max_lt (by omega) ((min_le_left _ _).trans_lt (by omega))
  obtain ⟨m, hm⟩ := Int.eq_ofNat_of_zero_le hnonneg
  rw [hm] at hlt
  have hmod : ((m : ℤ) % 2 ^ 32).toNat = m % 2 ^ 32 := by omega
  rw [throughLong, hm, UInt32.ofInt, hmod, UInt32.toNat_ofNat']
  exact ((Nat.mod_le _ _).trans (Nat.mod_le _ _)).trans_lt (by exact_mod_cast hlt)

/-- A number stays the same exactly if it fits into a `long`. -/
theorem throughLong_eq_iff (longBits : ℕ) (n : UInt32) :
    throughLong longBits n = n ↔ n.toNat < 2 ^ (longBits - 1) := by
  refine ⟨fun h ↦ h ▸ toNat_throughLong_lt longBits n, fun h ↦ ?_⟩
  rw [throughLong, saturate_of_lt h, ofInt_natCast]

theorem readNumbers_writeNumbers_eq (longBits : ℕ) (numbers : List UInt32) :
    readNumbers longBits (writeNumbers numbers) = numbers.map (throughLong longBits) := by
  have hlines : ∀ line ∈ numbers.map fun n ↦ decimal n.toNat, '\n' ∉ line := by
    intro line hline
    obtain ⟨n, -, rfl⟩ := List.mem_map.mp hline
    exact newline_not_mem_decimal n.toNat
  rw [readNumbers, writeNumbers, getLines_flatMap hlines, List.map_map]
  refine List.map_congr_left fun n _ ↦ ?_
  rw [Function.comp_apply, atol_decimal_eq, throughLong]

/-- Numbers are read back in order exactly if they fit into a `long`. -/
theorem readNumbers_writeNumbers_iff (longBits : ℕ) (numbers : List UInt32) :
    readNumbers longBits (writeNumbers numbers) = numbers ↔
      ∀ n ∈ numbers, n.toNat < 2 ^ (longBits - 1) := by
  have hmap : numbers.map (throughLong longBits) = numbers ↔
      ∀ n ∈ numbers, throughLong longBits n = n := by
    conv_lhs => rw [← List.map_id numbers, List.map_map]
    exact List.map_inj_left
  rw [readNumbers_writeNumbers_eq, hmap]
  simp only [throughLong_eq_iff]

/-- Numbers are read back in order. -/
theorem readNumbers_writeNumbers {longBits : ℕ} {numbers : List UInt32}
    (h : ∀ n ∈ numbers, n.toNat < 2 ^ (longBits - 1)) :
    readNumbers longBits (writeNumbers numbers) = numbers :=
  (readNumbers_writeNumbers_iff longBits numbers).mpr h

/-- On a machine with a `long` of 64 bits every 32-bit number fits. -/
theorem readNumbers_writeNumbers_64 (numbers : List UInt32) :
    readNumbers 64 (writeNumbers numbers) = numbers :=
  readNumbers_writeNumbers fun n _ ↦ n.toNat_lt.trans (by norm_num)

end TextFile
