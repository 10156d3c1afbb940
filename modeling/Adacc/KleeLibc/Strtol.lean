import Adacc.Foundation.DigitStrings
import Adacc.Foundation.TextFile

/-!
# `strtol` and `strtoul`

The sources of these functions come with SymCC so that they can be compiled with instrumentation,
in place of those of the system's library. Both are the same code for different ranges: skip white
space, take a sign, take the prefix of hexadecimal numbers, find out the base, and read digits, with
a cutoff in place of an overflow.

A string is what memory holds from its start on; reading beyond that is `none`. A pointer into it is
what is left from there. The functions never read beyond the first NUL (`strtox_eq`).

They are compared with what the C standard says. There is one difference. A prefix `0x` without a
hexadecimal digit after it is a zero followed by an `x`, but the functions have given up the zero by
then: they report that nothing could be converted (`strtol_iff`, `strtoul_iff`).
-/

namespace Adacc

namespace KleeLibc

open TextFile DigitStrings

/-- The values of `errno` that the functions set. -/
inductive Errno
  | EINVAL
  | ERANGE
  deriving DecidableEq

/-- What a call leaves behind. `endptr` is what the argument of that name is made to point to, if it
is not NULL, and `errno` is `none` if it stays as it is. -/
structure Conversion where
  value : BitVec 64
  endptr : List Char
  errno : Option Errno
  deriving DecidableEq

/-! ## The functions -/

/-- `c = *s++`, as the string from the character on. -/
def next (s : List Char) : Option (List Char) := if s.isEmpty then none else some s

/-- `do { c = *s++; } while (isspace((unsigned char)c));` -/
def skipSpace : List Char → Option (List Char)
  | [] => none
  | c :: s => if isSpace c then skipSpace s else some (c :: s)

/-- The sign: `neg`, and the string from the next character on. -/
def takeSign : List Char → Option (Bool × List Char)
  | [] => none
  | c :: s =>
    if c = '-' then (next s).map fun s ↦ (true, s)
    else if c = '+' then (next s).map fun s ↦ (false, s)
    else some (false, c :: s)

/-- The prefix of hexadecimal numbers: the base, and the string from the next character on. -/
def takePrefix (base : ℤ) : List Char → Option (ℤ × List Char)
  | [] => none
  | c :: s =>
    if (base = 0 ∨ base = 16) ∧ c = '0' then
      match s with
      | [] => none
      | x :: s' => if x = 'x' ∨ x = 'X' then (next s').map fun s ↦ (16, s) else some (base, c :: s)
    else some (base, c :: s)

/-- The digit that a character stands for. -/
def digitOf (c : Char) : Option ℕ :=
  if '0' ≤ c ∧ c ≤ '9' then some (c.toNat - '0'.toNat)
  else if 'A' ≤ c ∧ c ≤ 'Z' then some (c.toNat - ('A'.toNat - 10))
  else if 'a' ≤ c ∧ c ≤ 'z' then some (c.toNat - ('a'.toNat - 10))
  else none

/-- The main loop: `acc`, `any`, and the string from the character on at which it stops. -/
def digitLoop (cutoff : BitVec 64) (cutlim base : ℕ) :
    List Char → BitVec 64 → ℤ → Option (BitVec 64 × ℤ × List Char)
  | [], _, _ => none
  | c :: s, acc, any =>
    match digitOf c with
    | none => some (acc, any, c :: s)
    | some d =>
      if base ≤ d then some (acc, any, c :: s)
      else if any < 0 ∨ cutoff < acc ∨ acc = cutoff ∧ cutlim < d then
        digitLoop cutoff cutlim base s acc (-1)
      else
        digitLoop cutoff cutlim base s (acc * BitVec.ofNat 64 base + BitVec.ofNat 64 d) 1

/-- The code of both functions. The cutoff before the division by the base and the result in case of
an overflow depend on the sign. -/
def strtox (cutoff overflow : Bool → BitVec 64) (nptr : List Char) (base : ℤ) :
    Option Conversion :=
  (skipSpace nptr).bind fun s ↦ (takeSign s).bind fun signed ↦
    (takePrefix base signed.2).bind fun prefixed ↦
      let base := if prefixed.1 = 0 then if prefixed.2.head? = some '0' then 8 else 10
        else prefixed.1
      if base < 2 ∨ 36 < base then some ⟨0, nptr, some .EINVAL⟩
      else
        let b := base.toNat
        (digitLoop (cutoff signed.1 / BitVec.ofNat 64 b) ((cutoff signed.1).toNat % b) b prefixed.2
          0 0).map fun (acc, any, s) ↦
            if any < 0 then ⟨overflow signed.1, s, some .ERANGE⟩
            else if any = 0 then ⟨acc, nptr, some .EINVAL⟩
            else ⟨if signed.1 then -acc else acc, s, none⟩

def LONG_MIN : BitVec 64 := BitVec.intMin 64

def LONG_MAX : BitVec 64 := BitVec.intMax 64

def ULONG_MAX : BitVec 64 := BitVec.allOnes 64

def strtol : List Char → ℤ → Option Conversion :=
  strtox (fun neg ↦ if neg then -(LONG_MIN + LONG_MAX) + LONG_MAX else LONG_MAX)
    fun neg ↦ if neg then LONG_MIN else LONG_MAX

def strtoul : List Char → ℤ → Option Conversion :=
  strtox (fun _ ↦ ULONG_MAX) fun _ ↦ ULONG_MAX

/-- `(int)strtol(str, (char **)NULL, 10)` -/
def atoi (str : List Char) : Option (BitVec 32) :=
  (strtol str 10).map fun r ↦ r.value.setWidth 32

/-! ## The C standard -/

def isDigitIn (base : ℕ) (c : Char) : Bool := (digitOf c).any (· < base)

/-- A zero and an `x`. -/
def hasPrefix : List Char → Bool
  | c :: x :: _ => c = '0' && (x = 'x' || x = 'X')
  | _ => false

/-- A hexadecimal digit after the prefix. -/
def isHexadecimal (s : List Char) : Bool :=
  hasPrefix s && ((s.drop 2).head?).any (isDigitIn 16)

/-- The base that a number is in if the argument is zero. -/
def implicitBase (s : List Char) : ℕ :=
  if isHexadecimal s then 16 else if s.head? = some '0' then 8 else 10

/-- The parts of a string: the sign, the base, the digits of the number, and the rest. -/
structure Subject where
  neg : Bool
  base : ℕ
  digits : List ℕ
  rest : List Char

/-- The digits at the start of a string. -/
def leadingDigitsIn (base : ℕ) (s : List Char) : List ℕ :=
  (s.takeWhile (isDigitIn base)).filterMap digitOf

/-- The parts, from the sign, the base and the string from the first digit on. -/
def digitsFrom (neg : Bool) (base : ℕ) (s : List Char) : Subject :=
  ⟨neg, base, leadingDigitsIn base s, s.dropWhile (isDigitIn base)⟩

/-- The same from the string after the sign. -/
def subjectFrom (neg : Bool) (s : List Char) (base : ℤ) : Subject :=
  let b := if base = 0 then implicitBase s else base.toNat
  digitsFrom neg b (if b = 16 ∧ isHexadecimal s = true then s.drop 2 else s)

/-- The longest initial part that has the expected form. -/
def subject (nptr : List Char) (base : ℤ) : Subject :=
  let signed := splitSign (nptr.dropWhile isSpace)
  subjectFrom signed.1 signed.2 base

/-- The number, before the sign. -/
def Subject.magnitude (q : Subject) : ℕ := value q.base 0 q.digits

/-- The integer that the string stands for. -/
def Subject.integer (q : Subject) : ℤ := if q.neg then -q.magnitude else q.magnitude

/-- The integer, or the end of the range of `long` that is closer. -/
def Subject.toLong (nptr : List Char) (q : Subject) : Conversion :=
  if q.digits = [] then ⟨0, nptr, some .EINVAL⟩
  else
    ⟨BitVec.ofInt 64 (saturate 64 q.integer), q.rest,
      if saturate 64 q.integer = q.integer then none else some .ERANGE⟩

/-- The integer in `unsigned long`, unless its absolute value exceeds the range. -/
def Subject.toUnsignedLong (nptr : List Char) (q : Subject) : Conversion :=
  if q.digits = [] then ⟨0, nptr, some .EINVAL⟩
  else if 2 ^ 64 ≤ q.magnitude then ⟨ULONG_MAX, q.rest, some .ERANGE⟩
  else ⟨BitVec.ofInt 64 q.integer, q.rest, none⟩

/-- `strtol` according to the standard. -/
def standardStrtol (nptr : List Char) (base : ℤ) : Conversion := (subject nptr base).toLong nptr

/-- `strtoul` according to the standard. -/
def standardStrtoul (nptr : List Char) (base : ℤ) : Conversion :=
  (subject nptr base).toUnsignedLong nptr

/-- A prefix without a digit after it. -/
def DanglingPrefix (nptr : List Char) (base : ℤ) : Prop :=
  (base = 0 ∨ base = 16) ∧ hasPrefix (splitSign (nptr.dropWhile isSpace)).2 = true ∧
    isHexadecimal (splitSign (nptr.dropWhile isSpace)).2 = false

instance (nptr : List Char) (base : ℤ) : Decidable (DanglingPrefix nptr base) :=
  inferInstanceAs (Decidable (_ ∧ _))

/-! ## The string -/

def NUL : Char := '\x00'

theorem next_of_mem {s : List Char} (h : NUL ∈ s) : next s = some s :=
  if_neg (by rw [List.isEmpty_iff]; exact List.ne_nil_of_mem h)

/-- What is left after characters other than NUL still contains the NUL. -/
theorem mem_dropWhile {p : Char → Bool} (hp : p NUL = false) {s : List Char} (h : NUL ∈ s) :
    NUL ∈ s.dropWhile p := by
  induction s with
  | nil => exact absurd h List.not_mem_nil
  | cons c s ih =>
    rw [List.dropWhile_cons]
    split
    · next hc =>
      refine ih ((List.mem_cons.mp h).resolve_left ?_)
      rintro rfl
      rw [hp] at hc
      cases hc
    · exact h

private theorem skipSpace_eq {s : List Char} (h : NUL ∈ s) : skipSpace s = some
    (s.dropWhile isSpace) := by
  induction s with
  | nil => exact absurd h List.not_mem_nil
  | cons c s ih =>
    rw [skipSpace, List.dropWhile_cons]
    split
    · next hc =>
      refine ih ((List.mem_cons.mp h).resolve_left ?_)
      rintro rfl
      cases hc
    · rfl

private theorem takeSign_eq {s : List Char} (h : NUL ∈ s) :
    takeSign s = some (splitSign s) ∧ NUL ∈ (splitSign s).2 := by
  rcases s with - | ⟨c, s⟩
  · exact absurd h List.not_mem_nil
  have hrest : c ≠ NUL → NUL ∈ s := fun hc ↦ (List.mem_cons.mp h).resolve_left hc.symm
  by_cases hminus : c = '-'
  · subst hminus
    have hs := hrest (by decide)
    exact ⟨by rw [takeSign, if_pos rfl, next_of_mem hs]; rfl, hs⟩
  by_cases hplus : c = '+'
  · subst hplus
    have hs := hrest (by decide)
    exact ⟨by rw [takeSign, if_neg (by decide), if_pos rfl, next_of_mem hs]; rfl, hs⟩
  have hsplit : splitSign (c :: s) = (false, c :: s) := by
    unfold splitSign
    split
    · next heq => exact absurd (List.cons.inj heq).1 hminus
    · next heq => exact absurd (List.cons.inj heq).1 hplus
    · rfl
  rw [hsplit, takeSign, if_neg hminus, if_neg hplus]
  exact ⟨rfl, h⟩

/-- The prefix is taken whatever follows it. -/
theorem takePrefix_eq (base : ℤ) {s : List Char} (h : NUL ∈ s) :
    takePrefix base s = some (if (base = 0 ∨ base = 16) ∧ hasPrefix s = true then (16, s.drop 2)
      else (base, s)) ∧ (hasPrefix s = true → NUL ∈ s.drop 2) := by
  rcases s with - | ⟨c, s⟩
  · exact absurd h List.not_mem_nil
  by_cases hc : c = '0'
  · subst hc
    have hs : NUL ∈ s := (List.mem_cons.mp h).resolve_left (by decide)
    rcases s with - | ⟨x, s⟩
    · exact absurd hs List.not_mem_nil
    by_cases hx : x = 'x' ∨ x = 'X'
    · have hrest : NUL ∈ s := by
        refine (List.mem_cons.mp hs).resolve_left ?_
        rcases hx with rfl | rfl <;> decide
      have hpre : hasPrefix ('0' :: x :: s) = true := by simp [hasPrefix, hx]
      refine ⟨?_, fun _ ↦ hrest⟩
      by_cases hbase : base = 0 ∨ base = 16
      · rw [takePrefix, if_pos ⟨hbase, rfl⟩, if_pos hx, if_pos ⟨hbase, hpre⟩, next_of_mem hrest]
        rfl
      · rw [takePrefix, if_neg (fun h ↦ hbase h.1), if_neg fun h ↦ hbase h.1]
    · have hpre : hasPrefix ('0' :: x :: s) = false := by simpa [hasPrefix] using hx
      rw [hpre, if_neg fun h ↦ Bool.false_ne_true h.2, takePrefix]
      refine ⟨?_, fun h ↦ absurd h Bool.false_ne_true⟩
      rw [if_neg hx, ite_self]
  · have hpre : hasPrefix (c :: s) = false := by
      rcases s with - | ⟨x, s⟩ <;> simp [hasPrefix, hc]
    rw [hpre, if_neg fun h ↦ Bool.false_ne_true h.2]
    refine ⟨?_, fun h ↦ absurd h Bool.false_ne_true⟩
    rcases s with - | ⟨x, s⟩ <;> rw [takePrefix, if_neg fun h ↦ hc h.2]

/-! ## The digits -/

private theorem isDigitIn_NUL (base : ℕ) : isDigitIn base NUL = false := by
  have hnone : digitOf NUL = none := by decide
  rw [isDigitIn, hnone]
  rfl

theorem leadingDigitsIn_cons {base : ℕ} {c : Char} {d : ℕ} (hd : digitOf c = some d) (h : d < base)
    (s : List Char) : leadingDigitsIn base (c :: s) = d :: leadingDigitsIn base s := by
  have hc : isDigitIn base c = true := by
    rw [isDigitIn, hd]
    exact decide_eq_true h
  rw [leadingDigitsIn, List.takeWhile_cons_of_pos hc, List.filterMap_cons_some hd, leadingDigitsIn]

/-- `acc` and `any` stand for the value so far, or for an overflow. -/
def Reached (limit : BitVec 64) (acc : BitVec 64) (any : ℤ) : Option ℕ → Prop
  | none => any < 0
  | some n => 0 ≤ any ∧ acc.toNat = n ∧ n ≤ limit.toNat

section DigitLoop

variable {limit : BitVec 64} {base : ℕ}

/-- One digit, as long as there has been no overflow. -/
theorem cutoff_iff (hbase : 2 ≤ base ∧ base ≤ 36) {acc : BitVec 64} {d : ℕ} (hd : d < base) :
    limit / BitVec.ofNat 64 base < acc ∨
        acc = limit / BitVec.ofNat 64 base ∧ limit.toNat % base < d ↔
      limit.toNat < acc.toNat * base + d := by
  have hcutoff : (limit / BitVec.ofNat 64 base).toNat = limit.toNat / base := by
    rw [BitVec.toNat_udiv, BitVec.toNat_ofNat, Nat.mod_eq_of_lt (by omega)]
  rw [← exceeds_iff hd, BitVec.lt_def, hcutoff, ← BitVec.toNat_inj, hcutoff]

private theorem toNat_accumulate (hbase : 2 ≤ base ∧ base ≤ 36) {acc : BitVec 64} {d : ℕ}
    (hd : d < base) (h : acc.toNat * base + d ≤ limit.toNat) :
    (acc * BitVec.ofNat 64 base + BitVec.ofNat 64 d).toNat = acc.toNat * base + d := by
  have hlimit := limit.isLt
  rw [BitVec.toNat_add, BitVec.toNat_mul, BitVec.toNat_ofNat, BitVec.toNat_ofNat,
    Nat.mod_eq_of_lt (show base < 2 ^ 64 by omega), Nat.mod_eq_of_lt (show d < 2 ^ 64 by omega),
    Nat.mod_add_mod, Nat.mod_eq_of_lt (by omega)]

/-- The loop reads all digits, and knows the value unless it exceeds the limit. -/
theorem digitLoop_eq (hbase : 2 ≤ base ∧ base ≤ 36) {s : List Char} (hs : NUL ∈ s)
    {acc : BitVec 64} {any : ℤ} {n : Option ℕ} (h : Reached limit acc any n) :
    ∃ acc' any', digitLoop (limit / BitVec.ofNat 64 base) (limit.toNat % base) base s acc any
        = some (acc', any', s.dropWhile (isDigitIn base)) ∧
      Reached limit acc' any' (readUpTo base limit.toNat n (leadingDigitsIn base s)) ∧
      (any' = 0 ↔ any = 0 ∧ leadingDigitsIn base s = []) := by
  induction s generalizing acc any n with
  | nil => exact absurd hs List.not_mem_nil
  | cons c s ih =>
    have hstop : isDigitIn base c = false → digitLoop (limit / BitVec.ofNat 64 base)
        (limit.toNat % base) base (c :: s) acc any = some (acc, any, c :: s) →
        ∃ acc' any', digitLoop (limit / BitVec.ofNat 64 base) (limit.toNat % base) base (c :: s)
            acc any = some (acc', any', (c :: s).dropWhile (isDigitIn base)) ∧
          Reached limit acc' any' (readUpTo base limit.toNat n (leadingDigitsIn base (c :: s))) ∧
          (any' = 0 ↔ any = 0 ∧ leadingDigitsIn base (c :: s) = []) := by
      intro hc heq
      have hnil : leadingDigitsIn base (c :: s) = [] := by
        rw [leadingDigitsIn, List.takeWhile_cons_of_neg (by rw [hc]; exact Bool.false_ne_true)]
        rfl
      rw [List.dropWhile_cons_of_neg (by rw [hc]; exact Bool.false_ne_true), hnil]
      exact ⟨acc, any, heq, h, by rw [and_iff_left rfl]⟩
    rcases hd : digitOf c with - | d
    · refine hstop (by rw [isDigitIn, hd]; rfl) ?_
      rw [digitLoop, hd]
    by_cases hlt : base ≤ d
    · refine hstop (by rw [isDigitIn, hd]; exact decide_eq_false (Nat.not_lt.mpr hlt)) ?_
      simp only [digitLoop, hd, if_pos hlt]
    -- a digit: the loop goes on, with an overflow or with the next value
    rw [Nat.not_le] at hlt
    have hc : isDigitIn base c = true := by
      rw [isDigitIn, hd]
      exact decide_eq_true hlt
    have hmem : NUL ∈ s := by
      refine (List.mem_cons.mp hs).resolve_left ?_
      rintro rfl
      rw [isDigitIn_NUL] at hc
      cases hc
    rw [List.dropWhile_cons_of_pos hc, leadingDigitsIn_cons hd hlt, readUpTo, List.foldl_cons,
      ← readUpTo]
    simp only [digitLoop, hd, if_neg (Nat.not_le.mpr hlt), reduceCtorEq, and_false, iff_false]
    have hnext : ∀ {acc' : BitVec 64} {any' : ℤ}, any' ≠ 0 →
        Reached limit acc' any' (readDigit base limit.toNat n d) →
        ∃ acc'' any'', digitLoop (limit / BitVec.ofNat 64 base) (limit.toNat % base) base s acc'
            any' = some (acc'', any'', s.dropWhile (isDigitIn base)) ∧
          Reached limit acc'' any'' (readUpTo base limit.toNat (readDigit base limit.toNat n d)
            (leadingDigitsIn base s)) ∧ ¬any'' = 0 := by
      intro acc' any' hany hreached
      obtain ⟨acc'', any'', heq, hreached', hzero⟩ := ih hmem hreached
      exact ⟨acc'', any'', heq, hreached', fun h ↦ hany (hzero.mp h).1⟩
    rcases n with - | n
    · rw [if_pos (.inl h)]
      exact hnext (by decide) (by decide : (-1 : ℤ) < 0)
    · obtain ⟨hany, hacc, hle⟩ := h
      subst hacc
      have hcut := @cutoff_iff limit base hbase acc d hlt
      by_cases hexceeds : limit.toNat < acc.toNat * base + d
      · rw [if_pos (.inr (hcut.mpr hexceeds))]
        refine hnext (by decide) ?_
        rw [readDigit, Option.bind_some, if_pos hexceeds]
        exact (by decide : (-1 : ℤ) < 0)
      · rw [if_neg (not_or.mpr ⟨not_lt.mpr hany, mt hcut.mp hexceeds⟩)]
        refine hnext (by decide) ?_
        rw [readDigit, Option.bind_some, if_neg hexceeds]
        rw [Nat.not_lt] at hexceeds
        exact ⟨by decide, toNat_accumulate hbase hlt hexceeds, hexceeds⟩

end DigitLoop

/-! ## The whole functions -/

/-- The parts as the functions take them: they accept a prefix without looking further. -/
def takenFrom (neg : Bool) (s : List Char) (base : ℤ) : Subject :=
  if (base = 0 ∨ base = 16) ∧ hasPrefix s = true then digitsFrom neg 16 (s.drop 2)
  else
    digitsFrom neg (if base = 0 then if s.head? = some '0' then 8 else 10 else base.toNat) s

def taken (nptr : List Char) (base : ℤ) : Subject :=
  let signed := splitSign (nptr.dropWhile isSpace)
  takenFrom signed.1 signed.2 base

/-- What the functions make of these parts. -/
def convert (cutoff overflow : Bool → BitVec 64) (nptr : List Char) (q : Subject) : Conversion :=
  if q.digits = [] then ⟨0, nptr, some .EINVAL⟩
  else if (cutoff q.neg).toNat < q.magnitude then ⟨overflow q.neg, q.rest, some .ERANGE⟩
  else
    ⟨if q.neg then -BitVec.ofNat 64 q.magnitude else BitVec.ofNat 64 q.magnitude, q.rest, none⟩

/-- After the loop. -/
theorem convert_eq_of_reached {cutoff overflow : Bool → BitVec 64} {nptr rest : List Char}
    {neg : Bool} {b : ℕ} (hb : 0 < b) {digits : List ℕ} {acc : BitVec 64} {any : ℤ}
    (hreached : Reached (cutoff neg) acc any (readUpTo b (cutoff neg).toNat (some 0) digits))
    (hzero : any = 0 ↔ (0 : ℤ) = 0 ∧ digits = []) :
    (if any < 0 then ⟨overflow neg, rest, some .ERANGE⟩
      else if any = 0 then ⟨acc, nptr, some .EINVAL⟩
      else ⟨if neg then -acc else acc, rest, none⟩)
      = convert cutoff overflow nptr ⟨neg, b, digits, rest⟩ := by
  rw [readUpTo_eq hb (Nat.zero_le _)] at hreached
  rw [and_iff_right rfl] at hzero
  rw [convert, Subject.magnitude]
  dsimp only
  by_cases hdigits : digits = []
  · subst hdigits
    rw [value_nil, if_neg (Nat.not_lt.mpr (Nat.zero_le _))] at hreached
    obtain ⟨hnonneg, hacc, -⟩ := hreached
    have hacc' : acc = 0 := BitVec.eq_of_toNat_eq hacc
    rw [if_neg (not_lt.mpr hnonneg), if_pos (hzero.mpr rfl), if_pos rfl, hacc']
  · rw [if_neg hdigits]
    have hany := mt hzero.mp hdigits
    by_cases hexceeds : (cutoff neg).toNat < value b 0 digits
    · rw [if_pos hexceeds] at hreached
      have hneg : any < 0 := hreached
      rw [if_pos hneg, if_pos hexceeds]
    · rw [if_neg hexceeds] at hreached
      obtain ⟨hnonneg, hacc, -⟩ := hreached
      have hacc' : acc = BitVec.ofNat 64 (value b 0 digits) := by
        rw [← hacc, BitVec.ofNat_toNat, BitVec.setWidth_eq]
      rw [if_neg (not_lt.mpr hnonneg), if_neg hany, if_neg hexceeds, hacc']

/-- The bases that the functions accept. -/
def ValidBase (base : ℤ) : Prop := base = 0 ∨ 2 ≤ base ∧ base ≤ 36

instance : DecidablePred ValidBase := fun _ ↦ inferInstanceAs (Decidable (_ ∨ _))

/-- From the base and the first digit on. -/
theorem strtox_from {cutoff overflow : Bool → BitVec 64} {nptr s : List Char} (neg : Bool)
    (hs : NUL ∈ s) {base : ℤ} (hbase : ValidBase base) {b : ℕ}
    (hb : b = if base = 0 then if s.head? = some '0' then 8 else 10 else base.toNat) :
    (if (if base = 0 then if s.head? = some '0' then 8 else 10 else base : ℤ) < 2 ∨
        36 < (if base = 0 then if s.head? = some '0' then 8 else 10 else base : ℤ) then
        some ⟨0, nptr, some .EINVAL⟩
      else
        let b := (if base = 0 then if s.head? = some '0' then 8 else 10 else base : ℤ).toNat
        (digitLoop (cutoff neg / BitVec.ofNat 64 b) ((cutoff neg).toNat % b) b s 0 0).map
          fun (acc, any, s) ↦
            if any < 0 then ⟨overflow neg, s, some .ERANGE⟩
            else if any = 0 then ⟨acc, nptr, some .EINVAL⟩
            else ⟨if neg then -acc else acc, s, none⟩)
      = some (convert cutoff overflow nptr (digitsFrom neg b s)) := by
  have hrange : 2 ≤ b ∧ b ≤ 36 ∧
      (if base = 0 then if s.head? = some '0' then 8 else 10 else base : ℤ) = b := by
    subst hb
    rcases hbase with rfl | h
    · rw [if_pos rfl, if_pos rfl]
      split <;> decide
    · rw [if_neg (by omega), if_neg (by omega)]
      omega
  obtain ⟨hlow, hhigh, heq⟩ := hrange
  rw [heq, if_neg (by omega), Int.toNat_natCast]
  have hstart : Reached (cutoff neg) 0 0 (some 0) := ⟨le_rfl, rfl, Nat.zero_le _⟩
  obtain ⟨acc, any, hloop, hreached, hzero⟩ := digitLoop_eq ⟨hlow, hhigh⟩ hs hstart
  dsimp only
  rw [hloop, Option.map_some]
  exact congrArg some (convert_eq_of_reached (by omega) hreached hzero)

/-- The functions find the end of the digits before the end of the string, whatever the string and
the base are. -/
theorem strtox_eq (cutoff overflow : Bool → BitVec 64) {nptr : List Char} (h : NUL ∈ nptr)
    (base : ℤ) :
    strtox cutoff overflow nptr base
      = some (if ValidBase base then convert cutoff overflow nptr (taken nptr base)
        else ⟨0, nptr, some .EINVAL⟩) := by
  have hspace : NUL ∈ nptr.dropWhile isSpace := mem_dropWhile rfl h
  obtain ⟨hsign, hmem⟩ := takeSign_eq hspace
  obtain ⟨hpre, hdrop⟩ := takePrefix_eq base hmem
  rw [strtox, skipSpace_eq h, Option.bind_some, hsign, Option.bind_some, hpre, Option.bind_some,
    taken, takenFrom]
  have hsixteen : ValidBase 16 := by decide
  by_cases hbase : ValidBase base
  · rw [if_pos hbase]
    split
    · next hp => exact strtox_from _ (hdrop hp.2) hsixteen rfl
    · exact strtox_from _ hmem hbase rfl
  · have hbad := hbase
    rw [ValidBase] at hbad
    have hnot : ¬((base = 0 ∨ base = 16) ∧
        hasPrefix (splitSign (nptr.dropWhile isSpace)).2 = true) := fun hp ↦ by omega
    have hzero : base ≠ 0 := fun h ↦ hbad (.inl h)
    rw [if_neg hbase, if_neg hnot]
    dsimp only
    rw [if_neg hzero, if_pos (by omega)]

/-! ## Agreement with the standard -/

section Standard

variable {nptr : List Char} {base : ℤ}

theorem hasPrefix_of_isHexadecimal {s : List Char} (h : isHexadecimal s = true) :
    hasPrefix s = true := by
  rw [isHexadecimal, Bool.and_eq_true] at h
  exact h.1

/-- The functions take the parts that they should, except after a dangling prefix. -/
theorem taken_eq_subject (hbase : ValidBase base) (h : ¬DanglingPrefix nptr base) :
    taken nptr base = subject nptr base := by
  rw [DanglingPrefix] at h
  rw [taken, subject]
  generalize (splitSign (nptr.dropWhile isSpace)).1 = neg at h ⊢
  generalize (splitSign (nptr.dropWhile isSpace)).2 = s at h ⊢
  rw [takenFrom, subjectFrom]
  by_cases hpre : (base = 0 ∨ base = 16) ∧ hasPrefix s = true
  · have hhex : isHexadecimal s = true := by
      by_contra hhex
      exact h ⟨hpre.1, hpre.2, Bool.eq_false_of_not_eq_true hhex⟩
    have hb : (if base = 0 then implicitBase s else base.toNat) = 16 := by
      rcases hpre.1 with rfl | rfl
      · rw [if_pos rfl, implicitBase, if_pos hhex]
      · rfl
    rw [if_pos hpre, hb, if_pos ⟨rfl, hhex⟩]
  · have hb : (if base = 0 then if s.head? = some '0' then 8 else 10 else base.toNat)
        = if base = 0 then implicitBase s else base.toNat := by
      split
      · next hzero =>
        have hhex : ¬isHexadecimal s = true := fun hhex ↦
          hpre ⟨.inl hzero, hasPrefix_of_isHexadecimal hhex⟩
        rw [implicitBase, if_neg hhex]
      · rfl
    -- without a prefix there is nothing to drop
    have hnot : ¬((if base = 0 then implicitBase s else base.toNat) = 16 ∧
        isHexadecimal s = true) := by
      rintro ⟨hb, hhex⟩
      by_cases hzero : base = 0
      · exact hpre ⟨.inl hzero, hasPrefix_of_isHexadecimal hhex⟩
      · rw [if_neg hzero] at hb
        rw [ValidBase] at hbase
        exact hpre ⟨.inr (by omega), hasPrefix_of_isHexadecimal hhex⟩
    rw [if_neg hpre, hb, if_neg hnot]

/-- After a dangling prefix they take no digits. -/
theorem digits_taken_of_dangling (h : DanglingPrefix nptr base) :
    (taken nptr base).digits = [] := by
  obtain ⟨hbase, hpre, hhex⟩ := h
  rw [taken, takenFrom, if_pos ⟨hbase, hpre⟩, digitsFrom]
  generalize (splitSign (nptr.dropWhile isSpace)).2 = s at hpre hhex ⊢
  rw [isHexadecimal, hpre, Bool.true_and] at hhex
  dsimp only
  rcases hdrop : s.drop 2 with - | ⟨d, rest⟩
  · rfl
  · rw [hdrop, List.head?_cons, Option.any_some] at hhex
    rw [leadingDigitsIn, List.takeWhile_cons_of_neg (by rw [hhex]; exact Bool.false_ne_true)]
    rfl

/-- But there is one, the zero. -/
theorem digits_subject_of_dangling (h : DanglingPrefix nptr base) :
    (subject nptr base).digits ≠ [] := by
  obtain ⟨hbase, hpre, hhex⟩ := h
  rw [subject, subjectFrom, digitsFrom]
  generalize (splitSign (nptr.dropWhile isSpace)).2 = s at hpre hhex ⊢
  obtain ⟨s', rfl⟩ : ∃ s', s = '0' :: s' := by
    unfold hasPrefix at hpre
    split at hpre
    · rw [Bool.and_eq_true, decide_eq_true_eq] at hpre
      exact ⟨_, by rw [hpre.1]⟩
    · cases hpre
  have hpos : 0 < if base = 0 then implicitBase ('0' :: s') else base.toNat := by
    rcases hbase with rfl | rfl
    · rw [if_pos rfl, implicitBase, hhex, if_neg Bool.false_ne_true, List.head?_cons, if_pos rfl]
      decide
    · exact Nat.succ_pos 15
  dsimp only
  rw [hhex, if_neg (fun h ↦ Bool.false_ne_true h.2 : ¬(_ ∧ false = true)),
    leadingDigitsIn_cons (show digitOf '0' = some 0 by decide) hpos]
  exact List.cons_ne_nil _ _

/-- The range of `long`, from the cutoffs. -/
theorem convert_toLong (nptr : List Char) (q : Subject) :
    convert (fun neg ↦ if neg then -(LONG_MIN + LONG_MAX) + LONG_MAX else LONG_MAX)
      (fun neg ↦ if neg then LONG_MIN else LONG_MAX) nptr q = q.toLong nptr := by
  rw [convert, Subject.toLong]
  split
  · rfl
  rw [Subject.integer, saturate]
  generalize q.magnitude = n
  rcases q.neg with - | -
  · simp only [Bool.false_eq_true, ↓reduceIte]
    have hmax : LONG_MAX.toNat = 2 ^ 63 - 1 := by decide
    rw [hmax]
    by_cases h : 2 ^ 63 - 1 < n
    · have hsat : max (-2 ^ (64 - 1)) (min (2 ^ (64 - 1) - 1) (n : ℤ)) = 2 ^ 63 - 1 := by omega
      rw [if_pos h, hsat, if_neg (by omega)]
      rfl
    · have hsat : max (-2 ^ (64 - 1)) (min (2 ^ (64 - 1) - 1) (n : ℤ)) = n := by omega
      rw [if_neg h, hsat, if_pos rfl, BitVec.ofInt_natCast]
  · simp only [↓reduceIte]
    have hmin : (-(LONG_MIN + LONG_MAX) + LONG_MAX).toNat = 2 ^ 63 := by decide
    rw [hmin]
    by_cases h : 2 ^ 63 < n
    · have hsat : max (-2 ^ (64 - 1)) (min (2 ^ (64 - 1) - 1) (-(n : ℤ))) = -2 ^ 63 := by omega
      rw [if_pos h, hsat, if_neg (by omega)]
      rfl
    · have hsat : max (-2 ^ (64 - 1)) (min (2 ^ (64 - 1) - 1) (-(n : ℤ))) = -n := by omega
      rw [if_neg h, hsat, if_pos rfl, BitVec.ofInt_neg, BitVec.ofInt_natCast]

private theorem convert_toUnsignedLong (nptr : List Char) (q : Subject) :
    convert (fun _ ↦ ULONG_MAX) (fun _ ↦ ULONG_MAX) nptr q = q.toUnsignedLong nptr := by
  rw [convert, Subject.toUnsignedLong]
  split
  · rfl
  have hmax : ULONG_MAX.toNat = 2 ^ 64 - 1 := by decide
  rw [hmax, Subject.integer]
  by_cases h : 2 ^ 64 ≤ q.magnitude
  · rw [if_pos (by omega), if_pos h]
  · rw [if_neg (by omega), if_neg h]
    rcases q.neg with - | -
    · rw [if_neg Bool.false_ne_true, if_neg Bool.false_ne_true, BitVec.ofInt_natCast]
    · rw [if_pos rfl, if_pos rfl, BitVec.ofInt_neg, BitVec.ofInt_natCast]

/-- Without digits nothing is converted, and with digits something is. -/
theorem errno_toLong (nptr : List Char) (q : Subject) :
    (q.toLong nptr).errno = some .EINVAL ↔ q.digits = [] := by
  rw [Subject.toLong]
  split
  · next h => exact iff_of_true rfl h
  · next h =>
    refine iff_of_false ?_ h
    dsimp only
    split <;> decide

private theorem errno_toUnsignedLong (nptr : List Char) (q : Subject) :
    (q.toUnsignedLong nptr).errno = some .EINVAL ↔ q.digits = [] := by
  rw [Subject.toUnsignedLong]
  split
  · next h => exact iff_of_true rfl h
  · next h =>
    refine iff_of_false ?_ h
    split <;> simp

/-- With a base that it accepts, `strtol` stays within the string, whatever it is, and does what the
standard says unless the number is a prefix `0x` without a digit after it. -/
theorem strtol_iff (nptr : List Char) (base : ℤ) (h : NUL ∈ nptr) (hbase : ValidBase base) :
    (strtol nptr base).isSome = true ∧
      (strtol nptr base = some (standardStrtol nptr base) ↔ ¬DanglingPrefix nptr base) := by
  rw [strtol, strtox_eq _ _ h, if_pos hbase, convert_toLong, standardStrtol, Option.some.injEq]
  refine ⟨rfl, ?_⟩
  constructor
  · intro heq hdangling
    have htaken := (errno_toLong nptr (taken nptr base)).mpr (digits_taken_of_dangling hdangling)
    rw [heq, errno_toLong] at htaken
    exact digits_subject_of_dangling hdangling htaken
  · intro hdangling
    rw [taken_eq_subject hbase hdangling]

/-- A number beyond the range of `long`, in octal because of its zero. -/
theorem strtol_iff_octal :
    (strtol ("\t-0777777777777777777777x".toList ++ [NUL]) 0).isSome = true ∧
      (strtol ("\t-0777777777777777777777x".toList ++ [NUL]) 0
          = some (standardStrtol ("\t-0777777777777777777777x".toList ++ [NUL]) 0) ↔
        ¬DanglingPrefix ("\t-0777777777777777777777x".toList ++ [NUL]) 0) :=
  strtol_iff _ 0 (List.mem_append_right _ List.mem_cons_self) (.inl rfl)

/-- The same for `strtoul`. -/
theorem strtoul_iff (nptr : List Char) (base : ℤ) (h : NUL ∈ nptr) (hbase : ValidBase base) :
    (strtoul nptr base).isSome = true ∧
      (strtoul nptr base = some (standardStrtoul nptr base) ↔ ¬DanglingPrefix nptr base) := by
  rw [strtoul, strtox_eq _ _ h, if_pos hbase, convert_toUnsignedLong, standardStrtoul,
    Option.some.injEq]
  refine ⟨rfl, ?_⟩
  constructor
  · intro heq hdangling
    have htaken :=
      (errno_toUnsignedLong nptr (taken nptr base)).mpr (digits_taken_of_dangling hdangling)
    rw [heq, errno_toUnsignedLong] at htaken
    exact digits_subject_of_dangling hdangling htaken
  · intro hdangling
    rw [taken_eq_subject hbase hdangling]

/-- A prefix that is not one. -/
theorem strtoul_iff_dangling :
    (strtoul ("0xyz".toList ++ [NUL]) 16).isSome = true ∧
      (strtoul ("0xyz".toList ++ [NUL]) 16
          = some (standardStrtoul ("0xyz".toList ++ [NUL]) 16) ↔
        ¬DanglingPrefix ("0xyz".toList ++ [NUL]) 16) :=
  strtoul_iff _ 16 (List.mem_append_right _ List.mem_cons_self) (.inr ⟨by decide, by decide⟩)

/-! ## `atoi` -/

/-- The decimal digits are those of `isdigit`. -/
theorem digitOf_of_isDigit {c : Char} (h : c.isDigit = true) :
    digitOf c = some (c.toNat - '0'.toNat) := by
  rw [Char.isDigit, Bool.and_eq_true, decide_eq_true_eq, decide_eq_true_eq] at h
  exact if_pos h

private theorem isDigitIn_ten (c : Char) : isDigitIn 10 c = c.isDigit := by
  cases h : c.isDigit with
  | true =>
    have hdigit := digitOf_of_isDigit h
    rw [Char.isDigit, Bool.and_eq_true, decide_eq_true_eq, decide_eq_true_eq] at h
    rw [isDigitIn, hdigit, Option.any_some, decide_eq_true_iff]
    have hhigh : c.toNat ≤ 57 := h.2
    have hzero : '0'.toNat = 48 := rfl
    omega
  | false =>
    have hnot : ¬('0' ≤ c ∧ c ≤ '9') := by
      rintro ⟨hlow, hhigh⟩
      have hdigit : c.isDigit = true := by
        rw [Char.isDigit, Bool.and_eq_true, decide_eq_true_eq, decide_eq_true_eq]
        exact ⟨hlow, hhigh⟩
      rw [h] at hdigit
      cases hdigit
    rw [isDigitIn, digitOf, if_neg hnot]
    have hA : 'A'.toNat = 65 := rfl
    have ha : 'a'.toNat = 97 := rfl
    split
    · next hupper =>
      have hlow : 65 ≤ c.toNat := hupper.1
      rw [Option.any_some, decide_eq_false_iff_not]
      omega
    · split
      · next hlower =>
        have hlow : 97 ≤ c.toNat := hlower.1
        rw [Option.any_some, decide_eq_false_iff_not]
        omega
      · rfl

/-- The value of leading decimal digits. -/
theorem value_leadingDigitsIn_ten (s : List Char) (acc : ℕ) :
    value 10 acc (leadingDigitsIn 10 s) = Nat.ofDigitChars 10 (s.takeWhile Char.isDigit) acc := by
  induction s generalizing acc with
  | nil => rfl
  | cons c s ih =>
    cases hc : c.isDigit with
    | true =>
      have hlt : c.toNat - '0'.toNat < 10 := by
        have hin := isDigitIn_ten c
        rw [hc, isDigitIn, digitOf_of_isDigit hc, Option.any_some] at hin
        exact of_decide_eq_true hin
      rw [leadingDigitsIn_cons (digitOf_of_isDigit hc) hlt, value_cons, ih,
        List.takeWhile_cons_of_pos hc, Nat.ofDigitChars_cons, Nat.mul_comm]
    | false =>
      have hnot : ¬c.isDigit = true := by rw [hc]; exact Bool.false_ne_true
      rw [leadingDigitsIn, List.takeWhile_cons_of_neg (by rw [isDigitIn_ten]; exact hnot),
        List.takeWhile_cons_of_neg hnot]
      rfl

/-- `atoi` is `atol` in the low bits, whatever the string is. -/
theorem atoi_eq_atol (str : List Char) (h : NUL ∈ str) :
    atoi str = some (BitVec.ofInt 32 (atol 64 str)) := by
  have hdangling : ¬DanglingPrefix str 10 := fun h ↦ absurd h.1 (by decide)
  have hbase : ValidBase 10 := by decide
  have hsubject : (subject str 10).integer
      = if (splitSign (str.dropWhile isSpace)).1 then
          -(leadingNumber (splitSign (str.dropWhile isSpace)).2 : ℤ)
        else leadingNumber (splitSign (str.dropWhile isSpace)).2 := by
    rw [Subject.integer, Subject.magnitude, leadingNumber, ← value_leadingDigitsIn_ten]
    rfl
  have hatol : atol 64 str = saturate 64 (subject str 10).integer := by
    rw [hsubject, atol]
    rcases str.dropWhile isSpace with - | ⟨c, s⟩
    · rfl
    · by_cases hminus : c = '-'
      · subst hminus
        rfl
      by_cases hplus : c = '+'
      · subst hplus
        rfl
      have hsplit : splitSign (c :: s) = (false, c :: s) := by
        unfold splitSign
        split
        · next heq => exact absurd (List.cons.inj heq).1 hminus
        · next heq => exact absurd (List.cons.inj heq).1 hplus
        · rfl
      rw [hsplit]
      split
      · next heq => exact absurd (List.cons.inj heq).1 hminus
      · next heq => exact absurd (List.cons.inj heq).1 hplus
      · rfl
  have hvalue : ((subject str 10).toLong str).value = BitVec.ofInt 64 (atol 64 str) := by
    rw [hatol, Subject.toLong]
    split
    · next hdigits =>
      have hzero : (subject str 10).integer = 0 := by
        rw [Subject.integer, Subject.magnitude, hdigits]
        split <;> rfl
      rw [hzero]
      rfl
    · rfl
  rw [atoi, strtol, strtox_eq _ _ h, if_pos hbase, convert_toLong, taken_eq_subject hbase hdangling,
    Option.map_some, hvalue]
  congr 1
  generalize atol 64 str = n
  apply BitVec.eq_of_toNat_eq
  rw [BitVec.toNat_setWidth, BitVec.toNat_ofInt, BitVec.toNat_ofInt]
  omega

/-- More than an `int` can hold. -/
theorem atoi_eq_atol_large :
    atoi (" 4294967297".toList ++ [NUL])
      = some (BitVec.ofInt 32 (atol 64 (" 4294967297".toList ++ [NUL]))) :=
  atoi_eq_atol _ (List.mem_append_right _ List.mem_cons_self)

end Standard

end KleeLibc

end Adacc
