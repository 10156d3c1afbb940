import Mathlib.Data.BitVec
import Mathlib.Tactic.NormNum

/-!
# Values of the SMT-LIB theory of bit vectors

The two sorts that symbolic execution of integer code needs, Boolean and bit vector, with the
operations that the SMT-LIB logic `QF_BV` gives them. Division and remainder are total there
(division by zero yields all ones, remainder by zero the dividend), so every operation below is a
plain function on bit vectors of one width.

Bit vectors of different widths are different types, and the widths met in practice are sums and
products such as `8 * n + 8`. Statements therefore go through `Value.ofNat w n`, in which the
width is an ordinary argument: equality of such values is equality of widths and of residues, and
no cast appears.
-/

namespace SmtLib

/-- The sorts of the theory. -/
inductive Srt
  | bool
  | bitVec (w : ℕ)
  deriving DecidableEq

/-- A value of one of the sorts. -/
inductive Value
  | bool (b : Bool)
  | bv (w : ℕ) (x : BitVec w)
  deriving DecidableEq

namespace Value

def sort : Value → Srt
  | .bool _ => .bool
  | .bv w _ => .bitVec w

/-- The `w`-bit value that represents `n` modulo `2 ^ w`. -/
def ofNat (w n : ℕ) : Value := .bv w (BitVec.ofNat w n)

@[simp] theorem sort_bool (b : Bool) : (Value.bool b).sort = .bool := rfl

@[simp] theorem sort_bv (w : ℕ) (x : BitVec w) : (Value.bv w x).sort = .bitVec w := rfl

@[simp] theorem sort_ofNat (w n : ℕ) : (ofNat w n).sort = .bitVec w := rfl

theorem bv_eq_ofNat (w : ℕ) (x : BitVec w) : Value.bv w x = ofNat w x.toNat := by
  rw [ofNat, BitVec.ofNat_toNat, BitVec.setWidth_eq]

theorem ofNat_mod (w n : ℕ) : ofNat w (n % 2 ^ w) = ofNat w n := by
  rw [ofNat, ofNat, Value.bv.injEq]
  refine ⟨rfl, heq_of_eq ?_⟩
  apply BitVec.eq_of_toNat_eq
  rw [BitVec.toNat_ofNat, BitVec.toNat_ofNat, Nat.mod_mod]

theorem bv_inj {w : ℕ} {x y : BitVec w} (h : Value.bv w x = Value.bv w y) : x = y := by
  rw [Value.bv.injEq] at h
  exact eq_of_heq h.2

/-- A value of a bit-vector sort, as a bit vector of that width. -/
theorem exists_bv_of_sort {v : Value} {w : ℕ} (h : v.sort = .bitVec w) : ∃ x, v = .bv w x := by
  cases v with
  | bool b => exact absurd h (by simp)
  | bv w' x =>
    rw [sort_bv, Srt.bitVec.injEq] at h
    subst h
    exact ⟨x, rfl⟩

end Value

/-! ## Operations -/

/-- The arithmetic, shift and bit-wise operations on bit vectors of one width. -/
inductive BvOp
  | bvadd | bvsub | bvmul | bvudiv | bvsdiv | bvurem | bvsrem
  | bvshl | bvlshr | bvashr
  | bvand | bvor | bvxor
  deriving DecidableEq

def BvOp.denote {w : ℕ} : BvOp → BitVec w → BitVec w → BitVec w
  | .bvadd, x, y => x + y
  | .bvsub, x, y => x - y
  | .bvmul, x, y => x * y
  | .bvudiv, x, y => x.smtUDiv y
  | .bvsdiv, x, y => x.smtSDiv y
  | .bvurem, x, y => x.umod y
  | .bvsrem, x, y => x.srem y
  | .bvshl, x, y => x <<< y
  | .bvlshr, x, y => x >>> y
  | .bvashr, x, y => x.sshiftRight' y
  | .bvand, x, y => x &&& y
  | .bvor, x, y => x ||| y
  | .bvxor, x, y => x ^^^ y

/-- The comparisons of bit vectors of one width. -/
inductive CmpOp
  | eq | distinct
  | bvult | bvule | bvugt | bvuge
  | bvslt | bvsle | bvsgt | bvsge
  deriving DecidableEq

def CmpOp.denote {w : ℕ} : CmpOp → BitVec w → BitVec w → Bool
  | .eq, x, y => x == y
  | .distinct, x, y => x != y
  | .bvult, x, y => x.ult y
  | .bvule, x, y => x.ule y
  | .bvugt, x, y => y.ult x
  | .bvuge, x, y => y.ule x
  | .bvslt, x, y => x.slt y
  | .bvsle, x, y => x.sle y
  | .bvsgt, x, y => y.slt x
  | .bvsge, x, y => y.sle x

/-- The binary connectives of the Boolean sort. -/
inductive BoolOp
  | and | or | xor
  deriving DecidableEq

def BoolOp.denote : BoolOp → Bool → Bool → Bool
  | .and, a, b => a && b
  | .or, a, b => a || b
  | .xor, a, b => a ^^ b

/-! ## Concatenation and extraction on representatives -/

/-- Concatenation puts the first operand into the high bits. -/
theorem Value.bv_append {m n a b : ℕ} (hb : b < 2 ^ n) :
    Value.bv (m + n) (BitVec.ofNat m a ++ BitVec.ofNat n b) = .ofNat (m + n) (a * 2 ^ n + b) := by
  rw [Value.ofNat, Value.bv.injEq]
  refine ⟨rfl, heq_of_eq ?_⟩
  apply BitVec.eq_of_toNat_eq
  rw [BitVec.toNat_append, BitVec.toNat_ofNat, BitVec.toNat_ofNat, BitVec.toNat_ofNat,
    Nat.mod_eq_of_lt hb, ← Nat.shiftLeft_add_eq_or_of_lt hb, Nat.shiftLeft_eq, pow_add]
  have hlow : (a * 2 ^ n + b) % 2 ^ n = b := by
    rw [Nat.mul_comm, Nat.mul_add_mod, Nat.mod_eq_of_lt hb]
  have hhigh : (a * 2 ^ n + b) / 2 ^ n = a := by
    rw [Nat.mul_comm, Nat.mul_add_div (Nat.two_pow_pos n), Nat.div_eq_of_lt hb, Nat.add_zero]
  rw [Nat.mul_comm (2 ^ m), Nat.mod_mul, hlow, hhigh, Nat.add_comm, Nat.mul_comm]

/-- Extraction of the bits `first, …, last` (`last` the lowest) divides and reduces. -/
theorem Value.bv_extractLsb {w : ℕ} (x : BitVec w) (first last : ℕ) :
    Value.bv (first - last + 1) (x.extractLsb first last)
      = .ofNat (first - last + 1) (x.toNat / 2 ^ last) := by
  rw [Value.ofNat, Value.bv.injEq]
  refine ⟨rfl, heq_of_eq ?_⟩
  apply BitVec.eq_of_toNat_eq
  rw [BitVec.extractLsb_toNat, BitVec.toNat_ofNat, Nat.shiftRight_eq_div_pow]

end SmtLib
