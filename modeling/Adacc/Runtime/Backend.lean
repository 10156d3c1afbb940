import Adacc.Foundation.SmtValue
import Mathlib.Data.UInt

/-!
# The interface of a symbolic backend

`Runtime.h` leaves the type `SymExpr` of expressions to the backend and fixes the functions that
build them. `Backend SymExpr` collects those that integer code uses, together with what they are
documented to build: the terms of the SMT-LIB theory of bit vectors. An expression has a meaning
under an input, which assigns a byte to every offset of the symbolic input; its sort does not
depend on the input.

Every law is conditional on its operands being well sorted. Nothing is said about, say, an
extraction beyond the width of its operand, so a result that relies on such a call cannot be
proved.

Families of builders that differ in one operator (`DEF_BINARY_EXPR_BUILDER` in both backends) are
one field with the operator as an argument. A null `SymExpr` is `none` in `Option SymExpr`; the
builders themselves take and return expressions.
-/

namespace Adacc

open SmtLib

/-- `uintptr_t` on the 64-bit build. -/
abbrev UIntPtr := BitVec 64

/-- `size_t` on the 64-bit build. -/
abbrev SizeT := BitVec 64

/-- The bytes of the symbolic input, by offset. -/
abbrev Input := ℕ → BitVec 8

/-- The expression builders of the runtime library and the terms they denote. -/
class Backend (SymExpr : Type) where
  /-- The value of an expression under an input. -/
  eval : Input → SymExpr → Value
  sort : SymExpr → Srt
  sort_eval : ∀ ρ e, (eval ρ e).sort = sort e
  /-- `_sym_build_integer` -/
  symBuildInteger : BitVec 64 → UInt8 → SymExpr
  /-- `_sym_build_integer128` -/
  symBuildInteger128 : BitVec 64 → BitVec 64 → SymExpr
  /-- `_sym_build_bool` -/
  symBuildBool : Bool → SymExpr
  /-- `_sym_build_add`, …, `_sym_build_xor` -/
  symBuildBinary : BvOp → SymExpr → SymExpr → SymExpr
  /-- `_sym_build_equal`, …, `_sym_build_signed_greater_equal` -/
  symBuildCompare : CmpOp → SymExpr → SymExpr → SymExpr
  /-- `_sym_build_bool_and`, `_sym_build_bool_or`, `_sym_build_bool_xor` -/
  symBuildBoolOp : BoolOp → SymExpr → SymExpr → SymExpr
  /-- `_sym_build_sext` -/
  symBuildSExt : SymExpr → UInt8 → SymExpr
  /-- `_sym_build_zext` -/
  symBuildZExt : SymExpr → UInt8 → SymExpr
  /-- `_sym_build_trunc` -/
  symBuildTrunc : SymExpr → UInt8 → SymExpr
  /-- `_sym_build_bool_to_bits` -/
  symBuildBoolToBits : SymExpr → UInt8 → SymExpr
  /-- `_sym_concat_helper` -/
  symConcatHelper : SymExpr → SymExpr → SymExpr
  /-- `_sym_extract_helper` -/
  symExtractHelper : SymExpr → (firstBit lastBit : SizeT) → SymExpr
  /-- The expression for the byte of the input at an offset, which is what `_sym_get_input_byte`
  returns as long as no bytes are skipped. With the simple backend it returns something else after
  that, see `InputByteSource`. -/
  symGetInputByte : SizeT → SymExpr
  eval_integer : ∀ ρ value bits, 0 < bits.toNat →
    eval ρ (symBuildInteger value bits) = .bv bits.toNat (value.setWidth bits.toNat)
  eval_integer128 : ∀ ρ high low, eval ρ (symBuildInteger128 high low) = .bv 128 (high ++ low)
  eval_bool : ∀ ρ b, eval ρ (symBuildBool b) = .bool b
  eval_binary : ∀ ρ op a b w x y, eval ρ a = .bv w x → eval ρ b = .bv w y →
    eval ρ (symBuildBinary op a b) = .bv w (op.denote x y)
  eval_compare : ∀ ρ op a b w x y, eval ρ a = .bv w x → eval ρ b = .bv w y →
    eval ρ (symBuildCompare op a b) = .bool (op.denote x y)
  eval_equal_bool : ∀ ρ a b x y, eval ρ a = .bool x → eval ρ b = .bool y →
    eval ρ (symBuildCompare .eq a b) = .bool (x == y)
  eval_boolOp : ∀ ρ op a b x y, eval ρ a = .bool x → eval ρ b = .bool y →
    eval ρ (symBuildBoolOp op a b) = .bool (op.denote x y)
  eval_sext : ∀ ρ e bits w x, eval ρ e = .bv w x →
    eval ρ (symBuildSExt e bits) = .bv (w + bits.toNat) (x.signExtend (w + bits.toNat))
  eval_zext : ∀ ρ e bits w x, eval ρ e = .bv w x →
    eval ρ (symBuildZExt e bits) = .bv (w + bits.toNat) (x.setWidth (w + bits.toNat))
  eval_trunc : ∀ ρ e bits w x, eval ρ e = .bv w x → 0 < bits.toNat → bits.toNat ≤ w →
    eval ρ (symBuildTrunc e bits) = .bv bits.toNat (x.setWidth bits.toNat)
  eval_boolToBits : ∀ ρ e bits b, eval ρ e = .bool b → 0 < bits.toNat →
    eval ρ (symBuildBoolToBits e bits) = .bv bits.toNat (BitVec.ofNat bits.toNat b.toNat)
  eval_concat : ∀ ρ a b m n x y, eval ρ a = .bv m x → eval ρ b = .bv n y →
    eval ρ (symConcatHelper a b) = .bv (m + n) (x ++ y)
  eval_extract : ∀ ρ e first last w x, eval ρ e = .bv w x → last.toNat ≤ first.toNat →
    first.toNat < w →
    eval ρ (symExtractHelper e first last)
      = .bv (first.toNat - last.toNat + 1) (x.extractLsb first.toNat last.toNat)
  eval_inputByte : ∀ ρ offset, eval ρ (symGetInputByte offset) = .bv 8 (ρ offset.toNat)

namespace Backend

variable {SymExpr : Type} [Backend SymExpr]

/-- `e` is a bit vector of `w` bits. -/
def HasBits (e : SymExpr) (w : ℕ) : Prop := sort e = .bitVec w

theorem HasBits.of_eval {e : SymExpr} {ρ : Input} {w : ℕ} {x : BitVec w}
    (h : eval ρ e = .bv w x) : HasBits e w := by
  rw [HasBits, ← sort_eval ρ e, h, Value.sort_bv]

/-- Offsets with the same byte in every input are the same. -/
theorem offset_eq_of_forall {a b : SizeT} (h : ∀ ρ : Input, ρ a.toNat = ρ b.toNat) : a = b := by
  by_contra hne
  have hbyte := h fun n ↦ if n = a.toNat then 1 else 0
  rw [if_pos rfl, if_neg fun heq ↦ hne (BitVec.eq_of_toNat_eq heq).symm] at hbyte
  exact absurd hbyte (by decide)

/-- Different bytes of the input have different expressions. -/
theorem symGetInputByte_injective :
    Function.Injective (symGetInputByte : SizeT → SymExpr) := by
  intro a b h
  refine offset_eq_of_forall fun ρ ↦ ?_
  have heval := congrArg (eval ρ) h
  rw [eval_inputByte, eval_inputByte] at heval
  exact Value.bv_inj heval

/-- So do characters that are different bytes of the input. -/
theorem symBuildZExt_symGetInputByte_injective (bits : UInt8) :
    Function.Injective fun offset : SizeT ↦
      (symBuildZExt (symGetInputByte offset) bits : SymExpr) := by
  intro a b h
  refine offset_eq_of_forall fun ρ ↦ ?_
  have heval := congrArg (eval ρ) h
  rw [eval_zext ρ _ bits 8 _ (eval_inputByte ρ a), eval_zext ρ _ bits 8 _ (eval_inputByte ρ b)]
    at heval
  have hnat := congrArg BitVec.toNat (Value.bv_inj heval)
  rw [BitVec.toNat_setWidth_of_le (Nat.le_add_right 8 _),
    BitVec.toNat_setWidth_of_le (Nat.le_add_right 8 _)] at hnat
  exact BitVec.eq_of_toNat_eq hnat

/-- Two eight-bit-aligned pieces, by their representatives. -/
theorem eval_concat_ofNat {ρ : Input} {a b : SymExpr} {m n x y : ℕ} (hy : y < 2 ^ n)
    (ha : eval ρ a = .ofNat m x) (hb : eval ρ b = .ofNat n y) :
    eval ρ (symConcatHelper a b) = .ofNat (m + n) (x * 2 ^ n + y) := by
  rw [eval_concat ρ a b m n _ _ ha hb, Value.bv_append hy]

/-- An extraction inside the width of its operand, by representatives. -/
theorem eval_extract_ofNat {ρ : Input} {e : SymExpr} {first last : SizeT} {w x : ℕ}
    (he : eval ρ e = .ofNat w x) (hx : x < 2 ^ w) (hle : last.toNat ≤ first.toNat)
    (hlt : first.toNat < w) :
    eval ρ (symExtractHelper e first last)
      = .ofNat (first.toNat - last.toNat + 1) (x / 2 ^ last.toNat) := by
  rw [eval_extract ρ e first last w _ he hle hlt, Value.bv_extractLsb, BitVec.toNat_ofNat,
    Nat.mod_eq_of_lt hx]

end Backend

end Adacc
