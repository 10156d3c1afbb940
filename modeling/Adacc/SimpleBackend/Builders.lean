import Adacc.Foundation.SmtTerm
import Adacc.Runtime.Backend

/-!
# The expression builders of the simple backend

`simple_backend/Runtime.cpp` builds Z3 terms. A `Z3_ast` of the integer fragment is a term of the
theory of bit vectors, and each `Z3_mk_…` function builds the term of the same name. The instance
at the end shows that the builders denote what `Backend` asks for, so results about any backend hold
with this one, too, with one exception: what `_sym_get_input_byte` returns.

The input bytes are the constants `stdin0`, `stdin1`, …, here numbered by their offset.
`_sym_get_input_byte` returns the constant of the offset that it is asked for as long as offsets
come in order. Once bytes have been skipped it returns other constants and null pointers
(`InputBytes`), and results in which programs may skip bytes name the backend (`InputByteSource`).

`registerExpression` returns its argument; the set it maintains for the garbage collector is left
out.
-/

namespace Adacc

open SmtLib

/-- `Z3_ast` -/
abbrev Z3Ast := Term

namespace Z3Ast

/-- `_sym_build_integer`: `Z3_mk_unsigned_int64` takes the value modulo the size of the sort. -/
def symBuildInteger (value : BitVec 64) (bits : UInt8) : Z3Ast :=
  .numeral bits.toNat (value.setWidth bits.toNat)

/-- `_sym_build_integer128` -/
def symBuildInteger128 (high low : BitVec 64) : Z3Ast :=
  .concat (symBuildInteger high 64) (symBuildInteger low 64)

/-- `_sym_build_bool` -/
def symBuildBool (value : Bool) : Z3Ast := .bool value

/-- The builders that `DEF_BINARY_EXPR_BUILDER` defines for bit vectors. -/
def symBuildBinary (op : BvOp) (a b : Z3Ast) : Z3Ast := .binary op a b

/-- The comparisons; `_sym_build_not_equal` is the negation of `_sym_build_equal`. -/
def symBuildCompare (op : CmpOp) (a b : Z3Ast) : Z3Ast :=
  match op with
  | .distinct => .not (.compare .eq a b)
  | op => .compare op a b

/-- `_sym_build_bool_and`, `_sym_build_bool_or`, `_sym_build_bool_xor` -/
def symBuildBoolOp (op : BoolOp) (a b : Z3Ast) : Z3Ast := .connective op a b

/-- `_sym_build_sext` -/
def symBuildSExt (expr : Z3Ast) (bits : UInt8) : Z3Ast := .signExt bits.toNat expr

/-- `_sym_build_zext` -/
def symBuildZExt (expr : Z3Ast) (bits : UInt8) : Z3Ast := .zeroExt bits.toNat expr

/-- `_sym_build_trunc` -/
def symBuildTrunc (expr : Z3Ast) (bits : UInt8) : Z3Ast := .extract (bits.toNat - 1) 0 expr

/-- `_sym_build_bool_to_bits` -/
def symBuildBoolToBits (expr : Z3Ast) (bits : UInt8) : Z3Ast :=
  .ite expr (symBuildInteger 1 bits) (symBuildInteger 0 bits)

/-- `_sym_concat_helper` -/
def symConcatHelper (a b : Z3Ast) : Z3Ast := .concat a b

/-- `_sym_extract_helper` -/
def symExtractHelper (expr : Z3Ast) (firstBit lastBit : SizeT) : Z3Ast :=
  .extract firstBit.toNat lastBit.toNat expr

/-- The constant for the byte at an offset, which `_sym_get_input_byte` returns as long as offsets
come in order. -/
def symGetInputByte (offset : SizeT) : Z3Ast := .var offset.toNat

variable (ρ : Input)

private theorem eval_symBuildTrunc {e : Z3Ast} {bits : UInt8} {w : ℕ} {x : BitVec w}
    (he : e.eval ρ = .bv w x) (h0 : 0 < bits.toNat) :
    (symBuildTrunc e bits).eval ρ = .bv bits.toNat (x.setWidth bits.toNat) := by
  rw [symBuildTrunc, Term.eval, he, Value.extract, Value.bv_extractLsb, Value.bv_eq_ofNat _
    (x.setWidth bits.toNat), BitVec.toNat_setWidth, Value.ofNat_mod, pow_zero, Nat.div_one,
    show bits.toNat - 1 - 0 + 1 = bits.toNat from by omega]

private theorem eval_symBuildBoolToBits {e : Z3Ast} {bits : UInt8} {b : Bool}
    (he : e.eval ρ = .bool b) :
    (symBuildBoolToBits e bits).eval ρ = .bv bits.toNat (BitVec.ofNat bits.toNat b.toNat) := by
  have hone : (1#64).setWidth bits.toNat = BitVec.ofNat bits.toNat 1 := by
    apply BitVec.eq_of_toNat_eq
    rw [BitVec.toNat_setWidth, BitVec.toNat_ofNat, BitVec.toNat_ofNat]
  have hzero : (0#64).setWidth bits.toNat = BitVec.ofNat bits.toNat 0 := BitVec.setWidth_zero _ 64
  rw [symBuildBoolToBits, Term.eval, he]
  cases b
  · rw [Value.ite, symBuildInteger, symBuildInteger, Term.eval, Term.eval, Value.sort_bv,
      Value.sort_bv, if_pos rfl]
    exact congrArg _ hzero
  · rw [Value.ite, symBuildInteger, Term.eval]
    exact congrArg _ hone

private theorem eval_symBuildCompare {op : CmpOp} {a b : Z3Ast} {w : ℕ} {x y : BitVec w}
    (ha : a.eval ρ = .bv w x) (hb : b.eval ρ = .bv w y) :
    (symBuildCompare op a b).eval ρ = .bool (op.denote x y) := by
  have hcmp : ∀ op, (Term.compare op a b).eval ρ = .bool (op.denote x y) := by
    intro op
    rw [Term.eval, ha, hb, Value.compare, dif_pos rfl, BitVec.cast_eq]
  unfold symBuildCompare
  split
  · rw [Term.eval, hcmp .eq]
    rfl
  · exact hcmp op

instance : Backend Z3Ast where
  eval := Term.eval
  sort := Term.sort
  sort_eval := Term.sort_eval
  symBuildInteger := symBuildInteger
  symBuildInteger128 := symBuildInteger128
  symBuildBool := symBuildBool
  symBuildBinary := symBuildBinary
  symBuildCompare := symBuildCompare
  symBuildBoolOp := symBuildBoolOp
  symBuildSExt := symBuildSExt
  symBuildZExt := symBuildZExt
  symBuildTrunc := symBuildTrunc
  symBuildBoolToBits := symBuildBoolToBits
  symConcatHelper := symConcatHelper
  symExtractHelper := symExtractHelper
  symGetInputByte := symGetInputByte
  eval_integer _ _ _ _ := rfl
  eval_integer128 ρ high low := by
    have h64 : ∀ x : BitVec 64, x.setWidth (64 : UInt8).toNat = x := BitVec.setWidth_eq
    show Value.bv (64 + 64)
      (high.setWidth (64 : UInt8).toNat ++ low.setWidth (64 : UInt8).toNat) = _
    rw [h64, h64]
  eval_bool _ _ := rfl
  eval_binary ρ op a b w x y ha hb := by
    rw [symBuildBinary, Term.eval, ha, hb, Value.binary, dif_pos rfl, BitVec.cast_eq]
  eval_compare ρ op a b w x y ha hb := eval_symBuildCompare ρ ha hb
  eval_equal_bool ρ a b x y ha hb := by
    rw [symBuildCompare, Term.eval, ha, hb]
    · rfl
    · exact CmpOp.noConfusion
  eval_boolOp ρ op a b x y ha hb := by
    rw [symBuildBoolOp, Term.eval, ha, hb, Value.connective]
  eval_sext ρ e bits w x he := by rw [symBuildSExt, Term.eval, he, Value.signExt]
  eval_zext ρ e bits w x he := by rw [symBuildZExt, Term.eval, he, Value.zeroExt]
  eval_trunc ρ e bits w x he h0 _ := eval_symBuildTrunc ρ he h0
  eval_boolToBits ρ e bits b he _ := eval_symBuildBoolToBits ρ he
  eval_concat ρ a b m n x y ha hb := by rw [symConcatHelper, Term.eval, ha, hb, Value.concat]
  eval_extract ρ e first last w x he _ _ := by
    rw [symExtractHelper, Term.eval, he, Value.extract]
  eval_inputByte _ _ := rfl

end Z3Ast

end Adacc
