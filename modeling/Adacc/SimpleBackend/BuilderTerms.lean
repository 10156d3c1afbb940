import Adacc.SimpleBackend.Z3Context

/-!
# The terms of the builders

On the integer fragment the builders with their calls of Z3 return the terms that the builders of
`Z3Ast` are, and the input bytes are the variables of `InputBytes`.
-/

namespace Adacc.SimpleBackend

open SmtLib

/-- A term of the integer fragment with its sorts. -/
def ofTerm : Term → Ast
  | .bool b => .leaf (if b then .true else .false)
  | .numeral w x => .unary (.numeral x.toNat) (.leaf (.bvSort w))
  | .var i => .unary (.const (InputBytes.varName i)) (bvSort 8)
  | .binary op a b => .binary (.bv op) (ofTerm a) (ofTerm b)
  | .compare op a b => .binary (.compare op) (ofTerm a) (ofTerm b)
  | .connective op a b => .binary (.connective op) (ofTerm a) (ofTerm b)
  | .not a => .unary .not (ofTerm a)
  | .signExt i a => .unary (.signExt i) (ofTerm a)
  | .zeroExt i a => .unary (.zeroExt i) (ofTerm a)
  | .extract high low a =>
    .unary (.extract (BitVec.ofNat 32 high) (BitVec.ofNat 32 low)) (ofTerm a)
  | .concat a b => .binary .concat (ofTerm a) (ofTerm b)
  | .ite c a b => .ternary .ite (ofTerm c) (ofTerm a) (ofTerm b)

variable (s : Runtime) (a b : Term)

theorem symBuildInteger_agrees (value : BitVec 64) (bits : UInt8) :
    (symBuildInteger value bits s).1 = ofTerm (Z3Ast.symBuildInteger value bits) :=
  fst_buildWithSort _ _ s

theorem symBuildInteger128_agrees (high low : BitVec 64) :
    (symBuildInteger128 high low s).1 = ofTerm (Z3Ast.symBuildInteger128 high low) := by
  rw [symBuildInteger128, run_bind, run_bind, fst_build, symBuildInteger_agrees,
    symBuildInteger_agrees]
  rfl

theorem symBuildBool_agrees (value : Bool) :
    (symBuildBool value s).1 = ofTerm (Z3Ast.symBuildBool value) := by
  cases value <;> rfl

theorem symBuildBinary_agrees {name : BinaryExprBuilder} {op : BvOp} (h : name.z3Name = .bv op) :
    (symBuildBinary name (ofTerm a) (ofTerm b) s).1 = ofTerm (Z3Ast.symBuildBinary op a b) := by
  rw [symBuildBinary, fst_build, h]
  rfl

theorem symBuildCompare_agrees {name : BinaryExprBuilder} {op : CmpOp}
    (h : name.z3Name = .compare op) :
    (symBuildBinary name (ofTerm a) (ofTerm b) s).1 = ofTerm (Z3Ast.symBuildCompare op a b) := by
  rw [symBuildBinary, fst_build, h]
  cases op with
  | distinct => cases name <;> cases h
  | _ => rfl

theorem symBuildNotEqual_agrees :
    (symBuildNotEqual (ofTerm a) (ofTerm b) s).1
      = ofTerm (Z3Ast.symBuildCompare .distinct a b) := by
  rw [symBuildNotEqual, run_bind, fst_build, fst_mk]
  rfl

theorem symBuildBoolOp_agrees :
    (symBuildBoolAnd (ofTerm a) (ofTerm b) s).1 = ofTerm (Z3Ast.symBuildBoolOp .and a b) ∧
      (symBuildBoolOr (ofTerm a) (ofTerm b) s).1 = ofTerm (Z3Ast.symBuildBoolOp .or a b) ∧
      (symBuildBinary .boolXor (ofTerm a) (ofTerm b) s).1
        = ofTerm (Z3Ast.symBuildBoolOp .xor a b) :=
  ⟨fst_build _ s, fst_build _ s, fst_build _ s⟩

theorem symBuildSExt_agrees (bits : UInt8) :
    (symBuildSExt (ofTerm a) bits s).1 = ofTerm (Z3Ast.symBuildSExt a bits) :=
  fst_build _ s

theorem symBuildZExt_agrees (bits : UInt8) :
    (symBuildZExt (ofTerm a) bits s).1 = ofTerm (Z3Ast.symBuildZExt a bits) :=
  fst_build _ s

theorem symConcatHelper_agrees :
    (symConcatHelper (ofTerm a) (ofTerm b) s).1 = ofTerm (Z3Ast.symConcatHelper a b) :=
  fst_build _ s

theorem symExtractHelper_agrees (firstBit lastBit : SizeT) :
    (symExtractHelper (ofTerm a) firstBit lastBit s).1
      = ofTerm (Z3Ast.symExtractHelper a firstBit lastBit) :=
  fst_build _ s

theorem symBuildTrunc_agrees {bits : UInt8} (h : 0 < bits.toNat) :
    (symBuildTrunc (ofTerm a) bits s).1 = ofTerm (Z3Ast.symBuildTrunc a bits) := by
  have hhigh : BitVec.ofNat 32 bits.toNat - 1 = BitVec.ofNat 32 (bits.toNat - 1) := by
    apply BitVec.eq_of_toNat_eq
    have hsize := bits.toNat_lt
    have hone : (1 : BitVec 32).toNat = 1 := rfl
    rw [BitVec.toNat_sub, BitVec.toNat_ofNat, BitVec.toNat_ofNat, hone]
    omega
  rw [symBuildTrunc, fst_build, hhigh]
  rfl

theorem symBuildBoolToBits_agrees (bits : UInt8) :
    (symBuildBoolToBits (ofTerm a) bits s).1 = ofTerm (Z3Ast.symBuildBoolToBits a bits) := by
  rw [symBuildBoolToBits, run_bind, run_bind, fst_build, symBuildInteger_agrees,
    symBuildInteger_agrees]
  rfl

/-- The constant that stands for a variable. -/
def ofVariable (v : InputBytes.Variable) : Ast := .unary (.const v.name) (bvSort v.bits)

theorem symGetInputByte_agrees {bytes : List (Option InputBytes.Variable)} (offset : SizeT)
    (h : s.stdinBytes = bytes.map (Option.map ofVariable)) :
    (symGetInputByte offset s).1 = (InputBytes.symGetInputByte bytes offset).2.map ofVariable ∧
      (symGetInputByte offset s).2.stdinBytes
        = (InputBytes.symGetInputByte bytes offset).1.map (Option.map ofVariable) := by
  have hlength : s.stdinBytes.length = bytes.length := by rw [h, List.length_map]
  have hget : s.stdinBytes[offset.toNat]? = bytes[offset.toNat]?.map (Option.map ofVariable) := by
    rw [h, List.getElem?_map]
  cases hbyte : bytes[offset.toNat]? with
  | some byte =>
    rw [hbyte] at hget
    rw [symGetInputByte_of_some hget, InputBytes.symGetInputByte, hbyte]
    exact ⟨rfl, h⟩
  | none =>
    rw [hbyte] at hget
    rw [symGetInputByte_of_none hget, InputBytes.symGetInputByte, hbyte, hlength]
    refine ⟨rfl, ?_⟩
    rw [List.map_append, List.map_append, List.map_replicate, ← h, ← hlength]
    rfl

end Adacc.SimpleBackend
