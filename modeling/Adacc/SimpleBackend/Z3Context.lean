import Adacc.Foundation.ReferenceCounting
import Adacc.SimpleBackend.InputBytes
import Mathlib.Data.Finset.Basic

/-!
# The simple backend and its Z3 context

`simple_backend/Runtime.cpp` once more, now with what it does to Z3 on the way: the terms that it
makes, with their sorts, the references that it takes and drops, and the set
`allocatedExpressions` of the expressions that it has passed to client code.

Terms are shared, so a `Z3_ast` is a term. The functions `Z3_mk_…` do not simplify, apart from
numerals, which are brought into the range of their sort: `fpaValue` is what a `double` becomes as a
numeral of single or double precision. `Z3_simplify` may be any function. Calls of Z3 that neither
take nor return a term are left out.

Functions are in the state monad, with their statements as in the source. Where the source makes
two calls in the arguments of a third, they are made from left to right.
-/

namespace Adacc.SimpleBackend

open SmtLib ReferenceCounting

/-! ## Terms -/

/-- Sorts and constants without parts. -/
inductive Leaf
  | bvSort (n : ℕ)
  | fpaSortSingle
  | fpaSortDouble
  | true
  | false
  | roundNearestTiesToEven
  | roundTowardZero
  deriving DecidableEq

/-- Functions of one term. Numerals and variables have their sort as a part. -/
inductive Unary
  | numeral (value : ℕ)
  | fpaNumeral (value : BitVec 64)
  | const (name : List Char)
  | bvneg
  | bvnot
  | not
  | signExt (i : ℕ)
  | zeroExt (i : ℕ)
  | extract (high low : BitVec 32)
  | fpaAbs
  | fpaIsNan
  | fpaToIeeeBv
  deriving DecidableEq

inductive Binary
  | bv (op : BvOp)
  | compare (op : CmpOp)
  | connective (op : BoolOp)
  | concat
  | fpaRem
  | fpaGt
  | fpaGeq
  | fpaLt
  | fpaLeq
  | fpaEq
  | fpaToFpBv
  | fpaToSbv (bits : ℕ)
  | fpaToUbv (bits : ℕ)
  deriving DecidableEq

inductive Ternary
  | ite
  | fpaAdd
  | fpaSub
  | fpaMul
  | fpaDiv
  | fpaToFpFloat
  | fpaToFpSigned
  | fpaToFpUnsigned
  deriving DecidableEq

/-- `Z3_ast`, which includes sorts. -/
inductive Ast
  | leaf (f : Leaf)
  | unary (f : Unary) (a : Ast)
  | binary (f : Binary) (a b : Ast)
  | ternary (f : Ternary) (a b c : Ast)
  deriving DecidableEq

/-- The terms that a term refers to. -/
def Ast.parts : Ast → List Ast
  | .leaf _ => []
  | .unary _ a => [a]
  | .binary _ a b => [a, b]
  | .ternary _ a b c => [a, b, c]

/-- `Z3_mk_bv_sort` -/
abbrev bvSort (bits : UInt8) : Ast := .leaf (.bvSort bits.toNat)

/-! ## The runtime -/

/-- The runtime, and its calls of Z3, the latest first. -/
structure Runtime where
  calls : List (Call Ast)
  allocatedExpressions : Finset Ast
  stdinBytes : List (Option Ast)

/-- `g_rounding_mode` -/
def gRoundingMode : Ast := .leaf .roundNearestTiesToEven

/-- `g_null_pointer` -/
def gNullPointer : Ast := .unary (.numeral 0) (.leaf (.bvSort 64))

/-- `g_true` -/
def gTrue : Ast := .leaf .true

/-- `g_false` -/
def gFalse : Ast := .leaf .false

/-- The global constants. -/
def globals : List Ast := [gRoundingMode, gNullPointer, gTrue, gFalse]

/-- A function of the runtime. -/
abbrev RuntimeM := StateM Runtime

/-- A call of Z3. -/
def call (c : Call Ast) : RuntimeM Unit :=
  modify fun s ↦ { s with calls := c :: s.calls }

/-- `Z3_mk_…`, with the parts of the term as arguments. -/
def mk (t : Ast) : RuntimeM Ast := do
  call (.apply t.parts (some t))
  return t

/-- `Z3_inc_ref` -/
def incRef (t : Ast) : RuntimeM Unit := call (.incRef t)

/-- `Z3_dec_ref` -/
def decRef (t : Ast) : RuntimeM Unit := call (.decRef t)

/-- `Z3_simplify` -/
def z3Simplify (simplify : Ast → Ast) (t : Ast) : RuntimeM Ast := do
  call (.apply [t] (some (simplify t)))
  return simplify t

/-- `Z3_is_eq_ast` -/
def isEqAst (a b : Ast) : RuntimeM Bool := do
  call (.apply [a, b] none)
  return a = b

/-- `Z3_solver_assert` -/
def solverAssert (t : Ast) : RuntimeM Unit := call (.apply [t] none)

/-- `registerExpression` -/
def registerExpression (expr : Ast) : RuntimeM Ast := do
  if expr ∉ (← get).allocatedExpressions then
    modify fun s ↦ { s with allocatedExpressions := insert expr s.allocatedExpressions }
    incRef expr
  return expr

/-- `build_variable` -/
def buildVariable (name : List Char) (bits : UInt8) : RuntimeM Ast := do
  let sort ← mk (bvSort bits)
  incRef sort
  let result ← mk (.unary (.const name) sort)
  incRef result
  decRef sort
  return result

/-- `_sym_initialize` -/
def symInitialize : RuntimeM Unit := do
  incRef (← mk gRoundingMode)
  let pointerSort ← mk (.leaf (.bvSort 64))
  incRef pointerSort
  incRef (← mk gNullPointer)
  decRef pointerSort
  incRef (← mk gTrue)
  incRef (← mk gFalse)

/-! ## Running -/

section Running

variable {α β : Type} (s : Runtime) (t : Ast)

@[simp] theorem run_pure (a : α) : (pure a : RuntimeM α) s = (a, s) := rfl

@[simp] theorem run_bind (m : RuntimeM α) (f : α → RuntimeM β) :
    (m >>= f) s = f (m s).1 (m s).2 := rfl

@[simp] theorem run_map (f : α → β) (m : RuntimeM α) : (f <$> m) s = (f (m s).1, (m s).2) := rfl

@[simp] theorem run_ite (p : Prop) [Decidable p] (m m' : RuntimeM α) :
    (if p then m else m') s = if p then m s else m' s := by
  split <;> rfl

@[simp] theorem run_get : (get : RuntimeM Runtime) s = (s, s) := rfl

@[simp] theorem run_modify (f : Runtime → Runtime) : (modify f : RuntimeM Unit) s = ((), f s) := rfl

@[simp] theorem fst_mk : (mk t s).1 = t := rfl

@[simp] theorem fst_z3Simplify (simplify : Ast → Ast) : (z3Simplify simplify t s).1 = simplify t :=
  rfl

@[simp] theorem fst_isEqAst (a b : Ast) : (isEqAst a b s).1 = decide (a = b) := rfl

theorem run_registerExpression :
    registerExpression t s
      = (t, if t ∈ s.allocatedExpressions then s else
          { s with
            calls := .incRef t :: s.calls
            allocatedExpressions := insert t s.allocatedExpressions }) := by
  unfold registerExpression
  by_cases h : t ∈ s.allocatedExpressions
  · simp [h]
  · simp [h, incRef, call]

@[simp] theorem fst_registerExpression : (registerExpression t s).1 = t := by
  rw [run_registerExpression]

end Running

/-! ## The expression builders -/

section Builders

/-- `FSORT` -/
def fSort (isDouble : Bool) : Ast := .leaf (if isDouble then .fpaSortDouble else .fpaSortSingle)

/-- `registerExpression(Z3_mk_…(g_context, …))`, what most builders are. -/
def build (t : Ast) : RuntimeM Ast := do
  registerExpression (← mk t)

@[simp] theorem fst_build (t : Ast) (s : Runtime) : (build t s).1 = t :=
  fst_registerExpression (mk t s).2 t

/-- What the builders do that need a sort. -/
def buildWithSort (sort : Ast) (t : Ast → Ast) : RuntimeM Ast := do
  let sort ← mk sort
  incRef sort
  let result ← build (t sort)
  decRef sort
  return result

@[simp] theorem fst_buildWithSort (sort : Ast) (t : Ast → Ast) (s : Runtime) :
    (buildWithSort sort t s).1 = t sort := by
  rw [buildWithSort, run_bind, run_bind, run_bind, run_bind, run_pure, fst_mk, fst_build]

/-- `_sym_build_integer` -/
def symBuildInteger (value : BitVec 64) (bits : UInt8) : RuntimeM Ast :=
  buildWithSort (bvSort bits) (.unary (.numeral (value.setWidth bits.toNat).toNat))

/-- `_sym_build_integer128` -/
def symBuildInteger128 (high low : BitVec 64) : RuntimeM Ast := do
  let high ← symBuildInteger high 64
  let low ← symBuildInteger low 64
  build (.binary .concat high low)

/-- `_sym_build_float` -/
def symBuildFloat (fpaValue : Bool → BitVec 64 → BitVec 64) (value : BitVec 64) (isDouble : Bool) :
    RuntimeM Ast :=
  buildWithSort (fSort isDouble) (.unary (.fpaNumeral (fpaValue isDouble value)))

/-- `stdinBytes.resize(offset)` and `stdinBytes.push_back(var)`, where there are at most `offset`
entries. -/
def Runtime.cacheByte (offset : SizeT) (var : Ast) (s : Runtime) : Runtime :=
  let filling := List.replicate (offset.toNat - s.stdinBytes.length) none
  { s with stdinBytes := s.stdinBytes ++ filling ++ [some var] }

/-- `_sym_get_input_byte` -/
def symGetInputByte (offset : SizeT) : RuntimeM (Option Ast) := do
  let stdinBytes := (← get).stdinBytes
  match stdinBytes[offset.toNat]? with
  | some byte => return byte
  | none =>
    let var ← buildVariable (InputBytes.varName stdinBytes.length) 8
    modify (.cacheByte offset var)
    return some var

theorem symGetInputByte_of_some {s : Runtime} {offset : SizeT} {byte : Option Ast}
    (h : s.stdinBytes[offset.toNat]? = some byte) : symGetInputByte offset s = (byte, s) := by
  simp [symGetInputByte, h]

theorem symGetInputByte_of_none {s : Runtime} {offset : SizeT}
    (h : s.stdinBytes[offset.toNat]? = none) :
    symGetInputByte offset s =
      let built := buildVariable (InputBytes.varName s.stdinBytes.length) 8 s
      (some built.1, built.2.cacheByte offset built.1) := by
  simp [symGetInputByte, h]

/-- `_sym_build_null_pointer` -/
def symBuildNullPointer : RuntimeM Ast := return gNullPointer

/-- `_sym_build_true` -/
def symBuildTrue : RuntimeM Ast := return gTrue

/-- `_sym_build_false` -/
def symBuildFalse : RuntimeM Ast := return gFalse

/-- `_sym_build_bool` -/
def symBuildBool (value : Bool) : RuntimeM Ast := return if value then gTrue else gFalse

/-- `_sym_build_neg` -/
def symBuildNeg (expr : Ast) : RuntimeM Ast := build (.unary .bvneg expr)

/-- The uses of `DEF_BINARY_EXPR_BUILDER`. -/
inductive BinaryExprBuilder
  | add | sub | mul | unsignedDiv | signedDiv | unsignedRem | signedRem
  | shiftLeft | logicalShiftRight | arithmeticShiftRight
  | signedLessThan | signedLessEqual | signedGreaterThan | signedGreaterEqual
  | unsignedLessThan | unsignedLessEqual | unsignedGreaterThan | unsignedGreaterEqual
  | equal
  | and | or | boolXor | xor
  | floatOrderedGreaterThan | floatOrderedGreaterEqual
  | floatOrderedLessThan | floatOrderedLessEqual
  | floatOrderedEqual

/-- The second argument of the macro. -/
def BinaryExprBuilder.z3Name : BinaryExprBuilder → Binary
  | .add => .bv .bvadd
  | .sub => .bv .bvsub
  | .mul => .bv .bvmul
  | .unsignedDiv => .bv .bvudiv
  | .signedDiv => .bv .bvsdiv
  | .unsignedRem => .bv .bvurem
  | .signedRem => .bv .bvsrem
  | .shiftLeft => .bv .bvshl
  | .logicalShiftRight => .bv .bvlshr
  | .arithmeticShiftRight => .bv .bvashr
  | .signedLessThan => .compare .bvslt
  | .signedLessEqual => .compare .bvsle
  | .signedGreaterThan => .compare .bvsgt
  | .signedGreaterEqual => .compare .bvsge
  | .unsignedLessThan => .compare .bvult
  | .unsignedLessEqual => .compare .bvule
  | .unsignedGreaterThan => .compare .bvugt
  | .unsignedGreaterEqual => .compare .bvuge
  | .equal => .compare .eq
  | .and => .bv .bvand
  | .or => .bv .bvor
  | .boolXor => .connective .xor
  | .xor => .bv .bvxor
  | .floatOrderedGreaterThan => .fpaGt
  | .floatOrderedGreaterEqual => .fpaGeq
  | .floatOrderedLessThan => .fpaLt
  | .floatOrderedLessEqual => .fpaLeq
  | .floatOrderedEqual => .fpaEq

/-- `DEF_BINARY_EXPR_BUILDER` -/
def symBuildBinary (name : BinaryExprBuilder) (a b : Ast) : RuntimeM Ast :=
  build (.binary name.z3Name a b)

/-- `_sym_build_fp_add` -/
def symBuildFpAdd (a b : Ast) : RuntimeM Ast := build (.ternary .fpaAdd gRoundingMode a b)

/-- `_sym_build_fp_sub` -/
def symBuildFpSub (a b : Ast) : RuntimeM Ast := build (.ternary .fpaSub gRoundingMode a b)

/-- `_sym_build_fp_mul` -/
def symBuildFpMul (a b : Ast) : RuntimeM Ast := build (.ternary .fpaMul gRoundingMode a b)

/-- `_sym_build_fp_div` -/
def symBuildFpDiv (a b : Ast) : RuntimeM Ast := build (.ternary .fpaDiv gRoundingMode a b)

/-- `_sym_build_fp_rem` -/
def symBuildFpRem (a b : Ast) : RuntimeM Ast := build (.binary .fpaRem a b)

/-- `_sym_build_fp_abs` -/
def symBuildFpAbs (a : Ast) : RuntimeM Ast := build (.unary .fpaAbs a)

/-- `_sym_build_not` -/
def symBuildNot (expr : Ast) : RuntimeM Ast := build (.unary .bvnot expr)

/-- `_sym_build_not_equal` -/
def symBuildNotEqual (a b : Ast) : RuntimeM Ast := do
  build (.unary .not (← mk (.binary (.compare .eq) a b)))

/-- `_sym_build_bool_and` -/
def symBuildBoolAnd (a b : Ast) : RuntimeM Ast := build (.binary (.connective .and) a b)

/-- `_sym_build_bool_or` -/
def symBuildBoolOr (a b : Ast) : RuntimeM Ast := build (.binary (.connective .or) a b)

/-- `_sym_build_float_ordered_not_equal` -/
def symBuildFloatOrderedNotEqual (a b : Ast) : RuntimeM Ast := do
  build (.unary .not (← symBuildBinary .floatOrderedEqual a b))

/-- `_sym_build_float_unordered` -/
def symBuildFloatUnordered (a b : Ast) : RuntimeM Ast := do
  let check0 ← mk (.unary .fpaIsNan a)
  let check1 ← mk (.unary .fpaIsNan b)
  build (.binary (.connective .or) check0 check1)

/-- `_sym_build_float_ordered` -/
def symBuildFloatOrdered (a b : Ast) : RuntimeM Ast := do
  build (.unary .not (← symBuildFloatUnordered a b))

/-- What the unordered comparisons do, with the ordered comparison that they are about. -/
def buildUnordered (ordered : Ast → Ast → RuntimeM Ast) (a b : Ast) : RuntimeM Ast := do
  let check0 ← mk (.unary .fpaIsNan a)
  let check1 ← mk (.unary .fpaIsNan b)
  let _check2 ← ordered a b
  -- `Z3_mk_or` is given the number 2, so it does not look at the third check
  build (.binary (.connective .or) check0 check1)

/-- The comparison does not occur in the result. -/
theorem fst_buildUnordered (ordered : Ast → Ast → RuntimeM Ast) (a b : Ast) (s : Runtime) :
    (buildUnordered ordered a b s).1 = (symBuildFloatUnordered a b s).1 := by
  rw [buildUnordered, run_bind, run_bind, run_bind, fst_build, symBuildFloatUnordered, run_bind,
    run_bind, fst_build, fst_mk, fst_mk]

/-- `_sym_build_float_unordered_greater_than` -/
def symBuildFloatUnorderedGreaterThan (a b : Ast) : RuntimeM Ast :=
  buildUnordered (symBuildBinary .floatOrderedGreaterThan) a b

/-- `_sym_build_float_unordered_greater_equal` -/
def symBuildFloatUnorderedGreaterEqual (a b : Ast) : RuntimeM Ast :=
  buildUnordered (symBuildBinary .floatOrderedGreaterEqual) a b

/-- `_sym_build_float_unordered_less_than` -/
def symBuildFloatUnorderedLessThan (a b : Ast) : RuntimeM Ast :=
  buildUnordered (symBuildBinary .floatOrderedLessThan) a b

/-- `_sym_build_float_unordered_less_equal` -/
def symBuildFloatUnorderedLessEqual (a b : Ast) : RuntimeM Ast :=
  buildUnordered (symBuildBinary .floatOrderedLessEqual) a b

/-- `_sym_build_float_unordered_equal` -/
def symBuildFloatUnorderedEqual (a b : Ast) : RuntimeM Ast :=
  buildUnordered (symBuildBinary .floatOrderedEqual) a b

/-- `_sym_build_float_unordered_not_equal` -/
def symBuildFloatUnorderedNotEqual (a b : Ast) : RuntimeM Ast :=
  buildUnordered symBuildFloatOrderedNotEqual a b

/-- `_sym_build_sext` -/
def symBuildSExt (expr : Ast) (bits : UInt8) : RuntimeM Ast :=
  build (.unary (.signExt bits.toNat) expr)

/-- `_sym_build_zext` -/
def symBuildZExt (expr : Ast) (bits : UInt8) : RuntimeM Ast :=
  build (.unary (.zeroExt bits.toNat) expr)

/-- `_sym_build_trunc` -/
def symBuildTrunc (expr : Ast) (bits : UInt8) : RuntimeM Ast :=
  build (.unary (.extract (BitVec.ofNat 32 bits.toNat - 1) 0) expr)

/-- `_sym_build_int_to_float` -/
def symBuildIntToFloat (value : Ast) (isDouble isSigned : Bool) : RuntimeM Ast :=
  buildWithSort (fSort isDouble)
    (.ternary (if isSigned then .fpaToFpSigned else .fpaToFpUnsigned) gRoundingMode value)

/-- `_sym_build_float_to_float` -/
def symBuildFloatToFloat (expr : Ast) (toDouble : Bool) : RuntimeM Ast :=
  buildWithSort (fSort toDouble) (.ternary .fpaToFpFloat gRoundingMode expr)

/-- `_sym_build_bits_to_float` -/
def symBuildBitsToFloat (expr : Option Ast) (toDouble : Bool) : RuntimeM (Option Ast) := do
  match expr with
  | none => return none
  | some expr => return some (← buildWithSort (fSort toDouble) (.binary .fpaToFpBv expr))

/-- `_sym_build_float_to_bits` -/
def symBuildFloatToBits (expr : Option Ast) : RuntimeM (Option Ast) := do
  match expr with
  | none => return none
  | some expr => return some (← build (.unary .fpaToIeeeBv expr))

/-- `_sym_build_float_to_signed_integer` -/
def symBuildFloatToSignedInteger (expr : Ast) (bits : UInt8) : RuntimeM Ast := do
  build (.binary (.fpaToSbv bits.toNat) (← mk (.leaf .roundTowardZero)) expr)

/-- `_sym_build_float_to_unsigned_integer` -/
def symBuildFloatToUnsignedInteger (expr : Ast) (bits : UInt8) : RuntimeM Ast := do
  build (.binary (.fpaToUbv bits.toNat) (← mk (.leaf .roundTowardZero)) expr)

/-- `_sym_build_bool_to_bits` -/
def symBuildBoolToBits (expr : Ast) (bits : UInt8) : RuntimeM Ast := do
  let one ← symBuildInteger 1 bits
  let zero ← symBuildInteger 0 bits
  build (.ternary .ite expr one zero)

/-- `_sym_concat_helper` -/
def symConcatHelper (a b : Ast) : RuntimeM Ast := build (.binary .concat a b)

/-- `_sym_extract_helper` -/
def symExtractHelper (expr : Ast) (firstBit lastBit : SizeT) : RuntimeM Ast :=
  build (.unary (.extract (firstBit.setWidth 32) (lastBit.setWidth 32)) expr)

/-- A call of an expression builder. -/
inductive BuilderCall
  | integer (value : BitVec 64) (bits : UInt8)
  | integer128 (high low : BitVec 64)
  | float (value : BitVec 64) (isDouble : Bool)
  | getInputByte (offset : SizeT)
  | nullPointer
  | true
  | false
  | bool (value : Bool)
  | neg (expr : Ast)
  | binary (name : BinaryExprBuilder) (a b : Ast)
  | fpAdd (a b : Ast)
  | fpSub (a b : Ast)
  | fpMul (a b : Ast)
  | fpDiv (a b : Ast)
  | fpRem (a b : Ast)
  | fpAbs (a : Ast)
  | not (expr : Ast)
  | notEqual (a b : Ast)
  | boolAnd (a b : Ast)
  | boolOr (a b : Ast)
  | floatOrderedNotEqual (a b : Ast)
  | floatOrdered (a b : Ast)
  | floatUnordered (a b : Ast)
  | floatUnorderedGreaterThan (a b : Ast)
  | floatUnorderedGreaterEqual (a b : Ast)
  | floatUnorderedLessThan (a b : Ast)
  | floatUnorderedLessEqual (a b : Ast)
  | floatUnorderedEqual (a b : Ast)
  | floatUnorderedNotEqual (a b : Ast)
  | sext (expr : Ast) (bits : UInt8)
  | zext (expr : Ast) (bits : UInt8)
  | trunc (expr : Ast) (bits : UInt8)
  | intToFloat (value : Ast) (isDouble isSigned : Bool)
  | floatToFloat (expr : Ast) (toDouble : Bool)
  | bitsToFloat (expr : Option Ast) (toDouble : Bool)
  | floatToBits (expr : Option Ast)
  | floatToSignedInteger (expr : Ast) (bits : UInt8)
  | floatToUnsignedInteger (expr : Ast) (bits : UInt8)
  | boolToBits (expr : Ast) (bits : UInt8)
  | concatHelper (a b : Ast)
  | extractHelper (expr : Ast) (firstBit lastBit : SizeT)

/-- The builder is called. -/
def BuilderCall.run (fpaValue : Bool → BitVec 64 → BitVec 64) : BuilderCall → RuntimeM (Option Ast)
  | integer value bits => some <$> symBuildInteger value bits
  | integer128 high low => some <$> symBuildInteger128 high low
  | float value isDouble => some <$> symBuildFloat fpaValue value isDouble
  | getInputByte offset => symGetInputByte offset
  | nullPointer => some <$> symBuildNullPointer
  | true => some <$> symBuildTrue
  | false => some <$> symBuildFalse
  | bool value => some <$> symBuildBool value
  | neg expr => some <$> symBuildNeg expr
  | binary name a b => some <$> symBuildBinary name a b
  | fpAdd a b => some <$> symBuildFpAdd a b
  | fpSub a b => some <$> symBuildFpSub a b
  | fpMul a b => some <$> symBuildFpMul a b
  | fpDiv a b => some <$> symBuildFpDiv a b
  | fpRem a b => some <$> symBuildFpRem a b
  | fpAbs a => some <$> symBuildFpAbs a
  | not expr => some <$> symBuildNot expr
  | notEqual a b => some <$> symBuildNotEqual a b
  | boolAnd a b => some <$> symBuildBoolAnd a b
  | boolOr a b => some <$> symBuildBoolOr a b
  | floatOrderedNotEqual a b => some <$> symBuildFloatOrderedNotEqual a b
  | floatOrdered a b => some <$> symBuildFloatOrdered a b
  | floatUnordered a b => some <$> symBuildFloatUnordered a b
  | floatUnorderedGreaterThan a b => some <$> symBuildFloatUnorderedGreaterThan a b
  | floatUnorderedGreaterEqual a b => some <$> symBuildFloatUnorderedGreaterEqual a b
  | floatUnorderedLessThan a b => some <$> symBuildFloatUnorderedLessThan a b
  | floatUnorderedLessEqual a b => some <$> symBuildFloatUnorderedLessEqual a b
  | floatUnorderedEqual a b => some <$> symBuildFloatUnorderedEqual a b
  | floatUnorderedNotEqual a b => some <$> symBuildFloatUnorderedNotEqual a b
  | sext expr bits => some <$> symBuildSExt expr bits
  | zext expr bits => some <$> symBuildZExt expr bits
  | trunc expr bits => some <$> symBuildTrunc expr bits
  | intToFloat value isDouble isSigned => some <$> symBuildIntToFloat value isDouble isSigned
  | floatToFloat expr toDouble => some <$> symBuildFloatToFloat expr toDouble
  | bitsToFloat expr toDouble => symBuildBitsToFloat expr toDouble
  | floatToBits expr => symBuildFloatToBits expr
  | floatToSignedInteger expr bits => some <$> symBuildFloatToSignedInteger expr bits
  | floatToUnsignedInteger expr bits => some <$> symBuildFloatToUnsignedInteger expr bits
  | boolToBits expr bits => some <$> symBuildBoolToBits expr bits
  | concatHelper a b => some <$> symConcatHelper a b
  | extractHelper expr firstBit lastBit => some <$> symExtractHelper expr firstBit lastBit

end Builders

/-! ## Path constraints and garbage -/

/-- `_sym_push_path_constraint`. An assertion that fails ends a build with assertions; here the call
goes on, as in a build without. -/
def symPushPathConstraint (simplify : Ast → Ast) (constraint : Option Ast) (taken : Bool) :
    RuntimeM Unit := do
  match constraint with
  | none => return
  | some constraint =>
    let constraint ← z3Simplify simplify constraint
    incRef constraint
    if ← isEqAst constraint (← mk (.leaf .true)) then
      decRef constraint
    else if ← isEqAst constraint (← mk (.leaf .false)) then
      decRef constraint
    else
      -- generate a solution for the alternative
      let notConstraint ← z3Simplify simplify (← mk (.unary .not constraint))
      incRef notConstraint
      solverAssert (if taken then notConstraint else constraint)
      -- assert the actual path constraint
      let newConstraint := if taken then constraint else notConstraint
      incRef newConstraint
      solverAssert newConstraint
      decRef constraint
      decRef notConstraint

/-- `_sym_collect_garbage`, with the set that `collectReachableExpressions` returns. -/
def symCollectGarbage (garbageCollectionThreshold : ℕ) (reachableExpressions : Finset Ast) :
    RuntimeM Unit :=
  modify fun s ↦
    if s.allocatedExpressions.card < garbageCollectionThreshold then s
    else
      { s with
        allocatedExpressions := s.allocatedExpressions.filter (· ∈ reachableExpressions) }

end Adacc.SimpleBackend
