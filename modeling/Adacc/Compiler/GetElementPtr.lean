import Adacc.Compiler.DataLayout
import Adacc.Compiler.Execution
import Adacc.Compiler.ShortCircuitingSource
import Adacc.SimpleBackend.Builders

/-!
# Address computations

`Symbolizer::visitGetElementPtrInst` repeats the computation of a getelementptr instruction on
expressions: it starts from the expression of the pointer, and adds an offset for every index. An
index into a struct adds the offset of the member, and any other index its product with the size of
the indexed type. Sizes and offsets are stored as `unsigned`, and an index that is narrower than a
pointer is extended with zeros, while the instruction extends its sign.

The pass records the calls as one computation. Its meaning is `SymbolicComputation.evaluate`, here
with the simple backend. Z3 rejects terms that are not well sorted: the debug build stops there, and
otherwise the result is null.

`GetElementPtrInst.address` is what the instruction computes.
-/

namespace Adacc.GetElementPtr

open SmtLib ShortCircuiting
open IR (Ty)

/-! ## Instructions -/

/-- A layout in which the value of a pointer fits into the `uint64_t` that `_sym_build_integer`
takes. A struct begins with its first member. -/
structure DataLayout extends IR.DataLayout where
  ptrBits_le : ptrBits ≤ 64
  elementOffset_zero : ∀ members, elementOffset members 0 = 0

/-- Values of integer types. -/
inductive IntValue
  /-- `ConstantInt` -/
  | constant (width : ℕ) (x : BitVec width)
  | other (n width : ℕ)

/-- Values of pointer types. -/
inductive Pointer
  /-- `ConstantPointerNull` -/
  | null
  | other (n : ℕ)

inductive Value
  | integer (v : IntValue)
  | pointer (v : Pointer)

def IntValue.width : IntValue → ℕ
  | .constant width _ => width
  | .other _ width => width

/-- A constant that is zero. -/
def IntValue.IsZero : IntValue → Prop
  | .constant _ x => x = 0
  | .other _ _ => False

instance : DecidablePred IntValue.IsZero
  | .constant _ x => inferInstanceAs (Decidable (x = 0))
  | .other _ _ => inferInstanceAs (Decidable False)

/-- What `gep_type_iterator` yields: an index into a struct, which is a constant, or the indexed
type and an index. -/
inductive Step
  | member (members : List Ty) (width : ℕ) (index : BitVec width)
  | element (indexedType : Ty) (index : IntValue)

def Step.operand : Step → IntValue
  | .member _ width index => .constant width index
  | .element _ index => index

/-- The steps go into a value of the type. -/
def Walk : Ty → List Step → Prop
  | _, [] => True
  | .struct members, .member members' _ index :: steps =>
    members' = members ∧ ∃ member, members[index.toNat]? = some member ∧ Walk member steps
  | .array element _, .element indexedType _ :: steps => indexedType = element ∧ Walk element steps
  | _, _ :: _ => False

/-- A getelementptr instruction. The first index goes over values of the source element type. -/
structure GetElementPtrInst (dl : DataLayout) where
  pointerOperand : Pointer
  sourceElementType : Ty
  steps : List Step
  walk : Walk (.array sourceElementType 0) steps
  width_pos : ∀ step ∈ steps, 0 < step.operand.width
  width_le : ∀ step ∈ steps, step.operand.width ≤ dl.ptrBits

def GetElementPtrInst.operands {dl : DataLayout} (I : GetElementPtrInst dl) : List Value :=
  .pointer I.pointerOperand :: I.steps.map fun step ↦ .integer step.operand

/-! ### Their meaning -/

section Meaning

variable (store : ℕ → ℕ)

/-- The value of an operand, where `store` gives those of instructions and arguments. -/
def IntValue.toBitVec : (v : IntValue) → BitVec v.width
  | .constant _ x => x
  | .other n width => BitVec.ofNat width (store n)

variable (dl : DataLayout)

def Pointer.toBitVec : Pointer → BitVec dl.ptrBits
  | .null => 0
  | .other n => BitVec.ofNat dl.ptrBits (store n)

/-- What an index adds to the address. -/
def Step.contribution : Step → ℤ
  | .member members _ index => dl.elementOffset members index.toNat
  | .element indexedType index => (index.toBitVec store).toInt * dl.typeAllocSize indexedType

/-- The address that the instruction computes. -/
def GetElementPtrInst.address {dl : DataLayout} (I : GetElementPtrInst dl) : BitVec dl.ptrBits :=
  BitVec.ofInt dl.ptrBits ((I.pointerOperand.toBitVec store dl).toNat +
    (I.steps.map (Step.contribution store dl)).sum)

end Meaning

/-! ## The pass -/

/-- The functions of the runtime library that are called. -/
inductive RuntimeFunction
  | buildZExt
  /-- `binaryOperatorHandlers` -/
  | binaryOperator (op : BvOp)

abbrev Computation := SymbolicComputation RuntimeFunction Value SourceOperand

section Pass

variable (dl : DataLayout) (symbolicExpressions : ℕ → Option SourceOperand)

/-- `getSymbolicExpression`. Constants have none. -/
def getSymbolicExpression : Value → Option SourceOperand
  | .integer (.constant _ _) | .pointer .null => none
  | .integer (.other n _) | .pointer (.other n) => symbolicExpressions n

/-- The variables of the loop. -/
structure Progress where
  symbolicComputation : Option Computation
  currentAddress : Argument Value Unit

namespace Progress

def calls (p : Progress) : List (Call RuntimeFunction Value SourceOperand) :=
  (p.symbolicComputation.map SymbolicComputation.calls).getD []

def lastInstruction (p : Progress) : Argument Value Unit := .result (p.calls.length - 1)

/-- `symbolicComputation.merge(forceBuildRuntimeCall(…))` -/
def merge (p : Progress) (function : RuntimeFunction) (args : List (Argument Value Unit)) :
    Progress :=
  { p with symbolicComputation := some (SymbolicComputation.merge p.symbolicComputation
      (forceBuildRuntimeCall (getSymbolicExpression symbolicExpressions) .null function args)) }

/-- The end of the loop's body. -/
def add (p : Progress) (addressContribution : Argument Value Unit) : Progress :=
  let p := p.merge symbolicExpressions (.binaryOperator .bvadd)
    [addressContribution, p.currentAddress]
  { p with currentAddress := p.lastInstruction }

/-- `ConstantInt::get(intPtrType, x)` as a symbolic argument. -/
def intPtrConstant (x : ℕ) : Argument Value Unit :=
  .symbolic (.integer (.constant dl.ptrBits (BitVec.ofNat dl.ptrBits x))) ()

/-- The calls for an index times the size of an element. -/
def mulElementSize (p : Progress) (index : IntValue) (elementSize : ℕ) : Progress :=
  if index.width ≠ dl.ptrBits then
    let p := p.merge symbolicExpressions .buildZExt [.symbolic (.integer index) (),
      .concrete (.integer (.constant 8 (BitVec.ofNat 8 (dl.ptrBits - index.width))))]
    p.merge symbolicExpressions (.binaryOperator .bvmul)
      [p.lastInstruction, intPtrConstant dl elementSize]
  else
    p.merge symbolicExpressions (.binaryOperator .bvmul)
      [.symbolic (.integer index) (), intPtrConstant dl elementSize]

/-- The body of the loop. `memberOffset` and `elementSize` are `unsigned`. -/
def visit (p : Progress) : Step → Progress
  | .member members _ index =>
    let memberOffset := dl.elementOffset members index.toNat % 2 ^ 32
    p.add symbolicExpressions (intPtrConstant dl memberOffset)
  | .element indexedType index =>
    if index.IsZero then p
    else
      let elementSize := dl.typeAllocSize indexedType % 2 ^ 32
      let p := p.mulElementSize dl symbolicExpressions index elementSize
      p.add symbolicExpressions p.lastInstruction

end Progress

/-- What becomes of `symbolicExpressions[&I]`. -/
inductive Effect
  | nothing
  | expression (operand : Option SourceOperand)
  /-- `registerSymbolicComputation` -/
  | registered (computation : Option Computation)

/-- Before the loop. -/
def GetElementPtrInst.start {dl : DataLayout} (I : GetElementPtrInst dl) : Progress :=
  ⟨none, .symbolic (.pointer I.pointerOperand) ()⟩

def GetElementPtrInst.loop {dl : DataLayout} (I : GetElementPtrInst dl) : Progress :=
  I.steps.foldl (Progress.visit dl symbolicExpressions) I.start

/-- `Symbolizer::visitGetElementPtrInst` -/
def visitGetElementPtrInst {dl : DataLayout} (I : GetElementPtrInst dl) : Effect :=
  if ∀ v ∈ I.operands, (getSymbolicExpression symbolicExpressions v).isNone then .nothing
  else if ∀ step ∈ I.steps, step.operand.IsZero then
    .expression (getSymbolicExpression symbolicExpressions (.pointer I.pointerOperand))
  else .registered (I.loop symbolicExpressions).symbolicComputation

end Pass

/-! ## Running the calls -/

section Run

variable (dl : DataLayout) (store : ℕ → ℕ)

/-- The bits of a value, as a number. -/
def Value.toNat : Value → ℕ
  | .integer v => (v.toBitVec store).toNat
  | .pointer v => (v.toBitVec store dl).toNat

/-- `Symbolizer::createValueExpression` for pointers too. -/
def createValueExpression (v : Value) (x : ℕ) : Z3Ast :=
  match v with
  | .pointer .null => Z3Ast.symBuildInteger 0 (UInt8.ofNat dl.ptrBits)
  | .pointer (.other _) => Z3Ast.symBuildInteger (BitVec.ofNat 64 x) (UInt8.ofNat dl.ptrBits)
  | .integer v => Symbolizer.createValueExpression (IR.intValue (BitVec.ofNat v.width x))

/-- A builder for bit vectors. -/
def mkBinary (op : BvOp) (a b : Z3Ast) : Option Z3Ast :=
  match a.sort, b.sort with
  | .bitVec w, .bitVec w' => if w = w' then some (Z3Ast.symBuildBinary op a b) else none
  | .bool, _ | _, .bool => none

/-- `_sym_build_zext` -/
def mkZExt (e : Z3Ast) (bits : UInt8) : Option Z3Ast :=
  match e.sort with
  | .bitVec _ => some (Z3Ast.symBuildZExt e bits)
  | .bool => none

/-- A call of the runtime library. -/
def z3Call : RuntimeFunction → List (ArgValue ℕ Z3Ast) → Option Z3Ast
  | .buildZExt, [.expr (some e), .concrete bits] => mkZExt e (UInt8.ofNat bits)
  | .binaryOperator op, [.expr (some a), .expr (some b)] => mkBinary op a b
  | _, _ => none

def z3 : Environment RuntimeFunction Value ℕ Z3Ast where
  value _ v := v.toNat dl store
  createValueExpression v x := some (createValueExpression dl v x)
  call _ := z3Call
  other _ _ _ := none

/-- What there is when a run comes to the instruction: the expressions in the code, the values of
the program and of the expressions, and the bytes of the input. -/
structure Run where
  symbolicExpressions : ℕ → Option SourceOperand
  store : ℕ → ℕ
  state : SourceState RuntimeFunction ℕ Z3Ast
  input : Adacc.Input

variable (run : Run)

/-- The expression of an operand at run time. -/
def Run.expression (v : Value) : Option Z3Ast :=
  (getSymbolicExpression run.symbolicExpressions v).bind (SourceOperand.eval run.state)

/-- The expression of the instruction at run time. -/
def Run.resultExpression {dl : DataLayout} (I : GetElementPtrInst dl) : Option Z3Ast :=
  match visitGetElementPtrInst run.symbolicExpressions I with
  | .nothing => none
  | .expression operand => operand.bind (SourceOperand.eval run.state)
  | .registered computation => computation.bind fun computation ↦
    (computation.evaluate (z3 dl run.store) run.state.events (SourceOperand.eval run.state)).2

end Run

end Adacc.GetElementPtr
