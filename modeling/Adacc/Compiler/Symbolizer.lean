import Adacc.Compiler.IR

/-!
# The compiler pass

`Symbolizer` visits the instructions of a function in layout order and inserts code that computes
an expression for every value. It remembers which values already have an expression
(`symbolicExpressions`); an operand that has none at the time of the visit is taken to be concrete.
After the visits, `finalizePHINodes` fills in the PHI nodes for expressions or removes them, and
`shortCircuitExpressionUses` guards every registered computation so that it only runs if one of its
inputs has an expression, and completes the inputs that have none.

## Inserted code

The instruction that computes the expression of a value is named by the value, so an expression in
inserted code is null or the one of a value (`SymOperand`). Code comes before the instruction that
it was inserted for. A registered computation is a call of the runtime library with its inputs; the
pass keeps them in a list of their own, here they stay in the code and short-circuiting replaces
them there.

Site identifiers are left out, and so is the code of `visitReturnInst`, which is part of
`CallProtocol`.
-/

namespace Adacc.Symbolizer

open SmtLib IR

/-- A function of the runtime library that builds an expression from expressions, with its other
arguments. -/
inductive SymFnT
  | binary (op : BvOp)
  | boolOp (op : BoolOp)
  | compare (op : CmpOp)
  | sExt (bits : UInt8)
  | zExt (bits : UInt8)
  | trunc (bits : UInt8)
  | boolToBits (bits : UInt8)
  deriving DecidableEq

/-- `Runtime::binaryOperatorHandlers` -/
def binaryOperatorHandlers : BinaryOpcode → BvOp
  | .add => .bvadd
  | .sub => .bvsub
  | .mul => .bvmul
  | .uDiv => .bvudiv
  | .sDiv => .bvsdiv
  | .uRem => .bvurem
  | .sRem => .bvsrem
  | .shl => .bvshl
  | .lShr => .bvlshr
  | .aShr => .bvashr
  | .and => .bvand
  | .or => .bvor
  | .xor => .bvxor

/-- `Runtime::comparisonHandlers` -/
def comparisonHandlers : Predicate → CmpOp
  | .eq => .eq
  | .ne => .distinct
  | .ugt => .bvugt
  | .uge => .bvuge
  | .ult => .bvult
  | .ule => .bvule
  | .sgt => .bvsgt
  | .sge => .bvsge
  | .slt => .bvslt
  | .sle => .bvsle

/-- An expression in inserted code. -/
inductive SymOperand
  | null
  | expr (id : ValueId)
  deriving DecidableEq

/-- `Symbolizer::Input` -/
structure Input where
  concreteValue : Operand
  symbolicOperand : SymOperand
  deriving DecidableEq

/-- What a registered computation does with its inputs. -/
inductive Action
  /-- A call that builds the expression of the instruction. -/
  | build (function : SymFnT)
  /-- `_sym_push_path_constraint` of the input, which is the expression of `cond`. -/
  | pushPathConstraint (cond : Operand)
  /-- The code of `tryAlternative`: the input equals the concrete value of `V`. -/
  | pushAssertion (V : Operand)
  deriving DecidableEq

/-- `Symbolizer::SymbolicComputation` -/
structure SymbolicComputation where
  action : Action
  inputs : List Input
  deriving DecidableEq

/-- Inserted code. The computations of type `C` are registered for short-circuiting. -/
inductive SymCode (C : Type)
  | computation (c : C)
  | readMemory (addr : Operand) (length : SizeT) (littleEndian : Bool)
  | writeMemory (addr : Operand) (length : SizeT) (expr : SymOperand) (littleEndian : Bool)
  /-- The constraint block of a `switch` on `cond`: one equality per case. -/
  | constraints (cond : Operand) (conditionExpr : SymOperand) (cases : List Value)
  | phi (incoming : List (Label × SymOperand))
  deriving DecidableEq

/-- An instruction with the code inserted before it. -/
structure Instrumented (C : Type) where
  inst : Instr
  code : List (SymCode C)

/-! ## Visiting the instructions -/

/-- `symbolicExpressions`, as the values that have an entry. -/
abbrev SymbolicExpressions := List ValueId

/-- `Symbolizer::getSymbolicExpression` -/
def getSymbolicExpression (symbolicExpressions : SymbolicExpressions) : Operand → Option SymOperand
  | .const _ => none
  | .value id => if id ∈ symbolicExpressions then some (.expr id) else none

/-- `Symbolizer::getSymbolicExpressionOrNull` -/
def getSymbolicExpressionOrNull (symbolicExpressions : SymbolicExpressions) (V : Operand) :
    SymOperand :=
  (getSymbolicExpression symbolicExpressions V).getD .null

section Visit

variable (symbolicExpressions : SymbolicExpressions)

/-- `Symbolizer::forceBuildRuntimeCall`, with the arguments that are expressions. -/
def forceBuildRuntimeCall (action : Action) (args : List Operand) : SymbolicComputation :=
  ⟨action, args.map fun V ↦ ⟨V, getSymbolicExpressionOrNull symbolicExpressions V⟩⟩

/-- `Symbolizer::buildRuntimeCall`. Arguments that are not expressions are constants, which have no
entry. -/
def buildRuntimeCall (action : Action) (args : List Operand) : Option SymbolicComputation :=
  if ∀ V ∈ args, getSymbolicExpression symbolicExpressions V = none then none
  else some (forceBuildRuntimeCall symbolicExpressions action args)

/-- `Symbolizer::registerSymbolicComputation` -/
def registerSymbolicComputation (computation : Option SymbolicComputation)
    (concrete : Option ValueId) : List (SymCode SymbolicComputation) × SymbolicExpressions :=
  match computation with
  | none => ([], symbolicExpressions)
  | some computation => ([.computation computation], concrete.toList ++ symbolicExpressions)

/-- `Symbolizer::tryAlternative` -/
def tryAlternative (V : Operand) : List (SymCode SymbolicComputation) :=
  match getSymbolicExpression symbolicExpressions V with
  | none => []
  | some destExpr => [.computation ⟨.pushAssertion V, [⟨V, destExpr⟩]⟩]

/-- What the visitors of binary operators, comparisons and casts have in common: a call of `handler`
with the operands, registered for the instruction. -/
def visitOperation (handler : SymFnT) (I : ValueId) (operands : List Operand) :
    List (SymCode SymbolicComputation) × SymbolicExpressions :=
  registerSymbolicComputation symbolicExpressions
    (buildRuntimeCall symbolicExpressions (.build handler) operands) (some I)

/-- The choice of the handler in `visitBinaryOperator`. Other operators on `i1` are
`llvm_unreachable`. -/
def binaryHandler (op : BinaryOpcode) (width : ℕ) : SymFnT :=
  if width = 1 then
    match op with
    | .and => .boolOp .and
    | .or => .boolOp .or
    | .xor => .boolOp .xor
    | op => .binary (binaryOperatorHandlers op)
  else .binary (binaryOperatorHandlers op)

/-- `Symbolizer::visitBinaryOperator` -/
def visitBinaryOperator (op : BinaryOpcode) (width : ℕ) :=
  visitOperation symbolicExpressions (binaryHandler op width)

/-- `Symbolizer::visitCmpInst` -/
def visitCmpInst (pred : Predicate) :=
  visitOperation symbolicExpressions (.compare (comparisonHandlers pred))

/-- `IRBuilder::getInt8`, whose parameter has eight bits. -/
def getInt8 (n : ℕ) : UInt8 := UInt8.ofNat n

/-- `Symbolizer::visitTruncInst` -/
def visitTruncInst (dest : ℕ) := visitOperation symbolicExpressions (.trunc (getInt8 dest))

/-- The choice of the handler in `visitCastInst`: a conversion of Booleans, or else `target` with
the number of additional bits. -/
def castHandler (target : UInt8 → SymFnT) (src dest : ℕ) : SymFnT :=
  if src = 1 then .boolToBits (getInt8 dest) else target (getInt8 (dest - src))

/-- `Symbolizer::visitCastInst` -/
def visitCastInst (target : UInt8 → SymFnT) (src dest : ℕ) :=
  visitOperation symbolicExpressions (castHandler target src dest)

/-- `Symbolizer::visitBranchInst`, for conditional branches. -/
def visitBranchInst (cond : Operand) :
    List (SymCode SymbolicComputation) × SymbolicExpressions :=
  registerSymbolicComputation symbolicExpressions
    (buildRuntimeCall symbolicExpressions (.pushPathConstraint cond) [cond]) none

/-- `Symbolizer::visitLoadInst` -/
def visitLoadInst (littleEndian : Bool) (I : ValueId) (ty : IntTy) (addr : Operand) :
    List (SymCode SymbolicComputation) × SymbolicExpressions :=
  (tryAlternative symbolicExpressions addr ++ [.readMemory addr ty.storeSize littleEndian],
    I :: symbolicExpressions)

/-- `Symbolizer::visitStoreInst` -/
def visitStoreInst (littleEndian : Bool) (ty : IntTy) (value addr : Operand) :
    List (SymCode SymbolicComputation) × SymbolicExpressions :=
  (tryAlternative symbolicExpressions addr ++
      [.writeMemory addr ty.storeSize (getSymbolicExpressionOrNull symbolicExpressions value)
        littleEndian],
    symbolicExpressions)

/-- `Symbolizer::visitSwitchInst` -/
def visitSwitchInst (cond : Operand) (cases : List Value) :
    List (SymCode SymbolicComputation) × SymbolicExpressions :=
  match getSymbolicExpression symbolicExpressions cond with
  | none => ([], symbolicExpressions)
  | some conditionExpr => ([.constraints cond conditionExpr cases], symbolicExpressions)

/-- `Symbolizer::visitPHINode`. The null pointers will be replaced in `finalizePHINodes`. -/
def visitPHINode (I : ValueId) (incoming : List (Label × Operand)) :
    List (SymCode SymbolicComputation) × SymbolicExpressions :=
  ([.phi (incoming.map fun edge ↦ (edge.1, .null))], I :: symbolicExpressions)

/-- The visit of the instruction at position `pos`. -/
def visit (littleEndian : Bool) (pos : ℕ) :
    Instr → List (SymCode SymbolicComputation) × SymbolicExpressions
  | .operation (.binary op width) operands =>
    visitBinaryOperator symbolicExpressions op width (.inst pos) operands
  | .operation (.icmp pred _) operands =>
    visitCmpInst symbolicExpressions pred (.inst pos) operands
  | .operation (.cast .trunc _ dest) operands =>
    visitTruncInst symbolicExpressions dest (.inst pos) operands
  | .operation (.cast .sExt src dest) operands =>
    visitCastInst symbolicExpressions .sExt src dest (.inst pos) operands
  | .operation (.cast .zExt src dest) operands =>
    visitCastInst symbolicExpressions .zExt src dest (.inst pos) operands
  | .load ty addr => visitLoadInst symbolicExpressions littleEndian (.inst pos) ty addr
  | .store ty value addr => visitStoreInst symbolicExpressions littleEndian ty value addr
  | .phi incoming => visitPHINode symbolicExpressions (.inst pos) incoming
  | .condBr cond _ _ => visitBranchInst symbolicExpressions cond
  | .switch cond _ cases => visitSwitchInst symbolicExpressions cond (cases.map Prod.fst)
  | .br _ | .ret => ([], symbolicExpressions)

end Visit

/-- The loop of `runOnFunction` over all instructions, from position `pos` on. -/
def visitAll (littleEndian : Bool) :
    ℕ → SymbolicExpressions → List Instr →
      List (Instrumented SymbolicComputation) × SymbolicExpressions
  | _, symbolicExpressions, [] => ([], symbolicExpressions)
  | pos, symbolicExpressions, I :: code =>
    let (inserted, symbolicExpressions) := visit symbolicExpressions littleEndian pos I
    let (rest, symbolicExpressions) := visitAll littleEndian (pos + 1) symbolicExpressions code
    (⟨I, inserted⟩ :: rest, symbolicExpressions)

/-- `Symbolizer::symbolizeFunctionArguments`: the formals with users have an entry, unless the
function is `main`. -/
def symbolizeFunctionArguments (F : IR.Function) : SymbolicExpressions :=
  if F.isMain then []
  else (F.args.zipIdx.filter Prod.fst).map fun arg ↦ .arg arg.2

/-! ## PHI nodes -/

/-- The symbolic PHI of `I` receives only compile-time constants. -/
def erasesPHI (symbolicExpressions : SymbolicExpressions) : Instr → Bool
  | .phi incoming =>
    incoming.all fun edge ↦ (getSymbolicExpression symbolicExpressions edge.2).isNone
  | _ => false

/-- `nodesToErase` of `finalizePHINodes`, from position `pos` on. -/
def nodesToErase (symbolicExpressions : SymbolicExpressions) :
    ℕ → List (Instrumented SymbolicComputation) → List ValueId
  | _, [] => []
  | pos, I :: code =>
    if erasesPHI symbolicExpressions I.inst then
      .inst pos :: nodesToErase symbolicExpressions (pos + 1) code
    else nodesToErase symbolicExpressions (pos + 1) code

/-- The effect of `replaceAllUsesWith` on one operand. -/
def SymOperand.replace (erased : List ValueId) : SymOperand → SymOperand
  | .null => .null
  | .expr id => if id ∈ erased then .null else .expr id

def SymCode.replace (erased : List ValueId) :
    SymCode SymbolicComputation → SymCode SymbolicComputation
  | .computation c =>
    .computation
      ⟨c.action, c.inputs.map fun i ↦ ⟨i.concreteValue, i.symbolicOperand.replace erased⟩⟩
  | .readMemory addr length littleEndian => .readMemory addr length littleEndian
  | .writeMemory addr length expr littleEndian =>
    .writeMemory addr length (expr.replace erased) littleEndian
  | .constraints cond conditionExpr cases => .constraints cond (conditionExpr.replace erased) cases
  | .phi incoming => .phi (incoming.map fun edge ↦ (edge.1, edge.2.replace erased))

/-- The first loop of `finalizePHINodes`, for one instruction: the symbolic PHI is erased or gets
its incoming values. -/
def setIncomingValues (symbolicExpressions : SymbolicExpressions)
    (I : Instrumented SymbolicComputation) : Instrumented SymbolicComputation :=
  match I.inst with
  | .phi incoming =>
    if erasesPHI symbolicExpressions I.inst then ⟨I.inst, []⟩
    else ⟨I.inst, [.phi (incoming.map fun edge ↦
      (edge.1, getSymbolicExpressionOrNull symbolicExpressions edge.2))]⟩
  | _ => I

/-- `Symbolizer::finalizePHINodes` -/
def finalizePHINodes (symbolicExpressions : SymbolicExpressions)
    (code : List (Instrumented SymbolicComputation)) : List (Instrumented SymbolicComputation) :=
  code.map fun I ↦
    let I := setIncomingValues symbolicExpressions I
    ⟨I.inst, I.code.map (SymCode.replace (nodesToErase symbolicExpressions 0 code))⟩

/-! ## Short-circuiting -/

/-- What is passed for an input where a computation runs. -/
inductive Argument
  /-- The expression itself, which is not null. -/
  | operand (e : SymOperand)
  /-- The expression, or if it is null one for the concrete value. -/
  | orElse (e : SymOperand) (V : Operand)
  /-- An expression for the concrete value. -/
  | value (V : Operand)
  deriving DecidableEq

/-- A computation that is skipped if all expressions in `nullChecks` are null. -/
structure ShortCircuit where
  action : Action
  nullChecks : List SymOperand
  arguments : List Argument
  deriving DecidableEq

/-- The argument for one input, when `numUnknown` inputs are not known to be null. -/
def argumentFor (numUnknown : ℕ) (input : Input) : Argument :=
  if input.symbolicOperand = .null then .value input.concreteValue
  else if numUnknown = 1 then .operand input.symbolicOperand
  else .orElse input.symbolicOperand input.concreteValue

/-- `Symbolizer::shortCircuitExpressionUses`, for one computation. -/
def shortCircuit (c : SymbolicComputation) : ShortCircuit where
  action := c.action
  nullChecks := c.inputs.map Input.symbolicOperand
  arguments := c.inputs.map (argumentFor (c.inputs.countP fun i ↦ i.symbolicOperand ≠ .null))

def SymCode.shortCircuit : SymCode SymbolicComputation → SymCode ShortCircuit
  | .computation c => .computation (Symbolizer.shortCircuit c)
  | .readMemory addr length littleEndian => .readMemory addr length littleEndian
  | .writeMemory addr length expr littleEndian => .writeMemory addr length expr littleEndian
  | .constraints cond conditionExpr cases => .constraints cond conditionExpr cases
  | .phi incoming => .phi incoming

def shortCircuitExpressionUses (code : List (Instrumented SymbolicComputation)) :
    List (Instrumented ShortCircuit) :=
  code.map fun I ↦ ⟨I.inst, I.code.map SymCode.shortCircuit⟩

/-- `SymbolizePass::runOnFunction` -/
def runOnFunction (F : IR.Function) : List (Instrumented ShortCircuit) :=
  let (code, symbolicExpressions) :=
    visitAll F.littleEndian 0 (symbolizeFunctionArguments F) F.code
  shortCircuitExpressionUses (finalizePHINodes symbolicExpressions code)

end Adacc.Symbolizer
