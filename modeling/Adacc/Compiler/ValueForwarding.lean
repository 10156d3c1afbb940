import Adacc.Compiler.DataLayout
import Adacc.Compiler.Execution

/-!
# Instructions that forward values

`select`, bit casts, PHI nodes and `llvm.expect` hand on the value of one of their operands. For
some of them the pass inserts no code and lets the result have the expression of the operand, so an
entry of `symbolicExpressions` is the instruction that computes an expression, and several values
may share it. Here, too, such an instruction is named by the value for which it was inserted.

All other instructions with a value are feeding instructions. Of them only what their visitor does
with their entry is fixed (`Feed`); the value that they have in a run, and the expression where the
inserted code fetches one, come from outside. Values are given by their bits, so a bit cast is the
identity.
-/

namespace Adacc.Forwarding

open SmtLib
open IR (ValueId Operand Label Env Ty)
open Symbolizer (SymOperand)

/-! ## Functions -/

/-- What the visitor of a feeding instruction does. -/
inductive Feed
  /-- The inserted code fetches the expression of the result: `visitLoadInst`, `visitCallInst`. -/
  | fetch
  /-- A call of `function` with all operands is registered for the result: `visitBinaryOperator`,
  `visitCmpInst`, `visitTruncInst`, … -/
  | build (function : String) (operands : List Operand)
  /-- The result has the expression of the operand: `visitIntToPtrInst`, … -/
  | keep (operand : Operand)
  /-- The result has no expression: `handleInlineAssembly`, … -/
  | concretize

inductive Instr
  | select (cond ifTrue ifFalse : Operand)
  | bitCast (srcTy destTy : Ty) (src : Operand)
  | phi (incoming : List (Label × Operand))
  /-- a call of the intrinsic function `llvm.expect` -/
  | expect (value expected : Operand)
  | feed (kind : Feed)
  | br (target : Label)
  | condBr (cond : Operand) (ifTrue ifFalse : Label)
  | switch (cond : Operand) (default : Label) (cases : List (Value × Label))
  | ret

/-- A function: for each formal whether it has users, and the instructions in layout order. -/
structure Function where
  isMain : Bool
  args : List Bool
  code : List Instr

/-! ## The pass -/

/-- The functions of the runtime library that build the expressions of results. -/
inductive SymFnT
  | bitsToFloat (toDouble : Bool)
  | floatToBits
  | other (name : String)
  deriving DecidableEq

/-- Inserted code. The inputs of registered computations are completed as `Symbolizer.shortCircuit`
describes. -/
inductive SymCode
  | build (function : SymFnT) (inputs : List Symbolizer.Input)
  /-- `_sym_push_path_constraint` of `cond` -/
  | pushPathConstraint (cond : Operand) (inputs : List Symbolizer.Input)
  /-- the constraint block of a `switch` on `cond` -/
  | constraints (cond : Operand) (conditionExpr : SymOperand) (cases : List Value)
  | fetch
  | phi (incoming : List (Label × SymOperand))
  deriving DecidableEq

/-- `symbolicExpressions` -/
abbrev SymbolicExpressions := List (ValueId × ValueId)

section Visit

variable (symbolicExpressions : SymbolicExpressions)

/-- `Symbolizer::getSymbolicExpression` -/
def getSymbolicExpression : Operand → Option ValueId
  | .const _ => none
  | .value id => symbolicExpressions.lookup id

/-- `Symbolizer::getSymbolicExpressionOrNull` -/
def getSymbolicExpressionOrNull (V : Operand) : SymOperand :=
  (getSymbolicExpression symbolicExpressions V).elim .null .expr

/-- `Symbolizer::buildRuntimeCall`. Arguments that are not expressions are constants, which have no
entry. -/
def buildRuntimeCall (args : List Operand) : Option (List Symbolizer.Input) :=
  if ∀ V ∈ args, getSymbolicExpression symbolicExpressions V = none then none
  else some (args.map fun V ↦ ⟨V, getSymbolicExpressionOrNull symbolicExpressions V⟩)

/-- `Symbolizer::registerSymbolicComputation`, for code that is inserted for `I`. -/
def registerSymbolicComputation (I : ValueId) (computation : Option SymCode)
    (concrete : Option ValueId) : List SymCode × SymbolicExpressions :=
  match computation with
  | none => ([], symbolicExpressions)
  | some computation =>
    ([computation], (concrete.toList.map fun concrete ↦ (concrete, I)) ++ symbolicExpressions)

/-- The result has the expression of `V`, if `V` has one. -/
def keepExpression (I : ValueId) (V : Operand) : List SymCode × SymbolicExpressions :=
  match getSymbolicExpression symbolicExpressions V with
  | none => ([], symbolicExpressions)
  | some expr => ([], (I, expr) :: symbolicExpressions)

/-- `Symbolizer::visitSelectInst` -/
def visitSelectInst (I : ValueId) (cond : Operand) : List SymCode × SymbolicExpressions :=
  registerSymbolicComputation symbolicExpressions I
    ((buildRuntimeCall symbolicExpressions [cond]).map (.pushPathConstraint cond)) none

/-- `Symbolizer::visitBitCastInst` -/
def visitBitCastInst (I : ValueId) (srcTy destTy : Ty) (src : Operand) :
    List SymCode × SymbolicExpressions :=
  match srcTy, destTy with
  | .int _, .floatingPoint double =>
    registerSymbolicComputation symbolicExpressions I
      ((buildRuntimeCall symbolicExpressions [src]).map (.build (.bitsToFloat double))) (some I)
  | .floatingPoint _, .int _ =>
    registerSymbolicComputation symbolicExpressions I
      ((buildRuntimeCall symbolicExpressions [src]).map (.build .floatToBits)) none
  | _, _ => keepExpression symbolicExpressions I src

/-- `Symbolizer::visitPHINode`. The null pointers will be replaced in `finalizePHINodes`. -/
def visitPHINode (I : ValueId) (incoming : List (Label × Operand)) :
    List SymCode × SymbolicExpressions :=
  ([.phi (incoming.map fun edge ↦ (edge.1, .null))], (I, I) :: symbolicExpressions)

/-- `Symbolizer::handleIntrinsicCall`, for `llvm.expect`. -/
def handleExpect (I : ValueId) (value : Operand) : List SymCode × SymbolicExpressions :=
  keepExpression symbolicExpressions I value

def visitFeed (I : ValueId) : Feed → List SymCode × SymbolicExpressions
  | .fetch => ([.fetch], (I, I) :: symbolicExpressions)
  | .build function operands =>
    registerSymbolicComputation symbolicExpressions I
      ((buildRuntimeCall symbolicExpressions operands).map (.build (.other function))) (some I)
  | .keep operand => keepExpression symbolicExpressions I operand
  | .concretize => ([], symbolicExpressions)

/-- `Symbolizer::visitBranchInst`, for conditional branches. -/
def visitBranchInst (I : ValueId) (cond : Operand) : List SymCode × SymbolicExpressions :=
  registerSymbolicComputation symbolicExpressions I
    ((buildRuntimeCall symbolicExpressions [cond]).map (.pushPathConstraint cond)) none

/-- `Symbolizer::visitSwitchInst` -/
def visitSwitchInst (cond : Operand) (cases : List Value) : List SymCode × SymbolicExpressions :=
  match getSymbolicExpression symbolicExpressions cond with
  | none => ([], symbolicExpressions)
  | some conditionExpr => ([.constraints cond (.expr conditionExpr) cases], symbolicExpressions)

def visit (I : ValueId) : Instr → List SymCode × SymbolicExpressions
  | .select cond _ _ => visitSelectInst symbolicExpressions I cond
  | .bitCast srcTy destTy src => visitBitCastInst symbolicExpressions I srcTy destTy src
  | .phi incoming => visitPHINode symbolicExpressions I incoming
  | .expect value _ => handleExpect symbolicExpressions I value
  | .feed kind => visitFeed symbolicExpressions I kind
  | .condBr cond _ _ => visitBranchInst symbolicExpressions I cond
  | .switch cond _ cases => visitSwitchInst symbolicExpressions cond (cases.map Prod.fst)
  | .br _ | .ret => ([], symbolicExpressions)

end Visit

/-- `Symbolizer::symbolizeFunctionArguments`: the formals with users have an entry, unless the
function is `main`. -/
def symbolizeFunctionArguments (F : Function) : SymbolicExpressions :=
  if F.isMain then []
  else (F.args.zipIdx.filter Prod.fst).map fun arg ↦ (.arg arg.2, .arg arg.2)

/-- `symbolicExpressions` when the instruction at position `k` is visited. -/
def symbolicExpressionsAt (F : Function) : ℕ → SymbolicExpressions
  | 0 => symbolizeFunctionArguments F
  | k + 1 =>
    match F.code[k]? with
    | none => symbolicExpressionsAt F k
    | some I => (visit (symbolicExpressionsAt F k) (.inst k) I).2

/-- `symbolicExpressions` after all visits. -/
def finalSymbolicExpressions (F : Function) : SymbolicExpressions :=
  symbolicExpressionsAt F F.code.length

/-- The symbolic PHI of `I` receives only compile-time constants. -/
def erasesPHI (symbolicExpressions : SymbolicExpressions) : Instr → Bool
  | .phi incoming =>
    incoming.all fun edge ↦ (getSymbolicExpression symbolicExpressions edge.2).isNone
  | _ => false

/-- `nodesToErase` of `finalizePHINodes` -/
def nodesToErase (F : Function) : List ValueId :=
  ((List.range F.code.length).filter fun k ↦
    (F.code[k]?).any (erasesPHI (finalSymbolicExpressions F))).map .inst

/-- The effect of `replaceAllUsesWith`. -/
def SymCode.replace (erased : List ValueId) : SymCode → SymCode
  | .build function inputs =>
    .build function
      (inputs.map fun i ↦ ⟨i.concreteValue, i.symbolicOperand.replace erased⟩)
  | .pushPathConstraint cond inputs =>
    .pushPathConstraint cond
      (inputs.map fun i ↦ ⟨i.concreteValue, i.symbolicOperand.replace erased⟩)
  | .constraints cond conditionExpr cases => .constraints cond (conditionExpr.replace erased) cases
  | .fetch => .fetch
  | .phi incoming => .phi (incoming.map fun edge ↦ (edge.1, edge.2.replace erased))

/-- The first loop of `finalizePHINodes`, for the code that was inserted for `I`. -/
def setIncomingValues (symbolicExpressions : SymbolicExpressions) (I : Instr)
    (inserted : List SymCode) : List SymCode :=
  match I with
  | .phi incoming =>
    if erasesPHI symbolicExpressions I then []
    else [.phi (incoming.map fun edge ↦
      (edge.1, getSymbolicExpressionOrNull symbolicExpressions edge.2))]
  | _ => inserted

/-- The code for the instruction `I` at position `k` after `finalizePHINodes`. -/
def insertedCode (F : Function) (k : ℕ) (I : Instr) : List SymCode :=
  (setIncomingValues (finalSymbolicExpressions F) I
    (visit (symbolicExpressionsAt F k) (.inst k) I).1).map (SymCode.replace (nodesToErase F))

/-! ## Runs -/

/-- The functions of a backend that supports all builders. -/
structure Builders (SymExpr : Type) where
  build : SymFnT → List SymExpr → SymExpr
  /-- `Symbolizer::createValueExpression` -/
  createValueExpression : Value → SymExpr

/-- What a feeding instruction takes from outside: the value of its result, and the expression that
is fetched. -/
structure Outside (SymExpr : Type) where
  value : Value
  expr : Option SymExpr

structure State (SymExpr : Type) where
  env : Env
  /-- The expressions that inserted code has computed. -/
  exprs : ValueId → Option SymExpr
  /-- The block that is being executed. -/
  block : Label
  pc : ℕ
  /-- The constraints that have been pushed, and whether they are taken. -/
  pathConstraints : List (SymExpr × Bool)

section Run

variable {SymExpr : Type} (B : Builders SymExpr) (F : Function)

/-- The instruction that is being executed gets the expression `e`. -/
def State.setExpr (s : State SymExpr) (e : Option SymExpr) : State SymExpr :=
  { s with exprs := Function.update s.exprs (.inst s.pc) e }

@[simp] theorem State.exprs_setExpr_self (s : State SymExpr) (e : Option SymExpr) :
    (s.setExpr e).exprs (.inst s.pc) = e :=
  Function.update_self _ _ _

/-- The instruction at `s.pc` has been executed and has the value `v`. -/
def State.define (s : State SymExpr) (v : Value) : State SymExpr :=
  { s with env := Function.update s.env (.inst s.pc) (some v), pc := s.pc + 1 }

/-- The expressions for the inputs, where not all of them are null. -/
def arguments (s : State SymExpr) (inputs : List Symbolizer.Input) : Option (List SymExpr) :=
  inputs.mapM fun i ↦
    match i.symbolicOperand.eval s.exprs with
    | some e => some e
    | none => (i.concreteValue.eval s.env).map B.createValueExpression

def SymCode.exec (outside : Outside SymExpr) (s : State SymExpr) :
    SymCode → Option (State SymExpr)
  | .build function inputs =>
    if ∀ i ∈ inputs, (i.symbolicOperand.eval s.exprs).isNone then some (s.setExpr none)
    else (arguments B s inputs).map fun args ↦ s.setExpr (some (B.build function args))
  | .pushPathConstraint cond inputs =>
    if ∀ i ∈ inputs, (i.symbolicOperand.eval s.exprs).isNone then some s
    else
      match arguments B s inputs, cond.eval s.env with
      | some [constraint], some (.bool taken) =>
        some { s with pathConstraints := s.pathConstraints ++ [(constraint, taken)] }
      | _, _ => none
  | .constraints cond conditionExpr cases =>
    match conditionExpr.eval s.exprs with
    | none => some s
    | some e =>
      (cond.eval s.env).map fun v ↦
        { s with
          pathConstraints := s.pathConstraints ++ cases.map fun c ↦
            (B.build (.other "_sym_build_equal") [e, B.createValueExpression c], decide (v = c)) }
  | .fetch => some (s.setExpr outside.expr)
  | .phi _ => none

/-- The symbolic PHI at position `pos`, on a jump in the state `s`. An erased one leaves no
trace. -/
def enterSymbolicPhi (s : State SymExpr) (pos : ℕ) (incoming : List (Label × Operand))
    (exprs : ValueId → Option SymExpr) : ValueId → Option SymExpr :=
  match insertedCode F pos (.phi incoming) with
  | [.phi incoming] =>
    Function.update exprs (.inst pos) ((incoming.lookup s.block).bind (·.eval s.exprs))
  | _ => exprs

/-- The PHI nodes from position `pos` on, evaluated together in `s` on a jump. -/
def enterPhis (s : State SymExpr) : ℕ → List Instr → State SymExpr → Option (State SymExpr)
  | pos, .phi incoming :: code, t =>
    ((incoming.lookup s.block).bind (·.eval s.env)).bind fun v ↦
      enterPhis s (pos + 1) code
        { t with
          env := Function.update t.env (.inst pos) (some v)
          exprs := enterSymbolicPhi F s pos incoming t.exprs }
  | pos, _, t => some { t with pc := pos }

def jump (s : State SymExpr) (target : Label) : Option (State SymExpr) :=
  enterPhis F s target (F.code.drop target) { s with block := target }

def Instr.exec (outside : Outside SymExpr) (s : State SymExpr) :
    Instr → Option (State SymExpr)
  | .select cond ifTrue ifFalse =>
    match cond.eval s.env with
    | some (.bool c) => ((if c then ifTrue else ifFalse).eval s.env).map s.define
    | _ => none
  | .bitCast _ _ src => (src.eval s.env).map s.define
  | .phi _ => none
  | .expect value _ => (value.eval s.env).map s.define
  | .feed _ => some (s.define outside.value)
  | .br target => jump F s target
  | .condBr cond ifTrue ifFalse =>
    match cond.eval s.env with
    | some (.bool c) => jump F s (if c then ifTrue else ifFalse)
    | _ => none
  | .switch cond default cases =>
    (cond.eval s.env).bind fun v ↦
      if ∀ c ∈ cases, c.1.sort = v.sort then jump F s (IR.switchTarget default cases v) else none
  | .ret => none

/-- One step: the inserted code, then the instruction. -/
def step (outside : Outside SymExpr) (s : State SymExpr) : Option (State SymExpr) :=
  (F.code[s.pc]?).bind fun I ↦
    ((insertedCode F s.pc I).foldlM (SymCode.exec B outside) s).bind (I.exec F outside)

/-- The states before and after every step of a run. -/
def transitions : State SymExpr → List (Outside SymExpr) → List (State SymExpr × State SymExpr)
  | _, [] => []
  | s, outside :: rest =>
    match step B F outside s with
    | none => []
    | some t => (s, t) :: transitions t rest

/-- On entry to the function, with the values and expressions of its arguments. -/
def start (args : ℕ → Option Value) (params : ℕ → Option SymExpr) : State SymExpr where
  env
    | .arg n => args n
    | .inst _ => none
  exprs
    | .arg n => params n
    | .inst _ => none
  block := 0
  pc := 0
  pathConstraints := []

end Run

end Adacc.Forwarding
