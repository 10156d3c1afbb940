import Adacc.Compiler.CallProtocol
import Adacc.Compiler.MemoryIntrinsics

/-!
# Programs

A program is several functions that call each other and themselves, directly or through pointers,
with `main` among them. Besides the instructions of the fragment they have calls of the memory
intrinsics, calls and returns. This file has the meaning of a program, the pass on its functions and
the instrumented program.

`handleFunctionCall` leaves four things at a call: the assertion of `tryAlternative` if the callee
is given by a pointer, one call of `_sym_set_parameter_expression` for each argument, and if the
result has users, a call that empties the slot of the result before and one that reads it at the
return point. `symbolizeFunctionArguments` reads the slots of the formals on entry, and
`visitReturnInst` fills the slot of the result. The notifications of calls, returns and blocks are
left out, like site identifiers.

## Bodies

Most of a function is known from the fragment. Its `body` is the function of the fragment in which a
call stands as a load if its result has users and as a store otherwise: these have an entry in the
same cases, and are no PHI nodes. This is all that the other instructions of the function see of it.
`runOnFunction` does not use the body; that it does at every instruction of the fragment what it
does in the body is a theorem (`runOnFunction_getElem?`).

## Runs

A state has the running function and its callers, each with the environment that it comes back to.
Formals and results without users get no value, which nobody can see. A return from the first
function ends the run, so there is no step for it; neither is there one for a call of no function,
or with fewer arguments than the callee has formals.
-/

namespace Adacc.Symbolizer.Programs

open SmtLib IR Backend TraverseOption

/-! ## Syntax -/

/-- What is called: a function of the program, or the one at an address. -/
inductive Callee
  | direct (f : ℕ)
  | indirect (calledOperand : Operand)
  deriving DecidableEq

inductive Instruction
  | instr (I : Instr)
  | intrinsic (c : MemIntrinsic)
  | call (callee : Callee) (args : List Operand) (hasUsers : Bool)
  /-- `ret` of a value. Without one it is the `ret` of the fragment. -/
  | retValue (V : Operand)

/-- A function: for each formal whether it has users, and the instructions in layout order. -/
structure Function where
  isMain : Bool
  args : List Bool
  littleEndian : Bool
  code : List Instruction

structure Program where
  functions : List Function
  main : ℕ
  /-- The functions whose addresses have been taken. -/
  addresses : List (UIntPtr × ℕ)

/-- What the instruction is for the rest of its function. -/
def Instruction.inBody : Instruction → Instr
  | .instr I => I
  | .call _ _ true => .load .i8 (.const (.bv 64 0))
  | .call _ _ false | .intrinsic _ => .store .i8 (.const (.bv 8 0)) (.const (.bv 64 0))
  | .retValue _ => .ret

def Function.body (F : Function) : IR.Function where
  isMain := F.isMain
  args := F.args
  littleEndian := F.littleEndian
  code := F.code.map Instruction.inBody

/-! ## Execution -/

/-- A function that waits for the end of a call. -/
structure Frame where
  function : ℕ
  env : Env
  block : Label
  /-- The position of the call, and whether its result has users. -/
  pc : ℕ
  hasUsers : Bool

structure ProgramState where
  function : ℕ
  state : State
  callers : List Frame

/-- The running function with its call. -/
def ProgramState.suspend (hasUsers : Bool) (s : ProgramState) : Frame :=
  ⟨s.function, s.state.env, s.state.block, s.state.pc, hasUsers⟩

/-- The function at its call again. -/
def Frame.resume (mem : UIntPtr → BitVec 8) (c : Frame) : State := ⟨c.env, mem, c.block, c.pc⟩

/-- The values of the formals. -/
def Function.formals (F : Function) (values : List Value) : Env
  | .arg n => if F.args[n]? = some true then values[n]? else none
  | .inst _ => none

def Callee.target (P : Program) (env : Env) : Callee → Option ℕ
  | .direct f => some f
  | .indirect V => (pointer env V).bind fun a ↦ P.addresses.lookup a

def Program.enter (P : Program) (f : ℕ) (values : List Value) (hasUsers : Bool)
    (s : ProgramState) : Option (ProgramState × List Access) :=
  (P.functions[f]?).bind fun F ↦
    if F.args.length ≤ values.length then
      some (⟨f, ⟨F.formals values, s.state.mem, 0, 0⟩, s.suspend hasUsers :: s.callers⟩,
        [.block 0])
    else none

def ProgramState.leave (value : Option Value) (s : ProgramState) :
    Option (ProgramState × List Access) :=
  match s.callers with
  | [] => none
  | c :: callers =>
    let state := c.resume s.state.mem
    if c.hasUsers then value.map fun v ↦ (⟨c.function, state.define v, callers⟩, [])
    else some (⟨c.function, { state with pc := c.pc + 1 }, callers⟩, [])

/-- An instruction of the running function `F`. -/
def Program.exec (P : Program) (F : Function) (s : ProgramState) :
    Instruction → Option (ProgramState × List Access)
  | .instr .ret => s.leave none
  | .instr I => (I.exec F.body s.state).map fun after ↦ ({ s with state := after.1 }, after.2)
  | .intrinsic c =>
    (c.exec s.state).map fun after ↦
      ({ s with state := { after.1 with pc := after.1.pc + 1 } }, after.2)
  | .call callee args hasUsers =>
    (callee.target P s.state.env).bind fun f ↦
      (args.mapM (Operand.eval s.state.env)).bind fun values ↦ P.enter f values hasUsers s
  | .retValue V => (V.eval s.state.env).bind fun v ↦ s.leave (some v)

def Program.step (P : Program) (s : ProgramState) : Option (ProgramState × List Access) :=
  (P.functions[s.function]?).bind fun F ↦ (F.code[s.state.pc]?).bind (P.exec F s)

/-- On entry to `main`. -/
def Program.start (P : Program) (args : ℕ → Option Value) (mem : UIntPtr → BitVec 8) :
    ProgramState :=
  ⟨P.main, IR.Function.start args mem, []⟩

/-! ## The pass -/

/-- Inserted code in a function of a program. -/
inductive Inserted (C : Type)
  | code (c : SymCode C)
  | memory (call : MemoryCall)
  /-- `_sym_set_parameter_expression` -/
  | setParameterExpression (index : UInt8) (expr : SymOperand)
  /-- `_sym_set_return_expression` -/
  | setReturnExpression (expr : SymOperand)

/-- An instruction with the code inserted before it. -/
structure InstrumentedInstruction (C : Type) where
  inst : Instruction
  code : List (Inserted C)

section Visit

variable (symbolicExpressions : SymbolicExpressions)

/-- The assertion about a called operand. -/
def visitCallee : Callee → List (SymCode SymbolicComputation)
  | .direct _ => []
  | .indirect calledOperand => tryAlternative symbolicExpressions calledOperand

/-- The calls of `_sym_set_parameter_expression`, for the arguments from number `argNo` on. -/
def setParameters {C : Type} : ℕ → List SymOperand → List (Inserted C)
  | _, [] => []
  | argNo, expr :: exprs =>
    .setParameterExpression (UInt8.ofNat argNo) expr :: setParameters (argNo + 1) exprs

/-- `Symbolizer::handleFunctionCall`. The entry is the call of `_sym_get_return_expression` at the
return point. -/
def handleFunctionCall (I : ValueId) (callee : Callee) (args : List Operand) (hasUsers : Bool) :
    List (Inserted SymbolicComputation) × SymbolicExpressions :=
  let passed := args.map (getSymbolicExpressionOrNull symbolicExpressions)
  let code := (visitCallee symbolicExpressions callee).map .code ++ setParameters 0 passed
  if hasUsers then (code ++ [.setReturnExpression .null], I :: symbolicExpressions)
  else (code, symbolicExpressions)

/-- `Symbolizer::visitReturnInst`, for the return of a value. -/
def visitReturnInst (V : Operand) : List (Inserted SymbolicComputation) × SymbolicExpressions :=
  ([.setReturnExpression (getSymbolicExpressionOrNull symbolicExpressions V)], symbolicExpressions)

/-- The visit of the instruction at position `pos`. -/
def visit (littleEndian : Bool) (pos : ℕ) :
    Instruction → List (Inserted SymbolicComputation) × SymbolicExpressions
  | .instr I =>
    let (code, symbolicExpressions) := Symbolizer.visit symbolicExpressions littleEndian pos I
    (code.map .code, symbolicExpressions)
  | .intrinsic c =>
    let (code, call) := handleIntrinsicCall symbolicExpressions c
    (code.map .code ++ [.memory call], symbolicExpressions)
  | .call callee args hasUsers =>
    handleFunctionCall symbolicExpressions (.inst pos) callee args hasUsers
  | .retValue V => visitReturnInst symbolicExpressions V

end Visit

/-- The loop of `runOnFunction` over all instructions, from position `pos` on. -/
def visitAll (littleEndian : Bool) :
    ℕ → SymbolicExpressions → List Instruction →
      List (InstrumentedInstruction SymbolicComputation) × SymbolicExpressions
  | _, symbolicExpressions, [] => ([], symbolicExpressions)
  | pos, symbolicExpressions, I :: code =>
    let (inserted, symbolicExpressions) := visit symbolicExpressions littleEndian pos I
    let (rest, symbolicExpressions) := visitAll littleEndian (pos + 1) symbolicExpressions code
    (⟨I, inserted⟩ :: rest, symbolicExpressions)

/-- The symbolic PHI of `I` receives only compile-time constants. -/
def erasesPHI (symbolicExpressions : SymbolicExpressions) : Instruction → Bool
  | .instr I => Symbolizer.erasesPHI symbolicExpressions I
  | .intrinsic _ | .call _ _ _ | .retValue _ => false

/-- `nodesToErase` of `finalizePHINodes`, from position `pos` on. -/
def nodesToErase (symbolicExpressions : SymbolicExpressions) : ℕ → List Instruction → List ValueId
  | _, [] => []
  | pos, I :: code =>
    if erasesPHI symbolicExpressions I then
      .inst pos :: nodesToErase symbolicExpressions (pos + 1) code
    else nodesToErase symbolicExpressions (pos + 1) code

def Inserted.replace (erased : List ValueId) :
    Inserted SymbolicComputation → Inserted SymbolicComputation
  | .code c => .code (c.replace erased)
  | .memory call => .memory (call.replace erased)
  | .setParameterExpression index expr => .setParameterExpression index (expr.replace erased)
  | .setReturnExpression expr => .setReturnExpression (expr.replace erased)

/-- The first loop of `finalizePHINodes`, for one instruction. -/
def setIncomingValues (symbolicExpressions : SymbolicExpressions)
    (I : InstrumentedInstruction SymbolicComputation) :
    InstrumentedInstruction SymbolicComputation :=
  match I.inst with
  | .instr (.phi incoming) =>
    if erasesPHI symbolicExpressions I.inst then ⟨I.inst, []⟩
    else ⟨I.inst, [.code (.phi (incoming.map fun edge ↦
      (edge.1, getSymbolicExpressionOrNull symbolicExpressions edge.2)))]⟩
  | _ => I

/-- `Symbolizer::finalizePHINodes` -/
def finalizePHINodes (symbolicExpressions : SymbolicExpressions)
    (code : List (InstrumentedInstruction SymbolicComputation)) :
    List (InstrumentedInstruction SymbolicComputation) :=
  code.map fun I ↦
    let I := setIncomingValues symbolicExpressions I
    ⟨I.inst, I.code.map (Inserted.replace
      (nodesToErase symbolicExpressions 0 (code.map InstrumentedInstruction.inst)))⟩

def Inserted.shortCircuit : Inserted SymbolicComputation → Inserted ShortCircuit
  | .code c => .code c.shortCircuit
  | .memory call => .memory call
  | .setParameterExpression index expr => .setParameterExpression index expr
  | .setReturnExpression expr => .setReturnExpression expr

/-- `Symbolizer::shortCircuitExpressionUses` -/
def shortCircuitExpressionUses (code : List (InstrumentedInstruction SymbolicComputation)) :
    List (InstrumentedInstruction ShortCircuit) :=
  code.map fun I ↦ ⟨I.inst, I.code.map Inserted.shortCircuit⟩

/-- `SymbolizePass::runOnFunction` -/
def runOnFunction (F : Function) : List (InstrumentedInstruction ShortCircuit) :=
  let (code, symbolicExpressions) :=
    visitAll F.littleEndian 0 (symbolizeFunctionArguments F.body) F.code
  shortCircuitExpressionUses (finalizePHINodes symbolicExpressions code)

/-! ## The instrumented program -/

variable {SymExpr : Type}

/-- A function that waits, with the expressions that it holds. -/
structure SymFrame (SymExpr : Type) where
  frame : Frame
  exprs : ValueId → Option SymExpr

structure SymProgramState (SymExpr : Type) where
  function : ℕ
  state : SymState SymExpr
  callers : List (SymFrame SymExpr)
  slots : Slots SymExpr

/-- The state of the program itself. -/
def SymProgramState.concrete (S : SymProgramState SymExpr) : ProgramState :=
  ⟨S.function, S.state.state, S.callers.map SymFrame.frame⟩

/-- The expressions of the formals, by `symbolizeFunctionArguments`. -/
def Function.formalExprs (F : Function) (slots : Slots SymExpr) : ValueId → Option SymExpr
  | .arg n =>
    if .arg n ∈ symbolizeFunctionArguments F.body then
      slots.symGetParameterExpression (UInt8.ofNat n)
    else none
  | .inst _ => none

def Program.symEnter (P : Program) (f : ℕ) (values : List Value) (hasUsers : Bool)
    (S : SymProgramState SymExpr) : Option (SymProgramState SymExpr × List Access) :=
  (P.functions[f]?).bind fun F ↦
    if F.args.length ≤ values.length then
      some (⟨f, ⟨⟨F.formals values, S.state.state.mem, 0, 0⟩, F.formalExprs S.slots,
          S.state.pages⟩, ⟨S.concrete.suspend hasUsers, S.state.exprs⟩ :: S.callers, S.slots⟩,
        [.block 0])
    else none

def SymProgramState.leave (value : Option Value) (S : SymProgramState SymExpr) :
    Option (SymProgramState SymExpr × List Access) :=
  match S.callers with
  | [] => none
  | c :: callers =>
    let state : SymState SymExpr := ⟨c.frame.resume S.state.state.mem, c.exprs, S.state.pages⟩
    if c.frame.hasUsers then
      value.map fun v ↦
        let (expr, slots) := S.slots.symGetReturnExpression
        (⟨c.frame.function, { state.setExpr expr with state := state.state.define v }, callers,
          slots⟩, [])
    else
      some (⟨c.frame.function, { state with state := { state.state with pc := c.frame.pc + 1 } },
        callers, S.slots⟩, [])

/-- The symbolic PHI nodes from position `pos` on. -/
def enterSymbolicPhis (exprs : ValueId → Option SymExpr) (pred : Label) :
    ℕ → List (InstrumentedInstruction ShortCircuit) → (ValueId → Option SymExpr) → ValueId →
      Option SymExpr
  | pos, ⟨.instr (.phi _), inserted⟩ :: code, exprs' =>
    match inserted with
    | [.code (.phi incoming)] =>
      enterSymbolicPhis exprs pred (pos + 1) code
        (Function.update exprs' (.inst pos) ((incoming.lookup pred).bind (·.eval exprs)))
    | _ => enterSymbolicPhis exprs pred (pos + 1) code exprs'
  | _, _, exprs' => exprs'

variable [Backend SymExpr]

def Inserted.exec (leftToRight : Bool) (S : SymProgramState SymExpr) :
    Inserted ShortCircuit → Option (SymProgramState SymExpr × List (SymEvent SymExpr))
  | .code c => (c.exec S.state).map fun after ↦ ({ S with state := after.1 }, after.2)
  | .memory call =>
    (call.exec leftToRight S.state).map fun pages ↦
      ({ S with state := { S.state with pages := pages } }, [])
  | .setParameterExpression index expr =>
    some ({ S with
      slots := S.slots.symSetParameterExpression index (expr.eval S.state.exprs) }, [])
  | .setReturnExpression expr =>
    some ({ S with slots := S.slots.symSetReturnExpression (expr.eval S.state.exprs) }, [])

def execInserted (leftToRight : Bool) :
    List (Inserted ShortCircuit) → SymProgramState SymExpr →
      Option (SymProgramState SymExpr × List (SymEvent SymExpr))
  | [], S => some (S, [])
  | c :: code, S =>
    (c.exec leftToRight S).bind fun first ↦
      (execInserted leftToRight code first.1).map fun rest ↦ (rest.1, first.2 ++ rest.2)

/-- An instruction of the running function `F`, with the expressions that it moves. -/
def Program.symExec (P : Program) (F : Function) (S : SymProgramState SymExpr) :
    Instruction → Option (SymProgramState SymExpr × List Access)
  | .instr .ret => S.leave none
  | .instr I =>
    (I.exec F.body S.state.state).map fun after ↦
      ({ S with
          state :=
            { state := after.1
              exprs :=
                if isTerminator I then
                  enterSymbolicPhis S.state.exprs S.state.state.block after.1.block
                    ((runOnFunction F).drop after.1.block) S.state.exprs
                else S.state.exprs
              pages := S.state.pages } },
        after.2)
  | .intrinsic c =>
    (c.exec S.state.state).map fun after ↦
      ({ S with state := { S.state with state := { after.1 with pc := after.1.pc + 1 } } },
        after.2)
  | .call callee args hasUsers =>
    (callee.target P S.state.state.env).bind fun f ↦
      (args.mapM (Operand.eval S.state.state.env)).bind fun values ↦
        P.symEnter f values hasUsers S
  | .retValue V => (V.eval S.state.state.env).bind fun v ↦ S.leave (some v)

def Program.symStep (P : Program) (leftToRight : Bool) (S : SymProgramState SymExpr) :
    Option (SymProgramState SymExpr × List (SymEvent SymExpr)) :=
  (P.functions[S.function]?).bind fun F ↦ ((runOnFunction F)[S.state.state.pc]?).bind fun I ↦
    (execInserted leftToRight I.code S).bind fun before ↦
      (P.symExec F before.1 I.inst).map fun after ↦ (after.1, before.2 ++ after.2.map .access)

/-- On entry to `main`, with the input in place. -/
def Program.symStart (P : Program) (args : ℕ → Option Value) (placements : List Placement)
    (ρ : Adacc.Input) (mem : UIntPtr → BitVec 8) : SymProgramState SymExpr :=
  ⟨P.main, Symbolizer.symStart args placements ρ mem, [], .init⟩

end Adacc.Symbolizer.Programs
