import Adacc.Compiler.SymbolicExpressions

/-!
# Running an instrumented function

The state of an instrumented function is the state of the function itself together with the
expression held for every value and with shadow memory. A step runs the inserted code and then the
instruction; on a jump, the symbolic PHI nodes of the target are evaluated along with the others.
Inserted code that would pass a null expression to a function of the backend is stuck, so a run
that is not stuck never does that.
-/

namespace Adacc.Symbolizer

open SmtLib IR Backend

variable {SymExpr : Type}

structure SymState (SymExpr : Type) where
  state : State
  /-- The expressions held for values. -/
  exprs : ValueId → Option SymExpr
  pages : ShadowPages SymExpr

/-- What an instrumented run does that can be seen from outside. -/
inductive SymEvent (SymExpr : Type)
  | access (a : Access)
  /-- `_sym_push_path_constraint` -/
  | pushPathConstraint (constraint : SymExpr) (taken : Bool)

/-- The accesses among the events. -/
def accesses (events : List (SymEvent SymExpr)) : List Access :=
  events.filterMap fun
    | .access a => some a
    | .pushPathConstraint _ _ => none

/-- The instruction that is being executed gets the expression `e`. -/
def SymState.setExpr (e : Option SymExpr) (S : SymState SymExpr) : SymState SymExpr :=
  { S with exprs := Function.update S.exprs (.inst S.state.pc) e }

def SymOperand.eval (exprs : ValueId → Option SymExpr) : SymOperand → Option SymExpr
  | .null => none
  | .expr id => exprs id

section Code

variable [Backend SymExpr]

/-- `Symbolizer::createValueExpression`, for integers. -/
def createValueExpression : Value → SymExpr
  | .bool b => symBuildBool b
  | .bv w x =>
    if w ≤ 64 then symBuildInteger (x.setWidth 64) (getInt8 w)
    else symBuildInteger128 ((x >>> 64).setWidth 64) (x.setWidth 64)

def SymFnT.apply : SymFnT → List SymExpr → Option SymExpr
  | .binary op, [a, b] => some (symBuildBinary op a b)
  | .boolOp op, [a, b] => some (symBuildBoolOp op a b)
  | .compare op, [a, b] => some (symBuildCompare op a b)
  | .sExt bits, [a] => some (symBuildSExt a bits)
  | .zExt bits, [a] => some (symBuildZExt a bits)
  | .trunc bits, [a] => some (symBuildTrunc a bits)
  | .boolToBits bits, [a] => some (symBuildBoolToBits a bits)
  | _, _ => none

def Argument.eval (S : SymState SymExpr) : Argument → Option SymExpr
  | .operand e => e.eval S.exprs
  | .orElse e V =>
    match e.eval S.exprs with
    | some e => some e
    | none => (V.eval S.state.env).map createValueExpression
  | .value V => (V.eval S.state.env).map createValueExpression

/-- The fast path: the overall result, if there is one, is null. -/
def Action.skip (S : SymState SymExpr) : Action → SymState SymExpr
  | .build _ => S.setExpr none
  | .pushPathConstraint _ | .pushAssertion _ => S

/-- The slow path, with an expression for every input. -/
def Action.exec (S : SymState SymExpr) (args : List SymExpr) :
    Action → Option (SymState SymExpr × List (SymEvent SymExpr))
  | .build function => (function.apply args).map fun e ↦ (S.setExpr (some e), [])
  | .pushPathConstraint cond =>
    match args, cond.eval S.state.env with
    | [constraint], some (.bool taken) => some (S, [.pushPathConstraint constraint taken])
    | _, _ => none
  | .pushAssertion V =>
    match args, V.eval S.state.env with
    | [destExpr], some v =>
      some (S, [.pushPathConstraint (symBuildCompare .eq destExpr (createValueExpression v)) true])
    | _, _ => none

def ShortCircuit.exec (S : SymState SymExpr) (c : ShortCircuit) :
    Option (SymState SymExpr × List (SymEvent SymExpr)) :=
  if ∀ e ∈ c.nullChecks, (e.eval S.exprs).isNone then some (c.action.skip S, [])
  else (c.arguments.mapM (Argument.eval S)).bind fun args ↦ c.action.exec S args

def SymCode.exec (S : SymState SymExpr) :
    SymCode ShortCircuit → Option (SymState SymExpr × List (SymEvent SymExpr))
  | .computation c => c.exec S
  | .readMemory addr length littleEndian =>
    ((addr.eval S.state.env).bind (bits 64)).map fun a ↦
      (S.setExpr (symReadMemory S.state.mem S.pages a length littleEndian), [])
  | .writeMemory addr length expr littleEndian =>
    ((addr.eval S.state.env).bind (bits 64)).map fun a ↦
      ({ S with pages := symWriteMemory a length (expr.eval S.exprs) littleEndian S.pages }, [])
  | .constraints cond conditionExpr cases =>
    match conditionExpr.eval S.exprs with
    | none => some (S, [])
    | some e =>
      (cond.eval S.state.env).map fun v ↦
        (S, cases.map fun c ↦
          .pushPathConstraint (symBuildCompare .eq e (createValueExpression c)) (v = c))
  | .phi _ => none

def execCode : List (SymCode ShortCircuit) → SymState SymExpr →
    Option (SymState SymExpr × List (SymEvent SymExpr))
  | [], S => some (S, [])
  | c :: code, S =>
    (c.exec S).bind fun first ↦
      (execCode code first.1).map fun rest ↦ (rest.1, first.2 ++ rest.2)

end Code

/-- The symbolic PHI nodes from position `pos` on, evaluated in `exprs` for a jump from block
`pred`. An erased one leaves no trace. -/
def enterSymbolicPhis (exprs : ValueId → Option SymExpr) (pred : Label) :
    ℕ → List (Instrumented ShortCircuit) → (ValueId → Option SymExpr) → ValueId → Option SymExpr
  | pos, ⟨.phi _, inserted⟩ :: code, exprs' =>
    match inserted with
    | [.phi incoming] =>
      enterSymbolicPhis exprs pred (pos + 1) code
        (Function.update exprs' (.inst pos) ((incoming.lookup pred).bind (·.eval exprs)))
    | _ => enterSymbolicPhis exprs pred (pos + 1) code exprs'
  | _, _, exprs' => exprs'

theorem enterSymbolicPhis_of_head (exprs : ValueId → Option SymExpr) (pred : Label) (pos : ℕ)
    {code : List (Instrumented ShortCircuit)} (exprs' : ValueId → Option SymExpr)
    (h : ∀ incoming inserted, code.head? ≠ some ⟨.phi incoming, inserted⟩) :
    enterSymbolicPhis exprs pred pos code exprs' = exprs' := by
  rcases code with - | ⟨⟨I, inserted⟩, code⟩
  · rfl
  rcases I with - | - | - | incoming | - | - | - | -
  case phi => exact absurd rfl (h incoming inserted)
  all_goals rfl

/-- The instruction ends its block. -/
def isTerminator : Instr → Bool
  | .br _ | .condBr _ _ _ | .switch _ _ _ | .ret => true
  | .operation _ _ | .load _ _ | .store _ _ _ | .phi _ => false

variable [Backend SymExpr]

/-- One step of the instrumented function. -/
def symStep (F : IR.Function) (S : SymState SymExpr) :
    Option (SymState SymExpr × List (SymEvent SymExpr)) :=
  ((runOnFunction F)[S.state.pc]?).bind fun I ↦
    (execCode I.code S).bind fun before ↦
      (I.inst.exec F before.1.state).map fun after ↦
        ({ state := after.1
           exprs :=
            if isTerminator I.inst then
              enterSymbolicPhis before.1.exprs S.state.block after.1.block
                ((runOnFunction F).drop after.1.block) before.1.exprs
            else before.1.exprs
           pages := before.1.pages },
          before.2 ++ after.2.map .access)

/-! ## The input -/

/-- A part of the input in memory: where it is, its first offset and its length. -/
structure Placement where
  buf : UIntPtr
  inputOffset : SizeT
  length : SizeT

/-- The parts of the input in memory. -/
def placeInput (ρ : Adacc.Input) (placements : List Placement) (mem : UIntPtr → BitVec 8) :
    UIntPtr → BitVec 8 :=
  placements.foldl (fun mem p ↦ ModularRange.rangeUpdate mem p.buf p.length.toNat
    fun i ↦ ρ (p.inputOffset + BitVec.ofNat 64 i).toNat) mem

/-- The parts of the input marked symbolic, as after `read`: every byte of shadow memory has the
expression of the byte of the input at its offset, as if no bytes have been skipped. -/
def markSymbolic (placements : List Placement) : ShadowPages SymExpr :=
  placements.foldl (fun pages p ↦ assignShadow (fun i ↦ some (symGetInputByte (p.inputOffset + i)))
    p.buf p.length pages) ∅

/-- On entry to the function, with the input in place. Nothing else is symbolic. -/
def symStart (args : ℕ → Option Value) (placements : List Placement) (ρ : Adacc.Input)
    (mem : UIntPtr → BitVec 8) : SymState SymExpr where
  state := IR.Function.start args (placeInput ρ placements mem)
  exprs _ := none
  pages := markSymbolic placements

end Adacc.Symbolizer
