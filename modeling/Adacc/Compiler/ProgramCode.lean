import Adacc.Compiler.Programs

/-!
# The code in the functions of a program

`runOnFunction_getElem?` gives the code that the pass leaves before an instruction of a program's
function, in terms of the function's body: the same as in the body for an instruction of the
fragment, and for calls and returns the expressions that stand for their operands in the body.

From it come the equations for a step of the instrumented program. A step at an instruction of the
fragment is a step of the body (`symStep_instr`), and one at a memory intrinsic is what
`symExecCall` does in the body (`symStep_intrinsic`).
-/

namespace Adacc.Symbolizer.Programs

open SmtLib IR Backend

/-! ## Visiting the body -/

section Visit

variable (m : SymbolicExpressions) (littleEndian : Bool)

/-- An instruction has an entry if it has one in the body. -/
theorem visit_snd (pos : ℕ) (J : Instruction) :
    (visit m littleEndian pos J).2 = (Symbolizer.visit m littleEndian pos J.inBody).2 := by
  rcases J with I | c | ⟨callee, args, - | -⟩ | V <;> rfl

private theorem visitAll_snd (pos : ℕ) (code : List Instruction) :
    (visitAll littleEndian pos m code).2
      = (Symbolizer.visitAll littleEndian pos m (code.map Instruction.inBody)).2 := by
  induction code generalizing pos m with
  | nil => rfl
  | cons J code ih =>
    rw [List.map_cons, visitAll, Symbolizer.visitAll, ih, visit_snd]

theorem visitAll_getElem? (pos : ℕ) (code : List Instruction) (k : ℕ) :
    (visitAll littleEndian pos m code).1[k]? = code[k]?.map fun J ↦
      ⟨J, (visit (visitAll littleEndian pos m (code.take k)).2 littleEndian (pos + k) J).1⟩ := by
  induction code generalizing pos m k with
  | nil => rfl
  | cons J code ih =>
    rcases k with - | k
    · rfl
    · rw [visitAll, List.getElem?_cons_succ, List.getElem?_cons_succ, ih, List.take_succ_cons,
        visitAll, Nat.add_assoc, Nat.add_comm 1]

private theorem map_inst_visitAll (pos : ℕ) (code : List Instruction) :
    (visitAll littleEndian pos m code).1.map InstrumentedInstruction.inst = code := by
  induction code generalizing pos m with
  | nil => rfl
  | cons J code ih => rw [visitAll, List.map_cons, ih]

private theorem erasesPHI_eq (J : Instruction) :
    erasesPHI m J = Symbolizer.erasesPHI m J.inBody := by
  rcases J with I | c | ⟨callee, args, - | -⟩ | V <;> rfl

/-- The same nodes are erased. -/
theorem nodesToErase_eq (m' : SymbolicExpressions) (pos : ℕ) (code : List Instruction) :
    nodesToErase m' pos code = Symbolizer.nodesToErase m' pos
      (Symbolizer.visitAll littleEndian pos m (code.map Instruction.inBody)).1 := by
  induction code generalizing pos m with
  | nil => rfl
  | cons J code ih =>
    rw [List.map_cons, nodesToErase, Symbolizer.visitAll, Symbolizer.nodesToErase, erasesPHI_eq, ih]

end Visit

section Body

variable (F : Function) (k : ℕ)

theorem body_code_getElem? : F.body.code[k]? = F.code[k]?.map Instruction.inBody :=
  List.getElem?_map

private theorem symbolicExpressionsAt_body :
    symbolicExpressionsAt F.body k
      = (visitAll F.littleEndian 0 (symbolizeFunctionArguments F.body) (F.code.take k)).2 := by
  rw [visitAll_snd, symbolicExpressionsAt, List.map_take]
  rfl

private theorem finalSymbolicExpressions_body :
    finalSymbolicExpressions F.body
      = (visitAll F.littleEndian 0 (symbolizeFunctionArguments F.body) F.code).2 := by
  rw [visitAll_snd]
  rfl

private theorem erasedNodes_body :
    erasedNodes F.body = nodesToErase (finalSymbolicExpressions F.body) 0 F.code := by
  rw [nodesToErase_eq (symbolizeFunctionArguments F.body) F.littleEndian]
  rfl

/-! ## The code at a position -/

/-- The called operand is concretised, if there is one. -/
def Callee.pinned : Callee → List (ℕ × Operand)
  | .direct _ => []
  | .indirect calledOperand => [(64, calledOperand)]

/-- The code that the pass leaves before the instruction at position `k`. -/
def codeAt : Instruction → List (Inserted ShortCircuit)
  | .instr I => (insertedCode F.body k I).map .code
  | .intrinsic c =>
    (pinningCode F.body k c.pinned).map .code ++ [.memory (runtimeCall F.body k c)]
  | .call callee args hasUsers =>
    (pinningCode F.body k callee.pinned).map .code ++
      setParameters 0 (args.map (operandAt F.body k)) ++
      if hasUsers then [.setReturnExpression .null] else []
  | .retValue V => [.setReturnExpression (operandAt F.body k V)]

/-- The rewriting passes on the code of one visit. -/
private def rewrittenInserted (code : List (Inserted SymbolicComputation)) :
    List (Inserted ShortCircuit) :=
  (code.map (Inserted.replace (erasedNodes F.body))).map Inserted.shortCircuit

private theorem rewrittenInserted_append (code code' : List (Inserted SymbolicComputation)) :
    rewrittenInserted F (code ++ code')
      = rewrittenInserted F code ++ rewrittenInserted F code' := by
  simp only [rewrittenInserted, List.map_append]

private theorem rewrittenInserted_code (code : List (SymCode SymbolicComputation)) :
    rewrittenInserted F (code.map .code)
      = ((code.map (SymCode.replace (erasedNodes F.body))).map SymCode.shortCircuit).map .code := by
  simp only [rewrittenInserted, List.map_map]
  rfl

private theorem rewrittenInserted_setParameters (argNo : ℕ) (exprs : List SymOperand) :
    rewrittenInserted F (setParameters argNo exprs)
      = setParameters argNo (exprs.map (SymOperand.replace (erasedNodes F.body))) := by
  induction exprs generalizing argNo with
  | nil => rfl
  | cons e exprs ih =>
    rw [setParameters, List.map_cons, setParameters, ← ih]
    rfl

/-- The code for a call. -/
private theorem rewrittenInserted_call (callee : Callee) (args : List Operand) (hasUsers : Bool) :
    rewrittenInserted F
        (handleFunctionCall (symbolicExpressionsAt F.body k) (.inst k) callee args hasUsers).1
      = codeAt F k (.call callee args hasUsers) := by
  have hcallee : rewrittenInserted F ((visitCallee (symbolicExpressionsAt F.body k) callee).map
      .code) = (pinningCode F.body k callee.pinned).map .code := by
    rw [rewrittenInserted_code]
    cases callee with
    | direct f => rfl
    | indirect V =>
      rw [visitCallee, rewritePasses_tryAlternative, Callee.pinned, pinningCode,
        List.flatMap_singleton]
  have hargs : rewrittenInserted F (setParameters 0
      (args.map (getSymbolicExpressionOrNull (symbolicExpressionsAt F.body k))))
        = setParameters 0 (args.map (operandAt F.body k)) := by
    rw [rewrittenInserted_setParameters, List.map_map]
    rfl
  cases hasUsers with
  | false =>
    rw [handleFunctionCall, codeAt, if_neg Bool.false_ne_true, if_neg Bool.false_ne_true,
      rewrittenInserted_append, hcallee, hargs, List.append_nil]
  | true =>
    rw [handleFunctionCall, codeAt, if_pos rfl, if_pos rfl, rewrittenInserted_append,
      rewrittenInserted_append, hcallee, hargs]
    rfl

private theorem setIncomingValues_instr (m : SymbolicExpressions) (I : Instr)
    (code : List (SymCode SymbolicComputation)) :
    setIncomingValues m ⟨.instr I, code.map .code⟩
      = ⟨.instr I, (Symbolizer.setIncomingValues m ⟨I, code⟩).code.map .code⟩ := by
  cases I with
  | phi incoming =>
    have heq : erasesPHI m (.instr (.phi incoming)) = Symbolizer.erasesPHI m (.phi incoming) := rfl
    dsimp only [setIncomingValues, Symbolizer.setIncomingValues]
    by_cases herase : erasesPHI m (.instr (.phi incoming)) = true
    · rw [if_pos herase, if_pos (heq ▸ herase)]
      rfl
    · rw [if_neg herase, if_neg (heq ▸ herase)]
      rfl
  | _ => rfl

/-- The code of a visit after all passes. -/
private theorem rewrittenInserted_visit {J : Instruction} (hJ : F.code[k]? = some J) :
    rewrittenInserted F (setIncomingValues (finalSymbolicExpressions F.body)
        ⟨J, (visit (symbolicExpressionsAt F.body k) F.littleEndian k J).1⟩).code
      = codeAt F k J := by
  cases J with
  | instr I =>
    -- what all passes leave in the body
    have hbody := Symbolizer.runOnFunction_getElem? F.body k
    simp only [Symbolizer.runOnFunction, Symbolizer.shortCircuitExpressionUses,
      Symbolizer.finalizePHINodes, List.getElem?_map, Symbolizer.visitAll_getElem?, Nat.zero_add,
      body_code_getElem?, hJ, Option.map_some, Option.some.injEq, Instrumented.mk.injEq] at hbody
    rw [codeAt]
    refine Eq.trans ?_ (congrArg (List.map Inserted.code) hbody.2)
    rw [visit, setIncomingValues_instr, rewrittenInserted_code]
    rfl
  | intrinsic c =>
    have hcode := instrumentCall_eq F.body k c
    rw [instrumentCall, Prod.mk.injEq] at hcode
    rw [codeAt, ← hcode.1, ← hcode.2, ← rewrittenInserted_code]
    exact rewrittenInserted_append F _ _
  | call callee args hasUsers => exact rewrittenInserted_call F k callee args hasUsers
  | retValue V => rfl

private theorem setIncomingValues_inst (m : SymbolicExpressions)
    (I : InstrumentedInstruction SymbolicComputation) :
    (setIncomingValues m I).inst = I.inst := by
  unfold setIncomingValues
  split
  · split <;> rfl
  · rfl

theorem runOnFunction_getElem? :
    (runOnFunction F)[k]? = F.code[k]?.map fun J ↦ ⟨J, codeAt F k J⟩ := by
  simp only [runOnFunction, shortCircuitExpressionUses, finalizePHINodes, List.getElem?_map,
    visitAll_getElem?, Option.map_map, Nat.zero_add, map_inst_visitAll,
    ← finalSymbolicExpressions_body, ← erasedNodes_body, ← symbolicExpressionsAt_body]
  rcases hJ : F.code[k]? with - | J
  · rfl
  · simp only [Option.map_some, Function.comp_apply, setIncomingValues_inst]
    rw [← rewrittenInserted_visit F k hJ]
    rfl

/-- The instrumented instructions from position `pos` on. -/
def instrumentedFrom : ℕ → List Instruction → List (InstrumentedInstruction ShortCircuit)
  | _, [] => []
  | pos, J :: code => ⟨J, codeAt F pos J⟩ :: instrumentedFrom (pos + 1) code

private theorem instrumentedFrom_getElem? (pos : ℕ) (code : List Instruction) :
    (instrumentedFrom F pos code)[k]? = code[k]?.map fun J ↦ ⟨J, codeAt F (pos + k) J⟩ := by
  induction code generalizing pos k with
  | nil => rfl
  | cons J code ih =>
    rcases k with - | k
    · rfl
    · rw [instrumentedFrom, List.getElem?_cons_succ, List.getElem?_cons_succ, ih, Nat.add_assoc,
        Nat.add_comm 1]

theorem runOnFunction_drop (target : ℕ) :
    (runOnFunction F).drop target = instrumentedFrom F target (F.code.drop target) := by
  apply List.ext_getElem?
  intro k
  rw [List.getElem?_drop, runOnFunction_getElem?, instrumentedFrom_getElem?, List.getElem?_drop]

end Body

/-! ## Steps -/

variable {SymExpr : Type}

/-- The symbolic PHI nodes are those of the body. -/
theorem enterSymbolicPhis_instrumentedFrom (F : Function) (exprs exprs' : ValueId → Option SymExpr)
    (pred : Label) (pos : ℕ) (code : List Instruction) :
    enterSymbolicPhis exprs pred pos (instrumentedFrom F pos code) exprs'
      = Symbolizer.enterSymbolicPhis exprs pred pos
          (instrumentFrom F.body pos (code.map Instruction.inBody)) exprs' := by
  induction code generalizing pos exprs' with
  | nil => rfl
  | cons J code ih =>
    rw [List.map_cons, instrumentedFrom, instrumentFrom]
    rcases J with I | c | ⟨callee, args, - | -⟩ | V
    · cases I with
      | phi incoming =>
        rw [codeAt, Instruction.inBody, insertedCode]
        split
        · exact ih _ _
        · exact ih _ _
      | _ => rfl
    all_goals rfl

private theorem enterSymbolicPhis_runOnFunction (F : Function)
    (exprs exprs' : ValueId → Option SymExpr) (pred target : Label) :
    enterSymbolicPhis exprs pred target ((runOnFunction F).drop target) exprs'
      = Symbolizer.enterSymbolicPhis exprs pred target
          ((Symbolizer.runOnFunction F.body).drop target) exprs' := by
  rw [runOnFunction_drop, enterSymbolicPhis_instrumentedFrom, Symbolizer.runOnFunction_drop,
    Function.body, List.map_drop]

variable [Backend SymExpr] (leftToRight : Bool)

theorem execInserted_append (code code' : List (Inserted ShortCircuit))
    (S : SymProgramState SymExpr) :
    execInserted leftToRight (code ++ code') S
      = (execInserted leftToRight code S).bind fun first ↦
          (execInserted leftToRight code' first.1).map fun rest ↦
            (rest.1, first.2 ++ rest.2) := by
  induction code generalizing S with
  | nil =>
    rw [List.nil_append, execInserted, Option.bind_some]
    exact Option.map_id'.symm
  | cons c code ih =>
    rw [List.cons_append, execInserted, execInserted, Option.bind_assoc]
    congr 1
    funext first
    rw [ih, Option.map_bind, Option.bind_map]
    congr 1
    funext rest
    simp only [Option.map_map, Function.comp_def, List.append_assoc]

/-- Code of the fragment. -/
theorem execInserted_code (code : List (SymCode ShortCircuit)) (S : SymProgramState SymExpr) :
    execInserted leftToRight (code.map .code) S
      = (execCode code S.state).map fun after ↦ ({ S with state := after.1 }, after.2) := by
  induction code generalizing S with
  | nil => rfl
  | cons c code ih =>
    rw [List.map_cons, execInserted, execCode, Inserted.exec, Option.bind_map, Option.map_bind]
    congr 1
    funext first
    simp only [Function.comp_apply, ih, Option.map_map]
    rfl

/-- The code for the arguments is the one of the call protocol. -/
theorem execInserted_setParameters (argNo : ℕ) {passed : List SymOperand}
    {held : List (Held SymExpr)} {S : SymProgramState SymExpr}
    (hheld : held.map Prod.snd = passed.map (·.eval S.state.exprs)) :
    execInserted leftToRight (setParameters argNo passed) S
      = some ({ S with slots := setParameterExpressions argNo held S.slots }, []) := by
  induction passed generalizing argNo held S with
  | nil =>
    rw [List.map_nil, List.map_eq_nil_iff] at hheld
    rw [hheld]
    rfl
  | cons e passed ih =>
    rcases held with - | ⟨⟨value, expr⟩, held⟩
    · cases hheld
    rw [List.map_cons, List.map_cons, List.cons.injEq] at hheld
    obtain ⟨hexpr, hheld⟩ := hheld
    have hrest := ih (argNo + 1) (S := { S with
      slots := S.slots.symSetParameterExpression (UInt8.ofNat argNo) expr }) hheld
    rw [setParameters, execInserted, Inserted.exec, ← hexpr, Option.bind_some]
    exact (congrArg _ hrest).trans rfl

/-- The code before a call of a function of the program, after the assertion about the callee. -/
theorem execInserted_handleFunctionCall {passed : List SymOperand} {held : List (Held SymExpr)}
    (hasUsers : Bool) {S : SymProgramState SymExpr}
    (hheld : held.map Prod.snd = passed.map (·.eval S.state.exprs)) :
    execInserted leftToRight (setParameters 0 passed ++
        if hasUsers then [.setReturnExpression .null] else []) S
      = some ({ S with slots := Adacc.handleFunctionCall held hasUsers S.slots }, []) := by
  rw [execInserted_append, execInserted_setParameters leftToRight 0 hheld, Option.bind_some]
  cases hasUsers <;> rfl

variable {P : Program} {F : Function} {S : SymProgramState SymExpr}

theorem symStep_eq (hF : P.functions[S.function]? = some F) {J : Instruction}
    (hJ : F.code[S.state.state.pc]? = some J) :
    P.symStep leftToRight S
      = (execInserted leftToRight (codeAt F S.state.state.pc J) S).bind fun before ↦
          (P.symExec F before.1 J).map fun after ↦
            (after.1, before.2 ++ after.2.map .access) := by
  rw [Program.symStep, hF, Option.bind_some, runOnFunction_getElem?, hJ, Option.map_some,
    Option.bind_some]

/-- A step at an instruction of the fragment. -/
theorem symStep_instr (hF : P.functions[S.function]? = some F) {I : Instr}
    (hI : F.code[S.state.state.pc]? = some (.instr I)) (hret : I ≠ .ret) :
    P.symStep leftToRight S
      = (Symbolizer.symStep F.body S.state).map fun after ↦
          ({ S with state := after.1 }, after.2) := by
  have hbody : F.body.code[S.state.state.pc]? = some I := by
    rw [body_code_getElem?, hI, Option.map_some, Instruction.inBody]
  rw [symStep_eq leftToRight hF hI, Symbolizer.symStep, Symbolizer.runOnFunction_getElem?, hbody,
    Option.map_some, Option.bind_some, codeAt, execInserted_code]
  rcases hcode : execCode (insertedCode F.body S.state.state.pc I) S.state with - | ⟨T, events⟩
  · rfl
  have hexec : P.symExec F { S with state := T } (.instr I)
      = (I.exec F.body T.state).map fun after ↦
          ({ S with
              state :=
                { state := after.1
                  exprs :=
                    if isTerminator I then
                      Symbolizer.enterSymbolicPhis T.exprs T.state.block after.1.block
                        ((Symbolizer.runOnFunction F.body).drop after.1.block) T.exprs
                    else T.exprs
                  pages := T.pages } },
            after.2) := by
    simp only [← enterSymbolicPhis_runOnFunction]
    cases I with
    | ret => exact absurd rfl hret
    | _ => rfl
  rw [Option.map_some, Option.bind_some, Option.bind_some, hexec, execCode_state hcode]
  simp only [Option.map_map]
  rfl

/-- A step at a memory intrinsic. -/
theorem symStep_intrinsic (hF : P.functions[S.function]? = some F) {c : MemIntrinsic}
    (hc : F.code[S.state.state.pc]? = some (.intrinsic c)) :
    P.symStep leftToRight S
      = (symExecCall F.body leftToRight c S.state).map fun after ↦
          ({ S with
              state :=
                { after.1 with state := { after.1.state with pc := after.1.state.pc + 1 } } },
            after.2) := by
  rw [symStep_eq leftToRight hF hc, codeAt, execInserted_append, execInserted_code, symExecCall_eq,
    Option.bind_map, Option.map_bind, Option.bind_assoc]
  congr 1
  funext ⟨T, events⟩
  simp only [Function.comp_apply, execInserted, Inserted.exec, Program.symExec]
  rcases (runtimeCall F.body S.state.state.pc c).exec leftToRight T with - | pages
  · rfl
  simp only [Option.map_some, Option.bind_some, Option.map_map, List.append_nil]
  rfl

end Adacc.Symbolizer.Programs
