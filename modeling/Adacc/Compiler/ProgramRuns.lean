import Adacc.Compiler.ProgramCode

/-!
# Calls and returns of instrumented programs

Two runs of an instrumented program, in lockstep. They are twins if the running functions are, and
the functions that wait are pairwise at the same calls and hold the same expressions, which stand
for the values of the second run.

A call hands the expressions of the arguments on, so that those of the callee stand for the values
of its formals (`enter_twins`), and a return does so for the result (`leave_twins`). Both go through
the slots, which nothing else touches in between. `calls_fork` says what a call, a return or a
memory intrinsic does to twins: both runs go on as the program itself does, and they stay twins,
unless the second input violates an assertion that the first run has pushed for an operand.
-/

namespace Adacc.Symbolizer.Programs

open SmtLib IR Backend TraverseOption Trace

variable {SymExpr : Type}

/-! ## Conditions on programs -/

/-- The operands that the instruction reads where it stands. -/
def operandsOf : Instruction → List Operand
  | .instr I => Symbolizer.operandsOf I
  | .intrinsic c => c.operands
  | .call callee args _ => callee.pinned.map Prod.snd ++ args
  | .retValue V => [V]

/-- The operands that are concretised. -/
def pinnedOperands : Instruction → List Operand
  | .instr I => addressOperands I
  | .intrinsic c => c.pinned.map Prod.snd
  | .call callee _ _ => callee.pinned.map Prod.snd
  | .retValue _ => []

/-- Within the limits of the interface whatever the operands are: arguments do not share slots. -/
def Supported : Instruction → Prop
  | .instr I => InstrSupported I
  | .call _ args _ => args.length ≤ 256
  | .intrinsic _ | .retValue _ => True

instance : DecidablePred Supported
  | .instr I => inferInstanceAs (Decidable (InstrSupported I))
  | .call _ args _ => inferInstanceAs (Decidable (args.length ≤ 256))
  | .intrinsic _ | .retValue _ => inferInstanceAs (Decidable True)

/-- Every instruction is supported. -/
def Program.Supported (P : Program) : Prop :=
  ∀ F ∈ P.functions, ∀ J ∈ F.code, Programs.Supported J

instance (P : Program) : Decidable P.Supported :=
  inferInstanceAs (Decidable (∀ F ∈ P.functions, ∀ J ∈ F.code, Programs.Supported J))

/-- The functions that a call may enter. -/
def Program.callees (P : Program) : List ℕ :=
  (P.functions.flatMap fun F ↦ F.code.flatMap fun
    | .call (.direct f) _ _ => [f]
    | _ => []) ++ P.addresses.map Prod.snd

/-- `main` is not called. -/
def Program.NeverCallsMain (P : Program) : Prop :=
  ∀ f ∈ P.callees, ∀ F ∈ P.functions[f]?, F.isMain = false

instance (P : Program) : Decidable P.NeverCallsMain :=
  inferInstanceAs (Decidable (∀ f ∈ P.callees, ∀ F ∈ P.functions[f]?, F.isMain = false))

/-- Every value is laid out before its uses, those in PHI nodes aside. -/
def Program.LaidOut (P : Program) : Prop :=
  ∀ F ∈ P.functions, ∀ p ∈ F.code.zipIdx, ∀ V ∈ operandsOf p.1, AvailableBefore p.2 V

instance (P : Program) : Decidable P.LaidOut :=
  inferInstanceAs (Decidable (∀ F ∈ P.functions, ∀ p ∈ F.code.zipIdx, ∀ V ∈ operandsOf p.1,
    AvailableBefore p.2 V))

/-- The pass knows no expression for any operand that is concretised. -/
def Program.ConcreteOperands (P : Program) : Prop :=
  ∀ F ∈ P.functions, ∀ p ∈ F.code.zipIdx, ∀ V ∈ pinnedOperands p.1,
    operandAt F.body p.2 V = .null

instance (P : Program) : Decidable P.ConcreteOperands :=
  inferInstanceAs (Decidable (∀ F ∈ P.functions, ∀ p ∈ F.code.zipIdx, ∀ V ∈ pinnedOperands p.1,
    operandAt F.body p.2 V = .null))

/-- What can be called is among the callees. -/
theorem mem_callees {P : Program} {F : Function} (hF : F ∈ P.functions) {callee : Callee}
    {args : List Operand} {hasUsers : Bool} (hcall : .call callee args hasUsers ∈ F.code)
    {env : Env} {f : ℕ} (htarget : callee.target P env = some f) : f ∈ P.callees := by
  rw [Program.callees, List.mem_append]
  cases callee with
  | direct g =>
    cases htarget
    exact .inl (List.mem_flatMap.mpr ⟨F, hF, List.mem_flatMap.mpr ⟨_, hcall, List.mem_cons_self⟩⟩)
  | indirect V =>
    obtain ⟨a, -, hlookup⟩ := Option.bind_eq_some_iff.mp htarget
    exact .inr (List.mem_map.mpr ⟨_, mem_of_lookup hlookup, rfl⟩)

/-! ## Formals -/

section Formals

variable {F : IR.Function} {n : ℕ}

theorem arg_mem_symbolizeFunctionArguments_iff :
    .arg n ∈ symbolizeFunctionArguments F ↔ F.isMain = false ∧ F.args[n]? = some true := by
  unfold symbolizeFunctionArguments
  cases hmain : F.isMain with
  | true => simp
  | false =>
    rw [if_neg Bool.false_ne_true, List.mem_map]
    constructor
    · rintro ⟨⟨used, k⟩, hmem, hk⟩
      cases hk
      obtain ⟨hmem, hused⟩ := List.mem_filter.mp hmem
      rw [List.mk_mem_zipIdx_iff_getElem?] at hmem
      exact ⟨rfl, by rw [hmem]; exact congrArg some hused⟩
    · rintro ⟨-, hused⟩
      exact ⟨(true, n), List.mem_filter.mpr ⟨List.mk_mem_zipIdx_iff_getElem?.mpr hused, rfl⟩, rfl⟩

/-- A formal that is read from its slot has an expression throughout the function. -/
theorem hasExpression_arg (h : .arg n ∈ symbolizeFunctionArguments F) :
    HasExpression F (.arg n) := by
  refine ⟨subset_visitAll _ _ _ _ h, fun herased ↦ ?_⟩
  obtain ⟨q, I, hq, -, -⟩ := mem_nodesToErase_iff.mp herased
  cases hq

end Formals

private theorem live_formalExprs (F : Function) (slots : Slots SymExpr) :
    Live F.body (F.formalExprs slots) := by
  rintro (n | q) hid
  · exact if_neg (mt hasExpression_arg hid)
  · rfl

/-! ## Twins and turns -/

section Twins

variable [Backend SymExpr]

structure FrameTwins (ρ : Adacc.Input) (c₁ c₂ : SymFrame SymExpr) : Prop where
  function : c₂.frame.function = c₁.frame.function
  block : c₂.frame.block = c₁.frame.block
  pc : c₂.frame.pc = c₁.frame.pc
  hasUsers : c₂.frame.hasUsers = c₁.frame.hasUsers
  env : EnvDenotes ρ c₁.exprs c₁.frame.env c₂.frame.env
  exprs : c₂.exprs = c₁.exprs

structure ProgramTwins (ρ : Adacc.Input) (S₁ S₂ : SymProgramState SymExpr) : Prop where
  function : S₂.function = S₁.function
  state : Twins ρ S₁.state S₂.state
  callers : List.Forall₂ (FrameTwins ρ) S₁.callers S₂.callers
  slots : S₂.slots = S₁.slots

/-- The events at which a run on `ρ` turns away from another one. -/
inductive ProgramTurns (P : Program) (ρ : Adacc.Input) : SymEvent SymExpr → SymEvent SymExpr → Prop
  | branch {constraint : SymExpr} {taken : Bool} (h : eval ρ constraint = .bool !taken) :
    ProgramTurns P ρ (.pushPathConstraint constraint taken) (.pushPathConstraint constraint !taken)
  | operand {destExpr : SymExpr} {w : ℕ} {x₁ x₂ : BitVec w} (hP : ¬P.ConcreteOperands)
    (hne : x₂ ≠ x₁) (hw : 0 < w ∧ WidthSupported w) (h : eval ρ destExpr = .bv w x₂) :
    ProgramTurns P ρ
      (.pushPathConstraint (symBuildCompare .eq destExpr (createValueExpression (.bv w x₁))) true)
      (.pushPathConstraint (symBuildCompare .eq destExpr (createValueExpression (.bv w x₂))) true)

/-- The events of two runs, the second one on `ρ`. -/
abbrev ProgramForks (P : Program) (ρ : Adacc.Input) :
    List (SymEvent SymExpr) → List (SymEvent SymExpr) → Prop :=
  Forks (EventSatisfied ρ) (ProgramTurns P ρ)

variable {P : Program} {F : Function} {ρ : Adacc.Input} {event event' : SymEvent SymExpr}

theorem ProgramTurns.not_satisfied (h : ProgramTurns P ρ event event') :
    ¬EventSatisfied ρ event := by
  cases h with
  | @branch constraint taken h =>
    rw [EventSatisfied, h, Value.bool.injEq]
    exact Bool.not_ne_self taken
  | operand hP hne hw h =>
    rw [EventSatisfied, eval_assertion h hw _, Value.bool.injEq, decide_eq_true_iff]
    exact hne

theorem ProgramTurns.satisfied (h : ProgramTurns P ρ event event') : EventSatisfied ρ event' := by
  cases h with
  | branch h => exact h
  | operand hP hne hw h => rw [EventSatisfied, eval_assertion h hw _, decide_eq_true rfl]

theorem ProgramTurns.irrefl : ¬ProgramTurns P ρ event event :=
  fun h ↦ h.not_satisfied h.satisfied

private theorem concreteAddresses_body (hP : P.ConcreteOperands) (hF : F ∈ P.functions) :
    ConcreteAddresses F.body := by
  rintro ⟨I, k⟩ hI addr haddr
  rw [List.mk_mem_zipIdx_iff_getElem?, body_code_getElem?, Option.map_eq_some_iff] at hI
  obtain ⟨J, hJ, rfl⟩ := hI
  have hnull := hP F hF (J, k) (List.mk_mem_zipIdx_iff_getElem?.mpr hJ)
  rcases J with I | c | ⟨callee, args, - | -⟩ | V
  · exact hnull addr haddr
  · rw [List.mem_singleton.mp haddr]
    rfl
  · rw [List.mem_singleton.mp haddr]
    rfl
  · rw [List.mem_singleton.mp haddr]
    rfl
  · cases haddr

theorem ProgramTurns.of_turns (hF : F ∈ P.functions) (h : Turns F.body ρ event event') :
    ProgramTurns P ρ event event' := by
  cases h with
  | branch h => exact .branch h
  | @address destExpr a₁ a₂ hbody hne h =>
    exact .operand (fun hP ↦ hbody (concreteAddresses_body hP hF)) hne (valueSupported_address a₁) h

/-- Forks in a body are forks of the program, as long as concrete operands push nothing. -/
theorem programForks_of_callsFork (hF : F ∈ P.functions)
    {events₁ events₂ : List (SymEvent SymExpr)} (h : CallsFork F.body ρ events₁ events₂)
    (hconcrete : P.ConcreteOperands → ∀ event ∈ events₁, ∃ a, event = .access a) :
    ProgramForks P ρ events₁ events₂ := by
  by_cases hP : P.ConcreteOperands
  · refine .inl (h.eq_of_forall fun event hevent event' hturn ↦ ?_)
    obtain ⟨a, rfl⟩ := hconcrete hP event hevent
    cases hturn with
    | step h => cases h
  · refine h.mono fun hturn ↦ ?_
    cases hturn with
    | step h => exact .of_turns hF h
    | operand hne hw h => exact .operand hP hne hw h

/-! ## Called operands -/

private theorem execCode_pinningCode_null {F : IR.Function} {k : ℕ} {Vs : List (ℕ × Operand)}
    (h : ∀ V ∈ Vs, operandAt F k V.2 = .null) (S : SymState SymExpr) :
    execCode (pinningCode F k Vs) S = some (S, []) := by
  induction Vs with
  | nil => rfl
  | cons V Vs ih =>
    rw [List.forall_mem_cons] at h
    have hassertion : execCode (computationIfEntry F k (.pushAssertion V.2) [V.2]) S
        = some (S, []) := by
      rw [computationIfEntry]
      split
      · rfl
      · rw [execCode_singleton, computationAt, SymCode.exec, ShortCircuit.exec, if_pos]
        · rfl
        · simp [shortCircuit, h.1, SymOperand.eval]
    rw [pinningCode, List.flatMap_cons, execCode_append hassertion]
    exact congrArg (Option.map _) (ih h.2)

/-- Both runs call the same function, unless the second input violates the assertion about the
called operand. -/
theorem callee_twins (hF : F ∈ P.functions) {callee : Callee} {args : List Operand}
    {hasUsers : Bool} {k : ℕ} (hcall : F.code[k]? = some (.call callee args hasUsers))
    {S₁ S₂ : SymState SymExpr} (hS : Twins ρ S₁ S₂)
    (hreads : ∀ V ∈ callee.pinned, Reads ρ S₁ S₂.state V.2 (operandAt F.body k V.2)) {f₁ f₂ : ℕ}
    (h₁ : callee.target P S₁.state.env = some f₁) (h₂ : callee.target P S₂.state.env = some f₂) :
    ∃ e₁ e₂, execCode (pinningCode F.body k callee.pinned) S₁ = some (S₁, e₁) ∧
      execCode (pinningCode F.body k callee.pinned) S₂ = some (S₂, e₂) ∧ accesses e₁ = [] ∧
      ProgramForks P ρ e₁ e₂ ∧ ((∀ event ∈ e₁, EventSatisfied ρ event) → f₂ = f₁) := by
  have hpinned : ∀ V ∈ callee.pinned, Reads ρ S₁ S₂.state V.2 (operandAt F.body k V.2) ∧
      (0 < V.1 ∧ WidthSupported V.1) ∧ ∃ x₁ x₂ : BitVec V.1,
        V.2.eval S₁.state.env = some (.bv V.1 x₁) ∧
          V.2.eval S₂.state.env = some (.bv V.1 x₂) := by
    intro V hV
    cases callee with
    | direct f => cases hV
    | indirect calledOperand =>
      obtain ⟨a₁, ha₁, -⟩ := Option.bind_eq_some_iff.mp h₁
      obtain ⟨a₂, ha₂, -⟩ := Option.bind_eq_some_iff.mp h₂
      have hread := hreads V hV
      obtain rfl := List.mem_singleton.mp hV
      exact ⟨hread, valueSupported_address a₁, a₁, a₂, eval_eq_of_bits ha₁, eval_eq_of_bits ha₂⟩
  obtain ⟨e₁, e₂, hexec₁, hexec₂, hacc, hfork, heq⟩ := execCode_pinningCode_twins hS.exprs hpinned
  refine ⟨e₁, e₂, hexec₁, hexec₂, hacc,
    programForks_of_callsFork hF hfork fun hP event hevent ↦ ?_, fun hgood ↦ ?_⟩
  · have hnull := hP F hF (_, k) (List.mk_mem_zipIdx_iff_getElem?.mpr hcall)
    rw [execCode_pinningCode_null (fun V hV ↦ hnull V.2 (List.mem_map_of_mem hV))] at hexec₁
    cases hexec₁
    cases hevent
  · have hsame : callee.target P S₂.state.env = callee.target P S₁.state.env := by
      cases callee with
      | direct f => rfl
      | indirect V => rw [Callee.target, Callee.target, pointer, heq hgood _ List.mem_cons_self,
          pointer]
    rw [h₁, h₂] at hsame
    exact Option.some.inj hsame

/-! ## Entering and leaving -/

/-- The function waits for the end of a call in its code. -/
def Waits (P : Program) (c : SymFrame SymExpr) : Prop :=
  ∃ F callee args, P.functions[c.frame.function]? = some F ∧
    F.code[c.frame.pc]? = some (.call callee args c.frame.hasUsers) ∧ Live F.body c.exprs

/-- Only values that the pass has given an expression hold one, in all functions. -/
structure ProgramLive (P : Program) (S : SymProgramState SymExpr) : Prop where
  state : ∀ F, P.functions[S.function]? = some F → Live F.body S.state.exprs
  callers : ∀ c ∈ S.callers, Waits P c

section Calls

variable {S S₁ S₂ T T₁ T₂ : SymProgramState SymExpr} {t t₁ t₂ : ProgramState}
  {as as₁ as₂ : List Access}

omit [Backend SymExpr] in
theorem exists_symEnter {f : ℕ} {values : List Value} {hasUsers : Bool}
    (h : P.enter f values hasUsers S.concrete = some (t, as)) :
    ∃ T, P.symEnter f values hasUsers S = some (T, as) ∧ T.concrete = t := by
  obtain ⟨G, hG, h⟩ := Option.bind_eq_some_iff.mp h
  obtain ⟨hlength, h⟩ := Option.ite_none_right_eq_some.mp h
  cases h
  exact ⟨_, Option.bind_eq_some_iff.mpr
    ⟨G, hG, Option.ite_none_right_eq_some.mpr ⟨hlength, rfl⟩⟩, rfl⟩

omit [Backend SymExpr] in
theorem symEnter_cases {f : ℕ} {values : List Value} {hasUsers : Bool}
    (h : P.symEnter f values hasUsers S = some (T, as)) :
    ∃ G, P.functions[f]? = some G ∧ G.args.length ≤ values.length ∧ as = [.block 0] ∧
      T = ⟨f, ⟨⟨G.formals values, S.state.state.mem, 0, 0⟩, G.formalExprs S.slots,
        S.state.pages⟩, ⟨S.concrete.suspend hasUsers, S.state.exprs⟩ :: S.callers, S.slots⟩ := by
  obtain ⟨G, hG, h⟩ := Option.bind_eq_some_iff.mp h
  obtain ⟨hlength, h⟩ := Option.ite_none_right_eq_some.mp h
  cases h
  exact ⟨G, hG, hlength, rfl, rfl⟩

omit [Backend SymExpr] in
theorem ProgramLive.enter (hlive : ProgramLive P S) (hF : P.functions[S.function]? = some F)
    {callee : Callee} {args : List Operand} {hasUsers : Bool}
    (hcall : F.code[S.state.state.pc]? = some (.call callee args hasUsers)) {f : ℕ}
    {values : List Value} (h : P.symEnter f values hasUsers S = some (T, as)) :
    ProgramLive P T := by
  obtain ⟨G, hG, -, -, rfl⟩ := symEnter_cases h
  refine ⟨fun F' hF' ↦ ?_, List.forall_mem_cons.mpr
    ⟨⟨F, callee, args, hF, hcall, hlive.state F hF⟩, hlive.callers⟩⟩
  cases hG.symm.trans hF'
  exact live_formalExprs G S.slots

/-- A call of one function in both runs. What has been passed for a formal stands for its value. -/
theorem ProgramTwins.enter (hS : ProgramTwins ρ S₁ S₂) {f : ℕ} {values₁ values₂ : List Value}
    {hasUsers : Bool} (h₁ : P.symEnter f values₁ hasUsers S₁ = some (T₁, as₁))
    (h₂ : P.symEnter f values₂ hasUsers S₂ = some (T₂, as₂))
    (hpassed : ∀ G, P.functions[f]? = some G → G.args.length ≤ values₁.length →
      ∀ n, G.args[n]? = some true →
        values₂[n]? = under ρ (G.formalExprs S₁.slots (.arg n)) values₁[n]?) :
    ProgramTwins ρ T₁ T₂ := by
  obtain ⟨G, hG, hlength, -, rfl⟩ := symEnter_cases h₁
  obtain ⟨G', hG', -, -, rfl⟩ := symEnter_cases h₂
  cases hG.symm.trans hG'
  refine ⟨rfl, ⟨⟨rfl, rfl, ?_, hS.state.denotes.mem⟩, by rw [hS.slots], hS.state.pages⟩,
    .cons ?_ hS.callers, hS.slots⟩
  · rintro (n | q)
    · dsimp only [Function.formals]
      by_cases hused : G.args[n]? = some true
      · rw [if_pos hused, if_pos hused, hpassed G hG hlength n hused]
      · rw [if_neg hused, if_neg hused, Function.formalExprs, if_neg fun hmem ↦
          hused (arg_mem_symbolizeFunctionArguments_iff.mp hmem).2, under_none]
    · rfl
  · exact ⟨hS.function, hS.state.denotes.block, hS.state.denotes.pc, rfl, hS.state.denotes.env,
      hS.state.exprs⟩

omit [Backend SymExpr] in
theorem hasExpression_call {callee : Callee} {args : List Operand} {k : ℕ}
    (hcall : F.code[k]? = some (.call callee args true)) : HasExpression F.body (.inst k) :=
  hasExpression_load (by rw [body_code_getElem?, hcall, Option.map_some, Instruction.inBody])

/-- A function that waits, as it comes back. -/
def SymFrame.resume (mem : UIntPtr → BitVec 8) (pages : ShadowPages SymExpr)
    (c : SymFrame SymExpr) : SymState SymExpr :=
  ⟨c.frame.resume mem, c.exprs, pages⟩

theorem FrameTwins.resume {c₁ c₂ : SymFrame SymExpr} (hc : FrameTwins ρ c₁ c₂)
    {mem₁ mem₂ : UIntPtr → BitVec 8} {pages₁ pages₂ : ShadowPages SymExpr}
    (hmem : MemDenotes ρ pages₁ mem₁ mem₂) (hpages : pages₂ = pages₁) :
    Twins ρ (c₁.resume mem₁ pages₁) (c₂.resume mem₂ pages₂) :=
  ⟨⟨hc.pc, hc.block, hc.env, hmem⟩, hc.exprs, hpages⟩

/-- The result of an instruction, in twins. -/
theorem twins_define {S₁ S₂ : SymState SymExpr} (hS : Twins ρ S₁ S₂) {r : Option SymExpr}
    {v₁ v₂ : Value} (hr : some v₂ = under ρ r (some v₁)) :
    Twins ρ { S₁.setExpr r with state := S₁.state.define v₁ }
      { S₂.setExpr r with state := S₂.state.define v₂ } where
  denotes := hS.denotes.define hr
  exprs := by rw [SymState.setExpr, SymState.setExpr, hS.exprs, hS.denotes.pc]
  pages := hS.pages

/-- The position after the instruction, in twins. -/
theorem twins_next {S₁ S₂ : SymState SymExpr} (hS : Twins ρ S₁ S₂) :
    Twins ρ { S₁ with state := { S₁.state with pc := S₁.state.pc + 1 } }
      { S₂ with state := { S₂.state with pc := S₂.state.pc + 1 } } :=
  ⟨⟨congrArg (· + 1) hS.denotes.pc, hS.denotes.block, hS.denotes.env, hS.denotes.mem⟩, hS.exprs,
    hS.pages⟩

/-- A return in both runs. What has been passed for the result stands for its value. -/
theorem leave_twins (hS : ProgramTwins ρ S₁ S₂) (hlive : ProgramLive P S₁)
    {value₁ value₂ : Option Value} (h₁ : S₁.concrete.leave value₁ = some (t₁, as₁))
    (h₂ : S₂.concrete.leave value₂ = some (t₂, as₂))
    (hpassed : ∀ v, value₁ = some v → value₂ = under ρ S₁.slots.returnValue (some v)) :
    ∃ T₁ T₂, S₁.leave value₁ = some (T₁, as₁) ∧ S₂.leave value₂ = some (T₂, as₁) ∧
      T₁.concrete = t₁ ∧ ProgramLive P T₁ ∧ ProgramTwins ρ T₁ T₂ := by
  obtain ⟨f₁, S₁, callers₁, slots₁⟩ := S₁
  obtain ⟨f₂, S₂, callers₂, slots₂⟩ := S₂
  obtain ⟨-, hstate, hcallers, rfl⟩ := hS
  cases hcallers with
  | nil => cases h₁
  | @cons c₁ c₂ callers₁ callers₂ hc hcallers =>
    obtain ⟨F, callee, args, hF, hcall, hclive⟩ := hlive.callers c₁ List.mem_cons_self
    have hrest : ∀ c ∈ callers₁, Waits P c := fun c hmem ↦
      hlive.callers c (List.mem_cons_of_mem _ hmem)
    have hresume := hc.resume hstate.denotes.mem hstate.pages
    simp only [ProgramState.leave, SymProgramState.concrete, List.map_cons, hc.hasUsers] at h₁ h₂
    simp only [SymProgramState.leave, hc.hasUsers]
    cases husers : c₁.frame.hasUsers with
    | false =>
      rw [husers, if_neg Bool.false_ne_true] at h₁ h₂
      cases h₁
      cases h₂
      refine ⟨_, _, rfl, rfl, rfl, ⟨fun F' hF' ↦ ?_, hrest⟩, hc.function, twins_next hresume,
        hcallers, rfl⟩
      cases hF.symm.trans hF'
      exact hclive
    | true =>
      rw [husers, if_pos rfl] at h₁ h₂
      obtain ⟨v₁, rfl, h₁⟩ := Option.map_eq_some_iff.mp h₁
      obtain ⟨v₂, rfl, h₂⟩ := Option.map_eq_some_iff.mp h₂
      cases h₁
      cases h₂
      refine ⟨_, _, rfl, rfl, rfl, ⟨fun F' hF' ↦ ?_, hrest⟩, hc.function,
        twins_define hresume (hpassed v₁ rfl), hcallers, rfl⟩
      cases hF.symm.trans hF'
      exact hclive.update (hasExpression_call (husers ▸ hcall)) _

/-! ## Steps -/

/-- What is to be shown of a step: both instrumented runs go on, the first one as the program
itself, their events fork, and they stay twins if there is no fork. -/
def StepForks (P : Program) (leftToRight : Bool) (ρ : Adacc.Input)
    (S₁ S₂ : SymProgramState SymExpr) (t₁ : ProgramState) (as₁ : List Access) : Prop :=
  ∃ T₁ e₁ T₂ e₂, P.symStep leftToRight S₁ = some (T₁, e₁) ∧
    P.symStep leftToRight S₂ = some (T₂, e₂) ∧ T₁.concrete = t₁ ∧ accesses e₁ = as₁ ∧
      ProgramLive P T₁ ∧ ProgramForks P ρ e₁ e₂ ∧
        ((∀ event ∈ e₁, EventSatisfied ρ event) → ProgramTwins ρ T₁ T₂)

theorem programForks_access (as : List Access) :
    ProgramForks P ρ (as.map .access) (as.map (.access : Access → SymEvent SymExpr)) := by
  refine .same fun event hevent ↦ ?_
  obtain ⟨a, -, rfl⟩ := List.mem_map.mp hevent
  trivial

/-- What the slots of the callee hold for the values of the formals. -/
theorem under_formalExprs {k : ℕ} {G : Function} {args : List Operand} {env₁ env₂ : Env}
    {exprs : ValueId → Option SymExpr} {values₁ values₂ : List Value}
    (hvalues₁ : args.mapM (Operand.eval env₁) = some values₁)
    (hvalues₂ : args.mapM (Operand.eval env₂) = some values₂) (hlimit : args.length ≤ 256)
    (hlength : G.args.length ≤ values₁.length)
    (hreads : ∀ V ∈ args, V.eval env₂ = under ρ ((operandAt F.body k V).eval exprs) (V.eval env₁))
    (hmain : G.isMain = true → values₂ = values₁) (hasUsers : Bool) (slots : Slots SymExpr) {n : ℕ}
    (hused : G.args[n]? = some true) :
    values₂[n]? = under ρ (G.formalExprs (Adacc.handleFunctionCall
      (values₁.zip (args.map fun V ↦ (operandAt F.body k V).eval exprs)) hasUsers slots) (.arg n))
        values₁[n]? := by
  cases hG : G.isMain with
  | true =>
    rw [Function.formalExprs, if_neg fun hmem ↦ ?_, under_none, hmain hG]
    have hnot := (arg_mem_symbolizeFunctionArguments_iff.mp hmem).1
    exact absurd (hnot.symm.trans hG) Bool.false_ne_true
  | false =>
    have hlen := length_of_mapM hvalues₁
    have hn : n < args.length := by
      have hlt := (List.getElem?_eq_some_iff.mp hused).1
      omega
    have hV : args[n]? = some args[n] := List.getElem?_eq_getElem hn
    have hheld : (values₁.zip (args.map fun V ↦ (operandAt F.body k V).eval exprs))[n]?
        = some (values₁[n], (operandAt F.body k args[n]).eval exprs) := by
      rw [List.getElem?_zip_eq_some, List.getElem?_map, hV]
      exact ⟨List.getElem?_eq_getElem (hlen ▸ hn), rfl⟩
    have hslot := getParameter_set 0 (by simpa [hlen] using hlimit) hheld slots
    rw [Nat.zero_add] at hslot
    rw [Function.formalExprs, if_pos (arg_mem_symbolizeFunctionArguments_iff.mpr ⟨hG, hused⟩),
      functionArguments_handleFunctionCall, hslot, getElem?_of_mapM hvalues₁,
      getElem?_of_mapM hvalues₂, hV, Option.bind_some, Option.bind_some]
    exact hreads args[n] (List.getElem_mem hn)

/-- A call. -/
theorem call_forks (leftToRight : Bool) (hS : ProgramTwins ρ S₁ S₂) (hlive : ProgramLive P S₁)
    (hF : P.functions[S₁.function]? = some F) {callee : Callee} {args : List Operand}
    {hasUsers : Bool} (hcall : F.code[S₁.state.state.pc]? = some (.call callee args hasUsers))
    (hlimit : args.length ≤ 256)
    (hreads : ∀ V ∈ operandsOf (.call callee args hasUsers),
      Reads ρ S₁.state S₂.state.state V (operandAt F.body S₁.state.state.pc V))
    (hmain : S₂.state.state.env = S₁.state.state.env ∨ P.NeverCallsMain)
    (h₁ : P.exec F S₁.concrete (.call callee args hasUsers) = some (t₁, as₁))
    (h₂ : P.exec F S₂.concrete (.call callee args hasUsers) = some (t₂, as₂)) :
    StepForks P leftToRight ρ S₁ S₂ t₁ as₁ := by
  obtain ⟨f₁, hf₁, h₁⟩ := Option.bind_eq_some_iff.mp h₁
  obtain ⟨values₁, hvalues₁, h₁⟩ := Option.bind_eq_some_iff.mp h₁
  obtain ⟨f₂, hf₂, h₂⟩ := Option.bind_eq_some_iff.mp h₂
  obtain ⟨values₂, hvalues₂, h₂⟩ := Option.bind_eq_some_iff.mp h₂
  have hmem := List.mem_of_getElem? hF
  have hF₂ : P.functions[S₂.function]? = some F := hS.function ▸ hF
  have hpc : S₂.state.state.pc = S₁.state.state.pc := hS.state.denotes.pc
  have hargs : ∀ V ∈ args, Reads ρ S₁.state S₂.state.state V
      (operandAt F.body S₁.state.state.pc V) := fun V hV ↦ hreads V (List.mem_append_right _ hV)
  obtain ⟨e₁, e₂, hexec₁, hexec₂, hacc, hfork, hcallee⟩ := callee_twins hmem hcall hS.state
    (fun V hV ↦ hreads V.2 (List.mem_append_left _ (List.mem_map_of_mem hV))) hf₁ hf₂
  -- both runs fill the slots with the expressions of the arguments
  let held : List (Held SymExpr) := values₁.zip
    (args.map fun V ↦ (operandAt F.body S₁.state.state.pc V).eval S₁.state.exprs)
  let slots := Adacc.handleFunctionCall held hasUsers S₁.slots
  have hheld : held.map Prod.snd = (args.map (operandAt F.body S₁.state.state.pc)).map
      (·.eval S₁.state.exprs) := by
    rw [List.map_snd_zip (by rw [List.length_map, length_of_mapM hvalues₁]), List.map_map]
    rfl
  have hcode : ∀ {S : SymProgramState SymExpr} {e : List (SymEvent SymExpr)},
      S.state.exprs = S₁.state.exprs → S.slots = S₁.slots →
        execCode (pinningCode F.body S₁.state.state.pc callee.pinned) S.state = some (S.state, e) →
          execInserted leftToRight (codeAt F S₁.state.state.pc (.call callee args hasUsers)) S
            = some ({ S with slots := slots }, e) := by
    intro S e hexprs hslots hexec
    have hset := execInserted_handleFunctionCall leftToRight hasUsers (hexprs ▸ hheld)
    rw [codeAt, List.append_assoc, execInserted_append, execInserted_code, hexec, Option.map_some,
      Option.bind_some, hset, Option.map_some, List.append_nil, hslots]
  obtain ⟨T₁, henter₁, hconcrete⟩ := exists_symEnter (S := { S₁ with slots := slots }) h₁
  obtain ⟨T₂, henter₂, -⟩ := exists_symEnter (S := { S₂ with slots := slots }) h₂
  have hsym₁ : P.symExec F { S₁ with slots := slots } (.call callee args hasUsers)
      = some (T₁, as₁) :=
    Option.bind_eq_some_iff.mpr ⟨f₁, hf₁, Option.bind_eq_some_iff.mpr ⟨_, hvalues₁, henter₁⟩⟩
  have hsym₂ : P.symExec F { S₂ with slots := slots } (.call callee args hasUsers)
      = some (T₂, as₂) :=
    Option.bind_eq_some_iff.mpr ⟨f₂, hf₂, Option.bind_eq_some_iff.mpr ⟨_, hvalues₂, henter₂⟩⟩
  have hrun₁ : P.symStep leftToRight S₁ = some (T₁, e₁ ++ as₁.map .access) := by
    rw [symStep_eq leftToRight hF hcall, hcode rfl rfl hexec₁, Option.bind_some, hsym₁,
      Option.map_some]
  have hrun₂ : P.symStep leftToRight S₂ = some (T₂, e₂ ++ as₂.map .access) := by
    rw [symStep_eq leftToRight hF₂ (hpc ▸ hcall), hpc, hcode hS.state.exprs hS.slots hexec₂,
      Option.bind_some, hsym₂, Option.map_some]
  have has : as₂ = as₁ := by
    obtain ⟨-, -, -, rfl, -⟩ := symEnter_cases henter₁
    obtain ⟨-, -, -, rfl, -⟩ := symEnter_cases henter₂
    rfl
  refine ⟨T₁, _, T₂, _, hrun₁, hrun₂, hconcrete, accesses_append_access hacc as₁,
    ProgramLive.enter (S := { S₁ with slots := slots }) ⟨hlive.state, hlive.callers⟩ hF hcall
      henter₁,
    hfork.append fun _ _ ↦ by rw [has]; exact programForks_access as₁, fun hgood ↦ ?_⟩
  obtain rfl := hcallee (List.forall_mem_append.mp hgood).1
  have hslots : ProgramTwins ρ { S₁ with slots := slots } { S₂ with slots := slots } :=
    ⟨hS.function, hS.state, hS.callers, rfl⟩
  refine hslots.enter henter₁ henter₂ fun G hG hlength n hused ↦
    under_formalExprs hvalues₁ hvalues₂ hlimit hlength hargs (fun hGmain ↦ ?_) hasUsers S₁.slots
      hused
  rcases hmain with henv | hnever
  · replace hvalues₂ : args.mapM (Operand.eval S₂.state.state.env) = some values₂ := hvalues₂
    rw [henv] at hvalues₂
    exact Option.some.inj (hvalues₂.symm.trans hvalues₁)
  · have hnot := hnever f₂ (mem_callees hmem (List.mem_of_getElem? hcall) hf₁) G hG
    exact absurd (hnot.symm.trans hGmain) Bool.false_ne_true

/-- A return, with or without a value. -/
theorem return_forks (leftToRight : Bool) (hS : ProgramTwins ρ S₁ S₂) (hlive : ProgramLive P S₁)
    (hF : P.functions[S₁.function]? = some F) {J : Instruction}
    (hJ : F.code[S₁.state.state.pc]? = some J)
    (hreturn : J = .instr .ret ∨ ∃ V, J = .retValue V)
    (hreads : ∀ V ∈ operandsOf J, Reads ρ S₁.state S₂.state.state V
      (operandAt F.body S₁.state.state.pc V))
    (h₁ : P.exec F S₁.concrete J = some (t₁, as₁)) (h₂ : P.exec F S₂.concrete J = some (t₂, as₂)) :
    StepForks P leftToRight ρ S₁ S₂ t₁ as₁ := by
  have hF₂ : P.functions[S₂.function]? = some F := hS.function ▸ hF
  have hpc : S₂.state.state.pc = S₁.state.state.pc := hS.state.denotes.pc
  rcases hreturn with rfl | ⟨V, rfl⟩
  · obtain ⟨T₁, T₂, hleave₁, hleave₂, hconcrete, hlive', hT⟩ :=
      leave_twins hS hlive h₁ h₂ fun v hv ↦ nomatch hv
    have hcode : codeAt F S₁.state.state.pc (.instr .ret) = [] := rfl
    refine ⟨T₁, [] ++ as₁.map .access, T₂, [] ++ as₁.map .access, ?_, ?_, hconcrete,
      accesses_append_access rfl as₁, hlive', programForks_access as₁, fun _ ↦ hT⟩
    · rw [symStep_eq leftToRight hF hJ, hcode, execInserted, Option.bind_some, Program.symExec,
        hleave₁, Option.map_some]
    · rw [symStep_eq leftToRight hF₂ (hpc ▸ hJ), hpc, hcode, execInserted, Option.bind_some,
        Program.symExec, hleave₂, Option.map_some]
  · obtain ⟨v₁, hv₁, h₁⟩ := Option.bind_eq_some_iff.mp h₁
    obtain ⟨v₂, hv₂, h₂⟩ := Option.bind_eq_some_iff.mp h₂
    replace hv₁ : V.eval S₁.state.state.env = some v₁ := hv₁
    replace hv₂ : V.eval S₂.state.state.env = some v₂ := hv₂
    have hvalue := hreads V List.mem_cons_self
    let slots := S₁.slots.symSetReturnExpression
      ((operandAt F.body S₁.state.state.pc V).eval S₁.state.exprs)
    have hcode : ∀ {S : SymProgramState SymExpr}, S.state.exprs = S₁.state.exprs →
        S.slots = S₁.slots →
          execInserted leftToRight (codeAt F S₁.state.state.pc (.retValue V)) S
            = some ({ S with slots := slots }, []) := by
      intro S hexprs hslots
      rw [codeAt, execInserted, Inserted.exec, hexprs, hslots]
      rfl
    have hslots : ProgramTwins ρ { S₁ with slots := slots } { S₂ with slots := slots } :=
      ⟨hS.function, hS.state, hS.callers, rfl⟩
    obtain ⟨T₁, T₂, hleave₁, hleave₂, hconcrete, hlive', hT⟩ :=
      leave_twins hslots ⟨hlive.state, hlive.callers⟩ h₁ h₂ fun v hv ↦ by
        rw [Reads, hv₁, hv₂, hv] at hvalue
        exact hvalue
    refine ⟨T₁, [] ++ as₁.map .access, T₂, [] ++ as₁.map .access, ?_, ?_, hconcrete,
      accesses_append_access rfl as₁, hlive', programForks_access as₁, fun _ ↦ hT⟩
    · have hsym : P.symExec F { S₁ with slots := slots } (.retValue V) = some (T₁, as₁) :=
        Option.bind_eq_some_iff.mpr ⟨v₁, hv₁, hleave₁⟩
      rw [symStep_eq leftToRight hF hJ, hcode rfl rfl, Option.bind_some, hsym, Option.map_some]
    · have hsym : P.symExec F { S₂ with slots := slots } (.retValue V) = some (T₂, as₁) :=
        Option.bind_eq_some_iff.mpr ⟨v₂, hv₂, hleave₂⟩
      rw [symStep_eq leftToRight hF₂ (hpc ▸ hJ), hpc, hcode hS.state.exprs hS.slots,
        Option.bind_some, hsym, Option.map_some]

/-- A call of a memory intrinsic. -/
theorem intrinsic_forks (leftToRight : Bool) (hS : ProgramTwins ρ S₁ S₂) (hlive : ProgramLive P S₁)
    (hF : P.functions[S₁.function]? = some F) {c : MemIntrinsic}
    (hc : F.code[S₁.state.state.pc]? = some (.intrinsic c))
    (hreads : ∀ V ∈ c.operands, Reads ρ S₁.state S₂.state.state V
      (operandAt F.body S₁.state.state.pc V))
    (h₁ : P.exec F S₁.concrete (.intrinsic c) = some (t₁, as₁))
    (h₂ : P.exec F S₂.concrete (.intrinsic c) = some (t₂, as₂)) :
    StepForks P leftToRight ρ S₁ S₂ t₁ as₁ := by
  have hF₂ : P.functions[S₂.function]? = some F := hS.function ▸ hF
  have hpc : S₂.state.state.pc = S₁.state.state.pc := hS.state.denotes.pc
  obtain ⟨⟨s₁, bs₁⟩, hexec₁, heq⟩ := Option.map_eq_some_iff.mp h₁
  cases heq
  obtain ⟨⟨s₂, bs₂⟩, hexec₂, heq⟩ := Option.map_eq_some_iff.mp h₂
  cases heq
  obtain ⟨T₁, e₁, T₂, e₂, hrun₁, hrun₂, rfl, hexprs, hacc, hfork, htwins⟩ :=
    callForks leftToRight hS.state hreads hexec₁ hexec₂
  have hstep₁ := symStep_intrinsic leftToRight hF hc
  have hstep₂ := symStep_intrinsic leftToRight hF₂ (hpc ▸ hc)
  rw [hrun₁, Option.map_some] at hstep₁
  rw [hrun₂, Option.map_some] at hstep₂
  refine ⟨_, e₁, _, e₂, hstep₁, hstep₂, rfl, hacc, ⟨fun G hG ↦ ?_, hlive.callers⟩,
    programForks_of_callsFork (List.mem_of_getElem? hF) hfork fun hP event hevent ↦ ?_,
    fun hgood ↦ ⟨hS.function, twins_next (htwins hgood), hS.callers, hS.slots⟩⟩
  · exact hexprs ▸ hlive.state G hG
  -- nothing is pushed for concrete operands
  · have hnull := hP F (List.mem_of_getElem? hF) (_, _)
      (List.mk_mem_zipIdx_iff_getElem?.mpr hc)
    rw [symExecCall_eq, execCode_pinningCode_null
      (fun V hV ↦ hnull V.2 (List.mem_map_of_mem hV)), Option.bind_some] at hrun₁
    obtain ⟨pages, -, hrun₁⟩ := Option.bind_eq_some_iff.mp hrun₁
    obtain ⟨⟨s, as⟩, -, heq⟩ := Option.map_eq_some_iff.mp hrun₁
    cases heq
    obtain ⟨a, -, rfl⟩ := List.mem_map.mp hevent
    exact ⟨a, rfl⟩

end Calls

end Twins

end Adacc.Symbolizer.Programs
