import Adacc.Compiler.Completeness
import Adacc.Foundation.ForkingTraces

/-!
# Where two runs of an instrumented function part

Concolic execution rests on one property of the constraints that a run pushes: an input that
satisfies the first of them and violates the next one makes the program follow the run up to there
and then go another way. This file proves it for the instrumentation. Two runs of an instrumented
function on inputs of one length have the same events, up to a constraint that the second input
violates; there the second run pushes the same constraint with the other direction
(`events_fork`).

The constraints that concretise an address have only one direction. Where the second run reads or
writes another address, it pushes an equality with that address instead. Functions whose addresses
have no expressions do not push any (`ConcreteAddresses`).

The invariant is that the two runs are twins: under the second input, the state of the first stands
for the state of the second, and both hold the same expressions. What the inserted code uses of a
value is its expression, or the value itself when there is none; in the second case it is the same
in both runs.
-/

namespace Adacc.Symbolizer

open SmtLib IR Backend TraverseOption Trace

variable {SymExpr : Type}

/-! ## Twins and turns -/

/-- The address operands of an instruction. -/
def addressOperands : Instr → List Operand
  | .load _ addr | .store _ _ addr => [addr]
  | .operation _ _ | .phi _ | .br _ | .condBr _ _ _ | .switch _ _ _ | .ret => []

/-- The pass knows no expression for any address. -/
def ConcreteAddresses (F : IR.Function) : Prop :=
  ∀ p ∈ F.code.zipIdx, ∀ addr ∈ addressOperands p.1, operandAt F p.2 addr = .null

instance (F : IR.Function) : Decidable (ConcreteAddresses F) :=
  inferInstanceAs (Decidable (∀ p ∈ F.code.zipIdx, ∀ addr ∈ addressOperands p.1,
    operandAt F p.2 addr = .null))

variable [Backend SymExpr]

/-- The events at which a run on `ρ` turns away from another one. -/
inductive Turns (F : IR.Function) (ρ : Adacc.Input) : SymEvent SymExpr → SymEvent SymExpr → Prop
  | branch {constraint : SymExpr} {taken : Bool} (h : eval ρ constraint = .bool !taken) :
    Turns F ρ (.pushPathConstraint constraint taken) (.pushPathConstraint constraint !taken)
  | address {destExpr : SymExpr} {a₁ a₂ : UIntPtr} (hF : ¬ConcreteAddresses F) (hne : a₂ ≠ a₁)
    (h : eval ρ destExpr = .bv 64 a₂) :
    Turns F ρ
      (.pushPathConstraint (symBuildCompare .eq destExpr (createValueExpression (.bv 64 a₁))) true)
      (.pushPathConstraint (symBuildCompare .eq destExpr (createValueExpression (.bv 64 a₂))) true)

/-- The events of two runs, the second one on `ρ`. -/
abbrev EventsFork (F : IR.Function) (ρ : Adacc.Input) :
    List (SymEvent SymExpr) → List (SymEvent SymExpr) → Prop :=
  Forks (EventSatisfied ρ) (Turns F ρ)

/-- Under `ρ`, the state of the first run stands for the state of the second, and both hold the same
expressions. -/
structure Twins (ρ : Adacc.Input) (S₁ S₂ : SymState SymExpr) : Prop where
  denotes : Denotes ρ S₁ S₂.state
  exprs : S₂.exprs = S₁.exprs
  pages : S₂.pages = S₁.pages

section Events

variable {F : IR.Function} {ρ : Adacc.Input}

theorem valueSupported_address (a : UIntPtr) : ValueSupported (.bv 64 a) :=
  ⟨by decide, .inl (Nat.le_refl 64)⟩

/-- The value of an assertion about an address. -/
theorem eval_pushAssertion {destExpr : SymExpr} {a₂ : UIntPtr} (h : eval ρ destExpr = .bv 64 a₂)
    (a₁ : UIntPtr) :
    eval ρ (symBuildCompare .eq destExpr (createValueExpression (.bv 64 a₁))) = .bool (a₂ == a₁) :=
  eval_compare ρ .eq destExpr _ 64 a₂ a₁ h
    (eval_createValueExpression ρ (valueSupported_address a₁))

/-- The input of the second run violates what the first run pushes at a fork. -/
theorem Turns.not_satisfied {event event' : SymEvent SymExpr} (h : Turns F ρ event event') :
    ¬EventSatisfied ρ event := by
  cases h with
  | @branch constraint taken h =>
    rw [EventSatisfied, h, Value.bool.injEq]
    exact Bool.not_ne_self taken
  | address hF hne h =>
    rw [EventSatisfied, eval_pushAssertion h, Value.bool.injEq, beq_iff_eq]
    exact hne

/-- What the second run pushes there holds. -/
theorem Turns.satisfied {event event' : SymEvent SymExpr} (h : Turns F ρ event event') :
    EventSatisfied ρ event' := by
  cases h with
  | branch h => exact h
  | address hF hne h => rw [EventSatisfied, eval_pushAssertion h, beq_self_eq_true]

theorem Turns.irrefl {event : SymEvent SymExpr} : ¬Turns F ρ event event :=
  fun h ↦ h.not_satisfied h.satisfied

/-- A constraint that both runs push, with the directions that they take. -/
theorem eventsFork_push (F : IR.Function) {constraint : SymExpr} {b₁ b₂ : Bool}
    (h : eval ρ constraint = .bool b₂) :
    EventsFork F ρ [.pushPathConstraint constraint b₁] [.pushPathConstraint constraint b₂] := by
  by_cases hb : b₂ = b₁
  · subst hb
    exact .same (List.forall_mem_singleton.mpr h)
  · obtain rfl : b₂ = !b₁ := Bool.eq_not.mpr hb
    exact .turn (.branch h) [] []

theorem forks_access (as : List Access) :
    EventsFork F ρ (as.map .access) (as.map (.access : Access → SymEvent SymExpr)) := by
  refine .same fun event hevent ↦ ?_
  obtain ⟨a, -, rfl⟩ := List.mem_map.mp hevent
  trivial

end Events

/-! ## Inserted code -/

section Code

variable {F : IR.Function} {ρ : Adacc.Input} {S₁ S₂ : SymState SymExpr}

/-- Twins pass the same arguments to the runtime library. -/
theorem eval_argumentFor_twins (hexprs : S₂.exprs = S₁.exprs) {i : Input}
    (hreads : Reads ρ S₁ S₂.state i.concreteValue i.symbolicOperand) (n : ℕ) :
    (argumentFor n i).eval S₂ = (argumentFor n i).eval S₁ := by
  have hvalue : i.symbolicOperand.eval S₁.exprs = none →
      i.concreteValue.eval S₂.state.env = i.concreteValue.eval S₁.state.env := fun hnone ↦ by
    rwa [Reads, hnone, under_none] at hreads
  unfold argumentFor
  split
  · next hnull =>
    rw [Argument.eval, Argument.eval, hvalue (by rw [hnull]; rfl)]
  split
  · rw [Argument.eval, Argument.eval, hexprs]
  · rw [Argument.eval, Argument.eval, hexprs]
    split
    · rfl
    · next hnone => rw [hvalue hnone]

/-- A registered computation is skipped by both, or gets the same arguments in both, and these stand
for the operands of the second run. -/
theorem exec_shortCircuit_twins (action : Action) {Vs : List Operand} {ops : Operand → SymOperand}
    (hexprs : S₂.exprs = S₁.exprs) (hreads : ∀ V ∈ Vs, Reads ρ S₁ S₂.state V (ops V))
    (hdefined : ∀ V ∈ Vs, ∃ v, V.eval S₁.state.env = some v)
    (hsupported : (∃ V ∈ Vs, ((ops V).eval S₁.exprs).isSome) → ∀ V ∈ Vs,
      (ops V).eval S₁.exprs = none → ∀ v, V.eval S₁.state.env = some v → ValueSupported v) :
    let c := shortCircuit ⟨action, Vs.map fun V ↦ ⟨V, ops V⟩⟩
    ((∀ V ∈ Vs, (ops V).eval S₁.exprs = none) ∧ c.exec S₁ = some (action.skip S₁, []) ∧
      c.exec S₂ = some (action.skip S₂, [])) ∨
    (∃ V ∈ Vs, ((ops V).eval S₁.exprs).isSome) ∧ ∃ args,
      c.exec S₁ = action.exec S₁ args ∧ c.exec S₂ = action.exec S₂ args ∧
        Vs.mapM (Operand.eval S₂.state.env) = some (args.map (eval ρ)) := by
  intro c
  have hskip : ∀ S : SymState SymExpr, S.exprs = S₁.exprs →
      ((∀ e ∈ c.nullChecks, (e.eval S.exprs).isNone) ↔ ∀ V ∈ Vs, (ops V).eval S₁.exprs = none) := by
    intro S hS
    simp [c, shortCircuit, hS]
  by_cases hnull : ∀ V ∈ Vs, (ops V).eval S₁.exprs = none
  · refine .inl ⟨hnull, ?_, ?_⟩
    · rw [ShortCircuit.exec, if_pos ((hskip S₁ rfl).mpr hnull)]
      rfl
    · rw [ShortCircuit.exec, if_pos ((hskip S₂ hexprs).mpr hnull)]
      rfl
  · have hsome : ∃ V ∈ Vs, ((ops V).eval S₁.exprs).isSome := by
      simpa [Option.ne_none_iff_isSome] using hnull
    have hinputs : ∃ j ∈ Vs.map fun V ↦ (⟨V, ops V⟩ : Input),
        (j.symbolicOperand.eval S₁.exprs).isSome := by
      obtain ⟨V, hV, hV'⟩ := hsome
      exact ⟨⟨V, ops V⟩, List.mem_map_of_mem hV, hV'⟩
    obtain ⟨args, hargs, hvalues⟩ := mapM_map_of_forall (eval ρ)
      (f := fun V ↦ (argumentFor ((Vs.map fun V ↦ (⟨V, ops V⟩ : Input)).countP
        fun i ↦ i.symbolicOperand ≠ .null) ⟨V, ops V⟩).eval S₁)
      (g := Operand.eval S₂.state.env) fun V hV ↦ by
        obtain ⟨v, hv⟩ := hdefined V hV
        exact eval_argumentFor hinputs (List.mem_map_of_mem hV) (hreads V hV) hv
          fun hnone ↦ hsupported hsome V hV hnone v hv
    have hargs₁ : c.arguments.mapM (Argument.eval S₁) = some args := by
      simp only [c, shortCircuit, List.map_map, List.mapM_map]
      exact hargs
    have hargs₂ : c.arguments.mapM (Argument.eval S₂) = some args := by
      rw [← hargs₁]
      refine mapM_congr fun a ha ↦ ?_
      obtain ⟨i, hi, rfl⟩ := List.mem_map.mp ha
      obtain ⟨V, hV, rfl⟩ := List.mem_map.mp hi
      exact eval_argumentFor_twins hexprs (hreads V hV) _
    refine .inr ⟨hsome, args, ?_, ?_, hvalues⟩
    · rw [ShortCircuit.exec, if_neg (mt (hskip S₁ rfl).mp hnull), hargs₁]
      rfl
    · rw [ShortCircuit.exec, if_neg (mt (hskip S₂ hexprs).mp hnull), hargs₂]
      rfl

/-- The same for the code of a visitor, which is left out if no operand has an entry. -/
theorem execCode_computationIfEntry_twins {k : ℕ} (action : Action) {Vs : List Operand}
    (hskip : (∀ V ∈ Vs, getSymbolicExpression (symbolicExpressionsAt F k) V = none) →
      action.skip S₁ = S₁ ∧ action.skip S₂ = S₂)
    (hexprs : S₂.exprs = S₁.exprs) (hreads : ∀ V ∈ Vs, Reads ρ S₁ S₂.state V (operandAt F k V))
    (hdefined : ∀ V ∈ Vs, ∃ v, V.eval S₁.state.env = some v)
    (hsupported : (∃ V ∈ Vs, ((operandAt F k V).eval S₁.exprs).isSome) → ∀ V ∈ Vs,
      (operandAt F k V).eval S₁.exprs = none → ∀ v, V.eval S₁.state.env = some v →
        ValueSupported v) :
    ((∀ V ∈ Vs, (operandAt F k V).eval S₁.exprs = none) ∧
      execCode (computationIfEntry F k action Vs) S₁ = some (action.skip S₁, []) ∧
      execCode (computationIfEntry F k action Vs) S₂ = some (action.skip S₂, [])) ∨
    (∃ V ∈ Vs, ((operandAt F k V).eval S₁.exprs).isSome) ∧ ∃ args,
      execCode (computationIfEntry F k action Vs) S₁ = action.exec S₁ args ∧
        execCode (computationIfEntry F k action Vs) S₂ = action.exec S₂ args ∧
        Vs.mapM (Operand.eval S₂.state.env) = some (args.map (eval ρ)) := by
  rw [computationIfEntry]
  split
  · next hnone =>
    obtain ⟨h₁, h₂⟩ := hskip hnone
    refine .inl ⟨fun V hV ↦ ?_, by rw [h₁]; rfl, by rw [h₂]; rfl⟩
    rw [operandAt_eq_null_of_none (hnone V hV)]
    rfl
  · rw [execCode_singleton, execCode_singleton]
    exact exec_shortCircuit_twins action hexprs hreads hdefined hsupported

/-- The constraint of `tryAlternative` is a fork if the second run uses another address. -/
theorem execCode_pushAssertion_twins {V : Operand} (hexprs : S₂.exprs = S₁.exprs) {k : ℕ}
    (hreads : Reads ρ S₁ S₂.state V (operandAt F k V))
    (hconcrete : ConcreteAddresses F → operandAt F k V = .null) {a₁ a₂ : UIntPtr}
    (h₁ : V.eval S₁.state.env = some (.bv 64 a₁)) (h₂ : V.eval S₂.state.env = some (.bv 64 a₂)) :
    ∃ e₁ e₂, execCode (computationIfEntry F k (.pushAssertion V) [V]) S₁ = some (S₁, e₁) ∧
      execCode (computationIfEntry F k (.pushAssertion V) [V]) S₂ = some (S₂, e₂) ∧
      EventsFork F ρ e₁ e₂ ∧ ((∀ event ∈ e₁, EventSatisfied ρ event) → a₂ = a₁) := by
  rcases execCode_computationIfEntry_twins (.pushAssertion V) (fun _ ↦ ⟨rfl, rfl⟩) hexprs
    (List.forall_mem_singleton.mpr hreads) (List.forall_mem_singleton.mpr ⟨_, h₁⟩)
    (fun _ ↦ List.forall_mem_singleton.mpr fun _ v hv ↦ by
      rw [h₁, Option.some.injEq] at hv
      exact hv ▸ valueSupported_address a₁) with
    ⟨hnull, hexec₁, hexec₂⟩ | ⟨hsome, args, hexec₁, hexec₂, hvalues⟩
  · rw [Reads, hnull V List.mem_cons_self, under_none, h₁, h₂, Option.some.injEq] at hreads
    exact ⟨[], [], hexec₁, hexec₂, .nil, fun _ ↦ Value.bv_inj hreads⟩
  · obtain ⟨e, rfl, he⟩ := eq_singleton_of_mapM h₂ hvalues
    simp only [Action.exec, h₁] at hexec₁
    simp only [Action.exec, h₂] at hexec₂
    have hsymbolic : ¬ConcreteAddresses F := by
      intro hF
      obtain ⟨V', hV', hsome⟩ := hsome
      rw [List.mem_singleton.mp hV', hconcrete hF] at hsome
      cases hsome
    refine ⟨_, _, hexec₁, hexec₂, ?_, fun h ↦ ?_⟩
    · by_cases ha : a₂ = a₁
      · subst ha
        refine .same (List.forall_mem_singleton.mpr ?_)
        rw [EventSatisfied, eval_pushAssertion he, beq_self_eq_true]
      · exact .turn (.address hsymbolic ha he) [] []
    · have hsat := h _ List.mem_cons_self
      rwa [EventSatisfied, eval_pushAssertion he, Value.bool.injEq, beq_iff_eq] at hsat

/-- The constraint of a branch is a fork if the condition is another one. -/
theorem execCode_pushPathConstraint_twins {V : Operand} (hexprs : S₂.exprs = S₁.exprs) {k : ℕ}
    (hreads : Reads ρ S₁ S₂.state V (operandAt F k V)) {b₁ b₂ : Bool}
    (h₁ : V.eval S₁.state.env = some (.bool b₁)) (h₂ : V.eval S₂.state.env = some (.bool b₂)) :
    ∃ e₁ e₂, execCode (computationIfEntry F k (.pushPathConstraint V) [V]) S₁ = some (S₁, e₁) ∧
      execCode (computationIfEntry F k (.pushPathConstraint V) [V]) S₂ = some (S₂, e₂) ∧
      EventsFork F ρ e₁ e₂ := by
  rcases execCode_computationIfEntry_twins (.pushPathConstraint V) (fun _ ↦ ⟨rfl, rfl⟩) hexprs
    (List.forall_mem_singleton.mpr hreads) (List.forall_mem_singleton.mpr ⟨_, h₁⟩)
    (fun _ ↦ List.forall_mem_singleton.mpr fun _ v hv ↦ by
      rw [h₁, Option.some.injEq] at hv
      exact hv ▸ trivial) with ⟨-, hexec₁, hexec₂⟩ | ⟨-, args, hexec₁, hexec₂, hvalues⟩
  · exact ⟨[], [], hexec₁, hexec₂, .nil⟩
  · obtain ⟨e, rfl, he⟩ := eq_singleton_of_mapM h₂ hvalues
    simp only [Action.exec, h₁] at hexec₁
    simp only [Action.exec, h₂] at hexec₂
    exact ⟨_, _, hexec₁, hexec₂, eventsFork_push F he⟩

/-- What is to be shown of inserted code: the events fork, and if there is no fork then the same
expressions are held afterwards. -/
def CodeForks (F : IR.Function) (ρ : Adacc.Input) (S₁ S₂ : SymState SymExpr)
    (code : List (SymCode ShortCircuit)) : Prop :=
  ∃ T₁ e₁ T₂ e₂, execCode code S₁ = some (T₁, e₁) ∧ execCode code S₂ = some (T₂, e₂) ∧
    EventsFork F ρ e₁ e₂ ∧
      ((∀ event ∈ e₁, EventSatisfied ρ event) → T₂.exprs = T₁.exprs ∧ T₂.pages = T₁.pages)

variable (hS : Twins ρ S₁ S₂)

include hS

/-- Twins see the same expressions in memory. -/
theorem Twins.symReadMemory_eq (a : UIntPtr) (length : SizeT) (littleEndian : Bool) :
    symReadMemory S₂.state.mem S₂.pages a length littleEndian
      = symReadMemory S₁.state.mem S₁.pages a length littleEndian := by
  have hbyte : byteExpr S₂.state.mem S₁.pages = byteExpr S₁.state.mem S₁.pages := by
    funext b
    have hb := hS.denotes.mem b
    unfold byteExpr
    rcases hs : shadowAt S₁.pages b with - | e
    · rw [hs, under_none, Option.some.injEq] at hb
      rw [Value.bv_inj hb]
    · rfl
  rw [Adacc.symReadMemory_eq, Adacc.symReadMemory_eq, hS.pages, hbyte]

theorem Twins.setExpr (e : Option SymExpr) :
    (S₂.setExpr e).exprs = (S₁.setExpr e).exprs ∧ (S₂.setExpr e).pages = (S₁.setExpr e).pages := by
  rw [SymState.setExpr, SymState.setExpr, hS.exprs, hS.denotes.pc]
  exact ⟨rfl, hS.pages⟩

variable (hlive : Live F S₁.exprs)

include hlive in
private theorem codeForks_operation {op : Operation} {operands : List Operand}
    (hI : F.code[S₁.state.pc]? = some (.operation op operands))
    (hreads : ∀ V ∈ operands, Reads ρ S₁ S₂.state V (operandAt F S₁.state.pc V))
    (hlimits : WithinLimits F S₁ (.operation op operands)) {t₁ t₂ : State × List Access}
    (h₁ : Instr.exec F S₁.state (.operation op operands) = some t₁)
    (h₂ : Instr.exec F S₂.state (.operation op operands) = some t₂) :
    CodeForks F ρ S₁ S₂ (insertedCode F S₁.state.pc (.operation op operands)) := by
  obtain ⟨v₁, hv₁, -⟩ := Option.map_eq_some_iff.mp h₁
  obtain ⟨vs₁, hvs₁, hv₁⟩ := Option.bind_eq_some_iff.mp hv₁
  obtain ⟨v₂, hv₂, -⟩ := Option.map_eq_some_iff.mp h₂
  obtain ⟨vs₂, hvs₂, hv₂⟩ := Option.bind_eq_some_iff.mp hv₂
  have hskip : (∀ V ∈ operands,
      getSymbolicExpression (symbolicExpressionsAt F S₁.state.pc) V = none) →
      Action.skip S₁ (.build (handler op)) = S₁ ∧ Action.skip S₂ (.build (handler op)) = S₂ := by
    intro hnone
    have hno := (hasExpression_operation_iff hI).not_left.mpr hnone
    have hlive₂ : Live F S₂.exprs := hS.exprs ▸ hlive
    exact ⟨hlive.setExpr_none hno, hlive₂.setExpr_none (hS.denotes.pc ▸ hno)⟩
  have hdefined : ∀ V ∈ operands, ∃ v, V.eval S₁.state.env = some v := fun V hV ↦ by
    obtain ⟨v, -, hv⟩ := exists_of_mapM hvs₁ hV
    exact ⟨v, hv⟩
  have hsupported : (∃ V ∈ operands, ((operandAt F S₁.state.pc V).eval S₁.exprs).isSome) →
      ∀ V ∈ operands, (operandAt F S₁.state.pc V).eval S₁.exprs = none →
        ∀ v, V.eval S₁.state.env = some v → ValueSupported v := by
    rintro hsome V hV hnone v hv
    obtain ⟨a, ha, hVa⟩ := exists_of_mapM hvs₁ hV
    rw [hv, Option.some.injEq] at hVa
    exact hVa ▸ ValueSupported.of_operation ((hlimits hsome).2 ⟨V, hV, hnone⟩) hv₁ a ha
  rcases execCode_computationIfEntry_twins _ hskip hS.exprs hreads hdefined hsupported with
    ⟨-, hexec₁, hexec₂⟩ | ⟨hsome, args, hexec₁, hexec₂, hvalues⟩
  · exact ⟨_, _, _, _, hexec₁, hexec₂, .nil, fun _ ↦ hS.setExpr none⟩
  · rw [hvs₂, Option.some.injEq] at hvalues
    rw [hvalues] at hv₂
    obtain ⟨e, happly, -⟩ := apply_handler (hlimits hsome).1 hv₂
    rw [Action.exec, happly] at hexec₁ hexec₂
    exact ⟨_, _, _, _, hexec₁, hexec₂, .nil, fun _ ↦ hS.setExpr (some e)⟩

omit hS in
/-- Code that comes after `tryAlternative` and does the same in both runs if the addresses are
equal. -/
theorem codeForks_tryAlternative {addr : Operand} {k : ℕ} {c : SymCode ShortCircuit}
    (hexprs : S₂.exprs = S₁.exprs) (hreads : Reads ρ S₁ S₂.state addr (operandAt F k addr))
    (hconcrete : ConcreteAddresses F → operandAt F k addr = .null) {a₁ a₂ : UIntPtr}
    (h₁ : (addr.eval S₁.state.env).bind (bits 64) = some a₁)
    (h₂ : (addr.eval S₂.state.env).bind (bits 64) = some a₂) {T₁ T₂ : SymState SymExpr}
    (hc₁ : c.exec S₁ = some (T₁, [])) (hc₂ : c.exec S₂ = some (T₂, []))
    (hsame : a₂ = a₁ → T₂.exprs = T₁.exprs ∧ T₂.pages = T₁.pages) :
    CodeForks F ρ S₁ S₂ (computationIfEntry F k (.pushAssertion addr) [addr] ++ [c]) := by
  obtain ⟨v₁, hv₁, hbits₁⟩ := Option.bind_eq_some_iff.mp h₁
  obtain ⟨v₂, hv₂, hbits₂⟩ := Option.bind_eq_some_iff.mp h₂
  rw [bits_eq_some_iff] at hbits₁ hbits₂
  obtain ⟨e₁, e₂, hexec₁, hexec₂, hfork, haddr⟩ := execCode_pushAssertion_twins hexprs hreads
    hconcrete (hbits₁ ▸ hv₁) (hbits₂ ▸ hv₂)
  refine ⟨T₁, e₁, T₂, e₂, ?_, ?_, hfork, fun h ↦ hsame (haddr h)⟩
  · rw [execCode_append hexec₁, execCode_singleton, hc₁, Option.map_some, List.append_nil]
  · rw [execCode_append hexec₂, execCode_singleton, hc₂, Option.map_some, List.append_nil]

private theorem codeForks_load {ty : IntTy} {addr : Operand} {k : ℕ}
    (hreads : Reads ρ S₁ S₂.state addr (operandAt F k addr))
    (hconcrete : ConcreteAddresses F → operandAt F k addr = .null)
    {t₁ t₂ : State × List Access} (h₁ : Instr.exec F S₁.state (.load ty addr) = some t₁)
    (h₂ : Instr.exec F S₂.state (.load ty addr) = some t₂) :
    CodeForks F ρ S₁ S₂ (insertedCode F k (.load ty addr)) := by
  obtain ⟨a₁, ha₁, -⟩ := Option.map_eq_some_iff.mp h₁
  obtain ⟨a₂, ha₂, -⟩ := Option.map_eq_some_iff.mp h₂
  refine codeForks_tryAlternative hS.exprs hreads hconcrete ha₁ ha₂
    (by rw [SymCode.exec, ha₁, Option.map_some]) (by rw [SymCode.exec, ha₂, Option.map_some])
    fun haddr ↦ ?_
  rw [haddr, hS.symReadMemory_eq]
  exact hS.setExpr _

private theorem codeForks_store {ty : IntTy} {value addr : Operand} {k : ℕ}
    (hreads : Reads ρ S₁ S₂.state addr (operandAt F k addr))
    (hconcrete : ConcreteAddresses F → operandAt F k addr = .null)
    {t₁ t₂ : State × List Access} (h₁ : Instr.exec F S₁.state (.store ty value addr) = some t₁)
    (h₂ : Instr.exec F S₂.state (.store ty value addr) = some t₂) :
    CodeForks F ρ S₁ S₂ (insertedCode F k (.store ty value addr)) := by
  obtain ⟨a₁, ha₁, -⟩ := Option.bind_eq_some_iff.mp h₁
  obtain ⟨a₂, ha₂, -⟩ := Option.bind_eq_some_iff.mp h₂
  refine codeForks_tryAlternative hS.exprs hreads hconcrete ha₁ ha₂
    (by rw [SymCode.exec, ha₁, Option.map_some]) (by rw [SymCode.exec, ha₂, Option.map_some])
    fun haddr ↦ ?_
  rw [haddr, hS.exprs, hS.pages]
  exact ⟨rfl, rfl⟩

private theorem codeForks_condBr {cond : Operand} {ifTrue ifFalse : Label} {k : ℕ}
    (hreads : Reads ρ S₁ S₂.state cond (operandAt F k cond)) {t₁ t₂ : State × List Access}
    (h₁ : Instr.exec F S₁.state (.condBr cond ifTrue ifFalse) = some t₁)
    (h₂ : Instr.exec F S₂.state (.condBr cond ifTrue ifFalse) = some t₂) :
    CodeForks F ρ S₁ S₂ (insertedCode F k (.condBr cond ifTrue ifFalse)) := by
  obtain ⟨b₁, hb₁, -⟩ := exec_condBr h₁
  obtain ⟨b₂, hb₂, -⟩ := exec_condBr h₂
  obtain ⟨e₁, e₂, hexec₁, hexec₂, hfork⟩ :=
    execCode_pushPathConstraint_twins hS.exprs hreads hb₁ hb₂
  exact ⟨S₁, e₁, S₂, e₂, hexec₁, hexec₂, hfork, fun _ ↦ ⟨hS.exprs, hS.pages⟩⟩

private theorem codeForks_switch {cond : Operand} {default : Label} {cases : List (Value × Label)}
    (hreads : Reads ρ S₁ S₂.state cond (operandAt F S₁.state.pc cond))
    (hlimits : WithinLimits F S₁ (.switch cond default cases)) {t₁ t₂ : State × List Access}
    (h₁ : Instr.exec F S₁.state (.switch cond default cases) = some t₁)
    (h₂ : Instr.exec F S₂.state (.switch cond default cases) = some t₂) :
    CodeForks F ρ S₁ S₂ (insertedCode F S₁.state.pc (.switch cond default cases)) := by
  obtain ⟨v₁, hv₁, -, -⟩ := exec_switch h₁
  obtain ⟨v₂, hv₂, hsort, -⟩ := exec_switch h₂
  rw [insertedCode]
  split
  · exact ⟨S₁, [], S₂, [], rfl, rfl, .nil, fun _ ↦ ⟨hS.exprs, hS.pages⟩⟩
  rcases he : (operandAt F S₁.state.pc cond).eval S₁.exprs with - | e
  · refine ⟨S₁, [], S₂, [], ?_, ?_, .nil, fun _ ↦ ⟨hS.exprs, hS.pages⟩⟩
    · rw [execCode_singleton, SymCode.exec, he]
    · rw [execCode_singleton, SymCode.exec, hS.exprs, he]
  · have hsupported := hlimits (Option.isSome_iff_exists.mpr ⟨e, he⟩)
    rw [Reads, hv₁, hv₂, he, under_some, Option.some.injEq] at hreads
    have hexec : ∀ {S : SymState SymExpr} {v : Value}, S.exprs = S₁.exprs →
        cond.eval S.state.env = some v →
          execCode [.constraints cond (operandAt F S₁.state.pc cond) (cases.map Prod.fst)] S
            = some (S, (cases.map Prod.fst).map fun c ↦ .pushPathConstraint
                (symBuildCompare .eq e (createValueExpression c)) (v = c)) := by
      intro S v hexprs hv
      rw [execCode_singleton, SymCode.exec, hexprs, he, hv]
      rfl
    refine ⟨S₁, _, S₂, _, hexec rfl hv₁, hexec hS.exprs hv₂, .map fun c hc ↦ ?_,
      fun _ ↦ ⟨hS.exprs, hS.pages⟩⟩
    -- every case is asked for in both runs, and answered by the condition of each
    obtain ⟨p, hp, rfl⟩ := List.mem_map.mp hc
    have heval : eval ρ (symBuildCompare .eq e (createValueExpression p.1)) = .bool (v₂ = p.1) := by
      rw [hreads]
      exact eval_symBuildCompare_eq (hsupported p hp) (hreads ▸ hsort p hp)
    by_cases hb : decide (v₂ = p.1) = decide (v₁ = p.1)
    · exact .inl ⟨by rw [hb], by rw [EventSatisfied, heval, hb]⟩
    · rw [Bool.eq_not.mpr hb] at heval ⊢
      exact .inr (.branch heval)

end Code

/-! ## Steps -/

/-- Everything a step of an instrumented function does: the inserted code, the instruction, and the
symbolic PHI nodes after a jump. -/
theorem symStep_cases {F : IR.Function} {S S' : SymState SymExpr} {events : List (SymEvent SymExpr)}
    (h : symStep F S = some (S', events)) :
    ∃ I T before t as, F.code[S.state.pc]? = some I ∧
      execCode (insertedCode F S.state.pc I) S = some (T, before) ∧
      I.exec F S.state = some (t, as) ∧ events = before ++ as.map .access ∧
      S' = { state := t
             exprs :=
              if isTerminator I then
                enterSymbolicPhis T.exprs S.state.block t.block ((runOnFunction F).drop t.block)
                  T.exprs
              else T.exprs
             pages := T.pages } := by
  rw [symStep, runOnFunction_getElem?, Option.bind_map, Option.bind_eq_some_iff] at h
  obtain ⟨I, hI, h⟩ := h
  obtain ⟨⟨T, before⟩, hcode, h⟩ := Option.bind_eq_some_iff.mp h
  obtain ⟨⟨t, as⟩, hexec, heq⟩ := Option.map_eq_some_iff.mp h
  rw [execCode_state hcode] at hexec
  rw [Prod.mk.injEq] at heq
  exact ⟨I, T, before, t, as, hI, hcode, hexec, heq.2.symm, heq.1.symm⟩

/-- What is required of a state of the first run: the limits of the interface, and that no operand
holds an expression that its visit did not know about. -/
def KnownAt (F : IR.Function) (S : SymState SymExpr) : Prop := LimitsAt F S ∧ OrderedAt F S

omit [Backend SymExpr] in
/-- A function whose instructions are within the limits and laid out in order. -/
theorem knownAt_of_forall {F : IR.Function} (hsupported : ∀ I ∈ F.code, InstrSupported I)
    (hlaidOut : LaidOutInOrder F) (S : SymState SymExpr) : KnownAt F S :=
  ⟨limitsAt_of_instrSupported hsupported S, orderedAt_of_laidOutInOrder hlaidOut S⟩

variable {F : IR.Function} {ρ : Adacc.Input} {S₁ S₂ : SymState SymExpr}

/-- The code inserted before the next instruction, in twins. -/
theorem codeForks (hS : Twins ρ S₁ S₂) (hlive : Live F S₁.exprs) (hknown : KnownAt F S₁) {I : Instr}
    (hI : F.code[S₁.state.pc]? = some I) {t₁ t₂ : State × List Access}
    (h₁ : I.exec F S₁.state = some t₁) (h₂ : I.exec F S₂.state = some t₂) :
    CodeForks F ρ S₁ S₂ (insertedCode F S₁.state.pc I) := by
  have hreads : ∀ V ∈ operandsOf I, Reads ρ S₁ S₂.state V (operandAt F S₁.state.pc V) :=
    fun V hV ↦ hS.denotes.reads_operandAt hlive hknown.2 hI hV
  have hconcrete : ConcreteAddresses F → ∀ addr ∈ addressOperands I,
      operandAt F S₁.state.pc addr = .null := fun hF addr haddr ↦
    hF (I, S₁.state.pc) (List.mk_mem_zipIdx_iff_getElem?.mpr hI) addr haddr
  have hlimits := hknown.1 I hI
  rcases I with ⟨op, operands⟩ | ⟨ty, addr⟩ | ⟨ty, value, addr⟩ | incoming | target |
    ⟨cond, ifTrue, ifFalse⟩ | ⟨cond, default, cases⟩ | -
  · exact codeForks_operation hS hlive hI hreads hlimits h₁ h₂
  · exact codeForks_load hS (hreads addr List.mem_cons_self)
      (fun hF ↦ hconcrete hF addr List.mem_cons_self) h₁ h₂
  · have haddr : addr ∈ operandsOf (.store ty value addr) := by simp [operandsOf]
    exact codeForks_store hS (hreads addr haddr)
      (fun hF ↦ hconcrete hF addr List.mem_cons_self) h₁ h₂
  · cases h₁
  · exact ⟨S₁, [], S₂, [], rfl, rfl, .nil, fun _ ↦ ⟨hS.exprs, hS.pages⟩⟩
  · exact codeForks_condBr hS (hreads cond List.mem_cons_self) h₁ h₂
  · exact codeForks_switch hS (hreads cond List.mem_cons_self) hlimits h₁ h₂
  · cases h₁

/-- One step of twins: they stay twins, or the second run turns away. -/
theorem twins_step (hS : Twins ρ S₁ S₂) (hlive : Live F S₁.exprs) (hknown : KnownAt F S₁)
    {S₁' S₂' : SymState SymExpr} {events₁ events₂ : List (SymEvent SymExpr)}
    (h₁ : symStep F S₁ = some (S₁', events₁)) (h₂ : symStep F S₂ = some (S₂', events₂)) :
    EventsFork F ρ events₁ events₂ ∧
      ((∀ event ∈ events₁, EventSatisfied ρ event) → Twins ρ S₁' S₂' ∧ Live F S₁'.exprs) := by
  obtain ⟨I, T₁, before₁, t₁, as₁, hI, hcode₁, hexec₁, rfl, rfl⟩ := symStep_cases h₁
  obtain ⟨I₂, T₂, before₂, t₂, as₂, hI₂, hcode₂, hexec₂, rfl, rfl⟩ := symStep_cases h₂
  rw [hS.denotes.pc] at hI₂ hcode₂
  obtain rfl : I = I₂ := Option.some.inj (hI.symm.trans hI₂)
  obtain ⟨T₁', e₁, T₂', e₂, hcode₁', hcode₂', hfork, hsame⟩ :=
    codeForks hS hlive hknown hI hexec₁ hexec₂
  cases hcode₁.symm.trans hcode₁'
  cases hcode₂.symm.trans hcode₂'
  -- `follows` for the state of the second run
  obtain ⟨S', events, hfollows⟩ := follows hS.denotes hlive
    (fun I hI V hV ↦ hS.denotes.reads_operandAt hlive hknown.2 hI hV) hknown.1
    (by rw [IR.Function.step, hI]; exact hexec₁)
    (by rw [IR.Function.step, hS.denotes.pc, hI]; exact hexec₂)
  cases h₁.symm.trans hfollows.step
  have hdenotes := fun h ↦ hfollows.denotes (satisfied_iff_forall.mpr h)
  have hsat : (∀ event ∈ before₁, EventSatisfied ρ event) →
      ∀ event ∈ before₁ ++ as₁.map .access, EventSatisfied ρ event := fun h ↦ by
    rw [List.forall_mem_append]
    refine ⟨h, fun event hevent ↦ ?_⟩
    obtain ⟨a, -, rfl⟩ := List.mem_map.mp hevent
    trivial
  refine ⟨hfork.append fun _ h ↦ ?_, fun h ↦ ⟨⟨(hdenotes h).1, ?_, ?_⟩, hfollows.live⟩⟩
  · rw [(hdenotes (hsat h)).2]
    exact forks_access as₁
  all_goals obtain ⟨hexprs, hpages⟩ := hsame (List.forall_mem_append.mp h).1
  · dsimp only
    rw [hexprs, hS.denotes.block, (hdenotes h).1.block]
  · exact hpages

/-! ## Runs -/

theorem twins_symStart (args : ℕ → Option Value) (placements : List Placement)
    (ρ₁ ρ₂ : Adacc.Input) (mem : UIntPtr → BitVec 8) :
    Twins ρ₂ (symStart args placements ρ₁ mem : SymState SymExpr)
      (symStart args placements ρ₂ mem) :=
  ⟨denotes_symStart args placements ρ₂ ρ₁ mem, rfl, rfl⟩

/-- Runs of one length from twins. -/
theorem Twins.steps_fork (hS : Twins ρ S₁ S₂) (hlive : Live F S₁.exprs) {n : ℕ}
    (halong : Machine.StepsAlong (symStep F) (KnownAt F) n S₁) {S₁' S₂' : SymState SymExpr}
    {events₁ events₂ : List (SymEvent SymExpr)}
    (h₁ : Machine.steps (symStep F) n S₁ = some (S₁', events₁))
    (h₂ : Machine.steps (symStep F) n S₂ = some (S₂', events₂)) :
    EventsFork F ρ events₁ events₂ ∧ (Satisfied ρ events₁ → Twins ρ S₁' S₂') := by
  have hrun : EventsFork F ρ events₁ events₂ ∧
      ((∀ event ∈ events₁, EventSatisfied ρ event) → Twins ρ S₁' S₂' ∧ Live F S₁'.exprs) :=
    steps_forks (R := fun S₁ S₂ ↦ Twins ρ S₁ S₂ ∧ Live F S₁.exprs)
      (fun ⟨hS, hlive⟩ hknown ↦ twins_step hS hlive hknown) ⟨hS, hlive⟩ halong h₁ h₂
  exact ⟨hrun.1, fun h ↦ (hrun.2 (satisfied_iff_forall.mp h)).1⟩

theorem live_symStart (F : IR.Function) (args : ℕ → Option Value) (placements : List Placement)
    (ρ : Adacc.Input) (mem : UIntPtr → BitVec 8) :
    Live F (symStart args placements ρ mem : SymState SymExpr).exprs :=
  fun _ _ ↦ rfl

/-- Whatever a run pushes holds for its own input. -/
theorem satisfied_of_steps {args : ℕ → Option Value} {placements : List Placement}
    {mem : UIntPtr → BitVec 8} {n : ℕ}
    (halong : Machine.StepsAlong (symStep F) (KnownAt F) n
      (symStart args placements ρ mem : SymState SymExpr))
    {S : SymState SymExpr} {events : List (SymEvent SymExpr)}
    (h : Machine.steps (symStep F) n (symStart args placements ρ mem) = some (S, events)) :
    ∀ event ∈ events, EventSatisfied ρ event :=
  ((twins_symStart args placements ρ ρ mem).steps_fork (live_symStart F args placements ρ mem)
    halong h h).1.good_of_self Turns.irrefl

/-- Two runs of one length part where the second input first violates a constraint of the first run,
and there the second run goes the other way. Without such a constraint they hold the same
expressions in the end. -/
theorem events_fork (F : IR.Function) (args : ℕ → Option Value) (placements : List Placement)
    (ρ₁ ρ₂ : Adacc.Input) (mem : UIntPtr → BitVec 8) {n : ℕ}
    (halong : Machine.StepsAlong (symStep F) (KnownAt F) n
      (symStart args placements ρ₁ mem : SymState SymExpr))
    {S₁ S₂ : SymState SymExpr} {events₁ events₂ : List (SymEvent SymExpr)}
    (h₁ : Machine.steps (symStep F) n (symStart args placements ρ₁ mem) = some (S₁, events₁))
    (h₂ : Machine.steps (symStep F) n (symStart args placements ρ₂ mem) = some (S₂, events₂)) :
    EventsFork F ρ₂ events₁ events₂ ∧ (Satisfied ρ₂ events₁ → Twins ρ₂ S₁ S₂) :=
  (twins_symStart args placements ρ₁ ρ₂ mem).steps_fork (live_symStart F args placements ρ₁ mem)
    halong h₁ h₂

/-- On the input 9 the branch of `storeIfLess` goes the other way than on 0. -/
theorem events_fork_storeIfLess :
    ∃ (S₁ S₂ : SymState Z3Ast) (events₁ events₂ : List (SymEvent Z3Ast)),
      Machine.steps (symStep storeIfLess) 3
          (symStart (fun _ ↦ none) [⟨16, 0, 1⟩] (fun _ ↦ 0) fun _ ↦ 0) = some (S₁, events₁) ∧
        Machine.steps (symStep storeIfLess) 3
          (symStart (fun _ ↦ none) [⟨16, 0, 1⟩] (fun _ ↦ 9) fun _ ↦ 0) = some (S₂, events₂) ∧
        EventsFork storeIfLess (fun _ ↦ 9) events₁ events₂ ∧
          (Satisfied (fun _ ↦ 9) events₁ → Twins (fun _ ↦ 9) S₁ S₂) := by
  have hdefined : ∀ b ∈ [0, 9], (Machine.steps (symStep storeIfLess) 3
      (symStart (fun _ ↦ none) [⟨16, 0, 1⟩] (fun _ ↦ b) (fun _ ↦ 0) : SymState Z3Ast)).isSome := by
    decide +kernel
  obtain ⟨⟨S₁, events₁⟩, h₁⟩ := Option.isSome_iff_exists.mp (hdefined 0 (by decide))
  obtain ⟨⟨S₂, events₂⟩, h₂⟩ := Option.isSome_iff_exists.mp (hdefined 9 (by decide))
  exact ⟨S₁, S₂, events₁, events₂, h₁, h₂, events_fork storeIfLess _ _ _ _ _
    (Machine.StepsAlong.of_forall (knownAt_of_forall (by decide) (by decide)) 3 _) h₁ h₂⟩

end Adacc.Symbolizer
