import Adacc.Compiler.ProgramRuns

/-!
# Soundness of instrumented programs

The two main results about instrumented functions hold for whole programs, with calls in any
nesting, recursion, function pointers and memory intrinsics.

* The instrumented program follows the program, in runs of any length. At every point the
  expressions that are held evaluate to what is there under the input of the run, in the running
  function and in all functions that wait for the end of a call, and every constraint that has been
  pushed holds (`program_sound`).
* The runs on two inputs fork where the second input first violates what the first run has pushed
  (`program_fork`).

The limits are those of the interface; that a call has at most 256 arguments is one of them, because
the slots have numbers of eight bits. For two runs, values have to be laid out before their uses,
and `main`, which takes no expressions, must not be called.
-/

namespace Adacc.Symbolizer.Programs

open SmtLib IR Backend Trace

variable {SymExpr : Type} [Backend SymExpr]

/-! ## The program itself -/

section Concrete

variable {P : Program} {F : Function} {S T : SymProgramState SymExpr} {leftToRight : Bool}
  {events : List (SymEvent SymExpr)} {as : List Access}

omit [Backend SymExpr] in
theorem exec_instr (P : Program) (F : Function) (s : ProgramState) {I : Instr} (hret : I ≠ .ret) :
    P.exec F s (.instr I)
      = (I.exec F.body s.state).map fun after ↦ ({ s with state := after.1 }, after.2) := by
  cases I with
  | ret => exact absurd rfl hret
  | _ => rfl

theorem Inserted.exec_concrete {c : Inserted ShortCircuit}
    (h : c.exec leftToRight S = some (T, events)) : T.concrete = S.concrete := by
  cases c with
  | code c =>
    obtain ⟨⟨U, e⟩, hc, heq⟩ := Option.map_eq_some_iff.mp h
    cases heq
    rw [SymProgramState.concrete, SymProgramState.concrete, SymCode.exec_state hc]
  | memory call =>
    obtain ⟨pages, -, heq⟩ := Option.map_eq_some_iff.mp h
    cases heq
    rfl
  | setParameterExpression index expr =>
    cases h
    rfl
  | setReturnExpression expr =>
    cases h
    rfl

/-- Inserted code leaves the program alone. -/
theorem execInserted_concrete {code : List (Inserted ShortCircuit)}
    (h : execInserted leftToRight code S = some (T, events)) : T.concrete = S.concrete := by
  induction code generalizing S events with
  | nil =>
    cases h
    rfl
  | cons c code ih =>
    obtain ⟨⟨U, e⟩, hc, h⟩ := Option.bind_eq_some_iff.mp h
    obtain ⟨⟨V, e'⟩, hcode, heq⟩ := Option.map_eq_some_iff.mp h
    cases heq
    exact (ih hcode).trans (Inserted.exec_concrete hc)

omit [Backend SymExpr] in
theorem leave_concrete {value : Option Value} (h : S.leave value = some (T, as)) :
    S.concrete.leave value = some (T.concrete, as) := by
  obtain ⟨f, S, callers, slots⟩ := S
  rcases callers with - | ⟨c, callers⟩
  · cases h
  simp only [SymProgramState.leave] at h
  simp only [ProgramState.leave, SymProgramState.concrete, List.map_cons]
  cases husers : c.frame.hasUsers with
  | false =>
    rw [husers, if_neg Bool.false_ne_true] at h
    cases h
    rfl
  | true =>
    rw [husers, if_pos rfl] at h
    obtain ⟨v, rfl, h⟩ := Option.map_eq_some_iff.mp h
    cases h
    rfl

omit [Backend SymExpr] in
theorem symExec_concrete {J : Instruction} (h : P.symExec F S J = some (T, as)) :
    P.exec F S.concrete J = some (T.concrete, as) := by
  cases J with
  | instr I =>
    by_cases hret : I = .ret
    · subst hret
      exact leave_concrete h
    · have hexec : ∃ t, I.exec F.body S.state.state = some (t, as) ∧
          T.concrete = { S.concrete with state := t } := by
        cases I with
        | ret => exact absurd rfl hret
        | phi incoming => cases h
        | _ =>
          obtain ⟨⟨t, bs⟩, ht, heq⟩ := Option.map_eq_some_iff.mp h
          cases heq
          exact ⟨t, ht, rfl⟩
      obtain ⟨t, ht, hconcrete⟩ := hexec
      rw [exec_instr P F S.concrete hret, hconcrete]
      exact Option.map_eq_some_iff.mpr ⟨_, ht, rfl⟩
  | intrinsic c =>
    obtain ⟨⟨t, bs⟩, ht, heq⟩ := Option.map_eq_some_iff.mp h
    cases heq
    exact Option.map_eq_some_iff.mpr ⟨_, ht, rfl⟩
  | call callee args hasUsers =>
    obtain ⟨f, hf, h⟩ := Option.bind_eq_some_iff.mp h
    obtain ⟨values, hvalues, h⟩ := Option.bind_eq_some_iff.mp h
    obtain ⟨G, hG, hlength, rfl, rfl⟩ := symEnter_cases h
    exact Option.bind_eq_some_iff.mpr ⟨f, hf, Option.bind_eq_some_iff.mpr ⟨values, hvalues,
      Option.bind_eq_some_iff.mpr ⟨G, hG, Option.ite_none_right_eq_some.mpr ⟨hlength, rfl⟩⟩⟩⟩
  | retValue V =>
    obtain ⟨v, hv, h⟩ := Option.bind_eq_some_iff.mp h
    exact Option.bind_eq_some_iff.mpr ⟨v, hv, leave_concrete h⟩

/-- Where the instrumented program takes a step, so does the program itself. -/
theorem symStep_concrete (h : P.symStep leftToRight S = some (T, events)) :
    ∃ F J as, P.functions[S.function]? = some F ∧ F.code[S.state.state.pc]? = some J ∧
      P.exec F S.concrete J = some (T.concrete, as) := by
  obtain ⟨F, hF, h⟩ := Option.bind_eq_some_iff.mp h
  rw [runOnFunction_getElem?, Option.bind_map, Option.bind_eq_some_iff] at h
  obtain ⟨J, hJ, h⟩ := h
  obtain ⟨⟨U, before⟩, hcode, h⟩ := Option.bind_eq_some_iff.mp h
  obtain ⟨⟨V, as⟩, hexec, heq⟩ := Option.map_eq_some_iff.mp h
  cases heq
  exact ⟨F, J, as, hF, hJ, execInserted_concrete hcode ▸ symExec_concrete hexec⟩

end Concrete

/-! ## Bodies -/

section Body

variable {P : Program} {F : Function}

private theorem instrSupported_body (hP : P.Supported) (hF : F ∈ P.functions) :
    ∀ I ∈ F.body.code, InstrSupported I := by
  intro I hI
  obtain ⟨J, hJ, rfl⟩ := List.mem_map.mp hI
  have hsupported := hP F hF J hJ
  rcases J with I | c | ⟨callee, args, - | -⟩ | V
  · exact hsupported
  all_goals trivial

/-- In the body, calls have constant operands. -/
theorem mem_operandsOf_inBody {J : Instruction} {V : Operand}
    (hV : V ∈ Symbolizer.operandsOf J.inBody) : V ∈ operandsOf J ∨ ∃ v, V = .const v := by
  rcases J with I | c | ⟨callee, args, - | -⟩ | W
  · exact .inl hV
  all_goals
    right
    simp only [Instruction.inBody, Symbolizer.operandsOf, List.mem_cons, List.not_mem_nil,
      or_false] at hV
  · rcases hV with rfl | rfl <;> exact ⟨_, rfl⟩
  · rcases hV with rfl | rfl <;> exact ⟨_, rfl⟩
  · exact ⟨_, hV⟩

private theorem laidOutInOrder_body (hP : P.LaidOut) (hF : F ∈ P.functions) :
    LaidOutInOrder F.body := by
  rintro ⟨I, k⟩ hI V hV
  rw [List.mk_mem_zipIdx_iff_getElem?, body_code_getElem?, Option.map_eq_some_iff] at hI
  obtain ⟨J, hJ, rfl⟩ := hI
  rcases mem_operandsOf_inBody hV with hV | ⟨v, rfl⟩
  · exact hP F hF (J, k) (List.mk_mem_zipIdx_iff_getElem?.mpr hJ) V hV
  · trivial

end Body

/-! ## One step -/

section Step

variable {P : Program} {F : Function} {ρ : Adacc.Input} {S S₁ S₂ T₁ T₂ : SymProgramState SymExpr}
  {t t₁ t₂ : ProgramState} {as as₁ as₂ : List Access} {leftToRight : Bool}

/-- The instruction is one of the fragment, and no return. -/
def InFragment (J : Instruction) : Prop := ∃ I, J = .instr I ∧ I ≠ .ret

/-- The other instructions, in twins. -/
theorem step_forks (leftToRight : Bool) (hS : ProgramTwins ρ S₁ S₂) (hlive : ProgramLive P S₁)
    (hF : P.functions[S₁.function]? = some F) {J : Instruction}
    (hJ : F.code[S₁.state.state.pc]? = some J) (hfragment : ¬InFragment J)
    (hsupported : Supported J)
    (hreads : ∀ V ∈ operandsOf J, Reads ρ S₁.state S₂.state.state V
      (operandAt F.body S₁.state.state.pc V))
    (hmain : S₂.state.state.env = S₁.state.state.env ∨ P.NeverCallsMain)
    (h₁ : P.exec F S₁.concrete J = some (t₁, as₁)) (h₂ : P.exec F S₂.concrete J = some (t₂, as₂)) :
    StepForks P leftToRight ρ S₁ S₂ t₁ as₁ := by
  cases J with
  | instr I =>
    have hret : I = .ret := by
      by_contra hret
      exact hfragment ⟨I, rfl, hret⟩
    subst hret
    exact return_forks leftToRight hS hlive hF hJ (.inl rfl) hreads h₁ h₂
  | intrinsic c => exact intrinsic_forks leftToRight hS hlive hF hJ hreads h₁ h₂
  | call callee args hasUsers =>
    exact call_forks leftToRight hS hlive hF hJ hsupported hreads hmain h₁ h₂
  | retValue V => exact return_forks leftToRight hS hlive hF hJ (.inr ⟨V, rfl⟩) hreads h₁ h₂

/-- One step of the run itself. -/
theorem symStep_sound (leftToRight : Bool) (hP : P.Supported) (hS : ProgramTwins ρ S S)
    (hlive : ProgramLive P S) (h : P.step S.concrete = some (t, as)) :
    ∃ T events, P.symStep leftToRight S = some (T, events) ∧ T.concrete = t ∧
      ProgramTwins ρ T T ∧ ProgramLive P T ∧ accesses events = as ∧ Satisfied ρ events := by
  obtain ⟨F, hF, h⟩ := Option.bind_eq_some_iff.mp h
  obtain ⟨J, hJ, h⟩ := Option.bind_eq_some_iff.mp h
  replace hF : P.functions[S.function]? = some F := hF
  replace hJ : F.code[S.state.state.pc]? = some J := hJ
  have hmem := List.mem_of_getElem? hF
  have hreads : ∀ V, Reads ρ S.state S.state.state V (operandAt F.body S.state.state.pc V) :=
    fun V ↦ hS.state.denotes.reads_self (operandAt_cases F.body S.state.state.pc V)
  by_cases hfragment : InFragment J
  · obtain ⟨I, rfl, hret⟩ := hfragment
    rw [exec_instr P F S.concrete hret] at h
    obtain ⟨⟨t', bs⟩, ht, heq⟩ := Option.map_eq_some_iff.mp h
    cases heq
    have hbody : F.body.step S.state.state = some (t', bs) := by
      rw [IR.Function.step, body_code_getElem?, hJ]
      exact ht
    obtain ⟨S', events, hfollows⟩ := follows hS.state.denotes (hlive.state F hF)
      (fun _ _ V _ ↦ hreads V) (limitsAt_of_instrSupported (instrSupported_body hP hmem) S.state)
      hbody hbody
    have hsat := hfollows.satisfied rfl
    have hS' := (hfollows.denotes hsat).1
    rw [← hfollows.state] at hS'
    refine ⟨{ S with state := S' }, events, ?_, ?_, ⟨rfl, ⟨hS', rfl, rfl⟩, hS.callers, rfl⟩,
      ⟨fun G hG ↦ ?_, hlive.callers⟩, hfollows.accesses, hsat⟩
    · rw [symStep_instr leftToRight hF hJ hret, hfollows.step, Option.map_some]
    · rw [SymProgramState.concrete, hfollows.state]
      rfl
    · cases hF.symm.trans hG
      exact hfollows.live
  · obtain ⟨T, e, T', e', hrun, hrun', hconcrete, hacc, hlive', hfork, htwins⟩ :=
      step_forks leftToRight hS hlive hF hJ hfragment (hP F hmem J (List.mem_of_getElem? hJ))
        (fun V _ ↦ hreads V) (.inl rfl) h h
    -- a run does not fork from itself
    cases hrun.symm.trans hrun'
    have hgood := hfork.good_of_self ProgramTurns.irrefl
    exact ⟨T, e, hrun, hconcrete, htwins hgood, hlive', hacc, satisfied_iff_forall.mpr hgood⟩

/-- One step of twins: they stay twins, or the second run turns away. -/
theorem programTwins_step (hP : P.Supported) (hlaidOut : P.LaidOut) (hmain : P.NeverCallsMain)
    (hS : ProgramTwins ρ S₁ S₂) (hlive : ProgramLive P S₁)
    {events₁ events₂ : List (SymEvent SymExpr)}
    (h₁ : P.symStep leftToRight S₁ = some (T₁, events₁))
    (h₂ : P.symStep leftToRight S₂ = some (T₂, events₂)) :
    ProgramForks P ρ events₁ events₂ ∧
      ((∀ event ∈ events₁, EventSatisfied ρ event) → ProgramTwins ρ T₁ T₂ ∧ ProgramLive P T₁) := by
  obtain ⟨F, J, as₁, hF, hJ, hexec₁⟩ := symStep_concrete h₁
  obtain ⟨F₂, J₂, as₂, hF₂, hJ₂, hexec₂⟩ := symStep_concrete h₂
  have hpc : S₂.state.state.pc = S₁.state.state.pc := hS.state.denotes.pc
  obtain rfl : F₂ = F := Option.some.inj ((hS.function ▸ hF₂).symm.trans hF)
  obtain rfl : J₂ = J := Option.some.inj ((hpc ▸ hJ₂).symm.trans hJ)
  have hmem := List.mem_of_getElem? hF
  by_cases hfragment : InFragment J₂
  · obtain ⟨I, rfl, hret⟩ := hfragment
    rw [symStep_instr leftToRight hF hJ hret] at h₁
    rw [symStep_instr leftToRight hF₂ hJ₂ hret] at h₂
    obtain ⟨⟨S₁', e₁⟩, hstep₁, heq⟩ := Option.map_eq_some_iff.mp h₁
    cases heq
    obtain ⟨⟨S₂', e₂⟩, hstep₂, heq⟩ := Option.map_eq_some_iff.mp h₂
    cases heq
    obtain ⟨hfork, htwins⟩ := twins_step hS.state (hlive.state F₂ hF)
      (knownAt_of_forall (instrSupported_body hP hmem) (laidOutInOrder_body hlaidOut hmem) _)
      hstep₁ hstep₂
    refine ⟨hfork.mono (.of_turns hmem), fun hgood ↦ ?_⟩
    obtain ⟨hS', hlive'⟩ := htwins hgood
    refine ⟨⟨hS.function, hS', hS.callers, hS.slots⟩, fun G hG ↦ ?_, hlive.callers⟩
    cases hF.symm.trans hG
    exact hlive'
  · have hreads : ∀ V ∈ operandsOf J₂, Reads ρ S₁.state S₂.state.state V
        (operandAt F₂.body S₁.state.state.pc V) := by
      intro V hV
      have hk : S₁.state.state.pc ≤ F₂.body.code.length := by
        rw [Function.body, List.length_map]
        exact (List.getElem?_eq_some_iff.mp hJ).1.le
      exact hS.state.denotes.reads_of_availableBefore (hlive.state F₂ hF) hk
        (hlaidOut F₂ hmem (J₂, _) (List.mk_mem_zipIdx_iff_getElem?.mpr hJ) V hV)
    obtain ⟨T, e, T', e', hrun, hrun', -, -, hlive', hfork, htwins⟩ :=
      step_forks leftToRight hS hlive hF hJ hfragment
        (hP F₂ hmem J₂ (List.mem_of_getElem? hJ)) hreads (.inr hmain) hexec₁ hexec₂
    cases h₁.symm.trans hrun
    cases h₂.symm.trans hrun'
    exact ⟨hfork, fun hgood ↦ ⟨htwins hgood, hlive'⟩⟩

end Step

/-! ## Runs -/

/-- What is held for values and bytes evaluates to them, in all functions. -/
structure ProgramSound (ρ : Adacc.Input) (S : SymProgramState SymExpr) : Prop where
  state : Sound ρ S.state
  callers : ∀ c ∈ S.callers, ∀ id e, c.exprs id = some e → c.frame.env id = some (eval ρ e)

theorem ProgramTwins.sound {ρ : Adacc.Input} {S : SymProgramState SymExpr}
    (h : ProgramTwins ρ S S) : ProgramSound ρ S where
  state := h.state.denotes.sound
  callers c hc id e he := by
    have hid := (List.forall₂_same.mp h.callers c hc).env id
    rwa [he, under_some] at hid

section Runs

variable (P : Program) (leftToRight : Bool) (args : ℕ → Option Value) (placements : List Placement)
  (mem : UIntPtr → BitVec 8)

theorem programTwins_symStart (ρ₁ ρ₂ : Adacc.Input) :
    ProgramTwins ρ₂ (P.symStart args placements ρ₁ mem : SymProgramState SymExpr)
      (P.symStart args placements ρ₂ mem) :=
  ⟨rfl, twins_symStart args placements ρ₁ ρ₂ mem, .nil, rfl⟩

theorem programLive_symStart (ρ : Adacc.Input) :
    ProgramLive P (P.symStart args placements ρ mem : SymProgramState SymExpr) :=
  ⟨fun F _ ↦ live_symStart F.body args placements ρ mem,
    fun _ hc ↦ absurd hc List.not_mem_nil⟩

/-- The run of an instrumented program follows the run of the program. -/
theorem exists_symSteps {S : SymProgramState SymExpr} {ρ : Adacc.Input} (hP : P.Supported)
    (hS : ProgramTwins ρ S S) (hlive : ProgramLive P S) {n : ℕ} {s : ProgramState}
    {as : List Access} (h : Machine.steps P.step n S.concrete = some (s, as)) :
    ∃ (T : SymProgramState SymExpr) (events : List (SymEvent SymExpr)),
      Machine.steps (P.symStep leftToRight) n S = some (T, events) ∧ T.concrete = s ∧
        accesses events = as ∧ ProgramTwins ρ T T ∧ Satisfied ρ events := by
  have halong : Machine.StepsAlong (P.symStep leftToRight) (fun _ ↦ True) n S :=
    Machine.StepsAlong.of_forall (fun _ ↦ trivial) n S
  obtain ⟨T, events, hsteps, ⟨hconcrete, hT, -⟩, hacc, hsat⟩ := Machine.steps_simulate
    (R := fun s S ↦ S.concrete = s ∧ ProgramTwins ρ S S ∧ ProgramLive P S)
    (Q := fun as events ↦ accesses events = as ∧ Satisfied ρ events)
    ⟨rfl, satisfied_nil ρ⟩
    (fun ⟨hacc₁, hsat₁⟩ ⟨hacc₂, hsat₂⟩ ↦
      ⟨by rw [accesses_append, hacc₁, hacc₂], satisfied_append.mpr ⟨hsat₁, hsat₂⟩⟩)
    (fun {s S s' o} ⟨hconcrete, hS, hlive⟩ _ hstep ↦ by
      subst hconcrete
      obtain ⟨T, events, hT, hconcrete, hT', hlive', hacc, hsat⟩ :=
        symStep_sound leftToRight hP hS hlive hstep
      exact ⟨T, events, hT, ⟨hconcrete, hT', hlive'⟩, hacc, hsat⟩)
    ⟨rfl, hS, hlive⟩ halong h
  exact ⟨T, events, hsteps, hconcrete, hacc, hT, hsat⟩

/-- A program is followed by its instrumentation, which holds sound expressions in all functions and
pushes only what is true of the input. -/
theorem program_sound (ρ : Adacc.Input) (hP : P.Supported) {n : ℕ} {s : ProgramState}
    {as : List Access}
    (h : Machine.steps P.step n (P.start args (placeInput ρ placements mem)) = some (s, as)) :
    ∃ (S : SymProgramState SymExpr) (events : List (SymEvent SymExpr)),
      Machine.steps (P.symStep leftToRight) n (P.symStart args placements ρ mem)
          = some (S, events) ∧
        S.concrete = s ∧ accesses events = as ∧ ProgramSound ρ S ∧ Satisfied ρ events := by
  have hstart : ProgramTwins ρ (P.symStart args placements ρ mem : SymProgramState SymExpr)
      (P.symStart args placements ρ mem) := programTwins_symStart P args placements mem ρ ρ
  obtain ⟨S, events, hsteps, hconcrete, hacc, hS, hsat⟩ := exists_symSteps P leftToRight hP
    hstart (programLive_symStart P args placements mem ρ) h
  exact ⟨S, events, hsteps, hconcrete, hacc, hS.sound, hsat⟩

/-- The runs of a program on two inputs fork where the second input first violates a constraint of
the first run. Without such a constraint they are in the same functions in the end, and hold the
same expressions. -/
theorem program_fork (ρ₁ ρ₂ : Adacc.Input) (hP : P.Supported) (hlaidOut : P.LaidOut)
    (hmain : P.NeverCallsMain) {n : ℕ} {S₁ S₂ : SymProgramState SymExpr}
    {events₁ events₂ : List (SymEvent SymExpr)}
    (h₁ : Machine.steps (P.symStep leftToRight) n (P.symStart args placements ρ₁ mem)
      = some (S₁, events₁))
    (h₂ : Machine.steps (P.symStep leftToRight) n (P.symStart args placements ρ₂ mem)
      = some (S₂, events₂)) :
    ProgramForks P ρ₂ events₁ events₂ ∧ (Satisfied ρ₂ events₁ → ProgramTwins ρ₂ S₁ S₂) := by
  have halong : Machine.StepsAlong (P.symStep leftToRight) (fun _ ↦ True) n
      (P.symStart args placements ρ₁ mem : SymProgramState SymExpr) :=
    Machine.StepsAlong.of_forall (fun _ ↦ trivial) n _
  have hrun : ProgramForks P ρ₂ events₁ events₂ ∧
      ((∀ event ∈ events₁, EventSatisfied ρ₂ event) →
        ProgramTwins ρ₂ S₁ S₂ ∧ ProgramLive P S₁) :=
    steps_forks (R := fun S₁ S₂ ↦ ProgramTwins ρ₂ S₁ S₂ ∧ ProgramLive P S₁)
      (fun ⟨hS, hlive⟩ _ ↦ programTwins_step hP hlaidOut hmain hS hlive)
      ⟨programTwins_symStart P args placements mem ρ₁ ρ₂,
        programLive_symStart P args placements mem ρ₁⟩ halong h₁ h₂
  exact ⟨hrun.1, fun h ↦ (hrun.2 (satisfied_iff_forall.mp h)).1⟩

end Runs

/-- `main` calls a function through a pointer and stores its result; the function counts its
argument down by calling itself until it is below 5. -/
def countDown : Program where
  functions :=
    [{ isMain := true
       args := []
       littleEndian := true
       code :=
        [.instr (.load .i8 (.const (.bv 64 16))),
          .call (.indirect (.const (.bv 64 4096))) [.value (.inst 0)] true,
          .instr (.store .i8 (.value (.inst 1)) (.const (.bv 64 17))),
          .instr .ret] },
     { isMain := false
       args := [true]
       littleEndian := true
       code :=
        [.instr (.operation (.icmp .ult 8) [.value (.arg 0), .const (.bv 8 5)]),
          .instr (.condBr (.value (.inst 0)) 2 3),
          .retValue (.value (.arg 0)),
          .instr (.operation (.binary .sub 8) [.value (.arg 0), .const (.bv 8 1)]),
          .call (.direct 1) [.value (.inst 3)] true,
          .retValue (.value (.inst 4))] }]
  main := 0
  addresses := [(4096, 1)]

/-- The run on 6, until the result is stored. -/
theorem program_sound_countDown :
    ∃ (s : ProgramState) (as : List Access) (S : SymProgramState Z3Ast)
      (events : List (SymEvent Z3Ast)),
      Machine.steps countDown.step 16
          (countDown.start (fun _ ↦ none) (placeInput (fun _ ↦ 6) [⟨16, 0, 1⟩] fun _ ↦ 0))
            = some (s, as) ∧
        Machine.steps (countDown.symStep true) 16
          (countDown.symStart (fun _ ↦ none) [⟨16, 0, 1⟩] (fun _ ↦ 6) fun _ ↦ 0)
            = some (S, events) ∧
        S.concrete = s ∧ accesses events = as ∧ ProgramSound (fun _ ↦ 6) S ∧
          Satisfied (fun _ ↦ 6) events := by
  have hdefined : (Machine.steps countDown.step 16 (countDown.start (fun _ ↦ none)
      (placeInput (fun _ ↦ 6) [⟨16, 0, 1⟩] fun _ ↦ 0))).isSome := by
    decide +kernel
  obtain ⟨⟨s, as⟩, hrun⟩ := Option.isSome_iff_exists.mp hdefined
  obtain ⟨S, events, h⟩ : ∃ (S : SymProgramState Z3Ast) (events : List (SymEvent Z3Ast)), _ :=
    program_sound countDown true _ _ _ _ (by decide) hrun
  exact ⟨s, as, S, events, hrun, h⟩

/-- On 5 the runs fork in the second activation of the function. -/
theorem program_fork_countDown :
    ∃ (S₁ S₂ : SymProgramState Z3Ast) (events₁ events₂ : List (SymEvent Z3Ast)),
      Machine.steps (countDown.symStep true) 9
          (countDown.symStart (fun _ ↦ none) [⟨16, 0, 1⟩] (fun _ ↦ 6) fun _ ↦ 0)
            = some (S₁, events₁) ∧
        Machine.steps (countDown.symStep true) 9
          (countDown.symStart (fun _ ↦ none) [⟨16, 0, 1⟩] (fun _ ↦ 5) fun _ ↦ 0)
            = some (S₂, events₂) ∧
        ProgramForks countDown (fun _ ↦ 5) events₁ events₂ ∧
          (Satisfied (fun _ ↦ 5) events₁ → ProgramTwins (fun _ ↦ 5) S₁ S₂) := by
  have hdefined : ∀ b ∈ [6, 5], (Machine.steps (countDown.symStep true) 9
      (countDown.symStart (fun _ ↦ none) [⟨16, 0, 1⟩] (fun _ ↦ b) (fun _ ↦ 0) :
        SymProgramState Z3Ast)).isSome := by
    decide +kernel
  obtain ⟨⟨S₁, events₁⟩, h₁⟩ := Option.isSome_iff_exists.mp (hdefined 6 (by decide))
  obtain ⟨⟨S₂, events₂⟩, h₂⟩ := Option.isSome_iff_exists.mp (hdefined 5 (by decide))
  exact ⟨S₁, S₂, events₁, events₂, h₁, h₂, program_fork countDown true _ _ _ _ _ (by decide)
    (by decide) (by decide) h₁ h₂⟩

end Adacc.Symbolizer.Programs
