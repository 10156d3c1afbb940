import Adacc.Compiler.Divergence
import Adacc.SimpleBackend.PathConstraint

/-!
# Exploring the paths of a function

The compiler pass and the simple backend together. The constraints that an instrumented run pushes
are calls of `_sym_push_path_constraint`, and for each of them the backend may report a diverging
input. Two results say what these reports are worth.

* A reported input does what it was reported for (`diverging_run`): the function, run on it, has the
  events of the reporting run up to the constraint, and turns away there.
* Nothing is missed (`exploration_complete`): let a function return on every input, with all
  addresses concrete, and let the solver decide every query. Then a tester who runs the function on
  one input and on whatever is reported, again and again, takes every path that the function has.
  A path with `n` constraints is taken in the `n`th round at the latest.

Symbolic addresses are the exception because a run asks for one other address only, and there may be
many.
-/

namespace Adacc.Symbolizer

open SmtLib IR Backend ByteOrder Trace

deriving instance DecidableEq for SymEvent

/-! ## Calls of the backend -/

/-- The call of `_sym_push_path_constraint` for a constraint, with the `i1` as an `int`. -/
def pushCall (constraint : Z3Ast) (taken : Bool) : PushCall :=
  ⟨some constraint, if taken then 1 else 0⟩

/-- The calls of `_sym_push_path_constraint` among the events. -/
def pushCalls (events : List (SymEvent Z3Ast)) : List PushCall :=
  events.filterMap fun
    | .access _ => none
    | .pushPathConstraint constraint taken => some (pushCall constraint taken)

@[simp] theorem isTaken_pushCall (constraint : Z3Ast) (taken : Bool) :
    (pushCall constraint taken).isTaken = taken := by
  cases taken <;> rfl

theorem follows_pushCall_iff {ρ : Adacc.Input} {constraint : Z3Ast} {taken : Bool} :
    (pushCall constraint taken).Follows ρ ↔
      EventSatisfied ρ (.pushPathConstraint constraint taken) := by
  rw [PushCall.Follows, isTaken_pushCall, EventSatisfied]
  exact ⟨fun h ↦ h constraint rfl, fun h c hc ↦ Option.some.inj hc ▸ h⟩

/-- The path condition of the backend is the one of the run. -/
theorem followsPath_pushCalls_iff {ρ : Adacc.Input} {events : List (SymEvent Z3Ast)} :
    FollowsPath ρ (pushCalls events) ↔ ∀ event ∈ events, EventSatisfied ρ event := by
  constructor
  · rintro h (a | ⟨constraint, taken⟩) hevent
    · trivial
    · exact follows_pushCall_iff.mp (h _ (List.mem_filterMap.mpr ⟨_, hevent, rfl⟩))
  · intro h call hcall
    obtain ⟨a | ⟨constraint, taken⟩, hevent, heq⟩ := List.mem_filterMap.mp hcall
    · cases heq
    · cases heq
      exact follows_pushCall_iff.mpr (h _ hevent)

/-- After the events `before`, the call for a constraint reports a diverging input. -/
def Reports (z3 : Z3) (ndebug : Bool) (before : List (SymEvent Z3Ast)) (constraint : Z3Ast)
    (taken : Bool) (model : Adacc.Input) : Prop :=
  let s := (Machine.run (symPushPathConstraint z3 ndebug) PathState.init (pushCalls before)).1
  (symPushPathConstraint z3 ndebug s (pushCall constraint taken)).2.diverging = some model

section Reports

variable {z3 : Z3} {ndebug : Bool} {ρ : Adacc.Input} {before after : List (SymEvent Z3Ast)}
  {constraint : Z3Ast} {taken : Bool}

/-- A reported input satisfies what the run has pushed before and violates the constraint. -/
theorem Reports.satisfied {model : Adacc.Input}
    (h : ∀ event ∈ before ++ .pushPathConstraint constraint taken :: after, EventSatisfied ρ event)
    (hreports : Reports z3 ndebug before constraint taken model) :
    (∀ event ∈ before, EventSatisfied model event) ∧
      ¬EventSatisfied model (.pushPathConstraint constraint taken) := by
  rw [List.forall_mem_append, List.forall_mem_cons] at h
  have hpath := pathConditionHolds z3 ndebug (followsPath_pushCalls_iff.mpr h.1)
  have hspec := symPushPathConstraint_spec z3 ndebug
    (Machine.run (symPushPathConstraint z3 ndebug) PathState.init (pushCalls before)).1
    (follows_pushCall_iff.mpr h.2.1)
  obtain ⟨hsat, c, hc, hflip⟩ := hspec.diverging model hreports
  refine ⟨followsPath_pushCalls_iff.mp ((hpath.satisfies_iff model).mp hsat), ?_⟩
  cases hc
  rw [EventSatisfied]
  intro heval
  rw [isTaken_pushCall] at hflip
  exact Bool.not_ne_self taken (Value.bool.inj (hflip.symm.trans heval))

/-- If some input follows the run to a constraint and violates it, a solver that does not give up
makes the backend report one. -/
theorem exists_reports (hdecides : ∀ n assertions, z3.check n assertions ≠ .undef)
    (h : ∀ event ∈ before ++ .pushPathConstraint constraint taken :: after, EventSatisfied ρ event)
    {ρ' : Adacc.Input} (hbefore : ∀ event ∈ before, EventSatisfied ρ' event)
    (hflip : eval ρ' constraint = .bool !taken) :
    ∃ model, Reports z3 ndebug before constraint taken model := by
  rw [List.forall_mem_append, List.forall_mem_cons] at h
  have hpath := pathConditionHolds z3 ndebug (followsPath_pushCalls_iff.mpr h.1)
  exact exists_diverging z3 hdecides ndebug (follows_pushCall_iff.mpr h.2.1)
    ((hpath.satisfies_iff ρ').mpr (followsPath_pushCalls_iff.mpr hbefore))
    ⟨constraint, rfl, by rw [isTaken_pushCall]; exact hflip⟩

end Reports

/-! ## Reported inputs -/

/-- A reported input takes the function along the reporting run and away from it at the constraint
that it was reported for. -/
theorem diverging_run (F : IR.Function) (args : ℕ → Option Value) (placements : List Placement)
    (ρ model : Adacc.Input) (mem : UIntPtr → BitVec 8) (z3 : Z3) (ndebug : Bool) {n : ℕ}
    (halong : Machine.StepsAlong (symStep F) (KnownAt F) n
      (symStart args placements ρ mem : SymState Z3Ast))
    {S S' : SymState Z3Ast} {before after events : List (SymEvent Z3Ast)} {constraint : Z3Ast}
    {taken : Bool}
    (hrun : Machine.steps (symStep F) n (symStart args placements ρ mem)
      = some (S, before ++ .pushPathConstraint constraint taken :: after))
    (hreports : Reports z3 ndebug before constraint taken model)
    (hrun' : Machine.steps (symStep F) n (symStart args placements model mem) = some (S', events)) :
    ∃ event after', events = before ++ event :: after' ∧
      Turns F model (.pushPathConstraint constraint taken) event := by
  obtain ⟨hbefore, hviolated⟩ := hreports.satisfied (satisfied_of_steps halong hrun)
  obtain ⟨hfork, -⟩ := (twins_symStart args placements ρ model mem).steps_fork
    (live_symStart F args placements ρ mem) halong hrun hrun'
  exact hfork.of_split Turns.not_satisfied hbefore hviolated

/-- The run of `storeIfLess` on 0 takes the branch, and 9 is reported for it. -/
theorem diverging_run_storeIfLess :
    ∃ (S S' : SymState Z3Ast) (before after events : List (SymEvent Z3Ast)) (constraint : Z3Ast),
      Machine.steps (symStep storeIfLess) 3
          (symStart (fun _ ↦ none) [⟨16, 0, 1⟩] (fun _ ↦ 0) fun _ ↦ 0)
            = some (S, before ++ .pushPathConstraint constraint true :: after) ∧
        Reports (.trying [fun _ ↦ 9]) false before constraint true (fun _ ↦ 9) ∧
        Machine.steps (symStep storeIfLess) 3
          (symStart (fun _ ↦ none) [⟨16, 0, 1⟩] (fun _ ↦ 9) fun _ ↦ 0) = some (S', events) ∧
        ∃ event after', events = before ++ event :: after' ∧
          Turns storeIfLess (fun _ ↦ 9) (.pushPathConstraint constraint true) event := by
  have hevents : (Machine.steps (symStep storeIfLess) 3
      (symStart (fun _ ↦ none) [⟨16, 0, 1⟩] (fun _ ↦ 0) (fun _ ↦ 0) : SymState Z3Ast)).map Prod.snd
        = some [.access (.load 16),
          .pushPathConstraint (.compare .bvult (.var 0) (.numeral 8 5)) true,
          .access (.block 3)] := by
    decide +kernel
  have hdefined : (Machine.steps (symStep storeIfLess) 3
      (symStart (fun _ ↦ none) [⟨16, 0, 1⟩] (fun _ ↦ 9) (fun _ ↦ 0) : SymState Z3Ast)).isSome := by
    decide +kernel
  have hreports : Reports (.trying [fun _ ↦ 9]) false [.access (.load 16)]
      (.compare .bvult (.var 0) (.numeral 8 5)) true (fun _ ↦ 9) := by
    rfl
  obtain ⟨⟨S, _⟩, hrun, rfl⟩ := Option.map_eq_some_iff.mp hevents
  obtain ⟨⟨S', events⟩, hrun'⟩ := Option.isSome_iff_exists.mp hdefined
  exact ⟨S, S', [.access (.load 16)], [.access (.block 3)], events, _, hrun, hreports, hrun',
    diverging_run storeIfLess _ _ _ _ _ _ _
      (Machine.StepsAlong.of_forall (knownAt_of_forall (by decide) (by decide)) 3 _) hrun hreports
        hrun'⟩

/-! ## Every path is taken -/

/-- The event is a constraint. -/
def isConstraint : SymEvent Z3Ast → Bool
  | .access _ => false
  | .pushPathConstraint _ _ => true

/-- The only way to turn away is to take the other direction of a constraint. -/
def Flips (ρ : Adacc.Input) (event event' : SymEvent Z3Ast) : Prop :=
  ∃ constraint taken, event = .pushPathConstraint constraint taken ∧
    event' = .pushPathConstraint constraint (!taken) ∧ eval ρ constraint = .bool !taken

theorem Flips.not_satisfied {ρ : Adacc.Input} {event event' : SymEvent Z3Ast}
    (h : Flips ρ event event') : ¬EventSatisfied ρ event := by
  obtain ⟨constraint, taken, rfl, rfl, heval⟩ := h
  rw [EventSatisfied, heval, Value.bool.injEq]
  exact Bool.not_ne_self taken

section Search

variable {returns : Adacc.Input → List (SymEvent Z3Ast) → Prop}

/-- A run on the first input makes the backend report the second. -/
def SuggestedBy (returns : Adacc.Input → List (SymEvent Z3Ast) → Prop) (z3 : Z3) (ndebug : Bool)
    (ρ model : Adacc.Input) : Prop :=
  ∃ before constraint taken after,
    returns ρ (before ++ .pushPathConstraint constraint taken :: after) ∧
      Reports z3 ndebug before constraint taken model

/-- A tester who runs something on one input and on all inputs that are reported sees every trace,
if there is a trace for every input, whatever is pushed holds, and traces turn away from each other
only where a constraint has two directions. -/
theorem exists_mem_generation_of_forks (hreturns : ∀ ρ, ∃ events, returns ρ events)
    (hsat : ∀ {ρ events}, returns ρ events → ∀ event ∈ events, EventSatisfied ρ event)
    (hfork : ∀ {ρ₁ ρ₂ events₁ events₂}, returns ρ₁ events₁ → returns ρ₂ events₂ →
      Forks (EventSatisfied ρ₂) (Flips ρ₂) events₁ events₂)
    (z3 : Z3) (hdecides : ∀ n assertions, z3.check n assertions ≠ .undef) (ndebug : Bool)
    (seed ρ : Adacc.Input) :
    ∃ events, returns ρ events ∧ ∃ n ≤ events.countP isConstraint,
      ∃ ρ' ∈ generation (SuggestedBy returns z3 ndebug) n {seed}, returns ρ' events := by
  choose trace htrace using hreturns
  refine ⟨trace ρ, htrace ρ, ?_⟩
  suffices h : ∃ n ≤ (trace ρ).countP isConstraint,
      ∃ ρ' ∈ generation (SuggestedBy returns z3 ndebug) n {seed}, trace ρ' = trace ρ by
    obtain ⟨n, hn, ρ', hρ', heq⟩ := h
    exact ⟨n, hn, ρ', hρ', heq ▸ htrace ρ'⟩
  refine exists_mem_generation (fun ρ₁ ↦ ?_) (Set.mem_singleton seed)
  -- the run on `ρ` itself shows that the constraint at the fork can be flipped
  rcases hfork (htrace ρ₁) (htrace ρ) with
    ⟨heq, -⟩ | ⟨before, event, event', after, after', heq, heq', hbefore, hturn⟩
  · exact .inl heq.symm
  obtain ⟨constraint, taken, rfl, rfl, hflip⟩ := hturn
  have hρ₁ := heq ▸ htrace ρ₁
  obtain ⟨model, hmodel⟩ := exists_reports hdecides (hsat hρ₁) hbefore hflip
  -- and the reported input takes the same turn
  obtain ⟨hbefore', hviolated⟩ := hmodel.satisfied (hsat hρ₁)
  obtain ⟨event, after'', hmodel', hturn'⟩ :=
    (hfork hρ₁ (htrace model)).of_split Flips.not_satisfied hbefore' hviolated
  obtain ⟨c, b, hcb, rfl, -⟩ := hturn'
  cases hcb
  exact .inr ⟨before, _, _, after, after', model, heq, heq', by simp, rfl,
    ⟨before, constraint, taken, after, hρ₁, hmodel⟩, after'', by rw [hmodel']; simp⟩

end Search

section Exploration

variable (F : IR.Function) (args : ℕ → Option Value) (placements : List Placement)
  (mem : UIntPtr → BitVec 8)

/-- The instrumented function has come to a `ret`. -/
def Returned (S : SymState Z3Ast) : Prop := F.code[S.state.pc]? = some .ret

/-- Run on `ρ`, the instrumented function returns and has had these events. -/
def Returns (ρ : Adacc.Input) (events : List (SymEvent Z3Ast)) : Prop :=
  ∃ S, Completes (symStep F) (Returned F) (symStart args placements ρ mem) S events

/-- A run on the first input makes the backend report the second. -/
def Suggests (z3 : Z3) (ndebug : Bool) : Adacc.Input → Adacc.Input → Prop :=
  SuggestedBy (Returns F args placements mem) z3 ndebug

variable {F args placements mem}

private theorem symStep_eq_none_of_returned {S : SymState Z3Ast} (h : Returned F S) :
    symStep F S = none := by
  rw [Returned] at h
  rcases hstep : symStep F S with - | ⟨S', events⟩
  · rfl
  obtain ⟨I, T, before, t, as, hI, -, hexec, -⟩ := symStep_cases hstep
  cases hI.symm.trans h
  cases hexec

/-- The run of an instrumented function follows the run of the function. -/
theorem exists_symSteps {SymExpr : Type} [Backend SymExpr] {ρ : Adacc.Input} {n : ℕ}
    (halong : Machine.StepsAlong (symStep F) (KnownAt F) n
      (symStart args placements ρ mem : SymState SymExpr)) {s : State} {as : List Access}
    (h : Machine.steps F.step n (IR.Function.start args (placeInput ρ placements mem))
      = some (s, as)) :
    ∃ (S : SymState SymExpr) (events : List (SymEvent SymExpr)),
      Machine.steps (symStep F) n (symStart args placements ρ mem) = some (S, events) ∧
        S.state = s := by
  obtain ⟨S, events, hsteps, ⟨hstate, -⟩, -⟩ := Machine.steps_simulate
    (R := fun s S ↦ S.state = s ∧ Denotes ρ S S.state ∧ Live F S.exprs)
    (Q := fun _ _ ↦ True) trivial (fun _ _ ↦ trivial)
    (fun {s S s' o} ⟨hstate, hS, hlive⟩ hknown hstep ↦ by
      subst hstate
      obtain ⟨S', events, h⟩ := follows hS hlive
        (fun I _ V _ ↦ hS.reads_self (operandAt_cases F S.state.pc V)) hknown.1 hstep hstep
      have hS' := (h.denotes (h.satisfied rfl)).1
      rw [← h.state] at hS'
      exact ⟨S', events, h.step, ⟨h.state, hS', h.live⟩, trivial⟩)
    ⟨rfl, denotes_symStart args placements ρ ρ mem, fun _ _ ↦ rfl⟩ halong h
  exact ⟨S, events, hsteps, hstate⟩

variable (hknown : ∀ S : SymState Z3Ast, KnownAt F S)

include hknown

theorem Returns.satisfied {ρ : Adacc.Input} {events : List (SymEvent Z3Ast)}
    (h : Returns F args placements mem ρ events) : ∀ event ∈ events, EventSatisfied ρ event := by
  obtain ⟨S, -, n, hsteps⟩ := h
  exact satisfied_of_steps (Machine.StepsAlong.of_forall hknown n _) hsteps

/-- Two runs that return, whatever their lengths. -/
theorem Returns.fork {ρ₁ ρ₂ : Adacc.Input} {events₁ events₂ : List (SymEvent Z3Ast)}
    (h₁ : Returns F args placements mem ρ₁ events₁)
    (h₂ : Returns F args placements mem ρ₂ events₂) : EventsFork F ρ₂ events₁ events₂ := by
  obtain ⟨S₁, h₁⟩ := h₁
  obtain ⟨S₂, h₂⟩ := h₂
  exact completes_forks (R := fun S₁ S₂ ↦ Twins ρ₂ S₁ S₂ ∧ Live F S₁.exprs)
    (fun ⟨hS, hlive⟩ hknown ↦ twins_step hS hlive hknown)
    (fun ⟨hS, _⟩ ↦ by rw [Returned, Returned, hS.denotes.pc])
    symStep_eq_none_of_returned symStep_eq_none_of_returned
    ⟨twins_symStart args placements ρ₁ ρ₂ mem, live_symStart F args placements ρ₁ mem⟩
    (fun n ↦ Machine.StepsAlong.of_forall hknown n _) h₁ h₂

omit hknown in
/-- Without symbolic addresses there is one way to turn away. -/
theorem Turns.flips {ρ : Adacc.Input} {event event' : SymEvent Z3Ast}
    (h : Turns F ρ event event') (hconcrete : ConcreteAddresses F) : Flips ρ event event' := by
  cases h with
  | branch h => exact ⟨_, _, rfl, rfl, h⟩
  | address hF hne h => exact absurd hconcrete hF

end Exploration

/-- A tester who runs a function on one input and on all inputs that are reported takes every path
of the function, in as many rounds as the path has constraints. -/
theorem exploration_complete (F : IR.Function) (args : ℕ → Option Value)
    (placements : List Placement) (mem : UIntPtr → BitVec 8)
    (hsupported : ∀ I ∈ F.code, InstrSupported I) (hlaidOut : LaidOutInOrder F)
    (hconcrete : ConcreteAddresses F)
    (hreturns : ∀ ρ, ∃ n s as,
      Machine.steps F.step n (IR.Function.start args (placeInput ρ placements mem))
        = some (s, as) ∧ F.code[s.pc]? = some .ret)
    (z3 : Z3) (hdecides : ∀ n assertions, z3.check n assertions ≠ .undef) (ndebug : Bool)
    (seed ρ : Adacc.Input) :
    ∃ events, Returns F args placements mem ρ events ∧ ∃ n ≤ events.countP isConstraint,
      ∃ ρ' ∈ generation (Suggests F args placements mem z3 ndebug) n {seed},
        Returns F args placements mem ρ' events := by
  have hknown : ∀ S : SymState Z3Ast, KnownAt F S := knownAt_of_forall hsupported hlaidOut
  have hrun : ∀ ρ, ∃ events, Returns F args placements mem ρ events := by
    intro ρ
    obtain ⟨n, s, as, hsteps, hret⟩ := hreturns ρ
    obtain ⟨S, events, hsteps', rfl⟩ := exists_symSteps
      (Machine.StepsAlong.of_forall hknown n _) hsteps
    exact ⟨events, S, hret, n, hsteps'⟩
  exact exists_mem_generation_of_forks hrun (fun h ↦ h.satisfied hknown)
    (fun h₁ h₂ ↦ (h₁.fork hknown h₂).mono fun hturn ↦ hturn.flips hconcrete) z3 hdecides ndebug
    seed ρ

/-- A model of the assertions, if there is one. -/
noncomputable def decidingCheck (assertions : List Z3Ast) : CheckResult :=
  @dite _ (∃ ρ, Satisfies ρ assertions) (Classical.propDecidable _) (fun h ↦ .sat h.choose)
    fun _ ↦ .unsat

theorem decidingCheck_spec (assertions : List Z3Ast) :
    (∃ ρ, decidingCheck assertions = .sat ρ ∧ Satisfies ρ assertions) ∨
      decidingCheck assertions = .unsat ∧ ∀ ρ, ¬Satisfies ρ assertions := by
  by_cases h : ∃ ρ, Satisfies ρ assertions
  · exact .inl ⟨h.choose, dif_pos h, h.choose_spec⟩
  · exact .inr ⟨dif_neg h, fun ρ hρ ↦ h ⟨ρ, hρ⟩⟩

/-- A solver that decides every query. -/
noncomputable def decidingZ3 : Z3 where
  simplify := id
  check _ := decidingCheck
  eval_simplify _ _ := rfl
  check_sat _ assertions ρ h := by
    rcases decidingCheck_spec assertions with ⟨ρ', heq, hsat⟩ | ⟨heq, -⟩
    · exact CheckResult.sat.inj (heq.symm.trans h) ▸ hsat
    · cases heq.symm.trans h
  check_unsat _ assertions h := by
    rcases decidingCheck_spec assertions with ⟨ρ', heq, -⟩ | ⟨-, hunsat⟩
    · cases heq.symm.trans h
    · exact hunsat

theorem decidingZ3_check (n : ℕ) (assertions : List Z3Ast) :
    decidingZ3.check n assertions ≠ .undef := by
  intro h
  rcases decidingCheck_spec assertions with ⟨ρ, heq, -⟩ | ⟨heq, -⟩
  · cases heq.symm.trans h
  · cases heq.symm.trans h

/-- `storeIfLess` returns, whatever the byte is. -/
theorem storeIfLess_returns (ρ : Adacc.Input) : ∃ n s as,
    Machine.steps storeIfLess.step n
        (IR.Function.start (fun _ ↦ none) (placeInput ρ [⟨16, 0, 1⟩] fun _ ↦ 0)) = some (s, as) ∧
      storeIfLess.code[s.pc]? = some .ret := by
  generalize placeInput ρ [⟨16, 0, 1⟩] (fun _ ↦ 0) = mem
  -- the comparison has a value, whatever it is
  obtain ⟨s₁, as₁, s₂, as₂, b, h₁, h₂, hpc, hb⟩ : ∃ s₁ as₁ s₂ as₂ b,
      storeIfLess.step (IR.Function.start (fun _ ↦ none) mem) = some (s₁, as₁) ∧
        storeIfLess.step s₁ = some (s₂, as₂) ∧ s₂.pc = 2 ∧ s₂.env (.inst 1) = some (.bool b) :=
    ⟨_, _, _, _, _, rfl, rfl, rfl, rfl⟩
  have hbranch : storeIfLess.step s₂
      = jump storeIfLess s₂ (if b then 3 else 4) := by
    rw [Function.step, hpc]
    show Instr.exec storeIfLess s₂ (.condBr (.value (.inst 1)) 3 4) = _
    rw [Instr.exec, Operand.eval, hb]
    cases b <;> rfl
  cases b
  · exact ⟨3, _, _, Machine.steps_succ_eq_some.mpr ⟨_, _, _, h₁, Machine.steps_succ_eq_some.mpr
      ⟨_, _, _, h₂, Machine.steps_succ_eq_some.mpr ⟨_, _, _, hbranch, rfl, rfl⟩, rfl⟩, rfl⟩, rfl⟩
  · exact ⟨4, _, _, Machine.steps_succ_eq_some.mpr ⟨_, _, _, h₁, Machine.steps_succ_eq_some.mpr
      ⟨_, _, _, h₂, Machine.steps_succ_eq_some.mpr ⟨_, _, _, hbranch,
        Machine.steps_succ_eq_some.mpr ⟨_, _, _, rfl, rfl, rfl⟩, rfl⟩, rfl⟩, rfl⟩, rfl⟩

/-- From the input 0, both paths of `storeIfLess` are taken. -/
theorem exploration_complete_storeIfLess :
    ∃ events, Returns storeIfLess (fun _ ↦ none) [⟨16, 0, 1⟩] (fun _ ↦ 0) (fun _ ↦ 9) events ∧
      ∃ n ≤ events.countP isConstraint,
        ∃ ρ' ∈ generation (Suggests storeIfLess (fun _ ↦ none) [⟨16, 0, 1⟩] (fun _ ↦ 0) decidingZ3
          false) n {fun _ ↦ 0},
            Returns storeIfLess (fun _ ↦ none) [⟨16, 0, 1⟩] (fun _ ↦ 0) ρ' events :=
  exploration_complete storeIfLess _ _ _ (by decide) (by decide) (by decide) storeIfLess_returns
    decidingZ3 decidingZ3_check false _ _

end Adacc.Symbolizer
