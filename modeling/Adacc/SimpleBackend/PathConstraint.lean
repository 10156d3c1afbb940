import Adacc.Foundation.AssertionStack
import Adacc.Foundation.Machine
import Adacc.SimpleBackend.Builders

/-!
# Path constraints in the simple backend

`_sym_push_path_constraint` asserts the constraint of every branch as it was taken and, before
that, asks the solver in a scope of its own for an input that takes the branch the other way.

Z3 itself is a parameter (`Z3`): its simplifier, which preserves meaning, and its solver, whose
answer may depend on how often it has been called and may be unknown. Both come with what is
documented about them. Terms are compared structurally, which is what `Z3_is_eq_ast` does with
terms that are shared.

An `assert` that fails is recorded in the outcome of the call and the call goes on, as in a build
without assertions; a build with assertions ends there. In a build without assertions the solver is
not called for the last of them (`ndebug`). The log text is left out, apart from the models.

The run invariant is `PathConditionHolds`: the assertions of the solver mean what the constraints so
far mean with the directions taken. That it holds makes every model the solver finds for a flipped
constraint a path that agrees with the run up to there.
-/

namespace Adacc

open SmtLib

/-- `Z3_lbool`, with the model of a satisfiable set of assertions. -/
inductive CheckResult
  | sat (model : Input)
  | unsat
  | undef

/-- The model, if the answer is `Z3_L_TRUE`. -/
def CheckResult.model : CheckResult → Option Input
  | .sat model => some model
  | .unsat | .undef => none

/-- The formula holds under an assignment. -/
def Holds (ρ : Input) (t : Z3Ast) : Prop := t.eval ρ = .bool true

/-- All formulas hold under an assignment. -/
def Satisfies (ρ : Input) (assertions : List Z3Ast) : Prop := ∀ t ∈ assertions, Holds ρ t

/-- Z3, as far as path constraints use it. -/
structure Z3 where
  /-- `Z3_simplify` -/
  simplify : Z3Ast → Z3Ast
  /-- `Z3_solver_check` and `Z3_solver_get_model`, in the `n`th call. -/
  check : ℕ → List Z3Ast → CheckResult
  eval_simplify : ∀ ρ t, (simplify t).eval ρ = t.eval ρ
  check_sat : ∀ n assertions ρ, check n assertions = .sat ρ → Satisfies ρ assertions
  check_unsat : ∀ n assertions, check n assertions = .unsat → ∀ ρ, ¬ Satisfies ρ assertions

instance (ρ : Input) (t : Z3Ast) : Decidable (Holds ρ t) := inferInstanceAs (Decidable (_ = _))

instance (ρ : Input) (assertions : List Z3Ast) : Decidable (Satisfies ρ assertions) :=
  inferInstanceAs (Decidable (∀ t ∈ assertions, Holds ρ t))

/-- The state that path constraints change. -/
structure PathState where
  /-- `g_solver` -/
  solver : AssertionStack Z3Ast
  /-- How often `Z3_solver_check` has been called. -/
  checks : ℕ
  /-- For every term the calls of `Z3_inc_ref` minus those of `Z3_dec_ref`. -/
  refs : Z3Ast → ℤ

namespace PathState

/-- After `_sym_initialize`. -/
def init : PathState := ⟨.empty, 0, fun _ ↦ 0⟩

/-- `Z3_inc_ref` -/
def incRef (t : Z3Ast) (s : PathState) : PathState :=
  { s with refs := Function.update s.refs t (s.refs t + 1) }

/-- `Z3_dec_ref` -/
def decRef (t : Z3Ast) (s : PathState) : PathState :=
  { s with refs := Function.update s.refs t (s.refs t - 1) }

/-- `Z3_solver_push` -/
def solverPush (s : PathState) : PathState := { s with solver := s.solver.push }

/-- `Z3_solver_pop` -/
def solverPop (n : ℕ) (s : PathState) : PathState := { s with solver := s.solver.pop n }

/-- `Z3_solver_assert` -/
def solverAssert (t : Z3Ast) (s : PathState) : PathState := { s with solver := s.solver.assert t }

/-- `Z3_solver_check` -/
def solverCheck (z3 : Z3) (s : PathState) : CheckResult × PathState :=
  (z3.check s.checks s.solver.assertions, { s with checks := s.checks + 1 })

@[simp] theorem solver_incRef (t : Z3Ast) (s : PathState) : (s.incRef t).solver = s.solver := rfl

@[simp] theorem solver_decRef (t : Z3Ast) (s : PathState) : (s.decRef t).solver = s.solver := rfl

@[simp] theorem solver_solverCheck (z3 : Z3) (s : PathState) :
    (s.solverCheck z3).2.solver = s.solver := rfl

end PathState

/-- What a call of `_sym_push_path_constraint` does besides changing the state. -/
structure PushOutcome where
  /-- "Found diverging input", with the model. -/
  diverging : Option Input := none
  /-- The assertion "We have taken an impossible branch" has failed. -/
  impossibleBranch : Bool := false
  /-- The assertion "Asserting infeasible path constraint" has failed. -/
  infeasiblePath : Bool := false

/-- A call of `_sym_push_path_constraint`: the constraint and the `int` that says whether the branch
was taken. -/
structure PushCall where
  constraint : Option Z3Ast
  taken : BitVec 32

/-- The direction of a branch: C takes any non-zero `int` as true. -/
def PushCall.isTaken (call : PushCall) : Bool := call.taken != 0

open PathState in
/-- The part of `_sym_push_path_constraint` after the easy cases. -/
def trySolve (z3 : Z3) (ndebug : Bool) (s : PathState) (constraint : Z3Ast) (taken : Bool) :
    PathState × PushOutcome :=
  let notConstraint := z3.simplify (.not constraint)
  let s := s.incRef notConstraint
  -- generate a solution for the alternative
  let s := s.solverPush.solverAssert (if taken then notConstraint else constraint)
  let (feasible, s) := s.solverCheck z3
  let diverging := feasible.model
  let s := s.solverPop 1
  -- assert the actual path constraint
  let newConstraint := if taken then constraint else notConstraint
  let s := (s.incRef newConstraint).solverAssert newConstraint
  let (infeasiblePath, s) :=
    if ndebug then (false, s)
    else
      let (feasible, s) := s.solverCheck z3
      (feasible.model.isNone, s)
  ((s.decRef constraint).decRef notConstraint, { diverging, infeasiblePath })

/-- `_sym_push_path_constraint` -/
def symPushPathConstraint (z3 : Z3) (ndebug : Bool) (s : PathState) (call : PushCall) :
    PathState × PushOutcome :=
  match call.constraint with
  | none => (s, {})
  | some constraint =>
    let constraint := z3.simplify constraint
    let s := s.incRef constraint
    if constraint = .bool true then
      (s.decRef constraint, { impossibleBranch := !call.isTaken })
    else if constraint = .bool false then
      (s.decRef constraint, { impossibleBranch := call.isTaken })
    else trySolve z3 ndebug s constraint call.isTaken

/-! ## One call -/

/-- The call's constraint evaluates to the direction taken. -/
def PushCall.Follows (ρ : Input) (call : PushCall) : Prop :=
  ∀ c, call.constraint = some c → c.eval ρ = .bool call.isTaken

/-- The call's constraint, if it has one, evaluates to the other direction. -/
def PushCall.Diverges (ρ : Input) (call : PushCall) : Prop :=
  ∃ c, call.constraint = some c ∧ c.eval ρ = .bool !call.isTaken

section Step

variable (z3 : Z3)

/-- A formula has a truth value under every assignment when it has one under some. -/
theorem exists_eval_of_eval {c : Z3Ast} {ρ : Input} {b : Bool} (h : c.eval ρ = .bool b)
    (ρ' : Input) : ∃ b', c.eval ρ' = .bool b' := by
  have hsort : (c.eval ρ').sort = .bool := by rw [c.sort_eval, ← c.sort_eval ρ, h, Value.sort_bool]
  cases hv : c.eval ρ' with
  | bool b' => exact ⟨b', rfl⟩
  | bv w x => rw [hv] at hsort; cases hsort

private theorem eval_simplify_not {c : Z3Ast} {ρ : Input} {b : Bool} (h : c.eval ρ = .bool b) :
    (z3.simplify (.not c)).eval ρ = .bool !b := by
  rw [z3.eval_simplify, Term.eval, h, Value.not]

/-- The two directions of a branch as formulas. -/
theorem holds_direction {c : Z3Ast} {ρ₀ : Input} {b₀ : Bool} (h : c.eval ρ₀ = .bool b₀)
    (taken : Bool) (ρ : Input) :
    Holds ρ (if taken then c else z3.simplify (.not c)) ↔ c.eval ρ = .bool taken := by
  obtain ⟨b, hb⟩ := exists_eval_of_eval h ρ
  cases taken
  · rw [if_neg Bool.false_ne_true, Holds, eval_simplify_not z3 hb, hb]
    simp
  · rw [if_pos rfl, Holds]

private theorem solver_trySolve (ndebug : Bool) (s : PathState) (c : Z3Ast) (taken : Bool) :
    (trySolve z3 ndebug s c taken).1.solver
      = s.solver.assert (if taken then c else z3.simplify (.not c)) := by
  cases ndebug <;> rfl

private theorem diverging_trySolve {ndebug : Bool} {s : PathState} {c : Z3Ast} {taken : Bool}
    {model : Input} (h : (trySolve z3 ndebug s c taken).2.diverging = some model) :
    Satisfies model ((if taken then z3.simplify (.not c) else c) :: s.solver.assertions) := by
  have hcheck : (z3.check s.checks
      ((if taken then z3.simplify (.not c) else c) :: s.solver.assertions)).model = some model := by
    rw [← AssertionStack.assertions_push s.solver, ← AssertionStack.assertions_assert]
    exact h
  cases hresult : z3.check s.checks
      ((if taken then z3.simplify (.not c) else c) :: s.solver.assertions) with
  | sat model' =>
    rw [hresult, CheckResult.model, Option.some.injEq] at hcheck
    exact hcheck ▸ z3.check_sat _ _ _ hresult
  | unsat => rw [hresult] at hcheck; cases hcheck
  | undef => rw [hresult] at hcheck; cases hcheck

/-- Everything one call does, for a constraint that the run's own input decides the way the branch
was taken. -/
structure PushSpec (s s' : PathState) (call : PushCall) (outcome : PushOutcome) : Prop where
  depth_eq : s'.solver.depth = s.solver.depth
  satisfies_iff : ∀ ρ,
    Satisfies ρ s'.solver.assertions ↔ Satisfies ρ s.solver.assertions ∧ call.Follows ρ
  possible : outcome.impossibleBranch = false
  diverging : ∀ model, outcome.diverging = some model →
    Satisfies model s.solver.assertions ∧ call.Diverges model

theorem symPushPathConstraint_spec (ndebug : Bool) (s : PathState) {call : PushCall} {ρ : Input}
    (h : call.Follows ρ) :
    PushSpec s (symPushPathConstraint z3 ndebug s call).1 call
      (symPushPathConstraint z3 ndebug s call).2 := by
  unfold symPushPathConstraint
  split
  · next hnone => exact ⟨rfl, fun ρ ↦ by simp [PushCall.Follows, hnone], rfl, fun _ h ↦ nomatch h⟩
  · next c hc =>
    have heval : (z3.simplify c).eval ρ = .bool call.isTaken := by rw [z3.eval_simplify, h c hc]
    have hfollows : ∀ ρ', call.Follows ρ' ↔ (z3.simplify c).eval ρ' = .bool call.isTaken := by
      intro ρ'
      rw [z3.eval_simplify]
      exact ⟨fun hf ↦ hf c hc, fun hf c' hc' ↦ by rw [Option.some.inj (hc'.symm.trans hc), hf]⟩
    -- a constraint simplified to a constant was decided the way it was taken and says nothing
    have hconst : ∀ b, z3.simplify c = .bool b → call.isTaken = b ∧ ∀ ρ', call.Follows ρ' := by
      intro b hb
      rw [hb, Term.eval, Value.bool.injEq] at heval
      refine ⟨heval.symm, fun ρ' ↦ (hfollows ρ').mpr ?_⟩
      rw [hb, Term.eval, heval]
    dsimp only
    split
    · next htrue =>
      obtain ⟨htaken, hall⟩ := hconst true htrue
      exact ⟨rfl, fun ρ' ↦ (and_iff_left (hall ρ')).symm, by simp [htaken], fun _ h ↦ nomatch h⟩
    split
    · next hfalse =>
      obtain ⟨htaken, hall⟩ := hconst false hfalse
      exact ⟨rfl, fun ρ' ↦ (and_iff_left (hall ρ')).symm, htaken, fun _ h ↦ nomatch h⟩
    -- the solver is asked with the negation in a scope of its own, then the direction taken is
    -- asserted
    · refine ⟨?_, fun ρ' ↦ ?_, rfl, fun model hmodel ↦ ?_⟩
      · rw [solver_trySolve, AssertionStack.depth_assert, PathState.solver_incRef]
      · rw [solver_trySolve, AssertionStack.assertions_assert, PathState.solver_incRef, Satisfies,
          List.forall_mem_cons, holds_direction z3 heval, hfollows, and_comm]
        rfl
      · have hsat := diverging_trySolve z3 hmodel
        rw [Satisfies, List.forall_mem_cons] at hsat
        refine ⟨hsat.2, c, hc, ?_⟩
        have hflip := hsat.1
        rw [← z3.eval_simplify, ← holds_direction z3 heval]
        cases htaken : call.isTaken <;> simpa [htaken] using hflip

/-- The last assertion fails only when the solver gives up. -/
theorem infeasiblePath_eq_false (hdecides : ∀ n assertions, z3.check n assertions ≠ .undef)
    (ndebug : Bool) {s : PathState} {call : PushCall} {ρ : Input}
    (hs : Satisfies ρ s.solver.assertions) (h : call.Follows ρ) :
    (symPushPathConstraint z3 ndebug s call).2.infeasiblePath = false := by
  have hsat : ∀ n assertions, Satisfies ρ assertions →
      (z3.check n assertions).model.isNone = false := by
    intro n assertions hρ
    cases hcheck : z3.check n assertions with
    | sat model => rfl
    | unsat => exact absurd hρ (z3.check_unsat n assertions hcheck ρ)
    | undef => exact absurd hcheck (hdecides n assertions)
  unfold symPushPathConstraint
  split
  · rfl
  · next c hc =>
    have heval : (z3.simplify c).eval ρ = .bool call.isTaken := by rw [z3.eval_simplify, h c hc]
    dsimp only
    split
    · rfl
    split
    · rfl
    cases ndebug
    · apply hsat
      show Satisfies ρ (s.solver.assert (if call.isTaken then z3.simplify c
        else z3.simplify (.not (z3.simplify c)))).assertions
      rw [AssertionStack.assertions_assert, Satisfies, List.forall_mem_cons]
      exact ⟨(holds_direction z3 heval call.isTaken ρ).mpr heval, hs⟩
    · rfl

/-- A solver that does not give up finds a diverging input whenever there is one. -/
theorem exists_diverging (hdecides : ∀ n assertions, z3.check n assertions ≠ .undef)
    (ndebug : Bool) {s : PathState} {call : PushCall} {ρ ρ' : Input} (h : call.Follows ρ)
    (hs : Satisfies ρ' s.solver.assertions) (hdiverges : call.Diverges ρ') :
    ∃ model, (symPushPathConstraint z3 ndebug s call).2.diverging = some model := by
  obtain ⟨c, hc, heval'⟩ := hdiverges
  have heval : (z3.simplify c).eval ρ = .bool call.isTaken := by rw [z3.eval_simplify, h c hc]
  rw [← z3.eval_simplify] at heval'
  -- a constant does not have two values
  have hconst : ∀ b, z3.simplify c ≠ .bool b := by
    intro b hb
    rw [hb, Term.eval] at heval heval'
    exact Bool.not_ne_self call.isTaken (Value.bool.inj (heval'.symm.trans heval))
  have hsat : Satisfies ρ' ((if call.isTaken then z3.simplify (.not (z3.simplify c))
      else z3.simplify c) :: s.solver.assertions) := by
    rw [Satisfies, List.forall_mem_cons]
    refine ⟨?_, hs⟩
    have hflip := (holds_direction z3 heval (!call.isTaken) ρ').mpr heval'
    cases htaken : call.isTaken <;> simpa [htaken] using hflip
  have hfound : ∃ model, (z3.check s.checks ((if call.isTaken then
      z3.simplify (.not (z3.simplify c)) else z3.simplify c) :: s.solver.assertions)).model
        = some model := by
    rcases hcheck : z3.check s.checks ((if call.isTaken then z3.simplify (.not (z3.simplify c))
      else z3.simplify c) :: s.solver.assertions) with model | - | -
    · exact ⟨model, rfl⟩
    · exact absurd hsat (z3.check_unsat _ _ hcheck ρ')
    · exact absurd hcheck (hdecides _ _)
  obtain ⟨model, hmodel⟩ := hfound
  refine ⟨model, ?_⟩
  rw [symPushPathConstraint]
  split
  · next hnone => cases hc.symm.trans hnone
  · next c' hc' =>
    obtain rfl : c = c' := Option.some.inj (hc.symm.trans hc')
    dsimp only
    rw [if_neg (hconst true), if_neg (hconst false), ← hmodel, ← AssertionStack.assertions_push,
      ← AssertionStack.assertions_assert]
    rfl

end Step

/-! ## Runs -/

/-- The path condition of a run: every call follows the assignment. -/
def FollowsPath (ρ : Input) (calls : List PushCall) : Prop := ∀ call ∈ calls, call.Follows ρ

/-- The solver's assertions are the path condition of the calls so far. -/
structure PathConditionHolds (ρ : Input) (calls : List PushCall) (s : PathState) : Prop where
  depth_eq : s.solver.depth = PathState.init.solver.depth
  satisfies_iff : ∀ ρ', Satisfies ρ' s.solver.assertions ↔ FollowsPath ρ' calls
  satisfied : Satisfies ρ s.solver.assertions

theorem pathConditionHolds (z3 : Z3) (ndebug : Bool) {ρ : Input} {calls : List PushCall}
    (h : FollowsPath ρ calls) :
    PathConditionHolds ρ calls
      (Machine.run (symPushPathConstraint z3 ndebug) PathState.init calls).1 := by
  refine Machine.run_invariant (P := FollowsPath ρ)
    (fun calls call hcalls ↦ fun c hc ↦ hcalls c (List.mem_append_left _ hc)) ?_ ?_ h
  · have hnil : ∀ ρ', Satisfies ρ' [] := fun ρ' t ht ↦ absurd ht List.not_mem_nil
    exact ⟨rfl, fun ρ' ↦ iff_of_true (hnil ρ') fun c hc ↦ absurd hc List.not_mem_nil, hnil ρ⟩
  · intro calls call s hcalls hs
    have hcall := hcalls call (List.mem_append_right _ (List.mem_singleton_self call))
    have hspec := symPushPathConstraint_spec z3 ndebug s hcall
    refine ⟨hspec.depth_eq.trans hs.depth_eq, fun ρ' ↦ ?_,
      (hspec.satisfies_iff ρ).mpr ⟨hs.satisfied, hcall⟩⟩
    rw [hspec.satisfies_iff, hs.satisfies_iff, FollowsPath, FollowsPath, List.forall_mem_append,
      List.forall_mem_singleton]

/-- The law of path prefixes: after every run the scopes are closed, the assertions are the path
condition and hold for the run's own input; no branch was impossible; and every diverging input
agrees with the run before its call and differs at it. -/
theorem pathPrefix_law (z3 : Z3) (ndebug : Bool) (ρ : Input) (calls : List PushCall)
    (h : FollowsPath ρ calls) :
    PathConditionHolds ρ calls
        (Machine.run (symPushPathConstraint z3 ndebug) PathState.init calls).1 ∧
      ∀ before call after, calls = before ++ call :: after →
        let s := (Machine.run (symPushPathConstraint z3 ndebug) PathState.init before).1
        let outcome := (symPushPathConstraint z3 ndebug s call).2
        outcome.impossibleBranch = false ∧
          ∀ model, outcome.diverging = some model →
            FollowsPath model before ∧ call.Diverges model := by
  refine ⟨pathConditionHolds z3 ndebug h, ?_⟩
  rintro before call after rfl s outcome
  have hbefore : FollowsPath ρ before := fun c hc ↦ h c (List.mem_append_left _ hc)
  have hspec := symPushPathConstraint_spec z3 ndebug s
    (h call (List.mem_append_right _ List.mem_cons_self))
  refine ⟨hspec.possible, fun model hmodel ↦ ?_⟩
  obtain ⟨hsat, hdiverges⟩ := hspec.diverging model hmodel
  exact ⟨((pathConditionHolds z3 ndebug hbefore).satisfies_iff model).mp hsat, hdiverges⟩

/-- A solver that knows a few assignments and tries them. -/
def Z3.trying (candidates : List Input) : Z3 where
  simplify t := t
  check _ assertions :=
    match candidates.find? fun ρ ↦ decide (Satisfies ρ assertions) with
    | some ρ => .sat ρ
    | none => .undef
  eval_simplify _ _ := rfl
  check_sat _ assertions ρ h := by
    split at h
    · next hfind =>
      rw [CheckResult.sat.injEq] at h
      have hfound := List.find?_some hfind
      rw [h] at hfound
      exact of_decide_eq_true hfound
    · cases h
  check_unsat _ assertions h := by split at h <;> cases h

/-- The branch `stdin0 == 5`, taken, and then `stdin1 < 3`, not taken. -/
def twoBranches : List PushCall :=
  [⟨some (.compare .eq (.var 0) (.numeral 8 5)), 1⟩,
    ⟨some (.compare .bvult (.var 1) (.numeral 8 3)), 0⟩]

/-- A solver that can flip either of the two branches. -/
def twoBranchesZ3 : Z3 :=
  .trying [fun _ ↦ 5, fun _ ↦ 0, fun offset ↦ if offset = 0 then 5 else 0]

/-- The law for a run on the input `5, 5, …`. -/
theorem pathPrefix_law_twoBranches :
    PathConditionHolds (fun _ ↦ 5) twoBranches
        (Machine.run (symPushPathConstraint twoBranchesZ3 false) PathState.init twoBranches).1 ∧
      ∀ before call after, twoBranches = before ++ call :: after →
        let s := (Machine.run (symPushPathConstraint twoBranchesZ3 false) PathState.init before).1
        let outcome := (symPushPathConstraint twoBranchesZ3 false s call).2
        outcome.impossibleBranch = false ∧
          ∀ model, outcome.diverging = some model →
            FollowsPath model before ∧ call.Diverges model :=
  pathPrefix_law twoBranchesZ3 false (fun _ ↦ 5) twoBranches (by
    simp only [FollowsPath, PushCall.Follows, twoBranches, List.forall_mem_cons]
    refine ⟨fun c hc ↦ ?_, fun c hc ↦ ?_, fun _ h ↦ absurd h List.not_mem_nil⟩
    · rw [← Option.some.inj hc]
      decide
    · rw [← Option.some.inj hc]
      decide)

end Adacc
