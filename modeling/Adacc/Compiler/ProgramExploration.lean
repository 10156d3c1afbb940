import Adacc.Compiler.Exploration
import Adacc.Compiler.ProgramSoundness

/-!
# Exploring the paths of a program

What holds of the paths of a function holds of the paths of a program: a tester who runs it on one
input and on whatever the simple backend reports, again and again, takes all of them
(`program_exploration_complete`). A path goes through the functions that are called on the way, so
the same function may be run in many different ways along it. Addresses, lengths of memory
intrinsics and called operands have to be concrete; what functions pass to each other need not.
-/

namespace Adacc.Symbolizer.Programs

open SmtLib IR Backend Trace

/-! ## Runs to the end -/

/-- `main` has come to a return. -/
def Program.Ended (P : Program) (s : ProgramState) : Prop :=
  s.callers = [] ∧ ∃ F ∈ P.functions[s.function]?, ∃ J ∈ F.code[s.state.pc]?,
    J = .instr .ret ∨ ∃ V, J = .retValue V

section Runs

variable (P : Program) (leftToRight : Bool) (args : ℕ → Option Value) (placements : List Placement)
  (mem : UIntPtr → BitVec 8)

/-- Run on `ρ`, the instrumented program ends and has had these events. -/
def ProgramReturns (ρ : Adacc.Input) (events : List (SymEvent Z3Ast)) : Prop :=
  ∃ S, Completes (P.symStep leftToRight) (fun S ↦ P.Ended S.concrete)
    (P.symStart args placements ρ mem) S events

variable {P leftToRight args placements mem}

/-- There is no step after the end. -/
theorem symStep_eq_none_of_ended {S : SymProgramState Z3Ast} (h : P.Ended S.concrete) :
    P.symStep leftToRight S = none := by
  obtain ⟨hcallers, F, hF, J, hJ, hreturn⟩ := h
  rcases hstep : P.symStep leftToRight S with - | ⟨T, events⟩
  · rfl
  obtain ⟨F', J', as, hF', hJ', hexec⟩ := symStep_concrete hstep
  cases hF.symm.trans hF'
  cases hJ.symm.trans hJ'
  have hleave : ∀ value, S.concrete.leave value = none := fun value ↦ by
    rw [ProgramState.leave, hcallers]
  rcases hreturn with rfl | ⟨V, rfl⟩
  · rw [Program.exec, hleave] at hexec
    cases hexec
  · obtain ⟨v, -, hexec⟩ := Option.bind_eq_some_iff.mp hexec
    rw [hleave] at hexec
    cases hexec

/-- Twins end together. -/
theorem ProgramTwins.ended_iff {ρ : Adacc.Input} {S₁ S₂ : SymProgramState Z3Ast}
    (hS : ProgramTwins ρ S₁ S₂) : P.Ended S₁.concrete ↔ P.Ended S₂.concrete := by
  have hcallers : S₁.concrete.callers = [] ↔ S₂.concrete.callers = [] := by
    simp only [SymProgramState.concrete, List.map_eq_nil_iff]
    rw [← List.length_eq_zero_iff, ← List.length_eq_zero_iff, hS.callers.length_eq]
  have hfunction : S₂.concrete.function = S₁.concrete.function := hS.function
  have hpc : S₂.concrete.state.pc = S₁.concrete.state.pc := hS.state.denotes.pc
  rw [Program.Ended, Program.Ended, hcallers, hfunction, hpc]

section Known

variable (hP : P.Supported) (hlaidOut : P.LaidOut) (hmain : P.NeverCallsMain)

include hP hlaidOut hmain

/-- Two runs that end, whatever their lengths. -/
theorem ProgramReturns.fork {ρ₁ ρ₂ : Adacc.Input} {events₁ events₂ : List (SymEvent Z3Ast)}
    (h₁ : ProgramReturns P leftToRight args placements mem ρ₁ events₁)
    (h₂ : ProgramReturns P leftToRight args placements mem ρ₂ events₂) :
    ProgramForks P ρ₂ events₁ events₂ := by
  obtain ⟨S₁, h₁⟩ := h₁
  obtain ⟨S₂, h₂⟩ := h₂
  exact completes_forks (P := fun _ ↦ True)
    (R := fun S₁ S₂ ↦ ProgramTwins ρ₂ S₁ S₂ ∧ ProgramLive P S₁)
    (fun ⟨hS, hlive⟩ _ ↦ programTwins_step hP hlaidOut hmain hS hlive)
    (fun ⟨hS, _⟩ ↦ hS.ended_iff) symStep_eq_none_of_ended symStep_eq_none_of_ended
    ⟨programTwins_symStart P args placements mem ρ₁ ρ₂,
      programLive_symStart P args placements mem ρ₁⟩
    (fun n ↦ Machine.StepsAlong.of_forall (fun _ ↦ trivial) n _) h₁ h₂

theorem ProgramReturns.satisfied {ρ : Adacc.Input} {events : List (SymEvent Z3Ast)}
    (h : ProgramReturns P leftToRight args placements mem ρ events) :
    ∀ event ∈ events, EventSatisfied ρ event :=
  (h.fork hP hlaidOut hmain h).good_of_self ProgramTurns.irrefl

end Known

/-- With concrete operands there is one way to turn away. -/
theorem ProgramTurns.flips {ρ : Adacc.Input} {event event' : SymEvent Z3Ast}
    (h : ProgramTurns P ρ event event') (hconcrete : P.ConcreteOperands) :
    Flips ρ event event' := by
  cases h with
  | branch h => exact ⟨_, _, rfl, rfl, h⟩
  | operand hP hne hw h => exact absurd hconcrete hP

end Runs

/-- A tester who runs a program on one input and on all inputs that are reported takes every path of
the program, in as many rounds as the path has constraints. -/
theorem program_exploration_complete (P : Program) (leftToRight : Bool) (args : ℕ → Option Value)
    (placements : List Placement) (mem : UIntPtr → BitVec 8) (hP : P.Supported)
    (hlaidOut : P.LaidOut) (hmain : P.NeverCallsMain) (hconcrete : P.ConcreteOperands)
    (hends : ∀ ρ, ∃ n s as,
      Machine.steps P.step n (P.start args (placeInput ρ placements mem)) = some (s, as) ∧
        P.Ended s)
    (z3 : Z3) (hdecides : ∀ n assertions, z3.check n assertions ≠ .undef) (ndebug : Bool)
    (seed ρ : Adacc.Input) :
    ∃ events, ProgramReturns P leftToRight args placements mem ρ events ∧
      ∃ n ≤ events.countP isConstraint,
        ∃ ρ' ∈ generation (SuggestedBy (ProgramReturns P leftToRight args placements mem) z3 ndebug)
          n {seed}, ProgramReturns P leftToRight args placements mem ρ' events := by
  refine exists_mem_generation_of_forks (fun ρ ↦ ?_) (fun h ↦ h.satisfied hP hlaidOut hmain)
    (fun h₁ h₂ ↦ (h₁.fork hP hlaidOut hmain h₂).mono fun hturn ↦ hturn.flips hconcrete) z3 hdecides
    ndebug seed ρ
  obtain ⟨n, s, as, hsteps, hended⟩ := hends ρ
  have hstart : ProgramTwins ρ (P.symStart args placements ρ mem : SymProgramState Z3Ast)
      (P.symStart args placements ρ mem) := programTwins_symStart P args placements mem ρ ρ
  obtain ⟨S, events, hsteps', hstate, -⟩ := exists_symSteps P leftToRight hP hstart
    (programLive_symStart P args placements mem ρ) hsteps
  exact ⟨events, S, show P.Ended S.concrete from hstate.symm ▸ hended, n, hsteps'⟩

/-- Returns 0 or its argument. -/
def clampByte : Function where
  isMain := false
  args := [true]
  littleEndian := true
  code :=
    [.instr (.operation (.icmp .ult 8) [.value (.arg 0), .const (.bv 8 5)]),
      .instr (.condBr (.value (.inst 0)) 2 3),
      .retValue (.const (.bv 8 0)),
      .retValue (.value (.arg 0))]

/-- `main` passes a byte of the input to `clampByte`. -/
def clamp : Program where
  functions :=
    [{ isMain := true
       args := []
       littleEndian := true
       code :=
        [.instr (.load .i8 (.const (.bv 64 16))),
          .call (.direct 1) [.value (.inst 0)] true,
          .instr .ret] },
     clampByte]
  main := 0
  addresses := []

/-- The program ends, whatever the byte is. -/
theorem clamp_ends (ρ : Adacc.Input) : ∃ n s as,
    Machine.steps clamp.step n
        (clamp.start (fun _ ↦ none) (placeInput ρ [⟨16, 0, 1⟩] fun _ ↦ 0)) = some (s, as) ∧
      clamp.Ended s := by
  generalize placeInput ρ [⟨16, 0, 1⟩] (fun _ ↦ 0) = mem
  -- the comparison and the argument have values, whatever they are
  obtain ⟨as, env, caller, b, v, hcompare, hb, hv⟩ : ∃ as env caller b v,
      Machine.steps clamp.step 3 (clamp.start (fun _ ↦ none) mem)
          = some (⟨1, ⟨env, mem, 0, 1⟩, [⟨0, caller, 0, 1, true⟩]⟩, as) ∧
        env (.inst 0) = some (.bool b) ∧ env (.arg 0) = some v :=
    ⟨_, _, _, _, _, rfl, rfl, rfl⟩
  have hexec : Instr.exec clampByte.body ⟨env, mem, 0, 1⟩
      (.condBr (.value (.inst 0)) 2 3)
        = some (⟨env, mem, if b then 2 else 3, if b then 2 else 3⟩,
          [.block (if b then 2 else 3)]) := by
    dsimp only [Instr.exec, Operand.eval]
    rw [hb]
    cases b <;> rfl
  have hbranch := congrArg (Option.map fun after : State × List Access ↦
    (({ function := 1, state := after.1, callers := [⟨0, caller, 0, 1, true⟩] } : ProgramState),
      after.2)) hexec
  have hreturn : ∃ s as, clamp.step ⟨1, ⟨env, mem, if b then 2 else 3, if b then 2 else 3⟩,
      [⟨0, caller, 0, 1, true⟩]⟩ = some (s, as) ∧ clamp.Ended s := by
    cases b
    · have hleave := congrArg (Option.bind · fun v ↦ ProgramState.leave (some v)
        ⟨1, ⟨env, mem, 3, 3⟩, [⟨0, caller, 0, 1, true⟩]⟩) hv
      exact ⟨_, _, hleave, rfl, _, rfl, _, rfl, .inl rfl⟩
    · exact ⟨_, _, rfl, rfl, _, rfl, _, rfl, .inl rfl⟩
  obtain ⟨s, as', hreturn, hended⟩ := hreturn
  refine ⟨3 + 2, s, _, Machine.steps_add hcompare (Machine.steps_succ_eq_some.mpr
    ⟨_, _, _, hbranch, Machine.steps_succ_eq_some.mpr ⟨_, _, _, hreturn, rfl, rfl⟩, rfl⟩), hended⟩

/-- From the input 0, both paths of the program are taken. -/
theorem program_exploration_complete_clamp :
    ∃ events, ProgramReturns clamp true (fun _ ↦ none) [⟨16, 0, 1⟩] (fun _ ↦ 0) (fun _ ↦ 9) events ∧
      ∃ n ≤ events.countP isConstraint,
        ∃ ρ' ∈ generation (SuggestedBy (ProgramReturns clamp true (fun _ ↦ none) [⟨16, 0, 1⟩]
          fun _ ↦ 0) decidingZ3 false) n {fun _ ↦ 0},
            ProgramReturns clamp true (fun _ ↦ none) [⟨16, 0, 1⟩] (fun _ ↦ 0) ρ' events :=
  program_exploration_complete clamp true _ _ _ (by decide) (by decide) (by decide) (by decide)
    clamp_ends decidingZ3 decidingZ3_check false _ _

end Adacc.Symbolizer.Programs
