import Adacc.Compiler.Simulation
import Adacc.SimpleBackend.Builders
import Adacc.Foundation.PartialMachine

/-!
# Soundness of the instrumentation

An instrumented run follows the run of the function itself, step by step. At every point the
expressions that it holds, for values and for bytes of memory, evaluate to what is there under the
input of the run, and every constraint that it has pushed holds with the direction taken.

The invariant is that the symbolic state stands for its own concrete state under the input of the
run (`Denotes`), together with `Live`. At the start the bytes of the input stand in memory and the
expressions that read them in shadow memory; whatever input the expressions are evaluated under,
they stand for memory with that input in place (`denotes_symStart`).

The limits of the interface to the runtime library are a condition on the steps of the run. A
function all of whose instructions are within the limits meets it in every run.
-/

namespace Adacc.Symbolizer

open SmtLib IR Backend ModularRange

variable {SymExpr : Type} [Backend SymExpr]

/-! ## The start -/

private theorem memDenotes_empty (ρ : Adacc.Input) (mem : UIntPtr → BitVec 8) :
    MemDenotes ρ (∅ : ShadowPages SymExpr) mem mem :=
  fun _ ↦ rfl

/-- One more part of the input in place. -/
theorem MemDenotes.place {ρ ρ' : Adacc.Input} {pages : ShadowPages SymExpr}
    {mem₁ mem₂ : UIntPtr → BitVec 8} (h : MemDenotes ρ pages mem₁ mem₂) (p : Placement) :
    MemDenotes ρ
      (assignShadow (fun i ↦ some (symGetInputByte (p.inputOffset + i))) p.buf p.length pages)
      (rangeUpdate mem₁ p.buf p.length.toNat
        fun i ↦ ρ' (p.inputOffset + BitVec.ofNat 64 i).toNat)
      (rangeUpdate mem₂ p.buf p.length.toNat
        fun i ↦ ρ (p.inputOffset + BitVec.ofNat 64 i).toNat) := by
  intro a
  rw [shadowAt_assignShadow]
  by_cases hlt : (a - p.buf).toNat < p.length.toNat
  · rw [rangeUpdate_of_lt hlt, rangeUpdate_of_lt hlt, under_some, eval_inputByte]
  · rw [Nat.not_lt] at hlt
    rw [rangeUpdate_of_le hlt, rangeUpdate_of_le hlt, rangeUpdate_of_le hlt]
    exact h a

private theorem memDenotes_markSymbolic (ρ ρ' : Adacc.Input) (placements : List Placement)
    {pages : ShadowPages SymExpr} {mem₁ mem₂ : UIntPtr → BitVec 8}
    (h : MemDenotes ρ pages mem₁ mem₂) :
    MemDenotes ρ
      (placements.foldl (fun pages p ↦ assignShadow
        (fun i ↦ some (symGetInputByte (p.inputOffset + i))) p.buf p.length pages) pages)
      (placeInput ρ' placements mem₁) (placeInput ρ placements mem₂) := by
  induction placements generalizing pages mem₁ mem₂ with
  | nil => exact h
  | cons p placements ih => exact ih (h.place p)

/-- The start with the input `ρ'` stands, under `ρ`, for the start with the input `ρ`. -/
theorem denotes_symStart (args : ℕ → Option Value) (placements : List Placement)
    (ρ ρ' : Adacc.Input) (mem : UIntPtr → BitVec 8) :
    Denotes ρ (symStart args placements ρ' mem : SymState SymExpr)
      (IR.Function.start args (placeInput ρ placements mem)) where
  pc := rfl
  block := rfl
  env := by
    rintro (n | q) <;> rfl
  mem := memDenotes_markSymbolic ρ ρ' placements (memDenotes_empty ρ mem)

/-! ## Runs -/

/-- The instruction that is executed next is within the limits of the interface. -/
def LimitsAt (F : IR.Function) (S : SymState SymExpr) : Prop :=
  ∀ I, F.code[S.state.pc]? = some I → WithinLimits F S I

/-- An instruction that is within the limits whatever its operands are. -/
def InstrSupported : Instr → Prop
  | .operation op _ => OperationSupported op
  | .switch _ _ cases => ∀ c ∈ cases, ValueSupported c.1
  | .load _ _ | .store _ _ _ | .phi _ | .br _ | .condBr _ _ _ | .ret => True

instance : ∀ I : Instr, Decidable (InstrSupported I)
  | .operation op _ => inferInstanceAs (Decidable (OperationSupported op))
  | .switch _ _ cases => inferInstanceAs (Decidable (∀ c ∈ cases, ValueSupported c.1))
  | .load _ _ | .store _ _ _ | .phi _ | .br _ | .condBr _ _ _ | .ret =>
    inferInstanceAs (Decidable True)

omit [Backend SymExpr] in
theorem limitsAt_of_instrSupported {F : IR.Function} (h : ∀ I ∈ F.code, InstrSupported I)
    (S : SymState SymExpr) : LimitsAt F S := by
  intro I hI
  have hsupported := h I (List.mem_of_getElem? hI)
  rcases I with ⟨op, operands⟩ | - | - | - | - | - | ⟨cond, default, cases⟩ | -
  case operation => exact fun _ ↦ ⟨hsupported.1, fun _ ↦ hsupported.2⟩
  case switch => exact fun _ ↦ hsupported
  all_goals trivial

/-- What is held for values and bytes evaluates to them. -/
structure Sound (ρ : Adacc.Input) (S : SymState SymExpr) : Prop where
  values : ∀ id e, S.exprs id = some e → S.state.env id = some (eval ρ e)
  memory : Consistent ρ S.state.mem S.pages

theorem Denotes.sound {ρ : Adacc.Input} {S : SymState SymExpr} (h : Denotes ρ S S.state) :
    Sound ρ S where
  values id e he := by
    have hid := h.env id
    rwa [he, under_some] at hid
  memory := memDenotes_self_iff.mp h.mem

omit [Backend SymExpr] in
theorem accesses_append (events events' : List (SymEvent SymExpr)) :
    accesses (events ++ events') = accesses events ++ accesses events' :=
  List.filterMap_append

/-- An operand of the inserted code at the program counter is null or the expression of its
value. -/
theorem operandAt_cases (F : IR.Function) (k : ℕ) (V : Operand) :
    operandAt F k V = .null ∨ ∃ id, V = .value id ∧ operandAt F k V = .expr id := by
  rcases V with v | id
  · exact .inl rfl
  · rw [operandAt_value]
    split
    · exact .inr ⟨id, rfl, rfl⟩
    · exact .inl rfl

/-- What the instrumented run of `n` steps on the input `ρ` should do whenever the run of the
function is defined. -/
def InstrumentationSound (SymExpr : Type) [Backend SymExpr] (F : IR.Function)
    (args : ℕ → Option Value) (placements : List Placement) (ρ : Adacc.Input)
    (mem : UIntPtr → BitVec 8) (n : ℕ) : Prop :=
  ∀ s as,
    Machine.steps F.step n (IR.Function.start args (placeInput ρ placements mem)) = some (s, as) →
      ∃ (S : SymState SymExpr) (events : List (SymEvent SymExpr)),
        Machine.steps (symStep F) n (symStart args placements ρ mem) = some (S, events) ∧
          S.state = s ∧ accesses events = as ∧ Sound ρ S ∧ Satisfied ρ events

/-- As long as every step is within the limits of the interface, the instrumented function follows
the function and is sound. -/
theorem instrumentation_sound (F : IR.Function) (args : ℕ → Option Value)
    (placements : List Placement) (ρ : Adacc.Input) (mem : UIntPtr → BitVec 8) (n : ℕ)
    (hlimits : Machine.StepsAlong (symStep F) (LimitsAt F) n
      (symStart args placements ρ mem : SymState SymExpr)) :
    InstrumentationSound SymExpr F args placements ρ mem n := by
  intro s as hrun
  have hstart : Denotes ρ (symStart args placements ρ mem : SymState SymExpr)
      (symStart args placements ρ mem : SymState SymExpr).state :=
    denotes_symStart args placements ρ ρ mem
  -- by induction on the run, with `follows` for the state of the run itself
  obtain ⟨S, events, hsteps, ⟨hstate, hS, -⟩, hacc, hsat⟩ := Machine.steps_simulate
    (R := fun s S ↦ S.state = s ∧ Denotes ρ S S.state ∧ Live F S.exprs)
    (Q := fun as events ↦ accesses events = as ∧ Satisfied ρ events)
    ⟨rfl, satisfied_nil ρ⟩
    (fun ⟨hacc₁, hsat₁⟩ ⟨hacc₂, hsat₂⟩ ↦
      ⟨by rw [accesses_append, hacc₁, hacc₂], satisfied_append.mpr ⟨hsat₁, hsat₂⟩⟩)
    (fun {s S s' o} ⟨hstate, hS, hlive⟩ hlimits hstep ↦ by
      subst hstate
      obtain ⟨S', events, h⟩ := follows hS hlive
        (fun I _ V _ ↦ hS.reads_self (operandAt_cases F S.state.pc V)) hlimits hstep hstep
      have hsat := h.satisfied rfl
      have hS' := (h.denotes hsat).1
      rw [← h.state] at hS'
      exact ⟨S', events, h.step, ⟨h.state, hS', h.live⟩, h.accesses, hsat⟩)
    ⟨rfl, hstart, fun _ _ ↦ rfl⟩ hlimits hrun
  exact ⟨S, events, hsteps, hstate, hacc, hS.sound, hsat⟩

/-- Adds 1 to a byte of the input until it is at least 5, in a loop with a PHI node. -/
def countUp : IR.Function where
  isMain := true
  args := []
  littleEndian := true
  code :=
    [.load .i8 (.const (.bv 64 16)),
      .br 2,
      .phi [(0, .value (.inst 0)), (2, .value (.inst 3))],
      .operation (.binary .add 8) [.value (.inst 2), .const (.bv 8 1)],
      .operation (.icmp .ult 8) [.value (.inst 3), .const (.bv 8 5)],
      .condBr (.value (.inst 4)) 2 6,
      .ret]

theorem countUp_sound :
    ∃ s as, Machine.steps countUp.step 8
        (IR.Function.start (fun _ ↦ none) (placeInput (fun _ ↦ 3) [⟨16, 0, 1⟩] fun _ ↦ 0))
          = some (s, as) ∧
      ∃ (S : SymState Z3Ast) (events : List (SymEvent Z3Ast)),
        Machine.steps (symStep countUp) 8
            (symStart (fun _ ↦ none) [⟨16, 0, 1⟩] (fun _ ↦ 3) fun _ ↦ 0) = some (S, events) ∧
          S.state = s ∧ accesses events = as ∧ Sound (fun _ ↦ 3) S ∧
            Satisfied (fun _ ↦ 3) events := by
  have hdefined : (Machine.steps countUp.step 8 (IR.Function.start (fun _ ↦ none)
      (placeInput (fun _ ↦ 3) [⟨16, 0, 1⟩] fun _ ↦ 0))).isSome := by decide +kernel
  obtain ⟨⟨s, as⟩, hrun⟩ := Option.isSome_iff_exists.mp hdefined
  exact ⟨s, as, hrun, instrumentation_sound countUp _ _ _ _ 8
    (Machine.StepsAlong.of_forall (limitsAt_of_instrSupported (by decide)) 8 _) s as hrun⟩

/-- An extension by 256 bits, which is no bit for the runtime library. -/
def widen : IR.Function where
  isMain := true
  args := []
  littleEndian := true
  code :=
    [.load .i8 (.const (.bv 64 16)),
      .operation (.cast .sExt 8 264) [.value (.inst 0)]]

theorem not_instrumentationSound :
    ¬InstrumentationSound Z3Ast widen (fun _ ↦ none) [⟨16, 0, 1⟩] (fun _ ↦ 255) (fun _ ↦ 0) 2 := by
  intro h
  have hdefined : (Machine.steps widen.step 2 (IR.Function.start (fun _ ↦ none)
      (placeInput (fun _ ↦ 255) [⟨16, 0, 1⟩] fun _ ↦ 0))).isSome := by decide +kernel
  have hvalue : (Machine.steps (symStep widen) 2
      (symStart (fun _ ↦ none) [⟨16, 0, 1⟩] (fun _ ↦ 255) (fun _ ↦ 0) : SymState Z3Ast)).bind
        (fun r ↦ r.1.state.env (.inst 1)) = some (.bv 264 (-1)) := by decide +kernel
  have hexpr : ((Machine.steps (symStep widen) 2
      (symStart (fun _ ↦ none) [⟨16, 0, 1⟩] (fun _ ↦ 255) (fun _ ↦ 0) : SymState Z3Ast)).bind
        (fun r ↦ r.1.exprs (.inst 1))).map (eval fun _ ↦ 255) = some (.bv 8 255) := by
    decide +kernel
  obtain ⟨⟨s, as⟩, hrun⟩ := Option.isSome_iff_exists.mp hdefined
  obtain ⟨S, events, hsteps, -, -, hsound, -⟩ := h s as hrun
  rw [hsteps, Option.bind_some] at hvalue hexpr
  obtain ⟨e, he, heval⟩ := Option.map_eq_some_iff.mp hexpr
  have hid := hsound.values _ e he
  rw [hvalue, heval] at hid
  exact absurd hid (by decide)

end Adacc.Symbolizer
