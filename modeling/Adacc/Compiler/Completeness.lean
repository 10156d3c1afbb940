import Adacc.Compiler.Soundness

/-!
# Completeness of the path condition

Two runs on inputs of one length. If the second input satisfies every constraint that the first run
pushes, then the second run takes the same path, makes the same accesses, and agrees with the first
on everything that had no expression there.

The invariant is that the symbolic state of the first run stands, under the second input, for the
state of the second run: `follows` again, now with two different concrete states. What the first
run takes to be concrete must be the same in the second, and this is where the order of the visits
matters. An operand that is laid out at or after its use has no expression yet when the use is
visited, so the inserted code takes it to be concrete although it may hold an expression. The path
condition is complete for the runs in which this never happens.
-/

namespace Adacc.Symbolizer

open SmtLib IR Backend

variable {SymExpr : Type}

/-! ## The layout -/

/-- No operand of the instruction that is executed next holds an expression that its visit did not
know about. -/
def OrderedAt (F : IR.Function) (S : SymState SymExpr) : Prop :=
  ∀ I, F.code[S.state.pc]? = some I → ∀ q, .value (.inst q) ∈ operandsOf I → S.state.pc ≤ q →
    S.exprs (.inst q) = none

/-- The operand is available before position `k`. -/
def AvailableBefore (k : ℕ) : Operand → Prop
  | .const _ | .value (.arg _) => True
  | .value (.inst q) => q < k

instance (k : ℕ) : DecidablePred (AvailableBefore k)
  | .const _ | .value (.arg _) => inferInstanceAs (Decidable True)
  | .value (.inst _) => inferInstanceAs (Decidable (_ < _))

/-- Every value is laid out before its uses, those in PHI nodes aside. -/
def LaidOutInOrder (F : IR.Function) : Prop :=
  ∀ p ∈ F.code.zipIdx, ∀ V ∈ operandsOf p.1, AvailableBefore p.2 V

instance (F : IR.Function) : Decidable (LaidOutInOrder F) :=
  inferInstanceAs (Decidable (∀ p ∈ F.code.zipIdx, ∀ V ∈ operandsOf p.1, AvailableBefore p.2 V))

theorem orderedAt_of_laidOutInOrder {F : IR.Function} (h : LaidOutInOrder F)
    (S : SymState SymExpr) : OrderedAt F S := by
  intro I hI q hq hle
  have hlt : q < S.state.pc := h (I, S.state.pc) (List.mk_mem_zipIdx_iff_getElem?.mpr hI) _ hq
  exact absurd hle (Nat.not_le.mpr hlt)

variable [Backend SymExpr]

/-! ## One step -/

omit [Backend SymExpr] in
theorem Action.skip_state (S : SymState SymExpr) (action : Action) :
    (action.skip S).state = S.state := by
  rcases action <;> rfl

theorem Action.exec_state {action : Action} {S S' : SymState SymExpr} {args : List SymExpr}
    {events : List (SymEvent SymExpr)} (h : action.exec S args = some (S', events)) :
    S'.state = S.state := by
  rcases action with function | cond | V
  · obtain ⟨e, -, heq⟩ := Option.map_eq_some_iff.mp h
    cases heq
    rfl
  all_goals
    dsimp only [Action.exec] at h
    split at h <;> cases h
    rfl

/-- Inserted code leaves the state of the function alone. -/
theorem SymCode.exec_state {c : SymCode ShortCircuit} {S S' : SymState SymExpr}
    {events : List (SymEvent SymExpr)} (h : c.exec S = some (S', events)) : S'.state = S.state := by
  rcases c with c | ⟨addr, length, littleEndian⟩ | ⟨addr, length, expr, littleEndian⟩ |
    ⟨cond, conditionExpr, cases⟩ | incoming
  · rw [SymCode.exec, ShortCircuit.exec] at h
    split at h
    · cases h
      exact Action.skip_state S c.action
    · obtain ⟨args, -, h⟩ := Option.bind_eq_some_iff.mp h
      exact Action.exec_state h
  · obtain ⟨a, -, heq⟩ := Option.map_eq_some_iff.mp h
    cases heq
    rfl
  · obtain ⟨a, -, heq⟩ := Option.map_eq_some_iff.mp h
    cases heq
    rfl
  · rw [SymCode.exec] at h
    split at h
    · cases h
      rfl
    · obtain ⟨v, -, heq⟩ := Option.map_eq_some_iff.mp h
      cases heq
      rfl
  · cases h

theorem execCode_state {code : List (SymCode ShortCircuit)} {S S' : SymState SymExpr}
    {events : List (SymEvent SymExpr)} (h : execCode code S = some (S', events)) :
    S'.state = S.state := by
  induction code generalizing S events with
  | nil =>
    cases h
    rfl
  | cons c code ih =>
    obtain ⟨⟨S₁, events₁⟩, hc, h⟩ := Option.bind_eq_some_iff.mp h
    obtain ⟨⟨S₂, events₂⟩, hrest, heq⟩ := Option.map_eq_some_iff.mp h
    cases heq
    exact (ih hrest).trans (SymCode.exec_state hc)

/-- Where the instrumented function takes a step, so does the function itself. -/
theorem exists_step_of_symStep {F : IR.Function} {S S' : SymState SymExpr}
    {events : List (SymEvent SymExpr)} (h : symStep F S = some (S', events)) :
    ∃ t as, F.step S.state = some (t, as) := by
  rw [symStep, runOnFunction_getElem?, Option.bind_map, Option.bind_eq_some_iff] at h
  obtain ⟨I, hI, h⟩ := h
  obtain ⟨⟨S₁, events₁⟩, hcode, h⟩ := Option.bind_eq_some_iff.mp h
  obtain ⟨⟨t, as⟩, hexec, -⟩ := Option.map_eq_some_iff.mp h
  refine ⟨t, as, ?_⟩
  rw [IR.Function.step, hI, Option.bind_some, ← execCode_state hcode]
  exact hexec

/-- If no operand holds an expression that its visit did not know about, then the inserted code
stands for the operands, whatever the input. -/
theorem Denotes.reads_operandAt {F : IR.Function} {ρ : Adacc.Input} {S : SymState SymExpr}
    {s : State} (hS : Denotes ρ S s) (hlive : Live F S.exprs) (hordered : OrderedAt F S) {I : Instr}
    (hI : F.code[S.state.pc]? = some I) {V : Operand} (hV : V ∈ operandsOf I) :
    Reads ρ S s V (operandAt F S.state.pc V) := by
  apply hS.reads
  rcases operandAt_cases F S.state.pc V with hnull | hexpr
  · refine .inl ⟨hnull, ?_⟩
    rintro id rfl
    have hk : S.state.pc ≤ F.code.length := (List.getElem?_eq_some_iff.mp hI).1.le
    rcases operandAt_eq_null hk hnull with hnone | ⟨q, rfl, hle⟩
    · exact hlive id hnone
    · exact hordered I hI q hV hle
  · exact .inr hexpr

/-! ## Two runs -/

/-- What an event asks of an input. -/
def EventSatisfied (ρ : Adacc.Input) : SymEvent SymExpr → Prop
  | .access _ => True
  | .pushPathConstraint constraint taken => eval ρ constraint = .bool taken

instance (ρ : Adacc.Input) : DecidablePred (EventSatisfied ρ : SymEvent SymExpr → Prop)
  | .access _ => inferInstanceAs (Decidable True)
  | .pushPathConstraint _ _ => inferInstanceAs (Decidable (_ = _))

theorem satisfied_iff_forall {ρ : Adacc.Input} {events : List (SymEvent SymExpr)} :
    Satisfied ρ events ↔ ∀ event ∈ events, EventSatisfied ρ event := by
  constructor
  · rintro h (a | ⟨constraint, taken⟩) hevent
    · trivial
    · exact h constraint taken hevent
  · exact fun h constraint taken hevent ↦ h _ hevent

instance (ρ : Adacc.Input) (events : List (SymEvent SymExpr)) : Decidable (Satisfied ρ events) :=
  decidable_of_iff' _ satisfied_iff_forall

/-- What two runs of `n` steps on the inputs `ρ₁` and `ρ₂` should have in common if `ρ₂` satisfies
what the first run pushes. -/
def PathConditionComplete (SymExpr : Type) [Backend SymExpr] (F : IR.Function)
    (args : ℕ → Option Value) (placements : List Placement) (ρ₁ ρ₂ : Adacc.Input)
    (mem : UIntPtr → BitVec 8) (n : ℕ) : Prop :=
  ∀ (S₁ : SymState SymExpr) (events₁ : List (SymEvent SymExpr)) (s₂ : State) (as₂ : List Access),
    Machine.steps (symStep F) n (symStart args placements ρ₁ mem) = some (S₁, events₁) →
    Machine.steps F.step n (IR.Function.start args (placeInput ρ₂ placements mem))
      = some (s₂, as₂) →
    Satisfied ρ₂ events₁ →
    as₂ = accesses events₁ ∧ s₂.block = S₁.state.block ∧ s₂.pc = S₁.state.pc ∧
      (∀ id, S₁.exprs id = none → s₂.env id = S₁.state.env id) ∧
      ∀ a, shadowAt S₁.pages a = none → s₂.mem a = S₁.state.mem a

/-- As long as every step is within the limits of the interface and no operand holds an expression
that its visit did not know about, the path condition is complete. -/
theorem pathCondition_complete (F : IR.Function) (args : ℕ → Option Value)
    (placements : List Placement) (ρ₁ ρ₂ : Adacc.Input) (mem : UIntPtr → BitVec 8) (n : ℕ)
    (halong : Machine.StepsAlong (symStep F) (fun S ↦ LimitsAt F S ∧ OrderedAt F S) n
      (symStart args placements ρ₁ mem : SymState SymExpr)) :
    PathConditionComplete SymExpr F args placements ρ₁ ρ₂ mem n := by
  intro S₁ events₁ s₂ as₂ hrun₁ hrun₂ hsat
  have hstart : Denotes ρ₂ (symStart args placements ρ₁ mem : SymState SymExpr)
      (IR.Function.start args (placeInput ρ₂ placements mem)) :=
    denotes_symStart args placements ρ₂ ρ₁ mem
  -- by induction on both runs, with `follows` for the state of the second one
  obtain ⟨⟨hS, -⟩, hacc⟩ := Machine.steps_lockstep
    (R := fun S s ↦ Denotes ρ₂ S s ∧ Live F S.exprs)
    (Q := fun events as ↦ as = accesses events) rfl
    (fun h₁ h₂ ↦ by rw [accesses_append, h₁, h₂])
    (fun {S s S' s' events as} ⟨hS, hlive⟩ ⟨hlimits, hordered⟩ hstep₁ hstep₂ hgood ↦ by
      obtain ⟨t, as', hstep⟩ := exists_step_of_symStep hstep₁
      obtain ⟨S'', events', h⟩ := follows hS hlive
        (fun I hI V hV ↦ hS.reads_operandAt hlive hordered hI hV) hlimits hstep hstep₂
      have heq := hstep₁.symm.trans h.step
      cases heq
      obtain ⟨hS', has⟩ := h.denotes (satisfied_iff_forall.mpr hgood)
      exact ⟨⟨hS', h.live⟩, has.trans h.accesses.symm⟩)
    ⟨hstart, fun _ _ ↦ rfl⟩ halong hrun₁ hrun₂ (satisfied_iff_forall.mp hsat)
  refine ⟨hacc, hS.block, hS.pc, fun id hid ↦ ?_, fun a ha ↦ ?_⟩
  · have henv := hS.env id
    rwa [hid, under_none] at henv
  · have hmem := hS.mem a
    rw [ha, under_none, Option.some.injEq] at hmem
    exact Value.bv_inj hmem

/-- Stores a byte depending on whether another is less than 5. -/
def storeIfLess : IR.Function where
  isMain := true
  args := []
  littleEndian := true
  code :=
    [.load .i8 (.const (.bv 64 16)),
      .operation (.icmp .ult 8) [.value (.inst 0), .const (.bv 8 5)],
      .condBr (.value (.inst 1)) 3 4,
      .store .i8 (.const (.bv 8 1)) (.const (.bv 64 32)),
      .ret]

theorem storeIfLess_complete :
    ∃ (S₁ : SymState Z3Ast) (events₁ : List (SymEvent Z3Ast)) (s₂ : State) (as₂ : List Access),
      Machine.steps (symStep storeIfLess) 4
          (symStart (fun _ ↦ none) [⟨16, 0, 1⟩] (fun _ ↦ 0) fun _ ↦ 0) = some (S₁, events₁) ∧
        Machine.steps storeIfLess.step 4
          (IR.Function.start (fun _ ↦ none) (placeInput (fun _ ↦ 3) [⟨16, 0, 1⟩] fun _ ↦ 0))
            = some (s₂, as₂) ∧
        Satisfied (fun _ ↦ 3) events₁ ∧ as₂ = accesses events₁ ∧
        ∀ id, S₁.exprs id = none → s₂.env id = S₁.state.env id := by
  have hrun : ((Machine.steps (symStep storeIfLess) 4
      (symStart (fun _ ↦ none) [⟨16, 0, 1⟩] (fun _ ↦ 0) (fun _ ↦ 0) : SymState Z3Ast)).any
        fun r ↦ Satisfied (fun _ ↦ 3) r.2) = true := by decide +kernel
  have hdefined : (Machine.steps storeIfLess.step 4 (IR.Function.start (fun _ ↦ none)
      (placeInput (fun _ ↦ 3) [⟨16, 0, 1⟩] fun _ ↦ 0))).isSome := by decide +kernel
  obtain ⟨⟨S₁, events₁⟩, hrun₁, hsat⟩ := (Option.any_eq_true _ _).mp hrun
  obtain ⟨⟨s₂, as₂⟩, hrun₂⟩ := Option.isSome_iff_exists.mp hdefined
  have hlimits : ∀ S : SymState Z3Ast, LimitsAt storeIfLess S :=
    limitsAt_of_instrSupported (by decide)
  have hordered : ∀ S : SymState Z3Ast, OrderedAt storeIfLess S :=
    orderedAt_of_laidOutInOrder (by decide)
  obtain ⟨hacc, -, -, henv, -⟩ := pathCondition_complete storeIfLess _ _ _ _ _ 4
    (Machine.StepsAlong.of_forall (fun S ↦ ⟨hlimits S, hordered S⟩) 4 _) S₁ events₁ s₂ as₂ hrun₁
    hrun₂ (of_decide_eq_true hsat)
  exact ⟨S₁, events₁, s₂, as₂, hrun₁, hrun₂, of_decide_eq_true hsat, hacc, henv⟩

/-! ## Where it is not complete -/

/-- Branches in a block that is laid out before the one with the condition. -/
def branchBefore : IR.Function where
  isMain := true
  args := []
  littleEndian := true
  code :=
    [.br 2,
      .condBr (.value (.inst 3)) 5 6,
      .load .i8 (.const (.bv 64 16)),
      .operation (.icmp .eq 8) [.value (.inst 2), .const (.bv 8 0)],
      .br 1,
      .ret,
      .ret]

/-- Compares a byte with 0 after a detour: the runtime library truncates it to 260 - 256 bits. -/
def truncateWide : IR.Function where
  isMain := true
  args := []
  littleEndian := true
  code :=
    [.load .i8 (.const (.bv 64 16)),
      .operation (.cast .zExt 8 263) [.value (.inst 0)],
      .operation (.cast .trunc 263 260) [.value (.inst 1)],
      .operation (.cast .zExt 260 264) [.value (.inst 2)],
      .operation (.cast .trunc 264 8) [.value (.inst 3)],
      .operation (.icmp .eq 8) [.value (.inst 4), .const (.bv 8 0)],
      .condBr (.value (.inst 5)) 7 8,
      .ret,
      .ret]

/-- A second run whose input satisfies all constraints ends in the same block. -/
theorem PathConditionComplete.block_eq {F : IR.Function} {args : ℕ → Option Value}
    {placements : List Placement} {ρ₁ ρ₂ : Adacc.Input} {mem : UIntPtr → BitVec 8} {n : ℕ}
    (h : PathConditionComplete Z3Ast F args placements ρ₁ ρ₂ mem n) {b₁ b₂ : Label}
    (hrun₁ : ((Machine.steps (symStep F) n (symStart args placements ρ₁ mem : SymState Z3Ast)).any
      fun r ↦ Satisfied ρ₂ r.2 ∧ r.1.state.block = b₁) = true)
    (hrun₂ : ((Machine.steps F.step n (IR.Function.start args (placeInput ρ₂ placements mem))).map
      fun r ↦ r.1.block) = some b₂) :
    b₂ = b₁ := by
  obtain ⟨⟨S₁, events₁⟩, hsteps₁, h₁⟩ := (Option.any_eq_true _ _).mp hrun₁
  obtain ⟨⟨s₂, as₂⟩, hsteps₂, hb₂⟩ := Option.map_eq_some_iff.mp hrun₂
  obtain ⟨hsat, hb₁⟩ := of_decide_eq_true h₁
  obtain ⟨-, hblock, -⟩ := h S₁ events₁ s₂ as₂ hsteps₁ hsteps₂ hsat
  exact hb₂.symm.trans (hblock.trans hb₁)

theorem not_pathConditionComplete :
    ¬PathConditionComplete Z3Ast branchBefore (fun _ ↦ none) [⟨16, 0, 1⟩] (fun _ ↦ 0) (fun _ ↦ 1)
        (fun _ ↦ 0) 5 ∧
      ¬PathConditionComplete Z3Ast truncateWide (fun _ ↦ none) [⟨16, 0, 1⟩] (fun _ ↦ 0)
        (fun _ ↦ 16) (fun _ ↦ 0) 7 := by
  constructor
  · intro h
    have hblock : (6 : Label) = 5 := h.block_eq (by decide +kernel) (by decide +kernel)
    exact absurd hblock (by decide)
  · intro h
    have hblock : (8 : Label) = 7 := h.block_eq (by decide +kernel) (by decide +kernel)
    exact absurd hblock (by decide)

end Adacc.Symbolizer
