import Adacc.Compiler.GetElementPtrLoop
import Mathlib.Algebra.BigOperators.Group.List.Basic
import Mathlib.Data.Int.ModEq
import Mathlib.Tactic.Ring

/-!
# When the expression of an address is right

`resultExpression_eval_iff`: where the expression of a getelementptr instruction is not null, it
evaluates to the address unless the errors for its indices add up to something other than a multiple
of `2 ^ ptrBits`. There is an error for every negative index that is narrower than a pointer,
because it is extended with zeros, and for sizes and offsets from `2 ^ 32` on (`Step.error`).
-/

namespace Adacc.GetElementPtr

open SmtLib ShortCircuiting
open IR (Ty)

/-! ## The address -/

section Address

variable (store : ℕ → ℕ) (dl : DataLayout)

/-- What the expression is off by for an index: for a negative one, `2 ^ width` times the size of an
element, and for sizes and offsets that do not fit into 32 bits, what is cut off. If an index is as
wide as a pointer, the first part is a multiple of `2 ^ ptrBits`. -/
def Step.error : Step → ℤ
  | .member members _ index =>
    (dl.elementOffset members index.toNat % 2 ^ 32 : ℕ) - (dl.elementOffset members index.toNat : ℕ)
  | .element indexedType index =>
    let x := index.toBitVec store
    let elementSize := dl.typeAllocSize indexedType
    (if x.msb then 2 ^ index.width else 0) * (elementSize % 2 ^ 32 : ℕ) +
      x.toInt * ((elementSize % 2 ^ 32 : ℕ) - elementSize)

theorem Step.dvd_error_member {members : List Ty} {width : ℕ} {index : BitVec width}
    (h : dl.elementOffset members index.toNat < 2 ^ 32) :
    (2 ^ dl.ptrBits : ℤ) ∣ (Step.member members width index).error store dl := by
  rw [Step.error, Nat.mod_eq_of_lt h, sub_self]
  exact dvd_zero _

/-- There is no error for an index that is not negative or as wide as a pointer. -/
theorem Step.dvd_error_element {indexedType : Ty} {index : IntValue}
    (hindex : index.width = dl.ptrBits ∨ (index.toBitVec store).msb = false)
    (h : dl.typeAllocSize indexedType < 2 ^ 32) :
    (2 ^ dl.ptrBits : ℤ) ∣ (Step.element indexedType index).error store dl := by
  rw [Step.error, Nat.mod_eq_of_lt h, sub_self, mul_zero, add_zero]
  rcases hindex with hwidth | hmsb
  · split
    · rw [hwidth]
      exact dvd_mul_right _ _
    · rw [zero_mul]
      exact dvd_zero _
  · rw [hmsb, if_neg Bool.false_ne_true, zero_mul]
    exact dvd_zero _

/-- An index of type `i1` other than constant zero. -/
def Step.IsBool : Step → Prop
  | .member .. => False
  | .element _ index => ¬ index.IsZero ∧ index.width = 1

variable {store dl}

private theorem toBitVec_of_isZero {index : IntValue} (h : index.IsZero) :
    index.toBitVec store = BitVec.ofNat index.width 0 := by
  cases index with
  | constant => exact h
  | other => exact h.elim

private theorem computed_of_isBool {step : Step} (h : step.IsBool) :
    Progress.computed dl store step = none := by
  cases step with
  | member => exact h.elim
  | element indexedType index => rw [Progress.computed, if_neg h.1, if_pos h.2]

private theorem toInt_add_msb {w : ℕ} (x : BitVec w) :
    x.toInt + (if x.msb then 2 ^ w else 0) = x.toNat := by
  rw [BitVec.toInt_eq_msb_cond]
  split
  · push_cast
    ring
  · rw [add_zero]

private theorem computed_of_not_isBool (store : ℕ → ℕ) (dl : DataLayout) {step : Step}
    (h : ¬ step.IsBool) : ∃ x, Progress.computed dl store step = some x ∧
      (x : ℤ) = step.contribution store dl + step.error store dl := by
  cases step with
  | member members width index =>
    refine ⟨_, rfl, ?_⟩
    rw [Step.contribution, Step.error, add_sub_cancel]
  | element indexedType index =>
    have hsum : ((index.toBitVec store).toNat * (dl.typeAllocSize indexedType % 2 ^ 32) : ℕ)
        = (Step.element indexedType index).contribution store dl +
          (Step.element indexedType index).error store dl := by
      rw [Step.contribution, Step.error, Nat.cast_mul, ← toInt_add_msb]
      ring
    rw [Progress.computed]
    by_cases hzero : index.IsZero
    · rw [if_pos hzero]
      rw [toBitVec_of_isZero hzero, BitVec.toNat_zero, Nat.zero_mul] at hsum
      exact ⟨0, rfl, hsum⟩
    · rw [if_neg hzero, if_neg fun hone ↦ h ⟨hzero, hone⟩]
      exact ⟨_, rfl, hsum⟩

private theorem contribution_of_isZero {step : Step} (h : step.operand.IsZero) :
    step.contribution store dl = 0 ∧ step.error store dl = 0 := by
  cases step with
  | member members width index =>
    obtain rfl : index = BitVec.ofNat width 0 := h
    rw [Step.contribution, Step.error, BitVec.toNat_zero, dl.elementOffset_zero]
    exact ⟨rfl, rfl⟩
  | element indexedType index =>
    have hindex : index.toBitVec store = BitVec.ofNat index.width 0 := toBitVec_of_isZero h
    rw [Step.contribution, Step.error, hindex, BitVec.toInt_zero]
    simp

private theorem sum_error_of_isZero {steps : List Step} (h : ∀ step ∈ steps, step.operand.IsZero) :
    (steps.map (Step.error store dl)).sum = 0 :=
  List.sum_eq_zero
    (List.forall_mem_map.mpr fun step hstep ↦ (contribution_of_isZero (h step hstep)).2)

theorem GetElementPtrInst.address_of_isZero (I : GetElementPtrInst dl) (store : ℕ → ℕ)
    (h : ∀ step ∈ I.steps, step.operand.IsZero) :
    I.address store = BitVec.ofNat dl.ptrBits (I.pointerOperand.toBitVec store dl).toNat := by
  have hsum : (I.steps.map (Step.contribution store dl)).sum = 0 :=
    List.sum_eq_zero
      (List.forall_mem_map.mpr fun step hstep ↦ (contribution_of_isZero (h step hstep)).1)
  rw [GetElementPtrInst.address, hsum, add_zero, BitVec.ofInt_natCast]

private theorem computedAddress_none (steps : List Step) :
    Progress.computedAddress dl store steps none = none := by
  induction steps with
  | nil => rfl
  | cons step steps ih =>
    rw [Progress.computedAddress, List.foldl_cons, Option.map₂_none_right]
    exact ih

private theorem computedAddress_of_isBool {steps : List Step} (h : ∃ step ∈ steps, step.IsBool)
    (address : Option ℕ) : Progress.computedAddress dl store steps address = none := by
  induction steps generalizing address with
  | nil => exact absurd h fun ⟨_, hmem, _⟩ ↦ List.not_mem_nil hmem
  | cons step steps ih =>
    obtain ⟨step', hmem, hbool⟩ := h
    rcases List.mem_cons.mp hmem with rfl | hmem
    · rw [Progress.computedAddress, List.foldl_cons, computed_of_isBool hbool,
        Option.map₂_none_left]
      exact computedAddress_none steps
    · exact ih ⟨step', hmem, hbool⟩ _

private theorem computedAddress_of_not_isBool (store : ℕ → ℕ) (dl : DataLayout) {steps : List Step}
    (h : ¬ ∃ step ∈ steps, step.IsBool) (base : ℕ) :
    ∃ x, Progress.computedAddress dl store steps (some base) = some x ∧
      (x : ℤ) = base + (steps.map (Step.contribution store dl)).sum +
        (steps.map (Step.error store dl)).sum := by
  induction steps generalizing base with
  | nil => exact ⟨base, rfl, by simp⟩
  | cons step steps ih =>
    obtain ⟨y, hy, hsum⟩ := computed_of_not_isBool store dl
      fun hbool ↦ h ⟨step, List.mem_cons_self, hbool⟩
    obtain ⟨x, hx, hsums⟩ := ih (fun ⟨step', hmem, hbool⟩ ↦
      h ⟨step', List.mem_cons_of_mem _ hmem, hbool⟩) (y + base)
    refine ⟨x, ?_, ?_⟩
    · rw [Progress.computedAddress, List.foldl_cons, hy]
      exact hx
    · rw [hsums, List.map_cons, List.map_cons, List.sum_cons, List.sum_cons, Nat.cast_add, hsum]
      ring

private theorem ofNat_eq_ofInt_iff {w x : ℕ} {y z : ℤ} (h : (x : ℤ) = y + z) :
    BitVec.ofNat w x = BitVec.ofInt w y ↔ (2 ^ w : ℤ) ∣ z := by
  have hpos : ((2 ^ w : ℕ) : ℤ) ≠ 0 := Nat.cast_ne_zero.mpr (Nat.two_pow_pos w).ne'
  rw [← BitVec.ofInt_natCast, ← BitVec.toNat_inj, BitVec.toNat_ofInt, BitVec.toNat_ofInt,
    ← Nat.cast_inj (R := ℤ), Int.toNat_of_nonneg (Int.emod_nonneg _ hpos),
    Int.toNat_of_nonneg (Int.emod_nonneg _ hpos), eq_comm, ← Int.ModEq, Int.modEq_iff_dvd, h,
    add_sub_cancel_left, Nat.cast_pow, Nat.cast_ofNat]

end Address

section Loop

variable {dl : DataLayout} (I : GetElementPtrInst dl)

theorem GetElementPtrInst.calls_start : I.start.calls = [] := rfl

theorem GetElementPtrInst.recordable_start : I.start.Recordable where
  result_lt k call hcall := by
    rw [I.calls_start, List.getElem?_nil] at hcall
    cases hcall
  bounded := trivial
  inputs_ne_nil hne := absurd I.calls_start hne

theorem GetElementPtrInst.started_loop (symbolicExpressions : ℕ → Option SourceOperand)
    (h : ¬ ∀ step ∈ I.steps, step.operand.IsZero) : (I.loop symbolicExpressions).Started :=
  Progress.started_foldl (.inr (by simpa only [not_forall, exists_prop] using h))

/-- What the pass registers meets what is assumed of a recorded computation. -/
theorem GetElementPtrInst.exists_recorded (symbolicExpressions : ℕ → Option SourceOperand)
    (h : ¬ ∀ step ∈ I.steps, step.operand.IsZero) :
    ∃ c, (I.loop symbolicExpressions).symbolicComputation = some c ∧ c.Recorded := by
  have hstarted := I.started_loop symbolicExpressions h
  have hrecordable : (I.loop symbolicExpressions).Recordable := I.recordable_start.foldl I.steps
  obtain ⟨c, hc⟩ := Option.isSome_iff_exists.mp hstarted.1
  have hcalls : (I.loop symbolicExpressions).calls = c.calls := Progress.calls_of_eq_some hc
  have hne : c.calls ≠ [] := List.append_ne_nil_of_right_ne_nil _ (List.cons_ne_nil _ _)
  refine ⟨c, hc, ?_, ?_⟩
  · have hinputs := hrecordable.inputs_ne_nil
    rw [hcalls] at hinputs
    exact hinputs hne
  · have hlt := hrecordable.result_lt
    rw [hcalls] at hlt
    exact hlt

variable {I} {run : Run}

/-- The operands' expressions are null or evaluate to the operands. -/
def Run.OperandsOk (run : Run) (I : GetElementPtrInst dl) : Prop :=
  ∀ v ∈ I.operands, ∀ e, run.expression v = some e → e.eval run.input = v.denote dl run.store

theorem Run.OperandsOk.ok_loop (h : run.OperandsOk I) :
    (I.loop run.symbolicExpressions).Ok dl run (Progress.computedAddress dl run.store I.steps
      (some (I.pointerOperand.toBitVec run.store dl).toNat)) := by
  refine Progress.Ok.foldl ⟨trivial, ?_⟩ I.width_le fun step hstep ↦
    h _ (List.mem_cons_of_mem _ (List.mem_map_of_mem hstep))
  exact Progress.eval_symbolic dl run I.start (.pointer I.pointerOperand)
    (h _ List.mem_cons_self) nofun

/-- The inputs of the computation are null where the operands are. -/
theorem allNull_loop_iff (h : ¬ ∀ step ∈ I.steps, step.operand.IsZero) :
    (I.loop run.symbolicExpressions).AllNull run ↔
      ∀ v ∈ I.operands, run.expression v = none := by
  have hstarted : (I.loop run.symbolicExpressions).AllConcrete run ↔
      (I.loop run.symbolicExpressions).AllNull run := by
    refine and_iff_left fun v hv ↦ ?_
    rw [(I.started_loop run.symbolicExpressions h).2] at hv
    cases hv
  have hstart : I.start.AllConcrete run ↔ run.expression (.pointer I.pointerOperand) = none := by
    refine ⟨fun hall ↦ hall.2 _ rfl, fun hnull ↦ ⟨fun call hcall ↦ ?_, fun v hv ↦ ?_⟩⟩
    · rw [I.calls_start] at hcall
      cases hcall
    · rw [← (Argument.symbolic.inj hv).1]
      exact hnull
  rw [← hstarted, GetElementPtrInst.loop, Progress.allConcrete_foldl_iff, hstart,
    GetElementPtrInst.operands, List.forall_mem_cons, List.forall_mem_map]

private theorem expression_eq_none {v : Value}
    (h : (getSymbolicExpression run.symbolicExpressions v).isNone) : run.expression v = none := by
  rw [Run.expression, Option.isNone_iff_eq_none.mp h, Option.bind_none]

private theorem resultExpression_of_isZero (h : ∀ step ∈ I.steps, step.operand.IsZero) :
    run.resultExpression I = run.expression (.pointer I.pointerOperand) := by
  unfold Run.resultExpression visitGetElementPtrInst
  by_cases hnone : ∀ v ∈ I.operands, (getSymbolicExpression run.symbolicExpressions v).isNone
  · rw [if_pos hnone]
    exact (expression_eq_none (hnone _ List.mem_cons_self)).symm
  · rw [if_neg hnone, if_pos h]
    rfl

theorem allNull_iff {c : Computation} (h : ¬ ∀ step ∈ I.steps, step.operand.IsZero)
    (hc : (I.loop run.symbolicExpressions).symbolicComputation = some c) :
    c.AllNull (SourceOperand.eval run.state) ↔ ∀ v ∈ I.operands, run.expression v = none := by
  rw [← allNull_loop_iff h, Progress.AllNull, Progress.calls_of_eq_some hc]
  constructor
  · exact fun hall call hcall input hinput ↦ Option.isNone_iff_eq_none.mp
      (hall input (List.mem_flatMap.mpr ⟨call, hcall, hinput⟩))
  · intro hall input hmem
    obtain ⟨call, hcall, hinput⟩ := List.mem_flatMap.mp hmem
    exact Option.isNone_iff_eq_none.mpr (hall call hcall input hinput)

private theorem resultExpression_of_registered {c : Computation}
    (h : ¬ ∀ step ∈ I.steps, step.operand.IsZero)
    (hnone : ¬ ∀ v ∈ I.operands, (getSymbolicExpression run.symbolicExpressions v).isNone)
    (hc : (I.loop run.symbolicExpressions).symbolicComputation = some c) :
    run.resultExpression I
      = (c.evaluate (z3 dl run.store) run.state.events (SourceOperand.eval run.state)).2 := by
  unfold Run.resultExpression visitGetElementPtrInst
  rw [if_neg hnone, if_neg h, hc]
  rfl

private theorem resultExpression_of_allConcrete (h : ∀ v ∈ I.operands, run.expression v = none) :
    run.resultExpression I = none := by
  by_cases hzero : ∀ step ∈ I.steps, step.operand.IsZero
  · rw [resultExpression_of_isZero hzero]
    exact h _ List.mem_cons_self
  · by_cases hnone : ∀ v ∈ I.operands, (getSymbolicExpression run.symbolicExpressions v).isNone
    · unfold Run.resultExpression visitGetElementPtrInst
      rw [if_pos hnone]
    · obtain ⟨c, hc, -⟩ := I.exists_recorded run.symbolicExpressions hzero
      rw [resultExpression_of_registered hzero hnone hc, SymbolicComputation.evaluate,
        if_pos ((allNull_iff hzero hc).mpr h)]

/-- If the calls are made, the result is the last address. -/
theorem resultExpression_of_not_allConcrete (hzero : ¬ ∀ step ∈ I.steps, step.operand.IsZero)
    (h : ¬ ∀ v ∈ I.operands, run.expression v = none) :
    (I.loop run.symbolicExpressions).eval dl run (I.loop run.symbolicExpressions).currentAddress
      = .expr (run.resultExpression I) := by
  obtain ⟨c, hc, -⟩ := I.exists_recorded run.symbolicExpressions hzero
  have hnone : ¬ ∀ v ∈ I.operands, (getSymbolicExpression run.symbolicExpressions v).isNone :=
    fun hnone ↦ h fun v hv ↦ expression_eq_none (hnone v hv)
  have hcalls : (I.loop run.symbolicExpressions).calls = c.calls := Progress.calls_of_eq_some hc
  rw [(I.started_loop run.symbolicExpressions hzero).2,
    resultExpression_of_registered hzero hnone hc, SymbolicComputation.evaluate,
    if_neg (mt (allNull_iff hzero hc).mp h), Progress.lastInstruction, Progress.eval,
    Argument.lookUp, Argument.eval, ← Progress.length_sofar dl run, List.getLastD_eq_getLast?,
    List.getLast?_eq_getElem?, List.getD_eq_getElem?_getD, SymbolicComputation.evalCalls, ← hcalls]
  rfl

/-! ### When the expression is right -/

/-- The expression evaluates to the address unless indices that are narrower than a pointer and
negative, or large sizes and offsets, lead it astray. -/
theorem resultExpression_eval_iff (I : GetElementPtrInst dl) (run : Run) (h : run.OperandsOk I) :
    (∀ e, run.resultExpression I = some e →
        e.eval run.input = .bv dl.ptrBits (I.address run.store)) ↔
      (∀ v ∈ I.operands, run.expression v = none) ∨ (∃ step ∈ I.steps, step.IsBool) ∨
        (2 ^ dl.ptrBits : ℤ) ∣ (I.steps.map (Step.error run.store dl)).sum := by
  by_cases hconcrete : ∀ v ∈ I.operands, run.expression v = none
  · rw [resultExpression_of_allConcrete hconcrete]
    exact iff_of_true nofun (.inl hconcrete)
  rw [or_iff_right hconcrete]
  by_cases hzero : ∀ step ∈ I.steps, step.operand.IsZero
  · rw [resultExpression_of_isZero hzero, sum_error_of_isZero hzero]
    refine iff_of_true (fun e he ↦ ?_) (.inr (dvd_zero _))
    rw [h _ List.mem_cons_self e he, I.address_of_isZero run.store hzero]
    rfl
  have hresult := resultExpression_of_not_allConcrete hzero hconcrete
  have hdenotes := h.ok_loop.denotes
  rw [hresult] at hdenotes
  by_cases hbool : ∃ step ∈ I.steps, step.IsBool
  · rw [computedAddress_of_isBool hbool] at hdenotes
    rw [ArgValue.expr.inj hdenotes]
    exact iff_of_true nofun (.inl hbool)
  rw [or_iff_right hbool]
  obtain ⟨x, hx, hsum⟩ := computedAddress_of_not_isBool run.store dl hbool
    (I.pointerOperand.toBitVec run.store dl).toNat
  rw [hx] at hdenotes
  obtain ⟨e, he, heval⟩ := hdenotes
  rw [ArgValue.expr.inj he, ← ofNat_eq_ofInt_iff hsum]
  constructor
  · exact fun hall ↦ SmtLib.Value.bv_inj (heval.symm.trans (hall e rfl))
  · intro heq e' he'
    rw [← Option.some.inj he', heval, SmtLib.Value.ofNat, heq]
    rfl

end Loop

/-! ### A negative index -/

/-- The layout of x86-64. -/
def x86 : DataLayout where
  toDataLayout := IR.X86.dataLayout
  ptrBits_le := le_rfl
  elementOffset_zero := IR.X86.elementOffset_zero

/-- `getelementptr {i32, [8 x i16]}, ptr %0, i64 0, i32 1, i8 %1` -/
def arrayElement : GetElementPtrInst x86 where
  pointerOperand := .other 0
  sourceElementType := .struct [.int 32, .array (.int 16) 8]
  steps := [.element (.struct [.int 32, .array (.int 16) 8]) (.constant 64 0),
    .member [.int 32, .array (.int 16) 8] 32 1, .element (.int 16) (.other 1 8)]
  walk := ⟨rfl, rfl, _, rfl, rfl, trivial⟩
  width_pos := by simp [Step.operand, IntValue.width]
  width_le := by simp [Step.operand, IntValue.width, x86, IR.X86.dataLayout]

/-- The index is -1, and comes from the first byte of the input. -/
def negativeIndex : Run where
  symbolicExpressions n := if n = 1 then some (.other 1) else none
  store n := if n = 0 then 4096 else 255
  state := SourceState.start fun _ ↦ some (Z3Ast.symGetInputByte 0)
  input _ := 255

private theorem operandsOk_negativeIndex : negativeIndex.OperandsOk arrayElement := by
  intro v hv e he
  simp only [GetElementPtrInst.operands, arrayElement, List.map_cons, List.map_nil,
    List.mem_cons, List.not_mem_nil, or_false] at hv
  rcases hv with rfl | rfl | rfl | rfl
  · cases he
  · cases he
  · cases he
  · obtain rfl := Option.some.inj he
    rfl

theorem resultExpression_eval_iff_negativeIndex :
    (∀ e, negativeIndex.resultExpression arrayElement = some e →
        e.eval negativeIndex.input = .bv 64 (arrayElement.address negativeIndex.store)) ↔
      (∀ v ∈ arrayElement.operands, negativeIndex.expression v = none) ∨
        (∃ step ∈ arrayElement.steps, step.IsBool) ∨
        (2 ^ 64 : ℤ) ∣ (arrayElement.steps.map (Step.error negativeIndex.store x86)).sum :=
  resultExpression_eval_iff arrayElement negativeIndex operandsOk_negativeIndex

/-- The expression is 512 too large. -/
theorem not_resultExpression_eval :
    ¬ ∀ (dl : DataLayout) (I : GetElementPtrInst dl) (run : Run), run.OperandsOk I →
      ∀ e, run.resultExpression I = some e →
        e.eval run.input = .bv dl.ptrBits (I.address run.store) := by
  intro h
  have hresult : negativeIndex.resultExpression arrayElement = some (.binary .bvadd
      (.binary .bvmul (.zeroExt 56 (.var 0)) (.numeral 64 2))
      (.binary .bvadd (.numeral 64 4) (.numeral 64 4096))) := rfl
  have haddress : SmtLib.Value.bv 64 4610 = .bv 64 4098 :=
    h x86 arrayElement negativeIndex operandsOk_negativeIndex _ hresult
  exact absurd (SmtLib.Value.bv_inj haddress) (by decide)

end Adacc.GetElementPtr
