import Adacc.Compiler.GetElementPtr
import Mathlib.Data.Option.NAry

/-!
# The loop over the indices

Three facts about the calls that the loop makes, each by a step lemma for an index and an induction
over the indices. `Progress.Ok`: the expression of the current address denotes the base plus what
the indices so far add to it, or is null after an index that Z3 rejects. `Progress.AllConcrete`: the
inputs of the computation are null where the operands are. `Progress.Recordable`: calls refer to
results of calls before them, so that the computation can be recorded.
-/

namespace Adacc.GetElementPtr

open SmtLib ShortCircuiting

/-! ## Expressions -/

/-- What an expression of a value evaluates to. -/
def Value.denote (dl : DataLayout) (store : ℕ → ℕ) : Value → SmtLib.Value
  | .integer v =>
    if v.width = 1 then .bool ((v.toBitVec store).toNat = 1)
    else .ofNat v.width (v.toBitVec store).toNat
  | .pointer v => .ofNat dl.ptrBits (v.toBitVec store dl).toNat

section Builders

variable (ρ : Adacc.Input)

theorem eval_symBuildInteger {w : ℕ} (hw : w ≤ 64) (x : ℕ) :
    (Z3Ast.symBuildInteger (BitVec.ofNat 64 x) (UInt8.ofNat w)).eval ρ = .ofNat w x := by
  have hbits : (UInt8.ofNat w).toNat = w := UInt8.toNat_ofNat_of_lt (hw.trans_lt (by decide))
  rw [Z3Ast.symBuildInteger, Term.eval, hbits, SmtLib.Value.ofNat, BitVec.setWidth_ofNat_of_le hw]

private theorem bne_zero_of_width_one {w : ℕ} (hw : w = 1) (x : BitVec w) :
    (x != 0) = decide (x.toNat = 1) := by
  subst hw
  revert x
  decide

theorem eval_createValueExpression {dl : DataLayout} (store : ℕ → ℕ) (v : Value)
    (hv : ∀ i, v = .integer i → i.width ≤ dl.ptrBits) :
    (createValueExpression dl v (v.toNat dl store)).eval ρ = v.denote dl store := by
  cases v with
  | integer v =>
    rw [createValueExpression, Value.denote, Value.toNat, BitVec.ofNat_toNat, BitVec.setWidth_eq,
      IR.intValue]
    by_cases hone : v.width = 1
    · rw [if_pos hone, if_pos hone, Symbolizer.createValueExpression]
      exact congrArg SmtLib.Value.bool (bne_zero_of_width_one hone _)
    · have hle : v.width ≤ 64 := (hv v rfl).trans dl.ptrBits_le
      rw [if_neg hone, if_neg hone, Symbolizer.createValueExpression, if_pos hle,
        ← BitVec.ofNat_toNat]
      exact eval_symBuildInteger ρ hle _
  | pointer v =>
    cases v with
    | null => exact eval_symBuildInteger ρ dl.ptrBits_le 0
    | other n => exact eval_symBuildInteger ρ dl.ptrBits_le _

variable {ρ} {dl : DataLayout}

private theorem mkBinary_spec (op : BvOp) {a b : Z3Ast} {w x y : ℕ} (ha : a.eval ρ = .ofNat w x)
    (hb : b.eval ρ = .ofNat w y) : ∃ e, mkBinary op a b = some e ∧
      e.eval ρ = .bv w (op.denote (BitVec.ofNat w x) (BitVec.ofNat w y)) := by
  have hasort : a.sort = .bitVec w := by rw [← a.sort_eval ρ, ha, SmtLib.Value.sort_ofNat]
  have hbsort : b.sort = .bitVec w := by rw [← b.sort_eval ρ, hb, SmtLib.Value.sort_ofNat]
  refine ⟨Z3Ast.symBuildBinary op a b, ?_, ?_⟩
  · rw [mkBinary, hasort, hbsort]
    exact if_pos rfl
  · rw [Z3Ast.symBuildBinary, Term.eval, ha, hb, SmtLib.Value.ofNat, SmtLib.Value.ofNat,
      SmtLib.Value.binary, dif_pos rfl, BitVec.cast_eq]

private theorem mkZExt_spec {e : Z3Ast} {w x bits : ℕ} (he : e.eval ρ = .ofNat w x) (hx : x < 2 ^ w)
    (hbits : bits < 256) : ∃ e', mkZExt e (UInt8.ofNat bits) = some e' ∧
      e'.eval ρ = .ofNat (w + bits) x := by
  have hsort : e.sort = .bitVec w := by rw [← e.sort_eval ρ, he, SmtLib.Value.sort_ofNat]
  have hbits : (UInt8.ofNat bits).toNat = bits := UInt8.toNat_ofNat_of_lt hbits
  refine ⟨Z3Ast.symBuildZExt e (UInt8.ofNat bits), ?_, ?_⟩
  · rw [mkZExt, hsort]
  · rw [Z3Ast.symBuildZExt, Term.eval, he, SmtLib.Value.ofNat, SmtLib.Value.zeroExt, hbits,
      SmtLib.Value.bv_eq_ofNat, BitVec.toNat_setWidth, BitVec.toNat_ofNat, SmtLib.Value.ofNat_mod,
      Nat.mod_eq_of_lt hx]

private theorem mkZExt_bool {e : Z3Ast} {b : Bool} (he : e.eval ρ = .bool b) (bits : UInt8) :
    mkZExt e bits = none := by
  have hsort : e.sort = .bool := by rw [← e.sort_eval ρ, he, SmtLib.Value.sort_bool]
  rw [mkZExt, hsort]

end Builders

/-! ### Null or a number -/

/-- The argument is null, or an expression for the number. -/
def Denotes (dl : DataLayout) (ρ : Adacc.Input) (arg : ArgValue ℕ Z3Ast) : Option ℕ → Prop
  | none => arg = .expr none
  | some x => ∃ e, arg = .expr (some e) ∧ e.eval ρ = .ofNat dl.ptrBits x

section Denotes

variable {dl : DataLayout} {ρ : Adacc.Input} {a b : ArgValue ℕ Z3Ast} {x y : Option ℕ}

theorem Denotes.binaryOperator {op : BvOp} {f : ℕ → ℕ → ℕ}
    (hop : ∀ x y, op.denote (BitVec.ofNat dl.ptrBits x) (BitVec.ofNat dl.ptrBits y)
      = BitVec.ofNat dl.ptrBits (f x y))
    (ha : Denotes dl ρ a x) (hb : Denotes dl ρ b y) :
    Denotes dl ρ (.expr (z3Call (.binaryOperator op) [a, b])) (Option.map₂ f x y) := by
  cases x with
  | none =>
    obtain rfl : a = .expr none := ha
    rfl
  | some x =>
    obtain ⟨e, rfl, he⟩ := ha
    cases y with
    | none =>
      obtain rfl : b = .expr none := hb
      rfl
    | some y =>
      obtain ⟨e', rfl, he'⟩ := hb
      obtain ⟨e'', hcall, heval⟩ := mkBinary_spec op he he'
      refine ⟨e'', congrArg ArgValue.expr hcall, heval.trans ?_⟩
      rw [hop, SmtLib.Value.ofNat]

end Denotes

/-! ## The loop -/

namespace Progress

section Merge

variable (dl : DataLayout) (run : Run) {p : Progress}

theorem calls_of_eq_some {c : Computation} (h : p.symbolicComputation = some c) :
    p.calls = c.calls := by
  rw [calls, h]
  rfl

theorem calls_merge (symbolicExpressions : ℕ → Option SourceOperand) (function : RuntimeFunction)
    (args : List (Argument Value Unit)) :
    (p.merge symbolicExpressions function args).calls = p.calls ++ [⟨function,
      args.map (Argument.lookUp (getSymbolicExpression symbolicExpressions) .null)⟩] := by
  rcases p with ⟨- | c, currentAddress⟩
  · rfl
  · exact congrArg (· ++ [_]) (List.append_nil c.calls)

/-- What has happened after the calls so far, and their results. -/
def sofar (p : Progress) : List (Event RuntimeFunction ℕ Z3Ast) × List (Option Z3Ast) :=
  p.calls.foldl (Call.eval (z3 dl run.store) run.state.events (SourceOperand.eval run.state))
    (run.state.events, [])

/-- An argument after the calls so far. -/
def eval (p : Progress) (arg : Argument Value Unit) : ArgValue ℕ Z3Ast :=
  Argument.eval (z3 dl run.store) run.state.events (p.sofar dl run).1
    (SourceOperand.eval run.state) (p.sofar dl run).2
    (arg.lookUp (getSymbolicExpression run.symbolicExpressions) .null)

theorem length_sofar (p : Progress) : (p.sofar dl run).2.length = p.calls.length := by
  rw [sofar, length_foldl_eval, List.length_nil, Nat.zero_add]

private theorem sofar_merge (function : RuntimeFunction) (args : List (Argument Value Unit)) :
    ((p.merge run.symbolicExpressions function args).sofar dl run).2
      = (p.sofar dl run).2 ++ [z3Call function (args.map (p.eval dl run))] := by
  rw [sofar, calls_merge, List.foldl_append, List.foldl_cons, List.foldl_nil, Call.eval,
    List.map_map]
  rfl

theorem eval_lastInstruction_merge (function : RuntimeFunction)
    (args : List (Argument Value Unit)) :
    let p' := p.merge run.symbolicExpressions function args
    p'.eval dl run p'.lastInstruction = .expr (z3Call function (args.map (p.eval dl run))) := by
  have hlast : (p.merge run.symbolicExpressions function args).calls.length - 1
      = p.calls.length := by
    rw [calls_merge, List.length_append, List.length_singleton, Nat.add_sub_cancel]
  dsimp only
  rw [eval, sofar_merge, lastInstruction, hlast, Argument.lookUp, Argument.eval,
    ← p.length_sofar dl run, List.getD_append_right _ _ _ _ (Nat.le_refl _), Nat.sub_self]
  rfl

/-- The argument is not the result of a call to come. -/
def Bounded (p : Progress) : Argument Value Unit → Prop
  | .result k => k < p.calls.length
  | .symbolic _ _ | .concrete _ => True

theorem bounded_symbolic (v : Value) : p.Bounded (.symbolic v ()) := trivial

private theorem bounded_concrete (v : Value) : p.Bounded (.concrete v) := trivial

theorem bounded_lastInstruction_merge (symbolicExpressions : ℕ → Option SourceOperand)
    (function : RuntimeFunction) (args : List (Argument Value Unit)) :
    let p' := p.merge symbolicExpressions function args
    p'.Bounded p'.lastInstruction := by
  dsimp only
  rw [lastInstruction, Bounded, calls_merge, List.length_append, List.length_singleton,
    Nat.add_sub_cancel]
  exact Nat.lt_succ_self _

theorem Bounded.merge {arg : Argument Value Unit} (h : p.Bounded arg)
    (symbolicExpressions : ℕ → Option SourceOperand) (function : RuntimeFunction)
    (args : List (Argument Value Unit)) :
    (p.merge symbolicExpressions function args).Bounded arg := by
  cases arg with
  | symbolic | concrete => trivial
  | result k =>
    rw [Bounded, calls_merge, List.length_append, List.length_singleton]
    exact Nat.lt_succ_of_lt h

theorem Bounded.eval_merge {arg : Argument Value Unit} (h : p.Bounded arg)
    (function : RuntimeFunction) (args : List (Argument Value Unit)) :
    (p.merge run.symbolicExpressions function args).eval dl run arg = p.eval dl run arg := by
  cases arg with
  | symbolic | concrete => rfl
  | result k =>
    have hk : k < (p.sofar dl run).2.length := by
      rw [length_sofar]
      exact h
    rw [eval, sofar_merge, Argument.lookUp, Argument.eval, List.getD_append _ _ _ _ hk]
    rfl

end Merge

/-! ### The expression of the address -/

/-- What an index adds to the expression of the address. Z3 rejects the extension of a Boolean. -/
def computed (dl : DataLayout) (store : ℕ → ℕ) : Step → Option ℕ
  | .member members _ index => some (dl.elementOffset members index.toNat % 2 ^ 32)
  | .element indexedType index =>
    if index.IsZero then some 0
    else if index.width = 1 then none
    else some ((index.toBitVec store).toNat * (dl.typeAllocSize indexedType % 2 ^ 32))

/-- The number that the expression of the address denotes after the steps. -/
def computedAddress (dl : DataLayout) (store : ℕ → ℕ) (steps : List Step) (address : Option ℕ) :
    Option ℕ :=
  steps.foldl (fun address step ↦ Option.map₂ (· + ·) (computed dl store step) address) address

/-- The invariant of the loop: the current address is null, or an expression for the number. -/
structure Ok (dl : DataLayout) (run : Run) (p : Progress) (address : Option ℕ) : Prop where
  bounded : p.Bounded p.currentAddress
  denotes : Denotes dl run.input (p.eval dl run p.currentAddress) address

section Ok

variable {dl : DataLayout} {run : Run} {p : Progress}

theorem eval_symbolic (dl : DataLayout) (run : Run) (p : Progress) (v : Value)
    (hv : ∀ e, run.expression v = some e → e.eval run.input = v.denote dl run.store)
    (hwidth : ∀ i, v = .integer i → i.width ≤ dl.ptrBits) :
    ∃ e, p.eval dl run (.symbolic v ()) = .expr (some e) ∧
      e.eval run.input = v.denote dl run.store := by
  have hcreated := eval_createValueExpression run.input run.store v hwidth
  rw [eval, Argument.lookUp, Argument.eval, Input.resolve]
  rw [Run.expression] at hv
  cases hoperand : getSymbolicExpression run.symbolicExpressions v with
  | none => exact ⟨_, rfl, hcreated⟩
  | some operand =>
    rw [hoperand, Option.bind_some] at hv
    rw [Option.getD_some]
    dsimp only
    cases he : operand.eval run.state with
    | none => exact ⟨_, rfl, hcreated⟩
    | some e => exact ⟨e, rfl, hv e he⟩

theorem eval_intPtrConstant (p : Progress) (x : ℕ) :
    Denotes dl run.input (p.eval dl run (intPtrConstant dl x)) (some x) := by
  let v : IntValue := .constant dl.ptrBits (BitVec.ofNat dl.ptrBits x)
  have hne : v.width ≠ 1 := dl.one_lt_ptrBits.ne'
  obtain ⟨e, heval, he⟩ := eval_symbolic dl run p (.integer v) nofun
    fun i hi ↦ Value.integer.inj hi ▸ le_rfl
  refine ⟨e, heval, he.trans ?_⟩
  rw [Value.denote, if_neg hne]
  exact (congrArg _ (BitVec.toNat_ofNat x _)).trans (SmtLib.Value.ofNat_mod _ x)

theorem Ok.merge {address : Option ℕ} (h : p.Ok dl run address) (function : RuntimeFunction)
    (args : List (Argument Value Unit)) :
    (p.merge run.symbolicExpressions function args).Ok dl run address where
  bounded := h.bounded.merge _ function args
  denotes := (h.bounded.eval_merge dl run function args).symm ▸ h.denotes

theorem Ok.add {address : Option ℕ} (h : p.Ok dl run address) {arg : Argument Value Unit}
    {x : Option ℕ} (harg : Denotes dl run.input (p.eval dl run arg) x) :
    (p.add run.symbolicExpressions arg).Ok dl run (Option.map₂ (· + ·) x address) where
  bounded := bounded_lastInstruction_merge _ _ _
  denotes := by
    have heval := eval_lastInstruction_merge dl run (p := p) (.binaryOperator .bvadd)
      [arg, p.currentAddress]
    have hsum : ∀ x y, BvOp.denote .bvadd (BitVec.ofNat dl.ptrBits x) (BitVec.ofNat dl.ptrBits y)
        = BitVec.ofNat dl.ptrBits (x + y) := fun x y ↦ (BitVec.ofNat_add x y).symm
    have hadd := harg.binaryOperator hsum h.denotes
    exact heval.symm ▸ hadd

/-- The zero-extension of an index to the width of a pointer; a Boolean has none. -/
theorem denotes_zext {index : IntValue} (hwidth : index.width ≤ dl.ptrBits) {e : Z3Ast}
    (heval : p.eval dl run (.symbolic (.integer index) ()) = .expr (some e))
    (he : e.eval run.input = (Value.integer index).denote dl run.store) :
    let zext := p.merge run.symbolicExpressions .buildZExt [.symbolic (.integer index) (),
      .concrete (.integer (.constant 8 (BitVec.ofNat 8 (dl.ptrBits - index.width))))]
    Denotes dl run.input (zext.eval dl run zext.lastInstruction)
      (if index.width = 1 then none else some (index.toBitVec run.store).toNat) := by
  intro zext
  have hbits : dl.ptrBits - index.width < 256 :=
    (Nat.sub_le _ _).trans_lt (dl.ptrBits_le.trans_lt (by decide))
  have hzext : zext.eval dl run zext.lastInstruction
      = .expr (mkZExt e (UInt8.ofNat (dl.ptrBits - index.width))) := by
    rw [eval_lastInstruction_merge, List.map_cons, List.map_singleton, heval]
    have hconcrete : (BitVec.ofNat 8 (dl.ptrBits - index.width)).toNat
        = dl.ptrBits - index.width := by
      rw [BitVec.toNat_ofNat, Nat.mod_eq_of_lt hbits]
    exact congrArg (fun bits ↦ ArgValue.expr (mkZExt e (UInt8.ofNat bits))) hconcrete
  rw [hzext]
  rw [Value.denote] at he
  split_ifs with hone
  · rw [if_pos hone] at he
    exact congrArg _ (mkZExt_bool he _)
  · rw [if_neg hone] at he
    obtain ⟨e', he', hval⟩ := mkZExt_spec he (index.toBitVec run.store).isLt hbits
    rw [Nat.add_sub_cancel' hwidth] at hval
    exact ⟨e', congrArg _ he', hval⟩

private theorem ok_mulElementSize {address : Option ℕ} (h : p.Ok dl run address) {index : IntValue}
    (elementSize : ℕ) (hwidth : index.width ≤ dl.ptrBits)
    (hindex : ∀ e, run.expression (.integer index) = some e →
      e.eval run.input = (Value.integer index).denote dl run.store) :
    let p' := p.mulElementSize dl run.symbolicExpressions index elementSize
    p'.Ok dl run address ∧ Denotes dl run.input (p'.eval dl run p'.lastInstruction)
      (if index.width = 1 then none
        else some ((index.toBitVec run.store).toNat * elementSize)) := by
  have hmul : ∀ x y, BvOp.denote .bvmul (BitVec.ofNat dl.ptrBits x) (BitVec.ofNat dl.ptrBits y)
      = BitVec.ofNat dl.ptrBits (x * y) := fun x y ↦ (BitVec.ofNat_mul x y).symm
  obtain ⟨e, heval, he⟩ := eval_symbolic dl run p (.integer index) hindex
    fun i hi ↦ Value.integer.inj hi ▸ hwidth
  unfold mulElementSize
  by_cases hptr : index.width = dl.ptrBits
  · -- no extension
    have hone : index.width ≠ 1 := fun hone ↦ dl.one_lt_ptrBits.ne' (hptr.symm.trans hone)
    rw [if_neg (not_not.mpr hptr), if_neg hone]
    rw [Value.denote, if_neg hone] at he
    have hval : e.eval run.input = .ofNat dl.ptrBits (index.toBitVec run.store).toNat :=
      he.trans (congrArg (SmtLib.Value.ofNat · _) hptr)
    refine ⟨h.merge _ _, ?_⟩
    rw [eval_lastInstruction_merge]
    exact Denotes.binaryOperator (x := some _) (y := some elementSize) hmul ⟨e, heval, hval⟩
      (eval_intPtrConstant p elementSize)
  · rw [if_pos hptr]
    let zext := p.merge run.symbolicExpressions .buildZExt [.symbolic (.integer index) (),
      .concrete (.integer (.constant 8 (BitVec.ofNat 8 (dl.ptrBits - index.width))))]
    have hzext : Denotes dl run.input (zext.eval dl run zext.lastInstruction) _ :=
      denotes_zext hwidth heval he
    refine ⟨(h.merge _ _).merge _ _, ?_⟩
    rw [eval_lastInstruction_merge]
    have hresult := hzext.binaryOperator hmul (eval_intPtrConstant zext elementSize)
    split_ifs at hresult ⊢ with hone
    · exact hresult
    · exact hresult

theorem Ok.visit {address : Option ℕ} (h : p.Ok dl run address) {step : Step}
    (hwidth : step.operand.width ≤ dl.ptrBits)
    (hoperand : ∀ e, run.expression (.integer step.operand) = some e →
      e.eval run.input = (Value.integer step.operand).denote dl run.store) :
    (p.visit dl run.symbolicExpressions step).Ok dl run
      (Option.map₂ (· + ·) (computed dl run.store step) address) := by
  cases step with
  | member members width index =>
    exact h.add (eval_intPtrConstant p _)
  | element indexedType index =>
    rw [Progress.visit, computed]
    by_cases hzero : index.IsZero
    · rw [if_pos hzero, if_pos hzero, Option.map₂_coe_left]
      cases address with
      | none => exact h
      | some address =>
        rw [Option.map_some, Nat.zero_add]
        exact h
    · rw [if_neg hzero, if_neg hzero]
      obtain ⟨hok, hmul⟩ := ok_mulElementSize h (dl.typeAllocSize indexedType % 2 ^ 32) hwidth
        hoperand
      exact hok.add hmul

theorem Ok.foldl {address : Option ℕ} {steps : List Step} (h : p.Ok dl run address)
    (hwidth : ∀ step ∈ steps, step.operand.width ≤ dl.ptrBits)
    (hoperands : ∀ step ∈ steps, ∀ e, run.expression (.integer step.operand) = some e →
      e.eval run.input = (Value.integer step.operand).denote dl run.store) :
    (steps.foldl (Progress.visit dl run.symbolicExpressions) p).Ok dl run
      (computedAddress dl run.store steps address) := by
  induction steps generalizing p address with
  | nil => exact h
  | cons step steps ih =>
    rw [List.forall_mem_cons] at hwidth hoperands
    exact ih (h.visit hwidth.1 hoperands.1) hwidth.2 hoperands.2

end Ok

/-! ### The inputs of the computation -/

section AllConcrete

variable {dl : DataLayout} {run : Run} {p : Progress}

/-- The inputs of the calls so far are null. -/
def AllNull (run : Run) (p : Progress) : Prop :=
  ∀ call ∈ p.calls, ∀ input ∈ call.inputs, input.symbolicOperand.eval run.state = none

/-- So is the current address, if it is the pointer. -/
def AllConcrete (run : Run) (p : Progress) : Prop :=
  p.AllNull run ∧ ∀ v, p.currentAddress = .symbolic v () → run.expression v = none

private theorem eval_getD_null (run : Run) (v : Value) :
    ((getSymbolicExpression run.symbolicExpressions v).getD .null).eval run.state
      = run.expression v := by
  rw [Run.expression]
  cases getSymbolicExpression run.symbolicExpressions v <;> rfl

private theorem allNull_merge_iff (function : RuntimeFunction) (args : List (Argument Value Unit)) :
    (p.merge run.symbolicExpressions function args).AllNull run ↔
      p.AllNull run ∧ ∀ v, .symbolic v () ∈ args → run.expression v = none := by
  have hcall : (∀ input ∈ (⟨function, args.map (Argument.lookUp (getSymbolicExpression
        run.symbolicExpressions) .null)⟩ : Call RuntimeFunction Value SourceOperand).inputs,
      input.symbolicOperand.eval run.state = none) ↔
        ∀ v, .symbolic v () ∈ args → run.expression v = none := by
    rw [Call.inputs, List.filterMap_map]
    constructor
    · intro h v hv
      rw [← eval_getD_null]
      exact h _ (List.mem_filterMap.mpr ⟨_, hv, rfl⟩)
    · intro h input hinput
      obtain ⟨arg, harg, hlookup⟩ := List.mem_filterMap.mp hinput
      cases arg with
      | symbolic v =>
        obtain rfl := Option.some.inj hlookup
        exact (eval_getD_null run v).trans (h v harg)
      | concrete | result => cases hlookup
  rw [AllNull, calls_merge, List.forall_mem_append, List.forall_mem_singleton, hcall, AllNull]

theorem allConcrete_merge_iff (function : RuntimeFunction) (args : List (Argument Value Unit)) :
    (p.merge run.symbolicExpressions function args).AllConcrete run ↔
      p.AllConcrete run ∧ ∀ v, .symbolic v () ∈ args → run.expression v = none := by
  rw [AllConcrete, allNull_merge_iff, and_right_comm]
  rfl

private theorem allConcrete_add_iff (arg : Argument Value Unit) :
    (p.add run.symbolicExpressions arg).AllConcrete run ↔
      p.AllConcrete run ∧ ∀ v, arg = .symbolic v () → run.expression v = none := by
  have hadd : (p.add run.symbolicExpressions arg).AllConcrete run ↔
      (p.merge run.symbolicExpressions (.binaryOperator .bvadd)
        [arg, p.currentAddress]).AllNull run :=
    and_iff_left nofun
  rw [hadd, allNull_merge_iff, AllConcrete, and_assoc]
  refine and_congr_right fun _ ↦ ⟨fun h ↦ ⟨fun v hv ↦ ?_, fun v hv ↦ ?_⟩, fun h v hv ↦ ?_⟩
  · exact h v (List.mem_cons_of_mem _ (List.mem_singleton.mpr hv.symm))
  · exact h v (hv ▸ List.mem_cons_self)
  · rcases List.mem_cons.mp hv with hv | hv
    · exact h.2 v hv.symm
    · exact h.1 v (List.mem_singleton.mp hv).symm

private theorem allConcrete_mulElementSize_iff (index : IntValue) (elementSize : ℕ) :
    (p.mulElementSize dl run.symbolicExpressions index elementSize).AllConcrete run ↔
      p.AllConcrete run ∧ run.expression (.integer index) = none := by
  unfold mulElementSize
  split
  · dsimp only
    rw [allConcrete_merge_iff, allConcrete_merge_iff]
    simp [lastInstruction, intPtrConstant, Run.expression, getSymbolicExpression]
  · rw [allConcrete_merge_iff]
    simp [intPtrConstant, Run.expression, getSymbolicExpression]

private theorem expression_of_isZero {index : IntValue} (h : index.IsZero) :
    run.expression (.integer index) = none := by
  cases index with
  | constant => rfl
  | other => exact h.elim

private theorem allConcrete_visit_iff (step : Step) :
    (p.visit dl run.symbolicExpressions step).AllConcrete run ↔
      p.AllConcrete run ∧ run.expression (.integer step.operand) = none := by
  cases step with
  | member members width index =>
    rw [visit, allConcrete_add_iff]
    refine and_congr_right fun _ ↦ iff_of_true (fun v hv ↦ ?_) rfl
    rw [← (Argument.symbolic.inj hv).1]
    rfl
  | element indexedType index =>
    rw [visit]
    by_cases hzero : index.IsZero
    · rw [if_pos hzero]
      exact (and_iff_left (expression_of_isZero hzero)).symm
    · rw [if_neg hzero]
      dsimp only
      rw [allConcrete_add_iff, allConcrete_mulElementSize_iff]
      exact and_iff_left nofun

theorem allConcrete_foldl_iff (steps : List Step) :
    (steps.foldl (Progress.visit dl run.symbolicExpressions) p).AllConcrete run ↔
      p.AllConcrete run ∧ ∀ step ∈ steps, run.expression (.integer step.operand) = none := by
  induction steps generalizing p with
  | nil => exact (and_iff_left (List.forall_mem_nil _)).symm
  | cons step steps ih =>
    rw [List.foldl_cons, ih, allConcrete_visit_iff, List.forall_mem_cons, and_assoc]

end AllConcrete

/-! ### The computation is one that can be recorded -/

section Recorded

variable {dl : DataLayout} {symbolicExpressions : ℕ → Option SourceOperand} {p : Progress}

/-- Calls have been made, and the current address is the result of the last one. -/
def Started (p : Progress) : Prop :=
  p.symbolicComputation.isSome ∧ p.currentAddress = p.lastInstruction

private theorem started_visit {step : Step} (h : p.Started ∨ ¬ step.operand.IsZero) :
    (p.visit dl symbolicExpressions step).Started := by
  cases step with
  | member members width index => exact ⟨rfl, rfl⟩
  | element indexedType index =>
    rw [visit]
    by_cases hzero : index.IsZero
    · rw [if_pos hzero]
      exact h.resolve_right (not_not.mpr hzero)
    · rw [if_neg hzero]
      exact ⟨rfl, rfl⟩

theorem started_foldl {steps : List Step}
    (h : p.Started ∨ ∃ step ∈ steps, ¬ step.operand.IsZero) :
    (steps.foldl (Progress.visit dl symbolicExpressions) p).Started := by
  induction steps generalizing p with
  | nil => exact h.resolve_right fun ⟨_, hmem, _⟩ ↦ List.not_mem_nil hmem
  | cons step steps ih =>
    rcases h with h | ⟨step', hmem, hzero⟩
    · exact ih (.inl (started_visit (.inl h)))
    · rcases List.mem_cons.mp hmem with rfl | hmem
      · exact ih (.inl (started_visit (.inr hzero)))
      · exact ih (.inr ⟨step', hmem, hzero⟩)

/-- Calls refer to results of calls before them, and there is an input if there is a call. -/
structure Recordable (p : Progress) : Prop where
  result_lt : ∀ (k : ℕ) (call : Call RuntimeFunction Value SourceOperand),
    p.calls[k]? = some call → ∀ index, .result index ∈ call.args → index < k
  bounded : p.Bounded p.currentAddress
  inputs_ne_nil : p.calls ≠ [] → p.calls.flatMap Call.inputs ≠ []

theorem Recordable.merge (h : p.Recordable) {a b : Argument Value Unit} (ha : p.Bounded a)
    (hb : p.Bounded b) (hinput : p.calls ≠ [] ∨ ∃ v, a = .symbolic v ())
    (function : RuntimeFunction) :
    (p.merge symbolicExpressions function [a, b]).Recordable where
  result_lt k call hcall index hindex := by
    rw [calls_merge, List.getElem?_append] at hcall
    split_ifs at hcall with hk
    · exact h.result_lt k call hcall index hindex
    · rw [List.mem_singleton.mp (List.mem_of_getElem? hcall)] at hindex
      obtain ⟨arg, harg, hresult⟩ := List.mem_map.mp hindex
      have hbounded : p.Bounded arg := by
        rcases List.mem_cons.mp harg with rfl | harg
        · exact ha
        · rw [List.mem_singleton.mp harg]
          exact hb
      cases arg with
      | symbolic | concrete => cases hresult
      | result index' =>
        obtain rfl := Argument.result.inj hresult
        exact Nat.lt_of_lt_of_le hbounded (Nat.le_of_not_lt hk)
  bounded := h.bounded.merge _ _ _
  inputs_ne_nil _ := by
    rw [calls_merge, List.flatMap_append, List.flatMap_singleton]
    rcases hinput with hcalls | ⟨v, rfl⟩
    · exact List.append_ne_nil_of_left_ne_nil (h.inputs_ne_nil hcalls) _
    · exact List.append_ne_nil_of_right_ne_nil _ (List.cons_ne_nil _ _)

theorem calls_merge_ne_nil (function : RuntimeFunction) (args : List (Argument Value Unit)) :
    (p.merge symbolicExpressions function args).calls ≠ [] := by
  rw [calls_merge]
  exact List.append_ne_nil_of_right_ne_nil _ (List.cons_ne_nil _ _)

theorem Recordable.add (h : p.Recordable) {arg : Argument Value Unit} (harg : p.Bounded arg)
    (hinput : p.calls ≠ [] ∨ ∃ v, arg = .symbolic v ()) :
    (p.add symbolicExpressions arg).Recordable := by
  have hmerge : (p.merge symbolicExpressions (.binaryOperator .bvadd)
      [arg, p.currentAddress]).Recordable := h.merge harg h.bounded hinput _
  exact ⟨hmerge.result_lt, bounded_lastInstruction_merge _ _ _, hmerge.inputs_ne_nil⟩

theorem Recordable.mulElementSize (h : p.Recordable) (dl : DataLayout)
    (symbolicExpressions : ℕ → Option SourceOperand) (index : IntValue) (elementSize : ℕ) :
    let p' := p.mulElementSize dl symbolicExpressions index elementSize
    p'.Recordable ∧ p'.Bounded p'.lastInstruction ∧ p'.calls ≠ [] := by
  unfold Progress.mulElementSize
  split
  · have hzext : (p.merge symbolicExpressions .buildZExt [.symbolic (.integer index) (), .concrete
        (.integer (.constant 8 (BitVec.ofNat 8 (dl.ptrBits - index.width))))]).Recordable :=
      h.merge (bounded_symbolic _) (bounded_concrete _) (.inr ⟨_, rfl⟩) _
    exact ⟨hzext.merge (bounded_lastInstruction_merge _ _ _) (bounded_symbolic _)
        (.inl (calls_merge_ne_nil _ _)) _,
      bounded_lastInstruction_merge _ _ _, calls_merge_ne_nil _ _⟩
  · exact ⟨h.merge (bounded_symbolic _) (bounded_symbolic _) (.inr ⟨_, rfl⟩) _,
      bounded_lastInstruction_merge _ _ _, calls_merge_ne_nil _ _⟩

theorem Recordable.visit (h : p.Recordable) (step : Step) :
    (p.visit dl symbolicExpressions step).Recordable := by
  cases step with
  | member members width index => exact h.add (bounded_symbolic _) (.inr ⟨_, rfl⟩)
  | element indexedType index =>
    rw [Progress.visit]
    by_cases hzero : index.IsZero
    · rw [if_pos hzero]
      exact h
    · rw [if_neg hzero]
      obtain ⟨hmul, hbounded, hcalls⟩ := h.mulElementSize dl symbolicExpressions index
        (dl.typeAllocSize indexedType % 2 ^ 32)
      exact hmul.add hbounded (.inl hcalls)

theorem Recordable.foldl (h : p.Recordable) (steps : List Step) :
    (steps.foldl (Progress.visit dl symbolicExpressions) p).Recordable := by
  induction steps generalizing p with
  | nil => exact h
  | cons step steps ih => exact ih (h.visit step)

end Recorded

end Progress

end Adacc.GetElementPtr
