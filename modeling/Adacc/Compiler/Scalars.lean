import Adacc.Compiler.DataLayout
import Adacc.Compiler.Handlers
import Adacc.SimpleBackend.Builders

/-!
# Integers of any width

Integer constants and the casts between integers and pointers, for all widths that LLVM allows.
Both depend on the width in ways that the operators do not: `i1` is a sort of its own, widths are
passed to the runtime library in eight bits, and a constant of more than 64 bits is made from two
halves.
-/

namespace Adacc.Symbolizer

open SmtLib IR Backend

variable {SymExpr : Type} [Backend SymExpr]

private theorem intSort_of_ne {width : ℕ} (h : width ≠ 1) : intSort width = .bitVec width :=
  if_neg h

theorem intValue_of_ne {width : ℕ} (h : width ≠ 1) (x : BitVec width) :
    intValue x = .bv width x := if_neg h

private theorem sort_intValue {width : ℕ} (x : BitVec width) :
    (intValue x).sort = intSort width := by
  rw [intValue, intSort]
  split <;> rfl

private theorem toNat_bne_zero (x : BitVec 1) : (x != 0).toNat = x.toNat := by
  revert x
  decide

/-- Different integers have different values. -/
theorem intValue_inj {width : ℕ} {x y : BitVec width} : intValue x = intValue y ↔ x = y := by
  refine ⟨fun h ↦ ?_, congrArg _⟩
  by_cases hwidth : width = 1
  · subst hwidth
    rw [intValue, intValue, if_pos rfl, if_pos rfl, Value.bool.injEq] at h
    have hx := x.isLt
    have hy := y.isLt
    apply BitVec.eq_of_toNat_eq
    have hiff := Bool.eq_iff_iff.mp h
    rw [bne_iff_ne, bne_iff_ne, Ne, Ne, BitVec.toNat_eq, BitVec.toNat_eq] at hiff
    simp only [BitVec.toNat_ofNat, BitVec.ofNat_eq_ofNat, Nat.zero_mod] at hiff
    omega
  · rw [intValue_of_ne hwidth, intValue_of_ne hwidth] at h
    exact Value.bv_inj h

/-! ## Constants -/

/-- What `createValueExpression` should do for the value `x` of an integer type: yield an expression
of the sort of the type that evaluates to `x`, so that it can be combined with any other expression
of that sort. -/
structure CreatesValue (SymExpr : Type) [Backend SymExpr] {width : ℕ} (x : BitVec width) :
    Prop where
  sort_eq : sort (createValueExpression (intValue x) : SymExpr) = intSort width
  eval_eq : ∀ ρ, eval ρ (createValueExpression (intValue x) : SymExpr) = intValue x
  binary : width ≠ 1 → ∀ ρ op (e : SymExpr) (y : BitVec width), eval ρ e = intValue y →
    eval ρ (symBuildBinary op e (createValueExpression (intValue x))) = intValue (op.denote y x) ∧
      eval ρ (symBuildBinary op (createValueExpression (intValue x)) e) = intValue (op.denote x y)
  compare : width ≠ 1 → ∀ ρ op (e : SymExpr) (y : BitVec width), eval ρ e = intValue y →
    eval ρ (symBuildCompare op e (createValueExpression (intValue x))) = .bool (op.denote y x) ∧
      eval ρ (symBuildCompare op (createValueExpression (intValue x)) e) = .bool (op.denote x y)
  boolOp : width = 1 → ∀ ρ op (e : SymExpr) (y : BitVec width), eval ρ e = intValue y →
    eval ρ (symBuildBoolOp op e (createValueExpression (intValue x)))
        = .bool (op.denote (y != 0) (x != 0)) ∧
      eval ρ (symBuildBoolOp op (createValueExpression (intValue x)) e)
        = .bool (op.denote (x != 0) (y != 0))
  caseTest : ∀ ρ (e : SymExpr) (y : BitVec width), eval ρ e = intValue y →
    eval ρ (symBuildCompare .eq e (createValueExpression (intValue x))) = .bool (y == x)

/-- Everything follows from the value. -/
theorem CreatesValue.of_eval {width : ℕ} {x : BitVec width}
    (h : ∀ ρ, eval ρ (createValueExpression (intValue x) : SymExpr) = intValue x) :
    CreatesValue SymExpr x where
  sort_eq := by rw [← sort_eval fun _ ↦ 0, h, sort_intValue]
  eval_eq := h
  binary := by
    intro hwidth ρ op e y he
    have hx := h ρ
    rw [intValue_of_ne hwidth] at he hx ⊢
    rw [intValue_of_ne hwidth, intValue_of_ne hwidth]
    exact ⟨eval_binary ρ op e _ width y x he hx, eval_binary ρ op _ e width x y hx he⟩
  compare := by
    intro hwidth ρ op e y he
    have hx := h ρ
    rw [intValue_of_ne hwidth] at he hx ⊢
    exact ⟨eval_compare ρ op e _ width y x he hx, eval_compare ρ op _ e width x y hx he⟩
  boolOp := by
    intro hwidth ρ op e y he
    have hx := h ρ
    rw [intValue, if_pos hwidth] at he hx ⊢
    exact ⟨eval_boolOp ρ op e _ _ _ he hx, eval_boolOp ρ op _ e _ _ hx he⟩
  caseTest := by
    intro ρ e y he
    have hx := h ρ
    by_cases hwidth : width = 1
    · have heq : ((y != 0) == (x != 0)) = (y == x) := by
        rw [Bool.eq_iff_iff, beq_iff_eq, beq_iff_eq, ← intValue_inj, intValue, intValue,
          if_pos hwidth, if_pos hwidth, Value.bool.injEq]
      rw [intValue, if_pos hwidth] at he hx ⊢
      rw [eval_equal_bool ρ e _ _ _ he hx, heq]
    · rw [intValue_of_ne hwidth] at he hx ⊢
      exact eval_compare ρ .eq e _ width y x he hx

/-- Constants of all widths up to 64 and of 128 bits are right, and those in between have 128
bits. -/
theorem createsValue_iff {width : ℕ} (hpos : 1 ≤ width) (hle : width ≤ 128) (x : BitVec width) :
    CreatesValue SymExpr x ↔ width ≤ 64 ∨ width = 128 := by
  constructor
  · intro h
    by_contra hwidth
    rw [not_or] at hwidth
    obtain ⟨hlt, hne⟩ := hwidth
    have hone : width ≠ 1 := by omega
    have hsort := h.sort_eq
    rw [← sort_eval fun _ ↦ 0, intValue_of_ne hone, createValueExpression, if_neg hlt,
      eval_integer128, Value.sort_bv, intSort_of_ne hone, Srt.bitVec.injEq] at hsort
    exact hne hsort.symm
  · intro hwidth
    refine CreatesValue.of_eval fun ρ ↦ eval_createValueExpression ρ ?_
    by_cases hone : width = 1
    · rw [intValue, if_pos hone]
      trivial
    · rw [intValue_of_ne hone]
      exact ⟨hpos, hwidth⟩

theorem createsValue_iff_i24 :
    CreatesValue Z3Ast (5 : BitVec 24) ↔ 24 ≤ 64 ∨ 24 = 128 :=
  createsValue_iff (by decide) (by decide) 5

/-- The number 2 as an `i65` becomes an expression of 128 bits. -/
theorem not_createsValue : ¬ CreatesValue Z3Ast (2 : BitVec 65) := by
  intro h
  exact absurd h.sort_eq (by decide)

/-! ## Casts -/

/-- `trunc`, `zext`, `sext`, `ptrtoint` and `inttoptr`, with the widths of the integer types. -/
inductive CastInst
  | trunc (src dest : ℕ)
  | zExt (src dest : ℕ)
  | sExt (src dest : ℕ)
  | ptrToInt (dest : ℕ)
  | intToPtr (src : ℕ)

namespace CastInst

/-- The widths that LLVM allows. -/
def IsValid : CastInst → Prop
  | .trunc src dest => 0 < dest ∧ dest < src
  | .zExt src dest | .sExt src dest => 0 < src ∧ src < dest
  | .ptrToInt dest => 0 < dest
  | .intToPtr src => 0 < src

instance : DecidablePred IsValid
  | .trunc _ _ | .zExt _ _ | .sExt _ _ => inferInstanceAs (Decidable (_ ∧ _))
  | .ptrToInt _ | .intToPtr _ => inferInstanceAs (Decidable (_ < _))

section Widths

variable (dl : DataLayout)

def srcWidth : CastInst → ℕ
  | .trunc src _ | .zExt src _ | .sExt src _ | .intToPtr src => src
  | .ptrToInt _ => dl.ptrBits

def destWidth : CastInst → ℕ
  | .trunc _ dest | .zExt _ dest | .sExt _ dest | .ptrToInt dest => dest
  | .intToPtr _ => dl.ptrBits

/-- The result of the instruction. -/
def result : (c : CastInst) → BitVec (c.srcWidth dl) → BitVec (c.destWidth dl)
  | .trunc _ dest, x | .zExt _ dest, x | .ptrToInt dest, x => x.setWidth dest
  | .sExt _ dest, x => x.signExtend dest
  | .intToPtr _, x => x.setWidth dl.ptrBits

end Widths

/-- What the visitor attaches to the result: a call of a handler with the expression of the operand,
or in `visitIntToPtrInst` and `visitPtrToIntInst` that expression itself. -/
def handler : CastInst → Option SymFnT
  | .trunc _ dest => some (.trunc (getInt8 dest))
  | .zExt src dest => some (castHandler .zExt src dest)
  | .sExt src dest => some (castHandler .sExt src dest)
  | .ptrToInt _ | .intToPtr _ => none

/-- The expression of the result. -/
def expression (c : CastInst) (e : SymExpr) : Option SymExpr :=
  match c.handler with
  | some handler => handler.apply [e]
  | none => some e

variable (SymExpr) in
/-- What a cast should do on expressions. -/
def Preserves (dl : DataLayout) (c : CastInst) : Prop :=
  ∀ e : SymExpr, sort e = intSort (c.srcWidth dl) →
    ∃ r, c.expression e = some r ∧ sort r = intSort (c.destWidth dl) ∧
      ∀ ρ (x : BitVec (c.srcWidth dl)), eval ρ e = intValue x → eval ρ r = intValue (c.result dl x)

/-- Between integers, what is passed in eight bits has to fit, and a Boolean has no sign and is not
the result of a truncation; pointers are only converted to integers of their width. -/
def Supported (dl : DataLayout) : CastInst → Prop
  | .trunc _ dest => dest ≠ 1 ∧ dest < 256
  | .zExt src dest => (if src = 1 then dest else dest - src) < 256
  | .sExt src dest => src ≠ 1 ∧ dest - src < 256
  | .ptrToInt dest => dest = dl.ptrBits
  | .intToPtr src => src = dl.ptrBits

instance (dl : DataLayout) : DecidablePred (Supported dl)
  | .trunc _ _ | .sExt _ _ => inferInstanceAs (Decidable (_ ∧ _))
  | .zExt _ _ => inferInstanceAs (Decidable (_ < _))
  | .ptrToInt _ | .intToPtr _ => inferInstanceAs (Decidable (_ = _))

end CastInst

/-- An expression of an integer type evaluates to an integer of the type. -/
theorem exists_eval_intValue {width : ℕ} {e : SymExpr} (he : sort e = intSort width)
    (ρ : Adacc.Input) : ∃ x : BitVec width, eval ρ e = intValue x := by
  by_cases hwidth : width = 1
  · subst hwidth
    rcases hval : eval ρ e with b | ⟨w, x⟩
    · refine ⟨BitVec.ofNat 1 b.toNat, ?_⟩
      rw [intValue, if_pos rfl]
      cases b <;> rfl
    · have hsort := sort_eval ρ e
      rw [hval, he] at hsort
      cases hsort
  · rw [intSort_of_ne hwidth] at he
    obtain ⟨x, hx⟩ := Value.exists_bv_of_sort ((sort_eval ρ e).trans he)
    exact ⟨x, hx.trans (intValue_of_ne hwidth x).symm⟩

/-- The sort of a result follows from its values. -/
theorem CastInst.preserves_of_eval {dl : DataLayout} {c : CastInst}
    (h : ∀ e : SymExpr, sort e = intSort (c.srcWidth dl) →
      ∃ r, c.expression e = some r ∧ ∀ ρ (x : BitVec (c.srcWidth dl)), eval ρ e = intValue x →
        eval ρ r = intValue (c.result dl x)) : c.Preserves SymExpr dl := by
  intro e he
  obtain ⟨r, hr, heval⟩ := h e he
  obtain ⟨x, hx⟩ := exists_eval_intValue he fun _ ↦ 0
  refine ⟨r, hr, ?_, heval⟩
  rw [← sort_eval fun _ ↦ 0, heval _ x hx, sort_intValue]

private theorem preserves_trunc (dl : DataLayout) {src dest : ℕ} (hvalid : 0 < dest ∧ dest < src)
    (hone : dest ≠ 1) (hfits : dest < 256) : (CastInst.trunc src dest).Preserves SymExpr dl := by
  refine CastInst.preserves_of_eval fun e _ ↦ ⟨symBuildTrunc e (getInt8 dest), rfl, fun ρ x hx ↦ ?_⟩
  have hbits := toNat_getInt8 hfits
  have hsrc : src ≠ 1 := by omega
  rw [intValue_of_ne (show (CastInst.trunc src dest).srcWidth dl ≠ 1 from hsrc)] at hx
  rw [intValue_of_ne (show (CastInst.trunc src dest).destWidth dl ≠ 1 from hone),
    eval_trunc ρ e _ src x hx (by omega) (by omega), hbits]
  rfl

private theorem preserves_zExt (dl : DataLayout) {src dest : ℕ} (hvalid : 0 < src ∧ src < dest)
    (hfits : (if src = 1 then dest else dest - src) < 256) :
    (CastInst.zExt src dest).Preserves SymExpr dl := by
  have hdest : dest ≠ 1 := by omega
  by_cases hsrc : src = 1
  · subst hsrc
    rw [if_pos rfl] at hfits
    have hbits := toNat_getInt8 hfits
    refine CastInst.preserves_of_eval fun e _ ↦
      ⟨symBuildBoolToBits e (getInt8 dest), rfl, fun ρ x hx ↦ ?_⟩
    have hcast : ∀ x : BitVec 1, BitVec.ofNat dest (x != 0).toNat = x.setWidth dest := by
      intro x
      rw [toNat_bne_zero, BitVec.ofNat_toNat]
    rw [intValue_of_ne (show (CastInst.zExt 1 dest).destWidth dl ≠ 1 from hdest),
      eval_boolToBits ρ e _ _ hx (by omega), hbits]
    exact congrArg (Value.bv dest) (hcast x)
  · rw [if_neg hsrc] at hfits
    have hbits := add_toNat_getInt8 hvalid.2 hfits
    have hhandler : castHandler .zExt src dest = .zExt (getInt8 (dest - src)) := if_neg hsrc
    refine CastInst.preserves_of_eval fun e _ ↦
      ⟨symBuildZExt e (getInt8 (dest - src)), ?_, fun ρ x hx ↦ ?_⟩
    · rw [CastInst.expression, CastInst.handler, hhandler]
      rfl
    · rw [intValue_of_ne (show (CastInst.zExt src dest).srcWidth dl ≠ 1 from hsrc)] at hx
      rw [intValue_of_ne (show (CastInst.zExt src dest).destWidth dl ≠ 1 from hdest),
        eval_zext ρ e _ src x hx, hbits]
      rfl

private theorem preserves_sExt (dl : DataLayout) {src dest : ℕ} (hvalid : 0 < src ∧ src < dest)
    (hsrc : src ≠ 1) (hfits : dest - src < 256) :
    (CastInst.sExt src dest).Preserves SymExpr dl := by
  have hdest : dest ≠ 1 := by omega
  have hbits := add_toNat_getInt8 hvalid.2 hfits
  have hhandler : castHandler .sExt src dest = .sExt (getInt8 (dest - src)) := if_neg hsrc
  refine CastInst.preserves_of_eval fun e _ ↦
    ⟨symBuildSExt e (getInt8 (dest - src)), ?_, fun ρ x hx ↦ ?_⟩
  · rw [CastInst.expression, CastInst.handler, hhandler]
    rfl
  · rw [intValue_of_ne (show (CastInst.sExt src dest).srcWidth dl ≠ 1 from hsrc)] at hx
    rw [intValue_of_ne (show (CastInst.sExt src dest).destWidth dl ≠ 1 from hdest),
      eval_sext ρ e _ src x hx, hbits]
    rfl

/-- A pointer and an integer of its width have the same expressions. -/
theorem preserves_ptrToInt (dl : DataLayout) :
    (CastInst.ptrToInt dl.ptrBits).Preserves SymExpr dl := by
  refine CastInst.preserves_of_eval fun e _ ↦ ⟨e, rfl, fun ρ x hx ↦ ?_⟩
  rw [hx]
  exact congrArg intValue (BitVec.setWidth_eq x).symm

private theorem preserves_intToPtr (dl : DataLayout) :
    (CastInst.intToPtr dl.ptrBits).Preserves SymExpr dl := by
  refine CastInst.preserves_of_eval fun e _ ↦ ⟨e, rfl, fun ρ x hx ↦ ?_⟩
  rw [hx]
  exact congrArg intValue (BitVec.setWidth_eq x).symm

/-- Supported casts preserve value and sort. -/
theorem cast_preserves (dl : DataLayout) (c : CastInst) (hvalid : c.IsValid)
    (hsupported : c.Supported dl) : c.Preserves SymExpr dl := by
  rcases c with ⟨src, dest⟩ | ⟨src, dest⟩ | ⟨src, dest⟩ | dest | src
  · exact preserves_trunc dl hvalid hsupported.1 hsupported.2
  · exact preserves_zExt dl hvalid hsupported
  · exact preserves_sExt dl hvalid hsupported.1 hsupported.2
  · obtain rfl : dest = dl.ptrBits := hsupported
    exact preserves_ptrToInt dl
  · obtain rfl : src = dl.ptrBits := hsupported
    exact preserves_intToPtr dl

theorem cast_preserves_i33 : (CastInst.sExt 33 64).Preserves Z3Ast X86.dataLayout :=
  cast_preserves X86.dataLayout (.sExt 33 64) (by decide) (by decide)

/-- Extending an `i8` by 256 bits adds none of them, and a pointer as an `i32` still has 64 bits. -/
theorem not_preserves :
    ((CastInst.zExt 8 264).IsValid ∧ ¬ (CastInst.zExt 8 264).Preserves Z3Ast X86.dataLayout) ∧
      (CastInst.ptrToInt 32).IsValid ∧ ¬ (CastInst.ptrToInt 32).Preserves Z3Ast X86.dataLayout := by
  refine ⟨⟨by decide, fun h ↦ ?_⟩, by decide, fun h ↦ ?_⟩
  · obtain ⟨r, hr, hsort, -⟩ := h (.var 0) rfl
    obtain rfl := Option.some.inj hr
    exact absurd hsort (by decide)
  · obtain ⟨r, hr, hsort, -⟩ := h (.numeral 64 0) rfl
    obtain rfl := Option.some.inj hr
    exact absurd hsort (by decide)

/-! ## The code of the visitors -/

/-- For an operand with an expression, the code that `visitTruncInst` and `visitCastInst` insert
attaches the result of the handler. -/
theorem exec_visitOperation {m : SymbolicExpressions} {V : Operand} {operand : SymOperand}
    {S : SymState SymExpr} {e : SymExpr} (hentry : getSymbolicExpression m V = some operand)
    (he : operand.eval S.exprs = some e) (handler : SymFnT) (I : ValueId) :
    ∃ c, visitOperation m handler I [V] = ([.computation c], I :: m) ∧
      (shortCircuit c).exec S = (handler.apply [e]).map fun r ↦ (S.setExpr (some r), []) := by
  obtain ⟨id, rfl⟩ : ∃ id, operand = .expr id := by
    rcases operand with - | id
    · cases he
    · exact ⟨id, rfl⟩
  have hcall : buildRuntimeCall m (.build handler) [V]
      = some ⟨.build handler, [⟨V, .expr id⟩]⟩ := by
    rw [buildRuntimeCall, if_neg]
    · rw [forceBuildRuntimeCall, List.map_singleton, getSymbolicExpressionOrNull, hentry,
        Option.getD_some]
    · intro hnone
      rw [hnone V (List.mem_singleton_self V)] at hentry
      cases hentry
  refine ⟨⟨.build handler, [⟨V, .expr id⟩]⟩, ?_, ?_⟩
  · rw [visitOperation, hcall]
    rfl
  · have hcheck : ¬ ∀ e ∈ [SymOperand.expr id], (e.eval S.exprs).isNone := by
      rw [List.forall_mem_singleton, he]
      exact Bool.false_ne_true
    have hargs : [Argument.operand (.expr id)].mapM (Argument.eval S) = some [e] := by
      rw [List.mapM_cons, List.mapM_nil, Argument.eval, he]
      rfl
    have hshort : shortCircuit ⟨.build handler, [⟨V, .expr id⟩]⟩
        = ⟨.build handler, [.expr id], [.operand (.expr id)]⟩ := by
      simp [shortCircuit, argumentFor]
    rw [hshort, ShortCircuit.exec, if_neg hcheck, hargs]
    rfl

end Adacc.Symbolizer
