import Adacc.Compiler.Execution

/-!
# The expressions that the handlers build

An operation and its handler agree: where the operation is defined on the values of the arguments,
the handler builds an expression of its result (`apply_handler`). Division, shifts and remainders
are total in the logic and partial in the language; they agree where the language defines them.

The numbers of bits that the pass hands to the runtime library are one byte wide, and a constant of
more than 64 bits is built from exactly 128. `ImmediateFits` and `WidthSupported` say when this is
enough.
-/

namespace Adacc.Symbolizer

open SmtLib IR Backend

/-! ## Limits of the interface -/

/-- A width for which `createValueExpression` is right. -/
def WidthSupported (w : ℕ) : Prop := w ≤ 64 ∨ w = 128

instance (w : ℕ) : Decidable (WidthSupported w) := inferInstanceAs (Decidable (_ ∨ _))

/-- A value for which `createValueExpression` is right. -/
def ValueSupported : Value → Prop
  | .bool _ => True
  | .bv w _ => 0 < w ∧ WidthSupported w

instance : ∀ v : Value, Decidable (ValueSupported v)
  | .bool _ => inferInstanceAs (Decidable True)
  | .bv _ _ => inferInstanceAs (Decidable (_ ∧ _))

/-- The immediate of a cast fits in the parameter of its handler. -/
def ImmediateFits : Operation → Prop
  | .binary _ _ | .icmp _ _ => True
  | .cast .trunc _ dest => dest < 256
  | .cast .sExt src dest | .cast .zExt src dest => (if src = 1 then dest else dest - src) < 256

instance : DecidablePred ImmediateFits
  | .binary _ _ | .icmp _ _ => inferInstanceAs (Decidable True)
  | .cast .trunc _ _ | .cast .sExt _ _ | .cast .zExt _ _ => inferInstanceAs (Decidable (_ < _))

/-- The width of the operands of an operation. -/
def operandWidth : Operation → ℕ
  | .binary _ width | .icmp _ width => width
  | .cast _ src _ => src

/-- An operation that is within the limits whatever its operands are. -/
def OperationSupported (op : Operation) : Prop :=
  ImmediateFits op ∧ WidthSupported (operandWidth op)

instance : DecidablePred OperationSupported := fun _ ↦ inferInstanceAs (Decidable (_ ∧ _))

/-! ## Operations on values -/

theorem smtUDiv_eq {w : ℕ} {x y : BitVec w} (hy : y ≠ 0) : x.smtUDiv y = x / y :=
  (BitVec.smtUDiv_eq x y).trans (if_neg hy)

private theorem smtSDiv_eq {w : ℕ} {x y : BitVec w} (hy : y ≠ 0) : x.smtSDiv y = x.sdiv y := by
  have hneg : -y ≠ 0 := by simpa using hy
  rw [BitVec.smtSDiv_eq, BitVec.sdiv_eq]
  cases x.msb <;> cases y.msb <;> simp only [smtUDiv_eq hy, smtUDiv_eq hneg] <;> rfl

/-- The operators of the language and of the logic agree where the language defines a result. -/
theorem BinaryOpcode.eval_eq {w : ℕ} {op : BinaryOpcode} {x y z : BitVec w}
    (h : op.eval x y = some z) : (binaryOperatorHandlers op).denote x y = z := by
  rcases op <;> simp only [BinaryOpcode.eval, Option.ite_none_left_eq_some,
    Option.ite_none_right_eq_some, Option.some.injEq, not_or] at h
  case uDiv => exact (smtUDiv_eq h.1).trans h.2
  case sDiv => exact (smtSDiv_eq h.1.1).trans h.2
  case uRem => exact h.2
  case sRem => exact h.2
  case shl => exact h.2
  case lShr => exact h.2
  case aShr => exact h.2
  all_goals exact h

theorem Predicate.eval_eq {w : ℕ} (pred : Predicate) (x y : BitVec w) :
    (comparisonHandlers pred).denote x y = pred.eval x y := by
  rcases pred <;> rfl

theorem toNat_getInt8 {n : ℕ} (hn : n < 256) : (getInt8 n).toNat = n := by
  rw [getInt8, UInt8.toNat_ofNat', Nat.mod_eq_of_lt hn]

/-- The width after an extension. -/
theorem add_toNat_getInt8 {src dest : ℕ} (hlt : src < dest) (hbits : dest - src < 256) :
    src + (getInt8 (dest - src)).toNat = dest := by
  rw [toNat_getInt8 hbits]
  omega

section Expressions

variable {SymExpr : Type} [Backend SymExpr]

/-- The two halves of a value of 128 bits. -/
theorem append_halves (x : BitVec 128) : (x >>> 64).setWidth 64 ++ x.setWidth 64 = x := by
  apply BitVec.eq_of_toNat_eq
  have hlow : x.toNat % 2 ^ 64 < 2 ^ 64 := Nat.mod_lt _ (Nat.two_pow_pos 64)
  rw [BitVec.toNat_append, BitVec.toNat_setWidth, BitVec.toNat_setWidth, BitVec.toNat_ushiftRight,
    Nat.shiftRight_eq_div_pow, ← Nat.shiftLeft_add_eq_or_of_lt hlow, Nat.shiftLeft_eq]
  have hx := x.isLt
  omega

theorem eval_createValueExpression (ρ : Adacc.Input) {v : Value} (hv : ValueSupported v) :
    eval ρ (createValueExpression v : SymExpr) = v := by
  rcases v with b | ⟨w, x⟩
  · exact eval_bool ρ b
  obtain ⟨hpos, hw⟩ := hv
  by_cases hle : w ≤ 64
  · have hbits : (getInt8 w).toNat = w := toNat_getInt8 (by omega)
    have hx : x.toNat < 2 ^ 64 := x.isLt.trans_le (Nat.pow_le_pow_right (by decide) hle)
    rw [createValueExpression, if_pos hle, eval_integer ρ _ _ (hbits.symm ▸ hpos),
      Value.bv_eq_ofNat, hbits, Value.bv_eq_ofNat w x, BitVec.toNat_setWidth,
      BitVec.toNat_setWidth, Value.ofNat_mod, Nat.mod_eq_of_lt hx]
  · obtain rfl : w = 128 := hw.resolve_left hle
    rw [createValueExpression, if_neg hle, eval_integer128, append_halves]

/-- A cast whose immediate fits, by the builder for it. -/
theorem apply_castHandler {ρ : Adacc.Input} {op : CastOpcode} {src dest : ℕ} {a : SymExpr}
    {v : Value} (himmediate : ImmediateFits (.cast op src dest))
    (h : op.eval src dest (eval ρ a) = some v) :
    ∃ e, (handler (.cast op src dest)).apply [a] = some e ∧ eval ρ e = v := by
  rcases ha : eval ρ a with b | ⟨w, x⟩ <;> rw [ha] at h <;> dsimp only [CastOpcode.eval] at h
  -- only the zero extension of a Boolean, for which there is a function of its own
  · rw [Option.ite_none_right_eq_some, Option.some.injEq] at h
    obtain ⟨⟨rfl, rfl, hdest⟩, rfl⟩ := h
    rw [ImmediateFits, if_pos rfl] at himmediate
    have hbits := toNat_getInt8 himmediate
    refine ⟨symBuildBoolToBits a (getInt8 dest), rfl, ?_⟩
    rw [eval_boolToBits ρ a _ b ha (by omega), hbits]
  · rw [Option.ite_none_right_eq_some] at h
    obtain ⟨⟨rfl, hsrc, hdest⟩, h⟩ := h
    -- an immediate that fits arrives as it is
    have hne : w ≠ 1 := hsrc.ne'
    rcases op <;> simp only [Option.ite_none_right_eq_some, Option.some.injEq] at h <;>
      obtain ⟨hlt, rfl⟩ := h
    case trunc =>
      have hbits := toNat_getInt8 himmediate
      refine ⟨symBuildTrunc a (getInt8 dest), rfl, ?_⟩
      rw [eval_trunc ρ a _ w x ha (by omega) (by omega), hbits]
    case zExt =>
      rw [ImmediateFits, if_neg hne] at himmediate
      have hbits := add_toNat_getInt8 hlt himmediate
      have hcast : handler (.cast .zExt w dest) = .zExt (getInt8 (dest - w)) := if_neg hne
      refine ⟨symBuildZExt a (getInt8 (dest - w)), by rw [hcast]; rfl, ?_⟩
      rw [eval_zext ρ a _ w x ha, hbits]
    case sExt =>
      rw [ImmediateFits, if_neg hne] at himmediate
      have hbits := add_toNat_getInt8 hlt himmediate
      have hcast : handler (.cast .sExt w dest) = .sExt (getInt8 (dest - w)) := if_neg hne
      refine ⟨symBuildSExt a (getInt8 (dest - w)), by rw [hcast]; rfl, ?_⟩
      rw [eval_sext ρ a _ w x ha, hbits]

/-- A logical operator, by the builder for Booleans. -/
theorem apply_binaryHandler_bool {ρ : Adacc.Input} {op : BinaryOpcode} {a b : SymExpr}
    {x y z : Bool} (ha : eval ρ a = .bool x) (hb : eval ρ b = .bool y)
    (h : op.evalBool x y = some z) :
    ∃ e, (binaryHandler op 1).apply [a, b] = some e ∧ eval ρ e = .bool z := by
  rcases op <;> simp only [BinaryOpcode.evalBool, Option.some.injEq, reduceCtorEq] at h <;> subst h
  · exact ⟨symBuildBoolOp .and a b, rfl, eval_boolOp ρ .and a b x y ha hb⟩
  · exact ⟨symBuildBoolOp .or a b, rfl, eval_boolOp ρ .or a b x y ha hb⟩
  · exact ⟨symBuildBoolOp .xor a b, rfl, eval_boolOp ρ .xor a b x y ha hb⟩

/-- A binary operator, by the builder for its type. -/
theorem apply_binaryHandler {ρ : Adacc.Input} {op : BinaryOpcode} {width : ℕ} {a b : SymExpr}
    {v : Value} (h : (Operation.binary op width).eval [eval ρ a, eval ρ b] = some v) :
    ∃ e, (binaryHandler op width).apply [a, b] = some e ∧ eval ρ e = v := by
  rcases Operation.eval_binary h with ⟨x, y, z, rfl, ha, hb, hz, rfl⟩ |
    ⟨x, y, z, hw, ha, hb, hz, rfl⟩
  · exact apply_binaryHandler_bool ha hb hz
  · have hhandler : binaryHandler op width = .binary (binaryOperatorHandlers op) := if_neg hw.ne'
    refine ⟨symBuildBinary (binaryOperatorHandlers op) a b, ?_, ?_⟩
    · rw [hhandler]
      rfl
    · rw [eval_binary ρ _ a b width x y ha hb, BinaryOpcode.eval_eq hz]

/-- Where an operation is defined on the values of the arguments, its handler builds an expression
of the result. -/
theorem apply_handler {ρ : Adacc.Input} {op : Operation} {args : List SymExpr} {v : Value}
    (himmediate : ImmediateFits op) (h : op.eval (args.map (eval ρ)) = some v) :
    ∃ e, (handler op).apply args = some e ∧ eval ρ e = v := by
  rcases args with - | ⟨a, - | ⟨b, - | ⟨c, args⟩⟩⟩
  · rcases op <;> cases h
  · rcases op with ⟨op, w⟩ | ⟨pred, w⟩ | ⟨op, src, dest⟩
    · cases h
    · cases h
    · exact apply_castHandler himmediate h
  · rcases op with ⟨op, w⟩ | ⟨pred, w⟩ | ⟨op, src, dest⟩
    · exact apply_binaryHandler h
    · rw [List.map_cons, List.map_singleton, Operation.eval, Option.ite_none_right_eq_some,
        Option.bind_eq_some_iff] at h
      obtain ⟨hw, x, ha, h⟩ := h
      obtain ⟨y, hb, rfl⟩ := Option.map_eq_some_iff.mp h
      rw [bits_eq_some_iff] at ha hb
      refine ⟨symBuildCompare (comparisonHandlers pred) a b, rfl, ?_⟩
      rw [eval_compare ρ _ a b w x y ha hb, Predicate.eval_eq]
    · cases h
  · rcases op <;> cases h

end Expressions

end Adacc.Symbolizer
