import Adacc.Compiler.ValueForwarding

/-!
# The expression attached to a value

What a user of a value finds depends on when it is visited. An entry of `symbolicExpressions` never
changes once the value has been visited, so an operand that is laid out before the user stands for
the same expression at the visit as in the end (`getSymbolicExpression_of_laidOutBefore`); one that
is laid out later has no entry yet. `attached` is the expression in the end, with the symbolic PHIs
that `finalizePHINodes` erases replaced by null.
-/

namespace Adacc.Forwarding

open SmtLib
open IR (ValueId Operand Label Env Ty)
open Symbolizer (SymOperand)

/-! ## Entries -/

section Entries

variable {F : Function} {I : Instr} {k q : ℕ} {V : Operand}

/-- A visit adds an entry for its own instruction or none. -/
theorem visit_snd (m : SymbolicExpressions) (I : ValueId) (inst : Instr) :
    (visit m I inst).2 = m ∨ ∃ id, (visit m I inst).2 = (I, id) :: m := by
  have hregister : ∀ computation,
      (registerSymbolicComputation m I computation (some I)).2 = m ∨
        ∃ id, (registerSymbolicComputation m I computation (some I)).2 = (I, id) :: m := by
    rintro (- | computation)
    · exact .inl rfl
    · exact .inr ⟨I, rfl⟩
  have hnone : ∀ computation, (registerSymbolicComputation m I computation none).2 = m := by
    rintro (- | computation) <;> rfl
  have hkeep : ∀ V, (keepExpression m I V).2 = m ∨
      ∃ id, (keepExpression m I V).2 = (I, id) :: m := by
    intro V
    unfold keepExpression
    split
    · exact .inl rfl
    · exact .inr ⟨_, rfl⟩
  rcases inst with ⟨cond, ifTrue, ifFalse⟩ | ⟨srcTy, destTy, src⟩ | incoming | ⟨value, expected⟩ |
    ⟨- | ⟨function, operands⟩ | operand | -⟩ | target | ⟨cond, ifTrue, ifFalse⟩ |
    ⟨cond, default, cases⟩ | -
  · exact .inl (hnone _)
  · dsimp only [visit, visitBitCastInst]
    split
    · exact hregister _
    · exact .inl (hnone _)
    · exact hkeep src
  · exact .inr ⟨I, rfl⟩
  · exact hkeep value
  · exact .inr ⟨I, rfl⟩
  · exact hregister _
  · exact hkeep operand
  · exact .inl rfl
  · exact .inl rfl
  · exact .inl (hnone _)
  · dsimp only [visit, visitSwitchInst]
    split <;> exact .inl rfl
  · exact .inl rfl

private theorem lookup_visit_of_ne (m : SymbolicExpressions) {I id : ValueId} (h : id ≠ I)
    (inst : Instr) : (visit m I inst).2.lookup id = m.lookup id := by
  rcases visit_snd m I inst with hvisit | ⟨id', hvisit⟩
  · rw [hvisit]
  · rw [hvisit, List.lookup_cons, beq_false_of_ne h]

theorem symbolicExpressionsAt_succ (hI : F.code[k]? = some I) :
    symbolicExpressionsAt F (k + 1) = (visit (symbolicExpressionsAt F k) (.inst k) I).2 := by
  rw [symbolicExpressionsAt, hI]

/-- Only the visit of `id` itself changes its entry. -/
theorem lookup_symbolicExpressionsAt_succ {id : ValueId} (h : id ≠ .inst k) :
    (symbolicExpressionsAt F (k + 1)).lookup id = (symbolicExpressionsAt F k).lookup id := by
  rw [symbolicExpressionsAt]
  split
  · rfl
  · exact lookup_visit_of_ne _ h _

private theorem lookup_symbolizeFunctionArguments_inst (F : Function) (q : ℕ) :
    (symbolizeFunctionArguments F).lookup (.inst q) = none := by
  unfold symbolizeFunctionArguments
  split
  · rfl
  · rw [List.lookup_eq_none_iff]
    rintro ⟨id, expr⟩ hmem
    obtain ⟨arg, -, heq⟩ := List.mem_map.mp hmem
    cases heq
    rfl

/-- An instruction has no entry before its visit. -/
theorem lookup_inst_of_le (hle : k ≤ q) : (symbolicExpressionsAt F k).lookup (.inst q) = none := by
  induction k with
  | zero => exact lookup_symbolizeFunctionArguments_inst F q
  | succ k ih =>
    have hne : ValueId.inst q ≠ .inst k := by
      intro h
      cases h
      omega
    rw [lookup_symbolicExpressionsAt_succ hne, ih (by omega)]

/-- What is not visited from position `k` on keeps its entry. -/
theorem lookup_of_le {id : ValueId} (hid : ∀ q, id = .inst q → q < k) {j : ℕ} (hkj : k ≤ j) :
    (symbolicExpressionsAt F j).lookup id = (symbolicExpressionsAt F k).lookup id := by
  induction j, hkj using Nat.le_induction with
  | base => rfl
  | succ j hkj ih =>
    rw [lookup_symbolicExpressionsAt_succ, ih]
    intro h
    have hlt := hid j h
    omega

/-- The operand is laid out before position `k`, if it is laid out at all. -/
def LaidOutBefore (k : ℕ) : Operand → Prop
  | .value (.inst q) => q < k
  | .value (.arg _) | .const _ => True

/-- The entry of an operand that has been visited is final. -/
theorem getSymbolicExpression_of_laidOutBefore (hk : k ≤ F.code.length) (h : LaidOutBefore k V) :
    getSymbolicExpression (finalSymbolicExpressions F) V
      = getSymbolicExpression (symbolicExpressionsAt F k) V := by
  rcases V with v | ⟨n | q⟩
  · rfl
  · refine lookup_of_le (fun q hq ↦ ?_) hk
    cases hq
  · refine lookup_of_le (fun q' hq ↦ ?_) hk
    cases hq
    exact h

theorem getSymbolicExpression_of_not_laidOutBefore (h : ¬LaidOutBefore k V) :
    getSymbolicExpression (symbolicExpressionsAt F k) V = none := by
  rcases V with v | ⟨n | q⟩
  · exact absurd trivial h
  · exact absurd trivial h
  · exact lookup_inst_of_le (Nat.le_of_not_lt h)

/-- The entry of an instruction is the one that its visit has added. -/
theorem lookup_final_inst (hI : F.code[k]? = some I) :
    (finalSymbolicExpressions F).lookup (.inst k)
      = (visit (symbolicExpressionsAt F k) (.inst k) I).2.lookup (.inst k) := by
  have hk : k < F.code.length := (List.getElem?_eq_some_iff.mp hI).1
  rw [← symbolicExpressionsAt_succ hI, finalSymbolicExpressions]
  refine lookup_of_le (fun q hq ↦ ?_) hk
  cases hq
  exact Nat.lt_succ_self _

private theorem inst_mem_nodesToErase_iff (hI : F.code[k]? = some I) :
    .inst k ∈ nodesToErase F ↔ erasesPHI (finalSymbolicExpressions F) I = true := by
  obtain ⟨hk, rfl⟩ := List.getElem?_eq_some_iff.mp hI
  simp [nodesToErase, hk]

end Entries

/-! ## Attached expressions -/

/-- What stands for the operand in code that is inserted after all visits. -/
def attachedOperand (F : Function) (V : Operand) : SymOperand :=
  (getSymbolicExpressionOrNull (finalSymbolicExpressions F) V).replace (nodesToErase F)

variable {SymExpr : Type}

/-- The expression attached to the operand. -/
def attached (F : Function) (s : State SymExpr) (V : Operand) : Option SymExpr :=
  (attachedOperand F V).eval s.exprs

section Attached

variable {F : Function} {I : Instr} {k : ℕ} {V : Operand}

theorem attachedOperand_of_none (h : getSymbolicExpression (finalSymbolicExpressions F) V = none) :
    attachedOperand F V = .null := by
  rw [attachedOperand, getSymbolicExpressionOrNull, h]
  rfl

/-- Two operands with the same entry stand for the same expression. -/
theorem attachedOperand_congr {V W : Operand}
    (h : getSymbolicExpression (finalSymbolicExpressions F) V
      = getSymbolicExpression (finalSymbolicExpressions F) W) :
    attachedOperand F V = attachedOperand F W := by
  rw [attachedOperand, attachedOperand, getSymbolicExpressionOrNull, getSymbolicExpressionOrNull, h]

/-- An operand that has been visited stands for the same expression at the visit of position `k` as
in the end. -/
theorem replace_getSymbolicExpressionOrNull (hk : k ≤ F.code.length) (h : LaidOutBefore k V) :
    (getSymbolicExpressionOrNull (symbolicExpressionsAt F k) V).replace (nodesToErase F)
      = attachedOperand F V := by
  rw [attachedOperand, getSymbolicExpressionOrNull, getSymbolicExpressionOrNull,
    getSymbolicExpression_of_laidOutBefore hk h]

/-- What a visit has not registered has no expression. -/
theorem attachedOperand_inst_of_none (hI : F.code[k]? = some I)
    (h : (visit (symbolicExpressionsAt F k) (.inst k) I).2 = symbolicExpressionsAt F k) :
    attachedOperand F (.value (.inst k)) = .null := by
  refine attachedOperand_of_none ?_
  rw [getSymbolicExpression, lookup_final_inst hI, h]
  exact lookup_inst_of_le (Nat.le_refl k)

/-- What a visit has registered has the expression of the inserted code. -/
theorem attachedOperand_inst_of_cons (hI : F.code[k]? = some I)
    (h : (visit (symbolicExpressionsAt F k) (.inst k) I).2
      = (.inst k, .inst k) :: symbolicExpressionsAt F k) :
    attachedOperand F (.value (.inst k))
      = if erasesPHI (finalSymbolicExpressions F) I then .null else .expr (.inst k) := by
  have hentry : getSymbolicExpression (finalSymbolicExpressions F) (.value (.inst k))
      = some (.inst k) := by
    rw [getSymbolicExpression, lookup_final_inst hI, h, List.lookup_cons_self]
  rw [attachedOperand, getSymbolicExpressionOrNull, hentry, Option.elim_some, SymOperand.replace]
  exact if_congr (inst_mem_nodesToErase_iff hI) rfl rfl

theorem getSymbolicExpression_of_keepExpression (hI : F.code[k]? = some I)
    (h : visit (symbolicExpressionsAt F k) (.inst k) I
      = keepExpression (symbolicExpressionsAt F k) (.inst k) V) :
    getSymbolicExpression (finalSymbolicExpressions F) (.value (.inst k))
      = getSymbolicExpression (symbolicExpressionsAt F k) V := by
  rw [getSymbolicExpression, lookup_final_inst hI, h, keepExpression]
  split
  · next hnone =>
    rw [hnone]
    exact lookup_inst_of_le (Nat.le_refl k)
  · next expr hexpr => rw [hexpr, List.lookup_cons_self]

end Attached

end Adacc.Forwarding
