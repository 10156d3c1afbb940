import Adacc.Compiler.Symbolizer

/-!
# Which values have expressions

What the pass knows about a value depends on when it looks: `symbolicExpressionsAt F k` are the
entries when the instruction at position `k` is visited. Entries are only added, and an instruction
is the only one to add its own, so a value that is laid out earlier and has no entry at `k` never
gets one. A value laid out later has no entry yet, whether or not it gets one in the end; this is
the one way in which an operand is taken to be concrete without being so.

The results are `runOnFunction_getElem?`, which gives the code inserted for the instruction at a
position in terms of `operandAt` and `phiOperand`, and the conditions under which these are null.
-/

namespace Adacc.Symbolizer

open SmtLib IR

/-! ## Visiting all instructions -/

theorem visit_snd (m : SymbolicExpressions) (littleEndian : Bool) (pos : ℕ) (I : Instr) :
    (visit m littleEndian pos I).2 = m ∨ (visit m littleEndian pos I).2 = .inst pos :: m := by
  have hregister : ∀ c, (registerSymbolicComputation m c (some (.inst pos))).2 = m ∨
      (registerSymbolicComputation m c (some (.inst pos))).2 = .inst pos :: m := by
    rintro (- | c)
    · exact .inl rfl
    · exact .inr rfl
  rcases I with ⟨⟨op, w⟩ | ⟨pred, w⟩ | ⟨- | - | -, src, dest⟩, operands⟩ | ⟨ty, addr⟩ |
    ⟨ty, value, addr⟩ | incoming | target | ⟨cond, l, r⟩ | ⟨cond, default, cases⟩ | -
  iterate 5 exact hregister _
  · exact .inr rfl
  · exact .inl rfl
  · exact .inr rfl
  · exact .inl rfl
  · left
    dsimp only [visit, visitBranchInst]
    rcases buildRuntimeCall m (.pushPathConstraint cond) [cond] with - | c <;> rfl
  · left
    dsimp only [visit, visitSwitchInst]
    split <;> rfl
  · exact .inl rfl

private theorem visitAll_append (littleEndian : Bool) (pos : ℕ) (m : SymbolicExpressions)
    (code code' : List Instr) :
    (visitAll littleEndian pos m (code ++ code')).2
      = (visitAll littleEndian (pos + code.length)
          (visitAll littleEndian pos m code).2 code').2 := by
  induction code generalizing pos m with
  | nil => rfl
  | cons I code ih =>
    rw [List.cons_append, visitAll, visitAll, List.length_cons, Nat.add_comm code.length 1,
      ← Nat.add_assoc]
    exact ih _ _

theorem visitAll_getElem? (littleEndian : Bool) (pos : ℕ) (m : SymbolicExpressions)
    (code : List Instr) (k : ℕ) :
    (visitAll littleEndian pos m code).1[k]? = code[k]?.map fun I ↦
      ⟨I, (visit (visitAll littleEndian pos m (code.take k)).2 littleEndian (pos + k) I).1⟩ := by
  induction code generalizing pos m k with
  | nil => rfl
  | cons I code ih =>
    rcases k with - | k
    · rfl
    · rw [visitAll, List.getElem?_cons_succ, List.getElem?_cons_succ, ih, List.take_succ_cons,
        visitAll, Nat.add_assoc, Nat.add_comm 1]

/-- Entries stay, and only visited instructions get one. -/
theorem subset_visitAll (littleEndian : Bool) (pos : ℕ) (m : SymbolicExpressions)
    (code : List Instr) : m ⊆ (visitAll littleEndian pos m code).2 := by
  induction code generalizing pos m with
  | nil => exact List.Subset.refl m
  | cons I code ih =>
    refine List.Subset.trans (?_ : m ⊆ (visit m littleEndian pos I).2) (ih (pos + 1) _)
    rcases visit_snd m littleEndian pos I with h | h <;> rw [h]
    · exact List.Subset.refl m
    · exact List.subset_cons_self _ m

private theorem mem_visitAll {littleEndian : Bool} {pos : ℕ} {m : SymbolicExpressions}
    {code : List Instr} {id : ValueId} (h : id ∈ (visitAll littleEndian pos m code).2) :
    id ∈ m ∨ ∃ q, id = .inst q ∧ pos ≤ q ∧ q < pos + code.length := by
  induction code generalizing pos m with
  | nil => exact .inl h
  | cons I code ih =>
    rcases ih h with hmem | ⟨q, rfl, hle, hlt⟩
    · replace hmem : id ∈ (visit m littleEndian pos I).2 := hmem
      rcases visit_snd m littleEndian pos I with hvisit | hvisit
      · exact .inl (hvisit ▸ hmem)
      · rw [hvisit, List.mem_cons] at hmem
        rcases hmem with rfl | hmem
        · exact .inr ⟨pos, rfl, Nat.le_refl _, by rw [List.length_cons]; omega⟩
        · exact .inl hmem
    · exact .inr ⟨q, rfl, by omega, by rw [List.length_cons]; omega⟩

/-! ## The entries over time -/

/-- The entries when the instruction at position `k` is visited. -/
def symbolicExpressionsAt (F : IR.Function) (k : ℕ) : SymbolicExpressions :=
  (visitAll F.littleEndian 0 (symbolizeFunctionArguments F) (F.code.take k)).2

/-- The entries after all visits. -/
def finalSymbolicExpressions (F : IR.Function) : SymbolicExpressions :=
  (visitAll F.littleEndian 0 (symbolizeFunctionArguments F) F.code).2

/-- The expressions that have been removed as PHI nodes of constants. -/
def erasedNodes (F : IR.Function) : List ValueId :=
  nodesToErase (finalSymbolicExpressions F) 0
    (visitAll F.littleEndian 0 (symbolizeFunctionArguments F) F.code).1

/-- The instrumented function computes an expression for the value. -/
def HasExpression (F : IR.Function) (id : ValueId) : Prop :=
  id ∈ finalSymbolicExpressions F ∧ id ∉ erasedNodes F

section Entries

variable {F : IR.Function} {k q : ℕ} {I : Instr} {id : ValueId}

private theorem final_eq_visitAll_drop (F : IR.Function) {k : ℕ} (hk : k ≤ F.code.length) :
    finalSymbolicExpressions F
      = (visitAll F.littleEndian k (symbolicExpressionsAt F k) (F.code.drop k)).2 := by
  have happ := visitAll_append F.littleEndian 0 (symbolizeFunctionArguments F) (F.code.take k)
    (F.code.drop k)
  rwa [List.take_append_drop, List.length_take, Nat.min_eq_left hk, Nat.zero_add] at happ

theorem symbolicExpressionsAt_succ (hI : F.code[k]? = some I) :
    symbolicExpressionsAt F (k + 1)
      = (visit (symbolicExpressionsAt F k) F.littleEndian k I).2 := by
  have hk : k < F.code.length := (List.getElem?_eq_some_iff.mp hI).1
  rw [symbolicExpressionsAt, List.take_add_one, hI, visitAll_append, List.length_take,
    Nat.min_eq_left hk.le, Nat.zero_add]
  rfl

private theorem symbolicExpressionsAt_subset (hk : k ≤ F.code.length) :
    symbolicExpressionsAt F k ⊆ finalSymbolicExpressions F := by
  rw [final_eq_visitAll_drop F hk]
  exact subset_visitAll _ _ _ _

/-- What has no entry when position `k` is visited gets one only if it is laid out there or
later. -/
theorem mem_symbolicExpressionsAt_or_le (hk : k ≤ F.code.length)
    (h : id ∈ finalSymbolicExpressions F) :
    id ∈ symbolicExpressionsAt F k ∨ ∃ q, id = .inst q ∧ k ≤ q := by
  rw [final_eq_visitAll_drop F hk] at h
  rcases mem_visitAll h with hmem | ⟨q, hq, hle, -⟩
  · exact .inl hmem
  · exact .inr ⟨q, hq, hle⟩

private theorem inst_notMem_symbolizeFunctionArguments (F : IR.Function) (q : ℕ) :
    .inst q ∉ symbolizeFunctionArguments F := by
  unfold symbolizeFunctionArguments
  split
  · exact List.not_mem_nil
  · rw [List.mem_map]
    rintro ⟨arg, -, h⟩
    cases h

/-- An instruction has no entry before its visit. -/
theorem inst_notMem_symbolicExpressionsAt (hle : k ≤ q) : .inst q ∉ symbolicExpressionsAt F k := by
  intro hmem
  rcases mem_visitAll hmem with hmem | ⟨q', hq', -, hlt⟩
  · exact inst_notMem_symbolizeFunctionArguments F q hmem
  · rw [List.length_take] at hlt
    cases hq'
    omega

/-- Only its own visit gives an instruction an entry. -/
theorem inst_mem_final_iff (hI : F.code[k]? = some I) :
    .inst k ∈ finalSymbolicExpressions F ↔
      .inst k ∈ (visit (symbolicExpressionsAt F k) F.littleEndian k I).2 := by
  have hk : k < F.code.length := (List.getElem?_eq_some_iff.mp hI).1
  rw [← symbolicExpressionsAt_succ hI]
  constructor
  · intro h
    rcases mem_symbolicExpressionsAt_or_le hk h with hmem | ⟨q, hq, hle⟩
    · exact hmem
    · cases hq
      omega
  · exact fun h ↦ symbolicExpressionsAt_subset hk h

theorem mem_nodesToErase_iff {m : SymbolicExpressions} {pos : ℕ}
    {code : List (Instrumented SymbolicComputation)} :
    id ∈ nodesToErase m pos code ↔
      ∃ q I, id = .inst (pos + q) ∧ code[q]? = some I ∧ erasesPHI m I.inst = true := by
  induction code generalizing pos with
  | nil => simp [nodesToErase]
  | cons I code ih =>
    have hrest : id ∈ nodesToErase m (pos + 1) code ↔ ∃ q J, id = .inst (pos + (q + 1)) ∧
        (I :: code)[q + 1]? = some J ∧ erasesPHI m J.inst = true := by
      simp only [ih, List.getElem?_cons_succ, Nat.add_assoc, Nat.add_comm 1]
    rw [nodesToErase]
    constructor
    · intro h
      split at h
      · next herase =>
        rcases List.mem_cons.mp h with rfl | h
        · exact ⟨0, I, rfl, rfl, herase⟩
        · obtain ⟨q, J, hJ⟩ := hrest.mp h
          exact ⟨q + 1, J, hJ⟩
      · obtain ⟨q, J, hJ⟩ := hrest.mp h
        exact ⟨q + 1, J, hJ⟩
    · rintro ⟨- | q, J, hid, hJ, herase⟩
      · rw [List.getElem?_cons_zero, Option.some.injEq] at hJ
        rw [hJ, if_pos herase]
        exact List.mem_cons.mpr (.inl hid)
      · have hmem := hrest.mpr ⟨q, J, hid, hJ, herase⟩
        split
        · exact List.mem_cons_of_mem _ hmem
        · exact hmem

/-- Only the symbolic PHI of a PHI node that receives constants is erased. -/
theorem inst_mem_erasedNodes_iff (hI : F.code[k]? = some I) :
    .inst k ∈ erasedNodes F ↔ erasesPHI (finalSymbolicExpressions F) I = true := by
  rw [erasedNodes, mem_nodesToErase_iff]
  simp only [Nat.zero_add, visitAll_getElem?]
  constructor
  · rintro ⟨q, J, hq, hJ, herase⟩
    cases hq
    rw [hI, Option.map_some, Option.some.injEq] at hJ
    rwa [← hJ] at herase
  · intro herase
    exact ⟨k, _, rfl, by rw [hI, Option.map_some], herase⟩

end Entries

/-! ## Operands of the inserted code -/

/-- The expression that stands for the operand `V` in the code inserted at position `k`. -/
def operandAt (F : IR.Function) (k : ℕ) (V : Operand) : SymOperand :=
  (getSymbolicExpressionOrNull (symbolicExpressionsAt F k) V).replace (erasedNodes F)

/-- The expression that stands for the incoming value `V` of a PHI node. -/
def phiOperand (F : IR.Function) (V : Operand) : SymOperand :=
  (getSymbolicExpressionOrNull (finalSymbolicExpressions F) V).replace (erasedNodes F)

section Operands

variable {F : IR.Function} {m : SymbolicExpressions} {erased : List ValueId} {k : ℕ} {V : Operand}
  {id : ValueId}

theorem replace_getSymbolicExpressionOrNull (m : SymbolicExpressions) (erased : List ValueId)
    (id : ValueId) :
    (getSymbolicExpressionOrNull m (.value id)).replace erased
      = if id ∈ m ∧ id ∉ erased then .expr id else .null := by
  by_cases hm : id ∈ m <;> by_cases he : id ∈ erased <;>
    simp [getSymbolicExpressionOrNull, getSymbolicExpression, SymOperand.replace, hm, he]

theorem operandAt_value (F : IR.Function) (k : ℕ) (id : ValueId) :
    operandAt F k (.value id)
      = if id ∈ symbolicExpressionsAt F k ∧ id ∉ erasedNodes F then .expr id else .null :=
  replace_getSymbolicExpressionOrNull _ _ id

theorem phiOperand_value (F : IR.Function) (id : ValueId) [Decidable (HasExpression F id)] :
    phiOperand F (.value id) = if HasExpression F id then .expr id else .null := by
  rw [phiOperand, replace_getSymbolicExpressionOrNull]
  exact if_congr Iff.rfl rfl rfl

theorem operandAt_eq_null_of_none
    (h : getSymbolicExpression (symbolicExpressionsAt F k) V = none) : operandAt F k V = .null := by
  rw [operandAt, getSymbolicExpressionOrNull, h]
  rfl

/-- An operand is null for one of two reasons: its value has no expression at all, or it is laid out
at or after the position where it is used. -/
theorem operandAt_eq_null (hk : k ≤ F.code.length) (h : operandAt F k (.value id) = .null) :
    ¬HasExpression F id ∨ ∃ q, id = .inst q ∧ k ≤ q := by
  rw [operandAt_value] at h
  split at h
  · cases h
  · next hnot =>
    by_cases hfinal : HasExpression F id
    · rcases mem_symbolicExpressionsAt_or_le hk hfinal.1 with hmem | hlate
      · exact absurd ⟨hmem, hfinal.2⟩ hnot
      · exact .inr hlate
    · exact .inl hfinal

end Operands

/-! ## The code inserted at a position -/

/-- The handler of the visitor for an operation. -/
def handler : Operation → SymFnT
  | .binary op width => binaryHandler op width
  | .icmp pred _ => .compare (comparisonHandlers pred)
  | .cast .trunc _ dest => .trunc (getInt8 dest)
  | .cast .sExt src dest => castHandler .sExt src dest
  | .cast .zExt src dest => castHandler .zExt src dest

private theorem visit_operation (m : SymbolicExpressions) (littleEndian : Bool) (pos : ℕ)
    (op : Operation) (operands : List Operand) :
    visit m littleEndian pos (.operation op operands)
      = visitOperation m (handler op) (.inst pos) operands := by
  rcases op with ⟨op, w⟩ | ⟨pred, w⟩ | ⟨- | - | -, src, dest⟩ <;> rfl

/-- A computation with the inputs `Vs` at position `k`, after the rewriting passes. -/
def computationAt (F : IR.Function) (k : ℕ) (action : Action) (Vs : List Operand) :
    SymCode ShortCircuit :=
  .computation (shortCircuit ⟨action, Vs.map fun V ↦ ⟨V, operandAt F k V⟩⟩)

/-- The computation, unless no input has an entry. -/
def computationIfEntry (F : IR.Function) (k : ℕ) (action : Action) (Vs : List Operand) :
    List (SymCode ShortCircuit) :=
  if ∀ V ∈ Vs, getSymbolicExpression (symbolicExpressionsAt F k) V = none then []
  else [computationAt F k action Vs]

/-- The code that the pass leaves before the instruction `I` at position `k`. -/
def insertedCode (F : IR.Function) (k : ℕ) : Instr → List (SymCode ShortCircuit)
  | .operation op operands => computationIfEntry F k (.build (handler op)) operands
  | .load ty addr =>
    computationIfEntry F k (.pushAssertion addr) [addr] ++
      [.readMemory addr ty.storeSize F.littleEndian]
  | .store ty value addr =>
    computationIfEntry F k (.pushAssertion addr) [addr] ++
      [.writeMemory addr ty.storeSize (operandAt F k value) F.littleEndian]
  | .phi incoming =>
    if erasesPHI (finalSymbolicExpressions F) (.phi incoming) then []
    else [.phi (incoming.map fun edge ↦ (edge.1, phiOperand F edge.2))]
  | .condBr cond _ _ => computationIfEntry F k (.pushPathConstraint cond) [cond]
  | .switch cond _ cases =>
    if getSymbolicExpression (symbolicExpressionsAt F k) cond = none then []
    else [.constraints cond (operandAt F k cond) (cases.map Prod.fst)]
  | .br _ | .ret => []

section Inserted

variable (F : IR.Function) (k : ℕ)

/-- The rewriting passes on the code of one visit. -/
private def rewritten (code : List (SymCode SymbolicComputation)) : List (SymCode ShortCircuit) :=
  (code.map (SymCode.replace (erasedNodes F))).map SymCode.shortCircuit

private theorem rewritten_register (action : Action) (Vs : List Operand) (id : Option ValueId) :
    rewritten F (registerSymbolicComputation (symbolicExpressionsAt F k)
      (buildRuntimeCall (symbolicExpressionsAt F k) action Vs) id).1
      = computationIfEntry F k action Vs := by
  unfold computationIfEntry buildRuntimeCall
  split
  · rfl
  · simp only [registerSymbolicComputation, rewritten, List.map_cons, List.map_nil, SymCode.replace,
      SymCode.shortCircuit, forceBuildRuntimeCall, List.map_map, computationAt]
    rfl

private theorem rewritten_tryAlternative (V : Operand) :
    rewritten F (tryAlternative (symbolicExpressionsAt F k) V)
      = computationIfEntry F k (.pushAssertion V) [V] := by
  rcases h : getSymbolicExpression (symbolicExpressionsAt F k) V with - | e <;>
    simp [computationIfEntry, tryAlternative, computationAt, rewritten, operandAt,
      getSymbolicExpressionOrNull, h, SymCode.replace, SymCode.shortCircuit]

private theorem setIncomingValues_inst (m : SymbolicExpressions)
    (I : Instrumented SymbolicComputation) : (setIncomingValues m I).inst = I.inst := by
  unfold setIncomingValues
  split
  · split <;> rfl
  · rfl

theorem runOnFunction_getElem? :
    (runOnFunction F)[k]? = F.code[k]?.map fun I ↦ ⟨I, insertedCode F k I⟩ := by
  -- all passes work on one instruction at a time, given the entries and the erased nodes
  have hcode : (runOnFunction F)[k]? = F.code[k]?.map fun I ↦ ⟨I, rewritten F
      (setIncomingValues (finalSymbolicExpressions F)
        ⟨I, (visit (symbolicExpressionsAt F k) F.littleEndian k I).1⟩).code⟩ := by
    simp only [runOnFunction, shortCircuitExpressionUses, finalizePHINodes, List.getElem?_map,
      visitAll_getElem?, Option.map_map, Nat.zero_add]
    rcases F.code[k]? with - | I
    · rfl
    · simp only [Option.map_some, Function.comp_apply, setIncomingValues_inst]
      rfl
  rw [hcode]
  congr 1
  funext I
  congr 1
  rcases I with ⟨op, operands⟩ | ⟨ty, addr⟩ | ⟨ty, value, addr⟩ | incoming | target |
    ⟨cond, l, r⟩ | ⟨cond, default, cases⟩ | -
  · rw [visit_operation]
    exact rewritten_register F k _ operands _
  · have htry := rewritten_tryAlternative F k addr
    simp only [setIncomingValues, visit, visitLoadInst, insertedCode, ← htry, rewritten,
      List.map_append]
    rfl
  · have htry := rewritten_tryAlternative F k addr
    simp only [setIncomingValues, visit, visitStoreInst, insertedCode, ← htry, rewritten,
      List.map_append]
    rfl
  · simp only [setIncomingValues, insertedCode]
    split
    · rfl
    · simp only [rewritten, List.map_cons, List.map_nil, SymCode.replace, SymCode.shortCircuit,
        List.map_map]
      rfl
  · rfl
  · exact rewritten_register F k _ [cond] none
  · simp only [setIncomingValues, visit, visitSwitchInst, insertedCode]
    rcases h : getSymbolicExpression (symbolicExpressionsAt F k) cond with - | e
    · rfl
    · rw [if_neg (Option.some_ne_none e), operandAt, getSymbolicExpressionOrNull, h]
      rfl
  · rfl

end Inserted

/-! ## Expressions of instructions -/

section HasExpression

variable {F : IR.Function} {k : ℕ}

theorem hasExpression_operation_iff {op : Operation} {operands : List Operand}
    (hI : F.code[k]? = some (.operation op operands)) :
    HasExpression F (.inst k) ↔
      ¬∀ V ∈ operands, getSymbolicExpression (symbolicExpressionsAt F k) V = none := by
  rw [HasExpression, inst_mem_final_iff hI, inst_mem_erasedNodes_iff hI, visit_operation,
    visitOperation, buildRuntimeCall]
  have hnew := inst_notMem_symbolicExpressionsAt (F := F) (Nat.le_refl k)
  split
  · next h => simpa [registerSymbolicComputation, hnew] using h
  · next h => simp [registerSymbolicComputation, erasesPHI, h]

theorem hasExpression_load {ty : IntTy} {addr : Operand}
    (hI : F.code[k]? = some (.load ty addr)) : HasExpression F (.inst k) := by
  rw [HasExpression, inst_mem_final_iff hI, inst_mem_erasedNodes_iff hI]
  exact ⟨List.mem_cons_self, Bool.false_ne_true⟩

theorem hasExpression_phi_iff {incoming : List (Label × Operand)}
    (hI : F.code[k]? = some (.phi incoming)) :
    HasExpression F (.inst k) ↔ ¬erasesPHI (finalSymbolicExpressions F) (.phi incoming) = true := by
  rw [HasExpression, inst_mem_final_iff hI, inst_mem_erasedNodes_iff hI]
  exact and_iff_right List.mem_cons_self

end HasExpression

end Adacc.Symbolizer
