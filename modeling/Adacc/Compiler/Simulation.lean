import Adacc.Compiler.Phis

/-!
# One step of an instrumented function

`follows` is the simulation. Let the symbolic state `S` stand for `s` under `ρ`, let the operands
that the inserted code uses stand for those of the instruction, and let both concrete states take a
step. Then the instrumented function takes a step, which is the one of its concrete state, and if
the constraints that it pushes hold under `ρ` with the directions taken, then it stands for the step
of `s` afterwards and makes the same accesses. If `s` is the concrete state of `S` itself, the
constraints do hold.

There is one lemma for each kind of instruction. Values from memory and stores need the address to
be the same in both states, jumps need the condition to lead to the same target; this is what the
pushed constraints provide.
-/

namespace Adacc.Symbolizer

open SmtLib IR Backend ModularRange ByteOrder TraverseOption

variable {SymExpr : Type}

/-! ## Constraints and limits -/

/-- The operands that the instruction reads where it stands. Those of PHI nodes are read in the
blocks before. -/
def operandsOf : Instr → List Operand
  | .operation _ operands => operands
  | .load _ addr => [addr]
  | .store _ value addr => [value, addr]
  | .condBr cond _ _ | .switch cond _ _ => [cond]
  | .phi _ | .br _ | .ret => []

/-- The expression that inserted code has for an operand of the instruction at the program
counter. -/
def operandExpr (F : IR.Function) (S : SymState SymExpr) (V : Operand) : Option SymExpr :=
  (operandAt F S.state.pc V).eval S.exprs

/-- The inserted code is within the limits of the interface to the runtime library. If it computes
anything, then immediates fit, and constants can be built for operands without expression and for
the cases of a `switch`. -/
def WithinLimits (F : IR.Function) (S : SymState SymExpr) : Instr → Prop
  | .operation op operands =>
    (∃ V ∈ operands, (operandExpr F S V).isSome) →
      ImmediateFits op ∧
        ((∃ V ∈ operands, operandExpr F S V = none) → WidthSupported (operandWidth op))
  | .switch cond _ cases => (operandExpr F S cond).isSome → ∀ c ∈ cases, ValueSupported c.1
  | .load _ _ | .store _ _ _ | .phi _ | .br _ | .condBr _ _ _ | .ret => True

variable [Backend SymExpr]

/-- Every constraint that is pushed holds under `ρ` with the direction taken. -/
def Satisfied (ρ : Adacc.Input) (events : List (SymEvent SymExpr)) : Prop :=
  ∀ constraint taken, .pushPathConstraint constraint taken ∈ events →
    eval ρ constraint = .bool taken

@[simp] theorem satisfied_nil (ρ : Adacc.Input) : Satisfied ρ ([] : List (SymEvent SymExpr)) :=
  fun _ _ h ↦ absurd h List.not_mem_nil

@[simp] theorem satisfied_append_access {ρ : Adacc.Input} {events : List (SymEvent SymExpr)}
    {as : List Access} : Satisfied ρ (events ++ as.map .access) ↔ Satisfied ρ events := by
  simp [Satisfied]

theorem satisfied_append {ρ : Adacc.Input} {events events' : List (SymEvent SymExpr)} :
    Satisfied ρ (events ++ events') ↔ Satisfied ρ events ∧ Satisfied ρ events' := by
  simp only [Satisfied, List.mem_append, or_imp, forall_and]

@[simp] theorem satisfied_singleton {ρ : Adacc.Input} {constraint : SymExpr} {taken : Bool} :
    Satisfied ρ [.pushPathConstraint constraint taken] ↔ eval ρ constraint = .bool taken := by
  simp [Satisfied]

omit [Backend SymExpr] in
theorem accesses_append_access {events : List (SymEvent SymExpr)} (h : accesses events = [])
    (as : List Access) : accesses (events ++ as.map .access) = as := by
  rw [accesses, List.filterMap_append, ← accesses, h, List.nil_append, List.filterMap_map]
  exact List.filterMap_some

/-- What is to be shown of a step of `S` in which its concrete state reaches `t₁` with the accesses
`as₁`, while `s` reaches `t₂` with the accesses `as₂`. -/
structure Follows (F : IR.Function) (ρ : Adacc.Input) (S : SymState SymExpr) (s : State)
    (t₁ : State) (as₁ : List Access) (t₂ : State) (as₂ : List Access) (S' : SymState SymExpr)
    (events : List (SymEvent SymExpr)) : Prop where
  step : symStep F S = some (S', events)
  state : S'.state = t₁
  accesses : accesses events = as₁
  live : Live F S'.exprs
  denotes : Satisfied ρ events → Denotes ρ S' t₂ ∧ as₂ = as₁
  satisfied : s = S.state → Satisfied ρ events

/-! ## Running inserted code -/

section Code

variable {F : IR.Function} {ρ : Adacc.Input} {S : SymState SymExpr} {s : State} {k : ℕ}

theorem execCode_singleton (c : SymCode ShortCircuit) (S : SymState SymExpr) :
    execCode [c] S = c.exec S := by
  rw [execCode]
  rcases c.exec S with - | ⟨S', events⟩
  · rfl
  · simp [execCode]

theorem execCode_append {code code' : List (SymCode ShortCircuit)} {S S' : SymState SymExpr}
    {events : List (SymEvent SymExpr)} (h : execCode code S = some (S', events)) :
    execCode (code ++ code') S
      = (execCode code' S').map fun rest ↦ (rest.1, events ++ rest.2) := by
  induction code generalizing S events with
  | nil =>
    cases h
    simp
  | cons c code ih =>
    rw [execCode, Option.bind_eq_some_iff] at h
    obtain ⟨⟨S₁, events₁⟩, hc, h⟩ := h
    obtain ⟨⟨S₂, events₂⟩, hrest, heq⟩ := Option.map_eq_some_iff.mp h
    cases heq
    rw [List.cons_append, execCode, hc, Option.bind_some, ih hrest, Option.map_map]
    simp only [Function.comp_def, List.append_assoc]

/-- `exec_shortCircuit` for the code of a visitor, which is left out if no operand has an entry. -/
theorem execCode_computationIfEntry (action : Action) {Vs : List Operand}
    (hskip : (∀ V ∈ Vs, getSymbolicExpression (symbolicExpressionsAt F k) V = none) →
      action.skip S = S)
    (hreads : ∀ V ∈ Vs, Reads ρ S s V (operandAt F k V))
    (hdefined : ∀ V ∈ Vs, ∃ v, V.eval S.state.env = some v)
    (hsupported : (∃ V ∈ Vs, ((operandAt F k V).eval S.exprs).isSome) → ∀ V ∈ Vs,
      (operandAt F k V).eval S.exprs = none → ∀ v, V.eval S.state.env = some v →
        ValueSupported v) :
    ((∀ V ∈ Vs, (operandAt F k V).eval S.exprs = none) ∧
      execCode (computationIfEntry F k action Vs) S = some (action.skip S, [])) ∨
    (∃ V ∈ Vs, ((operandAt F k V).eval S.exprs).isSome) ∧ ∃ args,
      execCode (computationIfEntry F k action Vs) S = action.exec S args ∧
        Vs.mapM (Operand.eval s.env) = some (args.map (eval ρ)) := by
  rw [computationIfEntry]
  split
  · next hnone =>
    refine .inl ⟨fun V hV ↦ ?_, by rw [hskip hnone]; rfl⟩
    rw [operandAt_eq_null_of_none (hnone V hV)]
    rfl
  · rw [execCode_singleton]
    exact exec_shortCircuit action hreads hdefined hsupported

/-- A step that is not a jump. -/
theorem symStep_of_execCode {I : Instr} (hI : F.code[S.state.pc]? = some I)
    (hterm : isTerminator I = false) {S' : SymState SymExpr} {events : List (SymEvent SymExpr)}
    (hcode : execCode (insertedCode F S.state.pc I) S = some (S', events))
    (hstate : S'.state = S.state) {t : State} {as : List Access}
    (hexec : I.exec F S.state = some (t, as)) :
    symStep F S = some ({ S' with state := t }, events ++ as.map .access) := by
  rw [symStep, runOnFunction_getElem?, hI, Option.map_some, Option.bind_some, hcode,
    Option.bind_some, hstate, hexec, Option.map_some, hterm]
  rfl

end Code

/-! ## Operations -/

section Operation

variable {F : IR.Function} {ρ : Adacc.Input} {S : SymState SymExpr} {s : State}

/-- Constants can be built for the operands of an operation of a supported width. -/
theorem ValueSupported.of_operation {op : Operation} {vs : List Value} {v : Value}
    (hwidth : WidthSupported (operandWidth op)) (heval : op.eval vs = some v) :
    ∀ a ∈ vs, ValueSupported a := by
  rcases vs with - | ⟨a, - | ⟨b, - | ⟨c, vs⟩⟩⟩
  · rcases op <;> cases heval
  · rcases op with ⟨op, w⟩ | ⟨pred, w⟩ | ⟨op, src, dest⟩
    · cases heval
    · cases heval
    · rw [List.forall_mem_singleton]
      rcases a with x | ⟨w, x⟩
      · trivial
      · dsimp only [Operation.eval, CastOpcode.eval] at heval
        rw [Option.ite_none_right_eq_some] at heval
        obtain ⟨⟨rfl, hsrc, -⟩, -⟩ := heval
        exact ⟨by omega, hwidth⟩
  · rcases op with ⟨op, w⟩ | ⟨pred, w⟩ | ⟨op, src, dest⟩
    · rcases Operation.eval_binary heval with ⟨x, y, z, -, rfl, rfl, -, -⟩ |
        ⟨x, y, z, hw, rfl, rfl, -, -⟩
      · simp [ValueSupported]
      · have hx : 0 < w ∧ WidthSupported w := ⟨by omega, hwidth⟩
        simp [ValueSupported, hx]
    · rw [Operation.eval, Option.ite_none_right_eq_some, Option.bind_eq_some_iff] at heval
      obtain ⟨hw, x, hx, heval⟩ := heval
      obtain ⟨y, hy, -⟩ := Option.map_eq_some_iff.mp heval
      have hsupported : 0 < w ∧ WidthSupported w := ⟨by omega, hwidth⟩
      rw [bits_eq_some_iff] at hx hy
      simp [ValueSupported, hx, hy, hsupported]
    · cases heval
  · rcases op <;> cases heval

omit [Backend SymExpr] in
theorem Live.setExpr_none (hlive : Live F S.exprs) (h : ¬HasExpression F (.inst S.state.pc)) :
    S.setExpr none = S := by
  rw [SymState.setExpr, ← hlive _ h, Function.update_eq_self]

/-- The code for an operation yields an expression of the result, or null if the operands are the
same in both states. -/
theorem execCode_operation {op : Operation} {operands : List Operand} (hlive : Live F S.exprs)
    (hI : F.code[S.state.pc]? = some (.operation op operands))
    (hreads : ∀ V ∈ operands, Reads ρ S s V (operandAt F S.state.pc V))
    (hlimits : WithinLimits F S (.operation op operands)) {vs₁ vs₂ : List Value} {v₁ v₂ : Value}
    (hvs₁ : operands.mapM (Operand.eval S.state.env) = some vs₁)
    (hvs₂ : operands.mapM (Operand.eval s.env) = some vs₂)
    (hv₁ : op.eval vs₁ = some v₁) (hv₂ : op.eval vs₂ = some v₂) :
    ∃ r, execCode (insertedCode F S.state.pc (.operation op operands)) S = some (S.setExpr r, []) ∧
      some v₂ = under ρ r (some v₁) ∧ Live F (S.setExpr r).exprs := by
  have hskip : (∀ V ∈ operands,
      getSymbolicExpression (symbolicExpressionsAt F S.state.pc) V = none) →
      Action.skip S (.build (handler op)) = S := fun hnone ↦
    hlive.setExpr_none ((hasExpression_operation_iff hI).not_left.mpr hnone)
  have hdefined : ∀ V ∈ operands, ∃ v, V.eval S.state.env = some v := fun V hV ↦ by
    obtain ⟨v, -, hv⟩ := exists_of_mapM hvs₁ hV
    exact ⟨v, hv⟩
  have hsupported : (∃ V ∈ operands, ((operandAt F S.state.pc V).eval S.exprs).isSome) →
      ∀ V ∈ operands, (operandAt F S.state.pc V).eval S.exprs = none →
        ∀ v, V.eval S.state.env = some v → ValueSupported v := by
    rintro hsome V hV hnone v hv
    obtain ⟨a, ha, hVa⟩ := exists_of_mapM hvs₁ hV
    rw [hv, Option.some.injEq] at hVa
    exact hVa ▸ ValueSupported.of_operation ((hlimits hsome).2 ⟨V, hV, hnone⟩) hv₁ a ha
  rcases execCode_computationIfEntry _ hskip hreads hdefined hsupported with
    ⟨hnull, hexec⟩ | ⟨hsome, args, hexec, hvalues⟩
  -- no operand has an expression, so all are the same in both states, and so is the result
  · refine ⟨none, hexec, ?_, hlive.update_none _⟩
    have hsame : operands.mapM (Operand.eval s.env) = operands.mapM (Operand.eval S.state.env) :=
      mapM_congr fun V hV ↦ by rw [hreads V hV, hnull V hV, under_none]
    rw [hsame, hvs₁, Option.some.injEq] at hvs₂
    rw [under_none, ← hv₂, ← hvs₂, hv₁]
  · rw [hvs₂, Option.some.injEq] at hvalues
    rw [hvalues] at hv₂
    -- the arguments are expressions of the operands in `s`
    obtain ⟨e, happly, he⟩ := apply_handler (hlimits hsome).1 hv₂
    refine ⟨some e, ?_, by rw [under_some, he], hlive.update ?_ _⟩
    · rw [insertedCode, hexec, Action.exec, happly]
      rfl
    · rw [hasExpression_operation_iff hI]
      intro hnone
      obtain ⟨V, hV, hsome⟩ := hsome
      rw [operandAt_eq_null_of_none (hnone V hV)] at hsome
      cases hsome

private theorem follows_operation {op : Operation} {operands : List Operand} (hS : Denotes ρ S s)
    (hlive : Live F S.exprs) (hI : F.code[S.state.pc]? = some (.operation op operands))
    (hreads : ∀ V ∈ operands, Reads ρ S s V (operandAt F S.state.pc V))
    (hlimits : WithinLimits F S (.operation op operands)) {t₁ t₂ : State} {as₁ as₂ : List Access}
    (h₁ : Instr.exec F S.state (.operation op operands) = some (t₁, as₁))
    (h₂ : Instr.exec F s (.operation op operands) = some (t₂, as₂)) :
    ∃ S' events, Follows F ρ S s t₁ as₁ t₂ as₂ S' events := by
  have hexec := h₁
  rw [Instr.exec, Option.map_eq_some_iff] at h₁ h₂
  obtain ⟨v₁, hv₁, h₁⟩ := h₁
  obtain ⟨vs₁, hvs₁, hv₁⟩ := Option.bind_eq_some_iff.mp hv₁
  obtain ⟨v₂, hv₂, h₂⟩ := h₂
  obtain ⟨vs₂, hvs₂, hv₂⟩ := Option.bind_eq_some_iff.mp hv₂
  cases h₁
  cases h₂
  obtain ⟨r, hcode, hr, hlive'⟩ := execCode_operation hlive hI hreads hlimits hvs₁ hvs₂ hv₁ hv₂
  exact ⟨_, _, symStep_of_execCode hI rfl hcode rfl hexec, rfl, rfl, hlive',
    fun _ ↦ ⟨hS.define hr, rfl⟩, fun _ ↦ satisfied_nil ρ⟩

end Operation

/-! ## Constraints on one operand -/

section Constraint

variable {F : IR.Function} {ρ : Adacc.Input} {S : SymState SymExpr} {s : State} {V : Operand}

theorem eq_singleton_of_mapM {v : Value} {args : List SymExpr} (hv : V.eval s.env = some v)
    (h : [V].mapM (Operand.eval s.env) = some (args.map (eval ρ))) :
    ∃ e, args = [e] ∧ eval ρ e = v := by
  obtain ⟨v', vs, hv', hvs, heq⟩ := mapM_cons_eq_some_iff.mp h
  rw [List.mapM_nil] at hvs
  cases hvs
  obtain ⟨e, rfl, he⟩ := List.map_eq_singleton_iff.mp heq
  rw [hv, Option.some.injEq] at hv'
  exact ⟨e, rfl, he.trans hv'.symm⟩

/-- The constraint of `tryAlternative` holds exactly if the operand is the same in both states. -/
theorem execCode_pushAssertion (hreads : Reads ρ S s V (operandAt F S.state.pc V))
    {a₁ a₂ : UIntPtr} (h₁ : V.eval S.state.env = some (.bv 64 a₁))
    (h₂ : V.eval s.env = some (.bv 64 a₂)) :
    ∃ events,
      execCode (computationIfEntry F S.state.pc (.pushAssertion V) [V]) S = some (S, events) ∧
        accesses events = [] ∧ (Satisfied ρ events ↔ a₂ = a₁) := by
  have hsupported : ValueSupported (.bv 64 a₁) := ⟨by decide, .inl (Nat.le_refl 64)⟩
  rcases execCode_computationIfEntry (.pushAssertion V) (fun _ ↦ rfl)
    (List.forall_mem_singleton.mpr hreads) (List.forall_mem_singleton.mpr ⟨_, h₁⟩)
    (fun _ ↦ List.forall_mem_singleton.mpr fun _ v hv ↦ by
      rw [h₁, Option.some.injEq] at hv
      exact hv ▸ hsupported) with ⟨hnull, hexec⟩ | ⟨-, args, hexec, hvalues⟩
  · rw [Reads, hnull V List.mem_cons_self, under_none, h₁, h₂, Option.some.injEq] at hreads
    exact ⟨[], hexec, rfl, iff_of_true (satisfied_nil ρ) (Value.bv_inj hreads)⟩
  · obtain ⟨e, rfl, he⟩ := eq_singleton_of_mapM h₂ hvalues
    simp only [Action.exec, h₁] at hexec
    refine ⟨_, hexec, rfl, ?_⟩
    rw [satisfied_singleton, eval_compare ρ .eq e _ 64 a₂ a₁ he
      (eval_createValueExpression ρ hsupported), Value.bool.injEq, CmpOp.denote, beq_iff_eq]

/-- The constraint of a branch holds exactly if the condition is the same in both states. -/
theorem execCode_pushPathConstraint (hreads : Reads ρ S s V (operandAt F S.state.pc V))
    {b₁ b₂ : Bool} (h₁ : V.eval S.state.env = some (.bool b₁))
    (h₂ : V.eval s.env = some (.bool b₂)) :
    ∃ events,
      execCode (computationIfEntry F S.state.pc (.pushPathConstraint V) [V]) S = some (S, events) ∧
        accesses events = [] ∧ (Satisfied ρ events ↔ b₂ = b₁) := by
  rcases execCode_computationIfEntry (.pushPathConstraint V) (fun _ ↦ rfl)
    (List.forall_mem_singleton.mpr hreads) (List.forall_mem_singleton.mpr ⟨_, h₁⟩)
    (fun _ ↦ List.forall_mem_singleton.mpr fun _ v hv ↦ by
      rw [h₁, Option.some.injEq] at hv
      exact hv ▸ trivial) with ⟨hnull, hexec⟩ | ⟨-, args, hexec, hvalues⟩
  · rw [Reads, hnull V List.mem_cons_self, under_none, h₁, h₂, Option.some.injEq,
      Value.bool.injEq] at hreads
    exact ⟨[], hexec, rfl, iff_of_true (satisfied_nil ρ) hreads⟩
  · obtain ⟨e, rfl, he⟩ := eq_singleton_of_mapM h₂ hvalues
    simp only [Action.exec, h₁] at hexec
    refine ⟨_, hexec, rfl, ?_⟩
    rw [satisfied_singleton, he, Value.bool.injEq]

end Constraint

/-! ## Memory -/

section Memory

variable {F : IR.Function} {ρ : Adacc.Input} {S : SymState SymExpr} {s : State}
  {t₁ t₂ : State} {as₁ as₂ : List Access}

private theorem follows_load {ty : IntTy} {addr : Operand} (hS : Denotes ρ S s)
    (hlive : Live F S.exprs) (hI : F.code[S.state.pc]? = some (.load ty addr))
    (hreads : Reads ρ S s addr (operandAt F S.state.pc addr))
    (h₁ : Instr.exec F S.state (.load ty addr) = some (t₁, as₁))
    (h₂ : Instr.exec F s (.load ty addr) = some (t₂, as₂)) :
    ∃ S' events, Follows F ρ S s t₁ as₁ t₂ as₂ S' events := by
  have hexec := h₁
  rw [Instr.exec, Option.map_eq_some_iff] at h₁ h₂
  obtain ⟨a₁, ha₁, h₁⟩ := h₁
  obtain ⟨a₂, ha₂, h₂⟩ := h₂
  cases h₁
  cases h₂
  obtain ⟨v₁, hv₁, hbits₁⟩ := Option.bind_eq_some_iff.mp ha₁
  obtain ⟨v₂, hv₂, hbits₂⟩ := Option.bind_eq_some_iff.mp ha₂
  rw [bits_eq_some_iff] at hbits₁ hbits₂
  obtain ⟨events, htry, hacc, hsat⟩ :=
    execCode_pushAssertion hreads (hbits₁ ▸ hv₁) (hbits₂ ▸ hv₂)
  have hcode : execCode (insertedCode F S.state.pc (.load ty addr)) S
      = some (S.setExpr (symReadMemory S.state.mem S.pages a₁ ty.storeSize F.littleEndian),
        events) := by
    rw [insertedCode, execCode_append htry, execCode_singleton, SymCode.exec, ha₁, Option.map_some,
      Option.map_some, List.append_nil]
  -- the pushed assertion holds exactly if both states load from the same address
  refine ⟨_, _, symStep_of_execCode hI rfl hcode rfl hexec, rfl, accesses_append_access hacc _,
    hlive.update (hasExpression_load hI) _, fun h ↦ ?_, fun h ↦ ?_⟩
  · obtain rfl : a₂ = a₁ := hsat.mp (satisfied_append_access.mp h)
    exact ⟨hS.define (hS.mem.load a₂ ty F.littleEndian), rfl⟩
  · rw [satisfied_append_access, hsat]
    rw [h, ha₁, Option.some.injEq] at ha₂
    exact ha₂.symm

private theorem follows_store {ty : IntTy} {value addr : Operand} (hS : Denotes ρ S s)
    (hlive : Live F S.exprs) (hI : F.code[S.state.pc]? = some (.store ty value addr))
    (hreads : Reads ρ S s addr (operandAt F S.state.pc addr))
    (hreads' : Reads ρ S s value (operandAt F S.state.pc value))
    (h₁ : Instr.exec F S.state (.store ty value addr) = some (t₁, as₁))
    (h₂ : Instr.exec F s (.store ty value addr) = some (t₂, as₂)) :
    ∃ S' events, Follows F ρ S s t₁ as₁ t₂ as₂ S' events := by
  have hexec := h₁
  rw [Instr.exec, Option.bind_eq_some_iff] at h₁ h₂
  obtain ⟨a₁, ha₁, h₁⟩ := h₁
  obtain ⟨a₂, ha₂, h₂⟩ := h₂
  obtain ⟨x₁, hx₁, h₁⟩ := Option.map_eq_some_iff.mp h₁
  obtain ⟨x₂, hx₂, h₂⟩ := Option.map_eq_some_iff.mp h₂
  cases h₁
  cases h₂
  obtain ⟨v₁, hv₁, hbits₁⟩ := Option.bind_eq_some_iff.mp ha₁
  obtain ⟨v₂, hv₂, hbits₂⟩ := Option.bind_eq_some_iff.mp ha₂
  obtain ⟨w₁, hw₁, hwbits₁⟩ := Option.bind_eq_some_iff.mp hx₁
  obtain ⟨w₂, hw₂, hwbits₂⟩ := Option.bind_eq_some_iff.mp hx₂
  rw [bits_eq_some_iff] at hbits₁ hbits₂ hwbits₁ hwbits₂
  rw [Reads, hw₁, hw₂, hwbits₁, hwbits₂] at hreads'
  obtain ⟨events, htry, hacc, hsat⟩ :=
    execCode_pushAssertion hreads (hbits₁ ▸ hv₁) (hbits₂ ▸ hv₂)
  have hcode : execCode (insertedCode F S.state.pc (.store ty value addr)) S
      = some (⟨S.state, S.exprs, symWriteMemory a₁ ty.storeSize
          ((operandAt F S.state.pc value).eval S.exprs) F.littleEndian S.pages⟩, events) := by
    rw [insertedCode, execCode_append htry, execCode_singleton, SymCode.exec, ha₁, Option.map_some,
      Option.map_some, List.append_nil]
  -- and here, if both states store at the same address
  refine ⟨_, _, symStep_of_execCode hI rfl hcode rfl hexec, rfl, accesses_append_access hacc _,
    hlive, fun h ↦ ?_, fun h ↦ ?_⟩
  · obtain rfl : a₂ = a₁ := hsat.mp (satisfied_append_access.mp h)
    have hmem := hS.mem.store a₂ ty F.littleEndian hreads'
    exact ⟨⟨congrArg (· + 1) hS.pc, hS.block, hS.env, hmem⟩, rfl⟩
  · rw [satisfied_append_access, hsat]
    rw [h, ha₁, Option.some.injEq] at ha₂
    exact ha₂.symm

end Memory

/-! ## Jumps -/

section Jump

variable {F : IR.Function} {ρ : Adacc.Input} {S : SymState SymExpr} {s : State}
  {t₁ t₂ : State} {as₁ as₂ : List Access}

/-- Whatever the pass knows, the incoming values of PHI nodes are read correctly. -/
theorem Denotes.reads_phiOperand (hS : Denotes ρ S s) (hlive : Live F S.exprs) (V : Operand) :
    Reads ρ S s V (phiOperand F V) := by
  classical
  refine hS.reads ?_
  rcases V with v | id
  · exact .inl ⟨rfl, fun id h ↦ by cases h⟩
  · by_cases hid : HasExpression F id
    · exact .inr ⟨id, rfl, by rw [phiOperand_value, if_pos hid]⟩
    · refine .inl ⟨by rw [phiOperand_value, if_neg hid], fun id' h ↦ ?_⟩
      cases h
      exact hlive id hid

/-- A terminator whose code changes nothing but what it pushes, and that leads to one target in both
states whenever the constraints hold. -/
theorem follows_jump {I : Instr} (hS : Denotes ρ S s) (hlive : Live F S.exprs)
    (hI : F.code[S.state.pc]? = some I) (hterm : isTerminator I = true)
    {events : List (SymEvent SymExpr)}
    (hcode : execCode (insertedCode F S.state.pc I) S = some (S, events))
    (hacc : accesses events = []) {target₁ target₂ : Label}
    (h₁ : I.exec F S.state = some (t₁, as₁)) (hjump₁ : jump F S.state target₁ = some (t₁, as₁))
    (hjump₂ : jump F s target₂ = some (t₂, as₂))
    (htarget : Satisfied ρ events → target₂ = target₁)
    (hsat : s = S.state → Satisfied ρ events) :
    ∃ S' events, Follows F ρ S s t₁ as₁ t₂ as₂ S' events := by
  obtain ⟨⟨E₁, p₁⟩, henter₁, heq₁⟩ := Option.map_eq_some_iff.mp hjump₁
  obtain ⟨⟨E₂, p₂⟩, henter₂, heq₂⟩ := Option.map_eq_some_iff.mp hjump₂
  cases heq₁
  cases heq₂
  -- the state after the jump, with the PHI nodes of the target entered
  have hstep : symStep F S = some (⟨{ S.state with env := E₁, block := target₁, pc := p₁ },
      enterSymbolicPhis S.exprs S.state.block target₁
      (instrumentFrom F target₁ (F.code.drop target₁)) S.exprs, S.pages⟩,
      events ++ [Access.block target₁].map .access) := by
    rw [symStep, runOnFunction_getElem?, hI, Option.map_some, Option.bind_some, hcode,
      Option.bind_some, h₁, Option.map_some, hterm, if_pos rfl, runOnFunction_drop]
  have hcode' : ∀ k, (F.code.drop target₁)[k]? = F.code[target₁ + k]? := fun k ↦
    List.getElem?_drop
  refine ⟨_, _, hstep, rfl, accesses_append_access hacc _, hlive.enterSymbolicPhis hcode',
    fun h ↦ ?_, fun h ↦ ?_⟩
  · obtain rfl : target₂ = target₁ := htarget (satisfied_append_access.mp h)
    rw [hS.block] at henter₂
    obtain ⟨hpc, henv⟩ := enterPhis_denotes (hS.reads_phiOperand hlive) hcode' hS.env hlive
      henter₁ henter₂
    exact ⟨⟨hpc, rfl, henv, hS.mem⟩, rfl⟩
  · exact satisfied_append_access.mpr (hsat h)

private theorem follows_br {target : Label} (hS : Denotes ρ S s) (hlive : Live F S.exprs)
    (hI : F.code[S.state.pc]? = some (.br target))
    (h₁ : Instr.exec F S.state (.br target) = some (t₁, as₁))
    (h₂ : Instr.exec F s (.br target) = some (t₂, as₂)) :
    ∃ S' events, Follows F ρ S s t₁ as₁ t₂ as₂ S' events :=
  follows_jump hS hlive hI rfl rfl rfl h₁ h₁ h₂ (fun _ ↦ rfl) fun _ ↦ satisfied_nil ρ

private theorem follows_condBr {cond : Operand} {ifTrue ifFalse : Label} (hS : Denotes ρ S s)
    (hlive : Live F S.exprs) (hI : F.code[S.state.pc]? = some (.condBr cond ifTrue ifFalse))
    (hreads : Reads ρ S s cond (operandAt F S.state.pc cond))
    (h₁ : Instr.exec F S.state (.condBr cond ifTrue ifFalse) = some (t₁, as₁))
    (h₂ : Instr.exec F s (.condBr cond ifTrue ifFalse) = some (t₂, as₂)) :
    ∃ S' events, Follows F ρ S s t₁ as₁ t₂ as₂ S' events := by
  obtain ⟨b₁, hb₁, hjump₁⟩ := exec_condBr h₁
  obtain ⟨b₂, hb₂, hjump₂⟩ := exec_condBr h₂
  obtain ⟨events, hcode, hacc, hsat⟩ := execCode_pushPathConstraint hreads hb₁ hb₂
  refine follows_jump hS hlive hI rfl hcode hacc h₁ hjump₁ hjump₂ (fun h ↦ ?_) fun h ↦ ?_
  · rw [hsat.mp h]
  · rw [h, hb₁, Option.some.injEq, Value.bool.injEq] at hb₂
    exact hsat.mpr hb₂.symm

/-- The equality of an expression with a constant of its sort. -/
theorem eval_symBuildCompare_eq {e : SymExpr} {c : Value} (hc : ValueSupported c)
    (hsort : c.sort = (eval ρ e).sort) :
    eval ρ (symBuildCompare .eq e (createValueExpression c)) = .bool (eval ρ e = c) := by
  rcases he : eval ρ e with x | ⟨w, x⟩
  · rcases c with y | ⟨w', y⟩
    · rw [eval_equal_bool ρ e _ x y he (eval_createValueExpression ρ hc)]
      congr 1
      rw [Bool.beq_eq_decide_eq, decide_eq_decide, Value.bool.injEq]
    · rw [he] at hsort
      cases hsort
  · rw [he, Value.sort_bv] at hsort
    obtain ⟨y, rfl⟩ := Value.exists_bv_of_sort hsort
    rw [eval_compare ρ .eq e _ w x y he (eval_createValueExpression ρ hc), CmpOp.denote]
    congr 1
    rw [beq_eq_decide, decide_eq_decide]
    exact ⟨fun h ↦ by rw [h], Value.bv_inj⟩

/-- The constraints of a `switch` say which cases the condition is equal to. -/
theorem satisfied_caseConstraints {e : SymExpr} {cases : List (Value × Label)} {v₁ v₂ : Value}
    (hcase : ∀ c ∈ cases,
      eval ρ (symBuildCompare .eq e (createValueExpression c.1)) = .bool (v₂ = c.1)) :
    Satisfied ρ ((cases.map Prod.fst).map fun c ↦
        .pushPathConstraint (symBuildCompare .eq e (createValueExpression c)) (v₁ = c)) ↔
      ∀ c ∈ cases, v₂ = c.1 ↔ v₁ = c.1 := by
  constructor
  · intro h c hc
    have hpush := h _ (v₁ = c.1) (List.mem_map_of_mem (List.mem_map_of_mem hc))
    rwa [hcase c hc, Value.bool.injEq, decide_eq_decide] at hpush
  · intro h constraint taken hpush
    rw [List.map_map, List.mem_map] at hpush
    obtain ⟨c, hc, heq⟩ := hpush
    cases heq
    rw [hcase c hc, Value.bool.injEq, decide_eq_decide]
    exact h c hc

/-- The constraints of a `switch` pin the cases, and hence the target. -/
theorem execCode_switch {cond : Operand} {default : Label} {cases : List (Value × Label)}
    (hreads : Reads ρ S s cond (operandAt F S.state.pc cond))
    (hlimits : WithinLimits F S (.switch cond default cases)) {v₁ v₂ : Value}
    (h₁ : cond.eval S.state.env = some v₁) (h₂ : cond.eval s.env = some v₂)
    (hsort : ∀ c ∈ cases, c.1.sort = v₂.sort) :
    ∃ events,
      execCode (insertedCode F S.state.pc (.switch cond default cases)) S = some (S, events) ∧
        accesses events = [] ∧ (Satisfied ρ events ∨ v₂ = v₁ →
          Satisfied ρ events ∧ switchTarget default cases v₂ = switchTarget default cases v₁) := by
  rw [Reads, h₁, h₂] at hreads
  rcases he : (operandAt F S.state.pc cond).eval S.exprs with - | e
  -- a condition without expression is the same in both states
  · rw [he, under_none, Option.some.injEq] at hreads
    refine ⟨[], ?_, rfl, fun _ ↦ ⟨satisfied_nil ρ, by rw [hreads]⟩⟩
    rw [insertedCode]
    split
    · rfl
    · rw [execCode_singleton, SymCode.exec, he]
  · rw [he, under_some, Option.some.injEq] at hreads
    have hsupported := hlimits (Option.isSome_iff_exists.mpr ⟨e, he⟩)
    have hentry : ¬getSymbolicExpression (symbolicExpressionsAt F S.state.pc) cond = none := by
      intro hnone
      rw [operandAt_eq_null_of_none hnone] at he
      cases he
    have hcase : ∀ c ∈ cases,
        eval ρ (symBuildCompare .eq e (createValueExpression c.1)) = .bool (v₂ = c.1) := by
      intro c hc
      rw [hreads]
      exact eval_symBuildCompare_eq (hsupported c hc) (hreads ▸ hsort c hc)
    refine ⟨(cases.map Prod.fst).map fun c ↦
      .pushPathConstraint (symBuildCompare .eq e (createValueExpression c)) (v₁ = c), ?_, ?_, ?_⟩
    · rw [insertedCode, if_neg hentry, execCode_singleton, SymCode.exec, he, h₁]
      rfl
    · simp [accesses]
    · rw [satisfied_caseConstraints hcase]
      rintro (h | rfl)
      · exact ⟨h, switchTarget_congr h⟩
      · exact ⟨fun c _ ↦ Iff.rfl, rfl⟩

private theorem follows_switch {cond : Operand} {default : Label} {cases : List (Value × Label)}
    (hS : Denotes ρ S s) (hlive : Live F S.exprs)
    (hI : F.code[S.state.pc]? = some (.switch cond default cases))
    (hreads : Reads ρ S s cond (operandAt F S.state.pc cond))
    (hlimits : WithinLimits F S (.switch cond default cases))
    (h₁ : Instr.exec F S.state (.switch cond default cases) = some (t₁, as₁))
    (h₂ : Instr.exec F s (.switch cond default cases) = some (t₂, as₂)) :
    ∃ S' events, Follows F ρ S s t₁ as₁ t₂ as₂ S' events := by
  obtain ⟨v₁, hv₁, -, hjump₁⟩ := exec_switch h₁
  obtain ⟨v₂, hv₂, hsort, hjump₂⟩ := exec_switch h₂
  obtain ⟨events, hcode, hacc, hsat⟩ := execCode_switch hreads hlimits hv₁ hv₂ hsort
  refine follows_jump hS hlive hI rfl hcode hacc h₁ hjump₁ hjump₂ (fun h ↦ (hsat (.inl h)).2)
    fun h ↦ ?_
  rw [h, hv₁, Option.some.injEq] at hv₂
  exact (hsat (.inr hv₂.symm)).1

end Jump

/-! ## Steps -/

/-- One step, of whatever instruction. -/
theorem follows {F : IR.Function} {ρ : Adacc.Input} {S : SymState SymExpr} {s : State}
    (hS : Denotes ρ S s) (hlive : Live F S.exprs)
    (hreads : ∀ I, F.code[S.state.pc]? = some I → ∀ V ∈ operandsOf I,
      Reads ρ S s V (operandAt F S.state.pc V))
    (hlimits : ∀ I, F.code[S.state.pc]? = some I → WithinLimits F S I)
    {t₁ t₂ : State} {as₁ as₂ : List Access} (h₁ : F.step S.state = some (t₁, as₁))
    (h₂ : F.step s = some (t₂, as₂)) :
    ∃ S' events, Follows F ρ S s t₁ as₁ t₂ as₂ S' events := by
  obtain ⟨I, hI, h₁⟩ := Option.bind_eq_some_iff.mp h₁
  rw [IR.Function.step, hS.pc, hI, Option.bind_some] at h₂
  replace hreads := hreads I hI
  replace hlimits := hlimits I hI
  rcases I with ⟨op, operands⟩ | ⟨ty, addr⟩ | ⟨ty, value, addr⟩ | incoming | target |
    ⟨cond, ifTrue, ifFalse⟩ | ⟨cond, default, cases⟩ | -
  · exact follows_operation hS hlive hI hreads hlimits h₁ h₂
  · exact follows_load hS hlive hI (hreads addr List.mem_cons_self) h₁ h₂
  · have haddr : addr ∈ operandsOf (.store ty value addr) := by simp [operandsOf]
    exact follows_store hS hlive hI (hreads addr haddr) (hreads value List.mem_cons_self) h₁ h₂
  · cases h₁
  · exact follows_br hS hlive hI h₁ h₂
  · exact follows_condBr hS hlive hI (hreads cond List.mem_cons_self) h₁ h₂
  · exact follows_switch hS hlive hI (hreads cond List.mem_cons_self) hlimits h₁ h₂
  · cases h₁

end Adacc.Symbolizer
