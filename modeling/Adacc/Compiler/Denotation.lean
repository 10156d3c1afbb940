import Adacc.Compiler.Handlers
import Adacc.Foundation.TraverseOption

/-!
# What a symbolic state stands for

Under an input `ρ`, a symbolic state stands for a concrete state: where an expression is held, its
value under `ρ`, and elsewhere the concrete value that is there (`Denotes`). Under the input of the
run itself, the state that it stands for should be the concrete state of the run; under another
input, it should be the state of the run on that input. Both are instances of one simulation, and
this file has what it needs to know about inserted code: a registered computation, given operands
that stand for those of the concrete state (`Reads`), yields an expression of the result, or null if
the operands are the same in both states.
-/

namespace Adacc.Symbolizer

open SmtLib IR Backend ModularRange ByteOrder TraverseOption

variable {SymExpr : Type} [Backend SymExpr]

/-- The value of an expression under `ρ` or, if it is null, the given value. -/
def under (ρ : Adacc.Input) (e : Option SymExpr) (v : Option Value) : Option Value :=
  match e with
  | some e => some (eval ρ e)
  | none => v

@[simp] theorem under_none (ρ : Adacc.Input) (v : Option Value) :
    under ρ (none : Option SymExpr) v = v := rfl

@[simp] theorem under_some (ρ : Adacc.Input) (e : SymExpr) (v : Option Value) :
    under ρ (some e) v = some (eval ρ e) := rfl

/-- The values that the expressions held stand for, over the values `env₁`, are `env₂`. -/
def EnvDenotes (ρ : Adacc.Input) (exprs : ValueId → Option SymExpr) (env₁ env₂ : Env) : Prop :=
  ∀ id, env₂ id = under ρ (exprs id) (env₁ id)

/-- The same for the bytes of memory. -/
def MemDenotes (ρ : Adacc.Input) (pages : ShadowPages SymExpr) (mem₁ mem₂ : UIntPtr → BitVec 8) :
    Prop :=
  ∀ a, some (.bv 8 (mem₂ a)) = under ρ (shadowAt pages a) (some (.bv 8 (mem₁ a)))

/-- Under `ρ`, the symbolic state `S` stands for `s`. -/
structure Denotes (ρ : Adacc.Input) (S : SymState SymExpr) (s : State) : Prop where
  pc : s.pc = S.state.pc
  block : s.block = S.state.block
  env : EnvDenotes ρ S.exprs S.state.env s.env
  mem : MemDenotes ρ S.pages S.state.mem s.mem

/-- The operand `e` of inserted code stands for the operand `V` of the instruction. -/
def Reads (ρ : Adacc.Input) (S : SymState SymExpr) (s : State) (V : Operand) (e : SymOperand) :
    Prop :=
  V.eval s.env = under ρ (e.eval S.exprs) (V.eval S.state.env)

section Denotes

variable {F : IR.Function} {ρ : Adacc.Input} {S : SymState SymExpr} {s : State}

/-- A symbolic state that stands for its own concrete state. -/
theorem Denotes.reads_self (h : Denotes ρ S S.state) {V : Operand} {e : SymOperand}
    (he : e = .null ∨ ∃ id, V = .value id ∧ e = .expr id) : Reads ρ S S.state V e := by
  rcases he with rfl | ⟨id, rfl, rfl⟩
  · rfl
  · exact h.env id

/-- An operand of inserted code that is null stands for a value without expression. -/
theorem Denotes.reads (h : Denotes ρ S s) {V : Operand} {e : SymOperand}
    (he : e = .null ∧ (∀ id, V = .value id → S.exprs id = none) ∨
      ∃ id, V = .value id ∧ e = .expr id) : Reads ρ S s V e := by
  rcases he with ⟨rfl, hnull⟩ | ⟨id, rfl, rfl⟩
  · rcases V with v | id
    · rfl
    · have henv := h.env id
      rw [hnull id rfl] at henv
      exact henv
  · exact h.env id

/-- The instruction at the program counter gets a value and an expression. -/
theorem Denotes.define (h : Denotes ρ S s) {r : Option SymExpr} {v₁ v₂ : Value}
    (hr : some v₂ = under ρ r (some v₁)) :
    Denotes ρ { S.setExpr r with state := S.state.define v₁ } (s.define v₂) where
  pc := congrArg (· + 1) h.pc
  block := h.block
  env := by
    intro id
    rw [State.define, State.define, SymState.setExpr, h.pc]
    by_cases hid : id = .inst S.state.pc
    · subst hid
      simp only [Function.update_self]
      exact hr
    · simp only [Function.update_of_ne hid]
      exact h.env id
  mem := h.mem

/-- Only values that the pass has given an expression hold one. -/
def Live (F : IR.Function) (exprs : ValueId → Option SymExpr) : Prop :=
  ∀ id, ¬HasExpression F id → exprs id = none

omit [Backend SymExpr] in
theorem Live.update {exprs : ValueId → Option SymExpr} (h : Live F exprs) {k : ℕ}
    (hk : HasExpression F (.inst k)) (r : Option SymExpr) :
    Live F (Function.update exprs (.inst k) r) := by
  intro id hid
  have hne : id ≠ .inst k := fun heq ↦ hid (heq ▸ hk)
  rw [Function.update_of_ne hne]
  exact h id hid

omit [Backend SymExpr] in
theorem Live.update_none {exprs : ValueId → Option SymExpr} (h : Live F exprs) (id : ValueId) :
    Live F (Function.update exprs id none) := by
  intro id' hid
  by_cases heq : id' = id
  · rw [heq, Function.update_self]
  · rw [Function.update_of_ne heq, h id' hid]

end Denotes

/-! ## Memory -/

section Memory

variable {ρ : Adacc.Input} {pages : ShadowPages SymExpr} {mem₁ mem₂ : UIntPtr → BitVec 8}

/-- A state stands for itself when its shadow memory is consistent. -/
theorem memDenotes_self_iff : MemDenotes ρ pages mem₁ mem₁ ↔ Consistent ρ mem₁ pages := by
  constructor
  · intro h a e he
    have ha := h a
    rw [he, under_some, Option.some.injEq] at ha
    exact ha.symm
  · intro h a
    rcases he : shadowAt pages a with - | e
    · rfl
    · rw [under_some, h a e he]

theorem MemDenotes.eval_byteExpr (h : MemDenotes ρ pages mem₁ mem₂) (a : UIntPtr) :
    eval ρ (byteExpr mem₁ pages a) = .bv 8 (mem₂ a) := by
  have ha := h a
  rw [byteExpr]
  rcases he : shadowAt pages a with - | e <;> rw [he] at ha
  · rw [under_none, Option.some.injEq] at ha
    exact (eval_constantByte ρ (mem₁ a)).trans ha.symm
  · rw [under_some, Option.some.injEq] at ha
    exact ha.symm

omit [Backend SymExpr] in
theorem fastPathSound_of_intTy (pages : ShadowPages SymExpr) (a : UIntPtr) (ty : IntTy) :
    FastPathSound pages a ty.storeSize := by
  refine FastPathSound.of_lt pages ?_
  have hsize := ty.storeSize_le
  rw [toNat_pageOffset]
  omega

/-- A load and the expression read for it. -/
theorem MemDenotes.load (h : MemDenotes ρ pages mem₁ mem₂) (a : UIntPtr) (ty : IntTy)
    (littleEndian : Bool) :
    some (.ofNat (8 * ty.storeSize.toNat)
        (encode littleEndian (fun i ↦ mem₂ (a + BitVec.ofNat 64 i)) ty.storeSize.toNat))
      = under ρ (symReadMemory mem₁ pages a ty.storeSize littleEndian)
        (some (.ofNat (8 * ty.storeSize.toNat)
          (encode littleEndian (fun i ↦ mem₁ (a + BitVec.ofNat 64 i)) ty.storeSize.toNat))) := by
  -- a null expression means that no byte has one, so the bytes are the same in both memories
  rcases hread : symReadMemory mem₁ pages a ty.storeSize littleEndian with - | e
  · rw [symReadMemory_eq_none_iff, isConcrete_iff (fastPathSound_of_intTy pages a ty)] at hread
    rw [under_none]
    congr 2
    refine encode_congr fun i hi ↦ ?_
    have hbyte := h (a + BitVec.ofNat 64 i)
    rw [hread i hi, under_none, Option.some.injEq] at hbyte
    exact Value.bv_inj hbyte
  · have heval := eval_symReadMemory ty.storeSize_pos (fun i _ ↦ h.eval_byteExpr _) hread
    rw [under_some, heval]

/-- A store and the expression written for it. -/
theorem MemDenotes.store (h : MemDenotes ρ pages mem₁ mem₂) (a : UIntPtr) (ty : IntTy)
    (littleEndian : Bool) {e : Option SymExpr} {x₁ x₂ : BitVec (8 * ty.storeSize.toNat)}
    (hx : some (.bv _ x₂) = under ρ e (some (.bv _ x₁))) :
    MemDenotes ρ (symWriteMemory a ty.storeSize e littleEndian pages)
      (storeValue mem₁ a ty.storeSize x₁.toNat littleEndian)
      (storeValue mem₂ a ty.storeSize x₂.toNat littleEndian) := by
  intro b
  have hsize := ty.storeSize_le
  rw [shadowAt_symWriteMemory e littleEndian (fastPathSound_of_intTy pages a ty), storeValue,
    storeValue]
  by_cases hlt : (b - a).toNat < ty.storeSize.toNat
  · rw [rangeUpdate_of_lt hlt, rangeUpdate_of_lt hlt, rangeUpdate_of_lt hlt]
    rcases e with - | e
    · rw [under_none, Option.some.injEq] at hx
      rw [Option.map_none, under_none, Value.bv_inj hx]
    · rw [under_some, Option.some.injEq, Value.bv_eq_ofNat] at hx
      rw [Option.map_some, under_some,
        eval_extractByte (by omega) hx.symm x₂.isLt littleEndian hlt]
  · rw [Nat.not_lt] at hlt
    rw [rangeUpdate_of_le hlt, rangeUpdate_of_le hlt, rangeUpdate_of_le hlt]
    exact h b

end Memory

/-! ## Registered computations -/

section Computation

variable {ρ : Adacc.Input} {S : SymState SymExpr} {s : State} {inputs : List Input} {i : Input}

omit [Backend SymExpr] in
theorem eval_ne_null {e : SymOperand} {exprs : ValueId → Option SymExpr} {x : SymExpr}
    (h : e.eval exprs = some x) : e ≠ .null := by
  rintro rfl
  cases h

/-- If only one input is not known to be null, it is the one that is not null. -/
theorem eq_of_countP_eq_one {α : Type} {p : α → Bool} {l : List α} (h : l.countP p = 1) {a b : α}
    (ha : a ∈ l) (hb : b ∈ l) (hpa : p a = true) (hpb : p b = true) : a = b := by
  rw [List.countP_eq_length_filter, List.length_eq_one_iff] at h
  obtain ⟨c, hc⟩ := h
  have hmem : ∀ x ∈ l, p x = true → x = c := by
    intro x hx hpx
    rw [← List.mem_singleton, ← hc]
    exact List.mem_filter.mpr ⟨hx, hpx⟩
  rw [hmem a ha hpa, hmem b hb hpb]

/-- In the slow path every input is passed as an expression of its value. -/
theorem eval_argumentFor
    (hsome : ∃ j ∈ inputs, (j.symbolicOperand.eval S.exprs).isSome) (hi : i ∈ inputs)
    (hreads : Reads ρ S s i.concreteValue i.symbolicOperand) {v : Value}
    (hv : i.concreteValue.eval S.state.env = some v)
    (hsupported : i.symbolicOperand.eval S.exprs = none → ValueSupported v) :
    ∃ e, (argumentFor (inputs.countP fun i ↦ i.symbolicOperand ≠ .null) i).eval S = some e ∧
      i.concreteValue.eval s.env = some (eval ρ e) := by
  rw [Reads, hv] at hreads
  unfold argumentFor
  rcases he : i.symbolicOperand.eval S.exprs with - | e
  · rw [he, under_none] at hreads
    refine ⟨createValueExpression v, ?_, ?_⟩
    · split
      · rw [Argument.eval, hv, Option.map_some]
      split
      · next hne hone =>
        obtain ⟨j, hj, hsome⟩ := hsome
        obtain ⟨x, hx⟩ := Option.isSome_iff_exists.mp hsome
        -- the only input that is not known to be null is the one that has an expression
        have hij : i = j := eq_of_countP_eq_one hone hi hj (decide_eq_true hne)
          (decide_eq_true (eval_ne_null hx))
        rw [hij, hx] at he
        cases he
      · rw [Argument.eval, he, hv, Option.map_some]
    · rw [hreads, eval_createValueExpression ρ (hsupported he)]
  · rw [he, under_some] at hreads
    refine ⟨e, ?_, hreads⟩
    rw [if_neg (eval_ne_null he)]
    split
    · exact he
    · rw [Argument.eval, he]

/-- A computation is skipped if no input has an expression, and otherwise runs with expressions of
the values of its inputs. -/
theorem exec_shortCircuit (action : Action) {Vs : List Operand} {ops : Operand → SymOperand}
    (hreads : ∀ V ∈ Vs, Reads ρ S s V (ops V))
    (hdefined : ∀ V ∈ Vs, ∃ v, V.eval S.state.env = some v)
    (hsupported : (∃ V ∈ Vs, ((ops V).eval S.exprs).isSome) → ∀ V ∈ Vs,
      (ops V).eval S.exprs = none → ∀ v, V.eval S.state.env = some v → ValueSupported v) :
    ((∀ V ∈ Vs, (ops V).eval S.exprs = none) ∧
      (shortCircuit ⟨action, Vs.map fun V ↦ ⟨V, ops V⟩⟩).exec S = some (action.skip S, [])) ∨
    (∃ V ∈ Vs, ((ops V).eval S.exprs).isSome) ∧ ∃ args,
      (shortCircuit ⟨action, Vs.map fun V ↦ ⟨V, ops V⟩⟩).exec S = action.exec S args ∧
        Vs.mapM (Operand.eval s.env) = some (args.map (eval ρ)) := by
  by_cases hnull : ∀ V ∈ Vs, (ops V).eval S.exprs = none
  -- the fast path
  · refine .inl ⟨hnull, ?_⟩
    rw [ShortCircuit.exec, if_pos]
    · rfl
    simpa [shortCircuit] using hnull
  -- the slow path, where every argument is an expression of its input's value
  · have hsome : ∃ V ∈ Vs, ((ops V).eval S.exprs).isSome := by
      simpa [Option.ne_none_iff_isSome] using hnull
    refine .inr ⟨hsome, ?_⟩
    have hinputs : ∃ j ∈ Vs.map fun V ↦ (⟨V, ops V⟩ : Input),
        (j.symbolicOperand.eval S.exprs).isSome := by
      obtain ⟨V, hV, hV'⟩ := hsome
      exact ⟨⟨V, ops V⟩, List.mem_map_of_mem hV, hV'⟩
    obtain ⟨args, hargs, hvalues⟩ := mapM_map_of_forall (eval ρ)
      (f := fun V ↦ (argumentFor ((Vs.map fun V ↦ (⟨V, ops V⟩ : Input)).countP
        fun i ↦ i.symbolicOperand ≠ .null) ⟨V, ops V⟩).eval S)
      (g := Operand.eval s.env) fun V hV ↦ by
        obtain ⟨v, hv⟩ := hdefined V hV
        exact eval_argumentFor hinputs (List.mem_map_of_mem hV) (hreads V hV) hv
          fun hnone ↦ hsupported hsome V hV hnone v hv
    refine ⟨args, ?_, hvalues⟩
    rw [ShortCircuit.exec, if_neg]
    · simp only [shortCircuit, List.map_map, List.mapM_map]
      exact congrArg (fun args ↦ Option.bind args fun args ↦ action.exec S args) hargs
    · simpa [shortCircuit] using hnull

end Computation

end Adacc.Symbolizer
