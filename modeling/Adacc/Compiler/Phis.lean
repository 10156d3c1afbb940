import Adacc.Compiler.Denotation

/-!
# Entering a block

On a jump the PHI nodes of the target take their values together, and the symbolic PHI nodes their
expressions. The induction is over the instructions from the target on: as long as they are PHI
nodes, values and expressions stay in step. A PHI node whose symbolic node has been erased receives
values without expressions only, so it may well go without one.
-/

namespace Adacc.Symbolizer

open SmtLib IR Backend

variable {SymExpr : Type} {F : IR.Function}

/-- The instrumented instructions from position `pos` on. -/
def instrumentFrom (F : IR.Function) : ℕ → List Instr → List (Instrumented ShortCircuit)
  | _, [] => []
  | pos, I :: code => ⟨I, insertedCode F pos I⟩ :: instrumentFrom F (pos + 1) code

private theorem instrumentFrom_getElem? (F : IR.Function) (pos : ℕ) (code : List Instr) (k : ℕ) :
    (instrumentFrom F pos code)[k]? = code[k]?.map fun I ↦ ⟨I, insertedCode F (pos + k) I⟩ := by
  induction code generalizing pos k with
  | nil => rfl
  | cons I code ih =>
    rcases k with - | k
    · rfl
    · rw [instrumentFrom, List.getElem?_cons_succ, List.getElem?_cons_succ, ih, Nat.add_assoc,
        Nat.add_comm 1]

theorem runOnFunction_drop (F : IR.Function) (target : ℕ) :
    (runOnFunction F).drop target = instrumentFrom F target (F.code.drop target) := by
  apply List.ext_getElem?
  intro k
  rw [List.getElem?_drop, runOnFunction_getElem?, instrumentFrom_getElem?, List.getElem?_drop]

theorem lookup_map {α β γ : Type} [BEq α] (f : β → γ) (l : List (α × β)) (k : α) :
    (l.map fun edge ↦ (edge.1, f edge.2)).lookup k = (l.lookup k).map f := by
  induction l with
  | nil => rfl
  | cons edge l ih =>
    rw [List.map_cons, List.lookup_cons, List.lookup_cons, ih]
    split <;> rfl

theorem mem_of_lookup {α β : Type} [BEq α] [LawfulBEq α] {l : List (α × β)} {k : α} {b : β}
    (h : l.lookup k = some b) : (k, b) ∈ l := by
  obtain ⟨l₁, l₂, rfl, -⟩ := List.lookup_eq_some_iff.mp h
  exact List.mem_append_right l₁ List.mem_cons_self

/-- A PHI node of compile-time constants passes none but null expressions on. -/
theorem phiOperand_of_erasesPHI {incoming : List (Label × Operand)} {pred : Label} {V : Operand}
    (herase : erasesPHI (finalSymbolicExpressions F) (.phi incoming) = true)
    (hV : incoming.lookup pred = some V) : phiOperand F V = .null := by
  have hnone : getSymbolicExpression (finalSymbolicExpressions F) V = none :=
    Option.isNone_iff_eq_none.mp (List.all_eq_true.mp herase _ (mem_of_lookup hV))
  rw [phiOperand, getSymbolicExpressionOrNull, hnone]
  rfl

/-- Where there is no PHI node, nothing changes. -/
theorem enterSymbolicPhis_instrumentFrom {exprs exprs' : ValueId → Option SymExpr} {pred : Label}
    {pos : ℕ} {code : List Instr} (h : ∀ incoming, code.head? ≠ some (.phi incoming)) :
    enterSymbolicPhis exprs pred pos (instrumentFrom F pos code) exprs' = exprs' := by
  refine enterSymbolicPhis_of_head _ _ _ _ fun incoming inserted hinst ↦ ?_
  rcases code with - | ⟨I, code⟩ <;> cases hinst
  exact h incoming rfl

/-- A symbolic PHI node takes the expression of the incoming value; an erased one is skipped. -/
theorem enterSymbolicPhis_phi (exprs exprs' : ValueId → Option SymExpr) (pred : Label) (pos : ℕ)
    (incoming : List (Label × Operand)) (code : List Instr) :
    enterSymbolicPhis exprs pred pos (instrumentFrom F pos (.phi incoming :: code)) exprs'
      = enterSymbolicPhis exprs pred (pos + 1) (instrumentFrom F (pos + 1) code)
        (if erasesPHI (finalSymbolicExpressions F) (.phi incoming) then exprs'
          else Function.update exprs' (.inst pos)
            ((incoming.lookup pred).bind fun V ↦ (phiOperand F V).eval exprs)) := by
  rw [instrumentFrom, insertedCode]
  split
  · rfl
  · rw [enterSymbolicPhis, lookup_map, Option.bind_map]
    rfl

/-- One symbolic PHI node. -/
theorem Live.enterSymbolicPhi {exprs' : ValueId → Option SymExpr} (h : Live F exprs') {pos : ℕ}
    {incoming : List (Label × Operand)} (hI : F.code[pos]? = some (.phi incoming))
    (r : Option SymExpr) :
    Live F (if erasesPHI (finalSymbolicExpressions F) (.phi incoming) then exprs'
      else Function.update exprs' (.inst pos) r) := by
  split
  · exact h
  · next herase => exact h.update ((hasExpression_phi_iff hI).mpr herase) r

/-- Only symbolic PHI nodes that have not been erased set an expression. -/
theorem Live.enterSymbolicPhis {exprs exprs' : ValueId → Option SymExpr} {pred : Label} {pos : ℕ}
    {code : List Instr} (hcode : ∀ k, code[k]? = F.code[pos + k]?) (h : Live F exprs') :
    Live F (enterSymbolicPhis exprs pred pos (instrumentFrom F pos code) exprs') := by
  induction code generalizing pos exprs' with
  | nil => exact h
  | cons I code ih =>
    by_cases hphi : ∃ incoming, I = .phi incoming
    · obtain ⟨incoming, rfl⟩ := hphi
      have hrest : ∀ k, code[k]? = F.code[pos + 1 + k]? := by
        intro k
        rw [Nat.add_assoc, Nat.add_comm 1]
        exact hcode (k + 1)
      rw [enterSymbolicPhis_phi]
      exact ih hrest (h.enterSymbolicPhi (hcode 0).symm _)
    · have hhead : ∀ incoming, (I :: code).head? ≠ some (.phi incoming) := fun incoming h ↦
        hphi ⟨incoming, Option.some.inj h⟩
      rwa [enterSymbolicPhis_instrumentFrom hhead]

variable [Backend SymExpr] {ρ : Adacc.Input}

/-- One PHI node. -/
theorem EnvDenotes.update {exprs : ValueId → Option SymExpr} {env₁ env₂ : Env}
    (h : EnvDenotes ρ exprs env₁ env₂) (id : ValueId) {r : Option SymExpr} {v₁ v₂ : Value}
    (hr : some v₂ = under ρ r (some v₁)) :
    EnvDenotes ρ (Function.update exprs id r) (Function.update env₁ id (some v₁))
      (Function.update env₂ id (some v₂)) := by
  intro id'
  by_cases hid : id' = id
  · subst hid
    simp only [Function.update_self]
    exact hr
  · simp only [Function.update_of_ne hid]
    exact h id'

/-- One PHI node and its symbolic node, if it still has one. -/
theorem EnvDenotes.enterSymbolicPhi {exprs exprs' : ValueId → Option SymExpr} {env₁' env₂' : Env}
    (h : EnvDenotes ρ exprs' env₁' env₂') (hlive : Live F exprs') {pos : ℕ}
    {incoming : List (Label × Operand)} (hI : F.code[pos]? = some (.phi incoming)) {pred : Label}
    {V : Operand} (hV : incoming.lookup pred = some V) {v₁ v₂ : Value}
    (hvalue : some v₂ = under ρ ((phiOperand F V).eval exprs) (some v₁)) :
    EnvDenotes ρ
      (if erasesPHI (finalSymbolicExpressions F) (.phi incoming) then exprs'
        else Function.update exprs' (.inst pos) ((phiOperand F V).eval exprs))
      (Function.update env₁' (.inst pos) (some v₁))
      (Function.update env₂' (.inst pos) (some v₂)) := by
  split
  · next herase =>
    -- the value has no expression, and is the same in both states
    have hnull := hlive _ ((hasExpression_phi_iff hI).not_left.mpr herase)
    rw [phiOperand_of_erasesPHI herase hV] at hvalue
    have hupdate := h.update (.inst pos) (r := none) hvalue
    rwa [← hnull, Function.update_eq_self] at hupdate
  · exact h.update (.inst pos) hvalue

/-- The PHI nodes from position `pos` on, when every incoming value stands for the one of the
concrete state before the jump. -/
theorem enterPhis_denotes {exprs : ValueId → Option SymExpr} {env₁ env₂ : Env} {pred : Label}
    (hincoming : ∀ V : Operand,
      V.eval env₂ = under ρ ((phiOperand F V).eval exprs) (V.eval env₁))
    {pos : ℕ} {code : List Instr} (hcode : ∀ k, code[k]? = F.code[pos + k]?)
    {exprs' : ValueId → Option SymExpr} {env₁' env₂' E₁ E₂ : Env} {p₁ p₂ : ℕ}
    (henv : EnvDenotes ρ exprs' env₁' env₂') (hlive : Live F exprs')
    (h₁ : enterPhis env₁ pred pos code env₁' = some (E₁, p₁))
    (h₂ : enterPhis env₂ pred pos code env₂' = some (E₂, p₂)) :
    p₂ = p₁ ∧
      EnvDenotes ρ (enterSymbolicPhis exprs pred pos (instrumentFrom F pos code) exprs') E₁ E₂ := by
  induction code generalizing pos exprs' env₁' env₂' with
  | nil =>
    cases h₁
    cases h₂
    exact ⟨rfl, henv⟩
  | cons I code ih =>
    by_cases hphi : ∃ incoming, I = .phi incoming
    · obtain ⟨incoming, rfl⟩ := hphi
      rw [enterPhis, Option.bind_eq_some_iff] at h₁ h₂
      obtain ⟨v₁, hv₁, h₁⟩ := h₁
      obtain ⟨v₂, hv₂, h₂⟩ := h₂
      obtain ⟨V, hV, hv₁⟩ := Option.bind_eq_some_iff.mp hv₁
      rw [hV, Option.bind_some] at hv₂
      have hvalue := hincoming V
      rw [hv₁, hv₂] at hvalue
      have hI : F.code[pos]? = some (.phi incoming) := (hcode 0).symm
      have hrest : ∀ k, code[k]? = F.code[pos + 1 + k]? := by
        intro k
        rw [Nat.add_assoc, Nat.add_comm 1]
        exact hcode (k + 1)
      rw [enterSymbolicPhis_phi, hV, Option.bind_some]
      -- the jump evaluates every incoming value before any PHI node changes
      exact ih hrest (henv.enterSymbolicPhi hlive hI hV hvalue) (hlive.enterSymbolicPhi hI _) h₁ h₂
    · have hhead : ∀ incoming, (I :: code).head? ≠ some (.phi incoming) := fun incoming h ↦
        hphi ⟨incoming, Option.some.inj h⟩
      rw [enterPhis_of_head _ _ _ _ hhead] at h₁ h₂
      cases h₁
      cases h₂
      rw [enterSymbolicPhis_instrumentFrom hhead]
      exact ⟨rfl, henv⟩

end Adacc.Symbolizer
