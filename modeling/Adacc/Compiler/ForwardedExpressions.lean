import Adacc.Compiler.AttachedExpressions
import Adacc.Compiler.Phis

/-!
# Whether forwarded values keep their expressions

When an instruction hands on the value of an operand, its result should have an expression if the
operand has one (`KeepsExpressions`). PHI nodes always do that: what they receive is filled in after
all visits, and the symbolic PHIs that are erased receive values without entries only. The other
instructions depend on what the pass knows at their visit, so the operand has to be laid out before;
and `select` and the casts from floating-point values to integers never register a result. These are
the only ways to lose an expression, however many such instructions a value passes and however often
(`keepsExpressions_iff`).
-/

namespace Adacc.Forwarding

open SmtLib
open IR (ValueId Operand Label Env Ty)
open Symbolizer (SymOperand)

variable {SymExpr : Type}

/-! ## Forwarding -/

/-- The operand whose value the instruction forwards; PHI nodes apart. -/
def forwarded (s : State SymExpr) : Instr → Option Operand
  | .select cond ifTrue ifFalse =>
    match cond.eval s.env with
    | some (.bool c) => some (if c then ifTrue else ifFalse)
    | _ => none
  | .bitCast _ _ src => some src
  | .expect value _ => some value
  | _ => none

/-- The instruction ends its block. -/
def isTerminator : Instr → Bool
  | .br _ | .condBr _ _ _ | .switch _ _ _ | .ret => true
  | .select _ _ _ | .bitCast _ _ _ | .phi _ | .expect _ _ | .feed _ => false

/-- In the step from `s` to `t`, the instruction at position `k` gets the value of the operand. -/
inductive Forwards (F : Function) (s t : State SymExpr) : ℕ → Operand → Prop
  | result {I : Instr} {V : Operand} (hI : F.code[s.pc]? = some I)
      (hV : forwarded s I = some V) : Forwards F s t s.pc V
  | phi {I : Instr} {k : ℕ} {incoming : List (Label × Operand)} {V : Operand}
      (hI : F.code[s.pc]? = some I) (hjump : isTerminator I = true) (hle : t.block ≤ k)
      (hlt : k < t.pc) (hphi : F.code[k]? = some (.phi incoming))
      (hV : incoming.lookup s.block = some V) : Forwards F s t k V

/-- The result of an instruction that forwards a value is null only if the expression of the value
is. -/
def KeepsExpressions (F : Function) (s t : State SymExpr) : Prop :=
  ∀ k V, Forwards F s t k V → attached F t (.value (.inst k)) = none → attached F s V = none

/-- The visitor gives the result an entry if it finds one for the operand. -/
def registersResult : Instr → Bool
  | .select _ _ _ | .bitCast (.floatingPoint _) (.int _) _ => false
  | _ => true

/-- If the instruction that comes next forwards a value with an expression, then its visitor
registers the result and finds the expression. -/
def CanKeep (F : Function) (s : State SymExpr) : Prop :=
  ∀ I V, F.code[s.pc]? = some I → forwarded s I = some V →
    attached F s V = none ∨ registersResult I = true ∧ LaidOutBefore s.pc V

section Step

variable {B : Builders SymExpr} {F : Function} {outside : Outside SymExpr} {s t u : State SymExpr}
  {I : Instr} {k : ℕ} {V : Operand}

theorem step_eq_some : step B F outside s = some t ↔
    ∃ I u, F.code[s.pc]? = some I ∧
      (insertedCode F s.pc I).foldlM (SymCode.exec B outside) s = some u ∧
        I.exec F outside u = some t := by
  simp only [step, Option.bind_eq_some_iff, exists_and_left]

private theorem forwarded_of_isTerminator (h : isTerminator I = true) : forwarded s I = none := by
  cases I <;> first | rfl | cases h

/-- Where nothing is entered, only the instruction itself can forward a value. -/
theorem keepsExpressions_iff_of_inst (hI : F.code[s.pc]? = some I) (h : isTerminator I = false) :
    KeepsExpressions F s t ↔ ∀ V, forwarded s I = some V →
      attached F t (.value (.inst s.pc)) = none → attached F s V = none := by
  constructor
  · rintro hkeeps V hV
    exact hkeeps _ _ (.result hI hV)
  · rintro hkeeps k V (⟨hI', hV⟩ | ⟨hI', hjump⟩)
    · obtain rfl := Option.some.inj (hI.symm.trans hI')
      exact hkeeps V hV
    · obtain rfl := Option.some.inj (hI.symm.trans hI')
      rw [h] at hjump
      cases hjump

private theorem canKeep_iff (hI : F.code[s.pc]? = some I) :
    CanKeep F s ↔ ∀ V, forwarded s I = some V →
      attached F s V = none ∨ registersResult I = true ∧ LaidOutBefore s.pc V := by
  constructor
  · rintro hkeep V hV
    exact hkeep I V hI hV
  · rintro hkeep I' V hI' hV
    obtain rfl := Option.some.inj (hI.symm.trans hI')
    exact hkeep V hV

/-! ### Instructions with one result -/

/-- A result that has no expression keeps the one of the operand if there is none. -/
theorem keeps_iff_of_null (hnull : attachedOperand F (.value (.inst k)) = .null) :
    (attached F t (.value (.inst k)) = none → attached F s V = none) ↔ attached F s V = none := by
  rw [attached, hnull]
  exact ⟨fun h ↦ h rfl, fun h _ ↦ h⟩

/-- An operand that has been visited and has no entry has no expression. -/
theorem attached_eq_none (hk : k ≤ F.code.length)
    (h : getSymbolicExpression (symbolicExpressionsAt F k) V = none)
    (hbefore : LaidOutBefore k V) : attached F s V = none := by
  rw [attached, attachedOperand_of_none]
  · rfl
  · rw [getSymbolicExpression_of_laidOutBefore hk hbefore, h]

/-- `keepExpression` keeps the expression of everything that is laid out before. -/
theorem keeps_keepExpression_iff (hI : F.code[k]? = some I)
    (hvisit : visit (symbolicExpressionsAt F k) (.inst k) I
      = keepExpression (symbolicExpressionsAt F k) (.inst k) V) (hexprs : t.exprs = s.exprs) :
    (attached F t (.value (.inst k)) = none → attached F s V = none) ↔
      attached F s V = none ∨ LaidOutBefore k V := by
  have hk : k < F.code.length := (List.getElem?_eq_some_iff.mp hI).1
  have hentry := getSymbolicExpression_of_keepExpression hI hvisit
  by_cases hbefore : LaidOutBefore k V
  · have hsame : attachedOperand F (.value (.inst k)) = attachedOperand F V := by
      refine attachedOperand_congr ?_
      rw [hentry, getSymbolicExpression_of_laidOutBefore hk.le hbefore]
    refine iff_of_true ?_ (.inr hbefore)
    rw [attached, attached, hsame, hexprs]
    exact id
  · rw [getSymbolicExpression_of_not_laidOutBefore hbefore] at hentry
    rw [keeps_iff_of_null (attachedOperand_of_none hentry), or_iff_left hbefore]

private theorem visit_snd_of_not_registersResult (m : SymbolicExpressions) (id : ValueId)
    (h : registersResult I = false) : (visit m id I).2 = m := by
  have hnone : ∀ computation, (registerSymbolicComputation m id computation none).2 = m := by
    rintro (- | computation) <;> rfl
  unfold registersResult at h
  split at h
  · exact hnone _
  · exact hnone _
  · cases h

/-- What the visitor of an instruction other than a PHI node inserts. -/
theorem insertedCode_of_ne_phi (k : ℕ) (h : ∀ incoming, I ≠ .phi incoming) :
    insertedCode F k I =
      (visit (symbolicExpressionsAt F k) (.inst k) I).1.map (SymCode.replace (nodesToErase F)) := by
  rw [insertedCode, setIncomingValues]
  exact h

private theorem keepExpression_fst (m : SymbolicExpressions) (id : ValueId) (V : Operand) :
    (keepExpression m id V).1 = [] := by
  unfold keepExpression
  split <;> rfl

/-- An instruction without inserted code leaves all expressions as they are. -/
theorem exprs_of_forwarded (hV : forwarded s I = some V)
    (h : I.exec F outside u = some t) : t.exprs = u.exprs := by
  have hdefine : ∀ v : Option Value, v.map u.define = some t → t.exprs = u.exprs := by
    intro v hv
    obtain ⟨-, -, rfl⟩ := Option.map_eq_some_iff.mp hv
    rfl
  cases I with
  | select cond ifTrue ifFalse =>
    rw [Instr.exec] at h
    split at h
    · exact hdefine _ h
    · cases h
  | bitCast srcTy destTy src => exact hdefine _ h
  | expect value expected => exact hdefine _ h
  | _ => cases hV

/-- A cast that registers a call for its result. -/
theorem keeps_bitsToFloat_iff {width : ℕ} {double : Bool}
    (hI : F.code[s.pc]? = some (.bitCast (.int width) (.floatingPoint double) V))
    (hcode : (insertedCode F s.pc (.bitCast (.int width) (.floatingPoint double) V)).foldlM
      (SymCode.exec B outside) s = some u) (hexprs : t.exprs = u.exprs) :
    (attached F t (.value (.inst s.pc)) = none → attached F s V = none) ↔
      attached F s V = none ∨ LaidOutBefore s.pc V := by
  have hk := (List.getElem?_eq_some_iff.mp hI).1.le
  rw [insertedCode_of_ne_phi _ (by simp)] at hcode
  rcases hentry : getSymbolicExpression (symbolicExpressionsAt F s.pc) V with - | expr
  · -- neither the operand nor the result has an entry
    have hvisit : visit (symbolicExpressionsAt F s.pc) (.inst s.pc)
        (.bitCast (.int width) (.floatingPoint double) V) = ([], symbolicExpressionsAt F s.pc) := by
      simp [visit, visitBitCastInst, buildRuntimeCall, registerSymbolicComputation, hentry]
    rw [keeps_iff_of_null (attachedOperand_inst_of_none hI (by rw [hvisit]))]
    exact (or_iff_left_of_imp (attached_eq_none hk hentry)).symm
  · have hbefore : LaidOutBefore s.pc V := by
      by_contra hnot
      rw [getSymbolicExpression_of_not_laidOutBefore hnot] at hentry
      cases hentry
    have hvisit : visit (symbolicExpressionsAt F s.pc) (.inst s.pc)
        (.bitCast (.int width) (.floatingPoint double) V)
        = ([.build (.bitsToFloat double)
            [⟨V, getSymbolicExpressionOrNull (symbolicExpressionsAt F s.pc) V⟩]],
          (.inst s.pc, .inst s.pc) :: symbolicExpressionsAt F s.pc) := by
      simp [visit, visitBitCastInst, buildRuntimeCall, registerSymbolicComputation, hentry]
    refine iff_of_true (fun hnone ↦ ?_) (.inr hbefore)
    rw [hvisit, List.map_singleton, SymCode.replace, List.map_singleton,
      replace_getSymbolicExpressionOrNull hk hbefore] at hcode
    replace hnone : t.exprs (.inst s.pc) = none := by
      rwa [attached, attachedOperand_inst_of_cons hI (by rw [hvisit])] at hnone
    rw [List.foldlM_cons, Option.bind_eq_bind, Option.bind_eq_some_iff] at hcode
    obtain ⟨u', hexec, hu⟩ := hcode
    obtain rfl : u' = u := Option.some.inj hu
    rw [SymCode.exec] at hexec
    split at hexec
    · next hnull =>
      rw [List.forall_mem_singleton] at hnull
      exact Option.isNone_iff_eq_none.mp hnull
    · -- the call has built an expression
      obtain ⟨args, -, rfl⟩ := Option.map_eq_some_iff.mp hexec
      rw [hexprs, State.exprs_setExpr_self] at hnone
      cases hnone

private theorem visitBitCastInst_cases (srcTy destTy : Ty) (V : Operand) :
    (∃ width double, srcTy = .int width ∧ destTy = .floatingPoint double) ∨
      (∃ double width, srcTy = .floatingPoint double ∧ destTy = .int width) ∨
        registersResult (.bitCast srcTy destTy V) = true ∧
          ∀ m id, visitBitCastInst m id srcTy destTy V = keepExpression m id V := by
  cases srcTy <;> cases destTy <;> simp [registersResult, visitBitCastInst]

/-- An instruction that is not registered keeps nothing. -/
theorem keeps_iff_of_not_registersResult (hI : F.code[k]? = some I)
    (h : registersResult I = false) :
    (attached F t (.value (.inst k)) = none → attached F s V = none) ↔
      attached F s V = none ∨ registersResult I = true ∧ LaidOutBefore k V := by
  have hnull := attachedOperand_inst_of_none hI (visit_snd_of_not_registersResult _ _ h)
  rw [keeps_iff_of_null hnull, h]
  simp

/-- An instruction that has the expression of its operand keeps it. -/
theorem keeps_iff_of_keepExpression (hI : F.code[s.pc]? = some I)
    (hV : forwarded s I = some V) (hregisters : registersResult I = true)
    (hvisit : visit (symbolicExpressionsAt F s.pc) (.inst s.pc) I
      = keepExpression (symbolicExpressionsAt F s.pc) (.inst s.pc) V)
    (hcode : (insertedCode F s.pc I).foldlM (SymCode.exec B outside) s = some u)
    (hexprs : t.exprs = u.exprs) :
    (attached F t (.value (.inst s.pc)) = none → attached F s V = none) ↔
      attached F s V = none ∨ registersResult I = true ∧ LaidOutBefore s.pc V := by
  have hne : ∀ incoming, I ≠ .phi incoming := by
    rintro incoming rfl
    cases hV
  rw [insertedCode_of_ne_phi _ hne, hvisit, keepExpression_fst] at hcode
  obtain rfl : s = u := Option.some.inj hcode
  rw [keeps_keepExpression_iff hI hvisit hexprs, hregisters]
  simp

/-- An instruction keeps the expression of the value that it forwards exactly if its visitor
registers the result and finds an entry, unless there is no expression. -/
theorem keeps_iff (hI : F.code[s.pc]? = some I) (hV : forwarded s I = some V)
    (hcode : (insertedCode F s.pc I).foldlM (SymCode.exec B outside) s = some u)
    (hexprs : t.exprs = u.exprs) :
    (attached F t (.value (.inst s.pc)) = none → attached F s V = none) ↔
      attached F s V = none ∨ registersResult I = true ∧ LaidOutBefore s.pc V := by
  cases I with
  | select cond ifTrue ifFalse => exact keeps_iff_of_not_registersResult hI rfl
  | expect value expected =>
    obtain rfl := Option.some.inj hV
    exact keeps_iff_of_keepExpression hI hV rfl rfl hcode hexprs
  | bitCast srcTy destTy src =>
    obtain rfl := Option.some.inj hV
    obtain ⟨width, double, rfl, rfl⟩ | ⟨double, width, rfl, rfl⟩ | ⟨hregisters, hvisit⟩ :=
      visitBitCastInst_cases srcTy destTy src
    · rw [keeps_bitsToFloat_iff hI hcode hexprs]
      simp [registersResult]
    · exact keeps_iff_of_not_registersResult hI rfl
    · exact keeps_iff_of_keepExpression hI hV hregisters (hvisit _ _) hcode hexprs
  | _ => cases hV

/-! ### PHI nodes -/

private theorem insertedCode_phi (F : Function) (k : ℕ) (incoming : List (Label × Operand)) :
    insertedCode F k (.phi incoming)
      = if erasesPHI (finalSymbolicExpressions F) (.phi incoming) then []
        else [.phi (incoming.map fun edge ↦ (edge.1, attachedOperand F edge.2))] := by
  rw [insertedCode, setIncomingValues]
  split
  · rfl
  · rw [List.map_singleton, SymCode.replace, List.map_map]
    rfl

/-- A PHI node of compile-time constants receives null expressions only. -/
theorem attachedOperand_of_erasesPHI {incoming : List (Label × Operand)} {pred : Label}
    (herase : erasesPHI (finalSymbolicExpressions F) (.phi incoming) = true)
    (hV : incoming.lookup pred = some V) : attachedOperand F V = .null :=
  attachedOperand_of_none
    (Option.isNone_iff_eq_none.mp
      (List.all_eq_true.mp herase _ (Symbolizer.mem_of_lookup hV)))

/-- One symbolic PHI: the result has the expression of the incoming value. -/
theorem attached_phi {incoming : List (Label × Operand)} (hI : F.code[k]? = some (.phi incoming))
    (hV : incoming.lookup s.block = some V) {exprs : ValueId → Option SymExpr}
    (hexprs : t.exprs (.inst k) = enterSymbolicPhi F s k incoming exprs (.inst k)) :
    attached F t (.value (.inst k)) = attached F s V := by
  rw [attached, attachedOperand_inst_of_cons hI rfl, attached]
  rw [enterSymbolicPhi, insertedCode_phi] at hexprs
  split
  · next herase =>
    rw [attachedOperand_of_erasesPHI herase hV]
    rfl
  · next herase =>
    rw [if_neg herase] at hexprs
    dsimp only at hexprs
    rw [Symbolizer.lookup_map, hV, Function.update_self] at hexprs
    exact hexprs

private theorem enterSymbolicPhi_of_ne (F : Function) (s : State SymExpr) {pos : ℕ}
    (incoming : List (Label × Operand)) (exprs : ValueId → Option SymExpr) {id : ValueId}
    (h : id ≠ .inst pos) : enterSymbolicPhi F s pos incoming exprs id = exprs id := by
  rw [enterSymbolicPhi, insertedCode_phi]
  by_cases herase : erasesPHI (finalSymbolicExpressions F) (.phi incoming) = true
  · rw [if_pos herase]
  · rw [if_neg herase]
    exact Function.update_of_ne h _ _

/-- What holds on entry to a block once its PHI nodes from position `pos` on have been evaluated in
the state `s`. -/
structure Entered (F : Function) (s : State SymExpr) (pos : ℕ) (u t : State SymExpr) : Prop where
  block : t.block = u.block
  le : pos ≤ t.pc
  /-- What is laid out before is left alone. -/
  before : ∀ k < pos, t.env (.inst k) = u.env (.inst k) ∧ t.exprs (.inst k) = u.exprs (.inst k)
  /-- The PHI nodes have the values and the expressions of the operands for the block of `s`. -/
  phi : ∀ k incoming V, pos ≤ k → k < t.pc → F.code[k]? = some (.phi incoming) →
    incoming.lookup s.block = some V →
      t.env (.inst k) = V.eval s.env ∧ attached F t (.value (.inst k)) = attached F s V

theorem Entered.nil (F : Function) (s u : State SymExpr) (pos : ℕ) :
    Entered F s pos u { u with pc := pos } where
  block := rfl
  le := Nat.le_refl pos
  before := fun _ _ ↦ ⟨rfl, rfl⟩
  phi := by
    rintro k incoming V hle hlt
    exact absurd hlt (Nat.not_lt_of_le hle)

/-- One PHI node. -/
theorem Entered.cons {pos : ℕ} {incoming : List (Label × Operand)} {v : Value}
    (hI : F.code[pos]? = some (.phi incoming))
    (hv : (incoming.lookup s.block).bind (·.eval s.env) = some v)
    (h : Entered F s (pos + 1)
      { u with
        env := Function.update u.env (.inst pos) (some v)
        exprs := enterSymbolicPhi F s pos incoming u.exprs } t) :
    Entered F s pos u t where
  block := h.block
  le := Nat.le_of_succ_le h.le
  before := by
    rintro k hk
    have hne : ValueId.inst k ≠ .inst pos := by
      intro heq
      cases heq
      exact Nat.lt_irrefl _ hk
    obtain ⟨henv, hexprs⟩ := h.before k (Nat.lt_succ_of_lt hk)
    exact ⟨henv.trans (Function.update_of_ne hne _ _),
      hexprs.trans (enterSymbolicPhi_of_ne F s incoming u.exprs hne)⟩
  phi := by
    rintro k incoming' V hle hlt hk hV
    rcases Nat.eq_or_lt_of_le hle with rfl | hlt'
    · obtain ⟨henv, hexprs⟩ := h.before pos (Nat.lt_succ_self pos)
      cases Option.some.inj (hI.symm.trans hk)
      rw [hV, Option.bind_some] at hv
      refine ⟨?_, attached_phi hI hV hexprs⟩
      rw [henv, hv]
      exact Function.update_self _ _ _
    · exact h.phi k incoming' V hlt' hlt hk hV

private theorem entered_enterPhis {pos : ℕ} {code : List Instr}
    (hcode : ∀ k, code[k]? = F.code[pos + k]?)
    (h : enterPhis F s pos code u = some t) : Entered F s pos u t := by
  induction code generalizing pos u with
  | nil =>
    obtain rfl := Option.some.inj h
    exact Entered.nil F s u pos
  | cons I code ih =>
    by_cases hphi : ∃ incoming, I = .phi incoming
    · obtain ⟨incoming, rfl⟩ := hphi
      obtain ⟨v, hv, hrest⟩ := Option.bind_eq_some_iff.mp h
      have htail : ∀ k, code[k]? = F.code[pos + 1 + k]? := by
        intro k
        rw [Nat.add_assoc, Nat.add_comm 1]
        exact hcode (k + 1)
      exact Entered.cons (hcode 0).symm hv (ih htail hrest)
    · rw [enterPhis] at h
      · obtain rfl := Option.some.inj h
        exact Entered.nil F s u pos
      · rintro incoming rest heq
        cases heq
        exact hphi ⟨incoming, rfl⟩

/-- After a jump. -/
theorem entered_jump {target : Label} (h : jump F s target = some t) :
    t.block = target ∧ Entered F s target { s with block := target } t := by
  have hentered : Entered F s target { s with block := target } t := by
    refine entered_enterPhis (fun k ↦ ?_) h
    rw [List.getElem?_drop]
  exact ⟨hentered.block, hentered⟩

private theorem exec_of_isTerminator (hI : isTerminator I = true)
    (h : I.exec F outside u = some t) : ∃ target, jump F u target = some t := by
  cases I with
  | br target => exact ⟨target, h⟩
  | condBr cond ifTrue ifFalse =>
    rw [Instr.exec] at h
    split at h
    · exact ⟨_, h⟩
    · cases h
  | switch cond default cases =>
    obtain ⟨v, -, h⟩ := Option.bind_eq_some_iff.mp h
    exact ⟨_, (Option.ite_none_right_eq_some.mp h).2⟩
  | ret => cases h
  | _ => cases hI

/-- Code that does nothing but push constraints. -/
def pushesConstraints : SymCode → Bool
  | .pushPathConstraint _ _ | .constraints _ _ _ => true
  | .build _ _ | .fetch | .phi _ => false

private theorem exec_of_pushesConstraints {c : SymCode} (hc : pushesConstraints c = true)
    (h : c.exec B outside s = some u) : ∃ pathConstraints, u = { s with pathConstraints } := by
  cases c with
  | pushPathConstraint cond inputs =>
    rw [SymCode.exec] at h
    split at h
    · exact ⟨s.pathConstraints, (Option.some.inj h).symm⟩
    split at h
    · exact ⟨_, (Option.some.inj h).symm⟩
    · cases h
  | constraints cond conditionExpr cases =>
    rw [SymCode.exec] at h
    split at h
    · exact ⟨s.pathConstraints, (Option.some.inj h).symm⟩
    · obtain ⟨v, -, hu⟩ := Option.map_eq_some_iff.mp h
      exact ⟨_, hu.symm⟩
  | _ => cases hc

private theorem foldlM_of_pushesConstraints {code : List SymCode}
    (hcode : ∀ c ∈ code, pushesConstraints c = true)
    (h : code.foldlM (SymCode.exec B outside) s = some u) :
    ∃ pathConstraints, u = { s with pathConstraints } := by
  induction code generalizing s with
  | nil => exact ⟨s.pathConstraints, (Option.some.inj h).symm⟩
  | cons c code ih =>
    rw [List.forall_mem_cons] at hcode
    rw [List.foldlM_cons, Option.bind_eq_bind, Option.bind_eq_some_iff] at h
    obtain ⟨s', hc, hrest⟩ := h
    obtain ⟨_, rfl⟩ := exec_of_pushesConstraints hcode.1 hc
    obtain ⟨pathConstraints, rfl⟩ := ih hcode.2 hrest
    exact ⟨pathConstraints, rfl⟩

private theorem pushesConstraints_replace (erased : List ValueId) (c : SymCode) :
    pushesConstraints (c.replace erased) = pushesConstraints c := by
  cases c <;> rfl

private theorem pushesConstraints_visit (m : SymbolicExpressions) (id : ValueId)
    (hI : isTerminator I = true) : ∀ c ∈ (visit m id I).1, pushesConstraints c = true := by
  cases I with
  | condBr cond ifTrue ifFalse =>
    rw [visit, visitBranchInst]
    cases buildRuntimeCall m [cond] with
    | none => exact List.forall_mem_nil _
    | some inputs => exact List.forall_mem_singleton.mpr rfl
  | switch cond default cases =>
    rw [visit, visitSwitchInst]
    split
    · exact List.forall_mem_nil _
    · exact List.forall_mem_singleton.mpr rfl
  | br target => exact List.forall_mem_nil _
  | ret => exact List.forall_mem_nil _
  | _ => cases hI

/-- The code before a terminator does nothing but push constraints. -/
theorem pushesConstraints_insertedCode (F : Function) (k : ℕ) (hI : isTerminator I = true) :
    ∀ c ∈ insertedCode F k I, pushesConstraints c = true := by
  have hne : ∀ incoming, I ≠ .phi incoming := by
    rintro incoming rfl
    cases hI
  rw [insertedCode_of_ne_phi k hne, List.forall_mem_map]
  intro c hc
  rw [pushesConstraints_replace]
  exact pushesConstraints_visit _ _ hI c hc

/-- A jump gives the PHI nodes the values and the expressions of their operands. -/
theorem phi_of_isTerminator (hstep : step B F outside s = some t) (hI : F.code[s.pc]? = some I)
    (hjump : isTerminator I = true) {k : ℕ} {incoming : List (Label × Operand)} {V : Operand}
    (hle : t.block ≤ k) (hlt : k < t.pc) (hphi : F.code[k]? = some (.phi incoming))
    (hV : incoming.lookup s.block = some V) :
    t.env (.inst k) = V.eval s.env ∧ attached F t (.value (.inst k)) = attached F s V := by
  obtain ⟨I', u, hI', hcode, hexec⟩ := step_eq_some.mp hstep
  obtain rfl := Option.some.inj (hI.symm.trans hI')
  obtain ⟨pathConstraints, rfl⟩ :=
    foldlM_of_pushesConstraints (pushesConstraints_insertedCode F s.pc hjump) hcode
  obtain ⟨target, hjump'⟩ := exec_of_isTerminator hjump hexec
  obtain ⟨hblock, hentered⟩ := entered_jump hjump'
  exact hentered.phi k incoming V (hblock ▸ hle) hlt hphi hV

/-- A jump keeps the expressions of all values that it forwards. -/
theorem keepsExpressions_of_isTerminator (hstep : step B F outside s = some t)
    (hI : F.code[s.pc]? = some I) (hjump : isTerminator I = true) : KeepsExpressions F s t := by
  rintro k V (⟨hI', hV⟩ | ⟨-, -, hle, hlt, hphi, hV⟩) hnone
  · obtain rfl := Option.some.inj (hI.symm.trans hI')
    rw [forwarded_of_isTerminator hjump] at hV
    cases hV
  · rw [(phi_of_isTerminator hstep hI hjump hle hlt hphi hV).2] at hnone
    exact hnone

/-! ## Runs -/

/-- One step. -/
theorem keepsExpressions_iff_canKeep (hstep : step B F outside s = some t) :
    KeepsExpressions F s t ↔ CanKeep F s := by
  obtain ⟨I, u, hI, hcode, hexec⟩ := step_eq_some.mp hstep
  rw [canKeep_iff hI]
  rcases hjump : isTerminator I with - | -
  · rw [keepsExpressions_iff_of_inst hI hjump]
    refine forall₂_congr fun V hV ↦ keeps_iff hI hV hcode ?_
    exact exprs_of_forwarded hV hexec
  · refine iff_of_true (keepsExpressions_of_isTerminator hstep hI hjump) fun V hV ↦ ?_
    rw [forwarded_of_isTerminator hjump] at hV
    cases hV

/-- Inserted code leaves the values of the function alone. -/
theorem env_exec {c : SymCode} (h : c.exec B outside s = some u) :
    u.env = s.env ∧ u.pc = s.pc := by
  rcases hc : pushesConstraints c with - | -
  · cases c with
    | build function inputs =>
      rw [SymCode.exec] at h
      split at h
      · obtain rfl := Option.some.inj h
        exact ⟨rfl, rfl⟩
      · obtain ⟨args, -, rfl⟩ := Option.map_eq_some_iff.mp h
        exact ⟨rfl, rfl⟩
    | fetch =>
      obtain rfl := Option.some.inj h
      exact ⟨rfl, rfl⟩
    | phi incoming => cases h
    | _ => cases hc
  · obtain ⟨pathConstraints, rfl⟩ := exec_of_pushesConstraints hc h
    exact ⟨rfl, rfl⟩

private theorem env_foldlM {code : List SymCode}
    (h : code.foldlM (SymCode.exec B outside) s = some u) : u.env = s.env ∧ u.pc = s.pc := by
  induction code generalizing s with
  | nil =>
    obtain rfl := Option.some.inj h
    exact ⟨rfl, rfl⟩
  | cons c code ih =>
    rw [List.foldlM_cons, Option.bind_eq_bind, Option.bind_eq_some_iff] at h
    obtain ⟨s', hc, hrest⟩ := h
    obtain ⟨henv, hpc⟩ := env_exec hc
    obtain ⟨henv', hpc'⟩ := ih hrest
    exact ⟨henv'.trans henv, hpc'.trans hpc⟩

private theorem env_of_forwarded (hV : forwarded u I = some V) (h : I.exec F outside u = some t) :
    t.env (.inst u.pc) = V.eval u.env := by
  have hdefine : ∀ V : Operand, (V.eval u.env).map u.define = some t →
      t.env (.inst u.pc) = V.eval u.env := by
    intro V hdefined
    obtain ⟨v, hv, rfl⟩ := Option.map_eq_some_iff.mp hdefined
    exact (Function.update_self _ _ _).trans hv.symm
  cases I with
  | select cond ifTrue ifFalse =>
    rw [Instr.exec] at h
    rw [forwarded] at hV
    split at h
    · next c hcond =>
      rw [hcond] at hV
      obtain rfl := Option.some.inj hV
      exact hdefine _ h
    · cases h
  | bitCast srcTy destTy src =>
    obtain rfl := Option.some.inj hV
    exact hdefine _ h
  | expect value expected =>
    obtain rfl := Option.some.inj hV
    exact hdefine _ h
  | _ => cases hV

/-- The value of the operand is forwarded indeed. -/
theorem env_of_forwards (hstep : step B F outside s = some t) (h : Forwards F s t k V) :
    t.env (.inst k) = V.eval s.env := by
  obtain ⟨hI', hV⟩ | ⟨hI', hjump, hle, hlt, hphi, hV⟩ := h
  · obtain ⟨I, u, hI, hcode, hexec⟩ := step_eq_some.mp hstep
    obtain ⟨henv, hpc⟩ := env_foldlM hcode
    obtain rfl := Option.some.inj (hI.symm.trans hI')
    have hV' : forwarded u I = some V := by
      rw [← hV]
      cases I <;> first | rfl | rw [forwarded, forwarded, henv]
    have hvalue := env_of_forwarded hV' hexec
    rwa [hpc, henv] at hvalue
  · exact (phi_of_isTerminator hstep hI' hjump hle hlt hphi hV).1

end Step

private theorem step_of_mem_transitions {B : Builders SymExpr} {F : Function} {s : State SymExpr}
    {outsides : List (Outside SymExpr)} {p : State SymExpr × State SymExpr}
    (hp : p ∈ transitions B F s outsides) : ∃ outside, step B F outside p.1 = some p.2 := by
  induction outsides generalizing s with
  | nil => exact absurd hp List.not_mem_nil
  | cons outside outsides ih =>
    rw [transitions] at hp
    split at hp
    · exact absurd hp List.not_mem_nil
    · next t hstep =>
      obtain rfl | hp := List.mem_cons.mp hp
      · exact ⟨outside, hstep⟩
      · exact ih hp

/-- In every run, all steps keep the expressions of the values that they forward exactly if,
whenever an instruction other than a PHI node forwards a value that has one, its visitor registers
the result and finds the expression. -/
theorem keepsExpressions_iff (B : Builders SymExpr) (F : Function) (s : State SymExpr)
    (outsides : List (Outside SymExpr)) :
    (∀ p ∈ transitions B F s outsides, KeepsExpressions F p.1 p.2) ↔
      ∀ p ∈ transitions B F s outsides, CanKeep F p.1 := by
  refine forall₂_congr fun p hp ↦ ?_
  obtain ⟨outside, hstep⟩ := step_of_mem_transitions hp
  exact keepsExpressions_iff_canKeep hstep

/-! ## A function that loses an expression -/

/-- The expressions of a backend that writes down what it is asked to build. -/
inductive Tree
  | input (offset : ℕ)
  | value (v : Value)
  | call (function : SymFnT) (args : List Tree)

def treeBuilders : Builders Tree where
  build := .call
  createValueExpression := .value

/-- `int f(bool c, int x) { return c ? x : 0; }` -/
def selectArgument : Function where
  isMain := false
  args := [true, true]
  code := [.select (.value (.arg 0)) (.value (.arg 1)) (.const (.bv 32 0)), .ret]

/-- A call `f(true, x)` with a symbolic `x`. -/
def symbolicCall : State Tree :=
  start (fun n ↦ if n = 0 then some (.bool true) else some (.bv 32 65))
    (fun n ↦ if n = 1 then some (.input 0) else none)

/-- The result of the `select` is null, and the chosen argument is not. -/
theorem not_keepsExpressions :
    ¬ ∀ p ∈ transitions treeBuilders selectArgument symbolicCall [⟨.bool false, none⟩],
      KeepsExpressions selectArgument p.1 p.2 := by
  intro h
  have hstep : step treeBuilders selectArgument ⟨.bool false, none⟩ symbolicCall
      = some (symbolicCall.define (.bv 32 65)) := rfl
  have hkeeps : KeepsExpressions selectArgument symbolicCall (symbolicCall.define (.bv 32 65)) :=
    h (symbolicCall, symbolicCall.define (.bv 32 65)) List.mem_cons_self
  have hnull := hkeeps 0 (.value (.arg 1)) (.result rfl rfl) rfl
  cases hnull

end Adacc.Forwarding
