import Adacc.Compiler.ShortCircuitingSource

/-!
# Short-circuiting is correct

`exec_shortCircuitExpressionUses`: in whatever order the computations of a function are rewritten,
on every path, and whatever the expressions of its arguments are, the rewritten code makes the calls
that the evaluation of every computation as a whole makes, with the same arguments, and the operands
have the same values after them. `Visit.Ok` says what an evaluation does in terms of its inputs.

A result can be null although there is an input that is not: the runtime library may return null.
The QSYM backend does so for everything that it does not support.
-/

namespace Adacc.ShortCircuiting

variable {F V C E : Type} (world : Environment F V C E)

/-! ## The simulation -/

/-- The rewritten code has done the same. -/
structure Simulates (f : SourceFunction F V) (s : SourceState F C E) (t : State F C E) : Prop where
  others_eq : ∀ n, t.env (.other n) = s.others n
  results_eq : ∀ c, f.Uses c → t.env (.finalExpression c) = s.results c
  events_eq : t.events = s.events

section Simulates

variable {f : SourceFunction F V} {s : SourceState F C E} {t : State F C E}

/-- Defining a value in both. -/
theorem update_eq_update {name : ℕ → SymValue} (hname : Function.Injective name)
    {env : SymValue → Option E} {values : ℕ → Option E} {m : ℕ} (h : env (name m) = values m)
    (n : ℕ) (e : Option E) :
    Function.update env (name n) e (name m) = Function.update values n e m := by
  by_cases hm : m = n
  · subst hm
    rw [Function.update_self, Function.update_self]
  · rw [Function.update_of_ne (hname.ne hm), Function.update_of_ne hm, h]

private theorem other_injective : Function.Injective SymValue.other := fun _ _ ↦ SymValue.other.inj

private theorem finalExpression_injective : Function.Injective SymValue.finalExpression :=
  fun _ _ ↦ SymValue.finalExpression.inj

theorem Simulates.eval_final (h : Simulates f s t) {operand : SourceOperand}
    (hoperand : operand ∈ f.operands) : operand.final.eval t.env = operand.eval s := by
  cases operand with
  | null => rfl
  | other n => exact h.others_eq n
  | result c => exact h.results_eq c hoperand

private theorem simulates_start (f : SourceFunction F V) (arguments : ℕ → Option E) :
    Simulates f (SourceState.start arguments : SourceState F C E) (State.start arguments) :=
  ⟨fun _ ↦ rfl, fun _ _ ↦ rfl, rfl⟩

variable {done : List ℕ} (hdone : ∀ c ∈ f.ids, c ∈ done)
include hdone

private theorem after_eq_final {operand : SourceOperand} (hoperand : operand ∈ f.operands) :
    operand.after done = operand.final := by
  cases operand with
  | null | other => rfl
  | result c => exact SourceOperand.after_of_mem (hdone c (f.result_mem c hoperand))

theorem Simulates.eval_after (h : Simulates f s t) {operand : SourceOperand}
    (hoperand : operand ∈ f.operands) : (operand.after done).eval t.env = operand.eval s := by
  rw [after_eq_final hdone hoperand, h.eval_final hoperand]

private theorem isOutside_after {operand : SourceOperand} (hoperand : operand ∈ f.operands) :
    (operand.after done).IsOutside := by
  rw [after_eq_final hdone hoperand]
  cases operand <;> trivial

/-! ### One item -/

theorem Simulates.recorded (h : Simulates f s t) {c : ℕ} (hc : c ∈ f.ids)
    {computation : SymbolicComputation F V SourceOperand} (hrecorded : computation.Recorded)
    (hoperands : ∀ operand ∈ computation.inputs.map Input.symbolicOperand, operand ∈ f.operands) :
    ∃ t', ((SourceItem.recorded c computation hrecorded).after f.Uses done).exec world (none, t)
        = some (none, t') ∧
      Simulates f ((SourceItem.recorded c computation hrecorded).exec world s) t' := by
  rw [List.forall_mem_map] at hoperands
  obtain ⟨t', ht', hevents, hphi, hkept⟩ := exec_diamond world (c := c)
    (hrecorded.map (SourceOperand.after done)) (fun input hinput ↦ by
      rw [SymbolicComputation.inputs_map] at hinput
      obtain ⟨recorded, hmem, rfl⟩ := List.mem_map.mp hinput
      exact isOutside_after hdone (hoperands recorded hmem)) t
  have heval : (computation.map (SourceOperand.after done)).evaluate world t.events
      (Operand.eval t.env) = computation.evaluate world t.events (SourceOperand.eval s) :=
    SymbolicComputation.evaluate_map world
      fun input hinput ↦ h.eval_after hdone (hoperands input hinput)
  rw [heval, h.events_eq] at hevents hphi
  have hothers (n : ℕ) : t'.env (.other n) = s.others n :=
    (hkept (.value (.other n)) trivial).trans (h.others_eq n)
  have hresults (d : ℕ) (hd : f.Uses d) : t'.env (.finalExpression d) = s.results d :=
    (hkept (.value (.finalExpression d)) trivial).trans (h.results_eq d hd)
  rw [SourceItem.after_of_mem (hdone c hc), Item.exec, execLines_append, ht', Option.bind_some]
  by_cases hused : f.Uses c
  · rw [if_pos hused]
    refine ⟨_, (execLines_cons ..).trans (congrArg (·.bind (execLines world [])) hphi),
      fun n ↦ (t'.env_define_of_ne SymValue.noConfusion _).trans (hothers n),
      fun d hd ↦ update_eq_update finalExpression_injective (hresults d hd) c _, hevents⟩
  · rw [if_neg hused]
    refine ⟨t', rfl, hothers, fun d hd ↦ ?_, hevents⟩
    have hdc : d ≠ c := fun heq ↦ hused (heq ▸ hd)
    exact (hresults d hd).trans (Function.update_of_ne hdc _ _).symm

theorem Simulates.other (h : Simulates f s t) (n : ℕ) {operands : List SourceOperand}
    (hoperands : ∀ operand ∈ operands, operand ∈ f.operands) :
    ∃ t', ((SourceItem.other n operands : SourceItem F V).after f.Uses done).exec world (none, t)
        = some (none, t') ∧
      Simulates f ((SourceItem.other n operands : SourceItem F V).exec world s) t' := by
  have heval : (operands.map (SourceOperand.after done)).map (Operand.eval t.env)
      = operands.map (SourceOperand.eval s) := by
    rw [List.map_map]
    exact List.map_congr_left fun operand hmem ↦ h.eval_after hdone (hoperands operand hmem)
  refine ⟨_, rfl, fun m ↦ ?_, fun c hc ↦ ?_, ?_⟩
  · rw [SourceItem.exec, heval, h.events_eq]
    exact update_eq_update other_injective (h.others_eq m) n _
  · exact h.results_eq c hc
  · rw [SourceItem.exec, heval, h.events_eq]

theorem Simulates.item (h : Simulates f s t) {item : SourceItem F V}
    (hids : ∀ c ∈ item.ids, c ∈ f.ids)
    (hoperands : ∀ operand ∈ item.operands, operand ∈ f.operands) :
    ∃ t', (item.after f.Uses done).exec world (none, t) = some (none, t') ∧
      Simulates f (item.exec world s) t' := by
  cases item with
  | other n operands => exact h.other world hdone n hoperands
  | recorded c computation hrecorded =>
    exact h.recorded world hdone (hids c List.mem_cons_self) hrecorded hoperands

theorem Simulates.items (h : Simulates f s t) (items : List (SourceItem F V))
    (hids : ∀ item ∈ items, ∀ c ∈ item.ids, c ∈ f.ids)
    (hoperands : ∀ item ∈ items, ∀ operand ∈ item.operands, operand ∈ f.operands) :
    ∃ t', (items.map (SourceItem.after f.Uses done)).foldlM (Item.exec world) (none, t)
        = some (none, t') ∧
      Simulates f (items.foldl (SourceItem.exec world) s) t' := by
  induction items generalizing s t with
  | nil => exact ⟨t, rfl, h⟩
  | cons item items ih =>
    rw [List.forall_mem_cons] at hids hoperands
    obtain ⟨t₁, ht₁, h₁⟩ := h.item world hdone hids.1 hoperands.1
    obtain ⟨t', ht', h'⟩ := ih h₁ hids.2 hoperands.2
    refine ⟨t', ?_, h'⟩
    rw [List.map_cons, List.foldlM_cons, ht₁]
    exact ht'

/-! ### One block -/

omit hdone in
theorem lookup_map (g : SourceOperand → Operand) (pred : ℕ) (edges : List (ℕ × SourceOperand)) :
    (edges.map fun edge ↦ (edge.1, g edge.2)).lookup pred = (edges.lookup pred).map g := by
  induction edges with
  | nil => rfl
  | cons edge edges ih =>
    rw [List.map_cons, List.lookup_cons, List.lookup_cons, ih]
    split <;> rfl

/-- A PHI has the same value in both. -/
theorem Simulates.phi (h : Simulates f s t) (pred : ℕ) {edges : List (ℕ × SourceOperand)}
    (hoperands : ∀ edge ∈ edges, edge.2 ∈ f.operands) :
    (((edges.map fun edge ↦ (edge.1, edge.2.after done)).lookup pred).getD Operand.null).eval t.env
      = ((edges.lookup pred).getD SourceOperand.null).eval s := by
  rw [lookup_map]
  cases hedge : edges.lookup pred with
  | none => rfl
  | some operand =>
    obtain ⟨before, after, rfl, -⟩ := List.lookup_eq_some_iff.mp hedge
    refine h.eval_after hdone (hoperands (pred, operand) ?_)
    exact List.mem_append_right _ List.mem_cons_self

theorem Simulates.enterPhis (h : Simulates f s t) (pred : ℕ)
    (phis : List (ℕ × List (ℕ × SourceOperand)))
    (hoperands : ∀ phi ∈ phis, ∀ edge ∈ phi.2, edge.2 ∈ f.operands) (events : List (Event F C E)) :
    Simulates f { s with others := s.enterPhis pred phis, events }
      { t with
        env := enterPhis pred (phis.map fun phi ↦
          (phi.1, phi.2.map fun edge ↦ (edge.1, edge.2.after done))) t.env
        events } := by
  have hfold (env : SymValue → Option E) (others : ℕ → Option E)
      (hothers : ∀ n, env (.other n) = others n) :
      let env' := (phis.map fun phi ↦ (phi.1, phi.2.map fun edge ↦
          (edge.1, edge.2.after done))).foldl (fun env' phi ↦ Function.update env' (.other phi.1)
        (((phi.2.lookup pred).getD Operand.null).eval t.env)) env
      (∀ n, env' (.other n) = phis.foldl (fun others phi ↦ Function.update others phi.1
        (((phi.2.lookup pred).getD SourceOperand.null).eval s)) others n) ∧
      ∀ c, env' (.finalExpression c) = env (.finalExpression c) := by
    induction phis generalizing env others with
    | nil => exact ⟨hothers, fun _ ↦ rfl⟩
    | cons phi phis ih =>
      rw [List.forall_mem_cons] at hoperands
      have hphi := h.phi hdone pred hoperands.1
      obtain ⟨hall, hkept⟩ := ih hoperands.2 (Function.update env (.other phi.1)
          (((phi.2.lookup pred).getD SourceOperand.null).eval s))
        (Function.update others phi.1 (((phi.2.lookup pred).getD SourceOperand.null).eval s))
        fun n ↦ update_eq_update other_injective (hothers n) _ _
      rw [List.map_cons, List.foldl_cons, List.foldl_cons, hphi]
      refine ⟨hall, fun c ↦ (hkept c).trans ?_⟩
      exact Function.update_of_ne SymValue.noConfusion _ _
  obtain ⟨hothers, hkept⟩ := hfold t.env s.others h.others_eq
  exact ⟨hothers, fun c hc ↦ (hkept c).trans (h.results_eq c hc), rfl⟩

theorem Simulates.block (h : Simulates f s t) (pred : ℕ) (b : Fin f.blocks.length) :
    ∃ t', Block.exec world (f.codeAfter done) (pred, t) ↑b = some (↑b, t') ∧
      Simulates f ((f.blocks.get b).exec world b (pred, s)).2 t' := by
  have hmem : f.blocks.get b ∈ f.blocks := List.get_mem f.blocks b
  have hget : (f.codeAfter done)[(b : ℕ)]? = some ((f.blocks.get b).after f.Uses done) := by
    rw [SourceFunction.codeAfter, List.getElem?_map, List.getElem?_eq_getElem b.isLt]
    rfl
  have hentered := h.enterPhis hdone pred (f.blocks.get b).phis
    (fun phi hphi edge hedge ↦ List.mem_flatMap.mpr ⟨_, hmem, List.mem_append_left _
      (List.mem_flatMap.mpr ⟨phi, hphi, List.mem_map_of_mem hedge⟩)⟩) (t.events ++ [.block b])
  obtain ⟨t', ht', h'⟩ := hentered.items world hdone (f.blocks.get b).items
    (fun item hitem c hc ↦ List.mem_flatMap.mpr ⟨_, hmem, List.mem_flatMap.mpr ⟨item, hitem, hc⟩⟩)
    fun item hitem operand hoperand ↦ List.mem_flatMap.mpr ⟨_, hmem, List.mem_append_right _
      (List.mem_flatMap.mpr ⟨item, hitem, hoperand⟩)⟩
  refine ⟨t', ?_, ?_⟩
  · rw [Block.exec, hget, Option.bind_some]
    exact Option.bind_eq_some_iff.mpr ⟨(none, t'), ht', rfl⟩
  · rw [h.events_eq] at h'
    exact h'

theorem Simulates.path (h : Simulates f s t) (pred : ℕ) (path : List (Fin f.blocks.length)) :
    ∃ t', exec world (f.codeAfter done) (path.map Fin.val) (pred, t)
        = some ((f.exec world path (pred, s)).1, t') ∧
      Simulates f (f.exec world path (pred, s)).2 t' := by
  induction path generalizing pred s t with
  | nil => exact ⟨t, rfl, h⟩
  | cons b path ih =>
    obtain ⟨t₁, ht₁, h₁⟩ := h.block world hdone pred b
    obtain ⟨t', ht', h'⟩ := ih h₁ b
    refine ⟨t', ?_, h'⟩
    rw [exec, List.map_cons, List.foldlM_cons, ht₁]
    exact ht'

end Simulates

/-! ## Evaluations -/

/-- What an evaluation does: nothing if all inputs are null, and its result is null; otherwise it
makes its calls, and its result is what the last one returns. -/
structure Visit.Ok (visit : Visit F C E) : Prop where
  concrete : (∀ input ∈ visit.inputs, input = none) →
    visit.stop = visit.start ∧ visit.result = none
  symbolic : (∃ input ∈ visit.inputs, input ≠ none) → ∃ calls function args,
    visit.stop = visit.start ++ calls ++ [.call function args] ∧
      visit.result = world.call (visit.start ++ calls) function args

private theorem foldl_eval_events {V O : Type} (world : Environment F V C E)
    (start : List (Event F C E)) (env : O → Option E) (calls : List (Call F V O))
    (sofar : List (Event F C E) × List (Option E)) :
    ∃ events, (calls.foldl (Call.eval world start env) sofar).1 = sofar.1 ++ events := by
  induction calls generalizing sofar with
  | nil => exact ⟨[], (List.append_nil _).symm⟩
  | cons call calls ih =>
    obtain ⟨events, hevents⟩ := ih (call.eval world start env sofar)
    rw [List.foldl_cons, hevents, Call.eval, List.append_assoc]
    exact ⟨_, rfl⟩

private theorem ok_evaluate {O : Type} (start : List (Event F C E)) (env : O → Option E)
    (c : SymbolicComputation F V O) :
    Visit.Ok world ⟨start, c.inputs.map fun input ↦ env input.symbolicOperand,
      (c.evaluate world start env).1, (c.evaluate world start env).2⟩ where
  concrete h := by
    rw [List.forall_mem_map] at h
    have hnull : c.AllNull env := fun input hinput ↦ Option.isNone_iff_eq_none.mpr (h input hinput)
    rw [SymbolicComputation.evaluate, if_pos hnull]
    exact ⟨rfl, rfl⟩
  symbolic h := by
    obtain ⟨e, he, hne⟩ := h
    obtain ⟨input, hinput, rfl⟩ := List.mem_map.mp he
    have hnot : ¬ c.AllNull env := fun hall ↦ hne (Option.isNone_iff_eq_none.mp (hall input hinput))
    obtain ⟨events, hevents⟩ := foldl_eval_events world start env c.init (start, [])
    rw [SymbolicComputation.evaluate, if_neg hnot, SymbolicComputation.evalCalls_eq, Call.eval,
      hevents, List.getLastD_concat]
    exact ⟨events, _, _, rfl, rfl⟩

private theorem visits_ok_item {s : SourceState F C E} (h : ∀ visit ∈ s.visits, visit.Ok world)
    (item : SourceItem F V) : ∀ visit ∈ (item.exec world s).visits, visit.Ok world := by
  cases item with
  | other n operands => exact h
  | recorded c computation hrecorded =>
    intro visit hvisit
    rcases List.mem_append.mp hvisit with hvisit | hvisit
    · exact h visit hvisit
    · rw [List.mem_singleton.mp hvisit]
      exact ok_evaluate world s.events (SourceOperand.eval s) computation

private theorem visits_ok {f : SourceFunction F V} (path : List (Fin f.blocks.length)) (pred : ℕ)
    {s : SourceState F C E} (h : ∀ visit ∈ s.visits, visit.Ok world) :
    ∀ visit ∈ (f.exec world path (pred, s)).2.visits, visit.Ok world := by
  have hitems (items : List (SourceItem F V)) (s : SourceState F C E)
      (h : ∀ visit ∈ s.visits, visit.Ok world) :
      ∀ visit ∈ (items.foldl (SourceItem.exec world) s).visits, visit.Ok world := by
    induction items generalizing s with
    | nil => exact h
    | cons item items ih => exact ih _ (visits_ok_item world h item)
  induction path generalizing pred s with
  | nil => exact h
  | cons b path ih => exact ih _ (hitems _ _ h)

/-! ## Short-circuiting -/

/-- A run of the rewritten code and the run that evaluates computations as a whole. -/
def SameRun (f : SourceFunction F V) (expressionUses : List ℕ) (arguments : ℕ → Option E)
    (path : List (Fin f.blocks.length)) : Prop :=
  let s := f.exec world path (0, SourceState.start arguments)
  ∃ t, exec world (shortCircuitExpressionUses expressionUses f.code) (path.map Fin.val)
      (0, State.start arguments) = some (s.1, t) ∧
    t.events = s.2.events ∧
    ∀ operand ∈ f.operands, operand.final.eval t.env = operand.eval s.2

/-- In whatever order the computations are rewritten, the code does the same as before, and results
are null where all inputs are null or the last call returns null. -/
theorem exec_shortCircuitExpressionUses (f : SourceFunction F V) {expressionUses : List ℕ}
    (h : expressionUses.Perm f.ids) (arguments : ℕ → Option E)
    (path : List (Fin f.blocks.length)) :
    SameRun world f expressionUses arguments path ∧
      ∀ visit ∈ (f.exec world path (0, SourceState.start arguments)).2.visits,
        visit.Ok world := by
  have hnodup : expressionUses.Nodup := h.nodup_iff.mpr f.ids_nodup
  have hdone (c : ℕ) (hc : c ∈ f.ids) : c ∈ expressionUses.reverse :=
    List.mem_reverse.mpr (h.mem_iff.mpr hc)
  obtain ⟨t, ht, hsimulates⟩ := (simulates_start f arguments).path world hdone 0 path
  refine ⟨⟨t, ?_, hsimulates.events_eq, fun operand ↦ hsimulates.eval_final⟩,
    visits_ok world path 0 nofun⟩
  rw [f.shortCircuitExpressionUses_code hnodup]
  exact ht

/-! ## Null results -/

/-- The functions that the QSYM backend does not support. It returns null from them. -/
def unsupported : List String :=
  ["_sym_build_float", "_sym_build_fp_add", "_sym_build_fp_sub", "_sym_build_fp_mul",
    "_sym_build_fp_div", "_sym_build_fp_rem", "_sym_build_fp_abs",
    "_sym_build_float_ordered_greater_than", "_sym_build_float_ordered_greater_equal",
    "_sym_build_float_ordered_less_than", "_sym_build_float_ordered_less_equal",
    "_sym_build_float_ordered_equal", "_sym_build_float_ordered_not_equal",
    "_sym_build_float_ordered", "_sym_build_float_unordered",
    "_sym_build_float_unordered_greater_than", "_sym_build_float_unordered_greater_equal",
    "_sym_build_float_unordered_less_than", "_sym_build_float_unordered_less_equal",
    "_sym_build_float_unordered_equal", "_sym_build_float_unordered_not_equal",
    "_sym_build_int_to_float", "_sym_build_float_to_float", "_sym_build_bits_to_float",
    "_sym_build_float_to_bits", "_sym_build_float_to_signed_integer",
    "_sym_build_float_to_unsigned_integer"]

/-- The QSYM backend, as far as it matters what is null. -/
def qsymBackend : Environment String ℕ ℕ Unit where
  value _ v := v
  createValueExpression _ _ := some ()
  call _ function _ := if function ∈ unsupported then none else some ()
  other _ _ _ := none

/-- A function that converts its sum with a constant to a floating-point number. -/
def convertSum : SourceFunction String ℕ where
  blocks := [⟨[], [
    .recorded 0 ⟨[], "_sym_build_add", [.symbolic 0 (.other 0), .symbolic 1 .null]⟩
      (recorded_singleton nofun nofun),
    .recorded 1 ⟨[], "_sym_build_int_to_float",
      [.symbolic 2 (.result 0), .concrete 0, .concrete 1]⟩
      (recorded_singleton nofun nofun),
    .other 1 [.result 1]]⟩]
  ids_nodup := by decide
  result_mem := by
    simp [SourceBlock.operands, SourceItem.operands, SourceBlock.ids, SourceItem.ids,
      SymbolicComputation.inputs, SymbolicComputation.calls, Call.inputs, Argument.input]

theorem exec_shortCircuitExpressionUses_convertSum :
    SameRun qsymBackend convertSum [1, 0] (fun _ ↦ some ()) [(0 : Fin 1)] ∧
      ∀ visit ∈ (convertSum.exec qsymBackend [(0 : Fin 1)]
        (0, SourceState.start fun _ ↦ some ())).2.visits, visit.Ok qsymBackend :=
  exec_shortCircuitExpressionUses qsymBackend convertSum (List.Perm.swap 0 1 []) _ _

/-- A result may be null although there is an input that is not. -/
theorem not_result_eq_none_iff :
    ¬ ∀ (F V C E : Type) (world : Environment F V C E) (f : SourceFunction F V)
      (expressionUses : List ℕ), expressionUses.Perm f.ids → ∀ (arguments : ℕ → Option E)
      (path : List (Fin f.blocks.length)), SameRun world f expressionUses arguments path ∧
        ∀ visit ∈ (f.exec world path (0, SourceState.start arguments)).2.visits,
          (visit.result = none ↔ ∀ input ∈ visit.inputs, input = none) := by
  intro h
  have hvisits := (h String ℕ ℕ Unit qsymBackend convertSum [0, 1] (.refl _) (fun _ ↦ some ())
    [(0 : Fin 1)]).2
  let events : List (Event String ℕ Unit) :=
    [.block 0, .call "_sym_build_add" [.expr (some ()), .expr (some ())]]
  have hmem : ⟨events, [some ()],
      events ++ [.call "_sym_build_int_to_float" [.expr (some ()), .concrete 0, .concrete 1]],
      none⟩ ∈ (convertSum.exec qsymBackend [(0 : Fin 1)]
        (0, SourceState.start fun _ ↦ some ())).2.visits := List.mem_of_getElem? (i := 1) rfl
  exact Option.some_ne_none () ((hvisits _ hmem).mp rfl _ List.mem_cons_self)

end Adacc.ShortCircuiting
