import Adacc.Compiler.ShortCircuiting
import Mathlib.Data.List.Nodup

/-!
# Functions before short-circuiting

A function before short-circuiting is a `SourceFunction`, in which computations that have been
recorded stand between other instructions, refer to the results of each other in any way, and may be
on cycles. Running it evaluates every computation as a whole.

`codeAfter` is the code after some of the computations have been rewritten. It depends on which, but
not on the order: `shortCircuitExpressionUses_code`.
-/

namespace Adacc.ShortCircuiting

/-! ## Functions -/

/-- An operand: the result of a computation is that of its last call. -/
inductive SourceOperand
  | null
  | other (n : ℕ)
  | result (computation : ℕ)
  deriving DecidableEq

/-- The operand in the code that the pass has inserted. -/
def SourceOperand.toOperand : SourceOperand → Operand
  | .null => .null
  | .other n => .value (.other n)
  | .result c => .value (.result c)

/-- The operand after all computations have been rewritten. -/
def SourceOperand.final : SourceOperand → Operand
  | .null => .null
  | .other n => .value (.other n)
  | .result c => .value (.finalExpression c)

section Source

variable {F V : Type}

inductive SourceItem (F V : Type)
  | other (n : ℕ) (operands : List SourceOperand)
  | recorded (c : ℕ) (computation : SymbolicComputation F V SourceOperand)
      (h : computation.Recorded)

structure SourceBlock (F V : Type) where
  phis : List (ℕ × List (ℕ × SourceOperand))
  items : List (SourceItem F V)

def SourceItem.operands : SourceItem F V → List SourceOperand
  | .other _ operands => operands
  | .recorded _ computation _ => computation.inputs.map Input.symbolicOperand

def SourceItem.ids : SourceItem F V → List ℕ
  | .other _ _ => []
  | .recorded c _ _ => [c]

def SourceBlock.operands (b : SourceBlock F V) : List SourceOperand :=
  b.phis.flatMap (fun phi ↦ phi.2.map Prod.snd) ++ b.items.flatMap SourceItem.operands

def SourceBlock.ids (b : SourceBlock F V) : List ℕ := b.items.flatMap SourceItem.ids

/-- A function with its recorded computations. -/
structure SourceFunction (F V : Type) where
  blocks : List (SourceBlock F V)
  ids_nodup : (blocks.flatMap SourceBlock.ids).Nodup
  /-- an operand is the result of a computation of the function -/
  result_mem : ∀ c, .result c ∈ blocks.flatMap SourceBlock.operands →
    c ∈ blocks.flatMap SourceBlock.ids

namespace SourceFunction

variable (f : SourceFunction F V)

/-- The recorded computations. -/
def ids : List ℕ := f.blocks.flatMap SourceBlock.ids

def operands : List SourceOperand := f.blocks.flatMap SourceBlock.operands

/-- The result of the computation is used. -/
def Uses (c : ℕ) : Prop := .result c ∈ f.operands

instance : DecidablePred f.Uses := fun _ ↦ inferInstanceAs (Decidable (_ ∈ _))

end SourceFunction

def SourceItem.toItem : SourceItem F V → Item F V
  | .other n operands => .line (.other n (operands.map SourceOperand.toOperand))
  | .recorded c computation _ => .recorded c (computation.map SourceOperand.toOperand)

def SourceBlock.toBlock (b : SourceBlock F V) : Block F V where
  phis := b.phis.map fun phi ↦ (phi.1, phi.2.map fun edge ↦ (edge.1, edge.2.toOperand))
  items := b.items.map SourceItem.toItem

/-- The code that the pass has inserted. -/
def SourceFunction.code (f : SourceFunction F V) : List (Block F V) :=
  f.blocks.map SourceBlock.toBlock

end Source

/-! ### Running them -/

/-- An evaluation of a computation: what has happened before and after it, the expressions of its
inputs, and its result. -/
structure Visit (F C E : Type) where
  start : List (Event F C E)
  inputs : List (Option E)
  stop : List (Event F C E)
  result : Option E

structure SourceState (F C E : Type) where
  others : ℕ → Option E
  results : ℕ → Option E
  events : List (Event F C E)
  visits : List (Visit F C E)

section Exec

variable {F V C E : Type}

def SourceOperand.eval (s : SourceState F C E) : SourceOperand → Option E
  | .null => none
  | .other n => s.others n
  | .result c => s.results c

/-- On entry to the function. -/
def SourceState.start (arguments : ℕ → Option E) : SourceState F C E :=
  ⟨arguments, fun _ ↦ none, [], []⟩

/-- On entry to the function, for the code that the pass has inserted. -/
def State.start (arguments : ℕ → Option E) : State F C E where
  env
    | .other n => arguments n
    | _ => none
  checks _ := false
  cameFrom := none
  events := []

variable (world : Environment F V C E)

def SourceItem.exec (s : SourceState F C E) : SourceItem F V → SourceState F C E
  | .other n operands =>
    let operands := operands.map (SourceOperand.eval s)
    { s with
      others := Function.update s.others n (world.other s.events n operands)
      events := s.events ++ [.other n operands] }
  | .recorded c computation _ =>
    let (events, result) := computation.evaluate world s.events (SourceOperand.eval s)
    { s with
      results := Function.update s.results c result
      events
      visits := s.visits ++
        [⟨s.events, computation.inputs.map fun input ↦ input.symbolicOperand.eval s, events,
          result⟩] }

def SourceState.enterPhis (pred : ℕ) (phis : List (ℕ × List (ℕ × SourceOperand)))
    (s : SourceState F C E) : ℕ → Option E :=
  phis.foldl (fun others phi ↦ Function.update others phi.1
    (((phi.2.lookup pred).getD .null).eval s)) s.others

def SourceBlock.exec (b : SourceBlock F V) (label : ℕ) (s : ℕ × SourceState F C E) :
    ℕ × SourceState F C E :=
  let entered := { s.2 with
    others := s.2.enterPhis s.1 b.phis
    events := s.2.events ++ [.block label] }
  (label, b.items.foldl (SourceItem.exec world) entered)

/-- Run the blocks of a path, with the block before each. -/
def SourceFunction.exec (f : SourceFunction F V) (path : List (Fin f.blocks.length))
    (s : ℕ × SourceState F C E) : ℕ × SourceState F C E :=
  path.foldl (fun s b ↦ (f.blocks.get b).exec world b s) s

end Exec

/-! ## The code after some computations have been rewritten -/

section After

variable {F V : Type}

/-- An operand after the computations in `done` have been rewritten. -/
def SourceOperand.after (done : List ℕ) : SourceOperand → Operand
  | .null => .null
  | .other n => .value (.other n)
  | .result c => if c ∈ done then .value (.finalExpression c) else .value (.result c)

section Item

variable (used : ℕ → Prop) [DecidablePred used] (done : List ℕ)

def SourceItem.after : SourceItem F V → Item F V
  | .other n operands => .line (.other n (operands.map (SourceOperand.after done)))
  | .recorded c computation _ =>
    if c ∈ done then
      .rewritten c (diamond c (computation.map (SourceOperand.after done)) ++
        if used c then [finalPHI c] else [])
    else .recorded c (computation.map (SourceOperand.after done))

def SourceBlock.after (b : SourceBlock F V) : Block F V where
  phis := b.phis.map fun phi ↦ (phi.1, phi.2.map fun edge ↦ (edge.1, edge.2.after done))
  items := b.items.map (SourceItem.after used done)

end Item

def SourceFunction.codeAfter (f : SourceFunction F V) (done : List ℕ) : List (Block F V) :=
  f.blocks.map (SourceBlock.after f.Uses done)

theorem SourceFunction.codeAfter_nil (f : SourceFunction F V) : f.codeAfter [] = f.code := by
  have hoperand : SourceOperand.after [] = SourceOperand.toOperand := by
    funext operand
    cases operand with
    | null | other => rfl
    | result c =>
      rw [SourceOperand.after, if_neg List.not_mem_nil]
      rfl
  have hitem (item : SourceItem F V) : item.after f.Uses [] = item.toItem := by
    cases item with
    | other n operands => rw [SourceItem.after, hoperand, SourceItem.toItem]
    | recorded c computation h =>
      rw [SourceItem.after, if_neg List.not_mem_nil, hoperand, SourceItem.toItem]
  refine List.map_congr_left fun b _ ↦ ?_
  rw [SourceBlock.after, SourceBlock.toBlock, ← hoperand, funext hitem]

/-! ### Replacing operands in a diamond -/

/-- The map leaves null and the values that a slow path makes alone. -/
structure Replaces (g : Operand → Operand) : Prop where
  eq_null_iff : ∀ operand, g operand = .null ↔ operand = .null
  newArgExpression : ∀ c i, g (.value (.newArgExpression c i)) = .value (.newArgExpression c i)
  argPHI : ∀ c i, g (.value (.argPHI c i)) = .value (.argPHI c i)
  call : ∀ c i, g (.value (.call c i)) = .value (.call c i)

private theorem replaces_replace (c : ℕ) :
    Replaces (Operand.replace (.result c) (.value (.finalExpression c))) where
  eq_null_iff operand := by
    unfold Operand.replace
    split
    · next h => exact iff_of_false nofun (h ▸ nofun)
    · exact Iff.rfl
  newArgExpression d i := if_neg nofun
  argPHI d i := if_neg nofun
  call d i := if_neg nofun

section Replaces

variable {g : Operand → Operand} (hg : Replaces g)
include hg

private theorem numUnknownConcreteness_map (inputs : List (Input V Operand)) :
    numUnknownConcreteness (inputs.map (Input.map g)) = numUnknownConcreteness inputs := by
  rw [numUnknownConcreteness, numUnknownConcreteness, List.countP_map]
  refine List.countP_congr fun input _ ↦ ?_
  simp [Input.map, hg.eq_null_iff]

private theorem argumentLines_map (c numUnknown i : ℕ) (input : Input V Operand) :
    (argumentLines c numUnknown i input : List (Line F V)).map (Line.map g)
      = argumentLines c numUnknown i (input.map g) := by
  unfold argumentLines
  rw [Input.map]
  dsimp only
  by_cases hnull : input.symbolicOperand = .null
  · rw [if_pos hnull, if_pos ((hg.eq_null_iff _).mpr hnull)]
    rfl
  · rw [if_neg hnull, if_neg (mt (hg.eq_null_iff _).mp hnull)]
    split
    · rfl
    · simp only [List.map_cons, List.map_nil, Line.map, hg.newArgExpression]

private theorem newOperands_map (c : ℕ) (inputs : List (Input V Operand)) (i : ℕ) :
    newOperands c (inputs.map (Input.map g)) i = g (newOperands c inputs i) := by
  have hnull : g .null = .null := (hg.eq_null_iff _).mpr rfl
  unfold newOperands
  rw [numUnknownConcreteness_map hg, List.getElem?_map]
  cases inputs[i]? with
  | none => exact hnull.symm
  | some input =>
    simp only [Option.map_some, Option.getD_some]
    unfold finalArgExpression
    rw [Input.map]
    dsimp only
    by_cases hinput : input.symbolicOperand = .null
    · rw [if_pos hinput, if_pos ((hg.eq_null_iff _).mpr hinput), hg.newArgExpression]
    · rw [if_neg hinput, if_neg (mt (hg.eq_null_iff _).mp hinput)]
      split
      · rfl
      · exact (hg.argPHI c i).symm

private theorem replaceOperands_map (c : ℕ) (new new' : ℕ → Operand)
    (hnew : ∀ i, new' i = g (new i)) (argIndex : ℕ) (args : List (Argument V Operand)) :
    (replaceOperands c new argIndex args).map (LineArgument.map g)
      = replaceOperands c new' argIndex (args.map (Argument.map g)) := by
  induction args generalizing argIndex with
  | nil => rfl
  | cons arg args ih =>
    cases arg with
    | symbolic v operand =>
      rw [replaceOperands, List.map_cons, ih, List.map_cons, Argument.map, replaceOperands,
        LineArgument.map, hnew]
    | concrete v =>
      rw [replaceOperands, List.map_cons, ih]
      rfl
    | result index =>
      rw [replaceOperands, List.map_cons, ih, List.map_cons, Argument.map, replaceOperands,
        LineArgument.map, hg.call]

private theorem callLines_map (c : ℕ) (new new' : ℕ → Operand) (hnew : ∀ i, new' i = g (new i))
    (index argIndex : ℕ) (calls : List (Call F V Operand)) :
    (callLines c new index argIndex calls).map (Line.map g)
      = callLines c new' index argIndex (calls.map (Call.map g)) := by
  induction calls generalizing index argIndex with
  | nil => rfl
  | cons call calls ih =>
    rw [callLines, List.map_cons, ih, List.map_cons, callLines, Call.inputs_map, List.length_map,
      Line.map, replaceOperands_map hg c new new' hnew]
    rfl

private theorem diamond_map (c : ℕ) (computation : SymbolicComputation F V Operand) :
    (diamond c computation).map (Line.map g) = diamond c (computation.map g) := by
  have hnew (i : ℕ) := newOperands_map hg c computation.inputs i
  have hchecks : (nullChecks c computation.inputs : List (Line F V)).map (Line.map g)
      = nullChecks c (computation.inputs.map (Input.map g)) := by
    rw [nullChecks, nullChecks, List.map_map, List.zipIdx_map, List.map_map]
    rfl
  have hconjunctions (n : ℕ) : (conjunctions c n : List (Line F V)).map (Line.map g)
      = conjunctions c n := by
    rw [conjunctions, List.map_map]
    rfl
  have hslow : (slowPath c computation).map (Line.map g) = slowPath c (computation.map g) := by
    have hinit : (computation.map g).init.flatMap Call.inputs
        = (computation.init.flatMap Call.inputs).map (Input.map g) := by
      rw [SymbolicComputation.map, List.flatMap_map, List.map_flatMap]
      congr 1
      funext call
      exact call.inputs_map g
    unfold slowPath
    dsimp only
    rw [List.map_append, List.map_append, callLines_map hg c _ _ hnew, List.map_singleton,
      Line.map, replaceOperands_map hg c _ _ hnew, hinit, List.length_map,
      SymbolicComputation.inputs_map, numUnknownConcreteness_map hg, List.zipIdx_map,
      List.flatMap_map, List.map_flatMap]
    simp only [argumentLines_map hg]
    rfl
  unfold diamond
  dsimp only
  rw [List.map_append, List.map_append, List.map_append, List.map_append, hchecks, hconjunctions,
    hslow, SymbolicComputation.inputs_map, List.length_map]
  rfl

end Replaces

/-! ### Uses of a result -/

private theorem mem_operands_replaceOperands {c : ℕ} {new : ℕ → Operand} {argIndex : ℕ}
    {args : List (Argument V Operand)} {operand : Operand}
    (h : operand ∈ (replaceOperands c new argIndex args).filterMap LineArgument.operand) :
    (∃ i, operand = new i) ∨ ∃ i, operand = .value (.call c i) := by
  induction args generalizing argIndex with
  | nil => exact absurd h List.not_mem_nil
  | cons arg args ih =>
    cases arg with
    | symbolic v o =>
      rcases List.mem_cons.mp h with rfl | h
      · exact .inl ⟨argIndex, rfl⟩
      · exact ih h
    | concrete v => exact ih h
    | result index =>
      rcases List.mem_cons.mp h with rfl | h
      · exact .inr ⟨index, rfl⟩
      · exact ih h

private theorem mem_operands_callLines {c : ℕ} {new : ℕ → Operand} {index argIndex : ℕ}
    {calls : List (Call F V Operand)} {operand : Operand}
    (h : operand ∈ (callLines c new index argIndex calls).flatMap Line.operands) :
    (∃ i, operand = new i) ∨ ∃ i, operand = .value (.call c i) := by
  induction calls generalizing index argIndex with
  | nil => exact absurd h List.not_mem_nil
  | cons call calls ih =>
    rw [callLines, List.flatMap_cons, List.mem_append] at h
    rcases h with h | h
    · exact mem_operands_replaceOperands h
    · exact ih h

/-- An operand that takes the place of an input is a result only if the input is. -/
theorem mem_inputs_of_newOperands {c d i : ℕ} {inputs : List (Input V Operand)}
    (h : .value (.result d) = newOperands c inputs i) :
    .value (.result d) ∈ inputs.map Input.symbolicOperand := by
  unfold newOperands at h
  cases hinput : inputs[i]? with
  | none =>
    rw [hinput] at h
    cases h
  | some input =>
    rw [hinput, Option.map_some, Option.getD_some, finalArgExpression] at h
    split_ifs at h
    · cases h
    · rw [h]
      exact List.mem_map_of_mem (List.mem_of_getElem? hinput)
    · cases h

private theorem mem_operands_argumentLines {c d numUnknown i : ℕ} {input : Input V Operand}
    (h : .value (.result d) ∈
      (argumentLines c numUnknown i input : List (Line F V)).flatMap Line.operands) :
    .value (.result d) = input.symbolicOperand := by
  unfold argumentLines at h
  split_ifs at h
  · simp [Line.operands] at h
  · exact absurd h List.not_mem_nil
  · simpa [Line.operands] using h

/-- A use of a result in a diamond is a use in one of the inputs. -/
theorem mem_operands_diamond {c d : ℕ} {computation : SymbolicComputation F V Operand} :
    .value (.result d) ∈ (diamond c computation).flatMap Line.operands ↔
      .value (.result d) ∈ computation.inputs.map Input.symbolicOperand := by
  have hchecks : (nullChecks c computation.inputs : List (Line F V)).flatMap Line.operands
      = computation.inputs.map Input.symbolicOperand := by
    rw [nullChecks, List.flatMap_map]
    conv_rhs => rw [← List.zipIdx_map_fst 0 computation.inputs, List.map_map]
    exact (List.map_eq_flatMap ..).symm
  have hconjunctions : (conjunctions c computation.inputs.length : List (Line F V)).flatMap
      Line.operands = [] := by
    rw [conjunctions, List.flatMap_map, List.flatMap_eq_nil_iff]
    exact fun _ _ ↦ rfl
  have hslow (h : .value (.result d) ∈ (slowPath c computation).flatMap Line.operands) :
      .value (.result d) ∈ computation.inputs.map Input.symbolicOperand := by
    rw [slowPath, List.flatMap_append, List.flatMap_append, List.mem_append, List.mem_append] at h
    rcases h with (h | h) | h
    · obtain ⟨line, hline, hoperand⟩ := List.mem_flatMap.mp h
      obtain ⟨input, hinput, hline⟩ := List.mem_flatMap.mp hline
      rw [mem_operands_argumentLines (List.mem_flatMap.mpr ⟨line, hline, hoperand⟩)]
      exact List.mem_map_of_mem (List.fst_mem_of_mem_zipIdx hinput)
    · rcases mem_operands_callLines h with ⟨i, hi⟩ | ⟨i, hi⟩
      · exact mem_inputs_of_newOperands hi
      · cases hi
    · rw [List.flatMap_singleton] at h
      rcases mem_operands_replaceOperands h with ⟨i, hi⟩ | ⟨i, hi⟩
      · exact mem_inputs_of_newOperands hi
      · cases hi
  constructor
  · intro h
    rw [diamond] at h
    simp only [List.flatMap_append, List.mem_append, hchecks, hconjunctions] at h
    rcases h with (((h | h) | h) | h) | h
    · exact h
    · exact absurd h List.not_mem_nil
    · exact absurd h (by simp [Line.operands])
    · exact hslow h
    · exact absurd h (by simp [Line.operands])
  · intro h
    rw [diamond]
    simp only [List.flatMap_append, List.mem_append, hchecks]
    exact .inl (.inl (.inl (.inl h)))

/-! ### One more computation -/

theorem SourceOperand.after_of_mem {done : List ℕ} {c : ℕ} (hc : c ∈ done) :
    (SourceOperand.result c).after done = .value (.finalExpression c) :=
  if_pos hc

theorem SourceOperand.after_of_notMem {done : List ℕ} {c : ℕ} (hc : c ∉ done) :
    (SourceOperand.result c).after done = .value (.result c) :=
  if_neg hc

theorem replace_after {done : List ℕ} {c : ℕ} (hc : c ∉ done) (operand : SourceOperand) :
    Operand.replace (.result c) (.value (.finalExpression c)) (operand.after done)
      = operand.after (c :: done) := by
  cases operand with
  | null => rfl
  | other n => rfl
  | result d =>
    by_cases hd : d ∈ done
    · rw [SourceOperand.after_of_mem hd, SourceOperand.after_of_mem (List.mem_cons_of_mem c hd)]
      rfl
    · rw [SourceOperand.after_of_notMem hd]
      by_cases hdc : d = c
      · subst hdc
        rw [SourceOperand.after_of_mem List.mem_cons_self]
        exact if_pos rfl
      · rw [SourceOperand.after_of_notMem (List.not_mem_cons_of_ne_of_not_mem hdc hd)]
        exact if_neg fun h ↦ hdc (SymValue.result.inj (Operand.value.inj h))

section OneMore

variable {used : ℕ → Prop} [DecidablePred used] {done : List ℕ} {c : ℕ}

theorem SourceItem.after_of_mem {d : ℕ} (hd : d ∈ done)
    {computation : SymbolicComputation F V SourceOperand} (h : computation.Recorded) :
    (SourceItem.recorded d computation h).after used done
      = .rewritten d (diamond d (computation.map (SourceOperand.after done)) ++
        if used d then [finalPHI d] else []) :=
  if_pos hd

theorem SourceItem.after_of_notMem {d : ℕ} (hd : d ∉ done)
    {computation : SymbolicComputation F V SourceOperand} (h : computation.Recorded) :
    (SourceItem.recorded d computation h).after used done
      = .recorded d (computation.map (SourceOperand.after done)) :=
  if_neg hd

/-- The item after the diamond has been built and the uses have been replaced, before the PHI. -/
theorem shortCircuit_after (hc : c ∉ done) (item : SourceItem F V) :
    ((item.after used done).shortCircuit c).map
        (Operand.replace (.result c) (.value (.finalExpression c)))
      = item.after (fun d ↦ used d ∧ d ≠ c) (c :: done) := by
  have hmap (computation : SymbolicComputation F V SourceOperand) :
      (computation.map (SourceOperand.after done)).map
          (Operand.replace (.result c) (.value (.finalExpression c)))
        = computation.map (SourceOperand.after (c :: done)) := by
    rw [SymbolicComputation.map_map, funext fun operand ↦ replace_after hc operand]
  cases item with
  | other n operands =>
    rw [SourceItem.after, Item.shortCircuit, Item.map, Line.map, List.map_map, SourceItem.after,
      ← funext fun operand ↦ replace_after hc operand]
    rfl
  | recorded d computation h =>
    by_cases hd : d ∈ done
    · have hdc : d ≠ c := fun heq ↦ hc (heq ▸ hd)
      rw [SourceItem.after_of_mem hd, SourceItem.after_of_mem (List.mem_cons_of_mem c hd),
        Item.shortCircuit, Item.map, List.map_append, diamond_map (replaces_replace c), hmap]
      by_cases hused : used d
      · rw [if_pos hused, if_pos ⟨hused, hdc⟩]
        simp [Line.map, finalPHI, Operand.replace, hdc]
      · rw [if_neg hused, if_neg fun h ↦ hused h.1]
        rfl
    · rw [SourceItem.after_of_notMem hd, Item.shortCircuit]
      by_cases hdc : d = c
      · subst hdc
        rw [if_pos rfl, Item.map, SourceItem.after_of_mem List.mem_cons_self,
          diamond_map (replaces_replace d), hmap, if_neg fun h ↦ h.2 rfl, List.append_nil]
      · rw [if_neg hdc, Item.map, hmap,
          SourceItem.after_of_notMem (List.not_mem_cons_of_ne_of_not_mem hdc hd)]

private theorem addFinalPHI_after (hused : used c) (item : SourceItem F V) :
    (item.after (fun d ↦ used d ∧ d ≠ c) (c :: done)).addFinalPHI c
      = item.after used (c :: done) := by
  cases item with
  | other n operands => rfl
  | recorded d computation h =>
    by_cases hd : d ∈ c :: done
    · rw [SourceItem.after_of_mem hd, SourceItem.after_of_mem hd, Item.addFinalPHI]
      by_cases hdc : d = c
      · subst hdc
        rw [if_pos rfl, if_pos hused, if_neg fun h ↦ h.2 rfl, List.append_nil]
      · rw [if_neg hdc]
        congr 2
        exact if_congr (and_iff_left hdc) rfl rfl
    · rw [SourceItem.after_of_notMem hd, SourceItem.after_of_notMem hd]
      rfl

private theorem after_of_not_used (hused : ¬ used c) (item : SourceItem F V) :
    item.after (fun d ↦ used d ∧ d ≠ c) done = item.after used done := by
  have hiff (d : ℕ) : (used d ∧ d ≠ c) ↔ used d :=
    and_iff_left_of_imp fun hd heq ↦ hused (heq ▸ hd)
  cases item with
  | other n operands => rfl
  | recorded d computation h =>
    rw [SourceItem.after, SourceItem.after]
    simp only [hiff]

/-! ### Uses in the code in between -/

private theorem after_eq_result_iff (hc : c ∉ done) (operand : SourceOperand) :
    operand.after done = .value (.result c) ↔ operand = .result c := by
  cases operand with
  | null | other => exact iff_of_false nofun nofun
  | result d =>
    by_cases hd : d ∈ done
    · rw [SourceOperand.after_of_mem hd]
      refine iff_of_false nofun fun h ↦ hc ?_
      rwa [← SourceOperand.result.inj h]
    · rw [SourceOperand.after_of_notMem hd]
      simp

theorem result_mem_map_after_iff (hc : c ∉ done) (operands : List SourceOperand) :
    .value (.result c) ∈ operands.map (SourceOperand.after done) ↔ .result c ∈ operands := by
  rw [List.mem_map]
  constructor
  · rintro ⟨operand, hmem, heq⟩
    rwa [← (after_eq_result_iff hc operand).mp heq]
  · exact fun hmem ↦ ⟨_, hmem, (after_eq_result_iff hc _).mpr rfl⟩

/-- Building the diamond of `c` gives its result no new use, and takes none away. -/
theorem result_mem_operands_after_iff (hc : c ∉ done) (item : SourceItem F V) :
    .value (.result c) ∈ ((item.after used done).shortCircuit c).operands ↔
      .result c ∈ item.operands := by
  cases item with
  | other n operands =>
    exact result_mem_map_after_iff hc operands
  | recorded d computation h =>
    have hinputs : .value (.result c) ∈
        (computation.map (SourceOperand.after done)).inputs.map Input.symbolicOperand ↔
          .result c ∈ computation.inputs.map Input.symbolicOperand := by
      rw [← result_mem_map_after_iff hc, SymbolicComputation.inputs_map, List.map_map, List.map_map]
      rfl
    rw [SourceItem.operands, ← hinputs]
    by_cases hd : d ∈ done
    · have hdc : c ≠ d := fun heq ↦ hc (heq ▸ hd)
      rw [SourceItem.after_of_mem hd, Item.shortCircuit, Item.operands, List.flatMap_append,
        List.mem_append, mem_operands_diamond, or_iff_left]
      split
      · simp [finalPHI, Line.operands, hdc]
      · exact List.not_mem_nil
    · rw [SourceItem.after_of_notMem hd, Item.shortCircuit]
      split
      · exact mem_operands_diamond
      · exact Iff.rfl

end OneMore

namespace SourceFunction

variable (f : SourceFunction F V)

private theorem uses_codeAfter_iff {done : List ℕ} {c : ℕ} (hc : c ∉ done) :
    ShortCircuiting.Uses ((f.codeAfter done).map fun b ↦
      { b with items := b.items.map (Item.shortCircuit c) }) (.result c) ↔ f.Uses c := by
  have hblock (b : SourceBlock F V) : .value (.result c) ∈
      ({ b.after f.Uses done with
        items := (b.after f.Uses done).items.map (Item.shortCircuit c) } : Block F V).operands ↔
        .result c ∈ b.operands := by
    rw [Block.operands, SourceBlock.operands, List.mem_append, List.mem_append]
    refine or_congr ?_ ?_
    · rw [← result_mem_map_after_iff hc, SourceBlock.after, List.map_flatMap, List.flatMap_map]
      simp only [List.map_map, Function.comp_def]
    · rw [SourceBlock.after, List.map_map, List.mem_flatMap, List.mem_flatMap]
      simp only [List.mem_map, exists_exists_and_eq_and, Function.comp,
        result_mem_operands_after_iff hc]
  rw [ShortCircuiting.Uses, Uses, operands, codeAfter, List.map_map, List.mem_flatMap,
    List.mem_flatMap]
  simp only [List.mem_map, exists_exists_and_eq_and, Function.comp, hblock]

/-- One more round of the loop. -/
theorem shortCircuitComputation_codeAfter {done : List ℕ} {c : ℕ} (hc : c ∉ done) :
    shortCircuitComputation (f.codeAfter done) c = f.codeAfter (c :: done) := by
  have hphis (b : SourceBlock F V) : (b.phis.map fun phi ↦
        (phi.1, phi.2.map fun edge ↦ (edge.1, edge.2.after done))).map (fun phi ↦
          (phi.1, phi.2.map fun edge ↦ (edge.1,
            Operand.replace (.result c) (.value (.finalExpression c)) edge.2)))
      = b.phis.map fun phi ↦ (phi.1, phi.2.map fun edge ↦ (edge.1, edge.2.after (c :: done))) := by
    simp only [List.map_map, Function.comp_def, replace_after hc]
  have hreplaced : replaceAllUsesWith (.result c) (.value (.finalExpression c))
        ((f.codeAfter done).map fun b ↦ { b with items := b.items.map (Item.shortCircuit c) })
      = f.blocks.map (SourceBlock.after (fun d ↦ f.Uses d ∧ d ≠ c) (c :: done)) := by
    rw [replaceAllUsesWith, codeAfter, List.map_map, List.map_map]
    refine List.map_congr_left fun b _ ↦ ?_
    rw [Function.comp, Function.comp, Block.map, SourceBlock.after, SourceBlock.after, hphis]
    simp only [List.map_map, Function.comp_def, shortCircuit_after hc]
  rw [shortCircuitComputation, hreplaced]
  simp only [f.uses_codeAfter_iff hc]
  by_cases hused : f.Uses c
  · rw [if_pos hused, codeAfter, List.map_map]
    refine List.map_congr_left fun b _ ↦ ?_
    rw [Function.comp, SourceBlock.after, SourceBlock.after]
    simp only [List.map_map, Function.comp_def, addFinalPHI_after hused]
  · rw [if_neg hused, codeAfter]
    refine List.map_congr_left fun b _ ↦ ?_
    rw [SourceBlock.after, SourceBlock.after,
      funext (f := SourceItem.after (fun d ↦ f.Uses d ∧ d ≠ c) (c :: done))
        fun item ↦ after_of_not_used hused item]

private theorem foldl_shortCircuitComputation {done expressionUses : List ℕ}
    (h : (expressionUses.reverse ++ done).Nodup) :
    expressionUses.foldl shortCircuitComputation (f.codeAfter done)
      = f.codeAfter (expressionUses.reverse ++ done) := by
  induction expressionUses generalizing done with
  | nil => rfl
  | cons c expressionUses ih =>
    rw [List.reverse_cons, List.append_assoc, List.singleton_append] at h
    have hc : c ∉ done := (List.nodup_cons.mp h.of_append_right).1
    rw [List.foldl_cons, f.shortCircuitComputation_codeAfter hc, ih h, List.reverse_cons,
      List.append_assoc, List.singleton_append]

/-- The code depends on which computations have been rewritten, not on the order. -/
theorem shortCircuitExpressionUses_code {expressionUses : List ℕ} (h : expressionUses.Nodup) :
    shortCircuitExpressionUses expressionUses f.code = f.codeAfter expressionUses.reverse := by
  have hnodup : (expressionUses.reverse ++ []).Nodup := by
    rw [List.append_nil, List.nodup_reverse]
    exact h
  rw [shortCircuitExpressionUses, ← f.codeAfter_nil, f.foldl_shortCircuitComputation hnodup,
    List.append_nil]

end SourceFunction

end After

end Adacc.ShortCircuiting
